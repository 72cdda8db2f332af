import CincServer.Proof.Api.Sessions
import CincServer.Proof.Runes

/-!
# Users and clients never share a name
-/

namespace CincServer.Proof.Api
open CincServer.Api CincServer.Json Proof.Decoding Go Lib Program
open Proof.Store (get_deleteOrg get_createOrg hasOrg_createOrg mem_listOrgs)

variable {s t : Store} {org name : GoString} {r : Request} {env : Env} {enforceACL : Bool} {route : ActorRoute}

def Apart (s : Store) : Prop :=
  ∀ org name, (s.get org clients name).isSome → s.hasOrg org ∧ s.get global users name = none

section

variable (apart : Apart s)
include apart

theorem Apart.of_le (orgs : t.orgs = s.orgs)
    (clientsLe : ∀ org name, (t.get org clients name).isSome → (s.get org clients name).isSome)
    (usersLe : ∀ name, (t.get global users name).isSome → (s.get global users name).isSome) :
    Apart t := by
  intro org name found
  obtain ⟨present, free⟩ := apart org name (clientsLe org name found)
  refine ⟨(hasOrg_congr orgs org).trans present, ?_⟩
  by_contra taken
  have before := usersLe name (Option.isSome_iff_ne_none.mpr taken)
  rw [free] at before
  cases before

theorem Apart.frame {f : Footprint} (noClients : clients ∉ f.puts) (noUsers : users ∉ f.puts)
    {space : GoString} (frame : Frame space f s t) : Apart t := by
  have le {org coll key : GoString} (noPut : coll ∉ f.puts) (found : (t.get org coll key).isSome) :
      (s.get org coll key).isSome := by
    obtain ⟨raw, stored⟩ := Option.isSome_iff_exists.mp found
    exact Option.isSome_of_eq_some (frame.stored noPut stored)
  exact apart.of_le frame.orgs (fun _ _ => le noClients) fun _ => le noUsers

theorem Apart.deleted {who : Principal} (deleted : Deleted s t who) : Apart t := by
  have le (org coll key : GoString) (found : (t.get org coll key).isSome) :
      (s.get org coll key).isSome := by
    by_cases own : IsOwn who org coll key
    · rw [deleted.own _ _ _ own] at found
      cases found
    · obtain ⟨raw, stored⟩ := Option.isSome_iff_exists.mp found
      obtain ⟨old, before, -⟩ := (deleted.swept _ _ _ own).from_stored raw stored
      exact Option.isSome_of_eq_some before
  exact apart.of_le deleted.orgs (fun org name => le org clients name) fun name =>
    le global users name

theorem apart_deleteOrg : Apart (s.deleteOrg name).1 := by
  intro org client found
  rw [get_deleteOrg] at found
  split_ifs at found with gone
  · cases found
  · obtain ⟨present, free⟩ := apart org client found
    rw [Proof.Store.hasOrg_deleteOrg, get_deleteOrg, free, ite_self, present, Bool.and_true,
      bne_iff_ne]
    refine ⟨?_, rfl⟩
    rintro rfl
    exact gone ⟨present, rfl⟩

theorem apart_createOrg : Apart (s.createOrg name).1 := by
  intro org client found
  rw [get_createOrg] at found
  obtain ⟨present, free⟩ := apart org client found
  rw [hasOrg_createOrg, get_createOrg, present, Bool.or_true]
  exact ⟨rfl, free⟩

theorem apart_putUser {raw : Raw} (free : NameFree s name .users) :
    Apart (s.put global users name raw) := by
  intro org client found
  rw [get_put_of_ne (by decide)] at found
  obtain ⟨present, unused⟩ := apart org client found
  refine ⟨present, ?_⟩
  rw [get_put, if_neg ?_]
  · exact unused
  · rintro ⟨-, -, rfl⟩
    rw [free org (mem_listOrgs present) present] at found
    cases found

theorem apart_putClient {raw : Raw} (present : s.hasOrg org)
    (free : s.get global users name = none) :
    Apart (s.put org clients name raw) := by
  intro org' client found
  have users_same : (s.put org clients name raw).get global users client =
      s.get global users client :=
    get_put_of_ne (by decide)
  rw [users_same]
  rw [get_put] at found
  split_ifs at found with here
  · obtain ⟨rfl, -, rfl⟩ := here
    exact ⟨present, free⟩
  · exact apart org' client found

theorem apart_createActor [Unicode] (resolves : Resolves s route) :
    Leads exec Apart (createActor env enforceACL r route.org route.segment) s fun _ => Apart := by
  have stashed (t : Store) (frame : Frame route.org ⟨[passwordsCollection], []⟩ s t) : Apart t :=
    apart.frame (by decide) (by decide) frame
  refine leads_createActor apart stashed fun name obj t registers frame => ?_
  have free := registers.free
  have put : Apart (t.put route.org route.segment name (mustEncode obj)) := by
    cases route with
    | users =>
      refine apart_putUser (stashed t frame) fun org _ present => ?_
      rw [frame.gets (by decide) (by decide)]
      rw [frame.hasOrg] at present
      exact free org (mem_listOrgs present) present
    | clients org =>
      refine apart_putClient (stashed t frame) ((frame.hasOrg org).trans resolves) ?_
      rw [frame.gets (by decide) (by decide)]
      exact free
  exact leads_iff.mpr (put.frame (by decide) (by decide) (frame_run within_settleActor _))

theorem apart_furnish {fullName : GoString} (present : s.hasOrg name)
    (free : s.get global users (validatorName name) = none) :
    Leads exec Apart (furnishOrg env name fullName) s fun _ => Apart := by
  have seeded (t : Store) (frame : Frame name seedWrites s t) : Apart t :=
    apart.frame (by decide) (by decide) frame
  refine leads_furnishOrg ((leads_within within_seedOrg seeded).mono fun _ t frame => ?_)
  have listed : Apart (t.put global orgsColl name (orgMeta env name fullName)) :=
    (seeded t frame).frame (by decide) (by decide) (frame_put_one t)
  have unused : t.get global users (validatorName name) = none := by
    rw [frame.gets (by decide) (by decide), free]
  have validator := @apart_putClient _ name _ listed (validatorDoc env name)
    ((frame.hasOrg name).trans present) ((get_put_of_ne (by decide)).trans unused)
  exact validator.frame (by decide) (by decide) (frame_put_one _)

end

def NamesActors : ApiRequest → Prop
  | .actor _ (.create ..) => True
  | .actor _ (.delete ..) => True
  | .organization (.create ..) => True
  | .organization (.delete _) => True
  | _ => False

def SparesValidators : ApiRequest → Store → Prop
  | .organization (.create _ r), s => s.get global users (validatorName (newOrgName r)) = none
  | _, _ => True

theorem apart_request [Unicode] (apart : Apart s) (placed : Placed s) {request : ApiRequest}
    (names : NamesActors request) (spares : SparesValidators request s) :
    Leads exec Apart (request.handler enforceACL) s fun _ => Apart := by
  cases request with
  | actor route request =>
    cases request with
    | create env r =>
      refine (leads_scope apart).past fun _ resolves => ?_
      exact apart_createActor apart resolves
    | delete r name => exact leads_deleteActor placed.noGlobal apart fun _ _ deleted => apart.deleted deleted
    | put | key => cases names
  | organization request =>
    cases request with
    | create env r =>
      refine leads_createOrganization apart fun fullName valid _ => ?_
      refine apart_furnish (apart_createOrg apart) ?_ ?_
      · rw [hasOrg_createOrg, beq_self_eq_true, Bool.true_or]
      · rw [get_createOrg]
        exact spares
    | delete name =>
      exact leads_deleteOrganization (apart.frame (by decide) (by decide)) fun frame =>
        apart_deleteOrg (apart.frame (by decide) (by decide) frame)
    | put => cases names
  | _ => cases names

/-- No user has the name of a client, as long as no organization is created whose validator would have
the name of a user. -/
theorem users_apart_from_clients [Unicode]
    (reached : Serves enforceACL (fun request s => NamesActors request ∧ SparesValidators request s) s)
    (name : GoString) :
    ¬ ((s.get global users name).isSome ∧ ∃ org, s.hasOrg org ∧ (s.get org clients name).isSome) := by
  have apart : Apart s := Session.invariant reached nofun fun request s reached admitted apart =>
    apart_request apart (placed_of_serves reached) admitted.1 admitted.2
  rintro ⟨user, org, -, client⟩
  rw [(apart org name client).2] at user
  cases user

def createsAcme : ApiRequest :=
  .organization (.create plainEnv (creates [(lit "name", .string acme), (lit "full_name", .string acme)]))

def createsUser (name : GoString) : ApiRequest :=
  .actor .users (.create plainEnv (creates [(lit "name", .string name), (lit "display_name", .string name),
    (lit "external_authentication_uid", .string name)]))

def acmeAfter [Unicode] (user : GoString) : Store :=
  ((createsAcme.handler false).run exec (((createsUser user).handler false).run exec Store.newMemoryBackend).2).2

theorem acme_validator_apart : letI : Unicode := ⟨id⟩
    Serves false (fun request s => NamesActors request ∧ SparesValidators request s) (acmeAfter alice) ∧
      (acmeAfter alice).hasOrg acme ∧ ((acmeAfter alice).get acme clients (validatorName acme)).isSome ∧
      ((acmeAfter alice).get global users alice).isSome ∧
      (acmeAfter alice).get global users (validatorName acme) = none := by
  let _ : Unicode := ⟨id⟩
  have reached : Serves false (fun request s => NamesActors request ∧ SparesValidators request s) (acmeAfter alice) := by
    refine .serve (.serve .start (createsUser alice) ⟨trivial, trivial⟩) createsAcme ⟨trivial, ?_⟩
    exact Option.isNone_iff_eq_none.mp (by decide +kernel)
  have present : (acmeAfter alice).hasOrg acme := by decide +kernel
  have client : ((acmeAfter alice).get acme clients (validatorName acme)).isSome := by decide +kernel
  refine ⟨reached, present, client, by decide +kernel, ?_⟩
  by_contra taken
  exact users_apart_from_clients reached _ ⟨Option.isSome_iff_ne_none.mpr taken, acme, present,
    client⟩

theorem validator_shares_user_name : letI : Unicode := ⟨id⟩
    Serves false (fun request _ => NamesActors request) (acmeAfter (validatorName acme)) ∧
      ((acmeAfter (validatorName acme)).get global users (validatorName acme)).isSome ∧
      (acmeAfter (validatorName acme)).hasOrg acme ∧
      ((acmeAfter (validatorName acme)).get acme clients (validatorName acme)).isSome := by
  let _ : Unicode := ⟨id⟩
  refine ⟨.serve (.serve .start (createsUser (validatorName acme)) trivial) createsAcme trivial, ?_⟩
  decide +kernel

/-! ## The email of a local user -/

def lowerRune (r : Rune) : Rune := if upperCase r then r + 0x20 else if r = 0x212A then 0x6B else r

def emailRune (r : Rune) : Bool := r < 0x80 || r = 0x17F || r = 0x212A

def StandardCase [Unicode] : Prop := ∀ r, emailRune r → Unicode.toLower r = lowerRune r

structure EmailClass (q : Rune → Bool) : Prop where
  within : ∀ r, q r → emailRune r
  lower : ∀ r, q r → q (lowerRune r)

def AsciiClass (cls : Rune → Bool) : Prop := ∀ r, cls r → r < 0x80

section Classes

variable {cls cls' : Rune → Bool}

theorem AsciiClass.or (left : AsciiClass cls) (right : AsciiClass cls') :
    AsciiClass fun r => cls r || cls' r :=
  fun r either => (Bool.or_eq_true_iff.mp either).elim (left r) (right r)

theorem ascii_oneOf {chars : String} (all : chars.toList.all (·.toNat < 0x80)) :
    AsciiClass (oneOf chars) := by
  intro r isOne
  obtain ⟨c, mem, same⟩ := List.any_eq_true.mp isOne
  rw [← beq_iff_eq.mp same]
  simpa using List.all_eq_true.mp all c mem

theorem ascii_inRanges {ranges : List (Rune × Rune)} (all : ranges.all (·.2 < 0x80)) :
    AsciiClass (inRanges ranges) := by
  intro r within
  obtain ⟨range, mem, bounds⟩ := List.any_eq_true.mp within
  have top : range.2 < 0x80 := by simpa using List.all_eq_true.mp all range mem
  have below : r ≤ range.2 := by simp_all
  exact lt_of_le_of_lt below top

theorem ascii_alnum : AsciiClass fun r => lowerCase r || digit r := by
  intro r either
  grind [lowerCase, digit]

theorem EmailClass.caseless (ascii : AsciiClass cls) : EmailClass (caseless cls) := by
  refine ⟨fun r inside => ?_, fun r inside => ?_⟩
  · have small := ascii r
    grind [Api.caseless, emailRune, lowerCase, upperCase]
  · have notKelvin : cls 0x212A = false := by
      by_contra inside
      exact absurd (ascii 0x212A (by simpa using inside)) (by decide)
    rw [lowerRune]
    split_ifs with capital kelvin
    · have back : r + 0x20 - 0x20 = r := Nat.add_sub_cancel ..
      grind [Api.caseless, lowerCase, upperCase]
    · grind [Api.caseless, lowerCase, upperCase]
    · exact inside

theorem EmailClass.plain (ascii : AsciiClass cls)
    (noCapital : ∀ r, cls r → upperCase r = false) : EmailClass cls := by
  refine ⟨fun r inside => ?_, fun r inside => ?_⟩
  · simp [emailRune, ascii r inside]
  · have small := ascii r inside
    have same : lowerRune r = r := by
      rw [lowerRune, noCapital r inside, if_neg Bool.false_ne_true, if_neg]
      grind
    rwa [same]

theorem EmailClass.rune {c : Char} (ascii : c.toNat < 0x80 ∧ upperCase c.toNat = false) :
    EmailClass (· == c.toNat) := by
  refine .plain (fun r same => ?_) fun r same => ?_
  · rw [beq_iff_eq.mp same]
    exact ascii.1
  · rw [beq_iff_eq.mp same]
    exact ascii.2

theorem EmailClass.digits {low high : Nat} (bounds : 0x30 ≤ low ∧ high ≤ 0x39) :
    EmailClass (inRanges [(low, high)]) := by
  have within (r : Rune) (inside : inRanges [(low, high)] r) :
      low ≤ r ∧ r ≤ high := by simpa [inRanges] using inside
  refine .plain (fun r inside => ?_) fun r inside => ?_
  · grind
  · grind [upperCase]

end Classes

theorem each_rune {c : Char} (ascii : c.toNat < 0x80 ∧ upperCase c.toNat = false) :
    (rune c).EachClass EmailClass :=
  EmailClass.rune ascii

theorem each_alnum : alnum.EachClass EmailClass := EmailClass.caseless ascii_alnum

theorem each_alnumDash : alnumDash.EachClass EmailClass :=
  EmailClass.caseless (ascii_alnum.or (ascii_oneOf (by decide)))

theorem each_emailLocal : emailLocal.EachClass EmailClass := by
  have atom : EmailClass (caseless fun r => lowerCase r || digit r || oneOf "!#$%&'*+/=?^_`\x7b|\x7d~-" r) :=
    .caseless (ascii_alnum.or (ascii_oneOf (by decide)))
  exact ⟨⟨atom, atom⟩, each_rune (by decide), atom, atom⟩

theorem each_escaped : escaped.EachClass EmailClass :=
  ⟨each_rune (by decide), .caseless (ascii_inRanges (by decide))⟩

theorem each_emailQuoted : emailQuoted.EachClass EmailClass :=
  ⟨each_rune (by decide), ⟨.caseless (ascii_inRanges (by decide)), each_escaped⟩, each_rune (by decide), trivial⟩

theorem each_domainLabel : domainLabel.EachClass EmailClass :=
  ⟨each_alnum, ⟨each_alnumDash, each_alnum⟩, trivial⟩

theorem each_emailDomain : emailDomain.EachClass EmailClass := by
  have dotted : (Regex.seq domainLabel (rune '.')).EachClass EmailClass :=
    ⟨each_domainLabel, each_rune (by decide)⟩
  exact ⟨⟨dotted, dotted⟩, each_domainLabel⟩

theorem each_octet : octet.EachClass EmailClass := by
  have digit : EmailClass digit := by
    refine .plain (fun r inside => ?_) fun r inside => ?_
    · grind [Api.digit]
    · grind [Api.digit, upperCase]
  have two := each_rune (c := '2') (by decide)
  exact ⟨⟨two, each_rune (by decide), .digits (by decide), trivial⟩,
    ⟨two, .digits (by decide), digit, trivial⟩,
    ⟨⟨.digits (by decide), trivial⟩, digit, ⟨digit, trivial⟩, trivial⟩, trivial⟩

theorem each_emailLiteral : emailLiteral.EachClass EmailClass := by
  have part : (Regex.seq octet (rune '.')).EachClass EmailClass :=
    ⟨each_octet, each_rune (by decide)⟩
  have plain : EmailClass (caseless (inRanges [(0x01, 0x08), (0x0B, 0x0B), (0x0C, 0x0C), (0x0E, 0x1F), (0x21, 0x5A),
    (0x53, 0x7F)])) := .caseless (ascii_inRanges (by decide))
  exact ⟨each_rune (by decide), part, part, part,
    ⟨each_octet, each_alnumDash, each_alnum, each_rune (by decide), ⟨⟨plain, each_escaped⟩, plain, each_escaped⟩, trivial⟩,
    each_rune (by decide), trivial⟩

theorem each_userEmailRE : userEmailRE.EachClass EmailClass :=
  ⟨⟨each_emailLocal, each_emailQuoted⟩, each_rune (by decide), ⟨each_emailDomain, each_emailLiteral⟩, trivial⟩

theorem lowerByte_ascii {b : UInt8} (ascii : b < 0x80) :
    lowerByte b < 0x80 ∧ (lowerByte b).toNat = lowerRune b.toNat := by
  have small : b.toNat < 0x80 := UInt8.lt_iff_toNat_lt.mp ascii
  simp only [lowerByte, lowerRune, upperCase, Bool.and_eq_true, decide_eq_true_eq,
    UInt8.le_iff_toNat_le, UInt8.reduceToNat]
  split_ifs with capital kelvin
  · have next : (b + 0x20).toNat = b.toNat + 0x20 := by
      simp only [UInt8.toNat_add, UInt8.reduceToNat]
      omega
    refine ⟨UInt8.lt_iff_toNat_lt.mpr ?_, next⟩
    simp only [next, UInt8.reduceToNat]
    omega
  · grind
  · exact ⟨ascii, rfl⟩

theorem runes_toLower [Unicode] (table : StandardCase) {s : GoString}
    (all : (runes s).all emailRune) :
    runes (toLower s) = (runes s).map lowerRune := by
  unfold toLower
  split
  · next ascii =>
    have small (b : UInt8) (mem : b ∈ s) : b < 0x80 := by simpa using List.all_eq_true.mp ascii b mem
    have lowered : isASCII (s.map lowerByte) := by
      simpa [isASCII] using fun b mem => (lowerByte_ascii (small b mem)).1
    rw [runes_ascii ascii, runes_ascii lowered, List.map_map, List.map_map]
    exact List.map_congr_left fun b mem => (lowerByte_ascii (small b mem)).2
  · have known (r : Rune) (mem : r ∈ runes s) : emailRune r := List.all_eq_true.mp all r mem
    have lowered : ((runes s).flatMap fun r => encodeRune (Unicode.toLower r)) =
        ((runes s).map lowerRune).flatMap encodeRune := by
      rw [List.flatMap_map]
      exact List.flatMap_congr fun r mem => by rw [table r (known r mem)]
    rw [lowered, runes_flatMap_encodeRune]
    intro r mem
    obtain ⟨old, inside, rfl⟩ := List.mem_map.mp mem
    have := known old inside
    grind [lowerRune, emailRune, upperCase]

theorem accepts_toLower [Unicode] (table : StandardCase) {s : GoString}
    (accepted : matchString userEmailRE s) :
    matchString userEmailRE (toLower s) := by
  have all : (runes s).all emailRune :=
    Regex.Over.all (each_userEmailRE.mono fun _ cls => cls.within) accepted
  have closed : userEmailRE.Closed lowerRune := each_userEmailRE.mono fun _ cls => cls.lower
  rw [matchString, runes_toLower table all, Regex.accepts_iff]
  exact closed.matches (Regex.accepts_iff.mp accepted)

def uidField : GoString := lit "external_authentication_uid"

def LocalUser (obj : Object) : Prop :=
  field obj uidField = .null → (∃ email, field obj (lit "email") = .string email ∧ matchString userEmailRE email) ∧
      ∃ shown, field obj (lit "display_name") = .string shown

def loginFields : List GoString := [uidField, lit "email", lit "display_name"]

theorem LocalUser.congr {obj other : Object}
    (same : ∀ name ∈ loginFields, obj[name]? = other[name]?) (sound : LocalUser other) :
    LocalUser obj := by
  have fields (name : GoString) (mem : name ∈ loginFields) : field obj name = field other name := by
    rw [field_eq, field_eq, same name mem]
  unfold LocalUser
  rw [fields uidField (by simp [loginFields]), fields (lit "email") (by simp [loginFields]),
    fields (lit "display_name") (by simp [loginFields])]
  exact sound

theorem getElem?_of_field {obj : Object} {name s : GoString} (found : field obj name = .string s) :
    obj[name]? = some (.string s) := by
  rw [field_eq] at found
  cases given : obj[name]? with
  | none => simp [given] at found
  | some v => simpa [given] using found

section Bodies

variable {obj stored : Object} {create : Bool}

theorem displayName_of_valid (valid : validateUser obj stored create = none) :
    ∃ shown, field obj (lit "display_name") = .string shown := by
  have none : displayNameError obj = none := by
    simp only [validateUser, Option.orElse_eq_none] at valid
    exact valid.2.1
  unfold displayNameError at none
  split at none
  · cases none
  · next shown found => exact ⟨shown, found⟩
  · cases none

theorem email_of_valid (valid : validateUser obj stored create = none)
    (localUser : externalAuthUID obj stored = .null) :
    ∃ email, field obj (lit "email") = .string email ∧ matchString userEmailRE email := by
  have none : emailError obj = none := by
    simp only [validateUser, localUser, localUserError, Option.orElse_eq_none] at valid
    exact valid.2.2.2.1
  unfold emailError at none
  split at none
  · cases none
  · next email found =>
    split_ifs at none with accepted
    exact ⟨email, found, accepted⟩
  · cases none

theorem email_lowered [Unicode] (table : StandardCase) {email : GoString}
    (found : field obj (lit "email") = .string email)
    (accepted : matchString userEmailRE email) :
    ∃ email, (lowerEmail obj)[lit "email"]? = some (.string email) ∧
      matchString userEmailRE email := by
  refine ⟨toLower email, ?_, accepts_toLower table accepted⟩
  simp [lowerEmail, found]

end Bodies

section Updates

variable [Unicode] {stored body : Object} {env : Env} {r : Request}

def RemovesLogin (stored body : Object) : Prop :=
  body[uidField]? = some .null ∧ field stored uidField ≠ .null

theorem localUser_of_valid {create : Bool} {obj : Object} (table : StandardCase)
    (valid : validateUser body stored create = none)
    (uid : field obj uidField = .null → externalAuthUID body stored = .null)
    (takes : ∀ name s, (lowerEmail body)[name]? = some (.string s) → field obj name = .string s) :
    LocalUser obj := by
  intro none
  constructor
  · obtain ⟨email, found, accepted⟩ := email_of_valid valid (uid none)
    obtain ⟨email, found, accepted⟩ := email_lowered table found accepted
    exact ⟨email, takes _ _ found, accepted⟩
  · obtain ⟨shown, found⟩ := displayName_of_valid valid
    refine ⟨shown, takes _ _ ?_⟩
    rw [getElem?_lowerEmail (by decide), getElem?_of_field found]

theorem localUser_merged (table : StandardCase) (valid : validateUser body stored false = none)
    (keeps : ¬ RemovesLogin stored body) : LocalUser (mergeUser stored (lowerEmail body)) := by
  refine localUser_of_valid table valid (fun none => ?_) fun name s found => ?_
  · rw [field_eq, getElem?_mergeUser, kept, getElem?_lowerEmail (by decide)] at none
    unfold externalAuthUID
    rw [← uidField, field_eq]
    cases given : body[uidField]? with
    | none => simpa [given, field_eq] using none
    | some v =>
      cases v with
      | null => exact not_not.mp fun has => keeps ⟨given, has⟩
      | _ => simp [given, present] at none
  · rw [field_eq, getElem?_mergeUser, kept, found]
    rfl

theorem localUser_updated (table : StandardCase) (valid : validateUser body stored false = none)
    (keeps : ¬ RemovesLogin stored body) : LocalUser (updatedUser env r stored body) := by
  refine (localUser_merged table valid keeps).congr fun name mem => ?_
  have ne (other : GoString) (outside : other ∉ loginFields) : other ≠ name := fun same =>
    outside (same ▸ mem)
  rw [updatedUser, getElem?_withoutPassword (ne _ (by decide)),
    getElem?_withPrivilege_of_ne (ne _ (by decide)),
    getElem?_withKey (ne _ (by decide)) (ne _ (by decide)), if_neg fun key => ne _ (by decide) key.1.symm]

theorem localUser_lowered (table : StandardCase) (valid : validateUser body ∅ true = none) :
    LocalUser (lowerEmail body) := by
  refine localUser_of_valid table valid (fun none => ?_) fun name s found => ?_
  · rw [field_eq, getElem?_lowerEmail (by decide), ← field_eq] at none
    unfold externalAuthUID
    rw [← uidField, none]
    rfl
  · rw [field_eq, found]
    rfl

theorem localUser_created (table : StandardCase) (valid : validateUser body ∅ true = none) :
    LocalUser (createdRecord env r users body) := by
  refine (localUser_lowered table valid).congr fun name mem => ?_
  have ne (other : GoString) (outside : other ∉ loginFields) : other ≠ name := fun same =>
    outside (same ▸ mem)
  have keyed (generate : Bool) (obj : Object) :
      (withRecordKey env generate obj)[name]? = obj[name]? := by
    unfold withRecordKey
    split_ifs <;> simp [Std.ExtTreeMap.getElem?_insert, ne (lit "public_key") (by decide)]
  rw [createdRecord, getElem?_withoutPassword (ne _ (by decide)), Std.ExtTreeMap.getElem?_erase,
    Std.ExtTreeMap.getElem?_erase,
    keyed, Std.ExtTreeMap.getElem?_erase]
  simp [ne (lit "private_key") (by decide), ne (lit "chef_key") (by decide),
    ne (lit "create_key") (by decide), lowered]

end Updates

section Requests

variable [Unicode] {env : Env} {enforceACL : Bool} {r : Request} {s t : Store} {name : GoString} {response : Response}

theorem validateUser_of_bodyRefusal {body : Object}
    (accepted : bodyRefusal env r users body = none) :
    validateUser body ∅ true = none := by
  simp only [bodyRefusal, Option.orElse_eq_none] at accepted
  exact accepted.2.1

theorem postActor_users_ok (ran : (postActor env enforceACL r .users).run exec s = (.ok response, t)) :
    ∃ body, unmarshalMap r.body = some (some body) ∧ validateUser body ∅ true = none ∧
      ∀ other, t.get global users other =
        if actorName body = other then some (mustEncode (some (createdRecord env r users body))) else s.get global users other := by
  have leads : Leads exec (fun _ => True) (createActor env enforceACL r ActorRoute.users.org ActorRoute.users.segment) s fun _ t =>
      ∃ body, unmarshalMap r.body = some (some body) ∧ validateUser body ∅ true = none ∧
        ∀ other, t.get global users other =
          if actorName body = other then some (mustEncode (some (createdRecord env r users body)))
          else s.get global users other := by
    refine leads_createActor trivial (fun _ _ => trivial) fun name obj u registers frame => ?_
    obtain ⟨body, decoded, accepted, rfl, rfl⟩ := registers.made
    refine (leads_within within_settleActor fun _ _ => trivial).mono fun _ t settled => ?_
    refine ⟨body, decoded, validateUser_of_bodyRefusal accepted, fun other => ?_⟩
    rw [settled.gets (by decide) (by decide), get_put, frame.gets (by decide) (by decide)]
    simp [ActorRoute.org, ActorRoute.segment]
  unfold Leads at leads
  rw [show createActor env enforceACL r ActorRoute.users.org ActorRoute.users.segment = postActor env enforceACL r .users from rfl,
    ran] at leads
  exact leads

theorem putActor_users_ok (ran : (putActor env r .users name).run exec s = (.ok response, t)) :
    ∃ obj, unmarshalMap r.body = some obj ∧
      validateUser (contents (updateFields r obj)) (decodeStored (s.get global users name)) false = none ∧
      ∀ other, t.get global users other =
        if name = other then some (mustEncode (some (updatedUser env r
          (decodeStored (s.get global users name)) (contents (updateFields r obj)))))
        else s.get global users other := by
  obtain ⟨_, s₁, viewed, updated⟩ :=
    run_bind_ok.mp (show (mustView r global users name _ >>= fun _ =>
    updateRecord env r global users name).run exec s = (.ok response, t) from ran)
  obtain rfl := state_of_reads readOnly_reads.only_mustView viewed
  exact updateRecord_users_ok updated

end Requests

def writtenUser : ActorWrite → Option GoString
  | .create _ r => ((unmarshalMap r.body).getD none).map actorName
  | .put _ _ name => some name
  | _ => none

inductive UserWrites [Unicode] (enforceACL : Bool) (admitted : ActorWrite → Store → Prop)
    (s : Store) : List GoString → Store → Prop
  | start : UserWrites enforceACL admitted s [] s
  | write {names : List GoString} {t u : Store} (before : UserWrites enforceACL admitted s names t) {request : ActorWrite}
      {name : GoString} {response : Response} (named : writtenUser request = some name) (ok : admitted request t)
      (ran : (request.handler enforceACL .users).run exec t = (.ok response, u)) : UserWrites enforceACL admitted s (name :: names) u

/-- An update does not take away an external login with an explicit null. -/
def KeepsLogin : ActorWrite → Store → Prop
  | .put _ r name, s => ∀ obj, unmarshalMap r.body = some obj →
      ¬ RemovesLogin (decodeStored (s.get global users name)) (contents obj)
  | _, _ => True

section Sequences

variable [Unicode] {enforceACL : Bool} {s t u : Store} {names : List GoString}

theorem localUser_written (table : StandardCase) {request : ActorWrite} {name : GoString}
    {response : Response}
    (named : writtenUser request = some name) (keeps : KeepsLogin request t)
    (ran : (request.handler enforceACL .users).run exec t = (.ok response, u)) :
    ∃ obj, LocalUser obj ∧ ∀ other, u.get global users other =
      if name = other then some (mustEncode (some obj)) else t.get global users other := by
  cases request with
  | create env r =>
    obtain ⟨body, decoded, valid, stored⟩ := postActor_users_ok ran
    obtain rfl : actorName body = name := by simpa [writtenUser, decoded] using named
    exact ⟨_, localUser_created table valid, stored⟩
  | put env r who =>
    obtain ⟨obj, decoded, valid, stored⟩ := putActor_users_ok ran
    obtain rfl : who = name := Option.some.inj named
    refine ⟨_, localUser_updated table valid fun removes => keeps obj decoded ?_, stored⟩
    rwa [RemovesLogin, getElem?_updateFields (by decide) (by decide)] at removes
  | delete | key => cases named

/-- The users that successful requests have written are sound, as long as no update takes a login away
by a null. -/
theorem local_users_have_email (table : StandardCase)
    (writes : UserWrites enforceACL KeepsLogin s names t) :
    ∀ name ∈ names, ∃ obj, t.get global users name = some (mustEncode (some obj)) ∧
      LocalUser obj := by
  induction writes with
  | start => exact nofun
  | @write names t u before request name response named keeps ran ih =>
    obtain ⟨obj, sound, stored⟩ := localUser_written table named keeps ran
    intro other mem
    rw [stored]
    split_ifs with same
    · exact ⟨obj, rfl, sound⟩
    · exact ih other ((List.mem_cons.mp mem).resolve_left fun eq => same eq.symm)

end Sequences

section Samples

abbrev standardTable : Unicode := ⟨lowerRune⟩

theorem UserWrites.served [Unicode] {enforceACL : Bool} {admitted : ActorWrite → Store → Prop}
    {s t : Store} {names : List GoString}
    (before : UserWrites enforceACL admitted s names t) {request : ActorWrite} {name : GoString}
    (named : writtenUser request = some name) (ok : admitted request t)
    (succeeds : ((request.handler enforceACL .users).run exec t).1.isOk) :
    UserWrites enforceACL admitted s (name :: names) ((request.handler enforceACL .users).run exec t).2 := by
  rcases ran : (request.handler enforceACL .users).run exec t with ⟨_ | response, u⟩
  · rw [ran] at succeeds
    cases succeeds
  · exact .write before named ok ran

def registersLocal : ActorWrite :=
  .create keyedEnv (creates [(lit "name", .string leaver), (lit "display_name", .string leaver),
  (lit "email", .string (lit "Bob@Example.com")), (lit "password", .string (lit "secret"))])

def registersExternal : ActorWrite := .create keyedEnv (creates [(lit "name", .string leaver),
  (lit "display_name", .string leaver), (lit "external_authentication_uid", .string leaver)])

def dropsLogin : ActorWrite := .put keyedEnv (creates [(lit "display_name", .string leaver),
  (lit "external_authentication_uid", .null)]) leaver

theorem bob_has_email : letI := standardTable
    ∃ obj, ((registersLocal.handler true .users).run exec Store.newMemoryBackend).2.get global users leaver =
      some (mustEncode (some obj)) ∧ LocalUser obj := by
  let _ := standardTable
  have succeeds : ((registersLocal.handler true .users).run exec Store.newMemoryBackend).1.isOk := by decide +kernel
  have named : writtenUser registersLocal = some leaver := by decide
  have writes : UserWrites true KeepsLogin Store.newMemoryBackend [leaver] _ :=
    UserWrites.start.served named trivial succeeds
  exact local_users_have_email (fun _ _ => rfl) writes leaver (by simp)

def isNull : Value → Bool
  | .null => true
  | _ => false

theorem not_localUser {obj : Object} (noLogin : isNull (field obj uidField))
    (noEmail : isNull (field obj (lit "email"))) :
    ¬ LocalUser obj := by
  intro sound
  have none : field obj uidField = .null := by
    cases found : field obj uidField with
    | null => rfl
    | _ => simp [found, isNull] at noLogin
  obtain ⟨email, found, -⟩ := (sound none).1
  rw [found] at noEmail
  cases noEmail

theorem dropped_login_without_email : letI := standardTable
    ∃ names t, UserWrites true (fun _ _ => True) Store.newMemoryBackend names t ∧
      ∃ name ∈ names, ∃ obj, t.get global users name = some (mustEncode (some obj)) ∧ ¬ LocalUser obj := by
  let _ := standardTable
  have registered : UserWrites true (fun _ _ => True) Store.newMemoryBackend [leaver] _ :=
    UserWrites.start.served (show writtenUser registersExternal = some leaver by decide) trivial (by decide +kernel)
  have succeeds : ((dropsLogin.handler true .users).run exec
    ((registersExternal.handler true .users).run exec Store.newMemoryBackend).2).1.isOk := by decide +kernel
  rcases ran : (dropsLogin.handler true .users).run exec
    ((registersExternal.handler true .users).run exec Store.newMemoryBackend).2 with ⟨_ | response, t⟩
  · rw [ran] at succeeds
    cases succeeds
  · obtain ⟨obj, decoded, -, stored⟩ := putActor_users_ok ran
    obtain rfl : _ = obj := Option.some.inj decoded
    exact ⟨_, t, .write registered rfl trivial ran, leaver,
      by simp, _, (stored leaver).trans (if_pos rfl),
      not_localUser (by decide +kernel) (by decide +kernel)⟩

end Samples

end CincServer.Proof.Api
