import CincServer.Proof.Api.ActorNames
import CincServer.Proof.Api.KeyMap

/-!
# The actors access control lists grant
-/

namespace CincServer.Proof.Api
open CincServer.Api CincServer.Json Proof.Decoding Go Lib Program
open Std.ExtTreeMap (getD_insert getD_insert_self)

section Grants

variable {s t : Store} {org coll key name perm kind : GoString} {acl ace : Object} {entry : Value} {r : Request}
  {raw : Raw} {f : Footprint}
  {space removed : GoString} {actors : List GoString} {who : Principal} {env : Env} {request : ApiRequest}

/-- An entry of the stored ACL lists the name among its actors, as a permission check reads it. -/
def Grants (s : Store) (org key perm name : GoString) : Prop :=
  ∃ raw acl, s.get org aclsColl key = some raw ∧ unmarshalMap raw = some acl ∧
    EntryNames (lit "actors") name (field (contents acl) perm)

theorem grants_iff :
    Grants s org key perm name ↔ ((s.get org aclsColl key).bind unmarshalMap).any fun acl =>
    (asMap (field (contents acl) perm)).any fun ace => name ∈ anyStrings (field ace (lit "actors")) := by
  cases stored : s.get org aclsColl key with
  | none => simp [Grants, stored]
  | some raw =>
    cases decoded : unmarshalMap raw with
    | none => simp [Grants, stored, decoded]
    | some acl => cases entry : asMap (field (contents acl) perm) <;> simp [Grants, EntryNames, stored, decoded, entry]

instance : Decidable (Grants s org key perm name) := decidable_of_iff _ grants_iff.symm

def Holder (s : Store) (org name : GoString) : Prop :=
  (s.get global users name).isSome ∨ org ≠ global ∧ (s.get org clients name).isSome

theorem Holder.mono (holder : Holder s org name)
    (usersGrow : (s.get global users name).isSome → (t.get global users name).isSome)
    (clientsGrow : (s.get org clients name).isSome → (t.get org clients name).isSome) :
    Holder t org name :=
  holder.imp usersGrow (And.imp_right clientsGrow)

theorem Holder.frame (holder : Holder s org name) (frame : Frame space f s t)
    (noUsers : users ∉ f.deletes) (noClients : clients ∉ f.deletes) : Holder t org name :=
  holder.mono (frame.grows noUsers) (frame.grows noClients)

structure Granted (s : Store) (org : GoString) (acl : Object) : Prop where
  settled : SettledMap acl
  held : ∀ perm name, EntryNames (lit "actors") name (field acl perm) → perm ∈ aclPerms ∧ Holder s org name

theorem Granted.mono (granted : Granted s org acl)
    (still : ∀ name, Holder s org name → Holder t org name) :
    Granted t org acl :=
  ⟨granted.settled, fun perm name named => (granted.held perm name named).imp_right (still name)⟩

def AclsHeld (s : Store) : Prop :=
  ∀ org key raw acl, s.get org aclsColl key = some raw → unmarshalMap raw = some acl → Granted s org (contents acl)

theorem not_entryNames_null : ¬ EntryNames kind name .null := by
  rintro ⟨ace, read, -⟩
  cases read

theorem entryNames_mapValue (settled : SettledMap ace) :
    EntryNames kind name (mapValue (some ace)) ↔ name ∈ anyStrings (field ace kind) := by
  have read : asMap (mapValue (some ace)) = some ace := by rw [mapValue, asMap, settled.decode]
  simp [EntryNames, read]

theorem settled_mapValue {ace : Option Object} (settled : SettledMap (contents ace)) :
    Settled (mapValue ace) := by
  cases ace with
  | none => exact ⟨rfl, rfl⟩
  | some ace => exact SettledMap.object settled

theorem settled_aclEntry (actors groups : List GoString) : Settled (aclEntry actors groups) := by
  constructor
  · simp only [aclEntry, canonical, canonicalMembers, canonical_stringArray]
    rfl
  · simp [aclEntry, inRange, membersInRange, inRange_stringArray]

theorem entryNames_aclEntry {groups : List GoString}
    (named : EntryNames (lit "actors") name (aclEntry actors groups)) :
    name ∈ actors := by
  obtain ⟨ace, read, named⟩ := named
  obtain rfl := Option.some.inj read
  simpa +decide [canonicalMembers, canonical_stringArray, field, getD_insert, anyStrings,
    jsonStrings_stringArray] using named

theorem granted_empty : Granted s org ∅ :=
  ⟨settledMap_empty, fun perm name named => absurd named (by simpa [field] using not_entryNames_null)⟩

theorem Granted.insert (granted : Granted s org acl) (settled : Settled entry)
    (held : ∀ name, EntryNames (lit "actors") name entry → perm ∈ aclPerms ∧ Holder s org name) :
    Granted s org (acl.insert perm entry) := by
  refine ⟨granted.settled.insert perm settled, fun other name named => ?_⟩
  by_cases same : perm = other
  · subst same
    rw [field, getD_insert_self] at named
    exact held name named
  · have unchanged : field (acl.insert perm entry) other = field acl other := by
      simp [field, getD_insert, same]
    rw [unchanged] at named
    exact granted.held other name named

theorem granted_aclOf {groupsOf : GoString → List GoString}
    (held : ∀ name ∈ actors, Holder s org name) : Granted s org (aclOf groupsOf actors) := by
  have fold (perms : List GoString) (known : perms ⊆ aclPerms) (acl : Object) (granted : Granted s org acl) :
      Granted s org (perms.foldl (fun acl perm => acl.insert perm (aclEntry actors (groupsOf perm))) acl) := by
    induction perms generalizing acl with
    | nil => exact granted
    | cons perm perms ih =>
      obtain ⟨mem, known⟩ := List.cons_subset.mp known
      refine ih known _ (granted.insert (settled_aclEntry ..) fun name named => ?_)
      exact ⟨mem, held name (entryNames_aclEntry named)⟩
  exact fold aclPerms (List.Subset.refl _) ∅ granted_empty

theorem granted_policyACL (grants : List Grant) : Granted s org (policyACL grants) :=
  granted_aclOf (by simp)

theorem granted_containerACL (object : GoString) : Granted s org (containerACL object) :=
  granted_policyACL _

theorem granted_fallbackACL (typ object : GoString) : Granted s org (fallbackACL typ object) := by
  unfold fallbackACL
  split_ifs
  · exact granted_policyACL _
  · exact granted_containerACL object
  · unfold groupACL
    split_ifs
    · exact granted_policyACL _
    · exact granted_policyACL _
    · exact granted_policyACL _
    · exact granted_containerACL _
  · exact granted_aclOf (by simp)

theorem entryNames_of_withoutName {entry' : Value} (settled : Settled entry)
    (changed : withoutName kind removed entry = some entry') {kind' : GoString}
    (named : EntryNames kind' name entry') :
    EntryNames kind' name entry := by
  unfold withoutName at changed
  split at changed
  · cases changed
  · rename_i ace decoded
    dsimp only at changed
    split_ifs at changed
    obtain rfl := Option.some.inj changed
    have inner := (settledMap_of_asMap settled decoded).insert kind
      (settled_stringArray (without (anyStrings (field ace kind)) removed))
    rw [entryNames_mapValue inner] at named
    refine ⟨ace, decoded, ?_⟩
    by_cases same : kind = kind'
    · subst same
      rw [field, getD_insert_self, anyStrings, jsonStrings_stringArray] at named
      exact (List.mem_filter.mp named).1
    · simpa [field, getD_insert, same] using named

theorem Granted.revise (granted : Granted s org acl) (kind removed : GoString)
    (perms : List GoString) :
    Granted s org (perms.foldl (reviseEntry kind removed) acl) := by
  induction perms generalizing acl with
  | nil => exact granted
  | cons perm perms ih =>
    refine ih ?_
    unfold reviseEntry
    cases changed : withoutName kind removed (field acl perm) with
    | none => exact granted
    | some entry' =>
      have settled := settled_field granted.settled perm
      exact granted.insert (withoutName_eq_some settled changed).1 fun name named =>
        granted.held perm name (entryNames_of_withoutName settled changed named)

theorem granted_reviseACL {acl : Option Object}
    (before : ∀ acl, unmarshalMap raw = some acl → Granted s org (contents acl))
    (decoded : unmarshalMap (reviseACL kind removed raw) = some acl) :
    Granted s org (contents acl) := by
  unfold reviseACL aclWithout at decoded
  cases read : unmarshalMap raw with
  | none => simp [read] at decoded
  | some old =>
    simp only [read] at decoded
    split_ifs at decoded with dirty
    · cases old with
      | none => simp [contents, field, withoutName, asMap] at dirty
      | some old =>
        have revised := (before _ read).revise kind removed aclPerms
        have back := revised.settled.unmarshalMap_mustEncode
        obtain rfl := Option.some.inj (decoded.symm.trans back)
        exact revised
    · obtain rfl : old = acl := by simpa [read] using decoded
      exact before _ read

theorem AclsHeld.frame (held : AclsHeld s) (frame : Frame space f s t) (noACL : aclsColl ∉ f.puts)
    (noUsers : users ∉ f.deletes) (noClients : clients ∉ f.deletes) : AclsHeld t :=
  fun org key raw acl found decoded => (held org key raw acl (frame.stored noACL found) decoded).mono
    fun _ holder => holder.frame frame noUsers noClients

theorem AclsHeld.put (held : AclsHeld s) (granted : Granted s space acl) :
    AclsHeld (s.put space aclsColl key (mustEncode (some acl))) := by
  have frame : Frame space ⟨[aclsColl], []⟩ s (s.put space aclsColl key (mustEncode (some acl))) :=
    frame_put_one s
  have still (org name : GoString) (holder : Holder s org name) :
      Holder (s.put space aclsColl key (mustEncode (some acl))) org name := holder.frame frame (by simp) (by simp)
  intro org key' raw acl' found decoded
  rw [get_put] at found
  split_ifs at found with here
  · obtain ⟨rfl, -, rfl⟩ := here
    obtain rfl := Option.some.inj found
    obtain rfl := Option.some.inj (granted.settled.unmarshalMap_mustEncode.symm.trans decoded)
    exact granted.mono (still space)
  · exact (held org key' raw acl' found decoded).mono (still org)

theorem AclsHeld.grantCreator {enforceACL : Bool} {typ : GoString} (held : AclsHeld s)
    (caller : ∀ actor, r.actor = some actor → Holder s org actor.name) :
    Leads exec AclsHeld (grantCreator enforceACL r org typ name) s fun _ => AclsHeld := by
  unfold Api.grantCreator
  split
  · next actor found =>
    refine leads_ite (fun _ => ?_) fun _ => leads_pure held
    exact held.put (granted_aclOf fun name mem => by rw [List.mem_singleton.mp mem]; exact caller actor found)
  · exact leads_pure held

theorem AclsHeld.update {typ : GoString} {members : Option GoString} {status : Nat}
    (held : AclsHeld s)
    (space : ∀ other, members = some other → other = org ∧ org ≠ global) :
    Leads exec AclsHeld (updateACLPermDoc r org members typ name perm status) s fun _ =>
      AclsHeld := by
  refine leads_updateACLPermDoc held fun acl ace isPerm _ loaded settled found => held.put ?_
  have before : Granted s org acl := by
    cases decoded : (s.get org aclsColl (aclKey typ name)).bind unmarshalMap with
    | none =>
      rw [aclOfRaw, decoded] at loaded
      obtain rfl := Option.some.inj loaded
      exact granted_fallbackACL typ name
    | some stored =>
      rw [aclOfRaw, decoded] at loaded
      obtain ⟨raw, found, read⟩ := Option.bind_eq_some_iff.mp decoded
      obtain rfl : stored = some acl := loaded
      exact held org _ raw _ found read
  refine before.insert (settled_mapValue settled) fun actor named => ⟨isPerm, ?_⟩
  cases ace with
  | none => exact absurd named not_entryNames_null
  | some ace =>
    rcases found actor ((entryNames_mapValue settled).mp named) with user | ⟨other, isOrg, client⟩
    · exact .inl user
    · obtain ⟨rfl, proper⟩ := space other isOrg
      exact .inr ⟨proper, client⟩

theorem AclsHeld.revised (kind removed : GoString) (held : AclsHeld s)
    (after : ∀ org coll key raw, t.get org coll key = some raw → ∃ old, s.get org coll key = some old ∧
      (raw = old ∨ coll = aclsColl ∧ raw = reviseACL kind removed old))
    (still : ∀ org name, Holder s org name → Holder t org name) : AclsHeld t := by
  intro org key raw acl found decoded
  obtain ⟨old, stored, rfl | ⟨-, rfl⟩⟩ := after org _ key raw found
  · exact (held org key raw acl stored decoded).mono (still org)
  · exact (granted_reviseACL (fun acl => held org key old acl stored) decoded).mono (still org)

theorem within_forgetGroup : (do
    removeActorFromAllGroups org .groups name
    clearMembers org name
    deleteACL org groupsColl name
    match ← Org.delete org groupsColl name with
    | some raw => return Response.json 200 raw
    | none => cannotFind groupsColl name : Handler Response).Only
      (Within org ⟨[groupsColl], [groupMembersColl, aclsColl, groupsColl]⟩) := by
  refine (within_removeActorFromAllGroups (by simp) (by simp)).bind fun _ =>
    (within_clearMembers (by simp)).bind fun _ =>
    (within_deleteACL (by simp)).bind fun _ =>
      (within_delete (by simp)).bind (only_option (only_stop _) fun _ => ?_)
  exact only_pure _

theorem AclsHeld.deleteGroup (held : AclsHeld s) :
    Leads exec AclsHeld (deleteGroup org name) s fun _ => AclsHeld := by
  refine (leads_reads readOnly_reads.only_resolveOrg held).still fun _ => ?_
  refine (leads_mustExist held).past fun _ _ => ?_
  obtain ⟨t, ran, gets⟩ := removeFromACLs_get org (lit "groups") name s
  have kept : AclsHeld t := by
    refine held.revised (lit "groups") name
      (fun org' coll key raw found => ?_) fun org' name' holder => ?_
    · rw [gets] at found
      split_ifs at found with here
      · obtain ⟨old, stored, rfl⟩ := Option.map_eq_some_iff.mp found
        exact ⟨old, stored, .inr ⟨here.2.symm, rfl⟩⟩
      · exact ⟨raw, found, .inl rfl⟩
    · have apart : aclsColl ≠ users ∧ aclsColl ≠ clients := by decide
      refine holder.mono (fun user => ?_) fun client => ?_
      · rwa [gets, if_neg fun here => apart.1 here.2]
      · rwa [gets, if_neg fun here => apart.2 here.2]
  refine leads_bind.mpr (leads_of_run ran ?_)
  exact leads_iff.mpr (kept.frame (frame_run within_forgetGroup t)
    (by decide) (by decide) (by decide))

theorem Deleted.holder (deleted : Deleted s t who) (holder : Holder s org name)
    (there : Available s org)
    (other : ¬ ((who.ActsIn s org ∨ org = who.scope) ∧ name = who.name)) : Holder t org name := by
  have apart : users ≠ clients := by decide
  cases who with
  | user deletedName =>
    have different : ¬ deletedName = name := fun same => other ⟨there.symm, same.symm⟩
    exact holder.mono (deleted.others (by simp) fun record => different record.2.2)
      (deleted.others (by simp) fun record => apart record.2.1)
  | client own deletedName =>
    exact holder.mono (deleted.others (by simp) fun record => apart record.2.1.symm)
      (deleted.others (by simp) fun record => other ⟨.inl record.1.symm, record.2.2.symm⟩)

theorem AclsHeld.deleted (held : AclsHeld s) (placed : Placed s) (deleted : Deleted s t who) :
    AclsHeld t := by
  intro org key raw acl found decoded
  have noOwn : ¬ IsOwn who org aclsColl key := by
    intro own
    rw [deleted.own _ _ _ own] at found
    cases found
  obtain ⟨old, stored, outcome⟩ := (deleted.swept _ _ _ noOwn).from_stored raw found
  have granted : Granted s org (contents acl) := by
    rcases outcome with rfl | ⟨same, -⟩ | ⟨-, rfl⟩
    · exact held org key raw acl stored decoded
    · exact absurd same (by decide)
    · exact granted_reviseACL (fun acl => held org key old acl stored) decoded
  refine ⟨granted.settled, fun perm name named => ?_⟩
  obtain ⟨isPerm, holder⟩ := granted.held perm name named
  refine ⟨isPerm, deleted.holder holder (placed.placed (Option.isSome_of_eq_some stored)) ?_⟩
  rintro ⟨acts, rfl⟩
  exact deleted.acls org key raw acts found ⟨acl, decoded, perm, isPerm, named⟩

theorem AclsHeld.createOrg (held : AclsHeld s) : AclsHeld (s.createOrg name).1 := by
  intro org key raw acl found decoded
  rw [Proof.Store.get_createOrg] at found
  refine (held org key raw acl found decoded).mono fun actor holder => ?_
  exact holder.mono (by rw [Proof.Store.get_createOrg]; exact id) (by rw [Proof.Store.get_createOrg]; exact id)

theorem AclsHeld.deleteOrg (held : AclsHeld s) (noGlobal : s.hasOrg global = false) :
    AclsHeld (s.deleteOrg name).1 := by
  intro org key raw acl found decoded
  rw [Proof.Store.get_deleteOrg] at found
  split_ifs at found with gone
  refine (held org key raw acl found decoded).mono fun actor holder =>
    holder.mono (fun user => ?_) fun client => ?_
  · rw [Proof.Store.get_deleteOrg, if_neg]
    · exact user
    · rintro ⟨present, rfl⟩
      rw [noGlobal] at present
      cases present
  · rwa [Proof.Store.get_deleteOrg, if_neg gone]

theorem granted_validatorClientsACL {validator : GoString} (held : Holder s org validator) :
    Granted s org (validatorClientsACL validator) := by
  have container : Granted s org (containerACL (lit "clients")) := granted_containerACL _
  have ace : SettledMap (contents (asMap (field (containerACL (lit "clients")) (lit "create")))) := by
    cases read : asMap (field (containerACL (lit "clients")) (lit "create")) with
    | none => exact settledMap_empty
    | some ace => exact settledMap_of_asMap (settled_field container.settled _) read
  have entry := ace.insert (lit "actors") (settled_stringArray [validator])
  refine container.insert entry.object fun name named => ⟨by simp [aclPerms], ?_⟩
  rw [entryNames_mapValue entry, field, getD_insert_self, anyStrings,
    jsonStrings_stringArray] at named
  rwa [List.mem_singleton.mp named]

theorem AclsHeld.furnish {fullName : GoString} (held : AclsHeld s) (proper : name ≠ global) :
    Leads exec AclsHeld (furnishOrg env name fullName) s fun _ => AclsHeld := by
  have seeded (t : Store) (frame : Frame name seedWrites s t) : AclsHeld t :=
    held.frame frame (by decide) (by decide) (by decide)
  refine leads_furnishOrg ((leads_within within_seedOrg seeded).mono fun _ t frame => ?_)
  have listed : AclsHeld (t.put global orgsColl name (orgMeta env name fullName)) :=
    (seeded t frame).frame (frame_put_one t) (by decide) (by decide) (by decide)
  have registered : AclsHeld ((t.put global orgsColl name (orgMeta env name fullName)).put name clients
      (validatorName name) (validatorDoc env name)) :=
    listed.frame (frame_put_one _) (by decide) (by decide) (by decide)
  refine registered.put (granted_validatorClientsACL (.inr ⟨proper, ?_⟩))
  rw [get_put]
  simp

section Caller

variable {Key : Type} [Clock] {parse : GoString → Option Key} {now : Int} {path : GoString}

theorem leads_parseActorRecord {inv : Store → Prop} (holds : inv s) :
    Leads exec inv (Server.parseActorRecord parse now org coll name) s fun parsed t =>
      t = s ∧ (parsed.ok → (s.get org coll name).isSome) := by
  have reads (pub : GoString) : (signingKeys org coll name pub now).Only ReadOnly :=
    readOnly_reads.only_range.bind fun _ => only_ite (fun _ => only_pure _) fun _ => only_pure _
  unfold Server.parseActorRecord
  refine (leads_result readOnly_reads.only_get holds).past fun found ran => ?_
  obtain rfl : s.get org coll name = found := Except.ok.inj (Prod.mk.inj ran).1
  cases s.get org coll name with
  | none => exact leads_pure ⟨rfl, nofun⟩
  | some raw =>
    dsimp only
    split
    · exact leads_pure ⟨rfl, nofun⟩
    · refine (leads_reads (reads _) holds).still fun pems => ?_
      split
      all_goals exact leads_pure ⟨rfl, fun _ => rfl⟩

theorem leads_resolveAuth {inv : Store → Prop} (holds : inv s) :
    Leads exec inv (Server.resolveAuth parse now path name) s fun found _ =>
      ∀ pubs actor, found = some (pubs, actor) → actor.name = name ∧
        Holder s (Server.orgFromPath path) name := by
  have client : Leads exec inv (Server.resolveClient parse now (Server.orgFromPath path) name) s fun found t => t = s ∧
      ∀ pubs actor, found = some (pubs, actor) → actor.name = name ∧ Holder s (Server.orgFromPath path) name := by
    refine leads_ite (fun _ => leads_pure ⟨rfl, nofun⟩) fun below => ?_
    refine (leads_reads readOnly_reads.only_lookupOrg holds).still fun present => ?_
    refine leads_ite (fun _ => leads_pure ⟨rfl, nofun⟩) fun _ => ?_
    refine (leads_parseActorRecord holds).past fun parsed found => ?_
    refine leads_pure ⟨rfl, fun pubs actor same => ?_⟩
    split_ifs at same with ok
    obtain ⟨-, rfl⟩ := Prod.mk.inj (Option.some.inj same)
    exact ⟨rfl, .inr ⟨below, found ok⟩⟩
  refine client.then ?_
  rintro found s ⟨rfl, known⟩
  cases found with
  | some found => exact leads_pure known
  | none =>
    refine (leads_parseActorRecord holds).past fun parsed found => ?_
    refine leads_pure fun pubs actor same => ?_
    split_ifs at same with ok
    obtain ⟨-, rfl⟩ := Prod.mk.inj (Option.some.inj same)
    exact ⟨rfl, .inl (found ok)⟩

def orgPath (org coll : GoString) : GoString := lit "/organizations/" ++ (org ++ lit "/" ++ coll)

def FromActor (parse : GoString → Option Key) (path : GoString) (r : Request) (s : Store) : Prop :=
  ∀ actor, r.actor = some actor → ∃ now pubs found,
    ((Server.resolveAuth parse now path actor.name).run exec s).1 = .ok (some (pubs, found)) ∧
      (actor = found ∨ actor = { found with viaWebUI := true })

def Authenticated (parse : GoString → Option Key) : ApiRequest → Store → Prop
  | .actor .users (.create _ r), s => FromActor parse (lit "/users") r s
  | .actor (.clients org) (.create _ r), s => FromActor parse (orgPath org clients) r s
  | .object org (.create r type), s => FromActor parse (orgPath org type.segment) r s
  | _, _ => True

theorem FromActor.holder (caller : FromActor parse path r s) {actor : Actor}
    (named : r.actor = some actor) :
    Holder s (Server.orgFromPath path) actor.name := by
  obtain ⟨now, pubs, found, ran, -⟩ := caller actor named
  have resolved := @leads_resolveAuth s actor.name Key _ parse now path (fun _ => True) trivial
  unfold Leads at resolved
  split at resolved
  · next outcome =>
    rw [outcome] at ran
    exact (resolved pubs found (Except.ok.inj ran)).2
  · next outcome =>
    rw [outcome] at ran
    cases ran

end Caller

theorem slash_not_mem_orgName (valid : orgNameRE org) : slash ∉ org := by
  have all : (runes org).all fun r => lowerCase r || digit r || oneOf "_-" r := by
    unfold orgNameRE at valid
    split at valid
    · cases valid
    · next first rest whole =>
      simp only [Bool.and_eq_true] at valid
      rw [whole, List.all_cons, Bool.and_eq_true]
      refine ⟨?_, valid.2⟩
      rw [valid.1.1, Bool.true_or]
  exact not_mem_of_runes all (by decide) (by decide)

theorem orgFromPath_orgPath (valid : orgNameRE org) :
    Server.orgFromPath (orgPath org coll) = org := by
  have below : (lit "/organizations/").isPrefixOf (lit "/organizations/" ++ (org ++ lit "/" ++ coll)) := by
    rw [List.isPrefixOf_iff_prefix]
    exact List.prefix_append _ _
  simp only [Server.orgFromPath, orgPath, below, Bool.not_true, Bool.false_eq_true, if_false,
    List.drop_left, cut_of_not_mem (slash_not_mem_orgName valid), Option.map_some, Option.getD_some]

variable {enforceACL : Bool}

theorem AclsHeld.createActor [Unicode] {route : ActorRoute} (held : AclsHeld s)
    (caller : ∀ actor, r.actor = some actor → Holder s route.org actor.name) :
    Leads exec AclsHeld (createActor env enforceACL r route.org route.segment) s fun _ =>
      AclsHeld := by
  have stashed (t : Store) (frame : Frame route.org ⟨[passwordsCollection], []⟩ s t) : AclsHeld t :=
    held.frame frame (by decide) (by decide) (by decide)
  refine leads_createActor held stashed fun name obj t _ frame => ?_
  generalize mustEncode obj = raw
  have registered : Frame route.org ⟨[route.segment], []⟩ t (t.put route.org route.segment name raw) := frame_put_one t
  have noACL : aclsColl ∉ [route.segment] := by
    cases route with
    | users => exact (by decide : aclsColl ∉ [users])
    | clients org => exact (by decide : aclsColl ∉ [clients])
  have kept := (stashed t frame).frame registered noACL (by simp) (by simp)
  have granted := @AclsHeld.grantCreator (t.put route.org route.segment name raw) route.org name r enforceACL route.segment
    kept fun actor named =>
      ((caller actor named).frame frame (by simp) (by simp)).frame registered (by simp) (by simp)
  refine granted.then fun _ u kept => ?_
  have join : (joinClients enforceACL route.org route.segment name obj).Only (Within route.org ⟨[groupMembersColl], []⟩) :=
    only_ite (fun _ => within_put (by simp)) fun _ => only_pure _
  exact leads_iff.mpr (kept.frame (frame_run join u) (by decide) (by decide) (by decide))

theorem AclsHeld.createObject {type : ObjectType} (held : AclsHeld s)
    (caller : s.hasOrg org → ∀ actor, r.actor = some actor → Holder s org actor.name) :
    Leads exec AclsHeld (createObject enforceACL r org type) s fun _ => AclsHeld := by
  refine (leads_resolveOrg held).past fun _ present => ?_
  refine (leads_reads only_readObjectBody held).still fun doc => ?_
  refine (leads_refuseWith held).past fun _ _ => ?_
  refine (leads_refuseIf held).past fun _ _ => ?_
  refine (leads_create held).then ?_
  rintro _ _ ⟨-, rfl⟩
  have noACL : aclsColl ∉ [type.segment] := by cases type <;> decide
  refine (AclsHeld.grantCreator
    (held.frame (frame_put_one _) noACL (by simp) (by simp)) fun actor named => ?_).then
    fun _ _ kept => leads_pure kept
  exact (caller present actor named).frame (frame_put_one _) (by simp) (by simp)

def GrantsAcls : ApiRequest → Prop
  | .actor _ (.create ..) => True
  | .acl .. => True
  | .membership _ (.deleteGroup _) => True
  | .object _ (.create ..) => True
  | _ => False

theorem footprint_grantless (grantless : ¬ GrantsAcls request) :
    aclsColl ∉ (footprint request).puts ∧ users ∉ (footprint request).deletes ∧
      clients ∉ (footprint request).deletes := by
  cases request with
  | actor route request =>
    rcases segment_cases route with segment | segment <;> cases request <;>
      simp_all +decide [footprint, GrantsAcls, ne_keysColl]
  | organization | acl | respond => simp_all +decide [footprint, GrantsAcls]
  | membership org request => cases request <;> simp_all +decide [footprint, membershipWrites, GrantsAcls]
  | cookbook files org request => cases request <;> simp +decide [footprint, cookbookWrites]
  | policy org request => cases request <;> simp +decide [footprint, policyWrites, ne_policyRevColl]
  | object org request =>
    have segment (type : ObjectType) :
        aclsColl ≠ type.segment ∧ users ≠ type.segment ∧ clients ≠ type.segment := by
      cases type <;> decide
    cases request <;> simp_all +decide [footprint, objectWrites, GrantsAcls, ne_dataBagItemsColl]

section Authenticated

variable {Key : Type} [Clock] {parse : GoString → Option Key}

theorem aclsHeld_request [Unicode] (held : AclsHeld s) (placed : Placed s)
    (caller : Authenticated parse request s) :
    Leads exec AclsHeld (request.handler enforceACL) s fun _ => AclsHeld := by
  by_cases framed : Framed request
  · by_cases grants : GrantsAcls request
    · cases request with
      | actor route request =>
        cases request with
        | create env r =>
          refine (leads_scope held).past fun _ resolves => ?_
          refine held.createActor fun actor named => ?_
          cases route with
          | users => exact FromActor.holder caller named
          | clients org =>
            have holder := FromActor.holder caller named
            rwa [orgFromPath_orgPath (placed.named org resolves)] at holder
        | _ => cases grants
      | acl r perm request =>
        have space {org : GoString} (present : s.hasOrg org) (other : GoString) (same : some org = some other) :
            other = org ∧ org ≠ global :=
          ⟨(Option.some.inj same).symm, orgName_ne_global (placed.named org present)⟩
        cases request with
        | object | organization =>
          refine (leads_resolveOrg held).past fun _ present => ?_
          exact held.update (space present)
        | user name => exact held.update nofun
      | membership org request =>
        cases request with
        | deleteGroup name => exact held.deleteGroup
        | _ => cases grants
      | object org request =>
        obtain ⟨r, type, rfl⟩ : ∃ r type, request = .create r type := by cases request <;> simp_all [GrantsAcls]
        refine held.createObject fun present actor named => ?_
        have holder := FromActor.holder caller named
        rwa [orgFromPath_orgPath (placed.named org present)] at holder
      | _ => cases grants
    · obtain ⟨noACL, noUsers, noClients⟩ := footprint_grantless grants
      exact leads_framed framed held fun _ _ _ frame => held.frame frame noACL noUsers noClients
  obtain ⟨route, r, name, rfl⟩ | ⟨env, r, rfl⟩ | ⟨name, rfl⟩ := unframed_cases framed
  · exact leads_deleteActor placed.noGlobal held fun _ _ deleted => held.deleted placed deleted
  · exact leads_createOrganization held fun fullName valid _ =>
      held.createOrg.furnish (orgName_ne_global valid)
  · refine leads_deleteOrganization
      (fun frame => held.frame frame (by decide) (by decide) (by decide)) fun frame => ?_
    exact (held.frame frame (by decide) (by decide) (by decide)).deleteOrg ((frame.hasOrg global).trans placed.noGlobal)

/-- Whatever requests authenticated actors make, in any order, an ACL of an organization grants only
users and the organization's own clients, and the ACL of a user only users. -/
theorem acl_actors_exist [Unicode] (reached : Serves enforceACL (Authenticated parse) s)
    (key perm name : GoString) :
    (∀ org, s.hasOrg org → Grants s org key perm name →
      (s.get global users name).isSome ∨ (s.get org clients name).isSome) ∧
    (Grants s global key perm name → (s.get global users name).isSome) := by
  have held : AclsHeld s := Session.invariant reached nofun fun request s reached caller held =>
    aclsHeld_request held (placed_of_serves reached) caller
  have holder (org : GoString) (grants : Grants s org key perm name) : Holder s org name := by
    obtain ⟨raw, acl, stored, decoded, named⟩ := grants
    exact ((held org key raw acl stored decoded).held perm name named).2
  refine ⟨fun org _ grants => (holder org grants).imp_right And.right, fun grants => ?_⟩
  exact (holder global grants).elim id fun client => absurd rfl client.1

end Authenticated

def aliceCreatesBob [Unicode] : Store :=
  ((createsKeyed (some ⟨alice, false, false, false⟩) leaver).handler true |>.run exec
    (((createsKeyed none alice).handler true).run exec Store.newMemoryBackend).2).2

theorem creator_exists :
    letI : Unicode := ⟨id⟩
    letI : Clock := ⟨fun _ => none⟩
    Serves true (Authenticated some) aliceCreatesBob ∧
      Grants aliceCreatesBob global (aclKey users leaver) (lit "update") alice ∧
      (aliceCreatesBob.get global users alice).isSome := by
  let _ : Unicode := ⟨id⟩
  let _ : Clock := ⟨fun _ => none⟩
  have caller : Authenticated some (createsKeyed (some ⟨alice, false, false, false⟩) leaver)
      (((createsKeyed none alice).handler true).run exec Store.newMemoryBackend).2 := by
    rintro actor ⟨⟩
    exact ⟨0, [lit "key"], ⟨alice, false, false, false⟩, rfl, .inl rfl⟩
  have reached : Serves true (Authenticated some) aliceCreatesBob :=
    .serve (.serve .start (createsKeyed none alice) nofun) _ caller
  have grants : Grants aliceCreatesBob global (aclKey users leaver) (lit "update") alice := by decide +kernel
  exact ⟨reached, grants, (acl_actors_exist reached _ _ _).2 grants⟩

end Grants

/-! ## Concurrent updates of one ACL -/

structure AclUpdate where
  r : Request
  members : Option GoString
  perm : GoString
  status : Nat

namespace AclUpdate

def handler (scope typ name : GoString) (u : AclUpdate) : Handler Response :=
  updateACLPermDoc u.r scope u.members typ name u.perm u.status

def entry (u : AclUpdate) : Value := mapValue (bodyEntry ((unmarshalMap u.r.body).getD none) u.perm)

def edit (typ name : GoString) (u : AclUpdate) (row : Option Raw) : Option Raw :=
  some (mustEncode (some ((contents (aclOfRaw typ name row).acl).insert u.perm u.entry)))

end AclUpdate

variable {scope typ name : GoString} {s : Store}

abbrev AclJournal := Journal AclUpdate StoreCall.Result Response Response Store

/-- The ACL is stored only while no other update has loaded it and not stored it yet. -/
abbrev UpdatedInTurn (scope typ name : GoString) :
    Allows AclUpdate StoreCall.Result Response Response Store :=
  Journal.inTurn (touches scope aclsColl (aclKey typ name)) (nextIs (touches scope aclsColl (aclKey typ name)))

theorem holding_store (u : AclUpdate) (row : Option Raw) (response : Response) :
    (do let acl ← assign (aclOfRaw typ name row).acl u.perm u.entry
        Org.put scope aclsColl (aclKey typ name) (mustEncode acl)
        return response : Handler Response).Holding exec (fun s => s.get scope aclsColl (aclKey typ name)) (u.edit typ name)
      (nextIs (touches scope aclsColl (aclKey typ name))) row := by
  cases loaded : (aclOfRaw typ name row).acl with
  | none => trivial
  | some acl =>
    refine holding_write (touches_put (mustEncode (some (acl.insert u.perm u.entry))))
      (fun s => ?_) fun _ => only_pure response
    rw [exec, get_put, if_pos ⟨rfl, rfl, rfl⟩, AclUpdate.edit, loaded]
    rfl

theorem editing_update (u : AclUpdate) :
    (u.handler scope typ name).Editing exec (fun s => s.get scope aclsColl (aclKey typ name))
    (u.edit typ name)
      (nextIs (touches scope aclsColl (aclKey typ name))) := by
  have reads : Reads fun c => touches scope aclsColl (aclKey typ name) c = false := reads_untouched
  unfold AclUpdate.handler updateACLPermDoc
  dsimp only
  refine editing_guard ((leaves_row reads.only_aclObjectExists).editing fun _ => editing_guard ?_)
  unfold decodeBody
  cases decoded : unmarshalMap u.r.body with
  | none => trivial
  | some body =>
    have ace : mapValue (bodyEntry body u.perm) = u.entry := by rw [AclUpdate.entry, decoded]; rfl
    have rest : (do
        let unknown ← unknownACEMembers u.members (contents (bodyEntry body u.perm))
        if unknown.1 ≠ [] ∨ unknown.2 ≠ [] then Program.stop (.error 400 (unknownMessages unknown.1 unknown.2))
        let loaded ← loadACL scope typ name
        let acl ← assign loaded.acl u.perm (mapValue (bodyEntry body u.perm))
        Org.put scope aclsColl (aclKey typ name) (mustEncode acl)
        return Response.json u.status
          (mustEncode (some (Std.ExtTreeMap.ofList [(u.perm, mapValue (bodyEntry body u.perm))])))).Editing exec
        (fun s => s.get scope aclsColl (aclKey typ name)) (u.edit typ name)
        (nextIs (touches scope aclsColl (aclKey typ name))) := by
      refine (leaves_row reads.only_unknownACEMembers).editing fun _ => editing_guard ?_
      rw [loadACL, bind_bind, ace]
      exact editing_read (fun _ => rfl) fun s => holding_store u _ _
    refine editing_ite (fun _ => ?_) fun _ => rest
    exact (leaves_row reads.only_removesAdminsFromGrant).editing fun _ => editing_guard rest

theorem settled_entry (u : AclUpdate) : Settled u.entry := by
  unfold AclUpdate.entry
  cases decoded : unmarshalMap u.r.body with
  | none => exact ⟨rfl, rfl⟩
  | some body => exact settled_mapValue (settled_bodyEntry decoded)

theorem settledMap_aclOfRaw (row : Option Raw) :
    SettledMap (contents (aclOfRaw typ name row).acl) := by
  unfold aclOfRaw
  cases stored : row.bind unmarshalMap with
  | none =>
    have granted : Granted Store.newMemoryBackend global (fallbackACL typ name) :=
      granted_fallbackACL typ name
    exact granted.settled
  | some acl =>
    obtain ⟨raw, _, decoded⟩ := Option.bind_eq_some_iff.mp stored
    exact settledMap_contents decoded

theorem aclOfRaw_edit (u : AclUpdate) (row : Option Raw) : aclOfRaw typ name (u.edit typ name row) =
      ⟨some ((contents (aclOfRaw typ name row).acl).insert u.perm u.entry), true⟩ := by
  have loaded : SettledMap (contents (aclOfRaw typ name row).acl) := settledMap_aclOfRaw row
  have settled := loaded.insert u.perm (settled_entry u)
  rw [AclUpdate.edit, aclOfRaw, Option.bind_some, settled.unmarshalMap_mustEncode]

def entryOf (typ name : GoString) (row : Option Raw) (perm : GoString) : Value :=
  field (contents (aclOfRaw typ name row).acl) perm

theorem entryOf_edit (u : AclUpdate) (row : Option Raw) (perm : GoString) :
    entryOf typ name (u.edit typ name row) perm = if u.perm = perm then u.entry else entryOf typ name row perm := by
  rw [entryOf, aclOfRaw_edit, contents, Option.getD_some]
  split
  · next same => rw [← same, field_insert_self]
  · next other => rw [field_insert_of_ne other, entryOf, contents]

theorem decoded_edits {updates : List AclUpdate} {u : AclUpdate} (some : u ∈ updates)
    (row : Option Raw) :
    (aclOfRaw typ name (updates.foldl (fun row u => u.edit typ name row) row)).decoded := by
  obtain rfl | ⟨first, last, rfl⟩ := updates.eq_nil_or_concat
  · cases some
  · rw [List.concat_eq_append, List.foldl_append, List.foldl_cons, List.foldl_nil, aclOfRaw_edit]

/-- When the ACL is stored in turn, updates of different entries that have all succeeded leave each its
entry in the stored ACL, and the other entries as they were. -/
theorem acl_updates_persist {j : AclJournal}
    (reached : Journal.Reaches exec (AclUpdate.handler scope typ name) (UpdatedInTurn scope typ name) (.initial s) j)
    (distinct : (j.entries.map fun entry => entry.label.perm).Nodup)
    (succeeded : ∀ entry ∈ j.entries, entry.rest.returned) :
    (∀ entry ∈ j.entries, (aclOfRaw typ name (j.state.get scope aclsColl (aclKey typ name))).decoded ∧
      entryAt j.state scope typ name entry.label.perm = entry.label.entry) ∧
    ∀ perm, (∀ entry ∈ j.entries, entry.label.perm ≠ perm) →
      entryAt j.state scope typ name perm = entryAt s scope typ name perm := by
  have still := fun c (untouched : touches scope aclsColl (aclKey typ name) c = false) =>
    get_exec untouched
  obtain ⟨entries, elsewhere⟩ :=
    reached.edited_apart editing_update still succeeded entryOf_edit distinct
  refine ⟨fun entry mem => ⟨?_, entries entry mem⟩, elsewhere⟩
  obtain ⟨order, permuted, made⟩ := reached.edited editing_update still succeeded
  rw [made]
  exact decoded_edits (permuted.mem_iff.mpr (List.mem_map_of_mem mem)) _

def grants (perm : GoString) (groups : List GoString) : AclUpdate :=
  ⟨creates [(perm, aclEntry [] groups)], some acme, perm, 200⟩

def oneNode : Store := Store.newMemoryBackend.put acme (lit "nodes") (lit "web") (mustEncode (some ∅))

def grantedGroups (entry : Value) : List GoString :=
  anyStrings (field (contents (asMap entry)) (lit "groups"))

theorem acl_updated_in_turn : ∃ j :
    AclJournal, Journal.moves exec (AclUpdate.handler acme (lit "nodes") (lit "web"))
        (UpdatedInTurn acme (lit "nodes") (lit "web")) (.initial oneNode)
        [.start (grants (lit "read") []), .go 0, .start (grants (lit "delete") []), .go 1, .go 0, .go 0] = some j ∧
      (j.entries.map fun entry => entry.label.perm) = [lit "delete", lit "read"] ∧
      (∀ entry ∈ j.entries, (aclOfRaw (lit "nodes") (lit "web")
          (j.state.get acme aclsColl (aclKey (lit "nodes") (lit "web")))).decoded ∧
        entryAt j.state acme (lit "nodes") (lit "web") entry.label.perm = entry.label.entry) ∧
      ∀ perm, (∀ entry ∈ j.entries, entry.label.perm ≠ perm) →
        entryAt j.state acme (lit "nodes") (lit "web") perm = entryAt oneNode acme (lit "nodes") (lit "web") perm := by
  have closed : (Journal.moves exec (AclUpdate.handler acme (lit "nodes") (lit "web"))
        (UpdatedInTurn acme (lit "nodes") (lit "web")) (.initial oneNode)
        [.start (grants (lit "read") []), .go 0, .start (grants (lit "delete") []), .go 1, .go 0, .go 0]).map (fun j =>
      decide ((j.entries.map fun entry => entry.label.perm) = [lit "delete", lit "read"] ∧
        ∀ entry ∈ j.entries, entry.rest.returned)) = some true := by decide +kernel
  obtain ⟨j, made, perms, returned⟩ := exists_of_decided closed
  have distinct : (j.entries.map fun entry => entry.label.perm).Nodup := by rw [perms]; decide
  exact ⟨j, made, perms, acl_updates_persist (Journal.reaches_of_moves made) distinct returned⟩

theorem acl_update_lost :
    ∃ j : AclJournal, Journal.Reaches exec (AclUpdate.handler acme (lit "nodes") (lit "web")) Journal.anyOrder
        (.initial oneNode) j ∧
      (∀ entry ∈ j.entries, entry.rest.returned) ∧
      j.entries.map (fun entry => entry.label.perm) = [lit "delete", lit "read"] ∧
      ∃ entry ∈ j.entries, entryAt j.state acme (lit "nodes") (lit "web") entry.label.perm ≠
        entry.label.entry := by
  have closed : (Journal.moves exec (AclUpdate.handler acme (lit "nodes") (lit "web")) Journal.anyOrder (.initial oneNode)
        [.start (grants (lit "read") []), .go 0, .start (grants (lit "delete") []), .go 0, .go 0, .go 1]).map (fun j =>
      decide ((∀ entry ∈ j.entries, entry.rest.returned) ∧
        j.entries.map (fun entry => entry.label.perm) = [lit "delete", lit "read"] ∧
        ∃ entry ∈ j.entries, grantedGroups (entryAt j.state acme (lit "nodes") (lit "web") entry.label.perm) ≠
          grantedGroups entry.label.entry)) = some true := by decide +kernel
  obtain ⟨j, made, returned, perms, entry, mem, other⟩ := exists_of_decided closed
  exact ⟨j, Journal.reaches_of_moves made, returned, perms, entry, mem,
    fun same => other (congrArg grantedGroups same)⟩

end CincServer.Proof.Api
