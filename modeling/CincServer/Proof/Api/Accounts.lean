import CincServer.Proof.Api.Sessions

/-!
# The stored keys of an actor
-/

namespace CincServer.Proof.Api
open CincServer.Api CincServer.Json Proof.Decoding Go Lib Program
open Function (update update_self update_of_ne update_eq_self)

variable {inv : Store → Prop} {s t : Store} {route : ActorRoute} {name key pub exp : GoString} {r : Request} {f : Footprint}
  {coll fieldName : GoString} {stored : StoredKey} {v : Value} {fullName : GoString}

structure Account where
  record : Option Raw
  rows : GoString → Option Raw

deriving instance DecidableEq for ActorRoute

def accounts (s : Store) (who : ActorRoute × GoString) : Account where
  record := s.get who.1.org who.1.segment who.2
  rows key := s.get who.1.org (keysColl who.1.segment who.2) key

def keyRow (name pub exp : GoString) : Raw := encodeMap (keyFields name pub exp)

theorem decode_keyRow :
    unmarshalStruct storedKeyFields ⟨[], []⟩ (keyRow name pub exp) = some ⟨pub, exp⟩ := rfl

theorem decodeMap_keyRow :
    unmarshalMap (keyRow name pub exp) =
      some (some (Std.ExtTreeMap.ofList (keyFields name pub exp))) := rfl

def recordWith (pub : GoString) (actor : Option Object) : Option Object :=
  if pub = [] then deleteField (lit "public_key") actor else actor.map (·.insert (lit "public_key") (.string pub))

def withRow (s : Store) (route : ActorRoute) (name key pub exp : GoString) : Store :=
  s.put route.org (keysColl route.segment name) key (keyRow key pub exp)

def withoutRow (s : Store) (route : ActorRoute) (name key : GoString) : Store :=
  (s.delete route.org (keysColl route.segment name) key).1

def withRecord (s : Store) (route : ActorRoute) (name : GoString) (obj : Option Object) : Store :=
  s.put route.org route.segment name (mustEncode obj)

def mirrored (s : Store) (route : ActorRoute) (name key : GoString) (obj : Option Object) : Store :=
  if key = defaultKeyName then withRecord s route name obj else s

theorem segment_plain_route (route : ActorRoute) : 0x3A ∉ route.segment := by
  cases route with
  | users => exact (by decide : 0x3A ∉ users)
  | clients org => exact (by decide : 0x3A ∉ clients)

theorem keysColl_ne_segment (route route' : ActorRoute) (name : GoString) :
    keysColl route.segment name ≠ route'.segment :=
  keysColl_ne_of_not_mem (segment_plain_route route')

theorem sameRoute {route' : ActorRoute} (orgs : route.org = route'.org)
    (segments : route.segment = route'.segment) :
    route = route' := by
  have apart : users ≠ clients := by decide
  cases route with
  | users =>
    cases route' with
    | users => rfl
    | clients org => exact absurd segments apart
  | clients org =>
    cases route' with
    | users => exact absurd segments.symm apart
    | clients org' => exact congrArg ActorRoute.clients orgs

theorem sameAccount {route' : ActorRoute} {name' : GoString} (orgs : route.org = route'.org)
    (colls : keysColl route.segment name = keysColl route'.segment name') :
    route = route' ∧ name = name' := by
  have segments : route.segment = route'.segment := by
    cases route with
    | users =>
      cases route' with
      | users => rfl
      | clients org => nomatch (List.cons.inj colls).1
    | clients org =>
      cases route' with
      | users => nomatch (List.cons.inj colls).1
      | clients org' => rfl
  obtain rfl := sameRoute orgs segments
  exact ⟨rfl, List.append_cancel_left colls⟩

def Account.putRow (a : Account) (key pub exp : GoString) : Account :=
  { a with rows := update a.rows key (some (keyRow key pub exp)) }

def Account.dropRow (a : Account) (key : GoString) :
    Account := { a with rows := update a.rows key none }

def Account.putRecord (a : Account) (raw : Raw) : Account := { a with record := some raw }

def Account.mirror (a : Account) (key : GoString) (raw : Raw) : Account :=
  if key = defaultKeyName then a.putRecord raw else a

def Account.gone : Account := ⟨none, fun _ => none⟩

@[simp] theorem Account.putRow_rows (a : Account) :
    (a.putRow key pub exp).rows = update a.rows key (some (keyRow key pub exp)) := rfl

@[simp] theorem Account.dropRow_rows (a : Account) :
    (a.dropRow key).rows = update a.rows key none := rfl

theorem Account.row_of_putRow {a : Account} {other : GoString} {raw : Raw}
    (found : (a.putRow key pub exp).rows other = some raw) :
    other = key ∧ raw = keyRow key pub exp ∨ a.rows other = some raw := by
  rw [Account.putRow_rows] at found
  by_cases same : other = key
  · rw [same, update_self] at found
    exact .inl ⟨same, (Option.some.inj found).symm⟩
  · rw [update_of_ne same] at found
    exact .inr found

theorem Account.row_of_dropRow {a : Account} {other : GoString} {raw : Raw}
    (found : (a.dropRow key).rows other = some raw) :
    a.rows other = some raw := by
  rw [Account.dropRow_rows] at found
  by_cases same : other = key
  · rw [same, update_self] at found
    cases found
  · rwa [update_of_ne same] at found

@[simp] theorem Account.putRecord_record (a : Account) (raw : Raw) :
    (a.putRecord raw).record = some raw := rfl

@[simp] theorem Account.putRecord_rows (a : Account) (raw : Raw) :
    (a.putRecord raw).rows = a.rows := rfl

section Others

variable {route' : ActorRoute} {name' : GoString} (other : (route', name') ≠ (route, name))
include other

theorem other_record : ¬ (route.org = route'.org ∧ route.segment = route'.segment ∧ name = name') :=
  fun ⟨orgs, segments, names⟩ => other (by rw [sameRoute orgs segments, names])

theorem other_rows :
    ¬ (route.org = route'.org ∧ keysColl route.segment name = keysColl route'.segment name') := by
  rintro ⟨orgs, colls⟩
  obtain ⟨rfl, rfl⟩ := sameAccount orgs colls
  exact other rfl

end Others

theorem accounts_update {a : Account} (record : t.get route.org route.segment name = a.record)
    (rows : ∀ key, t.get route.org (keysColl route.segment name) key = a.rows key)
    (records : ∀ route' name', (route', name') ≠ (route, name) →
      t.get route'.org route'.segment name' = s.get route'.org route'.segment name')
    (others : ∀ route' name' key, (route', name') ≠ (route, name) →
      t.get route'.org (keysColl route'.segment name') key = s.get route'.org (keysColl route'.segment name') key) :
    accounts t = update (accounts s) (route, name) a := by
  funext ⟨route', name'⟩
  by_cases same : (route', name') = (route, name)
  · obtain ⟨rfl, rfl⟩ := Prod.mk.inj same
    rw [update_self, accounts]
    congr 1
    funext key
    exact rows key
  · rw [update_of_ne same, accounts]
    congr 1
    · exact records _ _ same
    · funext key
      exact others _ _ key same

@[simp] theorem accounts_withRow : accounts (withRow s route name key pub exp) =
    update (accounts s) (route, name) ((accounts s (route, name)).putRow key pub exp) := by
  refine accounts_update (get_put_of_ne (keysColl_ne_segment route route name)) (fun row => ?_)
    (fun route' _ _ => get_put_of_ne (keysColl_ne_segment route route' name)) fun _ _ _ other => ?_
  · rw [withRow, get_put]
    by_cases same : key = row
    · subst same
      simp [Account.putRow]
    · simp [Account.putRow, same, Ne.symm same, accounts]
  · rw [withRow, get_put, if_neg fun here => other_rows other ⟨here.1, here.2.1⟩]

@[simp] theorem accounts_withoutRow : accounts (withoutRow s route name key) =
    update (accounts s) (route, name) ((accounts s (route, name)).dropRow key) := by
  have record (route' : ActorRoute) (name' : GoString) :
      (withoutRow s route name key).get route'.org route'.segment name' = s.get route'.org route'.segment name' := by
    rw [withoutRow, get_delete, if_neg fun here => keysColl_ne_segment route route' name here.2.1]
  refine accounts_update (record route name) (fun row => ?_)
    (fun route' name' _ => record route' name') fun _ _ _ other => ?_
  · rw [withoutRow, get_delete]
    by_cases same : key = row
    · subst same
      simp [Account.dropRow]
    · simp [Account.dropRow, same, Ne.symm same, accounts]
  · rw [withoutRow, get_delete, if_neg fun here => other_rows other ⟨here.1, here.2.1⟩]

theorem accounts_putRecord {raw : Raw} : accounts (s.put route.org route.segment name raw) =
    update (accounts s) (route, name) ((accounts s (route, name)).putRecord raw) := by
  have rows (route' : ActorRoute) (name' key : GoString) : (s.put route.org route.segment name raw).get route'.org
      (keysColl route'.segment name') key = s.get route'.org (keysColl route'.segment name') key :=
    get_put_of_ne (keysColl_ne_segment route' route name').symm
  refine accounts_update ?_ (rows route name) (fun _ _ other => ?_) fun route' name' key _ =>
    rows route' name' key
  · rw [get_put, if_pos ⟨rfl, rfl, rfl⟩]
    rfl
  · rw [get_put, if_neg (other_record other)]

@[simp] theorem accounts_withRecord {obj : Option Object} : accounts (withRecord s route name obj) =
    update (accounts s) (route, name) ((accounts s (route, name)).putRecord (mustEncode obj)) :=
  accounts_putRecord

@[simp] theorem accounts_mirrored {obj : Option Object} : accounts (mirrored s route name key obj) =
    update (accounts s) (route, name) ((accounts s (route, name)).mirror key (mustEncode obj)) := by
  unfold mirrored Account.mirror
  split
  · exact accounts_withRecord
  · rw [update_eq_self]

theorem accounts_mirrored_withRow {other : GoString} {obj : Option Object} :
    accounts (mirrored (withRow s route name key pub exp) route name other obj) =
      update (accounts s) (route, name)
      (((accounts s (route, name)).putRow key pub exp).mirror other (mustEncode obj)) := by
  simp

theorem accounts_withRecord_withRow {obj : Option Object} :
    accounts (withRecord (withRow s route name key pub exp) route name obj) =
      update (accounts s) (route, name)
      (((accounts s (route, name)).putRow key pub exp).putRecord (mustEncode obj)) := by
  simp

theorem accounts_withRecord_withoutRow {obj : Option Object} :
    accounts (withRecord (withoutRow s route name key) route name obj) =
      update (accounts s) (route, name)
      (((accounts s (route, name)).dropRow key).putRecord (mustEncode obj)) := by
  simp

theorem accounts_withoutRow_withRow {other : GoString} :
    accounts (withoutRow (withRow s route name key pub exp) route name other) =
      update (accounts s) (route, name)
      (((accounts s (route, name)).putRow key pub exp).dropRow other) := by
  simp

theorem dropRow_self {a : Account} (absent : a.rows key = none) : a.dropRow key = a := by
  unfold Account.dropRow
  rw [← absent, update_eq_self]

def Becomes (s t : Store) (who : ActorRoute × GoString) (a : Account) : Prop :=
  accounts t = update (accounts s) who a

def NoAccount (coll : GoString) : Prop := ∀ (route : ActorRoute) (name : GoString),
  coll ≠ route.segment ∧ coll ≠ keysColl route.segment name

theorem noAccount_plain (plain : 0x3A ∉ coll) (apart : coll ∉ [users, clients]) :
    NoAccount coll := by
  intro route name
  refine ⟨?_, ne_of_colon plain (colon_mem_keysColl _ _)⟩
  rintro rfl
  cases route with
  | _ => exact apart (by simp [ActorRoute.segment])

theorem noAccount_items (bag : GoString) : NoAccount (dataBagItemsColl bag) := by
  intro route name
  refine ⟨(ne_of_colon (segment_plain_route route) (colon_mem_dataBagItemsColl bag)).symm,
    fun same => ?_⟩
  cases route <;> nomatch (List.cons.inj same).1

theorem noAccount_revisions (policy : GoString) : NoAccount (policyRevColl policy) := by
  intro route name
  refine ⟨(ne_of_colon (segment_plain_route route) (colon_mem_policyRevColl policy)).symm,
    fun same => ?_⟩
  cases route <;> nomatch (List.cons.inj same).1

def plainColls : List GoString :=
  [aclsColl, containersColl, dataBagsColl, environmentsColl, orgsColl, policyGroupsColl, cookbooksColl, artifactsColl,
   sandboxesColl, assocColl, assocReqColl, groupMembersColl, groupsColl, passwordsCollection, lit "nodes", lit "roles"]

theorem noAccount_fixed (mem : coll ∈ plainColls) : NoAccount coll := by
  have plain : plainColls.all fun coll => 0x3A ∉ coll ∧ coll ∉ [users, clients] := by decide
  obtain ⟨noColon, apart⟩ := of_decide_eq_true (List.all_eq_true.mp plain coll mem)
  exact noAccount_plain noColon apart

def Unaccounted (f : Footprint) : Prop :=
  (∀ coll ∈ f.puts, NoAccount coll) ∧ ∀ coll ∈ f.deletes, NoAccount coll

theorem accounts_frame {org : GoString} (frame : Frame org f s t) (apart : Unaccounted f) :
    accounts t = accounts s := by
  funext ⟨route, name⟩
  unfold accounts
  congr 1
  · refine frame.gets (fun mem => ?_) fun mem => ?_
    · exact (apart.1 _ mem route name).1 rfl
    · exact (apart.2 _ mem route name).1 rfl
  · funext key
    refine frame.gets (fun mem => ?_) fun mem => ?_
    · exact (apart.1 _ mem route name).2 rfl
    · exact (apart.2 _ mem route name).2 rfl

theorem unaccounted_password : Unaccounted ⟨[passwordsCollection], []⟩ :=
  ⟨by simpa using noAccount_fixed (show passwordsCollection ∈ plainColls by decide), by simp⟩

theorem unaccounted_seed : Unaccounted seedWrites :=
  ⟨fun _ mem => noAccount_fixed ((by decide : seedWrites.puts ⊆ plainColls) mem), by simp [seedWrites]⟩

theorem unaccounted_settling : Unaccounted ⟨[aclsColl, groupMembersColl], []⟩ :=
  ⟨by simp [noAccount_fixed (show aclsColl ∈ plainColls by decide),
    noAccount_fixed (show groupMembersColl ∈ plainColls by decide)], by simp⟩

theorem unaccounted_orgs : Unaccounted ⟨[], [orgsColl]⟩ :=
  ⟨by simp, by simpa using noAccount_fixed (show orgsColl ∈ plainColls by decide)⟩

def Loads (s : Store) (route : ActorRoute) (name : GoString) (actor : Option Object) : Prop :=
  ∃ raw, s.get route.org route.segment name = some raw ∧ unmarshalMap raw = some actor

theorem leads_loadActor (holds : inv s) :
    Leads exec inv (loadActor route.org route.segment name) s fun actor t =>
      t = s ∧ Loads s route name actor := by
  unfold Leads loadActor
  rw [run_get_bind]
  cases found : s.get route.org route.segment name with
  | none => exact holds
  | some raw =>
    cases decoded : unmarshalMap raw with
    | none =>
      simp only [decoded]
      exact holds
    | some actor =>
      simp only [decoded]
      exact ⟨rfl, raw, found, decoded⟩

theorem leads_setActorPublicKey {actor : Option Object} (stopped : actor = none → inv s) :
    Leads exec inv (setActorPublicKey route.org route.segment name actor pub) s fun _ t =>
      t = withRecord s route name (recordWith pub actor) := by
  unfold setActorPublicKey recordWith
  refine leads_ite (fun none => ?_) fun given => ?_
  · rw [if_pos none]
    exact leads_perform rfl
  · rw [if_neg given]
    cases actor with
    | none => exact leads_stop (stopped rfl)
    | some obj => exact leads_perform rfl

theorem actor_isSome_of_key {actor : Option Object} (keyed : actorKey actor ≠ []) :
    actor ≠ none := by
  rintro rfl
  exact keyed rfl

theorem leads_mirror {α : Type} {actor : Option Object} {a : α} {post : α → Store → Prop}
    (stopped : key = defaultKeyName → actor = none → inv s)
    (done : post a (mirrored s route name key (recordWith pub actor))) :
    Leads exec inv (if key = defaultKeyName then
      setActorPublicKey route.org route.segment name actor pub >>= fun _ => pure a else pure a) s post := by
  unfold mirrored at done
  refine leads_ite (fun isDefault => ?_) fun other => ?_
  · refine (leads_setActorPublicKey (stopped isDefault)).then ?_
    rintro _ _ rfl
    rw [if_pos isDefault] at done
    exact leads_pure done
  · rw [if_neg other] at done
    exact leads_pure done

def orElse (given fallback : GoString) : GoString := if given = [] then fallback else given

structure KeyBody (env : Env) (r : Request) (body : Option Object) : Prop where
  decoded : unmarshalMap r.body = some body
  accepted : validateKeyFields env (contents body) = none

def givenPublicKey (env : Env) (body : Object) : GoString :=
  if isTrue (field body (lit "create_key")) then env.publicKey else str (field body (lit "public_key"))

def amendedKey (env : Env) (body : Object) (old : StoredKey) : StoredKey where
  publicKey := orElse (givenPublicKey env body) old.publicKey
  expirationDate := orElse (str (field body (lit "expiration_date"))) old.expirationDate

def amendedName (body : Object) (key : GoString) : GoString :=
  orElse (str (field body (lit "name"))) key

def renamed (s : Store) (route : ActorRoute) (name key new : GoString) (stored : StoredKey)
    (actor : Option Object) : Store :=
  let moved := withoutRow (withRow s route name new stored.publicKey stored.expirationDate) route name key
  if key = defaultKeyName then withRecord moved route name (recordWith [] actor)
  else mirrored moved route name new (recordWith stored.publicKey actor)

def Account.rename (a : Account) (key new : GoString) (stored : StoredKey)
    (actor : Option Object) : Account :=
  let moved := (a.putRow new stored.publicKey stored.expirationDate).dropRow key
  if key = defaultKeyName then moved.putRecord (mustEncode (recordWith [] actor))
  else moved.mirror new (mustEncode (recordWith stored.publicKey actor))

variable {P : Account → Prop}

theorem Account.mirror_of {a : Account} {raw : Raw} (own : P a) (changed : P (a.putRecord raw)) :
    P (a.mirror key raw) := by
  unfold Account.mirror
  split
  · exact changed
  · exact own

theorem Account.rename_of {a : Account} {new : GoString} {actor : Option Object}
    (moved : P ((a.putRow new stored.publicKey stored.expirationDate).dropRow key))
    (changed : ∀ pub, pub = [] ∨ pub = stored.publicKey →
      P (((a.putRow new stored.publicKey stored.expirationDate).dropRow key).putRecord (mustEncode (recordWith pub actor)))) :
    P (a.rename key new stored actor) := by
  unfold Account.rename
  dsimp only
  split
  · exact changed _ (.inl rfl)
  · exact Account.mirror_of moved (changed _ (.inr rfl))

@[simp] theorem accounts_renamed {new : GoString} {actor : Option Object} :
    accounts (renamed s route name key new stored actor) =
      update (accounts s) (route, name) ((accounts s (route, name)).rename key new stored actor) := by
  unfold renamed Account.rename
  split <;> simp

inductive Held (a : Account) (actor : Option Object) : GoString → StoredKey → Prop
  | row {key raw old} (stored : a.rows key = some raw) (read : unmarshalStruct storedKeyFields ⟨[], []⟩ raw = some old) :
      Held a actor key old
  | own (absent : a.rows defaultKeyName = none) (keyed : actorKey actor ≠ []) :
      Held a actor defaultKeyName ⟨actorKey actor, infinity⟩

inductive KeyEffect (a : Account) (actor : Option Object) : KeyWrite → Account → Account → Prop
  | added {env r body key pub exp} (given : KeyBody env r body) (named : key = str (field (contents body) (lit "name")))
      (isPub : pub = orElse (str (field (contents body) (lit "public_key"))) env.publicKey)
      (isExp : exp = orElse (str (field (contents body) (lit "expiration_date"))) infinity)
      (absent : a.rows key = none) (bare : key = defaultKeyName → actorKey actor = []) :
      KeyEffect a actor (.add env r) (a.putRow key pub exp)
        ((a.putRow key pub exp).mirror key (mustEncode (recordWith pub actor)))
  | amended {env r body key old new} (given : KeyBody env r body) (held : Held a actor key old)
      (named : (a.rows key).isSome → amendedName (contents body) key = key) (amends : new = amendedKey env (contents body) old) :
      KeyEffect a actor (.put env r key) (a.putRow key new.publicKey new.expirationDate)
        ((a.putRow key new.publicKey new.expirationDate).mirror key (mustEncode (recordWith new.publicKey actor)))
  | renamed {env r body key other old new} (given : KeyBody env r body) (stored : (a.rows key).isSome)
      (held : Held a actor key old) (named : amendedName (contents body) key = other) (apart : other ≠ key)
      (amends : new = amendedKey env (contents body) old) (absent : a.rows other = none)
      (bare : other = defaultKeyName → actorKey actor = []) :
      KeyEffect a actor (.put env r key) ((a.putRow other new.publicKey new.expirationDate).dropRow key)
        (a.rename key other new actor)
  | dropped {key raw} (stored : a.rows key = some raw) (other : ¬ (key = defaultKeyName ∧ actorKey actor ≠ [])) :
      KeyEffect a actor (.delete key) a (a.dropRow key)
  | bared (keyed : actorKey actor ≠ []) : KeyEffect a actor (.delete defaultKeyName) a
      ((a.dropRow defaultKeyName).putRecord (mustEncode (recordWith [] actor)))

def Covers (inv post : Store → Prop) (s : Store) (route : ActorRoute) (name : GoString)
    (request : KeyWrite) : Prop :=
  ∀ actor torn done, Loads s route name actor → KeyEffect (accounts s (route, name)) actor request torn done →
    (actor = none → ∀ t, Becomes s t (route, name) torn → inv t) ∧ ∀ t, Becomes s t (route, name) done → post t

theorem leads_addKey {env : Env} {post : Store → Prop} (holds : inv s)
    (covers : Covers inv post s route name (.add env r)) :
    Leads exec inv (addKey env r route name) s fun _ => post := by
  refine (leads_scope holds).past fun _ _ => ?_
  refine (leads_loadActor holds).past fun actor loads => ?_
  refine (leads_decodeBody holds).past fun body decoded => ?_
  refine (leads_refuseIf holds).past fun _ _ => ?_
  refine (leads_refuseWith holds).past fun _ accepted => ?_
  refine (leads_refuseIf holds).past fun _ free => ?_
  rw [← bind_bind]
  refine (leads_create holds).then ?_
  rintro _ _ ⟨absent, rfl⟩
  have bare : str (field (contents body) (lit "name")) = defaultKeyName →
      actorKey actor = [] := fun isDefault => by
    by_contra keyed
    exact free ⟨isDefault, keyed⟩
  obtain ⟨torn, done⟩ := covers actor _ _ loads (.added ⟨decoded, accepted⟩ rfl rfl rfl absent bare)
  exact leads_mirror (fun _ isNone => torn isNone _ accounts_withRow)
    (done _ accounts_mirrored_withRow)

theorem field_insert_self {obj : Object} : field (obj.insert fieldName v) fieldName = v :=
  Std.ExtTreeMap.getD_insert_self

theorem field_insert_of_ne {obj : Object} {other : GoString} (apart : other ≠ fieldName) :
    field (obj.insert other v) fieldName = field obj fieldName := by
  simp [field, Std.ExtTreeMap.getD_insert, apart]

structure ReadsAs (env : Env) (body : Object) (read : Object) : Prop where
  name : field read (lit "name") = field body (lit "name")
  publicKey : str (field read (lit "public_key")) = givenPublicKey env body
  expirationDate : field read (lit "expiration_date") = field body (lit "expiration_date")

theorem ReadsAs.amended {env : Env} {body read : Object} (reads : ReadsAs env body read)
    (old : StoredKey) :
    amendedKey env body old = ⟨stringOr read (lit "public_key") old.publicKey,
      stringOr read (lit "expiration_date") old.expirationDate⟩ := by
  simp only [amendedKey, orElse, stringOr, reads.publicKey, reads.expirationDate]

theorem ReadsAs.amendedName {env : Env} {body read : Object} (reads : ReadsAs env body read)
    (key : GoString) :
    amendedName body key = stringOr read (lit "name") key := by
  simp only [Api.amendedName, orElse, stringOr, reads.name]

section Update

variable {env : Env} {actor body : Option Object} {read : Object} {privateKey : GoString} {post : Store → Prop}
  (given : KeyBody env r body) (holds : inv s) (loads : Loads s route name actor)

include given holds loads

theorem leads_storeDefaultKey (reads : ReadsAs env (contents body) read)
    (absent : (accounts s (route, name)).rows defaultKeyName = none)
    (covers : Covers inv post s route name (.put env r defaultKeyName)) :
    Leads exec inv (storeDefaultKey route.org route.segment name actor read privateKey) s fun _ =>
      post := by
  refine (leads_refuseIf holds).past fun _ keyed => ?_
  have done := (covers actor _ _ loads (.amended given (.own absent keyed) (by simp [absent]) rfl)).2
  rw [reads.amended, Account.mirror, if_pos rfl] at done
  refine leads_bind.mpr (leads_of_run run_put ?_)
  refine (leads_setActorPublicKey fun isNone => absurd isNone (actor_isSome_of_key keyed)).then ?_
  rintro _ _ rfl
  exact leads_pure (done _ accounts_withRecord_withRow)

theorem leads_renameKey {new : GoString} {raw : Raw} {old : StoredKey} (stored : StoredKey)
    (found : (accounts s (route, name)).rows key = some raw)
    (decoded : unmarshalStruct storedKeyFields ⟨[], []⟩ raw = some old)
    (named : amendedName (contents body) key = new) (apart : new ≠ key)
    (amends : stored = amendedKey env (contents body) old)
    (covers : Covers inv post s route name (.put env r key)) :
    Leads exec inv (renameKey route.org route.segment name key new actor
      (keyFields new stored.publicKey stored.expirationDate) stored.publicKey privateKey) s fun _ => post := by
  refine (leads_refuseIf holds).past fun _ free => ?_
  have bare : new = defaultKeyName → actorKey actor = [] := fun isDefault => by
    by_contra keyed
    exact free ⟨isDefault, keyed⟩
  rw [← bind_bind]
  refine (leads_create holds).then ?_
  rintro _ _ ⟨absent, rfl⟩
  obtain ⟨torn, done⟩ := covers actor _ _ loads
    (.renamed given (Option.isSome_of_eq_some found) (.row found decoded) named apart amends absent bare)
  have torn (isNone : actor = none) : inv _ := torn isNone _ accounts_withoutRow_withRow
  have done : post (renamed s route name key new stored actor) := done _ accounts_renamed
  unfold renamed at done
  refine leads_bind.mpr (leads_perform ?_)
  refine leads_ite (fun isDefault => ?_) fun other => ?_
  · refine (leads_setActorPublicKey torn).then ?_
    rintro _ _ rfl
    rw [if_pos isDefault] at done
    exact leads_pure done
  · rw [if_neg other] at done
    exact leads_mirror (fun _ => torn) done

theorem leads_updateKey {raw : Raw} (reads : ReadsAs env (contents body) read)
    (found : (accounts s (route, name)).rows key = some raw)
    (covers : Covers inv post s route name (.put env r key)) :
    Leads exec inv (updateKey route.org route.segment name key actor read privateKey raw) s fun _ => post := by
  unfold updateKey
  split
  · exact leads_stop holds
  · next old decoded =>
    have amends := reads.amended old
    have named := reads.amendedName key
    refine (leads_refuseIf holds).past fun _ _ => ?_
    refine leads_ite (fun same => ?_) fun other => ?_
    · obtain ⟨torn, done⟩ := covers actor _ _ loads (.amended given (.row found decoded) (fun _ => named.trans same) amends.symm)
      refine leads_bind.mpr (leads_of_run run_put ?_)
      rw [same]
      exact leads_mirror (fun _ isNone => torn isNone _ accounts_withRow) (done _ accounts_mirrored_withRow)
    · exact leads_renameKey given holds loads ⟨stringOr read (lit "public_key") old.publicKey,
        stringOr read (lit "expiration_date") old.expirationDate⟩ found decoded named other amends.symm covers

theorem leads_storeKey (reads : ReadsAs env (contents body) read)
    (present : ¬ ((s.get route.org (keysColl route.segment name) key).isNone ∧ key ≠ defaultKeyName))
    (covers : Covers inv post s route name (.put env r key)) :
    Leads exec inv (match s.get route.org (keysColl route.segment name) key with
      | none => storeDefaultKey route.org route.segment name actor read privateKey
      | some raw => updateKey route.org route.segment name key actor read privateKey raw) s fun _ => post := by
  cases found : s.get route.org (keysColl route.segment name) key with
  | none =>
    have isDefault : key = defaultKeyName := by
      by_contra other
      exact present ⟨by rw [found]; rfl, other⟩
    subst isDefault
    exact leads_storeDefaultKey given holds loads reads found covers
  | some raw => exact leads_updateKey given holds loads reads found covers

end Update

theorem validateKeyFields_deleteField {env : Env} {body : Option Object} :
    validateKeyFields env (contents (deleteField (lit "create_key") body)) =
      validateKeyFields env (contents body) := by
  have named : lit "name" ∈ contents (deleteField (lit "create_key") body) ↔
      lit "name" ∈ contents body := by
    cases body with
    | none => rfl
    | some obj =>
      rw [deleteField, contents, contents, Option.map_some, Option.getD_some, Option.getD_some,
        Std.ExtTreeMap.mem_erase]
      exact and_iff_right (by decide)
  unfold validateKeyFields
  rw [field_deleteField (by decide), field_deleteField (by decide), field_deleteField (by decide)]
  simp only [named]

theorem leads_putKey {env : Env} {post : Store → Prop} (holds : inv s)
    (covers : Covers inv post s route name (.put env r key)) :
    Leads exec inv (putKey env r route name key) s fun _ => post := by
  refine (leads_scope holds).past fun _ _ => ?_
  refine (leads_loadActor holds).past fun actor loads => ?_
  refine (leads_decodeBody holds).past fun body decoded => ?_
  refine (leads_refuseIf holds).past fun _ _ => ?_
  refine (leads_refuseWith holds).past fun _ accepted => ?_
  have given : KeyBody env r body := ⟨decoded, by rwa [validateKeyFields_deleteField] at accepted⟩
  refine (leads_result readOnly_reads.only_get holds).past fun row ran => ?_
  obtain rfl : s.get route.org (keysColl route.segment name) key = row :=
    Except.ok.inj (Prod.mk.inj ran).1
  refine (leads_refuseIf holds).past fun _ present => ?_
  have untouched {fieldName : GoString} (apart : lit "create_key" ≠ fieldName) :
      field (contents (deleteField (lit "create_key") body)) fieldName = field (contents body) fieldName :=
    field_deleteField apart
  refine leads_ite (fun createKey => ?_) fun keep => ?_
  · cases body with
    | none => cases createKey
    | some obj =>
      refine leads_bind.mpr (leads_pure (leads_storeKey given holds loads ⟨?_, ?_, ?_⟩ present covers))
      · rw [← untouched (by decide)]
        exact field_insert_of_ne (by decide)
      · rw [givenPublicKey, if_pos createKey]
        exact congrArg str field_insert_self
      · rw [← untouched (by decide)]
        exact field_insert_of_ne (by decide)
  · refine leads_bind.mpr (leads_pure
      (leads_storeKey given holds loads ⟨untouched (by decide), ?_, untouched (by decide)⟩
      present covers))
    rw [untouched (by decide), givenPublicKey, if_neg keep]

theorem leads_deleteKey {post : Store → Prop} (holds : inv s)
    (covers : Covers inv post s route name (.delete key)) :
    Leads exec inv (deleteKey route name key) s fun _ => post := by
  refine (leads_scope holds).past fun _ _ => ?_
  refine (leads_loadActor holds).past fun actor loads => ?_
  rw [leads_bind]
  refine leads_perform ?_
  dsimp only [exec]
  rw [delete_snd]
  change Leads exec inv _ (withoutRow s route name key) _
  cases found : s.get route.org (keysColl route.segment name) key with
  | none =>
    have same : withoutRow s route name key = s := delete_of_none found
    rw [same]
    refine leads_ite (fun keyed => ?_) fun _ => leads_stop holds
    obtain ⟨rfl, keyed⟩ := keyed
    have done := (covers actor _ _ loads (.bared keyed)).2
    rw [dropRow_self found] at done
    exact leads_bind.mpr (leads_perform (done _ accounts_withRecord))
  | some raw =>
    refine leads_ite (fun mirrors => ?_) fun other => ?_
    · obtain ⟨rfl, keyed⟩ := mirrors
      refine (leads_setActorPublicKey fun isNone => absurd isNone (actor_isSome_of_key keyed)).then ?_
      rintro _ _ rfl
      exact leads_pure ((covers actor _ _ loads (.bared keyed)).2 _ accounts_withRecord_withoutRow)
    · exact leads_pure ((covers actor _ _ loads (.dropped found other)).2 _ accounts_withoutRow)

theorem leads_key {request : KeyWrite} {post : Store → Prop} (holds : inv s)
    (covers : Covers inv post s route name request) :
    Leads exec inv (request.handler route name) s fun _ => post := by
  cases request with
  | add env r => exact leads_addKey holds covers
  | put env r key => exact leads_putKey holds covers
  | delete key => exact leads_deleteKey holds covers

def DefaultShaped (a : Account) : Prop :=
  ∀ raw, a.rows defaultKeyName = some raw → ∃ pub exp, raw = keyRow defaultKeyName pub exp

inductive Rotates (a : Account) (given : GoString) : Account → Prop
  | same (none : given = [] ∨ a.rows defaultKeyName = none) : Rotates a given a
  | row (pub exp : GoString) (new : given ≠ []) (stored : a.rows defaultKeyName = some (keyRow defaultKeyName pub exp)) :
      Rotates a given (a.putRow defaultKeyName given exp)

theorem Rotates.record {a a' : Account} {given : GoString} (rotates : Rotates a given a') :
    a'.record = a.record := by
  cases rotates <;> rfl

theorem becomes_self : Becomes s s (route, name) (accounts s (route, name)) :=
  (update_eq_self _ _).symm

theorem leads_setStoredDefaultPublicKey {given : GoString} (new : given ≠ [])
    (shaped : DefaultShaped (accounts s (route, name))) :
    Leads exec inv (setStoredDefaultPublicKey route.org route.segment name given) s fun _ t =>
      ∃ a, Rotates (accounts s (route, name)) given a ∧ Becomes s t (route, name) a := by
  unfold Leads setStoredDefaultPublicKey
  rw [run_get_bind]
  cases found : s.get route.org (keysColl route.segment name) defaultKeyName with
  | none => exact ⟨_, .same (.inr found), becomes_self⟩
  | some raw =>
    obtain ⟨pub, exp, rfl⟩ := shaped raw found
    simp only [decodeMap_keyRow]
    exact ⟨_, .row pub exp new found, accounts_withRow⟩

theorem RecordLike.mergeUser {Q : Object → Prop} (like : RecordLike Q) {stored body : Object}
    (old : Q stored)
    (new : Q body) : Q (mergeUser stored body) := by
  have fold (members : Members) (inside : ∀ member ∈ members, body[member.1]? = some member.2) {out : Object} (holds : Q out) :
      Q (members.foldl (fun out member => mergeField out member.1 member.2) out) := by
    induction members generalizing out with
    | nil => exact holds
    | cons member members ih =>
      obtain ⟨first, rest⟩ := List.forall_mem_cons.mp inside
      refine ih rest ?_
      dsimp only [mergeField]
      split
      · exact like.erase _ holds
      · exact like.field holds new first
  rw [Api.mergeUser, Std.ExtTreeMap.foldl_eq_foldl_toList]
  exact fold _ (fun member mem => Std.ExtTreeMap.mem_toList_iff_getElem?_eq_some.mp mem) old

def rotatedKey (env : Env) (r : Request) (merged : Option Object) : GoString :=
  givenKey env (regenerates r (contents merged)) (contents (deleteField (lit "private_key") merged))

theorem leads_carryKey {env : Env} {obj : Option Object}
    (shaped : DefaultShaped (accounts s (route, name))) (holds : inv s) :
    Leads exec inv (carryKey env (regenerates r (contents obj)) route.org route.segment name obj) s fun out t =>
      (∃ a, Rotates (accounts s (route, name)) (rotatedKey env r obj) a ∧ Becomes s t (route, name) a) ∧ (obj = none → t = s) ∧
        out = obj.map fun merged => withKey (updatedKey env (regenerates r merged)
          (decodeStored (s.get route.org route.segment name)) merged) merged := by
  unfold carryKey rotatedKey
  cases obj with
  | none =>
    refine leads_bind.mpr (leads_of_run run_storedPublicKey
      (leads_ite (fun _ => leads_stop holds) fun _ => ?_))
    exact leads_pure ⟨⟨_, .same (.inl rfl), becomes_self⟩, fun _ => rfl, rfl⟩
  | some merged =>
    simp only [contents, deleteField, Option.map_some, Option.getD_some, updatedKey, withKey]
    by_cases none : givenKey env (regenerates r merged) (merged.erase (lit "private_key")) = []
    · simp only [none, ne_eq, not_true_eq_false, if_false]
      refine leads_bind.mpr (leads_of_run run_storedPublicKey ?_)
      split_ifs <;> exact leads_pure ⟨⟨_, .same (.inl rfl), becomes_self⟩, by simp, rfl⟩
    · simp only [none, ne_eq, not_false_eq_true, if_true]
      refine (leads_setStoredDefaultPublicKey none shaped).then fun _ t rotated => ?_
      exact leads_bind.mpr (leads_pure
        (leads_ite (fun _ => leads_pure ⟨rotated, by simp, rfl⟩) fun no => absurd none no))

theorem leads_updateBody (holds : inv s) :
    Leads exec inv (updateBody r) s fun out t => t = s ∧ ∃ body, unmarshalMap r.body = some body ∧
      (1 ≤ r.apiVersion → updateKeyFieldsError (contents body) = none) ∧ out = updateFields r body := by
  refine (leads_decodeBody holds).past fun body decoded => ?_
  unfold updateFields
  refine leads_ite (fun v1 => ?_) fun v0 => ?_
  · dsimp only
    split
    · exact leads_stop holds
    · next accepted => exact leads_pure ⟨rfl, body, decoded, fun _ => accepted, by rw [if_pos v1]⟩
  · exact leads_pure ⟨rfl, body, decoded, fun v1 => absurd v1 v0, by rw [if_neg v0]⟩

theorem leads_mergeUpdate [Unicode] {obj : Option Object} (holds : inv s) :
    Leads exec inv (mergeUpdate route.org route.segment name obj) s fun out t =>
      t = s ∧ (route.segment = users →
        validateUser (contents obj) (decodeStored (s.get route.org route.segment name)) false = none) ∧
      out = mergedRecord route.segment (decodeStored (s.get route.org route.segment name)) obj := by
  unfold mergedRecord
  refine leads_ite (fun client => ?_) fun user => ?_
  · rw [if_pos client]
    exact leads_pure ⟨rfl, fun user => absurd user client, rfl⟩
  · rw [if_neg user]
    refine leads_bind.mpr (leads_of_run run_storedRecord ?_)
    split
    · exact leads_stop holds
    · next accepted => exact leads_pure ⟨rfl, fun _ => accepted, rfl⟩

theorem leads_preservePrivilege {obj : Option Object} (stopped : obj = none → inv s) :
    Leads exec inv (preservePrivilege r route.org route.segment name obj) s fun out t => t = s ∧
      out = obj.map fun o => if route.segment = users then
        withPrivilege r (decodeStored (s.get route.org route.segment name)) o else o := by
  refine leads_ite (fun client => ?_) fun user => ?_
  · exact leads_pure ⟨rfl, by simp [client]⟩
  have user : route.segment = users := not_not.mp user
  simp only [if_pos user]
  unfold withPrivilege
  cases r.actor with
  | none => exact leads_pure ⟨rfl, by simp⟩
  | some actor =>
    refine leads_ite (fun superuser => leads_pure ⟨rfl, by simp [superuser]⟩) fun plain => ?_
    refine leads_bind.mpr (leads_of_run run_storedField ?_)
    simp only [if_neg plain]
    cases field (decodeStored (s.get route.org route.segment name)) adminField with
    | null => exact leads_pure ⟨rfl, rfl⟩
    | _ =>
      cases obj with
      | none => exact leads_stop (stopped rfl)
      | some o => exact leads_pure ⟨rfl, rfl⟩

structure UpdatesRecord [Unicode] (s : Store) (route : ActorRoute) (name : GoString) (env : Env)
    (r : Request) (body : Option Object)
    (given : GoString) (obj : Option Object) : Prop where
  keyFields : 1 ≤ r.apiVersion → updateKeyFieldsError (contents body) = none
  user : route.segment = users →
    validateUser (contents (updateFields r body)) (decodeStored (s.get route.org route.segment name)) false = none
  rotates : given = rotatedKey env r
    (mergedRecord route.segment (decodeStored (s.get route.org route.segment name)) (updateFields r body))
  made : obj = updatedRecord env r route.segment (decodeStored (s.get route.org route.segment name)) (updateFields r body)

theorem leads_putActor [Unicode] {env : Env} {post : Store → Prop} (holds : inv s)
    (shaped : DefaultShaped (accounts s (route, name)))
    (done : ∀ body given obj a t, unmarshalMap r.body = some body → UpdatesRecord s route name env r body given obj →
      Rotates (accounts s (route, name)) given a → Becomes s t (route, name) (a.putRecord (mustEncode obj)) → post t) :
    Leads exec inv (putActor env r route name) s fun _ => post := by
  refine (leads_scope holds).past fun _ _ => ?_
  refine (leads_reads readOnly_reads.only_mustView holds).still fun _ => ?_
  refine (leads_updateBody holds).then ?_
  rintro _ s ⟨rfl, body, decoded, keyFields, rfl⟩
  refine (leads_mergeUpdate holds).past fun merged ⟨user, merges⟩ => ?_
  refine (leads_carryKey shaped holds).then ?_
  rintro _ t ⟨⟨a, rotates, becomes⟩, still, rfl⟩
  have record : t.get route.org route.segment name = s.get route.org route.segment name := by
    have same := congrFun becomes (route, name)
    rw [update_self] at same
    exact (congrArg Account.record same).trans rotates.record
  refine (leads_preservePrivilege fun isNone => still
    (Option.map_eq_none_iff.mp isNone) ▸ holds).then ?_
  rintro _ t ⟨rfl, rfl⟩
  refine leads_stashPassword.then ?_
  rintro out u ⟨frame, made⟩
  have updates : UpdatesRecord s route name env r body (rotatedKey env r merged) out := by
    refine ⟨keyFields, user, by rw [merges], ?_⟩
    rw [made, record, updatedRecord, ← merges, Option.map_map, Option.map_map]
    rfl
  refine leads_bind.mpr (leads_of_run run_put ?_)
  have changed : Becomes s (withRecord u route name out) (route, name) (a.putRecord (mustEncode out)) := by
    rw [Becomes, accounts_withRecord, accounts_frame frame unaccounted_password, becomes,
      update_self,
      Function.update_idem]
  have stored : post (withRecord u route name out) :=
    done body _ out a _ decoded updates rotates changed
  refine leads_ite (fun regenerate => ?_) fun _ => leads_pure stored
  rw [Bool.and_eq_true] at regenerate
  cases merged with
  | none => cases regenerate.1
  | some merged =>
    rw [made]
    exact leads_bind.mpr (leads_pure (leads_pure (made ▸ stored)))

section Records

variable {Q : Object → Prop} (like : RecordLike Q)
include like

theorem RecordLike.withKey {obj : Object} (holds : Q obj) : Q (withKey pub obj) := by
  unfold Api.withKey
  dsimp only
  split
  · exact like.text _ (by simp) (like.erase _ (like.erase _ holds))
  · exact like.erase _ (like.erase _ holds)

theorem RecordLike.withPrivilege {stored obj : Object} (old : Q stored) (holds : Q obj) :
    Q (withPrivilege r stored obj) := by
  unfold Api.withPrivilege
  split
  · exact holds
  · split
    · exact holds
    · split
      · exact like.erase _ holds
      · next given =>
        refine like.field holds old ?_
        rw [field_eq] at given ⊢
        cases found : stored[adminField]? with
        | none => simp [found] at given
        | some v => rfl

theorem RecordLike.mergedRecord [Unicode] {segment : GoString} {stored : Object}
    {obj : Option Object} (old : Q stored)
    (new : Q (contents obj)) : Q (contents (mergedRecord segment stored obj)) := by
  unfold Api.mergedRecord
  split
  · exact new
  · exact like.mergeUser old (like.lowerEmail new)

end Records

theorem isSome_mergedRecord [Unicode] {stored : Object} {body : Option Object}
    (whole : route = .users ∨ body.isSome) :
    (mergedRecord route.segment stored (updateFields r body)).isSome := by
  unfold mergedRecord
  split_ifs with client
  · have isSome : body.isSome := whole.resolve_left (by rintro rfl; exact client rfl)
    unfold updateFields deleteField
    split_ifs <;> simpa using isSome
  · rfl

section UpdatesRecord

variable [Unicode] {env : Env} {body obj : Option Object} {given : GoString}
  (updates : UpdatesRecord s route name env r body given obj)
include updates

theorem UpdatesRecord.isSome (whole : route = .users ∨ body.isSome) : obj.isSome := by
  rw [updates.made, updatedRecord, Option.isSome_map]
  exact isSome_mergedRecord whole

theorem UpdatesRecord.derived :
    Derived [decodeStored (s.get route.org route.segment name), contents body] obj := by
  intro Q like sources
  have old := sources _ (List.mem_cons_self ..)
  have fields : Q (contents (updateFields r body)) := by
    have whole := sources (contents body) (by simp)
    unfold updateFields
    split_ifs
    · exact like.deleteField _ (like.deleteField _ whole)
    · exact like.deleteField _ whole
  have merged := @RecordLike.mergedRecord _ like _ route.segment _ _ old fields
  rw [updates.made, updatedRecord]
  cases made : mergedRecord route.segment (decodeStored (s.get route.org route.segment name)) (updateFields r body) with
  | none => exact like.empty
  | some o =>
    rw [made] at merged
    refine like.withoutPassword ?_
    split_ifs
    · exact like.withPrivilege old (like.withKey merged)
    · exact like.withKey merged

theorem UpdatesRecord.publicKey (generated : env.publicKey ≠ []) (isSome : obj.isSome) :
    str (field (contents obj) (lit "public_key")) =
      orElse given (str (field (decodeStored (s.get route.org route.segment name)) (lit "public_key"))) := by
  obtain ⟨o, rfl⟩ := Option.isSome_iff_exists.mp isSome
  obtain ⟨merged, merges, rfl⟩ := Option.map_eq_some_iff.mp updates.made.symm
  have key : (updatedKey env (regenerates r merged) (decodeStored (s.get route.org route.segment name)) merged) =
      orElse given (str (field (decodeStored (s.get route.org route.segment name)) (lit "public_key"))) := by
    rw [updates.rotates, merges, updatedKey, orElse]
    exact ite_not ..
  have kept : ∀ o : Object, (if route.segment = users then withPrivilege r (decodeStored (s.get route.org route.segment name)) o
      else o)[lit "public_key"]? = o[lit "public_key"]? := by
    intro o
    split_ifs
    · exact getElem?_withPrivilege_of_ne (by decide) _ o
    · rfl
  rw [contents, Option.getD_some, field_eq]
  dsimp only
  rw [getElem?_withoutPassword (by decide), kept, getElem?_withKey (by decide) (by decide), key]
  split_ifs with keyed
  · rfl
  · have unset : orElse given (str (field (decodeStored (s.get route.org route.segment name)) (lit "public_key"))) = [] := by
      simpa using keyed
    have none : rotatedKey env r (some merged) = [] := by
      rw [updates.rotates, merges, orElse] at unset
      by_contra new
      rw [if_neg new] at unset
      exact new unset
    rw [unset, ← Std.ExtTreeMap.getD_eq_getD_getElem?]
    change str (field (contents (some merged)) (lit "public_key")) = []
    unfold rotatedKey givenKey at none
    split_ifs at none
    · exact absurd none generated
    · rw [bodyPublicKey, field_deleteField (by decide)] at none
      by_contra given
      rw [if_pos given] at none
      exact given none

end UpdatesRecord

def TouchesAccounts : ApiRequest → Prop
  | .actor .. => True
  | .organization (.create ..) => True
  | .organization (.delete _) => True
  | _ => False

def Fixed (coll : GoString) : Prop :=
  coll ∈ plainColls ∨ (∃ bag, coll = dataBagItemsColl bag) ∨ ∃ policy, coll = policyRevColl policy

theorem footprint_fixed {request : ApiRequest} (apart : ¬ TouchesAccounts request) :
    (∀ coll ∈ (footprint request).puts, Fixed coll) ∧
      ∀ coll ∈ (footprint request).deletes, Fixed coll := by
  cases request with
  | actor route request => exact absurd trivial apart
  | organization request => cases request <;> simp_all [TouchesAccounts, footprint, Fixed, plainColls]
  | acl | respond => simp [footprint, Fixed, plainColls]
  | membership org request => cases request <;> simp [footprint, membershipWrites, Fixed, plainColls]
  | cookbook files org request => cases request <;> simp [footprint, cookbookWrites, Fixed, plainColls]
  | policy org request => cases request <;> simp [footprint, policyWrites, Fixed, plainColls]
  | object org request =>
    have segment (type : ObjectType) : Fixed type.segment := .inl (by cases type <;> decide)
    have items (bag : GoString) : Fixed (dataBagItemsColl bag) := .inr (.inl ⟨bag, rfl⟩)
    have fixed : ∀ coll ∈ [aclsColl, containersColl, dataBagsColl], Fixed coll := fun coll mem =>
      .inl (by revert coll; decide)
    simp only [List.forall_mem_cons] at fixed
    cases request <;> simp [footprint, objectWrites, segment, items, fixed]

theorem noAccount_of_fixed (fixed : Fixed coll) : NoAccount coll := by
  obtain plain | ⟨bag, rfl⟩ | ⟨policy, rfl⟩ := fixed
  · exact noAccount_fixed plain
  · exact noAccount_items bag
  · exact noAccount_revisions policy

theorem leads_bystander [Unicode] {enforceACL : Bool} {request : ApiRequest} (holds : inv s)
    (apart : ¬ TouchesAccounts request) (same : ∀ t, accounts t = accounts s → inv t) :
    Leads exec inv (request.handler enforceACL) s fun _ => inv := by
  have framed : Framed request := by
    by_contra unframed
    obtain ⟨route, r, name, rfl⟩ | ⟨env, r, rfl⟩ | ⟨name, rfl⟩ :=
      unframed_cases unframed <;> exact apart trivial
  obtain ⟨puts, deletes⟩ := footprint_fixed apart
  refine leads_framed framed holds fun space t _ frame =>
    same t (accounts_frame frame ⟨fun coll mem => ?_, fun coll mem => ?_⟩)
  · exact noAccount_of_fixed (puts coll mem)
  · exact noAccount_of_fixed (deletes coll mem)

theorem accounts_deleted (deleted : Deleted s t (principal route name)) :
    accounts t = update (accounts s) (route, name) .gone := by
  obtain ⟨scope, segment, named⟩ := principal_record route name
  have stays {org coll key : GoString} (other : ¬ IsOwn (principal route name) org coll key)
      (apart : coll ∉ [assocColl, assocReqColl, groupMembersColl, groupsColl, aclsColl]) :
      t.get org coll key = s.get org coll key := by
    have swept := deleted.swept org coll key other
    simp only [List.mem_cons, List.not_mem_nil, or_false, not_or] at apart
    obtain ⟨noAssoc, noReq, noRow, noGroup, noACL⟩ := apart
    cases found : t.get org coll key with
    | some raw =>
      obtain ⟨old, before, rfl | ⟨group, -⟩ | ⟨acl, -⟩⟩ := swept.from_stored raw found
      · exact before.symm
      · exact absurd group noGroup
      · exact absurd acl noACL
    | none =>
      by_contra missing
      have kept := swept.kept (by simp [noAssoc, noReq, noRow]) (Option.isSome_iff_ne_none.mpr (Ne.symm missing))
      rw [found] at kept
      cases kept
  have own {coll key : GoString} (here : keysColl route.segment name = coll ∨ route.segment = coll ∧ name = key) :
      t.get route.org coll key = none := by
    refine deleted.own _ _ _ ⟨scope, .inr ?_⟩
    rwa [segment, named]
  have plain (route' : ActorRoute) :
      route'.segment ∉ [assocColl, assocReqColl, groupMembersColl, groupsColl, aclsColl] := by
    cases route' with
    | users => exact (by decide : users ∉ [assocColl, assocReqColl, groupMembersColl, groupsColl, aclsColl])
    | clients org => exact (by decide : clients ∉ [assocColl, assocReqColl, groupMembersColl, groupsColl, aclsColl])
  have colon (coll : GoString) (mem : 0x3A ∈ coll) :
      coll ∉ [assocColl, assocReqColl, groupMembersColl, groupsColl, aclsColl] := by
    intro listed
    have plain : [assocColl, assocReqColl, groupMembersColl, groupsColl, aclsColl].all fun coll => 0x3A ∉ coll := by decide
    exact of_decide_eq_true (List.all_eq_true.mp plain coll listed) mem
  have owns {org coll key : GoString} (isOwn : IsOwn (principal route name) org coll key) :
      route.org = org ∧ (aclsColl = coll ∨ keysColl route.segment name = coll ∨ route.segment = coll ∧ name = key) := by
    unfold IsOwn at isOwn
    rw [scope, segment, named] at isOwn
    exact isOwn.imp_right (Or.imp_left And.left)
  refine accounts_update (own (.inr ⟨rfl, rfl⟩)) (fun key => own (.inl rfl))
    (fun route' name' other => ?_)
    fun route' name' key other => ?_
  · refine stays (fun isOwn => ?_) (plain route')
    obtain ⟨orgs, acl | rows | record⟩ := owns isOwn
    · exact plain route' (by simp [← acl])
    · exact keysColl_ne_segment route route' name rows
    · exact other_record other ⟨orgs, record⟩
  · have apart := colon (keysColl route'.segment name') (colon_mem_keysColl _ _)
    refine stays (fun isOwn => ?_) apart
    obtain ⟨orgs, acl | rows | record⟩ := owns isOwn
    · exact apart (by simp [← acl])
    · exact other_rows other ⟨orgs, rows⟩
    · exact keysColl_ne_segment route' route name' record.1.symm

theorem accounts_createOrg : accounts (s.createOrg name).1 = accounts s := by
  funext who
  simp only [accounts, Proof.Store.get_createOrg]

theorem accounts_deleteOrg (who : ActorRoute × GoString) :
    who.1.org = name ∧ accounts (s.deleteOrg name).1 who = .gone ∨
      accounts (s.deleteOrg name).1 who = accounts s who := by
  simp only [accounts, Proof.Store.get_deleteOrg]
  by_cases gone : s.hasOrg name ∧ name = who.1.org
  · exact .inl ⟨gone.2.symm, by simp only [if_pos gone, Account.gone]⟩
  · exact .inr (by simp only [if_neg gone])

theorem accounts_absent (placed : Placed s) (absent : s.hasOrg name = false)
    (valid : orgNameRE name) (client : GoString) :
    accounts s (.clients name, client) = .gone := by
  have nothing (coll key : GoString) : s.get name coll key = none := by
    by_contra found
    rcases placed.placed (Option.isSome_iff_ne_none.mpr found) with isGlobal | present
    · exact orgName_ne_global valid isGlobal
    · rw [absent] at present
      cases present
  simp only [accounts, ActorRoute.org, nothing, Account.gone]

theorem accounts_register {env : Env} :
    accounts (register env name fullName s) =
      update (accounts s) (.clients name, validatorName name)
      ((accounts s (.clients name, validatorName name)).putRecord (validatorDoc env name)) := by
  have put {t : Store} {org coll key : GoString} {raw : Raw} (fixed : coll ∈ plainColls) :
      accounts (t.put org coll key raw) = accounts t :=
    accounts_frame (frame_put_one t) ⟨by simpa using noAccount_fixed fixed, by simp⟩
  rw [register, put (by decide)]
  refine (@accounts_putRecord _ (.clients name) _ _).trans ?_
  rw [put (by decide)]

theorem becomes_furnishOrg {env : Env} (placed : Placed s) (valid : orgNameRE name)
    (absent : s.hasOrg name = false) (stopped : ∀ t, accounts t = accounts s → inv t)
    (made : ∀ t, Becomes s t (.clients name, validatorName name) (Account.gone.putRecord (validatorDoc env name)) → inv t) :
    Leads exec inv (furnishOrg env name fullName) (s.createOrg name).1 fun _ => inv := by
  have seeded (t : Store) (frame : Frame name seedWrites (s.createOrg name).1 t) :
      accounts t = accounts s := by
    rw [accounts_frame frame unaccounted_seed, accounts_createOrg]
  refine leads_furnishOrg ((leads_within within_seedOrg fun t frame => stopped t (seeded t frame)).mono fun _ t frame => ?_)
  refine made _ ?_
  rw [Becomes, accounts_register, seeded t frame, accounts_absent placed absent valid]

def AllAccounts (P : Account → Prop) (s : Store) : Prop := ∀ who, P (accounts s who)

theorem AllAccounts.becomes {who : ActorRoute × GoString} {a : Account} (all : AllAccounts P s)
    (holds : P a)
    (becomes : Becomes s t who a) : AllAccounts P t := by
  intro other
  rw [becomes]
  by_cases same : other = who
  · rw [same, update_self]
    exact holds
  · rw [update_of_ne same]
    exact all other

theorem AllAccounts.of_eq (all : AllAccounts P s) (same : accounts t = accounts s) :
    AllAccounts P t :=
  fun who => congrFun same who ▸ all who

inductive AccountEffect [Unicode] (s : Store) : ApiRequest → ActorRoute × GoString → Account → Prop
  | created {route env r name obj} (registers : Registers env s route r name obj) :
      AccountEffect s (.actor route (.create env r)) (route, name) ((accounts s (route, name)).putRecord (mustEncode obj))
  | updated {route env r name body given obj a} (decoded : unmarshalMap r.body = some body)
      (updates : UpdatesRecord s route name env r body given obj) (rotates : Rotates (accounts s (route, name)) given a) :
      AccountEffect s (.actor route (.put env r name)) (route, name) (a.putRecord (mustEncode obj))
  | key {route name request actor torn done} (loads : Loads s route name actor)
      (effect : KeyEffect (accounts s (route, name)) actor request torn done) :
      AccountEffect s (.actor route (.key name request)) (route, name) done
  | torn {route name request torn done} (loads : Loads s route name none)
      (effect : KeyEffect (accounts s (route, name)) none request torn done) :
      AccountEffect s (.actor route (.key name request)) (route, name) torn
  | deleted (route : ActorRoute) (r : Request) (name : GoString) : AccountEffect s (.actor route (.delete r name)) (route, name) .gone
  | validator {env r} (valid : orgNameRE (newOrgName r)) (absent : s.hasOrg (newOrgName r) = false) :
      AccountEffect s (.organization (.create env r)) (.clients (newOrgName r), validatorName (newOrgName r))
        (Account.gone.putRecord (validatorDoc env (newOrgName r)))
  | removed {name who} (inside : who.1.org = name) : AccountEffect s (.organization (.delete name)) who .gone

def Changes [Unicode] (s : Store) (request : ApiRequest) (t : Store) : Prop :=
  ∀ who, accounts t who = accounts s who ∨ AccountEffect s request who (accounts t who)

section Changes

variable [Unicode] {request : ApiRequest} {who : ActorRoute × GoString} {a : Account}

theorem changes_of_eq (same : accounts t = accounts s) : Changes s request t :=
  fun who => .inl (congrFun same who)

theorem AccountEffect.changes (effect : AccountEffect s request who a)
    (becomes : Becomes s t who a) : Changes s request t := by
  intro other
  rw [becomes]
  by_cases same : other = who
  · subst same
    rw [update_self]
    exact .inr effect
  · exact .inl (update_of_ne same ..)

theorem changes_request {enforceACL : Bool} (placed : Placed s)
    (shaped : ∀ who, DefaultShaped (accounts s who))
    (request : ApiRequest) :
    Leads exec (Changes s request) (request.handler enforceACL) s fun _ => Changes s request := by
  have same : Changes s request s := changes_of_eq rfl
  by_cases touches : TouchesAccounts request
  swap
  · exact leads_bystander same touches fun _ => changes_of_eq
  cases request with
  | actor route request =>
    cases request with
    | create env r =>
      refine (leads_scope same).past fun _ _ => ?_
      refine leads_createActor same (fun t frame => changes_of_eq (accounts_frame frame unaccounted_password))
        fun name obj t registers frame => leads_iff.mpr ?_
      refine (AccountEffect.created registers).changes ?_
      rw [Becomes, accounts_frame (frame_run within_settleActor _) unaccounted_settling,
        accounts_putRecord, accounts_frame frame unaccounted_password]
    | put env r name =>
      exact leads_putActor same (shaped _) fun _ _ _ _ _ decoded updates rotates becomes =>
        (AccountEffect.updated decoded updates rotates).changes becomes
    | key name request =>
      refine leads_key same fun actor torn done loads effect =>
        ⟨?_, fun t => (AccountEffect.key loads effect).changes⟩
      rintro rfl t
      exact (AccountEffect.torn loads effect).changes
    | delete r name =>
      exact leads_deleteActor placed.noGlobal same fun _ _ deleted =>
        (AccountEffect.deleted route r name).changes (accounts_deleted deleted)
  | organization request =>
    cases request with
    | create env r =>
      refine leads_createOrganization same fun fullName valid absent => ?_
      exact becomes_furnishOrg placed valid absent (fun _ => changes_of_eq) fun _ =>
        (AccountEffect.validator valid absent).changes
    | delete name =>
      refine leads_deleteOrganization
        (fun frame => changes_of_eq (accounts_frame frame unaccounted_orgs)) fun {t} frame who => ?_
      have before := congrFun (accounts_frame frame unaccounted_orgs) who
      obtain ⟨inside, gone⟩ | kept := @accounts_deleteOrg t name who
      · rw [gone]
        exact .inr (.removed inside)
      · exact .inl (kept.trans before)
    | put => exact absurd touches id
  | _ => exact absurd touches id

theorem AllAccounts.served {enforceACL : Bool} (all : AllAccounts P s) (placed : Placed s)
    (shaped : ∀ who, DefaultShaped (accounts s who))
    (kept : ∀ who a, AccountEffect s request who a → P a) :
    Leads exec (AllAccounts P) (request.handler enforceACL) s fun _ => AllAccounts P := by
  refine leads_iff.mpr fun who => ?_
  rcases leads_iff.mp (changes_request placed shaped request) who with same | effect
  · rw [same]
    exact all who
  · exact kept who _ effect

end Changes

end CincServer.Proof.Api
