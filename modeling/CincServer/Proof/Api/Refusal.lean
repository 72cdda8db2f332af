import CincServer.Proof.Api.ActorDeletion

/-!
# What a refused creation leaves behind
-/

namespace CincServer.Proof.Api
open CincServer.Api CincServer.Json Go Lib Program

variable {env : Env} {enforceACL : Bool} {r : Request} {route : ActorRoute} {s t : Store}
  {coll message name : GoString} {status : Nat} {password : Value} {generate : Bool} {record : Object}
  {m : MemberLists}

theorem insert_eq_self {W : Type} {m : GoMap W} {key : GoString} {val : W}
    (found : m[key]? = some val) :
    m.insert key val = m := by
  refine Std.ExtTreeMap.ext_getElem? fun other => ?_
  rw [Std.ExtTreeMap.getElem?_insert]
  split_ifs with here
  · rw [← Std.compare_eq_iff_eq.mp here, found]
  · rfl

theorem insert_getD_eq_self {W : Type} {m : GoMap W} {key : GoString} {zero : W}
    (present : m.getD key zero ≠ zero) : m.insert key (m.getD key zero) = m := by
  cases found : m[key]? with
  | none => exact absurd (by rw [Std.ExtTreeMap.getD_eq_getD_getElem?, found]; rfl) present
  | some val =>
    rw [Std.ExtTreeMap.getD_eq_getD_getElem?, found]
    exact insert_eq_self found

theorem put_eq_self_iff {org key : GoString} {val : Raw} :
    s.put org coll key val = s ↔ s.get org coll key = some val := by
  constructor
  · intro same
    rw [← same, get_put, if_pos ⟨rfl, rfl, rfl⟩]
  · intro found
    have objects : (s.objects org coll).insert key val = s.objects org coll := insert_eq_self found
    have nonempty : s.objects org coll ≠ ∅ := by
      intro empty
      simp [Store.MemoryBackend.get, empty] at found
    have colls : (s.data.getD org ∅).insert coll (s.objects org coll) = s.data.getD org ∅ :=
      insert_getD_eq_self nonempty
    have stored : s.data.getD org ∅ ≠ ∅ := by
      intro empty
      simp [Store.MemoryBackend.objects, empty] at nonempty
    rw [Store.MemoryBackend.put, Store.MemoryBackend.set, objects, colls,
      insert_getD_eq_self stored]

def actorName (obj : Object) : GoString := firstString obj [lit "name", lit "username"]

def lowered [Unicode] (segment : GoString) (obj : Object) : Object :=
  if segment = users then lowerEmail obj else obj

def bodyRefusal [Unicode] (env : Env) (r : Request) (segment : GoString) (obj : Object) :
    Option GoString :=
  let pub := bodyPublicKey (lowered segment obj)
  (if actorName obj = [] then some (lit "Field 'name' missing") else none) <|>
  (if segment = users then validateUser obj ∅ true
    else if segment = clients && !matchString clientNameRE (actorName obj) then
      some (invalidClientNameMessage (actorName obj))
    else none) <|>
  (if pub ≠ [] ∧ !validPublicKey env pub then some invalidPublicKeyMessage else none) <|>
  (if r.apiVersion ≥ 1 then
    createKeyFieldsError (lowered segment obj) (isTrue (field (lowered segment obj) (lit "create_key")))
  else none)

theorem refuseIf_bind {α : Type} {condition : Prop} [Decidable condition] (f : Unit → Handler α) :
    refuseIf condition status message >>= f = refuseWith status (if condition then some message else none) >>= f := by
  unfold refuseIf
  split <;> rfl

theorem validateActor_bind [Unicode] {α : Type} (segment : GoString) (obj : Object)
    (f : Option Object → Handler α) :
    validateActor segment (actorName obj) (some obj) >>= f =
      refuseWith 400 (if segment = users then validateUser obj ∅ true
        else if segment = clients && !matchString clientNameRE (actorName obj) then
          some (invalidClientNameMessage (actorName obj))
        else none) >>= fun _ => f (some (lowered segment obj)) := by
  unfold validateActor lowered
  split_ifs with user malformed
  · simp only [contents, Option.getD_some]
    cases validateUser obj ∅ true <;> rfl
  · rfl
  · rfl

theorem refuseWith_bind_refuseWith {α : Type} (first second : Option GoString)
    (f : Unit → Handler α) :
    (refuseWith status first >>= fun _ => refuseWith status second >>= f) =
      refuseWith status (first <|> second) >>= f := by
  cases first <;> rfl

theorem createBody_eq [Unicode] (env : Env) (r : Request) (segment : GoString) {obj : Object}
    (decoded : unmarshalMap r.body = some (some obj)) :
    createBody env r segment = (do
      refuseWith 400 (bodyRefusal env r segment obj)
      return (actorName obj, isTrue (field (lowered segment obj) (lit "create_key")),
        some ((lowered segment obj).erase (lit "create_key")))) := by
  have body : decodeBody r = pure (some obj) := by simp only [decodeBody, decoded]
  have start (f : Option Object → Handler (GoString × Bool × Option Object)) :
      (pure (some obj) >>= f : Handler _) = f (some obj) := rfl
  rw [createBody, body, start]
  change (refuseIf (actorName obj = []) 400 _ >>= fun _ =>
    validateActor segment (actorName obj) (some obj) >>= _) = _
  rw [refuseIf_bind, validateActor_bind]
  change (refuseWith 400 _ >>= fun _ => refuseWith 400 _ >>= fun _ => refuseIf _ 400 _ >>= fun _ =>
    refuseWith 400 _ >>= _) = _
  rw [refuseIf_bind]
  simp only [refuseWith_bind_refuseWith, bodyRefusal]
  rfl

def Resolves (s : Store) : ActorRoute → Prop
  | .users => True
  | .clients org => s.hasOrg org

def NameFree (s : Store) (name : GoString) : ActorRoute → Prop
  | .users => ∀ org ∈ s.listOrgs, s.hasOrg org → s.get org clients name = none
  | .clients _ => s.get global users name = none

theorem clientOrg_run (s : Store) (name : GoString) (orgs : List GoString) :
    ∃ found, (clientOrg name orgs).run exec s = (.ok found, s) ∧
      (found = none ↔ ∀ org ∈ orgs, s.hasOrg org → s.get org clients name = none) := by
  induction orgs with
  | nil => exact ⟨none, rfl, by simp⟩
  | cons org orgs ih =>
    obtain ⟨found, ran, none_iff⟩ := ih
    by_cases here : s.hasOrg org ∧ (s.get org clients name).isSome
    · refine ⟨some org, ?_, ?_⟩
      · rw [clientOrg, run_lookupOrg_bind, here.1]
        simp only [if_true, run_get_bind, here.2, run_pure]
      · obtain ⟨raw, stored⟩ := Option.isSome_iff_exists.mp here.2
        simp [here.1, stored]
    · refine ⟨found, ?_, ?_⟩
      · rw [clientOrg, run_lookupOrg_bind]
        cases present : s.hasOrg org with
        | false => exact ran
        | true =>
          have absent : ¬ (s.get org clients name).isSome := fun some => here ⟨present, some⟩
          simp only [if_true, run_get_bind, absent]
          exact ran
      · rw [none_iff, List.forall_mem_cons]
        have first : s.hasOrg org → s.get org clients name = none := by simpa using here
        exact ⟨fun rest => ⟨first, rest⟩, And.right⟩

theorem run_actorNameCollision_users (s : Store) (name : GoString) :
    (actorNameCollision users name).run exec s =
    (clientOrg name s.listOrgs >>= fun found => match found with
      | some org => pure (some (lit "A client named " ++ name ++ lit " already exists in organization " ++
          org ++ lit "; a user cannot share its name"))
      | none => pure none).run exec s := rfl

theorem actorNameCollision_run (s : Store) (name : GoString) (route : ActorRoute) :
    ∃ found, (actorNameCollision route.segment name).run exec s = (.ok found, s) ∧
      (found = none ↔ NameFree s name route) := by
  cases route with
  | users =>
    obtain ⟨found, ran, none_iff⟩ := clientOrg_run s name s.listOrgs
    have scan := run_actorNameCollision_users s name
    cases found with
    | none => exact ⟨none, scan.trans (run_bind_of_ok ran _), by simpa [NameFree] using none_iff⟩
    | some org => exact ⟨some _, scan.trans (run_bind_of_ok ran _), by simpa [NameFree] using none_iff⟩
  | clients org =>
    cases stored : s.get global users name with
    | none =>
      refine ⟨none, ?_, by simp [NameFree, stored]⟩
      simp [actorNameCollision, ActorRoute.segment, stored]
    | some raw =>
      refine ⟨some (lit "A user named " ++ name ++ lit " already exists; a client cannot share its name"),
        ?_, by simp [NameFree, stored]⟩
      simp [actorNameCollision, ActorRoute.segment, stored]

def withRecordKey (env : Env) (generate : Bool) (obj : Object) : Object :=
  if bodyPublicKey obj ≠ [] then obj.insert (lit "public_key") (.string (bodyPublicKey obj))
  else if generate then obj.insert (lit "public_key") (.string env.publicKey)
  else obj

theorem recordKey_eq (generate : Bool) (obj : Object) :
    recordKey env generate (some obj) = pure (some (withRecordKey env generate obj)) := by
  by_cases given : bodyPublicKey obj = []
  · cases generate <;> simp [recordKey, withRecordKey, contents, given, assign]
  · simp [recordKey, withRecordKey, contents, given, assign]

def stashed (env : Env) (org name : GoString) (password : Value) (s : Store) : Store :=
  match password with
  | .string pw => s.put org passwordsCollection name (.malformed (env.hashPassword pw))
  | _ => s

theorem stashPassword_run (env : Env) (org name : GoString) (obj : Object) (s : Store) :
    ∃ out, (stashPassword env org name (some obj)).run exec s =
      (.ok out, stashed env org name (field obj (lit "password")) s) := by
  unfold stashPassword
  simp only [contents, Option.getD_some]
  cases field obj (lit "password") <;> exact ⟨_, rfl⟩

theorem stashed_get {org key : GoString} (other : passwordsCollection ≠ coll) :
    (stashed env org name password s).get org coll key = s.get org coll key := by
  cases password with
  | string pw => rw [stashed, get_put, if_neg (by simp [other])]
  | _ => rfl

theorem stashed_eq_self_iff {org : GoString} :
    stashed env org name password s = s ↔ ∀ pw, password = .string pw →
      s.get org passwordsCollection name = some (.malformed (env.hashPassword pw)) := by
  cases password with
  | string pw => simp [stashed, put_eq_self_iff]
  | _ => simp [stashed]

theorem password_of_record [Unicode] (env : Env) (segment : GoString) (generate : Bool)
    (obj : Object) :
    field ((((withRecordKey env generate ((lowered segment obj).erase (lit "create_key"))).erase
      (lit "chef_key")).erase (lit "private_key"))) (lit "password") = field obj (lit "password") := by
  have email : field (lowered segment obj) (lit "password") = field obj (lit "password") := by
    unfold lowered lowerEmail
    split_ifs
    · split
      · simp +decide [field, Std.ExtTreeMap.getD_insert]
      · rfl
    · rfl
  unfold withRecordKey
  split_ifs <;> simpa +decide [field, Std.ExtTreeMap.getD_insert, Std.ExtTreeMap.getD_erase] using email

theorem passwords_ne_segment (route : ActorRoute) : passwordsCollection ≠ route.segment := by
  cases route with
  | users => exact (by decide : passwordsCollection ≠ users)
  | clients org => exact (by decide : passwordsCollection ≠ clients)

def storeRecord (env : Env) (enforceACL : Bool) (r : Request) (route : ActorRoute) (name : GoString)
    (generate : Bool) (record : Object) : Handler Response := do
  let out ← stashPassword env route.org name (some record)
  let created ← Org.create route.org route.segment name (mustEncode out)
  refuseIf (!created) 409 (lit "Object already exists")
  grantCreator enforceACL r route.org route.segment name
  joinClients enforceACL route.org route.segment name out
  return .json 201 (createdBody env r route.org route.segment name generate)

theorem storeRecord_conflict (taken : (s.get route.org route.segment name).isSome) :
    (storeRecord env enforceACL r route name generate record).run exec s =
      (.error (.error 409 [lit "Object already exists"]),
        stashed env route.org name (field record (lit "password")) s) := by
  obtain ⟨out, stash⟩ := stashPassword_run env route.org name record s
  rw [storeRecord, run_bind_of_ok stash, run_create_bind,
    create_of_isSome (by rwa [stashed_get (passwords_ne_segment route)])]
  rfl

theorem storeRecord_created (free : s.get route.org route.segment name = none) :
    ∃ t, (storeRecord env enforceACL r route name generate record).run exec s =
      (.ok (.json 201 (createdBody env r route.org route.segment name generate)), t) := by
  obtain ⟨out, stash⟩ := stashPassword_run env route.org name record s
  rw [storeRecord, run_bind_of_ok stash, run_create_bind,
    create_of_none (by rwa [stashed_get (passwords_ne_segment route)])]
  obtain ⟨s₁, granted⟩ : ∃ t, (grantCreator enforceACL r route.org route.segment name).run exec
      ((stashed env route.org name (field record (lit "password")) s).put route.org route.segment name
        (mustEncode out)) = (.ok (), t) := by
    unfold grantCreator
    cases r.actor with
    | none => exact ⟨_, rfl⟩
    | some actor => cases enforceACL <;> exact ⟨_, rfl⟩
  obtain ⟨t, joined⟩ : ∃ t, (joinClients enforceACL route.org route.segment name out).run exec s₁ =
      (.ok (), t) := by
    unfold joinClients
    split <;> exact ⟨_, rfl⟩
  refine ⟨t, ?_⟩
  change (grantCreator enforceACL r route.org route.segment name >>= _).run exec _ = _
  rw [run_bind_of_ok granted, run_bind_of_ok joined, run_pure]

section Creation

variable [Unicode] {obj : Object}

theorem createActor_body (decoded : unmarshalMap r.body = some (some obj))
    (refused : bodyRefusal env r route.segment obj = some message) :
    (createActor env enforceACL r route.org route.segment).run exec s = (.error (.error 400 [message]), s) := by
  rw [createActor, createBody_eq env r route.segment decoded, refused]
  rfl

theorem createActor_undecoded (undecoded : ∀ obj, unmarshalMap r.body ≠ some (some obj)) :
    ∃ message, (createActor env enforceACL r route.org route.segment).run exec s =
      (.error (.error 400 [message]), s) := by
  rw [createActor, createBody, decodeBody]
  rcases decoded : unmarshalMap r.body with _ | _ | obj
  · exact ⟨lit "invalid JSON body", rfl⟩
  · exact ⟨lit "Field 'name' missing", rfl⟩
  · exact absurd decoded (undecoded obj)

theorem createActor_checked (decoded : unmarshalMap r.body = some (some obj))
    (valid : bodyRefusal env r route.segment obj = none) :
    ∃ generate record, field record (lit "password") = field obj (lit "password") ∧
      createActor env enforceACL r route.org route.segment = (do
        refuseWith 409 (← actorNameCollision route.segment (actorName obj))
        storeRecord env enforceACL r route (actorName obj) generate record) := by
  let body := (lowered route.segment obj).erase (lit "create_key")
  let generate := generatesKey r (isTrue (field (lowered route.segment obj) (lit "create_key"))) body
  refine ⟨generate, _, password_of_record env route.segment generate obj, ?_⟩
  rw [createActor, createBody_eq env r route.segment decoded, valid]
  change (actorNameCollision route.segment
    (actorName obj) >>= fun found => refuseWith 409 found >>= fun _ =>
    recordKey env _ (some _) >>= _) = _
  simp only [recordKey_eq]
  rfl

theorem postActor_resolved (resolves : Resolves s route) :
    (postActor env enforceACL r route).run exec s =
      (createActor env enforceACL r route.org route.segment).run exec s := by
  cases route with
  | users => rfl
  | clients org =>
    rw [postActor, ActorRoute.scope, run_resolveOrg_bind resolves]

theorem postActor_unresolved (unresolved : ¬ Resolves s route) :
    ∃ message, (postActor env enforceACL r route).run exec s =
      (.error (.error 404 [message]), s) := by
  cases route with
  | users => exact absurd trivial unresolved
  | clients org =>
    have absent : s.hasOrg org = false := Bool.eq_false_iff.mpr unresolved
    exact ⟨_, run_resolveOrg_absent absent _⟩

/-- The request passes every check but that the name is taken, and the hash this request's salt gives its
password is not the very one that is stored. -/
def OverwritesPassword (env : Env) (r : Request) (route : ActorRoute) (s : Store) : Prop :=
  ∃ obj pw, Resolves s route ∧ unmarshalMap r.body = some (some obj) ∧
    bodyRefusal env r route.segment obj = none ∧ NameFree s (actorName obj) route ∧
    (s.get route.org route.segment (actorName obj)).isSome ∧ field obj (lit "password") = .string pw ∧
    s.get route.org passwordsCollection (actorName obj) ≠ some (.malformed (env.hashPassword pw))

theorem OverwritesPassword.body (overwrites : OverwritesPassword env r route s)
    (decoded : unmarshalMap r.body = some (some obj)) :
    bodyRefusal env r route.segment obj = none ∧ NameFree s (actorName obj) route ∧
      (s.get route.org route.segment (actorName obj)).isSome ∧
      stashed env route.org (actorName obj) (field obj (lit "password")) s ≠ s := by
  obtain ⟨obj', pw, -, decoded', valid, free, taken, password, differs⟩ := overwrites
  obtain rfl : obj' = obj := Option.some.inj (Option.some.inj (decoded'.symm.trans decoded))
  refine ⟨valid, free, taken, fun same => differs ?_⟩
  exact stashed_eq_self_iff.mp same pw password

/-- A creation that is answered 4xx leaves the store as it was, unless it repeats an existing actor
with a password whose hash is not the very one that is stored. -/
theorem refused_actor_changes_nothing_iff (env : Env) (enforceACL : Bool) (r : Request)
    (route : ActorRoute)
    (s : Store) :
    ((answer ((postActor env enforceACL r route).run exec s).1).clientError →
      ((postActor env enforceACL r route).run exec s).2 = s) ↔ ¬ OverwritesPassword env r route s := by
  by_cases resolves : Resolves s route
  case neg =>
    obtain ⟨message, ran⟩ := postActor_unresolved resolves
    rw [ran]
    exact iff_of_true (fun _ => rfl) fun ⟨_, _, present, _⟩ => resolves present
  rw [postActor_resolved resolves]
  by_cases decodes : ∃ obj, unmarshalMap r.body = some (some obj)
  case neg =>
    obtain ⟨message, ran⟩ := createActor_undecoded (not_exists.mp decodes)
    rw [ran]
    exact iff_of_true (fun _ => rfl) fun ⟨obj, _, _, decoded, _⟩ => decodes ⟨obj, decoded⟩
  obtain ⟨obj, decoded⟩ := decodes
  cases valid : bodyRefusal env r route.segment obj with
  | some message =>
    rw [createActor_body decoded valid]
    refine iff_of_true (fun _ => rfl) fun overwrites => ?_
    exact absurd (overwrites.body decoded).1 (by simp [valid])
  | none =>
    obtain ⟨generate, record, password, stages⟩ := createActor_checked decoded valid
    obtain ⟨found, ran, none_iff⟩ := actorNameCollision_run s (actorName obj) route
    rw [stages, run_bind_of_ok ran]
    cases found with
    | some message =>
      refine iff_of_true (fun _ => rfl) fun overwrites => ?_
      exact absurd (none_iff.mpr (overwrites.body decoded).2.1) (by simp)
    | none =>
      have free : NameFree s (actorName obj) route := none_iff.mp rfl
      have stored : (refuseWith 409 none >>= fun _ =>
          storeRecord env enforceACL r route (actorName obj) generate record).run exec s =
        (storeRecord env enforceACL r route (actorName obj) generate record).run exec s := rfl
      rw [stored]
      cases taken : s.get route.org route.segment (actorName obj) with
      | none =>
        obtain ⟨t, created⟩ := storeRecord_created taken
        rw [created]
        refine iff_of_true nofun fun overwrites => ?_
        exact absurd (overwrites.body decoded).2.2.1 (by simp [taken])
      | some raw =>
        have isSome : (s.get route.org route.segment (actorName obj)).isSome := by rw [taken]; rfl
        rw [storeRecord_conflict isSome, password]
        constructor
        · intro unchanged overwrites
          exact (overwrites.body decoded).2.2.2 (unchanged rfl)
        · intro keeps _
          refine stashed_eq_self_iff.mpr fun pw string => by_contra fun differs => ?_
          exact keeps ⟨obj, pw, resolves, decoded, valid, free, isSome, string, differs⟩

end Creation

theorem refused_user_changes_password : letI : Unicode := ⟨id⟩
    let again := (postActor plainEnv true (creates (localUser.dropLast ++
      [(lit "password", .string (lit "another"))])) .users).run exec (joined localUser)
    (answer again.1).clientError ∧ again.2 ≠ joined localUser := by
  let _ : Unicode := ⟨id⟩
  refine ⟨by decide +kernel, fun same => ?_⟩
  have before : storedHash ((joined localUser).get global passwordsCollection leaver) =
      some (lit "secret") := by
    decide +kernel
  rw [← same] at before
  revert before
  decide +kernel

section Groups

variable {org group member key : GoString} {kind : MemberKind}

def Effective (s : Store) (org group : GoString) (kind : MemberKind) (member : GoString) : Prop :=
  ∃ m t, (groupMembership org group).run exec s = (.ok m, t) ∧ member ∈ m.get kind

theorem mem_foldMemberRow : member ∈ (foldMemberRow group m key).get kind ↔ member ∈ m.get kind ∨
      (group ++ [0]) <+: key ∧ ∃ first, splitMemberKey key = some (first, kind.name, member) := by
  unfold foldMemberRow
  by_cases ours : (group ++ [0]) <+: key
  case neg =>
    rw [if_pos (by simpa [← Bool.not_eq_true, List.isPrefixOf_iff_prefix] using ours)]
    simp [ours]
  rw [if_neg (by simpa [List.isPrefixOf_iff_prefix] using ours)]
  rcases splitMemberKey key with _ | ⟨first, kindName, actor⟩
  · simp
  cases named : MemberKind.ofName kindName with
  | none =>
    have : kindName ≠ kind.name := fun same => by simp [ofName_eq_some.mpr same] at named
    simp [named, this]
  | some kind' =>
    obtain rfl := ofName_eq_some.mp named
    have kinds : kind'.name = kind.name ↔ kind' = kind := by
      rw [← ofName_eq_some, named, Option.some.injEq]
    simp only [named, ours, true_and, Option.some.injEq, Prod.mk.injEq, exists_eq_left', kinds]
    by_cases present : actor ∈ m.get kind'
    · rw [if_pos present]
      constructor
      · exact .inl
      · rintro (here | ⟨rfl, rfl⟩)
        · exact here
        · exact present
    · rw [if_neg present]
      by_cases same : kind' = kind
      · subst same
        simp [get_set_self, eq_comm]
      · simp [get_set_of_ne m _ same, same]

theorem mem_foldl_foldMemberRow {rows : List (GoString × Raw)} :
    member ∈ (rows.foldl (fun m row => foldMemberRow group m row.1) m).get kind ↔
      member ∈ m.get kind ∨ ∃ row ∈ rows, (group ++ [0]) <+: row.1 ∧
        ∃ first, splitMemberKey row.1 = some (first, kind.name, member) := by
  induction rows generalizing m with
  | nil => simp
  | cons row rows ih =>
    rw [List.foldl_cons, ih, mem_foldMemberRow]
    simp only [List.mem_cons, exists_eq_or_imp]
    tauto

theorem getD_removerMembers (stored : Option Raw) : (stored.map removerMembers).getD .none =
    match stored.bind unmarshalMap with
    | some g => groupMembers (contents g)
    | none => .none := by
  cases stored <;> rfl

theorem run_groupMembership (s : Store) (org group : GoString) :
    (groupMembership org group).run exec s = (.ok ((s.range org groupMembersColl).foldl
      (fun m row => foldMemberRow group m row.1)
      (((s.get org groupsColl group).map removerMembers).getD .none)), s) := by
  rw [getD_removerMembers]
  rfl

theorem effective_iff : Effective s org group kind member ↔
    (∃ raw, s.get org groupsColl group = some raw ∧ member ∈ (removerMembers raw).get kind) ∨
      ∃ key first, RowAt s org key first kind member ∧ (group ++ [0]) <+: key := by
  have counted : Effective s org group kind member ↔ member ∈ ((s.range org groupMembersColl).foldl
      (fun m row => foldMemberRow group m row.1)
      (((s.get org groupsColl group).map removerMembers).getD .none)).get kind := by
    simp [Effective, run_groupMembership]
  rw [counted, mem_foldl_foldMemberRow]
  refine or_congr ?_ ?_
  · cases s.get org groupsColl group with
    | none => cases kind <;> simp [MemberLists.none, MemberLists.get]
    | some raw => simp
  · constructor
    · rintro ⟨row, stored, ours, first, split⟩
      exact ⟨row.1, first, ⟨by rw [mem_range.mp stored]; rfl, split⟩, ours⟩
    · rintro ⟨key, first, ⟨stored, split⟩, ours⟩
      obtain ⟨raw, found⟩ := Option.isSome_iff_exists.mp stored
      exact ⟨(key, raw), mem_range.mpr found, ours, first, split⟩

theorem splitMemberKey_unique {first first' key' : GoString}
    (split : splitMemberKey key = some (first, kind.name, member)) (ours : (group ++ [0]) <+: key)
    (split' : splitMemberKey key' = some (first', kind.name, member))
    (ours' : (group ++ [0]) <+: key') :
    key' = key := by
  obtain ⟨rfl, noFirst, noKind, noMember⟩ := splitMemberKey_eq_some.mp split
  obtain ⟨rfl, noFirst', -, -⟩ := splitMemberKey_eq_some.mp split'
  have head {first : GoString} (no : 0 ∉ first) (ours : (group ++ [0]) <+: memberKey first kind.name member) :
      (group.splitOn 0).head? = some first := by
    obtain ⟨rest, whole⟩ := ours
    have parts := congrArg (List.splitOn 0) whole
    rw [splitOn_memberKey no noKind noMember, List.append_assoc, List.singleton_append,
      List.splitOn_append_cons_self] at parts
    obtain ⟨part, more, groupParts⟩ :=
      List.exists_cons_of_ne_nil (List.splitOn_ne_nil (0 : UInt8) group)
    rw [groupParts] at parts ⊢
    simp only [List.cons_append, List.cons.injEq] at parts
    rw [List.head?_cons, parts.1]
  have same := (head noFirst ours).symm.trans (head noFirst' ours')
  rw [Option.some.inj same]

def SameMemberships (s t : Store) : Prop :=
  ∀ org group kind member, (Listed t org group kind member ↔ Listed s org group kind member) ∧
    ((s.get org groupsColl group).isSome → (Effective t org group kind member ↔ Effective s org group kind member))

def LosesMember (s : Store) (org name : GoString) : Prop :=
  ∃ key first kind member, RowAt s org key first kind member ∧ (name ++ [0]) <+: key ∧
    ((¬ ∃ raw, s.get org groupsColl first = some raw ∧ member ∈ (indexMembers raw).get kind) ∨
      ∃ group raw, (group ++ [0]) <+: key ∧ s.get org groupsColl group = some raw ∧
        member ∉ (removerMembers raw).get kind)

theorem sameMemberships_iff (cleared : ∀ org' coll key, t.get org' coll key =
      if org = org' ∧ groupMembersColl = coll ∧ (name ++ [0]) <+: key then none else s.get org' coll key) :
    SameMemberships s t ↔ ¬ LosesMember s org name := by
  have docs (org' group : GoString) :
      t.get org' groupsColl group = s.get org' groupsColl group := by
    rw [cleared, if_neg (by simp +decide)]
  have rows {org' key first : GoString} {kind : MemberKind} {member : GoString} : RowAt t org' key first kind member ↔
        RowAt s org' key first kind member ∧ ¬ (org = org' ∧ (name ++ [0]) <+: key) := by
    unfold RowAt
    rw [cleared]
    by_cases gone : org = org' ∧ (name ++ [0]) <+: key
    · simp [gone]
    · simp [gone]
  constructor
  · rintro same ⟨key, first, kind, member, row, removed, unlisted | ⟨group, raw, ours, found, unlisted⟩⟩
    · have listed := (same org first kind member).1.mpr (listed_iff_rowAt.mpr (.inr ⟨key, row⟩))
      rcases listed_iff_rowAt.mp listed with ⟨raw, found, lists⟩ | ⟨key', row'⟩
      · exact unlisted ⟨raw, docs org first ▸ found, lists⟩
      · obtain ⟨row', kept⟩ := rows.mp row'
        have same : key' = key :=
          (splitMemberKey_eq_some.mp row'.2).1.trans (splitMemberKey_eq_some.mp row.2).1.symm
        exact kept ⟨rfl, same ▸ removed⟩
    · have counted := ((same org group kind member).2 (by rw [found]; rfl)).mpr
        (effective_iff.mpr (.inr ⟨key, first, row, ours⟩))
      rcases effective_iff.mp counted with ⟨raw', found', lists⟩ | ⟨key', first', row', ours'⟩
      · rw [docs, found] at found'
        exact unlisted (Option.some.inj found' ▸ lists)
      · obtain ⟨row', kept⟩ := rows.mp row'
        exact kept ⟨rfl, splitMemberKey_unique row.2 ours row'.2 ours' ▸ removed⟩
  · intro keeps org' group kind member
    refine ⟨?_, fun present => ?_⟩
    · rw [listed_iff_rowAt, listed_iff_rowAt, docs]
      refine ⟨Or.imp_right fun ⟨key, row⟩ => ⟨key, (rows.mp row).1⟩, ?_⟩
      rintro (lists | ⟨key, row⟩)
      · exact .inl lists
      by_cases removed : org = org' ∧ (name ++ [0]) <+: key
      · obtain ⟨rfl, removed⟩ := removed
        exact .inl (by_contra fun unlisted => keeps ⟨key, group, kind, member, row, removed, .inl unlisted⟩)
      · exact .inr ⟨key, rows.mpr ⟨row, removed⟩⟩
    · rw [effective_iff, effective_iff, docs]
      refine ⟨Or.imp_right fun ⟨key, first, row, ours⟩ => ⟨key, first, (rows.mp row).1, ours⟩, ?_⟩
      rintro (lists | ⟨key, first, row, ours⟩)
      · exact .inl lists
      by_cases removed : org = org' ∧ (name ++ [0]) <+: key
      · obtain ⟨rfl, removed⟩ := removed
        obtain ⟨raw, found⟩ := Option.isSome_iff_exists.mp present
        refine .inl ⟨raw, found, by_contra fun unlisted => ?_⟩
        exact keeps ⟨key, first, kind, member, row, removed, .inr ⟨group, raw, ours, found, unlisted⟩⟩
      · exact .inr ⟨key, first, rows.mpr ⟨row, removed⟩, ours⟩

/-- The request passes every check but that the group exists, and clearing the group's rows loses a
member. -/
def LosesMembers (r : Request) (org : GoString) (s : Store) : Prop :=
  ∃ obj, s.hasOrg org ∧ unmarshalMap r.body = some obj ∧ groupName (contents obj) ≠ [] ∧
    matchString groupNameRE (groupName (contents obj)) ∧
    (s.get org groupsColl (groupName (contents obj))).isSome ∧ LosesMember s org (groupName (contents obj))

/-- A creation that is answered 4xx leaves every group the members it had, unless it repeats an
existing group with members that only rows record. -/
theorem refused_group_keeps_members_iff (r : Request) (org : GoString) (s : Store) :
    ((answer ((createGroup r org).run exec s).1).clientError →
      SameMemberships s ((createGroup r org).run exec s).2) ↔ ¬ LosesMembers r org s := by
  have same : SameMemberships s s := fun _ _ _ _ => ⟨Iff.rfl, fun _ => Iff.rfl⟩
  cases present : s.hasOrg org with
  | false =>
    rw [createGroup, run_resolveOrg_absent present]
    refine iff_of_true (fun _ => same) fun ⟨_, present', _⟩ => ?_
    exact absurd present' (by simp [present])
  | true =>
    rw [createGroup, run_resolveOrg_bind present, decodeBody]
    cases decoded : unmarshalMap r.body with
    | none =>
      refine iff_of_true (fun _ => same) fun ⟨_, _, decoded', _⟩ => ?_
      exact absurd decoded' (by simp [decoded])
    | some obj =>
      rw [run_pure_bind]
      have only (loses : LosesMembers r org s) : groupName (contents obj) ≠ [] ∧
          matchString groupNameRE (groupName (contents obj)) ∧
          (s.get org groupsColl (groupName (contents obj))).isSome ∧ LosesMember s org (groupName (contents obj)) := by
        obtain ⟨obj', -, decoded', rest⟩ := loses
        obtain rfl : obj' = obj := Option.some.inj (decoded'.symm.trans decoded)
        exact rest
      by_cases unnamed : groupName (contents obj) = []
      · simp only [refuseIf, unnamed, if_true]
        exact iff_of_true (fun _ => same) fun loses => (only loses).1 unnamed
      by_cases malformed : matchString groupNameRE (groupName (contents obj)) = false
      · simp only [refuseIf, unnamed, malformed, if_false]
        exact iff_of_true (fun _ => same) fun loses => absurd (only loses).2.1 (by simp [malformed])
      have wellFormed : matchString groupNameRE (groupName (contents obj)) = true := by simpa using malformed
      obtain ⟨t, cleared, gets⟩ := clearMembers_get org (groupName (contents obj)) s
      have doc : t.get org groupsColl (groupName (contents obj)) = s.get org groupsColl (groupName (contents obj)) := by
        rw [gets, if_neg (by simp +decide)]
      simp only [refuseIf, unnamed, wellFormed, if_false, Bool.not_true, Bool.false_eq_true,
        run_pure_bind]
      rw [run_bind_of_ok cleared, run_create_bind]
      cases taken : s.get org groupsColl (groupName (contents obj)) with
      | none =>
        rw [create_of_none (doc.trans taken)]
        refine iff_of_true nofun fun loses => ?_
        exact absurd (only loses).2.2.1 (by simp [taken])
      | some raw =>
        rw [create_of_isSome (by rw [doc, taken]; rfl)]
        have loses_iff : LosesMembers r org s ↔ LosesMember s org (groupName (contents obj)) :=
          ⟨fun loses => (only loses).2.2.2, fun loses => ⟨obj, present, decoded, unnamed, wellFormed,
            by rw [taken]; rfl, loses⟩⟩
        rw [loses_iff, ← sameMemberships_iff gets]
        exact ⟨fun keeps => keeps rfl, fun keeps _ => keeps⟩

def rowStore : Store :=
  let org : Store := (Store.newMemoryBackend.createOrg acme).1
  ((addMember acme ops .users leaver).run exec (org.put acme groupsColl ops (groupJSON ops [] .none))).2

theorem refused_group_loses_member :
    let again := (createGroup (creates [(lit "name", .string ops)]) acme).run exec rowStore
    (answer again.1).clientError ∧ ¬ SameMemberships rowStore again.2 := by
  refine ⟨by decide +kernel, fun same => ?_⟩
  have before : Listed rowStore acme ops .users leaver := ⟨_, _, rfl, by decide +kernel⟩
  obtain ⟨idx, t, ran, mem⟩ := (same acme ops .users leaver).1.mpr before
  obtain rfl := Except.ok.inj (Prod.mk.inj ran).1
  revert mem
  decide +kernel

end Groups

end CincServer.Proof.Api
