import CincServer.Proof.Api.KeyMap

/-!
# Requests about actors are answered
-/

namespace CincServer.Proof.Api
open CincServer.Api CincServer.Json Proof.Decoding Go Lib Program

variable {α : Type} {s t : Store} {route : ActorRoute} {org segment name key pub : GoString} {r : Request} {env : Env}
  {post : α → Prop} {enforceACL : Bool} {actor : Option Object} {privateKey : GoString}

def Response.status : Response → Option Nat
  | .json status _ => some status
  | .error status _ => some status
  | .internalError => some 500
  | .panicked => none

abbrev Answered (response : Response) : Prop := (Response.status response).isSome

abbrev Answering (post : α → Prop) (h : Handler α) : Prop := h.Yields Answered post

theorem answering_refuseIf {condition : Prop} [Decidable condition] {status : Nat}
    {message : GoString} :
    Answering (fun _ => ¬ condition) (refuseIf condition status message) :=
  yields_ite (fun _ => rfl) id

theorem answering_refuseWith {status : Nat} {message : Option GoString} :
    Answering (fun _ => True) (refuseWith status message) := by
  cases message with
  | none => trivial
  | some message => rfl

theorem answering_decodeBody :
    Answering (fun obj => unmarshalMap r.body = some obj) (decodeBody r) := by
  unfold decodeBody
  split
  · next decoded => exact decoded
  · rfl

theorem answering_resolveOrg : Answering (fun _ => True) (resolveOrg org) :=
  fun _ => answering_refuseIf.mono fun _ _ => trivial

theorem answering_scope : Answering (fun _ => True) route.scope := by
  cases route with
  | users => trivial
  | clients org => exact answering_resolveOrg

theorem answering_mustView {coll message : GoString} :
    Answering (fun _ => True) (mustView r org coll key message) := by
  have viewed : Answering (fun _ => True) (viewObject r org coll key) := by
    unfold viewObject
    split
    · exact fun _ => trivial
    · exact yields_ite (fun _ => trivial) fun _ _ => trivial
  exact viewed.bind fun _ _ => answering_refuseIf.mono fun _ _ => trivial

theorem answering_assign {obj : Option Object} {v : Value} (isSome : obj.isSome) :
    Answering (fun out => out.isSome) (assign obj name v) := by
  cases obj with
  | none => cases isSome
  | some obj => rfl

theorem isSome_deleteField {obj : Option Object} (isSome : obj.isSome) :
    (deleteField name obj).isSome := by
  simpa [deleteField] using isSome

theorem answering_recordKey {generate : Bool} {obj : Option Object} (isSome : obj.isSome) :
    Answering (fun out => out.isSome) (recordKey env generate obj) :=
  yields_ite (fun _ => answering_assign isSome) fun _ =>
    yields_ite (fun _ => answering_assign isSome) fun _ => isSome

theorem answering_stashPassword {obj : Option Object} (isSome : obj.isSome) :
    Answering (fun out => out.isSome) (stashPassword env org name obj) := by
  unfold stashPassword
  split
  · exact fun _ => isSome_deleteField isSome
  · exact isSome

theorem answering_validateActor [Unicode] {obj : Option Object} (isSome : obj.isSome) :
    Answering (fun out => out.isSome) (validateActor segment name obj) := by
  refine yields_ite (fun _ => ?_) fun _ => yields_ite (fun _ => rfl) fun _ => isSome
  split
  · rfl
  · show (obj.map lowerEmail).isSome
    simpa using isSome

theorem isSome_of_named {obj : Option Object}
    (named : firstString (contents obj) [lit "name", lit "username"] ≠ []) :
    obj.isSome := by
  cases obj with
  | none => exact absurd rfl named
  | some obj => rfl

theorem answering_createBody [Unicode] :
    Answering (fun out => out.2.2.isSome) (createBody env r segment) := by
  unfold createBody
  refine answering_decodeBody.bind fun obj _ => answering_refuseIf.bind fun _ named => ?_
  refine (answering_validateActor (isSome_of_named named)).bind fun obj isSome => ?_
  exact answering_refuseIf.bind fun _ _ => answering_refuseWith.bind fun _ _ =>
    isSome_deleteField isSome

theorem answering_clientOrg (orgs : List GoString) :
    Answering (fun _ => True) (clientOrg name orgs) := by
  induction orgs with
  | nil => trivial
  | cons org orgs ih =>
    intro (found : Bool)
    refine yields_ite (fun _ (stored : Option Raw) => yields_ite
      (fun _ => trivial) fun _ => ih) fun _ => ih

theorem answering_actorNameCollision :
    Answering (fun _ => True) (actorNameCollision segment name) := by
  refine yields_ite (fun _ (stored : Option Raw) => yields_ite
    (fun _ => trivial) fun _ => trivial) fun _ => ?_
  refine yields_ite (fun _ orgs =>
    (answering_clientOrg orgs).bind fun found _ => ?_) fun _ => trivial
  cases found <;> trivial

theorem answering_grantCreator :
    Answering (fun _ => True) (grantCreator enforceACL r org segment name) := by
  unfold grantCreator
  split
  · exact yields_ite (fun _ _ => trivial) fun _ => trivial
  · trivial

theorem answering_joinClients {obj : Option Object} :
    Answering (fun _ => True) (joinClients enforceACL org segment name obj) :=
  yields_ite (fun _ _ => trivial) fun _ => trivial

theorem answering_createActor [Unicode] :
    Answering Answered (createActor env enforceACL r org segment) := by
  refine answering_createBody.bind fun (name, createKey, obj) isSome => ?_
  refine answering_actorNameCollision.bind fun collision _ =>
    answering_refuseWith.bind fun _ _ => ?_
  refine (answering_recordKey isSome).bind fun obj isSome => ?_
  refine (answering_stashPassword
    (isSome_deleteField (isSome_deleteField isSome))).bind fun obj _ created => ?_
  exact answering_refuseIf.bind fun _ _ => answering_grantCreator.bind fun _ _ =>
    answering_joinClients.bind fun _ _ => rfl

theorem answering_loadActor : Answering (fun _ => True) (loadActor org segment name) := by
  rintro (_ | raw)
  · rfl
  · dsimp only [loadActor, Program.bind]
    split
    · rfl
    · trivial

theorem answering_setActorPublicKey (isSome : actor.isSome) :
    Answering (fun _ => True) (setActorPublicKey org segment name actor pub) := by
  unfold setActorPublicKey
  exact yields_ite (fun _ _ => trivial) fun _ => (answering_assign isSome).bind fun _ _ _ => trivial

theorem answering_mirror {response : Response} (isSome : actor.isSome)
    (answered : Answered response) :
    Answering Answered (if key = defaultKeyName then
      setActorPublicKey org segment name actor pub >>= fun _ => pure response else pure response) :=
  yields_ite (fun _ => (answering_setActorPublicKey isSome).bind fun _ _ => answered) fun _ => answered

theorem answering_storeDefaultKey {body : Object} (isSome : actor.isSome) :
    Answering Answered (storeDefaultKey org segment name actor body privateKey) :=
  answering_refuseIf.bind fun _ _ _ => (answering_setActorPublicKey isSome).bind fun _ _ => rfl

theorem answering_renameKey {new : GoString} {row : Members} (isSome : actor.isSome) :
    Answering Answered (renameKey org segment name key new actor row pub privateKey) := by
  refine answering_refuseIf.bind fun _ _ created => answering_refuseIf.bind fun _ _ _ =>
    yields_ite (fun _ => ?_) fun _ => ?_
  · exact (answering_setActorPublicKey isSome).bind fun _ _ => rfl
  · exact answering_mirror isSome rfl

theorem answering_updateKey {body : Object} {raw : Raw} (isSome : actor.isSome) :
    Answering Answered (updateKey org segment name key actor body privateKey raw) := by
  unfold updateKey
  split
  · rfl
  · refine answering_refuseIf.bind fun _ _ => yields_ite (fun _ _ => ?_) fun _ =>
      answering_renameKey isSome
    exact answering_mirror isSome rfl

section Records

def IsObject (raw : Raw) : Prop := ∃ members, raw = .document (.object members)

def ObjectRecord (a : Account) : Prop := ∀ raw, a.record = some raw → IsObject raw

theorem isSome_of_isObject {raw : Raw} {obj : Option Object} (isObject : IsObject raw)
    (decoded : unmarshalMap raw = some obj) :
    obj.isSome := by
  obtain ⟨members, rfl⟩ := isObject
  rw [unmarshalMap] at decoded
  split_ifs at decoded
  rw [← Option.some.inj decoded]
  rfl

theorem Loads.isSome (loads : Loads s route name actor) (objects : AllAccounts ObjectRecord s) :
    actor.isSome :=
  let ⟨raw, stored, decoded⟩ := loads
  isSome_of_isObject (objects (route, name) raw stored) decoded

theorem answering_storeKey {stored : Option Raw} {read : Object} (isSome : actor.isSome) :
    Answering Answered (match stored with
    | none => storeDefaultKey org segment name actor read privateKey
    | some raw => updateKey org segment name key actor read privateKey raw) := by
  cases stored with
  | none => exact answering_storeDefaultKey isSome
  | some raw => exact answering_updateKey isSome

variable (objects : AllAccounts ObjectRecord s)
include objects

theorem ends_loaded {f : Option Object → Handler Response}
    (rest : ∀ actor, actor.isSome → Answering Answered (f actor)) :
    Ends exec Answered Answered
      (route.scope >>= fun _ => loadActor route.org route.segment name >>= f) s := by
  refine (answering_scope.ends s).then (leads_scope trivial) ?_
  rintro _ _ ⟨rfl, -⟩
  refine (answering_loadActor.ends _).then (leads_loadActor trivial) ?_
  rintro actor _ ⟨rfl, loads⟩
  exact (rest actor (loads.isSome objects)).ends _

theorem ends_addKey : Ends exec Answered Answered (addKey env r route name) s := by
  refine ends_loaded objects fun actor isSome => ?_
  refine answering_decodeBody.bind fun body _ => answering_refuseIf.bind fun _ _ =>
    answering_refuseWith.bind fun _ _ => ?_
  refine answering_refuseIf.bind fun _ _ (created : Bool) => answering_refuseIf.bind fun _ _ => ?_
  exact answering_mirror isSome rfl

theorem ends_putKey : Ends exec Answered Answered (putKey env r route name key) s := by
  refine ends_loaded objects fun actor isSome => ?_
  refine answering_decodeBody.bind fun body _ => answering_refuseIf.bind fun _ _ =>
    answering_refuseWith.bind fun _ _ => ?_
  intro (stored : Option Raw)
  refine answering_refuseIf.bind fun _ _ => yields_ite (fun createKey => ?_) fun _ =>
    answering_storeKey isSome
  cases body with
  | none => cases createKey
  | some body => exact answering_storeKey isSome

theorem ends_deleteKey : Ends exec Answered Answered (deleteKey route name key) s := by
  refine ends_loaded objects fun actor isSome => ?_
  rintro (_ | raw)
  · exact yields_ite (fun _ _ => rfl) fun _ => rfl
  · exact yields_ite (fun _ =>
      (answering_setActorPublicKey isSome).bind fun _ _ => rfl) fun _ => rfl

end Records

theorem answering_updateBody : Answering (fun _ => True) (updateBody r) := by
  refine answering_decodeBody.bind fun obj _ => yields_ite (fun _ => ?_) fun _ => trivial
  dsimp only
  split
  · rfl
  · trivial

theorem answering_mergeUpdate [Unicode] {obj : Option Object} :
    Answering (fun _ => True) (mergeUpdate org segment name obj) := by
  refine yields_ite (fun _ => trivial) fun _ (stored : Option Raw) => ?_
  dsimp only [Program.bind, pure]
  split
  · rfl
  · trivial

theorem answering_preservePrivilege {obj : Option Object} (isSome : obj.isSome) :
    Answering (fun out => out.isSome) (preservePrivilege r org segment name obj) := by
  refine yields_ite (fun _ => isSome) fun _ => ?_
  cases r.actor with
  | none => exact isSome
  | some actor =>
    refine yields_ite (fun _ => isSome) fun _ (stored : Option Raw) => ?_
    dsimp only [Program.bind, pure]
    split
    · exact isSome_deleteField isSome
    · exact answering_assign isSome

theorem ends_setStoredDefaultPublicKey (shaped : DefaultShaped (accounts s (route, name))) :
    Ends exec Answered (fun _ => True) (setStoredDefaultPublicKey route.org route.segment name pub) s := by
  unfold setStoredDefaultPublicKey Ends
  rw [run_get_bind]
  cases found : s.get route.org (keysColl route.segment name) defaultKeyName with
  | none => trivial
  | some raw =>
    obtain ⟨pub, exp, rfl⟩ := shaped raw found
    simp only [decodeMap_keyRow]
    trivial

theorem ends_carryKey {obj : Option Object} {regenerate : Bool}
    (shaped : DefaultShaped (accounts s (route, name)))
    (isSome : obj.isSome) :
    Ends exec Answered (fun out => out.isSome) (carryKey env regenerate route.org route.segment name obj) s := by
  have bare : (deleteField (lit "chef_key") (deleteField (lit "private_key") obj)).isSome :=
    isSome_deleteField (isSome_deleteField isSome)
  have rest (pub : GoString) : Answering (fun out => out.isSome) (if pub ≠ [] then
      assign (deleteField (lit "chef_key") (deleteField (lit "private_key") obj)) (lit "public_key") (.string pub)
      else pure (deleteField (lit "chef_key") (deleteField (lit "private_key") obj))) :=
    yields_ite (fun _ => answering_assign bare) fun _ => bare
  refine ends_ite (fun _ => ?_) fun _ => ?_
  · refine (ends_setStoredDefaultPublicKey shaped).then (leads_iff.mpr trivial) fun _ t _ => ?_
    exact (rest _).ends t
  · refine Yields.ends ?_ s
    exact fun _ => rest _

theorem ends_putActor [Unicode] (shaped : DefaultShaped (accounts s (route, name)))
    (whole : route = .users ∨ unmarshalMap r.body ≠ some none) :
    Ends exec Answered Answered (putActor env r route name) s := by
  refine (answering_scope.ends s).then (leads_scope trivial) ?_
  rintro _ _ ⟨rfl, -⟩
  refine (answering_mustView.ends _).then (leads_reads readOnly_reads.only_mustView trivial) ?_
  rintro _ _ rfl
  refine (answering_updateBody.ends _).then (leads_updateBody trivial) ?_
  rintro _ _ ⟨rfl, body, decoded, -, rfl⟩
  refine (answering_mergeUpdate.ends _).then (leads_mergeUpdate trivial) ?_
  rintro merged s ⟨rfl, -, merges⟩
  have isSome : merged.isSome := by
    rw [merges]
    exact isSome_mergedRecord (whole.imp_right fun given => Option.isSome_iff_ne_none.mpr fun isNone => given (isNone ▸ decoded))
  refine (ends_carryKey shaped isSome).then (leads_carryKey shaped trivial) ?_
  rintro obj t ⟨-, -, carries⟩
  have isSome : obj.isSome := by
    rw [carries]
    simpa using isSome
  refine Yields.ends ?_ t
  refine (answering_preservePrivilege isSome).bind fun obj isSome => ?_
  refine (answering_stashPassword isSome).bind fun obj isSome _ => ?_
  refine yields_ite (fun _ => (answering_assign isSome).bind fun _ _ => rfl) fun _ => rfl

theorem answering_deleteAll {coll : GoString} {keys : List GoString} :
    Answering (fun _ => True) (deleteAll org coll keys) := by
  refine yields_forM ?_ keys
  exact fun key _ => trivial

theorem answering_removeFromACLs {kind : GoString} :
    Answering (fun _ => True) (removeFromACLs org kind name) := by
  refine fun rows => yields_forM (fun row => ?_) _
  unfold rewriteACL
  split
  · trivial
  · exact fun _ => trivial

theorem answering_removeActorFromAllGroups {kind : MemberKind} :
    Answering (fun _ => True) (removeActorFromAllGroups org kind name) := by
  have rows : Answering (fun _ => True) (removeMemberRows org kind name) := fun _ =>
    answering_deleteAll
  refine rows.bind fun _ _ (groups : List GoString) => yields_forM ?_ groups
  intro group (stored : Option Raw)
  dsimp only [Program.bind]
  split
  · trivial
  · exact fun _ => trivial

theorem answering_removeUserFromOrg {user : GoString} :
    Answering (fun _ => True) (removeUserFromOrg user org) :=
  fun (_ : Bool) => yields_ite
    (fun _ _ _ => answering_removeActorFromAllGroups.bind fun _ _ => answering_removeFromACLs) fun _ => trivial

theorem answering_cleanupActor : Answering (fun _ => True) (cleanupActor org segment name) := by
  have rest : Answering (fun _ => True) (do deleteACL org segment name; deleteActorKeys org segment name) :=
    fun _ _ => answering_deleteAll
  refine yields_ite (fun _ => ?_) fun _ => yields_ite (fun _ => ?_) fun _ => rest
  · have everywhere : Answering (fun _ => True) (removeUserFromOrgs name) :=
      answering_removeFromACLs.bind fun _ _ orgs =>
        yields_forM (fun _ => answering_removeUserFromOrg) orgs
    exact everywhere.bind fun _ _ => rest
  · exact answering_removeFromACLs.bind fun _ _ =>
      answering_removeActorFromAllGroups.bind fun _ _ => rest

theorem answering_scopedDelete : Answering Answered (scopedDelete r org segment name) := by
  have present : Answering (fun _ => True) (mustExist org segment name (lit "Cannot find " ++ segment ++ lit " " ++ name)) := by
    rintro (_ | raw)
    · rfl
    · trivial
  refine present.bind fun _ _ => answering_cleanupActor.bind fun _ _ => ?_
  rintro (_ | raw) <;> rfl

def WholeUpdate : ApiRequest → Prop
  | .actor (.clients _) (.put _ r _) => unmarshalMap r.body ≠ some none
  | _ => True

theorem WholeUpdate.body (whole : WholeUpdate (.actor route (.put env r name))) :
    route = .users ∨ unmarshalMap r.body ≠ some none := by
  cases route with
  | users => exact .inl rfl
  | clients org => exact .inr whole

theorem objectRecord_gone : ObjectRecord .gone := nofun

section Account

variable {a : Account} {exp : GoString} {obj : Option Object}

theorem ObjectRecord.putRecord (isSome : obj.isSome) :
    ObjectRecord (a.putRecord (mustEncode obj)) := by
  intro raw stored
  obtain ⟨obj, rfl⟩ := Option.isSome_iff_exists.mp isSome
  exact ⟨_, (Option.some.inj stored).symm⟩

end Account

theorem isSome_recordWith (isSome : actor.isSome) : (recordWith pub actor).isSome := by
  unfold recordWith
  split
  · exact isSome_deleteField isSome
  · simpa using isSome

theorem AccountEffect.objectRecord [Unicode] {request : ApiRequest} {who : ActorRoute × GoString}
    {a : Account}
    (all : AllAccounts ObjectRecord s) (whole : WholeUpdate request)
    (effect : AccountEffect s request who a) :
    ObjectRecord a := by
  cases effect with
  | created registers => exact .putRecord registers.isSome
  | updated decoded updates =>
    refine .putRecord (updates.isSome (whole.body.imp_right fun given => ?_))
    exact Option.isSome_iff_ne_none.mpr fun isNone => given (isNone ▸ decoded)
  | key loads effect =>
    have recorded {a : Account} {pub : GoString} : ObjectRecord (a.putRecord (mustEncode (recordWith pub _))) :=
      .putRecord (isSome_recordWith (loads.isSome all))
    cases effect with
    | added | amended => exact Account.mirror_of (all _) recorded
    | renamed => exact Account.rename_of (all _) fun _ _ => recorded
    | dropped => exact all _
    | bared => exact recorded
  | torn loads => cases loads.isSome all
  | deleted | removed => exact objectRecord_gone
  | validator => exact fun raw stored => ⟨_, (Option.some.inj stored).symm⟩

section Steps

variable (all : AllAccounts ObjectRecord s)
include all

theorem ends_actorWrite [Unicode] (regular : AllAccounts Regular s) {request : ActorWrite}
    (whole : WholeUpdate (.actor route request)) :
    Ends exec Answered Answered (request.handler enforceACL route) s := by
  cases request with
  | create env r => exact (answering_scope.bind fun _ _ => answering_createActor).ends s
  | put env r name => exact ends_putActor (regular _).shaped whole.body
  | delete r name => exact (answering_scope.bind fun _ _ => answering_scopedDelete).ends s
  | key name request =>
    cases request with
    | add env r => exact ends_addKey all
    | put env r key => exact ends_putKey all
    | delete key => exact ends_deleteKey all

end Steps

/-- While no client is updated with null, every record of an actor is a JSON object and every request
about actors that is made is answered with a status. -/
theorem actor_requests_answered [Unicode] {enforceACL : Bool}
    (reached : Serves enforceACL (fun request _ => WholeUpdate request) s) :
    (∀ route name raw, s.get (ActorRoute.org route) route.segment name = some raw → IsObject raw) ∧
      ∀ route request, WholeUpdate (.actor route request) →
        (Response.status (answer ((ActorWrite.handler enforceACL route request).run exec s).1)).isSome := by
  have regular := regular_of_serves reached
  have objects : AllAccounts ObjectRecord s :=
    Session.invariant reached (fun _ => objectRecord_gone) fun request _ reached whole all =>
      all.served (placed_of_serves reached) (fun who => (regular_of_serves reached who).shaped) fun _ _ effect =>
        effect.objectRecord all whole
  refine ⟨fun route name raw stored => objects (route, name) raw stored,
    fun route request whole => ?_⟩
  have ends : Ends exec Answered Answered (ActorWrite.handler enforceACL route request) s :=
    ends_actorWrite objects regular whole
  unfold Ends at ends
  revert ends
  cases ((ActorWrite.handler enforceACL route request).run exec s).1 <;> exact id

def makesClient (keyed : Bool) : List ApiRequest :=
  [.organization (.create keyedEnv (creates [(lit "name", .string acme), (lit "full_name", .string acme)])),
    .actor (.clients acme) (.create keyedEnv (creates [(lit "name", .string ops), (lit "create_key", .bool keyed)]))]

theorem client_update_answered :
    letI : Unicode := ⟨id⟩
    (Response.status (answer ((ActorWrite.handler true (.clients acme) (.put keyedEnv (creates []) ops)).run exec
      (serveAll true (makesClient true) Store.newMemoryBackend)).1)).isSome := by
  let _ : Unicode := ⟨id⟩
  have reached : Serves true (fun request _ => WholeUpdate request) (serveAll true (makesClient true) Store.newMemoryBackend) := by
    refine Serves.all .start ?_
    simp [makesClient, WholeUpdate]
  refine (actor_requests_answered reached).2 (.clients acme) (.put keyedEnv (creates []) ops) ?_
  exact nofun

def nullUpdate : ActorWrite := .put keyedEnv { creates [] with body := .document .null } ops

theorem null_update_panics :
    letI : Unicode := ⟨id⟩
    (∃ s, Serves true (fun _ _ => True) s ∧
      Response.status (answer ((nullUpdate.handler true (.clients acme)).run exec s).1) = none) ∧
    ∃ s raw, Serves true (fun _ _ => True) s ∧ s.get acme clients ops = some raw ∧ ¬ IsObject raw := by
  let _ : Unicode := ⟨id⟩
  refine ⟨⟨serveAll true (makesClient true) Store.newMemoryBackend, Serves.all .start (by simp), by decide +kernel⟩, ?_⟩
  refine ⟨serveAll true (makesClient false ++ [.actor (.clients acme) nullUpdate]) Store.newMemoryBackend, .document .null,
    Serves.all .start (by simp), by rfl, ?_⟩
  rintro ⟨members, same⟩
  cases same

end CincServer.Proof.Api
