import CincServer.Proof.Api.Privilege
import CincServer.Proof.Api.Refusal

/-!
# Requests one after another
-/

namespace CincServer.Proof.Api
open CincServer.Api CincServer.Json Proof.Decoding Go Lib Program

variable {α : Type} {inv : Store → Prop} {s t : Store} {org coll key name : GoString} {r : Request}
  {h : Handler α} {status : Nat} {message user perm fullName : GoString} {f : Footprint}
  {who : Principal} {enforceACL : Bool} {members : Option GoString}
  {segment coll' : GoString} {body : Option Object} {doc : Raw}

theorem leads_reads (reads : h.Only ReadOnly) (holds : inv s) :
    Leads exec inv h s fun _ t => t = s :=
  (reads.mono fun _ only => only.exec).still holds

theorem state_of_reads (reads : h.Only ReadOnly) {out : Except Response α}
    (ran : h.run exec s = (out, t)) : t = s := by
  have same := leads_iff.mp (@leads_reads _ (· = s) s h reads rfl)
  rwa [ran] at same

theorem leads_result (reads : h.Only ReadOnly) (holds : inv s) :
    Leads exec inv h s fun a t => t = s ∧ h.run exec s = (.ok a, s) := by
  have same := @leads_reads _ (fun t => inv t) s h reads holds
  unfold Leads at same ⊢
  revert same
  rcases h.run exec s with ⟨_ | a, t⟩
  · exact id
  · rintro rfl
    exact ⟨rfl, rfl⟩

theorem leads_of_run {a : α} {post : α → Store → Prop} (ran : h.run exec s = (.ok a, t))
    (holds : post a t) : Leads exec inv h s post := by
  unfold Leads
  rw [ran]
  exact holds

theorem leads_resolveOrg (holds : inv s) :
    Leads exec inv (resolveOrg org) s fun _ t => t = s ∧ s.hasOrg org := by
  unfold Leads resolveOrg
  rw [run_lookupOrg_bind]
  cases present : s.hasOrg org with
  | true => exact ⟨rfl, rfl⟩
  | false => exact holds

theorem leads_scope {route : ActorRoute} (holds : inv s) :
    Leads exec inv route.scope s fun _ t => t = s ∧ Resolves s route := by
  cases route with
  | users => exact ⟨rfl, trivial⟩
  | clients org => exact leads_resolveOrg holds

theorem leads_refuseIf {condition : Prop} [Decidable condition] (holds : inv s) :
    Leads exec inv (refuseIf condition status message) s fun _ t => t = s ∧ ¬ condition :=
  leads_ite (fun _ => leads_stop holds) fun fails => leads_pure ⟨rfl, fails⟩

theorem leads_refuseWith {message : Option GoString} (holds : inv s) :
    Leads exec inv (refuseWith status message) s fun _ t => t = s ∧ message = none := by
  cases message with
  | none => exact leads_pure ⟨rfl, rfl⟩
  | some message => exact leads_stop holds

theorem leads_decodeBody (holds : inv s) :
    Leads exec inv (decodeBody r) s fun obj t => t = s ∧ unmarshalMap r.body = some obj := by
  unfold decodeBody
  split
  · next obj decoded => exact leads_pure ⟨rfl, decoded⟩
  · exact leads_stop holds

theorem leads_within (within : h.Only (Within org f))
    (stopped : ∀ t, Frame org f s t → inv t) : Leads exec inv h s fun _ t => Frame org f s t := by
  have frame := frame_run within s
  unfold Leads
  split
  · next ran => rwa [ran] at frame
  · next ran =>
    rw [ran] at frame
    exact stopped _ frame

theorem leads_create {raw : Raw} (holds : inv s) : Leads exec inv (do
      let created ← Org.create org coll key raw
      refuseIf (!created) 409 message) s fun _ t => s.get org coll key = none ∧ t = s.put org coll key raw := by
  unfold Leads
  rw [run_create_bind]
  cases taken : s.get org coll key with
  | none =>
    rw [create_of_none taken]
    exact ⟨rfl, rfl⟩
  | some old =>
    rw [create_of_isSome (Option.isSome_of_eq_some taken)]
    exact holds

theorem leads_mustExist (holds : inv s) :
    Leads exec inv (mustExist org coll key message) s fun _ t =>
      t = s ∧ (s.get org coll key).isSome := by
  unfold Leads mustExist
  rw [run_get_bind]
  cases s.get org coll key with
  | none => exact holds
  | some raw => exact ⟨rfl, rfl⟩

theorem run_mustExist_present (present : (s.get org coll key).isSome) (f : Unit → Handler α) :
    (mustExist org coll key message >>= f).run exec s = (f ()).run exec s := by
  obtain ⟨raw, found⟩ := Option.isSome_iff_exists.mp present
  rw [run_bind, mustExist, run_get_bind, found]
  rfl

theorem run_mustExist_absent (absent : s.get org coll key = none) (f : Unit → Handler α) :
    (mustExist org coll key message >>= f).run exec s = (.error (.error 404 [message]), s) := by
  rw [run_bind, mustExist, run_get_bind, absent]
  rfl

def IsOwn (who : Principal) (org coll key : GoString) : Prop :=
  who.scope = org ∧ (aclsColl = coll ∧ aclKey who.segment who.name = key ∨ keysColl who.segment who.name = coll ∨
    who.segment = coll ∧ who.name = key)

instance (who : Principal) (org coll key : GoString) : Decidable (IsOwn who org coll key) :=
  inferInstanceAs (Decidable (_ ∧ _))

theorem segment_plain (who : Principal) : aclsColl ≠ who.segment ∧ 0x3A ∉ who.segment ∧
    who.segment ∉ [assocColl, assocReqColl, groupMembersColl, groupsColl] := by
  cases who with
  | user name =>
    exact (by decide : aclsColl ≠ users ∧ 0x3A ∉ users ∧
      users ∉ [assocColl, assocReqColl, groupMembersColl, groupsColl])
  | client org name =>
    exact (by decide : aclsColl ≠ clients ∧ 0x3A ∉ clients ∧
      clients ∉ [assocColl, assocReqColl, groupMembersColl, groupsColl])

structure Swept (s : Store) (who : Principal) (org coll key : GoString) (found : Option Raw) :
    Prop where
  from_stored : ∀ raw, found = some raw → ∃ old, s.get org coll key = some old ∧
    (raw = old ∨ coll = groupsColl ∧ raw = revise who.kind who.name key old ∨
      coll = aclsColl ∧ raw = reviseACL (lit "actors") who.name old)
  kept : coll ∉ [assocColl, assocReqColl, groupMembersColl] → (s.get org coll key).isSome → found.isSome

theorem swept_self : Swept s who org coll key (s.get org coll key) :=
  ⟨fun _ found => ⟨_, found, .inl rfl⟩, fun _ => id⟩

theorem swept_none (mem : coll ∈ [assocColl, assocReqColl, groupMembersColl]) :
    Swept s who org coll key none :=
  ⟨nofun, fun apart => absurd mem apart⟩

theorem swept_doc : Swept s who org groupsColl key ((s.get org groupsColl key).map (revise who.kind who.name key)) := by
  refine ⟨fun raw found => ?_, fun _ => by simp⟩
  obtain ⟨old, stored, rfl⟩ := Option.map_eq_some_iff.mp found
  exact ⟨old, stored, .inr (.inl ⟨rfl, rfl⟩)⟩

theorem swept_acl :
    Swept s who org aclsColl key ((s.get org aclsColl key).map (reviseACL (lit "actors") who.name)) := by
  refine ⟨fun raw found => ?_, fun _ => by simp⟩
  obtain ⟨old, stored, rfl⟩ := Option.map_eq_some_iff.mp found
  exact ⟨old, stored, .inr (.inr ⟨rfl, rfl⟩)⟩

theorem swept_scrub :
    Swept s (.user user) org coll key (scrubRecord user org coll key (s.get org coll key)) := by
  unfold scrubRecord
  by_cases assoc : coll = assocColl
  · rw [if_pos assoc]
    split
    · exact swept_none (by simp [assoc])
    · exact swept_self
  by_cases invite : coll = assocReqColl
  · rw [if_neg assoc, if_pos invite]
    split
    · exact swept_none (by simp [invite])
    · exact swept_self
  by_cases row : coll = groupMembersColl
  · rw [if_neg assoc, if_neg invite, if_pos row]
    split
    · exact swept_none (by simp [row])
    · exact swept_self
  rw [if_neg assoc, if_neg invite, if_neg row]
  by_cases doc : coll = groupsColl
  · subst doc
    exact @swept_doc _ _ _ (.user user)
  rw [if_neg doc]
  by_cases acl : coll = aclsColl
  · subst acl
    exact @swept_acl _ _ _ (.user user)
  rw [if_neg acl]
  exact swept_self

theorem cleanup_swept (noGlobal : s.hasOrg global = false) (who : Principal) :
    ∃ cleanup : Handler Unit, cleanupActor who.scope who.segment who.name =
        (do cleanup; deleteACL who.scope who.segment who.name; deleteActorKeys who.scope who.segment who.name) ∧
      ∃ mid, cleanup.run exec s = (.ok (), mid) ∧
        ∀ org coll key, Swept s who org coll key (mid.get org coll key) := by
  cases who with
  | user name =>
    obtain ⟨mid, ran, -, gets⟩ := removeUserFromOrgs_get name s
    refine ⟨removeUserFromOrgs name, rfl, mid, ran, fun org coll key => ?_⟩
    rw [gets]
    by_cases globalACL : global = org ∧ aclsColl = coll
    · obtain ⟨rfl, rfl⟩ := globalACL
      simp only [noGlobal, and_self, if_true]
      exact @swept_acl _ _ _ (.user name)
    · simp only [globalACL, if_false]
      split
      · exact swept_scrub
      · exact swept_self
  | client own name =>
    obtain ⟨acls, unlisted, aclGets⟩ := removeFromACLs_get own (lit "actors") name s
    obtain ⟨mid, revoked, gets⟩ := removeActorFromAllGroups_ok own .clients name acls
    refine ⟨do removeFromACLs own (lit "actors") name; removeActorFromAllGroups own .clients name,
      (bind_bind ..).symm, mid, ?_, fun org coll key => ?_⟩
    · rw [run_bind_of_ok unlisted, revoked]
    · rw [gets, aclGets]
      by_cases row : own = org ∧ groupMembersColl = coll ∧ rowSuffix .clients name <:+ key
      · rw [if_pos row]
        exact swept_none (by simp [← row.2.1])
      rw [if_neg row]
      by_cases doc : own = org ∧ groupsColl = coll
      · obtain ⟨rfl, rfl⟩ := doc
        simp +decide only [and_self, and_false, if_true, if_false]
        exact @swept_doc _ _ _ (.client own name)
      rw [if_neg doc]
      by_cases acl : own = org ∧ aclsColl = coll
      · obtain ⟨rfl, rfl⟩ := acl
        simp only [and_self, if_true]
        exact @swept_acl _ _ _ (.client own name)
      rw [if_neg acl]
      exact swept_self

structure Deleted (s t : Store) (who : Principal) : Prop extends Erased s t who where
  swept : ∀ org coll key, ¬ IsOwn who org coll key → Swept s who org coll key (t.get org coll key)
  own : ∀ org coll key, IsOwn who org coll key → t.get org coll key = none

theorem Deleted.others (deleted : Deleted s t who) (mem : coll ∈ [users, clients, groupsColl])
    (other : ¬ (who.scope = org ∧ who.segment = coll ∧ who.name = key))
    (found : (s.get org coll key).isSome) :
    (t.get org coll key).isSome := by
  obtain ⟨noACL, noColon, plain⟩ :
      coll ≠ aclsColl ∧ 0x3A ∉ coll ∧ coll ∉ [assocColl, assocReqColl, groupMembersColl] := by
    simp only [List.mem_cons, List.not_mem_nil, or_false] at mem
    rcases mem with rfl | rfl | rfl <;> decide
  have noOwn : ¬ IsOwn who org coll key := by
    rintro ⟨here, ⟨same, -⟩ | same | same⟩
    · exact noACL same.symm
    · exact ne_keysColl noColon _ _ same.symm
    · exact other ⟨here, same⟩
  exact (deleted.swept _ _ _ noOwn).kept plain found

theorem scopedDelete_run (noGlobal : s.hasOrg global = false) (who : Principal) :
    (∃ response, (scopedDelete r who.scope who.segment who.name).run exec s = (.error response, s)) ∨
    ∃ response t, (scopedDelete r who.scope who.segment who.name).run exec s = (.ok response, t) ∧
      Deleted s t who := by
  cases found : s.get who.scope who.segment who.name with
  | none => exact .inl ⟨_, run_mustExist_absent found _⟩
  | some raw =>
    obtain ⟨cleanup, cleans, mid, ran, swept⟩ := cleanup_swept noGlobal who
    obtain ⟨dropped, rest, gets⟩ := dropOwn_get who.scope who.segment who.name mid
    have record : (dropped.get who.scope who.segment who.name).isSome := by
      obtain ⟨noACL, noColon, plain⟩ := segment_plain who
      have noKeys : keysColl who.segment who.name ≠ who.segment := keysColl_ne_of_not_mem noColon
      rw [gets, if_neg (by simp [noACL, noKeys])]
      exact (swept _ _ _).kept (fun mem => plain (List.mem_append_left [groupsColl] mem)) (by simp [found])
    obtain ⟨last, deleted⟩ := Option.isSome_iff_exists.mp record
    have whole : (scopedDelete r who.scope who.segment who.name).run exec s =
        (.ok (.json 200 (enveloped who.segment who.scope (actorView r last))),
          (dropped.delete who.scope who.segment who.name).1) := by
      rw [scopedDelete, run_mustExist_present (by simp [found]), cleans, bind_bind, run_bind_of_ok ran,
        run_bind_of_ok rest, run_delete_bind, delete_snd, deleted]
      rfl
    have final (org coll key : GoString) : (dropped.delete who.scope who.segment who.name).1.get org coll key =
        if IsOwn who org coll key then none else mid.get org coll key := by
      rw [get_delete, gets]
      by_cases record : who.scope = org ∧ who.segment = coll ∧ who.name = key
      · simp [IsOwn, record]
      · rw [if_neg record]
        refine if_congr (and_congr_right fun here => ?_) rfl rfl
        have other : ¬ (who.segment = coll ∧ who.name = key) := fun same => record ⟨here, same⟩
        simp [other]
    refine .inr ⟨_, _, whole, erased_of_ok whole, fun org coll key other => ?_,
      fun org coll key own => ?_⟩
    · rw [final, if_neg other]
      exact swept org coll key
    · rw [final, if_pos own]

theorem leads_deleteActor {route : ActorRoute} (noGlobal : s.hasOrg global = false) (holds : inv s)
    (kept : Resolves s route → ∀ t, Deleted s t (principal route name) → inv t) :
    Leads exec inv (route.scope >>= fun _ => scopedDelete r route.org route.segment name) s fun _ => inv := by
  refine (leads_scope holds).past fun _ resolves => ?_
  have outcome := @scopedDelete_run _ r noGlobal (principal route name)
  obtain ⟨scope, segment, named⟩ := principal_record route name
  rw [scope, segment, named] at outcome
  rw [leads_iff]
  rcases outcome with ⟨_, refused⟩ | ⟨_, t, ran, deleted⟩
  · rw [refused]
    exact holds
  · rw [ran]
    exact kept resolves t deleted

theorem leads_present (within : h.Only (Within org f))
    (absent : s.hasOrg org = false → (h.run exec s).2 = s) (holds : inv s)
    (kept : s.hasOrg org → ∀ t, Frame org f s t → inv t) : Leads exec inv h s fun _ => inv := by
  rw [leads_iff]
  cases present : s.hasOrg org with
  | true => exact kept present _ (frame_run within s)
  | false =>
    rw [absent present]
    exact holds

theorem still_absent (absent : s.hasOrg org = false) (f : Unit → Handler α) :
    ((resolveOrg org >>= f).run exec s).2 = s := by
  rw [run_resolveOrg_absent absent]

theorem leads_object {request : ObjectWrite} (holds : inv s)
    (kept : s.hasOrg org → ∀ t, Frame org (objectWrites request) s t → inv t) :
    Leads exec inv (request.handler enforceACL org) s fun _ => inv := by
  refine leads_present (within_object request) (fun absent => ?_) holds kept
  cases request with
  | put r type name =>
    simp only [ObjectWrite.handler, putObjectRoute]
    split
    · rfl
    · exact still_absent absent _
  | delete type name =>
    simp only [ObjectWrite.handler, deleteObjectRoute]
    split
    · rfl
    · exact still_absent absent _
  | _ =>
    exact still_absent absent _

theorem leads_policy {request : PolicyWrite} (holds : inv s)
    (kept : s.hasOrg org → ∀ t, Frame org (policyWrites request) s t → inv t) :
    Leads exec inv (request.handler org) s fun _ => inv :=
  leads_present (within_policy request) (fun absent => by cases request <;> exact still_absent absent _) holds kept

theorem leads_cookbook {files : FileEnv} {request : CookbookWrite} (holds : inv s)
    (kept : s.hasOrg org → ∀ t, Frame org (cookbookWrites request) s t → inv t) :
    Leads exec inv (request.handler files org) s fun _ => inv :=
  leads_present (within_cookbook request) (fun absent => by cases request <;> exact still_absent absent _) holds kept

theorem leads_membership {request : MembersWrite} (holds : inv s)
    (kept : s.hasOrg org → ∀ t, Frame org (membershipWrites request) s t → inv t) :
    Leads exec inv (request.handler org) s fun _ => inv :=
  leads_present (within_membership request) (fun absent => by cases request <;> exact still_absent absent _) holds kept

def Available (s : Store) (org : GoString) : Prop := org = global ∨ s.hasOrg org

theorem leads_acl {request : AclWrite} (holds : inv s)
    (kept : Available s (aclSpace request) → ∀ t, Frame (aclSpace request) ⟨[aclsColl], []⟩ s t → inv t) :
    Leads exec inv (request.handler r perm) s fun _ => inv := by
  cases request with
  | object org type name =>
    exact leads_present (within_acl (.object org type name))
      (fun absent => still_absent absent _) holds
      fun present => kept (.inr present)
  | organization org =>
    exact leads_present (within_acl (.organization org)) (fun absent => still_absent absent _) holds
      fun present => kept (.inr present)
  | user name => exact leads_iff.mpr (kept (.inl rfl) _ (frame_run (within_acl (.user name)) s))

theorem Resolves.available {route : ActorRoute} (resolves : Resolves s route) :
    Available s route.org := by
  cases route with
  | users => exact .inl rfl
  | clients org => exact .inr resolves

theorem leads_route {route : ActorRoute} {rest : Unit → Handler α}
    (within : (route.scope >>= rest).Only (Within route.org f)) (holds : inv s)
    (kept : Resolves s route → ∀ t, Frame route.org f s t → inv t) :
    Leads exec inv (route.scope >>= rest) s fun _ => inv := by
  cases route with
  | users => exact leads_iff.mpr (kept trivial _ (frame_run within s))
  | clients org => exact leads_present within (fun absent => still_absent absent _) holds kept

def settleActor (enforceACL : Bool) (r : Request) (route : ActorRoute) (name : GoString)
    (obj : Option Object) :
    Handler Unit := do
  grantCreator enforceACL r route.org route.segment name
  joinClients enforceACL route.org route.segment name obj

theorem within_settleActor {route : ActorRoute} {obj : Option Object} :
    (settleActor enforceACL r route name obj).Only (Within route.org ⟨[aclsColl, groupMembersColl], []⟩) :=
  (within_grantCreator (by simp)).bind fun _ => only_ite (fun _ => within_put (by simp)) fun _ =>
    only_pure _

structure RecordLike (Q : Object → Prop) : Prop where
  empty : Q ∅
  erase : ∀ {obj} (name : GoString), Q obj → Q (obj.erase name)
  text : ∀ {obj name} (s : GoString), name ∈ [lit "public_key", lit "email"] → Q obj → Q (obj.insert name (.string s))
  field : ∀ {obj source name v}, Q obj → Q source → source[name]? = some v → Q (obj.insert name v)

section RecordLike

variable {Q : Object → Prop} (like : RecordLike Q)
include like

theorem RecordLike.deleteField {obj : Option Object} (name : GoString) (holds : Q (contents obj)) :
    Q (contents (deleteField name obj)) := by
  cases obj with
  | none => exact like.empty
  | some obj => exact like.erase name holds

theorem RecordLike.lowerEmail [Unicode] {obj : Object} (holds : Q obj) : Q (lowerEmail obj) := by
  unfold Api.lowerEmail
  split
  · exact like.text _ (by simp) holds
  · exact holds

theorem RecordLike.withoutPassword {obj : Object} (holds : Q obj) : Q (withoutPassword obj) := by
  unfold Api.withoutPassword
  split
  · exact like.erase _ holds
  · exact holds

end RecordLike

def Derived (sources : List Object) (obj : Option Object) : Prop :=
  ∀ Q, RecordLike Q → (∀ source ∈ sources, Q source) → Q (contents obj)

def createdRecord [Unicode] (env : Env) (r : Request) (segment : GoString)
    (body : Object) : Object :=
  let createKey := isTrue (field (lowered segment body) (lit "create_key"))
  let obj := (lowered segment body).erase (lit "create_key")
  withoutPassword (((withRecordKey env (generatesKey r createKey obj) obj).erase (lit "chef_key")).erase (lit "private_key"))

theorem derived_createdRecord [Unicode] {env : Env} {body : Object} :
    Derived [body] (some (createdRecord env r segment body)) := by
  intro Q like source
  have given : Q (lowered segment body) := by
    unfold lowered
    split
    · exact like.lowerEmail (source body (List.mem_singleton_self body))
    · exact source body (List.mem_singleton_self body)
  have keyed {generate : Bool} {obj : Object} (holds : Q obj) :
      Q (withRecordKey env generate obj) := by
    unfold withRecordKey
    split_ifs
    · exact like.text _ (by simp) holds
    · exact like.text _ (by simp) holds
    · exact holds
  exact like.withoutPassword (like.erase _ (like.erase _ (keyed (like.erase _ given))))

theorem leads_createBody [Unicode] {env : Env} (holds : inv s) :
    Leads exec inv (createBody env r segment) s fun out t =>
      t = s ∧ ∃ body, unmarshalMap r.body = some (some body) ∧
      bodyRefusal env r segment body = none ∧
      out = (actorName body, isTrue (field (lowered segment body) (lit "create_key")),
        some ((lowered segment body).erase (lit "create_key"))) := by
  rcases decoded : unmarshalMap r.body with _ | _ | body
  · rw [createBody, decodeBody, decoded]
    exact leads_stop holds
  · rw [createBody, decodeBody, decoded]
    exact leads_stop holds
  · rw [createBody_eq env r segment decoded]
    refine (leads_refuseWith holds).past fun _ accepted => ?_
    exact leads_pure ⟨rfl, body, rfl, accepted, rfl⟩

theorem field_deleteField {fieldName other : GoString} (apart : other ≠ fieldName) :
    field (contents (deleteField other body)) fieldName = field (contents body) fieldName := by
  cases body with
  | none => rfl
  | some obj => simp [field, contents, deleteField, Std.ExtTreeMap.getD_erase, apart]

theorem leads_stashPassword {env : Env} {obj : Option Object} :
    Leads exec inv (stashPassword env org name obj) s fun out t =>
      Frame org ⟨[passwordsCollection], []⟩ s t ∧
      out = obj.map withoutPassword := by
  cases obj with
  | none => exact leads_pure ⟨.refl s, rfl⟩
  | some o =>
    unfold stashPassword withoutPassword
    rw [contents, Option.getD_some, Option.map_some]
    cases field o (lit "password") with
    | string pw => exact leads_bind.mpr (leads_of_run run_put (leads_pure ⟨frame_put_one s, rfl⟩))
    | _ => exact leads_pure ⟨.refl s, rfl⟩

structure Registers [Unicode] (env : Env) (s : Store) (route : ActorRoute) (r : Request)
    (name : GoString) (obj : Option Object) :
    Prop where
  free : NameFree s name route
  fresh : s.get route.org route.segment name = none
  made : ∃ body, unmarshalMap r.body = some (some body) ∧ bodyRefusal env r route.segment body = none ∧ name = actorName body ∧
    obj = some (createdRecord env r route.segment body)

section Registers

variable [Unicode] {env : Env} {route : ActorRoute} {obj : Option Object} (registers : Registers env s route r name obj)
include registers

theorem Registers.isSome : obj.isSome := by
  obtain ⟨body, -, -, -, rfl⟩ := registers.made
  rfl

theorem Registers.derived :
    ∃ body, unmarshalMap r.body = some body ∧ Derived [contents body] obj := by
  obtain ⟨body, decoded, -, -, rfl⟩ := registers.made
  exact ⟨some body, decoded, derived_createdRecord⟩

end Registers

theorem leads_createActor [Unicode] {env : Env} {route : ActorRoute} {post : Store → Prop}
    (holds : inv s)
    (stashed : ∀ t, Frame route.org ⟨[passwordsCollection], []⟩ s t → inv t)
    (settled : ∀ name obj t, Registers env s route r name obj → Frame route.org ⟨[passwordsCollection], []⟩ s t →
      Leads exec inv (settleActor enforceACL r route name obj) (t.put route.org route.segment name (mustEncode obj)) fun _ => post) :
    Leads exec inv (createActor env enforceACL r route.org route.segment) s fun _ => post := by
  refine (leads_createBody holds).then ?_
  rintro _ s ⟨rfl, body, decoded, checks, rfl⟩
  obtain ⟨collision, ran, free_iff⟩ := actorNameCollision_run s (actorName body) route
  refine leads_bind.mpr (leads_of_run ran ?_)
  refine (leads_refuseWith holds).past fun _ free => ?_
  dsimp only
  rw [recordKey_eq]
  refine leads_stashPassword.then ?_
  rintro _ t ⟨frame, rfl⟩
  refine (leads_create (stashed t frame)).then ?_
  rintro _ _ ⟨fresh, rfl⟩
  have password : route.segment ∉ [passwordsCollection] := by
    cases route with
    | users => exact (by decide : users ∉ [passwordsCollection])
    | clients org => exact (by decide : clients ∉ [passwordsCollection])
  rw [frame.gets password (by simp)] at fresh
  rw [← bind_bind]
  exact (settled _ _ t ⟨free_iff.mp free, fresh, body, decoded, checks, rfl, rfl⟩ frame).then fun _ _ kept => leads_pure kept

theorem leads_unknown {known : GoString → Handler Bool} {P : GoString → Prop}
    (one : ∀ name, Leads exec inv (known name) s fun found t => t = s ∧ (found → P name))
    (names : List GoString) :
    Leads exec inv (unknown known names) s fun rest t =>
      t = s ∧ (rest = [] → ∀ name ∈ names, P name) := by
  induction names with
  | nil => exact leads_pure ⟨rfl, by simp⟩
  | cons name names ih =>
    refine (one name).then ?_
    rintro found _ ⟨rfl, ok⟩
    refine ih.then ?_
    rintro rest _ ⟨rfl, all⟩
    refine leads_pure ⟨rfl, fun none => ?_⟩
    cases found with
    | false => cases none
    | true => exact List.forall_mem_cons.mpr ⟨ok rfl, all none⟩

def FoundIn (s : Store) (members : Option GoString) (name : GoString) : Prop :=
  (s.get global users name).isSome ∨ ∃ org, members = some org ∧ (s.get org clients name).isSome

theorem leads_knownActor :
    Leads exec inv (knownActor members name) s fun found t =>
      t = s ∧ (found → FoundIn s members name) := by
  unfold Leads knownActor
  rw [run_get_bind]
  cases user : (s.get global users name).isSome with
  | true => exact ⟨rfl, fun _ => .inl user⟩
  | false =>
    cases members with
    | none => exact ⟨rfl, nofun⟩
    | some org => exact ⟨rfl, fun client => .inr ⟨org, rfl, client⟩⟩

theorem leads_unknownACEMembers {ace : Object} (holds : inv s) :
    Leads exec inv (unknownACEMembers members ace) s fun missing t => t = s ∧
      (missing.1 = [] → ∀ actor ∈ jsonStrings (field ace (lit "actors")), FoundIn s members actor) := by
  refine (leads_unknown (fun _ => leads_knownActor) _).past fun actors known => ?_
  cases members with
  | none => exact leads_pure ⟨rfl, known⟩
  | some org =>
    have group (name : GoString) : (knownGroup org name).Only ReadOnly :=
      readOnly_reads.only_get.bind fun _ => only_pure _
    have found (name : GoString) : Leads exec inv (knownGroup org name) s fun found t =>
      t = s ∧ (found → True) :=
      (leads_reads (group name) holds).mono fun _ _ same => ⟨same, fun _ => trivial⟩
    refine (leads_unknown found _).past fun groups _ => ?_
    exact leads_pure ⟨rfl, known⟩

theorem settled_bodyEntry (decoded : unmarshalMap r.body = some body) :
    SettledMap (contents (bodyEntry body perm)) := by
  have whole : SettledMap (contents body) := by
    cases body with
    | none => exact settledMap_empty
    | some body => exact settledMap_of_unmarshalMap decoded
  unfold bodyEntry
  split
  · next inner read => exact settledMap_of_asMap (settled_field whole perm) read
  · exact whole

theorem leads_updateACLPermDoc {scope typ : GoString} (holds : inv s)
    (stored : ∀ acl ace, perm ∈ aclPerms → (aclObjectExists scope typ name).run exec s = (.ok true, s) →
      (aclOfRaw typ name (s.get scope aclsColl (aclKey typ name))).acl = some acl → SettledMap (contents ace) →
      (∀ actor ∈ jsonStrings (field (contents ace) (lit "actors")), FoundIn s members actor) →
      inv (s.put scope aclsColl (aclKey typ name) (mustEncode (some (acl.insert perm (mapValue ace)))))) :
    Leads exec inv (updateACLPermDoc r scope members typ name perm status) s fun _ => inv := by
  unfold updateACLPermDoc
  refine leads_guard holds fun isPerm => ?_
  refine (leads_result readOnly_reads.only_aclObjectExists holds).past fun found exists_run => ?_
  refine leads_guard holds fun isFound => ?_
  have found : found = true := by simpa using isFound
  subst found
  refine (leads_decodeBody holds).past fun body decoded => ?_
  have rest : Leads exec inv (do
      let unknown ← unknownACEMembers members (contents (bodyEntry body perm))
      if unknown.1 ≠ [] ∨ unknown.2 ≠ [] then Program.stop (.error 400 (unknownMessages unknown.1 unknown.2))
      let loaded ← loadACL scope typ name
      let acl ← assign loaded.acl perm (mapValue (bodyEntry body perm))
      Org.put scope aclsColl (aclKey typ name) (mustEncode acl)
      return Response.json status (mustEncode (some (Std.ExtTreeMap.ofList [(perm, mapValue (bodyEntry body perm))])))) s
        fun _ => inv := by
    refine (leads_unknownACEMembers holds).then ?_
    rintro ⟨actors, groups⟩ s ⟨rfl, known⟩
    refine leads_guard holds fun nobody => ?_
    have nobody : actors = [] := by
      by_contra some
      exact nobody (.inl some)
    have loads : (loadACL scope typ name).run exec s =
      (.ok (aclOfRaw typ name (s.get scope aclsColl (aclKey typ name))), s) := rfl
    refine leads_bind.mpr (leads_of_run loads ?_)
    cases read : (aclOfRaw typ name (s.get scope aclsColl (aclKey typ name))).acl with
    | none => exact leads_stop holds
    | some acl => exact stored acl _ (not_not.mp isPerm) exists_run read (settled_bodyEntry decoded) (known nobody)
  dsimp only
  refine leads_ite (fun _ => ?_) fun _ => rest
  refine (leads_reads readOnly_reads.only_removesAdminsFromGrant holds).still fun removes => ?_
  exact leads_guard holds fun _ => rest

theorem leads_holdsInvite {user id : GoString} (holds : inv s) :
    Leads exec inv (holdsInvite user id org) s fun held t => t = s ∧ (held → s.hasOrg org ∧
      ∃ raw, s.get org assocReqColl id = some raw ∧ inviteString (lit "username") raw = some user) := by
  unfold Leads holdsInvite
  rw [run_lookupOrg_bind]
  cases present : s.hasOrg org with
  | false => exact ⟨rfl, nofun⟩
  | true =>
    simp only [Bool.not_true, Bool.false_eq_true, if_false, run_get_bind]
    cases found : s.get org assocReqColl id with
    | none => exact ⟨rfl, nofun⟩
    | some raw =>
      cases named : inviteString (lit "username") raw with
      | none =>
        simp only [named]
        exact holds
      | some username =>
        simp only [named]
        refine ⟨rfl, fun same => ⟨trivial, raw, rfl, ?_⟩⟩
        rw [named, of_decide_eq_true same]

theorem leads_findInvite {user id : GoString} (holds : inv s) (orgs : List GoString) :
    Leads exec inv (findInvite user id orgs) s fun found t =>
      t = s ∧ ∀ org, found = some org → s.hasOrg org ∧
      ∃ raw, s.get org assocReqColl id = some raw ∧ inviteString (lit "username") raw = some user := by
  induction orgs with
  | nil => exact ⟨rfl, nofun⟩
  | cons org orgs ih =>
    refine (leads_holdsInvite holds).past fun held known => ?_
    cases held with
    | true =>
      refine leads_pure ⟨rfl, ?_⟩
      rintro _ ⟨⟩
      exact known rfl
    | false => exact ih

def consumeInvite (org user id : GoString) (answer : Answer) : Handler Response := do
  let _ ← Org.delete org assocReqColl id
  if answer = .accept then joinOrg org user
  return .json 200 (encodeMap [(lit "organization", .object [(lit "name", .string org)])])

theorem within_consumeInvite {user id : GoString} {answer : Answer} :
    (consumeInvite org user id answer).Only (Within org ⟨[assocColl, groupMembersColl], [assocReqColl]⟩) :=
  (within_delete (by simp)).bind fun _ => only_guard (within_joinOrg (by simp) (by simp)) (only_pure _)

theorem leads_respondInvite {user id : GoString} (holds : inv s)
    (consumed : ∀ org raw answer, s.hasOrg org → s.get org assocReqColl id = some raw →
      inviteString (lit "username") raw = some user →
      Leads exec inv (consumeInvite org user id answer) s fun _ => inv) :
    Leads exec inv (respondInvite r user id) s fun _ => inv := by
  refine (leads_reads only_requireInvitee holds).still fun _ => ?_
  refine (leads_reads readOnly_reads.only_listOrgs holds).still fun orgs => ?_
  refine (leads_findInvite holds orgs).past fun found known => ?_
  cases found with
  | none => exact leads_stop holds
  | some org =>
    obtain ⟨present, raw, stored, named⟩ := known org rfl
    refine (leads_reads only_decodeAnswer holds).still fun answer => ?_
    refine leads_ite (fun _ => ?_) fun _ => consumed org raw answer present stored named
    refine (leads_reads readOnly_reads.only_requireInviter holds).still fun _ => ?_
    exact consumed org raw answer present stored named

def newOrgName (r : Request) : GoString :=
  str (field (contents ((unmarshalMap r.body).getD none)) (lit "name"))

def furnishOrg (env : Env) (name fullName : GoString) : Handler Unit := do
  seedOrg name
  Org.put global orgsColl name (orgMeta env name fullName)
  Org.put name clients (validatorName name) (validatorDoc env name)
  Org.put name aclsColl (aclKey containersColl clients) (mustEncode (some (validatorClientsACL (validatorName name))))

theorem run_createOrg_bind (f : Bool → Handler α) :
    (createOrg name >>= f).run exec s = (f (s.createOrg name).2.isNone).run exec (s.createOrg name).1 := rfl

theorem leads_createOrganizationWithKey {env : Env} {post : Unit → Store → Prop}
    (refused : s.hasOrg name → inv s)
    (furnished : s.hasOrg name = false → Leads exec inv (furnishOrg env name fullName) (s.createOrg name).1 post) :
    Leads exec inv (createOrganizationWithKey env name fullName) s post := by
  unfold Leads
  cases present : s.hasOrg name with
  | true =>
    have ran : (createOrganizationWithKey env name fullName).run exec s =
        (.error (.error 409 [lit "Organization already exists"]), s) := by
      rw [createOrganizationWithKey, run_createOrg_bind, Store.MemoryBackend.createOrg, present]
      rfl
    rw [ran]
    exact refused present
  | false =>
    have fresh : (s.createOrg name).2 = none := by
      rw [Store.MemoryBackend.createOrg, present]
      rfl
    have ran : (createOrganizationWithKey env name fullName).run exec s =
        (furnishOrg env name fullName).run exec (s.createOrg name).1 := by
      rw [createOrganizationWithKey, run_createOrg_bind, fresh]
      rfl
    rw [ran]
    exact furnished present

theorem leads_createOrganization {env : Env} (holds : inv s)
    (furnished : ∀ fullName, orgNameRE (newOrgName r) → s.hasOrg (newOrgName r) = false →
      Leads exec inv (furnishOrg env (newOrgName r) fullName) (s.createOrg (newOrgName r)).1 fun _ => inv) :
    Leads exec inv (createOrganization env r) s fun _ => inv := by
  refine (leads_decodeBody holds).past fun obj decoded => ?_
  have named : newOrgName r =
      str (field (contents obj) (lit "name")) := by rw [newOrgName, decoded]; rfl
  refine (leads_refuseIf holds).past fun _ _ => ?_
  refine (leads_refuseIf holds).past fun _ valid => ?_
  refine (leads_refuseIf holds).past fun _ _ => ?_
  refine (leads_refuseIf holds).past fun _ _ => ?_
  rw [← named] at valid ⊢
  have valid : orgNameRE (newOrgName r) := by simpa using valid
  exact (leads_createOrganizationWithKey (fun _ => holds) (furnished _ valid)).then fun _ _ kept =>
    leads_pure kept

theorem orgName_ne_global (valid : orgNameRE name) : name ≠ global := by
  rintro rfl
  cases valid

def seedWrites : Footprint := ⟨[environmentsColl, groupsColl, containersColl], []⟩

theorem within_seedOrg : (seedOrg org).Only (Within org seedWrites) := by
  have seeds {coll key : GoString} {doc : Raw} (mem : coll ∈ seedWrites.puts) :
      (seed org coll key doc).Only (Within org seedWrites) :=
    within_reads.only_get.bind fun _ => only_ite (fun _ => within_put mem) fun _ => only_pure _
  exact (seeds (by decide)).bind fun _ => (only_forM (fun _ => seeds (by decide)) _).bind fun _ =>
    only_forM (fun _ => seeds (by decide)) _

def seeded (org coll key : GoString) (doc : Raw) (s : Store) : Store :=
  if (s.get org coll key).isNone then s.put org coll key doc else s

theorem run_seed {coll key : GoString} :
    (seed org coll key doc).run exec s = (.ok (), seeded org coll key doc s) := by
  rw [seed, run_get_bind, seeded]
  split <;> rfl

theorem isSome_seeded {coll key key' : GoString}
    (found : coll = coll' ∧ key = key' ∨ (s.get org coll' key').isSome) :
    ((seeded org coll key doc s).get org coll' key').isSome := by
  unfold seeded
  split
  · rw [get_put]
    split_ifs with here
    · rfl
    · exact found.resolve_left fun same => here ⟨rfl, same⟩
  · next taken =>
    rcases found with ⟨rfl, rfl⟩ | found
    · exact Option.isSome_iff_ne_none.mpr (by simpa using taken)
    · exact found

theorem isSome_foldl_seeded {coll key : GoString} {docs : GoString → Raw} {keys : List GoString}
    (found : coll = coll' ∧ key ∈ keys ∨ (s.get org coll' key).isSome) :
    ((keys.foldl (fun s name => seeded org coll name (docs name) s) s).get org coll' key).isSome := by
  induction keys generalizing s with
  | nil => exact found.resolve_left (by simp)
  | cons first rest ih =>
    refine ih ?_
    rcases found with ⟨same, mem⟩ | found
    · rcases List.mem_cons.mp mem with rfl | mem
      · exact .inr (isSome_seeded (.inl ⟨same, rfl⟩))
      · exact .inl ⟨same, mem⟩
    · exact .inr (isSome_seeded (.inr found))

theorem seedOrg_defaults (org : GoString) (s : Store) :
    ∃ t, (seedOrg org).run exec s = (.ok (), t) ∧
    (∀ group ∈ defaultGroups, (t.get org groupsColl group).isSome) ∧
      ∀ container ∈ defaultContainers, (t.get org containersColl container).isSome := by
  rw [seedOrg, run_bind_of_ok run_seed, seedAuthz,
    run_bind_of_ok (run_forM (fun _ _ => run_seed) _ _)]
  refine ⟨_, run_forM (fun _ _ => run_seed) _ _, fun group mem => ?_, fun container mem => ?_⟩
  · exact isSome_foldl_seeded (.inr (isSome_foldl_seeded (.inl ⟨rfl, mem⟩)))
  · exact isSome_foldl_seeded (.inl ⟨rfl, mem⟩)

def register (env : Env) (name fullName : GoString) (s : Store) : Store :=
  ((s.put global orgsColl name (orgMeta env name fullName)).put name clients (validatorName name)
    (validatorDoc env name)).put name aclsColl (aclKey containersColl clients)
      (mustEncode (some (validatorClientsACL (validatorName name))))

theorem run_createOrganizationWithKey {env : Env} (absent : s.hasOrg name = false) :
    ∃ t, Frame name seedWrites (s.createOrg name).1 t ∧
      (createOrganizationWithKey env name fullName).run exec s = (.ok (), register env name fullName t) := by
  have frame := frame_run (@within_seedOrg name) (s.createOrg name).1
  obtain ⟨t, ran, -⟩ := seedOrg_defaults name (s.createOrg name).1
  rw [ran] at frame
  have fresh : (s.createOrg name).2 = none := by
    rw [Store.MemoryBackend.createOrg, absent]
    rfl
  refine ⟨t, frame, ?_⟩
  rw [createOrganizationWithKey, run_createOrg_bind, fresh]
  refine (run_bind_of_ok (show (refuseIf _ 409 _).run exec _ = (.ok (), _) from rfl) _).trans ?_
  rw [run_bind_of_ok ran]
  rfl

theorem leads_furnishOrg {env : Env}
    (seeded : Leads exec inv (seedOrg name) s fun _ t => inv (register env name fullName t)) :
    Leads exec inv (furnishOrg env name fullName) s fun _ => inv :=
  seeded.then fun _ _ holds => holds

theorem leads_deleteOrganization (unlisted : ∀ {t}, Frame global ⟨[], [orgsColl]⟩ s t → inv t)
    (gone : ∀ {t}, Frame global ⟨[], [orgsColl]⟩ s t → inv (t.deleteOrg name).1) :
    Leads exec inv (deleteOrganization name) s fun _ => inv := by
  have dropped : Frame global ⟨[], [orgsColl]⟩ s (s.delete global orgsColl name).1 :=
    frame_delete (by simp) s
  rw [leads_iff, deleteOrganization, run_delete_bind]
  cases (s.delete global orgsColl name).2 with
  | none => exact unlisted dropped
  | some raw => exact gone dropped

structure Placed (s : Store) : Prop where
  named : ∀ org, s.hasOrg org → orgNameRE org
  placed : ∀ {org coll key}, (s.get org coll key).isSome → Available s org

theorem Placed.noGlobal (placed : Placed s) : s.hasOrg global = false := by
  by_contra present
  exact orgName_ne_global (placed.named global (Bool.not_eq_false _ ▸ present)) rfl

theorem Placed.of_le (placed : Placed s) (orgs : t.orgs = s.orgs)
    (le : ∀ org coll key, (t.get org coll key).isSome → Available s org) : Placed t :=
  ⟨fun org present => placed.named org ((hasOrg_congr orgs org).symm.trans present), fun {org coll key} found =>
    (le org coll key found).imp_right ((hasOrg_congr orgs org).trans ·)⟩

theorem Placed.frame (placed : Placed s) (there : Available s org)
    {t : Store} (frame : Frame org f s t) : Placed t := by
  refine placed.of_le frame.orgs fun org' coll key found => ?_
  by_cases here : org' = org
  · exact here ▸ there
  · rw [frame.elsewhere here] at found
    exact placed.placed found

theorem Placed.deleted (placed : Placed s) (deleted : Deleted s t who) : Placed t := by
  refine placed.of_le deleted.orgs fun org coll key found => ?_
  by_cases own : IsOwn who org coll key
  · rw [deleted.own _ _ _ own] at found
    cases found
  · obtain ⟨raw, stored⟩ := Option.isSome_iff_exists.mp found
    obtain ⟨old, before, -⟩ := (deleted.swept _ _ _ own).from_stored raw stored
    exact placed.placed (Option.isSome_of_eq_some before)

theorem placed_createOrg (placed : Placed s) (valid : orgNameRE name) :
    Placed (s.createOrg name).1 := by
  refine ⟨fun org present => ?_, fun {org coll key} found => ?_⟩
  · rw [Proof.Store.hasOrg_createOrg, Bool.or_eq_true, beq_iff_eq] at present
    rcases present with rfl | present
    · exact valid
    · exact placed.named org present
  · rw [Proof.Store.get_createOrg] at found
    refine (placed.placed found).imp_right fun present => ?_
    rw [Proof.Store.hasOrg_createOrg, present, Bool.or_true]

theorem placed_deleteOrg (placed : Placed s) : Placed (s.deleteOrg name).1 := by
  refine ⟨fun org present => ?_, fun {org coll key} found => ?_⟩
  · rw [Proof.Store.hasOrg_deleteOrg, Bool.and_eq_true] at present
    exact placed.named org present.2
  · rw [Proof.Store.get_deleteOrg] at found
    split_ifs at found with gone
    · cases found
    · refine (placed.placed found).imp_right fun present => ?_
      rw [Proof.Store.hasOrg_deleteOrg, present, Bool.and_true, bne_iff_ne]
      rintro rfl
      exact gone ⟨present, rfl⟩

theorem placed_furnish {env : Env} (placed : Placed s) (there : s.hasOrg name) :
    Leads exec Placed (furnishOrg env name fullName) s fun _ => Placed := by
  have put {t : Store} {org coll key : GoString} {raw : Raw} (placed : Placed t) (there : Available t org) :
      Placed (t.put org coll key raw) := placed.frame there (frame_put_one t)
  have seeded (t : Store) (frame : Frame name seedWrites s t) : Placed t :=
    placed.frame (.inr there) frame
  refine leads_furnishOrg ((leads_within within_seedOrg seeded).mono fun _ t frame => ?_)
  have here : t.hasOrg name := (frame.hasOrg name).trans there
  exact put (put (put (seeded t frame) (.inl rfl)) (.inr here)) (.inr here)

def Framed : ApiRequest → Prop
  | .actor _ (.delete ..) | .organization (.create ..) | .organization (.delete _) => False
  | _ => True

def footprint : ApiRequest → Footprint
  | .actor route (.create ..) => ⟨[passwordsCollection, route.segment, aclsColl, groupMembersColl], []⟩
  | .actor route (.put _ _ name) => ⟨[keysColl route.segment name, route.segment, passwordsCollection], []⟩
  | .actor route (.key name _) => ⟨[keysColl route.segment name, route.segment], [keysColl route.segment name]⟩
  | .actor _ (.delete ..) => ⟨[], []⟩
  | .acl .. => ⟨[aclsColl], []⟩
  | .organization _ => ⟨[orgsColl], []⟩
  | .membership _ request => membershipWrites request
  | .respond .. => ⟨[assocColl, groupMembersColl], [assocReqColl]⟩
  | .object _ request => objectWrites request
  | .policy _ request => policyWrites request
  | .cookbook _ _ request => cookbookWrites request

theorem leads_framed [Unicode] {request : ApiRequest} (framed : Framed request) (holds : inv s)
    (kept : ∀ space t, Available s space → Frame space (footprint request) s t → inv t) :
    Leads exec inv (request.handler enforceACL) s fun _ => inv := by
  cases request with
  | actor route request =>
    cases request with
    | create env r =>
      exact leads_route (within_reads.only_scope.bind fun _ => within_createActor) holds fun resolves t =>
        kept _ t resolves.available
    | put env r name => exact leads_route within_putActor holds fun resolves t => kept _ t resolves.available
    | key name request =>
      have within := @within_key name route request
      cases request <;> exact leads_route within holds fun resolves t => kept _ t resolves.available
    | delete => cases framed
  | acl r perm request => exact leads_acl holds fun there t => kept _ t there
  | organization request =>
    cases request with
    | put r name => exact leads_iff.mpr (kept _ _ (.inl rfl) (frame_run within_putOrganization s))
    | create | delete => cases framed
  | membership org request => exact leads_membership holds fun there t => kept _ t (.inr there)
  | respond r user id =>
    refine leads_respondInvite holds fun org raw answer there _ _ => ?_
    exact leads_iff.mpr (kept _ _ (.inr there) (frame_run within_consumeInvite s))
  | object org request => exact leads_object holds fun there t => kept _ t (.inr there)
  | policy org request => exact leads_policy holds fun there t => kept _ t (.inr there)
  | cookbook files org request => exact leads_cookbook holds fun there t => kept _ t (.inr there)

theorem unframed_cases {request : ApiRequest} (unframed : ¬ Framed request) :
    (∃ route r name, request = .actor route (.delete r name)) ∨ (∃ env r, request = .organization (.create env r)) ∨
      ∃ name, request = .organization (.delete name) := by
  cases request with
  | actor route request | organization request => cases request <;> simp_all [Framed]
  | _ => exact absurd trivial unframed

theorem placed_request [Unicode] (placed : Placed s) (request : ApiRequest) :
    Leads exec Placed (request.handler enforceACL) s fun _ => Placed := by
  by_cases framed : Framed request
  · exact leads_framed framed placed fun _ _ there frame => placed.frame there frame
  obtain ⟨route, r, name, rfl⟩ | ⟨env, r, rfl⟩ | ⟨name, rfl⟩ := unframed_cases framed
  · exact leads_deleteActor placed.noGlobal placed fun _ _ deleted => placed.deleted deleted
  · refine leads_createOrganization placed fun fullName valid _ => ?_
    refine placed_furnish (placed_createOrg placed valid) ?_
    rw [Proof.Store.hasOrg_createOrg, beq_self_eq_true, Bool.true_or]
  · exact leads_deleteOrganization (placed.frame (.inl rfl)) fun frame =>
      placed_deleteOrg (placed.frame (.inl rfl) frame)

theorem placed_of_serves [Unicode] {admitted : ApiRequest → Store → Prop}
    (reached : Serves enforceACL admitted s) : Placed s := by
  exact Session.invariant reached ⟨nofun, nofun⟩ fun request s _ _ placed =>
    placed_request placed request

def serveAll [Unicode] (enforceACL : Bool) (requests : List ApiRequest) (s : Store) : Store :=
  requests.foldl (fun s request => ((request.handler enforceACL).run exec s).2) s

theorem Serves.all [Unicode] {admitted : ApiRequest → Store → Prop}
    (reached : Serves enforceACL admitted s)
    {requests : List ApiRequest} (ok : ∀ request ∈ requests, ∀ t, admitted request t) :
    Serves enforceACL admitted (serveAll enforceACL requests s) :=
  Session.all reached ok

def keyedEnv : Env := ⟨lit "key", lit "key", [], id, fun _ => false⟩

def createsKeyed (caller : Option Actor) (name : GoString) : ApiRequest :=
  .actor .users (.create keyedEnv { creates [(lit "name", .string name), (lit "display_name", .string name),
    (lit "external_authentication_uid", .string name), (lit "create_key", .bool true)] with actor := caller })

end CincServer.Proof.Api
