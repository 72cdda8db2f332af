import CincServer.Api.AuthzEnforce
import CincServer.Api.Organizations
import CincServer.Lib.Journal
import CincServer.Lib.Table
import CincServer.Proof.Store.Memory

/-!
# What one store call does to a handler's run
-/

namespace CincServer.Proof.Api
open CincServer.Api CincServer.Json Go Lib Program
open Store.MemoryBackend (create keys range delete)

variable {α : Type} {org coll key : GoString} {val : Raw} {s : Store}

@[simp] theorem run_get_bind (next : Option Raw → Handler α) :
    (Org.get org coll key >>= next).run exec s = (next (s.get org coll key)).run exec s := rfl

@[simp] theorem run_put :
    (Org.put org coll key val).run exec s = (.ok (), s.put org coll key val) := rfl

@[simp] theorem run_put_bind (next : Unit → Handler α) :
    (Org.put org coll key val >>= next).run exec s = (next ()).run exec (s.put org coll key val) := rfl

@[simp] theorem run_delete_bind (next : Option Raw → Handler α) :
    (Org.delete org coll key >>= next).run exec s =
      (next (s.delete org coll key).2).run exec (s.delete org coll key).1 := rfl

@[simp] theorem run_keys_bind (next : List GoString → Handler α) :
    (Org.keys org coll >>= next).run exec s = (next (s.keys org coll)).run exec s := rfl

@[simp] theorem run_range_bind (next : List (GoString × Raw) → Handler α) :
    (Org.range org coll >>= next).run exec s = (next (s.range org coll)).run exec s := rfl

theorem run_create_bind (next : Bool → Handler α) :
    (Org.create org coll key val >>= next).run exec s =
      (next (s.create org coll key val).2.isNone).run exec (s.create org coll key val).1 := rfl

theorem create_of_isSome (taken : (s.get org coll key).isSome) :
    s.create org coll key val = (s, some .errConflict) := by
  obtain ⟨raw, found⟩ := Option.isSome_iff_exists.mp taken
  rw [create, found]

theorem create_of_none (free : s.get org coll key = none) :
    s.create org coll key val = (s.put org coll key val, none) := by
  rw [create, free]
  rfl

theorem run_lookupOrg_bind (f : Bool → Handler α) :
    (lookupOrg org >>= f).run exec s = (f (s.hasOrg org)).run exec s := rfl

theorem run_resolveOrg_bind (present : s.hasOrg org) (f : Unit → Handler α) :
    (resolveOrg org >>= f).run exec s = (f ()).run exec s := by
  rw [run_bind, resolveOrg, run_lookupOrg_bind, present]
  rfl

theorem run_resolveOrg_absent (absent : s.hasOrg org = false) (f : Unit → Handler α) :
    (resolveOrg org >>= f).run exec s = (.error (.error 404 [lit "Cannot find org " ++ org]), s) := by
  rw [run_bind, resolveOrg, run_lookupOrg_bind, absent]
  rfl

theorem mustExist_ok {t : Store} {message : GoString}
    (ran : (mustExist org coll key message).run exec s = (.ok (), t)) : t = s := by
  simp only [mustExist, run_get_bind] at ran
  cases found : s.get org coll key with
  | none => simp [found, writeError] at ran
  | some raw => simpa [found, eq_comm] using ran

theorem mem_range {row : GoString × Raw} :
    row ∈ s.range org coll ↔ s.get org coll row.1 = some row.2 :=
  Std.ExtTreeMap.mem_toList_iff_getElem?_eq_some

theorem holds_range (s : Store) (org coll key : GoString) :
    Holds (s.range org coll) key (s.get org coll key) := fun _ => mem_range

theorem mem_keys : key ∈ s.keys org coll ↔ (s.get org coll key).isSome := by
  rw [keys, (perm_sortStrings _).mem_iff, Std.ExtTreeMap.mem_keys,
    Std.ExtTreeMap.mem_iff_isSome_getElem?]
  rfl

theorem nodup_keys : (s.keys org coll).Nodup :=
  (perm_sortStrings _).nodup_iff.mpr Std.ExtTreeMap.nodup_keys

theorem nodup_range_fst : ((s.range org coll).map Prod.fst).Nodup := by
  rw [range, Std.ExtTreeMap.map_fst_toList_eq_keys]
  exact Std.ExtTreeMap.nodup_keys

theorem get_put (s : Store) (org coll key : GoString) (val : Raw) (org' coll' key' : GoString) :
    (s.put org coll key val).get org' coll' key' =
      if org = org' ∧ coll = coll' ∧ key = key' then some val else s.get org' coll' key' :=
  Proof.Store.get_set s org coll key val org' coll' key'

theorem get_put_of_ne {org coll key org' coll' key' : GoString} {val : Raw} (other : coll ≠ coll') :
    (s.put org coll key val).get org' coll' key' = s.get org' coll' key' := by
  rw [get_put, if_neg fun here => other here.2.1]

theorem get_delete (s : Store) (org coll key org' coll' key' : GoString) :
    (s.delete org coll key).1.get org' coll' key' =
      if org = org' ∧ coll = coll' ∧ key = key' then none else s.get org' coll' key' :=
  Proof.Store.get_delete s org coll key org' coll' key'

theorem delete_snd (s : Store) (org coll key : GoString) :
    (s.delete org coll key).2 = s.get org coll key := by
  rw [delete]
  cases s.get org coll key <;> rfl

theorem delete_of_none (absent : s.get org coll key = none) : (s.delete org coll key).1 = s := by
  rw [delete, absent]

theorem get_foldl_rows (rewrite : GoString → Option Raw → Option Raw)
    {effect : GoString → Store → Store}
    (one : ∀ key s org' coll' key', (effect key s).get org' coll' key' =
      if org = org' ∧ coll = coll' ∧ key = key' then rewrite key (s.get org coll key)
      else s.get org' coll' key')
    {keys : List GoString} (distinct : keys.Nodup) (s : Store) (org' coll' key' : GoString) :
    (keys.foldl (fun s key => effect key s) s).get org' coll' key' =
      if org = org' ∧ coll = coll' ∧ key' ∈ keys then rewrite key' (s.get org coll key')
      else s.get org' coll' key' := by
  induction keys generalizing s with
  | nil => simp
  | cons key rest ih =>
    obtain ⟨fresh, distinct⟩ := List.nodup_cons.mp distinct
    rw [List.foldl_cons, ih distinct]
    by_cases here : org = org' ∧ coll = coll'
    · obtain ⟨rfl, rfl⟩ := here
      by_cases first : key = key'
      · subst first
        simp [fresh, one]
      · simp [one, first, Ne.symm first]
    · have := one key s org' coll' key'
      simp only [← and_assoc, here, false_and, if_false] at this ⊢
      exact this

theorem deleteAll_get (org coll : GoString) {keys : List GoString} (distinct : keys.Nodup)
    (s : Store) :
    ∃ t, (deleteAll org coll keys).run exec s = (.ok (), t) ∧
      ∀ org' coll' key, t.get org' coll' key =
        if org = org' ∧ coll = coll' ∧ key ∈ keys then none else s.get org' coll' key :=
  ⟨_, run_forM (fun _ _ => rfl) keys s, get_foldl_rows (fun _ _ => none)
    (fun key s => get_delete s org coll key) distinct s⟩

theorem deleteRows_get (org coll : GoString) (marked : GoString → Bool) (s : Store) :
    ∃ t, (deleteAll org coll (((s.range org coll).map Prod.fst).filter marked)).run exec s =
      (.ok (), t) ∧
      ∀ org' coll' key, t.get org' coll' key =
        if org = org' ∧ coll = coll' ∧ marked key then none else s.get org' coll' key := by
  obtain ⟨t, ran, gets⟩ := deleteAll_get org coll (nodup_range_fst.filter marked) s
  refine ⟨t, ran, fun org' coll' key => ?_⟩
  rw [gets]
  by_cases here : org = org' ∧ coll = coll'
  · obtain ⟨rfl, rfl⟩ := here
    cases found : s.get org coll key with
    | none => simp
    | some raw =>
      have mem : key ∈ (s.range org coll).map Prod.fst :=
        List.mem_map.mpr ⟨(key, raw), mem_range.mpr found, rfl⟩
      simp [List.mem_filter, mem]
  · simp only [← and_assoc, here, false_and, if_false]

/-! ## The calls a handler makes -/

variable {α : Type} {allowed : StoreCall → Prop} {org coll key name segment : GoString} {r : Request}
  {message user typ id actor : GoString} {obj : Option Object} {env : Env}
  {status : Nat} {group perm : GoString} {ace : Object} {kind : MemberKind}

theorem only_refuseIf {condition : Prop} [Decidable condition] :
    (refuseIf condition status message).Only allowed :=
  only_ite (fun _ => only_stop _) fun _ => only_pure _

theorem only_refuseWith {message : Option GoString} : (refuseWith status message).Only allowed := by
  cases message with
  | none => exact only_pure _
  | some message => exact only_stop _

theorem only_decodeBody : (decodeBody r).Only allowed := by
  unfold decodeBody
  split
  · exact only_pure _
  · exact only_stop _

theorem only_decodeObjectBody : (decodeObjectBody r).Only allowed := by
  unfold decodeObjectBody
  split
  · exact only_pure _
  · exact only_stop _

theorem only_assign {v : Value} : (assign obj name v).Only allowed := by
  cases obj with
  | none => exact only_stop _
  | some m => exact only_pure _

theorem only_requireInvitee : (requireInvitee r user).Only allowed := by
  unfold requireInvitee
  split
  · exact only_pure _
  · exact only_ite (fun _ => only_pure _) fun _ => only_stop _

theorem only_decodeAnswer : (decodeAnswer r).Only allowed := by
  unfold decodeAnswer
  split
  · exact only_stop _
  · exact only_ite (fun _ => only_pure _) fun _ => only_ite (fun _ => only_pure _) fun _ =>
      only_stop _

theorem only_createBody [Unicode] : (createBody env r segment).Only allowed := by
  have valid (name : GoString) (obj : Option Object) :
      (validateActor segment name obj).Only allowed := by
    refine only_ite (fun _ => ?_) fun _ => only_ite (fun _ => only_stop _) fun _ => only_pure _
    split
    · exact only_stop _
    · exact only_pure _
  exact only_decodeBody.bind fun _ => only_refuseIf.bind fun _ => (valid _ _).bind fun _ =>
    only_refuseIf.bind fun _ => only_refuseWith.bind fun _ => only_pure _

theorem only_recordKey {generate : Bool} : (recordKey env generate obj).Only allowed :=
  only_ite (fun _ => only_assign) fun _ => only_ite (fun _ => only_assign) fun _ => only_pure _

theorem only_updateBody : (updateBody r).Only allowed := by
  refine only_decodeBody.bind fun obj => only_ite (fun _ => ?_) fun _ => only_pure _
  dsimp only
  split
  · exact (only_stop _).bind fun _ => only_pure _
  · exact only_pure _

theorem only_mustExist_of_get (ok : allowed (.get org coll key)) :
    (mustExist org coll key message).Only allowed := by
  have reads : (Org.get org coll key).Only allowed := only_perform ok
  refine reads.bind (only_option (only_stop _) fun _ => ?_)
  exact only_pure _

structure Reads (allowed : StoreCall → Prop) : Prop where
  get : ∀ {org coll key}, allowed (.get org coll key)
  keys : ∀ {org coll}, allowed (.keys org coll)
  range : ∀ {org coll}, allowed (.range org coll)
  listOrgs : allowed .listOrgs
  hasOrg : ∀ {name}, allowed (.hasOrg name)

namespace Reads

variable (reads : Reads allowed)

include reads

theorem only_get : (Org.get org coll key).Only allowed := only_perform reads.get

theorem only_keys : (Org.keys org coll).Only allowed := only_perform reads.keys

theorem only_range : (Org.range org coll).Only allowed := only_perform reads.range

theorem only_lookupOrg : (lookupOrg org).Only allowed := only_perform reads.hasOrg

theorem only_listOrgs : (Api.listOrgs).Only allowed := only_perform reads.listOrgs

theorem only_resolveOrg : (resolveOrg org).Only allowed :=
  reads.only_lookupOrg.bind fun _ => only_refuseIf

theorem only_scope {route : ActorRoute} : route.scope.Only allowed := by
  cases route with
  | users => exact only_pure _
  | clients org => exact reads.only_resolveOrg

theorem only_mustExist : (mustExist org coll key message).Only allowed :=
  only_mustExist_of_get reads.get

theorem only_viewObject : (viewObject r org coll key).Only allowed := by
  unfold viewObject
  split
  · exact reads.only_get
  · exact only_ite (fun _ => only_pure _) fun _ => reads.only_get

theorem only_mustView : (mustView r org coll key message).Only allowed :=
  reads.only_viewObject.bind fun _ => only_refuseIf

theorem only_groupMembership : (groupMembership org group).Only allowed :=
  reads.only_get.bind fun _ => reads.only_range.bind fun _ => only_pure _

theorem only_actorGroups {actor : Actor} : (actorGroups org actor).Only allowed := by
  have index : (buildGroupIndex org).Only allowed :=
    reads.only_range.bind fun _ => reads.only_range.bind fun _ => only_pure _
  exact index.bind fun _ => only_pure _

theorem only_keepKnown (names : List GoString) : (keepKnown org coll names).Only allowed := by
  induction names with
  | nil => exact only_pure _
  | cons name names ih => exact reads.only_get.bind fun _ => ih.bind fun _ => only_pure _

theorem only_knownGroupMembers (m : MemberLists) : (knownGroupMembers org m).Only allowed :=
  (reads.only_keepKnown _).bind fun _ => (reads.only_keepKnown _).bind fun _ =>
    (reads.only_keepKnown _).bind fun _ => only_pure _

theorem only_loadACL : (loadACL org typ name).Only allowed :=
  reads.only_get.bind fun _ => only_pure _

theorem only_aclObjectExists : (aclObjectExists org typ name).Only allowed :=
  only_ite (fun _ => only_pure _) fun _ =>
    only_ite (fun _ => reads.only_get.bind fun _ => only_pure _) fun _ =>
    only_ite (fun _ => reads.only_range.bind fun _ => only_pure _) fun _ =>
    only_ite (fun _ => reads.only_keys.bind fun _ => only_pure _) fun _ =>
    reads.only_get.bind fun _ => only_pure _

theorem only_unknownACEMembers {members : Option GoString} :
    (unknownACEMembers members ace).Only allowed := by
  have each {known : GoString → Handler Bool} (one : ∀ name, (known name).Only allowed)
      (names : List GoString) : (unknown known names).Only allowed := by
    induction names with
    | nil => exact only_pure _
    | cons name names ih => exact (one name).bind fun _ => ih.bind fun _ => only_pure _
  have actor (name : GoString) : (knownActor members name).Only allowed := by
    refine reads.only_get.bind fun _ => only_ite (fun _ => only_pure _) fun _ => ?_
    cases members with
    | none => exact only_pure _
    | some org => exact reads.only_get.bind fun _ => only_pure _
  have group (org name : GoString) : (knownGroup org name).Only allowed :=
    reads.only_get.bind fun _ => only_pure _
  refine (each actor _).bind fun _ => ?_
  cases members with
  | none => exact only_pure _
  | some org => exact (each (group org) _).bind fun _ => only_pure _

theorem only_removesAdminsFromGrant :
    (removesAdminsFromGrant r org typ name perm ace).Only allowed := by
  refine only_ite (fun _ => only_pure _) fun _ => ?_
  split
  · exact only_pure _
  · exact only_ite (fun _ => only_pure _) fun _ => reads.only_loadACL.bind fun _ => only_pure _

theorem only_actorAllowed {actor : Actor} :
    (actorAllowed org actor typ name perm).Only allowed := by
  refine reads.only_loadACL.bind fun _ => ?_
  split
  · exact only_pure _
  · exact only_ite (fun _ => only_pure _) fun _ => only_ite (fun _ => only_pure _) fun _ =>
      reads.only_actorGroups.bind fun _ => only_pure _

theorem only_authorizeRequest {method : Method} {u : Url} :
    (authorizeRequest r method u).Only allowed := by
  have object (org : GoString) (check : AuthzCheck) : (requireAclObject org check).Only allowed :=
    only_ite (fun _ => reads.only_aclObjectExists.bind fun _ =>
      only_ite (fun _ => only_stop _) fun _ => only_pure _) fun _ => only_pure _
  have permission (org : GoString) (actor : Actor) (check : AuthzCheck) :
      (requirePermission org actor check).Only allowed :=
    reads.only_actorAllowed.bind fun _ => only_ite (fun _ => only_stop _) fun _ => only_pure _
  have existing (org : GoString) (check : AuthzCheck) :
      (readExisting r org check).Only allowed := by
    refine only_ite (fun _ => only_pure _) fun _ =>
      reads.only_get.bind (only_option (only_stop _) fun _ => ?_)
    exact only_pure _
  have checked (org : GoString) (actor : Actor) (check : AuthzCheck) :
      (checkedRequest r org actor check).Only allowed :=
    (existing org check).bind fun _ => (object org check).bind fun _ =>
      (permission org actor check).bind fun _ => only_pure _
  unfold authorizeRequest
  split
  · exact only_pure _
  · refine only_ite (fun _ => only_pure _) fun _ => ?_
    split
    · exact only_ite (fun _ => only_stop _) fun _ => only_pure _
    · exact only_ite (fun _ => only_pure _) fun _ => only_ite (fun _ => only_stop _) fun _ =>
        only_ite (fun _ => checked _ _ _) fun _ => reads.only_lookupOrg.bind fun _ =>
        only_ite (fun _ => checked _ _ _) fun _ => only_pure _

theorem only_refuseMember : (refuseMember org user).Only allowed :=
  reads.only_get.bind fun _ => only_ite (fun _ => only_stop _) fun _ => only_pure _

theorem only_refuseAdmin : (refuseAdmin org user).Only allowed :=
  reads.only_actorGroups.bind fun _ => only_ite (fun _ => only_stop _) fun _ => only_pure _

theorem only_refuseInvited : (refuseInvited org user).Only allowed :=
  reads.only_get.bind fun _ => only_ite (fun _ => only_stop _) fun _ => only_pure _

theorem only_holdsInvite : (holdsInvite user id org).Only allowed := by
  refine reads.only_lookupOrg.bind fun _ => only_ite (fun _ => only_pure _) fun _ =>
    reads.only_get.bind (only_option (only_pure _) fun _ => ?_)
  dsimp only
  split
  · exact only_stop _
  · exact only_pure _

theorem only_findInvite (orgs : List GoString) : (findInvite user id orgs).Only allowed := by
  induction orgs with
  | nil => exact only_pure _
  | cons org orgs ih =>
    exact reads.only_holdsInvite.bind fun _ => only_ite (fun _ => only_pure _) fun _ => ih

theorem only_inviterAuthorized {inviter : GoString} :
    (inviterAuthorized org inviter).Only allowed := by
  refine only_ite (fun _ => only_pure _) fun _ =>
    reads.only_get.bind (only_option (only_pure _) fun _ => ?_)
  dsimp only
  split
  · exact only_stop _
  · exact only_ite (fun _ => only_pure _) fun _ => reads.only_get.bind fun _ =>
      only_ite (fun _ => only_pure _) fun _ => reads.only_groupMembership.bind fun _ => only_pure _

theorem only_requireInviter : (requireInviter org id).Only allowed := by
  have recorded : (recordedInviter org id).Only allowed := by
    refine reads.only_get.bind (only_option (only_pure _) fun _ => ?_)
    dsimp only
    split
    · exact only_stop _
    · exact only_pure _
  exact recorded.bind fun _ => reads.only_inviterAuthorized.bind fun _ =>
    only_ite (fun _ => only_stop _) fun _ => only_pure _

theorem only_actorNameCollision : (actorNameCollision segment name).Only allowed := by
  have clientIn (orgs : List GoString) : (clientOrg name orgs).Only allowed := by
    induction orgs with
    | nil => exact only_pure _
    | cons org orgs ih =>
      exact reads.only_lookupOrg.bind fun _ => only_ite
        (fun _ => reads.only_get.bind fun _ => only_ite (fun _ => only_pure _) fun _ => ih) fun _ => ih
  refine only_ite (fun _ => reads.only_get.bind fun _ => only_ite
    (fun _ => only_pure _) fun _ => only_pure _)
    fun _ => only_ite (fun _ => reads.only_listOrgs.bind fun orgs => (clientIn orgs).bind fun found => ?_)
      fun _ => only_pure _
  cases found with
  | _ => exact only_pure _

theorem only_mergeUpdate [Unicode] : (mergeUpdate org segment name obj).Only allowed := by
  have stored : (storedRecord org segment name).Only allowed :=
    reads.only_get.bind fun _ => only_pure _
  refine only_ite (fun _ => only_pure _) fun _ => stored.bind fun _ => ?_
  split
  · exact only_stop _
  · exact only_pure _

theorem only_preservePrivilege : (preservePrivilege r org segment name obj).Only allowed := by
  have stored : (storedField org segment name adminField).Only allowed :=
    reads.only_get.bind fun _ => only_pure _
  refine only_ite (fun _ => only_pure _) fun _ => ?_
  split
  · exact only_pure _
  · refine only_ite (fun _ => only_pure _) fun _ => stored.bind fun _ => ?_
    split
    · exact only_pure _
    · exact only_assign

end Reads

def ReadOnly : StoreCall → Prop
  | .put .. => False
  | .create .. => False
  | .delete .. => False
  | .createOrg _ => False
  | .deleteOrg _ => False
  | .putBlob .. => False
  | .deleteBlob .. => False
  | _ => True

theorem readOnly_reads : Reads ReadOnly := by
  constructor <;> exact trivial

theorem ReadOnly.exec {c : StoreCall} (readOnly : ReadOnly c) (s : Store) : (exec c s).2 = s := by
  cases c with
  | put | create | delete | createOrg | deleteOrg | putBlob | deleteBlob => exact readOnly.elim
  | _ => rfl

theorem only_put {val : Raw} (ok : allowed (.put org coll key val)) :
    (Org.put org coll key val).Only allowed :=
  only_perform ok

theorem only_delete (ok : allowed (.delete org coll key)) :
    (Org.delete org coll key).Only allowed :=
  only_perform ok

theorem only_grantCreator {enforceACL : Bool}
    (ok : ∀ acl, allowed (.put org aclsColl (aclKey typ name) acl)) :
    (grantCreator enforceACL r org typ name).Only allowed := by
  unfold grantCreator
  split
  · exact only_ite (fun _ => only_put (ok _)) fun _ => only_pure _
  · exact only_pure _

theorem only_stashPassword (ok : ∀ hash, allowed (.put org passwordsCollection name hash)) :
    (stashPassword env org name obj).Only allowed := by
  unfold stashPassword
  split
  · exact (only_put (ok _)).bind fun _ => only_pure _
  · exact only_pure _

def Revokes : StoreCall → Prop
  | .get _ coll _ => coll ≠ passwordsCollection
  | .keys _ coll => coll ≠ passwordsCollection
  | .range _ coll => coll ≠ passwordsCollection
  | .delete _ coll _ => coll ∉ [passwordsCollection, users, clients]
  | .put _ coll _ _ => coll = aclsColl
  | .listOrgs => True
  | .hasOrg _ => True
  | _ => False

theorem keysColl_ne_of_not_mem (plain : 0x3A ∉ coll) : keysColl segment actor ≠ coll := by
  rintro rfl
  exact plain (List.mem_append_left _ (List.mem_append_right _ (by decide)))

theorem revokes_keys (ok : coll ≠ passwordsCollection) : (Org.keys org coll).Only Revokes :=
  only_perform ok

theorem revokes_range (ok : coll ≠ passwordsCollection) : (Org.range org coll).Only Revokes :=
  only_perform ok

theorem revokes_delete (ok : coll ∉ [passwordsCollection, users, clients]) :
    (Org.delete org coll key).Only Revokes := only_perform ok

theorem revokes_deleteAll (ok : coll ∉ [passwordsCollection, users, clients])
    (keys : List GoString) :
    (deleteAll org coll keys).Only Revokes :=
  only_forM (fun _ => (revokes_delete ok).bind fun _ => only_pure _) keys

theorem revokes_clearMembers : (clearMembers org group).Only Revokes :=
  (revokes_range (by decide)).bind fun _ => revokes_deleteAll (by decide) _

theorem revokes_removeMemberRows : (removeMemberRows org kind actor).Only Revokes :=
  (revokes_range (by decide)).bind fun _ => revokes_deleteAll (by decide) _

theorem revokes_removeFromACLs {kind : GoString} : (removeFromACLs org kind name).Only Revokes := by
  have one (row : GoString × Raw) : (rewriteACL org kind name row.1 row.2).Only Revokes := by
    unfold rewriteACL
    split
    · exact only_pure _
    · exact only_put rfl
  exact (revokes_range (by decide)).bind fun _ => only_forM one _

theorem revokes_deleteACL : (deleteACL org typ name).Only Revokes :=
  (revokes_delete (by decide)).bind fun _ => only_pure _

theorem revokes_deleteActorKeys : (deleteActorKeys org segment name).Only Revokes := by
  have plain : keysColl segment name ∉ [passwordsCollection, users, clients] := by
    simp only [List.mem_cons, List.not_mem_nil, or_false, not_or]
    exact ⟨keysColl_ne_of_not_mem (by decide), keysColl_ne_of_not_mem (by decide),
      keysColl_ne_of_not_mem (by decide)⟩
  exact (revokes_keys (keysColl_ne_of_not_mem (by decide))).bind fun _ => revokes_deleteAll plain _

structure Revoking (P : (α : Type) → Handler α → Prop) : Prop extends Modular P where
  calls {α : Type} {h : Handler α} (only : h.Only Revokes) : P α h
  doc {org : GoString} {kind : MemberKind} {actor name : GoString} : P Unit (removeFromGroupDoc org kind actor name)

namespace Revoking

variable {P : (α : Type) → Handler α → Prop} (revoking : Revoking P)

include revoking

theorem removeActorFromAllGroups : P Unit (removeActorFromAllGroups org kind actor) :=
  revoking.bind (revoking.calls revokes_removeMemberRows) fun _ =>
    revoking.bind (revoking.calls (revokes_keys (by decide))) fun _ =>
      revoking.forM (fun _ => revoking.doc) _

theorem removeUserFromOrg : P Unit (removeUserFromOrg user org) := by
  refine revoking.bind (revoking.calls (only_perform trivial)) fun present => ?_
  split
  · exact revoking.bind (revoking.calls (revokes_delete (by decide))) fun _ =>
      revoking.bind (revoking.calls (revokes_delete (by decide))) fun _ =>
      revoking.bind revoking.removeActorFromAllGroups fun _ => revoking.calls revokes_removeFromACLs
  · exact revoking.pure _

theorem removeUserFromOrgs : P Unit (removeUserFromOrgs user) :=
  revoking.bind (revoking.calls revokes_removeFromACLs) fun _ =>
    revoking.bind (revoking.calls (only_perform trivial)) fun _ =>
    revoking.forM (fun _ => revoking.removeUserFromOrg) _

theorem cleanupActor : P Unit (cleanupActor org segment name) := by
  have own : P Unit (do deleteACL org segment name; deleteActorKeys org segment name) :=
    revoking.calls (revokes_deleteACL.bind fun _ => revokes_deleteActorKeys)
  unfold Api.cleanupActor
  split
  · exact revoking.bind revoking.removeUserFromOrgs fun _ => own
  · split
    · exact revoking.bind (revoking.calls revokes_removeFromACLs) fun _ =>
        revoking.bind revoking.removeActorFromAllGroups fun _ => own
    · exact own

end Revoking

/-! ## One row of the store under the calls of several handlers -/

def touches (org coll key : GoString) : StoreCall → Bool
  | .put o c k _ => o = org && c = coll && k = key
  | .create o c k _ => o = org && c = coll && k = key
  | .delete o c k => o = org && c = coll && k = key
  | .deleteOrg name => name = org
  | _ => false

theorem touches_put (val : Raw) : touches org coll key (.put org coll key val) := by simp [touches]

theorem touches_put_of_ne {org' coll' key' : GoString} {val : Raw} (other : coll' ≠ coll) :
    touches org coll key (.put org' coll' key' val) = false := by
  simp [touches, other]

theorem get_exec {c : StoreCall} (still : touches org coll key c = false) (s : Store) :
    (exec c s).2.get org coll key = s.get org coll key := by
  cases c with
  | put o c k val =>
    rw [exec, get_put, if_neg]
    simpa [touches, and_assoc] using still
  | create o c k val =>
    cases taken : s.get o c k with
    | some raw => rw [exec, create_of_isSome (by rw [taken]; rfl)]
    | none =>
      rw [exec, create_of_none taken, get_put, if_neg]
      simpa [touches, and_assoc] using still
  | delete o c k =>
    rw [exec, get_delete, if_neg]
    simpa [touches, and_assoc] using still
  | createOrg name => exact Proof.Store.get_createOrg s name org coll key
  | deleteOrg name =>
    have other : name ≠ org := by simpa [touches] using still
    exact (Proof.Store.get_deleteOrg s name org coll key).trans (if_neg fun here => other here.2)
  | _ => rfl

def writesTo (org coll : GoString) : StoreCall → Bool
  | .put o c _ _ => o = org && c = coll
  | .create o c _ _ => o = org && c = coll
  | _ => false

theorem get_of_exec {c : StoreCall} {s : Store} {raw : Raw} (other : writesTo org coll c = false)
    (left : (exec c s).2.get org coll key = some raw) : s.get org coll key = some raw := by
  cases c with
  | put o c k val =>
    rw [exec, get_put, if_neg] at left
    · exact left
    · rintro ⟨rfl, rfl, -⟩
      simp [writesTo] at other
  | create o c k val =>
    cases taken : s.get o c k with
    | some raw => rwa [exec, create_of_isSome (by rw [taken]; rfl)] at left
    | none =>
      rw [exec, create_of_none taken, get_put, if_neg] at left
      · exact left
      · rintro ⟨rfl, rfl, -⟩
        simp [writesTo] at other
  | delete o c k =>
    rw [exec, get_delete] at left
    split at left
    · cases left
    · exact left
  | createOrg name => exact Proof.Store.get_createOrg s name org coll key ▸ left
  | deleteOrg name =>
    have after : (exec (.deleteOrg name) s).2.get org coll key = _ :=
      Proof.Store.get_deleteOrg s name org coll key
    rw [after] at left
    split at left
    · cases left
    · exact left
  | _ => exact left

theorem isSome_of_exec {c : StoreCall} {s : Store} (other : writesTo org coll c = false)
    (left : ((exec c s).2.get org coll key).isSome) : (s.get org coll key).isSome := by
  obtain ⟨raw, left⟩ := Option.isSome_iff_exists.mp left
  exact Option.isSome_of_eq_some (get_of_exec other left)

theorem reads_untouched : Reads fun c => touches org coll key c = false := by
  constructor <;> intros <;> rfl

theorem leaves_row {p : Handler α} (only : p.Only fun c => touches org coll key c = false) :
    p.Leaves exec fun s => s.get org coll key :=
  only.mono fun _ still => get_exec still

end CincServer.Proof.Api
