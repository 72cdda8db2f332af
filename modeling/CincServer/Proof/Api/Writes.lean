import CincServer.Proof.Api.GroupRevocation
import CincServer.Proof.Api.Within

/-!
# What the server writes
-/

namespace CincServer.Proof.Api
open CincServer.Api CincServer.Json Proof.Decoding Go Lib Program

variable {s : Store} {name group user actor typ segment : GoString} {h : Handler α}
  {kind : MemberKind} {r : Request} {env : Env}

section Records

variable {R : GoString → GoString → GoString → Raw → Prop}

def Writes (R : GoString → GoString → GoString → Raw → Prop) : StoreCall → Prop
  | .put org coll key val => R org coll key val
  | .create org coll key val => R org coll key val
  | _ => True

def Every (R : GoString → GoString → GoString → Raw → Prop) (s : Store) : Prop :=
  ∀ org coll key raw, s.get org coll key = some raw → R org coll key raw

theorem every_put {org coll key : GoString} {val : Raw} (every : Every R s)
    (written : R org coll key val) : Every R (s.put org coll key val) := by
  intro org' coll' key' raw found
  rw [get_put] at found
  split_ifs at found with here
  · obtain ⟨rfl, rfl, rfl⟩ := here
    obtain rfl := Option.some.inj found
    exact written
  · exact every _ _ _ _ found

theorem Every.of_le {t : Store} (every : Every R s)
    (fewer : ∀ org coll key, t.get org coll key = none ∨ t.get org coll key = s.get org coll key) :
    Every R t := by
  intro org coll key raw found
  rcases fewer org coll key with gone | same
  · rw [gone] at found
    cases found
  · exact every _ _ _ _ (same ▸ found)

theorem every_exec (c : StoreCall) (written : Writes R c) (s : Store) (every : Every R s) :
    Every R (exec c s).2 := by
  cases c with
  | put org coll key val => exact every_put every written
  | create org coll key val =>
    simp only [exec, Store.MemoryBackend.create]
    split
    · exact every
    · exact every_put every written
  | delete org coll key =>
    refine every.of_le fun org' coll' key' => ?_
    simp only [exec, get_delete]
    split_ifs
    · exact .inl rfl
    · exact .inr rfl
  | createOrg name => exact every.of_le fun _ _ _ => .inr (Proof.Store.get_createOrg ..)
  | deleteOrg name =>
    refine every.of_le fun org coll key => ?_
    simp only [exec, Proof.Store.get_deleteOrg]
    split_ifs
    · exact .inl rfl
    · exact .inr rfl
  | _ => exact every

end Records

def ReadAlike (raw : Raw) : Prop := removerMembers raw = indexMembers raw

def Sound (org coll key : GoString) (raw : Raw) : Prop :=
  (coll = groupsColl → ReadAlike raw) ∧
  (coll = assocReqColl → ∃ user inviter, key = inviteID user org ∧ raw = inviteDoc user org inviter)

variable {α : Type} {org coll key : GoString} {raw : Raw}

theorem sound_elsewhere (noGroup : coll ≠ groupsColl) (noInvite : coll ≠ assocReqColl) :
    Sound org coll key raw :=
  ⟨fun same => absurd same noGroup, fun same => absurd same noInvite⟩

theorem sound_groupJSON {m : MemberLists} : Sound org groupsColl name (groupJSON group [] m) :=
  ⟨fun _ => by rw [ReadAlike, removerMembers_groupJSON, indexMembers_groupJSON], fun same => absurd same (by decide)⟩

theorem sound_inviteDoc {inviter : GoString} :
    Sound org assocReqColl (inviteID user org) (inviteDoc user org inviter) :=
  ⟨fun same => absurd same (by decide), fun _ => ⟨user, inviter, rfl, rfl⟩⟩

def KeepsOrgs : StoreCall → Prop
  | .createOrg _ => False
  | .deleteOrg _ => False
  | _ => True

theorem orgs_exec (c : StoreCall) (keeps : KeepsOrgs c) (s : Store) :
    (exec c s).2.orgs = s.orgs := by
  cases c with
  | createOrg | deleteOrg => exact keeps.elim
  | create org coll key val => simp only [exec, Store.MemoryBackend.create]; split <;> rfl
  | delete org coll key => simp only [exec, Store.MemoryBackend.delete]; split <;> rfl
  | _ => rfl

abbrev Tame {α : Type} (h : Handler α) : Prop := h.Only fun c => Writes Sound c ∧ KeepsOrgs c

theorem Tame.orgs (tame : Tame h) (s : Store) : (h.run exec s).2.orgs = s.orgs := by
  have keeps : h.Keeps exec fun t => t.orgs = s.orgs :=
    tame.keeps fun c ok t same => (orgs_exec c ok.2 t).trans same
  exact keeps.run rfl

abbrev WritesSound {α : Type} (h : Handler α) : Prop := h.Only (Writes Sound)

theorem Tame.writesSound (tame : Tame h) : WritesSound h := tame.mono fun _ => And.left

theorem tame_reads : Reads fun c => Writes Sound c ∧ KeepsOrgs c := by
  constructor <;> exact ⟨trivial, trivial⟩

theorem tame_put (sound : Sound org coll key raw) : Tame (Org.put org coll key raw) :=
  only_perform ⟨sound, trivial⟩

theorem tame_create (sound : Sound org coll key raw) : Tame (Org.create org coll key raw) :=
  only_perform ⟨sound, trivial⟩

theorem tame_delete : Tame (Org.delete org coll key) := only_perform ⟨trivial, trivial⟩

theorem Tame.inOrg (tame : Tame h) : Tame (inOrg org h) :=
  tame_reads.only_resolveOrg.bind fun _ => tame

theorem tame_addMember : Tame (addMember org group kind actor) :=
  tame_put (sound_elsewhere (by decide) (by decide))

theorem tame_of_revokes (revokes : h.Only Revokes) : Tame h :=
  revokes.mono fun c allowed => by
    cases c with
    | put org coll key val =>
      obtain rfl : coll = aclsColl := allowed
      exact ⟨sound_elsewhere (by decide) (by decide), trivial⟩
    | create | createOrg | deleteOrg | putBlob | hasBlob | deleteBlob => exact allowed.elim
    | _ => exact ⟨trivial, trivial⟩

theorem tame_of_within {f : Footprint} (within : h.Only (Within org f))
    (noGroup : groupsColl ∉ f.puts)
    (noInvite : assocReqColl ∉ f.puts) : Tame h :=
  within.mono fun c allowed => by
    cases c with
    | put | create =>
      exact ⟨sound_elsewhere (ne_of_mem_of_not_mem allowed.2 noGroup)
        (ne_of_mem_of_not_mem allowed.2 noInvite), trivial⟩
    | createOrg | deleteOrg => exact allowed.elim
    | _ => exact ⟨trivial, trivial⟩

theorem tame_clearMembers : Tame (clearMembers org group) :=
  tame_of_revokes revokes_clearMembers

theorem tame_removeFromGroupDoc : Tame (removeFromGroupDoc org kind actor name) := by
  refine tame_reads.only_get.bind (only_option (only_pure _) fun _ => ?_)
  simp only [Option.bind_some, revoked_eq]
  split_ifs
  · exact tame_put sound_groupJSON
  · exact only_pure _

theorem tame_revoking : Revoking fun _ h => Tame h :=
  ⟨only_modular _, tame_of_revokes, tame_removeFromGroupDoc⟩

theorem tame_removeActorFromAllGroups : Tame (removeActorFromAllGroups org kind actor) :=
  tame_revoking.removeActorFromAllGroups

theorem tame_createGroup : Tame (createGroup r org) :=
  tame_reads.only_resolveOrg.bind fun _ => only_decodeBody.bind fun _ =>
    only_refuseIf.bind fun _ => only_refuseIf.bind fun _ =>
    tame_clearMembers.bind fun _ => (tame_create sound_groupJSON).bind fun _ =>
    only_refuseIf.bind fun _ => only_pure _

theorem tame_putGroup : Tame (putGroup r org name) :=
  tame_reads.only_resolveOrg.bind fun _ => tame_reads.only_mustView.bind fun _ =>
    only_decodeObjectBody.bind fun _ => tame_reads.only_mustView.bind fun _ =>
    tame_reads.only_groupMembership.bind fun _ => (tame_reads.only_knownGroupMembers _).bind fun _ =>
    tame_clearMembers.bind fun _ => (tame_put sound_groupJSON).bind fun _ => only_pure _

theorem tame_putACL {acl : Raw} : Tame (Org.put org aclsColl key acl) :=
  tame_put (sound_elsewhere (by decide) (by decide))

theorem tame_deleteACL : Tame (deleteACL org typ name) :=
  tame_of_revokes revokes_deleteACL

theorem tame_removeFromACLs {kind : GoString} : Tame (removeFromACLs org kind name) :=
  tame_of_revokes revokes_removeFromACLs

theorem tame_updateACLPermDoc {members : Option GoString} {perm : GoString}
    {status : Nat} : Tame (updateACLPermDoc r org members typ name perm status) :=
  tame_of_within within_updateACLPermDoc (by decide) (by decide)

theorem tame_deleteGroup : Tame (deleteGroup org name) := by
  refine tame_reads.only_resolveOrg.bind fun _ => tame_reads.only_mustExist.bind fun _ =>
    tame_removeFromACLs.bind fun _ => tame_removeActorFromAllGroups.bind fun _ =>
    tame_clearMembers.bind fun _ => tame_deleteACL.bind fun _ =>
    tame_delete.bind (only_option (only_stop _) fun _ => ?_)
  exact only_pure _

theorem tame_joinOrg : Tame (joinOrg org user) :=
  (tame_put (sound_elsewhere (by decide) (by decide))).bind fun _ => tame_addMember

theorem tame_associateUser : Tame (associateUser r org) :=
  tame_of_within (within_membership (.associate r)) (by simp +decide [membershipWrites]) (by simp +decide [membershipWrites])

theorem tame_disassociateUser : Tame (disassociateUser org user) :=
  tame_reads.only_resolveOrg.bind fun _ => tame_reads.only_mustExist.bind fun _ =>
    tame_reads.only_refuseAdmin.bind fun _ => tame_delete.bind fun _ =>
      tame_removeActorFromAllGroups.bind fun _ => only_pure _

theorem tame_createInvite : Tame (createInvite r org) :=
  tame_reads.only_resolveOrg.bind fun _ => only_decodeBody.bind fun _ =>
    only_refuseIf.bind fun _ => tame_reads.only_mustExist.bind fun _ =>
    tame_reads.only_refuseMember.bind fun _ => tame_reads.only_refuseInvited.bind fun _ =>
    (tame_put sound_inviteDoc).bind fun _ => only_pure _

theorem tame_rescindInvite {id : GoString} : Tame (rescindInvite org id) :=
  tame_of_within (within_membership (.rescind id)) List.not_mem_nil List.not_mem_nil

theorem tame_respondInvite {id : GoString} : Tame (respondInvite r user id) := by
  have consume (org : GoString) (answer : Answer) : Tame (do
      let _ ← Org.delete org assocReqColl id
      if answer = .accept then joinOrg org user
      return Response.json 200 (encodeMap [(lit "organization", .object [(lit "name", .string org)])])) :=
    tame_delete.bind fun _ => only_guard tame_joinOrg (only_pure _)
  refine only_requireInvitee.bind fun _ => tame_reads.only_listOrgs.bind fun orgs =>
    (tame_reads.only_findInvite orgs).bind (only_option (only_stop _) fun org => ?_)
  exact only_decodeAnswer.bind fun _ => only_guard tame_reads.only_requireInviter (consume org _)

theorem tame_stashPassword {obj : Option Object} : Tame (stashPassword env org name obj) :=
  only_stashPassword fun _ => ⟨sound_elsewhere (by decide) (by decide), trivial⟩

theorem tame_createActor [Unicode] {enforceACL : Bool}
    (noGroup : segment ≠ groupsColl) (noInvite : segment ≠ assocReqColl) :
    Tame (createActor env enforceACL r org segment) :=
  tame_of_within within_createActor (by simp +decide [noGroup.symm]) (by simp +decide [noInvite.symm])

theorem tame_carryKey {regenerate : Bool} {obj : Option Object} :
    Tame (carryKey env regenerate org segment name obj) := by
  have inRows := @within_carryKey org name ⟨[keysColl segment name], []⟩ env segment regenerate obj (by simp)
  refine tame_of_within inRows ?_ ?_
  all_goals simpa using ne_keysColl (by decide) segment name

theorem tame_scopedPut [Unicode] (noGroup : segment ≠ groupsColl)
    (noInvite : segment ≠ assocReqColl) :
    Tame (scopedPut env r org segment name) :=
  tame_reads.only_mustExist.bind fun _ => only_updateBody.bind fun _ =>
    tame_reads.only_mergeUpdate.bind fun _ => tame_carryKey.bind fun _ =>
    tame_reads.only_preservePrivilege.bind fun _ => tame_stashPassword.bind fun _ =>
    (tame_put (sound_elsewhere noGroup noInvite)).bind fun _ =>
    only_ite (fun _ => only_assign.bind fun _ => only_pure _) fun _ => only_pure _

theorem tame_removeUserFromOrg : Tame (removeUserFromOrg user org) :=
  tame_revoking.removeUserFromOrg

theorem tame_scopedDelete : Tame (scopedDelete r org segment name) := by
  have cleanup : Tame (cleanupActor org segment name) := tame_revoking.cleanupActor
  refine tame_reads.only_mustExist.bind fun _ => cleanup.bind fun _ =>
    tame_delete.bind (only_option (only_stop _) fun _ => ?_)
  exact only_pure _

theorem tame_seed {doc : Raw} (sound : Sound org coll key doc) : Tame (seed org coll key doc) :=
  tame_reads.only_get.bind fun _ => only_ite (fun _ => tame_put sound) fun _ => only_pure _

theorem tame_seedOrg : Tame (seedOrg org) :=
  (tame_seed (sound_elsewhere (by decide) (by decide))).bind fun _ =>
    (only_forM (fun _ => tame_seed sound_groupJSON) _).bind fun _ =>
    only_forM (fun _ => tame_seed (sound_elsewhere (by decide) (by decide))) _

theorem writesSound_createOrganizationWithKey {fullName : GoString} :
    WritesSound (createOrganizationWithKey env name fullName) := by
  have fresh : WritesSound (createOrg name) := only_perform trivial
  have rest : Tame (do
      seedOrg name
      Org.put global orgsColl name (orgMeta env name fullName)
      Org.put name clients (validatorName name) (validatorDoc env name)
      Org.put name aclsColl (aclKey containersColl clients)
        (mustEncode (some (validatorClientsACL (validatorName name))))) :=
    tame_seedOrg.bind fun _ => (tame_put (sound_elsewhere (by decide) (by decide))).bind fun _ =>
      (tame_put (sound_elsewhere (by decide) (by decide))).bind fun _ => tame_putACL
  exact fresh.bind fun _ => only_refuseIf.bind fun _ => rest.writesSound

theorem writesSound_createOrganization : WritesSound (createOrganization env r) := by
  exact only_decodeBody.bind fun _ => only_refuseIf.bind fun _ => only_refuseIf.bind fun _ =>
    only_refuseIf.bind fun _ => only_refuseIf.bind fun _ =>
    writesSound_createOrganizationWithKey.bind fun _ => only_pure _

theorem tame_putOrganization : Tame (putOrganization r name) :=
  tame_of_within within_putOrganization (by decide) (by decide)

theorem writesSound_deleteOrganization : WritesSound (deleteOrganization name) := by
  have gone : WritesSound (deleteOrg name) := only_perform trivial
  refine tame_delete.writesSound.bind (only_option (only_stop _) fun _ => ?_)
  exact gone.bind fun _ => only_pure _

theorem tame_loadGroups (files : List State.File) (held : ∀ file ∈ files, ReadAlike file.contents) :
    Tame (State.loadGroups org files) := by
  have each : Tame (files.forM (State.loadGroup org)) := by
    induction files with
    | nil => exact only_pure _
    | cons file files ih =>
      have one : Tame (State.loadGroup org file) := by
        unfold State.loadGroup
        split
        · exact only_stop _
        · exact tame_put ⟨fun _ => held file List.mem_cons_self, fun same => absurd same (by decide)⟩
      exact one.bind fun _ => ih fun other mem => held other (List.mem_cons_of_mem file mem)
  exact each.bind fun _ => only_pure _

theorem writesSound_of_spares (spares : h.Only (StoreCall.Spares [groupsColl, assocReqColl])) :
    WritesSound h :=
  spares.mono fun c spared => by
    cases c <;> first
      | exact sound_elsewhere (fun same => spared (by simp [same])) fun same => spared (by simp [same])
      | trivial

theorem Served.writesSound [Unicode] (served : Served ReadAlike h) : WritesSound h := by
  cases served with
  | createUser => exact (tame_createActor (by decide) (by decide)).writesSound
  | createClient =>
    exact (Tame.inOrg (tame_createActor (by decide) (by decide))).writesSound
  | putUser => exact (tame_scopedPut (by decide) (by decide)).writesSound
  | putClient => exact (Tame.inOrg (tame_scopedPut (by decide) (by decide))).writesSound
  | deleteUser => exact tame_scopedDelete.writesSound
  | deleteClient => exact (Tame.inOrg tame_scopedDelete).writesSound
  | associateUser => exact tame_associateUser.writesSound
  | disassociateUser => exact tame_disassociateUser.writesSound
  | createInvite => exact tame_createInvite.writesSound
  | rescindInvite => exact tame_rescindInvite.writesSound
  | respondInvite => exact tame_respondInvite.writesSound
  | createGroup => exact tame_createGroup.writesSound
  | putGroup => exact tame_putGroup.writesSound
  | deleteGroup => exact tame_deleteGroup.writesSound
  | putACLPerm => exact (Tame.inOrg tame_updateACLPermDoc).writesSound
  | createOrganization => exact writesSound_createOrganization
  | putOrganization => exact tame_putOrganization.writesSound
  | deleteOrganization => exact writesSound_deleteOrganization
  | provisionOrg => exact writesSound_createOrganizationWithKey
  | loadGroups _ files held => exact (tame_loadGroups files held).writesSound
  | other spares => exact writesSound_of_spares spares

theorem reachable_run [Unicode] {loads : Raw → Prop} (reached : Reachable loads s)
    (served : Served loads h) : Reachable loads (h.run exec s).2 := by
  have next := Pool.Reaches.run reached ⟨α, h, served, rfl⟩
  rwa [run_forget] at next

theorem sound_of_reachable [Unicode] (reached : Reachable ReadAlike s) : Every Sound s := by
  refine Pool.Reaches.invariant reached ?_ ?_
  · rintro _ ⟨_, h, served, rfl⟩
    exact (Served.writesSound served).forget.keeps every_exec
  · intro org coll key raw found
    cases found

end CincServer.Proof.Api
