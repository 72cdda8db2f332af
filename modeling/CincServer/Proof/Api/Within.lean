import CincServer.Api.Requests
import CincServer.Proof.Api.Calls

/-!
# Where a request writes
-/

namespace CincServer.Proof.Api
open CincServer.Api CincServer.Json Go Lib Program

variable {s t : Store} {typ : GoString} {enforceACL : Bool} {allowed : StoreCall → Prop} {org' policy perm : GoString}

/-- The collections something may put objects into, and those it may delete objects from. -/
structure Footprint where
  puts : List GoString
  deletes : List GoString

variable {α : Type} {org coll key name : GoString} {f more : Footprint} {r : Request} {raw : Raw}

def Within (org : GoString) (f : Footprint) : StoreCall → Prop
  | .put o coll _ _ => o = org ∧ coll ∈ f.puts
  | .create o coll _ _ => o = org ∧ coll ∈ f.puts
  | .delete o coll _ => o = org ∧ coll ∈ f.deletes
  | .createOrg _ => False
  | .deleteOrg _ => False
  | .putBlob o _ _ => o = org
  | .deleteBlob o _ => o = org
  | _ => True

theorem within_reads : Reads (Within org f) := by
  constructor <;> exact trivial

/-- What a footprint in one organization leaves as it is: a collection that takes no objects loses
some at most, and one that loses none keeps its names. -/
structure Frame (org : GoString) (f : Footprint) (s t : Store) : Prop where
  orgs : t.orgs = s.orgs
  elsewhere : ∀ {org' coll key}, org' ≠ org → t.get org' coll key = s.get org' coll key
  shrinks : ∀ {org' coll key}, coll ∉ f.puts → t.get org' coll key = none ∨ t.get org' coll key = s.get org' coll key
  grows : ∀ {org' coll key}, coll ∉ f.deletes → (s.get org' coll key).isSome → (t.get org' coll key).isSome

theorem Frame.refl (s : Store) : Frame org f s s :=
  ⟨rfl, fun _ => rfl, fun _ => .inr rfl, fun _ => id⟩

theorem Frame.trans {u : Store} (first : Frame org f s t) (second : Frame org f t u) :
    Frame org f s u where
  orgs := second.orgs.trans first.orgs
  elsewhere other := (second.elsewhere other).trans (first.elsewhere other)
  shrinks noPut := (second.shrinks noPut).elim .inl fun same => same ▸ first.shrinks noPut
  grows noDelete found := second.grows noDelete (first.grows noDelete found)

theorem Frame.hasOrg (frame : Frame org f s t) (name : GoString) :
    t.hasOrg name = s.hasOrg name := by
  rw [Store.MemoryBackend.hasOrg, frame.orgs, Store.MemoryBackend.hasOrg]

theorem Frame.gets (frame : Frame org f s t) (noPut : coll ∉ f.puts)
    (noDelete : coll ∉ f.deletes) : t.get org' coll key = s.get org' coll key := by
  rcases @Frame.shrinks _ _ _ _ frame org' coll key noPut with gone | same
  · cases found : s.get org' coll key with
    | none => exact gone
    | some raw =>
      have still := frame.grows noDelete (Option.isSome_of_eq_some found)
      rw [gone] at still
      cases still
  · exact same

theorem Frame.stored (frame : Frame org f s t) (noPut : coll ∉ f.puts)
    (found : t.get org' coll key = some raw) : s.get org' coll key = some raw := by
  rcases @Frame.shrinks _ _ _ _ frame org' coll key noPut with gone | same
  · rw [gone] at found
    cases found
  · exact same.symm.trans found

theorem frame_put (mem : coll ∈ f.puts) (s : Store) : Frame org f s (s.put org coll key raw) := by
  refine ⟨rfl, fun {org' coll' key'} other => ?_, fun {org' coll' key'} noPut => .inr ?_,
    fun {org' coll' key'} _ found => ?_⟩
  · rw [get_put, if_neg fun here => other here.1.symm]
  · have other : coll ≠ coll' := fun same => noPut (same ▸ mem)
    rw [get_put_of_ne other]
  · rw [get_put]
    split
    · rfl
    · exact found

theorem frame_put_one (s : Store) : Frame org ⟨[coll], []⟩ s (s.put org coll key raw) :=
  frame_put (List.mem_singleton_self coll) s

theorem frame_delete (mem : coll ∈ f.deletes) (s : Store) :
    Frame org f s (s.delete org coll key).1 := by
  refine ⟨?_, fun {org' coll' key'} other => ?_, fun {org' coll' key'} _ => ?_,
    fun {org' coll' key'} noDelete found => ?_⟩
  · simp only [Store.MemoryBackend.delete]
    split <;> rfl
  · rw [get_delete, if_neg fun here => other here.1.symm]
  · rw [get_delete]
    split
    · exact .inl rfl
    · exact .inr rfl
  · have other : coll ≠ coll' := fun same => noDelete (same ▸ mem)
    rw [get_delete, if_neg fun here => other here.2.1]
    exact found

theorem Within.frame {c : StoreCall} (within : Within org f c) (s : Store) :
    Frame org f s (exec c s).2 := by
  cases c with
  | put o coll key val =>
    obtain ⟨rfl, mem⟩ := within
    exact frame_put mem s
  | create o coll key val =>
    obtain ⟨rfl, mem⟩ := within
    cases taken : s.get o coll key with
    | none =>
      rw [exec, create_of_none taken]
      exact frame_put mem s
    | some raw =>
      rw [exec, create_of_isSome (Option.isSome_of_eq_some taken)]
      exact .refl s
  | delete o coll key =>
    obtain ⟨rfl, mem⟩ := within
    exact frame_delete mem s
  | createOrg | deleteOrg => exact within.elim
  | putBlob | deleteBlob => exact ⟨rfl, fun _ => rfl, fun _ => .inr rfl, fun _ => id⟩
  | _ => exact .refl s

theorem frame_run {h : Handler α} (within : h.Only (Within org f)) (s : Store) :
    Frame org f s (h.run exec s).2 :=
  leads_iff.mp (within.leads (fun _ ok t frame => frame.trans (ok.frame t)) (.refl s))

theorem within_put (mem : coll ∈ f.puts) : (Org.put org coll key raw).Only (Within org f) :=
  only_perform ⟨rfl, mem⟩

theorem within_create (mem : coll ∈ f.puts) : (Org.create org coll key raw).Only (Within org f) :=
  only_perform ⟨rfl, mem⟩

theorem within_delete (mem : coll ∈ f.deletes) : (Org.delete org coll key).Only (Within org f) :=
  only_perform ⟨rfl, mem⟩

theorem within_resolveOrg {space : GoString} : (resolveOrg space).Only (Within org f) :=
  within_reads.only_resolveOrg

theorem within_deleteAll (mem : coll ∈ f.deletes) (keys : List GoString) :
    (deleteAll org coll keys).Only (Within org f) :=
  only_forM (fun _ => (within_delete mem).bind fun _ => only_pure _) keys

theorem within_deleteACL (mem : aclsColl ∈ f.deletes) :
    (deleteACL org typ name).Only (Within org f) :=
  (within_delete mem).bind fun _ => only_pure _

theorem within_grantCreator (mem : aclsColl ∈ f.puts) :
    (grantCreator enforceACL r org typ name).Only (Within org f) :=
  only_grantCreator fun _ => ⟨rfl, mem⟩

theorem only_readObjectBody : (readObjectBody r).Only allowed := by
  unfold readObjectBody
  split
  · split
    · exact only_pure _
    · exact only_stop _
  · exact only_stop _

def objectWrites : ObjectWrite → Footprint
  | .create _ type => ⟨[type.segment, aclsColl], []⟩
  | .put _ type _ => ⟨[type.segment], []⟩
  | .delete type _ => ⟨[], [type.segment, aclsColl]⟩
  | .createContainer _ => ⟨[containersColl], []⟩
  | .deleteContainer _ => ⟨[], [containersColl, aclsColl]⟩
  | .createBag _ => ⟨[dataBagsColl], []⟩
  | .deleteBag bag => ⟨[], [dataBagsColl, dataBagItemsColl bag, aclsColl]⟩
  | .createItem _ bag => ⟨[dataBagItemsColl bag], []⟩
  | .putItem _ bag _ => ⟨[dataBagItemsColl bag], []⟩
  | .deleteItem bag _ => ⟨[], [dataBagItemsColl bag]⟩

attribute [simp] objectWrites

theorem within_deleteObject {segment : GoString} :
    (deleteObject org segment name).Only (Within org ⟨[], [segment, aclsColl]⟩) := by
  refine within_resolveOrg.bind fun _ =>
    (within_delete (by simp)).bind (only_option (only_stop _) fun _ => ?_)
  exact (within_deleteACL (by simp)).bind fun _ => only_pure _

theorem within_object (request : ObjectWrite) :
    (request.handler enforceACL org).Only (Within org (objectWrites request)) := by
  have bag (name : GoString) {f : Footprint} : (bagExists org name).Only (Within org f) :=
    within_reads.only_mustExist
  have item (r : Request) {f : Footprint} : (decodeItem r).Only (Within org f) :=
    only_readObjectBody.bind fun _ => only_pure _
  cases request with
  | create r type =>
    exact within_resolveOrg.bind fun _ => only_readObjectBody.bind fun _ =>
      only_refuseWith.bind fun _ =>
      only_refuseIf.bind fun _ => (within_create (by simp)).bind fun _ =>
      only_refuseIf.bind fun _ => (within_grantCreator (by simp)).bind fun _ => only_pure _
  | put r type name =>
    exact only_ite (fun _ => only_stop _) fun _ => within_resolveOrg.bind fun _ =>
      within_reads.only_mustView.bind fun _ => only_readObjectBody.bind fun _ =>
        only_refuseWith.bind fun _ =>
      (within_put (by simp)).bind fun _ => only_pure _
  | delete type name => exact only_ite (fun _ => only_stop _) fun _ => within_deleteObject
  | createContainer r =>
    exact within_resolveOrg.bind fun _ => only_decodeBody.bind fun _ => only_refuseIf.bind fun _ =>
      (within_put (by simp)).bind fun _ => only_pure _
  | deleteContainer name => exact within_deleteObject
  | createBag r =>
    exact within_resolveOrg.bind fun _ => only_readObjectBody.bind fun _ =>
      only_refuseIf.bind fun _ =>
      only_refuseIf.bind fun _ => (within_create (by simp)).bind fun _ =>
      only_refuseIf.bind fun _ => only_pure _
  | deleteBag bag =>
    refine within_resolveOrg.bind fun _ =>
      (within_delete (by simp)).bind (only_option (only_stop _) fun _ => ?_)
    exact within_reads.only_keys.bind fun _ => (within_deleteAll (by simp) _).bind fun _ =>
      (within_deleteACL (by simp)).bind fun _ => only_pure _
  | createItem r bagName =>
    exact within_resolveOrg.bind fun _ => (bag _).bind fun _ => (item r).bind fun _ =>
      only_refuseIf.bind fun _ =>
      only_refuseIf.bind fun _ => (within_create (by simp)).bind fun _ =>
      only_refuseIf.bind fun _ => only_pure _
  | putItem r bagName id =>
    exact within_resolveOrg.bind fun _ => (bag _).bind fun _ =>
      within_reads.only_mustView.bind fun _ =>
      (item r).bind fun _ => (within_put (by simp)).bind fun _ => only_pure _
  | deleteItem bagName id =>
    refine within_resolveOrg.bind fun _ => (bag _).bind fun _ =>
      (within_delete (by simp)).bind (only_option (only_stop _) fun _ => ?_)
    exact only_pure _

def policyWrites : PolicyWrite → Footprint
  | .createRevision _ policy => ⟨[policyRevColl policy], []⟩
  | .deleteRevision policy _ => ⟨[policyGroupsColl], [policyRevColl policy]⟩
  | .delete policy => ⟨[policyGroupsColl], [policyRevColl policy, aclsColl]⟩
  | .putGroupPolicy _ _ policy => ⟨[policyRevColl policy, policyGroupsColl], []⟩
  | .deleteGroupPolicy _ _ => ⟨[policyGroupsColl], []⟩
  | .deleteGroup _ => ⟨[], [policyGroupsColl, aclsColl]⟩

attribute [simp] policyWrites

theorem only_decodeRevision : (decodeRevision r policy).Only allowed :=
  only_readObjectBody.bind fun _ => only_refuseWith.bind fun _ => only_pure _

theorem within_loadGroup : (loadGroup org name).Only (Within org f) :=
  within_reads.only_get.bind fun _ => only_pure _

theorem within_removePolicyFromGroups {rev : GoString} (mem : policyGroupsColl ∈ f.puts) :
    (removePolicyFromGroups org policy rev).Only (Within org f) := by
  have one (group : GoString) :
      (removePolicyFromGroup org policy rev group).Only (Within org f) := by
    refine within_loadGroup.bind (only_option (only_pure _) fun _ => ?_)
    exact only_ite (fun _ => within_put mem) fun _ => only_pure _
  exact within_reads.only_keys.bind fun _ => only_forM one _

theorem within_policy (request : PolicyWrite) :
    (request.handler org).Only (Within org (policyWrites request)) := by
  cases request with
  | createRevision r policy =>
    exact within_resolveOrg.bind fun _ => only_decodeRevision.bind fun _ =>
      (within_create (by simp)).bind fun _ => only_refuseIf.bind fun _ => only_pure _
  | deleteRevision policy rev =>
    refine within_resolveOrg.bind fun _ =>
      (within_delete (by simp)).bind (only_option (only_stop _) fun _ => ?_)
    exact (within_removePolicyFromGroups (by simp)).bind fun _ => only_pure _
  | delete policy =>
    exact within_resolveOrg.bind fun _ => within_reads.only_keys.bind fun _ =>
      only_refuseIf.bind fun _ =>
      (within_deleteAll (by simp) _).bind fun _ =>
      (within_removePolicyFromGroups (by simp)).bind fun _ =>
      (within_deleteACL (by simp)).bind fun _ => only_pure _
  | putGroupPolicy r group policy =>
    exact within_resolveOrg.bind fun _ => only_decodeRevision.bind fun _ =>
      (within_put (by simp)).bind fun _ => within_loadGroup.bind fun _ =>
      (within_put (by simp)).bind fun _ => only_pure _
  | deleteGroupPolicy group policy =>
    refine within_resolveOrg.bind fun _ =>
      within_loadGroup.bind (only_option (only_stop _) fun _ => ?_)
    dsimp only
    split
    · exact only_stop _
    · exact within_reads.only_get.bind fun _ => (within_put (by simp)).bind fun _ => only_pure _
  | deleteGroup group =>
    refine within_resolveOrg.bind fun _ =>
      (within_delete (by simp)).bind (only_option (only_stop _) fun _ => ?_)
    exact (within_deleteACL (by simp)).bind fun _ => only_pure _

def cookbookWrites : CookbookWrite → Footprint
  | .putVersion .. => ⟨[cookbooksColl], []⟩
  | .deleteVersion .. => ⟨[], [cookbooksColl, aclsColl]⟩
  | .putArtifact .. => ⟨[artifactsColl], []⟩
  | .deleteArtifact .. => ⟨[], [artifactsColl, aclsColl]⟩
  | .putFile .. => ⟨[], []⟩
  | .createSandbox _ => ⟨[sandboxesColl], []⟩
  | .commitSandbox _ => ⟨[sandboxesColl], []⟩

attribute [simp] cookbookWrites

theorem within_hasBlob {checksum : GoString} : (Org.hasBlob org checksum).Only (Within org f) :=
  only_perform trivial

theorem within_requireBlobs {message : GoString → GoString} (sums : List GoString) :
    (requireBlobs org message sums).Only (Within org f) := by
  induction sums with
  | nil => exact only_pure _
  | cons sum sums ih => exact within_hasBlob.bind fun _ => only_refuseIf.bind fun _ => ih

theorem within_collectChecksums (keys : List GoString) :
    (collectChecksums org coll keys).Only (Within org f) := by
  induction keys with
  | nil => exact only_pure _
  | cons key keys ih => exact within_reads.only_get.bind fun _ => ih.bind fun _ => only_pure _

theorem within_referencedChecksums : (referencedChecksums org).Only (Within org f) :=
  within_reads.only_keys.bind fun _ => (within_collectChecksums _).bind fun _ =>
    within_reads.only_keys.bind fun _ => (within_collectChecksums _).bind fun _ => only_pure _

theorem within_collectManifest : (collectManifest org raw).Only (Within org f) := by
  have blob (sum : GoString) : (Org.deleteBlob org sum).Only (Within org f) := only_perform rfl
  unfold collectManifest
  split
  · exact only_ite (fun _ => only_pure _) fun _ => within_referencedChecksums.bind fun _ =>
      only_forM (fun sum => only_ite (fun _ => only_pure _) fun _ => blob sum) _
  · exact only_pure _

theorem within_deleteVersionedACL (mem : aclsColl ∈ f.deletes) :
    (deleteVersionedACL org coll name).Only (Within org f) := by
  have versions : (hasVersion org coll name).Only (Within org f) :=
    within_reads.only_range.bind fun _ => only_pure _
  exact versions.bind fun _ => only_ite (fun _ => only_pure _) fun _ => within_deleteACL mem

theorem only_decodeManifestBody : (decodeManifestBody r).Only allowed :=
  only_readObjectBody.bind fun _ => only_refuseIf.bind fun _ => only_pure _

theorem only_cookbookManifest {version : GoString} :
    (cookbookManifest r name version).Only allowed :=
  only_refuseWith.bind fun _ => only_decodeManifestBody.bind fun _ => only_refuseWith.bind fun _ =>
    only_pure _

theorem within_cookbook {files : FileEnv} (request : CookbookWrite) :
    (request.handler files org).Only (Within org (cookbookWrites request)) := by
  cases request with
  | putVersion r name version =>
    refine within_resolveOrg.bind fun _ => only_cookbookManifest.bind fun _ =>
      (within_requireBlobs _).bind fun _ =>
      within_reads.only_get.bind fun previous => (within_put (by simp)).bind fun _ => ?_
    cases previous with
    | none => exact only_pure _
    | some raw => exact within_collectManifest.bind fun _ => only_pure _
  | deleteVersion r name version =>
    have resolved : (resolveVersion org name version).Only (Within org ⟨[], [cookbooksColl, aclsColl]⟩) :=
      only_ite (fun _ => only_pure _) fun _ => within_reads.only_keys.bind fun _ => only_pure _
    refine within_resolveOrg.bind fun _ => resolved.bind (only_option (only_stop _) fun _ => ?_)
    refine (within_delete (by simp)).bind (only_option (only_stop _) fun _ => ?_)
    exact (within_deleteVersionedACL (by simp)).bind fun _ =>
      within_collectManifest.bind fun _ => only_pure _
  | putArtifact r name ident =>
    have manifest : (artifactManifest r).Only (Within org ⟨[artifactsColl], []⟩) :=
      only_decodeManifestBody.bind fun _ => only_refuseWith.bind fun _ => only_pure _
    exact within_resolveOrg.bind fun _ => within_reads.only_get.bind fun _ =>
      only_refuseIf.bind fun _ =>
      manifest.bind fun _ => (within_requireBlobs _).bind fun _ =>
      (within_put (by simp)).bind fun _ => only_pure _
  | deleteArtifact r name ident =>
    refine within_resolveOrg.bind fun _ =>
      (within_delete (by simp)).bind (only_option (only_stop _) fun _ => ?_)
    exact (within_deleteVersionedACL (by simp)).bind fun _ =>
      within_collectManifest.bind fun _ => only_pure _
  | putFile r checksum =>
    have blob : (Org.putBlob org checksum r.body).Only (Within org ⟨[], []⟩) := only_perform rfl
    exact within_resolveOrg.bind fun _ => only_refuseIf.bind fun _ => blob.bind fun _ => only_pure _
  | createSandbox r =>
    have entries (sums : List GoString) :
        (uploadEntries files r org sums).Only (Within org ⟨[sandboxesColl], []⟩) := by
      induction sums with
      | nil => exact only_pure _
      | cons sum sums ih => exact within_hasBlob.bind fun _ => ih.bind fun _ => only_pure _
    refine within_resolveOrg.bind fun _ => ?_
    dsimp only
    split
    · exact only_stop _
    · exact (entries _).bind fun _ => (within_put (by simp)).bind fun _ => only_pure _
  | commitSandbox id =>
    refine within_resolveOrg.bind fun _ =>
      within_reads.only_get.bind (only_option (only_stop _) fun _ => ?_)
    dsimp only
    split
    · exact only_stop _
    · exact (within_requireBlobs _).bind fun _ => (within_put (by simp)).bind fun _ => only_pure _

theorem colon_mem_dataBagItemsColl (bag : GoString) : 0x3A ∈ dataBagItemsColl bag :=
  List.mem_append_left _ (by decide)

theorem colon_mem_policyRevColl (policy : GoString) : 0x3A ∈ policyRevColl policy :=
  List.mem_append_left _ (by decide)

theorem colon_mem_keysColl (segment actor : GoString) : 0x3A ∈ keysColl segment actor :=
  List.mem_append_left _ (List.mem_append_right _ (by decide))

theorem ne_of_colon {plain : GoString} (noColon : 0x3A ∉ plain) (colon : 0x3A ∈ coll) :
    plain ≠ coll :=
  fun same => noColon (same ▸ colon)

theorem ne_dataBagItemsColl (noColon : 0x3A ∉ coll) (bag : GoString) :
    coll ≠ dataBagItemsColl bag :=
  ne_of_colon noColon (colon_mem_dataBagItemsColl bag)

theorem ne_policyRevColl (noColon : 0x3A ∉ coll) (policy : GoString) :
    coll ≠ policyRevColl policy :=
  ne_of_colon noColon (colon_mem_policyRevColl policy)

theorem ne_keysColl (noColon : 0x3A ∉ coll) (segment actor : GoString) :
    coll ≠ keysColl segment actor :=
  ne_of_colon noColon (colon_mem_keysColl segment actor)

theorem segment_cases (route : ActorRoute) : route.segment = users ∨ route.segment = clients := by
  cases route with
  | users => exact .inl rfl
  | clients org => exact .inr rfl

def aclSpace : AclWrite → GoString
  | .object org _ _ => org
  | .organization org => org
  | .user _ => global

theorem within_updateACLPermDoc {members : Option GoString} {status : Nat} :
    (updateACLPermDoc r org members typ name perm status).Only (Within org ⟨[aclsColl], []⟩) := by
  unfold updateACLPermDoc
  dsimp only
  refine only_guard (only_stop _)
    (within_reads.only_aclObjectExists.bind fun _ => only_guard (only_stop _)
    (only_decodeBody.bind fun _ => only_ite (fun _ => within_reads.only_removesAdminsFromGrant.bind fun _ =>
      only_guard (only_stop _) ?_) fun _ => ?_))
  all_goals
    exact within_reads.only_unknownACEMembers.bind fun _ => only_guard (only_stop _)
      (within_reads.only_loadACL.bind fun _ => only_assign.bind fun _ =>
        (within_put (by simp)).bind fun _ => only_pure _)

theorem within_acl (request : AclWrite) :
    (request.handler r perm).Only (Within (aclSpace request) ⟨[aclsColl], []⟩) := by
  cases request with
  | object | organization => exact within_resolveOrg.bind fun _ => within_updateACLPermDoc
  | user name => exact within_updateACLPermDoc

theorem within_removeFromACLs {kind : GoString} (mem : aclsColl ∈ f.puts) :
    (removeFromACLs org kind name).Only (Within org f) := by
  have one (row : GoString × Raw) : (rewriteACL org kind name row.1 row.2).Only (Within org f) := by
    unfold rewriteACL
    split
    · exact only_pure _
    · exact within_put mem
  exact within_reads.only_range.bind fun _ => only_forM one _

theorem within_clearMembers {group : GoString} (mem : groupMembersColl ∈ f.deletes) :
    (clearMembers org group).Only (Within org f) :=
  within_reads.only_range.bind fun _ => within_deleteAll mem _

theorem within_removeActorFromAllGroups {kind : MemberKind} {actor : GoString}
    (rows : groupMembersColl ∈ f.deletes)
    (docs : groupsColl ∈ f.puts) :
    (removeActorFromAllGroups org kind actor).Only (Within org f) := by
  have doc (name : GoString) : (removeFromGroupDoc org kind actor name).Only (Within org f) := by
    refine within_reads.only_get.bind fun found => ?_
    split
    · exact only_pure _
    · exact within_put docs
  have memberRows : (removeMemberRows org kind actor).Only (Within org f) :=
    within_reads.only_range.bind fun _ => within_deleteAll rows _
  exact memberRows.bind fun _ => within_reads.only_keys.bind fun _ => only_forM doc _

theorem within_joinOrg {user : GoString} (assoc : assocColl ∈ f.puts)
    (rows : groupMembersColl ∈ f.puts) :
    (joinOrg org user).Only (Within org f) :=
  (within_put assoc).bind fun _ => within_put rows

def membershipWrites : MembersWrite → Footprint
  | .associate _ => ⟨[assocColl, groupMembersColl], []⟩
  | .disassociate _ => ⟨[groupsColl], [assocColl, groupMembersColl]⟩
  | .invite _ => ⟨[assocReqColl], []⟩
  | .rescind _ => ⟨[], [assocReqColl]⟩
  | .createGroup _ => ⟨[groupsColl], [groupMembersColl]⟩
  | .putGroup _ _ => ⟨[groupsColl], [groupMembersColl]⟩
  | .deleteGroup _ => ⟨[aclsColl, groupsColl], [aclsColl, groupMembersColl, groupsColl]⟩

attribute [simp] membershipWrites

theorem within_membership (request : MembersWrite) :
    (request.handler org).Only (Within org (membershipWrites request)) := by
  cases request with
  | associate r =>
    exact within_resolveOrg.bind fun _ => only_decodeBody.bind fun _ => only_refuseIf.bind fun _ =>
      within_reads.only_mustExist.bind fun _ => within_reads.only_refuseMember.bind fun _ =>
      (within_joinOrg (by simp) (by simp)).bind fun _ => only_pure _
  | disassociate user =>
    exact within_resolveOrg.bind fun _ => within_reads.only_mustExist.bind fun _ =>
      within_reads.only_refuseAdmin.bind fun _ => (within_delete (by simp)).bind fun _ =>
      (within_removeActorFromAllGroups (by simp) (by simp)).bind fun _ =>
      only_pure _
  | invite r =>
    exact within_resolveOrg.bind fun _ => only_decodeBody.bind fun _ => only_refuseIf.bind fun _ =>
      within_reads.only_mustExist.bind fun _ => within_reads.only_refuseMember.bind fun _ =>
      within_reads.only_refuseInvited.bind fun _ => (within_put (by simp)).bind fun _ => only_pure _
  | rescind id =>
    refine within_resolveOrg.bind fun _ =>
      (within_delete (by simp)).bind (only_option (only_stop _) fun _ => ?_)
    exact only_pure _
  | createGroup r =>
    exact within_resolveOrg.bind fun _ => only_decodeBody.bind fun _ => only_refuseIf.bind fun _ =>
      only_refuseIf.bind fun _ => (within_clearMembers (by simp)).bind fun _ =>
      (within_create (by simp)).bind fun _ => only_refuseIf.bind fun _ => only_pure _
  | putGroup r name =>
    exact within_resolveOrg.bind fun _ => within_reads.only_mustView.bind fun _ =>
      only_decodeObjectBody.bind fun _ =>
      within_reads.only_mustView.bind fun _ => within_reads.only_groupMembership.bind fun _ =>
      (within_reads.only_knownGroupMembers _).bind fun _ =>
        (within_clearMembers (by simp)).bind fun _ =>
      (within_put (by simp)).bind fun _ => only_pure _
  | deleteGroup name =>
    refine within_resolveOrg.bind fun _ => within_reads.only_mustExist.bind fun _ =>
      (within_removeFromACLs (by simp)).bind fun _ =>
      (within_removeActorFromAllGroups (by simp) (by simp)).bind fun _ =>
      (within_clearMembers (by simp)).bind fun _ =>
      (within_deleteACL (by simp)).bind fun _ =>
      (within_delete (by simp)).bind (only_option (only_stop _) fun _ => ?_)
    exact only_pure _

variable {env : Env} {segment : GoString} {route : ActorRoute}

theorem within_stashPassword {obj : Option Object} (mem : passwordsCollection ∈ f.puts) :
    (stashPassword env org name obj).Only (Within org f) :=
  only_stashPassword fun _ => ⟨rfl, mem⟩

theorem within_createActor [Unicode] : (createActor env enforceACL r org segment).Only
      (Within org ⟨[passwordsCollection, segment, aclsColl, groupMembersColl], []⟩) := by
  have join (name : GoString) (obj : Option Object) : (joinClients enforceACL org segment name obj).Only
      (Within org ⟨[passwordsCollection, segment, aclsColl, groupMembersColl], []⟩) :=
    only_ite (fun _ => within_put (by simp)) fun _ => only_pure _
  exact only_createBody.bind fun _ => within_reads.only_actorNameCollision.bind fun _ =>
    only_refuseWith.bind fun _ => only_recordKey.bind fun _ =>
      (within_stashPassword (by simp)).bind fun _ =>
    (within_create (by simp)).bind fun _ => only_refuseIf.bind fun _ =>
    (within_grantCreator (by simp)).bind fun _ => (join _ _).bind fun _ => only_pure _

theorem within_setActorPublicKey {actor : Option Object} {pub : GoString} (mem : segment ∈ f.puts) :
    (setActorPublicKey org segment name actor pub).Only (Within org f) := by
  refine only_ite (fun _ => ?_) fun _ => only_assign.bind fun _ => within_put mem
  exact within_put mem

theorem within_carryKey {regenerate : Bool} {obj : Option Object}
    (mem : keysColl segment name ∈ f.puts) :
    (carryKey env regenerate org segment name obj).Only (Within org f) := by
  have stored : (storedPublicKey org segment name).Only (Within org f) :=
    within_reads.only_get.bind fun _ => only_pure _
  have row (pub : GoString) :
      (setStoredDefaultPublicKey org segment name pub).Only (Within org f) := by
    refine within_reads.only_get.bind (only_option (only_pure _) fun _ => ?_)
    dsimp only
    split
    · exact only_stop _
    · exact only_assign.bind fun _ => within_put mem
  have finish (pub : GoString) (obj : Option Object) :
      (if pub ≠ [] then assign obj (lit "public_key") (.string pub) else pure obj : Handler _).Only (Within org f) :=
    only_ite (fun _ => only_assign) fun _ => only_pure _
  exact only_ite (fun _ => (row _).bind fun _ => finish _ _) fun _ =>
    stored.bind fun _ => finish _ _

theorem within_putActor [Unicode] : (putActor env r route name).Only
    (Within route.org ⟨[keysColl route.segment name, route.segment, passwordsCollection], []⟩) :=
  within_reads.only_scope.bind fun _ => within_reads.only_mustView.bind fun _ =>
    only_updateBody.bind fun _ =>
    within_reads.only_mergeUpdate.bind fun _ => (within_carryKey (by simp)).bind fun _ =>
    within_reads.only_preservePrivilege.bind fun _ => (within_stashPassword (by simp)).bind fun _ =>
    (within_put (by simp)).bind fun _ =>
      only_ite (fun _ => only_assign.bind fun _ => only_pure _) fun _ => only_pure _

theorem within_loadActor : (loadActor org segment name).Only (Within org f) := by
  refine within_reads.only_get.bind (only_option (only_stop _) fun _ => ?_)
  dsimp only
  split
  · exact only_stop _
  · exact only_pure _

theorem within_key (request : KeyWrite) : (request.handler route name).Only
    (Within route.org ⟨[keysColl route.segment name, route.segment], [keysColl route.segment name]⟩) := by
  have record (actor : Option Object) (pub : GoString) : (setActorPublicKey route.org route.segment name actor pub).Only
        (Within route.org ⟨[keysColl route.segment name, route.segment], [keysColl route.segment name]⟩) :=
    within_setActorPublicKey (by simp)
  cases request with
  | add env r =>
    exact within_reads.only_scope.bind fun _ => within_loadActor.bind fun _ =>
      only_decodeBody.bind fun _ =>
      only_refuseIf.bind fun _ => only_refuseWith.bind fun _ => only_refuseIf.bind fun _ =>
      (within_create (by simp)).bind fun _ => only_refuseIf.bind fun _ =>
      only_ite (fun _ => (record _ _).bind fun _ => only_pure _) fun _ => only_pure _
  | put env r key =>
    have rename (keyName newName : GoString) (actor : Option Object) (key : Members) (pub privateKey : GoString) :
        (renameKey route.org route.segment name keyName newName actor key pub privateKey).Only
          (Within route.org ⟨[keysColl route.segment name, route.segment], [keysColl route.segment name]⟩) :=
      only_refuseIf.bind fun _ => (within_create (by simp)).bind fun _ => only_refuseIf.bind fun _ =>
        (within_delete (by simp)).bind fun _ =>
          only_ite (fun _ => (record _ _).bind fun _ => only_pure _) fun _ =>
        only_ite (fun _ => (record _ _).bind fun _ => only_pure _) fun _ => only_pure _
    refine within_reads.only_scope.bind fun _ => within_loadActor.bind fun actor =>
      only_decodeBody.bind fun _ =>
      only_refuseIf.bind fun _ => only_refuseWith.bind fun _ => within_reads.only_get.bind fun old =>
      only_refuseIf.bind fun _ => ?_
    cases old with
    | none =>
      have rest (read : Object) (privateKey : GoString) :
          (storeDefaultKey route.org route.segment name actor read privateKey).Only
            (Within route.org ⟨[keysColl route.segment name, route.segment], [keysColl route.segment name]⟩) :=
        only_refuseIf.bind fun _ => (within_put (by simp)).bind fun _ => (record _ _).bind fun _ =>
          only_pure _
      exact only_ite (fun _ => only_assign.bind fun _ => rest _ _) fun _ => rest _ _
    | some raw =>
      have rest (read : Object) (privateKey : GoString) :
          (updateKey route.org route.segment name key actor read privateKey raw).Only
            (Within route.org ⟨[keysColl route.segment name, route.segment], [keysColl route.segment name]⟩) := by
        dsimp only [updateKey]
        split
        · exact only_stop _
        · exact only_refuseIf.bind fun _ => only_ite (fun _ => (within_put (by simp)).bind fun _ =>
            only_ite (fun _ => (record _ _).bind fun _ => only_pure _) fun _ => only_pure _) fun _ => rename _ _ _ _ _ _
      exact only_ite (fun _ => only_assign.bind fun _ => rest _ _) fun _ => rest _ _
  | delete key =>
    refine within_reads.only_scope.bind fun _ => within_loadActor.bind fun _ =>
      (within_delete (by simp)).bind fun deleted => ?_
    cases deleted with
    | some raw => exact only_ite (fun _ => (record _ _).bind fun _ => only_pure _) fun _ => only_pure _
    | none => exact only_ite (fun _ => (within_put (by simp)).bind fun _ => only_pure _) fun _ => only_stop _

theorem within_putOrganization :
    (putOrganization r name).Only (Within global ⟨[orgsColl], []⟩) := by
  have fullName (stored update : Option Object) :
      (updateFullName stored update).Only (Within global ⟨[orgsColl], []⟩) := by
    unfold updateFullName
    split
    · exact only_pure _
    · exact only_ite (fun _ => only_stop _) fun _ => only_assign
  refine within_reads.only_get.bind (only_option (only_stop _) fun _ => ?_)
  dsimp only
  split
  · exact only_stop _
  · exact only_decodeBody.bind fun _ => only_refuseIf.bind fun _ => (fullName _ _).bind fun _ =>
      (within_put (by simp)).bind fun _ => only_pure _

end CincServer.Proof.Api
