import CincServer.Proof.Api.AclLifetime

/-!
# The revisions that policy groups deploy are stored
-/

namespace CincServer.Proof.Api
open CincServer.Api CincServer.Json Go Lib Program

variable {r : Request} {org coll key group policy rev : GoString} {raw : Raw} {s t : Store}

def Intact (s : Store) : Prop :=
  ∀ org group policy rev, deployed (s.get org policyGroupsColl group) policy = some ⟨rev⟩ →
    (s.get org (policyRevColl policy) rev).isSome

section

variable (intact : Intact s)
include intact

theorem Intact.put_revision : Intact (s.put org (policyRevColl policy) rev raw) := by
  intro org' group other current found
  rw [get_put_of_ne (policyGroupsColl_ne policy).symm] at found
  have stored := intact org' group other current found
  rw [get_put]
  split
  · rfl
  · exact stored

theorem Intact.put_group
    (stored : ∀ policy rev, deployed (some raw) policy = some ⟨rev⟩ → (s.get org (policyRevColl policy) rev).isSome) :
    Intact (s.put org policyGroupsColl group raw) := by
  intro org' other policy rev found
  rw [get_put] at found
  rw [get_put_of_ne (policyGroupsColl_ne policy)]
  split at found
  · next here =>
    rw [← here.1]
    exact stored policy rev found
  · exact intact org' other policy rev found

theorem Intact.delete_other (apart : ∀ policy, coll ≠ policyRevColl policy) :
    Intact (s.delete org coll key).1 := by
  intro org' group policy rev found
  rw [get_delete] at found
  rw [get_delete, if_neg fun here => apart policy here.2.1]
  split at found
  · cases found
  · exact intact org' group policy rev found

theorem Intact.remove (groups : ∀ org' group, t.get org' policyGroupsColl group =
      s.get org' policyGroupsColl group)
    (revisions : ∀ org' other current, (s.get org' (policyRevColl other) current).isSome →
      (t.get org' (policyRevColl other) current).isSome ∨ org = org' ∧ other = policy ∧ (rev = [] ∨ current = rev)) :
    ∃ u, (removePolicyFromGroups org policy rev).run exec t = (.ok (), u) ∧ Intact u := by
  obtain ⟨u, ran, gets⟩ := run_removePolicyFromGroups org policy rev t
  refine ⟨u, ran, fun org' group other current found => ?_⟩
  rw [gets, if_neg fun here => policyGroupsColl_ne other here.2]
  rw [gets, groups, groups] at found
  split at found
  · next here =>
    rw [here.1] at found
    obtain ⟨before, spared⟩ := deployed_dropped found
    refine (revisions org' other current (intact _ _ _ _ before)).resolve_right fun gone =>
      spared gone.2
  · next apart =>
    refine (revisions org' other current (intact _ _ _ _ found)).resolve_right fun gone =>
      apart ⟨gone.1, rfl⟩

theorem Intact.createPolicyRevision :
    Leads exec Intact (createPolicyRevision r org policy) s fun _ => Intact := by
  refine (leads_resolveOrg intact).past fun _ _ => ?_
  rcases decodeRevision_cases r policy with sent | ⟨refusal, sent⟩
  · rw [sent]
    refine (leads_create intact).then ?_
    rintro _ _ ⟨-, rfl⟩
    exact intact.put_revision
  · rw [sent]
    exact intact

theorem Intact.deletePolicy : Leads exec Intact (deletePolicy org policy) s fun _ => Intact := by
  refine (leads_resolveOrg intact).past fun _ _ => ?_
  refine leads_keys_bind.mpr ((leads_refuseIf intact).then ?_)
  rintro _ s ⟨rfl, -⟩
  obtain ⟨mid, deletes, gets⟩ := deleteAll_get org (policyRevColl policy) nodup_keys s
  have groups (org' group : GoString) :
      mid.get org' policyGroupsColl group = s.get org' policyGroupsColl group := by
    rw [gets, if_neg fun here => policyGroupsColl_ne policy here.2.1.symm]
  have revisions (org' other current : GoString) (stored : (s.get org' (policyRevColl other) current).isSome) :
      (mid.get org' (policyRevColl other) current).isSome ∨
        org = org' ∧ other = policy ∧ ([] = ([] : GoString) ∨ current = []) := by
    rw [gets]
    split
    · next here => exact .inr ⟨here.1, (List.append_cancel_left here.2.1).symm, .inl rfl⟩
    · exact .inl stored
  obtain ⟨t, drops, kept⟩ := intact.remove groups revisions
  refine leads_bind.mpr (leads_of_run deletes (leads_bind.mpr (leads_of_run drops ?_)))
  exact leads_bind.mpr (leads_of_run run_deleteACL
    (kept.delete_other fun other => ne_of_colon (by decide) (colon_mem_policyRevColl other)))

theorem Intact.deletePolicyRevision :
    Leads exec Intact (deletePolicyRevision org policy rev) s fun _ => Intact := by
  refine (leads_resolveOrg intact).past fun _ _ => ?_
  refine leads_deleteRow intact fun raw _ => ?_
  have groups (org' group : GoString) :
      (s.delete org (policyRevColl policy) rev).1.get org' policyGroupsColl group = s.get org' policyGroupsColl group := by
    rw [get_delete, if_neg fun here => policyGroupsColl_ne policy here.2.1.symm]
  have revisions (org' other current : GoString) (stored : (s.get org' (policyRevColl other) current).isSome) :
      ((s.delete org (policyRevColl policy) rev).1.get org' (policyRevColl other) current).isSome ∨
        org = org' ∧ other = policy ∧ (rev = [] ∨ current = rev) := by
    rw [get_delete]
    split
    · next here => exact .inr ⟨here.1, (List.append_cancel_left here.2.1).symm, .inr here.2.2.symm⟩
    · exact .inl stored
  obtain ⟨t, drops, kept⟩ := intact.remove groups revisions
  exact leads_bind.mpr (leads_of_run drops kept)

theorem Intact.deletePolicyGroup :
    Leads exec Intact (deletePolicyGroup org group) s fun _ => Intact := by
  refine (leads_resolveOrg intact).past fun _ _ => ?_
  refine leads_deleteRow intact fun raw _ => leads_bind.mpr (leads_of_run run_deleteACL ?_)
  exact (intact.delete_other policyGroupsColl_ne).delete_other fun other =>
    ne_of_colon (by decide) (colon_mem_policyRevColl other)

theorem Intact.putGroupPolicy :
    Leads exec Intact (putGroupPolicy r org group policy) s fun _ => Intact := by
  refine (leads_resolveOrg intact).past fun _ _ => ?_
  rcases decodeRevision_cases r policy with sent | ⟨refusal, sent⟩
  · rw [sent]
    have stored := @Intact.put_revision org policy (sentRevision r).2 (sentRevision r).1 s intact
    refine stored.put_group fun other current found => ?_
    rw [deployed_encodePolicyGroup, Std.ExtTreeMap.getElem?_insert] at found
    split at found
    · next same =>
      obtain rfl := Std.compare_eq_iff_eq.mp same
      cases found
      rw [get_put, if_pos ⟨rfl, rfl, rfl⟩]
      rfl
    · refine stored org group other current ?_
      rw [deployed_eq]
      exact found
  · rw [sent]
    exact intact

theorem Intact.deleteGroupPolicy :
    Leads exec Intact (deleteGroupPolicy org group policy) s fun _ => Intact := by
  refine (leads_resolveOrg intact).past fun _ _ => ?_
  rw [loadGroup, bind_bind, leads_iff, run_get_bind]
  cases loaded : (s.get org policyGroupsColl group).bind decodePolicyGroup with
  | none => exact intact
  | some g =>
    have before (other : GoString) :
        deployed (s.get org policyGroupsColl group) other = g.policies[other]? := by
      rw [deployed, loaded, Option.bind_some]
    dsimp only [run_pure_bind]
    cases g.policies[policy]? with
    | none => exact intact
    | some current =>
      refine intact.put_group fun other current found => ?_
      rw [deployed_encodePolicyGroup, Std.ExtTreeMap.getElem?_erase] at found
      split at found
      · cases found
      · exact intact org group other current ((before other).trans found)

end

abbrev PolicySession (start : Store) : Store → Prop :=
  Session exec (fun request : GoString × PolicyWrite => request.2.handler request.1) (fun _ _ => True) start

/-- Policy requests one after another keep the revisions of every group stored. -/
theorem deployed_revisions_stored {start : Store} (initial : Intact start)
    (reached : PolicySession start s) : Intact s := by
  refine reached.invariant initial fun ⟨org, request⟩ s _ _ intact => ?_
  cases request with
  | createRevision r policy => exact intact.createPolicyRevision
  | deleteRevision policy rev => exact intact.deletePolicyRevision
  | delete policy => exact intact.deletePolicy
  | putGroupPolicy r group policy => exact intact.putGroupPolicy
  | deleteGroupPolicy group policy => exact intact.deleteGroupPolicy
  | deleteGroup group => exact intact.deletePolicyGroup

theorem web_revision_stored :
    let s := ((deletePolicyGroup acme (lit "prod")).run exec (deployedTo [lit "dev", lit "prod"])).2
    deployed (s.get acme policyGroupsColl (lit "dev")) (lit "web") = some ⟨lit "1"⟩ ∧
      (s.get acme (policyRevColl (lit "web")) (lit "1")).isSome := by
  let start : Store := deployedTo []
  have initial : Intact start := fun _ _ _ _ found => by cases found
  have dev : PolicySession start (deployedTo [lit "dev"]) :=
    .serve .start (acme, PolicyWrite.putGroupPolicy (webPolicy []) (lit "dev") (lit "web")) trivial
  have both : PolicySession start (deployedTo [lit "dev", lit "prod"]) :=
    .serve dev (acme, PolicyWrite.putGroupPolicy (webPolicy []) (lit "prod") (lit "web")) trivial
  have reached := both.serve (acme, PolicyWrite.deleteGroup (lit "prod")) trivial
  have records : deployed (((deletePolicyGroup acme (lit "prod")).run exec (deployedTo [lit "dev", lit "prod"])).2.get acme
      policyGroupsColl (lit "dev")) (lit "web") = some ⟨lit "1"⟩ := rfl
  exact ⟨records, deployed_revisions_stored initial reached acme (lit "dev") (lit "web")
    (lit "1") records⟩

end CincServer.Proof.Api
