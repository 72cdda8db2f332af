import CincServer.Proof.Api.ActorDeletion

/-!
# The documents of policy groups, and what a deployment changes
-/

namespace CincServer.Proof.Api
open CincServer.Api CincServer.Json Go Lib Program

section Documents

variable {r : Request} {org group policy : GoString} {s : Store}

def encodedPolicy (entry : GoString × GroupPolicy) : GoString × Value :=
  (entry.1, .object [(lit "revision_id", .string entry.2.revisionID)])

theorem decodePolicies_encoded (entries : List (GoString × GroupPolicy))
    (policies : GoMap GroupPolicy) :
    decodePolicies (entries.map encodedPolicy) policies =
      some (entries.foldl (fun policies entry => policies.insert entry.1 entry.2) policies) := by
  induction entries generalizing policies with
  | nil => rfl
  | cons entry rest ih =>
    rw [List.map_cons, List.foldl_cons, ← ih, encodedPolicy, decodePolicies]
    rfl

theorem foldl_insert_toList (policies : GoMap GroupPolicy) :
    policies.toList.foldl (fun policies entry => policies.insert entry.1 entry.2) ∅ = policies := by
  refine Std.ExtTreeMap.ext_getElem? fun name => ?_
  have one (policies : GoMap GroupPolicy) (entry : GoString × GroupPolicy) : (policies.insert entry.1 entry.2)[name]? =
        if entry.1 = name then (some entry.2).or policies[name]? else policies[name]? := by
    simp only [Std.ExtTreeMap.getElem?_insert, Std.compare_eq_iff_eq, Option.some_or]
  have distinct : (policies.toList.map Prod.fst).Nodup := by
    rw [Std.ExtTreeMap.map_fst_toList_eq_keys]
    exact Std.ExtTreeMap.nodup_keys
  have holds : Holds policies.toList name policies[name]? := fun _ =>
    Std.ExtTreeMap.mem_toList_iff_getElem?_eq_some
  refine (observe_foldl (fun policies : GoMap GroupPolicy => policies[name]?) some one distinct holds ∅).trans ?_
  cases policies[name]? <;> simp

theorem decodePolicyGroup_encodePolicyGroup (g : PolicyGroup) :
    decodePolicyGroup (encodePolicyGroup g) = some g := by
  have decoded : decodePolicies (g.policies.toList.map encodedPolicy) ∅ = some g.policies := by
    rw [decodePolicies_encoded, foldl_insert_toList]
  exact congrArg (fun read => (read.map PolicyGroup.mk).bind some) decoded

def deployed (row : Option Raw) (policy : GoString) : Option GroupPolicy :=
  (row.bind decodePolicyGroup).bind (·.policies[policy]?)

theorem deployed_encodePolicyGroup (g : PolicyGroup) (policy : GoString) :
    deployed (some (encodePolicyGroup g)) policy = g.policies[policy]? := by
  rw [deployed, Option.bind_some, decodePolicyGroup_encodePolicyGroup, Option.bind_some]

theorem deployed_eq (row : Option Raw) (policy : GoString) :
    deployed row policy = ((row.bind decodePolicyGroup).getD ⟨∅⟩).policies[policy]? := by
  rw [deployed]
  cases row.bind decodePolicyGroup <;> simp

def sentDocument (r : Request) : Members :=
  match r.body with
  | .document (.object members) => (normalizeMembers members).getD []
  | _ => []

def sentRevision (r : Request) : Raw × GoString :=
  (storedObject (sentDocument r), stringMember (firstOf [] (sentDocument r)) (lit "revision_id"))

theorem decodeRevision_cases (r : Request) (policy : GoString) :
    decodeRevision r policy = pure (sentRevision r) ∨
      ∃ response, decodeRevision r policy = .stop response := by
  have read : readObjectBody r = pure (sentDocument r) ∨
      ∃ response, readObjectBody r = .stop response := by
    unfold readObjectBody sentDocument
    cases r.body with
    | malformed => exact .inr ⟨_, rfl⟩
    | document v =>
      cases v with
      | object members =>
        cases read : normalizeMembers members with
        | some members => exact .inl (by simp [read])
        | none => exact .inr ⟨.error 400 [lit "invalid JSON body"], by simp [read, writeError]⟩
      | _ => exact .inr ⟨_, rfl⟩
  rcases read with read | ⟨response, read⟩
  · have checked : decodeRevision r policy =
        (refuseWith 400 (validatePolicyRevision policy (firstOf [] (sentDocument r))) >>= fun _ => pure (sentRevision r)) := by
      rw [decodeRevision, read]
      rfl
    rw [checked]
    cases validatePolicyRevision policy (firstOf [] (sentDocument r)) with
    | none => exact .inl rfl
    | some message => exact .inr ⟨_, rfl⟩
  · exact .inr ⟨response, by rw [decodeRevision, read]; rfl⟩

def deploys (r : Request) (policy : GoString) (row : Option Raw) : Raw :=
  encodePolicyGroup ⟨((row.bind decodePolicyGroup).getD ⟨∅⟩).policies.insert policy ⟨(sentRevision r).2⟩⟩

def Deployed (r : Request) (org group policy : GoString) (s t : Store) : Prop :=
  t = (s.put org (policyRevColl policy) (sentRevision r).2 (sentRevision r).1).put org policyGroupsColl group
    (deploys r policy (s.get org policyGroupsColl group))

theorem policyGroupsColl_ne (policy : GoString) : policyGroupsColl ≠ policyRevColl policy :=
  ne_of_colon (by decide) (colon_mem_policyRevColl policy)

theorem get_group_put_revision (s : Store) (org policy group rev : GoString) (raw : Raw) :
    (s.put org (policyRevColl policy) rev raw).get org policyGroupsColl group = s.get org policyGroupsColl group :=
  get_put_of_ne (policyGroupsColl_ne policy).symm

theorem run_putGroupPolicy_ok {response : Response} {t : Store}
    (ran : (putGroupPolicy r org group policy).run exec s = (.ok response, t)) :
    s.hasOrg org ∧ Deployed r org group policy s t := by
  cases present : s.hasOrg org with
  | false =>
    rw [putGroupPolicy, run_resolveOrg_absent present] at ran
    cases ran
  | true =>
    refine ⟨rfl, ?_⟩
    rw [putGroupPolicy, run_resolveOrg_bind present] at ran
    rcases decodeRevision_cases r policy with sent | ⟨refusal, sent⟩
    · rw [sent] at ran
      rw [Deployed, deploys, ← get_group_put_revision]
      cases ran
      rfl
    · rw [sent] at ran
      cases ran

def shown (group policy : GoString) (g : Option PolicyGroup)
    (revision : GoString → Option Raw) : Response :=
  match g with
  | none => .error 404 [lit "Cannot find policy group " ++ group]
  | some g =>
    match g.policies[policy]? with
    | none => .error 404 [lit "Policy " ++ policy ++ lit " not in group"]
    | some deployed => (revision deployed.revisionID).elim (.error 404 [lit "Cannot find policy revision"]) (.json 200)

theorem answer_getGroupPolicy (present : s.hasOrg org) :
    answer ((getGroupPolicy org group policy).run exec s).1 =
      shown group policy ((s.get org policyGroupsColl group).bind decodePolicyGroup)
        fun rev => s.get org (policyRevColl policy) rev := by
  have loaded : (loadGroup org group).run exec s =
      (.ok ((s.get org policyGroupsColl group).bind decodePolicyGroup), s) := rfl
  rw [getGroupPolicy, run_resolveOrg_bind present, run_bind_of_ok loaded]
  unfold shown
  cases (s.get org policyGroupsColl group).bind decodePolicyGroup with
  | none => rfl
  | some g =>
    dsimp only
    cases g.policies[policy]? with
    | none => rfl
    | some deployed =>
      dsimp only
      rw [run_get_bind]
      cases s.get org (policyRevColl policy) deployed.revisionID <;> rfl

theorem shown_revision_iff {g : Option PolicyGroup} {revision : GoString → Option Raw}
    {rev : GoString} {raw : Raw} :
    shown group policy g (fun other => if rev = other then some raw else revision other) = shown group policy g revision ↔
      (g.bind (·.policies[policy]?) = some ⟨rev⟩ → revision rev = some raw) := by
  cases g with
  | none => simp [shown]
  | some g =>
    rw [shown, shown, Option.bind_some]
    cases deploys : g.policies[policy]? with
    | none => simp
    | some deployed =>
      obtain ⟨current⟩ := deployed
      by_cases same : rev = current
      · subst same
        cases found : revision rev with
        | none => simp [found]
        | some stored => simp [found, eq_comm]
      · simp [same, Ne.symm same]

section Deployment

variable {t : Store}

theorem Deployed.get_group (made : Deployed r org group policy s t) (other : GoString) :
    t.get org policyGroupsColl other =
      if group = other then some (deploys r policy (s.get org policyGroupsColl group))
      else s.get org policyGroupsColl other := by
  rw [made, get_put, get_group_put_revision]
  simp

theorem Deployed.get_revision (made : Deployed r org group policy s t) (other rev : GoString) :
    t.get org (policyRevColl other) rev =
      if policy = other ∧ (sentRevision r).2 = rev then some (sentRevision r).1 else s.get org (policyRevColl other) rev := by
  rw [made, get_put_of_ne (policyGroupsColl_ne other), get_put]
  simp [policyRevColl]

theorem Deployed.hasOrg (made : Deployed r org group policy s t) : t.hasOrg org = s.hasOrg org := by
  rw [made]
  rfl

variable (made : Deployed r org group policy s t) (present : s.hasOrg org)
include made present

theorem Deployed.other_groups_iff :
    (∀ group' ≠ group, ∀ policy', answer ((getGroupPolicy org group' policy').run exec t).1 =
      answer ((getGroupPolicy org group' policy').run exec s).1) ↔
    ∀ group' ≠ group, deployed (s.get org policyGroupsColl group') policy =
      some ⟨(sentRevision r).2⟩ →
      s.get org (policyRevColl policy) (sentRevision r).2 = some (sentRevision r).1 := by
  have present' : t.hasOrg org := made.hasOrg.trans present
  refine forall_congr' fun group' => forall_congr' fun other => ?_
  simp only [answer_getGroupPolicy present, answer_getGroupPolicy present', made.get_group,
    if_neg (Ne.symm other), made.get_revision]
  constructor
  · intro same
    have own := same policy
    simp only [true_and] at own
    exact shown_revision_iff.mp own
  · intro stored policy'
    by_cases isPolicy : policy = policy'
    · subst isPolicy
      simp only [true_and]
      exact shown_revision_iff.mpr stored
    · simp only [isPolicy, false_and, if_false]

theorem Deployed.own_group_iff :
    (∀ policy' ≠ policy, answer ((getGroupPolicy org group policy').run exec t).1 =
      answer ((getGroupPolicy org group policy').run exec s).1) ↔
    ((s.get org policyGroupsColl group).bind decodePolicyGroup).isSome := by
  have present' : t.hasOrg org := made.hasOrg.trans present
  have after : (t.get org policyGroupsColl group).bind decodePolicyGroup =
      some ⟨(((s.get org policyGroupsColl group).bind decodePolicyGroup).getD ⟨∅⟩).policies.insert policy
        ⟨(sentRevision r).2⟩⟩ := by
    rw [made.get_group, if_pos rfl, Option.bind_some, deploys, decodePolicyGroup_encodePolicyGroup]
  simp only [answer_getGroupPolicy present, answer_getGroupPolicy present', after,
    made.get_revision]
  cases loaded : (s.get org policyGroupsColl group).bind decodePolicyGroup with
  | none =>
    -- the group was missing, and now it is there without any other policy
    refine iff_of_false (fun same => ?_) (by simp)
    have other : policy ++ lit "-" ≠ policy := fun same => by simp [lit] at same
    have changed := same _ other
    simp [shown, lit] at changed
  | some g =>
    refine iff_of_true (fun policy' other => ?_) rfl
    have kept : (g.policies.insert policy ⟨(sentRevision r).2⟩)[policy']? = g.policies[policy']? := by
      rw [Std.ExtTreeMap.getElem?_insert, if_neg (by simpa using Ne.symm other)]
    simp only [Option.getD_some, shown, kept, Ne.symm other, false_and, if_false]

end Deployment

/-- A deployment leaves what is shown of every other group and policy as it was exactly when the group
was there, and every other group that deploys the revision was shown the document it is sent. -/
theorem deployment_touches_own_pair_iff {response : Response} {t : Store}
    (ran : (putGroupPolicy r org group policy).run exec s = (.ok response, t)) :
    (∀ group' policy', group' ≠ group ∨ policy' ≠ policy → answer ((getGroupPolicy org group' policy').run exec t).1 =
        answer ((getGroupPolicy org group' policy').run exec s).1) ↔
    ((s.get org policyGroupsColl group).bind decodePolicyGroup).isSome ∧
      ∀ group' ≠ group, deployed (s.get org policyGroupsColl group') policy = some ⟨(sentRevision r).2⟩ →
        s.get org (policyRevColl policy) (sentRevision r).2 = some (sentRevision r).1 := by
  obtain ⟨present, made⟩ := run_putGroupPolicy_ok ran
  rw [← Deployed.own_group_iff made present, ← Deployed.other_groups_iff made present]
  constructor
  · exact fun same => ⟨fun policy' other => same _ _ (.inr other),
      fun group' other policy' => same _ _ (.inl other)⟩
  · rintro ⟨own, others⟩ group' policy' other
    by_cases isGroup : group' = group
    · subst isGroup
      exact own policy' (other.resolve_left fun differs => differs rfl)
    · exact others group' isGroup policy'

def dropped (policy rev : GoString) (row : Option Raw) : Option Raw :=
  match row.bind decodePolicyGroup with
  | none => row
  | some g => if dropsPolicy g policy rev then some (encodePolicyGroup ⟨g.policies.erase policy⟩) else row

theorem deployed_dropped {row : Option Raw} {rev other current : GoString}
    (left : deployed (dropped policy rev row) other = some ⟨current⟩) :
    deployed row other = some ⟨current⟩ ∧ ¬ (other = policy ∧ (rev = [] ∨ current = rev)) := by
  unfold dropped at left
  split at left
  · next undecoded =>
    rw [deployed, undecoded] at left
    cases left
  · next g loaded =>
    have before : deployed row other = g.policies[other]? := by rw [deployed, loaded, Option.bind_some]
    rw [before]
    split at left
    · rw [deployed_encodePolicyGroup, Std.ExtTreeMap.getElem?_erase] at left
      split at left
      · cases left
      · next apart => exact ⟨left, fun same => apart (by simp [same.1])⟩
    · next stays =>
      rw [before] at left
      refine ⟨left, fun ⟨same, matched⟩ => stays ?_⟩
      subst same
      simp [dropsPolicy, left, matched]

theorem run_removePolicyFromGroup (org policy rev group : GoString) (s : Store) :
    ∃ t, (removePolicyFromGroup org policy rev group).run exec s = (.ok (), t) ∧ ∀ org' coll key,
      t.get org' coll key = if org = org' ∧ policyGroupsColl = coll ∧ group = key
        then dropped policy rev (s.get org policyGroupsColl group) else s.get org' coll key := by
  have unchanged (org' coll key : GoString) : s.get org' coll key =
      if org = org' ∧ policyGroupsColl = coll ∧ group = key
        then s.get org policyGroupsColl group else s.get org' coll key := by
    split
    · next here => rw [here.1, here.2.1, here.2.2]
    · rfl
  rw [removePolicyFromGroup, loadGroup, bind_bind, run_get_bind]
  unfold dropped
  cases (s.get org policyGroupsColl group).bind decodePolicyGroup with
  | none => exact ⟨s, rfl, unchanged⟩
  | some g =>
    dsimp only [run_pure_bind]
    cases dropsPolicy g policy rev with
    | false => exact ⟨s, rfl, unchanged⟩
    | true => exact ⟨_, rfl, get_put s org policyGroupsColl group _⟩

theorem run_removePolicyFromGroups (org policy rev : GoString) (s : Store) :
    ∃ t, (removePolicyFromGroups org policy rev).run exec s = (.ok (), t) ∧ ∀ org' coll key,
      t.get org' coll key = if org = org' ∧ policyGroupsColl = coll
        then dropped policy rev (s.get org policyGroupsColl key) else s.get org' coll key := by
  choose effect ran gets using run_removePolicyFromGroup org policy rev
  refine ⟨_, run_forM ran (s.keys org policyGroupsColl) s, fun org' coll key => ?_⟩
  rw [get_foldl_rows (fun _ => dropped policy rev) gets nodup_keys]
  by_cases listed : key ∈ s.keys org policyGroupsColl
  · simp [listed]
  · have none : s.get org policyGroupsColl key = none := by simpa [mem_keys] using listed
    rw [if_neg fun here => listed here.2.2]
    split
    · next here => rw [← here.1, ← here.2, none]; rfl
    · rfl

def webPolicy (runList : List Value) : Request :=
  creates [(lit "revision_id", .string (lit "1")), (lit "name", .string (lit "web")), (lit "run_list", .array runList),
    (lit "cookbook_locks", .object [])]

def deployedTo (groups : List GoString) : Store :=
  groups.foldl (fun s group => ((putGroupPolicy (webPolicy []) acme group (lit "web")).run exec s).2)
    (Store.newMemoryBackend.createOrg acme).1

def runListLength : Response → Option Nat
  | .json _ (.document (.object members)) =>
    match get members (lit "run_list") with
    | some (.array items) => some items.length
    | _ => none
  | _ => none

theorem redeployment_touches_nothing :
    ∃ response t, (putGroupPolicy (webPolicy []) acme (lit "dev") (lit "web")).run exec (deployedTo [lit "dev", lit "prod"]) =
        (.ok response, t) ∧
      ∀ group' policy', group' ≠ lit "dev" ∨ policy' ≠ lit "web" →
        answer ((getGroupPolicy acme group' policy').run exec t).1 =
          answer ((getGroupPolicy acme group' policy').run exec (deployedTo [lit "dev", lit "prod"])).1 := by
  have stored : (deployedTo [lit "dev", lit "prod"]).get acme (policyRevColl (lit "web")) (sentRevision (webPolicy [])).2 =
      some (sentRevision (webPolicy [])).1 := rfl
  exact ⟨_, _, rfl, (deployment_touches_own_pair_iff rfl).mpr
    ⟨by decide +kernel, fun _ _ _ => stored⟩⟩

theorem deployment_changes_other_group :
    ∃ response t, (putGroupPolicy (webPolicy [.string (lit "recipe[web::default]")]) acme (lit "dev") (lit "web")).run exec
        (deployedTo [lit "dev", lit "prod"]) = (.ok response, t) ∧
      answer ((getGroupPolicy acme (lit "prod") (lit "web")).run exec t).1 ≠
        answer ((getGroupPolicy acme (lit "prod") (lit "web")).run exec (deployedTo [lit "dev", lit "prod"])).1 := by
  have differs : runListLength (answer ((getGroupPolicy acme (lit "prod") (lit "web")).run exec
      ((putGroupPolicy (webPolicy [.string (lit "recipe[web::default]")]) acme (lit "dev") (lit "web")).run exec
        (deployedTo [lit "dev", lit "prod"])).2).1) ≠
      runListLength (answer ((getGroupPolicy acme (lit "prod") (lit "web")).run exec (deployedTo [lit "dev", lit "prod"])).1) := by
    decide +kernel
  exact ⟨_, _, rfl, fun same => differs (congrArg runListLength same)⟩

end Documents

/-! ## Concurrent deployments to one policy group -/

inductive Deployment
  | put (r : Request) (policy : GoString)
  | delete (policy : GoString)

namespace Deployment

def handler (org group : GoString) : Deployment → Handler Response
  | put r policy => putGroupPolicy r org group policy
  | delete policy => deleteGroupPolicy org group policy

def policy : Deployment → GoString
  | put _ policy => policy
  | delete policy => policy

def outcome : Deployment → Option GroupPolicy
  | put r _ => some ⟨(sentRevision r).2⟩
  | delete _ => none

def edit : Deployment → Option Raw → Option Raw
  | put r policy, row => some (deploys r policy row)
  | delete policy, row => some (encodePolicyGroup ⟨((row.bind decodePolicyGroup).getD ⟨∅⟩).policies.erase policy⟩)

end Deployment

variable {org group : GoString} {s : Store}

def followsLoad (org group : GoString) (c : StoreCall) : Bool :=
  touches org policyGroupsColl group c || match c with
    | .get _ coll _ => coll ≠ policyGroupsColl
    | _ => false

def holdsGroup (org group : GoString) : Handler Response → Bool := nextIs (followsLoad org group)

abbrev GroupJournal := Journal Deployment StoreCall.Result Response Response Store

/-- The group is stored only while no other request has loaded it and not stored it yet. -/
abbrev DeployedInTurn (org group : GoString) :
    Allows Deployment StoreCall.Result Response Response Store :=
  Journal.inTurn (touches org policyGroupsColl group) (holdsGroup org group)

theorem leaves_resolveOrg :
    (resolveOrg org).Leaves exec fun s => s.get org policyGroupsColl group :=
  leaves_row reads_untouched.only_resolveOrg

theorem holding_saveGroup (edit : Option Raw → Option Raw) (row : Option Raw) (g : PolicyGroup)
    (response : Response)
    (edits : edit row = some (encodePolicyGroup g)) :
    (do saveGroup org group g
        return response : Handler Response).Holding exec (fun s => s.get org policyGroupsColl group) edit
      (holdsGroup org group) row := by
  refine holding_write (Bool.or_eq_true_iff.mpr (.inl (touches_put (encodePolicyGroup g))))
    (fun s => ?_)
    fun _ => only_pure response
  rw [exec, get_put, if_pos ⟨rfl, rfl, rfl⟩, edits]

theorem editing_putGroupPolicy (r : Request) (policy : GoString) :
    (putGroupPolicy r org group policy).Editing exec (fun s => s.get org policyGroupsColl group)
      (Deployment.put r policy).edit (holdsGroup org group) := by
  refine leaves_resolveOrg.editing fun _ => ?_
  rcases decodeRevision_cases r policy with sent | ⟨refusal, sent⟩
  · have stored : (Org.put org (policyRevColl policy) (sentRevision r).2 (sentRevision r).1).Leaves exec
        fun s => s.get org policyGroupsColl group :=
      leaves_row (only_put (touches_put_of_ne (policyGroupsColl_ne policy).symm))
    rw [sent]
    refine stored.editing fun _ => ?_
    rw [loadGroup, bind_bind]
    exact editing_read (fun _ => rfl) fun s => holding_saveGroup _ _ _ _ rfl
  · rw [sent]
    trivial

theorem editing_deleteGroupPolicy (policy : GoString) :
    (deleteGroupPolicy org group policy).Editing exec (fun s => s.get org policyGroupsColl group)
      (Deployment.delete policy).edit (holdsGroup org group) := by
  refine leaves_resolveOrg.editing fun _ => ?_
  rw [loadGroup, bind_bind]
  refine editing_read (fun _ => rfl) fun s => ?_
  have afterwards {g : PolicyGroup} (loaded : (s.get org policyGroupsColl group).bind decodePolicyGroup = some g) :
      (Deployment.delete policy).edit (s.get org policyGroupsColl group) =
        some (encodePolicyGroup ⟨g.policies.erase policy⟩) := by
    rw [Deployment.edit, loaded, Option.getD_some]
  dsimp only [exec]
  cases loaded : (s.get org policyGroupsColl group).bind decodePolicyGroup with
  | none => trivial
  | some g =>
    dsimp only [Bind.bind, Program.bind, pure]
    cases g.policies[policy]? with
    | none => trivial
    | some found =>
      have held : followsLoad org group (.get org (policyRevColl policy) found.revisionID) := by
        simp [followsLoad, (policyGroupsColl_ne policy).symm]
      refine holding_call held (fun _ => rfl) fun raw => ?_
      exact holding_saveGroup _ _ _ _ (afterwards loaded)

theorem editing_deployment (d : Deployment) :
    (d.handler org group).Editing exec (fun s => s.get org policyGroupsColl group) d.edit (holdsGroup org group) := by
  cases d with
  | put r policy => exact editing_putGroupPolicy r policy
  | delete policy => exact editing_deleteGroupPolicy policy

theorem deployed_edit (d : Deployment) (row : Option Raw) (policy : GoString) :
    deployed (d.edit row) policy = if d.policy = policy then d.outcome else deployed row policy := by
  cases d with
  | put r own =>
    rw [Deployment.edit, deploys, deployed_encodePolicyGroup, deployed_eq,
      Std.ExtTreeMap.getElem?_insert]
    by_cases same : own = policy <;> simp [same, Deployment.policy, Deployment.outcome]
  | delete own =>
    rw [Deployment.edit, deployed_encodePolicyGroup, deployed_eq, Std.ExtTreeMap.getElem?_erase]
    by_cases same : own = policy <;> simp [same, Deployment.policy, Deployment.outcome]

/-- When the group is stored in turn, requests for different policies that have all succeeded leave each
its association, and the other associations as they were. -/
theorem deployments_persist {j : GroupJournal}
    (reached : Journal.Reaches exec (Deployment.handler org group) (DeployedInTurn org group) (.initial s) j)
    (distinct : (j.entries.map fun entry => entry.label.policy).Nodup)
    (succeeded : ∀ entry ∈ j.entries, entry.rest.returned) :
    (∀ entry ∈ j.entries, deployed (j.state.get org policyGroupsColl group) entry.label.policy = entry.label.outcome) ∧
    ∀ policy, (∀ entry ∈ j.entries, entry.label.policy ≠ policy) →
      deployed (j.state.get org policyGroupsColl group) policy =
        deployed (s.get org policyGroupsColl group) policy :=
  reached.edited_apart editing_deployment (fun _ untouched => get_exec untouched) succeeded deployed_edit distinct

def dbPolicy : Request :=
  creates [(lit "revision_id", .string (lit "2")), (lit "name", .string (lit "db")), (lit "run_list", .array []),
    (lit "cookbook_locks", .object [])]

theorem deployed_in_turn :
    ∃ j : GroupJournal, Journal.moves exec (Deployment.handler acme (lit "prod")) (DeployedInTurn acme (lit "prod"))
        (.initial (deployedTo [lit "prod"]))
        [.start (.put dbPolicy (lit "db")), .start (.delete (lit "web")), .go 1, .go 1, .go 1, .go 0, .go 0, .go 0] = some j ∧
      j.entries.map (fun entry => entry.label.policy) = [lit "web", lit "db"] ∧
      (∀ entry ∈ j.entries,
        deployed (j.state.get acme policyGroupsColl (lit "prod")) entry.label.policy = entry.label.outcome) ∧
      ∀ policy, (∀ entry ∈ j.entries, entry.label.policy ≠ policy) →
        deployed (j.state.get acme policyGroupsColl (lit "prod")) policy =
          deployed ((deployedTo [lit "prod"]).get acme policyGroupsColl (lit "prod")) policy := by
  have closed : (Journal.moves exec (Deployment.handler acme (lit "prod")) (DeployedInTurn acme (lit "prod"))
        (.initial (deployedTo [lit "prod"]))
        [.start (.put dbPolicy (lit "db")), .start (.delete (lit "web")), .go 1, .go 1, .go 1, .go 0, .go 0, .go 0]).map
      (fun j => decide ((∀ entry ∈ j.entries, entry.rest.returned) ∧
        j.entries.map (fun entry => entry.label.policy) = [lit "web", lit "db"])) = some true := by decide +kernel
  obtain ⟨j, made, returned, policies⟩ := exists_of_decided closed
  have distinct : (j.entries.map fun entry => entry.label.policy).Nodup := by rw [policies]; decide
  exact ⟨j, made, policies, deployments_persist (Journal.reaches_of_moves made) distinct returned⟩

theorem deployment_lost :
    ∃ j : GroupJournal, Journal.Reaches exec (Deployment.handler acme (lit "prod")) Journal.anyOrder
        (.initial (deployedTo [lit "prod"])) j ∧
      (∀ entry ∈ j.entries, entry.rest.returned) ∧
      j.entries.map (fun entry => entry.label.policy) = [lit "web", lit "db"] ∧
      ∃ entry ∈ j.entries,
        deployed (j.state.get acme policyGroupsColl (lit "prod")) entry.label.policy ≠ entry.label.outcome := by
  have closed : (Journal.moves exec (Deployment.handler acme (lit "prod")) Journal.anyOrder
        (.initial (deployedTo [lit "prod"]))
        [.start (.put dbPolicy (lit "db")), .start (.delete (lit "web")), .go 1, .go 1, .go 0, .go 1, .go 0, .go 0]).map
      (fun j => decide ((∀ entry ∈ j.entries, entry.rest.returned) ∧
        j.entries.map (fun entry => entry.label.policy) = [lit "web", lit "db"] ∧
        ∃ entry ∈ j.entries, (deployed (j.state.get acme policyGroupsColl (lit "prod")) entry.label.policy).isSome ≠
          entry.label.outcome.isSome)) = some true := by decide +kernel
  obtain ⟨j, made, returned, policies, entry, mem, other⟩ := exists_of_decided closed
  exact ⟨j, Journal.reaches_of_moves made, returned, policies, entry, mem,
    fun same => other (congrArg Option.isSome same)⟩

end CincServer.Proof.Api
