import CincServer.Proof.Api.ActorNames
import CincServer.Proof.Api.PolicyGroups
import CincServer.Proof.Decimal

/-!
# The objects access control lists belong to
-/

namespace CincServer.Proof.Api
open CincServer.Api CincServer.Json Go Lib Program

variable {s t : Store} {org coll key name typ : GoString} {f : Footprint} {r : Request}
  {space policy version : GoString} {raw : Raw} {inv : Store → Prop} {missing : Response} {files : FileEnv}
  {who : Principal} {env : Env} {request : ApiRequest}

def objectTypes : List GoString :=
  [clients, containersColl, cookbooksColl, artifactsColl, lit "data", environmentsColl, groupsColl, lit "nodes",
   lit "policies", policyGroupsColl, lit "roles", users]

def homeColl (typ name : GoString) : GoString :=
  if typ = lit "data" then dataBagsColl else if typ = lit "policies" then policyRevColl name else typ

def IsRow (typ name key : GoString) : Prop :=
  if typ = cookbooksColl ∨ typ = artifactsColl then (cut (lit "/") key).map Prod.fst = some name
  else typ ≠ lit "policies" → key = name

def Lives (s : Store) (org typ name : GoString) : Prop :=
  typ = orgsColl ∨ typ ∈ objectTypes ∧ ∃ key, IsRow typ name key ∧ (s.get org (homeColl typ name) key).isSome

theorem hasVersion_run : (hasVersion org coll name).run exec s =
    (.ok ((s.range org coll).any fun row => ((cut (lit "/") row.1).map Prod.fst) == some name), s) := rfl

theorem hasVersion_iff :
    ((s.range org coll).any fun row => ((cut (lit "/") row.1).map Prod.fst) == some name) = true ↔
    ∃ key, (cut (lit "/") key).map Prod.fst = some name ∧ (s.get org coll key).isSome := by
  rw [List.any_eq_true]
  constructor
  · rintro ⟨row, mem, same⟩
    exact ⟨row.1, beq_iff_eq.mp same, Option.isSome_of_eq_some (mem_range.mp mem)⟩
  · rintro ⟨key, same, found⟩
    obtain ⟨raw, stored⟩ := Option.isSome_iff_exists.mp found
    exact ⟨(key, raw), mem_range.mpr stored, beq_iff_eq.mpr same⟩

theorem found_iff {b : Bool} :
    ((Except.ok b, s) : Except Response Bool × Store) = (.ok true, s) ↔ b = true := by
  simp

theorem aclObjectExists_iff (known : typ = orgsColl ∨ typ ∈ objectTypes) :
    (aclObjectExists org typ name).run exec s = (.ok true, s) ↔ Lives s org typ name := by
  by_cases isOrg : typ = orgsColl
  · exact iff_of_true (by subst isOrg; rfl) (.inl isOrg)
  have lives : Lives s org typ name ↔ ∃ key, IsRow typ name key ∧
      (s.get org (homeColl typ name) key).isSome := by
    simp [Lives, isOrg, known.resolve_left isOrg]
  rw [lives, aclObjectExists, if_neg (show ¬ typ = lit "organizations" from isOrg), homeColl]
  have row (plain : ¬ (typ = cookbooksColl ∨ typ = artifactsColl)) (single : typ ≠ lit "policies") (key : GoString) :
      IsRow typ name key ↔ key = name := by simp [IsRow, plain, single]
  by_cases data : typ = lit "data"
  · rw [if_pos data, if_pos data, run_get_bind]
    have single := row (by subst data; decide) (by subst data; decide)
    simp only [single, exists_eq_left]
    exact found_iff
  rw [if_neg data, if_neg data]
  by_cases versioned : typ = cookbooksColl ∨ typ = artifactsColl
  · have noPolicy : typ ≠ lit "policies" := by rcases versioned with rfl | rfl <;> decide
    rw [if_pos (show typ = lit "cookbooks" ∨ typ = lit "cookbook_artifacts" from versioned),
      if_neg noPolicy,
      hasVersion_run, found_iff, hasVersion_iff]
    simp only [IsRow, if_pos versioned]
  rw [if_neg (show ¬ (typ = lit "cookbooks" ∨ typ = lit "cookbook_artifacts") from versioned)]
  by_cases policy : typ = lit "policies"
  · rw [if_pos policy, if_pos policy, run_keys_bind]
    refine found_iff.trans ?_
    have rows (key : GoString) : IsRow typ name key := by
      rw [IsRow, if_neg versioned]
      exact fun other => absurd policy other
    simp only [rows, true_and, ← mem_keys]
    cases s.keys org (policyRevColl name) <;> simp
  · rw [if_neg policy, if_neg policy, run_get_bind]
    simp only [row versioned policy, exists_eq_left]
    exact found_iff

theorem homeColl_of_ne (single : typ ≠ lit "policies") : homeColl typ name = homeColl typ [] := by
  simp only [homeColl, if_neg single]

theorem colon_not_mem_homeColl (known : typ ∈ objectTypes) (single : typ ≠ lit "policies") :
    0x3A ∉ homeColl typ name := by
  have plain : objectTypes.all fun typ => typ = lit "policies" ∨ 0x3A ∉ homeColl typ [] := by decide
  rw [homeColl_of_ne single]
  exact (of_decide_eq_true (List.all_eq_true.mp plain typ known)).resolve_left single

def NoHome (coll : GoString) : Prop := ∀ typ ∈ objectTypes, ∀ name, homeColl typ name ≠ coll

theorem noHome_plain (plain : 0x3A ∉ coll) (apart : coll ∉ objectTypes.map (homeColl · [])) :
    NoHome coll := by
  intro typ known name same
  by_cases policy : typ = lit "policies"
  · subst policy
    exact plain (same ▸ colon_mem_policyRevColl name)
  · rw [homeColl_of_ne policy] at same
    exact apart (same ▸ List.mem_map_of_mem known)

theorem noHome_colon (colon : 0x3A ∈ coll) (apart : ∀ policy, policyRevColl policy ≠ coll) :
    NoHome coll := by
  intro typ known name same
  by_cases policy : typ = lit "policies"
  · subst policy
    exact apart name same
  · exact colon_not_mem_homeColl known policy (same ▸ colon)

theorem noHome_acls : NoHome aclsColl := noHome_plain (by decide) (by decide)

theorem noHome_orgs : NoHome orgsColl := noHome_plain (by decide) (by decide)

theorem noHome_members : NoHome assocColl ∧ NoHome assocReqColl ∧ NoHome groupMembersColl :=
  ⟨noHome_plain (by decide) (by decide), noHome_plain (by decide) (by decide), noHome_plain (by decide) (by decide)⟩

theorem noHome_items (bag : GoString) : NoHome (dataBagItemsColl bag) :=
  noHome_colon (colon_mem_dataBagItemsColl bag) fun _ same => nomatch (List.cons.inj same).1

theorem noHome_keys {segment : GoString} (actor : GoString)
    (kind : segment = users ∨ segment = clients) :
    NoHome (keysColl segment actor) := by
  refine noHome_colon (colon_mem_keysColl segment actor) fun policy same => ?_
  rcases kind with rfl | rfl
  all_goals nomatch (List.cons.inj same).1

theorem sameObject {typ' name' : GoString} (known : typ ∈ objectTypes) (known' : typ' ∈ objectTypes)
    (same : homeColl typ name = homeColl typ' name') (row : IsRow typ name key)
    (row' : IsRow typ' name' key) :
    typ = typ' ∧ name = name' := by
  by_cases policy : typ = lit "policies"
  · have policy' : typ' = lit "policies" := by
      by_contra other
      have colon : 0x3A ∈ homeColl typ name := policy ▸ colon_mem_policyRevColl name
      exact colon_not_mem_homeColl known' other (same ▸ colon)
    subst policy policy'
    exact ⟨rfl, List.append_cancel_left same⟩
  have other : typ' ≠ lit "policies" := by
    rintro rfl
    have colon : 0x3A ∈ homeColl (lit "policies") name' := colon_mem_policyRevColl name'
    exact colon_not_mem_homeColl known policy (same ▸ colon)
  have distinct : (objectTypes.map (homeColl · [])).Nodup := by decide
  rw [homeColl_of_ne policy, homeColl_of_ne other] at same
  obtain rfl : typ = typ' := List.inj_on_of_nodup_map distinct known known' same
  refine ⟨rfl, ?_⟩
  unfold IsRow at row row'
  split_ifs at row row'
  · exact Option.some.inj (row.symm.trans row')
  · exact (row policy).symm.trans (row' policy)

structure Anchored (s : Store) : Prop where
  acl : ∀ {org key}, (s.get org aclsColl key).isSome → ∃ typ name, key = aclKey typ name ∧ Lives s org typ name
  version : ∀ {org key}, (s.get org cookbooksColl key).isSome → key.count 0x2F = 1

structure Sheds (org typ name : GoString) (s t : Store) : Prop where
  acl : ∀ {org' key}, (t.get org' aclsColl key).isSome → (s.get org' aclsColl key).isSome
  version : ∀ {org' key}, (t.get org' cookbooksColl key).isSome → (s.get org' cookbooksColl key).isSome
  home : ∀ {typ' org' name' key}, typ' ∈ objectTypes → (s.get org' (homeColl typ' name') key).isSome →
    (t.get org' (homeColl typ' name') key).isSome ∨
      org' = org ∧ homeColl typ' name' = homeColl typ name ∧ IsRow typ name key

theorem Sheds.trans {u : Store} (first : Sheds org typ name s t) (second : Sheds org typ name t u) :
    Sheds org typ name s u where
  acl found := first.acl (second.acl found)
  version found := first.version (second.version found)
  home known found := (first.home known found).elim (second.home known) .inr

theorem sheds_frame (frame : Frame space f s t) (noACL : aclsColl ∉ f.puts)
    (noVersion : cookbooksColl ∉ f.puts) (noHome : ∀ coll ∈ f.deletes, NoHome coll) :
    Sheds org typ name s t where
  acl found := by
    obtain ⟨raw, stored⟩ := Option.isSome_iff_exists.mp found
    exact Option.isSome_of_eq_some (frame.stored noACL stored)
  version found := by
    obtain ⟨raw, stored⟩ := Option.isSome_iff_exists.mp found
    exact Option.isSome_of_eq_some (frame.stored noVersion stored)
  home known found := .inl (frame.grows (fun mem => noHome _ mem _ known _ rfl) found)

theorem isSome_of_delete {org' coll' key' : GoString}
    (found : ((s.delete org coll key).1.get org' coll' key').isSome) :
    (s.get org' coll' key').isSome := by
  rw [get_delete] at found
  split_ifs at found
  · cases found
  · exact found

theorem sheds_row (home : homeColl typ name = coll) (row : IsRow typ name key) :
    Sheds org typ name s (s.delete org coll key).1 where
  acl := isSome_of_delete
  version := isSome_of_delete
  home := by
    intro typ' org' name' key' _ found
    rw [get_delete]
    split_ifs with here
    · obtain ⟨rfl, same, rfl⟩ := here
      exact .inr ⟨rfl, same.symm.trans home.symm, row⟩
    · exact .inl found

theorem sheds_deleteACL {key : GoString} : Sheds org typ name s (s.delete org aclsColl key).1 where
  acl := isSome_of_delete
  version := isSome_of_delete
  home := by
    intro typ' org' name' key' known found
    rw [get_delete, if_neg fun here => noHome_acls typ' known name' here.2.1.symm]
    exact .inl found

theorem Anchored.shed (anchored : Anchored s) (sheds : Sheds org typ name s t)
    (known : typ = orgsColl ∨ typ ∈ objectTypes)
    (settled : t.get org aclsColl (aclKey typ name) = none ∨ Lives t org typ name) :
    Anchored t := by
  refine ⟨fun {org' key} found => ?_, fun found => anchored.version (sheds.version found)⟩
  obtain ⟨typ', name', rfl, isOrg | ⟨known', row, isRow, stored⟩⟩ := anchored.acl (sheds.acl found)
  · exact ⟨typ', name', rfl, .inl isOrg⟩
  rcases sheds.home known' stored with still | ⟨rfl, same, isRow'⟩
  · exact ⟨typ', name', rfl, .inr ⟨known', row, isRow, still⟩⟩
  rcases known with rfl | known
  · exact absurd same (noHome_orgs typ' known' name')
  obtain ⟨rfl, rfl⟩ := sameObject known' known same isRow isRow'
  rcases settled with gone | lives
  · rw [gone] at found
    cases found
  · exact ⟨typ', name', rfl, lives⟩

theorem Anchored.frame (anchored : Anchored s) (frame : Frame space f s t)
    (noACL : aclsColl ∉ f.puts)
    (noVersion : cookbooksColl ∉ f.puts) (noHome : ∀ coll ∈ f.deletes, NoHome coll) : Anchored t :=
  @Anchored.shed s t global [] orgsColl anchored (sheds_frame frame noACL noVersion noHome) (.inl rfl) (.inr (.inl rfl))

theorem Anchored.put (anchored : Anchored s) (lives : Lives s org typ name) :
    Anchored (s.put org aclsColl (aclKey typ name) raw) := by
  have still {org' typ' name' : GoString} (lives : Lives s org' typ' name') :
      Lives (s.put org aclsColl (aclKey typ name) raw) org' typ' name' := by
    refine lives.imp_right fun ⟨known, row, isRow, stored⟩ => ⟨known, row, isRow, ?_⟩
    rwa [get_put_of_ne (noHome_acls typ' known name').symm]
  refine ⟨fun {org' key} found => ?_, fun {org' key} found => ?_⟩
  · rw [get_put] at found
    split_ifs at found with here
    · obtain ⟨rfl, -, rfl⟩ := here
      exact ⟨typ, name, rfl, still lives⟩
    · obtain ⟨typ', name', rfl, lives⟩ := anchored.acl found
      exact ⟨typ', name', rfl, still lives⟩
  · have apart : aclsColl ≠ cookbooksColl := by decide
    rw [get_put_of_ne apart] at found
    exact anchored.version found

theorem Anchored.grantCreator {enforceACL : Bool} (anchored : Anchored s)
    (lives : Lives s org typ name) :
    Leads exec Anchored (grantCreator enforceACL r org typ name) s fun _ => Anchored := by
  unfold Api.grantCreator
  split
  · exact leads_ite (fun _ => anchored.put lives) fun _ => leads_pure anchored
  · exact leads_pure anchored

theorem Anchored.update {perm : GoString} {members : Option GoString} {status : Nat}
    (anchored : Anchored s)
    (known : typ = orgsColl ∨ typ ∈ objectTypes) :
    Leads exec Anchored (updateACLPermDoc r org members typ name perm status) s fun _ => Anchored :=
  leads_updateACLPermDoc anchored fun _ _ _ found _ _ _ =>
    anchored.put ((aclObjectExists_iff known).mp found)

theorem get_delete_self : (s.delete org coll key).1.get org coll key = none := by
  rw [get_delete, if_pos ⟨rfl, rfl, rfl⟩]

theorem run_deleteACL : (deleteACL org typ name).run exec s =
    (.ok (), (s.delete org aclsColl (aclKey typ name)).1) := rfl

theorem leads_keys_bind {α : Type} {post : α → Store → Prop} {next : List GoString → Handler α} :
    Leads exec inv (Org.keys org coll >>= next) s post ↔
      Leads exec inv (next (s.keys org coll)) s post := Iff.rfl

theorem leads_deleteRow {α : Type} {post : α → Store → Prop} {rest : Raw → Handler α}
    (holds : inv s)
    (found : ∀ raw, s.get org coll key = some raw → Leads exec inv (rest raw) (s.delete org coll key).1 post) :
    Leads exec inv (do
      match ← Org.delete org coll key with
      | none => Program.stop missing
      | some raw => rest raw) s post := by
  refine leads_bind.mpr (leads_perform ?_)
  simp only [exec, delete_snd]
  cases stored : s.get org coll key with
  | none =>
    rw [delete_of_none stored]
    exact holds
  | some raw => exact found raw stored

theorem Anchored.deleteSingle {response : Raw → Response} (anchored : Anchored s)
    (known : typ ∈ objectTypes) (home : homeColl typ name = coll) (row : IsRow typ name key) :
    Leads exec Anchored (do
      match ← Org.delete org coll key with
      | none => Program.stop missing
      | some raw => do
          deleteACL org typ name
          return response raw) s fun _ => Anchored := by
  refine leads_deleteRow anchored fun raw _ => leads_bind.mpr (leads_of_run run_deleteACL ?_)
  exact anchored.shed ((sheds_row home row).trans sheds_deleteACL) (.inr known)
    (.inl get_delete_self)

theorem isRow_single (single : typ ∉ [cookbooksColl, artifactsColl, lit "policies"]) :
    IsRow typ name name := by
  simp only [List.mem_cons, List.not_mem_nil, or_false, not_or] at single
  simp [IsRow, single]

theorem Anchored.deleteObject (anchored : Anchored s) (known : typ ∈ objectTypes)
    (home : homeColl typ name = typ)
    (single : typ ∉ [cookbooksColl, artifactsColl, lit "policies"]) :
    Leads exec Anchored (deleteObject org typ name) s fun _ => Anchored := by
  refine (leads_resolveOrg anchored).past fun _ _ => ?_
  exact anchored.deleteSingle known home (isRow_single single)

theorem frame_of_run {α : Type} {h : Handler α} {a : α} (within : h.Only (Within org f))
    (ran : h.run exec s = (.ok a, t)) :
    Frame org f s t := by
  have frame := frame_run within s
  rwa [ran] at frame

theorem Anchored.deleteDataBag {bag : GoString} (anchored : Anchored s) :
    Leads exec Anchored (deleteDataBag org bag) s fun _ => Anchored := by
  refine (leads_resolveOrg anchored).past fun _ _ => ?_
  refine leads_deleteRow anchored fun raw _ => ?_
  rw [leads_keys_bind]
  have distinct : ((s.delete org dataBagsColl bag).1.keys org (dataBagItemsColl bag)).Nodup :=
    nodup_keys
  obtain ⟨t, ran, -⟩ := deleteAll_get org (dataBagItemsColl bag) distinct (s.delete org dataBagsColl bag).1
  have within (keys : List GoString) :
      (deleteAll org (dataBagItemsColl bag) keys).Only (Within org ⟨[], [dataBagItemsColl bag]⟩) :=
    within_deleteAll (List.mem_singleton_self _) keys
  have items : Sheds org (lit "data") bag (s.delete org dataBagsColl bag).1 t :=
    sheds_frame (frame_of_run (within _) ran) (by simp) (by simp) (by simp [noHome_items])
  refine leads_bind.mpr (leads_of_run ran ?_)
  exact anchored.shed (((sheds_row rfl (isRow_single (by decide))).trans items).trans sheds_deleteACL) (.inr (by decide))
    (.inl get_delete_self)

theorem removePolicyFromGroups_ok (policy rev : GoString) (s : Store) :
    ∃ t, (removePolicyFromGroups org policy rev).run exec s = (.ok (), t) ∧
      Frame org ⟨[policyGroupsColl], []⟩ s t := by
  obtain ⟨t, ran, -⟩ := run_removePolicyFromGroups org policy rev s
  exact ⟨t, ran, frame_of_run (within_removePolicyFromGroups (List.mem_singleton_self _)) ran⟩

theorem isRow_policies : IsRow (lit "policies") policy key := by
  rw [IsRow, if_neg (by decide)]
  exact fun other => absurd rfl other

theorem sheds_groups (frame : Frame org ⟨[policyGroupsColl], []⟩ s t) : Sheds org typ name s t :=
  sheds_frame frame (by decide) (by decide) nofun

theorem Anchored.deletePolicy (anchored : Anchored s) :
    Leads exec Anchored (deletePolicy org policy) s fun _ => Anchored := by
  refine (leads_resolveOrg anchored).past fun _ _ => ?_
  rw [leads_keys_bind]
  have distinct : (s.keys org (policyRevColl policy)).Nodup := nodup_keys
  refine (leads_refuseIf anchored).past fun _ _ => ?_
  obtain ⟨t, ran, gets⟩ := deleteAll_get org (policyRevColl policy) distinct s
  have revisions : Sheds org (lit "policies") policy s t := by
    refine ⟨fun found => ?_, fun found => ?_, fun {typ' org' name' key} _ found => ?_⟩
    · rw [gets] at found
      split_ifs at found
      · cases found
      · exact found
    · rw [gets] at found
      split_ifs at found
      · cases found
      · exact found
    · rw [gets]
      split_ifs with here
      · exact .inr ⟨here.1.symm, here.2.1.symm, isRow_policies⟩
      · exact .inl found
  obtain ⟨u, dropped, frame⟩ := removePolicyFromGroups_ok policy [] t
  refine leads_bind.mpr (leads_of_run ran (leads_bind.mpr (leads_of_run dropped ?_)))
  exact anchored.shed ((revisions.trans (sheds_groups frame)).trans sheds_deleteACL)
    (.inr (by decide))
    (.inl get_delete_self)

theorem Anchored.deletePolicyRevision {rev : GoString} (anchored : Anchored s)
    (settled : s.get org aclsColl (aclKey (lit "policies") policy) = none ∨
      ∃ other, other ≠ rev ∧ (s.get org (policyRevColl policy) other).isSome) :
    Leads exec Anchored (deletePolicyRevision org policy rev) s fun _ => Anchored := by
  refine (leads_resolveOrg anchored).past fun _ _ => ?_
  refine leads_deleteRow anchored fun raw _ => ?_
  obtain ⟨t, ran, frame⟩ :=
    removePolicyFromGroups_ok policy rev (s.delete org (policyRevColl policy) rev).1
  refine leads_bind.mpr (leads_of_run ran ?_)
  have sheds : Sheds org (lit "policies") policy s t :=
    (sheds_row rfl isRow_policies).trans (sheds_groups frame)
  refine anchored.shed sheds
    (.inr (by decide)) (settled.imp (fun none => ?_) fun ⟨other, apart, found⟩ => ?_)
  · have gone : ¬ (t.get org aclsColl (aclKey (lit "policies") policy)).isSome := fun found => by
      have before := sheds.acl found
      rw [none] at before
      cases before
    simpa using gone
  · refine .inr ⟨by decide, other, isRow_policies, frame.grows (by simp) ?_⟩
    rwa [get_delete, if_neg fun here => apart here.2.2.symm]

theorem Anchored.deletePolicyGroup {group : GoString} (anchored : Anchored s) :
    Leads exec Anchored (deletePolicyGroup org group) s fun _ => Anchored := by
  refine (leads_resolveOrg anchored).past fun _ _ => ?_
  exact anchored.deleteSingle (by decide) rfl (isRow_single (by decide))

theorem mem_intercalate {b sep : UInt8} (parts : List GoString)
    (mem : b ∈ [sep].intercalate parts) :
    b = sep ∨ ∃ part ∈ parts, b ∈ part := by
  rw [List.intercalate, List.mem_flatten] at mem
  obtain ⟨part, mem, inside⟩ := mem
  induction parts with
  | nil => cases mem
  | cons first rest ih =>
    cases rest with
    | nil => exact .inr ⟨part, mem, inside⟩
    | cons second rest =>
      rw [List.intersperse_cons_cons, List.mem_cons, List.mem_cons] at mem
      rcases mem with rfl | rfl | mem
      · exact .inr ⟨part, by simp, inside⟩
      · exact .inl (List.mem_singleton.mp inside)
      · exact (ih mem).imp_right fun ⟨part, mem, inside⟩ => ⟨part, List.mem_cons_of_mem _ mem, inside⟩

theorem slash_not_mem_version (valid : validCookbookVersion version) : 0x2F ∉ version := by
  intro mem
  rw [← @List.intercalate_splitOn _ version _ _ 0x2E] at mem
  rcases mem_intercalate _ mem with same | ⟨part, inside, mem⟩
  · cases same
  · simp only [validCookbookVersion, Bool.and_eq_true, List.all_eq_true] at valid
    have isInt := valid.2 part inside
    split at isInt
    · next n read => exact nomatch Decimal.byte_of_parseInt read _ mem
    · cases isInt

theorem over_plainName : Regex.Over nameRune plainName := ⟨fun _ => id, fun _ => id⟩

theorem count_cookbookKey {name : GoString} (valid : validateCookbookURL name version = none) :
    (cookbookKey name version).count 0x2F = 1 := by
  unfold validateCookbookURL at valid
  split_ifs at valid with badVersion badName
  simp only [Bool.not_eq_true', Bool.not_eq_false] at badVersion badName
  have inName : 0x2F ∉ name := not_mem_of_runes (over_plainName.all badName) (by decide) (by decide)
  rw [cookbookKey, List.count_append, List.count_append, List.count_eq_zero.mpr inName,
    List.count_eq_zero.mpr (slash_not_mem_version badVersion)]
  rfl

theorem slash_not_mem_of_count {name : GoString}
    (one : (cookbookKey name version).count 0x2F = 1) : 0x2F ∉ name := by
  rw [cookbookKey, List.count_append, List.count_append] at one
  have own : (lit "/").count 0x2F = 1 := rfl
  exact List.count_eq_zero.mp (by omega)

theorem isRow_version (versioned : typ = cookbooksColl ∨ typ = artifactsColl)
    (plain : 0x2F ∉ name) :
    IsRow typ name (cookbookKey name version) := by
  rw [IsRow, if_pos versioned, cookbookKey, cut_of_not_mem plain]
  rfl

theorem homeColl_version (versioned : typ = cookbooksColl ∨ typ = artifactsColl) :
    homeColl typ name = typ := by
  rcases versioned with rfl | rfl <;> rfl

theorem Anchored.deleteVersion (anchored : Anchored s)
    (versioned : typ = cookbooksColl ∨ typ = artifactsColl) (plain : 0x2F ∉ name) :
    Leads exec Anchored (do
      deleteVersionedACL org typ name
      collectManifest org raw) (s.delete org typ (cookbookKey name version)).1 fun _ => Anchored := by
  have known : typ ∈ objectTypes := by rcases versioned with rfl | rfl <;> decide
  have row : Sheds org typ name s (s.delete org typ (cookbookKey name version)).1 :=
    sheds_row (homeColl_version versioned) (isRow_version versioned plain)
  have swept {t : Store} (kept : Anchored t) :
      Leads exec Anchored (collectManifest org raw) t fun _ => Anchored := by
    have within : (collectManifest org raw).Only (Within org ⟨[], []⟩) := within_collectManifest
    exact leads_iff.mpr (kept.frame (frame_run within t) nofun nofun nofun)
  rw [deleteVersionedACL, bind_bind]
  refine leads_bind.mpr (leads_of_run hasVersion_run ?_)
  split
  · next more =>
    rw [hasVersion_iff] at more
    obtain ⟨other, named, found⟩ := more
    refine swept (anchored.shed row (.inr known) (.inr (.inr ⟨known, other, ?_, ?_⟩)))
    · rwa [IsRow, if_pos versioned]
    · rwa [homeColl_version versioned]
  · refine leads_bind.mpr (leads_of_run run_deleteACL (swept ?_))
    exact anchored.shed (row.trans sheds_deleteACL) (.inr known) (.inl get_delete_self)

theorem Anchored.deleteCookbookVersion (anchored : Anchored s) :
    Leads exec Anchored (deleteCookbookVersion files r org name version) s fun _ => Anchored := by
  have reads : (resolveVersion org name version).Only ReadOnly :=
    only_ite (fun _ => only_pure _) fun _ => readOnly_reads.only_keys.bind fun _ => only_pure _
  refine (leads_resolveOrg anchored).past fun _ _ => ?_
  refine (leads_reads reads anchored).still fun resolved => ?_
  cases resolved with
  | none => exact leads_stop anchored
  | some version =>
    refine leads_deleteRow anchored fun raw stored => ?_
    have plain := slash_not_mem_of_count (anchored.version (Option.isSome_of_eq_some stored))
    rw [← bind_bind]
    exact (anchored.deleteVersion (.inl rfl) plain).then fun _ _ kept => leads_pure kept

theorem Anchored.deleteArtifactVersion {ident : GoString} (anchored : Anchored s)
    (plain : 0x2F ∉ name) :
    Leads exec Anchored (deleteArtifactVersion files r org name ident) s fun _ => Anchored := by
  refine (leads_resolveOrg anchored).past fun _ _ => ?_
  refine leads_deleteRow anchored fun raw stored => ?_
  rw [← bind_bind]
  exact (anchored.deleteVersion (.inr rfl) plain).then fun _ _ kept => leads_pure kept

theorem Anchored.putCookbookVersion (anchored : Anchored s) :
    Leads exec Anchored (putCookbookVersion files r org name version) s fun _ => Anchored := by
  refine (leads_resolveOrg anchored).past fun _ _ => ?_
  have manifest : Leads exec Anchored (cookbookManifest r name version) s fun _ t => t = s ∧
      validateCookbookURL name version = none := by
    refine (leads_refuseWith anchored).past fun _ valid => ?_
    have rest : (do
        let obj := withDefaults (← decodeManifestBody r)
        refuseWith 400 (validateCookbookManifest obj name version (r.apiVersion ≥ 2))
        return obj : Handler Members).Only ReadOnly :=
      only_decodeManifestBody.bind fun _ => only_refuseWith.bind fun _ => only_pure _
    exact (leads_reads rest anchored).mono fun _ _ same => ⟨same, valid⟩
  refine manifest.then ?_
  rintro obj s ⟨rfl, valid⟩
  have blobs : (requireBlobs org notUploaded (manifestChecksums obj)).Only (Within org ⟨[], []⟩) :=
    within_requireBlobs _
  refine (leads_within blobs fun _ frame => anchored.frame frame nofun nofun nofun).then fun _ t frame => ?_
  have anchored : Anchored t := anchored.frame frame nofun nofun nofun
  refine (leads_reads readOnly_reads.only_get anchored).still fun previous => ?_
  have stored : Anchored (t.put org cookbooksColl (cookbookKey name version) (storedObject obj)) := by
    have frame : Frame org ⟨[cookbooksColl], []⟩ t _ :=
      @frame_put_one org cookbooksColl (cookbookKey name version) (storedObject obj) t
    refine ⟨fun {org' key} found => ?_, fun {org' key} found => ?_⟩
    · rw [frame.gets (by decide) (by decide)] at found
      obtain ⟨typ, name', rfl, lives⟩ := anchored.acl found
      exact ⟨typ, name', rfl, lives.imp_right fun ⟨known, row, isRow, found⟩ =>
        ⟨known, row, isRow, frame.grows nofun found⟩⟩
    · rw [get_put] at found
      split_ifs at found with here
      · rw [← here.2.2]
        exact count_cookbookKey valid
      · exact anchored.version found
  refine leads_bind.mpr (leads_of_run run_put ?_)
  cases previous with
  | none => exact leads_pure stored
  | some raw =>
    have within : (collectManifest org raw).Only (Within org ⟨[], []⟩) := within_collectManifest
    exact (leads_iff.mpr (stored.frame (frame_run within _) nofun nofun nofun)).then fun _ _ kept =>
      leads_pure kept

theorem Anchored.deleteGroup (anchored : Anchored s) :
    Leads exec Anchored (deleteGroup org name) s fun _ => Anchored := by
  refine (leads_reads readOnly_reads.only_resolveOrg anchored).still fun _ => ?_
  refine (leads_mustExist anchored).past fun _ _ => ?_
  obtain ⟨t, ran, gets⟩ := removeFromACLs_get org (lit "groups") name s
  have revised : Anchored t := by
    have sheds : Sheds org orgsColl name s t := by
      refine ⟨fun found => ?_, fun found => ?_, fun {typ' org' name' key} known found => .inl ?_⟩
      · rw [gets] at found
        split_ifs at found
        · simpa using found
        · exact found
      · have apart : aclsColl ≠ cookbooksColl := by decide
        rwa [gets, if_neg fun here => apart here.2] at found
      · rwa [gets, if_neg fun here => noHome_acls typ' known name' here.2.symm]
    exact anchored.shed sheds (.inl rfl) (.inr (.inl rfl))
  refine leads_bind.mpr (leads_of_run ran ?_)
  have members : (do
      removeActorFromAllGroups org .groups name
      clearMembers org name : Handler Unit).Only (Within org ⟨[groupsColl], [groupMembersColl]⟩) :=
    (within_removeActorFromAllGroups (by simp) (by simp)).bind fun _ => within_clearMembers (by simp)
  have kept {t u : Store} (anchored : Anchored t) (frame : Frame org ⟨[groupsColl], [groupMembersColl]⟩ t u) : Anchored u :=
    anchored.frame frame (by decide) (by decide) (by simp [noHome_members])
  rw [← bind_bind]
  refine (leads_within members fun _ => kept revised).then fun _ u frame => ?_
  have unlisted : Anchored (u.delete org aclsColl (aclKey groupsColl name)).1 :=
    (kept revised frame).shed (@sheds_deleteACL u org name orgsColl _) (.inl rfl) (.inr (.inl rfl))
  refine leads_bind.mpr (leads_of_run run_deleteACL ?_)
  rw [leads_iff, run_delete_bind]
  have gone : Anchored ((u.delete org aclsColl (aclKey groupsColl name)).1.delete org groupsColl name).1 := by
    have row (v : Store) : Sheds org groupsColl name v (v.delete org groupsColl name).1 :=
      sheds_row rfl (isRow_single (by decide))
    refine unlisted.shed (row _) (.inr (by decide)) (.inl ?_)
    rw [get_delete]
    split_ifs
    · rfl
    · exact get_delete_self
  cases ((u.delete org aclsColl (aclKey groupsColl name)).1.delete org groupsColl name).2 with
  | _ => exact gone

theorem sheds_deleted (deleted : Deleted s t who) : Sheds who.scope who.segment who.name s t := by
  have kept {org' coll' key' : GoString} (found : (t.get org' coll' key').isSome) :
      (s.get org' coll' key').isSome := by
    by_cases own : IsOwn who org' coll' key'
    · rw [deleted.own _ _ _ own] at found
      cases found
    · obtain ⟨raw, stored⟩ := Option.isSome_iff_exists.mp found
      obtain ⟨old, before, -⟩ := (deleted.swept _ _ _ own).from_stored raw stored
      exact Option.isSome_of_eq_some before
  have home : homeColl who.segment who.name = who.segment := by cases who <;> rfl
  have kind : who.segment = users ∨ who.segment = clients := by
    cases who with
    | user name => exact .inl rfl
    | client org name => exact .inr rfl
  refine ⟨kept, kept, fun {typ' org' name' key} known found => ?_⟩
  by_cases own : IsOwn who org' (homeColl typ' name') key
  · obtain ⟨here, ⟨same, -⟩ | same | ⟨same, named⟩⟩ := own
    · exact absurd same.symm (noHome_acls typ' known name')
    · exact absurd same.symm (noHome_keys who.name kind typ' known name')
    · refine .inr ⟨here.symm, same.symm.trans home.symm, named ▸ isRow_single ?_⟩
      rcases kind with kind | kind <;> rw [kind] <;> decide
  · refine .inl ((deleted.swept _ _ _ own).kept (fun mem => ?_) found)
    have noHome : ∀ coll ∈ [assocColl, assocReqColl, groupMembersColl], NoHome coll := by simp [noHome_members]
    exact noHome _ mem typ' known name' rfl

theorem Anchored.deleted (anchored : Anchored s) (deleted : Deleted s t who) : Anchored t := by
  have known : who.segment ∈ objectTypes := by
    cases who with
    | user name => exact (by decide : users ∈ objectTypes)
    | client org name => exact (by decide : clients ∈ objectTypes)
  exact anchored.shed (sheds_deleted deleted) (.inr known)
    (.inl (deleted.own _ _ _ ⟨rfl, .inl ⟨rfl, rfl⟩⟩))

theorem Anchored.createOrg (anchored : Anchored s) : Anchored (s.createOrg name).1 := by
  refine ⟨fun {org key} found => ?_, fun {org key} found => ?_⟩
  · rw [Proof.Store.get_createOrg] at found
    obtain ⟨typ, name', same, lives⟩ := anchored.acl found
    exact ⟨typ, name', same, lives.imp_right fun ⟨known, row, isRow, stored⟩ =>
      ⟨known, row, isRow, by rwa [Proof.Store.get_createOrg]⟩⟩
  · rw [Proof.Store.get_createOrg] at found
    exact anchored.version found

theorem Anchored.deleteOrg (anchored : Anchored s) : Anchored (s.deleteOrg name).1 := by
  refine ⟨fun {org key} found => ?_, fun {org key} found => ?_⟩
  · rw [Proof.Store.get_deleteOrg] at found
    split_ifs at found with gone
    · cases found
    · obtain ⟨typ, name', same, lives⟩ := anchored.acl found
      exact ⟨typ, name', same, lives.imp_right fun ⟨known, row, isRow, stored⟩ =>
        ⟨known, row, isRow, by rwa [Proof.Store.get_deleteOrg, if_neg gone]⟩⟩
  · rw [Proof.Store.get_deleteOrg] at found
    split_ifs at found
    · cases found
    · exact anchored.version found

theorem Anchored.furnish {fullName : GoString} (anchored : Anchored s) :
    Leads exec Anchored (furnishOrg env name fullName) s fun _ => Anchored := by
  obtain ⟨t, ran, -, containers⟩ := seedOrg_defaults name s
  have seeds : Anchored t :=
    anchored.frame (frame_of_run within_seedOrg ran) (by decide) (by decide) nofun
  refine leads_furnishOrg (leads_of_run ran ?_)
  have listed : Anchored (t.put global orgsColl name (orgMeta env name fullName)) :=
    seeds.frame (frame_put_one t) (by decide) (by decide) nofun
  have registered : Anchored ((t.put global orgsColl name (orgMeta env name fullName)).put name clients
      (validatorName name) (validatorDoc env name)) :=
    listed.frame (frame_put_one _) (by decide) (by decide) nofun
  refine registered.put (.inr ⟨by decide, clients, isRow_single (by decide), ?_⟩)
  have apart : clients ≠ containersColl ∧ orgsColl ≠ containersColl := by decide
  rw [show homeColl containersColl clients = containersColl from rfl, get_put_of_ne apart.1,
    get_put_of_ne apart.2]
  exact containers clients (by decide)

variable {enforceACL : Bool}

theorem Anchored.createActor [Unicode] {route : ActorRoute} (anchored : Anchored s) :
    Leads exec Anchored (createActor env enforceACL r route.org route.segment) s fun _ =>
      Anchored := by
  have stashed (t : Store) (frame : Frame route.org ⟨[passwordsCollection], []⟩ s t) : Anchored t :=
    anchored.frame frame (by decide) (by decide) nofun
  refine leads_createActor anchored stashed fun name obj t _ frame => ?_
  generalize mustEncode obj = raw
  have registered : Frame route.org ⟨[route.segment], []⟩ t (t.put route.org route.segment name raw) := frame_put_one t
  obtain ⟨known, noACL, noVersion, home, single⟩ : route.segment ∈ objectTypes ∧
      aclsColl ∉ [route.segment] ∧
      cookbooksColl ∉ [route.segment] ∧ homeColl route.segment name = route.segment ∧
      route.segment ∉ [cookbooksColl, artifactsColl, lit "policies"] := by
    cases route with
    | users =>
      exact ⟨(by decide : users ∈ objectTypes), (by decide : aclsColl ∉ [users]),
        (by decide : cookbooksColl ∉ [users]), rfl, (by decide : users ∉ _)⟩
    | clients org =>
      exact ⟨(by decide : clients ∈ objectTypes), (by decide : aclsColl ∉ [clients]),
        (by decide : cookbooksColl ∉ [clients]), rfl, (by decide : clients ∉ _)⟩
  have kept : Anchored (t.put route.org route.segment name raw) :=
    (stashed t frame).frame registered noACL noVersion nofun
  have lives : Lives (t.put route.org route.segment name raw) route.org route.segment name := by
    refine .inr ⟨known, name, isRow_single single, ?_⟩
    rw [home, get_put, if_pos ⟨rfl, rfl, rfl⟩]
    rfl
  refine (kept.grantCreator lives).then fun _ u kept => ?_
  have join : (joinClients enforceACL route.org route.segment name obj).Only (Within route.org ⟨[groupMembersColl], []⟩) :=
    only_ite (fun _ => within_put (by simp)) fun _ => only_pure _
  exact leads_iff.mpr (kept.frame (frame_run join u) (by decide) (by decide) nofun)

theorem Anchored.createObject {type : ObjectType} (anchored : Anchored s) :
    Leads exec Anchored (createObject enforceACL r org type) s fun _ => Anchored := by
  refine (leads_resolveOrg anchored).past fun _ present => ?_
  refine (leads_reads only_readObjectBody anchored).still fun doc => ?_
  refine (leads_refuseWith anchored).past fun _ _ => ?_
  refine (leads_refuseIf anchored).past fun _ _ => ?_
  refine (leads_create anchored).then ?_
  rintro _ _ ⟨-, rfl⟩
  obtain ⟨known, noACL, noVersion, single⟩ : type.segment ∈ objectTypes ∧
      aclsColl ∉ [type.segment] ∧
      cookbooksColl ∉ [type.segment] ∧ type.segment ∉ [cookbooksColl, artifactsColl, lit "policies"] := by
    cases type <;> decide
  have home (name : GoString) : homeColl type.segment name = type.segment := by cases type <;> rfl
  refine ((anchored.frame (frame_put_one _) noACL noVersion nofun).grantCreator ?_).then fun _ _ kept => leads_pure kept
  refine .inr ⟨known, _, isRow_single single, ?_⟩
  rw [home, get_put, if_pos ⟨rfl, rfl, rfl⟩]
  rfl

/-- What a deletion needs to leave no ACL behind: a policy that loses a revision keeps another one or has
no ACL, and the name of an artifact has no slash. -/
def Tidy : ApiRequest → Store → Prop
  | .policy org (.deleteRevision policy rev), s => s.get org aclsColl (aclKey (lit "policies") policy) = none ∨
      ∃ other, other ≠ rev ∧ (s.get org (policyRevColl policy) other).isSome
  | .cookbook _ _ (.deleteArtifact _ name _), _ => 0x2F ∉ name
  | _, _ => True

def MovesObjects : ApiRequest → Prop
  | .actor _ (.create ..) => True
  | .acl .. => True
  | .membership _ (.deleteGroup _) => True
  | .object _ (.create ..) | .object _ (.delete ..) | .object _ (.deleteContainer _) | .object _ (.deleteBag _) => True
  | .policy _ (.deleteRevision ..) | .policy _ (.delete _) | .policy _ (.deleteGroup _) => True
  | .cookbook _ _ (.putVersion ..) | .cookbook _ _ (.deleteVersion ..) | .cookbook _ _ (.deleteArtifact ..) => True
  | _ => False

theorem footprint_unmoved (unmoved : ¬ MovesObjects request) :
    aclsColl ∉ (footprint request).puts ∧ cookbooksColl ∉ (footprint request).puts ∧
      ∀ coll ∈ (footprint request).deletes, NoHome coll := by
  cases request with
  | actor route request =>
    have keys (name : GoString) : NoHome (keysColl route.segment name) :=
      noHome_keys name (segment_cases route)
    rcases segment_cases route with segment | segment <;> cases request <;>
      simp_all +decide [footprint, MovesObjects, ne_keysColl]
  | organization | acl | respond => simp_all +decide [footprint, MovesObjects, noHome_members]
  | membership org request =>
    cases request <;> simp_all +decide [footprint, membershipWrites, MovesObjects, noHome_members]
  | cookbook files org request => cases request <;> simp_all +decide [footprint, cookbookWrites, MovesObjects]
  | policy org request => cases request <;> simp_all +decide [footprint, policyWrites, MovesObjects, ne_policyRevColl]
  | object org request =>
    have segment (type : ObjectType) : aclsColl ≠ type.segment ∧ cookbooksColl ≠ type.segment := by
      cases type <;> decide
    cases request <;> simp_all +decide [footprint, objectWrites, MovesObjects, ne_dataBagItemsColl, noHome_items]

theorem anchored_request [Unicode] (anchored : Anchored s) (placed : Placed s)
    (tidy : Tidy request s) :
    Leads exec Anchored (request.handler enforceACL) s fun _ => Anchored := by
  by_cases framed : Framed request
  · by_cases moves : MovesObjects request
    · cases request with
      | actor route request =>
        cases request with
        | create env r =>
          refine (leads_scope anchored).past fun _ _ => ?_
          exact anchored.createActor
        | _ => cases moves
      | acl r perm request =>
        cases request with
        | object org type name =>
          refine (leads_resolveOrg anchored).past fun _ _ => ?_
          exact anchored.update (.inr (by cases type <;> decide))
        | organization org =>
          refine (leads_resolveOrg anchored).past fun _ _ => ?_
          exact anchored.update (.inl rfl)
        | user name => exact anchored.update (.inr (by decide))
      | membership org request =>
        cases request with
        | deleteGroup name => exact anchored.deleteGroup
        | _ => cases moves
      | object org request =>
        cases request with
        | create r type => exact anchored.createObject
        | delete type name =>
          refine leads_ite (fun _ => leads_stop anchored) fun _ => ?_
          cases type <;> exact anchored.deleteObject (by decide) rfl (by decide)
        | deleteContainer name => exact anchored.deleteObject (by decide) rfl (by decide)
        | deleteBag bag => exact anchored.deleteDataBag
        | _ => cases moves
      | policy org request =>
        cases request with
        | deleteRevision policy rev => exact anchored.deletePolicyRevision tidy
        | delete policy => exact anchored.deletePolicy
        | deleteGroup group => exact anchored.deletePolicyGroup
        | _ => cases moves
      | cookbook files org request =>
        cases request with
        | putVersion r name version => exact anchored.putCookbookVersion
        | deleteVersion r name version => exact anchored.deleteCookbookVersion
        | deleteArtifact r name ident => exact anchored.deleteArtifactVersion tidy
        | _ => cases moves
      | organization | respond => cases moves
    · obtain ⟨noACL, noVersion, noHome⟩ := footprint_unmoved moves
      exact leads_framed framed anchored fun _ _ _ frame =>
        anchored.frame frame noACL noVersion noHome
  have orgs : ∀ coll ∈ [orgsColl], NoHome coll := by simp [noHome_orgs]
  obtain ⟨route, r, name, rfl⟩ | ⟨env, r, rfl⟩ | ⟨name, rfl⟩ := unframed_cases framed
  · exact leads_deleteActor placed.noGlobal anchored fun _ _ deleted => anchored.deleted deleted
  · exact leads_createOrganization anchored fun fullName _ _ => anchored.createOrg.furnish
  · exact leads_deleteOrganization (fun frame => anchored.frame frame nofun nofun orgs) fun frame =>
      (anchored.frame frame nofun nofun orgs).deleteOrg

theorem slash_not_mem_type (known : typ = orgsColl ∨ typ ∈ objectTypes) : 0x2F ∉ typ := by
  have plain : (orgsColl :: objectTypes).all (0x2F ∉ ·) := by decide
  exact of_decide_eq_true (List.all_eq_true.mp plain typ (List.mem_cons.mpr known))

/-- Whatever requests are made, in any order, every ACL belongs to an object that exists, as long as no
deletion leaves one behind. -/
theorem acl_objects_exist [Unicode] (reached : Serves enforceACL Tidy s)
    (stored : (s.get org aclsColl key).isSome) :
    ∃ typ name, cut (lit "/") key = some (typ, name) ∧
      (aclObjectExists org typ name).run exec s = (.ok true, s) := by
  have anchored : Anchored s :=
    Session.invariant reached ⟨nofun, nofun⟩ fun request s reached tidy anchored =>
    anchored_request anchored (placed_of_serves reached) tidy
  obtain ⟨typ, name, rfl, lives⟩ := anchored.acl stored
  have known : typ = orgsColl ∨ typ ∈ objectTypes := lives.imp_right And.left
  exact ⟨typ, name, cut_of_not_mem (slash_not_mem_type known),
    (aclObjectExists_iff known).mpr lives⟩

def createsRevision (rev : GoString) : ApiRequest :=
  .policy acme (.createRevision (creates [(lit "name", .string ops), (lit "revision_id", .string rev),
    (lit "run_list", .array []), (lit "cookbook_locks", .object [])]) ops)

def grantsNobody (type : AclType) (name : GoString) : ApiRequest :=
  .acl (creates [(lit "actors", .array []), (lit "groups", .array [])]) (lit "read") (.object acme type name)

def policyAfter [Unicode] (revisions : List GoString) : Store :=
  serveAll false (createsAcme :: revisions.map createsRevision ++
    [grantsNobody .policies ops, .policy acme (.deleteRevision ops (lit "r1"))]) Store.newMemoryBackend

theorem policy_keeps_acl :
    letI : Unicode := ⟨id⟩
    Serves false Tidy (policyAfter [lit "r1", lit "r2"]) ∧
      ((policyAfter [lit "r1", lit "r2"]).get acme aclsColl (aclKey (lit "policies") ops)).isSome ∧
      ∃ typ name, cut (lit "/") (aclKey (lit "policies") ops) = some (typ, name) ∧
        (aclObjectExists acme typ name).run exec (policyAfter [lit "r1", lit "r2"]) =
          (.ok true, policyAfter [lit "r1", lit "r2"]) := by
  let _ : Unicode := ⟨id⟩
  let before := serveAll false [createsAcme, createsRevision (lit "r1"), createsRevision (lit "r2"),
    grantsNobody .policies ops] Store.newMemoryBackend
  have earlier : Serves false Tidy before :=
    Serves.all .start (by simp [createsAcme, createsRevision, grantsNobody, Tidy])
  have tidy : Tidy (.policy acme (.deleteRevision ops (lit "r1"))) before :=
    .inr ⟨lit "r2", by decide, by decide +kernel⟩
  have reached : Serves false Tidy (policyAfter [lit "r1", lit "r2"]) := .serve earlier _ tidy
  have stored : ((policyAfter [lit "r1", lit "r2"]).get acme aclsColl (aclKey (lit "policies") ops)).isSome := by
    decide +kernel
  exact ⟨reached, stored, acl_objects_exist reached stored⟩

theorem policy_acl_survives :
    letI : Unicode := ⟨id⟩
    Serves false (fun _ _ => True) (policyAfter [lit "r1"]) ∧
      ((policyAfter [lit "r1"]).get acme aclsColl (aclKey (lit "policies") ops)).isSome ∧
      cut (lit "/") (aclKey (lit "policies") ops) = some (lit "policies", ops) ∧
      (aclObjectExists acme (lit "policies") ops).run exec (policyAfter [lit "r1"]) =
        (.ok false, policyAfter [lit "r1"]) := by
  let _ : Unicode := ⟨id⟩
  have noRevision : ((policyAfter [lit "r1"]).keys acme (policyRevColl ops)).isEmpty := by decide +kernel
  refine ⟨Serves.all .start (by simp), by decide +kernel, by decide, ?_⟩
  have exists_run (s : Store) : (aclObjectExists acme (lit "policies") ops).run exec s =
      (.ok !(s.keys acme (policyRevColl ops)).isEmpty, s) := rfl
  rw [exists_run, noRevision, Bool.not_true]

end CincServer.Proof.Api
