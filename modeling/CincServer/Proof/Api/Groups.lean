import CincServer.Proof.Api.Calls
import Mathlib.Logic.Relation

/-!
# Member rows, group documents and the index built from them
-/

namespace CincServer.Proof.Api
open CincServer.Api CincServer.Json Go Lib Program
open GroupIndex (append table addAll addOne addRow empty)

variable {org : GoString} {kind : MemberKind} {actor : GoString} {s t : Store}
  {kind' : MemberKind} {group kindName member group' : GoString} {idx : GroupIndex}

theorem canonical_stringArray (names : List GoString) :
    canonical (stringArray names) = stringArray names := by
  have elems : canonicalElems (names.map .string) = names.map .string := by
    induction names with
    | nil => rfl
    | cons name names ih => simp [canonicalElems, canonical, ih]
  rw [stringArray, canonical, elems]

theorem inRange_stringArray (names : List GoString) : inRange (stringArray names) = true := by
  rw [stringArray, inRange]
  induction names with
  | nil => rfl
  | cons name names ih => simp [allInRange, inRange, ih]

theorem jsonStrings_stringArray (names : List GoString) :
    jsonStrings (stringArray names) = names := by
  simp [jsonStrings, stringArray]

theorem asMap_stringArray (names : List GoString) : asMap (stringArray names) = none := rfl

theorem kind_no_separator (kind : MemberKind) : 0 ∉ kind.name := by
  cases kind <;> decide

theorem ofName_eq_some {name : GoString} :
    MemberKind.ofName name = some kind ↔ name = kind.name := by
  constructor
  · intro named
    unfold MemberKind.ofName at named
    split_ifs at named <;> (obtain rfl := Option.some.inj named; assumption)
  · rintro rfl
    cases kind <;> decide

theorem kind_name_inj (same : kind.name = kind'.name) : kind = kind' :=
  Option.some.inj ((ofName_eq_some.mpr rfl).symm.trans (ofName_eq_some.mpr same))

theorem splitOn_memberKey (noGroup : 0 ∉ group) (noKind : 0 ∉ kindName)
    (noMember : 0 ∉ member) :
    (memberKey group kindName member).splitOn 0 = [group, kindName, member] := by
  simp [memberKey, List.splitOn_append_cons_self_of_not_mem noGroup,
    List.splitOn_append_cons_self_of_not_mem noKind, List.splitOn_eq_singleton noMember]

theorem splitMemberKey_eq_some {key : GoString} :
    splitMemberKey key = some (group, kindName, member) ↔
      key = memberKey group kindName member ∧ 0 ∉ group ∧ 0 ∉ kindName ∧ 0 ∉ member := by
  constructor
  · intro parts
    have split : key.splitOn 0 = [group, kindName, member] := by
      unfold splitMemberKey at parts
      split at parts
      · rename_i found
        obtain ⟨rfl, rfl, rfl⟩ := by simpa using parts
        exact found
      · cases parts
    have noSeparator (part : GoString) (mem : part ∈ [group, kindName, member]) : 0 ∉ part :=
      not_mem_of_mem_splitOn (split ▸ mem)
    refine ⟨?_, noSeparator _ (by simp), noSeparator _ (by simp), noSeparator _ (by simp)⟩
    have whole : [0].intercalate (key.splitOn 0) = key := List.intercalate_splitOn 0
    rw [split] at whole
    rw [← whole]
    simp [memberKey, List.intercalate]
  · rintro ⟨rfl, noGroup, noKind, noMember⟩
    rw [splitMemberKey, splitOn_memberKey noGroup noKind noMember]

def rowSuffix (kind : MemberKind) (actor : GoString) : GoString := 0 :: kind.name ++ 0 :: actor

theorem rowSuffix_suffix_iff (noGroup : 0 ∉ group) (noKind : 0 ∉ kindName) (noMember : 0 ∉ member) :
    rowSuffix kind actor <:+ memberKey group kindName member ↔ kindName = kind.name ∧
      member = actor := by
  constructor
  · rintro ⟨front, whole⟩
    have parts := congrArg (List.splitOn 0) whole
    rw [splitOn_memberKey noGroup noKind noMember, rowSuffix, List.cons_append,
      List.splitOn_append_cons_self,
      List.splitOn_append_cons_self_of_not_mem (kind_no_separator kind)] at parts
    obtain ⟨first, more, frontParts⟩ :=
      List.exists_cons_of_ne_nil (List.splitOn_ne_nil (0 : UInt8) front)
    obtain ⟨last, others, actorParts⟩ :=
      List.exists_cons_of_ne_nil (List.splitOn_ne_nil (0 : UInt8) actor)
    rw [frontParts, actorParts] at parts
    have one : more = [] := by
      have := congrArg List.length parts
      simp only [List.length_append, List.length_cons, List.length_nil] at this
      exact List.length_eq_zero_iff.mp (by omega)
    subst one
    simp only [List.cons_append, List.nil_append, List.cons.injEq] at parts
    obtain ⟨-, kinds, rfl, rfl⟩ := parts
    refine ⟨kinds.symm, ?_⟩
    have whole : [0].intercalate (actor.splitOn 0) = actor := List.intercalate_splitOn 0
    rw [actorParts] at whole
    simpa [List.intercalate] using whole
  · rintro ⟨rfl, rfl⟩
    exact ⟨group, by simp [rowSuffix, memberKey]⟩

theorem mem_append {member' : GoString} :
    group' ∈ ((idx.append kind member group).table kind').getD member' [] ↔
      group' ∈ (idx.table kind').getD member' [] ∨ kind = kind' ∧ member = member' ∧ group' = group := by
  by_cases same : member = member'
  · subst same
    cases kind <;> cases kind' <;> simp [append, table]
  · cases kind <;> cases kind' <;> simp [append, table, Std.ExtTreeMap.getD_insert, same]

theorem mem_foldl_append {names : List GoString} :
    group' ∈ ((names.foldl (fun idx member => idx.append kind member group) idx).table kind').getD member [] ↔
      group' ∈ (idx.table kind').getD member [] ∨ kind = kind' ∧ member ∈ names ∧ group' = group := by
  induction names generalizing idx with
  | nil => simp
  | cons name names ih =>
    rw [List.foldl_cons, ih, mem_append, List.mem_cons, eq_comm (a := name)]
    tauto

theorem mem_addAll {m : MemberLists} : group' ∈ ((idx.addAll group m).table kind).getD member [] ↔
      group' ∈ (idx.table kind).getD member [] ∨ member ∈ m.get kind ∧ group' = group := by
  simp only [addAll, mem_foldl_append]
  cases kind <;> simp

theorem mem_addOne {actor : GoString} :
    group' ∈ ((idx.addOne group kindName actor).table kind).getD member [] ↔
      group' ∈ (idx.table kind).getD member [] ∨ kindName = kind.name ∧ member = actor ∧ group' = group := by
  unfold addOne
  cases named : MemberKind.ofName kindName with
  | none =>
    have : kindName ≠ kind.name := fun same => by simp [ofName_eq_some.mpr same] at named
    simp [this]
  | some kind' =>
    obtain rfl := ofName_eq_some.mp named
    have kinds : kind'.name = kind.name ↔ kind' = kind := by
      rw [← ofName_eq_some, named, Option.some.injEq]
    rw [kinds]
    by_cases present : group ∈ (idx.table kind').getD actor []
    · simp only [present, if_true]
      constructor
      · exact .inl
      · rintro (here | ⟨rfl, rfl, rfl⟩)
        · exact here
        · exact present
    · simp only [present, if_false, mem_append, eq_comm (a := actor)]

theorem mem_addRow {key : GoString} : group ∈ ((idx.addRow key).table kind).getD member [] ↔
      group ∈ (idx.table kind).getD member [] ∨ splitMemberKey key = some (group, kind.name, member) := by
  unfold addRow
  rcases splitMemberKey key with _ | ⟨group', kindName, actor⟩
  · simp
  · simp only [mem_addOne, Option.some.injEq, Prod.mk.injEq]
    tauto

theorem mem_foldl_addAll {docs : List (GoString × Raw)} :
    group ∈ ((docs.foldl (fun idx doc => idx.addAll doc.1 (indexMembers doc.2)) idx).table kind).getD member [] ↔
      group ∈ (idx.table kind).getD member [] ∨
        ∃ doc ∈ docs, doc.1 = group ∧ member ∈ (indexMembers doc.2).get kind := by
  induction docs generalizing idx with
  | nil => simp
  | cons doc docs ih =>
    rw [List.foldl_cons, ih, mem_addAll]
    simp only [List.mem_cons, exists_eq_or_imp, eq_comm (a := group)]
    tauto

theorem mem_foldl_addRow {rows : List (GoString × Raw)} :
    group ∈ ((rows.foldl (fun idx row => idx.addRow row.1) idx).table kind).getD member [] ↔
      group ∈ (idx.table kind).getD member [] ∨
        ∃ row ∈ rows, splitMemberKey row.1 = some (group, kind.name, member) := by
  induction rows generalizing idx with
  | nil => simp
  | cons row rows ih =>
    rw [List.foldl_cons, ih, mem_addRow]
    simp only [List.mem_cons, exists_eq_or_imp]
    tauto

def Listed (s : Store) (org group : GoString) (kind : MemberKind) (member : GoString) : Prop :=
  ∃ idx t, (buildGroupIndex org).run exec s = (.ok idx, t) ∧ group ∈ (idx.table kind).getD member []

def Row (s : Store) (org group : GoString) (kind : MemberKind) (member : GoString) : Prop :=
  0 ∉ group ∧ 0 ∉ member ∧ (s.get org groupMembersColl (memberKey group kind.name member)).isSome

def RowAt (s : Store) (org key first : GoString) (kind : MemberKind) (member : GoString) : Prop :=
  (s.get org groupMembersColl key).isSome ∧ splitMemberKey key = some (first, kind.name, member)

theorem exists_rowAt_iff :
    (∃ key, RowAt s org key group kind member) ↔ Row s org group kind member := by
  constructor
  · rintro ⟨key, stored, split⟩
    obtain ⟨rfl, noGroup, -, noMember⟩ := splitMemberKey_eq_some.mp split
    exact ⟨noGroup, noMember, stored⟩
  · rintro ⟨noGroup, noMember, stored⟩
    exact ⟨_, stored, splitMemberKey_eq_some.mpr ⟨rfl, noGroup, kind_no_separator kind, noMember⟩⟩

theorem mem_docs : group ∈ (((s.range org groupsColl).foldl (fun idx doc => idx.addAll doc.1 (indexMembers doc.2))
        empty).table kind).getD member [] ↔
      ∃ raw, s.get org groupsColl group = some raw ∧ member ∈ (indexMembers raw).get kind := by
  have nothing : group ∉ (GroupIndex.empty.table kind).getD member [] := by
    cases kind <;> simp [empty, table]
  rw [mem_foldl_addAll]
  simp only [nothing, false_or]
  constructor
  · rintro ⟨⟨name, raw⟩, mem, rfl, lists⟩
    exact ⟨raw, mem_range.mp mem, lists⟩
  · rintro ⟨raw, found, lists⟩
    exact ⟨(group, raw), mem_range.mpr found, rfl, lists⟩

theorem mem_rows :
    group ∈ (((s.range org groupMembersColl).foldl (fun idx row => idx.addRow row.1) idx).table kind).getD member [] ↔
      group ∈ (idx.table kind).getD member [] ∨ ∃ key, RowAt s org key group kind member := by
  rw [mem_foldl_addRow]
  refine or_congr_right ?_
  constructor
  · rintro ⟨row, mem, split⟩
    exact ⟨row.1, by rw [mem_range.mp mem]; rfl, split⟩
  · rintro ⟨key, stored, split⟩
    obtain ⟨raw, found⟩ := Option.isSome_iff_exists.mp stored
    exact ⟨(key, raw), mem_range.mpr found, split⟩

theorem listed_iff_indexOf : Listed s org group kind member ↔
      group ∈ ((indexOf (s.range org groupsColl) (s.range org groupMembersColl)).table kind).getD member [] := by
  have run : (buildGroupIndex org).run exec s =
    (.ok (indexOf (s.range org groupsColl) (s.range org groupMembersColl)), s) := rfl
  simp [Listed, run]

instance {group member : GoString} : Decidable (Listed s org group kind member) :=
  decidable_of_iff _ listed_iff_indexOf.symm

theorem listed_iff_rowAt : Listed s org group kind member ↔
      (∃ raw, s.get org groupsColl group = some raw ∧ member ∈ (indexMembers raw).get kind) ∨
        ∃ key, RowAt s org key group kind member := by
  rw [listed_iff_indexOf, indexOf, mem_rows, mem_docs]

theorem listed_iff : Listed s org group kind member ↔
      (∃ raw, s.get org groupsColl group = some raw ∧ member ∈ (indexMembers raw).get kind) ∨
        Row s org group kind member := by
  rw [listed_iff_rowAt, exists_rowAt_iff]

theorem removeMemberRows_get (org : GoString) (kind : MemberKind) (actor : GoString) (s : Store) :
    ∃ t, (removeMemberRows org kind actor).run exec s = (.ok (), t) ∧
      ∀ org' coll key, t.get org' coll key =
        if org = org' ∧ groupMembersColl = coll ∧ rowSuffix kind actor <:+ key then none
        else s.get org' coll key := by
  obtain ⟨t, ran, gets⟩ := deleteRows_get org groupMembersColl (rowSuffix kind actor).isSuffixOf s
  refine ⟨t, ran, fun org' coll key => ?_⟩
  simp only [gets, List.isSuffixOf_iff_suffix]

def revise (kind : MemberKind) (actor name : GoString) (raw : Raw) : Raw :=
  (revoked name kind actor raw).getD raw

theorem removeFromGroupDoc_get (org : GoString) (kind : MemberKind) (actor name : GoString)
    (s : Store) :
    ∃ t, (removeFromGroupDoc org kind actor name).run exec s = (.ok (), t) ∧
      ∀ org' coll key, t.get org' coll key =
        if org = org' ∧ groupsColl = coll ∧ name = key then
          (s.get org groupsColl name).map (revise kind actor name)
        else s.get org' coll key := by
  rw [removeFromGroupDoc, run_get_bind]
  cases found : s.get org groupsColl name with
  | none =>
    refine ⟨s, rfl, fun org' coll key => ?_⟩
    split_ifs with here
    · obtain ⟨rfl, rfl, rfl⟩ := here
      exact found
    · rfl
  | some raw =>
    cases doc : revoked name kind actor raw with
    | none =>
      refine ⟨s, by simp [doc], fun org' coll key => ?_⟩
      split_ifs with here
      · obtain ⟨rfl, rfl, rfl⟩ := here
        simp [found, revise, doc]
      · rfl
    | some doc' => exact ⟨_, by simp [doc]; rfl, by simp [get_put, revise, doc]⟩

theorem removeFromGroupDocs_get (org : GoString) (kind : MemberKind) (actor : GoString)
    (s : Store) :
    ∃ t, (removeFromGroupDocs org kind actor).run exec s = (.ok (), t) ∧
      ∀ org' coll key, t.get org' coll key =
        if org = org' ∧ groupsColl = coll then (s.get org' coll key).map (revise kind actor key)
        else s.get org' coll key := by
  choose effect ran gets using removeFromGroupDoc_get org kind actor
  refine ⟨_, run_forM ran (s.keys org groupsColl) s, fun org' coll key => ?_⟩
  rw [get_foldl_rows (fun name => Option.map (revise kind actor name)) gets nodup_keys]
  by_cases here : org = org' ∧ groupsColl = coll
  · obtain ⟨rfl, rfl⟩ := here
    simp only [true_and, and_self, if_true, mem_keys]
    cases s.get org groupsColl key <;> simp
  · simp only [← and_assoc, here, false_and, if_false]

def WithoutMember (org : GoString) (kind : MemberKind) (actor : GoString) (s t : Store) : Prop :=
  ∀ org' coll key, t.get org' coll key =
    if org = org' ∧ groupMembersColl = coll ∧ rowSuffix kind actor <:+ key then none
    else if org = org' ∧ groupsColl = coll then (s.get org' coll key).map (revise kind actor key)
    else s.get org' coll key

theorem removeActorFromAllGroups_ok (org : GoString) (kind : MemberKind) (actor : GoString)
    (s : Store) :
    ∃ t, (removeActorFromAllGroups org kind actor).run exec s = (.ok (), t) ∧
      WithoutMember org kind actor s t := by
  obtain ⟨mid, rows, rowGets⟩ := removeMemberRows_get org kind actor s
  obtain ⟨t, docs, docGets⟩ := removeFromGroupDocs_get org kind actor mid
  refine ⟨t, by rw [removeActorFromAllGroups, run_bind_of_ok rows, docs], fun org' coll key => ?_⟩
  have apart : groupMembersColl ≠ groupsColl := by decide
  rw [docGets, rowGets]
  by_cases doc : org = org' ∧ groupsColl = coll
  · obtain ⟨rfl, rfl⟩ := doc
    simp [apart]
  · simp only [doc, if_false]

theorem clearMembers_get (org name : GoString) (s : Store) :
    ∃ t, (clearMembers org name).run exec s = (.ok (), t) ∧ ∀ org' coll key, t.get org' coll key =
        if org = org' ∧ groupMembersColl = coll ∧ (name ++ [0]) <+: key then none
        else s.get org' coll key := by
  obtain ⟨t, ran, gets⟩ := deleteRows_get org groupMembersColl (name ++ [0]).isPrefixOf s
  refine ⟨t, ran, fun org' coll key => ?_⟩
  simp only [gets, List.isPrefixOf_iff_prefix]

theorem WithoutMember.row (after : WithoutMember org kind actor s t) :
    Row t org group kind' member ↔ Row s org group kind' member ∧
      ¬ (kind' = kind ∧ member = actor) := by
  have notDocs : groupsColl ≠ groupMembersColl := by decide
  have kinds : kind'.name = kind.name ↔ kind' = kind := ⟨kind_name_inj, congrArg MemberKind.name⟩
  unfold Row
  rw [after]
  simp only [true_and, notDocs, and_false, if_false]
  constructor
  · rintro ⟨noGroup, noMember, found⟩
    simp only [rowSuffix_suffix_iff noGroup (kind_no_separator kind') noMember, kinds] at found
    split_ifs at found with here
    · cases found
    · exact ⟨⟨noGroup, noMember, found⟩, here⟩
  · rintro ⟨⟨noGroup, noMember, found⟩, other⟩
    refine ⟨noGroup, noMember, ?_⟩
    simpa only [rowSuffix_suffix_iff noGroup (kind_no_separator kind') noMember, kinds, other,
      if_false] using found

theorem WithoutMember.doc (after : WithoutMember org kind actor s t) (group : GoString) :
    t.get org groupsColl group = (s.get org groupsColl group).map (revise kind actor group) := by
  have apart : groupMembersColl ≠ groupsColl := by decide
  rw [after]
  simp [apart]

/-! ## What a permission check evaluates -/

variable {org : GoString} {actor : Actor} {s : Store}

def groupsAt (s : Store) (org : GoString) (actor : Actor) : List GoString :=
  (indexOf (s.range org groupsColl) (s.range org groupMembersColl)).membership actor

theorem run_actorGroups :
    (actorGroups org actor).run exec s = (.ok (groupsAt s org actor), s) := rfl

def entryAt (s : Store) (org typ name perm : GoString) : Value :=
  field (contents (aclOfRaw typ name (s.get org aclsColl (aclKey typ name))).acl) perm

theorem run_actorAllowed (typ name perm : GoString) :
    (actorAllowed org actor typ name perm).run exec s =
      (.ok (aceAllows (entryAt s org typ name perm) actor.name (groupsAt s org actor)), s) := by
  have load : (loadACL org typ name).run exec s =
    (.ok (aclOfRaw typ name (s.get org aclsColl (aclKey typ name))), s) := rfl
  rw [actorAllowed, run_bind_of_ok load, entryAt]
  cases entry : asMap (field (contents (aclOfRaw typ name (s.get org aclsColl (aclKey typ name))).acl) perm) with
  | none => simp [aceAllows, entry]
  | some ace =>
    by_cases named : actor.name ∈ anyStrings (field ace (lit "actors"))
    · simp [aceAllows, entry, named]
    · by_cases groups : anyStrings (field ace (lit "groups")) = []
      · simp [aceAllows, entry, named, groups]
      · simp only [named, if_false, List.isEmpty_iff, groups, run_bind_of_ok run_actorGroups,
          run_pure]

section Nesting

variable {nests : GoMap (List GoString)} {direct queue : List GoString} {group : GoString} {i fuel : Nat}

theorem mem_foldl_enqueue {names : List GoString} :
    group ∈ names.foldl enqueue queue ↔ group ∈ queue ∨ group ∈ names := by
  induction names generalizing queue with
  | nil => simp
  | cons name names ih =>
    rw [List.foldl_cons, ih, enqueue]
    split <;> grind

theorem foldl_enqueue (names : List GoString) (distinct : queue.Nodup) :
    (names.foldl enqueue queue).Nodup ∧ queue <+: names.foldl enqueue queue := by
  induction names generalizing queue with
  | nil => exact ⟨distinct, List.prefix_rfl⟩
  | cons name names ih =>
    rw [List.foldl_cons, enqueue]
    split
    · exact ih distinct
    · next fresh =>
      obtain ⟨nodup, grown⟩ := ih (List.concat_eq_append ▸ distinct.concat fresh)
      exact ⟨nodup, (List.prefix_append queue [name]).trans grown⟩

/-- One of the first groups, or one in which it is nested in some number of steps. -/
def Encloses (direct : GoString → Prop) (nests : GoString → GoString → Prop)
    (group : GoString) : Prop :=
  ∃ first, direct first ∧ Relation.ReflTransGen nests first group

/-- The worklist before round `i`. -/
structure Expanding (nests : GoMap (List GoString)) (direct queue : List GoString) (i : Nat) :
    Prop where
  distinct : queue.Nodup
  starts : direct ⊆ queue
  sound : ∀ group ∈ queue, Encloses (· ∈ direct) (fun inner outer => outer ∈ nests.getD inner []) group
  followed : ∀ inner ∈ queue.take i, nests.getD inner [] ⊆ queue

theorem Expanding.round (expanding : Expanding nests direct queue i)
    (next : queue[i]? = some group) :
    Expanding nests direct ((nests.getD group []).foldl enqueue queue) (i + 1) := by
  obtain ⟨nodup, more, grown⟩ := foldl_enqueue (nests.getD group []) expanding.distinct
  refine ⟨nodup, fun _ mem => mem_foldl_enqueue.mpr (.inl (expanding.starts mem)),
    fun outer mem => ?_,
    fun inner mem outer nested => mem_foldl_enqueue.mpr ?_⟩
  · rcases mem_foldl_enqueue.mp mem with queued | added
    · exact expanding.sound outer queued
    · obtain ⟨first, listed, path⟩ := expanding.sound group (List.mem_of_getElem? next)
      exact ⟨first, listed, path.tail added⟩
  · rw [← grown, List.take_append_of_le_length (List.getElem?_eq_some_iff.mp next).1,
      List.take_add_one, next] at mem
    rcases List.mem_append.mp mem with earlier | last
    · exact .inl (expanding.followed inner earlier nested)
    · obtain rfl : inner = group := by simpa using last
      exact .inr nested

theorem Expanding.length_le (expanding : Expanding nests direct queue i) :
    queue.length ≤ direct.length + (nests.toList.flatMap Prod.snd).length := by
  rw [← List.length_append]
  refine (List.subperm_of_subset expanding.distinct fun group mem => List.mem_append.mpr ?_).length_le
  obtain ⟨first, listed, path⟩ := expanding.sound group mem
  rcases path.cases_tail with rfl | ⟨inner, -, nested⟩
  · exact .inl listed
  · rw [Std.ExtTreeMap.getD_eq_getD_getElem?] at nested
    cases found : nests[inner]? with
    | none => simp [found] at nested
    | some outers =>
      rw [found] at nested
      exact .inr (List.mem_flatMap.mpr ⟨_, Std.ExtTreeMap.mem_toList_iff_getElem?_eq_some.mpr found, nested⟩)

theorem Expanding.mem_iff (expanding : Expanding nests direct queue i)
    (finished : queue.length ≤ i) :
    group ∈ queue ↔ Encloses (· ∈ direct) (fun inner outer => outer ∈ nests.getD inner []) group := by
  refine ⟨expanding.sound group, ?_⟩
  rintro ⟨first, listed, path⟩
  induction path with
  | refl => exact expanding.starts listed
  | tail _ nested queued => exact expanding.followed _ (by rwa [List.take_of_length_le finished]) nested

theorem Expanding.mem_expand (expanding : Expanding nests direct queue i)
    (enough : direct.length + (nests.toList.flatMap Prod.snd).length < fuel + i) :
    group ∈ expand nests fuel queue i ↔
      Encloses (· ∈ direct) (fun inner outer => outer ∈ nests.getD inner []) group := by
  induction fuel generalizing queue i with
  | zero => exact expanding.mem_iff (expanding.length_le.trans (by omega))
  | succ fuel ih =>
    rw [expand]
    cases next : queue[i]? with
    | none => exact expanding.mem_iff (List.getElem?_eq_none_iff.mp next)
    | some inner => exact ih (expanding.round next) (by omega)

theorem mem_membership (idx : GroupIndex) : group ∈ idx.membership actor ↔
    Encloses (· ∈ (idx.table (if actor.isClient then .clients else .users)).getD actor.name [])
      (fun inner outer => outer ∈ (idx.table .groups).getD inner []) group := by
  have expands (direct : List GoString) : group ∈ expand idx.nests _ (direct.foldl enqueue []) 0 ↔ _ :=
    Expanding.mem_expand ⟨(foldl_enqueue direct List.nodup_nil).1, fun _ mem => mem_foldl_enqueue.mpr (.inr mem),
      fun group mem => ⟨group, by simpa [mem_foldl_enqueue] using mem, .refl⟩, by simp⟩ (Nat.lt_succ_self _)
  rw [GroupIndex.membership]
  split <;> exact expands _

end Nesting

/-- A permission check succeeds exactly for an actor the entry names, and for one listed in a group it
names or in a group nested there in some number of steps. -/
theorem allowed_iff_encloses (typ name perm : GoString) : ∃ allowed,
    (actorAllowed org actor typ name perm).run exec s = (.ok allowed, s) ∧ (allowed = true ↔
      ∃ ace, asMap (entryAt s org typ name perm) = some ace ∧
        (actor.name ∈ anyStrings (field ace (lit "actors")) ∨
        ∃ group ∈ anyStrings (field ace (lit "groups")),
          Encloses (Listed s org · (if actor.isClient then .clients else .users) actor.name)
            (fun inner outer => Listed s org outer .groups inner) group)) := by
  refine ⟨_, run_actorAllowed typ name perm, ?_⟩
  simp only [listed_iff_indexOf, ← mem_membership, aceAllows]
  cases asMap (entryAt s org typ name perm) with
  | none => simp
  | some ace =>
    simp only [Option.some.injEq, exists_eq_left', Bool.or_eq_true, List.any_eq_true,
      decide_eq_true_eq]
    rfl

end CincServer.Proof.Api
