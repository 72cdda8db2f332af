import CincServer.Proof.Api.Refusal

/-!
# The two readers of group membership
-/

namespace CincServer.Proof.Api
open CincServer.Api CincServer.Json Proof.Decoding Go Lib Program

variable {org group member : GoString} {kind : MemberKind} {s : Store}

def ListsAlike (raw : Raw) : Prop :=
  ∀ kind member, member ∈ (removerMembers raw).get kind ↔ member ∈ (indexMembers raw).get kind

def memberSlice (name : GoString) (m : MemberDoc) : Slice :=
  if name = lit "users" then m.users else if name = lit "clients" then m.clients else m.groups

def kindNames : List GoString := [lit "users", lit "clients", lit "groups"]

theorem storeMember_members (target : MemberDoc) (member : GoString × Value) :
    storeMember memberFields target member =
      if foldName member.1 ∈ kindNames → isNames member.2 then
        some ⟨if foldName member.1 = lit "users" then readNames target.users member.2 else target.users,
          if foldName member.1 = lit "clients" then readNames target.clients member.2 else target.clients,
          if foldName member.1 = lit "groups" then readNames target.groups member.2 else target.groups⟩
      else none := by
  simp only [memberFields, storeMember_cons, storeMember_nil, strings_name, strings_store,
    kindNames, List.mem_cons, List.not_mem_nil, or_false]
  by_cases isUsers : foldName member.1 = lit "users"
  · simp +decide [isUsers]
  by_cases isClients : foldName member.1 = lit "clients"
  · simp +decide [isClients]
  by_cases isGroups : foldName member.1 = lit "groups"
  · simp +decide [isGroups]
  · simp [isUsers, isClients, isGroups]

theorem listFields_members : ListFields memberFields kindNames memberSlice := by
  refine .of_storeMember storeMember_members fun target member name mem => ?_
  simp only [kindNames, List.mem_cons, List.not_mem_nil, or_false] at mem
  rcases mem with rfl | rfl | rfl <;> simp +decide [memberSlice]

theorem kind_mem_kindNames (kind : MemberKind) : kind.name ∈ kindNames := by
  cases kind <;> simp [kindNames, MemberKind.name]

def ListsNames (doc : Members) : Prop :=
  ∀ member ∈ doc, foldName member.1 ∈ kindNames → isNames member.2

theorem isSome_decodeMembers (doc : Members) :
    (decodeMembers (.document (.object doc))).isSome ↔ ListsNames doc :=
  listFields_members.isSome_iff _

open Classical in
theorem get_indexMembers (doc : Members) (kind : MemberKind) :
    (indexMembers (.document (.object doc))).get kind =
      if ListsNames doc then spelledNames kind.name doc
      else if membersInRange doc then namesUnder kind.name doc else [] := by
  have typed := isSome_decodeMembers doc
  unfold indexMembers
  cases decoded : decodeMembers (.document (.object doc)) with
  | some m =>
    rw [decoded] at typed
    rw [if_pos (typed.mp rfl), spelledNames]
    have read := listFields_members.slice_eq decoded (kind_mem_kindNames kind)
    have start : memberSlice kind.name ⟨.empty, .empty, .empty⟩ = .empty := by cases kind <;> rfl
    rw [start] at read
    rw [← read]
    cases kind <;> rfl
  | none =>
    rw [decoded] at typed
    rw [if_neg (by simpa using typed)]
    simp only [unmarshalMap]
    split_ifs <;> cases kind <;> simp [MemberLists.get, MemberKind.name, contents, jsonStrings_field] <;> rfl

theorem get_removerMembers (doc : Members) (kind : MemberKind) :
    (removerMembers (.document (.object doc))).get kind =
      if membersInRange doc then
        match lastNamed (lit "actors") doc with
        | some (.object nested) => namesUnder kind.name nested
        | _ => namesUnder kind.name doc
      else [] := by
  unfold removerMembers
  simp only [unmarshalMap]
  split_ifs
  · simp only [groupMembers, contents, Option.getD_some, asMap_field]
    cases lastNamed (lit "actors") doc with
    | none => cases kind <;> simp [MemberLists.get, MemberKind.name, jsonStrings_field]
    | some v => cases v <;> cases kind <;> simp [MemberLists.get, MemberKind.name, jsonStrings_field, asMap]
  · cases kind <;> rfl

def SameNames (names others : List GoString) : Prop := ∀ name, name ∈ names ↔ name ∈ others

/-- What a document must say for both readers to list the same. With a number beyond float64 the map
reader has nothing. Otherwise it takes the object under `actors`, if there is one, for the document,
and names each list exactly, while the struct takes the spellings of the list's name at the top, unless
one of these is no list of names. -/
def SaysAlike : Raw → Prop
  | .document (.object doc) => ∀ kind : MemberKind,
    if membersInRange doc then
      match lastNamed (lit "actors") doc with
      | some (.object nested) =>
        (ListsNames doc → SameNames (namesUnder kind.name nested) (spelledNames kind.name doc)) ∧
          (¬ ListsNames doc → SameNames (namesUnder kind.name nested) (namesUnder kind.name doc))
      | _ => ListsNames doc → SameNames (namesUnder kind.name doc) (spelledNames kind.name doc)
    else ListsNames doc → spelledNames kind.name doc = []
  | _ => True

theorem listsAlike_iff (raw : Raw) : ListsAlike raw ↔ SaysAlike raw := by
  have other (raw : Raw) (noIndex : indexMembers raw = .none) (noRemover : removerMembers raw = .none) :
      ListsAlike raw := by
    intro kind member
    rw [noIndex, noRemover]
  cases raw with
  | malformed => exact iff_of_true (other _ rfl rfl) trivial
  | document v =>
    cases v with
    | object doc =>
      refine forall_congr' fun kind => ?_
      simp only [get_indexMembers, get_removerMembers]
      by_cases inside : membersInRange doc
      · simp only [inside, if_true]
        by_cases typed : ListsNames doc
        · simp only [typed, if_true, true_imp_iff, not_true, false_imp_iff, and_true]
          split <;> rfl
        · simp only [typed, if_false, false_imp_iff, not_false_iff, true_imp_iff, true_and]
          split
          · rfl
          · simp
      · by_cases typed : ListsNames doc
        · simp [inside, typed, List.eq_nil_iff_forall_not_mem]
        · simp [inside, typed]
    | _ => exact iff_of_true (other _ rfl rfl) trivial

def NamesRows (group : GoString) : Prop :=
  ∃ first, ∃ kind : MemberKind, 0 ∉ first ∧ group = first ++ 0 :: kind.name

theorem separator_prefix {front rest part more : GoString} (noPart : 0 ∉ part)
    (same : front ++ 0 :: rest = part ++ 0 :: more) :
    front = part ∧ rest = more ∨ ∃ behind, front = part ++ 0 :: behind ∧
      more = behind ++ 0 :: rest := by
  rcases List.append_eq_append_iff.mp same with ⟨tail, rfl, after⟩ | ⟨tail, rfl, after⟩
  · cases tail with
    | nil => exact .inl ⟨by simp, by simpa using after⟩
    | cons b tail =>
      obtain ⟨rfl, -⟩ := List.cons.inj after
      exact absurd (by simp) noPart
  · cases tail with
    | nil => exact .inl ⟨by simp, by simpa using after.symm⟩
    | cons b tail =>
      obtain ⟨rfl, rest⟩ := List.cons.inj after
      exact .inr ⟨tail, rfl, rest⟩

theorem prefix_memberKey {first kindName : GoString} (noFirst : 0 ∉ first) (noKind : 0 ∉ kindName)
    (noMember : 0 ∉ member)
    (ours : (group ++ [0]) <+: memberKey first kindName member) :
    group = first ∨ group = first ++ 0 :: kindName := by
  obtain ⟨rest, whole⟩ := ours
  have same : group ++ 0 :: rest = first ++ 0 :: (kindName ++ 0 :: member) := by
    simpa [memberKey] using whole
  rcases separator_prefix noFirst same with ⟨rfl, -⟩ | ⟨behind, rfl, more⟩
  · exact .inl rfl
  · rcases separator_prefix noKind more.symm with ⟨rfl, -⟩ | ⟨last, -, rfl⟩
    · exact .inr rfl
    · exact absurd (by simp) noMember

def soleGroup (org group : GoString) (raw : Raw) : Store :=
  Store.newMemoryBackend.put org groupsColl group raw

theorem soleGroup_get (org group : GoString) (raw : Raw) :
    (soleGroup org group raw).get org groupsColl group = some raw := by
  simp [soleGroup, get_put]

theorem soleGroup_rows (org group : GoString) (raw : Raw) (key : GoString) :
    (soleGroup org group raw).get org groupMembersColl key = none := by
  rw [soleGroup, get_put_of_ne (by decide)]
  rfl

theorem exists_fresh (names : List GoString) : ∃ name : GoString, name ∉ names ∧ 0 ∉ name := by
  refine ⟨List.replicate (names.flatten.length + 1) 0x61, ?_, by simp [List.mem_replicate]⟩
  intro member
  have short := (List.sublist_flatten_of_mem member).length_le
  rw [List.length_replicate] at short
  omega

theorem listsAlike_of_agree {raw : Raw}
    (agree : ∀ s : Store, s.get org groupsColl group = some raw → ∀ kind member,
      Effective s org group kind member ↔ Listed s org group kind member) : ListsAlike raw := by
  intro kind member
  have same := agree (soleGroup org group raw) (soleGroup_get org group raw) kind member
  rw [effective_iff, listed_iff_rowAt] at same
  simpa [RowAt, soleGroup_rows, soleGroup_get] using same

theorem not_namesRows_of_agree {raw : Raw}
    (agree : ∀ s : Store, s.get org groupsColl group = some raw → ∀ kind member,
      Effective s org group kind member ↔ Listed s org group kind member) : ¬ NamesRows group := by
  rintro ⟨first, kind, noFirst, named⟩
  -- a row of the other group whose member no document lists
  obtain ⟨member, fresh, noMember⟩ := exists_fresh ((indexMembers raw).get kind)
  let key := memberKey first kind.name member
  let s := (soleGroup org group raw).put org groupMembersColl key (.document .null)
  have doc : s.get org groupsColl group = some raw := by
    rw [get_put_of_ne (by decide), soleGroup_get]
  have effective : Effective s org group kind member := by
    refine effective_iff.mpr (.inr ⟨key, first, ⟨by simp [s, get_put], ?_⟩, member, ?_⟩)
    · exact splitMemberKey_eq_some.mpr ⟨rfl, noFirst, kind_no_separator kind, noMember⟩
    · simp [named, key, memberKey]
  rcases listed_iff_rowAt.mp ((agree s doc kind member).mp effective) with ⟨raw', found, lists⟩ | ⟨_, _, split⟩
  · obtain rfl := Option.some.inj (doc.symm.trans found)
    exact fresh lists
  · obtain ⟨-, noGroup, -⟩ := splitMemberKey_eq_some.mp split
    exact noGroup (by simp [named])

theorem rowAt_iff (own : ¬ NamesRows group) :
    (∃ key first, RowAt s org key first kind member ∧ (group ++ [0]) <+: key) ↔
      ∃ key, RowAt s org key group kind member := by
  constructor
  · rintro ⟨key, first, ⟨stored, split⟩, ours⟩
    obtain ⟨rfl, noFirst, noKind, noMember⟩ := splitMemberKey_eq_some.mp split
    rcases prefix_memberKey noFirst noKind noMember ours with rfl | named
    · exact ⟨_, stored, split⟩
    · exact absurd ⟨first, kind, noFirst, named⟩ own
  · rintro ⟨key, stored, split⟩
    obtain ⟨rfl, -⟩ := splitMemberKey_eq_some.mp split
    exact ⟨_, group, ⟨stored, split⟩, by simp [memberKey]⟩

/-- Over every set of rows the two readers give the group the same members exactly when its document
says the same to both and its name is no key's beginning. -/
theorem readers_agree_iff (org group : GoString) (raw : Raw) :
    (∀ s : Store, s.get org groupsColl group = some raw → ∀ kind member,
      Effective s org group kind member ↔ Listed s org group kind member) ↔
      SaysAlike raw ∧ ¬ NamesRows group := by
  rw [← listsAlike_iff]
  constructor
  · intro agree
    exact ⟨listsAlike_of_agree agree, not_namesRows_of_agree agree⟩
  · rintro ⟨alike, own⟩ s found kind member
    rw [effective_iff, listed_iff_rowAt, rowAt_iff own]
    simp only [found, Option.some.injEq, exists_eq_left']
    rw [alike kind member]

theorem readers_disagree_on_loaded_group :
    ∃ n s, (State.loadGroups acme [opsFile]).run exec Store.newMemoryBackend = (.ok n, s) ∧
      Listed s acme ops .users alice ∧ ¬ Effective s acme ops .users alice := by
  refine ⟨_, _, rfl, ⟨_, _, rfl, by decide +kernel⟩, ?_⟩
  rintro ⟨m, t, ran, member⟩
  obtain ⟨same, -⟩ := Prod.mk.inj ran
  obtain rfl := Except.ok.inj same
  revert member
  decide +kernel

end CincServer.Proof.Api
