import CincServer.Proof.Api.Groups
import CincServer.Proof.Decoding

/-!
# Revoking an actor's group memberships
-/

namespace CincServer.Proof.Api
open CincServer.Api CincServer.Json Proof.Decoding Go Lib Program

variable {org : GoString} {kind : MemberKind} {actor : GoString} {s t : Store}
  {kind' : MemberKind} {name group member : GoString} {raw : Raw}

/-- The strings in the last member of the name. -/
def namesUnder (name : GoString) (doc : Members) : List GoString :=
  jsonStrings ((lastNamed name doc).getD .null)

theorem jsonStrings_canonical (v : Value) : jsonStrings (canonical v) = jsonStrings v := by
  cases v with
  | array elems =>
    rw [canonical, jsonStrings, jsonStrings]
    induction elems with
    | nil => rfl
    | cons v rest ih =>
      rw [canonicalElems, List.filterMap_cons, List.filterMap_cons, ih]
      cases v <;> simp only [canonical]
  | _ => rfl

theorem jsonStrings_field (doc : Members) :
    jsonStrings (field (canonicalMembers ∅ doc) name) = namesUnder name doc := by
  rw [namesUnder, field_eq, getElem?_canonicalMembers_last]
  cases lastNamed name doc with
  | none => rfl
  | some v => exact jsonStrings_canonical v

theorem asMap_canonical (v : Value) : asMap (canonical v) = asMap v := by
  cases v with
  | object members =>
    refine congrArg some (canonicalMembers_toList ?_)
    exact forall_canonicalMembers (by simp) fun member _ => canonical_canonical member.2
  | _ => rfl

theorem asMap_field (doc : Members) :
    asMap (field (canonicalMembers ∅ doc) name) = (lastNamed name doc).bind asMap := by
  rw [field_eq, getElem?_canonicalMembers_last]
  cases lastNamed name doc with
  | none => rfl
  | some v => exact asMap_canonical v

def removerMembers (raw : Raw) : MemberLists :=
  match unmarshalMap raw with
  | some g => groupMembers (contents g)
  | none => .none

theorem get_set_self (m : MemberLists) (kind : MemberKind) (names : List GoString) :
    (m.set kind names).get kind = names := by
  cases kind <;> rfl

theorem get_set_of_ne (m : MemberLists) (names : List GoString) (other : kind ≠ kind') :
    (m.set kind names).get kind' = m.get kind' := by
  cases kind <;> cases kind' <;> first | rfl | exact absurd rfl other

theorem length_without_ne {names : List GoString} :
    (without names name).length ≠ names.length ↔ name ∈ names := by
  rw [without, Ne, List.length_filter_eq_length_iff]
  simp only [decide_eq_true_eq, not_forall, not_not]
  exact ⟨fun ⟨_, mem, same⟩ => same ▸ mem, fun mem => ⟨name, mem, rfl⟩⟩

theorem revoked_eq : revoked name kind actor raw =
      if actor ∈ (removerMembers raw).get kind then
        some (groupJSON name [] ((removerMembers raw).set kind (without ((removerMembers raw).get kind) actor)))
      else none := by
  unfold revoked removerMembers
  cases unmarshalMap raw with
  | none => cases kind <;> rfl
  | some g => simp only [length_without_ne]

theorem indexMembers_groupJSON (name orgname : GoString) (m : MemberLists) :
    indexMembers (groupJSON name orgname m) = m := by
  have decoded : decodeMembers (groupJSON name orgname m) =
      some ⟨⟨m.users, []⟩, ⟨m.clients, []⟩, ⟨m.groups, []⟩⟩ := by
    unfold groupJSON
    split_ifs <;>
      simp +decide [decodeMembers, unmarshalStruct, storeMembers, memberFields, StructField.strings,
        stringArray, Decoding.decode_strings]
  rw [indexMembers, decoded]

theorem indexMembers_revise (name : GoString) (raw : Raw) (kind' : MemberKind) :
    (indexMembers (revise kind actor name raw)).get kind' =
      if actor ∈ (removerMembers raw).get kind then
        if kind = kind' then without ((removerMembers raw).get kind) actor
        else (removerMembers raw).get kind'
      else (indexMembers raw).get kind' := by
  rw [revise, revoked_eq]
  split_ifs with lists same
  · subst same
    simp [indexMembers_groupJSON, get_set_self]
  · simp [indexMembers_groupJSON, get_set_of_ne _ _ same]
  · rfl

/-- The two readings of a group's document agree where a revocation relies on them. A document the
remover rewrites must list, besides the actor, what the index lists, up to the members that have a
row; one it leaves must not list the actor for the index. -/
def RevocableDoc (s : Store) (org : GoString) (kind : MemberKind) (actor group : GoString)
    (raw : Raw) : Prop :=
  if actor ∈ (removerMembers raw).get kind then
    ∀ kind' member, ¬ (kind' = kind ∧ member = actor) → ¬ Row s org group kind' member →
      (member ∈ (removerMembers raw).get kind' ↔ member ∈ (indexMembers raw).get kind')
  else actor ∉ (indexMembers raw).get kind

structure Revoked (s t : Store) (org : GoString) (kind : MemberKind) (actor : GoString) : Prop where
  complete : ∀ group, ¬ Listed t org group kind actor
  exact : ∀ group kind' member, ¬ (kind' = kind ∧ member = actor) →
    (Listed t org group kind' member ↔ Listed s org group kind' member)

theorem mem_indexMembers_revise : member ∈ (indexMembers (revise kind actor group raw)).get kind' ↔
      if actor ∈ (removerMembers raw).get kind then
        member ∈ (removerMembers raw).get kind' ∧ ¬ (kind' = kind ∧ member = actor)
      else member ∈ (indexMembers raw).get kind' := by
  rw [indexMembers_revise]
  split_ifs with lists same
  · subst same
    simp [without]
  · simp [Ne.symm same]
  · rfl

theorem listed_after (after : WithoutMember org kind actor s t) :
    Listed t org group kind' member ↔ (∃ raw, s.get org groupsColl group = some raw ∧
        member ∈ (indexMembers (revise kind actor group raw)).get kind') ∨
      Row s org group kind' member ∧ ¬ (kind' = kind ∧ member = actor) := by
  rw [listed_iff, after.row, after.doc]
  simp only [Option.map_eq_some_iff, exists_exists_and_eq_and]

theorem WithoutMember.revoked_iff (after : WithoutMember org kind actor s t) :
    Revoked s t org kind actor ↔
      ∀ group raw, s.get org groupsColl group = some raw → RevocableDoc s org kind actor group raw := by
  constructor
  · intro revoked group raw found
    unfold RevocableDoc
    split_ifs with lists
    · intro kind' member other noRow
      have same := revoked.exact group kind' member other
      rw [listed_after after, listed_iff] at same
      simpa [found, noRow, mem_indexMembers_revise, lists, other] using same
    · have gone := revoked.complete group
      rw [listed_after after] at gone
      simpa [found, mem_indexMembers_revise, lists] using gone
  · intro agree
    constructor
    · intro group listed
      rcases (listed_after after).mp listed with ⟨raw, found, still⟩ | ⟨-, other⟩
      · have doc := agree group raw found
        rw [mem_indexMembers_revise] at still
        unfold RevocableDoc at doc
        split_ifs at still doc with lists
        · exact still.2 ⟨rfl, rfl⟩
        · exact doc still
      · exact other ⟨rfl, rfl⟩
    · intro group kind' member other
      rw [listed_after after, listed_iff]
      by_cases row : Row s org group kind' member
      · simp [row, other]
      · simp only [row, false_and, or_false]
        refine exists_congr fun raw => and_congr_right fun found => ?_
        have doc := agree group raw found
        rw [mem_indexMembers_revise]
        unfold RevocableDoc at doc
        split_ifs at doc ⊢ with lists
        · rw [and_iff_left other]
          exact doc kind' member other row
        · rfl

/-- A revocation is complete and exact precisely on the documents whose two readings agree. -/
theorem revocation_exact_iff (ran : (removeActorFromAllGroups org kind actor).run exec s = (.ok (), t)) :
    Revoked s t org kind actor ↔
      ∀ group raw, s.get org groupsColl group = some raw → RevocableDoc s org kind actor group raw := by
  obtain ⟨t', ran', after⟩ := removeActorFromAllGroups_ok org kind actor s
  obtain rfl : t' = t := (Prod.mk.inj (ran'.symm.trans ran)).2
  exact after.revoked_iff

section Acme

def acme : GoString := lit "acme"

def ops : GoString := lit "ops"

def alice : GoString := lit "alice"

def opsFile : State.File where
  base := ops
  contents := .document (.object [(lit "groupname", .string ops),
    (lit "users", stringArray [alice]), (lit "actors", .object [(lit "users", stringArray [])])])

def opsStore : Store :=
  Store.newMemoryBackend.put acme groupsColl ops (groupJSON ops [] ⟨[alice], [], []⟩)

theorem revocation_exact_iff_ops :
    ∃ t, (removeActorFromAllGroups acme .users alice).run exec opsStore = (.ok (), t) ∧
      (Revoked opsStore t acme .users alice ↔ ∀ group raw, opsStore.get acme groupsColl group = some raw →
        RevocableDoc opsStore acme .users alice group raw) := by
  obtain ⟨t, ran, -⟩ := removeActorFromAllGroups_ok acme .users alice opsStore
  exact ⟨t, ran, revocation_exact_iff ran⟩

theorem revocation_misses_top_level_member :
    ∃ n s t, (State.loadGroups acme [opsFile]).run exec Store.newMemoryBackend = (.ok n, s) ∧
      (removeActorFromAllGroups acme .users alice).run exec s = (.ok (), t) ∧
      Listed t acme ops .users alice :=
  ⟨_, _, _, rfl, rfl, _, _, rfl, by decide +kernel⟩

end Acme

theorem removerMembers_groupJSON (name orgname : GoString) (m : MemberLists) :
    removerMembers (groupJSON name orgname m) = m := by
  unfold groupJSON
  split_ifs <;> simp +decide [removerMembers, unmarshalMap, membersInRange, inRange, inRange_stringArray,
      canonicalMembers, canonical, canonical_stringArray, groupMembers, contents, field, asMap_stringArray,
      Std.ExtTreeMap.getD_insert, jsonStrings_stringArray]

/-! ## Removing a name from access control lists -/

variable {org kind name perm : GoString} {s : Store} {entry : Value} {acl : Object}

def EntryNames (kind name : GoString) (entry : Value) : Prop :=
  ∃ ace, asMap entry = some ace ∧ name ∈ anyStrings (field ace kind)

def AclNames (kind name : GoString) (raw : Raw) : Prop :=
  ∃ acl, unmarshalMap raw = some acl ∧ ∃ perm ∈ aclPerms, EntryNames kind name (field (contents acl) perm)

theorem settled_stringArray (names : List GoString) : Settled (stringArray names) :=
  ⟨canonical_stringArray names, inRange_stringArray names⟩

theorem settledMap_of_asMap {ace : Object} (settled : Settled entry)
    (decoded : asMap entry = some ace) : SettledMap ace := by
  unfold asMap at decoded
  split at decoded
  · rename_i members
    obtain rfl := Option.some.inj decoded
    have within := settled.2
    rw [inRange] at within
    exact settledMap_canonicalMembers within
  · cases decoded

theorem settled_field (settled : SettledMap acl) (perm : GoString) : Settled (field acl perm) := by
  rw [field_eq]
  cases found : acl[perm]? with
  | none => exact ⟨rfl, rfl⟩
  | some entry => exact settled perm entry found

theorem withoutName_eq_none : withoutName kind name entry = none ↔
    ¬ EntryNames kind name entry := by
  unfold withoutName EntryNames
  cases asMap entry with
  | none => simp
  | some ace => simp [← length_without_ne]

theorem withoutName_eq_some {entry' : Value} (settled : Settled entry)
    (changed : withoutName kind name entry = some entry') :
    Settled entry' ∧ ¬ EntryNames kind name entry' := by
  unfold withoutName at changed
  split at changed
  · cases changed
  · rename_i ace decoded
    dsimp only at changed
    split_ifs at changed
    obtain rfl := Option.some.inj changed
    have inner : SettledMap (ace.insert kind (stringArray (without (anyStrings (field ace kind)) name))) :=
      (settledMap_of_asMap settled decoded).insert kind (settled_stringArray _)
    refine ⟨inner.object, ?_⟩
    rintro ⟨ace', read, still⟩
    rw [mapValue, asMap, inner.decode] at read
    obtain rfl := Option.some.inj read
    rw [field, Std.ExtTreeMap.getD_insert_self, anyStrings, jsonStrings_stringArray] at still
    simp [without] at still

def reviseEntry (kind name : GoString) (acl : Object) (perm : GoString) : Object :=
  match withoutName kind name (field acl perm) with
  | some entry => acl.insert perm entry
  | none => acl

theorem reviseEntry_clean (settled : SettledMap acl) (perm : GoString) :
    SettledMap (reviseEntry kind name acl perm) ∧ ∀ other, other = perm ∨
      ¬ EntryNames kind name (field acl other) →
        ¬ EntryNames kind name (field (reviseEntry kind name acl perm) other) := by
  unfold reviseEntry
  cases changed : withoutName kind name (field acl perm) with
  | none =>
    refine ⟨settled, fun other clean => clean.elim ?_ id⟩
    rintro rfl
    exact withoutName_eq_none.mp changed
  | some entry =>
    obtain ⟨settled', clean'⟩ := withoutName_eq_some (settled_field settled perm) changed
    refine ⟨settled.insert perm settled', fun other clean => ?_⟩
    by_cases same : perm = other
    · subst same
      simpa [field] using clean'
    · have unchanged : field (acl.insert perm entry) other = field acl other := by
        simp [field, Std.ExtTreeMap.getD_insert, same]
      rw [unchanged]
      exact clean.resolve_left (Ne.symm same)

theorem foldl_reviseEntry_clean (kind name : GoString) (settled : SettledMap acl)
    (perms : List GoString) :
    SettledMap (perms.foldl (reviseEntry kind name) acl) ∧
      ∀ other, other ∈ perms ∨ ¬ EntryNames kind name (field acl other) →
        ¬ EntryNames kind name (field (perms.foldl (reviseEntry kind name) acl) other) := by
  induction perms generalizing acl with
  | nil => exact ⟨settled, fun other clean => clean.resolve_left (by simp)⟩
  | cons perm perms ih =>
    obtain ⟨settled', clean'⟩ := reviseEntry_clean settled perm
    obtain ⟨last, rest⟩ := ih settled'
    refine ⟨last, fun other clean => rest other ?_⟩
    rcases clean with mem | clean
    · rcases List.mem_cons.mp mem with first | later
      · exact .inr (clean' other (.inl first))
      · exact .inl later
    · exact .inr (clean' other (.inr clean))

def reviseACL (kind name : GoString) (raw : Raw) : Raw := (aclWithout kind name raw).getD raw

theorem reviseACL_clean (kind name : GoString) (raw : Raw) :
    ¬ AclNames kind name (reviseACL kind name raw) := by
  rintro ⟨acl, decoded, perm, mem, named⟩
  unfold reviseACL aclWithout at decoded
  cases read : unmarshalMap raw with
  | none => simp [read] at decoded
  | some acl' =>
    simp only [read] at decoded
    split_ifs at decoded with dirty
    · cases acl' with
      | none => simp [contents, field, withoutName, asMap] at dirty
      | some acl' =>
        obtain ⟨settled, clean⟩ :=
          foldl_reviseEntry_clean kind name (settledMap_of_unmarshalMap read) aclPerms
        have back := settled.unmarshalMap_mustEncode
        obtain rfl := Option.some.inj (decoded.symm.trans back)
        exact clean perm (.inl mem) named
    · obtain rfl : acl' = acl := by simpa [read] using decoded
      simp only [List.any_eq_true, not_exists, not_and, Option.isSome_iff_ne_none, not_not] at dirty
      exact withoutName_eq_none.mp (by simpa using dirty perm mem) named

theorem rewriteACL_get (org kind name : GoString) (row : GoString × Raw) (s : Store) :
    ∃ t, (rewriteACL org kind name row.1 row.2).run exec s = (.ok (), t) ∧
      ∀ org' coll key, t.get org' coll key =
        if row.1 = key then
          (if org = org' ∧ aclsColl = coll then aclWithout kind name row.2 else none).or (s.get org' coll key)
        else s.get org' coll key := by
  unfold rewriteACL
  cases aclWithout kind name row.2 with
  | none => exact ⟨s, rfl, by simp⟩
  | some acl =>
    refine ⟨s.put org aclsColl row.1 acl, rfl, fun org' coll key => ?_⟩
    rw [get_put]
    by_cases here : org = org' ∧ aclsColl = coll
    all_goals by_cases first : row.1 = key <;> simp [here, first]

theorem removeFromACLs_get (org kind name : GoString) (s : Store) :
    ∃ t, (removeFromACLs org kind name).run exec s = (.ok (), t) ∧
      ∀ org' coll key, t.get org' coll key =
        if org = org' ∧ aclsColl = coll then (s.get org' coll key).map (reviseACL kind name)
        else s.get org' coll key := by
  choose effect ran gets using rewriteACL_get org kind name
  rw [removeFromACLs, run_range_bind]
  refine ⟨_, run_forM ran (s.range org aclsColl) s, fun org' coll key => ?_⟩
  refine (observe_foldl (fun t : Store => t.get org' coll key)
    (fun raw => if org = org' ∧ aclsColl = coll then aclWithout kind name raw else none)
    (fun t row => gets row t org' coll key) nodup_range_fst (holds_range s org aclsColl key) s).trans ?_
  by_cases here : org = org' ∧ aclsColl = coll
  · obtain ⟨rfl, rfl⟩ := here
    cases found : s.get org aclsColl key with
    | none => simp
    | some raw => cases changed : aclWithout kind name raw <;> simp [reviseACL, changed]
  · simp [here]

end CincServer.Proof.Api
