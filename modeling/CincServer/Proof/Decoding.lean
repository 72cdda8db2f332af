import CincServer.Json.Decode
import CincServer.Lib.Table
import Mathlib.Data.List.Induction

/-!
# Decoding by exact and by folded names
-/

namespace CincServer.Proof.Decoding
open CincServer.Json Go Lib
open Std.ExtTreeMap (nodup_keys mem_toList_iff_getElem?_eq_some getElem?_insert ext_getElem?)

variable {S : Type} {members : Members} {name : GoString} {obj : Object}
  {folded : GoString} {P : Value → Prop} {v : Value}

theorem field_eq : field obj name = obj[name]?.getD .null := Std.ExtTreeMap.getD_eq_getD_getElem?

@[simp] theorem storeMember_nil (target : S) (member : GoString × Value) :
    storeMember [] target member = some target := rfl

@[simp] theorem storeMember_cons (f : StructField S) (fields : List (StructField S)) (target : S)
    (member : GoString × Value) :
    storeMember (f :: fields) target member =
      if foldName member.1 = f.name then f.store member.2 target else storeMember fields target member := by
  simp only [storeMember, List.find?_cons]
  by_cases same : foldName member.1 = f.name <;> simp [same]

theorem stringElems_strings (names behind : List GoString) :
    stringElems behind (names.map .string) = some names := by
  induction names generalizing behind with
  | nil => rfl
  | cons name names ih => simp [stringElems, ih]

theorem decode_strings (names : List GoString) :
    Slice.empty.decode (names.map .string) = some ⟨names, []⟩ := by
  cases names with
  | nil => rfl
  | cons name names => simp [Slice.decode, stringElems, stringElems_strings, Slice.empty]

theorem compare_lowerByte (b : UInt8) : (compare b (lowerByte b)).isLE := by
  unfold lowerByte
  split_ifs with upper
  · simp only [Bool.and_eq_true, decide_eq_true_eq, UInt8.le_iff_toNat_le] at upper
    rw [Std.isLE_compare, UInt8.le_iff_toNat_le, UInt8.toNat_add]
    have : (0x5A : UInt8).toNat = 90 := rfl
    have : (0x20 : UInt8).toNat = 32 := rfl
    omega
  · simp

theorem byteLe_map_lowerByte (name : GoString) : byteLe name (name.map lowerByte) := by
  unfold byteLe
  induction name with
  | nil => simp
  | cons b rest ih =>
    rw [List.map_cons, List.compare_cons_cons]
    have := compare_lowerByte b
    cases order : compare b (lowerByte b) with
    | lt => simp
    | eq => simpa using ih
    | gt => simp [order] at this

theorem map_lowerByte_of_foldName (noS : 0x73 ∉ folded) (noK : 0x6B ∉ folded)
    (same : foldName name = folded) : name.map lowerByte = folded := by
  induction name using foldName.induct generalizing folded with
  | case1 rest ih => simp [foldName, ← same] at noS
  | case2 rest ih => simp [foldName, ← same] at noK
  | case3 b rest notS notK ih =>
    rw [foldName.eq_3 b rest notS notK] at same
    subst same
    rw [List.map_cons, ih (List.not_mem_of_not_mem_cons noS) (List.not_mem_of_not_mem_cons noK) rfl]
  | case4 => exact same

theorem byteLe_of_foldName (noS : 0x73 ∉ folded) (noK : 0x6B ∉ folded)
    (same : foldName name = folded) : byteLe name folded := by
  rw [← map_lowerByte_of_foldName noS noK same]
  exact byteLe_map_lowerByte name

theorem getLastD_filterMap (pick : GoString × Value → Option Bool)
    (sorted : members.Pairwise fun a b => compare a.1 b.1 = .lt) :
    (members.filterMap pick).getLastD false = true ↔ ∃ member ∈ members, pick member = some true ∧
        ∀ later ∈ members, compare member.1 later.1 = .lt → pick later = none := by
  induction members using List.reverseRecOn with
  | nil => simp
  | append_singleton front last ih =>
    obtain ⟨sortedFront, -, below⟩ := List.pairwise_append.mp sorted
    have before (member : GoString × Value) (mem : member ∈ front) :
        compare member.1 last.1 = .lt := below member mem last (by simp)
    rw [List.filterMap_append]
    cases picked : pick last with
    | none =>
      simp only [List.filterMap_cons, picked, List.filterMap_nil, List.append_nil, ih sortedFront]
      constructor
      · rintro ⟨member, mem, found, rest⟩
        refine ⟨member, by simp [mem], found, fun later laterMem above => ?_⟩
        rcases List.mem_append.mp laterMem with inFront | isLast
        · exact rest later inFront above
        · rw [List.mem_singleton.mp isLast, picked]
      · rintro ⟨member, mem, found, rest⟩
        rcases List.mem_append.mp mem with inFront | isLast
        · exact ⟨member, inFront, found, fun later laterMem => rest later (by simp [laterMem])⟩
        · rw [List.mem_singleton.mp isLast, picked] at found
          cases found
    | some value =>
      simp only [List.filterMap_cons, picked, List.filterMap_nil, List.getLastD_concat]
      constructor
      · rintro rfl
        refine ⟨last, by simp, picked, fun later laterMem above => ?_⟩
        rcases List.mem_append.mp laterMem with inFront | isLast
        · rw [Std.OrientedOrd.eq_swap, before later inFront] at above
          cases above
        · rw [List.mem_singleton.mp isLast] at above
          simp at above
      · rintro ⟨member, mem, found, rest⟩
        rcases List.mem_append.mp mem with inFront | isLast
        · have := rest last (by simp) (before member inFront)
          rw [picked] at this
          cases this
        · rw [List.mem_singleton.mp isLast, picked] at found
          exact Option.some.inj found

theorem nodup_toList_fst (obj : Object) : (obj.toList.map Prod.fst).Nodup := by
  rw [Std.ExtTreeMap.map_fst_toList_eq_keys]
  exact nodup_keys

theorem holds_toList (obj : Object) (name : GoString) : Holds obj.toList name obj[name]? :=
  fun _ => mem_toList_iff_getElem?_eq_some

theorem getElem?_canonicalMembers (distinct : (members.map Prod.fst).Nodup)
    {found : Option Value} (holds : Holds members name found) :
    (canonicalMembers ∅ members)[name]? = found.map canonical := by
  have folded (read : Object) (members : Members) : canonicalMembers read members =
      members.foldl (fun obj member => obj.insert member.1 (canonical member.2)) read := by
    induction members generalizing read with
    | nil => rw [canonicalMembers, List.foldl_nil]
    | cons member rest ih => rw [canonicalMembers, ih, List.foldl_cons]
  have one (read : Object) (member : GoString × Value) : (read.insert member.1 (canonical member.2))[name]? =
        if member.1 = name then (some (canonical member.2)).or read[name]? else read[name]? := by
    simp only [getElem?_insert, Std.compare_eq_iff_eq, Option.some_or]
  rw [folded]
  refine (observe_foldl (fun read : Object => read[name]?)
    (fun v => some (canonical v)) one distinct holds ∅).trans ?_
  cases found <;> simp

theorem getElem?_canonicalMembers_toList (obj : Object) (name : GoString) :
    (canonicalMembers ∅ obj.toList)[name]? = obj[name]?.map canonical :=
  getElem?_canonicalMembers (nodup_toList_fst obj) (holds_toList obj name)

theorem canonicalMembers_toList (fixed : ∀ (name : GoString) v, obj[name]? = some v → canonical v = v) :
    canonicalMembers ∅ obj.toList = obj := by
  refine ext_getElem? fun name => ?_
  rw [getElem?_canonicalMembers_toList]
  cases found : obj[name]? with
  | none => rfl
  | some v => rw [Option.map_some, fixed name v found]

theorem forall_insert (before : ∀ (name : GoString) v, obj[name]? = some v → P v) (new : P v) :
    ∀ (other : GoString) w, (obj.insert name v)[other]? = some w → P w := by
  intro other w found
  rw [getElem?_insert] at found
  split_ifs at found
  · exact Option.some.inj found ▸ new
  · exact before other w found

theorem forall_canonicalMembers {read : Object}
    (before : ∀ (name : GoString) v, read[name]? = some v → P v)
    (each : ∀ member ∈ members, P (canonical member.2)) :
    ∀ (name : GoString) v, (canonicalMembers read members)[name]? = some v → P v := by
  induction members generalizing read with
  | nil => rwa [canonicalMembers]
  | cons member rest ih =>
    rw [canonicalMembers]
    exact ih (forall_insert before
      (each member (by simp))) fun later mem => each later (by simp [mem])

mutual

theorem canonical_canonical : (v : Value) → canonical (canonical v) = canonical v
  | .null | .bool _ | .string _ | .number _ => by simp [canonical]
  | .array elems => by rw [canonical, canonical, canonicalElems_canonicalElems elems]
  | .object members => by
    rw [canonical, canonical, canonicalMembers_toList]
    exact forall_canonicalMembers (by simp) (canonical_members members)

theorem canonicalElems_canonicalElems :
    (elems : List Value) → canonicalElems (canonicalElems elems) = canonicalElems elems
  | [] => rfl
  | v :: rest => by
    rw [canonicalElems, canonicalElems, canonical_canonical v, canonicalElems_canonicalElems rest]

theorem canonical_members :
    (members : Members) → ∀ member ∈ members, canonical (canonical member.2) = canonical member.2
  | [] => by simp
  | (name, v) :: rest => by
    simp only [List.mem_cons, forall_eq_or_imp]
    exact ⟨canonical_canonical v, canonical_members rest⟩

end

def Settled (v : Value) : Prop := canonical v = v ∧ inRange v

def SettledMap (obj : Object) : Prop := ∀ (name : GoString) v, obj[name]? = some v → Settled v

theorem membersInRange_iff : membersInRange members ↔ ∀ member ∈ members, inRange member.2 := by
  induction members with
  | nil => simp [membersInRange]
  | cons member rest ih => simp [membersInRange, ih]

theorem SettledMap.decode (settled : SettledMap obj) : canonicalMembers ∅ obj.toList = obj :=
  canonicalMembers_toList fun name v found => (settled name v found).1

theorem SettledMap.inRange (settled : SettledMap obj) : membersInRange obj.toList :=
  membersInRange_iff.mpr fun member mem =>
    (settled member.1 member.2 (mem_toList_iff_getElem?_eq_some.mp mem)).2

theorem SettledMap.insert (settled : SettledMap obj) (name : GoString)
    (value : Settled v) : SettledMap (obj.insert name v) :=
  forall_insert settled value

theorem settledMap_empty : SettledMap ∅ := fun name v found => by simp at found

theorem SettledMap.object (settled : SettledMap obj) : Settled (.object obj.toList) :=
  ⟨by rw [canonical, settled.decode], by rw [Json.inRange]; exact settled.inRange⟩

mutual

theorem inRange_canonical : (v : Value) → inRange v → inRange (canonical v)
  | .null, _ | .bool _, _ | .string _, _ => by simp [canonical, inRange]
  | .number _, within => within
  | .array elems, within => by
    rw [inRange] at within
    rw [canonical, inRange, allInRange_canonicalElems elems within]
  | .object members, within => by
    rw [inRange] at within
    have all : ∀ (name : GoString) v, (canonicalMembers ∅ members)[name]? = some v → inRange v :=
      forall_canonicalMembers (by simp) (inRange_members members within)
    rw [canonical, inRange, membersInRange_iff]
    exact fun member mem => all member.1 member.2 (mem_toList_iff_getElem?_eq_some.mp mem)

theorem allInRange_canonicalElems :
    (elems : List Value) → allInRange elems → allInRange (canonicalElems elems)
  | [], _ => rfl
  | v :: rest, within => by
    simp only [allInRange, Bool.and_eq_true] at within
    rw [canonicalElems, allInRange, inRange_canonical v within.1,
      allInRange_canonicalElems rest within.2]
    rfl

theorem inRange_members : (members : Members) → membersInRange members →
    ∀ member ∈ members, inRange (canonical member.2)
  | [], _ => by simp
  | (name, v) :: rest, within => by
    simp only [membersInRange, Bool.and_eq_true] at within
    simp only [List.mem_cons, forall_eq_or_imp]
    exact ⟨inRange_canonical v within.1, inRange_members rest within.2⟩

end

theorem settled_canonical (v : Value) (within : inRange v) : Settled (canonical v) :=
  ⟨canonical_canonical v, inRange_canonical v within⟩

theorem settledMap_canonicalMembers (within : membersInRange members) :
    SettledMap (canonicalMembers ∅ members) := by
  refine forall_canonicalMembers (by simp) fun member mem => settled_canonical _ ?_
  exact membersInRange_iff.mp within member mem

theorem settledMap_of_unmarshalMap {raw : Raw} (decoded : unmarshalMap raw = some (some obj)) :
    SettledMap obj := by
  unfold unmarshalMap at decoded
  split at decoded
  · split_ifs at decoded with within
    simp only [Option.some.injEq] at decoded
    exact decoded ▸ settledMap_canonicalMembers within
  · cases decoded
  · cases decoded

theorem SettledMap.unmarshalMap_mustEncode (settled : SettledMap obj) :
    unmarshalMap (mustEncode (some obj)) = some (some obj) := by
  rw [mustEncode, unmarshalMap, if_pos settled.inRange, settled.decode]

/-! ## Lists of names under one spelling and under all -/

/-- The value of the last member of the name. -/
def lastNamed (name : GoString) : Members → Option Value
  | [] => none
  | (found, v) :: rest => (lastNamed name rest).or (if found = name then some v else none)

/-- The values of the members whose names fold to the name, in order. -/
def spellings (name : GoString) (members : Members) : List Value :=
  (members.filter fun member => foldName member.1 = name).map Prod.snd

def isName : Value → Bool
  | .string _ | .null => true
  | _ => false

def isNames : Value → Bool
  | .null => true
  | .array elems => elems.all isName
  | _ => false

/-- A `null` empties the slice, and a `null` in an array leaves what the slice holds in its place. -/
def readNames (old : Slice) : Value → Slice
  | .array elems => (old.decode elems).getD old
  | _ => .empty

def spelledNames (name : GoString) (members : Members) : List GoString :=
  ((spellings name members).foldl readNames .empty).elems

theorem getElem?_canonicalMembers_last (read : Object) (members : Members) :
    (canonicalMembers read members)[name]? = ((lastNamed name members).map canonical).or read[name]? := by
  induction members generalizing read with
  | nil => simp [canonicalMembers, lastNamed]
  | cons member rest ih =>
    rw [canonicalMembers, ih, lastNamed, getElem?_insert]
    by_cases same : member.1 = name <;> cases lastNamed name rest <;> simp [same]

theorem spellings_cons (name : GoString) (member : GoString × Value) (rest : Members) :
    spellings name (member :: rest) =
      if foldName member.1 = name then member.2 :: spellings name rest else spellings name rest := by
  rw [spellings, List.filter_cons]
  by_cases spelled : foldName member.1 = name <;> simp [spelled, spellings]

theorem isSome_stringElems (behind : List GoString) (elems : List Value) :
    (stringElems behind elems).isSome = elems.all isName := by
  induction elems generalizing behind with
  | nil => rfl
  | cons v rest ih => cases v <;> simp [stringElems, isName, ih]

theorem isSome_decode (old : Slice) (elems : List Value) :
    (old.decode elems).isSome = elems.all isName := by
  cases elems with
  | nil => rfl
  | cons v rest => simp [Slice.decode, isSome_stringElems]

@[simp] theorem strings_name (get : S → Slice)
    (set : Slice → S → S) : (StructField.strings name get set).name = name := rfl

@[simp] theorem strings_store (get : S → Slice) (set : Slice → S → S) (v : Value) (target : S) :
    (StructField.strings name get set).store v target =
      if isNames v then some (set (readNames (get target) v) target) else none := by
  cases v with
  | array elems =>
    have typed := isSome_decode (get target) elems
    simp only [StructField.strings, isNames, readNames, ← typed]
    cases (get target).decode elems <;> rfl
  | _ => rfl

/-- The fields of the struct are lists of names, each read from its own spellings. -/
structure ListFields (fields : List (StructField S)) (names : List GoString)
    (slice : GoString → S → Slice) : Prop where
  typed : ∀ target member, (storeMember fields target member).isSome ↔ (foldName member.1 ∈ names → isNames member.2)
  stores : ∀ {target after member}, storeMember fields target member = some after → ∀ name ∈ names,
    slice name after = if foldName member.1 = name then readNames (slice name target) member.2 else slice name target

variable {fields : List (StructField S)} {names : List GoString} {slice : GoString → S → Slice}

theorem ListFields.of_storeMember {put : S → GoString × Value → S}
    (each : ∀ target member, storeMember fields target member =
      if foldName member.1 ∈ names → isNames member.2 then some (put target member) else none)
    (reads : ∀ target member, ∀ name ∈ names, slice name (put target member) =
      if foldName member.1 = name then readNames (slice name target) member.2 else slice name target) :
    ListFields fields names slice := by
  constructor
  · intro target member
    simp [each]
  · intro target after member stored name mem
    rw [each] at stored
    obtain ⟨-, stored⟩ := Option.ite_none_right_eq_some.mp stored
    obtain rfl := Option.some.inj stored
    exact reads target member name mem

theorem ListFields.isSome_iff (list : ListFields fields names slice) (target : S) :
    (storeMembers fields members target).isSome ↔ ∀ member ∈ members, foldName member.1 ∈ names →
      isNames member.2 := by
  induction members generalizing target with
  | nil => simp [storeMembers]
  | cons member rest ih =>
    have first := list.typed target member
    rw [storeMembers, List.forall_mem_cons, ← first]
    cases storeMember fields target member with
    | none => simp
    | some after => simpa using ih after

theorem ListFields.slice_eq (list : ListFields fields names slice) {target after : S}
    (stored : storeMembers fields members target = some after) (mem : name ∈ names) :
    slice name after = (spellings name members).foldl readNames (slice name target) := by
  induction members generalizing target with
  | nil =>
    cases stored
    rfl
  | cons member rest ih =>
    obtain ⟨middle, first, others⟩ := Option.bind_eq_some_iff.mp stored
    rw [ih others, list.stores first name mem, spellings_cons]
    by_cases same : foldName member.1 = name <;> simp [same]

def entryMembers : Value → Members
  | .object members => members
  | _ => []

def isEntry : Value → Bool
  | .object _ | .null => true
  | _ => false

/-- The members of the objects under the spellings of the name, one object after another. -/
def spelledMembers (name : GoString) (doc : Members) : Members :=
  (spellings name doc).flatMap entryMembers

theorem storeMembers_append (fields : List (StructField S)) (first rest : Members) (target : S) :
    storeMembers fields (first ++ rest) target =
      (storeMembers fields first target).bind (storeMembers fields rest) := by
  induction first generalizing target with
  | nil => rfl
  | cons member first ih =>
    rw [List.cons_append, storeMembers, storeMembers, Option.bind_assoc]
    exact congrArg _ (funext ih)

theorem storeMember_struct (target : S) (member : GoString × Value) :
    storeMember [.struct name fields id fun entry _ => entry] target member =
      if foldName member.1 = name then
        if isEntry member.2 then storeMembers fields (entryMembers member.2) target else none
      else some target := by
  obtain ⟨found, v⟩ := member
  cases v <;> simp [StructField.struct, isEntry, entryMembers, storeMembers]

theorem storeMembers_struct (doc : Members) (target : S) :
    storeMembers [.struct name fields id fun entry _ => entry] doc target =
      if (spellings name doc).all isEntry then storeMembers fields (spelledMembers name doc) target else none := by
  induction doc generalizing target with
  | nil => rfl
  | cons member doc ih =>
    rw [storeMembers, storeMember_struct, spelledMembers, spellings_cons]
    by_cases spelled : foldName member.1 = name
    · by_cases entry : isEntry member.2
      · simp only [spelled, entry, if_true, List.all_cons, Bool.true_and, List.flatMap_cons,
          storeMembers_append]
        cases storeMembers fields (entryMembers member.2) target with
        | none => simp
        | some after => exact ih after
      · simp [spelled, entry]
    · simpa only [spelled, if_false, Option.bind_some, spelledMembers] using ih target

end CincServer.Proof.Decoding
