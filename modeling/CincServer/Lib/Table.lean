import Mathlib.Data.List.Nodup
import Mathlib.Data.List.Dedup

/-!
# Relational tables with a primary key
-/

namespace CincServer.Lib

structure Table (K V : Type) where
  rows : List (K × V)
  primaryKey : (rows.map Prod.fst).Nodup

namespace Table

variable {K V : Type} [DecidableEq K]

def empty : Table K V := ⟨[], .nil⟩

def lookup (table : Table K V) (key : K) : Option V :=
  (table.rows.find? fun row => row.1 = key).map Prod.snd

def select (table : Table K V) (cond : K → Bool) : List (K × V) :=
  table.rows.filter fun row => cond row.1

def keysOf (table : Table K V) : List K := table.rows.map Prod.fst

def deleteWhere (table : Table K V) (cond : K → Bool) : Table K V × Nat :=
  (⟨table.rows.filter fun row => !cond row.1, table.primaryKey.sublist (List.filter_sublist.map Prod.fst)⟩,
    (table.select cond).length)

def insertOrIgnore (table : Table K V) (key : K) (value : V) : Table K V × Nat :=
  if absent : key ∉ table.keysOf then
    (⟨(key, value) :: table.rows, List.nodup_cons.mpr ⟨absent, table.primaryKey⟩⟩, 1)
  else (table, 0)

def overwrite (key : K) (value : V) (rows : List (K × V)) : List (K × V) :=
  rows.map fun row => if row.1 = key then (key, value) else row

theorem overwrite_keys (key : K) (value : V) (rows : List (K × V)) :
    (overwrite key value rows).map Prod.fst = rows.map Prod.fst := by
  rw [overwrite, List.map_map]
  refine List.map_congr_left fun row _ => ?_
  simp only [Function.comp]
  split_ifs with same
  · exact same.symm
  · rfl

def upsert (table : Table K V) (key : K) (value : V) : Table K V :=
  if absent : key ∉ table.keysOf then
    ⟨(key, value) :: table.rows, List.nodup_cons.mpr ⟨absent, table.primaryKey⟩⟩
  else ⟨overwrite key value table.rows, by rw [overwrite_keys]; exact table.primaryKey⟩

theorem mem_rows {table : Table K V} {key : K} {value : V} :
    (key, value) ∈ table.rows ↔ table.lookup key = some value := by
  obtain ⟨rows, primaryKey⟩ := table
  simp only [lookup]
  induction rows with
  | nil => simp
  | cons row rows ih =>
    rw [List.map_cons, List.nodup_cons] at primaryKey
    have rest := ih primaryKey.2
    by_cases same : row.1 = key
    · -- a second row under the key would repeat the primary key
      have alone : (key, value) ∉ rows := fun member =>
        primaryKey.1 (same ▸ List.mem_map_of_mem (f := Prod.fst) member)
      obtain ⟨first, stored⟩ := row
      simp only at same
      subst same
      simp [alone, eq_comm]
    · have other : (key, value) ≠ row := fun same' => same (by rw [← same'])
      simp [same, other, rest]

theorem mem_keysOf {table : Table K V} {key : K} :
    key ∈ table.keysOf ↔ (table.lookup key).isSome := by
  simp only [keysOf, List.mem_map, Option.isSome_iff_exists, ← mem_rows, Prod.exists,
    exists_and_right, exists_eq_right]

theorem lookup_eq_of_mem_iff {table : Table K V} {key : K} {found : Option V}
    (same : ∀ value, (key, value) ∈ table.rows ↔ found = some value) :
    table.lookup key = found := by
  refine Option.ext fun value => ?_
  rw [← mem_rows, same]

@[simp] theorem lookup_empty (key : K) : (empty : Table K V).lookup key = none := rfl

theorem lookup_eq_none {table : Table K V} {key : K} :
    table.lookup key = none ↔ key ∉ table.keysOf := by
  rw [mem_keysOf]
  simp

theorem lookup_cons {rows : List (K × V)} {key : K} {value : V} {primaryKey} (other : K) :
    (⟨(key, value) :: rows, primaryKey⟩ : Table K V).lookup other =
      if key = other then some value
      else (⟨rows, (List.nodup_cons.mp primaryKey).2⟩ : Table K V).lookup other := by
  simp only [lookup, List.find?_cons]
  by_cases same : key = other <;> simp [same]

theorem lookup_upsert (table : Table K V) (key other : K) (value : V) :
    (table.upsert key value).lookup other = if key = other then some value else table.lookup other := by
  unfold upsert
  by_cases absent : key ∉ table.keysOf
  · rw [dif_pos absent, lookup_cons]
  rw [dif_neg absent]
  by_cases same : key = other
  · subst same
    obtain ⟨stored, member⟩ : ∃ stored, (key, stored) ∈ table.rows := by
      simpa [keysOf] using absent
    rw [if_pos rfl, ← mem_rows]
    exact List.mem_map.mpr ⟨(key, stored), member, by simp⟩
  · rw [if_neg same]
    refine lookup_eq_of_mem_iff fun stored => ?_
    rw [← mem_rows]
    simp only [overwrite, List.mem_map]
    constructor
    · rintro ⟨row, member, changed⟩
      split_ifs at changed with here
      · exact absurd (congrArg Prod.fst changed) same
      · exact changed ▸ member
    · intro member
      exact ⟨(other, stored), member, by simp [Ne.symm same]⟩

theorem insertOrIgnore_fresh {table : Table K V} {key : K} (absent : table.lookup key = none)
    (value : V) :
    (table.insertOrIgnore key value).2 = 1 ∧
      ∀ other, (table.insertOrIgnore key value).1.lookup other =
        if key = other then some value else table.lookup other := by
  rw [lookup_eq_none] at absent
  rw [insertOrIgnore, dif_pos absent]
  exact ⟨rfl, fun other => lookup_cons other⟩

theorem insertOrIgnore_present {table : Table K V} {key : K} (present : (table.lookup key).isSome)
    (value : V) : table.insertOrIgnore key value = (table, 0) := by
  rw [insertOrIgnore, dif_neg (not_not.mpr (mem_keysOf.mpr present))]

theorem lookup_deleteWhere (table : Table K V) (cond : K → Bool) (key : K) :
    (table.deleteWhere cond).1.lookup key = if cond key then none else table.lookup key := by
  refine lookup_eq_of_mem_iff fun value => ?_
  simp only [deleteWhere, List.mem_filter, mem_rows]
  cases cond key <;> simp

theorem deleteWhere_none {table : Table K V} {cond : K → Bool} :
    (table.deleteWhere cond).2 = 0 ↔ ∀ key, cond key → table.lookup key = none := by
  simp only [deleteWhere, select, List.length_eq_zero_iff, List.filter_eq_nil_iff, Prod.forall]
  constructor
  · intro nothing key holds
    refine Option.eq_none_iff_forall_ne_some.mpr fun value found => ?_
    exact nothing key value (mem_rows.mpr found) holds
  · intro absent key value member holds
    rw [mem_rows, absent key holds] at member
    cases member

theorem mem_select {table : Table K V} {cond : K → Bool} {key : K} {value : V} :
    (key, value) ∈ table.select cond ↔ cond key ∧ table.lookup key = some value := by
  rw [select, List.mem_filter, mem_rows, and_comm]

omit [DecidableEq K] in
theorem select_keys_nodup (table : Table K V)
    (cond : K → Bool) : ((table.select cond).map Prod.fst).Nodup :=
  table.primaryKey.sublist (List.filter_sublist.map Prod.fst)

end Table

/-! ## Scans over rows with distinct keys -/

variable {K V S A : Type} {rest : List (K × V)} {key : K} {v : V} {found : Option V}

def Holds (rows : List (K × V)) (key : K) (found : Option V) : Prop :=
  ∀ v, (key, v) ∈ rows ↔ found = some v

theorem Holds.tail_of_eq
    (holds : Holds ((key, v) :: rest) key found)
    (distinct : (((key, v) :: rest).map Prod.fst).Nodup) :
    found = some v ∧ Holds rest key none := by
  obtain ⟨fresh, -⟩ := List.nodup_cons.mp distinct
  refine ⟨(holds v).mp (by simp), fun w => ?_⟩
  simpa using fun mem => fresh (List.mem_map.mpr ⟨(key, w), mem, rfl⟩)

theorem Holds.tail_of_ne {other : K}
    (holds : Holds ((other, v) :: rest) key found) (differs : other ≠ key) : Holds rest key found :=
  fun w => by simpa [Ne.symm differs] using holds w

theorem observe_foldl [DecidableEq K] {step : S → K × V → S} (observe : S → Option A)
    (contribute : V → Option A)
    (one : ∀ s row, observe (step s row) =
      if row.1 = key then (contribute row.2).or (observe s) else observe s)
    {rows : List (K × V)} (distinct : (rows.map Prod.fst).Nodup)
    (holds : Holds rows key found) (s : S) :
    observe (rows.foldl step s) = (found.bind contribute).or (observe s) := by
  induction rows generalizing s found with
  | nil =>
    obtain rfl : found = none := Option.eq_none_iff_forall_ne_some.mpr fun v => by simp [← holds v]
    rfl
  | cons row rest ih =>
    obtain ⟨other, v⟩ := row
    have distinctRest := (List.nodup_cons.mp distinct).2
    rw [List.foldl_cons]
    by_cases same : other = key
    · subst same
      obtain ⟨rfl, gone⟩ := holds.tail_of_eq distinct
      rw [ih distinctRest gone, one, if_pos rfl]
      rfl
    · rw [ih distinctRest (holds.tail_of_ne same), one, if_neg same]

end CincServer.Lib
