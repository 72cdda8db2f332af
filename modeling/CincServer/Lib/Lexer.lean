import Mathlib.Data.List.Basic

/-!
# Reading items off the front of a text
-/

namespace CincServer.Lib

variable {σ α β : Type} {s s' : σ} {text : List α} {item : β}

abbrev Reader (σ α β : Type) := σ → List α → Option (β × Nat × σ)

def lex (read : Reader σ α β) : Nat → σ → List α → List β × σ × List α
  | _, s, [] => ([], s, [])
  | skip + 1, s, _ :: rest => lex read skip s rest
  | 0, s, a :: rest =>
    match read s (a :: rest) with
    | none => ([], s, a :: rest)
    | some (item, width, s') =>
      let (items, ending) := lex read (width - 1) s' rest
      (item :: items, ending)

variable {read : Reader σ α β}

theorem lex_nil (s : σ) : lex read 0 s [] = ([], s, []) := by
  rw [lex]

theorem lex_skip (skip : Nat) (s : σ) (text : List α) :
    lex read skip s text = lex read 0 s (text.drop skip) := by
  induction text generalizing skip with
  | nil => cases skip <;> rfl
  | cons a rest ih =>
    cases skip with
    | zero => rfl
    | succ skip => rw [lex, List.drop_succ_cons, ih]

theorem lex_of_none (stops : read s text = none) : lex read 0 s text = ([], s, text) := by
  cases text with
  | nil => rfl
  | cons a rest => rw [lex, stops]

theorem lex_of_some {width : Nat} (more : text ≠ [])
    (reads : read s text = some (item, width, s')) (positive : 0 < width) :
    lex read 0 s text = (item :: (lex read 0 s' (text.drop width)).1, (lex read 0 s' (text.drop width)).2) := by
  obtain ⟨a, rest, rfl⟩ := List.exists_cons_of_ne_nil more
  obtain ⟨more, rfl⟩ := Nat.exists_eq_succ_of_ne_zero (Nat.ne_of_gt positive)
  rw [lex, reads]
  simp only [Nat.succ_eq_add_one, Nat.add_sub_cancel, lex_skip more, List.drop_succ_cons]

theorem lex_append {chunk rest : List α} (more : chunk ≠ [])
    (reads : read s (chunk ++ rest) = some (item, chunk.length, s')) :
    lex read 0 s (chunk ++ rest) = (item :: (lex read 0 s' rest).1, (lex read 0 s' rest).2) := by
  have nonempty : chunk ++ rest ≠ [] := List.append_ne_nil_of_left_ne_nil more rest
  rw [lex_of_some nonempty reads (List.length_pos_of_ne_nil more), List.drop_left]

theorem lex_forall {P : β → Prop}
    (each : ∀ {s text item width s'}, read s text = some (item, width, s') → P item)
    (skip : Nat) (s : σ) (text : List α) : ∀ item ∈ (lex read skip s text).1, P item := by
  induction text generalizing skip s with
  | nil => simp [lex]
  | cons a rest ih =>
    cases skip with
    | succ skip => exact ih skip s
    | zero =>
      cases reads : read s (a :: rest) with
      | none => simp [lex, reads]
      | some next =>
        obtain ⟨item, width, s'⟩ := next
        simp only [lex, reads, List.forall_mem_cons]
        exact ⟨each reads, ih (width - 1) s'⟩

def Follows (step : σ → β → Option σ) : σ → List β → Prop
  | _, [] => True
  | s, item :: rest => ∃ s', step s item = some s' ∧ Follows step s' rest

theorem lex_follows {step : σ → β → Option σ}
    (each : ∀ {s text item width s'}, read s text = some (item, width, s') → step s item = some s')
    (skip : Nat) (s : σ) (text : List α) : Follows step s (lex read skip s text).1 := by
  induction text generalizing skip s with
  | nil => simp [lex, Follows]
  | cons a rest ih =>
    cases skip with
    | succ skip => exact ih skip s
    | zero =>
      cases reads : read s (a :: rest) with
      | none => simp [lex, reads, Follows]
      | some next =>
        obtain ⟨item, width, s'⟩ := next
        simp only [lex, reads]
        exact ⟨s', each reads, ih (width - 1) s'⟩

theorem lex_induction {motive : σ → List α → List β × σ × List α → Prop}
    (positive : ∀ {s text item width s'}, read s text = some (item, width, s') → 0 < width)
    (stop : ∀ s text, text = [] ∨ read s text = none → motive s text ([], s, text))
    (item : ∀ s text item width s' items ending, text ≠ [] → read s text = some (item, width, s') →
      motive s' (text.drop width) (items, ending) → motive s text (item :: items, ending))
    (s : σ) (text : List α) : motive s text (lex read 0 s text) := by
  induction len : text.length using Nat.strongRecOn generalizing s text with
  | ind len' ih =>
    subst len
    by_cases done : text = []
    · rw [done, lex_nil]
      exact stop s [] (.inl rfl)
    · cases reads : read s text with
      | none =>
        rw [lex_of_none reads]
        exact stop s text (.inr reads)
      | some next =>
        obtain ⟨first, width, s'⟩ := next
        have shorter : (text.drop width).length < text.length := by
          have := positive reads
          have := List.length_pos_of_ne_nil done
          rw [List.length_drop]
          omega
        rw [lex_of_some done reads (positive reads)]
        exact item s text first width s' _ _ done reads (ih _ shorter s' _ rfl)

end CincServer.Lib
