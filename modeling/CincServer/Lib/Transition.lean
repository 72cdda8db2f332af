import Mathlib.Logic.Basic

/-!
# Runs of a transition function
-/

namespace CincServer.Lib

variable {σ α : Type}

inductive Run (step : σ → α → Option σ) (allowed : σ → α → Prop) (start : σ) : σ → Prop
  | start : Run step allowed start start
  | step {s t : σ} (reached : Run step allowed start s) (action : α) (ok : allowed s action)
      (taken : step s action = some t) : Run step allowed start t

def always (_ : σ) (_ : α) : Prop := True

instance (s : σ) (action : α) : Decidable (always s action) := .isTrue trivial

namespace Run

variable {step : σ → α → Option σ} {allowed : σ → α → Prop} {start s : σ}

theorem invariant {inv : σ → Prop} (run : Run step allowed start s) (initial : inv start)
    (kept : ∀ s t action, inv s → allowed s action → step s action = some t → inv t) : inv s := by
  induction run with
  | start => exact initial
  | step _ action ok taken ih => exact kept _ _ action ih ok taken

variable (step allowed) [∀ s action, Decidable (allowed s action)]

def perform (s : σ) : List α → Option σ
  | [] => some s
  | action :: rest => if allowed s action then (step s action).bind (perform · rest) else none

variable {step allowed}

theorem of_perform {actions : List α} {t : σ} (run : Run step allowed start s)
    (performed : perform step allowed s actions = some t) : Run step allowed start t := by
  induction actions generalizing s with
  | nil =>
    cases performed
    exact run
  | cons action rest ih =>
    obtain ⟨ok, taken⟩ := Option.ite_none_right_eq_some.mp performed
    obtain ⟨next, moved, others⟩ := Option.bind_eq_some_iff.mp taken
    exact ih (run.step action ok moved) others

end Run

end CincServer.Lib
