import Mathlib.Logic.Basic

/-!
# Deterministic machines and simulations between them
-/

namespace CincServer.Lib.Machine

variable {σ τ ι ω ρ : Type}

inductive Script (ι ω ρ : Type)
  | ret (result : ρ)
  | call (input : ι) (next : ω → Script ι ω ρ)

def Script.run (step : σ → ι → σ × ω) : Script ι ω ρ → σ → σ × List ω × ρ
  | .ret result, state => (state, [], result)
  | .call input next, state =>
    let (after, answer) := step state input
    let (final, answers, result) := (next answer).run step after
    (final, answer :: answers, result)

def answers (step : σ → ι → σ × ω) : List ι → σ → List ω
  | [], _ => []
  | input :: inputs, state =>
    (step state input).2 :: answers step inputs (step state input).1

def Simulation (related : σ → τ → Prop) (step : σ → ι → σ × ω) (step' : τ → ι → τ × ω) : Prop :=
  ∀ s t, related s t → ∀ input, related (step s input).1 (step' t input).1 ∧ (step s input).2 = (step' t input).2

variable {related : σ → τ → Prop} {step : σ → ι → σ × ω} {step' : τ → ι → τ × ω}

theorem Simulation.script (sim : Simulation related step step') (script : Script ι ω ρ) {s : σ}
    {t : τ}
    (start : related s t) :
    related (script.run step s).1 (script.run step' t).1 ∧
      (script.run step s).2 = (script.run step' t).2 := by
  induction script generalizing s t with
  | ret result => exact ⟨start, rfl⟩
  | call input next ih =>
    obtain ⟨after, same⟩ := sim s t start input
    obtain ⟨final, rest⟩ := ih (step s input).2 after
    simp only [Script.run]
    rw [← same]
    exact ⟨final, by simp only [rest]⟩

theorem Simulation.answers (sim : Simulation related step step') (inputs : List ι) {s : σ} {t : τ}
    (start : related s t) : answers step inputs s = answers step' inputs t := by
  induction inputs generalizing s t with
  | nil => rfl
  | cons input inputs ih =>
    obtain ⟨after, same⟩ := sim s t start input
    rw [Machine.answers, Machine.answers, same, ih after]

variable {ε α : Type}

def Script.All (allowed : ι → Prop) : Script ι ω ρ → Prop
  | .ret _ => True
  | .call input next => allowed input ∧ ∀ answer, (next answer).All allowed

def Script.log (entries : ι → ω → List ε) : Script ι ω ρ → List ω → List ε
  | .call input next, answer :: answers => entries input answer ++ (next answer).log entries answers
  | _, _ => []

def Logged (step : σ → ι → σ × ω) (allowed : ι → Prop) (entries : ι → ω → List ε)
    (apply : α → ε → α)
    (view : σ → α) : Prop :=
  ∀ s input, allowed input → (entries input (step s input).2).foldl apply (view s) = view (step s input).1

variable {allowed : ι → Prop} {entries : ι → ω → List ε} {apply : α → ε → α} {view : σ → α}

theorem Logged.script {step : σ → ι → σ × ω} (logged : Logged step allowed entries apply view)
    {script : Script ι ω ρ} (all : script.All allowed) (s : σ) :
    (script.log entries (script.run step s).2.1).foldl apply (view s) = view (script.run step s).1 := by
  induction script generalizing s with
  | ret result => rfl
  | call input next ih =>
    simp only [Script.run, Script.log, List.foldl_append]
    rw [logged s input all.1]
    exact ih _ (all.2 _) _

end CincServer.Lib.Machine
