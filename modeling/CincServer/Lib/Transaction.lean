import Mathlib.Data.List.Basic
import Mathlib.Logic.Basic

/-!
# Atomic transactions that may fail to begin or to commit
-/

namespace CincServer.Lib.Transaction

variable {σ ε α : Type}

structure Faults (ε : Type) where
  beginError : Option ε
  commitError : Option ε

def Faults.none : Faults ε := ⟨.none, .none⟩

def Faults.atBegin (err : ε) : Faults ε := ⟨some err, .none⟩

abbrev Body (σ ε α : Type) := σ → σ × Except ε α

def transact (faults : Faults ε) (body : Body σ ε α) (state : σ) : σ × Except ε α :=
  match faults.beginError, body state, faults.commitError with
  | some err, _, _ => (state, .error err)
  | none, (_, .error err), _ => (state, .error err)
  | none, (_, .ok _), some err => (state, .error err)
  | none, (after, .ok value), none => (after, .ok value)

def sequential (faults : Nat → Faults ε) : List (Body σ ε α) → σ → σ × List (Except ε α)
  | [], state => (state, [])
  | body :: rest, state =>
    let (next, answer) := transact (faults 0) body state
    let (final, answers) := sequential (fun i => faults (i + 1)) rest next
    (final, answer :: answers)

def Faults.cons (head : Faults ε) (tail : Nat → Faults ε) : Nat → Faults ε
  | 0 => head
  | i + 1 => tail i

theorem sequential_cons (head : Faults ε) (tail : Nat → Faults ε) (body : Body σ ε α)
    (rest : List (Body σ ε α)) (state : σ) :
    sequential (.cons head tail) (body :: rest) state =
      ((sequential tail rest (transact head body state).1).1,
        (transact head body state).2 :: (sequential tail rest (transact head body state).1).2) := rfl

theorem transact_begin_failure (err : ε) (body : Body σ ε α) (state : σ) :
    transact (.atBegin err) body state = (state, .error err) := by
  simp [transact, Faults.atBegin]

theorem transact_of_ok {body : Body σ ε α} {state after : σ} {value : α}
    (run : body state = (after, .ok value)) :
    transact .none body state = (after, .ok value) := by
  simp [transact, Faults.none, run]

theorem transact_of_error {faults : Faults ε} {body : Body σ ε α} {state after : σ} {err : ε}
    (begins : faults.beginError = .none) (run : body state = (after, .error err)) :
    transact faults body state = (state, .error err) := by
  simp [transact, begins, run]

@[simp] theorem sequential_length (faults : Nat → Faults ε) (bodies : List (Body σ ε α))
    (state : σ) :
    (sequential faults bodies state).2.length = bodies.length := by
  induction bodies generalizing faults state with
  | nil => rfl
  | cons body rest ih => simp [sequential, ih]

def Faults.append (n : Nat) (first later : Nat → Faults ε) (i : Nat) : Faults ε :=
  if i < n then first i else later (i - n)

theorem sequential_append (first later : Nat → Faults ε) (xs ys : List (Body σ ε α)) (state : σ) :
    sequential (Faults.append xs.length first later) (xs ++ ys) state =
      ((sequential later ys (sequential first xs state).1).1,
        (sequential first xs state).2 ++ (sequential later ys (sequential first xs state).1).2) := by
  induction xs generalizing first state with
  | nil =>
    have rest : Faults.append 0 first later = later := by
      funext i
      simp [Faults.append]
    simp [sequential, rest]
  | cons body rest ih =>
    have shifted : (fun i => Faults.append (rest.length + 1) first later (i + 1)) =
        Faults.append rest.length (fun i => first (i + 1)) later := by
      funext i
      simp [Faults.append]
    simp only [List.cons_append, List.length_cons, sequential, shifted, ih]
    simp [Faults.append]

end CincServer.Lib.Transaction
