import CincServer.Store.Sqlite

/-!
# Group commit is transparent, and when closing the coalescer drains it
-/

namespace CincServer.Proof.Store
open CincServer.Store Lib.Transaction

section Coalescing

variable {Db Out : Type}

def bodies (batch : List (WriteJob Db Out)) : List (Body Db StoreError Out) :=
  batch.map WriteJob.apply

def answersTo (number : Nat) (sent : List (Nat × Answer Out)) : List (Answer Out) :=
  (sent.filter fun entry => entry.1 = number).map Prod.snd

def errors (faults : Faults StoreError) : List StoreError :=
  faults.beginError.toList ++ faults.commitError.toList

theorem sends_cons (first : Nat) (answer : Answer Out) (answers : List (Answer Out)) :
    sends first (answer :: answers) = (first, answer) :: sends (first + 1) answers := by
  simp [sends, List.zipIdx_cons]

theorem sends_append (first : Nat) (xs ys : List (Answer Out)) :
    sends first (xs ++ ys) = sends first xs ++ sends (first + xs.length) ys := by
  simp [sends, List.zipIdx_append]

theorem answersTo_sends (first i : Nat) (answers : List (Answer Out)) :
    answersTo (first + i) (sends first answers) = answers[i]?.toList := by
  have earlier (first number : Nat) (answers : List (Answer Out)) (before : number < first) :
      answersTo number (sends first answers) = [] := by
    induction answers generalizing first with
    | nil => rfl
    | cons answer answers ih =>
      rw [sends_cons, answersTo, List.filter_cons_of_neg (by simpa using by omega)]
      exact ih (first + 1) (by omega)
  induction answers generalizing first i with
  | nil => simp [sends, answersTo]
  | cons answer answers ih =>
    rw [sends_cons, answersTo]
    cases i with
    | zero =>
      rw [List.filter_cons_of_pos (by simp), List.map_cons]
      have rest := earlier (first + 1) first answers (by omega)
      rw [answersTo] at rest
      simp [rest]
    | succ i =>
      rw [List.filter_cons_of_neg (by simp)]
      simpa [answersTo, Nat.add_assoc, Nat.add_comm 1 i] using ih (first + 1) i

theorem applyBatch_sequential {batch : List (WriteJob Db Out)} {db tx : Db}
    {results : List (Answer Out)} (applied : applyBatch batch db = some (tx, results)) :
    sequential (fun _ => .none) (bodies batch) db = (tx, results) := by
  induction batch generalizing db results with
  | nil => simpa [applyBatch, bodies, sequential] using applied
  | cons job rest ih =>
    cases run : job.apply db with
    | mk tx' result =>
      cases result with
      | ok out =>
        simp only [applyBatch, run, Option.map_eq_some_iff, Prod.exists, Prod.mk.injEq] at applied
        obtain ⟨final, answers, tail, rfl, rfl⟩ := applied
        have step : transact .none job.apply db = _ := transact_of_ok run
        have more := ih tail
        simp only [bodies, List.map_cons, sequential, step] at more ⊢
        simp [more]
      | error err =>
        simp only [applyBatch, run] at applied
        split_ifs at applied with conflict
        simp only [Option.map_eq_some_iff, Prod.exists, Prod.mk.injEq] at applied
        obtain ⟨final, answers, tail, rfl, rfl⟩ := applied
        -- a conflicting statement was a no-op, so rolling it back changes nothing
        have noop : tx' = db := by
          cases err with
          | errConflict => simpa [run] using job.conflict_noop db (by simp [run])
          | other message => simp [StoreError.isConflict] at conflict
        subst noop
        have step : transact .none job.apply tx' = _ := transact_of_error rfl run
        have more := ih tail
        simp only [bodies, List.map_cons, sequential, step] at more ⊢
        simp [more]

theorem runAlone_transact (faults : Faults StoreError) (job : WriteJob Db Out) (db : Db) :
    ∃ chosen : Faults StoreError, (∀ err ∈ errors chosen, err ∈ errors faults) ∧
      runAlone faults job db = transact chosen job.apply db := by
  obtain ⟨beginError, commitError⟩ := faults
  cases beginError with
  | some err => exact ⟨_, fun _ member => member, by simp [runAlone, transact]⟩
  | none =>
    cases run : job.apply db with
    | mk tx result =>
      cases result with
      | ok out =>
        refine ⟨_, fun _ member => member, ?_⟩
        cases commitError <;> simp [runAlone, transact, run]
      | error err =>
        cases err with
        | other message =>
          exact ⟨_, fun _ member => member, by simp [runAlone, transact, run, StoreError.isConflict]⟩
        | errConflict =>
          have noop : tx = db := by simpa [run] using job.conflict_noop db (by simp [run])
          subst noop
          cases commitError with
          | none =>
            exact ⟨_, fun _ member => member, by simp [runAlone, transact, run, StoreError.isConflict]⟩
          | some cerr =>
            refine ⟨.atBegin cerr, by simp [errors, Faults.atBegin], ?_⟩
            simp [runAlone, transact, run, StoreError.isConflict, Faults.atBegin]

theorem runIsolated_sequential (faults : Nat → Faults StoreError) (first : Nat)
    (batch : List (WriteJob Db Out)) (db : Db) :
    ∃ chosen : Nat → Faults StoreError, (∀ i, ∀ err ∈ errors (chosen i), err ∈ errors (faults i)) ∧
      runIsolated faults first batch db =
        ((sequential chosen (bodies batch) db).1, sends first (sequential chosen (bodies batch) db).2) := by
  induction batch generalizing faults first db with
  | nil => exact ⟨faults, fun _ _ member => member, by simp [runIsolated, bodies, sequential, sends]⟩
  | cons job rest ih =>
    obtain ⟨alone, occursAlone, step⟩ := runAlone_transact (faults 0) job db
    obtain ⟨chosen, occurs, run⟩ :=
      ih (fun i => faults (i + 1)) (first + 1) (runAlone (faults 0) job db).1
    refine ⟨.cons alone chosen, ?_, ?_⟩
    · intro i
      cases i with
      | zero => exact occursAlone
      | succ i => exact occurs i
    · rw [step, bodies] at run
      simp only [runIsolated, step, run, bodies, List.map_cons, sequential_cons, sends_cons]

theorem fail_sequential (first : Nat) (batch : List (WriteJob Db Out)) (db : Db)
    (err : StoreError) :
    (db, fail first batch err) = ((sequential (fun _ => .atBegin err) (bodies batch) db).1,
        sends first (sequential (fun _ => .atBegin err) (bodies batch) db).2) := by
  have all : sequential (fun _ => .atBegin err) (bodies batch) db =
      (db, batch.map fun _ => .error err) := by
    induction batch with
    | nil => rfl
    | cons job rest ih =>
      simp only [bodies, List.map_cons, sequential, transact_begin_failure] at ih ⊢
      simp [ih]
  simp [all, fail]

theorem runBatch_sequential (shared : Faults StoreError) (isolated : Nat → Faults StoreError)
    (first : Nat) (batch : List (WriteJob Db Out)) (db : Db) :
    ∃ chosen : Nat → Faults StoreError,
      (∀ i, ∀ err ∈ errors (chosen i), err ∈ errors shared ∨ err ∈ errors (isolated i)) ∧
      runBatch shared isolated first batch db =
        ((sequential chosen (bodies batch) db).1, sends first (sequential chosen (bodies batch) db).2) := by
  have retry : ∃ chosen : Nat → Faults StoreError,
      (∀ i, ∀ err ∈ errors (chosen i), err ∈ errors shared ∨ err ∈ errors (isolated i)) ∧
      runIsolated isolated first batch db =
        ((sequential chosen (bodies batch) db).1, sends first (sequential chosen (bodies batch) db).2) := by
    obtain ⟨chosen, occurs, run⟩ := runIsolated_sequential isolated first batch db
    exact ⟨chosen, fun i err member => .inr (occurs i err member), run⟩
  unfold runBatch
  cases begins : shared.beginError with
  | some err =>
    exact ⟨fun _ => .atBegin err,
      by simp [errors, Faults.atBegin, begins], fail_sequential first batch db err⟩
  | none =>
    cases applied : applyBatch batch db with
    | none => exact retry
    | some outcome =>
      obtain ⟨tx, results⟩ := outcome
      cases commits : shared.commitError with
      | some err => exact retry
      | none =>
        refine ⟨fun _ => .none, by simp [errors, Faults.none], ?_⟩
        simp [applyBatch_sequential applied]

/-- Whatever fails, a batch leaves the database and gives each job the one answer that running
the jobs one at a time gives, for some begin and commit failures among those that occurred. -/
theorem groupCommit_transparent (shared : Faults StoreError) (isolated : Nat → Faults StoreError)
    (batch : List (WriteJob Db Out)) (db : Db) :
    ∃ chosen : Nat → Faults StoreError,
      (∀ i, ∀ err ∈ errors (chosen i), err ∈ errors shared ∨ err ∈ errors (isolated i)) ∧
      (runBatch shared isolated 0 batch db).1 = (sequential chosen (bodies batch) db).1 ∧
      (∀ i, answersTo i (runBatch shared isolated 0 batch db).2 = (sequential chosen (bodies batch) db).2[i]?.toList) ∧
      (sequential chosen (bodies batch) db).2.length = batch.length := by
  obtain ⟨chosen, occurs, run⟩ := runBatch_sequential shared isolated 0 batch db
  refine ⟨chosen, occurs, by rw [run], ?_, by simp [bodies]⟩
  intro i
  rw [run]
  simpa using answersTo_sends 0 i (sequential chosen (bodies batch) db).2

open Coalescer (submit loopStep close)

variable {db₀ : Db} {c next : Coalescer Db Out} {shared : Faults StoreError} {isolated : Nat → Faults StoreError}
  {fails : Nat → StoreError → Prop}

/-- A batch that runs meets no failures but those `fails` gives its jobs, by their numbers. -/
def Meets (fails : Nat → StoreError → Prop) (c : Coalescer Db Out) (shared : Faults StoreError)
    (isolated : Nat → Faults StoreError) : Prop :=
  ∀ batch, c.loop = .running batch → ∀ k number job, batch[k]? = some (some (number, job)) →
    ∀ err, err ∈ errors shared ∨ err ∈ errors (isolated k) → fails number err

inductive OpenReachable (fails : Nat → StoreError → Prop) (db₀ : Db) : Coalescer Db Out → Prop
  | start : OpenReachable fails db₀ (newCoalescer db₀)
  | submit {c next : Coalescer Db Out} (job : WriteJob Db Out) :
      OpenReachable fails db₀ c → c.submit job = some next → OpenReachable fails db₀ next
  | loop {c next : Coalescer Db Out} (shared : Faults StoreError) (isolated : Nat → Faults StoreError) :
      OpenReachable fails db₀ c → Meets fails c shared isolated → c.loopStep shared isolated = some next →
      OpenReachable fails db₀ next

abbrev FaultTrace := Nat → Faults StoreError × (Nat → Faults StoreError)

def loopRun (trace : FaultTrace) : Nat → Coalescer Db Out → Coalescer Db Out
  | 0, c => c
  | n + 1, c =>
    match c.loopStep (trace 0).1 (trace 0).2 with
    | none => c
    | some next => loopRun (fun i => trace (i + 1)) n next

/-- The goroutine has returned, and the jobs have left and been answered what running them one at a time
gives, each with failures of its own. -/
def Drained (fails : Nat → StoreError → Prop) (db₀ : Db) (c : Coalescer Db Out) : Prop :=
  c.loop = .returned ∧ ∃ chosen : Nat → Faults StoreError,
    (∀ i < c.submitted.length, ∀ err ∈ errors (chosen i), fails i err) ∧
    c.db = (sequential chosen (bodies c.submitted) db₀).1 ∧
    ∀ i, answersTo i c.answered = (sequential chosen (bodies c.submitted) db₀).2[i]?.toList

def numbered (jobs : List (WriteJob Db Out)) : List (Nat × WriteJob Db Out) :=
  jobs.zipIdx.map Prod.swap

def inHand : LoopState (Nat × WriteJob Db Out) → List (Option (Nat × WriteJob Db Out))
  | .gathering batch => batch
  | .running batch => batch
  | _ => []

structure OpenInvariant (fails : Nat → StoreError → Prop) (db₀ : Db)
    (c : Coalescer Db Out) : Prop where
  isOpen : c.closed = false
  alive : c.loop ≠ .returned ∧ c.loop ≠ .panicked
  holds : ∀ batch, c.loop = .gathering batch ∨ c.loop = .running batch → batch ≠ []
  processed : ∃ (n : Nat) (chosen : Nat → Faults StoreError),
    inHand c.loop ++ c.ch.map some = ((numbered c.submitted).drop n).map some ∧
    n ≤ c.submitted.length ∧
    (∀ i < n, ∀ err ∈ errors (chosen i), fails i err) ∧
    c.db = (sequential chosen (bodies (c.submitted.take n)) db₀).1 ∧
    c.answered = sends 0 (sequential chosen (bodies (c.submitted.take n)) db₀).2

theorem numbered_length (jobs : List (WriteJob Db Out)) : (numbered jobs).length = jobs.length := by
  simp [numbered]

theorem numbered_drop (jobs : List (WriteJob Db Out)) (n : Nat) :
    ((numbered jobs).drop n).map Prod.snd = jobs.drop n := by
  simp [numbered, List.map_drop, Function.comp_def]

theorem numbered_append (jobs : List (WriteJob Db Out)) (job : WriteJob Db Out) :
    numbered (jobs ++ [job]) = numbered jobs ++ [(jobs.length, job)] := by
  simp [numbered, List.zipIdx_append]

theorem openInvariant_submit {job : WriteJob Db Out}
    (inv : OpenInvariant fails db₀ c) (action : c.submit job = some next) :
    OpenInvariant fails db₀ next := by
  unfold submit at action
  split_ifs at action with room
  cases action
  obtain ⟨n, chosen, rest, bound, met, db, answered⟩ := inv.processed
  refine ⟨inv.isOpen, inv.alive, inv.holds, n, chosen, ?_, ?_, met, ?_, ?_⟩
  · rw [numbered_append, List.drop_append_of_le_length (by simpa [numbered_length] using bound)]
    simp [← rest]
  · simp only [List.length_append, List.length_singleton]
    omega
  · simpa [List.take_append_of_le_length bound] using db
  · simpa [List.take_append_of_le_length bound] using answered

theorem mapM_some {α : Type} (xs : List α) : (xs.map some).mapM id = some xs := by
  induction xs with
  | nil => rfl
  | cons x xs ih => simp [List.mapM_cons, ih]

theorem firstNumber_drop (jobs : List (WriteJob Db Out)) (n k : Nat)
    (nonempty : ((numbered jobs).drop n).take k ≠ []) :
    firstNumber (((numbered jobs).drop n).take k) = n := by
  have positive : k ≠ 0 := by
    rintro rfl
    simp at nonempty
  have bound : n < jobs.length := by
    by_contra short
    apply nonempty
    rw [List.drop_eq_nil_of_le (by simpa [numbered_length] using short), List.take_nil]
  obtain ⟨k, rfl⟩ := Nat.exists_eq_succ_of_ne_zero positive
  rw [List.drop_eq_getElem_cons (by simpa [numbered_length] using bound), List.take_succ_cons]
  simp [firstNumber, numbered]

theorem number_of_drop {jobs : List (WriteJob Db Out)}
    {batch queued : List (Nat × WriteJob Db Out)} {n k : Nat}
    (whole : (numbered jobs).drop n = batch ++ queued) (bound : k < batch.length) :
    (batch.get ⟨k, bound⟩).1 = n + k := by
  have here : ((numbered jobs).drop n)[k]? = some (batch.get ⟨k, bound⟩) := by
    rw [whole, List.getElem?_append_left bound]
    simp
  rw [List.getElem?_drop, numbered, List.getElem?_map, List.getElem?_zipIdx] at here
  simp only [Option.map_map, Option.map_eq_some_iff, Function.comp_apply, Prod.swap_prod_mk] at here
  obtain ⟨job, -, same⟩ := here
  rw [← same]
  omega

theorem openInvariant_loop (inv : OpenInvariant fails db₀ c) (meets : Meets fails c shared isolated)
    (action : c.loopStep shared isolated = some next) : OpenInvariant fails db₀ next := by
  obtain ⟨ch, closed, loop, db, submitted, answered⟩ := c
  obtain ⟨isOpen, alive, holds, n, chosen, rest, bound, met, dbEq, answeredEq⟩ := inv
  simp only at isOpen alive holds rest bound dbEq answeredEq
  subst isOpen
  cases loop with
  | returned => exact absurd rfl alive.1
  | panicked => exact absurd rfl alive.2
  | receiving =>
    cases ch with
    | nil => simp [loopStep] at action
    | cons job ch =>
      simp only [loopStep, Option.some.injEq] at action
      subst action
      exact ⟨rfl, by simp, by simp, n, chosen, by simpa [inHand] using rest, bound, met, dbEq, answeredEq⟩
  | gathering batch =>
    cases ch with
    | nil =>
      simp only [loopStep, Bool.false_eq_true, if_false, Option.some.injEq] at action
      subst action
      refine ⟨rfl, by simp, ?_, n, chosen, by simpa [inHand] using rest, bound, met, dbEq, answeredEq⟩
      rintro held (equal | equal)
      · simp at equal
      · exact holds held (.inl (by simpa using equal))
    | cons job ch =>
      simp only [loopStep, Option.some.injEq] at action
      subst action
      exact ⟨rfl, by simp, by simp, n, chosen, by simpa [inHand] using rest, bound, met, dbEq, answeredEq⟩
  | running batch =>
    -- the batch is the next jobs in submission order, none of them nil
    simp only [inHand] at rest
    have split := List.append_eq_map_iff.mp rest
    obtain ⟨jobs, queued, whole, rfl, queue⟩ := split
    have chEq : queued = ch := List.map_injective_iff.mpr (fun _ _ => Option.some.inj) queue
    subst chEq
    have nonempty : jobs ≠ [] := by simpa using holds _ (.inr rfl)
    have jobsEq : jobs = ((numbered submitted).drop n).take jobs.length := by rw [whole]; simp
    have chEq : queued = (numbered submitted).drop (n + jobs.length) := by
      rw [← List.drop_drop, whole]; simp
    have first : firstNumber jobs = n := by
      rw [jobsEq]
      exact firstNumber_drop submitted n _ (jobsEq ▸ nonempty)
    have jobsSnd : jobs.map Prod.snd = (submitted.drop n).take jobs.length := by
      conv_lhs => rw [jobsEq, List.map_take, numbered_drop]
    have reach : n + jobs.length ≤ submitted.length := by
      have := congrArg List.length whole
      simp [numbered_length] at this
      omega
    have taken : submitted.take (n + jobs.length) = submitted.take n ++ jobs.map Prod.snd := by
      rw [jobsSnd, List.take_add]
    simp only [loopStep, mapM_some, Option.some.injEq] at action
    subst action
    obtain ⟨more, occurs, run⟩ := runBatch_sequential shared isolated n (jobs.map Prod.snd) db
    have append := sequential_append chosen more (bodies (submitted.take n)) (bodies (jobs.map Prod.snd)) db₀
    have count : (bodies (submitted.take n)).length = n := by simp [bodies, bound]
    have whole' : bodies (submitted.take (n + jobs.length)) =
        bodies (submitted.take n) ++ bodies (jobs.map Prod.snd) := by
      rw [taken]; simp [bodies]
    refine ⟨rfl, by simp, by simp, n + jobs.length, Faults.append n chosen more, ?_, reach, fun i within err mem => ?_, ?_, ?_⟩
    · simp [inHand, chEq]
    · by_cases early : i < n
      · rw [Faults.append, if_pos early] at mem
        exact met i early err mem
      · rw [Faults.append, if_neg early] at mem
        have inBatch : i - n < jobs.length := by omega
        have number := number_of_drop whole inBatch
        have own := meets _ rfl (i - n) (jobs.get ⟨i - n, inBatch⟩).1 (jobs.get ⟨i - n, inBatch⟩).2 (by simp) err
          (occurs (i - n) err mem)
        rwa [number, Nat.add_sub_cancel' (Nat.le_of_not_lt early)] at own
    · simp only [first, run, whole']
      rw [count] at append
      rw [append, ← dbEq]
    · simp only [first, run, whole']
      rw [count] at append
      rw [append, ← dbEq, answeredEq, sends_append]
      simp [count]

theorem openReachable_invariant (reachable : OpenReachable fails db₀ c) :
    OpenInvariant fails db₀ c := by
  induction reachable with
  | start =>
    exact ⟨rfl, by simp [newCoalescer], by simp [newCoalescer], 0, fun _ => .none,
      by simp [newCoalescer, inHand, numbered], Nat.zero_le _, by simp, rfl, rfl⟩
  | submit job _ action ih => exact openInvariant_submit ih action
  | loop shared isolated _ meets action ih => exact openInvariant_loop ih meets action

def Doomed (c : Coalescer Db Out) : Prop :=
  c.closed = true ∧
    match c.loop with
    | .gathering _ | .panicked => True
    | .receiving | .running _ => c.ch ≠ []
    | .returned => False

theorem doomed_step (doomed : Doomed c) (action : c.loopStep shared isolated = some next) :
    Doomed next := by
  obtain ⟨ch, closed, loop, db, submitted, answered⟩ := c
  obtain ⟨isClosed, stuck⟩ := doomed
  simp only at isClosed stuck
  subst isClosed
  cases loop with
  | returned => exact stuck.elim
  | panicked => simp [loopStep] at action
  | receiving =>
    cases ch with
    | nil => exact absurd rfl stuck
    | cons job ch =>
      simp only [loopStep, Option.some.injEq] at action
      subst action
      exact ⟨rfl, trivial⟩
  | gathering batch =>
    cases ch <;> simp only [loopStep, if_true, Option.some.injEq] at action <;>
      subst action <;> exact ⟨rfl, trivial⟩
  | running batch =>
    cases jobs : batch.mapM id <;> simp only [loopStep, jobs, Option.some.injEq] at action <;> subst action
    · exact ⟨rfl, trivial⟩
    · exact ⟨rfl, stuck⟩

theorem doomed_run (trace : FaultTrace) (n : Nat) (doomed : Doomed c) :
    Doomed (loopRun trace n c) := by
  induction n generalizing c trace with
  | zero => exact doomed
  | succ n ih =>
    cases action : c.loopStep (trace 0).1 (trace 0).2 with
    | none => simpa [loopRun, action] using doomed
    | some next => simpa [loopRun, action] using ih _ (doomed_step doomed action)

theorem doomed_not_drained (doomed : Doomed c) : ¬ Drained fails db₀ c := by
  rintro ⟨returned, -⟩
  simp [Doomed, returned] at doomed

theorem drained_of_receiving (inv : OpenInvariant fails db₀ c)
    (idle : c.loop = .receiving) (empty : c.ch = []) (trace : FaultTrace) :
    Drained fails db₀ (loopRun trace 1 c.close) := by
  obtain ⟨n, chosen, rest, bound, met, db, answered⟩ := inv.processed
  have all : n = c.submitted.length := by
    have := congrArg List.length rest
    simp [idle, inHand, empty, numbered_length] at this
    omega
  have final : loopRun trace 1 c.close = { c with closed := true, loop := .returned } := by
    simp [loopRun, close, loopStep, idle, empty]
  rw [final]
  rw [all, List.take_length] at db answered
  refine ⟨rfl, chosen, all ▸ met, db, ?_⟩
  intro i
  simpa [answered] using answersTo_sends 0 i (sequential chosen (bodies c.submitted) db₀).2

/-- Closing an open coalescer drains it exactly when the channel is empty and the goroutine is
not gathering a batch. -/
theorem close_drains_iff {fails : Nat → StoreError → Prop} {db₀ : Db} {c : Coalescer Db Out}
    (reachable : OpenReachable fails db₀ c) (trace : FaultTrace)
    (meets : Meets fails c (trace 0).1 (trace 0).2) :
    (∃ n, Drained fails db₀ (loopRun trace n c.close)) ↔ c.ch = [] ∧
      ∀ batch, c.loop ≠ .gathering batch := by
  have inv := openReachable_invariant reachable
  constructor
  · rintro ⟨n, drained⟩
    by_contra bad
    refine doomed_not_drained (doomed_run trace n ?_) drained
    refine ⟨rfl, ?_⟩
    cases loop : c.loop with
    | returned => exact (inv.alive.1 loop).elim
    | panicked | gathering => simp [close, loop]
    | _ => simpa [close, loop] using bad
  · rintro ⟨empty, idle⟩
    cases loop : c.loop with
    | returned => exact absurd loop inv.alive.1
    | panicked => exact absurd loop inv.alive.2
    | gathering batch => exact absurd loop (idle batch)
    | receiving => exact ⟨1, drained_of_receiving inv loop empty trace⟩
    | running batch =>
      -- the batch finishes first; closing and finishing it commute
      cases action : c.loopStep (trace 0).1 (trace 0).2 with
      | none =>
        cases jobs : batch.mapM id <;> simp [loopStep, loop, jobs] at action
      | some next =>
        have after := openInvariant_loop inv meets action
        have commutes : c.close.loopStep (trace 0).1 (trace 0).2 = some next.close := by
          cases jobs : batch.mapM id <;> simp only [loopStep, loop, jobs, Option.some.injEq] at action <;>
            subst action <;>
            simp [loopStep, close, loop, jobs]
        have idle' : next.loop = .receiving ∧ next.ch = [] := by
          cases jobs : batch.mapM id <;> simp only [loopStep, loop, jobs, Option.some.injEq] at action <;>
            subst action
          · exact absurd rfl after.alive.2
          · exact ⟨rfl, empty⟩
        refine ⟨2, ?_⟩
        simpa [loopRun, commutes] using drained_of_receiving after idle'.1 idle'.2 (fun i => trace (i + 1))

def countJob : WriteJob Nat Unit := ⟨fun n => (n + 1, .ok ()), by simp⟩

def noFaults : FaultTrace := fun _ => (.none, fun _ => .none)

def oneWrite (ch : List (Nat × WriteJob Nat Unit)) (loop : LoopState (Nat × WriteJob Nat Unit)) :
    Coalescer Nat Unit :=
  { ch, closed := false, loop, db := 0, submitted := [countJob], answered := [] }

def nothingFails : Nat → StoreError → Prop := fun _ _ => False

theorem meets_nothing (c : Coalescer Nat Unit) : Meets nothingFails c .none fun _ => .none := by
  simp [Meets, errors, Faults.none]

theorem oneWrite_queued : OpenReachable nothingFails 0 (oneWrite [(0, countJob)] .receiving) :=
  .submit countJob .start rfl

theorem oneWrite_running :
    OpenReachable nothingFails 0 (oneWrite [] (.running [some (0, countJob)])) := by
  have gathering : OpenReachable nothingFails 0 (oneWrite [] (.gathering [some (0, countJob)])) :=
    .loop .none (fun _ => .none) oneWrite_queued (meets_nothing _) rfl
  exact .loop .none (fun _ => .none) gathering (meets_nothing _) rfl

theorem close_drains_running_batch :
    ∃ n, Drained nothingFails 0 (loopRun noFaults n (oneWrite [] (.running [some (0, countJob)])).close) :=
  (close_drains_iff oneWrite_running noFaults (meets_nothing _)).mpr ⟨rfl, by simp [oneWrite]⟩

theorem close_spins_on_queued_write : ¬ ∀ c : Coalescer Nat Unit, OpenReachable nothingFails 0 c →
    ∃ n, Drained nothingFails 0 (loopRun noFaults n c.close) := by
  intro drains
  obtain ⟨n, drained⟩ := drains _ oneWrite_queued
  exact doomed_not_drained (doomed_run noFaults n ⟨rfl, by simp [close, oneWrite]⟩) drained

end Coalescing

/-! ## Migrations apply once and in order -/

open Lib Program

variable {ι σ α : Type} {ρ : ι → Type} {sql : (c : ι) → σ → Except SqlError (ρ c × σ)}
  {versions : List Int} {current : Int}

section Statements

variable {ε : Type} {inv : Faulty σ → Prop} {c : SchemaStatement ι} {faults : List Fault} {conn : Connection σ}

theorem survives_statement {post : Except ε α → Faulty σ → Prop} {next : c.Result ρ → Opening ρ ε α}
    (holds : inv (faults, conn))
    (answered : ∀ later, (faults = [] → later = []) →
      Survives (step sql) inv (next (conn.answer sql c).1) (later, (conn.answer sql c).2) post)
    (failed : faults ≠ [] → ∀ later left, left = conn ∨ left = (conn.answer sql c).2 →
      Survives (step sql) inv (next (.error .unavailable)) (later, left) post) :
    Survives (step sql) inv (call c next) (faults, conn) post := by
  refine survives_call holds ?_
  match faults with
  | [] => exact answered [] fun _ => rfl
  | .none :: later => exact answered later nofun
  | .refused :: later => exact failed nofun later _ (.inl rfl)
  | .unreported :: later => exact failed nofun later _ (.inr rfl)

end Statements

abbrev Ends (faults : List Fault) (ok : α → Connection σ → Prop) (failed : Prop) {ε : Type}
    (r : Except ε α) (f : Faulty σ) : Prop :=
  match r with
  | .ok a => (faults = [] → f.1 = []) ∧ ok a f.2
  | .error _ => faults = [] → failed

theorem file_exec {c : ι} {conn : Connection σ} :
    (conn.answer sql (.exec c)).2.file = conn.file := by
  unfold Connection.answer Connection.exec
  dsimp only
  split
  · rfl
  · split <;> rfl

theorem survives_issue (p : Program ρ SqlError α) (faults : List Fault) (file image : Image σ) :
    Survives (step sql) (fun f => f.2.file = file) (issue p) (faults, ⟨file, some image⟩) (Ends faults
        (fun a conn => ∃ contents, p.attempt sql image.contents = .ok (a, contents) ∧
          conn = ⟨file, some ⟨contents, image.versions⟩⟩)
        ((p.attempt sql image.contents).toOption = none)) := by
  induction p generalizing faults image with
  | ret a => exact survives_pure rfl ⟨id, image.contents, rfl, rfl⟩
  | stop err => exact survives_stop rfl fun _ => rfl
  | call c next ih =>
    rw [issue]
    refine survives_statement ?_ (fun later none => ?_) fun faulty later left either => ?_
    · rfl
    · cases run : sql c image.contents with
      | error err =>
        have failed : Connection.answer sql (.exec c) ⟨file, some image⟩ = (.error err, ⟨file, some image⟩) := by
          simp only [Connection.answer, Connection.exec, run]
          rfl
        rw [failed]
        exact survives_stop rfl fun _ => by simp only [attempt, run]; rfl
      | ok done =>
        obtain ⟨answer, contents⟩ := done
        have ran : Connection.answer sql (.exec c) ⟨file, some image⟩ =
            (.ok answer, ⟨file, some ⟨contents, image.versions⟩⟩) := by
          simp only [Connection.answer, Connection.exec, run]
          rfl
        have same : (call c next).attempt sql image.contents = (next answer).attempt sql contents := by
          simp only [attempt, run]
        rw [ran, same]
        refine (ih answer later ⟨contents, image.versions⟩).mono fun r f _ ends => ?_
        cases r with
        | ok a => exact ⟨fun empty => ends.1 (none empty), ends.2⟩
        | error err => exact fun empty => ends (none empty)
    · refine survives_stop ?_ fun empty => absurd empty faulty
      rcases either with rfl | rfl
      · rfl
      · exact file_exec

def Migrated (sql : (c : ι) → σ → Except SqlError (ρ c × σ)) (m : Migration ρ)
    (file after : Image σ) : Prop :=
  m.up.attempt sql file.contents = .ok ((), after.contents) ∧
    after.versions = some (file.versions.getD [] ++ [m.version])

theorem survives_rollback {inv : Faulty σ → Prop} {err : MigrateError} {f : Faulty σ}
    {post : Except MigrateError α → Faulty σ → Prop}
    (holds : ∀ left : Faulty σ, left.2.file = f.2.file → inv left)
    (ends : ∀ f, post (.error err) f) :
    Survives (step sql) inv (rollback err : Opening ρ MigrateError α) f post := by
  obtain ⟨faults, conn⟩ := f
  refine survives_statement (holds _ rfl)
    (fun later _ => survives_stop (holds _ rfl) (ends _)) fun _ later left either => ?_
  refine survives_stop (holds _ ?_) (ends _)
  rcases either with rfl | rfl <;> rfl

theorem survives_recordMigration {version : Int} {faults : List Fault} {file : Image σ}
    {contents : σ}
    (fresh : version ∉ versions) :
    Survives (step sql) (fun f => f.2.file = file ∨ f.2.file = ⟨contents, some (versions ++ [version])⟩)
      (recordMigration version : Opening ρ MigrateError Unit) (faults, ⟨file, some ⟨contents, some versions⟩⟩)
      (Ends faults (fun _ conn => conn.file = ⟨contents, some (versions ++ [version])⟩) False) := by
  have inserted : Connection.answer sql (.insertVersion version) ⟨file, some ⟨contents, some versions⟩⟩ =
      (.ok (), ⟨file, some ⟨contents, some (versions ++ [version])⟩⟩) := by
    simp only [Connection.answer, Connection.insertVersion, if_neg fresh]
    rfl
  refine survives_statement (.inl rfl) (fun later begun => ?_) fun faulty later left either => ?_
  · rw [inserted]
    refine survives_statement (.inl rfl) (fun last ended => ?_) fun faulty last left either => ?_
    · exact survives_pure (.inr rfl) ⟨fun empty => ended (begun empty), rfl⟩
    · refine survives_stop ?_ fun empty => absurd (begun empty) faulty
      rcases either with rfl | rfl
      · exact .inl rfl
      · exact .inr rfl
  · refine survives_rollback (fun f same => .inl (same.trans ?_)) fun f empty => absurd empty faulty
    rcases either with rfl | rfl
    · rfl
    · rw [inserted]

theorem survives_applyMigration {m : Migration ρ} {faults : List Fault} {conn : Connection σ}
    (recorded : conn.file.versions = some versions) (fresh : m.version ∉ versions) :
    Survives (step sql) (fun f => f.2.file = conn.file ∨ Migrated sql m conn.file f.2.file) (applyMigration m) (faults, conn)
      (Ends faults (fun _ after => Migrated sql m conn.file after.file)
        ((m.up.attempt sql conn.file.contents).toOption = none)) := by
  have body (later : List Fault) : Survives (step sql) (fun f => f.2.file = conn.file ∨ Migrated sql m conn.file f.2.file)
      ((issue m.up).catching fun err => rollback (.migration m.version m.name err)) (later, ⟨conn.file, some conn.file⟩)
      (Ends later (fun _ left => ∃ contents, m.up.attempt sql conn.file.contents = .ok ((), contents) ∧
          left = ⟨conn.file, some ⟨contents, conn.file.versions⟩⟩)
        ((m.up.attempt sql conn.file.contents).toOption = none)) := by
    refine ((survives_issue m.up later conn.file conn.file).weaken fun _ => .inl).catching
      (fun _ _ _ ends => ends) ?_
    exact fun err f holds ends => survives_rollback (fun left same => same ▸ holds) fun _ => ends
  refine survives_statement (.inl rfl) (fun later begun => ?_) fun faulty later left either => ?_
  · refine (body later).then (fun _ f _ ends => ?_) fun err f _ ends empty => ends (begun empty)
    obtain ⟨last, contents, ran, left⟩ := ends
    obtain ⟨faults', left'⟩ := f
    obtain rfl : left' = _ := left
    rw [recorded]
    have migrated : Migrated sql m conn.file ⟨contents, some (versions ++ [m.version])⟩ :=
      ⟨ran, by rw [recorded]; rfl⟩
    refine ((survives_recordMigration fresh).weaken fun f either => either.imp_right fun moved => ?_).mono fun r f _ ends => ?_
    · rw [moved]
      exact migrated
    · cases r with
      | ok a =>
        obtain ⟨none, moved⟩ := ends
        refine ⟨fun empty => none (last (begun empty)), ?_⟩
        dsimp only
        rw [moved]
        exact migrated
      | error err => exact fun empty => (ends (last (begun empty))).elim
  · refine survives_stop ?_ fun empty => absurd empty faulty
    rcases either with rfl | rfl <;> exact .inl rfl

structure Applied (sql : (c : ι) → σ → Except SqlError (ρ c × σ)) (new : σ)
    (done : List (Migration ρ)) (file : Image σ) : Prop where
  contents : applyAll sql done new = some file.contents
  versions : file.versions.getD [] = done.map Migration.version

def Increasing (migs : List (Migration ρ)) : Prop :=
  migs.Pairwise fun earlier later => earlier.version < later.version

variable {new : σ} {done pending migs known : List (Migration ρ)} {file after : Image σ} {m : Migration ρ}

theorem applyAll_append (first second : List (Migration ρ)) (contents : σ) :
    applyAll sql (first ++ second) contents =
      (applyAll sql first contents).bind (applyAll sql second) := by
  induction first generalizing contents with
  | nil => rfl
  | cons m rest ih =>
    rw [List.cons_append, applyAll, applyAll]
    cases m.up.attempt sql contents with
    | error err => rfl
    | ok ran => exact ih ran.2

theorem Applied.next (applied : Applied sql new done file) (migrated : Migrated sql m file after) :
    Applied sql new (done ++ [m]) after := by
  refine ⟨?_, ?_⟩
  · rw [applyAll_append, applied.contents, Option.bind_some, applyAll, migrated.1]
    rfl
  · rw [migrated.2, applied.versions, List.map_append]
    rfl

theorem survives_pending {faults : List Fault} {conn : Connection σ}
    (applied : Applied sql new done conn.file)
    (recorded : conn.file.versions.isSome) (increasing : Increasing (done ++ pending))
    (later : ∀ m ∈ pending, current < m.version) :
    Survives (step sql) (fun f => ∃ now, done <+: now ∧ now <+: done ++ pending ∧ Applied sql new now f.2.file)
      (pending.forM fun m => if m.version ≤ current then pure () else applyMigration m) (faults, conn)
      (Ends faults (fun _ left => Applied sql new (done ++ pending) left.file)
        (applyAll sql (done ++ pending) new = none)) := by
  induction pending generalizing done faults conn with
  | nil =>
    rw [List.append_nil]
    exact survives_pure ⟨done, List.prefix_rfl, List.prefix_rfl, applied⟩ ⟨id, applied⟩
  | cons m rest ih =>
    obtain ⟨pends, laterRest⟩ := List.forall_mem_cons.mp later
    obtain ⟨versions, isSome⟩ := Option.isSome_iff_exists.mp recorded
    have fresh : m.version ∉ versions := by
      have own : versions = done.map Migration.version := by simpa [isSome] using applied.versions
      rw [own]
      intro mem
      obtain ⟨earlier, applied, same⟩ := List.mem_map.mp mem
      have before := (List.pairwise_append.mp increasing).2.2 earlier applied m List.mem_cons_self
      omega
    have whole : done ++ m :: rest = done ++ [m] ++ rest := by simp
    have mine (f : Faulty σ) (either : f.2.file = conn.file ∨ Migrated sql m conn.file f.2.file) :
        ∃ now, done <+: now ∧ now <+: done ++ m :: rest ∧ Applied sql new now f.2.file := by
      rcases either with same | migrated
      · exact ⟨done, List.prefix_rfl, List.prefix_append _ _, same ▸ applied⟩
      · exact ⟨done ++ [m], List.prefix_append _ _, whole ▸ List.prefix_append _ _,
          applied.next migrated⟩
    rw [List.forM_eq_forM, List.forM_cons, if_neg (Int.not_le.mpr pends)]
    refine ((survives_applyMigration isSome fresh).weaken mine).then
      (fun _ f _ ends => ?_) fun err f _ ends empty => ?_
    · obtain ⟨none, migrated⟩ := ends
      rw [whole] at increasing ⊢
      have recorded : f.2.file.versions.isSome := by simp [migrated.2]
      refine ((@ih _ f.1 f.2 (applied.next migrated) recorded increasing laterRest).weaken fun g reached => ?_).mono
        fun r g _ ends => ?_
      · obtain ⟨now, started, le, applied⟩ := reached
        exact ⟨now, (List.prefix_append _ _).trans started, le, applied⟩
      · cases r with
        | ok a => exact ⟨fun empty => ends.1 (none empty), ends.2⟩
        | error err => exact fun empty => ends (none empty)
    · rw [applyAll_append, applied.contents, Option.bind_some, applyAll]
      cases run : m.up.attempt sql conn.file.contents with
      | error err => rfl
      | ok ran =>
        have none : (m.up.attempt sql conn.file.contents).toOption = none := ends empty
        rw [run] at none
        cases none

theorem coalesceMax_eq (increasing : versions.Pairwise (· < ·)) :
    coalesceMax versions = versions.getLast?.getD 0 := by
  rcases versions.eq_nil_or_concat' with rfl | ⟨init, last, rfl⟩
  · rfl
  · have greatest : (init ++ [last]).max? = some last := by
      refine List.max?_eq_some_iff.mpr ⟨by simp, fun v mem => ?_⟩
      rcases List.mem_append.mp mem with before | same
      · exact Int.le_of_lt ((List.pairwise_append.mp increasing).2.2 v before last (by simp))
      · exact Int.le_of_eq (List.mem_singleton.mp same)
    rw [coalesceMax, greatest, List.getLast?_concat]

theorem Applied.version (applied : Applied sql new done file) (increasing : Increasing done) :
    file.version = lastVersion done := by
  rw [Image.version, applied.versions, coalesceMax_eq (List.pairwise_map.mpr increasing),
    lastVersion, List.getLast?_map]

section Prefixes

variable (increasing : Increasing migs) (positive : ∀ m ∈ migs, 0 < m.version)
include increasing positive

theorem lastVersion_lt (le : known <+: migs) (shorter : known ≠ migs) :
    lastVersion known < lastVersion migs := by
  obtain ⟨rest, rfl⟩ := le
  have more : rest ≠ [] := fun none => shorter (by rw [none, List.append_nil])
  obtain ⟨init, last, rfl⟩ := rest.eq_nil_or_concat'.resolve_left more
  have final : lastVersion (known ++ (init ++ [last])) = last.version := by
    rw [← List.append_assoc, lastVersion, List.getLast?_concat]
    rfl
  rw [final, lastVersion]
  cases ends : known.getLast? with
  | none => exact positive last (by simp)
  | some m => exact (List.pairwise_append.mp increasing).2.2 m (List.mem_of_getLast? ends) last (by simp)

theorem prefix_of_lastVersion_le (applied : done <+: migs) (older : known <+: migs)
    (le : lastVersion done ≤ lastVersion known) : done <+: known := by
  rcases List.prefix_or_prefix_of_prefix applied older with known | fewer
  · exact known
  · by_cases same : known = done
    · rw [same]
    · have sub := applied.sublist
      exact absurd (lastVersion_lt (increasing.sublist sub)
        (fun m mem => positive m (sub.mem mem)) fewer same) (by omega)

end Prefixes

def withTable (file : Image σ) : Image σ := ⟨file.contents, some (file.versions.getD [])⟩

theorem Applied.withTable (applied : Applied sql new done file) :
    Applied sql new done (withTable file) :=
  ⟨applied.contents, applied.versions⟩

theorem survives_applyMigrations {inv : Faulty σ → Prop}
    {post : Except MigrateError Unit → Faulty σ → Prop}
    {faults : List Fault} {tx : Option (Image σ)}
    (holds : ∀ left : Faulty σ, left.2.file = file ∨ left.2.file = withTable file → inv left)
    (failed : faults ≠ [] → ∀ err (left : Faulty σ), left.2.file = file ∨ left.2.file = withTable file → post (.error err) left)
    (rest : ∀ later, (faults = [] → later = []) →
      Survives (step sql) inv (applyPending known file.version) (later, ⟨withTable file, tx⟩) post) :
    Survives (step sql) inv (applyMigrations known) (faults, ⟨file, tx⟩) post := by
  refine survives_statement (holds _ (.inl rfl))
    (fun later begun => ?_) fun faulty later left either => ?_
  · refine survives_statement (holds _ (.inr rfl))
      (fun last ended => rest last fun empty => ended (begun empty))
      fun faulty last left either => ?_
    have same : left.file = withTable file := by rcases either with rfl | rfl <;> rfl
    exact survives_stop (holds _ (.inr same))
      (failed (fun empty => faulty (begun empty)) _ _ (.inr same))
  · have either : left.file = file ∨ left.file = withTable file :=
      either.imp (congrArg _) (congrArg _)
    exact survives_stop (holds _ either) (failed faulty _ _ either)

theorem forM_applied (before : ∀ m ∈ done, m.version ≤ current) :
    ((done ++ pending).forM fun m => if m.version ≤ current then pure () else applyMigration m : Opening ρ MigrateError Unit) =
      pending.forM fun m => if m.version ≤ current then pure () else applyMigration m := by
  induction done with
  | nil => rfl
  | cons m rest ih =>
    obtain ⟨first, others⟩ := List.forall_mem_cons.mp before
    rw [List.cons_append, List.forM_eq_forM, List.forM_cons, if_pos first]
    exact ih others

theorem le_lastVersion (increasing : Increasing done) :
    ∀ m ∈ done, m.version ≤ lastVersion done := by
  rcases done.eq_nil_or_concat' with rfl | ⟨init, last, rfl⟩
  · exact nofun
  · intro m mem
    rw [lastVersion, List.getLast?_concat]
    rcases List.mem_append.mp mem with before | same
    · exact Int.le_of_lt ((List.pairwise_append.mp increasing).2.2 m before last (by simp))
    · exact Int.le_of_eq (congrArg _ (List.mem_singleton.mp same))

theorem lastVersion_nonneg (positive : ∀ m ∈ known, 0 < m.version) : 0 ≤ lastVersion known := by
  rw [lastVersion]
  cases ends : known.getLast? with
  | none => exact Int.le_refl 0
  | some m => exact Int.le_of_lt (positive m (List.mem_of_getLast? ends))

theorem survives_known {faults : List Fault} {tx : Option (Image σ)}
    (increasing : Increasing (done ++ pending))
    (positive : ∀ m ∈ done ++ pending, 0 < m.version) (applied : Applied sql new done file) :
    Survives (step sql) (fun f => ∃ now, now <+: done ++ pending ∧ Applied sql new now f.2.file)
      (applyMigrations (done ++ pending)) (faults, ⟨file, tx⟩)
      (Ends faults (fun _ left => Applied sql new (done ++ pending) left.file) (applyAll sql (done ++ pending) new = none)) := by
  obtain ⟨incDone, -, between⟩ := List.pairwise_append.mp increasing
  have version : file.version = lastVersion done := applied.version incDone
  have reached : ¬file.version > lastVersion (done ++ pending) := by
    rw [version]
    by_cases same : done = done ++ pending
    · rw [← same]
      exact Int.lt_irrefl _
    · exact Int.not_lt.mpr (Int.le_of_lt (lastVersion_lt increasing positive (List.prefix_append _ _) same))
  have later : ∀ m ∈ pending, file.version < m.version := by
    intro m mem
    rw [version, lastVersion]
    cases ends : done.getLast? with
    | none => exact positive m (List.mem_append_right _ mem)
    | some last => exact between last (List.mem_of_getLast? ends) m mem
  refine survives_applyMigrations (fun left either => ⟨done, List.prefix_append _ _, ?_⟩)
    (fun faulty _ _ _ empty => absurd empty faulty) fun last begun => ?_
  · rcases either with same | same
    · exact same ▸ applied
    · exact same ▸ applied.withTable
  · rw [applyPending, if_neg reached,
      forM_applied fun m mem => version ▸ le_lastVersion incDone m mem]
    refine ((survives_pending applied.withTable rfl increasing later).weaken fun f reached => ?_).mono fun r f _ ends => ?_
    · obtain ⟨now, -, le, applied⟩ := reached
      exact ⟨now, le, applied⟩
    · cases r with
      | ok a => exact ⟨fun empty => ends.1 (begun empty), ends.2⟩
      | error err => exact fun empty => ends (begun empty)

theorem survives_newer {faults : List Fault} {tx : Option (Image σ)}
    (positive : ∀ m ∈ known, 0 < m.version)
    (newer : lastVersion known < file.version) :
    Survives (step sql) (fun f => f.2.file = file) (applyMigrations known) (faults, ⟨file, tx⟩) (fun r _ => r.isOk = false) := by
  have table : withTable file = file := by
    obtain ⟨contents, versions⟩ := file
    cases versions with
    | none => exact absurd (Int.lt_of_le_of_lt (lastVersion_nonneg positive) newer) (Int.lt_irrefl 0)
    | some versions => rfl
  refine survives_applyMigrations (fun left either => ?_) (fun _ _ _ _ => rfl) fun later _ => ?_
  · exact either.elim id fun same => same.trans table
  · rw [applyPending, if_pos newer]
    exact survives_stop table rfl

theorem Opened.applied (increasing : Increasing migs) (positive : ∀ m ∈ migs, 0 < m.version)
    (opened : Opened sql migs new file) : ∃ done, done <+: migs ∧ Applied sql new done file := by
  induction opened with
  | new => exact ⟨[], List.nil_prefix, rfl, rfl⟩
  | @opens file before known older faults left cut ih =>
    obtain ⟨done, le, applied⟩ := ih
    have positiveKnown := fun m mem => positive m (older.sublist.mem mem)
    have version : file.version = lastVersion done :=
      applied.version (increasing.sublist le.sublist)
    by_cases newer : lastVersion known < file.version
    · have same : left.2.file = file := (survives_newer positiveKnown newer).cut left cut
      exact ⟨done, le, same ▸ applied⟩
    · have reached : lastVersion done ≤ lastVersion known := version ▸ Int.not_lt.mp newer
      obtain ⟨pending, rfl⟩ := prefix_of_lastVersion_le increasing positive le older reached
      obtain ⟨now, leNow, applied⟩ :=
        (survives_known (increasing.sublist older.sublist) positiveKnown applied).cut left cut
      exact ⟨now, leNow.trans older, applied⟩

/-- The file always has the effect of some first migrations, once each, and the version of the last of
them. A binary with fewer migrations leaves it as it is and fails. An open that succeeds has applied
all of its own, and it does succeed when no statement fails. -/
theorem migrations_apply_once (increasing : Increasing migs) (positive : ∀ m ∈ migs, 0 < m.version)
    (opened : Opened sql migs new file) :
    (∃ done, done <+: migs ∧ applyAll sql done new = some file.contents ∧ file.version = lastVersion done) ∧
      (∀ known, known <+: migs → lastVersion known < file.version → ∀ faults,
        (∀ left, (applyMigrations known).Cut (step sql) (faults, ⟨file, none⟩) left → left.2.file = file) ∧
          ((applyMigrations known).run (step sql) (faults, ⟨file, none⟩)).1.isOk = false) ∧
      (∀ faults left, (applyMigrations migs).run (step sql) (faults, ⟨file, none⟩) = (.ok (), left) →
        applyAll sql migs new = some left.2.file.contents ∧ left.2.file.version = lastVersion migs) ∧
      ((applyAll sql migs new).isSome → ((applyMigrations migs).run (step sql) ([], ⟨file, none⟩)).1.isOk) := by
  obtain ⟨done, le, applied⟩ := Opened.applied increasing positive opened
  refine ⟨⟨done, le, applied.contents, applied.version (increasing.sublist le.sublist)⟩,
    fun known older newer faults => ?_, ?_⟩
  · have survives := @survives_newer _ _ _ sql known file faults none (fun m mem => positive m (older.sublist.mem mem)) newer
    exact ⟨survives.cut, survives.ends⟩
  · obtain ⟨pending, rfl⟩ := le
    have ends (faults : List Fault) :=
      (@survives_known _ _ _ sql new done pending file faults none increasing positive applied).ends
    refine ⟨fun faults left ran => ?_, fun applies => ?_⟩
    · have ends := ends faults
      rw [ran] at ends
      exact ⟨ends.2.contents, ends.2.version increasing⟩
    · have ends := ends []
      revert ends
      cases ((applyMigrations (done ++ pending)).run (step sql) ([], ⟨file, none⟩)).1 with
      | ok a => exact fun _ => rfl
      | error err =>
        intro ends
        rw [ends rfl] at applies
        cases applies

def noted (c : Nat) (notes : List Nat) : Except SqlError (Unit × List Nat) := .ok ((), notes ++ [c])

def twoMigrations : List (Migration fun _ : Nat => Unit) :=
  [⟨1, "objects", perform 10⟩, ⟨2, "blobs", perform 20⟩]

theorem migrations_apply_once_two :
    ((applyMigrations (twoMigrations.take 1)).run (step noted) ([], ⟨⟨[10, 20], some [1, 2]⟩, none⟩)).1.isOk = false := by
  have ran : ((applyMigrations twoMigrations).run (step noted) ([], ⟨⟨[], none⟩, none⟩)).2 =
      ([], ⟨⟨[10, 20], some [1, 2]⟩, none⟩) := by decide +kernel
  have opened : Opened noted twoMigrations [] ⟨[10, 20], some [1, 2]⟩ :=
    .opens .new List.prefix_rfl [] (ran ▸ cut_run (applyMigrations twoMigrations) _)
  have increasing : Increasing twoMigrations := by simp [Increasing, twoMigrations]
  have positive : ∀ m ∈ twoMigrations, 0 < m.version := by simp [twoMigrations]
  exact ((migrations_apply_once increasing positive opened).2.1 _ (List.take_prefix 1 _)
    (by decide) []).2

end CincServer.Proof.Store
