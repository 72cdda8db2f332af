import CincServer.Lib.Journal
import CincServer.Store.Statements

/-!
# What a concurrent `Delete` returns on SQLite
-/

namespace CincServer.Proof.Store
open CincServer.Store Go Lib
open KeyWrite (issue)
open Statement (exec objDelete)

variable {V : Type} {row : ObjectKey} {start db db' : Database V}

abbrev RowJournal (V : Type) :=
  Journal (KeyWrite V) (Statement.Result (V := V)) StoreError (Reply V) (Database V)

abbrev RowRules (V : Type) :=
  Allows (KeyWrite V) (Statement.Result (V := V)) StoreError (Reply V) (Database V)

/-- A statement changes the row only once every other call that has started has ended. -/
def Undisturbed (row : ObjectKey) : RowRules V := fun _ c db others =>
  (c.exec db).2.objects.lookup row ≠ db.objects.lookup row → ∀ other ∈ others, other.rest.ended

def anyOrder : RowRules V := fun _ _ _ _ => True

def reported : Issued V (Reply V) → Option V
  | .ret (.body old) => old
  | _ => none

def rows (row : ObjectKey) (db : Database V) : Nat := if (db.objects.lookup row).isSome then 1 else 0

def appearances (row : ObjectKey) : List (Statement V) → Database V → Nat
  | [], _ => 0
  | c :: rest, db =>
    (if db.objects.lookup row = none ∧ ((c.exec db).2.objects.lookup row).isSome then 1 else 0) +
      appearances row rest (c.exec db).2

theorem appearances_concat (calls : List (Statement V)) (c : Statement V) (db : Database V) :
    appearances row (calls ++ [c]) db = appearances row calls db +
      appearances row [c] (replay exec calls db) := by
  induction calls generalizing db with
  | nil => exact (Nat.zero_add _).symm
  | cons first rest ih =>
    rw [List.cons_append, appearances, ih, ← Nat.add_assoc]
    rfl

theorem rows_exec_le (row : ObjectKey) (c : Statement V) (db : Database V) :
    rows row (c.exec db).2 ≤ rows row db + appearances row [c] db := by
  simp only [rows, appearances, Nat.add_zero]
  cases db.objects.lookup row <;> cases (c.exec db).2.objects.lookup row <;> simp

inductive Remains (row : ObjectKey) (db : Database V) : Issued V (Reply V) → Prop
  | ended {rest : Issued V (Reply V)} (finished : rest.ended) : Remains row db rest
  | deleting {old : V} (read : db.objects.lookup row = some old) :
      Remains row db (.call (.objDelete row) fun _ => .ret (.body (some old)))

theorem Remains.keep {rest : Issued V (Reply V)} (remains : Remains row db rest)
    (alone : db'.objects.lookup row ≠ db.objects.lookup row → rest.ended) :
    Remains row db' rest := by
  cases remains with
  | ended finished => exact .ended finished
  | deleting read =>
    by_cases same : db'.objects.lookup row = db.objects.lookup row
    · exact .deleting (same.trans read)
    · exact .ended (alone same)

theorem remains_issue {write : KeyWrite V} {c : Statement V} {next : c.Result → Issued V (Reply V)}
    (is : write.issue row = .call c next) (db : Database V) :
    Remains row (c.exec db).2 (next (c.exec db).1) ∧ reported (next (c.exec db).1) = none := by
  cases write with
  | put val =>
    cases is
    exact ⟨.ended rfl, rfl⟩
  | create val =>
    cases is
    show Remains row _ (if (db.objects.insertOrIgnore row val).2 = 0 then _ else _) ∧
      reported (if (db.objects.insertOrIgnore row val).2 = 0 then _ else _) = none
    split
    all_goals exact ⟨.ended rfl, rfl⟩
  | delete =>
    cases is
    simp only [exec]
    cases read : db.objects.lookup row with
    | none => exact ⟨.ended rfl, rfl⟩
    | some old => exact ⟨.deleting read, rfl⟩

def Removed (row : ObjectKey) (start : Database V) (calls : List (Nat × Statement V))
    (number : Nat) (value : V) : Prop :=
  ∃ k, calls[k]? = some (number, .objDelete row) ∧
    (replay exec ((calls.take k).map Prod.snd) start).objects.lookup row = some value

theorem Removed.more {calls : List (Nat × Statement V)} {number : Nat} {value : V}
    (removed : Removed row start calls number value) (call : Nat × Statement V) :
    Removed row start (calls ++ [call]) number value := by
  obtain ⟨k, made, held⟩ := removed
  have inRange := (List.getElem?_eq_some_iff.mp made).1
  refine ⟨k, ?_, ?_⟩
  · rw [List.getElem?_append_left inRange, made]
  · rwa [List.take_append_of_le_length (Nat.le_of_lt inRange)]

structure Accounted (row : ObjectKey) (start : Database V) (j : RowJournal V) : Prop where
  remains : ∀ entry ∈ j.entries, Remains row j.state entry.rest
  removed : ∀ entry ∈ j.entries, ∀ value, reported entry.rest = some value →
    Removed row start j.calls entry.number value
  counted : j.entries.countP (fun entry => (reported entry.rest).isSome) + rows row j.state ≤
    appearances row (j.calls.map Prod.snd) start + rows row start

theorem Accounted.move {j j' : RowJournal V} (accounted : Accounted row start j)
    (replayed : j.state = replay exec (j.calls.map Prod.snd) start)
    (moved : Journal.Step exec (issue row) (Undisturbed row) j j') : Accounted row start j' := by
  obtain ⟨remains, removed, counted⟩ := accounted
  rcases moved with ⟨label, starts⟩ | goes
  · cases starts with
    | @first s entries calls n c next is alone =>
      obtain ⟨left, silent⟩ := remains_issue is s
      have grown := rows_exec_le row c s
      refine ⟨?_, ?_, ?_⟩
      · exact List.forall_mem_cons.mpr ⟨left,
          fun entry mem => (remains entry mem).keep fun changed => alone changed entry mem⟩
      · refine List.forall_mem_cons.mpr ⟨fun value returned => ?_, fun entry mem value returned => ?_⟩
        · rw [silent] at returned
          cases returned
        · exact (removed entry mem value returned).more _
      · rw [List.countP_cons_of_neg (by simpa using silent), List.map_append, List.map_singleton,
          appearances_concat, ← replayed]
        dsimp only at counted ⊢
        omega
  · cases goes with
    | @call s before after calls n number label c next alone =>
      obtain ⟨own, others⟩ := forall_mem_middle.mp remains
      obtain ⟨-, earlier⟩ := forall_mem_middle.mp removed
      cases own with
      | ended finished => cases finished
      | @deleting old read =>
        have gone : ((objDelete row : Statement V).exec s).2.objects.lookup row = none := by
          simp [exec, Table.lookup_deleteWhere]
        refine ⟨?_, ?_, ?_⟩
        · exact forall_mem_middle.mpr ⟨.ended rfl,
            fun entry mem => (others entry mem).keep fun changed =>
            alone changed entry mem⟩
        · refine forall_mem_middle.mpr ⟨fun value returned => ?_, fun entry mem value returned => ?_⟩
          · cases returned
            refine ⟨calls.length, by simp, ?_⟩
            rw [List.take_left, ← replayed]
            exact read
          · exact (earlier entry mem value returned).more _
        · rw [List.map_append, List.map_singleton, appearances_concat]
          have before : rows row s = 1 := by simp [rows, read]
          have after : rows row ((objDelete row : Statement V).exec s).2 = 0 := by simp [rows, gone]
          simp only [List.countP_append, List.countP_cons, before, after, reported, Option.isSome_none,
            Option.isSome_some, Bool.false_eq_true, if_true, if_false] at counted ⊢
          omega

theorem accounted_of_reaches {j : RowJournal V}
    (reached : Journal.Reaches exec (issue row) (Undisturbed row) (.initial start) j) :
    Accounted row start j := by
  induction reached with
  | refl => exact ⟨by simp [Journal.initial], by simp [Journal.initial], by simp [Journal.initial]⟩
  | tail before moved ih => exact ih.move (Journal.Reaches.replayed before) moved

/-- When no statement changes the row while another `Delete` is between its two statements, every
`Delete` that reports a value deleted that value itself, and there are no more of them than times the
row appeared, its presence at the start included. -/
theorem each_value_deleted_once {j : RowJournal V}
    (reached : Journal.Reaches exec (issue row) (Undisturbed row) (.initial start) j) :
    (∀ entry ∈ j.entries, ∀ value, reported entry.rest = some value → Removed row start j.calls entry.number value) ∧
    j.entries.countP (fun entry => (reported entry.rest).isSome) ≤
      appearances row (j.calls.map Prod.snd) start + rows row start := by
  obtain ⟨-, removed, counted⟩ := accounted_of_reaches reached
  exact ⟨removed, Nat.le_trans (Nat.le_add_right ..) counted⟩

instance [DecidableEq V] (row : ObjectKey) (label : KeyWrite V) (c : Statement V) (db : Database V)
    (others : List (Entry (KeyWrite V) Statement.Result StoreError (Reply V))) :
    Decidable (Undisturbed row label c db others) := inferInstanceAs (Decidable (_ → _))

instance (label : KeyWrite V) (c : Statement V) (db : Database V)
    (others : List (Entry (KeyWrite V) Statement.Result StoreError (Reply V))) :
    Decidable (anyOrder label c db others) := .isTrue trivial

def web : ObjectKey := ⟨lit "acme", lit "nodes", lit "web"⟩

theorem deletes_in_turn :
    ∃ j : RowJournal Nat, Journal.moves exec (issue web) (Undisturbed web) (.initial newDatabase)
        [.start (.put 1), .start .delete, .go 0, .start .delete, .start (.put 2)] = some j ∧
      j.entries.map (fun entry => reported entry.rest) = [none, none, some 1, none] ∧
      j.entries.countP (fun entry => (reported entry.rest).isSome) ≤
        appearances web (j.calls.map Prod.snd) newDatabase + rows web (newDatabase : Database Nat) := by
  have closed : (Journal.moves exec (issue web) (Undisturbed web) (.initial newDatabase)
      [.start (.put 1), .start .delete, .go 0, .start .delete, .start (.put 2)]).map (fun j : RowJournal Nat =>
        decide (j.entries.map (fun entry => reported entry.rest) = [none, none, some 1, none])) = some true := by
    decide +kernel
  obtain ⟨j, made, checked⟩ := Option.map_eq_some_iff.mp closed
  exact ⟨j, made, of_decide_eq_true checked,
    (each_value_deleted_once (Journal.reaches_of_moves made)).2⟩

theorem value_deleted_twice :
    (∃ j : RowJournal Nat, Journal.Reaches exec (issue web) anyOrder (.initial newDatabase) j ∧
      appearances web (j.calls.map Prod.snd) newDatabase + rows web (newDatabase : Database Nat) <
        j.entries.countP (fun entry => (reported entry.rest).isSome)) ∧
    ∃ j : RowJournal Nat, Journal.Reaches exec (issue web) anyOrder (.initial newDatabase) j ∧
      ∃ entry ∈ j.entries, reported entry.rest = some 1 ∧
        ¬ Removed web newDatabase j.calls entry.number 1 := by
  constructor
  · exact Journal.exists_of_moves [.start (.put 1), .start .delete, .start .delete, .go 0,
      .go 1] (by decide +kernel)
  · have closed : (Journal.moves exec (issue web) anyOrder (.initial newDatabase)
        [.start (.put 1), .start .delete, .start (.put 2), .go 1]).map (fun j : RowJournal Nat =>
          decide (∃ entry ∈ j.entries, reported entry.rest = some 1 ∧
            ∀ k < j.calls.length, j.calls[k]? = some (entry.number, .objDelete web) →
              (replay exec ((j.calls.take k).map Prod.snd) newDatabase).objects.lookup web ≠ some 1)) =
        some true := by decide +kernel
    obtain ⟨j, made, entry, mem, returned, other⟩ := exists_of_decided closed
    refine ⟨j, Journal.reaches_of_moves made, entry, mem, returned, ?_⟩
    rintro ⟨k, made, held⟩
    exact other k (List.getElem?_eq_some_iff.mp made).1 made held

end CincServer.Proof.Store
