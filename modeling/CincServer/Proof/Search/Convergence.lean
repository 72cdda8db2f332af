import CincServer.Lib.Transition
import CincServer.Proof.Search.Index
import Mathlib.Data.List.Dedup

/-!
# When the search index converges
-/

namespace CincServer.Proof.Search
open CincServer.Search CincServer.Json Go
open Std.ExtTreeMap (getElem?_erase getElem?_insert map_fst_toList_eq_keys nodup_keys mem_keys ext_getElem?)

variable {s : System} {h i : Nat} {flight : InFlight} {ev : Event} {corpus : Corpus} {idx : CollIndex}
  {s' : System} {key : GoString} {c : CollIndex} {cell : Cell}

def flights (s : System) (key : GoString) : List InFlight :=
  s.inFlight.filter fun flight => flight.event.key = key

structure KeyOrder (s : System) (key : GoString) : Prop where
  waiting : ∀ flight ∈ (flights s key).tail, flight.observing = none
  latest : ∀ flight, (flights s key).getLast? = some flight → s.store[key]? = flight.event.value

theorem KeyOrder.congr (order : KeyOrder s key) (same : flights s' key = flights s key)
    (store : s'.store[key]? = s.store[key]?) : KeyOrder s' key := by
  refine ⟨?_, fun flight last => store.trans (order.latest flight ?_)⟩
  · rw [same]
    exact order.waiting
  · rwa [same] at last

theorem KeyOrder.delivered {first : InFlight} {rest : List InFlight} (order : KeyOrder s key)
    (before : flights s key = first :: rest) (after : flights s' key = rest)
    (store : s'.store = s.store) :
    KeyOrder s' key := by
  refine ⟨fun flight member => ?_, fun flight last => ?_⟩
  · rw [after] at member
    exact order.waiting flight (by rw [before]; exact List.mem_of_mem_tail member)
  · rw [after] at last
    rw [store]
    refine order.latest flight ?_
    rw [before, List.getLast?_cons, last]
    rfl

def Settled (s : System) (h : Nat) (key : GoString) : Prop :=
  ∀ flight ∈ flights s key, ∃ other, other ≠ h ∧ flight.observing = some other

theorem Settled.congr (same : flights s' key = flights s key) (settled : Settled s' h key) :
    Settled s h key := by
  rwa [Settled, ← same]

theorem flights_commit (s : System) (store : GoMap Raw) (ev : Event) (key : GoString) :
    flights (s.commit store ev) key =
      if ev.key = key then flights s key ++ [⟨ev, none⟩] else flights s key := by
  simp only [flights, System.commit, List.filter_append, List.filter_cons, List.filter_nil]
  split_ifs <;> simp_all

theorem inFlight_split (present : s.inFlight[i]? = some flight) :
    s.inFlight = s.inFlight.take i ++ flight :: s.inFlight.drop (i + 1) := by
  obtain ⟨bound, rfl⟩ := List.getElem?_eq_some_iff.mp present
  rw [List.cons_getElem_drop_succ, List.take_append_drop]

theorem flights_split (present : s.inFlight[i]? = some flight)
    (key : GoString) : flights s key = (s.inFlight.take i).filter (fun f => f.event.key = key) ++
      (flight :: s.inFlight.drop (i + 1)).filter fun f => f.event.key = key := by
  rw [← List.filter_append, ← inFlight_split present, flights]

theorem KeyOrder.first (present : s.inFlight[i]? = some ⟨ev, some h⟩) (order : KeyOrder s ev.key) :
    ∀ earlier ∈ s.inFlight.take i, earlier.event.key ≠ ev.key := by
  intro earlier member same
  have kept : earlier ∈ (s.inFlight.take i).filter fun f => f.event.key = ev.key :=
    List.mem_filter.mpr ⟨member, by simpa using same⟩
  obtain ⟨first, others, earliest⟩ := List.exists_cons_of_ne_nil (List.ne_nil_of_mem kept)
  have late := order.waiting ⟨ev, some h⟩
  rw [flights_split present, earliest, List.filter_cons_of_pos (by simp)] at late
  cases late (by simp)

theorem flights_replace (present : s.inFlight[i]? = some flight)
    (first : ∀ earlier ∈ s.inFlight.take i, earlier.event.key ≠ flight.event.key)
    (replacement : List InFlight) (same : ∀ new ∈ replacement, new.event.key = flight.event.key) :
    ∃ rest, flights s flight.event.key = flight :: rest ∧
      (∀ s', s'.inFlight = s.replaceFlight i replacement →
        flights s' flight.event.key = replacement ++ rest ∧
          ∀ key, key ≠ flight.event.key → flights s' key = flights s key) := by
  have none : (s.inFlight.take i).filter (fun f => f.event.key = flight.event.key) = [] := by
    simpa [List.filter_eq_nil_iff] using first
  have all : replacement.filter (fun f => f.event.key = flight.event.key) = replacement := by
    simpa [List.filter_eq_self] using same
  refine ⟨(s.inFlight.drop (i + 1)).filter fun f => f.event.key = flight.event.key, ?_, ?_⟩
  · rw [flights_split present, none, List.filter_cons_of_pos (by simp), List.nil_append]
  · intro s' replaced
    constructor
    · rw [flights, replaced, System.replaceFlight, List.filter_append, List.filter_append, none,
        all, List.nil_append]
    · intro key other
      have dropped : replacement.filter (fun f => f.event.key = key) = [] := by
        rw [List.filter_eq_nil_iff]
        intro new member
        simpa [same new member] using Ne.symm other
      rw [flights, replaced, System.replaceFlight, List.filter_append, List.filter_append, dropped,
        List.append_nil, flights_split present,
        List.filter_cons_of_neg (by simpa using Ne.symm other)]

section Runs
variable [Unicode]

inductive Reachable : System → Prop
  | start (merge : Bool) (store : GoMap Raw) : Reachable (.start merge store)
  | step {s s' : System} (a : Action) : Reachable s → s.step a = some s' → Reachable s'

/-- The event whose delivery starts is the earliest undelivered one of its key. -/
def InOrder (s : System) : Action → Prop
  | .lookup i => ∀ flight, s.inFlight[i]? = some flight →
      ∀ earlier ∈ s.inFlight.take i, earlier.event.key ≠ flight.event.key
  | _ => True

inductive OrderedReachable : System → Prop
  | start (merge : Bool) (store : GoMap Raw) : OrderedReachable (.start merge store)
  | step {s s' : System} (a : Action) : OrderedReachable s → InOrder s a → s.step a = some s' → OrderedReachable s'

def Registered (s : System) (c : CollIndex) : Prop :=
  ∃ h cell, s.registry = some h ∧ s.cells[h]? = some cell ∧ cell.idx = c

omit [Unicode] in
theorem Corpus.getElem?_apply {other : GoString} {fields : Option Fields} : (match fields with
      | none => corpus.erase key
      | some fields => corpus.insert key fields)[other]? =
      if key = other then fields else corpus[other]? := by
  cases fields with
  | none => simp [getElem?_erase]
  | some fields => simp [getElem?_insert]

def indexedAs (merge : Bool) (stored : Option Raw) : Option Fields :=
  stored.bind (searchFields merge)

theorem Holds.observe (holds : Holds c corpus) (ev : Event) :
    ∃ corpus', Holds (c.observe ev) corpus' ∧ ∀ key : GoString, corpus'[key]? =
      if ev.key = key then indexedAs c.merge ev.value else corpus[key]? := by
  obtain ⟨id, value⟩ := ev
  cases value with
  | none =>
    refine ⟨_, holds.apply (.remove id), fun key => ?_⟩
    simp [Corpus.apply, getElem?_erase, indexedAs]
  | some raw =>
    refine ⟨_, holds.apply (.putRaw id raw), fun key => ?_⟩
    simp only [Corpus.apply, indexedAs, Option.bind_some]
    exact Corpus.getElem?_apply

theorem observe_merge (c : CollIndex) (ev : Event) : (c.observe ev).merge = c.merge := by
  unfold CollIndex.observe
  split
  · exact remove_merge c _
  · exact putRaw_merge c _ _

theorem fill_merge (c : CollIndex) (visited : List (GoString × Raw)) :
    (c.fill visited).merge = c.merge := by
  unfold CollIndex.fill
  induction visited generalizing c with
  | nil => rfl
  | cons entry visited ih => rw [List.foldl_cons, ih, putRaw_merge]

theorem Holds.fill (holds : Holds c corpus)
    (visited : List (GoString × Raw)) (distinct : (visited.map Prod.fst).Nodup) :
    ∃ corpus' : Corpus, Holds (c.fill visited) corpus' ∧
      (∀ key raw, (key, raw) ∈ visited → corpus'[key]? = searchFields c.merge raw) ∧
      ∀ key, key ∉ visited.map Prod.fst → corpus'[key]? = corpus[key]? := by
  induction visited generalizing c corpus with
  | nil => exact ⟨corpus, holds, by simp, fun _ _ => rfl⟩
  | cons entry visited ih =>
    obtain ⟨id, raw⟩ := entry
    rw [List.map_cons, List.nodup_cons] at distinct
    obtain ⟨corpus', holds', seen, unseen⟩ := ih (holds.apply (.putRaw id raw)) distinct.2
    rw [apply_merge] at seen
    refine ⟨corpus', holds', ?_, ?_⟩
    · intro key stored member
      rcases List.mem_cons.mp member with same | later
      · obtain ⟨rfl, rfl⟩ := Prod.mk.inj same
        exact (unseen key distinct.1).trans (Corpus.getElem?_apply.trans (if_pos rfl))
      · exact seen key stored later
    · intro key absent
      rw [List.map_cons, List.mem_cons, not_or] at absent
      exact (unseen key absent.2).trans (Corpus.getElem?_apply.trans (if_neg (Ne.symm absent.1)))

theorem holds_build (merge : Bool) (store : GoMap Raw) :
    ∃ corpus, Holds (build merge store) corpus ∧
      ∀ key : GoString, corpus[key]? = indexedAs merge store[key]? := by
  have distinct : (store.toList.map Prod.fst).Nodup := by
    rw [map_fst_toList_eq_keys]
    exact nodup_keys
  obtain ⟨corpus, holds, seen, unseen⟩ := (holds_new merge).fill store.toList distinct
  refine ⟨corpus, holds, fun key => ?_⟩
  cases stored : store[key]? with
  | some raw => exact seen key raw (Std.ExtTreeMap.mem_toList_iff_getElem?_eq_some.mpr stored)
  | none =>
    rw [unseen key]
    · rfl
    · rw [map_fst_toList_eq_keys, mem_keys, mem_iff_exists, stored]
      simp

def Current (s : System) (h : Nat) (c : CollIndex) : Prop :=
  ∃ corpus : Corpus, Holds c corpus ∧ ∀ key, Settled s h key → corpus[key]? = indexedAs s.merge s.store[key]?

structure CellOk (merge : Bool) (cell : Cell) : Prop where
  holds : ∃ corpus, Holds cell.idx corpus
  mode : cell.idx.merge = merge
  fresh : cell.lock = .building → cell.idx = newCollIndex merge

structure Inv (s : System) : Prop where
  keys : ∀ key, KeyOrder s key
  cells : ∀ cell ∈ s.cells, CellOk s.merge cell
  registered : ∀ h, s.registry = some h → ∃ cell, s.cells[h]? = some cell ∧ cell.lock ≠ .failed ∧
    (cell.lock ≠ .building → Current s h cell.idx)

theorem inv_start (merge : Bool) (store : GoMap Raw) : Inv (.start merge store) where
  keys key := ⟨by simp [flights, System.start], by simp [flights, System.start]⟩
  cells := by simp [System.start]
  registered := by simp [System.start]

theorem inv_commit (inv : Inv s) {store : GoMap Raw} (written : store[ev.key]? = ev.value)
    (frame : ∀ key : GoString, key ≠ ev.key → store[key]? = s.store[key]?) :
    Inv (s.commit store ev) where
  keys key := by
    have undelivered := flights_commit s store ev key
    by_cases here : ev.key = key
    · subst here
      rw [if_pos rfl] at undelivered
      refine ⟨fun flight member => ?_, fun flight last => ?_⟩
      · rw [undelivered] at member
        cases old : flights s ev.key with
        | nil => simp [old] at member
        | cons first rest =>
          rw [old, List.cons_append, List.tail_cons, List.mem_append] at member
          rcases member with earlier | newest
          · exact (inv.keys ev.key).waiting flight (by rwa [old])
          · rw [List.mem_singleton.mp newest]
      · rw [undelivered, List.getLast?_append] at last
        cases last
        exact written
    · rw [if_neg here] at undelivered
      exact (inv.keys key).congr undelivered (frame key (Ne.symm here))
  cells := inv.cells
  registered h found := by
    obtain ⟨cell, stored, sound, current⟩ := inv.registered h found
    refine ⟨cell, stored, sound, fun ready => ?_⟩
    obtain ⟨corpus, holds, reads⟩ := current ready
    refine ⟨corpus, holds, fun key settled => ?_⟩
    have undelivered := flights_commit s store ev key
    by_cases here : ev.key = key
    · -- the new event has still to be delivered, so the key is not settled
      rw [if_pos here] at undelivered
      obtain ⟨other, -, observing⟩ := settled ⟨ev, none⟩ (by simp [undelivered])
      cases observing
    · rw [if_neg here] at undelivered
      refine (reads key (settled.congr undelivered)).trans ?_
      exact congrArg (indexedAs s.merge) (frame key (Ne.symm here)).symm

theorem inv_lookup (inv : Inv s)
    (present : s.inFlight[i]? = some ⟨ev, none⟩) (ordered : InOrder s (.lookup i))
    {observing : Option Nat}
    (found : s.registry = observing) :
    Inv { s with inFlight := s.replaceFlight i (observing.toList.map fun h => ⟨ev, some h⟩) } := by
  obtain ⟨rest, before, replace⟩ := flights_replace present (ordered _ present)
    (observing.toList.map fun h => ⟨ev, some h⟩) (by simp)
  obtain ⟨after, frame⟩ := replace
    { s with inFlight := s.replaceFlight i (observing.toList.map fun h => ⟨ev, some h⟩) } rfl
  refine ⟨fun key => ?_, inv.cells, fun h registered => ?_⟩
  · by_cases here : key = ev.key
    · subst here
      have order := inv.keys ev.key
      cases observing with
      | none => exact order.delivered before (by simpa using after) rfl
      | some h =>
        refine ⟨fun flight member => order.waiting flight ?_, fun flight last => ?_⟩
        · rw [after] at member
          simpa [before] using member
        · rw [after] at last
          cases rest with
          | nil =>
            cases last
            exact order.latest ⟨ev, none⟩ (by rw [before]; rfl)
          | cons next rest =>
            refine order.latest flight ?_
            simpa [before] using last
    · exact (inv.keys key).congr (frame key here) rfl
  · obtain ⟨cell, stored, sound, current⟩ := inv.registered h registered
    refine ⟨cell, stored, sound, fun ready => ?_⟩
    obtain ⟨corpus, holds, reads⟩ := current ready
    refine ⟨corpus, holds, fun key settled => ?_⟩
    by_cases here : key = ev.key
    · -- the event was just bound to the registered index
      subst here
      obtain rfl : observing = some h := found.symm.trans registered
      obtain ⟨other, different, bound⟩ := settled ⟨ev, some h⟩ (by rw [after]; simp)
      exact absurd (Option.some.inj bound).symm different
    · exact reads key (settled.congr (frame key here))

theorem cells_set (inv : Inv s) (sound : CellOk s.merge cell) :
    ∀ cell' ∈ s.cells.set h cell, CellOk s.merge cell' := by
  intro cell' member
  rcases List.mem_or_eq_of_mem_set member with old | rfl
  · exact inv.cells cell' old
  · exact sound

theorem inv_apply (inv : Inv s)
    (present : s.inFlight[i]? = some ⟨ev, some h⟩) (stored : s.cells[h]? = some ⟨idx, .free⟩) :
    Inv { s with cells := s.cells.set h ⟨idx.observe ev, .free⟩, inFlight := s.replaceFlight i [] } := by
  have order := inv.keys ev.key
  obtain ⟨rest, before, replace⟩ := flights_replace present (order.first present) [] (by simp)
  obtain ⟨after, frame⟩ := replace
    { s with cells := s.cells.set h ⟨idx.observe ev, .free⟩, inFlight := s.replaceFlight i [] } rfl
  rw [List.nil_append] at after
  have waiting : ∀ flight ∈ rest, flight.observing = none := by
    simpa [before] using order.waiting
  have cellOk := inv.cells _ (List.mem_of_getElem? stored)
  obtain ⟨corpus, holds⟩ := cellOk.holds
  obtain ⟨corpus', holds', -⟩ := holds.observe ev
  refine ⟨fun key => ?_, cells_set inv ⟨⟨corpus', holds'⟩, ?_, by simp⟩, fun h' registered => ?_⟩
  · by_cases here : key = ev.key
    · subst here
      exact order.delivered before after rfl
    · exact (inv.keys key).congr (frame key here) rfl
  · exact (observe_merge idx ev).trans cellOk.mode
  · obtain ⟨cell, held, sound, current⟩ := inv.registered h' registered
    -- once the event is gone a settled key has no undelivered event left
    have delivered (settled : ∀ flight ∈ rest, ∃ other, other ≠ h' ∧ flight.observing = some other) : rest = [] := by
      cases rest with
      | nil => rfl
      | cons flight rest =>
        obtain ⟨other, -, observing⟩ := settled flight (by simp)
        rw [waiting flight (by simp)] at observing
        cases observing
    by_cases same : h = h'
    · subst same
      obtain rfl : cell = ⟨idx, .free⟩ := Option.some.inj (held.symm.trans stored)
      obtain ⟨corpus, holds, reads⟩ := current (by simp)
      obtain ⟨corpus', holds', observed⟩ := holds.observe ev
      have bound := (List.getElem?_eq_some_iff.mp stored).1
      refine ⟨⟨idx.observe ev, .free⟩, by simp [bound], by simp, fun _ => ⟨corpus', holds', ?_⟩⟩
      intro key settled
      rw [observed]
      split_ifs with here
      · subst here
        rw [Settled, after] at settled
        have last : (flights s ev.key).getLast? = some ⟨ev, some h⟩ := by
          rw [before, delivered settled]
          rfl
        rw [cellOk.mode, order.latest _ last]
      · exact reads key (settled.congr (frame key (Ne.symm here)))
    · refine ⟨cell, by simp [same, held], sound, fun ready => ?_⟩
      obtain ⟨corpus, holds, reads⟩ := current ready
      refine ⟨corpus, holds, fun key settled => reads key ?_⟩
      by_cases here : key = ev.key
      · subst here
        rw [Settled, after] at settled
        rw [Settled, before, delivered settled]
        simpa using same
      · exact settled.congr (frame key here)

theorem inv_get (inv : Inv s) : Inv { s with
    registry := some s.cells.length
    cells := s.cells ++ [⟨newCollIndex s.merge, .building⟩] } where
  keys key := ⟨(inv.keys key).waiting, (inv.keys key).latest⟩
  cells cell member := by
    rcases List.mem_append.mp member with old | new
    · exact inv.cells cell old
    · obtain rfl := List.mem_singleton.mp new
      exact ⟨⟨∅, holds_new s.merge⟩, rfl, fun _ => rfl⟩
  registered h found := by
    cases found
    exact ⟨⟨newCollIndex s.merge, .building⟩, by simp, by simp, by simp⟩

theorem registered_set (inv : Inv s)
    (replaced : s.registry = some h → cell.lock ≠ .failed ∧ (cell.lock ≠ .building → Current s h cell.idx))
    (bound : h < s.cells.length) :
    ∀ h', s.registry = some h' → ∃ cell', (s.cells.set h cell)[h']? = some cell' ∧
      cell'.lock ≠ .failed ∧ (cell'.lock ≠ .building → Current s h' cell'.idx) := by
  intro h' found
  by_cases same : h = h'
  · subst same
    exact ⟨cell, by simp [bound], replaced found⟩
  · obtain ⟨cell', stored, sound⟩ := inv.registered h' found
    exact ⟨cell', by simp [same, stored], sound⟩

theorem inv_fill (inv : Inv s) (stored : s.cells[h]? = some ⟨idx, .building⟩) :
    Inv { s with cells := s.cells.set h ⟨idx.fill s.store.toList, .built⟩ } := by
  have cellOk := inv.cells _ (List.mem_of_getElem? stored)
  obtain rfl : idx = newCollIndex s.merge := cellOk.fresh rfl
  obtain ⟨corpus, holds, reads⟩ := holds_build s.merge s.store
  refine ⟨fun key => ⟨(inv.keys key).waiting, (inv.keys key).latest⟩,
    cells_set inv ⟨⟨corpus, holds⟩, fill_merge _ _, by simp⟩, ?_⟩
  exact registered_set inv (fun _ => ⟨by simp, fun _ => ⟨corpus, holds, fun key _ => reads key⟩⟩)
    (List.getElem?_eq_some_iff.mp stored).1

theorem inv_fillFails (inv : Inv s) (stored : s.cells[h]? = some ⟨idx, .building⟩)
    (visited : List (GoString × Raw)) :
    Inv { s with registry := none, cells := s.cells.set h ⟨idx.fill visited, .failed⟩ } := by
  have cellOk := inv.cells _ (List.mem_of_getElem? stored)
  obtain ⟨corpus, holds⟩ := cellOk.holds
  have some : ∃ corpus', Holds (idx.fill visited) corpus' := by
    unfold CollIndex.fill
    clear cellOk stored
    induction visited generalizing idx corpus with
    | nil => exact ⟨corpus, holds⟩
    | cons entry visited ih => exact ih _ (holds.apply (.putRaw entry.1 entry.2))
  refine ⟨fun key => ⟨(inv.keys key).waiting, (inv.keys key).latest⟩,
    cells_set inv ⟨some, (fill_merge _ _).trans cellOk.mode, by simp⟩, by simp⟩

theorem inv_unlock (inv : Inv s) {lock : Lock}
    (stored : s.cells[h]? = some ⟨idx, lock⟩) (locked : lock = .built ∨ lock = .failed) :
    Inv { s with cells := s.cells.set h ⟨idx, .free⟩ } := by
  have cellOk := inv.cells _ (List.mem_of_getElem? stored)
  refine ⟨fun key => ⟨(inv.keys key).waiting, (inv.keys key).latest⟩,
    cells_set inv ⟨cellOk.holds, cellOk.mode, by simp⟩, ?_⟩
  refine registered_set inv
    (fun found => ⟨by simp, fun _ => ?_⟩) (List.getElem?_eq_some_iff.mp stored).1
  obtain ⟨cell, held, sound, current⟩ := inv.registered h found
  obtain rfl : cell = ⟨idx, lock⟩ := Option.some.inj (held.symm.trans stored)
  rcases locked with rfl | rfl
  · exact current (by simp)
  · exact absurd rfl sound

theorem inv_step {a : Action} (inv : Inv s) (ordered : InOrder s a) (taken : s.step a = some s') :
    Inv s' := by
  have insert (key : GoString) (raw : Raw) : Inv (s.commit (s.store.insert key raw) ⟨key, some raw⟩) :=
    inv_commit inv (by simp) fun other different => by
      simp [getElem?_insert, Ne.symm different]
  cases a with
  | put key raw =>
    cases taken
    exact insert key raw
  | create key raw =>
    simp only [System.step] at taken
    split at taken <;> cases taken
    · exact inv
    · exact insert key raw
  | delete key =>
    simp only [System.step] at taken
    split at taken <;> cases taken
    · exact inv
    · exact inv_commit inv (by simp) fun other different => by
        simp [getElem?_erase, Ne.symm different]
  | lookup i =>
    simp only [System.step] at taken
    split at taken
    · rename_i ev present
      split at taken <;> cases taken
      · rename_i absent
        exact inv_lookup inv present ordered absent
      · rename_i h found
        exact inv_lookup inv present ordered found
    · cases taken
  | apply i =>
    simp only [System.step] at taken
    split at taken
    · rename_i ev h present
      split at taken
      · rename_i idx stored
        cases taken
        exact inv_apply inv present stored
      · cases taken
    · cases taken
  | get =>
    simp only [System.step] at taken
    split at taken <;> cases taken
    · exact inv
    · exact inv_get inv
  | fill h =>
    simp only [System.step] at taken
    split at taken
    · rename_i idx stored
      cases taken
      exact inv_fill inv stored
    · cases taken
  | fillFails h visited =>
    simp only [System.step] at taken
    split at taken
    · rename_i idx stored
      cases taken
      exact inv_fillFails inv stored visited
    · cases taken
  | unlock h =>
    simp only [System.step] at taken
    split at taken
    · rename_i idx stored
      cases taken
      exact inv_unlock inv stored (.inl rfl)
    · rename_i idx stored
      cases taken
      exact inv_unlock inv stored (.inr rfl)
    · cases taken

theorem inv_reachable (reachable : OrderedReachable s) : Inv s := by
  induction reachable with
  | start merge store => exact inv_start merge store
  | step a _ ordered taken ih => exact inv_step ih ordered taken

/-- In every run whose deliveries start in the order of the commits of their key, once nothing is
in flight a registered index equals the one built from the collection. -/
theorem index_converges {s : System} (reachable : OrderedReachable s) (quiet : s.Quiescent)
    {c : CollIndex} (registered : Registered s c) : c = build s.merge s.store := by
  have inv := inv_reachable reachable
  obtain ⟨h, cell, found, stored, rfl⟩ := registered
  have free : cell.lock = .free := quiet.2 cell (List.mem_of_getElem? stored)
  obtain ⟨cell', stored', -, current⟩ := inv.registered h found
  obtain rfl : cell' = cell := Option.some.inj (stored'.symm.trans stored)
  obtain ⟨corpus, holds, reads⟩ := current (by simp [free])
  obtain ⟨built, holdsBuilt, readsBuilt⟩ := holds_build s.merge s.store
  have same : corpus = built := by
    refine ext_getElem? fun key => ?_
    rw [reads key (by simp [Settled, flights, quiet.1]), readsBuilt]
  subst same
  exact holds.unique holdsBuilt ((inv.cells _ (List.mem_of_getElem? stored)).mode.trans
    (fill_merge (newCollIndex s.merge) _).symm)

end Runs

def document (value : String) : Raw := .document (.object [(lit "a", .string (lit value))])

def rewritten (idx : CollIndex) : System where
  merge := false
  store := (∅ : GoMap Raw).insert (lit "n") (document "old") |>.insert (lit "n") (document "new")
  inFlight := []
  registry := some 0
  cells := [⟨idx, .free⟩]

def observed [Unicode] (first second : String) : CollIndex :=
  (((newCollIndex false).fill []).observe ⟨lit "n", some (document first)⟩).observe ⟨lit "n", some (document second)⟩

theorem delivered_reachable [Unicode] : OrderedReachable (rewritten (observed "old" "new")) := by
  have registered := OrderedReachable.step .get (.start false ∅) trivial rfl
  have filled := OrderedReachable.step (.fill 0) registered trivial rfl
  have ready := OrderedReachable.step (.unlock 0) filled trivial rfl
  have first := OrderedReachable.step (.put (lit "n") (document "old")) ready trivial rfl
  have second := OrderedReachable.step (.put (lit "n") (document "new")) first trivial rfl
  have found := OrderedReachable.step (.lookup 0) second (by simp [InOrder]) rfl
  have older := OrderedReachable.step (.apply 0) found trivial rfl
  have found' := OrderedReachable.step (.lookup 0) older (by simp [InOrder]) rfl
  exact OrderedReachable.step (.apply 0) found' trivial rfl

theorem index_converges_two_writes : letI : Unicode := ⟨id⟩
    observed "old" "new" = build false (rewritten (observed "old" "new")).store := by
  let _ : Unicode := ⟨id⟩
  exact index_converges delivered_reachable (by simp [System.Quiescent, rewritten]) ⟨0, _, rfl,
    rfl, rfl⟩

theorem overtaken_reachable [Unicode] : Reachable (rewritten (observed "new" "old")) := by
  have registered := Reachable.step .get (.start false ∅) rfl
  have filled := Reachable.step (.fill 0) registered rfl
  have ready := Reachable.step (.unlock 0) filled rfl
  have first := Reachable.step (.put (lit "n") (document "old")) ready rfl
  have second := Reachable.step (.put (lit "n") (document "new")) first rfl
  have found := Reachable.step (.lookup 1) second rfl
  have newer := Reachable.step (.apply 1) found rfl
  have found' := Reachable.step (.lookup 0) newer rfl
  exact Reachable.step (.apply 0) found' rfl

theorem index_keeps_overtaken_write : letI : Unicode := ⟨id⟩
    ¬ ∀ s, Reachable s → s.Quiescent → ∀ c, Registered s c → c = build s.merge s.store := by
  let _ : Unicode := ⟨id⟩
  intro converges
  have same := converges _ overtaken_reachable (by simp [System.Quiescent, rewritten]) _ ⟨0, _, rfl, rfl, rfl⟩
  have stale := congrArg (fun c => posting c (lit "a") (lit "old")) same
  revert stale
  decide +kernel

/-! ## An index kept up to date is the one built afresh -/

def lastDocument (calls : List Event) (id : GoString) : Option Raw :=
  ((calls.reverse.find? (·.key = id)).bind Event.value).filter fun raw => (decodeObject raw).isSome

def lastDocuments (calls : List Event) : List (GoString × Raw) :=
  (calls.map Event.key).dedup.filterMap fun id => (lastDocument calls id).map (id, ·)

theorem lastDocument_append (calls : List Event) (ev : Event) (id : GoString) :
    lastDocument (calls ++ [ev]) id =
      if ev.key = id then ev.value.filter fun raw =>
        (decodeObject raw).isSome else lastDocument calls id := by
  unfold lastDocument
  by_cases here : ev.key = id
  · simp [here]
  · simp [here]

theorem mem_lastDocuments {calls : List Event} {id : GoString} {raw : Raw} :
    (id, raw) ∈ lastDocuments calls ↔ lastDocument calls id = some raw := by
  simp only [lastDocuments, List.mem_filterMap, List.mem_dedup, List.mem_map,
    Option.map_eq_some_iff, Prod.mk.injEq]
  constructor
  · rintro ⟨_, -, _, found, rfl, rfl⟩
    exact found
  · intro found
    refine ⟨id, ?_, raw, found, rfl, rfl⟩
    by_contra unseen
    have none : calls.reverse.find? (·.key = id) = none := by
      rw [List.find?_eq_none]
      exact fun ev mem here => unseen ⟨ev, List.mem_reverse.mp mem, of_decide_eq_true here⟩
    simp [lastDocument, none] at found

theorem nodup_lastDocuments (calls : List Event) : ((lastDocuments calls).map Prod.fst).Nodup := by
  have ids : (lastDocuments calls).map Prod.fst =
      (calls.map Event.key).dedup.filter fun id => (lastDocument calls id).isSome := by
    unfold lastDocuments
    generalize (calls.map Event.key).dedup = keys
    induction keys with
    | nil => rfl
    | cons id keys ih => cases found : lastDocument calls id <;> simp [found, ih]
  rw [ids]
  exact (List.nodup_dedup _).filter _

section Calls
variable [Unicode]

theorem indexedAs_filter (merge : Bool) (stored : Option Raw) :
    indexedAs merge (stored.filter fun raw => (decodeObject raw).isSome) =
      indexedAs merge stored := by
  cases stored with
  | none => rfl
  | some raw =>
    cases decoded : decodeObject raw with
    | none => simp [Option.filter, indexedAs, searchFields, decoded]
    | some doc => simp [Option.filter, decoded]

theorem observed_holds (merge : Bool) (calls : List Event) :
    ∃ corpus, Holds (calls.foldl CollIndex.observe (newCollIndex merge)) corpus ∧
      (calls.foldl CollIndex.observe (newCollIndex merge)).merge = merge ∧
      ∀ id : GoString, corpus[id]? = indexedAs merge (lastDocument calls id) := by
  induction calls using List.reverseRecOn with
  | nil => exact ⟨∅, holds_new merge, rfl, fun id => by simp [indexedAs, lastDocument]⟩
  | append_singleton calls ev ih =>
    obtain ⟨corpus, holds, mode, reads⟩ := ih
    obtain ⟨corpus', holds', reads'⟩ := holds.observe ev
    rw [List.foldl_append]
    refine ⟨corpus', holds', (observe_merge _ ev).trans mode, fun id => ?_⟩
    rw [reads', mode, reads, lastDocument_append]
    split_ifs
    · rw [indexedAs_filter]
    · rfl

/-- The postings, the field sets and the documents after any calls are those of a new index into which
the last documents are put, in any order, and nothing empty is kept. -/
theorem index_equals_rebuild (merge : Bool) (calls : List Event) {docs : List (GoString × Raw)}
    (order : docs.Perm (lastDocuments calls)) :
    let kept := calls.foldl CollIndex.observe (newCollIndex merge)
    let rebuilt := (newCollIndex merge).fill docs
    kept.postings = rebuilt.postings ∧ kept.fieldDocs = rebuilt.fieldDocs ∧ kept.all = rebuilt.all ∧ Tidy kept := by
  intro kept rebuilt
  obtain ⟨corpus, holds, mode, reads⟩ := observed_holds merge calls
  have distinct : (docs.map Prod.fst).Nodup :=
    (order.map _).nodup_iff.mpr (nodup_lastDocuments calls)
  obtain ⟨corpus', holds', seen, unseen⟩ := (holds_new merge).fill docs distinct
  have same : corpus = corpus' := by
    refine Std.ExtTreeMap.ext_getElem? fun id => ?_
    rw [reads]
    cases last : lastDocument calls id with
    | some raw => exact (seen id raw (order.mem_iff.mpr (mem_lastDocuments.mpr last))).symm
    | none =>
      rw [unseen id]
      · rfl
      · intro mem
        obtain ⟨⟨_, raw⟩, listed, rfl⟩ := List.mem_map.mp mem
        rw [order.mem_iff, mem_lastDocuments, last] at listed
        cases listed
  subst same
  have equal : kept = rebuilt :=
    holds.unique holds' (mode.trans (fill_merge (newCollIndex merge) docs).symm)
  rw [equal]
  exact ⟨rfl, rfl, rfl, holds'.tidy⟩

end Calls

theorem rebuild_after_updates : letI : Unicode := ⟨id⟩
    let calls : List Event := [⟨lit "n", some (document "old")⟩, ⟨lit "m", some (document "old")⟩,
      ⟨lit "n", some (document "new")⟩, ⟨lit "m", some (.malformed [])⟩, ⟨lit "k", none⟩]
    lastDocuments calls = [(lit "n", document "new")] ∧ (calls.foldl CollIndex.observe (newCollIndex true)).postings =
        ((newCollIndex true).fill [(lit "n", document "new")]).postings := by
  let _ : Unicode := ⟨id⟩
  intro calls
  have last : lastDocuments calls = [(lit "n", document "new")] := by rfl
  exact ⟨last, (index_equals_rebuild true calls (.of_eq last.symm)).1⟩

/-! ## Who uses an index whose build failed -/

open Lib

def Withdrawn (stage : Stage) : Prop := stage = .unregistered ∨ stage = .abandoned

/-- A failed build takes its index out of the registry only while no other caller was given it. -/
def Unshared (s : Callers) : CallerAction → Prop
  | .unregister h => .given h ∉ s.callers
  | _ => True

instance (s : Callers) (action : CallerAction) : Decidable (Unshared s action) :=
  match action with
  | .unregister h => inferInstanceAs (Decidable (.given h ∉ s.callers))
  | .arrive | .look _ | .claim _ | .visit .. | .rangeEnds _ | .rangeFails _ | .unlock _ | .answer _ | .plan .. | .observe .. =>
    .isTrue trivial

def At (indexes : List Built) (h : Nat) (P : Stage → Prop) : Prop :=
  ∃ built, indexes[h]? = some built ∧ P built.stage

structure Trusted (s : Callers) : Prop where
  registered : ∀ h, s.registry = some h → At s.indexes h fun stage => ¬ Withdrawn stage
  given : ∀ h, .given h ∈ s.callers → At s.indexes h fun stage => ¬ Withdrawn stage
  planned : ∀ h ids, .planned h ids ∈ s.callers → At s.indexes h (· = .complete)

variable {s t : Callers} {indexes : List Built} {h h' : Nat} {old new : Built}

theorem At.update {P : Stage → Prop} (found : At indexes h' P) (before : indexes[h]? = some old)
    (keeps : P old.stage → P new.stage) : At (indexes.set h new) h' P := by
  obtain ⟨built, here, holds⟩ := found
  by_cases same : h = h'
  · subst same
    obtain rfl : old = built := Option.some.inj (before.symm.trans here)
    have inRange : h < indexes.length := (List.getElem?_eq_some_iff.mp here).1
    exact ⟨new, by simp [inRange], keeps holds⟩
  · exact ⟨built, by rw [List.getElem?_set_ne same, here], holds⟩

theorem At.other {P : Stage → Prop} (found : At indexes h' P)
    (other : h ≠ h') : At (indexes.set h new) h' P := by
  obtain ⟨built, here, holds⟩ := found
  exact ⟨built, by rw [List.getElem?_set_ne other, here], holds⟩

theorem At.append {P : Stage → Prop} (found : At indexes h P)
    (more : List Built) : At (indexes ++ more) h P := by
  obtain ⟨built, here, holds⟩ := found
  exact ⟨built, by rw [List.getElem?_append_left (List.getElem?_eq_some_iff.mp here).1, here], holds⟩

theorem Trusted.become (trusted : Trusted s) (i : Nat) {caller : Caller}
    (given : ∀ h, caller = .given h → At s.indexes h fun stage => ¬ Withdrawn stage)
    (planned : ∀ h ids, caller = .planned h ids → At s.indexes h (· = .complete)) :
    Trusted (s.become i caller) where
  registered := trusted.registered
  given h mem := (List.mem_or_eq_of_mem_set mem).elim (trusted.given h) fun same => given h same.symm
  planned h ids mem := (List.mem_or_eq_of_mem_set mem).elim (trusted.planned h ids) fun same =>
    planned h ids same.symm

theorem Trusted.becomeGiven (trusted : Trusted s) (i : Nat)
    (kept : At s.indexes h fun stage => ¬ Withdrawn stage) :
    Trusted (s.become i (.given h)) := by
  refine trusted.become i ?_ nofun
  rintro _ ⟨⟩
  exact kept

theorem Trusted.update (trusted : Trusted s) (before : s.indexes[h]? = some old)
    (kept : ¬ Withdrawn old.stage → ¬ Withdrawn new.stage)
    (complete : old.stage = .complete → new.stage = .complete) :
    Trusted (s.update h new) where
  registered h' found := (trusted.registered h' found).update before kept
  given h' mem := (trusted.given h' mem).update before kept
  planned h' ids mem := (trusted.planned h' ids mem).update before complete

theorem Trusted.unregister (trusted : Trusted s) (before : s.indexes[h]? = some old)
    (failed : old.stage = .failed)
    (unshared : .given h ∉ s.callers) : Trusted { s.update h new with registry := none } where
  registered := nofun
  given h' mem := by
    refine (trusted.given h' mem).other fun same => ?_
    subst same
    exact unshared mem
  planned h' ids mem := by
    refine (trusted.planned h' ids mem).update before fun complete => ?_
    rw [failed] at complete
    cases complete

theorem Trusted.claim (trusted : Trusted s) (i : Nat) : Trusted { s with
    registry := some s.indexes.length
    indexes := s.indexes ++ [⟨newCollIndex s.merge, .ranging⟩]
    callers := s.callers.set i (.building s.indexes.length) } where
  registered h found := by
    obtain rfl : s.indexes.length = h := Option.some.inj found
    exact ⟨⟨newCollIndex s.merge, .ranging⟩, by simp, by simp [Withdrawn]⟩
  given h mem := (List.mem_or_eq_of_mem_set mem).elim (fun old => (trusted.given h old).append _) nofun
  planned h ids mem := (List.mem_or_eq_of_mem_set mem).elim (fun old => (trusted.planned h ids old).append _) nofun

section Runs
variable [Unicode]

theorem Trusted.step {action : CallerAction} (trusted : Trusted s) (ok : Unshared s action)
    (taken : s.step action = some t) : Trusted t := by
  cases action with
  | arrive =>
    cases taken
    have old (caller : Caller) (mem : caller ∈ s.callers ++ [.entering]) (busy : caller ≠ .entering) : caller ∈ s.callers :=
      (List.mem_append.mp mem).resolve_right fun new => busy (List.mem_singleton.mp new)
    exact ⟨trusted.registered, fun h mem => trusted.given h (old _ mem nofun),
      fun h ids mem => trusted.planned h ids (old _ mem nofun)⟩
  | look i =>
    simp only [Callers.step] at taken
    split at taken
    · next h _ found =>
      cases taken
      exact trusted.becomeGiven i (trusted.registered h found)
    · cases taken
      exact trusted.become i nofun nofun
    · cases taken
  | claim i =>
    simp only [Callers.step] at taken
    split at taken
    · next h _ found =>
      cases taken
      exact trusted.becomeGiven i (trusted.registered h found)
    · cases taken
      exact trusted.claim i
    · cases taken
  | visit h id raw | rangeEnds h | rangeFails h =>
    simp only [Callers.step] at taken
    split at taken
    · next idx here =>
      cases taken
      exact trusted.update here (by simp [Withdrawn]) (by simp)
    · cases taken
  | unregister h =>
    simp only [Callers.step] at taken
    split at taken
    · next idx here =>
      cases taken
      exact trusted.unregister here rfl ok
    · cases taken
  | unlock h =>
    simp only [Callers.step] at taken
    split at taken
    · next idx here =>
      cases taken
      exact trusted.update here (by simp [Withdrawn]) (by simp)
    · next idx here =>
      cases taken
      exact trusted.update here (by simp [Withdrawn]) (by simp)
    · cases taken
  | answer i =>
    simp only [Callers.step] at taken
    split at taken
    · next h _ =>
      split at taken
      · next idx here =>
        cases taken
        exact trusted.becomeGiven i ⟨_, here, by simp [Withdrawn]⟩
      · cases taken
        exact trusted.become i nofun nofun
      · cases taken
    · cases taken
  | plan i query =>
    simp only [Callers.step] at taken
    split at taken
    · next h given =>
      split at taken
      · next idx stage here =>
        obtain ⟨unlocked, same⟩ := Option.ite_none_right_eq_some.mp taken
        cases same
        -- an unlocked index is complete unless its build failed, and nobody holds such a one
        obtain ⟨built, found, kept⟩ := trusted.given h (List.mem_of_getElem? given)
        obtain rfl : ⟨idx, stage⟩ = built := Option.some.inj (here.symm.trans found)
        have complete : stage = .complete :=
          unlocked.resolve_right fun abandoned => kept (.inr abandoned)
        refine trusted.become i nofun ?_
        rintro _ _ ⟨⟩
        exact ⟨_, here, complete⟩
      · cases taken
    · cases taken
  | observe h ev =>
    simp only [Callers.step] at taken
    split at taken
    · next idx stage here =>
      obtain ⟨_, same⟩ := Option.ite_none_right_eq_some.mp taken
      cases same
      exact trusted.update here id id
    · cases taken

/-- When a failed build withdraws its index only while no other caller was given it, every caller that
planned did so against an index whose `Range` ended without an error. -/
theorem failed_build_unused {merge : Bool} (run : Run Callers.step Unshared (.start merge) s) :
    ∀ h ids, .planned h ids ∈ s.callers → ∃ idx, s.indexes[h]? = some ⟨idx, .complete⟩ := by
  have trusted : Trusted s := run.invariant ⟨nofun, nofun, nofun⟩ fun s t action => Trusted.step
  intro h ids mem
  obtain ⟨⟨idx, stage⟩, here, complete⟩ := trusted.planned h ids mem
  obtain rfl : stage = .complete := complete
  exact ⟨idx, here⟩

end Runs

def newest : Query := .termQ ⟨lit "a", lit "new", false, none⟩

def halfBuilt : List CallerAction :=
  [.arrive, .look 0, .claim 0, .arrive, .visit 0 (lit "m") (document "old"), .look 1]

def fullyBuilt : List CallerAction :=
  halfBuilt ++ [.visit 0 (lit "n") (document "new"), .rangeEnds 0, .unlock 0, .answer 0, .plan 0 newest, .plan 1 newest]

theorem built_index_used :
    letI : Unicode := ⟨id⟩
    ∃ s idx, Run.perform Callers.step Unshared (.start false) fullyBuilt = some s ∧
      s.callers = [.planned 0 (some {lit "n"}), .planned 0 (some {lit "n"})] ∧ s.indexes[0]? = some ⟨idx, .complete⟩ := by
  let _ : Unicode := ⟨id⟩
  have closed : (Run.perform Callers.step Unshared (.start false) fullyBuilt).map (fun s =>
      decide (s.callers = [.planned 0 (some {lit "n"}), .planned 0 (some {lit "n"})])) = some true := by decide +kernel
  obtain ⟨s, performed, checked⟩ := Option.map_eq_some_iff.mp closed
  have callers := of_decide_eq_true checked
  have run : Run Callers.step Unshared (.start false) s := Run.start.of_perform performed
  obtain ⟨idx, complete⟩ := failed_build_unused run 0 (some {lit "n"}) (by simp [callers])
  exact ⟨s, idx, performed, callers, complete⟩

theorem half_built_index_used :
    letI : Unicode := ⟨id⟩
    ∃ s idx, Run Callers.step always (.start false) s ∧
      s.callers = [.refused, .planned 0 (some ∅)] ∧ s.indexes[0]? = some ⟨idx, .abandoned⟩ := by
  let _ : Unicode := ⟨id⟩
  have closed : (Run.perform Callers.step always (.start false)
      (halfBuilt ++ [.rangeFails 0, .unregister 0, .unlock 0, .answer 0, .plan 1 newest])).map (fun s =>
        decide (s.callers = [.refused, .planned 0 (some ∅)] ∧ s.indexes[0]?.map Built.stage = some .abandoned)) =
      some true := by decide +kernel
  obtain ⟨s, performed, checked⟩ := Option.map_eq_some_iff.mp closed
  obtain ⟨callers, stage⟩ := of_decide_eq_true checked
  obtain ⟨⟨idx, _⟩, here, rfl⟩ := Option.map_eq_some_iff.mp stage
  exact ⟨s, idx, Run.start.of_perform performed, callers, here⟩

end CincServer.Proof.Search
