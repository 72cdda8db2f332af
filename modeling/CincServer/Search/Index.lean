import CincServer.Search.Query

/-!
# The inverted index of one collection
-/

namespace CincServer.Search
open Go Json

section

structure IndexTerm where
  field : GoString
  value : GoString
deriving DecidableEq

structure CollIndex where
  merge : Bool
  postings : GoMap (GoMap DocIDs)
  fieldDocs : GoMap DocIDs
  docTerms : GoMap (List IndexTerm)
  all : DocIDs

def newCollIndex (merge : Bool) : CollIndex := ⟨merge, ∅, ∅, ∅, ∅⟩

def eraseFrom (sets : GoMap DocIDs) (key id : GoString) : GoMap DocIDs :=
  match sets[key]? with
  | none => sets
  | some ids => if ids.erase id = ∅ then sets.erase key else sets.insert key (ids.erase id)

namespace CollIndex

def retractTerm (id : GoString) (c : CollIndex) (t : IndexTerm) : CollIndex :=
  { c with
    postings := match c.postings[t.field]? with
      | none => c.postings
      | some byValue =>
        let byValue := eraseFrom byValue t.value id
        if byValue.isEmpty then c.postings.erase t.field else c.postings.insert t.field byValue
    fieldDocs := eraseFrom c.fieldDocs t.field id }

def retract (c : CollIndex) (id : GoString) : CollIndex :=
  let retracted := (c.docTerms.getD id []).foldl (retractTerm id) c
  { retracted with docTerms := retracted.docTerms.insert id [] }

def putValues (id : GoString) (byValue : GoMap DocIDs) (values : List GoString) : GoMap DocIDs :=
  values.foldl (fun byValue v => byValue.insert v (insert id (byValue.getD v ∅))) byValue

def putField (id : GoString) (c : CollIndex) (field : GoString) (values : List GoString) :
    CollIndex :=
  { c with
    postings := c.postings.insert field (putValues id (c.postings.getD field ∅) values)
    fieldDocs := c.fieldDocs.insert field (insert id (c.fieldDocs.getD field ∅)) }

def termsOf (fields : Fields) : List IndexTerm :=
  fields.toList.flatMap fun entry => entry.2.map fun v => ⟨entry.1, v⟩

def put (c : CollIndex) (id : GoString) (fields : Fields) : CollIndex :=
  let filled := fields.toList.foldl (fun c entry => c.putField id entry.1 entry.2) (c.retract id)
  { filled with docTerms := filled.docTerms.insert id (termsOf fields), all := insert id filled.all }

def remove (c : CollIndex) (id : GoString) : CollIndex :=
  let retracted := c.retract id
  { retracted with docTerms := retracted.docTerms.erase id, all := retracted.all.erase id }

end CollIndex

def matchValues (byValue : GoMap DocIDs) (pred : GoString → Bool) : DocIDs :=
  byValue.toList.foldl (fun out entry => if pred entry.1 then out ∪ entry.2 else out) ∅

def postingsView (c : CollIndex) : Postings where
  exact field value := (c.postings.getD field ∅).getD value ∅
  fieldExists field := c.fieldDocs.getD field ∅
  matchField field pred := matchValues (c.postings.getD field ∅) pred
  matchAny pred := c.postings.toList.foldl (fun out entry => out ∪ matchValues entry.2 pred) ∅
  all := c.all

variable [Unicode]

def searchFields (merge : Bool) (raw : Raw) : Option Fields :=
  (decodeObject raw).map fun doc => flatten (if merge then nodeSearchDoc doc else doc)

def CollIndex.putRaw (c : CollIndex) (id : GoString) (raw : Raw) : CollIndex :=
  match searchFields c.merge raw with
  | none => c.remove id
  | some fields => c.put id fields

inductive IndexOp
  | put (id : GoString) (doc : Members)
  | putRaw (id : GoString) (raw : Raw)
  | remove (id : GoString)

def CollIndex.apply (c : CollIndex) : IndexOp → CollIndex
  | .put id doc => c.put id (flatten doc)
  | .putRaw id raw => c.putRaw id raw
  | .remove id => c.remove id

end

/-!
## Writers, index builds and event delivery on one collection

A write is a commit to the backend followed later by the delivery of its event. `observe` reads the
registry in one step and works under the index's lock in another; `get` registers a locked index, fills
it from a `Range` and unlocks it.
-/

section

structure Event where
  key : GoString
  value : Option Raw

inductive Lock
  | building
  | built
  | failed
  | free
deriving DecidableEq

structure Cell where
  idx : CollIndex
  lock : Lock

structure InFlight where
  event : Event
  observing : Option Nat

structure System where
  merge : Bool
  store : GoMap Raw
  inFlight : List InFlight
  registry : Option Nat
  cells : List Cell

inductive Action
  | put (key : GoString) (raw : Raw)
  | create (key : GoString) (raw : Raw)
  | delete (key : GoString)
  | lookup (i : Nat)
  | apply (i : Nat)
  | get
  | fill (h : Nat)
  | fillFails (h : Nat) (visited : List (GoString × Raw))
  | unlock (h : Nat)

namespace System

def start (merge : Bool) (store : GoMap Raw) : System := ⟨merge, store, [], none, []⟩

def commit (s : System) (store : GoMap Raw) (ev : Event) : System :=
  { s with store, inFlight := s.inFlight ++ [⟨ev, none⟩] }

def replaceFlight (s : System) (i : Nat) (flight : List InFlight) : List InFlight :=
  s.inFlight.take i ++ flight ++ s.inFlight.drop (i + 1)

def Quiescent (s : System) : Prop := s.inFlight = [] ∧ ∀ cell ∈ s.cells, cell.lock = .free

end System

variable [Unicode]

def CollIndex.observe (c : CollIndex) (ev : Event) : CollIndex :=
  match ev.value with
  | none => c.remove ev.key
  | some raw => c.putRaw ev.key raw

def CollIndex.fill (c : CollIndex) (visited : List (GoString × Raw)) : CollIndex :=
  visited.foldl (fun c entry => c.putRaw entry.1 entry.2) c

def build (merge : Bool) (store : GoMap Raw) : CollIndex := (newCollIndex merge).fill store.toList

def System.step (s : System) : Action → Option System
  | .put key raw => some (s.commit (s.store.insert key raw) ⟨key, some raw⟩)
  | .create key raw =>
    match s.store[key]? with
    | some _ => some s
    | none => some (s.commit (s.store.insert key raw) ⟨key, some raw⟩)
  | .delete key =>
    match s.store[key]? with
    | none => some s
    | some _ => some (s.commit (s.store.erase key) ⟨key, none⟩)
  | .lookup i =>
    match s.inFlight[i]? with
    | some ⟨ev, none⟩ =>
      match s.registry with
      | none => some { s with inFlight := s.replaceFlight i [] }
      | some h => some { s with inFlight := s.replaceFlight i [⟨ev, some h⟩] }
    | _ => none
  | .apply i =>
    match s.inFlight[i]? with
    | some ⟨ev, some h⟩ =>
      match s.cells[h]? with
      | some ⟨idx, .free⟩ =>
        some { s with
          cells := s.cells.set h ⟨idx.observe ev, .free⟩
          inFlight := s.replaceFlight i [] }
      | _ => none
    | _ => none
  | .get =>
    match s.registry with
    | some _ => some s
    | none =>
      some { s with
        registry := some s.cells.length
        cells := s.cells ++ [⟨newCollIndex s.merge, .building⟩] }
  | .fill h =>
    match s.cells[h]? with
    | some ⟨idx, .building⟩ => some { s with cells := s.cells.set h ⟨idx.fill s.store.toList, .built⟩ }
    | _ => none
  | .fillFails h visited =>
    match s.cells[h]? with
    | some ⟨idx, .building⟩ =>
      some { s with registry := none, cells := s.cells.set h ⟨idx.fill visited, .failed⟩ }
    | _ => none
  | .unlock h =>
    match s.cells[h]? with
    | some ⟨idx, .built⟩ => some { s with cells := s.cells.set h ⟨idx, .free⟩ }
    | some ⟨idx, .failed⟩ => some { s with cells := s.cells.set h ⟨idx, .free⟩ }
    | _ => none

end

/-!
## Callers of `findMatches` on one collection

`get` looks an index up, or registers a new one that it holds locked while a `Range` fills it. A caller
that was given an index takes its read lock and plans.
-/

inductive Stage
  | ranging
  | ended
  | failed
  | unregistered
  | complete
  | abandoned
deriving DecidableEq

def Stage.unlocked (stage : Stage) : Prop := stage = .complete ∨ stage = .abandoned

instance (stage : Stage) : Decidable stage.unlocked := inferInstanceAs (Decidable (_ ∨ _))

structure Built where
  idx : CollIndex
  stage : Stage

/-- Where a caller is: before the first look at the registry, after it found none, in the build of an
index, with an index, with the ids it planned, or answered with an error. -/
inductive Caller
  | entering
  | missed
  | building (h : Nat)
  | given (h : Nat)
  | planned (h : Nat) (ids : Option DocIDs)
  | refused
deriving DecidableEq

structure Callers where
  merge : Bool
  registry : Option Nat
  indexes : List Built
  callers : List Caller

inductive CallerAction
  | arrive
  | look (i : Nat)
  | claim (i : Nat)
  | visit (h : Nat) (id : GoString) (raw : Raw)
  | rangeEnds (h : Nat)
  | rangeFails (h : Nat)
  | unregister (h : Nat)
  | unlock (h : Nat)
  | answer (i : Nat)
  | plan (i : Nat) (query : Query)
  | observe (h : Nat) (ev : Event)

namespace Callers

def start (merge : Bool) : Callers := ⟨merge, none, [], []⟩

def become (s : Callers) (i : Nat) (caller : Caller) :
    Callers := { s with callers := s.callers.set i caller }

def update (s : Callers) (h : Nat) (built : Built) :
    Callers := { s with indexes := s.indexes.set h built }

variable [Unicode]

def step (s : Callers) : CallerAction → Option Callers
  | .arrive => some { s with callers := s.callers ++ [.entering] }
  | .look i =>
    match s.callers[i]?, s.registry with
    | some .entering, some h => some (s.become i (.given h))
    | some .entering, none => some (s.become i .missed)
    | _, _ => none
  | .claim i =>
    match s.callers[i]?, s.registry with
    | some .missed, some h => some (s.become i (.given h))
    | some .missed, none =>
      some { s with
        registry := some s.indexes.length
        indexes := s.indexes ++ [⟨newCollIndex s.merge, .ranging⟩]
        callers := s.callers.set i (.building s.indexes.length) }
    | _, _ => none
  | .visit h id raw =>
    match s.indexes[h]? with
    | some ⟨idx, .ranging⟩ => some (s.update h ⟨idx.putRaw id raw, .ranging⟩)
    | _ => none
  | .rangeEnds h =>
    match s.indexes[h]? with
    | some ⟨idx, .ranging⟩ => some (s.update h ⟨idx, .ended⟩)
    | _ => none
  | .rangeFails h =>
    match s.indexes[h]? with
    | some ⟨idx, .ranging⟩ => some (s.update h ⟨idx, .failed⟩)
    | _ => none
  | .unregister h =>
    match s.indexes[h]? with
    | some ⟨idx, .failed⟩ => some { s.update h ⟨idx, .unregistered⟩ with registry := none }
    | _ => none
  | .unlock h =>
    -- the deferred unlock, on either way out of `get`
    match s.indexes[h]? with
    | some ⟨idx, .ended⟩ => some (s.update h ⟨idx, .complete⟩)
    | some ⟨idx, .unregistered⟩ => some (s.update h ⟨idx, .abandoned⟩)
    | _ => none
  | .answer i =>
    match s.callers[i]? with
    | some (.building h) =>
      match s.indexes[h]? with
      | some ⟨_, .complete⟩ => some (s.become i (.given h))
      | some ⟨_, .abandoned⟩ => some (s.become i .refused)
      | _ => none
    | _ => none
  | .plan i query =>
    match s.callers[i]? with
    | some (.given h) =>
      match s.indexes[h]? with
      | some ⟨idx, stage⟩ =>
        if stage.unlocked then some (s.become i (.planned h (CincServer.Search.plan query (postingsView idx)))) else none
      | none => none
    | _ => none
  | .observe h ev =>
    match s.indexes[h]? with
    | some ⟨idx, stage⟩ => if stage.unlocked then some (s.update h ⟨idx.observe ev, stage⟩) else none
    | none => none

end Callers

end CincServer.Search
