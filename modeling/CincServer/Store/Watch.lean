import CincServer.Store.Sqlite

/-!
# The store and its write stream

The store is a facade over a backend: it passes every call on and reports the writes that changed
something, those of a transaction once it has committed.
-/

namespace CincServer.Store
open Go Lib.Machine

variable {V B : Type}

structure Event (V : Type) where
  org : GoString
  collection : GoString
  key : GoString
  value : Option V
  deleted : Bool

def emit : Op V → Reply V → List (Event V)
  | .put org coll key val, .done => [⟨org, coll, key, some val, false⟩]
  | .create org coll key val, .done => [⟨org, coll, key, some val, false⟩]
  | .delete org coll key, .body (some _) => [⟨org, coll, key, none, true⟩]
  | .deleteOrg name, .flag true => [⟨name, [], [], none, true⟩]
  | _, _ => []

def flushed : Call V → Outcome V → List (Event V)
  | .op op, .op reply => emit op reply
  | .tx fn, .tx inside none => fn.log emit inside
  | _, _ => []

structure Watched (B V : Type) where
  backend : B
  events : List (Event V)

namespace Watched

def call (backendCall : B → Call V → B × Outcome V) (s : Watched B V)
    (c : Call V) : Watched B V × Outcome V :=
  let (backend, outcome) := backendCall s.backend c
  (⟨backend, s.events ++ flushed c outcome⟩, outcome)

def run (backendCall : B → Call V → B × Outcome V) (s : Watched B V)
    (calls : List (Call V)) : Watched B V :=
  calls.foldl (fun s c => (s.call backendCall c).1) s

end Watched

abbrev Contents (V : Type) := GoString → GoString → GoString → Option V

def Contents.empty : Contents V := fun _ _ _ => none

def Contents.apply (contents : Contents V) (event : Event V) : Contents V := fun org coll key =>
  if event.deleted ∧ event.collection = [] then if event.org = org then none else contents org coll key
  else if event.org = org ∧ event.collection = coll ∧ event.key = key then event.value
  else contents org coll key

def Contents.ofEvents (events : List (Event V)) : Contents V := events.foldl Contents.apply .empty

end CincServer.Store
