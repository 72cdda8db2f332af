import CincServer.Go.Strings
import CincServer.Lib.Machine
import Mathlib.Data.Finset.Dedup

/-!
# The persistence interface

`V` is the opaque body of an object or a blob. The empty organization addresses the
server-global space.
-/

namespace CincServer.Store
open Go Lib.Machine

inductive StoreError
  | errConflict
  | other (message : String)
deriving DecidableEq, Repr

def StoreError.isConflict : StoreError → Bool
  | .errConflict => true
  | .other _ => false

inductive Op (V : Type)
  | get (org coll key : GoString)
  | put (org coll key : GoString) (val : V)
  | create (org coll key : GoString) (val : V)
  | delete (org coll key : GoString)
  | keys (org coll : GoString)
  | range (org coll : GoString)
  | collections (org : GoString)
  | putBlob (org checksum : GoString) (data : V)
  | blob (org checksum : GoString)
  | hasBlob (org checksum : GoString)
  | deleteBlob (org checksum : GoString)
  | createOrg (name : GoString)
  | deleteOrg (name : GoString)
  | listOrgs
  | hasOrg (name : GoString)

/-- What an operation returns. `failed` is a non-nil error, `body` the `(val, ok)` pair of a read
or a delete, `visited` the pairs a `Range` passed to a callback that never stops it. -/
inductive Reply (V : Type)
  | failed (err : StoreError)
  | done
  | body (val : Option V)
  | names (sorted : List GoString)
  | visited (pairs : Finset (GoString × V))
  | flag (value : Bool)

abbrev TxFunc (V : Type) := Script (Op V) (Reply V) (Option StoreError)

inductive Call (V : Type)
  | op (op : Op V)
  | tx (fn : TxFunc V)

inductive Outcome (V : Type)
  | op (reply : Reply V)
  | tx (inside : List (Reply V)) (err : Option StoreError)

/-! ## The in-memory backend -/

variable {V : Type}

structure MemoryBackend (V : Type) where
  orgs : GoMap Bool
  data : GoMap (GoMap (GoMap V))
  blobs : GoMap (GoMap V)

def newMemoryBackend : MemoryBackend V := ⟨∅, ∅, ∅⟩

namespace MemoryBackend

def objects (m : MemoryBackend V) (org coll : GoString) : GoMap V :=
  (m.data.getD org ∅).getD coll ∅

def blobsOf (m : MemoryBackend V) (org : GoString) : GoMap V := m.blobs.getD org ∅

def get (m : MemoryBackend V) (org coll key : GoString) : Option V := (m.objects org coll)[key]?

def set (m : MemoryBackend V) (org coll key : GoString) (val : V) : MemoryBackend V :=
  let colls := (m.data.getD org ∅).insert coll ((m.objects org coll).insert key val)
  { m with data := m.data.insert org colls }

def put (m : MemoryBackend V) (org coll key : GoString) (val : V) : MemoryBackend V :=
  m.set org coll key val

def create (m : MemoryBackend V) (org coll key : GoString) (val : V) :
    MemoryBackend V × Option StoreError :=
  match m.get org coll key with
  | some _ => (m, some .errConflict)
  | none => (m.set org coll key val, none)

def delete (m : MemoryBackend V) (org coll key : GoString) : MemoryBackend V × Option V :=
  match m.get org coll key with
  | none => (m, none)
  | some old =>
    ({ m with data := m.data.modify org fun colls => colls.modify coll fun keys => keys.erase key }, some old)

def keys (m : MemoryBackend V) (org coll : GoString) : List GoString :=
  sortStrings (m.objects org coll).keys

def range (m : MemoryBackend V) (org coll : GoString) : List (GoString × V) :=
  (m.objects org coll).toList

def collections (m : MemoryBackend V) (org : GoString) : List GoString :=
  sortStrings (((m.data.getD org ∅).toList.filter fun entry => entry.2.size > 0).map Prod.fst)

def putBlob (m : MemoryBackend V) (org checksum : GoString) (data : V) : MemoryBackend V :=
  { m with blobs := m.blobs.insert org ((m.blobsOf org).insert checksum data) }

def blob (m : MemoryBackend V) (org checksum : GoString) : Option V := (m.blobsOf org)[checksum]?

def hasBlob (m : MemoryBackend V) (org checksum : GoString) : Bool :=
  (m.blobsOf org)[checksum]?.isSome

def deleteBlob (m : MemoryBackend V) (org checksum : GoString) : MemoryBackend V :=
  { m with blobs := m.blobs.modify org fun blobs => blobs.erase checksum }

def hasOrg (m : MemoryBackend V) (name : GoString) : Bool := m.orgs.getD name false

def createOrg (m : MemoryBackend V) (name : GoString) : MemoryBackend V × Option StoreError :=
  if m.hasOrg name then (m, some .errConflict)
  else ({ m with orgs := m.orgs.insert name true }, none)

def deleteOrg (m : MemoryBackend V) (name : GoString) : MemoryBackend V × Bool :=
  if !m.hasOrg name then (m, false)
  else (⟨m.orgs.erase name, m.data.erase name, m.blobs.erase name⟩, true)

def listOrgs (m : MemoryBackend V) : List GoString := sortStrings m.orgs.keys

variable [DecidableEq V]

def step (m : MemoryBackend V) : Op V → MemoryBackend V × Reply V
  | .get org coll key => (m, .body (m.get org coll key))
  | .put org coll key val => (m.put org coll key val, .done)
  | .create org coll key val =>
    match m.create org coll key val with
    | (m', some err) => (m', .failed err)
    | (m', none) => (m', .done)
  | .delete org coll key => ((m.delete org coll key).1, .body (m.delete org coll key).2)
  | .keys org coll => (m, .names (m.keys org coll))
  | .range org coll => (m, .visited (m.range org coll).toFinset)
  | .collections org => (m, .names (m.collections org))
  | .putBlob org checksum data => (m.putBlob org checksum data, .done)
  | .blob org checksum => (m, .body (m.blob org checksum))
  | .hasBlob org checksum => (m, .flag (m.hasBlob org checksum))
  | .deleteBlob org checksum => (m.deleteBlob org checksum, .done)
  | .createOrg name =>
    match m.createOrg name with
    | (m', some err) => (m', .failed err)
    | (m', none) => (m', .done)
  | .deleteOrg name => ((m.deleteOrg name).1, .flag (m.deleteOrg name).2)
  | .listOrgs => (m, .names m.listOrgs)
  | .hasOrg name => (m, .flag (m.hasOrg name))

def tx (m : MemoryBackend V) (fn : TxFunc V) :
    MemoryBackend V × List (Reply V) × Option StoreError :=
  let snapshot := m
  match fn.run step m with
  | (_, inside, some err) => (snapshot, inside, some err)
  | (m', inside, none) => (m', inside, none)

def call (m : MemoryBackend V) : Call V → MemoryBackend V × Outcome V
  | .op op => ((m.step op).1, .op (m.step op).2)
  | .tx fn => ((m.tx fn).1, .tx (m.tx fn).2.1 (m.tx fn).2.2)

end MemoryBackend

/-!
## A transaction of the memory backend among other callers

The body of `Tx` works on the backend itself, outside any lock: between its operations other callers
make theirs. A failed body puts the snapshot back.
-/

inductive TxStep (V : Type)
  | body
  | other (op : Op V)

structure TxState (V : Type) where
  backend : MemoryBackend V
  body : TxFunc V
  acknowledged : List (Op V)

def wrote : Op V → Reply V → Bool
  | .put .., .done => true
  | .create .., .done => true
  | .delete .., .body (some _) => true
  | .putBlob .., .done => true
  | .deleteBlob .., .done => true
  | .createOrg _, .done => true
  | .deleteOrg _, .flag true => true
  | _, _ => false

variable [DecidableEq V]

def TxState.step (t : TxState V) : TxStep V → Option (TxState V)
  | .body =>
    match t.body with
    | .ret _ => none
    | .call op next =>
      let (backend, reply) := t.backend.step op
      some { t with backend, body := next reply }
  | .other op =>
    let (backend, reply) := t.backend.step op
    some { t with
      backend
      acknowledged := if wrote op reply then t.acknowledged ++ [op] else t.acknowledged }

def TxState.steps (t : TxState V) : List (TxStep V) → Option (TxState V)
  | [] => some t
  | step :: rest => (t.step step).bind fun t => t.steps rest

end CincServer.Store
