import CincServer.Json.Decode
import CincServer.Lib.Program
import CincServer.Store.Memory

/-!
# Requests, responses and handlers

A handler is the sequence of its store calls. Answering a request with an error ends the handler early;
so does a store error, which every handler turns into a 500.
-/

namespace CincServer.Api
open Go Json Lib

structure Actor where
  name : GoString
  isClient : Bool
  isGlobalAdmin : Bool
  viaWebUI : Bool

structure Preread where
  org : GoString
  coll : GoString
  key : GoString
  raw : Raw

structure Request where
  actor : Option Actor
  apiVersion : Int
  body : Raw
  baseURL : GoString
  preread : Option Preread := none

inductive Response
  | json (status : Nat) (body : Raw)
  | error (status : Nat) (messages : List GoString)
  | internalError
  | panicked

def Response.clientError : Response → Bool
  | .json status _ => 400 ≤ status && status < 500
  | .error status _ => 400 ≤ status && status < 500
  | _ => false

def answer : Except Response Response → Response
  | .ok response => response
  | .error response => response

inductive StoreCall
  | get (org coll key : GoString)
  | put (org coll key : GoString) (val : Raw)
  | create (org coll key : GoString) (val : Raw)
  | delete (org coll key : GoString)
  | keys (org coll : GoString)
  | range (org coll : GoString)
  | listOrgs
  | hasOrg (name : GoString)
  | createOrg (name : GoString)
  | deleteOrg (name : GoString)
  | putBlob (org checksum : GoString) (data : Raw)
  | hasBlob (org checksum : GoString)
  | deleteBlob (org checksum : GoString)

def StoreCall.Result : StoreCall → Type
  | .get .. => Option Raw
  | .put .. => Unit
  | .create .. => Bool
  | .delete .. => Option Raw
  | .keys .. => List GoString
  | .range .. => List (GoString × Raw)
  | .listOrgs => List GoString
  | .hasOrg _ => Bool
  | .createOrg _ => Bool
  | .deleteOrg _ => Bool
  | .putBlob .. => Unit
  | .hasBlob .. => Bool
  | .deleteBlob .. => Unit

abbrev Store := Store.MemoryBackend Raw

def exec : (c : StoreCall) → Store → c.Result × Store
  | .get org coll key, s => (s.get org coll key, s)
  | .put org coll key val, s => ((), s.put org coll key val)
  | .create org coll key val, s =>
    ((s.create org coll key val).2.isNone, (s.create org coll key val).1)
  | .delete org coll key, s => ((s.delete org coll key).2, (s.delete org coll key).1)
  | .keys org coll, s => (s.keys org coll, s)
  | .range org coll, s => (s.range org coll, s)
  | .listOrgs, s => (s.listOrgs, s)
  | .hasOrg name, s => (s.hasOrg name, s)
  | .createOrg name, s => ((s.createOrg name).2.isNone, (s.createOrg name).1)
  | .deleteOrg name, s => ((s.deleteOrg name).2, (s.deleteOrg name).1)
  | .putBlob org checksum data, s => ((), s.putBlob org checksum data)
  | .hasBlob org checksum, s => (s.hasBlob org checksum, s)
  | .deleteBlob org checksum, s => ((), s.deleteBlob org checksum)

abbrev Handler := Program StoreCall.Result Response

namespace Org

def get (org coll key : GoString) : Handler (Option Raw) := .perform (StoreCall.get org coll key)

def put (org coll key : GoString) (val : Raw) : Handler Unit :=
  .perform (StoreCall.put org coll key val)

def create (org coll key : GoString) (val : Raw) : Handler Bool :=
  .perform (StoreCall.create org coll key val)

def delete (org coll key : GoString) : Handler (Option Raw) :=
  .perform (StoreCall.delete org coll key)

def keys (org coll : GoString) : Handler (List GoString) := .perform (StoreCall.keys org coll)

def range (org coll : GoString) : Handler (List (GoString × Raw)) :=
  .perform (StoreCall.range org coll)

def putBlob (org checksum : GoString) (data : Raw) : Handler Unit :=
  .perform (StoreCall.putBlob org checksum data)

def hasBlob (org checksum : GoString) : Handler Bool := .perform (StoreCall.hasBlob org checksum)

def deleteBlob (org checksum : GoString) : Handler Unit :=
  .perform (StoreCall.deleteBlob org checksum)

end Org

def lookupOrg (name : GoString) : Handler Bool := .perform (StoreCall.hasOrg name)

def listOrgs : Handler (List GoString) := .perform StoreCall.listOrgs

def createOrg (name : GoString) : Handler Bool := .perform (StoreCall.createOrg name)

def deleteOrg (name : GoString) : Handler Bool := .perform (StoreCall.deleteOrg name)

def writeError {α : Type} (status : Nat) (message : GoString) : Handler α :=
  .stop (.error status [message])

def refuseIf (condition : Prop) [Decidable condition] (status : Nat) (message : GoString) :
    Handler Unit :=
  if condition then writeError status message else pure ()

def refuseWith (status : Nat) : Option GoString → Handler Unit
  | some message => writeError status message
  | none => pure ()

def encodeMap (members : Members) : Raw := mustEncode (some (Std.ExtTreeMap.ofList members))

def stringError (status : Nat) (message : GoString) : Response :=
  .json status (encodeMap [(lit "error", .string message)])

def writeStringError {α : Type} (status : Nat) (message : GoString) : Handler α :=
  .stop (stringError status message)

def resolveOrg (org : GoString) : Handler Unit := do
  refuseIf (!(← lookupOrg org)) 404 (lit "Cannot find org " ++ org)

def global : GoString := []

def objectURL (r : Request) (org segment name : GoString) : GoString :=
  if org = global then r.baseURL ++ lit "/" ++ segment ++ lit "/" ++ name
  else r.baseURL ++ lit "/organizations/" ++ org ++ lit "/" ++ segment ++ lit "/" ++ name

def users : GoString := lit "users"

def clients : GoString := lit "clients"

def assign (obj : Option Object) (name : GoString) (v : Value) : Handler (Option Object) :=
  match obj with
  | none => .stop .panicked
  | some m => pure (some (m.insert name v))

def deleteAll (org coll : GoString) (keys : List GoString) : Handler Unit :=
  keys.forM fun key => do let _ ← Org.delete org coll key

/-- What the handlers take from outside: key pairs, identifiers and password hashes are random, and
`parsesAsKey` is the parser of PEM blocks. -/
structure Env where
  publicKey : GoString
  privateKey : GoString
  guid : GoString
  hashPassword : GoString → GoString
  parsesAsKey : GoString → Bool

def mustExist (org coll key message : GoString) : Handler Unit := do
  match ← Org.get org coll key with
  | some _ => pure ()
  | none => writeError 404 message

def viewObject (r : Request) (org coll key : GoString) : Handler (Option Raw) :=
  match r.preread with
  | none => Org.get org coll key
  | some p =>
    if p.org = org ∧ p.coll = coll ∧ p.key = key then pure (some p.raw) else Org.get org coll key

def mustView (r : Request) (org coll key message : GoString) : Handler Unit := do
  refuseIf (← viewObject r org coll key).isNone 404 message

def decodeBody (r : Request) : Handler (Option Object) :=
  match unmarshalMap r.body with
  | some obj => pure obj
  | none => writeError 400 (lit "invalid JSON body")

end CincServer.Api
