import CincServer.Api.Handler
import CincServer.Api.UserValidation

/-!
# Keys of actors
-/

namespace CincServer.Api
open Go Json Lib

def keysColl (segment actor : GoString) : GoString := segment ++ lit "_keys:" ++ actor

def defaultKeyName : GoString := lit "default"

def infinity : GoString := lit "infinity"

class Clock where
  parseRFC3339 : GoString → Option Int

def keyExpired [Clock] (expiration : GoString) (now : Int) : Bool :=
  if expiration = [] ∨ expiration = infinity then false
  else match Clock.parseRFC3339 expiration with
    | none => true
    | some expires => !(now < expires)

structure StoredKey where
  publicKey : GoString
  expirationDate : GoString

def storedKeyFields : List (StructField StoredKey) :=
  [.string (lit "public_key") fun s key => { key with publicKey := s },
   .string (lit "expiration_date") fun s key => { key with expirationDate := s }]

def signingKey [Clock] (now : Int) (raw : Raw) : Option GoString :=
  match unmarshalStruct storedKeyFields ⟨[], []⟩ raw with
  | none => none
  | some key =>
    if key.publicKey = [] ∨ keyExpired key.expirationDate now then none else some key.publicKey

def signingKeys [Clock] (org segment name actorPublicKey : GoString) (now : Int) :
    Handler (List GoString) := do
  let rows ← Org.range org (keysColl segment name)
  let keys := rows.filterMap fun row => signingKey now row.2
  if (∀ row ∈ rows, row.1 ≠ defaultKeyName) ∧ actorPublicKey ≠ [] then return keys ++ [actorPublicKey]
  return keys

def setStoredDefaultPublicKey (org segment name pub : GoString) : Handler Unit := do
  match ← Org.get org (keysColl segment name) defaultKeyName with
  | none => pure ()
  | some raw =>
    match unmarshalMap raw with
    | none => .stop .internalError
    | some row =>
      let row ← assign row (lit "public_key") (.string pub)
      Org.put org (keysColl segment name) defaultKeyName (mustEncode row)

def deleteActorKeys (org segment name : GoString) : Handler Unit := do
  let names ← Org.keys org (keysColl segment name)
  deleteAll org (keysColl segment name) names

/-! ## Actors: clients and users -/

def adminField : GoString := lit "admin"

def passwordsCollection : GoString := lit "passwords"

def keyManagementMessage : GoString :=
  lit "Since Server API v1, all keys must be updated via the keys endpoint. "

def privateKeyFieldNotSupportMsg : GoString :=
  lit "Please use create_key: true instead of private_key: true"

def updateKeyFieldsError (obj : Object) : Option GoString :=
  if lit "private_key" ∈ obj then some privateKeyFieldNotSupportMsg
  else if lit "create_key" ∈ obj ∨ lit "public_key" ∈ obj then some keyManagementMessage
  else none

def bodyPublicKey (obj : Object) : GoString :=
  if str (field obj (lit "public_key")) ≠ [] then str (field obj (lit "public_key"))
  else match asMap (field obj (lit "chef_key")) with
    | some ck => str (field ck (lit "public_key"))
    | none => []

def decodeStored (raw : Option Raw) : Object := contents ((raw.bind unmarshalMap).getD none)

def storedRecord (org segment name : GoString) : Handler Object := do
  return decodeStored (← Org.get org segment name)

def storedField (org segment name fieldName : GoString) : Handler Value := do
  return field (decodeStored (← Org.get org segment name)) fieldName

def storedPublicKey (org segment name : GoString) : Handler GoString := do
  return str (field (decodeStored (← Org.get org segment name)) (lit "public_key"))

def preservePrivilege (r : Request) (org segment name : GoString) (obj : Option Object) :
    Handler (Option Object) := do
  if segment ≠ users then return obj
  match r.actor with
  | none => return obj
  | some actor =>
    if actor.isGlobalAdmin then return obj
    match ← storedField org segment name adminField with
    | .null => return deleteField adminField obj
    | stored => assign obj adminField stored

def stashPassword (env : Env) (org name : GoString) (obj : Option Object) :
    Handler (Option Object) := do
  match field (contents obj) (lit "password") with
  | .string pw =>
    Org.put org passwordsCollection name (.malformed (env.hashPassword pw))
    return deleteField (lit "password") obj
  | _ => return obj

def actorView (r : Request) (raw : Raw) : Raw :=
  if r.apiVersion < 1 then raw
  else match unmarshalMap raw with
    | none => raw
    | some doc =>
      if lit "public_key" ∈ contents doc then mustEncode (deleteField (lit "public_key") doc)
      else raw

def updateBody (r : Request) : Handler (Option Object) := do
  let obj ← decodeBody r
  let obj ←
    if r.apiVersion ≥ 1 then
      match updateKeyFieldsError (contents obj) with
      | some message => writeError 400 message
      | none => pure (deleteField (lit "chef_key") obj)
    else pure obj
  return deleteField (lit "create_key") obj

def mergeUpdate [Unicode] (org segment name : GoString) (obj : Option Object) :
    Handler (Option Object) := do
  if segment ≠ users then return obj
  let stored ← storedRecord org segment name
  match validateUser (contents obj) stored false with
  | some message => writeError 400 message
  | none => return some (mergeUser stored (lowerEmail (contents obj)))

def regenerates (r : Request) (obj : Object) : Bool :=
  isTrue (field obj (lit "private_key")) && r.apiVersion == 0

def givenKey (env : Env) (regenerate : Bool) (obj : Object) : GoString :=
  if regenerate then env.publicKey else bodyPublicKey obj

def carryKey (env : Env) (regenerate : Bool) (org segment name : GoString) (obj : Option Object) :
    Handler (Option Object) := do
  let obj := deleteField (lit "private_key") obj
  let given := givenKey env regenerate (contents obj)
  let pub ←
    if given ≠ [] then do
      setStoredDefaultPublicKey org segment name given
      pure given
    else storedPublicKey org segment name
  let obj := deleteField (lit "chef_key") obj
  if pub ≠ [] then assign obj (lit "public_key") (.string pub) else return obj

def updateRecord [Unicode] (env : Env) (r : Request) (org segment name : GoString) :
    Handler Response := do
  let obj ← updateBody r
  let obj ← mergeUpdate org segment name obj
  let regenerate := regenerates r (contents obj)
  let obj ← carryKey env regenerate org segment name obj
  let obj ← preservePrivilege r org segment name obj
  let obj ← stashPassword env org name obj
  let raw := mustEncode obj
  Org.put org segment name raw
  if regenerate && env.privateKey ≠ [] then
    -- the private key is returned once and never stored
    return .json 200 (mustEncode (← assign obj (lit "private_key") (.string env.privateKey)))
  return .json 200 (actorView r raw)

def scopedPut [Unicode] (env : Env) (r : Request) (org segment name : GoString) :
    Handler Response := do
  mustExist org segment name (lit "Cannot find " ++ segment ++ lit " " ++ name)
  updateRecord env r org segment name

end CincServer.Api
