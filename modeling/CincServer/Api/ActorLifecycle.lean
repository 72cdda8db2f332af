import CincServer.Api.Actor
import CincServer.Api.GroupHandlers

/-!
# Creating and deleting actors
-/

namespace CincServer.Api
open Go Json Lib

/-- `^[.A-Za-z0-9_-]+$` -/
def clientNameRE : Regex Rune :=
  nonEmptyOf fun r => upperCase r || lowerCase r || digit r || oneOf "._-" r

def invalidClientNameMessage (name : GoString) : GoString :=
  lit "Invalid client name '" ++ name ++
    lit "' using regex: 'Malformed client name.  Must be A-Z, a-z, 0-9, _, -, or .'."

def invalidPublicKeyMessage : GoString := lit "Public Key must be a valid key."

def validPublicKey (env : Env) (s : GoString) : Bool :=
  ((lit "-----BEGIN PUBLIC KEY").isPrefixOf s || (lit "-----BEGIN RSA PUBLIC KEY").isPrefixOf s) &&
    env.parsesAsKey s

def createAndPubkeyMessage : GoString :=
  lit "You must specify either create_key or public_key, but not both"

def createKeyFieldsError (obj : Object) (createKey : Bool) : Option GoString :=
  if lit "private_key" ∈ obj then some privateKeyFieldNotSupportMsg
  else if createKey && bodyPublicKey obj ≠ [] then some createAndPubkeyMessage
  else none

def validateActor [Unicode] (segment name : GoString) (obj : Option Object) :
    Handler (Option Object) :=
  if segment = users then
    match validateUser (contents obj) ∅ true with
    | some message => writeError 400 message
    | none => pure (obj.map lowerEmail)
  else if segment = clients && !matchString clientNameRE name then
    writeError 400 (invalidClientNameMessage name)
  else pure obj

def clientOrg (name : GoString) : List GoString → Handler (Option GoString)
  | [] => return none
  | org :: orgs => do
      if ← lookupOrg org then
        if (← Org.get org clients name).isSome then return some org
      clientOrg name orgs

def actorNameCollision (segment name : GoString) : Handler (Option GoString) := do
  if segment = clients then
    if (← Org.get global users name).isSome then
      return some (lit "A user named " ++ name ++ lit " already exists; a client cannot share its name")
    return none
  else if segment = users then
    match ← clientOrg name (← listOrgs) with
    | some org => return some (lit "A client named " ++ name ++ lit " already exists in organization " ++
        org ++ lit "; a user cannot share its name")
    | none => return none
  else return none

def generatesKey (r : Request) (createKey : Bool) (obj : Object) : Bool :=
  bodyPublicKey obj = [] && (r.apiVersion < 1 || createKey)

def recordKey (env : Env) (generate : Bool) (obj : Option Object) : Handler (Option Object) :=
  if bodyPublicKey (contents obj) ≠ [] then
    assign obj (lit "public_key") (.string (bodyPublicKey (contents obj)))
  else if generate then assign obj (lit "public_key") (.string env.publicKey)
  else pure obj

def createdBody (env : Env) (r : Request) (org segment name : GoString) (generate : Bool) : Raw :=
  let uri : Members := [(lit "uri", .string (objectURL r org segment name))]
  let key : Members :=
    [(lit "name", .string (lit "default")), (lit "public_key", .string env.publicKey),
    (lit "expiration_date", .string infinity), (lit "private_key", .string env.privateKey)]
  if generate then encodeMap (uri ++ [(lit "chef_key", mapValue (some (Std.ExtTreeMap.ofList key)))])
  else encodeMap uri

def createBody [Unicode] (env : Env) (r : Request) (segment : GoString) :
    Handler (GoString × Bool × Option Object) := do
  let obj ← decodeBody r
  let name := firstString (contents obj) [lit "name", lit "username"]
  refuseIf (name = []) 400 (lit "Field 'name' missing")
  let obj ← validateActor segment name obj
  let pub := bodyPublicKey (contents obj)
  refuseIf (pub ≠ [] ∧ !validPublicKey env pub) 400 invalidPublicKeyMessage
  let createKey := isTrue (field (contents obj) (lit "create_key"))
  refuseWith 400 (if r.apiVersion ≥ 1 then createKeyFieldsError (contents obj) createKey else none)
  return (name, createKey, deleteField (lit "create_key") obj)

def joinClients (enforceACL : Bool) (org segment name : GoString) (obj : Option Object) :
    Handler Unit :=
  if enforceACL && segment = clients && !isTrue (field (contents obj) (lit "validator")) then
    addMember org (lit "clients") .clients name
  else pure ()

def createActor [Unicode] (env : Env) (enforceACL : Bool) (r : Request) (org segment : GoString) :
    Handler Response := do
  let (name, createKey, obj) ← createBody env r segment
  refuseWith 409 (← actorNameCollision segment name)
  let generate := generatesKey r createKey (contents obj)
  let obj ← recordKey env generate obj
  let obj := deleteField (lit "private_key") (deleteField (lit "chef_key") obj)
  let obj ← stashPassword env org name obj
  let created ← Org.create org segment name (mustEncode obj)
  refuseIf (!created) 409 (lit "Object already exists")
  grantCreator enforceACL r org segment name
  joinClients enforceACL org segment name obj
  return .json 201 (createdBody env r org segment name generate)

inductive ActorRoute
  | users
  | clients (org : GoString)

namespace ActorRoute

def org : ActorRoute → GoString
  | users => global
  | clients org => org

def segment : ActorRoute → GoString
  | users => Api.users
  | clients _ => Api.clients

def scope : ActorRoute → Handler Unit
  | users => pure ()
  | clients org => resolveOrg org

end ActorRoute

def postActor [Unicode] (env : Env) (enforceACL : Bool) (r : Request) (route : ActorRoute) :
    Handler Response := do
  route.scope
  createActor env enforceACL r route.org route.segment

def removeUserFromOrg (user org : GoString) : Handler Unit := do
  if ← lookupOrg org then
    let _ ← Org.delete org assocColl user
    let _ ← Org.delete org assocReqColl (inviteID user org)
    removeActorFromAllGroups org .users user
    removeFromACLs org (lit "actors") user

def removeUserFromOrgs (user : GoString) : Handler Unit := do
  removeFromACLs global (lit "actors") user
  let orgs ← listOrgs
  orgs.forM (removeUserFromOrg user)

def cleanupActor (org segment name : GoString) : Handler Unit := do
  if segment = users then removeUserFromOrgs name
  else if segment = clients then
    removeFromACLs org (lit "actors") name
    removeActorFromAllGroups org .clients name
  deleteACL org segment name
  deleteActorKeys org segment name

def withClientEnvelope (org : GoString) (doc : Object) : Object :=
  let name := firstString doc [lit "name", lit "clientname"]
  doc.insertMany [(lit "chef_type", .string (lit "client")),
    (lit "json_class", .string (lit "Chef::ApiClient")), (lit "clientname", .string name),
    (lit "name", .string name), (lit "orgname", .string org)]

def enveloped (segment org : GoString) (raw : Raw) : Raw :=
  if segment ≠ clients then raw
  else match unmarshalMap raw with
    | none => raw
    | some doc => mustEncode (some (withClientEnvelope org (contents doc)))

def scopedDelete (r : Request) (org segment name : GoString) : Handler Response := do
  mustExist org segment name (lit "Cannot find " ++ segment ++ lit " " ++ name)
  cleanupActor org segment name
  match ← Org.delete org segment name with
  | some raw => return .json 200 (enveloped segment org (actorView r raw))
  | none => cannotFind segment name

/-!
## Managing the keys of actors

The default key is the stored row "default" when there is one and the record's own public key
otherwise; the handlers write the record along with the row.
-/

/-- `^[.A-Za-z0-9_:-]+$` -/
def keyNameRE : Regex Rune :=
  nonEmptyOf fun r => upperCase r || lowerCase r || digit r || oneOf "._:-" r

def digits (count : Nat) : Regex Rune := .seqs (List.replicate count (.sat digit))

/-- `^([0-9]{4}-[0-9]{2}-[0-9]{2}T[0-9]{2}:[0-9]{2}:[0-9]{2}Z|infinity)$` -/
def keyDateRE : Regex Rune :=
  .alt (.seqs [digits 4, rune '-', digits 2, rune '-', digits 2, rune 'T', digits 2, rune ':', digits 2, rune ':',
      digits 2, rune 'Z'])
    (.seqs ("infinity".toList.map rune))

def validKeyName (s : GoString) : Bool := matchString keyNameRE s && s ≠ lit "." && s ≠ lit ".."

def daysIn (month year : Nat) : Nat :=
  if month = 2 then if year % 4 = 0 ∧ (year % 100 ≠ 0 ∨ year % 400 = 0) then 29 else 28
  else if month ∈ [4, 6, 9, 11] then 30
  else 31

def parsesAsDate (s : GoString) : Bool :=
  let number (start count : Nat) : Nat :=
    ((s.drop start).take count).foldl (fun n c => 10 * n + (c.toNat - 0x30)) 0
  let month := number 5 2
  1 ≤ month && month ≤ 12 && 1 ≤ number 8 2 && number 8 2 ≤ daysIn month (number 0 4) &&
    number 11 2 < 24 && number 14 2 < 60 && number 17 2 < 60

def validExpirationDate (s : GoString) : Bool :=
  matchString keyDateRE s && (s = infinity || parsesAsDate s)

def badExpirationDateMessage : GoString :=
  lit "Field expiration_date is invalid. All dates must be a valid date in ISO8601 form of exactly " ++
    lit "YYYY-MM-DDThh:mm:ss, eg 2099-02-28T01:00:00, or the string \"infinity\". All times are assumed UTC, " ++
    lit "so do not include a Z on the end of your date."

def isGiven : Value → Bool
  | .null => false
  | .string s => s ≠ []
  | _ => true

def validateKeyFields (env : Env) (body : Object) : Option GoString :=
  let public_key := field body (lit "public_key")
  let expiration_date := field body (lit "expiration_date")
  if lit "name" ∈ body ∧ !validKeyName (str (field body (lit "name"))) then some (lit "Field 'name' invalid")
  else if isGiven public_key && !validPublicKey env (str public_key) then some invalidPublicKeyMessage
  else if isGiven expiration_date && !validExpirationDate (str expiration_date) then some badExpirationDateMessage
  else none

def stringOr (obj : Object) (name fallback : GoString) : GoString :=
  if str (field obj name) = [] then fallback else str (field obj name)

def keyFields (name publicKey expiration : GoString) : Members :=
  [(lit "name", .string name), (lit "public_key", .string publicKey), (lit "expiration_date", .string expiration)]

def keyAnswer (key : Members) (privateKey : GoString) : Raw :=
  encodeMap (if privateKey = [] then key else key ++ [(lit "private_key", .string privateKey)])

def loadActor (org segment name : GoString) : Handler (Option Object) := do
  match ← Org.get org segment name with
  | none => cannotFind segment name
  | some raw =>
    match unmarshalMap raw with
    | none => .stop (.json 200 (.malformed []))
    | some actor => return actor

def actorKey (actor : Option Object) : GoString := str (field (contents actor) (lit "public_key"))

def setActorPublicKey (org segment name : GoString) (actor : Option Object) (pub : GoString) :
    Handler Unit := do
  let actor ← if pub = [] then pure (deleteField (lit "public_key") actor)
    else assign actor (lit "public_key") (.string pub)
  Org.put org segment name (mustEncode actor)

def keyObject (name publicKey : GoString) : Raw :=
  encodeMap (keyFields name publicKey infinity ++ [(lit "expired", .bool false)])

def listedRows [Clock] (org coll : GoString) (now : Int) :
    List GoString → Handler (List (GoString × Bool))
  | [] => return []
  | key :: keys => do
      match ← Org.get org coll key with
      | none => listedRows org coll now keys
      | some raw =>
        let expired := keyExpired (unmarshalAnyway storedKeyFields ⟨[], []⟩ raw).expirationDate now
        return (key, expired) :: (← listedRows org coll now keys)

def listedKeys [Clock] (route : ActorRoute) (name : GoString) (now : Int) :
    Handler (List (GoString × Bool)) := do
  route.scope
  let actor ← loadActor route.org route.segment name
  let storedDefault ← Org.get route.org (keysColl route.segment name) defaultKeyName
  let own := if storedDefault.isNone ∧ actorKey actor ≠ [] then [(defaultKeyName, false)] else []
  let keys ← Org.keys route.org (keysColl route.segment name)
  return own ++ (← listedRows route.org (keysColl route.segment name) now keys)

def keyListItem (base name : GoString) (expired : Bool) : Value :=
  let item : Members := [(lit "name", .string name), (lit "uri", .string (base ++ lit "/" ++ name)),
    (lit "expired", .bool expired)]
  mapValue (some (Std.ExtTreeMap.ofList item))

def listKeys [Clock] (r : Request) (route : ActorRoute) (name : GoString) (now : Int) :
    Handler Response := do
  let keys ← listedKeys route name now
  let base := objectURL r route.org route.segment name ++ lit "/keys"
  return .json 200 (.document (.array (keys.map fun key => keyListItem base key.1 key.2)))

def getKey (route : ActorRoute) (name keyName : GoString) : Handler Response := do
  route.scope
  let actor ← loadActor route.org route.segment name
  match ← Org.get route.org (keysColl route.segment name) keyName with
  | some raw => return .json 200 raw
  | none =>
    if keyName = defaultKeyName ∧ actorKey actor ≠ [] then return .json 200 (keyObject defaultKeyName (actorKey actor))
    writeError 404 (lit "Cannot find key " ++ keyName)

def keyExists : GoString := lit "Key already exists"

def addKey (env : Env) (r : Request) (route : ActorRoute) (name : GoString) : Handler Response := do
  route.scope
  let actor ← loadActor route.org route.segment name
  let body ← decodeBody r
  let keyName := str (field (contents body) (lit "name"))
  refuseIf (keyName = []) 400 (lit "Field 'name' missing")
  refuseWith 400 (validateKeyFields env (contents body))
  refuseIf (keyName = defaultKeyName ∧ actorKey actor ≠ []) 409 keyExists
  let generate := str (field (contents body) (lit "public_key")) = []
  let pub := stringOr (contents body) (lit "public_key") env.publicKey
  let stored := keyFields keyName pub (stringOr (contents body) (lit "expiration_date") infinity)
  let created ← Org.create route.org (keysColl route.segment name) keyName (encodeMap stored)
  refuseIf (!created) 409 keyExists
  if keyName = defaultKeyName then setActorPublicKey route.org route.segment name actor pub
  let uri : Members :=
    [(lit "uri", .string (objectURL r route.org route.segment name ++ lit "/keys/" ++ keyName))]
  return .json 201 (encodeMap (if generate then uri ++ [(lit "private_key", .string env.privateKey)] else uri))

def storeDefaultKey (org segment name : GoString) (actor : Option Object) (body : Object)
    (privateKey : GoString) :
    Handler Response := do
  refuseIf (actorKey actor = []) 404 (lit "Cannot find key " ++ defaultKeyName)
  let pub := stringOr body (lit "public_key") (actorKey actor)
  let key := keyFields defaultKeyName pub (stringOr body (lit "expiration_date") infinity)
  Org.put org (keysColl segment name) defaultKeyName (encodeMap key)
  setActorPublicKey org segment name actor pub
  return .json 200 (keyAnswer key privateKey)

def renameKey (org segment name keyName newName : GoString) (actor : Option Object) (key : Members)
    (pub privateKey : GoString) : Handler Response := do
  refuseIf (newName = defaultKeyName ∧ actorKey actor ≠ []) 409 keyExists
  let created ← Org.create org (keysColl segment name) newName (encodeMap key)
  refuseIf (!created) 409 keyExists
  let _ ← Org.delete org (keysColl segment name) keyName
  if keyName = defaultKeyName then setActorPublicKey org segment name actor []
  else if newName = defaultKeyName then setActorPublicKey org segment name actor pub
  return .json 201 (keyAnswer key privateKey)

def updateKey (org segment name keyName : GoString) (actor : Option Object) (body : Object)
    (privateKey : GoString)
    (raw : Raw) : Handler Response :=
  match unmarshalStruct storedKeyFields ⟨[], []⟩ raw with
  | none => .stop .internalError
  | some old => do
      let newName := stringOr body (lit "name") keyName
      refuseIf (!validKeyName newName) 400 (lit "Field 'name' invalid")
      let pub := stringOr body (lit "public_key") old.publicKey
      let key := keyFields newName pub (stringOr body (lit "expiration_date") old.expirationDate)
      if newName = keyName then
        Org.put org (keysColl segment name) keyName (encodeMap key)
        if keyName = defaultKeyName then setActorPublicKey org segment name actor pub
        return .json 200 (keyAnswer key privateKey)
      else renameKey org segment name keyName newName actor key pub privateKey

def putKey (env : Env) (r : Request) (route : ActorRoute) (name keyName : GoString) :
    Handler Response := do
  route.scope
  let actor ← loadActor route.org route.segment name
  let body ← decodeBody r
  let createKey := isTrue (field (contents body) (lit "create_key"))
  let body := deleteField (lit "create_key") body
  refuseIf (createKey ∧ str (field (contents body) (lit "public_key")) ≠ []) 400
    (lit "Since you requested a new key be created, you cannot also specify a public_key.")
  refuseWith 400 (validateKeyFields env (contents body))
  let old ← Org.get route.org (keysColl route.segment name) keyName
  refuseIf (old.isNone ∧ keyName ≠ defaultKeyName) 404 (lit "Cannot find key " ++ keyName)
  let body ← if createKey then assign body (lit "public_key") (.string env.publicKey) else pure body
  let privateKey := if createKey then env.privateKey else []
  match old with
  | none => storeDefaultKey route.org route.segment name actor (contents body) privateKey
  | some raw => updateKey route.org route.segment name keyName actor (contents body) privateKey raw

def deleteKey (route : ActorRoute) (name keyName : GoString) : Handler Response := do
  route.scope
  let actor ← loadActor route.org route.segment name
  match ← Org.delete route.org (keysColl route.segment name) keyName with
  | some raw =>
    if keyName = defaultKeyName ∧ actorKey actor ≠ [] then
      setActorPublicKey route.org route.segment name actor []
    return .json 200 raw
  | none =>
    if keyName = defaultKeyName ∧ actorKey actor ≠ [] then
      Org.put route.org route.segment name (mustEncode (deleteField (lit "public_key") actor))
      return .json 200 (encodeMap (keyFields defaultKeyName (actorKey actor) infinity ++
        [(lit "expired", .bool false)]))
    writeError 404 (lit "Cannot find key " ++ keyName)

def putActor [Unicode] (env : Env) (r : Request) (route : ActorRoute) (name : GoString) :
    Handler Response := do
  route.scope
  mustView r route.org route.segment name (lit "Cannot find " ++ route.segment ++ lit " " ++ name)
  updateRecord env r route.org route.segment name

end CincServer.Api
