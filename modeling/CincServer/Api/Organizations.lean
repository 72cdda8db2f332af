import CincServer.Api.ActorLifecycle
import CincServer.State.Load

/-!
# Organizations
-/

namespace CincServer.Api
open Go Json Lib

def orgsColl : GoString := lit "organizations"

/-- `^[a-z0-9][a-z0-9_-]{0,254}$` -/
def orgNameRE (s : GoString) : Bool :=
  match runes s with
  | [] => false
  | first :: rest =>
    (lowerCase first || digit first) && rest.length ≤ 254 && rest.all fun r =>
      lowerCase r || digit r || oneOf "_-" r

def validOrgFullName : GoString → Bool
  | [] => false
  | first :: rest => rest.length ≤ 1022 && first ∉ lit " \t\n\x0b\x0c\r" && 0x0A ∉ rest

def environmentsColl : GoString := lit "environments"

def defaultEnvironment : Raw :=
  .document (.object [(lit "name", .string (lit "_default")),
    (lit "description", .string (lit "The default Chef environment")),
    (lit "cookbook_versions", .object []), (lit "json_class", .string (lit "Chef::Environment")),
    (lit "chef_type", .string (lit "environment")), (lit "default_attributes", .object []),
    (lit "override_attributes", .object [])])

def seedOrg (org : GoString) : Handler Unit := do
  seed org environmentsColl (lit "_default") defaultEnvironment
  seedAuthz org

def validatorName (org : GoString) : GoString := org ++ lit "-validator"

def validatorClientsACL (validator : GoString) : Object :=
  let acl := containerACL (lit "clients")
  let ace := contents (asMap (field acl (lit "create")))
  acl.insert (lit "create") (mapValue (some (ace.insert (lit "actors") (stringArray [validator]))))

def orgMeta (env : Env) (name fullName : GoString) : Raw :=
  encodeMap [(lit "name", .string name), (lit "full_name", .string fullName), (lit "guid", .string env.guid)]

def validatorDoc (env : Env) (name : GoString) : Raw :=
  .document (.object [(lit "name", .string (validatorName name)),
    (lit "clientname", .string (validatorName name)), (lit "validator", .bool true),
    (lit "public_key", .string env.publicKey)])

def createOrganizationWithKey (env : Env) (name fullName : GoString) : Handler Unit := do
  refuseIf (!(← createOrg name)) 409 (lit "Organization already exists")
  seedOrg name
  Org.put global orgsColl name (orgMeta env name fullName)
  Org.put name clients (validatorName name) (validatorDoc env name)
  Org.put name aclsColl (aclKey containersColl clients) (mustEncode (some (validatorClientsACL (validatorName name))))

def createOrganization (env : Env) (r : Request) : Handler Response := do
  let obj ← decodeBody r
  let name := str (field (contents obj) (lit "name"))
  refuseIf (name = []) 400 (lit "Field 'name' missing")
  refuseIf (!orgNameRE name) 400 (lit "Field 'name' invalid")
  refuseIf (lit "full_name" ∉ contents obj) 400 (lit "Field 'full_name' missing")
  let fullName := str (field (contents obj) (lit "full_name"))
  refuseIf (!validOrgFullName fullName) 400 (lit "Field 'full_name' invalid")
  createOrganizationWithKey env name fullName
  return .json 201 (encodeMap [(lit "clientname", .string (validatorName name)),
    (lit "private_key", .string env.privateKey),
    (lit "uri", .string (r.baseURL ++ lit "/organizations/" ++ name))])

def givesOtherName (name : GoString) (update : Object) : Bool :=
  match update[lit "name"]? with
  | none => false
  | some (.string given) => given ≠ name
  | some _ => true

def updateFullName (stored update : Option Object) : Handler (Option Object) :=
  match (contents update)[lit "full_name"]? with
  | none => pure stored
  | some given =>
    if !validOrgFullName (str given) then writeError 400 (lit "Field 'full_name' invalid")
    else assign stored (lit "full_name") (.string (str given))

def putOrganization (r : Request) (name : GoString) : Handler Response := do
  match ← Org.get global orgsColl name with
  | none => writeError 404 (lit "Cannot find org " ++ name)
  | some raw =>
    match unmarshalMap raw with
    | none => .stop .internalError
    | some stored =>
      let update ← decodeBody r
      refuseIf (givesOtherName name (contents update)) 400 (lit "Field 'name' invalid")
      let stored ← updateFullName stored update
      Org.put global orgsColl name (mustEncode stored)
      return .json 200 (mustEncode stored)

def deleteOrganization (name : GoString) : Handler Response := do
  match ← Org.delete global orgsColl name with
  | none => writeError 404 (lit "Cannot find org " ++ name)
  | some raw =>
    let _ ← deleteOrg name
    return .json 200 raw

/-!
## The running server

Requests are served at once, their store calls interleaved. What is not modelled call by call is
any program that leaves alone the collections written by the handlers below only.
-/

def StoreCall.Spares (colls : List GoString) : StoreCall → Prop
  | .put _ coll _ _ => coll ∉ colls
  | .create _ coll _ _ => coll ∉ colls
  | _ => True

def inOrg {α : Type} (org : GoString) (h : Handler α) : Handler α := do
  resolveOrg org
  h

inductive Served [Unicode] (loads : Raw → Prop) : {α : Type} → Handler α → Prop
  | createUser (env : Env) (enforceACL : Bool) (r : Request) : Served loads (createActor env enforceACL r global users)
  | createClient (env : Env) (enforceACL : Bool) (r : Request) (org : GoString) :
      Served loads (inOrg org (createActor env enforceACL r org clients))
  | putUser (env : Env) (r : Request) (name : GoString) : Served loads (scopedPut env r global users name)
  | putClient (env : Env) (r : Request) (org name : GoString) :
      Served loads (inOrg org (scopedPut env r org clients name))
  | deleteUser (r : Request) (name : GoString) : Served loads (scopedDelete r global users name)
  | deleteClient (r : Request) (org name : GoString) : Served loads (inOrg org (scopedDelete r org clients name))
  | associateUser (r : Request) (org : GoString) : Served loads (associateUser r org)
  | disassociateUser (org user : GoString) : Served loads (disassociateUser org user)
  | createInvite (r : Request) (org : GoString) : Served loads (createInvite r org)
  | rescindInvite (org id : GoString) : Served loads (rescindInvite org id)
  | respondInvite (r : Request) (user id : GoString) : Served loads (respondInvite r user id)
  | createGroup (r : Request) (org : GoString) : Served loads (createGroup r org)
  | putGroup (r : Request) (org name : GoString) : Served loads (putGroup r org name)
  | deleteGroup (org name : GoString) : Served loads (deleteGroup org name)
  | putACLPerm (r : Request) (org typ name perm : GoString) : Served loads (inOrg org (putACLPerm r org typ name perm))
  | createOrganization (env : Env) (r : Request) : Served loads (createOrganization env r)
  | putOrganization (r : Request) (name : GoString) : Served loads (putOrganization r name)
  | deleteOrganization (name : GoString) : Served loads (deleteOrganization name)
  | provisionOrg (env : Env) (name fullName : GoString) : Served loads (createOrganizationWithKey env name fullName)
  | loadGroups (org : GoString) (files : List State.File) (held : ∀ file ∈ files, loads file.contents) :
      Served loads (State.loadGroups org files)
  | other {α : Type} {p : Handler α} (spares : p.Only (StoreCall.Spares [groupsColl, assocReqColl])) : Served loads p

def Reachable [Unicode] (loads : Raw → Prop) : Store → Prop :=
  Pool.Reaches exec (fun p : Handler Unit => ∃ (α : Type) (h : Handler α), Served loads h ∧ p = h.forget)
    Store.newMemoryBackend

end CincServer.Api
