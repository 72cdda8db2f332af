import CincServer.Api.Requests
import CincServer.Lib.Failure

/-!
# Bootstrap

`New` decides from the stored private keys what is left to do. The record of the administrator, each
organization and each key are written one after another, and the process may be killed in between; the
transaction that creates an organization is one step.
-/

namespace CincServer.Server
open Go Json Lib Api

structure KeyCodec (K : Type) where
  encodePrivateKeyPEM : K → GoString
  encodePublicKeyPEM : K → GoString
  parsePrivateKey : Raw → Option K
  parse_encode : ∀ key, parsePrivateKey (.malformed (encodePrivateKeyPEM key)) = some key
  parseWebUIKey : GoString → Option K

structure Options where
  orgs : List GoString
  adminName : GoString
  webUIKey : GoString

def Options.withDefaults (o : Options) : Options where
  orgs := if o.orgs = [] then [lit "acme"] else o.orgs
  adminName := if o.adminName = [] then lit "pivotal" else o.adminName
  webUIKey := o.webUIKey

/-- What a start takes from outside: keys, identifiers and salts are random. A `Raw` does not determine
its bytes, so `bytesEqual` compares them. -/
structure BootEnv (K : Type) where
  generateKeys : Nat → K
  randomGUID : GoString → GoString
  isPasswordHash : Raw → Bool
  hashPassword : Raw → Raw
  bytesEqual : Raw → Raw → Bool

inductive BootCall
  | store (c : StoreCall)
  | tx (fn : Handler Unit)

def BootCall.Result : BootCall → Type
  | .store c => c.Result
  | .tx _ => Except Response Unit

def BootCall.exec : (c : BootCall) → Store → c.Result × Store
  | .store c, s => Api.exec c s
  | .tx fn, s =>
    match fn.run Api.exec s with
    | (.ok (), t) => (.ok (), t)
    | (.error err, _) => (.error err, s)

inductive BootError
  | parseStoredKey (name : GoString)
  | parseWebUIKey
  | createOrg (name : GoString) (err : Response)

abbrev Boot := Program BootCall.Result BootError

namespace Boot

def get (org coll key : GoString) : Boot (Option Raw) :=
  .perform (BootCall.store (.get org coll key))

def put (org coll key : GoString) (val : Raw) : Boot Unit :=
  .perform (BootCall.store (.put org coll key val))

def range (org coll : GoString) : Boot (List (GoString × Raw)) :=
  .perform (BootCall.store (.range org coll))

def listOrgs : Boot (List GoString) := .perform (BootCall.store .listOrgs)

def lookupOrg (name : GoString) : Boot Bool := .perform (BootCall.store (.hasOrg name))

def tx (fn : Handler Unit) : Boot (Except Response Unit) := .perform (BootCall.tx fn)

end Boot

def serverKeysColl : GoString := lit "server_keys"

def serverKeyAdmin : GoString := lit "admin"

def serverKeyValidator (org : GoString) : GoString := lit "validator:" ++ org

variable {K : Type} (codec : KeyCodec K)

def KeyCodec.privatePEM (key : K) : Raw := .malformed (codec.encodePrivateKeyPEM key)

def loadServerKey (name : GoString) : Boot (Option K) := do
  match ← Boot.get global serverKeysColl name with
  | none => return none
  | some raw =>
    match codec.parsePrivateKey raw with
    | none => .stop (.parseStoredKey name)
    | some key => return some key

def storeServerKey (name : GoString) (key : K) : Boot Unit :=
  Boot.put global serverKeysColl name (codec.privatePEM key)

structure OrgPlan (K : Type) where
  name : GoString
  priv : K
  create : Bool

def loadPlans : List GoString → Boot (List (GoString × Option K))
  | [] => return []
  | name :: rest => do
      let priv ← loadServerKey codec (serverKeyValidator name)
      let plans ← loadPlans rest
      return (name, priv) :: plans

def assignKeys (gen : Nat → K) : Nat → List (GoString × Option K) → List (OrgPlan K)
  | _, [] => []
  | gi, (name, some priv) :: rest => ⟨name, priv, false⟩ :: assignKeys gen gi rest
  | gi, (name, none) :: rest => ⟨name, gen gi, true⟩ :: assignKeys gen (gi + 1) rest

def adminDoc (adminName pub : GoString) : Raw :=
  .document (.object [(lit "username", .string adminName), (lit "admin", .bool true), (lit "public_key", .string pub)])

def bootstrapAdmin (adminName : GoString) (key : K) (fresh : Bool) : Boot Unit :=
  if fresh then do
    Boot.put global users adminName (adminDoc adminName (codec.encodePublicKeyPEM key))
    storeServerKey codec serverKeyAdmin key
  else return ()

def checkWebUIKey (webUIKey : GoString) : Boot Unit :=
  if webUIKey ≠ [] ∧ (codec.parseWebUIKey webUIKey).isNone then .stop .parseWebUIKey else return ()

def validatorEnv (env : BootEnv K) (name : GoString) (key : K) : Env where
  publicKey := codec.encodePublicKeyPEM key
  privateKey := codec.encodePrivateKeyPEM key
  guid := env.randomGUID name
  hashPassword := id
  parsesAsKey _ := true

def provision (env : BootEnv K) : List (OrgPlan K) → GoMap GoString → Boot (GoMap GoString)
  | [], validatorKeys => return validatorKeys
  | p :: rest, validatorKeys => do
      if !p.create then provision env rest (validatorKeys.insert p.name (codec.encodePrivateKeyPEM p.priv))
      else
        match ← Boot.tx (createOrganizationWithKey (validatorEnv codec env p.name p.priv) p.name p.name) with
        | .error err => .stop (.createOrg p.name err)
        | .ok () =>
          storeServerKey codec (serverKeyValidator p.name) p.priv
          provision env rest (validatorKeys.insert p.name (codec.encodePrivateKeyPEM p.priv))

def legacyClientsACL (validator : GoString) : Object :=
  defaultACL.insert (lit "create") (.object [(lit "actors", stringArray [validator]),
    (lit "groups", stringArray [lit "admins", lit "users"])])

def upgradeOrgACLs (env : BootEnv K) (org : GoString) : Boot Unit := do
  match ← Boot.get org aclsColl (aclKey containersColl clients) with
  | none => return ()
  | some raw =>
    if env.bytesEqual raw (mustEncode (some (legacyClientsACL (validatorName org)))) then
      Boot.put org aclsColl (aclKey containersColl clients) (mustEncode (some (validatorClientsACL (validatorName org))))

def upgradePasswords (env : BootEnv K) (org : GoString) : Boot Unit := do
  let entries ← Boot.range org passwordsCollection
  (entries.filter fun entry => !env.isPasswordHash entry.2).forM fun entry =>
    Boot.put org passwordsCollection entry.1 (env.hashPassword entry.2)

def inEachOrg (upgrade : GoString → Boot Unit) : Boot Unit := do
  let names ← Boot.listOrgs
  names.forM fun name => do
    if ← Boot.lookupOrg name then upgrade name

structure ServerKeys where
  adminKey : GoString
  validatorKeys : GoMap GoString

def new (opts : Options) (env : BootEnv K) : Boot ServerKeys := do
  let opts := opts.withDefaults
  let stored ← loadServerKey codec serverKeyAdmin
  let loaded ← loadPlans codec opts.orgs
  let adminPriv := stored.getD (env.generateKeys 0)
  let plans := assignKeys env.generateKeys (if stored.isNone then 1 else 0) loaded
  bootstrapAdmin codec opts.adminName adminPriv stored.isNone
  checkWebUIKey codec opts.webUIKey
  let validatorKeys ← provision codec env plans ∅
  inEachOrg (upgradeOrgACLs env)
  upgradePasswords env global
  inEachOrg (upgradePasswords env)
  return ⟨codec.encodePrivateKeyPEM adminPriv, validatorKeys⟩

inductive Lifetime [Unicode] (opts : Options) (enforceACL : Bool) (stops : Store → Prop)
    (admitted : ApiRequest → Store → Prop) :
    Bool → Store → Prop
  | empty : Lifetime opts enforceACL stops admitted false Store.newMemoryBackend
  | stopped {serving : Bool} {s t : Store} (before : Lifetime opts enforceACL stops admitted serving s) (env : BootEnv K)
      (cut : (new codec opts env).Cut BootCall.exec s t) (stop : stops t) : Lifetime opts enforceACL stops admitted false t
  | started {serving : Bool} {s t : Store} (before : Lifetime opts enforceACL stops admitted serving s) (env : BootEnv K)
      (server : ServerKeys) (ran : (new codec opts env).run BootCall.exec s = (.ok server, t)) :
      Lifetime opts enforceACL stops admitted true t
  | served {s : Store} (before : Lifetime opts enforceACL stops admitted true s) (request : ApiRequest)
      (ok : admitted request s) : Lifetime opts enforceACL stops admitted true ((request.handler enforceACL).run Api.exec s).2

end CincServer.Server
