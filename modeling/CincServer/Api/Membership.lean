import CincServer.Api.AuthzEnforce
import CincServer.Api.ActorLifecycle
import CincServer.Lib.Traffic

/-!
# The lock on memberships

The handlers that change who is a member of what take `API.membership` for their last part, through
their return. A change of one membership takes it shared, a revocation or the rewrite of a group
exclusively.
-/

namespace CincServer.Api
open Go Json Lib

abbrev LockingHandler := Handler (Ending StoreCall.Result Response Response)

def updateGroup (r : Request) (org name : GoString) (obj : Members) : Handler Response := do
  mustView r org groupsColl name (lit "Cannot find groups " ++ name)
  let current ← groupMembership org name
  let m ← knownGroupMembers org (updatedMembers obj current)
  clearMembers org name
  Org.put org groupsColl name (groupJSON name [] m)
  return .json 200 r.body

def lockingPutGroup (r : Request) (org name : GoString) : LockingHandler := do
  resolveOrg org
  mustView r org groupsColl name (lit "Cannot find groups " ++ name)
  let obj ← decodeObjectBody r
  return .within (updateGroup r org name obj)

def associateKnown (r : Request) (org username : GoString) : Handler Response := do
  mustExist global users username (lit "Cannot find user " ++ username)
  refuseMember org username
  joinOrg org username
  return .json 201 (encodeMap [(lit "uri",
    .string (r.baseURL ++ lit "/organizations/" ++ org ++ lit "/users/" ++ username))])

def lockingAssociateUser (r : Request) (org : GoString) : LockingHandler := do
  resolveOrg org
  let body ← decodeBody r
  let username := firstString (contents body) [lit "username", lit "user"]
  refuseIf (username = []) 400 (lit "Field 'username' missing")
  return .within (associateKnown r org username)

def answerInvite (r : Request) (user id : GoString) : Handler Response := do
  match ← findInvite user id (← listOrgs) with
  | none => writeStringError 404 (lit "Cannot find association request: " ++ id)
  | some org =>
    let answer ← decodeAnswer r
    if answer = .accept then requireInviter org id
    let _ ← Org.delete org assocReqColl id
    if answer = .accept then joinOrg org user
    return .json 200 (encodeMap [(lit "organization", .object [(lit "name", .string org)])])

def lockingRespondInvite (r : Request) (user id : GoString) : LockingHandler := do
  requireInvitee r user
  return .within (answerInvite r user id)

def registerActor (env : Env) (enforceACL : Bool) (r : Request) (org segment name : GoString)
    (generate : Bool) (obj : Option Object) : Handler Response := do
  let created ← Org.create org segment name (mustEncode obj)
  refuseIf (!created) 409 (lit "Object already exists")
  grantCreator enforceACL r org segment name
  joinClients enforceACL org segment name obj
  return .json 201 (createdBody env r org segment name generate)

def lockingPostActor [Unicode] (env : Env) (enforceACL : Bool) (r : Request) (route : ActorRoute) :
    LockingHandler := do
  route.scope
  let (name, createKey, obj) ← createBody env r route.segment
  refuseWith 409 (← actorNameCollision route.segment name)
  let generate := generatesKey r createKey (contents obj)
  let obj ← recordKey env generate obj
  let obj := deleteField (lit "private_key") (deleteField (lit "chef_key") obj)
  let obj ← stashPassword env route.org name obj
  return .within (registerActor env enforceACL r route.org route.segment name generate obj)

def lockingDeleteActor (r : Request) (route : ActorRoute) (name : GoString) : LockingHandler := do
  route.scope
  return .within (scopedDelete r route.org route.segment name)

def deleteKnownGroup (org name : GoString) : Handler Response := do
  mustExist org groupsColl name (lit "Cannot find groups " ++ name)
  removeFromACLs org (lit "groups") name
  removeActorFromAllGroups org .groups name
  clearMembers org name
  deleteACL org groupsColl name
  match ← Org.delete org groupsColl name with
  | some raw => return .json 200 raw
  | none => cannotFind groupsColl name

def lockingDeleteGroup (org name : GoString) : LockingHandler := do
  resolveOrg org
  return .within (deleteKnownGroup org name)

inductive MembershipRequest
  | deleteActor (r : Request) (route : ActorRoute) (name : GoString)
  | postActor (env : Env) (enforceACL : Bool) (r : Request) (route : ActorRoute)
  | putGroup (r : Request) (org name : GoString)
  | associateUser (r : Request) (org : GoString)
  | respondInvite (r : Request) (user id : GoString)

namespace MembershipRequest

def handler [Unicode] : MembershipRequest → LockingHandler
  | deleteActor r route name => lockingDeleteActor r route name
  | postActor env enforceACL r route => lockingPostActor env enforceACL r route
  | putGroup r org name => lockingPutGroup r org name
  | associateUser r org => lockingAssociateUser r org
  | respondInvite r user id => lockingRespondInvite r user id

def shared : MembershipRequest → Bool
  | deleteActor .. => false
  | postActor .. => true
  | putGroup .. => false
  | associateUser .. => true
  | respondInvite .. => true

def lock {ι σ : Type} : Rules MembershipRequest ι σ :=
  .lock fun a b => a.shared ∧ b.shared

end MembershipRequest

inductive GroupRequest
  | put (r : Request) (u : Url) (org name : GoString)
  | delete (r : Request) (u : Url) (org name : GoString)

namespace GroupRequest

def handler : GroupRequest → LockingHandler
  | put r u org name => do
      let handed ← authorizeRequest { r with preread := none } .put u
      lockingPutGroup handed org name
  | delete r u org name => do
      let _ ← authorizeRequest { r with preread := none } .delete u
      lockingDeleteGroup org name

def lock {ι σ : Type} : Rules GroupRequest ι σ := .lock fun _ _ => False

end GroupRequest

inductive ActorRequest
  | delete (r : Request) (route : ActorRoute) (name : GoString)
  | put (env : Env) (r : Request) (route : ActorRoute) (name : GoString)
  | addKey (env : Env) (r : Request) (route : ActorRoute) (name : GoString)
  | putKey (env : Env) (r : Request) (route : ActorRoute) (name keyName : GoString)
  | deleteKey (route : ActorRoute) (name keyName : GoString)

def unlocked (h : Handler Response) : LockingHandler := do
  return .answer (← h)

namespace ActorRequest

def handler [Unicode] : ActorRequest → LockingHandler
  | delete r route name => lockingDeleteActor r route name
  | put env r route name => unlocked (putActor env r route name)
  | addKey env r route name => unlocked (Api.addKey env r route name)
  | putKey env r route name keyName => unlocked (Api.putKey env r route name keyName)
  | deleteKey route name keyName => unlocked (Api.deleteKey route name keyName)

def lock {ι σ : Type} : Rules ActorRequest ι σ := .lock fun _ _ => False

end ActorRequest

end CincServer.Api
