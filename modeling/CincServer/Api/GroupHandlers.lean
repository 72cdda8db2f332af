import CincServer.Api.Groups
import CincServer.Api.UserValidation

/-!
# Users and organizations

A member of an organization has a row under its name. An invitation is kept under an id made of the
names of the user and the organization until it is answered or rescinded.
-/

namespace CincServer.Api
open Go Json Lib

def assocColl : GoString := lit "association_users"

def assocReqColl : GoString := lit "association_requests"

def inviteID (user org : GoString) : GoString := user ++ lit "-" ++ org

def firstString (obj : Object) (names : List GoString) : GoString :=
  ((names.map fun name => str (field obj name)).find? (· ≠ [])).getD []

def refuseMember (org user : GoString) : Handler Unit := do
  if (← Org.get org assocColl user).isSome then writeStringError 409 (lit "The association already exists.")

def joinOrg (org user : GoString) : Handler Unit := do
  Org.put org assocColl user (encodeMap [(lit "username", .string user)])
  addMember org (lit "users") .users user

def associateUser (r : Request) (org : GoString) : Handler Response := do
  resolveOrg org
  let body ← decodeBody r
  let username := firstString (contents body) [lit "username", lit "user"]
  refuseIf (username = []) 400 (lit "Field 'username' missing")
  mustExist global users username (lit "Cannot find user " ++ username)
  refuseMember org username
  joinOrg org username
  return .json 201 (encodeMap [(lit "uri",
    .string (r.baseURL ++ lit "/organizations/" ++ org ++ lit "/users/" ++ username))])

def refuseAdmin (org user : GoString) : Handler Unit := do
  if lit "admins" ∈ (← actorGroups org ⟨user, false, false, false⟩) then
    writeStringError 403 (lit "Please remove " ++ user ++
      lit " from this organization's admins group before removing him or her from the organization.")

def disassociateUser (org user : GoString) : Handler Response := do
  resolveOrg org
  mustExist org assocColl user (lit "Cannot find user " ++ user ++ lit " in organization " ++ org)
  refuseAdmin org user
  let _ ← Org.delete org assocColl user
  removeActorFromAllGroups org .users user
  return .json 200 (encodeMap [(lit "username", .string user)])

def inviteDoc (user org inviter : GoString) : Raw :=
  encodeMap [(lit "id", .string (inviteID user org)), (lit "username", .string user),
    (lit "orgname", .string org), (lit "inviter", .string inviter)]

def inviteString (name : GoString) : Raw → Option GoString :=
  unmarshalStruct [.string name fun s _ => s] []

def refuseInvited (org user : GoString) : Handler Unit := do
  if (← Org.get org assocReqColl (inviteID user org)).isSome then
    writeStringError 409 (lit "The invitation already exists.")

def createInvite (r : Request) (org : GoString) : Handler Response := do
  resolveOrg org
  let body ← decodeBody r
  let user := firstString (contents body) [lit "user", lit "username"]
  refuseIf (user = []) 400 (lit "Field 'user' missing")
  mustExist global users user (lit "Cannot find user " ++ user)
  refuseMember org user
  refuseInvited org user
  let inviter := (r.actor.map Actor.name).getD []
  Org.put org assocReqColl (inviteID user org) (inviteDoc user org inviter)
  return .json 201 (encodeMap [(lit "uri", .string (r.baseURL ++ lit "/organizations/" ++ org ++
      lit "/association_requests/" ++ inviteID user org)),
    (lit "id", .string (inviteID user org)),
    (lit "organization_user", .object [(lit "username", .string user)])])

def rescindInvite (org id : GoString) : Handler Response := do
  resolveOrg org
  match ← Org.delete org assocReqColl id with
  | some raw => return .json 200 raw
  | none => writeStringError 404 (lit "Cannot find association request: " ++ id)

def holdsInvite (user id org : GoString) : Handler Bool := do
  if !(← lookupOrg org) then return false
  match ← Org.get org assocReqColl id with
  | none => return false
  | some raw =>
    match inviteString (lit "username") raw with
    | none => .stop .internalError
    | some username => return username = user

def findInvite (user id : GoString) : List GoString → Handler (Option GoString)
  | [] => return none
  | org :: orgs => do
      if ← holdsInvite user id org then return some org
      findInvite user id orgs

def inviterAuthorized (org inviter : GoString) : Handler Bool := do
  if inviter = [] then return true
  match ← Org.get global users inviter with
  | none => return false
  | some raw =>
    match unmarshalMap raw with
    | none => .stop .internalError
    | some user =>
      if isTrue (field (contents user) (lit "admin")) then return true
      if (← Org.get org assocColl inviter).isNone then return false
      return inviter ∈ (← groupMembership org (lit "admins")).users

def recordedInviter (org id : GoString) : Handler GoString := do
  match ← Org.get org assocReqColl id with
  | none => return []
  | some raw =>
    match inviteString (lit "inviter") raw with
    | none => .stop .internalError
    | some inviter => return inviter

def requireInviter (org id : GoString) : Handler Unit := do
  if !(← inviterAuthorized org (← recordedInviter org id)) then
    writeStringError 403 (lit "The user who issued this invitation can no longer do so.")

inductive Answer
  | accept
  | reject
deriving DecidableEq

def decodeAnswer (r : Request) : Handler Answer :=
  match unmarshalStruct [.string (lit "response") fun s _ => s] [] r.body with
  | none => writeError 400 (lit "invalid JSON body")
  | some response =>
    if response = lit "accept" then pure .accept
    else if response = lit "reject" then pure .reject
    else writeError 400 (lit "Param response must be either 'accept' or 'reject'")

def requireInvitee (r : Request) (user : GoString) : Handler Unit :=
  match r.actor with
  | none => pure ()
  | some actor =>
    if actor.name = user ∨ actor.isGlobalAdmin then pure ()
    else writeStringError 403 (lit "You are not allowed to take this action.")

def respondInvite (r : Request) (user id : GoString) : Handler Response := do
  requireInvitee r user
  match ← findInvite user id (← listOrgs) with
  | none => writeStringError 404 (lit "Cannot find association request: " ++ id)
  | some org =>
    let answer ← decodeAnswer r
    if answer = .accept then requireInviter org id
    let _ ← Org.delete org assocReqColl id
    if answer = .accept then joinOrg org user
    return .json 200 (encodeMap [(lit "organization", .object [(lit "name", .string org)])])

/-! ## Creating, updating and deleting groups -/

/-- `^[a-z0-9_-]+$` -/
def groupNameRE : Regex Rune := nonEmptyOf fun r => lowerCase r || digit r || oneOf "_-" r

def groupName (obj : Object) : GoString := firstString obj [lit "name", lit "groupname", lit "id"]

def createGroup (r : Request) (org : GoString) : Handler Response := do
  resolveOrg org
  let obj ← decodeBody r
  let name := groupName (contents obj)
  refuseIf (name = []) 400 (lit "Field 'name' missing")
  refuseIf (!matchString groupNameRE name) 400 (lit "Invalid group name.")
  clearMembers org name
  let created ← Org.create org groupsColl name (groupJSON name [] (groupMembers (contents obj)))
  refuseIf (!created) 409 (lit "Object already exists")
  return .json 201 (encodeMap [(lit "uri", .string (objectURL r org groupsColl name))])

def groupUpdateMembers (obj : Members) (kind : MemberKind) : Option (List GoString) :=
  let src := match get obj (lit "actors") with
    | some (.object nested) => nested
    | _ => obj
  match get src kind.name with
  | some (.array elems) => some (jsonStrings (.array elems))
  | _ => none

def updatedMembers (obj : Members) (m : MemberLists) : MemberLists :=
  ⟨(groupUpdateMembers obj .users).getD m.users, (groupUpdateMembers obj .clients).getD m.clients,
    (groupUpdateMembers obj .groups).getD m.groups⟩

def keepKnown (space coll : GoString) : List GoString → Handler (List GoString)
  | [] => return []
  | name :: names => do
      let found ← Org.get space coll name
      let kept ← keepKnown space coll names
      return if found.isSome then name :: kept else kept

def knownGroupMembers (org : GoString) (m : MemberLists) : Handler MemberLists := do
  let u ← keepKnown global users m.users
  let c ← keepKnown org clients m.clients
  let g ← keepKnown org groupsColl m.groups
  return ⟨u, c, g⟩

def decodeObjectBody (r : Request) : Handler Members :=
  match decodeObject r.body with
  | some obj => pure obj
  | none => writeError 400 (lit "invalid JSON body")

/-- The members written are the effective ones, rows included, so the rows go. The group is looked
up once more after the body is read. -/
def putGroup (r : Request) (org name : GoString) : Handler Response := do
  resolveOrg org
  mustView r org groupsColl name (lit "Cannot find groups " ++ name)
  let obj ← decodeObjectBody r
  mustView r org groupsColl name (lit "Cannot find groups " ++ name)
  let current ← groupMembership org name
  let m ← knownGroupMembers org (updatedMembers obj current)
  clearMembers org name
  Org.put org groupsColl name (groupJSON name [] m)
  return .json 200 r.body

def deleteGroup (org name : GoString) : Handler Response := do
  resolveOrg org
  mustExist org groupsColl name (lit "Cannot find groups " ++ name)
  removeFromACLs org (lit "groups") name
  removeActorFromAllGroups org .groups name
  clearMembers org name
  deleteACL org groupsColl name
  match ← Org.delete org groupsColl name with
  | some raw => return .json 200 raw
  | none => cannotFind groupsColl name

def defaultGroups : List GoString :=
  [lit "admins", lit "billing-admins", lit "clients", lit "users", lit "public_key_read_access"]

def defaultGroupGroups (group : GoString) : List GoString :=
  if group = lit "public_key_read_access" then [lit "users", lit "clients"] else []

def defaultContainers : List GoString :=
  [lit "clients", lit "containers", lit "cookbooks", lit "cookbook_artifacts", lit "data",
   lit "environments", lit "groups", lit "nodes", lit "policies", lit "policy_groups", lit "roles",
   lit "sandboxes"]

def seed (org coll key : GoString) (doc : Raw) : Handler Unit := do
  if (← Org.get org coll key).isNone then Org.put org coll key doc

def containersColl : GoString := lit "containers"

def seedAuthz (org : GoString) : Handler Unit := do
  defaultGroups.forM fun group =>
    seed org groupsColl group (groupJSON group [] ⟨[], [], defaultGroupGroups group⟩)
  defaultContainers.forM fun container =>
    seed org containersColl container (.document (.object
      [(lit "containername", .string container), (lit "containerpath", .string container)]))

end CincServer.Api
