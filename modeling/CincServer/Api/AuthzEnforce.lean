import CincServer.Api.GroupHandlers
import CincServer.Api.Routes

/-!
# Authorization of requests

A request is classified by its decoded path alone; the check names the object whose ACL must grant a
permission.
-/

namespace CincServer.Api
open Go Json Lib

structure AuthzCheck where
  aclType : GoString := []
  aclName : GoString := []
  perm : GoString := []
  existColl : GoString := []
  existKey : GoString := []
  existMsg : GoString := []
  global : Bool := false
  superuserOnly : Bool := false
  allowSelf : GoString := []
  aclEndpoint : Bool := false

def enforceSegs : List GoString :=
  [lit "nodes", lit "roles", lit "environments", lit "clients", lit "groups", lit "containers",
   lit "policies", lit "policy_groups"]

def existenceSegs : List GoString :=
  [lit "nodes", lit "roles", lit "environments", lit "clients", lit "groups", lit "containers"]

def isRead (method : Method) : Bool := method = .get || method = .head

def itemPerm : Method → Option GoString
  | .get | .head => some (lit "read")
  | .put => some (lit "update")
  | .delete => some (lit "delete")
  | _ => none

def containerCheck (seg : GoString) (perm : String) : AuthzCheck :=
  { aclType := lit "containers", aclName := seg, perm := lit perm }

def userKeyPerm (method : Method) : Option GoString :=
  if method = .post then some (lit "create") else itemPerm method

def classifyUsers (method : Method) : List GoString → Option AuthzCheck
  | [] => match method with
      | .get | .head => some { superuserOnly := true, perm := lit "read" }
      | .post => some { superuserOnly := true, perm := lit "create" }
      | _ => none
  | [name] => (itemPerm method).map fun perm =>
    { superuserOnly := true, perm := perm, allowSelf := name }
  | name :: sub :: _ =>
    if sub = lit "_acl" then
      some { global := true, aclType := lit "users", aclName := name, perm := lit "grant", aclEndpoint := true }
    else if sub = lit "keys" then
      (userKeyPerm method).map fun perm =>
        { superuserOnly := true, perm := perm, allowSelf := name }
    else none

def classifyOrgMembership (method : Method) (org : GoString) (rest : List GoString) :
    Option AuthzCheck :=
  let check : AuthzCheck := { aclType := lit "organizations", aclName := org, perm := lit "update" }
  if method ≠ .post ∧ method ≠ .put ∧ method ≠ .delete then none
  else match rest with
    | [seg] =>
      if seg = lit "users" ∧ method = .post then some { superuserOnly := true, perm := lit "create" }
      else some check
    | [seg, user] =>
      if seg = lit "users" ∧ method = .delete then
        some { check with
          allowSelf := user, existColl := assocColl, existKey := user,
          existMsg := lit "Cannot find user " ++ user ++ lit " in organization " ++ org }
      else some check
    | _ => none

def classifySubResource (method : Method) (seg : GoString) : List GoString → Option AuthzCheck
  | _ :: name :: sub :: _ =>
    let perm : Option GoString :=
      if sub = lit "keys" then some (lit "update")
      else if seg = lit "policies" ∧ sub = lit "revisions" then
        some (if method = .delete then lit "delete" else lit "update")
      else if seg = lit "policy_groups" ∧ sub = lit "policies" then some (lit "update")
      else none
    perm.map fun perm =>
      { aclType := seg, aclName := name, perm := if isRead method then lit "read" else perm }
  | _ => none

def classifyGeneric (method : Method) (seg : GoString) (rest : List GoString) : Option AuthzCheck :=
  match rest with
  | [_] =>
    if isRead method then some (containerCheck seg "read")
    else if method = .post then some (containerCheck seg "create")
    else classifySubResource method seg rest
  | [_, name] => (itemPerm method).map fun perm =>
    if seg ∈ existenceSegs then
      { aclType := seg, aclName := name, perm := perm, existColl := seg, existKey := name,
        existMsg := lit "Cannot find " ++ seg ++ lit " " ++ name }
    else { aclType := seg, aclName := name, perm := perm }
  | _ => classifySubResource method seg rest

def classifyCookbook (method : Method) (seg : GoString) : List GoString → Option AuthzCheck
  | [_] => if isRead method then some (containerCheck seg "read") else none
  | [_, name] =>
    if isRead method then
      if (lit "_").isPrefixOf name then some (containerCheck seg "read")
      else some { aclType := seg, aclName := name, perm := lit "read" }
    else none
  | [_, name, _] => (itemPerm method).map fun perm => { aclType := seg, aclName := name, perm := perm }
  | _ => none

def bagCheck (bag perm : GoString) : AuthzCheck :=
  { aclType := lit "data", aclName := bag, perm := perm, existColl := dataBagsColl, existKey := bag,
    existMsg := lit "Cannot find data bag " ++ bag }

def classifyDataBag (method : Method) : List GoString → Option AuthzCheck
  | [_] =>
    if isRead method then some (containerCheck (lit "data") "read")
    else if method = .post then some (containerCheck (lit "data") "create")
    else none
  | [_, bag] => match method with
      | .get | .head => some (bagCheck bag (lit "read"))
      | .post => some (bagCheck bag (lit "update"))
      | .delete => some (bagCheck bag (lit "delete"))
      | _ => none
  | [_, bag, _] => match method with
      | .get | .head => some (bagCheck bag (lit "read"))
      | .put | .delete => some (bagCheck bag (lit "update"))
      | _ => none
  | _ => none

def classifyAclPath (org : GoString) : (object : List GoString) → Option AuthzCheck
  | [typ] =>
    if typ = lit "organizations" then
      some { aclType := lit "organizations", aclName := org, perm := lit "grant" }
    else none
  | [typ, name] => some { aclType := typ, aclName := name, perm := lit "grant", aclEndpoint := true }
  | _ => none

def classifyOrgScoped (method : Method) (org : GoString) (rest : List GoString) :
    Option AuthzCheck :=
  if lit "_acl" ∈ rest then classifyAclPath org (rest.takeWhile (· ≠ lit "_acl"))
  else match rest with
    | [] => (itemPerm method).map fun perm =>
      if method = .put ∨ method = .delete then { superuserOnly := true, perm := perm }
      else { aclType := lit "organizations", aclName := org, perm := perm }
    | seg :: _ =>
      if seg = lit "data" then classifyDataBag method rest
      else if seg = lit "cookbooks" ∨ seg = lit "cookbook_artifacts" then classifyCookbook method seg rest
      else if seg = lit "users" ∨ seg = lit "association_requests" then
        classifyOrgMembership method org rest
      else if seg ∈ enforceSegs then classifyGeneric method seg rest
      else none

def pathParts (path : GoString) : List GoString := (trimSlashes path).splitOn slash

def classifyRequest (method : Method) (path : GoString) : Option AuthzCheck :=
  match pathParts path with
  | [] => none
  | first :: rest =>
    if first = lit "users" then classifyUsers method rest
    else if first = lit "organizations" then
      match rest with
      | [] => if method = .post then some { superuserOnly := true, perm := lit "create" } else none
      | org :: rest => if org = [] then none else classifyOrgScoped method org rest
    else none

def mutatingMethod : Method → Bool
  | .post | .put | .delete | .patch => true
  | _ => false

structure OpenWrite where
  method : Method
  path : List Segment
  below : Bool

def openWrites : List OpenWrite :=
  [⟨.post, [fixed "authenticate_user"], false⟩, ⟨.post, orgScoped [fixed "sandboxes"], false⟩,
   ⟨.put, orgScoped [fixed "sandboxes"], true⟩,
   ⟨.put, orgScoped [fixed "file_store"], true⟩,
   ⟨.post, orgScoped [fixed "search"], true⟩,
   ⟨.put, [fixed "users", wild "user", fixed "association_requests"], true⟩,
   ⟨.post, orgScoped [fixed "environments"], true⟩]

def matchesRoutePrefix (below : Bool) : List Segment → List GoString → Bool
  | [], parts => below || parts.isEmpty
  | _ :: _, [] => false
  | .wildcard _ :: declared, _ :: parts => matchesRoutePrefix below declared parts
  | .literal text :: declared, part :: parts => text = part && matchesRoutePrefix below declared parts

def isOpenWrite (method : Method) (path : GoString) : Bool :=
  openWrites.any fun o => o.method = method && matchesRoutePrefix o.below o.path (pathParts path)

def refuseUnclassifiedWrite (method : Method) (u : Url) : Bool :=
  mutatingMethod method && !isOpenWrite method u.path && hasPattern routes method u

def missing {α : Type} (perm : GoString) : Handler α :=
  writeError 403 (lit "missing " ++ perm ++ lit " permission")

def requireAclObject (org : GoString) (check : AuthzCheck) : Handler Unit := do
  if check.aclEndpoint then
    if !(← aclObjectExists org check.aclType check.aclName) then cannotFind check.aclType check.aclName

def requirePermission (org : GoString) (actor : Actor) (check : AuthzCheck) : Handler Unit := do
  if !(← actorAllowed org actor check.aclType check.aclName check.perm) then missing check.perm

def withPreread (r : Request) (org coll key : GoString) (raw : Raw) : Request :=
  { r with preread := some ⟨org, coll, key, raw⟩ }

def readExisting (r : Request) (org : GoString) (check : AuthzCheck) : Handler Request := do
  if check.existColl = [] then return r
  match ← Org.get org check.existColl check.existKey with
  | some raw => return withPreread r org check.existColl check.existKey raw
  | none => writeError 404 check.existMsg

def checkedRequest (r : Request) (org : GoString) (actor : Actor) (check : AuthzCheck) :
    Handler Request := do
  let handed ← readExisting r org check
  requireAclObject org check
  requirePermission org actor check
  return handed

def authorizeRequest (r : Request) (method : Method) (u : Url) : Handler Request :=
  match r.actor with
  | none => pure r
  | some actor =>
    if actor.isGlobalAdmin then pure r
    else match classifyRequest method u.path with
      | none =>
        if refuseUnclassifiedWrite method u then writeError 403 (lit "missing permission") else pure r
      | some check =>
        if check.allowSelf ≠ [] ∧ actor.name = check.allowSelf then pure r
        else if check.superuserOnly then missing check.perm
        else if check.global then checkedRequest r global actor check
        else do
          let org := (pathParts u.path).getD 1 []
          if ← lookupOrg org then checkedRequest r org actor check else return r

/-! ## Which search results an actor may read -/

/-- Where an index's documents live and which ACL governs them: one for each document, or that of
`aclObject` for all. -/
structure SearchIndex where
  collection : GoString
  mergeAttrs : Bool
  aclType : GoString
  aclObject : GoString

def resolveIndex (org name : GoString) : Handler (Option SearchIndex) := do
  if name ∈ [lit "node", lit "role", lit "client", lit "environment"] then
    return some ⟨name ++ lit "s", name = lit "node", name ++ lit "s", []⟩
  match ← Org.get org dataBagsColl name with
  | none => return none
  | some _ => return some ⟨dataBagItemsColl name, false, lit "data", name⟩

structure AceDoc where
  actors : Slice
  groups : Slice

def aceFields : List (StructField AceDoc) :=
  [.strings (lit "actors") AceDoc.actors fun names ace => { ace with actors := names },
   .strings (lit "groups") AceDoc.groups fun names ace => { ace with groups := names }]

def AceDoc.allows (ace : AceDoc) (name : GoString) (member : List GoString) : Bool :=
  name ∈ ace.actors.elems || ace.groups.elems.any (· ∈ member)

def decodeReadACE (raw : Raw) : Option AceDoc :=
  unmarshalStruct [.struct (lit "read") aceFields id fun ace _ => ace] ⟨.empty, .empty⟩ raw

def storedDecision (name : GoString) (member : List GoString) (raw : Raw) : Option Bool :=
  match decodeReadACE raw with
  | some ace => some (ace.allows name member)
  | none => (unmarshalMap raw).map fun acl => aceAllows (field (contents acl) (lit "read")) name member

def cutPrefix (start : GoString) (key : GoString) : Option GoString :=
  if start.isPrefixOf key then some (key.drop start.length) else none

def keepDecision (aclType name : GoString) (member : List GoString) (stored : GoMap Bool)
    (row : GoString × Raw) : GoMap Bool :=
  match cutPrefix (aclType ++ lit "/") row.1, storedDecision name member row.2 with
  | some object, some allowed => stored.insert object allowed
  | _, _ => stored

def storedDecisions (aclType name : GoString) (member : List GoString)
    (rows : List (GoString × Raw)) : GoMap Bool :=
  rows.foldl (keepDecision aclType name member) ∅

def filteredActor (enforceACL : Bool) (r : Request) : Option Actor :=
  match r.actor with
  | some actor => if enforceACL && !actor.isGlobalAdmin then some actor else none
  | none => none

def searchReadFilter (org : GoString) (actor : Actor) (idx : SearchIndex) :
    Handler (GoString → Bool) := do
  if idx.aclObject ≠ [] then
    let allowed ← actorAllowed org actor idx.aclType idx.aclObject (lit "read")
    return fun _ => allowed
  let member ← actorGroups org actor
  let stored := storedDecisions idx.aclType actor.name member (← Org.range org aclsColl)
  let byDefault := aceAllows (field defaultACL (lit "read")) actor.name member
  return fun id => (stored[id]?).getD byDefault

structure Match where
  id : GoString
  raw : Raw

def filterEach (allowed : GoString → Handler Bool) : List Match → Handler (List Match)
  | [] => return []
  | m :: rest => do
      let keep ← allowed m.id
      let kept ← filterEach allowed rest
      return if keep then m :: kept else kept

def bulkThreshold : Nat := 64

def filterReadable (enforceACL : Bool) (r : Request) (org : GoString) (idx : SearchIndex)
    (found : List Match) : Handler (List Match) := do
  match filteredActor enforceACL r with
  | none => return found
  | some actor =>
    if found.isEmpty then return found
    if idx.aclObject ≠ [] then
      if ← actorAllowed org actor idx.aclType idx.aclObject (lit "read") then return found
      return []
    if found.length ≤ bulkThreshold then
      filterEach (fun id => actorAllowed org actor idx.aclType id (lit "read")) found
    else
      let allow ← searchReadFilter org actor idx
      return found.filter fun m => allow m.id

end CincServer.Api
