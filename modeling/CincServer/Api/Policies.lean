import CincServer.Api.Objects

/-!
# Policies and policy groups

The revisions of a policy are kept in a collection of their own; a policy group records for each
policy it deploys the revision.
-/

namespace CincServer.Api
open Go Json Lib

def policyGroupsColl : GoString := lit "policy_groups"

/-- `^[.A-Za-z0-9_:-]{1,255}$` -/
def policyNameRE (s : GoString) : Bool :=
  (runes s).length ≤ 255 && matchString roleNameRE s

/-- `^[.A-Za-z0-9_-]+$` -/
def policyLockCookbookRE : Regex Rune := plainName

/-- `^recipe\[[.A-Za-z0-9_-]+::[.A-Za-z0-9_-]+\]$` -/
def policyRunListItemRE : Regex Rune := .seqs [text "recipe[", plainName, text "::", plainName, rune ']']

def identifierError (doc : Members) (name : GoString) : Option GoString :=
  match get doc name with
  | none => some (fieldMissing name)
  | some (.string s) => if policyNameRE s then none else some (fieldInvalid name)
  | some _ => some (fieldInvalid name)

def isPolicyRunListItem : Value → Bool
  | .string s => matchString policyRunListItemRE s
  | _ => false

def policyRunListError (doc : Members) : Option GoString :=
  let invalid := lit "Field 'run_list' is not a valid run list"
  match get doc (lit "run_list") with
  | none => some (fieldMissing (lit "run_list"))
  | some (.array items) => if items.all isPolicyRunListItem then none else some invalid
  | some _ => some invalid

def versionError (doc : Members) (name : GoString) : Option GoString :=
  match get doc name with
  | some v => if validConstraint v then none else some (lit "Field '" ++ name ++ lit "' is not a valid version")
  | none => none

def validateCookbookLock (lock : Members) : Option GoString :=
  identifierError lock (lit "identifier") <|> versionError lock (lit "dotted_decimal_identifier") <|>
    (if (get lock (lit "version")).isNone then some (fieldMissing (lit "version"))
     else versionError lock (lit "version"))

def cookbookLocksError (doc : Members) : Option GoString :=
  let invalid := fieldInvalid (lit "cookbook_locks")
  match get doc (lit "cookbook_locks") with
  | none => some (fieldMissing (lit "cookbook_locks"))
  | some (.object locks) => checkMembers locks fun cookbook lock =>
    if !matchString policyLockCookbookRE cookbook then
      some (lit "Invalid key '" ++ cookbook ++ lit "' for cookbook_locks")
    else match lock with
      | .object lock => validateCookbookLock lock
      | _ => some invalid
  | some _ => some invalid

def validatePolicyRevision (urlName : GoString) (doc : Members) : Option GoString :=
  identifierError doc (lit "revision_id") <|> identifierError doc (lit "name") <|>
    policyRunListError doc <|> cookbookLocksError doc <|>
    if stringMember doc (lit "name") ≠ urlName then
      some (lit "Field 'name' invalid : " ++ urlName ++ lit " does not match " ++ stringMember doc (lit "name"))
    else none

def decodeRevision (r : Request) (policy : GoString) : Handler (Raw × GoString) := do
  let raw ← readObjectBody r
  let doc := firstOf [] raw
  refuseWith 400 (validatePolicyRevision policy doc)
  return (storedObject raw, stringMember doc (lit "revision_id"))

structure GroupPolicy where
  revisionID : GoString

def groupPolicyFields : List (StructField GroupPolicy) :=
  [.string (lit "revision_id") fun s _ => ⟨s⟩]

structure PolicyGroup where
  policies : GoMap GroupPolicy

def decodeGroupPolicy : Value → Option GroupPolicy
  | .object members => storeMembers groupPolicyFields members ⟨[]⟩
  | .null => some ⟨[]⟩
  | _ => none

def decodePolicies : Members → GoMap GroupPolicy → Option (GoMap GroupPolicy)
  | [], policies => some policies
  | (name, v) :: rest, policies => (decodeGroupPolicy v).bind fun policy => decodePolicies rest (policies.insert name policy)

def policiesField : StructField PolicyGroup where
  name := lit "policies"
  store
    | .object members, g => (decodePolicies members g.policies).map PolicyGroup.mk
    | .null, _ => some ⟨∅⟩
    | _, _ => none

def decodePolicyGroup : Raw → Option PolicyGroup := unmarshalStruct [policiesField] ⟨∅⟩

def loadGroup (org name : GoString) : Handler (Option PolicyGroup) := do
  return (← Org.get org policyGroupsColl name).bind decodePolicyGroup

def encodePolicyGroup (g : PolicyGroup) : Raw :=
  .document (.object [(lit "policies", .object (g.policies.toList.map fun (name, policy) =>
    (name, .object [(lit "revision_id", .string policy.revisionID)])))])

def saveGroup (org name : GoString) (g : PolicyGroup) : Handler Unit :=
  Org.put org policyGroupsColl name (encodePolicyGroup g)

def dropsPolicy (g : PolicyGroup) (policy rev : GoString) : Bool :=
  match g.policies[policy]? with
  | none => false
  | some deployed => rev = [] || deployed.revisionID = rev

def removePolicyFromGroup (org policy rev group : GoString) : Handler Unit := do
  match ← loadGroup org group with
  | none => pure ()
  | some g =>
    if dropsPolicy g policy rev then saveGroup org group ⟨g.policies.erase policy⟩ else pure ()

def removePolicyFromGroups (org policy rev : GoString) : Handler Unit := do
  let names ← Org.keys org policyGroupsColl
  names.forM (removePolicyFromGroup org policy rev)

def createPolicyRevision (r : Request) (org policy : GoString) : Handler Response := do
  resolveOrg org
  let (raw, revID) ← decodeRevision r policy
  let created ← Org.create org (policyRevColl policy) revID raw
  refuseIf (!created) 409 (lit "Policy revision already exists")
  return .json 201 raw

def revisionsBody (revIDs : List GoString) : Raw :=
  encodeMap [(lit "revisions", mapValue (some (Std.ExtTreeMap.ofList (revIDs.map fun rev => (rev, Value.object [])))))]

def deletePolicy (org policy : GoString) : Handler Response := do
  resolveOrg org
  let revIDs ← Org.keys org (policyRevColl policy)
  refuseIf (revIDs = []) 404 (lit "Cannot find policy " ++ policy)
  deleteAll org (policyRevColl policy) revIDs
  removePolicyFromGroups org policy []
  deleteACL org (lit "policies") policy
  return .json 200 (revisionsBody revIDs)

def deletePolicyRevision (org policy rev : GoString) : Handler Response := do
  resolveOrg org
  match ← Org.delete org (policyRevColl policy) rev with
  | none => writeError 404 (lit "Cannot find policy revision")
  | some raw =>
    removePolicyFromGroups org policy rev
    return .json 200 raw

def cannotFindPolicyGroup {α : Type} (group : GoString) : Handler α :=
  writeError 404 (lit "Cannot find policy group " ++ group)

def deletePolicyGroup (org group : GoString) : Handler Response := do
  resolveOrg org
  match ← Org.delete org policyGroupsColl group with
  | none => cannotFindPolicyGroup group
  | some raw =>
    deleteACL org policyGroupsColl group
    return .json 200 raw

def getGroupPolicy (org group policy : GoString) : Handler Response := do
  resolveOrg org
  match ← loadGroup org group with
  | none => cannotFindPolicyGroup group
  | some g =>
    match g.policies[policy]? with
    | none => writeError 404 (lit "Policy " ++ policy ++ lit " not in group")
    | some deployed =>
      match ← Org.get org (policyRevColl policy) deployed.revisionID with
      | none => writeError 404 (lit "Cannot find policy revision")
      | some raw => return .json 200 raw

def putGroupPolicy (r : Request) (org group policy : GoString) : Handler Response := do
  resolveOrg org
  let (raw, revID) ← decodeRevision r policy
  Org.put org (policyRevColl policy) revID raw
  let g := (← loadGroup org group).getD ⟨∅⟩
  saveGroup org group ⟨g.policies.insert policy ⟨revID⟩⟩
  return .json 200 raw

def deleteGroupPolicy (org group policy : GoString) : Handler Response := do
  resolveOrg org
  match ← loadGroup org group with
  | none => cannotFindPolicyGroup group
  | some g =>
    match g.policies[policy]? with
    | none => writeError 404 (lit "Policy " ++ policy ++ lit " not in group")
    | some deployed =>
      let raw ← Org.get org (policyRevColl policy) deployed.revisionID
      saveGroup org group ⟨g.policies.erase policy⟩
      return .json 200 (raw.getD (.malformed []))

end CincServer.Api
