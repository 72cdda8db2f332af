import CincServer.Api.ActorLifecycle
import CincServer.Json.Stored

/-!
# Nodes, roles, environments and containers

Named documents of an organization, one key for each.
-/

namespace CincServer.Api
open Go Json Lib

section Patterns

def text (s : String) : Regex Rune := .seqs (s.toList.map rune)

def nameRune (r : Rune) : Bool := upperCase r || lowerCase r || digit r || oneOf "._-" r

/-- `[.A-Za-z0-9_-]+` -/
def plainName : Regex Rune := nonEmptyOf nameRune

/-- `^[.A-Za-z0-9_:-]+$` -/
def roleNameRE : Regex Rune := nonEmptyOf fun r => nameRune r || oneOf ":" r

/-- `^[.A-Za-z0-9_-]+$` -/
def environmentNameRE : Regex Rune := plainName

def digitRun : Regex Rune := nonEmptyOf digit

/-- `(?:[.A-Za-z0-9_-]+::)?[.A-Za-z0-9_-]+(?:@[0-9]+(?:\.[0-9]+){1,2})?` -/
def recipeItem : Regex Rune :=
  let part := .seq (rune '.') digitRun
  .seqs [.opt (.seq plainName (text "::")), plainName, .opt (.seqs [rune '@', digitRun, part, .opt part])]

def runListRoleRE : Regex Rune := .seqs [text "role[", plainName, rune ']']

def runListRecipeRE : Regex Rune := .seqs [text "recipe[", recipeItem, rune ']']

def runListBareRE : Regex Rune := recipeItem

end Patterns

def isRecipe (item : GoString) : Bool := (lit "recipe[").isPrefixOf item

def isRole (item : GoString) : Bool := (lit "role[").isPrefixOf item

def validRunListItem : Value → Bool
  | .string s =>
    matchString (if isRecipe s then runListRecipeRE else if isRole s then runListRoleRE else runListBareRE) s
  | _ => false

def validRunList : Value → Bool
  | .array items => items.all validRunListItem
  | _ => false

def sortedNames (members : Members) : List GoString := sortStrings (members.map Prod.fst)

def checkMembers (members : Members) (check : GoString → Value → Option GoString) :
    Option GoString :=
  (sortedNames members).findSome? fun name => check name ((get members name).getD .null)

def validCookbookVersion (version : GoString) : Bool :=
  let parts := version.splitOn 0x2E
  parts.length ≤ 3 && parts.all fun part => match parseInt part with
    | some n => 0 ≤ n
    | none => false

def constraintOperators : List GoString :=
  [lit "< ", lit "> ", lit "<= ", lit ">= ", lit "~> ", lit "= "]

def validCookbookConstraint (c : GoString) : Bool :=
  match constraintOperators.find? (·.isPrefixOf c) with
  | some op => validCookbookVersion (c.drop op.length)
  | none => validCookbookVersion c

def validConstraint : Value → Bool
  | .string c => validCookbookConstraint c
  | _ => false

def constraintText : Value → GoString
  | .string s => s
  | v => marshalJSON (canonical v)

def fieldMissing (name : GoString) : GoString := lit "Field '" ++ name ++ lit "' missing"

def fieldInvalid (name : GoString) : GoString := lit "Field '" ++ name ++ lit "' invalid"

def nameValueError (re : Regex Rune) : Option Value → Option GoString
  | none => some (fieldMissing (lit "name"))
  | some (.string s) => if matchString re s then none else some (fieldInvalid (lit "name"))
  | some _ => some (fieldInvalid (lit "name"))

def runListError (doc : Members) : Option GoString :=
  match get doc (lit "run_list") with
  | some runList => if validRunList runList then none else some (lit "Field 'run_list' is not a valid run list")
  | none => none

def envRunListsError (doc : Members) : Option GoString :=
  let invalid := lit "Field 'env_run_lists' contains invalid run lists"
  match get doc (lit "env_run_lists") with
  | none => none
  | some (.object envs) => checkMembers envs fun env runList =>
    if !matchString environmentNameRE env then some (lit "Invalid key '" ++ env ++ lit "' for env_run_lists")
    else if validRunList runList then none
    else some invalid
  | some _ => some invalid

def validateRole (urlName : GoString) (doc : Members) : Option GoString :=
  let name := get doc (lit "name")
  if urlName ≠ [] && name.any (!isString · urlName) then some (lit "Role name mismatch.")
  else
    nameValueError roleNameRE (if urlName ≠ [] then some (.string urlName) else name) <|>
      runListError doc <|> envRunListsError doc

def cookbookVersionsError (doc : Members) : Option GoString :=
  match get doc (lit "cookbook_versions") with
  | none => none
  | some (.object versions) => checkMembers versions fun cookbook constraint =>
    if !matchString environmentNameRE cookbook then
      some (lit "Invalid key '" ++ cookbook ++ lit "' for cookbook_versions")
    else if validConstraint constraint then none
    else some (lit "Invalid value '" ++ constraintText constraint ++ lit "' for cookbook_versions")
  | some _ => some (lit "Field 'cookbook_versions' is not a hash")

def validateEnvironment (doc : Members) : Option GoString :=
  nameValueError environmentNameRE (get doc (lit "name")) <|> cookbookVersionsError doc

inductive ObjectType
  | nodes
  | roles
  | environments
deriving DecidableEq

def ObjectType.segment : ObjectType → GoString
  | nodes => lit "nodes"
  | roles => lit "roles"
  | environments => lit "environments"

def validateObjectBody (type : ObjectType) (urlName : GoString) (members : Members) :
    Option GoString :=
  match type with
  | .nodes => none
  | .roles => validateRole urlName (firstOf [] members)
  | .environments => validateEnvironment (firstOf [] members)

namespace Runlist

def qualify (item : GoString) : GoString :=
  if isRecipe item || isRole item then item else lit "recipe[" ++ item ++ lit "]"

def normalize (items : List GoString) : List GoString :=
  items.foldl (fun out item => if qualify item ∈ out then out else out ++ [qualify item]) []

def stringElem : Value → Option GoString
  | .string s => some s
  | _ => none

def stringList : Value → Option (List GoString)
  | .array elems => elems.mapM stringElem
  | _ => none

def listChanges (v : Value) : Bool :=
  match stringList v with
  | some items => normalize items ≠ items
  | none => false

def envListsChange : Value → Bool
  | .object envs => envs.any fun env => listChanges env.2
  | _ => false

def needsChange (role : Bool) (doc : Members) : Bool :=
  (get doc (lit "run_list")).any listChanges ||
    (role && (get doc (lit "env_run_lists")).any envListsChange)

def normalizeList (v : Value) : Value :=
  match stringList v with
  | some items => stringArray (normalize items)
  | none => v

def normalizeRunList (doc : Members) : Members :=
  match get doc (lit "run_list") with
  | some v => set doc (lit "run_list") (normalizeList v)
  | none => doc

def normalizeEnvRunLists (doc : Members) : Members :=
  match get doc (lit "env_run_lists") with
  | some (.object envs) =>
    set doc (lit "env_run_lists") (.object (envs.map fun env => (env.1, normalizeList env.2)))
  | _ => doc

def normalizeDoc (role : Bool) (doc : Members) : Members :=
  if !needsChange role doc then doc
  else if role then normalizeEnvRunLists (normalizeRunList doc)
  else normalizeRunList doc

end Runlist

def normalizeRunLists (type : ObjectType) (doc : Members) : Members :=
  match type with
  | .nodes => Runlist.normalizeDoc false doc
  | .roles => Runlist.normalizeDoc true doc
  | .environments => doc

def readObjectBody (r : Request) : Handler Members :=
  match r.body with
  | .document (.object members) =>
    match normalizeMembers members with
    | some members => pure members
    | none => writeError 400 (lit "invalid JSON body")
  | _ => writeError 400 (lit "invalid JSON body")

def storedObject (members : Members) : Raw := .document (.object members)

def createdAt (uri : GoString) : Response := .json 201 (encodeMap [(lit "uri", .string uri)])

def createObject (enforceACL : Bool) (r : Request) (org : GoString) (type : ObjectType) :
    Handler Response := do
  resolveOrg org
  let doc ← readObjectBody r
  let name := stringMember doc (lit "name")
  refuseWith 400 (validateObjectBody type [] doc)
  refuseIf (name = []) 400 (lit "Field 'name' missing")
  let created ← Org.create org type.segment name (storedObject (normalizeRunLists type doc))
  refuseIf (!created) 409 (lit "Object already exists")
  grantCreator enforceACL r org type.segment name
  return createdAt (objectURL r org type.segment name)

def putObject (r : Request) (org : GoString) (type : ObjectType) (name : GoString) :
    Handler Response := do
  resolveOrg org
  mustView r org type.segment name (lit "Cannot find " ++ type.segment ++ lit " " ++ name)
  let doc ← readObjectBody r
  refuseWith 400 (validateObjectBody type name doc)
  let raw := storedObject (normalizeRunLists type doc)
  Org.put org type.segment name raw
  return .json 200 raw

def deleteObject (org segment name : GoString) : Handler Response := do
  resolveOrg org
  match ← Org.delete org segment name with
  | none => cannotFind segment name
  | some raw =>
    deleteACL org segment name
    return .json 200 raw

def isDefaultEnvironment (type : ObjectType) (name : GoString) : Prop :=
  type = .environments ∧ name = lit "_default"

instance (type : ObjectType) (name : GoString) : Decidable (isDefaultEnvironment type name) :=
  inferInstanceAs (Decidable (_ ∧ _))

def putObjectRoute (r : Request) (org : GoString) (type : ObjectType) (name : GoString) :
    Handler Response :=
  if isDefaultEnvironment type name then
    writeError 405 (lit "The '_default' environment cannot be modified.")
  else putObject r org type name

def deleteObjectRoute (org : GoString) (type : ObjectType) (name : GoString) : Handler Response :=
  if isDefaultEnvironment type name then
    writeError 405 (lit "The '_default' environment cannot be deleted.")
  else deleteObject org type.segment name

def createContainer (r : Request) (org : GoString) : Handler Response := do
  resolveOrg org
  let obj ← decodeBody r
  let name := firstString (contents obj) [lit "containername", lit "id"]
  refuseIf (name = []) 400 (lit "Field 'containername' missing")
  Org.put org containersColl name (mustEncode obj)
  return createdAt (objectURL r org containersColl name)

/-!
## The cookbook versions of an environment

The constraints are read into a struct, whose one field takes every member that spells its name.
-/

def storeStrings : Members → GoMap GoString → Option (GoMap GoString)
  | [], entries => some entries
  | (name, .string s) :: rest, entries => storeStrings rest (entries.insert name s)
  | (name, .null) :: rest, entries => storeStrings rest (entries.insert name [])
  | _ :: _, _ => none

def stringMap {S : Type} (name : GoString) (get : S → GoMap GoString)
    (set : GoMap GoString → S → S) : StructField S where
  name := name
  store
    | .object members, target => (storeStrings members (get target)).map (set · target)
    | .null, target => some (set ∅ target)
    | _, _ => none

def unmarshalFirst {S : Type} (fields : List (StructField S)) (zero : S) : Raw → Option S
  | .document v => unmarshalStruct fields zero (.document (if hasRepeatedNames v then firstMembers v else v))
  | .malformed _ => none

def cookbookVersions : GoString := lit "cookbook_versions"

def envFields : List (StructField (GoMap GoString)) :=
  [stringMap cookbookVersions id fun entries _ => entries]

def envConstraints (org env : GoString) : Handler (Option (GoMap GoString)) := do
  match ← Org.get org (ObjectType.segment .environments) env with
  | none => return if env = lit "_default" then some ∅ else none
  | some raw =>
    match unmarshalFirst envFields ∅ raw with
    | none => .stop .internalError
    | some constraints => return some constraints

/-!
## Data bags

A bag is registered in one collection and its items are kept in a collection of their own.
-/

/-- `^[.A-Za-z0-9_:-]+$` -/
def dataBagNameRE : Regex Rune := roleNameRE

def dataBagURL (r : Request) (org bag : GoString) : GoString :=
  r.baseURL ++ lit "/organizations/" ++ org ++ lit "/data/" ++ bag

def createDataBag (r : Request) (org : GoString) : Handler Response := do
  resolveOrg org
  let body ← readObjectBody r
  let name := stringMember body (lit "name")
  refuseIf (name = []) 400 (lit "Field 'name' missing")
  refuseIf (!matchString dataBagNameRE name) 400 (lit "Field 'name' invalid")
  let created ← Org.create org dataBagsColl name (encodeMap [(lit "name", .string name)])
  refuseIf (!created) 409 (lit "Data bag already exists")
  return createdAt (dataBagURL r org name)

def deletedBag (raw : Raw) : Raw :=
  match unmarshalMap raw with
  | none => raw
  | some doc => mustEncode (some ((contents doc).insertMany [(lit "chef_type", .string (lit "data_bag")),
      (lit "json_class", .string (lit "Chef::DataBag"))]))

def deleteDataBag (org bag : GoString) : Handler Response := do
  resolveOrg org
  match ← Org.delete org dataBagsColl bag with
  | none => writeError 404 (lit "Cannot find data bag " ++ bag)
  | some raw =>
    deleteAll org (dataBagItemsColl bag) (← Org.keys org (dataBagItemsColl bag))
    deleteACL org (lit "data") bag
    return .json 200 (deletedBag raw)

def bagExists (org bag : GoString) : Handler Unit :=
  mustExist org dataBagsColl bag (lit "Cannot find data bag " ++ bag)

def unwrapItem (doc : Members) : Members :=
  if stringMember doc (lit "json_class") = lit "Chef::DataBagItem" then
    match get doc (lit "raw_data") with
    | some (.object inner) => inner
    | _ => doc
  else doc

def decodeItem (r : Request) : Handler Members := do
  return unwrapItem (← readObjectBody r)

def withCreateEnvelope (bag : GoString) (item : Members) : Raw :=
  storedObject (set (set item (lit "chef_type") (.string (lit "data_bag_item"))) (lit "data_bag") (.string bag))

def createDataBagItem (r : Request) (org bag : GoString) : Handler Response := do
  resolveOrg org
  bagExists org bag
  let item ← decodeItem r
  let id := stringMember item (lit "id")
  refuseIf (id = []) 400 (lit "Field 'id' missing")
  refuseIf (!matchString dataBagNameRE id) 400 (lit "Field 'id' invalid")
  let created ← Org.create org (dataBagItemsColl bag) id (storedObject item)
  refuseIf (!created) 409 (lit "Data bag item already exists")
  return .json 201 (withCreateEnvelope bag item)

def putDataBagItem (r : Request) (org bag id : GoString) : Handler Response := do
  resolveOrg org
  bagExists org bag
  mustView r org (dataBagItemsColl bag) id (lit "Cannot find data bag item " ++ id)
  let item ← decodeItem r
  Org.put org (dataBagItemsColl bag) id (storedObject item)
  return .json 200 (storedObject item)

def wrapStoredDataBagItem (bag id : GoString) (raw : Raw) : Raw :=
  match raw with
  | .document (.object item) =>
    let id := if stringMember item (lit "id") ≠ [] then stringMember item (lit "id") else id
    storedObject [(lit "chef_type", .string (lit "data_bag_item")), (lit "data_bag", .string bag),
      (lit "json_class", .string (lit "Chef::DataBagItem")),
      (lit "name", .string (lit "data_bag_item_" ++ bag ++ lit "_" ++ id)), (lit "raw_data", .object item)]
  | _ => raw

def deleteDataBagItem (org bag id : GoString) : Handler Response := do
  resolveOrg org
  bagExists org bag
  match ← Org.delete org (dataBagItemsColl bag) id with
  | none => writeError 404 (lit "Cannot find data bag item " ++ id)
  | some raw => return .json 200 (wrapStoredDataBagItem bag id raw)

/-! ## Requests for data bags and their items, with errors of the store -/

def withErrors {α : Type} (fails : StoreCall → Bool) : Handler α → Handler α
  | .ret a => .ret a
  | .stop response => .stop response
  | .call c next => if fails c then .stop .internalError else .call c fun answer => withErrors fails (next answer)

inductive BagRequest
  | createItem (r : Request) (bag : GoString)
  | putItem (r : Request) (bag id : GoString)
  | delete (bag : GoString) (fails : StoreCall → Bool)

namespace BagRequest

def handler (org : GoString) : BagRequest → Handler Response
  | createItem r bag => createDataBagItem r org bag
  | putItem r bag id => putDataBagItem r org bag id
  | delete bag fails => withErrors fails (deleteDataBag org bag)

def bag : BagRequest → GoString
  | createItem _ bag => bag
  | putItem _ bag _ => bag
  | delete bag _ => bag

end BagRequest

end CincServer.Api
