import CincServer.Api.Handler

/-!
# Groups: documents, member rows and the index authorization reads

A group's members are listed in its document and, added one at a time, in rows keyed by group, kind
and member.
-/

namespace CincServer.Api
open Go Json Lib

inductive MemberKind
  | users
  | clients
  | groups
deriving DecidableEq, Repr

namespace MemberKind

def name : MemberKind → GoString
  | users => lit "users"
  | clients => lit "clients"
  | groups => lit "groups"

def ofName (s : GoString) : Option MemberKind :=
  if s = lit "users" then some users
  else if s = lit "clients" then some clients
  else if s = lit "groups" then some groups
  else none

end MemberKind

def groupsColl : GoString := lit "groups"

def groupMembersColl : GoString := lit "group_members"

structure MemberLists where
  users : List GoString
  clients : List GoString
  groups : List GoString
deriving DecidableEq

namespace MemberLists

def none : MemberLists := ⟨[], [], []⟩

def get (m : MemberLists) : MemberKind → List GoString
  | .users => m.users
  | .clients => m.clients
  | .groups => m.groups

def set (m : MemberLists) (kind : MemberKind) (names : List GoString) : MemberLists :=
  match kind with
  | .users => { m with users := names }
  | .clients => { m with clients := names }
  | .groups => { m with groups := names }

end MemberLists

def memberKey (group kind actor : GoString) : GoString := group ++ 0 :: kind ++ 0 :: actor

def splitMemberKey (key : GoString) : Option (GoString × GoString × GoString) :=
  match key.splitOn 0 with
  | [group, kind, actor] => some (group, kind, actor)
  | _ => none

def jsonStrings : Value → List GoString
  | .array elems => elems.filterMap fun v => match v with
      | .string s => some s
      | _ => none
  | _ => []

def groupMembers (obj : Object) : MemberLists :=
  let src := (asMap (field obj (lit "actors"))).getD obj
  ⟨jsonStrings (field src (lit "users")), jsonStrings (field src (lit "clients")),
    jsonStrings (field src (lit "groups"))⟩

def stringArray (names : List GoString) : Value := .array (names.map .string)

def groupJSON (name orgname : GoString) (m : MemberLists) : Raw :=
  .document <| .object <|
    [(lit "actors", stringArray (m.clients ++ m.users)), (lit "users", stringArray m.users),
      (lit "clients", stringArray m.clients), (lit "groups", stringArray m.groups)] ++
    (if orgname ≠ [] then [(lit "orgname", .string orgname)] else []) ++
    [(lit "name", .string name), (lit "groupname", .string name)]

def foldMemberRow (group : GoString) (m : MemberLists) (key : GoString) : MemberLists :=
  if !(group ++ [0]).isPrefixOf key then m
  else match splitMemberKey key with
    | none => m
    | some (_, kind, actor) =>
      match MemberKind.ofName kind with
      | none => m
      | some kind => if actor ∈ m.get kind then m else m.set kind (m.get kind ++ [actor])

def groupMembership (org group : GoString) : Handler MemberLists := do
  let doc ← Org.get org groupsColl group
  let rows ← Org.range org groupMembersColl
  let written := match doc.bind unmarshalMap with
    | some g => groupMembers (contents g)
    | none => .none
  return rows.foldl (fun m row => foldMemberRow group m row.1) written

def addMember (org group : GoString) (kind : MemberKind) (actor : GoString) : Handler Unit :=
  Org.put org groupMembersColl (memberKey group kind.name actor) (.document (.object []))

def clearMembers (org group : GoString) : Handler Unit := do
  let rows ← Org.range org groupMembersColl
  deleteAll org groupMembersColl ((rows.map Prod.fst).filter fun key => (group ++ [0]).isPrefixOf key)

def removeMemberRows (org : GoString) (kind : MemberKind) (actor : GoString) : Handler Unit := do
  let rows ← Org.range org groupMembersColl
  deleteAll org groupMembersColl ((rows.map Prod.fst).filter fun key => (0 :: kind.name ++ 0 :: actor).isSuffixOf key)

def without (names : List GoString) (name : GoString) : List GoString := names.filter (· ≠ name)

def revoked (name : GoString) (kind : MemberKind) (actor : GoString) (raw : Raw) : Option Raw :=
  match unmarshalMap raw with
  | none => none
  | some g =>
    let m := groupMembers (contents g)
    if (without (m.get kind) actor).length ≠ (m.get kind).length then
      some (groupJSON name [] (m.set kind (without (m.get kind) actor)))
    else none

def removeFromGroupDoc (org : GoString) (kind : MemberKind) (actor name : GoString) :
    Handler Unit := do
  match (← Org.get org groupsColl name).bind (revoked name kind actor) with
  | none => pure ()
  | some doc => Org.put org groupsColl name doc

def removeFromGroupDocs (org : GoString) (kind : MemberKind) (actor : GoString) : Handler Unit := do
  let names ← Org.keys org groupsColl
  names.forM (removeFromGroupDoc org kind actor)

def removeActorFromAllGroups (org : GoString) (kind : MemberKind) (actor : GoString) :
    Handler Unit := do
  removeMemberRows org kind actor
  removeFromGroupDocs org kind actor

structure GroupIndex where
  users : GoMap (List GoString)
  clients : GoMap (List GoString)
  nests : GoMap (List GoString)

namespace GroupIndex

def empty : GroupIndex := ⟨∅, ∅, ∅⟩

def table (idx : GroupIndex) : MemberKind → GoMap (List GoString)
  | .users => idx.users
  | .clients => idx.clients
  | .groups => idx.nests

def append (idx : GroupIndex) (kind : MemberKind) (member group : GoString) : GroupIndex :=
  let grow (table : GoMap (List GoString)) := table.insert member (table.getD member [] ++ [group])
  match kind with
  | .users => { idx with users := grow idx.users }
  | .clients => { idx with clients := grow idx.clients }
  | .groups => { idx with nests := grow idx.nests }

def addAll (idx : GroupIndex) (group : GoString) (m : MemberLists) : GroupIndex :=
  let add (kind : MemberKind) (idx : GroupIndex) :=
    (m.get kind).foldl (fun idx member => idx.append kind member group) idx
  add .groups (add .clients (add .users idx))

def addOne (idx : GroupIndex) (group kind actor : GoString) : GroupIndex :=
  match MemberKind.ofName kind with
  | none => idx
  | some kind => if group ∈ (idx.table kind).getD actor [] then idx else idx.append kind actor group

def addRow (idx : GroupIndex) (key : GoString) : GroupIndex :=
  match splitMemberKey key with
  | some (group, kind, actor) => idx.addOne group kind actor
  | none => idx

end GroupIndex

structure MemberDoc where
  users : Slice
  clients : Slice
  groups : Slice

def memberFields : List (StructField MemberDoc) :=
  [.strings (lit "users") MemberDoc.users fun names m => { m with users := names },
   .strings (lit "clients") MemberDoc.clients fun names m => { m with clients := names },
   .strings (lit "groups") MemberDoc.groups fun names m => { m with groups := names }]

def decodeMembers : Raw → Option MemberDoc := unmarshalStruct memberFields ⟨.empty, .empty, .empty⟩

/-- The members the index takes from a document: by the typed decoding, or by exact names at top
level when that fails. -/
def indexMembers (raw : Raw) : MemberLists :=
  match decodeMembers raw with
  | some m => ⟨m.users.elems, m.clients.elems, m.groups.elems⟩
  | none =>
    let g := contents ((unmarshalMap raw).getD none)
    ⟨jsonStrings (field g (lit "users")), jsonStrings (field g (lit "clients")), jsonStrings (field g (lit "groups"))⟩

def indexOf (docs rows : List (GoString × Raw)) : GroupIndex :=
  let fromDocs := docs.foldl (fun idx doc => idx.addAll doc.1 (indexMembers doc.2)) GroupIndex.empty
  rows.foldl (fun idx row => idx.addRow row.1) fromDocs

def buildGroupIndex (org : GoString) : Handler GroupIndex := do
  let docs ← Org.range org groupsColl
  let rows ← Org.range org groupMembersColl
  return indexOf docs rows

def enqueue (queue : List GoString) (group : GoString) : List GoString :=
  if group ∈ queue then queue else queue ++ [group]

def expand (nests : GoMap (List GoString)) :
    (fuel : Nat) → (queue : List GoString) → (i : Nat) → List GoString
  | 0, queue, _ => queue
  | fuel + 1, queue, i =>
    match queue[i]? with
    | none => queue
    | some group => expand nests fuel ((nests.getD group []).foldl enqueue queue) (i + 1)

/-- The groups an actor belongs to, nesting followed. No group is queued twice, so the names in the
index bound the number of rounds. -/
def GroupIndex.membership (idx : GroupIndex) (actor : Actor) : List GoString :=
  let direct := (if actor.isClient then idx.clients else idx.users).getD actor.name []
  let nested := (idx.nests.toList.flatMap Prod.snd).length
  expand idx.nests (direct.length + nested + 1) (direct.foldl enqueue []) 0

def actorGroups (org : GoString) (actor : Actor) : Handler (List GoString) := do
  return (← buildGroupIndex org).membership actor

/-!
## Access control lists

An ACL is stored under the type and name of its object and holds one entry for each permission. An
object without a stored ACL has the one its type falls back to.
-/

def aclsColl : GoString := lit "acls"

def aclPerms : List GoString := [lit "create", lit "read", lit "update", lit "delete", lit "grant"]

def aclKey (typ name : GoString) : GoString := typ ++ lit "/" ++ name

def aclEntry (actors groups : List GoString) : Value :=
  .object [(lit "actors", stringArray actors), (lit "groups", stringArray groups)]

def aclOf (groupsOf : GoString → List GoString) (actors : List GoString) : Object :=
  aclPerms.foldl (fun acl perm => acl.insert perm (aclEntry actors (groupsOf perm))) ∅

def defaultGroupsOf (perm : GoString) : List GoString :=
  if perm = lit "read" then [lit "admins", lit "users", lit "clients"]
  else if perm = lit "grant" then [lit "admins"]
  else [lit "admins", lit "users"]

def defaultACL : Object := aclOf defaultGroupsOf []

structure Grant where
  group : GoString
  perms : List GoString

def policyACL (grants : List Grant) : Object :=
  aclOf (fun perm => (grants.filter (perm ∈ ·.perms)).map Grant.group) []

def crud : List GoString := [lit "create", lit "read", lit "update", lit "delete"]

def containerUserPerms : List (GoString × List GoString) :=
  [(lit "cookbooks", crud), (lit "data", crud), (lit "nodes", crud), (lit "roles", crud),
   (lit "environments", crud), (lit "policies", crud), (lit "policy_groups", crud),
   (lit "cookbook_artifacts", crud), (lit "clients", [lit "read", lit "delete"]),
   (lit "groups", [lit "read"]), (lit "containers", [lit "read"]), (lit "sandboxes", [lit "create"])]

def containerClientPerms : List (GoString × List GoString) :=
  [(lit "nodes", [lit "create", lit "read"]), (lit "policies", [lit "read"]),
   (lit "policy_groups", [lit "read"]), (lit "cookbook_artifacts", [lit "read"]), (lit "data", [lit "read"]),
   (lit "cookbooks", [lit "read"]), (lit "environments", [lit "read"]), (lit "roles", [lit "read"])]

def containerACL (name : GoString) : Object :=
  let name := if (containerUserPerms.lookup name).isSome then name else lit "containers"
  policyACL [⟨lit "admins", aclPerms⟩, ⟨lit "users", (containerUserPerms.lookup name).getD []⟩,
    ⟨lit "clients", (containerClientPerms.lookup name).getD []⟩]

def groupACL (name : GoString) : Object :=
  if name ∈ [lit "admins", lit "clients", lit "users"] then policyACL [⟨lit "admins", aclPerms⟩]
  else if name = lit "billing-admins" then policyACL [⟨lit "billing-admins", [lit "read", lit "update"]⟩]
  else if name = lit "public_key_read_access" then policyACL [⟨lit "admins", [lit "read", lit "update"]⟩]
  else containerACL (lit "groups")

def orgACL : Object := policyACL [⟨lit "admins", aclPerms⟩, ⟨lit "users", [lit "read"]⟩]

def fallbackACL (typ name : GoString) : Object :=
  if typ = lit "organizations" then orgACL
  else if typ = lit "containers" then containerACL name
  else if typ = lit "groups" then groupACL name
  else defaultACL

/-- An ACL and whether it was decoded from the store. The lists of a fallback are Go string slices,
which `jsonStrings` does not read. -/
structure LoadedACL where
  acl : Option Object
  decoded : Bool

def aclOfRaw (typ name : GoString) (raw : Option Raw) : LoadedACL :=
  match raw.bind unmarshalMap with
  | some acl => ⟨acl, true⟩
  | none => ⟨some (fallbackACL typ name), false⟩

def loadACL (org typ name : GoString) : Handler LoadedACL := do
  return aclOfRaw typ name (← Org.get org aclsColl (aclKey typ name))

def anyStrings (v : Value) : List GoString := jsonStrings v

def aceAllows (entry : Value) (name : GoString) (member : List GoString) : Bool :=
  match asMap entry with
  | none => false
  | some ace =>
    name ∈ anyStrings (field ace (lit "actors")) ||
      (anyStrings (field ace (lit "groups"))).any (· ∈ member)

def actorAllowed (org : GoString) (actor : Actor) (aclType aclName perm : GoString) :
    Handler Bool := do
  let loaded ← loadACL org aclType aclName
  match asMap (field (contents loaded.acl) perm) with
  | none => return false
  | some ace =>
    if actor.name ∈ anyStrings (field ace (lit "actors")) then return true
    if (anyStrings (field ace (lit "groups"))).isEmpty then return false
    let member ← actorGroups org actor
    return aceAllows (field (contents loaded.acl) perm) actor.name member

def deleteACL (org typ name : GoString) : Handler Unit := do
  let _ ← Org.delete org aclsColl (aclKey typ name)

def writeCreatorACL (org typ name creator : GoString) : Handler Unit :=
  Org.put org aclsColl (aclKey typ name) (mustEncode (some (aclOf defaultGroupsOf [creator])))

def grantCreator (enforceACL : Bool) (r : Request) (org typ name : GoString) : Handler Unit :=
  match r.actor with
  | some actor => if enforceACL then writeCreatorACL org typ name actor.name else pure ()
  | none => pure ()

def dataBagsColl : GoString := lit "data_bags"

def dataBagItemsColl (bag : GoString) : GoString := lit "databag_items:" ++ bag

def policyRevColl (policy : GoString) : GoString := lit "policy_revisions:" ++ policy

def hasVersion (org coll name : GoString) : Handler Bool := do
  let rows ← Org.range org coll
  return rows.any fun row => ((cut (lit "/") row.1).map Prod.fst) == some name

def aclObjectExists (org typ name : GoString) : Handler Bool := do
  if typ = lit "organizations" then return true
  else if typ = lit "data" then return (← Org.get org dataBagsColl name).isSome
  else if typ = lit "cookbooks" ∨ typ = lit "cookbook_artifacts" then hasVersion org typ name
  else if typ = lit "policies" then return !(← Org.keys org (policyRevColl name)).isEmpty
  else return (← Org.get org typ name).isSome

def cannotFind {α : Type} (typ name : GoString) : Handler α :=
  writeError 404 (lit "Cannot find " ++ typ ++ lit " " ++ name)

def removesAdminsFromGrant (r : Request) (scope typ name perm : GoString) (ace : Object) :
    Handler Bool := do
  if perm ≠ lit "grant" ∨ lit "admins" ∈ jsonStrings (field ace (lit "groups")) then return false
  match r.actor with
  | none => return false
  | some actor =>
    if actor.isGlobalAdmin then return false
    let loaded ← loadACL scope typ name
    let current := contents (asMap (field (contents loaded.acl) (lit "grant")))
    return loaded.decoded && lit "admins" ∈ jsonStrings (field current (lit "groups"))

def unknown (known : GoString → Handler Bool) : List GoString → Handler (List GoString)
  | [] => return []
  | name :: names => do
      let found ← known name
      let rest ← unknown known names
      return if found then rest else name :: rest

def knownActor (org : Option GoString) (name : GoString) : Handler Bool := do
  if (← Org.get global users name).isSome then return true
  match org with
  | some org => return (← Org.get org clients name).isSome
  | none => return false

def knownGroup (org name : GoString) : Handler Bool := do
  return (← Org.get org groupsColl name).isSome

def unknownACEMembers (org : Option GoString) (ace : Object) :
    Handler (List GoString × List GoString) := do
  let actors ← unknown (knownActor org) (jsonStrings (field ace (lit "actors")))
  match org with
  | none => return (actors, [])
  | some org => return (actors, ← unknown (knownGroup org) (jsonStrings (field ace (lit "groups"))))

def joinNames (names : List GoString) : GoString := [0x2C, 0x20].intercalate names

def unknownMessages (actors groups : List GoString) : List GoString :=
  (if actors = [] then [] else [lit "The actor(s) " ++ joinNames actors ++ lit " do not exist."]) ++
  (if groups = [] then []
   else [lit "The group(s) " ++ joinNames groups ++ lit " do not exist in this organization."])

def bodyEntry (body : Option Object) (perm : GoString) : Option Object :=
  match asMap (field (contents body) perm) with
  | some inner => some inner
  | none => body

def mapValue : Option Object → Value
  | some obj => .object obj.toList
  | none => .null

def updateACLPermDoc (r : Request) (scope : GoString) (members : Option GoString)
    (typ name perm : GoString) (status : Nat) : Handler Response := do
  if perm ∉ aclPerms then writeError 404 (lit "Cannot find ACL permission " ++ perm)
  if !(← aclObjectExists scope typ name) then cannotFind typ name
  let body ← decodeBody r
  let ace := bodyEntry body perm
  if members.isSome then
    if ← removesAdminsFromGrant r scope typ name perm (contents ace) then
      writeError 403 (lit "Admin group cannot be removed from the Grant ACE")
  let (actors, groups) ← unknownACEMembers members (contents ace)
  if actors ≠ [] ∨ groups ≠ [] then Program.stop (.error 400 (unknownMessages actors groups))
  let loaded ← loadACL scope typ name
  let acl ← assign loaded.acl perm (mapValue ace)
  Org.put scope aclsColl (aclKey typ name) (mustEncode acl)
  return .json status (mustEncode (some (Std.ExtTreeMap.ofList [(perm, mapValue ace)])))

def putACLPerm (r : Request) (org typ name perm : GoString) : Handler Response :=
  updateACLPermDoc r org (some org) typ name perm (if typ = lit "policy_groups" then 201 else 200)

def withoutName (kind name : GoString) (entry : Value) : Option Value :=
  match asMap entry with
  | none => none
  | some ace =>
    let listed := anyStrings (field ace kind)
    if (without listed name).length ≠ listed.length then
      some (mapValue (some (ace.insert kind (stringArray (without listed name)))))
    else none

def aclWithout (kind name : GoString) (raw : Raw) : Option Raw :=
  match unmarshalMap raw with
  | none => none
  | some acl =>
    if aclPerms.any fun perm => (withoutName kind name (field (contents acl) perm)).isSome then
      some (mustEncode (acl.map fun acl => aclPerms.foldl (fun acl perm =>
        match withoutName kind name (field acl perm) with
        | some entry => acl.insert perm entry
        | none => acl) acl))
    else none

def rewriteACL (org kind name key : GoString) (raw : Raw) : Handler Unit :=
  match aclWithout kind name raw with
  | none => pure ()
  | some acl => Org.put org aclsColl key acl

def removeFromACLs (org kind name : GoString) : Handler Unit := do
  let rows ← Org.range org aclsColl
  rows.forM fun row => rewriteACL org kind name row.1 row.2

end CincServer.Api
