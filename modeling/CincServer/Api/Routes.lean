import CincServer.Go.Http

/-!
# The registered routes
-/

namespace CincServer.Api
open Go

inductive Scope
  | org
  | global
deriving DecidableEq

inductive Endpoint
  | status | statsHandler | license | serverAPIVersion | requiredRecipe | principal
  | listObjects (seg : GoString) | createObject (seg : GoString) | getObject (seg : GoString)
  | putObject (seg : GoString) | deleteObject (seg : GoString) | headObject (seg : GoString)
  | refuseDefaultEnvironment
  | envCookbooks | envCookbook | envCookbookVersions | envRecipes | envNodes | envRole
  | roleEnvironments | roleEnvironment
  | scopedList (scope : Scope) (seg : GoString) | createActor (scope : Scope) (seg : GoString)
  | scopedGet (scope : Scope) (seg : GoString) | scopedPut (scope : Scope) (seg : GoString)
  | scopedDelete (scope : Scope) (seg : GoString)
  | listKeys (scope : Scope) (seg : GoString) | addKey (scope : Scope) (seg : GoString)
  | getKey (scope : Scope) (seg : GoString) | putKey (scope : Scope) (seg : GoString)
  | deleteKey (scope : Scope) (seg : GoString)
  | listDataBags | createDataBag | listDataBagItems | createDataBagItem | deleteDataBag
  | getDataBagItem | putDataBagItem | deleteDataBagItem
  | putFile | getFile | createSandbox | commitSandbox
  | listCookbooks | cookbooksLatest | cookbookRecipesEndpoint | getCookbook | getCookbookVersion
  | putCookbookVersion | deleteCookbookVersion | universe
  | listArtifacts | getArtifact | getArtifactVersion | putArtifactVersion | deleteArtifactVersion
  | listSearchIndexes | runSearch
  | getACL (typ : GoString) | getACLPerm (typ : GoString) | putACLPerm (typ : GoString)
  | getOrgACL | getOrgACLPerm | putOrgACLPerm | getUserACL | getUserACLPerm | putUserACLPerm
  | authenticateUser
  | listOrgUsers | associateUser | getOrgUser | disassociateUser | listUserOrgs
  | listOrgInvites | createInvite | rescindInvite | listUserInvites | countUserInvites | respondInvite
  | listPolicies | getPolicy | deletePolicy | getPolicyRevision | createPolicyRevision
  | deletePolicyRevision | listPolicyGroups | getPolicyGroup | deletePolicyGroup | getGroupPolicy
  | putGroupPolicy | deleteGroupPolicy
  | listOrganizations | createOrganization | getOrganization | putOrganization | deleteOrganization
  | createGroup | getGroup | putGroup | deleteGroup | createContainer

abbrev Route := Pattern Endpoint

def orgScoped (rest : List Segment) : List Segment :=
  .literal (lit "organizations") :: .wildcard (lit "org") :: rest

def fixed (s : String) : Segment := .literal (lit s)

def wild (name : String) : Segment := .wildcard (lit name)

def registerSystemRoutes : List Route := [⟨.get, [fixed "_status"], .status⟩]

def registerObjectRoutes (seg : GoString) : List Route :=
  [⟨.get, orgScoped [.literal seg], .listObjects seg⟩, ⟨.post, orgScoped [.literal seg], .createObject seg⟩,
   ⟨.get, orgScoped [.literal seg, wild "name"], .getObject seg⟩,
   ⟨.put, orgScoped [.literal seg, wild "name"], .putObject seg⟩,
   ⟨.delete, orgScoped [.literal seg, wild "name"], .deleteObject seg⟩,
   ⟨.head, orgScoped [.literal seg, wild "name"], .headObject seg⟩]

def registerEnvironmentRoutes : List Route :=
  registerObjectRoutes (lit "environments") ++
  [⟨.put, orgScoped [fixed "environments", fixed "_default"], .refuseDefaultEnvironment⟩,
   ⟨.delete, orgScoped [fixed "environments", fixed "_default"], .refuseDefaultEnvironment⟩]

def registerEnvironmentSubRoutes : List Route :=
  let e (rest : List Segment) := orgScoped (fixed "environments" :: wild "env" :: rest)
  let r (rest : List Segment) := orgScoped (fixed "roles" :: wild "role" :: rest)
  [⟨.get, e [fixed "cookbooks"], .envCookbooks⟩, ⟨.get, e [fixed "cookbooks", wild "name"], .envCookbook⟩,
   ⟨.post, e [fixed "cookbook_versions"], .envCookbookVersions⟩,
   ⟨.get, e [fixed "recipes"], .envRecipes⟩,
   ⟨.get, e [fixed "nodes"], .envNodes⟩,
   ⟨.get, e [fixed "roles", wild "role"], .envRole⟩,
   ⟨.get, r [fixed "environments"], .roleEnvironments⟩,
   ⟨.get, r [fixed "environments", wild "env"], .roleEnvironment⟩]

def Scope.base : Scope → List Segment → List Segment
  | .org, rest => orgScoped rest
  | .global, rest => rest

def registerActorRoutes (scope : Scope) (seg : GoString) : List Route :=
  [⟨.get, scope.base [.literal seg], .scopedList scope seg⟩, ⟨.post, scope.base [.literal seg], .createActor scope seg⟩,
   ⟨.get, scope.base [.literal seg, wild "name"], .scopedGet scope seg⟩,
   ⟨.put, scope.base [.literal seg, wild "name"], .scopedPut scope seg⟩,
   ⟨.delete, scope.base [.literal seg, wild "name"], .scopedDelete scope seg⟩]

def registerKeyRoutes (scope : Scope) (seg : GoString) : List Route :=
  let base (rest : List Segment) := scope.base (.literal seg :: wild "name" :: fixed "keys" :: rest)
  [⟨.get, base [], .listKeys scope seg⟩, ⟨.post, base [], .addKey scope seg⟩,
   ⟨.get, base [wild "key"], .getKey scope seg⟩,
   ⟨.put, base [wild "key"], .putKey scope seg⟩,
   ⟨.delete, base [wild "key"], .deleteKey scope seg⟩]

def registerDataBagRoutes : List Route :=
  let base (rest : List Segment) := orgScoped (fixed "data" :: rest)
  [⟨.get, base [], .listDataBags⟩, ⟨.post, base [], .createDataBag⟩, ⟨.get, base [wild "bag"], .listDataBagItems⟩,
   ⟨.post, base [wild "bag"], .createDataBagItem⟩,
   ⟨.delete, base [wild "bag"], .deleteDataBag⟩,
   ⟨.get, base [wild "bag", wild "item"], .getDataBagItem⟩,
   ⟨.put, base [wild "bag", wild "item"], .putDataBagItem⟩,
   ⟨.delete, base [wild "bag", wild "item"], .deleteDataBagItem⟩]

def registerCookbookRoutes : List Route :=
  let base (rest : List Segment) := orgScoped (fixed "cookbooks" :: rest)
  [⟨.put, orgScoped [fixed "file_store", wild "checksum"], .putFile⟩,
   ⟨.get, orgScoped [fixed "file_store", wild "checksum"], .getFile⟩,
   ⟨.post, orgScoped [fixed "sandboxes"], .createSandbox⟩,
   ⟨.put, orgScoped [fixed "sandboxes", wild "id"], .commitSandbox⟩,
   ⟨.get, base [], .listCookbooks⟩,
   ⟨.get, base [fixed "_latest"], .cookbooksLatest⟩,
   ⟨.get, base [fixed "_recipes"], .cookbookRecipesEndpoint⟩,
   ⟨.get, base [wild "name"], .getCookbook⟩,
   ⟨.get, base [wild "name", wild "version"], .getCookbookVersion⟩,
   ⟨.put, base [wild "name", wild "version"], .putCookbookVersion⟩,
   ⟨.delete, base [wild "name", wild "version"], .deleteCookbookVersion⟩,
   ⟨.get, orgScoped [fixed "universe"], .universe⟩]

def registerCookbookArtifactRoutes : List Route :=
  let base (rest : List Segment) := orgScoped (fixed "cookbook_artifacts" :: rest)
  [⟨.get, base [], .listArtifacts⟩, ⟨.get, base [wild "name"], .getArtifact⟩,
   ⟨.get, base [wild "name", wild "identifier"], .getArtifactVersion⟩,
   ⟨.put, base [wild "name", wild "identifier"], .putArtifactVersion⟩,
   ⟨.delete, base [wild "name", wild "identifier"], .deleteArtifactVersion⟩]

def registerSearchRoutes : List Route :=
  [⟨.get, orgScoped [fixed "search"], .listSearchIndexes⟩, ⟨.get, orgScoped [fixed "search", wild "index"], .runSearch⟩,
   ⟨.post, orgScoped [fixed "search", wild "index"], .runSearch⟩]

def aclObjectTypes : List GoString :=
  [lit "clients", lit "containers", lit "cookbooks", lit "cookbook_artifacts", lit "data",
   lit "environments", lit "groups", lit "nodes", lit "policies", lit "policy_groups", lit "roles"]

def registerACLRoutes : List Route :=
  (aclObjectTypes.flatMap fun typ =>
    let base (rest : List Segment) := orgScoped (.literal typ :: wild "name" :: fixed "_acl" :: rest)
    [⟨.get, base [], .getACL typ⟩, ⟨.get, base [wild "perm"], .getACLPerm typ⟩,
     ⟨.put, base [wild "perm"], .putACLPerm typ⟩]) ++
  [⟨.get, orgScoped [fixed "organizations", fixed "_acl"], .getOrgACL⟩,
   ⟨.get, orgScoped [fixed "organizations", fixed "_acl", wild "perm"], .getOrgACLPerm⟩,
   ⟨.put, orgScoped [fixed "organizations", fixed "_acl", wild "perm"], .putOrgACLPerm⟩,
   ⟨.get, [fixed "users", wild "name", fixed "_acl"], .getUserACL⟩,
   ⟨.get, [fixed "users", wild "name", fixed "_acl", wild "perm"], .getUserACLPerm⟩,
   ⟨.put, [fixed "users", wild "name", fixed "_acl", wild "perm"], .putUserACLPerm⟩]

def registerAuthenticateRoutes : List Route :=
  [⟨.post, [fixed "authenticate_user"], .authenticateUser⟩]

def registerAssociationRoutes : List Route :=
  [⟨.get, orgScoped [fixed "users"], .listOrgUsers⟩, ⟨.post, orgScoped [fixed "users"], .associateUser⟩,
   ⟨.get, orgScoped [fixed "users", wild "user"], .getOrgUser⟩,
   ⟨.delete, orgScoped [fixed "users", wild "user"], .disassociateUser⟩,
   ⟨.get, [fixed "users", wild "user", fixed "organizations"], .listUserOrgs⟩]

def registerAssociationRequestRoutes : List Route :=
  [⟨.get, orgScoped [fixed "association_requests"], .listOrgInvites⟩,
   ⟨.post, orgScoped [fixed "association_requests"], .createInvite⟩,
   ⟨.delete, orgScoped [fixed "association_requests", wild "id"], .rescindInvite⟩,
   ⟨.get, [fixed "users", wild "user", fixed "association_requests"], .listUserInvites⟩,
   ⟨.get, [fixed "users", wild "user", fixed "association_requests", fixed "count"], .countUserInvites⟩,
   ⟨.put, [fixed "users", wild "user", fixed "association_requests", wild "id"], .respondInvite⟩]

def registerPolicyRoutes : List Route :=
  let policies (rest : List Segment) := orgScoped (fixed "policies" :: rest)
  let groups (rest : List Segment) := orgScoped (fixed "policy_groups" :: rest)
  [⟨.get, policies [], .listPolicies⟩, ⟨.get, policies [wild "name"], .getPolicy⟩,
   ⟨.delete, policies [wild "name"], .deletePolicy⟩,
   ⟨.get, policies [wild "name", fixed "revisions", wild "rev"], .getPolicyRevision⟩,
   ⟨.post, policies [wild "name", fixed "revisions"], .createPolicyRevision⟩,
   ⟨.delete, policies [wild "name", fixed "revisions", wild "rev"], .deletePolicyRevision⟩,
   ⟨.get, groups [], .listPolicyGroups⟩,
   ⟨.get, groups [wild "group"], .getPolicyGroup⟩,
   ⟨.delete, groups [wild "group"], .deletePolicyGroup⟩,
   ⟨.get, groups [wild "group", fixed "policies", wild "policy"], .getGroupPolicy⟩,
   ⟨.put, groups [wild "group", fixed "policies", wild "policy"], .putGroupPolicy⟩,
   ⟨.delete, groups [wild "group", fixed "policies", wild "policy"], .deleteGroupPolicy⟩]

def registerOrganizationRoutes : List Route :=
  [⟨.get, [fixed "organizations"], .listOrganizations⟩, ⟨.post, [fixed "organizations"], .createOrganization⟩,
   ⟨.get, orgScoped [], .getOrganization⟩,
   ⟨.put, orgScoped [], .putOrganization⟩,
   ⟨.delete, orgScoped [], .deleteOrganization⟩]

def registerAuthzRoutes : List Route :=
  let groups (rest : List Segment) := orgScoped (fixed "groups" :: rest)
  let base (rest : List Segment) := orgScoped (fixed "containers" :: rest)
  [⟨.get, groups [], .listObjects (lit "groups")⟩, ⟨.post, groups [], .createGroup⟩,
   ⟨.get, groups [wild "name"], .getGroup⟩,
   ⟨.put, groups [wild "name"], .putGroup⟩,
   ⟨.delete, groups [wild "name"], .deleteGroup⟩,
   ⟨.head, groups [wild "name"], .headObject (lit "groups")⟩,
   ⟨.get, base [], .listObjects (lit "containers")⟩,
   ⟨.get, base [wild "name"], .getObject (lit "containers")⟩,
   ⟨.post, base [], .createContainer⟩,
   ⟨.delete, base [wild "name"], .deleteObject (lit "containers")⟩]

def registerServerEndpoints : List Route :=
  [⟨.get, [fixed "_stats"], .statsHandler⟩, ⟨.get, [fixed "license"], .license⟩,
   ⟨.get, [fixed "server_api_version"], .serverAPIVersion⟩,
   ⟨.get, orgScoped [fixed "required_recipe"], .requiredRecipe⟩,
   ⟨.get, orgScoped [fixed "principals", wild "name"], .principal⟩]

def routes : List Route :=
  registerSystemRoutes ++ registerObjectRoutes (lit "nodes") ++ registerObjectRoutes (lit "roles") ++
  registerEnvironmentRoutes ++ registerEnvironmentSubRoutes ++
  registerActorRoutes .org (lit "clients") ++ registerActorRoutes .global (lit "users") ++
  registerKeyRoutes .org (lit "clients") ++ registerKeyRoutes .global (lit "users") ++
  registerDataBagRoutes ++ registerCookbookRoutes ++ registerCookbookArtifactRoutes ++
  registerSearchRoutes ++ registerACLRoutes ++ registerAuthenticateRoutes ++
  registerAssociationRoutes ++ registerAssociationRequestRoutes ++ registerPolicyRoutes ++
  registerOrganizationRoutes ++ registerAuthzRoutes ++ registerServerEndpoints

end CincServer.Api
