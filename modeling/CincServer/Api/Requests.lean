import CincServer.Api.Cookbooks
import CincServer.Api.Organizations
import CincServer.Api.Policies

/-!
# The requests that write

One constructor for each route whose handler may write, by area. Every other route only reads.
-/

namespace CincServer.Api
open Go Json Lib

inductive AclType
  | clients | containers | cookbooks | cookbookArtifacts | data | environments | groups | nodes | policies
  | policyGroups | roles
deriving DecidableEq

def AclType.name : AclType → GoString
  | clients => lit "clients"
  | containers => lit "containers"
  | cookbooks => lit "cookbooks"
  | cookbookArtifacts => lit "cookbook_artifacts"
  | data => lit "data"
  | environments => lit "environments"
  | groups => lit "groups"
  | nodes => lit "nodes"
  | policies => lit "policies"
  | policyGroups => lit "policy_groups"
  | roles => lit "roles"

inductive AclWrite
  | object (org : GoString) (type : AclType) (name : GoString)
  | organization (org : GoString)
  | user (name : GoString)

def AclWrite.handler (r : Request) (perm : GoString) : AclWrite → Handler Response
  | object org type name => do
      resolveOrg org
      putACLPerm r org type.name name perm
  | organization org => do
      resolveOrg org
      updateACLPermDoc r org (some org) orgsColl org perm 200
  | user name => updateACLPermDoc r global none users name perm 200

inductive KeyWrite
  | add (env : Env) (r : Request)
  | put (env : Env) (r : Request) (key : GoString)
  | delete (key : GoString)

def KeyWrite.handler (route : ActorRoute) (name : GoString) : KeyWrite → Handler Response
  | add env r => addKey env r route name
  | put env r key => putKey env r route name key
  | delete key => deleteKey route name key

inductive ActorWrite
  | create (env : Env) (r : Request)
  | put (env : Env) (r : Request) (name : GoString)
  | delete (r : Request) (name : GoString)
  | key (name : GoString) (request : KeyWrite)

def ActorWrite.handler [Unicode] (enforceACL : Bool) (route : ActorRoute) :
    ActorWrite → Handler Response
  | create env r => postActor env enforceACL r route
  | put env r name => putActor env r route name
  | delete r name => do
      route.scope
      scopedDelete r route.org route.segment name
  | key name request => request.handler route name

inductive OrgWrite
  | create (env : Env) (r : Request)
  | put (r : Request) (name : GoString)
  | delete (name : GoString)

def OrgWrite.handler : OrgWrite → Handler Response
  | create env r => createOrganization env r
  | put r name => putOrganization r name
  | delete name => deleteOrganization name

inductive MembersWrite
  | associate (r : Request)
  | disassociate (user : GoString)
  | invite (r : Request)
  | rescind (id : GoString)
  | createGroup (r : Request)
  | putGroup (r : Request) (name : GoString)
  | deleteGroup (name : GoString)

def MembersWrite.handler (org : GoString) : MembersWrite → Handler Response
  | associate r => associateUser r org
  | disassociate user => disassociateUser org user
  | invite r => createInvite r org
  | rescind id => rescindInvite org id
  | createGroup r => Api.createGroup r org
  | putGroup r name => Api.putGroup r org name
  | deleteGroup name => Api.deleteGroup org name

inductive ObjectWrite
  | create (r : Request) (type : ObjectType)
  | put (r : Request) (type : ObjectType) (name : GoString)
  | delete (type : ObjectType) (name : GoString)
  | createContainer (r : Request)
  | deleteContainer (name : GoString)
  | createBag (r : Request)
  | deleteBag (bag : GoString)
  | createItem (r : Request) (bag : GoString)
  | putItem (r : Request) (bag id : GoString)
  | deleteItem (bag id : GoString)

def ObjectWrite.handler (enforceACL : Bool) (org : GoString) : ObjectWrite → Handler Response
  | create r type => createObject enforceACL r org type
  | put r type name => putObjectRoute r org type name
  | delete type name => deleteObjectRoute org type name
  | createContainer r => Api.createContainer r org
  | deleteContainer name => deleteObject org containersColl name
  | createBag r => createDataBag r org
  | deleteBag bag => deleteDataBag org bag
  | createItem r bag => createDataBagItem r org bag
  | putItem r bag id => putDataBagItem r org bag id
  | deleteItem bag id => deleteDataBagItem org bag id

inductive PolicyWrite
  | createRevision (r : Request) (policy : GoString)
  | deleteRevision (policy rev : GoString)
  | delete (policy : GoString)
  | putGroupPolicy (r : Request) (group policy : GoString)
  | deleteGroupPolicy (group policy : GoString)
  | deleteGroup (group : GoString)

def PolicyWrite.handler (org : GoString) : PolicyWrite → Handler Response
  | createRevision r policy => createPolicyRevision r org policy
  | deleteRevision policy rev => deletePolicyRevision org policy rev
  | delete policy => deletePolicy org policy
  | putGroupPolicy r group policy => Api.putGroupPolicy r org group policy
  | deleteGroupPolicy group policy => Api.deleteGroupPolicy org group policy
  | deleteGroup group => deletePolicyGroup org group

inductive CookbookWrite
  | putVersion (r : Request) (name version : GoString)
  | deleteVersion (r : Request) (name version : GoString)
  | putArtifact (r : Request) (name ident : GoString)
  | deleteArtifact (r : Request) (name ident : GoString)
  | putFile (r : Request) (checksum : GoString)
  | createSandbox (r : Request)
  | commitSandbox (id : GoString)

def CookbookWrite.handler (files : FileEnv) (org : GoString) : CookbookWrite → Handler Response
  | putVersion r name version => putCookbookVersion files r org name version
  | deleteVersion r name version => deleteCookbookVersion files r org name version
  | putArtifact r name ident => putArtifactVersion files r org name ident
  | deleteArtifact r name ident => deleteArtifactVersion files r org name ident
  | putFile r checksum => Api.putFile files r org checksum
  | createSandbox r => Api.createSandbox files r org
  | commitSandbox id => Api.commitSandbox org id

inductive ApiRequest
  | actor (route : ActorRoute) (request : ActorWrite)
  | acl (r : Request) (perm : GoString) (request : AclWrite)
  | organization (request : OrgWrite)
  | membership (org : GoString) (request : MembersWrite)
  | respond (r : Request) (user id : GoString)
  | object (org : GoString) (request : ObjectWrite)
  | policy (org : GoString) (request : PolicyWrite)
  | cookbook (files : FileEnv) (org : GoString) (request : CookbookWrite)

def ApiRequest.handler [Unicode] (enforceACL : Bool) : ApiRequest → Handler Response
  | actor route request => request.handler enforceACL route
  | acl r perm request => request.handler r perm
  | organization request => request.handler
  | membership org request => request.handler org
  | respond r user id => respondInvite r user id
  | object org request => request.handler enforceACL org
  | policy org request => request.handler org
  | cookbook files org request => request.handler files org

def Serves [Unicode] (enforceACL : Bool) (admitted : ApiRequest → Store → Prop) : Store → Prop :=
  Session exec (ApiRequest.handler enforceACL) admitted Store.newMemoryBackend

end CincServer.Api
