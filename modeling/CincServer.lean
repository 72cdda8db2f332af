import CincServer.Proof.Api.AclActors
import CincServer.Proof.Api.ActorRevival
import CincServer.Proof.Api.Blobs
import CincServer.Proof.Api.Objects
import CincServer.Proof.Api.GroupMembers
import CincServer.Proof.Api.Invitations
import CincServer.Proof.Api.Jsonstr
import CincServer.Proof.Api.SigningKeys
import CincServer.Proof.Api.GroupCache
import CincServer.Proof.Api.Panics
import CincServer.Proof.Api.PolicyIntegrity
import CincServer.Proof.Api.SearchFilter
import CincServer.Proof.Search.Convergence
import CincServer.Proof.Server.Bootstrap
import CincServer.Proof.Server.Signatures
import CincServer.Proof.Store.DeleteOnce
