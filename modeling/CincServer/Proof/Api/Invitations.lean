import CincServer.Lib.Cascade
import CincServer.Proof.Api.ActorDeletion

/-!
# Answers to one invitation
-/

namespace CincServer.Proof.Api
open CincServer.Api CincServer.Json Go Lib Program

inductive InviteRequest
  | respond (r : Request)
  | rescind

namespace InviteRequest

def handler (org user id : GoString) : InviteRequest → Handler Response
  | respond r => respondInvite r user id
  | rescind => rescindInvite org id

def accepts : InviteRequest → Bool
  | respond r => match decodeAnswer r with
      | .ret answer => answer = .accept
      | _ => false
  | rescind => false

def checks : InviteRequest → Bool
  | respond _ => false
  | rescind => true

end InviteRequest

variable {org user id : GoString} {s : Store} {r : Request}

def invitation (org user id : GoString) : Token StoreCall Store where
  present s := (s.get org assocReqColl id).isSome
  takes
    | .delete o c k => o = org && c = assocReqColl && k = id
    | _ => false
  acts c := touches org assocColl user c ||
    touches org groupMembersColl (memberKey (lit "users") MemberKind.users.name user) c

abbrev InviteJournal := Journal InviteRequest StoreCall.Result Response Response Store

/-- An answer deletes the invitation only while it is there. -/
abbrev AnsweredWhileStored (org user id : GoString) :
    Allows InviteRequest StoreCall.Result Response Response Store :=
  (invitation org user id).whileThere InviteRequest.checks

def Unrelated (org user id : GoString) (c : StoreCall) : Prop :=
  (invitation org user id).acts c = false ∧ Passes exec (invitation org user id) c

theorem passes_of_untouched {c : StoreCall} (still : touches org assocReqColl id c = false) :
    Passes exec (invitation org user id) c := by
  refine ⟨?_, fun s there => ?_⟩
  · cases c with
    | delete => exact still
    | _ => rfl
  · have found : ((exec c s).2.get org assocReqColl id).isSome := there
    rwa [get_exec still] at found

theorem reads_unrelated : Reads (Unrelated org user id) := by
  constructor <;> intros <;> exact ⟨rfl, passes_of_untouched rfl⟩

theorem unrelated_join {other : GoString} (differs : other ≠ org) :
    (joinOrg other user).Only (Unrelated org user id) := by
  refine (only_put ⟨?_, passes_of_untouched ?_⟩).bind fun _ =>
    only_put ⟨?_, passes_of_untouched ?_⟩ <;>
    simp [invitation, touches, differs]

theorem spent_join : (joinOrg org user).Spent exec (invitation org user id) true := by
  have other {coll key : GoString} {val : Raw} (apart : coll ≠ assocReqColl) :
      (Org.put org coll key val).Spent exec (invitation org user id) true :=
    only_put ⟨passes_of_untouched (touches_put_of_ne apart), fun _ => rfl⟩
  exact (other (by decide)).bind fun _ => other (by decide)

theorem present_delete (s : Store) :
    (invitation org user id).present (exec (.delete org assocReqColl id) s).2 = false := by
  simp [invitation, exec, get_delete]

theorem takes_delete :
    (invitation org user id).takes (.delete org assocReqColl id) := by simp [invitation]

theorem acts_delete {other : GoString} :
    (invitation org user id).acts (.delete other assocReqColl id) = false := by
  have association : assocReqColl ≠ assocColl := by decide
  have membership : assocReqColl ≠ groupMembersColl := by decide
  simp [invitation, touches, association, membership]

theorem waiting_rescindInvite :
    (rescindInvite org id).Waiting exec (invitation org user id) false true := by
  refine reads_unrelated.only_resolveOrg.waiting fun _ => ?_
  have answer (s : Store) : (exec (.delete org assocReqColl id) s).1 = s.get org assocReqColl id :=
    delete_snd ..
  refine waiting_take takes_delete acts_delete present_delete
    (fun s there => ?_) fun s absent _ => ?_
  · obtain ⟨raw, found⟩ := Option.isSome_iff_exists.mp there
    rw [answer, found]
    exact only_pure _
  · have missing : s.get org assocReqColl id = none := by simpa [invitation] using absent
    rw [answer, missing]
    exact ⟨_, rfl⟩

theorem waiting_respondInvite :
    (respondInvite r user id).Waiting exec (invitation org user id)
    (InviteRequest.respond r).accepts false := by
  have reads : Reads (Unrelated org user id) := reads_unrelated
  refine only_requireInvitee.waiting fun _ => reads.only_listOrgs.waiting fun orgs =>
    (reads.only_findInvite orgs).waiting fun found => ?_
  cases found with
  | none => trivial
  | some found =>
    dsimp only
    cases decoded : decodeAnswer r with
    | stop => trivial
    | call c next =>
      have never : (decodeAnswer r).Only fun _ => False := only_decodeAnswer
      rw [decoded] at never
      exact never.1.elim
    | ret answer =>
      have accepts : (InviteRequest.respond r).accepts = decide (answer = .accept) := by
        rw [InviteRequest.accepts, decoded]
      have consume (response : Response) :
          (do let _ ← Org.delete found assocReqColl id
              if answer = .accept then joinOrg found user
              return response : Handler Response).Waiting exec (invitation org user id)
            (InviteRequest.respond r).accepts false := by
        by_cases same : found = org
        · subst same
          refine waiting_take takes_delete acts_delete present_delete (fun s _ => ?_) nofun
          rw [accepts]
          cases answer with
          | accept => exact spent_join.bind fun _ => only_pure _
          | reject => exact only_pure _
        · have deletes : Unrelated org user id (.delete found assocReqColl id) :=
            ⟨acts_delete, passes_of_untouched (by simp [touches, same])⟩
          refine Only.waits ((only_perform deletes).bind fun _ => ?_)
          exact only_ite (fun _ => (unrelated_join same).bind fun _ => only_pure _) fun _ =>
            only_pure _
      exact waiting_ite (fun _ => reads.only_requireInviter.waiting fun _ => consume _) fun _ =>
        consume _

theorem waiting_inviteRequest (label : InviteRequest) :
    (label.handler org user id).Waiting exec (invitation org user id) label.accepts label.checks := by
  cases label with
  | respond r => exact waiting_respondInvite
  | rescind => exact waiting_rescindInvite

abbrev Consumed (org user id : GoString) (j : InviteJournal)
    (entry : Entry InviteRequest StoreCall.Result Response Response) :
    Prop :=
  Token.Took (invitation org user id) j entry

/-- When no answer deletes the invitation after it is gone, at most one request for it answers success;
if that one does not accept, no request writes the rows of the user in the organization. -/
theorem invitation_consumed_once {j : InviteJournal}
    (reached : Journal.Reaches exec (InviteRequest.handler org user id) (AnsweredWhileStored org user id) (.initial s) j) :
    (∀ entry ∈ j.entries, ∀ other ∈ j.entries, Consumed org user id j entry → Consumed org user id j other →
      entry = other) ∧
    ∀ entry ∈ j.entries, Consumed org user id j entry → entry.label.accepts = false →
      ∀ call ∈ j.calls, (invitation org user id).acts call.2 = false :=
  ⟨fun _ mem _ mem' => Token.took_once reached waiting_inviteRequest mem mem',
    fun _ mem => Token.no_acts reached waiting_inviteRequest mem⟩

def invited : Store :=
  (Store.newMemoryBackend.createOrg acme).1.put acme assocReqColl (inviteID alice acme) (inviteDoc alice acme [])

def responds (response : GoString) : InviteRequest :=
  .respond (creates [(lit "response", .string response)])

abbrev fromAlice (rules : Allows InviteRequest StoreCall.Result Response Response Store)
    [∀ label c s others, Decidable (rules label c s others)] (moves : List (Journal.Move InviteRequest)) :
    Option InviteJournal :=
  Journal.moves exec (InviteRequest.handler acme alice (inviteID alice acme)) rules (.initial invited) moves

theorem invitation_rejected :
    ∃ j : InviteJournal, fromAlice (AnsweredWhileStored acme alice (inviteID alice acme))
        [.start (responds (lit "reject")), .go 0, .go 0, .go 0, .start .rescind, .go 0] = some j ∧
      j.entries.map (fun entry => entry.rest.returned) = [false, true] ∧
      (∀ entry ∈ j.entries, ∀ other ∈ j.entries, Consumed acme alice (inviteID alice acme) j entry →
        Consumed acme alice (inviteID alice acme) j other → entry = other) ∧
      ∀ entry ∈ j.entries, Consumed acme alice (inviteID alice acme) j entry → entry.label.accepts = false →
        ∀ call ∈ j.calls, (invitation acme alice (inviteID alice acme)).acts call.2 = false := by
  have closed : (fromAlice (AnsweredWhileStored acme alice (inviteID alice acme))
        [.start (responds (lit "reject")), .go 0, .go 0, .go 0, .start .rescind, .go 0]).map (fun j =>
      decide (j.entries.map (fun entry => entry.rest.returned) = [false, true])) = some true := by decide +kernel
  obtain ⟨j, made, checked⟩ := Option.map_eq_some_iff.mp closed
  exact ⟨j, made, of_decide_eq_true checked,
    invitation_consumed_once (Journal.reaches_of_moves made)⟩

theorem rescinded_invitation_accepted :
    ∃ j : InviteJournal, Journal.Reaches exec (InviteRequest.handler acme alice (inviteID alice acme)) Journal.anyOrder
        (.initial invited) j ∧
      ∃ rescind ∈ j.entries, ∃ accept ∈ j.entries, rescind.number ≠ accept.number ∧
        Consumed acme alice (inviteID alice acme) j rescind ∧ Consumed acme alice (inviteID alice acme) j accept ∧
        rescind.label.accepts = false ∧ (j.state.get acme assocColl alice).isSome ∧
        (j.state.get acme groupMembersColl (memberKey (lit "users") MemberKind.users.name alice)).isSome :=
  Journal.exists_of_moves
    [.start (responds (lit "accept")), .go 0, .go 0, .go 0, .start .rescind, .go 0, .go 1, .go 1, .go 1] (by decide +kernel)

/-! ## Invitations and the deletion of the invitee -/

variable {c : StoreCall}

inductive InviteeRequest
  | invite (r : Request) (org : GoString)
  | delete (r : Request)

namespace InviteeRequest

def handler (user : GoString) : InviteeRequest → Handler Response
  | invite r org => createInvite r org
  | delete r => scopedDelete r global users user

def deletes : InviteeRequest → Bool
  | invite .. => false
  | delete _ => true

end InviteeRequest

variable {user org : GoString} {s : Store} {r : Request}

def HoldsInvitation (s : Store) (user org : GoString) : Prop :=
  s.hasOrg org ∧ ∃ id raw, s.get org assocReqColl id = some raw ∧ inviteString (lit "username") raw = some user

def Filed (user : GoString) (s : Store) : Prop :=
  ∀ org id raw, s.get org assocReqColl id = some raw → inviteString (lit "username") raw = some user →
    id = inviteID user org

def invites (user : GoString) : StoreCall → Bool
  | .put org coll key _ => coll = assocReqColl && key = inviteID user org
  | _ => false

abbrev InviteeJournal := Journal InviteeRequest StoreCall.Result Response Response Store

def hasUser (user : GoString) (s : Store) : Bool := (s.get global users user).isSome

/-- An invitation of the user is stored only while the user is there and no deletion of it is under way. -/
abbrev InvitedAlone (user : GoString) :
    Allows InviteeRequest StoreCall.Result Response Response Store :=
  Journal.addedAlone (hasUser user) (fun _ => invites user) InviteeRequest.deletes

def invitedTo (user : GoString) (s : Store) (org : GoString) : Bool :=
  s.hasOrg org && decide ((s.get org assocReqColl (inviteID user org)).bind (inviteString (lit "username")) = some user)

theorem holdsInvitation_iff (filed : Filed user s) :
    HoldsInvitation s user org ↔ invitedTo user s org := by
  rw [HoldsInvitation, invitedTo, Bool.and_eq_true, decide_eq_true_eq]
  refine and_congr_right fun _ => ⟨?_, fun named => ?_⟩
  · rintro ⟨id, raw, stored, named⟩
    rw [← filed org id raw stored named, stored, Option.bind_some, named]
  · obtain ⟨raw, stored, named⟩ := Option.bind_eq_some_iff.mp named
    exact ⟨_, raw, stored, named⟩

def Calm : StoreCall → Prop
  | .put _ coll _ _ => coll ≠ assocReqColl
  | .create _ coll _ _ => coll ≠ assocReqColl
  | .delete _ coll _ => coll ≠ users
  | .createOrg _ => False
  | .deleteOrg _ => False
  | _ => True

theorem reads_calm : Reads Calm := by
  constructor <;> exact trivial

theorem calm_put {coll key : GoString} {val : Raw} (apart : coll ≠ assocReqColl) :
    Calm (.put org coll key val) := apart

theorem Calm.keepsOrgs (calm : Calm c) : KeepsOrgs c := by
  cases c with
  | createOrg | deleteOrg => exact calm.elim
  | _ => trivial

theorem Calm.writes (calm : Calm c) (org : GoString) : writesTo org assocReqColl c = false := by
  cases c with
  | put o coll key val | create o coll key val =>
    have apart : coll ≠ assocReqColl := calm
    simp [writesTo, apart]
  | _ => rfl

theorem invitedTo_of_exec {s : Store} (keeps : KeepsOrgs c)
    (other : writesTo org assocReqColl c = false)
    (left : invitedTo user (exec c s).2 org) : invitedTo user s org := by
  rw [invitedTo, Store.MemoryBackend.hasOrg, orgs_exec c keeps, Bool.and_eq_true,
    decide_eq_true_eq] at left
  obtain ⟨present, named⟩ := left
  obtain ⟨raw, stored, named⟩ := Option.bind_eq_some_iff.mp named
  rw [invitedTo, Store.MemoryBackend.hasOrg, present, get_of_exec other stored, Option.bind_some,
    named]
  simp

theorem Calm.keepsUser (calm : Calm c) (s : Store) (there : hasUser user s) :
    hasUser user (exec c s).2 := by
  unfold Api.hasUser at there ⊢
  cases c with
  | put o coll key val =>
    rw [exec, get_put]
    split
    · rfl
    · exact there
  | create o coll key val =>
    cases taken : s.get o coll key with
    | some raw => rwa [exec, create_of_isSome (by rw [taken]; rfl)]
    | none =>
      rw [exec, create_of_none taken, get_put]
      split
      · rfl
      · exact there
  | delete o coll key => rwa [exec, get_delete, if_neg fun here => calm here.2.1]
  | createOrg | deleteOrg => exact calm.elim
  | _ => exact there

theorem calm_revoking : Revoking fun _ h => h.Only Calm := by
  refine ⟨only_modular _, fun only => only.mono fun c revokes => ?_, ?_⟩
  · cases c with
    | put org coll key val =>
      obtain rfl : coll = aclsColl := revokes
      exact calm_put (by decide)
    | delete org coll key => exact fun same => revokes (by simp [same])
    | create | createOrg | deleteOrg => exact revokes.elim
    | _ => trivial
  · intro org kind actor name
    refine reads_calm.only_get.bind fun found => ?_
    split
    · exact only_pure _
    · exact only_put (calm_put (by decide))

abbrev RetainsUser (user : GoString) : StoreCall → Prop :=
  Retains exec (hasUser user) (invitedTo user) (invites user)

theorem Calm.retains (calm : Calm c) : RetainsUser user c :=
  ⟨.inr fun _ org left => invitedTo_of_exec calm.keepsOrgs (calm.writes org) left, calm.keepsUser⟩

theorem retains_invite {invitee inviter : GoString} :
    RetainsUser user (.put org assocReqColl (inviteID invitee org) (inviteDoc invitee org inviter)) := by
  refine ⟨?_, fun s there => ?_⟩
  · by_cases same : invitee = user
    · exact .inl (by simp [invites, same])
    · refine .inr fun s other left => ?_
      have row : ¬ (org = other ∧ assocReqColl = assocReqColl ∧ inviteID invitee org = inviteID user other) := by
        rintro ⟨rfl, -, ids⟩
        exact same (by simpa [inviteID] using ids)
      rwa [invitedTo, exec, get_put, if_neg row] at left
  · have apart : assocReqColl ≠ users := by decide
    rwa [hasUser, exec, get_put_of_ne apart]

theorem only_createInvite {allowed : StoreCall → Prop} (reads : Reads allowed)
    (stores : ∀ invitee inviter,
      allowed (.put org assocReqColl (inviteID invitee org) (inviteDoc invitee org inviter))) :
    (createInvite r org).Only allowed :=
  reads.only_resolveOrg.bind fun _ => only_decodeBody.bind fun _ => only_refuseIf.bind fun _ =>
    reads.only_mustExist.bind fun _ => reads.only_refuseMember.bind fun _ =>
      reads.only_refuseInvited.bind fun _ =>
    (only_put (stores _ _)).bind fun _ => only_pure _

theorem retains_createInvite : (createInvite r org).Only (RetainsUser user) := by
  refine only_createInvite ?_ fun _ _ => retains_invite
  constructor <;> intros <;> exact Calm.retains trivial

theorem drops_removeUserFromOrg :
    (removeUserFromOrg user org).Drops exec (hasUser user) (invitedTo user) org := by
  have asks : Calm (.hasOrg org) := trivial
  have leaves : Calm (.delete org assocColl user) := show assocColl ≠ users by decide
  have withdraws : Calm (.delete org assocReqColl (inviteID user org)) :=
    show assocReqColl ≠ users by decide
  refine drops_perform asks.keepsUser fun s there _ => ?_
  have present : s.hasOrg org := (Bool.and_eq_true_iff.mp there).1
  rw [show (exec (.hasOrg org) s).1 = true from present]
  refine drops_perform leaves.keepsUser fun _ _ _ =>
    drops_perform withdraws.keepsUser fun s _ left => ?_
  simp [invitedTo, exec, get_delete] at left

theorem drops_removeUserFromOrgs :
    (removeUserFromOrgs user).Drops exec (hasUser user) (invitedTo user) org := by
  have calm {α : Type} {h : Handler α} (only : h.Only Calm) : h.Only fun c =>
    ∀ s, hasUser user s → hasUser user (exec c s).2 :=
    only.mono fun _ calm => calm.keepsUser
  have sweep (orgs : List GoString) (listed : org ∈ orgs) :
      (orgs.forM (removeUserFromOrg user)).Drops exec (hasUser user) (invitedTo user) org := by
    induction orgs with
    | nil => cases listed
    | cons first orgs ih =>
      change ((removeUserFromOrg user first >>= fun _ => orgs.forM (removeUserFromOrg user)) : Handler Unit).Drops
        exec (hasUser user) (invitedTo user) org
      rcases List.mem_cons.mp listed with rfl | listed
      · exact drops_removeUserFromOrg.bind _
      · exact (calm calm_revoking.removeUserFromOrg).dropping fun _ => ih listed
  refine (calm (calm_revoking.calls revokes_removeFromACLs)).dropping fun _ => ?_
  have lists : Calm .listOrgs := trivial
  refine drops_perform lists.keepsUser fun s there _ => sweep _ ?_
  exact Proof.Store.mem_listOrgs (Bool.and_eq_true_iff.mp there).1

theorem drops_scopedDelete :
    (scopedDelete r global users user).Drops exec (hasUser user) (invitedTo user) org := by
  have check : (mustExist global users user (lit "Cannot find " ++ users ++ lit " " ++ user)).Only fun c =>
      ∀ s, hasUser user s → hasUser user (exec c s).2 := reads_calm.only_mustExist.mono fun _ calm => calm.keepsUser
  refine check.dropping fun _ => Drops.bind ?_ _
  rw [cleanupActor, if_pos rfl]
  exact drops_removeUserFromOrgs.bind _

theorem writes_scopedDelete :
    (scopedDelete r global users user).Only fun c => KeepsOrgs c ∧
      ∀ org, writesTo org assocReqColl c = false := by
  have calm {α : Type} {h : Handler α} (only : h.Only Calm) :
      h.Only fun c => KeepsOrgs c ∧ ∀ org, writesTo org assocReqColl c = false :=
    only.mono fun _ calm => ⟨calm.keepsOrgs, calm.writes⟩
  refine (calm reads_calm.only_mustExist).bind fun _ =>
    (calm calm_revoking.cleanupActor).bind fun _ => ?_
  refine (only_delete ⟨trivial, fun _ => rfl⟩).bind (only_option (only_stop _) fun _ => ?_)
  exact only_pure _

theorem minds_inviteeRequest (label : InviteeRequest) :
    Journal.Minds (hasUser user) (invitedTo user) (fun _ => invites user) InviteeRequest.deletes exec label
      (label.handler user) := by
  cases label with
  | invite r org => exact retains_createInvite
  | delete r =>
    have adds : (scopedDelete r global users user).Only fun c =>
        ∀ s org, invitedTo user (exec c s).2 org → invitedTo user s org :=
      writes_scopedDelete.mono fun _ writes _ org left =>
        invitedTo_of_exec writes.1 (writes.2 org) left
    exact adds

theorem filed_of_exec (other : ∀ org, writesTo org assocReqColl c = false) (s : Store)
    (filed : Filed user s) : Filed user (exec c s).2 :=
  fun org id raw stored named => filed org id raw (get_of_exec (other org) stored) named

theorem filed_inviteeRequest (label : InviteeRequest) :
    (label.handler user).Only fun c => ∀ s, Filed user s → Filed user (exec c s).2 := by
  cases label with
  | delete r => exact writes_scopedDelete.mono fun _ writes => filed_of_exec writes.2
  | invite r org =>
    have reads : Reads fun c => ∀ s, Filed user s → Filed user (exec c s).2 := by
      constructor <;> intros <;> exact filed_of_exec (fun _ => rfl) _ ‹_›
    have files (invitee inviter : GoString) (s : Store) (filed : Filed user s) :
        Filed user (exec (.put org assocReqColl (inviteID invitee org) (inviteDoc invitee org inviter)) s).2 := by
      intro other id raw stored named
      rw [exec, get_put] at stored
      split at stored
      · next row =>
        obtain ⟨rfl, -, rfl⟩ := row
        rw [← Option.some.inj stored, inviteString_username] at named
        rw [Option.some.inj named]
      · exact filed other id raw stored named
    exact only_createInvite reads files

/-- When invitations of the user are stored only while it is there and no deletion of it is under way, no
organization holds an invitation of the user once it is gone. -/
theorem invitations_go_with_invitee {j : InviteeJournal} (filed : Filed user s)
    (start : s.get global users user = none → ∀ org, ¬ HoldsInvitation s user org)
    (reached : Journal.Reaches exec (InviteeRequest.handler user) (InvitedAlone user) (.initial s) j) :
    j.state.get global users user = none → ∀ org, ¬ HoldsInvitation j.state user org := by
  have kept : Filed user j.state := reached.keeps filed_inviteeRequest filed
  have drops (label : InviteeRequest) (deletes : label.deletes) (org : GoString) :
      (label.handler user).Clears exec (hasUser user) (invitedTo user) org := by
    cases label with
    | invite => cases deletes
    | delete r => exact drops_scopedDelete.clears
  have before (org : GoString) (invited : invitedTo user s org) : hasUser user s := by
    cases found : s.get global users user with
    | some raw => rw [hasUser, found]; rfl
    | none => exact absurd ((holdsInvitation_iff filed).mpr invited) (start found org)
  intro gone org holds
  have there := reached.cleared minds_inviteeRequest drops before org ((holdsInvitation_iff kept).mp holds)
  rw [hasUser, gone] at there
  cases there

def aliceAlone : Store :=
  (Store.newMemoryBackend.createOrg acme).1.put global users alice (mustEncode (some ∅))

theorem no_invitation_of_aliceAlone (org id : GoString) :
    aliceAlone.get org assocReqColl id = none := by
  rw [aliceAlone, get_put_of_ne (by decide), Proof.Store.get_createOrg]
  rfl

def invitesAlice : InviteeRequest := .invite (creates [(lit "user", .string alice)]) acme

def deletesAlice : InviteeRequest := .delete (creates [])

abbrev besideAlice (rules : Allows InviteeRequest StoreCall.Result Response Response Store)
    [∀ label c s others, Decidable (rules label c s others)] (moves : List (Journal.Move InviteeRequest)) :
    Option InviteeJournal :=
  Journal.moves exec (InviteeRequest.handler alice) rules (.initial aliceAlone) moves

theorem invitation_went_with_invitee : ∃ j : InviteeJournal, besideAlice (InvitedAlone alice)
        (.start invitesAlice :: List.replicate 4 (.go 0) ++ .start deletesAlice :: List.replicate 11 (.go 0)) = some j ∧
      (∀ entry ∈ j.entries, entry.rest.returned) ∧ j.state.get global users alice = none ∧
      ∀ org, ¬ HoldsInvitation j.state alice org := by
  have closed : (besideAlice (InvitedAlone alice)
        (.start invitesAlice :: List.replicate 4 (.go 0) ++ .start deletesAlice :: List.replicate 11 (.go 0))).map (fun j =>
      decide ((∀ entry ∈ j.entries, entry.rest.returned) ∧ (j.state.get global users alice).isNone)) = some true := by
    decide +kernel
  obtain ⟨j, made, returned, gone⟩ := exists_of_decided closed
  have gone := Option.isNone_iff_eq_none.mp gone
  have none (org id : GoString) (raw : Raw) (stored : aliceAlone.get org assocReqColl id = some raw) : False := by
    rw [no_invitation_of_aliceAlone] at stored
    cases stored
  refine ⟨j, made, returned, gone,
    invitations_go_with_invitee ?_ ?_ (Journal.reaches_of_moves made) gone⟩
  · exact fun org id raw stored => (none org id raw stored).elim
  · exact fun _ org ⟨_, id, raw, stored, _⟩ => none org id raw stored

theorem invitation_outlives_invitee :
    ∃ j : InviteeJournal, Journal.Reaches exec (InviteeRequest.handler alice) Journal.anyOrder (.initial aliceAlone) j ∧
      (∀ entry ∈ j.entries, entry.rest.returned) ∧ (j.state.get global users alice).isNone ∧
      HoldsInvitation j.state alice acme := by
  have closed : (besideAlice Journal.anyOrder
        (.start invitesAlice :: List.replicate 3 (.go 0) ++ .start deletesAlice :: List.replicate 11 (.go 0) ++
          [.go 1])).map (fun j =>
      decide ((∀ entry ∈ j.entries, entry.rest.returned) ∧ (j.state.get global users alice).isNone ∧
        j.state.hasOrg acme ∧ (j.state.get acme assocReqColl (inviteID alice acme)).bind (inviteString (lit "username")) =
          some alice)) = some true := by decide +kernel
  obtain ⟨j, made, returned, gone, present, named⟩ := exists_of_decided closed
  obtain ⟨raw, stored, named⟩ := Option.bind_eq_some_iff.mp named
  exact ⟨j, Journal.reaches_of_moves made, returned, gone, present, _, raw, stored, named⟩

end CincServer.Proof.Api
