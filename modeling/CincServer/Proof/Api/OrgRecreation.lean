import CincServer.Api.Statements
import CincServer.Proof.Api.Sessions
import CincServer.Proof.Store.BackendEquivalence

/-!
# An organization that is made again
-/

namespace CincServer.Proof.Api
open CincServer.Api CincServer.Json Go Lib Program
open ApiRequest (handler)
open Proof.Store (blob_delete blob_putBlob blob_deleteBlob get_deleteOrg blob_deleteOrg hasOrg_createOrg)

variable {s t : Store} {org : GoString} {enforceACL : Bool} {o coll key checksum name : GoString} {r : Request}

structure Space where
  objects : GoString → GoString → Option Raw
  blobs : GoString → Option Raw

def Space.empty : Space := ⟨fun _ _ => none, fun _ => none⟩

def Space.setObject (a : Space) (coll key : GoString) (val : Option Raw) : Space :=
  { a with objects := fun coll' key' => if coll = coll' ∧ key = key' then val else a.objects coll' key' }

def Space.setBlob (a : Space) (checksum : GoString) (val : Option Raw) : Space :=
  { a with blobs := fun checksum' => if checksum = checksum' then val else a.blobs checksum' }

def space (org : GoString) (s : Store) : Space :=
  ⟨fun coll key => s.get org coll key, fun checksum => s.blob org checksum⟩

def onSpace (org : GoString) : StoreCall → Space → Space
  | .put o coll key val, a => if o = org then a.setObject coll key (some val) else a
  | .create o coll key val, a => if o = org ∧ (a.objects coll key).isNone then a.setObject coll key (some val) else a
  | .delete o coll key, a => if o = org then a.setObject coll key none else a
  | .putBlob o checksum data, a => if o = org then a.setBlob checksum (some data) else a
  | .deleteBlob o checksum, a => if o = org then a.setBlob checksum none else a
  | _, a => a

def drops (org : GoString) : StoreCall → Bool
  | .deleteOrg name => name = org
  | _ => false

def makes (org : GoString) : StoreCall → Bool
  | .createOrg name => name = org
  | _ => false

theorem space_put {val : Raw} :
    space org (s.put o coll key val) = if o = org then (space org s).setObject coll key (some val) else space org s := by
  unfold space Space.setObject
  split
  · next here => simp only [get_put, here, true_and]; rfl
  · next other => simp only [get_put, other, false_and, if_false]; rfl

theorem space_delete :
    space org (s.delete o coll key).1 = if o = org then (space org s).setObject coll key none else space org s := by
  unfold space Space.setObject
  split
  · next here => simp only [get_delete, here, true_and, blob_delete]
  · next other => simp only [get_delete, other, false_and, if_false, blob_delete]

theorem space_putBlob {data : Raw} :
    space org (s.putBlob o checksum data) = if o = org then (space org s).setBlob checksum (some data) else space org s := by
  unfold space Space.setBlob
  split
  · next here => simp only [blob_putBlob, here, true_and]; rfl
  · next other => simp only [blob_putBlob, other, false_and, if_false]; rfl

theorem space_deleteBlob :
    space org (s.deleteBlob o checksum) = if o = org then (space org s).setBlob checksum none else space org s := by
  unfold space Space.setBlob
  split
  · next here => simp only [blob_deleteBlob, here, true_and]; rfl
  · next other => simp only [blob_deleteBlob, other, false_and, if_false]; rfl

theorem space_exec {c : StoreCall} (ordinary : ¬ drops org c) (s : Store) :
    space org (exec c s).2 = onSpace org c (space org s) := by
  cases c with
  | put => exact space_put
  | delete => exact space_delete
  | putBlob => exact space_putBlob
  | deleteBlob => exact space_deleteBlob
  | create o coll key val =>
    cases taken : s.get o coll key with
    | none =>
      rw [exec, create_of_none taken, onSpace]
      refine space_put.trans ?_
      by_cases here : o = org
      · subst here
        simp [space, taken]
      · simp [here]
    | some raw =>
      rw [exec, create_of_isSome (Option.isSome_of_eq_some taken), onSpace, if_neg]
      rintro ⟨rfl, free⟩
      simp [space, taken] at free
  | createOrg name =>
    unfold space
    simp only [exec, Proof.Store.get_createOrg, Proof.Store.blob_createOrg]
    rfl
  | deleteOrg name =>
    have other : name ≠ org := by simpa [drops] using ordinary
    unfold space
    simp only [exec, get_deleteOrg, blob_deleteOrg, other, and_false, if_false]
    rfl
  | _ => rfl

def Abstains (org : GoString) : StoreCall → Prop
  | .put o _ _ _ => o ≠ org
  | .create o _ _ _ => o ≠ org
  | .delete o _ _ => o ≠ org
  | .putBlob o _ _ => o ≠ org
  | .deleteBlob o _ => o ≠ org
  | .createOrg _ => False
  | _ => True

theorem Abstains.onSpace {c : StoreCall} (abstains : Abstains org c) (a : Space) :
    onSpace org c a = a := by
  cases c with
  | put | delete | putBlob | deleteBlob => exact if_neg abstains
  | create => exact if_neg fun here => abstains here.1
  | _ => rfl

theorem hasOrg_exec {c : StoreCall} (made : ¬ makes org c) (dropped : ¬ drops org c) (s : Store) :
    (exec c s).2.hasOrg org = s.hasOrg org := by
  cases c with
  | createOrg name =>
    have other : name ≠ org := by simpa [makes] using made
    simp [exec, hasOrg_createOrg, other]
  | deleteOrg name =>
    have other : name ≠ org := by simpa [drops] using dropped
    simp [exec, Proof.Store.hasOrg_deleteOrg, other]
  | create o coll key val =>
    cases taken : s.get o coll key with
    | none =>
      rw [exec, create_of_none taken]
      rfl
    | some raw => rw [exec, create_of_isSome (Option.isSome_of_eq_some taken)]
  | delete o coll key =>
    have frame : Frame o ⟨[], [coll]⟩ s (s.delete o coll key).1 := frame_delete (by simp) s
    exact frame.hasOrg org
  | _ => rfl

def concerns (org : GoString) : ApiRequest → Bool
  | .actor (.clients o) _ => o = org
  | .actor .users (.delete ..) => true
  | .respond .. => true
  | .acl _ _ (.object o _ _) => o = org
  | .acl _ _ (.organization o) => o = org
  | .membership o _ => o = org
  | .object o _ => o = org
  | .policy o _ => o = org
  | .cookbook _ o _ => o = org
  | .organization (.delete name) => name = org
  | .organization (.create _ r) => newOrgName r = org
  | _ => false

def deletes (org : GoString) : ApiRequest → Bool
  | .organization (.delete name) => name = org
  | _ => false

/-- The requests that look for the organizations they write in themselves. -/
def roams : ApiRequest → Bool
  | .actor .users (.delete ..) => true
  | .respond .. => true
  | _ => false

inductive Opens {α : Type} (org : GoString) : Handler α → Prop
  | ended (h : Handler α) (finished : h.ended) : Opens org h
  | resolve (next : Bool → Handler α) (absent : (next false).ended) : Opens org (.call (.hasOrg org) next)
  | make (next : Bool → Handler α) (valid : orgNameRE org) : Opens org (.call (.createOrg org) next)

theorem opens_resolveOrg {α : Type} (f : Unit → Handler α) : Opens org (resolveOrg org >>= f) :=
  .resolve _ rfl

def MakesFirst (org : GoString) (h : Handler Response) : Prop :=
  h.ended ∨ orgNameRE org ∧ ∃ next, h = .call (.createOrg org) next

theorem makesFirst_createOrganization {env : Env} {r : Request} :
    MakesFirst (newOrgName r) (createOrganization env r) := by
  have refuse {condition : Prop} [Decidable condition] {status : Nat} {message name : GoString} {f : Unit → Handler Response}
      (rest : ¬ condition → MakesFirst name (f ())) : MakesFirst name (refuseIf condition status message >>= f) := by
    by_cases holds : condition
    · rw [refuseIf, if_pos holds]
      exact .inl rfl
    · rw [refuseIf, if_neg holds]
      exact rest holds
  unfold createOrganization decodeBody newOrgName
  cases unmarshalMap r.body with
  | none => exact .inl rfl
  | some obj => exact refuse fun _ => refuse fun valid => refuse fun _ => refuse fun _ => .inr ⟨by simpa using valid, _, rfl⟩

theorem within_deleteClient : (resolveOrg org >>= fun _ => scopedDelete r org clients name).Only
      (Within org ⟨[aclsColl, groupsColl], [aclsColl, groupMembersColl, keysColl clients name, clients]⟩) := by
  have cleanup : (cleanupActor org clients name).Only
      (Within org ⟨[aclsColl, groupsColl], [aclsColl, groupMembersColl, keysColl clients name, clients]⟩) :=
    (within_removeFromACLs (by simp)).bind fun _ =>
      (within_removeActorFromAllGroups (by simp) (by simp)).bind fun _ =>
      (within_deleteACL (by simp)).bind fun _ => within_reads.only_keys.bind fun _ =>
        within_deleteAll (by simp) _
  refine within_resolveOrg.bind fun _ => within_reads.only_mustExist.bind fun _ =>
    cleanup.bind fun _ =>
    (within_delete (by simp)).bind (only_option (only_stop _) fun _ => ?_)
  exact only_pure _

theorem Within.keepsOrg {f : Footprint} {c : StoreCall} (within : Within o f c) :
    ¬ drops org c := by
  cases c <;> simp_all [Within, drops]

theorem KeepsOrgs.keepsOrg {c : StoreCall} (keeps : KeepsOrgs c) : ¬ drops org c := by
  cases c <;> simp_all [KeepsOrgs, drops]

theorem keepsOrg_createOrganization {env : Env} :
    (createOrganization env r).Only fun c => ¬ drops org c := by
  have put {o coll key : GoString} {raw : Raw} : (Org.put o coll key raw).Only fun c =>
    ¬ drops org c :=
    only_perform Bool.false_ne_true
  have make {name : GoString} : (createOrg name).Only fun c => ¬ drops org c :=
    only_perform Bool.false_ne_true
  exact only_decodeBody.bind fun _ => only_refuseIf.bind fun _ => only_refuseIf.bind fun _ =>
    only_refuseIf.bind fun _ =>
    only_refuseIf.bind fun _ => (make.bind fun _ => only_refuseIf.bind fun _ =>
      (within_seedOrg.mono fun _ ok => ok.keepsOrg).bind fun _ => put.bind fun _ => put.bind fun _ => put).bind fun _ =>
    only_pure _

theorem abstains_reads : Reads (Abstains org) := by
  constructor <;> exact trivial

theorem Within.abstains {f : Footprint} {c : StoreCall} (within : Within o f c) (other : o ≠ org) :
    Abstains org c := by
  cases c <;> simp_all [Within, Abstains]

/-- As long as the organization is absent, nothing is written in it. -/
def Away {α : Type} (org : GoString) : Handler α → Prop
  | .ret _ => True
  | .stop _ => True
  | .call c next => Abstains org c ∧ ∀ s : Store, s.hasOrg org = false → Away org (next (exec c s).1)

theorem away_of_only {α : Type} {h : Handler α} (only : h.Only (Abstains org)) : Away org h := by
  induction h with
  | ret | stop => trivial
  | call c next ih => exact ⟨only.1, fun s _ => ih _ (only.2 _)⟩

theorem Away.bind {α β : Type} {h : Handler α} {f : α → Handler β} (first : Away org h)
    (rest : ∀ a, Away org (f a)) :
    Away org (h >>= f) := by
  induction h with
  | ret a => exact rest a
  | stop => trivial
  | call c next ih => exact ⟨first.1, fun s absent => ih _ (first.2 s absent)⟩

theorem away_findInvite {α : Type} {user id : GoString} {f : Option GoString → Handler α}
    (missing : Away org (f none))
    (found : ∀ o ≠ org, Away org (f (some o))) (orgs : List GoString) :
    Away org (findInvite user id orgs >>= f) := by
  induction orgs with
  | nil => exact missing
  | cons o orgs ih =>
    rw [findInvite, bind_bind]
    by_cases same : o = org
    · subst same
      refine ⟨trivial, fun s absent => ?_⟩
      show Away o ((if !s.hasOrg o then pure false else _ : Handler Bool) >>= _)
      rw [absent]
      exact ih
    · refine (away_of_only abstains_reads.only_holdsInvite).bind fun held => ?_
      cases held with
      | true => exact found o same
      | false => exact ih

theorem away_respondInvite {user id : GoString} : Away org (respondInvite r user id) := by
  refine (away_of_only only_requireInvitee).bind fun _ =>
    (away_of_only abstains_reads.only_listOrgs).bind fun orgs => ?_
  have missing : Away org (writeStringError 404 (lit "Cannot find association request: " ++ id) : Handler Response) := trivial
  refine away_findInvite missing (fun o other => ?_) orgs
  refine away_of_only (only_decodeAnswer.bind fun answer => only_guard abstains_reads.only_requireInviter ?_)
  exact within_consumeInvite.mono fun _ within => within.abstains other

theorem away_removeUserFromOrg (user o : GoString) : Away org (removeUserFromOrg user o) := by
  refine ⟨trivial, fun s absent => ?_⟩
  by_cases same : o = org
  · subst same
    show Away o (if s.hasOrg o then _ else _)
    rw [absent]
    trivial
  · have within : (do
        let _ ← Org.delete o assocColl user
        let _ ← Org.delete o assocReqColl (inviteID user o)
        removeActorFromAllGroups o .users user
        removeFromACLs o (lit "actors") user : Handler Unit).Only
          (Within o ⟨[groupsColl, aclsColl], [assocColl, assocReqColl, groupMembersColl]⟩) :=
      (within_delete (by simp)).bind fun _ => (within_delete (by simp)).bind fun _ =>
        (within_removeActorFromAllGroups (by simp) (by simp)).bind fun _ =>
          within_removeFromACLs (by simp)
    show Away org (if s.hasOrg o then _ else _)
    split
    · exact away_of_only (within.mono fun _ ok => ok.abstains same)
    · trivial

theorem away_deleteUser (named : org ≠ global) : Away org (scopedDelete r global users name) := by
  have apart {α : Type} {h : Handler α} {f : Footprint} (within : h.Only (Within global f)) : Away org h :=
    away_of_only (within.mono fun _ ok => ok.abstains named.symm)
  have orgs (orgs : List GoString) : Away org (orgs.forM (removeUserFromOrg name)) := by
    induction orgs with
    | nil => trivial
    | cons o orgs ih => exact (away_removeUserFromOrg name o).bind fun _ => ih
  have cleanup : Away org (removeUserFromOrgs name) :=
    (apart (f := ⟨[aclsColl], []⟩) (within_removeFromACLs (by simp))).bind fun _ =>
      ⟨trivial, fun s _ => orgs s.listOrgs⟩
  have own : (do deleteACL global users name; deleteActorKeys global users name : Handler Unit).Only
      (Within global ⟨[], [aclsColl, keysColl users name]⟩) :=
    (within_deleteACL (by simp)).bind fun _ => within_reads.only_keys.bind fun _ =>
      within_deleteAll (by simp) _
  refine (away_of_only abstains_reads.only_mustExist).bind fun _ =>
    (cleanup.bind fun _ => apart own).bind fun _ => ?_
  have last : (Org.delete global users name).Only (Within global ⟨[], [users]⟩) := within_delete (by simp)
  exact apart (last.bind (only_option (only_stop _) fun _ => only_pure _))

theorem opens_request [Unicode] {request : ApiRequest} (concerned : concerns org request)
    (other : ¬ deletes org request)
    (settled : ¬ roams request) :
    Opens org (request.handler enforceACL) ∧ (request.handler enforceACL).Only fun c =>
      ¬ drops org c := by
  have below {h : Handler Response} {f : Footprint} (opens : Opens org h) (within : h.Only (Within org f)) :
      Opens org h ∧ h.Only fun c => ¬ drops org c :=
    ⟨opens, within.mono fun _ ok => ok.keepsOrg⟩
  cases request with
  | actor route request =>
    cases route with
    | users =>
      cases request with
      | delete => exact absurd rfl settled
      | _ => cases concerned
    | clients o =>
      obtain rfl : o = org := of_decide_eq_true concerned
      cases request with
      | create env r => exact below (opens_resolveOrg _) (within_resolveOrg.bind fun _ => within_createActor)
      | put env r name =>
        have within : (putActor env r (.clients o) name).Only _ := within_putActor
        exact below (opens_resolveOrg _) within
      | delete r name => exact below (opens_resolveOrg _) within_deleteClient
      | key name request =>
        refine below ?_ (@within_key name (.clients o) request)
        cases request <;> exact opens_resolveOrg _
  | acl r perm request =>
    cases request with
    | object o type name =>
      obtain rfl : o = org := of_decide_eq_true concerned
      exact below (opens_resolveOrg _) (within_acl (.object o type name))
    | organization o =>
      obtain rfl : o = org := of_decide_eq_true concerned
      exact below (opens_resolveOrg _) (within_acl (.organization o))
    | user name => cases concerned
  | membership o request =>
    obtain rfl : o = org := of_decide_eq_true concerned
    refine below ?_ (within_membership request)
    cases request <;> exact opens_resolveOrg _
  | respond => exact absurd rfl settled
  | object o request =>
    obtain rfl : o = org := of_decide_eq_true concerned
    refine below ?_ (within_object request)
    cases request with
    | put r type name =>
      simp only [handler, ObjectWrite.handler, putObjectRoute]
      split
      · exact .ended _ rfl
      · exact opens_resolveOrg _
    | delete type name =>
      simp only [handler, ObjectWrite.handler, deleteObjectRoute]
      split
      · exact .ended _ rfl
      · exact opens_resolveOrg _
    | _ =>
      exact opens_resolveOrg _
  | policy o request =>
    obtain rfl : o = org := of_decide_eq_true concerned
    refine below ?_ (within_policy request)
    cases request <;> exact opens_resolveOrg _
  | cookbook files o request =>
    obtain rfl : o = org := of_decide_eq_true concerned
    refine below ?_ (within_cookbook request)
    cases request <;> exact opens_resolveOrg _
  | organization request =>
    cases request with
    | put => cases concerned
    | delete name => exact absurd concerned other
    | create env r =>
      obtain rfl : newOrgName r = org := of_decide_eq_true concerned
      refine ⟨?_, keepsOrg_createOrganization⟩
      show Opens (newOrgName r) (createOrganization env r)
      obtain finished | ⟨valid, next, is⟩ := @makesFirst_createOrganization env r
      · exact .ended _ finished
      · rw [is]
        exact .make next valid

theorem away_request [Unicode] {request : ApiRequest} (named : org ≠ global)
    (user : roams request) :
    Away org (request.handler enforceACL) ∧ (request.handler enforceACL).Only fun c =>
      ¬ drops org c := by
  have keeps {h : Handler Response} (tame : Tame h) : h.Only fun c => ¬ drops org c :=
    tame.mono fun _ ok => ok.2.keepsOrg
  cases request with
  | actor route request =>
    cases route with
    | users =>
      cases request with
      | delete r name => exact ⟨away_deleteUser named, keeps tame_scopedDelete⟩
      | _ => cases user
    | clients => cases request <;> cases user
  | respond r user id => exact ⟨away_respondInvite, keeps tame_respondInvite⟩
  | _ => cases user

theorem abstains_deleteOrganization (named : org ≠ global) :
    (deleteOrganization name).Only (Abstains org) := by
  have delete : (Org.delete global orgsColl name).Only (Abstains org) := only_perform named.symm
  have drop : (deleteOrg name).Only (Abstains org) := only_perform trivial
  refine delete.bind (only_option (only_stop _) fun _ => ?_)
  exact drop.bind fun _ => only_pure _

abbrev OrgJournal := Journal ApiRequest StoreCall.Result Response Response Store

abbrev OrgRules := Allows ApiRequest StoreCall.Result Response Response Store

def Proceeds (org : GoString) : OrgRules := fun label c s _ =>
  concerns org label ∧ (makes org c → s.hasOrg org = false)

/-- Moreover the organization is dropped only once every other request has ended, deletions apart, and
made only once those that look for organizations themselves have. -/
def Drains (org : GoString) : OrgRules := fun label c s others =>
  Proceeds org label c s others ∧ (drops org c → ∀ other ∈ others, other.rest.ended ∨ deletes org other.label) ∧
    (makes org c → ∀ other ∈ others, roams other.label → other.rest.ended)

/-- What is left of the request writes nothing in the organization while it is absent, and nothing later
either unless it looks for organizations itself. -/
structure StaysAway (org : GoString) (label : ApiRequest) (h : Handler Response) : Prop where
  away : Away org h
  abstains : ¬ roams label → h.Only (Abstains org)

theorem staysAway_of_only {label : ApiRequest} {h : Handler Response}
    (only : h.Only (Abstains org)) : StaysAway org label h :=
  ⟨away_of_only only, fun _ => only⟩

structure Vacated (org : GoString) (j : OrgJournal) : Prop where
  deletions : ∀ entry ∈ j.entries, deletes org entry.label → entry.rest.Only (Abstains org)
  others : ∀ entry ∈ j.entries, ¬ deletes org entry.label → entry.rest.Only fun c => ¬ drops org c
  absent : j.state.hasOrg org = false → space org j.state = .empty ∧ ∀ entry ∈ j.entries, StaysAway org entry.label entry.rest

theorem space_deleteOrg (present : s.hasOrg org) : space org (s.deleteOrg org).1 = .empty := by
  simp only [space, get_deleteOrg, blob_deleteOrg, present, and_self, if_true, Space.empty]

section Call

variable {c : StoreCall} {label : ApiRequest} {next : c.Result → Handler Response}
  {others : List (Entry ApiRequest StoreCall.Result Response Response)}

theorem absent_after (ok : Drains org label c s others)
    (deletion : deletes org label → (next (exec c s).1).Only (Abstains org))
    (keeps : ¬ deletes org label → ¬ drops org c)
    (before : s.hasOrg org = false → ¬ makes org c → space org s = .empty ∧ Abstains org c ∧
      StaysAway org label (next (exec c s).1) ∧ ∀ entry ∈ others, StaysAway org entry.label entry.rest)
    (deletions : ∀ entry ∈ others, deletes org entry.label → entry.rest.Only (Abstains org))
    (absent : (exec c s).2.hasOrg org = false) :
    space org (exec c s).2 = .empty ∧ StaysAway org label (next (exec c s).1) ∧
      ∀ entry ∈ others, StaysAway org entry.label entry.rest := by
  by_cases dropped : drops org c
  · have deleting : deletes org label := by
      by_contra other
      exact keeps other dropped
    have quiet (entry) (mem : entry ∈ others) : StaysAway org entry.label entry.rest :=
      staysAway_of_only ((ok.2.1 dropped entry mem).elim only_of_ended (deletions entry mem))
    cases c with
    | deleteOrg name =>
      obtain rfl : name = org := of_decide_eq_true dropped
      refine ⟨?_, staysAway_of_only (deletion deleting), quiet⟩
      cases present : s.hasOrg name with
      | true => exact space_deleteOrg present
      | false =>
        have same : (s.deleteOrg name).1 = s := by simp [Store.MemoryBackend.deleteOrg, present]
        exact (congrArg (space name) same).trans (before present Bool.false_ne_true).1
    | _ => cases dropped
  · have unmade : ¬ makes org c := by
      intro made
      cases c with
      | createOrg name =>
        obtain rfl : name = org := of_decide_eq_true made
        simp [exec, hasOrg_createOrg] at absent
      | _ => cases made
    rw [hasOrg_exec unmade dropped] at absent
    obtain ⟨empty, abstains, rest, quiet⟩ := before absent unmade
    refine ⟨?_, rest, quiet⟩
    rw [space_exec dropped, abstains.onSpace, empty]

end Call

variable {j : OrgJournal}

theorem Vacated.move [Unicode] {j' : OrgJournal} (named : org ≠ global) (vacated : Vacated org j)
    (moved : Journal.Step exec (handler enforceACL) (Drains org) j j') : Vacated org j' := by
  obtain ⟨deletions, keeping, absent⟩ := vacated
  rcases moved with ⟨label, starts⟩ | goes
  · cases starts with
    | @first s entries calls n c next is ok =>
      have deletion (deleting : deletes org label) : (Program.call c next).Only (Abstains org) := by
        cases label with
        | organization request =>
          cases request with
          | delete name => exact is ▸ abstains_deleteOrganization named
          | create | put => cases deleting
        | _ => cases deleting
      have keeps (other : ¬ deletes org label) : (Program.call c next).Only fun c => ¬ drops org c :=
        is ▸ if user : roams label then (away_request named user).2 else (opens_request ok.1.1 other user).2
      refine ⟨?_, ?_, fun gone => ?_⟩
      · exact List.forall_mem_cons.mpr ⟨fun deleting => (deletion deleting).2 _, deletions⟩
      · exact List.forall_mem_cons.mpr ⟨fun other => (keeps other).2 _, keeping⟩
      · rw [List.forall_mem_cons]
        refine absent_after ok (fun deleting => (deletion deleting).2 _) (fun other => (keeps other).1)
          (fun missing unmade => ?_) deletions gone
        obtain ⟨empty, quiet⟩ := absent missing
        suffices first : Abstains org c ∧ StaysAway org label (next (exec c s).1) from ⟨empty, first.1, first.2, quiet⟩
        by_cases deleting : deletes org label
        · exact ⟨(deletion deleting).1, staysAway_of_only ((deletion deleting).2 _)⟩
        by_cases user : roams label
        · have away : Away org (Program.call c next) := is ▸ (away_request named user).1
          exact ⟨away.1, away.2 s missing, fun other => absurd user other⟩
        have opens : Opens org (Program.call c next) := is ▸ (opens_request ok.1.1 deleting user).1
        cases opens with
        | ended _ finished => cases finished
        | resolve _ ended =>
          refine ⟨trivial, ?_⟩
          have result : (exec (.hasOrg org) s).1 = false := missing
          rw [result]
          exact staysAway_of_only (only_of_ended ended)
        | make => exact absurd (decide_eq_true rfl) unmade
  · cases goes with
    | @call s before after calls n number label c next ok =>
      obtain ⟨deletion, deletions⟩ := forall_mem_middle.mp deletions
      obtain ⟨keeps, keeping⟩ := forall_mem_middle.mp keeping
      refine ⟨?_, ?_, fun gone => ?_⟩
      · exact forall_mem_middle.mpr ⟨fun deleting => (deletion deleting).2 _, deletions⟩
      · exact forall_mem_middle.mpr ⟨fun other => (keeps other).2 _, keeping⟩
      · rw [forall_mem_middle]
        refine absent_after ok (fun deleting => (deletion deleting).2 _) (fun other => (keeps other).1)
          (fun missing _ => ?_) deletions gone
        obtain ⟨empty, quiet⟩ := absent missing
        obtain ⟨own, quiet⟩ := forall_mem_middle.mp quiet
        exact ⟨empty, own.away.1, ⟨own.away.2 s missing, fun other => (own.abstains other).2 _⟩, quiet⟩

theorem vacated_of_reaches [Unicode] (named : org ≠ global) (present : s.hasOrg org)
    (reached : Journal.Reaches exec (handler enforceACL) (Drains org) (.initial s) j) :
    Vacated org j := by
  induction reached with
  | refl =>
    refine ⟨by simp [Journal.initial], by simp [Journal.initial], fun absent => ?_⟩
    have absent : s.hasOrg org = false := absent
    rw [present] at absent
    cases absent
  | tail _ moved ih => exact ih.move named moved

/-- The space of a new organization is what its creation and the requests started since have made of
it, as long as an organization is dropped only once the requests below it have ended, and made only once
those that look for organizations themselves have. -/
theorem recreated_organization_clean [Unicode] {creation : ApiRequest} {j j₁ j₂ : OrgJournal}
    (present : s.hasOrg org)
    (reached : Journal.Reaches exec (handler enforceACL) (Drains org) (.initial s) j)
    (creates : ∃ env r, creation = .organization (.create env r))
    (starts : Journal.Starts exec (handler enforceACL) (Drains org) creation j j₁)
    (later : Journal.Reaches exec (handler enforceACL) (Drains org) j₁ j₂)
    (kept : ∀ call ∈ j₂.calls.drop j.calls.length, ¬ drops org call.2) :
    space org j₂.state = space org (replay exec (j₂.since j.calls.length j.started) Store.newMemoryBackend) := by
  obtain ⟨env, r, rfl⟩ := creates
  suffices owned : Journal.Owned exec (space org) (fun c => ¬ drops org c) j.calls.length j.started Store.newMemoryBackend j₁ by
    refine (owned.reaches (fun c ordinary s t same => ?_) later).view kept
    rw [space_exec ordinary, space_exec ordinary, same]
  cases starts with
  | @first s₁ entries calls n c next is ok =>
    obtain rfl : newOrgName r = org := of_decide_eq_true ok.1.1
    obtain finished | ⟨valid, rest, makesIt⟩ := @makesFirst_createOrganization env r
    · have begun : createOrganization env r = .call c next := is
      rw [begun] at finished
      cases finished
    · obtain ⟨rfl, -⟩ := Program.call.inj (makesIt.symm.trans is)
      obtain ⟨empty, quiet⟩ := (vacated_of_reaches (orgName_ne_global valid) present reached).absent
        (ok.1.2 (decide_eq_true rfl))
      refine ⟨⟨by simp, by simp⟩, ?_, fun _ => ?_⟩
      · rw [List.forall_mem_cons]
        refine ⟨fun before => absurd before (Nat.lt_irrefl n), fun entry mem _ => ?_⟩
        have abstains : entry.rest.Only (Abstains (newOrgName r)) := by
          by_cases user : roams entry.label
          · exact only_of_ended (ok.2.2 (decide_eq_true rfl) entry mem user)
          · exact (quiet entry mem).abstains user
        refine abstains.mono fun c abstains ordinary s => ?_
        rw [space_exec ordinary, abstains.onSpace]
      · have made (s : Store) : space (newOrgName r) (exec (.createOrg (newOrgName r)) s).2 = space (newOrgName r) s :=
          space_exec (by simp [drops]) s
        simp only [Journal.since, List.drop_left, List.filter_cons_of_pos, decide_true, le_refl,
          replay, List.filter_nil, List.map_cons, List.map_nil, List.foldl_cons, List.foldl_nil, made]
        exact empty

instance (org : GoString) (label : ApiRequest) (c : StoreCall) (s : Store)
    (others : List (Entry ApiRequest StoreCall.Result Response Response)) :
    Decidable (Proceeds org label c s others) :=
  inferInstanceAs (Decidable (_ ∧ _))

instance (org : GoString) (label : ApiRequest) (c : StoreCall) (s : Store)
    (others : List (Entry ApiRequest StoreCall.Result Response Response)) :
    Decidable (Drains org label c s others) :=
  inferInstanceAs (Decidable (_ ∧ _))

def web : GoString := lit "web"

def makesAcme : ApiRequest :=
  .organization (.create keyedEnv (creates [(lit "name", .string acme), (lit "full_name", .string acme)]))

def makesNode : ApiRequest := .object acme (.create (creates [(lit "name", .string web)]) .nodes)

def acmeOnly [Unicode] : Store := serveAll true [makesAcme] Store.newMemoryBackend

section Remade

variable [Unicode] (rules : OrgRules) [∀ label c s others, Decidable (rules label c s others)]

def remade (first : List (Journal.Move ApiRequest)) :
    Option (OrgJournal × OrgJournal × OrgJournal) := do
  let j ← Journal.moves exec (handler true) rules (.initial acmeOnly) first
  let j₁ ← Journal.move exec (handler true) rules j (.start makesAcme)
  let j₂ ← Journal.moves exec (handler true) rules j₁ (List.replicate 39 (.go 0))
  return (j, j₁, j₂)

variable {rules}

theorem remade_reaches {first : List (Journal.Move ApiRequest)} {j₁ j₂ : OrgJournal}
    (made : remade rules first = some (j, j₁, j₂)) :
    Journal.Reaches exec (handler true) rules (.initial acmeOnly) j ∧
      Journal.Starts exec (handler true) rules makesAcme j j₁ ∧
      Journal.Reaches exec (handler true) rules j₁ j₂ := by
  simp only [remade, Option.bind_eq_bind, Option.bind_eq_some_iff, Option.pure_def,
    Option.some.injEq, Prod.mk.injEq] at made
  obtain ⟨_, before, _, starts, _, after, rfl, rfl, rfl⟩ := made
  exact ⟨Journal.reaches_of_moves before, Journal.starts_of_move starts,
    Journal.reaches_of_moves after⟩

end Remade

theorem early_write_dropped :
    letI : Unicode := ⟨id⟩
    ∃ j j₁ j₂ : OrgJournal,
      remade (Drains acme) [.start makesNode, .go 0, .start (.organization (.delete acme)), .go 0] = some (j, j₁, j₂) ∧
      (∀ call ∈ j₂.calls.drop j.calls.length, ¬ drops acme call.2) ∧
      space acme j₂.state = space acme (replay exec (j₂.since j.calls.length j.started) Store.newMemoryBackend) := by
  let _ : Unicode := ⟨id⟩
  have closed : (remade (Drains acme) [.start makesNode, .go 0, .start (.organization (.delete acme)), .go 0]).map (fun run =>
      decide (∀ call ∈ run.2.2.calls.drop run.1.calls.length, ¬ drops acme call.2)) = some true := by decide +kernel
  obtain ⟨⟨j, j₁, j₂⟩, made, checked⟩ := Option.map_eq_some_iff.mp closed
  obtain ⟨before, starts, after⟩ := remade_reaches made
  have present : acmeOnly.hasOrg acme := by decide +kernel
  have kept := of_decide_eq_true checked
  exact ⟨j, j₁, j₂, made, kept,
    recreated_organization_clean present before ⟨_, _, rfl⟩ starts after kept⟩

theorem late_write_survives :
    letI : Unicode := ⟨id⟩
    ∃ j j₁ j₂ : OrgJournal, acmeOnly.hasOrg acme ∧
      Journal.Reaches exec (handler true) (Proceeds acme) (.initial acmeOnly) j ∧
      Journal.Starts exec (handler true) (Proceeds acme) makesAcme j j₁ ∧
      Journal.Reaches exec (handler true) (Proceeds acme) j₁ j₂ ∧
      (∀ call ∈ j₂.calls.drop j.calls.length, ¬ drops acme call.2) ∧
      (j₂.state.get acme (lit "nodes") web).isSome ∧
      ((replay exec (j₂.since j.calls.length j.started) Store.newMemoryBackend).get acme (lit "nodes") web).isNone := by
  let _ : Unicode := ⟨id⟩
  have closed : (remade (Proceeds acme) [.start makesNode, .start (.organization (.delete acme)), .go 0, .go 1]).map
      (fun run => decide ((∀ call ∈ run.2.2.calls.drop run.1.calls.length, ¬ drops acme call.2) ∧
        (run.2.2.state.get acme (lit "nodes") web).isSome ∧
        ((replay exec (run.2.2.since run.1.calls.length run.1.started) Store.newMemoryBackend).get acme
          (lit "nodes") web).isNone)) = some true := by decide +kernel
  obtain ⟨⟨j, j₁, j₂⟩, made, checked⟩ := Option.map_eq_some_iff.mp closed
  obtain ⟨before, starts, after⟩ := remade_reaches made
  exact ⟨j, j₁, j₂, by decide +kernel, before, starts, after, of_decide_eq_true checked⟩

/-! ## The deletion of an organization that fails -/

open CincServer.Store
open SqlStep (deleteRow deleteObjects attempt)

variable {α : Type} {db t : Tables} {name org coll key checksum : GoString} {groupCommit : Bool} {faults : List Fault}

def tableSpace (org : GoString) (db : Tables) : Space :=
  ⟨fun coll key => db.get org coll key, fun checksum => db.blob org checksum⟩

def HasMeta (db : Tables) (name : GoString) : Prop := (db.get global orgsColl name).isSome

structure Untraced (db : Tables) (name : GoString) : Prop where
  unlisted : ¬ HasMeta db name
  unregistered : db.hasOrg name = false
  empty : tableSpace name db = Space.empty

def withoutMeta (db : Tables) (name : GoString) : Tables :=
  ((deleteRow ⟨global, orgsColl, name⟩).exec db).2

/-- Nothing is stored in the organization, its own metadata apart. -/
def HoldsNothing (db : Tables) (name : GoString) : Prop :=
  tableSpace name (withoutMeta db name) = Space.empty

/-- How far a deletion came, by the deletions that have taken effect. -/
inductive Stage
  | listed
  | unlisted
  | unregistered
  | emptied
  | finished

/-- The stage after a number of steps: without group commit they are the SELECT and the DELETE of the
metadata and the three statements of `DeleteOrg`, with it the two writes. -/
def stage : (groupCommit : Bool) → (steps : Nat) → Stage
  | false, 0 | false, 1 | true, 0 => .listed
  | false, 2 | true, 1 => .unlisted
  | false, 3 => .unregistered
  | false, 4 => .emptied
  | false, _ + 5 | true, _ + 2 => .finished

def Stage.state (db : Tables) (name : GoString) (stage : Stage) : Tables :=
  let unlisted := withoutMeta db name
  let unregistered := ((SqlStep.deleteOrgRow name).exec unlisted).2
  let emptied := ((deleteObjects name).exec unregistered).2
  match stage with
  | .listed => db
  | .unlisted => unlisted
  | .unregistered => unregistered
  | .emptied => emptied
  | .finished => ((SqlStep.deleteBlobs name).exec emptied).2

/-- What a registered organization must be like for a deletion that came so far to be completed. -/
def Stage.Recovers (db : Tables) (name : GoString) : Stage → Prop
  | .listed | .finished => True
  | .unlisted => False
  | .unregistered => HoldsNothing db name
  | .emptied => ∀ checksum, db.blob name checksum = none

/-- When a deletion of which so many steps have taken effect can be completed. -/
def Recoverable (groupCommit : Bool) (steps : Nat) (db : Tables) (name : GoString) : Prop :=
  if db.hasOrg name then HasMeta db name ∧ (stage groupCommit steps).Recovers db name else HoldsNothing db name

theorem get_deleteRow {row : ObjectKey} : ((deleteRow row).exec db).2.get org coll key =
    if (⟨org, coll, key⟩ : ObjectKey) = row then none else db.get org coll key := by
  simp only [SqlStep.exec, Database.get, Table.lookup_deleteWhere, decide_eq_true_eq]

theorem get_deleteObjects : ((deleteObjects name).exec db).2.get org coll key =
    if org = name then none else db.get org coll key := by
  simp only [SqlStep.exec, Database.get, Table.lookup_deleteWhere, decide_eq_true_eq]

theorem run_sql (c : SqlStep) (db : Tables) :
    (sql c).run attempt ([], db) = (.ok (c.exec db).1, [], (c.exec db).2) := rfl

theorem run_sql_bind (c : SqlStep) (f : c.Result → Lowered α) (db : Tables) :
    (sql c >>= f).run attempt ([], db) = (f (c.exec db).1).run attempt ([], (c.exec db).2) := rfl

theorem run_delete (row : ObjectKey) (db : Tables) : (Api.Backend.delete row).run attempt ([], db) =
    (.ok (execTables (.delete row.org row.coll row.key) db).1, [], (execTables (.delete row.org row.coll row.key) db).2) := by
  refine (run_sql_bind (.call (.get row.org row.coll row.key)) _ db).trans ?_
  simp only [SqlStep.exec, execTables, Database.deleteJob]
  cases found : db.get row.org row.coll row.key with
  | none => rfl
  | some old => exact (run_sql_bind (.deleteRow row) _ db).trans rfl

theorem run_deleteOrg (name : GoString) (db : Tables) :
    (Backend.deleteOrg name).run attempt ([], db) =
    (.ok (execTables (.deleteOrg name) db).1, [], (execTables (.deleteOrg name) db).2) := by
  show (if (db.orgs.deleteWhere fun row => row = name).2 = 0 then (pure false : Lowered Bool) else _).run _
    ([], { db with orgs := (db.orgs.deleteWhere fun row => row = name).1 }) = _
  simp only [execTables, Database.deleteOrgJob]
  split
  · rfl
  · rfl

theorem run_carryOut (c : StoreCall) (db : Tables) :
    (carryOut groupCommit c).run attempt ([], db) = (.ok (execTables c db).1, [], (execTables c db).2) := by
  cases c with
  | delete org coll key =>
    cases groupCommit with
    | true => exact run_sql (.call (.delete org coll key)) db
    | false => exact run_delete ⟨org, coll, key⟩ db
  | deleteOrg name =>
    cases groupCommit with
    | true => exact run_sql (.call (.deleteOrg name)) db
    | false => exact run_deleteOrg name db
  | _ => exact run_sql _ db

theorem run_onSqlite (h : Handler α) (db : Tables) : (onSqlite groupCommit h).run attempt ([], db) =
    ((h.run execTables db).1, [], (h.run execTables db).2) :=
  @run_lower _ _ _ _ _ _ _ _ _ execTables attempt (fun db => ([], db)) run_carryOut h db

/-! Every failure of a statement ends the request, so that what a failing request leaves is what some
number of its statements leave. -/

def Stops : Lowered α → Prop
  | .ret _ => True
  | .stop _ => True
  | .call _ next => (∀ e, ∃ response, next (.error e) = .stop response) ∧ ∀ a, Stops (next (.ok a))

theorem Stops.bind {β : Type} {p : Lowered α} {f : α → Lowered β} (first : Stops p)
    (rest : ∀ a, Stops (f a)) :
    Stops (p >>= f) := by
  induction p with
  | ret a => exact rest a
  | stop => trivial
  | call c next ih =>
    refine ⟨fun e => ?_, fun a => ih _ (first.2 a)⟩
    obtain ⟨response, ends⟩ := first.1 e
    exact ⟨response, by show next (.error e) >>= f = _; rw [ends]; rfl⟩

theorem stops_sql (c : SqlStep) : Stops (sql c) :=
  ⟨fun _ => ⟨.internalError, rfl⟩, fun _ => trivial⟩

theorem stops_delete (row : ObjectKey) : Stops (Api.Backend.delete row) := by
  refine (stops_sql _).bind fun found => ?_
  cases found with
  | none => trivial
  | some old => exact (stops_sql _).bind fun _ => trivial

theorem stops_deleteOrg (name : GoString) : Stops (Backend.deleteOrg name) := by
  refine (stops_sql _).bind fun (n : Nat) => ?_
  show Stops (if n = 0 then (pure false : Lowered Bool) else _)
  split
  · trivial
  · exact (stops_sql _).bind fun _ => (stops_sql _).bind fun _ => trivial

theorem stops_carryOut (c : StoreCall) : Stops (carryOut groupCommit c) := by
  cases c with
  | delete org coll key =>
    cases groupCommit with
    | true => exact stops_sql _
    | false => exact stops_delete _
  | deleteOrg name =>
    cases groupCommit with
    | true => exact stops_sql _
    | false => exact stops_deleteOrg name
  | _ => exact stops_sql _

theorem stops_onSqlite (h : Handler α) : Stops (onSqlite groupCommit h) := by
  induction h with
  | ret | stop => trivial
  | call c next ih => exact (stops_carryOut c).bind ih

theorem Stops.cut {p : Lowered α} (stops : Stops p) {left : FaultyTables}
    (cut : p.Cut attempt (faults, db) left) :
    ∃ steps, left.2 = (after attempt steps p ([], db)).2 := by
  induction p generalizing faults db with
  | ret | stop => exact ⟨0, by rw [show left = (faults, db) from cut]; rfl⟩
  | call c next ih =>
    rcases cut with rfl | later
    · exact ⟨0, rfl⟩
    have goesOn {faults : List Fault} (cut : (next (.ok (c.exec db).1)).Cut attempt (faults, (c.exec db).2) left) :
        ∃ steps, left.2 = (after attempt steps (call c next) ([], db)).2 :=
      let ⟨steps, same⟩ := ih _ (stops.2 _) cut
      ⟨steps + 1, same⟩
    obtain ⟨response, ends⟩ := stops.1 .unavailable
    cases faults with
    | nil => exact goesOn later
    | cons fault faults =>
      cases fault with
      | none => exact goesOn later
      | refused =>
        change (next (.error .unavailable)).Cut attempt (faults, db) left at later
        rw [ends] at later
        exact ⟨0, by rw [show left = (faults, db) from later]; rfl⟩
      | unreported =>
        change (next (.error .unavailable)).Cut attempt (faults, (c.exec db).2) left at later
        rw [ends] at later
        refine ⟨1, ?_⟩
        rw [show left = (faults, (c.exec db).2) from later, after]
        cases next (attempt c ([], db)).1 <;> rfl

/-- Whatever fails, and wherever the process is killed, some number of the request's steps has taken
effect. -/
theorem cut_eq_after {left : FaultyTables}
    (cut : (onSqlite groupCommit (deleteOrganization name)).Cut attempt (faults, db) left) :
    ∃ steps, left.2 = (after attempt steps (onSqlite groupCommit (deleteOrganization name)) ([], db)).2 :=
  (stops_onSqlite _).cut cut

theorem hasOrg_withoutMeta : (withoutMeta db name).hasOrg name = db.hasOrg name := rfl

theorem not_hasMeta_withoutMeta : ¬ HasMeta (withoutMeta db name) name := by
  simp [HasMeta, withoutMeta, get_deleteRow]

theorem holdsNothing_iff : HoldsNothing db name ↔
    (∀ coll key, (⟨name, coll, key⟩ : ObjectKey) ≠ ⟨global, orgsColl, name⟩ → db.get name coll key = none) ∧
      ∀ checksum, db.blob name checksum = none := by
  simp only [HoldsNothing, tableSpace, withoutMeta, get_deleteRow, Space.empty, Space.mk.injEq,
    funext_iff, ite_eq_left_iff]
  rfl

theorem holdsNothing_withoutMeta :
    HoldsNothing (withoutMeta db name) name ↔ HoldsNothing db name := by
  simp only [holdsNothing_iff, withoutMeta, get_deleteRow]
  refine and_congr_left fun _ => forall_congr' fun coll => forall_congr' fun key =>
    forall_congr' fun other => ?_
  rw [if_neg other]

theorem holdsNothing_of_not_hasMeta (unlisted : ¬ HasMeta db name) :
    HoldsNothing db name ↔ tableSpace name db = Space.empty := by
  have none : db.get global orgsColl name = none := by simpa [HasMeta] using unlisted
  rw [holdsNothing_iff]
  simp only [tableSpace, Space.empty, Space.mk.injEq, funext_iff]
  refine and_congr_left fun _ => forall_congr' fun coll => forall_congr' fun key =>
    ⟨fun other => ?_, fun free _ => free⟩
  by_cases own : (⟨name, coll, key⟩ : ObjectKey) = ⟨global, orgsColl, name⟩
  · obtain ⟨rfl, rfl, rfl⟩ := ObjectKey.mk.inj own
    exact none
  · exact other own

theorem hasOrg_deleteOrgRow : ((SqlStep.deleteOrgRow name).exec db).2.hasOrg name = false := by
  simp [SqlStep.exec, Database.hasOrg, Table.lookup_deleteWhere]

theorem deleted_count :
    (db.orgs.deleteWhere fun row => row = name).2 = 0 ↔ db.hasOrg name = false := by
  simp [Table.deleteWhere_none, Database.hasOrg]

/-- What a deletion that meets no failure leaves. -/
theorem deleteOrg_state : (execTables (.deleteOrg name) db).2 =
    if db.hasOrg name then
      ((SqlStep.deleteBlobs name).exec ((deleteObjects name).exec ((SqlStep.deleteOrgRow name).exec db).2).2).2
    else ((SqlStep.deleteOrgRow name).exec db).2 := by
  simp only [execTables, Database.deleteOrgJob, deleted_count]
  cases db.hasOrg name <;> rfl

theorem untraced_finished (unlisted : ¬ HasMeta db name) : Untraced ((SqlStep.deleteBlobs name).exec
    ((deleteObjects name).exec ((SqlStep.deleteOrgRow name).exec db).2).2).2 name := by
  refine ⟨?_, ?_, ?_⟩
  · simp only [HasMeta, SqlStep.exec, Database.get, Table.lookup_deleteWhere, decide_eq_true_eq]
    split
    · simp
    · exact unlisted
  · simp [SqlStep.exec, Database.hasOrg, Table.lookup_deleteWhere]
  · simp [SqlStep.exec, tableSpace, Database.get, Database.blob, Table.lookup_deleteWhere,
      Space.empty]

theorem untraced_deletes_iff : Untraced ((deleteOrganization name).run execTables db).2 name ↔
    if db.hasOrg name then HasMeta db name else HoldsNothing db name := by
  have read (f : Option Raw → Handler Response) : (Org.delete global orgsColl name >>= f).run execTables db =
      (f (execTables (.delete global orgsColl name) db).1).run execTables (execTables (.delete global orgsColl name) db).2 := rfl
  rw [deleteOrganization, read]
  simp only [execTables, Database.deleteJob]
  cases found : db.get global orgsColl name with
  | none =>
    have unlisted : ¬ HasMeta db name := by simp [HasMeta, found]
    show Untraced db name ↔ _
    split
    · next present => exact iff_of_false (fun untraced => absurd present (by simp [untraced.unregistered])) unlisted
    · next absent =>
      rw [holdsNothing_of_not_hasMeta unlisted]
      exact ⟨Untraced.empty, fun empty => ⟨unlisted, by simpa using absent, empty⟩⟩
  | some raw =>
    have listed : HasMeta db name := by simp [HasMeta, found]
    show Untraced (execTables (.deleteOrg name) (withoutMeta db name)).2 name ↔ _
    rw [deleteOrg_state, hasOrg_withoutMeta]
    split
    · exact iff_of_true (untraced_finished not_hasMeta_withoutMeta) listed
    · exact ⟨Untraced.empty, fun empty => ⟨not_hasMeta_withoutMeta, hasOrg_deleteOrgRow, empty⟩⟩

/-- The body asks for an organization of the name, and is not refused for what it says. -/
structure AsksForOrg (r : Request) (name : GoString) : Prop where
  decoded : ∃ obj, unmarshalMap r.body = some obj ∧ str (field (contents obj) (lit "name")) = name ∧
    lit "full_name" ∈ contents obj ∧ validOrgFullName (str (field (contents obj) (lit "full_name")))
  valid : orgNameRE name

def ForCreation (name : GoString) : StoreCall → Prop
  | .get org .. => org = name
  | .put .. => True
  | .createOrg org => org = name
  | _ => False

theorem only_createOrganization {env : Env} {r : Request} :
    (createOrganization env r).Only (ForCreation (newOrgName r)) := by
  have put {name org coll key : GoString} {raw : Raw} :
      (Org.put org coll key raw).Only (ForCreation name) := only_perform trivial
  have read {name coll key : GoString} : (Org.get name coll key).Only (ForCreation name) :=
    only_perform rfl
  have seeds {name coll key : GoString} {doc : Raw} : (seed name coll key doc).Only (ForCreation name) :=
    read.bind fun _ => only_ite (fun _ => put) fun _ => only_pure _
  have seedsOrg {name : GoString} : (seedOrg name).Only (ForCreation name) :=
    seeds.bind fun _ => (only_forM (fun _ => seeds) _).bind fun _ => only_forM (fun _ => seeds) _
  have make {name : GoString} : (createOrg name).Only (ForCreation name) := only_perform rfl
  unfold createOrganization decodeBody newOrgName
  cases unmarshalMap r.body with
  | none => exact only_stop _
  | some obj =>
    exact only_refuseIf.bind fun _ => only_refuseIf.bind fun _ => only_refuseIf.bind fun _ =>
      only_refuseIf.bind fun _ =>
      (make.bind fun _ => only_refuseIf.bind fun _ => seedsOrg.bind fun _ => put.bind fun _ => put.bind fun _ => put).bind
        fun _ => only_pure _

structure SameOrg (name : GoString) (s : Store) (db : Tables) : Prop where
  known : s.hasOrg name = db.hasOrg name
  held : space name s = tableSpace name db

theorem tableSpace_put {val : Raw} : tableSpace name (execTables (.put org coll key val) db).2 =
    if org = name then (tableSpace name db).setObject coll key (some val) else tableSpace name db := by
  simp only [tableSpace, execTables, Database.putJob, Database.get, Database.blob,
    Table.lookup_upsert, ObjectKey.mk.injEq, Space.setObject]
  split
  · next here => simp only [here, true_and]
  · next other => simp only [other, false_and, if_false]

theorem SameOrg.exec {s : Store} {c : StoreCall} (allowed : ForCreation name c)
    (same : SameOrg name s db) :
    (Api.exec c s).1 = (execTables c db).1 ∧ SameOrg name (Api.exec c s).2 (execTables c db).2 := by
  cases c with
  | get org coll key =>
    obtain rfl : org = name := allowed
    exact ⟨congrFun (congrFun (congrArg Space.objects same.held) coll) key, same⟩
  | put org coll key val =>
    refine ⟨rfl, same.known, ?_⟩
    rw [tableSpace_put, ← same.held]
    exact space_put
  | createOrg org =>
    obtain rfl : org = name := allowed
    cases known : s.hasOrg org with
    | true =>
      have stored : (db.orgs.lookup org).isSome := same.known.symm.trans known
      have taken : Table.insertOrIgnore db.orgs org () = (db.orgs, 0) :=
        Table.insertOrIgnore_present stored ()
      simp only [Api.exec, Store.MemoryBackend.createOrg, known, if_true, execTables,
        Database.createOrgJob, taken]
      exact ⟨rfl, same⟩
    | false =>
      have absent : db.orgs.lookup org = none := by simpa [Database.hasOrg, known] using same.known.symm
      obtain ⟨inserted, rows⟩ := Table.insertOrIgnore_fresh absent ()
      refine ⟨?_, ?_, ?_⟩
      · simp only [Api.exec, Store.MemoryBackend.createOrg, known, execTables,
          Database.createOrgJob, inserted]
        rfl
      · rw [show (Api.exec (.createOrg org) s).2 = (s.createOrg org).1 from rfl,
          Proof.Store.hasOrg_createOrg]
        simp [execTables, Database.createOrgJob, Database.hasOrg, rows]
      · have kept : space org (s.createOrg org).1 = space org s :=
          @space_exec _ (.createOrg org) (by simp [drops]) s
        exact kept.trans same.held
  | _ => cases allowed

def createdOrg (env : Env) (r : Request) (name : GoString) : Response :=
  .json 201 (encodeMap [(lit "clientname", .string (validatorName name)), (lit "private_key", .string env.privateKey),
    (lit "uri", .string (r.baseURL ++ lit "/organizations/" ++ name))])

theorem run_createOrganization {env : Env} {r : Request} {s : Store} (asks : AsksForOrg r name)
    (absent : s.hasOrg name = false) :
    ∃ t, (createOrganization env r).run Api.exec s = (.ok (createdOrg env r name), t) ∧
      t.hasOrg name := by
  obtain ⟨⟨obj, decoded, rfl, given, fullName⟩, valid⟩ := asks
  obtain ⟨t, seeded, ran⟩ :=
    @run_createOrganizationWithKey _ _ (str (field (contents obj) (lit "full_name"))) env absent
  have passes {condition : Prop} [Decidable condition] {status : Nat} {message : GoString} {f : Unit → Handler Response}
      (fails : ¬ condition) : (refuseIf condition status message >>= f).run Api.exec s = (f ()).run Api.exec s := by
    rw [refuseIf, if_neg fails]
    rfl
  refine ⟨register env (str (field (contents obj) (lit "name")))
    (str (field (contents obj) (lit "full_name"))) t, ?_, ?_⟩
  · unfold createOrganization decodeBody
    rw [decoded]
    refine (passes fun empty => ?_).trans
      ((passes ?_).trans ((passes (not_not.mpr given)).trans ((passes ?_).trans ?_)))
    · exact absurd empty (orgName_ne_global valid)
    · simp [valid]
    · simp [fullName]
    · rw [run_bind_of_ok ran]
      rfl
  · exact (seeded.hasOrg _).trans (by simp [Proof.Store.hasOrg_createOrg])

/-- The request, repeated without errors, deletes the organization entirely, and it can then be made as on
an empty store. -/
def Completes (again : Bool) (name : GoString) (left : Tables) : Prop := ∃ answer t,
  (onSqlite again (deleteOrganization name)).run attempt ([], left) = (answer, [], t) ∧ Untraced t name ∧
    ∀ env r, AsksForOrg r name → ∃ u,
      (onSqlite again (createOrganization env r)).run attempt ([], t) = (.ok (createdOrg env r name), [], u) ∧
      u.hasOrg name ∧ tableSpace name u = space name ((createOrganization env r).run Api.exec newMemoryBackend).2

theorem completes_iff {again : Bool} : Completes again name db ↔
    if db.hasOrg name then HasMeta db name else HoldsNothing db name := by
  rw [← untraced_deletes_iff]
  constructor
  · rintro ⟨answer, t, ran, untraced, -⟩
    rw [run_onSqlite] at ran
    rwa [← (Prod.mk.inj (Prod.mk.inj ran).2).2] at untraced
  intro untraced
  refine ⟨_, _, run_onSqlite _ _, untraced, fun env r asks => ?_⟩
  have start : SameOrg name newMemoryBackend ((deleteOrganization name).run execTables db).2 :=
    ⟨untraced.unregistered.symm, untraced.empty.symm⟩
  have named : newOrgName r = name := by
    obtain ⟨obj, decoded, named, -⟩ := asks.decoded
    rw [newOrgName, decoded]
    exact named
  have only : (createOrganization env r).Only (ForCreation name) := named ▸ only_createOrganization
  obtain ⟨alike, same⟩ := run_related (fun c _ _ allowed same => @SameOrg.exec _ _ _ c allowed same) only start
  obtain ⟨t, ran, known⟩ := @run_createOrganization _ env r newMemoryBackend asks rfl
  rw [ran] at alike same
  refine ⟨_, (run_onSqlite _ _).trans (by rw [← alike]), same.known ▸ known, ?_⟩
  rw [ran]
  exact same.held.symm

/-! ### What each step of the deletion leaves -/

/-- The rest of the request once the deletion of the metadata has answered. -/
def metaDeleted (name : GoString) : Option Raw → Handler Response
  | none => writeError 404 (lit "Cannot find org " ++ name)
  | some raw => do
    let _ ← deleteOrg name
    return .json 200 raw

theorem after_sql_bind (c : SqlStep) (f : c.Result → Lowered α) (steps : Nat) (db : Tables) :
    after attempt (steps + 1) (sql c >>= f) ([], db) =
      after attempt steps (f (c.exec db).1) ([], (c.exec db).2) := rfl

theorem after_delete (row : ObjectKey) (f : Option Raw → Lowered α) (steps : Nat) :
    after attempt (steps + 1) (Api.Backend.delete row >>= f) ([], db) =
      match db.get row.org row.coll row.key with
      | none => after attempt steps (f none) ([], db)
      | some old => after attempt steps (sql (deleteRow row) >>= fun _ => f (some old)) ([], db) := by
  refine (congrArg (fun p => after attempt (steps + 1) p ([], db)) (bind_bind _ _ f)).trans ?_
  refine (after_sql_bind (.call (.get row.org row.coll row.key)) _ steps db).trans ?_
  simp only [SqlStep.exec, execTables]
  cases db.get row.org row.coll row.key with
  | none => rfl
  | some old => exact congrArg (fun p => after attempt steps p ([], db)) (bind_bind _ _ f)

theorem delete_listed {raw : Raw} (found : db.get global orgsColl name = some raw) :
    execTables (.delete global orgsColl name) db = (some raw, withoutMeta db name) := by
  simp only [execTables, Database.deleteJob, found]
  rfl

theorem delete_unlisted (unlisted : db.get global orgsColl name = none) :
    execTables (.delete global orgsColl name) db = (none, db) := by
  simp only [execTables, Database.deleteJob, unlisted]
  rfl

theorem lowered_deletion : onSqlite groupCommit (deleteOrganization name) =
    carryOut groupCommit (.delete global orgsColl name) >>= fun deleted =>
      onSqlite groupCommit (metaDeleted name deleted) := by
  show carryOut groupCommit (.delete global orgsColl name) >>= _ = _
  refine congrArg (carryOut groupCommit (.delete global orgsColl name) >>= ·)
    (funext fun deleted => ?_)
  rfl

theorem after_pure (a : α) (steps : Nat) (s : FaultyTables) :
    after attempt steps (pure a : Lowered α) s = s := by
  cases steps <;> rfl

def stepsLeave (groupCommit : Bool) (steps : Nat) (db : Tables) (name : GoString) : Tables :=
  (after attempt steps (onSqlite groupCommit (deleteOrganization name)) ([], db)).2

theorem leaves_unlisted (unlisted : ¬ HasMeta db name) (steps : Nat) :
    stepsLeave groupCommit steps db name = db := by
  have none : db.get global orgsColl name = none := by simpa [HasMeta] using unlisted
  unfold stepsLeave
  rw [lowered_deletion]
  cases steps with
  | zero => rfl
  | succ steps =>
    cases groupCommit with
    | false =>
      refine (congrArg Prod.snd (after_delete ⟨global, orgsColl, name⟩ _ steps)).trans ?_
      simp only [none]
      cases steps <;> rfl
    | true =>
      refine (congrArg Prod.snd (after_sql_bind (.call (.delete global orgsColl name)) _ steps db)).trans ?_
      rw [SqlStep.exec, delete_unlisted none]
      cases steps <;> rfl

/-- What is left once the metadata is gone. -/
def restLeaves (groupCommit : Bool) (steps : Nat) (db : Tables) (name : GoString) (raw : Raw) :
    Tables :=
  (after attempt steps (onSqlite groupCommit (metaDeleted name (some raw))) ([], db)).2

theorem leaves_listed {raw : Raw} (found : db.get global orgsColl name = some raw) (steps : Nat) :
    stepsLeave false (steps + 2) db name =
      restLeaves false steps (withoutMeta db name) name raw := by
  unfold stepsLeave
  rw [lowered_deletion]
  refine (congrArg Prod.snd (after_delete ⟨global, orgsColl, name⟩ _ (steps + 1))).trans ?_
  simp only [found]
  rfl

theorem commits_listed {raw : Raw} (found : db.get global orgsColl name = some raw) (steps : Nat) :
    stepsLeave true (steps + 1) db name = restLeaves true steps (withoutMeta db name) name raw := by
  unfold stepsLeave
  rw [lowered_deletion]
  refine (congrArg Prod.snd
    (after_sql_bind (.call (.delete global orgsColl name)) _ steps db)).trans ?_
  rw [SqlStep.exec, delete_listed found]
  rfl

theorem after_deleteOrg (f : Bool → Lowered α) (steps : Nat) :
    after attempt (steps + 1) (Backend.deleteOrg name >>= f) ([], db) =
      if db.hasOrg name then after attempt steps (do
          let _ ← sql (deleteObjects name)
          let _ ← sql (SqlStep.deleteBlobs name)
          f true) ([], ((SqlStep.deleteOrgRow name).exec db).2)
      else after attempt steps (f false) ([], ((SqlStep.deleteOrgRow name).exec db).2) := by
  refine (congrArg (fun p => after attempt (steps + 1) p ([], db)) (bind_bind _ _ f)).trans ?_
  refine (after_sql_bind (.deleteOrgRow name) _ steps db).trans ?_
  show after attempt steps ((if (db.orgs.deleteWhere fun row => row = name).2 = 0 then (pure false : Lowered Bool) else _) >>= f) _ = _
  cases present : db.hasOrg name with
  | false =>
    rw [if_pos (deleted_count.mpr present)]
    rfl
  | true =>
    rw [if_neg fun none => by simp [deleted_count.mp none] at present]
    rw [if_pos rfl]
    refine congrArg (fun p => after attempt steps p _) ?_
    refine (bind_bind _ _ f).trans (congrArg (sql (deleteObjects name) >>= ·) (funext fun _ => ?_))
    exact bind_bind _ _ f

theorem rest_unregistered {raw : Raw} (absent : db.hasOrg name = false) (steps : Nat) :
    restLeaves groupCommit (steps + 1) db name raw = ((SqlStep.deleteOrgRow name).exec db).2 := by
  cases groupCommit with
  | false =>
    refine (congrArg Prod.snd
      (after_deleteOrg (fun _ => pure (Response.json 200 raw)) steps)).trans ?_
    rw [absent, if_neg Bool.false_ne_true, after_pure]
  | true =>
    refine (congrArg Prod.snd (after_sql_bind (.call (.deleteOrg name)) (fun _ => pure (Response.json 200 raw)) steps db)).trans ?_
    rw [after_pure]
    exact deleteOrg_state.trans (by rw [absent, if_neg Bool.false_ne_true])

theorem rest_registered {raw : Raw} (present : db.hasOrg name) (steps : Nat) :
    restLeaves false (steps + 1) db name raw = (after attempt steps (do
        let _ ← sql (deleteObjects name)
        let _ ← sql (SqlStep.deleteBlobs name)
        (pure (.json 200 raw) : Lowered Response)) ([], ((SqlStep.deleteOrgRow name).exec db).2)).2 := by
  refine (congrArg Prod.snd
    (after_deleteOrg (fun _ => pure (Response.json 200 raw)) steps)).trans ?_
  rw [if_pos present]

/-- Of a registered organization the steps leave what their stage says. -/
theorem leaves_stage (listed : HasMeta db name) (present : db.hasOrg name) (steps : Nat) :
    stepsLeave groupCommit steps db name = (stage groupCommit steps).state db name := by
  obtain ⟨raw, found⟩ := Option.isSome_iff_exists.mp listed
  have kept : (withoutMeta db name).hasOrg name := present
  cases groupCommit with
  | false =>
    rcases steps with _ | _ | steps
    · rfl
    · rfl
    rw [leaves_listed found]
    rcases steps with _ | steps
    · rfl
    rw [rest_registered kept]
    rcases steps with _ | _ | steps
    · rfl
    · rfl
    · exact congrArg Prod.snd (after_pure _ steps _)
  | true =>
    rcases steps with _ | steps
    · rfl
    rw [commits_listed found]
    rcases steps with _ | steps
    · rfl
    refine (congrArg Prod.snd (after_sql_bind (.call (.deleteOrg name)) (fun _ => pure (Response.json 200 raw)) steps _)).trans ?_
    rw [after_pure]
    exact deleteOrg_state.trans (if_pos kept)

/-- Of one that is not, they leave its metadata or nothing more. -/
theorem leaves_unregistered (absent : db.hasOrg name = false) (steps : Nat) :
    (stepsLeave groupCommit steps db name).hasOrg name = false ∧
      (HoldsNothing (stepsLeave groupCommit steps db name) name ↔ HoldsNothing db name) := by
  by_cases listed : HasMeta db name
  · obtain ⟨raw, found⟩ := Option.isSome_iff_exists.mp listed
    have rest (steps : Nat) : (restLeaves groupCommit steps (withoutMeta db name) name raw).hasOrg name = false ∧
        (HoldsNothing (restLeaves groupCommit steps (withoutMeta db name) name raw) name ↔ HoldsNothing db name) := by
      cases steps with
      | zero => exact ⟨absent, holdsNothing_withoutMeta⟩
      | succ steps =>
        rw [rest_unregistered (show (withoutMeta db name).hasOrg name = false from absent)]
        exact ⟨hasOrg_deleteOrgRow, holdsNothing_withoutMeta⟩
    cases groupCommit with
    | false =>
      rcases steps with _ | _ | steps
      · exact ⟨absent, Iff.rfl⟩
      · exact ⟨absent, Iff.rfl⟩
      · rw [leaves_listed found]
        exact rest steps
    | true =>
      rcases steps with _ | steps
      · exact ⟨absent, Iff.rfl⟩
      · rw [commits_listed found]
        exact rest steps
  · rw [leaves_unlisted listed]
    exact ⟨absent, Iff.rfl⟩

theorem completes_stage {again : Bool} (listed : HasMeta db name) (present : db.hasOrg name)
    (stage : Stage) :
    Completes again name (stage.state db name) ↔ stage.Recovers db name := by
  rw [completes_iff]
  cases stage with
  | listed => simpa [Stage.state, Stage.Recovers, present] using listed
  | unlisted => simp [Stage.state, Stage.Recovers, hasOrg_withoutMeta, present, not_hasMeta_withoutMeta]
  | unregistered =>
    simp only [Stage.state, Stage.Recovers, hasOrg_deleteOrgRow, Bool.false_eq_true, if_false]
    exact holdsNothing_withoutMeta
  | emptied =>
    have absent : (Stage.emptied.state db name).hasOrg name = false := hasOrg_deleteOrgRow
    rw [absent, if_neg Bool.false_ne_true, holdsNothing_iff]
    refine and_iff_right fun coll key _ => ?_
    exact get_deleteObjects.trans (if_pos rfl)
  | finished =>
    have untraced : Untraced (Stage.finished.state db name) name :=
      untraced_finished not_hasMeta_withoutMeta
    rw [untraced.unregistered, if_neg Bool.false_ne_true]
    exact iff_of_true ((holdsNothing_of_not_hasMeta untraced.unlisted).mpr untraced.empty) trivial

/-- A deletion of which some steps have taken effect is completed by its repetition exactly when the
organization was recoverable at that step. -/
theorem deletion_completed_iff (groupCommit again : Bool) (steps : Nat) (db : Tables)
    (name : GoString) :
    Completes again name (stepsLeave groupCommit steps db name) ↔
      Recoverable groupCommit steps db name := by
  unfold Recoverable
  cases present : db.hasOrg name with
  | true =>
    rw [if_pos rfl]
    by_cases listed : HasMeta db name
    · rw [leaves_stage listed present, completes_stage listed present]
      exact (and_iff_right listed).symm
    · rw [leaves_unlisted listed, completes_iff, if_pos present]
      exact iff_of_false listed fun both => listed both.1
  | false =>
    obtain ⟨absent, holds⟩ := @leaves_unregistered db name groupCommit present steps
    rw [completes_iff, absent]
    exact holds

section Samples

def populated : Tables :=
  ((do createOrganizationWithKey plainEnv acme acme
       Org.put acme (lit "nodes") web (.document .null)
       Org.putBlob acme web (.document .null) : Handler Unit).run execTables newDatabase).2

def asksAcme : Request :=
  creates [(lit "name", .string acme), (lit "full_name", .string acme)]

def leftBy (faults : List Fault) : Tables :=
  ((onSqlite false (deleteOrganization acme)).run attempt (faults, populated)).2.2

def deletedAgain (t : Tables) : Except Response Response × FaultyTables :=
  (onSqlite false (deleteOrganization acme)).run attempt ([], t)

def createdAgain (t : Tables) : Except Response Response × FaultyTables :=
  (onSqlite false (createOrganization plainEnv asksAcme)).run attempt ([], t)

def errorStatus : Except Response Response → Option Nat
  | .error (.error status _) => some status
  | _ => none

instance (db : Tables) (name : GoString) : Decidable (HasMeta db name) :=
  inferInstanceAs (Decidable (_ = true))

def stillRegistered : Except Response Response × FaultyTables :=
  deletedAgain (leftBy [.none, .none, .refused])

def stillStored : Except Response Response × FaultyTables :=
  deletedAgain (leftBy [.none, .none, .none, .refused])

theorem deletion_out_of_reach : (HasMeta populated acme ∧ populated.hasOrg acme) ∧
    (errorStatus stillRegistered.1 = some 404 ∧ stillRegistered.2.2.hasOrg acme ∧
      errorStatus (createdAgain stillRegistered.2.2).1 = some 409) ∧
    errorStatus stillStored.1 = some 404 ∧ (createdAgain stillStored.2.2).1.isOk ∧
      ((createdAgain stillStored.2.2).2.2.get acme (lit "nodes") web).isSome ∧
      ((createdAgain stillStored.2.2).2.2.blob acme web).isSome :=
  ⟨by decide +kernel, by decide +kernel, by decide +kernel⟩

end Samples

/-! ## The API over either backend -/

open Proof.Store (Mirrors mirrors_new)

variable [Unicode]

end CincServer.Proof.Api
