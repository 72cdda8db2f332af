import CincServer.Api.Membership
import CincServer.Proof.Api.ActorDeletion

/-!
# Memberships of a deleted actor
-/

namespace CincServer.Proof.Api
open CincServer.Api CincServer.Json Go Lib Program
open MembershipRequest (lock handler shared)
open Store.MemoryBackend (create keys delete)

variable {s t : Store} {c : StoreCall} {group : GoString} {kind : MemberKind} {α : Type}
  {route : ActorRoute} {name coll org key actor user : GoString} {h : Handler α} {raw : Raw} {ended : Store}

theorem lockingPutGroup_rest (r : Request) (org name : GoString) :
    lockingPutGroup r org name >>= Ending.rest = putGroup r org name := by
  simp only [lockingPutGroup, bind_bind]
  rfl

theorem lockingAssociateUser_rest (r : Request) (org : GoString) :
    lockingAssociateUser r org >>= Ending.rest = associateUser r org := by
  simp only [lockingAssociateUser, bind_bind]
  rfl

theorem lockingRespondInvite_rest (r : Request) (user id : GoString) :
    lockingRespondInvite r user id >>= Ending.rest = respondInvite r user id := by
  simp only [lockingRespondInvite, bind_bind]
  rfl

theorem lockingPostActor_rest [Unicode] (env : Env) (enforceACL : Bool) (r : Request)
    (route : ActorRoute) :
    lockingPostActor env enforceACL r route >>= Ending.rest = postActor env enforceACL r route := by
  simp only [lockingPostActor, bind_bind]
  rfl

theorem lockingDeleteActor_rest (r : Request) (org name : GoString) :
    lockingDeleteActor r .users name >>= Ending.rest = scopedDelete r global users name ∧
    lockingDeleteActor r (.clients org) name >>=
      Ending.rest = inOrg org (scopedDelete r org clients name) := by
  refine ⟨rfl, ?_⟩
  simp only [lockingDeleteActor, bind_bind]
  rfl

theorem principal_eq {who : Principal} (scope : route.org = who.scope)
    (segment : route.segment = who.segment) (named : name = who.name) :
    principal route name = who := by
  subst named
  cases route with
  | users =>
    cases who with
    | user name => rfl
    | client org name => exact absurd (show users = clients from segment) (by decide)
  | clients org =>
    cases who with
    | user name => exact absurd (show clients = users from segment) (by decide)
    | client own name => exact congrArg (Principal.client · name) scope

def Present (s : Store) (who : Principal) : Prop := (s.get who.scope who.segment who.name).isSome

def Named (s : Store) (who : Principal) : Prop :=
  ∃ org group, who.ActsIn s org ∧ (Row s org group who.kind who.name ∨ ∃ raw, s.get org groupsColl group = some raw ∧
      (who.name ∈ (indexMembers raw).get who.kind ∨ who.name ∈ (removerMembers raw).get who.kind))

structure Clean (s : Store) (who : Principal) : Prop where
  rows : ∀ org group, who.ActsIn s org → ¬ Row s org group who.kind who.name
  docs : ∀ org group raw, who.ActsIn s org → s.get org groupsColl group = some raw →
    who.name ∉ (indexMembers raw).get who.kind
  invitations : ∀ name org, who = .user name → s.hasOrg org → s.get org assocReqColl (inviteID name org) = none

variable {who : Principal}

theorem Clean.unnamed (clean : Clean s who) (sound : Every Sound s) : ¬ Named s who := by
  rintro ⟨org, group, acts, row | ⟨raw, found, listed | removable⟩⟩
  · exact clean.rows org group acts row
  · exact clean.docs org group raw acts found listed
  · have alike : ReadAlike raw := (sound _ _ _ _ found).1 rfl
    rw [ReadAlike] at alike
    exact clean.docs org group raw acts found (alike ▸ removable)

theorem Clean.of_le (clean : Clean s who) (orgs : t.orgs = s.orgs)
    (fewer : ∀ org coll key, coll ∈ [groupsColl, groupMembersColl, assocReqColl] →
      t.get org coll key = none ∨ t.get org coll key = s.get org coll key) : Clean t who where
  rows org group acts := by
    rintro ⟨noGroup, noMember, stored⟩
    rcases fewer org groupMembersColl (memberKey group who.kind.name who.name) (by decide) with gone | same
    · simp [gone] at stored
    · exact clean.rows org group ((who.actsIn_congr orgs org).mp acts) ⟨noGroup, noMember,
        same ▸ stored⟩
  docs org group raw acts found := by
    rcases fewer org groupsColl group (by decide) with gone | same
    · simp [gone] at found
    · exact clean.docs org group raw ((who.actsIn_congr orgs org).mp acts) (same ▸ found)
  invitations name org user present := by
    rcases fewer org assocReqColl (inviteID name org) (by decide) with gone | same
    · exact gone
    · exact same ▸ clean.invitations name org user ((hasOrg_congr orgs org).symm.trans present)

theorem Erased.clean (erased : Erased s t who) (sound : Every Sound s) : Clean t who where
  rows org group acts := by
    rintro ⟨-, -, stored⟩
    rw [erased.rows _ _ ((who.actsIn_congr erased.orgs org).mp acts) ⟨group, by simp [rowSuffix, memberKey]⟩] at stored
    cases stored
  docs org group raw acts found := by
    rw [erased.docs _ _ ((who.actsIn_congr erased.orgs org).mp acts)] at found
    obtain ⟨before, stored, rfl⟩ := Option.map_eq_some_iff.mp found
    exact (not_mem_revise ((sound _ _ _ _ stored).1 rfl)).1
  invitations name org user present := by
    rw [erased.invitations name org _ user ((hasOrg_congr erased.orgs org).symm.trans present),
      if_pos rfl]

def Undisturbed (s t : Store) : Prop :=
  t.orgs = s.orgs ∧ ∀ org coll key, coll ≠ passwordsCollection → t.get org coll key = s.get org coll key

theorem Undisturbed.refl (s : Store) : Undisturbed s s := ⟨rfl, fun _ _ _ _ => rfl⟩

theorem Undisturbed.trans {u : Store} (first : Undisturbed s t) (second : Undisturbed t u) :
    Undisturbed s u :=
  ⟨second.1.trans first.1, fun org coll key other => (second.2 org coll key other).trans (first.2 org coll key other)⟩

theorem segment_ne (who : Principal) (noUsers : users ≠ coll) (noClients : clients ≠ coll) :
    who.segment ≠ coll := by
  cases who with
  | user name => exact noUsers
  | client org name => exact noClients

theorem Undisturbed.present_iff (undisturbed : Undisturbed s t) :
    Present t who ↔ Present s who := by
  rw [Present, undisturbed.2 _ _ _ (segment_ne who (by decide) (by decide)), Present]

theorem Undisturbed.clean (undisturbed : Undisturbed s t) (clean : Clean s who) : Clean t who :=
  clean.of_le undisturbed.1 fun org coll key mem =>
    .inr (undisturbed.2 org coll key (by rintro rfl; revert mem; decide))

structure Steady (start : Store) (who : Principal) (later : Prop) (s : Store) : Prop where
  sound : Every Sound s
  orgs : s.orgs = start.orgs
  clean : later → ¬ Present s who → Clean s who

def keeping (start : Store) (who : Principal) (later : Prop) : Regime MembershipRequest Store where
  inv := Steady start who later
  tolerates label s t := if label.shared then Present s who → Present t who else Undisturbed s t
  refl label s := by
    split
    · exact id
    · exact .refl s
  trans label s t u first second := by
    split at first
    · next shared =>
      rw [if_pos shared] at second ⊢
      exact second ∘ first
    · next exclusive =>
      rw [if_neg exclusive] at second ⊢
      exact first.trans second

variable {start : Store} {later : Prop} {label : MembershipRequest}

theorem tolerates_exclusive (exclusive : label.shared = false) :
    (keeping start who later).tolerates label s t ↔ Undisturbed s t := by
  simp [keeping, exclusive]

theorem present_of_tolerates (tolerated : (keeping start who later).tolerates label s t)
    (present : Present s who) :
    Present t who := by
  simp only [keeping] at tolerated
  split at tolerated
  · exact tolerated present
  · exact tolerated.present_iff.mpr present

abbrev Secured (start : Store) (who : Principal) (later : Prop)
    (label : MembershipRequest) {α : Type}
    (post : Except Response α → Store → Prop) (h : Handler α) (s : Store) : Prop :=
  Secure exec lock (keeping start who later) label post h s

theorem fine_of_present (steady : Steady start who later (exec c s).2)
    (kept : Present s who → Present (exec c s).2 who) :
    Fine exec lock (keeping start who later) True label c s := by
  refine ⟨steady, fun other compatible _ => ?_⟩
  have shared : other.shared := (compatible trivial).2
  simp only [keeping, shared, if_true]
  exact kept

def Harmless (who : Principal) : StoreCall → Prop
  | .put _ coll _ _ => coll ∉ [groupsColl, groupMembersColl, assocReqColl]
  | .create _ coll _ _ => coll ∉ [groupsColl, groupMembersColl, assocReqColl]
  | .delete org coll key => ¬ (org = who.scope ∧ coll = who.segment ∧ key = who.name)
  | .createOrg _ => False
  | .deleteOrg _ => False
  | _ => True

theorem harmless_reads : Reads (Harmless who) := by
  constructor <;> exact trivial

theorem harmless_of_revokes (revokes : Revokes c) : Harmless who c := by
  cases c with
  | put org coll key val =>
    obtain rfl : coll = aclsColl := revokes
    exact (by decide : aclsColl ∉ [groupsColl, groupMembersColl, assocReqColl])
  | delete org coll key =>
    rintro ⟨-, rfl, -⟩
    exact revokes (by cases who <;> simp [Principal.segment])
  | create | createOrg | deleteOrg | putBlob | hasBlob | deleteBlob => exact revokes.elim
  | _ => trivial

theorem Harmless.tame (harmless : Harmless who c) : Writes Sound c ∧ KeepsOrgs c := by
  cases c with
  | put org coll key val | create org coll key val =>
    exact ⟨sound_elsewhere (by rintro rfl; exact harmless (by simp)) (by rintro rfl; exact harmless (by simp)), trivial⟩
  | createOrg | deleteOrg => exact harmless.elim
  | _ => exact ⟨trivial, trivial⟩

theorem Harmless.fewer (harmless : Harmless who c) (s : Store)
    (mem : coll ∈ [groupsColl, groupMembersColl, assocReqColl]) :
    (exec c s).2.get org coll key = none ∨ (exec c s).2.get org coll key = s.get org coll key := by
  have elsewhere {org' coll' key' : GoString} {val : Raw}
      (other : coll' ∉ [groupsColl, groupMembersColl, assocReqColl]) :
      (s.put org' coll' key' val).get org coll key = s.get org coll key := by
    rw [get_put, if_neg]
    rintro ⟨-, rfl, -⟩
    exact other mem
  cases c with
  | put org' coll' key' val => exact .inr (elsewhere harmless)
  | create org' coll' key' val =>
    simp only [exec, create]
    split
    · exact .inr rfl
    · exact .inr (elsewhere harmless)
  | delete org' coll' key' =>
    simp only [exec, get_delete]
    split
    · exact .inl rfl
    · exact .inr rfl
  | createOrg | deleteOrg => exact harmless.elim
  | _ => exact .inr rfl

theorem present_put {val : Raw} (present : Present s who) :
    Present (s.put org coll key val) who := by
  rw [Present, get_put]
  split
  · rfl
  · exact present

theorem Harmless.present (harmless : Harmless who c) (s : Store) (present : Present s who) :
    Present (exec c s).2 who := by
  cases c with
  | put org coll key val => exact present_put present
  | create org coll key val =>
    simp only [exec, create]
    split
    · exact present
    · exact present_put present
  | delete org coll key =>
    rw [Present, exec, get_delete, if_neg harmless]
    exact present
  | createOrg | deleteOrg => exact harmless.elim
  | _ => exact present

theorem Steady.exec {c : StoreCall} (steady : Steady start who later s)
    (tame : Writes Sound c ∧ KeepsOrgs c)
    (clean : later → ¬ Present (exec c s).2 who → Clean (exec c s).2 who) :
    Steady start who later (exec c s).2 :=
  ⟨every_exec c tame.1 s steady.sound, (orgs_exec c tame.2 s).trans steady.orgs, clean⟩

theorem Harmless.steady (harmless : Harmless who c) (steady : Steady start who later s) :
    Steady start who later (exec c s).2 := by
  refine steady.exec harmless.tame fun holds absent => ?_
  have clean := steady.clean holds fun present => absent (harmless.present s present)
  exact clean.of_le (orgs_exec c harmless.tame.2 s) fun org coll key mem => harmless.fewer s mem

theorem Harmless.free (harmless : Harmless who c) :
    Free exec lock (keeping start who later) True label c := fun s steady _ =>
  fine_of_present (harmless.steady steady) (harmless.present s)

theorem Secured.keepKnowledge {post : Except Response α → Store → Prop}
    (secure : Secured start who later label post h s) (only : h.Only (Harmless who)) (known : Prop)
    (holds : known → Present s who) :
    Secured start who later label (fun outcome t => post outcome t ∧ (known → Present t who)) h s :=
  secure.frame (fun t => known → Present t who)
    (fun _ _ tolerated present holds => present_of_tolerates tolerated (present holds))
    (only.mono fun _ harmless s present holds => harmless.present s (present holds)) holds

theorem secured_harmless (only : h.Only (Harmless who)) (known : Prop)
    (holds : known → Present s who) :
    Secured start who later label (fun _ t => known → Present t who) h s := by
  have secure : Secured start who later label (fun _ _ => True) h s :=
    (only.mono fun _ harmless => harmless.free).secure s
  exact (secure.keepKnowledge only known holds).mono fun _ _ _ => And.right

theorem secured_mustExist {message : GoString} : Secured start who later label
      (fun outcome t => outcome.isOk → who.scope = org ∧ who.segment = coll ∧ who.name = key → Present t who)
      (mustExist org coll key message) s := by
  refine secure_perform fun s' _ steady _ => ⟨harmless_reads.get.free s' steady trivial, ?_⟩
  cases found : s'.get org coll key with
  | none =>
    simp only [exec, found]
    exact fun _ _ _ refused => by cases refused
  | some raw =>
    simp only [exec, found]
    rintro t tolerated - - ⟨rfl, rfl, rfl⟩
    exact present_of_tolerates tolerated (by rw [Present, found]; rfl)

theorem memberKey_inj {group' kindName kindName' member member' : GoString} (noGroup : 0 ∉ group)
    (noKind : 0 ∉ kindName) (noMember : 0 ∉ member) (noGroup' : 0 ∉ group')
    (noKind' : 0 ∉ kindName')
    (same : memberKey group' kindName' member' = memberKey group kindName member) :
    group' = group ∧ kindName' = kindName ∧ member' = member := by
  have parts := congrArg (List.splitOn 0) same
  rw [splitOn_memberKey noGroup noKind noMember, memberKey, List.append_assoc, List.cons_append,
    List.splitOn_append_cons_self_of_not_mem noGroup', List.splitOn_append_cons_self_of_not_mem noKind'] at parts
  obtain ⟨rfl, rfl, last⟩ : group' = group ∧ kindName' = kindName ∧
      member'.splitOn 0 = [member] := by
    simpa using parts
  have whole : [0].intercalate (member'.splitOn 0) = member' := List.intercalate_splitOn 0
  rw [last] at whole
  exact ⟨rfl, rfl, by simpa [List.intercalate] using whole.symm⟩

theorem fine_addMember (noGroup : 0 ∉ group) (steady : Steady start who later s)
    (known : later → who.ActsIn s org → who.kind = kind → who.name = actor → Present s who) :
    Fine exec lock (keeping start who later) True label
      (.put org groupMembersColl (memberKey group kind.name actor) raw) s := by
  refine fine_of_present (steady.exec
    ⟨sound_elsewhere (by decide) (by decide), trivial⟩ fun holds absent => ?_)
    present_put
  have gone : ¬ Present s who := fun present => absent (present_put present)
  have clean := steady.clean holds gone
  refine ⟨fun org' group' acts row => ?_, fun org' group' raw' acts found => ?_,
    fun name org' user present => ?_⟩
  · obtain ⟨noGroup', noMember, stored⟩ := row
    have acts : who.ActsIn s org' := (who.actsIn_congr rfl org').mp acts
    simp only [exec, get_put] at stored
    split at stored
    · next here =>
      obtain ⟨rfl, -, same⟩ := here
      obtain ⟨-, sameKind, rfl⟩ := memberKey_inj noGroup' (kind_no_separator _) noMember noGroup
        (kind_no_separator _) same
      exact gone (known holds acts (kind_name_inj sameKind).symm rfl)
    · exact clean.rows org' group' acts ⟨noGroup', noMember, stored⟩
  · rw [exec, get_put_of_ne (by decide)] at found
    exact clean.docs org' group' raw' ((who.actsIn_congr rfl org').mp acts) found
  · rw [exec, get_put_of_ne (by decide)]
    exact clean.invitations name org' user present

theorem fine_putGroup {m : MemberLists} (steady : Steady start who later s)
    (known : later → who.ActsIn s org → ¬ Present s who → who.name ∉ m.get who.kind) :
    Fine exec lock (keeping start who later) True label
      (.put org groupsColl group (groupJSON name [] m)) s := by
  refine fine_of_present (steady.exec ⟨sound_groupJSON, trivial⟩ fun holds absent => ?_) present_put
  have gone : ¬ Present s who := fun present => absent (present_put present)
  have clean := steady.clean holds gone
  refine ⟨fun org' group' acts row => ?_, fun org' group' raw' acts found => ?_,
    fun name org' user present => ?_⟩
  · obtain ⟨noGroup, noMember, stored⟩ := row
    rw [exec, get_put_of_ne (by decide)] at stored
    exact clean.rows org' group' ((who.actsIn_congr rfl org').mp acts) ⟨noGroup, noMember, stored⟩
  · have acts : who.ActsIn s org' := (who.actsIn_congr rfl org').mp acts
    rw [exec, get_put] at found
    split at found
    · next here =>
      obtain ⟨rfl, -, -⟩ := here
      obtain rfl := Option.some.inj found
      rw [indexMembers_groupJSON]
      exact known holds acts gone
    · exact clean.docs org' group' raw' acts found
  · rw [exec, get_put_of_ne (by decide)]
    exact clean.invitations name org' user present

theorem eq_user (kind : who.kind = .users) (name : who.name = user) : who = .user user := by
  cases who with
  | user name' =>
    obtain rfl : name' = user := name
    rfl
  | client org name' => cases kind

theorem secured_joinOrg (known : later → who = .user user → Present s who) :
    Secured start who later label (fun _ _ => True) (joinOrg org user) s := by
  have harmless : (Org.put org assocColl user (encodeMap [(lit "username", .string user)])).Only (Harmless who) :=
    only_put (by decide : assocColl ∉ [groupsColl, groupMembersColl, assocReqColl])
  refine (secured_harmless harmless (later ∧ who = .user user) fun both => known both.1 both.2).bind
    (fun _ s' _ known' => ?_) fun _ _ _ _ => trivial
  intro t tolerated steady _
  refine ⟨fine_addMember (by decide) steady fun holds _ kind name => ?_, fun _ _ _ => trivial⟩
  exact present_of_tolerates tolerated (known' ⟨holds, eq_user kind name⟩)

theorem secured_associateKnown {r : Request} :
    Secured start who later label (fun _ _ => True) (associateKnown r org user) s := by
  refine secured_mustExist.bind (fun _ s₁ _ found => ?_) fun _ _ _ _ => trivial
  refine (secured_harmless harmless_reads.only_refuseMember (who = .user user) ?_).bind
    (fun _ s₂ _ known => ?_) fun _ _ _ _ => trivial
  · rintro rfl
    exact found rfl ⟨rfl, rfl, rfl⟩
  · exact (secured_joinOrg fun _ => known).bind
      (fun _ _ _ _ => fun _ _ _ => trivial) fun _ _ _ _ => trivial

theorem Steady.invited {id : GoString} (steady : Steady start who later s) (holds : later)
    (present : s.hasOrg org) (found : s.get org assocReqColl id = some raw)
    (invites : inviteString (lit "username") raw = some user) (actor : who = .user user) :
    Present s who := by
  by_contra absent
  obtain ⟨invitee, inviter, rfl, rfl⟩ := (steady.sound _ _ _ _ found).2 rfl
  rw [inviteString_username] at invites
  obtain rfl := Option.some.inj invites
  rw [(steady.clean holds absent).invitations invitee org actor present] at found
  cases found

theorem secured_holdsInvite {id : GoString} :
    Secured start who later label (fun outcome t => outcome = .ok true → later ∧ who = .user user → Present t who)
      (holdsInvite user id org) s := by
  refine secure_perform fun s₁ _ steady₁ _ => ⟨harmless_reads.hasOrg.free s₁ steady₁ trivial, ?_⟩
  refine secure_ite (fun _ => fun _ _ _ missing => by cases missing) fun present => ?_
  refine secure_perform fun s₂ _ steady₂ _ => ⟨harmless_reads.get.free s₂ steady₂ trivial, ?_⟩
  have same : s₂.hasOrg org = s₁.hasOrg org :=
    hasOrg_congr (steady₂.orgs.trans steady₁.orgs.symm) org
  have present₂ : s₂.hasOrg org := by simpa [same, exec] using present
  simp only [exec]
  cases found : s₂.get org assocReqColl id with
  | none => exact fun _ _ _ missing => by cases missing
  | some raw =>
    dsimp only
    cases invites : inviteString (lit "username") raw with
    | none => exact fun _ _ _ failed => by cases failed
    | some username =>
      intro t tolerated _ same actor
      obtain rfl : username = user := of_decide_eq_true (Except.ok.inj same)
      exact present_of_tolerates tolerated (steady₂.invited actor.1 present₂ found invites actor.2)

theorem secured_findInvite {id : GoString} (orgs : List GoString) : Secured start who later label
      (fun outcome t => ∀ org, outcome = .ok (some org) → later ∧ who = .user user → Present t who)
      (findInvite user id orgs) s := by
  induction orgs generalizing s with
  | nil => exact fun _ _ _ _ missing => nomatch missing
  | cons org orgs ih =>
    refine secured_holdsInvite.bind (fun holds s' _ known => ?_) fun _ _ _ _ _ failed =>
      nomatch failed
    cases holds with
    | true => exact fun _ tolerated _ _ _ actor => present_of_tolerates tolerated (known rfl actor)
    | false => exact ih

theorem secured_answerInvite {r : Request} {id : GoString} :
    Secured start who later label (fun _ _ => True) (answerInvite r user id) s := by
  have settle (org : GoString) (answer : Answer) {s' : Store} (known : later ∧ who = .user user → Present s' who) :
      Secured start who later label (fun _ _ => True) (do
        let _ ← Org.delete org assocReqColl id
        if answer = .accept then joinOrg org user
        return Response.json 200 (encodeMap [(lit "organization", .object [(lit "name", .string org)])])) s' := by
    have harmless : (Org.delete org assocReqColl id).Only (Harmless who) :=
      only_delete fun here => segment_ne who (by decide) (by decide) here.2.1.symm
    refine (secured_harmless harmless _ known).bind (fun _ _ _ known => ?_) fun _ _ _ _ => trivial
    refine secure_ite (fun _ => ?_) fun _ => fun _ _ _ => trivial
    exact (secured_joinOrg fun holds actor => known ⟨holds, actor⟩).bind
      (fun _ _ _ _ => fun _ _ _ => trivial) fun _ _ _ _ => trivial
  refine (secured_harmless harmless_reads.only_listOrgs False nofun).bind
    (fun orgs _ _ _ => ?_) fun _ _ _ _ => trivial
  refine (secured_findInvite orgs).bind (fun found s₁ _ known => ?_) fun _ _ _ _ => trivial
  cases found with
  | none => exact fun _ _ _ => trivial
  | some org =>
    refine (secured_harmless only_decodeAnswer _ (known org rfl)).bind (fun answer _ _ known => ?_)
      fun _ _ _ _ => trivial
    refine secure_ite (fun _ => ?_) fun _ => settle org answer known
    exact (secured_harmless harmless_reads.only_requireInviter _ known).bind
      (fun _ _ _ known => settle org answer known) fun _ _ _ _ => trivial

theorem eq_client (acts : who.ActsIn s org) (kind : who.kind = .clients)
    (named : who.name = name) : who = .client org name := by
  cases who with
  | user name' => cases kind
  | client own name' =>
    obtain rfl : org = own := acts
    obtain rfl : name' = name := named
    rfl

theorem secured_registerActor {env : Env} {enforceACL generate : Bool} {r : Request}
    {obj : Option Object} :
    Secured start who later label (fun _ _ => True)
      (registerActor env enforceACL r route.org route.segment name generate obj) s := by
  have apart : route.segment ∉ [groupsColl, groupMembersColl, assocReqColl] := by
    cases route with
    | users => exact (by decide : users ∉ [groupsColl, groupMembersColl, assocReqColl])
    | clients org => exact (by decide : clients ∉ [groupsColl, groupMembersColl, assocReqColl])
  have harmless : Harmless who (.create route.org route.segment name (mustEncode obj)) := apart
  refine secure_perform fun s₁ _ steady₁ _ => ⟨harmless.free s₁ steady₁ trivial, ?_⟩
  have created : who = principal route name →
      Present (s₁.create route.org route.segment name (mustEncode obj)).1 who := by
    rintro rfl
    obtain ⟨scope, segment, named⟩ := principal_record route name
    rw [Present, scope, segment, named]
    cases found : s₁.get route.org route.segment name with
    | none =>
      rw [create_of_none found, get_put, if_pos ⟨rfl, rfl, rfl⟩]
      rfl
    | some raw =>
      rw [create_of_isSome (by rw [found]; rfl), found]
      rfl
  refine (secured_harmless only_refuseIf _ created).bind (fun _ _ _ known => ?_) fun _ _ _ _ =>
    trivial
  have grant : (grantCreator enforceACL r route.org route.segment name).Only (Harmless who) :=
    only_grantCreator fun _ => (by decide : aclsColl ∉ [groupsColl, groupMembersColl, assocReqColl])
  refine (secured_harmless grant _ known).bind (fun _ s₂ _ known => ?_) fun _ _ _ _ => trivial
  suffices joins : Secured start who later label (fun _ _ => True)
      (joinClients enforceACL route.org route.segment name obj) s₂ from
    joins.bind (fun _ _ _ _ => fun _ _ _ => trivial) fun _ _ _ _ => trivial
  refine secure_ite (fun client => ?_) fun _ => fun _ _ _ => trivial
  intro t tolerated steady _
  refine ⟨fine_addMember (by decide) steady fun _ acts kind named => ?_, fun _ _ _ => trivial⟩
  refine present_of_tolerates tolerated (known ?_)
  cases route with
  | users => simp +decide at client
  | clients org => exact eq_client acts kind named

theorem secured_keepKnown {space : GoString} (names : List GoString) :
    Secured start who later label (fun outcome t => ∀ kept, outcome = .ok kept →
      (who.scope = space ∧ who.segment = coll) ∧ who.name ∈ kept → Present t who)
      (keepKnown space coll names) s := by
  induction names generalizing s with
  | nil =>
    rintro t - - kept same ⟨-, mem⟩
    obtain rfl := Except.ok.inj same
    cases mem
  | cons name names ih =>
    refine secure_perform fun s₁ _ steady₁ _ => ⟨harmless_reads.get.free s₁ steady₁ trivial, ?_⟩
    let known := (who.scope = space ∧ who.segment = coll ∧ who.name = name) ∧ (s₁.get space coll name).isSome
    have present : known → Present s₁ who := by
      rintro ⟨⟨rfl, rfl, rfl⟩, found⟩
      exact found
    refine (ih.keepKnowledge (harmless_reads.only_keepKnown names) known present).bind
      (fun rest s₂ _ both => ?_) fun _ _ _ _ _ failed => nomatch failed
    rintro t tolerated - kept same ⟨here, mem⟩
    refine present_of_tolerates tolerated ?_
    obtain rfl := Except.ok.inj same
    by_cases found : (s₁.get space coll name).isSome
    · replace mem : who.name ∈ name :: rest := (if_pos found : ite _ (name :: rest) rest = _) ▸ mem
      rcases List.mem_cons.mp mem with first | later
      · exact both.2 ⟨⟨here.1, here.2, first⟩, found⟩
      · exact both.1 rest rfl ⟨here, later⟩
    · replace mem : who.name ∈ rest := (if_neg found : ite _ (name :: rest) rest = _) ▸ mem
      exact both.1 rest rfl ⟨here, mem⟩

theorem secured_knownGroupMembers (m : MemberLists) :
    Secured start who later label (fun outcome t => ∀ known, outcome = .ok known →
      who.ActsIn s org ∧ who.name ∈ known.get who.kind → Present t who) (knownGroupMembers org m) s := by
  refine (secured_keepKnown m.users).bind
    (fun userNames s₁ _ usersKnown => ?_) fun _ _ _ _ _ failed => nomatch failed
  refine ((secured_keepKnown m.clients).keepKnowledge (harmless_reads.only_keepKnown _) _
    (usersKnown userNames rfl)).bind (fun clientNames s₂ _ both => ?_) fun _ _ _ _ _ failed => nomatch failed
  obtain ⟨clientsKnown, usersKnown⟩ := both
  refine (secured_harmless (harmless_reads.only_keepKnown _)
    (((who.scope = global ∧ who.segment = users) ∧ who.name ∈ userNames) ∨
      ((who.scope = org ∧ who.segment = clients) ∧ who.name ∈ clientNames)) ?_).bind
    (fun groupNames s₃ _ known => ?_) fun _ _ _ _ _ failed => nomatch failed
  · exact fun either => either.elim usersKnown (clientsKnown clientNames rfl)
  · rintro t tolerated - kept same ⟨acts, mem⟩
    obtain rfl := Except.ok.inj same
    refine present_of_tolerates tolerated (known ?_)
    cases who with
    | user name => exact .inl ⟨⟨rfl, rfl⟩, mem⟩
    | client own name =>
      obtain rfl : org = own := acts
      exact .inr ⟨⟨rfl, rfl⟩, mem⟩

theorem secured_updateGroup {r : Request} {obj : Members} :
    Secured start who later label (fun _ _ => True) (updateGroup r org name obj) s := by
  refine (secured_harmless harmless_reads.only_mustView False nofun).bind
    (fun _ _ _ _ => ?_) fun _ _ _ _ => trivial
  refine (secured_harmless harmless_reads.only_groupMembership False nofun).bind
    (fun current s₁ steady₁ _ => ?_)
    fun _ _ _ _ => trivial
  refine (secured_knownGroupMembers _).bind (fun m _ _ known => ?_) fun _ _ _ _ => trivial
  refine (secured_harmless (revokes_clearMembers.mono fun _ => harmless_of_revokes) _
    (known m rfl)).bind
    (fun _ _ _ known => ?_) fun _ _ _ _ => trivial
  refine secure_perform fun s₂ tolerated steady₂ _ =>
    ⟨fine_putGroup steady₂ fun _ acts absent mem => ?_, ?_⟩
  · have same : s₂.orgs = s₁.orgs := steady₂.orgs.trans steady₁.orgs.symm
    exact absent (present_of_tolerates tolerated (known ⟨(who.actsIn_congr same org).mp acts, mem⟩))
  · exact fun _ _ _ => trivial

def Unaware : StoreCall → Prop
  | .get _ coll _ => coll ≠ passwordsCollection
  | .create _ coll _ _ => coll ≠ passwordsCollection
  | .delete _ coll _ => coll ≠ passwordsCollection
  | .keys _ coll => coll ≠ passwordsCollection
  | .range _ coll => coll ≠ passwordsCollection
  | .createOrg _ => False
  | .deleteOrg _ => False
  | .putBlob .. => False
  | .hasBlob .. => False
  | .deleteBlob .. => False
  | _ => True

theorem objects_congr (same : ∀ key, t.get org coll key = s.get org coll key) :
    t.objects org coll = s.objects org coll :=
  Std.ExtTreeMap.ext_getElem? fun {key} => same key

theorem Undisturbed.put (undisturbed : Undisturbed s t) (org coll key : GoString) (val : Raw) :
    Undisturbed (s.put org coll key val) (t.put org coll key val) := by
  refine ⟨undisturbed.1, fun org' coll' key' other => ?_⟩
  rw [get_put, get_put, undisturbed.2 org' coll' key' other]

theorem Undisturbed.delete (undisturbed : Undisturbed s t) (org coll key : GoString) :
    Undisturbed (s.delete org coll key).1 (t.delete org coll key).1 := by
  have orgs (s : Store) : (s.delete org coll key).1.orgs = s.orgs :=
    orgs_exec (.delete org coll key) trivial s
  refine ⟨by rw [orgs, orgs, undisturbed.1], fun org' coll' key' other => ?_⟩
  rw [get_delete, get_delete, undisturbed.2 org' coll' key' other]

theorem Unaware.unnoticed (unaware : Unaware c) (undisturbed : Undisturbed s t) :
    (exec c t).1 = (exec c s).1 ∧ Undisturbed (exec c s).2 (exec c t).2 := by
  obtain ⟨orgs, gets⟩ := id undisturbed
  cases c with
  | get org coll key => exact ⟨gets org coll key unaware, undisturbed⟩
  | put org coll key val => exact ⟨rfl, undisturbed.put org coll key val⟩
  | create org coll key val =>
    simp only [exec, create, gets org coll key unaware]
    cases s.get org coll key with
    | none => exact ⟨rfl, undisturbed.put org coll key val⟩
    | some raw => exact ⟨rfl, undisturbed⟩
  | delete org coll key =>
    refine ⟨?_, undisturbed.delete org coll key⟩
    exact (delete_snd ..).trans ((gets org coll key unaware).trans (delete_snd ..).symm)
  | keys org coll =>
    have same : t.keys org coll = s.keys org coll := by
      rw [keys, objects_congr fun key => gets org coll key unaware, keys]
    exact ⟨same, undisturbed⟩
  | range org coll =>
    have same : t.objects org coll = s.objects org coll :=
      objects_congr fun key => gets org coll key unaware
    exact ⟨congrArg Std.ExtTreeMap.toList same, undisturbed⟩
  | listOrgs =>
    have same : t.listOrgs = s.listOrgs := by
      rw [Store.MemoryBackend.listOrgs, orgs, Store.MemoryBackend.listOrgs]
    exact ⟨same, undisturbed⟩
  | hasOrg name => exact ⟨hasOrg_congr orgs name, undisturbed⟩
  | _ => exact unaware.elim

theorem unaware_of_revokes (revokes : Revokes c) : Unaware c := by
  cases c with
  | delete org coll key =>
    rintro rfl
    exact revokes (by simp)
  | create | createOrg | deleteOrg | putBlob | hasBlob | deleteBlob => exact revokes.elim
  | put | listOrgs | hasOrg => trivial
  | _ => exact revokes

theorem unaware_revoking : Revoking fun _ h => h.Only Unaware := by
  refine ⟨only_modular _, fun only => only.mono fun _ => unaware_of_revokes, ?_⟩
  intro org kind actor name
  have reads : (Org.get org groupsColl name).Only Unaware :=
    only_perform (by decide : groupsColl ≠ passwordsCollection)
  refine reads.bind fun found => ?_
  split
  · exact only_pure _
  · exact only_put trivial

theorem guarded_removeFromGroupDoc (exclusive : label.shared = false) :
    Guarded exec lock (keeping start who later) label (removeFromGroupDoc org kind actor name) := by
  intro s _
  refine secure_perform fun s₁ _ steady₁ _ => ⟨harmless_reads.get.free s₁ steady₁ trivial, ?_⟩
  simp only [exec]
  cases found : s₁.get org groupsColl name with
  | none => exact fun _ _ _ => trivial
  | some raw =>
    simp only [Option.bind_some, revoked_eq]
    by_cases lists : actor ∈ (removerMembers raw).get kind
    · simp only [lists, if_true]
      intro s₂ tolerated steady₂ _
      refine ⟨fine_putGroup steady₂ fun holds acts absent mem => ?_, fun _ _ _ => trivial⟩
      have stored : s₂.get org groupsColl name = some raw :=
        (((tolerates_exclusive exclusive).mp tolerated).2 _ _ _ (by decide)).trans found
      have alike : ReadAlike raw := (steady₂.sound _ _ _ _ stored).1 rfl
      refine (steady₂.clean holds absent).docs org name raw acts stored ?_
      rw [← show removerMembers raw = indexMembers raw from alike]
      by_cases same : kind = who.kind
      · subst same
        rw [get_set_self] at mem
        exact (List.mem_filter.mp mem).1
      · rwa [get_set_of_ne _ _ same] at mem
    · simp only [lists, if_false]
      exact fun _ _ _ => trivial

theorem guarded_revoking (exclusive : label.shared = false) :
    Revoking fun _ h => Guarded exec lock (keeping start who later) label h :=
  ⟨guarded_modular .., fun only => (only.mono fun _ revokes => (harmless_of_revokes revokes).free).guarded,
    guarded_removeFromGroupDoc exclusive⟩

def clearActor (org segment name : GoString) : Handler Unit := do
  mustExist org segment name (lit "Cannot find " ++ segment ++ lit " " ++ name)
  cleanupActor org segment name

def dropRecord (r : Request) (org segment name : GoString) : Handler Response := do
  match ← Org.delete org segment name with
  | some raw => return .json 200 (enveloped segment org (actorView r raw))
  | none => cannotFind segment name

theorem scopedDelete_eq (r : Request) (org segment name : GoString) :
    scopedDelete r org segment name = clearActor org segment name >>= fun _ =>
      dropRecord r org segment name :=
  (bind_bind ..).symm

theorem clean_of_clearActor {r : Request} (sound : Every Sound s)
    (cleared : (clearActor who.scope who.segment who.name).run exec s = (.ok (), ended))
    (found : ended.get who.scope who.segment who.name = some raw) :
    Clean (ended.delete who.scope who.segment who.name).1 who := by
  have ran : (scopedDelete r who.scope who.segment who.name).run exec s =
      (.ok (.json 200 (enveloped who.segment who.scope (actorView r raw))),
        (ended.delete who.scope who.segment who.name).1) := by
    rw [scopedDelete_eq, run_bind_of_ok cleared, dropRecord, run_delete_bind, delete_snd, found]
    rfl
  exact (erased_of_ok ran).clean sound

theorem secured_clearActor (exclusive : label.shared = false) {segment : GoString}
    (plain : segment ≠ passwordsCollection) (steady : Steady start who later s) :
    Secured start who later label (fun outcome t => ∃ ended,
      (clearActor org segment name).run exec s = (outcome, ended) ∧ Undisturbed ended t)
      (clearActor org segment name) s := by
  have guarded : Guarded exec lock (keeping start who later) label (clearActor org segment name) := by
    refine (guarded_modular ..).bind ?_ fun _ => (guarded_revoking exclusive).cleanupActor
    exact (harmless_reads.only_mustExist.mono fun _ harmless => harmless.free).guarded
  have unaware : (clearActor org segment name).Only Unaware :=
    (only_mustExist_of_get plain).bind fun _ => unaware_revoking.cleanupActor
  refine ((guarded s steady).sequential (fun c unaware s t tolerated => ?_) unaware
    ((keeping start who later).refl label s)).mono fun outcome t _ ⟨_, ended, ran, tolerated⟩ =>
      ⟨ended, ran, (tolerates_exclusive exclusive).mp tolerated⟩
  rw [tolerates_exclusive exclusive] at tolerated ⊢
  exact unaware.unnoticed tolerated

def Establishes (who : Principal) : MembershipRequest → Except Response Response → Store → Prop
  | .deleteActor _ route name, .ok _, s => principal route name = who → Clean s who
  | _, _, _ => True

theorem fine_of_exclusive (exclusive : label.shared = false)
    (steady : Steady start who later (exec c s).2) :
    Fine exec lock (keeping start who later) True label c s :=
  ⟨steady, fun _ compatible _ => absurd (compatible trivial).1 (by simp [exclusive])⟩

theorem secured_dropRecord {r : Request} (actor : principal route name = who)
    (same : Undisturbed ended s)
    (clean : ∀ raw, ended.get who.scope who.segment who.name = some raw →
      Clean (ended.delete who.scope who.segment who.name).1 who) :
    Secured start who later (.deleteActor r route name) (Establishes who (.deleteActor r route name))
      (dropRecord r route.org route.segment name) s := by
  obtain ⟨scope, segment, named⟩ := principal_record route name
  rw [actor] at scope segment named
  rw [← scope, ← segment, ← named]
  refine secure_perform fun t tolerated steady _ => ?_
  have undisturbed : Undisturbed ended t := same.trans ((tolerates_exclusive rfl).mp tolerated)
  simp only [exec, delete_snd]
  cases found : t.get who.scope who.segment who.name with
  | none =>
    have unchanged : (t.delete who.scope who.segment who.name).1 = t := by
      rw [delete, found]
    have fine : Steady start who later (exec (.delete who.scope who.segment who.name) t).2 := by
      rw [exec, unchanged]
      exact steady
    exact ⟨fine_of_exclusive rfl fine, fun _ _ _ => trivial⟩
  | some raw =>
    have stored : ended.get who.scope who.segment who.name = some raw :=
      (undisturbed.2 _ _ _ (segment_ne who (by decide) (by decide))).symm.trans found
    have gone : Clean (t.delete who.scope who.segment who.name).1 who :=
      (undisturbed.delete ..).clean (clean raw stored)
    refine ⟨fine_of_exclusive rfl (steady.exec ⟨trivial, trivial⟩ fun _ _ => gone), ?_⟩
    exact fun u tolerated _ _ => Undisturbed.clean ((tolerates_exclusive rfl).mp tolerated) gone

theorem secured_scopedDelete {r : Request} (steady : Steady start who later s) :
    Secured start who later (.deleteActor r route name) (Establishes who (.deleteActor r route name))
      (scopedDelete r route.org route.segment name) s := by
  have plain : route.segment ≠ passwordsCollection := by
    cases route with
    | users => exact (by decide : users ≠ passwordsCollection)
    | clients org => exact (by decide : clients ≠ passwordsCollection)
  rw [scopedDelete_eq]
  refine (secured_clearActor rfl plain steady).bind
    (fun _ s₁ _ cleared => ?_) fun _ _ _ _ => trivial
  obtain ⟨ended, ran, same⟩ := cleared
  obtain ⟨scope, segment, named⟩ := principal_record route name
  by_cases actor : principal route name = who
  · refine secured_dropRecord actor same fun raw found => ?_
    rw [actor] at scope segment named
    rw [← scope, ← segment, ← named] at ran
    exact clean_of_clearActor (r := r) steady.sound ran found
  · have harmless : (dropRecord r route.org route.segment name).Only (Harmless who) := by
      refine (only_delete fun here => actor (principal_eq here.1 here.2.1 here.2.2)).bind
        (only_option (only_stop _) fun _ => ?_)
      exact only_pure _
    refine (secured_harmless harmless False nofun).mono fun outcome t _ _ => ?_
    cases outcome with
    | error response => trivial
    | ok response => exact fun same => absurd same actor

def Quiet : StoreCall → Prop
  | .put _ coll _ _ => coll = passwordsCollection
  | .create .. => False
  | .delete .. => False
  | .createOrg _ => False
  | .deleteOrg _ => False
  | .putBlob .. => False
  | .deleteBlob .. => False
  | _ => True

theorem quiet_reads : Reads Quiet := by
  constructor <;> exact trivial

theorem Quiet.undisturbed (quiet : Quiet c) (s : Store) : Undisturbed s (exec c s).2 := by
  cases c with
  | put org coll key val =>
    obtain rfl : coll = passwordsCollection := quiet
    exact ⟨rfl, fun _ _ _ other => get_put_of_ne other.symm⟩
  | create | delete | createOrg | deleteOrg | putBlob | deleteBlob => exact quiet.elim
  | _ => exact .refl s

theorem Quiet.harmless (quiet : Quiet c) : Harmless who c := by
  cases c with
  | put org coll key val =>
    obtain rfl : coll = passwordsCollection := quiet
    exact (by decide : passwordsCollection ∉ [groupsColl, groupMembersColl, assocReqColl])
  | create | delete | createOrg | deleteOrg | putBlob | deleteBlob => exact quiet.elim
  | _ => trivial

theorem Quiet.free (quiet : Quiet c) : Free exec lock (keeping start who later) False label c := by
  refine fun s steady _ => ⟨quiet.harmless.steady steady, fun other _ _ => ?_⟩
  have undisturbed : Undisturbed s (exec c s).2 := quiet.undisturbed s
  simp only [keeping]
  split
  · exact undisturbed.present_iff.mpr
  · exact undisturbed

theorem obeys_keeping [Unicode] (label : MembershipRequest) :
    Obeys exec lock (keeping start who later) label (Establishes who label) label.handler := by
  suffices both : label.handler.Only Quiet ∧ label.handler.Returns
      (Ending.Verified exec lock (keeping start who later) label (Establishes who label)) from
    ⟨both.1.mono fun _ => Quiet.free, both.2⟩
  cases label with
  | deleteActor r route name =>
    refine ⟨quiet_reads.only_scope.bind fun _ => only_pure _, ?_⟩
    exact Returns.bind (fun _ => returns_pure fun s steady _ => secured_scopedDelete steady) _
  | postActor env enforceACL r route =>
    refine ⟨quiet_reads.only_scope.bind fun _ => only_createBody.bind fun _ =>
      quiet_reads.only_actorNameCollision.bind fun _ => only_refuseWith.bind fun _ =>
      only_recordKey.bind fun _ => (only_stashPassword fun _ => rfl).bind fun _ => only_pure _, ?_⟩
    refine Returns.bind (fun _ => Returns.bind
      (fun _ => Returns.bind (fun _ => Returns.bind (fun _ =>
      Returns.bind (fun _ => Returns.bind (fun _ => returns_pure fun s _ _ => ?_) _) _) _) _) _) _
    exact secured_registerActor.mono fun _ _ _ _ => trivial
  | putGroup r org name =>
    refine ⟨quiet_reads.only_resolveOrg.bind fun _ => quiet_reads.only_mustView.bind fun _ =>
      only_decodeObjectBody.bind fun _ => only_pure _, ?_⟩
    refine Returns.bind (fun _ => Returns.bind
      (fun _ => Returns.bind (fun _ => returns_pure fun s _ _ => ?_) _) _) _
    exact secured_updateGroup.mono fun _ _ _ _ => trivial
  | associateUser r org =>
    refine ⟨quiet_reads.only_resolveOrg.bind fun _ => only_decodeBody.bind fun _ =>
      only_refuseIf.bind fun _ => only_pure _, ?_⟩
    refine Returns.bind (fun _ => Returns.bind
      (fun _ => Returns.bind (fun _ => returns_pure fun s _ _ => ?_) _) _) _
    exact secured_associateKnown.mono fun _ _ _ _ => trivial
  | respondInvite r user id =>
    refine ⟨only_requireInvitee.bind fun _ => only_pure _, ?_⟩
    refine Returns.bind (fun _ => returns_pure fun s _ _ => ?_) _
    exact secured_answerInvite.mono fun _ _ _ _ => trivial

/-- However requests interleave under the lock, once a deletion has succeeded no group names the
actor as long as there is none of that name. -/
theorem deleted_actor_stays_unnamed [Unicode]
    {traffic : Traffic MembershipRequest StoreCall.Result Response Response Store} {r : Request}
    {route : ActorRoute} {name : GoString} (written : Every Sound start)
    (reached : Traffic.Reaches exec lock handler start traffic)
    (deleted : Traffic.Succeeded (.deleteActor r route name) traffic)
    (absent : ¬ Present traffic.state (principal route name)) :
    ¬ Named traffic.state (principal route name) := by
  have steady : Steady start (principal route name) True traffic.state := by
    refine reached.established (fun ok => And.symm ok) (keeping start (principal route name) False)
      (keeping start (principal route name) True) obeys_keeping obeys_keeping (fun label compatible => ?_) ?_
      (fun _ s steady clean => ?_) ⟨written, rfl, nofun⟩ deleted
    · exact absurd compatible.1 (by simp [shared])
    · exact Returns.bind (fun _ => returns_pure ⟨_, rfl⟩) _
    · exact ⟨steady.sound, steady.orgs, fun _ _ => clean rfl⟩
  exact (steady.clean trivial absent).unnamed steady.sound

section Departure

instance : (lock : Rules MembershipRequest StoreCall Store).Checked :=
  inferInstanceAs (Rules.lock _).Checked

def staffed [Unicode] : Store :=
  ((associateUser (creates [(lit "username", .string leaver)]) acme).run exec
    ((createOrganizationWithKey plainEnv acme acme).run exec (joined externalUser)).2).2

theorem sound_staffed [Unicode] : Every Sound staffed :=
  sound_of_reachable (reachable_run (reachable_run (reachable_joined externalUser) (.provisionOrg plainEnv acme acme))
    (.associateUser _ acme))

def departs : MembershipRequest := .deleteActor (creates []) .users leaver

def retains : MembershipRequest :=
  .putGroup (creates [(lit "actors", .object [(lit "users", .array [.string leaver])])]) acme (lit "users")

def departure : List (Traffic.Event MembershipRequest) :=
  [.arrive retains, .move 0, .move 0, .arrive departs] ++ List.replicate 90 (.move 0) ++ List.replicate 90 (.move 1)

def departed [Unicode] : Traffic MembershipRequest StoreCall.Result Response Response Store :=
  Traffic.playAll exec lock handler staffed departure

theorem departed_user_stays_unnamed : letI : Unicode := ⟨id⟩
    Named staffed (.user leaver) ∧ Traffic.Succeeded departs departed ∧ Traffic.Succeeded retains departed ∧
      ¬ Named departed.state (.user leaver) := by
  let _ : Unicode := ⟨id⟩
  have reached : Traffic.Reaches exec lock handler staffed departed :=
    Traffic.reaches_play staffed departure
  have deleted : Traffic.Succeeded departs departed :=
    Traffic.succeeded_play 0 rfl (by decide +kernel)
  refine ⟨⟨acme, lit "users", ?_, .inl ⟨by decide, by decide, by decide +kernel⟩⟩, deleted,
    Traffic.succeeded_play 1 rfl (by decide +kernel), ?_⟩
  · exact (by decide +kernel : staffed.hasOrg acme = true)
  · have absent : ¬ (departed.state.get global users leaver).isSome := by decide +kernel
    exact deleted_actor_stays_unnamed sound_staffed reached deleted absent

end Departure

end CincServer.Proof.Api
