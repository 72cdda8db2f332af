import CincServer.Proof.Api.Membership

/-!
# Updates beside the deletion of an actor
-/

namespace CincServer.Proof.Api
open CincServer.Api CincServer.Json Go Lib Program
open Traffic (playAll succeeded_play reaches_play)

section Actors

open ActorRequest (lock handler)

variable {s t : Store} {who : Principal} {c : StoreCall} {org coll key name : GoString} {r : Request}

def Own (who : Principal) (org coll key : GoString) : Prop :=
  org = who.scope ∧ (coll = who.segment ∧ key = who.name ∨ coll = keysColl who.segment who.name)

def ActorGone (s : Store) (who : Principal) : Prop :=
  ∀ org coll key, Own who org coll key → s.get org coll key = none

def WritesOwn (who : Principal) : StoreCall → Prop
  | .put org coll key _ => Own who org coll key
  | .create org coll key _ => Own who org coll key
  | _ => False

def Shrinks (who : Principal) (s t : Store) : Prop :=
  ∀ org coll key, Own who org coll key → t.get org coll key = none ∨ t.get org coll key = s.get org coll key

theorem Shrinks.trans {u : Store} (first : Shrinks who s t) (second : Shrinks who t u) :
    Shrinks who s u := by
  intro org coll key own
  rcases second org coll key own with gone | same
  · exact .inl gone
  · exact (first org coll key own).imp same.trans same.trans

theorem Shrinks.gone (shrinks : Shrinks who s t) (gone : ActorGone s who) : ActorGone t who := by
  intro org coll key own
  exact (shrinks org coll key own).elim id fun same => same.trans (gone org coll key own)

theorem shrinks_exec (foreign : ¬ WritesOwn who c) (s : Store) : Shrinks who s (exec c s).2 := by
  intro org coll key own
  have elsewhere {org' coll' key' : GoString} {val : Raw} (foreign : ¬ Own who org' coll' key') :
      (s.put org' coll' key' val).get org coll key = s.get org coll key := by
    rw [get_put, if_neg]
    rintro ⟨rfl, rfl, rfl⟩
    exact foreign own
  cases c with
  | put org' coll' key' val => exact .inr (elsewhere foreign)
  | create org' coll' key' val =>
    simp only [exec, Store.MemoryBackend.create]
    split
    · exact .inr rfl
    · exact .inr (elsewhere foreign)
  | delete org' coll' key' =>
    simp only [exec, get_delete]
    split
    · exact .inl rfl
    · exact .inr rfl
  | createOrg name => exact .inr (Proof.Store.get_createOrg ..)
  | deleteOrg name =>
    simp only [exec, Proof.Store.get_deleteOrg]
    split
    · exact .inl rfl
    · exact .inr rfl
  | _ => exact .inr rfl

def Deletes (who : Principal) : ActorRequest → Prop
  | .delete _ route name => principal route name = who
  | _ => False

def Updates : ActorRequest → Prop
  | .delete .. => False
  | _ => True

/-- A write of an update to the actor's own is made while the actor exists and while no request is
deleting it. -/
def serialized (who : Principal) : Rules ActorRequest StoreCall Store :=
  { (lock : Rules ActorRequest StoreCall Store) with
    calls := fun label c s => Updates label → WritesOwn who c → Present s who
    beside := fun label c other => Updates label → WritesOwn who c → ¬ Deletes who other }

def leaving (who : Principal) (later : Prop) : Regime ActorRequest Store where
  inv s := later → ActorGone s who
  tolerates label s t := Deletes who label → Shrinks who s t
  refl _ _ _ := fun _ _ _ _ => .inr rfl
  trans _ _ _ _ first second deletes := (first deletes).trans (second deletes)

variable {later : Prop} {label : ActorRequest}

def Foreign (who : Principal) (c : StoreCall) : Prop := ¬ WritesOwn who c

theorem Foreign.free {within : Prop} (foreign : Foreign who c) :
    Free exec (serialized who) (leaving who later) within label c := fun s inv _ =>
  ⟨fun holds => (shrinks_exec foreign s).gone (inv holds), fun _ _ _ _ => shrinks_exec foreign s⟩

theorem free_update (updates : Updates label) (c : StoreCall) :
    Free exec (serialized who) (leaving who later) False label c := by
  by_cases own : WritesOwn who c
  · intro s inv ok
    refine ⟨fun holds => ?_, fun other _ beside deletes => absurd deletes (beside updates own)⟩
    have present : Present s who := ok updates own
    rw [Present, inv holds _ _ _ ⟨rfl, .inl ⟨rfl, rfl⟩⟩] at present
    cases present
  · exact Foreign.free own

theorem foreign_reads : Reads (Foreign who) := by
  constructor <;> exact id

theorem foreign_delete : Foreign who (.delete org coll key) := id

theorem foreign_put {val : Raw} (noRecord : who.segment ≠ coll) (noKeys : 0x3A ∉ coll) :
    Foreign who (.put org coll key val) := by
  rintro ⟨-, ⟨same, -⟩ | same⟩
  · exact noRecord same.symm
  · exact keysColl_ne_of_not_mem noKeys same.symm

theorem foreign_revoking : Revoking fun _ h => h.Only (Foreign who) := by
  refine ⟨only_modular _, fun only => only.mono fun c revokes => ?_, ?_⟩
  · cases c with
    | put org coll key val =>
      obtain rfl : coll = aclsColl := revokes
      exact foreign_put (segment_ne who (by decide) (by decide)) (by decide)
    | create => exact revokes.elim
    | _ => exact id
  · intro org kind actor name
    refine foreign_reads.only_get.bind fun found => ?_
    split
    · exact only_pure _
    · exact only_put (foreign_put (segment_ne who (by decide) (by decide)) (by decide))

abbrev SecuredActor (who : Principal) (later : Prop) (label : ActorRequest) {α : Type}
    (post : Except Response α → Store → Prop) (h : Handler α) (s : Store) : Prop :=
  Secure exec (serialized who) (leaving who later) label post h s

theorem secured_foreign {α : Type} {h : Handler α} (only : h.Only (Foreign who)) :
    SecuredActor who later label (fun _ _ => True) h s :=
  (only.mono fun _ foreign => foreign.free).secure s

def Keyless (s : Store) (who : Principal) : Prop :=
  ∀ key, s.get who.scope (keysColl who.segment who.name) key = none

theorem Shrinks.keyless (shrinks : Shrinks who s t) (keyless : Keyless s who) : Keyless t who :=
  fun key =>
  (shrinks _ _ key ⟨rfl, .inr rfl⟩).elim id fun same => same.trans (keyless key)

theorem secured_deleteAll (deletes : Deletes who label) (names : List GoString)
    (listed : ∀ key, (s.get who.scope (keysColl who.segment who.name) key).isSome → key ∈ names) :
    SecuredActor who later label (fun _ t => Keyless t who)
      (deleteAll who.scope (keysColl who.segment who.name) names) s := by
  induction names generalizing s with
  | nil =>
    intro t shrinks _
    refine (shrinks deletes).keyless fun key => ?_
    cases found : s.get who.scope (keysColl who.segment who.name) key with
    | none => rfl
    | some raw => cases listed key (by rw [found]; rfl)
  | cons name names ih =>
    have more : deleteAll who.scope (keysColl who.segment who.name) (name :: names) =
        Org.delete who.scope (keysColl who.segment who.name) name >>= fun _ =>
          deleteAll who.scope (keysColl who.segment who.name) names := rfl
    rw [more]
    refine secure_perform fun s' shrinks inv ok =>
      ⟨foreign_delete.free s' inv ok, ih fun key stored => ?_⟩
    simp only [exec, get_delete] at stored
    split at stored
    · cases stored
    · next other =>
      have before : (s.get who.scope (keysColl who.segment who.name) key).isSome := by
        rcases shrinks deletes _ _ key ⟨rfl, .inr rfl⟩ with gone | same
        · simp [gone] at stored
        · exact same ▸ stored
      exact (List.mem_cons.mp (listed key before)).resolve_left fun same =>
        other ⟨trivial, trivial, same.symm⟩

theorem secured_deleteActorKeys (deletes : Deletes who label) :
    SecuredActor who later label (fun _ t => Keyless t who)
      (deleteActorKeys who.scope who.segment who.name) s :=
  secure_perform fun s' _ inv ok => ⟨foreign_reads.keys.free s' inv ok,
    secured_deleteAll deletes _ fun _ stored => mem_keys.mpr stored⟩

theorem secured_cleanupActor (deletes : Deletes who label) :
    SecuredActor who later label (fun outcome t => outcome.isOk → Keyless t who)
      (cleanupActor who.scope who.segment who.name) s := by
  have own {s : Store} : SecuredActor who later label (fun outcome t => outcome.isOk → Keyless t who)
      (do deleteACL who.scope who.segment who.name; deleteActorKeys who.scope who.segment who.name) s :=
    (secured_foreign (foreign_revoking.calls revokes_deleteACL)).bind
      (fun _ _ _ _ => (secured_deleteActorKeys deletes).mono fun _ _ _ keyless _ => keyless) fun _ _ _ _ => nofun
  cases who with
  | user name => exact (secured_foreign foreign_revoking.removeUserFromOrgs).bind (fun _ _ _ _ => own) fun _ _ _ _ => nofun
  | client org name =>
    exact (secured_foreign (foreign_revoking.calls revokes_removeFromACLs)).bind (fun _ _ _ _ =>
      (secured_foreign foreign_revoking.removeActorFromAllGroups).bind (fun _ _ _ _ => own) fun _ _ _ _ => nofun)
      fun _ _ _ _ => nofun

def Leaves (who : Principal) (label : ActorRequest) (outcome : Except Response Response)
    (s : Store) : Prop :=
  Deletes who label → outcome.isOk → ActorGone s who

theorem secured_dropRecord_keyless (deletes : Deletes who label) (keyless : Keyless s who) :
    SecuredActor who later label (fun outcome t => outcome.isOk → ActorGone t who)
      (dropRecord r who.scope who.segment who.name) s := by
  refine secure_perform fun s' shrinks inv ok => ⟨foreign_delete.free s' inv ok, ?_⟩
  have gone : ActorGone (s'.delete who.scope who.segment who.name).1 who := by
    rintro org coll key ⟨rfl, ⟨rfl, rfl⟩ | rfl⟩
    · rw [get_delete, if_pos ⟨rfl, rfl, rfl⟩]
    · rw [get_delete, (shrinks deletes).keyless keyless key, ite_self]
  split
  · exact fun t shrinks' _ _ => (shrinks' deletes).gone gone
  · exact fun _ _ _ refused => nomatch refused

theorem foreign_dropRecord {segment : GoString} :
    (dropRecord r org segment name).Only (Foreign who) := by
  refine (only_delete foreign_delete).bind (only_option (only_stop _) fun _ => ?_)
  exact only_pure _

theorem secured_deletion {route : ActorRoute} :
    SecuredActor who later (.delete r route name) (Leaves who (.delete r route name))
      (scopedDelete r route.org route.segment name) s := by
  by_cases deletes : Deletes who (.delete r route name)
  · obtain ⟨scope, segment, named⟩ := principal_record route name
    rw [show principal route name = who from deletes] at scope segment named
    have same : scopedDelete r route.org route.segment name =
        clearActor who.scope who.segment who.name >>= fun _ =>
          dropRecord r who.scope who.segment who.name := by
      rw [scope, segment, named, scopedDelete_eq]
    have clears : SecuredActor who later (.delete r route name) (fun outcome t => outcome.isOk → Keyless t who)
        (clearActor who.scope who.segment who.name) s :=
      (secured_foreign foreign_reads.only_mustExist).bind (fun _ _ _ _ => secured_cleanupActor deletes)
        fun _ _ _ _ => nofun
    rw [same]
    refine clears.bind (fun _ _ _ keyless => ?_) fun _ _ _ _ _ => nofun
    exact (secured_dropRecord_keyless deletes (keyless rfl)).mono fun _ _ _ gone _ => gone
  · rw [scopedDelete_eq]
    have foreign : (clearActor route.org route.segment name).Only (Foreign who) :=
      foreign_reads.only_mustExist.bind fun _ => foreign_revoking.cleanupActor
    exact (secured_foreign (foreign.bind fun _ => foreign_dropRecord)).mono fun _ _ _ _ other =>
      absurd other deletes

theorem obeys_unlocked (label : ActorRequest) (updates : Updates label) (h : Handler Response) :
    Obeys exec (serialized who) (leaving who later) label (Leaves who label) (unlocked h) :=
  ⟨only_of_forall (free_update updates) _, Returns.bind (fun _ => returns_pure trivial) h⟩

theorem obeys_leaving [Unicode] (label : ActorRequest) :
    Obeys exec (serialized who) (leaving who later) label (Leaves who label) label.handler := by
  cases label with
  | delete r route name =>
    refine ⟨(foreign_reads.only_scope.bind fun _ => only_pure _).mono fun _ foreign => foreign.free, ?_⟩
    exact Returns.bind (fun _ => returns_pure fun s _ _ => secured_deletion) _
  | put env r route name => exact obeys_unlocked (.put env r route name) trivial _
  | addKey env r route name => exact obeys_unlocked (.addKey env r route name) trivial _
  | putKey env r route name keyName => exact obeys_unlocked (.putKey env r route name keyName) trivial _
  | deleteKey route name keyName => exact obeys_unlocked (.deleteKey route name keyName) trivial _

/-- However deletions and updates interleave, a deleted actor stays deleted, provided that updates
write the record and the keys of an actor that exists and that no request is deleting. -/
theorem deleted_actor_stays_deleted [Unicode] {start : Store}
    {traffic : Traffic ActorRequest StoreCall.Result Response Response Store} {r : Request}
    {route : ActorRoute}
    {name : GoString}
    (reached : Traffic.Reaches exec (serialized (principal route name)) handler start traffic)
    (deleted : Traffic.Succeeded (.delete r route name) traffic) :
    ActorGone traffic.state (principal route name) := by
  refine reached.established (fun compatible => False.elim compatible)
    (leaving (principal route name) False)
    (leaving (principal route name) True) obeys_leaving obeys_leaving (fun _ compatible => compatible) ?_
    (fun _ s _ gone => ?_) nofun deleted trivial
  · exact Returns.bind (fun _ => returns_pure ⟨_, rfl⟩) _
  · exact fun _ => gone rfl rfl

section Revival

instance : (lock : Rules ActorRequest StoreCall Store).Checked :=
  inferInstanceAs (Rules.lock _).Checked

instance (who : Principal) (org coll key : GoString) : Decidable (Own who org coll key) :=
  inferInstanceAs (Decidable (_ ∧ (_ ∧ _ ∨ _)))

instance (who : Principal) (c : StoreCall) : Decidable (WritesOwn who c) :=
  match c with
  | .put org coll key _ => inferInstanceAs (Decidable (Own who org coll key))
  | .create org coll key _ => inferInstanceAs (Decidable (Own who org coll key))
  | .get .. | .delete .. | .keys .. | .range .. | .listOrgs | .hasOrg _ | .createOrg _ | .deleteOrg _ | .putBlob ..
  | .hasBlob .. | .deleteBlob .. => .isFalse id

instance (who : Principal) (label : ActorRequest) : Decidable (Deletes who label) :=
  match label with
  | .delete _ route name => inferInstanceAs (Decidable (principal route name = who))
  | .put .. | .addKey .. | .putKey .. | .deleteKey .. => .isFalse id

instance (label : ActorRequest) : Decidable (Updates label) :=
  match label with
  | .delete .. => .isFalse id
  | .put .. | .addKey .. | .putKey .. | .deleteKey .. => .isTrue trivial

instance (who : Principal) : (serialized who).Checked where
  compatible _ _ := .isFalse id
  enters _ _ := .isTrue trivial
  calls label c s := inferInstanceAs (Decidable (Updates label → WritesOwn who c → (s.get _ _ _).isSome))
  beside label c other := inferInstanceAs (Decidable (Updates label → WritesOwn who c → ¬ Deletes who other))

def clientStore : Store :=
  (Store.newMemoryBackend.createOrg acme).1.put acme clients leaver
    (.document (.object [(lit "name", .string leaver), (lit "public_key", .string (lit "PEM"))]))

def removesClient : ActorRequest := .delete (creates []) (.clients acme) leaver

def updatesClient : ActorRequest :=
  .put plainEnv (creates [(lit "name", .string leaver)]) (.clients acme) leaver

def addsKey : ActorRequest :=
  .addKey plainEnv (creates [(lit "name", .string (lit "spare"))]) (.clients acme) leaver

def removedClient [Unicode] : Traffic ActorRequest StoreCall.Result Response Response Store :=
  playAll exec (serialized (.client acme leaver)) handler clientStore
    ([.arrive updatesClient] ++ List.replicate 10 (.move 0) ++ [.arrive addsKey] ++ List.replicate 10 (.move 0) ++
      [.arrive removesClient] ++ List.replicate 20 (.move 0))

theorem deleted_actor_stays_deleted_client : letI : Unicode := ⟨id⟩
    Traffic.Succeeded updatesClient removedClient ∧ Traffic.Succeeded addsKey removedClient ∧
      Traffic.Succeeded removesClient removedClient ∧ ActorGone removedClient.state (.client acme leaver) := by
  let _ : Unicode := ⟨id⟩
  have removed : Traffic.Succeeded removesClient removedClient :=
    succeeded_play 0 rfl (by decide +kernel)
  have reached : Traffic.Reaches exec (serialized (principal (.clients acme) leaver)) handler clientStore
      removedClient := reaches_play clientStore _
  exact ⟨succeeded_play 2 rfl
    (by decide +kernel), succeeded_play 1 rfl (by decide +kernel), removed,
    deleted_actor_stays_deleted reached removed⟩

def revivedClient [Unicode] : Traffic ActorRequest StoreCall.Result Response Response Store :=
  playAll exec lock handler clientStore
    ([.arrive updatesClient, .move 0, .move 0, .arrive addsKey, .move 0, .move 0, .arrive removesClient] ++
      List.replicate 20 (.move 0) ++ List.replicate 10 (.move 1) ++ List.replicate 10 (.move 2))

theorem updates_revive_client : letI : Unicode := ⟨id⟩
    Traffic.Reaches exec lock handler clientStore revivedClient ∧
      Traffic.Succeeded removesClient revivedClient ∧ Traffic.Succeeded addsKey revivedClient ∧
      Traffic.Succeeded updatesClient revivedClient ∧ (revivedClient.state.get acme clients leaver).isSome ∧
      (revivedClient.state.get acme (keysColl clients leaver) (lit "spare")).isSome ∧
      ¬ ActorGone revivedClient.state (.client acme leaver) := by
  let _ : Unicode := ⟨id⟩
  have stored : (revivedClient.state.get acme clients leaver).isSome := by decide +kernel
  refine ⟨reaches_play clientStore _, succeeded_play 0 rfl (by decide +kernel),
    succeeded_play 1 rfl (by decide +kernel), succeeded_play 2 rfl (by decide +kernel), stored,
    by decide +kernel, fun gone => ?_⟩
  rw [gone acme clients leaver ⟨rfl, .inl ⟨rfl, rfl⟩⟩] at stored
  cases stored

end Revival

end Actors

/-! ## Updates beside the deletion of a group -/

open GroupRequest (lock handler)

variable {s t : Store} {org group : GoString} {r : Request} {c : StoreCall} {org' name : GoString} {obj : Members}

theorem lockingDeleteGroup_rest (org name : GoString) :
    lockingDeleteGroup org name >>= Ending.rest = deleteGroup org name := by
  simp only [lockingDeleteGroup, bind_bind]
  rfl

def Bypasses (r : Request) : Prop := ∀ actor, r.actor = some actor → actor.isGlobalAdmin

theorem preread_of_bypasses (fresh : r.preread = none) (method : Method) (u : Url) :
    (authorizeRequest r method u).Returns fun handed => Bypasses r → handed.preread = none := by
  by_cases bypasses : Bypasses r
  · unfold authorizeRequest
    split
    · exact returns_pure fun _ => fresh
    · next actor requester =>
      rw [if_pos (bypasses actor requester)]
      exact returns_pure fun _ => fresh
  · exact returns_of_forall (fun _ passes => absurd passes bypasses) _

structure GroupGone (s : Store) (org group : GoString) : Prop where
  doc : s.get org groupsColl group = none
  members : ∀ kind member, ¬ Row s org group kind member
  nested : ∀ parent, ¬ Row s org parent .groups group

theorem GroupGone.of_le (gone : GroupGone s org group) (doc : t.get org groupsColl group = none)
    (fewer : ∀ key, t.get org groupMembersColl key = none ∨
      t.get org groupMembersColl key = s.get org groupMembersColl key) : GroupGone t org group := by
  have row {parent member : GoString} {kind : MemberKind} (stored : Row t org parent kind member) :
      Row s org parent kind member := by
    obtain ⟨noGroup, noMember, found⟩ := stored
    rcases fewer (memberKey parent kind.name member) with absent | same
    · simp [absent] at found
    · exact ⟨noGroup, noMember, same ▸ found⟩
  exact ⟨doc, fun kind member stored => gone.members kind member (row stored),
    fun parent stored => gone.nested parent (row stored)⟩

theorem groupGone_of_ok {response : Response}
    (ran : (deleteKnownGroup org group).run exec s = (.ok response, t)) :
    GroupGone t org group := by
  rw [deleteKnownGroup] at ran
  obtain ⟨_, s', found, rest⟩ := run_bind_ok.mp ran
  obtain rfl : s' = s := mustExist_ok found
  obtain ⟨s₁, acls, -⟩ := removeFromACLs_get org (lit "groups") group s'
  obtain ⟨s₂, revoked, without⟩ := removeActorFromAllGroups_ok org .groups group s₁
  obtain ⟨s₃, cleared, gets⟩ := clearMembers_get org group s₂
  have own : (deleteACL org groupsColl group).run exec s₃ =
      (.ok (), (s₃.delete org aclsColl (aclKey groupsColl group)).1) := rfl
  rw [run_bind_of_ok acls, run_bind_of_ok revoked, run_bind_of_ok cleared, run_bind_of_ok own,
    run_delete_bind] at rest
  obtain rfl : t = ((s₃.delete org aclsColl (aclKey groupsColl group)).1.delete org groupsColl group).1 := by
    split at rest
    · exact (Prod.mk.inj rest).2.symm
    · cases (Prod.mk.inj rest).1
  have row {parent member : GoString} {kind : MemberKind}
      (stored : Row ((s₃.delete org aclsColl (aclKey groupsColl group)).1.delete org groupsColl group).1
        org parent kind member) : Row s₃ org parent kind member := by
    simpa +decide [Row, get_delete] using stored
  refine ⟨by rw [get_delete, if_pos ⟨rfl, rfl, rfl⟩], fun kind member stored => ?_,
    fun parent stored => ?_⟩
  · obtain ⟨-, -, present⟩ := row stored
    rw [gets, if_pos ⟨rfl, rfl, kind.name ++ 0 :: member, by simp [memberKey]⟩] at present
    cases present
  · obtain ⟨noGroup, noMember, present⟩ := row stored
    rw [gets] at present
    split at present
    · cases present
    · exact (without.row.mp ⟨noGroup, noMember, present⟩).2 ⟨rfl, rfl⟩

def vanished (org group : GoString) (later : Prop) : Regime GroupRequest Store :=
  .still fun s => later → GroupGone s org group

def Vanishes (org group : GoString) : GroupRequest → Except Response Response → Store → Prop
  | .delete _ _ org' name, .ok _, s => org' = org ∧ name = group → GroupGone s org group
  | _, _, _ => True

def Rechecks (org group : GoString) : GroupRequest → Store → Prop
  | .put r _ org' name, s => org' = org ∧ name = group → Bypasses r ∨ (s.get org groupsColl group).isSome
  | .delete .., _ => True

def rechecked (org group : GoString) : Rules GroupRequest StoreCall Store :=
  { lock with enters := Rechecks org group }

variable {later : Prop} {label : GroupRequest}

theorem ReadOnly.free (readOnly : ReadOnly c) :
    Free Api.exec (rechecked org group) (vanished org group later) False label c := by
  refine fun s inv _ => ⟨?_, fun _ _ _ => readOnly.exec s⟩
  rw [readOnly.exec]
  exact inv

def Spares (org group : GoString) : StoreCall → Prop
  | .put org' coll key _ => coll ≠ groupMembersColl ∧ ¬ (org' = org ∧ coll = groupsColl ∧ key = group)
  | .create .. => False
  | .createOrg _ => False
  | .deleteOrg _ => False
  | _ => True

theorem spares_reads : Reads (Spares org group) := by
  constructor <;> exact trivial

theorem spares_of_revokes (revokes : Revokes c) : Spares org group c := by
  cases c with
  | put org' coll key val =>
    obtain rfl : coll = aclsColl := revokes
    exact ⟨by decide, fun here => absurd here.2.1 (by decide)⟩
  | create | createOrg | deleteOrg | putBlob | hasBlob | deleteBlob => exact revokes.elim
  | _ => trivial

theorem Spares.gone (spares : Spares org group c) (gone : GroupGone s org group) :
    GroupGone (exec c s).2 org group := by
  cases c with
  | put org' coll key val =>
    refine gone.of_le ?_ fun key => .inr (get_put_of_ne spares.1)
    rw [exec, get_put, if_neg spares.2]
    exact gone.doc
  | delete org' coll key =>
    refine gone.of_le ?_ fun key => ?_
    · rw [exec, get_delete, gone.doc, ite_self]
    · rw [exec, get_delete]
      split
      · exact .inl rfl
      · exact .inr rfl
  | create | createOrg | deleteOrg => exact spares.elim
  | putBlob | deleteBlob => exact gone.of_le gone.doc fun _ => .inr rfl
  | _ => exact gone

theorem fine_within (gone : later → GroupGone (exec c s).2 org group) :
    Fine exec (rechecked org group) (vanished org group later) True label c s :=
  ⟨gone, fun _ compatible _ => (compatible trivial).elim⟩

theorem Spares.free (spares : Spares org group c) :
    Free exec (rechecked org group) (vanished org group later) True label c := fun _ inv _ =>
  fine_within fun holds => spares.gone (inv holds)

theorem vanished_revoking :
    Revoking fun _ h => Guarded exec (rechecked org group) (vanished org group later) label h := by
  refine ⟨guarded_modular ..,
    fun only => (only.mono fun _ revokes => (spares_of_revokes revokes).free).guarded, ?_⟩
  intro org' kind actor name s _
  refine secure_perform fun s₁ _ inv₁ _ => ⟨spares_reads.get.free s₁ inv₁ trivial, ?_⟩
  split
  · exact fun _ _ _ => trivial
  · next doc revised =>
    intro s₂ _ inv₂ _
    refine ⟨fine_within fun holds => ?_, fun _ _ _ => trivial⟩
    have spares : Spares org group (.put org' groupsColl name doc) := by
      refine ⟨by decide, ?_⟩
      rintro ⟨rfl, -, rfl⟩
      rw [show (exec (.get org' groupsColl name) s₁).1 = none from (inv₁ holds).doc] at revised
      cases revised
    exact spares.gone (inv₂ holds)

theorem guarded_spares {α : Type} {h : Handler α} (only : h.Only (Spares org group)) :
    Guarded exec (rechecked org group) (vanished org group later) label h :=
  (only.mono fun _ spares => spares.free).guarded

theorem guarded_deleteKnownGroup :
    Guarded exec (rechecked org group) (vanished org group later) label (deleteKnownGroup org' name) := by
  have revoking : Revoking fun _ h =>
    Guarded exec (rechecked org group) (vanished org group later) label h :=
    vanished_revoking
  refine revoking.bind (guarded_spares spares_reads.only_mustExist) fun _ =>
    revoking.bind (revoking.calls revokes_removeFromACLs) fun _ =>
    revoking.bind revoking.removeActorFromAllGroups fun _ =>
    revoking.bind (revoking.calls revokes_clearMembers) fun _ =>
    revoking.bind (revoking.calls revokes_deleteACL) fun _ => guarded_spares ?_
  refine (only_delete trivial).bind (only_option (only_stop _) fun _ => ?_)
  exact only_pure _

theorem secured_deleteKnownGroup {u : Url} (inv : (vanished org group later).inv s) :
    Secure exec (rechecked org group) (vanished org group later) (.delete r u org' name)
      (Vanishes org group (.delete r u org' name)) (deleteKnownGroup org' name) s := by
  refine (guarded_deleteKnownGroup s inv).alone.mono fun outcome t _ ended => ?_
  cases outcome with
  | error response => trivial
  | ok response =>
    rintro ⟨rfl, rfl⟩
    exact groupGone_of_ok ended.2

theorem secured_updateGroup_gone (fresh : r.preread = none) (holds : later) :
    Guarded exec (rechecked org group) (vanished org group later) label (updateGroup r org group obj) := by
  have view : viewObject r org groupsColl group = Org.get org groupsColl group := by
    rw [viewObject, fresh]
  have refused : mustView r org groupsColl group (lit "Cannot find groups " ++ group) =
      Org.get org groupsColl group >>= fun found =>
        refuseIf found.isNone 404 (lit "Cannot find groups " ++ group) := by
    rw [mustView, view]
  intro s _
  rw [updateGroup, refused, bind_bind]
  refine secure_perform fun s' _ inv _ => ⟨spares_reads.get.free s' inv trivial, ?_⟩
  simp only [exec, (inv holds).doc]
  exact fun _ _ _ => trivial

theorem guarded_updateGroup (other : ¬ (org' = org ∧ name = group)) :
    Guarded exec (rechecked org group) (vanished org group later) label (updateGroup r org' name obj) := by
  refine guarded_spares (spares_reads.only_mustView.bind fun _ => spares_reads.only_groupMembership.bind fun _ =>
    (spares_reads.only_knownGroupMembers _).bind fun _ =>
    (revokes_clearMembers.mono fun _ => spares_of_revokes).bind fun _ => (only_put ?_).bind fun _ => only_pure _)
  exact ⟨by decide, fun here => other ⟨here.1, here.2.2⟩⟩

theorem secured_updateGroup_rechecked {handed : Request} {u : Url}
    (fresh : Bypasses r → handed.preread = none) (inv : (vanished org group later).inv s)
    (enters : Rechecks org group (.put r u org' name) s) :
    Secure exec (rechecked org group) (vanished org group later) label (fun _ _ => True)
      (updateGroup handed org' name obj) s := by
  by_cases holds : later
  · by_cases here : org' = org ∧ name = group
    · obtain ⟨rfl, rfl⟩ := here
      rcases enters ⟨rfl, rfl⟩ with bypasses | present
      · exact secured_updateGroup_gone (fresh bypasses) holds s inv
      · rw [(inv holds).doc] at present
        cases present
    · exact guarded_updateGroup here s inv
  · refine Program.Only.secure
      (only_of_forall (fun c s _ _ => fine_within fun later => absurd later holds) _) s

theorem obeys_vanished (label : GroupRequest) :
    Obeys exec (rechecked org group) (vanished org group later) label (Vanishes org group label) label.handler := by
  suffices both : label.handler.Only ReadOnly ∧ label.handler.Returns
      (Ending.Verified exec (rechecked org group) (vanished org group later) label (Vanishes org group label)) from
    ⟨both.1.mono fun _ => ReadOnly.free, both.2⟩
  cases label with
  | put r u org' name =>
    refine ⟨readOnly_reads.only_authorizeRequest.bind fun _ => readOnly_reads.only_resolveOrg.bind fun _ =>
      readOnly_reads.only_mustView.bind fun _ => only_decodeObjectBody.bind fun _ => only_pure _, ?_⟩
    refine (preread_of_bypasses rfl .put u).then fun _ fresh =>
      Returns.bind (fun _ => Returns.bind (fun _ => Returns.bind (fun _ =>
      returns_pure fun s inv enters => ?_) _) _) _
    exact (secured_updateGroup_rechecked (u := u) fresh inv enters).mono fun _ _ _ _ => trivial
  | delete r u org' name =>
    refine ⟨readOnly_reads.only_authorizeRequest.bind fun _ => readOnly_reads.only_resolveOrg.bind fun _ =>
      only_pure _, ?_⟩
    exact Returns.bind (fun _ => Returns.bind
      (fun _ => returns_pure fun s inv _ => secured_deleteKnownGroup inv) _) _

/-- However updates and deletions interleave, a deleted group stays deleted, provided that an update
takes the lock while there is the group it was authorized for. -/
theorem deleted_group_stays_deleted {start : Store}
    {traffic : Traffic GroupRequest StoreCall.Result Response Response Store}
    {r : Request} {u : Url}
    (reached : Traffic.Reaches exec (rechecked org group) handler start traffic)
    (deleted : Traffic.Succeeded (.delete r u org group) traffic) :
    GroupGone traffic.state org group := by
  refine reached.established (fun compatible => False.elim compatible) (vanished org group False)
    (vanished org group True) obeys_vanished obeys_vanished (fun _ compatible => compatible) ?_ (fun _ s _ gone => ?_)
    nofun deleted trivial
  · exact Returns.bind (fun _ => Returns.bind (fun _ => returns_pure ⟨_, rfl⟩) _) _
  · exact fun _ => gone ⟨rfl, rfl⟩

section Revival

instance : (lock : Rules GroupRequest StoreCall Store).Checked :=
  inferInstanceAs (Rules.lock _).Checked

instance (r : Request) : Decidable (Bypasses r) :=
  match requester : r.actor with
  | none => .isTrue fun _ found => nomatch requester.symm.trans found
  | some actor => decidable_of_iff (actor.isGlobalAdmin = true)
      ⟨fun admin _ found => Option.some.inj (requester.symm.trans found) ▸ admin, fun bypasses => bypasses actor requester⟩

instance (org group : GoString) : (rechecked org group).Checked where
  compatible _ _ := .isFalse id
  enters label _ := match label with
    | .put r _ org' name => inferInstanceAs (Decidable (org' = org ∧ name = group → Bypasses r ∨ _))
    | .delete .. => .isTrue trivial
  calls _ _ _ := .isTrue trivial
  beside _ _ _ := .isTrue trivial

def opsTeam : Store :=
  ((Store.newMemoryBackend.createOrg acme).1.put acme groupsColl ops (groupJSON ops [] .none)).put acme aclsColl
    (aclKey groupsColl ops) (mustEncode (some (aclOf (fun _ => []) [alice])))

def opsUrl : Url := ⟨lit "/organizations/acme/groups/ops", []⟩

def aliceSends : Request where
  actor := some ⟨alice, false, false, false⟩
  apiVersion := 1
  body := .document (.object [])
  baseURL := lit "https://chef.example.com"

def updates : GroupRequest := .put aliceSends opsUrl acme ops

def disbands : GroupRequest := .delete aliceSends opsUrl acme ops

def disbanded : Traffic GroupRequest StoreCall.Result Response Response Store :=
  Traffic.playAll exec (rechecked acme ops) handler opsTeam
    ([.arrive updates] ++ List.replicate 20 (.move 0) ++ [.arrive disbands] ++ List.replicate 20 (.move 0))

theorem deleted_group_stays_deleted_ops :
    Traffic.Succeeded updates disbanded ∧ Traffic.Succeeded disbands disbanded ∧
      GroupGone disbanded.state acme ops := by
  have updated : Traffic.Succeeded updates disbanded :=
    Traffic.succeeded_play 1 rfl (by decide +kernel)
  have deleted : Traffic.Succeeded disbands disbanded :=
    Traffic.succeeded_play 0 rfl (by decide +kernel)
  exact ⟨updated, deleted, deleted_group_stays_deleted (Traffic.reaches_play opsTeam _) deleted⟩

def revived : Traffic GroupRequest StoreCall.Result Response Response Store :=
  Traffic.playAll exec lock handler opsTeam
    ([.arrive updates, .move 0, .move 0, .move 0, .arrive disbands] ++ List.replicate 20 (.move 0) ++
      List.replicate 12 (.move 1))

theorem update_revives_group : Traffic.Reaches exec lock handler opsTeam revived ∧
      Traffic.Succeeded updates revived ∧ Traffic.Succeeded disbands revived ∧
      (revived.state.get acme groupsColl ops).isSome ∧ ¬ GroupGone revived.state acme ops := by
  have stored : (revived.state.get acme groupsColl ops).isSome := by decide +kernel
  refine ⟨Traffic.reaches_play opsTeam _, Traffic.succeeded_play 1 rfl (by decide +kernel),
    Traffic.succeeded_play 0 rfl (by decide +kernel), stored, fun gone => ?_⟩
  rw [gone.doc] at stored
  cases stored

end Revival

end CincServer.Proof.Api
