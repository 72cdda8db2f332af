import CincServer.Proof.Api.ActorNames
import CincServer.Proof.Api.MembershipReaders

/-!
# The members of groups
-/

namespace CincServer.Proof.Api
open CincServer.Api CincServer.Json Proof.Decoding Go Lib Program

variable {before s t : Store} {org coll group key name member : GoString} {kind : MemberKind} {r : Request}
  {raw : Raw} {f : Footprint} {space actor : GoString} {m : MemberLists} {kind' : MemberKind}
  {user : GoString} {who : Principal} {env : Env} {enforceACL : Bool} {request : ApiRequest}

def Known (s : Store) (org : GoString) : MemberKind → GoString → Prop
  | .users, name => (s.get global users name).isSome
  | .clients, name => (s.get org clients name).isSome
  | .groups, name => (s.get org groupsColl name).isSome

theorem Known.mono (known : Known s org kind name)
    (grows : ∀ {org coll key}, coll ∈ [users, clients, groupsColl] →
    (s.get org coll key).isSome → (t.get org coll key).isSome) : Known t org kind name := by
  cases kind with
  | _ => exact grows (by simp) known

/-- The member is there before, or enters the group by its own creation: a client the group of all
clients, a group itself, a default group another one of the new organization. -/
def Enters (before : Store) (org group : GoString) (kind : MemberKind) (member : GoString) : Prop :=
  Known before org kind member ∨ kind = .clients ∧ group = lit "clients" ∨ kind = .groups ∧ group = member ∨
    before.hasOrg org = false

structure Recorded (before s : Store) (org coll key : GoString) (raw : Raw) : Prop where
  doc : coll = groupsColl → ∀ kind member, member ∈ (removerMembers raw).get kind →
    Known s org kind member ∧ Enters before org key kind member
  row : coll = groupMembersColl → ∀ group kind member, splitMemberKey key = some (group, MemberKind.name kind, member) →
    Known s org kind member ∧ Enters before org group kind member
  invite : coll = assocReqColl → ∃ user inviter, key = inviteID user org ∧ raw = inviteDoc user org inviter ∧
    Known s org .users user

def AllKnown (before s : Store) : Prop :=
  ∀ org coll key raw, s.hasOrg org → s.get org coll key = some raw → Recorded before s org coll key raw

theorem recorded_elsewhere (other : coll ∉ [groupsColl, groupMembersColl, assocReqColl]) :
    Recorded before s org coll key raw := by
  constructor <;> rintro rfl <;> exact absurd (by simp) other

theorem recorded_doc (known : ∀ kind member, member ∈ (removerMembers raw).get kind →
    Known s org kind member ∧ Enters before org group kind member) : Recorded before s org groupsColl group raw :=
  ⟨fun _ => known, fun same => absurd same (by decide), fun same => absurd same (by decide)⟩

theorem recorded_row (known : ∀ group kind member, splitMemberKey key = some (group, MemberKind.name kind, member) →
    Known s org kind member ∧ Enters before org group kind member) : Recorded before s org groupMembersColl key raw :=
  ⟨fun same => absurd same (by decide), fun _ => known, fun same => absurd same (by decide)⟩

theorem Recorded.mono (recorded : Recorded before s org coll key raw)
    (still : ∀ kind name, Known s org kind name → Known t org kind name) :
    Recorded before t org coll key raw where
  doc same kind member lists := (recorded.doc same kind member lists).imp_left (still kind member)
  row same group kind member split := (recorded.row same group kind member split).imp_left (still kind member)
  invite same :=
    let ⟨user, inviter, id, doc, known⟩ := recorded.invite same
    ⟨user, inviter, id, doc, still .users user known⟩

theorem AllKnown.renew (all : AllKnown before s) : AllKnown s s := by
  intro org coll key raw present found
  have recorded := all org coll key raw present found
  refine ⟨fun same kind member lists => ?_, fun same group kind member split => ?_, recorded.invite⟩
  · have known := (recorded.doc same kind member lists).1
    exact ⟨known, .inl known⟩
  · have known := (recorded.row same group kind member split).1
    exact ⟨known, .inl known⟩

abbrev Uninvolved (f : Footprint) : Prop :=
  groupsColl ∉ f.puts ∧ groupMembersColl ∉ f.puts ∧ assocReqColl ∉ f.puts ∧
    users ∉ f.deletes ∧ clients ∉ f.deletes ∧ groupsColl ∉ f.deletes

theorem Known.frame (known : Known s org kind name) (frame : Frame space f s t)
    (kept : users ∉ f.deletes ∧ clients ∉ f.deletes ∧ groupsColl ∉ f.deletes) :
    Known t org kind name := by
  refine known.mono fun {org coll key} mem found => ?_
  have noDelete : coll ∉ f.deletes := by
    simp only [List.mem_cons, List.not_mem_nil, or_false] at mem
    rcases mem with rfl | rfl | rfl
    · exact kept.1
    · exact kept.2.1
    · exact kept.2.2
  exact frame.grows noDelete found

theorem AllKnown.frame (all : AllKnown before s) (uninvolved : Uninvolved f)
    (frame : Frame space f s t) : AllKnown before t := by
  obtain ⟨noDocs, noRows, noInvites, kept⟩ := uninvolved
  intro org coll key raw present found
  rw [frame.hasOrg] at present
  by_cases names : coll ∈ [groupsColl, groupMembersColl, assocReqColl]
  · have noPut : coll ∉ f.puts := by
      simp only [List.mem_cons, List.not_mem_nil, or_false] at names
      rcases names with rfl | rfl | rfl
      · exact noDocs
      · exact noRows
      · exact noInvites
    exact (all org coll key raw present (frame.stored noPut found)).mono fun _ _ known =>
      known.frame frame kept
  · exact recorded_elsewhere names

theorem Known.put (known : Known s org kind name) :
    Known (s.put space coll key raw) org kind name :=
  known.frame (frame_put_one s) (by simp)

theorem known_put_group : Known (s.put org groupsColl group raw) org .groups group := by
  simp [Known, get_put]

theorem AllKnown.put (all : AllKnown before s)
    (ok : Recorded before (s.put space coll key raw) space coll key raw) :
    AllKnown before (s.put space coll key raw) := by
  intro org coll' key' raw' present found
  rw [get_put] at found
  split_ifs at found with here
  · obtain ⟨rfl, rfl, rfl⟩ := here
    obtain rfl := Option.some.inj found
    exact ok
  · exact (all org coll' key' raw' present found).mono fun _ _ known => known.put

theorem splitMemberKey_memberKey {kindName first kindName' member' : GoString}
    (noGroup : 0 ∉ group) (noKind : 0 ∉ kindName)
    (split : splitMemberKey (memberKey group kindName member) = some (first, kindName', member')) :
    group = first ∧ kindName = kindName' ∧ member = member' := by
  obtain ⟨same, noFirst, noKind', -⟩ := splitMemberKey_eq_some.mp split
  have same : group ++ 0 :: (kindName ++ 0 :: member) =
      first ++ 0 :: (kindName' ++ 0 :: member') := by
    simpa [memberKey] using same
  rcases separator_prefix noFirst same with ⟨rfl, rest⟩ | ⟨behind, rfl, -⟩
  · rcases separator_prefix noKind' rest with ⟨rfl, rfl⟩ | ⟨behind, rfl, -⟩
    · exact ⟨rfl, rfl, rfl⟩
    · exact absurd (by simp) noKind
  · exact absurd (by simp) noGroup

theorem AllKnown.addMember (all : AllKnown before s) (noGroup : 0 ∉ group)
    (known : Known s org kind member)
    (enters : Enters before org group kind member) :
    AllKnown before (s.put org groupMembersColl (memberKey group kind.name member) raw) := by
  refine all.put (recorded_row fun first kind' member' split => ?_)
  obtain ⟨rfl, kinds, rfl⟩ := splitMemberKey_memberKey noGroup (kind_no_separator kind) split
  obtain rfl := kind_name_inj kinds
  exact ⟨known.put, enters⟩

theorem AllKnown.putDoc (all : AllKnown before s)
    (known : ∀ kind, ∀ member ∈ m.get kind, (Known s org kind member ∨ kind = .groups ∧ group = member) ∧
      Enters before org group kind member) :
    AllKnown before (s.put org groupsColl group (groupJSON group [] m)) := by
  refine all.put (recorded_doc fun kind member lists => ?_)
  rw [removerMembers_groupJSON] at lists
  obtain ⟨there | ⟨rfl, rfl⟩, enters⟩ := known kind member lists
  · exact ⟨there.put, enters⟩
  · exact ⟨known_put_group, enters⟩

theorem AllKnown.invite (all : AllKnown before s) {inviter : GoString}
    (known : Known s org .users user) :
    AllKnown before (s.put org assocReqColl (inviteID user org) (inviteDoc user org inviter)) :=
  all.put ⟨fun same => absurd same (by decide), fun same => absurd same (by decide),
    fun _ => ⟨user, inviter, rfl, rfl, known.put⟩⟩

theorem mem_removerMembers_revise :
    member ∈ (removerMembers (revise kind' actor group raw)).get kind ↔
      member ∈ (removerMembers raw).get kind ∧ ¬ (kind = kind' ∧ member = actor) := by
  rw [revise, revoked_eq]
  split_ifs with lists
  · rw [Option.getD_some, removerMembers_groupJSON]
    by_cases same : kind' = kind
    · subst same
      simp [get_set_self, without]
    · simp [get_set_of_ne _ _ same, Ne.symm same]
  · rw [Option.getD_none]
    refine ⟨fun mem => ⟨mem, ?_⟩, And.left⟩
    rintro ⟨rfl, rfl⟩
    exact lists mem

theorem WithoutMember.known (after : WithoutMember space kind' actor s t)
    (known : Known s org kind name) : Known t org kind name := by
  refine known.mono fun {org coll key} mem found => ?_
  have noRow : groupMembersColl ≠ coll := by
    rintro rfl
    revert mem
    decide
  rw [after, if_neg fun row => noRow row.2.1]
  split
  · simpa using found
  · exact found

theorem AllKnown.without (all : AllKnown before s) (orgs : t.orgs = s.orgs)
    (after : WithoutMember space kind' actor s t) : AllKnown before t := by
  intro org coll key raw present found
  rw [hasOrg_congr orgs] at present
  rw [after] at found
  split_ifs at found with row doc
  · obtain ⟨rfl, rfl⟩ := doc
    obtain ⟨old, stored, rfl⟩ := Option.map_eq_some_iff.mp found
    refine recorded_doc fun kind member lists => ?_
    have recorded := (all _ _ _ _ present stored).doc rfl kind member (mem_removerMembers_revise.mp lists).1
    exact recorded.imp_left after.known
  · exact (all _ _ _ _ present found).mono fun _ _ => after.known

structure Unlisted (s : Store) (org group : GoString) : Prop where
  docs : ∀ name raw, s.get org groupsColl name = some raw → group ∉ (removerMembers raw).get .groups
  rows : ∀ key raw first, s.get org groupMembersColl key = some raw →
    splitMemberKey key ≠ some (first, MemberKind.groups.name, group)

theorem WithoutMember.unlisted (after : WithoutMember org .groups group s t) :
    Unlisted t org group where
  docs name raw found lists := by
    rw [after.doc] at found
    obtain ⟨old, -, rfl⟩ := Option.map_eq_some_iff.mp found
    exact (mem_removerMembers_revise.mp lists).2 ⟨rfl, rfl⟩
  rows key raw first found split := by
    obtain ⟨rfl, noFirst, noKind, noGroup⟩ := splitMemberKey_eq_some.mp split
    have row : Row t org first .groups group := ⟨noFirst, noGroup, Option.isSome_of_eq_some found⟩
    exact (after.row.mp row).2 ⟨rfl, rfl⟩

theorem Unlisted.frame (unlisted : Unlisted s org group) (frame : Frame space f s t)
    (noDocs : groupsColl ∉ f.puts) (noRows : groupMembersColl ∉ f.puts) : Unlisted t org group :=
  ⟨fun name raw found => unlisted.docs name raw (frame.stored noDocs found),
    fun key raw first found => unlisted.rows key raw first (frame.stored noRows found)⟩

theorem AllKnown.deleteGroup (all : AllKnown before s) (unlisted : Unlisted s org group) :
    AllKnown before (s.delete org groupsColl group).1 := by
  have frame : Frame org ⟨[], [groupsColl]⟩ s (s.delete org groupsColl group).1 :=
    frame_delete (by simp) s
  intro org' coll key raw present found
  rw [frame.hasOrg] at present
  have stored := frame.stored (by simp) found
  have recorded := all org' coll key raw present stored
  have still {kind : MemberKind} {member : GoString} (known : Known s org' kind member)
      (other : ¬ (kind = .groups ∧ org = org' ∧ group = member)) :
      Known (s.delete org groupsColl group).1 org' kind member := by
    cases kind with
    | users | clients => exact frame.grows (by decide) known
    | groups =>
      simp only [true_and] at other
      simp only [Known, get_delete, true_and, other, if_false]
      exact known
  refine ⟨fun same kind member lists => ?_, fun same first kind member split => ?_, fun same => ?_⟩
  · subst same
    refine (recorded.doc rfl kind member lists).imp_left fun known => still known ?_
    rintro ⟨rfl, rfl, rfl⟩
    exact unlisted.docs key raw stored lists
  · subst same
    refine (recorded.row rfl first kind member split).imp_left fun known => still known ?_
    rintro ⟨rfl, rfl, rfl⟩
    exact unlisted.rows key raw first stored split
  · obtain ⟨user, inviter, id, doc, known⟩ := recorded.invite same
    exact ⟨user, inviter, id, doc, still known nofun⟩

theorem Deleted.known (deleted : Deleted s t who) (known : Known s org kind member)
    (present : s.hasOrg org) (other : ¬ (who.ActsIn s org ∧ kind = who.kind ∧ member = who.name)) :
    Known t org kind member := by
  have apart : clients ≠ users ∧ users ≠ groupsColl ∧ clients ≠ groupsColl := by decide
  cases who with
  | user name =>
    cases kind with
    | users => exact deleted.others (by simp) (fun ⟨_, _, same⟩ => other ⟨present, rfl, same.symm⟩) known
    | clients => exact deleted.others (by simp) (fun ⟨_, same, _⟩ => apart.1 same.symm) known
    | groups => exact deleted.others (by simp) (fun ⟨_, same, _⟩ => apart.2.1 same) known
  | client own name =>
    cases kind with
    | users => exact deleted.others (by simp) (fun ⟨_, same, _⟩ => apart.1 same) known
    | clients => exact deleted.others (by simp) (fun ⟨here, _, same⟩ => other ⟨here.symm, rfl, same.symm⟩) known
    | groups => exact deleted.others (by simp) (fun ⟨_, same, _⟩ => apart.2.2 same) known

section

variable (all : AllKnown before s)
include all

theorem AllKnown.deleted (deleted : Deleted s t who) : AllKnown before t := by
  intro org coll key raw present found
  rw [hasOrg_congr deleted.orgs] at present
  have noOwn : ¬ IsOwn who org coll key := by
    intro own
    rw [deleted.own _ _ _ own] at found
    cases found
  obtain ⟨old, stored, outcome⟩ := (deleted.swept _ _ _ noOwn).from_stored raw found
  have recorded := all org coll key old present stored
  refine ⟨fun same kind member lists => ?_, fun same first kind member split => ?_, fun same => ?_⟩
  · subst same
    have listed : member ∈ (removerMembers old).get kind := by
      rcases outcome with rfl | ⟨-, rfl⟩ | ⟨same, -⟩
      · exact lists
      · exact (mem_removerMembers_revise.mp lists).1
      · exact absurd same (by decide)
    refine (recorded.doc rfl kind member listed).imp_left fun known =>
      deleted.known known present ?_
    rintro ⟨acts, rfl, rfl⟩
    rw [deleted.docs org key acts, stored, Option.map_some, Option.some.injEq] at found
    subst found
    exact (mem_removerMembers_revise.mp lists).2 ⟨rfl, rfl⟩
  · subst same
    refine (recorded.row rfl first kind member split).imp_left fun known =>
      deleted.known known present ?_
    rintro ⟨acts, rfl, rfl⟩
    obtain ⟨rfl, -⟩ := splitMemberKey_eq_some.mp split
    rw [deleted.rows org _ acts ⟨first, by simp [rowSuffix, memberKey]⟩] at found
    cases found
  · subst same
    obtain rfl : raw = old := by
      rcases outcome with rfl | ⟨same, -⟩ | ⟨same, -⟩
      · rfl
      all_goals exact absurd same (by decide)
    obtain ⟨user, inviter, rfl, doc, known⟩ := recorded.invite rfl
    refine ⟨user, inviter, rfl, doc, deleted.known known present ?_⟩
    rintro ⟨-, kinds, rfl⟩
    cases who with
    | user name =>
      have gone : t.get org assocReqColl (inviteID name org) = none := by
        rw [deleted.invitations name org _ rfl present, if_pos rfl]
      cases gone.symm.trans found
    | client own name => cases kinds

theorem allKnown_createOrg (placed : Placed s) (proper : name ≠ global) :
    AllKnown before (s.createOrg name).1 := by
  intro org coll key raw present found
  rw [Proof.Store.get_createOrg] at found
  have still (kind : MemberKind) (member : GoString) (known : Known s org kind member) :
      Known (s.createOrg name).1 org kind member :=
    known.mono fun {org coll key} _ found => by rwa [Proof.Store.get_createOrg]
  rcases placed.placed (Option.isSome_of_eq_some found) with rfl | here
  · rw [Proof.Store.hasOrg_createOrg, placed.noGlobal, Bool.or_false, beq_iff_eq] at present
    exact absurd present proper
  · exact (all org coll key raw here found).mono still

theorem allKnown_deleteOrg (noGlobal : s.hasOrg global = false) :
    AllKnown before (s.deleteOrg name).1 := by
  intro org coll key raw present found
  rw [Proof.Store.hasOrg_deleteOrg, Bool.and_eq_true, bne_iff_ne] at present
  obtain ⟨other, present⟩ := present
  have apart {space : GoString} (ok : s.hasOrg space → name ≠ space) (coll key : GoString) :
      (s.deleteOrg name).1.get space coll key = s.get space coll key := by
    rw [Proof.Store.get_deleteOrg, if_neg]
    rintro ⟨there, rfl⟩
    exact ok there rfl
  rw [apart fun _ => other] at found
  refine (all org coll key raw present found).mono fun kind member known => ?_
  cases kind with
  | users =>
    have here : ∀ coll key, (s.deleteOrg name).1.get global coll key = s.get global coll key :=
      apart fun there => by simp [noGlobal] at there
    simpa only [Known, here] using known
  | _ => simpa only [Known, apart fun _ => other] using known

theorem leads_seedGroup (fresh : before.hasOrg org = false)
    (known : ∀ kind, ∀ member ∈ m.get kind, Known s org kind member) :
    Leads exec (AllKnown before) (seed org groupsColl group (groupJSON group [] m)) s fun _ t =>
      AllKnown before t ∧ Known t org .groups group ∧ ∀ kind name, Known s org kind name →
        Known t org kind name := by
  unfold Leads seed
  rw [run_get_bind]
  cases found : s.get org groupsColl group with
  | some raw => exact ⟨all, by simp [Known, found], fun _ _ => id⟩
  | none =>
    refine ⟨all.putDoc fun kind member lists => ⟨.inl (known kind member lists), ?_⟩,
      known_put_group,
      fun _ _ known => known.put⟩
    exact .inr (.inr (.inr fresh))

theorem leads_seedAuthz (fresh : before.hasOrg org = false) :
    Leads exec (AllKnown before) (seedAuthz org) s fun _ => AllKnown before := by
  have nobody (s : Store) :
      ∀ kind, ∀ member ∈ (⟨[], [], []⟩ : MemberLists).get kind, Known s org kind member := by
    rintro (_ | _ | _) member ⟨⟩
  have groups : Leads exec (AllKnown before) (defaultGroups.forM fun group =>
      seed org groupsColl group (groupJSON group [] ⟨[], [], defaultGroupGroups group⟩)) s fun _ => AllKnown before := by
    refine (leads_seedGroup all fresh (nobody _)).then ?_
    rintro _ t ⟨all, -, -⟩
    refine (leads_seedGroup all fresh (nobody _)).then ?_
    rintro _ t ⟨all, -, -⟩
    refine (leads_seedGroup all fresh (nobody _)).then ?_
    rintro _ t ⟨all, allClients, -⟩
    refine (leads_seedGroup all fresh (nobody _)).then ?_
    rintro _ t ⟨all, allUsers, still⟩
    refine (leads_seedGroup all fresh ?_).then fun _ _ seeded => leads_pure seeded.1
    rintro (_ | _ | _) member lists
    · cases lists
    · cases lists
    · have either : member = lit "users" ∨ member = lit "clients" := by
        revert lists
        decide +revert
      rcases either with rfl | rfl
      · exact allUsers
      · exact still _ _ allClients
  refine groups.then fun _ t all => ?_
  have containers : (defaultContainers.forM fun container => seed org containersColl container (.document (.object
      [(lit "containername", .string container), (lit "containerpath", .string container)]))).Only
        (Within org ⟨[containersColl], []⟩) :=
    only_forM (fun _ => within_reads.only_get.bind fun _ => only_ite (fun _ => within_put (by simp)) fun _ =>
      only_pure _) _
  exact leads_iff.mpr (all.frame (by decide) (frame_run containers t))

theorem allKnown_furnish {fullName : GoString} (fresh : before.hasOrg name = false) :
    Leads exec (AllKnown before) (furnishOrg env name fullName) s fun _ => AllKnown before := by
  refine leads_furnishOrg (leads_bind.mpr ?_)
  have environment : (seed name environmentsColl (lit "_default") defaultEnvironment).Only
      (Within name ⟨[environmentsColl], []⟩) :=
    within_reads.only_get.bind fun _ => only_ite (fun _ => within_put (by simp)) fun _ => only_pure _
  refine (leads_within environment fun t frame => all.frame
    (by decide) frame).mono fun _ t frame => ?_
  refine (leads_seedAuthz (all.frame (by decide) frame) fresh).mono fun _ t all => ?_
  exact ((all.frame (by decide) (frame_put_one _)).frame (by decide) (frame_put_one _)).frame (by decide) (frame_put_one _)

theorem leads_joinOrg (known : Known s org .users user)
    (earlier : Known before org .users user) :
    Leads exec (AllKnown before) (joinOrg org user) s fun _ => AllKnown before :=
  (all.frame (by decide) (frame_put_one s)).addMember (by decide) known.put (.inl earlier)

end

theorem run_keepKnown (s : Store) (space coll : GoString) (names : List GoString) :
    (keepKnown space coll names).run exec s = (.ok (names.filter fun name => (s.get space coll name).isSome), s) := by
  induction names with
  | nil => rfl
  | cons name names ih =>
    rw [keepKnown, run_get_bind, run_bind_of_ok ih, List.filter_cons]
    split <;> rfl

theorem leads_knownGroupMembers {inv : Store → Prop} :
    Leads exec inv (knownGroupMembers org m) s fun m t =>
      t = s ∧ ∀ kind, ∀ member ∈ m.get kind, Known s org kind member := by
  refine leads_of_run (t := s)
    (by rw [knownGroupMembers, run_bind_of_ok (run_keepKnown ..), run_bind_of_ok (run_keepKnown ..),
    run_bind_of_ok (run_keepKnown ..)]; rfl) ⟨rfl, ?_⟩
  rintro (_ | _ | _) member mem <;> exact (List.mem_filter.mp mem).2

def ListsKnown : ApiRequest → Store → Prop
  | .membership org (.createGroup r), s =>
    let obj := contents ((unmarshalMap r.body).getD none)
    ∀ kind, ∀ member ∈ (groupMembers obj).get kind, Known s org kind member ∨ kind = .groups ∧ groupName obj = member
  | _, _ => True

theorem allKnown_createGroup (all : AllKnown s s)
    (lists : ListsKnown (.membership org (.createGroup r)) s) :
    Leads exec (AllKnown s) (createGroup r org) s fun _ => AllKnown s := by
  refine (leads_reads readOnly_reads.only_resolveOrg all).still fun _ => ?_
  refine (leads_decodeBody all).past fun obj decoded => ?_
  rw [ListsKnown, decoded] at lists
  refine (leads_refuseIf all).past fun _ _ => ?_
  refine (leads_refuseIf all).past fun _ _ => ?_
  have cleared : (clearMembers org (groupName (contents obj))).Only (Within org ⟨[], [groupMembersColl]⟩) :=
    within_clearMembers (by simp)
  refine (leads_within cleared fun t frame => all.frame (by decide) frame).then fun _ t frame => ?_
  refine (leads_create (all.frame (by decide) frame)).then ?_
  rintro _ _ ⟨-, rfl⟩
  refine leads_pure ((all.frame (by decide) frame).putDoc fun kind member listed => ?_)
  rcases lists kind member listed with known | own
  · exact ⟨.inl (known.frame frame (by decide)), .inl known⟩
  · exact ⟨.inr own, .inr (.inr (.inl own))⟩

theorem allKnown_putGroup (all : AllKnown s s) :
    Leads exec (AllKnown s) (putGroup r org name) s fun _ => AllKnown s := by
  refine (leads_reads readOnly_reads.only_resolveOrg all).still fun _ => ?_
  refine (leads_reads readOnly_reads.only_mustView all).still fun _ => ?_
  refine (leads_reads only_decodeObjectBody all).still fun obj => ?_
  refine (leads_reads readOnly_reads.only_mustView all).still fun _ => ?_
  refine (leads_reads readOnly_reads.only_groupMembership all).still fun current => ?_
  refine leads_knownGroupMembers.past fun m known => ?_
  have cleared : (clearMembers org name).Only (Within org ⟨[], [groupMembersColl]⟩) :=
    within_clearMembers (by simp)
  refine (leads_within cleared fun t frame => all.frame (by decide) frame).then fun _ t frame => ?_
  refine (all.frame (by decide) frame).putDoc fun kind member listed => ?_
  exact ⟨.inl ((known kind member listed).frame frame (by decide)), .inl (known kind member listed)⟩

theorem leads_removeActorFromAllGroups (all : AllKnown before s) :
    Leads exec (AllKnown before) (removeActorFromAllGroups org kind actor) s fun _ t =>
      AllKnown before t ∧ WithoutMember org kind actor s t := by
  obtain ⟨t, ran, after⟩ := removeActorFromAllGroups_ok org kind actor s
  have within : (removeActorFromAllGroups org kind actor).Only (Within org ⟨[groupsColl], [groupMembersColl]⟩) :=
    within_removeActorFromAllGroups (by simp) (by simp)
  have frame := frame_run within s
  rw [ran] at frame
  exact leads_of_run ran ⟨all.without frame.orgs after, after⟩

theorem allKnown_deleteGroup (all : AllKnown before s) :
    Leads exec (AllKnown before) (deleteGroup org name) s fun _ => AllKnown before := by
  refine (leads_reads readOnly_reads.only_resolveOrg all).still fun _ => ?_
  refine (leads_mustExist all).past fun _ _ => ?_
  have acls : (removeFromACLs org (lit "groups") name).Only (Within org ⟨[aclsColl], []⟩) :=
    within_removeFromACLs (by simp)
  refine (leads_within acls fun t frame => all.frame (by decide) frame).then fun _ t frame => ?_
  refine (leads_removeActorFromAllGroups (all.frame (by decide) frame)).then ?_
  rintro _ u ⟨all, after⟩
  have unlisted : Unlisted u org name := after.unlisted
  have rest : (do clearMembers org name; deleteACL org groupsColl name : Handler Unit).Only
      (Within org ⟨[], [groupMembersColl, aclsColl]⟩) :=
    (within_clearMembers (by simp)).bind fun _ => within_deleteACL (by simp)
  rw [← bind_bind]
  refine (leads_within rest fun t frame => all.frame (by decide) frame).then fun _ v frame => ?_
  rw [leads_iff, run_delete_bind]
  have last := (all.frame (by decide) frame).deleteGroup (unlisted.frame frame (by decide) (by decide))
  cases (v.delete org groupsColl name).2 with
  | _ => exact last

theorem allKnown_membership {request : MembersWrite} (all : AllKnown s s)
    (lists : ListsKnown (.membership org request) s) :
    Leads exec (AllKnown s) (request.handler org) s fun _ => AllKnown s := by
  cases request with
  | associate r =>
    refine (leads_reads readOnly_reads.only_resolveOrg all).still fun _ => ?_
    refine (leads_reads only_decodeBody all).still fun body => ?_
    refine (leads_refuseIf all).past fun _ _ => ?_
    refine (leads_mustExist all).past fun _ known => ?_
    refine (leads_reads readOnly_reads.only_refuseMember all).still fun _ => ?_
    exact (leads_joinOrg all known known).then fun _ _ kept => leads_pure kept
  | disassociate user =>
    refine (leads_reads readOnly_reads.only_resolveOrg all).still fun _ => ?_
    refine (leads_mustExist all).past fun _ _ => ?_
    refine (leads_reads readOnly_reads.only_refuseAdmin all).still fun _ => ?_
    have left : (Org.delete org assocColl user).Only (Within org ⟨[], [assocColl]⟩) :=
      within_delete (by simp)
    refine (leads_within left fun t frame => all.frame (by decide) frame).then fun _ t frame => ?_
    exact (leads_removeActorFromAllGroups (all.frame (by decide) frame)).then fun _ _ kept =>
      leads_pure kept.1
  | invite r =>
    refine (leads_reads readOnly_reads.only_resolveOrg all).still fun _ => ?_
    refine (leads_reads only_decodeBody all).still fun body => ?_
    refine (leads_refuseIf all).past fun _ _ => ?_
    refine (leads_mustExist all).past fun _ known => ?_
    refine (leads_reads readOnly_reads.only_refuseMember all).still fun _ => ?_
    refine (leads_reads readOnly_reads.only_refuseInvited all).still fun _ => ?_
    exact all.invite known
  | rescind id =>
    have uninvolved : Uninvolved ⟨[], [assocReqColl]⟩ := by decide
    exact leads_membership all fun _ _ frame => all.frame uninvolved frame
  | createGroup r => exact allKnown_createGroup all lists
  | putGroup r name => exact allKnown_putGroup all
  | deleteGroup name => exact allKnown_deleteGroup all

theorem segment_uninvolved (route : ActorRoute) :
    route.segment ∉ [groupsColl, groupMembersColl, assocReqColl] := by
  cases route with
  | users => exact (by decide : users ∉ [groupsColl, groupMembersColl, assocReqColl])
  | clients org => exact (by decide : clients ∉ [groupsColl, groupMembersColl, assocReqColl])

theorem allKnown_createActor [Unicode] {route : ActorRoute} (all : AllKnown before s) :
    Leads exec (AllKnown before) (createActor env enforceACL r route.org route.segment) s fun _ =>
      AllKnown before := by
  refine leads_createActor all
    (fun t frame => all.frame (by decide) frame) fun name obj t _ frame => ?_
  generalize mustEncode obj = raw
  have registered : AllKnown before (t.put route.org route.segment name raw) :=
    (all.frame (by decide) frame).put (recorded_elsewhere (segment_uninvolved route))
  have granted : (grantCreator enforceACL r route.org route.segment name).Only (Within route.org ⟨[aclsColl], []⟩) :=
    within_grantCreator (by simp)
  refine (leads_within granted fun u frame => registered.frame
    (by decide) frame).then fun _ u grant => ?_
  have registered := registered.frame (by decide) grant
  refine leads_ite (fun joins => ?_) fun _ => leads_pure registered
  have isClient : route.segment = clients := by
    simp only [Bool.and_eq_true, decide_eq_true_eq] at joins
    exact joins.1.2
  have known : Known u route.org .clients name := by
    refine grant.grows (by simp) ?_
    rw [isClient, get_put]
    simp
  exact registered.addMember (by decide) known (.inr (.inl ⟨rfl, rfl⟩))

def AddsMembers : ApiRequest → Prop
  | .actor _ (.create ..) => True
  | .membership .. => True
  | .respond .. => True
  | _ => False

theorem footprint_uninvolved (plain : ¬ AddsMembers request) : Uninvolved (footprint request) := by
  cases request with
  | actor route request =>
    rcases segment_cases route with segment | segment <;> cases request <;>
      simp_all +decide [Uninvolved, footprint, AddsMembers, ne_keysColl]
  | organization | acl => simp +decide [Uninvolved, footprint]
  | membership | respond => exact absurd trivial plain
  | cookbook files org request => cases request <;> simp +decide [Uninvolved, footprint, cookbookWrites]
  | policy org request => cases request <;> simp +decide [Uninvolved, footprint, policyWrites, ne_policyRevColl]
  | object org request =>
    have segment (type : ObjectType) : groupsColl ≠ type.segment ∧ groupMembersColl ≠ type.segment ∧
        assocReqColl ≠ type.segment ∧ users ≠ type.segment ∧ clients ≠ type.segment := by cases type <;> decide
    cases request <;> simp +decide [Uninvolved, footprint, objectWrites, ne_dataBagItemsColl, segment]

theorem allKnown_request [Unicode] (all : AllKnown s s) (placed : Placed s)
    (lists : ListsKnown request s) :
    Leads exec (AllKnown s) (request.handler enforceACL) s fun _ => AllKnown s := by
  by_cases framed : Framed request
  · by_cases adds : AddsMembers request
    · cases request with
      | actor route request =>
        cases request with
        | create env r =>
          refine (leads_scope all).past fun _ _ => ?_
          exact allKnown_createActor all
        | _ => cases adds
      | membership org request => exact allKnown_membership all lists
      | respond r user id =>
        refine leads_respondInvite all fun org raw answer present stored named => ?_
        obtain ⟨user', inviter, -, rfl, known⟩ := (all _ _ _ _ present stored).invite rfl
        obtain rfl : user' = user := Option.some.inj ((inviteString_username user' org inviter).symm.trans named)
        have consumed : (Org.delete org assocReqColl id).Only (Within org ⟨[], [assocReqColl]⟩) :=
          within_delete (by simp)
        refine (leads_within consumed fun t frame => all.frame (by decide) frame).then fun _ t frame => ?_
        have kept : AllKnown s t := all.frame (by decide) frame
        refine leads_ite (fun _ => ?_) fun _ => leads_pure kept
        exact (leads_joinOrg kept (known.frame frame (by decide)) known).then fun _ _ kept =>
          leads_pure kept
      | _ => cases adds
    · exact leads_framed framed all fun _ _ _ frame => all.frame (footprint_uninvolved adds) frame
  obtain ⟨route, r, name, rfl⟩ | ⟨env, r, rfl⟩ | ⟨name, rfl⟩ := unframed_cases framed
  · exact leads_deleteActor placed.noGlobal all fun _ _ deleted => all.deleted deleted
  · refine leads_createOrganization all fun fullName valid absent => ?_
    exact allKnown_furnish (allKnown_createOrg all placed (orgName_ne_global valid)) absent
  · refine leads_deleteOrganization (all.frame (by decide)) fun frame => ?_
    exact allKnown_deleteOrg (all.frame
      (by decide) frame) ((frame.hasOrg global).trans placed.noGlobal)

theorem AllKnown.effective (all : AllKnown before s) (present : s.hasOrg org)
    (effective : Effective s org group kind member) :
    Known s org kind member ∧ (0 ∉ group → Enters before org group kind member) := by
  rcases effective_iff.mp effective with ⟨raw, stored, lists⟩ | ⟨key, first, ⟨stored, split⟩, ours⟩
  · obtain ⟨known, enters⟩ := (all _ _ _ _ present stored).doc rfl kind member lists
    exact ⟨known, fun _ => enters⟩
  · obtain ⟨raw, stored⟩ := Option.isSome_iff_exists.mp stored
    obtain ⟨known, enters⟩ := (all _ _ _ _ present stored).row rfl first kind member split
    refine ⟨known, fun noGroup => ?_⟩
    obtain ⟨rfl, noFirst, noKind, noMember⟩ := splitMemberKey_eq_some.mp split
    rcases prefix_memberKey noFirst noKind noMember ours with rfl | rfl
    · exact enters
    · exact absurd (by simp) noGroup

/-- Every member of a group is there, and a request makes no one a member that was not there before,
but for a client of the group of clients, a group of itself and the default groups of a new
organization. -/
theorem group_members_exist [Unicode] {enforceACL : Bool}
    (reached : Serves enforceACL ListsKnown s) :
    (∀ org group kind member, s.hasOrg org → Effective s org group kind member → Known s org kind member) ∧
    ∀ request t, ListsKnown request s → t = ((ApiRequest.handler enforceACL request).run exec s).2 →
      ∀ org group kind member, t.hasOrg org → 0 ∉ group → Effective t org group kind member →
        Enters s org group kind member := by
  have step (request : ApiRequest) (s : Store) (reached : Serves enforceACL ListsKnown s) (lists : ListsKnown request s)
      (all : AllKnown s s) : AllKnown s ((request.handler enforceACL).run exec s).2 :=
    leads_iff.mp (allKnown_request all (placed_of_serves reached) lists)
  have all : AllKnown s s := by
    refine @Session.invariant _ _ _ _ _ _ _ _ _ _ _ (fun s => AllKnown s s) reached nofun
      fun request s reached lists all => ?_
    exact leads_iff.mpr (step request s reached lists all).renew
  refine ⟨fun org group kind member present effective => (all.effective present effective).1, ?_⟩
  rintro request t lists rfl org group kind member present noGroup effective
  exact ((step request s reached lists all).effective present effective).2 noGroup

def createsOps (member : GoString) : ApiRequest :=
  .membership acme (.createGroup (creates [(lit "groupname", .string ops), (lit "users", stringArray [member])]))

def opsAfter [Unicode] (user member : GoString) : Store :=
  (((createsOps member).handler false).run exec (acmeAfter user)).2

def opsMembers (s : Store) : List GoString :=
  ((s.range acme groupMembersColl).foldl (fun m row => foldMemberRow ops m row.1)
    (((s.get acme groupsColl ops).map removerMembers).getD .none)).get .users

theorem ops_members_exist : letI : Unicode := ⟨id⟩
    Serves false ListsKnown (opsAfter alice alice) ∧ (opsAfter alice alice).hasOrg acme ∧
      Effective (opsAfter alice alice) acme ops .users alice ∧ Known (opsAfter alice alice) acme .users alice := by
  let _ : Unicode := ⟨id⟩
  have lists : ListsKnown (createsOps alice) (acmeAfter alice) := by
    have body : groupMembers (contents ((unmarshalMap (creates [(lit "groupname", .string ops),
        (lit "users", stringArray [alice])]).body).getD none)) = ⟨[alice], [], []⟩ := by decide +kernel
    intro kind member mem
    rw [body] at mem
    cases kind with
    | users =>
      obtain rfl := List.mem_singleton.mp mem
      exact .inl (by decide +kernel : ((acmeAfter alice).get global users alice).isSome)
    | _ => cases mem
  have reached : Serves false ListsKnown (opsAfter alice alice) :=
    .serve (.serve (.serve .start (createsUser alice) trivial) createsAcme trivial) (createsOps alice) lists
  obtain ⟨present, member⟩ : (opsAfter alice alice).hasOrg acme ∧
      alice ∈ opsMembers (opsAfter alice alice) := by
    decide +kernel
  have effective : Effective (opsAfter alice alice) acme ops .users alice :=
    ⟨_, _, run_groupMembership .., member⟩
  exact ⟨reached, present, effective, (group_members_exist reached).1 _ _ _ _ present effective⟩

theorem group_lists_missing_user : letI : Unicode := ⟨id⟩
    Serves false (fun _ _ => True) (opsAfter alice leaver) ∧ (opsAfter alice leaver).hasOrg acme ∧
      Effective (opsAfter alice leaver) acme ops .users leaver ∧ ¬ Known (opsAfter alice leaver) acme .users leaver := by
  let _ : Unicode := ⟨id⟩
  obtain ⟨present, member, missing⟩ : (opsAfter alice leaver).hasOrg acme ∧
      leaver ∈ opsMembers (opsAfter alice leaver) ∧
      ¬ ((opsAfter alice leaver).get global users leaver).isSome := by
    decide +kernel
  exact ⟨.serve (.serve (.serve .start (createsUser alice) trivial) createsAcme trivial)
    (createsOps leaver) trivial,
    present, ⟨_, _, run_groupMembership .., member⟩, missing⟩

end CincServer.Proof.Api
