import CincServer.Proof.Api.Writes

/-!
# Deleting an actor
-/

namespace CincServer.Proof.Api
open CincServer.Api CincServer.Json Proof.Decoding Go Lib Program

variable {s t : Store} {own coll org key : GoString} {mid : Store} {raw : Raw} {r : Request} {response : Response}

def scrubRecord (user org coll key : GoString) (found : Option Raw) : Option Raw :=
  if coll = assocColl then if key = user then none else found
  else if coll = assocReqColl then if key = inviteID user org then none else found
  else if coll = groupMembersColl then if rowSuffix .users user <:+ key then none else found
  else if coll = groupsColl then found.map (revise .users user key)
  else if coll = aclsColl then found.map (reviseACL (lit "actors") user)
  else found

theorem hasOrg_congr (same : t.orgs = s.orgs) (org : GoString) : t.hasOrg org = s.hasOrg org := by
  rw [Store.MemoryBackend.hasOrg, same, Store.MemoryBackend.hasOrg]

theorem removeUserFromOrg_get (user org : GoString) (s : Store) :
    ∃ t, (removeUserFromOrg user org).run exec s = (.ok (), t) ∧ t.orgs = s.orgs ∧
      ∀ org' coll key, t.get org' coll key =
        if org = org' ∧ s.hasOrg org then scrubRecord user org' coll key (s.get org' coll key)
        else s.get org' coll key := by
  have tame : Tame (removeUserFromOrg user org) := tame_removeUserFromOrg
  have run : (removeUserFromOrg user org).run exec s = (if s.hasOrg org then do
      removeActorFromAllGroups org .users user
      removeFromACLs org (lit "actors") user
    else pure ()).run exec (if s.hasOrg org then
      ((s.delete org assocColl user).1.delete org assocReqColl (inviteID user org)).1 else s) := by
    rw [removeUserFromOrg, run_lookupOrg_bind]
    cases s.hasOrg org <;> rfl
  cases present : s.hasOrg org with
  | false => exact ⟨s, by simp [run, present], rfl, by simp⟩
  | true =>
    obtain ⟨mid, groups, without⟩ := removeActorFromAllGroups_ok org .users user
      ((s.delete org assocColl user).1.delete org assocReqColl (inviteID user org)).1
    obtain ⟨t, acls, gets⟩ := removeFromACLs_get org (lit "actors") user mid
    have ran : (removeUserFromOrg user org).run exec s = (.ok (), t) := by
      simp only [run, present, if_true, run_bind_of_ok groups, acls]
    refine ⟨t, ran, by simpa [ran] using tame.orgs s, fun org' coll key => ?_⟩
    rw [gets, without, get_delete, get_delete]
    by_cases here : org = org'
    · subst here
      simp only [true_and, and_true, if_true, scrubRecord]
      by_cases assoc : coll = assocColl
      · subst assoc
        simp +decide [eq_comm]
      by_cases invite : coll = assocReqColl
      · subst invite
        simp +decide [eq_comm]
      by_cases row : coll = groupMembersColl
      · subst row
        simp +decide
      by_cases doc : coll = groupsColl
      · subst doc
        simp +decide
      by_cases acl : coll = aclsColl
      · subst acl
        simp +decide
      simp [assoc, invite, row, doc, acl, eq_comm]
    · simp [here]

theorem foldl_scrub {user : GoString} {effect : GoString → Store → Store}
    (orgs : ∀ org s, (effect org s).orgs = s.orgs)
    (gets : ∀ org s org' coll key, (effect org s).get org' coll key =
      if org = org' ∧ s.hasOrg org then scrubRecord user org' coll key (s.get org' coll key)
      else s.get org' coll key)
    {names : List GoString} (distinct : names.Nodup) (s : Store) :
    (names.foldl (fun s org => effect org s) s).orgs = s.orgs ∧
      ∀ org' coll key, (names.foldl (fun s org => effect org s) s).get org' coll key =
        if org' ∈ names ∧ s.hasOrg org' then scrubRecord user org' coll key (s.get org' coll key)
        else s.get org' coll key := by
  induction names generalizing s with
  | nil => simp
  | cons org names ih =>
    obtain ⟨fresh, distinct⟩ := List.nodup_cons.mp distinct
    obtain ⟨same, rest⟩ := ih distinct (effect org s)
    refine ⟨same.trans (orgs org s), fun org' coll key => ?_⟩
    rw [List.foldl_cons, rest, gets, hasOrg_congr (orgs org s)]
    by_cases first : org = org'
    · subst first
      simp [fresh]
    · simp [first, Ne.symm first]

theorem removeUserFromOrgs_get (user : GoString) (s : Store) :
    ∃ t, (removeUserFromOrgs user).run exec s = (.ok (), t) ∧ t.orgs = s.orgs ∧ ∀ org coll key,
        let found := if global = org ∧ aclsColl = coll then
          (s.get org coll key).map (reviseACL (lit "actors") user) else s.get org coll key
        t.get org coll key = if s.hasOrg org then scrubRecord user org coll key found else found := by
  obtain ⟨mid, acls, aclGets⟩ := removeFromACLs_get global (lit "actors") user s
  choose effect ran orgs gets using removeUserFromOrg_get user
  have distinct : mid.listOrgs.Nodup :=
    (perm_sortStrings _).nodup_iff.mpr Std.ExtTreeMap.nodup_keys
  obtain ⟨same, scrubbed⟩ := foldl_scrub orgs gets distinct mid
  have midOrgs : mid.orgs = s.orgs := by
    simpa [acls] using (tame_removeFromACLs : Tame (removeFromACLs global (lit "actors") user)).orgs s
  refine ⟨_, ?_, same.trans midOrgs, fun org coll key => ?_⟩
  · rw [removeUserFromOrgs, run_bind_of_ok acls]
    exact run_forM ran mid.listOrgs mid
  · have whenListed : (org ∈ mid.listOrgs ∧ mid.hasOrg org) ↔ s.hasOrg org := by
      rw [← hasOrg_congr midOrgs]
      exact ⟨And.right, fun present => ⟨Proof.Store.mem_listOrgs present, present⟩⟩
    simp only [scrubbed, whenListed, aclGets]

inductive Principal
  | user (name : GoString)
  | client (org name : GoString)
deriving DecidableEq

namespace Principal

def scope : Principal → GoString
  | user _ => global
  | client org _ => org

def segment : Principal → GoString
  | user _ => users
  | client .. => clients

def kind : Principal → MemberKind
  | user _ => .users
  | client .. => .clients

def name : Principal → GoString
  | user name => name
  | client _ name => name

def ActsIn (s : Store) : Principal → GoString → Prop
  | user _, org => s.hasOrg org
  | client own _, org => org = own

end Principal

def principal : ActorRoute → GoString → Principal
  | .users, name => .user name
  | .clients org, name => .client org name

theorem principal_record (route : ActorRoute) (name : GoString) :
    (principal route name).scope = route.org ∧ (principal route name).segment = route.segment ∧
      (principal route name).name = name := by
  cases route <;> exact ⟨rfl, rfl, rfl⟩

inductive NamesActor (s : Store) : Principal → (org coll key : GoString) → Raw → Prop
  | record {who : Principal} {raw : Raw} : NamesActor s who who.scope who.segment who.name raw
  | key {who : Principal} {key : GoString} {raw : Raw} :
      NamesActor s who who.scope (keysColl who.segment who.name) key raw
  | password {who : Principal} {raw : Raw} : NamesActor s who who.scope passwordsCollection who.name raw
  | acl {who : Principal} {raw : Raw} : NamesActor s who who.scope aclsColl (aclKey who.segment who.name) raw
  | group {who : Principal} {org group : GoString} {raw : Raw} (acts : who.ActsIn s org)
      (lists : who.name ∈ (indexMembers raw).get who.kind ∨ who.name ∈ (removerMembers raw).get who.kind) :
      NamesActor s who org groupsColl group raw
  | member {who : Principal} {org group : GoString} {raw : Raw} (acts : who.ActsIn s org) :
      NamesActor s who org groupMembersColl (memberKey group who.kind.name who.name) raw
  | association {name org : GoString} {raw : Raw} (acts : s.hasOrg org) :
      NamesActor s (.user name) org assocColl name raw
  | invitation {name org : GoString} {raw : Raw} (acts : s.hasOrg org) :
      NamesActor s (.user name) org assocReqColl (inviteID name org) raw
  | invitee {name org id : GoString} {raw : Raw} (acts : s.hasOrg org)
      (invites : inviteString (lit "username") raw = some name) :
      NamesActor s (.user name) org assocReqColl id raw
  | inviter {name org id : GoString} {raw : Raw} (acts : s.hasOrg org) (given : name ≠ [])
      (invites : inviteString (lit "inviter") raw = some name) :
      NamesActor s (.user name) org assocReqColl id raw
  | aclEntry {who : Principal} {org key : GoString} {raw : Raw} (acts : who.ActsIn s org ∨ org = who.scope)
      (named : AclNames (lit "actors") who.name raw) : NamesActor s who org aclsColl key raw

theorem deleteActorKeys_get (org segment name : GoString) (s : Store) :
    ∃ t, (deleteActorKeys org segment name).run exec s = (.ok (), t) ∧
      ∀ org' coll key, t.get org' coll key =
        if org = org' ∧ keysColl segment name = coll then none else s.get org' coll key := by
  obtain ⟨t, ran, gets⟩ := deleteAll_get org (keysColl segment name) nodup_keys s
  refine ⟨t, ran, fun org' coll key => ?_⟩
  by_cases here : org = org' ∧ keysColl segment name = coll
  · obtain ⟨rfl, rfl⟩ := here
    simp only [gets, mem_keys, true_and, and_self, if_true]
    cases s.get org (keysColl segment name) key <;> simp
  · simp only [gets, ← and_assoc, here, false_and, if_false]

theorem dropOwn_get (org segment name : GoString) (s : Store) :
    ∃ t, (do deleteACL org segment name; deleteActorKeys org segment name : Handler Unit).run exec s = (.ok (), t) ∧
      ∀ org' coll key, t.get org' coll key =
        if org = org' ∧ (aclsColl = coll ∧ aclKey segment name = key ∨ keysColl segment name = coll) then none
        else s.get org' coll key := by
  obtain ⟨t, keys, gets⟩ :=
    deleteActorKeys_get org segment name (s.delete org aclsColl (aclKey segment name)).1
  refine ⟨t, keys, fun org' coll key => ?_⟩
  rw [gets, get_delete]
  by_cases here : org = org'
  · by_cases own : keysColl segment name = coll
    · simp [here, own]
    · simp [here, own]
  · simp [here]

def OwnDropped (org segment name : GoString) (mid t : Store) : Prop :=
  ∀ org' coll key, t.get org' coll key =
    if org = org' ∧ (aclsColl = coll ∧ aclKey segment name = key ∨ keysColl segment name = coll ∨
      segment = coll ∧ name = key) then none
    else mid.get org' coll key

theorem OwnDropped.elsewhere {segment name : GoString} (dropped : OwnDropped own segment name mid t)
    (noACL : aclsColl ≠ coll) (noKeys : 0x3A ∉ coll) (noRecord : segment ≠ coll)
    (org key : GoString) : t.get org coll key = mid.get org coll key := by
  have plain : keysColl segment name ≠ coll := keysColl_ne_of_not_mem noKeys
  rw [dropped]
  simp [noACL, plain, noRecord]

theorem OwnDropped.le {segment name : GoString} (dropped : OwnDropped own segment name mid t)
    (found : t.get org coll key = some raw) : mid.get org coll key = some raw := by
  rw [dropped] at found
  split_ifs at found
  exact found

theorem scopedDelete_ok {segment name : GoString} (cleanup : Handler Unit)
    (cleans : cleanupActor org segment name =
      (do cleanup; deleteACL org segment name; deleteActorKeys org segment name))
    (ran : (scopedDelete r org segment name).run exec s = (.ok response, t)) :
    t.orgs = s.orgs ∧ ∃ mid, cleanup.run exec s = (.ok (), mid) ∧
      OwnDropped org segment name mid t := by
  have orgs : t.orgs = s.orgs := by
    simpa [ran] using (tame_scopedDelete : Tame (scopedDelete r org segment name)).orgs s
  rw [scopedDelete, cleans] at ran
  obtain ⟨_, s', found, afterCheck⟩ := run_bind_ok.mp ran
  obtain rfl := mustExist_ok found
  obtain ⟨_, s₂, cleaned, deletion⟩ := run_bind_ok.mp afterCheck
  obtain ⟨_, mid, first, rest⟩ := run_bind_ok.mp cleaned
  obtain ⟨s₂', dropped, gets⟩ := dropOwn_get org segment name mid
  obtain rfl : s₂' = s₂ := (Prod.mk.inj (dropped.symm.trans rest)).2
  have last : t = (s₂'.delete org segment name).1 := by
    rw [run_delete_bind] at deletion
    cases deleted : (s₂'.delete org segment name).2 with
    | none => simp [deleted, cannotFind, writeError] at deletion
    | some raw => simpa [deleted, eq_comm] using (Prod.mk.inj deletion).2
  refine ⟨orgs, mid, first, fun org' coll key => ?_⟩
  rw [last, get_delete, gets]
  by_cases here : org = org'
  · by_cases record : segment = coll ∧ name = key
    · simp [here, record]
    · simp [here, record]
  · simp [here]

structure Erased (s t : Store) (who : Principal) : Prop where
  orgs : t.orgs = s.orgs
  record : t.get who.scope who.segment who.name = none
  keys : ∀ key, t.get who.scope (keysColl who.segment who.name) key = none
  ownACL : t.get who.scope aclsColl (aclKey who.segment who.name) = none
  password : t.get who.scope passwordsCollection who.name = s.get who.scope passwordsCollection who.name
  rows : ∀ org key, who.ActsIn s org → rowSuffix who.kind who.name <:+ key → t.get org groupMembersColl key = none
  docs : ∀ org group, who.ActsIn s org →
    t.get org groupsColl group = (s.get org groupsColl group).map (revise who.kind who.name group)
  acls : ∀ org key raw, who.ActsIn s org ∨ org = who.scope → t.get org aclsColl key = some raw →
    ¬ AclNames (lit "actors") who.name raw
  association : ∀ name org, who = .user name → s.hasOrg org → t.get org assocColl name = none
  invitations : ∀ name org id, who = .user name → s.hasOrg org → t.get org assocReqColl id =
    if id = inviteID name org then none else s.get org assocReqColl id

theorem erased_user {name : GoString}
    (ran : (scopedDelete r global users name).run exec s = (.ok response, t)) :
    Erased s t (.user name) := by
  obtain ⟨orgs, mid, cleaned, dropped⟩ := scopedDelete_ok (removeUserFromOrgs name) rfl ran
  obtain ⟨mid', cleaned', -, gets⟩ := removeUserFromOrgs_get name s
  obtain rfl : mid' = mid := (Prod.mk.inj (cleaned'.symm.trans cleaned)).2
  refine ⟨orgs, ?_, fun key => ?_, ?_, ?_, fun org key acts ends => ?_, fun org group acts => ?_,
    fun org key raw acts found => ?_, ?_, ?_⟩
  · rw [dropped]
    simp [Principal.scope, Principal.segment, Principal.name]
  · rw [dropped]
    simp [Principal.scope, Principal.segment, Principal.name]
  · rw [dropped]
    simp [Principal.scope, Principal.segment, Principal.name]
  · rw [dropped.elsewhere (by decide) (by decide) (by decide), gets]
    simp +decide [scrubRecord]
  · have present : s.hasOrg org := acts
    have removed : rowSuffix .users name <:+ key := ends
    rw [dropped.elsewhere (by decide) (by decide) (by decide), gets]
    simp +decide [scrubRecord, present, removed]
  · have present : s.hasOrg org := acts
    rw [dropped.elsewhere (by decide) (by decide) (by decide), gets]
    simp +decide [scrubRecord, present, Principal.kind, Principal.name]
  · have revised := dropped.le found
    rw [gets] at revised
    by_cases present : s.hasOrg org
    · simp +decide only [present, if_true, scrubRecord, if_false] at revised
      obtain ⟨before, -, rfl⟩ := Option.map_eq_some_iff.mp revised
      exact reviseACL_clean _ _ before
    · obtain rfl : org = global := acts.resolve_left present
      simp only [present, and_self, if_true] at revised
      obtain ⟨before, -, rfl⟩ := Option.map_eq_some_iff.mp revised
      exact reviseACL_clean _ _ before
  · rintro name' org ⟨⟩ present
    rw [dropped.elsewhere (by decide) (by decide) (by decide), gets]
    simp +decide [scrubRecord, present]
  · rintro name' org id ⟨⟩ present
    rw [dropped.elsewhere (by decide) (by decide) (by decide), gets]
    simp +decide [scrubRecord, present]

theorem erased_client {name : GoString}
    (ran : (scopedDelete r own clients name).run exec s = (.ok response, t)) :
    Erased s t (.client own name) := by
  obtain ⟨orgs, mid, cleaned, dropped⟩ := scopedDelete_ok
    (do removeFromACLs own (lit "actors") name; removeActorFromAllGroups own .clients name)
    (bind_bind ..).symm ran
  obtain ⟨acls, unlisted, aclGets⟩ := removeFromACLs_get own (lit "actors") name s
  obtain ⟨mid', revoked, gets⟩ := removeActorFromAllGroups_ok own .clients name acls
  obtain rfl : mid' = mid := by
    rw [run_bind_of_ok unlisted, revoked] at cleaned
    exact (Prod.mk.inj cleaned).2
  refine ⟨orgs, ?_, fun key => ?_, ?_, ?_, fun org key acts ends => ?_, fun org group acts => ?_,
    fun org key raw acts found => ?_, nofun, nofun⟩
  · rw [dropped]
    simp [Principal.scope, Principal.segment, Principal.name]
  · rw [dropped]
    simp [Principal.scope, Principal.segment, Principal.name]
  · rw [dropped]
    simp [Principal.scope, Principal.segment, Principal.name]
  · rw [dropped.elsewhere (by decide) (by decide) (by decide), gets, aclGets]
    simp +decide
  · obtain rfl : org = own := acts
    have removed : rowSuffix .clients name <:+ key := ends
    rw [dropped.elsewhere (by decide) (by decide) (by decide), gets]
    simp [removed]
  · obtain rfl : org = own := acts
    rw [dropped.elsewhere (by decide) (by decide) (by decide), gets, aclGets]
    simp +decide [Principal.kind, Principal.name]
  · obtain rfl : org = own := acts.elim id id
    have revised := dropped.le found
    rw [gets, aclGets] at revised
    simp +decide only [and_false, false_and, if_false, and_self, if_true] at revised
    obtain ⟨before, -, rfl⟩ := Option.map_eq_some_iff.mp revised
    exact reviseACL_clean _ _ before

variable {who : Principal}

theorem erased_of_ok
    (ran : (scopedDelete r who.scope who.segment who.name).run exec s = (.ok response, t)) :
    Erased s t who := by
  cases who with
  | user name => exact erased_user ran
  | client own name => exact erased_client ran

theorem inviteDoc_eq (user org inviter : GoString) : inviteDoc user org inviter =
    .document (.object [(lit "id", .string (inviteID user org)), (lit "inviter", .string inviter),
      (lit "orgname", .string org), (lit "username", .string user)]) := rfl

theorem inviteString_username (user org inviter : GoString) :
    inviteString (lit "username") (inviteDoc user org inviter) = some user := by
  rw [inviteDoc_eq]
  simp +decide [inviteString, unmarshalStruct, storeMembers, StructField.string]

theorem not_mem_revise {kind : MemberKind} {actor group : GoString} (alike : ReadAlike raw) :
    actor ∉ (indexMembers (revise kind actor group raw)).get kind ∧
      actor ∉ (removerMembers (revise kind actor group raw)).get kind := by
  rw [revise, revoked_eq]
  split_ifs with lists
  · rw [Option.getD_some, indexMembers_groupJSON, removerMembers_groupJSON, get_set_self]
    simp [without]
  · rw [Option.getD_none, ← alike]
    exact ⟨lists, lists⟩

theorem Principal.actsIn_congr (same : t.orgs = s.orgs) (who : Principal) (org : GoString) :
    who.ActsIn t org ↔ who.ActsIn s org := by
  cases who with
  | user name => exact iff_of_eq (congrArg (· = true) (hasOrg_congr same org))
  | client own name => exact Iff.rfl

theorem NamesActor.congr (same : t.orgs = s.orgs)
    (names : NamesActor t who org coll key raw) : NamesActor s who org coll key raw := by
  have present {org : GoString} (acts : t.hasOrg org) : s.hasOrg org :=
    (hasOrg_congr same org).symm.trans acts
  cases names with
  | record => exact .record
  | key => exact .key
  | password => exact .password
  | acl => exact .acl
  | group acts lists => exact .group ((who.actsIn_congr same org).mp acts) lists
  | member acts => exact .member ((who.actsIn_congr same org).mp acts)
  | association acts => exact .association (present acts)
  | invitation acts => exact .invitation (present acts)
  | invitee acts invites => exact .invitee (present acts) invites
  | inviter acts given invites => exact .inviter (present acts) given invites
  | aclEntry acts named => exact .aclEntry (acts.imp (who.actsIn_congr same org).mp id) named

section Leaver

def leaver : GoString := lit "bob"

def plainEnv : Env := ⟨[], [], [], id, fun _ => false⟩

def creates (body : Members) : Request where
  actor := none
  apiVersion := 1
  body := .document (.object body)
  baseURL := lit "https://chef.example.com"

def externalUser : Members :=
  [(lit "name", .string leaver), (lit "display_name", .string (lit "Bob")),
    (lit "external_authentication_uid", .string leaver)]

def localUser : Members :=
  [(lit "name", .string leaver), (lit "display_name", .string (lit "Bob")),
    (lit "email", .string (lit "bob@example.com")), (lit "password", .string (lit "secret"))]

def joined [Unicode] (body : Members) : Store :=
  ((createActor plainEnv true (creates body) global users).run exec Store.newMemoryBackend).2

theorem reachable_joined [Unicode] (body : Members) : Reachable ReadAlike (joined body) :=
  reachable_run Pool.Reaches.refl (.createUser plainEnv true (creates body))

def storedHash : Option Raw → Option GoString
  | some (.malformed hash) => some hash
  | _ => none

end Leaver

end CincServer.Proof.Api
