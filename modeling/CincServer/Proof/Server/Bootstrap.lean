import CincServer.Proof.Api.KeyMap
import CincServer.Proof.Api.OrgRecreation
import CincServer.Server.Bootstrap

/-!
# Restarting a server
-/

namespace CincServer.Proof.Server
open CincServer.Api CincServer.Server CincServer.Json CincServer.Proof.Api Go Lib Program
open List (mem_cons_of_mem mem_cons_self)

variable {K : Type} {codec : KeyCodec K} {orgs : List GoString} {s t : Store} {name space coll key : GoString} {priv : K}
  {f : Footprint} {raw : Raw} {adminName : GoString} {gi : Nat} {enforceACL : Bool} {p : OrgPlan K} {gen : Nat → K}

def validatorRecord (codec : KeyCodec K) (name : GoString) (priv : K) : Raw :=
  .document (.object [(lit "name", .string (validatorName name)), (lit "clientname", .string (validatorName name)),
    (lit "validator", .bool true), (lit "public_key", .string (codec.encodePublicKeyPEM priv))])

structure Provided (codec : KeyCodec K) (s : Store) (name : GoString) (priv : K) : Prop where
  present : s.hasOrg name
  stored : s.get global serverKeysColl (serverKeyValidator name) = some (codec.privatePEM priv)
  client : s.get name clients (validatorName name) = some (validatorRecord codec name priv)

structure Sound (codec : KeyCodec K) (orgs : List GoString) (s : Store) : Prop where
  placed : Placed s
  regular : AllAccounts Regular s
  admin : ∀ raw, s.get global serverKeysColl serverKeyAdmin = some raw → ∃ priv, raw = codec.privatePEM priv
  org : ∀ name ∈ orgs, s.get global serverKeysColl (serverKeyValidator name) = none ∨ ∃ priv, Provided codec s name priv

def Keyed (orgs : List GoString) (s : Store) : Prop :=
  ∀ name ∈ orgs, s.hasOrg name → (s.get global serverKeysColl (serverKeyValidator name)).isSome

structure Untouched (name : GoString) (s t : Store) : Prop where
  present : t.hasOrg name = s.hasOrg name
  stored : t.get global serverKeysColl (serverKeyValidator name) = s.get global serverKeysColl (serverKeyValidator name)
  client : t.get name clients (validatorName name) = s.get name clients (validatorName name)

theorem Untouched.refl (s : Store) : Untouched name s s := ⟨rfl, rfl, rfl⟩

theorem Untouched.trans {u : Store} (first : Untouched name s t) (second : Untouched name t u) :
    Untouched name s u :=
  ⟨second.present.trans first.present, second.stored.trans first.stored, second.client.trans first.client⟩

theorem Untouched.provided (same : Untouched name s t) (provided : Provided codec s name priv) :
    Provided codec t name priv :=
  ⟨same.present.trans provided.present, same.stored.trans provided.stored, same.client.trans provided.client⟩

theorem Sound.of_same (sound : Sound codec orgs s) (placed : Placed t)
    (regular : AllAccounts Regular t)
    (admin : t.get global serverKeysColl serverKeyAdmin = s.get global serverKeysColl serverKeyAdmin)
    (same : ∀ name ∈ orgs, Untouched name s t) : Sound codec orgs t where
  placed := placed
  regular := regular
  admin raw found := sound.admin raw (admin.symm.trans found)
  org name mem := (sound.org name mem).imp (same name mem).stored.trans fun ⟨priv, provided⟩ =>
    ⟨priv, (same name mem).provided provided⟩

theorem serverKeys_hidden : ¬ PublicColl serverKeysColl := by decide

theorem untouched_frame (frame : Frame space f s t) (known : PublicColls f)
    (noPut : clients ∉ f.puts) (noDelete : clients ∉ f.deletes) :
    Untouched name s t :=
  ⟨frame.hasOrg name, frame.privateColl known serverKeys_hidden, frame.gets noPut noDelete⟩

theorem untouched_put (known : PublicColl coll) (other : coll ≠ clients) :
    Untouched name s (s.put space coll key raw) :=
  untouched_frame (frame_put_one s) ⟨by simpa using known, by simp⟩ (by simpa using other.symm) (by simp)

theorem Sound.put (sound : Sound codec orgs s) (there : Available s space)
    (fixed : coll ∈ plainColls) :
    Sound codec orgs (s.put space coll key raw) := by
  have frame := @frame_put_one space coll key raw s
  have apart : Unaccounted ⟨[coll], []⟩ := ⟨by simpa using noAccount_fixed fixed, by simp⟩
  have known : PublicColl coll := .inr (mem_cons_of_mem _ (mem_cons_of_mem _ fixed))
  have other : coll ≠ clients := fun same => absurd (same ▸ fixed) (by decide)
  exact sound.of_same (sound.placed.frame there frame)
    (sound.regular.of_eq (accounts_frame frame apart))
    (get_put_of_ne fun same => serverKeys_hidden (same ▸ known)) fun _ _ => untouched_put known other

theorem Sound.putAdmin {pub : GoString} (sound : Sound codec orgs s) :
    Sound codec orgs (s.put global users adminName (adminDoc adminName pub)) := by
  have regular : AllAccounts Regular (s.put global users adminName (adminDoc adminName pub)) :=
    sound.regular.becomes ((sound.regular _).putRecord rfl) (@accounts_putRecord _ .users _ _)
  exact sound.of_same (sound.placed.frame (.inl rfl) (frame_put_one s)) regular
    (get_put_of_ne (by decide)) fun _ _ => untouched_put (by decide) (by decide)

theorem regular_putServerKey (regular : AllAccounts Regular s) :
    AllAccounts Regular (s.put global serverKeysColl key raw) :=
  regular.of_eq (accounts_frame (frame_put_one s) ⟨by simpa using noAccount_plain (by decide) (by decide), by simp⟩)

theorem untouched_putKey {raw : Raw} (other : key ≠ serverKeyValidator name) :
    Untouched name s (s.put global serverKeysColl key raw) := by
  refine ⟨rfl, ?_, get_put_of_ne (by decide)⟩
  rw [get_put, if_neg fun here => other here.2.2]

theorem admin_ne_validator (name : GoString) : serverKeyAdmin ≠ serverKeyValidator name := nofun

theorem Sound.putAdminKey (sound : Sound codec orgs s) :
    Sound codec orgs (s.put global serverKeysColl serverKeyAdmin (codec.privatePEM priv)) where
  placed := sound.placed.frame (.inl rfl) (frame_put_one s)
  regular := regular_putServerKey sound.regular
  admin raw found := by
    rw [get_put, if_pos ⟨rfl, rfl, rfl⟩] at found
    exact ⟨priv, (Option.some.inj found).symm⟩
  org name mem := by
    have same := @untouched_putKey s name serverKeyAdmin (codec.privatePEM priv) (admin_ne_validator name)
    exact (sound.org name mem).imp same.stored.trans fun ⟨priv, provided⟩ =>
      ⟨priv, same.provided provided⟩

structure Created (codec : KeyCodec K) (s t : Store) (name : GoString) (priv : K) : Prop where
  present : t.hasOrg name
  keys : ∀ key, t.get global serverKeysColl key = s.get global serverKeysColl key
  client : t.get name clients (validatorName name) = some (validatorRecord codec name priv)
  others : ∀ other ≠ name, Untouched other s t
  placed : Placed s → orgNameRE name → Placed t
  regular : AllAccounts Regular s → Placed s → orgNameRE name → AllAccounts Regular t

theorem exec_create {env : BootEnv K} (absent : s.hasOrg name = false) : ∃ t,
    BootCall.exec (.tx (createOrganizationWithKey (validatorEnv codec env name priv) name name)) s =
      (.ok (), t) ∧
      Created codec s t name priv := by
  obtain ⟨u, frame, ran⟩ :=
    @run_createOrganizationWithKey s name name (validatorEnv codec env name priv) absent
  have created (inv : Store → Prop) (leads : Leads exec inv (furnishOrg (validatorEnv codec env name priv) name name)
      (s.createOrg name).1 fun _ => inv) : inv (register (validatorEnv codec env name priv) name name u) := by
    have all : Leads exec inv (createOrganizationWithKey (validatorEnv codec env name priv) name name) s fun _ => inv :=
      leads_createOrganizationWithKey (fun present => absurd (absent.symm.trans present) (by simp)) fun _ => leads
    rw [leads_iff, ran] at all
    exact all
  have made : (s.createOrg name).1.hasOrg name := by rw [Proof.Store.hasOrg_createOrg, beq_self_eq_true, Bool.true_or]
  have keys (key : GoString) : (register (validatorEnv codec env name priv) name name u).get global serverKeysColl key =
      s.get global serverKeysColl key := by
    rw [register, get_put_of_ne (by decide), get_put_of_ne (by decide), get_put_of_ne (by decide),
      frame.privateColl publicColls_seed serverKeys_hidden, Proof.Store.get_createOrg]
  refine ⟨register (validatorEnv codec env name priv) name name u,
    by rw [BootCall.exec, ran], (frame.hasOrg name).trans made,
    keys, ?_, fun other apart => ⟨?_, keys _, ?_⟩, fun placed valid => ?_, fun regular placed valid => ?_⟩
  · rw [register, get_put_of_ne (by decide), get_put, if_pos ⟨rfl, rfl, rfl⟩]
    rfl
  · refine (frame.hasOrg other).trans ?_
    rw [Proof.Store.hasOrg_createOrg, beq_false_of_ne apart.symm, Bool.false_or]
  · have elsewhere : clients ≠ orgsColl := by decide
    rw [register, get_put_of_ne (by decide), get_put, if_neg fun here => apart here.1.symm,
      get_put_of_ne elsewhere.symm,
      frame.elsewhere apart, Proof.Store.get_createOrg]
  · exact created Placed (placed_furnish (placed_createOrg placed valid) made)
  · exact created _ (becomes_furnishOrg placed valid absent (fun _ => regular.of_eq) fun _ =>
      regular.becomes (regular_gone.putRecord rfl))

theorem Created.sound (created : Created codec s t name priv) (sound : Sound codec orgs s)
    (valid : orgNameRE name)
    (unkeyed : s.get global serverKeysColl (serverKeyValidator name) = none) :
    Sound codec orgs t where
  placed := created.placed sound.placed valid
  regular := created.regular sound.regular sound.placed valid
  admin raw found := sound.admin raw ((created.keys _).symm.trans found)
  org other mem := by
    by_cases same : other = name
    · exact .inl (same ▸ (created.keys _).trans unkeyed)
    · exact (sound.org other mem).imp (created.keys _).trans fun ⟨priv, provided⟩ =>
        ⟨priv, (created.others other same).provided provided⟩

theorem serverKeyValidator_injective {other : GoString}
    (same : serverKeyValidator name = serverKeyValidator other) : name = other :=
  List.append_cancel_left same

theorem Created.provided (created : Created codec s t name priv) :
    Provided codec (t.put global serverKeysColl (serverKeyValidator name) (codec.privatePEM priv)) name priv where
  present := created.present
  stored := by rw [get_put, if_pos ⟨rfl, rfl, rfl⟩]
  client := (get_put_of_ne (by decide)).trans created.client

theorem Sound.putValidatorKey (sound : Sound codec orgs t) (created : Created codec s t name priv) :
    Sound codec orgs (t.put global serverKeysColl (serverKeyValidator name) (codec.privatePEM priv)) where
  placed := sound.placed.frame (.inl rfl) (frame_put_one t)
  regular := regular_putServerKey sound.regular
  admin raw found := by
    rw [get_put, if_neg fun here => admin_ne_validator name here.2.2.symm] at found
    exact sound.admin raw found
  org other mem := by
    by_cases same : name = other
    · exact .inr ⟨priv, same ▸ created.provided⟩
    · have kept := @untouched_putKey t other (serverKeyValidator name) (codec.privatePEM priv)
        fun keys => same (serverKeyValidator_injective keys)
      exact (sound.org other mem).imp kept.stored.trans fun ⟨priv, provided⟩ =>
        ⟨priv, kept.provided provided⟩

def Ready (codec : KeyCodec K) (s : Store) (p : OrgPlan K) : Prop :=
  if p.create then s.hasOrg p.name = false ∧ s.get global serverKeysColl (serverKeyValidator p.name) = none
  else Provided codec s p.name p.priv

theorem Untouched.ready (same : Untouched p.name s t) (ready : Ready codec s p) :
    Ready codec t p := by
  unfold Ready at ready ⊢
  split
  · next creates =>
    rw [if_pos creates] at ready
    exact ⟨same.present.trans ready.1, same.stored.trans ready.2⟩
  · next creates =>
    rw [if_neg creates] at ready
    exact same.provided ready

structure Provisioned (codec : KeyCodec K) (plans : List (OrgPlan K)) (reported : GoMap GoString)
    (s t : Store)
    (validatorKeys : GoMap GoString) : Prop where
  planned : ∀ p ∈ plans, validatorKeys[p.name]? = some (codec.encodePrivateKeyPEM p.priv) ∧ Provided codec t p.name p.priv
  others : ∀ name ∉ plans.map OrgPlan.name, validatorKeys[name]? = reported[name]? ∧ Untouched name s t

theorem survives_provision {env : BootEnv K} {plans : List (OrgPlan K)} (reported : GoMap GoString)
    (sound : Sound codec orgs s)
    (valid : ∀ p ∈ plans, orgNameRE p.name) (distinct : (plans.map OrgPlan.name).Nodup)
    (ready : ∀ p ∈ plans, Ready codec s p) :
    Survives BootCall.exec (Sound codec orgs) (provision codec env plans reported) s
      fun result t => ∃ validatorKeys, result = .ok validatorKeys ∧
        Provisioned codec plans reported s t validatorKeys := by
  induction plans generalizing s reported with
  | nil => exact survives_pure sound ⟨reported, rfl, ⟨nofun, fun _ _ => ⟨rfl, .refl s⟩⟩⟩
  | cons p rest ih =>
    obtain ⟨fresh, distinct⟩ := List.nodup_cons.mp distinct
    have others (q : OrgPlan K) (mem : q ∈ rest) : q.name ≠ p.name := fun same =>
      fresh (same ▸ List.mem_map_of_mem mem)
    have here := ready p (mem_cons_self ..)
    -- the rest of the plans leaves the first organization as it is
    have complete {u t : Store} {validatorKeys : GoMap GoString} (provided : Provided codec u p.name p.priv)
        (same : ∀ name ≠ p.name, Untouched name s u)
        (done : Provisioned codec rest (reported.insert p.name (codec.encodePrivateKeyPEM p.priv)) u t validatorKeys) :
        Provisioned codec (p :: rest) reported s t validatorKeys := by
      refine ⟨fun q mem => ?_, fun name outside => ?_⟩
      · rcases List.mem_cons.mp mem with rfl | mem
        · obtain ⟨listed, kept⟩ := done.others q.name fresh
          exact ⟨listed.trans (by simp), kept.provided provided⟩
        · exact done.planned q mem
      · rw [List.map_cons, List.mem_cons, not_or] at outside
        obtain ⟨listed, kept⟩ := done.others name outside.2
        refine ⟨listed.trans ?_, (same name outside.1).trans kept⟩
        rw [Std.ExtTreeMap.getElem?_insert,
          if_neg fun here => outside.1 (Std.compare_eq_iff_eq.mp here).symm]
    unfold provision
    unfold Ready at here
    cases creates : p.create with
    | false =>
      rw [creates] at here
      refine (ih _ sound (fun q mem => valid q (mem_cons_of_mem _ mem)) distinct
        fun q mem => ready q (mem_cons_of_mem _ mem)).mono fun result t _ ⟨validatorKeys, ok, done⟩ => ?_
      exact ⟨validatorKeys, ok, complete here (fun _ _ => .refl s) done⟩
    | true =>
      rw [creates] at here
      obtain ⟨absent, unkeyed⟩ := here
      obtain ⟨u, ran, created⟩ := @exec_create _ codec s p.name p.priv env absent
      have between := created.sound sound (valid p (mem_cons_self ..)) unkeyed
      have same (name : GoString) (other : name ≠ p.name) : Untouched name s
          (u.put global serverKeysColl (serverKeyValidator p.name) (codec.privatePEM p.priv)) :=
        (created.others name other).trans (untouched_putKey fun keys => other (serverKeyValidator_injective keys).symm)
      refine survives_perform sound ?_
      rw [ran]
      refine survives_perform between ?_
      refine (ih _ (between.putValidatorKey created) (fun q mem => valid q (mem_cons_of_mem _ mem)) distinct
        fun q mem => (same q.name (others q mem)).ready (ready q (mem_cons_of_mem _ mem))).mono
          fun result t _ ⟨validatorKeys, ok, done⟩ => ?_
      exact ⟨validatorKeys, ok, complete created.provided same done⟩

def storedKey (codec : KeyCodec K) (s : Store) (key : GoString) : Option K :=
  (s.get global serverKeysColl key).bind codec.parsePrivateKey

section Reading

variable {inv : Store → Prop}

theorem survives_loadServerKey (holds : inv s)
    (readable : ∀ raw, s.get global serverKeysColl key = some raw → ∃ priv, raw = codec.privatePEM priv) :
    Survives BootCall.exec inv (loadServerKey codec key) s fun result t =>
      t = s ∧ result = .ok (storedKey codec s key) := by
  refine survives_perform holds ?_
  dsimp only [BootCall.exec, exec]
  unfold storedKey
  cases found : s.get global serverKeysColl key with
  | none => exact survives_pure holds ⟨rfl, rfl⟩
  | some raw =>
    obtain ⟨priv, rfl⟩ := readable raw found
    have parsed : codec.parsePrivateKey (codec.privatePEM priv) = some priv :=
      codec.parse_encode priv
    simp only [parsed, Option.bind_some]
    exact survives_pure holds ⟨rfl, rfl⟩

theorem survives_loadPlans {names : List GoString} (holds : inv s)
    (readable : ∀ name ∈ names, ∀ raw, s.get global serverKeysColl (serverKeyValidator name) = some raw →
      ∃ priv, raw = codec.privatePEM priv) :
    Survives BootCall.exec inv (loadPlans codec names) s fun result t =>
      t = s ∧ result = .ok (names.map fun name => (name, storedKey codec s (serverKeyValidator name))) := by
  induction names with
  | nil => exact survives_pure holds ⟨rfl, rfl⟩
  | cons name rest ih =>
    refine (survives_loadServerKey holds
      (readable name (mem_cons_self ..))).then ?_ fun _ _ _ stopped => by cases stopped.2
    rintro priv _ - ⟨rfl, loaded⟩
    refine (ih fun name mem => readable name
      (mem_cons_of_mem _ mem)).then ?_ fun _ _ _ stopped => by cases stopped.2
    rintro plans _ - ⟨rfl, planned⟩
    refine survives_pure holds ⟨rfl, ?_⟩
    rw [Except.ok.inj loaded, Except.ok.inj planned]
    rfl

end Reading

theorem map_assignKeys (gen : Nat → K) (gi : Nat) (loaded : List (GoString × Option K)) :
    (assignKeys gen gi loaded).map OrgPlan.name = loaded.map Prod.fst := by
  induction loaded generalizing gi with
  | nil => rfl
  | cons first rest ih =>
    obtain ⟨name, stored | priv⟩ := first
    · simp [assignKeys, ih]
    · simp [assignKeys, ih]

theorem mem_assignKeys {loaded : List (GoString × Option K)} (mem : p ∈ assignKeys gen gi loaded) :
    p.create = true ∧ (p.name, none) ∈ loaded ∨ p.create = false ∧
      (p.name, some p.priv) ∈ loaded := by
  induction loaded generalizing gi with
  | nil => cases mem
  | cons first rest ih =>
    obtain ⟨name, stored | priv⟩ := first
    · rcases List.mem_cons.mp mem with rfl | mem
      · exact .inl ⟨rfl, mem_cons_self ..⟩
      · exact (ih mem).imp (And.imp_right (mem_cons_of_mem _)) (And.imp_right (mem_cons_of_mem _))
    · rcases List.mem_cons.mp mem with rfl | mem
      · exact .inr ⟨rfl, mem_cons_self ..⟩
      · exact (ih mem).imp (And.imp_right (mem_cons_of_mem _)) (And.imp_right (mem_cons_of_mem _))

theorem Provided.storedKey (provided : Provided codec s name priv) :
    storedKey codec s (serverKeyValidator name) = some priv := by
  rw [Server.storedKey, provided.stored, Option.bind_some]
  exact codec.parse_encode priv

theorem Sound.ready (sound : Sound codec orgs s) (keyed : Keyed orgs s)
    (mem : p ∈ assignKeys gen gi (orgs.map fun name => (name, storedKey codec s (serverKeyValidator name)))) : Ready codec s p := by
  unfold Ready
  rcases mem_assignKeys mem with ⟨creates, listed⟩ | ⟨creates, listed⟩
  · obtain ⟨name, configured, same⟩ := List.mem_map.mp listed
    obtain ⟨rfl, unread⟩ := Prod.mk.inj same
    rw [if_pos creates]
    rcases sound.org p.name configured with unkeyed | ⟨priv, provided⟩
    · refine ⟨Bool.eq_false_iff.mpr fun present => ?_, unkeyed⟩
      have kept := keyed p.name configured present
      rw [unkeyed] at kept
      cases kept
    · rw [provided.storedKey] at unread
      cases unread
  · obtain ⟨name, configured, same⟩ := List.mem_map.mp listed
    obtain ⟨rfl, read⟩ := Prod.mk.inj same
    rw [creates, if_neg Bool.false_ne_true]
    rcases sound.org p.name configured with unkeyed | ⟨priv, provided⟩
    · rw [Server.storedKey, unkeyed] at read
      cases read
    · rw [provided.storedKey] at read
      exact Option.some.inj read ▸ provided

structure Upgraded (codec : KeyCodec K) (orgs : List GoString) (s t : Store) : Prop where
  sound : Sound codec orgs t
  same : ∀ name, Untouched name s t

section Upgrades

variable {env : BootEnv K} {u : Store} (upgraded : Upgraded codec orgs u s)
include upgraded

theorem Upgraded.put (there : Available s space) (fixed : coll ∈ plainColls) :
    Upgraded codec orgs u (s.put space coll key raw) := by
  have known : PublicColl coll := .inr (mem_cons_of_mem _ (mem_cons_of_mem _ fixed))
  have other : coll ≠ clients := fun same => absurd (same ▸ fixed) (by decide)
  exact ⟨upgraded.sound.put there fixed,
    fun name => (upgraded.same name).trans (untouched_put known other)⟩

theorem survives_upgradeOrgACLs (there : Available s space) :
    Survives BootCall.exec (Upgraded codec orgs u) (upgradeOrgACLs env space) s fun result _ =>
      result.isOk := by
  refine survives_perform upgraded ?_
  dsimp only [BootCall.exec, exec]
  cases s.get space aclsColl (aclKey containersColl clients) with
  | none => exact survives_pure upgraded rfl
  | some raw =>
    refine survives_ite (fun _ => ?_) fun _ => survives_pure upgraded rfl
    exact survives_call upgraded (survives_pure (upgraded.put there (by decide)) rfl)

theorem survives_upgradePasswords (there : Available s space) :
    Survives BootCall.exec (Upgraded codec orgs u) (upgradePasswords env space) s fun result _ =>
      result.isOk := by
  let inv (t : Store) := Upgraded codec orgs u t ∧ Available t space
  have loop (entries : List (GoString × Raw)) : Survives BootCall.exec inv
      (entries.forM fun entry => Boot.put space passwordsCollection entry.1 (env.hashPassword entry.2)) s fun result _ => result.isOk := by
    refine survives_forM ⟨upgraded, there⟩ fun entry _ t holds => ?_
    exact survives_call holds (survives_pure ⟨holds.1.put holds.2 (by decide), holds.2⟩ rfl)
  exact survives_perform upgraded ((loop _).weaken fun _ => And.left)

theorem survives_inEachOrg {upgrade : GoString → Boot Unit}
    (each : ∀ {t} name, Upgraded codec orgs u t → Available t name →
      Survives BootCall.exec (Upgraded codec orgs u) (upgrade name) t fun result _ => result.isOk) :
    Survives BootCall.exec (Upgraded codec orgs u) (inEachOrg upgrade) s fun result _ =>
      result.isOk := by
  refine survives_perform upgraded (survives_forM upgraded fun name _ t holds => ?_)
  refine survives_perform holds ?_
  show Survives _ _ (if t.hasOrg name then upgrade name else pure ()) _ _
  exact survives_ite (fun present => each name holds (.inr present)) fun _ =>
    survives_pure holds rfl

end Upgrades

theorem survives_bootstrapAdmin (fresh : Bool) (sound : Sound codec orgs s) :
    Survives BootCall.exec (Sound codec orgs) (bootstrapAdmin codec adminName priv fresh) s
      fun result t => result.isOk ∧ ∀ name, Untouched name s t := by
  refine survives_ite (fun _ => ?_) fun _ => survives_pure sound ⟨rfl, fun _ => .refl s⟩
  refine survives_perform sound
    (survives_call sound.putAdmin (survives_pure sound.putAdmin.putAdminKey ⟨rfl, fun name => ?_⟩))
  exact (untouched_put (by decide) (by decide)).trans (untouched_putKey (admin_ne_validator name))

def Reports (codec : KeyCodec K) (orgs : List GoString) (server : ServerKeys) (t : Store) : Prop :=
  ∀ name ∈ orgs, ∃ priv, server.validatorKeys[name]? = some (codec.encodePrivateKeyPEM priv) ∧ Provided codec t name priv

structure Options.Proper (codec : KeyCodec K) (opts : Options) : Prop where
  valid : ∀ name ∈ opts.withDefaults.orgs, orgNameRE name
  distinct : opts.withDefaults.orgs.Nodup
  webUI : opts.webUIKey ≠ [] → (codec.parseWebUIKey opts.webUIKey).isSome

theorem survives_new {opts : Options} {env : BootEnv K} (proper : Options.Proper codec opts)
    (sound₀ : Sound codec opts.withDefaults.orgs s) (keyed : Keyed opts.withDefaults.orgs s) :
    Survives BootCall.exec (Sound codec opts.withDefaults.orgs) (new codec opts env) s
      fun result t => ∃ server, result = .ok server ∧ Reports codec opts.withDefaults.orgs server t := by
  refine (survives_loadServerKey sound₀ sound₀.admin).then ?_ fun _ _ _ stopped => by cases stopped.2
  rintro stored _ - ⟨rfl, -⟩
  refine (survives_loadPlans sound₀ fun name mem raw found => ?_).then ?_ fun _ _ _ stopped => by cases stopped.2
  · rcases sound₀.org name mem with unkeyed | ⟨priv, provided⟩
    · rw [unkeyed] at found
      cases found
    · exact ⟨priv, Option.some.inj (found.symm.trans provided.stored)⟩
  rintro loaded s - ⟨rfl, loads⟩
  obtain rfl := Except.ok.inj loads
  refine (survives_bootstrapAdmin _ sound₀).then ?_ fun _ _ _ stopped => by cases stopped.1
  rintro _ t sound ⟨-, same⟩
  have passes : checkWebUIKey codec opts.webUIKey = pure () := if_neg fun ⟨given, unparsed⟩ => by
    have parsed := proper.webUI given
    rw [Option.isNone_iff_eq_none.mp unparsed] at parsed
    cases parsed
  refine (show Survives BootCall.exec _
    (checkWebUIKey codec opts.webUIKey) t fun result u => result.isOk ∧ u = t by
    rw [passes]; exact survives_pure sound ⟨rfl, rfl⟩).then ?_ fun _ _ _ stopped => by cases stopped.1
  rintro _ t - ⟨-, rfl⟩
  have names : (assignKeys env.generateKeys (if stored.isNone then 1 else 0) (opts.withDefaults.orgs.map fun name =>
      (name, storedKey codec s (serverKeyValidator name)))).map OrgPlan.name = opts.withDefaults.orgs := by
    rw [map_assignKeys, List.map_map]
    exact List.map_id _
  refine (survives_provision ∅ sound (fun p mem => proper.valid _ (names ▸ List.mem_map_of_mem mem))
    (names.symm ▸ proper.distinct)
    fun p mem => (same p.name).ready (sound₀.ready keyed mem)).then ?_ fun _ _ _ ⟨_, ok, _⟩ => by cases ok
  rintro validatorKeys u sound ⟨_, ok, done⟩
  obtain rfl := Except.ok.inj ok
  have upgraded : Upgraded codec opts.withDefaults.orgs u u := ⟨sound, fun _ => .refl u⟩
  refine Survives.weaken ?_ fun _ (held : Upgraded codec _ u _) => held.sound
  refine (survives_inEachOrg upgraded fun name held there => survives_upgradeOrgACLs held there).then ?_
    fun _ _ _ stopped => by cases stopped
  rintro _ v held -
  refine (survives_upgradePasswords held (.inl rfl)).then ?_ fun _ _ _ stopped => by cases stopped
  rintro _ v held -
  refine (survives_inEachOrg held fun name held there => survives_upgradePasswords held there).then ?_
    fun _ _ _ stopped => by cases stopped
  rintro _ v held -
  refine survives_pure held ⟨_, rfl, fun name mem => ?_⟩
  obtain ⟨p, planned, rfl⟩ := List.mem_map.mp (names.symm ▸ mem)
  obtain ⟨reported, provided⟩ := done.planned p planned
  exact ⟨p.priv, reported, (held.same p.name).provided provided⟩

def Spares (orgs : List GoString) (request : ApiRequest) (_ : Store) : Prop :=
  ∀ name ∈ orgs, ¬ Targets request (.clients name, validatorName name)

theorem Sound.serves [Unicode] {request : ApiRequest} (sound : Sound codec orgs s)
    (provided : ∀ name ∈ orgs, ∃ priv, Provided codec s name priv)
    (spares : Spares orgs request s) :
    Sound codec orgs ((request.handler enforceACL).run exec s).2 ∧
      ∀ name ∈ orgs, ∃ priv, Provided codec ((request.handler enforceACL).run exec s).2 name priv := by
  have kept := leads_iff.mp (@unscathed_request s serverKeysColl _ enforceACL serverKeys_hidden sound.placed request)
  have provided (name : GoString) (mem : name ∈ orgs) :
      ∃ priv, Provided codec ((request.handler enforceACL).run exec s).2 name priv := by
    obtain ⟨priv, before⟩ := provided name mem
    have apart := spares name mem
    have stays : ¬ Removes request name := by
      rintro rfl
      exact apart rfl
    have client := leads_iff.mp (@record_request s (.clients name, validatorName name) _ enforceACL _ sound.regular sound.placed request
      apart (.inr before.present) before.client)
    exact ⟨priv, kept.orgs name stays before.present, (kept.global _).trans before.stored, client⟩
  refine ⟨⟨?_, ?_, fun raw found => sound.admin raw ((kept.global _).symm.trans found), fun name mem => .inr (provided name mem)⟩, provided⟩
  · exact leads_iff.mp (placed_request sound.placed request)
  · exact leads_iff.mp (regular_request sound.regular sound.placed request)

theorem keyed_of_provided (provided : ∀ name ∈ orgs, ∃ priv, Provided codec s name priv) :
    Keyed orgs s := fun name mem _ =>
  let ⟨_, given⟩ := provided name mem
  Option.isSome_of_eq_some given.stored

theorem sound_empty : Sound codec orgs Store.newMemoryBackend :=
  ⟨⟨nofun, nofun⟩, fun _ => regular_gone, nofun, fun _ _ => .inl rfl⟩

theorem sound_of_lifetime [Unicode] {opts : Options} {serving : Bool}
    (proper : Options.Proper codec opts)
    (life : Lifetime codec opts enforceACL (Keyed opts.withDefaults.orgs) (Spares opts.withDefaults.orgs) serving s) :
    Sound codec opts.withDefaults.orgs s ∧ Keyed opts.withDefaults.orgs s ∧
      (serving → ∀ name ∈ opts.withDefaults.orgs, ∃ priv, Provided codec s name priv) := by
  induction life with
  | empty => exact ⟨sound_empty, nofun, nofun⟩
  | stopped before env cut keyed ih => exact ⟨(survives_new proper ih.1 ih.2.1).cut _ cut, keyed, nofun⟩
  | started before env server ran ih =>
    obtain ⟨sound, keyed, -⟩ := ih
    have start := @survives_new _ codec _ _ env proper sound keyed
    have sound := start.cut _ (cut_run _ _)
    obtain ⟨_, -, reports⟩ := start.ends
    rw [ran] at sound reports
    have provided (name : GoString) (mem : name ∈ opts.withDefaults.orgs) : ∃ priv, Provided codec _ name priv :=
      let ⟨priv, _, given⟩ := reports name mem
      ⟨priv, given⟩
    exact ⟨sound, keyed_of_provided provided, fun _ => provided⟩
  | served before request spares ih =>
    obtain ⟨sound, -, provided⟩ := ih
    obtain ⟨sound, provided⟩ := sound.serves (provided rfl) spares
    exact ⟨sound, keyed_of_provided provided, fun _ => provided⟩

/-- After any life in which no start stopped between creating an organization and storing its key, and no
request took either away, the server starts and reports for each organization a key its validator has. -/
theorem bootstrap_restarts [Unicode] {opts : Options} {enforceACL serving : Bool}
    (proper : Options.Proper codec opts)
    (life : Lifetime codec opts enforceACL (Keyed opts.withDefaults.orgs) (Spares opts.withDefaults.orgs) serving s) (env : BootEnv K) :
    ∃ server t, (new codec opts env).run BootCall.exec s = (.ok server, t) ∧
      Reports codec opts.withDefaults.orgs server t := by
  obtain ⟨sound, keyed, -⟩ := sound_of_lifetime proper life
  obtain ⟨server, ok, reports⟩ := (survives_new proper sound keyed).ends
  exact ⟨server, _, Prod.ext ok rfl, reports⟩

section Samples

def plainCodec : KeyCodec GoString where
  encodePrivateKeyPEM := id
  encodePublicKeyPEM := id
  parsePrivateKey
    | .malformed bytes => some bytes
    | .document _ => none
  parse_encode _ := rfl
  parseWebUIKey := some

def plainBoot : BootEnv GoString where
  generateKeys n := List.replicate (n + 1) 0x6B
  randomGUID := id
  isPasswordHash _ := true
  hashPassword := id
  bytesEqual _ _ := false

def acmeOptions : Options := ⟨[acme], lit "pivotal", []⟩

def startAgain (opts : Options) (s : Store) : Except BootError ServerKeys × Store :=
  (new plainCodec opts plainBoot).run BootCall.exec s

def bootedAcme : Store := (startAgain acmeOptions Store.newMemoryBackend).2

theorem acme_proper : Options.Proper plainCodec acmeOptions := ⟨by decide, by decide, nofun⟩

theorem served_server_restarts : letI : Unicode := ⟨id⟩
    ∃ server t, startAgain acmeOptions (serveAll true [makesNode] bootedAcme) = (.ok server, t) ∧
      Reports plainCodec [acme] server t := by
  let _ : Unicode := ⟨id⟩
  obtain ⟨server, ok, -⟩ :=
    (@survives_new _ plainCodec _ _ plainBoot acme_proper sound_empty nofun).ends
  have started : Lifetime plainCodec acmeOptions true (Keyed [acme]) (Spares [acme]) true bootedAcme :=
    .started .empty plainBoot server (Prod.ext ok rfl)
  exact bootstrap_restarts acme_proper (.served started makesNode fun _ _ => not_false) plainBoot

def refusesOrg : Except BootError ServerKeys → Bool
  | .error (.createOrg ..) => true
  | _ => false

theorem restart_incomplete : letI : Unicode := ⟨id⟩
    (∃ t, (new plainCodec acmeOptions plainBoot).Cut BootCall.exec Store.newMemoryBackend t ∧ refusesOrg (startAgain acmeOptions t).1) ∧
    (startAgain acmeOptions Store.newMemoryBackend).1.isOk ∧
    (startAgain acmeOptions (serveAll true [.organization (.delete acme)] bootedAcme)).2.hasOrg acme = false ∧
    ((startAgain acmeOptions (serveAll true [.actor (.clients acme) (.delete (creates []) (validatorName acme))] bootedAcme)).2.get
      acme clients (validatorName acme)).isNone ∧
    refusesOrg (startAgain ⟨[acme, acme], lit "pivotal", []⟩ Store.newMemoryBackend).1 := by
  let _ : Unicode := ⟨id⟩
  refine ⟨⟨_, cut_after 5 _ _, ?_⟩, ?_, ?_, ?_, ?_⟩ <;> decide +kernel

end Samples

end CincServer.Proof.Server
