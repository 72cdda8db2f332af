import CincServer.Proof.Store.GroupCommit
import CincServer.Proof.Store.Memory
import CincServer.Store.Watch

/-!
# The two backends answer alike
-/

namespace CincServer.Proof.Store
open CincServer.Store Go Lib Lib.Machine Lib.Transaction
open Std.ExtTreeMap (getD_eq_getD_getElem? nodup_keys mem_keys mem_iff_isSome_getElem? getD_erase)
open Database (putJob createJob deleteJob deleteBlobJob createOrgJob coalesce write)

variable {V Out : Type} {job : WriteJob (Database V) Out}

theorem get_set_row (m : MemoryBackend V) (org coll key : GoString) (val : V) (row : ObjectKey) :
    (m.set org coll key val).get row.org row.coll row.key =
      if ⟨org, coll, key⟩ = row then some val else m.get row.org row.coll row.key := by
  obtain ⟨org', coll', key'⟩ := row
  simp only [get_set, ObjectKey.mk.injEq]

theorem get_delete_row (m : MemoryBackend V) (org coll key : GoString) (row : ObjectKey) :
    (m.delete org coll key).1.get row.org row.coll row.key =
      if row = ⟨org, coll, key⟩ then none else m.get row.org row.coll row.key := by
  obtain ⟨org', coll', key'⟩ := row
  simp only [get_delete, eq_comm (b := ObjectKey.mk org coll key), ObjectKey.mk.injEq]

theorem blob_putBlob_row (m : MemoryBackend V) (org checksum : GoString) (data : V)
    (row : BlobKey) :
    (m.putBlob org checksum data).blob row.org row.checksum =
      if ⟨org, checksum⟩ = row then some data else m.blob row.org row.checksum := by
  obtain ⟨org', checksum'⟩ := row
  simp only [blob_putBlob, BlobKey.mk.injEq]

theorem blob_deleteBlob_row (m : MemoryBackend V) (org checksum : GoString) (row : BlobKey) :
    (m.deleteBlob org checksum).blob row.org row.checksum =
      if row = ⟨org, checksum⟩ then none else m.blob row.org row.checksum := by
  obtain ⟨org', checksum'⟩ := row
  simp only [blob_deleteBlob, eq_comm (b := BlobKey.mk org checksum), BlobKey.mk.injEq]

structure Mirrors (m : MemoryBackend V) (db : Database V) : Prop where
  objects : ∀ row : ObjectKey, m.get row.org row.coll row.key = db.objects.lookup row
  blobs : ∀ row : BlobKey, m.blob row.org row.checksum = db.blobs.lookup row
  orgs : ∀ name, m.orgs[name]? = (db.orgs.lookup name).map fun _ => true

theorem mirrors_new : Mirrors (newMemoryBackend : MemoryBackend V) newDatabase := by
  constructor <;> intro _ <;> simp [newMemoryBackend, newDatabase, MemoryBackend.get,
    MemoryBackend.objects, MemoryBackend.blob, MemoryBackend.blobsOf]

variable {m : MemoryBackend V} {db : Database V}

theorem Mirrors.hasOrg (same : Mirrors m db) (name : GoString) :
    m.hasOrg name = db.hasOrg name := by
  rw [MemoryBackend.hasOrg, getD_eq_getD_getElem?, same.orgs, Database.hasOrg]
  cases db.orgs.lookup name <;> rfl

theorem Mirrors.mem_objects (same : Mirrors m db) {org coll key : GoString} {val : V} :
    (m.objects org coll)[key]? = some val ↔
      (key, val) ∈ (db.objects.select fun row => row.org = org ∧ row.coll = coll).map
        fun row => (row.1.key, row.2) := by
  rw [List.mem_map]
  constructor
  · intro found
    refine ⟨(⟨org, coll, key⟩, val), Table.mem_select.mpr ⟨by simp, ?_⟩, rfl⟩
    rw [← same.objects]
    exact found
  · rintro ⟨⟨⟨org', coll', key'⟩, val'⟩, member, pair⟩
    obtain ⟨there, found⟩ := Table.mem_select.mp member
    simp only [decide_eq_true_eq] at there
    obtain ⟨rfl, rfl⟩ := there
    obtain ⟨rfl, rfl⟩ := Prod.mk.inj pair
    rw [← same.objects] at found
    exact found

theorem Mirrors.keys (same : Mirrors m db) (org coll : GoString) :
    m.keys org coll = db.keys org coll := by
  refine sortStrings_eq_of_mem nodup_keys ?_ fun key => ?_
  · -- within one collection the primary key is the key alone
    have nodup := db.objects.select_keys_nodup fun row => row.org = org ∧ row.coll = coll
    have keyed : ∀ row ∈ (db.objects.select fun row => row.org = org ∧ row.coll = coll).map Prod.fst,
        row.org = org ∧ row.coll = coll := by
      intro row member
      obtain ⟨⟨row, val⟩, selected, rfl⟩ := List.mem_map.mp member
      simpa using (Table.mem_select.mp selected).1
    have injective := List.Nodup.map_on (f := ObjectKey.key) (fun a left b right keyEq => by
      obtain ⟨aOrg, aColl⟩ := keyed a left
      obtain ⟨bOrg, bColl⟩ := keyed b right
      cases a
      cases b
      simp_all) nodup
    simpa [List.map_map, Function.comp_def] using injective
  · rw [mem_keys, mem_iff_isSome_getElem?, Option.isSome_iff_exists]
    simp only [same.mem_objects, List.mem_map, Prod.mk.injEq, Prod.exists]
    constructor
    · rintro ⟨val, row, val', member, rfl, rfl⟩
      exact ⟨row, val', member, rfl⟩
    · rintro ⟨row, val, member, rfl⟩
      exact ⟨val, row, val, member, rfl, rfl⟩

theorem Mirrors.range_eq (same : Mirrors m db) (org coll : GoString) :
    m.range org coll = db.range org coll := by
  have names : (m.range org coll).map Prod.fst = (db.range org coll).map Prod.fst := by
    have sorted : (m.objects org coll).keys.Pairwise byteLe :=
      Std.ExtTreeMap.ordered_keys.imp fun lt => by rw [byteLe, lt]; rfl
    have keys := same.keys org coll
    rw [MemoryBackend.keys, sortStrings, sorted.insertionSort_eq] at keys
    rw [MemoryBackend.range, Std.ExtTreeMap.map_fst_toList_eq_keys, keys, Database.range,
      List.map_insertionSort _ byteLe]
    · rw [List.map_map]
      rfl
    · simp
  have graph (entries : List (GoString × V)) (held : ∀ entry ∈ entries, (m.objects org coll)[entry.1]? = some entry.2) :
      entries = (entries.map Prod.fst).filterMap fun key =>
        (m.objects org coll)[key]?.map (key, ·) := by
    induction entries with
    | nil => rfl
    | cons entry entries ih =>
      obtain ⟨head, tail⟩ := List.forall_mem_cons.mp held
      simp only [List.map_cons, List.filterMap_cons, head, Option.map_some, ← ih tail]
  rw [graph (m.range org coll) fun entry mem => Std.ExtTreeMap.mem_toList_iff_getElem?_eq_some.mp mem, names]
  refine (graph _ fun entry mem => same.mem_objects.mpr ?_).symm
  rwa [Database.range, List.mem_insertionSort] at mem

theorem Mirrors.range [DecidableEq V] (same : Mirrors m db) (org coll : GoString) :
    (m.range org coll).toFinset = (db.range org coll).toFinset :=
  congrArg List.toFinset (same.range_eq org coll)

theorem Mirrors.collections (same : Mirrors m db) (org : GoString) :
    m.collections org = db.collections org := by
  refine sortStrings_eq_of_mem ?_ (List.nodup_dedup _) fun coll => ?_
  · have nodup : ((m.data.getD org ∅).toList.map Prod.fst).Nodup := by
      rw [Std.ExtTreeMap.map_fst_toList_eq_keys]
      exact nodup_keys
    exact nodup.sublist (List.filter_sublist.map Prod.fst)
  · have nonempty : (∃ keys, (m.data.getD org ∅)[coll]? = some keys ∧ 0 < keys.size) ↔
        ∃ key val, m.get org coll key = some val := by
      simp only [MemoryBackend.get, MemoryBackend.objects]
      rw [getD_eq_getD_getElem? (a := coll)]
      cases inner : (m.data.getD org ∅)[coll]? with
      | none => simp
      | some keys =>
        simpa using size_pos keys
    simp only [List.mem_map, List.mem_filter, Std.ExtTreeMap.mem_toList_iff_getElem?_eq_some,
      Prod.exists, decide_eq_true_eq, exists_and_right, exists_eq_right, List.mem_dedup, nonempty]
    constructor
    · rintro ⟨key, val, found⟩
      refine ⟨⟨org, coll, key⟩, ⟨val, Table.mem_select.mpr ⟨by simp, ?_⟩⟩, rfl⟩
      rw [← same.objects]
      exact found
    · rintro ⟨row, ⟨val, member⟩, rfl⟩
      obtain ⟨there, found⟩ := Table.mem_select.mp member
      rw [← same.objects, of_decide_eq_true there] at found
      exact ⟨row.key, val, found⟩

theorem Mirrors.listOrgs (same : Mirrors m db) : m.listOrgs = db.listOrgs := by
  refine sortStrings_eq_of_mem nodup_keys db.orgs.primaryKey fun name => ?_
  rw [mem_keys, mem_iff_isSome_getElem?, same.orgs, Option.isSome_map]
  exact Table.mem_keysOf.symm

theorem Mirrors.put (same : Mirrors m db) (org coll key : GoString) (val : V) :
    Mirrors (m.put org coll key val) ((putJob org coll key val).apply db).1 where
  objects row := by
    rw [MemoryBackend.put, get_set_row, same.objects]
    exact (db.objects.lookup_upsert _ row val).symm
  blobs := same.blobs
  orgs := same.orgs

def InsertedAlike (left : MemoryBackend V × Option StoreError) (right : Database V × Answer Unit) :
    Prop :=
  Mirrors left.1 right.1 ∧
    (left.2 = none ∧ right.2 = .ok () ∨ left.2 = some .errConflict ∧ right.2 = .error .errConflict)

theorem InsertedAlike.isOk {left : MemoryBackend V × Option StoreError}
    {right : Database V × Answer Unit}
    (alike : InsertedAlike left right) : left.2.isNone = right.2.isOk := by
  obtain ⟨made, answer⟩ | ⟨taken, answer⟩ := alike.2
  · rw [made, answer]
    rfl
  · rw [taken, answer]
    rfl

theorem Mirrors.create (same : Mirrors m db) (org coll key : GoString) (val : V) :
    InsertedAlike (m.create org coll key val) ((createJob org coll key val).apply db) := by
  have held := same.objects ⟨org, coll, key⟩
  simp only [MemoryBackend.create, createJob]
  cases found : m.get org coll key with
  | some stored =>
    rw [Table.insertOrIgnore_present (by rw [← held, found]; rfl)]
    exact ⟨same, .inr ⟨rfl, rfl⟩⟩
  | none =>
    obtain ⟨inserted, lookup⟩ := Table.insertOrIgnore_fresh (held.symm.trans found) val
    rw [inserted]
    refine ⟨⟨fun row => ?_, same.blobs, same.orgs⟩, .inl ⟨rfl, rfl⟩⟩
    rw [get_set_row, same.objects]
    exact (lookup row).symm

theorem Mirrors.delete (same : Mirrors m db) (org coll key : GoString) :
    Mirrors (m.delete org coll key).1 ((deleteJob org coll key).apply db).1 ∧
      ((deleteJob org coll key).apply db).2 = .ok (m.delete org coll key).2 := by
  have lookup := get_delete_row m org coll key
  have held : m.get org coll key = db.get org coll key := same.objects ⟨org, coll, key⟩
  simp only [MemoryBackend.delete, deleteJob, ← held] at lookup ⊢
  cases found : m.get org coll key with
  | none => exact ⟨same, rfl⟩
  | some old =>
    simp only [found] at lookup
    refine ⟨⟨fun row => ?_, same.blobs, same.orgs⟩, rfl⟩
    rw [lookup, same.objects, Table.lookup_deleteWhere]
    simp

theorem Mirrors.putBlob (same : Mirrors m db) (org checksum : GoString) (data : V) :
    Mirrors (m.putBlob org checksum data) ((Database.putBlobJob org checksum data).apply db).1 where
  objects := same.objects
  blobs row := by
    rw [blob_putBlob_row, same.blobs]
    exact (db.blobs.lookup_upsert _ row data).symm
  orgs := same.orgs

theorem Mirrors.deleteBlob (same : Mirrors m db) (org checksum : GoString) :
    Mirrors (m.deleteBlob org checksum) ((deleteBlobJob org checksum).apply db).1 where
  objects := same.objects
  blobs row := by
    rw [blob_deleteBlob_row, same.blobs]
    simp [deleteBlobJob, Table.lookup_deleteWhere]
  orgs := same.orgs

theorem Mirrors.createOrg (same : Mirrors m db) (name : GoString) :
    InsertedAlike (m.createOrg name) ((createOrgJob name).apply db) := by
  simp only [MemoryBackend.createOrg, createOrgJob, same.hasOrg]
  cases held : db.orgs.lookup name with
  | some stored =>
    rw [Table.insertOrIgnore_present (by rw [held]; rfl)]
    simp only [Database.hasOrg, held]
    exact ⟨same, .inr ⟨rfl, rfl⟩⟩
  | none =>
    obtain ⟨inserted, lookup⟩ := Table.insertOrIgnore_fresh held ()
    rw [inserted]
    simp only [Database.hasOrg, held, Option.isSome_none, Bool.false_eq_true, if_false]
    refine ⟨⟨same.objects, same.blobs, fun other => ?_⟩, .inl ⟨rfl, rfl⟩⟩
    rw [lookup, Std.ExtTreeMap.getElem?_insert, same.orgs]
    by_cases here : name = other <;> simp [here]

theorem Mirrors.deleteOrg (same : Mirrors m db) (name : GoString) :
    Mirrors (m.deleteOrg name).1 ((Database.deleteOrgJob name).apply db).1 ∧
      ((Database.deleteOrgJob name).apply db).2 = .ok (m.deleteOrg name).2 := by
  have unknown : (db.orgs.deleteWhere fun row => row = name).2 = 0 ↔ m.hasOrg name = false := by
    rw [Table.deleteWhere_none, same.hasOrg]
    simp [Database.hasOrg]
  simp only [MemoryBackend.deleteOrg, Database.deleteOrgJob, unknown]
  cases known : m.hasOrg name with
  | false =>
    refine ⟨⟨same.objects, same.blobs, fun other => ?_⟩, rfl⟩
    have absent := Table.deleteWhere_none.mp (unknown.mpr known)
    have held := same.orgs other
    simp only [Bool.not_false, if_true, Table.lookup_deleteWhere]
    by_cases here : other = name
    · rw [held, absent other (by simpa using here), if_pos (by simpa using here)]
    · rw [held, if_neg (by simpa using here)]
  | true =>
    refine ⟨⟨fun row => ?_, fun row => ?_, fun other => ?_⟩, rfl⟩
    · have held := same.objects row
      simp only [MemoryBackend.get, MemoryBackend.objects] at held ⊢
      by_cases here : row.org = name
      · simp [Table.lookup_deleteWhere, here]
      · simp [Table.lookup_deleteWhere, getD_erase, here, Ne.symm here, held]
    · have held := same.blobs row
      simp only [MemoryBackend.blob, MemoryBackend.blobsOf] at held ⊢
      by_cases here : row.org = name
      · simp [Table.lookup_deleteWhere, here]
      · simp [Table.lookup_deleteWhere, getD_erase, here, Ne.symm here, held]
    · have held := same.orgs other
      by_cases here : other = name
      · simp [Table.lookup_deleteWhere, here]
      · simp [Table.lookup_deleteWhere, Std.ExtTreeMap.getElem?_erase, here, Ne.symm here, held]

theorem coalesce_apply {db : Database V}
    (fine : ∀ message, (job.apply db).2 ≠ .error (.other message)) (groupCommit : Bool) :
    coalesce groupCommit job db = job.apply db := by
  cases groupCommit with
  | false => rfl
  | true =>
    cases run : job.apply db with
    | mk db' answer =>
      cases answer with
      | ok out => simp [coalesce, runBatch, applyBatch, run, Faults.none, sends]
      | error err =>
        cases err with
        | errConflict =>
          simp [coalesce, runBatch, applyBatch, run, Faults.none, sends, StoreError.isConflict]
        | other message => exact absurd (by rw [run]) (fine message)

theorem write_of_ok {db : Database V} {out : Out}
    (run : (job.apply db).2 = .ok out) (groupCommit : Bool) (ok : Out → Reply V) :
    db.write groupCommit job ok = ((job.apply db).1, ok out) := by
  rw [write, coalesce_apply (by simp [run]), run]
  rfl

theorem write_of_conflict {db : Database V}
    (run : (job.apply db).2 = .error .errConflict) (groupCommit : Bool) (ok : Out → Reply V) :
    db.write groupCommit job ok = ((job.apply db).1, .failed .errConflict) := by
  rw [write, coalesce_apply (by simp [run]), run]
  rfl

section Runs
variable [DecidableEq V]

theorem step_simulation (groupCommit : Bool) :
    Simulation Mirrors (MemoryBackend.step (V := V)) (Database.step groupCommit) := by
  intro m db same op
  cases op with
  | get org coll key => exact ⟨same, congrArg Reply.body (same.objects ⟨org, coll, key⟩)⟩
  | put org coll key val =>
    rw [Database.step, write_of_ok rfl]
    exact ⟨same.put org coll key val, rfl⟩
  | create org coll key val =>
    obtain ⟨after, alike⟩ := same.create org coll key val
    rw [MemoryBackend.step, Database.step]
    cases created : m.create org coll key val with
    | mk m' err =>
      rw [created] at after alike
      obtain ⟨rfl, answer⟩ | ⟨rfl, answer⟩ := alike
      · rw [write_of_ok answer]
        exact ⟨after, rfl⟩
      · rw [write_of_conflict answer]
        exact ⟨after, rfl⟩
  | delete org coll key =>
    obtain ⟨after, answer⟩ := same.delete org coll key
    rw [Database.step, write_of_ok answer]
    exact ⟨after, rfl⟩
  | keys org coll => exact ⟨same, congrArg Reply.names (same.keys org coll)⟩
  | range org coll => exact ⟨same, congrArg Reply.visited (same.range org coll)⟩
  | collections org => exact ⟨same, congrArg Reply.names (same.collections org)⟩
  | putBlob org checksum data =>
    rw [Database.step, write_of_ok rfl]
    exact ⟨same.putBlob org checksum data, rfl⟩
  | blob org checksum => exact ⟨same, congrArg Reply.body (same.blobs ⟨org, checksum⟩)⟩
  | hasBlob org checksum =>
    have held : m.hasBlob org checksum = db.hasBlob org checksum :=
      congrArg Option.isSome (same.blobs ⟨org, checksum⟩)
    exact ⟨same, congrArg Reply.flag held⟩
  | deleteBlob org checksum =>
    rw [Database.step, write_of_ok rfl]
    exact ⟨same.deleteBlob org checksum, rfl⟩
  | createOrg name =>
    obtain ⟨after, alike⟩ := same.createOrg name
    rw [MemoryBackend.step, Database.step]
    cases created : m.createOrg name with
    | mk m' err =>
      rw [created] at after alike
      obtain ⟨rfl, answer⟩ | ⟨rfl, answer⟩ := alike
      · rw [write_of_ok answer]
        exact ⟨after, rfl⟩
      · rw [write_of_conflict answer]
        exact ⟨after, rfl⟩
  | deleteOrg name =>
    obtain ⟨after, answer⟩ := same.deleteOrg name
    rw [Database.step, write_of_ok answer]
    exact ⟨after, rfl⟩
  | listOrgs => exact ⟨same, congrArg Reply.names same.listOrgs⟩
  | hasOrg name => exact ⟨same, congrArg Reply.flag (same.hasOrg name)⟩

theorem tx_simulation (same : Mirrors m db) (fn : TxFunc V) :
    Mirrors (m.tx fn).1 (db.tx fn).1 ∧ (m.tx fn).2 = (db.tx fn).2 := by
  obtain ⟨after, seen⟩ := (step_simulation false).script fn same
  unfold MemoryBackend.tx Database.tx
  rcases left : fn.run MemoryBackend.step m with ⟨m', inside, err⟩
  rcases right : fn.run (Database.step false) db with ⟨db', inside', err'⟩
  rw [left, right] at after seen
  obtain ⟨rfl, rfl⟩ := Prod.mk.inj seen
  cases err with
  | none => exact ⟨after, rfl⟩
  | some err => exact ⟨same, rfl⟩

theorem call_simulation (groupCommit : Bool) :
    Simulation Mirrors (MemoryBackend.call (V := V)) (Database.call groupCommit) := by
  intro m db same call
  cases call with
  | op op =>
    obtain ⟨after, answer⟩ := step_simulation groupCommit m db same op
    exact ⟨after, congrArg Outcome.op answer⟩
  | tx fn =>
    obtain ⟨after, seen⟩ := tx_simulation same fn
    exact ⟨after, by simp only [MemoryBackend.call, Database.call, seen]⟩

/-- From empty, both backends give every call of every sequence the same outcome. -/
theorem backends_agree (groupCommit : Bool) (calls : List (Call V)) :
    answers MemoryBackend.call calls newMemoryBackend =
      answers (Database.call groupCommit) calls newDatabase :=
  (call_simulation groupCommit).answers calls mirrors_new

end Runs

/-! ## The write stream determines the store -/

open Contents (apply ofEvents)
open MemoryBackend (create delete createOrg deleteOrg tx)

variable {V B : Type}

def NamedOp : Op V → Prop
  | .put _ coll _ _ => coll ≠ []
  | .create _ coll _ _ => coll ≠ []
  | .delete _ coll _ => coll ≠ []
  | _ => True

def NamedCall : Call V → Prop
  | .op op => NamedOp op
  | .tx fn => fn.All NamedOp

theorem apply_write {contents : Contents V} {org coll key : GoString} {value : Option V}
    {deleted : Bool}
    (named : coll ≠ []) :
    contents.apply ⟨org, coll, key, value, deleted⟩ = fun org' coll' key' =>
      if org = org' ∧ coll = coll' ∧ key = key' then value else contents org' coll' key' := by
  funext org' coll' key'
  simp [apply, named]

variable [DecidableEq V]

theorem memory_logged :
    Logged (MemoryBackend.step : MemoryBackend V → Op V → _) NamedOp emit apply MemoryBackend.get := by
  intro m op named
  cases op with
  | put org coll key val =>
    simp only [MemoryBackend.step, emit, List.foldl_cons, List.foldl_nil, apply_write named]
    funext org' coll' key'
    exact (get_set m org coll key val org' coll' key').symm
  | create org coll key val =>
    simp only [MemoryBackend.step, create]
    cases found : m.get org coll key with
    | some old => rfl
    | none =>
      simp only [emit, List.foldl_cons, List.foldl_nil, apply_write named]
      funext org' coll' key'
      exact (get_set m org coll key val org' coll' key').symm
  | delete org coll key =>
    simp only [MemoryBackend.step]
    cases found : m.get org coll key with
    | none => simp [delete, found, emit]
    | some old =>
      have removed : (m.delete org coll key).2 = some old := by simp [delete, found]
      simp only [removed, emit, List.foldl_cons, List.foldl_nil, apply_write named]
      funext org' coll' key'
      exact (get_delete m org coll key org' coll' key').symm
  | createOrg name =>
    simp only [MemoryBackend.step, createOrg]
    cases m.hasOrg name <;> rfl
  | deleteOrg name =>
    funext org coll key
    rw [MemoryBackend.step, get_deleteOrg]
    cases present : m.hasOrg name with
    | false => simp [deleteOrg, present, emit]
    | true => simp [deleteOrg, present, emit, apply]
  | _ => rfl

theorem memory_call_logged :
    Logged (MemoryBackend.call : MemoryBackend V → Call V → _) NamedCall flushed apply
      MemoryBackend.get := by
  intro m c named
  cases c with
  | op op => exact memory_logged m op named
  | tx fn =>
    have body := memory_logged.script named m
    simp only [MemoryBackend.call, tx]
    rcases ran : fn.run MemoryBackend.step m with ⟨after, inside, _ | err⟩
    · simpa [flushed, ran] using body
    · simp [flushed]

variable {call : B → Call V → B × Outcome V} {view : B → Contents V}

omit [DecidableEq V] in
theorem run_append (s : Watched B V) (before after : List (Call V)) :
    s.run call (before ++ after) = (s.run call before).run call after := List.foldl_append

omit [DecidableEq V] in
theorem ofEvents_run (logged : Logged call NamedCall flushed apply view) {calls : List (Call V)}
    (named : ∀ c ∈ calls, NamedCall c) (s : Watched B V)
    (current : ofEvents s.events = view s.backend) :
    ofEvents (s.run call calls).events = view (s.run call calls).backend := by
  induction calls generalizing s with
  | nil => exact current
  | cons c calls ih =>
    refine ih (fun later mem => named later (List.mem_cons_of_mem c mem)) (s.call call c).1 ?_
    have one := logged s.backend c (named c List.mem_cons_self)
    rw [← current, ofEvents, ← List.foldl_append] at one
    exact one

omit [DecidableEq V] in
theorem watched_alike {C : Type} {call' : C → Call V → C × Outcome V} {related : B → C → Prop}
    (sim : Simulation related call call') (calls : List (Call V)) (s : Watched B V)
    (s' : Watched C V)
    (start : related s.backend s'.backend) (same : s.events = s'.events) :
    related (s.run call calls).backend (s'.run call' calls).backend ∧
      (s.run call calls).events = (s'.run call' calls).events := by
  induction calls generalizing s s' with
  | nil => exact ⟨start, same⟩
  | cons c calls ih =>
    obtain ⟨after, answers⟩ := sim _ _ start c
    refine ih (s.call call c).1 (s'.call call' c).1 after ?_
    simp only [Watched.call, same, answers]

structure Determined (call : B → Call V → B × Outcome V) (view : B → Contents V) (start : B)
    (calls : List (Call V)) : Prop where
  contents : ofEvents (Watched.run call ⟨start, []⟩ calls).events =
    view (Watched.run call ⟨start, []⟩ calls).backend
  failed : ∀ before fn after inside err, calls = before ++ .tx fn :: after →
    ((Watched.run call ⟨start, []⟩ before).call call (.tx fn)).2 = .tx inside (some err) →
    (Watched.run call ⟨start, []⟩ (before ++ [.tx fn])).events = (Watched.run call ⟨start, []⟩ before).events

omit [DecidableEq V] in
theorem failed_tx_adds_nothing (start : B) (before : List (Call V)) {fn : TxFunc V}
    {inside : List (Reply V)}
    {err : StoreError}
    (failed : ((Watched.run call ⟨start, []⟩ before).call call (.tx fn)).2 = .tx inside (some err)) :
    (Watched.run call ⟨start, []⟩ (before ++ [.tx fn])).events = (Watched.run call ⟨start, []⟩ before).events := by
  rw [run_append]
  generalize Watched.run call ⟨start, []⟩ before = s at failed
  have outcome : (call s.backend (.tx fn)).2 = .tx inside (some err) := failed
  have unsent : flushed (.tx fn) (call s.backend (.tx fn)).2 = [] := by
    rw [outcome]
    rfl
  exact (congrArg (s.events ++ ·) unsent).trans (List.append_nil _)

/-- Over either backend, the events of a run folded in order give the objects stored. -/
theorem events_determine_store (groupCommit : Bool) {calls : List (Call V)}
    (named : ∀ c ∈ calls, NamedCall c) :
    Determined MemoryBackend.call MemoryBackend.get newMemoryBackend calls ∧
      Determined (Database.call groupCommit) Database.get newDatabase calls := by
  have memory := ofEvents_run memory_call_logged named ⟨newMemoryBackend, []⟩ rfl
  obtain ⟨same, events⟩ := watched_alike (call_simulation groupCommit) calls
    ⟨newMemoryBackend, []⟩ ⟨newDatabase, []⟩ mirrors_new rfl
  refine ⟨⟨memory, fun before fn after inside err _ failed => failed_tx_adds_nothing _ before failed⟩,
    ⟨?_, fun before fn after inside err _ failed => failed_tx_adds_nothing _ before failed⟩⟩
  rw [← events, memory]
  funext org coll key
  exact same.objects ⟨org, coll, key⟩

section Acme

def acmeCalls : List (Call Nat) :=
  [.op (.createOrg (lit "acme")), .op (.put (lit "acme") (lit "nodes") (lit "web") 1),
    .tx (.call (.delete (lit "acme") (lit "nodes") (lit "web")) fun _ => .ret (some (.other "refused"))),
    .op (.deleteOrg (lit "acme"))]

theorem events_determine_store_acme : (∀ c ∈ acmeCalls, NamedCall c) ∧
      Determined MemoryBackend.call MemoryBackend.get newMemoryBackend acmeCalls ∧
      Determined (Database.call true) Database.get newDatabase acmeCalls := by
  have nodes : lit "nodes" ≠ [] := by decide
  have named : ∀ c ∈ acmeCalls, NamedCall c := by
    simp only [acmeCalls, List.forall_mem_cons, List.not_mem_nil, false_imp_iff, implies_true,
      and_true]
    exact ⟨trivial, nodes, ⟨nodes, fun _ => trivial⟩, trivial⟩
  exact ⟨named, events_determine_store true named⟩

end Acme

end CincServer.Proof.Store
