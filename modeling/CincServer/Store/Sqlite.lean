import CincServer.Lib.Failure
import CincServer.Lib.Table
import CincServer.Lib.Transaction
import CincServer.Store.Memory
import Mathlib.Data.List.Infix

/-!
# Schema migrations

A migration issues statements of its own inside a transaction and gives up at the first that fails.
Any statement of an open may fail, and the process may be killed between two of them; a transaction
that is not committed leaves nothing behind.
-/

namespace CincServer.Store
open Lib

inductive SqlError
  | noSuchTable
  | constraintFailed
  | noTransaction
  | unavailable
  | other (message : String)

structure Image (σ : Type) where
  contents : σ
  versions : Option (List Int)
deriving DecidableEq

structure Connection (σ : Type) where
  file : Image σ
  tx : Option (Image σ)
deriving DecidableEq

structure Migration {ι : Type} (ρ : ι → Type) where
  version : Int
  name : String
  up : Program ρ SqlError Unit

inductive SchemaStatement (ι : Type)
  | createTable
  | maxVersion
  | begin
  | exec (c : ι)
  | insertVersion (version : Int)
  | commit
  | rollback

section Statements

variable {ι σ : Type} (ρ : ι → Type)

def SchemaStatement.Value : SchemaStatement ι → Type
  | .maxVersion => Int
  | .exec c => ρ c
  | _ => Unit

abbrev SchemaStatement.Result (c : SchemaStatement ι) : Type := Except SqlError (c.Value ρ)

end Statements

variable {ι σ α : Type} {ρ : ι → Type}

def coalesceMax (versions : List Int) : Int := versions.max?.getD 0

def Image.version (image : Image σ) : Int := coalesceMax (image.versions.getD [])

section Execution

variable (sql : (c : ι) → σ → Except SqlError (ρ c × σ))

def Connection.exec (conn : Connection σ) (c : ι) : Except SqlError (ρ c) × Connection σ :=
  match conn.tx with
  | none => (.error .noTransaction, conn)
  | some image =>
    match sql c image.contents with
    | .ok (answer, contents) => (.ok answer, { conn with tx := some { image with contents } })
    | .error err => (.error err, conn)

def Connection.insertVersion (conn : Connection σ) (version : Int) :
    Except SqlError Unit × Connection σ :=
  match conn.tx with
  | none => (.error .noTransaction, conn)
  | some image =>
    match image.versions with
    | none => (.error .noSuchTable, conn)
    | some versions =>
      if version ∈ versions then (.error .constraintFailed, conn)
      else (.ok (), { conn with tx := some { image with versions := some (versions ++ [version]) } })

def Connection.answer : (c : SchemaStatement ι) → Connection σ → c.Result ρ × Connection σ
  | .createTable, conn =>
    (.ok (), { conn with file := { conn.file with versions := some (conn.file.versions.getD []) } })
  | .maxVersion, conn =>
    match conn.file.versions with
    | none => (.error .noSuchTable, conn)
    | some versions => (.ok (coalesceMax versions), conn)
  | .begin, conn => (.ok (), { conn with tx := some conn.file })
  | .exec c, conn => conn.exec sql c
  | .insertVersion version, conn => conn.insertVersion version
  | .commit, conn =>
    match conn.tx with
    | none => (.error .noTransaction, conn)
    | some image => (.ok (), ⟨image, none⟩)
  | .rollback, conn => (.ok (), { conn with tx := none })

inductive Fault
  | none
  | refused
  | unreported
deriving DecidableEq

abbrev Faulty (σ : Type) := List Fault × Connection σ

def step (c : SchemaStatement ι) : Faulty σ → c.Result ρ × Faulty σ
  | ([], conn) => ((conn.answer sql c).1, [], (conn.answer sql c).2)
  | (.none :: faults, conn) => ((conn.answer sql c).1, faults, (conn.answer sql c).2)
  | (.refused :: faults, conn) => (.error .unavailable, faults, conn)
  | (.unreported :: faults, conn) => (.error .unavailable, faults, (conn.answer sql c).2)

end Execution

inductive MigrateError
  | schemaMigrations (err : SqlError)
  | sql (err : SqlError)
  | newerSchema (current last : Int)
  | migration (version : Int) (name : String) (err : SqlError)
  | recordMigration (version : Int) (err : SqlError)

abbrev Opening (ρ : ι → Type) := Program (SchemaStatement.Result ρ)

def checked (wrap : SqlError → MigrateError) : Except SqlError α → Opening ρ MigrateError α
  | .ok a => pure a
  | .error err => .stop (wrap err)

def issue : Program ρ SqlError α → Opening ρ SqlError α
  | .ret a => .ret a
  | .stop err => .stop err
  | .call c next => .call (.exec c) fun answer : Except SqlError (ρ c) =>
    match answer with
    | .ok a => issue (next a)
    | .error err => .stop err

def rollback (err : MigrateError) : Opening ρ MigrateError α := do
  let _ ← Program.perform SchemaStatement.rollback
  .stop err

def recordMigration (version : Int) : Opening ρ MigrateError Unit := do
  let recorded : Except SqlError Unit ← Program.perform (SchemaStatement.insertVersion version)
  match recorded with
  | .error err => rollback (.recordMigration version err)
  | .ok () => checked .sql (← Program.perform SchemaStatement.commit)

def applyMigration (m : Migration ρ) : Opening ρ MigrateError Unit := do
  checked .sql (← Program.perform SchemaStatement.begin)
  (issue m.up).catching fun err => rollback (.migration m.version m.name err)
  recordMigration m.version

def schemaVersion : Opening ρ MigrateError Int := do
  checked .sql (← Program.perform SchemaStatement.maxVersion)

def lastVersion (migs : List (Migration ρ)) : Int := (migs.getLast?.map Migration.version).getD 0

def applyPending (migs : List (Migration ρ)) (current : Int) : Opening ρ MigrateError Unit :=
  if current > lastVersion migs then .stop (.newerSchema current (lastVersion migs))
  else migs.forM fun m => if m.version ≤ current then pure () else applyMigration m

def applyMigrations (migs : List (Migration ρ)) : Opening ρ MigrateError Unit := do
  checked .schemaMigrations (← Program.perform SchemaStatement.createTable)
  let current ← schemaVersion
  applyPending migs current

inductive Opened (sql : (c : ι) → σ → Except SqlError (ρ c × σ)) (migs : List (Migration ρ))
    (new : σ) : Image σ → Prop
  | new : Opened sql migs new ⟨new, none⟩
  | opens {file : Image σ} (before : Opened sql migs new file) {known : List (Migration ρ)} (older : known <+: migs)
      (faults : List Fault) {left : Faulty σ}
      (cut : (applyMigrations known).Cut (step sql) (faults, ⟨file, none⟩) left) : Opened sql migs new left.2.file

def applyAll (sql : (c : ι) → σ → Except SqlError (ρ c × σ)) : List (Migration ρ) → σ → Option σ
  | [], contents => some contents
  | m :: rest, contents =>
    match m.up.attempt sql contents with
    | .ok ((), after) => applyAll sql rest after
    | .error _ => none

/-!
## The group-commit coalescer of the SQLite backend

`runBatch`, `runIsolated` and `fail` are written over an arbitrary database type: a transaction works on
a copy of the database that replaces it at commit. The outcome of `db.Begin` and `tx.Commit` is an
input, one `Faults` for each transaction.
-/

open Lib.Transaction

abbrev Answer (Out : Type) := Except StoreError Out

/-- A queued write. `Out` is what the closure captures for its caller (the old value of a
delete). A write reports `ErrConflict` only when its statement was a no-op. -/
structure WriteJob (Db Out : Type) where
  apply : Db → Db × Answer Out
  conflict_noop : ∀ db, (apply db).2 = .error .errConflict → (apply db).1 = db

variable {Db Out : Type}

def applyBatch : List (WriteJob Db Out) → Db → Option (Db × List (Answer Out))
  | [], tx => some (tx, [])
  | job :: rest, tx =>
    match job.apply tx with
    | (tx', .error err) =>
      if err.isConflict then
        (applyBatch rest tx').map fun (final, results) => (final, .error err :: results)
      else none
    | (tx', .ok out) =>
      (applyBatch rest tx').map fun (final, results) => (final, .ok out :: results)

def runAlone (faults : Faults StoreError) (job : WriteJob Db Out) (db : Db) : Db × Answer Out :=
  match faults.beginError with
  | some err => (db, .error err)
  | none =>
    match job.apply db with
    | (tx, .error err) =>
      if err.isConflict then
        match faults.commitError with
        | some cerr => (db, .error cerr)
        | none => (tx, .error err)
      else (db, .error err)
    | (tx, .ok out) =>
      match faults.commitError with
      | some cerr => (db, .error cerr)
      | none => (tx, .ok out)

def sends (first : Nat) (answers : List (Answer Out)) : List (Nat × Answer Out) :=
  (answers.zipIdx first).map Prod.swap

def runIsolated (faults : Nat → Faults StoreError) (first : Nat) :
    List (WriteJob Db Out) → Db → Db × List (Nat × Answer Out)
  | [], db => (db, [])
  | job :: rest, db =>
    let (next, answer) := runAlone (faults 0) job db
    let (final, sent) := runIsolated (fun i => faults (i + 1)) (first + 1) rest next
    (final, (first, answer) :: sent)

def fail (first : Nat) (batch : List (WriteJob Db Out)) (err : StoreError) :
    List (Nat × Answer Out) :=
  sends first (batch.map fun _ => .error err)

/-- `runBatch` on the jobs numbered from `first`. `shared` are the faults of the batch's own
transaction, `isolated i` those of the transaction that retries the `i`-th job alone. -/
def runBatch (shared : Faults StoreError) (isolated : Nat → Faults StoreError) (first : Nat)
    (batch : List (WriteJob Db Out)) (db : Db) : Db × List (Nat × Answer Out) :=
  match shared.beginError with
  | some err => (db, fail first batch err)
  | none =>
    match applyBatch batch db with
    | none => runIsolated isolated first batch db
    | some (tx, results) =>
      match shared.commitError with
      | some _ => runIsolated isolated first batch db
      | none => (tx, sends first results)

inductive LoopState (Job : Type)
  | receiving
  | gathering (batch : List (Option Job))
  | running (batch : List (Option Job))
  | returned
  | panicked

def chanCapacity : Nat := 1024

/-- The coalescer with its channel. `submitted` and `answered` are the history: every job sent
on the channel, and everything sent on a `done` channel, jobs numbered in submission order. -/
structure Coalescer (Db Out : Type) where
  ch : List (Nat × WriteJob Db Out)
  closed : Bool
  loop : LoopState (Nat × WriteJob Db Out)
  db : Db
  submitted : List (WriteJob Db Out)
  answered : List (Nat × Answer Out)

def newCoalescer (db : Db) : Coalescer Db Out :=
  { ch := [], closed := false, loop := .receiving, db, submitted := [], answered := [] }

def Coalescer.submit (c : Coalescer Db Out) (job : WriteJob Db Out) : Option (Coalescer Db Out) :=
  if c.closed = false ∧ c.ch.length < chanCapacity then
    some { c with ch := c.ch ++ [(c.submitted.length, job)], submitted := c.submitted ++ [job] }
  else none

def Coalescer.close (c : Coalescer Db Out) : Coalescer Db Out := { c with closed := true }

def firstNumber (batch : List (Nat × WriteJob Db Out)) : Nat :=
  match batch with
  | [] => 0
  | (number, _) :: _ => number

/-- One step of the goroutine: a receive, one round of the gathering select, or a whole
`runBatch`. `none` when it is blocked on an empty open channel or has ended. -/
def Coalescer.loopStep (shared : Faults StoreError) (isolated : Nat → Faults StoreError)
    (c : Coalescer Db Out) : Option (Coalescer Db Out) :=
  match c.loop with
  | .receiving =>
    match c.ch with
    | job :: rest => some { c with ch := rest, loop := .gathering [some job] }
    | [] => if c.closed then some { c with loop := .returned } else none
  | .gathering batch =>
    match c.ch with
    | job :: rest => some { c with ch := rest, loop := .gathering (batch ++ [some job]) }
    | [] =>
      if c.closed then some { c with loop := .gathering (batch ++ [none]) }
      else some { c with loop := .running batch }
  | .running batch =>
    match batch.mapM id with
    | none => some { c with loop := .panicked }
    | some jobs =>
      let (db, sent) := runBatch shared isolated (firstNumber jobs) (jobs.map Prod.snd) c.db
      some { c with loop := .receiving, db, answered := c.answered ++ sent }
  | .returned => none
  | .panicked => none

/-!
## The SQLite backend

The three tables of the initial schema and the statements each method issues. With group commit
enabled a write is submitted to the coalescer and, on its own, makes a batch of one.
-/

open Go Lib Lib.Machine

variable {V Out : Type}

structure ObjectKey where
  org : GoString
  coll : GoString
  key : GoString
deriving DecidableEq

structure BlobKey where
  org : GoString
  checksum : GoString
deriving DecidableEq

structure Database (V : Type) where
  objects : Table ObjectKey V
  blobs : Table BlobKey V
  orgs : Table GoString Unit

def newDatabase : Database V := ⟨.empty, .empty, .empty⟩

namespace Database

def get (db : Database V) (org coll key : GoString) : Option V := db.objects.lookup ⟨org, coll, key⟩

def putJob (org coll key : GoString) (val : V) : WriteJob (Database V) Unit where
  apply db := ({ db with objects := db.objects.upsert ⟨org, coll, key⟩ val }, .ok ())
  conflict_noop _ conflict := by cases conflict

def conflictUnlessInserted (rowsAffected : Nat) : Answer Unit :=
  if rowsAffected = 0 then .error .errConflict else .ok ()

theorem insert_noop {K W : Type} [DecidableEq K] {table : Table K W} {key : K} {value : W}
    (conflict : conflictUnlessInserted (table.insertOrIgnore key value).2 = .error .errConflict) :
    (table.insertOrIgnore key value).1 = table := by
  unfold Table.insertOrIgnore at conflict ⊢
  split_ifs at conflict ⊢ with present
  · rfl
  · cases conflict

def createJob (org coll key : GoString) (val : V) : WriteJob (Database V) Unit where
  apply db :=
    ({ db with objects := (db.objects.insertOrIgnore ⟨org, coll, key⟩ val).1 },
      conflictUnlessInserted (db.objects.insertOrIgnore ⟨org, coll, key⟩ val).2)
  conflict_noop db conflict := by simp only [insert_noop conflict]

def deleteJob (org coll key : GoString) : WriteJob (Database V) (Option V) where
  apply db :=
    match db.get org coll key with
    | none => (db, .ok none)
    | some old =>
      ({ db with objects := (db.objects.deleteWhere fun row => row = ⟨org, coll, key⟩).1 }, .ok (some old))
  conflict_noop db conflict := by split at conflict <;> cases conflict

def keys (db : Database V) (org coll : GoString) : List GoString :=
  sortStrings ((db.objects.select fun row => row.org = org ∧ row.coll = coll).map fun row => row.1.key)

def range (db : Database V) (org coll : GoString) : List (GoString × V) :=
  ((db.objects.select fun row => row.org = org ∧ row.coll = coll).map
    fun row => (row.1.key, row.2)).insertionSort fun a b => byteLe a.1 b.1

def collections (db : Database V) (org : GoString) : List GoString :=
  sortStrings ((db.objects.select fun row => row.org = org).map fun row => row.1.coll).dedup

def putBlobJob (org checksum : GoString) (data : V) : WriteJob (Database V) Unit where
  apply db := ({ db with blobs := db.blobs.upsert ⟨org, checksum⟩ data }, .ok ())
  conflict_noop _ conflict := by cases conflict

def blob (db : Database V) (org checksum : GoString) : Option V := db.blobs.lookup ⟨org, checksum⟩

def hasBlob (db : Database V) (org checksum : GoString) : Bool :=
  (db.blobs.lookup ⟨org, checksum⟩).isSome

def deleteBlobJob (org checksum : GoString) : WriteJob (Database V) Unit where
  apply db :=
    ({ db with blobs := (db.blobs.deleteWhere fun row => row = ⟨org, checksum⟩).1 }, .ok ())
  conflict_noop _ conflict := by cases conflict

def createOrgJob (name : GoString) : WriteJob (Database V) Unit where
  apply db :=
    ({ db with orgs := (db.orgs.insertOrIgnore name ()).1 }, conflictUnlessInserted (db.orgs.insertOrIgnore name ()).2)
  conflict_noop db conflict := by simp only [insert_noop conflict]

def deleteOrgJob (name : GoString) : WriteJob (Database V) Bool where
  apply db :=
    if (db.orgs.deleteWhere fun row => row = name).2 = 0 then
      ({ db with orgs := (db.orgs.deleteWhere fun row => row = name).1 }, .ok false)
    else
      (⟨(db.objects.deleteWhere fun row => row.org = name).1, (db.blobs.deleteWhere fun row => row.org = name).1,
          (db.orgs.deleteWhere fun row => row = name).1⟩, .ok true)
  conflict_noop db conflict := by split at conflict <;> cases conflict

def listOrgs (db : Database V) : List GoString := sortStrings db.orgs.keysOf

def hasOrg (db : Database V) (name : GoString) : Bool := (db.orgs.lookup name).isSome

def coalesce (groupCommit : Bool) (job : WriteJob (Database V) Out) (db : Database V) :
    Database V × Answer Out :=
  if groupCommit then
    match runBatch .none (fun _ => .none) 0 [job] db with
    | (db', [(_, answer)]) => (db', answer)
    | (db', _) => (db', .error (.other "no answer"))
  else job.apply db

def reply (ok : Out → Reply V) : Answer Out → Reply V
  | .ok out => ok out
  | .error err => .failed err

def write (groupCommit : Bool) (job : WriteJob (Database V) Out) (ok : Out → Reply V)
    (db : Database V) : Database V × Reply V :=
  ((coalesce groupCommit job db).1, reply ok (coalesce groupCommit job db).2)

variable [DecidableEq V]

def step (groupCommit : Bool) (db : Database V) : Op V → Database V × Reply V
  | .get org coll key => (db, .body (db.get org coll key))
  | .put org coll key val => db.write groupCommit (putJob org coll key val) fun _ => .done
  | .create org coll key val => db.write groupCommit (createJob org coll key val) fun _ => .done
  | .delete org coll key => db.write groupCommit (deleteJob org coll key) .body
  | .keys org coll => (db, .names (db.keys org coll))
  | .range org coll => (db, .visited (db.range org coll).toFinset)
  | .collections org => (db, .names (db.collections org))
  | .putBlob org checksum data => db.write groupCommit (putBlobJob org checksum data) fun _ => .done
  | .blob org checksum => (db, .body (db.blob org checksum))
  | .hasBlob org checksum => (db, .flag (db.hasBlob org checksum))
  | .deleteBlob org checksum => db.write groupCommit (deleteBlobJob org checksum) fun _ => .done
  | .createOrg name => db.write groupCommit (createOrgJob name) fun _ => .done
  | .deleteOrg name => db.write groupCommit (deleteOrgJob name) .flag
  | .listOrgs => (db, .names db.listOrgs)
  | .hasOrg name => (db, .flag (db.hasOrg name))

def tx (db : Database V) (fn : TxFunc V) : Database V × List (Reply V) × Option StoreError :=
  match fn.run (step false) db with
  | (_, inside, some err) => (db, inside, some err)
  | (committed, inside, none) => (committed, inside, none)

def call (groupCommit : Bool) (db : Database V) : Call V → Database V × Outcome V
  | .op op => ((db.step groupCommit op).1, .op (db.step groupCommit op).2)
  | .tx fn => ((db.tx fn).1, .tx (db.tx fn).2.1 (db.tx fn).2.2)

end Database

end CincServer.Store
