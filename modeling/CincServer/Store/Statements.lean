import CincServer.Store.Sqlite

/-!
# The SQLite backend statement by statement

Without group commit `coalesce` runs a write directly: each statement commits by itself, and the read
and the delete of `Delete` are two of them.
-/

namespace CincServer.Store
open Go Lib

variable {V : Type}

inductive Statement (V : Type)
  | objGet (row : ObjectKey)
  | objPut (row : ObjectKey) (val : V)
  | objCreate (row : ObjectKey) (val : V)
  | objDelete (row : ObjectKey)
deriving DecidableEq

def Statement.Result : Statement V → Type
  | .objGet _ => Option V
  | .objPut .. => Nat
  | .objCreate .. => Nat
  | .objDelete _ => Nat

def Statement.exec : (c : Statement V) → Database V → c.Result × Database V
  | .objGet row, db => (db.objects.lookup row, db)
  | .objPut row val, db => ((1 : Nat), { db with objects := db.objects.upsert row val })
  | .objCreate row val, db =>
    ((db.objects.insertOrIgnore row val).2, { db with objects := (db.objects.insertOrIgnore row val).1 })
  | .objDelete row, db =>
    ((db.objects.deleteWhere fun other => other = row).2,
      { db with objects := (db.objects.deleteWhere fun other => other = row).1 })

abbrev Issued (V α : Type) := Program (Statement.Result (V := V)) StoreError α

inductive KeyWrite (V : Type)
  | put (val : V)
  | create (val : V)
  | delete

namespace Backend

def put (row : ObjectKey) (val : V) : Issued V (Reply V) := do
  let _ ← Program.perform (Statement.objPut row val)
  return .done

def create (row : ObjectKey) (val : V) : Issued V (Reply V) := do
  let n : Nat ← Program.perform (Statement.objCreate row val)
  if n = 0 then .stop .errConflict else return .done

def delete (row : ObjectKey) : Issued V (Reply V) := do
  let o : Option V ← Program.perform (Statement.objGet row)
  match o with
  | none => return .body none
  | some old =>
    let _ ← Program.perform (Statement.objDelete row)
    return .body (some old)

end Backend

def KeyWrite.issue (row : ObjectKey) : KeyWrite V → Issued V (Reply V)
  | .put val => Backend.put row val
  | .create val => Backend.create row val
  | .delete => Backend.delete row

end CincServer.Store
