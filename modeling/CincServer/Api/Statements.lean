import CincServer.Api.Organizations
import CincServer.Store.Sqlite

/-!
# Handlers on the SQLite backend

A call of the store is one statement, except for the two deletions: without group commit each of their
statements commits by itself, with it a write is one transaction. Any of them may fail, and a handler
answers a failure with a 500.
-/

namespace CincServer.Api
open Go Json Lib Store

abbrev Tables := Store.Database Raw

inductive SqlStep
  | call (c : StoreCall)
  | deleteRow (row : ObjectKey)
  | deleteOrgRow (name : GoString)
  | deleteObjects (org : GoString)
  | deleteBlobs (org : GoString)

def SqlStep.Result : SqlStep → Type
  | .call c => c.Result
  | _ => Nat

def execTables : (c : StoreCall) → Tables → c.Result × Tables
  | .get org coll key, db => (db.get org coll key, db)
  | .put org coll key val, db => ((), ((Database.putJob org coll key val).apply db).1)
  | .create org coll key val, db =>
    (((Database.createJob org coll key val).apply db).2.isOk, ((Database.createJob org coll key val).apply db).1)
  | .delete org coll key, db =>
    (((Database.deleteJob org coll key).apply db).2.toOption.join, ((Database.deleteJob org coll key).apply db).1)
  | .keys org coll, db => (db.keys org coll, db)
  | .range org coll, db => (db.range org coll, db)
  | .listOrgs, db => (db.listOrgs, db)
  | .hasOrg name, db => (db.hasOrg name, db)
  | .createOrg name, db =>
    (((Database.createOrgJob name).apply db).2.isOk, ((Database.createOrgJob name).apply db).1)
  | .deleteOrg name, db =>
    (((Database.deleteOrgJob name).apply db).2.toOption.getD false, ((Database.deleteOrgJob name).apply db).1)
  | .putBlob org checksum data, db => ((), ((Database.putBlobJob org checksum data).apply db).1)
  | .hasBlob org checksum, db => (db.hasBlob org checksum, db)
  | .deleteBlob org checksum, db => ((), ((Database.deleteBlobJob org checksum).apply db).1)

def SqlStep.exec : (c : SqlStep) → Tables → c.Result × Tables
  | .call c, db => execTables c db
  | .deleteRow row, db =>
    ((db.objects.deleteWhere fun other => other = row).2,
      { db with objects := (db.objects.deleteWhere fun other => other = row).1 })
  | .deleteOrgRow name, db =>
    ((db.orgs.deleteWhere fun row => row = name).2, { db with orgs := (db.orgs.deleteWhere fun row => row = name).1 })
  | .deleteObjects org, db =>
    ((db.objects.deleteWhere fun row => row.org = org).2,
      { db with objects := (db.objects.deleteWhere fun row => row.org = org).1 })
  | .deleteBlobs org, db =>
    ((db.blobs.deleteWhere fun row => row.org = org).2,
      { db with blobs := (db.blobs.deleteWhere fun row => row.org = org).1 })

abbrev FaultyTables := List Fault × Tables

def SqlStep.attempt (c : SqlStep) : FaultyTables → Except SqlError c.Result × FaultyTables
  | ([], db) => (.ok (c.exec db).1, [], (c.exec db).2)
  | (.none :: faults, db) => (.ok (c.exec db).1, faults, (c.exec db).2)
  | (.refused :: faults, db) => (.error .unavailable, faults, db)
  | (.unreported :: faults, db) => (.error .unavailable, faults, (c.exec db).2)

abbrev Lowered := Program (fun c : SqlStep => Except SqlError c.Result) Response

def sql (c : SqlStep) : Lowered c.Result := do
  let answer : Except SqlError c.Result ← .perform c
  match answer with
  | .ok a => return a
  | .error _ => .stop .internalError

namespace Backend

def delete (row : ObjectKey) : Lowered (Option Raw) := do
  let found : Option Raw ← sql (.call (.get row.org row.coll row.key))
  match found with
  | none => return none
  | some old =>
    let _ ← sql (.deleteRow row)
    return some old

def deleteOrg (name : GoString) : Lowered Bool := do
  let n : Nat ← sql (.deleteOrgRow name)
  if n = 0 then return false
  let _ ← sql (.deleteObjects name)
  let _ ← sql (.deleteBlobs name)
  return true

end Backend

def carryOut (groupCommit : Bool) : (c : StoreCall) → Lowered c.Result
  | .delete org coll key =>
    if groupCommit then sql (.call (.delete org coll key)) else Backend.delete ⟨org, coll, key⟩
  | .deleteOrg name => if groupCommit then sql (.call (.deleteOrg name)) else Backend.deleteOrg name
  | c => sql (.call c)

def onSqlite {α : Type} (groupCommit : Bool) (h : Handler α) : Lowered α :=
  h.lower (carryOut groupCommit)

end CincServer.Api
