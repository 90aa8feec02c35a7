import ProjectOS.Lib.Transaction
import ProjectOS.Log.Events

namespace ProjectOS.Log
open Lib Domain

structure TableSnapshot where
  name : String
  rows : List (List SqlValue)
  deriving DecidableEq

structure Snapshot where
  schemaDigest : Digest
  body : List TableSnapshot
  createdTsMs : Int
  deriving DecidableEq

structure Db where
  catalog : Catalog
  events : Table Int EventRow
  devices : Table DeviceId Int
  appliedSeq : Option Nat
  schemaDigest : Option Digest
  snapshots : Table Int Snapshot
  deriving DecidableEq

namespace Db

def empty : Db := ⟨Catalog.empty,Table.empty,Table.empty,none,none,Table.empty⟩

def head (db : Db) : Nat := nonNegative ((db.events.last?.map Prod.fst).getD 0)

def applied (db : Db) : Nat := db.appliedSeq.getD 0

end Db

inductive Statement where
  | readHead
  | readAppliedSeq
  | writeAppliedSeq (seq : Nat)
  | readSchemaDigest
  | writeSchemaDigest (digest : Digest)
  | readLamport (device : DeviceId)
  | writeLamport (device : DeviceId) (lamport : Int)
  | insertEvent (seq : Int) (row : EventRow)
  | eventsAfter (cursor : Int) (limit : Nat)
  | createTable (t : TableDef)
  | createIndex (t : TableDef) (i : IndexDef)
  | dropTable (t : TableDef)
  | write (e : Event) (t : TableDef) (w : RowWrite)
  | tableRows (t : TableDef)
  | clearTable (t : TableDef)
  | loadRow (t : TableDef) (row : List SqlValue)
  | putSnapshot (seq : Int) (snapshot : Snapshot)
  | keepSnapshots (count : Nat)
  | pruneStaleSnapshots (digest : Digest)
  | latestSnapshot (digest : Digest) (head : Int)
  | tripFault (point : FaultPoint)

@[reducible] def Statement.Answer : Statement → Type
  | .readHead | .readAppliedSeq => Nat
  | .readSchemaDigest => Option Digest
  | .readLamport _ => Option Int
  | .eventsAfter _ _ => List (Int × EventRow)
  | .tableRows _ => List (List Cell)
  | .latestSnapshot _ _ => Option (Int × List TableSnapshot)
  | .writeAppliedSeq _ | .writeSchemaDigest _ | .writeLamport _ _ | .insertEvent _ _
  | .createTable _ | .createIndex _ _ | .dropTable _ | .write _ _ _ | .clearTable _
  | .loadRow _ _ | .putSnapshot _ _ | .keepSnapshots _ | .pruneStaleSnapshots _
  | .tripFault _ => Unit

abbrev sql : Interface := ⟨Statement,Statement.Answer⟩

abbrev Tx (α : Type) := Prog sql Failure α

def sqlFails {α : Type} (context : String) : Except String α → Except Failure α
  | .ok a => .ok a
  | .error message => .error (sqlite context message)

def applyFails {α : Type} (kind : String) (seq : Nat) : Except ApplyError α → Except Failure α
  | .ok a => .ok a
  | .error source => .error (.error (.apply kind seq source))

namespace Db
variable (B : Backend)

def insertEvent (db : Db) (seq : Int) (row : EventRow) : Except String Db :=
  match db.events.get? seq with
  | some _ => .error "UNIQUE constraint failed: events.seq"
  | none => .ok { db with events := db.events.put seq row }

def eventsAfter (db : Db) (cursor : Int) (limit : Nat) : List (Int × EventRow) :=
  (db.events.rows.filter (fun r => cursor < r.1)).take limit

def tableRows (t : TableDef) (c : Catalog) : Except String (List (List Cell)) :=
  match c.tables.get? t.name with
  | none => .error s!"no such table: main.{t.name}"
  | some stored =>
    if stored.shape = t.shape then .ok (stored.rows.rows.map (fun r => r.1 ++ r.2))
    else B.sqlite.foreignRows stored.shape t stored.rows

def withCatalog (db : Db) (c : Catalog) : Db := { db with catalog := c }

def onCatalog (db : Db) (f : Catalog → Except String Catalog) : Except String Db :=
  (f db.catalog).map db.withCatalog

def clearTable (t : TableDef) (c : Catalog) : Except String Catalog :=
  match c.tables.get? t.name with
  | none => .error s!"no such table: main.{t.name}"
  | some stored => .ok { c with tables := c.tables.put t.name { stored with rows := Table.empty } }

def loadRow (t : TableDef) (row : List SqlValue) (c : Catalog) : Except String Catalog :=
  match c.tables.get? t.name with
  | none => .error s!"no such table: main.{t.name}"
  | some stored =>
    let key := row.take t.keyColumns.length
    let values := row.drop t.keyColumns.length
    (if stored.shape = t.shape then B.sqlite.insertRow t stored.rows key values
     else B.sqlite.foreign stored.shape t (.insert key values) stored.rows).map
      (fun done => { c with tables := c.tables.put t.name { stored with rows := done.2 } })

def latestSnapshot (db : Db) (digest : Digest) (head : Int) : Option (Int × List TableSnapshot) :=
  ((db.snapshots.rows.filter (fun r => r.2.schemaDigest = digest ∧ r.1 ≤ head)).getLast?).map
    (fun r => (r.1,r.2.body))

def exec : Statements sql Failure Db := fun db a =>
  match a with
  | .readHead => .ok (db.head,db)
  | .readAppliedSeq => .ok (db.applied,db)
  | .writeAppliedSeq seq => .ok ((),{ db with appliedSeq := some seq })
  | .readSchemaDigest => .ok (db.schemaDigest,db)
  | .writeSchemaDigest digest => .ok ((),{ db with schemaDigest := some digest })
  | .readLamport device => .ok (db.devices.get? device,db)
  | .writeLamport device lamport => .ok ((),{ db with devices := db.devices.put device lamport })
  | .insertEvent seq row => (sqlFails "insert event" (db.insertEvent seq row)).map (fun db => ((),db))
  | .eventsAfter cursor limit => .ok (db.eventsAfter cursor limit,db)
  | .createTable t =>
    (sqlFails "create projection table" (db.onCatalog (fun c => c.createTable t))).map
      (fun db => ((),db))
  | .createIndex t i =>
    (sqlFails "create projection table" (db.onCatalog (fun c => c.createIndex t i))).map
      (fun db => ((),db))
  | .dropTable t => .ok ((),db.withCatalog (db.catalog.dropTable t))
  | .write e t w =>
    (applyFails e.kind.tag e.seq (B.sqlite.executeWrite t w db.catalog)).map
      (fun c => ((),db.withCatalog c))
  | .tableRows t => (sqlFails "read snapshot rows" (tableRows B t db.catalog)).map
      (fun rows => (rows,db))
  | .clearTable t =>
    (sqlFails "clear projection table" (db.onCatalog (clearTable t))).map (fun db => ((),db))
  | .loadRow t row =>
    (sqlFails "restore snapshot row" (db.onCatalog (loadRow B t row))).map (fun db => ((),db))
  | .putSnapshot seq snapshot =>
    .ok ((),{ db with snapshots := db.snapshots.put seq snapshot })
  | .keepSnapshots count => .ok ((),{ db with snapshots := db.snapshots.newest count })
  | .pruneStaleSnapshots digest =>
    .ok ((),{ db with snapshots := db.snapshots.keep (fun _ s => s.schemaDigest = digest) })
  | .latestSnapshot digest head => .ok (db.latestSnapshot digest head,db)
  | .tripFault _ => .ok ((),db)

variable (db : Db) (c : Catalog)

@[simp] theorem withCatalog_catalog : (db.withCatalog c).catalog = c := rfl

@[simp] theorem withCatalog_schemaDigest :
    (db.withCatalog c).schemaDigest = db.schemaDigest := rfl

@[simp] theorem withCatalog_head : (db.withCatalog c).head = db.head := rfl

@[simp] theorem withCatalog_applied :
    (db.withCatalog c).applied = db.applied := rfl

end Db

def ask (a : Statement) : Tx a.Answer := .act a .ret

theorem execute_ask (B : Backend) (a : Statement) (db : Db) :
    (ask a).execute (Db.exec B) db = Db.exec B db a := by
  rw [ask,Prog.execute_act]
  cases Db.exec B db a with
  | ok r => rfl
  | error e => rfl

end ProjectOS.Log
