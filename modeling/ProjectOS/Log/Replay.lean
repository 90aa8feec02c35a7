import ProjectOS.Log.Append

namespace ProjectOS.Log
open Lib Domain

def replayBatchEventCount : Nat := 4096

section
variable (B : Backend) (R : ProjectionRegistry)

def ensureTable (t : TableDef) : Tx Unit :=
  (ask (.createTable t)).bind (fun _ => Prog.each (fun i => ask (.createIndex t i)) t.indexes)

def ensureTables : Tx Unit := Prog.each ensureTable R.tables

def dropTables : Tx Unit := Prog.each (fun t => ask (.dropTable t)) R.tables

def recreateTables : Tx Unit := (dropTables R).bind (fun _ => ensureTables R)

abbrev SnapshotPolicy := Option Nat

def replayEvent (policy : SnapshotPolicy) (e : Event) : Tx Unit :=
  (applyEventToSchema R e).bind (fun _ =>
    (ask (.writeAppliedSeq e.seq)).bind (fun _ =>
      match policy with
      | none => .ret ()
      | some cadence => snapshotIfDue B R cadence e.seq e.tsMs (.ret ())))

def replayRows (policy : SnapshotPolicy) : Nat → Nat → List (Int × EventRow) → Tx (Nat × Nat)
  | cursor, replayed, [] => .ret (cursor,replayed)
  | _, replayed, row :: rest =>
    match decodeEventRow row.1 row.2 with
    | .error e => .throw (.error e)
    | .ok e =>
      (replayEvent B R policy e).bind (fun _ => replayRows policy e.seq (replayed+1) rest)

def replayBatches (policy : SnapshotPolicy) (head : Nat) : Nat → Nat × Nat → Tx Nat
  | 0, (_,replayed) => .ret replayed
  | rounds+1, (cursor,replayed) =>
    if cursor < head then
      (ask (.eventsAfter (integerU64 cursor) replayBatchEventCount)).bind
        (fun (rows : List (Int × EventRow)) =>
          if rows.isEmpty then .ret replayed
          else (replayRows B R policy cursor replayed rows).bind (replayBatches policy head rounds))
    else .ret replayed

def replayRange (policy : SnapshotPolicy) (fromExclusive head : Nat) : Tx Nat :=
  replayBatches B R policy head (head-fromExclusive) (fromExclusive,0)

def rebuildInTransaction (policy : SnapshotPolicy) (head : Nat) : Tx Unit :=
  (recreateTables R).bind (fun _ =>
    (ask (.writeAppliedSeq 0)).bind (fun _ =>
      (ask (.pruneStaleSnapshots (R.schemaDigest B))).bind (fun _ =>
        (replayRange B R policy 0 head).bind (fun _ =>
          ask (.writeSchemaDigest (R.schemaDigest B))))))

def bringCurrent (policy : SnapshotPolicy) (head applied : Nat) : Tx Unit :=
  if head < applied then .throw (.error (.stateAhead applied head))
  else if applied < head then (replayRange B R policy applied head).bind (fun _ => .ret ())
  else .ret ()

def openStored (policy : SnapshotPolicy) (head : Nat) (stored : Option Digest) : Tx Unit :=
  if stored ≠ some (R.schemaDigest B) then rebuildInTransaction B R policy head
  else (ask .readAppliedSeq).bind (bringCurrent B R policy head)

def openProjections (policy : SnapshotPolicy) : Tx Unit :=
  (ensureTables R).bind (fun _ =>
    (ask .readHead).bind (fun head => (ask .readSchemaDigest).bind (openStored B R policy head)))

def rebuildProjections (policy : SnapshotPolicy) : Tx Unit :=
  (ask .readHead).bind (fun (head : Nat) => rebuildInTransaction B R policy head)

def badSnapshotRow (t : TableDef) (row : List SqlValue) : Failure :=
  .error (.apply "snapshot" 0
    ⟨s!"{t.name}: snapshot row has {row.length} values, table declares {t.columns.length}"⟩)

def restoreRow (t : TableDef) (row : List SqlValue) : Tx Unit :=
  if row.length ≠ t.columns.length then .throw (badSnapshotRow t row) else ask (.loadRow t row)

def restoreTable (t : TableDef) (snapshot : TableSnapshot) : Tx Unit :=
  (ask (.clearTable t)).bind (fun _ => Prog.each (restoreRow t) snapshot.rows)

def restoreLatestSnapshot (head : Nat) : Tx (Option Nat) :=
  (ask (.latestSnapshot (R.schemaDigest B) (integerU64 head))).bind
    (fun (latest : Option (Int × List TableSnapshot)) =>
      match latest with
      | none => .ret none
      | some (seq,body) =>
        if body.map TableSnapshot.name ≠ R.tables.map TableDef.name then .ret none
        else
          (Prog.each (fun pair => restoreTable pair.1 pair.2) (R.tables.zip body)).bind (fun _ =>
            (ask (.writeAppliedSeq (nonNegative seq))).bind (fun _ =>
              .ret (some (nonNegative seq)))))

def restoreSnapshotAndTail : Tx Unit :=
  (ensureTables R).bind (fun _ =>
    (ask .readHead).bind (fun (head : Nat) =>
      (recreateTables R).bind (fun _ =>
        (ask (.writeAppliedSeq 0)).bind (fun _ =>
          (restoreLatestSnapshot B R head).bind (fun restored =>
            (replayRange B R none (restored.getD 0) head).bind (fun _ =>
              ask (.writeSchemaDigest (R.schemaDigest B))))))))

end

namespace ProjectLog
variable (B : Backend) (R : ProjectionRegistry)

def assertConsistent (db : Db) : Except Failure Unit :=
  if db.head < db.applied then .error (.error (.stateAhead db.applied db.head))
  else if db.applied ≠ db.head then
    .error (.panic "open/replay must leave projections exactly at the log head")
  else .ok ()

def recover (context : String) (W : Weather) (p : Tx Unit) (log : ProjectLog) :
    Except Failure Unit × ProjectLog :=
  let done := log.writeTransaction B context W p
  match done.1 with
  | .error e => (.error e,done.2)
  | .ok _ => (assertConsistent done.2.db,done.2)

def openLog (cfg : LogConfig) (W : Weather) (db : Db) : Except Failure Unit × ProjectLog :=
  (ProjectLog.mk db false).recover B "open projections" W
    (openProjections B R (some cfg.snapshotCadenceEvents))

def rebuild (cfg : LogConfig) (W : Weather) (log : ProjectLog) :
    Except Failure Unit × ProjectLog :=
  log.recover B "rebuild projections" W (rebuildProjections B R (some cfg.snapshotCadenceEvents))

def restoreFromSnapshotAndTail (W : Weather) (log : ProjectLog) :
    Except Failure Unit × ProjectLog :=
  log.recover B "restore snapshot + tail" W (restoreSnapshotAndTail B R)

end ProjectLog
end ProjectOS.Log
