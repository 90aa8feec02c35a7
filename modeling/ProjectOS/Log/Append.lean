import ProjectOS.Log.Database

namespace ProjectOS.Log
open Lib Domain

structure LogConfig where
  snapshotCadenceEvents : Nat
  positive : 0 < snapshotCadenceEvents

def snapshotKeepCount : Nat := 2

section
variable (B : Backend) (R : ProjectionRegistry)

def applyProjection (e : Event) (p : Projection) : Tx Unit :=
  match p.apply e with
  | .error source => .throw (.error (.apply e.kind.tag e.seq source))
  | .ok writes => Prog.each (fun w => ask (.write e p.table w)) writes

def applyEventToSchema (e : Event) : Tx Unit := Prog.each (applyProjection e) R.projections

def applyEvent (e : Event) : Tx Unit :=
  (applyEventToSchema R e).bind (fun _ => ask (.writeAppliedSeq e.seq))

def realFound (t : TableDef) : Failure :=
  .error (.apply "snapshot" 0 ⟨s!"{t.name}: REAL value found; projections never store floats"⟩)

def readRows (t : TableDef) (rows : List (List Cell)) : Except Failure TableSnapshot :=
  match rows.mapM (fun row => row.mapM Cell.read) with
  | some rows => .ok ⟨t.name,rows⟩
  | none => .error (realFound t)

def readTableSnapshot (t : TableDef) : Tx TableSnapshot :=
  (ask (.tableRows t)).bind (fun (rows : List (List Cell)) => Prog.ofExcept (readRows t rows))

def writeSnapshot (seq tsMs : Nat) : Tx Unit :=
  (Prog.collect readTableSnapshot R.tables).bind (fun body =>
    (ask (.putSnapshot (integerU64 seq) ⟨R.schemaDigest B,body,integerU64 tsMs⟩)).bind (fun _ =>
      ask (.keepSnapshots snapshotKeepCount)))

def nextDeviceLamport (device : DeviceId) : Tx Nat :=
  (ask (.readLamport device)).bind (fun (current : Option Int) =>
    let next := satAdd64 (nonNegative (current.getD 0)) 1
    (ask (.writeLamport device (integerU64 next))).bind (fun _ => .ret next))

def snapshotIfDue (cadence seq tsMs : Nat) (after : Tx Unit) : Tx Unit :=
  if seq % cadence = 0 then (writeSnapshot B R seq tsMs).bind (fun _ => after) else .ret ()

def appendOne (cfg : LogConfig) (tsMs head : Nat) (request : AppendRequest) : Tx Nat :=
  let seq := satAdd64 head 1
  (nextDeviceLamport request.device).bind (fun lamport =>
    (ask (.insertEvent (integerU64 seq) (request.row lamport tsMs))).bind (fun _ =>
      (ask (.tripFault .logEventInserted)).bind (fun _ =>
        (applyEvent R (request.event seq lamport tsMs)).bind (fun _ =>
          (snapshotIfDue B R cfg.snapshotCadenceEvents seq tsMs
            (ask (.tripFault .logSnapshotWritten))).bind (fun _ => .ret seq)))))

def appendAll (cfg : LogConfig) (tsMs : Nat) : Nat → List AppendRequest → Tx (List Nat)
  | _, [] => .ret []
  | head, request :: rest =>
    (appendOne B R cfg tsMs head request).bind (fun seq =>
      (appendAll cfg tsMs seq rest).bind (fun seqs => .ret (seq :: seqs)))

def appendEvents (cfg : LogConfig) (expectedHead : Option Nat) (requests : List AppendRequest)
    (tsMs : Nat) : Tx (List Nat) :=
  (ask .readHead).bind (fun (head : Nat) =>
    (ask .readAppliedSeq).bind (fun (applied : Nat) =>
      if head ≠ applied then
        .throw (.panic "append found projections out of step with the log head")
      else if expectedHead.any (fun expected => decide (head ≠ expected)) then
        .throw (.error (.headChanged (expectedHead.getD 0) head))
      else
        (appendAll B R cfg tsMs head requests).bind (fun seqs =>
          (ask (.tripFault .logApplied)).bind (fun _ => .ret seqs))))

end

inductive StoreFault where
  | durabilityLost
  | sqlite (message : String)
  deriving DecidableEq

def StoreFault.failure (context : String) : StoreFault → Failure
  | .durabilityLost => .error (.store (.durabilityLost context))
  | .sqlite message => Log.sqlite context message

inductive Trouble where
  | sqlite (context message : String)
  | fault (point : FaultPoint)
  | killed
  deriving DecidableEq

def Trouble.failure : Trouble → Failure
  | .sqlite context message => Log.sqlite context message
  | .fault point => .error (.store (.injectedFault point))
  | .killed => .killed

structure Weather where
  begins : Option StoreFault
  statements : Nat → Option Trouble
  commits : Option StoreFault

def Weather.calm : Weather := ⟨none,fun _ => none,none⟩

structure ProjectLog where
  db : Db
  stopped : Bool

def Failure.stops : Failure → Bool
  | .error (.store (.durabilityLost _)) => true
  | .error _ => false
  | .panic _ | .killed => true

def Failure.stopsAfter {α : Type} : Except Failure α → Bool
  | .ok _ => false
  | .error e => e.stops

namespace ProjectLog
variable (B : Backend) (R : ProjectionRegistry)

def writeTransaction {α : Type} (context : String) (W : Weather) (p : Tx α) (log : ProjectLog) :
    Except Failure α × ProjectLog :=
  if log.stopped then (.error (.error (.store .failStopped)),log)
  else
    match W.begins with
    | some fault => (.error (fault.failure context),⟨log.db,(fault.failure context).stops⟩)
    | none =>
      let done := Prog.transaction (Db.exec B) (fun n => (W.statements n).map Trouble.failure)
        (W.commits.map (StoreFault.failure context)) p log.db
      (done.1,⟨done.2,Failure.stopsAfter done.1⟩)

def appendBatchInner (cfg : LogConfig) (expectedHead : Option Nat)
    (requests : List AppendRequest) (clock : Nat) (W : Weather) (log : ProjectLog) :
    Except Failure (List Nat) × ProjectLog :=
  if requests.isEmpty then (.ok [],log)
  else
    match requests.forM validateRequest with
    | .error e => (.error (.error e),log)
    | .ok _ =>
      log.writeTransaction B "append events" W (appendEvents B R cfg expectedHead requests clock)

def appendBatch (cfg : LogConfig) (requests : List AppendRequest) (clock : Nat) (W : Weather)
    (log : ProjectLog) : Except Failure (List Nat) × ProjectLog :=
  log.appendBatchInner B R cfg none requests clock W

def appendBatchAtHead (cfg : LogConfig) (expectedHead : Nat) (requests : List AppendRequest)
    (clock : Nat) (W : Weather) (log : ProjectLog) : Except Failure (List Nat) × ProjectLog :=
  log.appendBatchInner B R cfg (some expectedHead) requests clock W

def lastSeq : Except Failure (List Nat) → Except Failure Nat
  | .error e => .error e
  | .ok seqs =>
    match seqs.getLast? with
    | some seq => .ok seq
    | none => .error (.panic "append_batch returns one seq per request")

def append (cfg : LogConfig) (request : AppendRequest) (clock : Nat) (W : Weather)
    (log : ProjectLog) : Except Failure Nat × ProjectLog :=
  let done := log.appendBatch B R cfg [request] clock W
  (lastSeq done.1,done.2)

def appendAtHead (cfg : LogConfig) (expectedHead : Nat) (request : AppendRequest) (clock : Nat)
    (W : Weather) (log : ProjectLog) : Except Failure Nat × ProjectLog :=
  let done := log.appendBatchAtHead B R cfg expectedHead [request] clock W
  (lastSeq done.1,done.2)

end ProjectLog
end ProjectOS.Log
