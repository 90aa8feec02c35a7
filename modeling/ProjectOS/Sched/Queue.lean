import ProjectOS.Lib.Prog
import ProjectOS.Domain.Jobs

/-! The job queue and the cron driver of `pos-sched`. Every operation is a
program over the atomic actions it takes on the project database, so the same
text serves runs one after another and interleavings. -/

namespace ProjectOS.Sched
open Lib Domain

def jobKindLenMax : Nat := 64
def jobIdempotencyKeyLenMax : Nat := 128
def jobPayloadLenMax : Nat := 16*1024
def jobRetryCountMax : Nat := 16
def workerNameLenMax : Nat := 64
def leaseReapBatchCountMax : Nat := 64
def jobListRowCountMax : Nat := 500
def cronCatchupScanCountMax : Nat := 512

def jobKindChar (c : Char) : Bool := c.isAlphanum || c == '.' || c == '-' || c == '_'

def jobKindValid (name : String) : Bool :=
  name ≠ "" && name.utf8ByteSize ≤ jobKindLenMax && name.toList.all jobKindChar

structure JobKind where
  name : String
  valid : jobKindValid name = true
  deriving DecidableEq

structure WorkerName where
  name : String
  valid : name ≠ "" ∧ name.utf8ByteSize ≤ workerNameLenMax
  deriving DecidableEq

structure JobSpec where
  kind : JobKind
  idempotency_key : String
  priority : JobPriority
  class_ : JobClass
  payload : Bytes
  run_at_ts_ms : Nat
  retry_count_max : Nat
  cron : Option JobCronOrigin

structure CronSpec where
  cron_id : CronId
  job_kind : JobKind
  expr : String
  tz : String
  overlap_policy : CronOverlapPolicy
  enabled : Bool
  priority : JobPriority
  class_ : JobClass
  payload : Bytes

structure ClaimedJob where
  job_id : JobId
  project_id : ProjectId
  kind : JobKind
  payload : Bytes
  attempt_index : Nat
  retry_count_max : Nat
  enqueued_seq : Nat
  worker : WorkerName
  claimed_ts_ms : Nat
  claim_latency_ms : Nat
  deriving DecidableEq

structure JobFailure where
  code : String
  detail : String
  permanent : Bool

inductive EnqueueOutcome where
  | enqueued (job_id : JobId)
  | duplicate (job_id : JobId)

def EnqueueOutcome.isDuplicate : EnqueueOutcome → Bool
  | .enqueued _ => false
  | .duplicate _ => true

def EnqueueOutcome.jobId : EnqueueOutcome → JobId
  | .enqueued job_id => job_id
  | .duplicate job_id => job_id

inductive FailureOutcome where
  | retrying (retry_at_ts_ms : Nat)
  | dead
  deriving DecidableEq

structure CronTickReport where
  fired : List JobId
  skipped_overlap_count : Nat
  superseded_count : Nat
  missed_tick_count : Nat

inductive LogError where
  | store (fault : String)
  | apply (source : ApplyError)
  deriving DecidableEq

structure CronParseError where
  field : String
  reason : String
  deriving DecidableEq

inductive SchedError where
  | store (fault : String)
  | log (source : LogError)
  | invalidSpec (field reason : String)
  | invalidSchedule (source : CronParseError)
  | unknownJob (job_id : String)
  deriving DecidableEq

structure BackoffPolicy where
  base_ms : Nat
  factor : Nat
  cap_ms : Nat

def backoffExponentMax : Nat := 32

def BackoffPolicy.windowMs (p : BackoffPolicy) (attempt_index : Nat) : Nat :=
  let growth := p.factor^(min (attempt_index-1) backoffExponentMax)
  min (min (p.base_ms * min growth u64Max) u64Max) p.cap_ms

/-- The queue's configuration, and what it is built over: BLAKE3, and the search of a
schedule's next firing, which `inZones` takes from the cron driver. -/
structure JobQueue where
  backoff : BackoffPolicy
  lease_ttl_ms : Nat
  blake3 : Bytes → Digest
  schedule : String → String → Except CronParseError (Int → Option Int)

def beBytes32 (n : Nat) : Bytes :=
  [UInt8.ofNat (n/2^24),UInt8.ofNat (n/2^16),UInt8.ofNat (n/2^8),UInt8.ofNat n]

def idBytes {k : IdKind} (i : Id k) : Bytes :=
  (List.range 16).map fun j => UInt8.ofNat (i.num / 2^(8*(15-j)))

def utf8Bytes (s : String) : Bytes := s.toByteArray.toList

def deriveJobId (q : JobQueue) (project_id : ProjectId) (kind : JobKind)
    (idempotency_key : String) : JobId :=
  ⟨(q.blake3 (utf8Bytes "projectos/job-id/v1" ++ idBytes project_id ++
    beBytes32 (min kind.name.utf8ByteSize u32Max) ++ utf8Bytes kind.name ++
    beBytes32 (min idempotency_key.utf8ByteSize u32Max) ++
    utf8Bytes idempotency_key)).extractLsb' 128 128⟩

def JobSpec.validate (spec : JobSpec) : Except SchedError Unit :=
  if spec.idempotency_key = "" ∨ jobIdempotencyKeyLenMax < spec.idempotency_key.utf8ByteSize then
    .error (.invalidSpec "idempotency_key"
      s!"1..=128 bytes required, got {spec.idempotency_key.utf8ByteSize}")
  else if jobPayloadLenMax < spec.payload.length then
    .error (.invalidSpec "payload"
      s!"{spec.payload.length} bytes exceeds the 16384-byte bound; put bulk content in the blob store and carry its hash")
  else if jobRetryCountMax < spec.retry_count_max then
    .error (.invalidSpec "retry_count_max"
      s!"{spec.retry_count_max} exceeds the 16-retry bound")
  else .ok ()

structure LeaseRow where
  worker : String
  attempt_index : Int
  claimed_ts_ms : Int
  heartbeat_ts_ms : Int
  lease_expires_ts_ms : Int
  deriving DecidableEq

/-- A project's database as the scheduler sees it: the facts, the two projections,
and the node-local leases. -/
structure Db where
  head : Nat
  facts : List JobEvent
  jobs : Table JobId JobRow
  crons : Table CronId CronRow
  leases : Table JobId LeaseRow

def Db.empty : Db := ⟨0,[],Table.empty,Table.empty,Table.empty⟩

def Db.append (db : Db) (ts_ms : Nat) (event : JobEvent) : Except ApplyError Db :=
  match applyCrons db.crons (db.head+1) ts_ms event with
  | .error e => .error e
  | .ok crons =>
    match applyJobs db.jobs (db.head+1) ts_ms event with
    | .error e => .error e
    | .ok jobs =>
      .ok { db with head := db.head+1, facts := db.facts ++ [event], jobs := jobs, crons := crons }

def claimable (db : Db) (class_ : JobClass) (now_ms : Nat) (r : JobId × JobRow) : Bool :=
  r.2.state = .queued && r.2.class_ = class_ && r.2.run_at_ts_ms ≤ integerU64 now_ms &&
    (db.leases.get? r.1).isNone

def claimsBefore (a b : JobId × JobRow) : Prop :=
  a.2.priority_rank < b.2.priority_rank ∨
    (a.2.priority_rank = b.2.priority_rank ∧ a.2.enqueued_seq ≤ b.2.enqueued_seq)

instance (a b : JobId × JobRow) : Decidable (claimsBefore a b) :=
  inferInstanceAs (Decidable (_ ∨ _))

def selectClaimable (db : Db) (class_ : JobClass) (now_ms : Nat) : Option (JobId × JobRow) :=
  ((db.jobs.rows.filter (claimable db class_ now_ms)).insertionSort claimsBefore).head?

def readExpiredLeases (db : Db) (now_ms : Nat) : List (JobId × LeaseRow) :=
  ((db.leases.rows.filter (fun r => r.2.lease_expires_ts_ms ≤ integerU64 now_ms)).insertionSort
    (fun a b => a.2.lease_expires_ts_ms ≤ b.2.lease_expires_ts_ms)).take leaseReapBatchCountMax

def listQueuedOf (db : Db) (cron_id : CronId) : List JobId :=
  (((db.jobs.rows.filter (fun r => r.2.state = .queued && r.2.cron_id = some cron_id)).insertionSort
    (fun a b => b.2.enqueued_seq ≤ a.2.enqueued_seq)).take jobListRowCountMax).map Prod.fst

structure Candidate where
  job_id : JobId
  row : JobRow
  kind : JobKind

inductive QueueAct where
  | now
  | jitter (bound : Nat)
  | readJob (job_id : JobId)
  | listCrons
  | listQueuedOf (cron_id : CronId)
  | readExpiredLeases (now_ms : Nat)
  | append (event : JobEvent)
  | claimLease (class_ : JobClass) (worker : WorkerName) (now_ms expires_ts_ms : Nat)
  | heartbeat (job_id : JobId) (worker : WorkerName) (attempt_index now_ms expires_ts_ms : Nat)
  | releaseLease (job_id : JobId)

abbrev queueIface : Interface where
  Act := QueueAct
  Resp
    | .now => Nat
    | .jitter _ => Nat
    | .readJob _ => Option JobRow
    | .listCrons => List (CronId × CronRow)
    | .listQueuedOf _ => List JobId
    | .readExpiredLeases _ => List (JobId × LeaseRow)
    | .append _ => Except LogError Unit
    | .claimLease .. => Except SchedError (Option Candidate)
    | .heartbeat .. => Except SchedError Nat
    | .releaseLease _ => Except SchedError Unit

/-- The clock, a jitter draw, and whether the store refuses a write. -/
structure QueueInput where
  now_ms : Nat
  draw : Nat
  fault : Option String

def Db.claimLease (db : Db) (class_ : JobClass) (worker : WorkerName)
    (now_ms expires_ts_ms : Nat) : Except SchedError (Option Candidate) × Db :=
  match selectClaimable db class_ now_ms with
  | none => (.ok none,db)
  | some (job_id,row) =>
    if hk : jobKindValid row.job_kind = true then
      (.ok (some ⟨job_id,row,⟨row.job_kind,hk⟩⟩),
        { db with leases := (db.leases.put job_id
            { worker := worker.name,
              attempt_index := integerU32 (satAdd32 (countU32 row.attempt_count) 1),
              claimed_ts_ms := integerU64 now_ms, heartbeat_ts_ms := integerU64 now_ms,
              lease_expires_ts_ms := integerU64 expires_ts_ms }) })
    else
      (.error (.invalidSpec "job_kind"
        s!"invalid job kind {row.job_kind.quote}: 1..=64 bytes of ASCII alphanumerics, '.', '-', or '_'"),db)

def Db.heartbeat (db : Db) (job_id : JobId) (worker : WorkerName)
    (attempt_index now_ms expires_ts_ms : Nat) : Nat × Db :=
  match db.leases.get? job_id with
  | none => (0,db)
  | some row =>
    if row.worker = worker.name ∧ row.attempt_index = integerU32 attempt_index then
      (1,{ db with leases := (db.leases.put job_id
            { row with heartbeat_ts_ms := integerU64 now_ms,
                       lease_expires_ts_ms := integerU64 expires_ts_ms }) })
    else (0,db)

def Db.releaseLease (db : Db) (job_id : JobId) : Db :=
  { db with leases := db.leases.erase job_id }

def sampleBelow (draw bound : Nat) : Nat := draw % bound

def queueMachine : Machine queueIface QueueInput Db where
  step i db
    | .now => (i.now_ms,db)
    | .jitter bound => (sampleBelow i.draw bound,db)
    | .readJob job_id => (db.jobs.get? job_id,db)
    | .listCrons => (db.crons.rows,db)
    | .listQueuedOf cron_id => (Sched.listQueuedOf db cron_id,db)
    | .readExpiredLeases now_ms => (Sched.readExpiredLeases db now_ms,db)
    | .append event =>
      match i.fault with
      | some fault => (.error (.store fault),db)
      | none =>
        match db.append i.now_ms event with
        | .ok db' => (.ok (),db')
        | .error e => (.error (.apply e),db)
    | .claimLease class_ worker now_ms expires_ts_ms =>
      match i.fault with
      | some fault => (.error (.store fault),db)
      | none => db.claimLease class_ worker now_ms expires_ts_ms
    | .heartbeat job_id worker attempt_index now_ms expires_ts_ms =>
      match i.fault with
      | some fault => (.error (.store fault),db)
      | none =>
        let (changed,db') := db.heartbeat job_id worker attempt_index now_ms expires_ts_ms
        (.ok changed,db')
    | .releaseLease job_id =>
      match i.fault with
      | some fault => (.error (.store fault),db)
      | none => (.ok (),db.releaseLease job_id)

abbrev QueueProg := Prog queueIface SchedError

namespace Act

def now : QueueProg Nat := .act (F := queueIface) .now .ret

def jitter (bound : Nat) : QueueProg Nat := .act (F := queueIface) (.jitter bound) .ret

def readJob (job_id : JobId) : QueueProg (Option JobRow) :=
  .act (F := queueIface) (.readJob job_id) .ret

def listCrons : QueueProg (List (CronId × CronRow)) := .act (F := queueIface) .listCrons .ret

def listQueuedOf (cron_id : CronId) : QueueProg (List JobId) :=
  .act (F := queueIface) (.listQueuedOf cron_id) .ret

def readExpiredLeases (now_ms : Nat) : QueueProg (List (JobId × LeaseRow)) :=
  .act (F := queueIface) (.readExpiredLeases now_ms) .ret

def append (event : JobEvent) : QueueProg (Except LogError Unit) :=
  .act (F := queueIface) (.append event) .ret

def claimLease (class_ : JobClass) (worker : WorkerName) (now_ms expires_ts_ms : Nat) :
    QueueProg (Except SchedError (Option Candidate)) :=
  .act (F := queueIface) (.claimLease class_ worker now_ms expires_ts_ms) .ret

def heartbeat (job_id : JobId) (worker : WorkerName) (attempt_index now_ms expires_ts_ms : Nat) :
    QueueProg (Except SchedError Nat) :=
  .act (F := queueIface) (.heartbeat job_id worker attempt_index now_ms expires_ts_ms) .ret

def releaseLease (job_id : JobId) : QueueProg (Except SchedError Unit) :=
  .act (F := queueIface) (.releaseLease job_id) .ret

end Act

def appendJobFact (event : JobEvent) : QueueProg Unit := do
  match ← Act.append event with
  | .ok () => pure ()
  | .error e => .throw (.log e)

def releaseLease (job_id : JobId) : QueueProg Unit := do
  .ofExcept (← Act.releaseLease job_id)

def enqueuedEvent (job_id : JobId) (project_id : ProjectId) (spec : JobSpec) : JobEvent :=
  .enqueuedV2
    { job_id := job_id, project_id := project_id, job_kind := spec.kind.name,
      idempotency_key := spec.idempotency_key, priority := spec.priority, class_ := spec.class_,
      payload := spec.payload, run_at_ts_ms := spec.run_at_ts_ms,
      attempt_count_max := spec.retry_count_max, cron := spec.cron }

section
variable (q : JobQueue)

/-- Admits a job once: the read answers the expected duplicate, the projection's key
refuses one that raced past it. -/
def enqueue (project_id : ProjectId) (spec : JobSpec) : QueueProg EnqueueOutcome := do
  .ofExcept spec.validate
  let job_id := deriveJobId q project_id spec.kind spec.idempotency_key
  match ← Act.readJob job_id with
  | some _ => pure (.duplicate job_id)
  | none =>
    match ← Act.append (enqueuedEvent job_id project_id spec) with
    | .ok () => pure (.enqueued job_id)
    | .error (.apply source) =>
      match ← Act.readJob job_id with
      | some _ => pure (.duplicate job_id)
      | none => .throw (.log (.apply source))
    | .error e => .throw (.log e)

def claim (project_id : ProjectId) (class_ : JobClass) (worker : WorkerName) :
    QueueProg (Option ClaimedJob) := do
  let now_ms ← Act.now
  let expires_ts_ms := satAdd64 now_ms q.lease_ttl_ms
  match ← .ofExcept (← Act.claimLease class_ worker now_ms expires_ts_ms) with
  | none => pure none
  | some c =>
    pure (some
      { job_id := c.job_id, project_id := project_id, kind := c.kind,
        payload := c.row.payload, attempt_index := satAdd32 (countU32 c.row.attempt_count) 1,
        retry_count_max := countU32 c.row.attempt_count_max,
        enqueued_seq := nonNegative c.row.enqueued_seq, worker := worker,
        claimed_ts_ms := now_ms,
        claim_latency_ms := now_ms - nonNegative c.row.run_at_ts_ms })

def heartbeat (job : ClaimedJob) : QueueProg Bool := do
  let now_ms ← Act.now
  let expires_ts_ms := satAdd64 now_ms q.lease_ttl_ms
  let changed ← .ofExcept
    (← Act.heartbeat job.job_id job.worker job.attempt_index now_ms expires_ts_ms)
  pure (changed == 1)

def complete (job : ClaimedJob) (wall_ms : Nat) : QueueProg Unit := do
  appendJobFact (.completedV2 job.job_id job.attempt_index wall_ms)
  releaseLease job.job_id

structure FailedAttempt where
  job_id : JobId
  attempt_index : Nat
  retry_count_max : Nat
  now_ms : Nat

def failureKills (failure : JobFailure) (attempt_index retry_count_max : Nat) : Bool :=
  failure.permanent || decide (retry_count_max < attempt_index)

def appendFailure (attempt : FailedAttempt) (failure : JobFailure) :
    QueueProg FailureOutcome :=
  if failureKills failure attempt.attempt_index attempt.retry_count_max then do
    let reason :=
      if failure.permanent then JobDeadReason.refused failure.code
      else JobDeadReason.retriesExhausted failure.code
    appendJobFact (.dead attempt.job_id attempt.attempt_index reason)
    pure .dead
  else do
    let delay_ms ← Act.jitter (satAdd64 (q.backoff.windowMs attempt.attempt_index) 1)
    let retry_at_ts_ms := satAdd64 attempt.now_ms delay_ms
    appendJobFact
      (.attemptFailed attempt.job_id attempt.attempt_index failure.code failure.detail
        retry_at_ts_ms)
    pure (.retrying retry_at_ts_ms)

def fail (job : ClaimedJob) (failure : JobFailure) : QueueProg FailureOutcome := do
  let now_ms ← Act.now
  let outcome ← appendFailure q ⟨job.job_id,job.attempt_index,job.retry_count_max,now_ms⟩ failure
  releaseLease job.job_id
  pure outcome

def supersede (job_id : JobId) (cron_id : CronId) : QueueProg Unit := do
  match ← Act.readJob job_id with
  | none => .throw (.unknownJob job_id.toHex)
  | some record =>
    if record.state.isTerminal then pure ()
    else do
      appendJobFact (.dead job_id (countU32 record.attempt_count) (.supersededByCron cron_id))
      releaseLease job_id

def leaseFailure (lease : LeaseRow) : JobFailure :=
  { code := "lease_expired",
    detail := s!"worker {lease.worker} stopped heartbeating attempt {countU32 lease.attempt_index}",
    permanent := false }

def reapLease (now_ms : Nat) (lease : JobId × LeaseRow) : QueueProg Unit := do
  match ← Act.readJob lease.1 with
  | none => releaseLease lease.1
  | some record =>
    if !record.state.isTerminal &&
        decide (countU32 record.attempt_count < countU32 lease.2.attempt_index) then do
      let _ ← appendFailure q
        ⟨lease.1,countU32 lease.2.attempt_index,countU32 record.attempt_count_max,now_ms⟩
        (leaseFailure lease.2)
      releaseLease lease.1
    else releaseLease lease.1

def reapExpiredLeases : QueueProg Nat := do
  let now_ms ← Act.now
  let expired ← Act.readExpiredLeases now_ms
  expired.foldlM (fun reaped lease => do
    reapLease q now_ms lease
    pure (reaped+1)) 0

def registerCron (project_id : ProjectId) (spec : CronSpec) : QueueProg Unit := do
  match q.schedule spec.expr spec.tz with
  | .error e => .throw (.invalidSchedule e)
  | .ok _ =>
    appendJobFact (.cronRegistered
      { cron_id := spec.cron_id, project_id := project_id, job_kind := spec.job_kind.name,
        expr := spec.expr, tz := spec.tz, overlap_policy := spec.overlap_policy,
        enabled := spec.enabled, priority := spec.priority, class_ := spec.class_,
        payload := spec.payload })

def watermarkTsMs (row : CronRow) : Nat :=
  match row.last_fired_ts_ms with
  | some fired => nonNegative fired
  | none => nonNegative row.registered_ts_ms

def dueScan (next : Int → Option Int) (now : Int) : Nat → Int → Option Int → Nat → Option (Int × Nat)
  | 0, _, latest, count => latest.map fun t => (t,count)
  | n+1, cursor, latest, count =>
    match next cursor with
    | none => latest.map fun t => (t,count)
    | some t =>
      if now < t then latest.map fun t => (t,count)
      else dueScan next now n t (some t) (count+1)

structure DueFiring where
  scheduled_ts_ms : Nat
  missed_count : Nat

def dueFiring (next : Int → Option Int) (watermark_ts_ms now_ms : Nat) : Option DueFiring :=
  (dueScan next (integerU64 now_ms) cronCatchupScanCountMax (integerU64 watermark_ts_ms) none 0).map
    fun r => ⟨nonNegative r.1,r.2-1⟩

def firingSpec (cron_id : CronId) (row : CronRow) (kind : JobKind) (due : DueFiring) : JobSpec :=
  { kind := kind, idempotency_key := s!"cron:{cron_id.toHex}:{due.scheduled_ts_ms}",
    priority := row.priority, class_ := row.class_, payload := row.payload,
    run_at_ts_ms := due.scheduled_ts_ms, retry_count_max := 3,
    cron := some ⟨cron_id,due.scheduled_ts_ms⟩ }

def fire (project_id : ProjectId) (cron : CronId × CronRow) (due : DueFiring)
    (report : CronTickReport) : QueueProg CronTickReport :=
  if hk : jobKindValid cron.2.job_kind = true then do
    let outcome ← enqueue q project_id (firingSpec cron.1 cron.2 ⟨cron.2.job_kind,hk⟩ due)
    if outcome.isDuplicate then pure report
    else pure { report with fired := report.fired ++ [outcome.jobId] }
  else
    .throw (.invalidSpec "job_kind"
      s!"invalid job kind {cron.2.job_kind.quote}: 1..=64 bytes of ASCII alphanumerics, '.', '-', or '_'")

def supersedeAll (cron_id : CronId) (live : List JobId) (report : CronTickReport) :
    QueueProg CronTickReport :=
  live.foldlM (fun report job_id => do
    supersede job_id cron_id
    pure { report with superseded_count := report.superseded_count+1 }) report

def tickOne (project_id : ProjectId) (now_ms : Nat) (report : CronTickReport)
    (cron : CronId × CronRow) : QueueProg CronTickReport :=
  if cron.2.enabled = false then pure report
  else
    match q.schedule cron.2.expr cron.2.tz with
    | .error e => .throw (.invalidSchedule e)
    | .ok next =>
      match dueFiring next (watermarkTsMs cron.2) now_ms with
      | none => pure report
      | some due => do
        let report := { report with missed_tick_count := report.missed_tick_count+due.missed_count }
        let live ← Act.listQueuedOf cron.1
        match cron.2.overlap_policy with
        | .skip =>
          if live = [] then fire q project_id cron due report
          else pure { report with skipped_overlap_count := report.skipped_overlap_count+1 }
        | .cancelPrevious => do
          let report ← supersedeAll cron.1 live report
          fire q project_id cron due report
        | .queue => fire q project_id cron due report

def tick (project_id : ProjectId) : QueueProg CronTickReport := do
  let now_ms ← Act.now
  let crons ← Act.listCrons
  crons.foldlM (tickOne q project_id now_ms) ⟨[],0,0,0⟩

end

end ProjectOS.Sched
