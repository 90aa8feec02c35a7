import ProjectOS.Foundation
import ProjectOS.Domain.Rows

namespace ProjectOS.Domain
open Lib

inductive JobPriority where
  | high | normal | low
  deriving DecidableEq

def JobPriority.rank : JobPriority → Nat
  | .high => 0
  | .normal => 1
  | .low => 2

inductive JobClass where
  | foreground | ingest | maintenance
  deriving DecidableEq

inductive CronOverlapPolicy where
  | skip | queue | cancelPrevious
  deriving DecidableEq

inductive JobDurableState where
  | queued | done | dead
  deriving DecidableEq

def JobDurableState.parse (text : String) : Option JobDurableState :=
  if text = "queued" then some .queued
  else if text = "done" then some .done
  else if text = "dead" then some .dead
  else none

def JobDurableState.isTerminal : JobDurableState → Bool
  | .queued => false
  | .done
  | .dead => true

structure JobCronOrigin where
  cron_id : CronId
  scheduled_ts_ms : Nat
  deriving DecidableEq

inductive JobDeadReason where
  | retriesExhausted (error_code : String)
  | refused (error_code : String)
  | supersededByCron (cron_id : CronId)
  deriving DecidableEq

def JobDeadReason.code : JobDeadReason → String
  | .retriesExhausted _ => "retries_exhausted"
  | .refused _ => "refused"
  | .supersededByCron _ => "superseded_by_cron"

def JobDeadReason.detail : JobDeadReason → String
  | .retriesExhausted error_code => error_code
  | .refused error_code => error_code
  | .supersededByCron cron_id => cron_id.toHex

structure JobEnqueuedV2 where
  job_id : JobId
  project_id : ProjectId
  job_kind : String
  idempotency_key : String
  priority : JobPriority
  class_ : JobClass
  payload : Bytes
  run_at_ts_ms : Nat
  attempt_count_max : Nat
  cron : Option JobCronOrigin
  deriving DecidableEq

structure CronRegisteredV1 where
  cron_id : CronId
  project_id : ProjectId
  job_kind : String
  expr : String
  tz : String
  overlap_policy : CronOverlapPolicy
  enabled : Bool
  priority : JobPriority
  class_ : JobClass
  payload : Bytes
  deriving DecidableEq

inductive JobEvent where
  | enqueuedV1 (job_id : JobId) (job_kind : String)
  | enqueuedV2 (body : JobEnqueuedV2)
  | attemptFailed (job_id : JobId) (attempt_index : Nat) (error_code error_detail : String)
      (retry_at_ts_ms : Nat)
  | completedV1 (job_id : JobId) (attempts : Nat)
  | completedV2 (job_id : JobId) (attempt_count wall_ms : Nat)
  | dead (job_id : JobId) (attempt_count : Nat) (reason : JobDeadReason)
  | cronRegistered (body : CronRegisteredV1)
  | cronEnablementSet (cron_id : CronId) (enabled : Bool)
  deriving DecidableEq

/-- A `proj_jobs` row, with enumerations for their codes; integer columns are
signed. -/
structure JobRow where
  project_id : Option ProjectId
  job_kind : String
  idempotency_key : String
  state : JobDurableState
  priority_rank : Int
  class_ : JobClass
  payload : Bytes
  enqueued_seq : Int
  run_at_ts_ms : Int
  attempt_count : Int
  attempt_count_max : Int
  last_error_code : Option String
  last_error_detail : Option String
  terminal_seq : Option Int
  wall_ms : Option Int
  dead_reason_code : Option String
  dead_reason_detail : Option String
  cron_id : Option CronId

structure CronRow where
  project_id : ProjectId
  job_kind : String
  expr : String
  tz : String
  overlap_policy : CronOverlapPolicy
  enabled : Bool
  priority : JobPriority
  class_ : JobClass
  payload : Bytes
  registered_seq : Int
  registered_ts_ms : Int
  last_fired_ts_ms : Option Int
  last_job_id : Option JobId

def jobAttemptCountMaxDefault : Nat := 5

def enqueuedRow (seq ts_ms : Nat) : JobEvent → Option (JobId × JobRow)
  | .enqueuedV1 job_id job_kind =>
    some (job_id,
      { project_id := none, job_kind := job_kind, idempotency_key := job_id.toHex,
        state := .queued, priority_rank := JobPriority.rank .normal, class_ := .maintenance,
        payload := [], enqueued_seq := integerU64 seq, run_at_ts_ms := integerU64 ts_ms,
        attempt_count := 0, attempt_count_max := integerU32 jobAttemptCountMaxDefault,
        last_error_code := none, last_error_detail := none, terminal_seq := none,
        wall_ms := none, dead_reason_code := none, dead_reason_detail := none, cron_id := none })
  | .enqueuedV2 b =>
    some (b.job_id,
      { project_id := some b.project_id, job_kind := b.job_kind,
        idempotency_key := b.idempotency_key, state := .queued,
        priority_rank := b.priority.rank, class_ := b.class_, payload := b.payload,
        enqueued_seq := integerU64 seq, run_at_ts_ms := integerU64 b.run_at_ts_ms,
        attempt_count := 0, attempt_count_max := integerU32 b.attempt_count_max,
        last_error_code := none, last_error_detail := none, terminal_seq := none,
        wall_ms := none, dead_reason_code := none, dead_reason_detail := none,
        cron_id := b.cron.map JobCronOrigin.cron_id })
  | _ => none

def applyJobs (jobs : Table JobId JobRow) (seq ts_ms : Nat) (event : JobEvent) :
    Except ApplyError (Table JobId JobRow) :=
  match event with
  | .enqueuedV1 .. | .enqueuedV2 .. =>
    match enqueuedRow seq ts_ms event with
    | some (job_id,row) => insertRow "proj_jobs" jobs job_id row
    | none => .ok jobs
  | .attemptFailed job_id attempt_index error_code error_detail retry_at_ts_ms =>
    updateOne "proj_jobs" "strict update" jobs job_id fun row =>
      { row with
        attempt_count := integerU32 attempt_index, last_error_code := some error_code,
        last_error_detail := some error_detail, run_at_ts_ms := integerU64 retry_at_ts_ms }
  | .completedV1 job_id attempts =>
    updateOne "proj_jobs" "strict update" jobs job_id fun row =>
      { row with
        state := .done, terminal_seq := some (integerU64 seq),
        attempt_count := integerU32 attempts }
  | .completedV2 job_id attempt_count wall_ms =>
    updateOne "proj_jobs" "strict update" jobs job_id fun row =>
      { row with
        state := .done, terminal_seq := some (integerU64 seq),
        attempt_count := integerU32 attempt_count, wall_ms := some (integerU64 wall_ms) }
  | .dead job_id attempt_count reason =>
    updateOne "proj_jobs" "strict update" jobs job_id fun row =>
      { row with
        state := .dead, terminal_seq := some (integerU64 seq),
        attempt_count := integerU32 attempt_count, dead_reason_code := some reason.code,
        dead_reason_detail := some reason.detail }
  | .cronRegistered _ | .cronEnablementSet .. => .ok jobs

def applyCrons (crons : Table CronId CronRow) (seq ts_ms : Nat) (event : JobEvent) :
    Except ApplyError (Table CronId CronRow) :=
  match event with
  | .cronRegistered b =>
    .ok (crons.put b.cron_id
      { project_id := b.project_id, job_kind := b.job_kind, expr := b.expr, tz := b.tz,
        overlap_policy := b.overlap_policy, enabled := b.enabled, priority := b.priority,
        class_ := b.class_, payload := b.payload, registered_seq := integerU64 seq,
        registered_ts_ms := integerU64 ts_ms, last_fired_ts_ms := none, last_job_id := none })
  | .cronEnablementSet cron_id enabled =>
    updateOne "proj_crons" "strict update" crons cron_id fun row => { row with enabled := enabled }
  | .enqueuedV2 b =>
    match b.cron with
    | some cron =>
      updateOne "proj_crons" "strict update" crons cron.cron_id fun row =>
        { row with
          last_fired_ts_ms := some (integerU64 cron.scheduled_ts_ms),
          last_job_id := some b.job_id }
    | none => .ok crons
  | _ => .ok crons

def JobEvent.job : JobEvent → Option JobId
  | .enqueuedV1 job_id _ => some job_id
  | .enqueuedV2 b => some b.job_id
  | .attemptFailed job_id ..
  | .completedV1 job_id _
  | .completedV2 job_id ..
  | .dead job_id .. => some job_id
  | .cronRegistered _
  | .cronEnablementSet .. => none

theorem applyJobs_other {jobs jobs' : Table JobId JobRow} {seq ts_ms : Nat} {event : JobEvent}
    (h : applyJobs jobs seq ts_ms event = .ok jobs') {j : JobId} (hj : event.job ≠ some j) :
    jobs'.get? j = jobs.get? j := by
  cases event with
  | enqueuedV1 | enqueuedV2 =>
    obtain ⟨-,rfl⟩ := insertRow_ok h
    exact Table.get?_put_ne _ _ (fun he => hj (by simp [JobEvent.job,he]))
  | attemptFailed | completedV1 | completedV2 | dead =>
    obtain ⟨_,-,rfl⟩ := updateOne_ok h
    exact Table.get?_put_ne _ _ (fun he => hj (by simp [JobEvent.job,he]))
  | cronRegistered | cronEnablementSet =>
    cases h
    rfl

end ProjectOS.Domain
