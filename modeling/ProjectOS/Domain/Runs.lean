import Mathlib.Data.String.Basic
import Mathlib.Data.Prod.Lex
import ProjectOS.Foundation
import ProjectOS.Domain.Rows

namespace ProjectOS.Domain
open Lib

inductive RunOutcome where
  | completed | failed | canceled
  deriving DecidableEq

def RunOutcome.asStatusStr : RunOutcome → String
  | .completed => "done"
  | .failed => "failed"
  | .canceled => "canceled"

inductive RunRuntimeKind where
  | native | external

def RunRuntimeKind.asStr : RunRuntimeKind → String
  | .native => "native"
  | .external => "external"

structure RunRuntimeRef where
  kind : RunRuntimeKind
  runtime_id : String
  contract_version : UInt16

inductive RunExecutor where
  | device | cloud
  deriving DecidableEq

def RunExecutor.asStr : RunExecutor → String
  | .device => "device"
  | .cloud => "cloud"

inductive RunTrigger where
  | user | schedule | subscription | parentRun | retry

def RunTrigger.asStr : RunTrigger → String
  | .user => "user"
  | .schedule => "schedule"
  | .subscription => "subscription"
  | .parentRun => "parent_run"
  | .retry => "retry"

structure RunUsage where
  tokens : UInt64
  usd_micros : UInt64
  wall_ms : UInt64
  storage_bytes : UInt64
  tool_calls : UInt32
  retries : UInt32
  steps : UInt32
  deriving DecidableEq

def RunUsage.default : RunUsage := ⟨0,0,0,0,0,0,0⟩

abbrev RunBudget := RunUsage

inductive RunBudgetDimension where
  | tokens | usdMicros | wallMs | storageBytes | toolCalls | retries | steps
  deriving DecidableEq

def RunBudgetDimension.asStr : RunBudgetDimension → String
  | .tokens => "tokens"
  | .usdMicros => "usd_micros"
  | .wallMs => "wall_ms"
  | .storageBytes => "storage_bytes"
  | .toolCalls => "tool_calls"
  | .retries => "retries"
  | .steps => "steps"

def RunBudgetDimension.parse : String → Option RunBudgetDimension
  | "tokens" => some .tokens
  | "usd_micros" => some .usdMicros
  | "wall_ms" => some .wallMs
  | "storage_bytes" => some .storageBytes
  | "tool_calls" => some .toolCalls
  | "retries" => some .retries
  | "steps" => some .steps
  | _ => none

inductive RunStepPhase where
  | preflight | context | tool | validation | report

def RunStepPhase.asStr : RunStepPhase → String
  | .preflight => "preflight"
  | .context => "context"
  | .tool => "tool"
  | .validation => "validation"
  | .report => "report"

structure RunToolCall where
  tool_id : String
  descriptor_version : UInt16
  call_id : ToolCallId
  idempotency_key : String
  input : Bytes

inductive RunToolGrantMode where
  | allow | gate | block
  deriving DecidableEq

def RunToolGrantMode.asStr : RunToolGrantMode → String
  | .allow => "allow"
  | .gate => "gate"
  | .block => "block"

def RunToolGrantMode.parse : String → Option RunToolGrantMode
  | "allow" => some .allow
  | "gate" => some .gate
  | "block" => some .block
  | _ => none

structure RunToolGrant where
  tool_id : String
  mode : RunToolGrantMode

structure RunCheckpointRef where
  checkpoint_id : CheckpointId
  step_index : UInt32

inductive RunValidationStatus where
  | passed | failed | inconclusive
  deriving DecidableEq

def RunValidationStatus.asStr : RunValidationStatus → String
  | .passed => "passed"
  | .failed => "failed"
  | .inconclusive => "inconclusive"

def RunValidationStatus.parse : String → Option RunValidationStatus
  | "passed" => some .passed
  | "failed" => some .failed
  | "inconclusive" => some .inconclusive
  | _ => none

structure RunValidationRef where
  validation_id : ValidationId
  status : RunValidationStatus

structure RunExecutionLeaseRef where
  lease_id : LeaseId
  generation : UInt64

inductive RunPauseCause where
  | budget (dimension : RunBudgetDimension) (limit spent pending requested : UInt64)
  | requested (reason : String)
  | toolWeather (code : String)
  | reservationExceeded (dimension : RunBudgetDimension)

structure RunStartedV2 where
  run_id : RunId
  project_id : ProjectId
  worker : String
  runtime : RunRuntimeRef
  executor : RunExecutor
  trigger : RunTrigger
  autonomy_level : UInt8
  budget : RunBudget
  tool_grants : List RunToolGrant
  parent_run_id : Option RunId
  lineage_depth : UInt8
  checkpoint : Option RunCheckpointRef
  validation : Option RunValidationRef
  execution_lease : Option RunExecutionLeaseRef
  tainted : Bool

inductive RunEvent where
  | startedV1 (run_id : RunId) (worker trigger : String)
  | startedV2 (body : RunStartedV2)
  | stepCommittedV1 (run_id : RunId) (step_index : UInt32) (summary : String)
  | stepCommittedV2 (run_id : RunId) (step_index : UInt32) (phase : RunStepPhase)
      (summary : String) (digest : Digest) (tool_call : Option RunToolCall) (reserved : RunUsage)
  | toolEffectRecorded (run_id : RunId) (step_index : UInt32) (call_id : ToolCallId)
      (idempotency_key : String) (output_digest : Digest) (spent : RunUsage)
  | checkpointSaved (run_id : RunId) (step_index : UInt32) (checkpoint_id : CheckpointId)
      (state_digest : Digest)
  | artifactRecorded (run_id : RunId) (step_index : UInt32) (artifact_id : ArtifactId)
      (content_hash : Digest) (media_type : String) (size_bytes : UInt64)
  | validationRecorded (run_id : RunId) (step_index : UInt32) (validation_id : ValidationId)
      (status : RunValidationStatus) (summary : String)
  | pauseRequested (run_id : RunId) (reason : String)
  | paused (run_id : RunId) (at_step_index : UInt32) (cause : RunPauseCause) (spent : RunUsage)
  | resumed (run_id : RunId) (at_step_index : UInt32)
  | cancelRequested (run_id : RunId) (reason : String)
  | canceled (run_id : RunId) (at_step_index : UInt32)
  | taintRaised (run_id : RunId) (source : String)
  | questionAsked (run_id : RunId) (question_id : QuestionId) (prompt : String)
  | questionAnswered (run_id : RunId) (question_id : QuestionId) (answered_by : UserId)
      (answer : String)
  | gateApproved (run_id : RunId) (receipt_id : ReceiptId) (call_id : ToolCallId)
      (approved_by : UserId) (reason : String) (expires_ts_ms : UInt64)
  | finishedV1 (run_id : RunId) (outcome : RunOutcome) (steps_total : UInt32)
  | finishedV2 (run_id : RunId) (outcome : RunOutcome) (steps_total : UInt32) (spent : RunUsage)
      (validation : Option RunValidationRef)

/-- Seven integer columns. A sum past the signed range stands for the REAL
SQLite would store there. -/
structure UsageCols where
  tokens : Int
  usd_micros : Int
  wall_ms : Int
  storage_bytes : Int
  tool_calls : Int
  retries : Int
  steps : Int

def usageValues (usage : RunUsage) : UsageCols where
  tokens := integerU64 usage.tokens.toNat
  usd_micros := integerU64 usage.usd_micros.toNat
  wall_ms := integerU64 usage.wall_ms.toNat
  storage_bytes := integerU64 usage.storage_bytes.toNat
  tool_calls := integerU32 usage.tool_calls.toNat
  retries := integerU32 usage.retries.toNat
  steps := integerU32 usage.steps.toNat

def UsageCols.add (a b : UsageCols) : UsageCols where
  tokens := a.tokens+b.tokens
  usd_micros := a.usd_micros+b.usd_micros
  wall_ms := a.wall_ms+b.wall_ms
  storage_bytes := a.storage_bytes+b.storage_bytes
  tool_calls := a.tool_calls+b.tool_calls
  retries := a.retries+b.retries
  steps := a.steps+b.steps

structure PauseCols where
  kind : Option String
  detail : Option String
  dimension : Option String
  limit : Option Int
  spent : Option Int
  pending : Option Int
  requested : Option Int

def clearPauseAssignments : PauseCols := ⟨none,none,none,none,none,none,none⟩

def pauseAssignments : RunPauseCause → PauseCols
  | .budget dimension limit spent pending requested =>
    ⟨some "budget",none,some dimension.asStr,some (integerU64 limit.toNat),
      some (integerU64 spent.toNat),some (integerU64 pending.toNat),
      some (integerU64 requested.toNat)⟩
  | .requested reason => ⟨some "requested",some reason,none,none,none,none,none⟩
  | .toolWeather code => ⟨some "tool_weather",some code,none,none,none,none,none⟩
  | .reservationExceeded dimension =>
    ⟨some "reservation_exceeded",none,some dimension.asStr,none,none,none,none⟩

structure RunRow where
  project_id : Option ProjectId
  status : String
  worker : String
  runtime_kind : String
  runtime_id : String
  runtime_contract_version : Int
  executor : String
  trigger : String
  autonomy_level : Int
  started_seq : Int
  finished_seq : Option Int
  committed_step_count : Int
  checkpointed_step_count : Int
  budget : UsageCols
  spent : UsageCols
  tainted : Int
  parent_run_id : Option RunId
  lineage_depth : Int
  checkpoint_id : Option CheckpointId
  checkpoint_step_index : Option Int
  validation_id : Option ValidationId
  validation_status : Option String
  execution_lease_id : Option LeaseId
  execution_lease_generation : Option Int
  pending_control : Option String
  control_reason : Option String
  pause : PauseCols
  question_id : Option QuestionId
  question_prompt : Option String

def legacyRunValues (worker trigger : String) (seq : Nat) : RunRow where
  project_id := none
  status := "running"
  worker := worker
  runtime_kind := "native"
  runtime_id := "legacy"
  runtime_contract_version := 1
  executor := "device"
  trigger := trigger
  autonomy_level := 0
  started_seq := integerU64 seq
  finished_seq := none
  committed_step_count := 0
  checkpointed_step_count := 0
  budget := usageValues ⟨.ofNat u64Max,.ofNat u64Max,.ofNat u64Max,.ofNat u64Max,.ofNat u32Max,
    .ofNat u32Max,.ofNat u32Max⟩
  spent := usageValues RunUsage.default
  tainted := 0
  parent_run_id := none
  lineage_depth := 0
  checkpoint_id := none
  checkpoint_step_index := none
  validation_id := none
  validation_status := none
  execution_lease_id := none
  execution_lease_generation := none
  pending_control := none
  control_reason := none
  pause := clearPauseAssignments
  question_id := none
  question_prompt := none

def runValuesV2 (b : RunStartedV2) (seq : Nat) : RunRow where
  project_id := some b.project_id
  status := "preflight"
  worker := b.worker
  runtime_kind := b.runtime.kind.asStr
  runtime_id := b.runtime.runtime_id
  runtime_contract_version := b.runtime.contract_version.toNat
  executor := b.executor.asStr
  trigger := b.trigger.asStr
  autonomy_level := b.autonomy_level.toNat
  started_seq := integerU64 seq
  finished_seq := none
  committed_step_count := 0
  checkpointed_step_count := 0
  budget := usageValues b.budget
  spent := usageValues RunUsage.default
  tainted := if b.tainted then 1 else 0
  parent_run_id := b.parent_run_id
  lineage_depth := b.lineage_depth.toNat
  checkpoint_id := b.checkpoint.map RunCheckpointRef.checkpoint_id
  checkpoint_step_index := b.checkpoint.map fun value => integerU32 value.step_index.toNat
  validation_id := b.validation.map RunValidationRef.validation_id
  validation_status := b.validation.map fun value => value.status.asStr
  execution_lease_id := b.execution_lease.map RunExecutionLeaseRef.lease_id
  execution_lease_generation := b.execution_lease.map fun value => integerU64 value.generation.toNat
  pending_control := none
  control_reason := none
  pause := clearPauseAssignments
  question_id := none
  question_prompt := none

inductive RunWrite where
  | insert (run_id : RunId) (row : RunRow)
  | updateOne (run_id : RunId) (operation : String) (f : RunRow → RunRow)
  | nothing

def RunStepPhase.runStatus : RunStepPhase → String
  | .preflight => "preflight"
  | .validation => "validating"
  | .context | .tool | .report => "running"

def runsProjection (seq : Nat) : RunEvent → RunWrite
  | .startedV1 run_id worker trigger => .insert run_id (legacyRunValues worker trigger seq)
  | .startedV2 body => .insert body.run_id (runValuesV2 body seq)
  | .stepCommittedV1 run_id _ _ =>
    .updateOne run_id "strict increment" fun row =>
      { row with committed_step_count := row.committed_step_count+1 }
  | .stepCommittedV2 run_id _ phase _ _ _ _ =>
    .updateOne run_id "strict update" fun row =>
      { row with
        status := phase.runStatus, committed_step_count := row.committed_step_count+1 }
  | .toolEffectRecorded run_id _ _ _ _ spent =>
    .updateOne run_id "strict multi-increment" fun row =>
      { row with spent := row.spent.add (usageValues spent) }
  | .checkpointSaved run_id step_index checkpoint_id _ =>
    .updateOne run_id "strict increment" fun row =>
      { row with
        checkpointed_step_count := row.checkpointed_step_count+1,
        checkpoint_id := some checkpoint_id,
        checkpoint_step_index := some (integerU32 step_index.toNat) }
  | .validationRecorded run_id _ validation_id status _ =>
    .updateOne run_id "strict update" fun row =>
      { row with validation_id := some validation_id, validation_status := some status.asStr }
  | .pauseRequested run_id reason =>
    .updateOne run_id "strict update" fun row =>
      { row with pending_control := some "pause", control_reason := some reason }
  | .paused run_id _ cause spent =>
    .updateOne run_id "strict update" fun row =>
      { row with
        status := "paused", pending_control := none, control_reason := none,
        pause := pauseAssignments cause, spent := usageValues spent }
  | .resumed run_id _ =>
    .updateOne run_id "strict update" fun row =>
      { row with
        status := "running", pending_control := none, control_reason := none,
        pause := clearPauseAssignments }
  | .cancelRequested run_id reason =>
    .updateOne run_id "strict update" fun row =>
      { row with pending_control := some "cancel", control_reason := some reason }
  | .canceled run_id _ =>
    .updateOne run_id "strict update" fun row =>
      { row with
        status := "canceled", pending_control := none, control_reason := none,
        finished_seq := some (integerU64 seq), pause := clearPauseAssignments }
  | .taintRaised run_id _ =>
    .updateOne run_id "strict update" fun row => { row with tainted := 1 }
  | .questionAsked run_id question_id prompt =>
    .updateOne run_id "strict update" fun row =>
      { row with
        status := "waiting_input", question_id := some question_id,
        question_prompt := some prompt }
  | .questionAnswered run_id _ _ _ =>
    .updateOne run_id "strict update" fun row =>
      { row with status := "running", question_id := none, question_prompt := none }
  | .finishedV1 run_id outcome _ =>
    .updateOne run_id "strict update" fun row =>
      { row with status := outcome.asStatusStr, finished_seq := some (integerU64 seq) }
  | .finishedV2 run_id outcome _ spent validation =>
    .updateOne run_id "strict update" fun row =>
      match validation with
      | none =>
        { row with
          status := outcome.asStatusStr, finished_seq := some (integerU64 seq),
          spent := usageValues spent }
      | some v =>
        { row with
          status := outcome.asStatusStr, finished_seq := some (integerU64 seq),
          spent := usageValues spent, validation_id := some v.validation_id,
          validation_status := some v.status.asStr }
  | .artifactRecorded .. | .gateApproved .. => .nothing

def RunWrite.exec (t : Table RunId RunRow) : RunWrite → Except ApplyError (Table RunId RunRow)
  | .insert run_id row => insertRow "proj_runs" t run_id row
  | .updateOne run_id operation f => Domain.updateOne "proj_runs" operation t run_id f
  | .nothing => .ok t

structure GrantKey where
  run_id : RunId
  tool_id : String
  deriving DecidableEq

theorem GrantKey.lex_injective :
    Function.Injective (fun k : GrantKey => toLex (k.run_id,k.tool_id)) := by
  rintro ⟨a,b⟩ ⟨c,d⟩ h
  simpa using h

instance : LinearOrder GrantKey := LinearOrder.lift' _ GrantKey.lex_injective

structure GrantRow where
  mode : String
  started_seq : Int

def runToolGrantsProjection (seq : Nat) (t : Table GrantKey GrantRow) :
    RunEvent → Except ApplyError (Table GrantKey GrantRow)
  | .startedV2 body =>
    body.tool_grants.foldlM (fun t grant => insertRow "proj_run_tool_grants" t
      ⟨body.run_id,grant.tool_id⟩ ⟨grant.mode.asStr,integerU64 seq⟩) t
  | _ => .ok t

structure StepKey where
  run_id : RunId
  step_index : Nat
  deriving DecidableEq

theorem StepKey.lex_injective :
    Function.Injective (fun k : StepKey => toLex (k.run_id,k.step_index)) := by
  rintro ⟨a,b⟩ ⟨c,d⟩ h
  simpa using h

instance : LinearOrder StepKey := LinearOrder.lift' _ StepKey.lex_injective

structure StepRow where
  summary : String
  phase : String
  step_digest : Option Digest
  tool_id : Option String
  tool_descriptor_version : Option Int
  tool_call_id : Option ToolCallId
  idempotency_key : Option String
  input : Option Bytes
  reserved : UsageCols
  committed_seq : Int
  effect_recorded_seq : Option Int
  output_digest : Option Digest
  spent : UsageCols
  checkpoint_id : Option CheckpointId
  checkpoint_digest : Option Digest
  checkpoint_seq : Option Int
  artifact_id : Option ArtifactId
  artifact_hash : Option Digest
  artifact_media_type : Option String
  artifact_size_bytes : Option Int
  validation_id : Option ValidationId
  validation_status : Option String
  validation_summary : Option String

def stepValues (summary phase : String) (digest : Option Digest) (tool_call : Option RunToolCall)
    (reserved : RunUsage) (seq : Nat) : StepRow where
  summary := summary
  phase := phase
  step_digest := digest
  tool_id := tool_call.map RunToolCall.tool_id
  tool_descriptor_version := tool_call.map fun call => (call.descriptor_version.toNat : Int)
  tool_call_id := tool_call.map RunToolCall.call_id
  idempotency_key := tool_call.map RunToolCall.idempotency_key
  input := tool_call.map RunToolCall.input
  reserved := usageValues reserved
  committed_seq := integerU64 seq
  effect_recorded_seq := none
  output_digest := none
  spent := usageValues RunUsage.default
  checkpoint_id := none
  checkpoint_digest := none
  checkpoint_seq := none
  artifact_id := none
  artifact_hash := none
  artifact_media_type := none
  artifact_size_bytes := none
  validation_id := none
  validation_status := none
  validation_summary := none

/-- What one event asks of `proj_run_steps`. `guard` says whether the guard
column is already set. -/
inductive StepWrite where
  | insert (key : StepKey) (row : StepRow)
  | updateOneWhenNull (key : StepKey) (guard : StepRow → Bool) (f : StepRow → StepRow)
  | nothing

def runStepsProjection (seq : Nat) : RunEvent → StepWrite
  | .stepCommittedV1 run_id step_index summary =>
    .insert ⟨run_id,step_index.toNat⟩
      (stepValues summary "legacy" none none { RunUsage.default with steps := 1 } seq)
  | .stepCommittedV2 run_id step_index phase summary digest tool_call reserved =>
    .insert ⟨run_id,step_index.toNat⟩
      (stepValues summary phase.asStr (some digest) tool_call reserved seq)
  | .toolEffectRecorded run_id step_index _ _ output_digest spent =>
    .updateOneWhenNull ⟨run_id,step_index.toNat⟩ (fun row => row.effect_recorded_seq.isSome)
      fun row =>
        { row with
          effect_recorded_seq := some (integerU64 seq), output_digest := some output_digest,
          spent := usageValues spent }
  | .checkpointSaved run_id step_index checkpoint_id state_digest =>
    .updateOneWhenNull ⟨run_id,step_index.toNat⟩ (fun row => row.checkpoint_seq.isSome)
      fun row =>
        { row with
          checkpoint_id := some checkpoint_id, checkpoint_digest := some state_digest,
          checkpoint_seq := some (integerU64 seq) }
  | .artifactRecorded run_id step_index artifact_id content_hash media_type size_bytes =>
    .updateOneWhenNull ⟨run_id,step_index.toNat⟩ (fun row => row.artifact_id.isSome)
      fun row =>
        { row with
          artifact_id := some artifact_id, artifact_hash := some content_hash,
          artifact_media_type := some media_type,
          artifact_size_bytes := some (integerU64 size_bytes.toNat) }
  | .validationRecorded run_id step_index validation_id status summary =>
    .updateOneWhenNull ⟨run_id,step_index.toNat⟩ (fun row => row.validation_id.isSome)
      fun row =>
        { row with
          validation_id := some validation_id, validation_status := some status.asStr,
          validation_summary := some summary }
  | _ => .nothing

def StepWrite.exec (t : Table StepKey StepRow) :
    StepWrite → Except ApplyError (Table StepKey StepRow)
  | .insert key row => insertRow "proj_run_steps" t key row
  | .updateOneWhenNull key guard f =>
    Domain.updateOneWhenNull "proj_run_steps" t key (fun row => if guard row then some () else none) f
  | .nothing => .ok t

structure RunDb where
  log : List RunEvent
  runs : Table RunId RunRow
  grants : Table GrantKey GrantRow
  steps : Table StepKey StepRow

namespace RunDb

def empty : RunDb := ⟨[],Table.empty,Table.empty,Table.empty⟩

def head (db : RunDb) : Nat := db.log.length

def applyEvent (db : RunDb) (event : RunEvent) : Except ApplyError RunDb := do
  let runs ← (runsProjection (db.head+1) event).exec db.runs
  let grants ← runToolGrantsProjection (db.head+1) db.grants event
  let steps ← (runStepsProjection (db.head+1) event).exec db.steps
  return ⟨db.log ++ [event],runs,grants,steps⟩

def applyEvents (db : RunDb) (events : List RunEvent) : Except ApplyError RunDb :=
  events.foldlM applyEvent db

end RunDb

theorem bind_ok {ε α β : Type} {x : Except ε α} {f : α → Except ε β} {b : β}
    (h : (x >>= f) = .ok b) : ∃ a, x = .ok a ∧ f a = .ok b := by
  cases x with
  | ok a => exact ⟨a,rfl,h⟩
  | error e => cases h

namespace RunDb
variable {db db' : RunDb} {event : RunEvent}

theorem applyEvent_ok (h : db.applyEvent event = .ok db') :
    db'.log = db.log ++ [event] ∧
      (runsProjection (db.head+1) event).exec db.runs = .ok db'.runs ∧
      runToolGrantsProjection (db.head+1) db.grants event = .ok db'.grants ∧
      (runStepsProjection (db.head+1) event).exec db.steps = .ok db'.steps := by
  obtain ⟨runs,h1,h⟩ := bind_ok h
  obtain ⟨grants,h2,h⟩ := bind_ok h
  obtain ⟨steps,h3,h⟩ := bind_ok h
  cases h
  exact ⟨rfl,h1,h2,h3⟩

variable {events : List RunEvent}

theorem applyEvents_cons (h : db.applyEvents (event::events) = .ok db') :
    ∃ mid, db.applyEvent event = .ok mid ∧ mid.applyEvents events = .ok db' :=
  bind_ok h

/-- What each event of a batch keeps, the batch keeps. -/
theorem applyEvents_keep (P : RunDb → Prop)
    (hstep : ∀ e ∈ events, ∀ s t, RunDb.applyEvent s e = .ok t → P s → P t)
    (h : db.applyEvents events = .ok db') (hp : P db) : P db' := by
  induction events generalizing db with
  | nil =>
    cases h
    exact hp
  | cons e events ih =>
    obtain ⟨mid,h1,h2⟩ := applyEvents_cons h
    obtain ⟨hfirst,hrest⟩ := List.forall_mem_cons.mp hstep
    exact ih hrest h2 (hfirst db mid h1 hp)

theorem applyEvents_log (h : db.applyEvents events = .ok db') :
    db'.log = db.log ++ events := by
  induction events generalizing db with
  | nil =>
    cases h
    simp
  | cons event events ih =>
    obtain ⟨mid,h1,h2⟩ := applyEvents_cons h
    rw [ih h2,(applyEvent_ok h1).1,List.append_assoc]
    rfl

end RunDb

def RunEvent.run : RunEvent → RunId
  | .startedV1 run_id .. => run_id
  | .startedV2 body => body.run_id
  | .stepCommittedV1 run_id ..
  | .stepCommittedV2 run_id ..
  | .toolEffectRecorded run_id ..
  | .checkpointSaved run_id ..
  | .artifactRecorded run_id ..
  | .validationRecorded run_id ..
  | .pauseRequested run_id _
  | .paused run_id ..
  | .resumed run_id _
  | .cancelRequested run_id _
  | .canceled run_id _
  | .taintRaised run_id _
  | .questionAsked run_id ..
  | .questionAnswered run_id ..
  | .gateApproved run_id ..
  | .finishedV1 run_id ..
  | .finishedV2 run_id .. => run_id

def RunWrite.onRow : RunWrite → Option RunRow → Option RunRow
  | .insert _ row, _ => some row
  | .updateOne _ _ f, row => row.map f
  | .nothing, row => row

def RunWrite.isAbout (run_id : RunId) : RunWrite → Prop
  | .insert r _ => r = run_id
  | .updateOne r _ _ => r = run_id
  | .nothing => True

theorem runsProjection_isAbout (seq : Nat) (e : RunEvent) :
    (runsProjection seq e).isAbout e.run := by
  cases e <;> first | exact rfl | exact trivial

theorem RunWrite.exec_get? {w : RunWrite} {r : RunId} {t t' : Table RunId RunRow}
    (hw : w.isAbout r) (h : w.exec t = .ok t') (id : RunId) :
    t'.get? id = if r = id then w.onRow (t.get? id) else t.get? id := by
  cases w with
  | insert q row =>
    cases hw
    obtain ⟨_,rfl⟩ := insertRow_ok h
    rw [Table.get?_put]
    by_cases hid : id = r
    · simp [hid,onRow]
    · rw [if_neg hid,if_neg (fun he => hid he.symm)]
  | updateOne q operation f =>
    cases hw
    obtain ⟨row,hrow,rfl⟩ := updateOne_ok h
    rw [Table.get?_put]
    by_cases hid : id = r
    · simp [hid,onRow,hrow]
    · rw [if_neg hid,if_neg (fun he => hid he.symm)]
  | nothing =>
    cases h
    simp [onRow]

theorem RunDb.applyEvent_run {db db' : RunDb} {e : RunEvent} (h : db.applyEvent e = .ok db')
    (id : RunId) : db'.runs.get? id =
      if e.run = id then (runsProjection (db.head+1) e).onRow (db.runs.get? id)
      else db.runs.get? id :=
  RunWrite.exec_get? (runsProjection_isAbout _ e) (RunDb.applyEvent_ok h).2.1 id

variable {b : List RunEvent}

theorem RunDb.applyEvents_run_other {db db' : RunDb} {id : RunId} (h : db.applyEvents b = .ok db')
    (hb : ∀ e ∈ b, e.run ≠ id) : db'.runs.get? id = db.runs.get? id := by
  refine applyEvents_keep (fun t => t.runs.get? id = db.runs.get? id) (fun e he s t hst hs => ?_) h rfl
  rw [applyEvent_run hst,if_neg (hb e he),hs]

def StepWrite.isAbout (run_id : RunId) : StepWrite → Prop
  | .insert key _ => key.run_id = run_id
  | .updateOneWhenNull key _ _ => key.run_id = run_id
  | .nothing => True

theorem runStepsProjection_isAbout (seq : Nat) (e : RunEvent) :
    (runStepsProjection seq e).isAbout e.run := by
  cases e <;> first | exact rfl | exact trivial

variable {key : StepKey}

theorem StepWrite.exec_other {w : StepWrite} {r : RunId} {t t' : Table StepKey StepRow}
    (hw : w.isAbout r) (h : w.exec t = .ok t') (hk : key.run_id ≠ r) :
    t'.get? key = t.get? key := by
  cases w with
  | insert k row =>
    obtain ⟨_,rfl⟩ := insertRow_ok h
    exact Table.get?_put_ne _ _ (fun he => hk (he ▸ hw))
  | updateOneWhenNull k guard f =>
    obtain ⟨_,_,_,rfl⟩ := updateOneWhenNull_ok h
    exact Table.get?_put_ne _ _ (fun he => hk (he ▸ hw))
  | nothing =>
    cases h
    rfl

theorem RunDb.applyEvents_steps_other {db db' : RunDb}
    (h : db.applyEvents b = .ok db') (hb : ∀ e ∈ b, e.run ≠ key.run_id) :
    db'.steps.get? key = db.steps.get? key := by
  refine applyEvents_keep (fun t => t.steps.get? key = db.steps.get? key)
    (fun e he s t hst hs => ?_) h rfl
  exact (StepWrite.exec_other (runStepsProjection_isAbout _ e) (applyEvent_ok hst).2.2.2
    (fun hkey => hb e he hkey.symm)).trans hs

def rowRun (id : RunId) : Nat → List RunEvent → Option RunRow → Option RunRow
  | _, [], row => row
  | seq, e::es, row =>
    rowRun id (seq+1) es (if e.run = id then (runsProjection seq e).onRow row else row)

theorem RunDb.applyEvents_row {db db' : RunDb} (h : db.applyEvents b = .ok db') (id : RunId) :
    db'.runs.get? id = rowRun id (db.head+1) b (db.runs.get? id) := by
  induction b generalizing db with
  | nil =>
    cases h
    rfl
  | cons e b ih =>
    obtain ⟨mid,h1,h2⟩ := RunDb.applyEvents_cons h
    have hhead : mid.head = db.head+1 := by
      simp [RunDb.head,(RunDb.applyEvent_ok h1).1]
    rw [ih h2,hhead,rowRun,RunDb.applyEvent_run h1]

end ProjectOS.Domain
