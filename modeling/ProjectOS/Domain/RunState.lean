import ProjectOS.Domain.Runs

namespace ProjectOS.Domain
open Lib

inductive RunStatus where
  | requested | preflight | running | waitingApproval | waitingInput | validating | paused
  | done | failed | canceled
  deriving DecidableEq

namespace RunStatus

def parse : String → Option RunStatus
  | "requested" => some .requested
  | "preflight" => some .preflight
  | "running" => some .running
  | "waiting_approval" => some .waitingApproval
  | "waiting_input" => some .waitingInput
  | "validating" => some .validating
  | "paused" => some .paused
  | "done" | "completed" => some .done
  | "failed" => some .failed
  | "canceled" => some .canceled
  | _ => none

def isTerminal : RunStatus → Bool
  | .done | .failed | .canceled => true
  | _ => false

def debug : RunStatus → String
  | .requested => "Requested"
  | .preflight => "Preflight"
  | .running => "Running"
  | .waitingApproval => "WaitingApproval"
  | .waitingInput => "WaitingInput"
  | .validating => "Validating"
  | .paused => "Paused"
  | .done => "Done"
  | .failed => "Failed"
  | .canceled => "Canceled"

end RunStatus

inductive PendingRunControl where
  | pause | cancel
  deriving DecidableEq

def PendingRunControl.parse : Option String → Option PendingRunControl
  | some "pause" => some .pause
  | some "cancel" => some .cancel
  | _ => none

inductive RunPauseState where
  | budget (dimension : RunBudgetDimension) (limit spent pending requested : UInt64)
  | requested (reason : String)
  | toolWeather (code : String)
  | reservationExceeded (dimension : RunBudgetDimension)

structure RunState where
  run_id : RunId
  project_id : Option ProjectId
  status : RunStatus
  worker : String
  runtime_id : String
  executor : String
  autonomy_level : UInt8
  started_seq : UInt64
  finished_seq : Option UInt64
  committed_step_count : UInt32
  checkpointed_step_count : UInt32
  budget : RunBudget
  spent : RunUsage
  tainted : Bool
  tool_grants : List RunToolGrant
  parent_run_id : Option RunId
  lineage_depth : UInt8
  validation : Option RunValidationRef
  pending_control : Option PendingRunControl
  pending_control_reason : Option String
  pause : Option RunPauseState

structure RunEffectState where
  recorded_seq : UInt64
  output_digest : Digest
  spent : RunUsage

structure RunCheckpointState where
  checkpoint_id : CheckpointId
  state_digest : Digest
  saved_seq : UInt64

structure RunStepState where
  run_id : RunId
  step_index : UInt32
  summary : String
  phase : String
  digest : Option Digest
  tool_call : Option RunToolCall
  reserved : RunUsage
  committed_seq : UInt64
  effect : Option RunEffectState
  checkpoint : Option RunCheckpointState

inductive RunReadError where
  | store (operation : String)
  | corruptProjection (table reason : String)

def corrupt {α : Type} (table reason : String) : Except RunReadError α :=
  .error (.corruptProjection table reason)

def toU64 (value : Int) (table field : String) : Except RunReadError UInt64 :=
  if 0 ≤ value then .ok (UInt64.ofNat value.toNat)
  else corrupt table s!"{field} is negative: {value}"

def toU32 (value : Int) (table field : String) : Except RunReadError UInt32 :=
  if 0 ≤ value ∧ value ≤ u32Max then .ok (UInt32.ofNat value.toNat)
  else corrupt table s!"{field} is outside u32: {value}"

def toU16 (value : Int) (table field : String) : Except RunReadError UInt16 :=
  if 0 ≤ value ∧ value ≤ u16Max then .ok (UInt16.ofNat value.toNat)
  else corrupt table s!"{field} is outside u16: {value}"

def toU8 (value : Int) (table field : String) : Except RunReadError UInt8 :=
  if 0 ≤ value ∧ value ≤ u8Max then .ok (UInt8.ofNat value.toNat)
  else corrupt table s!"{field} is outside u8: {value}"

def usageFrom (values : UsageCols) (table word : String) : Except RunReadError RunUsage := do
  let tokens ← toU64 values.tokens table (word ++ "tokens")
  let usd_micros ← toU64 values.usd_micros table (word ++ "usd_micros")
  let wall_ms ← toU64 values.wall_ms table (word ++ "wall_ms")
  let storage_bytes ← toU64 values.storage_bytes table (word ++ "storage_bytes")
  let tool_calls ← toU32 values.tool_calls table (word ++ "tool_calls")
  let retries ← toU32 values.retries table (word ++ "retries")
  let steps ← toU32 values.steps table (word ++ "steps")
  return ⟨tokens,usd_micros,wall_ms,storage_bytes,tool_calls,retries,steps⟩

def PauseCols.metricCount (raw : PauseCols) : Nat :=
  ([raw.limit,raw.spent,raw.pending,raw.requested].filterMap id).length

def parsePause (raw : PauseCols) : Except RunReadError (Option RunPauseState) := do
  let dimension ←
    match raw.dimension with
    | none => pure none
    | some value =>
      match RunBudgetDimension.parse value with
      | some dimension => pure (some dimension)
      | none => corrupt "proj_runs" s!"unknown pause dimension {value.quote}"
  match raw.kind with
  | none =>
    if raw.detail.isNone ∧ dimension.isNone ∧ raw.metricCount = 0 then return none
    else corrupt "proj_runs" "pause detail exists without pause_kind"
  | some "budget" =>
    match dimension,raw.limit,raw.spent,raw.pending,raw.requested with
    | some dimension,some limit,some spent,some pending,some requested =>
      if raw.detail.isSome then
        corrupt "proj_runs" "budget pause cannot carry free-form detail"
      else
        let limit ← toU64 limit "proj_runs" "pause_limit"
        let spent ← toU64 spent "proj_runs" "pause_spent"
        let pending ← toU64 pending "proj_runs" "pause_pending"
        let requested ← toU64 requested "proj_runs" "pause_requested"
        return some (.budget dimension limit spent pending requested)
    | _,_,_,_,_ => corrupt "proj_runs" "budget pause is missing a dimension or measurement"
  | some "requested" =>
    if dimension.isSome ∨ raw.metricCount ≠ 0 then
      corrupt "proj_runs" "requested pause cannot carry budget measurements"
    else
      match raw.detail with
      | some reason => return some (.requested reason)
      | none => corrupt "proj_runs" "requested pause has no reason"
  | some "tool_weather" =>
    if dimension.isSome ∨ raw.metricCount ≠ 0 then
      corrupt "proj_runs" "tool-weather pause cannot carry budget measurements"
    else
      match raw.detail with
      | some code => return some (.toolWeather code)
      | none => corrupt "proj_runs" "tool-weather pause has no code"
  | some "reservation_exceeded" =>
    match dimension with
    | none => corrupt "proj_runs" "reservation pause has no dimension"
    | some dimension =>
      if raw.detail.isSome ∨ raw.metricCount ≠ 0 then
        corrupt "proj_runs" "reservation pause has unexpected detail or measurements"
      else return some (.reservationExceeded dimension)
  | some kind => corrupt "proj_runs" s!"unknown pause kind {kind.quote}"

def parseStatus (raw : String) : Except RunReadError RunStatus :=
  match RunStatus.parse raw with
  | some status => .ok status
  | none => corrupt "proj_runs" s!"unknown status {raw.quote}"

def debugOption : Option String → String
  | none => "None"
  | some text => "Some(" ++ text.quote ++ ")"

def parsePendingControl (control reason : Option String) :
    Except RunReadError (Option PendingRunControl) :=
  if control.isSome ∧ (PendingRunControl.parse control).isNone then
    corrupt "proj_runs" ("unknown pending control " ++ debugOption control)
  else if (PendingRunControl.parse control).isSome ≠ reason.isSome then
    corrupt "proj_runs" "pending control and control reason must be populated together"
  else .ok (PendingRunControl.parse control)

def parseValidation (id : Option ValidationId) (status : Option String) :
    Except RunReadError (Option RunValidationRef) :=
  match id,status with
  | none,none => .ok none
  | some validation_id,some status =>
    match RunValidationStatus.parse status with
    | some status => .ok (some ⟨validation_id,status⟩)
    | none => corrupt "proj_runs" s!"unknown validation status {status.quote}"
  | _,_ => corrupt "proj_runs" "validation id and status must be populated together"

def parseTainted (value : Int) : Except RunReadError Bool :=
  if value = 0 then .ok false
  else if value = 1 then .ok true
  else corrupt "proj_runs" s!"tainted must be 0 or 1, found {value}"

def requirePauseAgrees (status : RunStatus) (pause : Option RunPauseState) :
    Except RunReadError Unit :=
  if decide (status = .paused) ≠ pause.isSome then
    corrupt "proj_runs" s!"status {status.debug} disagrees with typed pause columns"
  else .ok ()

def optionalU64 (value : Option Int) (table field : String) :
    Except RunReadError (Option UInt64) :=
  match value with
  | none => .ok none
  | some value => (toU64 value table field).map some

def parseRun (run_id : RunId) (raw : RunRow) (tool_grants : List RunToolGrant) :
    Except RunReadError RunState := do
  let status ← parseStatus raw.status
  let pending_control ← parsePendingControl raw.pending_control raw.control_reason
  let pause ← parsePause raw.pause
  let validation ← parseValidation raw.validation_id raw.validation_status
  requirePauseAgrees status pause
  let autonomy_level ← toU8 raw.autonomy_level "proj_runs" "autonomy_level"
  let started_seq ← toU64 raw.started_seq "proj_runs" "started_seq"
  let finished_seq ← optionalU64 raw.finished_seq "proj_runs" "finished_seq"
  let committed ← toU32 raw.committed_step_count "proj_runs" "committed_step_count"
  let checkpointed ← toU32 raw.checkpointed_step_count "proj_runs" "checkpointed_step_count"
  let budget ← usageFrom raw.budget "proj_runs" "budget_"
  let spent ← usageFrom raw.spent "proj_runs" ""
  let tainted ← parseTainted raw.tainted
  let lineage_depth ← toU8 raw.lineage_depth "proj_runs" "lineage_depth"
  return {
    run_id := run_id, project_id := raw.project_id, status := status, worker := raw.worker,
    runtime_id := raw.runtime_id, executor := raw.executor, autonomy_level := autonomy_level,
    started_seq := started_seq, finished_seq := finished_seq,
    committed_step_count := committed, checkpointed_step_count := checkpointed,
    budget := budget, spent := spent, tainted := tainted, tool_grants := tool_grants,
    parent_run_id := raw.parent_run_id, lineage_depth := lineage_depth,
    validation := validation, pending_control := pending_control,
    pending_control_reason := raw.control_reason, pause := pause }

def UsageCols.toList (u : UsageCols) : List Int :=
  [u.tokens,u.usd_micros,u.wall_ms,u.storage_bytes,u.tool_calls,u.retries,u.steps]

/-- `row.get` of the integer columns: past `i64` SQLite holds a REAL, which does not
read back as an integer. -/
def readColumns (raw : RunRow) : Except RunReadError RunRow :=
  if (raw.committed_step_count::raw.checkpointed_step_count::raw.spent.toList).all
      (fun value => decide (value ≤ i64Max)) then .ok raw
  else .error (.store "read Run projection")

def parseGrant (row : String × String) : Except RunReadError RunToolGrant :=
  match RunToolGrantMode.parse row.2 with
  | some mode => .ok ⟨row.1,mode⟩
  | none =>
    corrupt "proj_run_tool_grants" s!"unknown grant mode {row.2.quote} for tool {row.1.quote}"

def grantRows (t : Table GrantKey GrantRow) (run_id : RunId) : List (String × String) :=
  (t.rows.filter fun row => decide (row.1.run_id = run_id)).map fun row =>
    (row.1.tool_id,row.2.mode)

def readToolGrants (rows : List (String × String)) : Except RunReadError (List RunToolGrant) :=
  rows.mapM parseGrant

def readRun (db : RunDb) (run_id : RunId) : Except RunReadError (Option RunState) := do
  match db.runs.get? run_id with
  | none => return none
  | some raw =>
    let raw ← readColumns raw
    let tool_grants ← readToolGrants (grantRows db.grants run_id)
    let state ← parseRun run_id raw tool_grants
    return some state

def parseToolCall (raw : StepRow) : Except RunReadError (Option RunToolCall) :=
  match raw.tool_id,raw.tool_descriptor_version,raw.tool_call_id,raw.idempotency_key,raw.input with
  | none,none,none,none,none => .ok none
  | some tool_id,some descriptor_version,some call_id,some idempotency_key,some input => do
    let version ← toU16 descriptor_version "proj_run_steps" "tool_descriptor_version"
    return some ⟨tool_id,version,call_id,idempotency_key,input⟩
  | _,_,_,_,_ => corrupt "proj_run_steps" "tool call columns are only partially populated"

def parseEffect (raw : StepRow) : Except RunReadError (Option RunEffectState) :=
  match raw.effect_recorded_seq,raw.output_digest with
  | none,none => .ok none
  | some seq,some digest => do
    let recorded_seq ← toU64 seq "proj_run_steps" "effect_recorded_seq"
    let spent ← usageFrom raw.spent "proj_run_steps" ""
    return some ⟨recorded_seq,digest,spent⟩
  | _,_ => corrupt "proj_run_steps" "effect receipt columns are only partially populated"

def parseCheckpoint (raw : StepRow) : Except RunReadError (Option RunCheckpointState) :=
  match raw.checkpoint_id,raw.checkpoint_digest,raw.checkpoint_seq with
  | none,none,none => .ok none
  | some id,some digest,some seq => do
    let saved_seq ← toU64 seq "proj_run_steps" "checkpoint_seq"
    return some ⟨id,digest,saved_seq⟩
  | _,_,_ => corrupt "proj_run_steps" "checkpoint columns are only partially populated"

def parseStep (run_id : RunId) (step_index : UInt32) (raw : StepRow) :
    Except RunReadError RunStepState := do
  let tool_call ← parseToolCall raw
  let effect ← parseEffect raw
  let checkpoint ← parseCheckpoint raw
  let reserved ← usageFrom raw.reserved "proj_run_steps" ""
  let committed_seq ← toU64 raw.committed_seq "proj_run_steps" "committed_seq"
  return ⟨run_id,step_index,raw.summary,raw.phase,raw.step_digest,tool_call,reserved,
    committed_seq,effect,checkpoint⟩

variable {value : Int} {table field : String}

theorem toU64_ok {u : UInt64}
    (h : toU64 value table field = .ok u) : 0 ≤ value ∧ u = UInt64.ofNat value.toNat := by
  unfold toU64 at h
  split at h
  · cases h
    exact ⟨by assumption,rfl⟩
  · cases h

theorem toU32_ok {u : UInt32} (h : toU32 value table field = .ok u) : (u.toNat : Int) = value := by
  unfold toU32 at h
  split at h
  · rename_i hv
    cases h
    have hlt : value.toNat < 2^32 := by
      simp only [u32Max] at hv
      omega
    rw [UInt32.toNat_ofNat_of_lt' hlt]
    omega
  · cases h

theorem toU16_ok {u : UInt16} (h : toU16 value table field = .ok u) : (u.toNat : Int) = value := by
  unfold toU16 at h
  split at h
  · rename_i hv
    cases h
    have hlt : value.toNat < 2^16 := by
      simp only [u16Max] at hv
      omega
    rw [UInt16.toNat_ofNat_of_lt' hlt]
    omega
  · cases h

structure StepParsesTo (run_id : RunId) (step_index : UInt32) (raw : StepRow)
    (step : RunStepState) : Prop where
  run_id : step.run_id = run_id
  index : step.step_index = step_index
  tool_call : parseToolCall raw = .ok step.tool_call
  effect : parseEffect raw = .ok step.effect
  checkpoint : parseCheckpoint raw = .ok step.checkpoint
  reserved : usageFrom raw.reserved "proj_run_steps" "" = .ok step.reserved

variable {run_id : RunId}

theorem parseStep_ok {step_index : UInt32} {raw : StepRow} {step : RunStepState}
    (h : parseStep run_id step_index raw = .ok step) : StepParsesTo run_id step_index raw step := by
  obtain ⟨tool_call,h1,h⟩ := bind_ok h
  obtain ⟨effect,h2,h⟩ := bind_ok h
  obtain ⟨checkpoint,h3,h⟩ := bind_ok h
  obtain ⟨reserved,h4,h⟩ := bind_ok h
  obtain ⟨committed_seq,_,h⟩ := bind_ok h
  cases h
  exact ⟨rfl,rfl,h1,h2,h3,h4⟩

structure ParsesTo (run_id : RunId) (raw : RunRow) (grants : List RunToolGrant) (st : RunState) :
    Prop where
  run_id : st.run_id = run_id
  grants : st.tool_grants = grants
  status : parseStatus raw.status = .ok st.status
  pending : parsePendingControl raw.pending_control raw.control_reason = .ok st.pending_control
  reason : st.pending_control_reason = raw.control_reason
  pause : parsePause raw.pause = .ok st.pause
  agrees : requirePauseAgrees st.status st.pause = .ok ()
  validation : parseValidation raw.validation_id raw.validation_status = .ok st.validation
  autonomy : toU8 raw.autonomy_level "proj_runs" "autonomy_level" = .ok st.autonomy_level
  started : toU64 raw.started_seq "proj_runs" "started_seq" = .ok st.started_seq
  finished : optionalU64 raw.finished_seq "proj_runs" "finished_seq" = .ok st.finished_seq
  committed : toU32 raw.committed_step_count "proj_runs" "committed_step_count" =
    .ok st.committed_step_count
  checkpointed : toU32 raw.checkpointed_step_count "proj_runs" "checkpointed_step_count" =
    .ok st.checkpointed_step_count
  budget : usageFrom raw.budget "proj_runs" "budget_" = .ok st.budget
  spent : usageFrom raw.spent "proj_runs" "" = .ok st.spent
  tainted : parseTainted raw.tainted = .ok st.tainted
  lineage : toU8 raw.lineage_depth "proj_runs" "lineage_depth" = .ok st.lineage_depth

variable {raw : RunRow} {grants : List RunToolGrant} {st : RunState}

theorem parseRun_ok
    (h : parseRun run_id raw grants = .ok st) : ParsesTo run_id raw grants st := by
  obtain ⟨status,h1,h⟩ := bind_ok h
  obtain ⟨pending,h2,h⟩ := bind_ok h
  obtain ⟨pause,h3,h⟩ := bind_ok h
  obtain ⟨validation,h4,h⟩ := bind_ok h
  obtain ⟨⟨⟩,h5,h⟩ := bind_ok h
  obtain ⟨autonomy,h6,h⟩ := bind_ok h
  obtain ⟨started,h7,h⟩ := bind_ok h
  obtain ⟨finished,h8,h⟩ := bind_ok h
  obtain ⟨committed,h9,h⟩ := bind_ok h
  obtain ⟨checkpointed,h10,h⟩ := bind_ok h
  obtain ⟨budget,h11,h⟩ := bind_ok h
  obtain ⟨spent,h12,h⟩ := bind_ok h
  obtain ⟨tainted,h13,h⟩ := bind_ok h
  obtain ⟨lineage,h14,h⟩ := bind_ok h
  cases h
  exact ⟨rfl,rfl,h1,h2,rfl,h3,h5,h4,h6,h7,h8,h9,h10,h11,h12,h13,h14⟩

theorem parseRun_identity
    (h : parseRun run_id raw grants = .ok st) :
    st.project_id = raw.project_id ∧ st.worker = raw.worker := by
  iterate 14 obtain ⟨_,_,h⟩ := bind_ok h
  cases h
  exact ⟨rfl,rfl⟩

theorem parseRun_of
    (h : ParsesTo run_id raw grants st) : ∃ st, parseRun run_id raw grants = .ok st := by
  unfold parseRun
  rw [h.status,h.pending,h.pause,h.validation]
  simp only [bind,Except.bind]
  rw [h.agrees]
  simp only []
  rw [h.autonomy,h.started,h.finished,h.committed,h.checkpointed,h.budget,h.spent,h.tainted,
    h.lineage]
  exact ⟨_,rfl⟩

end ProjectOS.Domain
