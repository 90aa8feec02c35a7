import ProjectOS.Lib.Optimistic
import ProjectOS.Domain.RunState
import ProjectOS.Agents.Budget
import ProjectOS.Agents.Tools

/-! The durable Run harness. Every operation is a program over the log: it reads rows
and appends a batch at the head it reads just before. Devices, actors and spans decide
nothing in it and are left out. -/

namespace ProjectOS.Agents
open Lib Domain

def conditionalAppendRetryMax : Nat := 4
def runTextLenMax : Nat := 512
def mediaTypeLenMax : Nat := 128
def runLineageDepthMax : Nat := 8

inductive LogError where
  | apply (error : ApplyError)
  | store (operation : String)

inductive RunQuery where
  | run (run_id : RunId)
  | grants (run_id : RunId)
  | step (run_id : RunId) (step_index : UInt32)

abbrev runSignature : Signature where
  Query := RunQuery
  Answer
    | .run _ => Option RunRow
    | .grants _ => List (String × String)
    | .step _ _ => Option StepRow
  Batch := List RunEvent
  Fault := LogError
  opens
    | .run _ => true
    | _ => false

inductive HarnessError where
  | log (error : AppendError LogError)
  | read (error : RunReadError)
  | budgetConfig (error : BudgetConfigError)
  | runtime (error : RuntimeRegistryError)
  | toolRegistry (error : ToolRegistryError)
  | authorization (error : AuthorizationError)
  | runNotFound (run_id : RunId)
  | invalidRunState (run_id : RunId) (reason : String)
  | invalidStepPlan (reason : String)
  | stepPlanChanged (run_id : RunId) (step_index : UInt32)
  | effectReportChanged (run_id : RunId) (step_index : UInt32)
  | conditionalAppendContention (run_id : RunId)
  | invalidControlReason
  | invalidQuestion
  | invalidArtifact
  | invalidValidation

structure RunStartSpec where
  run_id : RunId
  worker : RosterCharter
  runtime_id : String
  executor : RunExecutor
  trigger : RunTrigger
  autonomy_level : AutonomyLevel
  budget : RunBudget
  tool_grants : RunToolGrants
  parent_run_id : Option RunId
  checkpoint : Option RunCheckpointRef
  validation : Option RunValidationRef
  execution_lease : Option RunExecutionLeaseRef
  tainted : Bool

structure StepPlan where
  step_index : UInt32
  phase : RunStepPhase
  summary : String
  digest : Digest
  tool_call : ToolCallRequest
  reserved : RunUsage

structure ArtifactReport where
  artifact_id : ArtifactId
  content_hash : Digest
  media_type : String
  size_bytes : UInt64

structure ValidationReport where
  validation_id : ValidationId
  status : RunValidationStatus
  summary : String

structure ToolEffectReport where
  output_digest : Digest
  checkpoint_digest : Digest
  spent : RunUsage
  artifact : Option ArtifactReport
  validation : Option ValidationReport

inductive StepPreparation where
  | effect (call : AuthorizedToolCall)
  | paused (exceeded : BudgetExceeded)
  | controlApplied (status : RunStatus)
  | reconciliationRequired (run_id : RunId) (step_index : UInt32) (call_id : ToolCallId)

abbrev HarnessProg (α : Type) := OptProg runSignature HarnessError α

structure RunHarness where
  project_id : ProjectId
  tools : ToolRegistry
  runtimes : RuntimeRegistry

namespace RunHarness
variable {α β : Type}

def queryRun (run_id : RunId) : HarnessProg (Option RunRow) :=
  .act (F := optIface runSignature) (.query (.run run_id)) .ret

def queryGrants (run_id : RunId) : HarnessProg (List (String × String)) :=
  .act (F := optIface runSignature) (.query (.grants run_id)) .ret

def queryStep (run_id : RunId) (step_index : UInt32) : HarnessProg (Option StepRow) :=
  .act (F := optIface runSignature) (.query (.step run_id step_index)) .ret

def nowMs : HarnessProg Nat := .act (F := optIface runSignature) .now .ret

def appendBatch (events : List RunEvent) : HarnessProg (Except (AppendError LogError) Unit) :=
  .act (F := optIface runSignature) (.append events) .ret

def appendOnce (events : List RunEvent) : HarnessProg Unit :=
  (appendBatch events).bind fun
    | .ok () => .ret ()
    | .error error => .throw (.log error)

def appendUnlessMoved (events : List RunEvent) : HarnessProg Bool :=
  (appendBatch events).bind fun
    | .ok () => .ret true
    | .error (.headChanged _ _) => .ret false
    | .error error => .throw (.log error)

def retry : Nat → RunId → HarnessProg (Option α) → HarnessProg α
  | 0, run_id, _ => .throw (.conditionalAppendContention run_id)
  | n+1, run_id, body => body.bind fun
    | some a => .ret a
    | none => retry n run_id body

def lift (wrap : β → HarnessError) (r : Except β α) : HarnessProg α :=
  Prog.ofExcept (r.mapError wrap)

def require (condition : Bool) (error : HarnessError) : HarnessProg Unit :=
  if condition then .ret () else .throw error

def state (run_id : RunId) : HarnessProg (Option RunState) :=
  (queryRun run_id).bind fun
    | none => .ret none
    | some raw =>
      (lift .read (readColumns raw)).bind fun raw =>
      (queryGrants run_id).bind fun rows =>
      (lift .read (readToolGrants rows)).bind fun tool_grants =>
      (lift .read (parseRun run_id raw tool_grants)).bind fun state =>
      .ret (some state)

def stateRequired (run_id : RunId) : HarnessProg RunState :=
  (state run_id).bind fun
    | some state => .ret state
    | none => .throw (.runNotFound run_id)

def stepRequired (run_id : RunId) (step_index : UInt32) : HarnessProg RunStepState :=
  (queryStep run_id step_index).bind fun
    | some raw => lift .read (parseStep run_id step_index raw)
    | none => .throw (.invalidRunState run_id
        s!"committed step {step_index} is absent from its projection")

def validateText (value : String) : Bool := visibleText runTextLenMax value

def validateStepPlan (plan : StepPlan) : Except HarnessError Unit :=
  if !validateText plan.summary then
    .error (.invalidStepPlan s!"summary must contain 1..={runTextLenMax} visible characters")
  else if plan.reserved.steps ≠ 1 ∨ plan.reserved.tool_calls ≠ 1 then
    .error (.invalidStepPlan "a tool step reserves exactly one step and one tool call")
  else .ok ()

def validArtifact : Option ArtifactReport → Bool
  | none => true
  | some artifact => visibleText mediaTypeLenMax artifact.media_type

def validValidation : Option ValidationReport → Bool
  | none => true
  | some validation => validateText validation.summary

def validateEffectReport (report : ToolEffectReport) : Except HarnessError Unit :=
  if report.spent.steps ≠ 1 ∨ report.spent.tool_calls ≠ 1 then
    .error (.invalidStepPlan "a tool effect records exactly one step and one tool call")
  else if !validArtifact report.artifact then .error .invalidArtifact
  else if !validValidation report.validation then .error .invalidValidation
  else .ok ()

def validateRunCounts (state : RunState) : Except HarnessError Unit :=
  if state.committed_step_count ≥ state.checkpointed_step_count ∧
      state.committed_step_count-state.checkpointed_step_count ≤ 1 then .ok ()
  else .error (.invalidRunState state.run_id
    (s!"committed/checkpointed counts are {state.committed_step_count}/" ++
      s!"{state.checkpointed_step_count}; expected a gap of zero or one"))

def requireRunning (state : RunState) : Except HarnessError Unit :=
  match state.status with
  | .preflight | .running | .validating => .ok ()
  | status => .error (.invalidRunState state.run_id
      s!"step preparation requires running, found {status.debug}")

def validateDurablePlan (run_id : RunId) (plan : StepPlan) (step : RunStepState) :
    Except HarnessError Unit :=
  match step.tool_call with
  | none => .error (.stepPlanChanged run_id step.step_index)
  | some call =>
    if plan.step_index = step.step_index ∧ plan.summary = step.summary ∧
        plan.phase.asStr = step.phase ∧ step.digest = some plan.digest ∧
        plan.reserved = step.reserved ∧ plan.tool_call.tool_id.value = call.tool_id ∧
        plan.tool_call.call_id = call.call_id ∧ plan.tool_call.input = call.input then .ok ()
    else .error (.stepPlanChanged run_id step.step_index)

def validateEffectTarget (call : AuthorizedToolCall) (step : RunStepState) :
    Except HarnessError Unit :=
  match step.tool_call with
  | none => .error (.stepPlanChanged call.run_id call.step_index)
  | some durable =>
    if durable.call_id = call.call_id ∧ durable.idempotency_key = call.idempotency_key ∧
        durable.tool_id = call.descriptor.id.value then .ok ()
    else .error (.stepPlanChanged call.run_id call.step_index)

def validateExistingEffect (call : AuthorizedToolCall) (report : ToolEffectReport)
    (step : RunStepState) : Except HarnessError Unit :=
  match step.effect with
  | some effect =>
    if effect.output_digest = report.output_digest ∧ effect.spent = report.spent then .ok ()
    else .error (.effectReportChanged call.run_id call.step_index)
  | none => .error (.effectReportChanged call.run_id call.step_index)

def checkpointId (call_id : ToolCallId) : CheckpointId :=
  ⟨call_id.bits ^^^ (BitVec.ofNat 128 0xc3 <<< 120)⟩

def nextStepIndex (step_index : UInt32) : UInt32 := saturatingAdd32 step_index 1

def artifactEvents (call : AuthorizedToolCall) : Option ArtifactReport → List RunEvent
  | none => []
  | some a => [.artifactRecorded call.run_id call.step_index a.artifact_id a.content_hash
      a.media_type a.size_bytes]

def validationEvents (call : AuthorizedToolCall) : Option ValidationReport → List RunEvent
  | none => []
  | some v => [.validationRecorded call.run_id call.step_index v.validation_id v.status v.summary]

def overReservationEvents (call : AuthorizedToolCall) (report : ToolEffectReport)
    (state : RunState) (step : RunStepState) : List RunEvent :=
  match reservationExceededDimension report.spent step.reserved with
  | none => []
  | some dimension => [.paused call.run_id (nextStepIndex call.step_index)
      (.reservationExceeded dimension) (saturatingUsageAdd state.spent report.spent)]

def effectEvents (call : AuthorizedToolCall) (report : ToolEffectReport) (state : RunState)
    (step : RunStepState) : List RunEvent :=
  [.toolEffectRecorded call.run_id call.step_index call.call_id call.idempotency_key
    report.output_digest report.spent] ++
  artifactEvents call report.artifact ++ validationEvents call report.validation ++
  [.checkpointSaved call.run_id call.step_index (checkpointId call.call_id)
    report.checkpoint_digest] ++
  overReservationEvents call report state step

def lineageDepth (spec : RunStartSpec) : HarnessProg UInt8 :=
  match spec.parent_run_id with
  | none => .ret 0
  | some parent_run_id =>
    if parent_run_id = spec.run_id then
      .throw (.invalidRunState spec.run_id "a Run cannot be its own parent")
    else
      (stateRequired parent_run_id).bind fun parent =>
      if u8Max < parent.lineage_depth.toNat+1 then
        .throw (.invalidRunState spec.run_id "parent lineage depth overflowed")
      else
        let depth := parent.lineage_depth+1
        if runLineageDepthMax < depth.toNat then
          .throw (.invalidRunState spec.run_id
            s!"lineage depth {depth} exceeds the {runLineageDepthMax}-edge cap")
        else .ret depth

def startedEvent (h : RunHarness) (spec : RunStartSpec) (runtime : RuntimeDescriptor)
    (lineage_depth : UInt8) : RunEvent :=
  .startedV2
    { run_id := spec.run_id, project_id := h.project_id, worker := spec.worker.asStr,
      runtime := runtime.reference, executor := spec.executor, trigger := spec.trigger,
      autonomy_level := spec.autonomy_level.value, budget := spec.budget,
      tool_grants := spec.tool_grants.domainGrants, parent_run_id := spec.parent_run_id,
      lineage_depth := lineage_depth, checkpoint := spec.checkpoint,
      validation := spec.validation, execution_lease := spec.execution_lease,
      tainted := spec.tainted }

def start (h : RunHarness) (spec : RunStartSpec) : HarnessProg RunState :=
  (lift .budgetConfig (validateBudget spec.budget)).bind fun () =>
  (require (rosterContains spec.worker) (.invalidRunState spec.run_id
    "worker charter is not in the foundation roster")).bind fun () =>
  (lift .runtime (h.runtimes.resolve spec.runtime_id spec.executor)).bind fun runtime =>
  (lineageDepth spec).bind fun lineage_depth =>
  (appendOnce [startedEvent h spec runtime lineage_depth]).bind fun () =>
  stateRequired spec.run_id

def settleEvents (state : RunState) : PendingRunControl → List RunEvent
  | .pause => [.paused state.run_id state.checkpointed_step_count
      (.requested (state.pending_control_reason.getD "pause requested")) state.spent]
  | .cancel => [.canceled state.run_id state.checkpointed_step_count,
      .finishedV2 state.run_id .canceled state.checkpointed_step_count state.spent none]

def settleControlOnce (state : RunState) (control : PendingRunControl) : HarnessProg Bool :=
  if state.committed_step_count ≠ state.checkpointed_step_count then .ret false
  else appendUnlessMoved (settleEvents state control)

def settleAfterCheckpoint (run_id : RunId) : HarnessProg Unit :=
  retry conditionalAppendRetryMax run_id <|
    (stateRequired run_id).bind fun state =>
    match state.pending_control with
    | none => .ret (some ())
    | some control =>
      (settleControlOnce state control).bind fun settled =>
      .ret (if settled then some () else none)

def resumeCommittedStep (h : RunHarness) (state : RunState) (plan : StepPlan) :
    HarnessProg StepPreparation :=
  (stepRequired state.run_id state.checkpointed_step_count).bind fun step =>
  (lift id (validateDurablePlan state.run_id plan step)).bind fun () =>
  if step.effect.isSome ∨ step.checkpoint.isSome then
    .throw (.invalidRunState state.run_id
      "outstanding-step counters disagree with receipt/checkpoint columns")
  else
    match step.tool_call with
    | none => .throw (.invalidRunState state.run_id "m0-s12 committed step has no tool call")
    | some domain_call =>
      (lift .authorization (h.tools.rehydrate state.run_id state.checkpointed_step_count
        domain_call)).bind fun call =>
      if call.descriptor.effect = .nonIdempotent then
        .ret (.reconciliationRequired state.run_id state.checkpointed_step_count call.call_id)
      else .ret (.effect call)

def gateEvents (state : RunState) : Option GateReceipt → List RunEvent
  | none => []
  | some receipt => [.gateApproved state.run_id receipt.receipt_id receipt.call_id
      receipt.approved_by receipt.reason receipt.expires_ts_ms]

def stepEvents (state : RunState) (plan : StepPlan) (call : AuthorizedToolCall)
    (receipt : Option GateReceipt) : List RunEvent :=
  gateEvents state receipt ++
    [.stepCommittedV2 state.run_id plan.step_index plan.phase plan.summary plan.digest
      (some call.domainCall) plan.reserved]

def budgetPauseEvent (state : RunState) (exceeded : BudgetExceeded) : RunEvent :=
  .paused state.run_id state.checkpointed_step_count
    (.budget exceeded.dimension exceeded.limit exceeded.spent exceeded.pending
      exceeded.requested) state.spent

def commitStep (h : RunHarness) (run_id : RunId) (plan : StepPlan) (receipt : Option GateReceipt)
    (state : RunState) : HarnessProg (Option StepPreparation) :=
  match admitUsage state.budget state.spent RunUsage.default plan.reserved with
  | .error exceeded =>
    (appendUnlessMoved [budgetPauseEvent state exceeded]).bind fun appended =>
    .ret (if appended then some (.paused exceeded) else none)
  | .ok () =>
    (lift .toolRegistry (RunToolGrants.fromDomain state.tool_grants)).bind fun grants =>
    (lift (fun error => .invalidRunState run_id error.display)
      (AutonomyLevel.new state.autonomy_level)).bind fun autonomy_level =>
    nowMs.bind fun now =>
    (lift .authorization (h.tools.authorize plan.tool_call
      ⟨run_id,plan.step_index,state.tainted,autonomy_level,grants,receipt,now⟩)).bind fun call =>
    (appendUnlessMoved (stepEvents state plan call receipt)).bind fun appended =>
    .ret (if appended then some (.effect call) else none)

def prepareOnce (h : RunHarness) (run_id : RunId) (plan : StepPlan)
    (receipt : Option GateReceipt) : HarnessProg (Option StepPreparation) :=
  (stateRequired run_id).bind fun state =>
  (lift id (validateRunCounts state)).bind fun () =>
  match state.pending_control,
      decide (state.committed_step_count = state.checkpointed_step_count) with
  | some control,true =>
    (settleControlOnce state control).bind fun settled =>
    if settled then
      (stateRequired run_id).bind fun settledState =>
      .ret (some (.controlApplied settledState.status))
    else .ret none
  | _,_ =>
    (lift id (requireRunning state)).bind fun () =>
    if state.committed_step_count > state.checkpointed_step_count then
      (resumeCommittedStep h state plan).bind fun preparation => .ret (some preparation)
    else if plan.step_index ≠ state.committed_step_count then
      .throw (.invalidStepPlan (s!"step index {plan.step_index} is not the next durable index " ++
        s!"{state.committed_step_count}"))
    else commitStep h run_id plan receipt state

def prepareStep (h : RunHarness) (run_id : RunId) (plan : StepPlan)
    (receipt : Option GateReceipt) : HarnessProg StepPreparation :=
  (lift id (validateStepPlan plan)).bind fun () =>
  retry conditionalAppendRetryMax run_id (prepareOnce h run_id plan receipt)

def recordOnce (call : AuthorizedToolCall) (report : ToolEffectReport) :
    HarnessProg (Option RunCheckpointState) :=
  (stateRequired call.run_id).bind fun state =>
  (stepRequired call.run_id call.step_index).bind fun step =>
  (lift id (validateEffectTarget call step)).bind fun () =>
  match step.checkpoint with
  | some checkpoint =>
    (lift id (validateExistingEffect call report step)).bind fun () => .ret (some checkpoint)
  | none =>
    if step.effect.isSome then
      .throw (.invalidRunState call.run_id "effect receipt exists without its atomic checkpoint")
    else
      (appendUnlessMoved (effectEvents call report state step)).bind fun appended =>
      if appended then
        (stepRequired call.run_id call.step_index).bind fun recorded =>
        match recorded.checkpoint with
        | none => .throw (.invalidRunState call.run_id
            "effect batch committed without a checkpoint projection")
        | some checkpoint =>
          (settleAfterCheckpoint call.run_id).bind fun () => .ret (some checkpoint)
      else .ret none

def recordEffect (call : AuthorizedToolCall) (report : ToolEffectReport) :
    HarnessProg RunCheckpointState :=
  (lift id (validateEffectReport report)).bind fun () =>
  retry conditionalAppendRetryMax call.run_id (recordOnce call report)

def controlEvent (run_id : RunId) (reason : String) : PendingRunControl → RunEvent
  | .pause => .pauseRequested run_id reason
  | .cancel => .cancelRequested run_id reason

def requestOnce (run_id : RunId) (reason : String) (control : PendingRunControl) :
    HarnessProg (Option RunState) :=
  (stateRequired run_id).bind fun state =>
  if state.status.isTerminal then
    .throw (.invalidRunState run_id "terminal Runs reject new controls")
  else if state.status = .paused ∧ control = .pause then .ret (some state)
  else if state.pending_control = some control then .ret (some state)
  else if state.pending_control.isSome then
    .throw (.invalidRunState run_id "a different control is already pending")
  else
    (appendUnlessMoved [controlEvent run_id reason control]).bind fun appended =>
    if appended then
      (stateRequired run_id).bind fun requested =>
      (if requested.committed_step_count = requested.checkpointed_step_count then
        settleAfterCheckpoint run_id else .ret ()).bind fun () =>
      (stateRequired run_id).bind fun final => .ret (some final)
    else .ret none

def requestControl (run_id : RunId) (reason : String) (control : PendingRunControl) :
    HarnessProg RunState :=
  (require (validateText reason) .invalidControlReason).bind fun () =>
  retry conditionalAppendRetryMax run_id (requestOnce run_id reason control)

def resumeOnce (run_id : RunId) : HarnessProg (Option RunState) :=
  (stateRequired run_id).bind fun state =>
  if state.status ≠ .paused ∨ state.pending_control.isSome then
    .throw (.invalidRunState run_id "resume requires a fully paused Run with no pending control")
  else
    (appendUnlessMoved [.resumed run_id state.checkpointed_step_count]).bind fun appended =>
    if appended then (stateRequired run_id).bind fun final => .ret (some final) else .ret none

def resume (run_id : RunId) : HarnessProg RunState :=
  retry conditionalAppendRetryMax run_id (resumeOnce run_id)

def finishOnce (run_id : RunId) (outcome : RunOutcome) : HarnessProg (Option RunState) :=
  (stateRequired run_id).bind fun state =>
  (lift id (validateRunCounts state)).bind fun () =>
  if state.status.isTerminal then .ret (some state)
  else if state.committed_step_count ≠ state.checkpointed_step_count then
    .throw (.invalidRunState run_id "finish requires every committed step to be checkpointed")
  else
    match state.pending_control with
    | some control =>
      (settleControlOnce state control).bind fun settled =>
      if settled then (stateRequired run_id).bind fun final => .ret (some final) else .ret none
    | none =>
      if state.status = .paused then
        .throw (.invalidRunState run_id "a paused Run must resume or cancel before it can finish")
      else
        (appendUnlessMoved [.finishedV2 run_id outcome state.checkpointed_step_count state.spent
          state.validation]).bind fun appended =>
        if appended then (stateRequired run_id).bind fun final => .ret (some final) else .ret none

def finish (run_id : RunId) (outcome : RunOutcome) : HarnessProg RunState :=
  retry conditionalAppendRetryMax run_id (finishOnce run_id outcome)

def taintOnce (run_id : RunId) (source : String) : HarnessProg (Option RunState) :=
  (stateRequired run_id).bind fun state =>
  if state.tainted then .ret (some state)
  else
    (appendUnlessMoved [.taintRaised run_id source]).bind fun appended =>
    if appended then (stateRequired run_id).bind fun final => .ret (some final) else .ret none

def raiseTaint (run_id : RunId) (source : String) : HarnessProg RunState :=
  (require (validateText source) .invalidQuestion).bind fun () =>
  retry conditionalAppendRetryMax run_id (taintOnce run_id source)

def askQuestion (run_id : RunId) (question_id : QuestionId) (prompt : String) :
    HarnessProg RunState :=
  (require (validateText prompt) .invalidQuestion).bind fun () =>
  (stateRequired run_id).bind fun state =>
  (lift id (requireRunning state)).bind fun () =>
  if state.committed_step_count ≠ state.checkpointed_step_count then
    .throw (.invalidRunState run_id "questions land only at a completed step boundary")
  else
    (appendOnce [.questionAsked run_id question_id prompt]).bind fun () => stateRequired run_id

def answerQuestion (run_id : RunId) (question_id : QuestionId) (answered_by : UserId)
    (answer : String) : HarnessProg RunState :=
  (require (validateText answer) .invalidQuestion).bind fun () =>
  (stateRequired run_id).bind fun state =>
  if state.status ≠ .waitingInput then
    .throw (.invalidRunState run_id "answer requires a Run waiting for input")
  else
    (appendOnce [.questionAnswered run_id question_id answered_by answer]).bind fun () =>
    stateRequired run_id

end RunHarness

/-- The harness's public operations. A call to record need not be one a preparation
handed out. -/
inductive HarnessCall where
  | start (h : RunHarness) (spec : RunStartSpec)
  | state (run_id : RunId)
  | prepareStep (h : RunHarness) (run_id : RunId) (plan : StepPlan) (receipt : Option GateReceipt)
  | recordEffect (call : AuthorizedToolCall) (report : ToolEffectReport)
  | requestPause (run_id : RunId) (reason : String)
  | requestCancel (run_id : RunId) (reason : String)
  | resume (run_id : RunId)
  | finish (run_id : RunId) (outcome : RunOutcome)
  | raiseTaint (run_id : RunId) (source : String)
  | askQuestion (run_id : RunId) (question_id : QuestionId) (prompt : String)
  | answerQuestion (run_id : RunId) (question_id : QuestionId) (answered_by : UserId)
      (answer : String)

def HarnessCall.run : HarnessCall → RunId
  | .start _ spec => spec.run_id
  | .state run_id
  | .prepareStep _ run_id _ _ => run_id
  | .recordEffect call _ => call.run_id
  | .requestPause run_id _
  | .requestCancel run_id _
  | .resume run_id
  | .finish run_id _
  | .raiseTaint run_id _
  | .askQuestion run_id _ _
  | .answerQuestion run_id _ _ _ => run_id

inductive HarnessReply where
  | state (state : Option RunState)
  | preparation (preparation : StepPreparation)
  | checkpoint (checkpoint : RunCheckpointState)

def HarnessCall.code : HarnessCall → HarnessProg HarnessReply
  | .start h spec => (h.start spec).bind fun s => .ret (.state (some s))
  | .state run_id => (RunHarness.state run_id).bind fun s => .ret (.state s)
  | .prepareStep h run_id plan receipt =>
    (h.prepareStep run_id plan receipt).bind fun p => .ret (.preparation p)
  | .recordEffect call report =>
    (RunHarness.recordEffect call report).bind fun c => .ret (.checkpoint c)
  | .requestPause run_id reason =>
    (RunHarness.requestControl run_id reason .pause).bind fun s => .ret (.state (some s))
  | .requestCancel run_id reason =>
    (RunHarness.requestControl run_id reason .cancel).bind fun s => .ret (.state (some s))
  | .resume run_id => (RunHarness.resume run_id).bind fun s => .ret (.state (some s))
  | .finish run_id outcome =>
    (RunHarness.finish run_id outcome).bind fun s => .ret (.state (some s))
  | .raiseTaint run_id source =>
    (RunHarness.raiseTaint run_id source).bind fun s => .ret (.state (some s))
  | .askQuestion run_id question_id prompt =>
    (RunHarness.askQuestion run_id question_id prompt).bind fun s => .ret (.state (some s))
  | .answerQuestion run_id question_id answered_by answer =>
    (RunHarness.answerQuestion run_id question_id answered_by answer).bind fun s =>
    .ret (.state (some s))

def runAnswer (db : RunDb) : (q : RunQuery) → runSignature.Answer q
  | .run run_id => db.runs.get? run_id
  | .grants run_id => grantRows db.grants run_id
  | .step run_id step_index => db.steps.get? ⟨run_id,step_index.toNat⟩

def runApply (db : RunDb) (events : List RunEvent) : Except LogError RunDb :=
  match events with
  | [] => .error (.store "append events")
  | _ => (db.applyEvents events).mapError .apply

theorem runApply_ok {db db' : RunDb} {events : List RunEvent} (h : runApply db events = .ok db') :
    events ≠ [] ∧ db.applyEvents events = .ok db' := by
  unfold runApply at h
  split at h
  · cases h
  · rename_i hne
    cases ha : db.applyEvents events with
    | ok d =>
      rw [ha] at h
      cases h
      exact ⟨hne,rfl⟩
    | error e =>
      rw [ha] at h
      cases h

theorem runApply_head_lt {s : RunDb} {b : Signature.Batch runSignature} {s' : RunDb}
    (h : runApply s b = .ok s') : s.head < s'.head := by
  obtain ⟨hne,ha⟩ := runApply_ok h
  have hpos : 0 < b.length := List.length_pos_iff.mpr hne
  have hlog := RunDb.applyEvents_log ha
  simp only [RunDb.head,hlog,List.length_append]
  omega

def runStore : Store runSignature RunDb where
  answer := runAnswer
  head := RunDb.head
  apply := runApply
  head_lt := @runApply_head_lt

def runSystem : System runSignature HarnessCall HarnessError HarnessReply RunDb :=
  ⟨runStore,HarnessCall.code⟩

end ProjectOS.Agents
