import ProjectOS.Lib.Solo
import ProjectOS.Agents.Corruption

/-! The Echo worker: it reads its Run, advances it by a step or finishes it, and
returns once it reads that the Run is paused or over. -/

namespace ProjectOS.Agents
open Lib Lib.Optimistic Domain RunHarness List

def echoStepCount : UInt32 := 3
def echoOutputBytesBudget : UInt64 := 65536
def echoCallTimeoutMs : UInt64 := 30000
def echoModelTokenReservation : UInt64 := 4096

def echoPreflightToolId : ToolId := ⟨"echo.preflight",by decide⟩
def echoModelToolId : ToolId := ⟨"echo.complete",by decide⟩
def echoReportToolId : ToolId := ⟨"echo.report",by decide⟩

def echoMarker (run_id : RunId) : String := "PROJECTOS-ECHO-" ++ run_id.toHex

def derivedCallId (run_id : RunId) (step_index : UInt32) : ToolCallId :=
  ⟨((run_id.bits ^^^ (BitVec.ofNat 128 0xe1 <<< 120)) >>> 32 <<< 32) |||
    BitVec.ofNat 128 step_index.toNat⟩

def echoDescriptor (id : ToolId) (scope : CapabilityScope) (effect : ToolEffectClass) :
    ToolDescriptor :=
  ⟨id,1,scope,.allow,effect,128,version_one,by decide⟩

def echoToolRegistry : ToolRegistry :=
  ((ToolRegistry.empty.insert
    (echoDescriptor echoPreflightToolId .readOperations .readOnly)).insert
    (echoDescriptor echoModelToolId .execLocal .idempotent)).insert
    (echoDescriptor echoReportToolId .readOperations .readOnly)

def echoStepPlan (hash : Bytes → Digest) (run_id : RunId) (step_index : UInt32)
    (phase : RunStepPhase) (summary : String) (tool_id : ToolId)
    (tokens storage_bytes : UInt64) : StepPlan :=
  let input : Bytes := (echoMarker run_id).toUTF8.toList
  { step_index := step_index, phase := phase, summary := summary,
    digest := hash (summary.toUTF8.toList ++ input),
    tool_call := ⟨tool_id,derivedCallId run_id step_index,input⟩,
    reserved := { RunUsage.default with
      tokens := tokens, wall_ms := echoCallTimeoutMs, storage_bytes := storage_bytes,
      tool_calls := 1, steps := 1 } }

def echoPlan (hash : Bytes → Digest) (run_id : RunId) (step_index : UInt32) : Option StepPlan :=
  if step_index = 0 then
    some (echoStepPlan hash run_id step_index .preflight
      "Echo preflight checks the local-only fast tier" echoPreflightToolId 0 0)
  else if step_index = 1 then
    some (echoStepPlan hash run_id step_index .tool "Echo makes one fast-tier model call"
      echoModelToolId echoModelTokenReservation echoOutputBytesBudget)
  else if step_index = 2 then
    some (echoStepPlan hash run_id step_index .report "Echo reports its durable validation"
      echoReportToolId 0 0)
  else none

inductive EchoPhase where
  | reading
  | preparing (state : RunState)
  | recording (call : AuthorizedToolCall)
  | finishing (outcome : RunOutcome)
  | returning

def echoChoice (state : RunState) : Option EchoPhase :=
  if state.status.isTerminal ∨ state.status = .paused then some .returning
  else if echoStepCount ≤ state.checkpointed_step_count then
    state.validation.map fun validation =>
      .finishing (if validation.status = .passed then .completed else .failed)
  else some (.preparing state)

def echoPrepared : StepPreparation → Option EchoPhase
  | .effect call => some (.recording call)
  | .paused _ | .controlApplied _ => some .reading
  | .reconciliationRequired _ _ _ => none

def echoStep (hash : Bytes → Digest) (h : RunHarness) (run_id : RunId) (phase : EchoPhase)
    (report : ToolEffectReport) (db : RunDb) (w : Weather runSignature) :
    Option (EchoPhase × RunDb) :=
  match phase with
  | .reading =>
    match alone runStore (state run_id) db w with
    | (.ok (some state),db',_) => (echoChoice state).map fun phase => (phase,db')
    | _ => none
  | .preparing state =>
    (echoPlan hash run_id state.checkpointed_step_count).bind fun plan =>
    match alone runStore (h.prepareStep run_id plan none) db w with
    | (.ok preparation,db',_) => (echoPrepared preparation).map fun phase => (phase,db')
    | _ => none
  | .recording call =>
    match alone runStore (recordEffect call report) db w with
    | (.ok _,db',_) => some (.reading,db')
    | _ => none
  | .finishing outcome =>
    match alone runStore (finish run_id outcome) db w with
    | (.ok _,db',_) => some (.returning,db')
    | _ => none
  | .returning => none

def WantsWorker (db : RunDb) (id : RunId) : Prop :=
  ∃ row, db.runs.get? id = some row ∧ row.worker = RosterCharter.echo.asStr ∧
    terminalText row.status = false ∧ row.status ≠ "paused"

section Alone
variable {db db' : RunDb} {run_id : RunId} {w w' : Weather runSignature}

theorem alone_state (db : RunDb) (run_id : RunId) (w : Weather runSignature) :
    alone runStore (state run_id) db w = ((readRun db run_id).mapError .read,db,w) := by
  unfold state readRun queryRun queryGrants
  rw [alone_query]
  have hanswer : runStore.answer db (.run run_id) = db.runs.get? run_id := rfl
  rw [hanswer]
  cases db.runs.get? run_id with
  | none => rfl
  | some raw =>
    dsimp only
    cases readColumns raw with
    | error e => rfl
    | ok raw' =>
      show alone runStore ((lift _ (readToolGrants (grantRows db.grants run_id))).bind _) db w = _
      cases readToolGrants (grantRows db.grants run_id) with
      | error e => rfl
      | ok grants =>
        show alone runStore ((lift _ (parseRun run_id raw' grants)).bind _) db w =
          (Except.mapError _ (parseRun run_id raw' grants >>= fun st => pure (some st)),db,w)
        cases parseRun run_id raw' grants with
        | error | ok => rfl

theorem alone_lift {α β γ : Type} {wrap : γ → HarnessError} {r : Except γ α}
    {f : α → HarnessProg β} {b : β}
    (h : alone runStore ((lift wrap r).bind f) db w = (.ok b,db',w')) :
    ∃ a, r = .ok a ∧ alone runStore (f a) db w = (.ok b,db',w') := by
  cases r with
  | ok a => exact ⟨a,rfl,h⟩
  | error e => cases h

theorem alone_stateRequired {β : Type} {f : RunState → HarnessProg β} {b : β}
    (h : alone runStore ((stateRequired run_id).bind f) db w = (.ok b,db',w')) :
    ∃ st, readRun db run_id = .ok (some st) ∧ alone runStore (f st) db w = (.ok b,db',w') := by
  obtain ⟨st,s₁,w₁,h1,h2⟩ := alone_bind_ok h
  obtain ⟨o,s₂,w₂,h3,h4⟩ := alone_bind_ok h1
  rw [alone_state] at h3
  cases hr : readRun db run_id with
  | error e =>
    rw [hr] at h3
    cases h3
  | ok o' =>
    rw [hr] at h3
    cases h3
    cases o with
    | none => cases h4
    | some st' =>
      cases h4
      exact ⟨st,rfl,h2⟩

theorem alone_appendUnlessMoved {β : Type} {events : List RunEvent} {f : Bool → HarnessProg β}
    {b : β} (h : alone runStore ((appendUnlessMoved events).bind f) db w = (.ok b,db',w')) :
    ∃ mid w₁, db.applyEvents events = .ok mid ∧ alone runStore (f true) mid w₁ = (.ok b,db',w') := by
  rcases alone_append h with ⟨s₁,w₁,ha,hk⟩ | ⟨e,w₁,hk⟩
  · exact ⟨s₁,w₁,(runApply_ok ha).2,hk⟩
  · cases hk

theorem alone_retry {α : Type} {n : Nat} {body : HarnessProg (Option α)} {a : α}
    (hbody : ∀ {w o db₁ w₁}, alone runStore body db w = (.ok o,db₁,w₁) → o.isSome = true)
    (h : alone runStore (retry n run_id body) db w = (.ok a,db',w')) :
    alone runStore body db w = (.ok (some a),db',w') := by
  cases n with
  | zero => cases h
  | succ n =>
    obtain ⟨o,s₁,w₁,h1,h2⟩ := alone_bind_ok h
    cases o with
    | none => cases hbody h1
    | some a' =>
      cases h2
      exact h1

theorem wants_control (h : WantsWorker db run_id) : ∃ v, controlOf db run_id = some v ∧
    terminalText v.status = false ∧ v.status ≠ "paused" := by
  obtain ⟨row,hrow,_,hopen,hpaused⟩ := h
  exact ⟨RunRow.control row,by simp [controlOf,Table.column,hrow],hopen,hpaused⟩

theorem not_wants {v : ControlView} (hv : controlOf db run_id = some v)
    (h : terminalText v.status = true ∨ v.status = "paused") : ¬ WantsWorker db run_id := by
  intro hw
  obtain ⟨v',hv',hopen,hpaused⟩ := wants_control hw
  have heq := hv.symm.trans hv'
  cases heq
  rcases h with h | h
  · rw [h] at hopen
    cases hopen
  · exact hpaused h

variable {st : RunState}

theorem readRun_now (h : readRun db run_id = .ok (some st)) :
    ∃ r : RunRead run_id, r.st = st ∧ Compat currentCompat r.seen db := by
  unfold readRun at h
  cases hrow : db.runs.get? run_id with
  | none =>
    rw [hrow] at h
    cases h
  | some raw =>
    rw [hrow] at h
    obtain ⟨raw',hc,h⟩ := bind_ok h
    obtain ⟨grants,hg,h⟩ := bind_ok h
    obtain ⟨st',hp,h⟩ := bind_ok h
    cases h
    have hraw := readColumns_eq hc
    subst hraw
    refine ⟨⟨raw',_,st,hc,grants,hg,hp⟩,rfl,?_⟩
    intro q a ha
    simp only [RunRead.seen,mem_cons,Obs.answer.injEq,not_mem_nil,or_false] at ha
    rcases ha with ⟨rfl,ha⟩ | ⟨rfl,ha⟩
    · cases ha
      exact hrow
    · cases ha
      rfl

theorem parseStatus_paused {raw : String} (h : parseStatus raw = .ok .paused) : raw = "paused" := by
  unfold parseStatus at h
  split at h
  · rename_i st hst
    cases h
    unfold RunStatus.parse at hst
    split at hst <;> first | rfl | cases hst
  · cases h

theorem read_not_wants (h : readRun db run_id = .ok (some st))
    (hst : st.status.isTerminal = true ∨ st.status = .paused) : ¬ WantsWorker db run_id := by
  obtain ⟨r,rfl,hseen⟩ := readRun_now h
  have hnow := RunRead.now hseen
  refine not_wants hnow.control ?_
  rcases hst with ht | hp
  · exact Or.inl (hnow.terminal.trans ht)
  · obtain ⟨grants,hparse⟩ := r.facts
    have hstatus := hparse.status
    rw [hp] at hstatus
    exact Or.inr (parseStatus_paused hstatus)

theorem settled_text (control : PendingRunControl) :
    terminalText (PendingRunControl.settled control) = true ∨
      PendingRunControl.settled control = "paused" := by
  cases control with
  | pause => exact Or.inr rfl
  | cancel => exact Or.inl (by decide)

theorem outcome_terminal (outcome : RunOutcome) : terminalText outcome.asStatusStr = true := by
  cases outcome <;> decide

variable {outcome : RunOutcome}

theorem alone_finishOnce {o : Option RunState}
    (h : alone runStore (finishOnce run_id outcome) db w = (.ok o,db',w')) :
    o.isSome = true ∧ ¬ WantsWorker db' run_id := by
  obtain ⟨st,hread,h⟩ := alone_stateRequired h
  obtain ⟨_,_,h⟩ := alone_lift h
  obtain ⟨r,rfl,hseen⟩ := readRun_now hread
  have hnow := RunRead.now hseen
  split at h
  · rename_i ht
    cases h
    exact ⟨rfl,read_not_wants hread (Or.inl ht)⟩
  split at h
  · cases h
  rename_i hcounts
  split at h
  · rename_i control _
    rw [settleControlOnce,if_neg hcounts] at h
    obtain ⟨mid,w₁,ha,h⟩ := alone_appendUnlessMoved h
    obtain ⟨final,_,h⟩ := alone_stateRequired h
    cases h
    exact ⟨rfl,not_wants (controlOf_settled ha hnow.run hnow.control) (settled_text control)⟩
  · split at h
    · cases h
    · obtain ⟨mid,w₁,ha,h⟩ := alone_appendUnlessMoved h
      obtain ⟨final,_,h⟩ := alone_stateRequired h
      cases h
      exact ⟨rfl,not_wants (controlOf_single ha rfl hnow.control)
        (Or.inl (outcome_terminal outcome))⟩

theorem alone_finish
    (h : alone runStore (finish run_id outcome) db w = (.ok st,db',w')) :
    ¬ WantsWorker db' run_id :=
  (alone_finishOnce (alone_retry (fun h => (alone_finishOnce h).1) h)).2

theorem echoStep_returning {hash : Bytes → Digest} {h : RunHarness} {phase : EchoPhase}
    {report : ToolEffectReport}
    (hs : echoStep hash h run_id phase report db w = some (.returning,db')) :
    ¬ WantsWorker db' run_id := by
  cases phase with
  | reading =>
    simp only [echoStep,alone_state] at hs
    cases hr : readRun db run_id with
    | error e =>
      rw [hr] at hs
      cases hs
    | ok o =>
      cases o with
      | none =>
        rw [hr] at hs
        cases hs
      | some st =>
        rw [hr] at hs
        simp only [Except.mapError,Option.map_eq_some_iff,Prod.mk.injEq] at hs
        obtain ⟨phase,hchoice,rfl,rfl⟩ := hs
        unfold echoChoice at hchoice
        split at hchoice
        · rename_i hst
          exact read_not_wants hr hst
        · split at hchoice
          · obtain ⟨v,_,hv⟩ := Option.map_eq_some_iff.mp hchoice
            cases hv
          · cases hchoice
  | preparing st =>
    obtain ⟨plan,_,hs⟩ := Option.bind_eq_some_iff.mp hs
    split at hs
    · rename_i preparation _ _ _
      obtain ⟨phase,hphase,heq⟩ := Option.map_eq_some_iff.mp hs
      cases heq
      cases preparation <;> cases hphase
    · cases hs
  | recording call =>
    simp only [echoStep] at hs
    split at hs
    · cases hs
    · cases hs
  | finishing outcome =>
    simp only [echoStep] at hs
    split at hs
    · rename_i hf
      cases hs
      exact alone_finish hf
    · cases hs
  | returning => cases hs

end Alone

section Frame
variable {s s' : RunDb} {op : HarnessCall} {seen : List (Obs runSignature)} {b : List RunEvent}

def RunRow.identity (row : RunRow) : Option ProjectId × String := (row.project_id,row.worker)

def RunEvent.startsRun : RunEvent → Bool
  | .startedV1 .. | .startedV2 .. => true
  | _ => false

theorem exec_identity {r : RunId} {operation : String} {f : RunRow → RunRow}
    {runs runs' : Table RunId RunRow} (h : (RunWrite.updateOne r operation f).exec runs = .ok runs')
    (hf : ∀ row, RunRow.identity (f row) = RunRow.identity row) :
    runs'.column RunRow.identity = runs.column RunRow.identity := by
  obtain ⟨row,hrow,rfl⟩ := updateOne_ok h
  exact Table.column_put_same _ hrow (hf row)

theorem applyEvent_identity {e : RunEvent} (he : RunEvent.startsRun e = false)
    (h : s.applyEvent e = .ok s') :
    s'.runs.column RunRow.identity = s.runs.column RunRow.identity := by
  have hruns := (RunDb.applyEvent_ok h).2.1
  cases e with
  | startedV1 | startedV2 => cases he
  | artifactRecorded | gateApproved => rw [← Except.ok.inj hruns]
  | finishedV2 r outcome total spent validation =>
    refine exec_identity hruns ?_
    intro row
    cases validation with
    | none => rfl
    | some v => rfl
  | _ => exact exec_identity hruns (fun _ => rfl)

theorem applyEvents_identity (hb : ∀ e ∈ b, RunEvent.startsRun e = false)
    (h : s.applyEvents b = .ok s') :
    s'.runs.column RunRow.identity = s.runs.column RunRow.identity := by
  refine RunDb.applyEvents_keep
    (fun t => t.runs.column RunRow.identity = s.runs.column RunRow.identity) ?_ h rfl
  exact fun e he s t hst hs => (applyEvent_identity (hb e he) hst).trans hs

theorem settleEvents_about {st : RunState} {run_id : RunId} (hrun : st.run_id = run_id)
    (control : PendingRunControl) :
    ∀ e ∈ settleEvents st control, e.run = run_id ∧ RunEvent.startsRun e = false := by
  intro e he
  rcases settleEvents_mem he with rfl | rfl | rfl <;> exact ⟨hrun,rfl⟩

theorem decision_about (hd : Decision op seen b) : ∀ e ∈ b, e.run = op.run ∧
    (RunEvent.startsRun e = true → ∃ h spec runtime depth,
      op = .start h spec ∧ e = startedEvent h spec runtime depth) := by
  intro e he
  cases hd with
  | start h spec runtime depth seen hbudget hlineage =>
    rw [mem_singleton.mp he]
    exact ⟨rfl,fun _ => ⟨h,spec,runtime,depth,rfl,rfl⟩⟩
  | step h run_id plan receipt r call hplan hat hpending hindex hadmits =>
    obtain ⟨grants,hp⟩ := r.facts
    refine ⟨stepEvents_about hp.run_id plan call receipt e he,?_⟩
    intro hs
    rcases mem_append.mp he with h | h
    · cases receipt with
      | none => cases h
      | some receipt =>
        rw [mem_singleton.mp h] at hs
        cases hs
    · rw [mem_singleton.mp h] at hs
      cases hs
  | budgetPause h run_id plan receipt r exceeded hat hpending =>
    obtain ⟨grants,hp⟩ := r.facts
    rw [mem_singleton.mp he]
    exact ⟨hp.run_id,fun hs => by cases hs⟩
  | settle _ run_id r control hpending hcounts hop =>
    obtain ⟨grants,hp⟩ := r.facts
    obtain ⟨h1,h2⟩ := settleEvents_about (hp.run_id.trans hop.symm) control e he
    refine ⟨h1,fun hs => ?_⟩
    rw [h2] at hs
    cases hs
  | effect call report r t hreport htarget hcheckpoint heffect =>
    refine ⟨effectEvents_about call report r.st t.st e he,?_⟩
    intro hs
    rcases effectEvents_mem he with rfl | ⟨_,rfl⟩ | ⟨_,rfl⟩ | rfl | ⟨_,rfl⟩ <;> cases hs
  | control _ run_id reason control r hop hterminal hpending hpaused =>
    rw [mem_singleton.mp he]
    rcases hop with ⟨rfl,rfl⟩ | ⟨rfl,rfl⟩
    · exact ⟨rfl,fun hs => by cases hs⟩
    · exact ⟨rfl,fun hs => by cases hs⟩
  | _ =>
    rw [mem_singleton.mp he]
    exact ⟨rfl,fun hs => by cases hs⟩

def HomeOk (project_id : ProjectId) (configured : Bool) (s : RunDb) : Prop :=
  ∀ id row, s.runs.get? id = some row →
    row.project_id = some project_id ∧ (row.worker = RosterCharter.echo.asStr → configured = true)

def KeepsOthers (id : RunId) (s s' : RunDb) : Prop :=
  (∀ j, j ≠ id → s'.runs.get? j = s.runs.get? j) ∧
    ∀ row, s.runs.get? id = some row → ∃ row', s'.runs.get? id = some row' ∧ row'.worker = row.worker

def StartsHome (project_id : ProjectId) (configured : Bool) : HarnessCall → Prop
  | .start h spec => h.project_id = project_id ∧
      (spec.worker.asStr = RosterCharter.echo.asStr → configured = true)
  | _ => True

def homeContract (project_id : ProjectId) (configured : Bool) (id : RunId) :
    Contract runSignature HarnessCall RunDb where
  compat _ _ _ := True
  inv := HomeOk project_id configured
  may _ op := op.run = id ∧ StartsHome project_id configured op
  rel s _ s' := KeepsOthers id s s'

variable {id : RunId}

theorem identity_row {row : RunRow}
    (h : s'.runs.column RunRow.identity = s.runs.column RunRow.identity)
    (hrow : s'.runs.get? id = some row) :
    ∃ old, s.runs.get? id = some old ∧ RunRow.identity old = RunRow.identity row := by
  have hcol : s.runs.column RunRow.identity id = some (RunRow.identity row) := by
    rw [← h,Table.column,hrow]
    rfl
  exact Option.map_eq_some_iff.mp hcol

theorem home_meets (project_id : ProjectId) (configured : Bool) (id : RunId) :
    Meets (homeContract project_id configured id) := by
  intro op seen b hd s s' _ hinv hmay ha
  obtain ⟨hid,hstarts⟩ := hmay
  have habout := decision_about hd
  have hother : ∀ j, j ≠ id → s'.runs.get? j = s.runs.get? j := by
    intro j hj
    refine RunDb.applyEvents_run_other ha ?_
    intro e he heq
    exact hj (heq.symm.trans ((habout e he).1.trans hid))
  by_cases hnew : ∃ e ∈ b, RunEvent.startsRun e = true
  · obtain ⟨e,he,hs⟩ := hnew
    obtain ⟨h,spec,runtime,depth,rfl,rfl⟩ := (habout e he).2 hs
    cases hd with
    | settle _ run_id r control hpending hcounts hop =>
      obtain ⟨grants,hp⟩ := r.facts
      rw [(settleEvents_about hp.run_id control _ he).2] at hs
      cases hs
    | control _ run_id reason control r hop hterminal hpending hpaused =>
      rcases hop with ⟨hop,_⟩ | ⟨hop,_⟩
      · cases hop
      · cases hop
    | start _ _ runtime' depth' _ hbudget hlineage =>
      obtain ⟨hnone,hput⟩ := insertRow_ok (RunDb.applyEvent_ok (applyEvents_single ha)).2.1
      have hspec : spec.run_id = id := hid
      have hfresh : s.runs.get? id = none := by
        rw [← hspec]
        exact hnone
      refine ⟨?_,hother,?_⟩
      · intro j row hrow
        by_cases hj : j = id
        · rw [hj,hput,← hspec,Table.get?_put_self] at hrow
          cases hrow
          exact ⟨congrArg some hstarts.1,hstarts.2⟩
        · rw [hother j hj] at hrow
          exact hinv j row hrow
      · intro row hrow
        rw [hfresh] at hrow
        cases hrow
  · have hb : ∀ e ∈ b, RunEvent.startsRun e = false := by
      intro e he
      cases hs : RunEvent.startsRun e with
      | false => rfl
      | true => exact absurd ⟨e,he,hs⟩ hnew
    have hcol := applyEvents_identity hb ha
    refine ⟨?_,hother,?_⟩
    · intro j row hrow
      obtain ⟨old,hold,heq⟩ := identity_row hcol hrow
      have ho := hinv j old hold
      simp only [RunRow.identity,Prod.mk.injEq] at heq
      rw [← heq.1,← heq.2]
      exact ho
    · intro row hrow
      obtain ⟨row',hrow',heq⟩ := identity_row hcol.symm hrow
      simp only [RunRow.identity,Prod.mk.injEq] at heq
      exact ⟨row',hrow',heq.2⟩

def WakesNothing : HarnessCall → Prop
  | .requestPause _ _ | .requestCancel _ _ | .recordEffect _ _ => True
  | _ => False

def quietContract : Contract runSignature HarnessCall RunDb where
  compat := currentCompat
  inv _ := True
  may _ := WakesNothing
  rel s _ s' := ∀ id, WantsWorker s' id → WantsWorker s id

theorem wants_of_control {v : ControlView}
    (hcol : s'.runs.column RunRow.identity = s.runs.column RunRow.identity)
    (hv : controlOf s id = some v) (hv' : ∃ pending, controlOf s' id = some ⟨v.status,pending⟩)
    (h : WantsWorker s' id) : WantsWorker s id := by
  obtain ⟨row',hrow',hworker,hopen,hpaused⟩ := h
  obtain ⟨row,hrow,heq⟩ := identity_row hcol hrow'
  obtain ⟨pending,hp⟩ := hv'
  simp only [controlOf,Table.column,hrow,hrow',Option.map_some,Option.some.injEq] at hv hp
  cases hv
  have hstatus : row'.status = row.status := congrArg ControlView.status hp
  simp only [RunRow.identity,Prod.mk.injEq] at heq
  rw [hstatus] at hopen hpaused
  exact ⟨row,hrow,heq.2.trans hworker,hopen,hpaused⟩

theorem wants_other {run_id : RunId} (hb : ∀ e ∈ b, e.run = run_id)
    (ha : s.applyEvents b = .ok s') (hid : id ≠ run_id) (h : WantsWorker s' id) :
    WantsWorker s id := by
  obtain ⟨row,hrow,hrest⟩ := h
  rw [RunDb.applyEvents_run_other ha (fun e he heq => hid (heq.symm.trans (hb e he)))] at hrow
  exact ⟨row,hrow,hrest⟩

theorem quiet_meets : Meets quietContract := by
  intro op seen b hd s s' hseen _ hmay ha
  refine ⟨trivial,?_⟩
  intro id hw
  have habout := decision_about hd
  by_cases hid : id = op.run
  · subst hid
    cases hd with
    | settle _ run_id r control hpending hcounts hop =>
      have hnow := RunRead.now hseen
      rw [hop] at hw
      exact absurd hw (not_wants (controlOf_settled ha hnow.run hnow.control)
        (settled_text control))
    | control _ run_id reason control r hop hterminal hpending hpaused =>
      have hnow := RunRead.now hseen
      have hrun : op.run = run_id := by
        rcases hop with ⟨rfl,_⟩ | ⟨rfl,_⟩
        · rfl
        · rfl
      rw [hrun] at hw ⊢
      have he : (controlEvent run_id reason control).run = run_id := by
        cases control with
        | pause | cancel => rfl
      have hcol := applyEvents_identity (b := [controlEvent run_id reason control]) (by
        intro e he
        rw [mem_singleton.mp he]
        cases control with
        | pause => rfl
        | cancel => rfl) ha
      refine wants_of_control hcol hnow.control ?_ hw
      rw [controlOf_single ha he hnow.control]
      cases control with
      | pause | cancel => exact ⟨_,rfl⟩
    | effect call report r t hreport htarget hcheckpoint heffect =>
      have hnow := RunRead.now (r := r) (fun q a ha => hseen q a (mem_append_left _ ha))
      have hcol := applyEvents_identity (fun e he => by
        cases hs : RunEvent.startsRun e with
        | false => rfl
        | true =>
          obtain ⟨_,_,_,_,hop,_⟩ := (habout e he).2 hs
          cases hop) ha
      have hcontrol := applyEvents_control ha call.run_id
      rw [hnow.control,effect_controlRun] at hcontrol
      split at hcontrol
      · exact wants_of_control hcol hnow.control ⟨_,hcontrol⟩ hw
      · exact absurd hw (not_wants hcontrol (Or.inr rfl))
    | _ => cases hmay
  · exact wants_other (fun e he => (habout e he).1) ha hid hw

variable {α : Type} {p : HarnessProg α}

section
variable (h : ∀ K, Meets K → Runs K op p (fun _ => True))
include h

theorem alone_home {project_id : ProjectId} {configured : Bool}
    (hop : StartsHome project_id configured op)
    (hs : HomeOk project_id configured s) (w : Weather runSignature) :
    HomeOk project_id configured (storeAfter runStore p s w) ∧
      KeepsOthers op.run s (storeAfter runStore p s w) := by
  refine alone_holds (K := homeContract project_id configured op.run) (R := KeepsOthers op.run)
    (fun _ _ => trivial) (fun _ => ⟨rfl,hop⟩) ?_ ?_ (fun _ _ _ h => h)
    (h _ (home_meets project_id configured op.run)) trivial hs w
  · intro s
    exact ⟨fun _ _ => rfl,fun row hrow => ⟨row,hrow,rfl⟩⟩
  · intro s t u h1 h2
    refine ⟨fun j hj => (h2.1 j hj).trans (h1.1 j hj),?_⟩
    intro row hrow
    obtain ⟨row',hrow',hw'⟩ := h1.2 row hrow
    obtain ⟨row'',hrow'',hw''⟩ := h2.2 row' hrow'
    exact ⟨row'',hrow'',hw''.trans hw'⟩

theorem alone_quiet (hop : WakesNothing op)
    (w : Weather runSignature) {id : RunId} (hw : WantsWorker (storeAfter runStore p s w) id) :
    WantsWorker s id :=
  (alone_holds (D := runStore) (K := quietContract) (R := fun s s' => ∀ id, WantsWorker s' id → WantsWorker s id)
    (fun _ _ => rfl) (fun _ => hop) (fun _ _ h => h) (fun _ _ _ h1 h2 id h => h1 id (h2 id h))
    (fun _ _ _ h => h) (h _ quiet_meets) trivial trivial w).2 id hw

theorem alone_sound (hs : SoundDb s)
    (w : Weather runSignature) : SoundDb (storeAfter runStore p s w) :=
  (alone_holds (D := runStore) (K := soundContract) (R := fun _ _ => True) (fun _ _ => rfl)
    (fun _ => trivial) (fun _ => trivial) (fun _ _ _ _ _ => trivial) (fun _ _ _ _ => trivial)
    (h _ sound_meets) trivial hs w).1

end

end Frame

section Reread
variable {db db' : RunDb} {run_id : RunId} {w w' : Weather runSignature}

def stateResult (db : RunDb) (run_id : RunId) : Except HarnessError RunState :=
  match readRun db run_id with
  | .error e => .error (.read e)
  | .ok none => .error (.runNotFound run_id)
  | .ok (some st) => .ok st

theorem alone_stateRequired_eq (db : RunDb) (run_id : RunId) (w : Weather runSignature) :
    alone runStore (stateRequired run_id) db w = (stateResult db run_id,db,w) := by
  unfold stateRequired stateResult
  rw [alone_bind,alone_state]
  cases readRun db run_id with
  | error e => rfl
  | ok o =>
    cases o with
    | none | some => rfl

theorem alone_lift_cases {α β γ : Type} {wrap : γ → HarnessError} {r : Except γ α}
    {f : α → HarnessProg β} {out : Except HarnessError β}
    (h : alone runStore ((lift wrap r).bind f) db w = (out,db',w')) :
    (db' = db ∧ ∃ e, out = .error e) ∨
      ∃ a, r = .ok a ∧ alone runStore (f a) db w = (out,db',w') := by
  cases r with
  | ok a => exact Or.inr ⟨a,rfl,h⟩
  | error e =>
    cases h
    exact Or.inl ⟨rfl,_,rfl⟩

theorem alone_lineageDepth (spec : RunStartSpec) (db : RunDb) (w : Weather runSignature) :
    ∃ out, alone runStore (lineageDepth spec) db w = (out,db,w) := by
  unfold lineageDepth
  cases spec.parent_run_id with
  | none => exact ⟨_,rfl⟩
  | some parent =>
    dsimp only
    split
    · exact ⟨_,rfl⟩
    · rw [alone_bind,alone_stateRequired_eq]
      cases stateResult db parent with
      | error e => exact ⟨_,rfl⟩
      | ok st =>
        dsimp only
        split
        · exact ⟨_,rfl⟩
        · split
          · exact ⟨_,rfl⟩
          · exact ⟨_,rfl⟩

variable {out : Except HarnessError RunState}

theorem alone_start {h : RunHarness} {spec : RunStartSpec}
    (hs : alone runStore (h.start spec) db w = (out,db',w')) :
    (db' = db ∧ ∃ e, out = .error e) ∨ out = stateResult db' spec.run_id ∧
      ∃ row, db'.runs.get? spec.run_id = some row ∧ row.worker = spec.worker.asStr := by
  rcases alone_lift_cases hs with hfail | ⟨_,_,hs⟩
  · exact Or.inl hfail
  rw [require] at hs
  split at hs
  · rcases alone_lift_cases hs with hfail | ⟨runtime,_,hs⟩
    · exact Or.inl hfail
    rw [alone_bind] at hs
    obtain ⟨depth,hdepth⟩ := alone_lineageDepth spec db w
    rw [hdepth] at hs
    cases depth with
    | error e =>
      cases hs
      exact Or.inl ⟨rfl,e,rfl⟩
    | ok depth =>
      rcases alone_append hs with ⟨mid,w₁,ha,hk⟩ | ⟨e,w₁,hk⟩
      · have hk' : alone runStore (stateRequired spec.run_id) mid w₁ = (out,db',w') := hk
        rw [alone_stateRequired_eq] at hk'
        cases hk'
        have hrun : (startedEvent h spec runtime depth).run = spec.run_id := rfl
        have happly : runApply db [startedEvent h spec runtime depth] = .ok db' := ha
        have hrow := RunDb.applyEvents_row (runApply_ok happly).2 spec.run_id
        rw [rowRun,if_pos hrun,rowRun] at hrow
        exact Or.inr ⟨rfl,_,hrow,rfl⟩
      · cases hk
        exact Or.inl ⟨rfl,_,rfl⟩
  · cases hs
    exact Or.inl ⟨rfl,_,rfl⟩

theorem alone_resumeOnce {out : Except HarnessError (Option RunState)}
    (hs : alone runStore (resumeOnce run_id) db w = (out,db',w')) :
    (db' = db ∧ ∃ e, out = .error e) ∨ out = (stateResult db' run_id).map some := by
  unfold resumeOnce at hs
  rw [alone_bind,alone_stateRequired_eq] at hs
  cases hread : stateResult db run_id with
  | error e =>
    rw [hread] at hs
    cases hs
    exact Or.inl ⟨rfl,e,rfl⟩
  | ok st =>
    rw [hread] at hs
    dsimp only at hs
    split at hs
    · cases hs
      exact Or.inl ⟨rfl,_,rfl⟩
    · rcases alone_append hs with ⟨mid,w₁,_,hk⟩ | ⟨e,w₁,hk⟩
      · have hk' : alone runStore ((stateRequired run_id).bind fun final => .ret (some final)) mid w₁ =
            (out,db',w') := hk
        rw [alone_bind,alone_stateRequired_eq] at hk'
        cases hr : stateResult mid run_id with
        | error | ok =>
          rw [hr] at hk'
          cases hk'
          rw [hr]
          exact Or.inr rfl
      · cases hk
        exact Or.inl ⟨rfl,_,rfl⟩

theorem alone_resume
    (hs : alone runStore (resume run_id) db w = (out,db',w')) :
    (db' = db ∧ ∃ e, out = .error e) ∨ out = stateResult db' run_id := by
  have hs' : alone runStore ((resumeOnce run_id).bind _) db w = (out,db',w') := hs
  rw [alone_bind] at hs'
  cases hr : alone runStore (resumeOnce run_id) db w with
  | mk r rest =>
    obtain ⟨mid,w₁⟩ := rest
    rw [hr] at hs'
    rcases alone_resumeOnce hr with ⟨heq,e,rfl⟩ | hout
    · cases hs'
      exact Or.inl ⟨heq,e,rfl⟩
    · cases hst : stateResult mid run_id with
      | error | ok =>
        rw [hst] at hout
        subst hout
        cases hs'
        exact Or.inr hst.symm

variable {st : RunState}

theorem stateResult_ok (h : stateResult db run_id = .ok st) :
    readRun db run_id = .ok (some st) := by
  unfold stateResult at h
  split at h
  · cases h
  · cases h
  · rename_i hr
    cases h
    exact hr

theorem readRun_row (h : readRun db run_id = .ok (some st)) :
    ∃ row, db.runs.get? run_id = some row ∧ st.project_id = row.project_id ∧
      st.worker = row.worker := by
  obtain ⟨r,rfl,hseen⟩ := readRun_now h
  obtain ⟨grants,_,hp⟩ := r.parsed
  exact ⟨r.raw,(RunRead.current hseen).1,parseRun_identity hp⟩

theorem wants_read (hs : SoundDb db) (hw : WantsWorker db run_id) :
    ∃ st, stateResult db run_id = .ok st := by
  obtain ⟨o,ho⟩ := readRun_ok hs.runs hs.grants run_id
  cases o with
  | none =>
    obtain ⟨row,hrow,_⟩ := hw
    unfold readRun at ho
    rw [hrow] at ho
    obtain ⟨_,_,ho⟩ := bind_ok ho
    obtain ⟨_,_,ho⟩ := bind_ok ho
    obtain ⟨_,_,ho⟩ := bind_ok ho
    cases ho
  | some st => exact ⟨st,by rw [stateResult,ho]⟩

end Reread

end ProjectOS.Agents
