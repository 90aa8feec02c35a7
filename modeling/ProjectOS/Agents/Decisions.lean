import ProjectOS.Lib.History
import ProjectOS.Agents.Harness

/-! What each harness operation may append, and what it had read when it decided
to. Every invariant of the Run tables is a case analysis over `Decision`. -/

namespace ProjectOS.Agents
open Lib Lib.Optimistic Domain RunHarness List

structure RunRead (run_id : RunId) where
  raw : RunRow
  rows : List (String × String)
  st : RunState
  readable : readColumns raw = .ok raw
  parsed : ∃ grants, readToolGrants rows = .ok grants ∧ parseRun run_id raw grants = .ok st

structure StepRead (run_id : RunId) (step_index : UInt32) where
  raw : StepRow
  st : RunStepState
  parsed : parseStep run_id step_index raw = .ok st

def RunRead.seen {run_id : RunId} (r : RunRead run_id) : List (Obs runSignature) :=
  [.answer (.run run_id) (some r.raw),.answer (.grants run_id) r.rows]

def StepRead.seen {run_id : RunId} {step_index : UInt32} (t : StepRead run_id step_index) :
    List (Obs runSignature) := [.answer (.step run_id step_index) (some t.raw)]

/-- The Run is going on, between two steps. -/
structure AtBoundary (st : RunState) : Prop where
  running : st.status = .preflight ∨ st.status = .running ∨ st.status = .validating
  counts : st.committed_step_count = st.checkpointed_step_count

def LineageOk (spec : RunStartSpec) (depth : UInt8) (seen : List (Obs runSignature)) : Prop :=
  (spec.parent_run_id = none ∧ depth = 0 ∧ seen = []) ∨
    ∃ parent, ∃ r : RunRead parent, spec.parent_run_id = some parent ∧ seen = r.seen ∧
      depth = r.st.lineage_depth+1 ∧ depth.toNat ≤ runLineageDepthMax

/-- The batches a harness call may append, given the answers it has seen. -/
inductive Decision : HarnessCall → List (Obs runSignature) → List RunEvent → Prop where
  | start (h : RunHarness) (spec : RunStartSpec) (runtime : RuntimeDescriptor) (depth : UInt8)
      (seen : List (Obs runSignature)) (hbudget : validateBudget spec.budget = .ok ())
      (hlineage : LineageOk spec depth seen) :
      Decision (.start h spec) seen [startedEvent h spec runtime depth]
  | step (h : RunHarness) (run_id : RunId) (plan : StepPlan) (receipt : Option GateReceipt)
      (r : RunRead run_id) (call : AuthorizedToolCall) (hplan : validateStepPlan plan = .ok ())
      (hat : AtBoundary r.st) (hpending : r.st.pending_control = none)
      (hindex : plan.step_index = r.st.committed_step_count)
      (hadmits : admitUsage r.st.budget r.st.spent RunUsage.default plan.reserved = .ok ()) :
      Decision (.prepareStep h run_id plan receipt) r.seen (stepEvents r.st plan call receipt)
  | budgetPause (h : RunHarness) (run_id : RunId) (plan : StepPlan) (receipt : Option GateReceipt)
      (r : RunRead run_id) (exceeded : BudgetExceeded) (hat : AtBoundary r.st)
      (hpending : r.st.pending_control = none) :
      Decision (.prepareStep h run_id plan receipt) r.seen [budgetPauseEvent r.st exceeded]
  | settle (op : HarnessCall) (run_id : RunId) (r : RunRead run_id) (control : PendingRunControl)
      (hpending : r.st.pending_control = some control)
      (hcounts : r.st.committed_step_count = r.st.checkpointed_step_count)
      (hop : op.run = run_id) : Decision op r.seen (settleEvents r.st control)
  | effect (call : AuthorizedToolCall) (report : ToolEffectReport) (r : RunRead call.run_id)
      (t : StepRead call.run_id call.step_index)
      (hreport : validateEffectReport report = .ok ())
      (htarget : validateEffectTarget call t.st = .ok ())
      (hcheckpoint : t.st.checkpoint = none) (heffect : t.st.effect = none) :
      Decision (.recordEffect call report) (r.seen ++ t.seen)
        (effectEvents call report r.st t.st)
  | control (op : HarnessCall) (run_id : RunId) (reason : String) (control : PendingRunControl)
      (r : RunRead run_id) (hop : op = .requestPause run_id reason ∧ control = .pause ∨
        op = .requestCancel run_id reason ∧ control = .cancel)
      (hterminal : r.st.status.isTerminal = false) (hpending : r.st.pending_control = none)
      (hpaused : ¬ (r.st.status = .paused ∧ control = .pause)) :
      Decision op r.seen [controlEvent run_id reason control]
  | resume (run_id : RunId) (r : RunRead run_id) (hpaused : r.st.status = .paused)
      (hpending : r.st.pending_control = none) :
      Decision (.resume run_id) r.seen [.resumed run_id r.st.checkpointed_step_count]
  | finish (run_id : RunId) (outcome : RunOutcome) (r : RunRead run_id)
      (hterminal : r.st.status.isTerminal = false) (hpaused : r.st.status ≠ .paused)
      (hpending : r.st.pending_control = none)
      (hcounts : r.st.committed_step_count = r.st.checkpointed_step_count) :
      Decision (.finish run_id outcome) r.seen
        [.finishedV2 run_id outcome r.st.checkpointed_step_count r.st.spent r.st.validation]
  | taint (run_id : RunId) (source : String) (r : RunRead run_id) :
      Decision (.raiseTaint run_id source) r.seen [.taintRaised run_id source]
  | ask (run_id : RunId) (question_id : QuestionId) (prompt : String) (r : RunRead run_id)
      (hat : AtBoundary r.st) :
      Decision (.askQuestion run_id question_id prompt) r.seen
        [.questionAsked run_id question_id prompt]
  | answer (run_id : RunId) (question_id : QuestionId) (answered_by : UserId) (answer : String)
      (r : RunRead run_id) (hwaiting : r.st.status = .waitingInput) :
      Decision (.answerQuestion run_id question_id answered_by answer) r.seen
        [.questionAnswered run_id question_id answered_by answer]

def commitsStep : RunEvent → Bool
  | .stepCommittedV1 .. | .stepCommittedV2 .. => true
  | _ => false

/-- How a preparation committed a step: the rows it read, the time it read after
them, the call authorized on both. -/
structure Admission (h : RunHarness) (run_id : RunId) (plan : StepPlan)
    (receipt : Option GateReceipt) where
  r : RunRead run_id
  now : Nat
  grants : RunToolGrants
  level : AutonomyLevel
  call : AuthorizedToolCall
  hplan : validateStepPlan plan = .ok ()
  hat : AtBoundary r.st
  hpending : r.st.pending_control = none
  hindex : plan.step_index = r.st.committed_step_count
  hadmits : admitUsage r.st.budget r.st.spent RunUsage.default plan.reserved = .ok ()
  hgrants : RunToolGrants.fromDomain r.st.tool_grants = .ok grants
  hlevel : AutonomyLevel.new r.st.autonomy_level = .ok level
  hauth : h.tools.authorize plan.tool_call
    ⟨run_id,plan.step_index,r.st.tainted,level,grants,receipt,now⟩ = .ok call

structure Resumption (h : RunHarness) (run_id : RunId) (plan : StepPlan) where
  r : RunRead run_id
  t : StepRead run_id r.st.checkpointed_step_count
  durable : RunToolCall
  call : AuthorizedToolCall
  hrunning : requireRunning r.st = .ok ()
  hgap : r.st.checkpointed_step_count < r.st.committed_step_count
  hplan : validateDurablePlan run_id plan t.st = .ok ()
  hopen : t.st.effect = none ∧ t.st.checkpoint = none
  hdurable : t.st.tool_call = some durable
  hcall : h.tools.rehydrate run_id r.st.checkpointed_step_count durable = .ok call
  hclass : call.descriptor.effect ≠ .nonIdempotent

section
variable {h : RunHarness} {run_id : RunId} {plan : StepPlan} {receipt : Option GateReceipt}

def Admission.seen (a : Admission h run_id plan receipt) : List (Obs runSignature) :=
  a.r.seen ++ [.clock a.now]

def Admission.batch (a : Admission h run_id plan receipt) : List RunEvent :=
  stepEvents a.r.st plan a.call receipt

def Resumption.seen (a : Resumption h run_id plan) : List (Obs runSignature) :=
  a.r.seen ++ a.t.seen

end

inductive Told : HarnessCall → List (Obs runSignature) → List RunEvent → Prop where
  | step {h : RunHarness} {run_id : RunId} {plan : StepPlan} {receipt : Option GateReceipt}
      (a : Admission h run_id plan receipt) :
      Told (.prepareStep h run_id plan receipt) a.seen a.batch
  | other {op : HarnessCall} {seen : List (Obs runSignature)} {b : List RunEvent}
      (hd : Decision op seen b) (hno : ∀ e ∈ b, commitsStep e = false) : Told op seen b

abbrev LastAppend := Option (List (Obs runSignature) × List RunEvent)

def HandedStep (h : RunHarness) (run_id : RunId) (plan : StepPlan) (receipt : Option GateReceipt)
    (last : LastAppend) (seen : List (Obs runSignature)) (p : StepPreparation) : Prop :=
  ∀ call, p = .effect call →
    (∃ a : Admission h run_id plan receipt, a.call = call ∧ last = some (a.seen,a.batch)) ∨
      ∃ a : Resumption h run_id plan, a.call = call ∧ seen = a.seen

def Handed (op : HarnessCall) (last : LastAppend) (seen : List (Obs runSignature))
    (reply : HarnessReply) : Prop :=
  ∀ p, reply = .preparation p → ∃ h run_id plan receipt,
    op = .prepareStep h run_id plan receipt ∧ HandedStep h run_id plan receipt last seen p

def Meets (K : Contract runSignature HarnessCall RunDb) : Prop :=
  ∀ op seen b, Decision op seen b → ∀ s s', Compat K.compat seen s → K.inv s → K.may s op →
    s.applyEvents b = .ok s' → K.inv s' ∧ K.rel s b s'

section
variable {op : HarnessCall} {α β γ : Type} {A : List (Obs runSignature) → List RunEvent → Prop}
variable {R : LastAppend → List (Obs runSignature) → β → Prop}
variable {last : LastAppend} {seen : List (Obs runSignature)}

theorem lift_tells {wrap : γ → HarnessError} {r : Except γ α} {f : α → HarnessProg β}
    (h : ∀ a, r = .ok a → Tells A R (f a) last seen) :
    Tells A R ((lift wrap r).bind f) last seen := by
  cases r with
  | ok a => exact h a rfl
  | error e => exact trivial

variable {f : Unit → HarnessProg β}

theorem require_tells {condition : Bool} {error : HarnessError}
    (h : condition = true → Tells A R (f ()) last seen) :
    Tells A R ((require condition error).bind f) last seen := by
  cases condition with
  | true => exact h rfl
  | false => exact trivial

variable {run_id : RunId}

theorem retry_tells {body : HarnessProg (Option β)}
    (h : ∀ last seen, Tells A (fun last seen a => ∀ b, a = some b → R last seen b) body last seen)
    (n : Nat) (last : LastAppend) (seen : List (Obs runSignature)) :
    Tells A R (retry n run_id body) last seen := by
  induction n generalizing last seen with
  | zero => exact trivial
  | succ n ih =>
    refine tells_bind (tells_result ?_ (h last seen))
    intro last seen a ha
    cases a with
    | some b => exact ha b rfl
    | none => exact ih last seen

theorem readColumns_eq {raw raw' : RunRow} (h : readColumns raw = .ok raw') : raw' = raw := by
  unfold readColumns at h
  split at h
  · cases h
    rfl
  · cases h

theorem RunRead.run_id_eq (r : RunRead run_id) : r.st.run_id = run_id := by
  obtain ⟨grants,_,hp⟩ := r.parsed
  exact (parseRun_ok hp).run_id

theorem stateRequired_tells {f : RunState → HarnessProg β}
    (h : ∀ r : RunRead run_id, Tells A R (f r.st) none r.seen) :
    Tells A R ((stateRequired run_id).bind f) last seen := by
  refine tells_bind (tells_bind (tells_bind ?_))
  intro answer
  cases answer with
  | none => exact trivial
  | some raw =>
    refine lift_tells ?_
    intro raw' hr
    have hraw := readColumns_eq hr
    subst hraw
    refine tells_bind ?_
    intro rows
    refine lift_tells ?_
    intro grants hg
    refine lift_tells ?_
    intro st hp
    exact h ⟨raw',rows,st,hr,grants,hg,hp⟩

theorem stepRequired_tells {step_index : UInt32} {f : RunStepState → HarnessProg β}
    (h : ∀ t : StepRead run_id step_index, Tells A R (f t.st) none (seen ++ t.seen)) :
    Tells A R ((stepRequired run_id step_index).bind f) last seen := by
  refine tells_bind (tells_bind ?_)
  intro answer
  cases answer with
  | none => exact trivial
  | some raw =>
    show Tells A _ (lift .read (parseStep run_id step_index raw)) _ _
    rw [← Prog.bind_ret (lift .read (parseStep run_id step_index raw))]
    refine lift_tells ?_
    intro st hp
    exact h ⟨raw,st,hp⟩

variable {b : List RunEvent}

theorem appendOnce_tells (hb : A seen b)
    (hf : Tells A R (f ()) (some (seen,b)) []) : Tells A R ((appendOnce b).bind f) last seen := by
  refine ⟨hb,hf,?_⟩
  intro e
  exact trivial

theorem appendUnlessMoved_tells {f : Bool → HarnessProg β} (hb : A seen b)
    (hok : Tells A R (f true) (some (seen,b)) []) (hmoved : Tells A R (f false) none []) :
    Tells A R ((appendUnlessMoved b).bind f) last seen := by
  refine ⟨hb,hok,?_⟩
  intro e
  cases e with
  | headChanged expected actual => exact hmoved
  | fault f => exact trivial

theorem stateOnly_tells : Tells A untold (stateRequired run_id) last seen := by
  rw [← Prog.bind_ret (stateRequired run_id)]
  exact stateRequired_tells fun _ => trivial

theorem appendThenReread_tells (hb : A seen b) :
    Tells A (fun last seen a => ∀ b, a = some b → untold last seen b)
      ((appendUnlessMoved b).bind fun appended =>
        if appended then (stateRequired run_id).bind fun final => .ret (some final)
        else .ret none) last seen := by
  refine appendUnlessMoved_tells hb ?_ ?_
  · exact stateRequired_tells fun _ _ _ => trivial
  · intro _ _
    exact trivial

variable {e : RunEvent} {report : ToolEffectReport}

theorem effectEvents_mem {call : AuthorizedToolCall}
    {state : RunState} {step : RunStepState} (he : e ∈ effectEvents call report state step) :
    e = .toolEffectRecorded call.run_id call.step_index call.call_id call.idempotency_key
      report.output_digest report.spent ∨
    (∃ a : ArtifactReport, e = .artifactRecorded call.run_id call.step_index a.artifact_id
      a.content_hash a.media_type a.size_bytes) ∨
    (∃ v : ValidationReport, e = .validationRecorded call.run_id call.step_index v.validation_id
      v.status v.summary) ∨
    e = .checkpointSaved call.run_id call.step_index (checkpointId call.call_id)
      report.checkpoint_digest ∨
    ∃ dimension, e = .paused call.run_id (nextStepIndex call.step_index)
      (.reservationExceeded dimension) (saturatingUsageAdd state.spent report.spent) := by
  simp only [effectEvents,mem_append,mem_singleton] at he
  rcases he with (((he | he) | he) | he) | he
  · exact Or.inl he
  · unfold artifactEvents at he
    split at he
    · cases he
    · exact Or.inr (Or.inl ⟨_,mem_singleton.mp he⟩)
  · unfold validationEvents at he
    split at he
    · cases he
    · exact Or.inr (Or.inr (Or.inl ⟨_,mem_singleton.mp he⟩))
  · exact Or.inr (Or.inr (Or.inr (Or.inl he)))
  · unfold overReservationEvents at he
    split at he
    · cases he
    · exact Or.inr (Or.inr (Or.inr (Or.inr ⟨_,mem_singleton.mp he⟩)))

variable {st : RunState} {control : PendingRunControl}

theorem settleEvents_mem (he : e ∈ settleEvents st control) :
    e = .paused st.run_id st.checkpointed_step_count
      (.requested (st.pending_control_reason.getD "pause requested")) st.spent ∨
    e = .canceled st.run_id st.checkpointed_step_count ∨
    e = .finishedV2 st.run_id .canceled st.checkpointed_step_count st.spent none := by
  cases control with
  | pause => exact Or.inl (mem_singleton.mp he)
  | cancel =>
    simp only [settleEvents,mem_cons,not_mem_nil,or_false] at he
    exact Or.inr he

theorem gateEvents_mem {receipt : Option GateReceipt} (he : e ∈ gateEvents st receipt) :
    ∃ r, receipt = some r ∧
      e = .gateApproved st.run_id r.receipt_id r.call_id r.approved_by r.reason r.expires_ts_ms := by
  cases receipt with
  | none => cases he
  | some r => exact ⟨r,rfl,mem_singleton.mp he⟩

theorem settleEvents_commitless (st : RunState) (control : PendingRunControl) :
    ∀ e ∈ settleEvents st control, commitsStep e = false := by
  intro e he
  rcases settleEvents_mem he with rfl | rfl | rfl <;> rfl

theorem single_commitless (he : commitsStep e = false) : ∀ e' ∈ [e], commitsStep e' = false := by
  intro e' h
  rw [mem_singleton.mp h]
  exact he

theorem settleControlOnce_tells (r : RunRead run_id)
    (hpending : r.st.pending_control = some control) (hop : op.run = run_id)
    {R : LastAppend → List (Obs runSignature) → β → Prop} {f : Bool → HarnessProg β}
    (hf : ∀ settled last seen, Tells (Told op) R (f settled) last seen) :
    Tells (Told op) R ((settleControlOnce r.st control).bind f) last r.seen := by
  unfold settleControlOnce
  by_cases hcounts : r.st.committed_step_count = r.st.checkpointed_step_count
  · rw [if_neg (by simpa using hcounts)]
    exact appendUnlessMoved_tells (.other (.settle op run_id r control hpending hcounts hop)
      (settleEvents_commitless r.st control)) (hf ..) (hf ..)
  · rw [if_pos hcounts]
    exact hf ..

theorem settleAfterCheckpoint_tells (run_id : RunId) (hop : op.run = run_id) (last : LastAppend)
    (seen : List (Obs runSignature)) :
    Tells (Told op) untold (settleAfterCheckpoint run_id) last seen := by
  refine retry_tells ?_ _ last seen
  intro last seen
  refine stateRequired_tells ?_
  intro r
  cases hpending : r.st.pending_control with
  | none =>
    intro _ _
    exact trivial
  | some control =>
    refine settleControlOnce_tells r hpending hop ?_
    intro settled last seen _ _
    exact trivial

theorem requireRunning_ok (h : requireRunning st = .ok ()) :
    st.status = .preflight ∨ st.status = .running ∨ st.status = .validating := by
  unfold requireRunning at h
  cases hs : st.status <;> simp_all

theorem lineageDepth_tells {spec : RunStartSpec} {f : UInt8 → HarnessProg β}
    (h : ∀ depth seen, LineageOk spec depth seen → ∀ last, Tells A R (f depth) last seen) :
    Tells A R ((lineageDepth spec).bind f) last [] := by
  unfold lineageDepth
  cases hparent : spec.parent_run_id with
  | none => exact h 0 [] (Or.inl ⟨hparent,rfl,rfl⟩) _
  | some parent =>
    simp only []
    split
    · exact trivial
    · rw [Prog.bind_assoc]
      refine stateRequired_tells ?_
      intro r
      split
      · exact trivial
      · split
        · exact trivial
        · rename_i hdepth
          exact h _ _ (Or.inr ⟨parent,r,hparent,rfl,rfl,Nat.le_of_not_lt hdepth⟩) _

theorem start_tells (h : RunHarness) (spec : RunStartSpec) :
    Tells (Told (.start h spec)) untold (h.start spec) last [] := by
  refine lift_tells ?_
  intro _ hbudget
  refine require_tells ?_
  intro _
  refine lift_tells ?_
  intro runtime _
  refine lineageDepth_tells ?_
  intro depth seen hlineage last
  exact appendOnce_tells (.other (.start h spec runtime depth seen hbudget hlineage)
    (single_commitless rfl)) stateOnly_tells

theorem resumeCommittedStep_tells (h : RunHarness) (r : RunRead run_id) (plan : StepPlan)
    (receipt : Option GateReceipt) (hrunning : requireRunning r.st = .ok ())
    (hgap : r.st.checkpointed_step_count < r.st.committed_step_count) :
    Tells A (HandedStep h run_id plan receipt) (resumeCommittedStep h r.st plan) last r.seen := by
  unfold resumeCommittedStep
  rw [r.run_id_eq]
  refine stepRequired_tells ?_
  intro t
  refine lift_tells ?_
  intro _ hplan
  split
  · exact trivial
  · rename_i hopen
    simp only [not_or,Option.not_isSome_iff_eq_none] at hopen
    split
    · exact trivial
    · rename_i durable hdurable
      refine lift_tells ?_
      intro call hcall
      split
      · rintro call' ⟨⟩
      · rename_i hclass
        rintro call' ⟨⟩
        exact Or.inr ⟨⟨r,t,durable,call,hrunning,hgap,hplan,hopen,hdurable,hcall,hclass⟩,rfl,rfl⟩

variable {plan : StepPlan}

theorem commitStep_tells (h : RunHarness) (receipt : Option GateReceipt)
    (r : RunRead run_id) (hplan : validateStepPlan plan = .ok ()) (hat : AtBoundary r.st)
    (hpending : r.st.pending_control = none)
    (hindex : plan.step_index = r.st.committed_step_count) :
    Tells (Told (.prepareStep h run_id plan receipt))
      (fun last seen a => ∀ p, a = some p → HandedStep h run_id plan receipt last seen p)
      (commitStep h run_id plan receipt r.st) last r.seen := by
  unfold commitStep
  cases hadmits : admitUsage r.st.budget r.st.spent RunUsage.default plan.reserved with
  | error exceeded =>
    refine appendUnlessMoved_tells (.other
      (.budgetPause h run_id plan receipt r exceeded hat hpending) (single_commitless rfl)) ?_ ?_
    · rintro p ⟨⟩ call ⟨⟩
    · rintro p ⟨⟩
  | ok _ =>
    refine lift_tells ?_
    intro grants hgrants
    refine lift_tells ?_
    intro level hlevel now
    refine lift_tells ?_
    intro call hauth
    refine appendUnlessMoved_tells (.step ⟨r,now,grants,level,call,hplan,hat,hpending,hindex,
      hadmits,hgrants,hlevel,hauth⟩) ?_ ?_
    · rintro p ⟨⟩ call' ⟨⟩
      exact Or.inl ⟨⟨r,now,grants,level,call,hplan,hat,hpending,hindex,hadmits,hgrants,hlevel,
        hauth⟩,rfl,rfl⟩
    · rintro p ⟨⟩

theorem validateRunCounts_ok (h : validateRunCounts st = .ok ()) :
    st.checkpointed_step_count ≤ st.committed_step_count := by
  unfold validateRunCounts at h
  split at h
  · rename_i hv
    exact hv.1
  · cases h

theorem prepareOnce_tells (h : RunHarness) (run_id : RunId)
    (receipt : Option GateReceipt) (hplan : validateStepPlan plan = .ok ()) :
    Tells (Told (.prepareStep h run_id plan receipt))
      (fun last seen a => ∀ p, a = some p → HandedStep h run_id plan receipt last seen p)
      (prepareOnce h run_id plan receipt) last seen := by
  refine stateRequired_tells ?_
  intro r
  refine lift_tells ?_
  intro _ hcounts
  split
  · rename_i control hpending _
    refine settleControlOnce_tells r hpending rfl ?_
    intro settled last seen
    cases settled with
    | true =>
      refine stateRequired_tells ?_
      rintro r' p ⟨⟩ call ⟨⟩
    | false => rintro p ⟨⟩
  · rename_i hno
    refine lift_tells ?_
    intro _ hrunning
    split
    · rename_i hgap
      refine tells_bind (tells_result ?_ (resumeCommittedStep_tells h r plan receipt hrunning hgap))
      rintro last seen p hp p' ⟨⟩
      exact hp
    · rename_i hgap
      have hle := validateRunCounts_ok hcounts
      have heq : r.st.committed_step_count = r.st.checkpointed_step_count := by
        rw [gt_iff_lt,UInt32.not_lt] at hgap
        exact UInt32.le_antisymm hgap hle
      split
      · exact trivial
      · rename_i hindex
        refine commitStep_tells h receipt r hplan ⟨requireRunning_ok hrunning,heq⟩ ?_
          (by simpa using hindex)
        cases hpending : r.st.pending_control with
        | none => rfl
        | some control => exact absurd (by simpa using heq) (hno control hpending)

theorem prepareStep_tells (h : RunHarness) (run_id : RunId) (plan : StepPlan)
    (receipt : Option GateReceipt) :
    Tells (Told (.prepareStep h run_id plan receipt)) (HandedStep h run_id plan receipt)
      (h.prepareStep run_id plan receipt) last seen := by
  refine lift_tells ?_
  intro _ hplan
  exact retry_tells (fun last seen => prepareOnce_tells h run_id receipt hplan) _ _ _

variable (call : AuthorizedToolCall)

theorem effectEvents_commitless (report : ToolEffectReport) (state : RunState)
    (step : RunStepState) : ∀ e ∈ effectEvents call report state step, commitsStep e = false := by
  intro e he
  rcases effectEvents_mem he with rfl | ⟨_,rfl⟩ | ⟨_,rfl⟩ | rfl | ⟨_,rfl⟩ <;> rfl

theorem recordOnce_tells
    (hreport : validateEffectReport report = .ok ()) :
    Tells (Told (.recordEffect call report))
      (fun last seen a => ∀ b, a = some b → untold last seen b) (recordOnce call report)
      last seen := by
  refine stateRequired_tells ?_
  intro r
  refine stepRequired_tells ?_
  intro t
  refine lift_tells ?_
  intro _ htarget
  cases hcheckpoint : t.st.checkpoint with
  | some checkpoint =>
    refine lift_tells ?_
    intro _ _ _ _
    exact trivial
  | none =>
    simp only []
    split
    · exact trivial
    · rename_i heffect
      refine appendUnlessMoved_tells (.other (.effect call report r t hreport htarget hcheckpoint
        (by simpa using heffect)) (effectEvents_commitless call report r.st t.st)) ?_ ?_
      · refine stepRequired_tells ?_
        intro t'
        cases hc : t'.st.checkpoint with
        | none => exact trivial
        | some checkpoint =>
          refine tells_seq (settleAfterCheckpoint_tells call.run_id rfl _ _) ?_
          intro _ _ _ _ _
          exact trivial
      · intro _ _
        exact trivial

theorem recordEffect_tells (report : ToolEffectReport) :
    Tells (Told (.recordEffect call report)) untold (recordEffect call report) last seen := by
  refine lift_tells ?_
  intro _ hreport
  exact retry_tells (fun last seen => recordOnce_tells call hreport) _ _ _

theorem requestControl_tells {reason : String}
    (hop : op = .requestPause run_id reason ∧ control = .pause ∨
      op = .requestCancel run_id reason ∧ control = .cancel) :
    Tells (Told op) untold (requestControl run_id reason control) last seen := by
  refine require_tells ?_
  intro _
  refine retry_tells ?_ _ _ _
  intro last seen
  refine stateRequired_tells ?_
  intro r
  split
  · exact trivial
  rename_i hterminal
  split
  · intro _ _
    exact trivial
  rename_i hpaused
  split
  · intro _ _
    exact trivial
  split
  · exact trivial
  rename_i hpending
  have hno : commitsStep (controlEvent run_id reason control) = false := by
    cases control with
    | pause => rfl
    | cancel => rfl
  refine appendUnlessMoved_tells (.other (.control op run_id reason control r hop
    (by simpa using hterminal) (by simpa using hpending) hpaused) (single_commitless hno)) ?_ ?_
  · refine stateRequired_tells ?_
    intro r'
    refine tells_seq ?_ ?_
    · split
      · refine settleAfterCheckpoint_tells run_id ?_ _ _
        rcases hop with ⟨rfl,_⟩ | ⟨rfl,_⟩
        · rfl
        · rfl
      · exact trivial
    · intro _ last seen
      exact stateRequired_tells fun _ _ _ => trivial
  · intro _ _
    exact trivial

theorem resume_tells (run_id : RunId) :
    Tells (Told (.resume run_id)) untold (resume run_id) last seen := by
  refine retry_tells ?_ _ _ _
  intro last seen
  refine stateRequired_tells ?_
  intro r
  split
  · exact trivial
  · rename_i hguard
    have hpaused : r.st.status = .paused := by
      by_contra hne
      exact hguard (Or.inl hne)
    have hpending : r.st.pending_control = none := by
      cases hp : r.st.pending_control with
      | none => rfl
      | some control => exact absurd (Or.inr (by simp [hp])) hguard
    exact appendThenReread_tells (.other (.resume run_id r hpaused hpending)
      (single_commitless rfl))

theorem finish_tells (run_id : RunId) (outcome : RunOutcome) :
    Tells (Told (.finish run_id outcome)) untold (finish run_id outcome) last seen := by
  refine retry_tells ?_ _ _ _
  intro last seen
  refine stateRequired_tells ?_
  intro r
  refine lift_tells ?_
  intro _ _
  split
  · intro _ _
    exact trivial
  rename_i hterminal
  split
  · exact trivial
  rename_i hcounts
  cases hpending : r.st.pending_control with
  | some control =>
    refine settleControlOnce_tells r hpending rfl ?_
    intro settled last seen
    cases settled with
    | true => exact stateRequired_tells fun _ _ _ => trivial
    | false =>
      intro _ _
      exact trivial
  | none =>
    simp only []
    split
    · exact trivial
    · rename_i hpaused
      exact appendThenReread_tells (.other (.finish run_id outcome r (by simpa using hterminal)
        hpaused hpending (by simpa using hcounts)) (single_commitless rfl))

theorem raiseTaint_tells (run_id : RunId) (source : String) :
    Tells (Told (.raiseTaint run_id source)) untold (raiseTaint run_id source) last seen := by
  refine require_tells ?_
  intro _
  refine retry_tells ?_ _ _ _
  intro last seen
  refine stateRequired_tells ?_
  intro r
  split
  · intro _ _
    exact trivial
  · exact appendThenReread_tells (.other (.taint run_id source r) (single_commitless rfl))

theorem askQuestion_tells (run_id : RunId) (question_id : QuestionId) (prompt : String) :
    Tells (Told (.askQuestion run_id question_id prompt)) untold
      (askQuestion run_id question_id prompt) last seen := by
  refine require_tells ?_
  intro _
  refine stateRequired_tells ?_
  intro r
  refine lift_tells ?_
  intro _ hrunning
  split
  · exact trivial
  · rename_i hcounts
    exact appendOnce_tells (.other (.ask run_id question_id prompt r
      ⟨requireRunning_ok hrunning,by simpa using hcounts⟩) (single_commitless rfl)) stateOnly_tells

theorem answerQuestion_tells (run_id : RunId) (question_id : QuestionId) (answered_by : UserId)
    (answer : String) :
    Tells (Told (.answerQuestion run_id question_id answered_by answer)) untold
      (answerQuestion run_id question_id answered_by answer) last seen := by
  refine require_tells ?_
  intro _
  refine stateRequired_tells ?_
  intro r
  split
  · exact trivial
  · rename_i hwaiting
    exact appendOnce_tells (.other (.answer run_id question_id answered_by answer r
      (by simpa using hwaiting)) (single_commitless rfl)) stateOnly_tells

theorem state_tells (run_id : RunId) : Tells A untold (state run_id) last seen := by
  refine tells_bind ?_
  intro answer
  cases answer with
  | none => exact trivial
  | some raw =>
    refine lift_tells ?_
    intro raw' _
    refine tells_bind ?_
    intro rows
    refine lift_tells ?_
    intro grants _
    refine lift_tells ?_
    intro st _
    exact trivial

theorem reply_tells {p : HarnessProg α} {f : α → HarnessReply}
    (hp : Tells (Told op) untold p last seen) (hf : ∀ a q, f a ≠ .preparation q) :
    Tells (Told op) (Handed op) (p.bind fun a => .ret (f a)) last seen := by
  refine tells_seq hp ?_
  intro a last seen q hq
  exact absurd hq (hf a q)

theorem code_tells (op : HarnessCall) : Tells (Told op) (Handed op) op.code none [] := by
  cases op with
  | start h spec => exact reply_tells (start_tells h spec) (by rintro a q ⟨⟩)
  | state run_id => exact reply_tells (state_tells run_id) (by rintro a q ⟨⟩)
  | prepareStep h run_id plan receipt =>
    refine tells_bind (tells_result ?_ (prepareStep_tells h run_id plan receipt))
    rintro last seen p hp q ⟨⟩
    exact ⟨h,run_id,plan,receipt,rfl,hp⟩
  | recordEffect call report =>
    exact reply_tells (recordEffect_tells call report) (by rintro a q ⟨⟩)
  | requestPause run_id reason =>
    exact reply_tells (requestControl_tells (Or.inl ⟨rfl,rfl⟩)) (by rintro a q ⟨⟩)
  | requestCancel run_id reason =>
    exact reply_tells (requestControl_tells (Or.inr ⟨rfl,rfl⟩)) (by rintro a q ⟨⟩)
  | resume run_id => exact reply_tells (resume_tells run_id) (by rintro a q ⟨⟩)
  | finish run_id outcome => exact reply_tells (finish_tells run_id outcome) (by rintro a q ⟨⟩)
  | raiseTaint run_id source =>
    exact reply_tells (raiseTaint_tells run_id source) (by rintro a q ⟨⟩)
  | askQuestion run_id question_id prompt =>
    exact reply_tells (askQuestion_tells run_id question_id prompt) (by rintro a q ⟨⟩)
  | answerQuestion run_id question_id answered_by answer =>
    exact reply_tells (answerQuestion_tells run_id question_id answered_by answer)
      (by rintro a q ⟨⟩)

end

section
variable {K : Contract runSignature HarnessCall RunDb} {op : HarnessCall} {α : Type}

abbrev Runs (K : Contract runSignature HarnessCall RunDb) (op : HarnessCall)
    (p : HarnessProg α) (P : RunDb → Prop) : Prop :=
  Holds runStore K op p anyResult P

theorem Told.decision {seen : List (Obs runSignature)} {b : List RunEvent} (h : Told op seen b) :
    ∃ read, Decision op read b ∧ ∀ o ∈ read, o ∈ seen := by
  cases h with
  | step a =>
    exact ⟨a.r.seen,.step _ _ _ _ a.r a.call a.hplan a.hat a.hpending a.hindex a.hadmits,
      fun o ho => mem_append_left _ ho⟩
  | other hd hno => exact ⟨seen,hd,fun o ho => ho⟩

theorem tells_runs (hK : Meets K) {p : HarnessProg α}
    {R : LastAppend → List (Obs runSignature) → α → Prop}
    (h : Tells (Told op) R p none []) : Runs K op p (fun _ => True) := by
  refine holds_pre (tells_holds ?_ h) ?_
  · intro seen b hb s s' hseen hinv hmay ha
    obtain ⟨read,hd,hread⟩ := hb.decision
    exact hK op read b hd s s' (fun q a hq => hseen q a (hread _ hq)) hinv hmay (runApply_ok ha).2
  · intro s _ q a ha
    cases ha

theorem code_runs (hK : Meets K) (op : HarnessCall) : Runs K op op.code (fun _ => True) :=
  tells_runs hK (code_tells op)

end

end ProjectOS.Agents
