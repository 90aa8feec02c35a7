import ProjectOS.Domain.RunRows
import ProjectOS.Agents.Ledger

/-! Controls and terminal statuses. Here a Run is only its status and its pending
control; every event acts on the pair. -/

namespace ProjectOS.Agents
open Lib Lib.Optimistic Domain RunHarness List

structure ControlView where
  status : String
  pending : Option String

def RunRow.control (row : RunRow) : ControlView := ⟨row.status,row.pending_control⟩

def controlOf (db : RunDb) (id : RunId) : Option ControlView := db.runs.column RunRow.control id

def controlStep : RunEvent → ControlView → ControlView
  | .stepCommittedV2 _ _ phase _ _ _ _, v => ⟨phase.runStatus,v.pending⟩
  | .pauseRequested _ _, v => ⟨v.status,some "pause"⟩
  | .paused _ _ _ _, _ => ⟨"paused",none⟩
  | .resumed _ _, _ => ⟨"running",none⟩
  | .cancelRequested _ _, v => ⟨v.status,some "cancel"⟩
  | .canceled _ _, _ => ⟨"canceled",none⟩
  | .questionAsked _ _ _, v => ⟨"waiting_input",v.pending⟩
  | .questionAnswered _ _ _ _, v => ⟨"running",v.pending⟩
  | .finishedV1 _ outcome _, v => ⟨outcome.asStatusStr,v.pending⟩
  | .finishedV2 _ outcome _ _ _, v => ⟨outcome.asStatusStr,v.pending⟩
  | _, v => v

def controlEffect : RunEvent → Option ControlView → Option ControlView
  | .startedV1 _ _ _, _ => some ⟨"running",none⟩
  | .startedV2 _, _ => some ⟨"preflight",none⟩
  | e, v => v.map (controlStep e)

theorem onRow_control (seq : Nat) (e : RunEvent) (row : Option RunRow) :
    ((runsProjection seq e).onRow row).map RunRow.control =
      controlEffect e (row.map RunRow.control) := by
  cases e with
  | finishedV2 r outcome total spent validation =>
    cases row with
    | none => rfl
    | some row =>
      cases validation with
      | none | some => rfl
  | _ =>
    cases row with
    | none | some => rfl

theorem applyEvent_control {db db' : RunDb} {e : RunEvent} (h : db.applyEvent e = .ok db')
    (id : RunId) :
    controlOf db' id = if e.run = id then controlEffect e (controlOf db id) else controlOf db id := by
  simp only [controlOf,Table.column,RunDb.applyEvent_run h id]
  by_cases he : e.run = id
  · rw [if_pos he,if_pos he,onRow_control]
  · rw [if_neg he,if_neg he]

def controlRun (id : RunId) : List RunEvent → Option ControlView → Option ControlView
  | [], v => v
  | e::es, v => controlRun id es (if e.run = id then controlEffect e v else v)

theorem applyEvents_control {b : List RunEvent} {db db' : RunDb} (h : db.applyEvents b = .ok db')
    (id : RunId) : controlOf db' id = controlRun id b (controlOf db id) := by
  induction b generalizing db with
  | nil =>
    cases h
    rfl
  | cons e b ih =>
    obtain ⟨mid,h1,h2⟩ := RunDb.applyEvents_cons h
    rw [ih h2,controlRun,applyEvent_control h1]

theorem controlRun_append (id : RunId) (a b : List RunEvent) (v : Option ControlView) :
    controlRun id (a ++ b) v = controlRun id b (controlRun id a v) := by
  induction a generalizing v with
  | nil => rfl
  | cons e a ih => exact ih _

theorem controlRun_same {id : RunId} {b : List RunEvent} {v : Option ControlView}
    (h : ∀ e ∈ b, e.run ≠ id ∨ controlEffect e v = v) : controlRun id b v = v := by
  induction b with
  | nil => rfl
  | cons e b ih =>
    have he : (if e.run = id then controlEffect e v else v) = v := by
      rcases h e (by simp) with h1 | h1
      · rw [if_neg h1]
      · rw [h1,ite_self]
    rw [controlRun,he]
    exact ih (fun e he => h e (mem_cons_of_mem _ he))

def terminalText (status : String) : Bool := (RunStatus.parse status).any RunStatus.isTerminal

theorem terminalText_of_parse {raw : String} {status : RunStatus}
    (h : parseStatus raw = .ok status) : terminalText raw = status.isTerminal := by
  unfold parseStatus at h
  split at h
  · rename_i st hst
    cases h
    simp [terminalText,hst]
  · cases h

theorem pending_none {control reason : Option String}
    (h : parsePendingControl control reason = .ok none) : control = none := by
  unfold parsePendingControl at h
  split at h
  · cases h
  · rename_i hbad
    split at h
    · cases h
    · cases control with
      | none => rfl
      | some text =>
        have hp := Except.ok.inj h
        simp [hp] at hbad

theorem pending_some {control reason : Option String} {c : PendingRunControl}
    (h : parsePendingControl control reason = .ok (some c)) :
    control = some (PendingRunControl.text c) := by
  unfold parsePendingControl at h
  split at h
  · cases h
  · split at h
    · cases h
    · have hp := Except.ok.inj h
      unfold PendingRunControl.parse at hp
      split at hp
      · cases hp
        rfl
      · cases hp
        rfl
      · cases hp

section Current
variable {s s' : RunDb} {id run_id : RunId}

def currentCompat (q : RunQuery) (a : runSignature.Answer q) (s : RunDb) : Prop := runAnswer s q = a

theorem current_ledger {seen : List (Obs runSignature)} (h : Compat currentCompat seen s) :
    Compat ledgerCompat seen s := by
  intro q a ha
  have hq : runAnswer s q = a := h q a ha
  rw [← hq]
  exact ledgerCompat_answer s q

variable {r : RunRead run_id}

theorem RunRead.current (h : Compat currentCompat r.seen s) :
    s.runs.get? run_id = some r.raw ∧ grantRows s.grants run_id = r.rows :=
  ⟨h (.run run_id) (some r.raw) (by simp [RunRead.seen]),
    h (.grants run_id) r.rows (by simp [RunRead.seen])⟩

theorem StepRead.current {i : UInt32} {t : StepRead run_id i}
    (h : Compat currentCompat t.seen s) : s.steps.get? ⟨run_id,i.toNat⟩ = some t.raw :=
  h (.step run_id i) (some t.raw) (by simp [StepRead.seen])

/-- What a read of the Run shows, against the store it was read from. -/
structure ReadNow (s : RunDb) (run_id : RunId) (st : RunState) (v : ControlView) : Prop where
  run : st.run_id = run_id
  control : controlOf s run_id = some v
  terminal : terminalText v.status = st.status.isTerminal
  pending : v.pending = st.pending_control.map PendingRunControl.text
  counts : (tally s).counts run_id =
    some ((st.committed_step_count.toNat : Int),(st.checkpointed_step_count.toNat : Int))

theorem RunRead.now (h : Compat currentCompat r.seen s) :
    ReadNow s run_id r.st (RunRow.control r.raw) := by
  obtain ⟨grants,hp⟩ := r.facts
  obtain ⟨hrow,_⟩ := RunRead.current h
  refine ⟨hp.run_id,?_,terminalText_of_parse hp.status,?_,?_⟩
  · simp [controlOf,Table.column,hrow]
  · have hpend := hp.pending
    cases hc : r.st.pending_control with
    | none =>
      rw [hc] at hpend
      exact pending_none hpend
    | some c =>
      rw [hc] at hpend
      exact pending_some hpend
  · show s.runs.column RunRow.counts run_id = _
    rw [Table.column,hrow,toU32_ok hp.committed,toU32_ok hp.checkpointed]
    rfl

variable {st : RunState} {v : ControlView}

theorem ReadNow.pending_none (h : ReadNow s run_id st v) (hp : st.pending_control = none) :
    v.pending = none := by
  rw [h.pending,hp]
  rfl

/-- How an append may change a Run's control; a cancel stays pending. -/
inductive ControlChange (may : Prop) (s s' : RunDb) (id : RunId) : Prop where
  | same (hv : controlOf s' id = controlOf s id)
      (hc : (tally s').counts id = (tally s).counts id)
  | started (hs : controlOf s id = none) (hs' : controlOf s' id = some ⟨"preflight",none⟩)
  | stillOpen (v v' : ControlView) (hs : controlOf s id = some v)
      (hv : terminalText v.status = false) (hs' : controlOf s' id = some v')
      (hv' : terminalText v'.status = false)
      (hcancel : may → v.pending = some "cancel" → v'.pending = some "cancel")
  | closed (v : ControlView) (status : String) (hs : controlOf s id = some v)
      (hv : terminalText v.status = false) (hs' : controlOf s' id = some ⟨status,none⟩)
      (hcounts : ∃ n, (tally s').counts id = some (n,n))
      (hcancel : v.pending = some "cancel" → status = "canceled")

variable {may : Prop}

theorem ControlChange.of_row (h : s'.runs.get? id = s.runs.get? id) :
    ControlChange may s s' id := by
  refine .same ?_ ?_
  · simp [controlOf,Table.column,h]
  · simp [tally,Table.column,h]

theorem ControlChange.of_batch {b : List RunEvent} (h : s.applyEvents b = .ok s')
    (hb : ∀ e ∈ b, e.run = run_id) (hown : ControlChange may s s' run_id) (id : RunId) :
    ControlChange may s s' id := by
  by_cases hid : id = run_id
  · rw [hid]
    exact hown
  · exact .of_row (RunDb.applyEvents_run_other h (fun e he heq => hid (heq.symm.trans (hb e he))))

def Closed (s : RunDb) : Prop :=
  ∀ id v, controlOf s id = some v → terminalText v.status = true →
    v.pending = none ∧ ∃ n, (tally s).counts id = some (n,n)

theorem terminal_running (h : AtBoundary st) : st.status.isTerminal = false := by
  rcases h.running with h | h | h
  · rw [h]; rfl
  · rw [h]; rfl
  · rw [h]; rfl

theorem phase_open (phase : RunStepPhase) : terminalText phase.runStatus = false := by
  cases phase with
  | validation | preflight | context | tool | report => decide

theorem controlOf_single {e : RunEvent} (h : s.applyEvents [e] = .ok s') (he : e.run = run_id)
    (hv : controlOf s run_id = some v) : controlOf s' run_id = controlEffect e (some v) := by
  rw [applyEvents_control h,controlRun,if_pos he,hv,controlRun]

theorem ControlChange.of_single {e : RunEvent} (h : s.applyEvents [e] = .ok s') (run_id : RunId)
    (he : e.run = run_id) (hown : ControlChange may s s' run_id) (id : RunId) :
    ControlChange may s s' id := by
  refine .of_batch h ?_ hown id
  intro e' h
  rw [mem_singleton.mp h]
  exact he

theorem paused_open : terminalText "paused" = false := by decide

theorem running_open : terminalText "running" = false := by decide

theorem waiting_open : terminalText "waiting_input" = false := by decide

/-- An effect beyond its reservation, recorded while a cancel is pending. -/
def overridesCancel (s : RunDb) : HarnessCall → Prop
  | .recordEffect call report => ∃ v raw step, controlOf s call.run_id = some v ∧
      v.pending = some "cancel" ∧
      s.steps.get? ⟨call.run_id,call.step_index.toNat⟩ = some raw ∧
      parseStep call.run_id call.step_index raw = .ok step ∧ step.checkpoint = none ∧
      reservationExceededDimension report.spent step.reserved ≠ none
  | _ => False

theorem stepEvents_about (hrun : st.run_id = run_id) (plan : StepPlan) (call : AuthorizedToolCall)
    (receipt : Option GateReceipt) : ∀ e ∈ stepEvents st plan call receipt, e.run = run_id := by
  intro e he
  rcases mem_append.mp he with h | h
  · cases receipt with
    | none => cases h
    | some receipt =>
      rw [mem_singleton.mp h]
      exact hrun
  · rw [mem_singleton.mp h]
    exact hrun

variable {call : AuthorizedToolCall}

theorem step_control {plan : StepPlan} {receipt : Option GateReceipt}
    (hnow : ReadNow s run_id st v) (hat : AtBoundary st) (hpending : st.pending_control = none)
    (h : s.applyEvents (stepEvents st plan call receipt) = .ok s') :
    ControlChange may s s' run_id := by
  have hv : terminalText v.status = false := hnow.terminal.trans (terminal_running hat)
  have hpend := hnow.pending_none hpending
  have hgate : controlRun run_id (gateEvents st receipt) (some v) = some v := by
    refine controlRun_same ?_
    intro e he
    cases receipt with
    | none => cases he
    | some receipt =>
      rw [mem_singleton.mp he]
      exact Or.inr rfl
  have hs' : controlOf s' run_id = some ⟨plan.phase.runStatus,v.pending⟩ := by
    rw [applyEvents_control h,stepEvents,controlRun_append,hnow.control,hgate,controlRun]
    simp only [RunEvent.run,hnow.run,if_true]
    rfl
  refine .stillOpen v _ hnow.control hv hs' (phase_open plan.phase) ?_
  intro _ hc
  exact hc

def PendingRunControl.settled : PendingRunControl → String
  | .pause => "paused"
  | .cancel => "canceled"

variable {control : PendingRunControl}

theorem controlOf_settled
    (h : s.applyEvents (settleEvents st control) = .ok s') (hrun : st.run_id = run_id)
    (hv : controlOf s run_id = some v) :
    controlOf s' run_id = some ⟨PendingRunControl.settled control,none⟩ := by
  rw [applyEvents_control h,hv]
  cases control with
  | pause | cancel =>
    simp only [settleEvents,controlRun,RunEvent.run,hrun,if_true]
    rfl

theorem settle_control (hnow : ReadNow s run_id st v)
    (hclosed : Closed s) (hpending : st.pending_control = some control)
    (hcounts : st.committed_step_count = st.checkpointed_step_count)
    (h : s.applyEvents (settleEvents st control) = .ok s') : ControlChange may s s' run_id := by
  have hp : v.pending = some (PendingRunControl.text control) := by
    rw [hnow.pending,hpending]
    rfl
  have hv : terminalText v.status = false := by
    cases ht : terminalText v.status with
    | false => rfl
    | true =>
      have hnone := (hclosed run_id v hnow.control ht).1
      rw [hp] at hnone
      cases hnone
  have hrun := hnow.run
  have htally := applyEvents_tally_other h (settleEvents_other st control)
  cases control with
  | pause =>
    refine .stillOpen v _ hnow.control hv (controlOf_settled h hrun hnow.control) paused_open ?_
    intro _ hc
    rw [hp] at hc
    exact absurd hc (by decide)
  | cancel =>
    refine .closed v "canceled" hnow.control hv (controlOf_settled h hrun hnow.control) ?_
      (fun _ => rfl)
    rw [htally,hnow.counts,hcounts]
    exact ⟨_,rfl⟩

theorem effectEvents_about (call : AuthorizedToolCall) (report : ToolEffectReport)
    (state : RunState) (step : RunStepState) :
    ∀ e ∈ effectEvents call report state step, e.run = call.run_id := by
  intro e he
  rcases effectEvents_mem he with rfl | ⟨_,rfl⟩ | ⟨_,rfl⟩ | rfl | ⟨_,rfl⟩ <;> rfl

theorem effect_controlRun (call : AuthorizedToolCall) (report : ToolEffectReport)
    (state : RunState) (step : RunStepState) (v : ControlView) :
    controlRun call.run_id (effectEvents call report state step) (some v) =
      match reservationExceededDimension report.spent step.reserved with
      | none => some v
      | some _ => some ⟨"paused",none⟩ := by
  have hartifact : controlRun call.run_id (artifactEvents call report.artifact) (some v) = some v := by
    cases report.artifact with
    | none => rfl
    | some a => exact if_pos rfl
  have hvalidation :
      controlRun call.run_id (validationEvents call report.validation) (some v) = some v := by
    cases report.validation with
    | none => rfl
    | some a => exact if_pos rfl
  have hone : ∀ e : RunEvent, controlEffect e (some v) = some v →
      controlRun call.run_id [e] (some v) = some v := by
    intro e he
    exact controlRun_same (fun e' h => Or.inr (by rw [mem_singleton.mp h]; exact he))
  rw [effectEvents,controlRun_append,controlRun_append,controlRun_append,controlRun_append,
    hone _ rfl,hartifact,hvalidation,hone _ rfl,overReservationEvents]
  cases reservationExceededDimension report.spent step.reserved with
  | none => rfl
  | some dimension =>
    simp only [controlRun,RunEvent.run,if_true]
    rfl

theorem effect_control {report : ToolEffectReport}
    {r : RunRead call.run_id} {t : StepRead call.run_id call.step_index}
    (hseen : Compat currentCompat (r.seen ++ t.seen) s) (hok : (tally s).Ok) (hclosed : Closed s)
    (hcheckpoint : t.st.checkpoint = none)
    (h : s.applyEvents (effectEvents call report r.st t.st) = .ok s') :
    ControlChange (¬ overridesCancel s (.recordEffect call report)) s s' call.run_id := by
  have hnow := RunRead.now (r := r) (fun q a ha => hseen q a (mem_append_left _ ha))
  have hstep := StepRead.current (t := t) (fun q a ha => hseen q a (mem_append_right _ ha))
  obtain ⟨_,m,hl,_,_⟩ := effect_ledger hok h
  have hv : terminalText (RunRow.control r.raw).status = false := by
    cases ht : terminalText (RunRow.control r.raw).status with
    | false => rfl
    | true =>
      obtain ⟨_,n,hn⟩ := hclosed _ _ hnow.control ht
      have heq := hl.counts.symm.trans hn
      simp only [Option.some.injEq,Prod.mk.injEq] at heq
      omega
  have hs' := applyEvents_control h call.run_id
  rw [hnow.control,effect_controlRun] at hs'
  cases hd : reservationExceededDimension report.spent t.st.reserved with
  | none =>
    rw [hd] at hs'
    exact .stillOpen _ _ hnow.control hv hs' hv (fun _ hc => hc)
  | some dimension =>
    rw [hd] at hs'
    refine .stillOpen _ _ hnow.control hv hs' paused_open ?_
    intro hmay hc
    refine absurd ⟨_,_,_,hnow.control,hc,hstep,t.parsed,hcheckpoint,?_⟩ hmay
    rw [hd]
    simp

theorem decision_control {op : HarnessCall} {seen : List (Obs runSignature)} {b : List RunEvent}
    (hd : Decision op seen b) (hseen : Compat currentCompat seen s) (hok : (tally s).Ok)
    (hclosed : Closed s) (h : s.applyEvents b = .ok s') (id : RunId) :
    ControlChange (¬ overridesCancel s op) s s' id := by
  cases hd with
  | start h' spec runtime depth seen hbudget hlineage =>
    refine .of_single h spec.run_id rfl (.started ?_ ?_) id
    · obtain ⟨hnone,_⟩ := insertRow_ok (RunDb.applyEvent_ok (applyEvents_single h)).2.1
      simp only [controlOf,Table.column]
      exact Option.map_eq_none_iff.mpr hnone
    · rw [applyEvents_control h]
      simp [controlRun,startedEvent,RunEvent.run,controlEffect]
  | step h' run_id plan receipt r call hplan hat hpending hindex hadmits =>
    have hnow := RunRead.now hseen
    exact .of_batch h (stepEvents_about hnow.run plan call receipt)
      (step_control hnow hat hpending h) id
  | budgetPause h' run_id plan receipt r exceeded hat hpending =>
    have hnow := RunRead.now hseen
    have hv := hnow.terminal.trans (terminal_running hat)
    have hs' := controlOf_single h hnow.run hnow.control
    refine .of_single h run_id hnow.run (.stillOpen _ _ hnow.control hv hs' paused_open ?_) id
    intro _ hc
    rw [hnow.pending_none hpending] at hc
    cases hc
  | settle _ run_id r control hpending hcounts hop =>
    have hnow := RunRead.now hseen
    refine .of_batch h ?_ (settle_control hnow hclosed hpending hcounts h) id
    intro e he
    cases control with
    | pause =>
      rw [mem_singleton.mp he]
      exact hnow.run
    | cancel =>
      simp only [settleEvents,mem_cons,not_mem_nil,or_false] at he
      rcases he with rfl | rfl
      · exact hnow.run
      · exact hnow.run
  | effect call report r t hreport htarget hcheckpoint heffect =>
    exact .of_batch h (effectEvents_about call report r.st t.st)
      (effect_control hseen hok hclosed hcheckpoint h) id
  | control _ run_id reason control r hop hterminal hpending hpaused =>
    have hnow := RunRead.now hseen
    have hv := hnow.terminal.trans hterminal
    have hrun : (controlEvent run_id reason control).run = run_id := by
      cases control with
      | pause => rfl
      | cancel => rfl
    have hs' := controlOf_single h hrun hnow.control
    refine .of_single h run_id hrun ?_ id
    cases control with
    | pause =>
      refine .stillOpen _ _ hnow.control hv hs' hv ?_
      intro _ hc
      rw [hnow.pending_none hpending] at hc
      cases hc
    | cancel => exact .stillOpen _ _ hnow.control hv hs' hv (fun _ _ => rfl)
  | resume run_id r hpaused hpending =>
    have hnow := RunRead.now hseen
    have hv : terminalText (RunRow.control r.raw).status = false := by
      rw [hnow.terminal,hpaused]
      rfl
    refine .of_single h run_id rfl (.stillOpen _ _ hnow.control hv
      (controlOf_single h rfl hnow.control) running_open ?_) id
    intro _ hc
    rw [hnow.pending_none hpending] at hc
    cases hc
  | finish run_id outcome r hterminal hpaused hpending hcounts =>
    have hnow := RunRead.now hseen
    have hpend := hnow.pending_none hpending
    have hs' : controlOf s' run_id = _ := controlOf_single h rfl hnow.control
    have htally := applyEvents_tally_other h (single_other rfl)
    refine .of_single h run_id rfl (.closed _ outcome.asStatusStr hnow.control
      (hnow.terminal.trans hterminal) ?_ ?_ ?_) id
    · rw [hs',← hpend]
      rfl
    · rw [htally,hnow.counts,hcounts]
      exact ⟨_,rfl⟩
    · intro hc
      rw [hpend] at hc
      cases hc
  | taint run_id source r =>
    have hnow := RunRead.now hseen
    refine .of_single h run_id rfl (.same ?_ ?_) id
    · exact (controlOf_single h rfl hnow.control).trans hnow.control.symm
    · rw [applyEvents_tally_other h (single_other rfl)]
  | ask run_id question_id prompt r hat =>
    have hnow := RunRead.now hseen
    exact .of_single h run_id rfl (.stillOpen _ _ hnow.control
      (hnow.terminal.trans (terminal_running hat)) (controlOf_single h rfl hnow.control)
      waiting_open (fun _ hc => hc)) id
  | answer run_id question_id answered_by answer r hwaiting =>
    have hnow := RunRead.now hseen
    have hv : terminalText (RunRow.control r.raw).status = false := by
      rw [hnow.terminal,hwaiting]
      rfl
    exact .of_single h run_id rfl (.stillOpen _ _ hnow.control hv
      (controlOf_single h rfl hnow.control) running_open (fun _ hc => hc)) id

theorem Closed.change (hclosed : Closed s) (hc : ∀ id, ControlChange may s s' id) : Closed s' := by
  intro id v hv ht
  cases hc id with
  | same hsame hcounts =>
    rw [hsame] at hv
    rw [hcounts]
    exact hclosed id v hv ht
  | started hs hs' =>
    rw [hs'] at hv
    cases hv
    exact absurd ht (by decide)
  | stillOpen w w' hs hw hs' hw' hcancel =>
    rw [hs'] at hv
    cases hv
    rw [hw'] at ht
    cases ht
  | closed w status hs hw hs' hcounts hcancel =>
    rw [hs'] at hv
    cases hv
    exact ⟨rfl,hcounts⟩

def KeepsTerminal (s s' : RunDb) : Prop :=
  ∀ id v, controlOf s id = some v → terminalText v.status = true → controlOf s' id = some v

theorem keepsTerminal_change (hc : ∀ id, ControlChange may s s' id) : KeepsTerminal s s' := by
  intro id v hv ht
  cases hc id with
  | same hsame _ => rw [hsame,hv]
  | started hs _ =>
    rw [hs] at hv
    cases hv
  | stillOpen w w' hs hw hs' hw' hcancel | closed w status hs hw hs' hcounts hcancel =>
    rw [hs] at hv
    cases hv
    rw [hw] at ht
    cases ht

def CancelHeld (s : RunDb) (id : RunId) : Prop :=
  ∃ v, controlOf s id = some v ∧ (v.pending = some "cancel" ∨ v.status = "canceled")

theorem cancelHeld_change (hmay : may) {id : RunId} (hc : ControlChange may s s' id)
    (h : CancelHeld s id) : CancelHeld s' id := by
  obtain ⟨v,hv,hheld⟩ := h
  cases hc with
  | same hsame _ => exact ⟨v,by rw [hsame,hv],hheld⟩
  | started hs _ =>
    rw [hs] at hv
    cases hv
  | stillOpen w w' hs hw hs' hw' hcancel =>
    rw [hs] at hv
    cases hv
    rcases hheld with hp | hst
    · exact ⟨w',hs',Or.inl (hcancel hmay hp)⟩
    · rw [hst] at hw
      exact absurd hw (by decide)
  | closed w status hs hw hs' hcounts hcancel =>
    rw [hs] at hv
    cases hv
    rcases hheld with hp | hst
    · exact ⟨_,hs',Or.inr (hcancel hp)⟩
    · rw [hst] at hw
      exact absurd hw (by decide)

end Current

def terminalContract : Contract runSignature HarnessCall RunDb where
  compat := currentCompat
  inv s := (tally s).Ok ∧ Closed s
  may _ _ := True
  rel s _ s' := KeepsTerminal s s'

theorem terminal_meets : Meets terminalContract := by
  intro op seen b hd s s' hseen hinv _ ha
  have hc := decision_control hd hseen hinv.1 hinv.2 ha
  exact ⟨⟨decision_ledger hd (current_ledger hseen) hinv.1 ha,hinv.2.change hc⟩,
    keepsTerminal_change hc⟩

section Log
variable {s s' : RunDb} {op : HarnessCall} {seen : List (Obs runSignature)} {b : List RunEvent}

def finishesOtherwise (id : RunId) : RunEvent → Bool
  | .finishedV1 r outcome _
  | .finishedV2 r outcome _ _ _ => decide (r = id ∧ outcome ≠ .canceled)
  | _ => false

def NoLateFinish (log : List RunEvent) : Prop :=
  ∀ before after id reason, log = before ++ .cancelRequested id reason::after →
    ∀ e ∈ after, finishesOtherwise id e = false

def CancelsHeld (s : RunDb) : Prop :=
  ∀ id reason, .cancelRequested id reason ∈ s.log → CancelHeld s id

variable {id : RunId}

theorem decision_finishes (hd : Decision op seen b) (hseen : Compat currentCompat seen s)
    {e : RunEvent} (he : e ∈ b) (hf : finishesOtherwise id e = true) :
    ¬ CancelHeld s id := by
  cases hd with
  | finish run_id outcome r hterminal hpaused hpending hcounts =>
    rw [mem_singleton.mp he] at hf
    obtain ⟨rfl,_⟩ := of_decide_eq_true hf
    have hnow := RunRead.now hseen
    rintro ⟨v,hv,hheld⟩
    have heq := hnow.control.symm.trans hv
    cases heq
    rcases hheld with hp | hst
    · rw [hnow.pending_none hpending] at hp
      cases hp
    · have ht := hnow.terminal.trans hterminal
      rw [hst] at ht
      exact absurd ht (by decide)
  | step h' run_id plan receipt r call hplan hat hpending hindex hadmits =>
    rcases mem_append.mp he with h | h
    · cases receipt with
      | none => cases h
      | some receipt =>
        rw [mem_singleton.mp h] at hf
        cases hf
    · rw [mem_singleton.mp h] at hf
      cases hf
  | settle _ run_id r control hpending hcounts hop =>
    cases control with
    | pause =>
      rw [mem_singleton.mp he] at hf
      cases hf
    | cancel =>
      simp only [settleEvents,mem_cons,not_mem_nil,or_false] at he
      rcases he with rfl | rfl
      · cases hf
      · exact absurd rfl (of_decide_eq_true hf).2
  | effect call report r t hreport htarget hcheckpoint heffect =>
    rcases effectEvents_mem he with rfl | ⟨_,rfl⟩ | ⟨_,rfl⟩ | rfl | ⟨_,rfl⟩ <;> cases hf
  | control _ run_id reason control r hop hterminal hpending hpaused =>
    rw [mem_singleton.mp he] at hf
    cases control with
    | pause | cancel => cases hf
  | _ =>
    rw [mem_singleton.mp he] at hf
    cases hf

variable {reason : String}

theorem decision_requests (hd : Decision op seen b)
    (he : .cancelRequested id reason ∈ b) : b = [.cancelRequested id reason] := by
  cases hd with
  | control _ run_id reason' control r hop hterminal hpending hpaused =>
    rw [mem_singleton.mp he]
  | step h' run_id plan receipt r call hplan hat hpending hindex hadmits =>
    rcases mem_append.mp he with h | h
    · cases receipt with
      | none => cases h
      | some receipt => cases mem_singleton.mp h
    · cases mem_singleton.mp h
  | settle _ run_id r control hpending hcounts hop =>
    cases control with
    | pause => cases mem_singleton.mp he
    | cancel => simp [settleEvents] at he
  | effect call report r t hreport htarget hcheckpoint heffect =>
    rcases effectEvents_mem he with h | ⟨_,h⟩ | ⟨_,h⟩ | h | ⟨_,h⟩ <;> cases h
  | _ => cases mem_singleton.mp he

theorem request_held
    (h : s.applyEvents [.cancelRequested id reason] = .ok s') : CancelHeld s' id := by
  obtain ⟨row,hrow,_⟩ := updateOne_ok (RunDb.applyEvent_ok (applyEvents_single h)).2.1
  have hv : controlOf s id = some (RunRow.control row) := by simp [controlOf,Table.column,hrow]
  exact ⟨_,controlOf_single h rfl hv,Or.inl rfl⟩

theorem decision_cancelsHeld (hd : Decision op seen b)
    (hc : ∀ id, ControlChange (¬ overridesCancel s op) s s' id) (hmay : ¬ overridesCancel s op)
    (hheld : CancelsHeld s) (h : s.applyEvents b = .ok s') : CancelsHeld s' := by
  intro id reason hmem
  rw [RunDb.applyEvents_log h] at hmem
  rcases mem_append.mp hmem with hin | hin
  · exact cancelHeld_change hmay (hc id) (hheld id reason hin)
  · have hb := decision_requests hd hin
    rw [hb] at h
    exact request_held h

theorem decision_noLateFinish (hd : Decision op seen b) (hseen : Compat currentCompat seen s)
    (hheld : CancelsHeld s) (hlog : NoLateFinish s.log) (h : s.applyEvents b = .ok s') :
    NoLateFinish s'.log := by
  intro before after id reason heq e he
  rw [RunDb.applyEvents_log h] at heq
  rcases append_eq_append_iff.mp heq with ⟨mid,hmid,hb⟩ | ⟨mid,hmid,hb⟩
  · -- the request is in the new batch, which then holds nothing else
    have hmem : .cancelRequested id reason ∈ b := by simp [hb]
    have hone := decision_requests hd hmem
    rw [hone] at hb
    cases mid with
    | nil =>
      simp only [nil_append,List.cons.injEq] at hb
      rw [← hb.2] at he
      cases he
    | cons x mid => simp at hb
  · cases mid with
    | nil =>
      rw [nil_append] at hb
      have hmem : .cancelRequested id reason ∈ b := by simp [← hb]
      have hone := decision_requests hd hmem
      rw [hone] at hb
      simp only [List.cons.injEq,true_and] at hb
      rw [hb] at he
      cases he
    | cons x mid =>
      simp only [cons_append,List.cons.injEq] at hb
      obtain ⟨rfl,rfl⟩ := hb
      rcases mem_append.mp he with hin | hin
      · exact hlog before mid id reason hmid e hin
      · cases hf : finishesOtherwise id e with
        | false => rfl
        | true =>
          have hreq : .cancelRequested id reason ∈ s.log := by simp [hmid]
          exact absurd (hheld id reason hreq) (decision_finishes hd hseen hin hf)

end Log

def cancelContract : Contract runSignature HarnessCall RunDb where
  compat := currentCompat
  inv s := ((tally s).Ok ∧ Closed s) ∧ CancelsHeld s ∧ NoLateFinish s.log
  may s op := ¬ overridesCancel s op
  rel _ _ _ := True

theorem cancel_meets : Meets cancelContract := by
  intro op seen b hd s s' hseen hinv hmay ha
  have hc := decision_control hd hseen hinv.1.1 hinv.1.2 ha
  refine ⟨⟨(terminal_meets op seen b hd s s' hseen hinv.1 trivial ha).1,?_,?_⟩,trivial⟩
  · exact decision_cancelsHeld hd hc hmay hinv.2.1 ha
  · exact decision_noLateFinish hd hseen hinv.2.1 hinv.2.2 ha

theorem empty_closed : (tally RunDb.empty).Ok ∧ Closed RunDb.empty :=
  ⟨empty_tally,fun _ _ h _ => by cases h⟩

theorem empty_cancels : CancelsHeld RunDb.empty ∧ NoLateFinish RunDb.empty.log := by
  constructor
  · intro id reason h
    cases h
  · intro before after id reason h
    cases before with
    | nil | cons => cases h

end ProjectOS.Agents
