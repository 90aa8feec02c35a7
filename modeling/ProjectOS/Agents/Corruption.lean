import ProjectOS.Agents.Interleavings

/-! No harness operation that decided on current rows writes a Run row that does
not read back. -/

namespace ProjectOS.Agents
open Lib Lib.Optimistic Domain RunHarness List

/-- A row that a read accepts, within its budget. -/
structure RowOk (s : RunDb) (id : RunId) (row : RunRow) : Prop where
  shape : RowShape row
  quota : RowQuota row
  reserved : ∀ step, s.steps.get? ⟨id,row.checkpointed_step_count.toNat⟩ = some step →
    (row.spent.add step.reserved).Le row.budget

def RunOk (s : RunDb) (id : RunId) : Prop := ∀ row, s.runs.get? id = some row → RowOk s id row

section
variable {s s' : RunDb} {id run_id : RunId} {b : List RunEvent}

theorem RunOk.other (hok : ∀ id, RunOk s id) (h : s.applyEvents b = .ok s')
    (hb : ∀ e ∈ b, e.run = run_id) (hown : RunOk s' run_id) (id : RunId) : RunOk s' id := by
  by_cases hid : id = run_id
  · rw [hid]
    exact hown
  · have hne : ∀ e ∈ b, e.run ≠ id := fun e he heq => hid (heq.symm.trans (hb e he))
    intro row hrow
    rw [RunDb.applyEvents_run_other h hne] at hrow
    obtain ⟨hs,hq,hr⟩ := hok id row hrow
    refine ⟨hs,hq,?_⟩
    intro step hstep
    rw [RunDb.applyEvents_steps_other h hne] at hstep
    exact hr step hstep

variable {row : RunRow} {row' : RunRow}

theorem RowOk.quiet (hok : RowOk s id row) (hsteps : s'.steps = s.steps)
    (hshape : RowShape row') (hcommitted : row'.committed_step_count = row.committed_step_count)
    (hcheckpointed : row'.checkpointed_step_count = row.checkpointed_step_count)
    (hbudget : row'.budget = row.budget) (hspent : row'.spent = row.spent) : RowOk s' id row' := by
  have hq := hok.quota
  refine ⟨hshape,⟨?_,?_,?_,?_,?_⟩,?_⟩
  · rw [hbudget]
    exact hq.budget
  · rw [hspent]
    exact hq.spent
  · rw [hcheckpointed,hspent]
    exact hq.checkpointed
  · rw [hcommitted,hbudget]
    exact hq.committed
  · rw [hbudget]
    exact hq.cap
  · rw [hsteps,hcheckpointed,hspent,hbudget]
    exact hok.reserved

theorem steps_quiet (h : s.applyEvents b = .ok s')
    (hb : ∀ e ∈ b, ∀ seq, runStepsProjection seq e = .nothing) : s'.steps = s.steps := by
  refine RunDb.applyEvents_keep (fun t => t.steps = s.steps) (fun e he u t hut hu => ?_) h rfl
  have hsteps := (RunDb.applyEvent_ok hut).2.2.2
  rw [hb e he] at hsteps
  exact (Except.ok.inj hsteps).symm.trans hu

variable {e : RunEvent}

theorem single_row (h : s.applyEvents [e] = .ok s') (he : e.run = id)
    (hrow : s.runs.get? id = some row) :
    s'.runs.get? id = (runsProjection (s.head+1) e).onRow (some row) := by
  rw [RunDb.applyEvents_row h,rowRun,if_pos he,hrow,rowRun]

/-- A read that succeeds tells the row as it is. -/
structure SoundRead (s : RunDb) (run_id : RunId) (raw : RunRow) (st : RunState) : Prop where
  row : s.runs.get? run_id = some raw
  ok : RowOk s run_id raw
  run : st.run_id = run_id
  status : raw.status = st.status.text
  pause : PauseMatches st.status raw.pause
  finished : st.status.isTerminal = true → raw.finished_seq.isSome = true
  spent : usageValues st.spent = raw.spent
  spentNat : raw.spent.Holds st.spent
  budgetNat : raw.budget.Holds st.budget
  counts : (st.committed_step_count.toNat : Int) = raw.committed_step_count ∧
    (st.checkpointed_step_count.toNat : Int) = raw.checkpointed_step_count
  validation : parseValidation raw.validation_id raw.validation_status = .ok st.validation

theorem text_of_parse {raw : String} {st0 st : RunStatus} (h0 : raw = st0.text)
    (h : parseStatus raw = .ok st) : st0 = st := by
  rw [h0,parseStatus_text] at h
  exact Except.ok.inj h

theorem RunRead.sound {r : RunRead run_id} (hseen : Compat currentCompat r.seen s)
    (hok : ∀ id, RunOk s id) : SoundRead s run_id r.raw r.st := by
  obtain ⟨grants,hp⟩ := r.facts
  obtain ⟨hrow,_⟩ := RunRead.current hseen
  have hrowok := hok run_id r.raw hrow
  obtain ⟨st0,htext,hpause,hfin⟩ := hrowok.shape.status
  have hst := text_of_parse htext hp.status
  subst hst
  have hspent := usageFrom_ok hp.spent hrowok.quota.spent
  exact ⟨hrow,hrowok,hp.run_id,htext,hpause,hfin,usageValues_of_holds hspent hrowok.quota.spent,
    hspent,usageFrom_ok hp.budget hrowok.quota.budget,
    ⟨toU32_ok hp.committed,toU32_ok hp.checkpointed⟩,hp.validation⟩

variable {raw : RunRow} {st : RunState}

theorem SoundRead.clear (h : SoundRead s run_id raw st) (hne : st.status ≠ .paused) :
    raw.pause = clearPauseAssignments := by
  rcases h.pause with ⟨hp,_⟩ | ⟨_,hp⟩
  · exact absurd hp hne
  · exact hp

theorem boundary_not_paused (h : AtBoundary st) : st.status ≠ .paused := by
  rcases h.running with h | h | h
  · rw [h]; decide
  · rw [h]; decide
  · rw [h]; decide

/-- A question is open exactly while the Run waits, at a boundary with no control
pending. -/
structure QuestionOk (row : RunRow) : Prop where
  waiting : row.status = "waiting_input" ↔ row.question_id.isSome = true
  prompt : row.question_id.isSome = row.question_prompt.isSome
  settled : row.status = "waiting_input" →
    row.pending_control = none ∧ row.committed_step_count = row.checkpointed_step_count

/-- A control or a finish while the Run waits for input, or a question while a
control is pending: nothing closes the question later. -/
def strandsQuestion (s : RunDb) : HarnessCall → Prop
  | .requestPause run_id _ | .requestCancel run_id _ | .finish run_id _ =>
    ∃ row, s.runs.get? run_id = some row ∧ row.status = "waiting_input"
  | .askQuestion run_id _ _ => ∃ row, s.runs.get? run_id = some row ∧ row.pending_control ≠ none
  | _ => False

theorem QuestionOk.moved (h : QuestionOk row) (hid : row'.question_id = row.question_id)
    (hprompt : row'.question_prompt = row.question_prompt) (hst : row.status ≠ "waiting_input")
    (hst' : row'.status ≠ "waiting_input") : QuestionOk row' := by
  refine ⟨?_,?_,fun h => absurd h hst'⟩
  · rw [hid]
    exact ⟨fun h => absurd h hst',fun hs => absurd (h.waiting.mpr hs) hst⟩
  · rw [hid,hprompt]
    exact h.prompt

theorem text_waiting {st : RunStatus} (h : st.text = "waiting_input") : st = .waitingInput := by
  cases st <;> first | rfl | exact absurd h (by decide)

theorem text_not_waiting (st : RunStatus) (h : st ≠ .waitingInput) : st.text ≠ "waiting_input" :=
  fun hw => h (text_waiting hw)

theorem SoundRead.not_waiting (h : SoundRead s run_id raw st) (hne : st.status ≠ .waitingInput) :
    raw.status ≠ "waiting_input" := by
  rw [h.status]
  exact text_not_waiting st.status hne

theorem boundary_not_waiting (h : AtBoundary st) : st.status ≠ .waitingInput := by
  rcases h.running with h | h | h
  · rw [h]; decide
  · rw [h]; decide
  · rw [h]; decide

structure RowChange (s s' : RunDb) (op : HarnessCall) (b : List RunEvent) (run_id : RunId)
    (row : RunRow) : Prop where
  about : ∀ e ∈ b, e.run = run_id
  now : s'.runs.get? run_id = some row
  ok : RowOk s' run_id row
  question : ¬ strandsQuestion s op →
    (∀ old, s.runs.get? run_id = some old → QuestionOk old) → QuestionOk row

theorem about_single (he : e.run = run_id) : ∀ e' ∈ [e], e'.run = run_id := by
  intro e' h
  rw [mem_singleton.mp h]
  exact he

theorem no_outstanding (hok : (tally s).Ok) (hrow : s.runs.get? id = some row)
    (hcounts : row.committed_step_count = row.checkpointed_step_count) :
    s.steps.get? ⟨id,row.checkpointed_step_count.toNat⟩ = none := by
  have hc : (tally s).counts id = some (RunRow.counts row) := by
    show s.runs.column RunRow.counts id = _
    rw [Table.column,hrow]
    rfl
  rcases hok id with ha | ⟨n,m,hl⟩
  · rw [ha.counts] at hc
    cases hc
  · have heq := hl.counts.symm.trans hc
    simp only [RunRow.counts,Option.some.injEq,Prod.mk.injEq] at heq
    have hf := hl.flags row.checkpointed_step_count.toNat
    rw [if_neg (by omega)] at hf
    exact Option.map_eq_none_iff.mp hf

theorem RowOk.settled (hok : (tally s).Ok) (hrow : s.runs.get? id = some row)
    (hcounts : row.committed_step_count = row.checkpointed_step_count) (hshape : RowShape row)
    (hquota : RowQuota row) : RowOk s id row := by
  refine ⟨hshape,hquota,?_⟩
  intro step hstep
  rw [no_outstanding hok hrow hcounts] at hstep
  cases hstep

variable {op : HarnessCall}

theorem RowChange.of_single (hr : SoundRead s run_id raw st) (h : s.applyEvents [e] = .ok s')
    (he : e.run = run_id) (hquiet : ∀ seq, runStepsProjection seq e = .nothing)
    (hrow : (runsProjection (s.head+1) e).onRow (some raw) = some row) (hshape : RowShape row)
    (hcommitted : row.committed_step_count = raw.committed_step_count)
    (hcheckpointed : row.checkpointed_step_count = raw.checkpointed_step_count)
    (hbudget : row.budget = raw.budget) (hspent : row.spent = raw.spent)
    (hquestion : ¬ strandsQuestion s op → QuestionOk raw → QuestionOk row) :
    RowChange s s' op [e] run_id row := by
  have hsteps : s'.steps = s.steps := by
    refine steps_quiet h ?_
    intro e' h seq
    rw [mem_singleton.mp h]
    exact hquiet seq
  refine ⟨about_single he,(single_row h he hr.row).trans hrow,?_,?_⟩
  · exact hr.ok.quiet hsteps hshape hcommitted hcheckpointed hbudget hspent
  · intro hmay hold
    exact hquestion hmay (hold raw hr.row)

variable {at_step_index : UInt32}

theorem paused_change {cause : RunPauseCause}
    (hr : SoundRead s run_id raw st) (hq : QuestionOk raw → raw.status ≠ "waiting_input")
    (h : s.applyEvents [.paused st.run_id at_step_index cause st.spent] = .ok s') :
    ∃ row, RowChange s s' op [.paused st.run_id at_step_index cause st.spent] run_id row := by
  have hs := hr.ok.shape
  refine ⟨_,.of_single hr h hr.run (fun _ => rfl) rfl ?_ rfl rfl rfl hr.spent ?_⟩
  · exact ⟨⟨.paused,rfl,Or.inl ⟨rfl,cause,rfl⟩,fun ht => by cases ht⟩,Or.inl ⟨rfl,rfl⟩,
      hs.validation,hs.autonomy,hs.lineage,hs.tainted,hs.started,hs.finished⟩
  · intro _ ho
    exact ho.moved rfl rfl (hq ho) (text_not_waiting .paused (by decide))

theorem pending_not_waiting (hpending : raw.pending_control ≠ none) (h : QuestionOk raw) :
    raw.status ≠ "waiting_input" :=
  fun hw => hpending (h.settled hw).1

theorem control_change {reason : String} {control : PendingRunControl}
    (hr : SoundRead s run_id raw st) (hop : op = .requestPause run_id reason ∧ control = .pause ∨
      op = .requestCancel run_id reason ∧ control = .cancel)
    (h : s.applyEvents [controlEvent run_id reason control] = .ok s') :
    ∃ row, RowChange s s' op [controlEvent run_id reason control] run_id row := by
  have hs := hr.ok.shape
  have hwait : ¬ strandsQuestion s op → raw.status ≠ "waiting_input" := by
    intro hmay hw
    rcases hop with ⟨rfl,_⟩ | ⟨rfl,_⟩
    · exact hmay ⟨raw,hr.row,hw⟩
    · exact hmay ⟨raw,hr.row,hw⟩
  cases control with
  | pause =>
    refine ⟨_,.of_single hr h rfl (fun _ => rfl) rfl ?_ rfl rfl rfl rfl ?_⟩
    · exact ⟨hs.status,Or.inr ⟨.pause,reason,rfl,rfl⟩,hs.validation,hs.autonomy,hs.lineage,
        hs.tainted,hs.started,hs.finished⟩
    · intro hmay ho
      exact ho.moved rfl rfl (hwait hmay) (hwait hmay)
  | cancel =>
    refine ⟨_,.of_single hr h rfl (fun _ => rfl) rfl ?_ rfl rfl rfl rfl ?_⟩
    · exact ⟨hs.status,Or.inr ⟨.cancel,reason,rfl,rfl⟩,hs.validation,hs.autonomy,hs.lineage,
        hs.tainted,hs.started,hs.finished⟩
    · intro hmay ho
      exact ho.moved rfl rfl (hwait hmay) (hwait hmay)

theorem resume_change (hr : SoundRead s run_id raw st)
    (hpaused : st.status = .paused) (h : s.applyEvents [.resumed run_id at_step_index] = .ok s') :
    ∃ row, RowChange s s' op [.resumed run_id at_step_index] run_id row := by
  have hs := hr.ok.shape
  refine ⟨_,.of_single hr h rfl (fun _ => rfl) rfl ?_ rfl rfl rfl rfl ?_⟩
  · exact ⟨⟨.running,rfl,Or.inr ⟨by decide,rfl⟩,fun ht => by cases ht⟩,Or.inl ⟨rfl,rfl⟩,
      hs.validation,hs.autonomy,hs.lineage,hs.tainted,hs.started,hs.finished⟩
  · intro _ ho
    have hne := hr.not_waiting (by rw [hpaused]; decide)
    exact ho.moved rfl rfl hne (text_not_waiting .running (by decide))

theorem integerU64_some (seq : Nat) :
    ∀ f, some (integerU64 seq) = some f → 0 ≤ f ∧ f ≤ i64Max := by
  rintro f ⟨⟩
  exact ⟨integerU64_nonneg _,integerU64_le _⟩

theorem outcome_text (outcome : RunOutcome) :
    ∃ st : RunStatus, outcome.asStatusStr = st.text ∧ st ≠ .paused ∧ st ≠ .waitingInput := by
  cases outcome with
  | completed => exact ⟨.done,rfl,by decide,by decide⟩
  | failed => exact ⟨.failed,rfl,by decide,by decide⟩
  | canceled => exact ⟨.canceled,rfl,by decide,by decide⟩

section
variable (hr : SoundRead s run_id raw st)
include hr

theorem finish_change {outcome : RunOutcome} {steps_total : UInt32} (hpaused : st.status ≠ .paused)
    (h : s.applyEvents [.finishedV2 run_id outcome steps_total st.spent st.validation] = .ok s') :
    ∃ row, RowChange s s' (.finish run_id outcome)
      [.finishedV2 run_id outcome steps_total st.spent st.validation] run_id row := by
  have hs := hr.ok.shape
  have hclear := hr.clear hpaused
  obtain ⟨status,htext,hne,hwait⟩ := outcome_text outcome
  have hquestion : ∀ row : RunRow, row.status = outcome.asStatusStr →
      row.question_id = raw.question_id → row.question_prompt = raw.question_prompt →
      ¬ strandsQuestion s (.finish run_id outcome) → QuestionOk raw → QuestionOk row := by
    intro row hst hid hprompt hmay ho
    refine ho.moved hid hprompt (fun hw => hmay ⟨raw,hr.row,hw⟩) ?_
    rw [hst,htext]
    exact text_not_waiting status hwait
  have hstatus : ∃ st : RunStatus, outcome.asStatusStr = st.text ∧ PauseMatches st raw.pause ∧
      (st.isTerminal = true → (some (integerU64 (s.head+1))).isSome = true) :=
    ⟨status,htext,Or.inr ⟨hne,hclear⟩,fun _ => rfl⟩
  cases hv : st.validation with
  | none =>
    rw [hv] at h
    refine ⟨_,.of_single hr h rfl (fun _ => rfl) rfl ?_ rfl rfl rfl hr.spent
      (hquestion _ rfl rfl rfl)⟩
    exact ⟨hstatus,hs.pending,hs.validation,hs.autonomy,hs.lineage,hs.tainted,hs.started,
      integerU64_some _⟩
  | some v =>
    rw [hv] at h
    refine ⟨_,.of_single hr h rfl (fun _ => rfl) rfl ?_ rfl rfl rfl hr.spent
      (hquestion _ rfl rfl rfl)⟩
    exact ⟨hstatus,hs.pending,⟨some v,rfl,rfl⟩,hs.autonomy,hs.lineage,hs.tainted,hs.started,
      integerU64_some _⟩

theorem taint_change {source : String} (h : s.applyEvents [.taintRaised run_id source] = .ok s') :
    ∃ row, RowChange s s' op [.taintRaised run_id source] run_id row := by
  have hs := hr.ok.shape
  refine ⟨_,.of_single hr h rfl (fun _ => rfl) rfl ?_ rfl rfl rfl rfl ?_⟩
  · exact ⟨hs.status,hs.pending,hs.validation,hs.autonomy,hs.lineage,Or.inr rfl,hs.started,
      hs.finished⟩
  · intro _ ho
    exact ⟨ho.waiting,ho.prompt,ho.settled⟩

variable {question_id : QuestionId}

theorem ask_change {prompt : String}
    (hat : AtBoundary st) (h : s.applyEvents [.questionAsked run_id question_id prompt] = .ok s') :
    ∃ row, RowChange s s' (.askQuestion run_id question_id prompt)
      [.questionAsked run_id question_id prompt] run_id row := by
  have hs := hr.ok.shape
  have hclear := hr.clear (boundary_not_paused hat)
  refine ⟨_,.of_single hr h rfl (fun _ => rfl) rfl ?_ rfl rfl rfl rfl ?_⟩
  · exact ⟨⟨.waitingInput,rfl,Or.inr ⟨by decide,hclear⟩,fun ht => by cases ht⟩,hs.pending,
      hs.validation,hs.autonomy,hs.lineage,hs.tainted,hs.started,hs.finished⟩
  · intro hmay ho
    refine ⟨⟨fun _ => rfl,fun _ => rfl⟩,rfl,fun _ => ⟨?_,?_⟩⟩
    · by_contra hp
      exact hmay ⟨raw,hr.row,hp⟩
    · show raw.committed_step_count = raw.checkpointed_step_count
      rw [← hr.counts.1,← hr.counts.2,hat.counts]

theorem answer_change {answered_by : UserId} {answer : String}
    (hwaiting : st.status = .waitingInput)
    (h : s.applyEvents [.questionAnswered run_id question_id answered_by answer] = .ok s') :
    ∃ row, RowChange s s' op [.questionAnswered run_id question_id answered_by answer] run_id row := by
  have hs := hr.ok.shape
  have hclear := hr.clear (by rw [hwaiting]; decide)
  have hrunning := text_not_waiting .running (by decide)
  refine ⟨_,.of_single hr h rfl (fun _ => rfl) rfl ?_ rfl rfl rfl rfl ?_⟩
  · exact ⟨⟨.running,rfl,Or.inr ⟨by decide,hclear⟩,fun ht => by cases ht⟩,hs.pending,
      hs.validation,hs.autonomy,hs.lineage,hs.tainted,hs.started,hs.finished⟩
  · intro _ ho
    exact ⟨⟨fun hw => absurd hw hrunning,fun hw => by cases hw⟩,rfl,fun hw => absurd hw hrunning⟩

theorem settle_change {control : PendingRunControl}
    (hpending : raw.pending_control ≠ none) (h : s.applyEvents (settleEvents st control) = .ok s') :
    ∃ row, RowChange s s' op (settleEvents st control) run_id row := by
  have hs := hr.ok.shape
  cases control with
  | pause => exact paused_change hr (pending_not_waiting hpending) h
  | cancel =>
    have habout : ∀ e ∈ settleEvents st .cancel, e.run = run_id := by
      intro e he
      simp only [settleEvents,mem_cons,not_mem_nil,or_false] at he
      rcases he with rfl | rfl
      · exact hr.run
      · exact hr.run
    have hsteps : s'.steps = s.steps := by
      refine steps_quiet h ?_
      intro e he seq
      simp only [settleEvents,mem_cons,not_mem_nil,or_false] at he
      rcases he with rfl | rfl
      · rfl
      · rfl
    have hrow : s'.runs.get? run_id = some
        { raw with
          status := "canceled", pending_control := none, control_reason := none,
          finished_seq := some (integerU64 (s.head+1+1)), pause := clearPauseAssignments,
          spent := usageValues st.spent } := by
      rw [RunDb.applyEvents_row h,hr.row]
      simp only [settleEvents,rowRun,RunEvent.run,hr.run,if_true]
      rfl
    refine ⟨_,habout,hrow,?_,?_⟩
    · refine hr.ok.quiet hsteps ?_ rfl rfl rfl hr.spent
      exact ⟨⟨.canceled,rfl,Or.inr ⟨by decide,rfl⟩,fun _ => rfl⟩,Or.inl ⟨rfl,rfl⟩,hs.validation,
        hs.autonomy,hs.lineage,hs.tainted,hs.started,integerU64_some _⟩
    · intro _ hold
      have ho := hold raw hr.row
      exact ho.moved rfl rfl (pending_not_waiting hpending ho)
        (text_not_waiting .canceled (by decide))

end

theorem start_change {h' : RunHarness} {spec : RunStartSpec} {runtime : RuntimeDescriptor}
    {depth : UInt8} (hbudget : validateBudget spec.budget = .ok ()) (hok : (tally s').Ok)
    (h : s.applyEvents [startedEvent h' spec runtime depth] = .ok s') :
    ∃ row, RowChange s s' op [startedEvent h' spec runtime depth] spec.run_id row := by
  have hrun : (startedEvent h' spec runtime depth).run = spec.run_id := rfl
  have hrow := RunDb.applyEvents_row h spec.run_id
  rw [rowRun,if_pos hrun,rowRun] at hrow
  have hpreflight := text_not_waiting .preflight (by decide)
  refine ⟨_,about_single hrun,hrow,RowOk.settled hok hrow rfl ?_ ?_,?_⟩
  · refine ⟨⟨.preflight,rfl,Or.inr ⟨by decide,rfl⟩,fun ht => by cases ht⟩,Or.inl ⟨rfl,rfl⟩,
      ⟨spec.validation,rfl,rfl⟩,?_,?_,?_,⟨integerU64_nonneg _,integerU64_le _⟩,fun f hf => by cases hf⟩
    · have hlt := spec.autonomy_level.value.toNat_lt
      exact ⟨Int.natCast_nonneg _,by simp only [runValuesV2,u8Max]; omega⟩
    · have hlt := depth.toNat_lt
      exact ⟨Int.natCast_nonneg _,by simp only [runValuesV2,u8Max]; omega⟩
    · simp only [runValuesV2]
      split
      · exact Or.inr rfl
      · exact Or.inl rfl
  · have hcap := (validateBudget_ok hbudget).1
    refine ⟨usageValues_inRange _,usageValues_inRange _,rfl,⟨le_refl _,?_⟩,?_⟩
    · exact (usageValues_inRange _).steps.1
    · simp only [runValuesV2,usageValues,integerU32]
      omega
  · intro _ _
    exact ⟨⟨fun hw => absurd hw hpreflight,fun hw => by cases hw⟩,rfl,
      fun hw => absurd hw hpreflight⟩

theorem admitted_le {spent budget : UsageCols} {used limit requested : RunUsage}
    (hs : spent.Holds used) (hb : budget.Holds limit) (h : Admitted limit used requested) :
    (spent.add (usageValues requested)).Le budget := by
  have key : ∀ {a b c : Nat} {x y z : Int}, (a : Int) = x → (b : Int) = y → z ≤ c → a+c ≤ b →
      x+z ≤ y := by omega
  exact ⟨key hs.tokens hb.tokens (integerU64_le_self _) h.tokens,
    key hs.usd_micros hb.usd_micros (integerU64_le_self _) h.usd_micros,
    key hs.wall_ms hb.wall_ms (integerU64_le_self _) h.wall_ms,
    key hs.storage_bytes hb.storage_bytes (integerU64_le_self _) h.storage_bytes,
    key hs.tool_calls hb.tool_calls (le_refl _) h.tool_calls,
    key hs.retries hb.retries (le_refl _) h.retries,
    key hs.steps hb.steps (le_refl _) h.steps⟩

theorem usageValues_le {cols : UsageCols} {table word : String} {limit used : RunUsage}
    (h : usageFrom cols table word = .ok limit) (hfits : Fits used limit) :
    (usageValues used).Le cols := by
  have key : ∀ {a b : Nat} {x y : Int}, a ≤ b → x ≤ a → (b : Int) ≤ y → x ≤ y := by omega
  obtain ⟨_,h1,h⟩ := bind_ok h
  obtain ⟨_,h2,h⟩ := bind_ok h
  obtain ⟨_,h3,h⟩ := bind_ok h
  obtain ⟨_,h4,h⟩ := bind_ok h
  obtain ⟨_,h5,h⟩ := bind_ok h
  obtain ⟨_,h6,h⟩ := bind_ok h
  obtain ⟨_,h7,h⟩ := bind_ok h
  cases h
  exact ⟨key hfits.tokens (integerU64_le_self _) (toU64_le h1),
    key hfits.usd_micros (integerU64_le_self _) (toU64_le h2),
    key hfits.wall_ms (integerU64_le_self _) (toU64_le h3),
    key hfits.storage_bytes (integerU64_le_self _) (toU64_le h4),
    key hfits.tool_calls (le_refl _) (toU32_ok h5).le,
    key hfits.retries (le_refl _) (toU32_ok h6).le,
    key hfits.steps (le_refl _) (toU32_ok h7).le⟩

variable {receipt : Option GateReceipt}

theorem gate_quiet
    (h : s.applyEvents (gateEvents st receipt) = .ok s') (id : RunId) :
    s'.runs.get? id = s.runs.get? id ∧ s'.steps = s.steps := by
  constructor
  · rw [RunDb.applyEvents_row h]
    cases receipt with
    | none => rfl
    | some receipt =>
      rw [gateEvents,rowRun,rowRun]
      exact ite_self _
  · refine steps_quiet h ?_
    intro e he seq
    cases receipt with
    | none => cases he
    | some receipt =>
      rw [mem_singleton.mp he]
      rfl

variable {plan : StepPlan}

theorem validateStepPlan_ok (h : validateStepPlan plan = .ok ()) :
    plan.reserved.steps = 1 := by
  unfold validateStepPlan at h
  split at h
  · cases h
  split at h
  · cases h
  rename_i hne
  by_contra hs
  exact hne (Or.inl hs)

theorem phase_text (phase : RunStepPhase) : ∃ st : RunStatus, phase.runStatus = st.text ∧
    st ≠ .paused ∧ st ≠ .waitingInput ∧ st.isTerminal = false := by
  cases phase with
  | preflight => exact ⟨.preflight,rfl,by decide,by decide,rfl⟩
  | validation => exact ⟨.validating,rfl,by decide,by decide,rfl⟩
  | context | tool | report => exact ⟨.running,rfl,by decide,by decide,rfl⟩

variable {call : AuthorizedToolCall}

theorem step_change
    (hr : SoundRead s run_id raw st) (hplan : validateStepPlan plan = .ok ())
    (hat : AtBoundary st) (hindex : plan.step_index = st.committed_step_count)
    (hadmits : admitUsage st.budget st.spent RunUsage.default plan.reserved = .ok ())
    (h : s.applyEvents (stepEvents st plan call receipt) = .ok s') :
    ∃ row, RowChange s s' op (stepEvents st plan call receipt) run_id row := by
  have habout := stepEvents_about hr.run plan call receipt
  obtain ⟨mid,h1,h2⟩ := applyEvents_append h
  obtain ⟨hmid,hsteps⟩ := gate_quiet h1 run_id
  rw [hr.row] at hmid
  have hrow := single_row h2 hr.run hmid
  obtain ⟨_,hput⟩ := insertRow_ok (RunDb.applyEvent_ok (applyEvents_single h2)).2.2.2
  have hs := hr.ok.shape
  have hq := hr.ok.quota
  have hle := admitted_le hr.spentNat hr.budgetNat (admitUsage_ok hadmits)
  have hclear := hr.clear (boundary_not_paused hat)
  obtain ⟨status,htext,hpaused,hwait,hterminal⟩ := phase_text plan.phase
  have hcounts : raw.committed_step_count = raw.checkpointed_step_count := by
    rw [← hr.counts.1,← hr.counts.2,hat.counts]
  refine ⟨_,habout,hrow,⟨?_,⟨hq.budget,hq.spent,hq.checkpointed,?_,hq.cap⟩,?_⟩,?_⟩
  · refine ⟨⟨status,htext,Or.inr ⟨hpaused,hclear⟩,?_⟩,hs.pending,hs.validation,hs.autonomy,
      hs.lineage,hs.tainted,hs.started,hs.finished⟩
    intro ht
    rw [hterminal] at ht
    cases ht
  · show 0 ≤ raw.committed_step_count+1 ∧ raw.committed_step_count+1 ≤ raw.budget.steps
    have hone : raw.spent.steps+1 ≤ raw.budget.steps := by
      have hsteps := hle.steps
      rw [UsageCols.add,usageValues,validateStepPlan_ok hplan] at hsteps
      exact hsteps
    have h0 := hq.committed.1
    have hc := hq.checkpointed
    omega
  · intro step hstep
    have hkey : (⟨run_id,raw.checkpointed_step_count.toNat⟩ : StepKey) =
        ⟨st.run_id,plan.step_index.toNat⟩ := by
      rw [hr.run,hindex,hat.counts,← hr.counts.2]
      rfl
    have hnew : s'.steps.get? ⟨run_id,raw.checkpointed_step_count.toNat⟩ = some step := hstep
    rw [hput,hkey,Table.get?_put_self] at hnew
    cases hnew
    exact hle
  · intro _ hold
    refine (hold raw hr.row).moved rfl rfl (hr.not_waiting (boundary_not_waiting hat)) ?_
    show plan.phase.runStatus ≠ "waiting_input"
    rw [htext]
    exact text_not_waiting status hwait

def recordedRow (raw : RunRow) (call : AuthorizedToolCall) (report : ToolEffectReport) : RunRow :=
  { raw with
    spent := raw.spent.add (usageValues report.spent),
    validation_id := (report.validation.map ValidationReport.validation_id).or raw.validation_id,
    validation_status :=
      (report.validation.map fun v => v.status.asStr).or raw.validation_status,
    checkpointed_step_count := raw.checkpointed_step_count+1,
    checkpoint_id := some (checkpointId call.call_id),
    checkpoint_step_index := some (integerU32 call.step_index.toNat) }

def overrunRow (raw : RunRow) (call : AuthorizedToolCall) (report : ToolEffectReport)
    (st : RunState) (dimension : RunBudgetDimension) : RunRow :=
  { recordedRow raw call report with
    status := "paused", pending_control := none, control_reason := none,
    pause := pauseAssignments (.reservationExceeded dimension),
    spent := usageValues (saturatingUsageAdd st.spent report.spent) }

theorem effect_row (raw : RunRow) (call : AuthorizedToolCall) (report : ToolEffectReport)
    (st : RunState) (step : RunStepState) (seq : Nat) :
    rowRun call.run_id seq (effectEvents call report st step) (some raw) =
      some (match reservationExceededDimension report.spent step.reserved with
        | none => recordedRow raw call report
        | some dimension => overrunRow raw call report st dimension) := by
  obtain ⟨output_digest,checkpoint_digest,spent,artifact,validation⟩ := report
  unfold effectEvents overReservationEvents
  cases artifact <;> cases validation <;>
    cases reservationExceededDimension spent step.reserved <;>
    simp only [artifactEvents,validationEvents,cons_append,nil_append,append_nil,
      rowRun,RunEvent.run,if_true] <;>
    rfl

variable {report : ToolEffectReport}

theorem validateEffectReport_ok (h : validateEffectReport report = .ok ()) :
    report.spent.steps = 1 := by
  unfold validateEffectReport at h
  split at h
  · cases h
  rename_i hne
  by_contra hs
  exact hne (Or.inl hs)

theorem recordedRow_shape (hs : RowShape raw) (call : AuthorizedToolCall)
    (report : ToolEffectReport) : RowShape (recordedRow raw call report) := by
  obtain ⟨v,hid,hstatus⟩ := hs.validation
  refine ⟨hs.status,hs.pending,?_,hs.autonomy,hs.lineage,hs.tainted,hs.started,hs.finished⟩
  rw [recordedRow]
  cases report.validation with
  | none => exact ⟨v,hid,hstatus⟩
  | some w => exact ⟨some ⟨w.validation_id,w.status⟩,rfl,rfl⟩

theorem overrunRow_shape (hs : RowShape raw) (call : AuthorizedToolCall)
    (report : ToolEffectReport) (st : RunState) (dimension : RunBudgetDimension) :
    RowShape (overrunRow raw call report st dimension) := by
  have hr := recordedRow_shape hs call report
  exact ⟨⟨.paused,rfl,Or.inl ⟨rfl,.reservationExceeded dimension,rfl⟩,fun ht => by cases ht⟩,
    Or.inl ⟨rfl,rfl⟩,hr.validation,hr.autonomy,hr.lineage,hr.tainted,hr.started,hr.finished⟩

theorem recordedRow_quota {reserved : UsageCols} (hq : RowQuota raw) (call : AuthorizedToolCall)
    (hone : report.spent.steps = 1) (hle : (usageValues report.spent).Le reserved)
    (hfit : (raw.spent.add reserved).Le raw.budget) : RowQuota (recordedRow raw call report) := by
  refine ⟨hq.budget,?_,?_,hq.committed,hq.cap⟩
  · exact UsageCols.add_inRange hq.spent (usageValues_inRange _) hle hfit hq.budget
  · show raw.checkpointed_step_count+1 = raw.spent.steps+integerU32 report.spent.steps.toNat
    rw [hq.checkpointed,hone]
    rfl

theorem overrunRow_quota (hq : RowQuota raw) (call : AuthorizedToolCall)
    (dimension : RunBudgetDimension) (hone : report.spent.steps = 1)
    (hspent : raw.spent.Holds st.spent)
    (hlt : raw.checkpointed_step_count < raw.committed_step_count) :
    RowQuota (overrunRow raw call report st dimension) := by
  refine ⟨hq.budget,usageValues_inRange _,?_,hq.committed,hq.cap⟩
  show raw.checkpointed_step_count+1 =
    integerU32 (saturatingAdd32 st.spent.steps report.spent.steps).toNat
  have hc := hq.checkpointed
  have hs := hspent.steps
  have hcommitted := hq.committed.2
  have hcap := hq.cap
  have hsat : satAdd32 st.spent.steps.toNat 1 = st.spent.steps.toNat+1 := by
    rw [satAdd32,u32Max]
    omega
  have hsmall : st.spent.steps.toNat+1 < 2^32 := by omega
  have hnat : (saturatingAdd32 st.spent.steps 1).toNat = st.spent.steps.toNat+1 := by
    show (UInt32.ofNat (satAdd32 st.spent.steps.toNat 1)).toNat = _
    rw [hsat,UInt32.toNat_ofNat_of_lt' hsmall]
  rw [hone,hnat,integerU32]
  omega

variable {t : StepRead call.run_id call.step_index}

theorem effect_fits
    (hr : SoundRead s call.run_id raw st)
    (hstep : s.steps.get? ⟨call.run_id,call.step_index.toNat⟩ = some t.raw) (hok : (tally s).Ok)
    (h : s.applyEvents (effectEvents call report st t.st) = .ok s') :
    raw.committed_step_count = raw.checkpointed_step_count+1 ∧
      (raw.spent.add t.raw.reserved).Le raw.budget := by
  obtain ⟨_,m,hl,hindex,_⟩ := effect_ledger hok h
  have hcounts : raw.committed_step_count = m+1 ∧ raw.checkpointed_step_count = m := by
    have hc := hl.counts
    simp only [tally,Table.column,hr.row,Option.map_some,RunRow.counts,Option.some.injEq,
      Prod.mk.injEq] at hc
    exact ⟨by simpa using hc.1,hc.2⟩
  refine ⟨by rw [hcounts.1,hcounts.2],hr.ok.reserved t.raw ?_⟩
  rw [hcounts.2,Int.toNat_natCast,← hindex]
  exact hstep

theorem effect_change
    (hr : SoundRead s call.run_id raw st)
    (hstep : s.steps.get? ⟨call.run_id,call.step_index.toNat⟩ = some t.raw) (hok : (tally s).Ok)
    (hreport : validateEffectReport report = .ok ())
    (h : s.applyEvents (effectEvents call report st t.st) = .ok s') :
    ∃ row, RowChange s s' op (effectEvents call report st t.st) call.run_id row := by
  have hone := validateEffectReport_ok hreport
  have hok' := (effect_ledger hok h).1
  obtain ⟨hequal,hfit⟩ := effect_fits hr hstep hok h
  have hnot : QuestionOk raw → raw.status ≠ "waiting_input" := by
    intro ho hw
    have heq := (ho.settled hw).2
    omega
  have hrow := RunDb.applyEvents_row h call.run_id
  rw [hr.row,effect_row] at hrow
  have habout := effectEvents_about call report st t.st
  cases hd : reservationExceededDimension report.spent t.st.reserved with
  | none =>
    rw [hd] at hrow
    have hle := usageValues_le (parseStep_ok t.parsed).reserved (reservationExceeded_none hd)
    refine ⟨_,habout,hrow,RowOk.settled hok' hrow hequal (recordedRow_shape hr.ok.shape call report)
      (recordedRow_quota hr.ok.quota call hone hle hfit),?_⟩
    intro _ hold
    have ho := hold raw hr.row
    exact ho.moved rfl rfl (hnot ho) (hnot ho)
  | some dimension =>
    rw [hd] at hrow
    refine ⟨_,habout,hrow,RowOk.settled hok' hrow hequal
      (overrunRow_shape hr.ok.shape call report st dimension)
      (overrunRow_quota hr.ok.quota call dimension hone hr.spentNat (by omega)),?_⟩
    intro _ hold
    have ho := hold raw hr.row
    exact ho.moved rfl rfl (hnot ho) (text_not_waiting .paused (by decide))

variable {seen : List (Obs runSignature)}

theorem decision_row (hd : Decision op seen b)
    (hseen : Compat currentCompat seen s) (hok : (tally s).Ok) (hruns : ∀ id, RunOk s id)
    (h : s.applyEvents b = .ok s') : ∃ run_id row, RowChange s s' op b run_id row := by
  have hok' := decision_ledger hd (current_ledger hseen) hok h
  cases hd with
  | start h' spec runtime depth seen hbudget hlineage => exact ⟨_,start_change hbudget hok' h⟩
  | step h' run_id plan receipt r call hplan hat hpending hindex hadmits =>
    exact ⟨_,step_change (RunRead.sound hseen hruns) hplan hat hindex hadmits h⟩
  | budgetPause h' run_id plan receipt r exceeded hat hpending =>
    have hr := RunRead.sound hseen hruns
    exact ⟨_,paused_change hr (fun _ => hr.not_waiting (boundary_not_waiting hat)) h⟩
  | settle _ run_id r control hpending hcounts hop =>
    have hr := RunRead.sound hseen hruns
    refine ⟨_,settle_change hr ?_ h⟩
    have hp := (RunRead.now hseen).pending
    rw [hpending] at hp
    intro hnone
    rw [show (RunRow.control r.raw).pending = none from hnone] at hp
    cases hp
  | effect call report r t hreport htarget hcheckpoint heffect =>
    have hr := RunRead.sound (r := r) (fun q a ha => hseen q a (mem_append_left _ ha)) hruns
    have ht := StepRead.current (t := t) (fun q a ha => hseen q a (mem_append_right _ ha))
    exact ⟨_,effect_change hr ht hok hreport h⟩
  | control _ run_id reason control r hop hterminal hpending hpaused =>
    exact ⟨_,control_change (RunRead.sound hseen hruns) hop h⟩
  | resume run_id r hpaused hpending =>
    exact ⟨_,resume_change (RunRead.sound hseen hruns) hpaused h⟩
  | finish run_id outcome r hterminal hpaused hpending hcounts =>
    exact ⟨_,finish_change (RunRead.sound hseen hruns) hpaused h⟩
  | taint run_id source r => exact ⟨_,taint_change (RunRead.sound hseen hruns) h⟩
  | ask run_id question_id prompt r hat =>
    exact ⟨_,ask_change (RunRead.sound hseen hruns) hat h⟩
  | answer run_id question_id answered_by answer r hwaiting =>
    exact ⟨_,answer_change (RunRead.sound hseen hruns) hwaiting h⟩

def GrantsOk (s : RunDb) : Prop :=
  ∀ key grant, s.grants.get? key = some grant → (RunToolGrantMode.parse grant.mode).isSome = true

theorem mode_parse (mode : RunToolGrantMode) :
    (RunToolGrantMode.parse mode.asStr).isSome = true := by
  cases mode <;> rfl

theorem insertGrants_ok {seq : Nat} {grants : List RunToolGrant} {t t' : Table GrantKey GrantRow}
    (ht : ∀ key grant, t.get? key = some grant →
      (RunToolGrantMode.parse grant.mode).isSome = true)
    (h : grants.foldlM (fun t grant => insertRow "proj_run_tool_grants" t
      ⟨run_id,grant.tool_id⟩ ⟨grant.mode.asStr,integerU64 seq⟩) t = .ok t') :
    ∀ key grant, t'.get? key = some grant →
      (RunToolGrantMode.parse grant.mode).isSome = true := by
  induction grants generalizing t with
  | nil =>
    cases h
    exact ht
  | cons g grants ih =>
    obtain ⟨mid,h1,h2⟩ := bind_ok h
    refine ih ?_ h2
    obtain ⟨_,rfl⟩ := insertRow_ok h1
    intro key grant hg
    rw [Table.get?_put] at hg
    split at hg
    · cases hg
      exact mode_parse g.mode
    · exact ht key grant hg

theorem GrantsOk.applyEvents (hg : GrantsOk s) (h : s.applyEvents b = .ok s') : GrantsOk s' := by
  refine RunDb.applyEvents_keep GrantsOk (fun e _ s t hst hs => ?_) h hg
  have hgrants := (RunDb.applyEvent_ok hst).2.2.1
  cases e with
  | startedV2 body => exact insertGrants_ok hs hgrants
  | _ =>
    rw [GrantsOk,← Except.ok.inj hgrants]
    exact hs

theorem parseGrants_ok {rows : List (String × String)}
    (h : ∀ row ∈ rows, (RunToolGrantMode.parse row.2).isSome = true) :
    ∃ grants, readToolGrants rows = .ok grants := by
  induction rows with
  | nil => exact ⟨[],rfl⟩
  | cons row rows ih =>
    obtain ⟨grants,hgrants⟩ := ih (fun row' hr => h row' (mem_cons_of_mem _ hr))
    obtain ⟨mode,hmode⟩ := Option.isSome_iff_exists.mp (h row (by simp))
    refine ⟨⟨row.1,mode⟩::grants,?_⟩
    rw [readToolGrants] at hgrants
    rw [readToolGrants,mapM_cons,parseGrant,hmode,hgrants]
    rfl

theorem readRun_ok (hruns : ∀ id, RunOk s id) (hg : GrantsOk s) (id : RunId) :
    ∃ o, readRun s id = .ok o := by
  unfold readRun
  cases hrow : s.runs.get? id with
  | none => exact ⟨none,rfl⟩
  | some raw =>
    have hok := hruns id raw hrow
    obtain ⟨grants,hgrants⟩ : ∃ grants, readToolGrants (grantRows s.grants id) = .ok grants := by
      refine parseGrants_ok ?_
      intro row hmem
      obtain ⟨⟨key,grant⟩,hin,rfl⟩ := mem_map.mp hmem
      exact hg key grant ((Table.mem_rows s.grants).mp (mem_filter.mp hin).1)
    obtain ⟨st,hst⟩ := parseRun_rowOk hok.shape hok.quota id grants
    refine ⟨some st,?_⟩
    simp only [readColumns_ok hok.quota,hgrants,hst,bind,Except.bind]
    rfl

def QuestionsOk (s : RunDb) : Prop := ∀ id row, s.runs.get? id = some row → QuestionOk row

/-- Every row of the store is one that a read accepts. -/
structure SoundDb (s : RunDb) : Prop where
  ledger : (tally s).Ok
  runs : ∀ id, RunOk s id
  grants : GrantsOk s

theorem decision_sound (hd : Decision op seen b)
    (hseen : Compat currentCompat seen s) (hs : SoundDb s) (h : s.applyEvents b = .ok s') :
    SoundDb s' ∧ (¬ strandsQuestion s op → QuestionsOk s → QuestionsOk s') := by
  obtain ⟨run_id,row,hc⟩ := decision_row hd hseen hs.ledger hs.runs h
  have hown : RunOk s' run_id := by
    intro row' hrow'
    rw [hc.now] at hrow'
    cases hrow'
    exact hc.ok
  refine ⟨⟨decision_ledger hd (current_ledger hseen) hs.ledger h,RunOk.other hs.runs h hc.about hown,
    hs.grants.applyEvents h⟩,?_⟩
  intro hmay hq id row' hrow'
  by_cases hid : id = run_id
  · rw [hid,hc.now] at hrow'
    cases hrow'
    exact hc.question hmay (hq run_id)
  · rw [RunDb.applyEvents_run_other h (fun e he heq => hid (heq.symm.trans (hc.about e he)))] at hrow'
    exact hq id row' hrow'

end

def soundContract : Contract runSignature HarnessCall RunDb where
  compat := currentCompat
  inv := SoundDb
  may _ _ := True
  rel _ _ _ := True

theorem sound_meets : Meets soundContract := by
  intro op seen b hd s s' hseen hinv _ ha
  exact ⟨(decision_sound hd hseen hinv ha).1,trivial⟩

def questionContract : Contract runSignature HarnessCall RunDb where
  compat := currentCompat
  inv s := SoundDb s ∧ QuestionsOk s
  may s op := ¬ strandsQuestion s op
  rel _ _ _ := True

theorem question_meets : Meets questionContract := by
  intro op seen b hd s s' hseen hinv hmay ha
  obtain ⟨hs,hq⟩ := decision_sound hd hseen hinv.1 ha
  exact ⟨⟨hs,hq hmay hinv.2⟩,trivial⟩

theorem empty_sound : SoundDb RunDb.empty :=
  ⟨empty_tally,fun _ _ h => (by cases h),fun _ _ h => (by cases h)⟩

variable {row : RunRow}

theorem pause_columns (h : RowShape row) :
    (row.status = "paused" ↔ row.pause.kind.isSome = true) ∧
      (row.status ≠ "paused" → row.pause = clearPauseAssignments) := by
  obtain ⟨st,htext,hpause,_⟩ := h.status
  rcases hpause with ⟨rfl,cause,hcause⟩ | ⟨hne,hclear⟩
  · have hkind : row.pause.kind.isSome = true := by
      rw [hcause]
      cases cause <;> rfl
    exact ⟨⟨fun _ => hkind,fun _ => htext⟩,fun hst => absurd htext hst⟩
  · have hst : row.status ≠ "paused" := by
      rw [htext]
      cases st <;> first | exact absurd rfl hne | exact (by decide)
    refine ⟨⟨fun hp => absurd hp hst,?_⟩,fun _ => hclear⟩
    intro hk
    rw [hclear] at hk
    cases hk

theorem pending_columns (h : RowShape row) :
    row.pending_control.isSome = row.control_reason.isSome := by
  rcases h.pending with ⟨h1,h2⟩ | ⟨c,reason,h1,h2⟩
  · rw [h1,h2]
  · rw [h1,h2]
    rfl

theorem terminal_columns (h : RowShape row) (ht : terminalText row.status = true) :
    row.finished_seq.isSome = true := by
  obtain ⟨st,htext,_,hfin⟩ := h.status
  refine hfin ?_
  rw [htext,terminalText_of_parse (parseStatus_text st)] at ht
  exact ht

section Fresh
variable {G : Guard runSignature HarnessCall HarnessError HarnessReply RunDb}
variable {c : Config runSignature HarnessCall HarnessError HarnessReply RunDb}

/-- In a run whose head reads all find what the attempt read unchanged, every Run reads
back and its columns agree. If no control or finish lands on a Run that waits for input,
and no question on one with a control pending, a question is open just while it waits. -/
theorem fresh_rows_read_back (hhead : ∀ s t, G.head s t → Current runStore t s)
    (hc : Reachable runSystem G RunDb.empty c) :
    (∀ id, ∃ state, readRun c.store id = .ok state) ∧
    (∀ id row, c.store.runs.get? id = some row →
      ((row.status = "paused" ↔ row.pause.kind.isSome = true) ∧
        (row.status ≠ "paused" → row.pause = clearPauseAssignments)) ∧
      row.pending_control.isSome = row.control_reason.isSome ∧
      (terminalText row.status = true → row.finished_seq.isSome = true)) ∧
    ((∀ s op, G.append s op → ¬ strandsQuestion s op) →
      ∀ id row, c.store.runs.get? id = some row →
        (row.status = "waiting_input" ↔ row.question_id.isSome = true) ∧
        row.question_id.isSome = row.question_prompt.isSome) := by
  have hs : SoundDb c.store := (run_ok (K := soundContract) (code_runs sound_meets)
    (fun _ _ _ => trivial) hhead empty_sound hc).inv
  refine ⟨readRun_ok hs.runs hs.grants,?_,?_⟩
  · intro id row hrow
    have hshape := (hs.runs id row hrow).shape
    exact ⟨pause_columns hshape,pending_columns hshape,terminal_columns hshape⟩
  · intro happend id row hrow
    have hq := (run_ok (K := questionContract) (code_runs question_meets) happend hhead
      ⟨empty_sound,fun _ _ h => by cases h⟩ hc).inv.2 id row hrow
    exact ⟨hq.waiting,hq.prompt⟩

end Fresh

def staleStepMoves : List (Move runSignature HarnessCall) :=
  [.spawn 0 (.start demoHarness demoSpec),.turn 0,.turn 0,
    .spawn 1 (.prepareStep demoHarness ⟨7⟩ demoPlan none),.turn 1,.turn 1,.clock 1 0,
    .spawn 2 (.requestPause ⟨7⟩ "wait"),.turn 2,.turn 2,.turn 2,.turn 2,.turn 2,.turn 2,.turn 2,
    .turn 2,.turn 2,.turn 2,.turn 1,.turn 1]

theorem stale_step_unreadable :
    ¬ ∀ c, Reachable runSystem Guard.free RunDb.empty c →
      ∀ id, ∃ state, readRun c.store id = .ok state := by
  intro h
  have hreach : Reachable runSystem Guard.free RunDb.empty
      (after runSystem RunDb.empty staleStepMoves) := after_reachable (by decide)
  obtain ⟨state,hstate⟩ := h _ hreach ⟨7⟩
  have hbad : (readRun (after runSystem RunDb.empty staleStepMoves).store ⟨7⟩).toBool = false := by
    decide
  rw [hstate] at hbad
  cases hbad

def withinReport : ToolEffectReport := ⟨0,0,⟨5,5,5,5,1,0,1⟩,none,none⟩

def stepMoves : List (Move runSignature HarnessCall) :=
  [.spawn 0 (.start demoHarness demoSpec),.turn 0,.turn 0,.turn 0,.turn 0,.stop 0,
    .spawn 0 (.prepareStep demoHarness ⟨7⟩ demoPlan none),.turn 0,.turn 0,.clock 0 0,.turn 0,
    .turn 0,.stop 0,
    .spawn 0 (.recordEffect demoCall withinReport),.turn 0,.turn 0,.turn 0,.turn 0,.turn 0]

def drivesOnly : HarnessCall → Bool
  | .start _ _ | .prepareStep _ _ _ _ | .recordEffect _ _ => true
  | _ => false

theorem drivesOnly_allows (s : RunDb) (op : HarnessCall) (h : drivesOnly op = true) :
    ¬ strandsQuestion s op := by
  cases op <;> first | exact id | cases h

theorem fresh_rows_read_back_demo :
    ((after runSystem RunDb.empty stepMoves).store.runs.get? ⟨7⟩).any
        (fun row => decide (row.checkpointed_step_count = 1)) = true ∧
      ∃ state, readRun (after runSystem RunDb.empty stepMoves).store ⟨7⟩ = .ok state := by
  have hseq : Reachable runSystem (oneAfterAnother fun s op => ¬ strandsQuestion s op) RunDb.empty
      (after runSystem RunDb.empty stepMoves) :=
    after_sequential (fun op => drivesOnly op = true) drivesOnly_allows (by decide)
      (by decide)
  have hreach := (reachable_sequential (fun _ _ h => h) hseq).1
  exact ⟨by decide,(fresh_rows_read_back (fun _ _ h => h) hreach).1 ⟨7⟩⟩

end ProjectOS.Agents
