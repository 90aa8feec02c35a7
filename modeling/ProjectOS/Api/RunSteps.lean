import ProjectOS.Agents.Settled
import ProjectOS.Api.Dispatch
import ProjectOS.Api.Stream

/-! The `run.steps` stream. Its frames are made anew from the Run tables at each
poll; the newest is held back until nothing can make it the last one. -/

namespace ProjectOS.Api
open Lib Lib.Optimistic Domain Agents List

structure RunStepFrame where
  run_id : String
  project_id : Option String
  stream_seq : Nat
  step_index : UInt32
  phase : String
  summary : String
  tool_id : Option String
  committed_seq : UInt64
  checkpoint_seq : UInt64
  spent : RunUsage
  run_status : String
  terminal : Bool
  validation_status : Option String

def statusName : RunStatus → String
  | .requested => "requested"
  | .preflight => "preflight"
  | .running => "running"
  | .waitingApproval => "waitingApproval"
  | .waitingInput => "waitingInput"
  | .validating => "validating"
  | .paused => "paused"
  | .done => "done"
  | .failed => "failed"
  | .canceled => "canceled"

def stateCorrupt (message : String) : ApiError := ⟨"state_corrupt",message,false⟩

def readError : RunReadError → ApiError
  | .store operation => stateCorrupt operation
  | .corruptProjection table reason => stateCorrupt s!"{table} is corrupt: {reason}"

def readRunState (db : RunDb) (run_id : RunId) : Except ApiError RunState :=
  match readRun db run_id with
  | .error error => .error (readError error)
  | .ok none => .error ⟨"run_not_found",s!"Run {run_id.toHex} does not exist",false⟩
  | .ok (some state) => .ok state

def readRunStep (db : RunDb) (run_id : RunId) (step_index : UInt32) :
    Except RunReadError (Option RunStepState) :=
  match db.steps.get? ⟨run_id,step_index.toNat⟩ with
  | none => .ok none
  | some raw => (parseStep run_id step_index raw).map some

/-- How many frames are settled. The newest boundary is held back until the next
intent or a terminal fact tells whether it was the last. -/
def settledFrameCount (state : RunState) : Nat :=
  if state.status.isTerminal ∨ state.committed_step_count > state.checkpointed_step_count then
    state.checkpointed_step_count.toNat
  else state.checkpointed_step_count.toNat-1

section Frames
variable (toJson : RunStepFrame → String)

def stepStreamFrame (state : RunState) (step : RunStepState) : Except ApiError StreamFrame :=
  match step.effect with
  | none => .error (stateCorrupt (s!"Run {state.run_id.toHex} step {step.step_index} " ++
      "checkpoint exists without an effect receipt"))
  | some effect =>
    match step.checkpoint with
    | none => .error (stateCorrupt (s!"Run {state.run_id.toHex} step {step.step_index} is " ++
        "counted as checkpointed without a checkpoint row"))
    | some checkpoint =>
      let stream_seq := step.step_index.toNat+1
      let terminal := state.status.isTerminal &&
        decide (stream_seq = state.checkpointed_step_count.toNat)
      .ok ⟨stream_seq,"run.step",toJson
        { run_id := state.run_id.toHex,
          project_id := state.project_id.map Id.toHex,
          stream_seq := stream_seq, step_index := step.step_index, phase := step.phase,
          summary := step.summary, tool_id := step.tool_call.map RunToolCall.tool_id,
          committed_seq := step.committed_seq, checkpoint_seq := checkpoint.saved_seq,
          spent := effect.spent,
          run_status := if terminal then statusName state.status else "running",
          terminal := terminal,
          validation_status :=
            if terminal then state.validation.map fun v => v.status.asStr else none }⟩

def stepFrame (db : RunDb) (state : RunState) (run_id : RunId) (step_index : Nat) :
    Except ApiError StreamFrame :=
  match readRunStep db run_id (UInt32.ofNat step_index) with
  | .error error => .error (readError error)
  | .ok none => .error (stateCorrupt (s!"Run {run_id.toHex} is missing checkpointed step " ++
      s!"{step_index}"))
  | .ok (some step) => stepStreamFrame toJson state step

def durableFrames (reads : Nat → RunDb) (run_id : RunId) (resume_after : Option Nat) :
    Except ApiError (List StreamFrame) := do
  let state ← readRunState (reads 0) run_id
  let available := settledFrameCount state
  if available < resume_after.getD 0 then
    .error ⟨"invalid_input",s!"Run step cursor {resume_after.getD 0} is ahead of the durable " ++
      s!"head {available}",false⟩
  else
    let first_index := available-STREAM_RESUME_WINDOW_LEN
    let window ← (List.range' first_index (available-first_index)).foldlM
      (fun window step_index => do
        let frame ← stepFrame toJson (reads (step_index-first_index+1)) state run_id step_index
        return window.push frame) ResumeWindow.new
    window.framesAfter resume_after

def atHead (db : RunDb) (run_id : RunId) (cursor : Option Nat) : Except ApiError Bool := do
  let state ← readRunState db run_id
  return state.status.isTerminal && decide (settledFrameCount state ≤ cursor.getD 0)

end Frames

section Reading
variable {s s' : RunDb} {run_id : RunId} {row row' : RunRow}

/-- What `readRunState` makes of a Run's row. -/
structure ReadsAs (s : RunDb) (run_id : RunId) (row : RunRow) (state : RunState) : Prop where
  read : readRunState s run_id = .ok state
  run : state.run_id = run_id
  project : state.project_id = row.project_id
  status : parseStatus row.status = .ok state.status
  validation : parseValidation row.validation_id row.validation_status = .ok state.validation
  committed : (state.committed_step_count.toNat : Int) = row.committed_step_count
  checkpointed : (state.checkpointed_step_count.toNat : Int) = row.checkpointed_step_count

theorem settled_reads (hs : Settled s) (hrow : s.runs.get? run_id = some row) :
    ∃ state, ReadsAs s run_id row state := by
  obtain ⟨o,ho⟩ := readRun_ok hs.sound.runs hs.sound.grants run_id
  have h := ho
  simp only [readRun,hrow] at h
  obtain ⟨raw,hraw,h⟩ := bind_ok h
  have hok := hs.sound.runs run_id row hrow
  rw [readColumns_ok hok.quota] at hraw
  cases hraw
  obtain ⟨grants,_,h⟩ := bind_ok h
  obtain ⟨state,hparse,h⟩ := bind_ok h
  cases h
  have hp := parseRun_ok hparse
  refine ⟨state,by rw [readRunState,ho],hp.run_id,(parseRun_identity hparse).1,hp.status,
    hp.validation,toU32_ok hp.committed,toU32_ok hp.checkpointed⟩

/-- The row's step counts are those of the log's ledger, equal once the Run is over. -/
structure Counted (s : RunDb) (run_id : RunId) (row : RunRow) (n m : Nat) : Prop where
  ledger : (tally s).Ledger run_id n m
  committed : row.committed_step_count = n
  checkpointed : row.checkpointed_step_count = m
  closed : terminalText row.status = true → n = m

theorem settled_counted (hs : Settled s) (hrow : s.runs.get? run_id = some row) :
    ∃ n m, Counted s run_id row n m := by
  have hcounts : (tally s).counts run_id = some (RunRow.counts row) := by
    simp [tally,Table.column,hrow]
  rcases hs.sound.ledger run_id with ha | ⟨n,m,hl⟩
  · rw [ha.counts] at hcounts
    cases hcounts
  have heq := hl.counts.symm.trans hcounts
  simp only [RunRow.counts,Option.some.injEq,Prod.mk.injEq] at heq
  refine ⟨n,m,hl,heq.1.symm,heq.2.symm,fun ht => ?_⟩
  obtain ⟨k,hk⟩ := (hs.closed run_id _ (control_of_row hrow) ht).2
  have hkk := hl.counts.symm.trans hk
  simp only [Option.some.injEq,Prod.mk.injEq] at hkk
  omega

variable {state : RunState}

theorem ReadsAs.terminal (h : ReadsAs s run_id row state) :
    state.status.isTerminal = terminalText row.status := (terminalText_of_parse h.status).symm

variable {n m : Nat}

theorem ReadsAs.settled (h : ReadsAs s run_id row state) (hc : Counted s run_id row n m) :
    state.checkpointed_step_count.toNat = m ∧ settledFrameCount state =
      if terminalText row.status = true ∨ m < n then m else m-1 := by
  have hn := h.committed.trans hc.committed
  have hm := h.checkpointed.trans hc.checkpointed
  have hcommitted : state.committed_step_count.toNat = n := by omega
  have hcheckpointed : state.checkpointed_step_count.toNat = m := by omega
  refine ⟨hcheckpointed,?_⟩
  rw [settledFrameCount,h.terminal,hcheckpointed]
  simp only [gt_iff_lt,UInt32.lt_iff_toNat_lt,hcommitted,hcheckpointed]

variable {i : Nat}

theorem Counted.step (hc : Counted s run_id row n m) (hi : i < m) :
    ∃ step, s.steps.get? ⟨run_id,i⟩ = some step ∧ StepRow.flags step = (true,true) := by
  have hflags := hc.ledger.flags i
  have hgap := hc.ledger.gap
  rw [if_pos (by omega)] at hflags
  obtain ⟨step,hstep,hf⟩ := Option.map_eq_some_iff.mp hflags
  exact ⟨step,hstep,by simp [hf,hi]⟩

theorem Counted.index (hc : Counted s run_id row n m) (h : ReadsAs s run_id row state)
    (hi : i < m) : (UInt32.ofNat i).toNat = i := by
  have hm := (h.settled hc).1
  have hlt := state.checkpointed_step_count.toNat_lt
  refine UInt32.toNat_ofNat_of_lt' ?_
  simp only [UInt32.size]
  omega

variable (toJson : RunStepFrame → String)

theorem stepFrame_ok (hs : Settled s) (h : ReadsAs s run_id row state)
    (hc : Counted s run_id row n m) (hi : i < m) :
    ∃ frame, stepFrame toJson s state run_id i = .ok frame ∧ frame.stream_seq = i+1 := by
  obtain ⟨raw,hraw,hflags⟩ := hc.step hi
  have hindex := hc.index h hi
  obtain ⟨step,hstep,hidx,heffect,hcheckpoint⟩ :=
    parseStep_shape (hs.steps _ raw hraw) run_id (UInt32.ofNat i)
  simp only [StepRow.flags,Prod.mk.injEq] at hflags
  rw [hflags.1] at heffect
  rw [hflags.2] at hcheckpoint
  obtain ⟨effect,he⟩ := Option.isSome_iff_exists.mp heffect
  obtain ⟨checkpoint,hk⟩ := Option.isSome_iff_exists.mp hcheckpoint
  have hread : readRunStep s run_id (UInt32.ofNat i) = .ok (some step) := by
    simp only [readRunStep,hindex,hraw,hstep]
    rfl
  refine ⟨_,by simp only [stepFrame,hread,stepStreamFrame,he,hk]; rfl,?_⟩
  simp [hidx,hindex]

theorem stepFrame_later (hkeeps : Keeps s s') {at_state : RunState}
    (h : ReadsAs s run_id row state) (hc : Counted s run_id row n m) (hi : i < m) :
    stepFrame toJson s' at_state run_id i = stepFrame toJson s at_state run_id i := by
  obtain ⟨raw,hraw,hflags⟩ := hc.step hi
  obtain ⟨raw',hraw',hbare⟩ := hkeeps.steps _ raw hraw hflags
  have hindex := hc.index h hi
  have hparse : parseStep run_id (UInt32.ofNat i) raw' = parseStep run_id (UInt32.ofNat i) raw := by
    rw [← parseStep_bare,hbare,parseStep_bare]
  have hread : readRunStep s' run_id (UInt32.ofNat i) = readRunStep s run_id (UInt32.ofNat i) := by
    simp only [readRunStep,hindex,hraw,hraw',hparse]
  simp only [stepFrame,hread]

theorem settled_le_checkpointed (h : ReadsAs s run_id row state) (hc : Counted s run_id row n m) :
    settledFrameCount state ≤ m := by
  rw [(h.settled hc).2]
  split_ifs
  · exact le_refl m
  · omega

variable {state' : RunState}

theorem settled_grows (hkeeps : Keeps s s') (hs' : Settled s')
    (hrow : s.runs.get? run_id = some row) (h : ReadsAs s run_id row state)
    (hc : Counted s run_id row n m) (hrow' : s'.runs.get? run_id = some row')
    (h' : ReadsAs s' run_id row' state') : settledFrameCount state ≤ settledFrameCount state' := by
  obtain ⟨next,hnext,hgrows,hsame⟩ := hkeeps.runs run_id row hrow
  have heq := hnext.symm.trans hrow'
  cases heq
  obtain ⟨n',m',hc'⟩ := settled_counted hs' hrow'
  have hcommitted := hgrows.committed
  have hcheckpointed := hgrows.checkpointed
  rw [hc'.committed,hc.committed] at hcommitted
  rw [hc'.checkpointed,hc.checkpointed] at hcheckpointed
  have hgap := hc.ledger.gap
  rw [(h.settled hc).2,(h'.settled hc').2]
  by_cases ht : terminalText row.status = true
  · have ht' : terminalText row'.status = true := by
      rw [status_untainted (hsame ht)]
      exact ht
    rw [if_pos (Or.inl ht),if_pos (Or.inl ht')]
    omega
  · split_ifs with hopen hopen'
    · omega
    · -- the step that was open has been checkpointed since
      have hlt : m < n := hopen.resolve_left ht
      omega
    · omega
    · omega

theorem stepFrame_same (hkeeps : Keeps s s') (hs' : Settled s')
    (hrow : s.runs.get? run_id = some row) (h : ReadsAs s run_id row state)
    (hc : Counted s run_id row n m) (hrow' : s'.runs.get? run_id = some row')
    (h' : ReadsAs s' run_id row' state') (hi : i < settledFrameCount state) :
    stepFrame toJson s' state' run_id i = stepFrame toJson s state run_id i := by
  obtain ⟨next,hnext,hgrows,hsame⟩ := hkeeps.runs run_id row hrow
  have heq := hnext.symm.trans hrow'
  cases heq
  obtain ⟨n',m',hc'⟩ := settled_counted hs' hrow'
  obtain ⟨hm,hsettled⟩ := h.settled hc
  obtain ⟨hm',_⟩ := h'.settled hc'
  have hgap := hc.ledger.gap
  have him : i < m := lt_of_lt_of_le hi (settled_le_checkpointed h hc)
  have hindex := hc.index h him
  obtain ⟨raw,hraw,hflags⟩ := hc.step him
  have hproject : state'.project_id = state.project_id := by
    rw [h'.project,h.project,hgrows.project]
  rw [stepFrame_later toJson hkeeps h hc him]
  cases hstep : readRunStep s run_id (UInt32.ofNat i) with
  | error error => simp only [stepFrame,hstep]
  | ok found =>
    cases found with
    | none => simp only [stepFrame,hstep]
    | some step =>
      have hidx : step.step_index.toNat = i := by
        simp only [readRunStep,hindex,hraw] at hstep
        cases hp : parseStep run_id (UInt32.ofNat i) raw with
        | error error =>
          rw [hp] at hstep
          cases hstep
        | ok parsed =>
          rw [hp] at hstep
          cases hstep
          rw [(parseStep_ok hp).index,hindex]
      simp only [stepFrame,hstep,stepStreamFrame,h.run,h'.run,hproject]
      by_cases ht : terminalText row.status = true
      · -- a closed Run: nothing the frame shows has changed
        have huntainted := hsame ht
        have hstatus : state'.status = state.status := by
          have hp := h'.status
          rw [status_untainted huntainted,h.status] at hp
          exact (Except.ok.inj hp).symm
        have hvalidation : state'.validation = state.validation := by
          have hp := h'.validation
          rw [(validation_untainted huntainted).1,(validation_untainted huntainted).2,
            h.validation] at hp
          exact (Except.ok.inj hp).symm
        have hcount : m' = m := by
          have hcheck := checkpointed_untainted huntainted
          rw [hc'.checkpointed,hc.checkpointed] at hcheck
          omega
        simp only [hstatus,hvalidation,hm,hm',hcount]
      · -- an open Run: the frame is not its last, now or later
        have hnow : state.status.isTerminal = false := by
          rw [h.terminal]
          simpa using ht
        have hlater : (state'.status.isTerminal &&
            decide (step.step_index.toNat+1 = state'.checkpointed_step_count.toNat)) = false := by
          cases ht' : state'.status.isTerminal with
          | false => rfl
          | true =>
            have hclosed := hc'.closed (h'.terminal ▸ ht')
            have hcommitted := hgrows.committed
            have hcheckpointed := hgrows.checkpointed
            rw [hc'.committed,hc.committed] at hcommitted
            rw [hc'.checkpointed,hc.checkpointed] at hcheckpointed
            rw [hsettled] at hi
            simp only [Bool.true_and,decide_eq_false_iff_not,hidx,hm']
            split_ifs at hi with hif
            · rcases hif with hif | hif
              · exact absurd hif ht
              · omega
            · omega
        simp only [hnow,hlater,Bool.false_and,Bool.false_eq_true,if_false]

end Reading

section Window

/-- What a Run's stream serves: the settled frames after a cursor, or that some are
gone, or that the cursor is ahead. -/
structure Serves (serve : Option Nat → Except ApiError (List StreamFrame))
    (frame : Nat → StreamFrame) (settled : Nat) : Prop where
  fresh : serve none = .ok ((List.range' (settled-STREAM_RESUME_WINDOW_LEN+1)
    (settled-(settled-STREAM_RESUME_WINDOW_LEN))).map frame)
  resumed : ∀ cursor, cursor ≤ settled → settled ≤ cursor+STREAM_RESUME_WINDOW_LEN →
    serve (some cursor) = .ok ((List.range' (cursor+1) (settled-cursor)).map frame)
  evicted : ∀ cursor, cursor+STREAM_RESUME_WINDOW_LEN < settled → ∃ message,
    serve (some cursor) = .error ⟨"resume_window_exceeded",message,false⟩
  ahead : ∀ cursor, settled < cursor → ∃ message,
    serve (some cursor) = .error ⟨"invalid_input",message,false⟩

variable {frame : Nat → StreamFrame} {read : Nat → Except ApiError StreamFrame}

theorem foldlM_window {count first : Nat} {window : ResumeWindow}
    (hread : ∀ i, first ≤ i → i < first+count → read i = .ok (frame (i+1)))
    (hroom : window.frames.length+count ≤ STREAM_RESUME_WINDOW_LEN) :
    ∃ full : ResumeWindow, (List.range' first count).foldlM
        (fun window i => do
          let frame ← read i
          return window.push frame) window = .ok full ∧
      full.frames = window.frames ++ (List.range' (first+1) count).map frame := by
  induction count generalizing first window with
  | zero => exact ⟨window,rfl,by simp⟩
  | succ count ih =>
    have hpush := @ResumeWindow.push_room window (by omega) (frame (first+1))
    obtain ⟨full,hfull,hframes⟩ := @ih (first+1) (window.push (frame (first+1)))
      (fun i hle hlt => hread i (by omega) (by omega))
      (by
        rw [hpush,length_append,length_singleton]
        omega)
    refine ⟨full,?_,?_⟩
    · rw [List.range'_succ,foldlM_cons,hread first (le_refl _) (by omega)]
      exact hfull
    · rw [hframes,hpush,List.range'_succ,map_cons,append_assoc,singleton_append]

theorem seqs_range' (hseq : ∀ n, (frame n).stream_seq = n) (first count : Nat) :
    ((List.range' first count).map frame).map StreamFrame.stream_seq = List.range' first count := by
  rw [map_map]
  conv_rhs => rw [← map_id (List.range' first count)]
  exact map_congr_left fun n _ => hseq n

theorem durableFrames_serves (toJson : RunStepFrame → String) {reads : Nat → RunDb}
    {run_id : RunId} {state : RunState} (hread : readRunState (reads 0) run_id = .ok state)
    (hseq : ∀ n, (frame n).stream_seq = n)
    (hframe : ∀ i k, i < settledFrameCount state →
      stepFrame toJson (reads k) state run_id i = .ok (frame (i+1))) :
    Serves (durableFrames toJson reads run_id) frame (settledFrameCount state) := by
  obtain ⟨settled,hsettled⟩ : ∃ settled, settled = settledFrameCount state := ⟨_,rfl⟩
  obtain ⟨first,hfirst⟩ : ∃ first, first = settled-STREAM_RESUME_WINDOW_LEN := ⟨_,rfl⟩
  have hfits : settled-first ≤ STREAM_RESUME_WINDOW_LEN := by
    rw [hfirst]
    exact tsub_tsub_le
  have hbehind : ∀ cursor : Option Nat, ¬ settled < cursor.getD 0 →
      ∃ window : ResumeWindow,
        window.frames = (List.range' (first+1) (settled-first)).map frame ∧
        durableFrames toJson reads run_id cursor = window.framesAfter cursor := by
    intro cursor hle
    obtain ⟨window,hfold,hframes⟩ := @foldlM_window frame
      (fun i => stepFrame toJson (reads (i-first+1)) state run_id i) (settled-first) first
      ResumeWindow.new
      (fun i _ hlt => hframe i _ (by omega))
      (by
        simp only [ResumeWindow.new,length_nil]
        omega)
    refine ⟨window,hframes,?_⟩
    simp only [durableFrames,hread,bind,Except.bind,← hsettled,← hfirst,if_neg hle]
    simp only [bind,Except.bind] at hfold
    rw [hfold]
  have hseqs : ∀ window : ResumeWindow,
      window.frames = (List.range' (first+1) (settled-first)).map frame →
      window.frames.map StreamFrame.stream_seq = List.range' (first+1) (settled-first) := by
    intro window hframes
    rw [hframes,seqs_range' hseq]
  rw [← hsettled]
  constructor
  · obtain ⟨window,hframes,hserve⟩ := hbehind none (by simp)
    rw [hserve,ResumeWindow.framesAfter,hframes,hfirst]
  · intro cursor hle hnear
    obtain ⟨window,hframes,hserve⟩ := hbehind (some cursor) (by simp [hle])
    have hkept : first ≤ cursor := by
      rw [hfirst]
      exact Nat.sub_le_iff_le_add.mpr hnear
    have hafter := (ResumeWindow.framesAfter_cursor (hseqs window hframes) cursor (by omega)).1
      (Or.inl hkept)
    rw [hserve,hafter,hframes,← map_drop,drop_range']
    congr 3
    · omega
    · omega
  · intro cursor hfar
    have hgone : cursor < first := by
      rw [hfirst]
      exact Nat.lt_sub_of_add_lt hfar
    have hsome : first < settled := by
      rw [hfirst]
      exact Nat.sub_lt (by omega) (by decide)
    obtain ⟨window,hframes,hserve⟩ := hbehind (some cursor) (by
      simp only [Option.getD_some]
      omega)
    rw [hserve]
    exact (ResumeWindow.framesAfter_cursor (hseqs window hframes) cursor (by omega)).2 hgone
      (by omega)
  · intro cursor hlt
    simp only [durableFrames,hread,bind,Except.bind,Option.getD_some,← hsettled,if_pos hlt]
    exact ⟨_,rfl⟩

end Window

end ProjectOS.Api
