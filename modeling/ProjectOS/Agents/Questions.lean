import ProjectOS.Agents.Interleavings

/-! Questions. A Run that asked one waits for its answer: which events may stand
between the two, and on which paths the wait is lost. -/

namespace ProjectOS.Agents
open Lib Lib.Optimistic Domain RunHarness

def questionAfter (id : RunId) (asked : Option QuestionId) : RunEvent → Option QuestionId
  | .questionAsked r q _ => if r = id then some q else asked
  | .questionAnswered r q _ _ => if r = id ∧ asked = some q then none else asked
  | _ => asked

def openQuestion (id : RunId) (log : List RunEvent) : Option QuestionId :=
  log.foldl (questionAfter id) none

/-- No step, resume or question while one is open, and only its own answer. -/
def questionFits (log : List RunEvent) : RunEvent → Prop
  | .stepCommittedV1 r _ _
  | .stepCommittedV2 r _ _ _ _ _ _
  | .resumed r _
  | .questionAsked r _ _ => openQuestion r log = none
  | .questionAnswered r q _ _ => openQuestion r log = some q
  | _ => True

section Log
variable {log : List RunEvent} {id : RunId}

theorem openQuestion_snoc (id : RunId) (log : List RunEvent) (e : RunEvent) :
    openQuestion id (log ++ [e]) = questionAfter id (openQuestion id log) e := by
  simp [openQuestion,List.foldl_append]

variable {q : QuestionId}

theorem openQuestion_stays (mid : List RunEvent) {pre : List RunEvent}
    (hopen : openQuestion id pre = some q) (hfits : Ordered questionFits (pre ++ mid))
    (hno : ∀ user answer, .questionAnswered id q user answer ∉ mid) :
    openQuestion id (pre ++ mid) = some q := by
  induction mid using List.reverseRecOn with
  | nil => simpa using hopen
  | append_singleton mid e ih =>
    have hprefix : Ordered questionFits (pre ++ mid) := by
      intro a e' post heq
      exact hfits a e' (post ++ [e]) (by rw [← List.append_assoc,heq]; simp)
    have hmid := ih hprefix (fun user answer hm => hno user answer (List.mem_append_left _ hm))
    have hfit := hfits (pre ++ mid) e [] (by simp)
    rw [← List.append_assoc,openQuestion_snoc,hmid]
    cases e with
    | questionAsked r q' prompt =>
      have hne : r ≠ id := by
        rintro rfl
        have hnone : openQuestion r (pre ++ mid) = none := hfit
        rw [hmid] at hnone
        cases hnone
      simp [questionAfter,hne]
    | questionAnswered r q' user answer =>
      have hne : ¬ (r = id ∧ some q = some q') := by
        rintro ⟨rfl,hq⟩
        cases hq
        exact hno user answer (by simp)
      simp only [questionAfter]
      rw [if_neg hne]
    | _ => rfl

theorem answered_between (hfits : Ordered questionFits log) {pre mid post : List RunEvent}
    {prompt : String} {e : RunEvent}
    (hlog : log = pre ++ .questionAsked id q prompt::(mid ++ e::post))
    (hstep : commitsStep e = true) (hrun : e.run = id) :
    ∃ user answer, .questionAnswered id q user answer ∈ mid := by
  by_contra hno
  simp only [not_exists] at hno
  have hsplit : log = ((pre ++ [.questionAsked id q prompt]) ++ mid) ++ e::post := by
    rw [hlog]
    simp
  have hprefix : Ordered questionFits ((pre ++ [.questionAsked id q prompt]) ++ mid) := by
    intro a e' rest heq
    exact hfits a e' (rest ++ e::post) (by rw [hsplit,heq]; simp)
  have hasked : openQuestion id (pre ++ [.questionAsked id q prompt]) = some q := by
    rw [openQuestion_snoc]
    simp [questionAfter]
  have hopen := openQuestion_stays mid hasked hprefix hno
  have hfit := hfits _ e post hsplit
  have hnone : openQuestion id ((pre ++ [.questionAsked id q prompt]) ++ mid) = none := by
    cases e with
    | stepCommittedV1 | stepCommittedV2 =>
      cases hrun
      exact hfit
    | _ => cases hstep
  rw [hopen] at hnone
  cases hnone

end Log

structure AskingView where
  status : String
  question : Option QuestionId

def RunRow.asking (row : RunRow) : AskingView := ⟨row.status,row.question_id⟩

def askingOf (db : RunDb) (id : RunId) : Option AskingView := db.runs.column RunRow.asking id

def askingStep : RunEvent → AskingView → AskingView
  | .stepCommittedV2 _ _ phase _ _ _ _, v => ⟨phase.runStatus,v.question⟩
  | .paused _ _ _ _, v => ⟨"paused",v.question⟩
  | .resumed _ _, v => ⟨"running",v.question⟩
  | .canceled _ _, v => ⟨"canceled",v.question⟩
  | .questionAsked _ q _, _ => ⟨"waiting_input",some q⟩
  | .questionAnswered _ _ _ _, _ => ⟨"running",none⟩
  | .finishedV1 _ outcome _, v => ⟨outcome.asStatusStr,v.question⟩
  | .finishedV2 _ outcome _ _ _, v => ⟨outcome.asStatusStr,v.question⟩
  | _, v => v

def askingEffect : RunEvent → Option AskingView → Option AskingView
  | .startedV1 _ _ _, _ => some ⟨"running",none⟩
  | .startedV2 _, _ => some ⟨"preflight",none⟩
  | e, v => v.map (askingStep e)

theorem onRow_asking (seq : Nat) (e : RunEvent) (row : Option RunRow) :
    ((runsProjection seq e).onRow row).map RunRow.asking =
      askingEffect e (row.map RunRow.asking) := by
  cases e with
  | finishedV2 r outcome total spent validation =>
    cases row with
    | none => rfl
    | some row =>
      cases validation with
      | none | some => rfl
  | _ =>
    cases row with
    | none | some => rfl

theorem applyEvent_asking {db db' : RunDb} {e : RunEvent} (h : db.applyEvent e = .ok db')
    (id : RunId) :
    askingOf db' id = if e.run = id then askingEffect e (askingOf db id) else askingOf db id := by
  simp only [askingOf,Table.column,RunDb.applyEvent_run h id]
  by_cases he : e.run = id
  · rw [if_pos he,if_pos he,onRow_asking]
  · rw [if_neg he,if_neg he]

def workingText (status : String) : Bool :=
  (RunStatus.parse status).any fun st =>
    decide (st = .preflight ∨ st = .running ∨ st = .validating)

structure AskingOk (asked : Option QuestionId) (v : Option AskingView) : Prop where
  column : v.bind AskingView.question = asked
  working : ∀ w, v = some w → workingText w.status = true → w.question = none

/-- The open question in the view is the one the log has open. -/
structure Questions (s : RunDb) : Prop where
  view : ∀ id, AskingOk (openQuestion id s.log) (askingOf s id)
  fits : Ordered questionFits s.log

section Events
variable {s s' : RunDb} {e : RunEvent}

theorem outcome_not_working (outcome : RunOutcome) :
    workingText outcome.asStatusStr = false := by
  cases outcome <;> decide

variable {asked : Option QuestionId} {v : Option AskingView}

theorem AskingOk.moved (h : AskingOk asked v)
    (f : AskingView → AskingView) (hq : ∀ w, (f w).question = w.question)
    (hf : ∀ w, (f w).status = w.status ∨ workingText (f w).status = false) :
    AskingOk asked (v.map f) := by
  constructor
  · rw [← h.column]
    cases v with
    | none => rfl
    | some w => exact hq w
  · intro w hw hworking
    obtain ⟨w',hv,rfl⟩ := Option.map_eq_some_iff.mp hw
    rw [hq]
    rcases hf w' with hsame | hstill
    · exact h.working w' hv (by rw [← hsame]; exact hworking)
    · rw [hstill] at hworking
      cases hworking

theorem AskingOk.idle (h : AskingOk none v) (f : AskingView → AskingView)
    (hq : ∀ w, (f w).question = w.question) : AskingOk none (v.map f) := by
  have hcolumn : ∀ w, v = some w → w.question = none := by
    intro w hv
    have hc := h.column
    rw [hv] at hc
    exact hc
  constructor
  · cases v with
    | none => rfl
    | some w => exact (hq w).trans (hcolumn w rfl)
  · intro w hw _
    obtain ⟨w',hv,rfl⟩ := Option.map_eq_some_iff.mp hw
    exact (hq w').trans (hcolumn w' hv)

theorem paused_not_working : workingText "paused" = false := by decide

theorem canceled_not_working : workingText "canceled" = false := by decide

theorem waiting_not_working : workingText "waiting_input" = false := by decide

theorem askingOf_row {id : RunId} {row : RunRow} (h : s.runs.get? id = some row) :
    askingOf s id = some (RunRow.asking row) := by
  simp [askingOf,Table.column,h]

theorem Questions.view_event (hinv : Questions s) (hfit : questionFits s.log e)
    (h : s.applyEvent e = .ok s') :
    AskingOk (questionAfter e.run (openQuestion e.run s.log) e)
      (askingEffect e (askingOf s e.run)) := by
  have hok := hinv.view e.run
  have hruns := (RunDb.applyEvent_ok h).2.1
  cases e with
  | startedV1 r w t =>
    obtain ⟨hnone,_⟩ := insertRow_ok hruns
    have hv : askingOf s r = none := by simp [askingOf,Table.column,hnone]
    have hc := hok.column
    simp only [RunEvent.run,hv,Option.bind_none] at hc
    refine ⟨hc,?_⟩
    rintro w ⟨⟩ _
    rfl
  | startedV2 body =>
    obtain ⟨hnone,_⟩ := insertRow_ok hruns
    have hv : askingOf s body.run_id = none := by simp [askingOf,Table.column,hnone]
    have hc := hok.column
    simp only [RunEvent.run,hv,Option.bind_none] at hc
    refine ⟨hc,?_⟩
    rintro w ⟨⟩ _
    rfl
  | stepCommittedV2 r i phase summary digest call reserved =>
    have hnone : openQuestion r s.log = none := hfit
    simp only [RunEvent.run,hnone] at hok
    simp only [RunEvent.run,questionAfter,hnone]
    exact hok.idle (askingStep (.stepCommittedV2 r i phase summary digest call reserved))
      (fun _ => rfl)
  | resumed r count =>
    have hnone : openQuestion r s.log = none := hfit
    simp only [RunEvent.run,hnone] at hok
    simp only [RunEvent.run,questionAfter,hnone]
    exact hok.idle (askingStep (.resumed r count)) (fun _ => rfl)
  | questionAsked r q prompt =>
    obtain ⟨row,hrow,_⟩ := updateOne_ok hruns
    simp only [RunEvent.run,questionAfter,if_true,askingEffect,askingOf_row hrow,Option.map_some]
    refine ⟨rfl,?_⟩
    rintro w ⟨⟩ hw
    rw [show (askingStep (.questionAsked r q prompt) (RunRow.asking row)).status =
      "waiting_input" from rfl,waiting_not_working] at hw
    cases hw
  | questionAnswered r q user answer =>
    obtain ⟨row,hrow,_⟩ := updateOne_ok hruns
    have hopen : openQuestion r s.log = some q := hfit
    simp only [RunEvent.run,questionAfter,hopen,and_self,if_true,askingEffect,askingOf_row hrow,
      Option.map_some]
    refine ⟨rfl,?_⟩
    rintro w ⟨⟩ _
    rfl
  | paused r count cause spent =>
    exact hok.moved (askingStep (.paused r count cause spent)) (fun _ => rfl)
      (fun _ => Or.inr paused_not_working)
  | canceled r count =>
    exact hok.moved (askingStep (.canceled r count)) (fun _ => rfl)
      (fun _ => Or.inr canceled_not_working)
  | finishedV1 r outcome total =>
    exact hok.moved (askingStep (.finishedV1 r outcome total)) (fun _ => rfl)
      (fun _ => Or.inr (outcome_not_working outcome))
  | finishedV2 r outcome total spent validation =>
    exact hok.moved (askingStep (.finishedV2 r outcome total spent validation)) (fun _ => rfl)
      (fun _ => Or.inr (outcome_not_working outcome))
  | _ => exact hok.moved (askingStep _) (fun _ => rfl) (fun _ => Or.inl rfl)

theorem questionAfter_other {id : RunId} (h : e.run ≠ id) :
    questionAfter id asked e = asked := by
  cases e with
  | questionAsked r q prompt => exact if_neg h
  | questionAnswered r q user answer => exact if_neg (fun hc => h hc.1)
  | _ => rfl

theorem Questions.event (hinv : Questions s) (hfit : questionFits s.log e)
    (h : s.applyEvent e = .ok s') : Questions s' := by
  have hlog := (RunDb.applyEvent_ok h).1
  constructor
  · intro id
    rw [hlog,openQuestion_snoc,applyEvent_asking h]
    by_cases hid : e.run = id
    · subst hid
      rw [if_pos rfl]
      exact hinv.view_event hfit h
    · rw [if_neg hid,questionAfter_other hid]
      exact hinv.view id
  · rw [hlog]
    exact ordered_snoc hinv.fits hfit

def asksNothing : RunEvent → Bool
  | .stepCommittedV1 .. | .stepCommittedV2 .. | .resumed .. | .questionAsked ..
  | .questionAnswered .. => false
  | _ => true

theorem asksNothing_fits (h : asksNothing e = true) (log : List RunEvent) : questionFits log e := by
  cases e <;> first | exact trivial | cases h

theorem Questions.quiet {b : List RunEvent} (hinv : Questions s) (h : s.applyEvents b = .ok s')
    (hb : ∀ e ∈ b, asksNothing e = true) : Questions s' := by
  refine RunDb.applyEvents_keep Questions (fun e he s t hst hs => ?_) h hinv
  exact hs.event (asksNothing_fits (hb e he) _) hst

end Events

section Decisions
variable {s s' : RunDb} {run_id : RunId} {op : HarnessCall} {seen : List (Obs runSignature)}
variable {b : List RunEvent}

/-- A resume over an open question, or an answer to another one. -/
def dropsQuestion (s : RunDb) : HarnessCall → Prop
  | .resume run_id => ∃ row, s.runs.get? run_id = some row ∧ row.question_id ≠ none
  | .answerQuestion run_id question_id _ _ =>
    ∃ row, s.runs.get? run_id = some row ∧ row.question_id ≠ some question_id
  | _ => False

theorem open_of_row (hinv : Questions s) {row : RunRow} (hrow : s.runs.get? run_id = some row) :
    openQuestion run_id s.log = row.question_id := by
  have hc := (hinv.view run_id).column
  rw [askingOf_row hrow] at hc
  exact hc.symm

theorem workingText_of_parse {raw : String} {status : RunStatus} (h : parseStatus raw = .ok status)
    (hw : status = .preflight ∨ status = .running ∨ status = .validating) :
    workingText raw = true := by
  unfold parseStatus at h
  split at h
  · rename_i st hst
    cases h
    simp [workingText,hst,hw]
  · cases h

theorem boundary_no_question (hinv : Questions s) {r : RunRead run_id}
    (hseen : Compat currentCompat r.seen s) (hat : AtBoundary r.st) :
    openQuestion run_id s.log = none := by
  obtain ⟨hrow,_⟩ := RunRead.current hseen
  obtain ⟨grants,hp⟩ := r.facts
  rw [open_of_row hinv hrow]
  exact (hinv.view run_id).working _ (askingOf_row hrow)
    (workingText_of_parse hp.status hat.running)

theorem settleEvents_asksNothing (st : RunState) (control : PendingRunControl) :
    ∀ e ∈ settleEvents st control, asksNothing e = true := by
  intro e he
  rcases settleEvents_mem he with rfl | rfl | rfl <;> rfl

theorem effectEvents_asksNothing (call : AuthorizedToolCall) (report : ToolEffectReport)
    (state : RunState) (step : RunStepState) :
    ∀ e ∈ effectEvents call report state step, asksNothing e = true := by
  intro e he
  rcases effectEvents_mem he with rfl | ⟨_,rfl⟩ | ⟨_,rfl⟩ | rfl | ⟨_,rfl⟩ <;> rfl

theorem single_asksNothing {e : RunEvent} (he : asksNothing e = true) :
    ∀ e' ∈ [e], asksNothing e' = true := by
  intro e' h
  rw [List.mem_singleton.mp h]
  exact he

theorem decision_questions (hd : Decision op seen b) (hseen : Compat currentCompat seen s)
    (hinv : Questions s) (hmay : ¬ dropsQuestion s op) (h : s.applyEvents b = .ok s') :
    Questions s' := by
  cases hd with
  | step h' run_id plan receipt r call hplan hat hpending hindex hadmits =>
    have hnone := boundary_no_question hinv hseen hat
    obtain ⟨mid,h1,h2⟩ := applyEvents_append h
    have hgate : ∀ e ∈ gateEvents r.st receipt, asksNothing e = true := by
      cases receipt with
      | none =>
        intro e he
        cases he
      | some receipt => exact single_asksNothing rfl
    have hmid := hinv.quiet h1 hgate
    refine hmid.event ?_ (applyEvents_single h2)
    -- the approval before the step is no answer and no question
    have hlog := RunDb.applyEvents_log h1
    show openQuestion r.st.run_id mid.log = none
    rw [r.run_id_eq,hlog]
    cases receipt with
    | none => simpa [gateEvents] using hnone
    | some receipt =>
      rw [gateEvents,openQuestion_snoc,hnone]
      rfl
  | resume run_id r hpaused hpending =>
    obtain ⟨hrow,_⟩ := RunRead.current hseen
    refine hinv.event ?_ (applyEvents_single h)
    show openQuestion run_id s.log = none
    rw [open_of_row hinv hrow]
    by_contra hne
    exact hmay ⟨_,hrow,hne⟩
  | ask run_id question_id prompt r hat =>
    refine hinv.event ?_ (applyEvents_single h)
    exact boundary_no_question hinv hseen hat
  | answer run_id question_id answered_by answer r hwaiting =>
    obtain ⟨hrow,_⟩ := RunRead.current hseen
    refine hinv.event ?_ (applyEvents_single h)
    show openQuestion run_id s.log = some question_id
    rw [open_of_row hinv hrow]
    by_contra hne
    exact hmay ⟨_,hrow,hne⟩
  | effect call report r t hreport htarget hcheckpoint heffect =>
    exact hinv.quiet h (effectEvents_asksNothing call report r.st t.st)
  | settle _ run_id r control hpending hcounts hop =>
    exact hinv.quiet h (settleEvents_asksNothing r.st control)
  | control _ run_id reason control r hop hterminal hpending hpaused =>
    refine hinv.quiet h (single_asksNothing ?_)
    cases control with
    | pause => rfl
    | cancel => rfl
  | _ => exact hinv.quiet h (single_asksNothing rfl)

def askingContract : Contract runSignature HarnessCall RunDb where
  compat := currentCompat
  inv := Questions
  may s op := ¬ dropsQuestion s op
  rel _ _ _ := True

theorem asking_meets : Meets askingContract := by
  intro op seen b hd s s' hseen hinv hmay ha
  exact ⟨decision_questions hd hseen hinv hmay ha,trivial⟩

theorem empty_questions : Questions RunDb.empty := by
  refine ⟨fun id => ⟨rfl,?_⟩,ordered_nil _⟩
  rintro w ⟨⟩

end Decisions

def QuestionsAnswered (log : List RunEvent) : Prop :=
  (∀ id q prompt pre mid post e, log = pre ++ .questionAsked id q prompt::(mid ++ e::post) →
    commitsStep e = true → e.run = id →
    ∃ user answer, .questionAnswered id q user answer ∈ mid) ∧
  (∀ id q user answer pre post, log = pre ++ .questionAnswered id q user answer::post →
    openQuestion id pre = some q)

/-- Operations run one after another, no Run is resumed with its question open,
and every answer names the open question. -/
theorem sequential_questions_answered
    {c : Config runSignature HarnessCall HarnessError HarnessReply RunDb}
    (hc : Reachable runSystem (oneAfterAnother fun s op => ¬ dropsQuestion s op) RunDb.empty c) :
    QuestionsAnswered c.store.log := by
  have hreach := (reachable_sequential (fun _ _ h => h) hc).1
  have hinv : Questions c.store :=
    (run_ok (K := askingContract) (code_runs asking_meets) (fun _ _ h => h) (fun _ _ h => h)
      empty_questions hreach).inv
  constructor
  · intro id q prompt pre mid post e hlog hstep hrun
    exact answered_between hinv.fits hlog hstep hrun
  · intro id q user answer pre post hlog
    exact hinv.fits pre _ post hlog

def resumedPastQuestion : List (Move runSignature HarnessCall) :=
  [.spawn 0 (.start demoHarness demoSpec),.turn 0,.turn 0,.stop 0,
    .spawn 0 (.askQuestion ⟨7⟩ ⟨5⟩ "which one?"),.turn 0,.turn 0,.turn 0,.turn 0,.stop 0,
    .spawn 0 (.requestPause ⟨7⟩ "wait"),.turn 0,.turn 0,.turn 0,.turn 0,.turn 0,.turn 0,.turn 0,
    .turn 0,.turn 0,.turn 0,.stop 0,
    .spawn 0 (.resume ⟨7⟩),.turn 0,.turn 0,.turn 0,.turn 0,.stop 0,
    .spawn 0 (.prepareStep demoHarness ⟨7⟩ demoPlan none),.turn 0,.turn 0,.clock 0 0,.turn 0,
    .turn 0]

def asksQuestion (id : RunId) (q : QuestionId) : RunEvent → Bool
  | .questionAsked r q' _ => decide (r = id) && decide (q' = q)
  | _ => false

def answersQuestion (id : RunId) (q : QuestionId) : RunEvent → Bool
  | .questionAnswered r q' _ _ => decide (r = id) && decide (q' = q)
  | _ => false

theorem unanswered_step {log : List RunEvent} (id : RunId) (q : QuestionId) (n m : Nat)
    (hasked : (log[n]?).any (asksQuestion id q) = true)
    (hstep : ((log.drop (n+1))[m]?).any (fun e => commitsStep e && decide (e.run = id)) = true)
    (hno : ((log.drop (n+1)).take m).any (answersQuestion id q) = false) :
    ¬ QuestionsAnswered log := by
  intro hanswered
  cases hn : log[n]? with
  | none => simp [hn] at hasked
  | some ask =>
    cases hm : (log.drop (n+1))[m]? with
    | none => simp [hm] at hstep
    | some e =>
      rw [hn,Option.any_some] at hasked
      rw [hm,Option.any_some,Bool.and_eq_true,decide_eq_true_eq] at hstep
      cases ask with
      | questionAsked r q' prompt =>
        simp only [asksQuestion,Bool.and_eq_true,decide_eq_true_eq] at hasked
        obtain ⟨rfl,rfl⟩ := hasked
        have hlog := split_at hn
        rw [split_at hm] at hlog
        obtain ⟨user,answer,hmem⟩ := hanswered.1 _ _ _ _ _ _ _ hlog hstep.1 hstep.2
        rw [List.any_eq_false] at hno
        exact hno _ hmem (by simp [answersQuestion])
      | _ => cases hasked

theorem resume_strands_question :
    ¬ ∀ c, Reachable runSystem (oneAfterAnother fun _ _ => True) RunDb.empty c →
      QuestionsAnswered c.store.log := by
  intro h
  have htrace : Trace runSystem (oneAfterAnother fun _ _ => True) RunDb.empty
      (history runSystem RunDb.empty resumedPastQuestion)
      (after runSystem RunDb.empty resumedPastQuestion) :=
    history_unchecked (by decide) (by decide)
  exact unanswered_step ⟨7⟩ ⟨5⟩ 1 3 (by decide) (by decide) (by decide)
    (h _ htrace.reachable)

def answeredMoves : List (Move runSignature HarnessCall) :=
  [.spawn 0 (.start demoHarness demoSpec),.turn 0,.turn 0,.stop 0,
    .spawn 0 (.askQuestion ⟨7⟩ ⟨5⟩ "which one?"),.turn 0,.turn 0,.turn 0,.turn 0,.stop 0,
    .spawn 0 (.answerQuestion ⟨7⟩ ⟨5⟩ ⟨8⟩ "the second"),.turn 0,.turn 0,.turn 0,.turn 0,.stop 0,
    .spawn 0 (.prepareStep demoHarness ⟨7⟩ demoPlan none),.turn 0,.turn 0,.clock 0 0,.turn 0,
    .turn 0]

def keepsQuestion (s : RunDb) : HarnessCall → Bool
  | .resume run_id => (s.runs.get? run_id).all fun row => row.question_id.isNone
  | .answerQuestion run_id question_id _ _ =>
    (s.runs.get? run_id).all fun row => decide (row.question_id = some question_id)
  | _ => true

theorem keepsQuestion_allows (s : RunDb) (op : HarnessCall) (h : keepsQuestion s op = true) :
    ¬ dropsQuestion s op := by
  cases op with
  | resume run_id =>
    rintro ⟨row,hrow,hne⟩
    simp only [keepsQuestion,hrow,Option.all_some,Option.isNone_iff_eq_none] at h
    exact hne h
  | answerQuestion run_id question_id answered_by answer =>
    rintro ⟨row,hrow,hne⟩
    simp only [keepsQuestion,hrow,Option.all_some,decide_eq_true_eq] at h
    exact hne h
  | _ => exact id

theorem sequential_questions_answered_demo :
    (after runSystem RunDb.empty answeredMoves).store.log.any (asksQuestion ⟨7⟩ ⟨5⟩) = true ∧
      (after runSystem RunDb.empty answeredMoves).store.log.any commitsStep = true ∧
      QuestionsAnswered (after runSystem RunDb.empty answeredMoves).store.log := by
  refine ⟨by decide,by decide,?_⟩
  have htrace : Trace runSystem (oneAfterAnother fun s op => ¬ dropsQuestion s op) RunDb.empty
      (history runSystem RunDb.empty answeredMoves) (after runSystem RunDb.empty answeredMoves) :=
    history_sequential keepsQuestion_allows (by decide) (by decide)
  exact sequential_questions_answered htrace.reachable

end ProjectOS.Agents
