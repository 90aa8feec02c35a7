import ProjectOS.Agents.Interleavings

/-! The effects a harness hands out. A preparation returns an authorized call once the
step is committed; the history of a run holds every call ever returned, also to callers
that crashed since. -/

namespace ProjectOS.Agents
open Lib Lib.Optimistic Domain RunHarness List

abbrev RunEntry := Entry runSignature HarnessCall HarnessReply

def entryBatch : RunEntry → List RunEvent
  | .applied _ _ b => b
  | .returned _ _ => []

def EntryTold : RunEntry → Prop
  | .applied op seen b => Told op seen b
  | .returned _ _ => True

theorem trace_told {G : Guard runSignature HarnessCall HarnessError HarnessReply RunDb}
    {es : List RunEntry} {c : Config runSignature HarnessCall HarnessError HarnessReply RunDb}
    (h : Trace runSystem G RunDb.empty es c) :
    c.store.log = es.flatMap entryBatch ∧ ∀ e ∈ es, EntryTold e := by
  have hrule : HistoryRule Told Handed (fun _ _ _ => True) runSystem G
      (fun s es => s.log = es.flatMap entryBatch ∧ ∀ e ∈ es, EntryTold e) := by
    refine ⟨fun _ op _ => code_tells op,fun _ _ _ _ _ _ => trivial,?_,?_⟩
    · intro s es op seen b s' hinv hA _ _ ha
      refine ⟨?_,forall_mem_append.mpr ⟨hinv.2,?_⟩⟩
      · rw [RunDb.applyEvents_log (runApply_ok ha).2,hinv.1]
        simp [entryBatch]
      · intro e he
        rw [mem_singleton.mp he]
        exact hA
    · intro s es op last seen a hinv _ _
      refine ⟨?_,forall_mem_append.mpr ⟨hinv.2,?_⟩⟩
      · rw [hinv.1]
        simp [entryBatch]
      · intro e he
        rw [mem_singleton.mp he]
        exact trivial
  exact trace_inv hrule ⟨rfl,by simp⟩ h

def handedCall : RunEntry → Option AuthorizedToolCall
  | .returned _ (.preparation (.effect call)) => some call
  | _ => none

def handedOut (es : List RunEntry) : List AuthorizedToolCall := es.filterMap handedCall

def HarnessCall.uses (tools : ToolRegistry) : HarnessCall → Prop
  | .prepareStep h _ _ _ => h.tools = tools
  | _ => True

def oneRegistry (tools : ToolRegistry) :
    Guard runSignature HarnessCall HarnessError HarnessReply RunDb :=
  ⟨fun _ op => op.uses tools,fun _ _ => True,fun _ _ => True⟩

def AuthorizedToolCall.stepKey (call : AuthorizedToolCall) : StepKey :=
  ⟨call.run_id,call.step_index.toNat⟩

/-- The columns that say which call a step is: only the event that inserts the row
writes them. -/
structure CallSheet where
  tool_id : Option String
  call_id : Option ToolCallId
  idempotency_key : Option String
  input : Option Bytes

def StepRow.sheet (row : StepRow) : CallSheet :=
  ⟨row.tool_id,row.tool_call_id,row.idempotency_key,row.input⟩

def callSheet (call : RunToolCall) : CallSheet :=
  ⟨some call.tool_id,some call.call_id,some call.idempotency_key,some call.input⟩

def sheets (db : RunDb) : StepKey → Option CallSheet := db.steps.column StepRow.sheet

def committedSheet (e : RunEvent) : Option (StepKey × CallSheet) :=
  match runStepsProjection 0 e with
  | .insert key row => some (key,StepRow.sheet row)
  | _ => none

def WrittenOnce {γ : Type} (f : StepRow → γ) : Prop :=
  ∀ seq e key guard g row, runStepsProjection seq e = .updateOneWhenNull key guard g →
    f (g row) = f row

section Columns
variable {γ : Type} {f : StepRow → γ} {db db' : RunDb} {e : RunEvent}

theorem steps_quiet_event (hf : WrittenOnce f) (h : db.applyEvent e = .ok db')
    (he : commitsStep e = false) : db'.steps.column f = db.steps.column f := by
  have hsteps := (RunDb.applyEvent_ok h).2.2.2
  cases hw : runStepsProjection (db.head+1) e with
  | insert key row =>
    cases e <;> first | (cases hw; done) | cases he
  | updateOneWhenNull key guard g =>
    rw [hw] at hsteps
    obtain ⟨row,hrow,_,hput⟩ := exec_whenNull_flags hsteps
    rw [hput]
    exact Table.column_put_same _ hrow (hf _ _ _ _ _ row hw)
  | nothing =>
    rw [hw] at hsteps
    rw [← Except.ok.inj hsteps]

theorem steps_quiet_batch {b : List RunEvent} (hf : WrittenOnce f) (h : db.applyEvents b = .ok db')
    (hb : ∀ e ∈ b, commitsStep e = false) : db'.steps.column f = db.steps.column f := by
  refine RunDb.applyEvents_keep (fun t => t.steps.column f = db.steps.column f) ?_ h rfl
  exact fun e he s t hst hs => (steps_quiet_event hf hst (hb e he)).trans hs

theorem gateEvents_commitless (st : RunState) (receipt : Option GateReceipt) :
    ∀ e ∈ gateEvents st receipt, commitsStep e = false := by
  cases receipt with
  | none =>
    intro e he
    cases he
  | some receipt => exact single_commitless rfl

theorem stepEvents_column (hf : WrittenOnce f) {st : RunState} {plan : StepPlan}
    {call : AuthorizedToolCall} {receipt : Option GateReceipt}
    (h : db.applyEvents (stepEvents st plan call receipt) = .ok db') :
    db.steps.column f ⟨st.run_id,plan.step_index.toNat⟩ = none ∧ ∃ seq,
      db'.steps.column f = Function.update (db.steps.column f) ⟨st.run_id,plan.step_index.toNat⟩
        (some (f (stepValues plan.summary plan.phase.asStr (some plan.digest)
          (some call.domainCall) plan.reserved seq))) := by
  obtain ⟨mid,h1,h2⟩ := applyEvents_append h
  rw [← steps_quiet_batch hf h1 (gateEvents_commitless st receipt)]
  obtain ⟨hnone,hput⟩ := insertRow_ok (RunDb.applyEvent_ok (applyEvents_single h2)).2.2.2
  exact ⟨by simp [Table.column,hnone],_,by rw [hput,Table.column_put]⟩

end Columns

section Sheets
variable {db db' : RunDb} {e : RunEvent}

theorem sheet_writtenOnce : WrittenOnce StepRow.sheet := by
  intro seq e key guard g row h
  cases e <;> first | (cases h; done) | (cases h; rfl)

theorem committedSheet_none (h : commitsStep e = false) : committedSheet e = none := by
  cases e <;> first | rfl | cases h

theorem applyEvents_quiet {b : List RunEvent} (h : db.applyEvents b = .ok db')
    (hb : ∀ e ∈ b, commitsStep e = false) : sheets db' = sheets db :=
  steps_quiet_batch sheet_writtenOnce h hb

theorem stepEvents_sheets {st : RunState} {plan : StepPlan} {call : AuthorizedToolCall}
    {receipt : Option GateReceipt} (h : db.applyEvents (stepEvents st plan call receipt) = .ok db') :
    sheets db ⟨st.run_id,plan.step_index.toNat⟩ = none ∧
      sheets db' = Function.update (sheets db) ⟨st.run_id,plan.step_index.toNat⟩
        (some (callSheet call.domainCall)) := by
  obtain ⟨hnone,_,hsheets⟩ := stepEvents_column sheet_writtenOnce h
  exact ⟨hnone,hsheets⟩

theorem stepEvents_committed (st : RunState) (plan : StepPlan) (call : AuthorizedToolCall)
    (receipt : Option GateReceipt) :
    (stepEvents st plan call receipt).filterMap committedSheet =
      [(⟨st.run_id,plan.step_index.toNat⟩,callSheet call.domainCall)] := by
  have hgate : (gateEvents st receipt).filterMap committedSheet = [] := by
    rw [filterMap_eq_nil_iff]
    intro e he
    exact committedSheet_none (gateEvents_commitless st receipt e he)
  rw [stepEvents,filterMap_append,hgate]
  rfl

variable {call : RunToolCall}

theorem parseToolCall_sheet {raw : StepRow}
    (h : parseToolCall raw = .ok (some call)) : StepRow.sheet raw = callSheet call := by
  unfold parseToolCall at h
  split at h
  · cases h
  · rename_i h1 h2 h3 h4 h5
    obtain ⟨version,_,h⟩ := bind_ok h
    cases h
    simp [StepRow.sheet,callSheet,h1,h3,h4,h5]
  · cases h

theorem StepRead.sheet_eq {run_id : RunId} {step_index : UInt32} (t : StepRead run_id step_index)
    (h : t.st.tool_call = some call) : StepRow.sheet t.raw = callSheet call := by
  have hc := (parseStep_ok t.parsed).tool_call
  rw [h] at hc
  exact parseToolCall_sheet hc

end Sheets

/-- The call is to a registered tool, under its own key. -/
structure Vouched (tools : ToolRegistry) (call : AuthorizedToolCall) : Prop where
  registered : tools.entries.get? call.descriptor.id = some call.descriptor
  key : call.idempotency_key = idempotencyKey call.run_id call.step_index call.call_id

section Calls
variable {tools : ToolRegistry} {h : RunHarness} {run_id : RunId} {plan : StepPlan}
variable {receipt : Option GateReceipt}

theorem callSheet_inj {a b : RunToolCall} (h : callSheet a = callSheet b) :
    a.tool_id = b.tool_id ∧ a.call_id = b.call_id ∧ a.idempotency_key = b.idempotency_key ∧
      a.input = b.input := by
  simpa [callSheet] using h

theorem Vouched.eq_of_sheet {a b : AuthorizedToolCall} (ha : Vouched tools a) (hb : Vouched tools b)
    (hkey : a.stepKey = b.stepKey) (hsheet : callSheet a.domainCall = callSheet b.domainCall) :
    a = b := by
  obtain ⟨hid,hcall,hidem,hinput⟩ := callSheet_inj hsheet
  have hdesc : a.descriptor = b.descriptor := by
    have htool : a.descriptor.id = b.descriptor.id := ToolId.value_injective hid
    have hlook := ha.registered
    rw [htool,hb.registered] at hlook
    exact (Option.some.inj hlook).symm
  simp only [AuthorizedToolCall.stepKey,StepKey.mk.injEq] at hkey
  have hstep : a.step_index = b.step_index := UInt32.toNat_inj.mp hkey.2
  have hrun := hkey.1
  cases a
  cases b
  simp only [AuthorizedToolCall.mk.injEq]
  exact ⟨hrun,hstep,hdesc,hcall,hidem,hinput⟩

variable (a : Admission h run_id plan receipt)

theorem Admission.vouched : Vouched h.tools a.call := by
  obtain ⟨descriptor,grant,hd,_,_,hcall⟩ := authorize_ok a.hauth
  rw [hcall]
  exact ⟨by rw [h.tools.keyed _ _ hd]; exact hd,rfl⟩

theorem Admission.target : a.call.run_id = run_id ∧ a.call.step_index = plan.step_index := by
  obtain ⟨descriptor,grant,_,_,_,hcall⟩ := authorize_ok a.hauth
  rw [hcall]
  exact ⟨rfl,rfl⟩

theorem Admission.stepKey_eq : a.call.stepKey = ⟨a.r.st.run_id,plan.step_index.toNat⟩ := by
  rw [AuthorizedToolCall.stepKey,a.target.1,a.target.2,a.r.run_id_eq]

theorem validateDurablePlan_index {step : RunStepState}
    (h : validateDurablePlan run_id plan step = .ok ()) : plan.step_index = step.step_index := by
  unfold validateDurablePlan at h
  split at h
  · cases h
  · split at h
    · rename_i hsame
      exact hsame.1
    · cases h

theorem StepRead.index_eq {step_index : UInt32} (t : StepRead run_id step_index) :
    t.st.step_index = step_index := (parseStep_ok t.parsed).index

theorem Resumption.target (a : Resumption h run_id plan) :
    a.call.run_id = run_id ∧ a.call.step_index = plan.step_index := by
  obtain ⟨_,hrun,hstep,_⟩ := rehydrate_ok a.hcall
  rw [hrun,hstep,validateDurablePlan_index a.hplan,a.t.index_eq]
  exact ⟨rfl,rfl⟩

theorem Resumption.sheet_eq (a : Resumption h run_id plan) :
    StepRow.sheet a.t.raw = callSheet a.call.domainCall := by
  rw [(rehydrate_ok a.hcall).2.2.2]
  exact a.t.sheet_eq a.hdurable

end Calls

def nonIdempotentAt (key : StepKey) (call : AuthorizedToolCall) : Bool :=
  decide (call.stepKey = key) && decide (call.descriptor.effect = .nonIdempotent)

def answersRequest : RunEntry → Prop
  | .returned (.prepareStep _ run_id plan _) (.preparation (.effect call)) =>
    call.run_id = run_id ∧ call.step_index = plan.step_index
  | .returned _ (.preparation _) => True
  | _ => True

/-- Every call handed out is that of its step's row; one not to be repeated, by the
append that made the row. -/
structure EffectLedger (tools : ToolRegistry) (s : RunDb) (es : List RunEntry) : Prop where
  rows : ∀ key sheet, sheets s key = some sheet →
    ∃ call, Vouched tools call ∧ call.stepKey = key ∧ callSheet call.domainCall = sheet
  handed : ∀ call ∈ handedOut es,
    Vouched tools call ∧ sheets s call.stepKey = some (callSheet call.domainCall)
  once : ∀ key, (handedOut es).countP (nonIdempotentAt key) ≤ 1
  -- between an append and the return that follows it nobody has the call yet
  fresh : ∀ pre op seen b key sheet, es = pre ++ [.applied op seen b] →
    (key,sheet) ∈ b.filterMap committedSheet →
    sheets s key = some sheet ∧ ∀ call ∈ handedOut es, call.stepKey ≠ key
  asked : ∀ e ∈ es, answersRequest e

section Ledger
variable {tools : ToolRegistry} {s s' : RunDb} {es : List RunEntry}

theorem handedOut_applied (es : List RunEntry) (op : HarnessCall) (seen : List (Obs runSignature))
    (b : List RunEvent) : handedOut (es ++ [.applied op seen b]) = handedOut es := by
  simp [handedOut,filterMap_append,handedCall]

theorem handedOut_returned (es : List RunEntry) (op : HarnessCall) (call : AuthorizedToolCall) :
    handedOut (es ++ [.returned op (.preparation (.effect call))]) = handedOut es ++ [call] := by
  simp [handedOut,filterMap_append,handedCall]

theorem asked_snoc {e : RunEntry} (h : ∀ e ∈ es, answersRequest e) (he : answersRequest e) :
    ∀ e' ∈ es ++ [e], answersRequest e' := by
  intro e' h'
  rcases mem_append.mp h' with h' | h'
  · exact h e' h'
  · rw [mem_singleton.mp h']
    exact he

theorem EffectLedger.quiet (hinv : EffectLedger tools s es) {b : List RunEvent}
    (h : s.applyEvents b = .ok s') (hb : ∀ e ∈ b, commitsStep e = false) (op : HarnessCall)
    (seen : List (Obs runSignature)) : EffectLedger tools s' (es ++ [.applied op seen b]) where
  rows := by
    rw [applyEvents_quiet h hb]
    exact hinv.rows
  handed := by
    rw [applyEvents_quiet h hb,handedOut_applied]
    exact hinv.handed
  once := by
    rw [handedOut_applied]
    exact hinv.once
  fresh := by
    intro pre op' seen' b' key sheet heq hmem
    have hlast := (append_inj' heq rfl).2
    cases hlast
    obtain ⟨e,he,hsheet⟩ := mem_filterMap.mp hmem
    rw [committedSheet_none (hb e he)] at hsheet
    cases hsheet
  asked := asked_snoc hinv.asked trivial

theorem EffectLedger.commit (hinv : EffectLedger tools s es) {h : RunHarness} {run_id : RunId}
    {plan : StepPlan} {receipt : Option GateReceipt} (a : Admission h run_id plan receipt)
    (htools : h.tools = tools) (happly : s.applyEvents a.batch = .ok s') (op : HarnessCall)
    (seen : List (Obs runSignature)) :
    EffectLedger tools s' (es ++ [.applied op seen a.batch]) := by
  have hv := a.vouched
  rw [htools] at hv
  obtain ⟨hfree,hsheets⟩ := stepEvents_sheets happly
  rw [← a.stepKey_eq] at hfree hsheets
  have hne : ∀ call ∈ handedOut es, call.stepKey ≠ a.call.stepKey := by
    intro call hcall heq
    have hsome := (hinv.handed call hcall).2
    rw [heq,hfree] at hsome
    cases hsome
  refine ⟨?_,?_,?_,?_,asked_snoc hinv.asked trivial⟩
  · intro key sheet hk
    rw [hsheets] at hk
    by_cases hkey : key = a.call.stepKey
    · subst hkey
      rw [Function.update_self] at hk
      cases hk
      exact ⟨a.call,hv,rfl,rfl⟩
    · rw [Function.update_of_ne hkey] at hk
      exact hinv.rows key sheet hk
  · intro call hcall
    rw [handedOut_applied] at hcall
    rw [hsheets,Function.update_of_ne (hne call hcall)]
    exact hinv.handed call hcall
  · rw [handedOut_applied]
    exact hinv.once
  · intro pre op' seen' b' key sheet heq hmem
    have hlast := (append_inj' heq rfl).2
    cases hlast
    rw [Admission.batch,stepEvents_committed,← a.stepKey_eq,mem_singleton] at hmem
    cases hmem
    rw [hsheets,Function.update_self,handedOut_applied]
    exact ⟨rfl,hne⟩

variable {op : HarnessCall}

section
variable (hinv : EffectLedger tools s es)
include hinv

variable {seen : List (Obs runSignature)}

theorem EffectLedger.applied
    {b : List RunEvent} (htold : Told op seen b) (huses : op.uses tools)
    (h : s.applyEvents b = .ok s') : EffectLedger tools s' (es ++ [.applied op seen b]) := by
  cases htold with
  | step a => exact hinv.commit a huses h _ _
  | other hd hno => exact hinv.quiet h hno _ _

variable {reply : HarnessReply}

theorem EffectLedger.silent
    (hno : ∀ call, reply ≠ .preparation (.effect call)) :
    EffectLedger tools s (es ++ [.returned op reply]) := by
  have hnone : handedCall (.returned op reply : RunEntry) = none := by
    cases reply with
    | preparation p =>
      cases p with
      | effect call => exact absurd rfl (hno call)
      | _ => rfl
    | _ => rfl
  have hsame : handedOut (es ++ [.returned op reply]) = handedOut es := by
    simp [handedOut,filterMap_append,hnone]
  refine ⟨hinv.rows,by rw [hsame]; exact hinv.handed,by rw [hsame]; exact hinv.once,?_,
    asked_snoc hinv.asked ?_⟩
  · intro pre op' seen' b' key sheet heq
    have hlast := (append_inj' heq rfl).2
    cases hlast
  · unfold answersRequest
    split
    · rename_i heq
      cases heq
      exact absurd rfl (hno _)
    · trivial
    · trivial

theorem EffectLedger.hand {call : AuthorizedToolCall}
    (hv : Vouched tools call) (hsheet : sheets s call.stepKey = some (callSheet call.domainCall))
    (honce : call.descriptor.effect = .nonIdempotent →
      ∀ c ∈ handedOut es, c.stepKey ≠ call.stepKey)
    (hasked : answersRequest (.returned op (.preparation (.effect call)))) :
    EffectLedger tools s (es ++ [.returned op (.preparation (.effect call))]) := by
  refine ⟨hinv.rows,?_,?_,?_,asked_snoc hinv.asked hasked⟩
  · rw [handedOut_returned]
    intro c hc
    rcases mem_append.mp hc with hc | hc
    · exact hinv.handed c hc
    · rw [mem_singleton.mp hc]
      exact ⟨hv,hsheet⟩
  · intro key
    rw [handedOut_returned,countP_append]
    have hold := hinv.once key
    by_cases hhit : nonIdempotentAt key call = true
    · have hboth := hhit
      simp only [nonIdempotentAt,Bool.and_eq_true,decide_eq_true_eq] at hboth
      have hzero : (handedOut es).countP (nonIdempotentAt key) = 0 := by
        rw [countP_eq_zero]
        intro c hc
        have hne := honce hboth.2 c hc
        rw [hboth.1] at hne
        simp [nonIdempotentAt,hne]
      simp [hzero,hhit]
    · simp [hhit,hold]
  · intro pre op' seen' b' key sheet heq
    have hlast := (append_inj' heq rfl).2
    cases hlast

variable {receipt : Option GateReceipt} {h : RunHarness} {run_id : RunId} {plan : StepPlan}

theorem EffectLedger.handFresh
    (a : Admission h run_id plan receipt)
    (htools : h.tools = tools) (hlast : ∃ pre, es = pre ++
      [.applied (.prepareStep h run_id plan receipt) a.seen a.batch]) :
    EffectLedger tools s
      (es ++ [.returned (.prepareStep h run_id plan receipt) (.preparation (.effect a.call))]) := by
  obtain ⟨pre,hes⟩ := hlast
  have hmem : (a.call.stepKey,callSheet a.call.domainCall) ∈ a.batch.filterMap committedSheet := by
    rw [Admission.batch,stepEvents_committed,← a.stepKey_eq]
    simp
  obtain ⟨hsheet,hnone⟩ := hinv.fresh _ _ _ _ _ _ hes hmem
  have hv := a.vouched
  rw [htools] at hv
  exact hinv.hand hv hsheet (fun _ => hnone) a.target

theorem EffectLedger.handAgain
    (a : Resumption h run_id plan)
    (htools : h.tools = tools)
    (hrow : s.steps.get? ⟨run_id,a.r.st.checkpointed_step_count.toNat⟩ = some a.t.raw) :
    EffectLedger tools s
      (es ++ [.returned (.prepareStep h run_id plan receipt) (.preparation (.effect a.call))]) := by
  obtain ⟨hreg,hrun,hstep,_⟩ := rehydrate_ok a.hcall
  have hsheet : sheets s a.call.stepKey = some (callSheet a.call.domainCall) := by
    rw [AuthorizedToolCall.stepKey,hrun,hstep,sheets,Table.column,hrow,Option.map_some,a.sheet_eq]
  obtain ⟨call,hv,hkey,hsame⟩ := hinv.rows _ _ hsheet
  rw [htools] at hreg
  -- the row's own key was made for this Run and step when the step was committed
  have hidem : a.call.idempotency_key =
      idempotencyKey a.call.run_id a.call.step_index a.call.call_id := by
    obtain ⟨_,hcall,hk,_⟩ := callSheet_inj hsame
    simp only [AuthorizedToolCall.stepKey,StepKey.mk.injEq] at hkey
    have hindex : call.step_index = a.call.step_index := UInt32.toNat_inj.mp hkey.2
    have hcallId : call.call_id = a.call.call_id := hcall
    have hidemKey : call.idempotency_key = a.call.idempotency_key := hk
    rw [← hidemKey,hv.key,hkey.1,hindex,hcallId]
  exact hinv.hand ⟨hreg,hidem⟩ hsheet (fun hn => absurd hn a.hclass) a.target

theorem EffectLedger.returned {last : LastAppend} (hhanded : Handed op last seen reply)
    (huses : op.uses tools) (hm : Moment runStore s es op last seen) :
    EffectLedger tools s (es ++ [.returned op reply]) := by
  by_cases hno : ∀ call, reply ≠ .preparation (.effect call)
  · exact hinv.silent hno
  simp only [not_forall,not_not] at hno
  obtain ⟨call,rfl⟩ := hno
  obtain ⟨h,run_id,plan,receipt,rfl,hstep⟩ := hhanded _ rfl
  rcases hstep call rfl with ⟨a,rfl,hlast⟩ | ⟨a,rfl,hseen⟩
  · exact hinv.handFresh a huses (hm.last _ _ hlast)
  · exact hinv.handAgain a huses (hm.answer _ _ _ hseen)

end

theorem effectLedger_rule (tools : ToolRegistry) :
    HistoryRule (fun op seen b => Told op seen b ∧ op.uses tools)
      (fun op last seen reply => Handed op last seen reply ∧ op.uses tools) (fun _ _ _ => True)
      runSystem (oneRegistry tools) (EffectLedger tools) where
  code _ op hg := tells_mono (fun _ _ h => ⟨h,hg⟩) (fun _ _ _ h => ⟨h,hg⟩) (code_tells op)
  head _ _ _ _ _ _ := trivial
  applied _ _ _ _ _ _ hinv hA _ _ ha := hinv.applied hA.1 hA.2 (runApply_ok ha).2
  returned _ _ _ _ _ _ hinv hR hm := hinv.returned hR.1 hR.2 hm

theorem empty_effectLedger (tools : ToolRegistry) : EffectLedger tools RunDb.empty [] where
  rows := by rintro key sheet ⟨⟩
  handed := by rintro call ⟨⟩
  once := by simp [handedOut]
  fresh := by
    intro pre op seen b key sheet heq
    simp at heq
  asked := by rintro e ⟨⟩

end Ledger

/-- Over one tool registry, however preparations, recordings and restarts interleave: a
call that may not be repeated is handed out at most once for a step, a step has one call
only, and calls of different steps have different idempotency keys. -/
theorem effects_handed_out_once (tools : ToolRegistry) {es : List RunEntry}
    {c : Config runSignature HarnessCall HarnessError HarnessReply RunDb}
    (h : Trace runSystem (oneRegistry tools) RunDb.empty es c) :
    (∀ run_id step_index, (handedOut es).countP (fun call => decide (call.run_id = run_id) &&
      decide (call.step_index = step_index) &&
      decide (call.descriptor.effect = .nonIdempotent)) ≤ 1) ∧
    (∀ a ∈ handedOut es, ∀ b ∈ handedOut es, a.run_id = b.run_id → a.step_index = b.step_index →
      a.descriptor = b.descriptor ∧ a.input = b.input ∧ a.call_id = b.call_id ∧
        a.idempotency_key = b.idempotency_key) ∧
    (∀ a ∈ handedOut es, ∀ b ∈ handedOut es, ¬ (a.run_id = b.run_id ∧ a.step_index = b.step_index) →
      a.idempotency_key ≠ b.idempotency_key) ∧
    (∀ harness run_id plan receipt call,
      .returned (.prepareStep harness run_id plan receipt) (.preparation (.effect call)) ∈ es →
      call.run_id = run_id ∧ call.step_index = plan.step_index) := by
  have hinv := trace_inv (effectLedger_rule tools) (empty_effectLedger tools) h
  refine ⟨?_,?_,?_,?_⟩
  · intro run_id step_index
    refine Nat.le_trans (countP_mono_left ?_) (hinv.once ⟨run_id,step_index.toNat⟩)
    intro call _ hcall
    simp only [Bool.and_eq_true,decide_eq_true_eq] at hcall
    obtain ⟨⟨rfl,rfl⟩,hclass⟩ := hcall
    simp [nonIdempotentAt,AuthorizedToolCall.stepKey,hclass]
  · intro a ha b hb hrun hstep
    obtain ⟨hva,hsa⟩ := hinv.handed a ha
    obtain ⟨hvb,hsb⟩ := hinv.handed b hb
    have hkey : a.stepKey = b.stepKey := by simp [AuthorizedToolCall.stepKey,hrun,hstep]
    rw [hkey,hsb] at hsa
    have heq := hva.eq_of_sheet hvb hkey (Option.some.inj hsa).symm
    rw [heq]
    exact ⟨rfl,rfl,rfl,rfl⟩
  · intro a ha b hb hne hidem
    rw [(hinv.handed a ha).1.key,(hinv.handed b hb).1.key] at hidem
    obtain ⟨hrun,hstep,_⟩ := idempotencyKey_inj hidem
    exact hne ⟨hrun,hstep⟩
  · intro harness run_id plan receipt call hmem
    exact hinv.asked _ hmem

theorem oneRegistry_permits (tools : ToolRegistry) :
    (oneRegistry tools).Permits runSystem (fun _ => True)
      fun _ m => m.allowed (HarnessCall.uses tools) := by
  refine Guard.permits_of ?_
  intro c m hm
  cases m with
  | spawn i op => exact hm
  | turn i => exact fun _ _ => ⟨fun _ => trivial,fun _ => trivial⟩
  | _ => exact trivial

def resumedMoves : List (Move runSignature HarnessCall) :=
  demoMoves ++ [.stop 1,.spawn 1 (.prepareStep demoHarness ⟨7⟩ demoPlan none),.turn 1,.turn 1,
    .turn 1]

theorem resumedMoves_allowed :
    ∀ m ∈ resumedMoves, m.allowed (HarnessCall.uses demoHarness.tools) := by
  intro m hm
  simp only [resumedMoves,demoMoves,cons_append,nil_append,mem_cons,
    not_mem_nil,or_false] at hm
  rcases hm with rfl | rfl | rfl | rfl | rfl | rfl | rfl | rfl | rfl | rfl | rfl | rfl | rfl | rfl <;>
    first | exact trivial | exact rfl

theorem effects_handed_out_once_demo :
    (handedOut (history runSystem RunDb.empty resumedMoves)).length = 2 ∧
      ∀ a ∈ handedOut (history runSystem RunDb.empty resumedMoves),
        ∀ b ∈ handedOut (history runSystem RunDb.empty resumedMoves), a.run_id = b.run_id →
          a.step_index = b.step_index → a.idempotency_key = b.idempotency_key := by
  refine ⟨by decide,?_⟩
  have htrace : Trace runSystem (oneRegistry demoHarness.tools) RunDb.empty
      (history runSystem RunDb.empty resumedMoves) (after runSystem RunDb.empty resumedMoves) :=
    history_trace (oneRegistry_permits _) trivial (along_of_forall resumedMoves_allowed _)
      (by decide)
  intro a ha b hb hrun hstep
  exact ((effects_handed_out_once demoHarness.tools htrace).2.1 a ha b hb hrun hstep).2.2.2

end ProjectOS.Agents
