import ProjectOS.Agents.Effects

/-! Gate receipts. A receipt is checked when the registry demands one, and an
approval is recorded whenever a receipt is passed; the two are compared here
over whole histories. -/

namespace ProjectOS.Agents
open Lib Lib.Optimistic Domain RunHarness List

deriving instance DecidableEq for GateReceipt

section
variable {h : RunHarness} {run_id : RunId} {plan : StepPlan} {receipt : Option GateReceipt}

def Admission.gated (a : Admission h run_id plan receipt) : Bool :=
  match a.grants.mode plan.tool_call.tool_id with
  | some grant => ToolRegistry.gateRequired a.call.descriptor grant a.r.st.tainted
  | none => false

def GateReceipt.names (receipt : GateReceipt) (run_id : RunId) (request : ToolCallRequest) : Bool :=
  decide (receipt.run_id = run_id) && decide (receipt.call_id = request.call_id) &&
    decide (receipt.tool_id = request.tool_id)

theorem Admission.validated {r : GateReceipt} (a : Admission h run_id plan (some r))
    (hgated : a.gated = true) :
    r.names run_id plan.tool_call = true ∧ a.now ≤ r.expires_ts_ms.toNat := by
  obtain ⟨descriptor,grant,_,hg,hgate,hcall⟩ := authorize_ok a.hauth
  have hmode : a.grants.mode plan.tool_call.tool_id = some grant := hg
  have hrequired : ToolRegistry.gateRequired descriptor grant a.r.st.tainted = true := by
    simpa [Admission.gated,hmode,hcall] using hgated
  obtain ⟨r',hr,hrun,hid,htool,hexp⟩ := validateReceipt_ok (hgate hrequired)
  cases hr
  exact ⟨by simp [GateReceipt.names,hrun,hid,htool],hexp⟩

theorem Admission.request (a : Admission h run_id plan receipt) :
    a.call.call_id = plan.tool_call.call_id ∧ a.call.descriptor.id = plan.tool_call.tool_id := by
  obtain ⟨descriptor,grant,hd,_,_,hcall⟩ := authorize_ok a.hauth
  rw [hcall]
  exact ⟨rfl,h.tools.keyed _ _ hd⟩

theorem RunRead.seen_inj {r r' : RunRead run_id} (heq : r.seen = r'.seen) : r = r' := by
  simp only [RunRead.seen,List.cons.injEq,Obs.answer.injEq,heq_eq_eq,true_and,and_true,
    Option.some.injEq] at heq
  obtain ⟨grants,hg,hp⟩ := r.parsed
  obtain ⟨grants',hg',hp'⟩ := r'.parsed
  obtain ⟨hraw,hrows⟩ := heq
  rw [hrows,hg'] at hg
  cases hg
  rw [hraw,hp'] at hp
  have hst := Except.ok.inj hp
  cases r
  cases r'
  simp only [RunRead.mk.injEq]
  exact ⟨hraw,hrows,hst.symm⟩

theorem Admission.seen_inj {a a' : Admission h run_id plan receipt} (heq : a.seen = a'.seen) :
    a = a' := by
  obtain ⟨hreads,hclock⟩ := append_inj' heq rfl
  simp only [List.cons.injEq,Obs.clock.injEq,and_true] at hclock
  have hr := RunRead.seen_inj hreads
  obtain ⟨r,now,grants,level,call,_,_,_,_,_,hgrants,hlevel,hauth⟩ := a
  obtain ⟨r',now',grants',level',call',_,_,_,_,_,hgrants',hlevel',hauth'⟩ := a'
  cases hr
  cases hclock
  have hg := Except.ok.inj (hgrants.symm.trans hgrants')
  have hl := Except.ok.inj (hlevel.symm.trans hlevel')
  cases hg
  cases hl
  have hc := Except.ok.inj (hauth.symm.trans hauth')
  cases hc
  rfl

end

def AdmittedOn (receipt : GateReceipt) (e : RunEntry) : Prop :=
  ∃ h run_id plan, ∃ a : Admission h run_id plan (some receipt),
    e = .applied (.prepareStep h run_id plan (some receipt)) a.seen a.batch ∧ a.gated = true

def SingleUse (es : List RunEntry) : Prop :=
  es.Pairwise fun e f => ∀ receipt, AdmittedOn receipt e → ¬ AdmittedOn receipt f

def reusesCall (s : RunDb) : HarnessCall → Bool
  | .prepareStep _ run_id plan (some receipt) =>
    receipt.names run_id plan.tool_call && s.steps.rows.any fun row =>
      decide (row.1.run_id = run_id) && decide (row.2.tool_call_id = some plan.tool_call.call_id)
  | _ => false

/-- Every receipt spent is on the sheet of its step, and none twice. -/
structure ReceiptLedger (s : RunDb) (es : List RunEntry) : Prop where
  spent : ∀ e ∈ es, ∀ receipt, AdmittedOn receipt e → ∃ i sheet,
    sheets s ⟨receipt.run_id,i⟩ = some sheet ∧ sheet.call_id = some receipt.call_id
  single : SingleUse es

section
variable {s s' : RunDb} {es : List RunEntry} {op : HarnessCall} {seen : List (Obs runSignature)}
variable {b : List RunEvent} {sheet : CallSheet}

theorem Told.sheets_keep (htold : Told op seen b) (h : s.applyEvents b = .ok s') {key : StepKey}
    (hs : sheets s key = some sheet) : sheets s' key = some sheet := by
  cases htold with
  | step a =>
    obtain ⟨hfree,hsheets⟩ := stepEvents_sheets h
    rw [hsheets,Function.update_of_ne]
    · exact hs
    · intro hkey
      rw [← hkey,hs] at hfree
      cases hfree
  | other hd hno =>
    rw [applyEvents_quiet h hno]
    exact hs

theorem singleUse_snoc {e : RunEntry} (h : SingleUse es)
    (he : ∀ f ∈ es, ∀ receipt, AdmittedOn receipt f → ¬ AdmittedOn receipt e) :
    SingleUse (es ++ [e]) := by
  refine pairwise_append.mpr ⟨h,pairwise_singleton _ _,?_⟩
  intro f hf e' he'
  rw [mem_singleton.mp he']
  exact he f hf

variable {receipt : GateReceipt} {run_id : RunId}

theorem reusesCall_of_sheet {plan : StepPlan} {h : RunHarness} {i : Nat}
    (hnames : receipt.names run_id plan.tool_call = true)
    (hs : sheets s ⟨run_id,i⟩ = some sheet) (hcall : sheet.call_id = some plan.tool_call.call_id) :
    reusesCall s (.prepareStep h run_id plan (some receipt)) = true := by
  obtain ⟨row,hrow,hsheet⟩ := Option.map_eq_some_iff.mp hs
  have hmem := s.steps.mem_rows.mpr hrow
  simp only [reusesCall,hnames,Bool.true_and,any_eq_true,Bool.and_eq_true,decide_eq_true_eq]
  refine ⟨_,hmem,rfl,?_⟩
  rw [← hcall,← hsheet]
  rfl

theorem names_iff {request : ToolCallRequest} :
    receipt.names run_id request = true ↔ receipt.run_id = run_id ∧
      receipt.call_id = request.call_id ∧ receipt.tool_id = request.tool_id := by
  simp [GateReceipt.names,and_assoc]

theorem admittedOn_applied (hon : AdmittedOn receipt (.applied op seen b)) :
    ∃ h run_id plan, ∃ a : Admission h run_id plan (some receipt),
      op = .prepareStep h run_id plan (some receipt) ∧ b = a.batch ∧
        receipt.names run_id plan.tool_call = true := by
  obtain ⟨h,run_id,plan,a,heq,hgated⟩ := hon
  cases heq
  exact ⟨h,run_id,plan,a,rfl,rfl,(a.validated hgated).1⟩

theorem ReceiptLedger.applied (hinv : ReceiptLedger s es) (htold : Told op seen b)
    (hmay : reusesCall s op = false) (h : s.applyEvents b = .ok s') :
    ReceiptLedger s' (es ++ [.applied op seen b]) := by
  refine ⟨?_,singleUse_snoc hinv.single ?_⟩
  · intro e he receipt hon
    rcases mem_append.mp he with he | he
    · obtain ⟨i,sheet,hs,hcall⟩ := hinv.spent e he receipt hon
      exact ⟨i,sheet,htold.sheets_keep h hs,hcall⟩
    · rw [mem_singleton.mp he] at hon
      obtain ⟨harness,run_id,plan,a,rfl,rfl,hnames⟩ := admittedOn_applied hon
      obtain ⟨hrun,hcall,_⟩ := names_iff.mp hnames
      obtain ⟨_,hsheets⟩ := stepEvents_sheets h
      rw [← a.stepKey_eq] at hsheets
      refine ⟨a.call.step_index.toNat,callSheet a.call.domainCall,?_,?_⟩
      · have hkey : (⟨receipt.run_id,a.call.step_index.toNat⟩ : StepKey) = a.call.stepKey := by
          rw [AuthorizedToolCall.stepKey,a.target.1,hrun]
        rw [hkey,hsheets,Function.update_self]
      · rw [hcall,← a.request.1]
        rfl
  · intro f hf receipt hold hon
    obtain ⟨harness,run_id,plan,a,rfl,rfl,hnames⟩ := admittedOn_applied hon
    obtain ⟨hrun,hcall,_⟩ := names_iff.mp hnames
    obtain ⟨i,sheet,hs,hid⟩ := hinv.spent f hf receipt hold
    rw [hrun] at hs
    rw [hcall] at hid
    rw [reusesCall_of_sheet hnames hs hid] at hmay
    cases hmay

theorem ReceiptLedger.returned (hinv : ReceiptLedger s es) (op : HarnessCall)
    (reply : HarnessReply) : ReceiptLedger s (es ++ [.returned op reply]) := by
  refine ⟨?_,singleUse_snoc hinv.single ?_⟩
  · intro e he receipt hon
    rcases mem_append.mp he with he | he
    · exact hinv.spent e he receipt hon
    · rw [mem_singleton.mp he] at hon
      obtain ⟨_,_,_,_,heq,_⟩ := hon
      cases heq
  · intro f hf receipt _ hon
    obtain ⟨_,_,_,_,heq,_⟩ := hon
    cases heq

end

section Runs
variable {G : Guard runSignature HarnessCall HarnessError HarnessReply RunDb} {es : List RunEntry}
variable {c : Config runSignature HarnessCall HarnessError HarnessReply RunDb}

/-- In every run in which no receipt is shown for a call id that a committed step
of the Run already has, no receipt admits two steps. -/
theorem receipts_single_use (hG : ∀ s op, G.append s op → reusesCall s op = false)
    (h : Trace runSystem G RunDb.empty es c) :
    c.store.log = es.flatMap entryBatch ∧ SingleUse es := by
  have hrule : HistoryRule Told Handed (fun _ _ _ => True) runSystem G ReceiptLedger :=
    ⟨fun _ op _ => code_tells op,fun _ _ _ _ _ _ => trivial,
      fun _ _ _ _ _ _ hinv hA _ hg ha => hinv.applied hA (hG _ _ hg) (runApply_ok ha).2,
      fun _ _ _ _ _ _ hinv _ _ => hinv.returned _ _⟩
  have hinv := trace_inv hrule ⟨by rintro e ⟨⟩,.nil⟩ h
  exact ⟨(trace_told h).1,hinv.single⟩

end Runs

def approves : RunEvent → Bool
  | .gateApproved .. => true
  | _ => false

def GateReceipt.event (receipt : GateReceipt) (run_id : RunId) : RunEvent :=
  .gateApproved run_id receipt.receipt_id receipt.call_id receipt.approved_by receipt.reason
    receipt.expires_ts_ms

/-- An approval records an unexpired receipt that names the Run, the call and the
tool of the step right behind it, and the step needed it. -/
structure ApprovalSound (e : RunEntry) (approval : RunEvent) (post : List RunEvent)
    (h : RunHarness) (run_id : RunId) (plan : StepPlan) (receipt : GateReceipt)
    (a : Admission h run_id plan (some receipt)) : Prop where
  entry : e = .applied (.prepareStep h run_id plan (some receipt)) a.seen a.batch
  recorded : approval = receipt.event run_id
  step : post = [.stepCommittedV2 run_id plan.step_index plan.phase plan.summary plan.digest
    (some a.call.domainCall) plan.reserved]
  run : receipt.run_id = run_id
  call : receipt.call_id = a.call.call_id
  tool : receipt.tool_id = a.call.descriptor.id
  unexpired : a.now ≤ receipt.expires_ts_ms.toNat
  needed : a.gated = true

def ApprovalsSound (e : RunEntry) : Prop :=
  ∀ pre approval post, entryBatch e = pre ++ approval::post → approves approval = true →
    ∃ h run_id plan receipt a, ApprovalSound e approval post h run_id plan receipt a

def ReceiptNeeded (e : RunEntry) : Prop :=
  ∀ h run_id plan receipt, ∀ a : Admission h run_id plan (some receipt),
    e = .applied (.prepareStep h run_id plan (some receipt)) a.seen a.batch → a.gated = true

section Approvals
variable {op : HarnessCall} {seen : List (Obs runSignature)} {b : List RunEvent}

theorem effectEvents_approveless (call : AuthorizedToolCall) (report : ToolEffectReport)
    (state : RunState) (step : RunStepState) :
    ∀ e ∈ effectEvents call report state step, approves e = false := by
  intro e he
  rcases effectEvents_mem he with rfl | ⟨_,rfl⟩ | ⟨_,rfl⟩ | rfl | ⟨_,rfl⟩ <;> rfl

theorem Decision.approveless (hd : Decision op seen b) (hno : ∀ e ∈ b, commitsStep e = false) :
    ∀ e ∈ b, approves e = false := by
  intro e he
  cases hd with
  | step h run_id plan receipt r call hplan hat hpending hindex hadmits =>
    have hstep := hno (.stepCommittedV2 r.st.run_id plan.step_index plan.phase plan.summary
      plan.digest (some call.domainCall) plan.reserved) (by simp [stepEvents])
    cases hstep
  | effect call report r t hreport htarget hcheckpoint heffect =>
    exact effectEvents_approveless call report r.st t.st e he
  | settle _ run_id r control hpending hcounts hop =>
    rcases settleEvents_mem he with rfl | rfl | rfl <;> rfl
  | control _ run_id reason control r hop hterminal hpending hpaused =>
    rw [mem_singleton.mp he]
    cases control with
    | pause => rfl
    | cancel => rfl
  | _ =>
    rw [mem_singleton.mp he]
    rfl

theorem Admission.approval_split {h : RunHarness} {run_id : RunId} {plan : StepPlan}
    {receipt : Option GateReceipt} (a : Admission h run_id plan receipt) {pre post : List RunEvent}
    {approval : RunEvent} (hb : a.batch = pre ++ approval::post) (happ : approves approval = true) :
    ∃ r, receipt = some r ∧ approval = r.event run_id ∧
      post = [.stepCommittedV2 run_id plan.step_index plan.phase plan.summary plan.digest
        (some a.call.domainCall) plan.reserved] := by
  rw [Admission.batch,stepEvents,a.r.run_id_eq] at hb
  cases receipt with
  | none =>
    simp only [gateEvents,nil_append,singleton_eq_append_iff,List.cons.injEq,
      reduceCtorEq,and_false,or_false] at hb
    obtain ⟨_,rfl,_⟩ := hb
    cases happ
  | some r =>
    refine ⟨r,rfl,?_⟩
    simp only [gateEvents,a.r.run_id_eq,cons_append,nil_append] at hb
    rcases pre with _ | ⟨first,_ | ⟨second,pre⟩⟩
    · simp only [nil_append,List.cons.injEq] at hb
      exact ⟨hb.1.symm,hb.2.symm⟩
    · simp only [cons_append,nil_append,List.cons.injEq] at hb
      obtain ⟨_,rfl,_⟩ := hb
      cases happ
    · simp at hb

theorem approvalsSound_iff {e : RunEntry} (htold : EntryTold e) :
    ApprovalsSound e ↔ ReceiptNeeded e := by
  constructor
  · rintro hsound h run_id plan receipt a rfl
    obtain ⟨h',run_id',plan',receipt',a',hs⟩ := hsound [] (receipt.event run_id)
      [.stepCommittedV2 run_id plan.step_index plan.phase plan.summary plan.digest
        (some a.call.domainCall) plan.reserved]
      (by simp [entryBatch,Admission.batch,stepEvents,gateEvents,GateReceipt.event,a.r.run_id_eq])
      rfl
    have hentry := hs.entry
    simp only [Entry.applied.injEq,HarnessCall.prepareStep.injEq,Option.some.injEq] at hentry
    obtain ⟨⟨rfl,rfl,rfl,rfl⟩,hseen,_⟩ := hentry
    rw [Admission.seen_inj hseen]
    exact hs.needed
  · intro hneeded pre approval post hb happ
    cases e with
    | returned op reply => simp [entryBatch] at hb
    | applied op seen b =>
      cases htold with
      | step a =>
        obtain ⟨r,hr,hrecord,hpost⟩ := a.approval_split hb happ
        subst hr
        have hgated := hneeded _ _ _ _ a rfl
        obtain ⟨hnames,hexp⟩ := a.validated hgated
        obtain ⟨hrun,hcall,htool⟩ := names_iff.mp hnames
        exact ⟨_,_,_,r,a,rfl,hrecord,hpost,hrun,hcall.trans a.request.1.symm,
          htool.trans a.request.2.symm,hexp,hgated⟩
      | other hd hno =>
        have hmem : approval ∈ b := by
          have hb' : b = pre ++ approval::post := hb
          simp [hb']
        rw [Decision.approveless hd hno approval hmem] at happ
        cases happ

end Approvals

/-- In every run the log is made of the appended batches, and an approval stands right
before the step it was passed for. The approvals of a run are all sound exactly when
every receipt was passed for a call that needed one. -/
theorem approvals_sound_iff {G : Guard runSignature HarnessCall HarnessError HarnessReply RunDb}
    {es : List RunEntry} {c : Config runSignature HarnessCall HarnessError HarnessReply RunDb}
    (h : Trace runSystem G RunDb.empty es c) :
    c.store.log = es.flatMap entryBatch ∧
    (∀ e ∈ es, ∀ pre approval post, entryBatch e = pre ++ approval::post →
      approves approval = true → ∃ step ∈ post, commitsStep step = true ∧
        step.run = approval.run) ∧
    ((∀ e ∈ es, ApprovalsSound e) ↔ ∀ e ∈ es, ReceiptNeeded e) := by
  obtain ⟨hlog,htold⟩ := trace_told h
  refine ⟨hlog,?_,?_⟩
  · intro e he pre approval post hb happ
    have htold := htold e he
    cases e with
    | returned op reply => simp [entryBatch] at hb
    | applied op seen b =>
      cases htold with
      | step a =>
        obtain ⟨r,_,rfl,rfl⟩ := a.approval_split hb happ
        exact ⟨_,mem_singleton.mpr rfl,rfl,rfl⟩
      | other hd hno =>
        have hmem : approval ∈ b := by
          have hb' : b = pre ++ approval::post := hb
          simp [hb']
        rw [Decision.approveless hd hno approval hmem] at happ
        cases happ
  · constructor
    · intro hsound e he
      exact (approvalsSound_iff (htold e he)).mp (hsound e he)
    · intro hneeded e he
      exact (approvalsSound_iff (htold e he)).mpr (hneeded e he)

def sendTool : ToolId := ⟨"message.send",by decide⟩

def sendDescriptor : ToolDescriptor :=
  ⟨sendTool,1,.egress "message",.allow,.idempotent,64,version_one,demo_input_bound⟩

def sendHarness : RunHarness :=
  { demoHarness with tools := ToolRegistry.empty.insert sendDescriptor }

def sendSpec : RunStartSpec := { demoSpec with tool_grants := ⟨Table.empty.put sendTool .allow⟩ }

def sendPlan (step_index : UInt32) (call_id : ToolCallId) : StepPlan :=
  { demoPlan with step_index := step_index, tool_call := ⟨sendTool,call_id,[]⟩ }

def sendReceipt (call_id : ToolCallId) : GateReceipt where
  receipt_id := ⟨6⟩
  run_id := ⟨7⟩
  call_id := call_id
  tool_id := sendTool
  approved_by := ⟨8⟩
  reason := "send this message"
  expires_ts_ms := 100
  reason_visible := by decide

def sendCall (step_index : UInt32) (call_id : ToolCallId) : AuthorizedToolCall :=
  ⟨⟨7⟩,step_index,sendDescriptor,call_id,idempotencyKey ⟨7⟩ step_index call_id,[]⟩

def sendReport : ToolEffectReport := ⟨0,0,⟨5,5,5,5,1,0,1⟩,none,none⟩

def sendTwiceMoves (second : ToolCallId) : List (Move runSignature HarnessCall) :=
  [.spawn 0 (.start sendHarness sendSpec),.turn 0,.turn 0,.stop 0,
    .spawn 0 (.prepareStep sendHarness ⟨7⟩ (sendPlan 0 ⟨3⟩) (some (sendReceipt ⟨3⟩))),.turn 0,
    .turn 0,.clock 0 0,.turn 0,.turn 0,.stop 0,
    .spawn 0 (.recordEffect (sendCall 0 ⟨3⟩) sendReport),.turn 0,.turn 0,.turn 0,.turn 0,.turn 0,
    .stop 0,
    .spawn 0 (.prepareStep sendHarness ⟨7⟩ (sendPlan 1 second) (some (sendReceipt second))),
    .turn 0,.turn 0,.clock 0 1,.turn 0,.turn 0]

def sendsUnder (receipt : GateReceipt) : RunEntry → Bool
  | .applied (.prepareStep h _ plan (some r)) _ b =>
    decide (r = receipt) && b.any commitsStep &&
      (h.tools.entries.get? plan.tool_call.tool_id).any fun d => d.scope.isAlwaysGated
  | _ => false

theorem sendsUnder_admitted {receipt : GateReceipt} {e : RunEntry} (htold : EntryTold e)
    (h : sendsUnder receipt e = true) : AdmittedOn receipt e := by
  unfold sendsUnder at h
  split at h
  · rename_i harness run_id plan r seen b
    simp only [Bool.and_eq_true,decide_eq_true_eq,any_eq_true] at h
    obtain ⟨⟨rfl,e,he,hcommit⟩,hgate⟩ := h
    cases htold with
    | step a =>
      refine ⟨harness,run_id,plan,a,rfl,?_⟩
      obtain ⟨descriptor,grant,hd,hg,_,hcall⟩ := authorize_ok a.hauth
      have hmode : a.grants.mode plan.tool_call.tool_id = some grant := hg
      rw [hd,Option.any_some] at hgate
      simp [Admission.gated,hmode,hcall,ToolRegistry.gateRequired,hgate]
    | other hd hno =>
      rw [hno e he] at hcommit
      cases hcommit
  · cases h

theorem not_singleUse {es : List RunEntry} (htold : ∀ e ∈ es, EntryTold e) (receipt : GateReceipt)
    (h : 1 < (es.filter (sendsUnder receipt)).length) : ¬ SingleUse es := by
  intro hsingle
  have hpair := hsingle.filter (sendsUnder receipt)
  match hes : es.filter (sendsUnder receipt),h with
  | e::f::rest,_ =>
    rw [hes] at hpair
    have he : e ∈ es.filter (sendsUnder receipt) := by simp [hes]
    have hf : f ∈ es.filter (sendsUnder receipt) := by simp [hes]
    rw [mem_filter] at he hf
    exact rel_of_pairwise_cons hpair (by simp) receipt
      (sendsUnder_admitted (htold e he.1) he.2) (sendsUnder_admitted (htold f hf.1) hf.2)

theorem receipt_admits_two_steps :
    ¬ ∀ es c, Trace runSystem Guard.free RunDb.empty es c → SingleUse es := by
  intro h
  have htrace : Trace runSystem Guard.free RunDb.empty
      (history runSystem RunDb.empty (sendTwiceMoves ⟨3⟩))
      (after runSystem RunDb.empty (sendTwiceMoves ⟨3⟩)) := history_free (by decide)
  exact not_singleUse (trace_told htrace).2 (sendReceipt ⟨3⟩) (by decide) (h _ _ htrace)

def strayMoves : List (Move runSignature HarnessCall) :=
  [.spawn 0 (.start demoHarness demoSpec),.turn 0,.turn 0,.stop 0,
    .spawn 0 (.prepareStep demoHarness ⟨7⟩ demoPlan (some (sendReceipt ⟨3⟩))),.turn 0,.turn 0,
    .clock 0 200,.turn 0,.turn 0]

def strays : RunEntry → Bool
  | .applied (.prepareStep _ run_id plan (some receipt)) _ b =>
    b.any approves && !receipt.names run_id plan.tool_call
  | _ => false

theorem strays_unsound {e : RunEntry} (h : strays e = true) : ¬ ApprovalsSound e := by
  intro hsound
  unfold strays at h
  split at h
  · rename_i harness run_id plan receipt seen b
    simp only [Bool.and_eq_true,any_eq_true,Bool.not_eq_true'] at h
    obtain ⟨⟨approval,hmem,happ⟩,hnames⟩ := h
    obtain ⟨pre,post,hb⟩ := append_of_mem hmem
    obtain ⟨h',run_id',plan',receipt',a,hs⟩ := hsound pre approval post hb happ
    have hentry := hs.entry
    simp only [Entry.applied.injEq,HarnessCall.prepareStep.injEq,Option.some.injEq] at hentry
    obtain ⟨⟨rfl,rfl,rfl,rfl⟩,_⟩ := hentry
    rw [names_iff.mpr ⟨hs.run,hs.call.trans a.request.1,hs.tool.trans a.request.2⟩] at hnames
    cases hnames
  · cases h

theorem stray_approval_recorded :
    ¬ ∀ es c, Trace runSystem Guard.free RunDb.empty es c → ∀ e ∈ es, ApprovalsSound e := by
  intro h
  have htrace : Trace runSystem Guard.free RunDb.empty (history runSystem RunDb.empty strayMoves)
      (after runSystem RunDb.empty strayMoves) := history_free (by decide)
  have hany : (history runSystem RunDb.empty strayMoves).any strays = true := by decide
  obtain ⟨e,he,hstray⟩ := any_eq_true.mp hany
  exact strays_unsound hstray (h _ _ htrace e he)

theorem approvals_sound_iff_demo :
    (after runSystem RunDb.empty (sendTwiceMoves ⟨4⟩)).store.log.countP approves = 2 ∧
      ((∀ e ∈ history runSystem RunDb.empty (sendTwiceMoves ⟨4⟩), ApprovalsSound e) ↔
        ∀ e ∈ history runSystem RunDb.empty (sendTwiceMoves ⟨4⟩), ReceiptNeeded e) := by
  refine ⟨by decide,?_⟩
  have htrace : Trace runSystem Guard.free RunDb.empty
      (history runSystem RunDb.empty (sendTwiceMoves ⟨4⟩))
      (after runSystem RunDb.empty (sendTwiceMoves ⟨4⟩)) := history_free (by decide)
  exact (approvals_sound_iff htrace).2.2

def freshCallIds : Guard runSignature HarnessCall HarnessError HarnessReply RunDb :=
  ⟨fun _ _ => True,fun _ _ => True,fun s op => reusesCall s op = false⟩

def movesFreshly (c : Config runSignature HarnessCall HarnessError HarnessReply RunDb)
    (m : Move runSignature HarnessCall) : Bool :=
  match m with
  | .turn i => (c.threads i).all fun t => !reusesCall c.store t.op
  | _ => true

theorem freshCallIds_permits :
    freshCallIds.Permits runSystem (fun _ => True) fun c m => movesFreshly c m = true := by
  refine Guard.permits_of ?_
  intro c m hok
  cases m with
  | turn i =>
    intro t hi
    have hfresh : reusesCall c.store t.op = false := by simpa [movesFreshly,hi] using hok
    exact ⟨fun _ => trivial,fun _ => hfresh⟩
  | _ => exact trivial

theorem receipts_single_use_demo :
    ((history runSystem RunDb.empty (sendTwiceMoves ⟨4⟩)).filter
      (fun e => (entryBatch e).any commitsStep)).length = 2 ∧
      SingleUse (history runSystem RunDb.empty (sendTwiceMoves ⟨4⟩)) := by
  refine ⟨by decide,?_⟩
  have htrace : Trace runSystem freshCallIds RunDb.empty
      (history runSystem RunDb.empty (sendTwiceMoves ⟨4⟩))
      (after runSystem RunDb.empty (sendTwiceMoves ⟨4⟩)) :=
    history_trace freshCallIds_permits trivial (by decide) (by decide)
  exact (receipts_single_use (fun _ _ h => h) htrace).2

end ProjectOS.Agents
