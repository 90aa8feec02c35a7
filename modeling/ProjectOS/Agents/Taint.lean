import ProjectOS.Agents.Corruption
import ProjectOS.Agents.Gates

/-! Taint. The receipt that a tainted Run's effects need is demanded when a step is
committed; a step found committed is handed out again without a look at it. -/

namespace ProjectOS.Agents
open Lib Lib.Optimistic Domain RunHarness List

def ToolDescriptor.taintGated (d : ToolDescriptor) : Bool :=
  d.scope.isEgress || d.effect ≠ .readOnly

def taintsRun (id : RunId) : RunEvent → Bool
  | .startedV2 body => decide (body.run_id = id) && body.tainted
  | .taintRaised r _ => decide (r = id)
  | _ => false

def Tainted (id : RunId) (log : List RunEvent) : Prop := log.any (taintsRun id) = true

def Outstanding (key : StepKey) (log : List RunEvent) : Prop := log.countP (isReceipt key) = 0

def entryOp : RunEntry → HarnessCall
  | .applied op _ _ => op
  | .returned op _ => op

def logOf (es : List RunEntry) : List RunEvent := es.flatMap entryBatch

structure StepCommit where
  harness : RunHarness
  run_id : RunId
  plan : StepPlan
  receipt : Option GateReceipt
  admission : Admission harness run_id plan receipt

namespace StepCommit

def call (k : StepCommit) : AuthorizedToolCall := k.admission.call

def entry (k : StepCommit) : RunEntry :=
  .applied (.prepareStep k.harness k.run_id k.plan k.receipt) k.admission.seen k.admission.batch

def Receipted (k : StepCommit) : Prop :=
  ∃ r, k.receipt = some r ∧ r.names k.run_id k.plan.tool_call = true ∧
    k.admission.now ≤ r.expires_ts_ms.toNat

theorem entry_injective : Function.Injective entry := by
  intro k k' h
  obtain ⟨h1,r1,p1,g1,a⟩ := k
  obtain ⟨h2,r2,p2,g2,a'⟩ := k'
  simp only [entry,Entry.applied.injEq,HarnessCall.prepareStep.injEq] at h
  obtain ⟨⟨rfl,rfl,rfl,rfl⟩,hseen,_⟩ := h
  rw [Admission.seen_inj hseen]

end StepCommit

def ReceiptRecorded (es : List RunEntry) (call : AuthorizedToolCall) : Prop :=
  ∃ k : StepCommit, ∃ r, k.entry ∈ es ∧ k.call.stepKey = call.stepKey ∧ k.receipt = some r ∧
    .gateApproved call.run_id r.receipt_id call.call_id r.approved_by r.reason r.expires_ts_ms ∈
      entryBatch k.entry ∧
    r.run_id = call.run_id ∧ r.tool_id = call.descriptor.id ∧ r.call_id = call.call_id ∧
    k.admission.now ≤ r.expires_ts_ms.toNat

/-- A gated effect of a tainted run carries a recorded receipt. -/
def handedGated (pre : List RunEntry) : RunEntry → Prop
  | .returned _ (.preparation (.effect call)) => call.descriptor.taintGated = true →
    Tainted call.run_id (logOf pre) → ReceiptRecorded pre call
  | _ => True

/-- When the taint comes, no gated step is outstanding without a receipt. -/
def taintedInTime (pre : List RunEntry) : RunEntry → Prop
  | .applied (.raiseTaint run_id _) _ _ => ∀ k : StepCommit, k.entry ∈ pre → k.run_id = run_id →
    k.call.descriptor.taintGated = true → Outstanding k.call.stepKey (logOf pre) → k.Receipted
  | _ => True

def HarnessCall.drawsOn (catalogue : ToolId → UInt16 → Option ToolDescriptor) : HarnessCall → Prop
  | .prepareStep h _ _ _ => ∀ id d, h.tools.entries.get? id = some d →
    catalogue d.id d.version = some d
  | _ => True

/-- Every call draws on the catalogue, and is tainted before its effect is used. -/
structure TaintsInTime (catalogue : ToolId → UInt16 → Option ToolDescriptor)
    (es : List RunEntry) : Prop where
  tools : ∀ e ∈ es, (entryOp e).drawsOn catalogue
  taints : Ordered taintedInTime es

structure ToolColumns where
  tool_id : Option String
  version : Option Int
  call_id : Option ToolCallId

def StepRow.toolColumns (row : StepRow) : ToolColumns :=
  ⟨row.tool_id,row.tool_descriptor_version,row.tool_call_id⟩

def toolColumns (call : RunToolCall) : ToolColumns :=
  ⟨some call.tool_id,some (call.descriptor_version.toNat : Int),some call.call_id⟩

def toolsAt (s : RunDb) : StepKey → Option ToolColumns := s.steps.column StepRow.toolColumns

theorem toolColumns_writtenOnce : WrittenOnce StepRow.toolColumns := by
  intro seq e key guard g row h
  cases e <;> first | (cases h; done) | (cases h; rfl)

theorem parseToolCall_columns {raw : StepRow} {call : RunToolCall}
    (h : parseToolCall raw = .ok (some call)) : StepRow.toolColumns raw = toolColumns call := by
  unfold parseToolCall at h
  split at h
  · cases h
  · rename_i h1 h2 h3 h4 h5
    obtain ⟨version,hv,h⟩ := bind_ok h
    cases h
    have hversion := toU16_ok hv
    simp [StepRow.toolColumns,toolColumns,h1,h2,h3,hversion]
  · cases h

variable {step_index : UInt32}

theorem StepRead.columns_eq {run_id : RunId} (t : StepRead run_id step_index)
    {call : RunToolCall} (h : t.st.tool_call = some call) :
    StepRow.toolColumns t.raw = toolColumns call := by
  have hc := (parseStep_ok t.parsed).tool_call
  rw [h] at hc
  exact parseToolCall_columns hc

theorem StepRead.no_effect {run_id : RunId} (t : StepRead run_id step_index)
    (h : t.st.effect = none) : t.raw.effect_recorded_seq = none := by
  have hc := (parseStep_ok t.parsed).effect
  rw [h] at hc
  unfold parseEffect at hc
  split at hc
  · assumption
  · obtain ⟨_,_,hc⟩ := bind_ok hc
    obtain ⟨_,_,hc⟩ := bind_ok hc
    cases hc
  · cases hc

section Marks
variable {s s' : RunDb} {e : RunEvent} {b : List RunEvent}

theorem taintsRun_about {id : RunId} (h : taintsRun id e = true) : e.run = id := by
  cases e with
  | startedV2 body =>
    simp only [taintsRun,Bool.and_eq_true,decide_eq_true_eq] at h
    exact h.1
  | taintRaised r source =>
    simp only [taintsRun,decide_eq_true_eq] at h
    exact h
  | _ => cases h

theorem tainted_append {id : RunId} {log : List RunEvent} :
    Tainted id (log ++ b) ↔ Tainted id log ∨ Tainted id b := by
  simp [Tainted]

def TaintsMarked (s : RunDb) : Prop :=
  ∀ id, Tainted id s.log → s.runs.column RunRow.tainted id = some 1

theorem taints_event (h : s.applyEvent e = .ok s') (hs : TaintsMarked s) : TaintsMarked s' := by
  obtain ⟨hlog,hruns,_⟩ := RunDb.applyEvent_ok h
  intro id ht
  rw [hlog,tainted_append] at ht
  have hrow := RunDb.applyEvent_run h id
  by_cases hid : e.run = id
  · rw [if_pos hid] at hrow
    rw [Table.column,hrow]
    have hold : Tainted id s.log → ∃ row, s.runs.get? id = some row ∧ row.tainted = 1 :=
      fun ht => Option.map_eq_some_iff.mp (hs id ht)
    cases e with
    | startedV1 r worker trigger =>
      obtain ⟨hnone,_⟩ := insertRow_ok hruns
      obtain rfl : r = id := hid
      obtain ⟨row,hrow,_⟩ := hold (ht.resolve_right (by rintro ⟨⟩))
      rw [hrow] at hnone
      cases hnone
    | startedV2 body =>
      obtain ⟨hnone,_⟩ := insertRow_ok hruns
      obtain rfl : body.run_id = id := hid
      rcases ht with ht | ht
      · obtain ⟨row,hrow,_⟩ := hold ht
        rw [hrow] at hnone
        cases hnone
      · simp only [Tainted,any_cons,any_nil,Bool.or_false,taintsRun,Bool.and_eq_true] at ht
        simp [runsProjection,RunWrite.onRow,runValuesV2,ht.2]
    | taintRaised r source =>
      obtain ⟨row,hfind,_⟩ := updateOne_ok hruns
      obtain rfl : r = id := hid
      rw [hfind]
      rfl
    | finishedV2 r outcome total spent validation =>
      obtain ⟨row,hrow,hone⟩ := hold (ht.resolve_right (by rintro ⟨⟩))
      rw [hrow]
      cases validation with
      | none | some => exact congrArg some hone
    | _ =>
      obtain ⟨row,hrow,hone⟩ := hold (ht.resolve_right (by rintro ⟨⟩))
      rw [hrow]
      exact congrArg some hone
  · rw [if_neg hid] at hrow
    rw [Table.column,hrow]
    refine hs id (ht.resolve_right ?_)
    intro hnew
    simp only [Tainted,any_cons,any_nil,Bool.or_false] at hnew
    exact hid (taintsRun_about hnew)

theorem taints_batch (h : s.applyEvents b = .ok s') (hs : TaintsMarked s) : TaintsMarked s' :=
  RunDb.applyEvents_keep TaintsMarked (fun _ _ _ _ hst hs => taints_event hst hs) h hs

end Marks

/-- The rows tell which commit their step is from, and an outstanding step of a
tainted Run was shown a receipt if its tool needs one. -/
structure TaintLedger (catalogue : ToolId → UInt16 → Option ToolDescriptor) (s : RunDb)
    (es : List RunEntry) : Prop where
  sound : SoundDb s
  log : s.log = logOf es
  marks : TaintsMarked s
  rows : ∀ k : StepCommit, k.entry ∈ es →
    toolsAt s k.call.stepKey = some (toolColumns k.call.domainCall)
  commits : ∀ key cols, toolsAt s key = some cols →
    ∃ k : StepCommit, k.entry ∈ es ∧ k.call.stepKey = key
  -- the step an append has just committed has no effect yet
  fresh : ∀ pre (k : StepCommit), es = pre ++ [k.entry] → Outstanding k.call.stepKey s.log
  receipts : TaintsInTime catalogue es → ∀ k : StepCommit, k.entry ∈ es →
    k.call.descriptor.taintGated = true → Outstanding k.call.stepKey s.log →
    Tainted k.run_id s.log → k.Receipted
  gated : TaintsInTime catalogue es → Ordered handedGated es

section Ledger
variable {catalogue : ToolId → UInt16 → Option ToolDescriptor} {s s' : RunDb} {es : List RunEntry}
variable {b : List RunEvent}

theorem TaintsInTime.before {e : RunEntry} (h : TaintsInTime catalogue (es ++ [e])) :
    TaintsInTime catalogue es :=
  ⟨fun e' he => h.tools e' (mem_append_left _ he),h.taints.before⟩

variable {key : StepKey}

theorem outstanding_of_flags (hok : (tally s).Ok)
    (hflags : ∀ c, (tally s).flags key ≠ some (true,c)) : Outstanding key s.log := by
  show (tally s).receipts key = 0
  rcases hok key.run_id with ha | ⟨n,m,hl⟩
  · exact ha.receipts key.step_index
  · have hf := hl.flags key.step_index
    have hr := hl.receipts key.step_index
    have hgap := hl.gap
    by_cases hm : key.step_index < m
    · rw [if_pos (by omega)] at hf
      exact absurd hf (by simpa [hm] using hflags true)
    · rw [if_neg hm] at hr
      exact hr

variable {run_id : RunId} {receipt : Option GateReceipt} {h : RunHarness}

theorem Admission.receipted_of_tainted {plan : StepPlan} (a : Admission h run_id plan receipt)
    (htool : a.call.descriptor.taintGated = true) (htaint : a.r.st.tainted = true) :
    ∃ r, receipt = some r ∧ r.names run_id plan.tool_call = true ∧
      a.now ≤ r.expires_ts_ms.toNat := by
  obtain ⟨descriptor,grant,_,_,hgate,hcall⟩ := authorize_ok a.hauth
  have hrequired : ToolRegistry.gateRequired descriptor grant a.r.st.tainted = true := by
    rw [hcall] at htool
    simp only [ToolDescriptor.taintGated] at htool
    simp only [ToolRegistry.gateRequired,htaint,htool,Bool.true_and,Bool.or_true]
  obtain ⟨r,hr,hrun,hid,htool,hexp⟩ := validateReceipt_ok (hgate hrequired)
  exact ⟨r,hr,by simp [GateReceipt.names,hrun,hid,htool],hexp⟩

theorem RunRead.tainted {r : RunRead run_id} (hmarks : TaintsMarked s)
    (hseen : Compat currentCompat r.seen s) (ht : Tainted run_id s.log) : r.st.tainted = true := by
  obtain ⟨hrow,_⟩ := RunRead.current hseen
  obtain ⟨grants,hp⟩ := r.facts
  have hmark := hmarks run_id ht
  rw [Table.column,hrow] at hmark
  have hone : r.raw.tainted = 1 := Option.some.inj hmark
  have hparsed := hp.tainted
  rw [hone] at hparsed
  exact (Except.ok.inj hparsed).symm

theorem logOf_snoc (es : List RunEntry) (e : RunEntry) :
    logOf (es ++ [e]) = logOf es ++ entryBatch e := by
  simp [logOf]

theorem StepCommit.entry_commits (k : StepCommit) :
    ∃ e ∈ entryBatch k.entry, commitsStep e = true :=
  ⟨_,mem_append_right _ (mem_singleton.mpr rfl),rfl⟩

variable {k : StepCommit} {op : HarnessCall} {seen : List (Obs runSignature)}

theorem StepCommit.not_last (hno : ∀ e ∈ b, commitsStep e = false) :
    k.entry ≠ .applied op seen b := by
  intro heq
  obtain ⟨e,he,hcommits⟩ := k.entry_commits
  rw [heq] at he
  rw [hno e he] at hcommits
  cases hcommits

theorem StepCommit.mem_snoc {e : RunEntry} (h : k.entry ∈ es ++ [e]) (hne : k.entry ≠ e) :
    k.entry ∈ es := by
  rcases mem_append.mp h with h | h
  · exact h
  · exact absurd (mem_singleton.mp h) hne

theorem outstanding_before {log : List RunEvent} (h : Outstanding key (log ++ b)) :
    Outstanding key log := by
  unfold Outstanding at h
  rw [countP_append] at h
  exact Nat.eq_zero_of_add_eq_zero_right h

theorem TaintLedger.started (hinv : TaintLedger catalogue s es) (hk : k.entry ∈ es) :
    s.runs.get? k.run_id ≠ none := by
  intro hnone
  have hcols := hinv.rows k hk
  have hrun : k.call.stepKey.run_id = k.run_id := k.admission.target.1
  rcases hinv.sound.ledger k.call.stepKey.run_id with ha | ⟨n,m,hl⟩
  · have hflags := ha.flags k.call.stepKey.step_index
    rw [toolsAt,Table.column] at hcols
    obtain ⟨row,hrow,_⟩ := Option.map_eq_some_iff.mp hcols
    simp only [tally,Table.column] at hflags
    rw [show (⟨k.call.stepKey.run_id,k.call.stepKey.step_index⟩ : StepKey) = k.call.stepKey from rfl,
      hrow] at hflags
    cases hflags
  · have hcounts := hl.counts
    simp only [tally,Table.column,hrun,hnone] at hcounts
    cases hcounts

theorem gateEvents_untainted (st : RunState) (receipt : Option GateReceipt) (id : RunId) :
    ¬ Tainted id (gateEvents st receipt) := by
  intro h
  obtain ⟨e,he,ht⟩ := any_eq_true.mp h
  obtain ⟨_,_,rfl⟩ := gateEvents_mem he
  cases ht

theorem stepEvents_untainted (st : RunState) (plan : StepPlan) (call : AuthorizedToolCall)
    (receipt : Option GateReceipt) (id : RunId) : ¬ Tainted id (stepEvents st plan call receipt) := by
  intro h
  rcases tainted_append.mp h with h | h
  · exact gateEvents_untainted st receipt id h
  · cases h

theorem decision_taints {id : RunId} (hd : Decision op seen b) (ht : Tainted id b) :
    (∃ h spec runtime depth, b = [startedEvent h spec runtime depth] ∧ spec.run_id = id) ∨
      ∃ source, op = .raiseTaint id source := by
  cases hd with
  | start h spec runtime depth seen hbudget hlineage =>
    obtain ⟨e,he,ht⟩ := any_eq_true.mp ht
    have hrun := taintsRun_about ht
    rw [mem_singleton.mp he] at hrun
    exact Or.inl ⟨h,spec,runtime,depth,rfl,hrun⟩
  | step h run_id plan receipt r call hplan hat hpending hindex hadmits =>
    exact absurd ht (stepEvents_untainted _ _ _ _ _)
  | taint run_id source r =>
    obtain ⟨e,he,ht⟩ := any_eq_true.mp ht
    have hrun : run_id = id := by
      have h := taintsRun_about ht
      rw [mem_singleton.mp he] at h
      exact h
    exact Or.inr ⟨source,by rw [hrun]⟩
  | effect call report r t hreport htarget hcheckpoint heffect =>
    obtain ⟨e,he,ht⟩ := any_eq_true.mp ht
    rcases effectEvents_mem he with rfl | ⟨_,rfl⟩ | ⟨_,rfl⟩ | rfl | ⟨_,rfl⟩ <;> cases ht
  | settle _ run_id r control hpending hcounts hop =>
    obtain ⟨e,he,ht⟩ := any_eq_true.mp ht
    rcases settleEvents_mem he with rfl | rfl | rfl <;> cases ht
  | control _ run_id reason control r hop hterminal hpending hpaused =>
    obtain ⟨e,he,ht⟩ := any_eq_true.mp ht
    rw [mem_singleton.mp he] at ht
    cases control <;> cases ht
  | _ => cases ht

section
variable (hinv : TaintLedger catalogue s es)
include hinv

theorem TaintLedger.other (hd : Decision op seen b)
    (hno : ∀ e ∈ b, commitsStep e = false) (hseen : Compat currentCompat seen s)
    (h : s.applyEvents b = .ok s') : TaintLedger catalogue s' (es ++ [.applied op seen b]) := by
  have hlog := RunDb.applyEvents_log h
  have hcolumn : toolsAt s' = toolsAt s := steps_quiet_batch toolColumns_writtenOnce h hno
  refine ⟨(decision_sound hd hseen hinv.sound h).1,?_,taints_batch h hinv.marks,?_,?_,?_,?_,?_⟩
  · rw [hlog,hinv.log,logOf_snoc]
    rfl
  · intro k hk
    rw [hcolumn]
    exact hinv.rows k (k.mem_snoc hk (k.not_last hno))
  · intro key cols hkey
    rw [hcolumn] at hkey
    obtain ⟨k,hk,hsame⟩ := hinv.commits key cols hkey
    exact ⟨k,mem_append_left _ hk,hsame⟩
  · intro pre k heq
    have hlast := (append_inj' heq rfl).2
    exact absurd (List.cons.inj hlast).1.symm (k.not_last hno)
  · intro hfair k hk htool hopen htaint
    have hold := k.mem_snoc hk (k.not_last hno)
    rw [hlog] at hopen htaint
    have hbefore := outstanding_before hopen
    rcases tainted_append.mp htaint with ht | ht
    · exact hinv.receipts hfair.before k hold htool hbefore ht
    · rcases decision_taints hd ht with ⟨h',spec,runtime,depth,rfl,hrun⟩ | ⟨source,rfl⟩
      · -- nothing was committed for a Run before its start
        obtain ⟨hnone,_⟩ := insertRow_ok (RunDb.applyEvent_ok (applyEvents_single h)).2.1
        have hfree : s.runs.get? spec.run_id = none := hnone
        rw [hrun] at hfree
        exact absurd hfree (hinv.started hold)
      · have htime := hfair.taints.last
        refine htime k hold rfl htool ?_
        rw [← hinv.log]
        exact hbefore
  · intro hfair
    exact ordered_snoc (hinv.gated hfair.before) trivial

theorem TaintLedger.commit (k : StepCommit) (hseen : Compat currentCompat k.admission.seen s)
    (h : s.applyEvents k.admission.batch = .ok s') :
    TaintLedger catalogue s' (es ++ [k.entry]) := by
  have hlog := RunDb.applyEvents_log h
  have hread : Compat currentCompat k.admission.r.seen s :=
    fun q a ha => hseen q a (mem_append_left _ ha)
  have hd : Decision (.prepareStep k.harness k.run_id k.plan k.receipt) k.admission.r.seen
      k.admission.batch :=
    .step _ _ _ _ _ _ k.admission.hplan k.admission.hat k.admission.hpending k.admission.hindex
      k.admission.hadmits
  obtain ⟨hfree,seq,hcolumn⟩ := stepEvents_column toolColumns_writtenOnce h
  rw [← k.admission.stepKey_eq,show k.admission.call.stepKey = k.call.stepKey from rfl]
    at hfree hcolumn
  have hclean : ∀ id, Tainted id s'.log → Tainted id s.log := by
    intro id ht
    rw [hlog] at ht
    exact (tainted_append.mp ht).resolve_right (stepEvents_untainted _ _ _ _ _)
  have hfresh : Outstanding k.call.stepKey s'.log := by
    have hnone : (tally s).flags k.call.stepKey = none := by
      rw [Table.column,Option.map_eq_none_iff] at hfree
      exact congrArg (Option.map StepRow.flags) hfree
    have hbefore : Outstanding k.call.stepKey s.log := by
      refine outstanding_of_flags hinv.sound.ledger ?_
      intro c hc
      rw [hnone] at hc
      cases hc
    have hbatch : ∀ e ∈ k.admission.batch, isReceipt k.call.stepKey e = false := by
      intro e he
      rcases mem_append.mp he with he | he
      · obtain ⟨_,_,rfl⟩ := gateEvents_mem he
        rfl
      · rw [mem_singleton.mp he]
        rfl
    unfold Outstanding at hbefore ⊢
    rw [hlog,countP_append,hbefore,Nat.zero_add,countP_eq_zero]
    intro e he
    simp [hbatch e he]
  have hne : ∀ k' : StepCommit, k'.entry ∈ es → k'.call.stepKey ≠ k.call.stepKey := by
    intro k' hk' heq
    have hcols := hinv.rows k' hk'
    rw [heq,toolsAt,hfree] at hcols
    cases hcols
  have hmem : ∀ k' : StepCommit, k'.entry ∈ es ++ [k.entry] → k'.entry ∈ es ∨ k' = k := by
    intro k' hk'
    by_cases heq : k'.entry = k.entry
    · exact Or.inr (StepCommit.entry_injective heq)
    · exact Or.inl (k'.mem_snoc hk' heq)
  refine ⟨(decision_sound hd hread hinv.sound h).1,?_,taints_batch h hinv.marks,?_,?_,?_,?_,?_⟩
  · rw [hlog,hinv.log,logOf_snoc]
    rfl
  · intro k' hk'
    rw [toolsAt,hcolumn]
    rcases hmem k' hk' with hold | rfl
    · rw [Function.update_of_ne (hne k' hold)]
      exact hinv.rows k' hold
    · exact Function.update_self ..
  · intro key cols hkey
    rw [toolsAt,hcolumn] at hkey
    by_cases hk : key = k.call.stepKey
    · exact ⟨k,by simp,hk.symm⟩
    · have hold : toolsAt s key = some cols := by
        rw [← hkey]
        exact (Function.update_of_ne hk ..).symm
      obtain ⟨k',hk',hsame⟩ := hinv.commits key cols hold
      exact ⟨k',mem_append_left _ hk',hsame⟩
  · intro pre k' heq
    have hlast := (List.cons.inj (append_inj' heq rfl).2).1
    rw [← StepCommit.entry_injective hlast]
    exact hfresh
  · intro hfair k' hk' htool hopen htaint
    have hbefore := hclean _ htaint
    rcases hmem k' hk' with hold | rfl
    · rw [hlog] at hopen
      exact hinv.receipts hfair.before k' hold htool (outstanding_before hopen) hbefore
    · exact k'.admission.receipted_of_tainted htool (RunRead.tainted hinv.marks hread hbefore)
  · intro hfair
    exact ordered_snoc (hinv.gated hfair.before) trivial

theorem TaintLedger.applied (htold : Told op seen b)
    (hseen : Compat currentCompat seen s) (h : s.applyEvents b = .ok s') :
    TaintLedger catalogue s' (es ++ [.applied op seen b]) := by
  cases htold with
  | step a => exact hinv.commit ⟨_,_,_,_,a⟩ hseen h
  | other hd hno => exact hinv.other hd hno hseen h

end

theorem gateApproved_mem {r : GateReceipt} (hr : receipt = some r)
    (st : RunState) (plan : StepPlan) (call : AuthorizedToolCall) :
    .gateApproved st.run_id r.receipt_id r.call_id r.approved_by r.reason r.expires_ts_ms ∈
      stepEvents st plan call receipt := by
  rw [hr]
  exact mem_cons_self

variable {call : AuthorizedToolCall}

theorem StepCommit.recorded (hk : k.entry ∈ es) (hreceipt : k.Receipted)
    (hkey : k.call.stepKey = call.stepKey)
    (hcall : k.call.call_id = call.call_id) (htool : k.call.descriptor.id = call.descriptor.id) :
    ReceiptRecorded es call := by
  obtain ⟨r,hr,hnames,hexp⟩ := hreceipt
  obtain ⟨hrun,hid,htool'⟩ := names_iff.mp hnames
  obtain ⟨hcall',hdesc⟩ := k.admission.request
  have hcallRun : k.run_id = call.run_id := by
    have h1 := k.admission.target.1
    have h2 := congrArg StepKey.run_id hkey
    rw [← h1]
    exact h2
  have hcallId : r.call_id = call.call_id := by
    rw [hid,← hcall']
    exact hcall
  refine ⟨k,r,hk,hkey,hr,?_,hrun.trans hcallRun,?_,hcallId,hexp⟩
  · have hst : k.admission.r.st.run_id = call.run_id := by rw [k.admission.r.run_id_eq,hcallRun]
    have hmem := gateApproved_mem hr k.admission.r.st k.plan k.admission.call
    rw [hst,hcallId] at hmem
    exact hmem
  · rw [htool',← hdesc]
    exact htool

theorem drawsOn_entry (hfair : TaintsInTime catalogue es) (hk : k.entry ∈ es) :
    catalogue k.call.descriptor.id k.call.descriptor.version = some k.call.descriptor :=
  hfair.tools k.entry hk _ _ k.admission.vouched.registered

theorem TaintLedger.resumes (hinv : TaintLedger catalogue s es)
    (hfair : TaintsInTime catalogue es) {plan : StepPlan} (a : Resumption h run_id plan)
    (hdraws : ∀ id d, h.tools.entries.get? id = some d → catalogue d.id d.version = some d)
    (hrow : s.steps.get? ⟨run_id,a.r.st.checkpointed_step_count.toNat⟩ = some a.t.raw) :
    Outstanding a.call.stepKey s.log ∧ ∃ k : StepCommit, k.entry ∈ es ∧
      k.call.stepKey = a.call.stepKey ∧ k.call.call_id = a.call.call_id ∧
      k.call.descriptor = a.call.descriptor := by
  obtain ⟨hreg,hrun,hstep,hdomain⟩ := rehydrate_ok a.hcall
  have hkey : a.call.stepKey = ⟨run_id,a.r.st.checkpointed_step_count.toNat⟩ := by
    rw [AuthorizedToolCall.stepKey,hrun,hstep]
  have hcols : toolsAt s a.call.stepKey = some (toolColumns a.call.domainCall) := by
    rw [hkey,toolsAt,Table.column,hrow,hdomain]
    exact congrArg some (a.t.columns_eq a.hdurable)
  constructor
  · refine outstanding_of_flags hinv.sound.ledger ?_
    intro c hc
    rw [hkey] at hc
    simp only [tally,Table.column,hrow,Option.map_some,StepRow.flags,a.t.no_effect a.hopen.1] at hc
    cases hc
  · obtain ⟨k,hk,hsame⟩ := hinv.commits _ _ hcols
    have hown := hinv.rows k hk
    rw [hsame,hcols,Option.some.injEq] at hown
    simp only [toolColumns,AuthorizedToolCall.domainCall,ToolColumns.mk.injEq,Option.some.injEq,
      Nat.cast_inj] at hown
    obtain ⟨hid,hversion,hcall⟩ := hown
    have hid' := ToolId.value_injective hid
    have hversion' := UInt16.toNat_inj.mp hversion
    refine ⟨k,hk,hsame,hcall.symm,?_⟩
    have hcat := hdraws _ _ hreg
    rw [hid',hversion',drawsOn_entry hfair hk] at hcat
    exact Option.some.inj hcat

variable {last : LastAppend}

theorem TaintLedger.hands (hinv : TaintLedger catalogue s es)
    (hhanded : Handed op last seen (.preparation (.effect call)))
    (hm : Moment runStore s es op last seen) (hfair : TaintsInTime catalogue es)
    (hdraws : op.drawsOn catalogue) :
    handedGated es (.returned op (.preparation (.effect call))) := by
  intro htool htaint
  rw [← hinv.log] at htaint
  obtain ⟨h,run_id,plan,receipt,rfl,hstep⟩ := hhanded _ rfl
  rcases hstep call rfl with ⟨a,rfl,hlast⟩ | ⟨a,rfl,hseen⟩
  · obtain ⟨pre,hes⟩ := hm.last _ _ hlast
    have hk : (StepCommit.mk h run_id plan receipt a).entry ∈ es := by
      rw [hes]
      exact mem_append_right _ mem_cons_self
    have hopen := hinv.fresh pre ⟨h,run_id,plan,receipt,a⟩ hes
    rw [a.target.1] at htaint
    have hreceipt := hinv.receipts hfair _ hk htool hopen htaint
    exact StepCommit.recorded hk hreceipt rfl rfl rfl
  · obtain ⟨hopen,k,hk,hkey,hcall,hdesc⟩ := hinv.resumes hfair a hdraws (hm.answer _ _ _ hseen)
    rw [← hdesc] at htool
    rw [← hkey] at hopen
    have hrun : k.run_id = a.call.run_id := by
      rw [← k.admission.target.1]
      exact congrArg StepKey.run_id hkey
    rw [← hrun] at htaint
    exact StepCommit.recorded hk (hinv.receipts hfair k hk htool hopen htaint) hkey hcall
      (congrArg ToolDescriptor.id hdesc)

theorem TaintLedger.returned (hinv : TaintLedger catalogue s es)
    {reply : HarnessReply} (hhanded : Handed op last seen reply)
    (hm : Moment runStore s es op last seen) :
    TaintLedger catalogue s (es ++ [.returned op reply]) := by
  have hold : ∀ k : StepCommit, k.entry ∈ es ++ [.returned op reply] → k.entry ∈ es :=
    fun k hk => k.mem_snoc hk (by rintro ⟨⟩)
  refine ⟨hinv.sound,?_,hinv.marks,fun k hk => hinv.rows k (hold k hk),?_,?_,?_,?_⟩
  · rw [hinv.log,logOf_snoc]
    simp [entryBatch]
  · intro key cols hkey
    obtain ⟨k,hk,hsame⟩ := hinv.commits key cols hkey
    exact ⟨k,mem_append_left _ hk,hsame⟩
  · intro pre k heq
    have hlast := (append_inj' heq rfl).2
    cases hlast
  · intro hfair k hk
    exact hinv.receipts hfair.before k (hold k hk)
  · intro hfair
    refine ordered_snoc (hinv.gated hfair.before) ?_
    have hdraws := hfair.tools (.returned op reply) (by simp)
    cases reply with
    | preparation p =>
      cases p with
      | effect call => exact hinv.hands hhanded hm hfair.before hdraws
      | _ => exact trivial
    | _ => exact trivial

theorem empty_taintLedger : TaintLedger catalogue RunDb.empty [] where
  sound := empty_sound
  log := rfl
  marks := by
    rintro id ⟨⟩
  rows := by
    rintro k ⟨⟩
  commits := by
    rintro key cols ⟨⟩
  fresh := by
    intro pre k heq
    simp at heq
  receipts := by
    rintro _ k ⟨⟩
  gated _ := ordered_nil _

end Ledger

variable {G : Guard runSignature HarnessCall HarnessError HarnessReply RunDb}

theorem taintLedger_rule (catalogue : ToolId → UInt16 → Option ToolDescriptor)
    (hhead : ∀ s t, G.head s t → Current runStore t s) :
    HistoryRule Told Handed currentCompat runSystem G (TaintLedger catalogue) where
  code _ op _ := code_tells op
  head := hhead
  applied _ _ _ _ _ _ hinv hA hseen _ ha := hinv.applied hA hseen (runApply_ok ha).2
  returned _ _ _ _ _ _ hinv hR hm := hinv.returned hR hm

/-- If every head is read while what the attempt read still stands, and no taint
lands on a Run with an unreceipted step outstanding, a tainted Run's egress and
non-ReadOnly calls are handed out, first or again, only with a receipt on record. -/
theorem tainted_effects_receipted (catalogue : ToolId → UInt16 → Option ToolDescriptor)
    {G : Guard runSignature HarnessCall HarnessError HarnessReply RunDb}
    (hhead : ∀ s t, G.head s t → Current runStore t s) {es : List RunEntry}
    {c : Config runSignature HarnessCall HarnessError HarnessReply RunDb}
    (h : Trace runSystem G RunDb.empty es c) (hfair : TaintsInTime catalogue es) :
    Ordered handedGated es :=
  (trace_inv (taintLedger_rule catalogue hhead) empty_taintLedger h).gated hfair

def writeTool : ToolId := ⟨"plan.write",by decide⟩

def writeDescriptor : ToolDescriptor :=
  ⟨writeTool,1,.writePlan,.allow,.idempotent,64,version_one,demo_input_bound⟩

def writeHarness : RunHarness :=
  { demoHarness with tools := ToolRegistry.empty.insert writeDescriptor }

def writeSpec : RunStartSpec :=
  { demoSpec with tool_grants := ⟨Table.empty.put writeTool .allow⟩ }

def writePlan : StepPlan := { demoPlan with tool_call := ⟨writeTool,⟨3⟩,[]⟩ }

def taintedResumeMoves : List (Move runSignature HarnessCall) :=
  [.spawn 0 (.start writeHarness writeSpec),.turn 0,.turn 0,.stop 0,
    .spawn 0 (.prepareStep writeHarness ⟨7⟩ writePlan none),.turn 0,.turn 0,.clock 0 0,.turn 0,
    .turn 0,.stop 0,
    .spawn 0 (.raiseTaint ⟨7⟩ "web page"),.turn 0,.turn 0,.turn 0,.turn 0,.stop 0,
    .spawn 0 (.prepareStep writeHarness ⟨7⟩ writePlan none),.turn 0,.turn 0,.turn 0]

def handsUngated (es : List RunEntry) (n : Nat) : Bool :=
  match es[n]? with
  | some (.returned _ (.preparation (.effect call))) =>
    call.descriptor.taintGated && (logOf (es.take n)).any (taintsRun call.run_id) &&
      !(logOf (es.take n)).any approves
  | _ => false

variable {es : List RunEntry}

theorem handsUngated_not_gated {n : Nat} (h : handsUngated es n = true) :
    ¬ Ordered handedGated es := by
  intro hgated
  unfold handsUngated at h
  split at h
  · rename_i op call hn
    simp only [Bool.and_eq_true,Bool.not_eq_true'] at h
    obtain ⟨⟨htool,htaint⟩,hno⟩ := h
    obtain ⟨k,r,hk,_,_,happroved,_⟩ := hgated _ _ _ (split_at hn) htool htaint
    rw [any_eq_false] at hno
    exact hno _ (mem_flatMap.mpr ⟨_,hk,happroved⟩) rfl
  · cases h

theorem tainted_resume_ungated :
    ¬ ∀ es c, Trace runSystem (oneAfterAnother fun _ _ => True) RunDb.empty es c →
      Ordered handedGated es := by
  intro h
  have htrace : Trace runSystem (oneAfterAnother fun _ _ => True) RunDb.empty
      (history runSystem RunDb.empty taintedResumeMoves)
      (after runSystem RunDb.empty taintedResumeMoves) :=
    history_unchecked (by decide) (by decide)
  have hbad : handsUngated (history runSystem RunDb.empty taintedResumeMoves) 4 = true := by
    decide
  exact handsUngated_not_gated hbad (h _ _ htrace)

def receiptedMoves : List (Move runSignature HarnessCall) :=
  [.spawn 0 (.start writeHarness writeSpec),.turn 0,.turn 0,.stop 0,
    .spawn 0 (.raiseTaint ⟨7⟩ "web page"),.turn 0,.turn 0,.turn 0,.turn 0,.stop 0,
    .spawn 0 (.prepareStep writeHarness ⟨7⟩ writePlan
      (some { sendReceipt ⟨3⟩ with tool_id := writeTool })),.turn 0,.turn 0,.clock 0 0,.turn 0,
    .turn 0,.stop 0,
    .spawn 0 (.prepareStep writeHarness ⟨7⟩ writePlan none),.turn 0,.turn 0,.turn 0]

theorem receiptedMoves_allowed :
    ∀ m ∈ receiptedMoves, m.allowed (HarnessCall.uses writeHarness.tools) := by
  intro m hm
  simp only [receiptedMoves,mem_cons,not_mem_nil,or_false] at hm
  rcases hm with rfl | rfl | rfl | rfl | rfl | rfl | rfl | rfl | rfl | rfl | rfl | rfl | rfl | rfl |
    rfl | rfl | rfl | rfl | rfl | rfl | rfl <;> first | exact trivial | exact rfl

theorem trace_spawned
    {P : HarnessCall → Prop} (hspawn : ∀ c op, G.spawn c op → P op)
    {c : Config runSignature HarnessCall HarnessError HarnessReply RunDb}
    (h : Trace runSystem G RunDb.empty es c) : ∀ e ∈ es, P (entryOp e) := by
  have hrule : HistoryRule (fun op _ _ => P op) (fun op _ _ _ => P op) (fun _ _ _ => True) runSystem
      G (fun _ es => ∀ e ∈ es, P (entryOp e)) := by
    refine ⟨?_,fun _ _ _ _ _ _ => trivial,?_,?_⟩
    · intro c op hg
      exact tells_mono (fun _ _ _ => hspawn c op hg) (fun _ _ _ _ => hspawn c op hg) (code_tells op)
    · intro s es op seen b s' hinv hP _ _ _
      refine forall_mem_append.mpr ⟨hinv,?_⟩
      intro e he
      rw [mem_singleton.mp he]
      exact hP
    · intro s es op last seen a hinv hP _
      refine forall_mem_append.mpr ⟨hinv,?_⟩
      intro e he
      rw [mem_singleton.mp he]
      exact hP
  exact trace_inv hrule (by simp) h

theorem uses_drawsOn {tools : ToolRegistry} {op : HarnessCall} (h : op.uses tools) :
    op.drawsOn (fun id _ => tools.entries.get? id) := by
  cases op with
  | prepareStep harness run_id plan receipt =>
    intro id d hd
    rw [show harness.tools = tools from h] at hd
    show tools.entries.get? d.id = some d
    rw [tools.keyed id d hd]
    exact hd
  | _ => exact trivial

def taintsFirst (es : List RunEntry) : Bool :=
  (List.range es.length).all fun n =>
    match es[n]? with
    | some (.applied (.raiseTaint _ _) _ _) => !(logOf (es.take n)).any commitsStep
    | _ => true

theorem taintsFirst_inTime (h : taintsFirst es = true) : Ordered taintedInTime es := by
  intro pre e post heq
  cases e with
  | returned op a => exact trivial
  | applied op seen b =>
    cases op with
    | raiseTaint run_id source =>
      intro k hk
      simp only [taintsFirst,all_eq_true,mem_range] at h
      have hn := h pre.length (by rw [heq]; simp)
      rw [heq,List.getElem?_append_right (le_refl _),Nat.sub_self] at hn
      simp only [List.getElem?_cons_zero,take_left,Bool.not_eq_true',any_eq_false] at hn
      obtain ⟨e,he,hcommits⟩ := k.entry_commits
      exact absurd hcommits (hn e (mem_flatMap.mpr ⟨_,hk,he⟩))
    | _ => exact trivial

theorem tainted_effects_receipted_demo :
    (handedOut (history runSystem RunDb.empty receiptedMoves)).countP
        (fun call => call.descriptor.taintGated) = 2 ∧
      Ordered handedGated (history runSystem RunDb.empty receiptedMoves) := by
  refine ⟨by decide,?_⟩
  have hone : Trace runSystem (oneAfterAnother fun _ _ => True) RunDb.empty
      (history runSystem RunDb.empty receiptedMoves) (after runSystem RunDb.empty receiptedMoves) :=
    history_unchecked (by decide) (by decide)
  have htools : Trace runSystem (oneRegistry writeHarness.tools) RunDb.empty
      (history runSystem RunDb.empty receiptedMoves) (after runSystem RunDb.empty receiptedMoves) :=
    history_trace (oneRegistry_permits _) trivial (along_of_forall receiptedMoves_allowed _)
      (by decide)
  have hfair : TaintsInTime (fun id _ => writeHarness.tools.entries.get? id)
      (history runSystem RunDb.empty receiptedMoves) :=
    ⟨fun e he => uses_drawsOn (trace_spawned (fun _ _ h => h) htools e he),
      taintsFirst_inTime (by decide)⟩
  exact tainted_effects_receipted _ (fun _ _ h => h) (trace_sequential (fun _ _ h => h) hone) hfair

end ProjectOS.Agents
