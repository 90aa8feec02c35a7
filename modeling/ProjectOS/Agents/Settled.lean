import ProjectOS.Agents.Corruption

/-! What is settled in the Run tables: the rows of checkpointed steps and the
row of a closed Run. -/

namespace ProjectOS.Agents
open Lib Lib.Optimistic Domain RunHarness List

def StepRow.bare (row : StepRow) : StepRow :=
  { row with
    artifact_id := none, artifact_hash := none, artifact_media_type := none,
    artifact_size_bytes := none, validation_id := none, validation_status := none,
    validation_summary := none }

@[simp] theorem parseStep_bare (run_id : RunId) (step_index : UInt32) (row : StepRow) :
    parseStep run_id step_index (StepRow.bare row) = parseStep run_id step_index row := rfl

def RunRow.untainted (row : RunRow) : RunRow := { row with tainted := 0 }

section Events
variable {s s' : RunDb} {e : RunEvent} {key : StepKey} {row : StepRow}

theorem settledStep_exec {w : StepWrite} {t t' : Table StepKey StepRow} (h : w.exec t = .ok t')
    (hrow : t.get? key = some row)
    (hw : ∀ k guard f, w = .updateOneWhenNull k guard f → guard row = true ∨
      StepRow.bare (f row) = StepRow.bare row) :
    ∃ row', t'.get? key = some row' ∧ StepRow.bare row' = StepRow.bare row := by
  cases w with
  | nothing =>
    cases h
    exact ⟨row,hrow,rfl⟩
  | insert k new =>
    obtain ⟨hnone,rfl⟩ := insertRow_ok h
    have hne : key ≠ k := by
      rintro rfl
      rw [hnone] at hrow
      cases hrow
    exact ⟨row,by rw [Table.get?_put_ne _ _ hne,hrow],rfl⟩
  | updateOneWhenNull k guard f =>
    obtain ⟨old,hold,hguard,rfl⟩ := exec_whenNull_flags h
    by_cases hk : key = k
    · subst hk
      have hsame := hold.symm.trans hrow
      cases hsame
      rcases hw key guard f rfl with hg | hbare
      · rw [hg] at hguard
        cases hguard
      · exact ⟨f row,by simp,hbare⟩
    · exact ⟨row,by rw [Table.get?_put_ne _ _ hk,hrow],rfl⟩

theorem settledStep_event (h : s.applyEvent e = .ok s') (hrow : s.steps.get? key = some row)
    (hflags : StepRow.flags row = (true,true)) :
    ∃ row', s'.steps.get? key = some row' ∧ StepRow.bare row' = StepRow.bare row := by
  refine settledStep_exec (RunDb.applyEvent_ok h).2.2.2 hrow ?_
  simp only [StepRow.flags,Prod.mk.injEq] at hflags
  intro k guard f hw
  cases e with
  | toolEffectRecorded r i call key' digest spent =>
    cases hw
    exact Or.inl hflags.1
  | checkpointSaved r i id digest =>
    cases hw
    exact Or.inl hflags.2
  | artifactRecorded | validationRecorded =>
    cases hw
    exact Or.inr rfl
  | _ => cases hw

theorem flags_bare {row' : StepRow} (h : StepRow.bare row' = StepRow.bare row) :
    StepRow.flags row' = StepRow.flags row := by
  have heq := congrArg StepRow.flags h
  exact heq

theorem settledStep_events {b : List RunEvent} (h : s.applyEvents b = .ok s')
    (hrow : s.steps.get? key = some row) (hflags : StepRow.flags row = (true,true)) :
    ∃ row', s'.steps.get? key = some row' ∧ StepRow.bare row' = StepRow.bare row := by
  refine RunDb.applyEvents_keep
    (fun t => ∃ row', t.steps.get? key = some row' ∧ StepRow.bare row' = StepRow.bare row)
    ?_ h ⟨row,hrow,rfl⟩
  rintro e - u t hut ⟨row1,hrow1,hbare1⟩
  obtain ⟨row2,hrow2,hbare2⟩ := settledStep_event hut hrow1 ((flags_bare hbare1).trans hflags)
  exact ⟨row2,hrow2,hbare2.trans hbare1⟩

/-- The counts of a Run only grow, and its project stays. -/
structure RunGrows (row row' : RunRow) : Prop where
  project : row'.project_id = row.project_id
  committed : row.committed_step_count ≤ row'.committed_step_count
  checkpointed : row.checkpointed_step_count ≤ row'.checkpointed_step_count

theorem RunGrows.refl (row : RunRow) : RunGrows row row := ⟨rfl,le_refl _,le_refl _⟩

theorem RunGrows.trans {a b c : RunRow} (h : RunGrows a b) (h' : RunGrows b c) : RunGrows a c :=
  ⟨h'.project.trans h.project,h.committed.trans h'.committed,h.checkpointed.trans h'.checkpointed⟩

theorem runGrows_update (seq : Nat) (e : RunEvent) {r : RunId} {operation : String}
    {f : RunRow → RunRow} (h : runsProjection seq e = .updateOne r operation f) (row : RunRow) :
    RunGrows row (f row) := by
  cases e with
  | stepCommittedV1 | stepCommittedV2 =>
    cases h
    exact ⟨rfl,by simp,le_refl _⟩
  | checkpointSaved r i id digest =>
    cases h
    exact ⟨rfl,le_refl _,by simp⟩
  | finishedV2 r outcome total spent validation =>
    cases h
    cases validation with
    | none | some => exact ⟨rfl,le_refl _,le_refl _⟩
  | startedV1 | startedV2 | artifactRecorded | gateApproved => cases h
  | _ =>
    cases h
    exact ⟨rfl,le_refl _,le_refl _⟩

theorem runGrows_event (h : s.applyEvent e = .ok s') {id : RunId} {row : RunRow}
    (hrow : s.runs.get? id = some row) :
    ∃ row', s'.runs.get? id = some row' ∧ RunGrows row row' := by
  have hruns := (RunDb.applyEvent_ok h).2.1
  cases hw : runsProjection (s.head+1) e with
  | nothing =>
    rw [hw] at hruns
    exact ⟨row,by rw [← Except.ok.inj hruns,hrow],.refl row⟩
  | insert r new =>
    rw [hw] at hruns
    obtain ⟨hnone,hput⟩ := insertRow_ok hruns
    have hne : id ≠ r := by
      rintro rfl
      rw [hnone] at hrow
      cases hrow
    exact ⟨row,by rw [hput,Table.get?_put_ne _ _ hne,hrow],.refl row⟩
  | updateOne r operation f =>
    rw [hw] at hruns
    obtain ⟨old,hold,hput⟩ := updateOne_ok hruns
    by_cases hid : id = r
    · subst hid
      have hsame := hold.symm.trans hrow
      cases hsame
      exact ⟨f row,by simp [hput],runGrows_update _ e hw row⟩
    · exact ⟨row,by rw [hput,Table.get?_put_ne _ _ hid,hrow],.refl row⟩

theorem runGrows_events {b : List RunEvent} (h : s.applyEvents b = .ok s') {id : RunId}
    {row : RunRow} (hrow : s.runs.get? id = some row) :
    ∃ row', s'.runs.get? id = some row' ∧ RunGrows row row' := by
  refine RunDb.applyEvents_keep (fun t => ∃ row', t.runs.get? id = some row' ∧ RunGrows row row')
    ?_ h ⟨row,hrow,.refl row⟩
  rintro e - u t hut ⟨row1,hrow1,hgrows1⟩
  obtain ⟨row2,hrow2,hgrows2⟩ := runGrows_event hut hrow1
  exact ⟨row2,hrow2,hgrows1.trans hgrows2⟩

end Events

section Decided
variable {s s' : RunDb} {op : HarnessCall} {seen : List (Obs runSignature)} {b : List RunEvent}
variable {row : RunRow}

theorem RunRead.terminal_of {run_id : RunId} {r : RunRead run_id}
    (hseen : Compat currentCompat r.seen s) (hrow : s.runs.get? run_id = some row)
    (ht : terminalText row.status = true) : r.st.status.isTerminal = true := by
  have hraw := (RunRead.current hseen).1.symm.trans hrow
  cases hraw
  exact (RunRead.now hseen).terminal.symm.trans ht

theorem decision_closed (hd : Decision op seen b) (hseen : Compat currentCompat seen s)
    (hok : (tally s).Ok) (hclosed : Closed s) (h : s.applyEvents b = .ok s') {id : RunId}
    (hrow : s.runs.get? id = some row) (ht : terminalText row.status = true) {e : RunEvent}
    (he : e ∈ b) (hid : e.run = id) : ∃ source, e = .taintRaised id source := by
  subst hid
  have hboundary : ∀ {st : RunState}, AtBoundary st → st.status.isTerminal = true → False := by
    intro st hat hst
    rw [terminal_running hat] at hst
    cases hst
  cases hd with
  | start h' spec runtime depth seen hbudget hlineage =>
    obtain ⟨hnone,_⟩ := insertRow_ok (RunDb.applyEvent_ok (applyEvents_single h)).2.1
    rw [mem_singleton.mp he] at hrow
    exact absurd (hnone.symm.trans hrow) (by simp)
  | step h' run_id plan receipt r call hplan hat hpending hindex hadmits =>
    have hrun := stepEvents_about (RunRead.now hseen).run plan call receipt e he
    rw [hrun] at hrow
    exact (hboundary hat (RunRead.terminal_of hseen hrow ht)).elim
  | budgetPause h' run_id plan receipt r exceeded hat hpending =>
    have hrun := (RunRead.now hseen).run
    rw [mem_singleton.mp he,show (budgetPauseEvent r.st exceeded).run = run_id from hrun] at hrow
    exact (hboundary hat (RunRead.terminal_of hseen hrow ht)).elim
  | settle _ run_id r control hpending hcounts hop =>
    have hnow := RunRead.now hseen
    have hrun : e.run = run_id := by
      rcases settleEvents_mem he with rfl | rfl | rfl <;> exact hnow.run
    rw [hrun] at hrow
    have hraw := (RunRead.current hseen).1.symm.trans hrow
    cases hraw
    have hnone := (hclosed run_id _ hnow.control ht).1
    rw [hnow.pending,hpending] at hnone
    cases hnone
  | effect call report r t hreport htarget hcheckpoint heffect =>
    rw [effectEvents_about call report r.st t.st e he] at hrow
    obtain ⟨_,m,hledger,_,_⟩ := effect_ledger hok h
    obtain ⟨n,hn⟩ := (hclosed call.run_id _ (control_of_row hrow) ht).2
    have heq := hledger.counts.symm.trans hn
    simp only [Option.some.injEq,Prod.mk.injEq] at heq
    omega
  | control _ run_id reason control r hop hterminal hpending hpaused =>
    have hrun : e.run = run_id := by
      rw [mem_singleton.mp he]
      cases control with
      | pause => rfl
      | cancel => rfl
    rw [hrun] at hrow
    rw [RunRead.terminal_of hseen hrow ht] at hterminal
    cases hterminal
  | resume run_id r hpaused hpending =>
    rw [mem_singleton.mp he] at hrow
    have hst := RunRead.terminal_of hseen hrow ht
    rw [hpaused] at hst
    cases hst
  | finish run_id outcome r hterminal hpaused hpending hcounts =>
    rw [mem_singleton.mp he] at hrow
    rw [RunRead.terminal_of hseen hrow ht] at hterminal
    cases hterminal
  | taint run_id source r => exact ⟨source,mem_singleton.mp he ▸ rfl⟩
  | ask run_id question_id prompt r hat =>
    rw [mem_singleton.mp he] at hrow
    exact (hboundary hat (RunRead.terminal_of hseen hrow ht)).elim
  | answer run_id question_id answered_by answer r hwaiting =>
    rw [mem_singleton.mp he] at hrow
    have hst := RunRead.terminal_of hseen hrow ht
    rw [hwaiting] at hst
    cases hst

theorem taint_untainted {id : RunId}
    (hb : ∀ e ∈ b, e.run = id → ∃ source, e = .taintRaised id source)
    (h : s.applyEvents b = .ok s') (hrow : s.runs.get? id = some row) :
    ∃ row', s'.runs.get? id = some row' ∧ RunRow.untainted row' = RunRow.untainted row := by
  refine RunDb.applyEvents_keep
    (fun t => ∃ row', t.runs.get? id = some row' ∧ RunRow.untainted row' = RunRow.untainted row)
    ?_ h ⟨row,hrow,rfl⟩
  rintro e he u t hut ⟨row',hrow',heq⟩
  have hrun := RunDb.applyEvent_run hut id
  by_cases hid : e.run = id
  · obtain ⟨source,rfl⟩ := hb e he hid
    rw [if_pos hid,hrow'] at hrun
    exact ⟨_,hrun,heq⟩
  · rw [if_neg hid,hrow'] at hrun
    exact ⟨row',hrun,heq⟩

end Decided

structure StepShape (row : StepRow) : Prop where
  tool_call : ∃ call : Option RunToolCall,
    row.tool_id = call.map RunToolCall.tool_id ∧
    row.tool_descriptor_version = (call.map fun c => (c.descriptor_version.toNat : Int)) ∧
    row.tool_call_id = call.map RunToolCall.call_id ∧
    row.idempotency_key = call.map RunToolCall.idempotency_key ∧
    row.input = call.map RunToolCall.input
  effect : (row.effect_recorded_seq = none ∧ row.output_digest = none) ∨
    ∃ seq digest, row.effect_recorded_seq = some (integerU64 seq) ∧ row.output_digest = some digest
  checkpoint : (row.checkpoint_id = none ∧ row.checkpoint_digest = none ∧
      row.checkpoint_seq = none) ∨
    ∃ id digest seq, row.checkpoint_id = some id ∧ row.checkpoint_digest = some digest ∧
      row.checkpoint_seq = some (integerU64 seq)
  reserved : row.reserved.InRange
  spent : row.spent.InRange
  committed : ∃ seq, row.committed_seq = integerU64 seq

theorem stepShape_values (summary phase : String) (digest : Option Digest)
    (tool_call : Option RunToolCall) (reserved : RunUsage) (seq : Nat) :
    StepShape (stepValues summary phase digest tool_call reserved seq) where
  tool_call := ⟨tool_call,rfl,rfl,rfl,rfl,rfl⟩
  effect := Or.inl ⟨rfl,rfl⟩
  checkpoint := Or.inl ⟨rfl,rfl,rfl⟩
  reserved := usageValues_inRange reserved
  spent := usageValues_inRange _
  committed := ⟨seq,rfl⟩

def StepsOk (s : RunDb) : Prop := ∀ key row, s.steps.get? key = some row → StepShape row

theorem stepsOk_exec {w : StepWrite} {t t' : Table StepKey StepRow}
    (ht : ∀ key row, t.get? key = some row → StepShape row) (h : w.exec t = .ok t')
    (hinsert : ∀ key row, w = .insert key row → StepShape row)
    (hupdate : ∀ key guard f, w = .updateOneWhenNull key guard f → ∀ row, StepShape row →
      StepShape (f row)) : ∀ key row, t'.get? key = some row → StepShape row := by
  intro key row hrow
  cases w with
  | nothing =>
    cases h
    exact ht key row hrow
  | insert k new =>
    obtain ⟨_,rfl⟩ := insertRow_ok h
    rw [Table.get?_put] at hrow
    split_ifs at hrow
    · cases hrow
      exact hinsert k row rfl
    · exact ht key row hrow
  | updateOneWhenNull k guard f =>
    obtain ⟨old,hold,_,rfl⟩ := exec_whenNull_flags h
    rw [Table.get?_put] at hrow
    split_ifs at hrow
    · cases hrow
      exact hupdate k guard f rfl old (ht k old hold)
    · exact ht key row hrow

theorem stepsOk_event {s s' : RunDb} {e : RunEvent} (hs : StepsOk s)
    (h : s.applyEvent e = .ok s') : StepsOk s' := by
  refine stepsOk_exec hs (RunDb.applyEvent_ok h).2.2.2 ?_ ?_
  · intro key row hw
    cases e with
    | stepCommittedV1 | stepCommittedV2 =>
      cases hw
      exact stepShape_values ..
    | _ => cases hw
  · intro key guard f hw row hrow
    cases e with
    | toolEffectRecorded r i call key' digest spent =>
      cases hw
      exact ⟨hrow.tool_call,Or.inr ⟨_,_,rfl,rfl⟩,hrow.checkpoint,hrow.reserved,
        usageValues_inRange spent,hrow.committed⟩
    | checkpointSaved r i id digest =>
      cases hw
      exact ⟨hrow.tool_call,hrow.effect,Or.inr ⟨_,_,_,rfl,rfl,rfl⟩,hrow.reserved,hrow.spent,
        hrow.committed⟩
    | artifactRecorded | validationRecorded =>
      cases hw
      exact ⟨hrow.tool_call,hrow.effect,hrow.checkpoint,hrow.reserved,hrow.spent,hrow.committed⟩
    | _ => cases hw

variable {b : List RunEvent}

theorem stepsOk_events {s s' : RunDb} (hs : StepsOk s)
    (h : s.applyEvents b = .ok s') : StepsOk s' :=
  RunDb.applyEvents_keep StepsOk (fun _ _ _ _ hst hs => stepsOk_event hs hst) h hs

theorem toU16_inRange (table field : String) (version : UInt16) :
    ∃ u, toU16 (version.toNat : Int) table field = .ok u := by
  have hlt := version.toNat_lt
  rw [toU16,if_pos (by simp only [u16Max]; omega)]
  exact ⟨_,rfl⟩

variable {row : StepRow}

theorem parseToolCall_shape (h : StepShape row) : ∃ call, parseToolCall row = .ok call := by
  obtain ⟨call,h1,h2,h3,h4,h5⟩ := h.tool_call
  cases call with
  | none => exact ⟨none,by simp [parseToolCall,h1,h2,h3,h4,h5]⟩
  | some call =>
    obtain ⟨version,hv⟩ := toU16_inRange "proj_run_steps" "tool_descriptor_version"
      call.descriptor_version
    exact ⟨_,by simp [parseToolCall,h1,h2,h3,h4,h5,hv,bind,Except.bind]; rfl⟩

theorem parseEffect_shape (h : StepShape row) :
    ∃ effect, parseEffect row = .ok effect ∧ effect.isSome = row.effect_recorded_seq.isSome := by
  rcases h.effect with ⟨h1,h2⟩ | ⟨seq,digest,h1,h2⟩
  · exact ⟨none,by simp [parseEffect,h1,h2],by simp [h1]⟩
  · obtain ⟨recorded,hr⟩ := toU64_inRange "proj_run_steps" "effect_recorded_seq"
      ⟨integerU64_nonneg seq,integerU64_le seq⟩
    obtain ⟨spent,hs⟩ := usageFrom_inRange "proj_run_steps" "" h.spent
    refine ⟨some ⟨recorded,digest,spent⟩,?_,by simp [h1]⟩
    simp only [parseEffect,h1,h2,hr,hs,bind,Except.bind]
    rfl

theorem parseCheckpoint_shape (h : StepShape row) :
    ∃ checkpoint, parseCheckpoint row = .ok checkpoint ∧
      checkpoint.isSome = row.checkpoint_seq.isSome := by
  rcases h.checkpoint with ⟨h1,h2,h3⟩ | ⟨id,digest,seq,h1,h2,h3⟩
  · exact ⟨none,by simp [parseCheckpoint,h1,h2,h3],by simp [h3]⟩
  · obtain ⟨saved,hs⟩ := toU64_inRange "proj_run_steps" "checkpoint_seq"
      ⟨integerU64_nonneg seq,integerU64_le seq⟩
    refine ⟨some ⟨id,digest,saved⟩,?_,by simp [h3]⟩
    simp only [parseCheckpoint,h1,h2,h3,hs,bind,Except.bind]
    rfl

theorem parseStep_shape (h : StepShape row) (run_id : RunId) (step_index : UInt32) :
    ∃ step, parseStep run_id step_index row = .ok step ∧
      step.step_index = step_index ∧
      step.effect.isSome = row.effect_recorded_seq.isSome ∧
      step.checkpoint.isSome = row.checkpoint_seq.isSome := by
  obtain ⟨call,h1⟩ := parseToolCall_shape h
  obtain ⟨effect,h2,heffect⟩ := parseEffect_shape h
  obtain ⟨checkpoint,h3,hcheckpoint⟩ := parseCheckpoint_shape h
  obtain ⟨reserved,h4⟩ := usageFrom_inRange "proj_run_steps" "" h.reserved
  obtain ⟨seq,hseq⟩ := h.committed
  obtain ⟨committed,h5⟩ := toU64_inRange "proj_run_steps" "committed_seq"
    ⟨integerU64_nonneg seq,integerU64_le seq⟩
  refine ⟨⟨run_id,step_index,row.summary,row.phase,row.step_digest,call,reserved,committed,effect,
    checkpoint⟩,?_,rfl,heffect,hcheckpoint⟩
  simp only [parseStep,h1,h2,h3,h4,hseq,h5,bind,Except.bind]
  rfl

/-- Settled runs and steps stay as they are. -/
structure Keeps (s s' : RunDb) : Prop where
  runs : ∀ id row, s.runs.get? id = some row → ∃ row', s'.runs.get? id = some row' ∧
    RunGrows row row' ∧ (terminalText row.status = true →
      RunRow.untainted row' = RunRow.untainted row)
  steps : ∀ key row, s.steps.get? key = some row → StepRow.flags row = (true,true) →
    ∃ row', s'.steps.get? key = some row' ∧ StepRow.bare row' = StepRow.bare row

theorem Keeps.refl (s : RunDb) : Keeps s s :=
  ⟨fun _ row h => ⟨row,h,.refl row,fun _ => rfl⟩,fun _ row h _ => ⟨row,h,rfl⟩⟩

theorem status_untainted {row row' : RunRow} (h : RunRow.untainted row' = RunRow.untainted row) :
    row'.status = row.status := by
  have heq := congrArg RunRow.status h
  exact heq

theorem checkpointed_untainted {row row' : RunRow}
    (h : RunRow.untainted row' = RunRow.untainted row) :
    row'.checkpointed_step_count = row.checkpointed_step_count := by
  have heq := congrArg RunRow.checkpointed_step_count h
  exact heq

theorem validation_untainted {row row' : RunRow}
    (h : RunRow.untainted row' = RunRow.untainted row) :
    row'.validation_id = row.validation_id ∧
      row'.validation_status = row.validation_status := by
  have hid := congrArg RunRow.validation_id h
  have hstatus := congrArg RunRow.validation_status h
  exact ⟨hid,hstatus⟩

theorem Keeps.trans {a b c : RunDb} (h : Keeps a b) (h' : Keeps b c) : Keeps a c := by
  constructor
  · intro id row hrow
    obtain ⟨row1,hrow1,hgrows1,hsame1⟩ := h.runs id row hrow
    obtain ⟨row2,hrow2,hgrows2,hsame2⟩ := h'.runs id row1 hrow1
    refine ⟨row2,hrow2,hgrows1.trans hgrows2,fun ht => ?_⟩
    have ht1 : terminalText row1.status = true := by
      rw [status_untainted (hsame1 ht)]
      exact ht
    exact (hsame2 ht1).trans (hsame1 ht)
  · intro key row hrow hflags
    obtain ⟨row1,hrow1,hbare1⟩ := h.steps key row hrow hflags
    obtain ⟨row2,hrow2,hbare2⟩ := h'.steps key row1 hrow1 ((flags_bare hbare1).trans hflags)
    exact ⟨row2,hrow2,hbare2.trans hbare1⟩

/-- The invariant of the store. -/
structure Settled (s : RunDb) : Prop where
  sound : SoundDb s
  closed : Closed s
  steps : StepsOk s

theorem decision_keeps {s s' : RunDb} {op : HarnessCall} {seen : List (Obs runSignature)}
    (hd : Decision op seen b) (hseen : Compat currentCompat seen s)
    (hs : Settled s) (h : s.applyEvents b = .ok s') : Settled s' ∧ Keeps s s' := by
  have hc := decision_control hd hseen hs.sound.ledger hs.closed h
  refine ⟨⟨(decision_sound hd hseen hs.sound h).1,hs.closed.change hc,stepsOk_events hs.steps h⟩,
    ?_,fun key row hrow hflags => settledStep_events h hrow hflags⟩
  intro id row hrow
  obtain ⟨row',hrow',hgrows⟩ := runGrows_events h hrow
  refine ⟨row',hrow',hgrows,fun ht => ?_⟩
  have htaint := fun e he hid =>
    decision_closed hd hseen hs.sound.ledger hs.closed h hrow ht (e := e) he hid
  obtain ⟨row'',hrow'',hsame⟩ := taint_untainted htaint h hrow
  have heq := hrow''.symm.trans hrow'
  cases heq
  exact hsame

def settledContract : Contract runSignature HarnessCall RunDb where
  compat := currentCompat
  inv := Settled
  may _ _ := True
  rel s _ s' := Keeps s s'

theorem settled_meets : Meets settledContract := by
  intro op seen b hd s s' hseen hinv _ ha
  exact decision_keeps hd hseen hinv ha

theorem empty_settled : Settled RunDb.empty :=
  ⟨empty_sound,empty_closed.2,fun _ _ h => by cases h⟩

section Sequential
variable {c d : Config runSignature HarnessCall HarnessError HarnessReply RunDb}

section
variable (hc : Reachable runSystem (oneAfterAnother fun _ _ => True) RunDb.empty c)
include hc

theorem sequential_settled :
    Settled c.store :=
  (run_ok (K := settledContract) (code_runs settled_meets) (fun _ _ _ => trivial)
    (fun _ _ h => h) empty_settled (reachable_sequential (fun _ _ h => h) hc).1).inv

theorem sequential_keeps
    (hd : Relation.ReflTransGen (Step runSystem (oneAfterAnother fun _ _ => True)) c d) :
    Keeps c.store d.store :=
  run_rel (K := settledContract) (code_runs settled_meets) (fun _ _ _ => trivial) (fun _ _ h => h)
    empty_settled Keeps.refl (fun _ _ _ => Keeps.trans) (fun _ _ _ h => h)
    (reachable_sequential (fun _ _ h => h) hc).1 (path_sequential (fun _ _ h => h) hc hd)

end

end Sequential

end ProjectOS.Agents
