import ProjectOS.Agents.Settled
import ProjectOS.Agents.Spending
import ProjectOS.Lib.Replay

/-! Snapshots of the Run tables. The spent columns are summed by SQL, which turns
a sum past the signed range into a REAL, and a snapshot that meets one is refused. -/

namespace ProjectOS.Agents
open Lib Lib.Optimistic Domain RunHarness List

def computedColumns (row : RunRow) : List Int :=
  [row.committed_step_count,row.checkpointed_step_count,row.spent.tokens,row.spent.usd_micros,
    row.spent.wall_ms,row.spent.storage_bytes,row.spent.tool_calls,row.spent.retries,
    row.spent.steps]

def storedInteger (value : Int) : Bool := decide (-(i64Max+1) ≤ value ∧ value ≤ i64Max)

def writeSnapshot (s : RunDb) : Except ApplyError Unit :=
  if s.runs.rows.all fun row => (computedColumns row.2).all storedInteger then .ok ()
  else .error ⟨"proj_runs: REAL value found; projections never store floats"⟩

def everyNth (cadence head : Nat) : Bool := head%cadence == 0

section Code
variable (due : Nat → Bool)

def snapshotDue (s : RunDb) : Except ApplyError Unit :=
  if due s.head then writeSnapshot s else .ok ()

def appendEvents (s : RunDb) (events : List RunEvent) : Except ApplyError RunDb :=
  events.foldlM (checked RunDb.applyEvent (snapshotDue due)) s

theorem appendEvents_ok {s s' : RunDb} {b : List RunEvent} (h : appendEvents due s b = .ok s') :
    s.applyEvents b = .ok s' := by
  induction b generalizing s with
  | nil => exact h
  | cons e b ih =>
    rw [appendEvents,foldlM_cons] at h
    obtain ⟨mid,hmid,hrest⟩ := Domain.bind_ok h
    obtain ⟨t,ht,hcheck⟩ := ok_of_bind hmid
    obtain ⟨_,_,rfl⟩ := ok_of_map hcheck
    rw [RunDb.applyEvents,foldlM_cons,ht]
    exact ih hrest

def snapshotApply (s : RunDb) (events : List RunEvent) : Except LogError RunDb :=
  match events with
  | [] => .error (.store "append events")
  | _ => (appendEvents due s events).mapError .apply

theorem snapshotApply_ok {s s' : RunDb} {b : List RunEvent} (h : snapshotApply due s b = .ok s') :
    runApply s b = .ok s' := by
  cases b with
  | nil => cases h
  | cons e b =>
    simp only [snapshotApply] at h
    cases ha : appendEvents due s (e::b) with
    | error error =>
      rw [ha] at h
      cases h
    | ok t =>
      rw [ha] at h
      cases h
      simp only [runApply,appendEvents_ok due ha]
      rfl

def snapshotStore : Store runSignature RunDb where
  answer := runAnswer
  head := RunDb.head
  apply := snapshotApply due
  head_lt h := runStore.head_lt (snapshotApply_ok due h)

def snapshotSystem : System runSignature HarnessCall HarnessError HarnessReply RunDb :=
  ⟨snapshotStore due,HarnessCall.code⟩

variable {due}

theorem snapshot_append {s : RunDb} {n : Nat} {b : List RunEvent} {refused : Option LogError} :
    ∃ refused', appendAt (snapshotStore due) s n b refused = appendAt runStore s n b refused' := by
  cases refused with
  | some f => exact ⟨some f,rfl⟩
  | none =>
    have happly : ∀ s b, (snapshotStore due).apply s b = snapshotApply due s b := fun _ _ => rfl
    have hrun : ∀ s b, runStore.apply s b = runApply s b := fun _ _ => rfl
    have hhead : ∀ s, (snapshotStore due).head s = runStore.head s := fun _ => rfl
    cases ha : snapshotApply due s b with
    | ok s' =>
      refine ⟨none,?_⟩
      simp only [appendAt,happly,hrun,hhead,ha,snapshotApply_ok due ha]
    | error f =>
      refine ⟨some f,?_⟩
      simp only [appendAt,happly,hhead,ha]

variable {G : Guard runSignature HarnessCall HarnessError HarnessReply RunDb}
variable {c d : Config runSignature HarnessCall HarnessError HarnessReply RunDb}

theorem snapshot_step (h : Step (snapshotSystem due) G c d) : Step runSystem G c d := by
  cases h with
  | spawn i op hi hg => exact .spawn c i op hi hg
  | query i t q k hi hp => exact .query c i t q k hi hp
  | clock i t k now hi hp => exact .clock c i t k now hi hp
  | head i t b k hi hp hpin hg => exact .head c i t b k hi hp hpin hg
  | append i t b k n refused hi hp hpin hg =>
    obtain ⟨refused',heq⟩ := @snapshot_append due c.store n b refused
    show Step runSystem G c (setThread { c with
      store := (appendAt (snapshotStore due) c.store n b refused).2 } i
        (some (Thread.fresh t.op (k (appendAt (snapshotStore due) c.store n b refused).1))))
    rw [heq]
    exact .append c i t b k n refused' hi hp hpin hg
  | stop i => exact .stop c i

theorem snapshot_run {s₀ : RunDb} (h : Reachable (snapshotSystem due) G s₀ c) :
    Reachable runSystem G s₀ c :=
  Relation.ReflTransGen.mono (fun _ _ => snapshot_step) _ _ h

end Code

def addsUsage : RunEvent → Bool
  | .toolEffectRecorded .. => true
  | _ => false

def setsSpent : RunEvent → Bool
  | .startedV1 .. | .startedV2 _ | .toolEffectRecorded .. | .paused .. | .finishedV2 .. => true
  | _ => false

def pausesRun (id : RunId) : RunEvent → Bool
  | .paused r _ _ _ => decide (r = id)
  | _ => false

def passesRange (log : List RunEvent) (id : RunId) (used : RunUsage) : Prop :=
  ∃ d, i64Max < min (reported id d log : Int) (columnCap d)+min (used.amount d : Int) (columnCap d)

def Overdrawn (log : List RunEvent) : Prop :=
  ∃ pre id i call key digest used rest,
    log = pre ++ .toolEffectRecorded id i call key digest used::rest ∧
    passesRange pre id used ∧ ∀ e ∈ rest, pausesRun id e = false

def Saturated (s : RunDb) : Prop := ∀ id row, s.runs.get? id = some row →
  ∀ d, row.spent.amount d = min (reported id d s.log : Int) (columnCap d)

def SpentStored (s : RunDb) : Prop := ∀ id row, s.runs.get? id = some row →
  ∀ d, row.spent.amount d ≤ i64Max

structure Based (row : RunRow) : Prop where
  committed : 0 ≤ row.committed_step_count
  checkpointed : 0 ≤ row.checkpointed_step_count
  spent : ∀ d, 0 ≤ row.spent.amount d

section Rows
variable {s s' : RunDb} {e : RunEvent} {id : RunId} {row row' : RunRow}

theorem columnCap_le (d : RunBudgetDimension) : columnCap d ≤ i64Max := by
  cases d <;> decide

theorem columnCap_nonneg (d : RunBudgetDimension) : 0 ≤ columnCap d := by
  cases d <;> decide

theorem inRange_amount {cols : UsageCols} (h : cols.InRange) (d : RunBudgetDimension) :
    0 ≤ cols.amount d ∧ cols.amount d ≤ columnCap d := by
  exact d.each h.tokens h.usd_micros h.wall_ms h.storage_bytes h.tool_calls h.retries h.steps

theorem writeSnapshot_ok : writeSnapshot s = .ok () ↔ ∀ id row, s.runs.get? id = some row →
    ∀ value ∈ computedColumns row, -(i64Max+1) ≤ value ∧ value ≤ i64Max := by
  unfold writeSnapshot
  split_ifs with h
  · simp only [all_eq_true,storedInteger,decide_eq_true_eq] at h
    exact ⟨fun _ id row hrow => h (id,row) ((Table.mem_rows _).mpr hrow),fun _ => rfl⟩
  · refine ⟨fun hok => (by cases hok),fun hall => absurd ?_ h⟩
    simp only [all_eq_true,storedInteger,decide_eq_true_eq]
    exact fun entry hmem => hall _ _ ((Table.mem_rows s.runs).mp hmem)

variable {seq : Nat}

theorem spent_onRow (hno : addsUsage e = false)
    (h : (runsProjection seq e).onRow (some row) = some row') :
    row'.spent = row.spent ∨ ∃ u, row'.spent = usageValues u := by
  cases e with
  | toolEffectRecorded r i call key digest used => cases hno
  | startedV1 | startedV2 =>
    cases h
    exact Or.inr ⟨_,rfl⟩
  | paused r n cause used =>
    cases h
    exact Or.inr ⟨used,rfl⟩
  | finishedV2 r outcome n used validation =>
    cases validation with
    | none | some =>
      cases h
      exact Or.inr ⟨used,rfl⟩
  | _ =>
    cases h
    exact Or.inl rfl

theorem spent_kept_onRow (hno : setsSpent e = false)
    (h : (runsProjection seq e).onRow (some row) = some row') : row'.spent = row.spent := by
  cases e <;> first | (cases hno; done) | (cases h; rfl)

theorem based_onRow (hold : ∀ row, s.runs.get? id = some row → Based row)
    (h : (runsProjection seq e).onRow (s.runs.get? id) = some row') : Based row' := by
  have hused : ∀ u d, 0 ≤ (usageValues u).amount d := fun u d =>
    (inRange_amount (usageValues_inRange u) d).1
  cases hrow : s.runs.get? id with
  | none =>
    rw [hrow] at h
    cases e <;> first
      | (cases h; done)
      | (cases h; exact ⟨le_refl _,le_refl _,hused _⟩)
  | some row =>
    rw [hrow] at h
    obtain ⟨hcommitted,hcheckpointed,hspent⟩ := hold row hrow
    cases e with
    | startedV1 | startedV2 =>
      cases h
      exact ⟨le_refl _,le_refl _,hused _⟩
    | toolEffectRecorded r i call key digest used =>
      cases h
      refine ⟨hcommitted,hcheckpointed,fun d => ?_⟩
      rw [amount_add]
      exact add_nonneg (hspent d) (hused used d)
    | paused r n cause used =>
      cases h
      exact ⟨hcommitted,hcheckpointed,hused used⟩
    | finishedV2 r outcome n used validation =>
      cases validation with
      | none | some =>
        cases h
        exact ⟨hcommitted,hcheckpointed,hused used⟩
    | stepCommittedV1 | stepCommittedV2 =>
      cases h
      exact ⟨by simp only; omega,hcheckpointed,hspent⟩
    | checkpointSaved r i checkpoint digest =>
      cases h
      exact ⟨hcommitted,by simp only; omega,hspent⟩
    | _ =>
      cases h
      exact ⟨hcommitted,hcheckpointed,hspent⟩

end Rows

section Batches
variable {s s' : RunDb} {e : RunEvent} {b : List RunEvent} {id : RunId} {row row' : RunRow}

theorem rows_events (P : RunRow → Prop) (allowed : RunEvent → Prop)
    (hevent : ∀ {s s' : RunDb} {e : RunEvent}, allowed e → s.applyEvent e = .ok s' →
      (∀ id row, s.runs.get? id = some row → P row) →
      ∀ id row, s'.runs.get? id = some row → P row)
    (hb : ∀ e ∈ b, allowed e) (h : s.applyEvents b = .ok s')
    (hs : ∀ id row, s.runs.get? id = some row → P row) :
    ∀ id row, s'.runs.get? id = some row → P row :=
  RunDb.applyEvents_keep (fun t => ∀ id row, t.runs.get? id = some row → P row)
    (fun e he _ _ hst hs => hevent (hb e he) hst hs) h hs

theorem based_events (h : s.applyEvents b = .ok s')
    (hs : ∀ id row, s.runs.get? id = some row → Based row) :
    ∀ id row, s'.runs.get? id = some row → Based row := by
  refine rows_events Based (fun _ => True) ?_ (fun _ _ => trivial) h hs
  intro s s' e _ h hs id row hrow
  rw [RunDb.applyEvent_run h] at hrow
  split_ifs at hrow
  · exact based_onRow (hs id) hrow
  · exact hs id row hrow

theorem spentStored_events (hb : ∀ e ∈ b, addsUsage e = false) (h : s.applyEvents b = .ok s')
    (hs : SpentStored s) : SpentStored s' := by
  refine rows_events (fun row => ∀ d, row.spent.amount d ≤ i64Max)
    (fun e => addsUsage e = false) ?_ hb h hs
  intro s s' e hno h hs id row hrow d
  have hused : ∀ u, (usageValues u).amount d ≤ i64Max := fun u =>
    (inRange_amount (usageValues_inRange u) d).2.trans (columnCap_le d)
  rw [RunDb.applyEvent_run h] at hrow
  split_ifs at hrow
  · cases hold : s.runs.get? id with
    | some old =>
      rw [hold] at hrow
      rcases spent_onRow hno hrow with hsame | ⟨u,hu⟩
      · rw [hsame]
        exact hs id old hold d
      · rw [hu]
        exact hused u
    | none =>
      rw [hold] at hrow
      cases e <;> first
        | (cases hrow; done)
        | (cases hrow; exact hused _)
  · exact hs id row hrow d

theorem spent_kept (hb : ∀ e ∈ b, setsSpent e = false) (h : s.applyEvents b = .ok s')
    (hrow : s.runs.get? id = some row) :
    ∃ row', s'.runs.get? id = some row' ∧ row'.spent = row.spent := by
  refine RunDb.applyEvents_keep
    (fun t => ∃ row', t.runs.get? id = some row' ∧ row'.spent = row.spent) ?_ h ⟨row,hrow,rfl⟩
  rintro e he u t hut ⟨row',hrow',hspent⟩
  obtain ⟨next,hnext,_⟩ := runGrows_event hut hrow'
  have hread := hnext
  rw [RunDb.applyEvent_run hut,hrow'] at hread
  split_ifs at hread
  · exact ⟨next,hnext,(spent_kept_onRow (hb e he) hread).trans hspent⟩
  · cases hread
    exact ⟨row',hnext,hspent⟩

theorem sound_based (hs : SoundDb s) : ∀ id row, s.runs.get? id = some row → Based row := by
  intro id row hrow
  have hq := (hs.runs id row hrow).quota
  have hspent := fun d => (inRange_amount hq.spent d).1
  refine ⟨hq.committed.1,?_,hspent⟩
  rw [hq.checkpointed]
  exact hspent .steps

theorem mid_snapshot {mid : RunDb} (hs : SoundDb s) (hmid : s.applyEvents b = .ok mid)
    {post : List RunEvent} (hpost : mid.applyEvents post = .ok s') (hs' : SoundDb s') :
    writeSnapshot mid = .ok () ↔ SpentStored mid := by
  rw [writeSnapshot_ok]
  constructor
  · intro h id row hrow d
    have hall := h id row hrow
    have hmem : row.spent.amount d ∈ computedColumns row := by
      cases d <;> simp [computedColumns,UsageCols.amount]
    exact (hall _ hmem).2
  · intro h id row hrow value hvalue
    obtain ⟨hcommitted,hcheckpointed,hspent⟩ := based_events hmid (sound_based hs) id row hrow
    obtain ⟨last,hlast,hgrows⟩ := runGrows_events hpost hrow
    have hq := (hs'.runs id last hlast).quota
    have hsteps := (inRange_amount hq.spent .steps).2
    have h1 := hgrows.committed
    have h2 := hgrows.checkpointed
    have h3 := hq.committed.2
    have h4 := hq.cap
    have h5 := hq.checkpointed
    have hcap : columnCap .steps ≤ i64Max := columnCap_le _
    have hmax : (10000 : Int) ≤ i64Max := by decide
    have hsteps : last.spent.steps ≤ columnCap .steps := hsteps
    simp only [computedColumns,mem_cons,not_mem_nil,or_false] at hvalue
    have hlow : -(i64Max+1) ≤ 0 := by decide
    have hall : ∀ d, -(i64Max+1) ≤ row.spent.amount d ∧ row.spent.amount d ≤ i64Max := fun d =>
      ⟨hlow.trans (hspent d),h id row hrow d⟩
    rcases hvalue with rfl | rfl | rfl | rfl | rfl | rfl | rfl | rfl | rfl
    · exact ⟨by omega,by omega⟩
    · exact ⟨by omega,by omega⟩
    · exact hall .tokens
    · exact hall .usdMicros
    · exact hall .wallMs
    · exact hall .storageBytes
    · exact hall .toolCalls
    · exact hall .retries
    · exact hall .steps

end Batches

section Sums
variable {s s' : RunDb} {b : List RunEvent} {run_id : RunId} {raw : RunRow}

section
variable (hs : Saturated s)
include hs

theorem Saturated.kept (h : s.applyEvents b = .ok s')
    (habout : ∀ e ∈ b, e.run = run_id) (hquiet : ∀ e ∈ b, spendsNothing e = true)
    (hown : ∃ row', s'.runs.get? run_id = some row' ∧ row'.spent = raw.spent)
    (hrow : s.runs.get? run_id = some raw) : Saturated s' := by
  intro id row hget d
  have hsum : reported id d s'.log = reported id d s.log := by
    rw [RunDb.applyEvents_log h,reported_append,
      reported_quiet (fun e he => Or.inr (hquiet e he)),Nat.add_zero]
  rw [hsum]
  by_cases hid : id = run_id
  · subst hid
    obtain ⟨row',hrow',hspent⟩ := hown
    have heq := hrow'.symm.trans hget
    cases heq
    rw [hspent]
    exact hs id raw hrow d
  · rw [RunDb.applyEvents_run_other h (fun e he heq => hid (heq.symm.trans (habout e he)))] at hget
    exact hs id row hget d

theorem Saturated.idle (hrow : s.runs.get? run_id = some raw)
    (hb : ∀ e ∈ b, Idle run_id raw.spent e) (h : s.applyEvents b = .ok s') : Saturated s' := by
  refine hs.kept h (fun e he => (hb e he).about) (fun e he => (hb e he).nothing) ?_ hrow
  have hmoney : (s'.runs.get? run_id).map money = some (money raw) := by
    rw [RunDb.applyEvents_row h,hrow]
    exact idle_row rfl hb
  obtain ⟨row',hrow',hsame⟩ := Option.map_eq_some_iff.mp hmoney
  exact ⟨row',hrow',congrArg Prod.snd hsame⟩

theorem Saturated.commit {st : RunState} {plan : StepPlan}
    {call : AuthorizedToolCall} {receipt : Option GateReceipt} (hr : SoundRead s run_id raw st)
    (h : s.applyEvents (stepEvents st plan call receipt) = .ok s') : Saturated s' := by
  have hevents : ∀ e ∈ stepEvents st plan call receipt,
      spendsNothing e = true ∧ setsSpent e = false := by
    intro e he
    rcases mem_append.mp he with hgate | hstep
    · obtain ⟨_,_,rfl⟩ := gateEvents_mem hgate
      exact ⟨rfl,rfl⟩
    · rw [mem_singleton.mp hstep]
      exact ⟨rfl,rfl⟩
  exact hs.kept h (stepEvents_about hr.run plan call receipt) (fun e he => (hevents e he).1)
    (spent_kept (fun e he => (hevents e he).2) h hr.row) hr.row

theorem Saturated.start (hspending : Spending s) {h : RunHarness}
    {spec : RunStartSpec} {runtime : RuntimeDescriptor} {depth : UInt8}
    (ha : s.applyEvents [startedEvent h spec runtime depth] = .ok s') : Saturated s' := by
  have hrun : (startedEvent h spec runtime depth).run = spec.run_id := rfl
  have hsum : ∀ id d, reported id d s'.log = reported id d s.log := by
    intro id d
    rw [RunDb.applyEvents_log ha,reported_append]
    rfl
  intro id row hget d
  rw [hsum]
  by_cases hid : id = spec.run_id
  · subst hid
    obtain ⟨hnone,_⟩ := insertRow_ok (RunDb.applyEvent_ok (applyEvents_single ha)).2.1
    have hfree : s.runs.get? spec.run_id = none := hnone
    have hacc := hspending.accounts spec.run_id
    rw [hfree] at hacc
    rw [(hacc.unopened rfl).2 d]
    rw [RunDb.applyEvents_row ha,rowRun,if_pos hrun,rowRun] at hget
    cases hget
    have hcap := columnCap_nonneg d
    rw [show ((0 : Nat) : Int) = 0 from rfl,min_eq_left hcap]
    show (usageValues RunUsage.default).amount d = 0
    cases d <;> decide
  · have hne : ∀ e ∈ [startedEvent h spec runtime depth], e.run ≠ id := by
      intro e he heq
      rw [mem_singleton.mp he] at heq
      exact hid heq.symm
    rw [RunDb.applyEvents_run_other ha hne] at hget
    exact hs id row hget d

theorem Saturated.effect {call : AuthorizedToolCall} {report : ToolEffectReport}
    {st : RunState} {step : RunStepState} (hr : SoundRead s call.run_id raw st)
    (h : s.applyEvents (effectEvents call report st step) = .ok s') (hs' : SoundDb s') :
    Saturated s' := by
  have habout := effectEvents_about call report st step
  intro id row hget d
  have hlog := RunDb.applyEvents_log h
  by_cases hid : id = call.run_id
  · subst hid
    have hrest : reported call.run_id d
        (effectRest call report ++ overReservationEvents call report st step) = 0 :=
      reported_quiet (fun e he => Or.inr (effectRest_quiet call report st step e he).2)
    have hsum : reported call.run_id d s'.log =
        reported call.run_id d s.log+report.spent.amount d := by
      rw [reported] at hrest
      rw [hlog,reported_append,effectEvents_cons,reported,reported,map_cons,sum_cons,hrest]
      simp [reportedBy]
    have hold := hs call.run_id raw hr.row d
    have hcap := (inRange_amount (hs'.runs call.run_id row hget).quota.spent d).2
    have hused := amount_usageValues report.spent d
    have hheld := hr.spentNat.amount d
    have hzero := columnCap_nonneg d
    rw [RunDb.applyEvents_row h,hr.row,effect_row] at hget
    rw [hsum]
    push_cast
    cases hd : reservationExceededDimension report.spent step.reserved with
    | none =>
      rw [hd] at hget
      cases hget
      have hnew : (recordedRow raw call report).spent.amount d =
          raw.spent.amount d+(usageValues report.spent).amount d := amount_add _ _ d
      rw [hnew] at hcap ⊢
      omega
    | some dimension =>
      rw [hd] at hget
      cases hget
      have hnew : (overrunRow raw call report st dimension).spent.amount d =
          min ((st.spent.amount d : Int)+report.spent.amount d) (columnCap d) :=
        amount_saturated _ _ d
      rw [hnew]
      omega
  · have hne : ∀ e ∈ effectEvents call report st step, e.run ≠ id :=
      fun e he heq => hid (heq.symm.trans (habout e he))
    rw [RunDb.applyEvents_run_other h hne] at hget
    rw [hlog,reported_append,reported_quiet (fun e he => Or.inl (hne e he)),Nat.add_zero]
    exact hs id row hget d

end

theorem decision_saturated {op : HarnessCall} {seen : List (Obs runSignature)}
    (hd : Decision op seen b) (hseen : Compat currentCompat seen s) (hsound : SoundDb s)
    (hspending : Spending s) (hs : Saturated s) (h : s.applyEvents b = .ok s')
    (hs' : SoundDb s') : Saturated s' := by
  rcases decision_moves hd hseen hsound with ⟨_,_,_,_,rfl⟩ | ⟨_,r,_,_,_,hnow,_,rfl⟩ |
    ⟨call,report,r,t,hnow,rfl⟩ | ⟨_,_,hrow,hidle⟩
  · exact hs.start hspending h
  · exact hs.commit (RunRead.sound hnow hsound.runs) h
  · have hr := RunRead.sound (r := r) (fun q a ha => hnow q a (mem_append_left _ ha))
      hsound.runs
    exact hs.effect hr h hs'
  · exact hs.idle hrow hidle h

end Sums

section Windows
variable {s s' mid : RunDb} {log b pre post rest : List RunEvent} {id : RunId} {raw : RunRow}
variable {i : UInt32} {call_id : ToolCallId} {key : String} {digest : Digest} {used : RunUsage}

theorem Overdrawn.before (h : Overdrawn (log ++ pre)) (hno : ∀ e ∈ pre, addsUsage e = false) :
    Overdrawn log := by
  obtain ⟨p,id,i,call,key,digest,used,rest,heq,hpast,hopen⟩ := h
  rcases append_eq_append_iff.mp heq with ⟨a,_,ha⟩ | ⟨a,ha,hrest⟩
  · have hfalse := hno (.toolEffectRecorded id i call key digest used) (by simp [ha])
    cases hfalse
  · cases a with
    | nil =>
      have hfalse := hno (.toolEffectRecorded id i call key digest used) (by
        rw [nil_append] at hrest
        simp [← hrest])
      cases hfalse
    | cons x a =>
      obtain ⟨rfl,rfl⟩ := List.cons.inj hrest
      exact ⟨p,id,i,call,key,digest,used,a,ha,hpast,fun e he =>
        hopen e (mem_append_left _ he)⟩

theorem overdrawn_receipt (hlog : ¬ Overdrawn log) (hno : ∀ e ∈ rest, addsUsage e = false) :
    Overdrawn (log ++ .toolEffectRecorded id i call_id key digest used::rest) ↔
      passesRange log id used ∧ ∀ e ∈ rest, pausesRun id e = false := by
  constructor
  · rintro ⟨p,id',i',call',key',digest',used',rest',heq,hpast,hopen⟩
    rcases append_eq_append_iff.mp heq with ⟨a,ha,hrest⟩ | ⟨a,ha,hrest⟩
    · cases a with
      | nil =>
        rw [append_nil] at ha
        subst ha
        obtain ⟨hsame,rfl⟩ := List.cons.inj hrest
        cases hsame
        exact ⟨hpast,hopen⟩
      | cons x a =>
        obtain ⟨_,rfl⟩ := List.cons.inj hrest
        have hfalse := hno (.toolEffectRecorded id' i' call' key' digest' used') (by simp)
        cases hfalse
    · cases a with
      | nil =>
        rw [append_nil] at ha
        subst ha
        obtain ⟨hsame,rfl⟩ := List.cons.inj hrest
        cases hsame
        exact ⟨hpast,hopen⟩
      | cons x a =>
        obtain ⟨rfl,rfl⟩ := List.cons.inj hrest
        refine absurd ⟨p,id',i',call',key',digest',used',a,ha,hpast,fun e he => ?_⟩ hlog
        exact hopen e (mem_append_left _ he)
  · rintro ⟨hpast,hopen⟩
    exact ⟨log,id,i,call_id,key,digest,used,rest,rfl,hpast,hopen⟩

theorem sound_stored (hs : SoundDb s) : SpentStored s := fun id row hrow d =>
  (inRange_amount (hs.runs id row hrow).quota.spent d).2.trans (columnCap_le d)

variable {e : RunEvent}

theorem addsUsage_of_quiet (h : spendsNothing e = true) : addsUsage e = false := by
  cases e <;> first | rfl | cases h

theorem quiet_prefix (hs : SpentStored s) (hlog : ¬ Overdrawn s.log)
    (hno : ∀ e ∈ pre, addsUsage e = false) (hmid : s.applyEvents pre = .ok mid) :
    SpentStored mid ↔ ¬ Overdrawn (s.log ++ pre) :=
  ⟨fun _ hover => hlog (hover.before hno),fun _ => spentStored_events hno hmid hs⟩

theorem effectRest_sets (call : AuthorizedToolCall) (report : ToolEffectReport) :
    ∀ e ∈ effectRest call report, setsSpent e = false ∧ ∀ id, pausesRun id e = false := by
  intro e he
  unfold effectRest at he
  rcases mem_append.mp he with he | he
  · rcases mem_append.mp he with he | he
    · cases ha : report.artifact with
      | none => simp [ha,artifactEvents] at he
      | some a =>
        simp only [ha,artifactEvents,mem_singleton] at he
        subst he
        exact ⟨rfl,fun _ => rfl⟩
    · cases hv : report.validation with
      | none => simp [hv,validationEvents] at he
      | some v =>
        simp only [hv,validationEvents,mem_singleton] at he
        subst he
        exact ⟨rfl,fun _ => rfl⟩
  · rw [mem_singleton.mp he]
    exact ⟨rfl,fun _ => rfl⟩

variable {call : AuthorizedToolCall} {report : ToolEffectReport} {st : RunState}
  {step : RunStepState}

theorem overReservation_pauses (he : e ∈ overReservationEvents call report st step) :
    pausesRun call.run_id e = true ∧ overReservationEvents call report st step = [e] := by
  unfold overReservationEvents at he ⊢
  split at he
  · cases he
  · rw [mem_singleton] at he
    subst he
    exact ⟨decide_eq_true rfl,rfl⟩

theorem pause_closes
    (hsplit : effectRest call report ++ overReservationEvents call report st step = pre ++ post)
    (he : e ∈ pre) (hpause : pausesRun call.run_id e = true) : post = [] := by
  have hrest := effectRest_sets call report
  have hmem : e ∈ effectRest call report ++ overReservationEvents call report st step := by
    rw [hsplit]
    exact mem_append_left _ he
  rcases mem_append.mp hmem with hin | hin
  · have hnot := (hrest e hin).2 call.run_id
    rw [hpause] at hnot
    cases hnot
  · obtain ⟨_,hone⟩ := overReservation_pauses hin
    rw [hone] at hsplit
    rcases eq_nil_or_concat post with hnil | ⟨init,last,hlast⟩
    · exact hnil
    · -- otherwise the pause stands before the last event, among the quiet ones
      rw [hlast,concat_eq_append,← append_assoc] at hsplit
      obtain ⟨hinit,_⟩ := append_inj' hsplit rfl
      have hin' : e ∈ effectRest call report := by
        rw [hinit]
        exact mem_append_left _ he
      have hnot := (hrest e hin').2 call.run_id
      rw [hpause] at hnot
      cases hnot

theorem effect_prefix (hs : SoundDb s) (hsat : Saturated s) (hlog : ¬ Overdrawn s.log)
    (hrow : s.runs.get? call.run_id = some raw)
    (h : s.applyEvents (effectEvents call report st step) = .ok s') (hs' : SoundDb s')
    (hsplit : effectEvents call report st step = pre ++ post) (hmid : s.applyEvents pre = .ok mid) :
    SpentStored mid ↔ ¬ Overdrawn (s.log ++ pre) := by
  rw [effectEvents_cons] at hsplit
  cases pre with
  | nil => exact quiet_prefix (sound_stored hs) hlog (by simp) hmid
  | cons x rest =>
    rw [cons_append] at hsplit
    obtain ⟨rfl,hrest⟩ := List.cons.inj hsplit
    have hquiet : ∀ e ∈ rest, addsUsage e = false := fun e he =>
      addsUsage_of_quiet (effectRest_quiet call report st step e
        (by rw [hrest]; exact mem_append_left _ he)).2
    rw [overdrawn_receipt hlog hquiet]
    obtain ⟨first,hfirst,hlater⟩ := RunDb.applyEvents_cons hmid
    have hnew : first.runs.get? call.run_id =
        some { raw with spent := raw.spent.add (usageValues report.spent) } := by
      rw [RunDb.applyEvent_run hfirst,hrow]
      exact if_pos rfl
    have hsum : ∀ d, (raw.spent.add (usageValues report.spent)).amount d =
        min (reported call.run_id d s.log : Int) (columnCap d)+
          min (report.spent.amount d : Int) (columnCap d) := by
      intro d
      rw [amount_add,amount_usageValues,hsat call.run_id raw hrow d]
    constructor
    · rintro hstored ⟨⟨d,hpast⟩,hopen⟩
      have hkept : ∀ e ∈ rest, setsSpent e = false := by
        intro e he
        have hmem : e ∈ effectRest call report ++ overReservationEvents call report st step := by
          rw [hrest]
          exact mem_append_left _ he
        rcases mem_append.mp hmem with hin | hin
        · exact (effectRest_sets call report e hin).1
        · have hpause := (overReservation_pauses hin).1
          rw [hopen e he] at hpause
          cases hpause
      obtain ⟨last,hlast,hspent⟩ := spent_kept hkept hlater hnew
      have hle := hstored call.run_id last hlast d
      rw [hspent,hsum] at hle
      omega
    · intro hnot
      by_cases hpast : passesRange s.log call.run_id report.spent
      · -- the pause has come: this is the whole batch
        have hclosed : ∃ e ∈ rest, pausesRun call.run_id e = true := by
          by_contra hnone
          refine hnot ⟨hpast,fun e he => ?_⟩
          cases hp : pausesRun call.run_id e with
          | false => rfl
          | true => exact absurd ⟨e,he,hp⟩ hnone
        obtain ⟨e,he,hpause⟩ := hclosed
        have hnil := pause_closes hrest he hpause
        rw [hnil,append_nil] at hrest
        rw [effectEvents_cons,hrest,hmid] at h
        cases h
        exact sound_stored hs'
      · refine spentStored_events hquiet hlater fun id row hget d => ?_
        by_cases hid : id = call.run_id
        · subst hid
          have heq := hnew.symm.trans hget
          cases heq
          simp only [hsum]
          by_contra hlt
          exact hpast ⟨d,by omega⟩
        · rw [RunDb.applyEvent_run hfirst,if_neg (fun heq => hid heq.symm)] at hget
          exact sound_stored hs id row hget d

theorem decision_prefix {op : HarnessCall} {seen : List (Obs runSignature)}
    (hd : Decision op seen b) (hseen : Compat currentCompat seen s) (hs : SoundDb s)
    (hsat : Saturated s) (hlog : ¬ Overdrawn s.log) (h : s.applyEvents b = .ok s')
    (hs' : SoundDb s') (hsplit : b = pre ++ post) (hmid : s.applyEvents pre = .ok mid) :
    SpentStored mid ↔ ¬ Overdrawn (s.log ++ pre) := by
  have hmem : ∀ e ∈ pre, e ∈ b := fun e he => by
    rw [hsplit]
    exact mem_append_left _ he
  have hsingle : ∀ {e' : RunEvent}, b = [e'] → addsUsage e' = false →
      ∀ e ∈ pre, addsUsage e = false := by
    intro e' hb hno e he
    have hin := hmem e he
    rw [hb,mem_singleton] at hin
    rw [hin]
    exact hno
  cases hd with
  | effect call report r t hreport htarget hcheckpoint heffect =>
    have hr := RunRead.sound (r := r) (fun q a ha => hseen q a (mem_append_left _ ha)) hs.runs
    exact effect_prefix hs hsat hlog hr.row h hs' hsplit hmid
  | step h' run_id plan receipt r call hplan hat hpending hindex hadmits =>
    refine quiet_prefix (sound_stored hs) hlog (fun e he => ?_) hmid
    rcases mem_append.mp (hmem e he) with hgate | hstep
    · obtain ⟨_,_,rfl⟩ := gateEvents_mem hgate
      rfl
    · rw [mem_singleton.mp hstep]
      rfl
  | settle _ run_id r control hpending hcounts hop =>
    refine quiet_prefix (sound_stored hs) hlog (fun e he => ?_) hmid
    rcases settleEvents_mem (hmem e he) with rfl | rfl | rfl <;> rfl
  | control _ run_id reason control r hop hterminal hpending hpaused =>
    refine quiet_prefix (sound_stored hs) hlog (hsingle rfl ?_) hmid
    cases control <;> rfl
  | start | budgetPause | resume | finish | taint | ask | answer =>
    exact quiet_prefix (sound_stored hs) hlog (hsingle rfl rfl) hmid

end Windows

def SnapshotsClear (due : Nat → Bool) (log b : List RunEvent) : Prop :=
  ∀ pre post, b = pre ++ post → due (log.length+pre.length) = true → ¬ Overdrawn (log ++ pre)

/-- The rows are the log's, and a snapshot could be written after any part that is
not overdrawn. -/
structure Photographable (s : RunDb) : Prop where
  sound : SoundDb s
  spending : Spending s
  saturated : Saturated s
  replayed : RunDb.empty.applyEvents s.log = .ok s
  history : ∀ pre post mid, s.log = pre ++ post → RunDb.empty.applyEvents pre = .ok mid →
    (writeSnapshot mid = .ok () ↔ ¬ Overdrawn pre)

section Appends
variable {s s' : RunDb} {b : List RunEvent}

theorem Photographable.written (h : Photographable s) : writeSnapshot s = .ok () :=
  (@mid_snapshot s s [] s h.sound rfl [] rfl h.sound).mpr (sound_stored h.sound)

theorem Photographable.clear (h : Photographable s) : ¬ Overdrawn s.log :=
  (h.history s.log [] s (by simp) h.replayed).mp h.written

theorem appendEvents_iff {due : Nat → Bool} (h : s.applyEvents b = .ok s')
    (hclear : ¬ Overdrawn s.log)
    (hmoments : ∀ pre post mid, b = pre ++ post → s.applyEvents pre = .ok mid →
      (writeSnapshot mid = .ok () ↔ ¬ Overdrawn (s.log ++ pre))) :
    appendEvents due s b = .ok s' ↔ SnapshotsClear due s.log b := by
  have hhead : ∀ {pre mid}, s.applyEvents pre = .ok mid → mid.head = s.log.length+pre.length := by
    intro pre mid hmid
    rw [RunDb.head,RunDb.applyEvents_log hmid,length_append]
  refine (foldlM_checked h).trans ⟨fun hall pre post heq hdue => ?_,?_⟩
  · obtain ⟨mid,hmid,_⟩ := applyEvents_append (heq ▸ h)
    cases pre with
    | nil =>
      rw [append_nil]
      exact hclear
    | cons e pre =>
      have hcheck := hall _ post mid heq (by simp) hmid
      rw [snapshotDue,hhead hmid,if_pos hdue] at hcheck
      exact (hmoments _ post mid heq hmid).mp hcheck
  · intro hall pre post mid heq _ hmid
    unfold snapshotDue
    split_ifs with hdue
    · rw [hhead hmid] at hdue
      exact (hmoments pre post mid heq hmid).mpr (hall pre post heq hdue)
    · rfl

variable {seen : List (Obs runSignature)} {op : HarnessCall}

theorem decision_moments
    (hd : Decision op seen b) (hseen : Compat currentCompat seen s) (hs : Photographable s)
    (h : s.applyEvents b = .ok s') : ∀ pre post mid, b = pre ++ post →
      s.applyEvents pre = .ok mid → (writeSnapshot mid = .ok () ↔ ¬ Overdrawn (s.log ++ pre)) := by
  intro pre post mid heq hmid
  have hs' := (decision_sound hd hseen hs.sound h).1
  obtain ⟨m,hm,hpost⟩ := applyEvents_append (heq ▸ h)
  have hsame := hm.symm.trans hmid
  cases hsame
  rw [mid_snapshot hs.sound hmid hpost hs']
  exact decision_prefix hd hseen hs.sound hs.saturated hs.clear h hs' heq hmid

theorem decision_photographable
    (hd : Decision op seen b) (hseen : Compat currentCompat seen s) (hs : Photographable s)
    (h : s.applyEvents b = .ok s') : Photographable s' := by
  have hsound := (decision_sound hd hseen hs.sound h).1
  have hlog := RunDb.applyEvents_log h
  have hmoments := decision_moments hd hseen hs h
  refine ⟨hsound,decision_spending hd hseen hs.sound hs.spending h,
    decision_saturated hd hseen hs.sound hs.spending hs.saturated h hsound,?_,?_⟩
  · rw [hlog,RunDb.applyEvents,foldlM_append_eq]
    have hreplay := hs.replayed
    rw [RunDb.applyEvents] at hreplay
    rw [hreplay]
    exact h
  · intro pre post mid heq hmid
    rw [hlog] at heq
    rcases append_eq_append_iff.mp heq with ⟨a,rfl,hb⟩ | ⟨a,ha,_⟩
    · obtain ⟨m,hm,hrest⟩ := applyEvents_append hmid
      have hsame := hm.symm.trans hs.replayed
      cases hsame
      exact hmoments a post mid hb hrest
    · exact hs.history pre a mid ha hmid

theorem empty_photographable : Photographable RunDb.empty := by
  refine ⟨empty_sound,empty_spending,?_,rfl,?_⟩
  · rintro id row ⟨⟩
  · intro pre post mid heq hmid
    have hnil := (append_eq_nil_iff.mp heq.symm).1
    subst hnil
    cases hmid
    refine ⟨fun _ hover => ?_,fun _ => rfl⟩
    obtain ⟨p,id,i,call,key,digest,used,rest,hsplit,_⟩ := hover
    simp at hsplit

def snapshotContract : Contract runSignature HarnessCall RunDb where
  compat := currentCompat
  inv := Photographable
  may _ _ := True
  rel s b s' := ∀ due, appendEvents due s b = .ok s' ↔ SnapshotsClear due s.log b

theorem snapshot_meets : Meets snapshotContract := by
  intro op seen b hd s s' hseen hinv _ ha
  exact ⟨decision_photographable hd hseen hinv ha,fun due =>
    appendEvents_iff ha hinv.clear (decision_moments hd hseen hinv ha)⟩

end Appends

section Sequential
variable {due : Nat → Bool} {c : Config runSignature HarnessCall HarnessError HarnessReply RunDb}

/-- What is kept of the spent columns, and when a snapshot goes through: the sums are
saturated between operations, and an append, or a rebuild of the log, is refused over a
snapshot exactly when one falls due between a receipt that takes a column past its range
and the pause behind it. -/
theorem snapshots_written_iff
    (hc : Reachable (snapshotSystem due) (oneAfterAnother fun _ _ => True) RunDb.empty c) :
    Saturated c.store ∧ (∀ id, ∃ state, readRun c.store id = .ok state) ∧
      writeSnapshot c.store = .ok () ∧
      (∀ i t b k s', c.threads i = some t → t.prog = .act (.append b) k →
        c.store.applyEvents b = .ok s' →
        (appendEvents due c.store b = .ok s' ↔ SnapshotsClear due c.store.log b)) ∧
      ∀ rebuild, appendEvents rebuild RunDb.empty c.store.log = .ok c.store ↔
        SnapshotsClear rebuild [] c.store.log := by
  obtain ⟨hreach,hone⟩ := reachable_sequential (fun _ _ h => h) (snapshot_run hc)
  have hok := run_ok (K := snapshotContract) (code_runs snapshot_meets) (fun _ _ h => h)
    (fun _ _ h => h) empty_photographable hreach
  have hinv : Photographable c.store := hok.inv
  refine ⟨hinv.saturated,readRun_ok hinv.sound.runs hinv.sound.grants,hinv.written,?_,?_⟩
  · intro i t b k s' hi hp ha
    have hrest := (hok.threads i t hi).rest
    rw [hp] at hrest
    have hcurrent := (hone.of_running hi (finished_act hp)).1
    cases b with
    | nil =>
      cases ha
      refine ⟨fun _ pre post heq _ => ?_,fun _ => rfl⟩
      rw [(append_eq_nil_iff.mp heq.symm).1,append_nil]
      exact hinv.clear
    | cons e b =>
      have happly : runStore.apply c.store (e::b) = .ok s' := by
        show runApply c.store (e::b) = .ok s'
        rw [runApply,ha]
        · rfl
        · simp
      exact (hrest.1 c.store s' hcurrent hinv trivial happly).2 due
  · intro rebuild
    exact appendEvents_iff hinv.replayed empty_photographable.clear hinv.history

end Sequential

def nextPlan : StepPlan := { demoPlan with step_index := 1, tool_call := ⟨demoTool,⟨4⟩,[]⟩ }

def nextCall : AuthorizedToolCall :=
  { demoCall with
    step_index := 1, call_id := ⟨4⟩, idempotency_key := idempotencyKey ⟨7⟩ 1 ⟨4⟩ }

def boundlessReport : ToolEffectReport := ⟨0,0,⟨18446744073709551615,5,5,5,1,0,1⟩,none,none⟩

def boundlessMoves : List (Move runSignature HarnessCall) :=
  [.spawn 0 (.start demoHarness demoSpec),.turn 0,.turn 0,.turn 0,.turn 0,.stop 0,
    .spawn 0 (.prepareStep demoHarness ⟨7⟩ demoPlan none),.turn 0,.turn 0,.clock 0 0,.turn 0,
    .turn 0,.stop 0,
    .spawn 0 (.recordEffect demoCall withinReport),.turn 0,.turn 0,.turn 0,.turn 0,.turn 0,.stop 0,
    .spawn 0 (.prepareStep demoHarness ⟨7⟩ nextPlan none),.turn 0,.turn 0,.clock 0 0,.turn 0,
    .turn 0,.stop 0,
    .spawn 0 (.recordEffect nextCall boundlessReport),.turn 0,.turn 0,.turn 0]

def refusedOverSnapshot (due : Nat → Bool)
    (c : Config runSignature HarnessCall HarnessError HarnessReply RunDb) : Bool :=
  match c.threads 0 with
  | none => false
  | some t =>
    match t.prog with
    | .act (.append b) _ => (c.store.applyEvents b).isOk && !(appendEvents due c.store b).isOk
    | _ => false

theorem refusedOverSnapshot_some {due : Nat → Bool}
    {c : Config runSignature HarnessCall HarnessError HarnessReply RunDb}
    (h : refusedOverSnapshot due c = true) : ∃ t b k s', c.threads 0 = some t ∧
      t.prog = .act (.append b) k ∧ c.store.applyEvents b = .ok s' ∧
      appendEvents due c.store b ≠ .ok s' := by
  unfold refusedOverSnapshot at h
  split at h
  · cases h
  · rename_i t ht
    split at h
    · rename_i b k hp
      rw [Bool.and_eq_true,Bool.not_eq_true'] at h
      cases ha : c.store.applyEvents b with
      | error error =>
        rw [ha] at h
        cases h.1
      | ok s' =>
        refine ⟨t,b,k,s',ht,hp,ha,fun hok => ?_⟩
        rw [hok] at h
        cases h.2
    · cases h

/-- With a snapshot every six events the receipt that overflows is the sixth. -/
theorem overflow_refuses_snapshot :
    ¬ ∀ cadence, 0 < cadence → ∀ c, Reachable (snapshotSystem (everyNth cadence))
      (oneAfterAnother fun _ _ => True) RunDb.empty c →
      Saturated c.store ∧ (∀ id, ∃ state, readRun c.store id = .ok state) ∧
        ∀ i t b k s', c.threads i = some t → t.prog = .act (.append b) k →
          c.store.applyEvents b = .ok s' → appendEvents (everyNth cadence) c.store b = .ok s' := by
  intro h
  have hreach : Reachable (snapshotSystem (everyNth 6)) (oneAfterAnother fun _ _ => True)
      RunDb.empty (after (snapshotSystem (everyNth 6)) RunDb.empty boundlessMoves) :=
    after_sequential (fun _ => true = true) (fun _ _ _ => trivial) (by decide)
      (by decide)
  obtain ⟨t,b,k,s',ht,hp,ha,hnot⟩ := @refusedOverSnapshot_some (everyNth 6)
    (after (snapshotSystem (everyNth 6)) RunDb.empty boundlessMoves) (by decide)
  exact hnot ((h 6 (by decide) _ hreach).2.2 0 t b k s' ht hp ha)

/-- With the default cadence the same receipt goes through and saturates. -/
theorem boundless_receipt_saturates :
    reported ⟨7⟩ .tokens (after (snapshotSystem (everyNth 10000)) RunDb.empty
      (boundlessMoves ++ [.turn 0,.turn 0])).store.log = 18446744073709551620 ∧
    Saturated (after (snapshotSystem (everyNth 10000)) RunDb.empty
      (boundlessMoves ++ [.turn 0,.turn 0])).store := by
  have hreach : Reachable (snapshotSystem (everyNth 10000)) (oneAfterAnother fun _ _ => True)
      RunDb.empty (after (snapshotSystem (everyNth 10000)) RunDb.empty
        (boundlessMoves ++ [.turn 0,.turn 0])) :=
    after_sequential (fun _ => true = true) (fun _ _ _ => trivial) (by decide)
      (by decide)
  exact ⟨by decide,(snapshots_written_iff hreach).1⟩

end ProjectOS.Agents
