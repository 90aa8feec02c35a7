import ProjectOS.Agents.Control

/-! What the harness keeps when no decision is stale, and the orders in which a
stale one does harm. -/

namespace ProjectOS.Agents
open Lib Lib.Optimistic Domain RunHarness

variable {id : RunId}

theorem status_of_control {s : RunDb} {v : ControlView} (h : controlOf s id = some v) :
    ∃ row, s.runs.get? id = some row ∧ row.status = v.status ∧ row.pending_control = v.pending := by
  obtain ⟨row,hrow,hv⟩ := Option.map_eq_some_iff.mp h
  cases hv
  exact ⟨row,hrow,rfl,rfl⟩

theorem control_of_row {s : RunDb} {row : RunRow} (h : s.runs.get? id = some row) :
    controlOf s id = some (RunRow.control row) := by
  simp [controlOf,Table.column,h]

section Fresh
variable {G : Guard runSignature HarnessCall HarnessError HarnessReply RunDb}
variable {c d : Config runSignature HarnessCall HarnessError HarnessReply RunDb}

theorem fresh_terminal (hhead : ∀ s t, G.head s t → Current runStore t s)
    (hc : Reachable runSystem G RunDb.empty c) (hd : Relation.ReflTransGen (Step runSystem G) c d) :
    KeepsTerminal c.store d.store :=
  run_rel (K := terminalContract) (code_runs terminal_meets) (fun _ _ _ => trivial) hhead
    empty_closed (fun _ _ _ h _ => h)
    (fun _ _ _ h1 h2 id v hv ht => h2 id v (h1 id v hv ht) ht) (fun _ _ _ h => h) hc hd

theorem fresh_cancels (hhead : ∀ s t, G.head s t → Current runStore t s)
    (happend : ∀ s op, G.append s op → ¬ overridesCancel s op)
    (hc : Reachable runSystem G RunDb.empty c) :
    CancelsHeld c.store ∧ NoLateFinish c.store.log :=
  (run_ok (K := cancelContract) (code_runs cancel_meets) happend hhead
    ⟨empty_closed,empty_cancels⟩ hc).inv.2

/-- In a run whose head reads all find what the attempt read unchanged, an append that
takes effect is computed from the rows at the head it names and a terminal status stays.
If no over-reservation pause lands on a pending cancel either, a `RunFinished` behind a
cancel request reports the cancel. -/
theorem fresh_appends_are_decided (hhead : ∀ s t, G.head s t → Current runStore t s)
    (hc : Reachable runSystem G RunDb.empty c) :
    (∀ d, Step runSystem G c d → d.store = c.store ∨
      ∃ i t b, c.threads i = some t ∧ t.pin = some c.store.head ∧
        computes runStore t.start c.store (clocks t.seen) = some b ∧
        c.store.applyEvents b = .ok d.store) ∧
    (∀ d, Relation.ReflTransGen (Step runSystem G) c d → ∀ id row,
      c.store.runs.get? id = some row → terminalText row.status = true →
      ∃ row', d.store.runs.get? id = some row' ∧ row'.status = row.status) ∧
    ((∀ s op, G.append s op → ¬ overridesCancel s op) → NoLateFinish c.store.log) := by
  refine ⟨?_,?_,fun happend => (fresh_cancels hhead happend hc).2⟩
  · intro d hd
    rcases step_store hd with hs | ⟨i,t,b,k,hi,hp,hpin,_,ha⟩
    · exact Or.inl hs
    · exact Or.inr ⟨i,t,b,hi,hpin,append_computed hhead hc hi hp hpin,(runApply_ok ha).2⟩
  · intro d hd id row hrow ht
    have hv := fresh_terminal hhead hc hd id _ (control_of_row hrow) ht
    obtain ⟨row',hrow',hstatus,_⟩ := status_of_control hv
    exact ⟨row',hrow',hstatus⟩

end Fresh

def staleFinishMoves : List (Move runSignature HarnessCall) :=
  [.spawn 0 (.start demoHarness demoSpec),.turn 0,.turn 0,
    .spawn 1 (.finish ⟨7⟩ .completed),.turn 1,.turn 1,
    .spawn 2 (.requestCancel ⟨7⟩ "stop"),.turn 2,.turn 2,.turn 2,.turn 2,
    .turn 1,.turn 1]

def requestsCancel (id : RunId) : RunEvent → Bool
  | .cancelRequested r _ => decide (r = id)
  | _ => false

theorem requestsCancel_true {e : RunEvent} (h : requestsCancel id e = true) :
    ∃ reason, e = .cancelRequested id reason := by
  unfold requestsCancel at h
  split at h
  · rw [of_decide_eq_true h]
    exact ⟨_,rfl⟩
  · cases h

variable {log : List RunEvent}

theorem late_finish (id : RunId) (n : Nat) (hreq : (log[n]?).any (requestsCancel id) = true)
    (hfin : (log.drop (n+1)).any (finishesOtherwise id) = true) : ¬ NoLateFinish log := by
  intro hno
  cases he : log[n]? with
  | none => simp [he] at hreq
  | some e =>
    rw [he] at hreq
    obtain ⟨reason,rfl⟩ := requestsCancel_true hreq
    obtain ⟨f,hf,hfin⟩ := List.any_eq_true.mp hfin
    obtain ⟨hn,hget⟩ := List.getElem?_eq_some_iff.mp he
    have hsplit : log = log.take n ++ .cancelRequested id reason::log.drop (n+1) := by
      rw [← hget,List.cons_getElem_drop_succ,List.take_append_drop]
    have hfalse := hno _ _ id reason hsplit f hf
    rw [hfin] at hfalse
    cases hfalse

theorem stale_finish_overwrites_cancel :
    ¬ ∀ c, Reachable runSystem Guard.free RunDb.empty c → NoLateFinish c.store.log := by
  intro h
  have hreach : Reachable runSystem Guard.free RunDb.empty
      (after runSystem RunDb.empty staleFinishMoves) := after_reachable (by decide)
  exact late_finish ⟨7⟩ 1 (by decide) (by decide) (h _ hreach)

def cancelThenFinishMoves : List (Move runSignature HarnessCall) :=
  [.spawn 0 (.start demoHarness demoSpec),.turn 0,.turn 0,.turn 0,.turn 0,.stop 0,
    .spawn 0 (.requestCancel ⟨7⟩ "stop"),.turn 0,.turn 0,.turn 0,.turn 0,.turn 0,.turn 0,
    .turn 0,.turn 0,.turn 0,.turn 0,.turn 0,.turn 0,.stop 0,
    .spawn 0 (.finish ⟨7⟩ .completed),.turn 0,.turn 0]

def recordsNothing : HarnessCall → Bool
  | .recordEffect _ _ => false
  | _ => true

theorem recordsNothing_allows (s : RunDb) (op : HarnessCall) (h : recordsNothing op = true) :
    ¬ overridesCancel s op := by
  cases op <;> first | exact id | cases h

instance (allow : HarnessCall → Bool) (m : Move runSignature HarnessCall) :
    Decidable (Move.allowed (fun op => allow op = true) m) :=
  match m with
  | .spawn _ op => inferInstanceAs (Decidable (allow op = true))
  | .turn _
  | .clock _ _
  | .stop _ => isTrue trivial

theorem cancelThenFinish_reachable :
    Reachable runSystem (oneAfterAnother fun s op => ¬ overridesCancel s op) RunDb.empty
      (after runSystem RunDb.empty cancelThenFinishMoves) :=
  after_sequential (fun op => recordsNothing op = true) recordsNothing_allows (by decide) (by decide)

theorem fresh_cancel_then_finish :
    (after runSystem RunDb.empty cancelThenFinishMoves).store.log.any (requestsCancel ⟨7⟩) = true ∧
      NoLateFinish (after runSystem RunDb.empty cancelThenFinishMoves).store.log := by
  refine ⟨by decide,?_⟩
  have hreach := (reachable_sequential (fun _ _ h => h) cancelThenFinish_reachable).1
  exact (fresh_appends_are_decided (fun _ _ h => h) hreach).2.2 (fun _ _ h => h)

section Sequential
variable {c : Config runSignature HarnessCall HarnessError HarnessReply RunDb}

/-- Operations run one after another: from a cancel request on, the Run's pending control
is that cancel until its status is canceled, as long as no over-reservation pause is
recorded on top. -/
theorem sequential_cancel_is_held
    (hc : Reachable runSystem (oneAfterAnother fun s op => ¬ overridesCancel s op) RunDb.empty c)
    {id : RunId} {reason : String} (hreq : .cancelRequested id reason ∈ c.store.log) :
    ∃ row, c.store.runs.get? id = some row ∧
      (row.pending_control = some "cancel" ∨ row.status = "canceled") := by
  have hreach := (reachable_sequential (fun _ _ h => h) hc).1
  have hheld := (fresh_cancels (fun _ _ h => h) (fun _ _ h => h) hreach).1 id reason hreq
  obtain ⟨v,hv,hor⟩ := hheld
  obtain ⟨row,hrow,hstatus,hpending⟩ := status_of_control hv
  exact ⟨row,hrow,by rw [hstatus,hpending]; exact hor⟩

end Sequential

theorem mem_of_any (h : log.any (requestsCancel id) = true) :
    ∃ reason, .cancelRequested id reason ∈ log := by
  obtain ⟨e,he,hcancel⟩ := List.any_eq_true.mp h
  obtain ⟨reason,rfl⟩ := requestsCancel_true hcancel
  exact ⟨reason,he⟩

theorem sequential_cancel_is_held_demo :
    ∃ row, (after runSystem RunDb.empty cancelThenFinishMoves).store.runs.get? ⟨7⟩ = some row ∧
      (row.pending_control = some "cancel" ∨ row.status = "canceled") := by
  have hany : (after runSystem RunDb.empty cancelThenFinishMoves).store.log.any
      (requestsCancel ⟨7⟩) = true := by decide
  obtain ⟨reason,hreq⟩ := mem_of_any hany
  exact sequential_cancel_is_held cancelThenFinish_reachable hreq

def demoCall : AuthorizedToolCall where
  run_id := ⟨7⟩
  step_index := 0
  descriptor := ⟨demoTool,1,.readEvidence,.allow,.readOnly,64,version_one,demo_input_bound⟩
  call_id := ⟨3⟩
  idempotency_key := idempotencyKey ⟨7⟩ 0 ⟨3⟩
  input := []

def overrunReport : ToolEffectReport := ⟨0,0,⟨6,5,5,5,1,0,1⟩,none,none⟩

def overrunMoves : List (Move runSignature HarnessCall) :=
  [.spawn 0 (.start demoHarness demoSpec),.turn 0,.turn 0,.turn 0,.turn 0,.stop 0,
    .spawn 0 (.prepareStep demoHarness ⟨7⟩ demoPlan none),.turn 0,.turn 0,.clock 0 0,.turn 0,
    .turn 0,.stop 0,
    .spawn 0 (.requestCancel ⟨7⟩ "stop"),.turn 0,.turn 0,.turn 0,.turn 0,.turn 0,.turn 0,.turn 0,
    .turn 0,.stop 0,
    .spawn 0 (.recordEffect demoCall overrunReport),.turn 0,.turn 0,.turn 0,.turn 0,.turn 0,
    .turn 0,.turn 0,.turn 0]

theorem overrun_drops_cancel :
    ¬ ∀ c, Reachable runSystem (oneAfterAnother fun _ _ => True) RunDb.empty c →
      ∀ id reason, .cancelRequested id reason ∈ c.store.log →
        ∃ row, c.store.runs.get? id = some row ∧
          (row.pending_control = some "cancel" ∨ row.status = "canceled") := by
  intro h
  have hreach : Reachable runSystem (oneAfterAnother fun _ _ => True) RunDb.empty
      (after runSystem RunDb.empty overrunMoves) :=
    after_sequential (fun _ => true = true) (fun _ _ _ => trivial) (by decide)
      (by decide)
  have hany : (after runSystem RunDb.empty overrunMoves).store.log.any
      (requestsCancel ⟨7⟩) = true := by decide
  obtain ⟨reason,hreq⟩ := mem_of_any hany
  obtain ⟨row,hrow,hor⟩ := h _ hreach _ reason hreq
  have hnot : ((after runSystem RunDb.empty overrunMoves).store.runs.get? ⟨7⟩).any
      (fun row => decide (row.pending_control = some "cancel" ∨ row.status = "canceled")) =
      false := by decide
  simp only [hrow,Option.any_some,decide_eq_false_iff_not] at hnot
  exact hnot hor

end ProjectOS.Agents
