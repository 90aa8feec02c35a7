import ProjectOS.Domain.RunState

/-! Rows that read back. A `proj_runs` row in this shape passes every check of
`parse_run`. -/

namespace ProjectOS.Domain
open Lib

structure UsageCols.InRange (u : UsageCols) : Prop where
  tokens : 0 ≤ u.tokens ∧ u.tokens ≤ i64Max
  usd_micros : 0 ≤ u.usd_micros ∧ u.usd_micros ≤ i64Max
  wall_ms : 0 ≤ u.wall_ms ∧ u.wall_ms ≤ i64Max
  storage_bytes : 0 ≤ u.storage_bytes ∧ u.storage_bytes ≤ i64Max
  tool_calls : 0 ≤ u.tool_calls ∧ u.tool_calls ≤ u32Max
  retries : 0 ≤ u.retries ∧ u.retries ≤ u32Max
  steps : 0 ≤ u.steps ∧ u.steps ≤ u32Max

structure UsageCols.Le (a b : UsageCols) : Prop where
  tokens : a.tokens ≤ b.tokens
  usd_micros : a.usd_micros ≤ b.usd_micros
  wall_ms : a.wall_ms ≤ b.wall_ms
  storage_bytes : a.storage_bytes ≤ b.storage_bytes
  tool_calls : a.tool_calls ≤ b.tool_calls
  retries : a.retries ≤ b.retries
  steps : a.steps ≤ b.steps

structure UsageCols.Holds (cols : UsageCols) (u : RunUsage) : Prop where
  tokens : (u.tokens.toNat : Int) = cols.tokens
  usd_micros : (u.usd_micros.toNat : Int) = cols.usd_micros
  wall_ms : (u.wall_ms.toNat : Int) = cols.wall_ms
  storage_bytes : (u.storage_bytes.toNat : Int) = cols.storage_bytes
  tool_calls : (u.tool_calls.toNat : Int) = cols.tool_calls
  retries : (u.retries.toNat : Int) = cols.retries
  steps : (u.steps.toNat : Int) = cols.steps

variable {value : Int}

theorem toU64_value {table field : String} {u : UInt64} (h : toU64 value table field = .ok u)
    (hle : value ≤ i64Max) : (u.toNat : Int) = value := by
  obtain ⟨h0,rfl⟩ := toU64_ok h
  have hlt : value.toNat < 2^64 := by
    simp only [i64Max] at hle
    omega
  rw [UInt64.toNat_ofNat_of_lt' hlt]
  omega

theorem toU64_inRange (table field : String) (h : 0 ≤ value ∧ value ≤ i64Max) :
    ∃ u, toU64 value table field = .ok u := by
  rw [toU64,if_pos h.1]
  exact ⟨_,rfl⟩

theorem toU32_inRange (table field : String) (h : 0 ≤ value ∧ value ≤ u32Max) :
    ∃ u, toU32 value table field = .ok u := by
  rw [toU32,if_pos h]
  exact ⟨_,rfl⟩

theorem toU8_inRange (table field : String) (h : 0 ≤ value ∧ value ≤ u8Max) :
    ∃ u, toU8 value table field = .ok u := by
  rw [toU8,if_pos h]
  exact ⟨_,rfl⟩

variable {cols : UsageCols}

theorem usageFrom_ok {table word : String} {u : RunUsage} (h : usageFrom cols table word = .ok u)
    (hr : cols.InRange) : cols.Holds u := by
  obtain ⟨_,h1,h⟩ := bind_ok h
  obtain ⟨_,h2,h⟩ := bind_ok h
  obtain ⟨_,h3,h⟩ := bind_ok h
  obtain ⟨_,h4,h⟩ := bind_ok h
  obtain ⟨_,h5,h⟩ := bind_ok h
  obtain ⟨_,h6,h⟩ := bind_ok h
  obtain ⟨_,h7,h⟩ := bind_ok h
  cases h
  exact ⟨toU64_value h1 hr.tokens.2,toU64_value h2 hr.usd_micros.2,toU64_value h3 hr.wall_ms.2,
    toU64_value h4 hr.storage_bytes.2,toU32_ok h5,toU32_ok h6,toU32_ok h7⟩

theorem usageFrom_inRange (table word : String) (hr : cols.InRange) :
    ∃ u, usageFrom cols table word = .ok u := by
  obtain ⟨_,h1⟩ := toU64_inRange table (word ++ "tokens") hr.tokens
  obtain ⟨_,h2⟩ := toU64_inRange table (word ++ "usd_micros") hr.usd_micros
  obtain ⟨_,h3⟩ := toU64_inRange table (word ++ "wall_ms") hr.wall_ms
  obtain ⟨_,h4⟩ := toU64_inRange table (word ++ "storage_bytes") hr.storage_bytes
  obtain ⟨_,h5⟩ := toU32_inRange table (word ++ "tool_calls") hr.tool_calls
  obtain ⟨_,h6⟩ := toU32_inRange table (word ++ "retries") hr.retries
  obtain ⟨_,h7⟩ := toU32_inRange table (word ++ "steps") hr.steps
  rw [usageFrom,h1,h2,h3,h4,h5,h6,h7]
  exact ⟨_,rfl⟩

theorem u32_inRange (n : UInt32) : 0 ≤ integerU32 n.toNat ∧ integerU32 n.toNat ≤ u32Max := by
  have hlt := n.toNat_lt
  simp only [integerU32,u32Max]
  omega

theorem usageValues_inRange (u : RunUsage) : (usageValues u).InRange :=
  ⟨⟨integerU64_nonneg _,integerU64_le _⟩,⟨integerU64_nonneg _,integerU64_le _⟩,
    ⟨integerU64_nonneg _,integerU64_le _⟩,⟨integerU64_nonneg _,integerU64_le _⟩,
    u32_inRange _,u32_inRange _,u32_inRange _⟩

theorem integerU64_of {n : Nat} {v : Int} (h : (n : Int) = v) (hle : v ≤ i64Max) :
    integerU64 n = v := by
  rw [integerU64,h]
  exact min_eq_left hle

theorem usageValues_of_holds {u : RunUsage} (h : cols.Holds u) (hr : cols.InRange) :
    usageValues u = cols := by
  cases cols
  simp only [usageValues,UsageCols.mk.injEq]
  exact ⟨integerU64_of h.tokens hr.tokens.2,integerU64_of h.usd_micros hr.usd_micros.2,
    integerU64_of h.wall_ms hr.wall_ms.2,integerU64_of h.storage_bytes hr.storage_bytes.2,
    h.tool_calls,h.retries,h.steps⟩

theorem UsageCols.add_inRange {a b c d : UsageCols} (ha : a.InRange) (hb : b.InRange)
    (hbc : b.Le c) (hle : (a.add c).Le d) (hd : d.InRange) : (a.add b).InRange := by
  have key : ∀ {x y z w m : Int}, 0 ≤ x ∧ x ≤ m → 0 ≤ y ∧ y ≤ m → y ≤ z → x+z ≤ w → 0 ≤ w ∧ w ≤ m →
      0 ≤ x+y ∧ x+y ≤ m := by omega
  exact ⟨key ha.tokens hb.tokens hbc.tokens hle.tokens hd.tokens,
    key ha.usd_micros hb.usd_micros hbc.usd_micros hle.usd_micros hd.usd_micros,
    key ha.wall_ms hb.wall_ms hbc.wall_ms hle.wall_ms hd.wall_ms,
    key ha.storage_bytes hb.storage_bytes hbc.storage_bytes hle.storage_bytes hd.storage_bytes,
    key ha.tool_calls hb.tool_calls hbc.tool_calls hle.tool_calls hd.tool_calls,
    key ha.retries hb.retries hbc.retries hle.retries hd.retries,
    key ha.steps hb.steps hbc.steps hle.steps hd.steps⟩

theorem integerU64_le_self (n : Nat) : integerU64 n ≤ n := min_le_left _ _

theorem toU64_le {table field : String} {u : UInt64} (h : toU64 value table field = .ok u) :
    (u.toNat : Int) ≤ value := by
  obtain ⟨h0,rfl⟩ := toU64_ok h
  have hle : (UInt64.ofNat value.toNat).toNat ≤ value.toNat := by
    rw [UInt64.toNat_ofNat']
    exact Nat.mod_le _ _
  omega

def RunStatus.text : RunStatus → String
  | .requested => "requested"
  | .preflight => "preflight"
  | .running => "running"
  | .waitingApproval => "waiting_approval"
  | .waitingInput => "waiting_input"
  | .validating => "validating"
  | .paused => "paused"
  | .done => "done"
  | .failed => "failed"
  | .canceled => "canceled"

theorem parseStatus_text (st : RunStatus) : parseStatus st.text = .ok st := by
  cases st <;> rfl

def PendingRunControl.text : PendingRunControl → String
  | .pause => "pause"
  | .cancel => "cancel"

theorem parse_asStr (d : RunBudgetDimension) : RunBudgetDimension.parse d.asStr = some d := by
  cases d <;> rfl

theorem parseValidation_asStr (v : RunValidationStatus) :
    RunValidationStatus.parse v.asStr = some v := by
  cases v <;> rfl

theorem parsePause_assigned (cause : RunPauseCause) :
    ∃ pause, parsePause (pauseAssignments cause) = .ok (some pause) := by
  cases cause with
  | budget dimension limit spent pending requested =>
    obtain ⟨a,ha⟩ := toU64_inRange "proj_runs" "pause_limit"
      ⟨integerU64_nonneg limit.toNat,integerU64_le _⟩
    obtain ⟨b,hb⟩ := toU64_inRange "proj_runs" "pause_spent"
      ⟨integerU64_nonneg spent.toNat,integerU64_le _⟩
    obtain ⟨c,hc⟩ := toU64_inRange "proj_runs" "pause_pending"
      ⟨integerU64_nonneg pending.toNat,integerU64_le _⟩
    obtain ⟨d,hd⟩ := toU64_inRange "proj_runs" "pause_requested"
      ⟨integerU64_nonneg requested.toNat,integerU64_le _⟩
    refine ⟨.budget dimension a b c d,?_⟩
    simp [parsePause,pauseAssignments,parse_asStr,ha,hb,hc,hd,bind,Except.bind,pure,Except.pure]
  | requested reason => exact ⟨.requested reason,rfl⟩
  | toolWeather code => exact ⟨.toolWeather code,rfl⟩
  | reservationExceeded dimension =>
    refine ⟨.reservationExceeded dimension,?_⟩
    simp [parsePause,pauseAssignments,parse_asStr,PauseCols.metricCount,bind,Except.bind,pure,
      Except.pure]

def PauseMatches (st : RunStatus) (pause : PauseCols) : Prop :=
  (st = .paused ∧ ∃ cause, pause = pauseAssignments cause) ∨
    (st ≠ .paused ∧ pause = clearPauseAssignments)

structure RowShape (row : RunRow) : Prop where
  status : ∃ st : RunStatus, row.status = st.text ∧ PauseMatches st row.pause ∧
    (st.isTerminal = true → row.finished_seq.isSome = true)
  pending : (row.pending_control = none ∧ row.control_reason = none) ∨
    ∃ c reason, row.pending_control = some (PendingRunControl.text c) ∧
      row.control_reason = some reason
  validation : ∃ v : Option RunValidationRef,
    row.validation_id = v.map RunValidationRef.validation_id ∧
      row.validation_status = v.map fun value => value.status.asStr
  autonomy : 0 ≤ row.autonomy_level ∧ row.autonomy_level ≤ u8Max
  lineage : 0 ≤ row.lineage_depth ∧ row.lineage_depth ≤ u8Max
  tainted : row.tainted = 0 ∨ row.tainted = 1
  started : 0 ≤ row.started_seq ∧ row.started_seq ≤ i64Max
  finished : ∀ f, row.finished_seq = some f → 0 ≤ f ∧ f ≤ i64Max

/-- One step is spent for each checkpoint, and no more are committed than the budget
has. -/
structure RowQuota (row : RunRow) : Prop where
  budget : row.budget.InRange
  spent : row.spent.InRange
  checkpointed : row.checkpointed_step_count = row.spent.steps
  committed : 0 ≤ row.committed_step_count ∧ row.committed_step_count ≤ row.budget.steps
  cap : row.budget.steps ≤ 10000

theorem parsePending_ok {control reason : Option String}
    (h : (control = none ∧ reason = none) ∨
      ∃ c r, control = some (PendingRunControl.text c) ∧ reason = some r) :
    ∃ p, parsePendingControl control reason = .ok p := by
  rcases h with ⟨rfl,rfl⟩ | ⟨c,r,rfl,rfl⟩
  · exact ⟨none,rfl⟩
  · refine ⟨some c,?_⟩
    cases c with
    | pause => rfl
    | cancel => rfl

theorem parsePause_matches {st : RunStatus} {pause : PauseCols} (h : PauseMatches st pause) :
    ∃ p, parsePause pause = .ok p ∧ requirePauseAgrees st p = .ok () := by
  rcases h with ⟨rfl,cause,rfl⟩ | ⟨hne,rfl⟩
  · obtain ⟨p,hp⟩ := parsePause_assigned cause
    exact ⟨some p,hp,rfl⟩
  · refine ⟨none,rfl,?_⟩
    simp [requirePauseAgrees,hne]

theorem parseValidation_ok {id : Option ValidationId} {status : Option String}
    (h : ∃ v : Option RunValidationRef, id = v.map RunValidationRef.validation_id ∧
      status = v.map fun value => value.status.asStr) :
    ∃ v, parseValidation id status = .ok v := by
  obtain ⟨v,rfl,rfl⟩ := h
  cases v with
  | none => exact ⟨none,rfl⟩
  | some v =>
    refine ⟨some v,?_⟩
    simp [parseValidation,parseValidation_asStr]

theorem optionalU64_ok {value : Option Int} (table field : String)
    (h : ∀ f, value = some f → 0 ≤ f ∧ f ≤ i64Max) :
    ∃ u, optionalU64 value table field = .ok u := by
  cases value with
  | none => exact ⟨none,rfl⟩
  | some v =>
    obtain ⟨u,hu⟩ := toU64_inRange table field (h v rfl)
    refine ⟨some u,?_⟩
    simp [optionalU64,hu,Except.map]

theorem parseTainted_ok (h : value = 0 ∨ value = 1) : ∃ b, parseTainted value = .ok b := by
  rcases h with rfl | rfl
  · exact ⟨false,rfl⟩
  · exact ⟨true,rfl⟩

theorem readColumns_ok {row : RunRow} (h : RowQuota row) : readColumns row = .ok row := by
  have hs := h.spent
  have hc := h.committed
  have hk := h.checkpointed
  have hcap := h.cap
  have h1 := hs.tool_calls.2
  have h2 := hs.retries.2
  have h3 := hs.steps.2
  rw [readColumns,if_pos]
  simp only [UsageCols.toList,List.all_cons,List.all_nil,Bool.and_true,Bool.and_eq_true,
    decide_eq_true_eq]
  simp only [i64Max,u32Max] at *
  refine ⟨by omega,by omega,hs.tokens.2,hs.usd_micros.2,hs.wall_ms.2,hs.storage_bytes.2,by omega,
    by omega,by omega⟩

theorem parseRun_rowOk {row : RunRow} (hs : RowShape row) (hq : RowQuota row) (run_id : RunId)
    (grants : List RunToolGrant) : ∃ st, parseRun run_id row grants = .ok st := by
  obtain ⟨status,hstatus,hpause,_⟩ := hs.status
  obtain ⟨pending,h2⟩ := parsePending_ok hs.pending
  obtain ⟨pause,h3,h5⟩ := parsePause_matches hpause
  obtain ⟨validation,h4⟩ := parseValidation_ok hs.validation
  obtain ⟨autonomy,h6⟩ := toU8_inRange "proj_runs" "autonomy_level" hs.autonomy
  obtain ⟨started,h7⟩ := toU64_inRange "proj_runs" "started_seq" hs.started
  obtain ⟨finished,h8⟩ := optionalU64_ok "proj_runs" "finished_seq" hs.finished
  have hcommitted : 0 ≤ row.committed_step_count ∧ row.committed_step_count ≤ u32Max := by
    have hc := hq.committed
    have hb := hq.budget.steps
    omega
  have hcheckpointed : 0 ≤ row.checkpointed_step_count ∧ row.checkpointed_step_count ≤ u32Max := by
    rw [hq.checkpointed]
    exact hq.spent.steps
  obtain ⟨committed,h9⟩ := toU32_inRange "proj_runs" "committed_step_count" hcommitted
  obtain ⟨checkpointed,h10⟩ := toU32_inRange "proj_runs" "checkpointed_step_count" hcheckpointed
  obtain ⟨budget,h11⟩ := usageFrom_inRange "proj_runs" "budget_" hq.budget
  obtain ⟨spent,h12⟩ := usageFrom_inRange "proj_runs" "" hq.spent
  obtain ⟨tainted,h13⟩ := parseTainted_ok hs.tainted
  obtain ⟨lineage,h14⟩ := toU8_inRange "proj_runs" "lineage_depth" hs.lineage
  have h1 : parseStatus row.status = .ok status := by
    rw [hstatus]
    exact parseStatus_text status
  let st : RunState :=
    { run_id := run_id, project_id := row.project_id, status := status, worker := row.worker,
      runtime_id := row.runtime_id, executor := row.executor, autonomy_level := autonomy,
      started_seq := started, finished_seq := finished, committed_step_count := committed,
      checkpointed_step_count := checkpointed, budget := budget, spent := spent,
      tainted := tainted, tool_grants := grants, parent_run_id := row.parent_run_id,
      lineage_depth := lineage, validation := validation, pending_control := pending,
      pending_control_reason := row.control_reason, pause := pause }
  exact parseRun_of (show ParsesTo run_id row grants st from
    ⟨rfl,rfl,h1,h2,rfl,h3,h5,h4,h6,h7,h8,h9,h10,h11,h12,h13,h14⟩)

end ProjectOS.Domain
