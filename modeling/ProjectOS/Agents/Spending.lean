import ProjectOS.Agents.Corruption
import ProjectOS.Agents.Effects

/-! Budgets over whole runs. The usage a Run's receipts report is summed over the
log and compared with the column that admission checks. -/

namespace ProjectOS.Domain

def RunUsage.amount (u : RunUsage) : RunBudgetDimension → Nat
  | .tokens => u.tokens.toNat
  | .usdMicros => u.usd_micros.toNat
  | .wallMs => u.wall_ms.toNat
  | .storageBytes => u.storage_bytes.toNat
  | .toolCalls => u.tool_calls.toNat
  | .retries => u.retries.toNat
  | .steps => u.steps.toNat

def UsageCols.amount (u : UsageCols) : RunBudgetDimension → Int
  | .tokens => u.tokens
  | .usdMicros => u.usd_micros
  | .wallMs => u.wall_ms
  | .storageBytes => u.storage_bytes
  | .toolCalls => u.tool_calls
  | .retries => u.retries
  | .steps => u.steps

def columnCap : RunBudgetDimension → Int
  | .toolCalls | .retries | .steps => u32Max
  | _ => i64Max

theorem amount_usageValues (u : RunUsage) (d : RunBudgetDimension) :
    (usageValues u).amount d = min (u.amount d : Int) (columnCap d) := by
  have h32 : ∀ n : UInt32, (n.toNat : Int) = min (n.toNat : Int) u32Max := by
    intro n
    have hlt := n.toNat_lt
    simp only [u32Max]
    omega
  cases d with
  | toolCalls | retries | steps => exact h32 _
  | _ => rfl

theorem amount_add (a b : UsageCols) (d : RunBudgetDimension) :
    (a.add b).amount d = a.amount d+b.amount d := by
  cases d <;> rfl

@[elab_as_elim]
theorem RunBudgetDimension.each {P : RunBudgetDimension → Prop} (d : RunBudgetDimension)
    (tokens : P .tokens) (usd_micros : P .usdMicros) (wall_ms : P .wallMs)
    (storage_bytes : P .storageBytes) (tool_calls : P .toolCalls) (retries : P .retries)
    (steps : P .steps) : P d := by
  cases d <;> assumption

variable {cols : UsageCols} {u : RunUsage}

theorem UsageCols.Holds.amount (h : cols.Holds u)
    (d : RunBudgetDimension) : (u.amount d : Int) = cols.amount d := by
  exact d.each h.tokens h.usd_micros h.wall_ms h.storage_bytes h.tool_calls h.retries h.steps

theorem UsageCols.holds_of_amount
    (h : ∀ d, (u.amount d : Int) = cols.amount d) : cols.Holds u :=
  ⟨h .tokens,h .usdMicros,h .wallMs,h .storageBytes,h .toolCalls,h .retries,h .steps⟩

theorem UsageCols.Le.amount {a b : UsageCols} (h : a.Le b) (d : RunBudgetDimension) :
    a.amount d ≤ b.amount d := by
  exact d.each h.tokens h.usd_micros h.wall_ms h.storage_bytes h.tool_calls h.retries h.steps

end ProjectOS.Domain

namespace ProjectOS.Agents
open Lib Lib.Optimistic Domain RunHarness List

theorem Admitted.amount {budget : RunBudget} {spent requested : RunUsage}
    (h : Admitted budget spent requested) (d : RunBudgetDimension) :
    spent.amount d+requested.amount d ≤ budget.amount d := by
  exact d.each h.tokens h.usd_micros h.wall_ms h.storage_bytes h.tool_calls h.retries h.steps

theorem Fits.amount {used limit : RunUsage} (h : Fits used limit) (d : RunBudgetDimension) :
    used.amount d ≤ limit.amount d := by
  exact d.each h.tokens h.usd_micros h.wall_ms h.storage_bytes h.tool_calls h.retries h.steps

theorem amount_saturated (a b : RunUsage) (d : RunBudgetDimension) :
    (usageValues (saturatingUsageAdd a b)).amount d =
      min ((a.amount d : Int)+b.amount d) (columnCap d) := by
  have h64 : ∀ x y : UInt64, integerU64 (saturatingAdd64 x y).toNat =
      min ((x.toNat : Int)+y.toNat) i64Max := by
    intro x y
    have hle : satAdd64 x.toNat y.toNat < 2^64 := by
      have hsat := satAdd64_le x.toNat y.toNat
      simp only [u64Max] at hsat
      omega
    rw [saturatingAdd64,UInt64.toNat_ofNat_of_lt' hle]
    simp only [integerU64,satAdd64,u64Max,i64Max]
    omega
  have h32 : ∀ x y : UInt32, integerU32 (saturatingAdd32 x y).toNat =
      min ((x.toNat : Int)+y.toNat) u32Max := by
    intro x y
    have hle : satAdd32 x.toNat y.toNat < 2^32 := by
      have hsat := satAdd32_le x.toNat y.toNat
      simp only [u32Max] at hsat
      omega
    rw [saturatingAdd32,UInt32.toNat_ofNat_of_lt' hle]
    simp only [integerU32,satAdd32,u32Max]
    omega
  cases d with
  | toolCalls | retries | steps => exact h32 _ _
  | _ => exact h64 _ _

def reportedBy (id : RunId) (d : RunBudgetDimension) : RunEvent → Nat
  | .toolEffectRecorded r _ _ _ _ spent => if r = id then spent.amount d else 0
  | _ => 0

def reported (id : RunId) (d : RunBudgetDimension) (log : List RunEvent) : Nat :=
  (log.map (reportedBy id d)).sum

def budgetBy (id : RunId) : RunEvent → Option RunBudget
  | .startedV2 body => if body.run_id = id then some body.budget else none
  | _ => none

def startedBudget (id : RunId) (log : List RunEvent) : Option RunBudget :=
  log.findSome? (budgetBy id)

def Committed (log : List RunEvent) (key : StepKey) (reserved : RunUsage) : Prop :=
  ∃ i phase summary digest call, key.step_index = i.toNat ∧
    .stepCommittedV2 key.run_id i phase summary digest call reserved ∈ log

def WithinReservations (id : RunId) (log : List RunEvent) : Prop :=
  ∀ i call key digest spent reserved, .toolEffectRecorded id i call key digest spent ∈ log →
    Committed log ⟨id,i.toNat⟩ reserved → ∀ d, spent.amount d ≤ reserved.amount d

/-- The step fits the budget beside what the columns hold. -/
def affordable (log : List RunEvent) : RunEvent → Prop
  | .stepCommittedV1 _ _ _ => False
  | .stepCommittedV2 id _ _ _ _ _ reserved => ∃ budget, startedBudget id log = some budget ∧
    ∀ d, min (reported id d log : Int) (columnCap d)+reserved.amount d ≤
      (usageValues budget).amount d
  | _ => True

def overrunPaused (pre : List RunEvent) (e : RunEvent) (post : List RunEvent) : Prop :=
  match e with
  | .toolEffectRecorded id i _ _ _ spent => ∀ reserved, Committed pre ⟨id,i.toNat⟩ reserved →
    (∃ d, reserved.amount d < spent.amount d) → ∃ mid n cause used rest,
      post = mid ++ .paused id n cause used::rest ∧ ∀ e ∈ mid, commitsStep e = false
  | _ => True

section Log
variable {log b : List RunEvent} {id : RunId} {d : RunBudgetDimension}

theorem reported_append (id : RunId) (d : RunBudgetDimension) (log b : List RunEvent) :
    reported id d (log ++ b) = reported id d log+reported id d b := by
  simp [reported,map_append,sum_append]

theorem startedBudget_append (id : RunId) (log b : List RunEvent) :
    startedBudget id (log ++ b) = (startedBudget id log).or (startedBudget id b) := by
  simp [startedBudget,List.findSome?_append]

def spendsNothing : RunEvent → Bool
  | .startedV1 .. | .startedV2 .. | .toolEffectRecorded .. => false
  | _ => true

theorem reported_quiet (hb : ∀ e ∈ b, e.run ≠ id ∨ spendsNothing e = true) :
    reported id d b = 0 := by
  induction b with
  | nil => rfl
  | cons e b ih =>
    have htail := ih (fun e he => hb e (mem_cons_of_mem _ he))
    have hhead : reportedBy id d e = 0 := by
      cases e with
      | toolEffectRecorded r i call key digest spent =>
        rcases hb _ mem_cons_self with h | h
        · exact if_neg h
        · cases h
      | _ => rfl
    simp only [reported] at htail
    simp [reported,hhead,htail]

theorem startedBudget_quiet (hb : ∀ e ∈ b, e.run ≠ id ∨ spendsNothing e = true) :
    startedBudget id b = none := by
  rw [startedBudget,List.findSome?_eq_none_iff]
  intro e he
  cases e with
  | startedV2 body =>
    rcases hb _ he with h | h
    · exact if_neg h
    · cases h
  | _ => rfl

variable {key : StepKey} {reserved : RunUsage}

theorem Committed.append (h : Committed log key reserved) : Committed (log ++ b) key reserved := by
  obtain ⟨i,phase,summary,digest,call,hi,hmem⟩ := h
  exact ⟨i,phase,summary,digest,call,hi,mem_append_left _ hmem⟩

theorem Committed.snoc {reserved' : RunUsage} {i : UInt32} {phase : RunStepPhase}
    {summary : String} {digest : Digest} {call : Option RunToolCall} (h : Committed (log ++
      [.stepCommittedV2 id i phase summary digest call reserved']) key reserved) :
    Committed log key reserved ∨ (key = ⟨id,i.toNat⟩ ∧ reserved = reserved') := by
  obtain ⟨j,phase',summary',digest',call',hj,hmem⟩ := h
  rcases mem_append.mp hmem with hmem | hmem
  · exact Or.inl ⟨j,phase',summary',digest',call',hj,hmem⟩
  · have heq := mem_singleton.mp hmem
    simp only [RunEvent.stepCommittedV2.injEq] at heq
    obtain ⟨hid,rfl,_,_,_,_,rfl⟩ := heq
    cases key
    cases hid
    cases hj
    exact Or.inr ⟨rfl,rfl⟩

theorem Committed.quiet (hb : ∀ e ∈ b, commitsStep e = false)
    (h : Committed (log ++ b) key reserved) : Committed log key reserved := by
  obtain ⟨i,phase,summary,digest,call,hi,hmem⟩ := h
  rcases mem_append.mp hmem with hmem | hmem
  · exact ⟨i,phase,summary,digest,call,hi,hmem⟩
  · have hno := hb _ hmem
    cases hno

theorem WithinReservations.before (h : WithinReservations id (log ++ b)) :
    WithinReservations id log := by
  intro i call key digest spent reserved hmem hc
  exact h i call key digest spent reserved (mem_append_left _ hmem) hc.append

theorem overrunPaused_more (pre : List RunEvent) (e : RunEvent) (post rest : List RunEvent)
    (h : overrunPaused pre e post) : overrunPaused pre e (post ++ rest) := by
  cases e with
  | toolEffectRecorded id i call key digest spent =>
    intro reserved hc hd
    obtain ⟨mid,n,cause,used,tail,hpost,hmid⟩ := h reserved hc hd
    refine ⟨mid,n,cause,used,tail ++ rest,?_,hmid⟩
    rw [hpost]
    simp
  | _ => exact trivial

theorem overruns_quiet (hlog : Followed overrunPaused log)
    (hb : ∀ e ∈ b, spendsNothing e = true ∨ ∃ body, e = .startedV2 body) :
    Followed overrunPaused (log ++ b) := by
  refine followed_append overrunPaused_more hlog ?_
  intro pre e post heq
  have he := hb e (by rw [heq]; simp)
  cases e with
  | toolEffectRecorded id i call key digest spent =>
    rcases he with h | ⟨_,h⟩
    · cases h
    · cases h
  | _ => exact trivial

theorem ordered_commitless (hlog : Ordered affordable log)
    (hb : ∀ e ∈ b, commitsStep e = false) : Ordered affordable (log ++ b) := by
  induction b using List.reverseRecOn with
  | nil => simpa using hlog
  | append_singleton b e ih =>
    rw [← append_assoc]
    refine ordered_snoc (ih (fun e he => hb e (mem_append_left _ he))) ?_
    have he := hb e (by simp)
    cases e <;> first | exact trivial | cases he

end Log

def money (row : RunRow) : UsageCols × UsageCols := (row.budget,row.spent)

/-- A Run's columns hold what its log reports, up to the columns' caps. -/
structure Account (id : RunId) (log : List RunEvent) (row : Option (UsageCols × UsageCols)) :
    Prop where
  unopened : row = none → startedBudget id log = none ∧ ∀ d, reported id d log = 0
  opened : ∀ budget spent, row = some (budget,spent) → ∃ b, startedBudget id log = some b ∧
    budget = usageValues b ∧ ∀ d, min (reported id d log : Int) (columnCap d) ≤ spent.amount d
  within : ∀ b, startedBudget id log = some b → WithinReservations id log →
    ∀ d, (reported id d log : Int) ≤ (usageValues b).amount d

/-- The money columns are those of the log, and no commit overdraws. -/
structure Spending (s : RunDb) : Prop where
  accounts : ∀ id, Account id s.log ((s.runs.get? id).map money)
  stored : ∀ key reserved, Committed s.log key reserved →
    s.steps.column StepRow.reserved key = some (usageValues reserved) ∧
      (usageValues reserved).Holds reserved
  committed : ∀ key cols, s.steps.column StepRow.reserved key = some cols →
    ∃ reserved, Committed s.log key reserved
  commits : Ordered affordable s.log
  overruns : Followed overrunPaused s.log

/-- An event that starts nothing, reports nothing, commits no step and repeats what
the Run has spent. -/
structure Idle (run_id : RunId) (spent : UsageCols) (e : RunEvent) : Prop where
  about : e.run = run_id
  commitless : commitsStep e = false
  nothing : spendsNothing e = true
  repeats : ∀ seq row, row.spent = spent →
    ((runsProjection seq e).onRow (some row)).map money = some (money row)

section Steps
variable {s s' : RunDb} {b : List RunEvent} {id run_id : RunId} {log : List RunEvent}

theorem Account.quiet {row : Option (UsageCols × UsageCols)} (h : Account id log row)
    (hb : ∀ e ∈ b, e.run ≠ id ∨ spendsNothing e = true) : Account id (log ++ b) row := by
  have hstart : startedBudget id (log ++ b) = startedBudget id log := by
    rw [startedBudget_append,startedBudget_quiet hb,Option.or_none]
  have hsum : ∀ d, reported id d (log ++ b) = reported id d log := by
    intro d
    rw [reported_append,reported_quiet hb,Nat.add_zero]
  refine ⟨?_,?_,?_⟩
  · intro hrow
    rw [hstart]
    exact ⟨(h.unopened hrow).1,fun d => (hsum d).trans ((h.unopened hrow).2 d)⟩
  · intro budget spent hrow
    obtain ⟨b0,h1,h2,h3⟩ := h.opened budget spent hrow
    refine ⟨b0,hstart.trans h1,h2,?_⟩
    intro d
    rw [hsum]
    exact h3 d
  · intro b0 hb0 hwithin d
    rw [hsum]
    rw [hstart] at hb0
    exact h.within b0 hb0 hwithin.before d

theorem reserved_writtenOnce : WrittenOnce StepRow.reserved := by
  intro seq e key guard g row h
  cases e <;> first | (cases h; done) | (cases h; rfl)

variable {spent : UsageCols}

theorem idle_row {seq : Nat} {row : RunRow} (hspent : row.spent = spent)
    (hb : ∀ e ∈ b, Idle run_id spent e) :
    (rowRun run_id seq b (some row)).map money = some (money row) := by
  induction b generalizing seq row with
  | nil => rfl
  | cons e b ih =>
    have he := hb e mem_cons_self
    have hmoney := he.repeats seq row hspent
    obtain ⟨row',hrow',hsame⟩ := Option.map_eq_some_iff.mp hmoney
    have hspent' : row'.spent = spent := (congrArg Prod.snd hsame).trans hspent
    rw [rowRun,if_pos he.about,hrow',ih hspent' (fun e h => hb e (mem_cons_of_mem _ h)),hsame]

theorem money_all (h : s.applyEvents b = .ok s') (habout : ∀ e ∈ b, e.run = run_id)
    (hown : (s'.runs.get? run_id).map money = (s.runs.get? run_id).map money) (id : RunId) :
    (s'.runs.get? id).map money = (s.runs.get? id).map money := by
  by_cases hid : id = run_id
  · rw [hid]
    exact hown
  · rw [RunDb.applyEvents_run_other h (fun e he heq => hid (heq.symm.trans (habout e he)))]

variable {raw : RunRow}

theorem Spending.commitless (hinv : Spending s) (h : s.applyEvents b = .ok s')
    (hb : ∀ e ∈ b, commitsStep e = false)
    (haccounts : ∀ id, Account id s'.log ((s'.runs.get? id).map money))
    (hoverruns : Followed overrunPaused s'.log) : Spending s' := by
  have hlog := RunDb.applyEvents_log h
  have hcolumn := steps_quiet_batch reserved_writtenOnce h hb
  refine ⟨haccounts,?_,?_,?_,hoverruns⟩
  · intro key reserved hc
    rw [hlog] at hc
    rw [hcolumn]
    exact hinv.stored key reserved (hc.quiet hb)
  · intro key cols hk
    rw [hcolumn] at hk
    obtain ⟨reserved,hc⟩ := hinv.committed key cols hk
    rw [hlog]
    exact ⟨reserved,hc.append⟩
  · rw [hlog]
    exact ordered_commitless hinv.commits hb

theorem Spending.idle (hinv : Spending s) (hrow : s.runs.get? run_id = some raw)
    (hb : ∀ e ∈ b, Idle run_id raw.spent e) (h : s.applyEvents b = .ok s') : Spending s' := by
  have hlog := RunDb.applyEvents_log h
  have hcommitless : ∀ e ∈ b, commitsStep e = false := fun e he => (hb e he).commitless
  have hown : (s'.runs.get? run_id).map money = (s.runs.get? run_id).map money := by
    rw [RunDb.applyEvents_row h,hrow]
    exact idle_row rfl hb
  refine hinv.commitless h hcommitless ?_ ?_
  · intro id
    rw [hlog,money_all h (fun e he => (hb e he).about) hown]
    exact (hinv.accounts id).quiet (fun e he => Or.inr (hb e he).nothing)
  · rw [hlog]
    exact overruns_quiet hinv.overruns (fun e he => Or.inl (hb e he).nothing)

theorem idle_single {e : RunEvent} (he : Idle run_id raw.spent e) :
    ∀ e' ∈ [e], Idle run_id raw.spent e' := by
  intro e' h
  rw [mem_singleton.mp h]
  exact he

variable {used : RunUsage}

theorem idle_paused {n : UInt32} {cause : RunPauseCause} (hused : usageValues used = spent) :
    Idle run_id spent (.paused run_id n cause used) := by
  refine ⟨rfl,rfl,rfl,?_⟩
  intro seq row hrow
  simp [runsProjection,RunWrite.onRow,money,hused,hrow]

theorem idle_finished {outcome : RunOutcome} {n : UInt32} {validation : Option RunValidationRef}
    (hused : usageValues used = spent) :
    Idle run_id spent (.finishedV2 run_id outcome n used validation) := by
  refine ⟨rfl,rfl,rfl,?_⟩
  intro seq row hrow
  cases validation with
  | none | some => simp [runsProjection,RunWrite.onRow,money,hused,hrow]

variable {st : RunState} {reserved : RunUsage}

theorem Account.affords (h : Account id log (some (money raw)))
    (hspent : raw.spent.Holds st.spent) (hbudget : raw.budget.Holds st.budget)
    (hadmits : Admitted st.budget st.spent reserved) :
    ∃ budget, startedBudget id log = some budget ∧
      ∀ d, min (reported id d log : Int) (columnCap d)+reserved.amount d ≤
        (usageValues budget).amount d := by
  obtain ⟨b0,hstart,hcols,hsum⟩ := h.opened _ _ rfl
  refine ⟨b0,hstart,?_⟩
  intro d
  have h1 := hsum d
  have h2 := hspent.amount d
  have h3 := hbudget.amount d
  have h4 := hadmits.amount d
  rw [hcols] at h3
  omega

theorem Account.holds (h : Account id log (some (money raw)))
    (hbudget : raw.budget.Holds st.budget) (hadmits : Admitted st.budget st.spent reserved) :
    (usageValues reserved).Holds reserved := by
  obtain ⟨b0,_,hcols,_⟩ := h.opened _ _ rfl
  refine UsageCols.holds_of_amount ?_
  intro d
  have h1 := hbudget.amount d
  have h2 := hadmits.amount d
  rw [hcols,amount_usageValues] at h1
  rw [amount_usageValues]
  omega

theorem Spending.commit (hinv : Spending s) {raw : RunRow} {st : RunState} {plan : StepPlan}
    {call : AuthorizedToolCall} {receipt : Option GateReceipt} (hr : SoundRead s run_id raw st)
    (hadmits : admitUsage st.budget st.spent RunUsage.default plan.reserved = .ok ())
    (h : s.applyEvents (stepEvents st plan call receipt) = .ok s') : Spending s' := by
  obtain ⟨mid,h1,h2⟩ := applyEvents_append h
  have hgate : ∀ e ∈ gateEvents st receipt, Idle run_id raw.spent e := by
    intro e he
    obtain ⟨r,_,rfl⟩ := gateEvents_mem he
    exact ⟨hr.run,rfl,rfl,fun _ _ _ => rfl⟩
  have hmid := hinv.idle hr.row hgate h1
  have hmoney : (mid.runs.get? run_id).map money = some (money raw) := by
    rw [RunDb.applyEvents_row h1,hr.row]
    exact idle_row rfl hgate
  obtain ⟨row,hrow,hsame⟩ := Option.map_eq_some_iff.mp hmoney
  have hlog := RunDb.applyEvents_log h2
  have hrun : (RunEvent.stepCommittedV2 st.run_id plan.step_index plan.phase plan.summary plan.digest
    (some call.domainCall) plan.reserved).run = run_id := hr.run
  have hown : (s'.runs.get? run_id).map money = (mid.runs.get? run_id).map money := by
    rw [single_row h2 hrun hrow,hrow]
    rfl
  obtain ⟨hfree,seq,hcolumn⟩ := stepEvents_column reserved_writtenOnce h
  rw [← steps_quiet_batch reserved_writtenOnce h1 (gateEvents_commitless st receipt)] at hfree hcolumn
  have hacc := hmid.accounts run_id
  rw [hmoney] at hacc
  have hfits := hacc.affords hr.spentNat hr.budgetNat (admitUsage_ok hadmits)
  have hholds := hacc.holds hr.budgetNat (admitUsage_ok hadmits)
  refine ⟨?_,?_,?_,?_,?_⟩
  · intro id
    rw [hlog,money_all h2 (fun e he => by rw [mem_singleton.mp he]; exact hrun) hown]
    refine (hmid.accounts id).quiet ?_
    intro e he
    rw [mem_singleton.mp he]
    exact Or.inr rfl
  · intro key reserved hc
    rw [hlog] at hc
    rw [hcolumn]
    rcases hc.snoc with hold | ⟨rfl,rfl⟩
    · obtain ⟨hcols,hholds⟩ := hmid.stored key reserved hold
      have hne : key ≠ ⟨st.run_id,plan.step_index.toNat⟩ := by
        rintro rfl
        rw [hfree] at hcols
        cases hcols
      rw [Function.update_of_ne hne]
      exact ⟨hcols,hholds⟩
    · rw [Function.update_self]
      exact ⟨rfl,hholds⟩
  · intro key cols hk
    rw [hcolumn] at hk
    rw [hlog]
    by_cases hkey : key = ⟨st.run_id,plan.step_index.toNat⟩
    · rw [hkey]
      exact ⟨plan.reserved,_,_,_,_,_,rfl,mem_append_right _ mem_cons_self⟩
    · rw [Function.update_of_ne hkey] at hk
      obtain ⟨reserved,hc⟩ := hmid.committed key cols hk
      exact ⟨reserved,hc.append⟩
  · rw [hlog]
    refine ordered_snoc hmid.commits ?_
    show ∃ budget, startedBudget st.run_id mid.log = some budget ∧ _
    rw [hr.run]
    exact hfits
  · rw [hlog]
    refine overruns_quiet hmid.overruns ?_
    intro e he
    rw [mem_singleton.mp he]
    exact Or.inl rfl

def effectRest (call : AuthorizedToolCall) (report : ToolEffectReport) : List RunEvent :=
  artifactEvents call report.artifact ++ validationEvents call report.validation ++
    [.checkpointSaved call.run_id call.step_index (checkpointId call.call_id)
      report.checkpoint_digest]

theorem effectEvents_cons (call : AuthorizedToolCall) (report : ToolEffectReport) (st : RunState)
    (step : RunStepState) : effectEvents call report st step =
      .toolEffectRecorded call.run_id call.step_index call.call_id call.idempotency_key
        report.output_digest report.spent::
      (effectRest call report ++ overReservationEvents call report st step) := by
  simp [effectEvents,effectRest]

theorem effectRest_quiet (call : AuthorizedToolCall) (report : ToolEffectReport) (st : RunState)
    (step : RunStepState) :
    ∀ e ∈ effectRest call report ++ overReservationEvents call report st step,
      commitsStep e = false ∧ spendsNothing e = true := by
  intro e he
  unfold effectRest at he
  rcases mem_append.mp he with he | he
  · rcases mem_append.mp he with he | he
    · rcases mem_append.mp he with he | he
      · cases ha : report.artifact with
        | none => simp [ha,artifactEvents] at he
        | some a =>
          simp only [ha,artifactEvents,mem_singleton] at he
          subst he
          exact ⟨rfl,rfl⟩
      · cases hv : report.validation with
        | none => simp [hv,validationEvents] at he
        | some v =>
          simp only [hv,validationEvents,mem_singleton] at he
          subst he
          exact ⟨rfl,rfl⟩
    · rw [mem_singleton.mp he]
      exact ⟨rfl,rfl⟩
  · have hother := overReservation_other call report st step e he
    cases e <;> first | exact ⟨rfl,rfl⟩ | cases hother

variable {call : AuthorizedToolCall} {t : StepRead call.run_id call.step_index}

theorem Spending.reservation (hinv : Spending s)
    (hstep : s.steps.get? ⟨call.run_id,call.step_index.toNat⟩ = some t.raw) :
    t.raw.reserved.Holds t.st.reserved ∧
      (∃ reserved, Committed s.log ⟨call.run_id,call.step_index.toNat⟩ reserved) ∧
      ∀ reserved, Committed s.log ⟨call.run_id,call.step_index.toNat⟩ reserved →
        ∀ d, reserved.amount d = t.st.reserved.amount d := by
  have hcolumn : s.steps.column StepRow.reserved ⟨call.run_id,call.step_index.toNat⟩ =
      some t.raw.reserved := by
    rw [Table.column,hstep]
    rfl
  obtain ⟨reserved0,hc0⟩ := hinv.committed _ _ hcolumn
  have hstored : ∀ reserved, Committed s.log ⟨call.run_id,call.step_index.toNat⟩ reserved →
      t.raw.reserved = usageValues reserved ∧ t.raw.reserved.Holds reserved := by
    intro reserved hc
    obtain ⟨hcols,hholds⟩ := hinv.stored _ _ hc
    rw [hcolumn] at hcols
    have heq := Option.some.inj hcols
    rw [heq]
    exact ⟨rfl,hholds⟩
  have hparsed := (parseStep_ok t.parsed).reserved
  have hholds : t.raw.reserved.Holds t.st.reserved := by
    refine usageFrom_ok hparsed ?_
    rw [(hstored _ hc0).1]
    exact usageValues_inRange _
  refine ⟨hholds,⟨reserved0,hc0⟩,?_⟩
  intro reserved hc d
  have h1 := (hstored _ hc).2.amount d
  have h2 := hholds.amount d
  omega

variable {report : ToolEffectReport} {step : RunStepState}

theorem effect_money (hrow : s.runs.get? call.run_id = some raw) (hspent : raw.spent.Holds st.spent)
    (h : s.applyEvents (effectEvents call report st step) = .ok s') :
    ∃ spent, (s'.runs.get? call.run_id).map money = some (raw.budget,spent) ∧
      ∀ d, min (raw.spent.amount d+report.spent.amount d) (columnCap d) ≤ spent.amount d := by
  have hnew := RunDb.applyEvents_row h call.run_id
  rw [hrow,effect_row] at hnew
  rw [hnew]
  cases reservationExceededDimension report.spent step.reserved with
  | none =>
    refine ⟨_,rfl,?_⟩
    intro d
    have h1 := amount_usageValues report.spent d
    have h2 := hspent.amount d
    show _ ≤ (raw.spent.add (usageValues report.spent)).amount d
    rw [amount_add,h1]
    omega
  | some dimension =>
    refine ⟨_,rfl,?_⟩
    intro d
    have h2 := hspent.amount d
    show _ ≤ (usageValues (saturatingUsageAdd st.spent report.spent)).amount d
    rw [amount_saturated,h2]

theorem effect_overruns
    (hreserved : ∀ reserved, Committed log ⟨call.run_id,call.step_index.toNat⟩ reserved →
      ∀ d, reserved.amount d = step.reserved.amount d) (hlog : Followed overrunPaused log) :
    Followed overrunPaused (log ++ effectEvents call report st step) := by
  have hquiet := effectRest_quiet call report st step
  refine followed_append overrunPaused_more hlog ?_
  intro pre e post heq
  rw [effectEvents_cons] at heq
  cases pre with
  | nil =>
    obtain ⟨rfl,rfl⟩ := List.cons.inj heq
    rw [append_nil]
    intro reserved hc hd
    obtain ⟨d,hlt⟩ := hd
    rw [hreserved reserved hc d] at hlt
    cases hexceeded : reservationExceededDimension report.spent step.reserved with
    | none =>
      have hfits := (reservationExceeded_none hexceeded).amount d
      omega
    | some dimension =>
      refine ⟨effectRest call report,_,_,_,[],by rw [overReservationEvents,hexceeded],?_⟩
      intro e he
      exact (hquiet e (mem_append_left _ he)).1
  | cons x pre =>
    have hmem : e ∈ effectRest call report ++ overReservationEvents call report st step := by
      rw [(List.cons.inj heq).2]
      simp
    have he := (hquiet e hmem).2
    cases e <;> first | exact trivial | cases he

theorem Account.receive {budget spent' : UsageCols} (hacc : Account id log (some (budget,spent)))
    (hstart : startedBudget id (log ++ b) = startedBudget id log)
    (hsum : ∀ d, reported id d (log ++ b) = reported id d log+used.amount d)
    (hspent : ∀ d, min (spent.amount d+used.amount d) (columnCap d) ≤ spent'.amount d)
    (hwithin : WithinReservations id (log ++ b) →
      ∀ d, spent.amount d+used.amount d ≤ budget.amount d) :
    Account id (log ++ b) (some (budget,spent')) := by
  obtain ⟨b0,hb0,hcols,hold⟩ := hacc.opened _ _ rfl
  refine ⟨?_,?_,?_⟩
  · rintro ⟨⟩
  · rintro _ _ ⟨⟩
    refine ⟨b0,hstart.trans hb0,hcols,?_⟩
    intro d
    have h1 := hold d
    have h2 := hspent d
    rw [hsum]
    push_cast
    omega
  · intro b1 hb1 hw d
    rw [hstart,hb0] at hb1
    cases hb1
    have h1 := hacc.within b0 hb0 hw.before d
    have h2 := hold d
    have h3 := hwithin hw d
    have h4 := amount_usageValues b0 d
    rw [hcols] at h3
    rw [hsum]
    push_cast
    omega

theorem Spending.effect (hinv : Spending s) (hr : SoundRead s call.run_id raw st)
    (hstep : s.steps.get? ⟨call.run_id,call.step_index.toNat⟩ = some t.raw)
    (hfit : (raw.spent.add t.raw.reserved).Le raw.budget)
    (h : s.applyEvents (effectEvents call report st t.st) = .ok s') : Spending s' := by
  obtain ⟨hholds,⟨reserved0,hc0⟩,hreserved⟩ := hinv.reservation hstep
  obtain ⟨spent',hmoney,hspent'⟩ := effect_money hr.row hr.spentNat h
  have hlog := RunDb.applyEvents_log h
  have habout := effectEvents_about call report st t.st
  have hcommitless := effectEvents_commitless call report st t.st
  refine hinv.commitless h hcommitless ?_ ?_
  · intro id
    rw [hlog]
    by_cases hid : id = call.run_id
    · rw [hid,hmoney]
      have hacc := hinv.accounts call.run_id
      rw [hr.row] at hacc
      refine hacc.receive ?_ ?_ hspent' ?_
      · rw [startedBudget_append,effectEvents_cons,startedBudget,startedBudget,List.findSome?_cons]
        have hrest : startedBudget call.run_id
            (effectRest call report ++ overReservationEvents call report st t.st) = none :=
          startedBudget_quiet (fun e he => Or.inr (effectRest_quiet call report st t.st e he).2)
        rw [startedBudget] at hrest
        rw [hrest]
        exact Option.or_none
      · intro d
        have hrest : reported call.run_id d
            (effectRest call report ++ overReservationEvents call report st t.st) = 0 :=
          reported_quiet (fun e he => Or.inr (effectRest_quiet call report st t.st e he).2)
        rw [reported] at hrest
        rw [reported_append,effectEvents_cons,reported,reported,map_cons,sum_cons,hrest]
        simp [reportedBy]
      · intro hw d
        have hmem : RunEvent.toolEffectRecorded call.run_id call.step_index call.call_id
            call.idempotency_key report.output_digest report.spent ∈
            s.log ++ effectEvents call report st t.st := by
          rw [effectEvents_cons]
          simp
        have h1 := hw _ _ _ _ _ _ hmem hc0.append d
        have h2 := hreserved _ hc0 d
        have h3 := hholds.amount d
        have h4 := hfit.amount d
        rw [amount_add] at h4
        omega
    · rw [RunDb.applyEvents_run_other h (fun e he heq => hid (heq.symm.trans (habout e he)))]
      exact (hinv.accounts id).quiet
        (fun e he => Or.inl (fun heq => hid (heq.symm.trans (habout e he))))
  · rw [hlog]
    exact effect_overruns hreserved hinv.overruns

theorem unspent (d : RunBudgetDimension) :
    min ((0 : Nat) : Int) (columnCap d) ≤ (usageValues RunUsage.default).amount d := by
  cases d <;> decide

theorem Spending.start (hinv : Spending s) {h : RunHarness} {spec : RunStartSpec}
    {runtime : RuntimeDescriptor} {depth : UInt8}
    (ha : s.applyEvents [startedEvent h spec runtime depth] = .ok s') : Spending s' := by
  have hlog := RunDb.applyEvents_log ha
  have hrun : (startedEvent h spec runtime depth).run = spec.run_id := rfl
  have hcommitless : ∀ e ∈ [startedEvent h spec runtime depth], commitsStep e = false :=
    single_commitless rfl
  obtain ⟨hnone,_⟩ := insertRow_ok (RunDb.applyEvent_ok (applyEvents_single ha)).2.1
  have hold : startedBudget spec.run_id s.log = none ∧ ∀ d, reported spec.run_id d s.log = 0 := by
    have hacc := hinv.accounts spec.run_id
    have hfree : s.runs.get? spec.run_id = none := hnone
    rw [hfree] at hacc
    exact hacc.unopened rfl
  have hsum : ∀ d, reported spec.run_id d (s.log ++ [startedEvent h spec runtime depth]) = 0 := by
    intro d
    rw [reported_append,hold.2 d]
    rfl
  have hstart : startedBudget spec.run_id (s.log ++ [startedEvent h spec runtime depth]) =
      some spec.budget := by
    rw [startedBudget_append,hold.1]
    simp [startedBudget,budgetBy,startedEvent]
  refine hinv.commitless ha hcommitless ?_ ?_
  · intro id
    rw [hlog]
    by_cases hid : id = spec.run_id
    · have hrow := RunDb.applyEvents_row ha spec.run_id
      rw [rowRun,if_pos hrun,rowRun] at hrow
      rw [hid,hrow]
      refine ⟨?_,?_,?_⟩
      · rintro ⟨⟩
      · rintro _ _ ⟨⟩
        refine ⟨spec.budget,hstart,rfl,?_⟩
        intro d
        rw [hsum]
        exact unspent d
      · intro b0 hb0 _ d
        rw [hsum,amount_usageValues]
        cases d <;> simp [columnCap,i64Max,u32Max]
    · have hne : ∀ e ∈ [startedEvent h spec runtime depth], e.run ≠ id := by
        intro e he heq
        rw [mem_singleton.mp he] at heq
        exact hid heq.symm
      rw [RunDb.applyEvents_run_other ha hne]
      exact (hinv.accounts id).quiet (fun e he => Or.inl (hne e he))
  · rw [hlog]
    refine overruns_quiet hinv.overruns ?_
    intro e he
    rw [mem_singleton.mp he]
    exact Or.inr ⟨_,rfl⟩

theorem decision_moves {op : HarnessCall} {seen : List (Obs runSignature)}
    (hd : Decision op seen b) (hseen : Compat currentCompat seen s) (hs : SoundDb s) :
    (∃ h spec runtime depth, b = [startedEvent h spec runtime depth]) ∨
    (∃ run_id, ∃ r : RunRead run_id, ∃ plan call receipt, Compat currentCompat r.seen s ∧
      admitUsage r.st.budget r.st.spent RunUsage.default plan.reserved = .ok () ∧
      b = stepEvents r.st plan call receipt) ∨
    (∃ call report, ∃ r : RunRead call.run_id, ∃ t : StepRead call.run_id call.step_index,
      Compat currentCompat (r.seen ++ t.seen) s ∧ b = effectEvents call report r.st t.st) ∨
    ∃ run_id raw, s.runs.get? run_id = some raw ∧ ∀ e ∈ b, Idle run_id raw.spent e := by
  cases hd with
  | start h spec runtime depth seen hbudget hlineage => exact .inl ⟨h,spec,runtime,depth,rfl⟩
  | step h run_id plan receipt r call hplan hat hpending hindex hadmits =>
    exact .inr (.inl ⟨run_id,r,plan,call,receipt,hseen,hadmits,rfl⟩)
  | effect call report r t hreport htarget hcheckpoint heffect =>
    exact .inr (.inr (.inl ⟨call,report,r,t,hseen,rfl⟩))
  | budgetPause h run_id plan receipt r exceeded hat hpending =>
    have hr := RunRead.sound hseen hs.runs
    refine .inr (.inr (.inr ⟨_,_,hr.row,idle_single ?_⟩))
    rw [budgetPauseEvent,hr.run]
    exact idle_paused hr.spent
  | settle _ run_id r control hpending hcounts hop =>
    have hr := RunRead.sound hseen hs.runs
    refine .inr (.inr (.inr ⟨_,_,hr.row,fun e he => ?_⟩))
    rcases settleEvents_mem he with rfl | rfl | rfl
    · rw [hr.run]
      exact idle_paused hr.spent
    · exact ⟨hr.run,rfl,rfl,fun _ _ _ => rfl⟩
    · rw [hr.run]
      exact idle_finished hr.spent
  | control _ run_id reason control r hop hterminal hpending hpaused =>
    have hr := RunRead.sound hseen hs.runs
    refine .inr (.inr (.inr ⟨_,_,hr.row,idle_single ?_⟩))
    cases control with
    | pause | cancel => exact ⟨rfl,rfl,rfl,fun _ _ _ => rfl⟩
  | resume | taint | ask | answer =>
    have hr := RunRead.sound hseen hs.runs
    exact .inr (.inr (.inr ⟨_,_,hr.row,idle_single ⟨rfl,rfl,rfl,fun _ _ _ => rfl⟩⟩))
  | finish run_id outcome r hterminal hpaused hpending hcounts =>
    have hr := RunRead.sound hseen hs.runs
    exact .inr (.inr (.inr ⟨_,_,hr.row,idle_single (idle_finished hr.spent)⟩))

theorem decision_spending {op : HarnessCall} {seen : List (Obs runSignature)}
    (hd : Decision op seen b) (hseen : Compat currentCompat seen s) (hs : SoundDb s)
    (hinv : Spending s) (h : s.applyEvents b = .ok s') : Spending s' := by
  rcases decision_moves hd hseen hs with ⟨_,_,_,_,rfl⟩ | ⟨_,r,_,_,_,hnow,hadmits,rfl⟩ |
    ⟨call,report,r,t,hnow,rfl⟩ | ⟨_,_,hrow,hidle⟩
  · exact hinv.start h
  · exact hinv.commit (RunRead.sound hnow hs.runs) hadmits h
  · have hr := RunRead.sound (r := r) (fun q a ha => hnow q a (mem_append_left _ ha)) hs.runs
    have ht := StepRead.current (t := t) (fun q a ha => hnow q a (mem_append_right _ ha))
    exact hinv.effect hr ht (effect_fits hr ht hs.ledger h).2 h
  · exact hinv.idle hrow hidle h

end Steps

def spendingContract : Contract runSignature HarnessCall RunDb where
  compat := currentCompat
  inv s := SoundDb s ∧ Spending s
  may _ _ := True
  rel _ _ _ := True

theorem spending_meets : Meets spendingContract := by
  intro op seen b hd s s' hseen hinv _ ha
  exact ⟨⟨(decision_sound hd hseen hinv.1 ha).1,
    decision_spending hd hseen hinv.1 hinv.2 ha⟩,trivial⟩

theorem empty_spending : Spending RunDb.empty := by
  refine ⟨fun id => ⟨fun _ => ⟨rfl,fun _ => rfl⟩,?_,?_⟩,?_,?_,ordered_nil _,?_⟩
  · rintro _ _ ⟨⟩
  · rintro _ ⟨⟩
  · rintro key reserved ⟨_,_,_,_,_,_,hmem⟩
    cases hmem
  · rintro key cols ⟨⟩
  · intro pre e post h
    simp [RunDb.empty] at h

/-- Steps are committed while `fits` says so, receipts within their reservations
stay within the budget, and one past its own pauses the Run. -/
structure BudgetKept (fits : List RunEvent → RunEvent → Prop) (log : List RunEvent) : Prop where
  commits : Ordered fits log
  within : ∀ id budget, startedBudget id log = some budget → WithinReservations id log →
    ∀ d, (reported id d log : Int) ≤ (usageValues budget).amount d
  overruns : Followed overrunPaused log

/-- Operations run one after another keep every Run within its budget, as far as
the columns can count what it has used. -/
theorem sequential_budgets_kept
    {c : Config runSignature HarnessCall HarnessError HarnessReply RunDb}
    (hc : Reachable runSystem (oneAfterAnother fun _ _ => True) RunDb.empty c) :
    BudgetKept affordable c.store.log := by
  have hreach := (reachable_sequential (fun _ _ h => h) hc).1
  have hinv : Spending c.store :=
    (run_ok (K := spendingContract) (code_runs spending_meets) (fun _ _ h => h) (fun _ _ h => h)
      ⟨empty_sound,empty_spending⟩ hreach).inv.2
  exact ⟨hinv.commits,fun id => (hinv.accounts id).within,hinv.overruns⟩

/-- The step fits the budget beside all that was reported. -/
def exactlyAffordable (log : List RunEvent) : RunEvent → Prop
  | .stepCommittedV1 _ _ _ => False
  | .stepCommittedV2 id _ _ _ _ _ reserved => ∃ budget, startedBudget id log = some budget ∧
    ∀ d, (reported id d log : Int)+reserved.amount d ≤ (usageValues budget).amount d
  | _ => True

def unboundedSpec : RunStartSpec :=
  { demoSpec with budget := ⟨9223372036854775808,100,100,100,10,10,10⟩ }

def unboundedReport : ToolEffectReport := ⟨0,0,⟨9223372036854775808,5,5,5,1,0,1⟩,none,none⟩

def freePlan : StepPlan :=
  { demoPlan with step_index := 1, tool_call := ⟨demoTool,⟨4⟩,[]⟩, reserved := ⟨0,5,5,5,1,0,1⟩ }

def saturatedMoves : List (Move runSignature HarnessCall) :=
  [.spawn 0 (.start demoHarness unboundedSpec),.turn 0,.turn 0,.stop 0,
    .spawn 0 (.prepareStep demoHarness ⟨7⟩ demoPlan none),.turn 0,.turn 0,.clock 0 0,.turn 0,
    .turn 0,.stop 0,
    .spawn 0 (.recordEffect demoCall unboundedReport),.turn 0,.turn 0,.turn 0,.turn 0,.turn 0,
    .stop 0,
    .spawn 0 (.resume ⟨7⟩),.turn 0,.turn 0,.turn 0,.turn 0,.stop 0,
    .spawn 0 (.prepareStep demoHarness ⟨7⟩ freePlan none),.turn 0,.turn 0,.clock 0 0,.turn 0,
    .turn 0]

def overspends (log : List RunEvent) (d : RunBudgetDimension) (n : Nat) : Bool :=
  match log[n]? with
  | some (.stepCommittedV2 id _ _ _ _ _ reserved) =>
    (startedBudget id (log.take n)).any fun budget =>
      decide ((usageValues budget).amount d < reported id d (log.take n)+reserved.amount d)
  | _ => false

theorem overspends_unaffordable {log : List RunEvent} {d : RunBudgetDimension} {n : Nat}
    (h : overspends log d n = true) : ¬ Ordered exactlyAffordable log := by
  intro hfits
  unfold overspends at h
  split at h
  · rename_i id i phase summary digest call reserved hn
    obtain ⟨budget,hstart,hle⟩ := hfits _ _ _ (split_at hn)
    rw [hstart,Option.any_some,decide_eq_true_eq] at h
    have hd := hle d
    omega
  · cases h

theorem saturated_spending_overspends :
    ¬ ∀ c, Reachable runSystem (oneAfterAnother fun _ _ => True) RunDb.empty c →
      BudgetKept exactlyAffordable c.store.log := by
  intro h
  have htrace : Trace runSystem (oneAfterAnother fun _ _ => True) RunDb.empty
      (history runSystem RunDb.empty saturatedMoves)
      (after runSystem RunDb.empty saturatedMoves) :=
    history_unchecked (by decide) (by decide)
  have hover : overspends (after runSystem RunDb.empty saturatedMoves).store.log .tokens 6 = true := by
    decide
  exact overspends_unaffordable hover (h _ htrace.reachable).commits

theorem sequential_budgets_kept_demo :
    ((after runSystem RunDb.empty saturatedMoves).store.log.countP commitsStep) = 2 ∧
      BudgetKept affordable (after runSystem RunDb.empty saturatedMoves).store.log := by
  have htrace : Trace runSystem (oneAfterAnother fun _ _ => True) RunDb.empty
      (history runSystem RunDb.empty saturatedMoves)
      (after runSystem RunDb.empty saturatedMoves) :=
    history_unchecked (by decide) (by decide)
  exact ⟨by decide,sequential_budgets_kept htrace.reachable⟩

end ProjectOS.Agents
