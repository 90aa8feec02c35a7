import ProjectOS.Domain.Runs

namespace ProjectOS.Agents
open Domain

def runStepCountMax : UInt32 := 10000
def runToolCallCountMax : UInt32 := runStepCountMax
def runRetryCountMax : UInt32 := 1000

structure BudgetExceeded where
  dimension : RunBudgetDimension
  limit : UInt64
  spent : UInt64
  pending : UInt64
  requested : UInt64

inductive BudgetConfigError where
  | stepLimitTooLarge (configured maximum : UInt32)
  | toolCallLimitTooLarge (configured maximum : UInt32)
  | retryLimitTooLarge (configured maximum : UInt32)

def validateBudget (budget : RunBudget) : Except BudgetConfigError Unit :=
  if budget.steps > runStepCountMax then
    .error (.stepLimitTooLarge budget.steps runStepCountMax)
  else if budget.tool_calls > runToolCallCountMax then
    .error (.toolCallLimitTooLarge budget.tool_calls runToolCallCountMax)
  else if budget.retries > runRetryCountMax then
    .error (.retryLimitTooLarge budget.retries runRetryCountMax)
  else .ok ()

def checkedAdd64 (a b : UInt64) : Option UInt64 :=
  if a.toNat+b.toNat ≤ u64Max then some (a+b) else none

def checkU64 (dimension : RunBudgetDimension) (limit spent pending requested : UInt64) :
    Except BudgetExceeded Unit :=
  match (checkedAdd64 spent pending).bind (fun value => checkedAdd64 value requested) with
  | some value => if value ≤ limit then .ok () else .error ⟨dimension,limit,spent,pending,requested⟩
  | none => .error ⟨dimension,limit,spent,pending,requested⟩

def admitUsage (budget : RunBudget) (spent pending requested : RunUsage) :
    Except BudgetExceeded Unit := do
  checkU64 .tokens budget.tokens spent.tokens pending.tokens requested.tokens
  checkU64 .usdMicros budget.usd_micros spent.usd_micros pending.usd_micros requested.usd_micros
  checkU64 .wallMs budget.wall_ms spent.wall_ms pending.wall_ms requested.wall_ms
  checkU64 .storageBytes budget.storage_bytes spent.storage_bytes pending.storage_bytes
    requested.storage_bytes
  checkU64 .toolCalls budget.tool_calls.toUInt64 spent.tool_calls.toUInt64
    pending.tool_calls.toUInt64 requested.tool_calls.toUInt64
  checkU64 .retries budget.retries.toUInt64 spent.retries.toUInt64 pending.retries.toUInt64
    requested.retries.toUInt64
  checkU64 .steps budget.steps.toUInt64 spent.steps.toUInt64 pending.steps.toUInt64
    requested.steps.toUInt64

def reservationExceededDimension (actual reserved : RunUsage) : Option RunBudgetDimension :=
  if actual.tokens > reserved.tokens then some .tokens
  else if actual.usd_micros > reserved.usd_micros then some .usdMicros
  else if actual.wall_ms > reserved.wall_ms then some .wallMs
  else if actual.storage_bytes > reserved.storage_bytes then some .storageBytes
  else if actual.tool_calls > reserved.tool_calls then some .toolCalls
  else if actual.retries > reserved.retries then some .retries
  else if actual.steps > reserved.steps then some .steps
  else none

def saturatingAdd64 (a b : UInt64) : UInt64 := UInt64.ofNat (satAdd64 a.toNat b.toNat)

def saturatingAdd32 (a b : UInt32) : UInt32 := UInt32.ofNat (satAdd32 a.toNat b.toNat)

def saturatingUsageAdd (left right : RunUsage) : RunUsage where
  tokens := saturatingAdd64 left.tokens right.tokens
  usd_micros := saturatingAdd64 left.usd_micros right.usd_micros
  wall_ms := saturatingAdd64 left.wall_ms right.wall_ms
  storage_bytes := saturatingAdd64 left.storage_bytes right.storage_bytes
  tool_calls := saturatingAdd32 left.tool_calls right.tool_calls
  retries := saturatingAdd32 left.retries right.retries
  steps := saturatingAdd32 left.steps right.steps

structure Fits (used limit : RunUsage) : Prop where
  tokens : used.tokens.toNat ≤ limit.tokens.toNat
  usd_micros : used.usd_micros.toNat ≤ limit.usd_micros.toNat
  wall_ms : used.wall_ms.toNat ≤ limit.wall_ms.toNat
  storage_bytes : used.storage_bytes.toNat ≤ limit.storage_bytes.toNat
  tool_calls : used.tool_calls.toNat ≤ limit.tool_calls.toNat
  retries : used.retries.toNat ≤ limit.retries.toNat
  steps : used.steps.toNat ≤ limit.steps.toNat

/-- What is spent and what is asked for fit the budget together. -/
structure Admitted (budget : RunBudget) (spent requested : RunUsage) : Prop where
  tokens : spent.tokens.toNat+requested.tokens.toNat ≤ budget.tokens.toNat
  usd_micros : spent.usd_micros.toNat+requested.usd_micros.toNat ≤ budget.usd_micros.toNat
  wall_ms : spent.wall_ms.toNat+requested.wall_ms.toNat ≤ budget.wall_ms.toNat
  storage_bytes :
    spent.storage_bytes.toNat+requested.storage_bytes.toNat ≤ budget.storage_bytes.toNat
  tool_calls : spent.tool_calls.toNat+requested.tool_calls.toNat ≤ budget.tool_calls.toNat
  retries : spent.retries.toNat+requested.retries.toNat ≤ budget.retries.toNat
  steps : spent.steps.toNat+requested.steps.toNat ≤ budget.steps.toNat

theorem checkedAdd64_some {a b c : UInt64} (h : checkedAdd64 a b = some c) :
    c.toNat = a.toNat+b.toNat := by
  unfold checkedAdd64 at h
  split at h
  · rename_i hle
    cases h
    have hlt : a.toNat+b.toNat < 2^64 := by simp only [u64Max] at hle; omega
    rw [UInt64.toNat_add,Nat.mod_eq_of_lt hlt]
  · cases h

theorem checkU64_ok {dimension : RunBudgetDimension} {limit spent requested : UInt64}
    (h : checkU64 dimension limit spent 0 requested = .ok ()) :
    spent.toNat+requested.toNat ≤ limit.toNat := by
  unfold checkU64 at h
  split at h
  · rename_i value hv
    split at h
    · rename_i hle
      obtain ⟨mid,h1,h2⟩ := Option.bind_eq_some_iff.mp hv
      have hm : mid.toNat = spent.toNat := by simpa using checkedAdd64_some h1
      have hs := checkedAdd64_some h2
      have hl : value.toNat ≤ limit.toNat := UInt64.le_iff_toNat_le.mp hle
      omega
    · cases h
  · cases h

variable {budget : RunBudget}

theorem admitUsage_ok {spent requested : RunUsage}
    (h : admitUsage budget spent RunUsage.default requested = .ok ()) :
    Admitted budget spent requested := by
  obtain ⟨⟨⟩,h1,h⟩ := bind_ok h
  obtain ⟨⟨⟩,h2,h⟩ := bind_ok h
  obtain ⟨⟨⟩,h3,h⟩ := bind_ok h
  obtain ⟨⟨⟩,h4,h⟩ := bind_ok h
  obtain ⟨⟨⟩,h5,h⟩ := bind_ok h
  obtain ⟨⟨⟩,h6,h7⟩ := bind_ok h
  refine ⟨checkU64_ok h1,checkU64_ok h2,checkU64_ok h3,checkU64_ok h4,?_,?_,?_⟩
  · simpa using checkU64_ok h5
  · simpa using checkU64_ok h6
  · simpa using checkU64_ok h7

theorem reservationExceeded_none {actual reserved : RunUsage}
    (h : reservationExceededDimension actual reserved = none) : Fits actual reserved := by
  unfold reservationExceededDimension at h
  split at h
  · cases h
  split at h
  · cases h
  split at h
  · cases h
  split at h
  · cases h
  split at h
  · cases h
  split at h
  · cases h
  split at h
  · cases h
  rename_i h1 h2 h3 h4 h5 h6 h7
  simp only [gt_iff_lt,UInt64.lt_iff_toNat_lt,UInt32.lt_iff_toNat_lt,Nat.not_lt] at *
  exact ⟨h1,h2,h3,h4,h5,h6,h7⟩

theorem validateBudget_ok (h : validateBudget budget = .ok ()) :
    budget.steps.toNat ≤ 10000 ∧ budget.tool_calls.toNat ≤ 10000 ∧
      budget.retries.toNat ≤ 1000 := by
  unfold validateBudget at h
  split at h
  · cases h
  split at h
  · cases h
  split at h
  · cases h
  rename_i h1 h2 h3
  simp only [gt_iff_lt,UInt32.lt_iff_toNat_lt,Nat.not_lt] at h1 h2 h3
  exact ⟨h1,h2,h3⟩

end ProjectOS.Agents
