import ProjectOS.Domain.Runs

namespace ProjectOS.Agents
open Lib Domain

def runToolGrantCountMax : Nat := 64
def toolInputBytesMax : Nat := 65536
def toolIdLenMax : Nat := 64
def gateReasonLenMax : Nat := 512

def isControl (c : Char) : Bool :=
  decide (c.toNat < 0x20) || (decide (0x7f ≤ c.toNat) && decide (c.toNat ≤ 0x9f))

def visibleText (bound : Nat) (value : String) : Bool :=
  !value.isEmpty && decide (value.utf8ByteSize ≤ bound) && !value.toList.any isControl

def idCharacter (c : Char) : Bool :=
  c.isAlphanum || c = '.' || c = '-' || c = '_'

def validToolId (value : String) : Bool :=
  !value.isEmpty && decide (value.utf8ByteSize ≤ toolIdLenMax) && value.toList.all idCharacter

structure ToolId where
  value : String
  valid : validToolId value = true
  deriving DecidableEq

theorem ToolId.value_injective : Function.Injective ToolId.value := by
  rintro ⟨a,ha⟩ ⟨b,hb⟩ h
  cases h
  rfl

instance : LinearOrder ToolId := LinearOrder.lift' ToolId.value ToolId.value_injective

inductive ToolRegistryError where
  | invalidToolId (value : String)
  | duplicateTool (id : String)
  | duplicateGrant (id : String)
  | tooManyTools (maximum : Nat)
  | tooManyGrants (maximum : Nat)
  | invalidAutonomyLevel (value : UInt8)

def ToolRegistryError.display : ToolRegistryError → String
  | .invalidToolId value =>
    "invalid tool id " ++ value.quote ++ s!": use 1..={toolIdLenMax} ASCII id characters"
  | .duplicateTool id => s!"tool {id} is registered twice"
  | .duplicateGrant id => s!"tool {id} is granted twice"
  | .tooManyTools maximum => s!"tool registry exceeds its {maximum}-entry bound"
  | .tooManyGrants maximum => s!"Run allowlist exceeds its {maximum}-grant bound"
  | .invalidAutonomyLevel value => s!"autonomy level {value} is outside 0..=4"

def ToolId.new (value : String) : Except ToolRegistryError ToolId :=
  if h : validToolId value = true then .ok ⟨value,h⟩ else .error (.invalidToolId value)

inductive CapabilityScope where
  | readEvidence | readOperations | writeProposal | writePlan | writeIncident | execLocal
  | execCloud | changeProduction
  | egress (target : String)
  | secretUse (reference : String)

def CapabilityScope.isEgress : CapabilityScope → Bool
  | .egress _ => true
  | _ => false

def CapabilityScope.isAlwaysGated : CapabilityScope → Bool
  | .changeProduction | .egress _ => true
  | _ => false

inductive ToolPolicyMode where
  | allow | gate | block
  deriving DecidableEq

inductive ToolEffectClass where
  | readOnly | idempotent | nonIdempotent
  deriving DecidableEq

structure ToolDescriptor where
  id : ToolId
  version : UInt16
  scope : CapabilityScope
  mode : ToolPolicyMode
  effect : ToolEffectClass
  max_input_bytes : UInt32
  version_pos : 0 < version.toNat
  input_bound : 0 < max_input_bytes.toNat ∧ max_input_bytes.toNat ≤ toolInputBytesMax

theorem version_one : 0 < (1 : UInt16).toNat := by decide

structure AutonomyLevel where
  value : UInt8
  le : value.toNat ≤ 4

def AutonomyLevel.new (value : UInt8) : Except ToolRegistryError AutonomyLevel :=
  if h : value.toNat ≤ 4 then .ok ⟨value,h⟩ else .error (.invalidAutonomyLevel value)

inductive ToolGrantMode where
  | allow | gate | block
  deriving DecidableEq

structure RunToolGrants where
  entries : Table ToolId ToolGrantMode

namespace RunToolGrants

def insertAll : List (ToolId × ToolGrantMode) → Table ToolId ToolGrantMode →
    Except ToolRegistryError (Table ToolId ToolGrantMode)
  | [], grants => .ok grants
  | (id,mode)::rest, grants =>
    match grants.get? id with
    | some _ => .error (.duplicateGrant id.value)
    | none => insertAll rest (grants.put id mode)

def new (entries : List (ToolId × ToolGrantMode)) : Except ToolRegistryError RunToolGrants :=
  if runToolGrantCountMax < entries.length then .error (.tooManyGrants runToolGrantCountMax)
  else (insertAll entries Table.empty).map RunToolGrants.mk

def mode (grants : RunToolGrants) (id : ToolId) : Option ToolGrantMode := grants.entries.get? id

def fromDomain (entries : List RunToolGrant) : Except ToolRegistryError RunToolGrants := do
  let parsed ← entries.mapM fun grant => do
    let id ← ToolId.new grant.tool_id
    return (id,match grant.mode with
      | .allow => ToolGrantMode.allow
      | .gate => ToolGrantMode.gate
      | .block => ToolGrantMode.block)
  new parsed

def domainGrants (grants : RunToolGrants) : List RunToolGrant :=
  grants.entries.rows.map fun row =>
    ⟨row.1.value,match row.2 with
      | .allow => .allow
      | .gate => .gate
      | .block => .block⟩

end RunToolGrants

structure GateReceipt where
  receipt_id : ReceiptId
  run_id : RunId
  call_id : ToolCallId
  tool_id : ToolId
  approved_by : UserId
  reason : String
  expires_ts_ms : UInt64
  reason_visible : visibleText gateReasonLenMax reason = true

structure ToolCallRequest where
  tool_id : ToolId
  call_id : ToolCallId
  input : Bytes

structure AuthorizationContext where
  run_id : RunId
  step_index : UInt32
  tainted : Bool
  autonomy_level : AutonomyLevel
  grants : RunToolGrants
  receipt : Option GateReceipt
  now_ts_ms : Nat

inductive AuthorizationError where
  | unknownTool (id : String)
  | outsideAllowlist (id : String)
  | blocked (id : String)
  | gateRequired (id : String)
  | receiptMismatch (id : String)
  | receiptExpired (id : String) (expires_ts_ms : UInt64)
  | inputTooLarge (id : String) (len : Nat) (maximum : UInt32)
  | descriptorVersionChanged (id : String) (committed current : UInt16)

structure AuthorizedToolCall where
  run_id : RunId
  step_index : UInt32
  descriptor : ToolDescriptor
  call_id : ToolCallId
  idempotency_key : String
  input : Bytes

def AuthorizedToolCall.domainCall (call : AuthorizedToolCall) : RunToolCall :=
  ⟨call.descriptor.id.value,call.descriptor.version,call.call_id,call.idempotency_key,call.input⟩

structure ToolRegistry where
  entries : Table ToolId ToolDescriptor
  keyed : ∀ id descriptor, entries.get? id = some descriptor → descriptor.id = id

def validateReceipt (request : ToolCallRequest) (context : AuthorizationContext) :
    Except AuthorizationError Unit :=
  match context.receipt with
  | none => .error (.gateRequired request.tool_id.value)
  | some receipt =>
    if receipt.run_id ≠ context.run_id ∨ receipt.call_id ≠ request.call_id ∨
        receipt.tool_id ≠ request.tool_id then
      .error (.receiptMismatch request.tool_id.value)
    else if receipt.expires_ts_ms.toNat < context.now_ts_ms then
      .error (.receiptExpired request.tool_id.value receipt.expires_ts_ms)
    else .ok ()

def idempotencyKey (run_id : RunId) (step_index : UInt32) (call_id : ToolCallId) : String :=
  run_id.toHex ++ ":" ++ toString step_index.toNat ++ ":" ++ call_id.toHex

theorem idempotencyKey_inj {r r' : RunId} {i i' : UInt32} {c c' : ToolCallId}
    (h : idempotencyKey r i c = idempotencyKey r' i' c') : r = r' ∧ i = i' ∧ c = c' := by
  have hlist := congrArg String.toList h
  simp only [idempotencyKey,String.toList_append,List.append_assoc] at hlist
  obtain ⟨hrun,hrest⟩ := List.append_inj hlist (by rw [Id.toHex_length,Id.toHex_length])
  obtain ⟨_,hrest⟩ := List.append_inj hrest rfl
  obtain ⟨hindex,hrest⟩ := List.append_inj' hrest
    (by simp only [List.length_append,Id.toHex_length])
  obtain ⟨_,hcall⟩ := List.append_inj hrest rfl
  have hnat : i.toNat = i'.toNat := by
    have hread := congrArg (fun l => Nat.ofDigitChars 10 l 0) hindex
    simpa [Nat.ofDigitChars_toDigits] using hread
  exact ⟨Id.toHex_injective (String.toList_inj.mp hrun),UInt32.toNat_inj.mp hnat,
    Id.toHex_injective (String.toList_inj.mp hcall)⟩

namespace ToolRegistry

def empty : ToolRegistry := ⟨Table.empty,by rintro id descriptor ⟨⟩⟩

def insert (registry : ToolRegistry) (descriptor : ToolDescriptor) : ToolRegistry where
  entries := registry.entries.put descriptor.id descriptor
  keyed := by
    intro id d h
    rw [Table.get?_put] at h
    split at h
    · rename_i hid
      cases h
      exact hid.symm
    · exact registry.keyed id d h

def gateRequired (descriptor : ToolDescriptor) (grant : ToolGrantMode) (tainted : Bool) : Bool :=
  descriptor.mode = .gate || grant = .gate || descriptor.scope.isAlwaysGated ||
    descriptor.effect = .nonIdempotent ||
    (tainted && (descriptor.scope.isEgress || descriptor.effect ≠ .readOnly))

def authorize (registry : ToolRegistry) (request : ToolCallRequest)
    (context : AuthorizationContext) : Except AuthorizationError AuthorizedToolCall :=
  match registry.entries.get? request.tool_id with
  | none => .error (.unknownTool request.tool_id.value)
  | some descriptor =>
    match context.grants.mode request.tool_id with
    | none => .error (.outsideAllowlist request.tool_id.value)
    | some grant =>
      if descriptor.mode = .block ∨ grant = .block then .error (.blocked request.tool_id.value)
      else if descriptor.max_input_bytes.toNat < request.input.length then
        .error (.inputTooLarge request.tool_id.value request.input.length descriptor.max_input_bytes)
      else do
        if gateRequired descriptor grant context.tainted then validateReceipt request context
        return ⟨context.run_id,context.step_index,descriptor,request.call_id,
          idempotencyKey context.run_id context.step_index request.call_id,request.input⟩

def rehydrate (registry : ToolRegistry) (run_id : RunId) (step_index : UInt32)
    (call : RunToolCall) : Except AuthorizationError AuthorizedToolCall :=
  match ToolId.new call.tool_id with
  | .error _ => .error (.unknownTool call.tool_id)
  | .ok id =>
    match registry.entries.get? id with
    | none => .error (.unknownTool call.tool_id)
    | some descriptor =>
      if descriptor.version ≠ call.descriptor_version then
        .error (.descriptorVersionChanged call.tool_id call.descriptor_version descriptor.version)
      else if descriptor.max_input_bytes.toNat < call.input.length then
        .error (.inputTooLarge call.tool_id call.input.length descriptor.max_input_bytes)
      else .ok ⟨run_id,step_index,descriptor,call.call_id,call.idempotency_key,call.input⟩

end ToolRegistry

section
variable {registry : ToolRegistry} {request : ToolCallRequest} {context : AuthorizationContext}

theorem validateReceipt_ok (h : validateReceipt request context = .ok ()) :
    ∃ receipt, context.receipt = some receipt ∧ receipt.run_id = context.run_id ∧
      receipt.call_id = request.call_id ∧ receipt.tool_id = request.tool_id ∧
      context.now_ts_ms ≤ receipt.expires_ts_ms.toNat := by
  unfold validateReceipt at h
  split at h
  · cases h
  · rename_i receipt hr
    split at h
    · cases h
    · rename_i hsame
      split at h
      · cases h
      · rename_i hexp
        simp only [not_or,not_not] at hsame
        exact ⟨receipt,hr,hsame.1,hsame.2.1,hsame.2.2,Nat.le_of_not_lt hexp⟩

variable {call : AuthorizedToolCall}

theorem authorize_ok (h : registry.authorize request context = .ok call) :
    ∃ descriptor grant, registry.entries.get? request.tool_id = some descriptor ∧
      context.grants.mode request.tool_id = some grant ∧
      (ToolRegistry.gateRequired descriptor grant context.tainted = true →
        validateReceipt request context = .ok ()) ∧
      call = ⟨context.run_id,context.step_index,descriptor,request.call_id,
        idempotencyKey context.run_id context.step_index request.call_id,request.input⟩ := by
  unfold ToolRegistry.authorize at h
  split at h
  · cases h
  rename_i descriptor hd
  split at h
  · cases h
  rename_i grant hg
  split at h
  · cases h
  split at h
  · cases h
  refine ⟨descriptor,grant,hd,hg,?_,?_⟩
  · intro hgate
    rw [if_pos hgate] at h
    cases hv : validateReceipt request context with
    | ok u => rfl
    | error e =>
      rw [hv] at h
      cases h
  · cases hgate : ToolRegistry.gateRequired descriptor grant context.tainted with
    | true =>
      rw [if_pos hgate] at h
      cases hv : validateReceipt request context with
      | ok u =>
        rw [hv] at h
        cases h
        rfl
      | error e =>
        rw [hv] at h
        cases h
    | false =>
      rw [if_neg (by simp [hgate])] at h
      cases h
      rfl

theorem rehydrate_ok {run_id : RunId} {step_index : UInt32} {durable : RunToolCall}
    (h : registry.rehydrate run_id step_index durable = .ok call) :
    registry.entries.get? call.descriptor.id = some call.descriptor ∧
      call.run_id = run_id ∧ call.step_index = step_index ∧ call.domainCall = durable := by
  unfold ToolRegistry.rehydrate at h
  split at h
  · cases h
  rename_i id hid
  split at h
  · cases h
  rename_i descriptor hd
  split at h
  · cases h
  rename_i hversion
  split at h
  · cases h
  cases h
  have hkey := registry.keyed id descriptor hd
  have hvalue : id.value = durable.tool_id := by
    unfold ToolId.new at hid
    split at hid
    · cases hid
      rfl
    · cases hid
  refine ⟨by rw [hkey,hd],rfl,rfl,?_⟩
  simp only [AuthorizedToolCall.domainCall,hkey,hvalue,not_not.mp hversion]

end

inductive RosterCharter where
  | navigator | analyst | archivist | planner | foreman | scout | sentinel | incidentCommander
  | investigator | verifier | scribe | echo
  deriving DecidableEq

def RosterCharter.asStr : RosterCharter → String
  | .navigator => "Navigator"
  | .analyst => "Analyst"
  | .archivist => "Archivist"
  | .planner => "Planner"
  | .foreman => "Foreman"
  | .scout => "Scout"
  | .sentinel => "Sentinel"
  | .incidentCommander => "Incident Commander"
  | .investigator => "Investigator"
  | .verifier => "Verifier"
  | .scribe => "Scribe"
  | .echo => "Echo"

def rosterContains (charter : RosterCharter) : Bool :=
  match charter with
  | .navigator | .analyst | .archivist | .planner | .foreman | .scout | .sentinel
  | .incidentCommander | .investigator | .verifier | .scribe | .echo => true

inductive RuntimeHealth where
  | healthy | degraded | unavailable
  deriving DecidableEq

structure RuntimeDescriptor where
  id : String
  kind : RunRuntimeKind
  contract_version : UInt16
  supported_executors : List RunExecutor
  health : RuntimeHealth

def RuntimeDescriptor.reference (d : RuntimeDescriptor) : RunRuntimeRef :=
  ⟨d.kind,d.id,d.contract_version⟩

inductive RuntimeRegistryError where
  | unknown (id : String)
  | unsupportedExecutor (id : String) (executor : RunExecutor)
  | unavailable (id : String)

structure RuntimeRegistry where
  entries : Table String RuntimeDescriptor

def RuntimeRegistry.resolve (registry : RuntimeRegistry) (id : String) (executor : RunExecutor) :
    Except RuntimeRegistryError RuntimeDescriptor :=
  match registry.entries.get? id with
  | none => .error (.unknown id)
  | some descriptor =>
    if descriptor.health = .unavailable then .error (.unavailable id)
    else if descriptor.supported_executors.contains executor then .ok descriptor
    else .error (.unsupportedExecutor id executor)

end ProjectOS.Agents
