import ProjectOS.Lib.Trace
import ProjectOS.Gateway.Wire
set_option linter.dupNamespace false

/-! The dispatch chokepoint: policy, credential, transport, engine, and one
ledger record. -/

namespace ProjectOS.Gateway
open Lib List Lib.Prog

def outputTokensRequestMax : Nat := 128000

structure CallAttribution where
  project : ProjectId
  feature : String
  agent : Option String

inductive ProviderCostKind where
  | measured | estimated | customerBilled
  deriving DecidableEq

structure ModelCallRecord where
  project : ProjectId
  feature : String
  agent : Option String
  provider : String
  credential_class : String
  model : String
  tokens_in : Nat
  tokens_out : Nat
  wall_ms : Nat
  provider_cost_kind : ProviderCostKind
  usd_micros : Nat
  outcome : String
  ts_ms : Nat
  deriving DecidableEq

def costKindFor (usage_measured : Bool) : CredentialClass → ProviderCostKind
  | .byok _ => .customerBilled
  | .deviceSession .. => .customerBilled
  | .managed _ => if usage_measured then .measured else .estimated

inductive SecretError where
  | unknown (secret_ref : String)
  | revoked (secret_ref : String)
  | store (reason : String)
  deriving DecidableEq

def SecretError.text : SecretError → String
  | .unknown secret_ref => s!"no secret is stored under {secret_ref.quote}"
  | .revoked secret_ref => s!"the secret {secret_ref.quote} is revoked"
  | .store reason => s!"secret store failure: {reason}"

/-- What a dispatch does outside itself. An engine in this process is handed no
transport. -/
inductive GatewayAct where
  | now
  | resolveSecret (secret_ref : String)
  | noteUsed (secret_ref : String) (ts_ms : Nat)
  | complete (provider : Provider) (auth : CallAuth) (request : CompletionRequest)
      (socket : Socket)
  | transcribe (engine : Transcriber) (auth : CallAuth) (request : TranscribeRequest)
      (socket : Option Socket)
  | embed (engine : Embedder) (auth : CallAuth) (request : EmbedRequest) (socket : Option Socket)
  | record (record : ModelCallRecord)

abbrev gatewayIface : Interface where
  Act := GatewayAct
  Resp
    | .now => Nat
    | .resolveSecret _ => Except SecretError String
    | .noteUsed .. => Unit
    | .complete .. => Except Weather CompletionUsage
    | .transcribe .. => Except Weather TranscribeUsage
    | .embed .. => Except Weather (Vectors × EmbedUsage)
    | .record _ => Except String Unit

abbrev GatewayProg := Prog gatewayIface Weather

structure Gateway where
  policy : ModelPolicy
  routing : ModelRouting
  providers : List Provider
  transports : Transports
  transcriber : Option Transcriber
  embedder : Option Embedder

def resolveAuth : CredentialClass → GatewayProg CallAuth
  | .deviceSession .. => .ret .none
  | .managed secret_ref => resolve secret_ref
  | .byok secret_ref => resolve secret_ref
where
  resolve (secret_ref : String) : GatewayProg CallAuth :=
    .act (.resolveSecret secret_ref) fun
    | .ok value => .act .now fun now_ms => .act (.noteUsed secret_ref now_ms) fun _ =>
      .ret (.apiKey value)
    | .error (.revoked _) => .throw .credentialRevoked
    | .error e => .throw (.credentialUnavailable e.text)

def recordCall (record : ModelCallRecord) : GatewayProg Unit :=
  .act (.record record) fun
  | .ok () => .ret ()
  | .error reason => .throw (.ledgerFailure reason)

def metered {α : Type} (call : GatewayProg α)
    (entry : Except Weather α → Nat → Nat → ModelCallRecord) : GatewayProg α :=
  .act .now fun started_ts_ms =>
    call.attempt.bind fun outcome =>
      .act .now fun ended_ts_ms =>
        (recordCall (entry outcome (ended_ts_ms-started_ts_ms) started_ts_ms)).bind fun _ =>
          .ofExcept outcome

def outcomeCode {α : Type} : Except Weather α → String
  | .ok _ => "ok"
  | .error weather => weather.code

namespace Gateway
variable (g : Gateway)

def findProvider (choice : ModelChoice) : Option Provider :=
  g.providers.find? fun provider => provider.family = choice.family

def runCall (choice : ModelChoice) (request : CompletionRequest) : GatewayProg CompletionUsage :=
  (Prog.ofExcept (g.policy.authorize choice)).bind fun _ =>
    if outputTokensRequestMax < request.max_output_tokens then
      .throw (.budgetExhausted "max_output_tokens_request"
        s!"{request.max_output_tokens} exceeds the per-call output cap {outputTokensRequestMax}")
    else
      (resolveAuth choice.credential).bind fun auth =>
        match g.findProvider choice with
        | none => .throw (.invalidRequest
            s!"no provider is registered for family {choice.family.asStr}")
        | some provider =>
          (Prog.ofExcept (g.transports.resolve choice.endpoint.locality)).bind fun
            | none => .throw (.transportUnavailable choice.endpoint.locality.asStr)
            | some socket => .act (.complete provider auth request socket) .ofExcept

def runTranscribe (choice : ModelChoice) (request : TranscribeRequest) :
    GatewayProg TranscribeUsage :=
  (Prog.ofExcept (g.policy.authorize choice)).bind fun _ =>
    match g.transcriber with
    | none => .throw (.notYetSupported "transcribe"
        "a transcription engine composed into this gateway")
    | some engine =>
      (resolveAuth choice.credential).bind fun auth =>
        (Prog.ofExcept (g.transports.resolve choice.endpoint.locality)).bind fun socket =>
          .act (.transcribe engine auth request socket) .ofExcept

def runEmbed (choice : ModelChoice) (request : EmbedRequest) :
    GatewayProg (Vectors × EmbedUsage) :=
  (Prog.ofExcept (g.policy.authorize choice)).bind fun _ =>
    match g.embedder with
    | none => .throw (.notYetSupported "embed" "an embedding engine composed into this gateway")
    | some engine =>
      (resolveAuth choice.credential).bind fun auth =>
        (Prog.ofExcept (g.transports.resolve choice.endpoint.locality)).bind fun socket =>
          .act (.embed engine auth request socket) .ofExcept

def entryOf (attribution : CallAttribution) (choice : ModelChoice) (provider model outcome : String)
    (tokens_in tokens_out : Nat) (measured : Bool) (wall_ms ts_ms : Nat) : ModelCallRecord where
  project := attribution.project
  feature := attribution.feature
  agent := attribution.agent
  provider := provider
  credential_class := choice.credential.label
  model := model
  tokens_in := tokens_in
  tokens_out := tokens_out
  wall_ms := wall_ms
  provider_cost_kind := costKindFor measured choice.credential
  usd_micros := 0
  outcome := outcome
  ts_ms := ts_ms

def completionEntry (attribution : CallAttribution) (choice : ModelChoice)
    (request : CompletionRequest) (outcome : Except Weather CompletionUsage) (wall_ms ts_ms : Nat) :
    ModelCallRecord :=
  let usage : CompletionUsage := (outcome.toOption).getD ⟨0,0,false⟩
  entryOf attribution choice choice.family.asStr request.model (outcomeCode outcome)
    usage.tokens_in usage.tokens_out usage.measured wall_ms ts_ms

def transcribeEntry (attribution : CallAttribution) (choice : ModelChoice) (engine : String)
    (outcome : Except Weather TranscribeUsage) (wall_ms ts_ms : Nat) : ModelCallRecord :=
  entryOf attribution choice engine choice.model (outcomeCode outcome) 0 0 false wall_ms ts_ms

def embedEntry (attribution : CallAttribution) (choice : ModelChoice) (engine : String)
    (outcome : Except Weather (Vectors × EmbedUsage)) (wall_ms ts_ms : Nat) : ModelCallRecord :=
  entryOf attribution choice engine choice.model (outcomeCode outcome)
    ((outcome.toOption.map fun answer => answer.2.tokens_in).getD 0) 0 false wall_ms ts_ms

def complete (tier : RoutingTier) (attribution : CallAttribution) (request : CompletionRequest) :
    GatewayProg CompletionUsage :=
  let choice := g.routing.choice tier
  metered (g.runCall choice request) (completionEntry attribution choice request)

def transcribe (attribution : CallAttribution) (request : TranscribeRequest) :
    GatewayProg TranscribeUsage :=
  match g.routing.transcribe with
  | none => .throw (.invalidRequest "this project has no transcription route configured")
  | some choice =>
    metered (g.runTranscribe choice request) (transcribeEntry attribution choice
      ((g.transcriber.map Transcriber.label).getD choice.family.asStr))

def embed (attribution : CallAttribution) (request : EmbedRequest) :
    GatewayProg (Vectors × EmbedUsage) :=
  match g.routing.embed with
  | none => .throw (.invalidRequest "this project has no embedding route configured")
  | some choice =>
    metered (g.runEmbed choice request) (embedEntry attribution choice
      ((g.embedder.map Embedder.label).getD choice.family.asStr))

end Gateway

def GatewayAct.isRecord : GatewayAct → Bool
  | .record _ => true
  | _ => false

def GatewayAct.isLedgerOnly : GatewayAct → Bool
  | .now
  | .record _ => true
  | _ => false

def GatewayAct.isCredential : GatewayAct → Bool
  | .now
  | .resolveSecret _
  | .noteUsed .. => true
  | _ => false

def GatewayAct.socket : GatewayAct → Option Socket
  | .complete _ _ _ socket => some socket
  | .transcribe _ _ _ socket => socket
  | .embed _ _ _ socket => socket
  | _ => none

abbrev GatewayTrace := List (Σ a : gatewayIface.Act, gatewayIface.Resp a)

/-- A dispatch from its first action to its record, which is the last: the engine
has returned or the policy refused before. -/
structure Dispatched {α : Type} (g : Gateway) (choice : ModelChoice) (trace : GatewayTrace)
    (result : Except Weather α) : Prop where
  metered : ∃ before record answer,
    trace = before ++ [⟨GatewayAct.record record,answer⟩] ∧ ∀ x ∈ before, x.1.isRecord = false
  refused : ∀ weather, g.policy.authorize choice = .error weather →
    ∀ x ∈ trace, x.1.isLedgerOnly = true
  onDevice : g.policy = .localOnly → ∀ x ∈ trace, x.1.socket ≠ some .remote
  outranked : ∀ record reason, ⟨GatewayAct.record record,.error reason⟩ ∈ trace →
    result = .error (.ledgerFailure reason)

def Gateway.MayTake (g : Gateway) (a : GatewayAct) : Prop :=
  a.isRecord = false ∧ (g.policy = .localOnly → a.socket ≠ some .remote)

section
variable {g : Gateway} {choice : ModelChoice}

theorem resolveAuth_within (credential : CredentialClass) :
    (resolveAuth credential).Within fun a : GatewayAct => a.isCredential = true := by
  have hresolve : ∀ secret_ref,
      (resolveAuth.resolve secret_ref).Within fun a : GatewayAct => a.isCredential = true := by
    intro secret_ref
    refine ⟨rfl,fun answer => ?_⟩
    cases answer with
    | ok value => exact ⟨rfl,fun now_ms => ⟨rfl,fun _ => trivial⟩⟩
    | error e => cases e <;> trivial
  cases credential with
  | managed secret_ref | byok secret_ref => exact hresolve secret_ref
  | deviceSession _ _ => trivial

theorem credential_mayTake (a : GatewayAct) (h : a.isCredential = true) : g.MayTake a := by
  cases a with
  | now | resolveSecret | noteUsed => exact ⟨rfl,by simp [GatewayAct.socket]⟩
  | complete | transcribe | embed | record => cases h

theorem authorized_within {α : Type} {P : GatewayAct → Prop} {call : GatewayProg α}
    (h : g.policy.authorize choice = .ok () → call.Within P) :
    ((Prog.ofExcept (g.policy.authorize choice)).bind fun _ => call).Within P := by
  cases hauth : g.policy.authorize choice with
  | error weather => trivial
  | ok u => exact h hauth

theorem dialed_within {α : Type} {P : GatewayAct → Prop}
    {call : CallAuth → Option Socket → GatewayProg α}
    (hcredential : ∀ a, a.isCredential = true → P a)
    (h : ∀ auth socket, g.transports.resolve choice.endpoint.locality = .ok socket →
      (call auth socket).Within P) :
    ((resolveAuth choice.credential).bind fun auth =>
      (Prog.ofExcept (g.transports.resolve choice.endpoint.locality)).bind (call auth)).Within P := by
  refine within_bind (within_mono hcredential (resolveAuth_within _)) fun auth => ?_
  cases hresolve : g.transports.resolve choice.endpoint.locality with
  | error weather => trivial
  | ok socket => exact h auth socket hresolve

theorem resolved_local (hauth : g.policy.authorize choice = .ok ()) {socket : Option Socket}
    (h : g.transports.resolve choice.endpoint.locality = .ok socket) (hlocal : g.policy = .localOnly) :
    socket ≠ some .remote := by
  rintro rfl
  rw [hlocal] at hauth
  exact ModelPolicy.authorize_local hauth (Transports.resolve_remote h)

theorem runCall_within (request : CompletionRequest) :
    (g.runCall choice request).Within g.MayTake := by
  refine authorized_within fun hauth => ?_
  split_ifs
  · trivial
  · refine within_bind (within_mono credential_mayTake (resolveAuth_within _)) fun auth => ?_
    cases g.findProvider choice with
    | none => trivial
    | some provider =>
      cases hresolve : g.transports.resolve choice.endpoint.locality with
      | error weather => trivial
      | ok socket =>
        cases socket with
        | none => trivial
        | some socket =>
          refine ⟨⟨rfl,fun hlocal => ?_⟩,fun _ => within_ofExcept _⟩
          exact resolved_local hauth hresolve hlocal

theorem runTranscribe_within (request : TranscribeRequest) :
    (g.runTranscribe choice request).Within g.MayTake := by
  refine authorized_within fun hauth => ?_
  cases g.transcriber with
  | none => trivial
  | some engine =>
    refine dialed_within credential_mayTake fun auth socket hresolve => ?_
    exact ⟨⟨rfl,resolved_local hauth hresolve⟩,fun _ => within_ofExcept _⟩

theorem runEmbed_within (request : EmbedRequest) :
    (g.runEmbed choice request).Within g.MayTake := by
  refine authorized_within fun hauth => ?_
  cases g.embedder with
  | none => trivial
  | some engine =>
    refine dialed_within credential_mayTake fun auth socket hresolve => ?_
    exact ⟨⟨rfl,resolved_local hauth hresolve⟩,fun _ => within_ofExcept _⟩

theorem recorded_trace {α σ ι : Type} (record : ModelCallRecord) (outcome : Except Weather α)
    (M : Machine gatewayIface ι σ) (env : Nat → ι) (n : Nat) (s : σ) :
    ∃ answer,
      ((recordCall record).bind fun _ => Prog.ofExcept outcome).trace M env n s =
        [⟨GatewayAct.record record,answer⟩] ∧
      ∀ reason, answer = .error reason →
        (((recordCall record).bind fun _ => Prog.ofExcept outcome).run M env n s).1 =
          .error (.ledgerFailure reason) := by
  rw [recordCall,act_bind,trace_act,run_act]
  refine ⟨(M.step (env n) s (GatewayAct.record record)).1,?_,?_⟩
  · cases (M.step (env n) s (GatewayAct.record record)).1 with
    | ok u => exact congrArg _ (trace_ofExcept _ _ outcome _ _)
    | error reason => rfl
  · intro reason hanswer
    rw [hanswer]
    rfl

theorem metered_trace {α σ ι : Type} (call : GatewayProg α)
    (entry : Except Weather α → Nat → Nat → ModelCallRecord) (M : Machine gatewayIface ι σ)
    (env : Nat → ι) (n : Nat) (s : σ) :
    ∃ started t ended record answer,
      (metered call entry).trace M env n s = ⟨GatewayAct.now,started⟩ ::
        (call.trace M env (n+1) t ++
          [⟨GatewayAct.now,ended⟩,⟨GatewayAct.record record,answer⟩]) ∧
      ∀ reason, answer = .error reason →
        ((metered call entry).run M env n s).1 = .error (.ledgerFailure reason) := by
  rcases hstart : M.step (env n) s GatewayAct.now with ⟨started,t⟩
  rcases hcall : call.run M env (n+1) t with ⟨outcome,m,t'⟩
  rcases hend : M.step (env m) t' GatewayAct.now with ⟨ended,t''⟩
  obtain ⟨answer,htrace,hfail⟩ :=
    recorded_trace (entry outcome (ended-started) started) outcome M env (m+1) t''
  refine ⟨started,t,ended,entry outcome (ended-started) started,answer,?_,?_⟩
  · rw [metered,trace_act,hstart,trace_bind,trace_attempt,run_attempt,hcall]
    simp only [trace_act,hend,htrace]
  · intro reason hanswer
    rw [metered,run_act,hstart,run_bind,run_attempt,hcall]
    simp only [run_act,hend]
    exact hfail reason hanswer

theorem metered_dispatched {α σ ι : Type} {call : GatewayProg α} (hwithin : call.Within g.MayTake)
    (hrefused : ∀ weather, g.policy.authorize choice = .error weather → call = .throw weather)
    (entry : Except Weather α → Nat → Nat → ModelCallRecord) (M : Machine gatewayIface ι σ)
    (env : Nat → ι) (n : Nat) (s : σ) :
    Dispatched g choice ((metered call entry).trace M env n s)
      ((metered call entry).run M env n s).1 := by
  obtain ⟨started,t,ended,record,answer,htrace,hledger⟩ := metered_trace call entry M env n s
  have hcall := trace_within M env hwithin (n+1) t
  rw [htrace]
  refine ⟨?_,?_,?_,?_⟩
  · refine ⟨⟨GatewayAct.now,started⟩ :: (call.trace M env (n+1) t ++ [⟨GatewayAct.now,ended⟩]),
      record,answer,by simp,?_⟩
    intro x hx
    rcases mem_cons.mp hx with rfl | hx
    · rfl
    · rcases mem_append.mp hx with hx | hx
      · exact (hcall x hx).1
      · rw [mem_singleton.mp hx]
        rfl
  · intro weather hauth x hx
    rw [hrefused weather hauth] at hx
    simp only [trace_throw,nil_append,mem_cons,not_mem_nil,or_false] at hx
    rcases hx with rfl | rfl | rfl <;> rfl
  · intro hlocal x hx
    rcases mem_cons.mp hx with rfl | hx
    · simp [GatewayAct.socket]
    · rcases mem_append.mp hx with hx | hx
      · exact (hcall x hx).2 hlocal
      · simp only [mem_cons,not_mem_nil,or_false] at hx
        rcases hx with rfl | rfl <;> simp [GatewayAct.socket]
  · intro record' reason hx
    rcases mem_cons.mp hx with heq | hx
    · cases heq
    · rcases mem_append.mp hx with hx | hx
      · have hnot := (hcall _ hx).1
        cases hnot
      · simp only [mem_cons,not_mem_nil,or_false] at hx
        rcases hx with heq | heq
        · cases heq
        · cases heq
          exact hledger reason rfl

variable {weather : Weather}

theorem runCall_refused {request : CompletionRequest}
    (h : g.policy.authorize choice = .error weather) :
    g.runCall choice request = .throw weather := by
  rw [Gateway.runCall,h]
  rfl

theorem runTranscribe_refused {request : TranscribeRequest}
    (h : g.policy.authorize choice = .error weather) :
    g.runTranscribe choice request = .throw weather := by
  rw [Gateway.runTranscribe,h]
  rfl

theorem runEmbed_refused {request : EmbedRequest} (h : g.policy.authorize choice = .error weather) :
    g.runEmbed choice request = .throw weather := by
  rw [Gateway.runEmbed,h]
  rfl

end

/-- Every dispatch that has a route is gated and metered, whatever its
surroundings answer. -/
theorem dispatches_metered {σ ι : Type} (g : Gateway) (attribution : CallAttribution)
    (M : Machine gatewayIface ι σ) (env : Nat → ι) (n : Nat) (s : σ) :
    (∀ tier request, Dispatched g (g.routing.choice tier)
      ((g.complete tier attribution request).trace M env n s)
      ((g.complete tier attribution request).run M env n s).1) ∧
    (match g.routing.transcribe with
      | none => True
      | some choice => ∀ request, Dispatched g choice
        ((g.transcribe attribution request).trace M env n s)
        ((g.transcribe attribution request).run M env n s).1) ∧
    (match g.routing.embed with
      | none => True
      | some choice => ∀ request, Dispatched g choice
        ((g.embed attribution request).trace M env n s)
        ((g.embed attribution request).run M env n s).1) := by
  refine ⟨?_,?_,?_⟩
  · intro tier request
    exact metered_dispatched (runCall_within request) (fun _ => runCall_refused) _ M env n s
  · cases hroute : g.routing.transcribe with
    | none => trivial
    | some choice =>
      intro request
      rw [Gateway.transcribe,hroute]
      exact metered_dispatched (runTranscribe_within request) (fun _ => runTranscribe_refused)
        _ M env n s
  · cases hroute : g.routing.embed with
    | none => trivial
    | some choice =>
      intro request
      rw [Gateway.embed,hroute]
      exact metered_dispatched (runEmbed_within request) (fun _ => runEmbed_refused) _ M env n s

end ProjectOS.Gateway
