import ProjectOS.Lib.Replay
import ProjectOS.Gateway.Dispatch
set_option linter.dupNamespace false

/-! The requests a dispatch sends out, and the endpoint its policy was asked
about. -/

namespace ProjectOS.Gateway
open Lib List Lib.Prog

def GatewayAct.executed (parse : String → Except String Value) :
    GatewayAct → Option (Socket × HttpRequestPlan)
  | .complete provider auth request socket =>
    (provider.plan parse auth request).toOption.map fun plan => (socket,plan)
  | .transcribe engine auth request socket => (engine.plan auth request socket).toOption.join
  | .embed engine auth request socket => (engine.plan auth request socket).toOption.join
  | _ => none

def SentTo (parse : String → Except String Value) (url : String) (trace : GatewayTrace) : Prop :=
  ∀ x ∈ trace, ∀ sent ∈ x.1.executed parse, sent.2.url = url

def completionUrl (choice : ModelChoice) (request : CompletionRequest) : String :=
  choice.endpoint.base_url ++ Provider.path request choice.family

def Gateway.Reaches (g : Gateway) (choice : ModelChoice) : Prop :=
  g.policy.authorize choice = .ok () ∧
    ∃ socket, g.transports.resolve choice.endpoint.locality = .ok (some socket)

/-- Each adapter sends to the base of the choice it serves. -/
structure Gateway.AdaptersAgree (g : Gateway) : Prop where
  complete : ∀ tier, g.Reaches (g.routing.choice tier) →
    ∀ provider ∈ g.findProvider (g.routing.choice tier),
      provider.base_url = (g.routing.choice tier).endpoint.base_url
  transcribe : ∀ choice ∈ g.routing.transcribe, g.Reaches choice →
    ∀ base supports_segments, g.transcriber = some (.cloudStt base supports_segments) →
      trimSlashes base = trimSlashes choice.endpoint.base_url
  embed : ∀ choice ∈ g.routing.embed, g.Reaches choice →
    ∀ base model dim, g.embedder = some (.cloudEmbed base model dim) →
      trimSlashes base = trimSlashes choice.endpoint.base_url

theorem mem_toOption {ε α : Type} {x : Except ε α} {a : α} : a ∈ x.toOption ↔ x = .ok a := by
  cases x with
  | ok | error => simp [Except.toOption]

theorem mem_toOption_join {ε α : Type} {x : Except ε (Option α)} {a : α} :
    a ∈ x.toOption.join ↔ x = .ok (some a) := by
  cases x with
  | ok | error => simp [Except.toOption]

theorem append_right_eq {s t u : String} : s ++ u = t ++ u ↔ s = t := by
  constructor
  · intro h
    have hlist := congrArg String.toList h
    rw [String.toList_append,String.toList_append] at hlist
    exact String.toList_inj.mp (append_cancel_right hlist)
  · rintro rfl
    rfl

section
variable {parse : String → Except String Value} {auth : CallAuth}
variable {request : CompletionRequest} {plan : HttpRequestPlan} {base : String}

theorem messagesPlan_url (h : messagesPlan parse base auth request = .ok plan) :
    plan.url = base ++ Provider.path request .anthropic := by
  obtain ⟨_,_,h⟩ := ok_of_bind h
  obtain ⟨_,_,h⟩ := ok_of_bind h
  obtain ⟨_,_,h⟩ := ok_of_bind h
  cases h
  rfl

theorem generateContentPlan_url
    (h : generateContentPlan parse base auth request = .ok plan) :
    plan.url = base ++ Provider.path request .google := by
  obtain ⟨_,_,h⟩ := ok_of_bind h
  obtain ⟨_,_,h⟩ := ok_of_bind h
  obtain ⟨_,_,h⟩ := ok_of_bind h
  cases h
  rfl

theorem chatCompletionsPlan_url {config : WireConfig}
    (h : chatCompletionsPlan parse config auth request = .ok plan) :
    plan.url = config.base_url ++ "/v1/chat/completions" := by
  obtain ⟨_,_,h⟩ := ok_of_bind h
  by_cases hreasoning : request.reasoning_effort.isSome ∧ config.supports_reasoning_effort = false
  · rw [if_pos hreasoning] at h
    obtain ⟨_,hthrow,_⟩ := ok_of_bind h
    cases hthrow
  · rw [if_neg hreasoning] at h
    obtain ⟨_,_,h⟩ := ok_of_bind h
    cases h
    rfl

theorem Provider.plan_url {provider : Provider} (h : provider.plan parse auth request = .ok plan) :
    plan.url = provider.base_url ++ Provider.path request provider.family := by
  cases provider with
  | anthropic base => exact messagesPlan_url h
  | openAi | openRouter | openAiCompatible => exact chatCompletionsPlan_url h
  | google base => exact generateContentPlan_url h

variable {socket : Option Socket} {sent : Socket × HttpRequestPlan}

theorem Transcriber.plan_url {engine : Transcriber} {request : TranscribeRequest}
    (h : engine.plan auth request socket = .ok (some sent)) :
    ∃ base supports_segments, engine = .cloudStt base supports_segments ∧
      socket = some sent.1 ∧ sent.2.url = sttUrl base := by
  cases engine with
  | whisperLocal model_name =>
    obtain ⟨_,_,h⟩ := ok_of_bind h
    split_ifs at h
    cases h
  | cloudStt base supports_segments =>
    obtain ⟨_,_,h⟩ := ok_of_bind h
    cases socket with
    | none => cases h
    | some socket =>
      cases h
      exact ⟨base,supports_segments,rfl,rfl,rfl⟩

theorem Embedder.plan_url {engine : Embedder} {request : EmbedRequest}
    (h : engine.plan auth request socket = .ok (some sent)) :
    ∃ base model dim, engine = .cloudEmbed base model dim ∧
      socket = some sent.1 ∧ sent.2.url = embedUrl base := by
  cases engine with
  | onnxLocal model_name dim =>
    simp only [Embedder.plan] at h
    split_ifs at h <;> cases h
  | cloudEmbed base model dim =>
    cases socket with
    | none => cases h
    | some socket =>
      simp only [Embedder.plan] at h
      split_ifs at h <;> cases h
      exact ⟨base,model,dim,rfl,rfl,rfl⟩

end

section
variable {parse : String → Except String Value} {g : Gateway} {choice : ModelChoice}

def SendsTo (parse : String → Except String Value) (url : String) (a : GatewayAct) : Prop :=
  ∀ sent ∈ a.executed parse, sent.2.url = url

theorem credential_sends {url : String} (a : GatewayAct) (h : a.isCredential = true) :
    SendsTo parse url a := by
  cases a with
  | now | resolveSecret | noteUsed => exact fun _ hsent => by cases hsent
  | complete | transcribe | embed | record => cases h

theorem findProvider_family {provider : Provider} (h : g.findProvider choice = some provider) :
    provider.family = choice.family := by
  simpa using List.find?_some h

theorem runCall_sends {request : CompletionRequest}
    (h : g.Reaches choice → ∀ provider ∈ g.findProvider choice,
      provider.base_url = choice.endpoint.base_url) :
    (g.runCall choice request).Within (SendsTo parse (completionUrl choice request)) := by
  refine authorized_within fun hauth => ?_
  split_ifs
  · trivial
  · refine within_bind (within_mono credential_sends (resolveAuth_within _))
      fun auth => ?_
    cases hprovider : g.findProvider choice with
    | none => trivial
    | some provider =>
      cases hresolve : g.transports.resolve choice.endpoint.locality with
      | error weather => trivial
      | ok socket =>
        cases socket with
        | none => trivial
        | some socket =>
          refine ⟨fun sent hsent => ?_,fun _ => within_ofExcept _⟩
          obtain ⟨plan,hplan,rfl⟩ := Option.map_eq_some_iff.mp hsent
          have hbase := h ⟨hauth,socket,hresolve⟩ provider hprovider
          have hurl := Provider.plan_url (mem_toOption.mp hplan)
          rw [hbase,findProvider_family hprovider] at hurl
          exact hurl

theorem runTranscribe_sends {request : TranscribeRequest}
    (h : g.Reaches choice → ∀ base supports_segments,
      g.transcriber = some (.cloudStt base supports_segments) →
        trimSlashes base = trimSlashes choice.endpoint.base_url) :
    (g.runTranscribe choice request).Within
      (SendsTo parse (sttUrl choice.endpoint.base_url)) := by
  refine authorized_within fun hauth => ?_
  cases hengine : g.transcriber with
  | none => trivial
  | some engine =>
    refine dialed_within credential_sends fun auth socket hresolve => ?_
    refine ⟨fun sent hsent => ?_,fun _ => within_ofExcept _⟩
    obtain ⟨base,supports_segments,rfl,rfl,hurl⟩ :=
      Transcriber.plan_url (mem_toOption_join.mp hsent)
    rw [hurl,sttUrl,h ⟨hauth,_,hresolve⟩ base supports_segments hengine,sttUrl]

theorem runEmbed_sends {request : EmbedRequest}
    (h : g.Reaches choice → ∀ base model dim, g.embedder = some (.cloudEmbed base model dim) →
      trimSlashes base = trimSlashes choice.endpoint.base_url) :
    (g.runEmbed choice request).Within (SendsTo parse (embedUrl choice.endpoint.base_url)) := by
  refine authorized_within fun hauth => ?_
  cases hengine : g.embedder with
  | none => trivial
  | some engine =>
    refine dialed_within credential_sends fun auth socket hresolve => ?_
    refine ⟨fun sent hsent => ?_,fun _ => within_ofExcept _⟩
    obtain ⟨base,model,dim,rfl,rfl,hurl⟩ := Embedder.plan_url (mem_toOption_join.mp hsent)
    rw [hurl,embedUrl,h ⟨hauth,_,hresolve⟩ base model dim hengine,embedUrl]

theorem metered_sent {α σ ι : Type} {url : String} {call : GatewayProg α}
    (h : call.Within (SendsTo parse url)) (entry : Except Weather α → Nat → Nat → ModelCallRecord)
    (M : Machine gatewayIface ι σ) (env : Nat → ι) (n : Nat) (s : σ) :
    SentTo parse url ((metered call entry).trace M env n s) := by
  obtain ⟨started,t,ended,record,answer,htrace,_⟩ := metered_trace call entry M env n s
  rw [htrace]
  intro x hx
  rcases mem_cons.mp hx with rfl | hx
  · exact fun _ hsent => by cases hsent
  · rcases mem_append.mp hx with hx | hx
    · exact trace_within M env h (n+1) t x hx
    · simp only [mem_cons,not_mem_nil,or_false] at hx
      rcases hx with rfl | rfl <;> exact fun _ hsent => by cases hsent

end

def obliging : Machine gatewayIface Unit Unit where
  step _ _
  | .now => (0,())
  | .resolveSecret _ => (.ok "key",())
  | .noteUsed .. => ((),())
  | .complete .. => (.ok ⟨0,0,false⟩,())
  | .transcribe .. => (.ok ⟨0,0,false⟩,())
  | .embed .. => (.ok (⟨1,[]⟩,⟨0,0,0,0,false⟩),())
  | .record _ => (.ok (),())

section
variable {parse : String → Except String Value} {g : Gateway} {choice : ModelChoice}

theorem resolveAuth_obliged (credential : CredentialClass) (n : Nat) :
    ∃ auth m, (resolveAuth credential).run obliging (fun _ => ()) n () = (.ok auth,m,()) := by
  cases credential with
  | managed | byok | deviceSession => exact ⟨_,_,rfl⟩

theorem mem_metered {α : Type} {call : GatewayProg α} {x : Σ a : gatewayIface.Act, gatewayIface.Resp a}
    (entry : Except Weather α → Nat → Nat → ModelCallRecord)
    (h : x ∈ call.trace obliging (fun _ => ()) 1 ()) :
    x ∈ (metered call entry).trace obliging (fun _ => ()) 0 () := by
  obtain ⟨started,t,ended,record,answer,htrace,_⟩ :=
    metered_trace call entry obliging (fun _ => ()) 0 ()
  rw [htrace]
  exact mem_cons_of_mem _ (mem_append_left _ h)

def plainRequest : CompletionRequest where
  model := "model"
  system := none
  messages := [⟨.user,"hello"⟩]
  tools_json := none
  reasoning_effort := none
  max_output_tokens := 1
  timeout_ms := 1000

def plainWindow : TranscribeRequest where
  model := "model"
  language := none
  offset_ms := 0
  samples := List.replicate 1600 0

def plainBatch : EmbedRequest where
  model := "model"
  inputs := [⟨none,"hello"⟩]
  enrichment_version := 0

theorem Provider.plan_plain (provider : Provider) (auth : CallAuth) :
    ∃ plan, provider.plan parse auth plainRequest = .ok plan := by
  cases provider with
  | anthropic | openAi | google | openRouter | openAiCompatible => exact ⟨_,rfl⟩

theorem cloudStt_plan_plain (base : String) (supports_segments : Bool) (auth : CallAuth)
    (socket : Socket) :
    ∃ plan, (Transcriber.cloudStt base supports_segments).plan auth plainWindow (some socket) =
      .ok (some (socket,plan)) ∧ plan.url = sttUrl base := by
  have hbounds : checkBounds plainWindow.samples.length = .ok () := by
    rw [plainWindow,length_replicate]
    rfl
  rw [Transcriber.plan,hbounds]
  exact ⟨_,rfl,rfl⟩

theorem cloudEmbed_plan_plain (base model : String) (dim : Nat) (auth : CallAuth)
    (socket : Socket) :
    ∃ plan, (Embedder.cloudEmbed base model dim).plan auth plainBatch (some socket) =
      .ok (some (socket,plan)) ∧ plan.url = embedUrl base :=
  ⟨_,rfl,rfl⟩

section
variable (hauth : g.policy.authorize choice = .ok ())
include hauth

theorem runCall_plain {provider : Provider}
    (hprovider : g.findProvider choice = some provider) {socket : Socket}
    (hresolve : g.transports.resolve choice.endpoint.locality = .ok (some socket)) (n : Nat) :
    ∃ auth, ⟨GatewayAct.complete provider auth plainRequest socket,.ok ⟨0,0,false⟩⟩ ∈
      (g.runCall choice plainRequest).trace obliging (fun _ => ()) n () := by
  obtain ⟨auth,m,hrun⟩ := resolveAuth_obliged choice.credential n
  refine ⟨auth,?_⟩
  rw [Gateway.runCall,hauth,Prog.ofExcept,ret_bind,if_neg (by decide),trace_bind,hrun,
    hprovider,hresolve]
  exact mem_append_right _ (mem_cons_self)

variable {socket : Option Socket}

theorem runTranscribe_plain {engine : Transcriber} (hengine : g.transcriber = some engine)
    (hresolve : g.transports.resolve choice.endpoint.locality = .ok socket) (n : Nat) :
    ∃ auth, ⟨GatewayAct.transcribe engine auth plainWindow socket,.ok ⟨0,0,false⟩⟩ ∈
      (g.runTranscribe choice plainWindow).trace obliging (fun _ => ()) n () := by
  obtain ⟨auth,m,hrun⟩ := resolveAuth_obliged choice.credential n
  refine ⟨auth,?_⟩
  rw [Gateway.runTranscribe,hauth,hengine,Prog.ofExcept,ret_bind]
  rw [trace_bind,hrun,hresolve]
  exact mem_append_right _ (mem_cons_self)

theorem runEmbed_plain {engine : Embedder} (hengine : g.embedder = some engine)
    (hresolve : g.transports.resolve choice.endpoint.locality = .ok socket) (n : Nat) :
    ∃ auth, ⟨GatewayAct.embed engine auth plainBatch socket,.ok (⟨1,[]⟩,⟨0,0,0,0,false⟩)⟩ ∈
      (g.runEmbed choice plainBatch).trace obliging (fun _ => ()) n () := by
  obtain ⟨auth,m,hrun⟩ := resolveAuth_obliged choice.credential n
  refine ⟨auth,?_⟩
  rw [Gateway.runEmbed,hauth,hengine,Prog.ofExcept,ret_bind]
  rw [trace_bind,hrun,hresolve]
  exact mem_append_right _ (mem_cons_self)

end

end

def Gateway.SendsToChoices (parse : String → Except String Value) (g : Gateway) : Prop :=
  ∀ (σ ι : Type) (M : Machine gatewayIface ι σ) (env : Nat → ι) (n : Nat) (s : σ)
    (attribution : CallAttribution),
    (∀ tier request, SentTo parse (completionUrl (g.routing.choice tier) request)
      ((g.complete tier attribution request).trace M env n s)) ∧
    (∀ choice ∈ g.routing.transcribe, ∀ request,
      SentTo parse (sttUrl choice.endpoint.base_url)
        ((g.transcribe attribution request).trace M env n s)) ∧
    ∀ choice ∈ g.routing.embed, ∀ request,
      SentTo parse (embedUrl choice.endpoint.base_url)
        ((g.embed attribution request).trace M env n s)

section
variable {parse : String → Except String Value} {g : Gateway}

theorem agree_sends (h : g.AdaptersAgree) : g.SendsToChoices parse := by
  intro σ ι M env n s attribution
  refine ⟨?_,?_,?_⟩
  · intro tier request
    exact metered_sent (runCall_sends (h.complete tier)) _ M env n s
  · intro choice hroute request
    rw [Gateway.transcribe,hroute]
    exact metered_sent (runTranscribe_sends (h.transcribe choice hroute)) _ M env n s
  · intro choice hroute request
    rw [Gateway.embed,hroute]
    exact metered_sent (runEmbed_sends (h.embed choice hroute)) _ M env n s

theorem sends_agree (attribution : CallAttribution) (h : g.SendsToChoices parse) :
    g.AdaptersAgree := by
  obtain ⟨hcomplete,htranscribe,hembed⟩ := h Unit Unit obliging (fun _ => ()) 0 () attribution
  refine ⟨?_,?_,?_⟩
  · rintro tier ⟨hauth,socket,hresolve⟩ provider hprovider
    obtain ⟨auth,hcall⟩ := runCall_plain hauth hprovider hresolve 1
    obtain ⟨plan,hplan⟩ := @Provider.plan_plain parse provider auth
    have hsent := hcomplete tier plainRequest _ (mem_metered _ hcall) (socket,plan)
      (Option.map_eq_some_iff.mpr ⟨plan,mem_toOption.mpr hplan,rfl⟩)
    have hurl := (Provider.plan_url hplan).symm.trans hsent
    rw [findProvider_family hprovider] at hurl
    exact append_right_eq.mp hurl
  · rintro choice hroute ⟨hauth,socket,hresolve⟩ base supports_segments hengine
    obtain ⟨auth,hcall⟩ := runTranscribe_plain hauth hengine hresolve 1
    obtain ⟨plan,hplan,hurl⟩ := cloudStt_plan_plain base supports_segments auth socket
    have hdispatch := htranscribe choice hroute plainWindow
    rw [Gateway.transcribe,hroute] at hdispatch
    have hsent := hdispatch _ (mem_metered _ hcall) (socket,plan) (mem_toOption_join.mpr hplan)
    exact append_right_eq.mp (hurl.symm.trans hsent)
  · rintro choice hroute ⟨hauth,socket,hresolve⟩ base model dim hengine
    obtain ⟨auth,hcall⟩ := runEmbed_plain hauth hengine hresolve 1
    obtain ⟨plan,hplan,hurl⟩ := cloudEmbed_plan_plain base model dim auth socket
    have hdispatch := hembed choice hroute plainBatch
    rw [Gateway.embed,hroute] at hdispatch
    have hsent := hdispatch _ (mem_metered _ hcall) (socket,plan) (mem_toOption_join.mpr hplan)
    exact append_right_eq.mp (hurl.symm.trans hsent)

end

/-- Dispatches keep to the endpoints the policy was asked about exactly where
the adapters are configured with the choices' own base URLs. -/
theorem sends_to_choices (parse : String → Except String Value) (g : Gateway) :
    g.SendsToChoices parse ↔ g.AdaptersAgree :=
  ⟨sends_agree ⟨⟨0⟩,"note",none⟩,agree_sends⟩

def relayed : Gateway :=
  let choice : ModelChoice := {
    family := .anthropic
    endpoint := ⟨"https://api.anthropic.com",.remote,nofun⟩
    model := "model"
    credential := .managed "anthropic"
    is_pinned_family_base := true }
  { policy := .cloudAllowed
    routing := ⟨choice,choice,none,none⟩
    providers := [.anthropic "https://relay.example"]
    transports := ⟨true⟩
    transcriber := none
    embedder := none }

def noTools (_ : String) : Except String Value := .error "not JSON"

theorem relayed_elsewhere :
    relayed.policy.authorize (relayed.routing.choice .frontier) = .ok () ∧
    ((relayed.complete .frontier ⟨⟨0⟩,"note",none⟩ plainRequest).trace obliging (fun _ => ()) 0 ()
      ).filterMap (fun x => (x.1.executed noTools).map fun sent => sent.2.url) =
        ["https://relay.example/v1/messages"] ∧
    ¬ relayed.SendsToChoices noTools := by
  refine ⟨rfl,by decide,fun h => ?_⟩
  have hagree := (sends_agree ⟨⟨0⟩,"note",none⟩ h).complete .frontier ⟨rfl,.remote,rfl⟩
  exact absurd (hagree _ rfl) (by decide)

end ProjectOS.Gateway
