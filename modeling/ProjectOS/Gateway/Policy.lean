import ProjectOS.Gateway.Weather

/-! Where a model call may go: endpoints, the policy of a project, and the
route a dispatch is sent on. -/

namespace ProjectOS.Gateway

inductive ProviderFamily where
  | anthropic | openAi | google | openRouter | openAiCompatible
  deriving DecidableEq

def ProviderFamily.asStr : ProviderFamily → String
  | .anthropic => "anthropic"
  | .openAi => "openai"
  | .google => "google"
  | .openRouter => "openrouter"
  | .openAiCompatible => "openai-compatible"

inductive CredentialClass where
  | managed (secret_ref : String)
  | byok (secret_ref : String)
  | deviceSession (adapter : String) (device : DeviceId)
  deriving DecidableEq

def CredentialClass.label : CredentialClass → String
  | .managed _ => "managed"
  | .byok _ => "byok"
  | .deviceSession .. => "device_session"

inductive EndpointLocality where
  | inProcess | deviceLocal | remote
  deriving DecidableEq

def EndpointLocality.asStr : EndpointLocality → String
  | .inProcess => "in_process"
  | .deviceLocal => "device_local"
  | .remote => "remote"

def stripPrefix (pre : String) (text : List Char) : Option (List Char) :=
  if pre.toList <+: text then some (text.drop pre.length) else none

def urlHost (base_url : String) : Option (List Char) :=
  let rest := (stripPrefix "http://" base_url.toList).or (stripPrefix "https://" base_url.toList)
  rest.map fun rest =>
    let authority := rest.takeWhile (· ≠ '/')
    if ':' ∈ authority then ((authority.reverse.dropWhile (· ≠ ':')).drop 1).reverse
    else authority

def isLoopbackHost (host : List Char) : Bool :=
  ["localhost","127.0.0.1","[::1]","::1"].any fun name => name.toList = host

/-- A base URL and where its bytes go. One that says it stays on the device
names a loopback host. -/
structure EndpointConfig where
  base_url : String
  locality : EndpointLocality
  honest : locality = .deviceLocal → ∃ host, urlHost base_url = some host ∧
    isLoopbackHost host = true

def EndpointConfig.new (base_url : String) (locality : EndpointLocality) :
    Except String EndpointConfig :=
  if hin : locality = .inProcess then
    .error "an in-process endpoint has no URL; use EndpointConfig::in_process"
  else
    match hhost : urlHost base_url with
    | none => .error s!"base URL did not parse: {base_url.quote}"
    | some host =>
      if hlocal : locality = .deviceLocal ∧ isLoopbackHost host = false then
        .error s!"{(String.ofList host).quote} is not a loopback host; it cannot be device_local"
      else
        .ok ⟨base_url,locality,fun h => ⟨host,hhost,by simpa [h] using hlocal⟩⟩

def EndpointConfig.inProcess (component : String) : EndpointConfig where
  base_url := "in-process:" ++ component
  locality := .inProcess
  honest h := by cases h

structure ModelChoice where
  family : ProviderFamily
  endpoint : EndpointConfig
  model : String
  credential : CredentialClass
  is_pinned_family_base : Bool

inductive ModelPolicy where
  | localOnly
  | cloudAllowed
  | customEndpoints (allowed_base_urls : List String)
  deriving DecidableEq

namespace ModelPolicy

def label : ModelPolicy → String
  | .localOnly => "local_only"
  | .cloudAllowed => "cloud_allowed"
  | .customEndpoints _ => "custom_endpoints"

def violation (policy : ModelPolicy) (requested : String) : Except Weather Unit :=
  .error (.policyViolation policy.label requested)

def authorize (policy : ModelPolicy) (choice : ModelChoice) : Except Weather Unit :=
  match choice.endpoint.locality with
  | .inProcess => .ok ()
  | .deviceLocal => .ok ()
  | .remote =>
    match policy with
    | .localOnly => policy.violation s!"remote endpoint for family {choice.family.asStr}"
    | .cloudAllowed =>
      if choice.is_pinned_family_base then .ok ()
      else policy.violation s!"custom remote endpoint {choice.endpoint.base_url}"
    | .customEndpoints allowed_base_urls =>
      if choice.is_pinned_family_base || allowed_base_urls.contains choice.endpoint.base_url then
        .ok ()
      else policy.violation s!"unlisted remote endpoint {choice.endpoint.base_url}"

theorem authorize_local {choice : ModelChoice} {u : Unit}
    (h : localOnly.authorize choice = .ok u) : choice.endpoint.locality ≠ .remote := by
  intro hremote
  rw [authorize,hremote] at h
  cases h

end ModelPolicy

inductive RoutingTier where
  | frontier | fast
  deriving DecidableEq

structure ModelRouting where
  frontier : ModelChoice
  fast : ModelChoice
  transcribe : Option ModelChoice
  embed : Option ModelChoice

def ModelRouting.choice (routing : ModelRouting) : RoutingTier → ModelChoice
  | .frontier => routing.frontier
  | .fast => routing.fast

inductive Socket where
  | deviceLocal | remote
  deriving DecidableEq

structure Transports where
  has_remote : Bool

def Transports.resolve (transports : Transports) :
    EndpointLocality → Except Weather (Option Socket)
  | .inProcess => .ok none
  | .deviceLocal => .ok (some .deviceLocal)
  | .remote =>
    if transports.has_remote then .ok (some .remote)
    else .error (.transportUnavailable EndpointLocality.remote.asStr)

theorem Transports.resolve_remote {transports : Transports} {locality : EndpointLocality}
    (h : transports.resolve locality = .ok (some .remote)) : locality = .remote := by
  cases locality with
  | inProcess => cases h
  | deviceLocal => cases h
  | remote => rfl

end ProjectOS.Gateway
