import ProjectOS.Lib.Json
import ProjectOS.Gateway.Policy

/-! The engines a gateway is composed with, and the HTTP requests they make.
What the answer to a request is made of is the transport's to say. -/

namespace ProjectOS.Gateway
open Lib

/-- What a request carries. The audio of a form is its samples, each the bit
pattern of an `f32`. -/
inductive Body where
  | empty
  | json (value : Value)
  | multipart (fields : List (String × String)) (audio : List UInt32)

inductive HttpMethod where
  | get | post
  deriving DecidableEq

structure HttpRequestPlan where
  method : HttpMethod
  url : String
  headers : List (String × String)
  body : Body
  timeout_ms : Nat
  response_bytes_max : Option Nat

inductive CallAuth where
  | none
  | apiKey (value : String)
  deriving DecidableEq

def CallAuth.header (auth : CallAuth) (name : String) (render : String → String) :
    List (String × String) :=
  match auth with
  | .none => []
  | .apiKey key => [(name,render key)]

def bearer (key : String) : String := s!"Bearer {key}"

inductive MessageRole where
  | user | assistant
  deriving DecidableEq

structure ChatMessage where
  role : MessageRole
  content : String
  deriving DecidableEq

inductive ReasoningEffort where
  | disabled | low | medium | high
  deriving DecidableEq

def ReasoningEffort.asStr : ReasoningEffort → String
  | .disabled => "none"
  | .low => "low"
  | .medium => "medium"
  | .high => "high"

structure CompletionRequest where
  model : String
  system : Option String
  messages : List ChatMessage
  tools_json : Option String
  reasoning_effort : Option ReasoningEffort
  max_output_tokens : Nat
  timeout_ms : Nat
  deriving DecidableEq

structure CompletionUsage where
  tokens_in : Nat
  tokens_out : Nat
  measured : Bool
  deriving DecidableEq

structure EndpointProfile where
  is_ollama : Bool
  supports_stream_usage : Bool
  deriving DecidableEq

inductive Provider where
  | anthropic (base_url : String)
  | openAi (base_url : String)
  | google (base_url : String)
  | openRouter (base_url : String)
  | openAiCompatible (base_url : String) (profile : EndpointProfile)
  deriving DecidableEq

namespace Provider

def family : Provider → ProviderFamily
  | .anthropic _ => .anthropic
  | .openAi _ => .openAi
  | .google _ => .google
  | .openRouter _ => .openRouter
  | .openAiCompatible .. => .openAiCompatible

def base_url : Provider → String
  | .anthropic base
  | .openAi base
  | .google base
  | .openRouter base
  | .openAiCompatible base _ => base

def path (request : CompletionRequest) : ProviderFamily → String
  | .anthropic => "/v1/messages"
  | .google => s!"/v1beta/models/{request.model}:streamGenerateContent?alt=sse"
  | .openAi => "/v1/chat/completions"
  | .openRouter => "/v1/chat/completions"
  | .openAiCompatible => "/v1/chat/completions"

end Provider

def parseTools (parse : String → Except String Value) (request : CompletionRequest) :
    Except Weather (Option Value) :=
  match request.tools_json with
  | none => .ok none
  | some tools_json =>
    match parse tools_json with
    | .ok tools => .ok (some tools)
    | .error e => .error (.invalidRequest s!"tools_json is not valid JSON: {e}")

def needsMessages (request : CompletionRequest) : Except Weather Unit :=
  if request.messages = [] then
    .error (.invalidRequest "a completion needs at least one message")
  else .ok ()

def refusesReasoning (request : CompletionRequest) : Except Weather Unit :=
  if request.reasoning_effort.isSome then .error (.unsupportedField "reasoning_effort")
  else .ok ()

structure WireConfig where
  base_url : String
  output_cap_field : String
  include_stream_usage : Bool
  supports_reasoning_effort : Bool

def chatRole : MessageRole → String
  | .user => "user"
  | .assistant => "assistant"

def chatMessage (message : ChatMessage) : Value :=
  .object [("role",.string (chatRole message.role)),("content",.string message.content)]

def jsonHeaders : List (String × String) :=
  [("content-type","application/json"),("accept","text/event-stream")]

section
variable (parse : String → Except String Value)

def chatCompletionsPlan (config : WireConfig) (auth : CallAuth) (request : CompletionRequest) :
    Except Weather HttpRequestPlan := do
  needsMessages request
  if request.reasoning_effort.isSome ∧ config.supports_reasoning_effort = false then
    throw (.unsupportedField "reasoning_effort")
  let tools ← parseTools parse request
  return {
    method := .post
    url := config.base_url ++ "/v1/chat/completions"
    headers := jsonHeaders ++ auth.header "authorization" bearer
    body := .json (.object (
      [("model",.string request.model),
        ("messages",.array ((request.system.map fun system =>
          Json.object [("role",.string "system"),("content",.string system)]).toList ++
            request.messages.map chatMessage)),
        ("stream",.bool true),(config.output_cap_field,.number (.posInt request.max_output_tokens))] ++
      (if config.include_stream_usage then
        [("stream_options",.object [("include_usage",.bool true)])] else []) ++
      (request.reasoning_effort.map fun effort =>
        ("reasoning_effort",Json.string effort.asStr)).toList ++
      (tools.map fun tools => ("tools",tools)).toList))
    timeout_ms := request.timeout_ms
    response_bytes_max := none }

def messagesPlan (base_url : String) (auth : CallAuth) (request : CompletionRequest) :
    Except Weather HttpRequestPlan := do
  refusesReasoning request
  needsMessages request
  let tools ← parseTools parse request
  return {
    method := .post
    url := base_url ++ "/v1/messages"
    headers := jsonHeaders ++ [("anthropic-version","2023-06-01")] ++
      auth.header "x-api-key" fun key => key
    body := .json (.object (
      [("model",.string request.model),("max_tokens",.number (.posInt request.max_output_tokens)),
        ("stream",.bool true),("messages",.array (request.messages.map chatMessage))] ++
      (request.system.map fun system => ("system",Json.string system)).toList ++
      (tools.map fun tools => ("tools",tools)).toList))
    timeout_ms := request.timeout_ms
    response_bytes_max := none }

def geminiContent (message : ChatMessage) : Value :=
  .object [("role",.string (match message.role with | .user => "user" | .assistant => "model")),
    ("parts",.array [.object [("text",.string message.content)]])]

def generateContentPlan (base_url : String) (auth : CallAuth) (request : CompletionRequest) :
    Except Weather HttpRequestPlan := do
  refusesReasoning request
  needsMessages request
  let tools ← parseTools parse request
  return {
    method := .post
    url := base_url ++ s!"/v1beta/models/{request.model}:streamGenerateContent?alt=sse"
    headers := jsonHeaders ++ auth.header "x-goog-api-key" fun key => key
    body := .json (.object (
      [("contents",.array (request.messages.map geminiContent)),
        ("generationConfig",.object [("maxOutputTokens",.number (.posInt request.max_output_tokens))])] ++
      (request.system.map fun system =>
        ("systemInstruction",Json.object [("parts",.array [.object [("text",.string system)]])])).toList ++
      (tools.map fun tools => ("tools",tools)).toList))
    timeout_ms := request.timeout_ms
    response_bytes_max := none }

def Provider.plan (auth : CallAuth) (request : CompletionRequest) :
    Provider → Except Weather HttpRequestPlan
  | .anthropic base => messagesPlan parse base auth request
  | .google base => generateContentPlan parse base auth request
  | .openAi base => chatCompletionsPlan parse ⟨base,"max_completion_tokens",true,true⟩ auth request
  | .openRouter base => chatCompletionsPlan parse ⟨base,"max_tokens",true,false⟩ auth request
  | .openAiCompatible base profile =>
    chatCompletionsPlan parse ⟨base,"max_tokens",profile.supports_stream_usage,profile.is_ollama⟩
      auth request

end

def audioSampleRateHz : Nat := 16000
def windowMsMax : Nat := 120000
def windowSampleCountMax : Nat := 120*audioSampleRateHz
def windowMsMin : Nat := 100

def audioMs (sample_count : Nat) : Nat := sample_count*1000/audioSampleRateHz

def checkBounds (sample_count : Nat) : Except Weather Unit :=
  if windowSampleCountMax < sample_count then
    .error (.budgetExhausted "transcribe_window_samples"
      s!"{sample_count} samples exceed the {windowSampleCountMax}-sample window budget ({windowMsMax} ms)")
  else if audioMs sample_count < windowMsMin then
    .error (.invalidRequest
      s!"a {audioMs sample_count} ms window is below the {windowMsMin} ms floor for a model call")
  else .ok ()

structure TranscribeRequest where
  model : String
  language : Option String
  offset_ms : Nat
  samples : List UInt32

structure TranscriptSegment where
  start_ms : Nat
  end_ms : Nat
  text : String
  starts_turn : Bool
  deriving DecidableEq

structure TranscribeUsage where
  audio_ms : Nat
  segment_count : Nat
  measured : Bool
  deriving DecidableEq

inductive Transcriber where
  | whisperLocal (model_name : String)
  | cloudStt (base_url : String) (supports_segments : Bool)
  deriving DecidableEq

def Transcriber.label : Transcriber → String
  | .whisperLocal _ => "whisper-local"
  | .cloudStt .. => "cloud-stt"

def trimSlashes (url : String) : String :=
  String.ofList (url.toList.reverse.dropWhile (· = '/')).reverse

def sttUrl (base_url : String) : String := trimSlashes base_url ++ "/v1/audio/transcriptions"

def noTransport {α : Type} : Except Weather α :=
  .error (.transportUnavailable EndpointLocality.remote.asStr)

def Transcriber.plan (auth : CallAuth) (request : TranscribeRequest) (socket : Option Socket) :
    Transcriber → Except Weather (Option (Socket × HttpRequestPlan))
  | .whisperLocal model_name => do
    checkBounds request.samples.length
    if request.model = model_name then return none
    else throw (.invalidRequest s!"this adapter serves {model_name.quote}; the request routed {request.model.quote}. Loading a second model would double the resident weights")
  | .cloudStt base supports_segments => do
    checkBounds request.samples.length
    match socket with
    | none => noTransport
    | some socket => return some (socket,{
        method := .post
        url := sttUrl base
        headers := ("content-type",
            "multipart/form-data; boundary=projectos-transcribe-boundary-7f3c9a") ::
          auth.header "authorization" bearer
        body := .multipart ([("model",request.model),
            ("response_format",if supports_segments then "verbose_json" else "json")] ++
          (request.language.map fun language => ("language",language)).toList) request.samples
        timeout_ms := 30000 + audioMs request.samples.length / 1000 * 4000
        response_bytes_max := none })

structure EmbedInput where
  context_prefix : Option String
  content : String
  deriving DecidableEq

def EmbedInput.text (input : EmbedInput) : String :=
  match input.context_prefix with
  | some framing => framing ++ "\n\n" ++ input.content
  | none => input.content

structure EmbedRequest where
  model : String
  inputs : List EmbedInput
  enrichment_version : Nat

structure EmbedUsage where
  tokens_in : Nat
  padded_tokens : Nat
  vector_count : Nat
  truncated_count : Nat
  measured : Bool
  deriving DecidableEq

structure Vectors where
  dim : Nat
  rows : List UInt32
  deriving DecidableEq

inductive Embedder where
  | onnxLocal (model_name : String) (dim : Nat)
  | cloudEmbed (base_url model : String) (dim : Nat)
  deriving DecidableEq

def Embedder.label : Embedder → String
  | .onnxLocal .. => "onnx-local"
  | .cloudEmbed .. => "cloud-embed"

def embedUrl (base_url : String) : String := trimSlashes base_url ++ "/v1/embeddings"

def Embedder.plan (auth : CallAuth) (request : EmbedRequest) (socket : Option Socket) :
    Embedder → Except Weather (Option (Socket × HttpRequestPlan))
  | .onnxLocal model_name _ => do
    if socket.isSome then
      throw (.invalidRequest "the local embedder was handed a transport; it never opens a socket")
    if request.model = model_name then return none
    else throw (.invalidRequest s!"this embedder is loaded for {model_name.quote}, not {request.model.quote} — a vector from the wrong model is undetectable downstream")
  | .cloudEmbed base model _ => do
    match socket with
    | none => noTransport
    | some socket =>
      if request.inputs = [] then
        throw (.invalidRequest "an embedding batch with no inputs")
      return some (socket,{
        method := .post
        url := embedUrl base
        headers := ("content-type","application/json") :: auth.header "authorization" bearer
        body := .json (.object [("model",.string model),
          ("input",.array (request.inputs.map fun input => Json.string input.text))])
        timeout_ms := 60000
        response_bytes_max := none })

end ProjectOS.Gateway
