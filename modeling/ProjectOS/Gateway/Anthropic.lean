import ProjectOS.Gateway.Adapter

/-! The stream of the Messages API. -/

namespace ProjectOS.Gateway
open Lib

structure ToolBlock where
  id : String
  name : String
  input_json : String

structure MessagesStream where
  tokens_in : Option Nat
  tokens_out : Option Nat
  output_chars : Nat
  tool_block : Option ToolBlock
  refusal : Option String
  provider_error : Option String
  parse_failure : Option String

namespace MessagesStream

def new : MessagesStream := ⟨none,none,0,none,none,none,none⟩

section
variable (parse : String → Option Value) (render : Value → String) (sink : CompletionSink)

def str (value : Value) (path : List String) : Option String :=
  (value.pointer path).bind Json.asStr

def kind (event : SseEvent) : String := event.event.getD ""

def newBlock (value : Value) : ToolBlock where
  id := (str value ["content_block","id"]).getD ""
  name := (str value ["content_block","name"]).getD ""
  input_json := ""

def blockStart (value : Value) (n : MessagesStream) : MessagesStream :=
  if str value ["content_block","type"] = some "tool_use" then
    { n with tool_block := some (newBlock value) }
  else n

def textOf (value : Value) : Option String :=
  if str value ["delta","type"] = some "text_delta" then
    (str value ["delta","text"]).filter fun text => text ≠ ""
  else none

def fragmentOf (value : Value) : Option String :=
  if str value ["delta","type"] = some "input_json_delta" then str value ["delta","partial_json"]
  else none

def blockDelta (value : Value) (p : Relay.Post MessagesStream CompletionEvent) :
    Relay.Post MessagesStream CompletionEvent :=
  match textOf value with
  | some text =>
    Relay.Post.send sink
      { p with notes := { p.notes with output_chars := p.notes.output_chars + text.length } }
      (.textDelta text)
  | none =>
    match p.notes.tool_block, fragmentOf value with
    | some block, some fragment =>
      { p with notes := { p.notes with
        tool_block := some { block with input_json := block.input_json ++ fragment } } }
    | _, _ => p

def passThrough (block : ToolBlock) : Value :=
  .object [("type",.string "tool_use"),("id",.string block.id),("name",.string block.name),
    ("input_json",.string block.input_json)]

def blockStop (p : Relay.Post MessagesStream CompletionEvent) :
    Relay.Post MessagesStream CompletionEvent :=
  match p.notes.tool_block with
  | none => p
  | some block =>
    Relay.Post.send sink { p with notes := { p.notes with tool_block := none } }
      (.toolCallPassThrough (render (passThrough block)))

def messageDelta (value : Value) (n : MessagesStream) : MessagesStream :=
  let n := match (value.pointer ["usage","output_tokens"]).bind Json.asU64 with
    | some tokens_out => { n with tokens_out := some tokens_out }
    | none => n
  if str value ["delta","stop_reason"] = some "refusal" then
    { n with refusal := some "model declined to answer (stop_reason: refusal)" }
  else n

def providerError (value : Value) : String :=
  truncateReason ((str value ["error","message"]).getD "provider sent an error event")

def consume (p : Relay.Post MessagesStream CompletionEvent) (event : SseEvent) :
    Relay.Post MessagesStream CompletionEvent :=
  match parse event.data with
  | none => { p with notes := { p.notes with parse_failure := some (truncateReason event.data) } }
  | some value =>
    if kind event = "message_start" then
      { p with notes := { p.notes with
        tokens_in := (value.pointer ["message","usage","input_tokens"]).bind Json.asU64 } }
    else if kind event = "content_block_start" then
      { p with notes := blockStart value p.notes }
    else if kind event = "content_block_delta" then blockDelta sink value p
    else if kind event = "content_block_stop" then blockStop render sink p
    else if kind event = "message_delta" then { p with notes := messageDelta value p.notes }
    else if kind event = "error" then
      { p with notes := { p.notes with provider_error := some (providerError value) } }
    else p

def adapter : Adapter MessagesStream where
  consume := consume parse render sink
  oversize notes := { notes with parse_failure := some capReason }

def verdict (input_chars : Nat) (notes : MessagesStream) : Except Weather CompletionUsage :=
  match notes.refusal with
  | some reason => .error (.refusal reason)
  | none =>
    match notes.provider_error with
    | some reason => .error (.transport s!"provider error event: {reason}")
    | none =>
      match notes.parse_failure with
      | some reason => .error (.malformedOutput s!"stream payload did not parse: {reason}")
      | none =>
        match notes.tokens_in, notes.tokens_out with
        | some tokens_in, some tokens_out => .ok ⟨tokens_in,tokens_out,true⟩
        | _, _ => .ok ⟨estimateTokens input_chars,estimateTokens notes.output_chars,false⟩

def payload (name : String) (event : SseEvent) : Option Value :=
  if kind event = name then parse event.data else none

def refuses (event : SseEvent) : Bool :=
  (payload parse "message_delta" event).any fun value =>
    str value ["delta","stop_reason"] = some "refusal"

def errs (event : SseEvent) : Bool := (payload parse "error" event).isSome

def unreadable (event : SseEvent) : Bool := (parse event.data).isNone

def noteDelta (value : Value) (n : MessagesStream) : MessagesStream :=
  match textOf value with
  | some text => { n with output_chars := n.output_chars + text.length }
  | none =>
    match n.tool_block, fragmentOf value with
    | some block, some fragment =>
      { n with tool_block := some { block with input_json := block.input_json ++ fragment } }
    | _, _ => n

def noteValue (event : SseEvent) (n : MessagesStream) (value : Value) : MessagesStream :=
  if kind event = "message_start" then
    { n with tokens_in := (value.pointer ["message","usage","input_tokens"]).bind Json.asU64 }
  else if kind event = "content_block_start" then blockStart value n
  else if kind event = "content_block_delta" then noteDelta value n
  else if kind event = "content_block_stop" then { n with tool_block := none }
  else if kind event = "message_delta" then messageDelta value n
  else if kind event = "error" then { n with provider_error := some (providerError value) }
  else n

def tellValue (event : SseEvent) (n : MessagesStream) (value : Value) : List CompletionEvent :=
  if kind event = "content_block_delta" then (textOf value).toList.map .textDelta
  else if kind event = "content_block_stop" then
    n.tool_block.toList.map fun block => .toolCallPassThrough (render (passThrough block))
  else []

def codec : Relay.Codec MessagesStream SseEvent CompletionEvent where
  note n event := (parse event.data).elim
    { n with parse_failure := some (truncateReason event.data) } (noteValue event n)
  tells n event := (parse event.data).elim [] (tellValue render event n)

theorem blockDelta_eq (value : Value) (p : Relay.Post MessagesStream CompletionEvent) :
    blockDelta sink value p =
      { ((textOf value).toList.map CompletionEvent.textDelta).foldl (Relay.Post.send sink) p with
        notes := noteDelta value p.notes } := by
  rw [blockDelta,noteDelta]
  cases textOf value with
  | some text => rfl
  | none => cases p.notes.tool_block <;> cases fragmentOf value <;> rfl

theorem blockStop_eq (p : Relay.Post MessagesStream CompletionEvent) :
    blockStop render sink p =
      { (p.notes.tool_block.toList.map fun block =>
          CompletionEvent.toolCallPassThrough (render (passThrough block))).foldl
            (Relay.Post.send sink) p with
        notes := { p.notes with tool_block := none } } := by
  obtain ⟨⟨tokens_in,tokens_out,chars,block,refusal,error,failure⟩,heard,closed⟩ := p
  cases block <;> rfl

theorem consume_eq : (adapter parse render sink).consume = (codec parse render).handle sink := by
  funext p event
  rw [Relay.Codec.handle]
  simp only [adapter,consume,codec]
  cases parse event.data with
  | none => rfl
  | some value =>
    simp only [Option.elim_some,noteValue,tellValue,blockDelta_eq,blockStop_eq]
    by_cases hstart : kind event = "message_start"
    · simp [hstart]
    by_cases hblock : kind event = "content_block_start"
    · simp [hblock]
    by_cases hdelta : kind event = "content_block_delta"
    · simp [hdelta]
    by_cases hstop : kind event = "content_block_stop"
    · simp [hstop]
    by_cases hmessage : kind event = "message_delta"
    · simp [hmessage]
    by_cases herror : kind event = "error" <;>
      simp [hstart,hblock,hdelta,hstop,hmessage,herror]

end
end MessagesStream

section
variable (decode : String → Except String Value) (parse : String → Option Value)
  (render : Value → String)

def completeMessages (base_url : String) (auth : CallAuth) (request : CompletionRequest)
    (transport : HttpRequestPlan → Exchange) (sink : CompletionSink) : Completion :=
  match messagesPlan decode base_url auth request with
  | .error weather => ⟨[],.error weather⟩
  | .ok plan =>
    (MessagesStream.adapter parse render sink).answer parse request.timeout_ms
      (MessagesStream.verdict (inputChars request)) .new (transport plan)

end
end ProjectOS.Gateway
