import ProjectOS.Gateway.Adapter

/-! The stream of the chat-completions wire. -/

namespace ProjectOS.Gateway
open Lib

structure WireStream where
  usage : Option (Nat × Nat)
  output_chars : Nat
  finish_refusal : Option String
  parse_failure : Option String

namespace WireStream

def new : WireStream := ⟨none,0,none,none⟩

section
variable (parse : String → Option Value) (render : Value → String) (sink : CompletionSink)

def isDone (data : String) : Bool := trim data.toList = "[DONE]".toList

def usageOf (value : Value) : Option (Nat × Nat) := do
  let usage ← (value.get "usage").filter fun usage => !usage.isNull
  let tokens_in ← (usage.get "prompt_tokens").bind Json.asU64
  let tokens_out ← (usage.get "completion_tokens").bind Json.asU64
  return (tokens_in,tokens_out)

def firstChoice (value : Value) : Option Value :=
  ((value.get "choices").bind Json.asArray).bind List.head?

def isFiltered (choice : Value) : Bool :=
  (choice.get "finish_reason").bind Json.asStr = some "content_filter"

def textOf (delta : Value) : Option String :=
  ((delta.get "content").bind Json.asStr).filter fun text => text ≠ ""

def toolCallsOf (delta : Value) : Option Value :=
  (delta.get "tool_calls").filter fun calls => !calls.isNull

def takeUsage (value : Value) (p : Relay.Post WireStream CompletionEvent) :
    Relay.Post WireStream CompletionEvent :=
  match usageOf value with
  | some usage => { p with notes := { p.notes with usage := some usage } }
  | none => p

def takeFinish (choice : Value) (p : Relay.Post WireStream CompletionEvent) :
    Relay.Post WireStream CompletionEvent :=
  if isFiltered choice then
    { p with notes := { p.notes with
      finish_refusal := some "provider content filter ended the response" } }
  else p

def takeText (delta : Value) (p : Relay.Post WireStream CompletionEvent) :
    Relay.Post WireStream CompletionEvent :=
  match textOf delta with
  | some text =>
    Relay.Post.send sink
      { p with notes := { p.notes with output_chars := p.notes.output_chars + text.length } }
      (.textDelta text)
  | none => p

def takeToolCalls (delta : Value) (p : Relay.Post WireStream CompletionEvent) :
    Relay.Post WireStream CompletionEvent :=
  match toolCallsOf delta with
  | some tool_calls => Relay.Post.send sink p (.toolCallPassThrough (render tool_calls))
  | none => p

def consumeData (p : Relay.Post WireStream CompletionEvent) (data : String) :
    Relay.Post WireStream CompletionEvent :=
  if isDone data then p
  else
    match parse data with
    | none => { p with notes := { p.notes with parse_failure := some (truncateReason data) } }
    | some value =>
      let p := takeUsage value p
      match firstChoice value with
      | none => p
      | some choice =>
        let p := takeFinish choice p
        match choice.get "delta" with
        | none => p
        | some delta => takeToolCalls render sink delta (takeText sink delta p)

def adapter : Adapter WireStream where
  consume p event := consumeData parse render sink p event.data
  oversize notes := { notes with parse_failure := some capReason }

def verdict (input_chars : Nat) (notes : WireStream) : Except Weather CompletionUsage :=
  match notes.finish_refusal with
  | some reason => .error (.refusal reason)
  | none =>
    match notes.parse_failure with
    | some reason => .error (.malformedOutput s!"stream payload did not parse: {reason}")
    | none =>
      match notes.usage with
      | some (tokens_in,tokens_out) => .ok ⟨tokens_in,tokens_out,true⟩
      | none => .ok ⟨estimateTokens input_chars,estimateTokens notes.output_chars,false⟩

def choiceOf (data : String) : Option Value :=
  if isDone data then none else (parse data).bind firstChoice

def deltaOf (data : String) : Option Value := (choiceOf parse data).bind fun choice => choice.get "delta"

def refuses (event : SseEvent) : Bool := (choiceOf parse event.data).any isFiltered

def unreadable (event : SseEvent) : Bool := !isDone event.data && (parse event.data).isNone

theorem takeUsage_eq (value : Value) (p : Relay.Post WireStream CompletionEvent) :
    takeUsage value p =
      { p with notes := { p.notes with usage := (usageOf value).or p.notes.usage } } := by
  rw [takeUsage]
  cases usageOf value <;> rfl

theorem takeFinish_eq (choice : Value) (p : Relay.Post WireStream CompletionEvent) :
    takeFinish choice p = { p with notes := { p.notes with
      finish_refusal :=
        if isFiltered choice then some "provider content filter ended the response"
        else p.notes.finish_refusal } } := by
  rw [takeFinish]
  split_ifs <;> rfl

def deltaTells (delta : Value) : List CompletionEvent :=
  (textOf delta).toList.map .textDelta ++
    (toolCallsOf delta).toList.map fun calls => .toolCallPassThrough (render calls)

theorem takeDelta_eq (delta : Value) (p : Relay.Post WireStream CompletionEvent) :
    takeToolCalls render sink delta (takeText sink delta p) =
      { (deltaTells render delta).foldl (Relay.Post.send sink) p with notes := { p.notes with
        output_chars := p.notes.output_chars + (textOf delta).elim 0 String.length } } := by
  rw [takeToolCalls,takeText,deltaTells]
  cases textOf delta <;> cases toolCallsOf delta <;> rfl

def codec : Relay.Codec WireStream SseEvent CompletionEvent where
  note notes event := {
    usage := (if isDone event.data then none else (parse event.data).bind usageOf).or notes.usage
    output_chars := notes.output_chars +
      ((deltaOf parse event.data).bind textOf).elim 0 String.length
    finish_refusal :=
      if refuses parse event then some "provider content filter ended the response"
      else notes.finish_refusal
    parse_failure :=
      if unreadable parse event then some (truncateReason event.data) else notes.parse_failure }
  tells _ event := (deltaOf parse event.data).elim [] (deltaTells render)

theorem consume_eq : (adapter parse render sink).consume = (codec parse render).handle sink := by
  funext p event
  rw [Relay.Codec.handle]
  simp only [adapter,consumeData,codec,refuses,unreadable,deltaOf,choiceOf]
  by_cases hdone : isDone event.data = true
  · simp [hdone]
  · rcases Option.eq_none_or_eq_some (parse event.data) with hnone | ⟨value,hsome⟩
    · simp [hdone,hnone]
    · cases hchoice : firstChoice value with
      | none => simp [hdone,hsome,hchoice,takeUsage_eq]
      | some choice =>
        cases hdelta : choice.get "delta" with
        | none => simp [hdone,hsome,hchoice,hdelta,takeUsage_eq,takeFinish_eq]
        | some delta =>
          simp [hdone,hsome,hchoice,hdelta,takeUsage_eq,takeFinish_eq,takeDelta_eq,
            Relay.foldl_send]

end
end WireStream

section
variable (decode : String → Except String Value) (parse : String → Option Value)
  (render : Value → String)

def completeOverWire (config : WireConfig) (auth : CallAuth) (request : CompletionRequest)
    (transport : HttpRequestPlan → Exchange) (sink : CompletionSink) : Completion :=
  match chatCompletionsPlan decode config auth request with
  | .error weather => ⟨[],.error weather⟩
  | .ok plan =>
    (WireStream.adapter parse render sink).answer parse request.timeout_ms
      (WireStream.verdict (inputChars request)) .new (transport plan)

end
end ProjectOS.Gateway
