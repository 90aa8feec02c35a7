import ProjectOS.Gateway.Sse
import ProjectOS.Gateway.Transport

/-! What the adapters share: the weather they make of a failed exchange, and the
stream they drain of its events. -/

namespace ProjectOS.Gateway
open Lib

inductive CompletionEvent where
  | textDelta (text : String)
  | toolCallPassThrough (json : String)
  deriving DecidableEq

abbrev CompletionSink := Relay.Listener CompletionEvent

def errorBodyBytesMax : Nat := 64*1024
def errorReasonCharsMax : Nat := 256
def estimateCharsPerToken : Nat := 4

def knownRejectableFields : List String :=
  ["stream_options","max_completion_tokens","reasoning_effort","tools","system"]

def estimateTokens (chars : Nat) : Nat := (chars+estimateCharsPerToken-1)/estimateCharsPerToken

def truncateReason (text : String) : String :=
  let reason := String.ofList (text.toList.take errorReasonCharsMax)
  if errorReasonCharsMax < text.length then reason ++ "…" else reason

def weatherFromTransport (error : TransportError) (timeout_ms : Nat) : Weather :=
  match error with
  | .timeout _ => .timeout timeout_ms
  | other => .transport other.text

def retryAfterMs (head : HttpHead) : Option Nat :=
  ((head.header "retry-after").bind fun value => fromStrRadix 10 u32Max (trim value.toList)).map
    fun seconds => min (seconds*1000) u32Max

section
variable (parse : String → Option Value)

def providerErrorMessage (body : String) : Option String := do
  let value ← parse body
  let error ← value.get "error"
  let message ← error.get "message"
  message.asStr

def rejectedParam (body : String) : Option String := do
  let value ← parse body
  let error ← value.get "error"
  let param ← error.get "param"
  let text ← param.asStr
  if text = "" then none else some text

def rejectedField (body : String) : Option String :=
  (rejectedParam parse body).or
    (knownRejectableFields.find? fun field => decide (field.toList <:+: body.toList))

def weatherFromStatus (head : HttpHead) (error_body : Bytes) : Weather :=
  let body_text := fromUtf8Lossy error_body
  let message := (providerErrorMessage parse body_text).getD
    (truncateReason (String.ofList (trim body_text.toList)))
  let answer := s!"HTTP {head.status}: {truncateReason message}"
  if head.status = 401 ∨ head.status = 403 then .authRejected head.status
  else if head.status = 429 then .rateLimited (retryAfterMs head)
  else if head.status = 400 ∨ head.status = 404 ∨ head.status = 422 then
    match rejectedField parse body_text with
    | some field => .unsupportedField field
    | none => .malformedOutput answer
  else if 500 ≤ head.status then .transport answer
  else .malformedOutput answer

end

def pushBounded (body chunk : Bytes) : Bytes := body ++ chunk.take (errorBodyBytesMax-body.length)

def inputChars (request : CompletionRequest) : Nat :=
  (request.messages.map fun message => message.content.length).sum +
    request.system.elim 0 String.length

def capReason : String := "SSE event exceeded the size cap"

structure Adapter (τ : Type) where
  consume : Relay.Post τ CompletionEvent → SseEvent → Relay.Post τ CompletionEvent
  oversize : τ → τ

/-- The parse state of one response. The buffer of completed events is empty
between chunks. -/
structure Stream (τ : Type) where
  head : Option HttpHead
  error_body : Bytes
  decoder : SseDecoder
  post : Relay.Post τ CompletionEvent

namespace Stream
variable {τ : Type}

def new (notes : τ) : Stream τ := ⟨none,[],.new,⟨notes,[],false⟩⟩

def isSuccess (s : Stream τ) : Bool := s.head.any fun head => head.status < 300

def onHead (s : Stream τ) (head : HttpHead) : Stream τ × Bool := ({ s with head := some head },false)

def onChunk (A : Adapter τ) (s : Stream τ) (chunk : Bytes) : Stream τ × Bool :=
  if s.isSuccess = false then ({ s with error_body := pushBounded s.error_body chunk },false)
  else
    match s.decoder.feed chunk with
    | (_,.error _) => ({ s with post := { s.post with notes := A.oversize s.post.notes } },true)
    | (completed,.ok decoder) =>
      let drained := Relay.drain A.consume s.post completed
      ({ s with decoder, post := drained.1 },drained.2)

def handler (A : Adapter τ) : ResponseHandler (Stream τ) := ⟨onHead,onChunk A⟩

def settle (parse : String → Option Value) (timeout_ms : Nat)
    (verdict : τ → Except Weather CompletionUsage) (s : Stream τ)
    (outcome : Except TransportError Unit) : Except Weather CompletionUsage :=
  match outcome with
  | .ok () | .error .aborted =>
    match s.head with
    | none => .error (.transport "transport returned without a response head")
    | some head =>
      if 300 ≤ head.status then .error (weatherFromStatus parse head s.error_body)
      else verdict s.post.notes
  | .error error => .error (weatherFromTransport error timeout_ms)

end Stream

/-- The events the sink was sent, the last perhaps refused, and the usage or the
weather. -/
structure Completion where
  sent : List CompletionEvent
  result : Except Weather CompletionUsage

def Adapter.answer {τ : Type} (A : Adapter τ) (parse : String → Option Value) (timeout_ms : Nat)
    (verdict : τ → Except Weather CompletionUsage) (notes : τ) (exchange : Exchange) : Completion :=
  let (stream,outcome) := (Stream.handler A).execute (.new notes) exchange
  ⟨stream.post.heard,stream.settle parse timeout_ms verdict outcome⟩

section
variable {τ : Type} {A : Adapter τ} (chunks : List Bytes) {s : Stream τ}

theorem chunks_success (hs : s.isSuccess = true) :
    ∃ s', (Stream.handler A).chunks s chunks =
        (s',(Relay.run SseDecoder.push A.consume A.oversize s.decoder s.post chunks).2) ∧
      s'.head = s.head ∧
      s'.post = (Relay.run SseDecoder.push A.consume A.oversize s.decoder s.post chunks).1 := by
  induction chunks generalizing s with
  | nil => exact ⟨s,rfl,rfl,rfl⟩
  | cons chunk chunks ih =>
    rw [ResponseHandler.chunks,Relay.run,Relay.piece]
    simp only [Stream.handler,Stream.onChunk,hs,Bool.true_eq_false,if_false,SseDecoder.feed]
    rcases Relay.feed SseDecoder.push s.decoder chunk with ⟨completed,_ | decoder⟩
    · exact ⟨_,rfl,rfl,rfl⟩
    · rcases hdrain : Relay.drain A.consume s.post completed with ⟨post,_ | _⟩
      · obtain ⟨s',hrun,hhead,hpost⟩ := ih (s := { s with decoder, post }) hs
        simp only [hdrain]
        exact ⟨s',hrun,hhead,hpost⟩
      · simp only [hdrain]
        exact ⟨_,rfl,rfl,rfl⟩

theorem chunks_failure (hs : s.isSuccess = false) :
    (Stream.handler A).chunks s chunks =
      ({ s with error_body := chunks.foldl pushBounded s.error_body },false) := by
  induction chunks generalizing s with
  | nil => rfl
  | cons chunk chunks ih =>
    rw [ResponseHandler.chunks]
    simp only [Stream.handler,Stream.onChunk,hs,if_true]
    exact ih hs

theorem foldl_pushBounded (body : Bytes) :
    chunks.foldl pushBounded (body.take errorBodyBytesMax) =
      (body ++ chunks.flatten).take errorBodyBytesMax := by
  induction chunks generalizing body with
  | nil => simp
  | cons chunk chunks ih =>
    have hpush : pushBounded (body.take errorBodyBytesMax) chunk =
        (body ++ chunk).take errorBodyBytesMax := by
      rw [pushBounded,List.take_append,List.length_take]
      congr 2
      omega
    rw [List.foldl_cons,hpush,ih,List.flatten_cons,List.append_assoc]

def conclude (timeout_ms : Nat) (outcome : Except TransportError Unit)
    (verdict : Except Weather CompletionUsage) : Except Weather CompletionUsage :=
  match outcome with
  | .ok () | .error .aborted => verdict
  | .error error => .error (weatherFromTransport error timeout_ms)

variable {parse : String → Option Value} {timeout_ms : Nat}
  {verdict : τ → Except Weather CompletionUsage} {notes : τ} {head : HttpHead}

theorem settle_head (hhead : s.head = some head) (outcome : Except TransportError Unit) :
    s.settle parse timeout_ms verdict outcome = conclude timeout_ms outcome
      (if 300 ≤ head.status then .error (weatherFromStatus parse head s.error_body)
      else verdict s.post.notes) := by
  cases outcome with
  | ok _ => simp [Stream.settle,conclude,hhead]
  | error e => cases e <;> simp [Stream.settle,conclude,hhead]

theorem answer_success (hstatus : head.status < 300) (chunks : List Bytes)
    (ending : Except TransportError Unit) :
    A.answer parse timeout_ms verdict notes (.answered head chunks ending) =
      let r := Relay.run SseDecoder.push A.consume A.oversize .new ⟨notes,[],false⟩ chunks
      ⟨r.1.heard,conclude timeout_ms (if r.2 then .ok () else ending) (verdict r.1.notes)⟩ := by
  have hsuccess : ({ Stream.new notes with head := some head } : Stream τ).isSuccess = true := by
    simp [Stream.isSuccess,hstatus]
  obtain ⟨s',hrun,hhead,hpost⟩ := chunks_success (A := A) chunks hsuccess
  have hnew : (Stream.handler A).onHead (.new notes) head =
      ({ Stream.new notes with head := some head },false) := rfl
  rw [Adapter.answer,ResponseHandler.execute,hnew]
  simp only [hrun]
  have hopen : ¬300 ≤ head.status := by omega
  cases hstop : (Relay.run SseDecoder.push A.consume A.oversize .new ⟨notes,[],false⟩ chunks).2 <;>
    simp only [Stream.new] at hstop hpost <;>
    simp [Stream.new,hstop,settle_head hhead,hpost,hopen,conclude]

theorem answer_failure (hstatus : 300 ≤ head.status) (chunks : List Bytes)
    (ending : Except TransportError Unit) :
    A.answer parse timeout_ms verdict notes (.answered head chunks ending) =
      ⟨[],conclude timeout_ms ending
        (.error (weatherFromStatus parse head (chunks.flatten.take errorBodyBytesMax)))⟩ := by
  have hsuccess : ({ Stream.new notes with head := some head } : Stream τ).isSuccess = false := by
    simp [Stream.isSuccess,hstatus]
  have hnew : (Stream.handler A).onHead (.new notes) head =
      ({ Stream.new notes with head := some head },false) := rfl
  rw [Adapter.answer,ResponseHandler.execute,hnew]
  simp only [chunks_failure chunks hsuccess]
  rw [settle_head rfl,if_pos hstatus]
  have hbody := foldl_pushBounded chunks []
  rw [List.take_nil,List.nil_append] at hbody
  simp [Stream.new,hbody]

end
end ProjectOS.Gateway
