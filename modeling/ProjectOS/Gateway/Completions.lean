import ProjectOS.Gateway.Streams

/-! What a completion over either wire is worth: on which bodies the cuts between
the chunks decide it, and when one that stopped short goes for whole. -/

namespace ProjectOS.Gateway
open Lib

namespace WireStream
variable (parse : String → Option Value) (render : Value → String) (sink : CompletionSink)

def faulty (event : SseEvent) : Bool :=
  !isDone event.data &&
    (((parse event.data).bind fun value => value.get "error").any fun error => !error.isNull)

theorem reads (input_chars : Nat) :
    Reads (adapter parse render sink) (codec parse render) sink (verdict input_chars)
      fun n => n.finish_refusal.isSome = true where
  consume := consume_eq parse render sink
  capped n h := by
    rw [Option.not_isSome_iff_eq_none] at h
    simp [adapter,verdict,h,capWeather]
  other n h := by
    obtain ⟨reason,hreason⟩ := Option.isSome_iff_exists.mp h
    exact ⟨.refusal reason,by simp [adapter,verdict,hreason],by simp [capWeather]⟩
  kept n event h := by
    simp only [codec]
    split_ifs
    · rfl
    · exact h

theorem notes_refusal (n : WireStream) (events : List SseEvent) :
    ((codec parse render).notes n events).finish_refusal.isSome = true ↔
      n.finish_refusal.isSome = true ∨ ∃ event ∈ events, refuses parse event = true := by
  induction events generalizing n with
  | nil => simp
  | cons event events ih =>
    rw [Relay.Codec.notes_cons,ih]
    cases hrefuses : refuses parse event <;> simp [codec,hrefuses]

theorem notes_failure (n : WireStream) (events : List SseEvent) :
    ((codec parse render).notes n events).parse_failure.isSome = true ↔
      n.parse_failure.isSome = true ∨ ∃ event ∈ events, unreadable parse event = true := by
  induction events generalizing n with
  | nil => simp
  | cons event events ih =>
    rw [Relay.Codec.notes_cons,ih]
    cases hunreadable : unreadable parse event <;> simp [codec,hunreadable]

theorem isOk_verdict (input_chars : Nat) (n : WireStream) :
    (verdict input_chars n).isOk = true ↔
      ¬n.finish_refusal.isSome = true ∧ ¬n.parse_failure.isSome = true := by
  rw [verdict]
  cases n.finish_refusal <;> cases n.parse_failure <;> rcases n.usage with _ | ⟨a,b⟩ <;>
    simp [Except.isOk,Except.toBool]

end WireStream

namespace MessagesStream
variable (parse : String → Option Value) (render : Value → String) (sink : CompletionSink)

def Grave (n : MessagesStream) : Prop := n.refusal.isSome = true ∨ n.provider_error.isSome = true

variable (value : Value) (n : MessagesStream)

theorem noteDelta_flags :
    (noteDelta value n).refusal = n.refusal ∧
      (noteDelta value n).provider_error = n.provider_error ∧
      (noteDelta value n).parse_failure = n.parse_failure := by
  rw [noteDelta]
  cases textOf value with
  | some text => simp
  | none => cases n.tool_block <;> cases fragmentOf value <;> simp

theorem blockStart_flags :
    (blockStart value n).refusal = n.refusal ∧
      (blockStart value n).provider_error = n.provider_error ∧
      (blockStart value n).parse_failure = n.parse_failure := by
  rw [blockStart]
  split_ifs <;> simp

theorem messageDelta_flags :
    ((messageDelta value n).refusal.isSome = true ↔
        n.refusal.isSome = true ∨ str value ["delta","stop_reason"] = some "refusal") ∧
      (messageDelta value n).provider_error = n.provider_error ∧
      (messageDelta value n).parse_failure = n.parse_failure := by
  rw [messageDelta]
  cases (value.pointer ["usage","output_tokens"]).bind Json.asU64 <;> simp only <;>
    split_ifs with h <;> simp [h]

theorem note_flags (event : SseEvent) :
    (((codec parse render).note n event).refusal.isSome = true ↔
        n.refusal.isSome = true ∨ refuses parse event = true) ∧
      (((codec parse render).note n event).provider_error.isSome = true ↔
        n.provider_error.isSome = true ∨ errs parse event = true) ∧
      (((codec parse render).note n event).parse_failure.isSome = true ↔
        n.parse_failure.isSome = true ∨ unreadable parse event = true) := by
  simp only [codec,refuses,errs,unreadable,payload]
  rcases Option.eq_none_or_eq_some (parse event.data) with hnone | ⟨value,hsome⟩
  · simp [hnone]
  · simp only [hsome,Option.elim_some,noteValue]
    by_cases hstart : kind event = "message_start"
    · simp [hstart]
    by_cases hblock : kind event = "content_block_start"
    · simp [hblock,blockStart_flags]
    by_cases hdelta : kind event = "content_block_delta"
    · simp [hdelta,noteDelta_flags]
    by_cases hstop : kind event = "content_block_stop"
    · simp [hstop]
    by_cases hmessage : kind event = "message_delta"
    · simp [hmessage,messageDelta_flags]
    by_cases herror : kind event = "error" <;>
      simp [hstart,hblock,hdelta,hstop,hmessage,herror]

theorem notes_flags (events : List SseEvent) :
    (((codec parse render).notes n events).refusal.isSome = true ↔
        n.refusal.isSome = true ∨ ∃ event ∈ events, refuses parse event = true) ∧
      (((codec parse render).notes n events).provider_error.isSome = true ↔
        n.provider_error.isSome = true ∨ ∃ event ∈ events, errs parse event = true) ∧
      (((codec parse render).notes n events).parse_failure.isSome = true ↔
        n.parse_failure.isSome = true ∨ ∃ event ∈ events, unreadable parse event = true) := by
  induction events generalizing n with
  | nil => simp
  | cons event events ih =>
    obtain ⟨hrefusal,herror,hfailure⟩ := note_flags parse render n event
    obtain ⟨ihrefusal,iherror,ihfailure⟩ := ih ((codec parse render).note n event)
    simp only [Relay.Codec.notes_cons,ihrefusal,iherror,ihfailure,hrefusal,herror,hfailure,
      List.exists_mem_cons_iff,or_assoc,and_self]

theorem reads (input_chars : Nat) :
    Reads (adapter parse render sink) (codec parse render) sink (verdict input_chars) Grave where
  consume := consume_eq parse render sink
  capped n h := by
    simp only [Grave,not_or,Option.not_isSome_iff_eq_none] at h
    simp [adapter,verdict,h.1,h.2,capWeather]
  other n h := by
    cases hrefusal : n.refusal with
    | some reason => exact ⟨.refusal reason,by simp [adapter,verdict,hrefusal],by simp [capWeather]⟩
    | none =>
      obtain ⟨reason,hreason⟩ := Option.isSome_iff_exists.mp
        (h.resolve_left (by simp [hrefusal]))
      exact ⟨.transport s!"provider error event: {reason}",
        by simp [adapter,verdict,hrefusal,hreason],by simp [capWeather]⟩
  kept n event h := by
    obtain ⟨hrefusal,herror,-⟩ := note_flags parse render n event
    exact h.imp (fun h => hrefusal.mpr (.inl h)) (fun h => herror.mpr (.inl h))

theorem isOk_verdict (input_chars : Nat) (n : MessagesStream) :
    (verdict input_chars n).isOk = true ↔ ¬Grave n ∧ ¬n.parse_failure.isSome = true := by
  rw [verdict,Grave]
  cases n.refusal <;> cases n.provider_error <;> cases n.parse_failure <;>
    cases n.tokens_in <;> cases n.tokens_out <;> simp [Except.isOk,Except.toBool]

end MessagesStream

inductive Wire where
  | chatCompletions (config : WireConfig)
  | messages (base_url : String)

namespace Wire
variable (decode : String → Except String Value) (parse : String → Option Value)
  (render : Value → String)

def plan (auth : CallAuth) (request : CompletionRequest) : Wire → Except Weather HttpRequestPlan
  | .chatCompletions config => chatCompletionsPlan decode config auth request
  | .messages base_url => messagesPlan decode base_url auth request

def complete (auth : CallAuth) (request : CompletionRequest)
    (transport : HttpRequestPlan → Exchange) (sink : CompletionSink) : Wire → Completion
  | .chatCompletions config => completeOverWire decode parse render config auth request transport sink
  | .messages base_url => completeMessages decode parse render base_url auth request transport sink

def transcript (events : List SseEvent) : Wire → List CompletionEvent
  | .chatCompletions _ => (WireStream.codec parse render).transcript .new events
  | .messages _ => (MessagesStream.codec parse render).transcript .new events

def unreadable (event : SseEvent) : Wire → Bool
  | .chatCompletions _ => WireStream.unreadable parse event
  | .messages _ => MessagesStream.unreadable parse event

def refuses (event : SseEvent) : Wire → Bool
  | .chatCompletions _ => WireStream.refuses parse event
  | .messages _ => MessagesStream.refuses parse event || MessagesStream.errs parse event

def terminal (event : SseEvent) : Wire → Bool
  | .chatCompletions _ => WireStream.isDone event.data
  | .messages _ => MessagesStream.kind event = "message_stop"

def faulty (event : SseEvent) : Wire → Bool
  | .chatCompletions _ => WireStream.faulty parse event
  | .messages _ => MessagesStream.kind event = "error"

section
variable {decode parse render} (w : Wire) {auth : CallAuth} {request : CompletionRequest}
  {sink : CompletionSink}

theorem complete_refused {transport : HttpRequestPlan → Exchange} {weather : Weather}
    (h : w.plan decode auth request = .error weather) :
    w.complete decode parse render auth request transport sink = ⟨[],.error weather⟩ := by
  cases w <;> simp only [plan] at h <;> simp only [complete,completeOverWire,completeMessages,h]

theorem agree_iff {plan : HttpRequestPlan} (hplan : w.plan decode auth request = .ok plan)
    (head : HttpHead) (ending : Except TransportError Unit) (body : Bytes) :
    (∀ cuts cuts' : List Bytes, cuts.flatten = body → cuts'.flatten = body →
        w.complete decode parse render auth request (fun _ => .answered head cuts ending) sink =
          w.complete decode parse render auth request (fun _ => .answered head cuts' ending) sink) ↔
      ¬(head.status < 300 ∧ Oversize body ∧ (w.transcript parse render (eventsOf body) ≠ [] ∨
        ∃ event ∈ eventsOf body, w.refuses parse event = true)) := by
  by_cases hwhole : 300 ≤ head.status ∨ ¬Oversize body
  · refine iff_of_true ?_ fun h => hwhole.elim (by omega) (fun hnot => hnot h.2.1)
    cases w <;> simp only [Wire.plan] at hplan <;>
      simp only [complete,completeOverWire,completeMessages,hplan] <;>
      exact cutsAgree_of_whole ending hwhole
  · rw [not_or,not_le,not_not] at hwhole
    simp only [hwhole.1,hwhole.2,true_and,not_or,not_not]
    cases w with
    | chatCompletions config =>
      simp only [Wire.plan] at hplan
      simp only [complete,completeOverWire,hplan]
      refine (cutsAgree_oversize_iff (WireStream.reads parse render sink _)
        (by simp [WireStream.new]) hwhole.1 ending hwhole.2).trans ?_
      rw [Uneventful,WireStream.notes_refusal]
      simp [transcript,refuses,WireStream.new]
    | messages base_url =>
      simp only [Wire.plan] at hplan
      simp only [complete,completeMessages,hplan]
      refine (cutsAgree_oversize_iff (MessagesStream.reads parse render sink _)
        (by simp [MessagesStream.Grave,MessagesStream.new]) hwhole.1 ending hwhole.2).trans ?_
      obtain ⟨hrefusal,herror,-⟩ := MessagesStream.notes_flags parse render .new (eventsOf body)
      rw [Uneventful,MessagesStream.Grave,hrefusal,herror]
      simp [transcript,refuses,MessagesStream.new,not_or,forall_and]

variable (parse render sink) in
theorem ok_open_iff {plan : HttpRequestPlan} (hplan : w.plan decode auth request = .ok plan)
    (head : HttpHead) (chunks : List Bytes) (ending : Except TransportError Unit) :
    let c := w.complete decode parse render auth request (fun _ => .answered head chunks ending) sink
    (c.result.isOk = true ∧ ¬Relay.HungUp sink c.sent) ↔
      head.status < 300 ∧ Ended ending ∧ ¬Oversize chunks.flatten ∧
        Relay.takes sink [] (w.transcript parse render (eventsOf chunks.flatten)) = true ∧
        ∀ event ∈ eventsOf chunks.flatten,
          w.unreadable parse event = false ∧ w.refuses parse event = false := by
  cases w with
  | chatCompletions config =>
    simp only [Wire.plan] at hplan
    simp only [complete,completeOverWire,hplan]
    refine (answer_ok_iff (WireStream.reads parse render sink _) chunks ending).trans ?_
    rw [WireStream.isOk_verdict,WireStream.notes_refusal,WireStream.notes_failure]
    simp [transcript,unreadable,refuses,WireStream.new,forall_and,and_comm]
  | messages base_url =>
    simp only [Wire.plan] at hplan
    simp only [complete,completeMessages,hplan]
    obtain ⟨hrefusal,herror,hfailure⟩ :=
      MessagesStream.notes_flags parse render .new (eventsOf chunks.flatten)
    refine (answer_ok_iff (MessagesStream.reads parse render sink _) chunks ending).trans ?_
    rw [MessagesStream.isOk_verdict,MessagesStream.Grave,hrefusal,herror,hfailure]
    simp [transcript,unreadable,refuses,MessagesStream.new,forall_and,not_or,and_comm]

end

def Torn (auth : CallAuth) (request : CompletionRequest) (head : HttpHead) (body : Bytes)
    (w : Wire) : Prop :=
  (w.plan decode auth request).isOk = true ∧ head.status < 300 ∧ Oversize body ∧
    (w.transcript parse render (eventsOf body) ≠ [] ∨
      ∃ event ∈ eventsOf body, w.refuses parse event = true)

/-- Two ways of cutting a body into chunks come to the same but for a torn one: there
the events completed in the chunk of the oversize event are lost, and those of the chunks
before are not. -/
theorem same_by_every_cut_iff (w : Wire) (auth : CallAuth) (request : CompletionRequest)
    (sink : CompletionSink) (head : HttpHead) (ending : Except TransportError Unit)
    (body : Bytes) :
    (∀ cuts cuts' : List Bytes, cuts.flatten = body → cuts'.flatten = body →
        w.complete decode parse render auth request (fun _ => .answered head cuts ending) sink =
          w.complete decode parse render auth request (fun _ => .answered head cuts' ending) sink) ↔
      ¬w.Torn decode parse render auth request head body := by
  rw [Torn]
  cases hplan : w.plan decode auth request with
  | error weather => simp [w.complete_refused hplan,Except.isOk,Except.toBool]
  | ok plan => simp [w.agree_iff hplan,Except.isOk,Except.toBool]

def Completed (events : List SseEvent) (w : Wire) : Prop :=
  (∃ event ∈ events, w.terminal event = true) ∧ ∀ event ∈ events, w.faulty parse event = false

def ReportsTruly (auth : CallAuth) (request : CompletionRequest) (sink : CompletionSink)
    (head : HttpHead) (chunks : List Bytes) (ending : Except TransportError Unit) (w : Wire) : Prop :=
  let c := w.complete decode parse render auth request (fun _ => .answered head chunks ending) sink
  c.result.isOk = true →
    w.Completed parse (eventsOf chunks.flatten) ∨ Relay.HungUp sink c.sent

/-- A stream that goes for whole without being it: readable and taken to its end,
but without its marker or with an error payload. -/
def PassesForWhole (auth : CallAuth) (request : CompletionRequest) (sink : CompletionSink)
    (head : HttpHead) (body : Bytes) (ended : Prop) (w : Wire) : Prop :=
  (w.plan decode auth request).isOk = true ∧ head.status < 300 ∧ ended ∧ ¬Oversize body ∧
    Relay.takes sink [] (w.transcript parse render (eventsOf body)) = true ∧
    (∀ event ∈ eventsOf body, w.unreadable parse event = false ∧ w.refuses parse event = false) ∧
    ¬w.Completed parse (eventsOf body)

/-- An adapter reports truly of every stream but those; and a connection of the
loopback transport brings one exactly where its framing lets it end. -/
theorem reports_truly_iff (w : Wire) (auth : CallAuth) (request : CompletionRequest)
    (sink : CompletionSink) (head : HttpHead) :
    (∀ (chunks : List Bytes) (ending : Except TransportError Unit),
      w.ReportsTruly decode parse render auth request sink head chunks ending ↔
        ¬w.PassesForWhole decode parse render auth request sink head chunks.flatten
          (Ended ending)) ∧
      ∀ (timeout_ms : Nat) (conn : Conn),
        let body := streamBody timeout_ms head conn
        w.ReportsTruly decode parse render auth request sink head body.1 body.2 ↔
          ¬w.PassesForWhole decode parse render auth request sink head body.1.flatten
            (conn.Framed timeout_ms head) := by
  have hall : ∀ (chunks : List Bytes) (ending : Except TransportError Unit),
      w.ReportsTruly decode parse render auth request sink head chunks ending ↔
        ¬w.PassesForWhole decode parse render auth request sink head chunks.flatten
          (Ended ending) := by
    intro chunks ending
    rw [ReportsTruly,PassesForWhole]
    cases hplan : w.plan decode auth request with
    | error weather => simp [w.complete_refused hplan,Except.isOk,Except.toBool]
    | ok plan =>
      have hopen := w.ok_open_iff parse render sink hplan head chunks ending
      simp only [Except.isOk,Except.toBool,true_and] at hopen ⊢
      tauto
  refine ⟨hall,fun timeout_ms conn => ?_⟩
  intro body
  rw [hall,PassesForWhole,PassesForWhole,streamBody_ended_iff]

def demoConfig : WireConfig := ⟨"http://localhost:11434","max_tokens",false,false⟩

def demoRequest : CompletionRequest :=
  ⟨"llama-test",none,[⟨.user,"Hello?"⟩],none,none,16,2000⟩

def demoData : String :=
  "\x7b\"choices\":[\x7b\"delta\":\x7b\"content\":\"Hi\"\x7d\x7d]\x7d"

def demoParse (text : String) : Option Value :=
  if text = demoData then
    some (.object [("choices",.array [.object [("delta",.object [("content",.string "Hi")])]])])
  else none

def demoBytes (text : String) : Bytes := text.toList.map fun c => UInt8.ofNat c.toNat

def demoDelta : Bytes := demoBytes ("data: " ++ demoData ++ "\n\n")

def demoRunaway : Bytes := List.replicate (eventDataBytesMax+1) 120

theorem demoDelta_feed :
    SseDecoder.new.feed demoDelta = ([⟨none,demoData⟩],.ok .new) := by decide

theorem demoRunaway_feed : ∃ e, SseDecoder.new.feed demoRunaway = ([],.error e) :=
  SseDecoder.feed_runaway (by decide) .new (by decide) (by decide)

/-- In a chunk of its own the delta is passed on; in the chunk of the runaway line
it is lost. -/
theorem runaway_takes_delta_along :
    ¬∀ cuts cuts' : List Bytes,
      cuts.flatten = demoDelta ++ demoRunaway → cuts'.flatten = demoDelta ++ demoRunaway →
        (chatCompletions demoConfig).complete (fun _ => .error "") demoParse (fun _ => "") .none
            demoRequest (fun _ => .answered ⟨200,[]⟩ cuts (.ok ())) (fun _ _ => true) =
          (chatCompletions demoConfig).complete (fun _ => .error "") demoParse (fun _ => "") .none
            demoRequest (fun _ => .answered ⟨200,[]⟩ cuts' (.ok ())) (fun _ _ => true) := by
  intro hagree
  obtain ⟨e,he⟩ := demoRunaway_feed
  generalize demoRunaway = runaway at hagree he
  have hfeed : SseDecoder.new.feed (demoDelta ++ runaway) = ([⟨none,demoData⟩],.error e) := by
    have hboth := Relay.feed_append_ok demoDelta_feed runaway
    rw [show Relay.feed SseDecoder.push .new runaway = ([],.error e) from he] at hboth
    exact hboth
  obtain ⟨plan,hplan⟩ : ∃ plan, (chatCompletions demoConfig).plan (fun _ => .error "") .none
    demoRequest = .ok plan := ⟨_,rfl⟩
  refine (agree_iff _ hplan ⟨200,[]⟩ (.ok ()) (demoDelta ++ runaway)).mp hagree
    ⟨by decide,⟨e,by rw [hfeed]⟩,.inl ?_⟩
  have htold : transcript demoParse (fun _ => "") [⟨none,demoData⟩] (chatCompletions demoConfig) ≠
    [] := by decide
  rwa [eventsOf,hfeed]

/-- A connection that closes behind its first delta is answered with a success. -/
theorem cut_delta_reported_whole :
    ¬(chatCompletions demoConfig).ReportsTruly (fun _ => .error "") demoParse (fun _ => "") .none
      demoRequest (fun _ _ => true) ⟨200,[]⟩
      (streamBody 2000 ⟨200,[]⟩ ⟨[demoDelta],.closed,by decide⟩).1
      (streamBody 2000 ⟨200,[]⟩ ⟨[demoDelta],.closed,by decide⟩).2 := by
  intro h
  have hevents : eventsOf demoDelta = [⟨none,demoData⟩] := by rw [eventsOf,demoDelta_feed]
  have hok : ((chatCompletions demoConfig).complete (fun _ => .error "") demoParse (fun _ => "") .none
      demoRequest (fun _ => .answered ⟨200,[]⟩ [demoDelta] (.ok ())) fun _ _ => true).result.isOk =
    true := by decide
  rcases h hok with ⟨⟨event,hevent,hterminal⟩,-⟩ | ⟨before,i,-,hnot⟩
  · have hbody : event ∈ eventsOf demoDelta := by
      simpa [streamBody,streamToClose,HttpHead.header] using hevent
    rw [hevents,List.mem_singleton] at hbody
    rw [hbody] at hterminal
    exact absurd hterminal (by decide)
  · cases hnot

end Wire
end ProjectOS.Gateway
