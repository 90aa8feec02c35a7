import ProjectOS.Gateway.OpenAiWire
import ProjectOS.Gateway.Anthropic

/-! The streams of the two wires: what the cuts between the chunks of a body
decide, and what an answer that is no failure is worth. -/

namespace ProjectOS.Gateway
open Lib

def eventsOf (body : Bytes) : List SseEvent := (SseDecoder.new.feed body).1

def Oversize (body : Bytes) : Prop := ∃ e, (SseDecoder.new.feed body).2 = .error e

theorem not_oversize {body : Bytes} (h : ¬Oversize body) :
    ∃ d, SseDecoder.new.feed body = (eventsOf body,.ok d) := by
  rw [eventsOf]
  cases hfeed : SseDecoder.new.feed body with
  | mk items next =>
    cases next with
    | error e => exact absurd ⟨e,by rw [hfeed]⟩ h
    | ok d => exact ⟨d,rfl⟩

def capWeather : Weather := .malformedOutput s!"stream payload did not parse: {capReason}"

/-- What the two adapters share: they read an event as a codec does, and past the
cap the verdict is the cap unless the notes are grave. -/
structure Reads {τ : Type} (A : Adapter τ) (C : Relay.Codec τ SseEvent CompletionEvent)
    (sink : CompletionSink) (verdict : τ → Except Weather CompletionUsage) (grave : τ → Prop) :
    Prop where
  consume : A.consume = C.handle sink
  capped : ∀ n, ¬grave n → verdict (A.oversize n) = .error capWeather
  other : ∀ n, grave n → ∃ weather, verdict (A.oversize n) = .error weather ∧ weather ≠ capWeather
  kept : ∀ n event, grave n → grave (C.note n event)

section
variable {τ : Type} {A : Adapter τ} {C : Relay.Codec τ SseEvent CompletionEvent}
  {sink : CompletionSink} {verdict : τ → Except Weather CompletionUsage} {grave : τ → Prop}
  {parse : String → Option Value} {timeout_ms : Nat} {notes : τ} {head : HttpHead}

theorem Reads.kept_notes (R : Reads A C sink verdict grave) {n : τ} (h : grave n)
    (events : List SseEvent) : grave (C.notes n events) := by
  induction events generalizing n with
  | nil => exact h
  | cons event events ih => exact ih (R.kept n event h)

theorem Reads.oversize_error (R : Reads A C sink verdict grave) (n : τ) :
    ∃ weather, verdict (A.oversize n) = .error weather := by
  by_cases h : grave n
  · exact ⟨_,(R.other n h).choose_spec.1⟩
  · exact ⟨_,R.capped n h⟩

def CutsAgree (A : Adapter τ) (parse : String → Option Value) (timeout_ms : Nat)
    (verdict : τ → Except Weather CompletionUsage) (notes : τ) (head : HttpHead)
    (ending : Except TransportError Unit) (body : Bytes) : Prop :=
  ∀ cuts cuts' : List Bytes, cuts.flatten = body → cuts'.flatten = body →
    A.answer parse timeout_ms verdict notes (.answered head cuts ending) =
      A.answer parse timeout_ms verdict notes (.answered head cuts' ending)

theorem cutsAgree_of_whole (ending : Except TransportError Unit) {body : Bytes}
    (h : 300 ≤ head.status ∨ ¬Oversize body) :
    CutsAgree A parse timeout_ms verdict notes head ending body := by
  intro cuts cuts' hcuts hcuts'
  rcases Nat.lt_or_ge head.status 300 with hstatus | hstatus
  · obtain ⟨d,hd⟩ := not_oversize (h.resolve_left (by omega))
    rw [answer_success hstatus,answer_success hstatus,
      Relay.run_whole (by rw [hcuts]; exact hd),Relay.run_whole (by rw [hcuts']; exact hd)]
  · rw [answer_failure hstatus,answer_failure hstatus,hcuts,hcuts']

/-- These events bring out nothing and no fault. -/
def Uneventful (C : Relay.Codec τ SseEvent CompletionEvent) (grave : τ → Prop) (notes : τ)
    (events : List SseEvent) : Prop :=
  C.transcript notes events = [] ∧ ¬grave (C.notes notes events)

variable {events : List SseEvent}

theorem Uneventful.take (R : Reads A C sink verdict grave)
    (h : Uneventful C grave notes events) (n : Nat) :
    Uneventful C grave notes (events.take n) := by
  obtain ⟨htells,hgrave⟩ := h
  rw [← List.take_append_drop n events,Relay.Codec.transcript_append,List.append_eq_nil_iff]
    at htells
  rw [← List.take_append_drop n events,Relay.Codec.notes_append] at hgrave
  exact ⟨htells.1,fun hnow => hgrave (R.kept_notes hnow _)⟩

theorem Uneventful.breakOff (R : Reads A C sink verdict grave)
    (h : Uneventful C grave notes events) :
    let r := Relay.breakOff A.oversize (Relay.drain A.consume ⟨notes,[],false⟩ events)
    r.1.heard = [] ∧ r.2 = true ∧ verdict r.1.notes = .error capWeather := by
  have htaken : Relay.takes sink ([] : List CompletionEvent) (C.transcript notes events) = true := by
    rw [h.1]
    rfl
  rw [R.consume,Relay.drain_taken (p := ⟨notes,[],false⟩) rfl htaken]
  exact ⟨by simpa [Relay.breakOff] using h.1,rfl,R.capped _ h.2⟩

theorem cutsAgree_oversize_iff (R : Reads A C sink verdict grave) (hnotes : ¬grave notes)
    (hstatus : head.status < 300) (ending : Except TransportError Unit) {body : Bytes}
    (hover : Oversize body) :
    CutsAgree A parse timeout_ms verdict notes head ending body ↔
      Uneventful C grave notes (eventsOf body) := by
  obtain ⟨e,he⟩ := hover
  have hfeed : Relay.feed SseDecoder.push .new body = (eventsOf body,.error e) := Prod.ext rfl he
  constructor
  · intro hagree
    have hsame := hagree [body] (body.map fun b => [b]) (by simp)
      (by rw [← List.flatMap_def,List.flatMap_singleton'])
    rw [answer_success hstatus,answer_success hstatus,Relay.run_one hfeed,
      Relay.run_letters hfeed,Completion.mk.injEq] at hsame
    obtain ⟨hsent,hresult⟩ := hsame
    rw [R.consume] at hsent hresult
    rcases Relay.drain_cases sink C notes (eventsOf body) with ⟨-,hdrain⟩ | ⟨-,hstop,hhung⟩
    · rw [hdrain] at hsent hresult
      refine ⟨hsent.symm,fun hgrave => ?_⟩
      obtain ⟨weather,hweather,hne⟩ := R.other _ hgrave
      simp only [Relay.breakOff,Bool.false_eq_true,if_false,if_true,conclude,R.capped _ hnotes,
        hweather,Except.error.injEq] at hresult
      exact hne hresult.symm
    · rw [Relay.breakOff,Relay.breakOff,if_pos hstop] at hsent
      exact absurd hsent.symm (hhung.ne_nil sink)
  · intro hquiet cuts cuts' hcuts hcuts'
    have hone : ∀ cuts : List Bytes, cuts.flatten = body →
        A.answer parse timeout_ms verdict notes (.answered head cuts ending) =
          ⟨[],.error capWeather⟩ := by
      intro cuts hcuts
      obtain ⟨n,hn⟩ := @Relay.run_broken _ _ _ _ _ _ SseDecoder.push A.consume A.oversize .new
        ⟨notes,[],false⟩ cuts _ e (by rw [hcuts]; exact hfeed)
      obtain ⟨hheard,hstop,hverdict⟩ := (hquiet.take R n).breakOff R
      rw [answer_success hstatus,hn]
      simp only [hheard,hstop,hverdict,if_true,conclude]
    rw [hone cuts hcuts,hone cuts' hcuts']

theorem isOk_conclude {ending : Except TransportError Unit} {v : Except Weather CompletionUsage} :
    (conclude timeout_ms ending v).isOk = true ↔ Ended ending ∧ v.isOk = true := by
  unfold Ended
  cases ending with
  | ok _ => simp [conclude]
  | error e => cases e <;> simp [conclude,Except.isOk,Except.toBool]

theorem answer_ok_iff (R : Reads A C sink verdict grave) (chunks : List Bytes)
    (ending : Except TransportError Unit) :
    let c := A.answer parse timeout_ms verdict notes (.answered head chunks ending)
    (c.result.isOk = true ∧ ¬Relay.HungUp sink c.sent) ↔
      head.status < 300 ∧ Ended ending ∧ ¬Oversize chunks.flatten ∧
        Relay.takes sink [] (C.transcript notes (eventsOf chunks.flatten)) = true ∧
        (verdict (C.notes notes (eventsOf chunks.flatten))).isOk = true := by
  intro c
  rcases Nat.lt_or_ge head.status 300 with hstatus | hstatus
  · simp only [hstatus,true_and]
    by_cases hover : Oversize chunks.flatten
    · obtain ⟨e,he⟩ := id hover
      have hfeed : Relay.feed SseDecoder.push .new chunks.flatten =
        (eventsOf chunks.flatten,.error e) := Prod.ext rfl he
      obtain ⟨n,hn⟩ := @Relay.run_broken _ _ _ _ _ _ SseDecoder.push A.consume A.oversize .new
        ⟨notes,[],false⟩ chunks _ e hfeed
      rw [R.consume] at hn
      simp only [hover,not_true_eq_false,false_and,and_false,iff_false,c,answer_success hstatus,hn,
        R.consume]
      rintro ⟨hok,hopen⟩
      rcases Relay.drain_cases sink C notes ((eventsOf chunks.flatten).take n) with
        ⟨-,hdrain⟩ | ⟨-,hstop,hhung⟩
      · obtain ⟨weather,hweather⟩ := R.oversize_error
          (C.notes notes ((eventsOf chunks.flatten).take n))
        rw [hdrain] at hok
        simp [Relay.breakOff,conclude,hweather,Except.isOk,Except.toBool] at hok
      · rw [Relay.breakOff,if_pos hstop] at hopen
        exact hopen hhung
    · obtain ⟨d,hd⟩ := not_oversize hover
      simp only [c,answer_success hstatus,Relay.run_whole hd,R.consume,hover,not_false_eq_true,
        true_and]
      rcases Relay.drain_cases sink C notes (eventsOf chunks.flatten) with
        ⟨htaken,hdrain⟩ | ⟨htaken,-,hhung⟩
      · have hopen : ¬Relay.HungUp sink (C.transcript notes (eventsOf chunks.flatten)) := by
          rw [← Relay.takes_eq_false_iff,htaken]
          simp
        simp [hdrain,htaken,isOk_conclude,hopen]
      · simp [htaken,hhung]
  · simp only [c,answer_failure hstatus,isOk_conclude]
    simp [Except.isOk,Except.toBool]
    omega

end
end ProjectOS.Gateway
