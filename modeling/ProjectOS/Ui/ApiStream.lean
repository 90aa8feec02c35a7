import ProjectOS.Ui.Sse

/-! A subscription over HTTP: the decoder, one flag, and what its handlers are called
with. A handler may close the subscription it is called from. -/

namespace ProjectOS.Ui
open List

inductive StreamFault where
  | reported (data : Units)
  | malformed (e : SseError)
  | failed

inductive Callback where
  | onMessage (message : SseMessage)
  | onError (fault : StreamFault)
  | onEnd

inductive Seen where
  | called (callback : Callback)
  | closed

/-- A body's text comes in chunks, the last of them what the text decoder held back.
-/
inductive BodyStep where
  | chunk (text : Units)
  | done | failed | close

/-- `settled` once the body has ended or failed. `decoded` is what the chunks held;
the code does not keep it. -/
structure ApiStream where
  buffer : Units
  isOpen : Bool
  settled : Bool
  seen : List Seen
  decoded : List SseMessage

namespace ApiStream

def opened : ApiStream := ⟨[],true,false,[],[]⟩

def close (s : ApiStream) : ApiStream := { s with isOpen := false, seen := s.seen ++ [.closed] }

section
-- Whether a handler closes the subscription, called so after all that was seen before.
variable (closes : List Seen → Callback → Bool)

def call (s : ApiStream) (callback : Callback) : ApiStream :=
  let called := { s with seen := s.seen ++ [.called callback] }
  if closes s.seen callback then called.close else called

def reports (message : SseMessage) : Bool := message.event = units "stream.error"

def callbackOf (message : SseMessage) : Callback :=
  if reports message then .onError (.reported message.data) else .onMessage message

def dispatchStreamMessage (s : ApiStream) (message : SseMessage) : ApiStream :=
  s.call closes (callbackOf message)

def breakOff (s : ApiStream) (fault : StreamFault) : ApiStream :=
  call closes { s with isOpen := false } (.onError fault)

def receive (s : ApiStream) (chunk : Units) : ApiStream :=
  if s.isOpen = false then s
  else
    match SseDecoder.push s.buffer chunk with
    | .error e => s.breakOff closes (.malformed e)
    | .ok (messages,buffer) =>
      messages.foldl (dispatchStreamMessage closes)
        { s with buffer := buffer, decoded := s.decoded ++ messages }

def finish (s : ApiStream) : ApiStream :=
  if s.isOpen = false then s
  else
    match SseDecoder.finish s.buffer with
    | .error e => s.breakOff closes (.malformed e)
    | .ok () => s.call closes .onEnd

def step (s : ApiStream) : BodyStep → ApiStream
  | .chunk text => if s.settled then s else s.receive closes text
  | .done => if s.settled then s else { s.finish closes with settled := true }
  | .failed =>
    if s.settled then s
    else { (if s.isOpen then s.breakOff closes .failed else s) with settled := true }
  | .close => s.close

def run (s : ApiStream) (steps : List BodyStep) : ApiStream := steps.foldl (step closes) s

end

def Seen.isClosed : Seen → Bool
  | .closed => true
  | .called _ => false

def orderly : List SseMessage → List Seen → Bool
  | _, [] => true
  | message :: messages, .called (.onMessage seen) :: rest =>
    message = seen && orderly messages rest
  | [], .called (.onMessage _) :: _ => false
  | _, .called (.onError _) :: rest
  | _, .called .onEnd :: rest
  | _, .closed :: rest => rest.all Seen.isClosed

def Reported (s : ApiStream) : Prop := ∃ fault, .called (.onError fault) ∈ s.seen

section
variable (closes : List Seen → Callback → Bool)

def Spaced : List Seen → List SseMessage → Prop
  | _, [] => True
  | seen, message :: messages =>
    messages = [] ∨ reports message = false ∧ closes seen (callbackOf message) = false ∧
      Spaced (seen ++ [.called (callbackOf message)]) messages

def Clear (s : ApiStream) : BodyStep → Prop
  | .close => True
  | .chunk text => s.isOpen = true → s.settled = false →
    match SseDecoder.push s.buffer text with
    | .error _ => ¬ s.Reported
    | .ok (messages,_) => Spaced closes s.seen messages ∧ (s.Reported → messages = [])
  | .done | .failed => s.isOpen = true → s.settled = false → ¬ s.Reported

def ClearRun : ApiStream → List BodyStep → Prop
  | _, [] => True
  | s, body :: steps => s.Clear closes body ∧ (s.step closes body).ClearRun steps

end

def shown (messages : List SseMessage) : List Seen :=
  messages.map fun message => .called (.onMessage message)

/-- The handlers have seen the messages in order, and nothing behind an end. -/
structure Sound (s : ApiStream) : Prop where
  orderly : orderly s.decoded s.seen = true
  going : s.isOpen = true → s.settled = false → s.Reported ∨ s.seen = shown s.decoded

variable {closes : List Seen → Callback → Bool} {s : ApiStream} {messages : List SseMessage}

theorem orderly_shown (messages rest : List SseMessage) (tail : List Seen) :
    orderly (messages ++ rest) (shown messages ++ tail) = orderly rest tail := by
  induction messages with
  | nil => rfl
  | cons message messages ih =>
    rw [shown,map_cons,cons_append,cons_append,orderly,decide_eq_true rfl,
      Bool.true_and]
    exact ih

theorem orderly_closed {seen : List Seen} (h : orderly messages seen = true) :
    orderly messages (seen ++ [.closed]) = true := by
  induction messages, seen using orderly.induct with
  | case1 messages => cases messages <;> rfl
  | case2 message messages seen rest ih =>
    rw [orderly,Bool.and_eq_true] at h
    rw [cons_append,orderly,Bool.and_eq_true]
    exact ⟨h.1,ih h.2⟩
  | case3 => cases h
  | case4 messages fault rest | case5 messages rest | case6 messages rest =>
    cases messages <;> simpa [orderly,Seen.isClosed] using h

theorem Sound.close (h : s.Sound) : s.close.Sound :=
  ⟨orderly_closed h.orderly,fun hopen => Bool.noConfusion hopen⟩

variable {callback : Callback}

theorem call_sound
    (h : orderly s.decoded (s.seen ++ [.called callback]) = true)
    (hgoing : s.isOpen = true → s.settled = false →
      (∃ fault, callback = .onError fault) ∨ s.seen ++ [.called callback] = shown s.decoded) :
    (s.call closes callback).Sound := by
  have hcalled : Sound { s with seen := s.seen ++ [.called callback] } := by
    refine ⟨h,fun hopen hsettled => (hgoing hopen hsettled).imp_left ?_⟩
    rintro ⟨fault,rfl⟩
    exact ⟨fault,mem_append_right _ mem_cons_self⟩
  unfold call
  dsimp only
  split_ifs
  · exact hcalled.close
  · exact hcalled

theorem dispatch_sound {before : List SseMessage} (hseen : s.seen = shown before)
    (hdecoded : s.decoded = before ++ messages) (hspaced : Spaced closes s.seen messages) :
    (messages.foldl (dispatchStreamMessage closes) s).Sound := by
  induction messages generalizing s before with
  | nil =>
    rw [append_nil] at hdecoded
    have horderly := orderly_shown before [] []
    rw [append_nil,append_nil] at horderly
    exact ⟨by rw [foldl_nil,hseen,hdecoded,horderly]; rfl,
      fun _ _ => Or.inr (hdecoded ▸ hseen)⟩
  | cons message messages ih =>
    have hnext : shown before ++ [.called (.onMessage message)] = shown (before ++ [message]) := by
      rw [shown,shown,map_append]
      rfl
    rcases hspaced with rfl | ⟨hplain,hopen,hspaced⟩
    · refine call_sound ?_ fun _ _ => ?_
      · rw [hdecoded,hseen,orderly_shown,callbackOf]
        split_ifs <;> simp [orderly]
      · rw [hseen,hdecoded,callbackOf]
        split_ifs
        · exact Or.inl ⟨_,rfl⟩
        · exact Or.inr hnext
    · have hcallback : callbackOf message = .onMessage message := by rw [callbackOf,hplain]; rfl
      have hdispatch : dispatchStreamMessage closes s message =
          { s with seen := s.seen ++ [.called (.onMessage message)] } := by
        rw [dispatchStreamMessage,call,hopen,hcallback]
        rfl
      rw [foldl_cons,hdispatch]
      refine @ih _ (before ++ [message]) ?_ ?_ (hcallback ▸ hspaced)
      · rw [← hnext,← hseen]
      · rw [append_assoc]
        exact hdecoded

theorem terminal_orderly (h : s.seen = shown s.decoded)
    (hcallback : ∀ message, callback ≠ .onMessage message) :
    orderly s.decoded (s.seen ++ [.called callback]) = true := by
  have horderly := orderly_shown s.decoded [] [.called callback]
  rw [append_nil] at horderly
  rw [h,horderly]
  cases callback with
  | onMessage message => exact absurd rfl (hcallback message)
  | onError | onEnd => rfl

theorem breakOff_sound (h : s.seen = shown s.decoded) (fault : StreamFault) :
    (s.breakOff closes fault).Sound :=
  call_sound (terminal_orderly (s := { s with isOpen := false }) h (by simp))
    fun hopen => Bool.noConfusion hopen

theorem Sound.receive (h : s.Sound) (hsettled : s.settled = false) {text : Units}
    (hclear : s.Clear closes (.chunk text)) : (s.receive closes text).Sound := by
  unfold ApiStream.receive
  split_ifs with hopen
  · exact h
  rw [Bool.not_eq_false] at hopen
  have hclear := hclear hopen hsettled
  split
  · rename_i e hpush
    rw [hpush] at hclear
    exact breakOff_sound ((h.going hopen hsettled).resolve_left hclear) _
  · rename_i messages buffer hpush
    rw [hpush] at hclear
    obtain ⟨hspaced,hquiet⟩ := hclear
    rcases h.going hopen hsettled with hreported | hseen
    · rw [hquiet hreported,append_nil]
      exact ⟨h.orderly,fun _ _ => Or.inl hreported⟩
    · exact dispatch_sound hseen rfl hspaced

theorem Sound.settle (h : s.Sound) : Sound { s with settled := true } :=
  ⟨h.orderly,fun _ hsettled => Bool.noConfusion hsettled⟩

theorem Sound.step (h : s.Sound) {body : BodyStep} (hclear : s.Clear closes body) :
    (s.step closes body).Sound := by
  cases body with
  | close => exact h.close
  | chunk text =>
    simp only [ApiStream.step]
    split_ifs with hsettled
    · exact h
    · exact h.receive (Bool.eq_false_iff.mpr hsettled) hclear
  | done =>
    simp only [ApiStream.step,finish]
    split_ifs with hsettled hopen
    · exact h
    · exact h.settle
    · rw [Bool.not_eq_false] at hopen
      have hfalse := Bool.eq_false_iff.mpr hsettled
      have hseen := (h.going hopen hfalse).resolve_left (hclear hopen hfalse)
      split
      · exact (breakOff_sound hseen _).settle
      · have hcall : { s.call closes .onEnd with settled := true } =
            call closes { s with settled := true } .onEnd := by
          unfold call
          dsimp only
          split_ifs <;> rfl
        rw [hcall]
        exact call_sound (terminal_orderly (s := { s with settled := true }) hseen (by simp))
          fun _ hsettled => Bool.noConfusion hsettled
  | failed =>
    simp only [ApiStream.step]
    split_ifs with hsettled hopen
    · exact h
    · have hfalse := Bool.eq_false_iff.mpr hsettled
      exact (breakOff_sound ((h.going hopen hfalse).resolve_left (hclear hopen hfalse)) _).settle
    · exact h.settle

theorem opened_sound : opened.Sound := ⟨rfl,fun _ _ => Or.inr rfl⟩

theorem run_sound (h : s.Sound) {steps : List BodyStep} (hclear : s.ClearRun closes steps) :
    (s.run closes steps).Sound := by
  induction steps generalizing s with
  | nil => exact h
  | cons body steps ih => exact ih (h.step hclear.1) hclear.2

/-- Whatever the chunks hold, and whenever the subscription is closed. -/
theorem callbacks_orderly (closes : List Seen → Callback → Bool) (steps : List BodyStep)
    (hclear : opened.ClearRun closes steps) :
    orderly (opened.run closes steps).decoded (opened.run closes steps).seen = true :=
  (run_sound opened_sound hclear).orderly

def block (event data : String) : Units :=
  units "event: " ++ units event ++ [lf] ++ units "data: " ++ units data ++ [lf,lf]

def ready : SseMessage := ⟨none,units "run.step",units "ready"⟩

theorem push_ready : SseDecoder.push [] (block "run.step" "ready") = .ok ([ready],[]) := by
  decide +kernel

def closesSecond (seen : List Seen) (_ : Callback) : Bool := seen.length == 1

def readyTwice : List BodyStep :=
  [.chunk (block "run.step" "ready"),.chunk (block "run.step" "ready"),.done]

/-- The handler closes at the second of two messages. -/
theorem ready_orderly :
    orderly (opened.run closesSecond readyTwice).decoded (opened.run closesSecond readyTwice).seen =
      true := by
  have hplain : reports ready = false := by decide +kernel
  have honce : opened.step closesSecond (.chunk (block "run.step" "ready")) =
      ⟨[],true,false,[.called (.onMessage ready)],[ready]⟩ := by
    simp [step,receive,opened,push_ready,dispatchStreamMessage,call,callbackOf,hplain,closesSecond]
  have htwice : step closesSecond ⟨[],true,false,[.called (.onMessage ready)],[ready]⟩
      (.chunk (block "run.step" "ready")) =
      ⟨[],false,false,[.called (.onMessage ready),.called (.onMessage ready),.closed],
        [ready,ready]⟩ := by
    simp [step,receive,push_ready,dispatchStreamMessage,call,close,callbackOf,hplain,closesSecond]
  refine callbacks_orderly closesSecond readyTwice ⟨fun _ _ => ?_,?_⟩
  · have hpush : SseDecoder.push opened.buffer (block "run.step" "ready") = .ok ([ready],[]) :=
      push_ready
    rw [hpush]
    exact ⟨Or.inl rfl,fun hreported => by simp [Reported,opened] at hreported⟩
  · rw [honce]
    refine ⟨fun _ _ => ?_,?_⟩
    · simp only [push_ready]
      exact ⟨Or.inl rfl,fun hreported => by simp [Reported] at hreported⟩
    · rw [htwice]
      exact ⟨fun hopen => Bool.noConfusion hopen,trivial⟩

def twoAtOnce : BodyStep := .chunk (block "run.step" "a" ++ block "run.step" "b")

/-- A handler that closes while the chunk holds one more message, and an error that is
reported in front of the end of the body. -/
theorem called_after_close :
    orderly (opened.run (fun _ _ => true) [twoAtOnce]).decoded
        (opened.run (fun _ _ => true) [twoAtOnce]).seen = false ∧
    orderly (opened.run (fun _ _ => false) [.chunk (block "stream.error" "a"),.done]).decoded
        (opened.run (fun _ _ => false) [.chunk (block "stream.error" "a"),.done]).seen = false := by
  decide +kernel

end ApiStream
end ProjectOS.Ui
