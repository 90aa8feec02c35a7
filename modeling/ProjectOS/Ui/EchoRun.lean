import Mathlib.Data.List.Range

/-! The view controller of an Echo Run. What it awaits is answered at any later
moment, and a stream it closed may still hand on what it has. -/

namespace ProjectOS.Ui
open List

structure RunStepFrame where
  runId : String
  streamSeq : Nat
  terminal : Bool
  deriving DecidableEq

structure StepMessage where
  event : String
  id : Option Nat
  frame : Option RunStepFrame

structure RunReport where
  runId : String
  worker : String

inductive RunView where
  | empty | loading
  | error (code : String)
  | success (runId : String) (frames : List RunStepFrame)
  deriving DecidableEq

inductive CostView where
  | empty | loading
  | answered (outcome : Except String String)

/-- `useEchoRun`, and what it waits for: commands by the generation they were sent
in, and every stream. -/
structure EchoRun where
  path : Option String
  generation : Nat
  runId : Option String
  frames : List RunStepFrame
  cursor : Option Nat
  terminal : Bool
  costRequest : Nat
  view : RunView
  cost : CostView
  canceling : Bool
  controlError : Option String
  starts : List Nat
  cancels : List Nat
  costs : List (Nat × Nat)
  streams : List (Nat × String)

inductive RunInput where
  | switch (path : Option String)
  | start | cancel | retry
  | started (generation : Nat) (outcome : Except String (Option RunReport))
  | canceled (generation : Nat) (outcome : Except String Unit)
  | costed (generation request : Nat) (outcome : Except String String)
  | message (generation : Nat) (runId : String) (message : StepMessage)
  | failed (generation : Nat) (runId code : String)
  | ended (generation : Nat) (runId : String)

namespace EchoRun

def mounted (path : Option String) : EchoRun where
  path := path
  generation := 0
  runId := none
  frames := []
  cursor := none
  terminal := false
  costRequest := 0
  view := .empty
  cost := .empty
  canceling := false
  controlError := none
  starts := []
  cancels := []
  costs := []
  streams := []

def switch (s : EchoRun) (path : Option String) : EchoRun :=
  { s with
    path := path
    generation := s.generation+1
    runId := none
    frames := []
    cursor := none
    terminal := false
    costRequest := s.costRequest+1
    view := .empty
    cost := .empty
    canceling := false
    controlError := none }

def fail (s : EchoRun) (code : String) (activeGeneration : Nat) : EchoRun :=
  if s.generation ≠ activeGeneration then s else { s with view := .error code }

def subscribe (s : EchoRun) (activeRunId : String) (activeGeneration : Nat) : EchoRun :=
  { s with streams := (activeGeneration,activeRunId) :: s.streams }

def refreshCost (s : EchoRun) (activeGeneration : Nat) : EchoRun :=
  { s with
    costRequest := s.costRequest+1
    cost := .loading
    costs := (activeGeneration,s.costRequest+1) :: s.costs }

def start (s : EchoRun) : EchoRun :=
  match s.path with
  | none => { s with view := .error "project_required" }
  | some _ =>
    { s with
      generation := s.generation+1
      frames := []
      cursor := none
      terminal := false
      runId := none
      controlError := none
      view := .loading
      cost := .loading
      starts := (s.generation+1) :: s.starts }

def started (s : EchoRun) (activeGeneration : Nat) (outcome : Except String (Option RunReport)) :
    EchoRun :=
  let s := { s with starts := s.starts.filter (· ≠ activeGeneration) }
  if s.generation ≠ activeGeneration then s
  else
    match outcome with
    | .error code => s.fail code activeGeneration
    | .ok none => s.fail "malformed_result" activeGeneration
    | .ok (some report) =>
      if report.worker ≠ "echo" then s.fail "malformed_result" activeGeneration
      else subscribe { s with runId := some report.runId } report.runId activeGeneration

def cancel (s : EchoRun) : EchoRun :=
  if s.path = none ∨ s.runId = none ∨ s.terminal ∨ s.canceling then s
  else
    { s with canceling := true, controlError := none, cancels := s.generation :: s.cancels }

def canceled (s : EchoRun) (activeGeneration : Nat) (outcome : Except String Unit) : EchoRun :=
  let s := { s with cancels := s.cancels.filter (· ≠ activeGeneration) }
  if s.generation = activeGeneration then
    match outcome with
    | .error code => { s with canceling := false, controlError := some code }
    | .ok () => { s with canceling := false }
  else s

def retry (s : EchoRun) : EchoRun :=
  match s.path,s.runId with
  | some _,some runId =>
    subscribe { s with generation := s.generation+1, terminal := false, view := .loading }
      runId (s.generation+1)
  | _,_ => s.start

def costed (s : EchoRun) (activeGeneration request : Nat) (outcome : Except String String) :
    EchoRun :=
  let s := { s with costs := s.costs.erase (activeGeneration,request) }
  if s.generation ≠ activeGeneration ∨ s.costRequest ≠ request then s
  else { s with cost := .answered outcome }

def onMessage (s : EchoRun) (activeGeneration : Nat) (activeRunId : String) (message : StepMessage) :
    EchoRun :=
  if s.generation ≠ activeGeneration then s
  else
    match message.frame with
    | none => s.fail "malformed_result" activeGeneration
    | some parsed =>
      if message.event ≠ "run.step" ∨ parsed.runId ≠ activeRunId ∨
          message.id ≠ some parsed.streamSeq ∨ parsed.streamSeq ≠ s.cursor.getD 0+1 then
        s.fail "malformed_result" activeGeneration
      else
        refreshCost
          { s with
            cursor := some parsed.streamSeq
            frames := s.frames ++ [parsed]
            terminal := parsed.terminal
            view := .success activeRunId (s.frames ++ [parsed]) } activeGeneration

def onEnd (s : EchoRun) (activeGeneration : Nat) : EchoRun :=
  if s.generation = activeGeneration ∧ s.terminal = false then
    s.fail "stream_ended" activeGeneration
  else s

def step (s : EchoRun) : RunInput → EchoRun
  | .switch path => s.switch path
  | .start => s.start
  | .cancel => s.cancel
  | .retry => s.retry
  | .started g outcome => if g ∈ s.starts then s.started g outcome else s
  | .canceled g outcome => if g ∈ s.cancels then s.canceled g outcome else s
  | .costed g request outcome => if (g,request) ∈ s.costs then s.costed g request outcome else s
  | .message g runId message => if (g,runId) ∈ s.streams then s.onMessage g runId message else s
  | .failed g runId code => if (g,runId) ∈ s.streams then s.fail code g else s
  | .ended g runId => if (g,runId) ∈ s.streams then s.onEnd g else s

def run (s : EchoRun) (inputs : List RunInput) : EchoRun := inputs.foldl step s

/-- The view follows the Run: its own frames, numbered from one on. -/
structure Followed (s : EchoRun) : Prop where
  numbered : s.frames.map RunStepFrame.streamSeq = List.range' 1 s.frames.length
  cursor : s.cursor.getD 0 = s.frames.length
  owned : ∀ frame ∈ s.frames, s.runId = some frame.runId
  shown : ∀ runId frames, s.view = .success runId frames → s.runId = some runId ∧ frames = s.frames

/-- Only a subscription of this generation is for the current Run, and none before
its start is answered. -/
structure Sound (s : EchoRun) : Prop where
  followed : s.Followed
  streams : ∀ p ∈ s.streams, p.1 ≤ s.generation ∧ (p.1 = s.generation → s.runId = some p.2)
  starts : ∀ g ∈ s.starts, g ≤ s.generation
  starting : s.generation ∈ s.starts →
    s.frames = [] ∧ (∀ runId frames, s.view ≠ .success runId frames) ∧
      ∀ p ∈ s.streams, p.1 < s.generation

variable {s : EchoRun}

theorem mounted_sound (path : Option String) : (mounted path).Sound :=
  ⟨⟨rfl,rfl,by simp [mounted],by simp [mounted]⟩,by simp [mounted],by simp [mounted],
    by simp [mounted]⟩

section
variable (h : s.Sound)
include h

theorem Sound.renewed {s' : EchoRun} (hgeneration : s'.generation = s.generation+1)
    (hframes : s'.frames = []) (hcursor : s'.cursor = none)
    (hview : ∀ runId frames, s'.view ≠ .success runId frames)
    (hstarts : ∀ g ∈ s'.starts, g = s.generation+1 ∨ g ∈ s.starts)
    (hstreams : s'.streams = s.streams) : s'.Sound where
  followed := ⟨by rw [hframes]; rfl,by rw [hframes,hcursor]; rfl,by simp [hframes],
    fun runId frames hv => absurd hv (hview runId frames)⟩
  streams p hp := by
    have hle := (h.streams p (hstreams ▸ hp)).1
    omega
  starts g hg := by
    rcases hstarts g hg with rfl | hg
    · omega
    · have hle := h.starts g hg
      omega
  starting _ := ⟨hframes,hview,fun p hp => by
    have hle := (h.streams p (hstreams ▸ hp)).1
    omega⟩

theorem Sound.kept {s' : EchoRun} (hgeneration : s'.generation = s.generation)
    (hrun : s'.runId = s.runId) (hframes : s'.frames = s.frames) (hcursor : s'.cursor = s.cursor)
    (hview : s'.view = s.view ∨ ∀ runId frames, s'.view ≠ .success runId frames)
    (hstarts : ∀ g ∈ s'.starts, g ∈ s.starts) (hstreams : s'.streams = s.streams) : s'.Sound where
  followed := by
    refine ⟨by rw [hframes]; exact h.followed.numbered,by rw [hframes,hcursor]; exact h.followed.cursor,
      by rw [hframes,hrun]; exact h.followed.owned,fun runId frames hv => ?_⟩
    rw [hframes,hrun]
    rcases hview with hview | hview
    · exact h.followed.shown runId frames (hview ▸ hv)
    · exact absurd hv (hview runId frames)
  streams := by
    rw [hstreams,hgeneration,hrun]
    exact h.streams
  starts g hg := hgeneration ▸ h.starts g (hstarts g hg)
  starting hg := by
    obtain ⟨hnil,hnone,hpast⟩ := h.starting (hgeneration ▸ hstarts _ hg)
    refine ⟨hframes.trans hnil,fun runId frames hv => ?_,by rw [hstreams,hgeneration]; exact hpast⟩
    rcases hview with hview | hview
    · exact hnone runId frames (hview ▸ hv)
    · exact hview runId frames hv

theorem Sound.fail (code : String) (g : Nat) : (s.fail code g).Sound := by
  unfold EchoRun.fail
  split_ifs
  · exact h
  · exact h.kept rfl rfl rfl rfl (Or.inr (by simp)) (fun _ hg => hg) rfl

theorem Sound.start : s.start.Sound := by
  unfold EchoRun.start
  split
  · exact h.kept rfl rfl rfl rfl (Or.inr (by simp)) (fun _ hg => hg) rfl
  · exact h.renewed rfl rfl rfl (by simp) (by simp) rfl

theorem Sound.started {g : Nat} (hg : g ∈ s.starts)
    (outcome : Except String (Option RunReport)) : (s.started g outcome).Sound := by
  have hs : Sound { s with starts := s.starts.filter (· ≠ g) } :=
    h.kept rfl rfl rfl rfl (Or.inl rfl) (fun _ hg => mem_of_mem_filter hg) rfl
  simp only [EchoRun.started]
  split
  · exact hs
  · rename_i hcurrent
    obtain rfl := not_not.mp hcurrent
    obtain ⟨hnil,hnone,hpast⟩ := h.starting hg
    split
    · exact hs.fail _ _
    · exact hs.fail _ _
    · split
      · exact hs.fail _ _
      · have hcursor := h.followed.cursor
        rw [hnil] at hcursor
        refine ⟨⟨by simp [subscribe,hnil],by simpa [subscribe,hnil] using hcursor,
          by simp [subscribe,hnil],fun runId frames hv => absurd hv (hnone runId frames)⟩,?_,
          fun g' hg' => h.starts g' (mem_of_mem_filter hg'),by simp [subscribe]⟩
        intro p hp
        rcases mem_cons.mp hp with rfl | hp
        · exact ⟨Nat.le_refl _,fun _ => rfl⟩
        · exact ⟨(hpast p hp).le,fun he => absurd he (hpast p hp).ne⟩

theorem Sound.retry : s.retry.Sound := by
  unfold EchoRun.retry
  split
  · rename_i runId hpath hrun
    refine ⟨⟨h.followed.numbered,h.followed.cursor,h.followed.owned,by simp [subscribe]⟩,?_,
      fun g hg => (h.starts g hg).trans (Nat.le_succ _),fun hg => ?_⟩
    · intro p hp
      rcases mem_cons.mp hp with rfl | hp
      · exact ⟨Nat.le_refl _,fun _ => hrun⟩
      · have hle := (h.streams p hp).1
        exact ⟨hle.trans (Nat.le_succ _),fun he => absurd he (by simp only [subscribe]; omega)⟩
    · have hle := h.starts _ hg
      simp only [subscribe] at hle
      omega
  · exact h.start

theorem Sound.onMessage {g : Nat} {runId : String} (hstream : (g,runId) ∈ s.streams)
    (message : StepMessage) : (s.onMessage g runId message).Sound := by
  unfold EchoRun.onMessage
  split_ifs with hcurrent
  · exact h
  obtain rfl := not_not.mp hcurrent
  split
  · exact h.fail _ _
  · rename_i parsed hparsed
    split_ifs with hbad
    · exact h.fail _ _
    simp only [not_or,not_not] at hbad
    obtain ⟨-,howner,-,hseq⟩ := hbad
    have hrun := (h.streams _ hstream).2 rfl
    rw [h.followed.cursor] at hseq
    refine ⟨⟨?_,?_,?_,?_⟩,h.streams,h.starts,fun hg => ?_⟩
    · simp [refreshCost,List.range'_concat,h.followed.numbered,hseq,Nat.add_comm]
    · simpa [refreshCost] using hseq
    · simp only [refreshCost,mem_append,mem_singleton]
      rintro frame (hframe | rfl)
      · exact h.followed.owned frame hframe
      · rw [hrun,howner]
    · rintro _ _ ⟨⟩
      exact ⟨hrun,rfl⟩
    · exact absurd ((h.starting hg).2.2 _ hstream) (Nat.lt_irrefl _)

theorem Sound.step (input : RunInput) : (s.step input).Sound := by
  cases input with
  | switch path => exact h.renewed rfl rfl rfl (by simp [EchoRun.step,switch]) (fun _ hg => Or.inr hg) rfl
  | start => exact h.start
  | retry => exact h.retry
  | cancel =>
    simp only [EchoRun.step,cancel]
    split_ifs
    · exact h
    · exact h.kept rfl rfl rfl rfl (Or.inl rfl) (fun _ hg => hg) rfl
  | started g outcome =>
    simp only [EchoRun.step]
    split_ifs with hg
    · exact h.started hg outcome
    · exact h
  | canceled g outcome =>
    simp only [EchoRun.step,canceled]
    split_ifs
    · cases outcome <;> exact h.kept rfl rfl rfl rfl (Or.inl rfl) (fun _ hg => hg) rfl
    · exact h.kept rfl rfl rfl rfl (Or.inl rfl) (fun _ hg => hg) rfl
    · exact h
  | costed g request outcome =>
    simp only [EchoRun.step,costed]
    split_ifs <;> exact h.kept rfl rfl rfl rfl (Or.inl rfl) (fun _ hg => hg) rfl
  | message g runId message =>
    simp only [EchoRun.step]
    split_ifs with hstream
    · exact h.onMessage hstream message
    · exact h
  | failed g runId code =>
    simp only [EchoRun.step]
    split_ifs
    · exact h.fail code g
    · exact h
  | ended g runId =>
    simp only [EchoRun.step,onEnd]
    split_ifs
    · exact h.fail _ _
    · exact h
    · exact h

theorem Sound.run (inputs : List RunInput) : (s.run inputs).Sound := by
  induction inputs generalizing s with
  | nil => exact h
  | cons input inputs ih => exact ih (h.step input)

end

end EchoRun

def RunInput.generation? : RunInput → Option Nat
  | .started g _ | .canceled g _ | .costed g _ _ => some g
  | .message g _ _ | .failed g _ _ | .ended g _ => some g
  | .switch _ | .start | .cancel | .retry => none

namespace EchoRun

variable {s : EchoRun} {input : RunInput}

theorem stale_step {g : Nat} (hinput : input.generation? = some g) (hstale : g ≠ s.generation) :
    ∃ starts cancels costs,
      s.step input = { s with starts := starts, cancels := cancels, costs := costs } := by
  have hother : s.generation ≠ g := Ne.symm hstale
  cases input with
  | switch | start | cancel | retry => cases hinput
  | started g' outcome =>
    cases hinput
    refine ⟨if g ∈ s.starts then s.starts.filter (· ≠ g) else s.starts,s.cancels,s.costs,?_⟩
    simp only [step,started,if_pos hother]
    split_ifs <;> rfl
  | canceled g' outcome =>
    cases hinput
    refine ⟨s.starts,if g ∈ s.cancels then s.cancels.filter (· ≠ g) else s.cancels,s.costs,?_⟩
    simp only [step,canceled,if_neg hother]
    split_ifs <;> rfl
  | costed g' request outcome =>
    cases hinput
    refine ⟨s.starts,s.cancels,
      if (g,request) ∈ s.costs then s.costs.erase (g,request) else s.costs,?_⟩
    simp only [step,costed,if_pos (Or.inl hother)]
    split_ifs <;> rfl
  | message g' runId message =>
    cases hinput
    refine ⟨s.starts,s.cancels,s.costs,?_⟩
    simp only [step,onMessage,if_pos hother,ite_self]
  | failed g' runId code =>
    cases hinput
    refine ⟨s.starts,s.cancels,s.costs,?_⟩
    simp only [step,fail,if_pos hother,ite_self]
  | ended g' runId =>
    cases hinput
    refine ⟨s.starts,s.cancels,s.costs,?_⟩
    simp only [step,onEnd,hother,false_and,if_false,ite_self]

/-- No start while the cancel of this generation is under way. -/
def Careful (s : EchoRun) : RunInput → Prop
  | .start | .retry => s.generation ∉ s.cancels
  | _ => True

def CarefulRun : EchoRun → List RunInput → Prop
  | _, [] => True
  | s, input :: inputs => s.Careful input ∧ (s.step input).CarefulRun inputs

def Cancelable (s : EchoRun) : Prop := s.canceling = true → s.generation ∈ s.cancels

theorem fail_cancelable (h : s.Cancelable) (code : String) (g : Nat) : (s.fail code g).Cancelable := by
  unfold fail
  split_ifs <;> exact h

theorem start_cancelable (h : s.Cancelable) (hcareful : s.generation ∉ s.cancels) :
    s.start.Cancelable := by
  unfold start
  split
  · exact h
  · exact fun hc => absurd (h hc) hcareful

theorem step_cancelable (h : s.Cancelable) (hcareful : s.Careful input) :
    (s.step input).Cancelable := by
  cases input with
  | switch path => exact fun hc => Bool.noConfusion hc
  | start => exact start_cancelable h hcareful
  | retry =>
    simp only [step,retry]
    split
    · exact fun hc => absurd (h hc) hcareful
    · exact start_cancelable h hcareful
  | cancel =>
    simp only [step,cancel]
    split_ifs
    · exact h
    · exact fun _ => mem_cons_self
  | started g outcome =>
    have hs : Cancelable { s with starts := s.starts.filter (· ≠ g) } := h
    simp only [step,started]
    split_ifs
    · exact hs
    · split
      · exact fail_cancelable hs _ _
      · exact fail_cancelable hs _ _
      · split_ifs
        · exact fail_cancelable hs _ _
        · exact h
    · exact h
  | canceled g outcome =>
    simp only [step,canceled]
    split_ifs with hmem hcurrent
    · cases outcome <;> exact fun hc => Bool.noConfusion hc
    · exact fun hc => mem_filter.mpr ⟨h hc,decide_eq_true hcurrent⟩
    · exact h
  | costed g request outcome =>
    simp only [step,costed]
    split_ifs <;> exact h
  | message g runId message =>
    simp only [step,onMessage]
    split_ifs
    · exact h
    · split
      · exact fail_cancelable h _ _
      · split_ifs
        · exact fail_cancelable h _ _
        · exact h
    · exact h
  | failed g runId code =>
    simp only [step]
    split_ifs
    · exact fail_cancelable h code g
    · exact h
  | ended g runId =>
    simp only [step,onEnd]
    split_ifs
    · exact fail_cancelable h _ _
    · exact h
    · exact h

theorem run_cancelable (h : s.Cancelable) {inputs : List RunInput}
    (hcareful : s.CarefulRun inputs) : (s.run inputs).Cancelable := by
  induction inputs generalizing s with
  | nil => exact h
  | cons input inputs ih => exact ih (step_cancelable h hcareful.1) hcareful.2

/-- Whatever comes in, as long as no cancel under way is left behind by a new
generation. -/
theorem run_followed (path : Option String) (inputs : List RunInput)
    (hcareful : (mounted path).CarefulRun inputs) :
    ((mounted path).run inputs).Followed ∧
      (∀ input g, input.generation? = some g → g ≠ ((mounted path).run inputs).generation →
        ∃ starts cancels costs, ((mounted path).run inputs).step input =
          { (mounted path).run inputs with starts := starts, cancels := cancels, costs := costs }) ∧
      (((mounted path).run inputs).cancels = [] → ((mounted path).run inputs).canceling = false) := by
  refine ⟨((mounted_sound path).run inputs).followed,fun input g => stale_step,fun hnone => ?_⟩
  have hcancelable : (mounted path).Cancelable := fun hc => Bool.noConfusion hc
  refine Bool.eq_false_iff.mpr fun hc => ?_
  have hmem := run_cancelable hcancelable hcareful hc
  rw [hnone] at hmem
  cases hmem

def canceledRun : List RunInput := [.start,.started 1 (.ok (some ⟨"r","echo"⟩)),.cancel]

def retriedRun : List RunInput :=
  canceledRun ++ [.message 1 "r" ⟨"run.step",some 1,some ⟨"r",1,false⟩⟩,.canceled 1 (.ok ()),
    .failed 1 "r" "transport_failed",.retry]

theorem canceledRun_followed :
    ((mounted (some "p")).run retriedRun).Followed ∧
      ((mounted (some "p")).run retriedRun).frames = [⟨"r",1,false⟩] ∧
      ((mounted (some "p")).run retriedRun).canceling = false := by
  obtain ⟨hfollowed,-,hcanceling⟩ := run_followed (some "p") retriedRun
    ⟨List.not_mem_nil,trivial,trivial,trivial,trivial,trivial,List.not_mem_nil,trivial⟩
  exact ⟨hfollowed,rfl,hcanceling rfl⟩

def resumedRun : EchoRun :=
  (mounted (some "p")).run (canceledRun ++
    [.failed 1 "r" "transport_failed",.retry,.canceled 1 (.ok ())])

theorem cancel_stuck : resumedRun.cancels = [] ∧ resumedRun.canceling = true ∧
    resumedRun.runId = some "r" ∧ resumedRun.terminal = false ∧ resumedRun.cancel = resumedRun :=
  ⟨rfl,rfl,rfl,rfl,rfl⟩

end EchoRun
end ProjectOS.Ui
