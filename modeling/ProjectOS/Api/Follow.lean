import ProjectOS.Api.RunSteps

/-! Following a Run's steps. A feed polls the Run tables and hands on what is
settled since its cursor, until the Run is closed and the cursor is at the head. -/

namespace ProjectOS.Api.RunFeed
open Lib Lib.Optimistic Domain Agents List

inductive Feed where
  | polling (cursor : Option Nat) (delivered : List StreamFrame)
  | dropped (delivered : List StreamFrame)
  | ended (cursor : Option Nat) (delivered : List StreamFrame)
  | failed (error : ApiError) (delivered : List StreamFrame)

def POLL_READS : Nat := STREAM_RESUME_WINDOW_LEN+2

section Code
variable (toJson : RunStepFrame → String) (consume : List StreamFrame → StreamFrame → Bool)

def deliver : List StreamFrame → Option Nat → List StreamFrame → Feed
  | [],cursor,delivered => .polling cursor delivered
  | frame::frames,_,delivered =>
    if consume delivered frame then
      deliver frames (some frame.stream_seq) (delivered ++ [frame])
    else .dropped (delivered ++ [frame])

def pollOnce (reads : Nat → RunDb) (run_id : RunId) (cursor : Option Nat)
    (delivered : List StreamFrame) : Feed :=
  match durableFrames toJson reads run_id cursor with
  | .error error => .failed error delivered
  | .ok frames =>
    match deliver consume frames cursor delivered with
    | .polling cursor delivered =>
      match atHead (reads (STREAM_RESUME_WINDOW_LEN+1)) run_id cursor with
      | .error error => .failed error delivered
      | .ok true => .ended cursor delivered
      | .ok false => .polling cursor delivered
    | ended => ended

def streamFollow (moment : Nat → RunDb) (run_id : RunId) (resume_after : Option Nat) : Nat → Feed
  | 0 => .polling resume_after []
  | polls+1 =>
    match streamFollow moment run_id resume_after polls with
    | .polling cursor delivered =>
      pollOnce toJson consume (fun k => moment (polls*POLL_READS+k)) run_id cursor delivered
    | ended => ended

def headFrames (db : RunDb) (state : RunState) : Except ApiError (List StreamFrame) :=
  (List.range (settledFrameCount state)).mapM (stepFrame toJson db state state.run_id)

end Code

section Closing
variable (toJson : RunStepFrame → String)

def carries (body : RunStepFrame) : StreamFrame := ⟨body.stream_seq,"run.step",toJson body⟩

def ClosedOff (frames : List StreamFrame) (status : RunStatus) : Prop :=
  ∃ before last, frames = (before ++ [last]).map (carries toJson) ∧
    (∀ body ∈ before, body.terminal = false) ∧ last.terminal = true ∧
    last.run_status = statusName status

/-- The feed of a closed Run shows its end: the frames are closed off, and a
subscriber not already there has been handed the last of them. -/
def ShowsEnd (db : RunDb) (run_id : RunId) (resume_after : Option Nat)
    (delivered : List StreamFrame) : Prop :=
  ∃ state frames, readRunState db run_id = .ok state ∧ state.status.isTerminal = true ∧
    headFrames toJson db state = .ok frames ∧ ClosedOff toJson frames state.status ∧
    delivered <:+ frames ∧ (resume_after.getD 0 < frames.length → delivered ≠ [])

end Closing

abbrev RunConfig := Config runSignature HarnessCall HarnessError HarnessReply RunDb

/-- Moments, in order, of a run whose operations come one after another. -/
structure Moments (moment : Nat → RunConfig) : Prop where
  start : Reachable runSystem (oneAfterAnother fun _ _ => True) RunDb.empty (moment 0)
  next : ∀ k, Relation.ReflTransGen (Step runSystem (oneAfterAnother fun _ _ => True))
    (moment k) (moment (k+1))

namespace Moments
variable {moment : Nat → RunConfig} (h : Moments moment)
include h

theorem path (j d : Nat) : Relation.ReflTransGen
    (Step runSystem (oneAfterAnother fun _ _ => True)) (moment j) (moment (j+d)) := by
  induction d with
  | zero => exact .refl
  | succ d ih => exact ih.trans (h.next (j+d))

theorem reachable (k : Nat) :
    Reachable runSystem (oneAfterAnother fun _ _ => True) RunDb.empty (moment k) := by
  have hpath := h.path 0 k
  rw [Nat.zero_add] at hpath
  exact h.start.trans hpath

theorem settled (k : Nat) : Settled (moment k).store := sequential_settled (h.reachable k)

theorem keeps {j k : Nat} (hle : j ≤ k) : Keeps (moment j).store (moment k).store := by
  obtain ⟨d,rfl⟩ := Nat.exists_eq_add_of_le hle
  exact sequential_keeps (h.reachable j) (h.path j d)

end Moments

section Frames
variable {s : RunDb} {run_id : RunId} {row : RunRow} {state : RunState}

theorem readRunState_row (hread : readRunState s run_id = .ok state) :
    ∃ row, s.runs.get? run_id = some row := by
  cases hrow : s.runs.get? run_id with
  | none =>
    simp only [readRunState,readRun,hrow] at hread
    cases hread
  | some row => exact ⟨row,rfl⟩

/-- A Run's row at one moment, what reading it gives, and its two step counts. -/
structure ReadAt (s : RunDb) (run_id : RunId) (row : RunRow) (state : RunState) (n m : Nat) :
    Prop where
  found : s.runs.get? run_id = some row
  reads : ReadsAs s run_id row state
  counted : Counted s run_id row n m

theorem readAt_of (hs : Settled s) (hread : readRunState s run_id = .ok state) :
    ∃ row n m, ReadAt s run_id row state n m := by
  obtain ⟨row,hrow⟩ := readRunState_row hread
  obtain ⟨st,hst⟩ := settled_reads hs hrow
  have heq := hst.read.symm.trans hread
  cases heq
  obtain ⟨n,m,hc⟩ := settled_counted hs hrow
  exact ⟨row,n,m,hrow,hst,hc⟩

theorem exists_frames (toJson : RunStepFrame → String) (hs : Settled s) {n m : Nat}
    (h : ReadAt s run_id row state n m) : ∃ frame : Nat → StreamFrame,
      (∀ k, (frame k).stream_seq = k) ∧
      ∀ i, i < m → stepFrame toJson s state run_id i = .ok (frame (i+1)) := by
  refine ⟨fun k => match stepFrame toJson s state run_id (k-1) with
    | .ok frame => if frame.stream_seq = k then frame else ⟨k,"",""⟩
    | .error _ => ⟨k,"",""⟩,fun k => ?_,fun i hi => ?_⟩
  · simp only
    split
    · split_ifs with hk
      · exact hk
      · rfl
    · rfl
  · obtain ⟨frame,hframe,hseq⟩ := stepFrame_ok toJson hs h.reads h.counted hi
    simp only [Nat.add_sub_cancel,hframe,hseq,if_true]

theorem mapM_ok {α β ε : Type} {f : α → Except ε β} {g : α → β} {l : List α}
    (h : ∀ a ∈ l, f a = .ok (g a)) : l.mapM f = .ok (l.map g) := by
  induction l with
  | nil => rfl
  | cons a l ih =>
    rw [mapM_cons,h a mem_cons_self,ih fun b hb => h b (mem_cons_of_mem a hb)]
    rfl

end Frames

section Polls
variable {toJson : RunStepFrame → String} {consume : List StreamFrame → StreamFrame → Bool}
variable {moment : Nat → RunConfig} {run_id : RunId} {row : RunRow} {state : RunState} {n m : Nat}
variable {frame : Nat → StreamFrame}
variable {frames delivered : List StreamFrame} {cursor : Option Nat} {delivered' : List StreamFrame}

variable {cursor' : Option Nat}

theorem deliver_polling
    (h : deliver consume frames cursor delivered = .polling cursor' delivered') :
    delivered' = delivered ++ frames ∧
      cursor' = (frames.getLast?.map StreamFrame.stream_seq).or cursor := by
  induction frames generalizing cursor delivered with
  | nil =>
    cases h
    simp
  | cons f frames ih =>
    unfold deliver at h
    split_ifs at h
    obtain ⟨hdelivered,hcursor⟩ := ih h
    refine ⟨by simp [hdelivered],?_⟩
    rw [hcursor,List.getLast?_cons]
    cases frames.getLast? <;> rfl

theorem deliver_not_ended :
    deliver consume frames cursor delivered ≠ .ended cursor' delivered' := by
  induction frames generalizing cursor delivered with
  | nil => simp [deliver]
  | cons f frames ih =>
    unfold deliver
    split_ifs
    · exact ih
    · simp

theorem settled_since (h : Moments moment) (toJson : RunStepFrame → String) {j k : Nat} (hle : j ≤ k)
    {state state' : RunState} (hj : readRunState (moment j).store run_id = .ok state)
    (hk : readRunState (moment k).store run_id = .ok state') :
    settledFrameCount state ≤ settledFrameCount state' ∧ ∀ i, i < settledFrameCount state →
      stepFrame toJson (moment k).store state' run_id i =
        stepFrame toJson (moment j).store state run_id i := by
  obtain ⟨row,n,m,hbefore⟩ := readAt_of (h.settled j) hj
  obtain ⟨row',n',m',hnow⟩ := readAt_of (h.settled k) hk
  have hkeeps := h.keeps hle
  exact ⟨settled_grows hkeeps (h.settled k) hbefore.found hbefore.reads hbefore.counted hnow.found
      hnow.reads,
    fun i => stepFrame_same toJson hkeeps (h.settled k) hbefore.found hbefore.reads hbefore.counted
      hnow.found hnow.reads⟩

theorem poll_serves (h : Moments moment) {t last : Nat} (hle : t ≤ last)
    (hlast : ReadAt (moment last).store run_id row state n m) (hseq : ∀ k, (frame k).stream_seq = k)
    (hframe : ∀ i, i < m → stepFrame toJson (moment last).store state run_id i =
      .ok (frame (i+1)))
    {now : RunState} (hread : readRunState (moment t).store run_id = .ok now) :
    Serves (durableFrames toJson (fun k => (moment (t+k)).store) run_id) frame
        (settledFrameCount now) ∧ settledFrameCount now ≤ settledFrameCount state := by
  obtain ⟨row',n',m',hnow⟩ := readAt_of (h.settled t) hread
  obtain ⟨hgrows,hsame⟩ := settled_since h toJson hle hread hlast.reads.read
  refine ⟨durableFrames_serves toJson hread hseq fun i k hi => ?_,hgrows⟩
  have him' : i < m' := lt_of_lt_of_le hi (settled_le_checkpointed hnow.reads hnow.counted)
  have him : i < m := lt_of_lt_of_le hi
    (hgrows.trans (settled_le_checkpointed hlast.reads hlast.counted))
  rw [stepFrame_later toJson (h.keeps (Nat.le_add_right t k)) hnow.reads hnow.counted him',
    ← hsame i hi]
  exact hframe i him

/-- The frames a feed has handed on: those behind its cursor, without a gap, from at
or after where it began. -/
structure Handed (frame : Nat → StreamFrame) (resume_after cursor : Option Nat)
    (delivered : List StreamFrame) : Prop where
  run : ∃ first, resume_after.getD 0 ≤ first ∧ first ≤ cursor.getD 0 ∧
    delivered = (List.range' (first+1) (cursor.getD 0-first)).map frame
  still : delivered = [] → cursor = resume_after

theorem last_seq (hseq : ∀ k, (frame k).stream_seq = k) (first count : Nat) :
    (((List.range' (first+1) (count+1)).map frame).getLast?.map StreamFrame.stream_seq) =
      some (first+1+count) := by
  rw [List.range'_concat,map_append,map_singleton,List.getLast?_concat]
  simp [hseq]

variable {resume_after : Option Nat}

theorem Handed.poll {serve : Option Nat → Except ApiError
    (List StreamFrame)} {settled : Nat} (h : Handed frame resume_after cursor delivered)
    (hseq : ∀ k, (frame k).stream_seq = k) (hserves : Serves serve frame settled)
    (hserve : serve cursor = .ok frames)
    (hdeliver : deliver consume frames cursor delivered = .polling cursor' delivered') :
    Handed frame resume_after cursor' delivered' ∧ cursor'.getD 0 ≤ settled := by
  obtain ⟨hdelivered,hcursor⟩ := deliver_polling hdeliver
  obtain ⟨first,hfrom,hto,hrun⟩ := h.run
  cases cursor with
  | none =>
    have hfirst : first = 0 := Nat.le_zero.mp hto
    have hnone : delivered = [] := by simp [hrun]
    have hresume := h.still hnone
    rw [hserves.fresh,Except.ok.injEq] at hserve
    cases hcount : settled-(settled-STREAM_RESUME_WINDOW_LEN) with
    | zero =>
      rw [hcount] at hserve
      subst hserve
      simp only [List.range'_zero,map_nil,List.getLast?_nil,Option.map_none,
        Option.none_or,append_nil] at hcursor hdelivered
      rw [hcursor,hdelivered]
      exact ⟨h,Nat.zero_le _⟩
    | succ count =>
      rw [hcount] at hserve
      have hend : settled-STREAM_RESUME_WINDOW_LEN+1+count = settled := by omega
      rw [← hserve,last_seq hseq,hend,Option.some_or] at hcursor
      subst hcursor
      refine ⟨⟨⟨settled-STREAM_RESUME_WINDOW_LEN,?_,Nat.sub_le _ _,?_⟩,?_⟩,le_refl _⟩
      · simp [← hresume]
      · rw [hdelivered,hnone,← hserve,nil_append,Option.getD_some,hcount]
      · intro hempty
        rw [hdelivered,← hserve] at hempty
        simp at hempty
  | some c =>
    by_cases hahead : settled < c
    · obtain ⟨message,herror⟩ := hserves.ahead c hahead
      rw [herror] at hserve
      cases hserve
    by_cases hgone : c+STREAM_RESUME_WINDOW_LEN < settled
    · obtain ⟨message,herror⟩ := hserves.evicted c hgone
      rw [herror] at hserve
      cases hserve
    rw [hserves.resumed c (by omega) (by omega),Except.ok.injEq] at hserve
    cases hcount : settled-c with
    | zero =>
      rw [hcount] at hserve
      subst hserve
      simp only [List.range'_zero,map_nil,List.getLast?_nil,Option.map_none,
        Option.none_or,append_nil] at hcursor hdelivered
      rw [hcursor,hdelivered]
      exact ⟨h,by simp only [Option.getD_some]; omega⟩
    | succ count =>
      rw [hcount] at hserve
      have hend : c+1+count = settled := by omega
      rw [← hserve,last_seq hseq,hend,Option.some_or] at hcursor
      subst hcursor
      simp only [Option.getD_some] at hto hrun ⊢
      refine ⟨⟨⟨first,hfrom,by simp only [Option.getD_some]; omega,?_⟩,?_⟩,le_refl _⟩
      · -- the new frames go on where the earlier ones stopped
        have hjoin : List.range' (first+1) (settled-first) =
            List.range' (first+1) (c-first) ++ List.range' (c+1) (count+1) := by
          have hstart : c+1 = first+1+(c-first) := by omega
          have hlength : settled-first = (c-first)+(count+1) := by omega
          rw [hstart,hlength,List.range'_append_1]
        rw [hdelivered,hrun,← hserve,Option.getD_some,hjoin,map_append]
      · intro hempty
        rw [hdelivered,← hserve] at hempty
        simp at hempty

theorem ended_at {store : Nat → RunDb} {polls : Nat}
    (h : streamFollow toJson consume store run_id resume_after polls = .ended cursor delivered) :
    ∃ t, t ≤ polls*POLL_READS ∧ atHead (store t) run_id cursor = .ok true := by
  induction polls with
  | zero => cases h
  | succ polls ih =>
    rw [Nat.succ_mul]
    unfold streamFollow at h
    split at h
    · simp only [pollOnce] at h
      split at h
      · cases h
      split at h
      · split at h
        · cases h
        · rename_i hhead
          cases h
          exact ⟨polls*POLL_READS+(STREAM_RESUME_WINDOW_LEN+1),by
            unfold POLL_READS
            omega,hhead⟩
        · cases h
      · exact absurd h deliver_not_ended
    · obtain ⟨t,hle,hhead⟩ := ih h
      exact ⟨t,by omega,hhead⟩

theorem durableFrames_read {reads : Nat → RunDb}
    (h : durableFrames toJson reads run_id cursor = .ok frames) :
    ∃ now, readRunState (reads 0) run_id = .ok now := by
  obtain ⟨now,hread,_⟩ := Domain.bind_ok h
  exact ⟨now,hread⟩

def Kept (frame : Nat → StreamFrame) (resume_after : Option Nat) (head : Nat) : Feed → Prop
  | .polling cursor delivered => Handed frame resume_after cursor delivered
  | .ended cursor delivered => Handed frame resume_after cursor delivered ∧ cursor.getD 0 ≤ head
  | .dropped _
  | .failed _ _ => True

theorem poll_kept (h : Moments moment) {t last : Nat} (hle : t ≤ last)
    (hlast : ReadAt (moment last).store run_id row state n m) (hseq : ∀ k, (frame k).stream_seq = k)
    (hframe : ∀ i, i < m → stepFrame toJson (moment last).store state run_id i =
      .ok (frame (i+1))) (hhanded : Handed frame resume_after cursor delivered) :
    Kept frame resume_after (settledFrameCount state)
      (pollOnce toJson consume (fun k => (moment (t+k)).store) run_id cursor delivered) := by
  unfold pollOnce
  cases hserve : durableFrames toJson (fun k => (moment (t+k)).store) run_id cursor with
  | error error => trivial
  | ok frames =>
    obtain ⟨now,hread⟩ := durableFrames_read hserve
    obtain ⟨hserves,hgrows⟩ := poll_serves h hle hlast hseq hframe hread
    simp only
    cases hdeliver : deliver consume frames cursor delivered with
    | dropped | failed => trivial
    | ended cursor' delivered' => exact absurd hdeliver deliver_not_ended
    | polling cursor' delivered' =>
      obtain ⟨hnext,hbound⟩ := hhanded.poll hseq hserves hserve hdeliver
      simp only
      cases atHead (moment (t+(STREAM_RESUME_WINDOW_LEN+1))).store run_id cursor' with
      | error error => trivial
      | ok atEnd =>
        cases atEnd with
        | true => exact ⟨hnext,hbound.trans hgrows⟩
        | false => exact hnext

theorem follow_kept (h : Moments moment) {last : Nat}
    (hlast : ReadAt (moment last).store run_id row state n m) (hseq : ∀ k, (frame k).stream_seq = k)
    (hframe : ∀ i, i < m → stepFrame toJson (moment last).store state run_id i =
      .ok (frame (i+1))) (resume_after : Option Nat) {polls : Nat}
    (hle : polls*POLL_READS ≤ last) :
    Kept frame resume_after (settledFrameCount state)
      (streamFollow toJson consume (fun k => (moment k).store) run_id resume_after polls) := by
  induction polls with
  | zero => exact ⟨⟨resume_after.getD 0,le_refl _,le_refl _,by simp⟩,fun _ => rfl⟩
  | succ polls ih =>
    rw [Nat.succ_mul] at hle
    have hbefore := ih (by omega)
    unfold streamFollow
    cases hfeed : streamFollow toJson consume (fun k => (moment k).store) run_id resume_after
        polls with
    | polling cursor delivered =>
      rw [hfeed] at hbefore
      exact poll_kept h (by omega) hlast hseq hframe hbefore
    | dropped delivered => trivial
    | failed error delivered => trivial
    | ended cursor delivered =>
      rw [hfeed] at hbefore
      exact hbefore

theorem ended_head (h : Moments moment) {polls last : Nat} (hle : polls*POLL_READS ≤ last)
    (hend : streamFollow toJson consume (fun k => (moment k).store) run_id resume_after polls =
      .ended cursor delivered) :
    ∃ row state n m, ReadAt (moment last).store run_id row state n m ∧
      state.status.isTerminal = true ∧ settledFrameCount state = m ∧ m ≤ cursor.getD 0 := by
  obtain ⟨t,ht,hhead⟩ := ended_at hend
  obtain ⟨now,hread,hover⟩ := Domain.bind_ok hhead
  have hover := Except.ok.inj hover
  rw [Bool.and_eq_true,decide_eq_true_eq] at hover
  obtain ⟨row₁,n₁,m₁,hnow⟩ := readAt_of (h.settled t) hread
  have hclosed : terminalText row₁.status = true := by
    rw [← hnow.reads.terminal]
    exact hover.1
  obtain ⟨row,hrow,hgrows,hsame⟩ := (h.keeps (ht.trans hle)).runs run_id row₁ hnow.found
  have hsame := hsame hclosed
  obtain ⟨state,hstate⟩ := settled_reads (h.settled last) hrow
  obtain ⟨n,m,hc⟩ := settled_counted (h.settled last) hrow
  have hterminal : terminalText row.status = true := by
    rw [status_untainted hsame]
    exact hclosed
  have hcount := checkpointed_untainted hsame
  rw [hc.checkpointed,hnow.counted.checkpointed] at hcount
  have hthen := (hnow.reads.settled hnow.counted).2
  have hfinal := (hstate.settled hc).2
  rw [if_pos (Or.inl hclosed)] at hthen
  rw [if_pos (Or.inl hterminal)] at hfinal
  exact ⟨row,state,n,m,⟨hrow,hstate,hc⟩,by rw [hstate.terminal,hterminal],hfinal,by omega⟩

end Polls

section Ending
variable {toJson : RunStepFrame → String} {s : RunDb} {run_id : RunId} {row : RunRow}
variable {state : RunState} {n m : Nat} {frame : Nat → StreamFrame}

section
variable (hlast : ReadAt s run_id row state n m)
include hlast

section
variable (hterminal : state.status.isTerminal = true)
include hterminal

theorem stepFrame_carries
    {i : Nat} {f : StreamFrame}
    (hframe : stepFrame toJson s state run_id i = .ok f) (hseq : f.stream_seq = i+1) :
    ∃ body, f = carries toJson body ∧ body.terminal = decide (i+1 = m) ∧
      (i+1 = m → body.run_status = statusName state.status) := by
  have hm := (hlast.reads.settled hlast.counted).1
  unfold stepFrame at hframe
  split at hframe
  · cases hframe
  · cases hframe
  · rename_i step _
    unfold stepStreamFrame at hframe
    split at hframe
    · cases hframe
    · split at hframe
      · cases hframe
      · cases hframe
        simp only at hseq
        refine ⟨⟨_,_,_,_,_,_,_,_,_,_,_,_,_⟩,rfl,?_,?_⟩
        · simp only [hterminal,hm,hseq,Bool.true_and]
        · intro hi
          simp only [hterminal,hm,hseq,hi,Bool.true_and,decide_true,if_true]

theorem exists_bodies
    (hseq : ∀ k, (frame k).stream_seq = k)
    (hframe : ∀ i, i < m → stepFrame toJson s state run_id i = .ok (frame (i+1)))
    {count : Nat} (hcount : count < m) :
    ∃ bodies : List RunStepFrame, (List.range' 1 count).map frame = bodies.map (carries toJson) ∧
      ∀ body ∈ bodies, body.terminal = false := by
  induction count with
  | zero => exact ⟨[],rfl,by simp⟩
  | succ count ih =>
    obtain ⟨bodies,hbodies,hopen⟩ := ih (by omega)
    obtain ⟨body,hbody,hmark,_⟩ := stepFrame_carries hlast hterminal
      (hframe count (by omega)) (hseq _)
    refine ⟨bodies ++ [body],?_,?_⟩
    · rw [List.range'_concat,map_append,map_append,hbodies]
      simp only [Nat.one_mul,map_cons,map_nil,Nat.add_comm 1 count,hbody]
    · intro b hb
      rcases mem_append.mp hb with hb | hb
      · exact hopen b hb
      · rw [mem_singleton.mp hb,hmark]
        exact decide_eq_false (by omega)

theorem closedOff_iff
    (hseq : ∀ k, (frame k).stream_seq = k)
    (hframe : ∀ i, i < m → stepFrame toJson s state run_id i = .ok (frame (i+1))) :
    ClosedOff toJson ((List.range' 1 m).map frame) state.status ↔ 0 < m := by
  cases m with
  | zero =>
    refine ⟨fun hoff => ?_,fun hlt => absurd hlt (lt_irrefl 0)⟩
    obtain ⟨before,last,heq,_⟩ := hoff
    simp at heq
  | succ k =>
    refine ⟨fun _ => Nat.succ_pos k,fun _ => ?_⟩
    obtain ⟨before,hbefore,hopen⟩ := exists_bodies hlast hterminal hseq hframe
      (Nat.lt_succ_self k)
    obtain ⟨last,hbody,hmark,hstatus⟩ := stepFrame_carries hlast hterminal
      (hframe k (Nat.lt_succ_self k)) (hseq _)
    refine ⟨before,last,?_,hopen,?_,hstatus rfl⟩
    · rw [List.range'_concat,map_append,map_append,hbefore]
      simp only [Nat.one_mul,map_cons,map_nil,Nat.add_comm 1 k,hbody]
    · rw [hmark]
      exact decide_eq_true rfl

end

theorem headFrames_eq (hsettled : settledFrameCount state = m)
    (hframe : ∀ i, i < m → stepFrame toJson s state run_id i = .ok (frame (i+1))) :
    headFrames toJson s state = .ok ((List.range' 1 m).map frame) := by
  unfold headFrames
  rw [hsettled,hlast.reads.run,mapM_ok (g := fun i => frame (i+1)) fun i hi =>
    hframe i (mem_range.mp hi),List.range'_eq_map_range,map_map]
  congr 2
  funext i
  simp [Nat.add_comm]

end

end Ending

/-- A feed that ends because its Run is closed shows that end exactly when a step
of the Run was checkpointed: there is no frame to carry it otherwise. -/
theorem feed_shows_end_iff (toJson : RunStepFrame → String)
    (consume : List StreamFrame → StreamFrame → Bool) {moment : Nat → RunConfig}
    (h : Moments moment) {run_id : RunId} {resume_after cursor : Option Nat}
    {delivered : List StreamFrame} {polls last : Nat} (hle : polls*POLL_READS ≤ last)
    (hend : streamFollow toJson consume (fun k => (moment k).store) run_id resume_after polls =
      .ended cursor delivered) :
    ShowsEnd toJson (moment last).store run_id resume_after delivered ↔
      ∃ row, (moment last).store.runs.get? run_id = some row ∧ 0 < row.checkpointed_step_count := by
  obtain ⟨row,state,n,m,hlast,hterminal,hsettled,hcursor⟩ := ended_head h hle hend
  obtain ⟨frame,hseq,hframe⟩ := exists_frames toJson (h.settled last) hlast
  have hkept := @follow_kept toJson consume _ _ _ _ _ _ _ h last hlast hseq hframe resume_after
    polls hle
  rw [hend,hsettled] at hkept
  obtain ⟨hhanded,hbound⟩ := hkept
  have hhead := headFrames_eq hlast hsettled hframe
  have hoff := closedOff_iff hlast hterminal hseq hframe
  have hcount := hlast.counted.checkpointed
  constructor
  · rintro ⟨st,frames,hread,_,hframes,hclosed,_⟩
    have hst := hlast.reads.read.symm.trans hread
    cases hst
    have heq := hhead.symm.trans hframes
    cases heq
    have hpos := hoff.mp hclosed
    exact ⟨row,hlast.found,by omega⟩
  · rintro ⟨found,hfound,hpos⟩
    have hsame := hlast.found.symm.trans hfound
    cases hsame
    refine ⟨state,_,hlast.reads.read,hterminal,hhead,hoff.mpr (by omega),?_,?_⟩
    · -- what was handed on is the end of what there is
      obtain ⟨first,_,hto,hrun⟩ := hhanded.run
      have hwhole : List.range' 1 m =
          List.range' 1 first ++ List.range' (first+1) (cursor.getD 0-first) := by
        have hlength : m = first+(cursor.getD 0-first) := by omega
        conv_lhs => rw [hlength]
        rw [← List.range'_append_1,Nat.add_comm 1 first]
      rw [hrun,hwhole,map_append]
      exact suffix_append _ _
    · intro hlt hempty
      rw [hhanded.still hempty] at hcursor
      simp only [length_map,length_range'] at hlt
      omega

theorem canceledBeforeStep : Moments fun _ =>
    after runSystem RunDb.empty cancelThenFinishMoves where
  start := after_sequential (fun _ => true = true) (fun _ _ _ => trivial) (by decide)
    (by decide)
  next _ := .refl

def endsWithout : Feed → Bool
  | .ended none [] => true
  | _ => false

theorem endsWithout_eq {feed : Feed} (h : endsWithout feed = true) : feed = .ended none [] := by
  unfold endsWithout at h
  split at h
  · rfl
  · cases h

/-- The feed of a Run that is canceled before its first step ends without a
frame. -/
theorem canceled_feed_shows_nothing :
    ¬ ∀ (toJson : RunStepFrame → String) (consume : List StreamFrame → StreamFrame → Bool)
      (moment : Nat → RunConfig), Moments moment → ∀ (run_id : RunId)
      (resume_after cursor : Option Nat) (delivered : List StreamFrame) (polls : Nat),
      streamFollow toJson consume (fun k => (moment k).store) run_id resume_after polls =
        .ended cursor delivered →
      ShowsEnd toJson (moment (polls*POLL_READS)).store run_id resume_after delivered := by
  intro h
  have hend := @endsWithout_eq (streamFollow (fun _ => "") (fun _ _ => true)
    (fun _ => (after runSystem RunDb.empty cancelThenFinishMoves).store) ⟨7⟩ none 1)
    (by decide)
  obtain ⟨state,frames,hread,_,hframes,⟨before,last,heq,_⟩,_⟩ :=
    h _ _ _ canceledBeforeStep _ _ _ _ _ hend
  have hzero : (readRunState (after runSystem RunDb.empty cancelThenFinishMoves).store ⟨7⟩).toOption.map
      settledFrameCount = some 0 := by decide
  rw [hread] at hzero
  have hsettled : settledFrameCount state = 0 := Option.some.inj hzero
  have hnone : frames = [] := by
    rw [headFrames,hsettled] at hframes
    exact (Except.ok.inj hframes).symm
  simp [hnone] at heq

def usualReport : ToolEffectReport := ⟨0,0,⟨5,5,5,5,1,0,1⟩,none,none⟩

def finishedMoves : List (Move runSignature HarnessCall) :=
  [.spawn 0 (.start demoHarness demoSpec),.turn 0,.turn 0,.turn 0,.turn 0,.stop 0,
    .spawn 0 (.prepareStep demoHarness ⟨7⟩ demoPlan none),.turn 0,.turn 0,.clock 0 0,.turn 0,
    .turn 0,.stop 0,
    .spawn 0 (.recordEffect demoCall usualReport),.turn 0,.turn 0,.turn 0,.turn 0,.turn 0,.stop 0,
    .spawn 0 (.finish ⟨7⟩ .completed),.turn 0,.turn 0,.turn 0,.turn 0,.stop 0]

theorem finishedAfterStep : Moments fun _ => after runSystem RunDb.empty finishedMoves where
  start := after_sequential (fun _ => true = true) (fun _ _ _ => trivial) (by decide)
    (by decide)
  next _ := .refl

def endedAt (cursor : Nat) : Feed → Bool
  | .ended (some c) _ => c == cursor
  | _ => false

theorem endedAt_eq {cursor : Nat} {feed : Feed} (h : endedAt cursor feed = true) :
    ∃ delivered, feed = .ended (some cursor) delivered := by
  unfold endedAt at h
  split at h
  · rename_i c delivered
    exact ⟨delivered,by rw [beq_iff_eq.mp h]⟩
  · cases h

theorem finished_feed_shows_end : ∃ delivered,
    streamFollow (fun _ => "") (fun _ _ => true)
      (fun _ => (after runSystem RunDb.empty finishedMoves).store) ⟨7⟩ none 1 =
        .ended (some 1) delivered ∧
    ShowsEnd (fun _ => "") (after runSystem RunDb.empty finishedMoves).store ⟨7⟩ none delivered := by
  obtain ⟨delivered,hend⟩ := @endedAt_eq 1 (streamFollow (fun _ => "") (fun _ _ => true)
    (fun _ => (after runSystem RunDb.empty finishedMoves).store) ⟨7⟩ none 1) (by decide)
  have hstep : ((after runSystem RunDb.empty finishedMoves).store.runs.get? ⟨7⟩).map
      RunRow.checkpointed_step_count = some 1 := by decide
  obtain ⟨row,hrow,hone⟩ := Option.map_eq_some_iff.mp hstep
  exact ⟨delivered,hend,(feed_shows_end_iff _ _ finishedAfterStep (le_refl _) hend).mpr
    ⟨row,hrow,by omega⟩⟩

section Sequence
variable {moment : Nat → RunConfig} (h : Moments moment) {run_id : RunId}
include h

theorem exists_frame (toJson : RunStepFrame → String) (seq : Nat) : ∃ frame : StreamFrame,
    frame.stream_seq = seq ∧ ∀ i k state, i+1 = seq →
      readRunState (moment k).store run_id = .ok state → i < settledFrameCount state →
        stepFrame toJson (moment k).store state run_id i = .ok frame := by
  by_cases hsome : ∃ i j state, i+1 = seq ∧ readRunState (moment j).store run_id = .ok state ∧
      i < settledFrameCount state
  · obtain ⟨i,j,state,rfl,hj,hi⟩ := hsome
    obtain ⟨row,n,m,hat⟩ := readAt_of (h.settled j) hj
    obtain ⟨frame,hframe,hseq⟩ := stepFrame_ok toJson (h.settled j) hat.reads hat.counted
      (lt_of_lt_of_le hi (settled_le_checkpointed hat.reads hat.counted))
    refine ⟨frame,hseq,fun i' k state' heq hk hi' => ?_⟩
    obtain rfl := Nat.succ.inj heq
    rw [← hframe]
    rcases Nat.le_total j k with hle | hle
    · exact (settled_since h toJson hle hj hk).2 i' hi
    · exact ((settled_since h toJson hle hk hj).2 i' hi').symm
  · exact ⟨⟨seq,"",""⟩,rfl,fun i k state heq hk hi => absurd ⟨i,k,state,heq,hk,hi⟩ hsome⟩

/-- The frames of a Run are one sequence: whatever the moment of a poll, its cursor and
what happens between its reads, it serves the part of that sequence behind the cursor,
and what is settled never shrinks. -/
theorem polls_serve_one_sequence (toJson : RunStepFrame → String) (run_id : RunId) :
    (∀ j k state state', j ≤ k → readRunState (moment j).store run_id = .ok state →
      readRunState (moment k).store run_id = .ok state' →
        settledFrameCount state ≤ settledFrameCount state') ∧
    ∃ frame : Nat → StreamFrame, (∀ i, (frame i).stream_seq = i) ∧
      ∀ k state, readRunState (moment k).store run_id = .ok state →
        Serves (durableFrames toJson (fun d => (moment (k+d)).store) run_id) frame
          (settledFrameCount state) := by
  refine ⟨fun j k state state' hle hj hk => (settled_since h toJson hle hj hk).1,?_⟩
  choose frame hseq hframe using @exists_frame moment h run_id toJson
  refine ⟨frame,hseq,fun k state hk => ?_⟩
  obtain ⟨row,n,m,hat⟩ := readAt_of (h.settled k) hk
  refine durableFrames_serves toJson hk hseq fun i d hi => ?_
  rw [stepFrame_later toJson (h.keeps (Nat.le_add_right k d)) hat.reads hat.counted
    (lt_of_lt_of_le hi (settled_le_checkpointed hat.reads hat.counted))]
  exact hframe (i+1) i k state rfl hk hi

end Sequence

theorem finished_polls_serve_one_sequence : ∃ frame : Nat → StreamFrame,
    durableFrames (fun _ => "") (fun _ => (after runSystem RunDb.empty finishedMoves).store) ⟨7⟩
      (some 0) = .ok [frame 1] := by
  obtain ⟨-,frame,-,hserves⟩ := polls_serve_one_sequence finishedAfterStep (fun _ => "") ⟨7⟩
  have hread : ∃ state, readRunState (after runSystem RunDb.empty finishedMoves).store ⟨7⟩ =
      .ok state ∧ settledFrameCount state = 1 := ⟨_,rfl,by decide⟩
  obtain ⟨state,hstate,hone⟩ := hread
  have hall := hserves 0 state hstate
  rw [hone] at hall
  exact ⟨frame,hall.resumed 0 (by decide) (by decide)⟩

end ProjectOS.Api.RunFeed
