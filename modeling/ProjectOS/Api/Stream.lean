import Mathlib.Data.List.Range
import ProjectOS.Api.Surface

/-! The stream surface: how a frame is written, and the frames a client that
comes back can still be served. -/

namespace ProjectOS.Api
open List

def STREAM_RESUME_WINDOW_LEN : Nat := 256

def SSE_RETRY_MS : Nat := 2000

def StreamFrame.toSse (frame : StreamFrame) : String :=
  "id: " ++ toString frame.stream_seq ++ "\nevent: " ++ frame.event_kind ++ "\ndata: " ++
    frame.data_json ++ "\n\n"

def sseRetry : String := "retry: " ++ toString SSE_RETRY_MS ++ "\n\n"

def sseBody (frames : List StreamFrame) : String :=
  frames.foldl (fun body frame => body ++ frame.toSse) sseRetry

structure ResumeWindow where
  frames : List StreamFrame
  bounded : frames.length ≤ STREAM_RESUME_WINDOW_LEN

namespace ResumeWindow

def new : ResumeWindow := ⟨[],Nat.zero_le _⟩

def push (window : ResumeWindow) (frame : StreamFrame) : ResumeWindow :=
  if h : window.frames.length = STREAM_RESUME_WINDOW_LEN then
    ⟨window.frames.tail ++ [frame],by
      simp only [length_append,length_tail,length_singleton]
      have hpos : 0 < STREAM_RESUME_WINDOW_LEN := by decide
      omega⟩
  else
    ⟨window.frames ++ [frame],by
      have hle := window.bounded
      simp only [length_append,length_singleton]
      omega⟩

def framesAfter (window : ResumeWindow) (cursor : Option Nat) :
    Except ApiError (List StreamFrame) :=
  match cursor with
  | none => .ok window.frames
  | some cursor =>
    match window.frames with
    | [] => .ok []
    | oldest :: _ =>
      if cursor+1 < oldest.stream_seq then
        .error ⟨"resume_window_exceeded",s!"cursor {cursor} predates the " ++
          s!"{STREAM_RESUME_WINDOW_LEN}-frame resume window (oldest retained seq " ++
          s!"{oldest.stream_seq}); refetch state through a query",false⟩
      else .ok (window.frames.filter fun frame => cursor < frame.stream_seq)

theorem push_room {window : ResumeWindow} (h : window.frames.length < STREAM_RESUME_WINDOW_LEN)
    (frame : StreamFrame) : (window.push frame).frames = window.frames ++ [frame] := by
  rw [push,dif_neg (Nat.ne_of_lt h)]

theorem filter_range' {frames : List StreamFrame} {first count : Nat}
    (h : frames.map StreamFrame.stream_seq = List.range' first count) (k : Nat) :
    (frames.filter fun frame => first+k ≤ frame.stream_seq) = frames.drop k := by
  induction frames generalizing first count k with
  | nil => simp
  | cons frame frames ih =>
    cases count with
    | zero => simp at h
    | succ count =>
      simp only [map_cons,List.range'_succ,List.cons.injEq] at h
      cases k with
      | zero =>
        have hall : ∀ f ∈ frame :: frames, first ≤ f.stream_seq := by
          intro f hf
          rcases mem_cons.mp hf with rfl | hf
          · omega
          · have hmem := mem_map_of_mem (f := StreamFrame.stream_seq) hf
            rw [h.2,mem_range'_1] at hmem
            omega
        simpa using hall
      | succ k =>
        have hlt : ¬ first+(k+1) ≤ frame.stream_seq := by omega
        have hrest := ih h.2 k
        rw [Nat.add_assoc,Nat.add_comm 1 k] at hrest
        simp [hlt,hrest]

theorem framesAfter_cursor {window : ResumeWindow} {first count : Nat}
    (h : window.frames.map StreamFrame.stream_seq = List.range' (first+1) count) (cursor : Nat)
    (hcursor : cursor ≤ first+count) :
    (first ≤ cursor ∨ count = 0 → window.framesAfter (some cursor) =
      .ok (window.frames.drop (cursor-first))) ∧
    (cursor < first → count ≠ 0 → ∃ message,
      window.framesAfter (some cursor) = .error ⟨"resume_window_exceeded",message,false⟩) := by
  cases hw : window.frames with
  | nil =>
    rw [hw] at h
    have hcount : count = 0 := by simpa using (congrArg List.length h).symm
    refine ⟨fun _ => ?_,fun _ hne => absurd hcount hne⟩
    simp [framesAfter,hw]
  | cons oldest rest =>
    rw [hw] at h
    have hseqs := h
    cases count with
    | zero => simp at h
    | succ count =>
      simp only [map_cons,List.range'_succ,List.cons.injEq] at h
      constructor
      · intro hle
        have hnot : ¬ cursor+1 < oldest.stream_seq := by omega
        have hfilter := filter_range' hseqs (cursor-first)
        simp only [framesAfter,hw,if_neg hnot]
        rw [← hfilter]
        congr 1
        refine filter_congr fun frame _ => ?_
        simp only [decide_eq_decide]
        omega
      · intro hlt _
        have hgap : cursor+1 < oldest.stream_seq := by omega
        simp only [framesAfter,hw,if_pos hgap]
        exact ⟨_,rfl⟩

end ResumeWindow

end ProjectOS.Api
