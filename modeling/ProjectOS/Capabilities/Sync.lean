import Mathlib.Data.List.Range
import ProjectOS.Foundation
import ProjectOS.Lib.Table

/-! Direct sync: frames pushed and pulled by sequence numbers that the caller
chooses. What would overflow has no answer here. -/

namespace ProjectOS.Capabilities
open Lib List

def SYNC_FRAME_BATCH_COUNT_MAX : Nat := 256
def SYNC_FRAME_PROJECT_COUNT_MAX : Nat := 4096

inductive CapabilityError where
  | invalidRequest (field reason : String)
  | resourceExhausted (resource : String) (limit : Nat)
  | conflict (resource : String)

structure SyncFrame where
  seq : Nat
  payload : Bytes
  deriving DecidableEq

structure DirectSync where
  frames : Table ProjectId (List SyncFrame)

def nextSeq (seq : Nat) : Option Nat := if seq+1 ≤ u64Max then some (seq+1) else none

def brokenAfter : Nat → List SyncFrame → Option Bool
  | _, [] => some false
  | seq, frame :: frames =>
    (nextSeq seq).bind fun next =>
      if frame.seq ≠ next then some true else brokenAfter frame.seq frames

def lastSeq (frames : List SyncFrame) : Option Nat := frames.getLast?.map SyncFrame.seq

def expectedFirst (existing : List SyncFrame) : Option Nat :=
  match lastSeq existing with
  | none => some 1
  | some seq => nextSeq seq

namespace DirectSync

def stored (s : DirectSync) (project_id : ProjectId) : List SyncFrame :=
  (s.frames.get? project_id).getD []

def push (s : DirectSync) (project_id : ProjectId) (frames : List SyncFrame) :
    Option (Except CapabilityError Nat × DirectSync) :=
  match frames with
  | [] => some (.error (.invalidRequest "frames" "frame count must be between 1 and 256"),s)
  | first :: rest =>
    if SYNC_FRAME_BATCH_COUNT_MAX < frames.length then
      some (.error (.invalidRequest "frames" "frame count must be between 1 and 256"),s)
    else
      let existing := s.stored project_id
      let entered : DirectSync := ⟨s.frames.put project_id existing⟩
      if SYNC_FRAME_PROJECT_COUNT_MAX < existing.length+frames.length then
        some (.error (.resourceExhausted "direct-sync frames per project"
          SYNC_FRAME_PROJECT_COUNT_MAX),entered)
      else
        (expectedFirst existing).bind fun expected_first =>
          (if first.seq ≠ expected_first then some true else brokenAfter first.seq rest).map
            fun broken =>
              if broken then (.error (.conflict "sync sequence"),entered)
              else
                (.ok ((lastSeq frames).getD (expected_first-1)),
                  ⟨s.frames.put project_id (existing ++ frames)⟩)

def pull (s : DirectSync) (project_id : ProjectId) (after_seq limit : Nat) :
    Except CapabilityError (List SyncFrame × Nat) :=
  if limit = 0 ∨ SYNC_FRAME_BATCH_COUNT_MAX < limit then
    .error (.invalidRequest "limit" "pull limit must be between 1 and 256")
  else
    .ok (((s.stored project_id).filter fun frame => after_seq < frame.seq).take limit,
      (lastSeq (s.stored project_id)).getD 0)

end DirectSync

structure Followed where
  sync : DirectSync
  seen : List SyncFrame

inductive SyncMove where
  | push (project_id : ProjectId) (frames : List SyncFrame)
  | pull (project_id : ProjectId) (after_seq limit : Nat)
  | follow (limit : Nat)

variable (project_id : ProjectId)

def Followed.step (s : Followed) : SyncMove → Option Followed
  | .push p frames => (s.sync.push p frames).map fun out => ⟨out.2,s.seen⟩
  | .pull _ _ _ => some s
  | .follow limit =>
    match s.sync.pull project_id ((lastSeq s.seen).getD 0) limit with
    | .error _ => some s
    | .ok (frames,_) => some ⟨s.sync,s.seen ++ frames⟩

def Followed.run (s : Followed) (moves : List SyncMove) : Option Followed :=
  moves.foldlM (Followed.step project_id) s

def Followed.start : Followed := ⟨⟨Table.empty⟩,[]⟩

def Contiguous (frames : List SyncFrame) : Prop :=
  frames.map SyncFrame.seq = List.range' 1 frames.length

/-- Every project's frames are stored without a gap, and not too many. -/
structure DirectSync.Sound (s : DirectSync) : Prop where
  contiguous : ∀ p, Contiguous (s.stored p)
  bounded : ∀ p, (s.stored p).length ≤ SYNC_FRAME_PROJECT_COUNT_MAX

variable {project_id : ProjectId} {frames fs : List SyncFrame} {s s' : DirectSync}

theorem lastSeq_of_map {first : Nat} (h : frames.map SyncFrame.seq = List.range' first frames.length)
    (hne : frames ≠ []) : lastSeq frames = some (first+frames.length-1) := by
  have hlength := length_pos_iff.mpr hne
  rw [lastSeq,← List.getLast?_map,h,List.getLast?_range',if_neg (by omega)]

theorem Contiguous.lastSeq_getD (h : Contiguous frames) : (lastSeq frames).getD 0 = frames.length := by
  by_cases hne : frames = []
  · subst hne
    rfl
  · rw [lastSeq_of_map h hne,Option.getD_some]
    omega

theorem Contiguous.expectedFirst (h : Contiguous frames)
    (hbounded : frames.length ≤ SYNC_FRAME_PROJECT_COUNT_MAX) :
    expectedFirst frames = some (frames.length+1) := by
  have hmax : SYNC_FRAME_PROJECT_COUNT_MAX < u64Max := by decide
  by_cases hne : frames = []
  · subst hne
    rfl
  · have hlength := length_pos_iff.mpr hne
    have hlast : 1+frames.length-1 = frames.length := by omega
    rw [Capabilities.expectedFirst,lastSeq_of_map h hne,hlast]
    exact if_pos (by omega)

theorem Contiguous.take (h : Contiguous frames) (n : Nat) : Contiguous (frames.take n) := by
  rw [Contiguous,map_take,h,length_take]
  rcases Nat.le_total n frames.length with hn | hn
  · rw [take_range'_of_length_ge hn,Nat.min_eq_left hn]
  · rw [take_range'_of_length_le hn,Nat.min_eq_right hn]

theorem brokenAfter_eq {seq : Nat} (h : seq+frames.length ≤ u64Max) :
    brokenAfter seq frames =
      some (decide (frames.map SyncFrame.seq ≠ List.range' (seq+1) frames.length)) := by
  induction frames generalizing seq with
  | nil => rfl
  | cons frame frames ih =>
    rw [length_cons] at h
    rw [brokenAfter,nextSeq,if_pos (by omega),Option.bind_some]
    by_cases hseq : frame.seq = seq+1
    · rw [if_neg (not_not.mpr hseq),ih (by omega),hseq]
      simp [List.range'_succ,hseq]
    · simp [List.range'_succ,hseq]

theorem DirectSync.stored_put (p q : ProjectId) :
    DirectSync.stored ⟨s.frames.put p fs⟩ q = if q = p then fs else s.stored q := by
  rw [stored,Table.get?_put]
  split_ifs <;> rfl

theorem DirectSync.stored_entered (p q : ProjectId) :
    DirectSync.stored ⟨s.frames.put p (s.stored p)⟩ q = s.stored q := by
  rw [stored_put]
  split_ifs with h
  · rw [h]
  · rfl

theorem DirectSync.push_cases (hs : s.Sound) (project_id : ProjectId) (frames : List SyncFrame) :
    (∃ e s', s.push project_id frames = some (.error e,s') ∧ ∀ p, s'.stored p = s.stored p) ∨
      frames.map SyncFrame.seq = List.range' ((s.stored project_id).length+1) frames.length ∧
        (s.stored project_id).length+frames.length ≤ SYNC_FRAME_PROJECT_COUNT_MAX ∧
        s.push project_id frames = some (.ok ((s.stored project_id).length+frames.length),
          ⟨s.frames.put project_id (s.stored project_id ++ frames)⟩) := by
  cases frames with
  | nil => exact Or.inl ⟨_,_,rfl,fun _ => rfl⟩
  | cons first rest =>
    simp only [push]
    split_ifs with hbatch hroom
    · exact Or.inl ⟨_,_,rfl,fun _ => rfl⟩
    · exact Or.inl ⟨_,_,rfl,stored_entered project_id⟩
    have hmax : SYNC_FRAME_PROJECT_COUNT_MAX < u64Max := by decide
    rw [(hs.contiguous project_id).expectedFirst (hs.bounded project_id),Option.bind_some]
    rw [length_cons] at hroom
    by_cases hfirst : first.seq = (s.stored project_id).length+1
    · rw [if_neg (not_not.mpr hfirst),brokenAfter_eq (by rw [hfirst]; omega),Option.map_some]
      by_cases hrest : rest.map SyncFrame.seq = List.range' (first.seq+1) rest.length
      · right
        have hmap : (first :: rest).map SyncFrame.seq =
            List.range' ((s.stored project_id).length+1) (first :: rest).length := by
          rw [map_cons,hrest,hfirst,length_cons,List.range'_succ]
        refine ⟨hmap,by rw [length_cons]; omega,?_⟩
        rw [lastSeq_of_map hmap (cons_ne_nil _ _)]
        have hlast : (s.stored project_id).length+1+(first :: rest).length-1 =
            (s.stored project_id).length+(first :: rest).length := by omega
        simp only [hrest,hlast,ne_eq,not_true_eq_false,decide_false,Bool.false_eq_true,if_false,
          Option.getD_some]
      · refine Or.inl ⟨.conflict "sync sequence",_,?_,stored_entered project_id⟩
        simp [hrest]
    · refine Or.inl ⟨.conflict "sync sequence",_,?_,stored_entered project_id⟩
      simp [hfirst]

theorem Contiguous.append (h : Contiguous frames)
    (hmap : fs.map SyncFrame.seq = List.range' (frames.length+1) fs.length) :
    Contiguous (frames ++ fs) := by
  rw [Contiguous,map_append,h,hmap,length_append,Nat.add_comm frames.length 1,
    List.range'_append_1]

theorem DirectSync.push_sound (hs : s.Sound) (project_id : ProjectId) (frames : List SyncFrame) :
    ∃ out, s.push project_id frames = some out ∧ out.2.Sound ∧
      ∀ p, s.stored p <+: out.2.stored p := by
  rcases push_cases hs project_id frames with ⟨e,s',hpush,hsame⟩ | ⟨hmap,hroom,hpush⟩
  · refine ⟨_,hpush,⟨fun p => ?_,fun p => ?_⟩,fun p => (hsame p) ▸ prefix_refl _⟩
    · exact (hsame p).symm ▸ hs.contiguous p
    · exact (hsame p).symm ▸ hs.bounded p
  · refine ⟨_,hpush,⟨fun p => ?_,fun p => ?_⟩,fun p => ?_⟩ <;> rw [stored_put] <;> split_ifs with hp
    · exact (hs.contiguous project_id).append hmap
    · exact hs.contiguous p
    · rw [length_append]
      exact hroom
    · exact hs.bounded p
    · exact hp ▸ prefix_append _ _
    · exact prefix_refl _

theorem filter_seq_eq {first : Nat} (n : Nat)
    (h : frames.map SyncFrame.seq = List.range' (first+1) frames.length) :
    frames.filter (fun frame => decide (first+n < frame.seq)) = frames.drop n := by
  induction frames generalizing first n with
  | nil => simp
  | cons frame frames ih =>
    rw [map_cons,length_cons,List.range'_succ] at h
    obtain ⟨hseq,hrest⟩ := List.cons.inj h
    cases n with
    | zero =>
      have hlater : ∀ later ∈ frames, first < later.seq := fun later hlater => by
        have hmem : later.seq ∈ frames.map SyncFrame.seq := mem_map_of_mem hlater
        rw [hrest,mem_range'_1] at hmem
        omega
      simpa [hseq,filter_eq_self] using hlater
    | succ n =>
      rw [drop_succ_cons,← ih n hrest,filter_cons_of_neg (by simp [hseq])]
      congr 1
      funext later
      rw [Nat.add_right_comm,Nat.add_assoc]

theorem DirectSync.pull_eq (hs : s.Sound) (p : ProjectId) (n : Nat) {limit : Nat}
    (hlimit : 0 < limit ∧ limit ≤ SYNC_FRAME_BATCH_COUNT_MAX) :
    s.pull p n limit = .ok (((s.stored p).drop n).take limit,(s.stored p).length) := by
  have hnext := @filter_seq_eq _ 0 n (hs.contiguous p)
  rw [Nat.zero_add] at hnext
  rw [pull,if_neg (by omega),hnext,(hs.contiguous p).lastSeq_getD]

/-- A follower has seen a front part of what is stored. -/
structure Followed.Kept (project_id : ProjectId) (s : Followed) : Prop where
  sound : s.sync.Sound
  seen : s.seen <+: s.sync.stored project_id

theorem Followed.start_kept (project_id : ProjectId) : Followed.start.Kept project_id :=
  ⟨⟨fun _ => rfl,fun _ => Nat.zero_le _⟩,List.nil_prefix⟩

theorem Followed.step_follow {s : Followed} (hs : s.Kept project_id) {limit : Nat}
    (hlimit : 0 < limit ∧ limit ≤ SYNC_FRAME_BATCH_COUNT_MAX) :
    s.step project_id (.follow limit) =
      some ⟨s.sync,s.seen ++ ((s.sync.stored project_id).drop s.seen.length).take limit⟩ := by
  have hseen : Contiguous s.seen := by
    rw [prefix_iff_eq_take.mp hs.seen]
    exact (hs.sound.contiguous project_id).take _
  rw [step,hseen.lastSeq_getD,DirectSync.pull_eq hs.sound project_id _ hlimit]

theorem front_append {seen stored : List SyncFrame} (h : seen <+: stored) (limit : Nat) :
    seen ++ (stored.drop seen.length).take limit <+: stored := by
  obtain ⟨later,rfl⟩ := h
  rw [drop_left]
  exact (prefix_append_right_inj seen).mpr (List.take_prefix limit later)

theorem Followed.step_kept {s : Followed} (hs : s.Kept project_id) (move : SyncMove) :
    ∃ s', s.step project_id move = some s' ∧ s'.Kept project_id := by
  cases move with
  | push p frames =>
    obtain ⟨out,hpush,hsound,hfront⟩ := DirectSync.push_sound hs.sound p frames
    refine ⟨⟨out.2,s.seen⟩,?_,hsound,hs.seen.trans (hfront project_id)⟩
    rw [step,hpush,Option.map_some]
  | pull p after_seq limit => exact ⟨s,rfl,hs⟩
  | follow limit =>
    by_cases hlimit : 0 < limit ∧ limit ≤ SYNC_FRAME_BATCH_COUNT_MAX
    · exact ⟨_,step_follow hs hlimit,hs.sound,front_append hs.seen limit⟩
    · have hrefused : limit = 0 ∨ SYNC_FRAME_BATCH_COUNT_MAX < limit := by omega
      exact ⟨s,by rw [step,DirectSync.pull,if_pos hrefused],hs⟩

theorem Followed.run_kept {s : Followed} (hs : s.Kept project_id) (moves : List SyncMove) :
    ∃ s', s.run project_id moves = some s' ∧ s'.Kept project_id := by
  induction moves generalizing s with
  | nil => exact ⟨s,rfl,hs⟩
  | cons move moves ih =>
    obtain ⟨mid,hstep,hmid⟩ := step_kept hs move
    obtain ⟨s',hrun,hs'⟩ := ih hmid
    refine ⟨s',?_,hs'⟩
    rw [run,foldlM_cons,hstep]
    exact hrun

theorem Followed.run_follow {s : Followed} (hs : s.Kept project_id) {limits : List Nat}
    (hlimits : ∀ limit ∈ limits, 0 < limit ∧ limit ≤ SYNC_FRAME_BATCH_COUNT_MAX)
    (hmany : (s.sync.stored project_id).length ≤ s.seen.length+limits.length) :
    s.run project_id (limits.map SyncMove.follow) =
      some ⟨s.sync,s.sync.stored project_id⟩ := by
  induction limits generalizing s with
  | nil => rw [← hs.seen.eq_of_length_le hmany]; rfl
  | cons limit limits ih =>
    have hstep := step_follow hs (hlimits limit mem_cons_self)
    have hkept := front_append hs.seen limit
    have hpos := hlimits limit mem_cons_self
    rw [map_cons,run,foldlM_cons,hstep]
    refine ih ⟨hs.sound,hkept⟩ (fun l hl => hlimits l (mem_cons_of_mem _ hl)) ?_
    rw [length_cons] at hmany
    simp only [length_append,length_take,length_drop]
    omega

/-- Whatever was pushed and pulled before. -/
theorem direct_sync_contiguous (project_id : ProjectId) (moves : List SyncMove) :
    ∃ s, Followed.start.run project_id moves = some s ∧
      (∀ p, Contiguous (s.sync.stored p)) ∧
      (∀ p frames, ∃ out, s.sync.push p frames = some out ∧
        (∀ e, out.1 = .error e → (∀ q, out.2.stored q = s.sync.stored q) ∧
          ∀ q after_seq limit, out.2.pull q after_seq limit = s.sync.pull q after_seq limit) ∧
        ∀ last, out.1 = .ok last → last = (s.sync.stored p).length+frames.length ∧
          ∀ q, out.2.stored q = if q = p then s.sync.stored p ++ frames else s.sync.stored q) ∧
      s.seen <+: s.sync.stored project_id ∧
      ∀ limits : List Nat, (∀ limit ∈ limits, 0 < limit ∧ limit ≤ SYNC_FRAME_BATCH_COUNT_MAX) →
        (s.sync.stored project_id).length ≤ s.seen.length+limits.length →
          s.run project_id (limits.map SyncMove.follow) =
            some ⟨s.sync,s.sync.stored project_id⟩ := by
  obtain ⟨s,hrun,hs⟩ := Followed.run_kept (Followed.start_kept project_id) moves
  refine ⟨s,hrun,hs.sound.contiguous,fun p frames => ?_,hs.seen,
    fun limits => Followed.run_follow hs⟩
  rcases DirectSync.push_cases hs.sound p frames with ⟨e,s',hpush,hsame⟩ | ⟨_,_,hpush⟩
  · refine ⟨_,hpush,fun _ _ => ⟨hsame,fun q after_seq limit => ?_⟩,fun _ hok => by cases hok⟩
    simp only [DirectSync.pull,hsame]
  · refine ⟨_,hpush,fun _ he => (by cases he),fun last hok => ?_⟩
    cases hok
    exact ⟨rfl,DirectSync.stored_put p⟩

def twoFrames : List SyncFrame := [⟨1,[7]⟩,⟨2,[8]⟩]

theorem two_frames_pushed :
    ∃ s, Followed.start.run ⟨0⟩ [.push ⟨0⟩ twoFrames,.follow 1] = some s ∧
      s.sync.stored ⟨0⟩ = twoFrames ∧ s.run ⟨0⟩ [.follow 1] = some ⟨s.sync,twoFrames⟩ := by
  obtain ⟨s,hrun,-,-,-,hfollow⟩ :=
    direct_sync_contiguous ⟨0⟩ [.push ⟨0⟩ twoFrames,.follow 1]
  have hstate : (Followed.start.run ⟨0⟩ [.push ⟨0⟩ twoFrames,.follow 1]).map
      (fun s => (s.sync.stored ⟨0⟩,s.seen.length)) = some (twoFrames,1) := by decide
  rw [hrun,Option.map_some,Option.some.injEq,Prod.mk.injEq] at hstate
  obtain ⟨hstored,hseen⟩ := hstate
  have hrest := hfollow [1] (by decide) (by rw [hstored,hseen]; decide)
  rw [hstored] at hrest
  exact ⟨s,hrun,hstored,hrest⟩

end ProjectOS.Capabilities
