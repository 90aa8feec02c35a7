import ProjectOS.Ingest.Chunk

/-! The segments of an index in groups, a group for each window the stage closes. -/

namespace ProjectOS.Ingest
open Lib Domain List

def windowOf (group : List Segment) : Window := group.foldl Window.push .empty

def joined (p : ChunkParams) (group : List Segment) (segment : Segment) : List Segment :=
  (if (windowOf group).wouldClose segment p then [] else group) ++ [segment]

def groupsFrom (p : ChunkParams) : List Segment → List Segment → List (List Segment)
  | group, [] => if group = [] then [] else [group]
  | group, segment :: segments =>
    (if (windowOf group).wouldClose segment p then [group] else []) ++
      if p.boundary = .perSegment ∨ (windowOf (joined p group segment)).exceedsMax p then
        joined p group segment :: groupsFrom p [] segments
      else groupsFrom p (joined p group segment) segments

def groupsOf (p : ChunkParams) (segments : List Segment) : List (List Segment) :=
  groupsFrom p [] segments

theorem windowOf_snoc (group : List Segment) (segment : Segment) :
    windowOf (group ++ [segment]) = (windowOf group).push segment := by
  simp [windowOf]

theorem push_isEmpty (w : Window) (segment : Segment) : (w.push segment).isEmpty = false := by
  unfold Window.push
  split_ifs
  · rfl
  · simp [Window.isEmpty]

variable {group : List Segment}

theorem windowOf_isEmpty : (windowOf group).isEmpty = true ↔ group = [] := by
  rcases eq_nil_or_concat group with rfl | ⟨group,segment,rfl⟩
  · simp [windowOf,Window.empty,Window.isEmpty]
  · rw [concat_eq_append,windowOf_snoc,push_isEmpty]
    simp

variable {p : ChunkParams}

theorem wouldClose_ne_nil {segment : Segment} (h : (windowOf group).wouldClose segment p = true) :
    group ≠ [] := by
  rintro rfl
  simp [windowOf,Window.wouldClose,Window.empty,Window.isEmpty] at h

theorem groupsFrom_flatten (p : ChunkParams) (group segments : List Segment) :
    (groupsFrom p group segments).flatten = group ++ segments := by
  induction segments generalizing group with
  | nil =>
    rw [groupsFrom]
    split_ifs with hnil
    · simp [hnil]
    · simp
  | cons segment segments ih =>
    rw [groupsFrom,flatten_append]
    have hrest : (if p.boundary = .perSegment ∨
        (windowOf (joined p group segment)).exceedsMax p then
          joined p group segment :: groupsFrom p [] segments
        else groupsFrom p (joined p group segment) segments).flatten =
        joined p group segment ++ segments := by
      split_ifs
      · rw [flatten_cons,ih,nil_append]
      · exact ih _
    rw [hrest,joined]
    split_ifs
    · simp
    · simp

variable {segments : List Segment}

theorem groupsFrom_ne_nil {g : List Segment} (h : g ∈ groupsFrom p group segments) : g ≠ [] := by
  induction segments generalizing group with
  | nil =>
    rw [groupsFrom] at h
    split_ifs at h with hnil
    · simp at h
    · rw [mem_singleton.mp h]
      exact hnil
  | cons segment segments ih =>
    have hjoined : joined p group segment ≠ [] := by simp [joined]
    rw [groupsFrom,mem_append] at h
    rcases h with h | h
    · split_ifs at h with hclose
      · rw [mem_singleton.mp h]
        exact wouldClose_ne_nil hclose
      · simp at h
    · split_ifs at h
      · rcases mem_cons.mp h with rfl | h
        · exact hjoined
        · exact ih h
      · exact ih h

theorem mem_groupsOf {s : Segment} : (∃ g ∈ groupsOf p segments, s ∈ g) ↔ s ∈ segments := by
  rw [← mem_flatten,groupsOf,groupsFrom_flatten,nil_append]

theorem foldl_push_byte_start (w : Window) (hw : w.isEmpty = false) (group : List Segment) :
    (group.foldl Window.push w).byte_start = w.byte_start := by
  induction group generalizing w with
  | nil => rfl
  | cons segment group ih =>
    rw [foldl_cons,ih _ (push_isEmpty w segment)]
    simp [Window.push,hw]

theorem windowOf_byte_start (segment : Segment) (group : List Segment) :
    (windowOf (segment :: group)).byte_start = segment.byte_start := by
  rw [windowOf,foldl_cons,foldl_push_byte_start _ (push_isEmpty _ _)]
  rfl

theorem windowOf_byte_end (group : List Segment) (segment : Segment) :
    (windowOf (group ++ [segment])).byte_end = segment.byte_end := by
  rw [windowOf_snoc,Window.push]
  split_ifs
  · rfl
  · rfl

theorem windowOf_ends (h : group ≠ []) :
    (∃ s ∈ group, (windowOf group).byte_start = s.byte_start) ∧
      ∃ s ∈ group, (windowOf group).byte_end = s.byte_end := by
  constructor
  · obtain ⟨first,rest,rfl⟩ := exists_cons_of_ne_nil h
    exact ⟨first,mem_cons_self,windowOf_byte_start first rest⟩
  · obtain ⟨front,last,rfl⟩ := (eq_nil_or_concat group).resolve_left h
    rw [concat_eq_append]
    exact ⟨last,by simp,windowOf_byte_end front last⟩

/-- No segment ends before it begins, nor behind the beginning of a later one. -/
structure Ascending (segments : List Segment) : Prop where
  ordered : segments.Pairwise fun s t => s.byte_end ≤ t.byte_start
  forward : ∀ s ∈ segments, s.byte_start ≤ s.byte_end

theorem windowOf_holds (h : Ascending group) {s : Segment} (hs : s ∈ group) :
    (windowOf group).byte_start ≤ s.byte_start ∧ s.byte_end ≤ (windowOf group).byte_end := by
  have hforward := h.forward s hs
  constructor
  · obtain ⟨first,rest,rfl⟩ := exists_cons_of_ne_nil (ne_nil_of_mem hs)
    rw [windowOf_byte_start]
    rcases mem_cons.mp hs with rfl | hrest
    · exact Nat.le_refl _
    · have hfirst := h.forward first mem_cons_self
      have hapart := (pairwise_cons.mp h.ordered).1 s hrest
      omega
  · obtain ⟨front,last,rfl⟩ := (eq_nil_or_concat group).resolve_left (ne_nil_of_mem hs)
    rw [concat_eq_append] at h hs ⊢
    rw [windowOf_byte_end]
    rcases mem_append.mp hs with hfront | hlast
    · have hend := h.forward last (by simp)
      have hapart := (pairwise_append.mp h.ordered).2.2 s hfront last (by simp)
      omega
    · rw [mem_singleton.mp hlast]

theorem groupsOf_ascending (h : Ascending segments) (hg : group ∈ groupsOf p segments) :
    Ascending group := by
  have hflat : (groupsOf p segments).flatten = segments := by
    rw [groupsOf,groupsFrom_flatten,nil_append]
  have hordered := h.ordered
  rw [← hflat,pairwise_flatten] at hordered
  exact ⟨hordered.1 group hg,fun s hs => h.forward s (mem_groupsOf.mp ⟨group,hg,hs⟩)⟩

theorem windows_ordered (h : Ascending segments) :
    ((groupsOf p segments).map windowOf).Pairwise fun v w => v.byte_end ≤ w.byte_start := by
  have hflat : (groupsOf p segments).flatten = segments := by
    rw [groupsOf,groupsFrom_flatten,nil_append]
  have hordered := h.ordered
  rw [← hflat,pairwise_flatten] at hordered
  rw [pairwise_map]
  refine List.Pairwise.imp_of_mem ?_ hordered.2
  intro g g' hg hg' hapart
  obtain ⟨s,hs,hend⟩ := (windowOf_ends (groupsFrom_ne_nil hg)).2
  obtain ⟨t,ht,hstart⟩ := (windowOf_ends (groupsFrom_ne_nil hg')).1
  rw [hend,hstart]
  exact hapart s hs t ht

theorem window_forward (h : Ascending segments) {w : Window}
    (hw : w ∈ (groupsOf p segments).map windowOf) : w.byte_start ≤ w.byte_end := by
  obtain ⟨g,hg,rfl⟩ := mem_map.mp hw
  obtain ⟨s,hs,hstart⟩ := (windowOf_ends (groupsFrom_ne_nil hg)).1
  have hholds := windowOf_holds (groupsOf_ascending h hg) hs
  have hforward := h.forward s (mem_groupsOf.mp ⟨g,hg,hs⟩)
  omega

theorem window_within {limit : Nat} (hwithin : ∀ s ∈ segments, s.byte_end ≤ limit) {w : Window}
    (hw : w ∈ (groupsOf p segments).map windowOf) : w.byte_end ≤ limit := by
  obtain ⟨g,hg,rfl⟩ := mem_map.mp hw
  obtain ⟨s,hs,hend⟩ := (windowOf_ends (groupsFrom_ne_nil hg)).2
  rw [hend]
  exact hwithin s (mem_groupsOf.mp ⟨g,hg,hs⟩)

end ProjectOS.Ingest
