import ProjectOS.Ingest.Spans

/-! How many chunks an index makes: by its sections, by its headings, and at most,
by the length of the text. -/

namespace ProjectOS.Ingest
open Lib Domain List

def spanStart (records : List Segment) : Nat := (records.head?.map (·.byte_start)).getD 0

def spanEnd (records : List Segment) : Nat := (records.getLast?.map (·.byte_end)).getD 0

def spanLen (records : List Segment) : Nat := spanEnd records-spanStart records

def sectionsFrom : List Segment → List Segment → List (List Segment)
  | body, [] => if body = [] then [] else [body]
  | body, record :: records =>
    if body ≠ [] ∧ 0 < record.depth then body :: sectionsFrom [record] records
    else sectionsFrom (body ++ [record]) records

def sectionsOf (records : List Segment) : List (List Segment) := sectionsFrom [] records

def runsFrom (target : Nat) : List Segment → List Segment → List (List Segment)
  | run, [] => if run = [] then [] else [run]
  | run, record :: records =>
    if target ≤ spanLen (run ++ [record]) then (run ++ [record]) :: runsFrom target [] records
    else runsFrom target (run ++ [record]) records

def runsOf (target : Nat) (records : List Segment) : List (List Segment) := runsFrom target [] records

def piecesOf (m : Nat) (text : Bytes) (run : List Segment) : List Nat :=
  ((List.range ((spanLen run+(m-1))/m)).map fun k => spanStart run+k*m).filter fun start =>
    hasContent ((text.drop start).take (min m (spanEnd run-start)))

def sectionPieces (p : ChunkParams) (text : Bytes) (segments : List Segment) : List Nat :=
  ((sectionsOf segments).flatMap (runsOf p.bytesTarget)).flatMap (piecesOf p.bytesMax text)

theorem windowOf_byte_start_eq {group : List Segment} :
    (windowOf group).byte_start = spanStart group := by
  cases group with
  | nil => rfl
  | cons segment group => exact windowOf_byte_start segment group

theorem windowOf_byte_end_eq {group : List Segment} : (windowOf group).byte_end = spanEnd group := by
  rcases eq_nil_or_concat group with rfl | ⟨group,segment,rfl⟩
  · rfl
  · rw [concat_eq_append,windowOf_byte_end,spanEnd,List.getLast?_concat]
    rfl

theorem windowOf_byteLen (group : List Segment) : (windowOf group).byteLen = spanLen group := by
  rw [Window.byteLen,windowOf_byte_start_eq,windowOf_byte_end_eq,spanLen]

theorem Ascending.sublist {segments fewer : List Segment} (h : Ascending segments)
    (hsub : fewer.Sublist segments) : Ascending fewer :=
  ⟨h.ordered.sublist hsub,fun s hs => h.forward s (hsub.mem hs)⟩

theorem spanEnd_snoc (group : List Segment) (segment : Segment) :
    spanEnd (group ++ [segment]) = segment.byte_end := by
  rw [spanEnd,List.getLast?_append_of_ne_nil _ (by simp)]
  rfl

def ChunkParams.breaksAt (p : ChunkParams) (segment : Segment) : Prop :=
  p.boundary = .headingSection ∧ 0 < segment.depth

instance (p : ChunkParams) (segment : Segment) : Decidable (p.breaksAt segment) :=
  inferInstanceAs (Decidable (_ ∧ _))

section
variable {p : ChunkParams} {group segments : List Segment} {segment : Segment}

theorem wouldClose_iff (hrule : p.boundary ≠ .perSegment) :
    (windowOf group).wouldClose segment p = true ↔
      group ≠ [] ∧ (p.breaksAt segment ∨ p.bytesTarget ≤ spanLen group) := by
  rw [Window.wouldClose,windowOf_byteLen,ChunkParams.breaksAt]
  cases hempty : (windowOf group).isEmpty with
  | true =>
    simp [windowOf_isEmpty.mp hempty]
  | false =>
    have hne : group ≠ [] := fun hnil => by simp [windowOf_isEmpty.mpr hnil] at hempty
    cases hboundary : p.boundary with
    | anySegment | headingSection => simp [hne]
    | perSegment => exact absurd hboundary hrule

theorem groupsFrom_reached (hrule : p.boundary ≠ .perSegment) (hne : group ≠ [])
    (hreached : p.bytesTarget ≤ spanLen group) :
    groupsFrom p group segments = group :: groupsFrom p [] segments := by
  cases segments with
  | nil => rw [groupsFrom,if_neg hne,groupsFrom,if_pos rfl]
  | cons segment segments =>
    have hclose : (windowOf group).wouldClose segment p = true :=
      (wouldClose_iff hrule).mpr ⟨hne,Or.inr hreached⟩
    have hopen : ¬ (windowOf []).wouldClose segment p = true :=
      fun h => ((wouldClose_iff hrule).mp h).1 rfl
    rw [groupsFrom,groupsFrom,joined,joined,if_pos hclose,if_pos hclose,if_neg hopen,if_neg hopen]
    rfl

def ChunkParams.grown (p : ChunkParams) (group : List Segment) (segment : Segment) : List Segment :=
  (if p.breaksAt segment then [] else group) ++ [segment]

theorem groupsFrom_cons (hrule : p.boundary ≠ .perSegment) (hsize : p.bytesTarget ≤ p.bytesMax)
    (hopen : group = [] ∨ spanLen group < p.bytesTarget) :
    groupsFrom p group (segment :: segments) =
      (if group ≠ [] ∧ p.breaksAt segment then [group] else []) ++
        if p.bytesTarget ≤ spanLen (p.grown group segment) then
          p.grown group segment :: groupsFrom p [] segments
        else groupsFrom p (p.grown group segment) segments := by
  have hclose : (windowOf group).wouldClose segment p = true ↔ group ≠ [] ∧ p.breaksAt segment := by
    rw [wouldClose_iff hrule]
    refine and_congr_right fun hne => or_iff_left ?_
    have hshort := hopen.resolve_left hne
    omega
  have hjoined : joined p group segment = p.grown group segment := by
    rw [joined,ChunkParams.grown]
    by_cases hnil : group = []
    · simp [hnil]
    · by_cases hbreak : p.breaksAt segment
      · rw [if_pos (hclose.mpr ⟨hnil,hbreak⟩),if_pos hbreak]
      · rw [if_neg (mt hclose.mp fun h => hbreak h.2),if_neg hbreak]
  rw [groupsFrom,hjoined,if_congr hclose rfl rfl]
  congr 1
  have hne : p.grown group segment ≠ [] := by simp [ChunkParams.grown]
  generalize p.grown group segment = next at hne
  by_cases hreached : p.bytesTarget ≤ spanLen next
  · rw [if_pos hreached]
    split_ifs
    · rfl
    · exact groupsFrom_reached hrule hne hreached
  · have hfits : ¬ (p.boundary = .perSegment ∨ (windowOf next).exceedsMax p = true) := by
      rw [Window.exceedsMax,windowOf_byteLen,decide_eq_true_eq]
      rintro (hper | hmax)
      · exact hrule hper
      · omega
    rw [if_neg hreached,if_neg hfits]

end

section
variable {p : ChunkParams} {runs : List (List Segment)}

theorem runsFrom_snoc {target : Nat} {body group : List Segment}
    (hruns : ∀ more, runsFrom target [] (body ++ more) = runs ++ runsFrom target group more)
    (segment : Segment) (more : List Segment) :
    runsFrom target [] (body ++ [segment] ++ more) =
      runs ++ (if target ≤ spanLen (group ++ [segment]) then [group ++ [segment]] else []) ++
        runsFrom target (if target ≤ spanLen (group ++ [segment]) then [] else group ++ [segment])
          more := by
  rw [append_assoc,hruns,singleton_append,runsFrom]
  split_ifs
  · simp
  · simp

theorem groupsFrom_sections (hrule : p.boundary = .headingSection)
    (hsize : p.bytesTarget ≤ p.bytesMax) {body group segments : List Segment}
    (hruns : ∀ more, runsFrom p.bytesTarget [] (body ++ more) =
      runs ++ runsFrom p.bytesTarget group more)
    (hopen : group = [] ∨ spanLen group < p.bytesTarget) (hbody : body = [] → group = []) :
    (sectionsFrom body segments).flatMap (runsOf p.bytesTarget) =
      runs ++ groupsFrom p group segments := by
  have hnot : p.boundary ≠ .perSegment := by simp [hrule]
  have hwhole : runsOf p.bytesTarget body = runs ++ if group = [] then [] else [group] := by
    have hnone := hruns []
    rwa [append_nil] at hnone
  induction segments generalizing body group runs with
  | nil =>
    rw [sectionsFrom,groupsFrom]
    by_cases hnil : body = []
    · have hnone := hwhole
      rw [hbody hnil,if_pos rfl,append_nil,hnil] at hnone
      rw [if_pos hnil,if_pos (hbody hnil),append_nil,← hnone]
      rfl
    · rw [if_neg hnil,flatMap_singleton,hwhole]
  | cons segment segments ih =>
    have hnext : ∀ (body group : List Segment) (runs : List (List Segment)),
        (∀ more, runsFrom p.bytesTarget [] (body ++ more) =
          runs ++ runsFrom p.bytesTarget group more) →
        (sectionsFrom (body ++ [segment]) segments).flatMap (runsOf p.bytesTarget) =
          runs ++ if p.bytesTarget ≤ spanLen (group ++ [segment]) then
            (group ++ [segment]) :: groupsFrom p [] segments
          else groupsFrom p (group ++ [segment]) segments := by
      intro body group runs hruns
      have hstep := runsFrom_snoc hruns segment
      have hwhole := hstep []
      rw [append_nil] at hwhole
      have hrest := ih hstep (by
        split_ifs with hreached
        · exact Or.inl rfl
        · exact Or.inr (Nat.lt_of_not_le hreached)) (by simp) hwhole
      rw [hrest]
      split_ifs
      · simp
      · simp
    have hbreaks : p.breaksAt segment ↔ 0 < segment.depth := and_iff_right hrule
    rw [sectionsFrom,groupsFrom_cons hnot hsize hopen,ChunkParams.grown]
    by_cases hbreak : body ≠ [] ∧ 0 < segment.depth
    · have hfirst := hnext [] [] [] fun more => rfl
      rw [nil_append,nil_append] at hfirst
      have hfront : (if group ≠ [] ∧ p.breaksAt segment then [group] else []) =
          if group = [] then [] else [group] := by
        by_cases hnil : group = []
        · simp [hnil]
        · rw [if_pos ⟨hnil,hbreaks.mpr hbreak.2⟩,if_neg hnil]
      rw [if_pos hbreak,flatMap_cons,hwhole,hfirst,hfront,if_pos (hbreaks.mpr hbreak.2),
        nil_append,append_assoc]
    · have hkept : (if p.breaksAt segment then [] else group) = group := by
        split_ifs with h
        · exact (hbody (not_not.mp fun hne => hbreak ⟨hne,hbreaks.mp h⟩)).symm
        · rfl
      have hnone : ¬ (group ≠ [] ∧ p.breaksAt segment) :=
        fun h => hbreak ⟨fun hnil => h.1 (hbody hnil),hbreaks.mp h.2⟩
      rw [if_neg hbreak,hnext body group runs hruns,hkept,if_neg hnone,nil_append]

theorem groupsOf_sections (hrule : p.boundary = .headingSection)
    (hsize : p.bytesTarget ≤ p.bytesMax) (segments : List Segment) :
    groupsOf p segments = (sectionsOf segments).flatMap (runsOf p.bytesTarget) := by
  have hsections : (sectionsFrom [] segments).flatMap (runsOf p.bytesTarget) =
      [] ++ groupsFrom p [] segments :=
    groupsFrom_sections hrule hsize (fun _ => rfl) (Or.inl rfl) fun _ => rfl
  exact hsections.symm

end

section
variable {p : ChunkParams} {text : Bytes} {segments : List Segment} {group : List Segment}

theorem windowDrafts_pieces (hpos : 0 < p.bytesMax) {place : Window × Nat}
    (hwindow : place.1 = windowOf group) (hplace : place.2 = place.1.byte_start) :
    (windowDrafts p text place).map Draft.byte_start = piecesOf p.bytesMax text group := by
  rw [windowDrafts,draftsIn,pieces_eq hpos (Nat.le_refl _),hplace,hwindow,windowOf_byteLen,
    windowOf_byte_start_eq,piecesOf,map_map,filter_map,filter_map,map_map]
  have hcontent : ∀ k, ((fun d : Draft => hasContent (d.bytes text)) ∘
      ((fun part : Nat × Nat => Draft.mk (windowOf group) (spanStart group) part.1 part.2) ∘
        fun k => (0+k*p.bytesMax,0+min (spanLen group) (k*p.bytesMax+p.bytesMax)))) k =
      ((fun start => hasContent ((text.drop start).take (min p.bytesMax (spanEnd group-start)))) ∘
        fun k => spanStart group+k*p.bytesMax) k := by
    intro k
    simp only [Function.comp_apply,Draft.bytes,Nat.zero_add,spanLen]
    congr 2
    omega
  rw [filter_congr fun k _ => hcontent k]
  refine map_congr_left fun k _ => ?_
  simp only [Function.comp_apply,Draft.byte_start,windowOf_byte_start_eq,Nat.zero_add]

theorem draftsOf_groups (hpos : 0 < p.bytesMax) (horder : Ascending segments)
    (hwithin : ∀ s ∈ segments, s.byte_end ≤ text.length) :
    (draftsOf p text segments).map Draft.byte_start =
      (groupsOf p segments).flatMap (piecesOf p.bytesMax text) := by
  have hwindows : (places p text segments).map Prod.fst = (groupsOf p segments).map windowOf :=
    placed_windows p text.length 0 _
  have hat : ∀ place ∈ places p text segments, place.2 = place.1.byte_start :=
    fun place hplace => (places_at horder hwithin hplace).2.2.2 hpos
  change ((places p text segments).flatMap (windowDrafts p text)).map Draft.byte_start = _
  generalize places p text segments = places at hwindows hat
  generalize groupsOf p segments = groups at hwindows
  induction places generalizing groups with
  | nil =>
    rw [map_nil,eq_comm,map_eq_nil_iff] at hwindows
    rw [hwindows]
    rfl
  | cons place places ih =>
    cases groups with
    | nil => cases hwindows
    | cons group groups =>
      rw [map_cons,map_cons,List.cons.injEq] at hwindows
      rw [forall_mem_cons] at hat
      rw [flatMap_cons,map_append,flatMap_cons,
        windowDrafts_pieces hpos hwindows.1 hat.1,ih hat.2 groups hwindows.2]

theorem draftsOf_sections (hrule : p.boundary = .headingSection) (hpos : 0 < p.bytesMax)
    (hsize : p.bytesTarget ≤ p.bytesMax) (horder : Ascending segments)
    (hwithin : ∀ s ∈ segments, s.byte_end ≤ text.length) :
    (draftsOf p text segments).length = (sectionPieces p text segments).length := by
  rw [sectionPieces,← groupsOf_sections hrule hsize,← draftsOf_groups hpos horder hwithin,
    length_map]

theorem hasContent_take {bytes : Bytes} {m n : Nat} (hle : m ≤ n)
    (h : hasContent (bytes.take m) = true) : hasContent (bytes.take n) = true := by
  rw [hasContent,any_eq_true] at h ⊢
  obtain ⟨b,hb,hcontent⟩ := h
  exact ⟨b,(take_subset_take_left bytes hle) hb,hcontent⟩

theorem spanStart_append (h : group ≠ []) (more : List Segment) :
    spanStart (group ++ more) = spanStart group := by
  obtain ⟨first,rest,rfl⟩ := exists_cons_of_ne_nil h
  rfl

variable {more : List Segment}

theorem spanEnd_append (horder : Ascending (group ++ more)) (h : group ≠ []) :
    spanEnd group ≤ spanEnd (group ++ more) := by
  rcases eq_nil_or_concat more with rfl | ⟨more,last,rfl⟩
  · rw [append_nil]
  · obtain ⟨front,s,rfl⟩ := (eq_nil_or_concat group).resolve_left h
    rw [concat_eq_append,concat_eq_append] at *
    have hlast : last ∈ more ++ [last] := by simp
    have hapart := (pairwise_append.mp horder.ordered).2.2 s (by simp) last hlast
    have hforward := horder.forward last (mem_append_right _ hlast)
    rw [← append_assoc,spanEnd_snoc,spanEnd_snoc]
    omega

theorem piecesOf_append {m : Nat} (horder : Ascending (group ++ more)) (h : group ≠ []) :
    (piecesOf m text group).length ≤ (piecesOf m text (group ++ more)).length := by
  have hend := spanEnd_append horder h
  rw [piecesOf,piecesOf,spanStart_append h]
  have hcount : (spanLen group+(m-1))/m ≤ (spanLen (group ++ more)+(m-1))/m := by
    refine Nat.div_le_div_right ?_
    rw [spanLen,spanLen,spanStart_append h]
    omega
  refine List.Sublist.length_le (List.Sublist.trans (List.Sublist.filter _
    (List.Sublist.map _ (range_sublist.mpr hcount))) (monotone_filter_right _ ?_))
  intro start hstart
  exact hasContent_take (by omega) hstart

theorem groupsFrom_append (p : ChunkParams) (group segments : List Segment) :
    ∃ full open_, ∀ more, groupsFrom p group (segments ++ more) = full ++ groupsFrom p open_ more := by
  induction segments generalizing group with
  | nil => exact ⟨[],group,fun more => rfl⟩
  | cons segment segments ih =>
    by_cases hfull : p.boundary = .perSegment ∨ (windowOf (joined p group segment)).exceedsMax p
    · obtain ⟨full,open_,hrest⟩ := ih []
      refine ⟨(if (windowOf group).wouldClose segment p then [group] else []) ++
        joined p group segment :: full,open_,fun more => ?_⟩
      rw [cons_append,groupsFrom,if_pos hfull,hrest]
      simp
    · obtain ⟨full,open_,hrest⟩ := ih (joined p group segment)
      refine ⟨(if (windowOf group).wouldClose segment p then [group] else []) ++ full,open_,
        fun more => ?_⟩
      rw [cons_append,groupsFrom,if_neg hfull,hrest,append_assoc]

theorem groupsFrom_front (h : group ≠ []) (segments : List Segment) :
    ∃ more rest, groupsFrom p group segments = (group ++ more) :: rest := by
  induction segments generalizing group with
  | nil => exact ⟨[],[],by rw [groupsFrom,if_neg h,append_nil]⟩
  | cons segment segments ih =>
    rw [groupsFrom]
    by_cases hclose : (windowOf group).wouldClose segment p = true
    · rw [if_pos hclose]
      exact ⟨[],_,by rw [append_nil,singleton_append]⟩
    · rw [if_neg hclose,nil_append,joined,if_neg hclose]
      split_ifs
      · exact ⟨[segment],_,rfl⟩
      · obtain ⟨more,rest,hrest⟩ := @ih (group ++ [segment]) (by simp)
        exact ⟨segment :: more,rest,by rw [hrest,append_assoc,singleton_append]⟩

theorem draftsOf_prefix (hpos : 0 < p.bytesMax) (horder : Ascending segments)
    (hwithin : ∀ s ∈ segments, s.byte_end ≤ text.length) {first : List Segment}
    (hfirst : first <+: segments) :
    (draftsOf p text first).length ≤ (draftsOf p text segments).length := by
  obtain ⟨more,rfl⟩ := hfirst
  have hsub := sublist_append_left first more
  have hcount := congrArg List.length (draftsOf_groups hpos horder hwithin)
  have hcount' := congrArg List.length (draftsOf_groups hpos (horder.sublist hsub)
    fun s hs => hwithin s (hsub.mem hs))
  rw [length_map] at hcount hcount'
  rw [hcount,hcount',groupsOf,groupsOf]
  obtain ⟨full,open_,hgroups⟩ := groupsFrom_append p [] first
  have hend := hgroups []
  rw [append_nil] at hend
  rw [hgroups,hend,flatMap_append,flatMap_append,length_append,length_append]
  refine Nat.add_le_add_left ?_ _
  rw [groupsFrom]
  split_ifs with hnil
  · exact Nat.zero_le _
  · obtain ⟨later,rest,hfront⟩ := groupsFrom_front (p := p) hnil more
    have hgroup : open_ ++ later ∈ groupsOf p (first ++ more) := by
      rw [groupsOf,hgroups,hfront]
      simp
    rw [hfront,flatMap_singleton,flatMap_cons,length_append]
    exact (piecesOf_append (groupsOf_ascending horder hgroup) hnil).trans (Nat.le_add_right _ _)

end

section
variable {p : ChunkParams} {text : Bytes} {limit : Nat}

def ChunkParams.breaks (p : ChunkParams) (segments : List Segment) : Nat :=
  segments.countP fun s => decide (p.breaksAt s)

theorem spanStart_mem {group : List Segment} (h : group ≠ []) :
    ∃ s ∈ group, spanStart group = s.byte_start := by
  obtain ⟨first,rest,rfl⟩ := exists_cons_of_ne_nil h
  exact ⟨first,mem_cons_self,rfl⟩

theorem grown_sublist (group segments : List Segment) (segment : Segment) :
    (p.grown group segment ++ segments).Sublist (group ++ segment :: segments) := by
  rw [ChunkParams.grown,append_assoc,singleton_append]
  refine List.Sublist.append_right ?_ _
  split_ifs
  · exact nil_sublist _
  · exact List.Sublist.refl _

theorem groupsFrom_size (hrule : p.boundary ≠ .perSegment) (hsize : p.bytesTarget ≤ p.bytesMax)
    {group segments : List Segment} (segment : Segment) (hopen : spanLen group < p.bytesTarget) :
    ∃ one ≤ 1, p.breaks (segment :: segments) = p.breaks segments+one ∧
      (groupsFrom p group (segment :: segments)).length = (if group = [] then 0 else one)+
        if p.bytesTarget ≤ spanLen (p.grown group segment) then (groupsFrom p [] segments).length+1
        else (groupsFrom p (p.grown group segment) segments).length := by
  refine ⟨if p.breaksAt segment then 1 else 0,by split_ifs <;> omega,?_,?_⟩
  · simp only [ChunkParams.breaks,countP_cons,decide_eq_true_eq]
  · rw [groupsFrom_cons hrule hsize (Or.inr hopen),length_append]
    congr 1
    · by_cases hnil : group = [] <;> by_cases hbreak : p.breaksAt segment <;> simp [hnil,hbreak]
    · exact apply_ite List.length _ _ _

theorem groupsFrom_length (hrule : p.boundary ≠ .perSegment) (hsize : p.bytesTarget ≤ p.bytesMax)
    (hpos : 0 < p.bytesTarget) {group segments : List Segment} {offset : Nat}
    (horder : Ascending (group ++ segments)) (hopen : spanLen group < p.bytesTarget)
    (hoffset : ∀ s ∈ group ++ segments, offset ≤ s.byte_start)
    (hwithin : ∀ s ∈ group ++ segments, s.byte_end ≤ limit) :
    (groupsFrom p group segments).length ≤
      (limit-offset)/p.bytesTarget+p.breaks segments+1 := by
  induction segments generalizing group offset with
  | nil =>
    rw [groupsFrom]
    split_ifs
    · exact Nat.zero_le _
    · exact Nat.le_add_left _ _
  | cons segment segments ih =>
    have hsub := grown_sublist (p := p) group segments segment
    have horder' := horder.sublist hsub
    have hoffset' := fun s hs => hoffset s (hsub.mem hs)
    have hwithin' := fun s hs => hwithin s (hsub.mem hs)
    obtain ⟨one,-,hbreaks,hlength⟩ := groupsFrom_size hrule hsize segment hopen
    have hfront : (if group = [] then 0 else one) ≤ one := by split_ifs <;> omega
    have hend : spanEnd (p.grown group segment) = segment.byte_end := spanEnd_snoc _ _
    have hne : p.grown group segment ≠ [] := by simp [ChunkParams.grown]
    have hlast : segment ∈ p.grown group segment := by simp [ChunkParams.grown]
    rw [hlength,hbreaks]
    generalize p.grown group segment = next at *
    by_cases hreached : p.bytesTarget ≤ spanLen next
    · rw [if_pos hreached]
      -- The rest lies behind the group, which is as long as the target.
      have hrest := @ih [] segment.byte_end
        (horder'.sublist (sublist_append_right next segments)) hpos
        (fun s hs => (pairwise_append.mp horder'.ordered).2.2 segment hlast s hs)
        (fun s hs => hwithin' s (mem_append_right _ hs))
      obtain ⟨first,hfirst,hstart⟩ := spanStart_mem hne
      have hbegin := hoffset' first (mem_append_left _ hfirst)
      have hfits := hwithin' segment (mem_append_left _ hlast)
      rw [spanLen,hend,hstart] at hreached
      have hroom : (limit-segment.byte_end)/p.bytesTarget+1 ≤ (limit-offset)/p.bytesTarget := by
        rw [← Nat.add_div_right _ hpos]
        exact Nat.div_le_div_right (by omega)
      omega
    · rw [if_neg hreached]
      have hrest := ih horder' (Nat.lt_of_not_le hreached) hoffset' hwithin'
      omega

theorem windowDrafts_length (hpos : 0 < p.bytesMax) (place : Window × Nat) :
    (windowDrafts p text place).length ≤ place.1.byteLen/p.bytesMax+1 := by
  rw [windowDrafts,draftsIn]
  refine (length_filter_le _ _).trans ?_
  rw [length_map,pieces_eq hpos (Nat.le_refl _),length_map,length_range]
  refine (Nat.div_le_div_right (show _ ≤ place.1.byteLen+p.bytesMax by omega)).trans ?_
  rw [Nat.add_div_right _ hpos]

theorem placed_length (hpos : 0 < p.bytesMax) {windows : List Window} {offset start : Nat}
    (hordered : windows.Pairwise fun v w => v.byte_end ≤ w.byte_start)
    (hforward : ∀ w ∈ windows, w.byte_start ≤ w.byte_end)
    (hoffset : ∀ w ∈ windows, offset ≤ w.byte_start) (hwithin : ∀ w ∈ windows, w.byte_end ≤ limit) :
    ((placed p text.length start windows).flatMap (windowDrafts p text)).length ≤
      (limit-offset)/p.bytesMax+windows.length := by
  induction windows generalizing offset start with
  | nil => exact Nat.zero_le _
  | cons w windows ih =>
    rw [pairwise_cons] at hordered
    rw [forall_mem_cons] at hforward hoffset hwithin
    have hrest := @ih w.byte_end (p.seek text.length start w.byte_start+w.byteLen) hordered.2
      hforward.2 hordered.1 hwithin.2
    have hfirst : (windowDrafts p text (w,p.seek text.length start w.byte_start)).length ≤
        w.byteLen/p.bytesMax+1 := windowDrafts_length hpos _
    have hdiv : w.byteLen/p.bytesMax+(limit-w.byte_end)/p.bytesMax ≤ (limit-offset)/p.bytesMax := by
      refine Nat.div_add_div_le_add_div.trans (Nat.div_le_div_right ?_)
      rw [Window.byteLen]
      omega
    rw [placed,flatMap_cons,length_append,length_cons]
    omega

theorem draftsOf_length (hrule : p.boundary ≠ .perSegment) (hsize : p.bytesTarget ≤ p.bytesMax)
    (hpos : 0 < p.bytesTarget) {segments : List Segment} (horder : Ascending segments)
    (hwithin : ∀ s ∈ segments, s.byte_end ≤ text.length) :
    (draftsOf p text segments).length ≤
      text.length/p.bytesMax+(text.length/p.bytesTarget+p.breaks segments+1) := by
  have hgroups := @groupsFrom_length p text.length hrule hsize hpos [] segments 0 horder hpos
    (fun s _ => Nat.zero_le _) hwithin
  have hpieces := @placed_length p text text.length (hpos.trans_le hsize) _ 0 0
    (windows_ordered (p := p) horder) (fun w hw => window_forward horder hw)
    (fun w _ => Nat.zero_le _) fun w hw => window_within hwithin hw
  rw [length_map,Nat.sub_zero] at hpieces
  rw [Nat.sub_zero] at hgroups
  exact hpieces.trans (Nat.add_le_add_left hgroups _)

end

section
variable {p : ChunkParams} {text : Bytes}

theorem breaks_le_groupsFrom (hrule : p.boundary ≠ .perSegment)
    (hsize : p.bytesTarget ≤ p.bytesMax) (hpos : 0 < p.bytesTarget) {group segments : List Segment}
    (hopen : spanLen group < p.bytesTarget) :
    p.breaks segments+(if group = [] then 0 else 1) ≤ (groupsFrom p group segments).length := by
  induction segments generalizing group with
  | nil =>
    rw [groupsFrom]
    split_ifs
    · exact Nat.le_refl _
    · exact Nat.le_refl _
  | cons segment segments ih =>
    obtain ⟨one,hone,hbreaks,hlength⟩ := groupsFrom_size hrule hsize segment hopen
    have hfront : (if group = [] then 0 else 1)+one ≤ (if group = [] then 0 else one)+1 := by
      split_ifs <;> omega
    have hne : p.grown group segment ≠ [] := by simp [ChunkParams.grown]
    rw [hlength,hbreaks]
    generalize p.grown group segment = next at *
    by_cases hreached : p.bytesTarget ≤ spanLen next
    · have hrest := @ih [] hpos
      rw [if_pos rfl] at hrest
      rw [if_pos hreached]
      omega
    · have hrest := ih (Nat.lt_of_not_le hreached)
      rw [if_neg hne] at hrest
      rw [if_neg hreached]
      omega

theorem breaks_le_draftsOf (hrule : p.boundary ≠ .perSegment)
    (hsize : p.bytesTarget ≤ p.bytesMax) (hpos : 0 < p.bytesTarget) {segments : List Segment}
    (horder : Ascending segments) (hwithin : ∀ s ∈ segments, s.byte_end ≤ text.length)
    (hcontent : ∀ s ∈ segments, ∃ n, ContentAt text s n) :
    p.breaks segments ≤ (draftsOf p text segments).length := by
  have hgroups := @breaks_le_groupsFrom p hrule hsize hpos [] segments hpos
  have hplaces : (places p text segments).length = (groupsOf p segments).length := by
    have hwindows := congrArg List.length (placed_windows p text.length 0
      ((groupsOf p segments).map windowOf))
    rwa [length_map,length_map] at hwindows
  have hsome : ∀ place ∈ places p text segments, 1 ≤ (windowDrafts p text place).length := by
    intro place hplace
    have hmem : place.1 ∈ (groupsOf p segments).map windowOf := by
      rw [← placed_windows p text.length 0 ((groupsOf p segments).map windowOf)]
      exact mem_map_of_mem hplace
    obtain ⟨g,hg,hwindow⟩ := mem_map.mp hmem
    obtain ⟨s,hs⟩ := exists_mem_of_ne_nil g (groupsFrom_ne_nil hg)
    obtain ⟨n,hcovers,b,hget,hb⟩ := hcontent s (mem_groupsOf.mp ⟨g,hg,hs⟩)
    have hholds := windowOf_holds (groupsOf_ascending horder hg) hs
    have hin := Segment.covers_iff.mp hcovers
    rw [hwindow] at hholds
    obtain ⟨d,hd,-⟩ := windowDrafts_cover
      ((places_at horder hwithin hplace).2.2.2 (hpos.trans_le hsize)) (hpos.trans_le hsize)
      (by omega) (by omega) hget hb
    exact length_pos_of_mem hd
  have hcount : (places p text segments).length ≤ (draftsOf p text segments).length := by
    change _ ≤ ((places p text segments).flatMap (windowDrafts p text)).length
    generalize places p text segments = places at hsome
    clear hplaces
    induction places with
    | nil => exact Nat.le_refl _
    | cons place places ih =>
      rw [forall_mem_cons] at hsome
      rw [flatMap_cons,length_append,length_cons]
      have hrest := ih hsome.2
      omega
  rw [if_pos rfl,← groupsOf,← hplaces] at hgroups
  exact hgroups.trans hcount

end

end ProjectOS.Ingest
