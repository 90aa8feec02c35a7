import ProjectOS.Ingest.Boundaries

/-! What the locator of a chunk says, and the segments its bytes lie in. -/

namespace ProjectOS.Ingest
open Lib Domain Sched List

def Segment.meets (low high : Nat) (s : Segment) : Bool :=
  decide (max s.byte_start low < min s.byte_end high)

def opening (segments : List Segment) : Option Nat := segments.head?.map (·.locator.bounds.1)

def closing (segments : List Segment) : Option Nat := segments.getLast?.map (·.locator.bounds.2)

def cited (segments : List Segment) : Option Locator :=
  segments.head?.bind fun first => segments.getLast?.map fun last =>
    .fromColumns first.locator.kind first.locator.bounds.1 last.locator.bounds.2

def ChunkFact.Cites (x : ChunkFact) (segments : List Segment) : Prop :=
  cited (segments.filter (Segment.meets x.byte_start x.byte_end)) = some x.locator

def OneKind (segments : List Segment) : Prop :=
  ∀ s ∈ segments, ∀ t ∈ segments, s.locator.kind = t.locator.kind

def EndsKept (p : ChunkParams) (text : Bytes) (segments : List Segment) : Prop :=
  ∀ g ∈ groupsOf p segments,
    ∀ part ∈ pieces p.bytesMax (windowOf g).byteLen 0 (windowOf g).byteLen,
      hasContent ((text.drop ((windowOf g).byte_start+part.1)).take (part.2-part.1)) = true →
        opening (g.filter (Segment.meets ((windowOf g).byte_start+part.1)
            ((windowOf g).byte_start+part.2))) = opening g ∧
          closing (g.filter (Segment.meets ((windowOf g).byte_start+part.1)
            ((windowOf g).byte_start+part.2))) = closing g

theorem fromColumns_bounds (l : Locator) : .fromColumns l.kind l.bounds.1 l.bounds.2 = l := by
  cases l <;> rfl

theorem extend_fromColumns (start stop : Nat) (l : Locator) :
    extend (some (.fromColumns l.kind start stop)) l = .fromColumns l.kind start l.bounds.2 := by
  cases l <;> rfl

variable {g segments : List Segment}

theorem windowOf_locator (hkind : OneKind g) : (windowOf g).locator = cited g := by
  induction g using List.reverseRecOn with
  | nil => rfl
  | append_singleton g s ih =>
    rw [windowOf_snoc,Window.push]
    rcases eq_nil_or_concat g with rfl | ⟨front,last,hlast⟩
    · rw [if_pos (windowOf_isEmpty.mpr rfl)]
      exact congrArg some (fromColumns_bounds s.locator).symm
    · have hopen : g ≠ [] := by simp [hlast]
      obtain ⟨first,rest,rfl⟩ := exists_cons_of_ne_nil hopen
      rw [if_neg (by simp [windowOf_isEmpty])]
      have hsame : first.locator.kind = s.locator.kind := hkind first (by simp) s (by simp)
      have hwindow : (windowOf (first :: rest)).locator = cited (first :: rest) :=
        ih fun t ht u hu => hkind t (mem_append_left _ ht) u (mem_append_left _ hu)
      dsimp only
      rw [hwindow]
      simp [cited,hsame,extend_fromColumns,List.getLast?_cons]

theorem cited_eq_iff {reached : List Segment} (hkind : OneKind g) (hreached : reached ⊆ g) :
    cited reached = cited g ↔ opening reached = opening g ∧ closing reached = closing g := by
  have hlast (s : Segment) (rest : List Segment) :
      ∃ t ∈ s :: rest, (s :: rest).getLast? = some t :=
    ⟨(s :: rest).getLast (by simp),getLast_mem _,List.getLast?_eq_some_getLast (by simp)⟩
  cases g with
  | nil => simp [subset_nil.mp hreached]
  | cons first rest =>
    obtain ⟨last,hmem,hlast'⟩ := hlast first rest
    cases reached with
    | nil => simp [cited,opening,hlast']
    | cons first₂ rest₂ =>
      obtain ⟨last₂,-,hlast₂⟩ := hlast first₂ rest₂
      have hsame : first₂.locator.kind = first.locator.kind :=
        hkind _ (hreached mem_cons_self) _ mem_cons_self
      simp only [cited,opening,closing,hlast',hlast₂,hsame,List.head?_cons,Option.bind_some,
        Option.map_some,Option.some.injEq]
      cases first.locator.kind <;> simp [Locator.fromColumns]

variable {p : ChunkParams} {low high : Nat}

theorem not_meets {s : Segment} (low high : Nat) (h : s.byte_end ≤ low ∨ high ≤ s.byte_start) :
    Segment.meets low high s = false := by
  simp only [Segment.meets,decide_eq_false_iff_not]
  omega

theorem filter_meets (horder : Ascending segments) (hg : g ∈ groupsOf p segments)
    (hlow : (windowOf g).byte_start ≤ low) (hhigh : high ≤ (windowOf g).byte_end) :
    segments.filter (Segment.meets low high) = g.filter (Segment.meets low high) := by
  obtain ⟨front,back,hsplit⟩ := append_of_mem hg
  have hapart := windows_ordered (p := p) horder
  rw [hsplit,pairwise_map,pairwise_append,pairwise_cons] at hapart
  have hholds : ∀ g' ∈ groupsOf p segments, ∀ s ∈ g',
      (windowOf g').byte_start ≤ s.byte_start ∧ s.byte_end ≤ (windowOf g').byte_end :=
    fun g' hg' s hs => windowOf_holds (groupsOf_ascending horder hg') hs
  have hfront : front.flatten.filter (Segment.meets low high) = [] := by
    rw [filter_eq_nil_iff]
    intro s hs
    obtain ⟨g',hg',hs⟩ := mem_flatten.mp hs
    have hends := hholds g' (by simp [hsplit,hg']) s hs
    have hbefore := hapart.2.2 g' hg' g mem_cons_self
    simp [not_meets low high (s := s) (Or.inl (by omega))]
  have hback : back.flatten.filter (Segment.meets low high) = [] := by
    rw [filter_eq_nil_iff]
    intro s hs
    obtain ⟨g',hg',hs⟩ := mem_flatten.mp hs
    have hends := hholds g' (by simp [hsplit,hg']) s hs
    have hbehind := hapart.2.1.1 g' hg'
    simp [not_meets low high (s := s) (Or.inr (by omega))]
  have hflat : (groupsOf p segments).flatten = segments := by
    rw [groupsOf,groupsFrom_flatten,nil_append]
  conv_lhs => rw [← hflat]
  rw [hsplit,flatten_append,flatten_cons,filter_append,filter_append,hfront,
    hback,nil_append,append_nil]

namespace ChunkRun
variable {R : ChunkRun} {text : Bytes} {d : Draft}

theorem factOf_cites (horder : Ascending segments) (hkind : OneKind segments)
    (hg : g ∈ groupsOf R.params segments) (hwindow : d.window = windowOf g)
    (hhigh : d.high ≤ (windowOf g).byteLen) (ordinal : Nat) :
    ChunkFact.Cites (R.factOf text ordinal d) segments ↔
      opening (g.filter (Segment.meets ((windowOf g).byte_start+d.low)
          ((windowOf g).byte_start+d.high))) = opening g ∧
        closing (g.filter (Segment.meets ((windowOf g).byte_start+d.low)
          ((windowOf g).byte_start+d.high))) = closing g := by
  have hsub : ∀ s ∈ g, s ∈ segments := fun s hs => mem_groupsOf.mp ⟨g,hg,hs⟩
  have hkinds : OneKind g := fun s hs t ht => hkind s (hsub s hs) t (hsub t ht)
  have hlocator : cited g = some ((windowOf g).locator.getD (.lineRange 1 1)) := by
    obtain ⟨first,rest,rfl⟩ := exists_cons_of_ne_nil (groupsFrom_ne_nil hg)
    rw [windowOf_locator hkinds]
    simp [cited,List.getLast?_cons]
  have hforward := window_forward horder (mem_map_of_mem hg)
  have hstop : (windowOf g).byte_start+d.high ≤ (windowOf g).byte_end := by
    simp only [Window.byteLen] at hhigh
    omega
  have hreached := filter_meets horder hg (Nat.le_add_right _ d.low) hstop
  rw [ChunkFact.Cites,← cited_eq_iff hkinds (filter_subset_self _),hlocator]
  simp only [factOf,Draft.byte_start,Draft.byte_end,hwindow,hreached]

theorem emitted_ok {index : List (Except StreamError Segment)} {reader : Reader}
    {budget : StreamBudget} {product : Product}
    (hrun : R.chunkEvidence index reader budget = .ok product) :
    emitted (.ok product) = R.factsOf reader.rest (draftsOf R.params reader.rest (yielded index)) := by
  have hends := chunkEvidence_ends R reader budget index
  rw [hrun] at hends
  rw [emitted,hends.facts]

/-- If the ends are kept, each chunk of a run has the locator of the segments it
meets; and if each chunk of a run that comes through has it, the ends are kept. -/
theorem chunks_cite_iff (R : ChunkRun) (index : List (Except StreamError Segment)) (reader : Reader)
    (budget : StreamBudget) (horder : Ascending (yielded index))
    (hwithin : ∀ s ∈ yielded index, s.byte_end ≤ reader.rest.length)
    (hkind : OneKind (yielded index)) :
    (EndsKept R.params reader.rest (yielded index) →
      ∀ x ∈ emitted (R.chunkEvidence index reader budget), ChunkFact.Cites x (yielded index)) ∧
    ∀ product, R.chunkEvidence index reader budget = .ok product →
      (∀ x ∈ emitted (.ok product), ChunkFact.Cites x (yielded index)) →
        EndsKept R.params reader.rest (yielded index) := by
  constructor
  · intro hkept x hx
    obtain ⟨i,d,hd,rfl⟩ :=
      mem_factsOf.mp ((emitted_first index reader budget horder hwithin).subset hx)
    obtain ⟨place,hplace,hmem⟩ := mem_draftsOf.mp (mem_of_getElem? hd)
    obtain ⟨g,hg,hgroup⟩ := (mem_places _ _).mp ⟨place,hplace,rfl⟩
    obtain ⟨hwindow,horigin,hlow,hlength,hhigh⟩ := windowDrafts_size hmem
    obtain ⟨-,-,hpart,hcontent⟩ := mem_draftsIn.mp hmem
    have hat := (places_at horder hwithin hplace).2.2.2 (by omega)
    rw [Draft.bytes,horigin,hat,← hgroup] at hcontent
    rw [← hgroup] at hwindow hhigh hpart
    rw [factOf_cites horder hkind hg hwindow hhigh i]
    exact hkept g hg (d.low,d.high) hpart hcontent
  · intro product hrun hcites g hg part hpart hcontent
    rw [emitted_ok hrun] at hcites
    obtain ⟨place,hplace,hwindow⟩ := (mem_places R.params reader.rest).mpr ⟨g,hg,rfl⟩
    have hsize : 0 < R.params.bytesMax := by
      refine Nat.pos_of_ne_zero fun hzero => ?_
      rw [hzero] at hpart
      simp [pieces_zero hpart,hasContent] at hcontent
    have hat := (places_at horder hwithin hplace).2.2.2 hsize
    have hbounds := le_pieces hpart
    have hmem : Draft.mk place.1 place.2 part.1 part.2 ∈
        draftsOf R.params reader.rest (yielded index) := by
      refine mem_draftsOf.mpr ⟨place,hplace,mem_draftsIn.mpr ⟨rfl,rfl,?_,?_⟩⟩
      · rw [hwindow]
        exact hpart
      · rw [Draft.bytes,hat,hwindow]
        exact hcontent
    obtain ⟨i,hi⟩ := mem_iff_getElem?.mp hmem
    have hfact := hcites _ (mem_factsOf.mpr ⟨i,_,hi,rfl⟩)
    have hhigh : part.2 ≤ (windowOf g).byteLen := by omega
    exact (factOf_cites horder hkind hg hwindow hhigh i).mp hfact

theorem note_cited : emitted noteChunked ≠ [] ∧
    ∀ x ∈ emitted noteChunked, ChunkFact.Cites x (yielded noteIndex) := by
  have horder : Ascending (yielded noteIndex) := ⟨by decide +kernel,by decide +kernel⟩
  refine ⟨by decide +kernel,(chunks_cite_iff noteRun noteIndex noteReader ⟨.chunk,4096⟩ horder
    (by decide +kernel) ?_).1 ?_⟩
  · unfold OneKind
    decide +kernel
  · unfold EndsKept
    decide +kernel

/-- The second chunk of the two turns lies in the second of them and names both. -/
theorem turn_miscited : Ascending turns ∧ OneKind turns ∧ ∃ product,
    turnsRun.chunkEvidence (turns.map .ok) ⟨turnsText,[]⟩ ⟨.chunk,4096⟩ = .ok product ∧
      ∃ x ∈ emitted (.ok product), x.byte_start = 1600 ∧ x.byte_end = 2000 ∧
        x.locator = .timeRange 0 80000 ∧ ¬ ChunkFact.Cites x turns := by
  have horder : Ascending turns := ⟨by decide,by decide⟩
  have hwithin : ∀ s ∈ turns, s.byte_end ≤ turnsText.length := by
    rw [turnsText,length_replicate]
    decide
  have hkind : OneKind turns := by
    unfold OneKind
    decide
  have hwindow : (groupsOf turnsRun.params turns).map windowOf =
      [⟨0,2000,some (.timeRange 0 80000),0,2⟩] := by decide
  obtain ⟨product,hrun⟩ := single_ok turnsRun ⟨.chunk,4096⟩ horder hwithin hwindow (by decide)
    (by decide) (fun _ => rfl) (by decide)
  have hfacts := emitted_ok hrun
  rw [yielded_map] at hfacts
  obtain ⟨place,hplace,hplaceWindow⟩ :=
    mem_map.mp (show _ ∈ (places turnsRun.params turnsText turns).map Prod.fst by
      rw [places,placed_windows,hwindow]
      exact mem_singleton.mpr rfl)
  have hat := (places_at horder hwithin hplace).2.2.2 (by decide)
  have hbyte : turnsText[place.2+1600]? = some 97 := by
    rw [hat,hplaceWindow,turnsText,List.getElem?_replicate]
    rfl
  obtain ⟨d,hd,k,hd₁,hlow,hhigh,hfirst,hlast⟩ := exists_draft hplace (by decide)
    (by rw [hplaceWindow]; decide) hbyte (by decide)
  obtain ⟨i,hi⟩ := mem_iff_getElem?.mp hd
  have hsize : turnsRun.params.bytesMax = 1600 := by decide
  have hlength : place.1.byteLen = 2000 := by rw [hplaceWindow]; rfl
  have hspan : d.low = 1600 ∧ d.high = 2000 := by
    rw [hsize] at hlow hhigh
    omega
  have hstart : (turnsRun.factOf turnsText i d).byte_start = 1600 := by
    simp [factOf,Draft.byte_start,hd₁,hplaceWindow,hspan.1]
  have hstop : (turnsRun.factOf turnsText i d).byte_end = 2000 := by
    simp [factOf,Draft.byte_end,hd₁,hplaceWindow,hspan.2]
  have hlocator : (turnsRun.factOf turnsText i d).locator = .timeRange 0 80000 := by
    simp [factOf,hd₁,hplaceWindow]
  refine ⟨horder,hkind,product,hrun,_,?_,hstart,hstop,hlocator,?_⟩
  · rw [hfacts]
    exact mem_factsOf.mpr ⟨i,d,hi,rfl⟩
  · rw [ChunkFact.Cites,hstart,hstop,hlocator]
    decide

end ChunkRun
end ProjectOS.Ingest
