import ProjectOS.Ingest.Drafts

/-! The spans of a run's chunks, and the bytes they cover. -/

namespace ProjectOS.Ingest
open Lib Domain Sched List

section
variable {p : ChunkParams} {limit offset : Nat} {windows : List Window}

theorem placed_windows (p : ChunkParams) (limit offset : Nat) (windows : List Window) :
    (placed p limit offset windows).map Prod.fst = windows := by
  induction windows generalizing offset with
  | nil => rfl
  | cons w windows ih => rw [placed,map_cons,ih]

theorem placed_at (hordered : windows.Pairwise fun v w => v.byte_end ≤ w.byte_start)
    (hforward : ∀ w ∈ windows, w.byte_start ≤ w.byte_end)
    (hwithin : ∀ w ∈ windows, w.byte_end ≤ limit) (hoffset : ∀ w ∈ windows, offset ≤ w.byte_start)
    {place : Window × Nat} (h : place ∈ placed p limit offset windows) :
    place.2 ≤ place.1.byte_start ∧ (0 < p.bytesMax → place.2 = place.1.byte_start) := by
  induction windows generalizing offset with
  | nil => simp [placed] at h
  | cons w windows ih =>
    rw [pairwise_cons] at hordered
    rw [forall_mem_cons] at hforward hwithin hoffset
    have hseek : p.seek limit offset w.byte_start ≤ w.byte_start ∧
        (0 < p.bytesMax → p.seek limit offset w.byte_start = w.byte_start) := by
      unfold ChunkParams.seek
      split_ifs
      · exact ⟨hoffset.1,by omega⟩
      · omega
    rw [placed] at h
    rcases mem_cons.mp h with rfl | h
    · exact hseek
    · refine ih hordered.2 hforward.2 hwithin.2 ?_ h
      intro v hv
      have hapart := hordered.1 v hv
      simp only [Window.byteLen]
      omega

end

section
variable {p : ChunkParams} {text : Bytes} {segments : List Segment} {place : Window × Nat}

theorem places_at (horder : Ascending segments)
    (hwithin : ∀ s ∈ segments, s.byte_end ≤ text.length) (h : place ∈ places p text segments) :
    place.1.byte_start ≤ place.1.byte_end ∧ place.1.byte_end ≤ text.length ∧
      place.2 ≤ place.1.byte_start ∧ (0 < p.bytesMax → place.2 = place.1.byte_start) := by
  have hlast : ∀ w ∈ (groupsOf p segments).map windowOf, w.byte_end ≤ text.length :=
    fun w hw => window_within hwithin hw
  have hmem : place.1 ∈ (places p text segments).map Prod.fst := mem_map_of_mem h
  rw [places,placed_windows] at hmem
  refine ⟨window_forward horder hmem,hlast _ hmem,?_⟩
  exact placed_at (windows_ordered horder) (fun w hw => window_forward horder hw) hlast
    (fun w _ => Nat.zero_le _) h

theorem fitting_ascending (horder : Ascending segments)
    (hwithin : ∀ s ∈ segments, s.byte_end ≤ text.length) :
    Fitting p text.length 0 ((groupsOf p segments).map windowOf) := by
  intro place hplace
  have hat := places_at horder hwithin hplace
  right
  simp only [Window.byteLen]
  omega

variable {d : Draft}

theorem mem_draftsIn {parts : List (Nat × Nat)} :
    d ∈ draftsIn text place parts ↔ d.window = place.1 ∧ d.origin = place.2 ∧
      (d.low,d.high) ∈ parts ∧ hasContent (d.bytes text) = true := by
  rw [draftsIn,mem_filter,mem_map]
  constructor
  · rintro ⟨⟨part,hpart,rfl⟩,hcontent⟩
    exact ⟨rfl,rfl,hpart,hcontent⟩
  · rintro ⟨hwindow,horigin,hpart,hcontent⟩
    obtain ⟨window,origin,low,high⟩ := d
    dsimp only at hwindow horigin hpart
    subst hwindow horigin
    exact ⟨⟨(low,high),hpart,rfl⟩,hcontent⟩

theorem hasContent_slice {n count : Nat} :
    hasContent ((text.drop n).take count) = true ↔
      ∃ k b, k < count ∧ text[n+k]? = some b ∧ isAsciiWhitespace b = false := by
  rw [hasContent,any_eq_true]
  constructor
  · rintro ⟨b,hb,hcontent⟩
    obtain ⟨k,hk⟩ := mem_iff_getElem?.mp hb
    rw [List.getElem?_take] at hk
    split_ifs at hk with hlt
    rw [List.getElem?_drop] at hk
    exact ⟨k,b,hlt,hk,by simpa using hcontent⟩
  · rintro ⟨k,b,hlt,hget,hcontent⟩
    refine ⟨b,mem_iff_getElem?.mpr ⟨k,?_⟩,by simp [hcontent]⟩
    rw [List.getElem?_take,if_pos hlt,List.getElem?_drop,hget]

theorem windowDrafts_size (h : d ∈ windowDrafts p text place) :
    d.window = place.1 ∧ d.origin = place.2 ∧ d.low < d.high ∧ d.high-d.low ≤ p.bytesMax ∧
      d.high ≤ place.1.byteLen := by
  obtain ⟨hwindow,horigin,hpart,hcontent⟩ := mem_draftsIn.mp h
  obtain ⟨k,b,hk,-,-⟩ := hasContent_slice.mp hcontent
  have hbounds := le_pieces hpart
  have hsize : 0 < p.bytesMax := by
    by_contra hzero
    have hnone := pieces_zero (by rwa [Nat.eq_zero_of_not_pos hzero] at hpart)
    omega
  have hlength := pieces_length hsize hpart
  exact ⟨hwindow,horigin,hlength.1,hlength.2,by omega⟩

theorem mem_draftsOf :
    d ∈ draftsOf p text segments ↔
      ∃ place ∈ places p text segments, d ∈ windowDrafts p text place := by
  rw [draftsOf,draftsFrom,mem_flatMap,places]

theorem draftsOf_ordered (horder : Ascending segments) :
    (draftsOf p text segments).Pairwise fun c d => c.byte_end ≤ d.byte_start := by
  rw [draftsOf,draftsFrom,pairwise_flatMap]
  constructor
  · intro place _
    refine List.Pairwise.filter _ (pairwise_map.mpr (pieces_ordered.imp ?_))
    intro x y hxy
    exact Nat.add_le_add_left hxy _
  · have hwindows := windows_ordered (p := p) horder
    rw [← placed_windows p text.length 0 ((groupsOf p segments).map windowOf),
      pairwise_map] at hwindows
    refine hwindows.imp ?_
    intro v w hapart c hc d hd
    obtain ⟨hwindow,-,hlow,-,hhigh⟩ := windowDrafts_size hc
    obtain ⟨hwindow',-,-⟩ := windowDrafts_size hd
    rw [Draft.byte_end,Draft.byte_start,hwindow,hwindow']
    simp only [Window.byteLen] at hhigh
    omega

theorem windowDrafts_cover (hplace : place.2 = place.1.byte_start) (hsize : 0 < p.bytesMax)
    {n : Nat} {b : UInt8} (hlow : place.1.byte_start ≤ n) (hhigh : n < place.1.byte_end)
    (hget : text[n]? = some b) (hb : isAsciiWhitespace b = false) :
    ∃ d ∈ windowDrafts p text place, d.byte_start ≤ n ∧ n < d.byte_end := by
  obtain ⟨part,hpart,hfirst,hlast⟩ := pieces_cover (n := n-place.1.byte_start) hsize
    (Nat.le_refl place.1.byteLen) (Nat.zero_le _) (by simp only [Window.byteLen]; omega)
  refine ⟨⟨place.1,place.2,part.1,part.2⟩,mem_draftsIn.mpr ⟨rfl,rfl,hpart,?_⟩,?_,?_⟩
  · have hplaceAt : place.2+part.1+(n-place.1.byte_start-part.1) = n := by omega
    refine hasContent_slice.mpr ⟨n-place.1.byte_start-part.1,b,?_,?_,hb⟩
    · dsimp only
      omega
    · dsimp only
      rw [hplaceAt,hget]
  · simp only [Draft.byte_start]
    omega
  · simp only [Draft.byte_end]
    omega

theorem draftsOf_cover (horder : Ascending segments)
    (hwithin : ∀ s ∈ segments, s.byte_end ≤ text.length) (hsize : 0 < p.bytesMax) {s : Segment}
    (hs : s ∈ segments) {n : Nat} (hn : ContentAt text s n) :
    ∃ d ∈ draftsOf p text segments, d.byte_start ≤ n ∧ n < d.byte_end := by
  have hcovers := Segment.covers_iff.mp hn.1
  obtain ⟨b,hget,hb⟩ := hn.2
  obtain ⟨g,hg,hsg⟩ := mem_groupsOf.mpr hs
  have hholds := windowOf_holds (groupsOf_ascending horder hg) hsg
  have hmem : windowOf g ∈ (places p text segments).map Prod.fst := by
    rw [places,placed_windows]
    exact mem_map_of_mem hg
  obtain ⟨place,hplace,hwindow⟩ := mem_map.mp hmem
  rw [← hwindow] at hholds
  have hat := (places_at horder hwithin hplace).2.2.2 hsize
  obtain ⟨d,hd,hspan⟩ := windowDrafts_cover hat hsize (by omega) (by omega) hget hb
  exact ⟨d,mem_draftsOf.mpr ⟨place,hplace,hd⟩,hspan⟩

end

namespace ChunkRun
variable {R : ChunkRun} {text : Bytes} {drafts : List Draft}

theorem factsOf_spans (R : ChunkRun) (text : Bytes) (drafts : List Draft) :
    (R.factsOf text drafts).map (fun x => (x.byte_start,x.byte_end)) =
      drafts.map fun d => (d.byte_start,d.byte_end) := by
  apply ext_getElem?
  intro i
  simp only [factsOf,List.getElem?_map,List.getElem?_mapIdx,Option.map_map]
  rfl

theorem factsOf_ordinals (R : ChunkRun) (text : Bytes) (drafts : List Draft) :
    (R.factsOf text drafts).map (·.ordinal) = List.range drafts.length := by
  apply ext_getElem?
  intro i
  rw [factsOf,List.getElem?_map,List.getElem?_mapIdx,Option.map_map]
  rcases Nat.lt_or_ge i drafts.length with hlt | hge
  · rw [List.getElem?_eq_getElem hlt,List.getElem?_range hlt]
    rfl
  · rw [List.getElem?_eq_none hge,List.getElem?_eq_none (by simpa using hge)]
    rfl

variable {x : ChunkFact}

theorem mem_factsOf :
    x ∈ R.factsOf text drafts ↔ ∃ i d, drafts[i]? = some d ∧ R.factOf text i d = x := by
  rw [factsOf,mem_mapIdx]
  constructor
  · rintro ⟨i,hi,rfl⟩
    exact ⟨i,_,List.getElem?_eq_getElem hi,rfl⟩
  · rintro ⟨i,d,hd,rfl⟩
    obtain ⟨hi,rfl⟩ := List.getElem?_eq_some_iff.mp hd
    exact ⟨i,hi,rfl⟩

theorem exists_factOf (R : ChunkRun) (text : Bytes) {d : Draft} (h : d ∈ drafts) :
    ∃ x ∈ R.factsOf text drafts, x.byte_start = d.byte_start ∧ x.byte_end = d.byte_end := by
  obtain ⟨i,hi⟩ := mem_iff_getElem?.mp h
  exact ⟨_,mem_factsOf.mpr ⟨i,d,hi,rfl⟩,rfl,rfl⟩

def idInput (R : ChunkRun) (x : ChunkFact) : Bytes :=
  chunkIdInput R.evidence_id R.params.kind x.byte_start x.content_hash

theorem factsOf_id (h : x ∈ R.factsOf text drafts) :
    x.chunk_id = truncateToId (R.blake3 (R.idInput x)) := by
  obtain ⟨i,d,-,rfl⟩ := mem_factsOf.mp h
  rfl

def IdsApart (R : ChunkRun) (facts : List ChunkFact) : Prop :=
  ∀ x ∈ facts, ∀ y ∈ facts,
    (truncateToId (R.blake3 (R.idInput x)) : ChunkId) = truncateToId (R.blake3 (R.idInput y)) →
      R.idInput x = R.idInput y

instance (R : ChunkRun) (facts : List ChunkFact) : Decidable (R.IdsApart facts) :=
  inferInstanceAs (Decidable (∀ x ∈ facts, ∀ y ∈ facts, _ → _))

/-- The chunks are in order and apart, of an allowed size, numbered from zero, with
ids of their own. -/
structure Tiles (p : ChunkParams) (facts : List ChunkFact) : Prop where
  ordered : facts.Pairwise fun x y => x.byte_end ≤ y.byte_start
  sized : ∀ x ∈ facts, x.byte_start < x.byte_end ∧ x.byte_end-x.byte_start ≤ p.bytesMax
  numbered : facts.map (·.ordinal) = List.range facts.length
  distinct : (facts.map (·.chunk_id)).Nodup

theorem factsOf_tile {segments : List Segment} (horder : Ascending segments)
    (hwithin : ∀ s ∈ segments, s.byte_end ≤ text.length) (hsize : text.length ≤ u64Max)
    {facts : List ChunkFact} (hfacts : facts <+: R.factsOf text (draftsOf R.params text segments))
    (hids : R.IdsApart facts) : Tiles R.params facts := by
  have hspans : facts.map (fun x => (x.byte_start,x.byte_end)) <+:
      (draftsOf R.params text segments).map fun d => (d.byte_start,d.byte_end) := by
    rw [← factsOf_spans R text]
    exact hfacts.map _
  have hordered : facts.Pairwise fun x y => x.byte_end ≤ y.byte_start := by
    have hdrafts : ((draftsOf R.params text segments).map fun d => (d.byte_start,d.byte_end)).Pairwise
        fun x y => x.2 ≤ y.1 := pairwise_map.mpr (draftsOf_ordered horder)
    exact pairwise_map.mp (hdrafts.sublist hspans.sublist)
  have hsized : ∀ x ∈ facts, x.byte_start < x.byte_end ∧
      x.byte_end-x.byte_start ≤ R.params.bytesMax ∧ x.byte_end ≤ text.length := by
    intro x hx
    obtain ⟨i,d,hd,rfl⟩ := mem_factsOf.mp (hfacts.subset hx)
    obtain ⟨place,hplace,hmem⟩ := mem_draftsOf.mp (mem_of_getElem? hd)
    obtain ⟨hwindow,-,hlow,hlength,hhigh⟩ := windowDrafts_size hmem
    have hat := places_at horder hwithin hplace
    simp only [factOf,Draft.byte_start,Draft.byte_end,hwindow]
    simp only [Window.byteLen] at hhigh
    omega
  refine ⟨hordered,fun x hx => ⟨(hsized x hx).1,(hsized x hx).2.1⟩,?_,?_⟩
  · have hnumbers : facts.map (·.ordinal) <+: List.range (draftsOf R.params text segments).length := by
      rw [← factsOf_ordinals R text]
      exact hfacts.map _
    have hlength := hnumbers.length_le
    rw [prefix_iff_eq_take,take_range,min_eq_left (by simpa using hlength)] at hnumbers
    rw [hnumbers,length_map]
  · rw [List.Nodup,pairwise_map]
    refine List.Pairwise.imp_of_mem ?_ hordered
    intro x y hx hy hapart hid
    rw [factsOf_id (hfacts.subset hx),factsOf_id (hfacts.subset hy)] at hid
    have hx' := hsized x hx
    have hy' := hsized y hy
    have hsame := chunkIdInput_start (by omega) (by omega) (hids x hx y hy hid)
    omega

theorem yielded_map (segments : List Segment) : yielded (segments.map .ok) = segments := by
  induction segments with
  | nil => rfl
  | cons s segments ih => rw [map_cons,yielded,ih]

variable {index : List (Except StreamError Segment)} {segment : Segment}

theorem chunkLoop_read {w : Window} {e : ChunkEmitter} {s : BoundedStream}
    {r : ChunkEmitter × BoundedStream}
    (h : R.chunkLoop w e s index = .ok r) (hs : .ok segment ∈ index) :
    segment ∈ yielded index := by
  induction index generalizing w e s with
  | nil => simp at hs
  | cons x index ih =>
    cases x with
    | error error => simp [chunkLoop] at h
    | ok next =>
      rw [yielded]
      rcases mem_cons.mp hs with hnext | hs
      · cases hnext
        exact mem_cons_self
      · rw [chunkLoop] at h
        cases hfirst : if w.wouldClose next R.params then R.emit e w s else .ok (e,s) with
        | error stop => simp [hfirst] at h
        | ok q =>
          obtain ⟨e₁,s₁⟩ := q
          rw [hfirst] at h
          dsimp only at h
          refine mem_cons_of_mem _ ?_
          generalize (if w.wouldClose next R.params then Window.empty else w).push next = w₁ at h
          split_ifs at h
          · cases hsecond : R.emit e₁ w₁ s₁ with
            | error stop => simp [hsecond] at h
            | ok q =>
              obtain ⟨e₂,s₂⟩ := q
              rw [hsecond] at h
              exact ih h hs
          · exact ih h hs

variable {budget : StreamBudget} {reader : Reader}

theorem chunkEvidence_read
    {product : Product}
    (h : R.chunkEvidence index reader budget = .ok product)
    (hs : .ok segment ∈ index) : segment ∈ yielded index := by
  unfold chunkEvidence at h
  cases hloop : R.chunkLoop .empty .new (.new reader budget) index with
  | error stop => simp [hloop] at h
  | ok r => exact chunkLoop_read hloop hs

theorem emitted_first (index : List (Except StreamError Segment)) (reader : Reader)
    (budget : StreamBudget) (horder : Ascending (yielded index))
    (hwithin : ∀ s ∈ yielded index, s.byte_end ≤ reader.rest.length) :
    emitted (R.chunkEvidence index reader budget) <+:
      R.factsOf reader.rest (draftsOf R.params reader.rest (yielded index)) := by
  have hends := chunkEvidence_ends R reader budget index
  cases hrun : R.chunkEvidence index reader budget with
  | ok product =>
    rw [hrun] at hends
    rw [emitted,hends.facts]
  | error stop =>
    rw [hrun] at hends
    exact (hends (fitting_ascending horder hwithin)).logged

theorem chunkEvidence_error
    (horder : Ascending (yielded index))
    (hwithin : ∀ s ∈ yielded index, s.byte_end ≤ reader.rest.length)
    {stop : ChunkStop × ChunkEmitter} (h : R.chunkEvidence index reader budget = .error stop) :
    Hindrance R reader budget index (draftsOf R.params reader.rest (yielded index)) := by
  have hends := chunkEvidence_ends R reader budget index
  rw [h] at hends
  exact (hends (fitting_ascending horder hwithin)).hindered

/-- The chunks of a run are in the order of the text and apart, none is too large, they
are numbered from zero on and no two have one id. A run that comes through leaves out no
byte of a segment but blanks, and each does unless something around it fails or the
chunks are too many. -/
theorem chunks_tile (R : ChunkRun) (index : List (Except StreamError Segment)) (reader : Reader)
    (budget : StreamBudget) (horder : Ascending (yielded index))
    (hwithin : ∀ s ∈ yielded index, s.byte_end ≤ reader.rest.length)
    (hsize : reader.rest.length ≤ u64Max)
    (hids : R.IdsApart (emitted (R.chunkEvidence index reader budget))) :
    Tiles R.params (emitted (R.chunkEvidence index reader budget)) ∧
    (∀ product, R.chunkEvidence index reader budget = .ok product →
      ∀ s, .ok s ∈ index → ∀ n, ContentAt reader.rest s n →
        ∃ x ∈ emitted (R.chunkEvidence index reader budget), x.byte_start ≤ n ∧ n < x.byte_end) ∧
    ∀ stop, R.chunkEvidence index reader budget = .error stop →
      Hindrance R reader budget index (draftsOf R.params reader.rest (yielded index)) := by
  refine ⟨?_,?_,?_⟩
  · exact factsOf_tile horder hwithin hsize (emitted_first index reader budget horder hwithin) hids
  · intro product hrun s hs n hn
    have hends := chunkEvidence_ends R reader budget index
    rw [hrun] at hends
    rw [hrun,emitted,hends.facts]
    have hyielded := chunkEvidence_read hrun hs
    have hpositive : 0 < R.params.bytesMax := by
      obtain ⟨g,hg,hsg⟩ := mem_groupsOf.mpr hyielded
      have hcovers := Segment.covers_iff.mp hn.1
      have hholds := windowOf_holds (groupsOf_ascending horder hg) hsg
      have hwindow := hends.sized (windowOf g) (mem_map_of_mem hg)
      simp only [Window.byteLen] at hwindow
      omega
    obtain ⟨d,hd,hlow,hhigh⟩ := draftsOf_cover horder hwithin hpositive hyielded hn
    obtain ⟨x,hx,hstart,hend⟩ := exists_factOf R reader.rest hd
    exact ⟨x,hx,by omega,by omega⟩
  · intro stop hrun
    exact chunkEvidence_error horder hwithin hrun

def noteRun : ChunkRun where
  blake3 := fun bytes => BitVec.ofNat 256 (bytes.foldl (fun h b => h*257+b.toNat+1) 7)
  evidence_id := ⟨7⟩
  params := chunkParamsFor .document
  appends := fun _ => .ok ()

def noteReader : Reader := ⟨utf8Bytes "# One\nfirst\n\n# Two\nsecond\n",[.ok 3]⟩

def noteIndex : List (Except StreamError Segment) :=
  [.ok ⟨0,12,.lineRange 1 2,1⟩,.ok ⟨13,26,.lineRange 4 5,1⟩]

def noteChunked : Except (ChunkStop × ChunkEmitter) Product :=
  noteRun.chunkEvidence noteIndex noteReader ⟨.chunk,4096⟩

example : (emitted noteChunked).map (fun x => (x.byte_start,x.byte_end)) = [(0,12),(13,26)] := by
  decide +kernel

theorem note_tiles : Tiles noteRun.params (emitted noteChunked) := by
  have horder : Ascending (yielded noteIndex) := ⟨by decide +kernel,by decide +kernel⟩
  have hwithin : ∀ s ∈ yielded noteIndex, s.byte_end ≤ noteReader.rest.length := by
    decide +kernel
  exact (chunks_tile noteRun noteIndex noteReader ⟨.chunk,4096⟩ horder hwithin (by decide +kernel)
    (by decide +kernel)).1

end ChunkRun
end ProjectOS.Ingest
