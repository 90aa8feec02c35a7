import ProjectOS.Ingest.Grouping

/-! What a run of the stage writes: the pieces of its windows that have content,
numbered in the order of the text. -/

namespace ProjectOS.Ingest
open Lib Domain Sched List

theorem ContentHasher.take_started (h : ContentHasher) (b : UInt8) :
    (h.take b).started = (h.started || !isAsciiWhitespace b) := by
  unfold take
  split_ifs with hblank hspace
  · simp [hblank]
  · simp [hblank]
  · simp [hblank]

theorem ContentHasher.update_isEmpty (h : ContentHasher) (bytes : Bytes) :
    (h.update bytes).isEmpty = (h.isEmpty && !hasContent bytes) := by
  induction bytes generalizing h with
  | nil => simp [update,hasContent]
  | cons b bytes ih =>
    have hstep := ih (h.take b)
    simp only [update,foldl_cons] at hstep ⊢
    rw [hstep,isEmpty,take_started,isEmpty,hasContent,hasContent,any_cons]
    cases h.started <;> cases isAsciiWhitespace b <;> simp

def ChunkParams.seek (p : ChunkParams) (limit offset byte_start : Nat) : Nat :=
  if p.bytesMax = 0 then offset else max offset (min byte_start limit)

def placed (p : ChunkParams) (limit : Nat) : Nat → List Window → List (Window × Nat)
  | _, [] => []
  | offset, w :: windows =>
    (w,p.seek limit offset w.byte_start) ::
      placed p limit (p.seek limit offset w.byte_start+w.byteLen) windows

structure Draft where
  window : Window
  origin : Nat
  low : Nat
  high : Nat

namespace Draft

def byte_start (d : Draft) : Nat := d.window.byte_start+d.low

def byte_end (d : Draft) : Nat := d.window.byte_start+d.high

def bytes (text : Bytes) (d : Draft) : Bytes :=
  (text.drop (d.origin+d.low)).take (d.high-d.low)

end Draft

def draftsIn (text : Bytes) (place : Window × Nat) (parts : List (Nat × Nat)) : List Draft :=
  (parts.map fun part => ⟨place.1,place.2,part.1,part.2⟩).filter fun d => hasContent (d.bytes text)

def windowDrafts (p : ChunkParams) (text : Bytes) (place : Window × Nat) : List Draft :=
  draftsIn text place (pieces p.bytesMax place.1.byteLen 0 place.1.byteLen)

def places (p : ChunkParams) (text : Bytes) (segments : List Segment) : List (Window × Nat) :=
  placed p text.length 0 ((groupsOf p segments).map windowOf)

def draftsFrom (p : ChunkParams) (text : Bytes) (offset : Nat) (windows : List Window) :
    List Draft :=
  (placed p text.length offset windows).flatMap (windowDrafts p text)

def Fitting (p : ChunkParams) (limit offset : Nat) (windows : List Window) : Prop :=
  ∀ place ∈ placed p limit offset windows,
    place.1.byteLen = 0 ∨ place.2+place.1.byteLen ≤ limit

def draftsOf (p : ChunkParams) (text : Bytes) (segments : List Segment) : List Draft :=
  draftsFrom p text 0 ((groupsOf p segments).map windowOf)

def yielded : List (Except StreamError Segment) → List Segment
  | []
  | .error _ :: _ => []
  | .ok segment :: index => segment :: yielded index

def ChunkStop.OnLimit (stop : ChunkStop) : Prop :=
  ∃ value limit_value, stop = .refused (.limitExceeded "chunk count" value limit_value)

def ChunkEmitter.logged (e : ChunkEmitter) : List ChunkFact := e.committed.flatMap (·.2)

def ChunkEmitter.facts (e : ChunkEmitter) : List ChunkFact := e.logged ++ e.batch

namespace ChunkRun

def factOf (R : ChunkRun) (text : Bytes) (ordinal : Nat) (d : Draft) : ChunkFact :=
  let hasher := ContentHasher.new.update (d.bytes text)
  let content_hash := hasher.finalize R.blake3
  { chunk_id := deriveChunkId R.blake3 R.evidence_id R.params.kind d.byte_start content_hash
    ordinal := ordinal
    kind := R.params.kind
    byte_start := d.byte_start
    byte_end := d.byte_end
    locator := d.window.locator.getD (.lineRange 1 1)
    content_hash := content_hash
    token_count_estimate :=
      min ((hasher.content_byte_count+(tokenBytesEstimate-1))/tokenBytesEstimate) u32Max }

def factsOf (R : ChunkRun) (text : Bytes) (drafts : List Draft) : List ChunkFact :=
  drafts.mapIdx (R.factOf text)

section
variable (R : ChunkRun) (reader : Reader) (budget : StreamBudget)
  (index : List (Except StreamError Segment))

/-- The emitter has emitted the drafts, and nothing else. -/
structure Emits (drafts : List Draft) (e : ChunkEmitter) : Prop where
  facts : e.facts = R.factsOf reader.rest drafts
  ordinal : e.ordinal = drafts.length
  total : e.total = drafts.length
  bounded : drafts.length ≤ chunkCountMax
  room : e.batch.length < chunkBatchCountMax

/-- The stream stands at the offset of the text. -/
structure Reads (offset : Nat) (s : BoundedStream) : Prop where
  sound : s.Sound
  remaining : s.remaining = reader.rest.drop offset
  budget : s.budget = budget
  healthy : reader.Healthy → s.reader.Healthy

structure Moved (drafts : List Draft) (offset : Nat) (r : ChunkEmitter × BoundedStream) : Prop where
  emits : Emits R reader drafts r.1
  reads : Reads reader budget offset r.2
  offset : r.1.text_offset = offset

/-- What a run of the chunker can stop on. -/
inductive Hindrance (drafts : List Draft) : Prop where
  | reader (h : ¬ reader.Healthy)
  | budget (h : budget.buffer_bytes_max < R.params.bytesMax)
  | size (h : R.params.bytesMax = 0)
  | log (batch_index : Nat) (error : LogError) (h : R.appends batch_index = .error error)
  | index (error : StreamError) (h : .error error ∈ index)
  | count (h : chunkCountMax < drafts.length)

def Cause (drafts : List Draft) (stop : ChunkStop) : Prop :=
  stop.OnLimit ∧ chunkCountMax < drafts.length ∨
    (stop.OnLimit → ∃ error, .error error ∈ index ∧ stop = .refused error) ∧
      Hindrance R reader budget index []

/-- A run that stopped has logged a front part of the drafts, and had a cause. -/
structure Stopped (drafts : List Draft) (stop : ChunkStop × ChunkEmitter) : Prop where
  logged : stop.2.logged <+: R.factsOf reader.rest drafts
  few : stop.2.logged.length ≤ chunkCountMax
  cause : Cause R reader budget index drafts stop.1

def Ends {ε α : Type} (good : α → Prop) (bad : ε → Prop) : Except ε α → Prop
  | .ok a => good a
  | .error error => bad error

end

variable {R : ChunkRun} {reader : Reader} {budget : StreamBudget}
  {index : List (Except StreamError Segment)}

theorem Ends.imp {ε α : Type} {good good' : α → Prop} {bad bad' : ε → Prop} {r : Except ε α}
    (h : Ends good bad r) (hgood : ∀ a, good a → good' a) (hbad : ∀ error, bad error → bad' error) :
    Ends good' bad' r := by
  cases r with
  | ok a => exact hgood a h
  | error error => exact hbad error h

variable (text : Bytes)

theorem factsOf_append (drafts more : List Draft) :
    ∃ later, R.factsOf text (drafts ++ more) = R.factsOf text drafts ++ later := by
  rw [factsOf,mapIdx_append]
  exact ⟨_,rfl⟩

theorem factsOf_snoc (drafts : List Draft) (d : Draft) :
    R.factsOf text (drafts ++ [d]) =
      R.factsOf text drafts ++ [R.factOf text drafts.length d] := by
  simp [factsOf,mapIdx_append]

variable {drafts : List Draft}

theorem Hindrance.append (h : Hindrance R reader budget index drafts) (more : List Draft) :
    Hindrance R reader budget index (drafts ++ more) := by
  cases h with
  | reader h => exact .reader h
  | budget h => exact .budget h
  | size h => exact .size h
  | log batch_index error h => exact .log batch_index error h
  | index error h => exact .index error h
  | count h =>
    refine .count ?_
    rw [length_append]
    omega

variable {stop : ChunkStop × ChunkEmitter}

theorem Stopped.hindered
    (h : Stopped R reader budget index drafts stop) : Hindrance R reader budget index drafts := by
  rcases h.cause with ⟨-,hmany⟩ | ⟨-,hindered⟩
  · exact .count hmany
  · exact hindered.append drafts

theorem Stopped.append
    (h : Stopped R reader budget index drafts stop) (more : List Draft) :
    Stopped R reader budget index (drafts ++ more) stop := by
  obtain ⟨later,hlater⟩ := factsOf_append (R := R) reader.rest drafts more
  refine ⟨?_,h.few,h.cause.imp_left fun hmany => ⟨hmany.1,?_⟩⟩
  · rw [hlater]
    exact h.logged.trans (prefix_append _ _)
  · rw [length_append]
    exact Nat.lt_add_right _ hmany.2

theorem factsOf_length (drafts : List Draft) : (R.factsOf text drafts).length = drafts.length := by
  rw [factsOf,length_mapIdx]

variable {e : ChunkEmitter}

theorem Emits.few (h : Emits R reader drafts e) : e.logged.length ≤ chunkCountMax := by
  have hfacts := congrArg List.length h.facts
  rw [factsOf_length,ChunkEmitter.facts,length_append] at hfacts
  have hbounded := h.bounded
  omega

theorem Emits.stopped (h : Emits R reader drafts e) {error : ChunkStop} {more : List Draft}
    (hcause : Cause R reader budget index (drafts ++ more) error) :
    Stopped R reader budget index (drafts ++ more) (error,e) := by
  obtain ⟨later,hlater⟩ := factsOf_append (R := R) reader.rest drafts more
  refine ⟨?_,h.few,hcause⟩
  rw [hlater,← h.facts,ChunkEmitter.facts,append_assoc]
  exact prefix_append _ _

theorem cause_stream {error : StreamError}
    (herror : ∀ limit value limit_value, error ≠ .limitExceeded limit value limit_value)
    (hindered : Hindrance R reader budget index []) :
    Cause R reader budget index drafts (.refused error) := by
  refine Or.inr ⟨?_,hindered⟩
  rintro ⟨value,limit_value,hstop⟩
  exact absurd (ChunkStop.refused.inj hstop) (herror _ _ _)

theorem cause_log {batch_index : Nat} {error : LogError}
    (happend : R.appends batch_index = .error error) (stop : LogError) :
    Cause R reader budget index drafts (.log stop) := by
  refine Or.inr ⟨?_,.log batch_index error happend⟩
  rintro ⟨_,_,⟨⟩⟩

theorem flush_ends (h : e.batch.length ≤ chunkBatchCountMax) :
    Ends
      (fun e' => e'.logged = e.facts ∧ e'.batch = [] ∧ e'.ordinal = e.ordinal ∧
        e'.total = e.total ∧ e'.text_offset = e.text_offset)
      (fun stop => stop.2.logged = e.logged ∧
        ∃ n error, stop.1 = .log error ∧ R.appends n = .error error)
      (R.flush e) := by
  unfold flush
  rw [if_neg (Nat.not_lt.mpr h)]
  split_ifs with hbatch
  · exact ⟨by simp [ChunkEmitter.facts,hbatch],hbatch,rfl,rfl,rfl⟩
  · cases happend : R.appends e.batch_index with
    | error error => exact ⟨rfl,e.batch_index,error,rfl,happend⟩
    | ok _ => exact ⟨by simp [ChunkEmitter.logged,ChunkEmitter.facts],rfl,rfl,rfl,rfl⟩

variable (budget index) in
theorem pushFact_ends (he : Emits R reader drafts e) (w : Window) (origin low high : Nat) :
    Ends
      (fun e' => Emits R reader (drafts ++ draftsIn reader.rest (w,origin) [(low,high)]) e' ∧
        e'.text_offset = e.text_offset)
      (Stopped R reader budget index (drafts ++ draftsIn reader.rest (w,origin) [(low,high)]))
      (R.pushFact e w (w.byte_start+low) (w.byte_start+high)
        (ContentHasher.new.update ((Draft.mk w origin low high).bytes reader.rest))) := by
  unfold pushFact
  rw [ContentHasher.update_isEmpty]
  cases hcontent : hasContent ((Draft.mk w origin low high).bytes reader.rest) with
  | false =>
    have hnone : draftsIn reader.rest (w,origin) [(low,high)] = [] := by
      simp [draftsIn,hcontent]
    rw [hnone,append_nil]
    exact ⟨he,rfl⟩
  | true =>
    have hsome : draftsIn reader.rest (w,origin) [(low,high)] = [⟨w,origin,low,high⟩] := by
      simp [draftsIn,hcontent]
    rw [hsome,if_neg (by simp)]
    by_cases hcount : chunkCountMax ≤ e.total
    · rw [if_pos hcount]
      refine he.stopped (Or.inl ⟨⟨_,_,rfl⟩,?_⟩)
      rw [length_append,← he.total]
      exact Nat.lt_succ_of_le hcount
    · rw [if_neg hcount]
      let e₁ : ChunkEmitter := { e with
        batch := e.batch ++ [R.factOf reader.rest e.ordinal ⟨w,origin,low,high⟩]
        ordinal := satAdd32 e.ordinal 1
        total := e.total+1 }
      change Ends _ _ (if chunkBatchCountMax ≤ e₁.batch.length then R.flush e₁ else .ok e₁)
      have htotal := he.total
      have hroom := he.room
      have hfacts : e₁.facts =
          R.factsOf reader.rest (drafts ++ [⟨w,origin,low,high⟩]) := by
        rw [factsOf_snoc,← he.facts,← he.ordinal]
        exact (append_assoc _ _ _).symm
      have hordinal : e₁.ordinal = (drafts ++ [Draft.mk w origin low high]).length := by
        have hbound : chunkCountMax < u32Max := by decide
        change min (e.ordinal+1) u32Max = _
        rw [he.ordinal,length_append,length_singleton]
        omega
      have hlength : e₁.total = (drafts ++ [Draft.mk w origin low high]).length := by
        rw [length_append,← htotal]
        rfl
      have hbounded : (drafts ++ [Draft.mk w origin low high]).length ≤ chunkCountMax := by
        rw [← hlength]
        exact Nat.lt_of_not_le hcount
      have hbatch : e₁.batch.length = e.batch.length+1 := length_append
      split_ifs with hfull
      · have hflush := flush_ends (R := R) (e := e₁) (by omega)
        cases hend : R.flush e₁ with
        | ok e₂ =>
          rw [hend] at hflush
          obtain ⟨hlogged,hnil,hordinal',htotal',hoffset⟩ := hflush
          refine ⟨⟨?_,hordinal'.trans hordinal,htotal'.trans hlength,hbounded,?_⟩,hoffset⟩
          · rw [ChunkEmitter.facts,hlogged,hnil,append_nil,hfacts]
          · rw [hnil]
            decide
        | error stop =>
          rw [hend] at hflush
          obtain ⟨hlogged,n,error,hstop,happend⟩ := hflush
          refine ⟨?_,?_,hstop ▸ cause_log happend error⟩
          · rw [hlogged,← hfacts,ChunkEmitter.facts]
            exact prefix_append _ _
          · rw [hlogged]
            exact he.few
      · exact ⟨⟨hfacts,hordinal,hlength,hbounded,Nat.lt_of_not_le hfull⟩,rfl⟩

variable {offset : Nat} {s : BoundedStream}

theorem window_ends (hs : Reads reader budget offset s) (want : Nat) :
    Ends
      (fun r => r.1 = (reader.rest.drop offset).take want ∧
        ∀ count ≤ r.1.length, Reads reader budget (offset+count) (r.2.advance count))
      (fun error => (∀ limit value limit_value, error ≠ .limitExceeded limit value limit_value) ∧
        (¬ reader.Healthy ∨ budget.buffer_bytes_max < want)) (s.window want) := by
  cases hwindow : s.window want with
  | error error =>
    refine ⟨BoundedStream.window_error hwindow,?_⟩
    by_contra hnot
    rw [not_or,not_not,Nat.not_lt] at hnot
    have hwant : want ≤ s.budget.buffer_bytes_max := by
      rw [hs.budget]
      exact hnot.2
    obtain ⟨s',hfill,-⟩ := BoundedStream.fill_healthy (hs.healthy hnot.1) hs.sound hwant
    simp [BoundedStream.window,hfill] at hwindow
  | ok r =>
    obtain ⟨bytes,s'⟩ := r
    obtain ⟨hahead,hbudget,hbytes,havailable⟩ := BoundedStream.window_ok hs.sound hwindow
    refine ⟨by rw [hbytes,hs.remaining],?_⟩
    intro count hcount
    have hle : count ≤ s'.available := Nat.le_trans hcount havailable
    refine ⟨BoundedStream.advance_sound hahead.sound,?_,hahead.budget.trans hs.budget,?_⟩
    · rw [BoundedStream.advance_remaining hle,hahead.remaining,hs.remaining,drop_drop]
    · intro hhealthy
      obtain ⟨s₁,hfill,hreader⟩ :=
        BoundedStream.fill_healthy (hs.healthy hhealthy) hs.sound hbudget
      rw [BoundedStream.window,hfill] at hwindow
      cases hwindow
      exact hreader

theorem seek_behind (p : ChunkParams) {limit byte_start : Nat} (h : byte_start ≤ offset) :
    p.seek limit offset byte_start = offset := by
  unfold ChunkParams.seek
  split_ifs
  · rfl
  · omega

theorem skipTo_ends {rounds byte_start : Nat} (hs : Reads reader budget offset s)
    (hrounds : byte_start-offset ≤ rounds) :
    Ends
      (fun r => r.1 = R.params.seek reader.rest.length offset byte_start ∧
        Reads reader budget r.1 r.2)
      (fun error => (∀ limit value limit_value, error ≠ .limitExceeded limit value limit_value) ∧
        (¬ reader.Healthy ∨ budget.buffer_bytes_max < R.params.bytesMax))
      (R.skipTo byte_start rounds offset s) := by
  induction rounds generalizing offset s with
  | zero => exact ⟨(seek_behind _ (by omega)).symm,hs⟩
  | succ rounds ih =>
    rw [skipTo]
    split_ifs with hbehind
    · exact ⟨(seek_behind _ hbehind).symm,hs⟩
    · have hwindow := window_ends hs (min (byte_start-offset) R.params.bytesMax)
      cases hstep : s.window (min (byte_start-offset) R.params.bytesMax) with
      | error error =>
        rw [hstep] at hwindow
        exact ⟨hwindow.1,hwindow.2.imp_right fun h => by omega⟩
      | ok r =>
        obtain ⟨window,s'⟩ := r
        rw [hstep] at hwindow
        obtain ⟨hshown,hreads⟩ := hwindow
        dsimp only at hshown hreads ⊢
        have hlen := congrArg List.length hshown
        rw [length_take,length_drop] at hlen
        have hseek : R.params.seek reader.rest.length offset byte_start =
            R.params.seek reader.rest.length (offset+window.length) byte_start := by
          unfold ChunkParams.seek
          split_ifs
          · omega
          · omega
        split_ifs with hempty
        · have hsame : R.params.seek reader.rest.length offset byte_start = offset := by
            unfold ChunkParams.seek
            split_ifs
            · rfl
            · omega
          have hstill : s'.advance 0 = s' := by simp [BoundedStream.advance]
          refine ⟨hsame.symm,?_⟩
          rw [← hstill]
          exact hreads 0 (Nat.zero_le _)
        · rw [hseek]
          exact ih (hreads _ (Nat.le_refl _)) (by omega)

theorem draftsIn_cons (place : Window × Nat) (part : Nat × Nat) (parts : List (Nat × Nat)) :
    draftsIn text place (part :: parts) =
      draftsIn text place [part] ++ draftsIn text place parts := by
  simp only [draftsIn,map_cons,map_nil,filter_cons,filter_nil]
  split_ifs
  · rfl
  · rfl

theorem Emits.moved (h : Emits R reader drafts e) (text_offset : Nat) :
    Emits R reader drafts { e with text_offset := text_offset } :=
  ⟨h.facts,h.ordinal,h.total,h.bounded,h.room⟩

variable {w : Window}

theorem emitLoop_dry {rounds remaining split_start : Nat}
    (hs : Reads reader budget e.text_offset s) (hend : reader.rest.length ≤ e.text_offset)
    (hremaining : 0 < remaining) (hrounds : 0 < rounds) (bad : ChunkStop × ChunkEmitter → Prop)
    (hbad : ∀ stop, bad stop) (good : ChunkEmitter × BoundedStream → Prop) :
    Ends good bad (R.emitLoop w rounds remaining split_start e s) := by
  obtain ⟨rounds,rfl⟩ := Nat.exists_eq_succ_of_ne_zero hrounds.ne'
  rw [emitLoop,if_neg hremaining.ne']
  have hwindow := window_ends hs (min remaining R.params.bytesMax)
  cases hstep : s.window (min remaining R.params.bytesMax) with
  | error error => exact hbad _
  | ok r =>
    obtain ⟨window,s'⟩ := r
    rw [hstep] at hwindow
    have hnone : window = [] := by
      refine hwindow.1.trans ?_
      rw [drop_eq_nil_of_le hend,take_nil]
    simp only [hnone,length_nil,Nat.zero_min,if_true]
    exact hbad _

theorem emitLoop_ends {rounds remaining low origin : Nat}
    (h : Moved R reader budget drafts (origin+low) (e,s)) (hrounds : remaining ≤ rounds) :
    Ends
      (fun r => Moved R reader budget
          (drafts ++ draftsIn reader.rest (w,origin) (pieces R.params.bytesMax rounds low remaining))
          (origin+low+remaining) r ∧
        (remaining = 0 ∨ 0 < R.params.bytesMax ∧ origin+low+remaining ≤ reader.rest.length))
      (fun stop => (remaining = 0 ∨ origin+low+remaining ≤ reader.rest.length) →
        Stopped R reader budget index
          (drafts ++ draftsIn reader.rest (w,origin) (pieces R.params.bytesMax rounds low remaining))
          stop)
      (R.emitLoop w rounds remaining (w.byte_start+low) e s) := by
  induction rounds generalizing remaining low drafts e s with
  | zero =>
    obtain rfl := Nat.le_zero.mp hrounds
    rw [emitLoop,pieces,draftsIn,map_nil,filter_nil,append_nil]
    exact ⟨h,Or.inl rfl⟩
  | succ rounds ih =>
    obtain ⟨he,hs,hoffset⟩ := h
    dsimp only at he hs hoffset
    rw [emitLoop,pieces]
    split_ifs with hzero
    · rw [draftsIn,map_nil,filter_nil,append_nil,hzero]
      exact ⟨⟨he,hs,hoffset⟩,Or.inl rfl⟩
    · rw [draftsIn_cons,← append_assoc]
      generalize hpart : draftsIn reader.rest (w,origin) [(low,low+min remaining R.params.bytesMax)]
        = part
      have hwindow := window_ends hs (min remaining R.params.bytesMax)
      cases hstep : s.window (min remaining R.params.bytesMax) with
      | error error =>
        rw [hstep] at hwindow
        intro _
        rw [append_assoc]
        refine he.stopped (cause_stream hwindow.1 ?_)
        rcases hwindow.2 with hsick | hbudget
        · exact .reader hsick
        · exact .budget (by omega)
      | ok r =>
        obtain ⟨window,s'⟩ := r
        rw [hstep] at hwindow
        obtain ⟨hshown,hreads⟩ := hwindow
        dsimp only at hshown hreads ⊢
        have hlen := congrArg List.length hshown
        rw [length_take,length_drop] at hlen
        have hconsumed : min window.length (min remaining R.params.bytesMax) = window.length := by
          omega
        rw [hconsumed]
        split_ifs with hnone
        · intro hfits
          rw [append_assoc]
          refine (he.moved _).stopped (Or.inr ⟨?_,.size (by omega)⟩)
          rintro ⟨value,limit_value,hstop⟩
          simp at hstop
        · have hread := hreads window.length (Nat.le_refl _)
          have hbytes : (Draft.mk w origin low (low+window.length)).bytes reader.rest =
              window.take window.length := by
            have hdrop : (reader.rest.drop (origin+low)).take window.length = window := by
              refine Eq.trans ?_ hshown.symm
              rw [hlen,← length_drop,← take_eq_take_min]
            rw [Draft.bytes,Nat.add_sub_cancel_left,hdrop,take_length]
          have hpush := pushFact_ends budget index
            (he.moved (e.text_offset+window.length)) w origin low (low+window.length)
          rw [hbytes,← Nat.add_assoc] at hpush
          cases hfact : R.pushFact { e with text_offset := e.text_offset+window.length } w
              (w.byte_start+low) (w.byte_start+low+window.length)
              (ContentHasher.new.update (window.take window.length)) with
          | error stop =>
            rw [hfact] at hpush
            intro hfits
            have hfull : window.length = min remaining R.params.bytesMax := by omega
            rw [← hpart,← hfull]
            exact Stopped.append hpush _
          | ok e₂ =>
            rw [hfact] at hpush
            have hmoved : e₂.text_offset = origin+low+window.length := by
              rw [hpush.2,← hoffset]
            by_cases hfull : window.length = min remaining R.params.bytesMax
            · rw [← hpart,← hfull]
              rw [Nat.add_assoc] at hread hmoved
              have hrest : Ends _ _ (R.emitLoop w rounds (remaining-window.length)
                  (w.byte_start+(low+window.length)) e₂ (s'.advance window.length)) :=
                ih ⟨hpush.1,hread,hmoved⟩ (by omega)
              have hstop : origin+(low+window.length)+(remaining-window.length) =
                  origin+low+remaining := by omega
              rw [hstop,← Nat.add_assoc] at hrest
              refine hrest.imp ?_ ?_
              · intro r hr
                exact ⟨hr.1,Or.inr (by omega)⟩
              · intro stop hs hfits
                exact hs (by omega)
            · rw [← hmoved] at hread
              exact emitLoop_dry hread (by omega) (by omega) (by omega) _
                (fun stop hfits => by omega) _

variable (index) in
theorem emit_ends (h : Moved R reader budget drafts offset (e,s)) (hw : w.isEmpty = false) :
    Ends
      (fun r => Moved R reader budget
          (drafts ++ windowDrafts R.params reader.rest
            (w,R.params.seek reader.rest.length offset w.byte_start))
          (R.params.seek reader.rest.length offset w.byte_start+w.byteLen) r ∧
        (w.byteLen = 0 ∨ 0 < R.params.bytesMax ∧
          R.params.seek reader.rest.length offset w.byte_start+w.byteLen ≤ reader.rest.length))
      (fun stop => (w.byteLen = 0 ∨
          R.params.seek reader.rest.length offset w.byte_start+w.byteLen ≤ reader.rest.length) →
        Stopped R reader budget index
          (drafts ++ windowDrafts R.params reader.rest
            (w,R.params.seek reader.rest.length offset w.byte_start)) stop)
      (R.emit e w s) := by
  obtain ⟨he,hs,rfl⟩ := h
  dsimp only at he hs ⊢
  rw [emit,hw,if_neg (by simp)]
  have hskip := skipTo_ends (R := R) hs (Nat.le_refl (w.byte_start-e.text_offset))
  cases hstep : R.skipTo w.byte_start (w.byte_start-e.text_offset) e.text_offset s with
  | error error =>
    rw [hstep] at hskip
    intro _
    refine he.stopped (cause_stream hskip.1 ?_)
    rcases hskip.2 with hsick | hbudget
    · exact .reader hsick
    · exact .budget hbudget
  | ok r =>
    obtain ⟨text_offset,s'⟩ := r
    rw [hstep] at hskip
    obtain ⟨hseek,hreads⟩ := hskip
    dsimp only at hseek hreads ⊢
    rw [← hseek]
    exact emitLoop_ends ⟨he.moved text_offset,hreads,rfl⟩ (Nat.le_refl w.byteLen)

section
variable (R) (reader) (budget)

structure Done (drafts : List Draft) (offset : Nat) (windows : List Window)
    (r : ChunkEmitter × BoundedStream) : Prop where
  moved : ∃ stop, Moved R reader budget
    (drafts ++ draftsFrom R.params reader.rest offset windows) stop r
  fitting : Fitting R.params reader.rest.length offset windows
  sized : ∀ w ∈ windows, w.byteLen = 0 ∨ 0 < R.params.bytesMax

def Halted (index : List (Except StreamError Segment)) (drafts : List Draft) (offset : Nat)
    (windows : List Window) (stop : ChunkStop × ChunkEmitter) : Prop :=
  Fitting R.params reader.rest.length offset windows →
    Stopped R reader budget index (drafts ++ draftsFrom R.params reader.rest offset windows) stop

end

variable (index) in
theorem Moved.emit (windows : List Window) (h : Moved R reader budget drafts offset (e,s))
    (hw : w.isEmpty = false) :
    Ends
      (fun r => ∃ more behind, Moved R reader budget more behind r ∧
        (∀ q, Done R reader budget more behind windows q →
          Done R reader budget drafts offset (w :: windows) q) ∧
        ∀ stop, Halted R reader budget index more behind windows stop →
          Halted R reader budget index drafts offset (w :: windows) stop)
      (Halted R reader budget index drafts offset (w :: windows)) (R.emit e w s) := by
  have hdrafts : draftsFrom R.params reader.rest offset (w :: windows) =
      windowDrafts R.params reader.rest
          (w,R.params.seek reader.rest.length offset w.byte_start) ++
        draftsFrom R.params reader.rest
          (R.params.seek reader.rest.length offset w.byte_start+w.byteLen) windows := rfl
  have hfits : Fitting R.params reader.rest.length offset (w :: windows) ↔
      (w.byteLen = 0 ∨ R.params.seek reader.rest.length offset w.byte_start+w.byteLen ≤
        reader.rest.length) ∧
      Fitting R.params reader.rest.length
        (R.params.seek reader.rest.length offset w.byte_start+w.byteLen) windows :=
    forall_mem_cons
  refine (emit_ends index h hw).imp ?_ ?_
  · rintro r ⟨hmoved,hsize⟩
    refine ⟨_,_,hmoved,?_,?_⟩
    · intro q hq
      refine ⟨?_,hfits.mpr ⟨hsize.imp_right And.right,hq.fitting⟩,?_⟩
      · rw [hdrafts,← append_assoc]
        exact hq.moved
      · intro v hv
        rcases mem_cons.mp hv with rfl | hv
        · exact hsize.imp_right And.left
        · exact hq.sized v hv
    · intro stop hstop hfitting
      rw [hdrafts,← append_assoc]
      exact hstop (hfits.mp hfitting).2
  · intro stop hstop hfitting
    rw [hdrafts,← append_assoc]
    exact (hstop (hfits.mp hfitting).1).append _

theorem grown_ends {group segments : List Segment} {rest : List (Except StreamError Segment)}
    (hgroup : group ≠ []) (h : Moved R reader budget drafts offset (e,s))
    (hlater : ∀ group drafts offset e s, Moved R reader budget drafts offset (e,s) →
      Ends (Done R reader budget drafts offset ((groupsFrom R.params group segments).map windowOf))
        (Halted R reader budget index drafts offset
          ((groupsFrom R.params group segments).map windowOf))
        (R.chunkLoop (windowOf group) e s rest)) :
    Ends
      (Done R reader budget drafts offset
        ((if R.params.boundary = .perSegment ∨ (windowOf group).exceedsMax R.params then
          group :: groupsFrom R.params [] segments
        else groupsFrom R.params group segments).map windowOf))
      (Halted R reader budget index drafts offset
        ((if R.params.boundary = .perSegment ∨ (windowOf group).exceedsMax R.params then
          group :: groupsFrom R.params [] segments
        else groupsFrom R.params group segments).map windowOf))
      (if R.params.boundary = .perSegment ∨ (windowOf group).exceedsMax R.params then
        match R.emit e (windowOf group) s with
        | .error stop => .error stop
        | .ok (e,s) => R.chunkLoop Window.empty e s rest
      else R.chunkLoop (windowOf group) e s rest) := by
  split_ifs
  · have hopen : (windowOf group).isEmpty = false := by
      rw [← Bool.not_eq_true,windowOf_isEmpty]
      exact hgroup
    have hemit := h.emit index ((groupsFrom R.params [] segments).map windowOf) hopen
    cases hstep : R.emit e (windowOf group) s with
    | error stop =>
      rw [hstep] at hemit
      exact hemit
    | ok r =>
      obtain ⟨e₂,s₂⟩ := r
      rw [hstep] at hemit
      obtain ⟨more,behind,hmoved,hdone,hhalted⟩ := hemit
      exact (hlater [] _ _ _ _ hmoved).imp hdone hhalted
  · exact hlater group _ _ _ _ h

theorem chunkLoop_ends {group : List Segment} {rest : List (Except StreamError Segment)}
    {drafts : List Draft} {offset : Nat} {e : ChunkEmitter} {s : BoundedStream}
    (h : Moved R reader budget drafts offset (e,s)) (hrest : ∀ x ∈ rest, x ∈ index) :
    Ends
      (Done R reader budget drafts offset
        ((groupsFrom R.params group (yielded rest)).map windowOf))
      (Halted R reader budget index drafts offset
        ((groupsFrom R.params group (yielded rest)).map windowOf))
      (R.chunkLoop (windowOf group) e s rest) := by
  induction rest generalizing group drafts offset e s with
  | nil =>
    rw [chunkLoop,yielded,groupsFrom]
    split_ifs with hnil
    · rw [ChunkRun.emit,if_pos (windowOf_isEmpty.mpr hnil)]
      refine ⟨⟨offset,?_⟩,?_,?_⟩
      · simpa [draftsFrom,placed] using h
      · simp [Fitting,placed]
      · simp
    · have hopen : (windowOf group).isEmpty = false := by
        rw [← Bool.not_eq_true,windowOf_isEmpty]
        exact hnil
      refine (h.emit index [] hopen).imp ?_ ?_
      · rintro r ⟨more,behind,hmoved,hdone,-⟩
        refine hdone r ⟨⟨behind,?_⟩,?_,?_⟩
        · simpa [draftsFrom,placed] using hmoved
        · simp [Fitting,placed]
        · simp
      · intro stop hstop
        exact hstop
  | cons x rest ih =>
    cases x with
    | error error =>
      rw [chunkLoop]
      intro _
      have hmem := hrest _ mem_cons_self
      exact h.emits.stopped (Or.inr ⟨fun _ => ⟨error,hmem,rfl⟩,.index error hmem⟩)
    | ok segment =>
      have hlater := fun group drafts offset e s (h : Moved R reader budget drafts offset (e,s)) =>
        @ih group drafts offset e s h fun x hx => hrest x (mem_cons_of_mem _ hx)
      have hjoined : joined R.params group segment ≠ [] := by simp [joined]
      have hpush : (if (windowOf group).wouldClose segment R.params then Window.empty
          else windowOf group).push segment = windowOf (joined R.params group segment) := by
        rw [joined,windowOf_snoc]
        split_ifs
        · rfl
        · rfl
      rw [chunkLoop,yielded,groupsFrom,hpush]
      generalize joined R.params group segment = group' at hjoined ⊢
      by_cases hclose : (windowOf group).wouldClose segment R.params = true
      · have hopen : (windowOf group).isEmpty = false := by
          rw [← Bool.not_eq_true,windowOf_isEmpty]
          exact wouldClose_ne_nil hclose
        rw [if_pos hclose,if_pos hclose,map_append]
        generalize hwindows : (if R.params.boundary = .perSegment ∨
            (windowOf group').exceedsMax R.params then
          group' :: groupsFrom R.params [] (yielded rest)
        else groupsFrom R.params group' (yielded rest)).map windowOf = windows
        have hemit := h.emit index windows hopen
        cases hstep : R.emit e (windowOf group) s with
        | error stop =>
          rw [hstep] at hemit
          exact hemit
        | ok r =>
          obtain ⟨e₂,s₂⟩ := r
          rw [hstep] at hemit
          obtain ⟨more,behind,hmoved,hdone,hhalted⟩ := hemit
          have hgrown := grown_ends hjoined hmoved hlater
          rw [hwindows] at hgrown
          exact hgrown.imp hdone hhalted
      · rw [if_neg hclose,if_neg hclose,nil_append]
        exact grown_ends hjoined h hlater

def emitted : Except (ChunkStop × ChunkEmitter) Product → List ChunkFact
  | .ok product => product.committed.flatMap (·.2)
  | .error stop => stop.2.logged

variable (R reader index) in
/-- A product is all drafts of the text, within the limits. -/
structure Written (product : Product) : Prop where
  facts : product.committed.flatMap (·.2) =
    R.factsOf reader.rest (draftsOf R.params reader.rest (yielded index))
  few : (draftsOf R.params reader.rest (yielded index)).length ≤ chunkCountMax
  fitting : Fitting R.params reader.rest.length 0 ((groupsOf R.params (yielded index)).map windowOf)
  sized : ∀ w ∈ (groupsOf R.params (yielded index)).map windowOf,
    w.byteLen = 0 ∨ 0 < R.params.bytesMax

variable (R reader budget index) in
theorem chunkEvidence_ends :
    Ends (Written R reader index)
      (fun stop =>
        Fitting R.params reader.rest.length 0 ((groupsOf R.params (yielded index)).map windowOf) →
          Stopped R reader budget index (draftsOf R.params reader.rest (yielded index)) stop)
      (R.chunkEvidence index reader budget) := by
  have hstart : Moved R reader budget [] 0 (.new,.new reader budget) := by
    refine ⟨⟨rfl,rfl,rfl,Nat.zero_le _,?_⟩,⟨?_,rfl,rfl,fun h => h⟩,rfl⟩
    · exact Nat.zero_lt_succ _
    · exact BoundedStream.new_sound reader budget
  have hloop := @chunkLoop_ends R reader budget index [] index [] 0 _ _ hstart fun x hx => hx
  have hempty : windowOf [] = Window.empty := rfl
  rw [hempty] at hloop
  unfold chunkEvidence
  cases hrun : R.chunkLoop .empty .new (.new reader budget) index with
  | error stop =>
    rw [hrun] at hloop
    exact hloop
  | ok r =>
    obtain ⟨e,s⟩ := r
    rw [hrun] at hloop
    obtain ⟨⟨stop,hmoved⟩,hfitting,hsized⟩ := hloop
    have he : Emits R reader (draftsOf R.params reader.rest (yielded index)) e := hmoved.emits
    have hflush := flush_ends (R := R) (Nat.le_of_lt he.room)
    dsimp only
    cases hend : R.flush e with
    | error stop =>
      rw [hend] at hflush
      obtain ⟨hlogged,n,error,hstop,happend⟩ := hflush
      intro _
      refine ⟨?_,?_,hstop ▸ cause_log happend error⟩
      · rw [hlogged,← he.facts]
        exact prefix_append _ _
      · rw [hlogged]
        exact he.few
    | ok e₂ =>
      rw [hend] at hflush
      exact ⟨hflush.1.trans he.facts,he.bounded,hfitting,hsized⟩

end ChunkRun
end ProjectOS.Ingest
