import ProjectOS.Lib.Trace
import ProjectOS.Ingest.Transcribe

/-! Recordings whose samples are numbered by their place in the stream: where
each window begins, and how long it is. -/

namespace ProjectOS.Ingest
open Lib Domain List
open Gateway (TranscriptSegment)

abbrev PacketSizes := List (Except AudioError Nat)

def numbered : Nat → PacketSizes → Packets Nat
  | _, [] => []
  | first, .ok count :: rest => .ok (List.range' first count) :: numbered (first+count) rest
  | first, .error e :: rest => .error e :: numbered first rest

def totalSamples : PacketSizes → Nat
  | [] => 0
  | .ok count :: rest => count+totalSamples rest
  | .error _ :: _ => 0

/-- The fewest packets that fill the window, or all there are. -/
structure Filled (window_samples first last : Nat) (sizes : PacketSizes) (counts : List Nat)
    (rest : PacketSizes) (ended : Bool) : Prop where
  sizes_eq : sizes = counts.map .ok ++ rest
  ended_eq : ended = true → rest = [] ∧ last+counts.sum < first+window_samples
  full : ended = false → first+window_samples ≤ last+counts.sum
  least : ∀ (counts' : List Nat) (rest' : PacketSizes), sizes = counts'.map .ok ++ rest' →
    first+window_samples ≤ last+counts'.sum → counts.sum ≤ counts'.sum

theorem fillWindow_numbered {window_samples first last : Nat} {sizes : PacketSizes}
    {packets : Packets Nat} {window : List Nat} {ended : Bool} (hle : first ≤ last)
    (h : fillWindow window_samples (numbered last sizes) (List.range' first (last-first)) =
      .ok (packets,window,ended)) :
    ∃ counts rest, Filled window_samples first last sizes counts rest ended ∧
      packets = numbered (last+counts.sum) rest ∧
      window = List.range' first (last+counts.sum-first) := by
  induction sizes generalizing last with
  | nil =>
    simp only [numbered,fillWindow,Except.ok.injEq,Prod.mk.injEq,length_range'] at h
    obtain ⟨rfl,rfl,rfl⟩ := h
    refine ⟨[],[],⟨rfl,?_,?_,fun _ _ _ _ => Nat.zero_le _⟩,rfl,rfl⟩
    · intro hended
      have := of_decide_eq_true hended
      exact ⟨rfl,by simp; omega⟩
    · intro hended
      have := of_decide_eq_false hended
      simp
      omega
  | cons size sizes ih =>
    by_cases hroom : last-first < window_samples
    · cases size with
      | error e =>
        rw [numbered,fillWindow,if_pos (by rwa [length_range'])] at h
        cases h
      | ok count =>
        rw [numbered,fillWindow,if_pos (by rwa [length_range'])] at h
        have hjoin : List.range' first (last-first) ++ List.range' last count =
            List.range' first (last+count-first) := by
          have happend := List.range'_append_1 (s := first) (m := last-first) (n := count)
          rwa [show first+(last-first) = last by omega,
            show last-first+count = last+count-first by omega] at happend
        rw [hjoin] at h
        obtain ⟨counts,rest,hfilled,hpackets,hwindow⟩ := ih (by omega) h
        refine ⟨count :: counts,rest,⟨?_,?_,?_,?_⟩,?_,?_⟩
        · rw [hfilled.sizes_eq]
          rfl
        · intro hended
          obtain ⟨hrest,hlt⟩ := hfilled.ended_eq hended
          exact ⟨hrest,by rw [sum_cons]; omega⟩
        · intro hended
          have := hfilled.full hended
          rw [sum_cons]
          omega
        · intro counts' rest' hsizes hfull
          cases counts' with
          | nil => rw [sum_nil] at hfull; omega
          | cons count' counts' =>
            rw [map_cons,cons_append,List.cons.injEq,Except.ok.injEq] at hsizes
            obtain ⟨rfl,hsizes⟩ := hsizes
            rw [sum_cons] at hfull ⊢
            have := hfilled.least counts' rest' hsizes (by omega)
            rw [sum_cons]
            omega
        · rw [hpackets,sum_cons,Nat.add_assoc]
        · rw [hwindow,sum_cons,Nat.add_assoc]
    · have hdone : fillWindow window_samples (numbered last (size :: sizes))
          (List.range' first (last-first)) =
            .ok (numbered last (size :: sizes),List.range' first (last-first),false) := by
        cases size <;> rw [numbered,fillWindow,if_neg (by rwa [length_range'])]
      rw [hdone] at h
      cases h
      refine ⟨[],size :: sizes,⟨rfl,nofun,?_,fun _ _ _ _ => Nat.zero_le _⟩,rfl,rfl⟩
      intro _
      rw [sum_nil]
      omega

theorem msForSamples_eq (samples : Nat) : msForSamples samples = samples/16 := by
  rw [msForSamples,Gateway.audioSampleRateHz]
  omega

theorem samplesForMs_eq {ms : Nat} (h : ms*16000 < 2^64) : samplesForMs ms = 16*ms := by
  rw [samplesForMs,Gateway.audioSampleRateHz,Nat.mod_eq_of_lt h]
  omega

def Short (samples : Nat) : Prop := samples*1000 < 2^64

theorem Short.mono {m n : Nat} (h : Short n) (hle : m ≤ n) : Short m :=
  (Nat.mul_le_mul_right 1000 hle).trans_lt h

theorem Short.lt {n : Nat} (h : Short n) : n < 2^64 := by
  rw [Short] at h
  omega

theorem samplesForMs_short {ms last : Nat} (h : 16*ms ≤ last) (hshort : Short last) :
    samplesForMs ms = 16*ms := by
  have hle : ms*16000 ≤ last*1000 := by omega
  exact samplesForMs_eq (hle.trans_lt hshort)

theorem windowSamples_eq (setup : TranscribeSetup) :
    samplesForMs setup.windowMsClamped = 16*setup.windowMsClamped ∧
      16000 ≤ samplesForMs setup.windowMsClamped ∧
        samplesForMs setup.windowMsClamped ≤ 1920000 := by
  have hle : setup.windowMsClamped ≤ 120000 := min_le_right _ _
  have hge : 1000 ≤ setup.windowMsClamped := le_min (le_max_right _ _) (by decide)
  rw [samplesForMs_eq (by omega)]
  omega

theorem totalSamples_behind (counts : List Nat) (rest : PacketSizes) :
    totalSamples (counts.map .ok ++ rest) = counts.sum+totalSamples rest := by
  induction counts with
  | nil => simp
  | cons count counts ih => simp [totalSamples,ih,Nat.add_assoc]

/-- The cursor holds the samples from `first` to `last`. -/
structure StandsAt (first last : Nat) (sizes : PacketSizes) (c : Cursor Nat) : Prop where
  le : first ≤ last
  window : c.window = List.range' first (last-first)
  packets : c.packets = numbered last sizes

theorem stands_start (sizes : PacketSizes) (resume : Nat × Nat) :
    StandsAt 0 0 sizes (Cursor.start (numbered 0 sizes) resume) := ⟨le_refl 0,rfl,rfl⟩

theorem StandsAt.length {first last : Nat} {sizes : PacketSizes} {c : Cursor Nat}
    (h : StandsAt first last sizes c) : c.window.length = last-first := by
  rw [h.window,length_range']

theorem drop_range' {first last n : Nat} :
    (List.range' first (last-first)).drop n = List.range' (first+n) (last-(first+n)) := by
  rw [List.drop_range',Nat.mul_one]
  congr 1
  omega

def WholePasses {α : Type} (setup : TranscribeSetup) (resume_from_ms : Nat) :
    Nat → Cursor α → Prop
  | 0, _ => True
  | fuel+1, c =>
    match fillWindow (samplesForMs setup.windowMsClamped) c.packets c.window with
    | .error _ => True
    | .ok (packets,window,ended) =>
      let filled : Cursor α := { c with packets := packets, window := window }
      filled.Passed resume_from_ms → ended = false →
        window.length % 16 = 0 ∧ WholePasses setup resume_from_ms fuel filled.pass

/-- The offset names the first sample of the window. -/
def OffsetTrue : TranscribeAct Nat → Prop
  | .transcribe _ _ offset_ms samples => samples.head? = some (16*offset_ms)
  | _ => True

def EndsWithin (offset_ms sample_count : Nat) (segments : List TranscriptSegment) : Prop :=
  (segments.getLast?.map TranscriptSegment.end_ms).getD offset_ms ≤
    offset_ms+msForSamples sample_count

def Timely (setup : TranscribeSetup) (fuel : Nat) (packets : Packets Nat) :
    (a : TranscribeAct Nat) → (transcribeIface Nat).Resp a → Prop
  | .readProgress _, .ok progress =>
    WholePasses setup (resumePoint progress).2 fuel (.start packets (resumePoint progress))
  | .transcribe _ _ offset_ms samples, .ok segments =>
    EndsWithin offset_ms samples.length segments
  | _, _ => True

theorem advanceMs_le {offset_ms sample_count : Nat} {segments : List TranscriptSegment}
    (h : EndsWithin offset_ms sample_count segments) (hlong : 16 ≤ sample_count) :
    1 ≤ advanceMs offset_ms sample_count segments ∧
      advanceMs offset_ms sample_count segments ≤ sample_count/16 := by
  rw [EndsWithin,msForSamples_eq] at h
  rw [advanceMs,msForSamples_eq,advanceFractionMin,boundaryOverlapMs]
  split <;> omega

section
variable {setup : TranscribeSetup} {key : PassKey} {resume_from_ms first last : Nat}
  {sizes : PacketSizes} {c : Cursor Nat}

variable {packets : Packets Nat} {ended : Bool}

theorem StandsAt.fill (h : StandsAt first last sizes c) {window_samples : Nat} {window : List Nat}
    (hfill : fillWindow window_samples c.packets c.window = .ok (packets,window,ended)) :
    ∃ counts rest, Filled window_samples first last sizes counts rest ended ∧
      StandsAt first (last+counts.sum) rest { c with packets := packets, window := window } := by
  rw [h.packets,h.window] at hfill
  obtain ⟨counts,rest,hfilled,hpackets,hwindow⟩ := fillWindow_numbered h.le hfill
  exact ⟨counts,rest,hfilled,Nat.le_add_right_of_le h.le,hwindow,hpackets⟩

def Cursor.Timed (first : Nat) (c : Cursor Nat) : Prop := first = 16*c.window_start_ms

section
variable (h : StandsAt first last sizes c)
include h

section
variable (hclock : c.Timed first)
include hclock

theorem passed_iff (hshort : Short last) :
    c.Passed resume_from_ms ↔ c.window_start_ms+(last-first)/16 ≤ resume_from_ms := by
  have hle := h.le
  have hlt := hshort.lt
  rw [Cursor.Timed] at hclock
  rw [Cursor.Passed,h.length,msForSamples_eq,Nat.mod_eq_of_lt (by omega)]

theorem StandsAt.pass
    (hshort : Short last) (hwhole : c.window.length % 16 = 0) :
    StandsAt last last sizes c.pass ∧ c.pass.Timed last := by
  refine ⟨⟨le_refl _,?_,h.packets⟩,?_⟩
  · rw [Nat.sub_self]
    rfl
  · have hle := h.le
    have hlt := hshort.lt
    rw [h.length] at hwhole
    rw [Cursor.Timed] at hclock ⊢
    simp only [Cursor.pass]
    rw [h.length,msForSamples_eq,satAdd64,u64Max]
    omega

theorem StandsAt.skipTo
    (hshort : Short last) (hnot : ¬ c.Passed resume_from_ms) :
    ∃ first', StandsAt first' last sizes (c.skipTo resume_from_ms) ∧
      (c.skipTo resume_from_ms).Timed first' ∧ first ≤ first' ∧
      resume_from_ms ≤ (c.skipTo resume_from_ms).window_start_ms ∧
      (first' = first ∨ first'+16 ≤ last) := by
  have hle := h.le
  rw [passed_iff h hclock hshort] at hnot
  rw [Cursor.Timed] at hclock
  rw [Cursor.skipTo]
  split
  · rename_i hbefore
    have hroom : 16*(resume_from_ms-c.window_start_ms)+16 ≤ last-first := by omega
    have hskip : samplesForMs (resume_from_ms-c.window_start_ms) =
        16*(resume_from_ms-c.window_start_ms) := samplesForMs_short (by omega) hshort
    refine ⟨first+16*(resume_from_ms-c.window_start_ms),⟨by omega,?_,h.packets⟩,?_,by omega,
      le_refl _,Or.inr (by omega)⟩
    · have hdrop : 16*(resume_from_ms-c.window_start_ms) ≤ last-first := by omega
      dsimp only
      rw [hskip,h.length,min_eq_left hdrop,h.window,drop_range']
    · rw [Cursor.Timed]
      dsimp only
      omega
  · exact ⟨first,h,hclock,le_refl _,by omega,Or.inl rfl⟩

theorem StandsAt.next
    (hshort : Short last) (hlong : first+16 ≤ last) {segments : List TranscriptSegment}
    (hends : EndsWithin c.window_start_ms c.window.length segments) (committed : Committed) :
    ∃ first', StandsAt first' last sizes (c.next segments committed) ∧
      (c.next segments committed).Timed first' ∧ first < first' := by
  have hadvance := advanceMs_le hends (by rw [h.length]; omega)
  rw [h.length] at hadvance
  have hle := h.le
  have hlt := hshort.lt
  rw [Cursor.Timed] at hclock
  have hconsumed : samplesForMs (advanceMs c.window_start_ms (last-first) segments) =
      16*advanceMs c.window_start_ms (last-first) segments :=
    samplesForMs_short (by omega) hshort
  refine ⟨first+16*advanceMs c.window_start_ms (last-first) segments,⟨by omega,?_,h.packets⟩,?_,
    by omega⟩
  · have hroom : 16*advanceMs c.window_start_ms (last-first) segments ≤ last-first := by omega
    simp only [Cursor.next]
    rw [h.length,hconsumed,min_eq_left hroom,h.window,drop_range']
  · rw [Cursor.Timed]
    simp only [Cursor.next]
    rw [h.length,satAdd64,u64Max]
    omega

end

end

theorem Filled.total {window_samples first last : Nat} {sizes rest : PacketSizes}
    {counts : List Nat} (h : Filled window_samples first last sizes counts rest ended) :
    last+totalSamples sizes = last+counts.sum+totalSamples rest := by
  rw [h.sizes_eq,totalSamples_behind,Nat.add_assoc]

theorem StandsAt.offsetTrue (h : StandsAt first last sizes c) (hclock : c.Timed first)
    (hsome : c.window.isEmpty = false) {model : String} {language : Option String} :
    OffsetTrue (.transcribe model language c.window_start_ms c.window) := by
  rw [h.window] at hsome
  rw [Cursor.Timed] at hclock
  rw [OffsetTrue,h.window,← hclock]
  cases hcount : last-first with
  | zero =>
    rw [hcount] at hsome
    cases hsome
  | succ count => rfl

theorem windowRound_guided {ok : TranscribeAct Nat → Prop}
    {good : (a : TranscribeAct Nat) → (transcribeIface Nat).Resp a → Prop}
    (happend : ∀ event, ok (.append event))
    (hcall : ok (.transcribe setup.model_name setup.language c.window_start_ms c.window))
    {f : List TranscriptSegment → Committed → TranscribeProg Nat (Cursor Nat)}
    (hf : ∀ segments committed,
      good (.transcribe setup.model_name setup.language c.window_start_ms c.window) (.ok segments) →
        (f segments committed).Guided good ok fun _ => True) :
    ((transcribeWindow setup c.window_start_ms c.window).bind fun segments =>
      (commitSegments key c.batch_index c.next_segment_index segments c.committed_to_ms).bind
        (f segments)).Guided good ok fun _ => True := by
  refine ⟨hcall,fun answer hgood => ?_⟩
  cases answer with
  | error weather => trivial
  | ok segments =>
    show Prog.Guided good ok _ ((commitSegments key c.batch_index c.next_segment_index segments
      c.committed_to_ms).bind (f segments))
    exact Prog.guided_bind (Prog.guided_within (commitSegments_within fun _ _ => happend _))
      fun committed _ => hf segments committed hgood

theorem transcribeLoop_timely {fuel whole : Nat}
    (h : StandsAt first last sizes c) (hclock : c.Timed first)
    (hshort : Short (last+totalSamples sizes))
    (hpasses : WholePasses setup resume_from_ms fuel c ∨ resume_from_ms < c.window_start_ms) :
    (transcribeLoop setup key resume_from_ms fuel c).Guided (Timely setup whole packets)
      OffsetTrue fun _ => True := by
  induction fuel generalizing first last sizes c with
  | zero => trivial
  | succ fuel ih =>
    rw [transcribeLoop]
    split
    · trivial
    · rename_i packets' window ended hfill
      obtain ⟨counts,rest,hfilled,hstands⟩ := h.fill hfill
      rw [hfilled.total] at hshort
      have hshort' : Short (last+counts.sum) := hshort.mono (Nat.le_add_right _ _)
      have hfull : ended = false → first+16000 ≤ last+counts.sum := by
        intro hended
        have := hfilled.full hended
        have := (windowSamples_eq setup).2.1
        omega
      have hpass : ({ c with packets := packets', window := window } : Cursor Nat).Passed
          resume_from_ms → ended = false →
            ({ c with packets := packets', window := window } : Cursor Nat).window.length % 16 = 0 ∧
            WholePasses setup resume_from_ms fuel
              ({ c with packets := packets', window := window } : Cursor Nat).pass := by
        intro hpassed
        rcases hpasses with hpasses | hlate
        · rw [WholePasses,hfill] at hpasses
          exact hpasses hpassed
        · rw [passed_iff hstands hclock hshort'] at hpassed
          dsimp only at hpassed
          omega
      have hclock' : ({ c with packets := packets', window := window } : Cursor Nat).Timed first :=
        hclock
      dsimp only
      generalize ({ c with packets := packets', window := window } : Cursor Nat) = filled
        at hstands hpass hclock'
      split_ifs with hpassed hended hempty hended
      · trivial
      · have hgo := hpass hpassed (Bool.eq_false_of_not_eq_true hended)
        obtain ⟨hstands',hclock''⟩ := hstands.pass hclock' hshort' hgo.1
        exact ih hstands' hclock'' hshort (Or.inl hgo.2)
      · trivial
      · obtain ⟨first',hready,htimed,hfirst,hresume,hlong⟩ :=
          hstands.skipTo hclock' hshort' hpassed
        have hcall := @StandsAt.offsetTrue _ _ _ _ hready htimed (Bool.eq_false_of_not_eq_true hempty)
        exact windowRound_guided (fun _ => trivial) hcall fun _ _ _ => trivial
      · obtain ⟨first',hready,htimed,hfirst,hresume,hlong⟩ :=
          hstands.skipTo hclock' hshort' hpassed
        have hcall := @StandsAt.offsetTrue _ _ _ _ hready htimed (Bool.eq_false_of_not_eq_true hempty)
        refine windowRound_guided (fun _ => trivial) hcall fun segments committed hgood => ?_
        have := hfull (Bool.eq_false_of_not_eq_true hended)
        obtain ⟨first'',hnext,htimed',hlt⟩ :=
          hready.next htimed hshort' (by omega) hgood committed
        refine ih hnext htimed' hshort (Or.inr ?_)
        rw [Cursor.Timed] at htimed htimed'
        omega

end

/-- As long as whole milliseconds are passed over and the model's segments end
in their windows, every window is handed over with its true media time. -/
theorem offsets_true {σ ι : Type} (key : PassKey) (setup : TranscribeSetup) (sizes : PacketSizes)
    (fuel : Nat) (hshort : Short (totalSamples sizes)) (M : Machine (transcribeIface Nat) ι σ)
    (env : Nat → ι) (n : Nat) (s : σ) :
    Prog.AsLongAs (Timely setup fuel (numbered 0 sizes)) OffsetTrue
      ((transcribeItem ⟨key,setup,.ok (numbered 0 sizes),fuel⟩).trace M env n s) := by
  have hguided : (transcribeItem ⟨key,setup,.ok (numbered 0 sizes),fuel⟩).Guided
      (Timely setup fuel (numbered 0 sizes)) OffsetTrue fun _ => True := by
    refine ⟨trivial,fun answer hgood => ?_⟩
    cases answer with
    | error fault => trivial
    | ok progress =>
      refine Prog.guided_bind (transcribeLoop_timely (stands_start sizes _) rfl
        (by rwa [Nat.zero_add]) (Or.inl hgood)) fun c _ => ?_
      exact Prog.guided_within (writeTranscript_within (fun _ => trivial) (fun _ => trivial)
        fun _ => trivial)
  exact Prog.trace_guided M env hguided n s

/-- Three seconds of a note, in packets of a second. -/
theorem note_offsets_true :
    Short (totalSamples [.ok 16000,.ok 16000,.ok 16000]) ∧
    Prog.AsLongAs (Timely ⟨"whisper-small",none,1000⟩ 9 (numbered 0 [.ok 16000,.ok 16000,.ok 16000]))
      OffsetTrue ((transcribeItem ⟨⟨⟨7⟩,0⟩,⟨"whisper-small",none,1000⟩,
        .ok (numbered 0 [.ok 16000,.ok 16000,.ok 16000]),9⟩).trace (transcribeMachine Nat)
          (fun _ => { answer := .ok [⟨0,900,"one",true⟩] }) 0 Transcripts.empty) := by
  have hshort : Short (totalSamples [.ok 16000,.ok 16000,.ok 16000]) := by
    rw [Short]
    decide
  exact ⟨hshort,offsets_true _ _ _ _ hshort _ _ _ _⟩

instance : DecidablePred OffsetTrue
  | .transcribe .. => inferInstanceAs (Decidable (_ = _))
  | .readProgress _
  | .append _
  | .listSegments ..
  | .writeText _
  | .writeSegments _ => isTrue trivial

def noteProgress : Transcripts :=
  Transcripts.empty.apply (transcribedEvent ⟨⟨7⟩,0⟩ 0 [⟨0,0,1500,true,"one"⟩])

/-- The clock loses half a millisecond of a packet passed over whole, and runs
ahead behind a window whose last segment ends beyond it. -/
theorem note_drifts :
    (¬ ∀ x ∈ (transcribeItem ⟨⟨⟨7⟩,0⟩,⟨"whisper-small",none,1000⟩,
      .ok (numbered 0 [.ok 16008,.ok 16000]),9⟩).trace (transcribeMachine Nat)
        (fun _ => {}) 0 noteProgress, OffsetTrue x.1) ∧
    ¬ ∀ x ∈ (transcribeItem ⟨⟨⟨7⟩,0⟩,⟨"whisper-small",none,1000⟩,
      .ok (numbered 0 [.ok 16000,.ok 16000,.ok 16000]),9⟩).trace (transcribeMachine Nat)
        (fun _ => { answer := .ok [⟨0,1500,"one",true⟩] }) 0 Transcripts.empty,
          OffsetTrue x.1 := by
  constructor
  · decide +kernel
  · decide +kernel

end ProjectOS.Ingest
