import ProjectOS.Ingest.Timeline

/-! How long the windows are that the model is handed. -/

namespace ProjectOS.Ingest
open Lib Domain List
open Gateway (TranscriptSegment checkBounds windowMsMax windowSampleCountMax)

def windowSampleCountMin : Nat := 1600

def Fits (sample_count : Nat) : Prop :=
  windowSampleCountMin ≤ sample_count ∧ sample_count ≤ windowSampleCountMax

theorem checkBounds_ok {sample_count : Nat} : checkBounds sample_count = .ok () ↔ Fits sample_count := by
  rw [checkBounds,Fits,windowSampleCountMin,Gateway.audioMs,windowSampleCountMax,
    Gateway.windowMsMin,Gateway.audioSampleRateHz]
  split_ifs <;> simp <;> omega

/-- A window the model takes. -/
def Admitted : TranscribeAct Nat → Prop
  | .transcribe _ _ _ samples => checkBounds samples.length = .ok ()
  | _ => True

/-- A window that begins at `first` can be cut: a packet ends where it is full, or
the recording ends in it, and not just behind its beginning unless it breaks off. -/
def Room (window_samples : Nat) (sizes : PacketSizes) (first : Nat) : Prop :=
  (∃ (counts : List Nat) (rest : PacketSizes), sizes = counts.map .ok ++ rest ∧
    first+window_samples ≤ counts.sum ∧ counts.sum ≤ first+windowSampleCountMax) ∨
  totalSamples sizes < first+window_samples ∧
    ((∃ e, .error e ∈ sizes) ∨ totalSamples sizes ≤ first ∨
      first+windowSampleCountMin ≤ totalSamples sizes)

def LandsWell {α : Type} (setup : TranscribeSetup) (resume_from_ms : Nat) :
    Nat → Cursor α → Prop
  | 0, _ => True
  | fuel+1, c =>
    match fillWindow (samplesForMs setup.windowMsClamped) c.packets c.window with
    | .error _ => True
    | .ok (packets,window,ended) =>
      let filled : Cursor α := { c with packets := packets, window := window }
      let skipped := samplesForMs (resume_from_ms-c.window_start_ms)
      if filled.Passed resume_from_ms then
        ended = false → LandsWell setup resume_from_ms fuel filled.pass
      else window.length ≤ skipped ∨ Fits (window.length-skipped)

def nextFirst (offset_ms : Nat) (samples : List Nat) (segments : List TranscriptSegment) : Nat :=
  samples.headD 0+min (samplesForMs (advanceMs offset_ms samples.length segments)) samples.length

def WellCut (setup : TranscribeSetup) (fuel : Nat) (sizes : PacketSizes) :
    (a : TranscribeAct Nat) → (transcribeIface Nat).Resp a → Prop
  | .readProgress _, .ok progress =>
    LandsWell setup (resumePoint progress).2 fuel (.start (numbered 0 sizes) (resumePoint progress))
  | .transcribe _ _ offset_ms samples, .ok segments =>
    Room (samplesForMs setup.windowMsClamped) sizes (nextFirst offset_ms samples segments) ∧
      offset_ms+advanceMs offset_ms samples.length segments+windowMsMax < 2^64
  | _, _ => True

theorem advanceMs_pos (window_start_ms sample_count : Nat) (segments : List TranscriptSegment) :
    1 ≤ advanceMs window_start_ms sample_count segments := le_max_right _ _

theorem boundary_cases {done counts : List Nat} {rest rest' : PacketSizes}
    (h : done.map Except.ok ++ rest = counts.map Except.ok ++ rest') :
    counts.sum ≤ done.sum ∨
      ∃ more : List Nat, rest = more.map .ok ++ rest' ∧ counts.sum = done.sum+more.sum := by
  induction done generalizing counts with
  | nil => exact Or.inr ⟨counts,h,by simp⟩
  | cons count done ih =>
    cases counts with
    | nil => exact Or.inl (by simp)
    | cons count' counts =>
      rw [map_cons,map_cons,cons_append,cons_append,List.cons.injEq,
        Except.ok.injEq] at h
      obtain ⟨rfl,h⟩ := h
      rw [sum_cons,sum_cons]
      rcases ih h with hle | ⟨more,hrest,hsum⟩
      · exact Or.inl (by omega)
      · exact Or.inr ⟨more,hrest,by omega⟩

section
variable {setup : TranscribeSetup} {key : PassKey} {resume_from_ms first last : Nat}
  {sizes all : PacketSizes} {done : List Nat} {c : Cursor Nat}

theorem Room.fill {counts : List Nat} {rest : PacketSizes} {ended : Bool} (setup : TranscribeSetup)
    (hroom : Room (samplesForMs setup.windowMsClamped) all first)
    (hall : all = done.map .ok ++ sizes) (hlast : done.sum = last) (hle : first ≤ last)
    (hcarry : last-first ≤ windowSampleCountMax)
    (hfilled : Filled (samplesForMs setup.windowMsClamped) first last sizes counts rest ended) :
    last+counts.sum-first ≤ windowSampleCountMax ∧
      (last+counts.sum ≤ first ∨ windowSampleCountMin ≤ last+counts.sum-first) := by
  have htotal : totalSamples all = last+counts.sum+totalSamples rest := by
    rw [hall,totalSamples_behind,hlast,hfilled.total]
  obtain ⟨_,hws,hws'⟩ := windowSamples_eq setup
  have hlongest : windowSampleCountMax = 1920000 := rfl
  have hleast : windowSampleCountMin = 1600 := rfl
  constructor
  · rcases hroom with ⟨counts',rest',hcut,hfull,hmax⟩ | ⟨htail,_⟩
    · rcases boundary_cases (hall.symm.trans hcut) with hbefore | ⟨more,hmore,hsum⟩
      · have hnone := hfilled.least [] sizes rfl (by rw [sum_nil]; omega)
        rw [sum_nil] at hnone
        omega
      · have := hfilled.least more rest' hmore (by omega)
        omega
    · omega
  · cases ended with
    | false =>
      have := hfilled.full rfl
      omega
    | true =>
      obtain ⟨rfl,hshort⟩ := hfilled.ended_eq rfl
      rw [totalSamples,Nat.add_zero] at htotal
      rcases hroom with ⟨counts',rest',hcut,hfull,_⟩ | ⟨_,hbroken | htail | htail⟩
      · rw [hcut,totalSamples_behind] at htotal
        omega
      · obtain ⟨e,he⟩ := hbroken
        rw [hall,hfilled.sizes_eq] at he
        simp at he
      · omega
      · omega

/-- Where the loop stands behind its first window: past the resume point, at a
place with room. -/
structure Going (setup : TranscribeSetup) (all : PacketSizes) (resume_from_ms first last : Nat)
    (c : Cursor Nat) : Prop where
  late : resume_from_ms < c.window_start_ms
  early : c.window_start_ms+windowMsMax < 2^64
  carry : last-first ≤ windowSampleCountMax
  room : Room (samplesForMs setup.windowMsClamped) all first

section
variable (h : StandsAt first last sizes c)
include h

theorem StandsAt.passed : StandsAt last last sizes c.pass := by
  refine ⟨le_refl _,?_,h.packets⟩
  rw [Nat.sub_self]
  rfl

theorem StandsAt.dropped {n : Nat} {c' : Cursor Nat}
    (hpackets : c'.packets = c.packets) (hwindow : c'.window = c.window.drop (min n c.window.length)) :
    StandsAt (first+min n (last-first)) last sizes c' := by
  have hle := h.le
  refine ⟨by omega,?_,hpackets.trans h.packets⟩
  rw [hwindow,h.length,h.window,drop_range']

theorem StandsAt.skipped :
    StandsAt (first+min (samplesForMs (resume_from_ms-c.window_start_ms)) (last-first)) last sizes
      (c.skipTo resume_from_ms) := by
  rw [Cursor.skipTo]
  split
  · exact h.dropped rfl rfl
  · rename_i hlate
    rw [Nat.sub_eq_zero_of_le (Nat.le_of_not_lt hlate)]
    exact h.dropped rfl (by simp [samplesForMs])

variable {language : Option String} {model : String}

theorem StandsAt.goes {fuel : Nat} {segments : List TranscriptSegment} (hsome : first < last)
    (hlong : last-first ≤ windowSampleCountMax) (hresume : resume_from_ms ≤ c.window_start_ms)
    (hgood : WellCut setup fuel all (.transcribe model language c.window_start_ms c.window)
      (.ok segments)) (committed : Committed) :
    ∃ first', StandsAt first' last sizes (c.next segments committed) ∧
      Going setup all resume_from_ms first' last (c.next segments committed) := by
  obtain ⟨hroom,hearly⟩ := hgood
  have hhead : c.window.headD 0 = first := by
    rw [h.window]
    cases hcount : last-first with
    | zero => omega
    | succ count => rfl
  have hpos := advanceMs_pos c.window_start_ms c.window.length segments
  have hstart : (c.next segments committed).window_start_ms =
      c.window_start_ms+advanceMs c.window_start_ms c.window.length segments :=
    min_eq_left (by rw [u64Max]; omega)
  rw [nextFirst,hhead,h.length] at hroom
  refine ⟨_,h.dropped rfl rfl,?_,?_,by omega,?_⟩
  · rw [hstart]
    omega
  · rw [hstart]
    exact hearly
  · rw [h.length]
    exact hroom

theorem StandsAt.some (hsome : ¬ c.window.isEmpty = true) :
    first < last := by
  have hle := h.le
  refine Nat.lt_of_le_of_ne hle fun hnone => hsome ?_
  rw [h.window,hnone,Nat.sub_self]
  rfl

theorem StandsAt.admitted (hfits : Fits (last-first)) :
    Admitted (.transcribe model language c.window_start_ms c.window) := by
  rw [Admitted,h.length]
  exact checkBounds_ok.mpr hfits

theorem filled_fits {fuel : Nat} {packets : Packets Nat} {window : List Nat} {ended : Bool}
    {counts : List Nat} {rest : PacketSizes}
    (hall : all = done.map .ok ++ sizes) (hlast : done.sum = last)
    (hfill : fillWindow (samplesForMs setup.windowMsClamped) c.packets c.window =
      .ok (packets,window,ended))
    (hfilled : Filled (samplesForMs setup.windowMsClamped) first last sizes counts rest ended)
    (hlength : window.length = last+counts.sum-first)
    (hstate : LandsWell setup resume_from_ms (fuel+1) c ∨
      Going setup all resume_from_ms first last c) :
    let filled : Cursor Nat := { c with packets := packets, window := window }
    (filled.Passed resume_from_ms → ended = false →
      LandsWell setup resume_from_ms fuel filled.pass) ∧
    (¬ filled.Passed resume_from_ms →
      window.length ≤ samplesForMs (resume_from_ms-c.window_start_ms) ∨
        Fits (window.length-samplesForMs (resume_from_ms-c.window_start_ms))) := by
  rcases hstate with hlands | hgoing
  · rw [LandsWell,hfill] at hlands
    dsimp only at hlands
    split at hlands
    · rename_i hpassed
      exact ⟨fun _ => hlands,fun hnot => absurd hpassed hnot⟩
    · rename_i hnot
      exact ⟨fun hpassed => absurd hpassed hnot,fun _ => hlands⟩
  · obtain ⟨hlong,hshort⟩ := hgoing.room.fill setup hall hlast h.le hgoing.carry hfilled
    have hlate := hgoing.late
    have hearly := hgoing.early
    have hlongest : windowSampleCountMax = 1920000 := rfl
    have hms : windowMsMax = 120000 := rfl
    have hnot : ¬ ({ c with packets := packets, window := window } : Cursor Nat).Passed
        resume_from_ms := by
      rw [Cursor.Passed,msForSamples_eq]
      dsimp only
      rw [Nat.mod_eq_of_lt (by omega)]
      omega
    have hskip : samplesForMs (resume_from_ms-c.window_start_ms) = 0 := by
      rw [Nat.sub_eq_zero_of_le (Nat.le_of_lt hlate)]
      rfl
    refine ⟨fun hpassed => absurd hpassed hnot,fun _ => ?_⟩
    rw [hskip,Nat.sub_zero,hlength]
    rcases hshort with hnone | hshort
    · exact Or.inl (by omega)
    · exact Or.inr ⟨hshort,hlong⟩

theorem transcribeLoop_bounded {fuel whole : Nat}
    (hall : all = done.map .ok ++ sizes) (hlast : done.sum = last)
    (hstate : LandsWell setup resume_from_ms fuel c ∨ Going setup all resume_from_ms first last c) :
    (transcribeLoop setup key resume_from_ms fuel c).Guided (WellCut setup whole all) Admitted
      fun _ => True := by
  induction fuel generalizing first last sizes done c with
  | zero => trivial
  | succ fuel ih =>
    rw [transcribeLoop]
    split
    · trivial
    · rename_i packets window ended hfill
      obtain ⟨counts,rest,hfilled,hstands⟩ := h.fill hfill
      have hall' : all = (done ++ counts).map .ok ++ rest := by
        rw [hall,hfilled.sizes_eq,map_append,append_assoc]
      have hlast' : (done ++ counts).sum = last+counts.sum := by
        rw [sum_append,hlast]
      obtain ⟨hpass,hfits⟩ := filled_fits h hall hlast hfill hfilled hstands.length hstate
      have hlength : window.length = last+counts.sum-first := hstands.length
      rw [hlength] at hfits
      have hready := @StandsAt.skipped resume_from_ms _ _ _ _ hstands
      have hresume : resume_from_ms ≤ (({ c with packets := packets, window := window } :
          Cursor Nat).skipTo resume_from_ms).window_start_ms := by
        rw [Cursor.skipTo]
        split
        · exact le_refl _
        · rename_i hlate
          exact Nat.le_of_not_lt hlate
      dsimp only at hpass hfits hready ⊢
      generalize ({ c with packets := packets, window := window } : Cursor Nat).skipTo
        resume_from_ms = ready at hready hresume
      have hcall : ¬ ({ c with packets := packets, window := window } : Cursor Nat).Passed
          resume_from_ms → ¬ ready.window.isEmpty = true → Fits (last+counts.sum-
            (first+min (samplesForMs (resume_from_ms-c.window_start_ms))
              (last+counts.sum-first))) := by
        intro hpassed hempty
        have hsome := hready.some hempty
        rcases hfits hpassed with hnone | hfits
        · omega
        · rwa [← Nat.sub_sub,min_eq_left (by omega)]
      split_ifs with hpassed hended hempty hended
      · trivial
      · exact ih hstands.passed hall' hlast'
          (Or.inl (hpass hpassed (Bool.eq_false_of_not_eq_true hended)))
      · trivial
      · exact windowRound_guided (fun _ => trivial) (hready.admitted (hcall hpassed hempty))
          fun _ _ _ => trivial
      · have hwindow := hcall hpassed hempty
        refine windowRound_guided (fun _ => trivial) (hready.admitted hwindow)
          fun segments committed hgood => ?_
        obtain ⟨first',hnext,hgoing⟩ :=
          hready.goes (hready.some hempty) hwindow.2 hresume hgood committed
        exact ih hnext hall' hlast' (Or.inr hgoing)

end

end

/-- As long as the windows are cut well, no adapter turns one down. -/
theorem windows_admitted {σ ι : Type} (key : PassKey) (setup : TranscribeSetup)
    (sizes : PacketSizes) (fuel : Nat) (M : Machine (transcribeIface Nat) ι σ) (env : Nat → ι)
    (n : Nat) (s : σ) :
    Prog.AsLongAs (WellCut setup fuel sizes) Admitted
      ((transcribeItem ⟨key,setup,.ok (numbered 0 sizes),fuel⟩).trace M env n s) := by
  have hguided : (transcribeItem ⟨key,setup,.ok (numbered 0 sizes),fuel⟩).Guided
      (WellCut setup fuel sizes) Admitted fun _ => True := by
    refine ⟨trivial,fun answer hgood => ?_⟩
    cases answer with
    | error fault => trivial
    | ok progress =>
      have hall : sizes = ([] : List Nat).map .ok ++ sizes := rfl
      refine Prog.guided_bind (transcribeLoop_bounded (stands_start sizes _) hall rfl
        (Or.inl hgood)) fun c _ => ?_
      exact Prog.guided_within (writeTranscript_within (fun _ => trivial) (fun _ => trivial)
        fun _ => trivial)
  exact Prog.trace_guided M env hguided n s

instance : DecidablePred Admitted
  | .transcribe .. => inferInstanceAs (Decidable (_ = _))
  | .readProgress _
  | .append _
  | .listSegments ..
  | .writeText _
  | .writeSegments _ => isTrue trivial

/-- A recording that ends fifty milliseconds behind its first window. What is
left of it is turned down for good. -/
theorem note_turned_down :
    (¬ ∀ x ∈ (transcribeItem ⟨⟨⟨7⟩,0⟩,⟨"whisper-small",none,1000⟩,
      .ok (numbered 0 [.ok 16000,.ok 800]),9⟩).trace (transcribeMachine Nat)
        (fun _ => { answer := .ok [⟨0,1000,"one",true⟩] }) 0 Transcripts.empty, Admitted x.1) ∧
    Gateway.checkBounds 800 = .error (.invalidRequest
      "a 50 ms window is below the 100 ms floor for a model call") ∧
    (stageFailureForWeather (.invalidRequest "a 50 ms window")).permanent = true := by
  refine ⟨?_,?_,rfl⟩
  · decide +kernel
  · decide +kernel

end ProjectOS.Ingest
