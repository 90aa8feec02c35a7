import Mathlib.Data.Rat.Floor
import Mathlib.Algebra.Order.Floor.Semifield
import ProjectOS.Gateway.Wire

/-! The streaming resampler to 16 kHz mono. Between packets it holds as much of the
stream as the next samples need, and what it puts out does not depend on where packets
end. Positions are exact and the weights of the kernel are any. -/

namespace ProjectOS.Ingest
open List
open Gateway (audioSampleRateHz)

def resampleHalfTaps : Nat := 32

section
variable {K : Type}

def taps (history : List K) (center : ℚ) : List (ℚ × Option K) :=
  (List.range (2*resampleHalfTaps)).map fun i : Nat =>
    let offset : ℤ := ⌊center⌋-resampleHalfTaps+1+i
    (center-offset,if offset < 0 then none else history[offset.toNat]?)

variable [Field K] [LinearOrder K]

def addTap (weight : ℚ → K) (sums : K × K) (tap : ℚ × Option K) : K × K :=
  (tap.2.elim sums.1 fun sample => sums.1+sample*weight tap.1,sums.2+weight tap.1)

def sampleAt (weight : ℚ → K) (history : List K) (center : ℚ) : K :=
  let sums := (taps history center).foldl (addTap weight) (0,0)
  if |sums.2| < 1/2^52 then 0 else max (-1) (min 1 (sums.1/sums.2))

structure Resampler (K : Type) where
  ratio : ℚ
  position : ℚ
  history : List K
  passthrough : Bool

def Resampler.atRatio (ratio : ℚ) : Resampler K where
  ratio := ratio
  position := 0
  history := []
  passthrough := decide (ratio = 1)

def Resampler.new (source_rate_hz : Nat) : Resampler K where
  ratio := source_rate_hz/audioSampleRateHz
  position := 0
  history := []
  passthrough := decide (source_rate_hz = audioSampleRateHz)

def chunksExact (chunk_size : Nat) (samples : List K) : List (List K) :=
  (List.range (samples.length/chunk_size)).map fun i =>
    (samples.drop (i*chunk_size)).take chunk_size

def mono (channel_count : Nat) (interleaved : List K) : List K :=
  if channel_count ≤ 1 then interleaved
  else (chunksExact channel_count interleaved).map fun frame =>
    (frame.foldl (· + ·) 0)*(1/channel_count)

/-- The positions one call puts samples out at, each `margin` before the end of the
samples, and the position behind them. -/
def emitLoop (ratio length margin : ℚ) : Nat → ℚ → List ℚ × ℚ
  | 0, position => ([],position)
  | fuel+1, position =>
    if length ≤ position+margin then ([],position)
    else
      let rest := emitLoop ratio length margin fuel (position+ratio)
      (position :: rest.1,rest.2)

namespace Resampler

def margin (draining : Bool) : ℚ := if draining then 0 else resampleHalfTaps

def turns (r : Resampler K) (draining : Bool) : Nat :=
  ⌈(r.history.length-margin draining-r.position)/r.ratio⌉₊

def centers (r : Resampler K) (draining : Bool) : List ℚ × ℚ :=
  emitLoop r.ratio r.history.length (margin draining) (r.turns draining) r.position

def drop (r : Resampler K) (position : ℚ) : Resampler K :=
  let keep_from := max ⌊position-resampleHalfTaps⌋ 0
  let drop_count := min keep_from.toNat r.history.length
  { r with history := r.history.drop drop_count, position := position-drop_count }

def emit (weight : ℚ → K) (r : Resampler K) (draining : Bool) : List K × Resampler K :=
  ((r.centers draining).1.map (sampleAt weight r.history),r.drop (r.centers draining).2)

def extend (r : Resampler K) (channel_count : Nat) (interleaved : List K) : Resampler K :=
  { r with history := r.history ++ mono channel_count interleaved }

def pushInterleaved (weight : ℚ → K) (r : Resampler K) (channel_count : Nat)
    (interleaved : List K) : List K × Resampler K :=
  if r.passthrough then (mono channel_count interleaved,r)
  else (r.extend channel_count interleaved).emit weight false

def flush (weight : ℚ → K) (r : Resampler K) : List K × Resampler K :=
  if r.passthrough then ([],r)
  else
    let drained := r.emit weight true
    (drained.1,{ drained.2 with history := [] })

def pushAll (weight : ℚ → K) (channel_count : Nat) (r : Resampler K) (packets : List (List K)) :
    List K × Resampler K :=
  packets.foldl (fun s packet =>
    let pushed := s.2.pushInterleaved weight channel_count packet
    (s.1 ++ pushed.1,pushed.2)) ([],r)

def resample (weight : ℚ → K) (channel_count : Nat) (r : Resampler K) (packets : List (List K)) :
    List K :=
  let pushed := r.pushAll weight channel_count packets
  pushed.1 ++ (pushed.2.flush weight).1

end Resampler
theorem emitLoop_eq {ratio length margin : ℚ} {fuel n : Nat} {position : ℚ} (hn : n ≤ fuel)
    (hbelow : ∀ i < n, position+i*ratio+margin < length)
    (hstop : length ≤ position+n*ratio+margin) :
    emitLoop ratio length margin fuel position =
      ((List.range n).map fun i : Nat => position+i*ratio,position+n*ratio) := by
  induction n generalizing fuel position with
  | zero =>
    have hend : length ≤ position+margin := by simpa using hstop
    cases fuel with
    | zero => simp [emitLoop]
    | succ fuel => simp [emitLoop,hend]
  | succ n ih =>
    cases fuel with
    | zero => exact absurd hn (Nat.not_succ_le_zero n)
    | succ fuel =>
      have hhead : ¬ length ≤ position+margin := by
        have hzero := hbelow 0 (Nat.succ_pos n)
        simpa using hzero
      have hbelow' : ∀ i < n, position+ratio+i*ratio+margin < length := by
        intro i hi
        have hnext := hbelow (i+1) (Nat.succ_lt_succ hi)
        push_cast at hnext
        linarith
      have hstop' : length ≤ position+ratio+n*ratio+margin := by
        push_cast at hstop
        linarith
      have hrest := ih (Nat.le_of_succ_le_succ hn) hbelow' hstop'
      rw [emitLoop,if_neg hhead,hrest,range_succ_eq_map,map_cons,map_map]
      refine Prod.ext ?_ ?_
      · refine cons_eq_cons.mpr ⟨by simp,map_congr_left fun i _ => ?_⟩
        simp only [Function.comp_apply]
        push_cast
        ring
      · push_cast
        ring

def outputsReached (ratio margin : ℚ) (length : Nat) : Nat := ⌈((length : ℚ)-margin)/ratio⌉₊

theorem lt_outputsReached {ratio margin : ℚ} (hratio : 0 < ratio) {length k : Nat} :
    k < outputsReached ratio margin length ↔ k*ratio+margin < length := by
  rw [outputsReached,Nat.lt_ceil,lt_div_iff₀ hratio,lt_sub_iff_add_lt]

theorem reached_le {ratio margin : ℚ} (hratio : 0 < ratio) {length k : Nat} :
    outputsReached ratio margin length ≤ k ↔ (length : ℚ) ≤ k*ratio+margin := by
  rw [← not_lt,lt_outputsReached hratio,not_lt]

theorem reached_end {ratio : ℚ} (hratio : 0 < ratio) (margin : ℚ) (length : Nat) :
    (length : ℚ) ≤ outputsReached ratio margin length*ratio+margin :=
  (reached_le hratio).mp (le_refl _)

theorem reached_mono {ratio margin margin' : ℚ} (hratio : 0 < ratio) {length length' : Nat}
    (hmargin : margin' ≤ margin) (hlength : length ≤ length') :
    outputsReached ratio margin length ≤ outputsReached ratio margin' length' := by
  refine (reached_le hratio).mpr ?_
  have hend := reached_end hratio margin' length'
  have hcast : (length : ℚ) ≤ length' := by exact_mod_cast hlength
  linarith

omit [Field K] [LinearOrder K] in
theorem taps_drop {stream : List K} {dropped : Nat} {center : ℚ}
    (h : dropped = 0 ∨ dropped+resampleHalfTaps ≤ center) :
    taps (stream.drop dropped) (center-dropped) = taps stream center := by
  refine map_congr_left fun i _ => ?_
  have hfloor : dropped = 0 ∨ (dropped : ℤ)+resampleHalfTaps ≤ ⌊center⌋ := by
    refine h.imp_right fun hle => Int.le_floor.mpr ?_
    push_cast
    exact hle
  rw [Int.floor_sub_natCast]
  refine Prod.ext ?_ ?_
  · push_cast
    ring
  · dsimp only
    rcases hfloor with rfl | hfloor
    · simp
    · rw [if_neg (by omega),if_neg (by omega),List.getElem?_drop]
      congr 1
      omega

theorem floor_add_lt {center : ℚ} {n : Nat} (h : center+resampleHalfTaps < n) :
    ⌊center⌋+(resampleHalfTaps : ℤ) < n := by
  have hle := Int.floor_le center
  have hlt : ((⌊center⌋+(resampleHalfTaps : ℤ) : ℤ) : ℚ) < (n : ℤ) := by
    push_cast
    linarith
  exact_mod_cast hlt

omit [Field K] [LinearOrder K] in
theorem taps_append {stream later : List K} {center : ℚ}
    (h : center+resampleHalfTaps < stream.length) :
    taps (stream ++ later) center = taps stream center := by
  refine map_congr_left fun i hi => ?_
  have hfloor := floor_add_lt h
  have hi' : i < 2*resampleHalfTaps := mem_range.mp hi
  refine Prod.ext rfl ?_
  dsimp only
  split
  · rfl
  · rw [List.getElem?_append_left (by omega)]

omit [Field K] [LinearOrder K] in
theorem taps_present {stream : List K} {center : ℚ}
    (h : center+resampleHalfTaps < stream.length) {tap : ℚ × Option K}
    (htap : tap ∈ taps stream center) (hnone : tap.2 = none) : center-tap.1 < 0 := by
  obtain ⟨i,hi,rfl⟩ := mem_map.mp htap
  have hfloor := floor_add_lt h
  have hi' : i < 2*resampleHalfTaps := mem_range.mp hi
  dsimp only at hnone
  split at hnone
  · rename_i hneg
    rw [sub_sub_cancel]
    exact_mod_cast hneg
  · rw [List.getElem?_eq_none_iff] at hnone
    omega

theorem sampleAt_congr (weight : ℚ → K) {history history' : List K} {center center' : ℚ}
    (h : taps history center = taps history' center') :
    sampleAt weight history center = sampleAt weight history' center' := by
  rw [sampleAt,sampleAt,h]

def samples (weight : ℚ → K) (ratio : ℚ) (stream : List K) (count : Nat) : List K :=
  (List.range count).map fun k : Nat => sampleAt weight stream (k*ratio)

theorem samples_append (weight : ℚ → K) {ratio : ℚ} (hratio : 0 < ratio) (stream later : List K) :
    samples weight ratio (stream ++ later) (outputsReached ratio resampleHalfTaps stream.length) =
      samples weight ratio stream (outputsReached ratio resampleHalfTaps stream.length) := by
  refine map_congr_left fun k hk => sampleAt_congr weight (taps_append ?_)
  exact (lt_outputsReached hratio).mp (mem_range.mp hk)

namespace Resampler

/-- The history is what the next outputs reach of the stream so far, and the
next output is the first that lies too close to its end. -/
structure Streaming (ratio : ℚ) (stream : List K) (dropped count : Nat) (r : Resampler K) :
    Prop where
  ratio_eq : r.ratio = ratio
  windowed : r.passthrough = false
  within : dropped ≤ stream.length
  history : r.history = stream.drop dropped
  position : dropped+r.position = count*ratio
  reach : dropped = 0 ∨ (resampleHalfTaps : ℚ) ≤ r.position

variable {ratio : ℚ} {stream : List K} {dropped count : Nat} {r : Resampler K}

omit [Field K] [LinearOrder K] in
theorem Streaming.turns_eq (h : Streaming ratio stream dropped count r) (hratio : 0 < ratio)
    (draining : Bool) :
    r.turns draining = outputsReached ratio (margin draining) stream.length-count := by
  have hlength : (r.history.length : ℚ) = stream.length-dropped := by
    rw [h.history,length_drop,Nat.cast_sub h.within]
  have hposition : r.position = count*ratio-dropped := by linarith [h.position]
  rw [turns,outputsReached,h.ratio_eq,← Nat.ceil_sub_natCast]
  congr 1
  rw [hlength,hposition]
  field_simp
  ring

omit [Field K] [LinearOrder K] in
theorem Streaming.centers_eq (h : Streaming ratio stream dropped count r) (hratio : 0 < ratio)
    (draining : Bool) (hcount : count ≤ outputsReached ratio (margin draining) stream.length) :
    r.centers draining =
      ((List.range (r.turns draining)).map fun i : Nat => ((count+i : Nat) : ℚ)*ratio-dropped,
        outputsReached ratio (margin draining) stream.length*ratio-dropped) := by
  have hlength : (r.history.length : ℚ) = stream.length-dropped := by
    rw [h.history,length_drop,Nat.cast_sub h.within]
  have hposition : r.position = count*ratio-dropped := by linarith [h.position]
  have hturns := h.turns_eq hratio draining
  have htotal : count+r.turns draining = outputsReached ratio (margin draining) stream.length := by omega
  have hat : ∀ i : Nat, r.position+i*r.ratio = ((count+i : Nat) : ℚ)*ratio-dropped := by
    intro i
    rw [hposition,h.ratio_eq]
    push_cast
    ring
  rw [centers,emitLoop_eq (le_refl _)]
  · rw [hat,htotal]
    simp only [hat]
  · intro i hi
    have hlt := (lt_outputsReached hratio).mp
      (show count+i < outputsReached ratio (margin draining) stream.length by omega)
    rw [hat,hlength]
    linarith
  · have hle := reached_end hratio (margin draining) stream.length
    rw [hat,hlength,htotal]
    linarith

omit [Field K] [LinearOrder K] in
theorem Streaming.reach_later (h : Streaming ratio stream dropped count r) (hratio : 0 < ratio)
    (i : Nat) : dropped = 0 ∨ dropped+(resampleHalfTaps : ℚ) ≤ ((count+i : Nat) : ℚ)*ratio := by
  refine h.reach.imp_right fun hle => ?_
  have hmore : 0 ≤ (i : ℚ)*ratio := mul_nonneg (Nat.cast_nonneg i) hratio.le
  have hposition := h.position
  push_cast
  linarith

theorem Streaming.emit_samples (weight : ℚ → K) (h : Streaming ratio stream dropped count r)
    (hratio : 0 < ratio) (draining : Bool)
    (hcount : count ≤ outputsReached ratio (margin draining) stream.length) :
    samples weight ratio stream count ++ (r.emit weight draining).1 =
      samples weight ratio stream (outputsReached ratio (margin draining) stream.length) := by
  have hturns := h.turns_eq hratio draining
  have htotal : outputsReached ratio (margin draining) stream.length = count+r.turns draining := by omega
  rw [emit,h.centers_eq hratio draining hcount,map_map,h.history,htotal,samples,samples,
    range_add,map_append,map_map]
  refine congrArg _ (map_congr_left fun i _ => ?_)
  exact sampleAt_congr weight (taps_drop (h.reach_later hratio i))

variable (weight : ℚ → K)

theorem Streaming.emit_streaming (h : Streaming ratio stream dropped count r) (hratio : 0 < ratio)
    (draining : Bool) (hcount : count ≤ outputsReached ratio (margin draining) stream.length) :
    ∃ dropped', Streaming ratio stream dropped' (outputsReached ratio (margin draining) stream.length)
      (r.emit weight draining).2 := by
  have hlast : (r.centers draining).2 =
      outputsReached ratio (margin draining) stream.length*ratio-dropped := by
    rw [h.centers_eq hratio draining hcount]
  have hpast : (count : ℚ)*ratio ≤ outputsReached ratio (margin draining) stream.length*ratio :=
    mul_le_mul_of_nonneg_right (by exact_mod_cast hcount) hratio.le
  generalize hdrop : min (max ⌊(r.centers draining).2-resampleHalfTaps⌋ 0).toNat
    r.history.length = drop_count
  have hlength : r.history.length = stream.length-dropped := by rw [h.history,length_drop]
  refine ⟨dropped+drop_count,h.ratio_eq,h.windowed,?_,?_,?_,?_⟩
  · have := h.within
    omega
  · rw [emit,drop,hdrop,h.history,drop_drop]
  · rw [emit,drop,hdrop,hlast]
    push_cast
    ring
  · rcases Nat.eq_zero_or_pos drop_count with hzero | hpos
    · refine h.reach.imp (fun hd => by omega) fun hle => ?_
      rw [emit,drop,hdrop,hlast,hzero,Nat.cast_zero,sub_zero]
      linarith [h.position]
    · refine Or.inr ?_
      have hfloor : (drop_count : ℤ) ≤ ⌊(r.centers draining).2-resampleHalfTaps⌋ := by omega
      have hkeep := Int.le_floor.mp hfloor
      push_cast at hkeep
      rw [emit,drop,hdrop]
      dsimp only
      linarith

omit [Field K] [LinearOrder K] in
theorem emit_history_le (h : Streaming ratio stream dropped count r)
    (hratio : 0 < ratio) (hcount : count ≤ outputsReached ratio (margin false) stream.length) :
    (r.drop (r.centers false).2).history.length ≤ 2*resampleHalfTaps := by
  have hlength : (r.history.length : ℚ) = stream.length-dropped := by
    rw [h.history,length_drop,Nat.cast_sub h.within]
  have hend := reached_end hratio (margin false) stream.length
  have hnear : (r.history.length : ℚ) ≤ (r.centers false).2+resampleHalfTaps := by
    rw [h.centers_eq hratio false hcount,hlength]
    have hmargin : margin false = resampleHalfTaps := rfl
    rw [hmargin] at hend ⊢
    linarith
  have hfloor := Int.lt_floor_add_one ((r.centers false).2-resampleHalfTaps)
  have hbound : (r.history.length : ℤ) <
      ⌊(r.centers false).2-resampleHalfTaps⌋+1+2*resampleHalfTaps := by
    have hcast : (r.history.length : ℚ) <
        ((⌊(r.centers false).2-resampleHalfTaps⌋+1+2*resampleHalfTaps : ℤ) : ℚ) := by
      push_cast
      linarith
    exact_mod_cast hcast
  rw [drop,length_drop]
  omega

/-- All outputs are out whose taps are there, and the history is no longer than the
taps of one. -/
structure Ready (ratio : ℚ) (stream : List K) (r : Resampler K) : Prop where
  streaming : ∃ dropped,
    Streaming ratio stream dropped (outputsReached ratio resampleHalfTaps stream.length) r
  bounded : r.history.length ≤ 2*resampleHalfTaps

omit [LinearOrder K] in
theorem Streaming.extend (h : Streaming ratio stream dropped count r) (channel_count : Nat)
    (packet : List K) :
    Streaming ratio (stream ++ mono channel_count packet) dropped count
      (r.extend channel_count packet) where
  ratio_eq := h.ratio_eq
  windowed := h.windowed
  within := by
    have := h.within
    rw [length_append]
    omega
  history := by rw [Resampler.extend,h.history,drop_append_of_le_length h.within]
  position := h.position
  reach := h.reach

theorem Ready.push (weight : ℚ → K) (h : Ready ratio stream r) (hratio : 0 < ratio)
    (channel_count : Nat) (packet : List K) :
    samples weight ratio stream (outputsReached ratio resampleHalfTaps stream.length) ++
        (r.pushInterleaved weight channel_count packet).1 =
      samples weight ratio (stream ++ mono channel_count packet)
        (outputsReached ratio resampleHalfTaps (stream ++ mono channel_count packet).length) ∧
    Ready ratio (stream ++ mono channel_count packet)
      (r.pushInterleaved weight channel_count packet).2 := by
  obtain ⟨⟨dropped,hstream⟩,_⟩ := h
  have hnext := hstream.extend channel_count packet
  have hcount : outputsReached ratio resampleHalfTaps stream.length ≤
      outputsReached ratio (margin false) (stream ++ mono channel_count packet).length :=
    reached_mono hratio (le_refl _) (by rw [length_append]; omega)
  rw [pushInterleaved,if_neg (by rw [hstream.windowed]; exact Bool.false_ne_true),
    ← samples_append weight hratio stream (mono channel_count packet)]
  exact ⟨hnext.emit_samples weight hratio false hcount,
    hnext.emit_streaming weight hratio false hcount,emit_history_le hnext hratio hcount⟩

omit [Field K] [LinearOrder K] in
theorem chunksExact_append {chunk_size : Nat} {a : List K} (h : chunk_size ∣ a.length)
    (b : List K) :
    chunksExact chunk_size (a ++ b) = chunksExact chunk_size a ++ chunksExact chunk_size b := by
  rw [chunksExact,length_append,Nat.add_div_of_dvd_right h,range_add,map_append,
    map_map]
  have hwhole := Nat.div_mul_cancel h
  refine congrArg₂ _ (map_congr_left fun i hi => ?_) (map_congr_left fun i _ => ?_)
  · have hi' : (i+1)*chunk_size ≤ a.length :=
      (Nat.mul_le_mul_right _ (mem_range.mp hi)).trans hwhole.le
    rw [Nat.succ_mul] at hi'
    rw [drop_append_of_le_length (by omega),
      take_append_of_le_length (by rw [length_drop]; omega)]
  · have hpast : (a.length/chunk_size+i)*chunk_size = a.length+i*chunk_size := by
      rw [Nat.add_mul,hwhole]
    rw [Function.comp_apply,hpast,drop_append,drop_eq_nil_of_le (by omega),
      nil_append,Nat.add_sub_cancel_left]

omit [LinearOrder K] in
theorem mono_flatten {channel_count : Nat} {packets : List (List K)}
    (h : ∀ packet ∈ packets, channel_count ∣ packet.length) :
    mono channel_count packets.flatten = packets.flatMap (mono channel_count) := by
  induction packets with
  | nil =>
    rw [mono]
    split
    · rfl
    · simp [chunksExact]
  | cons packet rest ih =>
    rw [flatten_cons,flatMap_cons,← ih fun p hp => h p (mem_cons_of_mem _ hp)]
    rw [mono,mono,mono]
    split
    · rfl
    · rw [chunksExact_append (h packet (by simp)),map_append]

theorem pushAll_append (channel_count : Nat) (r : Resampler K) (packets : List (List K))
    (packet : List K) :
    r.pushAll weight channel_count (packets ++ [packet]) =
      ((r.pushAll weight channel_count packets).1 ++
        ((r.pushAll weight channel_count packets).2.pushInterleaved weight channel_count packet).1,
        ((r.pushAll weight channel_count packets).2.pushInterleaved weight channel_count
          packet).2) := by
  rw [pushAll,foldl_append]
  rfl

theorem Ready.pushAll (h : Ready ratio [] r) (hratio : 0 < ratio) (channel_count : Nat)
    (packets : List (List K)) :
    (r.pushAll weight channel_count packets).1 =
      samples weight ratio (packets.flatMap (mono channel_count))
        (outputsReached ratio resampleHalfTaps (packets.flatMap (mono channel_count)).length) ∧
    Ready ratio (packets.flatMap (mono channel_count))
      (r.pushAll weight channel_count packets).2 := by
  induction packets using List.reverseRecOn with
  | nil =>
    refine ⟨?_,h⟩
    have hnone : outputsReached ratio resampleHalfTaps 0 = 0 :=
      Nat.le_zero.mp ((reached_le hratio).mpr (by rw [resampleHalfTaps]; norm_num))
    rw [flatMap_nil,length_nil,hnone]
    rfl
  | append_singleton packets packet ih =>
    obtain ⟨hout,hready⟩ := ih
    rw [pushAll_append,flatMap_append,flatMap_singleton,hout]
    exact hready.push weight hratio channel_count packet

omit [Field K] [LinearOrder K] in
theorem ready_start (hone : ratio ≠ 1) (hratio : 0 < ratio) :
    Ready ratio [] (atRatio ratio : Resampler K) where
  streaming := by
    refine ⟨0,rfl,decide_eq_false hone,le_refl _,rfl,?_,Or.inl rfl⟩
    have hnone : outputsReached ratio resampleHalfTaps 0 = 0 :=
      Nat.le_zero.mp ((reached_le hratio).mpr (by rw [resampleHalfTaps]; norm_num))
    rw [length_nil,hnone,atRatio]
    norm_num
  bounded := Nat.zero_le _

theorem Ready.flush (weight : ℚ → K) (h : Ready ratio stream r) (hratio : 0 < ratio) :
    samples weight ratio stream (outputsReached ratio resampleHalfTaps stream.length) ++
        (r.flush weight).1 =
      samples weight ratio stream ⌈(stream.length : ℚ)/ratio⌉₊ := by
  obtain ⟨⟨dropped,hstream⟩,_⟩ := h
  have hcount : outputsReached ratio resampleHalfTaps stream.length ≤
      outputsReached ratio (margin true) stream.length :=
    reached_mono hratio (by rw [margin,resampleHalfTaps]; norm_num) (le_refl _)
  have hall : outputsReached ratio (margin true) stream.length = ⌈(stream.length : ℚ)/ratio⌉₊ := by
    rw [outputsReached,margin,if_pos rfl,sub_zero]
  rw [Resampler.flush,if_neg (by rw [hstream.windowed]; exact Bool.false_ne_true),← hall]
  exact hstream.emit_samples weight hratio true hcount

theorem pushAll_passthrough (channel_count : Nat) (packets : List (List K)) :
    (atRatio 1 : Resampler K).pushAll weight channel_count packets =
      (packets.flatMap (mono channel_count),atRatio 1) := by
  induction packets using List.reverseRecOn with
  | nil => rfl
  | append_singleton packets packet ih =>
    rw [pushAll_append,ih,flatMap_append,flatMap_singleton]
    rfl

end Resampler

def resampled (weight : ℚ → K) (ratio : ℚ) (stream : List K) : List K :=
  if ratio = 1 then stream else samples weight ratio stream ⌈(stream.length : ℚ)/ratio⌉₊

def TapsCovered (stream history : List K) (center : ℚ) : Prop :=
  ∀ tap ∈ taps history center, tap.2 = none →
    (stream.length-history.length : ℚ)+(center-tap.1) < 0

/-- The output is that of the whole stream, of its length, with the taps it needs. -/
structure Resamples (weight : ℚ → K) (ratio : ℚ) (channel_count : Nat) (packets : List (List K)) :
    Prop where
  alike : (Resampler.atRatio ratio).resample weight channel_count packets =
    resampled weight ratio (mono channel_count packets.flatten)
  count : ((Resampler.atRatio ratio).resample weight channel_count packets).length =
    ⌈((mono channel_count packets.flatten).length : ℚ)/ratio⌉₊
  covered : ratio ≠ 1 → ∀ before packet after, packets = before ++ packet :: after →
    let r := ((Resampler.atRatio ratio).pushAll weight channel_count before).2.extend
      channel_count packet
    ∀ center ∈ (r.centers false).1,
      TapsCovered (mono channel_count (before ++ [packet]).flatten) r.history center
  bounded : ∀ before after, packets = before ++ after →
    ((Resampler.atRatio ratio).pushAll weight channel_count before).2.history.length ≤
      2*resampleHalfTaps

theorem samples_length (weight : ℚ → K) (ratio : ℚ) (stream : List K) (count : Nat) :
    (samples weight ratio stream count).length = count := by
  rw [samples,length_map,length_range]

theorem resampled_length (weight : ℚ → K) (ratio : ℚ) (stream : List K) :
    (resampled weight ratio stream).length = ⌈(stream.length : ℚ)/ratio⌉₊ := by
  rw [resampled]
  split
  · rename_i hone
    rw [hone,div_one,Nat.ceil_natCast]
  · exact samples_length weight ratio stream _

omit [Field K] [LinearOrder K] in
theorem Resampler.Streaming.covered {ratio : ℚ} {stream : List K} {dropped count : Nat}
    {r : Resampler K} (h : r.Streaming ratio stream dropped count) (hratio : 0 < ratio)
    (hcount : count ≤ outputsReached ratio resampleHalfTaps stream.length) {center : ℚ}
    (hcenter : center ∈ (r.centers false).1) : TapsCovered stream r.history center := by
  have hturns := h.turns_eq hratio false
  have hmargin : Resampler.margin false = resampleHalfTaps := rfl
  rw [h.centers_eq hratio false hcount] at hcenter
  obtain ⟨i,hi,rfl⟩ := mem_map.mp hcenter
  have hbelow : (((count+i : Nat) : ℚ))*ratio+resampleHalfTaps < stream.length := by
    refine (lt_outputsReached hratio).mp ?_
    have hi' := mem_range.mp hi
    rw [hmargin] at hturns
    omega
  have hlength : (stream.length-r.history.length : ℚ) = dropped := by
    rw [h.history,length_drop,Nat.cast_sub h.within]
    ring
  intro tap htap hnone
  rw [h.history,taps_drop (h.reach_later hratio i)] at htap
  have hbefore := taps_present hbelow htap hnone
  rw [hlength]
  linarith

/-- Whatever the ratio and the packets of whole frames, the samples are those of
the stream, as many as its length calls for; what is put out before the drain has
its taps, and the history is no longer than the taps of one sample. -/
theorem resamples (weight : ℚ → K) {ratio : ℚ} (hratio : 0 < ratio) {channel_count : Nat}
    {packets : List (List K)} (hframes : ∀ packet ∈ packets, channel_count ∣ packet.length) :
    Resamples weight ratio channel_count packets := by
  have hstream : ∀ before after, packets = before ++ after →
      mono channel_count before.flatten = before.flatMap (mono channel_count) := by
    intro before after heq
    exact Resampler.mono_flatten fun packet hp => hframes packet (heq ▸ mem_append_left _ hp)
  have halike : (Resampler.atRatio ratio).resample weight channel_count packets =
      resampled weight ratio (mono channel_count packets.flatten) := by
    rw [hstream packets [] (append_nil _).symm,Resampler.resample,resampled]
    split
    · rename_i hone
      subst hone
      rw [Resampler.pushAll_passthrough]
      exact append_nil _
    · rename_i hone
      obtain ⟨hout,hready⟩ := (Resampler.ready_start hone hratio).pushAll weight hratio
        channel_count packets
      rw [hout]
      exact hready.flush weight hratio
  refine ⟨halike,by rw [halike,resampled_length],?_,?_⟩
  · intro hone before packet after heq
    have hready := ((Resampler.ready_start hone hratio).pushAll weight hratio channel_count before).2
    obtain ⟨dropped,hs⟩ := hready.streaming
    have hnext := hs.extend channel_count packet
    have hwhole := hstream (before ++ [packet]) after (by simp [heq])
    intro r center hcenter
    rw [hwhole,flatMap_append,flatMap_singleton]
    refine hnext.covered hratio (reached_mono hratio (le_refl _) ?_) hcenter
    rw [length_append]
    omega
  · intro before after heq
    by_cases hone : ratio = 1
    · subst hone
      rw [Resampler.pushAll_passthrough]
      exact Nat.zero_le _
    · exact ((Resampler.ready_start hone hratio).pushAll weight hratio channel_count
        before).2.bounded

omit [Field K] [LinearOrder K] in
theorem Resampler.new_eq (source_rate_hz : Nat) :
    (new source_rate_hz : Resampler K) = atRatio (source_rate_hz/audioSampleRateHz) := by
  have hone : source_rate_hz = audioSampleRateHz ↔
      (source_rate_hz : ℚ)/audioSampleRateHz = 1 := by
    rw [div_eq_one_iff_eq (by norm_num [audioSampleRateHz]),Nat.cast_inj]
  rw [new,atRatio,decide_eq_decide.mpr hone]

end

/-- Forty stereo frames at 48 kHz, in two packets. -/
theorem stereo_resamples :
    Resamples (fun _ => (1 : ℚ)) 3 2 [List.replicate 66 1,List.replicate 14 (-1)] :=
  resamples (fun _ => 1) (by norm_num) (by decide)

/-- The taps before the start of the stream are not there: the first sample of a
48 kHz source is put out without half of them, before anything is drained. -/
theorem start_lacks_taps :
    ¬ ∀ center ∈ (((Resampler.atRatio 3 : Resampler ℚ).extend 1 (List.replicate 33 1)).centers
        false).1,
      ∀ tap ∈ taps ((Resampler.atRatio 3 : Resampler ℚ).extend 1 (List.replicate 33 1)).history
        center, tap.2.isSome := by
  decide +kernel

end ProjectOS.Ingest
