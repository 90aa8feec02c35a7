import ProjectOS.Lib.Fixed
import ProjectOS.Ingest.Chunk

/-! The segment index as bytes: records of one width, read through a bounded
window. -/

namespace ProjectOS.Ingest
open Lib Domain Sched List

def locatorTagTime : UInt8 := 1
def locatorTagLine : UInt8 := 2
def locatorTagMessage : UInt8 := 3

def leBytes64 (n : Nat) : Bytes := (List.range 8).map fun j => UInt8.ofNat (n / 2^(8*j))

def Locator.tag : Locator → UInt8
  | .timeRange .. => locatorTagTime
  | .lineRange .. => locatorTagLine
  | .messageRange .. => locatorTagMessage

namespace Segment

def encode (s : Segment) : Bytes :=
  leBytes64 s.byte_start ++ (leBytes64 s.byte_end ++ ([Locator.tag s.locator,UInt8.ofNat s.depth] ++
    (List.replicate 6 0 ++ (leBytes64 s.locator.bounds.1 ++ leBytes64 s.locator.bounds.2))))

def field (bytes : Bytes) (offset : Nat) : Nat := ofLeBytes ((bytes.drop offset).take 8)

def decode (bytes : Bytes) : Option Segment :=
  if bytes.length < segmentRecordBytes then none
  else if field bytes 8 < field bytes 0 then none
  else
    let tag := bytes.getD 16 0
    let depth := (bytes.getD 17 0).toNat
    let first := field bytes 24
    let second := field bytes 32
    if tag = locatorTagTime then
      some ⟨field bytes 0,field bytes 8,.timeRange first second,depth⟩
    else if tag = locatorTagLine then
      some ⟨field bytes 0,field bytes 8,.lineRange first second,depth⟩
    else if tag = locatorTagMessage then
      some ⟨field bytes 0,field bytes 8,.messageRange first second,depth⟩
    else none

structure Coherent (s : Segment) : Prop where
  byte_start : s.byte_start ≤ u64Max
  byte_end : s.byte_end ≤ u64Max
  depth : s.depth < 256
  first : s.locator.bounds.1 ≤ u64Max
  second : s.locator.bounds.2 ≤ u64Max
  ordered : s.byte_start ≤ s.byte_end

end Segment

theorem ofLeBytes_cons (b : UInt8) (bytes : Bytes) :
    ofLeBytes (b :: bytes) = b.toNat + 256*ofLeBytes bytes := by
  simp only [ofLeBytes,ofBeBytes,reverse_cons,foldl_append,foldl_cons,foldl_nil]
  omega

theorem ofLeBytes_lt (bytes : Bytes) : ofLeBytes bytes < 256^bytes.length := by
  induction bytes with
  | nil => simp [ofLeBytes,ofBeBytes]
  | cons b bytes ih =>
    have hb := b.toNat_lt
    rw [ofLeBytes_cons,length_cons,Nat.pow_succ]
    omega

theorem ofLeBytes_range (w n : Nat) :
    ofLeBytes ((List.range w).map fun j => UInt8.ofNat (n / 2^(8*j))) = n % 256^w := by
  induction w generalizing n with
  | zero => simp [ofLeBytes,ofBeBytes,Nat.mod_one]
  | succ w ih =>
    have hnext : ∀ j, n / 2^(8*(j+1)) = n/256 / 2^(8*j) := by
      intro j
      rw [Nat.div_div_eq_div_mul,Nat.mul_succ,Nat.pow_add,Nat.mul_comm]
    have htail : (List.range w).map ((fun j => UInt8.ofNat (n / 2^(8*j))) ∘ Nat.succ) =
        (List.range w).map fun j => UInt8.ofNat (n/256 / 2^(8*j)) := by
      apply map_congr_left
      intro j _
      exact congrArg UInt8.ofNat (hnext j)
    rw [range_succ_eq_map,map_cons,map_map,htail,ofLeBytes_cons,ih,Nat.pow_succ,
      Nat.mul_comm (256^w),Nat.mod_mul]
    simp

theorem leBytes64_length (n : Nat) : (leBytes64 n).length = 8 := by simp [leBytes64]

theorem ofLeBytes_leBytes64 {n : Nat} (h : n ≤ u64Max) : ofLeBytes (leBytes64 n) = n := by
  rw [leBytes64,ofLeBytes_range,Nat.mod_eq_of_lt]
  simp only [u64Max] at h
  omega

namespace Segment

theorem encode_length (s : Segment) : s.encode.length = segmentRecordBytes := by
  simp [encode,leBytes64_length,segmentRecordBytes]

variable {bytes : Bytes}

theorem decode_short (h : bytes.length < segmentRecordBytes) :
    decode bytes = none := if_pos h

theorem field_eq (before after : Bytes) {n offset : Nat}
    (hbytes : bytes = before ++ (leBytes64 n ++ after)) (hoffset : before.length = offset)
    (hn : n ≤ u64Max) : field bytes offset = n := by
  subst hbytes hoffset
  rw [field,drop_left,take_left' (leBytes64_length n),ofLeBytes_leBytes64 hn]

theorem decode_encode {s : Segment} (h : s.Coherent) : decode s.encode = some s := by
  have hshort : ¬s.encode.length < segmentRecordBytes := by
    rw [encode_length]
    exact Nat.lt_irrefl _
  have hstart : field s.encode 0 = s.byte_start :=
    field_eq [] _ (nil_append _).symm rfl h.byte_start
  have hend : field s.encode 8 = s.byte_end :=
    field_eq _ _ rfl (leBytes64_length _) h.byte_end
  have hfirst : field s.encode 24 = s.locator.bounds.1 := by
    refine field_eq (leBytes64 s.byte_start ++ (leBytes64 s.byte_end ++
      ([Locator.tag s.locator,UInt8.ofNat s.depth] ++ List.replicate 6 0)))
      (leBytes64 s.locator.bounds.2) ?_ ?_ h.first
    · simp only [encode,append_assoc]
    · simp [leBytes64_length]
  have hsecond : field s.encode 32 = s.locator.bounds.2 := by
    refine field_eq (leBytes64 s.byte_start ++ (leBytes64 s.byte_end ++
      ([Locator.tag s.locator,UInt8.ofNat s.depth] ++ (List.replicate 6 0 ++
        leBytes64 s.locator.bounds.1)))) [] ?_ ?_ h.second
    · simp only [encode,append_assoc,append_nil]
    · simp [leBytes64_length]
  have htag : s.encode.getD 16 0 = Locator.tag s.locator := by
    simp [encode,leBytes64_length]
  have hdepth : (s.encode.getD 17 0).toNat = s.depth := by
    simpa [encode,List.getElem?_append,leBytes64_length] using Nat.mod_eq_of_lt h.depth
  rw [decode,if_neg hshort,hstart,hend,if_neg (Nat.not_lt.mpr h.ordered)]
  simp only [htag,hdepth,hfirst,hsecond]
  obtain ⟨byte_start,byte_end,locator,depth⟩ := s
  cases locator <;>
    simp [Locator.tag,Locator.bounds,locatorTagTime,locatorTagLine,locatorTagMessage]

theorem field_le (bytes : Bytes) (offset : Nat) : field bytes offset ≤ u64Max := by
  have hlt := ofLeBytes_lt ((bytes.drop offset).take 8)
  have hpow := Nat.pow_le_pow_right (show 0 < 256 by omega) (length_take_le 8 (bytes.drop offset))
  simp only [field,u64Max] at hlt ⊢
  omega

theorem decode_coherent {s : Segment} (h : decode bytes = some s) :
    segmentRecordBytes ≤ bytes.length ∧ s.Coherent := by
  have hdepth := (bytes.getD 17 0).toNat_lt
  have hfield := field_le bytes
  unfold decode at h
  by_cases hshort : bytes.length < segmentRecordBytes
  · rw [if_pos hshort] at h
    cases h
  by_cases hordered : field bytes 8 < field bytes 0
  · rw [if_neg hshort,if_pos hordered] at h
    cases h
  rw [if_neg hshort,if_neg hordered] at h
  refine ⟨Nat.not_lt.mp hshort,?_⟩
  generalize bytes.getD 16 0 = tag at h
  generalize (bytes.getD 17 0).toNat = depth at h hdepth
  simp only at h
  split_ifs at h
  all_goals
    cases h
    exact ⟨hfield 0,hfield 8,hdepth,hfield 24,hfield 32,Nat.not_lt.mp hordered⟩

end Segment

def segmentCode : FixedCode Segment UInt8 where
  width := segmentRecordBytes
  encode := Segment.encode
  decode := Segment.decode
  Valid := Segment.Coherent
  width_pos := by decide
  encode_length := Segment.encode_length
  decode_encode := fun _ h => Segment.decode_encode h
  decode_short := fun _ h => Segment.decode_short h

structure SegmentReader where
  stream : BoundedStream
  read_count : Nat

namespace SegmentReader

def new (stream : BoundedStream) : SegmentReader := ⟨stream,0⟩

def nextSegment (r : SegmentReader) : Except StreamError (Option Segment × SegmentReader) :=
  match r.stream.window segmentRecordBytes with
  | .error e => .error e
  | .ok (window,stream) =>
    if window.isEmpty then .ok (none,{ r with stream := stream })
    else
      match Segment.decode window with
      | none => .error (.limitExceeded "segment record" window.length segmentRecordBytes)
      | some segment => .ok (some segment,⟨stream.advance segmentRecordBytes,r.read_count+1⟩)

def drain : Nat → SegmentReader → List Segment × Option (Except StreamError SegmentReader)
  | 0, _ => ([],none)
  | rounds+1, r =>
    match r.nextSegment with
    | .error e => ([],some (.error e))
    | .ok (none,r') => ([],some (.ok r'))
    | .ok (some segment,r') => (segment :: (drain rounds r').1,(drain rounds r').2)

/-- How a reading ends: clean, or with part of a record. -/
inductive Ends : Bytes → Except StreamError SegmentReader → Prop where
  | clean (r : SegmentReader) : Ends [] (.ok r)
  | cut {tail : Bytes} (h : tail ≠ []) : Ends tail (.error (.limitExceeded "segment record"
      (min segmentRecordBytes tail.length) segmentRecordBytes))

variable {r : SegmentReader}

structure Fit (r : SegmentReader) : Prop where
  sound : r.stream.Sound
  healthy : r.stream.reader.Healthy
  room : segmentRecordBytes ≤ r.stream.budget.buffer_bytes_max

theorem new_fit {reader : Reader} {budget : StreamBudget} (hr : reader.Healthy)
    (hb : segmentRecordBytes ≤ budget.buffer_bytes_max) :
    (new (BoundedStream.new reader budget)).Fit :=
  ⟨BoundedStream.new_sound reader budget,hr,hb⟩

theorem window_fit (h : r.Fit) :
    ∃ stream, r.stream.window segmentRecordBytes =
        .ok (r.stream.remaining.take segmentRecordBytes,stream) ∧ r.stream.Ahead stream ∧
      stream.reader.Healthy ∧
      (r.stream.remaining.take segmentRecordBytes).length ≤ stream.available := by
  obtain ⟨stream,hfill,hreader⟩ := BoundedStream.fill_healthy h.healthy h.sound h.room
  have hwindow : r.stream.window segmentRecordBytes =
      .ok (stream.buffer.take segmentRecordBytes,stream) := by rw [BoundedStream.window,hfill]
  obtain ⟨hahead,-,hbytes,havail⟩ := BoundedStream.window_ok h.sound hwindow
  exact ⟨stream,by rw [hwindow,hbytes],hahead,hreader,hbytes ▸ havail⟩

theorem nextSegment_some (h : r.Fit) {segment : Segment}
    (hdecode : Segment.decode (r.stream.remaining.take segmentRecordBytes) = some segment) :
    ∃ r', r.nextSegment = .ok (some segment,r') ∧ r'.Fit ∧
      r'.stream.remaining = r.stream.remaining.drop segmentRecordBytes ∧
      r'.read_count = r.read_count+1 := by
  obtain ⟨stream,hwindow,hahead,hreader,havail⟩ := window_fit h
  have hlen := (Segment.decode_coherent hdecode).1
  have hne : ¬(r.stream.remaining.take segmentRecordBytes).isEmpty = true := by
    intro hempty
    rw [List.isEmpty_iff.mp hempty] at hlen
    exact absurd hlen (by decide)
  refine ⟨_,by rw [nextSegment,hwindow]; simp only [hne,hdecode]; rfl,?_,?_,rfl⟩
  · exact ⟨BoundedStream.advance_sound hahead.sound,hreader,hahead.budget.symm ▸ h.room⟩
  · rw [BoundedStream.advance_remaining (hlen.trans havail),hahead.remaining]

theorem nextSegment_end (h : r.Fit) (hend : r.stream.remaining = []) :
    ∃ r', r.nextSegment = .ok (none,r') ∧ r'.read_count = r.read_count := by
  obtain ⟨stream,hwindow,-⟩ := window_fit h
  rw [hend,take_nil] at hwindow
  exact ⟨{ r with stream := stream },by rw [nextSegment,hwindow]; rfl,rfl⟩

theorem nextSegment_none (h : r.Fit) (hne : r.stream.remaining ≠ [])
    (hdecode : Segment.decode (r.stream.remaining.take segmentRecordBytes) = none) :
    r.nextSegment = .error (.limitExceeded "segment record"
      (min segmentRecordBytes r.stream.remaining.length) segmentRecordBytes) := by
  obtain ⟨stream,hwindow,-⟩ := window_fit h
  have hsome : ¬(r.stream.remaining.take segmentRecordBytes).isEmpty = true := by
    rw [List.isEmpty_iff,take_eq_nil_iff]
    exact not_or.mpr ⟨by decide,hne⟩
  rw [nextSegment,hwindow]
  simp only [hsome,hdecode,length_take]
  rfl

theorem drain_fit (h : r.Fit) {rounds : Nat} (hrounds : r.stream.remaining.length < rounds) :
    ∃ outcome, r.drain rounds =
        ((segmentCode.records rounds r.stream.remaining).1,some outcome) ∧
      Ends (segmentCode.records rounds r.stream.remaining).2 outcome := by
  induction rounds generalizing r with
  | zero => omega
  | succ rounds ih =>
    rw [FixedCode.records]
    cases hdecode : segmentCode.decode (r.stream.remaining.take segmentCode.width) with
    | none =>
      by_cases hend : r.stream.remaining = []
      · obtain ⟨r',hnext,-⟩ := nextSegment_end h hend
        exact ⟨.ok r',by rw [drain,hnext],by rw [hend]; exact .clean r'⟩
      · exact ⟨_,by rw [drain,nextSegment_none h hend hdecode],.cut hend⟩
    | some segment =>
      obtain ⟨r',hnext,hfit,hrest,-⟩ := nextSegment_some h hdecode
      have hlen := (Segment.decode_coherent hdecode).1
      have hshort : r'.stream.remaining.length < rounds := by
        rw [hrest,length_drop]
        rw [length_take] at hlen
        simp only [segmentCode,segmentRecordBytes] at hlen ⊢
        omega
      obtain ⟨outcome,hdrain,hends⟩ := ih hfit hshort
      rw [hrest] at hdrain hends
      refine ⟨outcome,?_,hends⟩
      rw [drain,hnext]
      simp only [hdrain]
      rfl

theorem drain_ends {rounds : Nat} (hs : r.stream.Sound)
    (hrounds : r.stream.remaining.length < rounds) : (r.drain rounds).2 ≠ none := by
  induction rounds generalizing r with
  | zero => omega
  | succ rounds ih =>
    rw [drain,nextSegment]
    cases hwindow : r.stream.window segmentRecordBytes with
    | error e => simp
    | ok next =>
      obtain ⟨window,stream⟩ := next
      obtain ⟨hahead,-,hbytes,havail⟩ := BoundedStream.window_ok hs hwindow
      simp only
      by_cases hempty : window.isEmpty = true
      · simp [hempty]
      cases hdecode : Segment.decode window with
      | none => simp [hempty]
      | some segment =>
        simp only [hempty]
        have hlen := (Segment.decode_coherent hdecode).1
        apply ih (BoundedStream.advance_sound hahead.sound)
        rw [BoundedStream.advance_remaining (hlen.trans havail),hahead.remaining,length_drop]
        rw [hbytes,length_take] at hlen
        simp only [segmentRecordBytes] at hlen ⊢
        omega

section
variable {segments : List Segment} {reader : Reader} {budget : StreamBudget} {rounds n : Nat}

theorem drain_whole (hsegments : ∀ s ∈ segments, s.Coherent) (hr : reader.Healthy)
    (hb : segmentRecordBytes ≤ budget.buffer_bytes_max)
    (hrest : reader.rest = segments.flatMap Segment.encode) (hrounds : reader.rest.length < rounds) :
    ∃ r, (new (.new reader budget)).drain rounds = (segments,some (.ok r)) := by
  obtain ⟨outcome,hdrain,hends⟩ := drain_fit (new_fit hr hb) hrounds
  have hcount : segments.length ≤ rounds := by
    have hlen := segmentCode.length_flatMap_encode segments
    have hwidth : segments.length ≤ segments.length*segmentCode.width :=
      Nat.le_mul_of_pos_right _ segmentCode.width_pos
    rw [hrest] at hrounds
    exact hwidth.trans (hlen.symm.le.trans hrounds.le)
  have hrecords : segmentCode.records rounds (segments.flatMap segmentCode.encode) = (segments,[]) := by
    have hread := segmentCode.records_flatMap hsegments
      (show ([] : Bytes).length < segmentCode.width from segmentCode.width_pos) hcount
    rwa [append_nil] at hread
  have hremaining : (new (.new reader budget)).stream.remaining =
      segments.flatMap segmentCode.encode := hrest
  rw [hremaining,hrecords] at hdrain hends
  cases hends with
  | clean r => exact ⟨r,hdrain⟩
  | cut hne => exact absurd rfl hne

theorem drain_cut (hsegments : ∀ s ∈ segments, s.Coherent) (hr : reader.Healthy)
    (hb : segmentRecordBytes ≤ budget.buffer_bytes_max)
    (hrest : reader.rest = (segments.flatMap Segment.encode).take n)
    (hn : n < (segments.flatMap Segment.encode).length) (hpart : n%segmentRecordBytes ≠ 0)
    (hrounds : reader.rest.length < rounds) :
    (new (.new reader budget)).drain rounds =
      (segments.take (n/segmentRecordBytes),some (.error (.limitExceeded "segment record"
        (n%segmentRecordBytes) segmentRecordBytes))) := by
  obtain ⟨outcome,hdrain,hends⟩ := drain_fit (new_fit hr hb) hrounds
  have hcount : n/segmentCode.width ≤ rounds := by
    rw [hrest,length_take,Nat.min_eq_left hn.le] at hrounds
    exact (Nat.div_le_self _ _).trans hrounds.le
  obtain ⟨tail,htail,hrecords⟩ := segmentCode.records_take hsegments hn.le hcount
  have hremaining : (new (.new reader budget)).stream.remaining =
      (segments.flatMap segmentCode.encode).take n := hrest
  rw [hremaining,hrecords] at hdrain hends
  cases hends with
  | clean r => exact absurd htail.symm hpart
  | cut hne =>
    have hmin : min segmentRecordBytes tail.length = n%segmentRecordBytes := by
      rw [htail]
      exact Nat.min_eq_right (Nat.mod_lt n segmentCode.width_pos).le
    rw [hdrain,hmin]
    rfl

end

end SegmentReader

/-- The segments that were written are read back, however the content comes in. A
content cut off inside a record ends in an error behind the whole records, and any
content at all is read to an end. -/
theorem segment_index_read {segments : List Segment} (hsegments : ∀ s ∈ segments, s.Coherent) :
    (∀ (reader : Reader) (budget : StreamBudget) (rounds : Nat), reader.Healthy →
      segmentRecordBytes ≤ budget.buffer_bytes_max → reader.rest = segments.flatMap Segment.encode →
      reader.rest.length < rounds →
      ∃ r, (SegmentReader.new (.new reader budget)).drain rounds = (segments,some (.ok r))) ∧
    (∀ (reader : Reader) (budget : StreamBudget) (rounds n : Nat), reader.Healthy →
      segmentRecordBytes ≤ budget.buffer_bytes_max →
      reader.rest = (segments.flatMap Segment.encode).take n →
      n < (segments.flatMap Segment.encode).length → n%segmentRecordBytes ≠ 0 →
      reader.rest.length < rounds →
      (SegmentReader.new (.new reader budget)).drain rounds =
        (segments.take (n/segmentRecordBytes),some (.error (.limitExceeded "segment record"
          (n%segmentRecordBytes) segmentRecordBytes)))) ∧
    ∀ (reader : Reader) (budget : StreamBudget) (rounds : Nat), reader.rest.length < rounds →
      ((SegmentReader.new (.new reader budget)).drain rounds).2 ≠ none := by
  refine ⟨?_,?_,?_⟩
  · intro reader budget rounds hr hb hrest hrounds
    exact SegmentReader.drain_whole hsegments hr hb hrest hrounds
  · intro reader budget rounds n hr hb hrest hn hpart hrounds
    exact SegmentReader.drain_cut hsegments hr hb hrest hn hpart hrounds
  · intro reader budget rounds hrounds
    exact SegmentReader.drain_ends (BoundedStream.new_sound reader budget) hrounds

def headingSegment : Segment := ⟨0,250,.lineRange 3 19,2⟩

theorem headingSegment_coherent : ∀ s ∈ [headingSegment], s.Coherent := by
  intro s hs
  rw [mem_singleton.mp hs]
  exact ⟨by decide,by decide,by decide,by decide,by decide,by decide⟩

/-- One record that comes in seven bytes at first, and without its last byte. -/
theorem heading_index_read :
    (∃ r, (SegmentReader.new (.new ⟨headingSegment.encode,[.ok 6]⟩ ⟨.chunk,4096⟩)).drain 41 =
      ([headingSegment],some (.ok r))) ∧
    (SegmentReader.new (.new ⟨headingSegment.encode.take 39,[]⟩ ⟨.chunk,4096⟩)).drain 40 =
      ([],some (.error (.limitExceeded "segment record" 39 40))) := by
  obtain ⟨hwhole,hcut,-⟩ := segment_index_read headingSegment_coherent
  constructor
  · refine hwhole _ _ 41 ?_ (by decide) (by simp) (by decide)
    intro offer hoffer
    exact ⟨6,mem_singleton.mp hoffer⟩
  · refine hcut ⟨headingSegment.encode.take 39,[]⟩ _ 40 39 ?_ (by decide) (by simp) (by decide)
      (by decide) (by decide)
    intro offer hoffer
    cases hoffer

end ProjectOS.Ingest
