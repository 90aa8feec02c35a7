import ProjectOS.Ingest.Budget

/-! `BoundedStream` down to its buffer and cursor, which outlive a failed read. -/

namespace ProjectOS.Ingest
open List

def Reader.readInto (r : Reader) (len : Nat) : Except String Bytes × Reader :=
  match r.read len with
  | .ok (bytes,r) => (.ok bytes,r)
  | .error fault => (.error fault,⟨r.rest,r.offers.tail⟩)

structure RawStream where
  reader : Reader
  budget : StreamBudget
  buffer : Bytes
  start : Nat
  read_total : Nat
  consumed_total : Nat
  peak_bytes : Nat
  at_end : Bool
  longest : Nat

namespace RawStream

def new (reader : Reader) (budget : StreamBudget) : RawStream where
  reader := reader
  budget := budget
  buffer := []
  start := 0
  read_total := 0
  consumed_total := 0
  peak_bytes := 0
  at_end := false
  longest := 0

def available (s : RawStream) : Nat := s.buffer.length-s.start

def visible (s : RawStream) : Bytes := s.buffer.drop s.start

def offset (s : RawStream) : Nat := s.consumed_total

def overBudget (s : RawStream) (want : Nat) : StreamError :=
  .bufferBudgetExceeded s.budget.stage want s.budget.buffer_bytes_max

def compact (s : RawStream) : RawStream := { s with buffer := s.visible, start := 0 }

def readLen (s : RawStream) : Nat :=
  min stageReadBytes (s.budget.buffer_bytes_max-s.buffer.length)

/-- One round of `fill`. The buffer is cut down to what was read only when the
reader answered. -/
def readOnce (want : Nat) (s : RawStream) : Except StreamError Unit × RawStream :=
  let s := s.compact
  if s.readLen = 0 then (.error (s.overBudget want),s)
  else
    let grown := s.buffer ++ List.replicate s.readLen 0
    let longest := max s.longest grown.length
    match s.reader.readInto s.readLen with
    | (.error fault,reader) =>
      (.error (.io "read ingested content" fault),
        { s with reader := reader, buffer := grown, longest := longest })
    | (.ok bytes,reader) =>
      (.ok (),{ s with
        reader := reader
        buffer := s.buffer ++ bytes
        read_total := s.read_total+bytes.length
        peak_bytes := max s.peak_bytes (s.buffer.length+bytes.length)
        at_end := bytes.isEmpty
        longest := longest })

def fillLoop (want : Nat) : Nat → RawStream → Option (Except StreamError Unit × RawStream)
  | 0, _ => none
  | rounds+1, s =>
    if want ≤ s.available ∨ s.at_end then some (.ok (),s)
    else
      match s.readOnce want with
      | (.error e,s) => some (.error e,s)
      | (.ok (),s) => fillLoop want rounds s

def fill (s : RawStream) (want : Nat) : Option (Except StreamError Unit × RawStream) :=
  if s.budget.buffer_bytes_max < want then some (.error (s.overBudget want),s)
  else fillLoop want (want+1) s

def window (s : RawStream) (want : Nat) : Option (Except StreamError Bytes × RawStream) :=
  (s.fill want).map fun out => (out.1.map fun _ => out.2.visible.take want,out.2)

def windowMax (s : RawStream) : Option (Except StreamError Bytes × RawStream) :=
  (s.fill s.budget.buffer_bytes_max).map fun out => (out.1.map fun _ => out.2.visible,out.2)

def advance (s : RawStream) (count : Nat) : RawStream :=
  let count := min count s.available
  let moved := { s with start := s.start+count, consumed_total := s.consumed_total+count }
  if moved.start = moved.buffer.length then { moved with buffer := [], start := 0 } else moved

variable {s s' : RawStream} {want rounds : Nat}

/-- More is visible than before the call: what its earlier rounds read, and zeros
that nobody read. -/
structure Exposed (s s' : RawStream) : Prop where
  visible : ∃ bytes unread, 0 < unread ∧ s.reader.rest = bytes ++ s'.reader.rest ∧
    s'.visible = s.visible ++ bytes ++ List.replicate unread 0
  offset : s'.offset = s.offset
  fits : s'.available ≤ s'.budget.buffer_bytes_max

theorem available_eq : s.available = s.visible.length := (length_drop).symm

theorem readInto_ok {r r' : Reader} {len : Nat} {bytes : Bytes}
    (h : r.readInto len = (.ok bytes,r')) : r.read len = .ok (bytes,r') := by
  unfold Reader.readInto at h
  split at h
  · rename_i hread
    cases h
    exact hread
  · cases h

theorem readOnce_failed {operation fault : String}
    (h : s.readOnce want = (.error (.io operation fault),s')) : s.Exposed s' := by
  simp only [readOnce] at h
  split_ifs at h with hlen
  · simp [overBudget] at h
  · simp only [Reader.readInto] at h
    cases hread : s.compact.reader.read s.compact.readLen with
    | ok next => simp [hread] at h
    | error fault =>
      simp only [hread,Prod.mk.injEq] at h
      obtain ⟨-,rfl⟩ := h
      refine ⟨⟨[],s.compact.readLen,Nat.pos_of_ne_zero hlen,rfl,?_⟩,rfl,?_⟩
      · simp [RawStream.visible,compact]
      · simp only [available,length_append,length_replicate,readLen] at hlen ⊢
        omega

theorem readOnce_read (h : s.readOnce want = (.ok (),s')) :
    ∃ bytes, s.reader.rest = bytes ++ s'.reader.rest ∧ s'.visible = s.visible ++ bytes ∧
      s'.offset = s.offset := by
  simp only [readOnce] at h
  split_ifs at h with hlen
  · cases h
  · split at h
    · cases h
    · rename_i bytes reader hread
      cases h
      exact ⟨bytes,(Reader.read_ok (readInto_ok hread)).1.symm,rfl,rfl⟩

theorem fillLoop_failed {operation fault : String}
    (h : fillLoop want rounds s = some (.error (.io operation fault),s')) : s.Exposed s' := by
  induction rounds generalizing s with
  | zero => cases h
  | succ rounds ih =>
    rw [fillLoop] at h
    split_ifs at h with hdone
    · cases h
    · split at h
      · rename_i hread
        cases h
        exact readOnce_failed hread
      · rename_i mid hread
        obtain ⟨bytes,hrest,hvisible,hoffset⟩ := readOnce_read hread
        obtain ⟨⟨more,unread,hpos,hmore,hzeros⟩,hoffset',hfits⟩ := ih h
        refine ⟨⟨bytes ++ more,unread,hpos,?_,?_⟩,hoffset'.trans hoffset,hfits⟩
        · rw [hrest,hmore,append_assoc]
        · rw [hzeros,hvisible,append_assoc s.visible]

theorem fill_failed {operation fault : String}
    (h : s.fill want = some (.error (.io operation fault),s')) : s.Exposed s' := by
  unfold fill at h
  split_ifs at h with hbudget
  · simp [overBudget] at h
  · exact fillLoop_failed h

theorem window_available (h : s.available ≤ s.budget.buffer_bytes_max) :
    s.window s.available = some (.ok s.visible,s) := by
  have hfill : s.fill s.available = some (.ok (),s) := by
    rw [fill,if_neg (Nat.not_lt.mpr h),fillLoop,if_pos (Or.inl (Nat.le_refl _))]
  rw [window,hfill,Option.map_some]
  simp [Except.map,available_eq]

/-- Never does a call that fails with the reader leave the stream as it was, and the
next call for what is visible hands zeros on. -/
theorem failed_window_exposes {operation fault : String}
    (h : s.window want = some (.error (.io operation fault),s')) :
    ¬ (s'.visible = s.visible ∧ s'.offset = s.offset) ∧
      ∃ bytes unread, 0 < unread ∧ s.reader.rest = bytes ++ s'.reader.rest ∧
        s'.window s'.available =
          some (.ok (s.visible ++ bytes ++ List.replicate unread 0),s') := by
  obtain ⟨⟨e,mid⟩,hfill,hout⟩ := Option.map_eq_some_iff.mp h
  have hfailed : e = .error (.io operation fault) ∧ mid = s' := by
    cases e with
    | error e => simpa [Except.map] using hout
    | ok u => simp [Except.map] at hout
  obtain ⟨rfl,rfl⟩ := hfailed
  obtain ⟨⟨bytes,unread,hpos,hrest,hvisible⟩,-,hfits⟩ := fill_failed hfill
  refine ⟨fun hsame => ?_,bytes,unread,hpos,hrest,?_⟩
  · have hlength := congrArg List.length hvisible
    rw [hsame.1] at hlength
    simp only [length_append,length_replicate] at hlength
    omega
  · rw [window_available hfits,hvisible]

def hesitant : RawStream := new ⟨[104,105],[.error "timed out"]⟩ ⟨.normalize,4⟩

def hesitated : RawStream :=
  { hesitant with reader := ⟨[104,105],[]⟩, buffer := [0,0,0,0], longest := 4 }

theorem hesitated_exposed :
    ¬ (hesitated.visible = hesitant.visible ∧ hesitated.offset = hesitant.offset) := by
  have h : hesitant.window 2 =
      some (.error (.io "read ingested content" "timed out"),hesitated) := rfl
  exact (failed_window_exposes h).1

theorem zeros_read_as_content :
    hesitant.window 2 = some (.error (.io "read ingested content" "timed out"),hesitated) ∧
      hesitated.visible ≠ hesitant.visible ∧ hesitated.reader.rest = [104,105] ∧
        (hesitated.window 2).map Prod.fst = some (.ok [0,0]) :=
  ⟨rfl,by decide,rfl,rfl⟩

/-! Behind a reader that does not fail, a stream is its visible bytes and what the
reader holds -/

def abs (s : RawStream) : BoundedStream where
  reader := s.reader
  budget := s.budget
  buffer := s.visible
  read_total := s.read_total
  consumed_total := s.consumed_total
  at_end := s.at_end

/-- The buffer has never been larger than its budget. -/
structure Within (s : RawStream) : Prop where
  sound : s.abs.Sound
  healthy : s.reader.Healthy
  held : s.buffer.length ≤ s.budget.buffer_bytes_max
  peak : s.peak_bytes ≤ s.budget.buffer_bytes_max
  longest : s.longest ≤ s.budget.buffer_bytes_max

theorem abs_available : s.abs.available = s.available := (available_eq (s := s)).symm

variable (want) in
theorem readOnce_refines (h : s.Within) (hroom : s.available < s.budget.buffer_bytes_max) :
    ∃ s', s.readOnce want = (.ok (),s') ∧ s.abs.readAhead want = .ok s'.abs ∧ s'.Within := by
  obtain ⟨a,hread,hhealthy⟩ := BoundedStream.readAhead_healthy (s := s.abs) want h.healthy
    (by rw [abs_available]; exact hroom)
  obtain ⟨hahead,-⟩ := BoundedStream.readAhead_ok h.sound hread
  have hlen : s.compact.readLen =
      min stageReadBytes (s.abs.budget.buffer_bytes_max-s.abs.available) := rfl
  have hfits : s.visible.length ≤ s.budget.buffer_bytes_max := h.sound.fits
  unfold BoundedStream.readAhead at hread
  split_ifs at hread with hzero
  cases hnext : s.abs.reader.read s.compact.readLen with
  | error fault => simp [← hlen,hnext] at hread
  | ok next =>
    obtain ⟨bytes,reader⟩ := next
    simp only [← hlen,hnext,Except.ok.injEq] at hread
    subst hread
    have hshort := (Reader.read_ok hnext).2.1
    have hinto : s.compact.reader.readInto s.compact.readLen = (.ok bytes,reader) := by
      rw [Reader.readInto,show s.compact.reader = s.abs.reader from rfl,hnext]
    have hmax : s.visible.length+s.compact.readLen ≤ s.budget.buffer_bytes_max := by
      have havailable : s.abs.available = s.visible.length := rfl
      rw [hlen,havailable]
      exact Nat.add_le_of_le_sub' hfits (Nat.min_le_right _ _)
    simp only [readOnce,if_neg (hlen ▸ hzero),hinto]
    refine ⟨_,rfl,?_,hahead.sound,hhealthy,?_,?_,?_⟩
    · rw [BoundedStream.readAhead,if_neg hzero,← hlen,hnext]
      rfl
    · simp only [compact,length_append]
      omega
    · simp only [compact]
      exact Nat.max_le.mpr ⟨h.peak,by omega⟩
    · simp only [compact,length_append,length_replicate]
      exact Nat.max_le.mpr ⟨h.longest,hmax⟩

theorem fillLoop_refines (h : s.Within) (hwant : want ≤ s.budget.buffer_bytes_max)
    (hrounds : 0 < rounds ∧ (want < s.available+rounds ∨ s.at_end = true)) :
    ∃ s', fillLoop want rounds s = some (.ok (),s') ∧
      BoundedStream.fillLoop want rounds s.abs = .ok s'.abs ∧ s'.Within ∧
        (want ≤ s'.available ∨ s'.at_end = true) := by
  induction rounds generalizing s with
  | zero => omega
  | succ rounds ih =>
    have hend : s.abs.at_end = s.at_end := rfl
    rw [fillLoop,BoundedStream.fillLoop,abs_available,hend]
    by_cases hdone : want ≤ s.available ∨ s.at_end
    · rw [if_pos hdone,if_pos hdone]
      exact ⟨s,rfl,rfl,h,hdone⟩
    · rw [if_neg hdone,if_neg hdone]
      have hshort : s.available < want := Nat.not_le.mp fun hle => hdone (Or.inl hle)
      have hroom := hrounds.2.resolve_right fun hend => hdone (Or.inr hend)
      obtain ⟨mid,honce,hread,hmid⟩ := readOnce_refines want h (by omega)
      obtain ⟨hahead,hmore⟩ := BoundedStream.readAhead_ok h.sound hread
      rw [abs_available,abs_available] at hmore
      have hbudget : mid.budget = s.budget := hahead.budget
      simp only [honce,hread]
      refine ih hmid (hbudget.symm ▸ hwant) ?_
      exact ⟨by omega,hmore.imp_left fun hmore => by omega⟩

theorem fill_refines (h : s.Within) (hwant : want ≤ s.budget.buffer_bytes_max) :
    ∃ s', s.fill want = some (.ok (),s') ∧ s.abs.Ahead s'.abs ∧ s'.Within ∧
      (want ≤ s'.available ∨ s'.reader.rest = []) := by
  have hrounds : 0 < want+1 ∧ (want < s.available+(want+1) ∨ s.at_end = true) := by omega
  obtain ⟨s',hfill,hloop,hs',-⟩ := fillLoop_refines h hwant hrounds
  have hbudget : ¬ s.abs.budget.buffer_bytes_max < want := Nat.not_lt.mpr hwant
  have hfilled : s.abs.fill want = .ok s'.abs := by
    rw [BoundedStream.fill,if_neg hbudget,hloop]
  obtain ⟨hahead,-,hfull⟩ := BoundedStream.fill_ok h.sound hfilled
  rw [abs_available] at hfull
  exact ⟨s',by rw [fill,if_neg (Nat.not_lt.mpr hwant),hfill],hahead,hs',hfull⟩

theorem advance_abs (s : RawStream) (count : Nat) :
    (s.advance count).abs = s.abs.advance (min count s.available) := by
  have hrest : s.buffer.length-(s.start+min count s.available) =
      s.available-min count s.available := by
    simp only [available]
    omega
  simp only [advance,BoundedStream.advance,abs_available]
  split_ifs with hend
  · simp [abs,visible,hend]
  · simp [abs,visible,drop_drop]

inductive StreamCall where
  | window (want : Nat)
  | windowMax
  | advance (count : Nat)

def step (s : RawStream × Bytes) : StreamCall → Option (RawStream × Bytes)
  | .window want => (s.1.window want).map fun out => (out.2,s.2)
  | .windowMax => s.1.windowMax.map fun out => (out.2,s.2)
  | .advance count =>
    some (s.1.advance count,s.2 ++ s.1.visible.take (min count s.1.available))

def run (s : RawStream × Bytes) (calls : List StreamCall) : Option (RawStream × Bytes) :=
  calls.foldlM step s

/-- What was read and what is left are the content, in order. -/
structure Kept (content : Bytes) (budget : StreamBudget) (s : RawStream × Bytes) : Prop where
  within : s.1.Within
  whole : s.2 ++ s.1.abs.remaining = content
  offset : s.1.offset = s.2.length
  budget : s.1.budget = budget

variable {content : Bytes} {budget : StreamBudget}

theorem new_kept (content : Bytes) (offers : List Nat) (budget : StreamBudget) :
    Kept content budget (new ⟨content,offers.map .ok⟩ budget,[]) where
  within := ⟨BoundedStream.new_sound _ _,by simp [Reader.Healthy,new],Nat.zero_le _,
    Nat.zero_le _,Nat.zero_le _⟩
  whole := rfl
  offset := rfl
  budget := rfl

theorem Kept.fill {s : RawStream × Bytes} (h : Kept content budget s)
    (hwant : want ≤ s.1.budget.buffer_bytes_max) :
    ∃ s', s.1.fill want = some (.ok (),s') ∧ Kept content budget (s',s.2) ∧
      (want ≤ s'.available ∨ s'.reader.rest = []) := by
  obtain ⟨s',hfill,hahead,hwithin,hfull⟩ := fill_refines h.within hwant
  refine ⟨s',hfill,⟨hwithin,?_,hahead.offset.trans h.offset,hahead.budget.trans h.budget⟩,hfull⟩
  rw [hahead.remaining]
  exact h.whole

theorem Kept.advance {s : RawStream × Bytes} (h : Kept content budget s) (count : Nat) :
    Kept content budget
      (s.1.advance count,s.2 ++ s.1.visible.take (min count s.1.available)) := by
  have hcount : min count s.1.available ≤ s.1.abs.available := by
    rw [abs_available]
    exact Nat.min_le_right _ _
  have htake : s.1.abs.remaining.take (min count s.1.available) =
      s.1.visible.take (min count s.1.available) := take_append_of_le_length hcount
  have hpast := (BoundedStream.Ahead.refl h.within.sound).past_advance hcount
  rw [htake,← advance_abs] at hpast
  have hlength : (s.1.advance count).buffer.length ≤ s.1.buffer.length := by
    simp only [RawStream.advance]
    split_ifs <;> simp
  have hsame : (s.1.advance count).reader = s.1.reader ∧
      (s.1.advance count).budget = s.1.budget ∧
      (s.1.advance count).peak_bytes = s.1.peak_bytes ∧
      (s.1.advance count).longest = s.1.longest := by
    simp only [RawStream.advance]
    split_ifs <;> simp
  obtain ⟨hreader,hbudget,hpeak,hlongest⟩ := hsame
  refine ⟨⟨hpast.sound,hreader ▸ h.within.healthy,?_,?_,?_⟩,?_,?_,hbudget.trans h.budget⟩
  · rw [hbudget]
    exact hlength.trans h.within.held
  · rw [hpeak,hbudget]
    exact h.within.peak
  · rw [hlongest,hbudget]
    exact h.within.longest
  · rw [append_assoc,← hpast.remaining]
    exact h.whole
  · rw [length_append,← h.offset]
    exact hpast.offset

theorem Kept.step {s : RawStream × Bytes} (h : Kept content budget s) (call : StreamCall) :
    ∃ s', RawStream.step s call = some s' ∧ Kept content budget s' := by
  cases call with
  | advance count => exact ⟨_,rfl,h.advance count⟩
  | windowMax =>
    obtain ⟨s',hfill,hs',-⟩ := h.fill (Nat.le_refl _)
    exact ⟨_,by rw [RawStream.step,windowMax,hfill]; rfl,hs'⟩
  | window want =>
    by_cases hwant : want ≤ s.1.budget.buffer_bytes_max
    · obtain ⟨s',hfill,hs',-⟩ := h.fill hwant
      exact ⟨_,by rw [RawStream.step,window,hfill]; rfl,hs'⟩
    · refine ⟨s,?_,h⟩
      rw [RawStream.step,window,RawStream.fill,if_pos (Nat.not_le.mp hwant)]
      rfl

theorem Kept.run {s : RawStream × Bytes} (h : Kept content budget s) (calls : List StreamCall) :
    ∃ s', RawStream.run s calls = some s' ∧ Kept content budget s' := by
  induction calls generalizing s with
  | nil => exact ⟨s,rfl,h⟩
  | cons call calls ih =>
    obtain ⟨mid,hstep,hmid⟩ := h.step call
    obtain ⟨s',hrun,hs'⟩ := ih hmid
    refine ⟨s',?_,hs'⟩
    rw [RawStream.run,foldlM_cons,hstep]
    exact hrun

/-- However short the reads are: every call returns, what is consumed is the front of
the content, and a call within the budget shows the next bytes of it. -/
theorem bytes_read_in_order (content : Bytes) (offers : List Nat) (budget : StreamBudget)
    (calls : List StreamCall) :
    ∃ s taken, run (new ⟨content,offers.map .ok⟩ budget,[]) calls = some (s,taken) ∧
      taken <+: content ∧ s.offset = taken.length ∧
      s.buffer.length ≤ budget.buffer_bytes_max ∧ s.longest ≤ budget.buffer_bytes_max ∧
      s.peak_bytes ≤ budget.buffer_bytes_max ∧
      ∀ want ≤ budget.buffer_bytes_max, ∃ bytes s', s.window want = some (.ok bytes,s') ∧
        bytes = (content.drop taken.length).take want ∧
        (bytes.length < want → s'.reader.rest = [] ∧ taken ++ bytes = content) := by
  obtain ⟨⟨s,taken⟩,hrun,h⟩ := (new_kept content offers budget).run calls
  have hwithin := h.within
  have hbudget : s.budget = budget := h.budget
  refine ⟨s,taken,hrun,⟨_,h.whole⟩,h.offset,hbudget ▸ hwithin.held,hbudget ▸ hwithin.longest,
    hbudget ▸ hwithin.peak,fun want hwant => ?_⟩
  obtain ⟨s',hfill,hs',hfull⟩ := h.fill (hbudget.symm ▸ hwant)
  have hwhole : taken ++ (s'.visible ++ s'.reader.rest) = content := hs'.whole
  refine ⟨s'.visible.take want,s',by rw [window,hfill]; rfl,?_,fun hshort => ?_⟩
  · rw [← hwhole,drop_left]
    rcases hfull with hfull | hend
    · rw [take_append_of_le_length (available_eq ▸ hfull)]
    · rw [hend,append_nil]
  · rw [length_take,← available_eq] at hshort
    have hend := hfull.resolve_left (by omega)
    rw [take_of_length_le (by rw [← available_eq]; omega)]
    rw [hend,append_nil] at hwhole
    exact ⟨hend,hwhole⟩

end RawStream
end ProjectOS.Ingest
