import ProjectOS.Domain.Ingest

/-! A forward-only, capped window over a reader. Whatever the reader hands over
at a time, a window shows the next bytes of the content. -/

namespace ProjectOS.Ingest
open Domain List

def stageReadBytes : Nat := 256*1024
def stageBufferBytesMaxDefault : Nat := 32*1024*1024

inductive StreamError where
  | bufferBudgetExceeded (stage : IngestStage) (wanted_bytes budget_bytes : Nat)
  | io (operation fault : String)
  | limitExceeded (limit : String) (value limit_value : Nat)
  | notUtf8 (byte_offset : Nat)
  deriving DecidableEq

/-- Content behind a reader, which chooses how many bytes it gives and when it
fails. -/
structure Reader where
  rest : Bytes
  offers : List (Except String Nat)

def Reader.read (r : Reader) (len : Nat) : Except String (Bytes × Reader) :=
  match r.offers with
  | [] => .ok (r.rest.take len,⟨r.rest.drop len,[]⟩)
  | .error fault :: _ => .error fault
  | .ok offer :: offers =>
    .ok (r.rest.take (min len (offer+1)),⟨r.rest.drop (min len (offer+1)),offers⟩)

def Reader.Healthy (r : Reader) : Prop := ∀ offer ∈ r.offers, ∃ count, offer = .ok count

theorem Reader.read_ok {r r' : Reader} {len : Nat} {bytes : Bytes}
    (h : r.read len = .ok (bytes,r')) :
    bytes ++ r'.rest = r.rest ∧ bytes.length ≤ len ∧ (0 < len → bytes = [] → r'.rest = []) := by
  unfold read at h
  split at h
  all_goals simp only [Except.ok.injEq,Prod.mk.injEq,reduceCtorEq] at h
  all_goals
    obtain ⟨rfl,rfl⟩ := h
    refine ⟨take_append_drop _ _,?_,?_⟩
    · simp only [length_take]
      omega
    · intro hlen hnil
      rw [take_eq_nil_iff] at hnil
      rcases hnil with hnil | hnil
      · omega
      · simp [hnil]

theorem Reader.read_healthy {r : Reader} (h : r.Healthy) (len : Nat) :
    ∃ bytes r', r.read len = .ok (bytes,r') ∧ r'.Healthy := by
  obtain ⟨rest,offers⟩ := r
  cases offers with
  | nil => exact ⟨_,_,rfl,h⟩
  | cons offer offers =>
    obtain ⟨count,rfl⟩ := h offer mem_cons_self
    exact ⟨_,_,rfl,fun o ho => h o (mem_cons_of_mem _ ho)⟩

structure StreamBudget where
  stage : IngestStage
  buffer_bytes_max : Nat

structure BoundedStream where
  reader : Reader
  budget : StreamBudget
  buffer : Bytes
  read_total : Nat
  consumed_total : Nat
  at_end : Bool

namespace BoundedStream

def new (reader : Reader) (budget : StreamBudget) : BoundedStream where
  reader := reader
  budget := budget
  buffer := []
  read_total := 0
  consumed_total := 0
  at_end := false

def available (s : BoundedStream) : Nat := s.buffer.length

def offset (s : BoundedStream) : Nat := s.consumed_total

def remaining (s : BoundedStream) : Bytes := s.buffer ++ s.reader.rest

def overBudget (s : BoundedStream) (want : Nat) : StreamError :=
  .bufferBudgetExceeded s.budget.stage want s.budget.buffer_bytes_max

def readAhead (s : BoundedStream) (want : Nat) : Except StreamError BoundedStream :=
  if min stageReadBytes (s.budget.buffer_bytes_max-s.available) = 0 then .error (s.overBudget want)
  else
    match s.reader.read (min stageReadBytes (s.budget.buffer_bytes_max-s.available)) with
    | .error fault => .error (.io "read ingested content" fault)
    | .ok (bytes,reader) =>
      .ok { s with
        reader := reader
        buffer := s.buffer ++ bytes
        read_total := s.read_total+bytes.length
        at_end := bytes.isEmpty }

def fillLoop (want : Nat) : Nat → BoundedStream → Except StreamError BoundedStream
  | 0, s => .ok s
  | rounds+1, s =>
    if want ≤ s.available ∨ s.at_end then .ok s
    else
      match s.readAhead want with
      | .error e => .error e
      | .ok s => fillLoop want rounds s

def fill (s : BoundedStream) (want : Nat) : Except StreamError BoundedStream :=
  if s.budget.buffer_bytes_max < want then .error (s.overBudget want)
  else fillLoop want (want+1) s

def window (s : BoundedStream) (want : Nat) : Except StreamError (Bytes × BoundedStream) :=
  match s.fill want with
  | .error e => .error e
  | .ok s => .ok (s.buffer.take want,s)

def windowMax (s : BoundedStream) : Except StreamError (Bytes × BoundedStream) :=
  match s.fill s.budget.buffer_bytes_max with
  | .error e => .error e
  | .ok s => .ok (s.buffer,s)

def advance (s : BoundedStream) (count : Nat) : BoundedStream :=
  { s with
    buffer := s.buffer.drop count
    consumed_total := s.consumed_total + min count s.available }

/-- The buffer is within its budget, and accounts for every byte read. -/
structure Sound (s : BoundedStream) : Prop where
  fits : s.available ≤ s.budget.buffer_bytes_max
  ended : s.at_end = true → s.reader.rest = []
  counted : s.read_total = s.consumed_total+s.available

theorem new_sound (reader : Reader) (budget : StreamBudget) : (new reader budget).Sound :=
  ⟨Nat.zero_le _,by simp [new],rfl⟩

/-- The stream at the same place, with more of it in the buffer. -/
structure Ahead (s s' : BoundedStream) : Prop where
  sound : s'.Sound
  remaining : s'.remaining = s.remaining
  budget : s'.budget = s.budget
  offset : s'.offset = s.offset

variable {s s' : BoundedStream} {want : Nat}

theorem Ahead.refl (hs : s.Sound) : s.Ahead s := ⟨hs,rfl,rfl,rfl⟩

theorem Ahead.trans {s₁ s₂ s₃ : BoundedStream} (h : s₁.Ahead s₂) (h' : s₂.Ahead s₃) : s₁.Ahead s₃ :=
  ⟨h'.sound,h'.remaining.trans h.remaining,h'.budget.trans h.budget,h'.offset.trans h.offset⟩

theorem readAhead_ok (hs : s.Sound) (h : s.readAhead want = .ok s') :
    s.Ahead s' ∧ (s.available < s'.available ∨ s'.at_end = true) := by
  unfold readAhead at h
  split_ifs at h with hroom
  generalize hlen : min stageReadBytes (s.budget.buffer_bytes_max-s.available) = len at h hroom
  cases hread : s.reader.read len with
  | error fault => simp [hread] at h
  | ok next =>
    obtain ⟨bytes,reader⟩ := next
    obtain ⟨hrest,hle,hend⟩ := Reader.read_ok hread
    simp only [hread,Except.ok.injEq] at h
    subst h
    have hfits := hs.fits
    have hcounted := hs.counted
    refine ⟨⟨⟨?_,?_,?_⟩,?_,rfl,rfl⟩,?_⟩
    · simp only [available,length_append] at hlen hfits ⊢
      omega
    · intro hnil
      exact hend (Nat.pos_of_ne_zero hroom) (isEmpty_iff.mp hnil)
    · simp only [available,length_append] at hcounted ⊢
      omega
    · simp only [remaining,append_assoc,hrest]
    · cases bytes with
      | nil => exact Or.inr rfl
      | cons c bytes =>
        left
        simp only [available,length_append,length_cons]
        omega

variable {rounds : Nat}

theorem fillLoop_ended (h : s.at_end = true) : fillLoop want rounds s = .ok s := by
  cases rounds with
  | zero => rfl
  | succ rounds => rw [fillLoop,if_pos (Or.inr h)]

theorem fillLoop_ok (hs : s.Sound) (h : fillLoop want rounds s = .ok s') :
    s.Ahead s' ∧ (want < s.available+rounds → want ≤ s'.available ∨ s'.reader.rest = []) := by
  induction rounds generalizing s with
  | zero =>
    simp only [fillLoop,Except.ok.injEq] at h
    subst h
    exact ⟨.refl hs,fun hlt => Or.inl (by omega)⟩
  | succ rounds ih =>
    rw [fillLoop] at h
    split_ifs at h with hdone
    · simp only [Except.ok.injEq] at h
      subst h
      exact ⟨.refl hs,fun _ => hdone.imp_right hs.ended⟩
    · cases hread : s.readAhead want with
      | error e => simp [hread] at h
      | ok s₁ =>
        simp only [hread] at h
        obtain ⟨hahead,hmore⟩ := readAhead_ok hs hread
        obtain ⟨hrest,hfull⟩ := ih hahead.sound h
        refine ⟨hahead.trans hrest,?_⟩
        intro hlt
        rcases hmore with hmore | hend
        · exact hfull (by omega)
        · rw [fillLoop_ended hend,Except.ok.injEq] at h
          subst h
          exact Or.inr (hahead.sound.ended hend)

theorem fill_ok (hs : s.Sound) (h : s.fill want = .ok s') :
    s.Ahead s' ∧ want ≤ s.budget.buffer_bytes_max ∧
      (want ≤ s'.available ∨ s'.reader.rest = []) := by
  unfold fill at h
  split_ifs at h with hbudget
  obtain ⟨hahead,hfull⟩ := fillLoop_ok hs h
  exact ⟨hahead,Nat.not_lt.mp hbudget,hfull (by omega)⟩

variable {bytes : Bytes}

theorem window_ok (hs : s.Sound) (h : s.window want = .ok (bytes,s')) :
    s.Ahead s' ∧ want ≤ s.budget.buffer_bytes_max ∧ bytes = s.remaining.take want ∧
      bytes.length ≤ s'.available := by
  unfold window at h
  cases hfill : s.fill want with
  | error e => simp [hfill] at h
  | ok s₁ =>
    simp only [hfill,Except.ok.injEq,Prod.mk.injEq] at h
    obtain ⟨rfl,rfl⟩ := h
    obtain ⟨hahead,hbudget,hfull⟩ := fill_ok hs hfill
    refine ⟨hahead,hbudget,?_,by simp [available]⟩
    rw [← hahead.remaining,remaining]
    rcases hfull with hfull | hend
    · rw [take_append_of_le_length hfull]
    · rw [hend,append_nil]

theorem windowMax_ok (hs : s.Sound) (h : s.windowMax = .ok (bytes,s')) :
    s.Ahead s' ∧ bytes = s.remaining.take s.budget.buffer_bytes_max ∧ bytes = s'.buffer := by
  unfold windowMax at h
  cases hfill : s.fill s.budget.buffer_bytes_max with
  | error e => simp [hfill] at h
  | ok s₁ =>
    simp only [hfill,Except.ok.injEq,Prod.mk.injEq] at h
    obtain ⟨rfl,rfl⟩ := h
    obtain ⟨hahead,-,hfull⟩ := fill_ok hs hfill
    refine ⟨hahead,?_,rfl⟩
    have hfits := hahead.sound.fits
    rw [hahead.budget] at hfits
    rw [← hahead.remaining,remaining]
    rcases hfull with hfull | hend
    · rw [take_append_of_le_length hfull,take_of_length_le hfits]
    · rw [hend,append_nil,take_of_length_le hfits]

variable {count : Nat}

theorem advance_sound (hs : s.Sound) : (s.advance count).Sound := by
  have hfits := hs.fits
  have hcounted := hs.counted
  refine ⟨?_,hs.ended,?_⟩
  · simp only [advance,available,length_drop] at hfits ⊢
    omega
  · simp only [advance,available,length_drop] at hcounted ⊢
    omega

theorem advance_remaining (h : count ≤ s.available) :
    (s.advance count).remaining = s.remaining.drop count := by
  rw [remaining,remaining,drop_append_of_le_length h]
  rfl

theorem advance_offset (h : count ≤ s.available) : (s.advance count).offset = s.offset+count := by
  simp only [advance,offset]
  omega

theorem readAhead_healthy (want : Nat) (hr : s.reader.Healthy)
    (hroom : s.available < s.budget.buffer_bytes_max) :
    ∃ s', s.readAhead want = .ok s' ∧ s'.reader.Healthy := by
  have hlen : min stageReadBytes (s.budget.buffer_bytes_max-s.available) ≠ 0 := by
    simp only [stageReadBytes]
    omega
  obtain ⟨bytes,reader,hread,hreader⟩ := Reader.read_healthy hr
    (min stageReadBytes (s.budget.buffer_bytes_max-s.available))
  exact ⟨_,by rw [readAhead,if_neg hlen,hread],hreader⟩

theorem fillLoop_healthy (hr : s.reader.Healthy) (hs : s.Sound)
    (hwant : want ≤ s.budget.buffer_bytes_max) :
    ∃ s', fillLoop want rounds s = .ok s' ∧ s'.reader.Healthy := by
  induction rounds generalizing s with
  | zero => exact ⟨s,rfl,hr⟩
  | succ rounds ih =>
    rw [fillLoop]
    split_ifs with hdone
    · exact ⟨s,rfl,hr⟩
    · obtain ⟨s₁,hread,hreader⟩ := readAhead_healthy want hr (by
        rw [not_or] at hdone
        omega)
      obtain ⟨hahead,-⟩ := readAhead_ok hs hread
      rw [hread]
      exact ih hreader hahead.sound (by rw [hahead.budget]; exact hwant)

theorem fill_healthy (hr : s.reader.Healthy) (hs : s.Sound)
    (hwant : want ≤ s.budget.buffer_bytes_max) :
    ∃ s', s.fill want = .ok s' ∧ s'.reader.Healthy := by
  rw [fill,if_neg (Nat.not_lt.mpr hwant)]
  exact fillLoop_healthy hr hs hwant

theorem windowMax_healthy (hr : s.reader.Healthy) (hs : s.Sound) :
    ∃ bytes s', s.windowMax = .ok (bytes,s') ∧ s'.reader.Healthy := by
  obtain ⟨s',hfill,hreader⟩ := fill_healthy hr hs (Nat.le_refl _)
  exact ⟨s'.buffer,s',by rw [windowMax,hfill],hreader⟩

/-- The stream with some bytes taken from its front. -/
structure Past (s : BoundedStream) (bytes : Bytes) (s' : BoundedStream) : Prop where
  sound : s'.Sound
  remaining : s.remaining = bytes ++ s'.remaining
  budget : s'.budget = s.budget
  offset : s'.offset = s.offset+bytes.length

theorem Past.trans {s₁ s₂ s₃ : BoundedStream} {xs ys : Bytes} (h : s₁.Past xs s₂)
    (h' : s₂.Past ys s₃) : s₁.Past (xs ++ ys) s₃ where
  sound := h'.sound
  remaining := by rw [h.remaining,h'.remaining,append_assoc]
  budget := h'.budget.trans h.budget
  offset := by rw [h'.offset,h.offset,length_append,Nat.add_assoc]

theorem Ahead.past (h : s.Ahead s') : s.Past [] s' :=
  ⟨h.sound,h.remaining.symm,h.budget,h.offset⟩

theorem Ahead.past_advance (h : s.Ahead s') (hcount : count ≤ s'.available) :
    s.Past (s.remaining.take count) (s'.advance count) where
  sound := advance_sound h.sound
  remaining := by rw [advance_remaining hcount,h.remaining,take_append_drop]
  budget := h.budget
  offset := by
    rw [advance_offset hcount,h.offset,length_take,← h.remaining,min_eq_left]
    simp only [BoundedStream.remaining,length_append,available] at hcount ⊢
    omega

theorem Sound.read_total_eq (hs : s.Sound) (h : s.remaining = []) : s.read_total = s.offset := by
  have hcounted := hs.counted
  simp only [BoundedStream.remaining,append_eq_nil_iff] at h
  simpa [available,h.1,offset] using hcounted

theorem windowMax_past {window : Bytes} (hs : s.Sound) (h : s.windowMax = .ok (window,s')) :
    window = s.remaining.take s.budget.buffer_bytes_max ∧ (s'.advance window.length).Sound ∧
      (s'.advance window.length).remaining = s.remaining.drop s.budget.buffer_bytes_max ∧
      (s'.advance window.length).budget = s.budget := by
  obtain ⟨hahead,hwindow,hbuffer⟩ := windowMax_ok hs h
  have havail : window.length = s'.available := by
    rw [hbuffer]
    rfl
  refine ⟨hwindow,advance_sound hahead.sound,?_,hahead.budget⟩
  rw [advance_remaining havail.le,hahead.remaining,hwindow,length_take]
  rcases Nat.le_total s.budget.buffer_bytes_max s.remaining.length with hle | hle
  · rw [min_eq_left hle]
  · rw [min_eq_right hle,drop_length,drop_eq_nil_of_le hle]

variable {e : StreamError}

theorem readAhead_error (h : s.readAhead want = .error e) (limit : String)
    (value limit_value : Nat) : e ≠ .limitExceeded limit value limit_value := by
  unfold readAhead at h
  split_ifs at h
  · cases h
    simp [overBudget]
  · split at h
    · cases h
      simp
    · cases h

theorem fillLoop_error (h : fillLoop want rounds s = .error e) (limit : String)
    (value limit_value : Nat) : e ≠ .limitExceeded limit value limit_value := by
  induction rounds generalizing s with
  | zero => cases h
  | succ rounds ih =>
    rw [fillLoop] at h
    split_ifs at h
    cases hstep : s.readAhead want with
    | error e' =>
      rw [hstep] at h
      cases h
      exact readAhead_error hstep limit value limit_value
    | ok s₁ =>
      rw [hstep] at h
      exact ih h

theorem fill_error (h : s.fill want = .error e) (limit : String) (value limit_value : Nat) :
    e ≠ .limitExceeded limit value limit_value := by
  unfold fill at h
  split_ifs at h
  · cases h
    simp [overBudget]
  · exact fillLoop_error h limit value limit_value

theorem window_error (h : s.window want = .error e) (limit : String) (value limit_value : Nat) :
    e ≠ .limitExceeded limit value limit_value := by
  unfold window at h
  split at h
  · rename_i hfill
    cases h
    exact fill_error hfill limit value limit_value
  · cases h

theorem windowMax_error (h : s.windowMax = .error e) (limit : String) (value limit_value : Nat) :
    e ≠ .limitExceeded limit value limit_value := by
  unfold windowMax at h
  split at h
  · rename_i hfill
    cases h
    exact fill_error hfill limit value limit_value
  · cases h

structure Live (s : BoundedStream) : Prop where
  sound : s.Sound
  healthy : s.reader.Healthy
  opened : 0 < s.budget.buffer_bytes_max

end BoundedStream
end ProjectOS.Ingest
