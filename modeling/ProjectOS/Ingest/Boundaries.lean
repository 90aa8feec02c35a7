import ProjectOS.Ingest.Spans

/-! Where windows are cut: through a character, or through a segment that would
have fitted. -/

namespace ProjectOS.Ingest
open Lib Domain Sched List

section
variable {p : ChunkParams} {text : Bytes} {segments : List Segment}

theorem mem_places (p : ChunkParams) (text : Bytes) {segments : List Segment} {w : Window} :
    (∃ place ∈ places p text segments, place.1 = w) ↔ ∃ g ∈ groupsOf p segments, windowOf g = w := by
  rw [← mem_map,places,placed_windows,mem_map]

theorem exists_draft {place : Window × Nat} (hplace : place ∈ places p text segments)
    (hsize : 0 < p.bytesMax) {n : Nat} {b : UInt8} (hn : n < place.1.byteLen)
    (hget : text[place.2+n]? = some b) (hb : isAsciiWhitespace b = false) :
    ∃ d ∈ draftsOf p text segments, ∃ k, d.window = place.1 ∧ d.low = k*p.bytesMax ∧
      d.high = min (k*p.bytesMax+p.bytesMax) place.1.byteLen ∧ d.low ≤ n ∧ n < d.high := by
  obtain ⟨part,hpart,hlow,hhigh⟩ := pieces_cover hsize (Nat.le_refl place.1.byteLen)
    (Nat.zero_le n) (by omega)
  obtain ⟨k,hstart,-,hend⟩ := (mem_pieces hsize (Nat.le_refl _)).mp hpart
  rw [Nat.zero_add] at hstart hend
  refine ⟨⟨place.1,place.2,part.1,part.2⟩,mem_draftsOf.mpr ⟨place,hplace,?_⟩,k,rfl,hstart,?_,
    hlow,hhigh⟩
  · refine mem_draftsIn.mpr ⟨rfl,rfl,hpart,hasContent_slice.mpr ⟨n-part.1,b,?_,?_,hb⟩⟩
    · dsimp only
      omega
    · have hplaceAt : place.2+part.1+(n-part.1) = place.2+n := by omega
      dsimp only
      rw [hplaceAt,hget]
  · dsimp only
    rw [hend,hstart]

theorem draft_split {d : Draft} (h : d ∈ draftsOf p text segments) :
    ∃ place ∈ places p text segments, d.window = place.1 ∧ d.low < d.high ∧ 0 < p.bytesMax ∧
      (∃ k, d.low = k*p.bytesMax ∧ d.high = min (k*p.bytesMax+p.bytesMax) place.1.byteLen) ∧
      ∃ n b, d.low ≤ n ∧ n < d.high ∧ text[place.2+n]? = some b ∧ isAsciiWhitespace b = false := by
  obtain ⟨place,hplace,hmem⟩ := mem_draftsOf.mp h
  obtain ⟨hwindow,horigin,hlow,hlength,hhigh⟩ := windowDrafts_size hmem
  have hsize : 0 < p.bytesMax := by omega
  obtain ⟨-,-,hpart,hcontent⟩ := mem_draftsIn.mp hmem
  obtain ⟨k,hstart,-,hend⟩ := (mem_pieces hsize (Nat.le_refl _)).mp hpart
  rw [Nat.zero_add] at hstart hend
  refine ⟨place,hplace,hwindow,hlow,hsize,⟨k,hstart,by rw [hend,hstart]⟩,?_⟩
  obtain ⟨j,b,hj,hget,hb⟩ := hasContent_slice.mp hcontent
  exact ⟨d.low+j,b,by omega,by omega,by rw [← horigin,← Nat.add_assoc,hget],hb⟩

end

def CutAt (p : ChunkParams) (segments : List Segment) (n : Nat) : Prop :=
  ∃ g ∈ groupsOf p segments, ∃ k, n = (windowOf g).byte_start+k*p.bytesMax ∧
    n < (windowOf g).byte_end

structure OnCharacters (text : List Char) (x : ChunkFact) : Prop where
  starts : CharBoundary text x.byte_start
  ends : CharBoundary text x.byte_end
  decodes : ∃ part, decodeUtf8 (((encode text).drop x.byte_start).take (x.byte_end-x.byte_start)) =
    some part

namespace ChunkRun

variable {segments : List Segment} {text : List Char}

theorem onCharacters_of_cuts {R : ChunkRun}
    (hboundary : ∀ s ∈ segments, CharBoundary text s.byte_start ∧ CharBoundary text s.byte_end)
    (hcuts : ∀ n, CutAt R.params segments n → CharBoundary text n) {x : ChunkFact}
    (hx : x ∈ R.factsOf (encode text) (draftsOf R.params (encode text) segments)) :
    OnCharacters text x := by
  obtain ⟨i,d,hd,rfl⟩ := mem_factsOf.mp hx
  obtain ⟨place,hplace,hwindow,hlow,hsize,⟨k,hstart,hend⟩,-⟩ :=
    draft_split (mem_of_getElem? hd)
  obtain ⟨g,hg,hgroup⟩ := (mem_places _ _).mp ⟨place,hplace,rfl⟩
  have hlen : place.1.byteLen = place.1.byte_end-place.1.byte_start := rfl
  have hfirst : CharBoundary text (d.window.byte_start+d.low) := by
    refine hcuts _ ⟨g,hg,k,?_,?_⟩
    · rw [hwindow,hgroup,hstart]
    · rw [hwindow,hgroup]
      omega
  have hlast : CharBoundary text (d.window.byte_start+d.high) := by
    by_cases hfull : k*R.params.bytesMax+R.params.bytesMax < place.1.byteLen
    · refine hcuts _ ⟨g,hg,k+1,?_,?_⟩
      · rw [hwindow,hgroup,Nat.succ_mul]
        omega
      · rw [hwindow,hgroup]
        omega
    · obtain ⟨s,hs,hlast⟩ := (windowOf_ends (groupsFrom_ne_nil hg)).2
      have hstop : d.window.byte_start+d.high = s.byte_end := by
        rw [← hlast,hgroup,hwindow]
        omega
      rw [hstop]
      exact (hboundary s (mem_groupsOf.mp ⟨g,hg,hs⟩)).2
  obtain ⟨part,hpart⟩ := hfirst.slice hlast (by omega)
  exact ⟨hfirst,hlast,part,decodeUtf8_eq_some.mpr hpart.symm⟩

theorem blank_lt {b : UInt8} (h : isAsciiWhitespace b = true) : b.toNat < 128 := by
  simp only [isAsciiWhitespace,Bool.or_eq_true,beq_iff_eq] at h
  rcases h with (((rfl | rfl) | rfl) | rfl) | rfl
  all_goals decide

theorem cuts_of_onCharacters {R : ChunkRun}
    {index : List (Except StreamError Segment)} {reader : Reader} {budget : StreamBudget}
    {product : Product} (hrest : reader.rest = encode text) (horder : Ascending (yielded index))
    (hwithin : ∀ s ∈ yielded index, s.byte_end ≤ reader.rest.length)
    (hrun : R.chunkEvidence index reader budget = .ok product)
    (hchunks : ∀ x ∈ emitted (R.chunkEvidence index reader budget), OnCharacters text x) {n : Nat}
    (hcut : CutAt R.params (yielded index) n) : CharBoundary text n := by
  obtain ⟨g,hg,k,hn,hlt⟩ := hcut
  have hends := chunkEvidence_ends R reader budget index
  rw [hrun] at hends hchunks
  rw [emitted,hends.facts] at hchunks
  obtain ⟨place,hplace,hwindow⟩ := (mem_places R.params reader.rest).mpr ⟨g,hg,rfl⟩
  have hat := places_at horder hwithin hplace
  have hlen : place.1.byteLen = place.1.byte_end-place.1.byte_start := rfl
  have hsize : 0 < R.params.bytesMax := by
    have hsized := hends.sized (windowOf g) (mem_map_of_mem hg)
    rw [← hwindow] at hsized hn hlt
    omega
  rw [← hwindow] at hn hlt
  have hinside : n < reader.rest.length := by omega
  have hget : reader.rest[place.2+k*R.params.bytesMax]? = some reader.rest[n] := by
    rw [hat.2.2.2 hsize,← hn,List.getElem?_eq_getElem hinside]
  cases hblank : isAsciiWhitespace reader.rest[n] with
  | true =>
    refine charBoundary_of_ascii (b := reader.rest[n]) ?_ (blank_lt hblank)
    rw [← hrest,List.getElem?_eq_getElem hinside]
  | false =>
    -- The piece that begins here has content, so it has a chunk.
    obtain ⟨d,hd,j,hd₁,hd₂,hd₃,hlow,hhigh⟩ := exists_draft hplace hsize (by omega) hget hblank
    obtain ⟨x,hx,hstart,-⟩ := exists_factOf R reader.rest hd
    have hsame : j = k := by
      have hle : j ≤ k := Nat.le_of_mul_le_mul_right (by omega) hsize
      have hlt : k < j+1 := Nat.lt_of_mul_lt_mul_right (a := R.params.bytesMax) (by
        rw [Nat.succ_mul]
        omega)
      omega
    have hfirst := (hchunks x hx).starts
    rw [hstart,Draft.byte_start,hd₁,hd₂,hsame,← hn] at hfirst
    exact hfirst

/-- In every run the chunks are texts if no window is cut through a character, and
in a run that comes through only if none is. -/
theorem on_characters_iff (R : ChunkRun) (text : List Char)
    (index : List (Except StreamError Segment)) (reader : Reader) (budget : StreamBudget)
    (hrest : reader.rest = encode text) (horder : Ascending (yielded index))
    (hboundary : ∀ s ∈ yielded index,
      CharBoundary text s.byte_start ∧ CharBoundary text s.byte_end) :
    ((∀ n, CutAt R.params (yielded index) n → CharBoundary text n) →
      ∀ x ∈ emitted (R.chunkEvidence index reader budget), OnCharacters text x) ∧
    ∀ product, R.chunkEvidence index reader budget = .ok product →
      ((∀ x ∈ emitted (R.chunkEvidence index reader budget), OnCharacters text x) ↔
        ∀ n, CutAt R.params (yielded index) n → CharBoundary text n) := by
  have hwithin : ∀ s ∈ yielded index, s.byte_end ≤ reader.rest.length := by
    intro s hs
    rw [hrest]
    exact (hboundary s hs).2.le
  have hgiven : (∀ n, CutAt R.params (yielded index) n → CharBoundary text n) →
      ∀ x ∈ emitted (R.chunkEvidence index reader budget), OnCharacters text x := by
    intro hcuts x hx
    have hfact := (emitted_first index reader budget horder hwithin).subset hx
    rw [hrest] at hfact
    exact onCharacters_of_cuts hboundary hcuts hfact
  refine ⟨hgiven,?_⟩
  intro product hrun
  refine ⟨?_,hgiven⟩
  intro hchunks n hcut
  exact cuts_of_onCharacters hrest horder hwithin hrun hchunks hcut

theorem draftsOf_single {p : ChunkParams} {text : Bytes} {w : Window}
    (h : (groupsOf p segments).map windowOf = [w]) :
    (draftsOf p text segments).length ≤ (pieces p.bytesMax w.byteLen 0 w.byteLen).length := by
  rw [draftsOf,h,draftsFrom,placed,placed,flatMap_cons,flatMap_nil,append_nil]
  exact (length_filter_le _ _).trans (length_map _).le

theorem single_ok (R : ChunkRun) {text : Bytes} {w : Window} (budget : StreamBudget)
    (horder : Ascending segments) (hwithin : ∀ s ∈ segments, s.byte_end ≤ text.length)
    (hwindow : (groupsOf R.params segments).map windowOf = [w]) (hsize : 0 < R.params.bytesMax)
    (hcount : (pieces R.params.bytesMax w.byteLen 0 w.byteLen).length ≤ chunkCountMax)
    (happends : ∀ n, R.appends n = .ok ()) (hbudget : R.params.bytesMax ≤ budget.buffer_bytes_max) :
    ∃ product, R.chunkEvidence (segments.map .ok) ⟨text,[]⟩ budget = .ok product := by
  cases hrun : R.chunkEvidence (segments.map .ok) ⟨text,[]⟩ budget with
  | ok product => exact ⟨product,rfl⟩
  | error stop =>
    have hhindered := chunkEvidence_error (by rwa [yielded_map]) (by rwa [yielded_map]) hrun
    exfalso
    rw [yielded_map] at hhindered
    cases hhindered with
    | reader h => exact h (by simp [Reader.Healthy])
    | budget | size => omega
    | log n error h => simp [happends] at h
    | index error h => simp at h
    | count h =>
      exact absurd ((draftsOf_single hwindow).trans hcount) (Nat.not_le.mpr h)

def greeting : List Char := "Grüße".toList

def greetingIndex : List (Except StreamError Segment) := [.ok ⟨0,7,.messageRange 0 0,0⟩]

def messageRun : ChunkRun := { noteRun with params := chunkParamsFor .message }

def greetingChunked : Except (ChunkStop × ChunkEmitter) Product :=
  messageRun.chunkEvidence greetingIndex ⟨encode greeting,[]⟩ ⟨.chunk,4096⟩

theorem greeting_on_characters : emitted greetingChunked ≠ [] ∧
    ∀ x ∈ emitted greetingChunked, OnCharacters greeting x := by
  refine ⟨by decide,(on_characters_iff messageRun greeting greetingIndex
    ⟨encode greeting,[]⟩ ⟨.chunk,4096⟩ rfl
    ⟨by decide,by decide⟩ ?_).1 ?_⟩
  · intro s hs
    obtain rfl := mem_singleton.mp hs
    exact ⟨⟨[],greeting,rfl,rfl⟩,greeting,[],rfl,by decide⟩
  · rintro n ⟨g,hg,k,hn,hlt⟩
    have hgroups : groupsOf messageRun.params (yielded greetingIndex) =
        [[⟨0,7,.messageRange 0 0,0⟩]] := by decide
    rw [hgroups] at hg
    obtain rfl := mem_singleton.mp hg
    have hstart : n = 0+k*1600 := hn
    have hstop : n < 7 := hlt
    exact ⟨[],greeting,rfl,by simp only [byteLen]; omega⟩

def accentText : List Char := List.replicate 1599 'a' ++ [Char.ofNat 233]

def accentSegments : List Segment := [⟨0,1601,.messageRange 0 0,0⟩]

def accentChunked : Except (ChunkStop × ChunkEmitter) Product :=
  messageRun.chunkEvidence (accentSegments.map .ok) ⟨encode accentText,[]⟩ ⟨.chunk,4096⟩

theorem byteLen_replicate (n : Nat) : byteLen (List.replicate n 'a') = n := by
  induction n with
  | zero => rfl
  | succ n ih =>
    have hsize : 'a'.utf8Size = 1 := by decide
    rw [replicate_succ,byteLen,ih,hsize,Nat.add_comm]

theorem accent_inside : ¬ CharBoundary accentText 1600 := by
  have hlen : byteLen accentText = 1601 := by
    rw [accentText,byteLen_append,byteLen_replicate]
    rfl
  rintro ⟨front,back,htext,hfront⟩
  rcases eq_nil_or_concat back with rfl | ⟨back,c,rfl⟩
  · rw [append_nil] at htext
    rw [← htext,hlen] at hfront
    omega
  · rw [accentText,concat_eq_append,← append_assoc] at htext
    have hsame := congrArg byteLen (append_inj_left' htext rfl)
    rw [byteLen_replicate,byteLen_append] at hsame
    omega


/-- The accent takes two bytes, and the message is cut between them. -/
theorem accent_torn : Ascending accentSegments ∧
    (∀ s ∈ accentSegments, CharBoundary accentText s.byte_start ∧
      CharBoundary accentText s.byte_end) ∧
    ∃ product, accentChunked = .ok product ∧
      ∃ x ∈ emitted accentChunked, ¬ OnCharacters accentText x := by
  have hlen : byteLen accentText = 1601 := by
    rw [accentText,byteLen_append,byteLen_replicate]
    rfl
  have horder : Ascending accentSegments := ⟨by decide,by decide⟩
  have hboundary : ∀ s ∈ accentSegments, CharBoundary accentText s.byte_start ∧
      CharBoundary accentText s.byte_end := by
    intro s hs
    obtain rfl := mem_singleton.mp hs
    exact ⟨⟨[],accentText,rfl,rfl⟩,accentText,[],by simp,hlen⟩
  have hwithin : ∀ s ∈ accentSegments, s.byte_end ≤ (encode accentText).length :=
    fun s hs => (hboundary s hs).2.le
  have hwindow : (groupsOf messageRun.params accentSegments).map windowOf =
      [⟨0,1601,some (.messageRange 0 0),0,1⟩] := by decide
  obtain ⟨product,hrun⟩ : ∃ product, accentChunked = .ok product :=
    single_ok messageRun ⟨.chunk,4096⟩ horder hwithin hwindow (by decide) (by decide)
      (fun _ => rfl) (by decide)
  refine ⟨horder,hboundary,product,hrun,?_⟩
  by_contra hnone
  have hchunks : ∀ x ∈ emitted accentChunked, OnCharacters accentText x := by
    intro x hx
    by_contra hx'
    exact hnone ⟨x,hx,hx'⟩
  refine accent_inside (cuts_of_onCharacters (n := 1600) rfl ?_ ?_ hrun hchunks ?_)
  · rwa [yielded_map]
  · rwa [yielded_map]
  · rw [yielded_map]
    refine ⟨accentSegments,by decide,1,by decide,by decide⟩

end ChunkRun

def ChunkFact.Contains (x : ChunkFact) (s : Segment) : Prop :=
  x.byte_start ≤ s.byte_start ∧ s.byte_end ≤ x.byte_end

def KeptWhole (p : ChunkParams) (text : Bytes) (segments : List Segment) (s : Segment) : Prop :=
  ∃ place ∈ places p text segments,
    place.1.byte_start ≤ s.byte_start ∧ s.byte_end ≤ place.1.byte_end ∧
    ∃ n b, n < place.1.byteLen ∧ text[place.2+n]? = some b ∧ isAsciiWhitespace b = false ∧
      ∀ k, ¬ (min s.byte_start (place.1.byte_start+n) < place.1.byte_start+k*p.bytesMax ∧
        place.1.byte_start+k*p.bytesMax < max s.byte_end (place.1.byte_start+n+1))

namespace ChunkRun
variable {R : ChunkRun} {index : List (Except StreamError Segment)} {reader : Reader}
  {budget : StreamBudget} {product : Product}

theorem contains_iff_keptWhole (hrun : R.chunkEvidence index reader budget = .ok product) {s : Segment} :
    (∃ x ∈ emitted (R.chunkEvidence index reader budget), ChunkFact.Contains x s) ↔
      KeptWhole R.params reader.rest (yielded index) s := by
  have hends := chunkEvidence_ends R reader budget index
  rw [hrun] at hends
  rw [hrun,emitted,hends.facts]
  constructor
  · rintro ⟨x,hx,hstart,hend⟩
    obtain ⟨i,d,hd,rfl⟩ := mem_factsOf.mp hx
    obtain ⟨place,hplace,hwindow,hlow,hsize,⟨k,hfirst,hlast⟩,n,b,hn,hn',hget,hb⟩ :=
      draft_split (mem_of_getElem? hd)
    have hlen : place.1.byteLen = place.1.byte_end-place.1.byte_start := rfl
    simp only [factOf,Draft.byte_start,Draft.byte_end,hwindow] at hstart hend
    refine ⟨place,hplace,by omega,by omega,n,b,by omega,hget,hb,?_⟩
    rintro j ⟨hbelow,habove⟩
    have hkj : k < j := Nat.lt_of_mul_lt_mul_right (a := R.params.bytesMax) (by omega)
    have hjk : j < k+1 := Nat.lt_of_mul_lt_mul_right (a := R.params.bytesMax) (by
      rw [Nat.succ_mul]
      omega)
    omega
  · rintro ⟨place,hplace,hstart,hend,n,b,hn,hget,hb,hcuts⟩
    have hlen : place.1.byteLen = place.1.byte_end-place.1.byte_start := rfl
    have hsize : 0 < R.params.bytesMax := by
      obtain ⟨g,hg,hgroup⟩ := (mem_places _ _).mp ⟨place,hplace,rfl⟩
      have hsized := hends.sized (windowOf g) (mem_map_of_mem hg)
      rw [hgroup] at hsized
      omega
    obtain ⟨d,hd,k,hwindow,hfirst,hlast,hlow,hhigh⟩ := exists_draft hplace hsize hn hget hb
    obtain ⟨x,hx,hx₁,hx₂⟩ := exists_factOf R reader.rest hd
    have hbelow := hcuts k
    have habove := hcuts (k+1)
    rw [Nat.succ_mul] at habove
    simp only [Draft.byte_start,Draft.byte_end,hwindow] at hx₁ hx₂
    exact ⟨x,hx,by omega,by omega⟩

/-- In a run that comes through every segment that would fit into a chunk is in one
if and only if every such segment is kept. -/
theorem segments_whole_iff (R : ChunkRun) (index : List (Except StreamError Segment))
    (reader : Reader) (budget : StreamBudget) (product : Product)
    (hrun : R.chunkEvidence index reader budget = .ok product) :
    (∀ s, .ok s ∈ index → s.byte_end-s.byte_start ≤ R.params.bytesMax →
      ∃ x ∈ emitted (R.chunkEvidence index reader budget), ChunkFact.Contains x s) ↔
    ∀ s, .ok s ∈ index → s.byte_end-s.byte_start ≤ R.params.bytesMax →
      KeptWhole R.params reader.rest (yielded index) s := by
  refine forall_congr' fun s => imp_congr_right fun _ => imp_congr_right fun _ => ?_
  exact contains_iff_keptWhole hrun

theorem note_whole :
    (∀ s, .ok s ∈ noteIndex → s.byte_end-s.byte_start ≤ noteRun.params.bytesMax →
      ∃ x ∈ emitted noteChunked, ChunkFact.Contains x s) ↔
    ∀ s, .ok s ∈ noteIndex → s.byte_end-s.byte_start ≤ noteRun.params.bytesMax →
      KeptWhole noteRun.params noteReader.rest (yielded noteIndex) s := by
  cases hrun : noteChunked with
  | ok product =>
    rw [← hrun]
    exact segments_whole_iff noteRun noteIndex noteReader ⟨.chunk,4096⟩ product hrun
  | error stop =>
    have hok : noteChunked.isOk = true := by decide +kernel
    rw [hrun] at hok
    cases hok

def turnsText : Bytes := List.replicate 2000 97

def turns : List Segment := [⟨0,1000,.timeRange 0 40000,0⟩,⟨1000,2000,.timeRange 40000 80000,0⟩]

def turnsRun : ChunkRun := { noteRun with params := chunkParamsFor .transcript }

/-- They fill one window, and its cut falls into the second. -/
theorem turn_cut : ∃ product,
    turnsRun.chunkEvidence (turns.map .ok) ⟨turnsText,[]⟩ ⟨.chunk,4096⟩ = .ok product ∧
      ∃ s ∈ turns, s.byte_end-s.byte_start ≤ turnsRun.params.bytesMax ∧
        ∀ x ∈ emitted (.ok product), ¬ ChunkFact.Contains x s := by
  have horder : Ascending turns := ⟨by decide,by decide⟩
  have hwithin : ∀ s ∈ turns, s.byte_end ≤ turnsText.length := by
    rw [turnsText,length_replicate]
    decide
  have hwindow : (groupsOf turnsRun.params turns).map windowOf =
      [⟨0,2000,some (.timeRange 0 80000),0,2⟩] := by decide
  obtain ⟨product,hrun⟩ := single_ok turnsRun ⟨.chunk,4096⟩ horder hwithin hwindow (by decide)
    (by decide) (fun _ => rfl) (by decide)
  refine ⟨product,hrun,⟨1000,2000,.timeRange 40000 80000,0⟩,by decide,by decide,?_⟩
  intro x hx hcontains
  rw [← hrun] at hx
  obtain ⟨place,hplace,-,-,n,b,-,-,-,hcuts⟩ := (contains_iff_keptWhole hrun).mp ⟨x,hx,hcontains⟩
  rw [yielded_map] at hplace
  have hmem : place.1 ∈ (groupsOf turnsRun.params turns).map windowOf := by
    rw [mem_map]
    exact (mem_places _ _).mp ⟨place,hplace,rfl⟩
  rw [hwindow,mem_singleton] at hmem
  have hsize : turnsRun.params.bytesMax = 1600 := by decide
  have hcut := hcuts 1
  rw [hmem,hsize] at hcut
  dsimp only at hcut
  omega

end ChunkRun
end ProjectOS.Ingest
