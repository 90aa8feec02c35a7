import Mathlib.Data.List.TakeWhile
import ProjectOS.Lib.Utf8
import ProjectOS.Gateway.Transport

/-! The chunked encoding of a body and the reader of it, whatever the reads of
the socket bring and wherever the connection ends. -/

namespace ProjectOS.Gateway
open Lib List

section
variable {timeout_ms : Nat} {closing : Closing}

@[simp] theorem leave_flatten (rest : Bytes) (reads : List Bytes) :
    (leave rest reads).flatten = rest ++ reads.flatten := by
  unfold leave
  split_ifs with h <;> simp [h]

theorem readLine_feed (line : Bytes) {before after : Bytes} {reads : List Bytes}
    (h : reads.flatten = before ++ 10 :: after) (hb : 10 ∉ before) :
    ∃ rest, readLine timeout_ms closing line reads = .ok (line ++ before ++ [10],rest) ∧
      rest.flatten = after := by
  induction reads generalizing line before with
  | nil => simp at h
  | cons read reads ih =>
    rw [flatten_cons] at h
    rw [readLine]
    cases hsplit : splitOnce 10 read with
    | some parts =>
      obtain ⟨front,back⟩ := parts
      obtain ⟨rfl,hfront⟩ := splitOnce_eq_some hsplit
      rw [append_assoc,cons_append] at h
      have hsame := splitOnce_append (back ++ reads.flatten) hfront
      rw [h,splitOnce_append _ hb] at hsame
      cases hsame
      exact ⟨_,rfl,leave_flatten back reads⟩
    | none =>
      have hread := splitOnce_eq_none.mp hsplit
      rcases append_eq_append_iff.mp h with ⟨more,hbefore,hreads⟩ | ⟨more,hread',hafter⟩
      · obtain ⟨rest,hline,hrest⟩ := ih (line ++ read) hreads
          (fun hm => hb (hbefore ▸ mem_append_right _ hm))
        exact ⟨rest,by rw [hline,hbefore,append_assoc line],hrest⟩
      · cases more with
        | nil =>
          rw [append_nil] at hread'
          have hreads : reads.flatten = [] ++ 10 :: after := hafter.symm
          obtain ⟨rest,hline,hrest⟩ := ih (line ++ read) hreads not_mem_nil
          exact ⟨rest,by rw [hline,hread',append_nil],hrest⟩
        | cons b more =>
          cases hafter
          exact absurd (hread' ▸ mem_append_right _ mem_cons_self) hread

theorem readLine_end (line : Bytes) {reads : List Bytes} (h : 10 ∉ reads.flatten) :
    readLine timeout_ms closing line reads =
      (atEnd timeout_ms closing "read response").map fun _ => (line ++ reads.flatten,[]) := by
  induction reads generalizing line with
  | nil => simp [readLine]
  | cons read reads ih =>
    rw [flatten_cons,mem_append,not_or] at h
    rw [readLine,splitOnce_eq_none.mpr h.1]
    simp only [ih _ h.2,flatten_cons,append_assoc]

variable {line : List Char}

theorem readCrlfLine_end {reads rest : List Bytes} (h : 10 ∉ reads.flatten)
    (hline : readCrlfLine timeout_ms closing reads = .ok (line,rest)) : rest = [] := by
  rw [readCrlfLine,readLine_end [] h] at hline
  cases closing with
  | closed =>
    simp only [atEnd,Except.map] at hline
    split at hline
    · cases hline
    · split_ifs at hline
      cases hline
      rfl
  | timedOut | failed error => cases hline

theorem readCrlfLine_nil {rest : List Bytes} :
    readCrlfLine timeout_ms closing [] ≠ .ok (line,rest) := by
  intro h
  have hheld := readCrlfLine_held h
  simp at hheld

theorem readCrlfLine_text {text : List Char} {after : Bytes} {reads : List Bytes}
    (htext : ∀ c ∈ text, c ≠ '\r' ∧ c ≠ '\n')
    (h : reads.flatten = encode text ++ 13 :: 10 :: after) :
    ∃ rest, rest.flatten = after ∧
      readCrlfLine timeout_ms closing reads =
        if responseHeadBytesMax < byteLen text+2 then
          .error (.protocol s!"head line exceeds {responseHeadBytesMax} bytes")
        else .ok (text,rest) := by
  have hfeed : (10 : UInt8) ∉ encode text ++ [13] := by
    rw [mem_append,not_or,mem_encode (by decide)]
    refine ⟨?_,by decide⟩
    rintro ⟨c,hc,hten⟩
    exact (htext c hc).2 (Char.toNat_inj.mp hten)
  have hsplit : reads.flatten = (encode text ++ [13]) ++ 10 :: after := by simpa using h
  obtain ⟨rest,hline,hrest⟩ := @readLine_feed timeout_ms closing [] _ _ _ hsplit hfeed
  refine ⟨rest,hrest,?_⟩
  have hcode : [] ++ (encode text ++ [13]) ++ [10] = encode (text ++ ['\r','\n']) := by
    have hend : encode ['\r','\n'] = [13,10] := by decide
    rw [encode_append,hend]
    simp
  rw [hcode] at hline
  have hdecode := decodeUtf8_eq_some.mpr (rfl : encode (text ++ ['\r','\n']) = _)
  obtain ⟨decoded,hsome,hlist⟩ := Option.map_eq_some_iff.mp hdecode
  have hne : encode (text ++ ['\r','\n']) ≠ [] := by simp
  have hlen : (encode (text ++ ['\r','\n'])).length = byteLen text+2 := by
    rw [encode_length,byteLen_append]
    rfl
  have htrim : ((text ++ ['\r','\n']).reverse.dropWhile isLineEnd).reverse = text := by
    have hlast : ∀ c ∈ text.reverse, isLineEnd c = false := by
      intro c hc
      have hline := htext c (mem_reverse.mp hc)
      simp [isLineEnd,hline.1,hline.2]
    rw [reverse_append]
    have hends : (['\r','\n'].reverse ++ text.reverse).dropWhile isLineEnd = text.reverse := by
      cases hrev : text.reverse with
      | nil => decide
      | cons c back =>
        have hc := hlast c (hrev ▸ mem_cons_self)
        simp [isLineEnd,List.dropWhile] at hc ⊢
        simp [hc]
    rw [hends,reverse_reverse]
  simp only [readCrlfLine,hline,hsome,hne,if_false,hlen,hlist,htrim]

theorem streamExact_rest {remaining : Nat} {reads rest chunks : List Bytes}
    (h : streamExact timeout_ms closing remaining reads = (chunks,.ok rest)) :
    rest.flatten = reads.flatten.drop remaining := by
  induction reads generalizing remaining chunks with
  | nil =>
    cases remaining with
    | zero => cases h; simp
    | succ remaining => cases closing <;> cases h
  | cons read reads ih =>
    cases remaining with
    | zero => cases h; simp
    | succ remaining =>
      rw [streamExact] at h
      split_ifs at h with hle
      · simp only [Prod.mk.injEq] at h
        rw [ih (Prod.ext rfl h.2),flatten_cons,drop_append,drop_of_length_le hle,
          nil_append]
      · cases h
        rw [leave_flatten,flatten_cons,drop_append_of_le_length (by omega)]

theorem streamExact_whole {bytes after : Bytes} {reads : List Bytes}
    (h : reads.flatten = bytes ++ after) :
    ∃ chunks rest, streamExact timeout_ms closing bytes.length reads = (chunks,.ok rest) ∧
      chunks.flatten = bytes ∧ rest.flatten = after := by
  have hheld : bytes.length ≤ held reads := by
    rw [held_eq,h,length_append]
    omega
  obtain ⟨rest,hrest⟩ := (streamExact_ok_iff bytes.length reads).mpr hheld
  have hexact : streamExact timeout_ms closing bytes.length reads =
      ((streamExact timeout_ms closing bytes.length reads).1,.ok rest) := Prod.ext rfl hrest
  refine ⟨_,rest,hexact,?_,?_⟩
  · rw [(streamExact_held hexact).2,h,take_left]
  · rw [streamExact_rest hexact,h,drop_left]

end

theorem hexDigit_range {c : Char} (h : (toDigit 16 c).isSome) :
    48 ≤ c.toNat ∧ c.toNat ≤ 57 ∨ 97 ≤ c.toNat ∧ c.toNat ≤ 102 ∨ 65 ≤ c.toNat ∧ c.toNat ≤ 70 := by
  simp only [toDigit] at h
  split_ifs at h <;> simp_all <;> omega

def hexValue (acc : Nat) (digits : List Char) : Nat :=
  digits.foldl (fun n c => n*16+(toDigit 16 c).getD 0) acc

/-- Hexadecimal digits of either case with any zeros before them, and an extension
behind a semicolon. -/
structure SizeLine where
  digits : List Char
  extension : List Char
  some_digit : digits ≠ []
  hex : ∀ c ∈ digits, (toDigit 16 c).isSome
  apart : extension = [] ∨ ∃ blanks more, extension = blanks ++ ';' :: more ∧
    ∀ c ∈ blanks, c = ' ' ∨ c = '\t'
  one_line : ∀ c ∈ extension, c ≠ '\r' ∧ c ≠ '\n'

namespace SizeLine

def text (s : SizeLine) : List Char := s.digits ++ s.extension

def value (s : SizeLine) : Nat := hexValue 0 s.digits

theorem text_line (s : SizeLine) : ∀ c ∈ s.text, c ≠ '\r' ∧ c ≠ '\n' := by
  intro c hc
  rcases mem_append.mp hc with hd | he
  · have hrange := hexDigit_range (s.hex c hd)
    constructor <;> rintro rfl <;> revert hrange <;> decide
  · exact s.one_line c he

end SizeLine

theorem hexValue_le (acc : Nat) (digits : List Char) : acc ≤ hexValue acc digits := by
  induction digits generalizing acc with
  | nil => exact Nat.le_refl _
  | cons c rest ih => exact Nat.le_trans (by omega) (ih (acc*16+(toDigit 16 c).getD 0))

theorem readDigits_hex {max acc : Nat} {digits : List Char} (hacc : acc ≤ max)
    (hex : ∀ c ∈ digits, (toDigit 16 c).isSome) :
    readDigits 16 max acc digits =
      if hexValue acc digits ≤ max then some (hexValue acc digits) else none := by
  induction digits generalizing acc with
  | nil => simp [readDigits,hexValue,hacc]
  | cons c rest ih =>
    obtain ⟨d,hd⟩ := Option.isSome_iff_exists.mp (hex c mem_cons_self)
    have hvalue : hexValue acc (c :: rest) = hexValue (acc*16+d) rest := by simp [hexValue,hd]
    have hle := hexValue_le (acc*16+d) rest
    rw [readDigits,hd,hvalue]
    by_cases hmax : acc*16+d ≤ max
    · simp only [hmax,if_true]
      exact ih hmax (fun c hc => hex c (mem_cons_of_mem _ hc))
    · simp only [hmax,if_false]
      rw [if_neg (by omega)]

theorem fromStrRadix_hex {max : Nat} {digits : List Char} (hne : digits ≠ [])
    (hex : ∀ c ∈ digits, (toDigit 16 c).isSome) :
    fromStrRadix 16 max digits =
      if hexValue 0 digits ≤ max then some (hexValue 0 digits) else none := by
  rw [← readDigits_hex (Nat.zero_le max) hex]
  cases digits with
  | nil => exact absurd rfl hne
  | cons c rest =>
    have hplus : c ≠ '+' := by
      rintro rfl
      exact absurd (hex '+' mem_cons_self) (by decide)
    unfold fromStrRadix
    split
    · rename_i h; cases h
    · rename_i h; cases h; exact absurd rfl hplus
    · rename_i h; cases h; exact absurd rfl hplus
    · rfl

theorem dropWhile_head {α : Type} {p : α → Bool} {c : α} {text : List α} (hc : p c = false) :
    (c :: text).dropWhile p = c :: text := by
  simp [List.dropWhile,hc]

theorem trim_blanks {text blanks : List Char} (hne : text ≠ [])
    (htext : ∀ c ∈ text, isWhitespace c = false) (hblanks : ∀ c ∈ blanks, isWhitespace c = true) :
    trim (text ++ blanks) = text := by
  have hfront : (text ++ blanks).dropWhile isWhitespace = text ++ blanks := by
    cases text with
    | nil => exact absurd rfl hne
    | cons c rest => exact dropWhile_head (htext c mem_cons_self)
  have hback : (blanks.reverse ++ text.reverse).dropWhile isWhitespace = text.reverse := by
    rw [dropWhile_append_of_pos (fun c hc => hblanks c (mem_reverse.mp hc))]
    cases hrev : text.reverse with
    | nil => exact absurd (reverse_eq_nil_iff.mp hrev) hne
    | cons c rest =>
      exact dropWhile_head (htext c (mem_reverse.mp (hrev ▸ mem_cons_self)))
  rw [trim,hfront,reverse_append,hback,reverse_reverse]

namespace SizeLine

theorem sizeText_text (s : SizeLine) : sizeText s.text = s.digits := by
  have hdigit : ∀ c ∈ s.digits, isWhitespace c = false ∧ c ≠ ';' := by
    intro c hc
    have hrange := hexDigit_range (s.hex c hc)
    constructor
    · simp only [isWhitespace,Bool.or_eq_false_iff,Bool.and_eq_false_iff,decide_eq_false_iff_not,
        beq_eq_false_iff_ne]
      omega
    · rintro rfl
      revert hrange
      decide
  have htake : ∀ blanks, (∀ c ∈ blanks, c = ' ' ∨ c = '\t') →
      ∀ more, ((s.digits ++ (blanks ++ ';' :: more)).takeWhile (· ≠ ';')) = s.digits ++ blanks := by
    intro blanks hblanks more
    rw [takeWhile_append_of_pos (fun c hc => by simpa using (hdigit c hc).2),
      takeWhile_append_of_pos]
    · simp
    · intro c hc
      rcases hblanks c hc with rfl | rfl <;> decide
  rw [sizeText,text]
  rcases s.apart with hnone | ⟨blanks,more,hsome,hblanks⟩
  · rw [hnone,append_nil,takeWhile_eq_self_iff.mpr (fun c hc => by simpa using (hdigit c hc).2)]
    have htrim := trim_blanks s.some_digit (fun c hc => (hdigit c hc).1) (forall_mem_nil _)
    rwa [append_nil] at htrim
  · rw [hsome,htake blanks hblanks]
    refine trim_blanks s.some_digit (fun c hc => (hdigit c hc).1) fun c hc => ?_
    rcases hblanks c hc with rfl | rfl <;> decide

theorem chunkSize_text (s : SizeLine) :
    chunkSize s.text =
      if chunkSizeLineBytesMax < byteLen s.text then
        .error (.protocol "chunk size line exceeds the cap")
      else if s.value ≤ u64Max then .ok s.value
      else .error (.protocol s!"chunk size did not parse: {(String.ofList s.digits).quote}") := by
  have hbytes : (String.ofList s.text).utf8ByteSize = byteLen s.text := by
    rw [← encode_length,← size_toByteArray,encode_toByteArray]
    simp [String.utf8ByteSize]
  rw [chunkSize,hbytes,sizeText_text,fromStrRadix_hex s.some_digit s.hex]
  rw [← value]
  split_ifs <;> rfl

end SizeLine

structure Piece where
  bytes : Bytes
  size_line : SizeLine
  some_byte : bytes ≠ []
  announced : size_line.value = bytes.length

structure LastLine where
  size_line : SizeLine
  zero : size_line.value = 0

def crlf : Bytes := [13,10]

def payload (pieces : List Piece) : Bytes := pieces.flatMap Piece.bytes

def encodeChunks (last : LastLine) : List Piece → Bytes
  | [] => encode last.size_line.text ++ crlf ++ crlf
  | p :: pieces => encode p.size_line.text ++ crlf ++ p.bytes ++ crlf ++ encodeChunks last pieces

def Capped (last : LastLine) (pieces : List Piece) : Prop :=
  byteLen last.size_line.text ≤ chunkSizeLineBytesMax ∧
    ∀ p ∈ pieces, byteLen p.size_line.text ≤ chunkSizeLineBytesMax ∧ p.bytes.length ≤ u64Max

section
variable {timeout_ms : Nat} {closing : Closing} {last : LastLine}

theorem readCrlfLine_capped {text : List Char} {after : Bytes} {reads : List Bytes}
    (htext : ∀ c ∈ text, c ≠ '\r' ∧ c ≠ '\n') (hcap : byteLen text ≤ chunkSizeLineBytesMax)
    (h : reads.flatten = encode text ++ crlf ++ after) :
    ∃ rest, rest.flatten = after ∧ readCrlfLine timeout_ms closing reads = .ok (text,rest) := by
  obtain ⟨rest,hrest,hline⟩ := @readCrlfLine_text timeout_ms closing text after reads htext
    (by simpa [crlf] using h)
  refine ⟨rest,hrest,?_⟩
  rw [hline,if_neg]
  simp only [chunkSizeLineBytesMax,responseHeadBytesMax] at hcap ⊢
  omega

theorem readCrlfLine_blank {after : Bytes} {reads : List Bytes} (h : reads.flatten = crlf ++ after) :
    ∃ rest, rest.flatten = after ∧ readCrlfLine timeout_ms closing reads = .ok ([],rest) :=
  readCrlfLine_capped (forall_mem_nil _) (Nat.zero_le _) (by simpa using h)

variable {reads : List Bytes} {pieces : List Piece}

theorem streamChunked_whole (hcap : Capped last pieces)
    (h : reads.flatten = encodeChunks last pieces) :
    (streamChunked timeout_ms closing reads).2 = .ok () ∧
      (streamChunked timeout_ms closing reads).1.flatten = payload pieces := by
  induction pieces generalizing reads with
  | nil =>
    obtain ⟨rest,hrest,hline⟩ := @readCrlfLine_capped timeout_ms closing _ crlf reads
      last.size_line.text_line hcap.1 h
    obtain ⟨rest',-,hblank⟩ := @readCrlfLine_blank timeout_ms closing [] rest
      (by rw [hrest,append_nil])
    have hsize : chunkSize last.size_line.text = .ok 0 := by
      rw [SizeLine.chunkSize_text,if_neg (Nat.not_lt.mpr hcap.1),last.zero,if_pos (Nat.zero_le _)]
    rw [streamChunked_last hline hsize,streamTrailer_line hblank,if_pos rfl]
    exact ⟨rfl,rfl⟩
  | cons p pieces ih =>
    obtain ⟨hline_cap,hlen⟩ := hcap.2 p mem_cons_self
    rw [encodeChunks] at h
    obtain ⟨body,hbody,hline⟩ := @readCrlfLine_capped timeout_ms closing _
      (p.bytes ++ (crlf ++ encodeChunks last pieces)) reads p.size_line.text_line hline_cap
      (by simpa using h)
    obtain ⟨chunks,behind,hexact,hchunks,hbehind⟩ :=
      @streamExact_whole timeout_ms closing _ _ body hbody
    obtain ⟨rest,hrest,hend⟩ := @readCrlfLine_blank timeout_ms closing _ behind hbehind
    have hsize : chunkSize p.size_line.text = .ok p.bytes.length := by
      rw [SizeLine.chunkSize_text,if_neg (Nat.not_lt.mpr hline_cap),p.announced,if_pos hlen]
    have hne : p.bytes.length ≠ 0 := fun h0 => p.some_byte (length_eq_zero_iff.mp h0)
    obtain ⟨hok,hpayload⟩ := ih ⟨hcap.1,fun q hq => hcap.2 q (mem_cons_of_mem _ hq)⟩ hrest
    rw [streamChunked_chunk hline hsize hne hexact hend]
    exact ⟨hok,by simp [payload,hchunks,hpayload]⟩

theorem chunks_cut (h : 10 ∉ reads.flatten) : ¬ Chunks timeout_ms closing reads := by
  intro hchunks
  cases hchunks with
  | last hline hsize htrailer =>
    cases readCrlfLine_end h hline
    cases htrailer with
    | blank hblank => exact readCrlfLine_nil hblank
    | field hfield _ _ => exact readCrlfLine_nil hfield
  | chunk hline hsize hne hexact hend _ =>
    cases readCrlfLine_end h hline
    have hheld := (streamExact_held hexact).1
    simp only [held_nil] at hheld
    omega

theorem prefix_line {text : List Char} (htext : ∀ c ∈ text, c ≠ '\r' ∧ c ≠ '\n')
    {cut after : Bytes} (h : cut <+: encode text ++ crlf ++ after) :
    10 ∉ cut ∨ ∃ more, more <+: after ∧ cut = encode text ++ 13 :: 10 :: more := by
  have hfeed : (10 : UInt8) ∉ encode text ++ [13] := by
    rw [mem_append,not_or,mem_encode (by decide)]
    refine ⟨?_,by decide⟩
    rintro ⟨c,hc,hten⟩
    exact (htext c hc).2 (Char.toNat_inj.mp hten)
  have hline : encode text ++ crlf ++ after = (encode text ++ [13]) ++ ([10] ++ after) := by
    simp [crlf]
  rw [hline] at h
  rcases prefix_or_prefix_of_prefix h (prefix_append _ _) with hfront | ⟨tail,rfl⟩
  · exact Or.inl (fun hmem => hfeed (hfront.subset hmem))
  · have htail := (prefix_append_right_inj _).mp h
    rcases prefix_cons_iff.mp htail with rfl | ⟨more,rfl,hmore⟩
    · rw [append_nil]
      exact Or.inl hfeed
    · exact Or.inr ⟨more,hmore,by simp⟩

theorem readCrlfLine_prefix {text : List Char} (htext : ∀ c ∈ text, c ≠ '\r' ∧ c ≠ '\n')
    {after : Bytes} {rest : List Bytes} {line : List Char}
    (h : reads.flatten <+: encode text ++ crlf ++ after)
    (hline : readCrlfLine timeout_ms closing reads = .ok (line,rest)) :
    10 ∉ reads.flatten ∧ rest = [] ∨ line = text ∧ rest.flatten <+: after := by
  rcases prefix_line htext h with hcut | ⟨more,hmore,hreads⟩
  · exact Or.inl ⟨hcut,readCrlfLine_end hcut hline⟩
  · obtain ⟨rest',hrest,hline'⟩ := @readCrlfLine_text timeout_ms closing text more reads htext hreads
    rw [hline] at hline'
    split_ifs at hline'
    cases hline'
    exact Or.inr ⟨rfl,hrest ▸ hmore⟩

theorem streamChunked_front
    (h : reads.flatten <+: encodeChunks last pieces)
    (hok : (streamChunked timeout_ms closing reads).2 = .ok ()) :
    (streamChunked timeout_ms closing reads).1.flatten = payload pieces := by
  induction pieces generalizing reads with
  | nil =>
    have hchunks := (streamChunked_ok_iff reads).mp hok
    cases hchunks with
    | last hline hsize _ =>
      rw [streamChunked_last hline hsize]
      rfl
    | chunk hline hsize hne hexact _ _ =>
      rcases readCrlfLine_prefix last.size_line.text_line h hline with ⟨hcut,-⟩ | ⟨rfl,-⟩
      · exact absurd ((streamChunked_ok_iff reads).mp hok) (chunks_cut hcut)
      · rw [SizeLine.chunkSize_text,last.zero] at hsize
        split_ifs at hsize
        cases hsize
        exact absurd rfl hne
  | cons p pieces ih =>
    have hplace : reads.flatten <+: encode p.size_line.text ++ crlf ++
        (p.bytes ++ (crlf ++ encodeChunks last pieces)) := by
      simpa [encodeChunks] using h
    have hne : p.bytes.length ≠ 0 := fun h0 => p.some_byte (length_eq_zero_iff.mp h0)
    have hchunks := (streamChunked_ok_iff reads).mp hok
    cases hchunks with
    | last hline hsize _ =>
      rcases readCrlfLine_prefix p.size_line.text_line hplace hline with ⟨hcut,-⟩ | ⟨rfl,-⟩
      · exact absurd ((streamChunked_ok_iff reads).mp hok) (chunks_cut hcut)
      · rw [SizeLine.chunkSize_text,p.announced] at hsize
        split_ifs at hsize
        exact absurd (Except.ok.inj hsize) hne
    | chunk hline hsize hsize_ne hexact hend hrest =>
      rcases readCrlfLine_prefix p.size_line.text_line hplace hline with ⟨hcut,-⟩ | ⟨rfl,hbody⟩
      · exact absurd ((streamChunked_ok_iff reads).mp hok) (chunks_cut hcut)
      rename_i body behind rest chunks size
      have hlen : size = p.bytes.length := by
        rw [SizeLine.chunkSize_text,p.announced] at hsize
        split_ifs at hsize
        exact (Except.ok.inj hsize).symm
      subst hlen
      rw [streamChunked_chunk hline hsize hsize_ne hexact hend] at hok ⊢
      -- the piece came whole, and the cut is behind it
      have hheld := (streamExact_held hexact).1
      have hwhole : p.bytes <+: body.flatten :=
        prefix_of_prefix_length_le (prefix_append _ _) hbody
          (by simp only [held_eq] at hheld; omega)
      obtain ⟨tail,htail⟩ := hwhole
      have hbehind : behind.flatten <+: encode [] ++ crlf ++ encodeChunks last pieces := by
        rw [streamExact_rest hexact,← htail,drop_left]
        rw [← htail] at hbody
        simpa using (prefix_append_right_inj _).mp hbody
      have hbytes : chunks.flatten = p.bytes := by
        rw [(streamExact_held hexact).2,← htail,take_left]
      rcases readCrlfLine_prefix (forall_mem_nil _) hbehind hend with ⟨-,rfl⟩ | ⟨-,hnext⟩
      · exact absurd ((streamChunked_ok_iff []).mp hok) (chunks_cut not_mem_nil)
      · simp [payload,hbytes,ih hnext hok]

end

/-- An encoding within the caps is delivered piece for piece, however it is read,
and no part of an encoding passes for the whole while some of its payload is missing. -/
theorem streamChunked_encoded (timeout_ms : Nat) (conn : Conn) (last : LastLine)
    (pieces : List Piece) :
    (Capped last pieces → conn.reads.flatten = encodeChunks last pieces →
      (streamChunked timeout_ms conn.closing conn.reads).2 = .ok () ∧
        (streamChunked timeout_ms conn.closing conn.reads).1.flatten = payload pieces) ∧
    (conn.reads.flatten <+: encodeChunks last pieces →
      (streamChunked timeout_ms conn.closing conn.reads).2 = .ok () →
      (streamChunked timeout_ms conn.closing conn.reads).1.flatten = payload pieces) :=
  ⟨streamChunked_whole,streamChunked_front⟩

namespace ChunkedDemo

theorem zero_hex : ∀ c ∈ ['0'], (toDigit 16 c).isSome := forall_mem_of_all (by decide)

def zero : SizeLine := ⟨['0'],[],cons_ne_nil _ _,zero_hex,Or.inl rfl,forall_mem_nil _⟩

def last : LastLine := ⟨zero,rfl⟩

def padded : List Char := List.replicate 34 '0' ++ ['1']

theorem padded_some : padded ≠ [] := by decide

theorem padded_hex : ∀ c ∈ padded, (toDigit 16 c).isSome := forall_mem_of_all (by decide)

theorem padded_value : hexValue 0 padded = [(65 : UInt8)].length := by decide

def letter : Piece where
  bytes := [65]
  size_line := ⟨padded,[],padded_some,padded_hex,Or.inl rfl,forall_mem_nil _⟩
  some_byte := cons_ne_nil _ _
  announced := padded_value

theorem two_hex : ∀ c ∈ ['0','2'], (toDigit 16 c).isSome := forall_mem_of_all (by decide)

theorem named_apart : " ;a=b".toList = [' '] ++ ';' :: "a=b".toList ∧
    ∀ c ∈ [' '], c = ' ' ∨ c = '\t' := ⟨by decide,forall_mem_of_all (by decide)⟩

theorem named_line : ∀ c ∈ " ;a=b".toList, c ≠ '\r' ∧ c ≠ '\n' := forall_mem_of_all (by decide)

def greeting : Piece where
  bytes := [104,105]
  size_line := ⟨['0','2']," ;a=b".toList,cons_ne_nil _ _,two_hex,
    Or.inr ⟨_,_,named_apart⟩,named_line⟩
  some_byte := cons_ne_nil _ _
  announced := rfl

theorem one_read (bytes : Bytes) (h : bytes ≠ [] ∧ bytes.length ≤ streamChunkBytes) :
    ∀ read ∈ [bytes], read ≠ [] ∧ read.length ≤ streamChunkBytes := by
  intro read hread
  rw [mem_singleton.mp hread]
  exact h

theorem letter_fits : encodeChunks last [letter] ≠ [] ∧
    (encodeChunks last [letter]).length ≤ streamChunkBytes := by decide

theorem letters_fit (bytes : Bytes) :
    ∀ read ∈ bytes.map fun b => [b], read ≠ [] ∧ read.length ≤ streamChunkBytes := by
  intro read hread
  obtain ⟨b,-,rfl⟩ := mem_map.mp hread
  exact ⟨cons_ne_nil _ _,by simp [streamChunkBytes]⟩

end ChunkedDemo

open ChunkedDemo in
/-- A size line that is padded beyond the cap on it is refused. -/
theorem padded_refused : ¬ ∀ (timeout_ms : Nat) (conn : Conn) (last : LastLine)
    (pieces : List Piece), conn.reads.flatten = encodeChunks last pieces →
      (streamChunked timeout_ms conn.closing conn.reads).2 = .ok () := by
  intro h
  have hok := h 1000 ⟨[encodeChunks last [letter]],.closed,one_read _ letter_fits⟩ last [letter]
    flatten_singleton
  have hplace : [encodeChunks last [letter]].flatten <+: encode letter.size_line.text ++ crlf ++
      (letter.bytes ++ (crlf ++ encodeChunks last [])) := by
    simp [encodeChunks]
  have hsize : ∀ size, chunkSize letter.size_line.text ≠ .ok size := by
    intro size
    have hlong : chunkSizeLineBytesMax < byteLen letter.size_line.text := by decide
    rw [SizeLine.chunkSize_text,if_pos hlong]
    simp
  have hfeed : (10 : UInt8) ∈ [encodeChunks last [letter]].flatten := by decide
  cases (streamChunked_ok_iff _).mp hok with
  | last hline hzero _ | chunk hline hzero _ _ _ _ =>
    rcases readCrlfLine_prefix letter.size_line.text_line hplace hline with ⟨hcut,-⟩ | ⟨rfl,-⟩
    · exact hcut hfeed
    · exact hsize _ hzero

open ChunkedDemo in
/-- A body read byte for byte. -/
theorem greeting_delivered :
    (streamChunked 1000 .closed ((encodeChunks last [greeting]).map fun b => [b])).2 = .ok () ∧
      (streamChunked 1000 .closed ((encodeChunks last [greeting]).map fun b => [b])).1.flatten =
        [104,105] := by
  have hcap : Capped last [greeting] := by
    refine ⟨by decide,fun p hp => ?_⟩
    rw [mem_singleton.mp hp]
    decide
  have hreads : ((encodeChunks last [greeting]).map fun b => [b]).flatten =
      encodeChunks last [greeting] := by
    rw [← flatMap_def,flatMap_singleton']
  exact (streamChunked_encoded 1000 ⟨_,.closed,letters_fit (encodeChunks last [greeting])⟩ last
    [greeting]).1 hcap hreads

end ProjectOS.Gateway
