import ProjectOS.Lib.Cutter
import ProjectOS.Api.Stream

/-! The decoder of the UI. Its strings are UTF-16, so a text is the list of its
code units here. -/

namespace ProjectOS.Ui
open Lib Api List

abbrev Units := List UInt16

def utf16 (c : Char) : Units :=
  if c.toNat < 0x10000 then [UInt16.ofNat c.toNat]
  else
    [UInt16.ofNat (0xD800+(c.toNat-0x10000)/0x400),UInt16.ofNat (0xDC00+(c.toNat-0x10000)%0x400)]

def units (text : String) : Units := text.toList.flatMap utf16

def lf : UInt16 := 10
def cr : UInt16 := 13
def colon : UInt16 := 58
def blank : UInt16 := 32

def sseBufferCharsMax : Nat := 128*1024

structure SseMessage where
  id : Option Nat
  event : Units
  data : Units
  deriving DecidableEq

structure SseError where
  message : String
  deriving DecidableEq

def replaceCrLf : Units → Units
  | u :: v :: rest =>
    if u = cr ∧ v = lf then lf :: replaceCrLf rest else u :: replaceCrLf (v :: rest)
  | text => text

def cutBlock : Units → Option (Units × Units)
  | u :: v :: rest =>
    if u = lf ∧ v = lf then some ([],rest)
    else (cutBlock (v :: rest)).map fun p => (u :: p.1,p.2)
  | _ => none

def splitLines : Units → List Units
  | [] => [[]]
  | u :: rest =>
    if u = lf then [] :: splitLines rest
    else
      match splitLines rest with
      | [] => [[u]]
      | line :: lines => (u :: line) :: lines

def isDigit (u : UInt16) : Bool := decide (48 ≤ u.toNat ∧ u.toNat ≤ 57)

def readNumber (text : Units) : Nat := text.foldl (fun n u => 10*n+(u.toNat-48)) 0

def parseId (value : Units) : Except SseError Nat :=
  match value with
  | [] => .error ⟨"the Run stream returned an invalid event id"⟩
  | first :: rest =>
    if isDigit first ∧ first ≠ 48 ∧ rest.all isDigit then
      if readNumber value ≤ 2^53-1 then .ok (readNumber value)
      else .error ⟨"the Run stream event id exceeded the browser integer range"⟩
    else .error ⟨"the Run stream returned an invalid event id"⟩

structure SseFields where
  id : Option Nat
  event : Units
  data : List Units

def parseLine (fields : SseFields) (line : Units) : Except SseError SseFields :=
  if line = [] ∨ line.head? = some colon then .ok fields
  else
    let field := line.takeWhile (· ≠ colon)
    let rawValue := (line.dropWhile (· ≠ colon)).tail
    let value := if rawValue.head? = some blank then rawValue.tail else rawValue
    if field = units "id" then
      match parseId value with
      | .error e => .error e
      | .ok id => .ok { fields with id := some id }
    else if field = units "event" then .ok { fields with event := value }
    else if field = units "data" then .ok { fields with data := fields.data ++ [value] }
    else .ok fields

def parseBlock (block : Units) : Except SseError (List SseMessage) :=
  match (splitLines block).foldlM parseLine ⟨none,units "message",[]⟩ with
  | .error e => .error e
  | .ok fields =>
    if fields.data = [] then .ok []
    else .ok [⟨fields.id,fields.event,[lf].intercalate fields.data⟩]

theorem cutBlock_suffix {text block rest : Units} (h : cutBlock text = some (block,rest)) :
    rest <:+ text ∧ rest.length < text.length := by
  induction text generalizing block with
  | nil => cases h
  | cons u text ih =>
    cases text with
    | nil => cases h
    | cons v text =>
      rw [cutBlock] at h
      split_ifs at h with hblank
      · cases h
        refine ⟨⟨[u,v],rfl⟩,?_⟩
        simp only [length_cons]
        omega
      · obtain ⟨p,hp,heq⟩ := Option.map_eq_some_iff.mp h
        cases heq
        obtain ⟨hsuffix,hlt⟩ := ih hp
        exact ⟨hsuffix.trans (suffix_cons _ _),Nat.lt_succ_of_lt hlt⟩

def blankLines : Cutter UInt16 := ⟨cutBlock,fun _ _ _ h => (cutBlock_suffix h).2⟩

namespace SseDecoder

def overflow : SseError := ⟨"the Run stream exceeded its bounded frame buffer"⟩

def push (buffer chunk : Units) : Except SseError (List SseMessage × Units) :=
  let buffer := replaceCrLf (buffer ++ chunk)
  if sseBufferCharsMax < buffer.length then .error overflow else blankLines.drain parseBlock buffer

def isJsSpace (u : UInt16) : Bool :=
  decide (9 ≤ u.toNat ∧ u.toNat ≤ 13 ∨ u.toNat = 32 ∨ u.toNat = 160 ∨ u.toNat = 5760 ∨
    8192 ≤ u.toNat ∧ u.toNat ≤ 8202 ∨ u.toNat = 8232 ∨ u.toNat = 8233 ∨ u.toNat = 8239 ∨
    u.toNat = 8287 ∨ u.toNat = 12288 ∨ u.toNat = 65279)

def finish (buffer : Units) : Except SseError Unit :=
  if buffer.all isJsSpace then .ok () else .error ⟨"the Run stream ended inside an SSE frame"⟩

def feed : Units → List Units → Except SseError (List SseMessage × Units)
  | buffer, [] => .ok ([],buffer)
  | buffer, chunk :: chunks =>
    match push buffer chunk with
    | .error e => .error e
    | .ok (messages,left) =>
      match feed left chunks with
      | .error e => .error e
      | .ok (more,left) => .ok (messages ++ more,left)

def decode (chunks : List Units) : Except SseError (List SseMessage) :=
  match feed [] chunks with
  | .error e => .error e
  | .ok (messages,left) =>
    match finish left with
    | .error e => .error e
    | .ok () => .ok messages

end SseDecoder

def messageOf (frame : StreamFrame) : SseMessage :=
  ⟨some frame.stream_seq,units frame.event_kind,units frame.data_json⟩

/-- A frame the server sends: the number is a safe integer, and its texts are
of one line each. -/
structure Sendable (frame : StreamFrame) : Prop where
  first : 1 ≤ frame.stream_seq
  safe : frame.stream_seq ≤ 2^53-1
  kind : ∀ c ∈ frame.event_kind.toList, c ≠ '\n' ∧ c ≠ '\r'
  data : ∀ c ∈ frame.data_json.toList, c ≠ '\n' ∧ c ≠ '\r'

theorem units_append (a b : String) : units (a ++ b) = units a ++ units b := by
  rw [units,String.toList_append,flatMap_append,units,units]

theorem mem_utf16 {c : Char} {u : UInt16} (h : u ∈ utf16 c) (hu : u.toNat < 0xD800) :
    c.toNat = u.toNat := by
  rw [utf16] at h
  split_ifs at h with hsmall
  · rw [mem_singleton.mp h,UInt16.toNat_ofNat']
    exact (Nat.mod_eq_of_lt hsmall).symm
  · have hvalid : c.toNat < 0x110000 := by
      have hc := c.valid
      rcases hc with hc | hc
      · exact Nat.lt_trans hc (by decide)
      · exact hc.2
    rcases mem_cons.mp h with rfl | h
    · rw [UInt16.toNat_ofNat'] at hu
      omega
    · rw [mem_singleton.mp h,UInt16.toNat_ofNat'] at hu
      omega

theorem mem_units {text : String} {u : UInt16} (h : u ∈ units text) (hu : u.toNat < 0xD800) :
    ∃ c ∈ text.toList, c.toNat = u.toNat := by
  obtain ⟨c,hc,hmem⟩ := mem_flatMap.mp h
  exact ⟨c,hc,mem_utf16 hmem hu⟩

theorem char_ext {c d : Char} (h : c.toNat = d.toNat) : c = d := Char.ext (UInt32.toNat_inj.mp h)

theorem units_line {text : String} (h : ∀ c ∈ text.toList, c ≠ '\n' ∧ c ≠ '\r') :
    lf ∉ units text ∧ cr ∉ units text := by
  constructor
  · intro hmem
    obtain ⟨c,hc,heq⟩ := mem_units hmem (by decide)
    exact (h c hc).1 (char_ext heq)
  · intro hmem
    obtain ⟨c,hc,heq⟩ := mem_units hmem (by decide)
    exact (h c hc).2 (char_ext heq)

theorem replaceCrLf_eq {text : Units} (h : cr ∉ text) : replaceCrLf text = text := by
  induction text with
  | nil => rfl
  | cons u text ih =>
    have hu := ne_of_not_mem_cons h
    have htext := not_mem_of_not_mem_cons h
    cases text with
    | nil => rfl
    | cons v text => rw [replaceCrLf,if_neg fun hboth => hu hboth.1.symm,ih htext]

theorem push_eq {buffer chunk : Units} (hbuffer : cr ∉ buffer) (hchunk : cr ∉ chunk) :
    SseDecoder.push buffer chunk =
      blankLines.push parseBlock sseBufferCharsMax SseDecoder.overflow buffer chunk := by
  rw [SseDecoder.push,replaceCrLf_eq fun h => (mem_append.mp h).elim hbuffer hchunk]
  rfl

variable {chunks : List Units}

theorem feed_eq {buffer : Units} (hbuffer : cr ∉ buffer)
    (hchunks : ∀ chunk ∈ chunks, cr ∉ chunk) : SseDecoder.feed buffer chunks =
      blankLines.feed parseBlock sseBufferCharsMax SseDecoder.overflow buffer chunks := by
  induction chunks generalizing buffer with
  | nil => rfl
  | cons chunk chunks ih =>
    have hchunk := hchunks chunk (mem_cons_self ..)
    rw [SseDecoder.feed,Cutter.feed,push_eq hbuffer hchunk]
    cases hpush : blankLines.push parseBlock sseBufferCharsMax SseDecoder.overflow buffer chunk with
    | error e => rfl
    | ok p =>
      rw [Cutter.push] at hpush
      split_ifs at hpush
      have hleft := Cutter.drain_left (fun _ _ _ h => (cutBlock_suffix h).1) hpush
      have hcr : cr ∉ p.2 := fun h =>
        (mem_append.mp (hleft.mem h)).elim hbuffer hchunk
      simp only [ih hcr fun chunk h => hchunks chunk (mem_cons_of_mem _ h)]
      generalize blankLines.feed parseBlock sseBufferCharsMax SseDecoder.overflow p.2 chunks = fed
      cases fed <;> rfl

structure Line (line : Units) : Prop where
  nonempty : line ≠ []
  whole : lf ∉ line

variable {line : Units}

theorem cutBlock_line (h : lf ∉ line) (u : UInt16) (rest : Units) :
    cutBlock (line ++ u :: rest) = (cutBlock (u :: rest)).map fun p => (line ++ p.1,p.2) := by
  induction line with
  | nil => cases hcut : cutBlock (u :: rest) <;> simp [hcut]
  | cons v line ih =>
    have hv := ne_of_not_mem_cons h
    have hline := not_mem_of_not_mem_cons h
    obtain ⟨w,text,htext⟩ : ∃ w text, line ++ u :: rest = w :: text := by
      cases line <;> exact ⟨_,_,rfl⟩
    have hcut := ih hline
    rw [htext] at hcut
    rw [cons_append,htext,cutBlock,if_neg fun hboth => hv hboth.1.symm,hcut,Option.map_map]
    rfl

variable {lines : List Units}

theorem cutBlock_lines (h : ∀ l ∈ line :: lines, Line l) (rest : Units) :
    cutBlock ([lf].intercalate (line :: lines) ++ lf :: lf :: rest) =
      some ([lf].intercalate (line :: lines),rest) := by
  induction lines generalizing line with
  | nil =>
    have hline := h line (mem_cons_self ..)
    rw [intercalate_singleton,cutBlock_line hline.whole,cutBlock,if_pos ⟨rfl,rfl⟩]
    simp
  | cons next lines ih =>
    have hline := h line (mem_cons_self ..)
    have hnext := h next (by simp)
    obtain ⟨u,text,rfl⟩ := exists_cons_of_ne_nil hnext.nonempty
    have hu : u ≠ lf := fun heq => hnext.whole (heq ▸ mem_cons_self ..)
    have hrest := ih fun l hl => h l (mem_cons_of_mem _ hl)
    obtain ⟨more,hmore⟩ : ∃ more, [lf].intercalate ((u :: text) :: lines) = u :: more := by
      cases lines with
      | nil => exact ⟨text,intercalate_singleton ..⟩
      | cons l ls => exact ⟨_,by rw [intercalate_cons_cons,cons_append]; rfl⟩
    rw [intercalate_cons_cons,hmore,append_assoc,append_assoc,singleton_append,
      cutBlock_line hline.whole]
    rw [hmore] at hrest
    rw [cons_append,cutBlock,if_neg fun hboth => hu hboth.2,← cons_append,hrest]
    simp

theorem splitLines_line (h : lf ∉ line) : splitLines line = [line] := by
  induction line with
  | nil => rfl
  | cons u line ih =>
    have hu := ne_of_not_mem_cons h
    rw [splitLines,if_neg hu.symm,ih (not_mem_of_not_mem_cons h)]

theorem splitLines_ended (h : lf ∉ line) (rest : Units) :
    splitLines (line ++ lf :: rest) = line :: splitLines rest := by
  induction line with
  | nil => rfl
  | cons u line ih =>
    have hu := ne_of_not_mem_cons h
    rw [cons_append,splitLines,if_neg hu.symm,ih (not_mem_of_not_mem_cons h)]

theorem splitLines_lines (h : ∀ l ∈ line :: lines, Line l) :
    splitLines ([lf].intercalate (line :: lines)) = line :: lines := by
  induction lines generalizing line with
  | nil =>
    rw [intercalate_singleton,splitLines_line (h line (mem_cons_self ..)).whole]
  | cons next lines ih =>
    rw [intercalate_cons_cons,append_assoc,singleton_append,
      splitLines_ended (h line (mem_cons_self ..)).whole,
      ih fun l hl => h l (mem_cons_of_mem _ hl)]

theorem cutBlock_early {part block rest : Units} (h : cutBlock part = some (block,rest))
    (more : Units) :
    cutBlock (part ++ more) = some (block,rest ++ more) := by
  induction part generalizing block with
  | nil => cases h
  | cons u part ih =>
    cases part with
    | nil => cases h
    | cons v part =>
      rw [cutBlock] at h
      rw [cons_append,cons_append,cutBlock]
      split_ifs at h ⊢ with hblank
      · cases h
        rfl
      · obtain ⟨p,hp,heq⟩ := Option.map_eq_some_iff.mp h
        cases heq
        have hmore := ih hp
        rw [cons_append] at hmore
        rw [hmore]
        rfl

theorem lines_whole (h : ∀ l ∈ line :: lines, Line l) :
    blankLines.Whole ([lf].intercalate (line :: lines) ++ [lf,lf])
      ([lf].intercalate (line :: lines)) where
  found := fun rest => by
    rw [append_assoc]
    exact cutBlock_lines h rest
  waits := fun part rest htext hrest => by
    cases hcut : blankLines.cut part with
    | none => rfl
    | some p =>
      have hearly := cutBlock_early hcut rest
      rw [htext,cutBlock_lines h []] at hearly
      have hnil := (Prod.mk.inj (Option.some.inj hearly)).2
      exact absurd (append_eq_nil_iff.mp hnil.symm).2 hrest

theorem parseLine_field {field value : Units} (fields : SseFields) (hfield : field ≠ [])
    (hcolon : colon ∉ field) : parseLine fields (field ++ colon :: blank :: value) =
      if field = units "id" then
        match parseId value with
        | .error e => .error e
        | .ok id => .ok { fields with id := some id }
      else if field = units "event" then .ok { fields with event := value }
      else if field = units "data" then .ok { fields with data := fields.data ++ [value] }
      else .ok fields := by
  obtain ⟨u,field,rfl⟩ := exists_cons_of_ne_nil hfield
  have hall : ∀ v ∈ u :: field, decide (v ≠ colon) = true := fun v hv =>
    decide_eq_true fun heq => hcolon (heq ▸ hv)
  have hhead : ¬(u :: field ++ colon :: blank :: value = [] ∨
      (u :: field ++ colon :: blank :: value).head? = some colon) := by
    rintro (h | h)
    · cases h
    · exact ne_of_not_mem_cons hcolon (Option.some.inj h).symm
  have htake : (u :: field ++ colon :: blank :: value).takeWhile (· ≠ colon) = u :: field := by
    rw [takeWhile_append_of_pos hall]
    simp
  have hdrop : (u :: field ++ colon :: blank :: value).dropWhile (· ≠ colon) =
      colon :: blank :: value := by
    rw [dropWhile_append_of_pos hall]
    simp
  rw [parseLine,if_neg hhead]
  simp only [htake,hdrop,tail_cons,List.head?_cons,if_true]

theorem utf16_digit {c : Char} (h : c.isDigit) :
    utf16 c = [UInt16.ofNat c.toNat] ∧ 48 ≤ c.toNat ∧ c.toNat ≤ 57 := by
  have hdigit : 48 ≤ c.toNat ∧ c.toNat ≤ 57 := by
    simpa [Char.isDigit,UInt32.le_iff_toNat_le] using h
  exact ⟨if_pos (by omega),hdigit⟩

theorem readNumber_digits {digits : List Char} (h : ∀ c ∈ digits, c.isDigit) (n : Nat) :
    (digits.flatMap utf16).foldl (fun n u => 10*n+(u.toNat-48)) n = Nat.ofDigitChars 10 digits n := by
  induction digits generalizing n with
  | nil => rfl
  | cons c digits ih =>
    obtain ⟨hc,hle,hge⟩ := utf16_digit (h c (mem_cons_self ..))
    rw [flatMap_cons,hc,singleton_append,foldl_cons,
      ih fun c hc => h c (mem_cons_of_mem _ hc),Nat.ofDigitChars_cons,UInt16.toNat_ofNat',
      Nat.mod_eq_of_lt (by omega)]
    rfl

theorem all_digits {digits : List Char} (h : ∀ c ∈ digits, c.isDigit) :
    (digits.flatMap utf16).all isDigit = true := by
  rw [all_eq_true]
  intro u hu
  obtain ⟨c,hc,hmem⟩ := mem_flatMap.mp hu
  obtain ⟨hunit,hle,hge⟩ := utf16_digit (h c hc)
  rw [hunit,mem_singleton] at hmem
  rw [hmem,isDigit,UInt16.toNat_ofNat',Nat.mod_eq_of_lt (by omega)]
  exact decide_eq_true ⟨hle,hge⟩

theorem head_toDigits {n : Nat} (h : 1 ≤ n) : (Nat.toDigits 10 n).head? ≠ some '0' := by
  rw [Nat.toDigits_eq_if (by decide)]
  split_ifs with hlt
  · have hdigit : ∀ d : Fin 10, d.1 ≠ 0 → d.1.digitChar ≠ '0' := by decide
    exact fun hzero => hdigit ⟨n,hlt⟩ (show n ≠ 0 by omega) (Option.some.inj hzero)
  · have hhead := head_toDigits (n := n/10) (by omega)
    cases hdigits : Nat.toDigits 10 (n/10) with
    | nil => exact absurd hdigits Nat.toDigits_ne_nil
    | cons c digits => rwa [hdigits] at hhead

theorem parseId_units {n : Nat} (hfirst : 1 ≤ n) (hsafe : n ≤ 2^53-1) :
    parseId (units (toString n)) = .ok n := by
  have hdigits : ∀ c ∈ Nat.toDigits 10 n, c.isDigit := fun c =>
    Nat.isDigit_of_mem_toDigits (by decide) (by decide)
  have hread : readNumber (units (toString n)) = n := by
    rw [units,Nat.toString_eq_ofList_toDigits,String.toList_ofList,readNumber,
      readNumber_digits hdigits,Nat.ofDigitChars_ten_toDigits]
  have hall : (units (toString n)).all isDigit = true := by
    rw [units,Nat.toString_eq_ofList_toDigits,String.toList_ofList]
    exact all_digits hdigits
  have hhead : ∀ u rest, units (toString n) = u :: rest → u ≠ 48 := by
    intro u rest heq hu
    rw [units,Nat.toString_eq_ofList_toDigits,String.toList_ofList] at heq
    have hzero := head_toDigits hfirst
    cases htext : Nat.toDigits 10 n with
    | nil => exact absurd htext Nat.toDigits_ne_nil
    | cons c digits =>
      obtain ⟨hunit,hle,hge⟩ := utf16_digit (hdigits c (htext ▸ mem_cons_self ..))
      rw [htext,flatMap_cons,hunit,singleton_append] at heq
      rw [htext] at hzero
      have hcode := congrArg UInt16.toNat ((List.cons.inj heq).1.trans hu)
      rw [UInt16.toNat_ofNat',Nat.mod_eq_of_lt (by omega)] at hcode
      exact hzero (congrArg some (char_ext hcode))
  cases htext : units (toString n) with
  | nil =>
    rw [htext] at hread
    have : n = 0 := hread.symm
    omega
  | cons u rest =>
    rw [htext] at hall hread
    rw [all_cons,Bool.and_eq_true] at hall
    rw [parseId,if_pos ⟨hall.1,hhead u rest htext,hall.2⟩,hread,if_pos hsafe]

def frameLines (frame : StreamFrame) : List Units :=
  [units "id" ++ colon :: blank :: units (toString frame.stream_seq),
    units "event" ++ colon :: blank :: units frame.event_kind,
    units "data" ++ colon :: blank :: units frame.data_json]

theorem units_toSse (frame : StreamFrame) :
    units frame.toSse = [lf].intercalate (frameLines frame) ++ [lf,lf] := by
  have hid : units "id: " = units "id" ++ [colon,blank] := by decide
  have hevent : units "\nevent: " = lf :: units "event" ++ [colon,blank] := by decide
  have hdata : units "\ndata: " = lf :: units "data" ++ [colon,blank] := by decide
  have hend : units "\n\n" = [lf,lf] := by decide
  simp [StreamFrame.toSse,frameLines,units_append,hid,hevent,hdata,hend]

theorem units_number (n : Nat) : lf ∉ units (toString n) ∧ cr ∉ units (toString n) := by
  refine units_line fun c hc => ?_
  rw [Nat.toString_eq_ofList_toDigits,String.toList_ofList] at hc
  have hdigit := Nat.isDigit_of_mem_toDigits (by decide) (by decide) hc
  constructor <;> rintro rfl <;> exact absurd hdigit (by decide)

theorem line_of {field value : Units} (hlf : lf ∉ field) (hvalue : lf ∉ value) : Line (field ++ colon :: blank :: value) where
  nonempty := by simp
  whole := by
    have hcolon : lf ≠ colon := by decide
    have hblank : lf ≠ blank := by decide
    simp [hlf,hvalue,hcolon,hblank]

variable {frame : StreamFrame}

theorem frameLines_line (h : Sendable frame) : ∀ l ∈ frameLines frame, Line l := by
  intro l hl
  simp only [frameLines,mem_cons,not_mem_nil,or_false] at hl
  rcases hl with rfl | rfl | rfl
  · exact line_of (by decide) (units_number _).1
  · exact line_of (by decide) (units_line h.kind).1
  · exact line_of (by decide) (units_line h.data).1

theorem parse_frame (h : Sendable frame) :
    parseBlock ([lf].intercalate (frameLines frame)) = .ok [messageOf frame] := by
  have hevent : units "event" ≠ units "id" := by decide
  have hdata : units "data" ≠ units "id" ∧ units "data" ≠ units "event" := by decide
  rw [parseBlock,frameLines,splitLines_lines (frameLines_line h),foldlM_cons,
    parseLine_field _ (by decide) (by decide),if_pos rfl,parseId_units h.first h.safe]
  simp only [foldlM_cons,foldlM_nil,bind,Except.bind,pure,Except.pure]
  rw [parseLine_field _ (by decide) (by decide),if_neg hevent,if_pos rfl]
  simp only
  rw [parseLine_field _ (by decide) (by decide),if_neg hdata.1,if_neg hdata.2,if_pos rfl]
  simp [messageOf]

def retryLine : Units := units "retry" ++ colon :: blank :: units (toString SSE_RETRY_MS)

theorem retryLine_line : ∀ l ∈ [retryLine], Line l := by
  intro l hl
  rw [mem_singleton.mp hl]
  exact line_of (by decide) (units_number _).1

theorem units_sseRetry : units sseRetry = [lf].intercalate [retryLine] ++ [lf,lf] := by
  have hretry : units "retry: " = units "retry" ++ [colon,blank] := by decide
  have hend : units "\n\n" = [lf,lf] := by decide
  simp [sseRetry,retryLine,units_append,hretry,hend]

theorem parse_retry : parseBlock ([lf].intercalate [retryLine]) = .ok [] := by
  have hretry : units "retry" ≠ units "id" ∧ units "retry" ≠ units "event" ∧
    units "retry" ≠ units "data" := by decide
  rw [parseBlock,splitLines_lines retryLine_line,foldlM_cons,retryLine,
    parseLine_field _ (by decide) (by decide),if_neg hretry.1,if_neg hretry.2.1,if_neg hretry.2.2]
  rfl

def bodyBlocks (frames : List StreamFrame) : List (Units × List SseMessage) :=
  (units sseRetry,[]) :: frames.map fun frame => (units frame.toSse,[messageOf frame])

def blockLengths (frames : List StreamFrame) : List Nat :=
  (units sseRetry).length :: frames.map fun frame => (units frame.toSse).length

theorem units_sseBody (frames : List StreamFrame) :
    units (sseBody frames) = ((bodyBlocks frames).map Prod.fst).flatten := by
  have hfold : ∀ text, units (frames.foldl (fun body frame => body ++ frame.toSse) text) =
      units text ++ (frames.map fun frame => units frame.toSse).flatten := by
    induction frames with
    | nil => exact fun text => (append_nil _).symm
    | cons frame frames ih =>
      intro text
      rw [foldl_cons,ih,units_append,append_assoc,map_cons,flatten_cons]
  rw [sseBody,hfold,bodyBlocks,map_cons,flatten_cons,map_map]
  simp only [Function.comp_def]

variable {frames : List StreamFrame}

theorem bodyBlocks_blocks (h : ∀ frame ∈ frames, Sendable frame) :
    Cutter.Blocks blankLines parseBlock (bodyBlocks frames) := by
  intro b hb
  rcases mem_cons.mp hb with rfl | hb
  · exact ⟨_,units_sseRetry ▸ lines_whole retryLine_line,parse_retry⟩
  · obtain ⟨frame,hframe,rfl⟩ := mem_map.mp hb
    exact ⟨_,units_toSse frame ▸ lines_whole (frameLines_line (h frame hframe)),
      parse_frame (h frame hframe)⟩

theorem bodyBlocks_messages (frames : List StreamFrame) :
    ((bodyBlocks frames).map Prod.snd).flatten = frames.map messageOf := by
  rw [bodyBlocks,map_cons,flatten_cons,nil_append,map_map]
  induction frames with
  | nil => rfl
  | cons frame frames ih => rw [map_cons,flatten_cons,ih]; rfl

theorem bodyBlocks_lengths (frames : List StreamFrame) :
    (bodyBlocks frames).map (fun b => b.1.length) = blockLengths frames := by
  rw [bodyBlocks,blockLengths,map_cons,map_map]
  simp only [Function.comp_def]

theorem cr_append {a b : String} (ha : cr ∉ units a) (hb : cr ∉ units b) :
    cr ∉ units (a ++ b) := by
  rw [units_append,mem_append]
  exact fun h => h.elim ha hb

theorem cr_toSse (h : Sendable frame) : cr ∉ units frame.toSse := by
  have hid := cr_append (a := "id: ") (by decide) (units_number frame.stream_seq).2
  have hevent := cr_append (b := "\nevent: ") hid (by decide)
  have hkind := cr_append hevent (units_line h.kind).2
  have hfield := cr_append (b := "\ndata: ") hkind (by decide)
  exact cr_append (cr_append hfield (units_line h.data).2) (by decide)

theorem cr_sseBody (h : ∀ frame ∈ frames, Sendable frame) : cr ∉ units (sseBody frames) := by
  have hfold : ∀ text, cr ∉ units text →
      cr ∉ units (frames.foldl (fun body frame => body ++ frame.toSse) text) := by
    induction frames with
    | nil => exact fun _ htext => htext
    | cons frame frames ih =>
      intro text htext
      have hframe := cr_toSse (h frame (mem_cons_self ..))
      exact ih (fun f hf => h f (mem_cons_of_mem _ hf)) _ (cr_append htext hframe)
  exact hfold _ (cr_append (cr_append (by decide) (units_number _).2) (by decide))

theorem decode_body (h : ∀ frame ∈ frames, Sendable frame)
    (hchunks : chunks.flatten = units (sseBody frames)) :
    (Cutter.Fits sseBufferCharsMax (blockLengths frames) 0 chunks →
        SseDecoder.decode chunks = .ok (frames.map messageOf)) ∧
      (¬Cutter.Fits sseBufferCharsMax (blockLengths frames) 0 chunks →
        SseDecoder.decode chunks = .error SseDecoder.overflow) := by
  have hcr : ∀ chunk ∈ chunks, cr ∉ chunk := fun chunk hchunk hmem =>
    cr_sseBody h (hchunks ▸ mem_flatten.mpr ⟨chunk,hchunk,hmem⟩)
  have hstands : Cutter.Stands (bodyBlocks frames) ([] : Units) := by
    refine ⟨fun b rest heq => ?_,fun _ => rfl⟩
    cases heq
    rw [units_sseRetry,length_append]
    exact Nat.succ_pos _
  have htext : [] ++ chunks.flatten = ((bodyBlocks frames).map Prod.fst).flatten := by
    rw [nil_append,hchunks,units_sseBody]
  have hfed := @Cutter.feed_blocks _ _ _ blankLines parseBlock sseBufferCharsMax
    SseDecoder.overflow _ (bodyBlocks_blocks h) rfl _ hstands chunks htext
  rw [bodyBlocks_lengths,bodyBlocks_messages,← feed_eq (not_mem_nil) hcr] at hfed
  constructor
  · intro hfits
    rw [SseDecoder.decode,hfed.1 hfits]
    rfl
  · intro hover
    rw [SseDecoder.decode,hfed.2 hover]

/-- However the body is cut into chunks, the decoder reads exactly its frames
unless a chunk, with what was left unfinished before it, is more than the buffer holds. -/
theorem decoded_iff (frames : List StreamFrame) (chunks : List Units)
    (h : ∀ frame ∈ frames, Sendable frame) (hchunks : chunks.flatten = units (sseBody frames)) :
    SseDecoder.decode chunks = .ok (frames.map messageOf) ↔
      Cutter.Fits sseBufferCharsMax (blockLengths frames) 0 chunks := by
  constructor
  · intro hok
    by_contra hover
    rw [(decode_body h hchunks).2 hover] at hok
    cases hok
  · exact (decode_body h hchunks).1

def twoFrames : List StreamFrame := [⟨1,"run.step","\x7b\x7d"⟩,⟨2,"run.step","\x7b\x7d"⟩]

theorem twoFrames_sendable : ∀ frame ∈ twoFrames, Sendable frame := by
  intro frame hframe
  simp only [twoFrames,mem_cons,not_mem_nil,or_false] at hframe
  rcases hframe with rfl | rfl <;> constructor <;> simp

theorem twoFrames_decoded :
    SseDecoder.decode [(units (sseBody twoFrames)).take 60,(units (sseBody twoFrames)).drop 60] =
      .ok (twoFrames.map messageOf) :=
  (decoded_iff twoFrames _ twoFrames_sendable (by simp)).mpr (by decide)

def longFrame (n seq : Nat) : StreamFrame :=
  ⟨seq,"run.step",String.ofList (List.replicate n 'x')⟩

def longFrames : List StreamFrame := (List.range 70).map fun i => longFrame 2000 (i+1)

theorem units_replicate (n : Nat) :
    (units (String.ofList (List.replicate n 'x'))).length = n := by
  rw [units,String.toList_ofList]
  induction n with
  | zero => rfl
  | succ n ih =>
    rw [replicate_succ,flatMap_cons,length_append,ih,utf16,Nat.add_comm]
    rfl

theorem length_longFrame (n : Nat) {seq : Nat} (h : seq < 100) :
    n ≤ (units (longFrame n seq).toSse).length ∧
      (units (longFrame n seq).toSse).length < n+100 := by
  have hdata := units_replicate n
  have hkind : (units "run.step").length = 8 := by decide
  have hnumber : (units (toString seq)).length ≤ 2 := by
    have hall : ∀ n < 100, (units (toString n)).length ≤ 2 := by decide
    exact hall seq h
  have hfields : (units "id").length = 2 ∧ (units "event").length = 5 ∧
    (units "data").length = 4 := by decide
  rw [units_toSse,frameLines,longFrame,intercalate_cons_cons,intercalate_cons_cons,
    intercalate_singleton]
  simp only [length_append,length_cons,length_nil,hdata,hkind,hfields.1,
    hfields.2.1,hfields.2.2]
  omega

theorem longFrames_sendable : ∀ frame ∈ longFrames, Sendable frame := by
  intro frame hframe
  obtain ⟨i,hi,rfl⟩ := mem_map.mp hframe
  have hlt := mem_range.mp hi
  refine ⟨Nat.succ_pos _,?_,?_,fun c hc => ?_⟩
  · show i+1 ≤ 2^53-1
    omega
  · show ∀ c ∈ "run.step".toList, c ≠ '\n' ∧ c ≠ '\r'
    simp
  · rw [show c = 'x' from eq_of_mem_replicate (String.toList_ofList ▸ hc)]
    decide

theorem length_body {n : Nat} (h : ∀ frame ∈ frames, n ≤ (units frame.toSse).length) :
    frames.length*n ≤ (units (sseBody frames)).length := by
  have hsum : frames.length*n ≤ (frames.map fun frame => (units frame.toSse).length).sum := by
    induction frames with
    | nil => simp
    | cons frame frames ih =>
      have hframe := h frame (mem_cons_self ..)
      have hrest := ih fun f hf => h f (mem_cons_of_mem _ hf)
      rw [length_cons,map_cons,sum_cons,Nat.succ_mul]
      omega
  rw [units_sseBody,Cutter.length_flatten_fst,bodyBlocks_lengths,blockLengths,sum_cons]
  omega

/-- Every frame is short and sendable, and the body in one chunk is refused. -/
theorem longFrames_overflow : (∀ frame ∈ longFrames, Sendable frame) ∧
    (∀ frame ∈ longFrames, (units frame.toSse).length < 2100) ∧
    SseDecoder.decode [units (sseBody longFrames)] ≠ .ok (longFrames.map messageOf) := by
  have hlength : ∀ frame ∈ longFrames, 2000 ≤ (units frame.toSse).length ∧
      (units frame.toSse).length < 2100 := by
    intro frame hframe
    obtain ⟨i,hi,rfl⟩ := mem_map.mp hframe
    have hlt := mem_range.mp hi
    exact length_longFrame 2000 (by omega)
  refine ⟨longFrames_sendable,fun frame hframe => (hlength frame hframe).2,?_⟩
  have hbody := length_body fun frame hframe => (hlength frame hframe).1
  rw [longFrames,length_map,length_range,← longFrames] at hbody
  have hover : ¬Cutter.Fits sseBufferCharsMax (blockLengths longFrames) 0
      [units (sseBody longFrames)] := by
    intro hfits
    have hle := hfits.1
    rw [sseBufferCharsMax] at hle
    omega
  rw [(decode_body longFrames_sendable (by simp)).2 hover]
  exact nofun

end ProjectOS.Ui
