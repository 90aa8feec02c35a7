import Mathlib.Data.List.DropRight
import ProjectOS.Lib.Records
import ProjectOS.Ingest.Normalize

/-! What the scanner makes of the bytes it keeps: the records of the text, and a
segment for each that has content. -/

namespace ProjectOS.Ingest
open Lib Domain List

def recordSplitter (rule : RecordRule) : Splitter (Bool × Bool) UInt8 where
  start := (false,false)
  next st b :=
    (b == newline,if b == quotationMark && rule == .csvRecord then !st.2 else st.2)
  ends st b :=
    b == newline && match rule with
      | .csvRecord => !st.2
      | .paragraph => st.1

def contentOf (record : Bytes) : Bytes := record.filter fun b => !isAsciiWhitespace b

def hasContent (record : Bytes) : Bool := record.any fun b => !isAsciiWhitespace b

def lineBehind (text : Bytes) : Nat := 1+text.count newline

def leadingBlanks (record : Bytes) : Bytes := record.takeWhile isAsciiWhitespace

def uptoLastContent (record : Bytes) : Bytes := record.rdropWhile isAsciiWhitespace

def headingDepth (content : Bytes) : Nat :=
  let hashes := (content.takeWhile (· == numberSign)).length
  if 1 ≤ hashes ∧ hashes ≤ 6 ∧ hashes < content.length then hashes else 0

section
variable (markdown : Bool) (shape : EvidenceShape)

def locatorOf (before : Bytes) (index : Nat) (record : Bytes) : Locator :=
  match shape with
  | .thread | .message => .messageRange index index
  | _ => .lineRange (lineBehind (before ++ leadingBlanks record))
      (lineBehind (before ++ uptoLastContent record))

def segmentOf (before : Bytes) (index : Nat) (record : Bytes) : Segment where
  byte_start := before.length
  byte_end := before.length+record.length
  locator := locatorOf shape before index record
  depth := if markdown then headingDepth (contentOf record) else 0

def segmentsOf : Bytes → Nat → List Bytes → List Segment
  | _, _, [] => []
  | before, index, record :: records =>
    if hasContent record then
      segmentOf markdown shape before index record ::
        segmentsOf (before ++ record) (index+1) records
    else segmentsOf (before ++ record) index records

theorem segmentsOf_snoc (before : Bytes) (index : Nat) (records : List Bytes) (record : Bytes) :
    segmentsOf markdown shape before index (records ++ [record]) =
      segmentsOf markdown shape before index records ++
        if hasContent record then
          [segmentOf markdown shape (before ++ records.flatten)
            (index+records.countP hasContent) record]
        else [] := by
  induction records generalizing before index with
  | nil => simp [segmentsOf]
  | cons first records ih =>
    by_cases hfirst : hasContent first
    · simp [segmentsOf,hfirst,ih,Nat.add_assoc,Nat.add_comm 1]
    · simp [segmentsOf,hfirst,ih]

@[simp] theorem segmentsOf_length (before : Bytes) (index : Nat) (records : List Bytes) :
    (segmentsOf markdown shape before index records).length = records.countP hasContent := by
  induction records generalizing before index with
  | nil => rfl
  | cons first records ih =>
    by_cases hfirst : hasContent first <;> simp [segmentsOf,hfirst,ih]

end

@[simp] theorem newline_blank : isAsciiWhitespace newline = true := rfl

@[simp] theorem hasContent_nil : hasContent [] = false := rfl

variable (record : Bytes) (b : UInt8)

theorem hasContent_snoc :
    hasContent (record ++ [b]) = (hasContent record || !isAsciiWhitespace b) := by
  simp [hasContent]

theorem contentOf_snoc :
    contentOf (record ++ [b]) = contentOf record ++ if isAsciiWhitespace b then [] else [b] := by
  by_cases hb : isAsciiWhitespace b <;> simp [contentOf,hb]

theorem hasContent_eq_false {record : Bytes} :
    hasContent record = false ↔ ∀ b ∈ record, isAsciiWhitespace b = true := by
  simp [hasContent]

theorem leadingBlanks_snoc :
    leadingBlanks (record ++ [b]) =
      if hasContent record then leadingBlanks record
      else record ++ if isAsciiWhitespace b then [b] else [] := by
  induction record with
  | nil => by_cases hb : isAsciiWhitespace b <;> simp [leadingBlanks,hb]
  | cons c record ih =>
    by_cases hc : isAsciiWhitespace c
    · have hlead : ∀ xs, leadingBlanks (c :: xs) = c :: leadingBlanks xs := by
        simp [leadingBlanks,hc]
      have hfull : hasContent (c :: record) = hasContent record := by simp [hasContent,hc]
      rw [cons_append,hlead,hlead,hfull,ih]
      split_ifs <;> rfl
    · simp [leadingBlanks,hasContent,hc]

theorem uptoLastContent_snoc :
    uptoLastContent (record ++ [b]) =
      if isAsciiWhitespace b then uptoLastContent record else record ++ [b] :=
  rdropWhile_concat _ _ _

theorem leadingBlanks_front {record : Bytes} (h : hasContent record = true) :
    leadingBlanks record <+: uptoLastContent record := by
  induction record using List.reverseRecOn with
  | nil => simp at h
  | append_singleton record b ih =>
    rw [leadingBlanks_snoc,uptoLastContent_snoc]
    rw [hasContent_snoc] at h
    cases hb : isAsciiWhitespace b with
    | true =>
      have hfull : hasContent record = true := by simpa [hb] using h
      simpa [hfull] using ih hfull
    | false =>
      by_cases hfull : hasContent record
      · rw [if_pos hfull,if_neg (by simp)]
        exact (List.takeWhile_prefix _).trans (prefix_append _ _)
      · simp [hfull]

theorem lineBehind_snoc (text : Bytes) (b : UInt8) :
    lineBehind (text ++ [b]) = lineBehind text+if b = newline then 1 else 0 := by
  by_cases hb : b = newline <;> simp [lineBehind,hb,Nat.add_assoc]

theorem lineBehind_mono {xs ys : Bytes} (h : xs <+: ys) : lineBehind xs ≤ lineBehind ys := by
  obtain ⟨zs,rfl⟩ := h
  simp [lineBehind]

/-- The scan has written what the cutter has cut. -/
structure Tracks (rule : RecordRule) (markdown : Bool) (shape : EvidenceShape) (s : ScanState)
    (c : Cuts (Bool × Bool) UInt8) : Prop where
  same_rule : s.rule = rule
  same_markdown : s.markdown = markdown
  same_shape : s.shape = shape
  text : s.text = c.closed.flatten ++ c.part
  out_offset : s.out_offset = (c.closed.flatten ++ c.part).length
  segments : s.segments = segmentsOf markdown shape [] 0 c.closed
  record_start : s.record_start = c.closed.flatten.length
  record_index : s.record_index = c.closed.countP hasContent
  line_index : s.line_index = lineBehind (c.closed.flatten ++ c.part)
  state : (s.previous_was_newline,s.in_quotes) = c.state
  marked : s.prefix_bytes = (contentOf c.part).take recordPrefixBytes
  full : s.record_has_content = hasContent c.part
  line_start : hasContent c.part = true →
    s.record_line_start = lineBehind (c.closed.flatten ++ leadingBlanks c.part)
  line_last : hasContent c.part = true →
    s.content_line_last = lineBehind (c.closed.flatten ++ uptoLastContent c.part)

section
variable {rule : RecordRule} {markdown : Bool} {shape : EvidenceShape} {s : ScanState}
  {c : Cuts (Bool × Bool) UInt8} {b : UInt8}

theorem tracks_new : Tracks rule markdown shape (.new rule markdown shape) ⟨[],[],(false,false)⟩ := by
  constructor <;> simp [ScanState.new,segmentsOf,lineBehind,contentOf]

def ScanState.countLine (s : ScanState) (b : UInt8) : ScanState :=
  { s with
    line_index := s.line_index+if b = newline then 1 else 0
    previous_was_newline := b == newline }

theorem note_eq (s : ScanState) (b : UInt8) : s.note b = { s with
    at_start := false
    in_quotes := if b == quotationMark && s.rule == .csvRecord then !s.in_quotes else s.in_quotes
    record_line_start :=
      if s.record_has_content || isAsciiWhitespace b then s.record_line_start else s.line_index
    record_has_content := s.record_has_content || !isAsciiWhitespace b
    content_line_last := if isAsciiWhitespace b then s.content_line_last else s.line_index
    prefix_bytes := s.prefix_bytes ++
      if isAsciiWhitespace b || decide (recordPrefixBytes ≤ s.prefix_bytes.length) then []
      else [b] } := by
  cases hb : isAsciiWhitespace b with
  | true => simp [ScanState.note,hb]
  | false =>
    by_cases hlen : s.prefix_bytes.length < recordPrefixBytes
    · simp [ScanState.note,ScanState.pushPrefix,hb,hlen]
    · simp [ScanState.note,ScanState.pushPrefix,hb,hlen,Nat.not_lt.mp hlen]

theorem take_snoc_of_take {n : Nat} {xs ys : Bytes} {b : UInt8} (h : xs = ys.take n) :
    (xs ++ if n ≤ xs.length then [] else [b]) = (ys ++ [b]).take n := by
  subst h
  rw [length_take]
  by_cases hlen : n ≤ ys.length
  · rw [if_pos (by omega),append_nil,take_append_of_le_length hlen]
  · rw [if_neg (by omega),take_of_length_le (by omega),take_of_length_le]
    simp only [length_append,length_singleton]
    omega

section
variable (h : Tracks rule markdown shape s c)
include h

theorem Tracks.open_ (b : UInt8) :
    Tracks rule markdown shape (((s.note b).write [b]).countLine b)
      ⟨c.closed,c.part ++ [b],(recordSplitter rule).next c.state b⟩ := by
  have hoffset := h.out_offset
  have hline := lineBehind_snoc (c.closed.flatten ++ c.part) b
  rw [append_assoc] at hline
  rw [note_eq]
  refine
    { same_rule := h.same_rule
      same_markdown := h.same_markdown
      same_shape := h.same_shape
      text := ?_
      out_offset := ?_
      segments := h.segments
      record_start := h.record_start
      record_index := h.record_index
      line_index := ?_
      state := ?_
      marked := ?_
      full := ?_
      line_start := ?_
      line_last := ?_ }
  all_goals simp only [ScanState.write,ScanState.countLine]
  · rw [h.text,append_assoc]
  · rw [hoffset]
    simp [Nat.add_assoc]
  · rw [h.line_index,hline]
  · simp only [recordSplitter,← h.state,h.same_rule]
  · rw [contentOf_snoc]
    cases hb : isAsciiWhitespace b with
    | true => simpa using h.marked
    | false => simpa using take_snoc_of_take h.marked
  · rw [h.full,hasContent_snoc]
  · rw [hasContent_snoc,leadingBlanks_snoc,h.full]
    intro hfull
    by_cases hpart : hasContent c.part
    · simpa [hpart] using h.line_start hpart
    · have hb : isAsciiWhitespace b = false := by simpa [hpart] using hfull
      simpa [hpart,hb] using h.line_index
  · rw [hasContent_snoc,uptoLastContent_snoc]
    intro hfull
    cases hb : isAsciiWhitespace b with
    | true => simpa using h.line_last (by simpa [hb] using hfull)
    | false =>
      have hne : b ≠ newline := by
        rintro rfl
        simp at hb
      rw [if_neg hne] at hline
      simpa [hline] using h.line_index

theorem Tracks.guard : s.guardRecordSize =
    if recordBytesMax < c.part.length then
      .error (.limitExceeded "structural record" c.part.length recordBytesMax)
    else .ok s := by
  have hspan : s.out_offset-s.record_start = c.part.length := by
    rw [h.out_offset,h.record_start,length_append]
    omega
  rw [ScanState.guardRecordSize,hspan]

theorem Tracks.locator (hfull : hasContent c.part = true) :
    s.locator = locatorOf shape c.closed.flatten (c.closed.countP hasContent) c.part := by
  have hle : lineBehind (c.closed.flatten ++ leadingBlanks c.part) ≤
      lineBehind (c.closed.flatten ++ uptoLastContent c.part) :=
    lineBehind_mono (prefix_append_right_inj _ |>.mpr (leadingBlanks_front hfull))
  have hlines : Locator.lineRange s.record_line_start (max s.content_line_last s.record_line_start) =
      .lineRange (lineBehind (c.closed.flatten ++ leadingBlanks c.part))
        (lineBehind (c.closed.flatten ++ uptoLastContent c.part)) := by
    rw [h.line_start hfull,h.line_last hfull,max_eq_left hle]
  rw [ScanState.locator,h.same_shape,hlines,h.record_index]
  cases shape with
  | thread => rfl
  | message => rfl
  | _ => rfl

end

theorem headingDepth_take (content : Bytes) :
    headingDepth (content.take recordPrefixBytes) = headingDepth content := by
  have hle := (content.takeWhile_prefix (· == numberSign)).length_le
  simp only [headingDepth,← take_takeWhile,length_take,recordPrefixBytes]
  split_ifs <;> omega

theorem Tracks.depth (h : Tracks rule markdown shape s c) :
    s.depth = if markdown then headingDepth (contentOf c.part) else 0 := by
  rw [← headingDepth_take,← h.marked,← h.same_markdown]
  rfl

theorem Tracks.close (h : Tracks rule markdown shape s c)
    (hfew : c.closed.countP hasContent ≤ segmentCountMax) :
    (∃ s', s.closeRecord = .ok s' ∧
        Tracks rule markdown shape s' ⟨c.closed ++ [c.part],[],c.state⟩ ∧
        s'.at_start = s.at_start ∧ (c.closed ++ [c.part]).countP hasContent ≤ segmentCountMax) ∨
      ∃ value, s.closeRecord = .error (.limitExceeded "segment count" value segmentCountMax) ∧
        segmentCountMax < (c.closed ++ [c.part]).countP hasContent := by
  have hflat : (c.closed ++ [c.part]).flatten ++ [] = c.closed.flatten ++ c.part := by simp
  have hsnoc := segmentsOf_snoc markdown shape [] 0 c.closed c.part
  rw [nil_append,Nat.zero_add] at hsnoc
  have hcount : (c.closed ++ [c.part]).countP hasContent =
      c.closed.countP hasContent+if hasContent c.part then 1 else 0 := by
    rw [countP_append,countP_singleton]
  have hrewound : ∀ segments record_index,
      segments = segmentsOf markdown shape [] 0 (c.closed ++ [c.part]) →
      record_index = (c.closed ++ [c.part]).countP hasContent →
      Tracks rule markdown shape
        { s with segments := segments,record_index := record_index }.rewind
        ⟨c.closed ++ [c.part],[],c.state⟩ := by
    intro segments record_index hsegments hindex
    exact
      { same_rule := h.same_rule
        same_markdown := h.same_markdown
        same_shape := h.same_shape
        text := by rw [hflat]; exact h.text
        out_offset := by rw [hflat]; exact h.out_offset
        segments := hsegments
        record_start := h.out_offset.trans (by simp)
        record_index := hindex
        line_index := by rw [hflat]; exact h.line_index
        state := h.state
        marked := rfl
        full := rfl
        line_start := by simp
        line_last := by simp }
  cases hfull : hasContent c.part with
  | false =>
    rw [hfull,if_neg (by simp)] at hsnoc hcount
    left
    refine ⟨s.rewind,by simp [ScanState.closeRecord,h.full,hfull],?_,rfl,by omega⟩
    exact hrewound _ _ (by rw [hsnoc,append_nil,h.segments]) (by rw [hcount,h.record_index]; rfl)
  | true =>
    rw [hfull,if_pos rfl] at hsnoc hcount
    have hlength : s.segments.length = c.closed.countP hasContent := by
      rw [h.segments,segmentsOf_length]
    have hsegment : (⟨s.record_start,s.out_offset,s.locator,s.depth⟩ : Segment) =
        segmentOf markdown shape c.closed.flatten (c.closed.countP hasContent) c.part := by
      rw [segmentOf,h.record_start,h.out_offset,h.locator hfull,h.depth,length_append]
    by_cases hroom : segmentCountMax ≤ s.segments.length
    · right
      refine ⟨s.segments.length+1,?_,by omega⟩
      simp [ScanState.closeRecord,h.full,hfull,pushSegment,hroom,Except.map]
    · left
      have hpush : pushSegment s.segments ⟨s.record_start,s.out_offset,s.locator,s.depth⟩ =
          .ok (segmentsOf markdown shape [] 0 (c.closed ++ [c.part])) := by
        rw [pushSegment,if_neg hroom,hsegment,hsnoc,h.segments]
      refine ⟨_,?_,hrewound _ (s.record_index+1) rfl (by rw [hcount,h.record_index]),rfl,by omega⟩
      rw [ScanState.closeRecord,if_pos (h.full.trans hfull),hpush]
      rfl

end

def takeByte (s : ScanState) (b : UInt8) : Except StreamError ScanState :=
  if b = newline then ((s.note b).write [b]).endLine
  else .ok (((s.note b).write [b]).countLine b)

/-- No line inside a record ends too far into it, and the records that have ended
are not too many. -/
structure Passes (rule : RecordRule) (text : Bytes) : Prop where
  few : ((recordSplitter rule).cuts text).closed.countP hasContent ≤ segmentCountMax
  lines : ∀ before, before ++ [newline] <+: text →
    ((recordSplitter rule).cuts (before ++ [newline])).part.length ≤ recordBytesMax

/-- How a scan that has come to this text stands. The open record is measured behind
a newline and where windows stop. -/
inductive Outcome (stops : Bytes → Prop) (rule : RecordRule) (markdown : Bool)
    (shape : EvidenceShape) (text : Bytes) (at_start : Bool) :
    Except StreamError ScanState → Prop
  | passed (s : ScanState) : Tracks rule markdown shape s ((recordSplitter rule).cuts text) →
      Passes rule text → s.at_start = at_start →
      Outcome stops rule markdown shape text at_start (.ok s)
  | oversized (value : Nat) (before : Bytes) : before <+: text →
      recordBytesMax < ((recordSplitter rule).cuts before).part.length →
      (∃ front, before = front ++ [newline]) ∨ stops before →
      Outcome stops rule markdown shape text at_start
        (.error (.limitExceeded "structural record" value recordBytesMax))
  | overflowing (value : Nat) :
      segmentCountMax < ((recordSplitter rule).cuts text).closed.countP hasContent →
      Outcome stops rule markdown shape text at_start
        (.error (.limitExceeded "segment count" value segmentCountMax))

section
variable {rule : RecordRule} {markdown : Bool} {shape : EvidenceShape} {s : ScanState}
  {stops : Bytes → Prop} {text : Bytes} {at_start : Bool}

theorem Passes.snoc (h : Passes rule text) {b : UInt8}
    (hfew : ((recordSplitter rule).cuts (text ++ [b])).closed.countP hasContent ≤ segmentCountMax)
    (hline : b = newline →
      ((recordSplitter rule).cuts (text ++ [b])).part.length ≤ recordBytesMax) :
    Passes rule (text ++ [b]) := by
  refine ⟨hfew,?_⟩
  intro before hbefore
  rcases prefix_concat_iff.mp hbefore with heq | hpre
  · obtain ⟨rfl,hb⟩ := append_inj' heq rfl
    obtain rfl : newline = b := by simpa using hb
    exact hline rfl
  · exact h.lines before hpre

theorem Outcome.error_mono {more : Bytes} {at_start' : Bool} {e : StreamError}
    (h : Outcome stops rule markdown shape text at_start (.error e)) :
    Outcome stops rule markdown shape (text ++ more) at_start' (.error e) := by
  cases h with
  | oversized value before hpre hlong hpoint =>
    exact .oversized value before (hpre.trans (prefix_append _ _)) hlong hpoint
  | overflowing value hmany =>
    refine .overflowing value (lt_of_lt_of_le hmany ?_)
    exact ((recordSplitter rule).closed_append text more).sublist.countP_le

theorem endLine_eq {c : Cuts (Bool × Bool) UInt8} (h : Tracks rule markdown shape s c)
    (run : Bytes) : ((s.note newline).write run).endLine =
      if (recordSplitter rule).ends c.state newline then
        (((s.note newline).write run).countLine newline).closeRecord.bind ScanState.guardRecordSize
      else (((s.note newline).write run).countLine newline).guardRecordSize := by
  have hcount : ((s.note newline).write run).countLine newline =
      { (s.note newline).write run with
        line_index := ((s.note newline).write run).line_index+1,previous_was_newline := true } := rfl
  rw [hcount,ScanState.endLine,note_eq,← h.state]
  cases hrule : s.rule with
  | csvRecord => simp [ScanState.write,recordSplitter,← h.same_rule,hrule,newline,quotationMark]
  | paragraph => simp [ScanState.write,recordSplitter,← h.same_rule,hrule]

theorem takeByte_outcome (h : Outcome stops rule markdown shape text at_start (.ok s)) (b : UInt8) :
    Outcome stops rule markdown shape (text ++ [b]) false (takeByte s b) := by
  cases h with
  | passed _ htracks hpasses _ =>
  have hopen := htracks.open_ b
  have hat : (((s.note b).write [b]).countLine b).at_start = false := by rw [note_eq]; rfl
  have hcuts := (recordSplitter rule).cuts_snoc text b
  by_cases hb : b = newline
  · subst hb
    rw [takeByte,if_pos rfl,endLine_eq htracks]
    split_ifs with hends
    · rw [Splitter.take,if_pos hends] at hcuts
      rcases hopen.close hpasses.few with ⟨s',hclose,htracks',hat',hfew⟩ | ⟨value,hclose,hmany⟩
      · rw [hclose]
        show Outcome _ _ _ _ _ _ s'.guardRecordSize
        rw [htracks'.guard,if_neg (by simp)]
        refine .passed s' (by rw [hcuts]; exact htracks') (hpasses.snoc ?_ ?_) (hat'.trans hat)
        · rw [hcuts]
          exact hfew
        · simp [hcuts]
      · rw [hclose]
        exact .overflowing value (by rw [hcuts]; exact hmany)
    · rw [Splitter.take,if_neg hends] at hcuts
      rw [hopen.guard]
      split_ifs with hlong
      · exact .oversized _ _ (prefix_refl _) (by rw [hcuts]; exact hlong)
          (Or.inl ⟨text,rfl⟩)
      · refine .passed _ (by rw [hcuts]; exact hopen) (hpasses.snoc ?_ ?_) hat
        · rw [hcuts]
          exact hpasses.few
        · rw [hcuts]
          exact fun _ => Nat.not_lt.mp hlong
  · have hends : (recordSplitter rule).ends ((recordSplitter rule).cuts text).state b = false := by
      simp [recordSplitter,hb]
    rw [Splitter.take,if_neg (by simp [hends])] at hcuts
    rw [takeByte,if_neg hb]
    refine .passed _ (by rw [hcuts]; exact hopen) (hpasses.snoc ?_ ?_) hat
    · rw [hcuts]
      exact hpasses.few
    · exact fun heq => absurd heq hb

end

def plain (content : Bytes) : Bytes := content.filter fun b => b != carriageReturn

def stripBom (content : Bytes) : Bytes :=
  if utf8Bom.isPrefixOf content then content.drop utf8Bom.length else content

def clean (content : Bytes) : Bytes := plain (stripBom (content.dropWhile (· == carriageReturn)))

def keep (at_start : Bool) (window : Bytes) : Bytes :=
  if at_start then clean window else plain window

def stillAtStart (at_start : Bool) (window : Bytes) : Bool :=
  at_start && window.all (· == carriageReturn)

variable (s : ScanState)

@[simp] theorem write_nil : s.write [] = s := by simp [ScanState.write]

theorem write_write (xs ys : Bytes) : (s.write xs).write ys = s.write (xs ++ ys) := by
  simp [ScanState.write,Nat.add_assoc]

theorem note_write (run : Bytes) (b : UInt8) : (s.write run).note b = (s.note b).write run := by
  simp only [note_eq,ScanState.write]

theorem takeByte_write (run : Bytes) (b : UInt8) : takeByte (s.write run) b =
    if b = newline then ((s.note b).write (run ++ [b])).endLine
    else .ok (((s.note b).write (run ++ [b])).countLine b) := by
  rw [takeByte,note_write,write_write]

section
variable {rule : RecordRule} {markdown : Bool} {shape : EvidenceShape} {s : ScanState}
  {stops : Bytes → Prop} {text run window : Bytes} {rounds : Nat}

variable {at_start : Bool}

theorem Outcome.behind (h : Outcome stops rule markdown shape text at_start (.ok s)) :
    Outcome stops rule markdown shape text false (.ok { s with at_start := false }) := by
  cases h with
  | passed _ htracks hpasses _ =>
    refine .passed _ ?_ hpasses rfl
    cases htracks
    constructor <;> assumption

theorem absorbLoop_behind (h : Outcome stops rule markdown shape text false (.ok (s.write run)))
    (hrounds : window.length ≤ rounds) :
    Outcome stops rule markdown shape (text ++ plain window) false
      ((ScanState.absorbLoop rounds s run window).map fun p => p.1.write p.2) := by
  induction window generalizing rounds s run text with
  | nil =>
    rw [plain,filter_nil,append_nil]
    cases rounds <;> exact h
  | cons b rest ih =>
    obtain ⟨rounds,rfl⟩ : ∃ n, rounds = n+1 := ⟨rounds-1,by simp at hrounds; omega⟩
    have hrest : rest.length ≤ rounds := by simpa using hrounds
    have hat : s.at_start = false := by
      cases h with
      | passed _ _ _ hat => exact hat
    rw [ScanState.absorbLoop,hat,Bool.false_and,if_neg (by simp)]
    by_cases hcr : b = carriageReturn
    · have hplain : plain (b :: rest) = plain rest := by simp [plain,hcr]
      rw [if_pos hcr,hplain]
      exact ih (by rwa [write_nil]) hrest
    · have hplain : text ++ plain (b :: rest) = text ++ [b] ++ plain rest := by simp [plain,hcr]
      have hnext := takeByte_outcome h b
      rw [takeByte_write] at hnext
      rw [if_neg hcr,hplain]
      split_ifs at hnext ⊢ with hnl
      · cases hline : ((s.note b).write (run ++ [b])).endLine with
        | error e =>
          rw [hline] at hnext
          exact hnext.error_mono
        | ok s' =>
          rw [hline] at hnext
          exact ih (by rwa [write_nil]) hrest
      · refine ih ?_ hrest
        have hcount : { s.note b with previous_was_newline := false }.write (run ++ [b]) =
            ((s.note b).write (run ++ [b])).countLine b := by
          simp [ScanState.countLine,ScanState.write,hnl]
        rwa [hcount]

theorem absorbLoop_note {b : UInt8} {rest : Bytes} (hbom : utf8Bom.isPrefixOf (b :: rest) = false)
    (hcr : b ≠ carriageReturn) :
    ScanState.absorbLoop (rounds+1) { s with at_start := false } run (b :: rest) =
      ScanState.absorbLoop (rounds+1) s run (b :: rest) := by
  have hnote : { s with at_start := false }.note b = s.note b := rfl
  simp only [ScanState.absorbLoop,hbom,Bool.and_false,Bool.false_eq_true,if_false,hcr,hnote]

theorem absorbLoop_outcome
    (h : Outcome stops rule markdown shape text at_start (.ok (s.write run)))
    (hrounds : window.length ≤ rounds) :
    Outcome stops rule markdown shape (text ++ keep at_start window) (stillAtStart at_start window)
      ((ScanState.absorbLoop rounds s run window).map fun p => p.1.write p.2) := by
  cases at_start with
  | false => exact absorbLoop_behind h hrounds
  | true =>
  have hat : s.at_start = true := by
    cases h with
    | passed _ _ _ hat => exact hat
  induction window generalizing rounds s run with
  | nil =>
    have hnil : text ++ keep true [] = text := by simp [keep,clean,stripBom,plain,utf8Bom]
    rw [hnil]
    cases rounds <;> exact h
  | cons b rest ih =>
    obtain ⟨rounds,rfl⟩ : ∃ n, rounds = n+1 := ⟨rounds-1,by simp at hrounds; omega⟩
    have hrest : rest.length ≤ rounds := by simpa using hrounds
    by_cases hcr : b = carriageReturn
    · subst hcr
      have hbom : utf8Bom.isPrefixOf (carriageReturn :: rest) = false := rfl
      have hkeep : keep true (carriageReturn :: rest) = keep true rest := by simp [keep,clean]
      have hstill : stillAtStart true (carriageReturn :: rest) = stillAtStart true rest := by
        simp [stillAtStart]
      rw [ScanState.absorbLoop,hbom,Bool.and_false,if_neg (by simp),if_pos rfl,hkeep,hstill]
      exact ih hrest (by rwa [write_nil]) hat
    · have hdrop : (b :: rest).dropWhile (· == carriageReturn) = b :: rest := by simp [hcr]
      have hstill : stillAtStart true (b :: rest) = false := by simp [stillAtStart,hcr]
      rw [keep,if_pos rfl,clean,hdrop,stripBom,hstill]
      cases hbom : utf8Bom.isPrefixOf (b :: rest) with
      | true =>
        rw [ScanState.absorbLoop,hat,hbom,Bool.true_and,if_pos rfl,if_pos rfl]
        refine absorbLoop_behind ?_ ?_
        · rw [write_nil]
          exact h.behind
        · simp only [length_drop,utf8Bom,length_cons] at hrest ⊢
          omega
      | false =>
        rw [if_neg (by simp),← absorbLoop_note hbom hcr]
        exact absorbLoop_behind h.behind hrounds

theorem absorb_outcome (window : Bytes)
    (h : Outcome stops rule markdown shape text at_start (.ok s))
    (hstop : stops (text ++ keep at_start window)) :
    Outcome stops rule markdown shape (text ++ keep at_start window) (stillAtStart at_start window)
        (s.absorb window) ∧
      (∀ s', s.absorb window = .ok s' →
        ((recordSplitter rule).cuts (text ++ keep at_start window)).part.length ≤
          recordBytesMax) := by
  rw [← write_nil s] at h
  have hloop := absorbLoop_outcome h (Nat.le_refl window.length)
  rw [ScanState.absorb]
  cases hrun : ScanState.absorbLoop window.length s [] window with
  | error e =>
    rw [hrun] at hloop
    exact ⟨hloop,by simp⟩
  | ok next =>
    obtain ⟨s',run⟩ := next
    rw [hrun] at hloop
    cases hloop with
    | passed _ htracks hpasses hat =>
      dsimp only
      rw [htracks.guard]
      split_ifs with hlong
      · exact ⟨.oversized _ _ (prefix_refl _) hlong (Or.inr hstop),by simp⟩
      · exact ⟨.passed _ htracks hpasses hat,fun _ _ => Nat.not_lt.mp hlong⟩

end
end ProjectOS.Ingest
