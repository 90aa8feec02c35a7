import ProjectOS.Ingest.Captions

/-! NORMALIZE: raw bytes become the text that is cited and an index of its
records, in one pass over the content. -/

namespace ProjectOS.Ingest
open Lib Domain

def recordBytesMax : Nat := 4*1024*1024
def recordPrefixBytes : Nat := 8
def utf8Bom : Bytes := [0xEF,0xBB,0xBF]
def quotationMark : UInt8 := 34
def numberSign : UInt8 := 35

def isAsciiWhitespace (b : UInt8) : Bool := b == 32 || b == 9 || b == 10 || b == 12 || b == 13

inductive RecordRule where
  | paragraph
  | csvRecord
  deriving DecidableEq

structure ScanState where
  rule : RecordRule
  markdown : Bool
  shape : EvidenceShape
  text : Bytes
  segments : List Segment
  out_offset : Nat
  record_start : Nat
  record_line_start : Nat
  content_line_last : Nat
  record_index : Nat
  line_index : Nat
  previous_was_newline : Bool
  in_quotes : Bool
  at_start : Bool
  prefix_bytes : Bytes
  record_has_content : Bool

namespace ScanState

def new (rule : RecordRule) (markdown : Bool) (shape : EvidenceShape) : ScanState where
  rule := rule
  markdown := markdown
  shape := shape
  text := []
  segments := []
  out_offset := 0
  record_start := 0
  record_line_start := 1
  content_line_last := 1
  record_index := 0
  line_index := 1
  previous_was_newline := false
  in_quotes := false
  at_start := true
  prefix_bytes := []
  record_has_content := false

def write (s : ScanState) (bytes : Bytes) : ScanState :=
  { s with text := s.text ++ bytes,out_offset := s.out_offset+bytes.length }

def pushPrefix (s : ScanState) (b : UInt8) : ScanState :=
  if s.prefix_bytes.length < recordPrefixBytes then { s with prefix_bytes := s.prefix_bytes ++ [b] }
  else s

def guardRecordSize (s : ScanState) : Except StreamError ScanState :=
  if recordBytesMax < s.out_offset-s.record_start then
    .error (.limitExceeded "structural record" (s.out_offset-s.record_start) recordBytesMax)
  else .ok s

def locator (s : ScanState) : Locator :=
  match s.shape with
  | .thread | .message => .messageRange s.record_index s.record_index
  | _ => .lineRange s.record_line_start (max s.content_line_last s.record_line_start)

def depth (s : ScanState) : Nat :=
  if s.markdown then
    let hashes := (s.prefix_bytes.takeWhile (· == numberSign)).length
    if 1 ≤ hashes ∧ hashes ≤ 6 ∧ hashes < s.prefix_bytes.length then hashes else 0
  else 0

def rewind (s : ScanState) : ScanState :=
  { s with
    record_start := s.out_offset
    record_line_start := s.line_index
    prefix_bytes := []
    record_has_content := false }

def closeRecord (s : ScanState) : Except StreamError ScanState :=
  if s.record_has_content then
    (pushSegment s.segments ⟨s.record_start,s.out_offset,s.locator,s.depth⟩).map fun segments =>
      rewind { s with segments := segments,record_index := s.record_index+1 }
  else .ok s.rewind

def note (s : ScanState) (b : UInt8) : ScanState :=
  let s := { s with
    at_start := false
    in_quotes := if b == quotationMark && s.rule == .csvRecord then !s.in_quotes else s.in_quotes }
  if isAsciiWhitespace b then s
  else
    pushPrefix { s with
      record_line_start := if s.record_has_content then s.record_line_start else s.line_index
      record_has_content := true
      content_line_last := s.line_index } b

def endLine (s : ScanState) : Except StreamError ScanState :=
  let ends := match s.rule with
    | .csvRecord => !s.in_quotes
    | .paragraph => s.previous_was_newline
  let s := { s with line_index := s.line_index+1,previous_was_newline := true }
  if ends then s.closeRecord.bind guardRecordSize else s.guardRecordSize

def absorbLoop : Nat → ScanState → Bytes → Bytes → Except StreamError (ScanState × Bytes)
  | 0, s, run, _ => .ok (s,run)
  | _+1, s, run, [] => .ok (s,run)
  | rounds+1, s, run, b :: rest =>
    if s.at_start && utf8Bom.isPrefixOf (b :: rest) then
      absorbLoop rounds { s.write run with at_start := false } [] ((b :: rest).drop utf8Bom.length)
    else if b = carriageReturn then absorbLoop rounds (s.write run) [] rest
    else if b = newline then
      match ((s.note b).write (run ++ [b])).endLine with
      | .error e => .error e
      | .ok s => absorbLoop rounds s [] rest
    else absorbLoop rounds { s.note b with previous_was_newline := false } (run ++ [b]) rest

def absorb (s : ScanState) (window : Bytes) : Except StreamError ScanState :=
  match absorbLoop window.length s [] window with
  | .error e => .error e
  | .ok (s,run) => (s.write run).guardRecordSize

def finish (s : ScanState) : Except StreamError ScanState := s.closeRecord

end ScanState

def normalizeLoop : Nat → ScanState → BoundedStream → Except StreamError (ScanState × BoundedStream)
  | 0, scan, s => .ok (scan,s)
  | rounds+1, scan, s =>
    match s.windowMax with
    | .error e => .error e
    | .ok (window,s) =>
      if window.isEmpty then .ok (scan,s)
      else
        match scan.absorb window with
        | .error e => .error e
        | .ok scan => normalizeLoop rounds scan (s.advance window.length)

structure TextProduct where
  text : Bytes
  text_byte_size : Nat
  segments : List Segment
  bytes_read : Nat
  item_count : Nat
  deriving DecidableEq

def normalizeText (rule : RecordRule) (markdown : Bool) (shape : EvidenceShape) (reader : Reader)
    (budget : StreamBudget) : Except StreamError TextProduct :=
  match normalizeLoop (reader.rest.length+1) (.new rule markdown shape) (.new reader budget) with
  | .error e => .error e
  | .ok (scan,s) => scan.finish.map fun scan =>
    ⟨scan.text,scan.out_offset,scan.segments,s.read_total,scan.segments.length⟩

end ProjectOS.Ingest
