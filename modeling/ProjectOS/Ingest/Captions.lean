import ProjectOS.Lib.Utf8
import ProjectOS.Ingest.Transcribe
import ProjectOS.Ingest.Budget
import ProjectOS.Ingest.Timestamps

/-! Caption normalization: WebVTT and SubRip become a transcript, one segment
for each cue. -/

namespace ProjectOS.Ingest
open Lib Domain

def captionBlockBytesMax : Nat := 8*1024
def captionCueCountMax : Nat := transcriptSegmentCountMax

inductive ImportStop where
  | refused (error : StreamError)
  | panicked (fault : ArithmeticFault)
  deriving DecidableEq

structure Cue where
  start_ms : Nat
  end_ms : Nat
  text : List Char
  deriving DecidableEq

def arrow : List Char := ['-','-','>']

def containsArrow (line : List Char) : Bool := (splitAround arrow line).isSome

def timingLine : List (List Char) → Option (List Char × List (List Char))
  | [] => none
  | first :: rest =>
    if containsArrow first then some (first,rest)
    else
      match rest with
      | [] => none
      | second :: rest => if containsArrow second then some (second,rest) else none

def timingTexts (timing : List Char) : Option (List Char × List Char) :=
  match splitAround arrow timing with
  | none => none
  | some (start_text,rest) => ((words isWhitespace rest).head?).map fun end_text =>
    (trim start_text,trim end_text)

def cueText (lines : List (List Char)) : List Char :=
  lines.foldl (fun text line =>
    if (trim line).isEmpty then text
    else if text.isEmpty then trim line
    else text ++ ' ' :: trim line) []

def parseBlock (build : Build) (block : List Char) : Except ArithmeticFault (Option Cue) :=
  match timingLine ((lines block).filter fun line => !(trim line).isEmpty) with
  | none => .ok none
  | some (timing,lines) =>
    match timingTexts timing with
    | none => .ok none
    | some (start_text,end_text) => do
      match ← parseTimestamp build start_text with
      | none => .ok none
      | some start_ms =>
        match ← parseTimestamp build end_text with
        | none => .ok none
        | some end_ms =>
          if end_ms < start_ms then .ok none
          else if (cueText lines).isEmpty then .ok none
          else .ok (some ⟨start_ms,end_ms,cueText lines⟩)

def newline : UInt8 := 10
def carriageReturn : UInt8 := 13

def stripLineEnd (line : Bytes) : Bytes :=
  (line.reverse.dropWhile fun b => b == newline || b == carriageReturn).reverse

def lineLoop : Nat → Bytes → BoundedStream → Except StreamError (Bytes × BoundedStream)
  | 0, line, s => .ok (line,s)
  | rounds+1, line, s =>
    match s.windowMax with
    | .error e => .error e
    | .ok (window,s) =>
      if window.isEmpty then .ok (line,s)
      else
        let end_at := window.findIdx? (· == newline)
        let take := (end_at.map (·+1)).getD window.length
        if captionBlockBytesMax < line.length+take then
          .error (.limitExceeded "caption line" (line.length+take) captionBlockBytesMax)
        else if end_at.isSome then .ok (line ++ window.take take,s.advance take)
        else lineLoop rounds (line ++ window.take take) (s.advance take)

def readLine (s : BoundedStream) : Except StreamError (Option (List Char) × BoundedStream) :=
  match lineLoop (captionBlockBytesMax+1) [] s with
  | .error e => .error e
  | .ok (line,s) =>
    if line.isEmpty then .ok (none,s)
    else
      match decodeUtf8 (stripLineEnd line) with
      | none => .error (.notUtf8 (s.offset-(stripLineEnd line).length))
      | some text => .ok (some text,s)

def nextBlock : Nat → List Char → BoundedStream →
    Except StreamError (Option (List Char) × BoundedStream)
  | 0, _, s => .ok (none,s)
  | rounds+1, pending, s =>
    match readLine s with
    | .error e => .error e
    | .ok (none,s) => .ok (if (trim pending).isEmpty then none else some pending,s)
    | .ok (some line,s) =>
      if (trim line).isEmpty then
        if (trim pending).isEmpty then nextBlock rounds [] s else .ok (some pending,s)
      else if captionBlockBytesMax < byteLen pending+byteLen line then
        .error (.limitExceeded "caption block" (byteLen pending+byteLen line) captionBlockBytesMax)
      else nextBlock rounds (pending ++ line ++ ['\n']) s

def order (cue : Cue) (committed_to_ms : Nat) : Option Cue :=
  if cue.end_ms ≤ committed_to_ms then none
  else some { cue with start_ms := max cue.start_ms committed_to_ms }

structure Import where
  text : Bytes
  segments : List Segment
  byte_offset : Nat
  cue_count : Nat
  committed_to_ms : Nat
  deriving DecidableEq

def Import.empty : Import := ⟨[],[],0,0,0⟩

def pushSegment (segments : List Segment) (segment : Segment) :
    Except StreamError (List Segment) :=
  if segmentCountMax ≤ segments.length then
    .error (.limitExceeded "segment count" (segments.length+1) segmentCountMax)
  else .ok (segments ++ [segment])

def writeCue (w : Import) (cue : Cue) : Except StreamError Import :=
  let byte_end := satAdd64 w.byte_offset (byteLen cue.text)
  match pushSegment w.segments ⟨w.byte_offset,byte_end,.timeRange cue.start_ms cue.end_ms,0⟩ with
  | .error e => .error e
  | .ok segments =>
    .ok { w with
      text := w.text ++ encode cue.text ++ [newline]
      segments := segments
      byte_offset := satAdd64 byte_end 1 }

def importCue (w : Import) (cue : Cue) : Except StreamError Import :=
  match order cue w.committed_to_ms with
  | none => .ok w
  | some cue =>
    if captionCueCountMax ≤ w.cue_count then
      .error (.limitExceeded "caption cues" (w.cue_count+1) captionCueCountMax)
    else
      (writeCue { w with committed_to_ms := cue.end_ms } cue).map fun w =>
        { w with cue_count := satAdd32 w.cue_count 1 }

def importLoop (build : Build) (lines_max : Nat) :
    Nat → Import → BoundedStream → Except ImportStop (Import × BoundedStream)
  | 0, w, s => .ok (w,s)
  | rounds+1, w, s =>
    match nextBlock lines_max [] s with
    | .error e => .error (.refused e)
    | .ok (none,s) => .ok (w,s)
    | .ok (some block,s) =>
      match parseBlock build block with
      | .error fault => .error (.panicked fault)
      | .ok none => importLoop build lines_max rounds w s
      | .ok (some cue) =>
        match importCue w cue with
        | .error e => .error (.refused e)
        | .ok w => importLoop build lines_max rounds w s

structure CaptionProduct where
  text : Bytes
  text_byte_size : Nat
  segments : List Segment
  bytes_read : Nat
  item_count : Nat
  deriving DecidableEq

def normalizeCaptions (build : Build) (reader : Reader) (budget : StreamBudget) :
    Except ImportStop CaptionProduct :=
  let rounds := reader.rest.length+1
  match importLoop build rounds rounds .empty (.new reader budget) with
  | .error e => .error e
  | .ok (w,s) => .ok ⟨w.text,w.byte_offset,w.segments,s.read_total,w.cue_count⟩

def demoCaptions : String :=
  "WEBVTT\n\n1\r\n00:01.000 --> 00:02.500 align:start\r\nWe agreed\nto ship.\n\n" ++
    "00:02.000 --> 00:04.000\nOn Monday."

example : normalizeCaptions .checked ⟨encode demoCaptions.toList,[.ok 3,.ok 40]⟩ ⟨.normalize,7⟩ =
    .ok ⟨encode "We agreed to ship.\nOn Monday.\n".toList,30,
      [⟨0,18,.timeRange 1000 2500,0⟩,⟨19,29,.timeRange 2500 4000,0⟩],102,2⟩ := by
  decide +kernel

end ProjectOS.Ingest
