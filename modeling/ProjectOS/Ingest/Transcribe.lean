import ProjectOS.Domain.Transcript
import ProjectOS.Lib.Footprint
import ProjectOS.Gateway.Wire
import ProjectOS.Ingest.Embed

/-! TRANSCRIBE: a recording becomes segments, one bounded window of audio at a
time. The segments of a window are committed before the next window begins. -/

namespace ProjectOS.Ingest
open Lib Domain
open Gateway (TranscriptSegment audioSampleRateHz windowMsMax)

def transcriptSegmentCountMax : Nat := 36000
def transcriptPageRows : Nat := 200
def segmentCountMax : Nat := 10000000
def advanceFractionMin : Nat := 2
def boundaryOverlapMs : Nat := 1000

inductive AudioError where
  | unsupported (reason : String)
  | noAudioTrack
  | unusableFormat (reason : String)
  | corrupt (reason : String)
  | io (reason : String)
  deriving DecidableEq

namespace AudioError

def code : AudioError → String
  | .unsupported _ => "audio_unsupported"
  | .noAudioTrack => "audio_no_track"
  | .unusableFormat _ => "audio_format_unusable"
  | .corrupt _ => "audio_corrupt"
  | .io _ => "audio_io_failure"

def isRetriable : AudioError → Bool
  | .io _ => true
  | _ => false

def text : AudioError → String
  | .unsupported reason => s!"unsupported audio: {reason}"
  | .noAudioTrack => "the media carries no audio track"
  | .unusableFormat reason => s!"unusable audio format: {reason}"
  | .corrupt reason => s!"audio stream is corrupt: {reason}"
  | .io reason => s!"audio read failed: {reason}"

end AudioError

def stageFailureForAudio (error : AudioError) : StageFailure :=
  ⟨error.code,error.text,!error.isRetriable⟩

def stageFailureForWeather (weather : Gateway.Weather) : StageFailure :=
  ⟨"transcribe_" ++ weather.code,weather.text,!weather.retriable⟩

/-- The 16 kHz samples packet by packet, or the failure that ends the stream; what
the resampler flushes is the last packet. -/
abbrev Packets (α : Type) := List (Except AudioError (List α))

structure TranscribeSetup where
  model_name : String
  language : Option String
  window_ms : Nat

def TranscribeSetup.windowMsClamped (setup : TranscribeSetup) : Nat :=
  min (max setup.window_ms 1000) windowMsMax

def samplesForMs (ms : Nat) : Nat := ms*audioSampleRateHz % 2^64 / 1000

def msForSamples (samples : Nat) : Nat := samples*1000/audioSampleRateHz

structure Segment where
  byte_start : Nat
  byte_end : Nat
  locator : Locator
  depth : Nat
  deriving DecidableEq

inductive TranscribeAct (α : Type) where
  | readProgress (key : PassKey)
  | transcribe (model : String) (language : Option String) (offset_ms : Nat) (samples : List α)
  | append (event : TranscriptEvent)
  | listSegments (key : PassKey) (after : Option Nat) (row_count_max : Nat)
  | writeText (text : String)
  | writeSegments (segments : List Segment)

abbrev transcribeIface (α : Type) : Interface where
  Act := TranscribeAct α
  Resp
    | .readProgress _ => Except String (Option (Nat × Nat))
    | .transcribe .. => Except Gateway.Weather (List TranscriptSegment)
    | .append _ => Except Sched.LogError Unit
    | .listSegments .. => Except String (List TranscriptSegmentRecord)
    | .writeText _ => Except String Digest
    | .writeSegments _ => Except String Digest

abbrev TranscribeProg (α : Type) := Prog (transcribeIface α) StageFailure

section
variable {α : Type}

def failed {β : Type} (error : IngestError) : TranscribeProg α β := .throw (.ofIngest error)

structure Committed where
  next_segment_index : Nat
  committed_to_ms : Nat

def freshSegments (committed_to_ms : Nat) (segments : List TranscriptSegment) :
    List TranscriptSegment :=
  segments.filter fun segment => decide (committed_to_ms ≤ segment.start_ms)

def subBatches : Nat → List TranscriptSegment → List (List TranscriptSegment)
  | 0, _
  | _, [] => []
  | fuel+1, segments =>
    segments.take transcriptBatchCountMax ::
      subBatches fuel (segments.drop transcriptBatchCountMax)

def segmentFact (segment_index : Nat) (segment : TranscriptSegment) : TranscriptSegmentFact where
  segment_index := segment_index
  start_ms := segment.start_ms
  end_ms := max segment.end_ms segment.start_ms
  starts_turn := segment.starts_turn
  text := segment.text

def segmentFacts : Nat → List TranscriptSegment → Except IngestError (List TranscriptSegmentFact)
  | _, [] => .ok []
  | next_index, segment :: rest =>
    if transcriptSegmentCountMax ≤ next_index then
      .error (.limitExceeded "transcript segments" next_index transcriptSegmentCountMax)
    else if transcriptSegmentTextBytesMax < segment.text.utf8ByteSize then
      .error (.limitExceeded "transcript segment text" segment.text.utf8ByteSize
        transcriptSegmentTextBytesMax)
    else
      (segmentFacts (next_index+1) rest).map fun facts => segmentFact next_index segment :: facts

def batchNumber (batch_index sub_batch : Nat) : Nat :=
  satAdd32 (min (batch_index*transcriptBatchCountMax) u32Max) sub_batch

def transcribedEvent (key : PassKey) (batch_index : Nat) (segments : List TranscriptSegmentFact) :
    TranscriptEvent :=
  .evidenceTranscribed ⟨key.evidence_id,key.pass,batch_index,segments⟩

def emitTranscript (key : PassKey) (batch_index : Nat) (facts : List TranscriptSegmentFact) :
    TranscribeProg α Unit :=
  if facts = [] then .ret ()
  else
    .act (.append (transcribedEvent key batch_index facts)) fun
    | .ok () => .ret ()
    | .error e => failed (.log e)

def commitBatch (key : PassKey) (batch_index : Nat) (c : Committed)
    (batch : List TranscriptSegment × Nat) : TranscribeProg α Committed :=
  match segmentFacts c.next_segment_index batch.1 with
  | .error e => failed e
  | .ok facts =>
    (emitTranscript key (batchNumber batch_index batch.2) facts).bind fun _ =>
      .ret ⟨c.next_segment_index+facts.length,
        facts.foldl (fun latest fact => max latest fact.end_ms) c.committed_to_ms⟩

def commitSegments (key : PassKey) (batch_index : Nat) (first_segment_index : Nat)
    (segments : List TranscriptSegment) (committed_to_ms : Nat) : TranscribeProg α Committed :=
  let fresh := freshSegments committed_to_ms segments
  (subBatches fresh.length fresh).zipIdx.foldlM (commitBatch key batch_index)
    ⟨first_segment_index,committed_to_ms⟩

/-- How far to go on after a window: to where the last segment ended, and past a
window with almost nothing in it, but for a second. -/
def advanceMs (window_start_ms sample_count : Nat) (segments : List TranscriptSegment) : Nat :=
  let window_ms := msForSamples sample_count
  let advance_floor_ms := window_ms/advanceFractionMin
  let last_end_ms := (segments.getLast?.map TranscriptSegment.end_ms).getD window_start_ms
  let spoken_ms := last_end_ms-window_start_ms
  let advance_ms :=
    if advance_floor_ms ≤ spoken_ms then spoken_ms
    else max (window_ms-boundaryOverlapMs) advance_floor_ms
  max advance_ms 1

def transcribeWindow (setup : TranscribeSetup) (window_start_ms : Nat) (samples : List α) :
    TranscribeProg α (List TranscriptSegment) :=
  .act (.transcribe setup.model_name setup.language window_start_ms samples) fun
  | .ok segments => .ret segments
  | .error weather => .throw (stageFailureForWeather weather)

structure Cursor (α : Type) where
  packets : Packets α
  window : List α
  window_start_ms : Nat
  next_segment_index : Nat
  committed_to_ms : Nat
  batch_index : Nat
  audio_ms_transcribed : Nat

def fillWindow (window_samples : Nat) :
    Packets α → List α → Except AudioError (Packets α × List α × Bool)
  | [], window => .ok ([],window,decide (window.length < window_samples))
  | packet :: rest, window =>
    if window.length < window_samples then
      match packet with
      | .ok samples => fillWindow window_samples rest (window ++ samples)
      | .error e => .error e
    else .ok (packet :: rest,window,false)

namespace Cursor
variable (c : Cursor α)

def Passed (resume_from_ms : Nat) : Prop :=
  (c.window_start_ms+msForSamples c.window.length) % 2^64 ≤ resume_from_ms

instance (resume_from_ms : Nat) : Decidable (c.Passed resume_from_ms) :=
  inferInstanceAs (Decidable (_ ≤ _))

def pass : Cursor α :=
  { c with
    window := []
    window_start_ms := satAdd64 c.window_start_ms (msForSamples c.window.length) }

def skipTo (resume_from_ms : Nat) : Cursor α :=
  if c.window_start_ms < resume_from_ms then
    { c with
      window := c.window.drop
        (min (samplesForMs (resume_from_ms-c.window_start_ms)) c.window.length)
      window_start_ms := resume_from_ms }
  else c

def next (segments : List TranscriptSegment) (committed : Committed) : Cursor α :=
  let advance_ms := advanceMs c.window_start_ms c.window.length segments
  { c with
    window := c.window.drop (min (samplesForMs advance_ms) c.window.length)
    window_start_ms := satAdd64 c.window_start_ms advance_ms
    next_segment_index := committed.next_segment_index
    committed_to_ms := max committed.committed_to_ms c.committed_to_ms
    batch_index := satAdd32 c.batch_index 1
    audio_ms_transcribed := satAdd64 c.audio_ms_transcribed advance_ms }

end Cursor

def unfinished : StageFailure := .retriable "unfinished" "the loop was cut off"

def transcribeLoop (setup : TranscribeSetup) (key : PassKey) (resume_from_ms : Nat) :
    Nat → Cursor α → TranscribeProg α (Cursor α)
  | 0, _ => .throw unfinished
  | fuel+1, c =>
    match fillWindow (samplesForMs setup.windowMsClamped) c.packets c.window with
    | .error e => .throw (stageFailureForAudio e)
    | .ok (packets,window,ended) =>
      let filled : Cursor α := { c with packets := packets, window := window }
      if filled.Passed resume_from_ms then
        if ended then .ret filled.pass else transcribeLoop setup key resume_from_ms fuel filled.pass
      else
        let ready := filled.skipTo resume_from_ms
        if ready.window.isEmpty then .ret ready
        else
          (transcribeWindow setup ready.window_start_ms ready.window).bind fun segments =>
            (commitSegments key ready.batch_index ready.next_segment_index segments
              ready.committed_to_ms).bind fun committed =>
                let next := ready.next segments committed
                if ended then .ret next else transcribeLoop setup key resume_from_ms fuel next

structure Written where
  text : String
  segments : List Segment
  byte_offset : Nat

def Written.empty : Written := ⟨"",[],0⟩

def Written.one (w : Written) (record : TranscriptSegmentRecord) : Except IngestError Written :=
  let byte_end := satAdd64 w.byte_offset record.renderedText.utf8ByteSize
  if segmentCountMax ≤ w.segments.length then
    .error (.limitExceeded "segment count" (w.segments.length+1) segmentCountMax)
  else
    .ok ⟨w.text ++ record.renderedText ++ "\n",
      w.segments ++ [⟨w.byte_offset,byte_end,.timeRange record.start_ms record.end_ms,0⟩],
      satAdd64 byte_end 1⟩

def writePages (key : PassKey) : Nat → Option Nat → Written → TranscribeProg α Written
  | 0, _, w => .ret w
  | fuel+1, after, w =>
    .act (.listSegments key after transcriptPageRows) fun
    | .error fault => failed (.read fault)
    | .ok page =>
      if page.isEmpty then .ret w
      else
        match page.foldlM Written.one w with
        | .error e => failed e
        | .ok w => writePages key fuel (page.getLast?.map TranscriptSegmentRecord.segment_index) w

def writeTranscript (key : PassKey) (segment_count audio_ms : Nat) :
    TranscribeProg α StageProduct :=
  (writePages key (transcriptSegmentCountMax+1) none .empty).bind fun w =>
    .act (.writeText w.text) fun
    | .error fault => failed (.store fault)
    | .ok text_blob => .act (.writeSegments w.segments) fun
      | .error fault => failed (.store fault)
      | .ok segments_blob =>
        .ret {
          output := .normalized .transcript text_blob w.byte_offset segments_blob
            w.segments.length .clean
          bytes_read := audio_ms
          item_count := segment_count }

def resumePoint : Option (Nat × Nat) → Nat × Nat
  | none => (0,0)
  | some (segment_index,end_ms) => (satAdd32 segment_index 1,end_ms)

def Cursor.start (packets : Packets α) (resume : Nat × Nat) : Cursor α where
  packets := packets
  window := []
  window_start_ms := 0
  next_segment_index := resume.1
  committed_to_ms := resume.2
  batch_index := 0
  audio_ms_transcribed := 0

structure Attempt (α : Type) where
  key : PassKey
  setup : TranscribeSetup
  recording : Except AudioError (Packets α)
  fuel : Nat

/-- A content file that does not open is one of the errors of `recording`. -/
def transcribeItem (a : Attempt α) : TranscribeProg α StageProduct :=
  .act (.readProgress a.key) fun
  | .error fault => failed (.read fault)
  | .ok progress =>
    let resume := resumePoint progress
    match a.recording with
    | .error e => .throw (stageFailureForAudio e)
    | .ok packets =>
      (transcribeLoop a.setup a.key resume.2 a.fuel (.start packets resume)).bind fun c =>
        writeTranscript a.key c.next_segment_index c.audio_ms_transcribed

/-- Whether the store fails, and what the model and the blob store answer. -/
structure TranscribeInput where
  fault : Option String := none
  answer : Except Gateway.Weather (List TranscriptSegment) := .ok []
  blob : Digest := 0

def TranscribeInput.read {β : Type} (i : TranscribeInput) (b : β) : Except String β :=
  match i.fault with
  | some fault => .error fault
  | none => .ok b

def transcribeMachine (α : Type) : Machine (transcribeIface α) TranscribeInput Transcripts where
  step i db
    | .readProgress key => (i.read (readTranscriptProgress (db.rows key)),db)
    | .transcribe .. => (i.answer,db)
    | .append event =>
      match i.fault with
      | some fault => (.error (.store fault),db)
      | none => (.ok (),db.apply event)
    | .listSegments key after row_count_max =>
      (i.read (listTranscriptSegments (db.rows key) after row_count_max),db)
    | .writeText _ => (i.read i.blob,db)
    | .writeSegments _ => (i.read i.blob,db)

variable {key : PassKey} {P : TranscribeAct α → Prop}

theorem commitSegments_within
    (hP : ∀ batch_index facts, P (.append (transcribedEvent key batch_index facts)))
    {batch_index n committed_to_ms : Nat} {segments : List TranscriptSegment} :
    (commitSegments key batch_index n segments committed_to_ms :
      TranscribeProg α Committed).Within P := by
  refine Prog.within_foldlM _ _ (fun c batch _ => ?_) _
  rw [commitBatch]
  cases segmentFacts c.next_segment_index batch.1 with
  | error e => trivial
  | ok facts =>
    refine Prog.within_bind ?_ fun _ => trivial
    rw [emitTranscript]
    split
    · trivial
    · refine ⟨hP _ _,fun answer => ?_⟩
      cases answer <;> trivial

theorem writePages_within (hP : ∀ after, P (.listSegments key after transcriptPageRows))
    {fuel : Nat} {after : Option Nat} {w : Written} :
    (writePages key fuel after w : TranscribeProg α Written).Within P := by
  induction fuel generalizing after w with
  | zero => trivial
  | succ fuel ih =>
    refine ⟨hP after,fun page => ?_⟩
    cases page with
    | error fault => trivial
    | ok page =>
      dsimp only
      split_ifs
      · trivial
      · cases page.foldlM Written.one w with
        | error e => trivial
        | ok w => exact ih

theorem writeTranscript_within (hlist : ∀ after, P (.listSegments key after transcriptPageRows))
    (htext : ∀ text, P (.writeText text)) (hsegments : ∀ segments, P (.writeSegments segments))
    {segment_count audio_ms : Nat} :
    (writeTranscript key segment_count audio_ms : TranscribeProg α StageProduct).Within P := by
  refine Prog.within_bind (writePages_within hlist) fun w => ⟨htext _,fun text_blob => ?_⟩
  cases text_blob with
  | error fault => trivial
  | ok text_blob =>
    refine ⟨hsegments _,fun segments_blob => ?_⟩
    cases segments_blob with
    | error | ok => trivial

end
end ProjectOS.Ingest
