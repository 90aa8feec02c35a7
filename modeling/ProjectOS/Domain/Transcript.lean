import ProjectOS.Lib.Table
import ProjectOS.Domain.Ingest

/-! Decoded speech: one row for each segment of a pass over a recording, and
the edits a user makes over it. -/

namespace ProjectOS.Domain
open Lib

def transcriptBatchCountMax : Nat := 64
def transcriptSegmentTextBytesMax : Nat := 16*1024
def transcriptSpeakerUnassigned : Nat := 0
def transcriptListRowCountMax : Nat := 500

structure PassKey where
  evidence_id : EvidenceId
  pass : Nat
  deriving DecidableEq

inductive TranscriptEvent where
  | evidenceTranscribed (body : EvidenceTranscribed)
  | transcriptTextCorrected (key : PassKey) (segment_index : Nat) (text : String)
  | transcriptSegmentSpeakerSet (key : PassKey) (segment_index speaker_index : Nat)
  deriving DecidableEq

def TranscriptEvent.key : TranscriptEvent → PassKey
  | .evidenceTranscribed body => ⟨body.evidence_id,body.pass⟩
  | .transcriptTextCorrected key .. => key
  | .transcriptSegmentSpeakerSet key .. => key

structure SegmentRow where
  start_ms : Nat
  end_ms : Nat
  starts_turn : Bool
  speaker_index : Nat
  asr_text : String
  edited_text : Option String
  created_seq : Nat
  deriving DecidableEq

def msColumnMax : Nat := 2^63-1

def msColumn (ms : Nat) : Nat := min ms msColumnMax

def segmentRow (seq : Nat) (segment : TranscriptSegmentFact) : SegmentRow where
  start_ms := msColumn segment.start_ms
  end_ms := msColumn segment.end_ms
  starts_turn := segment.starts_turn
  speaker_index := transcriptSpeakerUnassigned
  asr_text := segment.text
  edited_text := none
  created_seq := seq

abbrev SegmentTable := Table Nat SegmentRow

structure Transcripts where
  head : Nat
  rows : PassKey → SegmentTable

def Transcripts.empty : Transcripts := ⟨0,fun _ => Table.empty⟩

def upsertSegments (seq : Nat) (segments : List TranscriptSegmentFact) (t : SegmentTable) :
    SegmentTable :=
  segments.foldl (fun t segment => t.put segment.segment_index (segmentRow seq segment)) t

def updateSegment (segment_index : Nat) (f : SegmentRow → SegmentRow) (t : SegmentTable) :
    SegmentTable :=
  match t.get? segment_index with
  | some row => t.put segment_index (f row)
  | none => t

def applySegments (seq : Nat) : TranscriptEvent → SegmentTable → SegmentTable
  | .evidenceTranscribed body => upsertSegments seq body.segments
  | .transcriptTextCorrected _ segment_index text =>
    updateSegment segment_index fun row => { row with edited_text := some text }
  | .transcriptSegmentSpeakerSet _ segment_index speaker_index =>
    updateSegment segment_index fun row => { row with speaker_index := speaker_index }

def Transcripts.apply (db : Transcripts) (event : TranscriptEvent) : Transcripts where
  head := db.head+1
  rows := Function.update db.rows event.key
    (applySegments (db.head+1) event (db.rows event.key))

structure TranscriptSegmentRecord where
  segment_index : Nat
  start_ms : Nat
  end_ms : Nat
  starts_turn : Bool
  speaker_index : Nat
  asr_text : String
  edited_text : Option String
  deriving DecidableEq

def TranscriptSegmentRecord.renderedText (record : TranscriptSegmentRecord) : String :=
  record.edited_text.getD record.asr_text

def segmentRecord (entry : Nat × SegmentRow) : TranscriptSegmentRecord where
  segment_index := entry.1
  start_ms := entry.2.start_ms
  end_ms := entry.2.end_ms
  starts_turn := entry.2.starts_turn
  speaker_index := entry.2.speaker_index
  asr_text := entry.2.asr_text
  edited_text := entry.2.edited_text

def maxOver (f : Nat × SegmentRow → Nat) (t : SegmentTable) : Nat :=
  t.rows.foldr (fun entry high => max (f entry) high) 0

def lastEndMs (t : SegmentTable) : Nat := maxOver (fun entry => entry.2.end_ms) t

def readTranscriptProgress (t : SegmentTable) : Option (Nat × Nat) :=
  if t.rows = [] then none
  else some (maxOver (fun entry => entry.1) t,lastEndMs t)

def listTranscriptSegments (t : SegmentTable) (after : Option Nat) (row_count_max : Nat) :
    List TranscriptSegmentRecord :=
  ((t.rows.filter fun entry => decide ((after.map (· + 1)).getD 0 ≤ entry.1)).take
    (min row_count_max transcriptListRowCountMax)).map segmentRecord

variable {f : Nat × SegmentRow → Nat} {t : SegmentTable}

theorem le_maxOver {i : Nat} {row : SegmentRow}
    (h : t.get? i = some row) : f (i,row) ≤ maxOver f t := by
  have hmem := t.mem_rows.mpr h
  rw [maxOver]
  generalize t.rows = rows at hmem
  induction rows with
  | nil => cases hmem
  | cons entry rest ih =>
    rw [List.foldr_cons]
    rcases List.mem_cons.mp hmem with rfl | hmem
    · exact le_max_left _ _
    · exact (ih hmem).trans (le_max_right _ _)

theorem maxOver_le {bound : Nat}
    (h : ∀ i row, t.get? i = some row → f (i,row) ≤ bound) : maxOver f t ≤ bound := by
  have hrows : ∀ entry ∈ t.rows, f entry ≤ bound := fun entry hmem => h _ _ (t.mem_rows.mp hmem)
  rw [maxOver]
  generalize t.rows = rows at hrows
  induction rows with
  | nil => exact Nat.zero_le _
  | cons entry rest ih =>
    rw [List.foldr_cons]
    exact max_le (hrows entry (by simp)) (ih fun e he => hrows e (List.mem_cons_of_mem _ he))

@[simp] theorem applySegments_key (db : Transcripts) (event : TranscriptEvent) :
    (db.apply event).rows event.key =
      applySegments (db.head+1) event (db.rows event.key) := by
  simp [Transcripts.apply]

theorem apply_elsewhere {db : Transcripts} {event : TranscriptEvent} {key : PassKey}
    (h : key ≠ event.key) : (db.apply event).rows key = db.rows key :=
  Function.update_of_ne h _ _

theorem get?_updateSegment (segment_index : Nat) (f : SegmentRow → SegmentRow) (t : SegmentTable)
    (i : Nat) :
    (updateSegment segment_index f t).get? i =
      if i = segment_index then (t.get? i).map f else t.get? i := by
  rw [updateSegment]
  cases h : t.get? segment_index with
  | some row =>
    simp only [Table.get?_put]
    split
    · rename_i hi
      rw [hi,h]
      rfl
    · rfl
  | none =>
    dsimp only
    split
    · rename_i hi
      rw [hi,h]
      rfl
    · rfl

end ProjectOS.Domain
