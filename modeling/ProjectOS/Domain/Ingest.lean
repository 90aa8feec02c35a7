import ProjectOS.Foundation

/-! The vocabulary of ingestion and the facts its stages record. -/

namespace ProjectOS.Domain

inductive MediaKind where
  | plainText | markdown | csv | captions | audio | video | structured | opaque_
  deriving DecidableEq

/-- The seven stages, in flow order. `raw` is never a job: whoever owns the
bytes performs it. -/
inductive IngestStage where
  | raw | normalize | transcribe | chunk | embed | extract | index
  deriving DecidableEq

namespace IngestStage

def all : List IngestStage := [.raw,.normalize,.transcribe,.chunk,.embed,.extract,.index]

def asStr : IngestStage → String
  | .raw => "raw"
  | .normalize => "normalize"
  | .transcribe => "transcribe"
  | .chunk => "chunk"
  | .embed => "embed"
  | .extract => "extract"
  | .index => "index"

def jobKind : IngestStage → Option String
  | .raw => none
  | .normalize => some "ingest.normalize"
  | .transcribe => some "ingest.transcribe"
  | .chunk => some "ingest.chunk"
  | .embed => some "ingest.embed"
  | .extract => some "ingest.extract"
  | .index => some "ingest.index"

def ownerStory : IngestStage → String
  | .raw => "m1-s01/m1-s02"
  | .normalize => "m1-s01/m1-s02"
  | .chunk => "m1-s01/m1-s02"
  | .transcribe => "m1-s03"
  | .embed => "m1-s04"
  | .extract => "m1-s11"
  | .index => "m1-s05"

def appliesTo : IngestStage → MediaKind → Bool
  | .transcribe, .audio
  | .transcribe, .video => true
  | .transcribe, _ => false
  | _, _ => true

def nextFor (stage : IngestStage) (media : MediaKind) : Option IngestStage :=
  (all.drop (all.idxOf stage+1)).find? (fun s => s.appliesTo media)

def rank (stage : IngestStage) : Nat := all.idxOf stage

theorem mem_all (stage : IngestStage) : stage ∈ all := by cases stage <;> decide

theorem asStr_injective : Function.Injective asStr := by
  intro a b h
  cases a <;> cases b <;> first | rfl | exact absurd h (by decide)

theorem rank_nextFor {stage next : IngestStage} {media : MediaKind}
    (h : stage.nextFor media = some next) : stage.rank < next.rank := by
  cases stage <;> cases media <;> cases next <;> revert h <;> decide

end IngestStage

inductive ChunkKind where
  | transcriptTurns | threadMessages | messageBody | documentSection | tableRows
  deriving DecidableEq

def ChunkKind.asStr : ChunkKind → String
  | .transcriptTurns => "transcript_turns"
  | .threadMessages => "thread_messages"
  | .messageBody => "message_body"
  | .documentSection => "document_section"
  | .tableRows => "table_rows"

inductive EvidenceShape where
  | transcript | thread | message | document | table
  deriving DecidableEq

inductive Locator where
  | timeRange (start_ms end_ms : Nat)
  | lineRange (start «end» : Nat)
  | messageRange (start «end» : Nat)
  deriving DecidableEq

inductive LocatorKind where
  | timeRange | lineRange | messageRange
  deriving DecidableEq

def Locator.kind : Locator → LocatorKind
  | .timeRange .. => .timeRange
  | .lineRange .. => .lineRange
  | .messageRange .. => .messageRange

def Locator.bounds : Locator → Nat × Nat
  | .timeRange a b => (a,b)
  | .lineRange a b => (a,b)
  | .messageRange a b => (a,b)

def Locator.fromColumns : LocatorKind → Nat → Nat → Locator
  | .timeRange, a, b => .timeRange a b
  | .lineRange, a, b => .lineRange a b
  | .messageRange, a, b => .messageRange a b

inductive CanaryLevel where
  | clean | suspect | quarantined
  deriving DecidableEq

inductive EvidenceStatus where
  | raw | normalized | transcribed | chunked | embedded | extracted | indexed | failed
  deriving DecidableEq

def EvidenceStatus.after : IngestStage → EvidenceStatus
  | .raw => .raw
  | .normalize => .normalized
  | .transcribe => .transcribed
  | .chunk => .chunked
  | .embed => .embedded
  | .extract => .extracted
  | .index => .indexed

structure ExternalRef where
  external_id : String
  external_url : Option String
  external_version : Option String
  deriving DecidableEq

structure EvidenceAdded where
  evidence_id : EvidenceId
  source_id : SourceId
  source_kind : String
  external : ExternalRef
  media_kind : MediaKind
  shape : EvidenceShape
  content_blob : Digest
  byte_size : Nat
  occurred_ts_ms : Nat
  author : Option String
  title : Option String
  thread_ref : Option String
  deriving DecidableEq

structure IngestStageStarted where
  evidence_id : EvidenceId
  source_id : SourceId
  stage : IngestStage
  pass : Nat
  job_id : JobId
  attempt_index : Nat
  deriving DecidableEq

inductive IngestStageOutput where
  | normalized (shape : EvidenceShape) (text_blob : Digest) (text_byte_size : Nat)
      (segments_blob : Digest) (segment_count : Nat) (canary_level : CanaryLevel)
  | chunked (chunk_count : Nat)
  | none
  deriving DecidableEq

structure IngestStageFinished where
  evidence_id : EvidenceId
  source_id : SourceId
  stage : IngestStage
  pass : Nat
  wall_ms : Nat
  bytes_read : Nat
  item_count : Nat
  output : IngestStageOutput
  deriving DecidableEq

inductive IngestStageDisposition where
  | retrying (attempt_count_max : Nat)
  | dead (permanent : Bool)
  deriving DecidableEq

def IngestStageDisposition.isDead : IngestStageDisposition → Bool
  | .retrying _ => false
  | .dead _ => true

structure IngestStageFailed where
  evidence_id : EvidenceId
  source_id : SourceId
  stage : IngestStage
  pass : Nat
  attempt_index : Nat
  code : String
  detail : String
  disposition : IngestStageDisposition
  deriving DecidableEq

structure TranscriptSegmentFact where
  segment_index : Nat
  start_ms : Nat
  end_ms : Nat
  starts_turn : Bool
  text : String
  deriving DecidableEq

structure EvidenceTranscribed where
  evidence_id : EvidenceId
  pass : Nat
  batch_index : Nat
  segments : List TranscriptSegmentFact
  deriving DecidableEq

structure ChunkFact where
  chunk_id : ChunkId
  ordinal : Nat
  kind : ChunkKind
  byte_start : Nat
  byte_end : Nat
  locator : Locator
  content_hash : Digest
  token_count_estimate : Nat
  deriving DecidableEq

structure EvidenceChunked where
  evidence_id : EvidenceId
  pass : Nat
  batch_index : Nat
  chunks : List ChunkFact
  deriving DecidableEq

structure ChunkEmbeddingFact where
  chunk_id : ChunkId
  row : Nat
  content_hash : Digest
  token_count : Nat
  truncated : Bool
  deriving DecidableEq

structure EvidenceEmbedded where
  evidence_id : EvidenceId
  source_id : SourceId
  pass : Nat
  batch_index : Nat
  model_id : String
  dim : Nat
  enrichment_version : Nat
  vectors_blob : Digest
  chunks : List ChunkEmbeddingFact
  deriving DecidableEq

structure EvidenceReprocessRequested where
  evidence_id : EvidenceId
  from_stage : IngestStage
  pass : Nat
  reason : String
  deriving DecidableEq

inductive IngestEvent where
  | evidenceAdded (body : EvidenceAdded)
  | stageStarted (body : IngestStageStarted)
  | stageFinished (body : IngestStageFinished)
  | stageFailed (body : IngestStageFailed)
  | evidenceTranscribed (body : EvidenceTranscribed)
  | evidenceChunked (body : EvidenceChunked)
  | evidenceEmbedded (body : EvidenceEmbedded)
  | reprocessRequested (body : EvidenceReprocessRequested)
  deriving DecidableEq

def IngestEvent.kindTag : IngestEvent → String
  | .evidenceAdded _ => "EvidenceAdded"
  | .stageStarted _ => "IngestStageStarted"
  | .stageFinished _ => "IngestStageFinished"
  | .stageFailed _ => "IngestStageFailed"
  | .evidenceTranscribed _ => "EvidenceTranscribed"
  | .evidenceChunked _ => "EvidenceChunked"
  | .evidenceEmbedded _ => "EvidenceEmbedded"
  | .reprocessRequested _ => "EvidenceReprocessRequested"

end ProjectOS.Domain
