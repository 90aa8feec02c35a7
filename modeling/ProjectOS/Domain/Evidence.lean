import Mathlib.Data.Prod.Lex
import Mathlib.Data.String.Basic
import ProjectOS.Domain.Rows
import ProjectOS.Domain.Ingest

/-! The ingestion projections and the typed reads over them. -/

namespace ProjectOS.Domain
open Lib List

/-- A `proj_evidence` row: provenance, written once, then outputs of the pipeline.
-/
structure EvidenceRow where
  source_id : SourceId
  source_kind : String
  external : ExternalRef
  media_kind : MediaKind
  content_blob : Digest
  byte_size : Int
  occurred_ts_ms : Int
  author : Option String
  title : Option String
  thread_ref : Option String
  added_seq : Int
  shape : EvidenceShape
  status : EvidenceStatus
  pass : Int
  text_blob : Option Digest
  text_byte_size : Option Int
  segments_blob : Option Digest
  segment_count : Option Int
  canary_level : Option CanaryLevel
  chunk_count : Int
  chunk_pass : Option Int
  updated_seq : Int
  deriving DecidableEq

inductive StageState where
  | running | done | retrying | dead
  deriving DecidableEq

structure StageKey where
  evidence_id : EvidenceId
  stage : IngestStage
  deriving DecidableEq

theorem StageKey.lex_injective :
    Function.Injective (fun k : StageKey => toLex (k.evidence_id,k.stage.asStr)) := by
  rintro ⟨a,b⟩ ⟨c,d⟩ h
  obtain ⟨hid,hstage⟩ := Prod.mk.inj (toLex_inj.mp h)
  exact congrArg₂ StageKey.mk hid (IngestStage.asStr_injective hstage)

instance : LinearOrder StageKey := LinearOrder.lift' _ StageKey.lex_injective

structure StageRow where
  pass : Int
  state : StageState
  attempt_index : Int
  job_id : Option JobId
  started_seq : Int
  settled_seq : Option Int
  wall_ms : Option Int
  bytes_read : Option Int
  item_count : Option Int
  last_error_code : Option String
  last_error_detail : Option String
  deriving DecidableEq

structure ChunkRow where
  evidence_id : EvidenceId
  ordinal : Int
  kind : ChunkKind
  byte_start : Int
  byte_end : Int
  locator_kind : LocatorKind
  locator_start : Int
  locator_end : Int
  content_hash : Digest
  token_count_estimate : Int
  pass : Int
  created_seq : Int
  deriving DecidableEq

structure EmbeddingKey where
  chunk_id : ChunkId
  model_id : String
  enrichment_version : Int
  deriving DecidableEq

theorem EmbeddingKey.lex_injective : Function.Injective
    (fun k : EmbeddingKey => toLex (k.chunk_id,toLex (k.model_id,k.enrichment_version))) := by
  rintro ⟨a,b,c⟩ ⟨d,e,f⟩ h
  simpa using h

instance : LinearOrder EmbeddingKey := LinearOrder.lift' _ EmbeddingKey.lex_injective

structure EmbeddingRow where
  evidence_id : EvidenceId
  dim : Int
  vectors_blob : Digest
  row : Int
  content_hash : Digest
  token_count : Int
  truncated : Bool
  pass : Int
  created_seq : Int
  deriving DecidableEq

def outputAssignments (output : IngestStageOutput) (pass : Nat) (row : EvidenceRow) : EvidenceRow :=
  match output with
  | .normalized shape text_blob text_byte_size segments_blob segment_count canary_level =>
    { row with
      shape := shape, text_blob := some text_blob,
      text_byte_size := some (integerU64 text_byte_size), segments_blob := some segments_blob,
      segment_count := some (integerU64 segment_count), canary_level := some canary_level }
  | .chunked chunk_count =>
    { row with chunk_count := integerU64 chunk_count, chunk_pass := some (integerU32 pass) }
  | .none => row

def addedRow (seq : Nat) (body : EvidenceAdded) : EvidenceRow where
  source_id := body.source_id
  source_kind := body.source_kind
  external := body.external
  media_kind := body.media_kind
  content_blob := body.content_blob
  byte_size := integerU64 body.byte_size
  occurred_ts_ms := integerU64 body.occurred_ts_ms
  author := body.author
  title := body.title
  thread_ref := body.thread_ref
  added_seq := integerU64 seq
  shape := body.shape
  status := .raw
  pass := integerU32 0
  text_blob := none
  text_byte_size := none
  segments_blob := none
  segment_count := none
  canary_level := none
  chunk_count := 0
  chunk_pass := none
  updated_seq := integerU64 seq

def applyEvidence (t : Table EvidenceId EvidenceRow) (seq : Nat) :
    IngestEvent → Except ApplyError (Table EvidenceId EvidenceRow)
  | .evidenceAdded body => insertRow "proj_evidence" t body.evidence_id (addedRow seq body)
  | .stageFinished body =>
    updateOne "proj_evidence" "strict update" t body.evidence_id fun row =>
      outputAssignments body.output body.pass
        { row with
          status := .after body.stage, pass := integerU32 body.pass,
          updated_seq := integerU64 seq }
  | .stageFailed body =>
    -- a retry leaves the item where its last successful stage left it
    if body.disposition.isDead then
      updateOne "proj_evidence" "strict update" t body.evidence_id fun row =>
        { row with status := .failed, updated_seq := integerU64 seq }
    else .ok t
  | .reprocessRequested body =>
    updateOne "proj_evidence" "strict update" t body.evidence_id fun row =>
      { row with pass := integerU32 body.pass, updated_seq := integerU64 seq }
  | _ => .ok t

def evidenceUpdate (seq : Nat) : IngestEvent → Option (EvidenceId × (EvidenceRow → EvidenceRow))
  | .stageFinished body => some (body.evidence_id,fun row =>
      outputAssignments body.output body.pass
        { row with
          status := .after body.stage, pass := integerU32 body.pass,
          updated_seq := integerU64 seq })
  | .stageFailed body =>
    if body.disposition.isDead then some (body.evidence_id,fun row =>
      { row with status := .failed, updated_seq := integerU64 seq })
    else none
  | .reprocessRequested body => some (body.evidence_id,fun row =>
      { row with pass := integerU32 body.pass, updated_seq := integerU64 seq })
  | _ => none

variable {event : IngestEvent} {seq : Nat}

theorem applyEvidence_cases {t t' : Table EvidenceId EvidenceRow}
    (h : applyEvidence t seq event = .ok t') :
    (∃ body, event = .evidenceAdded body ∧ t.get? body.evidence_id = none ∧
        t' = t.put body.evidence_id (addedRow seq body)) ∨
      (∃ e f row, evidenceUpdate seq event = some (e,f) ∧ t.get? e = some row ∧
        t' = t.put e (f row)) ∨
      (evidenceUpdate seq event = none ∧ (∀ body, event ≠ .evidenceAdded body) ∧ t' = t) := by
  cases event with
  | evidenceAdded body =>
    obtain ⟨hnone,rfl⟩ := insertRow_ok h
    exact Or.inl ⟨body,rfl,hnone,rfl⟩
  | stageFinished | reprocessRequested =>
    obtain ⟨row,hrow,rfl⟩ := updateOne_ok h
    exact Or.inr (Or.inl ⟨_,_,row,rfl,hrow,rfl⟩)
  | stageFailed body =>
    rw [applyEvidence] at h
    split_ifs at h with hdead
    · obtain ⟨row,hrow,rfl⟩ := updateOne_ok h
      exact Or.inr (Or.inl ⟨_,_,row,if_pos hdead,hrow,rfl⟩)
    · cases h
      exact Or.inr (Or.inr ⟨by simp [evidenceUpdate,hdead],by simp,rfl⟩)
  | _ =>
    cases h
    exact Or.inr (Or.inr ⟨rfl,by simp,rfl⟩)

theorem evidenceUpdate_media {e : EvidenceId} {f : EvidenceRow → EvidenceRow}
    (h : evidenceUpdate seq event = some (e,f)) (row : EvidenceRow) :
    (f row).media_kind = row.media_kind := by
  cases event with
  | stageFinished body =>
    cases h
    cases body.output <;> rfl
  | stageFailed body =>
    rw [evidenceUpdate] at h
    split_ifs at h
    cases h
    rfl
  | reprocessRequested body =>
    cases h
    rfl
  | _ => cases h

def applyStages (t : Table StageKey StageRow) (seq : Nat) :
    IngestEvent → Except ApplyError (Table StageKey StageRow)
  | .stageStarted body =>
    .ok (t.put ⟨body.evidence_id,body.stage⟩
      { pass := integerU32 body.pass, state := .running,
        attempt_index := integerU32 body.attempt_index, job_id := some body.job_id,
        started_seq := integerU64 seq, settled_seq := none, wall_ms := none,
        bytes_read := none, item_count := none, last_error_code := none,
        last_error_detail := none })
  | .stageFinished body =>
    updateOne "proj_evidence_stages" "strict update" t ⟨body.evidence_id,body.stage⟩ fun row =>
      { row with
        pass := integerU32 body.pass, state := .done, settled_seq := some (integerU64 seq),
        wall_ms := some (integerU64 body.wall_ms), bytes_read := some (integerU64 body.bytes_read),
        item_count := some (integerU64 body.item_count) }
  | .stageFailed body =>
    updateOne "proj_evidence_stages" "strict update" t ⟨body.evidence_id,body.stage⟩ fun row =>
      { row with
        pass := integerU32 body.pass,
        state := if body.disposition.isDead then .dead else .retrying,
        attempt_index := integerU32 body.attempt_index, settled_seq := some (integerU64 seq),
        last_error_code := some body.code, last_error_detail := some body.detail }
  | _ => .ok t

def chunkRow (seq : Nat) (evidence_id : EvidenceId) (pass : Nat) (chunk : ChunkFact) :
    ChunkRow where
  evidence_id := evidence_id
  ordinal := integerU32 chunk.ordinal
  kind := chunk.kind
  byte_start := integerU64 chunk.byte_start
  byte_end := integerU64 chunk.byte_end
  locator_kind := chunk.locator.kind
  locator_start := integerU64 chunk.locator.bounds.1
  locator_end := integerU64 chunk.locator.bounds.2
  content_hash := chunk.content_hash
  token_count_estimate := integerU32 chunk.token_count_estimate
  pass := integerU32 pass
  created_seq := integerU64 seq

def applyChunks (t : Table ChunkId ChunkRow) (seq : Nat) : IngestEvent → Table ChunkId ChunkRow
  | .evidenceChunked body =>
    body.chunks.foldl (fun t chunk =>
      t.put chunk.chunk_id (chunkRow seq body.evidence_id body.pass chunk)) t
  | _ => t

def embeddingKey (model_id : String) (enrichment_version : Nat) (chunk_id : ChunkId) :
    EmbeddingKey := ⟨chunk_id,model_id,integerU32 enrichment_version⟩

def embeddingRow (seq : Nat) (body : EvidenceEmbedded) (chunk : ChunkEmbeddingFact) :
    EmbeddingRow where
  evidence_id := body.evidence_id
  dim := integerU32 body.dim
  vectors_blob := body.vectors_blob
  row := integerU32 chunk.row
  content_hash := chunk.content_hash
  token_count := integerU32 chunk.token_count
  truncated := chunk.truncated
  pass := integerU32 body.pass
  created_seq := integerU64 seq

def applyEmbeddings (t : Table EmbeddingKey EmbeddingRow) (seq : Nat) :
    IngestEvent → Table EmbeddingKey EmbeddingRow
  | .evidenceEmbedded body =>
    body.chunks.foldl (fun t chunk =>
      t.put (embeddingKey body.model_id body.enrichment_version chunk.chunk_id)
        (embeddingRow seq body chunk)) t
  | _ => t

structure EvidenceTables where
  evidence : Table EvidenceId EvidenceRow
  stages : Table StageKey StageRow
  chunks : Table ChunkId ChunkRow
  embeddings : Table EmbeddingKey EmbeddingRow
  deriving DecidableEq

def EvidenceTables.empty : EvidenceTables := ⟨Table.empty,Table.empty,Table.empty,Table.empty⟩

def EvidenceTables.apply (db : EvidenceTables) (seq : Nat) (event : IngestEvent) :
    Except ApplyError EvidenceTables :=
  match applyEvidence db.evidence seq event with
  | .error e => .error e
  | .ok evidence =>
    match applyStages db.stages seq event with
    | .error e => .error e
    | .ok stages =>
      .ok ⟨evidence,stages,applyChunks db.chunks seq event,applyEmbeddings db.embeddings seq event⟩

theorem EvidenceTables.apply_ok {db db' : EvidenceTables} (h : db.apply seq event = .ok db') :
    applyEvidence db.evidence seq event = .ok db'.evidence ∧
      applyStages db.stages seq event = .ok db'.stages ∧
      db'.chunks = applyChunks db.chunks seq event ∧
      db'.embeddings = applyEmbeddings db.embeddings seq event := by
  rw [EvidenceTables.apply] at h
  split at h
  · cases h
  · rename_i evidence he
    split at h
    · cases h
    · rename_i stages hs
      cases h
      exact ⟨he,hs,rfl,rfl⟩

def evidenceListRowCountMax : Nat := 500

structure EvidenceRecord where
  evidence_id : EvidenceId
  source_id : SourceId
  source_kind : String
  external : ExternalRef
  media_kind : MediaKind
  shape : EvidenceShape
  content_blob : Digest
  byte_size : Nat
  occurred_ts_ms : Nat
  author : Option String
  title : Option String
  thread_ref : Option String
  status : EvidenceStatus
  pass : Nat
  text_blob : Option Digest
  text_byte_size : Option Nat
  segments_blob : Option Digest
  segment_count : Option Nat
  canary_level : CanaryLevel
  chunk_count : Nat
  chunk_pass : Option Nat
  added_seq : Nat
  updated_seq : Nat
  deriving DecidableEq

def EvidenceRow.intoRecord (evidence_id : EvidenceId) (row : EvidenceRow) : EvidenceRecord where
  evidence_id := evidence_id
  source_id := row.source_id
  source_kind := row.source_kind
  external := row.external
  media_kind := row.media_kind
  shape := row.shape
  content_blob := row.content_blob
  byte_size := nonNegative row.byte_size
  occurred_ts_ms := nonNegative row.occurred_ts_ms
  author := row.author
  title := row.title
  thread_ref := row.thread_ref
  status := row.status
  pass := countU32 row.pass
  text_blob := row.text_blob
  text_byte_size := row.text_byte_size.map nonNegative
  segments_blob := row.segments_blob
  segment_count := row.segment_count.map nonNegative
  canary_level := row.canary_level.getD .clean
  chunk_count := nonNegative row.chunk_count
  chunk_pass := row.chunk_pass.map countU32
  added_seq := nonNegative row.added_seq
  updated_seq := nonNegative row.updated_seq

structure ChunkRecord where
  chunk_id : ChunkId
  evidence_id : EvidenceId
  ordinal : Nat
  kind : ChunkKind
  byte_start : Nat
  byte_end : Nat
  locator : Locator
  content_hash : Digest
  token_count_estimate : Nat
  pass : Nat
  deriving DecidableEq

def ChunkRow.intoRecord (chunk_id : ChunkId) (row : ChunkRow) : ChunkRecord where
  chunk_id := chunk_id
  evidence_id := row.evidence_id
  ordinal := countU32 row.ordinal
  kind := row.kind
  byte_start := nonNegative row.byte_start
  byte_end := nonNegative row.byte_end
  locator := .fromColumns row.locator_kind (nonNegative row.locator_start)
    (nonNegative row.locator_end)
  content_hash := row.content_hash
  token_count_estimate := countU32 row.token_count_estimate
  pass := countU32 row.pass

structure ChunkEmbeddingRecord where
  chunk_id : ChunkId
  evidence_id : EvidenceId
  model_id : String
  enrichment_version : Nat
  dim : Nat
  vectors_blob : Digest
  row : Nat
  content_hash : Digest
  token_count : Nat
  truncated : Bool
  pass : Nat
  deriving DecidableEq

def countU16 (value : Int) : Nat :=
  if 0 ≤ value ∧ value ≤ u16Max then value.toNat else 0

def EmbeddingRow.intoRecord (key : EmbeddingKey) (row : EmbeddingRow) : ChunkEmbeddingRecord where
  chunk_id := key.chunk_id
  evidence_id := row.evidence_id
  model_id := key.model_id
  enrichment_version := countU16 key.enrichment_version
  dim := countU16 row.dim
  vectors_blob := row.vectors_blob
  row := countU32 row.row
  content_hash := row.content_hash
  token_count := countU32 row.token_count
  truncated := row.truncated
  pass := countU32 row.pass

namespace EvidenceTables
variable (db : EvidenceTables)

def readEvidence (evidence_id : EvidenceId) : Option EvidenceRecord :=
  (db.evidence.get? evidence_id).map (EvidenceRow.intoRecord evidence_id)

def evidenceBefore (a b : EvidenceId × EvidenceRow) : Prop :=
  b.2.occurred_ts_ms < a.2.occurred_ts_ms ∨
    (a.2.occurred_ts_ms = b.2.occurred_ts_ms ∧ a.1 ≤ b.1)

instance (a b : EvidenceId × EvidenceRow) : Decidable (evidenceBefore a b) :=
  inferInstanceAs (Decidable (_ ∨ _))

def listEvidence (row_count_max : Nat) : List EvidenceRecord :=
  ((db.evidence.rows.insertionSort evidenceBefore).take
    (min row_count_max evidenceListRowCountMax)).map (fun r => r.2.intoRecord r.1)

/-- The chunk rows of an item under one pass, or under its own chunk pass; an item
never chunked has none. -/
def chunksOf (evidence_id : EvidenceId) (pass : Option Nat) : List (ChunkId × ChunkRow) :=
  db.chunks.rows.filter fun r =>
    r.2.evidence_id = evidence_id &&
      match pass with
      | some p => r.2.pass = integerU32 p
      | none => ((db.evidence.get? evidence_id).bind EvidenceRow.chunk_pass) = some r.2.pass

def chunkBefore (a b : ChunkId × ChunkRow) : Prop :=
  a.2.ordinal < b.2.ordinal ∨ (a.2.ordinal = b.2.ordinal ∧ a.1 ≤ b.1)

instance (a b : ChunkId × ChunkRow) : Decidable (chunkBefore a b) :=
  inferInstanceAs (Decidable (_ ∨ _))

def listChunks (evidence_id : EvidenceId) (pass : Option Nat) (row_count_max : Nat) :
    List ChunkRecord :=
  (((db.chunksOf evidence_id pass).insertionSort chunkBefore).take
    (min row_count_max evidenceListRowCountMax)).map (fun r => r.2.intoRecord r.1)

def vectorBefore (a b : EmbeddingKey × EmbeddingRow) : Prop :=
  a.2.vectors_blob < b.2.vectors_blob ∨
    (a.2.vectors_blob = b.2.vectors_blob ∧ a.2.row ≤ b.2.row)

instance (a b : EmbeddingKey × EmbeddingRow) : Decidable (vectorBefore a b) :=
  inferInstanceAs (Decidable (_ ∨ _))

def listChunkEmbeddings (evidence_id : EvidenceId) (model_id : String) (enrichment_version : Nat)
    (row_count_max : Nat) : List ChunkEmbeddingRecord :=
  (((db.embeddings.rows.filter fun r =>
      r.2.evidence_id = evidence_id && r.1.model_id = model_id &&
        r.1.enrichment_version = integerU32 enrichment_version).insertionSort vectorBefore).take
    (min row_count_max evidenceListRowCountMax)).map (fun r => r.2.intoRecord r.1)

def findEmbeddingByContent (content_hash : Digest) (model_id : String)
    (enrichment_version : Nat) : Option ChunkEmbeddingRecord :=
  (((db.embeddings.rows.filter fun r =>
      r.2.content_hash = content_hash && r.1.model_id = model_id &&
        r.1.enrichment_version = integerU32 enrichment_version).insertionSort
    (fun a b => a.2.created_seq ≤ b.2.created_seq)).head?).map (fun r => r.2.intoRecord r.1)

variable {db} {model_id : String} {enrichment_version : Nat}

theorem embeddingKey_of {key : EmbeddingKey} (hm : key.model_id = model_id)
    (hv : key.enrichment_version = integerU32 enrichment_version) :
    key = embeddingKey model_id enrichment_version key.chunk_id := by
  cases key
  simp only [embeddingKey,EmbeddingKey.mk.injEq,true_and]
  exact ⟨hm,hv⟩

variable {evidence_id : EvidenceId} {row_count_max : Nat} {r : ChunkEmbeddingRecord}

theorem mem_listChunkEmbeddings
    (h : r ∈ db.listChunkEmbeddings evidence_id model_id enrichment_version row_count_max) :
    ∃ row, db.embeddings.get? (embeddingKey model_id enrichment_version r.chunk_id) = some row ∧
      row.evidence_id = evidence_id ∧
      r = row.intoRecord (embeddingKey model_id enrichment_version r.chunk_id) := by
  obtain ⟨⟨key,row⟩,hr,rfl⟩ := mem_map.mp h
  have hmem := (mem_insertionSort _).mp (mem_of_mem_take hr)
  simp only [mem_filter,Bool.and_eq_true,decide_eq_true_eq] at hmem
  obtain ⟨hrow,⟨he,hm⟩,hv⟩ := hmem
  have hkey := embeddingKey_of hm hv
  refine ⟨row,?_,he,?_⟩
  · rw [← db.embeddings.mem_rows]
    exact hkey ▸ hrow
  · exact congrArg (fun k => row.intoRecord k) hkey

variable {content_hash : Digest}

theorem findEmbeddingByContent_some
    (h : db.findEmbeddingByContent content_hash model_id enrichment_version = some r) :
    ∃ row, db.embeddings.get? (embeddingKey model_id enrichment_version r.chunk_id) = some row ∧
      row.content_hash = content_hash ∧
      r = row.intoRecord (embeddingKey model_id enrichment_version r.chunk_id) := by
  obtain ⟨⟨key,row⟩,hr,rfl⟩ := Option.map_eq_some_iff.mp h
  have hmem := (mem_insertionSort _).mp (mem_of_mem_head? hr)
  simp only [mem_filter,Bool.and_eq_true,decide_eq_true_eq] at hmem
  obtain ⟨hrow,⟨hc,hm⟩,hv⟩ := hmem
  have hkey := embeddingKey_of hm hv
  refine ⟨row,?_,hc,?_⟩
  · rw [← db.embeddings.mem_rows]
    exact hkey ▸ hrow
  · exact congrArg (fun k => row.intoRecord k) hkey

theorem findEmbeddingByContent_none
    (h : db.findEmbeddingByContent content_hash model_id enrichment_version = none)
    {chunk_id : ChunkId} {row : EmbeddingRow}
    (hrow : db.embeddings.get? (embeddingKey model_id enrichment_version chunk_id) = some row) :
    row.content_hash ≠ content_hash := by
  intro hc
  have hfilter : (embeddingKey model_id enrichment_version chunk_id,row) ∈
      db.embeddings.rows.filter fun r =>
        r.2.content_hash = content_hash && r.1.model_id = model_id &&
          r.1.enrichment_version = integerU32 enrichment_version :=
    mem_filter.mpr ⟨db.embeddings.mem_rows.mpr hrow,by simp [embeddingKey,hc]⟩
  have hhead := List.head?_eq_none_iff.mp (Option.map_eq_none_iff.mp h)
  have hmem := (mem_insertionSort (fun a b : EmbeddingKey × EmbeddingRow =>
    a.2.created_seq ≤ b.2.created_seq)).mpr hfilter
  rw [hhead] at hmem
  exact absurd hmem not_mem_nil

theorem listChunks_length (evidence_id : EvidenceId) (pass : Option Nat) (row_count_max : Nat) :
    (db.listChunks evidence_id pass row_count_max).length =
      min (min row_count_max evidenceListRowCountMax) (db.chunksOf evidence_id pass).length := by
  rw [listChunks,length_map,length_take,length_insertionSort]

theorem listChunks_row {pass : Option Nat} {r : ChunkRecord}
    (h : r ∈ db.listChunks evidence_id pass row_count_max) :
    ∃ row, db.chunks.get? r.chunk_id = some row ∧ r = row.intoRecord r.chunk_id := by
  obtain ⟨⟨j,row⟩,hr,rfl⟩ := mem_map.mp h
  have hmem := (mem_insertionSort _).mp (mem_of_mem_take hr)
  exact ⟨row,db.chunks.mem_rows.mp (mem_of_mem_filter hmem),rfl⟩

theorem mem_listChunks {pass : Option Nat}
    (hfit : (db.chunksOf evidence_id pass).length ≤ min row_count_max evidenceListRowCountMax)
    {chunk_id : ChunkId} {row : ChunkRow} (h : (chunk_id,row) ∈ db.chunksOf evidence_id pass) :
    row.intoRecord chunk_id ∈ db.listChunks evidence_id pass row_count_max := by
  refine mem_map.mpr ⟨(chunk_id,row),?_,rfl⟩
  rw [take_of_length_le (by rw [length_insertionSort]; exact hfit)]
  exact (mem_insertionSort _).mpr h

end EvidenceTables
end ProjectOS.Domain
