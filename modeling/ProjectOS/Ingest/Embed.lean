import ProjectOS.Ingest.Log

/-! EMBED: the chunks of an item become vectors, one bounded batch at a time.
Each batch is committed before the next begins. -/

namespace ProjectOS.Ingest
open Lib Domain

def eventRefsCountMax : Nat := 64
def chunkTextBytesMax : Nat := 400*4*4
def embedChunkCountMax : Nat := evidenceListRowCountMax
def embedBatchCountMax : Nat := eventRefsCountMax-1
def gatewayEmbedBatchCountMax : Nat := 64
def embedSequenceTokensMax : Nat := 512
def embedBatchPaddedTokensMax : Nat := 1024
def embedActivationBytesPerPaddedToken : Nat := 76800

structure StageContext where
  evidence : EvidenceRecord
  stage : IngestStage
  pass : Nat

structure StageProduct where
  output : IngestStageOutput
  bytes_read : Nat
  item_count : Nat
  deriving DecidableEq

abbrev ContextProg := Prog ingestIface IngestError

def StageContext.readTextRange (ctx : StageContext) (byte_start byte_end : Nat) :
    ContextProg String :=
  if chunkTextBytesMax < byte_end-byte_start then
    .throw (.limitExceeded "chunk text" (byte_end-byte_start) chunkTextBytesMax)
  else
    match ctx.evidence.text_blob with
    | none => .throw (.stageInputMissing ctx.stage "the normalized text blob")
    | some hash => .act (.readText hash byte_start (byte_end-byte_start)) .ofExcept

def StageContext.emitEmbeddings (ctx : StageContext) (batch_index : Nat) (model_id : String)
    (dim enrichment_version : Nat) (vectors_blob : Digest) (chunks : List ChunkEmbeddingFact) :
    ContextProg Unit :=
  if embedBatchCountMax < chunks.length then
    .throw (.limitExceeded "embed batch" chunks.length embedBatchCountMax)
  else if chunks = [] then .ret ()
  else
    .act (.append [.ingest (.evidenceEmbedded
      { evidence_id := ctx.evidence.evidence_id, source_id := ctx.evidence.source_id,
        pass := ctx.pass, batch_index := batch_index, model_id := model_id, dim := dim,
        enrichment_version := enrichment_version, vectors_blob := vectors_blob,
        chunks := chunks })]) (fun r => .ofExcept (r.mapError .log))

def weatherFailure (code : String) (weather : Gateway.Weather) : StageFailure :=
  let detail := s!"{code}: {weather.code}"
  match weather with
  | .policyViolation .. | .invalidRequest _ | .refusal _ | .unsupportedField _
  | .credentialRevoked | .notYetSupported .. => .refusal weather.code detail
  | _ => .retriable weather.code detail

def readFailure (code fault : String) : StageFailure := .retriable code fault

def ingestFailure (code : String) (error : IngestError) : StageFailure :=
  .retriable code error.text

def blobFailure (failure : BlobFailure) : StageFailure :=
  match failure.step with
  | .open_ => .retriable "embed_blob_open" failure.fault
  | .write => .retriable "embed_blob_write" failure.fault
  | .finish => .retriable "embed_blob_finish" failure.fault

structure EmbedBatchPlan where
  padded_tokens_max : Nat
  count_max : Nat

def EmbedBatchPlan.default : EmbedBatchPlan :=
  ⟨embedBatchPaddedTokensMax,gatewayEmbedBatchCountMax⟩

def clampTokens (tokens : Nat) : Nat := min (max 1 tokens) embedSequenceTokensMax

def EmbedBatchPlan.check (plan : EmbedBatchPlan) (token_counts : List Nat) :
    Except Gateway.Weather Unit :=
  if token_counts = [] then .error (.invalidRequest "an embedding batch with no inputs")
  else if plan.count_max < token_counts.length then
    .error (.budgetExhausted "embed_batch_count"
      s!"{token_counts.length} inputs exceed the {plan.count_max}-input batch budget")
  else
    let longest := (token_counts.map clampTokens).foldl max 1
    if 1 < token_counts.length ∧ plan.padded_tokens_max < token_counts.length*longest then
      .error (.budgetExhausted "embed_batch_padded_tokens"
        s!"{token_counts.length} inputs padded to {longest} tokens is {token_counts.length*longest} padded tokens, past the {plan.padded_tokens_max}-token batch budget (≈{plan.padded_tokens_max*embedActivationBytesPerPaddedToken/(1024*1024)} MiB of activation)")
    else .ok ()

structure EmbedSetup where
  model_name : String
  dim : Nat
  enrichment_version : Nat

structure ReusedVector where
  vectors_blob : Digest
  row : Nat
  deriving DecidableEq

structure PendingChunk where
  chunk_id : ChunkId
  content_hash : Digest
  text : String
  token_count : Nat
  truncated : Bool
  reuse : Option ReusedVector
  deriving DecidableEq

/-- The batch being filled; the candidate tokens count the chunk under
consideration. -/
structure Batcher where
  pending : List PendingChunk
  candidate_tokens : List Nat
  longest_tokens : Nat
  batch_index : Nat
  vector_count : Nat
  bytes_read : Nat

def Batcher.new : Batcher := ⟨[],[],0,0,0,0⟩

def batchCountMax : Nat := min embedBatchCountMax gatewayEmbedBatchCountMax

def Batcher.skipCommitted (b : Batcher) : Batcher :=
  { b with vector_count := satAdd64 b.vector_count 1 }

def estimateTokens (text : String) : Nat := max ((text.length+2)/3) 1

/-- One run of the stage: what it is about, its setup, and the width of the
engine it was given. -/
structure EmbedCall where
  context : StageContext
  setup : EmbedSetup
  dim : Nat

namespace EmbedCall
variable (c : EmbedCall)

def chunkText (chunk : ChunkRecord) : IngestProg String :=
  (c.context.readTextRange chunk.byte_start chunk.byte_end).mapError
    (ingestFailure "embed_text_unreadable")

def emit (batch_index : Nat) (vectors_blob : Digest) (facts : List ChunkEmbeddingFact) :
    IngestProg Unit :=
  (c.context.emitEmbeddings batch_index c.setup.model_name c.dim c.setup.enrichment_version
    vectors_blob facts).mapError (ingestFailure "embed_commit")

def commitReused (b : Batcher) (pending : PendingChunk) : IngestProg Batcher :=
  match pending.reuse with
  | none =>
    .throw (.refusal "embed_reuse_missing"
      "a reused vector vanished between the guard and the read")
  | some reuse =>
    (c.emit b.batch_index reuse.vectors_blob
      [{ chunk_id := pending.chunk_id, row := reuse.row, content_hash := pending.content_hash,
         token_count := min pending.token_count u32Max, truncated := pending.truncated }]).bind
      fun _ => .ret
        { b with
          batch_index := satAdd32 b.batch_index 1, vector_count := satAdd64 b.vector_count 1 }

def batchFact (chunk : PendingChunk) (row : Nat) : ChunkEmbeddingFact where
  chunk_id := chunk.chunk_id
  row := min row u32Max
  content_hash := chunk.content_hash
  token_count := min chunk.token_count u32Max
  truncated := chunk.truncated

def batchFacts (pending : List PendingChunk) : List ChunkEmbeddingFact :=
  pending.zipIdx.map fun p => batchFact p.1 p.2

def flush (b : Batcher) : IngestProg Batcher :=
  if b.pending = [] then .ret b
  else
    let taken := { b with pending := [], candidate_tokens := [], longest_tokens := 0 }
    .act (.embed c.setup.model_name (b.pending.map PendingChunk.text) c.setup.enrichment_version)
      fun
      | .error weather => .throw (weatherFailure "embed_call" weather)
      | .ok batch =>
        -- a short answer is a refusal, never a partial index
        if batch.count ≠ b.pending.length then
          .throw (.refusal "embed_count_mismatch"
            s!"the engine returned {batch.count} vectors for {b.pending.length} chunks")
        else
          .act (.writeBlob batch.bytes) fun
            | .error failure => .throw (blobFailure failure)
            | .ok vectors_blob =>
              (c.emit b.batch_index vectors_blob (batchFacts b.pending)).bind fun _ => .ret
                { taken with
                  batch_index := satAdd32 b.batch_index 1,
                  vector_count := satAdd64 b.vector_count b.pending.length }

def enter (b : Batcher) (pending : PendingChunk) : IngestProg Batcher :=
  let candidate := { b with candidate_tokens := b.candidate_tokens ++ [pending.token_count] }
  let admissible := candidate.candidate_tokens.length ≤ batchCountMax ∧
    (EmbedBatchPlan.default.check candidate.candidate_tokens).isOk
  (if b.pending ≠ [] ∧ ¬admissible then
    (c.flush candidate).bind fun b => .ret
      { b with candidate_tokens := b.candidate_tokens ++ [pending.token_count] }
  else .ret candidate).bind fun b => .ret
    { b with
      longest_tokens := max b.longest_tokens pending.token_count,
      pending := b.pending ++ [pending] }

def pendingChunk (chunk : ChunkRecord) (text : String) (found : Option ChunkEmbeddingRecord) :
    PendingChunk where
  chunk_id := chunk.chunk_id
  content_hash := chunk.content_hash
  text := text
  token_count := clampTokens (estimateTokens text)
  truncated := embedSequenceTokensMax ≤ clampTokens (estimateTokens text)
  reuse := found.map fun r => ⟨r.vectors_blob,r.row⟩

def push (b : Batcher) (chunk : ChunkRecord) : IngestProg Batcher :=
  (c.chunkText chunk).bind fun text =>
    let b := { b with bytes_read := satAdd64 b.bytes_read text.utf8ByteSize }
    .act (.findEmbeddingByContent chunk.content_hash c.setup.model_name c.setup.enrichment_version)
      fun
      | .error fault => .throw (readFailure "embed_content_lookup" fault)
      | .ok found =>
        let pending := pendingChunk chunk text found
        if pending.reuse.isSome then c.commitReused b pending else c.enter b pending

def takeChunk (done : List ChunkId) (b : Batcher) (chunk : ChunkRecord) : IngestProg Batcher :=
  if chunk.chunk_id ∈ done then .ret b.skipCommitted else c.push b chunk

def finish (b : Batcher) : IngestProg StageProduct :=
  (c.flush b).bind fun b => .ret ⟨.none,b.bytes_read,b.vector_count⟩

def alreadyEmbedded : IngestProg (List ChunkId) :=
  .act (.listChunkEmbeddings c.context.evidence.evidence_id c.setup.model_name
    c.setup.enrichment_version embedChunkCountMax) fun
    | .error fault => .throw (readFailure "embed_rows_unreadable" fault)
    | .ok rows => .ret (rows.map ChunkEmbeddingRecord.chunk_id)

def listed : IngestProg (List ChunkRecord) :=
  .act (.listChunks c.context.evidence.evidence_id none embedChunkCountMax) fun
    | .error fault => .throw (readFailure "embed_chunks_unreadable" fault)
    | .ok chunks => .ret chunks

def embedChunks (chunks : List ChunkRecord) (done : List ChunkId) : IngestProg StageProduct :=
  (chunks.foldlM (c.takeChunk done) Batcher.new).bind c.finish

def embedItem : IngestProg StageProduct :=
  if c.dim ≠ c.setup.dim then
    .throw (.refusal "embed_dim_mismatch"
      s!"the engine is {c.dim}-dimensional but the route declares {c.setup.dim} — one index cannot hold both")
  else
    c.listed.bind fun chunks =>
      if chunks = [] then .ret ⟨.none,0,0⟩
      else c.alreadyEmbedded.bind (c.embedChunks chunks)

end EmbedCall
end ProjectOS.Ingest
