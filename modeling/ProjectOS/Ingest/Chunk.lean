import ProjectOS.Lib.Pieces
import ProjectOS.Ingest.Pipeline
import ProjectOS.Ingest.Index

/-! CHUNK: a greedy window over the segment index, closed by its size and by the
rule of the shape. The bytes of a closed window become chunk facts. -/

namespace ProjectOS.Ingest
open Lib Domain Sched

def tokenBytesEstimate : Nat := 4
def chunkCountMax : Nat := 4000000
def segmentRecordBytes : Nat := 40

inductive BoundaryRule where
  | anySegment
  | perSegment
  | headingSection
  deriving DecidableEq

structure ChunkParams where
  kind : ChunkKind
  boundary : BoundaryRule
  target_tokens : Nat
  tokens_max : Nat

namespace ChunkParams

def bytesTarget (p : ChunkParams) : Nat := p.target_tokens*tokenBytesEstimate

def bytesMax (p : ChunkParams) : Nat := p.tokens_max*tokenBytesEstimate

end ChunkParams

def chunkParamsFor : EvidenceShape → ChunkParams
  | .transcript => ⟨.transcriptTurns,.anySegment,300,400⟩
  | .thread => ⟨.threadMessages,.anySegment,300,400⟩
  | .message => ⟨.messageBody,.perSegment,300,400⟩
  | .document => ⟨.documentSection,.headingSection,300,400⟩
  | .table => ⟨.tableRows,.anySegment,300,400⟩

structure ChunkStage where
  target_tokens : Option Nat

def ChunkStage.paramsFor (stage : ChunkStage) (shape : EvidenceShape) : ChunkParams :=
  match stage.target_tokens with
  | none => chunkParamsFor shape
  | some target_tokens =>
    { chunkParamsFor shape with
      target_tokens := target_tokens
      tokens_max := satAdd32 target_tokens (target_tokens/3) }

structure ContentHasher where
  hashed : Bytes
  pending_space : Bool
  started : Bool
  content_byte_count : Nat

namespace ContentHasher

def new : ContentHasher := ⟨utf8Bytes "projectos/chunk-content/v1",false,false,0⟩

def take (h : ContentHasher) (b : UInt8) : ContentHasher :=
  if isAsciiWhitespace b then { h with pending_space := h.started }
  else if h.pending_space then
    ⟨h.hashed ++ [32,b],false,true,h.content_byte_count+2⟩
  else ⟨h.hashed ++ [b],false,true,h.content_byte_count+1⟩

def update (h : ContentHasher) (bytes : Bytes) : ContentHasher := bytes.foldl take h

def isEmpty (h : ContentHasher) : Bool := !h.started

def finalize (blake3 : Bytes → Digest) (h : ContentHasher) : Digest := blake3 h.hashed

end ContentHasher

structure Window where
  byte_start : Nat
  byte_end : Nat
  locator : Option Locator
  depth : Nat
  segment_count : Nat
  deriving DecidableEq

def extend (current : Option Locator) (next : Locator) : Locator :=
  match current with
  | none => next
  | some current =>
    match current,next with
    | .timeRange start_ms _,.timeRange _ end_ms => .timeRange start_ms end_ms
    | .lineRange start _,.lineRange _ next_end => .lineRange start next_end
    | .messageRange start _,.messageRange _ next_end => .messageRange start next_end
    | current,_ => current

namespace Window

def empty : Window := ⟨0,0,none,0,0⟩

def isEmpty (w : Window) : Bool := w.segment_count == 0

def byteLen (w : Window) : Nat := w.byte_end-w.byte_start

def wouldClose (w : Window) (next : Segment) (p : ChunkParams) : Bool :=
  if w.isEmpty then false
  else
    match p.boundary with
    | .perSegment => true
    | .headingSection => decide (0 < next.depth) || decide (p.bytesTarget ≤ w.byteLen)
    | .anySegment => decide (p.bytesTarget ≤ w.byteLen)

def exceedsMax (w : Window) (p : ChunkParams) : Bool := decide (p.bytesMax ≤ w.byteLen)

def push (w : Window) (segment : Segment) : Window :=
  if w.isEmpty then ⟨segment.byte_start,segment.byte_end,some segment.locator,segment.depth,1⟩
  else
    { w with
      byte_end := segment.byte_end
      locator := some (extend w.locator segment.locator)
      segment_count := w.segment_count+1 }

end Window

inductive ChunkStop where
  | refused (error : StreamError)
  | log (error : LogError)

structure ChunkEmitter where
  committed : List (Nat × List ChunkFact)
  batch : List ChunkFact
  batch_index : Nat
  ordinal : Nat
  total : Nat
  text_offset : Nat

def ChunkEmitter.new : ChunkEmitter := ⟨[],[],0,0,0,0⟩

structure ChunkRun where
  blake3 : Bytes → Digest
  evidence_id : EvidenceId
  params : ChunkParams
  appends : Nat → Except LogError Unit

namespace ChunkRun
variable (R : ChunkRun)

def flush (e : ChunkEmitter) : Except (ChunkStop × ChunkEmitter) ChunkEmitter :=
  if e.batch = [] then .ok e
  else if chunkBatchCountMax < e.batch.length then
    .error (.refused (.limitExceeded "chunk batch" e.batch.length chunkBatchCountMax),
      { e with batch := [] })
  else
    match R.appends e.batch_index with
    | .error error => .error (.log error,{ e with batch := [] })
    | .ok _ => .ok { e with
      committed := e.committed ++ [(e.batch_index,e.batch)]
      batch := []
      batch_index := satAdd32 e.batch_index 1 }

def pushFact (e : ChunkEmitter) (w : Window) (byte_start byte_end : Nat) (hasher : ContentHasher) :
    Except (ChunkStop × ChunkEmitter) ChunkEmitter :=
  if hasher.isEmpty then .ok e
  else if chunkCountMax ≤ e.total then
    .error (.refused (.limitExceeded "chunk count" (satAdd64 e.total 1) chunkCountMax),e)
  else
    let content_hash := hasher.finalize R.blake3
    let e := { e with
      batch := e.batch ++ [{
        chunk_id := deriveChunkId R.blake3 R.evidence_id R.params.kind byte_start content_hash
        ordinal := e.ordinal
        kind := R.params.kind
        byte_start := byte_start
        byte_end := byte_end
        locator := w.locator.getD (.lineRange 1 1)
        content_hash := content_hash
        token_count_estimate :=
          min ((hasher.content_byte_count+(tokenBytesEstimate-1))/tokenBytesEstimate) u32Max }]
      ordinal := satAdd32 e.ordinal 1
      total := e.total+1 }
    if chunkBatchCountMax ≤ e.batch.length then R.flush e else .ok e

def skipTo (offset : Nat) : Nat → Nat → BoundedStream → Except StreamError (Nat × BoundedStream)
  | 0, text_offset, s => .ok (text_offset,s)
  | rounds+1, text_offset, s =>
    if offset ≤ text_offset then .ok (text_offset,s)
    else
      match s.window (min (offset-text_offset) R.params.bytesMax) with
      | .error error => .error error
      | .ok (window,s) =>
        if window.length = 0 then .ok (text_offset,s)
        else skipTo offset rounds (text_offset+window.length) (s.advance window.length)

def emitLoop (w : Window) : Nat → Nat → Nat → ChunkEmitter → BoundedStream →
    Except (ChunkStop × ChunkEmitter) (ChunkEmitter × BoundedStream)
  | 0, _, _, e, s => .ok (e,s)
  | rounds+1, remaining, split_start, e, s =>
    if remaining = 0 then .ok (e,s)
    else
      match s.window (min remaining R.params.bytesMax) with
      | .error error => .error (.refused error,e)
      | .ok (window,s) =>
        let consumed := min window.length (min remaining R.params.bytesMax)
        let e := { e with text_offset := e.text_offset+consumed }
        if consumed = 0 then
          .error (.refused (.limitExceeded "segment span beyond the normalized text" w.byte_end
            e.text_offset),e)
        else
          match R.pushFact e w split_start (split_start+consumed)
              (ContentHasher.new.update (window.take consumed)) with
          | .error stop => .error stop
          | .ok e =>
            emitLoop w rounds (remaining-consumed) (split_start+consumed) e (s.advance consumed)

def emit (e : ChunkEmitter) (w : Window) (s : BoundedStream) :
    Except (ChunkStop × ChunkEmitter) (ChunkEmitter × BoundedStream) :=
  if w.isEmpty then .ok (e,s)
  else
    match R.skipTo w.byte_start (w.byte_start-e.text_offset) e.text_offset s with
    | .error error => .error (.refused error,e)
    | .ok (text_offset,s) =>
      R.emitLoop w w.byteLen w.byteLen w.byte_start { e with text_offset := text_offset } s

def chunkLoop : Window → ChunkEmitter → BoundedStream → List (Except StreamError Segment) →
    Except (ChunkStop × ChunkEmitter) (ChunkEmitter × BoundedStream)
  | w, e, s, [] => R.emit e w s
  | _, e, _, .error error :: _ => .error (.refused error,e)
  | w, e, s, .ok segment :: index =>
    match if w.wouldClose segment R.params then R.emit e w s else .ok (e,s) with
    | .error stop => .error stop
    | .ok (e,s) =>
      let w := (if w.wouldClose segment R.params then Window.empty else w).push segment
      if R.params.boundary = .perSegment ∨ w.exceedsMax R.params then
        match R.emit e w s with
        | .error stop => .error stop
        | .ok (e,s) => chunkLoop Window.empty e s index
      else chunkLoop w e s index

structure Product where
  committed : List (Nat × List ChunkFact)
  chunk_count : Nat
  bytes_read : Nat
  item_count : Nat

def chunkEvidence (index : List (Except StreamError Segment)) (reader : Reader)
    (budget : StreamBudget) : Except (ChunkStop × ChunkEmitter) Product :=
  match R.chunkLoop .empty .new (.new reader budget) index with
  | .error stop => .error stop
  | .ok (e,s) =>
    match R.flush e with
    | .error stop => .error stop
    | .ok e => .ok ⟨e.committed,e.total,s.read_total+index.length*segmentRecordBytes,e.total⟩

end ChunkRun

/-- CHUNK over a run of the chunker: the batches it committed are appended one by one,
also those of a run that stopped. -/
def chunkStage (run : StageContext → Except (ChunkStop × ChunkEmitter) ChunkRun.Product)
    (failure : ChunkStop → StageFailure) : StageHandler where
  stage := .chunk
  run ctx :=
    let commit := fun batches : List (Nat × List ChunkFact) =>
      (batches.foldlM (fun _ b => ctx.emitChunks b.1 b.2) ()).mapError StageFailure.ofIngest
    match run ctx with
    | .error (stop,e) => (commit e.committed).bind fun _ => .throw (failure stop)
    | .ok product => (commit product.committed).bind fun _ =>
      .ret ⟨.chunked product.chunk_count,product.bytes_read,product.item_count⟩
  emits ctx := by
    have hcommit : ∀ batches : List (Nat × List ChunkFact),
        (batches.foldlM (fun _ b => ctx.emitChunks b.1 b.2) ()).Within ctx.MayTake :=
      fun batches => Prog.within_foldlM _ _ (fun _ b _ => emitChunks_within ctx b.1 b.2) _
    cases run ctx with
    | error stop => exact Prog.within_bind (Prog.within_mapError (hcommit _)) fun _ => trivial
    | ok product => exact Prog.within_bind (Prog.within_mapError (hcommit _)) fun _ => trivial
  yields ctx := by
    cases run ctx with
    | error stop => exact Prog.yields_bind (Prog.yields_any _) fun _ _ => trivial
    | ok product =>
      exact Prog.yields_bind (Prog.yields_any _) fun _ _ => by simp [Prog.Yields,reportsChunks]

end ProjectOS.Ingest
