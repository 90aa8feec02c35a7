import ProjectOS.Sched.Admission
import ProjectOS.Ingest.Identity
import ProjectOS.Ingest.Embed

/-! The pipeline: submission, stage execution, reprocess, and the plan that
connects them. A stage's own work is a program of its handler. -/

namespace ProjectOS.Ingest
open Lib Domain Lib.Prog
open Sched (ClaimedJob JobKind JobSpec JobQueue SchedError idBytes jobKindValid
  deriveJobId enqueuedEvent)

def stageRetryCountMax : Nat := 4
def stagePayloadBytes : Nat := 20

def stageIdempotencyKey (evidence_id : EvidenceId) (stage : IngestStage) (pass : Nat) : String :=
  evidence_id.toHex ++ ":" ++ stage.asStr ++ ":" ++ toString pass

def leBytes32 (n : Nat) : Bytes := (List.range 4).map fun j => UInt8.ofNat (n / 2^(8*j))

def ofBeBytes (bytes : Bytes) : Nat := bytes.foldl (fun n b => 256*n+b.toNat) 0

def ofLeBytes (bytes : Bytes) : Nat := ofBeBytes bytes.reverse

def encodeStagePayload (evidence_id : EvidenceId) (pass : Nat) : Bytes :=
  idBytes evidence_id ++ leBytes32 pass

def decodeStagePayload (payload : Bytes) : Option (EvidenceId × Nat) :=
  if payload.length ≠ stagePayloadBytes then none
  else some (⟨BitVec.ofNat 128 (ofBeBytes (payload.take 16))⟩,ofLeBytes (payload.drop 16))

def chunkBatchCountMax : Nat := eventRefsCountMax-1

def StageContext.emitChunks (ctx : StageContext) (batch_index : Nat) (chunks : List ChunkFact) :
    ContextProg Unit :=
  if chunkBatchCountMax < chunks.length then
    .throw (.limitExceeded "chunk batch" chunks.length chunkBatchCountMax)
  else if chunks = [] then .ret ()
  else
    .act (.append [.ingest (.evidenceChunked
      { evidence_id := ctx.evidence.evidence_id, pass := ctx.pass, batch_index := batch_index,
        chunks := chunks })]) (fun r => .ofExcept (r.mapError .log))

def StageContext.Emits (ctx : StageContext) : Fact → Prop
  | .ingest (.evidenceTranscribed body) =>
    body.evidence_id = ctx.evidence.evidence_id ∧ body.pass = ctx.pass
  | .ingest (.evidenceChunked body) =>
    body.evidence_id = ctx.evidence.evidence_id ∧ body.pass = ctx.pass
  | .ingest (.evidenceEmbedded body) =>
    body.evidence_id = ctx.evidence.evidence_id ∧ body.pass = ctx.pass
  | _ => False

def StageContext.MayTake (ctx : StageContext) : IngestAct → Prop
  | .append facts => ∀ fact ∈ facts, ctx.Emits fact
  | _ => True

def reportsChunks : IngestStageOutput → Bool
  | .chunked _ => true
  | _ => false

/-- A stage's implementation: it records its own output only, and CHUNK alone
reports a chunk count. -/
structure StageHandler where
  stage : IngestStage
  run : StageContext → IngestProg StageProduct
  emits : ∀ ctx, (run ctx).Within ctx.MayTake
  yields : ∀ ctx, (run ctx).Yields fun product =>
    (reportsChunks product.output = true ↔ stage = .chunk)

theorem emitChunks_within (ctx : StageContext) (batch_index : Nat) (chunks : List ChunkFact) :
    (ctx.emitChunks batch_index chunks).Within ctx.MayTake := by
  rw [StageContext.emitChunks]
  split_ifs
  · trivial
  · trivial
  · refine ⟨?_,fun _ => within_ofExcept _⟩
    intro fact hfact
    obtain rfl := List.mem_singleton.mp hfact
    exact ⟨rfl,rfl⟩

namespace EmbedCall
variable {c : EmbedCall}

theorem emit_within (batch_index : Nat) (vectors_blob : Digest) (facts : List ChunkEmbeddingFact) :
    (c.emit batch_index vectors_blob facts).Within c.context.MayTake := by
  rw [emit,StageContext.emitEmbeddings]
  refine within_mapError ?_
  split_ifs
  · trivial
  · trivial
  · refine ⟨?_,fun _ => within_ofExcept _⟩
    intro fact hfact
    obtain rfl := List.mem_singleton.mp hfact
    exact ⟨rfl,rfl⟩

theorem flush_within (b : Batcher) : (c.flush b).Within c.context.MayTake := by
  rw [flush]
  split_ifs
  · trivial
  · refine ⟨trivial,fun r => ?_⟩
    cases r with
    | error weather => trivial
    | ok batch =>
      dsimp only
      split_ifs
      · trivial
      · refine ⟨trivial,fun r => ?_⟩
        cases r with
        | error failure => trivial
        | ok vectors_blob => exact within_bind (emit_within _ _ _) fun _ => trivial

theorem chunkText_within (chunk : ChunkRecord) :
    (c.chunkText chunk).Within c.context.MayTake := by
  refine within_mapError ?_
  rw [StageContext.readTextRange]
  split_ifs
  · trivial
  · cases c.context.evidence.text_blob with
    | none => trivial
    | some hash => exact ⟨trivial,fun _ => within_ofExcept _⟩

theorem takeChunk_within (done : List ChunkId) (b : Batcher) (chunk : ChunkRecord) :
    (c.takeChunk done b chunk).Within c.context.MayTake := by
  rw [takeChunk]
  split_ifs
  · trivial
  · refine within_bind (chunkText_within chunk) fun text => ⟨trivial,fun r => ?_⟩
    cases r with
    | error fault => trivial
    | ok found =>
      dsimp only
      split_ifs
      · rw [commitReused]
        split
        · trivial
        · exact within_bind (emit_within _ _ _) fun _ => trivial
      · rw [enter]
        refine within_bind ?_ fun _ => trivial
        split_ifs
        · exact within_bind (flush_within _) fun _ => trivial
        · trivial

theorem embedItem_within : c.embedItem.Within c.context.MayTake := by
  rw [embedItem]
  split_ifs
  · trivial
  · refine within_bind ⟨trivial,fun r => by cases r <;> trivial⟩ fun chunks => ?_
    split_ifs
    · trivial
    · refine within_bind ⟨trivial,fun r => by cases r <;> trivial⟩ fun done => ?_
      exact within_bind
        (within_foldlM _ _ (fun b chunk _ => takeChunk_within done b chunk) _)
        fun b => within_bind (flush_within b) fun _ => trivial

theorem embedItem_yields :
    c.embedItem.Yields fun product => (reportsChunks product.output = true ↔
      IngestStage.embed = .chunk) := by
  rw [embedItem]
  split_ifs
  · trivial
  · refine yields_bind (yields_any _) fun chunks _ => ?_
    split_ifs
    · simp [Prog.Yields,reportsChunks]
    · refine yields_bind (yields_any _) fun done _ => ?_
      refine yields_bind (yields_any _) fun b _ => ?_
      exact yields_bind (yields_any _) fun _ _ => by simp [Prog.Yields,reportsChunks]

end EmbedCall

def embedStage (setup : EmbedSetup) (dim : Nat) : StageHandler where
  stage := .embed
  run ctx := EmbedCall.embedItem ⟨ctx,setup,dim⟩
  emits ctx := EmbedCall.embedItem_within (c := ⟨ctx,setup,dim⟩)
  yields _ := EmbedCall.embedItem_yields

structure StageRegistry where
  handlers : List StageHandler

namespace StageRegistry

def new : StageRegistry := ⟨[]⟩

def with_ (r : StageRegistry) (handler : StageHandler) : StageRegistry :=
  ⟨handler :: r.handlers.filter fun h => h.stage ≠ handler.stage⟩

def get (r : StageRegistry) (stage : IngestStage) : Option StageHandler :=
  r.handlers.find? fun h => h.stage = stage

def contains (r : StageRegistry) (stage : IngestStage) : Bool := (r.get stage).isSome

theorem get_stage {r : StageRegistry} {stage : IngestStage} {handler : StageHandler}
    (h : r.get stage = some handler) : handler.stage = stage := by
  simpa using List.find?_some h

end StageRegistry

structure EvidenceSubmission where
  source_kind : String
  source_scope : String
  external : ExternalRef
  media_kind : MediaKind
  shape : EvidenceShape
  occurred_ts_ms : Nat
  author : Option String
  title : Option String
  thread_ref : Option String

inductive SubmitOutcome where
  | added (evidence_id : EvidenceId)
  | duplicate (evidence_id : EvidenceId)
  deriving DecidableEq

inductive StageOutcome where
  | advanced (next : IngestStage)
  | halted (next : Option IngestStage)
  deriving DecidableEq

def resolveExternalRef (external : ExternalRef) (hash : Digest) : ExternalRef :=
  if external.external_id = "" then { external with external_id := digestHex hash } else external

structure StageAttempt where
  stage : IngestStage
  job : ClaimedJob
  evidence : EvidenceRecord
  pass : Nat

structure ReprocessRequest where
  evidence_id : Option EvidenceId
  from_stage : IngestStage
  item_count_max : Nat

structure ReprocessPlan where
  requeued : List (EvidenceId × Nat)
  skipped_not_reached : Nat
  item_count_max : Nat
  deriving DecidableEq

def reached (status : EvidenceStatus) (from_stage : IngestStage) : Bool :=
  if status = .failed then true
  else
    match IngestStage.all.find? fun stage => EvidenceStatus.after stage = status with
    | some completed => from_stage.rank ≤ completed.rank+1
    | none => false

structure IngestPipeline where
  queue : JobQueue
  stage_retry_count_max : Nat
  stages : StageRegistry

namespace IngestPipeline
variable (p : IngestPipeline) (project_id : ProjectId)

def stageJobSpec (evidence_id : EvidenceId) (stage : IngestStage) (pass : Nat) :
    Except IngestError JobSpec :=
  match stage.jobKind with
  | none => .error (.stageNotReprocessable stage)
  | some kind =>
    if h : jobKindValid kind = true then
      .ok
        { kind := ⟨kind,h⟩, idempotency_key := stageIdempotencyKey evidence_id stage pass,
          priority := .normal, class_ := .ingest, payload := encodeStagePayload evidence_id pass,
          run_at_ts_ms := 0, retry_count_max := p.stage_retry_count_max, cron := none }
    else
      .error (.sched (.invalidSpec "kind"
        s!"invalid job kind {kind.quote}: 1..=64 bytes of ASCII alphanumerics, '.', '-', or '_'"))

def enqueueRequest (spec : JobSpec) : ContextProg (List Fact) :=
  match spec.validate with
  | .error e => .throw (.sched e)
  | .ok () =>
    let job_id := deriveJobId p.queue project_id spec.kind spec.idempotency_key
    .act (.readJob job_id) fun
    | .error fault => .throw (.sched (.store fault))
    | .ok (some _) => .ret []
    | .ok none => .ret [.job (enqueuedEvent job_id project_id spec)]

def stageJob (evidence_id : EvidenceId) (stage : IngestStage) (pass : Nat) :
    ContextProg (List Fact) :=
  (Prog.ofExcept (p.stageJobSpec evidence_id stage pass)).bind (p.enqueueRequest project_id)

def registered (next : Option IngestStage) : Option IngestStage :=
  next.filter fun stage => p.stages.contains stage

def stageJobRequest (evidence_id : EvidenceId) (next : Option IngestStage) (pass : Nat) :
    ContextProg (Option (List Fact)) :=
  match p.registered next with
  | none => .ret none
  | some stage => (p.stageJob project_id evidence_id stage pass).bind fun facts => .ret (some facts)

def appendBatch (facts : List Fact) : ContextProg Unit :=
  .act (.append facts) fun r => .ofExcept (r.mapError .log)

def submit (submission : EvidenceSubmission) (stored : Except IngestError (Digest × Nat)) :
    ContextProg SubmitOutcome :=
  (Prog.ofExcept stored).bind fun (hash,byte_size) =>
    let source_id := deriveSourceId p.queue.blake3 submission.source_kind submission.source_scope
    let external := resolveExternalRef submission.external hash
    let evidence_id := deriveEvidenceId p.queue.blake3 source_id external.external_id
    .act (.readEvidence evidence_id) fun
    | .error fault => .throw (.read fault)
    | .ok (some _) => .ret (.duplicate evidence_id)
    | .ok none =>
      (p.stageJobRequest project_id evidence_id (IngestStage.raw.nextFor submission.media_kind)
        0).bind fun queued =>
        (appendBatch (.ingest (.evidenceAdded
          { evidence_id := evidence_id, source_id := source_id,
            source_kind := submission.source_kind, external := external,
            media_kind := submission.media_kind, shape := submission.shape, content_blob := hash,
            byte_size := byte_size, occurred_ts_ms := submission.occurred_ts_ms,
            author := submission.author, title := submission.title,
            thread_ref := submission.thread_ref }) :: queued.getD [])).bind fun _ =>
          .ret (.added evidence_id)

def loadForStage (evidence_id : EvidenceId) (stage : IngestStage) (pass : Nat) :
    ContextProg EvidenceRecord :=
  .act (.readEvidence evidence_id) fun
  | .error fault => .throw (.read fault)
  | .ok none => .throw (.unknownEvidence evidence_id.toHex)
  | .ok (some record) =>
    if record.pass ≠ pass then .throw (.stalePass stage pass record.pass) else .ret record

def startedFact (attempt : StageAttempt) : Fact := .ingest (.stageStarted
  { evidence_id := attempt.evidence.evidence_id, source_id := attempt.evidence.source_id,
    stage := attempt.stage, pass := attempt.pass, job_id := attempt.job.job_id,
    attempt_index := attempt.job.attempt_index })

def finishedFact (attempt : StageAttempt) (product : StageProduct) (wall_ms : Nat) : Fact :=
  .ingest (.stageFinished
    { evidence_id := attempt.evidence.evidence_id, source_id := attempt.evidence.source_id,
      stage := attempt.stage, pass := attempt.pass, wall_ms := wall_ms,
      bytes_read := product.bytes_read, item_count := product.item_count,
      output := product.output })

def commitFinished (attempt : StageAttempt) (product : StageProduct) (wall_ms : Nat) :
    ContextProg StageOutcome :=
  let next := attempt.stage.nextFor attempt.evidence.media_kind
  (p.stageJobRequest project_id attempt.evidence.evidence_id next attempt.pass).bind fun queued =>
    (appendBatch (finishedFact attempt product wall_ms :: queued.getD [])).bind fun _ =>
      .ret (match queued.isSome,next with
        | true, some next => .advanced next
        | _, next => .halted next)

def disposition (attempt : StageAttempt) (failure : StageFailure) : IngestStageDisposition :=
  if failure.permanent ∨ attempt.job.retry_count_max ≤ attempt.job.attempt_index then
    .dead failure.permanent
  else .retrying attempt.job.retry_count_max

def failedFact (attempt : StageAttempt) (failure : StageFailure) : Fact := .ingest (.stageFailed
  { evidence_id := attempt.evidence.evidence_id, source_id := attempt.evidence.source_id,
    stage := attempt.stage, pass := attempt.pass, attempt_index := attempt.job.attempt_index,
    code := failure.code, detail := failure.detail, disposition := disposition attempt failure })

def commitFailed (attempt : StageAttempt) (failure : StageFailure) : ContextProg Unit :=
  appendBatch [failedFact attempt failure]

def settle (attempt : StageAttempt) (started_ts_ms : Nat) :
    Except StageFailure StageProduct → IngestProg StageOutcome
  | .ok product => .act .now fun now_ms =>
    (p.commitFinished project_id attempt product (now_ms-started_ts_ms)).mapError
      StageFailure.ofIngest
  | .error failure =>
    ((commitFailed attempt failure).mapError StageFailure.ofIngest).bind fun _ => .throw failure

def runStageInner (attempt : StageAttempt) : IngestProg StageOutcome :=
  match p.stages.get attempt.stage with
  | none => .throw (.refusal "stage_not_registered"
      s!"stage {attempt.stage.asStr} is implemented by {attempt.stage.ownerStory}")
  | some handler =>
    ((appendBatch [startedFact attempt]).mapError StageFailure.ofIngest).bind fun _ =>
      .act .now fun started_ts_ms =>
        (handler.run ⟨attempt.evidence,attempt.stage,attempt.pass⟩).attempt.bind
          (p.settle project_id attempt started_ts_ms)

def runStage (stage : IngestStage) (job : ClaimedJob) : IngestProg StageOutcome :=
  match decodeStagePayload job.payload with
  | none => .throw (.refusal "malformed_payload"
      "a stage job payload is 16 evidence-id bytes and a 4-byte pass")
  | some (evidence_id,pass) =>
    ((loadForStage evidence_id stage pass).mapError StageFailure.ofIngest).bind fun evidence =>
      p.runStageInner project_id ⟨stage,job,evidence,pass⟩

def reprocessTargets (request : ReprocessRequest) :
    ContextProg (List (EvidenceId × Nat × EvidenceStatus)) :=
  match request.evidence_id with
  | some evidence_id => .act (.readEvidence evidence_id) fun
    | .error fault => .throw (.read fault)
    | .ok none => .throw (.unknownEvidence evidence_id.toHex)
    | .ok (some record) => .ret [(record.evidence_id,record.pass,record.status)]
  | none => .act (.listEvidence request.item_count_max) fun
    | .error fault => .throw (.read fault)
    | .ok records => .ret (records.map fun r => (r.evidence_id,r.pass,r.status))

def reprocessOne (from_stage : IngestStage) (reason : String) (plan : ReprocessPlan)
    (target : EvidenceId × Nat × EvidenceStatus) : ContextProg ReprocessPlan :=
  if reached target.2.2 from_stage then
    let pass := satAdd32 target.2.1 1
    (p.stageJob project_id target.1 from_stage pass).bind fun queued =>
      (appendBatch (.ingest (.reprocessRequested
        { evidence_id := target.1, from_stage := from_stage, pass := pass, reason := reason }) ::
          queued)).bind fun _ =>
        .ret { plan with requeued := plan.requeued ++ [(target.1,pass)] }
  else .ret { plan with skipped_not_reached := plan.skipped_not_reached+1 }

def reprocess (request : ReprocessRequest) (reason : String) : ContextProg ReprocessPlan :=
  if request.from_stage = .raw then .throw (.stageNotReprocessable .raw)
  else
    (reprocessTargets request).bind fun targets =>
      targets.foldlM (p.reprocessOne project_id request.from_stage reason)
        ⟨[],0,request.item_count_max⟩

end IngestPipeline
end ProjectOS.Ingest
