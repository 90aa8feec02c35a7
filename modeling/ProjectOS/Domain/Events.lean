import ProjectOS.Domain.Jobs
import ProjectOS.Domain.Runs
import ProjectOS.Domain.Ingest
import ProjectOS.Log.Events

/-! The event vocabulary: one kind tag, one body type and one decoder arm for
each kind. A body type has one constructor for each version of the body. -/

namespace ProjectOS.Domain
open Log

deriving instance Inhabited for Id, RunOutcome, RunRuntimeKind, RunRuntimeRef, RunExecutor,
  RunTrigger, RunUsage, RunStepPhase, RunValidationStatus, RunBudgetDimension, RunPauseCause,
  RunStartedV2, JobPriority, JobClass, CronOverlapPolicy, JobDeadReason, JobEnqueuedV2,
  CronRegisteredV1, MediaKind, EvidenceShape, IngestStage, ExternalRef, EvidenceAdded,
  IngestStageStarted, IngestStageOutput, IngestStageFinished, IngestStageDisposition,
  IngestStageFailed, EvidenceTranscribed, EvidenceChunked, EvidenceEmbedded,
  EvidenceReprocessRequested

inductive ProjectCreatedBody where
  | v1 (project_id : ProjectId) (name template : String)
  deriving Inhabited

inductive ProjectRenamedBody where
  | v1 (project_id : ProjectId) (name : String)
  deriving Inhabited

inductive RunStartedBody where
  | v1 (run_id : RunId) (worker trigger : String)
  | v2 (body : RunStartedV2)
  deriving Inhabited

inductive RunStepCommittedBody where
  | v1 (run_id : RunId) (step_index : UInt32) (summary : String)
  | v2 (run_id : RunId) (step_index : UInt32) (phase : RunStepPhase) (summary : String)
      (digest : Digest) (tool_call : Option RunToolCall) (reserved : RunUsage)
  deriving Inhabited

inductive RunFinishedBody where
  | v1 (run_id : RunId) (outcome : RunOutcome) (steps_total : UInt32)
  | v2 (run_id : RunId) (outcome : RunOutcome) (steps_total : UInt32) (spent : RunUsage)
      (validation : Option RunValidationRef)
  deriving Inhabited

inductive RunToolEffectRecordedBody where
  | v1 (run_id : RunId) (step_index : UInt32) (call_id : ToolCallId) (idempotency_key : String)
      (output_digest : Digest) (spent : RunUsage)
  deriving Inhabited

inductive RunCheckpointSavedBody where
  | v1 (run_id : RunId) (step_index : UInt32) (checkpoint_id : CheckpointId)
      (state_digest : Digest)
  deriving Inhabited

inductive RunArtifactRecordedBody where
  | v1 (run_id : RunId) (step_index : UInt32) (artifact_id : ArtifactId) (content_hash : Digest)
      (media_type : String) (size_bytes : UInt64)
  deriving Inhabited

inductive RunValidationRecordedBody where
  | v1 (run_id : RunId) (step_index : UInt32) (validation_id : ValidationId)
      (status : RunValidationStatus) (summary : String)
  deriving Inhabited

inductive RunPauseRequestedBody where
  | v1 (run_id : RunId) (reason : String)
  deriving Inhabited

inductive RunPausedBody where
  | v1 (run_id : RunId) (at_step_index : UInt32) (cause : RunPauseCause) (spent : RunUsage)
  deriving Inhabited

inductive RunResumedBody where
  | v1 (run_id : RunId) (at_step_index : UInt32)
  deriving Inhabited

inductive RunCancelRequestedBody where
  | v1 (run_id : RunId) (reason : String)
  deriving Inhabited

inductive RunCanceledBody where
  | v1 (run_id : RunId) (at_step_index : UInt32)
  deriving Inhabited, DecidableEq

inductive RunTaintRaisedBody where
  | v1 (run_id : RunId) (source : String)
  deriving Inhabited

inductive RunQuestionAskedBody where
  | v1 (run_id : RunId) (question_id : QuestionId) (prompt : String)
  deriving Inhabited

inductive RunQuestionAnsweredBody where
  | v1 (run_id : RunId) (question_id : QuestionId) (answered_by : UserId) (answer : String)
  deriving Inhabited

inductive RunGateApprovedBody where
  | v1 (run_id : RunId) (receipt_id : ReceiptId) (call_id : ToolCallId) (approved_by : UserId)
      (reason : String) (expires_ts_ms : UInt64)
  deriving Inhabited

inductive JobEnqueuedBody where
  | v1 (job_id : JobId) (job_kind : String)
  | v2 (body : JobEnqueuedV2)
  deriving Inhabited

inductive JobCompletedBody where
  | v1 (job_id : JobId) (attempts : UInt32)
  | v2 (job_id : JobId) (attempt_count : UInt32) (wall_ms : UInt64)
  deriving Inhabited

inductive JobAttemptFailedBody where
  | v1 (job_id : JobId) (attempt_index : UInt32) (error_code error_detail : String)
      (retry_at_ts_ms : UInt64)
  deriving Inhabited

inductive JobDeadBody where
  | v1 (job_id : JobId) (attempt_count : UInt32) (reason : JobDeadReason)
  deriving Inhabited

inductive CronRegisteredBody where
  | v1 (body : CronRegisteredV1)
  deriving Inhabited

inductive CronEnablementSetBody where
  | v1 (cron_id : CronId) (enabled : Bool)
  deriving Inhabited

inductive AccountAuditedBody where
  | v1 (account_id : AccountId) (action target : String)
  deriving Inhabited

inductive ModelCallCompletedBody where
  | v1 (project_id : ProjectId) (feature : String) (agent : Option String)
      (provider credential_class model : String) (tokens_in tokens_out wall_ms : UInt64)
      (provider_cost_kind : String) (usd_micros : UInt64) (outcome : String)
  deriving Inhabited

inductive EvidenceAddedBody where
  | v1 (body : EvidenceAdded)
  deriving Inhabited

inductive IngestStageStartedBody where
  | v1 (body : IngestStageStarted)
  deriving Inhabited

inductive IngestStageFinishedBody where
  | v1 (body : IngestStageFinished)
  deriving Inhabited

inductive IngestStageFailedBody where
  | v1 (body : IngestStageFailed)
  deriving Inhabited

inductive EvidenceChunkedBody where
  | v1 (body : EvidenceChunked)
  deriving Inhabited

inductive EvidenceEmbeddedBody where
  | v1 (body : EvidenceEmbedded)
  deriving Inhabited

inductive EvidenceReprocessRequestedBody where
  | v1 (body : EvidenceReprocessRequested)
  deriving Inhabited

inductive EvidenceTranscribedBody where
  | v1 (body : EvidenceTranscribed)
  deriving Inhabited

inductive TranscriptSpeakerNamedBody where
  | v1 (evidence_id : EvidenceId) (speaker_index : UInt32) (name : String)
  deriving Inhabited

inductive TranscriptSegmentSpeakerSetBody where
  | v1 (evidence_id : EvidenceId) (pass segment_index speaker_index : UInt32)
  deriving Inhabited

inductive TranscriptTextCorrectedBody where
  | v1 (evidence_id : EvidenceId) (pass segment_index : UInt32) (text : String)
  deriving Inhabited

inductive DomainEvent where
  | projectCreated (inner : ProjectCreatedBody)
  | projectRenamed (inner : ProjectRenamedBody)
  | runStarted (inner : RunStartedBody)
  | runStepCommitted (inner : RunStepCommittedBody)
  | runToolEffectRecorded (inner : RunToolEffectRecordedBody)
  | runCheckpointSaved (inner : RunCheckpointSavedBody)
  | runArtifactRecorded (inner : RunArtifactRecordedBody)
  | runValidationRecorded (inner : RunValidationRecordedBody)
  | runPauseRequested (inner : RunPauseRequestedBody)
  | runPaused (inner : RunPausedBody)
  | runResumed (inner : RunResumedBody)
  | runCancelRequested (inner : RunCancelRequestedBody)
  | runCanceled (inner : RunCanceledBody)
  | runTaintRaised (inner : RunTaintRaisedBody)
  | runQuestionAsked (inner : RunQuestionAskedBody)
  | runQuestionAnswered (inner : RunQuestionAnsweredBody)
  | runGateApproved (inner : RunGateApprovedBody)
  | runFinished (inner : RunFinishedBody)
  | jobEnqueued (inner : JobEnqueuedBody)
  | jobAttemptFailed (inner : JobAttemptFailedBody)
  | jobCompleted (inner : JobCompletedBody)
  | jobDead (inner : JobDeadBody)
  | cronRegistered (inner : CronRegisteredBody)
  | cronEnablementSet (inner : CronEnablementSetBody)
  | accountAudited (inner : AccountAuditedBody)
  | modelCallCompleted (inner : ModelCallCompletedBody)
  | evidenceAdded (inner : EvidenceAddedBody)
  | ingestStageStarted (inner : IngestStageStartedBody)
  | ingestStageFinished (inner : IngestStageFinishedBody)
  | ingestStageFailed (inner : IngestStageFailedBody)
  | evidenceChunked (inner : EvidenceChunkedBody)
  | evidenceEmbedded (inner : EvidenceEmbeddedBody)
  | evidenceReprocessRequested (inner : EvidenceReprocessRequestedBody)
  | evidenceTranscribed (inner : EvidenceTranscribedBody)
  | transcriptSpeakerNamed (inner : TranscriptSpeakerNamedBody)
  | transcriptSegmentSpeakerSet (inner : TranscriptSegmentSpeakerSetBody)
  | transcriptTextCorrected (inner : TranscriptTextCorrectedBody)

inductive EventKind where
  | projectCreated | projectRenamed | runStarted | runStepCommitted | runToolEffectRecorded
  | runCheckpointSaved | runArtifactRecorded | runValidationRecorded | runPauseRequested
  | runPaused | runResumed | runCancelRequested | runCanceled | runTaintRaised | runQuestionAsked
  | runQuestionAnswered | runGateApproved | runFinished | jobEnqueued | jobAttemptFailed
  | jobCompleted | jobDead | cronRegistered | cronEnablementSet | accountAudited
  | modelCallCompleted | evidenceAdded | ingestStageStarted | ingestStageFinished
  | ingestStageFailed | evidenceChunked | evidenceEmbedded | evidenceReprocessRequested
  | evidenceTranscribed | transcriptSpeakerNamed | transcriptSegmentSpeakerSet
  | transcriptTextCorrected

abbrev EventKind.Body : EventKind → Type
  | .projectCreated => ProjectCreatedBody
  | .projectRenamed => ProjectRenamedBody
  | .runStarted => RunStartedBody
  | .runStepCommitted => RunStepCommittedBody
  | .runToolEffectRecorded => RunToolEffectRecordedBody
  | .runCheckpointSaved => RunCheckpointSavedBody
  | .runArtifactRecorded => RunArtifactRecordedBody
  | .runValidationRecorded => RunValidationRecordedBody
  | .runPauseRequested => RunPauseRequestedBody
  | .runPaused => RunPausedBody
  | .runResumed => RunResumedBody
  | .runCancelRequested => RunCancelRequestedBody
  | .runCanceled => RunCanceledBody
  | .runTaintRaised => RunTaintRaisedBody
  | .runQuestionAsked => RunQuestionAskedBody
  | .runQuestionAnswered => RunQuestionAnsweredBody
  | .runGateApproved => RunGateApprovedBody
  | .runFinished => RunFinishedBody
  | .jobEnqueued => JobEnqueuedBody
  | .jobAttemptFailed => JobAttemptFailedBody
  | .jobCompleted => JobCompletedBody
  | .jobDead => JobDeadBody
  | .cronRegistered => CronRegisteredBody
  | .cronEnablementSet => CronEnablementSetBody
  | .accountAudited => AccountAuditedBody
  | .modelCallCompleted => ModelCallCompletedBody
  | .evidenceAdded => EvidenceAddedBody
  | .ingestStageStarted => IngestStageStartedBody
  | .ingestStageFinished => IngestStageFinishedBody
  | .ingestStageFailed => IngestStageFailedBody
  | .evidenceChunked => EvidenceChunkedBody
  | .evidenceEmbedded => EvidenceEmbeddedBody
  | .evidenceReprocessRequested => EvidenceReprocessRequestedBody
  | .evidenceTranscribed => EvidenceTranscribedBody
  | .transcriptSpeakerNamed => TranscriptSpeakerNamedBody
  | .transcriptSegmentSpeakerSet => TranscriptSegmentSpeakerSetBody
  | .transcriptTextCorrected => TranscriptTextCorrectedBody

def DomainEvent.kind : DomainEvent → EventKind
  | .projectCreated _ => .projectCreated
  | .projectRenamed _ => .projectRenamed
  | .runStarted _ => .runStarted
  | .runStepCommitted _ => .runStepCommitted
  | .runToolEffectRecorded _ => .runToolEffectRecorded
  | .runCheckpointSaved _ => .runCheckpointSaved
  | .runArtifactRecorded _ => .runArtifactRecorded
  | .runValidationRecorded _ => .runValidationRecorded
  | .runPauseRequested _ => .runPauseRequested
  | .runPaused _ => .runPaused
  | .runResumed _ => .runResumed
  | .runCancelRequested _ => .runCancelRequested
  | .runCanceled _ => .runCanceled
  | .runTaintRaised _ => .runTaintRaised
  | .runQuestionAsked _ => .runQuestionAsked
  | .runQuestionAnswered _ => .runQuestionAnswered
  | .runGateApproved _ => .runGateApproved
  | .runFinished _ => .runFinished
  | .jobEnqueued _ => .jobEnqueued
  | .jobAttemptFailed _ => .jobAttemptFailed
  | .jobCompleted _ => .jobCompleted
  | .jobDead _ => .jobDead
  | .cronRegistered _ => .cronRegistered
  | .cronEnablementSet _ => .cronEnablementSet
  | .accountAudited _ => .accountAudited
  | .modelCallCompleted _ => .modelCallCompleted
  | .evidenceAdded _ => .evidenceAdded
  | .ingestStageStarted _ => .ingestStageStarted
  | .ingestStageFinished _ => .ingestStageFinished
  | .ingestStageFailed _ => .ingestStageFailed
  | .evidenceChunked _ => .evidenceChunked
  | .evidenceEmbedded _ => .evidenceEmbedded
  | .evidenceReprocessRequested _ => .evidenceReprocessRequested
  | .evidenceTranscribed _ => .evidenceTranscribed
  | .transcriptSpeakerNamed _ => .transcriptSpeakerNamed
  | .transcriptSegmentSpeakerSet _ => .transcriptSegmentSpeakerSet
  | .transcriptTextCorrected _ => .transcriptTextCorrected

def DomainEvent.inner : (e : DomainEvent) → e.kind.Body
  | .projectCreated inner
  | .projectRenamed inner
  | .runStarted inner
  | .runStepCommitted inner
  | .runToolEffectRecorded inner
  | .runCheckpointSaved inner
  | .runArtifactRecorded inner
  | .runValidationRecorded inner
  | .runPauseRequested inner
  | .runPaused inner
  | .runResumed inner
  | .runCancelRequested inner
  | .runCanceled inner
  | .runTaintRaised inner
  | .runQuestionAsked inner
  | .runQuestionAnswered inner
  | .runGateApproved inner
  | .runFinished inner
  | .jobEnqueued inner
  | .jobAttemptFailed inner
  | .jobCompleted inner
  | .jobDead inner
  | .cronRegistered inner
  | .cronEnablementSet inner
  | .accountAudited inner
  | .modelCallCompleted inner
  | .evidenceAdded inner
  | .ingestStageStarted inner
  | .ingestStageFinished inner
  | .ingestStageFailed inner
  | .evidenceChunked inner
  | .evidenceEmbedded inner
  | .evidenceReprocessRequested inner
  | .evidenceTranscribed inner
  | .transcriptSpeakerNamed inner
  | .transcriptSegmentSpeakerSet inner
  | .transcriptTextCorrected inner => inner

structure Cbor where
  write : (k : EventKind) → k.Body → Bytes
  read : (k : EventKind) → Bytes → Except String k.Body

structure DomainDecodeError where
  kind : String
  reason : String
  deriving DecidableEq

def DomainEvent.kindTag : DomainEvent → String
  | .projectCreated _ => "ProjectCreated"
  | .projectRenamed _ => "ProjectRenamed"
  | .runStarted _ => "RunStarted"
  | .runStepCommitted _ => "RunStepCommitted"
  | .runToolEffectRecorded _ => "RunToolEffectRecorded"
  | .runCheckpointSaved _ => "RunCheckpointSaved"
  | .runArtifactRecorded _ => "RunArtifactRecorded"
  | .runValidationRecorded _ => "RunValidationRecorded"
  | .runPauseRequested _ => "RunPauseRequested"
  | .runPaused _ => "RunPaused"
  | .runResumed _ => "RunResumed"
  | .runCancelRequested _ => "RunCancelRequested"
  | .runCanceled _ => "RunCanceled"
  | .runTaintRaised _ => "RunTaintRaised"
  | .runQuestionAsked _ => "RunQuestionAsked"
  | .runQuestionAnswered _ => "RunQuestionAnswered"
  | .runGateApproved _ => "RunGateApproved"
  | .runFinished _ => "RunFinished"
  | .jobEnqueued _ => "JobEnqueued"
  | .jobAttemptFailed _ => "JobAttemptFailed"
  | .jobCompleted _ => "JobCompleted"
  | .jobDead _ => "JobDead"
  | .cronRegistered _ => "CronRegistered"
  | .cronEnablementSet _ => "CronEnablementSet"
  | .accountAudited _ => "AccountAudited"
  | .modelCallCompleted _ => "ModelCallCompleted"
  | .evidenceAdded _ => "EvidenceAdded"
  | .ingestStageStarted _ => "IngestStageStarted"
  | .ingestStageFinished _ => "IngestStageFinished"
  | .ingestStageFailed _ => "IngestStageFailed"
  | .evidenceChunked _ => "EvidenceChunked"
  | .evidenceEmbedded _ => "EvidenceEmbedded"
  | .evidenceReprocessRequested _ => "EvidenceReprocessRequested"
  | .evidenceTranscribed _ => "EvidenceTranscribed"
  | .transcriptSpeakerNamed _ => "TranscriptSpeakerNamed"
  | .transcriptSegmentSpeakerSet _ => "TranscriptSegmentSpeakerSet"
  | .transcriptTextCorrected _ => "TranscriptTextCorrected"

section
variable (cbor : Cbor)

def DomainEvent.encodeBody : DomainEvent → Bytes
  | .projectCreated inner => cbor.write .projectCreated inner
  | .projectRenamed inner => cbor.write .projectRenamed inner
  | .runStarted inner => cbor.write .runStarted inner
  | .runStepCommitted inner => cbor.write .runStepCommitted inner
  | .runToolEffectRecorded inner => cbor.write .runToolEffectRecorded inner
  | .runCheckpointSaved inner => cbor.write .runCheckpointSaved inner
  | .runArtifactRecorded inner => cbor.write .runArtifactRecorded inner
  | .runValidationRecorded inner => cbor.write .runValidationRecorded inner
  | .runPauseRequested inner => cbor.write .runPauseRequested inner
  | .runPaused inner => cbor.write .runPaused inner
  | .runResumed inner => cbor.write .runResumed inner
  | .runCancelRequested inner => cbor.write .runCancelRequested inner
  | .runCanceled inner => cbor.write .runCanceled inner
  | .runTaintRaised inner => cbor.write .runTaintRaised inner
  | .runQuestionAsked inner => cbor.write .runQuestionAsked inner
  | .runQuestionAnswered inner => cbor.write .runQuestionAnswered inner
  | .runGateApproved inner => cbor.write .runGateApproved inner
  | .runFinished inner => cbor.write .runFinished inner
  | .jobEnqueued inner => cbor.write .jobEnqueued inner
  | .jobAttemptFailed inner => cbor.write .jobAttemptFailed inner
  | .jobCompleted inner => cbor.write .jobCompleted inner
  | .jobDead inner => cbor.write .jobDead inner
  | .cronRegistered inner => cbor.write .cronRegistered inner
  | .cronEnablementSet inner => cbor.write .cronEnablementSet inner
  | .accountAudited inner => cbor.write .accountAudited inner
  | .modelCallCompleted inner => cbor.write .modelCallCompleted inner
  | .evidenceAdded inner => cbor.write .evidenceAdded inner
  | .ingestStageStarted inner => cbor.write .ingestStageStarted inner
  | .ingestStageFinished inner => cbor.write .ingestStageFinished inner
  | .ingestStageFailed inner => cbor.write .ingestStageFailed inner
  | .evidenceChunked inner => cbor.write .evidenceChunked inner
  | .evidenceEmbedded inner => cbor.write .evidenceEmbedded inner
  | .evidenceTranscribed inner => cbor.write .evidenceTranscribed inner
  | .transcriptSpeakerNamed inner => cbor.write .transcriptSpeakerNamed inner
  | .transcriptSegmentSpeakerSet inner => cbor.write .transcriptSegmentSpeakerSet inner
  | .transcriptTextCorrected inner => cbor.write .transcriptTextCorrected inner
  | .evidenceReprocessRequested inner => cbor.write .evidenceReprocessRequested inner

def readBody {T : Type} (kind : String) (decoded : Except String T) :
    Except DomainDecodeError T :=
  match decoded with
  | .ok inner => .ok inner
  | .error reason => .error ⟨kind,reason⟩

def DomainEvent.decode (kind : KindTag) (body : Bytes) :
    Except DomainDecodeError (Option DomainEvent) :=
  match kind.tag with
  | "ProjectCreated" =>
    (readBody "ProjectCreated" (cbor.read .projectCreated body)).map (some ∘ .projectCreated)
  | "ProjectRenamed" =>
    (readBody "ProjectRenamed" (cbor.read .projectRenamed body)).map (some ∘ .projectRenamed)
  | "RunStarted" => (readBody "RunStarted" (cbor.read .runStarted body)).map (some ∘ .runStarted)
  | "RunStepCommitted" =>
    (readBody "RunStepCommitted" (cbor.read .runStepCommitted body)).map (some ∘ .runStepCommitted)
  | "RunToolEffectRecorded" =>
    (readBody "RunToolEffectRecorded" (cbor.read .runToolEffectRecorded body)).map (some ∘ .runToolEffectRecorded)
  | "RunCheckpointSaved" =>
    (readBody "RunCheckpointSaved" (cbor.read .runCheckpointSaved body)).map (some ∘ .runCheckpointSaved)
  | "RunArtifactRecorded" =>
    (readBody "RunArtifactRecorded" (cbor.read .runArtifactRecorded body)).map (some ∘ .runArtifactRecorded)
  | "RunValidationRecorded" =>
    (readBody "RunValidationRecorded" (cbor.read .runValidationRecorded body)).map (some ∘ .runValidationRecorded)
  | "RunPauseRequested" =>
    (readBody "RunPauseRequested" (cbor.read .runPauseRequested body)).map (some ∘ .runPauseRequested)
  | "RunPaused" => (readBody "RunPaused" (cbor.read .runPaused body)).map (some ∘ .runPaused)
  | "RunResumed" => (readBody "RunResumed" (cbor.read .runResumed body)).map (some ∘ .runResumed)
  | "RunCancelRequested" =>
    (readBody "RunCancelRequested" (cbor.read .runCancelRequested body)).map (some ∘ .runCancelRequested)
  | "RunCanceled" =>
    (readBody "RunCanceled" (cbor.read .runCanceled body)).map (some ∘ .runCanceled)
  | "RunTaintRaised" =>
    (readBody "RunTaintRaised" (cbor.read .runTaintRaised body)).map (some ∘ .runTaintRaised)
  | "RunQuestionAsked" =>
    (readBody "RunQuestionAsked" (cbor.read .runQuestionAsked body)).map (some ∘ .runQuestionAsked)
  | "RunQuestionAnswered" =>
    (readBody "RunQuestionAnswered" (cbor.read .runQuestionAnswered body)).map (some ∘ .runQuestionAnswered)
  | "RunGateApproved" =>
    (readBody "RunGateApproved" (cbor.read .runGateApproved body)).map (some ∘ .runGateApproved)
  | "RunFinished" =>
    (readBody "RunFinished" (cbor.read .runFinished body)).map (some ∘ .runFinished)
  | "JobEnqueued" =>
    (readBody "JobEnqueued" (cbor.read .jobEnqueued body)).map (some ∘ .jobEnqueued)
  | "JobAttemptFailed" =>
    (readBody "JobAttemptFailed" (cbor.read .jobAttemptFailed body)).map (some ∘ .jobAttemptFailed)
  | "JobCompleted" =>
    (readBody "JobCompleted" (cbor.read .jobCompleted body)).map (some ∘ .jobCompleted)
  | "JobDead" => (readBody "JobDead" (cbor.read .jobDead body)).map (some ∘ .jobDead)
  | "CronRegistered" =>
    (readBody "CronRegistered" (cbor.read .cronRegistered body)).map (some ∘ .cronRegistered)
  | "CronEnablementSet" =>
    (readBody "CronEnablementSet" (cbor.read .cronEnablementSet body)).map (some ∘ .cronEnablementSet)
  | "AccountAudited" =>
    (readBody "AccountAudited" (cbor.read .accountAudited body)).map (some ∘ .accountAudited)
  | "ModelCallCompleted" =>
    (readBody "ModelCallCompleted" (cbor.read .modelCallCompleted body)).map (some ∘ .modelCallCompleted)
  | "EvidenceAdded" =>
    (readBody "EvidenceAdded" (cbor.read .evidenceAdded body)).map (some ∘ .evidenceAdded)
  | "IngestStageStarted" =>
    (readBody "IngestStageStarted" (cbor.read .ingestStageStarted body)).map (some ∘ .ingestStageStarted)
  | "IngestStageFinished" =>
    (readBody "IngestStageFinished" (cbor.read .ingestStageFinished body)).map (some ∘ .ingestStageFinished)
  | "IngestStageFailed" =>
    (readBody "IngestStageFailed" (cbor.read .ingestStageFailed body)).map (some ∘ .ingestStageFailed)
  | "EvidenceChunked" =>
    (readBody "EvidenceChunked" (cbor.read .evidenceChunked body)).map (some ∘ .evidenceChunked)
  | "EvidenceEmbedded" =>
    (readBody "EvidenceEmbedded" (cbor.read .evidenceEmbedded body)).map (some ∘ .evidenceEmbedded)
  | "EvidenceTranscribed" =>
    (readBody "EvidenceTranscribed" (cbor.read .evidenceTranscribed body)).map (some ∘ .evidenceTranscribed)
  | "TranscriptSpeakerNamed" =>
    (readBody "TranscriptSpeakerNamed" (cbor.read .transcriptSpeakerNamed body)).map (some ∘ .transcriptSpeakerNamed)
  | "TranscriptSegmentSpeakerSet" =>
    (readBody "TranscriptSegmentSpeakerSet" (cbor.read .transcriptSegmentSpeakerSet body)).map (some ∘ .transcriptSegmentSpeakerSet)
  | "TranscriptTextCorrected" =>
    (readBody "TranscriptTextCorrected" (cbor.read .transcriptTextCorrected body)).map (some ∘ .transcriptTextCorrected)
  | "EvidenceReprocessRequested" =>
    (readBody "EvidenceReprocessRequested" (cbor.read .evidenceReprocessRequested body)).map (some ∘ .evidenceReprocessRequested)
  | _ => .ok none

end

def Cbor.Faithful (cbor : Cbor) (e : DomainEvent) : Prop :=
  cbor.read e.kind (cbor.write e.kind e.inner) = .ok e.inner

section Tables
variable {cbor : Cbor}

theorem readBody_ok {T : Type} {kind : String} {decoded : Except String T}
    {f : T → DomainEvent} {found : Option DomainEvent}
    (h : (readBody kind decoded).map (some ∘ f) = .ok found) :
    ∃ inner, found = some (f inner) ∧ decoded = .ok inner := by
  cases decoded with
  | ok inner => exact ⟨inner,(Except.ok.inj h).symm,rfl⟩
  | error reason => cases h

variable {e : DomainEvent} {kind : KindTag}

theorem decode_encode (h : cbor.Faithful e) (hk : kind.tag = e.kindTag) :
    DomainEvent.decode cbor kind (e.encodeBody cbor) = .ok (some e) := by
  have hread : @readBody e.kind.Body e.kindTag (cbor.read e.kind (cbor.write e.kind e.inner)) =
      .ok e.inner := by rw [h]; rfl
  cases e <;> (rw [DomainEvent.decode,hk]; exact congrArg (Except.map _) hread)

theorem decode_some {body : Bytes} (h : DomainEvent.decode cbor kind body = .ok (some e)) :
    e.kindTag = kind.tag ∧ cbor.read e.kind body = .ok e.inner := by
  unfold DomainEvent.decode at h
  split at h
  all_goals first
    | (obtain ⟨inner,hfound,hread⟩ := readBody_ok h
       obtain rfl := Option.some.inj hfound
       exact ⟨Eq.symm (by assumption),hread⟩)
    | cases h

theorem readBody_ne_none {T : Type} (kind : String) (decoded : Except String T)
    (f : T → DomainEvent) : (readBody kind decoded).map (some ∘ f) ≠ .ok none := by
  cases decoded with
  | ok | error => exact fun h => by cases h

theorem decode_known (body : Bytes) (hk : kind.tag = e.kindTag) :
    DomainEvent.decode cbor kind body ≠ .ok none := by
  cases e <;> (rw [DomainEvent.decode,hk]; exact readBody_ne_none _ _ _)

theorem decode_none_codec (cbor cbor' : Cbor) {body : Bytes}
    (h : DomainEvent.decode cbor kind body = .ok none) :
    DomainEvent.decode cbor' kind body = .ok none := by
  unfold DomainEvent.decode at h ⊢
  split at h
  all_goals first | exact absurd h (readBody_ne_none _ _ _) | rfl

theorem body_nonempty (k : EventKind) : Nonempty k.Body := by cases k <;> exact ⟨default⟩

theorem decode_unknown (body : Bytes) (h : ∀ e : DomainEvent, e.kindTag ≠ kind.tag) :
    DomainEvent.decode cbor kind body = .ok none := by
  -- a codec that reads any bytes as some body shows a known kind to have an event
  let lenient : Cbor := ⟨fun _ _ => [],fun k _ => .ok (Classical.choice (body_nonempty k))⟩
  refine decode_none_codec lenient cbor ?_
  cases hd : DomainEvent.decode lenient kind body with
  | error e =>
    unfold DomainEvent.decode at hd
    split at hd <;> cases hd
  | ok found =>
    cases found with
    | none => rfl
    | some e => exact absurd (decode_some hd).1 (h e)

theorem kindTag_valid (e : DomainEvent) : validTag e.kindTag = true := by
  cases e <;> (rw [DomainEvent.kindTag]; decide)

theorem kindTag_new (e : DomainEvent) :
    ∃ kind, KindTag.new e.kindTag = .ok kind ∧ kind.tag = e.kindTag := by
  rw [KindTag.new,dif_pos (kindTag_valid e)]
  exact ⟨_,rfl,rfl⟩

end Tables

/-- Every event decodes from its own tag and body; what decodes under a tag is
an event of that tag with the body that was read; and exactly the tags of no
event decode to nothing. -/
theorem event_tables_agree (cbor : Cbor) :
    (∀ e : DomainEvent, cbor.Faithful e → ∃ kind, KindTag.new e.kindTag = .ok kind ∧
      DomainEvent.decode cbor kind (e.encodeBody cbor) = .ok (some e)) ∧
    (∀ kind body e, DomainEvent.decode cbor kind body = .ok (some e) →
      e.kindTag = kind.tag ∧ cbor.read e.kind body = .ok e.inner) ∧
    ∀ kind body, DomainEvent.decode cbor kind body = .ok none ↔
      ∀ e : DomainEvent, e.kindTag ≠ kind.tag := by
  refine ⟨?_,?_,?_⟩
  · intro e he
    obtain ⟨kind,hnew,htag⟩ := kindTag_new e
    exact ⟨kind,hnew,decode_encode he htag⟩
  · intro kind body e h
    exact decode_some h
  · intro kind body
    constructor
    · intro h e he
      exact decode_known body he.symm h
    · exact decode_unknown body

def canceledRun : RunCanceledBody := .v1 ⟨0⟩ 3

def canceledRunBytes : Bytes :=
  [0xa1,0x62,0x56,0x31,0xa2,0x66,0x72,0x75,0x6e,0x5f,0x69,0x64,0x50] ++ List.replicate 16 0 ++
    [0x6d,0x61,0x74,0x5f,0x73,0x74,0x65,0x70,0x5f,0x69,0x6e,0x64,0x65,0x78,0x03]

def canceledRunCbor : Cbor where
  write
    | .runCanceled, inner => if inner = canceledRun then canceledRunBytes else []
    | _, _ => []
  read
    | .runCanceled, body =>
      if body = canceledRunBytes then .ok canceledRun else .error "not the body"
    | _, _ => .error "not the body"

theorem canceledRun_decodes :
    ∃ kind, KindTag.new "RunCanceled" = .ok kind ∧
      DomainEvent.decode canceledRunCbor kind
        ((DomainEvent.runCanceled canceledRun).encodeBody canceledRunCbor) =
          .ok (some (.runCanceled canceledRun)) :=
  (event_tables_agree canceledRunCbor).1 (.runCanceled canceledRun) rfl

end ProjectOS.Domain
