import ProjectOS.Sched.Queue
import ProjectOS.Domain.Evidence
import ProjectOS.Gateway.Weather

/-! One project's database as ingestion sees it, and the atomic actions the
pipeline takes on it and on what surrounds it. -/

namespace ProjectOS.Ingest
open Lib Domain
open Sched (LogError SchedError)

inductive Fact where
  | ingest (event : IngestEvent)
  | job (event : JobEvent)
  deriving DecidableEq

def jobKindTag : JobEvent → String
  | .enqueuedV1 .. => "JobEnqueued"
  | .enqueuedV2 _ => "JobEnqueued"
  | .attemptFailed .. => "JobAttemptFailed"
  | .completedV1 .. => "JobCompleted"
  | .completedV2 .. => "JobCompleted"
  | .dead .. => "JobDead"
  | .cronRegistered _ => "CronRegistered"
  | .cronEnablementSet .. => "CronEnablementSet"

def Fact.kindTag : Fact → String
  | .ingest event => event.kindTag
  | .job event => jobKindTag event

structure Db where
  queue : Sched.Db
  facts : List Fact
  tables : EvidenceTables

def Db.empty : Db := ⟨Sched.Db.empty,[],EvidenceTables.empty⟩

def applyFailed (seq : Nat) (fact : Fact) (source : ApplyError) : ApplyError :=
  ⟨s!"projection apply failed at event {seq} ({fact.kindTag}): {source.reason}"⟩

def Db.appendOne (db : Db) (ts_ms : Nat) (fact : Fact) : Except ApplyError Db :=
  match fact with
  | .ingest event =>
    match db.tables.apply (db.queue.head+1) event with
    | .ok tables =>
      .ok ⟨{ db.queue with head := db.queue.head+1 },db.facts ++ [fact],tables⟩
    | .error e => .error (applyFailed (db.queue.head+1) fact e)
  | .job event =>
    match db.queue.append ts_ms event with
    | .ok queue => .ok ⟨queue,db.facts ++ [fact],db.tables⟩
    | .error e => .error (applyFailed (db.queue.head+1) fact e)

def Db.appendBatch (db : Db) (ts_ms : Nat) (facts : List Fact) : Except ApplyError Db :=
  facts.foldlM (fun db fact => db.appendOne ts_ms fact) db

inductive IngestError where
  | store (fault : String)
  | log (source : LogError)
  | sched (source : SchedError)
  | read (fault : String)
  | io (operation fault : String)
  | unknownEvidence (evidence_id : String)
  | stalePass (stage : IngestStage) (job_pass evidence_pass : Nat)
  | stageNotReprocessable (stage : IngestStage)
  | stageInputMissing (stage : IngestStage) (missing : String)
  | limitExceeded (limit : String) (value limit_value : Nat)
  deriving DecidableEq

def logErrorText : LogError → String
  | .store fault => fault
  | .apply source => source.reason

def schedErrorText : SchedError → String
  | .store fault => fault
  | .log source => logErrorText source
  | .invalidSpec field reason => s!"job spec field {field} is invalid: {reason}"
  | .invalidSchedule source => source.reason
  | .unknownJob job_id =>
    s!"job {job_id} has no row in proj_jobs; the projection was mutated outside the log"

namespace IngestError

def code : IngestError → String
  | .store _ => "storage_failure"
  | .log _ => "log_failure"
  | .sched _ => "scheduler_failure"
  | .read _ => "projection_read_failure"
  | .io .. => "io_failure"
  | .unknownEvidence _ => "unknown_evidence"
  | .stalePass .. => "stale_pass"
  | .stageNotReprocessable _ => "stage_not_reprocessable"
  | .stageInputMissing .. => "stage_input_missing"
  | .limitExceeded .. => "limit_exceeded"

def isRetriable : IngestError → Bool
  | .store _ | .log _ | .sched _ | .read _ | .io .. => true
  | _ => false

def text : IngestError → String
  | .store fault => fault
  | .log source => logErrorText source
  | .sched source => schedErrorText source
  | .read fault => fault
  | .io operation fault => s!"{operation}: {fault}"
  | .unknownEvidence evidence_id => s!"evidence {evidence_id} is not in this project"
  | .stalePass stage job_pass evidence_pass =>
    s!"stage {stage.asStr} job was enqueued for pass {job_pass}; the item is on pass {evidence_pass}"
  | .stageNotReprocessable stage =>
    s!"stage {stage.asStr} cannot be reprocessed: it would re-fetch from the source"
  | .stageInputMissing stage missing => s!"stage {stage.asStr} needs {missing}, which is not set"
  | .limitExceeded limit value limit_value => s!"{limit} is {value}, over the bound {limit_value}"

end IngestError

structure StageFailure where
  code : String
  detail : String
  permanent : Bool
  deriving DecidableEq

def StageFailure.retriable (code detail : String) : StageFailure := ⟨code,detail,false⟩

def StageFailure.refusal (code detail : String) : StageFailure := ⟨code,detail,true⟩

def StageFailure.ofIngest (error : IngestError) : StageFailure :=
  ⟨error.code,error.text,!error.isRetriable⟩

structure EmbedBatch where
  dim : Nat
  vectors : List UInt32
  deriving DecidableEq

def EmbedBatch.count (batch : EmbedBatch) : Nat := batch.vectors.length / batch.dim

def EmbedBatch.bytes (batch : EmbedBatch) : Bytes :=
  batch.vectors.flatMap fun v =>
    [UInt8.ofNat v.toNat,UInt8.ofNat (v.toNat/2^8),UInt8.ofNat (v.toNat/2^16),
      UInt8.ofNat (v.toNat/2^24)]

inductive BlobStep where
  | open_ | write | finish
  deriving DecidableEq

structure BlobFailure where
  step : BlobStep
  fault : String
  deriving DecidableEq

inductive IngestAct where
  | now
  | readEvidence (evidence_id : EvidenceId)
  | listEvidence (row_count_max : Nat)
  | listChunks (evidence_id : EvidenceId) (pass : Option Nat) (row_count_max : Nat)
  | listChunkEmbeddings (evidence_id : EvidenceId) (model_id : String)
      (enrichment_version row_count_max : Nat)
  | findEmbeddingByContent (content_hash : Digest) (model_id : String) (enrichment_version : Nat)
  | readJob (job_id : JobId)
  | readText (blob : Digest) (byte_start byte_count : Nat)
  | embed (model_id : String) (inputs : List String) (enrichment_version : Nat)
  | writeBlob (bytes : Bytes)
  | append (facts : List Fact)

abbrev ingestIface : Interface where
  Act := IngestAct
  Resp
    | .now => Nat
    | .readEvidence _ => Except String (Option EvidenceRecord)
    | .listEvidence _ => Except String (List EvidenceRecord)
    | .listChunks .. => Except String (List ChunkRecord)
    | .listChunkEmbeddings .. => Except String (List ChunkEmbeddingRecord)
    | .findEmbeddingByContent .. => Except String (Option ChunkEmbeddingRecord)
    | .readJob _ => Except String (Option JobRow)
    | .readText .. => Except IngestError String
    | .embed .. => Except Gateway.Weather EmbedBatch
    | .writeBlob _ => Except BlobFailure Digest
    | .append _ => Except LogError Unit

/-- The clock, whether the store fails, and what the blob store and the model
answer. -/
structure IngestInput where
  now_ms : Nat := 0
  fault : Option String := none
  text : Except IngestError String := .ok ""
  batch : Except Gateway.Weather EmbedBatch := .ok ⟨0,[]⟩
  blob : Except BlobFailure Digest := .ok 0

def IngestInput.read {α : Type} (i : IngestInput) (a : α) : Except String α :=
  match i.fault with
  | some fault => .error fault
  | none => .ok a

def Db.append (db : Db) (i : IngestInput) (facts : List Fact) : Except LogError Unit × Db :=
  match i.fault with
  | some fault => (.error (.store fault),db)
  | none =>
    match db.appendBatch i.now_ms facts with
    | .ok db' => (.ok (),db')
    | .error e => (.error (.apply e),db)

def ingestMachine : Machine ingestIface IngestInput Db where
  step i db
    | .now => (i.now_ms,db)
    | .readEvidence evidence_id => (i.read (db.tables.readEvidence evidence_id),db)
    | .listEvidence row_count_max => (i.read (db.tables.listEvidence row_count_max),db)
    | .listChunks evidence_id pass row_count_max =>
      (i.read (db.tables.listChunks evidence_id pass row_count_max),db)
    | .listChunkEmbeddings evidence_id model_id version row_count_max =>
      (i.read (db.tables.listChunkEmbeddings evidence_id model_id version row_count_max),db)
    | .findEmbeddingByContent content_hash model_id version =>
      (i.read (db.tables.findEmbeddingByContent content_hash model_id version),db)
    | .readJob job_id => (i.read (db.queue.jobs.get? job_id),db)
    | .readText .. => (i.text,db)
    | .embed .. => (i.batch,db)
    | .writeBlob _ => (i.blob,db)
    | .append facts => db.append i facts

abbrev IngestProg := Prog ingestIface StageFailure

variable {db db' : Db}

theorem Db.append_cases (db : Db) (i : IngestInput) (facts : List Fact) :
    (∃ db', db.append i facts = (.ok (),db') ∧ db.appendBatch i.now_ms facts = .ok db') ∨
      ∃ e, db.append i facts = (.error e,db) := by
  rw [Db.append]
  cases i.fault with
  | some fault => exact Or.inr ⟨_,rfl⟩
  | none =>
    cases h : db.appendBatch i.now_ms facts with
    | ok db' => exact Or.inl ⟨db',rfl,rfl⟩
    | error e => exact Or.inr ⟨_,rfl⟩

variable {ts_ms : Nat}

theorem Db.appendOne_ingest {event : IngestEvent}
    (h : db.appendOne ts_ms (.ingest event) = .ok db') :
    db.tables.apply (db.queue.head+1) event = .ok db'.tables ∧
      db'.queue = { db.queue with head := db.queue.head+1 } ∧
      db'.facts = db.facts ++ [.ingest event] := by
  simp only [Db.appendOne] at h
  split at h
  · rename_i tables ht
    cases h
    exact ⟨ht,rfl,rfl⟩
  · cases h

theorem Db.appendOne_job {event : JobEvent} (h : db.appendOne ts_ms (.job event) = .ok db') :
    db.queue.append ts_ms event = .ok db'.queue ∧ db'.tables = db.tables ∧
      db'.facts = db.facts ++ [.job event] := by
  simp only [Db.appendOne] at h
  split at h
  · rename_i queue hq
    cases h
    exact ⟨hq,rfl,rfl⟩
  · cases h

theorem Db.appendOne_facts {fact : Fact} (h : db.appendOne ts_ms fact = .ok db') :
    db'.facts = db.facts ++ [fact] := by
  cases fact with
  | ingest event => exact (Db.appendOne_ingest h).2.2
  | job event => exact (Db.appendOne_job h).2.2

variable {facts : List Fact}

theorem Db.appendBatch_cons {fact : Fact} (h : db.appendBatch ts_ms (fact :: facts) = .ok db') :
    ∃ mid, db.appendOne ts_ms fact = .ok mid ∧ mid.appendBatch ts_ms facts = .ok db' := by
  rw [Db.appendBatch,List.foldlM_cons] at h
  cases ha : db.appendOne ts_ms fact with
  | ok mid =>
    rw [ha] at h
    exact ⟨mid,rfl,h⟩
  | error e =>
    rw [ha] at h
    cases h

theorem Db.appendBatch_keeps {R : Db → Db → Prop} (hrefl : ∀ d, R d d)
    (htrans : ∀ a b c, R a b → R b c → R a c)
    (hone : ∀ d d', ∀ fact ∈ facts, d.appendOne ts_ms fact = .ok d' → R d d')
    (h : db.appendBatch ts_ms facts = .ok db') : R db db' := by
  induction facts generalizing db with
  | nil =>
    cases h
    exact hrefl _
  | cons fact facts ih =>
    obtain ⟨mid,ha,hrest⟩ := Db.appendBatch_cons h
    exact htrans _ _ _ (hone _ _ fact (by simp) ha)
      (ih (fun d d' f hf => hone d d' f (List.mem_cons_of_mem _ hf)) hrest)

theorem Db.appendBatch_facts (h : db.appendBatch ts_ms facts = .ok db') :
    db'.facts = db.facts ++ facts := by
  induction facts generalizing db with
  | nil =>
    cases h
    simp
  | cons fact facts ih =>
    obtain ⟨mid,ha,hrest⟩ := Db.appendBatch_cons h
    rw [ih hrest,Db.appendOne_facts ha,List.append_assoc,List.singleton_append]

end ProjectOS.Ingest
