import ProjectOS.Domain.Jobs
import ProjectOS.Agents.Tools
import ProjectOS.Lib.Footprint

/-! The operations of one runtime and what each does to project directories. What
happens inside a directory is left to an engine, so that an operation's program says
which directories it reaches and in which order. -/

namespace ProjectOS.Api
open Lib Domain Agents

inductive QueryName where
  | capabilitySnapshot | projectInspect | projectVerify | projectList | jobList | cronPreview
  | costRollup | health | evidenceList | sourceHealth | transcriptGet
  deriving DecidableEq

namespace QueryName

def all : List QueryName :=
  [.capabilitySnapshot,.projectInspect,.projectVerify,.projectList,.jobList,.cronPreview,
    .costRollup,.health,.evidenceList,.sourceHealth,.transcriptGet]

def asStr : QueryName → String
  | .capabilitySnapshot => "capability.snapshot"
  | .projectInspect => "project.inspect"
  | .projectVerify => "project.verify"
  | .projectList => "project.list"
  | .jobList => "job.list"
  | .cronPreview => "cron.preview"
  | .costRollup => "cost.rollup"
  | .health => "health"
  | .evidenceList => "evidence.list"
  | .sourceHealth => "source.health"
  | .transcriptGet => "transcript.get"

def parse (name : String) : Option QueryName := all.find? (fun query => query.asStr = name)

end QueryName

inductive CommandName where
  | projectCreate | projectExport | projectSeedSynthetic | projectOpen | projectClose
  | runStart | runCancel | runPause | runResume | modelsPull | ingestSubmit | ingestReprocess
  | transcriptCorrect | transcriptSpeakerName | transcriptSpeakerAssign
  deriving DecidableEq

namespace CommandName

def all : List CommandName :=
  [.projectCreate,.projectExport,.projectSeedSynthetic,.projectOpen,.projectClose,
    .runStart,.runCancel,.runPause,.runResume,.modelsPull,.ingestSubmit,.ingestReprocess,
    .transcriptCorrect,.transcriptSpeakerName,.transcriptSpeakerAssign]

def asStr : CommandName → String
  | .projectCreate => "project.create"
  | .projectExport => "project.export"
  | .projectSeedSynthetic => "project.seed-synthetic"
  | .projectOpen => "project.open"
  | .projectClose => "project.close"
  | .runStart => "run.start"
  | .runCancel => "run.cancel"
  | .runPause => "run.pause"
  | .runResume => "run.resume"
  | .modelsPull => "models.pull"
  | .ingestSubmit => "ingest.submit"
  | .ingestReprocess => "ingest.reprocess"
  | .transcriptCorrect => "transcript.correct"
  | .transcriptSpeakerName => "transcript.speaker-name"
  | .transcriptSpeakerAssign => "transcript.speaker-assign"

def parse (name : String) : Option CommandName := all.find? (fun command => command.asStr = name)

end CommandName

inductive StreamName where
  | runSteps
  deriving DecidableEq

namespace StreamName

def all : List StreamName := [.runSteps]

def asStr : StreamName → String
  | .runSteps => "run.steps"

def parse (name : String) : Option StreamName := all.find? (fun stream => stream.asStr = name)

end StreamName

structure ApiError where
  code : String
  message : String
  retriable : Bool
  deriving DecidableEq

namespace ApiError

def unknownQuery (name : String) : ApiError :=
  ⟨"unknown_query",s!"no query is registered under the name {name.quote}",false⟩

def unknownCommand (name : String) : ApiError :=
  ⟨"unknown_command",s!"no command is registered under the name {name.quote}",false⟩

def unknownStream (name : String) : ApiError :=
  ⟨"unknown_stream",s!"no stream is registered under the name {name.quote}",false⟩

end ApiError

structure ProjectCreateInput where
  path : String
  name : Option String
  template : String

structure ProjectPathInput where
  path : String

structure ProjectExportInput where
  path : String
  out : String

structure ProjectSeedInput where
  path : String
  event_count : Nat
  seed : Nat

inductive RunToolGrantModeWire where
  | allow | gate | block

structure RunToolGrantInput where
  tool_id : String
  mode : RunToolGrantModeWire

structure RunStartInput where
  path : String
  worker : RosterCharter
  autonomy_level : Nat
  budget : RunBudget
  tool_grants : List RunToolGrantInput
  parent_run_id : Option String

structure RunControlInput where
  path : String
  run_id : String
  reason : String

structure RunResumeInput where
  path : String
  run_id : String

structure RunStepsInput where
  path : String
  run_id : String

structure ModelsPullInput where
  manifest_path : String
  name : String
  dest_dir : String
  consent : Bool

structure IngestSubmitInput where
  path : String
  file_path : Option String
  file_name : Option String
  source_scope : Option String

structure IngestReprocessInput where
  path : String
  from_stage : String
  evidence_id : Option String
  item_count_max : Option Nat
  reason : String

structure TranscriptCorrectInput where
  path : String
  evidence_id : String
  pass : Nat
  segment_index : Nat
  text : String

structure TranscriptSpeakerNameInput where
  path : String
  evidence_id : String
  speaker_index : Nat
  name : String

structure TranscriptSpeakerAssignInput where
  path : String
  evidence_id : String
  pass : Nat
  segment_index : Nat
  speaker_index : Nat

structure CostRollupInput where
  path : Option String

structure JobListInput where
  path : String
  state : Option String
  row_count_max : Option Nat

structure CronPreviewInput where
  expr : String
  tz : String
  after_ts_ms : Option Nat
  count : Option Nat

structure EvidenceListInput where
  path : String
  source_id : Option String
  status : Option String
  row_count_max : Option Nat
  with_stages : Bool

structure SourceHealthInput where
  path : String
  source_id : Option String

structure TranscriptGetInput where
  path : String
  evidence_id : String
  pass : Option Nat
  after_segment_index : Option Nat
  row_count_max : Option Nat

structure Wire where
  projectCreate : String → Except String ProjectCreateInput
  projectPath : String → Except String ProjectPathInput
  projectExport : String → Except String ProjectExportInput
  projectSeed : String → Except String ProjectSeedInput
  runStart : String → Except String RunStartInput
  runControl : String → Except String RunControlInput
  runResume : String → Except String RunResumeInput
  runSteps : String → Except String RunStepsInput
  modelsPull : String → Except String ModelsPullInput
  ingestSubmit : String → Except String IngestSubmitInput
  ingestReprocess : String → Except String IngestReprocessInput
  transcriptCorrect : String → Except String TranscriptCorrectInput
  transcriptSpeakerName : String → Except String TranscriptSpeakerNameInput
  transcriptSpeakerAssign : String → Except String TranscriptSpeakerAssignInput
  costRollup : String → Except String CostRollupInput
  jobList : String → Except String JobListInput
  cronPreview : String → Except String CronPreviewInput
  evidenceList : String → Except String EvidenceListInput
  sourceHealth : String → Except String SourceHealthInput
  transcriptGet : String → Except String TranscriptGetInput

def parseInput {τ : Type} (decode : String → Except String τ) (input_json : String) :
    Except ApiError τ :=
  match decode input_json with
  | .ok input => .ok input
  | .error message => .error ⟨"invalid_input",message,false⟩

theorem parseInput_eq_ok {τ : Type} {decode : String → Except String τ} {text : String}
    {input : τ} (h : parseInput decode text = .ok input) : decode text = .ok input := by
  unfold parseInput at h
  split at h
  · rename_i i hd
    cases h
    exact hd
  · cases h

structure StreamFrame where
  stream_seq : Nat
  event_kind : String
  data_json : String
  deriving DecidableEq

structure SessionOpen where
  project_id : ProjectId
  name : Option String
  template : String
  format_version : Nat
  head_seq : Nat

structure OpenProjectRow where
  project_id : String
  path : String
  name : Option String
  template : String
  format_version : Nat
  head_seq : Nat
  opened_ts_ms : Nat

structure CostRollupRow where
  project_id : String
  feature : String
  agent : Option String
  provider : String
  credential_class : String
  model : String
  provider_cost_kind : String
  calls : Nat
  tokens_in : Nat
  tokens_out : Nat
  wall_ms_total : Nat
  usd_micros : Nat

/-- The rest of an operation once its log is open: work in one directory, then a
report. -/
inductive ProjectWork where
  | create (input : ProjectCreateInput)
  | inspect
  | verify
  | seed (input : ProjectSeedInput)
  | jobList (state : Option JobDurableState) (input : JobListInput)
  | runStart (input : RunStartInput)
  | runPause (input : RunControlInput)
  | runCancel (input : RunControlInput)
  | ingestSubmit (input : IngestSubmitInput)
  | ingestReprocess (input : IngestReprocessInput)
  | transcriptCorrect (input : TranscriptCorrectInput)
  | transcriptSpeakerName (input : TranscriptSpeakerNameInput)
  | transcriptSpeakerAssign (input : TranscriptSpeakerAssignInput)
  | evidenceList (input : EvidenceListInput)
  | sourceHealth (input : SourceHealthInput)
  | transcriptGet (input : TranscriptGetInput)

inductive DirCall (π : Type) where
  | exists
  | canonicalize
  | openLog
  | sessionOpen
  | work (op : ProjectWork)
  | costRows
  | runResume (input : RunResumeInput)
  | echoWorker
  | durableFrames (run_id : String) (cursor : Option Nat)
  | atHead (run_id : String) (cursor : Option Nat)
  | copyOut
  | writeCopy (contents : π)

def DirCall.Resp {π : Type} : DirCall π → Type
  | .exists => Bool
  | .canonicalize => String
  | .openLog => Except ApiError Unit
  | .sessionOpen => Except ApiError SessionOpen
  | .work _ => Except ApiError String
  | .costRows => Except ApiError (List CostRollupRow)
  | .runResume _ => Except ApiError (String × Bool)
  | .echoWorker => Except ApiError Unit
  | .durableFrames _ _ => Except ApiError (List StreamFrame)
  | .atHead _ _ => Except ApiError Bool
  | .copyOut => Except ApiError π
  | .writeCopy _ => Except ApiError String

structure DirAct (π : Type) where
  path : String
  call : DirCall π

def directories (π : Type) : Interface where
  Act := DirAct π
  Resp a := a.call.Resp

end ProjectOS.Api
