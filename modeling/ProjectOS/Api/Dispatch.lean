import ProjectOS.Api.Surface
import ProjectOS.Lib.Text

namespace ProjectOS.Api
open Lib Domain Agents Lib.Prog List

/-- What the operations compute. `visit` is all that happens inside one directory;
`ι` is what the surroundings add: clocks, faults, running workers. -/
structure Engine (π ι : Type) where
  visit : ι → (a : DirAct π) → Option π → a.call.Resp × Option π
  validateEcho : Except ApiError Unit
  capabilitySnapshot : String
  health : ι → Nat → Except ApiError String
  cronPreview : Nat → CronPreviewInput → Except ApiError String
  modelsPull : ι → ModelsPullInput → Except ApiError String
  rowJson : OpenProjectRow → Except ApiError String
  listJson : List OpenProjectRow → Except ApiError String
  closeJson : ProjectId → String → Nat → Except ApiError String
  costReport : Bool → Nat → List CostRollupRow → Except ApiError String

structure Surroundings (ι : Type) where
  now_ms : Nat
  process : ι
  /-- Chosen anew at each directory visit. -/
  env : Nat → ι
  register_fault : Option ApiError
  /-- How often a stream's feeder polls before its consumer leaves. -/
  polls : Nat

abbrev Session := Table ProjectId OpenProjectRow

def OPEN_PROJECT_COUNT_MAX : Nat := 64

def SEED_EVENT_COUNT_MAX : Nat := 2000000

def Session.paths (session : Session) : List String := session.rows.map (fun r => r.2.path)

inductive Reply where
  | body (text : String)
  | stream (frames : List StreamFrame) (failure : Option ApiError)
  deriving DecidableEq

section Bodies
variable {π ι : Type}

abbrev DirProg (π α : Type) := Prog (directories π) ApiError α

def visit (path : String) (call : DirCall π) : DirProg π call.Resp :=
  .act (F := directories π) ⟨path,call⟩ .ret

def pathExists (path : String) : DirProg π Bool := visit path .exists

def resolved (path : String) : DirProg π String := visit path .canonicalize

def openLog (path : String) : DirProg π Unit := do
  let opened ← visit path .openLog
  Prog.ofExcept opened

def onLog (path : String) (op : ProjectWork) : DirProg π String := do
  openLog path
  let report ← visit path (.work op)
  Prog.ofExcept report

def create (input : ProjectCreateInput) : DirProg π String := do
  let report ← visit input.path (.work (.create input))
  Prog.ofExcept report

def inspect (input : ProjectPathInput) : DirProg π String := onLog input.path .inspect

def verify (input : ProjectPathInput) : DirProg π String := onLog input.path .verify

def exportProject (input : ProjectExportInput) : DirProg π String := do
  openLog input.path
  let occupied ← pathExists input.out
  if occupied then
    .throw ⟨"already_exists",s!"{input.out} already exists and is not empty",false⟩
  else
    let copied ← visit input.path .copyOut
    let contents ← Prog.ofExcept copied
    let report ← visit input.out (.writeCopy contents)
    Prog.ofExcept report

def seedSynthetic (input : ProjectSeedInput) : DirProg π String :=
  if input.event_count > SEED_EVENT_COUNT_MAX then
    .throw ⟨"invalid_input",s!"eventCount {input.event_count} exceeds the per-call bound " ++
      s!"{SEED_EVENT_COUNT_MAX}",false⟩
  else onLog input.path (.seed input)

def jobListState (input : JobListInput) : Except ApiError (Option JobDurableState) :=
  match input.state with
  | none => .ok none
  | some text =>
    match JobDurableState.parse text with
    | some state => .ok (some state)
    | none => .error ⟨"invalid_input",s!"job state {text.quote} is not one of queued, done, dead " ++
        "(running and failed are live states, not stored ones)",false⟩

def jobList (input : JobListInput) : DirProg π String := do
  let state ← Prog.ofExcept (jobListState input)
  onLog input.path (.jobList state input)

def rollupOneProject (rows : List CostRollupRow) (path : String) :
    DirProg π (List CostRollupRow) := do
  openLog path
  let grouped ← visit path .costRows
  let grouped ← Prog.ofExcept grouped
  return rows ++ grouped

def costRollup (e : Engine π ι) (session : Session) (input : CostRollupInput) :
    DirProg π String := do
  let targets := match input.path with
    | some path => [path]
    | none => session.paths
  let rows ← targets.foldlM rollupOneProject []
  Prog.ofExcept (e.costReport input.path.isSome targets.length rows)

def runStart (e : Engine π ι) (input : RunStartInput) : DirProg π String := do
  if input.worker = .echo then
    Prog.ofExcept e.validateEcho
    if input.tool_grants.isEmpty then pure () else
      .throw ⟨"invalid_input","Echo uses its fixed three-tool grant set; omit toolGrants",false⟩
  let body ← onLog input.path (.runStart input)
  if input.worker = .echo then
    let launched ← visit input.path .echoWorker
    Prog.ofExcept launched
  return body

def runResume (e : Engine π ι) (input : RunResumeInput) : DirProg π String := do
  openLog input.path
  let resumed ← visit input.path (.runResume input)
  let (body,launches) ← Prog.ofExcept resumed
  if launches then
    Prog.ofExcept e.validateEcho
    let launched ← visit input.path .echoWorker
    Prog.ofExcept launched
  return body

def openProject (e : Engine π ι) (u : Surroundings ι) (session : Session)
    (input : ProjectPathInput) : DirProg π (Session × Except ApiError String) := do
  openLog input.path
  let opened ← visit input.path .sessionOpen
  let opened ← Prog.ofExcept opened
  let row : OpenProjectRow := ⟨opened.project_id.toHex,input.path,opened.name,opened.template,
    opened.format_version,opened.head_seq,u.now_ms⟩
  if OPEN_PROJECT_COUNT_MAX ≤ session.rows.length ∧ (session.get? opened.project_id).isNone then
    .throw ⟨"open_project_limit",s!"this session already tracks {OPEN_PROJECT_COUNT_MAX} " ++
      "projects; close one before opening another",false⟩
  else
    let json := do
      let json ← e.rowJson row
      match u.register_fault with
      | some fault => .error fault
      | none => .ok json
    return (session.put opened.project_id row,json)

def findResolved (wanted : String) : List (ProjectId × OpenProjectRow) →
    DirProg π (Option ProjectId)
  | [] => .ret none
  | (key,row) :: rest => do
    let path ← resolved row.path
    if path = wanted then return some key else findResolved wanted rest

def closeProject (e : Engine π ι) (session : Session) (input : ProjectPathInput) :
    DirProg π (Session × Except ApiError String) := do
  let wanted ← resolved input.path
  let found ← findResolved wanted session.rows
  match found with
  | none => .throw ⟨"not_open",s!"this session does not have {input.path.quote} open; " ++
      "nothing was closed",false⟩
  | some key =>
    let remaining := session.erase key
    return (remaining,e.closeJson key input.path remaining.rows.length)

def followLoop (input : RunStepsInput) : Nat → Option Nat →
    DirProg π (List StreamFrame × Option ApiError)
  | 0, _ => .ret ([],none)
  | polls+1, cursor => do
    let polled ← visit input.path (.durableFrames input.run_id cursor)
    match (polled : Except ApiError (List StreamFrame)) with
    | .error error => return ([],some error)
    | .ok frames =>
      let cursor := (frames.getLast?.map StreamFrame.stream_seq).or cursor
      let ended ← visit input.path (.atHead input.run_id cursor)
      match (ended : Except ApiError Bool) with
      | .error error => return (frames,some error)
      | .ok true => return (frames,none)
      | .ok false =>
        let (more,failure) ← followLoop input polls cursor
        return (frames ++ more,failure)

def streamSubscribe (input : RunStepsInput) (resume_after : Option Nat) :
    DirProg π (List StreamFrame) := do
  openLog input.path
  let frames ← visit input.path (.durableFrames input.run_id resume_after)
  Prog.ofExcept frames

def streamFollow (u : Surroundings ι) (input : RunStepsInput) (resume_after : Option Nat) :
    DirProg π (List StreamFrame × Option ApiError) := do
  let opened ← visit input.path .openLog
  match (opened : Except ApiError Unit) with
  | .error error => return ([],some error)
  | .ok () => followLoop input u.polls resume_after

def unchanged (session : Session) (p : DirProg π String) :
    DirProg π (Session × Except ApiError String) := do
  let text ← p
  return (session,.ok text)

end Bodies

section Dispatch
variable {π ι : Type} (w : Wire) (e : Engine π ι)

def dispatchQuery (u : Surroundings ι) (session : Session) (name input_json : String) :
    DirProg π String :=
  match QueryName.parse name with
  | some .capabilitySnapshot => .ret e.capabilitySnapshot
  | some .projectInspect => do inspect (← Prog.ofExcept (parseInput w.projectPath input_json))
  | some .projectVerify => do verify (← Prog.ofExcept (parseInput w.projectPath input_json))
  | some .projectList => Prog.ofExcept (e.listJson (session.rows.map Prod.snd))
  | some .health => Prog.ofExcept (e.health u.process session.rows.length)
  | some .costRollup => do
    costRollup e session (← Prog.ofExcept (parseInput w.costRollup input_json))
  | some .jobList => do jobList (← Prog.ofExcept (parseInput w.jobList input_json))
  | some .cronPreview => do
    let input ← Prog.ofExcept (parseInput w.cronPreview input_json)
    Prog.ofExcept (e.cronPreview u.now_ms input)
  | some .evidenceList => do
    let input ← Prog.ofExcept (parseInput w.evidenceList input_json)
    onLog input.path (.evidenceList input)
  | some .sourceHealth => do
    let input ← Prog.ofExcept (parseInput w.sourceHealth input_json)
    onLog input.path (.sourceHealth input)
  | some .transcriptGet => do
    let input ← Prog.ofExcept (parseInput w.transcriptGet input_json)
    onLog input.path (.transcriptGet input)
  | none => .throw (.unknownQuery name)

def dispatchCommand (u : Surroundings ι) (session : Session) (name input_json : String) :
    DirProg π (Session × Except ApiError String) :=
  match CommandName.parse name with
  | some .projectCreate => unchanged session do
    create (← Prog.ofExcept (parseInput w.projectCreate input_json))
  | some .projectExport => unchanged session do
    exportProject (← Prog.ofExcept (parseInput w.projectExport input_json))
  | some .projectSeedSynthetic => unchanged session do
    seedSynthetic (← Prog.ofExcept (parseInput w.projectSeed input_json))
  | some .projectOpen => do
    openProject e u session (← Prog.ofExcept (parseInput w.projectPath input_json))
  | some .projectClose => do
    closeProject e session (← Prog.ofExcept (parseInput w.projectPath input_json))
  | some .modelsPull => unchanged session do
    let input ← Prog.ofExcept (parseInput w.modelsPull input_json)
    Prog.ofExcept (e.modelsPull u.process input)
  | some .ingestSubmit => unchanged session do
    let input ← Prog.ofExcept (parseInput w.ingestSubmit input_json)
    onLog input.path (.ingestSubmit input)
  | some .ingestReprocess => unchanged session do
    let input ← Prog.ofExcept (parseInput w.ingestReprocess input_json)
    onLog input.path (.ingestReprocess input)
  | some .transcriptCorrect => unchanged session do
    let input ← Prog.ofExcept (parseInput w.transcriptCorrect input_json)
    onLog input.path (.transcriptCorrect input)
  | some .transcriptSpeakerName => unchanged session do
    let input ← Prog.ofExcept (parseInput w.transcriptSpeakerName input_json)
    onLog input.path (.transcriptSpeakerName input)
  | some .transcriptSpeakerAssign => unchanged session do
    let input ← Prog.ofExcept (parseInput w.transcriptSpeakerAssign input_json)
    onLog input.path (.transcriptSpeakerAssign input)
  | some .runStart => unchanged session do
    runStart e (← Prog.ofExcept (parseInput w.runStart input_json))
  | some .runCancel => unchanged session do
    let input ← Prog.ofExcept (parseInput w.runControl input_json)
    onLog input.path (.runCancel input)
  | some .runPause => unchanged session do
    let input ← Prog.ofExcept (parseInput w.runControl input_json)
    onLog input.path (.runPause input)
  | some .runResume => unchanged session do
    runResume e (← Prog.ofExcept (parseInput w.runResume input_json))
  | none => .throw (.unknownCommand name)

def parseResumeCursor (last_event_id : Option String) : Except ApiError (Option Nat) :=
  match last_event_id with
  | none => .ok none
  | some text =>
    let trimmed := trim text.toList
    if trimmed.isEmpty then .ok none
    else match fromStrRadix 10 u64Max trimmed with
      | some seq => .ok (some seq)
      | none => .error ⟨"invalid_input",
          s!"Last-Event-ID {(String.ofList trimmed).quote} is not a stream sequence number",false⟩

def respondStream (u : Surroundings ι) (name input_json : String)
    (last_event_id : Option String) : DirProg π Reply := do
  let cursor ← Prog.ofExcept (parseResumeCursor last_event_id)
  match StreamName.parse name with
  | none => .throw (.unknownStream name)
  | some .runSteps =>
    let input ← Prog.ofExcept (parseInput w.runSteps input_json)
    let frames ← streamSubscribe input cursor
    let tail_cursor := (frames.getLast?.map StreamFrame.stream_seq).or cursor
    let (more,failure) ← streamFollow u input tail_cursor
    return .stream (frames ++ more) failure

end Dispatch

section Reach
variable {π ι : Type} {Q : String → Prop}

def Reaches {α : Type} (Q : String → Prop) (p : DirProg π α) : Prop :=
  p.Within (fun a : DirAct π => Q a.path)

variable {α : Type}

theorem reaches_bind {β : Type} {p : DirProg π α} {f : α → DirProg π β} (hp : Reaches Q p)
    (hf : ∀ a, Reaches Q (f a)) : Reaches Q (p.bind f) := within_bind hp hf

theorem reaches_ofExcept (x : Except ApiError α) :
    Reaches Q (Prog.ofExcept x : DirProg π α) := within_ofExcept x

theorem reaches_ret (a : α) : Reaches Q (.ret a : DirProg π α) := trivial

theorem reaches_throw (e : ApiError) : Reaches Q (.throw e : DirProg π α) := trivial

variable {path : String}

theorem reaches_visit (h : Q path) (call : DirCall π) :
    Reaches Q (visit path call) := ⟨h,fun _ => trivial⟩

theorem reaches_openLog (h : Q path) : Reaches Q (openLog path : DirProg π Unit) :=
  reaches_bind (reaches_visit h _) (fun _ => reaches_ofExcept _)

theorem reaches_onLog (h : Q path) (op : ProjectWork) :
    Reaches Q (onLog path op : DirProg π String) :=
  reaches_bind (reaches_openLog h)
    (fun _ => reaches_bind (reaches_visit h _) (fun _ => reaches_ofExcept _))

variable {text : String} {τ : Type} {decode : String → Except String τ} {f : τ → DirProg π α}

theorem reaches_parse
    (h : ∀ input, decode text = .ok input → Reaches Q (f input)) :
    Reaches Q (Prog.bind (Prog.ofExcept (parseInput decode text)) f) := by
  cases hi : parseInput decode text with
  | error e => exact reaches_throw _
  | ok input => exact h input (parseInput_eq_ok hi)

theorem reaches_create {input : ProjectCreateInput} (h : Q input.path) :
    Reaches Q (create input : DirProg π String) :=
  reaches_bind (reaches_visit h _) (fun _ => reaches_ofExcept _)

theorem reaches_exportProject {input : ProjectExportInput} (h : Q input.path) (ho : Q input.out) :
    Reaches Q (exportProject input : DirProg π String) := by
  refine reaches_bind (reaches_openLog h) (fun _ => reaches_bind (reaches_visit ho _) ?_)
  intro occupied
  cases occupied with
  | true => exact reaches_throw _
  | false =>
    refine reaches_bind (reaches_visit h _) (fun _ => reaches_bind (reaches_ofExcept _) ?_)
    intro contents
    exact reaches_bind (reaches_visit ho _) (fun _ => reaches_ofExcept _)

theorem reaches_seedSynthetic {input : ProjectSeedInput} (h : Q input.path) :
    Reaches Q (seedSynthetic input : DirProg π String) := by
  unfold seedSynthetic
  split
  · exact reaches_throw _
  · exact reaches_onLog h _

theorem reaches_jobList {input : JobListInput} (h : ∀ state, jobListState input = .ok state →
    Q input.path) : Reaches Q (jobList input : DirProg π String) := by
  change Reaches Q (Prog.bind (Prog.ofExcept (jobListState input)) _)
  cases hs : jobListState input with
  | error e => exact reaches_throw _
  | ok state => exact reaches_onLog (h state hs) _

theorem reaches_rollup {paths : List String} (h : ∀ path ∈ paths, Q path)
    (rows : List CostRollupRow) :
    Reaches Q (paths.foldlM rollupOneProject rows : DirProg π (List CostRollupRow)) := by
  refine within_foldlM paths rollupOneProject ?_ rows
  intro rows path hpath
  exact reaches_bind (reaches_openLog (h path hpath)) (fun _ => reaches_bind
    (reaches_visit (h path hpath) _) (fun _ => reaches_bind (reaches_ofExcept _)
      (fun _ => reaches_ret _)))

variable (e : Engine π ι)

theorem reaches_costRollup {session : Session} {input : CostRollupInput}
    (hpath : ∀ path, input.path = some path → Q path)
    (hsession : input.path = none → ∀ path ∈ session.paths, Q path) :
    Reaches Q (costRollup e session input) := by
  unfold costRollup
  cases hi : input.path with
  | none => exact reaches_bind (reaches_rollup (hsession hi) []) (fun _ => reaches_ofExcept _)
  | some path =>
    have h : ∀ p ∈ [path], Q p := by simpa using hpath path hi
    exact reaches_bind (reaches_rollup h []) (fun _ => reaches_ofExcept _)

theorem reaches_echoWorker (h : Q path) (body : String) :
    Reaches Q (Prog.bind (visit path .echoWorker) (fun launched =>
      Prog.bind (Prog.ofExcept launched) (fun _ => .ret body)) : DirProg π String) :=
  reaches_bind (reaches_visit h _) (fun _ => reaches_bind (reaches_ofExcept _)
    (fun _ => reaches_ret _))

theorem reaches_runStart {input : RunStartInput} (h : Q input.path) :
    Reaches Q (runStart e input) := by
  have hbody : ∀ x : Unit, Reaches Q (Prog.bind (onLog input.path (.runStart input))
      (fun body => if input.worker = .echo then Prog.bind (visit input.path .echoWorker)
        (fun launched => Prog.bind (Prog.ofExcept launched) (fun _ => .ret body))
        else .ret body) : DirProg π String) := by
    intro _
    refine reaches_bind (reaches_onLog h _) ?_
    intro body
    split
    · exact reaches_echoWorker h body
    · exact reaches_ret _
  unfold runStart
  by_cases hw : input.worker = .echo
  · simp only [hw,if_true] at hbody ⊢
    refine reaches_bind (reaches_ofExcept _) (fun _ => ?_)
    cases input.tool_grants.isEmpty with
    | true => exact hbody ()
    | false => exact reaches_throw _
  · simp only [hw,if_false] at hbody ⊢
    exact hbody ()

theorem reaches_runResume {input : RunResumeInput} (h : Q input.path) :
    Reaches Q (runResume e input) := by
  refine reaches_bind (reaches_openLog h) (fun _ => reaches_bind (reaches_visit h _)
    (fun _ => reaches_bind (reaches_ofExcept _) ?_))
  rintro ⟨body,launches⟩
  cases launches with
  | true => exact reaches_bind (reaches_ofExcept _) (fun _ => reaches_echoWorker h body)
  | false => exact reaches_ret _

variable (u : Surroundings ι) (session : Session) {input : ProjectPathInput}

theorem reaches_openProject (h : Q input.path) :
    Reaches Q (openProject e u session input) := by
  refine reaches_bind (reaches_openLog h) (fun _ => reaches_bind (reaches_visit h _)
    (fun _ => reaches_bind (reaches_ofExcept _) ?_))
  intro opened
  dsimp only
  split
  · exact reaches_throw _
  · exact reaches_ret _

theorem reaches_findResolved (wanted : String) {rows : List (ProjectId × OpenProjectRow)}
    (h : ∀ r ∈ rows, Q r.2.path) :
    Reaches Q (findResolved wanted rows : DirProg π (Option ProjectId)) := by
  induction rows with
  | nil => exact reaches_ret _
  | cons r rest ih =>
    obtain ⟨key,row⟩ := r
    refine reaches_bind (reaches_visit (h _ mem_cons_self) _) ?_
    intro path
    split
    · exact reaches_ret _
    · exact ih (fun r hr => h r (mem_cons_of_mem _ hr))

theorem reaches_closeProject {session : Session} (h : Q input.path)
    (hsession : ∀ path ∈ session.paths, Q path) : Reaches Q (closeProject e session input) := by
  refine reaches_bind (reaches_visit h _) (fun wanted => reaches_bind
    (reaches_findResolved wanted ?_) ?_)
  · intro r hr
    exact hsession _ (mem_map_of_mem hr)
  · intro found
    cases found with
    | none => exact reaches_throw _
    | some key => exact reaches_ret _

theorem reaches_followLoop {input : RunStepsInput} (h : Q input.path) (polls : Nat)
    (cursor : Option Nat) : Reaches Q
      (followLoop input polls cursor : DirProg π (List StreamFrame × Option ApiError)) := by
  induction polls generalizing cursor with
  | zero => exact reaches_ret _
  | succ polls ih =>
    refine reaches_bind (reaches_visit h _) ?_
    intro polled
    cases polled with
    | error error => exact reaches_ret _
    | ok frames =>
      refine reaches_bind (reaches_visit h _) ?_
      intro ended
      cases ended with
      | error error => exact reaches_ret _
      | ok ended =>
        cases ended with
        | true => exact reaches_ret _
        | false => exact reaches_bind (ih _) (fun _ => reaches_ret _)

def decoded {τ : Type} (decode : String → Except String τ) (paths : τ → List String)
    (text : String) : List String :=
  match decode text with
  | .ok input => paths input
  | .error _ => []

theorem mem_decoded {paths : τ → List String}
    {input : τ} (h : decode text = .ok input) (hp : path ∈ paths input) :
    path ∈ decoded decode paths text := by
  simpa [decoded,h] using hp

def commandPaths (w : Wire) (session : Session) (text : String) : CommandName → List String
  | .projectCreate => decoded w.projectCreate (fun i => [i.path]) text
  | .projectExport => decoded w.projectExport (fun i => [i.path,i.out]) text
  | .projectSeedSynthetic => decoded w.projectSeed (fun i => [i.path]) text
  | .projectOpen => decoded w.projectPath (fun i => [i.path]) text
  | .projectClose => decoded w.projectPath (fun i => i.path :: session.paths) text
  | .runStart => decoded w.runStart (fun i => [i.path]) text
  | .runCancel => decoded w.runControl (fun i => [i.path]) text
  | .runPause => decoded w.runControl (fun i => [i.path]) text
  | .runResume => decoded w.runResume (fun i => [i.path]) text
  | .modelsPull => []
  | .ingestSubmit => decoded w.ingestSubmit (fun i => [i.path]) text
  | .ingestReprocess => decoded w.ingestReprocess (fun i => [i.path]) text
  | .transcriptCorrect => decoded w.transcriptCorrect (fun i => [i.path]) text
  | .transcriptSpeakerName => decoded w.transcriptSpeakerName (fun i => [i.path]) text
  | .transcriptSpeakerAssign => decoded w.transcriptSpeakerAssign (fun i => [i.path]) text

def jobListPaths (input : JobListInput) : List String :=
  match jobListState input with
  | .ok _ => [input.path]
  | .error _ => []

def queryPaths (w : Wire) (session : Session) (text : String) : QueryName → List String
  | .capabilitySnapshot | .projectList | .health | .cronPreview => []
  | .projectInspect => decoded w.projectPath (fun i => [i.path]) text
  | .projectVerify => decoded w.projectPath (fun i => [i.path]) text
  | .costRollup => decoded w.costRollup
      (fun i => match i.path with | some path => [path] | none => session.paths) text
  | .jobList => decoded w.jobList jobListPaths text
  | .evidenceList => decoded w.evidenceList (fun i => [i.path]) text
  | .sourceHealth => decoded w.sourceHealth (fun i => [i.path]) text
  | .transcriptGet => decoded w.transcriptGet (fun i => [i.path]) text

theorem reaches_unchanged {session : Session} {p : DirProg π String} (h : Reaches Q p) :
    Reaches Q (unchanged session p) := reaches_bind h (fun _ => reaches_ret _)

theorem reaches_named {path : τ → String} (h : ∀ p ∈ decoded decode (fun i => [path i]) text, Q p)
    (hf : ∀ input, Q (path input) → Reaches Q (f input)) :
    Reaches Q (Prog.bind (Prog.ofExcept (parseInput decode text)) f) := by
  refine reaches_parse ?_
  intro input hi
  exact hf input (h _ (mem_decoded hi (by simp)))

theorem reaches_dispatchCommand (w : Wire) (e : Engine π ι) (u : Surroundings ι)
    (session : Session) (name text : String) (h : ∀ command, CommandName.parse name = some command →
      ∀ path ∈ commandPaths w session text command, Q path) :
    Reaches Q (dispatchCommand w e u session name text) := by
  unfold dispatchCommand
  cases hn : CommandName.parse name with
  | none => exact reaches_throw _
  | some command =>
    have hq := h command hn
    cases command with
    | projectCreate => exact reaches_unchanged (reaches_named hq (fun _ h => reaches_create h))
    | projectExport =>
      refine reaches_unchanged (reaches_parse (fun input hi => ?_))
      exact reaches_exportProject (hq _ (mem_decoded hi (by simp))) (hq _ (mem_decoded hi (by simp)))
    | projectSeedSynthetic =>
      exact reaches_unchanged (reaches_named hq (fun _ h => reaches_seedSynthetic h))
    | projectOpen => exact reaches_named hq (fun _ h => reaches_openProject e u session h)
    | projectClose =>
      refine reaches_parse (fun input hi => ?_)
      exact reaches_closeProject e (hq _ (mem_decoded hi (by simp)))
        (fun path hp => hq _ (mem_decoded hi (by simp [hp])))
    | runStart => exact reaches_unchanged (reaches_named hq (fun _ h => reaches_runStart e h))
    | runResume => exact reaches_unchanged (reaches_named hq (fun _ h => reaches_runResume e h))
    | modelsPull => exact reaches_unchanged (reaches_bind (reaches_ofExcept _)
        (fun _ => reaches_ofExcept _))
    | runCancel | runPause | ingestSubmit | ingestReprocess | transcriptCorrect
    | transcriptSpeakerName | transcriptSpeakerAssign =>
      exact reaches_unchanged (reaches_named hq (fun _ h => reaches_onLog h _))

theorem reaches_dispatchQuery (w : Wire) (e : Engine π ι) (u : Surroundings ι)
    (session : Session) (name text : String) (h : ∀ query, QueryName.parse name = some query →
      ∀ path ∈ queryPaths w session text query, Q path) :
    Reaches Q (dispatchQuery w e u session name text) := by
  unfold dispatchQuery
  cases hn : QueryName.parse name with
  | none => exact reaches_throw _
  | some query =>
    have hq := h query hn
    cases query with
    | capabilitySnapshot => exact reaches_ret _
    | projectList | health => exact reaches_ofExcept _
    | cronPreview => exact reaches_bind (reaches_ofExcept _) (fun _ => reaches_ofExcept _)
    | costRollup =>
      refine reaches_parse (fun input hi => reaches_costRollup e ?_ ?_)
      · intro path hp
        exact hq path (mem_decoded hi (by simp [hp]))
      · intro hnone path hp
        exact hq path (mem_decoded hi (by simpa [hnone] using hp))
    | jobList =>
      refine reaches_parse (fun input hi => reaches_jobList ?_)
      intro state hs
      exact hq _ (mem_decoded hi (by simp [jobListPaths,hs]))
    | projectInspect | projectVerify | evidenceList | sourceHealth | transcriptGet =>
      exact reaches_named hq (fun _ h => reaches_onLog h _)

theorem reaches_respondStream (w : Wire) (u : Surroundings ι) (name input_json : String)
    (last_event_id : Option String)
    (h : ∀ input, w.runSteps input_json = .ok input → Q input.path) :
    Reaches Q (respondStream w u name input_json last_event_id : DirProg π Reply) := by
  refine reaches_bind (reaches_ofExcept _) ?_
  intro cursor
  cases StreamName.parse name with
  | none => exact reaches_throw _
  | some stream =>
    refine reaches_parse ?_
    intro input hi
    have hq := h input hi
    refine reaches_bind (reaches_bind (reaches_openLog hq) (fun _ => reaches_bind
      (reaches_visit hq _) (fun _ => reaches_ofExcept _))) ?_
    intro frames
    refine reaches_bind (reaches_bind (reaches_visit hq _) ?_) (fun _ => reaches_ret _)
    intro opened
    cases opened with
    | error e => exact reaches_ret _
    | ok _ => exact reaches_followLoop hq _ _

theorem dispatchCommand_session (w : Wire) (e : Engine π ι) (u : Surroundings ι)
    (session : Session) (name text : String) :
    (dispatchCommand w e u session name text).Yields (fun out => ∀ path ∈ out.1.paths,
      path ∈ session.paths ∨ (CommandName.parse name = some .projectOpen ∧
        path ∈ commandPaths w session text .projectOpen)) := by
  have hsame : ∀ p : DirProg π String, (unchanged session p).Yields (fun out =>
      ∀ path ∈ out.1.paths, path ∈ session.paths ∨ (CommandName.parse name = some .projectOpen ∧
        path ∈ commandPaths w session text .projectOpen)) :=
    fun p => yields_bind (yields_any p) (fun _ _ _ hp => Or.inl hp)
  unfold dispatchCommand
  cases hn : CommandName.parse name with
  | none => trivial
  | some command =>
    rw [hn] at hsame
    cases command with
    | projectOpen =>
      change Prog.Yields _ (Prog.bind (Prog.ofExcept (parseInput w.projectPath text)) _)
      cases hi : parseInput w.projectPath text with
      | error error => trivial
      | ok input =>
        change Prog.Yields _ (openProject e u session input)
        refine yields_bind (yields_any (openLog input.path)) (fun _ _ =>
          yields_bind (yields_any (visit input.path .sessionOpen)) (fun opened _ =>
            yields_bind (yields_any (Prog.ofExcept opened)) (fun opened _ => ?_)))
        dsimp only
        split
        · trivial
        · intro path hp
          obtain ⟨r,hr,rfl⟩ := mem_map.mp hp
          rcases Table.mem_putRow hr with rfl | hr
          · exact Or.inr ⟨rfl,mem_decoded (parseInput_eq_ok hi) (by simp)⟩
          · exact Or.inl (mem_map_of_mem hr)
    | projectClose =>
      change Prog.Yields _ (Prog.bind (Prog.ofExcept (parseInput w.projectPath text)) _)
      cases parseInput w.projectPath text with
      | error error => trivial
      | ok input =>
        change Prog.Yields _ (closeProject e session input)
        refine yields_bind (yields_any (resolved input.path)) (fun wanted _ =>
          yields_bind (yields_any (findResolved wanted session.rows)) (fun found _ => ?_))
        cases found with
        | none => trivial
        | some key =>
          intro path hp
          obtain ⟨r,hr,rfl⟩ := mem_map.mp hp
          exact Or.inl (mem_map_of_mem (mem_of_mem_filter hr))
    | projectCreate | projectExport | projectSeedSynthetic | runStart | runCancel | runPause
    | runResume | modelsPull | ingestSubmit | ingestReprocess | transcriptCorrect
    | transcriptSpeakerName | transcriptSpeakerAssign => exact hsame _

end Reach

end ProjectOS.Api
