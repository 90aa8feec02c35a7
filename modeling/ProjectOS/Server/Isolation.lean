import ProjectOS.Server.Acl
set_option linter.dupNamespace false

/-! The server as a whole: its control database, the project directories and
one session per account, driven by requests of any accounts. -/

namespace ProjectOS.Server
open Lib Api Lib.Prog

structure Server (π ι : Type) where
  data_root : String
  wire : Wire
  /-- `audit_target`: the path an audit row names. -/
  auditTarget : String → String
  engine : Engine π ι

/-- The directories are named by path text; no text the grammar accepts is an alias
of another. -/
structure ServerState (π : Type) where
  control : ControlDb
  disk : String → Option π
  runtimes : Table AccountId Session

inductive Request where
  | command (name body : String)
  | query (name : String) (input : Option String)
  | stream (name : String) (input : Option String) (last_event_id : Option String)

structure Turn (ι : Type) extends Surroundings ι where
  faults : ControlFaults
  audit_fault : Option ApiError
  runtime_fault : Option ApiError

def ACCOUNT_RUNTIME_COUNT_MAX : Nat := 256

def emptyInput : String := "\x7b\x7d"

def runtimeForAccount (runtimes : Table AccountId Session) (account : AccountId)
    (fault : Option ApiError) : Except ApiError Session :=
  match runtimes.get? account with
  | some session => .ok session
  | none =>
    if ACCOUNT_RUNTIME_COUNT_MAX ≤ runtimes.rows.length then
      .error ⟨"control_failure",s!"this process already serves {ACCOUNT_RUNTIME_COUNT_MAX} " ++
        "account runtimes; restart the server or raise the bound deliberately",true⟩
    else match fault with
      | some e => .error e
      | none => .ok Table.empty

namespace Server
variable {π ι : Type} (v : Server π ι)

def authorize (control : ControlDb) (account : AccountId) (faults : ControlFaults) :
    Request → Except ApiError Unit
  | .command name body =>
    match CommandName.parse name with
    | none => .error (.unknownCommand name)
    | some command => authorizeCommand faults control v.data_root account v.wire command body
  | .query name input =>
    match QueryName.parse name with
    | none => .error (.unknownQuery name)
    | some query =>
      authorizeQuery faults control v.data_root account v.wire query (input.getD emptyInput)
  | .stream name input _ =>
    match StreamName.parse name with
    | none => .error (.unknownStream name)
    | some stream =>
      authorizeStream faults control v.data_root account v.wire stream (input.getD emptyInput)

def audit (control : ControlDb) (account : AccountId) (t : Turn ι) :
    Request → Except ApiError ControlDb
  | .command name body =>
    match (CommandName.parse name).bind auditedAction with
    | none => .ok control
    | some action =>
      match t.audit_fault with
      | some e => .error e
      | none => .ok (control.audit account action (v.auditTarget body) t.now_ms)
  | .query _ _ => .ok control
  | .stream _ _ _ => .ok control

def route (s : ServerState π) (account : AccountId) (t : Turn ι) (r : Request) :
    ControlDb × Except ApiError Session :=
  match v.authorize s.control account t.faults r with
  | .error e => (s.control,.error e)
  | .ok () =>
    match v.audit s.control account t r with
    | .error e => (s.control,.error e)
    | .ok control => (control,runtimeForAccount s.runtimes account t.runtime_fault)

def operation (session : Session) (u : Surroundings ι) :
    Request → DirProg π (Session × Except ApiError Reply)
  | .command name body => do
    let out ← dispatchCommand v.wire v.engine u session name body
    return (out.1,out.2.map Reply.body)
  | .query name input => do
    let text ← dispatchQuery v.wire v.engine u session name (input.getD emptyInput)
    return (session,.ok (.body text))
  | .stream name input last_event_id => do
    let reply ← respondStream v.wire u name (input.getD emptyInput) last_event_id
    return (session,.ok reply)

def cells : CellMachine (directories π) ι String (Option π) where
  place a := DirAct.path a
  step i a contents := v.engine.visit i a contents

def touched (s : ServerState π) (account : AccountId) (t : Turn ι) (r : Request) : List String :=
  match (v.route s account t r).2 with
  | .error _ => []
  | .ok session => (v.operation session t.toSurroundings r).footprint v.cells t.env 0 s.disk

def handle (s : ServerState π) (account : AccountId) (t : Turn ι) (r : Request) :
    Except ApiError Reply × ServerState π :=
  let routed := v.route s account t r
  match routed.2 with
  | .error e => (.error e,{ s with control := routed.1 })
  | .ok session =>
    let out := (v.operation session t.toSurroundings r).run v.cells.toMachine t.env 0 s.disk
    match out.1 with
    | .error e => (.error e,⟨routed.1,out.2.2,s.runtimes.put account session⟩)
    | .ok (session',reply) => (reply,⟨routed.1,out.2.2,s.runtimes.put account session'⟩)

/-- What can happen to a server; background workers and other processes change
directories too. -/
inductive Move (π ι : Type) where
  | signup (account : AccountId) (workspace : WorkspaceId) (email : String)
  | grant (workspace : WorkspaceId) (account : AccountId) (role : Role)
  | request (account : AccountId) (t : Turn ι) (r : Request)
  | directory (path : String) (contents : Option π)
  | restart

def step (s : ServerState π) : Move π ι → ServerState π
  | .signup account workspace email =>
    match s.control.createAccount account workspace email with
    | .error _ => s
    | .ok control => { s with control := control }
  | .grant workspace account role =>
    match s.control.grantMembership workspace account role with
    | .error _ => s
    | .ok control => { s with control := control }
  | .request account t r => (v.handle s account t r).2
  | .directory path contents => { s with disk := Function.update s.disk path contents }
  | .restart => { s with runtimes := Table.empty }

def run (disk : String → Option π) (moves : List (Move π ι)) : ServerState π :=
  moves.foldl v.step ⟨ControlDb.initial,disk,Table.empty⟩

end Server

def Request.access : Request → Access
  | .command name _ => ((CommandName.parse name).map commandAccess).getD .mutate
  | .query _ _ => .read
  | .stream _ _ _ => .read

section Sessions
variable {π ι : Type} (v : Server π ι)

def SessionsPermitted (s : ServerState π) : Prop :=
  ∀ account session, s.runtimes.get? account = some session →
    ∀ path ∈ session.paths, Permitted v.data_root s.control account .read path

variable {account : AccountId}

theorem permitted_extends {data_root : String} {c c' : ControlDb} {path : String}
    (hc : c.Extends c') (h : Permitted data_root c account .read path) :
    Permitted data_root c' account .read path := by
  obtain ⟨workspace,held,hin,hrole,_⟩ := h
  have hsome := hc workspace account (by rw [hrole]; rfl)
  obtain ⟨held',hrole'⟩ := Option.isSome_iff_exists.mp hsome
  exact ⟨workspace,held',hin,hrole',Nat.zero_le _⟩

variable {s : ServerState π} {control : ControlDb} {disk : String → Option π}

theorem sessions_extends (hc : s.control.Extends control)
    (h : SessionsPermitted v s) : SessionsPermitted v ⟨control,disk,s.runtimes⟩ := by
  intro account session hs path hp
  exact permitted_extends hc (h account session hs path hp)

variable {session : Session}

theorem sessions_put (hc : s.control.Extends control) (h : SessionsPermitted v s)
    (hs : ∀ path ∈ session.paths, Permitted v.data_root s.control account .read path) :
    SessionsPermitted v ⟨control,disk,s.runtimes.put account session⟩ := by
  intro other found hget path hp
  rw [Table.get?_put] at hget
  split_ifs at hget with ho
  · cases hget
    subst ho
    exact permitted_extends hc (hs path hp)
  · exact permitted_extends hc (h other found hget path hp)

variable {t : Turn ι} {r : Request}

theorem audit_extends {control' : ControlDb} (h : v.audit control account t r = .ok control') :
    control.Extends control' := by
  cases r with
  | command name body =>
    simp only [Server.audit] at h
    split at h
    · cases h
      exact ControlDb.extends_refl _
    · split at h
      · cases h
      · cases h
        exact fun _ _ hrole => hrole
  | query | stream =>
    cases h
    exact ControlDb.extends_refl _

theorem route_extends (s : ServerState π) (account : AccountId) (t : Turn ι) (r : Request) :
    s.control.Extends (v.route s account t r).1 := by
  unfold Server.route
  split
  · exact ControlDb.extends_refl _
  · split
    · exact ControlDb.extends_refl _
    · rename_i control ha
      exact audit_extends v ha

theorem route_eq_ok (h : (v.route s account t r).2 = .ok session) :
    v.authorize s.control account t.faults r = .ok () ∧
    (s.runtimes.get? account = some session ∨ session = Table.empty) := by
  unfold Server.route at h
  split at h
  · cases h
  · rename_i hauth
    refine ⟨hauth,?_⟩
    split at h
    · cases h
    · simp only [runtimeForAccount] at h
      split at h
      · rename_i found hf
        cases h
        exact Or.inl hf
      · split_ifs at h
        split at h
        · cases h
        · cases h
          exact Or.inr rfl

theorem routed_session (hs : SessionsPermitted v s) (h : (v.route s account t r).2 = .ok session) :
    ∀ path ∈ session.paths, Permitted v.data_root s.control account .read path := by
  rcases (route_eq_ok v h).2 with hget | rfl
  · exact hs account session hget
  · simp [Session.paths,Table.empty]

theorem operation_session (hs : SessionsPermitted v s)
    (h : (v.route s account t r).2 = .ok session) :
    (v.operation session t.toSurroundings r).Yields (fun out => ∀ path ∈ out.1.paths,
      Permitted v.data_root s.control account .read path) := by
  have hold := routed_session v hs h
  cases r with
  | command name body =>
    refine yields_bind (dispatchCommand_session v.wire v.engine t.toSurroundings session name
      body) ?_
    intro out hout path hp
    rcases hout path hp with hp | ⟨hn,hp⟩
    · exact hold path hp
    · have hauth := (route_eq_ok v h).1
      simp only [Server.authorize,hn] at hauth
      exact authorizeCommand_permitted hauth hold path hp
  | query | stream =>
    exact yields_bind (yields_any _) (fun _ _ => hold)

theorem handle_refused {e : ApiError} (h : (v.route s account t r).2 = .error e) :
    v.handle s account t r = (.error e,⟨(v.route s account t r).1,s.disk,s.runtimes⟩) := by
  simp only [Server.handle,h]

theorem handle_dispatched (h : (v.route s account t r).2 = .ok session) :
    v.handle s account t r =
      let out := (v.operation session t.toSurroundings r).run v.cells.toMachine t.env 0 s.disk
      match out.1 with
      | .error e => (.error e,⟨(v.route s account t r).1,out.2.2,s.runtimes.put account session⟩)
      | .ok (session',reply) =>
        (reply,⟨(v.route s account t r).1,out.2.2,s.runtimes.put account session'⟩) := by
  simp only [Server.handle,h]

theorem handle_sessions (hs : SessionsPermitted v s) (account : AccountId) (t : Turn ι)
    (r : Request) : SessionsPermitted v (v.handle s account t r).2 := by
  have hc := route_extends v s account t r
  cases hroute : (v.route s account t r).2 with
  | error e =>
    rw [handle_refused v hroute]
    exact sessions_extends v hc hs
  | ok session =>
    have hold := routed_session v hs hroute
    have hends := operation_session v hs hroute
    rw [handle_dispatched v hroute]
    dsimp only
    split
    · exact sessions_put v hc hs hold
    · rename_i session' reply hrun
      exact sessions_put v hc hs (yields_run hends _ _ _ _ hrun)

theorem step_sessions (hs : SessionsPermitted v s) (m : Server.Move π ι) :
    SessionsPermitted v (v.step s m) := by
  cases m with
  | signup account workspace email =>
    simp only [Server.step]
    split
    · exact hs
    · rename_i control hc
      exact sessions_extends v (ControlDb.createAccount_extends hc) hs
  | grant workspace account role =>
    simp only [Server.step]
    split
    · exact hs
    · rename_i control hc
      exact sessions_extends v (ControlDb.grantMembership_extends hc) hs
  | request account t r => exact handle_sessions v hs account t r
  | directory path contents => exact sessions_extends v (ControlDb.extends_refl _) hs
  | restart =>
    intro account session hget
    simp [Server.step] at hget

theorem run_sessions (disk : String → Option π) (moves : List (Server.Move π ι)) :
    SessionsPermitted v (v.run disk moves) := by
  induction moves using List.reverseRecOn with
  | nil =>
    intro account session hget
    simp [Server.run] at hget
  | append_singleton moves m ih =>
    rw [Server.run,List.foldl_append]
    exact step_sessions v ih m

end Sessions

section Isolation
variable {π ι : Type} (v : Server π ι)

/-- A well-formed `job.list` of a directory outside every workspace, or in one where
the account holds no role. -/
def UncheckedJobList (control : ControlDb) (account : AccountId) : Request → Prop
  | .query name input => QueryName.parse name = some .jobList ∧
      ∃ i state, v.wire.jobList (input.getD emptyInput) = .ok i ∧ jobListState i = .ok state ∧
        ¬ Permitted v.data_root control account .read i.path
  | .command _ _ => False
  | .stream _ _ _ => False

def DiffersElsewhere (account : AccountId) (s s' : ServerState π) : Prop :=
  s'.control = s.control ∧ s'.runtimes = s.runtimes ∧
  ∀ path, s.disk path = s'.disk path ∨ ∃ workspace, InWorkspace v.data_root path workspace ∧
    s.control.roleInWorkspace workspace account = none

theorem inWorkspace_unique {data_root path : String} {a b : WorkspaceId}
    (ha : InWorkspace data_root path a) (hb : InWorkspace data_root path b) : a = b := by
  have h := parsePlacement_eq_ok.mpr ha
  rw [parsePlacement_eq_ok.mpr hb] at h
  cases h
  rfl

variable {account : AccountId} {s : ServerState π} {s' : ServerState π}

theorem differsElsewhere_agree (h : DiffersElsewhere v account s s')
    {access : Access} {path : String} (hp : Permitted v.data_root s.control account access path) :
    s.disk path = s'.disk path := by
  rcases h.2.2 path with heq | ⟨workspace,hin,hnone⟩
  · exact heq
  · obtain ⟨mine,held,hmine,hrole,_⟩ := hp
    rw [inWorkspace_unique hmine hin,hnone] at hrole
    cases hrole

variable {t : Turn ι} {r : Request} {session : Session}

theorem operation_reaches (hs : SessionsPermitted v s)
    (h : (v.route s account t r).2 = .ok session) (hj : ¬ UncheckedJobList v s.control account r) :
    Reaches (Permitted v.data_root s.control account r.access)
      (v.operation session t.toSurroundings r) := by
  have hauth := (route_eq_ok v h).1
  have hold := routed_session v hs h
  cases r with
  | command name body =>
    refine reaches_bind (reaches_dispatchCommand _ _ _ _ _ _ ?_) (fun _ => reaches_ret _)
    intro command hn path hp
    simp only [Server.authorize,hn] at hauth
    simpa [Request.access,hn] using authorizeCommand_permitted hauth hold path hp
  | query name input =>
    refine reaches_bind (reaches_dispatchQuery _ _ _ _ _ _ ?_) (fun _ => reaches_ret _)
    intro query hn path hp
    simp only [Server.authorize,hn] at hauth
    by_cases hq : query = .jobList
    · subst hq
      -- the policy said nothing about this path: what is left is the condition
      simp only [UncheckedJobList,hn,true_and,not_exists,not_and,not_not] at hj
      cases hi : v.wire.jobList (input.getD emptyInput) with
      | error e => simp [queryPaths,decoded,hi] at hp
      | ok i =>
        rw [queryPaths,mem_decoded_iff hi,jobListPaths] at hp
        cases hst : jobListState i with
        | error e => simp [hst] at hp
        | ok state =>
          simp only [hst,List.mem_singleton] at hp
          exact hp ▸ hj i state hi hst
    · exact authorizeQuery_permitted hauth hq hold path hp
  | stream name input last_event_id =>
    refine reaches_bind (reaches_respondStream _ _ _ _ _ ?_) (fun _ => reaches_ret _)
    intro i hi
    cases hn : StreamName.parse name with
    | none =>
      simp only [Server.authorize,hn] at hauth
      cases hauth
    | some stream =>
      simp only [Server.authorize,hn] at hauth
      obtain ⟨j,hj,hperm⟩ := authorized_named hauth
      rw [hi] at hj
      cases hj
      exact hperm

theorem touched_permitted (hs : SessionsPermitted v s) (account : AccountId) (t : Turn ι)
    (hj : ¬ UncheckedJobList v s.control account r) :
    ∀ path ∈ v.touched s account t r, Permitted v.data_root s.control account r.access path := by
  unfold Server.touched
  cases hroute : (v.route s account t r).2 with
  | error e => simp
  | ok session => exact footprint_within v.cells t.env (operation_reaches v hs hroute hj) 0 s.disk

theorem jobList_touches {name : String} {input : Option String}
    {i : JobListInput} {state : Option Domain.JobDurableState}
    (h : (v.route s account t (.query name input)).2 = .ok session)
    (hn : QueryName.parse name = some .jobList)
    (hi : v.wire.jobList (input.getD emptyInput) = .ok i) (hst : jobListState i = .ok state) :
    i.path ∈ v.touched s account t (.query name input) := by
  have hparse : parseInput v.wire.jobList (input.getD emptyInput) = .ok i := by
    simp [parseInput,hi]
  simp only [Server.touched,h,Server.operation,dispatchQuery,hn,hparse,jobList,bind_eq,
    ofExcept_ok,ret_bind,hst]
  exact List.mem_cons_self

theorem route_congr (h : DiffersElsewhere v account s s') :
    v.route s' account t r = v.route s account t r := by
  unfold Server.route
  rw [h.1,h.2.1]

theorem handle_reply_congr (hs : SessionsPermitted v s)
    (hj : ¬ UncheckedJobList v s.control account r) (h : DiffersElsewhere v account s s') :
    (v.handle s' account t r).1 = (v.handle s account t r).1 := by
  have hrc : v.route s' account t r = v.route s account t r := route_congr v h
  cases hroute : (v.route s account t r).2 with
  | error e =>
    have hroute' : (v.route s' account t r).2 = .error e := by rw [hrc,hroute]
    rw [handle_refused v hroute,handle_refused v hroute']
  | ok session =>
    have hroute' : (v.route s' account t r).2 = .ok session := by rw [hrc,hroute]
    have hagree : ∀ x ∈ (v.operation session t.toSurroundings r).footprint v.cells t.env 0 s.disk,
        s.disk x = s'.disk x := fun x hx => differsElsewhere_agree v h
      (footprint_within v.cells t.env (operation_reaches v hs hroute hj) 0 s.disk x hx)
    have hrun := (run_agree v.cells t.env _ 0 hagree).1
    rw [handle_dispatched v hroute,handle_dispatched v hroute']
    dsimp only
    rw [hrun]
    cases ((v.operation session t.toSurroundings r).run v.cells.toMachine t.env 0 s.disk).1 with
    | error | ok => rfl

/-- A dispatched request works only in workspaces where its account holds a role
sufficient for it exactly when it is no `job.list` of a directory the account may not
read; and then its reply tells nothing of workspaces where the account has no role. -/
theorem dispatched_stays_in_workspaces (disk : String → Option π)
    (moves : List (Server.Move π ι)) (account : AccountId) (t : Turn ι) (r : Request) :
    (∀ session, (v.route (v.run disk moves) account t r).2 = .ok session →
      ((∀ path ∈ v.touched (v.run disk moves) account t r,
          Permitted v.data_root (v.run disk moves).control account r.access path) ↔
        ¬ UncheckedJobList v (v.run disk moves).control account r)) ∧
    (¬ UncheckedJobList v (v.run disk moves).control account r →
      ∀ s', DiffersElsewhere v account (v.run disk moves) s' →
        (v.handle s' account t r).1 = (v.handle (v.run disk moves) account t r).1) := by
  have hs := run_sessions v disk moves
  constructor
  · intro session hroute
    constructor
    · intro hall hj
      cases r with
      | command name body => exact hj
      | stream name input last_event_id => exact hj
      | query name input =>
        obtain ⟨hn,i,state,hi,hst,hdeny⟩ := hj
        exact hdeny (hall _ (jobList_touches v hroute hn hi hst))
    · exact touched_permitted v hs account t
  · intro hj s' hdiff
    exact handle_reply_congr v hs hj hdiff

end Isolation

namespace JobListDemo

def secret : String := "/srv/pos-data/workspaces/00000000000000000000000000000002/plan.pos"

def secretInput : String := "\x7b\"path\":\"" ++ secret ++ "\"\x7d"

def undecoded {τ : Type} : String → Except String τ := fun _ => .error "expected value at line 1"

def wire : Wire where
  projectCreate := undecoded
  projectPath := undecoded
  projectExport := undecoded
  projectSeed := undecoded
  runStart := undecoded
  runControl := undecoded
  runResume := undecoded
  runSteps := undecoded
  modelsPull := undecoded
  ingestSubmit := undecoded
  ingestReprocess := undecoded
  transcriptCorrect := undecoded
  transcriptSpeakerName := undecoded
  transcriptSpeakerAssign := undecoded
  costRollup := undecoded
  jobList text := if text = secretInput then .ok ⟨secret,none,none⟩ else undecoded text
  cronPreview := undecoded
  evidenceList := undecoded
  sourceHealth := undecoded
  transcriptGet := undecoded

def noJobs : String := "\x7b\"jobs\":[],\"queuedCount\":0,\"doneCount\":0,\"deadCount\":0," ++
  "\"rowCountMax\":50\x7d"

def notAProject (path : String) : ApiError :=
  ⟨"not_a_project",path ++ " is not a project: manifest.json is missing",false⟩

def answer (path : String) (contents : Option Unit) : (call : DirCall Unit) → call.Resp
  | .exists => contents.isSome
  | .canonicalize => path
  | .openLog => if contents.isSome then .ok () else .error (notAProject path)
  | .work (.jobList _ _) => .ok noJobs
  | .work _
  | .sessionOpen => .error (notAProject path)
  | .costRows => .ok []
  | .runResume _ => .error (notAProject path)
  | .echoWorker => .ok ()
  | .durableFrames _ _ => .ok []
  | .atHead _ _ => .ok true
  | .copyOut => .ok ()
  | .writeCopy _ => .error (notAProject path)

def engine : Engine Unit Unit where
  visit _ a contents := (answer a.path contents a.call,contents)
  validateEcho := .ok ()
  capabilitySnapshot := ""
  health _ _ := .ok ""
  cronPreview _ _ := .ok ""
  modelsPull _ _ := .ok ""
  rowJson _ := .ok ""
  listJson _ := .ok ""
  closeJson _ _ _ := .ok ""
  costReport _ _ _ := .ok ""

def server : Server Unit Unit := ⟨"/srv/pos-data",wire,fun _ => "-",engine⟩

def visitor : AccountId := ⟨1⟩

def proprietor : AccountId := ⟨2⟩

def moves : List (Server.Move Unit Unit) :=
  [.signup visitor ⟨1⟩ "visitor@example.org",.signup proprietor ⟨2⟩ "proprietor@example.org"]

def disk : String → Option Unit := fun path => if path = secret then some () else none

def other : String := "/srv/pos-data/workspaces/00000000000000000000000000000001/a.pos"

def turn : Turn Unit := ⟨⟨0,(),fun _ => (),none,0⟩,ControlFaults.clear,none,none⟩

def request : Request := .query "job.list" (some secretInput)

theorem secret_placed : InWorkspace "/srv/pos-data" secret ⟨2⟩ :=
  parsePlacement_eq_ok.mp (by decide)

theorem proprietor_permitted :
    Permitted "/srv/pos-data" (server.run disk moves).control proprietor .read secret :=
  ⟨⟨2⟩,.owner,secret_placed,by decide,by decide⟩

theorem visitor_denied :
    ¬ Permitted "/srv/pos-data" (server.run disk moves).control visitor .read secret := by
  rintro ⟨workspace,held,hin,hrole,_⟩
  rw [inWorkspace_unique hin secret_placed] at hrole
  have hnone : (server.run disk moves).control.roleInWorkspace ⟨2⟩ visitor = none := by
    decide
  rw [hnone] at hrole
  cases hrole

end JobListDemo

open JobListDemo in
theorem dispatched_stays_in_workspaces_demo :
    (∀ path ∈ server.touched (server.run disk moves) proprietor turn request,
      Permitted "/srv/pos-data" (server.run disk moves).control proprietor .read path) ∧
    (server.handle { server.run disk moves with disk := Function.update disk other (some ()) }
      proprietor turn request).1 =
      (server.handle (server.run disk moves) proprietor turn request).1 := by
  have hj : ¬ UncheckedJobList server (server.run disk moves).control proprietor request := by
    rintro ⟨_,i,state,hi,_,hdeny⟩
    have hpath : wire.jobList secretInput = .ok ⟨secret,none,none⟩ := by simp [wire]
    have hsame : wire.jobList secretInput = .ok i := hi
    rw [hpath] at hsame
    cases hsame
    exact hdeny proprietor_permitted
  have h := dispatched_stays_in_workspaces server disk moves proprietor turn request
  refine ⟨(h.1 Table.empty rfl).mpr hj,h.2 hj _ ⟨rfl,rfl,?_⟩⟩
  intro path
  by_cases hp : path = other
  · refine Or.inr ⟨⟨1⟩,?_,by decide⟩
    rw [hp]
    exact parsePlacement_eq_ok.mp (by decide)
  · left
    exact (Function.update_of_ne hp _ disk).symm

open JobListDemo in
/-- A visitor's `job.list` opens the proprietor's project and its reply tells
whether that project exists. -/
theorem job_list_reads_any_project :
    (server.route (server.run disk moves) visitor turn request).2 = .ok Table.empty ∧
    secret ∈ server.touched (server.run disk moves) visitor turn request ∧
    ¬ Permitted "/srv/pos-data" (server.run disk moves).control visitor .read secret ∧
    (server.handle (server.run disk moves) visitor turn request).1 = .ok (.body noJobs) ∧
    (server.handle (server.run (fun _ => none) moves) visitor turn request).1 =
      .error (notAProject secret) := by
  refine ⟨rfl,by decide,visitor_denied,by decide,by decide⟩

end ProjectOS.Server
