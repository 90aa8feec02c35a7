import ProjectOS.Server.Isolation
import ProjectOS.Sched.Runs

/-! Who appends to a project's log. Besides its requests, every account's
runtime has workers of its own, which go on in the projects it has opened. -/

namespace ProjectOS.Api
open Lib

def ProjectWork.reads : ProjectWork → Bool
  | .inspect | .verify | .jobList _ _ | .evidenceList _ | .sourceHealth _ | .transcriptGet _ => true
  | _ => false

def DirCall.reads {π : Type} : DirCall π → Bool
  | .work op => op.reads
  | .runResume _ | .echoWorker | .writeCopy _ => false
  | _ => true

section
variable {π ι α β : Type}

def Looks (p : DirProg π α) : Prop := p.Within fun a : DirAct π => a.call.reads = true

theorem looks_bind {p : DirProg π α} {f : α → DirProg π β} (hp : Looks p)
    (hf : ∀ a, Looks (f a)) : Looks (p.bind f) := Prog.within_bind hp hf

theorem looks_ret (a : α) : Looks (.ret a : DirProg π α) := trivial

theorem looks_throw (e : ApiError) : Looks (.throw e : DirProg π α) := trivial

theorem looks_ofExcept (x : Except ApiError α) : Looks (Prog.ofExcept x : DirProg π α) :=
  Prog.within_ofExcept x

theorem looks_visit {call : DirCall π} (h : call.reads = true) (path : String) :
    Looks (visit path call) := ⟨h,fun _ => trivial⟩

theorem looks_openLog (path : String) : Looks (openLog path : DirProg π Unit) :=
  looks_bind (looks_visit rfl path) fun _ => looks_ofExcept _

theorem looks_onLog {op : ProjectWork} (h : op.reads = true) (path : String) :
    Looks (onLog path op : DirProg π String) := by
  have hcall : (DirCall.work op : DirCall π).reads = true := h
  exact looks_bind (looks_openLog path) fun _ => looks_bind (looks_visit hcall path) fun _ =>
    looks_ofExcept _

theorem looks_jobList (input : JobListInput) : Looks (jobList input : DirProg π String) := by
  refine looks_bind (looks_ofExcept _) fun _ => looks_onLog rfl _

variable (e : Engine π ι)

theorem looks_costRollup (session : Session) (input : CostRollupInput) :
    Looks (costRollup e session input) := by
  have hone : ∀ rows path, Looks (rollupOneProject rows path : DirProg π (List CostRollupRow)) :=
    fun rows path => looks_bind (looks_openLog path) fun _ =>
      looks_bind (looks_visit rfl path) fun _ => looks_bind (looks_ofExcept _) fun _ => looks_ret _
  have hall : ∀ paths : List String,
      Looks (paths.foldlM rollupOneProject [] : DirProg π (List CostRollupRow)) :=
    fun paths => Prog.within_foldlM paths rollupOneProject (fun rows path _ => hone rows path) []
  unfold costRollup
  cases input.path with
  | none | some => exact looks_bind (hall _) fun _ => looks_ofExcept _

theorem looks_openProject (u : Surroundings ι) (session : Session) (input : ProjectPathInput) :
    Looks (openProject e u session input) := by
  refine looks_bind (looks_openLog _) fun _ => looks_bind (looks_visit rfl _) fun _ =>
    looks_bind (looks_ofExcept _) fun opened => ?_
  dsimp only
  split
  · exact looks_throw _
  · exact looks_ret _

theorem looks_findResolved (wanted : String) (rows : List (ProjectId × OpenProjectRow)) :
    Looks (findResolved wanted rows : DirProg π (Option ProjectId)) := by
  induction rows with
  | nil => exact looks_ret _
  | cons r rest ih =>
    obtain ⟨key,row⟩ := r
    refine looks_bind (looks_visit rfl _) fun path => ?_
    split
    · exact looks_ret _
    · exact ih

theorem looks_closeProject (session : Session) (input : ProjectPathInput) :
    Looks (closeProject e session input) := by
  refine looks_bind (looks_visit rfl _) fun wanted => looks_bind (looks_findResolved _ _) ?_
  intro found
  cases found with
  | none => exact looks_throw _
  | some key => exact looks_ret _

theorem looks_followLoop (input : RunStepsInput) (polls : Nat) (cursor : Option Nat) : Looks
    (followLoop input polls cursor : DirProg π (List StreamFrame × Option ApiError)) := by
  induction polls generalizing cursor with
  | zero => exact looks_ret _
  | succ polls ih =>
    refine looks_bind (looks_visit rfl _) ?_
    intro polled
    cases polled with
    | error error => exact looks_ret _
    | ok frames =>
      refine looks_bind (looks_visit rfl _) ?_
      intro ended
      cases ended with
      | error error => exact looks_ret _
      | ok ended =>
        cases ended with
        | true => exact looks_ret _
        | false => exact looks_bind (ih _) fun _ => looks_ret _

theorem looks_dispatchQuery (w : Wire) (e : Engine π ι) (u : Surroundings ι) (session : Session)
    (name text : String) : Looks (dispatchQuery w e u session name text) := by
  unfold dispatchQuery
  cases QueryName.parse name with
  | none => exact looks_throw _
  | some query =>
    cases query with
    | capabilitySnapshot => exact looks_ret _
    | projectList | health => exact looks_ofExcept _
    | cronPreview => exact looks_bind (looks_ofExcept _) fun _ => looks_ofExcept _
    | costRollup => exact looks_bind (looks_ofExcept _) fun _ => looks_costRollup e session _
    | jobList => exact looks_bind (looks_ofExcept _) fun _ => looks_jobList _
    | projectInspect | projectVerify | evidenceList | sourceHealth | transcriptGet =>
      exact looks_bind (looks_ofExcept _) fun _ => looks_onLog rfl _

theorem looks_respondStream (w : Wire) (u : Surroundings ι) (name input_json : String)
    (last_event_id : Option String) :
    Looks (respondStream w u name input_json last_event_id : DirProg π Reply) := by
  refine looks_bind (looks_ofExcept _) fun cursor => ?_
  cases StreamName.parse name with
  | none => exact looks_throw _
  | some stream =>
    refine looks_bind (looks_ofExcept _) fun input => ?_
    refine looks_bind (looks_bind (looks_openLog _) fun _ => looks_bind (looks_visit rfl _)
      fun _ => looks_ofExcept _) fun frames => ?_
    refine looks_bind (looks_bind (looks_visit rfl _) ?_) fun _ => looks_ret _
    intro opened
    cases opened with
    | error e => exact looks_ret _
    | ok _ => exact looks_followLoop _ _ _

theorem looks_dispatchCommand (w : Wire) (e : Engine π ι) (u : Surroundings ι) (session : Session)
    {name : String} (text : String) (h : CommandName.parse name = some .projectOpen ∨
      CommandName.parse name = some .projectClose) :
    Looks (dispatchCommand w e u session name text) := by
  unfold dispatchCommand
  rcases h with h | h
  · rw [h]
    exact looks_bind (looks_ofExcept _) fun _ => looks_openProject e u session _
  · rw [h]
    exact looks_bind (looks_ofExcept _) fun _ => looks_closeProject e session _

end
end ProjectOS.Api

namespace ProjectOS.Sched
open Lib Domain

def Db.log (db : Db) : Nat × List JobEvent := (db.head,db.facts)

def Uncounted (db : Db) (lease : JobId × LeaseRow) : Prop :=
  ∃ row, db.jobs.get? lease.1 = some row ∧ row.state.isTerminal = false ∧
    countU32 row.attempt_count < countU32 lease.2.attempt_index

def Due (q : JobQueue) (now_ms : Nat) (cron : CronId × CronRow) : Prop :=
  cron.2.enabled = true ∧ ∃ next due, q.schedule cron.2.expr cron.2.tz = .ok next ∧
    dueFiring next (watermarkTsMs cron.2) now_ms = some due

variable (q : JobQueue)

theorem claim_log (project_id : ProjectId) (class_ : JobClass) (worker : WorkerName)
    (env : Nat → QueueInput) (n : Nat) (db : Db) :
    ((claim q project_id class_ worker).after queueMachine env n db).log = db.log := by
  rcases claim_run q project_id class_ worker env n db with ⟨h,_⟩ | ⟨_,_,_,_,_,_,_,_,_,_,_,h⟩
  · rw [Prog.after,h]
  · rw [Prog.after,h]
    rfl

theorem claim_none {q : JobQueue} {project_id : ProjectId} {class_ : JobClass}
    {worker : WorkerName} {env : Nat → QueueInput} {db : Db} {job : ClaimedJob}
    (h : selectClaimable db class_ (env 0).now_ms = none) :
    ((claim q project_id class_ worker).run queueMachine env 0 db).1 ≠ .ok (some job) := by
  simp only [claim,Prog.bind_eq,Prog.run_bind,now_run,claimLease_run,Db.claimLease,h]
  cases (env 1).fault <;> simp

theorem reap_log (env : Nat → QueueInput) (db : Db)
    (h : ∀ lease ∈ readExpiredLeases db (env 0).now_ms, ¬ Uncounted db lease) :
    ((reapExpiredLeases q).after queueMachine env 0 db).log = db.log := by
  let R : Db → Db → Prop := fun s t => s.jobs = db.jobs → t.jobs = db.jobs ∧ t.log = s.log
  have hrefl : ∀ s, R s s := fun s hs => ⟨hs,rfl⟩
  have htrans : ∀ s t u, R s t → R t u → R s u := by
    intro s t u hst htu hs
    obtain ⟨ht,hlog⟩ := hst hs
    exact ⟨(htu ht).1,(htu ht).2.trans hlog⟩
  have hone : ∀ lease ∈ readExpiredLeases db (env 0).now_ms,
      Prog.Keeps queueMachine R (reapLease q (env 0).now_ms lease) := by
    intro lease hmem env n s hs
    rcases reapLease_after q _ lease env n s with ha | ⟨ha,_⟩ | ⟨row,_,hrow,ht,hlt,_⟩
    · rw [ha]
      exact ⟨hs,rfl⟩
    · rw [ha]
      exact ⟨hs,rfl⟩
    · rw [hs] at hrow
      exact absurd ⟨row,hrow,ht,hlt⟩ (h lease hmem)
  have hloop : Prog.Keeps queueMachine R
      ((readExpiredLeases db (env 0).now_ms).foldlM (fun reaped lease => do
        reapLease q (env 0).now_ms lease
        pure (reaped+1)) (0 : Nat)) := by
    refine Prog.keeps_foldlM hrefl htrans _ _ ?_ 0
    intro reaped lease hmem
    exact Prog.keeps_bind htrans (hone lease hmem) fun _ => Prog.keeps_ret hrefl _
  exact (hloop env 2 db rfl).2

theorem tickOne_silent {q : JobQueue} {now_ms : Nat} {cron : CronId × CronRow}
    (h : ¬ Due q now_ms cron) (project_id : ProjectId) (report : CronTickReport) :
    (tickOne q project_id now_ms report cron).Within fun _ => False := by
  unfold tickOne
  split
  · trivial
  · rename_i hon
    split
    · trivial
    · rename_i next hnext
      split
      · trivial
      · rename_i due hdue
        exact absurd ⟨by simpa using hon,next,due,hnext,hdue⟩ h

theorem tick_idle (project_id : ProjectId) (env : Nat → QueueInput) (db : Db)
    (h : ∀ cron ∈ db.crons.rows, ¬ Due q (env 0).now_ms cron) :
    (tick q project_id).after queueMachine env 0 db = db := by
  have hloop := Prog.within_foldlM db.crons.rows (tickOne q project_id (env 0).now_ms)
    (fun report cron hmem => tickOne_silent (h cron hmem) project_id report) ⟨[],0,0,0⟩
  exact Prog.after_silent queueMachine env hloop 2 db

end ProjectOS.Sched

namespace ProjectOS.Server
open Lib Api Domain

/-- A server over directories seen as logs and queues. A visit that only reads
changes nothing. -/
structure LogServer (ι : Type) extends Server Sched.Db ι where
  queue : Sched.JobQueue
  reads_keep : ∀ i (a : DirAct Sched.Db) contents, a.call.reads = true →
    (engine.visit i a contents).2 = contents

/-- A running server: its requests' state, the claimed jobs and the Echo workers,
each with the account whose runtime it is. -/
structure Serving where
  server : ServerState Sched.Db
  jobs : List (AccountId × String × Sched.ClaimedJob)
  echoes : List (AccountId × String)

/-- A pool's work in one project; a stage handler may do anything to its job's
project. -/
inductive PoolOp where
  | claim (project_id : ProjectId) (class_ : JobClass) (worker : Sched.WorkerName)
  | heartbeat (job : Sched.ClaimedJob)
  | handle (job : Sched.ClaimedJob) (contents : Sched.Db)
  | complete (job : Sched.ClaimedJob) (wall_ms : Nat)
  | fail (job : Sched.ClaimedJob) (failure : Sched.JobFailure)
  | reap
  | tick (project_id : ProjectId)

namespace PoolOp
variable (q : Sched.JobQueue) (env : Nat → Sched.QueueInput) (db : Sched.Db)

def exec : PoolOp → Sched.Db
  | .claim project_id class_ worker =>
    (Sched.claim q project_id class_ worker).after Sched.queueMachine env 0 db
  | .heartbeat job => (Sched.heartbeat q job).after Sched.queueMachine env 0 db
  | .handle _ contents => contents
  | .complete job wall_ms => (Sched.complete job wall_ms).after Sched.queueMachine env 0 db
  | .fail job failure => (Sched.fail q job failure).after Sched.queueMachine env 0 db
  | .reap => (Sched.reapExpiredLeases q).after Sched.queueMachine env 0 db
  | .tick project_id => (Sched.tick q project_id).after Sched.queueMachine env 0 db

def claimed : PoolOp → Option Sched.ClaimedJob
  | .claim project_id class_ worker =>
    match ((Sched.claim q project_id class_ worker).run Sched.queueMachine env 0 db).1 with
    | .ok job => job
    | .error _ => none
  | _ => none

def held : PoolOp → Option Sched.ClaimedJob
  | .heartbeat job
  | .handle job _
  | .complete job _
  | .fail job _ => some job
  | _ => none

def released : PoolOp → Option Sched.ClaimedJob
  | .complete job _
  | .fail job _ => some job
  | _ => none

/-- A claim, reap or tick that finds nothing. -/
def FindsNothing : PoolOp → Prop
  | .claim _ class_ _ => Sched.selectClaimable db class_ (env 0).now_ms = none
  | .reap => ∀ lease ∈ Sched.readExpiredLeases db (env 0).now_ms, ¬ Sched.Uncounted db lease
  | .tick _ => ∀ cron ∈ db.crons.rows, ¬ Sched.Due q (env 0).now_ms cron
  | _ => True

theorem exec_log {op : PoolOp} (hheld : op.held = none) (h : op.FindsNothing q env db) :
    (op.exec q env db).log = db.log := by
  cases op with
  | claim project_id class_ worker => exact Sched.claim_log q project_id class_ worker env 0 db
  | reap => exact Sched.reap_log q env db h
  | tick project_id => exact congrArg Sched.Db.log (Sched.tick_idle q project_id env db h)
  | heartbeat | handle | complete | fail => cases hheld

theorem claimed_none {op : PoolOp} (h : op.FindsNothing q env db) :
    op.claimed q env db = none := by
  cases op with
  | claim project_id class_ worker =>
    simp only [claimed]
    split
    · rename_i job hrun
      cases job with
      | none => rfl
      | some job => exact absurd hrun (Sched.claim_none h)
    · rfl
  | heartbeat | handle | complete | fail | reap | tick => rfl

end PoolOp

def Request.launches (w : Wire) : Request → List String
  | .command name body =>
    match CommandName.parse name with
    | some .runStart => decoded w.runStart (fun i => [i.path]) body
    | some .runResume => decoded w.runResume (fun i => [i.path]) body
    | _ => []
  | .query _ _
  | .stream _ _ _ => []

def IsViewer (data_root : String) (control : ControlDb) (account : AccountId) (path : String) :
    Prop := ∃ workspace, InWorkspace data_root path workspace ∧
  control.roleInWorkspace workspace account = some .viewer

inductive ServingMove (ι : Type) where
  | outside (m : Server.Move Sched.Db ι)
  | pool (account : AccountId) (path : String) (op : PoolOp) (env : Nat → Sched.QueueInput)
  | echo (account : AccountId) (path : String) (contents : Sched.Db)
  | echoEnds (account : AccountId) (path : String)

def ServingMove.actor {ι : Type} : ServingMove ι → Option AccountId
  | .outside (.request account _ _) => some account
  | .outside _ => none
  | .pool account _ _ _
  | .echo account _ _
  | .echoEnds account _ => some account

namespace Serving

def opened (s : Serving) (account : AccountId) : List String :=
  match s.server.runtimes.get? account with
  | some session => session.paths
  | none => []

/-- The pool works in the projects its runtime has open; a claimed job is worked on
whatever happens to its project. -/
def enabled (s : Serving) (account : AccountId) (path : String) (op : PoolOp) : Bool :=
  match op.held with
  | some job => decide ((account,path,job) ∈ s.jobs)
  | none => decide (path ∈ s.opened account)

def log (s : Serving) (path : String) : Option (Nat × List JobEvent) :=
  (s.server.disk path).map Sched.Db.log

end Serving

namespace LogServer
variable {ι : Type} (v : LogServer ι)

def step (s : Serving) : ServingMove ι → Serving
  | .outside (.request account t r) =>
    let echoes := match (v.route s.server account t r).2 with
      | .ok _ => (r.launches v.wire).map fun path => (account,path)
      | .error _ => []
    ⟨(v.handle s.server account t r).2,s.jobs,s.echoes ++ echoes⟩
  | .outside .restart => ⟨v.toServer.step s.server .restart,[],[]⟩
  | .outside m => { s with server := v.toServer.step s.server m }
  | .pool account path op env =>
    match s.server.disk path with
    | none => s
    | some db =>
      if s.enabled account path op then
        { s with
          server := { s.server with
            disk := Function.update s.server.disk path (some (op.exec v.queue env db)) }
          jobs := match op.released with
            | some job => s.jobs.erase (account,path,job)
            | none =>
              s.jobs ++ (op.claimed v.queue env db).toList.map fun job => (account,path,job) }
      else s
  | .echo account path contents =>
    if (account,path) ∈ s.echoes then
      { s with server := { s.server with
          disk := Function.update s.server.disk path (some contents) } }
    else s
  | .echoEnds account path => { s with echoes := s.echoes.erase (account,path) }

def start (disk : String → Option Sched.Db) : Serving :=
  ⟨⟨ControlDb.initial,disk,Table.empty⟩,[],[]⟩

def run (disk : String → Option Sched.Db) (moves : List (ServingMove ι)) : Serving :=
  moves.foldl v.step (start disk)

/-- A viewer's workers find nothing to do, and nobody becomes a viewer of a
workspace where a worker of theirs is at work. -/
def NoWork (s : Serving) : ServingMove ι → Prop
  | .pool account path op env => s.enabled account path op = true →
      IsViewer v.data_root s.server.control account path →
        ∀ db, s.server.disk path = some db → op.FindsNothing v.queue env db
  | .outside (.grant workspace account role) => role = .viewer →
      ∀ path, InWorkspace v.data_root path workspace →
        (∀ job, (account,path,job) ∉ s.jobs) ∧ (account,path) ∉ s.echoes
  | _ => True

def Workless : Serving → List (ServingMove ι) → Prop
  | _, [] => True
  | s, m :: moves => v.NoWork s m ∧ Workless (v.step s m) moves

/-- No session, job or Echo run works for a viewer. -/
structure MembersWork (s : Serving) : Prop where
  sessions : SessionsPermitted v.toServer s.server
  jobs : ∀ account path job, (account,path,job) ∈ s.jobs →
    ¬ IsViewer v.data_root s.server.control account path
  echoes : ∀ account path, (account,path) ∈ s.echoes →
    ¬ IsViewer v.data_root s.server.control account path

variable {path : String} {account : AccountId} {data_root : String}

theorem isViewer_not_permitted {control : ControlDb} (h : IsViewer data_root control account path) :
    ¬ Permitted data_root control account .mutate path := by
  rintro ⟨mine,held,hmine,hheld,hrank⟩
  obtain ⟨workspace,hin,hrole⟩ := h
  rw [inWorkspace_unique hmine hin,hrole] at hheld
  cases hheld
  exact absurd hrank (by decide)

variable {workspace : WorkspaceId} {role : Role} {member : AccountId}

theorem isViewer_put {c c' : ControlDb}
    (hc : c'.membership = Function.update c.membership (workspace,member) (some role.asStr))
    (h : IsViewer data_root c' account path) : IsViewer data_root c account path ∨
      (account = member ∧ role = .viewer ∧ InWorkspace data_root path workspace) := by
  obtain ⟨mine,hin,hrole⟩ := h
  by_cases hk : (mine,account) = (workspace,member)
  · cases hk
    simp only [ControlDb.roleInWorkspace,hc,Function.update_self,Option.bind_some,Role.parse_asStr,
      Option.some.injEq] at hrole
    exact Or.inr ⟨rfl,hrole,hin⟩
  · left
    refine ⟨mine,hin,?_⟩
    simpa [ControlDb.roleInWorkspace,hc,Function.update_of_ne hk] using hrole

theorem isViewer_congr {c c' : ControlDb} (hc : c'.membership = c.membership) (data_root : String)
    (account : AccountId) (path : String) :
    IsViewer data_root c' account path ↔ IsViewer data_root c account path := by
  simp only [IsViewer,ControlDb.roleInWorkspace,hc]

theorem route_membership {π ι : Type} (v : Server π ι) (s : ServerState π) (account : AccountId)
    (t : Turn ι) (r : Request) : (v.route s account t r).1.membership = s.control.membership := by
  unfold Server.route
  split
  · rfl
  · split
    · rfl
    · rename_i control ha
      cases r with
      | command name body =>
        simp only [Server.audit] at ha
        split at ha
        · cases ha
          rfl
        · split at ha
          · cases ha
          · cases ha
            rfl
      | query | stream =>
        cases ha
        rfl

theorem handle_control {π ι : Type} (v : Server π ι) (s : ServerState π) (account : AccountId)
    (t : Turn ι) (r : Request) :
    (v.handle s account t r).2.control = (v.route s account t r).1 := by
  cases hroute : (v.route s account t r).2 with
  | error e => rw [handle_refused v hroute]
  | ok session =>
    rw [handle_dispatched v hroute]
    dsimp only
    split <;> rfl

theorem handle_membership {π ι : Type} (v : Server π ι) (s : ServerState π) (account : AccountId)
    (t : Turn ι) (r : Request) :
    (v.handle s account t r).2.control.membership = s.control.membership := by
  rw [handle_control,route_membership]

theorem access_mutate {name body : String} (h : CommandName.parse name ≠ some .projectOpen)
    (h' : CommandName.parse name ≠ some .projectClose) :
    (Request.command name body).access = .mutate := by
  simp only [Request.access]
  cases hn : CommandName.parse name with
  | none => rfl
  | some command => cases command <;> simp_all [commandAccess]

variable {session : Session}

theorem operation_reads {s : ServerState Sched.Db} (hs : SessionsPermitted v.toServer s)
    {t : Turn ι} {r : Request} (h : (v.route s account t r).2 = .ok session)
    (hview : IsViewer v.data_root s.control account path) :
    (v.operation session t.toSurroundings r).Within
      (fun a : DirAct Sched.Db => a.path = path → a.call.reads = true) := by
  have hlooks : ∀ {α : Type} {p : DirProg Sched.Db α}, Looks p →
      p.Within (fun a : DirAct Sched.Db => a.path = path → a.call.reads = true) := by
    intro α p hp
    refine Prog.within_mono ?_ hp
    intro a ha _
    exact ha
  cases r with
  | query name input =>
    exact hlooks (looks_bind (looks_dispatchQuery _ _ _ _ _ _) fun _ => looks_ret _)
  | stream name input last_event_id =>
    exact hlooks (looks_bind (looks_respondStream _ _ _ _ _) fun _ => looks_ret _)
  | command name body =>
    by_cases hn : CommandName.parse name = some .projectOpen ∨
        CommandName.parse name = some .projectClose
    · exact hlooks (looks_bind (looks_dispatchCommand _ _ _ _ _ hn) fun _ => looks_ret _)
    · simp only [not_or] at hn
      have hreach := operation_reaches v.toServer hs h (fun hj => hj)
      rw [access_mutate hn.1 hn.2] at hreach
      refine Prog.within_mono ?_ hreach
      intro a ha hpath
      exact absurd (hpath ▸ ha) (isViewer_not_permitted hview)

theorem handle_keeps {s : ServerState Sched.Db} (hs : SessionsPermitted v.toServer s)
    (account : AccountId) (t : Turn ι) (r : Request)
    (hview : IsViewer v.data_root s.control account path) :
    (v.handle s account t r).2.disk path = s.disk path := by
  cases hroute : (v.route s account t r).2 with
  | error e => rw [handle_refused v.toServer hroute]
  | ok session =>
    have hcell := Prog.run_cell v.cells t.env
      (Prog.within_mono (fun a ha hp i c => v.reads_keep i a c (ha hp))
        (operation_reads v hs hroute hview)) 0 s.disk
    rw [handle_dispatched v.toServer hroute]
    dsimp only
    split
    · exact hcell
    · exact hcell

theorem launches_permitted {s : ServerState Sched.Db} (hs : SessionsPermitted v.toServer s)
    {t : Turn ι} {r : Request} (h : (v.route s account t r).2 = .ok session) :
    ∀ path ∈ r.launches v.wire, Permitted v.data_root s.control account .mutate path := by
  have hauth := (route_eq_ok v.toServer h).1
  have hold := routed_session v.toServer hs h
  intro path hp
  cases r with
  | query | stream => cases hp
  | command name body =>
    simp only [Request.launches] at hp
    split at hp
    · rename_i hn
      simp only [Server.authorize,hn] at hauth
      exact authorizeCommand_permitted hauth hold path hp
    · rename_i hn
      simp only [Server.authorize,hn] at hauth
      exact authorizeCommand_permitted hauth hold path hp
    · cases hp

variable {s : Serving}

theorem membersWork_disk {disk : String → Option Sched.Db} (h : v.MembersWork s) :
    v.MembersWork { s with server := { s.server with disk := disk } } :=
  ⟨sessions_extends v.toServer (ControlDb.extends_refl _) h.sessions,h.jobs,h.echoes⟩

theorem membersWork_put {server : ServerState Sched.Db}
    (h : v.MembersWork s) (hs : SessionsPermitted v.toServer server)
    (hc : server.control.membership =
      Function.update s.server.control.membership (workspace,member) (some role.asStr))
    (hidle : role = .viewer → ∀ path, InWorkspace v.data_root path workspace →
      (∀ job, (member,path,job) ∉ s.jobs) ∧ (member,path) ∉ s.echoes) :
    v.MembersWork { s with server := server } := by
  refine ⟨hs,?_,?_⟩
  · intro account path job hmem hview
    rcases isViewer_put hc hview with hold | ⟨rfl,hrole,hin⟩
    · exact h.jobs account path job hmem hold
    · exact (hidle hrole path hin).1 job hmem
  · intro account path hmem hview
    rcases isViewer_put hc hview with hold | ⟨rfl,hrole,hin⟩
    · exact h.echoes account path hmem hold
    · exact (hidle hrole path hin).2 hmem

theorem createAccount_membership {c c' : ControlDb} {email : String}
    (h : c.createAccount account workspace email = .ok c') : c'.membership =
      Function.update c.membership (workspace,account) (some Role.owner.asStr) := by
  unfold ControlDb.createAccount at h
  split_ifs at h
  cases h
  rfl

theorem grantMembership_membership {c c' : ControlDb}
    (h : c.grantMembership workspace account role = .ok c') :
    c'.membership = Function.update c.membership (workspace,account) (some role.asStr) := by
  unfold ControlDb.grantMembership at h
  split_ifs at h
  cases h
  rfl

theorem membersWork_outside (h : v.MembersWork s) (m : Server.Move Sched.Db ι)
    (hm : v.NoWork s (.outside m)) : v.MembersWork (v.step s (.outside m)) := by
  have hs := step_sessions v.toServer h.sessions m
  cases m with
  | signup account workspace email =>
    simp only [step,Server.step] at hs ⊢
    cases hc : s.server.control.createAccount account workspace email with
    | error e => exact h
    | ok control =>
      simp only [hc] at hs ⊢
      exact membersWork_put v h hs (createAccount_membership hc) (fun hrole => by cases hrole)
  | grant workspace account role =>
    simp only [step,Server.step] at hs ⊢
    cases hc : s.server.control.grantMembership workspace account role with
    | error e => exact h
    | ok control =>
      simp only [hc] at hs ⊢
      exact membersWork_put v h hs (grantMembership_membership hc) hm
  | request account t r =>
    have hrole := isViewer_congr (handle_membership v.toServer s.server account t r) v.data_root
    refine ⟨hs,fun a path job hmem hview => h.jobs a path job hmem ((hrole a path).mp hview),?_⟩
    intro a path hmem hview
    have hview' := (hrole a path).mp hview
    rcases List.mem_append.mp hmem with hold | hnew
    · exact h.echoes a path hold hview'
    · cases hroute : (v.route s.server account t r).2 with
      | error e => simp [hroute] at hnew
      | ok session =>
        simp only [hroute,List.mem_map,Prod.mk.injEq] at hnew
        obtain ⟨p,hp,rfl,rfl⟩ := hnew
        exact isViewer_not_permitted hview' (launches_permitted v h.sessions hroute p hp)
  | directory path contents => exact membersWork_disk v h
  | restart => exact ⟨hs,by simp [step],by simp [step]⟩

theorem membersWork_pool (h : v.MembersWork s) (account : AccountId) (path : String) (op : PoolOp)
    (env : Nat → Sched.QueueInput) (hm : v.NoWork s (.pool account path op env)) :
    v.MembersWork (v.step s (.pool account path op env)) := by
  simp only [step]
  cases hdb : s.server.disk path with
  | none => exact h
  | some db =>
    dsimp only
    split
    · rename_i hon
      refine ⟨sessions_extends v.toServer (ControlDb.extends_refl _) h.sessions,?_,h.echoes⟩
      intro a p job hmem
      cases hrel : op.released with
      | some done =>
        simp only [hrel] at hmem
        exact h.jobs a p job (List.mem_of_mem_erase hmem)
      | none =>
        simp only [hrel,List.mem_append,List.mem_map,Option.mem_toList,Prod.mk.injEq] at hmem
        rcases hmem with hold | ⟨new,hnew,rfl,rfl,rfl⟩
        · exact h.jobs a p job hold
        · intro hview
          rw [PoolOp.claimed_none v.queue env db (hm hon hview db hdb)] at hnew
          cases hnew
    · exact h

theorem membersWork_step (h : v.MembersWork s) (m : ServingMove ι) (hm : v.NoWork s m) :
    v.MembersWork (v.step s m) := by
  cases m with
  | outside m => exact membersWork_outside v h m hm
  | pool account path op env => exact membersWork_pool v h account path op env hm
  | echo account path contents =>
    simp only [step]
    split
    · exact membersWork_disk v h
    · exact h
  | echoEnds account path =>
    exact ⟨h.sessions,h.jobs,fun a p hmem => h.echoes a p (List.mem_of_mem_erase hmem)⟩

variable {m : ServingMove ι}

theorem step_log (h : v.MembersWork s) (hm : v.NoWork s m)
    (hactor : m.actor = some account) (hview : IsViewer v.data_root s.server.control account path) :
    (v.step s m).log path = s.log path := by
  cases m with
  | outside m =>
    cases m with
    | request a t r =>
      cases hactor
      exact congrArg (Option.map Sched.Db.log) (handle_keeps v h.sessions account t r hview)
    | signup | grant | directory | restart => cases hactor
  | pool a p op env =>
    cases hactor
    simp only [step]
    cases hdb : s.server.disk p with
    | none => rfl
    | some db =>
      dsimp only
      split
      · rename_i hon
        by_cases hp : path = p
        · subst hp
          have hheld : op.held = none := by
            cases hop : op.held with
            | none => rfl
            | some job =>
              simp only [Serving.enabled,hop,decide_eq_true_eq] at hon
              exact absurd hview (h.jobs account path job hon)
          simp only [Serving.log,Function.update_self,hdb,Option.map_some]
          exact congrArg some (PoolOp.exec_log v.queue env db hheld (hm hon hview db hdb))
        · simp [Serving.log,Function.update_of_ne hp]
      · rfl
  | echo a p contents =>
    cases hactor
    simp only [step]
    split
    · rename_i hmem
      have hp : path ≠ p := by
        rintro rfl
        exact h.echoes account path hmem hview
      simp [Serving.log,Function.update_of_ne hp]
    · rfl
  | echoEnds a p => rfl

theorem membersWork_run (h : v.MembersWork s) {moves : List (ServingMove ι)}
    (hm : v.Workless s moves) : v.MembersWork (moves.foldl v.step s) := by
  induction moves generalizing s with
  | nil => exact h
  | cons m moves ih => exact ih (membersWork_step v h m hm.1) hm.2

theorem membersWork_start (disk : String → Option Sched.Db) :
    v.MembersWork (start disk) := by
  refine ⟨?_,by simp [start],by simp [start]⟩
  intro account session hget
  simp [start] at hget

theorem workless_split {pre post : List (ServingMove ι)}
    (h : v.Workless s (pre ++ m :: post)) : v.Workless s pre ∧ v.NoWork (pre.foldl v.step s) m := by
  induction pre generalizing s with
  | nil => exact ⟨trivial,h.1⟩
  | cons n pre ih =>
    obtain ⟨hpre,hm⟩ := ih h.2
    exact ⟨⟨h.1,hpre⟩,hm⟩

end LogServer

/-- In a run in which no work falls to the runtimes of viewers, no runtime
ever appends to a project in whose workspace its account is a viewer. -/
theorem viewer_reads_only {ι : Type} (v : LogServer ι) (disk : String → Option Sched.Db)
    (moves : List (ServingMove ι)) (hm : v.Workless (LogServer.start disk) moves) :
    ∀ pre m post, moves = pre ++ m :: post → ∀ account, m.actor = some account →
      ∀ path, IsViewer v.data_root (v.run disk pre).server.control account path →
        (v.run disk (pre ++ [m])).log path = (v.run disk pre).log path := by
  intro pre m post hsplit account hactor path hview
  subst hsplit
  obtain ⟨hpre,hnow⟩ := v.workless_split hm
  have hstart := v.membersWork_run (v.membersWork_start disk) hpre
  have hstep := v.step_log hstart hnow hactor hview
  simpa [LogServer.run] using hstep

namespace ViewerDemo
open JobListDemo

def wire : Wire := { JobListDemo.wire with
  projectPath := fun text => if text = secretInput then .ok ⟨secret⟩ else undecoded text }

def answer (path : String) (contents : Option Sched.Db) : (call : DirCall Sched.Db) → call.Resp
  | .exists => contents.isSome
  | .canonicalize => path
  | .openLog => if contents.isSome then .ok () else .error (notAProject path)
  | .work _ => .error (notAProject path)
  | .sessionOpen => .ok ⟨⟨0⟩,none,"blank",1,0⟩
  | .costRows => .ok []
  | .runResume _ => .error (notAProject path)
  | .echoWorker => .ok ()
  | .durableFrames _ _ => .ok []
  | .atHead _ _ => .ok true
  | .copyOut
  | .writeCopy _ => .error (notAProject path)

def engine : Engine Sched.Db Unit where
  visit _ a contents := (answer a.path contents a.call,contents)
  validateEcho := .ok ()
  capabilitySnapshot := ""
  health _ _ := .ok ""
  cronPreview _ _ := .ok ""
  modelsPull _ _ := .ok ""
  rowJson _ := .ok ""
  listJson _ := .ok ""
  closeJson _ _ _ := .ok ""
  costReport _ _ _ := .ok ""

def logServer : LogServer Unit :=
  ⟨⟨"/srv/pos-data",wire,fun _ => "-",engine⟩,Sched.demoQueue,fun _ _ _ _ => rfl⟩

def opening : List (ServingMove Unit) :=
  [.outside (.signup visitor ⟨1⟩ "visitor@example.org"),
   .outside (.signup proprietor ⟨2⟩ "proprietor@example.org"),
   .outside (.grant ⟨2⟩ visitor .viewer),
   .outside (.request visitor turn (.command "project.open" secretInput))]

def claiming : ServingMove Unit :=
  .pool visitor secret (.claim ⟨0⟩ .foreground (Sched.demoWorker Sched.firstSlot)) (Sched.demoAt 1000)

def completing : ServingMove Unit :=
  .pool visitor secret (.complete (Sched.demoClaim Sched.firstSlot 1 1000 1000) 5) (Sched.demoAt 2000)

def emptyQueue : String → Option Sched.Db := fun path =>
  if path = secret then some Sched.Db.empty else none

def oneJob : String → Option Sched.Db := fun path =>
  if path = secret then some ((Sched.enqueue Sched.demoQueue ⟨0⟩ Sched.demoSpec).after
    Sched.queueMachine (Sched.demoAt 0) 0 Sched.Db.empty) else none

theorem visitor_views (disk : String → Option Sched.Db)
    (h : (logServer.run disk opening).server.control.roleInWorkspace ⟨2⟩ visitor = some .viewer) :
    IsViewer logServer.data_root (logServer.run disk opening).server.control visitor secret :=
  ⟨⟨2⟩,secret_placed,h⟩

end ViewerDemo

open ViewerDemo JobListDemo in
theorem viewer_found_nothing :
    (logServer.run emptyQueue (opening ++ [claiming])).log secret =
      (logServer.run emptyQueue opening).log secret := by
  refine viewer_reads_only logServer emptyQueue (opening ++ [claiming]) ?_ opening claiming [] rfl
    visitor rfl secret (visitor_views emptyQueue (by decide))
  refine ⟨trivial,trivial,?_,trivial,?_,trivial⟩
  · intro _ path _
    exact ⟨fun _ => List.not_mem_nil,List.not_mem_nil⟩
  · intro _ _ db hdb
    have hempty : (logServer.run emptyQueue opening).server.disk secret = some Sched.Db.empty := rfl
    obtain rfl : Sched.Db.empty = db := Option.some.inj (hempty.symm.trans hdb)
    rfl

open ViewerDemo JobListDemo in
/-- A viewer opens a project to look at it and its runtime completes the job
queued there. -/
theorem viewer_completed_job :
    ¬∀ (v : LogServer Unit) (disk : String → Option Sched.Db) (moves : List (ServingMove Unit)),
      ∀ pre m post, moves = pre ++ m :: post → ∀ account, m.actor = some account →
        ∀ path, IsViewer v.data_root (v.run disk pre).server.control account path →
          (v.run disk (pre ++ [m])).log path = (v.run disk pre).log path := by
  intro h
  have hview : IsViewer logServer.data_root
      (logServer.run oneJob (opening ++ [claiming])).server.control visitor secret :=
    ⟨⟨2⟩,secret_placed,by decide⟩
  have hsame := h logServer oneJob _ (opening ++ [claiming]) completing [] rfl visitor rfl secret
    hview
  have hheads := congrArg (Option.map Prod.fst) hsame
  exact absurd hheads (by decide +kernel)

end ProjectOS.Server
