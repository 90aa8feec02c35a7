import ProjectOS.Agents.Echo

/-! The Echo supervisor of one process. A call appends to the log first and
launches a worker afterwards; a worker stays listed as active until its guard
drops, some time after it has decided to return. -/

namespace ProjectOS.Api
open Lib Lib.Optimistic Domain Agents Function

structure EchoRunKey where
  project_id : ProjectId
  run_id : RunId
  deriving DecidableEq

/-- What a process is built with; `configured` says whether the Echo options
validate. -/
structure EchoSupervisor where
  configured : Bool
  hash : Bytes → Digest
  runtimes : RuntimeRegistry

/-- A worker thread: the project it opened, the key its guard holds, and where
its loop stands. -/
structure EchoWorker where
  path : ProjectId
  key : EchoRunKey
  phase : EchoPhase

inductive RunCall where
  | resuming (path : ProjectId) (run_id : RunId) (is_echo : Bool)
  | launching (path : ProjectId) (key : EchoRunKey)

structure Process where
  logs : ProjectId → RunDb
  active : EchoRunKey → Bool
  workers : Table Nat EchoWorker
  calls : Table Nat RunCall

def Process.initial : Process := ⟨fun _ => RunDb.empty,fun _ => false,Table.empty,Table.empty⟩

def Process.setLog (c : Process) (path : ProjectId) (db : RunDb) : Process :=
  { c with logs := Function.update c.logs path db }

def Process.endCall (c : Process) (i : Nat) : Process := { c with calls := c.calls.erase i }

def Process.setCall (c : Process) (i : Nat) (call : RunCall) : Process :=
  { c with calls := c.calls.put i call }

inductive ProcessMove where
  | start (i : Nat) (path : ProjectId) (spec : RunStartSpec) (w : Weather runSignature)
  | pause (path : ProjectId) (run_id : RunId) (reason : String) (w : Weather runSignature)
  | cancel (path : ProjectId) (run_id : RunId) (reason : String) (w : Weather runSignature)
  | resume (i : Nat) (path : ProjectId) (run_id : RunId)
  | resumeHarness (i : Nat) (w : Weather runSignature)
  | launch (i : Nat) (slot : Nat)
  | work (slot : Nat) (report : ToolEffectReport) (w : Weather runSignature)
  | removeEntry (slot : Nat)

namespace EchoSupervisor
variable (v : EchoSupervisor)

def harness (path : ProjectId) : RunHarness := ⟨path,echoToolRegistry,v.runtimes⟩

def start (c : Process) (i : Nat) (path : ProjectId) (spec : RunStartSpec)
    (w : Weather runSignature) : Process :=
  if spec.worker = .echo ∧ v.configured = false then c
  else
    let out := alone runStore ((v.harness path).start spec) (c.logs path) w
    let c' := c.setLog path out.2.1
    match out.1 with
    | .error _ => c'
    | .ok state =>
      if spec.worker = .echo then
        match state.project_id with
        | none => c'
        | some project_id => c'.setCall i (.launching path ⟨project_id,spec.run_id⟩)
      else c'

def control (c : Process) (path : ProjectId) (run_id : RunId) (reason : String)
    (control : PendingRunControl) (w : Weather runSignature) : Process :=
  c.setLog path (storeAfter runStore (RunHarness.requestControl run_id reason control)
    (c.logs path) w)

def afterState (c : Process) (i : Nat) (path : ProjectId) (run_id : RunId) (is_echo : Bool)
    (state : RunState) : Process :=
  if is_echo = true ∧ state.status.isTerminal = false then
    match state.project_id with
    | none => c.endCall i
    | some project_id =>
      if v.configured then c.setCall i (.launching path ⟨project_id,run_id⟩) else c.endCall i
  else c.endCall i

def resume (c : Process) (i : Nat) (path : ProjectId) (run_id : RunId) : Process :=
  match stateResult (c.logs path) run_id with
  | .error _ => c
  | .ok before =>
    let is_echo := decide (before.worker = RosterCharter.echo.asStr)
    if before.status = .paused then c.setCall i (.resuming path run_id is_echo)
    else v.afterState c i path run_id is_echo before

def resumeHarness (c : Process) (i : Nat) (path : ProjectId) (run_id : RunId) (is_echo : Bool)
    (w : Weather runSignature) : Process :=
  let out := alone runStore (RunHarness.resume run_id) (c.logs path) w
  let c' := c.setLog path out.2.1
  match out.1 with
  | .error _ => c'.endCall i
  | .ok state => v.afterState c' i path run_id is_echo state

def launch (c : Process) (i slot : Nat) (path : ProjectId) (key : EchoRunKey) : Option Process :=
  if c.active key then some (c.endCall i)
  else
    match c.workers.get? slot with
    | some _ => none
    | none => some
        { c.endCall i with
          active := Function.update c.active key true,
          workers := c.workers.put slot ⟨path,key,.reading⟩ }

def work (c : Process) (slot : Nat) (t : EchoWorker) (report : ToolEffectReport)
    (w : Weather runSignature) : Option Process :=
  (echoStep v.hash (v.harness t.path) t.key.run_id t.phase report (c.logs t.path) w).map
    fun out => { c.setLog t.path out.2 with workers := c.workers.put slot { t with phase := out.1 } }

def removeEntry (c : Process) (slot : Nat) (t : EchoWorker) : Option Process :=
  match t.phase with
  | .returning => some
      { c with
        active := Function.update c.active t.key false, workers := c.workers.erase slot }
  | _ => none

def move (c : Process) : ProcessMove → Option Process
  | .start i path spec w =>
    match c.calls.get? i with
    | some _ => none
    | none => some (v.start c i path spec w)
  | .pause path run_id reason w => some (control c path run_id reason .pause w)
  | .cancel path run_id reason w => some (control c path run_id reason .cancel w)
  | .resume i path run_id =>
    match c.calls.get? i with
    | some _ => none
    | none => some (v.resume c i path run_id)
  | .resumeHarness i w =>
    match c.calls.get? i with
    | some (.resuming path run_id is_echo) => some (v.resumeHarness c i path run_id is_echo w)
    | _ => none
  | .launch i slot =>
    match c.calls.get? i with
    | some (.launching path key) => launch c i slot path key
    | _ => none
  | .work slot report w => (c.workers.get? slot).bind fun t => v.work c slot t report w
  | .removeEntry slot => (c.workers.get? slot).bind fun t => removeEntry c slot t

def moves (c : Process) : List ProcessMove → Option Process
  | [] => some c
  | m::ms => (v.move c m).bind fun c' => moves c' ms

def Reachable (allowed : Process → ProcessMove → Prop) : Process → Prop :=
  Relation.ReflTransGen (fun c c' => ∃ m, allowed c m ∧ v.move c m = some c') Process.initial

end EchoSupervisor

def ProcessMove.isWork (slot : Nat) : ProcessMove → Bool
  | .work i _ _ => decide (i = slot)
  | _ => false

def ProcessMove.removes (slot : Nat) : ProcessMove → Bool
  | .removeEntry i => decide (i = slot)
  | _ => false

/-- The worker reads its Run before it removes its entry: every operation starts
with a read, and no steps without one drop the guard. -/
def WillRead (v : EchoSupervisor) (c : Process) (slot : Nat) : Prop :=
  ∀ ms, (v.moves c ms).isSome = true → (∀ m ∈ ms, m.isWork slot = false) →
    ∀ m ∈ ms, m.removes slot = false

def Driven (c : Process) (path : ProjectId) (run_id : RunId) : Prop :=
  (∃ slot t, c.workers.get? slot = some t ∧ t.path = path ∧ t.key = ⟨path,run_id⟩ ∧
    t.phase ≠ .returning) ∨
  ∃ i, c.calls.get? i = some (.launching path ⟨path,run_id⟩)

/-- Every worker has its key in the active set, and every key there one worker. -/
structure Listed (c : Process) : Prop where
  keyed : ∀ slot t, c.workers.get? slot = some t →
    t.key.project_id = t.path ∧ c.active t.key = true
  unique : ∀ i j t u, c.workers.get? i = some t → c.workers.get? j = some u → t.key = u.key → i = j
  registered : ∀ key, c.active key = true → ∃ slot t, c.workers.get? slot = some t ∧ t.key = key
  launches : ∀ i path key, c.calls.get? i = some (.launching path key) → key.project_id = path

/-- Every log is sound, and a call that resumes read its Run's worker from it. -/
structure Kept (v : EchoSupervisor) (c : Process) : Prop where
  home : ∀ p, HomeOk p v.configured (c.logs p)
  sound : ∀ p, SoundDb (c.logs p)
  resumes : ∀ i path run_id is_echo, c.calls.get? i = some (.resuming path run_id is_echo) →
    ∃ row, (c.logs path).runs.get? run_id = some row ∧
      is_echo = decide (row.worker = RosterCharter.echo.asStr)

/-- The invariant of the process: what wants a worker is driven. -/
structure Supervised (v : EchoSupervisor) (c : Process) : Prop where
  listed : Listed c
  kept : Kept v c
  driven : ∀ path run_id, WantsWorker (c.logs path) run_id → Driven c path run_id

section Steps
variable {v : EchoSupervisor} {c c' : Process} {path : ProjectId} {run_id : RunId} {db : RunDb}

theorem logs_setLog (c : Process) (path q : ProjectId) (db : RunDb) :
    (c.setLog path db).logs q = if q = path then db else c.logs q := by
  simp only [Process.setLog,update_apply]

theorem wants_setLog (hk : KeepsOthers run_id (c.logs path) db) {q : ProjectId} {j : RunId}
    (hw : WantsWorker ((c.setLog path db).logs q) j) :
    (q = path ∧ j = run_id ∧ WantsWorker db run_id) ∨ WantsWorker (c.logs q) j := by
  rw [logs_setLog] at hw
  by_cases hq : q = path
  · rw [if_pos hq] at hw
    by_cases hj : j = run_id
    · exact Or.inl ⟨hq,hj,hj ▸ hw⟩
    · obtain ⟨row,hrow,hrest⟩ := hw
      rw [hk.1 j hj] at hrow
      exact Or.inr (hq ▸ ⟨row,hrow,hrest⟩)
  · rw [if_neg hq] at hw
    exact Or.inr hw

theorem Kept.setLog (h : Kept v c) (hhome : HomeOk path v.configured db) (hsound : SoundDb db)
    (hk : KeepsOthers run_id (c.logs path) db) : Kept v (c.setLog path db) := by
  refine ⟨?_,?_,?_⟩
  · intro p
    rw [logs_setLog]
    split
    · rename_i hp
      rw [hp]
      exact hhome
    · exact h.home p
  · intro p
    rw [logs_setLog]
    split
    · exact hsound
    · exact h.sound p
  · intro i q j is_echo hcall
    obtain ⟨row,hrow,hecho⟩ := h.resumes i q j is_echo hcall
    rw [logs_setLog]
    split
    · rename_i hq
      rw [hq] at hrow
      by_cases hj : j = run_id
      · rw [hj] at hrow ⊢
        obtain ⟨row',hrow',hworker⟩ := hk.2 row hrow
        exact ⟨row',hrow',by rw [hworker]; exact hecho⟩
      · exact ⟨row,by rw [hk.1 j hj]; exact hrow,hecho⟩
    · exact ⟨row,hrow,hecho⟩

theorem Kept.alone {α : Type} {p : HarnessProg α} {op : HarnessCall} (h : Kept v c)
    (hruns : ∀ K, Meets K → Runs K op p (fun _ => True))
    (hop : StartsHome path v.configured op) (w : Weather runSignature) :
    Kept v (c.setLog path (storeAfter runStore p (c.logs path) w)) ∧
      KeepsOthers op.run (c.logs path) (storeAfter runStore p (c.logs path) w) := by
  obtain ⟨hhome,hk⟩ := alone_home hruns hop (h.home path) w
  exact ⟨h.setLog hhome (alone_sound hruns (h.sound path) w) hk,hk⟩

theorem Driven.congr (h : Driven c path run_id) (hw : c'.workers = c.workers)
    (hc : ∀ i q key, c.calls.get? i = some (.launching q key) →
      c'.calls.get? i = some (.launching q key)) : Driven c' path run_id := by
  rcases h with ⟨slot,t,ht,hrest⟩ | ⟨i,hi⟩
  · exact Or.inl ⟨slot,t,by rw [hw]; exact ht,hrest⟩
  · exact Or.inr ⟨i,hc i _ _ hi⟩

theorem Listed.setLog (h : Listed c) (path : ProjectId) (db : RunDb) : Listed (c.setLog path db) :=
  ⟨h.keyed,h.unique,h.registered,h.launches⟩

theorem Listed.endCall (h : Listed c) (i : Nat) : Listed (c.endCall i) := by
  refine ⟨h.keyed,h.unique,h.registered,?_⟩
  intro j q key hj
  simp only [Process.endCall,Table.get?_erase] at hj
  split at hj
  · cases hj
  · exact h.launches j q key hj

variable {call : RunCall}

theorem Listed.setCall (h : Listed c) (i : Nat)
    (hcall : ∀ q key, call = .launching q key → key.project_id = q) : Listed (c.setCall i call) := by
  refine ⟨h.keyed,h.unique,h.registered,?_⟩
  intro j q key hj
  simp only [Process.setCall,Table.get?_put] at hj
  split at hj
  · exact hcall q key (Option.some.inj hj)
  · exact h.launches j q key hj

theorem Kept.endCall (h : Kept v c) (i : Nat) : Kept v (c.endCall i) := by
  refine ⟨h.home,h.sound,?_⟩
  intro j q id is_echo hj
  simp only [Process.endCall,Table.get?_erase] at hj
  split at hj
  · cases hj
  · exact h.resumes j q id is_echo hj

theorem Kept.setCall (h : Kept v c) (i : Nat)
    (hcall : ∀ q id is_echo, call = .resuming q id is_echo →
      ∃ row, (c.logs q).runs.get? id = some row ∧
        is_echo = decide (row.worker = RosterCharter.echo.asStr)) : Kept v (c.setCall i call) := by
  refine ⟨h.home,h.sound,?_⟩
  intro j q id is_echo hj
  simp only [Process.setCall,Table.get?_put] at hj
  split at hj
  · exact hcall q id is_echo (Option.some.inj hj)
  · exact h.resumes j q id is_echo hj

def Idle (c : Process) (i : Nat) : Prop := ∀ q key, c.calls.get? i ≠ some (.launching q key)

variable {i slot : Nat}

theorem Driven.endCall (h : Driven c path run_id) (hi : Idle c i) :
    Driven (c.endCall i) path run_id := by
  refine h.congr rfl ?_
  intro j q key hj
  have hne : j ≠ i := fun heq => hi q key (heq ▸ hj)
  simp only [Process.endCall,Table.get?_erase_ne _ hne]
  exact hj

theorem Driven.setCall (h : Driven c path run_id) (hi : Idle c i) (call : RunCall) :
    Driven (c.setCall i call) path run_id := by
  refine h.congr rfl ?_
  intro j q key hj
  have hne : j ≠ i := fun heq => hi q key (heq ▸ hj)
  simp only [Process.setCall,Table.get?_put_ne _ _ hne]
  exact hj

theorem Driven.launching (c : Process) (i : Nat) (path : ProjectId) (run_id : RunId) :
    Driven (c.setCall i (.launching path ⟨path,run_id⟩)) path run_id :=
  Or.inr ⟨i,Table.get?_put_self _ _ _⟩

variable {is_echo : Bool}

theorem afterState_supervised {state : RunState} (hl : Listed c)
    (hk : Kept v c) (hi : Idle c i) (hread : readRun (c.logs path) run_id = .ok (some state))
    (hecho : is_echo = decide (state.worker = RosterCharter.echo.asStr))
    (hd : ∀ q j, WantsWorker (c.logs q) j → (q = path ∧ j = run_id) ∨ Driven c q j) :
    Supervised v (v.afterState c i path run_id is_echo state) := by
  obtain ⟨row,hrow,hproject,hworker⟩ := readRun_row hread
  obtain ⟨hhome,hconf⟩ := hk.home path run_id row hrow
  unfold EchoSupervisor.afterState
  split
  · rename_i hlaunch
    have hconf' : v.configured = true := by
      refine hconf ?_
      rw [← hworker]
      exact of_decide_eq_true (hecho.symm.trans hlaunch.1)
    rw [hproject,hhome]
    simp only [hconf',if_true]
    refine ⟨hl.setCall i ?_,hk.setCall i ?_,?_⟩
    · rintro q key ⟨⟩
      rfl
    · rintro q id flag ⟨⟩
    · intro q j hw
      rcases hd q j hw with ⟨rfl,rfl⟩ | hdriven
      · exact Driven.launching c i q j
      · exact hdriven.setCall hi _
  · rename_i hnot
    refine ⟨hl.endCall i,hk.endCall i,?_⟩
    intro q j hw
    rcases hd q j hw with ⟨rfl,rfl⟩ | hdriven
    · refine absurd ⟨?_,?_⟩ hnot
      · obtain ⟨row',hrow',hw',_⟩ := hw
        have heq := hrow.symm.trans hrow'
        cases heq
        rw [hecho,hworker]
        exact decide_eq_true hw'
      · cases ht : state.status.isTerminal with
        | false => rfl
        | true => exact absurd hw (read_not_wants hread (Or.inl ht))
    · exact hdriven.endCall hi

theorem control_supervised (h : Supervised v c) (path : ProjectId) (run_id : RunId)
    (reason : String) (control : PendingRunControl) (w : Weather runSignature) :
    Supervised v (EchoSupervisor.control c path run_id reason control w) := by
  obtain ⟨op,hop,hrun,hrequest,hhome⟩ : ∃ op : HarnessCall,
      (op = .requestPause run_id reason ∧ control = .pause ∨
        op = .requestCancel run_id reason ∧ control = .cancel) ∧ op.run = run_id ∧ WakesNothing op ∧
        StartsHome path v.configured op := by
    cases control with
    | pause => exact ⟨_,Or.inl ⟨rfl,rfl⟩,rfl,trivial,trivial⟩
    | cancel => exact ⟨_,Or.inr ⟨rfl,rfl⟩,rfl,trivial,trivial⟩
  have hruns : ∀ K, Meets K →
      Runs K op (RunHarness.requestControl run_id reason control) (fun _ => True) :=
    fun K hK => tells_runs hK (requestControl_tells hop)
  obtain ⟨hkept,hk⟩ := h.kept.alone hruns hhome w
  refine ⟨h.listed.setLog _ _,hkept,?_⟩
  intro q j hw
  have hold : WantsWorker (c.logs q) j := by
    rcases wants_setLog hk hw with ⟨rfl,rfl,hown⟩ | hold
    · exact alone_quiet hruns hrequest w hown
    · exact hold
  exact (h.driven q j hold).congr rfl (fun _ _ _ h => h)

theorem failed_driven (e : HarnessError) (h : Supervised v c)
    (hkept : Kept v (c.setLog path db)) (hk : KeepsOthers run_id (c.logs path) db)
    (hcase : db = c.logs path ∨ .error e = stateResult db run_id) (q : ProjectId) (j : RunId)
    (hw : WantsWorker ((c.setLog path db).logs q) j) : Driven (c.setLog path db) q j := by
  have hold : WantsWorker (c.logs q) j := by
    rcases wants_setLog hk hw with ⟨rfl,rfl,hown⟩ | hold
    · rcases hcase with heq | herr
      · rw [← heq]
        exact hown
      · have hsound := hkept.sound q
        rw [logs_setLog,if_pos rfl] at hsound
        obtain ⟨st,hst⟩ := wants_read hsound hown
        rw [hst] at herr
        cases herr
    · exact hold
  exact (h.driven q j hold).congr rfl (fun _ _ _ h => h)

theorem other_driven (h : Supervised v c) (hk : KeepsOthers run_id (c.logs path) db)
    (q : ProjectId) (j : RunId) (hw : WantsWorker ((c.setLog path db).logs q) j) :
    (q = path ∧ j = run_id) ∨ Driven (c.setLog path db) q j := by
  rcases wants_setLog hk hw with ⟨hq,hj,_⟩ | hold
  · exact Or.inl ⟨hq,hj⟩
  · exact Or.inr ((h.driven q j hold).congr rfl (fun _ _ _ h => h))

theorem charter_echo {charter : RosterCharter} (h : charter.asStr = RosterCharter.echo.asStr) :
    charter = .echo := by
  cases charter <;> first | rfl | exact absurd h (by decide)

theorem start_supervised (h : Supervised v c) (hi : c.calls.get? i = none)
    (path : ProjectId) (spec : RunStartSpec) (w : Weather runSignature) :
    Supervised v (v.start c i path spec w) := by
  unfold EchoSupervisor.start
  split
  · exact h
  rename_i hconf
  have hhome : StartsHome path v.configured (.start (v.harness path) spec) := by
    refine ⟨rfl,?_⟩
    intro hecho
    cases hc : v.configured with
    | true => rfl
    | false => exact absurd ⟨charter_echo hecho,hc⟩ hconf
  have hruns : ∀ K, Meets K → Runs K (.start (v.harness path) spec) ((v.harness path).start spec)
      (fun _ => True) := fun K hK => tells_runs hK (start_tells _ spec)
  obtain ⟨hkept,hk⟩ := h.kept.alone hruns hhome w
  cases hout : alone runStore ((v.harness path).start spec) (c.logs path) w with
  | mk out rest =>
    obtain ⟨db,w'⟩ := rest
    rw [storeAfter,hout] at hkept hk
    have hcase := alone_start hout
    cases out with
    | error e =>
      refine ⟨h.listed.setLog _ _,hkept,failed_driven e h hkept hk ?_⟩
      rcases hcase with ⟨heq,_⟩ | ⟨heq,_⟩
      · exact Or.inl heq
      · exact Or.inr heq
    | ok state =>
      rcases hcase with ⟨_,e,he⟩ | ⟨heq,row,hrow,hworker⟩
      · cases he
      have hother := other_driven h hk
      have hidle : Idle (c.setLog path db) i := by
        intro q key hcall
        rw [show (c.setLog path db).calls.get? i = none from hi] at hcall
        cases hcall
      dsimp only
      split
      · have hread := stateResult_ok heq.symm
        obtain ⟨row',hrow',hproject,_⟩ := readRun_row hread
        have hproj := (hkept.home path spec.run_id row' (by
          rw [logs_setLog,if_pos rfl]
          exact hrow')).1
        rw [hproject,hproj]
        dsimp only
        refine ⟨(h.listed.setLog _ _).setCall i ?_,hkept.setCall i ?_,?_⟩
        · rintro q key ⟨⟩
          rfl
        · rintro q id flag ⟨⟩
        · intro q j hw
          rcases hother q j hw with ⟨rfl,rfl⟩ | hdriven
          · exact Driven.launching _ i q spec.run_id
          · exact hdriven.setCall hidle _
      · rename_i hnot
        refine ⟨h.listed.setLog _ _,hkept,?_⟩
        intro q j hw
        rcases hother q j hw with ⟨rfl,rfl⟩ | hdriven
        · rw [logs_setLog,if_pos rfl] at hw
          obtain ⟨row',hrow',hecho,_⟩ := hw
          have hrows := hrow.symm.trans hrow'
          cases hrows
          exact absurd (charter_echo (hworker.symm.trans hecho)) hnot
        · exact hdriven

theorem resume_supervised (h : Supervised v c) (hi : c.calls.get? i = none)
    (path : ProjectId) (run_id : RunId) : Supervised v (v.resume c i path run_id) := by
  have hidle : Idle c i := by
    intro q key hcall
    rw [hi] at hcall
    cases hcall
  unfold EchoSupervisor.resume
  split
  · exact h
  · rename_i before hbefore
    have hread := stateResult_ok hbefore
    dsimp only
    split
    · obtain ⟨row,hrow,_,hworker⟩ := readRun_row hread
      refine ⟨h.listed.setCall i ?_,h.kept.setCall i ?_,?_⟩
      · rintro q key ⟨⟩
      · rintro q id flag ⟨⟩
        exact ⟨row,hrow,by rw [hworker]⟩
      · intro q j hw
        exact (h.driven q j hw).setCall hidle _
    · exact afterState_supervised h.listed h.kept hidle hread rfl
        (fun q j hw => Or.inr (h.driven q j hw))

theorem resumeHarness_supervised (h : Supervised v c)
    (hi : c.calls.get? i = some (.resuming path run_id is_echo)) (w : Weather runSignature) :
    Supervised v (v.resumeHarness c i path run_id is_echo w) := by
  have hruns : ∀ K, Meets K → Runs K (.resume run_id) (RunHarness.resume run_id) (fun _ => True) :=
    fun K hK => tells_runs hK (resume_tells run_id)
  obtain ⟨hkept,hk⟩ := h.kept.alone hruns (show StartsHome path v.configured _ from trivial) w
  cases hout : alone runStore (RunHarness.resume run_id) (c.logs path) w with
  | mk out rest =>
    obtain ⟨db,w'⟩ := rest
    rw [storeAfter,hout] at hkept hk
    have hidle : Idle (c.setLog path db) i := by
      intro q key hcall
      rw [show (c.setLog path db).calls.get? i = _ from hi] at hcall
      cases hcall
    have hcase := alone_resume hout
    rw [EchoSupervisor.resumeHarness,hout]
    cases out with
    | error e =>
      refine ⟨(h.listed.setLog _ _).endCall i,hkept.endCall i,?_⟩
      intro q j hw
      refine (failed_driven e h hkept hk ?_ q j hw).endCall hidle
      rcases hcase with ⟨heq,_⟩ | heq
      · exact Or.inl heq
      · exact Or.inr heq
    | ok state =>
      rcases hcase with ⟨_,e,he⟩ | heq
      · cases he
      have hread := stateResult_ok heq.symm
      refine afterState_supervised (h.listed.setLog _ _) hkept hidle ?_ ?_ (other_driven h hk)
      · rw [logs_setLog,if_pos rfl]
        exact hread
      · obtain ⟨row,hrow,hecho⟩ := hkept.resumes i path run_id is_echo hi
        rw [logs_setLog,if_pos rfl] at hrow
        obtain ⟨row',hrow',_,hworker⟩ := readRun_row hread
        have hrows := hrow.symm.trans hrow'
        cases hrows
        rw [hworker]
        exact hecho

/-- A launch that takes a leaving worker for a running one. -/
def joinsLeaver (c : Process) : ProcessMove → Prop
  | .launch i _ => ∃ path key slot t, c.calls.get? i = some (.launching path key) ∧
      c.workers.get? slot = some t ∧ t.key = key ∧ t.phase = .returning ∧
      WantsWorker (c.logs path) key.run_id
  | _ => False

theorem launch_supervised (h : Supervised v c) {key : EchoRunKey}
    (hi : c.calls.get? i = some (.launching path key)) (hok : ¬ joinsLeaver c (.launch i slot))
    (hm : EchoSupervisor.launch c i slot path key = some c') : Supervised v c' := by
  have hkey : key = ⟨path,key.run_id⟩ := by
    rw [← h.listed.launches i path key hi]
  have hcalls : ∀ j q k, j ≠ i → c.calls.get? j = some (.launching q k) →
      (c.endCall i).calls.get? j = some (.launching q k) := by
    intro j q k hj hcall
    simp only [Process.endCall,Table.get?_erase_ne _ hj]
    exact hcall
  unfold EchoSupervisor.launch at hm
  split at hm
  · rename_i hactive
    cases hm
    refine ⟨h.listed.endCall i,h.kept.endCall i,?_⟩
    intro q j hw
    rcases h.driven q j hw with ⟨s,t,ht,hrest⟩ | ⟨k,hcall⟩
    · exact Or.inl ⟨s,t,ht,hrest⟩
    · by_cases hki : k = i
      · rw [hki,hi] at hcall
        cases hcall
        obtain ⟨s,t,ht,htkey⟩ := h.listed.registered _ hactive
        have hpath := (h.listed.keyed s t ht).1
        rw [htkey] at hpath
        refine Or.inl ⟨s,t,ht,hpath.symm,htkey,?_⟩
        intro hret
        exact hok ⟨path,_,s,t,hi,ht,htkey,hret,hw⟩
      · exact Or.inr ⟨k,hcalls k _ _ hki hcall⟩
  · rename_i hinactive
    split at hm
    · cases hm
    · rename_i hfree
      cases hm
      have hnot : ∀ s t, c.workers.get? s = some t → t.key ≠ key := by
        intro s t ht heq
        rw [← heq] at hinactive
        exact hinactive (h.listed.keyed s t ht).2
      refine ⟨⟨?_,?_,?_,(h.listed.endCall i).launches⟩,⟨h.kept.home,h.kept.sound,
        (h.kept.endCall i).resumes⟩,?_⟩
      · intro s t ht
        simp only [Table.get?_put] at ht
        split at ht
        · cases ht
          exact ⟨h.listed.launches i path key hi,update_self ..⟩
        · obtain ⟨h1,h2⟩ := h.listed.keyed s t ht
          exact ⟨h1,(update_of_ne (hnot s t ht) ..).trans h2⟩
      · intro a b t u hta hub heq
        simp only [Table.get?_put] at hta hub
        split at hta
        · split at hub
          · rename_i ha hb
            rw [ha,hb]
          · cases hta
            exact absurd heq.symm (hnot b u hub)
        · split at hub
          · cases hub
            exact absurd heq (hnot a t hta)
          · exact h.listed.unique a b t u hta hub heq
      · intro k hk
        by_cases hkk : k = key
        · exact ⟨slot,_,Table.get?_put_self _ _ _,hkk.symm⟩
        · obtain ⟨s,t,ht,htk⟩ :=
            h.listed.registered k ((update_of_ne hkk ..).symm.trans hk)
          have hne : s ≠ slot := by
            intro heq
            rw [heq,hfree] at ht
            cases ht
          exact ⟨s,t,by rw [Table.get?_put_ne _ _ hne]; exact ht,htk⟩
      · intro q j hw
        rcases h.driven q j hw with ⟨s,t,ht,hrest⟩ | ⟨k,hcall⟩
        · have hne : s ≠ slot := by
            intro heq
            rw [heq,hfree] at ht
            cases ht
          exact Or.inl ⟨s,t,by rw [Table.get?_put_ne _ _ hne]; exact ht,hrest⟩
        · by_cases hki : k = i
          · rw [hki,hi] at hcall
            cases hcall
            exact Or.inl ⟨slot,_,Table.get?_put_self _ _ _,rfl,rfl,by intro hr; cases hr⟩
          · exact Or.inr ⟨k,hcalls k _ _ hki hcall⟩

theorem setLog_same (c : Process) (path : ProjectId) : c.setLog path (c.logs path) = c := by
  simp only [Process.setLog,update_eq_self]

variable {t : EchoWorker} {report : ToolEffectReport} {w : Weather runSignature}

theorem echoStep_kept
    {phase : EchoPhase} (h : Kept v c)
    (hs : echoStep v.hash (v.harness t.path) t.key.run_id t.phase report (c.logs t.path) w =
      some (phase,db)) :
    Kept v (c.setLog t.path db) ∧ ∀ q j, (⟨q,j⟩ : EchoRunKey) ≠ ⟨t.path,t.key.run_id⟩ →
      WantsWorker ((c.setLog t.path db).logs q) j → WantsWorker (c.logs q) j := by
  cases hphase : t.phase with
  | reading =>
    rw [hphase] at hs
    simp only [echoStep,alone_state] at hs
    split at hs
    · rename_i heq
      obtain ⟨_,_,hdb⟩ := Option.map_eq_some_iff.mp hs
      simp only [Prod.mk.injEq] at heq hdb
      rw [← hdb.2,← heq.2.1,setLog_same]
      exact ⟨h,fun _ _ _ hw => hw⟩
    · cases hs
  | preparing state =>
    rw [hphase] at hs
    obtain ⟨plan,_,hs⟩ := Option.bind_eq_some_iff.mp hs
    split at hs
    · rename_i hout
      obtain ⟨_,_,hdb⟩ := Option.map_eq_some_iff.mp hs
      cases hdb
      have hruns : ∀ K, Meets K →
          Runs K (.prepareStep (v.harness t.path) t.key.run_id plan none)
            ((v.harness t.path).prepareStep t.key.run_id plan none) (fun _ => True) :=
        fun K hK => tells_runs hK (prepareStep_tells _ _ plan none)
      obtain ⟨hkept,hk⟩ := h.alone hruns (show StartsHome t.path v.configured _ from trivial) w
      rw [storeAfter,hout] at hkept hk
      refine ⟨hkept,?_⟩
      intro q j hne hw
      rcases wants_setLog hk hw with ⟨rfl,rfl,_⟩ | hold
      · exact absurd rfl hne
      · exact hold
    · cases hs
  | recording call =>
    rw [hphase] at hs
    simp only [echoStep] at hs
    split at hs
    · rename_i hout
      cases hs
      have hruns : ∀ K, Meets K →
          Runs K (.recordEffect call report) (RunHarness.recordEffect call report) (fun _ => True) :=
        fun K hK => tells_runs hK (recordEffect_tells call report)
      obtain ⟨hkept,hk⟩ := h.alone hruns (show StartsHome t.path v.configured _ from trivial) w
      have hquiet : ∀ j, WantsWorker (storeAfter runStore (RunHarness.recordEffect call report)
          (c.logs t.path) w) j → WantsWorker (c.logs t.path) j :=
        fun _ => alone_quiet hruns trivial w
      rw [storeAfter,hout] at hkept hk
      refine ⟨hkept,?_⟩
      intro q j _ hw
      rw [logs_setLog] at hw
      split at hw
      · rename_i hq
        rw [hq]
        refine hquiet j ?_
        rw [storeAfter,hout]
        exact hw
      · exact hw
    · cases hs
  | finishing outcome =>
    rw [hphase] at hs
    simp only [echoStep] at hs
    split at hs
    · rename_i hout
      cases hs
      have hruns : ∀ K, Meets K → Runs K (.finish t.key.run_id outcome)
          (RunHarness.finish t.key.run_id outcome) (fun _ => True) :=
        fun K hK => tells_runs hK (finish_tells _ outcome)
      obtain ⟨hkept,hk⟩ := h.alone hruns (show StartsHome t.path v.configured _ from trivial) w
      rw [storeAfter,hout] at hkept hk
      refine ⟨hkept,?_⟩
      intro q j hne hw
      rcases wants_setLog hk hw with ⟨rfl,rfl,_⟩ | hold
      · exact absurd rfl hne
      · exact hold
    · cases hs
  | returning =>
    rw [hphase] at hs
    cases hs

theorem work_supervised (h : Supervised v c) (ht : c.workers.get? slot = some t)
    (hm : v.work c slot t report w = some c') : Supervised v c' := by
  obtain ⟨⟨phase,db⟩,hs,rfl⟩ := Option.map_eq_some_iff.mp hm
  obtain ⟨hkept,hother⟩ := echoStep_kept h.kept hs
  obtain ⟨hkey,hactive⟩ := h.listed.keyed slot t ht
  have hget : ∀ s u, (c.workers.put slot { t with phase := phase }).get? s = some u →
      ∃ u', c.workers.get? s = some u' ∧ u'.key = u.key ∧ u'.path = u.path := by
    intro s u hu
    rw [Table.get?_put] at hu
    split at hu
    · rename_i hslot
      cases hu
      rw [hslot]
      exact ⟨t,ht,rfl,rfl⟩
    · exact ⟨u,hu,rfl,rfl⟩
  have hkeep : ∀ s u, c.workers.get? s = some u →
      ∃ u', (c.workers.put slot { t with phase := phase }).get? s = some u' ∧ u'.key = u.key := by
    intro s u hu
    rw [Table.get?_put]
    split
    · rename_i hslot
      rw [hslot,ht] at hu
      cases hu
      exact ⟨_,rfl,rfl⟩
    · exact ⟨u,hu,rfl⟩
  refine ⟨⟨?_,?_,?_,h.listed.launches⟩,⟨hkept.home,hkept.sound,hkept.resumes⟩,?_⟩
  · intro s u hu
    obtain ⟨u',hu',hk,hp⟩ := hget s u hu
    have hkeyed := h.listed.keyed s u' hu'
    rw [hk,hp] at hkeyed
    exact hkeyed
  · intro i j a b ha hb heq
    obtain ⟨a',ha',hka,_⟩ := hget i a ha
    obtain ⟨b',hb',hkb,_⟩ := hget j b hb
    exact h.listed.unique i j a' b' ha' hb' (by rw [hka,hkb]; exact heq)
  · intro key hkey
    obtain ⟨s,u,hu,hk⟩ := h.listed.registered key hkey
    obtain ⟨u',hu',hk'⟩ := hkeep s u hu
    exact ⟨s,u',hu',hk'.trans hk⟩
  · intro q j hw
    have htkey : t.key = ⟨t.path,t.key.run_id⟩ := by
      rw [← hkey]
    by_cases hown : (⟨q,j⟩ : EchoRunKey) = ⟨t.path,t.key.run_id⟩
    · cases hown
      have hwant : WantsWorker ((c.setLog t.path db).logs t.path) t.key.run_id := hw
      rw [logs_setLog,if_pos rfl] at hwant
      refine Or.inl ⟨slot,_,Table.get?_put_self _ _ _,rfl,htkey,?_⟩
      intro hret
      rw [show phase = .returning from hret] at hs
      exact echoStep_returning hs hwant
    · rcases h.driven q j (hother q j hown hw) with ⟨s,u,hu,hpath,hk,hphase⟩ | ⟨i,hi⟩
      · have hne : s ≠ slot := by
          intro heq
          rw [heq,ht] at hu
          cases hu
          exact hown (hk.symm.trans htkey)
        exact Or.inl ⟨s,u,by rw [Table.get?_put_ne _ _ hne]; exact hu,hpath,hk,hphase⟩
      · exact Or.inr ⟨i,hi⟩

theorem removeEntry_supervised (h : Supervised v c)
    (ht : c.workers.get? slot = some t) (hm : EchoSupervisor.removeEntry c slot t = some c') :
    Supervised v c' := by
  unfold EchoSupervisor.removeEntry at hm
  split at hm
  · rename_i hret
    cases hm
    have hget : ∀ s u, (c.workers.erase slot).get? s = some u → s ≠ slot ∧ c.workers.get? s = some u := by
      intro s u hu
      rw [Table.get?_erase] at hu
      split at hu
      · cases hu
      · rename_i hne
        exact ⟨hne,hu⟩
    refine ⟨⟨?_,?_,?_,h.listed.launches⟩,⟨h.kept.home,h.kept.sound,h.kept.resumes⟩,?_⟩
    · intro s u hu
      obtain ⟨hne,hu'⟩ := hget s u hu
      have hk : u.key ≠ t.key := fun heq => hne (h.listed.unique s slot u t hu' ht heq)
      obtain ⟨h1,h2⟩ := h.listed.keyed s u hu'
      exact ⟨h1,(update_of_ne hk ..).trans h2⟩
    · intro i j a b ha hb heq
      exact h.listed.unique i j a b (hget i a ha).2 (hget j b hb).2 heq
    · intro key hkey
      have hne : key ≠ t.key := by
        intro heq
        rw [heq] at hkey
        cases (update_self t.key false c.active).symm.trans hkey
      obtain ⟨s,u,hu,hk⟩ := h.listed.registered key ((update_of_ne hne ..).symm.trans hkey)
      have hslot : s ≠ slot := by
        intro heq
        rw [heq,ht] at hu
        cases hu
        exact hne hk.symm
      exact ⟨s,u,by rw [Table.get?_erase_ne _ hslot]; exact hu,hk⟩
    · intro q j hw
      rcases h.driven q j hw with ⟨s,u,hu,hpath,hk,hphase⟩ | ⟨i,hi⟩
      · have hslot : s ≠ slot := by
          intro heq
          rw [heq,ht] at hu
          cases hu
          exact hphase hret
        exact Or.inl ⟨s,u,by rw [Table.get?_erase_ne _ hslot]; exact hu,hpath,hk,hphase⟩
      · exact Or.inr ⟨i,hi⟩
  · cases hm

theorem move_supervised (h : Supervised v c) {m : ProcessMove} (hok : ¬ joinsLeaver c m)
    (hm : v.move c m = some c') : Supervised v c' := by
  cases m with
  | start i path spec w =>
    simp only [EchoSupervisor.move] at hm
    split at hm
    · cases hm
    · rename_i hi
      cases hm
      exact start_supervised h hi path spec w
  | pause path run_id reason w =>
    cases hm
    exact control_supervised h path run_id reason .pause w
  | cancel path run_id reason w =>
    cases hm
    exact control_supervised h path run_id reason .cancel w
  | resume i path run_id =>
    simp only [EchoSupervisor.move] at hm
    split at hm
    · cases hm
    · rename_i hi
      cases hm
      exact resume_supervised h hi path run_id
  | resumeHarness i w =>
    simp only [EchoSupervisor.move] at hm
    split at hm
    · rename_i hi
      cases hm
      exact resumeHarness_supervised h hi w
    · cases hm
  | launch i slot =>
    simp only [EchoSupervisor.move] at hm
    split at hm
    · rename_i hi
      exact launch_supervised h hi hok hm
    · cases hm
  | work slot report w =>
    obtain ⟨t,ht,hm⟩ := Option.bind_eq_some_iff.mp hm
    exact work_supervised h ht hm
  | removeEntry slot =>
    obtain ⟨t,ht,hm⟩ := Option.bind_eq_some_iff.mp hm
    exact removeEntry_supervised h ht hm

theorem initial_supervised (v : EchoSupervisor) : Supervised v Process.initial := by
  refine ⟨⟨?_,?_,?_,?_⟩,⟨?_,fun _ => empty_sound,?_⟩,?_⟩
  · rintro slot t ⟨⟩
  · rintro i j t u ⟨⟩
  · rintro key ⟨⟩
  · rintro i path key ⟨⟩
  · rintro p id row ⟨⟩
  · rintro i path run_id is_echo ⟨⟩
  · rintro path run_id ⟨row,hrow,_⟩
    cases hrow

theorem reachable_supervised {allowed : Process → ProcessMove → Prop}
    (hallowed : ∀ c m, allowed c m → ¬ joinsLeaver c m) (h : v.Reachable allowed c) :
    Supervised v c := by
  induction h with
  | refl => exact initial_supervised v
  | tail _ hstep ih =>
    obtain ⟨m,hm,hmove⟩ := hstep
    exact move_supervised ih (hallowed _ m hm) hmove

theorem workers_afterState (v : EchoSupervisor) (c : Process) (i : Nat) (path : ProjectId)
    (run_id : RunId) (is_echo : Bool) (state : RunState) :
    (v.afterState c i path run_id is_echo state).workers = c.workers := by
  unfold EchoSupervisor.afterState
  split
  · split
    · rfl
    · split
      · rfl
      · rfl
  · rfl

theorem workers_start (v : EchoSupervisor) (c : Process) (i : Nat) (path : ProjectId)
    (spec : RunStartSpec) (w : Weather runSignature) :
    (v.start c i path spec w).workers = c.workers := by
  unfold EchoSupervisor.start
  split
  · rfl
  · dsimp only
    split
    · rfl
    · split
      · split
        · rfl
        · rfl
      · rfl

theorem workers_resume (v : EchoSupervisor) (c : Process) (i : Nat) (path : ProjectId)
    (run_id : RunId) : (v.resume c i path run_id).workers = c.workers := by
  unfold EchoSupervisor.resume
  split
  · rfl
  · dsimp only
    split
    · rfl
    · exact workers_afterState v c i path run_id _ _

theorem workers_resumeHarness (v : EchoSupervisor) (c : Process) (i : Nat) (path : ProjectId)
    (run_id : RunId) (is_echo : Bool) (w : Weather runSignature) :
    (v.resumeHarness c i path run_id is_echo w).workers = c.workers := by
  unfold EchoSupervisor.resumeHarness
  dsimp only
  split
  · rfl
  · exact workers_afterState v _ i path run_id is_echo _

theorem move_slot {m : ProcessMove}
    (ht : c.workers.get? slot = some t) (hphase : t.phase ≠ .returning)
    (hwork : m.isWork slot = false) (hm : v.move c m = some c') :
    c'.workers.get? slot = some t ∧ m.removes slot = false := by
  cases m with
  | start i path spec w =>
    simp only [EchoSupervisor.move] at hm
    split at hm
    · cases hm
    · cases hm
      rw [workers_start]
      exact ⟨ht,rfl⟩
  | pause | cancel =>
    cases hm
    exact ⟨ht,rfl⟩
  | resume i path run_id =>
    simp only [EchoSupervisor.move] at hm
    split at hm
    · cases hm
    · cases hm
      rw [workers_resume]
      exact ⟨ht,rfl⟩
  | resumeHarness i w =>
    simp only [EchoSupervisor.move] at hm
    split at hm
    · cases hm
      rw [workers_resumeHarness]
      exact ⟨ht,rfl⟩
    · cases hm
  | launch i s =>
    simp only [EchoSupervisor.move] at hm
    split at hm
    · unfold EchoSupervisor.launch at hm
      split at hm
      · cases hm
        exact ⟨ht,rfl⟩
      · split at hm
        · cases hm
        · rename_i hfree
          cases hm
          have hne : slot ≠ s := by
            intro heq
            rw [heq,hfree] at ht
            cases ht
          exact ⟨(Table.get?_put_ne _ _ hne).trans ht,rfl⟩
    · cases hm
  | work s report w =>
    have hne : slot ≠ s := fun heq => (of_decide_eq_false hwork) heq.symm
    obtain ⟨u,_,hm⟩ := Option.bind_eq_some_iff.mp hm
    obtain ⟨out,_,rfl⟩ := Option.map_eq_some_iff.mp hm
    exact ⟨(Table.get?_put_ne _ _ hne).trans ht,rfl⟩
  | removeEntry s =>
    obtain ⟨u,hu,hm⟩ := Option.bind_eq_some_iff.mp hm
    unfold EchoSupervisor.removeEntry at hm
    split at hm
    · rename_i hret
      cases hm
      have hne : slot ≠ s := by
        intro heq
        rw [← heq,ht] at hu
        cases hu
        exact hphase hret
      exact ⟨(Table.get?_erase_ne _ hne).trans ht,decide_eq_false (fun heq => hne heq.symm)⟩
    · cases hm

theorem willRead_of_phase (ht : c.workers.get? slot = some t)
    (hphase : t.phase ≠ .returning) : WillRead v c slot := by
  intro ms
  induction ms generalizing c with
  | nil =>
    intro _ _ m hm
    cases hm
  | cons m ms ih =>
    intro hsome hwork m' hm'
    cases hmove : v.move c m with
    | none => simp [EchoSupervisor.moves,hmove] at hsome
    | some c₁ =>
      simp only [EchoSupervisor.moves,hmove,Option.bind_some] at hsome
      obtain ⟨ht₁,hremoves⟩ := move_slot ht hphase (hwork m (by simp)) hmove
      rcases List.mem_cons.mp hm' with rfl | hin
      · exact hremoves
      · exact ih ht₁ hsome (fun m hm => hwork m (List.mem_cons_of_mem _ hm)) m' hin

end Steps

section Main
variable {v : EchoSupervisor} {allowed : Process → ProcessMove → Prop} {c : Process}

/-- In a run where no launch joins a worker that has decided to return, a worker listed
for a running Echo Run reads it again before it removes its entry, or a `run.start` or
`run.resume` is still about to launch one. -/
theorem running_echo_is_driven (hallowed : ∀ c m, allowed c m → ¬ joinsLeaver c m)
    (h : v.Reachable allowed c) {path : ProjectId} {run_id : RunId} {row : RunRow}
    (hrow : (c.logs path).runs.get? run_id = some row) (hecho : row.worker = RosterCharter.echo.asStr)
    (hrunning : row.status = "running") :
    (∃ slot t, c.workers.get? slot = some t ∧ t.key = ⟨path,run_id⟩ ∧ c.active t.key = true ∧
      WillRead v c slot) ∨
    ∃ i, c.calls.get? i = some (.launching path ⟨path,run_id⟩) := by
  have hs := reachable_supervised hallowed h
  have hwants : WantsWorker (c.logs path) run_id := by
    refine ⟨row,hrow,hecho,?_,?_⟩
    · rw [hrunning]
      exact running_open
    · rw [hrunning]
      decide
  rcases hs.driven path run_id hwants with ⟨slot,t,ht,_,hkey,hphase⟩ | hcall
  · exact Or.inl ⟨slot,t,ht,hkey,(hs.listed.keyed slot t ht).2,willRead_of_phase ht hphase⟩
  · exact Or.inr hcall

end Main

def EchoPhase.isReturning : EchoPhase → Bool
  | .returning => true
  | _ => false

def joinsNobody (c : Process) : ProcessMove → Bool
  | .launch _ _ => c.workers.rows.all fun row => !EchoPhase.isReturning row.2.phase
  | _ => true

theorem joinsNobody_allows {c : Process} {m : ProcessMove} (h : joinsNobody c m = true) :
    ¬ joinsLeaver c m := by
  cases m with
  | launch i s =>
    rintro ⟨path,key,slot,t,_,ht,_,hret,_⟩
    have hall := List.all_eq_true.mp h (slot,t) ((Table.mem_rows c.workers).mpr ht)
    simp [hret,EchoPhase.isReturning] at hall
  | _ => exact id

namespace EchoSupervisor

def runsTo (v : EchoSupervisor) (test : Process → ProcessMove → Bool) :
    Process → List ProcessMove → Option Process
  | c, [] => some c
  | c, m::ms => if test c m then (v.move c m).bind fun c' => runsTo v test c' ms else none

variable {v : EchoSupervisor}

theorem reachable_mono {a b : Process → ProcessMove → Prop} {c : Process}
    (hab : ∀ c m, a c m → b c m) (h : v.Reachable a c) : v.Reachable b c := by
  induction h with
  | refl => exact .refl
  | tail _ hstep ih =>
    obtain ⟨m,hm,hmove⟩ := hstep
    exact ih.tail ⟨m,hab _ m hm,hmove⟩

theorem runsTo_reachable {test : Process → ProcessMove → Bool} {c d : Process}
    {ms : List ProcessMove} (h : v.runsTo test c ms = some d)
    (hc : v.Reachable (fun c m => test c m = true) c) :
    v.Reachable (fun c m => test c m = true) d := by
  induction ms generalizing c with
  | nil =>
    cases h
    exact hc
  | cons m ms ih =>
    rw [runsTo] at h
    split at h
    · rename_i htest
      obtain ⟨c',hm,h⟩ := Option.bind_eq_some_iff.mp h
      exact ih h (hc.tail ⟨m,htest,hm⟩)
    · cases h

end EchoSupervisor

def demoSupervisor : EchoSupervisor := ⟨true,fun _ => 0,demoHarness.runtimes⟩

def calm : Weather runSignature := ⟨[],[]⟩

def noReport : ToolEffectReport := ⟨0,0,RunUsage.default,none,none⟩

def pausedMoves : List ProcessMove :=
  [.start 0 ⟨1⟩ demoSpec calm,.launch 0 0,.pause ⟨1⟩ ⟨7⟩ "wait" calm,.work 0 noReport calm]

def resumedMoves : List ProcessMove :=
  pausedMoves ++ [.removeEntry 0,.resume 0 ⟨1⟩ ⟨7⟩,.resumeHarness 0 calm,.launch 0 0]

def lostMoves : List ProcessMove :=
  pausedMoves ++ [.resume 0 ⟨1⟩ ⟨7⟩,.resumeHarness 0 calm,.launch 0 0,.removeEntry 0]

def isRunningEcho (c : Process) : Bool :=
  ((c.logs ⟨1⟩).runs.get? ⟨7⟩).any fun row =>
    decide (row.worker = RosterCharter.echo.asStr ∧ row.status = "running")

theorem isRunningEcho_row {c : Process} (h : isRunningEcho c = true) :
    ∃ row, (c.logs ⟨1⟩).runs.get? ⟨7⟩ = some row ∧ row.worker = RosterCharter.echo.asStr ∧
      row.status = "running" := by
  unfold isRunningEcho at h
  cases hrow : (c.logs ⟨1⟩).runs.get? ⟨7⟩ with
  | none =>
    rw [hrow] at h
    cases h
  | some row =>
    rw [hrow] at h
    exact ⟨row,rfl,of_decide_eq_true h⟩

theorem any_some {α : Type} {o : Option α} {p : α → Bool} (h : o.any p = true) :
    ∃ a, o = some a ∧ p a = true := by
  cases o with
  | none => cases h
  | some a => exact ⟨a,rfl,h⟩

theorem running_echo_is_driven_demo : ∃ c, demoSupervisor.Reachable
      (fun c m => joinsNobody c m = true) c ∧ isRunningEcho c = true ∧
    ((∃ slot t, c.workers.get? slot = some t ∧ t.key = ⟨⟨1⟩,⟨7⟩⟩ ∧ c.active t.key = true ∧
        WillRead demoSupervisor c slot) ∨
      ∃ i, c.calls.get? i = some (.launching ⟨1⟩ ⟨⟨1⟩,⟨7⟩⟩)) := by
  have hruns : ((demoSupervisor.runsTo joinsNobody Process.initial resumedMoves).any
      isRunningEcho) = true := by decide
  obtain ⟨c,hc,hrunning⟩ := any_some hruns
  have hreach := EchoSupervisor.runsTo_reachable hc .refl
  obtain ⟨row,hrow,hecho,hstatus⟩ := isRunningEcho_row hrunning
  exact ⟨c,hreach,hrunning,running_echo_is_driven (fun _ _ h => joinsNobody_allows h) hreach hrow
    hecho hstatus⟩

/-- A resume that has reported success leaves the Run running with nobody on it. -/
theorem resume_joins_leaving_worker :
    ¬ ∀ (v : EchoSupervisor) (c : Process), v.Reachable (fun _ _ => True) c →
      ∀ path run_id row, (c.logs path).runs.get? run_id = some row →
        row.worker = RosterCharter.echo.asStr → row.status = "running" →
        (∃ slot t, c.workers.get? slot = some t ∧ t.key = ⟨path,run_id⟩ ∧ c.active t.key = true ∧
          WillRead v c slot) ∨
        ∃ i, c.calls.get? i = some (.launching path ⟨path,run_id⟩) := by
  intro hclaim
  have hruns : ((demoSupervisor.runsTo (fun _ _ => true) Process.initial lostMoves).any
      fun c => isRunningEcho c && c.workers.rows.isEmpty && c.calls.rows.isEmpty) = true := by
    decide
  obtain ⟨c,hc,hend⟩ := any_some hruns
  simp only [Bool.and_eq_true,List.isEmpty_iff] at hend
  have hreach : demoSupervisor.Reachable (fun _ _ => True) c :=
    EchoSupervisor.reachable_mono (fun _ _ _ => trivial)
      (EchoSupervisor.runsTo_reachable hc .refl)
  obtain ⟨row,hrow,hecho,hstatus⟩ := isRunningEcho_row hend.1.1
  rcases hclaim demoSupervisor c hreach _ _ row hrow hecho hstatus with ⟨slot,t,ht,_⟩ | ⟨i,hi⟩
  · have hmem := (Table.mem_rows c.workers).mpr ht
    rw [hend.1.2] at hmem
    cases hmem
  · have hmem := (Table.mem_rows c.calls).mpr hi
    rw [hend.2] at hmem
    cases hmem

end ProjectOS.Api
