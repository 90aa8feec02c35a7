import ProjectOS.Api.Dispatch

/-! `project.open` and `project.close` of one runtime, called side by side. Each
changes the session table first and the registry of the worker pool behind it,
and each table has a lock of its own. -/

namespace ProjectOS.Api
open Lib List Function

def PROJECT_REGISTRY_COUNT_MAX : Nat := 64

/-- The directory a path resolves to, and the project it records. A copy records the
same one. -/
structure Disk where
  resolved : String → String
  project_id : String → ProjectId

structure ServedLog where
  directory : String
  deriving DecidableEq

inductive SessionVerb where
  | opens
  | closes
  deriving DecidableEq

structure SessionCommand where
  verb : SessionVerb
  path : String
  deriving DecidableEq

structure ProjectCloseReport where
  project_id : String
  path : String
  open_project_count : Nat

inductive SessionAnswer where
  | opened (row : OpenProjectRow)
  | closed (report : ProjectCloseReport)

inductive CallStage where
  | opening
  | tracking (opened : SessionOpen)
  | ensuring (project_id : ProjectId) (row : OpenProjectRow)
  | registering (project_id : ProjectId) (row : OpenProjectRow)
  | closing
  | unregistering (project_id : ProjectId) (report : ProjectCloseReport)

structure SessionCall where
  command : SessionCommand
  stage : CallStage
  wrote : Bool

structure Waiting where
  caller : Nat
  project_id : ProjectId
  command : SessionCommand

structure CallReport where
  command : SessionCommand
  result : Except ApiError SessionAnswer
  wrote : Bool

/-- The two tables, the calls under way, those that wait for the pool in session
order, and what was returned so far. -/
structure SessionWorld where
  rows : Session
  projects : Table ProjectId ServedLog
  calls : Nat → Option SessionCall
  waiting : List Waiting
  reports : List CallReport

/-- How opening comes out, the time, and whether the lease table cannot be created.
-/
structure CallInput where
  opened : Except ApiError SessionOpen := .ok ⟨⟨0⟩,none,"",0,0⟩
  now_ms : Nat := 0
  schema_fault : Option String := none

inductive SessionMove where
  | call (i : Nat) (command : SessionCommand)
  | act (i : Nat) (x : CallInput)

def worker_register_failed (error : String) : ApiError :=
  ⟨"worker_register_failed",s!"register the project with the scheduler: {error}",true⟩

def open_project_limit : ApiError :=
  ⟨"open_project_limit",s!"this session already tracks {OPEN_PROJECT_COUNT_MAX} " ++
    "projects; close one before opening another",false⟩

def not_open (path : String) : ApiError :=
  ⟨"not_open",s!"this session does not have {path.quote} open; nothing was closed",false⟩

def registry_full : String :=
  s!"the scheduler already serves {PROJECT_REGISTRY_COUNT_MAX} projects"

def full {ν : Type} (table : Table ProjectId ν) (bound : Nat) (key : ProjectId) : Bool :=
  decide (bound ≤ table.rows.length) && (table.get? key).isNone

def SessionCommand.first (command : SessionCommand) : CallStage :=
  match command.verb with
  | .opens => .opening
  | .closes => .closing

namespace SessionWorld

def empty : SessionWorld := ⟨Table.empty,Table.empty,fun _ => none,[],[]⟩

def goes (s : SessionWorld) (i : Nat) (call : SessionCall) : SessionWorld :=
  { s with calls := Function.update s.calls i (some call) }

def ends (s : SessionWorld) (i : Nat) (call : SessionCall)
    (result : Except ApiError SessionAnswer) : SessionWorld :=
  { s with
    calls := Function.update s.calls i none
    waiting := s.waiting.filter fun w => w.caller ≠ i
    reports := s.reports ++ [⟨call.command,result,call.wrote⟩] }

def tracks (s : SessionWorld) (i : Nat) (call : SessionCall) (rows : Session) (key : ProjectId)
    (stage : CallStage) : SessionWorld :=
  { s with
    rows
    calls := Function.update s.calls i (some { call with stage, wrote := true })
    waiting := s.waiting ++ [⟨i,key,call.command⟩] }

def settles (s : SessionWorld) (i : Nat) (call : SessionCall)
    (projects : Table ProjectId ServedLog) (answer : SessionAnswer) : SessionWorld :=
  { s.ends i call (.ok answer) with projects }

end SessionWorld

section
variable (disk : Disk)

def Disk.directory (command : SessionCommand) : String := disk.resolved command.path

def Disk.open_for_session (path : String) (opened : SessionOpen) : SessionOpen :=
  { opened with project_id := disk.project_id (disk.resolved path) }

def Disk.find (session : Session) (wanted : String) : Option ProjectId :=
  (session.rows.find? fun row => disk.resolved row.2.path = wanted).map Prod.fst

def SessionWorld.act (s : SessionWorld) (i : Nat) (call : SessionCall) (x : CallInput) :
    SessionWorld :=
  match call.stage with
  | .opening =>
    match x.opened with
    | .error error => s.ends i call (.error error)
    | .ok opened =>
      s.goes i { call with stage := .tracking (disk.open_for_session call.command.path opened) }
  | .tracking opened =>
    let row : OpenProjectRow := ⟨opened.project_id.toHex,call.command.path,opened.name,
      opened.template,opened.format_version,opened.head_seq,x.now_ms⟩
    if full s.rows OPEN_PROJECT_COUNT_MAX opened.project_id then
      s.ends i call (.error open_project_limit)
    else
      s.tracks i call (s.rows.put opened.project_id row) opened.project_id
        (.ensuring opened.project_id row)
  | .ensuring key row =>
    match x.schema_fault with
    | some error => s.ends i call (.error (worker_register_failed error))
    | none => s.goes i { call with stage := .registering key row }
  | .registering key row =>
    if full s.projects PROJECT_REGISTRY_COUNT_MAX key then
      s.ends i call (.error (worker_register_failed registry_full))
    else
      s.settles i call (s.projects.put key ⟨disk.directory call.command⟩) (.opened row)
  | .closing =>
    match disk.find s.rows (disk.directory call.command) with
    | none => s.ends i call (.error (not_open call.command.path))
    | some key =>
      let rows := s.rows.erase key
      s.tracks i call rows key
        (.unregistering key ⟨key.toHex,call.command.path,rows.rows.length⟩)
  | .unregistering key report => s.settles i call (s.projects.erase key) (.closed report)

def SessionWorld.step (s : SessionWorld) : SessionMove → SessionWorld
  | .call i command =>
    match s.calls i with
    | some _ => s
    | none => s.goes i ⟨command,command.first,false⟩
  | .act i x =>
    match s.calls i with
    | some call => s.act disk i call x
    | none => s

def SessionWorld.run (s : SessionWorld) (moves : List SessionMove) : SessionWorld :=
  moves.foldl (SessionWorld.step disk) s

def SessionWorld.along (ok : SessionWorld → SessionMove → Bool) :
    SessionWorld → List SessionMove → Bool
  | _, [] => true
  | s, m :: moves => ok s m && along ok (s.step disk m) moves

def Disk.effect (command : SessionCommand) : SessionVerb × String :=
  (command.verb,disk.directory command)

def SessionWorld.inTurn (s : SessionWorld) (i : Nat) : Bool :=
  (s.waiting.takeWhile fun w => w.caller ≠ i).all fun v => s.waiting.all fun w =>
    decide (w.caller = i → v.project_id = w.project_id →
      disk.effect v.command = disk.effect w.command)

def Disk.tracked (session : Session) (key : ProjectId) : Option String :=
  (session.get? key).map fun row => disk.resolved row.path

/-- No row replaces that of another directory, the pool refuses no project that has
its row, and it hears of the commands in the session table's order. -/
def SessionWorld.orderly (s : SessionWorld) : SessionMove → Bool
  | .call _ _ => true
  | .act i x =>
    match s.calls i with
    | none => true
    | some call =>
      match call.stage with
      | .tracking opened => (disk.tracked s.rows opened.project_id).all fun directory =>
        decide (directory = disk.directory call.command)
      | .ensuring _ _ => x.schema_fault.isNone
      | .registering key _ => !full s.projects PROJECT_REGISTRY_COUNT_MAX key && s.inTurn disk i
      | .unregistering _ _ => s.inTurn disk i
      | _ => true

def SessionWorld.last_success (s : SessionWorld) (directory : String) : Option SessionVerb :=
  (s.reports.filter fun r =>
    r.result.isOk && decide (disk.directory r.command = directory)).getLast?.map
      fun r => r.command.verb

def CallStage.key : CallStage → Option ProjectId
  | .ensuring key _
  | .registering key _
  | .unregistering key _ => some key
  | _ => none

def CallStage.verb : CallStage → SessionVerb
  | .closing => .closes
  | .unregistering _ _ => .closes
  | _ => .opens

def Disk.lastEffect (p : Waiting → Bool) (waiting : List Waiting) : Option (SessionVerb × String) :=
  (waiting.filter p).getLast?.map fun w => disk.effect w.command

def onProject (key : ProjectId) (w : Waiting) : Bool := decide (w.project_id = key)

def Disk.onDirectory (directory : String) (w : Waiting) : Bool :=
  decide (disk.directory w.command = directory)

def outcome : SessionVerb × String → Option String
  | (.opens,directory) => some directory
  | (.closes,_) => none

def Disk.Agree (effect : Option (SessionVerb × String)) (tracked served : Option String) : Prop :=
  match effect with
  | some effect => tracked = outcome effect
  | none => tracked = served

def Disk.Lists (effect : Option (SessionVerb × String)) (last : Option SessionVerb)
    (tracked : Prop) : Prop :=
  match effect with
  | some effect => tracked ↔ effect.1 = .opens
  | none => last = some .opens → tracked

def SessionWorld.served (s : SessionWorld) (key : ProjectId) : Option String :=
  (s.projects.get? key).map ServedLog.directory

/-- Every waiting entry is some caller's, and every caller that knows its project waits once. -/
structure SessionWorld.Manned (s : SessionWorld) : Prop where
  waits : ∀ w ∈ s.waiting, ∃ call, s.calls w.caller = some call ∧
    call.stage.key = some w.project_id ∧ call.command = w.command
  heard : ∀ i call, s.calls i = some call → ∀ key, call.stage.key = some key →
    ∃ w ∈ s.waiting, w.caller = i
  once : (s.waiting.map Waiting.caller).Nodup
  verbs : ∀ i call, s.calls i = some call → call.command.verb = call.stage.verb
  reads : ∀ i call, s.calls i = some call → ∀ opened, call.stage = .tracking opened →
    opened.project_id = disk.project_id (disk.directory call.command)
  idle : ∀ i call, s.calls i = some call → call.stage.key = none → call.wrote = false

/-- The tracking rows and the served projects are those the last settled calls left. -/
structure SessionWorld.Matched (s : SessionWorld) : Prop where
  keyed : ∀ w ∈ s.waiting, w.project_id = disk.project_id (disk.directory w.command)
  rowKey : ∀ key directory, disk.tracked s.rows key = some directory →
    disk.project_id directory = key
  agree : ∀ key, Disk.Agree (disk.lastEffect (onProject key) s.waiting)
    (disk.tracked s.rows key) (s.served key)
  lists : ∀ directory, Disk.Lists (disk.lastEffect (disk.onDirectory directory) s.waiting)
    (s.last_success disk directory)
    (disk.tracked s.rows (disk.project_id directory) = some directory)
  clean : ∀ report ∈ s.reports, report.command.verb = .opens →
    ∀ error, report.result = .error error → report.wrote = false

structure SessionWorld.Agreed (s : SessionWorld) : Prop where
  manned : s.Manned disk
  matched : s.Matched disk

variable {disk : Disk} {s : SessionWorld} {i : Nat} {call : SessionCall}

theorem SessionWorld.empty_agreed : SessionWorld.empty.Agreed disk := by
  refine ⟨⟨nofun,nofun,nodup_nil,nofun,nofun,nofun⟩,⟨nofun,nofun,fun _ => rfl,?_,nofun⟩⟩
  exact fun _ h => absurd h (by simp [last_success,empty])

theorem lastEffect_snoc (p : Waiting → Bool) (waiting : List Waiting) (w : Waiting) :
    disk.lastEffect p (waiting ++ [w]) =
      if p w then some (disk.effect w.command) else disk.lastEffect p waiting := by
  rw [Disk.lastEffect,filter_append]
  split
  · rename_i hp
    rw [filter_cons_of_pos hp,filter_nil,List.getLast?_concat,Option.map_some]
  · rename_i hp
    rw [filter_cons_of_neg hp,filter_nil,append_nil,Disk.lastEffect]

theorem lastEffect_removed (disk : Disk) (p : Waiting → Bool) (before after : List Waiting)
    (w : Waiting) (h : ∀ v ∈ before, p v → p w → disk.effect v.command = disk.effect w.command) :
    disk.lastEffect p (before ++ after) = disk.lastEffect p (before ++ w :: after) ∨
      disk.lastEffect p (before ++ after) = none ∧ p w ∧
        disk.lastEffect p (before ++ w :: after) = some (disk.effect w.command) := by
  simp only [Disk.lastEffect,filter_append]
  by_cases hp : p w = true
  swap
  · rw [filter_cons_of_neg hp]
    exact Or.inl rfl
  rw [filter_cons_of_pos hp]
  rcases eq_nil_or_concat (after.filter p) with hafter | ⟨front,v,hafter⟩
  · rw [hafter,append_nil,List.getLast?_concat]
    rcases eq_nil_or_concat (before.filter p) with hbefore | ⟨front,v,hbefore⟩
    · rw [hbefore]
      exact Or.inr ⟨rfl,hp,rfl⟩
    · have hv : v ∈ before.filter p := by simp [hbefore]
      obtain ⟨hmem,hpv⟩ := mem_filter.mp hv
      rw [hbefore,concat_eq_append,List.getLast?_concat,Option.map_some,Option.map_some,
        h v hmem hpv hp]
      exact Or.inl rfl
  · rw [hafter,concat_eq_append,← cons_append,← append_assoc,← append_assoc,
      List.getLast?_concat,List.getLast?_concat]
    exact Or.inl rfl

theorem SessionWorld.Manned.place (h : s.Manned disk) (hcall : s.calls i = some call)
    {key : ProjectId} (hkey : call.stage.key = some key) : ∃ before w after,
      s.waiting = before ++ w :: after ∧ w.caller = i ∧ w.project_id = key ∧
        w.command = call.command ∧
        s.waiting.filter (fun w => w.caller ≠ i) = before ++ after ∧
          s.waiting.takeWhile (fun w => w.caller ≠ i) = before := by
  obtain ⟨w,hmem,hi⟩ := h.heard i call hcall key hkey
  obtain ⟨call',hcall',hkey',hcommand⟩ := h.waits w hmem
  rw [hi,hcall] at hcall'
  cases hcall'
  rw [hkey] at hkey'
  cases hkey'
  obtain ⟨before,after,hsplit⟩ := append_of_mem hmem
  refine ⟨before,w,after,hsplit,hi,rfl,hcommand.symm,?_⟩
  have honce := h.once
  rw [hsplit,map_append,map_cons,nodup_append] at honce
  obtain ⟨-,hcons,hapart⟩ := honce
  have hnodup := nodup_cons.mp hcons
  have hfront : ∀ v ∈ before, decide (v.caller ≠ i) = true := fun v hv => by
    have hne := hapart _ (mem_map_of_mem hv) _ (mem_cons_self ..)
    simpa [hi] using hne
  have hback : ∀ v ∈ after, decide (v.caller ≠ i) = true := fun v hv => by
    have hne : v.caller ≠ w.caller := fun heq => hnodup.1 (heq ▸ mem_map_of_mem hv)
    simpa [hi] using hne
  constructor
  · rw [hsplit,filter_append,filter_cons_of_neg (by simp [hi]),
      filter_eq_self.mpr hfront,filter_eq_self.mpr hback]
  · rw [hsplit,takeWhile_append_of_pos hfront,takeWhile_cons_of_neg (by simp [hi]),
      append_nil]

theorem SessionWorld.Manned.absent (h : s.Manned disk)
    (hcall : ∀ call, s.calls i = some call → call.stage.key = none) :
    ∀ w ∈ s.waiting, w.caller ≠ i := by
  rintro w hw rfl
  obtain ⟨call,hcall',hkey,-⟩ := h.waits w hw
  rw [hcall call hcall'] at hkey
  cases hkey

theorem SessionWorld.Matched.goes (h : s.Matched disk) (call : SessionCall) :
    (s.goes i call).Matched disk := ⟨h.keyed,h.rowKey,h.agree,h.lists,h.clean⟩

variable {call' : SessionCall}

theorem goes_calls {P : Nat → SessionCall → Prop} (hi : P i call')
    (h : ∀ j call, s.calls j = some call → P j call) (j : Nat) (call : SessionCall)
    (hj : (s.goes i call').calls j = some call) : P j call := by
  change Function.update s.calls i (some call') j = some call at hj
  by_cases heq : j = i
  · subst heq
    rw [update_self] at hj
    cases hj
    exact hi
  · rw [update_of_ne heq] at hj
    exact h j call hj

theorem SessionWorld.Manned.goes (h : s.Manned disk)
    (hwaits : ∀ w ∈ s.waiting, w.caller = i →
      call'.stage.key = some w.project_id ∧ call'.command = w.command)
    (hheard : ∀ key, call'.stage.key = some key → ∃ w ∈ s.waiting, w.caller = i)
    (hverb : call'.command.verb = call'.stage.verb)
    (hreads : ∀ opened, call'.stage = .tracking opened →
      opened.project_id = disk.project_id (disk.directory call'.command))
    (hidle : call'.stage.key = none → call'.wrote = false) : (s.goes i call').Manned disk := by
  refine ⟨fun w hw => ?_,goes_calls hheard h.heard,h.once,goes_calls hverb h.verbs,
    goes_calls hreads h.reads,goes_calls hidle h.idle⟩
  by_cases heq : w.caller = i
  · refine ⟨call',?_,hwaits w hw heq⟩
    change Function.update s.calls i (some call') w.caller = some call'
    rw [heq,update_self]
  · rw [SessionWorld.goes]
    simp only [update_of_ne heq]
    exact h.waits w hw

theorem SessionWorld.Manned.called (h : s.Manned disk) (hnone : s.calls i = none)
    (command : SessionCommand) : (s.goes i ⟨command,command.first,false⟩).Manned disk := by
  have hfirst : command.first.key = none ∧ command.first.verb = command.verb ∧
      ∀ opened, command.first ≠ .tracking opened := by
    obtain ⟨verb,path⟩ := command
    cases verb with
    | opens | closes => exact ⟨rfl,rfl,nofun⟩
  obtain ⟨hkey,hverb,hreads⟩ := hfirst
  have habsent := h.absent (i := i) fun call hcall => by simp [hnone] at hcall
  refine h.goes (fun w hw heq => absurd heq (habsent w hw)) (fun key hk => ?_) hverb.symm
    (fun opened hopened => absurd hopened (hreads opened)) fun _ => rfl
  rw [hkey] at hk
  cases hk

theorem SessionWorld.Manned.proceeds (h : s.Manned disk) (hcall : s.calls i = some call)
    {stage : CallStage} (hkey : stage.key = call.stage.key) (hverb : stage.verb = call.stage.verb)
    (hreads : ∀ opened, stage = .tracking opened →
      opened.project_id = disk.project_id (disk.directory call.command)) :
    (s.goes i { call with stage }).Manned disk := by
  refine h.goes (fun w hw heq => ?_) (fun key hk => h.heard i call hcall key (hkey ▸ hk))
    ((h.verbs i call hcall).trans hverb.symm) hreads fun hk => h.idle i call hcall (hkey ▸ hk)
  obtain ⟨call',hcall',hkey',hcommand⟩ := h.waits w hw
  rw [heq,hcall] at hcall'
  cases hcall'
  exact ⟨hkey.trans hkey',hcommand⟩

theorem ends_calls {result : Except ApiError SessionAnswer} {j : Nat} {other : SessionCall}
    (h : (s.ends i call result).calls j = some other) : j ≠ i ∧ s.calls j = some other := by
  change Function.update s.calls i none j = some other at h
  by_cases heq : j = i
  · subst heq
    rw [update_self] at h
    cases h
  · rw [update_of_ne heq] at h
    exact ⟨heq,h⟩

theorem SessionWorld.Manned.ends (h : s.Manned disk) (call : SessionCall)
    (result : Except ApiError SessionAnswer) :
    (s.ends i call result).Manned disk := by
  refine ⟨fun w hw => ?_,fun j other hj key hkey => ?_,?_,fun j other hj => ?_,
    fun j other hj => ?_,fun j other hj => ?_⟩
  · obtain ⟨hw,hne⟩ := mem_filter.mp hw
    obtain ⟨other,hother,hrest⟩ := h.waits w hw
    refine ⟨other,?_,hrest⟩
    rw [SessionWorld.ends]
    simp only [update_of_ne (of_decide_eq_true hne)]
    exact hother
  · obtain ⟨hne,hj⟩ := ends_calls hj
    obtain ⟨w,hw,hcaller⟩ := h.heard j other hj key hkey
    refine ⟨w,mem_filter.mpr ⟨hw,?_⟩,hcaller⟩
    simpa [hcaller] using hne
  · exact h.once.sublist (filter_sublist.map _)
  · exact h.verbs j other (ends_calls hj).2
  · exact h.reads j other (ends_calls hj).2
  · exact h.idle j other (ends_calls hj).2

theorem last_success_ends (disk : Disk) (s : SessionWorld) (i : Nat) (call : SessionCall)
    (result : Except ApiError SessionAnswer) (directory : String) :
    (s.ends i call result).last_success disk directory =
      if result.isOk ∧ disk.directory call.command = directory then some call.command.verb
      else s.last_success disk directory := by
  simp only [SessionWorld.last_success,SessionWorld.ends,filter_append]
  split
  · rename_i h
    rw [filter_cons_of_pos (by simp [h.1,h.2]),filter_nil,List.getLast?_concat,
      Option.map_some]
  · rename_i h
    rw [filter_cons_of_neg (by simpa using h),filter_nil,append_nil]

theorem SessionWorld.Agreed.fails (h : s.Agreed disk) (hcall : s.calls i = some call)
    (hkey : call.stage.key = none) (error : ApiError) :
    (s.ends i call (.error error)).Agreed disk := by
  have hsame : s.waiting.filter (fun w => w.caller ≠ i) = s.waiting := by
    refine filter_eq_self.mpr fun w hw => ?_
    have hne := h.manned.absent (i := i) (fun other hother => by
      rw [hcall] at hother
      cases hother
      exact hkey) w hw
    exact decide_eq_true hne
  refine ⟨h.manned.ends call _,?_,h.matched.rowKey,?_,fun directory => ?_,fun report hreport => ?_⟩
  · exact fun w hw => h.matched.keyed w (mem_of_mem_filter hw)
  · intro key
    rw [SessionWorld.ends,hsame]
    exact h.matched.agree key
  · have hlists := h.matched.lists directory
    rw [last_success_ends,if_neg (by simp [Except.isOk,Except.toBool]),SessionWorld.ends,hsame]
    exact hlists
  · rcases mem_append.mp hreport with hreport | hreport
    · exact h.matched.clean report hreport
    · cases mem_singleton.mp hreport
      exact fun _ _ _ => h.manned.idle i call hcall hkey

theorem tracked_put (rows : Session) (key other : ProjectId) (row : OpenProjectRow) :
    disk.tracked (rows.put key row) other =
      if other = key then some (disk.resolved row.path) else disk.tracked rows other := by
  rw [Disk.tracked,Table.get?_put]
  split
  · rfl
  · rfl

theorem tracked_erase (rows : Session) (key other : ProjectId) :
    disk.tracked (rows.erase key) other =
      if other = key then none else disk.tracked rows other := by
  rw [Disk.tracked,Table.get?_erase]
  split
  · rfl
  · rfl

theorem outcome_eq_some {command : SessionCommand} {directory : String}
    (h : outcome (disk.effect command) = some directory) :
    command.verb = .opens ∧ disk.directory command = directory := by
  obtain ⟨verb,path⟩ := command
  cases verb with
  | opens => exact ⟨rfl,Option.some.inj h⟩
  | closes => cases h

section
variable {rows : Session} {key : ProjectId} {stage : CallStage}

theorem SessionWorld.Manned.tracks (h : s.Manned disk) (hcall : s.calls i = some call)
    (hnone : call.stage.key = none) (hstage : stage.key = some key)
    (hverb : stage.verb = call.stage.verb) : (s.tracks i call rows key stage).Manned disk := by
  have habsent := h.absent (i := i) fun other hother => by
    rw [hcall] at hother
    cases hother
    exact hnone
  refine ⟨fun w hw => ?_,fun j other hj k hk => ?_,?_,
    goes_calls ((h.verbs i call hcall).trans hverb.symm) h.verbs,
    goes_calls (fun opened hopened => ?_) h.reads,goes_calls (fun hk => ?_) h.idle⟩
  · rcases mem_append.mp hw with hw | hw
    · simp only [SessionWorld.tracks,update_of_ne (habsent w hw)]
      exact h.waits w hw
    · cases mem_singleton.mp hw
      refine ⟨{ call with stage, wrote := true },?_,hstage,rfl⟩
      simp [SessionWorld.tracks]
  · by_cases heq : j = i
    · exact ⟨_,mem_append_right _ (mem_singleton_self _),heq.symm⟩
    · simp only [SessionWorld.tracks,update_of_ne heq] at hj
      obtain ⟨w,hw,hcaller⟩ := h.heard j other hj k hk
      exact ⟨w,mem_append_left _ hw,hcaller⟩
  · rw [SessionWorld.tracks,map_append,nodup_append]
    refine ⟨h.once,nodup_singleton _,fun a ha b hb => ?_⟩
    obtain ⟨w,hw,rfl⟩ := mem_map.mp ha
    obtain rfl := mem_singleton.mp hb
    exact habsent w hw
  · rw [show stage = .tracking opened from hopened] at hstage
    cases hstage
  · rw [show stage.key = none from hk] at hstage
    cases hstage

theorem SessionWorld.Matched.tracks (h : s.Matched disk)
    (hkey : key = disk.project_id (disk.directory call.command))
    (hat : disk.tracked rows key = outcome (disk.effect call.command))
    (hother : ∀ k, k ≠ key → disk.tracked rows k = disk.tracked s.rows k)
    (hlost : ∀ directory, disk.tracked s.rows key = some directory →
      directory = disk.directory call.command) :
    (s.tracks i call rows key stage).Matched disk := by
  refine ⟨fun w hw => ?_,fun k directory hk => ?_,fun k => ?_,fun directory => ?_,h.clean⟩
  · rcases mem_append.mp hw with hw | hw
    · exact h.keyed w hw
    · cases mem_singleton.mp hw
      exact hkey
  · change disk.tracked rows k = some directory at hk
    by_cases heq : k = key
    · rw [heq,hat] at hk
      rw [← (outcome_eq_some hk).2,heq,hkey]
    · rw [hother k heq] at hk
      exact h.rowKey k directory hk
  · have hagree := h.agree k
    simp only [SessionWorld.tracks,lastEffect_snoc,onProject,decide_eq_true_eq]
    split
    · rename_i heq
      rw [← heq]
      exact hat
    · rename_i hne
      rw [hother k (Ne.symm hne)]
      exact hagree
  · have hlists := h.lists directory
    simp only [SessionWorld.tracks,lastEffect_snoc,Disk.onDirectory,decide_eq_true_eq]
    split
    · rename_i heq
      rw [← heq,← hkey,hat]
      constructor
      · exact fun hout => (outcome_eq_some hout).1
      · intro hopens
        rw [Disk.effect] at hopens ⊢
        rw [show call.command.verb = .opens from hopens]
        rfl
    · rename_i hne
      have hsame : disk.tracked rows (disk.project_id directory) = some directory ↔
          disk.tracked s.rows (disk.project_id directory) = some directory := by
        by_cases hk : disk.project_id directory = key
        · rw [hk,hat]
          constructor
          · exact fun hout => absurd (outcome_eq_some hout).2 hne
          · exact fun hold => absurd (hlost directory hold).symm hne
        · rw [hother _ hk]
      rw [propext hsame]
      exact hlists

end

theorem lastEffect_isSome (disk : Disk) (p : Waiting → Bool) {waiting : List Waiting} {w : Waiting}
    (hw : w ∈ waiting) (hp : p w) : disk.lastEffect p waiting ≠ none := by
  rw [Disk.lastEffect,Ne,Option.map_eq_none_iff,List.getLast?_eq_none_iff]
  exact ne_nil_of_mem (mem_filter.mpr ⟨hw,hp⟩)

section
variable {key : ProjectId} {projects : Table ProjectId ServedLog}

theorem SessionWorld.Agreed.settles (h : s.Agreed disk) (hcall : s.calls i = some call)
    (hkey : call.stage.key = some key) (hturn : s.inTurn disk i = true)
    (hat : (projects.get? key).map ServedLog.directory = outcome (disk.effect call.command))
    (hother : ∀ k, k ≠ key → projects.get? k = s.projects.get? k) (answer : SessionAnswer) :
    (s.settles i call projects answer).Agreed disk := by
  have hends := h.manned.ends (i := i) call (.ok answer)
  obtain ⟨before,w,after,hsplit,hi,rfl,hcommand,hremoved,hfront⟩ := h.manned.place hcall hkey
  have hw : w ∈ s.waiting := hsplit ▸ mem_append_right _ (mem_cons_self ..)
  have hkeyed := h.matched.keyed
  have hseen : ∀ v ∈ before, v.project_id = w.project_id →
      disk.effect v.command = disk.effect w.command := fun v hv => by
    rw [SessionWorld.inTurn,hfront] at hturn
    exact of_decide_eq_true (all_eq_true.mp (all_eq_true.mp hturn v hv) w hw) hi
  refine ⟨⟨hends.waits,hends.heard,hends.once,hends.verbs,hends.reads,hends.idle⟩,
    fun v hv => hkeyed v (mem_of_mem_filter hv),h.matched.rowKey,fun k => ?_,
    fun directory => ?_,fun report hreport => ?_⟩
  · have hagree := h.matched.agree k
    have hsome := lastEffect_isSome disk (onProject k) hw
    simp only [SessionWorld.settles,SessionWorld.ends,SessionWorld.served,hremoved]
    rw [hsplit] at hagree hsome
    by_cases hk : w.project_id = k
    · rcases lastEffect_removed disk (onProject k) before after w (fun v hv hpv _ => hseen v hv
          ((of_decide_eq_true hpv).trans hk.symm)) with hsame | ⟨hnone,-,hlast⟩
      · rw [hsame]
        cases heffect : disk.lastEffect (onProject k) (before ++ w :: after) with
        | none => exact absurd heffect (hsome (decide_eq_true hk))
        | some effect =>
          rw [heffect] at hagree
          exact hagree
      · rw [hlast] at hagree
        rw [hnone]
        exact hagree.trans (by rw [← hk,hat,hcommand])
    · rcases lastEffect_removed disk (onProject k) before after w
        (fun v hv _ hpw => absurd (of_decide_eq_true hpw) hk)
        with hsame | ⟨-,hpw,-⟩
      · rw [hsame,hother k (Ne.symm hk)]
        exact hagree
      · exact absurd (of_decide_eq_true hpw) hk
  · have hlists := h.matched.lists directory
    have hsome := lastEffect_isSome disk (disk.onDirectory directory) hw
    have hlast := last_success_ends disk s i call (.ok answer) directory
    change Disk.Lists (disk.lastEffect _ (s.waiting.filter fun w => w.caller ≠ i))
      ((s.ends i call (.ok answer)).last_success disk directory) _
    rw [hlast,hremoved]
    rw [hsplit] at hlists hsome
    by_cases hd : disk.directory call.command = directory
    · rw [if_pos ⟨rfl,hd⟩]
      rcases lastEffect_removed disk (disk.onDirectory directory) before after w
        (fun v hv hpv hpw => hseen v hv (by
          rw [hkeyed v (hsplit ▸ mem_append_left _ hv),hkeyed w hw,of_decide_eq_true hpv,
            of_decide_eq_true hpw])) with hsame | ⟨hnone,-,hlast⟩
      · rw [hsame]
        cases heffect : disk.lastEffect (disk.onDirectory directory) (before ++ w :: after) with
        | none => exact absurd heffect (hsome (decide_eq_true (hcommand ▸ hd)))
        | some effect =>
          rw [heffect] at hlists
          exact hlists
      · rw [hlast] at hlists
        rw [hnone]
        intro hopens
        refine hlists.mpr ?_
        rw [hcommand]
        exact Option.some.inj hopens
    · rw [if_neg fun h => hd h.2]
      rcases lastEffect_removed disk (disk.onDirectory directory) before after w
        (fun v hv _ hpw => absurd (hcommand ▸ of_decide_eq_true hpw) hd) with hsame | ⟨-,hpw,-⟩
      · rw [hsame]
        exact hlists
      · exact absurd (hcommand ▸ of_decide_eq_true hpw) hd
  · rcases mem_append.mp hreport with hreport | hreport
    · exact h.matched.clean report hreport
    · cases mem_singleton.mp hreport
      exact fun _ error herror => by cases herror

end

theorem find_some {session : Session} {wanted : String} {key : ProjectId}
    (h : disk.find session wanted = some key) : disk.tracked session key = some wanted := by
  obtain ⟨⟨k,row⟩,hfind,rfl⟩ := Option.map_eq_some_iff.mp h
  have hget := (Table.mem_rows session).mp (mem_of_find?_eq_some hfind)
  rw [Disk.tracked,hget,Option.map_some]
  have hmatch := List.find?_some hfind
  exact congrArg some (of_decide_eq_true hmatch)

theorem act_agreed (h : s.Agreed disk) (hcall : s.calls i = some call) {x : CallInput}
    (hok : s.orderly disk (.act i x) = true) : (s.act disk i call x).Agreed disk := by
  have hverb := h.manned.verbs i call hcall
  have hreads := h.manned.reads i call hcall
  simp only [SessionWorld.orderly,hcall] at hok
  obtain ⟨⟨verb,path⟩,stage,wrote⟩ := call
  cases stage with
  | opening =>
    rw [SessionWorld.act]
    cases x.opened with
    | error error => exact h.fails hcall rfl error
    | ok opened =>
      refine ⟨h.manned.proceeds hcall rfl rfl fun other hother => ?_,h.matched.goes _⟩
      cases hother
      rfl
  | tracking opened =>
    obtain rfl : verb = .opens := hverb
    rw [SessionWorld.act]
    simp only
    split
    · exact h.fails hcall rfl _
    · refine ⟨h.manned.tracks hcall rfl rfl rfl,h.matched.tracks (hreads opened rfl) ?_ ?_ ?_⟩
      · rw [tracked_put,if_pos rfl]
        rfl
      · intro k hk
        rw [tracked_put,if_neg hk]
      · intro directory hdirectory
        change Option.all _ (disk.tracked s.rows opened.project_id) = true at hok
        rw [hdirectory] at hok
        exact of_decide_eq_true hok
  | ensuring key row =>
    rw [SessionWorld.act]
    simp only
    rw [Option.isNone_iff_eq_none.mp hok]
    exact ⟨h.manned.proceeds hcall rfl rfl nofun,h.matched.goes _⟩
  | registering key row =>
    obtain rfl : verb = .opens := hverb
    obtain ⟨hfull,hturn⟩ := Bool.and_eq_true_iff.mp hok
    rw [SessionWorld.act]
    simp only
    rw [if_neg (by simpa using hfull)]
    refine h.settles hcall rfl hturn ?_ (fun k hk => Table.get?_put_ne _ _ hk) _
    rw [Table.get?_put_self]
    rfl
  | closing =>
    obtain rfl : verb = .closes := hverb
    rw [SessionWorld.act]
    simp only
    cases hfind : disk.find s.rows (disk.directory ⟨.closes,path⟩) with
    | none => exact h.fails hcall rfl _
    | some key =>
      have htracked := find_some hfind
      refine ⟨h.manned.tracks hcall rfl rfl rfl,h.matched.tracks
        (h.matched.rowKey key _ htracked).symm ?_ ?_ ?_⟩
      · rw [tracked_erase,if_pos rfl]
        rfl
      · intro k hk
        rw [tracked_erase,if_neg hk]
      · intro directory hdirectory
        rw [htracked] at hdirectory
        exact (Option.some.inj hdirectory).symm
  | unregistering key report =>
    obtain rfl : verb = .closes := hverb
    refine h.settles hcall rfl hok ?_ (fun k hk => Table.get?_erase_ne _ hk) _
    rw [Table.get?_erase_self]
    rfl

theorem step_agreed (h : s.Agreed disk) {m : SessionMove} (hok : s.orderly disk m = true) :
    (s.step disk m).Agreed disk := by
  cases m with
  | call i command =>
    rw [SessionWorld.step]
    cases hcall : s.calls i with
    | some call => exact h
    | none => exact ⟨h.manned.called hcall command,h.matched.goes _⟩
  | act i x =>
    rw [SessionWorld.step]
    cases hcall : s.calls i with
    | some call => exact act_agreed h hcall hok
    | none => exact h

theorem run_agreed (h : s.Agreed disk) {moves : List SessionMove}
    (hok : s.along disk (SessionWorld.orderly disk) moves = true) :
    (s.run disk moves).Agreed disk := by
  induction moves generalizing s with
  | nil => exact h
  | cons m moves ih =>
    obtain ⟨hm,hmoves⟩ := Bool.and_eq_true_iff.mp hok
    exact ih (step_agreed h hm) hmoves

theorem SessionWorld.Agreed.rest (h : s.Agreed disk) (hrest : ∀ i, s.calls i = none) :
    s.waiting = [] := by
  refine eq_nil_iff_forall_not_mem.mpr fun w hw => ?_
  obtain ⟨call,hcall,-⟩ := h.manned.waits w hw
  rw [hrest] at hcall
  cases hcall

/-- The tables hold the same projects, each served on its row's directory; every
directory opened with success is listed, and no failed open changed a table. -/
structure SessionWorld.TablesMatch (disk : Disk) (s : SessionWorld) : Prop where
  same : ∀ key, (s.rows.get? key).isSome = (s.projects.get? key).isSome
  served : ∀ key row log, s.rows.get? key = some row → s.projects.get? key = some log →
    log.directory = disk.resolved row.path
  listed : ∀ path, s.last_success disk (disk.resolved path) = some .opens →
    ∃ key row, s.rows.get? key = some row ∧ disk.resolved row.path = disk.resolved path
  clean : ∀ report ∈ s.reports, report.command.verb = .opens →
    ∀ error, report.result = .error error → report.wrote = false

/-- Along a run in which no row replaces that of another directory, the pool refuses no
project behind its row and hears of the commands on a project in the order of the session
table, the tables match whenever no command is under way. -/
theorem tables_match (disk : Disk) (moves : List SessionMove)
    (hok : SessionWorld.empty.along disk (SessionWorld.orderly disk) moves = true)
    (hrest : ∀ i, (SessionWorld.empty.run disk moves).calls i = none) :
    (SessionWorld.empty.run disk moves).TablesMatch disk := by
  have hagreed := run_agreed SessionWorld.empty_agreed hok
  have hnobody := hagreed.rest hrest
  have hsame : ∀ key, disk.tracked (SessionWorld.empty.run disk moves).rows key =
      (SessionWorld.empty.run disk moves).served key := fun key => by
    have hagree := hagreed.matched.agree key
    rw [hnobody] at hagree
    exact hagree
  refine ⟨fun key => ?_,fun key row log hrow hlog => ?_,fun path hlast => ?_,
    hagreed.matched.clean⟩
  · have hsome := congrArg Option.isSome (hsame key)
    rwa [Disk.tracked,SessionWorld.served,Option.isSome_map,Option.isSome_map] at hsome
  · have heq := hsame key
    rw [Disk.tracked,SessionWorld.served,hrow,hlog] at heq
    exact (Option.some.inj heq).symm
  · have hlists := hagreed.matched.lists (disk.resolved path)
    rw [hnobody] at hlists
    obtain ⟨row,hrow,hresolved⟩ := Option.map_eq_some_iff.mp (hlists hlast)
    exact ⟨_,row,hrow,hresolved⟩

end

def SessionMove.caller : SessionMove → Nat
  | .call i _ => i
  | .act i _ => i

theorem step_other (disk : Disk) (s : SessionWorld) {m : SessionMove} {i : Nat}
    (h : m.caller ≠ i) : (s.step disk m).calls i = s.calls i := by
  cases m with
  | call j command =>
    rw [SessionWorld.step]
    cases s.calls j with
    | some call => rfl
    | none => exact update_of_ne h.symm ..
  | act j x =>
    rw [SessionWorld.step]
    cases s.calls j with
    | none => rfl
    | some call =>
      simp only [SessionWorld.act]
      split
      all_goals try split
      all_goals exact update_of_ne h.symm ..

variable {moves : List SessionMove}

theorem run_other (disk : Disk) (s : SessionWorld) {i : Nat}
    (h : ∀ m ∈ moves, m.caller ≠ i) : (s.run disk moves).calls i = s.calls i := by
  induction moves generalizing s with
  | nil => rfl
  | cons m moves ih =>
    have hrest := ih (s.step disk m) fun n hn => h n (mem_cons_of_mem _ hn)
    exact hrest.trans (step_other disk s (h m (mem_cons_self ..)))

def twoProjects : Disk := ⟨id,fun path => if path = "beta" then ⟨2⟩ else ⟨1⟩⟩

def sections (i n : Nat) : List SessionMove := List.replicate n (.act i {})

def takingTurns : List SessionMove :=
  [.call 0 ⟨.opens,"alpha"⟩,.call 1 ⟨.opens,"beta"⟩] ++ sections 0 3 ++ sections 1 4 ++
    sections 0 1 ++ [.call 0 ⟨.closes,"alpha"⟩,.call 1 ⟨.opens,"copy"⟩] ++ sections 0 1 ++
    sections 1 2 ++ sections 0 1 ++ sections 1 2

def refusedLate : List SessionMove :=
  [.call 0 ⟨.opens,"beta"⟩] ++ sections 0 2 ++
    [.act 0 { schema_fault := some "database is locked" }]

def overtaken : List SessionMove :=
  [.call 0 ⟨.opens,"alpha"⟩] ++ sections 0 2 ++ [.call 1 ⟨.closes,"alpha"⟩] ++ sections 1 2 ++
    sections 0 2

def resting (s : SessionWorld) : Bool := (List.range 2).all fun i => (s.calls i).isNone

def tableKeys (s : SessionWorld) : List Nat × List Nat :=
  (s.rows.rows.map fun row => row.1.num,s.projects.rows.map fun row => row.1.num)

example : tableKeys (SessionWorld.empty.run twoProjects takingTurns) = ([1,2],[1,2]) := by
  decide

example : tableKeys (SessionWorld.empty.run twoProjects overtaken) = ([],[1]) := by
  decide

theorem all_rest (hcallers : ∀ m ∈ moves, m.caller < 2)
    (h : resting (SessionWorld.empty.run twoProjects moves) = true) (i : Nat) :
    (SessionWorld.empty.run twoProjects moves).calls i = none := by
  by_cases hi : i < 2
  · exact Option.isNone_iff_eq_none.mp (all_eq_true.mp h i (mem_range.mpr hi))
  · refine run_other twoProjects _ fun m hm heq => ?_
    have hlt := hcallers m hm
    omega

theorem turns_taken :
    (SessionWorld.empty.run twoProjects takingTurns).TablesMatch twoProjects :=
  tables_match twoProjects takingTurns (by decide)
    (all_rest (by decide) (by decide))

theorem failed_open_tracked :
    (∀ i, (SessionWorld.empty.run twoProjects refusedLate).calls i = none) ∧
      ¬(SessionWorld.empty.run twoProjects refusedLate).TablesMatch twoProjects := by
  refine ⟨all_rest (by decide) (by decide),fun h => ?_⟩
  have hkey := h.same ⟨2⟩
  exact absurd hkey (by decide)

end ProjectOS.Api
