import ProjectOS.Lib.Rotation
import ProjectOS.Sched.Runs
import ProjectOS.Lib.Footprint

/-! The worker pool's claim pass. The workers of a class share one cursor;
each attempt scans the projects from where the cursor stood. -/

namespace ProjectOS.Sched
open Lib Domain List Function

def usizeCount : Nat := 2^64

theorem usizeCount_pos : 0 < usizeCount := Nat.two_pow_pos 64

structure ProjectRegistry where
  ids : List ProjectId
  nodup : ids.Nodup

inductive PoolAct where
  | fetchAdd
  | claim (project_id : ProjectId) (worker : WorkerName)

abbrev poolIface : Interface where
  Act := PoolAct
  Resp
    | .fetchAdd => Nat
    | .claim .. => Except SchedError (Option ClaimedJob)

abbrev ClaimAttempt := Prog poolIface SchedError (Option (ProjectId × ClaimedJob))

def claimFrom (projects : List ProjectId) (h : 0 < projects.length) (worker : WorkerName)
    (start : Nat) : List Nat → ClaimAttempt
  | [] => .ret none
  | offset :: offsets =>
    let project_id := projects.get
      ⟨(start+offset) % usizeCount % projects.length,Nat.mod_lt _ h⟩
    .act (F := poolIface) (.claim project_id worker) fun
      | .ok (some job) => .ret (some (project_id,job))
      | .ok none => claimFrom projects h worker start offsets
      | .error _ => claimFrom projects h worker start offsets

def claimRoundRobin (projects : ProjectRegistry) (worker : WorkerName) : ClaimAttempt :=
  if h : 0 < projects.ids.length then
    .act (F := poolIface) .fetchAdd fun start =>
      claimFrom projects.ids h worker start (List.range projects.ids.length)
  else .ret none

structure PoolStore where
  cursor : Nat
  dbs : ProjectId → Db

/-- The attempts begun, in the order they took the cursor, each with what is left of
it. -/
structure Fleet where
  store : PoolStore
  attempts : List ClaimAttempt

def Fleet.fresh : Fleet := ⟨⟨0,fun _ => Db.empty⟩,[]⟩

/-- A worker begins an attempt, an attempt takes its next action, or something else
acts on a database. -/
inductive FleetStep where
  | attempt (worker : WorkerName)
  | visit (n : Nat) (env : Nat → QueueInput)
  | elsewhere (project_id : ProjectId) (act : QueueAct) (input : QueueInput)

section
variable (q : JobQueue) (class_ : JobClass) (projects : ProjectRegistry)

def poolMachine : Machine poolIface (Nat → QueueInput) PoolStore where
  step env s
    | .fetchAdd => (s.cursor,{ s with cursor := (s.cursor+1) % usizeCount })
    | .claim project_id worker =>
      let out := (claim q project_id class_ worker).run queueMachine env 0 (s.dbs project_id)
      (out.1,{ s with dbs := Function.update s.dbs project_id out.2.2 })

def advance (env : Nat → QueueInput) (s : PoolStore) : ClaimAttempt → ClaimAttempt × PoolStore
  | .act a k =>
    let out := (poolMachine q class_).step env s a
    (k out.1,out.2)
  | p => (p,s)

def quiet (now_ms : Nat) : Nat → QueueInput := fun _ => ⟨now_ms,0,none⟩

def Fleet.step (w : Fleet) : FleetStep → Fleet
  | .attempt worker =>
    let out := advance q class_ (quiet 0) w.store (claimRoundRobin projects worker)
    ⟨out.2,w.attempts ++ [out.1]⟩
  | .visit n env =>
    match w.attempts[n]? with
    | some p =>
      let out := advance q class_ env w.store p
      ⟨out.2,w.attempts.set n out.1⟩
    | none => w
  | .elsewhere project_id act input =>
    let db := (queueMachine.step input (w.store.dbs project_id) act).2
    { w with store := { w.store with dbs := Function.update w.store.dbs project_id db } }

def Fleet.run (w : Fleet) (steps : List FleetStep) : Fleet :=
  steps.foldl (Fleet.step q class_ projects) w

def Fleet.outcome (w : Fleet) (n : Nat) : Option (Option (ProjectId × ClaimedJob)) :=
  match w.attempts[n]? with
  | some (.ret r) => some r
  | _ => none

def Fleet.target (w : Fleet) (n : Nat) : Option (ProjectId × WorkerName) :=
  match w.attempts[n]? with
  | some (.act (.claim project_id worker) _) => some (project_id,worker)
  | _ => none

def HasWork (db : Db) (now_ms : Nat) : Prop := (selectClaimable db class_ now_ms).isSome = true

def AtVisits (P : Fleet → Nat → (Nat → QueueInput) → Prop) (w : Fleet)
    (steps : List FleetStep) : Prop :=
  ∀ pre n env post, steps = pre ++ .visit n env :: post → P (w.run q class_ projects pre) n env

/-- No claim of the run fails. -/
def ClaimsSucceed : Fleet → List FleetStep → Prop :=
  AtVisits q class_ projects fun w n env => ∀ project_id worker,
    w.target n = some (project_id,worker) →
      ∃ found, ((claim q project_id class_ worker).run queueMachine env 0
        (w.store.dbs project_id)).1 = .ok found

def WorkThroughout (first : Fleet) (steps : List FleetStep) (project_id : ProjectId) : Prop :=
  AtVisits q class_ projects (fun w n env => first.attempts.length ≤ n →
    HasWork class_ (w.store.dbs project_id) (env 0).now_ms) first steps

/-- Each project with work throughout receives one of the first as many claims as
there are projects, once these attempts have ended. -/
def Fair (w : Fleet) (steps : List FleetStep) : Prop :=
  ClaimsSucceed q class_ projects w steps →
  (∀ k < projects.ids.length,
    ((w.run q class_ projects steps).outcome (w.attempts.length+k)).isSome = true) →
  ∀ project_id ∈ projects.ids, WorkThroughout q class_ projects w steps project_id →
    ∃ k < projects.ids.length, ∃ job,
      (w.run q class_ projects steps).outcome (w.attempts.length+k) = some (some (project_id,job))

end

section Runs
variable {q : JobQueue} {class_ : JobClass} {projects : ProjectRegistry}

theorem fleet_run_append (w : Fleet) (xs ys : List FleetStep) :
    w.run q class_ projects (xs ++ ys) =
      (w.run q class_ projects xs).run q class_ projects ys := foldl_append ..

def Taken (p : ClaimAttempt) : Prop := p.Within (fun a => ∃ i worker, a = PoolAct.claim i worker)

theorem claimFrom_taken (ids : List ProjectId) (h : 0 < ids.length) (worker : WorkerName)
    (start : Nat) (offsets : List Nat) : Taken (claimFrom ids h worker start offsets) := by
  induction offsets with
  | nil => trivial
  | cons offset offsets ih =>
    refine ⟨⟨_,_,rfl⟩,?_⟩
    intro r
    match r with
    | .ok (some job) => trivial
    | .ok none => exact ih
    | .error e => exact ih

variable (class_) in
theorem advance_taken (env : Nat → QueueInput) (s : PoolStore) {p : ClaimAttempt} (hp : Taken p) :
    (advance q class_ env s p).2.cursor = s.cursor ∧ Taken (advance q class_ env s p).1 := by
  cases p with
  | ret | throw => exact ⟨rfl,trivial⟩
  | act a k =>
    obtain ⟨⟨i,worker,rfl⟩,hk⟩ := hp
    exact ⟨rfl,hk _⟩

/-- The cursor counts the attempts, as far as a `usize` counts, and each of
them has taken it. -/
structure Rotating (w : Fleet) : Prop where
  cursor : w.store.cursor = w.attempts.length % usizeCount
  taken : ∀ p ∈ w.attempts, Taken p

theorem fresh_rotating : Rotating Fleet.fresh := ⟨rfl,fun p hp => by simp [Fleet.fresh] at hp⟩

theorem attempt_step (h : 0 < projects.ids.length) (w : Fleet) (worker : WorkerName) :
    w.step q class_ projects (.attempt worker) =
      ⟨{ w.store with cursor := (w.store.cursor+1) % usizeCount },
        w.attempts ++ [claimFrom projects.ids h worker w.store.cursor
          (List.range projects.ids.length)]⟩ := by
  simp only [Fleet.step,claimRoundRobin,dif_pos h,advance,poolMachine]

variable {w : Fleet}

theorem visit_step {n : Nat} {p : ClaimAttempt} (hn : w.attempts[n]? = some p)
    (env : Nat → QueueInput) :
    w.step q class_ projects (.visit n env) =
      ⟨(advance q class_ env w.store p).2,
        w.attempts.set n (advance q class_ env w.store p).1⟩ := by
  simp only [Fleet.step,hn]

theorem step_rotating (h : 0 < projects.ids.length) (hw : Rotating w) (s : FleetStep) :
    Rotating (w.step q class_ projects s) := by
  cases s with
  | attempt worker =>
    rw [attempt_step h]
    refine ⟨?_,?_⟩
    · simp only [hw.cursor,Nat.mod_add_mod,length_append,length_singleton]
    · intro p hp
      rcases mem_append.mp hp with hp | hp
      · exact hw.taken p hp
      · obtain rfl := mem_singleton.mp hp
        exact claimFrom_taken ..
  | visit n env =>
    cases hn : w.attempts[n]? with
    | none => simpa only [Fleet.step,hn] using hw
    | some p =>
      obtain ⟨hc,ht⟩ := advance_taken (q := q) class_ env w.store
        (hw.taken p (mem_of_getElem? hn))
      simp only [Fleet.step,hn]
      refine ⟨?_,?_⟩
      · simp only [hc,hw.cursor,length_set]
      · intro p' hp'
        rcases mem_or_eq_of_mem_set hp' with hp' | rfl
        · exact hw.taken p' hp'
        · exact ht
  | elsewhere i act input => exact ⟨hw.cursor,hw.taken⟩

theorem run_rotating (h : 0 < projects.ids.length) (hw : Rotating w) (steps : List FleetStep) :
    Rotating (w.run q class_ projects steps) := by
  induction steps generalizing w with
  | nil => exact hw
  | cons s steps ih => exact ih (step_rotating h hw s)

theorem claim_takes_work {env : Nat → QueueInput} {db : Db} {project_id : ProjectId}
    {worker : WorkerName} {found : Option ClaimedJob} (hw : HasWork class_ db (env 0).now_ms)
    (h : ((claim q project_id class_ worker).run queueMachine env 0 db).1 = .ok found) :
    ∃ job, found = some job := by
  cases found with
  | some job => exact ⟨job,rfl⟩
  | none =>
    simp only [claim,Prog.bind_eq,Prog.run_bind,now_run,claimLease_run] at h
    obtain ⟨r,hr⟩ := Option.isSome_iff_exists.mp hw
    cases hf : (env (0+1)).fault with
    | some fault => simp [hf] at h
    | none =>
      by_cases hk : jobKindValid r.2.job_kind = true
      · simp [hf,Db.claimLease,hr,hk] at h
      · simp [hf,Db.claimLease,hr,hk] at h

variable (projects) in
def firstProject (h : 0 < projects.ids.length) (t : Nat) : ProjectId :=
  projects.ids.get ⟨t % usizeCount % projects.ids.length,Nat.mod_lt _ h⟩

def FirstVisit (projects : ProjectRegistry) (h : 0 < projects.ids.length) (t : Nat)
    (w : Fleet) : Prop :=
  t < w.attempts.length →
    (∃ worker, w.attempts[t]? = some (claimFrom projects.ids h worker (t % usizeCount)
      (List.range projects.ids.length))) ∨
    ∃ job, w.attempts[t]? = some (.ret (some (firstProject projects h t,job)))

theorem claimFrom_range (h : 0 < projects.ids.length) (worker : WorkerName) (t : Nat) :
    ∃ k, claimFrom projects.ids h worker (t % usizeCount) (List.range projects.ids.length) =
        .act (F := poolIface) (.claim (firstProject projects h t) worker) k ∧
      ∀ job, k (.ok (some job)) = .ret (some (firstProject projects h t,job)) := by
  obtain ⟨n,hn⟩ : ∃ n, projects.ids.length = n+1 := ⟨projects.ids.length-1,by omega⟩
  have hrange : List.range projects.ids.length = 0 :: (List.range n).map Nat.succ := by
    rw [hn,range_succ_eq_map]
  have hfirst : projects.ids.get ⟨(t % usizeCount + 0) % usizeCount % projects.ids.length,
      Nat.mod_lt _ h⟩ = firstProject projects h t :=
    congrArg projects.ids.get (Fin.ext (by simp only [Nat.add_zero,Nat.mod_mod]))
  simp only [hrange,claimFrom]
  generalize projects.ids.get ⟨(t % usizeCount + 0) % usizeCount % projects.ids.length,
    Nat.mod_lt _ h⟩ = project_id at hfirst ⊢
  subst hfirst
  refine ⟨_,rfl,?_⟩
  intro job
  rfl

theorem step_firstVisit (h : 0 < projects.ids.length) {t : Nat} (hw : Rotating w)
    (hv : FirstVisit projects h t w) (s : FleetStep)
    (hs : ∀ env, s = .visit t env → ∀ project_id worker,
      w.target t = some (project_id,worker) →
        (∃ found, ((claim q project_id class_ worker).run queueMachine env 0
          (w.store.dbs project_id)).1 = .ok found) ∧
        HasWork class_ (w.store.dbs (firstProject projects h t)) (env 0).now_ms) :
    FirstVisit projects h t (w.step q class_ projects s) := by
  intro ht
  cases s with
  | attempt worker =>
    rw [attempt_step h] at ht ⊢
    rw [length_append,length_singleton] at ht
    rcases Nat.lt_or_ge t w.attempts.length with hlt | hge
    · rw [List.getElem?_append_left hlt]
      exact hv hlt
    · obtain rfl : t = w.attempts.length := by omega
      left
      refine ⟨worker,?_⟩
      rw [List.getElem?_concat_length,hw.cursor]
  | visit n env =>
    cases hn : w.attempts[n]? with
    | none =>
      simp only [Fleet.step,hn] at ht ⊢
      exact hv ht
    | some p =>
      simp only [Fleet.step,hn,length_set] at ht ⊢
      by_cases hnt : n = t
      · subst hnt
        rw [List.getElem?_set_self ht]
        right
        rcases hv ht with ⟨worker,hfirst⟩ | ⟨job,hdone⟩
        · obtain ⟨k,hk,hjob⟩ := claimFrom_range h worker n
          obtain rfl : p = .act (F := poolIface) (.claim (firstProject projects h n) worker) k := by
            rw [hn,hk,Option.some.injEq] at hfirst
            exact hfirst
          have htarget : w.target n = some (firstProject projects h n,worker) := by
            simp only [Fleet.target,hn]
          obtain ⟨⟨found,hfound⟩,hwork⟩ := hs env rfl _ _ htarget
          obtain ⟨job,rfl⟩ := claim_takes_work hwork hfound
          refine ⟨job,?_⟩
          simp only [advance,poolMachine,hfound,hjob]
        · obtain rfl : p = .ret (some (firstProject projects h n,job)) := by
            rw [hn,Option.some.injEq] at hdone
            exact hdone
          exact ⟨job,rfl⟩
      · rw [List.getElem?_set_ne hnt]
        exact hv ht
  | elsewhere i act input => exact hv ht

theorem run_firstVisit (h : 0 < projects.ids.length) {t : Nat} (hw : Rotating w)
    (hv : FirstVisit projects h t w) (steps : List FleetStep)
    (hok : ClaimsSucceed q class_ projects w steps)
    (hwork : ∀ pre env post, steps = pre ++ .visit t env :: post →
      HasWork class_ ((w.run q class_ projects pre).store.dbs (firstProject projects h t))
        (env 0).now_ms) : FirstVisit projects h t (w.run q class_ projects steps) := by
  induction steps generalizing w with
  | nil => exact hv
  | cons s steps ih =>
    have hnext : FirstVisit projects h t (w.step q class_ projects s) := by
      refine step_firstVisit h hw hv s ?_
      rintro env rfl project_id worker htarget
      exact ⟨hok [] t env steps rfl project_id worker htarget,hwork [] env steps rfl⟩
    refine ih (step_rotating h hw s) hnext ?_ ?_
    · intro pre n env post hsplit
      exact hok (s :: pre) n env post (by rw [hsplit,cons_append])
    · intro pre env post hsplit
      exact hwork (s :: pre) env post (by rw [hsplit,cons_append])

theorem fair_of_covers (hw : Rotating w)
    (hc : Covers usizeCount projects.ids.length w.attempts.length) (steps : List FleetStep) :
    Fair q class_ projects w steps := by
  intro hok hended project_id hmem hwork
  obtain ⟨i,hi⟩ := get_of_mem hmem
  have h : 0 < projects.ids.length := i.pos
  obtain ⟨k,hk,hki⟩ := hc i i.isLt
  let t := w.attempts.length+k
  have hfirst : firstProject projects h t = project_id := by
    rw [← hi,firstProject]
    exact congrArg projects.ids.get (Fin.ext hki)
  refine ⟨k,hk,?_⟩
  have hv : FirstVisit projects h t w := fun ht => by omega
  have hvisit := run_firstVisit h hw hv steps hok (by
    intro pre env post hsplit
    rw [hfirst]
    exact hwork pre t env post hsplit (by omega))
  have hout := hended k hk
  obtain ⟨r,hr⟩ := Option.isSome_iff_exists.mp hout
  rw [hr]
  have hlt : t < (w.run q class_ projects steps).attempts.length := by
    by_contra hge
    rw [Fleet.outcome,List.getElem?_eq_none (not_lt.mp hge)] at hr
    exact absurd hr (by simp)
  rcases hvisit hlt with ⟨worker,hstart⟩ | ⟨job,hdone⟩
  · obtain ⟨k',hk',-⟩ := claimFrom_range h worker t
    rw [Fleet.outcome,hstart,hk'] at hr
    exact absurd hr (by simp)
  · rw [Fleet.outcome,hdone,hfirst,Option.some.injEq] at hr
    exact ⟨job,by rw [hr]⟩

end Runs

/-! A pool in which every project is offered one job again as soon as it is
taken: no attempt ever looks past the project it starts at. -/

section Busy
variable {q : JobQueue} {class_ : JobClass} {projects : ProjectRegistry}

theorem atVisits_nil (P : Fleet → Nat → (Nat → QueueInput) → Prop) (w : Fleet) :
    AtVisits q class_ projects P w [] := by
  intro pre n env post hsplit
  simp at hsplit

variable {w : Fleet} {P : Fleet → Nat → (Nat → QueueInput) → Prop}

theorem atVisits_cons {s : FleetStep}
    {steps : List FleetStep} (hs : ∀ n env, s = .visit n env → P w n env)
    (hrest : AtVisits q class_ projects P (w.step q class_ projects s) steps) :
    AtVisits q class_ projects P w (s :: steps) := by
  intro pre n env post hsplit
  cases pre with
  | nil => exact hs n env (List.cons.inj hsplit).1
  | cons d pre =>
    obtain ⟨rfl,hsteps⟩ := List.cons.inj hsplit
    exact hrest pre n env post hsteps

theorem atVisits_append {xs ys : List FleetStep} (hx : AtVisits q class_ projects P w xs)
    (hy : AtVisits q class_ projects P (w.run q class_ projects xs) ys) :
    AtVisits q class_ projects P w (xs ++ ys) := by
  induction xs generalizing w with
  | nil => exact hy
  | cons s xs ih =>
    refine atVisits_cons (fun n env hs => hx [] n env xs (by rw [hs]; rfl)) (ih ?_ hy)
    intro pre n env post hsplit
    exact hx (s :: pre) n env post (by rw [hsplit,cons_append])

variable (project_id : ProjectId)

theorem empty_claim (worker : WorkerName) :
    (claim q project_id class_ worker).run queueMachine (quiet 0) 0 Db.empty =
      (.ok none,2,Db.empty) := by
  have hselect : selectClaimable Db.empty class_ 0 = none := rfl
  have hnow : (quiet 0 0).now_ms = 0 := rfl
  have hfault : (quiet 0 (0+1)).fault = none := rfl
  simp only [claim,Prog.bind_eq,Prog.run_bind,now_run,claimLease_run,hfault,hnow,Db.claimLease,
    hselect]
  rfl

/-- A fleet without work after `n` claim attempts. -/
structure Idle (n : Nat) (w : Fleet) : Prop where
  rotating : Rotating w
  count : w.attempts.length = n
  dbs : w.store.dbs = fun _ => Db.empty

def idleAttempt (projects : ProjectRegistry) (worker : WorkerName) (n : Nat) : List FleetStep :=
  .attempt worker :: List.replicate projects.ids.length (.visit n (quiet 0))

variable {n : Nat}

theorem visits_idle (h : 0 < projects.ids.length) (hw : Idle n w) (k m : Nat) :
    Idle n (w.run q class_ projects (List.replicate k (.visit m (quiet 0)))) := by
  induction k generalizing w with
  | zero => exact hw
  | succ k ih =>
    refine ih ⟨step_rotating h hw.rotating _,?_,?_⟩
    · cases hm : w.attempts[m]? with
      | none => simpa only [Fleet.step,hm] using hw.count
      | some p => simpa only [Fleet.step,hm,length_set] using hw.count
    · cases hm : w.attempts[m]? with
      | none => simpa only [Fleet.step,hm] using hw.dbs
      | some p =>
        have hp := hw.rotating.taken p (mem_of_getElem? hm)
        cases p with
        | ret | throw => simpa only [Fleet.step,hm,advance] using hw.dbs
        | act a k =>
          obtain ⟨⟨i,worker,rfl⟩,-⟩ := hp
          simp only [Fleet.step,hm,advance,poolMachine,hw.dbs,empty_claim]
          exact update_eq_self i _

variable (class_) in
theorem idleAttempts_idle (h : 0 < projects.ids.length) (worker : WorkerName) (n : Nat) :
    Idle n (Fleet.fresh.run q class_ projects
      ((List.range n).flatMap (idleAttempt projects worker))) := by
  induction n with
  | zero => exact ⟨fresh_rotating,rfl,rfl⟩
  | succ n ih =>
    rw [range_succ,flatMap_append,fleet_run_append,flatMap_singleton]
    refine visits_idle h ⟨step_rotating h ih.rotating _,?_,?_⟩ _ _
    · rw [attempt_step h,length_append,ih.count,length_singleton]
    · rw [attempt_step h]
      exact ih.dbs

def offered (class_ : JobClass) (project_id : ProjectId) : JobEvent :=
  enqueuedEvent ⟨0⟩ project_id ⟨demoKind,"once",.normal,class_,[],0,3,none⟩

def stocked (class_ : JobClass) (project_id : ProjectId) : Db :=
  (queueMachine.step ⟨0,0,none⟩ Db.empty (.append (offered class_ project_id))).2

variable (class_) in
theorem stocked_select :
    ∃ row, selectClaimable (stocked class_ project_id) class_ 0 = some (⟨0⟩,row) ∧
      row.job_kind = demoKind.name := by
  cases class_ with
  | foreground | ingest | maintenance => exact ⟨_,rfl,rfl⟩

theorem stocked_hasWork : HasWork class_ (stocked class_ project_id) 0 := by
  obtain ⟨row,hrow,-⟩ := stocked_select class_ project_id
  rw [HasWork,hrow]
  rfl

theorem releaseLease_taken {db : Db} (h : db.leases = Table.empty) (j : JobId)
    (lease : LeaseRow) : { db with leases := db.leases.put j lease }.releaseLease j = db := by
  have hempty : ((Table.empty : Table JobId LeaseRow).put j lease).erase j = Table.empty :=
    Table.ext_rows (by simp [Table.erase,Table.put,Table.putRow,Table.empty])
  rw [Db.releaseLease,h,hempty,← h]

variable (class_) in
theorem stocked_claim (worker : WorkerName) :
    ∃ job, ((claim q project_id class_ worker).run queueMachine (quiet 0) 0
        (stocked class_ project_id)).1 = .ok (some job) ∧
      ((claim q project_id class_ worker).run queueMachine (quiet 0) 0
        (stocked class_ project_id)).2.2.releaseLease ⟨0⟩ = stocked class_ project_id := by
  obtain ⟨row,hrow,hkind⟩ := stocked_select class_ project_id
  have hk : jobKindValid row.job_kind = true := by
    rw [hkind]
    exact demoKind.valid
  have hnow : (quiet 0 0).now_ms = 0 := rfl
  have hfault : (quiet 0 (0+1)).fault = none := rfl
  simp only [claim,Prog.bind_eq,Prog.run_bind,now_run,claimLease_run,hfault,hnow,Db.claimLease,
    hrow,hk,dif_pos]
  exact ⟨_,rfl,releaseLease_taken rfl _ _⟩

/-- A fleet whose projects all have work of the class. -/
structure AllStocked (class_ : JobClass) (projects : ProjectRegistry) (w : Fleet) : Prop where
  rotating : Rotating w
  dbs : ∀ i ∈ projects.ids, w.store.dbs i = stocked class_ i

def stock (class_ : JobClass) (i : ProjectId) : FleetStep :=
  .elsewhere i (.append (offered class_ i)) ⟨0,0,none⟩

variable (class_ projects) in
theorem stock_run {ids : List ProjectId} (hids : ids.Nodup)
    (hw : ∀ i ∈ ids, w.store.dbs i = Db.empty) :
    (w.run q class_ projects (ids.map (stock class_))).attempts = w.attempts ∧
      (∀ i ∈ ids, (w.run q class_ projects (ids.map (stock class_))).store.dbs i =
        stocked class_ i) ∧
      ∀ i, i ∉ ids → (w.run q class_ projects (ids.map (stock class_))).store.dbs i =
        w.store.dbs i := by
  induction ids generalizing w with
  | nil => exact ⟨rfl,fun i hi => by simp at hi,fun i _ => rfl⟩
  | cons i ids ih =>
    obtain ⟨hi,hids⟩ := nodup_cons.mp hids
    have hnext : ∀ j ∈ ids, (w.step q class_ projects (stock class_ i)).store.dbs j =
        Db.empty := by
      intro j hj
      have hne : j ≠ i := fun he => hi (he ▸ hj)
      simp only [Fleet.step,stock,update_of_ne hne]
      exact hw j (mem_cons_of_mem _ hj)
    obtain ⟨hatt,hin,hout⟩ := ih hids hnext
    refine ⟨hatt,?_,?_⟩
    · intro j hj
      rcases mem_cons.mp hj with rfl | hj
      · refine (hout j hi).trans ?_
        simp only [Fleet.step,stock,update_self,hw j mem_cons_self,stocked]
      · exact hin j hj
    · intro j hj
      obtain ⟨hne,hj⟩ := not_or.mp (fun ho => hj (mem_cons.mpr ho))
      refine (hout j hj).trans ?_
      simp only [Fleet.step,stock,update_of_ne hne]

def busyTurn (projects : ProjectRegistry) (h : 0 < projects.ids.length) (worker : WorkerName)
    (t : Nat) : List FleetStep :=
  [.attempt worker,.visit t (quiet 0),
    .elsewhere (firstProject projects h t) (.releaseLease ⟨0⟩) ⟨0,0,none⟩]

def Served (class_ : JobClass) (projects : ProjectRegistry) (w : Fleet) (n : Nat)
    (env : Nat → QueueInput) : Prop :=
  AllStocked class_ projects w ∧ env = quiet 0 ∧
    ∀ i worker, w.target n = some (i,worker) → i ∈ projects.ids

theorem firstProject_mem (h : 0 < projects.ids.length) (t : Nat) :
    firstProject projects h t ∈ projects.ids := get_mem ..

theorem busyTurn_run (h : 0 < projects.ids.length) (worker : WorkerName)
    (hw : AllStocked class_ projects w) :
    AllStocked class_ projects
        (w.run q class_ projects (busyTurn projects h worker w.attempts.length)) ∧
      (∃ job, (w.run q class_ projects (busyTurn projects h worker w.attempts.length)).attempts =
        w.attempts ++ [.ret (some (firstProject projects h w.attempts.length,job))]) ∧
      AtVisits q class_ projects (Served class_ projects) w
        (busyTurn projects h worker w.attempts.length) := by
  let t := w.attempts.length
  let w₁ := w.step q class_ projects (.attempt worker)
  obtain ⟨k,hk,hjob⟩ := claimFrom_range h worker t
  obtain ⟨job,hclaim,hrelease⟩ :=
    stocked_claim (q := q) class_ (firstProject projects h t) worker
  have hw₁ : w₁ = ⟨{ w.store with cursor := (w.store.cursor+1) % usizeCount },
      w.attempts ++ [.act (F := poolIface) (.claim (firstProject projects h t) worker) k]⟩ := by
    rw [← hk,← hw.rotating.cursor]
    exact attempt_step h w worker
  have hstocked : AllStocked class_ projects w₁ :=
    ⟨step_rotating h hw.rotating _,by rw [hw₁]; exact hw.dbs⟩
  have hmid : w₁.attempts[t]? =
      some (.act (F := poolIface) (.claim (firstProject projects h t) worker) k) := by
    rw [hw₁]
    exact List.getElem?_concat_length
  have hdb := hw.dbs _ (firstProject_mem h t)
  have hvisit : w₁.step q class_ projects (.visit t (quiet 0)) =
      ⟨⟨(w.store.cursor+1) % usizeCount,Function.update w.store.dbs (firstProject projects h t)
          ((claim q (firstProject projects h t) class_ worker).run queueMachine (quiet 0) 0
            (stocked class_ (firstProject projects h t))).2.2⟩,
        w.attempts ++ [.ret (some (firstProject projects h t,job))]⟩ := by
    rw [visit_step hmid,hw₁]
    simp only [advance,poolMachine,hdb,hclaim,hjob]
    rw [set_append_right _ _ le_rfl,Nat.sub_self]
    rfl
  have hrun : w.run q class_ projects (busyTurn projects h worker t) =
      (w₁.step q class_ projects (.visit t (quiet 0))).step q class_ projects
        (.elsewhere (firstProject projects h t) (.releaseLease ⟨0⟩) ⟨0,0,none⟩) := rfl
  refine ⟨⟨?_,?_⟩,⟨job,?_⟩,?_⟩
  · exact run_rotating h hw.rotating _
  · intro i hi
    rw [hrun,hvisit]
    simp only [Fleet.step,update_self,update_idem]
    by_cases hne : i = firstProject projects h t
    · rw [hne,update_self]
      exact hrelease
    · rw [update_of_ne hne]
      exact hw.dbs i hi
  · rw [hrun,hvisit]
    rfl
  · refine atVisits_cons (fun n env hs => by cases hs) (atVisits_cons ?_ (atVisits_cons ?_ ?_))
    · intro n env hs
      obtain ⟨rfl,rfl⟩ : t = n ∧ quiet 0 = env := by simpa using hs
      refine ⟨hstocked,rfl,?_⟩
      intro i worker' htarget
      have htaken : w₁.target t = some (i,worker') := htarget
      simp only [Fleet.target,hmid,Option.some.injEq,Prod.mk.injEq] at htaken
      rw [← htaken.1]
      exact firstProject_mem h t
    · intro n env hs
      cases hs
    · exact atVisits_nil _ _

theorem busyTurns_run (h : 0 < projects.ids.length) (worker : WorkerName)
    (hw : AllStocked class_ projects w) (hn : w.attempts.length = n) (m : Nat) :
    let steps := (List.range m).flatMap (fun k => busyTurn projects h worker (n+k))
    AllStocked class_ projects (w.run q class_ projects steps) ∧
      (w.run q class_ projects steps).attempts.length = n+m ∧
      (∀ k < m, ∃ job, (w.run q class_ projects steps).attempts[n+k]? =
        some (.ret (some (firstProject projects h (n+k),job)))) ∧
      AtVisits q class_ projects (Served class_ projects) w steps := by
  induction m with
  | zero => exact ⟨hw,hn,fun k hk => by omega,atVisits_nil _ _⟩
  | succ m ih =>
    obtain ⟨hst,hlen,hdone,hvis⟩ := ih
    obtain ⟨hst',⟨job,hatt⟩,hvis'⟩ := busyTurn_run (q := q) h worker hst
    rw [hlen] at hst' hatt hvis'
    simp only [range_succ,flatMap_append,fleet_run_append,flatMap_singleton]
    refine ⟨hst',?_,?_,atVisits_append hvis hvis'⟩
    · rw [hatt,length_append,hlen,length_singleton]
      rfl
    · intro k hk
      rw [hatt]
      by_cases hkm : k = m
      · subst hkm
        refine ⟨job,?_⟩
        rw [← hlen,List.getElem?_concat_length]
      · rw [List.getElem?_append_left (by omega)]
        exact hdone k (by omega)

def idleThenStocked (class_ : JobClass) (projects : ProjectRegistry) (worker : WorkerName)
    (n : Nat) : List FleetStep :=
  (List.range n).flatMap (idleAttempt projects worker) ++ projects.ids.map (stock class_)

def busyRound (projects : ProjectRegistry) (h : 0 < projects.ids.length) (worker : WorkerName)
    (n : Nat) : List FleetStep :=
  (List.range projects.ids.length).flatMap fun k => busyTurn projects h worker (n+k)

variable (class_) in
theorem idleThenStocked_run (h : 0 < projects.ids.length) (worker : WorkerName) (n : Nat) :
    AllStocked class_ projects
        (Fleet.fresh.run q class_ projects (idleThenStocked class_ projects worker n)) ∧
      (Fleet.fresh.run q class_ projects
        (idleThenStocked class_ projects worker n)).attempts.length = n := by
  have hidle := idleAttempts_idle (q := q) class_ h worker n
  obtain ⟨hatt,hdbs,-⟩ := stock_run (q := q) class_ projects projects.nodup (fun i _ => by rw [hidle.dbs])
  refine ⟨⟨run_rotating h fresh_rotating _,?_⟩,?_⟩
  · intro i hi
    simp only [idleThenStocked,fleet_run_append]
    exact hdbs i hi
  · simp only [idleThenStocked,fleet_run_append,hatt,hidle.count]

theorem busyRound_unfair (q : JobQueue) (class_ : JobClass) (h : 0 < projects.ids.length)
    (worker : WorkerName) (hc : ¬Covers usizeCount projects.ids.length n) :
    ¬Fair q class_ projects
      (Fleet.fresh.run q class_ projects (idleThenStocked class_ projects worker n))
      (busyRound projects h worker n) := by
  obtain ⟨i,hi,hmiss⟩ : ∃ i < projects.ids.length, ∀ k < projects.ids.length,
      (n+k) % usizeCount % projects.ids.length ≠ i := by
    simpa only [Covers,not_forall,not_exists,not_and,exists_prop] using hc
  obtain ⟨hw,hlen⟩ := idleThenStocked_run (q := q) class_ h worker n
  obtain ⟨-,-,hdone,hvis⟩ := busyTurns_run (q := q) h worker hw hlen projects.ids.length
  intro hfair
  let w := Fleet.fresh.run q class_ projects (idleThenStocked class_ projects worker n)
  have hok : ClaimsSucceed q class_ projects w (busyRound projects h worker n) := by
    intro xs m env ys hsplit p worker' htarget
    obtain ⟨hst,rfl,hmem⟩ := hvis xs m env ys hsplit
    obtain ⟨job,hjob,-⟩ := stocked_claim (q := q) class_ p worker'
    rw [hst.dbs p (hmem p worker' htarget)]
    exact ⟨some job,hjob⟩
  have hwork : WorkThroughout q class_ projects w (busyRound projects h worker n)
      (projects.ids.get ⟨i,hi⟩) := by
    intro xs m env ys hsplit _
    obtain ⟨hst,rfl,-⟩ := hvis xs m env ys hsplit
    rw [hst.dbs _ (get_mem ..)]
    exact stocked_hasWork _
  obtain ⟨k,hk,job,hjob⟩ := hfair hok (by
    intro k hk
    obtain ⟨job,hjob⟩ := hdone k hk
    rw [Fleet.outcome,hlen,busyRound,hjob]
    rfl) _ (get_mem ..) hwork
  obtain ⟨job',hjob'⟩ := hdone k hk
  rw [Fleet.outcome,hlen,busyRound,hjob'] at hjob
  have hsame : firstProject projects h (n+k) = projects.ids.get ⟨i,hi⟩ := by
    simp only [Option.some.injEq,Prod.mk.injEq] at hjob
    exact hjob.1
  exact hmiss k hk (congrArg Fin.val ((nodup_iff_injective_get.mp projects.nodup) hsame))

end Busy

/-- Precisely which stretches of claim attempts are fair to every project,
whatever the backlogs: those over which the cursor does not start again from
zero, or all of them where it starts again in step with the projects. -/
theorem round_robin_fair_iff (q : JobQueue) (class_ : JobClass) (projects : ProjectRegistry)
    (n : Nat) :
    (∀ pre steps, (Fleet.fresh.run q class_ projects pre).attempts.length = n →
      Fair q class_ projects (Fleet.fresh.run q class_ projects pre) steps) ↔
    projects.ids.length ∣ usizeCount ∨ n % usizeCount + projects.ids.length ≤ usizeCount := by
  rw [← covers_iff usizeCount_pos]
  rcases Nat.eq_zero_or_pos projects.ids.length with h0 | h
  · have hids : projects.ids = [] := eq_nil_of_length_eq_zero h0
    refine iff_of_true ?_ (fun i hi => by omega)
    intro pre steps _ _ _ project_id hmem
    rw [hids] at hmem
    exact absurd hmem not_mem_nil
  · constructor
    · intro hfair
      by_contra hc
      exact busyRound_unfair q class_ h (demoWorker 0) hc
        (hfair _ _ (idleThenStocked_run class_ h (demoWorker 0) n).2)
    · rintro hc pre steps rfl
      exact fair_of_covers (run_rotating h fresh_rotating pre) hc steps

/-! Three projects with work at all times, and a cursor on its last value: the
next three attempts start at the first project, again at the first, and at the
second. -/

def threeProjects : ProjectRegistry := ⟨[⟨0⟩,⟨1⟩,⟨2⟩],by decide⟩

theorem cursor_wrap_starves :
    ¬∀ (q : JobQueue) (class_ : JobClass) (projects : ProjectRegistry)
      (pre steps : List FleetStep),
      Fair q class_ projects (Fleet.fresh.run q class_ projects pre) steps := by
  intro h
  have hcover : ¬Covers usizeCount threeProjects.ids.length (2^64-1) := by
    rw [covers_iff usizeCount_pos]
    decide
  exact busyRound_unfair demoQueue .ingest (by decide) (demoWorker 0) hcover
    (h demoQueue .ingest threeProjects
      (idleThenStocked .ingest threeProjects (demoWorker 0) (2^64-1))
      (busyRound threeProjects (by decide) (demoWorker 0) (2^64-1)))

end ProjectOS.Sched
