import ProjectOS.Sched.Effects

/-! Whole runs of the queue: any operations, by any workers, in any order,
with any clock readings and any write refused by the store. -/

namespace ProjectOS.Sched
open Lib Domain

inductive Op where
  | enqueue (project_id : ProjectId) (spec : JobSpec)
  | claim (project_id : ProjectId) (class_ : JobClass) (worker : WorkerName)
  | heartbeat (job : ClaimedJob)
  | complete (job : ClaimedJob) (wall_ms : Nat)
  | fail (job : ClaimedJob) (failure : JobFailure)
  | supersede (job_id : JobId) (cron_id : CronId)
  | reap
  | tick (project_id : ProjectId)
  | registerCron (project_id : ProjectId) (spec : CronSpec)

/-- The database and every claim ever handed out: a worker may present one long
after its lease is gone. -/
structure World where
  db : Db
  claims : List ClaimedJob

def World.empty : World := ⟨Db.empty,[]⟩

structure Call where
  op : Op
  env : Nat → QueueInput

def Call.Legal (w : World) (c : Call) : Prop :=
  match c.op with
  | .heartbeat job
  | .complete job _
  | .fail job _ => job ∈ w.claims
  | _ => True

def World.exec (q : JobQueue) (w : World) (c : Call) : World :=
  match c.op with
  | .enqueue project_id spec =>
    { w with db := (Sched.enqueue q project_id spec).after queueMachine c.env 0 w.db }
  | .claim project_id class_ worker =>
    match (Sched.claim q project_id class_ worker).run queueMachine c.env 0 w.db with
    | (.ok (some job),_,db) => ⟨db,w.claims ++ [job]⟩
    | (_,_,db) => { w with db := db }
  | .heartbeat job => { w with db := (Sched.heartbeat q job).after queueMachine c.env 0 w.db }
  | .complete job wall_ms =>
    { w with db := (Sched.complete job wall_ms).after queueMachine c.env 0 w.db }
  | .fail job failure => { w with db := (Sched.fail q job failure).after queueMachine c.env 0 w.db }
  | .supersede job_id cron_id =>
    { w with db := (Sched.supersede job_id cron_id).after queueMachine c.env 0 w.db }
  | .reap => { w with db := (reapExpiredLeases q).after queueMachine c.env 0 w.db }
  | .tick project_id => { w with db := (Sched.tick q project_id).after queueMachine c.env 0 w.db }
  | .registerCron project_id spec =>
    { w with db := (Sched.registerCron q project_id spec).after queueMachine c.env 0 w.db }

def World.run (q : JobQueue) (w : World) (calls : List Call) : World := calls.foldl (World.exec q) w

def LegalRun (q : JobQueue) : World → List Call → Prop
  | _, [] => True
  | w, c :: cs => c.Legal w ∧ LegalRun q (w.exec q c) cs

variable (q : JobQueue) (w : World)

@[simp] theorem run_nil : w.run q [] = w := rfl

@[simp] theorem run_cons (c : Call) (cs : List Call) :
    w.run q (c :: cs) = (w.exec q c).run q cs := rfl

theorem run_append (cs ds : List Call) :
    w.run q (cs ++ ds) = (w.run q cs).run q ds := List.foldl_append ..

theorem LegalRun.prefix_call {q : JobQueue} {w : World} {pre post : List Call} {c : Call}
    (h : LegalRun q w (pre ++ c :: post)) : LegalRun q w pre ∧ c.Legal (w.run q pre) := by
  induction pre generalizing w with
  | nil => exact ⟨trivial,h.1⟩
  | cons d pre ih =>
    obtain ⟨h₁,h₂⟩ := ih h.2
    exact ⟨⟨h.1,h₁⟩,h₂⟩

theorem run_invariant {q : JobQueue} {I : World → Prop} {w : World} {calls : List Call}
    (hstep : ∀ w c, c.Legal w → I w → I (w.exec q c)) (hrun : LegalRun q w calls) (hw : I w) :
    I (w.run q calls) := by
  induction calls generalizing w with
  | nil => exact hw
  | cons c cs ih => exact ih hrun.2 (hstep w c hrun.1 hw)

def KeepsTerminal (db db' : Db) : Prop :=
  ∀ j st, db.stateOf j = some st → st.isTerminal = true → db'.stateOf j = some st

theorem keepsTerminal_refl (db : Db) : KeepsTerminal db db := fun _ _ h _ => h

theorem keepsTerminal_trans (a b c : Db) (h₁ : KeepsTerminal a b) (h₂ : KeepsTerminal b c) :
    KeepsTerminal a c := fun j st h ht => h₂ j st (h₁ j st h ht) ht

theorem keepsTerminal_of_jobs {db db' : Db} (h : db'.jobs = db.jobs) : KeepsTerminal db db' := by
  intro j st hs _
  rw [← hs,Db.stateOf,Db.stateOf,h]

variable {e : JobEvent}

theorem append_keepsTerminal {db db' : Db} {ts_ms : Nat} (h : db.append ts_ms e = .ok db')
    (he : ∀ j s st, e.job = some j → nextState e = some s → db.stateOf j = some st →
      st.isTerminal = true → st = s) : KeepsTerminal db db' := by
  intro j st hs ht
  by_cases hj : e.job = some j
  · cases hq : isEnqueue e with
    | true =>
      obtain ⟨hn,-,-⟩ := append_enqueue h hq hj
      simp [Db.stateOf,hn] at hs
    | false =>
      obtain ⟨row,hr,hst,-⟩ := append_update h hq hj
      have hrow : row.state = st := by simpa [Db.stateOf,hr] using hs
      rw [hst,hrow]
      cases hx : nextState e with
      | none => rfl
      | some s => simp [he j s st hj hx hs ht]
  · rw [← hs,Db.stateOf,Db.stateOf,append_other h hj]

theorem settles_keepsTerminal {db db' : Db} {j : JobId} (h : Settles db e j db')
    (he : ∀ j s st, e.job = some j → nextState e = some s → db.stateOf j = some st →
      st.isTerminal = true → st = s) : KeepsTerminal db db' := by
  rcases h with rfl | ⟨ts_ms,db₁,ha,rfl | rfl⟩
  · exact keepsTerminal_refl db'
  · exact append_keepsTerminal ha he
  · exact keepsTerminal_trans _ db₁ _ (append_keepsTerminal ha he) (keepsTerminal_of_jobs rfl)

theorem enqueue_keepsTerminal (p : ProjectId) (spec : JobSpec) :
    Prog.Keeps queueMachine KeepsTerminal (enqueue q p spec) := by
  intro env n db
  rcases enqueue_after q p spec env n db with h | ⟨ts_ms,ha⟩
  · rw [h]; exact keepsTerminal_refl db
  · refine append_keepsTerminal ha ?_
    intro j s st hj _ hst
    obtain ⟨hn,-,-⟩ := append_enqueue ha rfl hj
    simp [Db.stateOf,hn] at hst

theorem supersede_keepsTerminal (j : JobId) (c : CronId) :
    Prog.Keeps queueMachine KeepsTerminal (supersede j c) := by
  intro env n db
  rcases supersede_after env n db j c with h | ⟨row,hr,ht,hs⟩
  · rw [h]; exact keepsTerminal_refl db
  · refine settles_keepsTerminal hs ?_
    intro i s st hi _ hst hterm
    simp only [JobEvent.job,Option.some.injEq] at hi
    subst hi
    simp only [Db.stateOf,hr,Option.map_some,Option.some.injEq] at hst
    rw [hst,hterm] at ht
    exact absurd ht (by simp)

theorem reapLease_keepsTerminal (now_ms : Nat) (lease : JobId × LeaseRow) :
    Prog.Keeps queueMachine KeepsTerminal (reapLease q now_ms lease) := by
  intro env n db
  rcases reapLease_after q now_ms lease env n db with h | ⟨h,-⟩ | ⟨row,delay_ms,hr,ht,-,hs⟩
  · rw [h]; exact keepsTerminal_refl db
  · rw [h]; exact keepsTerminal_of_jobs rfl
  · refine settles_keepsTerminal hs ?_
    intro i s st hi _ hst hterm
    simp only [failureEvent_job,Option.some.injEq] at hi
    subst hi
    simp only [Db.stateOf,hr,Option.map_some,Option.some.injEq] at hst
    rw [hst,hterm] at ht
    exact absurd ht (by simp)

def Overwrites (w : World) (c : Call) : Prop :=
  match c.op with
  | .complete job _ => (c.env 0).fault = none ∧ w.db.stateOf job.job_id = some .dead
  | .fail job failure =>
    failureKills failure job.attempt_index job.retry_count_max = true ∧
      (c.env 1).fault = none ∧ w.db.stateOf job.job_id = some .done
  | _ => False

theorem append_stateOf {db db' : Db} {ts_ms : Nat} {j : JobId} {s : JobDurableState}
    (h : db.append ts_ms e = .ok db') (he : isEnqueue e = false) (hj : e.job = some j)
    (hs : nextState e = some s) : db'.stateOf j = some s := by
  obtain ⟨row,-,hst,-⟩ := append_update h he hj
  simpa [hs] using hst

variable (env : Nat → QueueInput)

theorem releaseLease_after_stateOf (n : Nat) (db : Db) (j i : JobId) :
    ((releaseLease j).after queueMachine env n db).stateOf i = db.stateOf i := by
  rcases releaseLease_after env n db j with h | h
  · rw [h]
  · rw [h,releaseLease_stateOf]

theorem complete_keepsTerminal_iff (db : Db) (job : ClaimedJob) (wall_ms : Nat) :
    KeepsTerminal db ((complete job wall_ms).after queueMachine env 0 db) ↔
      ¬((env 0).fault = none ∧ db.stateOf job.job_id = some .dead) := by
  constructor
  · rintro hkeep ⟨hf,hd⟩
    have hstay := hkeep _ _ hd rfl
    obtain ⟨row,hr,-⟩ := Option.map_eq_some_iff.mp hd
    obtain ⟨db₁,ha⟩ := append_settle_ok (env 0).now_ms
      (e := .completedV2 job.job_id job.attempt_index wall_ms) hr rfl rfl
    have hafter : (complete job wall_ms).after queueMachine env 0 db =
        (releaseLease job.job_id).after queueMachine env 1 db₁ := by
      simp only [complete_after_eq,hf,ha]
    rw [hafter,releaseLease_after_stateOf,append_stateOf ha rfl rfl rfl] at hstay
    exact absurd hstay (by simp)
  · intro hno
    cases hf : (env 0).fault with
    | some fault =>
      have hafter : (complete job wall_ms).after queueMachine env 0 db = db := by
        simp only [complete_after_eq,hf]
      rw [hafter]
      exact keepsTerminal_refl db
    | none =>
      refine settles_keepsTerminal (complete_after env 0 db job wall_ms) ?_
      intro j s st hj hs hst hterm
      simp only [JobEvent.job,Option.some.injEq] at hj
      simp only [nextState,Option.some.injEq] at hs
      subst hj hs
      cases st with
      | queued => simp [JobDurableState.isTerminal] at hterm
      | done => rfl
      | dead => exact absurd ⟨hf,hst⟩ hno

theorem fail_keepsTerminal_iff (db : Db) (job : ClaimedJob) (failure : JobFailure) :
    KeepsTerminal db ((fail q job failure).after queueMachine env 0 db) ↔
      ¬(failureKills failure job.attempt_index job.retry_count_max = true ∧
        (env 1).fault = none ∧ db.stateOf job.job_id = some .done) := by
  obtain ⟨delay_ms,hafter⟩ := fail_after_eq q env 0 db job failure
  constructor
  · rintro hkeep ⟨hk,hf,hd⟩
    have hstay := hkeep _ _ hd rfl
    obtain ⟨row,hr,-⟩ := Option.map_eq_some_iff.mp hd
    have hm : failureAppendAt 1 ⟨job.job_id,job.attempt_index,job.retry_count_max,
        (env 0).now_ms⟩ failure = 1 := by simp [failureAppendAt,hk]
    obtain ⟨db₁,ha⟩ := append_settle_ok (env 1).now_ms
      (e := failureEvent ⟨job.job_id,job.attempt_index,job.retry_count_max,(env 0).now_ms⟩ failure
        delay_ms) hr (by simp) (by simp)
    simp only [zero_add,hm,hf,ha] at hafter
    rw [hafter,releaseLease_after_stateOf,append_stateOf ha (by simp) (by simp)
      (by rw [failureEvent_nextState]; exact if_pos hk)] at hstay
    exact absurd hstay (by simp)
  · intro hno
    by_cases hk : failureKills failure job.attempt_index job.retry_count_max = true
    · have hm : failureAppendAt 1 ⟨job.job_id,job.attempt_index,job.retry_count_max,
          (env 0).now_ms⟩ failure = 1 := by simp [failureAppendAt,hk]
      cases hf : (env 1).fault with
      | some fault =>
        simp only [zero_add,hm,hf] at hafter
        rw [hafter]
        exact keepsTerminal_refl db
      | none =>
        obtain ⟨now_ms,delay_ms,hs⟩ := fail_after q env 0 db job failure
        refine settles_keepsTerminal hs ?_
        intro j s st hj hs hst hterm
        simp only [failureEvent_job,Option.some.injEq] at hj
        rw [failureEvent_nextState,if_pos hk] at hs
        simp only [Option.some.injEq] at hs
        subst hj hs
        cases st with
        | queued => simp [JobDurableState.isTerminal] at hterm
        | done => exact absurd ⟨hk,hf,hst⟩ hno
        | dead => rfl
    · obtain ⟨now_ms,delay_ms,hs⟩ := fail_after q env 0 db job failure
      refine settles_keepsTerminal hs ?_
      intro j s st hj hs
      rw [failureEvent_nextState,if_neg hk] at hs
      exact absurd hs (by simp)

theorem exec_keepsTerminal_iff (c : Call) :
    KeepsTerminal w.db (w.exec q c).db ↔ ¬Overwrites w c := by
  obtain ⟨op,env⟩ := c
  cases op with
  | enqueue p spec =>
    exact iff_of_true (enqueue_keepsTerminal q p spec env 0 w.db) (fun h => h)
  | claim p cl wk =>
    refine iff_of_true (keepsTerminal_of_jobs ?_) (fun h => h)
    rcases claim_run q p cl wk env 0 w.db with ⟨hdb,hno⟩ | ⟨row,job,lease,-,-,-,-,-,-,-,-,hrun⟩
    · simpa only [World.exec] using congrArg Db.jobs hdb
    · simp only [World.exec,hrun]
  | heartbeat job =>
    refine iff_of_true (keepsTerminal_of_jobs ?_) (fun h => h)
    rcases heartbeat_after q job env 0 w.db with h | ⟨_,_,-,-,-,h⟩
    · simp only [World.exec,h]
    · simp only [World.exec,h]
  | complete job wall_ms => exact complete_keepsTerminal_iff env w.db job wall_ms
  | fail job failure => exact fail_keepsTerminal_iff q env w.db job failure
  | supersede j c => exact iff_of_true (supersede_keepsTerminal j c env 0 w.db) (fun h => h)
  | reap =>
    exact iff_of_true (reap_keeps keepsTerminal_refl keepsTerminal_trans q
      (reapLease_keepsTerminal q) env 0 w.db) (fun h => h)
  | tick p =>
    exact iff_of_true (tick_keeps keepsTerminal_refl keepsTerminal_trans q
      supersede_keepsTerminal (enqueue_keepsTerminal q) p env 0 w.db) (fun h => h)
  | registerCron p spec =>
    refine iff_of_true ?_ (fun h => h)
    rcases registerCron_after q p spec env 0 w.db with h | ⟨ts_ms,body,ha⟩
    · exact keepsTerminal_of_jobs (congrArg Db.jobs h)
    · refine append_keepsTerminal ha ?_
      intro j s st hj
      exact absurd hj (by simp [JobEvent.job])

/-- Precisely when a run never moves a job out of Done or Dead: no call of it
completes a Dead job or finally fails a Done one. -/
theorem settled_job_final_iff (q : JobQueue) (calls : List Call) :
    (∀ pre mid post, calls = pre ++ mid ++ post → ∀ j st,
      (World.empty.run q pre).db.stateOf j = some st → st.isTerminal = true →
        (World.empty.run q (pre ++ mid)).db.stateOf j = some st) ↔
    ∀ pre c post, calls = pre ++ c :: post → ¬Overwrites (World.empty.run q pre) c := by
  constructor
  · intro h pre c post hsplit
    rw [← exec_keepsTerminal_iff q]
    intro j st hs ht
    have hstay := h pre [c] post (by simpa using hsplit) j st hs ht
    simpa [run_append] using hstay
  · intro h pre mid post hsplit
    induction mid using List.reverseRecOn generalizing post with
    | nil =>
      intro j st hs _
      simpa using hs
    | append_singleton mid c ih =>
      intro j st hs ht
      have hmid := ih (c :: post) (by simpa using hsplit) j st hs ht
      have hcall := h (pre ++ mid) c post (by simpa using hsplit)
      have hkeep := (exec_keepsTerminal_iff q _ c).mpr hcall
      have hnext := hkeep j st hmid ht
      rw [← List.append_assoc,run_append]
      exact hnext

/-! A run in which a cron supersedes a running job and its worker, unaware,
reports success. -/

def demoQueue : JobQueue where
  backoff := ⟨2000,2,900000⟩
  lease_ttl_ms := 30000
  blake3 := fun _ => 0
  schedule := fun _ _ => .error ⟨"expression","no schedule"⟩

def demoKind : JobKind := ⟨"noop",by decide⟩

def demoSpec : JobSpec := ⟨demoKind,"once",.normal,.foreground,[],0,3,none⟩

def firstSlot : Fin 3 := 0

def secondSlot : Fin 3 := 1

def demoWorker (slot : Fin 3) : WorkerName :=
  match slot with
  | 0 => ⟨"foreground-0",by decide⟩
  | 1 => ⟨"foreground-1",by decide⟩
  | 2 => ⟨"foreground-2",by decide⟩

def demoAt (now_ms : Nat) : Nat → QueueInput := fun _ => ⟨now_ms,0,none⟩

def demoClaim (slot : Fin 3) (attempt now_ms latency_ms : Nat) : ClaimedJob :=
  ⟨⟨0⟩,⟨0⟩,demoKind,[],attempt,3,1,demoWorker slot,now_ms,latency_ms⟩

def supersededThenCompleted : List Call :=
  [⟨.enqueue ⟨0⟩ demoSpec,demoAt 0⟩,
   ⟨.claim ⟨0⟩ .foreground (demoWorker firstSlot),demoAt 1000⟩,
   ⟨.supersede ⟨0⟩ ⟨0⟩,demoAt 2000⟩,
   ⟨.complete (demoClaim firstSlot 1 1000 1000) 5,demoAt 3000⟩]

theorem settled_job_reopened :
    ¬∀ (q : JobQueue) (calls : List Call), LegalRun q World.empty calls →
      ∀ pre mid post, calls = pre ++ mid ++ post → ∀ j st,
        (World.empty.run q pre).db.stateOf j = some st → st.isTerminal = true →
          (World.empty.run q (pre ++ mid)).db.stateOf j = some st := by
  intro h
  have hlegal : LegalRun demoQueue World.empty supersededThenCompleted := by
    refine ⟨trivial,trivial,trivial,?_,trivial⟩
    exact (by decide +kernel : demoClaim 0 1 1000 1000 ∈
      (World.empty.run demoQueue (supersededThenCompleted.take 3)).claims)
  have hdead : (World.empty.run demoQueue (supersededThenCompleted.take 3)).db.stateOf ⟨0⟩ =
      some .dead := by decide +kernel
  have hdone : (World.empty.run demoQueue supersededThenCompleted).db.stateOf ⟨0⟩ =
      some .done := by decide
  have hstay := h demoQueue supersededThenCompleted hlegal (supersededThenCompleted.take 3)
    (supersededThenCompleted.drop 3) [] rfl ⟨0⟩ .dead hdead rfl
  rw [List.take_append_drop,hdone] at hstay
  exact absurd hstay (by simp)

end ProjectOS.Sched
