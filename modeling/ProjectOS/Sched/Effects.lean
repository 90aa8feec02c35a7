import ProjectOS.Sched.Queue

namespace ProjectOS.Sched
open Lib Domain Lib.Prog

variable {ts_ms : Nat} {e : JobEvent}

theorem append_ok {db db' : Db} (h : db.append ts_ms e = .ok db') :
    db'.head = db.head+1 ∧ db'.facts = db.facts ++ [e] ∧ db'.leases = db.leases ∧
      applyJobs db.jobs (db.head+1) ts_ms e = .ok db'.jobs ∧
      applyCrons db.crons (db.head+1) ts_ms e = .ok db'.crons := by
  unfold Db.append at h
  cases hc : applyCrons db.crons (db.head+1) ts_ms e with
  | error x => simp [hc] at h
  | ok crons =>
    cases hj : applyJobs db.jobs (db.head+1) ts_ms e with
    | error x => simp [hc,hj] at h
    | ok jobs =>
      simp only [hc,hj,Except.ok.injEq] at h
      subst h
      exact ⟨rfl,rfl,rfl,rfl,rfl⟩

def Db.stateOf (db : Db) (j : JobId) : Option JobDurableState := (db.jobs.get? j).map JobRow.state

def Db.attemptCount (db : Db) (j : JobId) : Option Int := (db.jobs.get? j).map JobRow.attempt_count

variable (db : Db) (j : JobId)

@[simp] theorem releaseLease_jobs : (db.releaseLease j).jobs = db.jobs := rfl

@[simp] theorem releaseLease_facts :
    (db.releaseLease j).facts = db.facts := rfl

@[simp] theorem releaseLease_stateOf (i : JobId) :
    (db.releaseLease j).stateOf i = db.stateOf i := rfl

@[simp] theorem releaseLease_attemptCount (i : JobId) :
    (db.releaseLease j).attemptCount i = db.attemptCount i := rfl

def nextState : JobEvent → Option JobDurableState
  | .enqueuedV1 .. => some .queued
  | .enqueuedV2 _ => some .queued
  | .completedV1 .. => some .done
  | .completedV2 .. => some .done
  | .dead .. => some .dead
  | _ => none

def nextAttempt : JobEvent → Option Nat
  | .enqueuedV1 .. => some 0
  | .enqueuedV2 _ => some 0
  | .attemptFailed _ a _ _ _
  | .completedV1 _ a
  | .completedV2 _ a _
  | .dead _ a _ => some a
  | _ => none

def isEnqueue : JobEvent → Bool
  | .enqueuedV1 ..
  | .enqueuedV2 _ => true
  | _ => false

theorem append_other {db db' : Db} {j : JobId} (h : db.append ts_ms e = .ok db')
    (hj : e.job ≠ some j) : db'.jobs.get? j = db.jobs.get? j :=
  applyJobs_other (append_ok h).2.2.2.1 hj

theorem append_enqueue {db db' : Db} {j : JobId} (h : db.append ts_ms e = .ok db')
    (he : isEnqueue e = true) (hj : e.job = some j) :
    db.jobs.get? j = none ∧ db'.stateOf j = some .queued ∧ db'.attemptCount j = some 0 := by
  obtain ⟨-,-,-,hjobs,-⟩ := append_ok h
  cases e with
  | enqueuedV1 job_id job_kind =>
    obtain ⟨hn,hput⟩ := insertRow_ok hjobs
    obtain rfl : job_id = j := by simpa [JobEvent.job] using hj
    simp [Db.stateOf,Db.attemptCount,hput,hn]
  | enqueuedV2 b =>
    obtain ⟨hn,hput⟩ := insertRow_ok hjobs
    obtain rfl : b.job_id = j := by simpa [JobEvent.job] using hj
    simp [Db.stateOf,Db.attemptCount,hput,hn]
  | _ => simp [isEnqueue] at he

theorem append_update {db db' : Db} {j : JobId} (h : db.append ts_ms e = .ok db')
    (he : isEnqueue e = false) (hj : e.job = some j) :
    ∃ row, db.jobs.get? j = some row ∧ db'.stateOf j = some ((nextState e).getD row.state) ∧
      db'.attemptCount j = (nextAttempt e).map Int.ofNat := by
  obtain ⟨-,-,-,hjobs,-⟩ := append_ok h
  cases e with
  | enqueuedV1 | enqueuedV2 => simp [isEnqueue] at he
  | attemptFailed job_id a c d t | completedV1 job_id a | completedV2 job_id a w
  | dead job_id a r =>
    obtain ⟨row,hr,hput⟩ := updateOne_ok hjobs
    obtain rfl : job_id = j := by simpa [JobEvent.job] using hj
    exact ⟨row,hr,by simp [Db.stateOf,hput,nextState],
      by simp [Db.attemptCount,hput,nextAttempt,integerU32]⟩
  | cronRegistered b => simp [JobEvent.job] at hj
  | cronEnablementSet c e => simp [JobEvent.job] at hj

theorem append_settle_ok {db : Db} (ts_ms : Nat) {j : JobId} {row : JobRow}
    (hr : db.jobs.get? j = some row) (he : isEnqueue e = false) (hj : e.job = some j) :
    ∃ db', db.append ts_ms e = .ok db' := by
  cases e with
  | enqueuedV1 | enqueuedV2 => simp [isEnqueue] at he
  | cronRegistered | cronEnablementSet => simp [JobEvent.job] at hj
  | _ =>
    simp only [JobEvent.job,Option.some.injEq] at hj
    subst hj
    simp [Db.append,applyCrons,applyJobs,updateOne,hr]

section Runs
variable (env : Nat → QueueInput) (n : Nat) (db : Db)

@[simp] theorem now_run :
    Act.now.run queueMachine env n db = (.ok (env n).now_ms,n+1,db) := rfl

@[simp] theorem readJob_run (j : JobId) :
    (Act.readJob j).run queueMachine env n db = (.ok (db.jobs.get? j),n+1,db) := rfl

@[simp] theorem listCrons_run :
    Act.listCrons.run queueMachine env n db = (.ok db.crons.rows,n+1,db) := rfl

@[simp] theorem listQueuedOf_run (c : CronId) :
    (Act.listQueuedOf c).run queueMachine env n db = (.ok (listQueuedOf db c),n+1,db) := rfl

theorem append_run (e : JobEvent) :
    (Act.append e).run queueMachine env n db =
      match (env n).fault with
      | some fault => (.ok (.error (.store fault)),n+1,db)
      | none =>
        match db.append (env n).now_ms e with
        | .ok db' => (.ok (.ok ()),n+1,db')
        | .error x => (.ok (.error (.apply x)),n+1,db) := by
  change (Except.ok (queueMachine.step (env n) db (.append e)).1,n+1,
    (queueMachine.step (env n) db (.append e)).2) = _
  simp only [queueMachine]
  cases (env n).fault with
  | some fault => rfl
  | none =>
    cases db.append (env n).now_ms e with
    | ok | error => rfl

theorem appendJobFact_run (e : JobEvent) :
    (appendJobFact e).run queueMachine env n db =
      match (env n).fault with
      | some fault => (.error (.log (.store fault)),n+1,db)
      | none =>
        match db.append (env n).now_ms e with
        | .ok db' => (.ok (),n+1,db')
        | .error x => (.error (.log (.apply x)),n+1,db) := by
  simp only [appendJobFact,bind_eq,run_bind,append_run]
  cases (env n).fault with
  | some fault => rfl
  | none =>
    cases db.append (env n).now_ms e with
    | ok | error => rfl

theorem releaseLease_run (j : JobId) :
    (releaseLease j).run queueMachine env n db =
      match (env n).fault with
      | some fault => (.error (.store fault),n+1,db)
      | none => (.ok (),n+1,db.releaseLease j) := by
  change (Prog.ofExcept (queueMachine.step (env n) db (.releaseLease j)).1).run queueMachine env
    (n+1) (queueMachine.step (env n) db (.releaseLease j)).2 = _
  simp only [queueMachine]
  cases (env n).fault with
  | some | none => rfl

end Runs

def Settles (db : Db) (e : JobEvent) (j : JobId) (db' : Db) : Prop :=
  db' = db ∨ ∃ ts_ms db₁, db.append ts_ms e = .ok db₁ ∧ (db' = db₁ ∨ db' = db₁.releaseLease j)

variable (env : Nat → QueueInput) (n : Nat)

theorem releaseLease_after (db : Db) (j : JobId) :
    (releaseLease j).after queueMachine env n db = db ∨
      (releaseLease j).after queueMachine env n db = db.releaseLease j := by
  simp only [Prog.after,releaseLease_run]
  cases (env n).fault with
  | some fault => exact Or.inl rfl
  | none => exact Or.inr rfl

theorem appendJobFact_bind_after {α : Type} (db : Db) (e : JobEvent) (f : Unit → QueueProg α) :
    ((appendJobFact e).bind f).after queueMachine env n db =
      match (env n).fault with
      | some _ => db
      | none =>
        match db.append (env n).now_ms e with
        | .ok db₁ => (f ()).after queueMachine env (n+1) db₁
        | .error _ => db := by
  simp only [Prog.after,run_bind,appendJobFact_run]
  cases (env n).fault with
  | some fault => rfl
  | none =>
    cases db.append (env n).now_ms e with
    | ok | error => rfl

theorem settles_after (db : Db) (e : JobEvent) (j : JobId) :
    Settles db e j
      (((appendJobFact e).bind fun _ => releaseLease j).after queueMachine env n db) := by
  rw [appendJobFact_bind_after]
  cases (env n).fault with
  | some fault => exact Or.inl rfl
  | none =>
    cases ha : db.append (env n).now_ms e with
    | error x => exact Or.inl rfl
    | ok db₁ => exact Or.inr ⟨_,db₁,ha,releaseLease_after env (n+1) db₁ j⟩

theorem complete_after_eq (db : Db) (job : ClaimedJob) (wall_ms : Nat) :
    (complete job wall_ms).after queueMachine env n db =
      match (env n).fault with
      | some _ => db
      | none =>
        match db.append (env n).now_ms (.completedV2 job.job_id job.attempt_index wall_ms) with
        | .ok db₁ => (releaseLease job.job_id).after queueMachine env (n+1) db₁
        | .error _ => db :=
  appendJobFact_bind_after env n db _ _

theorem complete_after (db : Db) (job : ClaimedJob) (wall_ms : Nat) :
    Settles db (.completedV2 job.job_id job.attempt_index wall_ms) job.job_id
      ((complete job wall_ms).after queueMachine env n db) :=
  settles_after env n db _ _

def failureEvent (attempt : FailedAttempt) (failure : JobFailure) (delay_ms : Nat) : JobEvent :=
  if failureKills failure attempt.attempt_index attempt.retry_count_max then
    .dead attempt.job_id attempt.attempt_index
      (if failure.permanent then .refused failure.code else .retriesExhausted failure.code)
  else
    .attemptFailed attempt.job_id attempt.attempt_index failure.code failure.detail
      (satAdd64 attempt.now_ms delay_ms)

def failureAppendAt (n : Nat) (attempt : FailedAttempt) (failure : JobFailure) : Nat :=
  if failureKills failure attempt.attempt_index attempt.retry_count_max then n else n+1

section Failure
variable (attempt : FailedAttempt) (failure : JobFailure) (delay_ms : Nat)

@[simp] theorem failureEvent_job :
    (failureEvent attempt failure delay_ms).job = some attempt.job_id := by
  unfold failureEvent
  split <;> rfl

@[simp] theorem failureEvent_isEnqueue :
    isEnqueue (failureEvent attempt failure delay_ms) = false := by
  unfold failureEvent
  split <;> rfl

@[simp] theorem failureEvent_nextAttempt :
    nextAttempt (failureEvent attempt failure delay_ms) = some attempt.attempt_index := by
  unfold failureEvent
  split <;> rfl

theorem failureEvent_nextState :
    nextState (failureEvent attempt failure delay_ms) =
      if failureKills failure attempt.attempt_index attempt.retry_count_max then some .dead
      else none := by
  unfold failureEvent
  split <;> rfl

theorem appendFailure_bind_after {α : Type} (q : JobQueue) (env : Nat → QueueInput) (n : Nat)
    (db : Db) (f : FailureOutcome → QueueProg α) :
    ∃ delay_ms outcome,
      ((appendFailure q attempt failure).bind f).after queueMachine env n db =
        match (env (failureAppendAt n attempt failure)).fault with
        | some _ => db
        | none =>
          match db.append (env (failureAppendAt n attempt failure)).now_ms
              (failureEvent attempt failure delay_ms) with
          | .ok db₁ =>
            (f outcome).after queueMachine env (failureAppendAt n attempt failure + 1) db₁
          | .error _ => db := by
  by_cases hk : failureKills failure attempt.attempt_index attempt.retry_count_max = true
  · refine ⟨0,.dead,?_⟩
    simp only [appendFailure,hk,if_true,bind_eq,bind_assoc,pure_eq,ret_bind,
      appendJobFact_bind_after,failureAppendAt,failureEvent]
  · let delay_ms :=
      sampleBelow (env n).draw (satAdd64 (q.backoff.windowMs attempt.attempt_index) 1)
    refine ⟨delay_ms,.retrying (satAdd64 attempt.now_ms delay_ms),?_⟩
    have hf : (appendFailure q attempt failure).bind f =
        (Act.jitter (satAdd64 (q.backoff.windowMs attempt.attempt_index) 1)).bind fun d =>
          (appendJobFact (failureEvent attempt failure d)).bind fun _ =>
            f (.retrying (satAdd64 attempt.now_ms d)) := by
      simp only [appendFailure,failureEvent,hk,Bool.false_eq_true,if_false,bind_eq,
        bind_assoc,pure_eq,ret_bind]
    have hm : failureAppendAt n attempt failure = n+1 := by simp [failureAppendAt,hk]
    rw [hf,hm]
    exact appendJobFact_bind_after env (n+1) db (failureEvent attempt failure delay_ms)
      (fun _ => f (.retrying (satAdd64 attempt.now_ms delay_ms)))

end Failure

theorem release_ret_after {α : Type} (db : Db) (j : JobId) (a : α) :
    ((releaseLease j).bind fun _ => (.ret a : QueueProg α)).after queueMachine env n db =
      (releaseLease j).after queueMachine env n db := by
  simp only [Prog.after,run_bind,releaseLease_run]
  cases (env n).fault with
  | some | none => rfl

theorem fail_after_eq (q : JobQueue) (env : Nat → QueueInput) (n : Nat) (db : Db)
    (job : ClaimedJob) (failure : JobFailure) :
    ∃ delay_ms, (fail q job failure).after queueMachine env n db =
      let attempt : FailedAttempt :=
        ⟨job.job_id,job.attempt_index,job.retry_count_max,(env n).now_ms⟩
      let m := failureAppendAt (n+1) attempt failure
      match (env m).fault with
      | some _ => db
      | none =>
        match db.append (env m).now_ms (failureEvent attempt failure delay_ms) with
        | .ok db₁ => (releaseLease job.job_id).after queueMachine env (m+1) db₁
        | .error _ => db := by
  obtain ⟨delay_ms,outcome,h⟩ := appendFailure_bind_after
    ⟨job.job_id,job.attempt_index,job.retry_count_max,(env n).now_ms⟩ failure q env (n+1) db
    (fun outcome => (releaseLease job.job_id).bind fun _ => .ret outcome)
  refine ⟨delay_ms,?_⟩
  simp only [release_ret_after] at h
  exact h

theorem fail_after (q : JobQueue) (env : Nat → QueueInput) (n : Nat) (db : Db) (job : ClaimedJob)
    (failure : JobFailure) :
    ∃ now_ms delay_ms, Settles db
      (failureEvent ⟨job.job_id,job.attempt_index,job.retry_count_max,now_ms⟩ failure delay_ms)
      job.job_id ((fail q job failure).after queueMachine env n db) := by
  obtain ⟨delay_ms,h⟩ := fail_after_eq q env n db job failure
  refine ⟨(env n).now_ms,delay_ms,?_⟩
  rw [h]
  dsimp only
  split
  · exact Or.inl rfl
  · split
    · rename_i db₁ ha
      exact Or.inr ⟨_,db₁,ha,releaseLease_after _ _ _ _⟩
    · exact Or.inl rfl

theorem supersede_after (db : Db) (j : JobId) (c : CronId) :
    (supersede j c).after queueMachine env n db = db ∨
      ∃ row, db.jobs.get? j = some row ∧ row.state.isTerminal = false ∧
        Settles db (.dead j (countU32 row.attempt_count) (.supersededByCron c)) j
          ((supersede j c).after queueMachine env n db) := by
  cases hr : db.jobs.get? j with
  | none =>
    left
    simp [supersede,Prog.after,run_bind,hr]
  | some row =>
    cases ht : row.state.isTerminal with
    | true =>
      left
      simp [supersede,Prog.after,run_bind,hr,ht]
    | false =>
      right
      refine ⟨row,rfl,ht,?_⟩
      have h : (supersede j c).after queueMachine env n db =
          ((appendJobFact (.dead j (countU32 row.attempt_count) (.supersededByCron c))).bind
            fun _ => releaseLease j).after queueMachine env (n+1) db := by
        simp [supersede,Prog.after,run_bind,hr,ht]
      rw [h]
      exact settles_after env (n+1) db _ j

variable (q : JobQueue)

theorem reapLease_after (now_ms : Nat) (lease : JobId × LeaseRow) (env : Nat → QueueInput)
    (n : Nat) (db : Db) :
    (reapLease q now_ms lease).after queueMachine env n db = db ∨
      ((reapLease q now_ms lease).after queueMachine env n db = db.releaseLease lease.1 ∧
        ∀ row, db.jobs.get? lease.1 = some row → row.state.isTerminal = false →
          countU32 lease.2.attempt_index ≤ countU32 row.attempt_count) ∨
      ∃ row delay_ms, db.jobs.get? lease.1 = some row ∧ row.state.isTerminal = false ∧
        countU32 row.attempt_count < countU32 lease.2.attempt_index ∧
        Settles db
          (failureEvent ⟨lease.1,countU32 lease.2.attempt_index,countU32 row.attempt_count_max,
            now_ms⟩ (leaseFailure lease.2) delay_ms) lease.1
          ((reapLease q now_ms lease).after queueMachine env n db) := by
  have hrel : ∀ m, (releaseLease lease.1).after queueMachine env m db = db ∨
      (releaseLease lease.1).after queueMachine env m db = db.releaseLease lease.1 :=
    fun m => releaseLease_after env m db lease.1
  cases hr : db.jobs.get? lease.1 with
  | none =>
    have h : (reapLease q now_ms lease).after queueMachine env n db =
        (releaseLease lease.1).after queueMachine env (n+1) db := by
      simp [reapLease,Prog.after,run_bind,hr]
    rw [h]
    rcases hrel (n+1) with hd | hd
    · exact Or.inl hd
    · exact Or.inr (Or.inl ⟨hd,fun row hrow => absurd hrow (by simp)⟩)
  | some row =>
    by_cases hg : row.state.isTerminal = false ∧
        countU32 row.attempt_count < countU32 lease.2.attempt_index
    · right; right
      let attempt : FailedAttempt :=
        ⟨lease.1,countU32 lease.2.attempt_index,countU32 row.attempt_count_max,now_ms⟩
      have h : (reapLease q now_ms lease).after queueMachine env n db =
          ((appendFailure q attempt (leaseFailure lease.2)).bind fun _ =>
            releaseLease lease.1).after queueMachine env (n+1) db := by
        simp [reapLease,Prog.after,run_bind,hr,hg,attempt]
      obtain ⟨delay_ms,outcome,ha⟩ := appendFailure_bind_after attempt (leaseFailure lease.2) q env
        (n+1) db (fun _ => releaseLease lease.1)
      refine ⟨row,delay_ms,rfl,hg.1,hg.2,?_⟩
      rw [h,ha]
      split
      · exact Or.inl rfl
      · split
        · rename_i db₁ hdb
          exact Or.inr ⟨_,db₁,hdb,releaseLease_after _ _ _ _⟩
        · exact Or.inl rfl
    · have h : (reapLease q now_ms lease).after queueMachine env n db =
          (releaseLease lease.1).after queueMachine env (n+1) db := by
        simp [reapLease,Prog.after,run_bind,hr,hg]
      rw [h]
      rcases hrel (n+1) with hd | hd
      · exact Or.inl hd
      · refine Or.inr (Or.inl ⟨hd,?_⟩)
        intro row' hrow ht
        obtain rfl : row = row' := by simpa using hrow
        exact not_lt.mp (fun hlt => hg ⟨ht,hlt⟩)

variable (project_id : ProjectId)

theorem enqueue_after (spec : JobSpec) (env : Nat → QueueInput) (n : Nat) (db : Db) :
    (enqueue q project_id spec).after queueMachine env n db = db ∨
      ∃ ts_ms, db.append ts_ms (enqueuedEvent
          (deriveJobId q project_id spec.kind spec.idempotency_key) project_id spec) =
        .ok ((enqueue q project_id spec).after queueMachine env n db) := by
  unfold enqueue
  cases hv : spec.validate with
  | error x =>
    left
    simp [Prog.after]
  | ok u =>
    generalize hj : deriveJobId q project_id spec.kind spec.idempotency_key = j
    cases hr : db.jobs.get? j with
    | some row =>
      left
      simp [Prog.after,run_bind,hr]
    | none =>
      simp only [ofExcept_ok,bind_eq,ret_bind,Prog.after,run_bind,readJob_run,hr,
        append_run]
      cases (env (n+1)).fault with
      | some fault => exact Or.inl rfl
      | none =>
        cases ha : db.append (env (n+1)).now_ms (enqueuedEvent j project_id spec) with
        | ok db' => exact Or.inr ⟨_,ha⟩
        | error x =>
          left
          simp [run_bind,hr]

theorem registerCron_after (spec : CronSpec) (env : Nat → QueueInput) (n : Nat) (db : Db) :
    (registerCron q project_id spec).after queueMachine env n db = db ∨
      ∃ ts_ms body, db.append ts_ms (.cronRegistered body) =
        .ok ((registerCron q project_id spec).after queueMachine env n db) := by
  unfold registerCron
  cases q.schedule spec.expr spec.tz with
  | error x => exact Or.inl rfl
  | ok next =>
    simp only [Prog.after,appendJobFact_run]
    cases (env n).fault with
    | some fault => exact Or.inl rfl
    | none =>
      generalize hb : CronRegisteredV1.mk _ _ _ _ _ _ _ _ _ _ = body
      cases ha : db.append (env n).now_ms (.cronRegistered body) with
      | error x => exact Or.inl rfl
      | ok db' => exact Or.inr ⟨_,body,ha⟩

theorem selectClaimable_some {db : Db} {class_ : JobClass} {now_ms : Nat} {j : JobId}
    {row : JobRow} (h : selectClaimable db class_ now_ms = some (j,row)) :
    db.jobs.get? j = some row ∧ row.state = .queued ∧ row.class_ = class_ ∧
      row.run_at_ts_ms ≤ integerU64 now_ms ∧ db.leases.get? j = none := by
  have hm := List.mem_of_mem_head? (Option.mem_def.mpr h)
  rw [List.mem_insertionSort,List.mem_filter] at hm
  obtain ⟨hrow,hc⟩ := hm
  simp only [claimable,Bool.and_eq_true,decide_eq_true_eq,Option.isNone_iff_eq_none] at hc
  exact ⟨(Table.mem_rows _).mp hrow,hc.1.1.1,hc.1.1.2,hc.1.2,hc.2⟩

theorem claimLease_run (db : Db) (class_ : JobClass)
    (worker : WorkerName) (now_ms expires_ts_ms : Nat) :
    (Act.claimLease class_ worker now_ms expires_ts_ms).run queueMachine env n db =
      match (env n).fault with
      | some fault => (.ok (.error (.store fault)),n+1,db)
      | none => (.ok (db.claimLease class_ worker now_ms expires_ts_ms).1,n+1,
          (db.claimLease class_ worker now_ms expires_ts_ms).2) := by
  change (Except.ok (queueMachine.step (env n) db
      (.claimLease class_ worker now_ms expires_ts_ms)).1,n+1,
    (queueMachine.step (env n) db (.claimLease class_ worker now_ms expires_ts_ms)).2) = _
  simp only [queueMachine]
  cases (env n).fault with
  | some | none => rfl

theorem claim_run (class_ : JobClass) (worker : WorkerName) (env : Nat → QueueInput) (n : Nat)
    (db : Db) :
    (((claim q project_id class_ worker).run queueMachine env n db).2.2 = db ∧
      ∀ job, ((claim q project_id class_ worker).run queueMachine env n db).1 ≠ .ok (some job)) ∨
    ∃ row job lease, db.jobs.get? job.job_id = some row ∧ row.state = .queued ∧
      db.leases.get? job.job_id = none ∧
      job.attempt_index = satAdd32 (countU32 row.attempt_count) 1 ∧
      job.worker = worker ∧ lease.worker = worker.name ∧
      lease.attempt_index = integerU32 job.attempt_index ∧
      job.retry_count_max = countU32 row.attempt_count_max ∧
      (claim q project_id class_ worker).run queueMachine env n db =
        (.ok (some job),n+2,{ db with leases := db.leases.put job.job_id lease }) := by
  simp only [claim,bind_eq,run_bind,now_run,claimLease_run]
  cases (env (n+1)).fault with
  | some fault =>
    left
    simp
  | none =>
    simp only [Db.claimLease]
    cases hs : selectClaimable db class_ (env n).now_ms with
    | none =>
      left
      simp
    | some r =>
      obtain ⟨j,row⟩ := r
      by_cases hk : jobKindValid row.job_kind = true
      · obtain ⟨hrow,hq,-,-,hl⟩ := selectClaimable_some hs
        right
        simp only [hk,dif_pos,ofExcept_ok,run_ret,pure_eq]
        exact ⟨row,_,_,hrow,hq,hl,rfl,rfl,rfl,rfl,rfl,rfl⟩
      · left
        simp [hk]

theorem heartbeat_after (q : JobQueue) (job : ClaimedJob) (env : Nat → QueueInput) (n : Nat)
    (db : Db) :
    (heartbeat q job).after queueMachine env n db = db ∨
      ∃ lease lease', db.leases.get? job.job_id = some lease ∧ lease'.worker = lease.worker ∧
        lease'.attempt_index = lease.attempt_index ∧
        (heartbeat q job).after queueMachine env n db =
          { db with leases := db.leases.put job.job_id lease' } := by
  have hbeat : ∀ now_ms expires_ts_ms,
      (Act.heartbeat job.job_id job.worker job.attempt_index now_ms expires_ts_ms).run
          queueMachine env (n+1) db =
        match (env (n+1)).fault with
        | some fault => (.ok (.error (.store fault)),n+2,db)
        | none =>
          let r := db.heartbeat job.job_id job.worker job.attempt_index now_ms expires_ts_ms
          (.ok (.ok r.1),n+2,r.2) := by
    intro now_ms expires_ts_ms
    change (Except.ok (queueMachine.step (env (n+1)) db
        (.heartbeat job.job_id job.worker job.attempt_index now_ms expires_ts_ms)).1,n+2,
      (queueMachine.step (env (n+1)) db
        (.heartbeat job.job_id job.worker job.attempt_index now_ms expires_ts_ms)).2) = _
    simp only [queueMachine]
    cases (env (n+1)).fault with
    | some | none => rfl
  simp only [heartbeat,bind_eq,Prog.after,run_bind,now_run,hbeat]
  cases (env (n+1)).fault with
  | some fault =>
    left
    simp
  | none =>
    simp only [ofExcept_ok,run_ret,pure_eq,Db.heartbeat]
    cases hl : db.leases.get? job.job_id with
    | none => exact Or.inl rfl
    | some lease =>
      by_cases hm : lease.worker = job.worker.name ∧ lease.attempt_index = integerU32 job.attempt_index
      · right
        dsimp only
        rw [if_pos hm]
        refine ⟨lease,_,rfl,?_,?_,rfl⟩
        · rfl
        · rfl
      · left
        simp [hm]

section Loops
variable {R : Db → Db → Prop} (hrefl : ∀ s, R s s) (htrans : ∀ s t u, R s t → R t u → R s u)
  (q : JobQueue)
include hrefl htrans

theorem fire_keeps (henq : ∀ p spec, Prog.Keeps queueMachine R (enqueue q p spec))
    (project_id : ProjectId) (cron : CronId × CronRow) (due : DueFiring) (report : CronTickReport) :
    Prog.Keeps queueMachine R (fire q project_id cron due report) := by
  unfold fire
  split
  · refine keeps_bind htrans (henq _ _) ?_
    intro outcome
    split <;> exact keeps_ret hrefl _
  · exact keeps_throw hrefl _

theorem supersedeAll_keeps (hsup : ∀ j c, Prog.Keeps queueMachine R (supersede j c))
    (cron_id : CronId) (live : List JobId) (report : CronTickReport) :
    Prog.Keeps queueMachine R (supersedeAll cron_id live report) := by
  refine keeps_foldlM hrefl htrans live _ ?_ report
  intro report j _
  exact keeps_bind htrans (hsup j cron_id) (fun _ => keeps_ret hrefl _)

theorem tick_keeps (hsup : ∀ j c, Prog.Keeps queueMachine R (supersede j c))
    (henq : ∀ p spec, Prog.Keeps queueMachine R (enqueue q p spec)) (project_id : ProjectId) :
    Prog.Keeps queueMachine R (tick q project_id) := by
  have hone : ∀ now_ms report cron,
      Prog.Keeps queueMachine R (tickOne q project_id now_ms report cron) := by
    intro now_ms report cron
    have hfire := fun due report => fire_keeps hrefl htrans q henq project_id cron due report
    unfold tickOne
    split
    · exact keeps_ret hrefl _
    split
    · exact keeps_throw hrefl _
    split
    · exact keeps_ret hrefl _
    refine keeps_bind htrans (fun _ _ s => hrefl s) ?_
    intro live
    split
    · split
      · exact hfire _ _
      · exact keeps_ret hrefl _
    · exact keeps_bind htrans (supersedeAll_keeps hrefl htrans hsup _ _ _)
        (fun _ => hfire _ _)
    · exact hfire _ _
  refine keeps_bind htrans (fun _ _ s => hrefl s) ?_
  intro now_ms
  refine keeps_bind htrans (fun _ _ s => hrefl s) ?_
  intro crons
  exact keeps_foldlM hrefl htrans crons _ (fun report cron _ => hone now_ms report cron) _

theorem reap_keeps
    (hreap : ∀ now_ms lease, Prog.Keeps queueMachine R (reapLease q now_ms lease)) :
    Prog.Keeps queueMachine R (reapExpiredLeases q) := by
  refine keeps_bind htrans (fun _ _ s => hrefl s) ?_
  intro now_ms
  refine keeps_bind htrans (fun _ _ s => hrefl s) ?_
  intro expired
  refine keeps_foldlM hrefl htrans expired _ ?_ 0
  intro reaped lease _
  exact keeps_bind htrans (hreap now_ms lease) (fun _ => keeps_ret hrefl _)

end Loops

end ProjectOS.Sched
