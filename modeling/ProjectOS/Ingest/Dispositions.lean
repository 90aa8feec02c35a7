import ProjectOS.Ingest.Coverage
import ProjectOS.Ingest.Pipeline

/-! A failed attempt, as the item's log has it and as the queue has it. -/

namespace ProjectOS.Ingest
open Lib Domain
open Sched (Call ClaimedJob FailureOutcome JobFailure JobQueue QueueInput World demoAt
  demoKind demoQueue demoSpec demoWorker failureKills firstSlot queueMachine)

def StageFailure.jobFailure (failure : StageFailure) : JobFailure :=
  ⟨failure.code,failure.detail,failure.permanent⟩

section Handled
variable {q : JobQueue} {env : Nat → QueueInput} {n : Nat} {db : Sched.Db} {job : ClaimedJob}

variable {failure : JobFailure}

theorem fail_spares
    (hk : failureKills failure job.attempt_index job.retry_count_max = false) :
    ((Sched.fail q job failure).after queueMachine env n db).stateOf job.job_id =
      db.stateOf job.job_id := by
  obtain ⟨now_ms,delay_ms,hs⟩ := Sched.fail_after q env n db job failure
  generalize he : Sched.failureEvent ⟨job.job_id,job.attempt_index,job.retry_count_max,now_ms⟩
    failure delay_ms = e at hs
  have hnext : Sched.nextState e = none := by
    rw [← he,Sched.failureEvent_nextState,if_neg (by simp [hk])]
  have happ : ∀ ts_ms db₁, db.append ts_ms e = .ok db₁ →
      db₁.stateOf job.job_id = db.stateOf job.job_id := by
    intro ts_ms db₁ ha
    obtain ⟨row,hr,hst,-⟩ := Sched.append_update ha (j := job.job_id)
      (by simp [← he]) (by simp [← he])
    rw [hst,hnext,Sched.Db.stateOf,hr]
    rfl
  rcases hs with hs | ⟨ts_ms,db₁,ha,hs | hs⟩
  · rw [hs]
  · rw [hs,happ ts_ms db₁ ha]
  · rw [hs,Sched.releaseLease_stateOf,happ ts_ms db₁ ha]

theorem fail_stateOf {out : FailureOutcome}
    (h : ((Sched.fail q job failure).run queueMachine env n db).1 = .ok out) :
    ((Sched.fail q job failure).after queueMachine env n db).stateOf job.job_id =
      if failureKills failure job.attempt_index job.retry_count_max then some .dead
      else db.stateOf job.job_id := by
  cases hk : failureKills failure job.attempt_index job.retry_count_max with
  | true =>
    obtain ⟨row,reason,hr,hst,-⟩ := Sched.fail_dead hk h
    rw [if_pos rfl,Sched.Db.stateOf,hr,Option.map_some,hst]
  | false => rw [fail_spares hk,if_neg (by simp)]

end Handled

theorem failedFact_disposition {attempt : StageAttempt} {failure : StageFailure}
    {body : IngestStageFailed}
    (h : IngestPipeline.failedFact attempt failure = .ingest (.stageFailed body)) :
    body.disposition.isDead = true ↔
      failure.permanent = true ∨ attempt.job.retry_count_max ≤ attempt.job.attempt_index := by
  simp only [IngestPipeline.failedFact,Fact.ingest.injEq,IngestEvent.stageFailed.injEq] at h
  subst h
  unfold IngestPipeline.disposition
  split_ifs with hc
  · simpa [IngestStageDisposition.isDead] using hc
  · simpa [IngestStageDisposition.isDead] using hc

/-- Precisely when the fact the pipeline records of a failed attempt calls the
item dead as the queue calls its job: on the attempt whose number is the retry
bound the pipeline gives up and the queue does not. -/
theorem disposition_agrees_iff (q : JobQueue) (env : Nat → QueueInput) (n : Nat) (db : Sched.Db)
    (attempt : StageAttempt) (failure : StageFailure) (body : IngestStageFailed)
    (out : FailureOutcome)
    (hbody : IngestPipeline.failedFact attempt failure = .ingest (.stageFailed body))
    (hlive : db.stateOf attempt.job.job_id ≠ some .dead)
    (hrun : ((Sched.fail q attempt.job failure.jobFailure).run queueMachine env n db).1 =
      .ok out) :
    (body.disposition.isDead = true ↔
      ((Sched.fail q attempt.job failure.jobFailure).after queueMachine env n db).stateOf
        attempt.job.job_id = some .dead) ↔
    (failure.permanent = true ∨ attempt.job.attempt_index ≠ attempt.job.retry_count_max) := by
  have hdead : ((Sched.fail q attempt.job failure.jobFailure).after queueMachine env n db).stateOf
      attempt.job.job_id = some .dead ↔
      failure.permanent = true ∨ attempt.job.retry_count_max < attempt.job.attempt_index := by
    rw [fail_stateOf hrun]
    by_cases hk : failureKills failure.jobFailure attempt.job.attempt_index
        attempt.job.retry_count_max = true
    · rw [if_pos hk]
      simpa [failureKills,StageFailure.jobFailure] using hk
    · rw [if_neg hk]
      refine iff_of_false hlive ?_
      simpa [failureKills,StageFailure.jobFailure] using hk
  rw [failedFact_disposition hbody,hdead]
  cases failure.permanent with
  | true => simp
  | false =>
    simp only [Bool.false_eq_true,false_or]
    omega

def retriedOnceSpec : Sched.JobSpec := { demoSpec with retry_count_max := 1 }

def firstClaim : List Call :=
  [⟨.enqueue ⟨0⟩ retriedOnceSpec,demoAt 0⟩,
   ⟨.claim ⟨0⟩ .foreground (demoWorker firstSlot),demoAt 1000⟩]

def firstAttempt : StageAttempt where
  stage := .chunk
  job := ⟨⟨0⟩,⟨0⟩,demoKind,[],1,1,1,demoWorker firstSlot,1000,1000⟩
  evidence := demoEvidence.intoRecord ⟨7⟩
  pass := 0

def unreadable : StageFailure := .retriable "io" "the text blob could not be read"

theorem disposition_early :
    firstAttempt.job ∈ (World.empty.run demoQueue firstClaim).claims ∧
    ¬∀ (body : IngestStageFailed) (out : FailureOutcome),
      IngestPipeline.failedFact firstAttempt unreadable = .ingest (.stageFailed body) →
      ((Sched.fail demoQueue firstAttempt.job unreadable.jobFailure).run queueMachine
        (demoAt 2000) 0 (World.empty.run demoQueue firstClaim).db).1 = .ok out →
      (body.disposition.isDead = true ↔
        ((Sched.fail demoQueue firstAttempt.job unreadable.jobFailure).after queueMachine
          (demoAt 2000) 0 (World.empty.run demoQueue firstClaim).db).stateOf ⟨0⟩ =
            some .dead) := by
  refine ⟨by decide +kernel,?_⟩
  intro h
  have hqueued : ((Sched.fail demoQueue firstAttempt.job unreadable.jobFailure).after queueMachine
      (demoAt 2000) 0 (World.empty.run demoQueue firstClaim).db).stateOf ⟨0⟩ = some .queued := by
    decide
  have hdead := (h _ (.retrying 2000) rfl (by decide)).mp rfl
  rw [hqueued] at hdead
  exact absurd hdead (by decide)

theorem disposition_agrees_last :
    (IngestPipeline.disposition { firstAttempt with job := { firstAttempt.job with attempt_index := 2 } }
        unreadable).isDead = true ↔
      ((Sched.fail demoQueue { firstAttempt.job with attempt_index := 2 }
        unreadable.jobFailure).after queueMachine (demoAt 2000) 0
          (World.empty.run demoQueue firstClaim).db).stateOf ⟨0⟩ = some .dead :=
  (disposition_agrees_iff demoQueue (demoAt 2000) 0 (World.empty.run demoQueue firstClaim).db
    { firstAttempt with job := { firstAttempt.job with attempt_index := 2 } } unreadable _ .dead
    rfl (by decide) (by decide)).mpr (Or.inr (by decide))

end ProjectOS.Ingest
