import ProjectOS.Lib.Pool
import ProjectOS.Sched.Numbering
import ProjectOS.Sched.Bytes

/-! Admission to the queue while other callers enqueue, claim and settle: what
a derived job id stands for, and what each enqueue reports. -/

namespace ProjectOS.Sched
open Lib Domain Lib.Prog List

def jobIdInput (project_id : ProjectId) (job_kind idempotency_key : String) : Bytes :=
  utf8Bytes "projectos/job-id/v1" ++ idBytes project_id ++
    beBytes32 (min job_kind.utf8ByteSize u32Max) ++ utf8Bytes job_kind ++
    beBytes32 (min idempotency_key.utf8ByteSize u32Max) ++ utf8Bytes idempotency_key

def leadingId (digest : Digest) : JobId := ⟨digest.extractLsb' 128 128⟩

variable (q : JobQueue) (project_id : ProjectId)

theorem jobIdInput_inj {p p' : ProjectId} {k k' i i' : String} (hk : k.utf8ByteSize < u32Max)
    (hk' : k'.utf8ByteSize < u32Max) (hi : i.utf8ByteSize < u32Max) (hi' : i'.utf8ByteSize < u32Max)
    (h : jobIdInput p k i = jobIdInput p' k' i') : p = p' ∧ k = k' ∧ i = i' := by
  simp only [jobIdInput,append_assoc] at h
  obtain ⟨hp,hrest⟩ := append_inj (append_cancel_left h)
    (by rw [idBytes_length,idBytes_length])
  obtain ⟨hkind,hkey⟩ := lengthPrefixed_inj hk hk' hrest
  rw [← append_nil (utf8Bytes i),← append_nil (utf8Bytes i')] at hkey
  exact ⟨idBytes_inj hp,hkind,(lengthPrefixed_inj hi hi' hkey).1⟩

section
variable (q : JobQueue)

def enqueueRequest (project_id : ProjectId) (spec : JobSpec) :
    QueueProg (JobId × Option JobEvent) := do
  .ofExcept spec.validate
  let job_id := deriveJobId q project_id spec.kind spec.idempotency_key
  match ← Act.readJob job_id with
  | some _ => pure (job_id,none)
  | none => pure (job_id,some (enqueuedEvent job_id project_id spec))

/-- Any operation of the queue, or a caller that appends the request it had built.
-/
inductive Caller where
  | operation (op : Op)
  | requester (project_id : ProjectId) (spec : JobSpec)

inductive Reply where
  | admission (outcome : EnqueueOutcome)
  | done

def Op.code : Op → QueueProg Reply
  | .enqueue project_id spec =>
    (Sched.enqueue q project_id spec).bind fun outcome => .ret (.admission outcome)
  | .claim project_id class_ worker =>
    (Sched.claim q project_id class_ worker).bind fun _ => .ret .done
  | .heartbeat job => (Sched.heartbeat q job).bind fun _ => .ret .done
  | .complete job wall_ms => (Sched.complete job wall_ms).bind fun _ => .ret .done
  | .fail job failure => (Sched.fail q job failure).bind fun _ => .ret .done
  | .supersede job_id cron_id => (Sched.supersede job_id cron_id).bind fun _ => .ret .done
  | .reap => (reapExpiredLeases q).bind fun _ => .ret .done
  | .tick project_id => (Sched.tick q project_id).bind fun _ => .ret .done
  | .registerCron project_id spec => (Sched.registerCron q project_id spec).bind fun _ => .ret .done

def Caller.code : Caller → QueueProg Reply
  | .operation op => op.code q
  | .requester project_id spec => do
    match ← enqueueRequest q project_id spec with
    | (job_id,none) => pure (.admission (.duplicate job_id))
    | (job_id,some event) => do
      appendJobFact event
      pure (.admission (.enqueued job_id))

def supersession : JobEvent → Option (JobId × CronId)
  | .dead job_id _ (.supersededByCron cron_id) => some (job_id,cron_id)
  | _ => none

def Appends (P : JobEvent → Prop) : QueueAct → Prop
  | .append event => P event
  | _ => True

/-- An enqueue is of a valid spec, under the id derived for it; facts that retire a
job are set apart. -/
structure Records (P : JobEvent → Prop) : Prop where
  enqueued : ∀ project_id spec, JobSpec.validate spec = .ok () →
    P (enqueuedEvent (deriveJobId q project_id spec.kind spec.idempotency_key) project_id spec)
  other : ∀ event, isEnqueue event = false → supersession event = none → P event

def Op.retires : Op → Bool
  | .supersede _ _
  | .tick _ => true
  | _ => false

variable {q} {P : JobEvent → Prop}

theorem appendJobFact_appends {event : JobEvent} (h : P event) :
    (appendJobFact event).Within (Appends P) := by
  refine within_bind ⟨h,fun _ => trivial⟩ ?_
  intro r
  cases r with
  | ok | error => trivial

theorem releaseLease_appends (j : JobId) : (releaseLease j).Within (Appends P) :=
  within_bind ⟨trivial,fun _ => trivial⟩ (fun _ => within_ofExcept _)

theorem appendFailure_appends (h : Records q P) (attempt : FailedAttempt) (failure : JobFailure) :
    (appendFailure q attempt failure).Within (Appends P) := by
  unfold appendFailure
  split
  · refine within_bind (appendJobFact_appends (h.other _ rfl ?_)) (fun _ => trivial)
    cases failure.permanent with
    | true => rfl
    | false => rfl
  · refine within_bind ⟨trivial,fun _ => trivial⟩ ?_
    intro delay_ms
    exact within_bind (appendJobFact_appends (h.other _ rfl rfl)) (fun _ => trivial)

theorem enqueue_appends (h : Records q P) (project_id : ProjectId) (spec : JobSpec) :
    (enqueue q project_id spec).Within (Appends P) := by
  cases hv : spec.validate with
  | error e =>
    simp only [enqueue,hv]
    exact within_throw e
  | ok u =>
    simp only [enqueue,hv,bind_eq,ofExcept_ok,ret_bind]
    refine within_bind ⟨trivial,fun _ => trivial⟩ ?_
    intro found
    cases found with
    | some row => trivial
    | none =>
      refine within_bind ⟨h.enqueued project_id spec hv,fun _ => trivial⟩ ?_
      intro r
      match r with
      | .ok () => trivial
      | .error (.store fault) => trivial
      | .error (.apply source) =>
        refine within_bind ⟨trivial,fun _ => trivial⟩ ?_
        intro again
        cases again with
        | some | none => trivial

theorem supersede_appends {job_id : JobId} {cron_id : CronId}
    (hsup : ∀ n, P (.dead job_id n (.supersededByCron cron_id))) :
    (supersede job_id cron_id).Within (Appends P) := by
  refine within_bind ⟨trivial,fun _ => trivial⟩ ?_
  intro found
  cases found with
  | none => trivial
  | some row =>
    dsimp only
    split
    · trivial
    · exact within_bind (appendJobFact_appends (hsup _))
        (fun _ => releaseLease_appends job_id)

theorem reapLease_appends (h : Records q P) (now_ms : Nat) (lease : JobId × LeaseRow) :
    (reapLease q now_ms lease).Within (Appends P) := by
  refine within_bind ⟨trivial,fun _ => trivial⟩ ?_
  intro found
  cases found with
  | none => exact releaseLease_appends lease.1
  | some row =>
    dsimp only
    split
    · exact within_bind (appendFailure_appends h _ _) (fun _ => releaseLease_appends lease.1)
    · exact releaseLease_appends lease.1

theorem fire_appends (h : Records q P) (project_id : ProjectId) (cron : CronId × CronRow) (due : DueFiring)
    (report : CronTickReport) : (fire q project_id cron due report).Within (Appends P) := by
  unfold fire
  split
  · generalize firingSpec cron.1 cron.2 _ due = spec
    refine within_bind (enqueue_appends h project_id spec) ?_
    intro outcome
    cases outcome with
    | enqueued | duplicate => exact within_ret _
  · exact within_throw _

theorem supersedeAll_appends (hsup : ∀ j n c, P (.dead j n (.supersededByCron c)))
    (cron_id : CronId) (live : List JobId) (report : CronTickReport) :
    (supersedeAll cron_id live report).Within (Appends P) := by
  refine within_foldlM live _ ?_ report
  intro report job_id _
  exact within_bind (supersede_appends fun n => hsup _ n _) (fun _ => trivial)

theorem tickOne_appends (h : Records q P)
    (hsup : ∀ j n c, P (.dead j n (.supersededByCron c))) (project_id : ProjectId) (now_ms : Nat) (report : CronTickReport)
    (cron : CronId × CronRow) : (tickOne q project_id now_ms report cron).Within (Appends P) := by
  unfold tickOne
  split
  · trivial
  · cases q.schedule cron.2.expr cron.2.tz with
    | error e => trivial
    | ok next =>
      dsimp only
      cases dueFiring next (watermarkTsMs cron.2) now_ms with
      | none => trivial
      | some due =>
        refine ⟨trivial,?_⟩
        intro live
        dsimp only [ret_bind]
        cases cron.2.overlap_policy with
        | skip =>
          dsimp only
          split
          · exact fire_appends h project_id cron due _
          · trivial
        | cancelPrevious =>
          exact within_bind (supersedeAll_appends hsup cron.1 live _)
            (fun report => fire_appends h project_id cron due report)
        | queue => exact fire_appends h project_id cron due _

theorem timed_appends {α : Type} {code : Nat → QueueProg α}
    (h : ∀ now_ms, (code now_ms).Within (Appends P)) :
    ((Act.now.bind code).bind fun _ => .ret Reply.done).Within (Appends P) :=
  within_bind (within_bind ⟨trivial,fun _ => trivial⟩ h) fun _ => trivial

theorem op_appends (h : Records q P) (op : Op)
    (hsup : op.retires = true → ∀ j n c, P (.dead j n (.supersededByCron c))) :
    (op.code q).Within (Appends P) := by
  cases op with
  | enqueue project_id spec =>
    exact within_bind (enqueue_appends h project_id spec) (fun _ => trivial)
  | claim project_id class_ worker =>
    refine timed_appends fun now_ms => ?_
    refine within_bind ⟨trivial,fun _ => trivial⟩ (fun found => ?_)
    refine within_bind (within_ofExcept found) (fun candidate => ?_)
    cases candidate with
    | none | some => trivial
  | heartbeat job =>
    refine timed_appends fun now_ms => ?_
    refine within_bind ⟨trivial,fun _ => trivial⟩ (fun changed => ?_)
    exact within_bind (within_ofExcept changed) (fun _ => trivial)
  | complete job wall_ms =>
    refine within_bind ?_ (fun _ => trivial)
    exact within_bind (appendJobFact_appends (h.other _ rfl rfl))
      (fun _ => releaseLease_appends job.job_id)
  | fail job failure =>
    refine timed_appends fun now_ms => ?_
    refine within_bind (appendFailure_appends h _ failure) (fun outcome => ?_)
    exact within_bind (releaseLease_appends job.job_id) (fun _ => trivial)
  | supersede job_id cron_id =>
    exact within_bind (supersede_appends fun n => hsup rfl _ n _) (fun _ => trivial)
  | reap =>
    refine timed_appends fun now_ms => ?_
    refine within_bind ⟨trivial,fun _ => trivial⟩ (fun expired => ?_)
    refine within_foldlM expired _ (fun reaped lease _ => ?_) 0
    exact within_bind (reapLease_appends h now_ms lease) (fun _ => trivial)
  | tick project_id =>
    refine timed_appends fun now_ms => ?_
    refine within_bind ⟨trivial,fun _ => trivial⟩ (fun crons => ?_)
    refine within_foldlM crons _ (fun report cron _ => ?_) _
    exact tickOne_appends h (hsup rfl) project_id now_ms report cron
  | registerCron project_id spec =>
    refine within_bind ?_ (fun _ => trivial)
    unfold registerCron
    cases q.schedule spec.expr spec.tz with
    | error e => trivial
    | ok next => exact appendJobFact_appends (h.other _ rfl rfl)

def LawfulFact (q : JobQueue) (event : JobEvent) : Prop :=
  isEnqueue event = true → ∃ project_id spec, JobSpec.validate spec = .ok () ∧
    event = enqueuedEvent (deriveJobId q project_id spec.kind spec.idempotency_key) project_id spec

abbrev Lawful (q : JobQueue) : QueueAct → Prop := Appends (LawfulFact q)

theorem lawful_records : Records q (LawfulFact q) :=
  ⟨fun project_id spec hv _ => ⟨project_id,spec,hv,rfl⟩,fun e he _ h => by simp [he] at h⟩

theorem caller_lawful (c : Caller) : (c.code q).Within (Lawful q) := by
  cases c with
  | operation op => exact op_appends lawful_records op (fun _ j n c h => by simp [isEnqueue] at h)
  | requester project_id spec =>
    have hrequest : ∀ f : JobId × Option JobEvent → QueueProg Reply,
        (∀ j, (f (j,none)).Within (Lawful q)) →
        (∀ j e, LawfulFact q e → (f (j,some e)).Within (Lawful q)) →
        ((enqueueRequest q project_id spec).bind f).Within (Lawful q) := by
      intro f hnone hsome
      unfold enqueueRequest
      cases hv : spec.validate with
      | error e => trivial
      | ok u =>
        refine ⟨trivial,?_⟩
        intro found
        cases found with
        | some row => exact hnone _
        | none => exact hsome _ _ (fun _ => ⟨project_id,spec,hv,rfl⟩)
    refine hrequest _ (fun _ => trivial) ?_
    intro j e he
    exact within_bind (appendJobFact_appends he) (fun _ => trivial)

end

structure JobKey where
  project_id : ProjectId
  job_kind : String
  idempotency_key : String
  deriving DecidableEq

def JobKey.input (key : JobKey) : Bytes :=
  jobIdInput key.project_id key.job_kind key.idempotency_key

def JobKey.jobId (q : JobQueue) (key : JobKey) : JobId := leadingId (q.blake3 key.input)

def specKey (project_id : ProjectId) (spec : JobSpec) : JobKey :=
  ⟨project_id,spec.kind.name,spec.idempotency_key⟩

def eventKey : JobEvent → Option JobKey
  | .enqueuedV2 b => some ⟨b.project_id,b.job_kind,b.idempotency_key⟩
  | _ => none

def enqueuesOf (db : Db) (j : JobId) : Nat :=
  db.facts.countP fun e => isEnqueue e && decide (e.job = some j)

def enqueuesFor (db : Db) (key : JobKey) : Nat :=
  db.facts.countP fun e => decide (eventKey e = some key)

theorem specKey_jobId (spec : JobSpec) :
    (specKey project_id spec).jobId q =
      deriveJobId q project_id spec.kind spec.idempotency_key := rfl

theorem specKey_input (spec : JobSpec) :
    (specKey project_id spec).input =
      jobIdInput project_id spec.kind.name spec.idempotency_key := rfl

@[simp] theorem enqueuedEvent_key (j : JobId) (p : ProjectId) (spec : JobSpec) :
    eventKey (enqueuedEvent j p spec) = some (specKey p spec) := rfl

@[simp] theorem enqueuedEvent_job (j : JobId) (p : ProjectId) (spec : JobSpec) :
    (enqueuedEvent j p spec).job = some j := rfl

@[simp] theorem enqueuedEvent_isEnqueue (j : JobId) (p : ProjectId) (spec : JobSpec) :
    isEnqueue (enqueuedEvent j p spec) = true := rfl

theorem isEnqueue_of_key {e : JobEvent} {key : JobKey} (h : eventKey e = some key) :
    isEnqueue e = true := by
  cases e with
  | enqueuedV2 b => rfl
  | _ => simp [eventKey] at h

/-- Every job row was enqueued once, and every fact is one a writer may append. -/
structure Admissions (q : JobQueue) (db : Db) : Prop where
  rows : ∀ j, enqueuesOf db j = if (db.jobs.get? j).isSome then 1 else 0
  lawful : ∀ e ∈ db.facts, LawfulFact q e

section
variable {q : JobQueue} {db db' : Db}

theorem empty_admissions : Admissions q Db.empty :=
  ⟨fun j => by simp [enqueuesOf,Db.empty],fun e he => by simp [Db.empty] at he⟩

theorem Admissions.once (h : Admissions q db) (j : JobId) : enqueuesOf db j ≤ 1 := by
  rw [h.rows j]
  split <;> omega

variable {j : JobId}

theorem Admissions.of_row (h : Admissions q db) {row : JobRow}
    (hr : db.jobs.get? j = some row) : enqueuesOf db j = 1 := by simp [h.rows j,hr]

theorem Admissions.of_none (h : Admissions q db) (hr : db.jobs.get? j = none) :
    enqueuesOf db j = 0 := by simp [h.rows j,hr]

theorem isSome_of_stateOf {st : JobDurableState} (h : db.stateOf j = some st) :
    (db.jobs.get? j).isSome = true := by
  cases hr : db.jobs.get? j with
  | none => simp [Db.stateOf,hr] at h
  | some row => rfl

variable {e : JobEvent} {ts_ms : Nat}

theorem append_enqueuesOf (ha : db.append ts_ms e = .ok db') (j : JobId) :
    enqueuesOf db' j =
      enqueuesOf db j + if isEnqueue e = true ∧ e.job = some j then 1 else 0 := by
  simp [enqueuesOf,(append_ok ha).2.1,countP_append,countP_cons]

theorem append_enqueuesFor (ha : db.append ts_ms e = .ok db') (key : JobKey) :
    enqueuesFor db' key =
      enqueuesFor db key + if eventKey e = some key then 1 else 0 := by
  simp [enqueuesFor,(append_ok ha).2.1,countP_append,countP_cons]

theorem append_admissions (h : Admissions q db) (ha : db.append ts_ms e = .ok db')
    (he : LawfulFact q e) : Admissions q db' := by
  refine ⟨?_,?_⟩
  · intro j
    rw [append_enqueuesOf ha,h.rows j]
    by_cases hj : e.job = some j
    · cases hen : isEnqueue e with
      | true =>
        obtain ⟨hnone,hst,-⟩ := append_enqueue ha hen hj
        simp [hnone,isSome_of_stateOf hst,hj]
      | false =>
        obtain ⟨row,hr,hst,-⟩ := append_update ha hen hj
        simp [hr,isSome_of_stateOf hst]
    · simp [append_other ha hj,hj]
  · intro e' he'
    rw [(append_ok ha).2.1] at he'
    rcases mem_append.mp he' with hmem | hmem
    · exact h.lawful e' hmem
    · rw [mem_singleton.mp hmem]
      exact he

theorem step_appends (x : QueueInput) (db : Db) (a : QueueAct) :
    (((queueMachine.step x db a).2.jobs = db.jobs ∧ (queueMachine.step x db a).2.facts = db.facts) ∨
      ∃ event, a = .append event ∧
        db.append x.now_ms event = .ok (queueMachine.step x db a).2) := by
  cases a with
  | append event =>
    cases hf : x.fault with
    | some fault => exact Or.inl (by simp [queueMachine,hf])
    | none =>
      cases ha : db.append x.now_ms event with
      | error e => exact Or.inl (by simp [queueMachine,hf,ha])
      | ok db₁ => exact Or.inr ⟨event,rfl,by simp [queueMachine,hf,ha]⟩
  | claimLease class_ worker now_ms expires_ts_ms =>
    refine Or.inl ?_
    cases hf : x.fault with
    | some fault => simp [queueMachine,hf]
    | none =>
      simp only [queueMachine,hf,Db.claimLease]
      cases selectClaimable db class_ now_ms with
      | none => exact ⟨rfl,rfl⟩
      | some r =>
        dsimp only
        split <;> exact ⟨rfl,rfl⟩
  | heartbeat job_id worker attempt_index now_ms expires_ts_ms =>
    refine Or.inl ?_
    cases hf : x.fault with
    | some fault => simp [queueMachine,hf]
    | none =>
      simp only [queueMachine,hf,Db.heartbeat]
      cases db.leases.get? job_id with
      | none => exact ⟨rfl,rfl⟩
      | some row =>
        dsimp only
        split <;> exact ⟨rfl,rfl⟩
  | releaseLease job_id =>
    refine Or.inl ?_
    cases hf : x.fault with
    | some | none => simp [queueMachine,hf]
  | _ => exact Or.inl ⟨rfl,rfl⟩

theorem enqueuesOf_of_facts (h : db'.facts = db.facts) (j : JobId) :
    enqueuesOf db' j = enqueuesOf db j := by rw [enqueuesOf,enqueuesOf,h]

theorem enqueuesFor_of_facts (h : db'.facts = db.facts) (key : JobKey) :
    enqueuesFor db' key = enqueuesFor db key := by rw [enqueuesFor,enqueuesFor,h]

/-- Enqueues are only added, for every job and every key. -/
structure HoldsEnqueues (db db' : Db) : Prop where
  of_job : ∀ j, enqueuesOf db j ≤ enqueuesOf db' j
  of_key : ∀ key, enqueuesFor db key ≤ enqueuesFor db' key

theorem step_admissions (h : Admissions q db) (x : QueueInput) {a : QueueAct} (ha : Lawful q a) :
    Admissions q (queueMachine.step x db a).2 ∧ HoldsEnqueues db (queueMachine.step x db a).2 := by
  rcases step_appends x db a with ⟨hjobs,hfacts⟩ | ⟨event,rfl,happ⟩
  · refine ⟨⟨?_,?_⟩,⟨?_,?_⟩⟩
    · intro j
      rw [enqueuesOf_of_facts hfacts,hjobs]
      exact h.rows j
    · rw [hfacts]
      exact h.lawful
    · exact fun j => Nat.le_of_eq (enqueuesOf_of_facts hfacts j).symm
    · exact fun key => Nat.le_of_eq (enqueuesFor_of_facts hfacts key).symm
  · refine ⟨append_admissions h happ ha,?_,?_⟩
    · exact fun j => append_enqueuesOf happ j ▸ Nat.le_add_right _ _
    · exact fun key => append_enqueuesFor happ key ▸ Nat.le_add_right _ _

end

def answered (outcome : EnqueueOutcome) : QueueProg Reply := .ret (.admission outcome)

def secondRead (job_id : JobId) (source : ApplyError) : Option JobRow → QueueProg Reply
  | some _ => answered (.duplicate job_id)
  | none => .throw (.log (.apply source))

def afterAppend (job_id : JobId) : Except LogError Unit → QueueProg Reply
  | .ok () => answered (.enqueued job_id)
  | .error (.apply source) => .act (F := queueIface) (.readJob job_id) (secondRead job_id source)
  | .error (.store fault) => .throw (.log (.store fault))

def firstRead (job_id : JobId) (project_id : ProjectId) (spec : JobSpec) :
    Option JobRow → QueueProg Reply
  | some _ => answered (.duplicate job_id)
  | none =>
    .act (F := queueIface) (.append (enqueuedEvent job_id project_id spec)) (afterAppend job_id)

/-- Where a caller stands between the two reads of an enqueue. -/
inductive Enqueueing (job_id : JobId) (project_id : ProjectId) (spec : JobSpec) :
    QueueProg Reply → Prop
  | reading : Enqueueing job_id project_id spec
      (.act (.readJob job_id) (firstRead job_id project_id spec))
  | appending : Enqueueing job_id project_id spec
      (.act (.append (enqueuedEvent job_id project_id spec)) (afterAppend job_id))
  | rereading (source : ApplyError) : Enqueueing job_id project_id spec
      (.act (.readJob job_id) (secondRead job_id source))
  | returned (r : Reply) : Enqueueing job_id project_id spec (.ret r)
  | thrown (e : SchedError) : Enqueueing job_id project_id spec (.throw e)

theorem enqueueing_next {job_id : JobId} {project_id : ProjectId} {spec : JobSpec}
    {a : QueueAct} {k : queueIface.Resp a → QueueProg Reply}
    (h : Enqueueing job_id project_id spec (.act a k)) (r : queueIface.Resp a) :
    Enqueueing job_id project_id spec (k r) := by
  cases h with
  | reading =>
    cases r with
    | some row => exact .returned _
    | none => exact .appending
  | appending =>
    match r with
    | .ok () => exact .returned _
    | .error (.apply source) => exact .rereading source
    | .error (.store fault) => exact .thrown _
  | rereading source =>
    cases r with
    | some row => exact .returned _
    | none => exact .thrown _

theorem enqueue_code {spec : JobSpec} (hv : spec.validate = .ok ()) :
    (Caller.operation (.enqueue project_id spec)).code q =
      .act (F := queueIface) (.readJob ((specKey project_id spec).jobId q))
        (firstRead ((specKey project_id spec).jobId q) project_id spec) := by
  simp only [Caller.code,Op.code,enqueue,hv,bind_eq,ofExcept_ok,ret_bind,
    pure_eq,Act.readJob,Act.append,act_bind]
  refine congrArg (Prog.act _) (funext fun found => ?_)
  cases found with
  | some row => rfl
  | none =>
    refine congrArg (Prog.act _) (funext fun r => ?_)
    match r with
    | .ok () => rfl
    | .error (.store fault) => rfl
    | .error (.apply source) =>
      refine congrArg (Prog.act _) (funext fun again => ?_)
      cases again with
      | some | none => rfl

/-- What the rest of a caller's code may still do. -/
structure CallerForm (q : JobQueue) (c : Caller) (p : QueueProg Reply) : Prop where
  lawful : p.Within (Lawful q)
  stage : ∀ project_id spec, c = .operation (.enqueue project_id spec) →
    (∃ e, spec.validate = .error e ∧ p = .throw e) ∨ spec.validate = .ok () ∧
      Enqueueing ((specKey project_id spec).jobId q) project_id spec p

section
variable {q : JobQueue}

theorem code_form (c : Caller) : CallerForm q c (c.code q) := by
  refine ⟨caller_lawful c,?_⟩
  intro project_id spec hc
  subst hc
  cases hv : spec.validate with
  | error e =>
    refine Or.inl ⟨e,rfl,?_⟩
    simp only [Caller.code,Op.code,enqueue,hv]
    rfl
  | ok u =>
    refine Or.inr ⟨rfl,?_⟩
    rw [enqueue_code q project_id hv]
    exact .reading

theorem form_next (c : Caller) (a : QueueAct) (k : queueIface.Resp a → QueueProg Reply)
    (h : CallerForm q c (.act a k)) (r : queueIface.Resp a) : CallerForm q c (k r) := by
  refine ⟨h.lawful.2 r,?_⟩
  intro project_id spec hc
  rcases h.stage project_id spec hc with ⟨e,-,he⟩ | ⟨hv,hs⟩
  · cases he
  · exact Or.inr ⟨hv,enqueueing_next hs r⟩

/-- An enqueue reports its job under the derived id, enqueued by this very turn or
there already; or why there is none. -/
def Answers (q : JobQueue) (project_id : ProjectId) (spec : JobSpec) (db db' : Db) :
    Except SchedError Reply → Prop
  | .ok (.admission (.enqueued j)) => spec.validate = .ok () ∧
      j = (specKey project_id spec).jobId q ∧ enqueuesOf db' j = 1 ∧
      enqueuesFor db' (specKey project_id spec) = enqueuesFor db (specKey project_id spec) + 1
  | .ok (.admission (.duplicate j)) => spec.validate = .ok () ∧
      j = (specKey project_id spec).jobId q ∧ enqueuesOf db' j = 1
  | .ok .done => False
  | .error e => spec.validate = .error e ∨ (∃ fault, e = .log (.store fault)) ∨
      enqueuesOf db ((specKey project_id spec).jobId q) = 0

theorem enqueueing_answers {project_id : ProjectId} {spec : JobSpec} {db : Db}
    (hdb : Admissions q db) (hv : spec.validate = .ok ()) (x : QueueInput) {a : QueueAct}
    {k : queueIface.Resp a → QueueProg Reply}
    (h : Enqueueing ((specKey project_id spec).jobId q) project_id spec (.act a k))
    {r : Except SchedError Reply} (hr : (k (queueMachine.step x db a).1).ended = some r) :
    Answers q project_id spec db (queueMachine.step x db a).2 r := by
  cases h with
  | reading =>
    change (firstRead _ _ _ (db.jobs.get? _)).ended = some r at hr
    cases hrow : db.jobs.get? ((specKey project_id spec).jobId q) with
    | none => simp [hrow,firstRead,Prog.ended] at hr
    | some row =>
      simp only [hrow,firstRead,answered,Prog.ended,Option.some.injEq] at hr
      subst hr
      exact ⟨hv,rfl,hdb.of_row hrow⟩
  | rereading source =>
    change (secondRead _ _ (db.jobs.get? _)).ended = some r at hr
    cases hrow : db.jobs.get? ((specKey project_id spec).jobId q) with
    | none =>
      simp only [hrow,secondRead,Prog.ended,Option.some.injEq] at hr
      subst hr
      exact Or.inr (Or.inr (hdb.of_none hrow))
    | some row =>
      simp only [hrow,secondRead,answered,Prog.ended,Option.some.injEq] at hr
      subst hr
      exact ⟨hv,rfl,hdb.of_row hrow⟩
  | appending =>
    cases hf : x.fault with
    | some fault =>
      simp only [queueMachine,hf,afterAppend,Prog.ended,Option.some.injEq] at hr
      subst hr
      exact Or.inr (Or.inl ⟨fault,rfl⟩)
    | none =>
      cases ha : db.append x.now_ms
          (enqueuedEvent ((specKey project_id spec).jobId q) project_id spec) with
      | error e => simp [queueMachine,hf,ha,afterAppend,Prog.ended] at hr
      | ok db' =>
        simp only [queueMachine,hf,ha,afterAppend,answered,Prog.ended,Option.some.injEq] at hr
        subst hr
        have hlawful : LawfulFact q
            (enqueuedEvent ((specKey project_id spec).jobId q) project_id spec) :=
          fun _ => ⟨project_id,spec,hv,rfl⟩
        have hone := (append_admissions hdb ha hlawful).once ((specKey project_id spec).jobId q)
        have hof := append_enqueuesOf ha ((specKey project_id spec).jobId q)
        have hfor := append_enqueuesFor ha (specKey project_id spec)
        simp only [enqueuedEvent_isEnqueue,enqueuedEvent_job,enqueuedEvent_key,and_self,
          if_true] at hof hfor
        simp only [queueMachine,hf,ha]
        exact ⟨hv,rfl,by omega,hfor⟩

end

def admits (key : JobKey) : Caller × Except SchedError Reply → Bool
  | (.operation (.enqueue project_id spec),.ok (.admission (.enqueued _))) =>
    decide (specKey project_id spec = key)
  | _ => false

abbrev Queuers := Pool queueIface Caller SchedError Reply Db

def Queuers.idle : Queuers := Pool.fresh Db.empty

section
variable (q : JobQueue)

def Queuers.after (c : Queuers) (ts : List (Turn Caller QueueInput)) : Queuers :=
  c.turns queueMachine (Caller.code q) ts

def Queuers.reported (c : Queuers) (ts : List (Turn Caller QueueInput)) :
    List (Caller × Except SchedError Reply) := c.reports queueMachine (Caller.code q) ts

def loggedKeys (db : Db) : List JobKey := db.facts.filterMap eventKey

def reportedKey : Caller × Except SchedError Reply → Option JobKey
  | (.operation (.enqueue project_id spec),_) => some (specKey project_id spec)
  | _ => none

def Collisionless (keys : List JobKey) : Prop :=
  ∀ a ∈ keys, ∀ b ∈ keys, a.jobId q = b.jobId q → a.input = b.input

instance (keys : List JobKey) : Decidable (Collisionless q keys) :=
  inferInstanceAs (Decidable (∀ a ∈ keys, ∀ b ∈ keys, _ → _))

end

section
variable {q : JobQueue}

theorem Collisionless.mono {keys keys' : List JobKey} (h : keys ⊆ keys')
    (hash : Collisionless q keys') : Collisionless q keys :=
  fun a ha b hb => hash a (h ha) b (h hb)

theorem holdsEnqueues_refl (db : Db) : HoldsEnqueues db db :=
  ⟨fun _ => Nat.le_refl _,fun _ => Nat.le_refl _⟩

theorem HoldsEnqueues.trans {a b c : Db} (h₁ : HoldsEnqueues a b) (h₂ : HoldsEnqueues b c) :
    HoldsEnqueues a c :=
  ⟨fun j => Nat.le_trans (h₁.of_job j) (h₂.of_job j),
    fun key => Nat.le_trans (h₁.of_key key) (h₂.of_key key)⟩

theorem turn_admissions {c : Queuers} (hf : c.Formed (CallerForm q))
    (hdb : Admissions q c.store) (t : Turn Caller QueueInput) :
    Admissions q (c.turn queueMachine (Caller.code q) t).store ∧
      HoldsEnqueues c.store (c.turn queueMachine (Caller.code q) t).store := by
  rcases Pool.turn_store queueMachine (Caller.code q) c t with h | ⟨i,x,op,a,k,rfl,hi,h⟩
  · rw [h]
    exact ⟨hdb,holdsEnqueues_refl c.store⟩
  · rw [h]
    exact step_admissions hdb x (hf i op _ hi).lawful.1

variable {r : Except SchedError Reply}

theorem turn_answers {c : Queuers} (hf : c.Formed (CallerForm q)) (hdb : Admissions q c.store)
    {t : Turn Caller QueueInput} {project_id : ProjectId} {spec : JobSpec}
    (h : Pool.report queueMachine (Caller.code q) c t =
      some (.operation (.enqueue project_id spec),r)) :
    Answers q project_id spec c.store (c.turn queueMachine (Caller.code q) t).store r := by
  rcases Pool.report_some h with ⟨i,rfl,hr⟩ | ⟨i,x,a,k,rfl,hi,hr⟩
  · rcases (code_form (q := q) (.operation (.enqueue project_id spec))).stage project_id spec rfl
      with ⟨e,hv,he⟩ | ⟨hv,-⟩
    · simp only [he,Prog.ended,Option.some.injEq] at hr
      subst hr
      exact Or.inl hv
    · simp [enqueue_code q project_id hv,Prog.ended] at hr
  · rcases (hf i _ _ hi).stage project_id spec rfl with ⟨e,-,he⟩ | ⟨hv,hs⟩
    · cases he
    · have hstore : (c.turn queueMachine (Caller.code q) (.act i x)).store =
          (queueMachine.step x c.store a).2 := by simp [Pool.turn,hi,Pool.setThread]
      rw [hstore]
      exact enqueueing_answers hdb hv x hs hr

theorem Answers.later {project_id : ProjectId} {spec : JobSpec}
    {db₀ db db₁ db' : Db} (h : Answers q project_id spec db db₁ r) (hdb' : Admissions q db')
    (h₀ : HoldsEnqueues db₀ db) (h₁ : HoldsEnqueues db₁ db') :
    match r with
    | .ok (.admission outcome) => spec.validate = .ok () ∧
        outcome.jobId = (specKey project_id spec).jobId q ∧ enqueuesOf db' outcome.jobId = 1
    | .ok .done => False
    | .error e => spec.validate = .error e ∨ (∃ fault, e = .log (.store fault)) ∨
        enqueuesOf db₀ ((specKey project_id spec).jobId q) = 0 := by
  match r with
  | .ok (.admission (.enqueued j)) =>
    obtain ⟨hv,hj,hone,-⟩ := h
    have hle := h₁.of_job j
    have hmax := hdb'.once j
    exact ⟨hv,hj,by simp only [EnqueueOutcome.jobId]; omega⟩
  | .ok (.admission (.duplicate j)) =>
    obtain ⟨hv,hj,hone⟩ := h
    have hle := h₁.of_job j
    have hmax := hdb'.once j
    exact ⟨hv,hj,by simp only [EnqueueOutcome.jobId]; omega⟩
  | .ok .done => exact h
  | .error e =>
    rcases h with h | h | h
    · exact Or.inl h
    · exact Or.inr (Or.inl h)
    · have hle := h₀.of_job ((specKey project_id spec).jobId q)
      exact Or.inr (Or.inr (by omega))

end

section
variable {q : JobQueue}

theorem of_admits {key : JobKey} {reported : Caller × Except SchedError Reply}
    (h : admits key reported = true) : ∃ project_id spec j,
      reported = (.operation (.enqueue project_id spec),.ok (.admission (.enqueued j))) ∧
        specKey project_id spec = key := by
  unfold admits at h
  split at h
  · exact ⟨_,_,_,rfl,of_decide_eq_true h⟩
  · cases h

theorem turn_admits {c : Queuers} (hf : c.Formed (CallerForm q)) (hdb : Admissions q c.store)
    (t : Turn Caller QueueInput) (key : JobKey) :
    enqueuesFor c.store key +
        ((c.report queueMachine (Caller.code q) t).toList.countP (admits key)) ≤
      enqueuesFor (c.turn queueMachine (Caller.code q) t).store key := by
  have hle := (turn_admissions hf hdb t).2.of_key key
  cases hr : c.report queueMachine (Caller.code q) t with
  | none => simpa using hle
  | some reported =>
    by_cases ha : admits key reported = true
    · obtain ⟨project_id,spec,j,rfl,hkey⟩ := of_admits ha
      obtain ⟨-,-,-,hfor⟩ := turn_answers hf hdb hr
      rw [hkey] at hfor
      simp [ha,hfor]
    · simpa [ha] using hle

/-- What a stretch of turns keeps and adds, and what its callers were answered. -/
structure Stretch (q : JobQueue) (c : Queuers) (ts : List (Turn Caller QueueInput)) : Prop where
  admissions : Admissions q (c.after q ts).store
  holds : HoldsEnqueues c.store (c.after q ts).store
  admits : ∀ key, enqueuesFor c.store key + (c.reported q ts).countP (admits key) ≤
    enqueuesFor (c.after q ts).store key
  answers : ∀ project_id spec r, (Caller.operation (.enqueue project_id spec),r) ∈ c.reported q ts →
    ∃ db db₁, Answers q project_id spec db db₁ r ∧ HoldsEnqueues c.store db ∧
      HoldsEnqueues db₁ (c.after q ts).store

theorem stretch_of_formed {c : Queuers} (hf : c.Formed (CallerForm q))
    (hdb : Admissions q c.store) (ts : List (Turn Caller QueueInput)) : Stretch q c ts := by
  induction ts generalizing c with
  | nil =>
    exact ⟨hdb,holdsEnqueues_refl _,fun key => Nat.le_refl _,fun _ _ _ h => absurd h (by
      simp [Queuers.reported,Pool.reports])⟩
  | cons t ts ih =>
    obtain ⟨hdb₁,hle⟩ := turn_admissions hf hdb t
    have hrest := ih (Pool.turn_formed code_form form_next hf t) hdb₁
    refine ⟨hrest.admissions,hle.trans hrest.holds,?_,?_⟩
    · intro key
      have hone := turn_admits hf hdb t key
      have hmore := hrest.admits key
      have hcount : (c.reported q (t :: ts)).countP (Sched.admits key) =
          ((c.report queueMachine (Caller.code q) t).toList.countP (Sched.admits key)) +
            (Queuers.reported q (c.turn queueMachine (Caller.code q) t) ts).countP
              (Sched.admits key) := by
        simp only [Queuers.reported,Pool.reports,countP_append]
      rw [hcount]
      change _ ≤ enqueuesFor (Queuers.after q (c.turn queueMachine (Caller.code q) t) ts).store key
      omega
    · intro project_id spec r hr
      simp only [Queuers.reported,Pool.reports,mem_append,Option.mem_toList] at hr
      rcases hr with hr | hr
      · exact ⟨_,_,turn_answers hf hdb hr,holdsEnqueues_refl _,hrest.holds⟩
      · obtain ⟨db,db₁,hans,h₀,h₁⟩ := hrest.answers project_id spec r hr
        exact ⟨db,db₁,hans,hle.trans h₀,h₁⟩

variable {spec : JobSpec}

theorem validate_bounds (h : spec.validate = .ok ()) :
    spec.kind.name.utf8ByteSize < u32Max ∧ spec.idempotency_key.utf8ByteSize < u32Max := by
  have hkind := spec.kind.valid
  simp only [jobKindValid,Bool.and_eq_true,jobKindLenMax] at hkind
  have hsize := of_decide_eq_true hkind.1.2
  unfold JobSpec.validate at h
  split at h
  · cases h
  · rename_i hkey
    simp only [not_or,Nat.not_lt,jobIdempotencyKeyLenMax] at hkey
    simp only [u32Max]
    omega

variable {keys : List JobKey}

theorem specKey_inj (hash : Collisionless q keys) {p p' : ProjectId}
    {spec' : JobSpec} (hv : spec.validate = .ok ()) (hv' : spec'.validate = .ok ())
    (hk : specKey p spec ∈ keys) (hk' : specKey p' spec' ∈ keys)
    (h : (specKey p spec).jobId q = (specKey p' spec').jobId q) :
    specKey p spec = specKey p' spec' := by
  obtain ⟨hkind,hkey⟩ := validate_bounds hv
  obtain ⟨hkind',hkey'⟩ := validate_bounds hv'
  have hinput := hash _ hk _ hk' h
  rw [specKey_input,specKey_input] at hinput
  obtain ⟨hp,hn,hi⟩ := jobIdInput_inj hkind hkind' hkey hkey' hinput
  simp only [specKey,hp,hn,hi]

theorem enqueuesFor_le {db : Db} (h : Admissions q db) (key : JobKey) :
    enqueuesFor db key ≤ enqueuesOf db (key.jobId q) := by
  refine countP_mono_left ?_
  intro e he hkey
  have hkey : eventKey e = some key := of_decide_eq_true hkey
  have hen := isEnqueue_of_key hkey
  obtain ⟨p,spec,-,rfl⟩ := h.lawful e he hen
  obtain rfl : specKey p spec = key := by simpa using hkey
  simp [specKey_jobId]

theorem enqueuesOf_le {db : Db} (h : Admissions q db)
    (hash : Collisionless q keys) (hlog : ∀ key ∈ loggedKeys db, key ∈ keys) {p : ProjectId}
    (hv : spec.validate = .ok ()) (hk : specKey p spec ∈ keys) :
    enqueuesOf db ((specKey p spec).jobId q) ≤ enqueuesFor db (specKey p spec) := by
  refine countP_mono_left ?_
  intro e he hj
  simp only [Bool.and_eq_true,decide_eq_true_eq] at hj
  obtain ⟨p',spec',hv',rfl⟩ := h.lawful e he hj.1
  have hid : (specKey p' spec').jobId q = (specKey p spec).jobId q := Option.some.inj hj.2
  have hlogged : specKey p' spec' ∈ loggedKeys db :=
    mem_filterMap.mpr ⟨_,he,rfl⟩
  simpa using specKey_inj hash hv' hv (hlog _ hlogged) hk hid

end

/-- However callers interleave, the log holds at most one enqueue of a key, at most one
call reports to have made it, and any other that comes through reports the same job. One
that does not was refused for its spec or by the store, or came before the job. -/
theorem key_enqueued_once (q : JobQueue) (before during : List (Turn Caller QueueInput)) :
    let c := Queuers.idle.after q before
    let db := (c.after q during).store
    Collisionless q (loggedKeys db ++ (c.reported q during).filterMap reportedKey) →
    (∀ key, enqueuesFor db key ≤ 1) ∧
    (∀ key, enqueuesFor c.store key + (c.reported q during).countP (admits key) ≤
      enqueuesFor db key) ∧
    ∀ project_id spec r, (Caller.operation (.enqueue project_id spec),r) ∈ c.reported q during →
      match r with
      | .ok (.admission outcome) =>
        outcome.jobId = deriveJobId q project_id spec.kind spec.idempotency_key ∧
          enqueuesFor db (specKey project_id spec) = 1 ∧
          (enqueuesFor c.store (specKey project_id spec) = 1 → outcome.isDuplicate = true)
      | .ok .done => False
      | .error e => spec.validate = .error e ∨ (∃ fault, e = .log (.store fault)) ∨
          enqueuesFor c.store (specKey project_id spec) = 0 := by
  intro c db hash
  have hformed : c.Formed (CallerForm q) :=
    Pool.turns_formed code_form form_next (Pool.fresh_formed _ _) before
  have hc : Admissions q c.store :=
    (stretch_of_formed (Pool.fresh_formed _ _) empty_admissions before).admissions
  have hstretch := stretch_of_formed hformed hc during
  have honce : ∀ key, enqueuesFor db key ≤ 1 := fun key =>
    Nat.le_trans (enqueuesFor_le hstretch.admissions key) (hstretch.admissions.once _)
  refine ⟨honce,hstretch.admits,?_⟩
  intro project_id spec r hr
  obtain ⟨db₀,db₁,hans,h₀,h₁⟩ := hstretch.answers project_id spec r hr
  have hlater := hans.later hstretch.admissions h₀ h₁
  match r with
  | .ok (.admission outcome) =>
    obtain ⟨hv,hj,hone⟩ := hlater
    have hkey : specKey project_id spec ∈ loggedKeys db ++
        (c.reported q during).filterMap reportedKey :=
      mem_append_right _ (mem_filterMap.mpr ⟨_,hr,rfl⟩)
    have hle := enqueuesOf_le hstretch.admissions hash
      (fun key h => mem_append_left _ h) hv hkey
    have hone : enqueuesFor db (specKey project_id spec) = 1 := by
      have hmax := honce (specKey project_id spec)
      rw [hj] at hone
      exact Nat.le_antisymm hmax (hone ▸ hle)
    refine ⟨hj,hone,?_⟩
    intro hbefore
    cases outcome with
    | duplicate j => rfl
    | enqueued j =>
      -- the report would be a second enqueue of the key
      have hcount : 0 < (c.reported q during).countP (admits (specKey project_id spec)) :=
        countP_pos_iff.mpr ⟨_,hr,by simp [admits]⟩
      have htotal : _ ≤ enqueuesFor db (specKey project_id spec) :=
        hstretch.admits (specKey project_id spec)
      omega
  | .ok .done => exact hlater
  | .error e =>
    rcases hlater with h | h | h
    · exact Or.inl h
    · exact Or.inr (Or.inl h)
    · have hle := enqueuesFor_le hc (specKey project_id spec)
      exact Or.inr (Or.inr (by omega))

/-! Two callers enqueue one key, and both read before either appends. The second is
refused by the key and finds the job on its second read; later calls find it at once. -/

def recordedBlake3 (bytes : Bytes) : Digest :=
  if bytes = jobIdInput ⟨0⟩ "noop" "once" then
    0xafcca0d3d06ebe914fd58d7c2725be625fe2ddb0e6e7c05e9316fd9a63d97194#256
  else if bytes = jobIdInput ⟨0⟩ "noop" "twice" then
    0x6b12d653cec1c581bb0e35fa4e606d494fd496dd2fcef2c6597d3d8555f22b9f#256
  else 0

def racedQueue : JobQueue := { demoQueue with blake3 := recordedBlake3 }

def racedEnqueue (idempotency_key : String) : Caller :=
  .operation (.enqueue ⟨0⟩ { demoSpec with idempotency_key := idempotency_key })

def racedBefore : List (Turn Caller QueueInput) :=
  [.start 0 (racedEnqueue "once"),.start 1 (racedEnqueue "once"),.act 0 ⟨0,0,none⟩,
   .act 1 ⟨1,0,none⟩,.act 0 ⟨2,0,none⟩]

def racedDuring : List (Turn Caller QueueInput) :=
  [.act 1 ⟨3,0,none⟩,.start 2 (racedEnqueue "twice"),.act 2 ⟨4,0,none⟩,.act 1 ⟨5,0,none⟩,
   .act 2 ⟨6,0,none⟩,.start 0 (racedEnqueue "once"),.act 0 ⟨7,0,none⟩]

theorem key_enqueued_once_demo :
    let c := Queuers.idle.after racedQueue racedBefore
    let db := (c.after racedQueue racedDuring).store
    Collisionless racedQueue
        (loggedKeys db ++ (c.reported racedQueue racedDuring).filterMap reportedKey) ∧
      (c.reported racedQueue racedDuring).length = 3 ∧ ∀ key, enqueuesFor db key ≤ 1 := by
  have hash : Collisionless racedQueue
      (loggedKeys ((Queuers.idle.after racedQueue racedBefore).after racedQueue racedDuring).store ++
        ((Queuers.idle.after racedQueue racedBefore).reported racedQueue racedDuring).filterMap
          reportedKey) := by decide +kernel
  exact ⟨hash,by decide +kernel,(key_enqueued_once racedQueue racedBefore racedDuring hash).1⟩

end ProjectOS.Sched
