import ProjectOS.Ingest.Passes

/-! The stage jobs in the hands of the workers: a job is claimed while it is
queued, its stage is run, and how that came out is recorded on the job. -/

namespace ProjectOS.Ingest
open Lib Domain List
open Sched (ClaimedJob JobFailure JobKey JobKind JobQueue WorkerName deriveJobId
  enqueuedEvent failureKills idBytes isEnqueue jobKindValid nextState sampleBelow)

def stageOfKind (kind : String) : Option IngestStage :=
  IngestStage.all.find? fun stage => stage.jobKind = some kind

def claimedJob (project_id : ProjectId) (job_id : JobId) (row : JobRow) (kind : JobKind)
    (worker : WorkerName) (now_ms : Nat) : ClaimedJob where
  job_id := job_id
  project_id := project_id
  kind := kind
  payload := row.payload
  attempt_index := satAdd32 (countU32 row.attempt_count) 1
  retry_count_max := countU32 row.attempt_count_max
  enqueued_seq := nonNegative row.enqueued_seq
  worker := worker
  claimed_ts_ms := now_ms
  claim_latency_ms := now_ms - nonNegative row.run_at_ts_ms

def failedEvent (q : JobQueue) (draw now_ms : Nat) (job : ClaimedJob) (failure : JobFailure) :
    JobEvent :=
  if failureKills failure job.attempt_index job.retry_count_max then
    .dead job.job_id job.attempt_index
      (if failure.permanent then .refused failure.code else .retriesExhausted failure.code)
  else
    .attemptFailed job.job_id job.attempt_index failure.code failure.detail
      (satAdd64 now_ms (sampleBelow draw (satAdd64 (q.backoff.windowMs job.attempt_index) 1)))

def recordJob (event : JobEvent) : IngestProg Unit := .act (.append [.job event]) fun _ => .ret ()

def finishJob (q : JobQueue) (draw : Nat) (job : ClaimedJob) (started_ts_ms : Nat) :
    Except StageFailure Unit → IngestProg Unit
  | .ok () => .act .now fun now_ms =>
    recordJob (.completedV2 job.job_id job.attempt_index (now_ms-started_ts_ms))
  | .error failure => .act .now fun now_ms =>
    recordJob (failedEvent q draw now_ms job ⟨failure.code,failure.detail,failure.permanent⟩)

namespace IngestPipeline
variable (p : IngestPipeline) (project_id : ProjectId)

def runJob (stage : IngestStage) (job : ClaimedJob) : IngestProg Unit :=
  if p.stages.contains stage then (p.runStage project_id stage job).bind fun _ => .ret ()
  else
    .throw (.refusal "no_handler" s!"no handler is registered for job kind {job.kind.name}")

/-- A worker with a stage job. Which queued job is claimed, and how often one still
queued is claimed again, is left open. -/
def work (job_id : JobId) (worker : WorkerName) (draw : Nat) : IngestProg Unit :=
  .act .now fun now_ms => .act (.readJob job_id) fun
  | .error fault => .throw (readFailure "claim" fault)
  | .ok none => .ret ()
  | .ok (some row) =>
    if h : row.state = .queued ∧ jobKindValid row.job_kind = true then
      match stageOfKind row.job_kind with
      -- a job for another handler
      | none => .ret ()
      | some stage =>
        let job := claimedJob project_id job_id row ⟨row.job_kind,h.2⟩ worker now_ms
        .act .now fun started_ts_ms =>
          (p.runJob project_id stage job).attempt.bind (finishJob p.queue draw job started_ts_ms)
    else .ret ()

end IngestPipeline

inductive WorkOp where
  | submit (submission : EvidenceSubmission) (stored : Except IngestError (Digest × Nat))
  | reprocess (request : ReprocessRequest) (reason : String)
  | work (job_id : JobId) (worker : WorkerName) (draw : Nat)

def WorkOp.code (p : IngestPipeline) (project_id : ProjectId) : WorkOp → IngestProg Unit
  | .submit submission stored =>
    ((p.submit project_id submission stored).mapError .ofIngest).bind fun _ => .ret ()
  | .reprocess request reason =>
    ((p.reprocess project_id request reason).mapError .ofIngest).bind fun _ => .ret ()
  | .work job_id worker draw => p.work project_id job_id worker draw

abbrev Works := Pool ingestIface WorkOp StageFailure Unit Db

abbrev WorkTurn := Turn WorkOp IngestInput

def Works.idle : Works := Pool.fresh Db.empty

def Works.after (p : IngestPipeline) (project_id : ProjectId) (ts : List WorkTurn) : Db :=
  (Works.idle.turns ingestMachine (WorkOp.code p project_id) ts).store

def Known (log : List Fact) (e : EvidenceId) (pass : Nat) : Prop :=
  pass = 0 ∨ ∃ body, .ingest (.reprocessRequested body) ∈ log ∧ body.evidence_id = e ∧
    body.pass = pass

def Overtaken (log : List Fact) (e : EvidenceId) (pass : Nat) : Prop :=
  ∃ body, .ingest (.reprocessRequested body) ∈ log ∧ body.evidence_id = e ∧ pass < body.pass

def FinishedIn (log : List Fact) (e : EvidenceId) (stage : IngestStage) (pass : Nat) : Prop :=
  ∃ body, .ingest (.stageFinished body) ∈ log ∧ body.evidence_id = e ∧ body.stage = stage ∧
    body.pass = pass

def FailedIn (log : List Fact) (e : EvidenceId) : Prop :=
  ∃ body, .ingest (.stageFailed body) ∈ log ∧ body.evidence_id = e

section
variable {log more : List Fact} {e : EvidenceId} {stage : IngestStage} {pass : Nat}

theorem Known.later (h : Known log e pass) (hlog : log <+: more) : Known more e pass := by
  rcases h with h | ⟨body,hbody,hitem,hpass⟩
  · exact Or.inl h
  · exact Or.inr ⟨body,hlog.subset hbody,hitem,hpass⟩

theorem Overtaken.later (h : Overtaken log e pass) (hlog : log <+: more) :
    Overtaken more e pass := by
  obtain ⟨body,hbody,hrest⟩ := h
  exact ⟨body,hlog.subset hbody,hrest⟩

theorem FinishedIn.later (h : FinishedIn log e stage pass) (hlog : log <+: more) :
    FinishedIn more e stage pass := by
  obtain ⟨body,hbody,hrest⟩ := h
  exact ⟨body,hlog.subset hbody,hrest⟩

theorem FailedIn.later (h : FailedIn log e) (hlog : log <+: more) : FailedIn more e := by
  obtain ⟨body,hbody,hrest⟩ := h
  exact ⟨body,hlog.subset hbody,hrest⟩

end

/-- What a batch of the pipeline may do to the database. -/
structure Grown (s t : Db) : Prop where
  kept : DbKept s t
  facts : s.facts <+: t.facts
  jobs : ∀ j row, s.queue.jobs.get? j = some row → ∃ row', t.queue.jobs.get? j = some row' ∧
    row'.job_kind = row.job_kind ∧ row'.payload = row.payload

theorem grown_refl (s : Db) : Grown s s :=
  ⟨dbKept_refl s,prefix_rfl,fun _ row h => ⟨row,h,rfl,rfl⟩⟩

theorem Grown.trans {s t u : Db} (h : Grown s t) (h' : Grown t u) : Grown s u := by
  refine ⟨h.kept.trans h'.kept,h.facts.trans h'.facts,?_⟩
  intro j row hrow
  obtain ⟨row',hrow',hkind,hpayload⟩ := h.jobs j row hrow
  obtain ⟨row'',hrow'',hkind',hpayload'⟩ := h'.jobs j row' hrow'
  exact ⟨row'',hrow'',hkind'.trans hkind,hpayload'.trans hpayload⟩

theorem append_settles {q q' : Sched.Db} {ts_ms : Nat} {event : JobEvent}
    (h : q.append ts_ms event = .ok q') (hq : isEnqueue event = false) {j : JobId} {row : JobRow}
    (hrow : q.jobs.get? j = some row) :
    ∃ row', q'.jobs.get? j = some row' ∧ row'.job_kind = row.job_kind ∧
      row'.payload = row.payload ∧ row'.state =
        if event.job = some j then (nextState event).getD row.state else row.state := by
  by_cases hj : event.job = some j
  · obtain ⟨-,-,-,hjobs,-⟩ := Sched.append_ok h
    rw [if_pos hj]
    cases event with
    | enqueuedV1 | enqueuedV2 => cases hq
    | cronRegistered | cronEnablementSet => cases hj
    | _ =>
      obtain ⟨old,hold,hput⟩ := updateOne_ok hjobs
      have hid := Option.some.inj hj
      rw [hid] at hold hput
      rw [hrow] at hold
      cases hold
      have hget := congrArg (fun jobs => jobs.get? j) hput
      exact ⟨_,hget.trans (Table.get?_put_self _ _ _),rfl,rfl,rfl⟩
  · rw [if_neg hj]
    exact ⟨row,by rw [Sched.append_other h hj]; exact hrow,rfl,rfl,rfl⟩

theorem append_enqueues {q q' : Sched.Db} {ts_ms : Nat} {body : JobEnqueuedV2}
    (h : q.append ts_ms (.enqueuedV2 body) = .ok q') :
    q.jobs.get? body.job_id = none ∧ ∃ row, q'.jobs = q.jobs.put body.job_id row ∧
      row.job_kind = body.job_kind ∧ row.payload = body.payload ∧ row.state = .queued := by
  obtain ⟨-,-,-,hjobs,-⟩ := Sched.append_ok h
  obtain ⟨hnone,hput⟩ := insertRow_ok hjobs
  exact ⟨hnone,_,hput,rfl,rfl,rfl⟩

section
variable {s t : Db} {facts : List Fact}

theorem appendOne_grown {ts_ms : Nat} {fact : Fact} (h : s.appendOne ts_ms fact = .ok t) :
    Grown s t := by
  refine ⟨appendOne_dbKept h,?_,?_⟩
  · rw [Db.appendOne_facts h]
    exact prefix_append _ _
  · intro j row hrow
    cases fact with
    | ingest event =>
      obtain ⟨-,hqueue,-⟩ := Db.appendOne_ingest h
      rw [hqueue]
      exact ⟨row,hrow,rfl,rfl⟩
    | job event =>
      obtain ⟨hqueue,-⟩ := Db.appendOne_job h
      cases hq : isEnqueue event with
      | false =>
        obtain ⟨row',hrow',hkind,hpayload,-⟩ := append_settles hqueue hq hrow
        exact ⟨row',hrow',hkind,hpayload⟩
      | true =>
        by_cases hj : event.job = some j
        · rw [(Sched.append_enqueue hqueue hq hj).1] at hrow
          cases hrow
        · exact ⟨row,by rw [Sched.append_other hqueue hj]; exact hrow,rfl,rfl⟩

theorem appendBatch_grown {ts_ms : Nat} (h : s.appendBatch ts_ms facts = .ok t) : Grown s t :=
  Db.appendBatch_keeps grown_refl (fun _ _ _ => Grown.trans)
    (fun _ _ _ _ h => appendOne_grown h) h

theorem step_grown (i : IngestInput) (db : Db) (a : IngestAct) :
    Grown db (ingestMachine.step i db a).2 := by
  cases a with
  | append facts =>
    rcases Db.append_cases db i facts with ⟨db',ha,hb⟩ | ⟨e,ha⟩
    · simp only [ingestMachine,ha]
      exact appendBatch_grown hb
    · simp only [ingestMachine,ha]
      exact grown_refl db
  | _ => exact grown_refl db

end

theorem ofBeBytes_digits (w n : Nat) :
    ofBeBytes ((List.range w).map fun j => UInt8.ofNat (n/256^(w-1-j))) = n%256^w := by
  induction w generalizing n with
  | zero => simp [ofBeBytes,Nat.mod_one]
  | succ w ih =>
    have hfirst : (List.range w).map (fun j => UInt8.ofNat (n/256^(w+1-1-j))) =
        (List.range w).map fun j => UInt8.ofNat (n/256/256^(w-1-j)) := by
      refine map_congr_left fun j hj => ?_
      have hlt := mem_range.mp hj
      rw [Nat.div_div_eq_div_mul,← Nat.pow_succ',show w+1-1-j = w-1-j+1 by omega]
    rw [range_succ,map_append,hfirst,ofBeBytes,foldl_append,← ofBeBytes,ih]
    simp only [map_cons,map_nil,foldl_cons,foldl_nil,Nat.add_sub_cancel,
      Nat.sub_self,Nat.pow_zero,Nat.div_one,UInt8.toNat_ofNat']
    have hpow : 256^(w+1) = 256*256^w := Nat.pow_succ'
    rw [hpow,Nat.mod_mul]
    generalize n/256%256^w = high
    omega

theorem decodeStagePayload_encode {e : EvidenceId} {pass : Nat} (hpass : pass ≤ u32Max) :
    decodeStagePayload (encodeStagePayload e pass) = some (e,pass) := by
  have hid : idBytes e = (List.range 16).map fun j => UInt8.ofNat (e.num/256^(16-1-j)) := by
    rw [idBytes]
    refine map_congr_left fun j _ => ?_
    rw [Nat.pow_mul]
  have hbits : BitVec.ofNat 128 (ofBeBytes (idBytes e)) = e.bits := by
    rw [hid,ofBeBytes_digits]
    apply BitVec.eq_of_toNat_eq
    rw [BitVec.toNat_ofNat]
    have hlt := e.bits.isLt
    exact (Nat.mod_eq_of_lt (Nat.mod_lt _ (by decide))).trans (Nat.mod_eq_of_lt hlt)
  have hpass' : ofLeBytes (leBytes32 pass) = pass := by
    simp only [u32Max] at hpass
    simp [ofLeBytes,leBytes32,ofBeBytes,List.range,List.range.loop]
    omega
  have hlen : (encodeStagePayload e pass).length = stagePayloadBytes := by
    rw [encodeStagePayload,length_append,Sched.idBytes_length]
    rfl
  rw [decodeStagePayload,if_neg (not_not.mpr hlen),encodeStagePayload,
    take_left' (Sched.idBytes_length e),drop_left' (Sched.idBytes_length e),hbits,hpass']

section
variable (p : IngestPipeline) (project_id : ProjectId)

/-- The job row of a stage of an item. -/
structure JobFor (j : JobId) (row : JobRow) (e : EvidenceId) (stage : IngestStage) (pass : Nat) :
    Prop where
  works : stage ≠ .raw
  bound : pass ≤ u32Max
  id : j = (stageKey project_id e stage pass).jobId p.queue
  kind : row.job_kind = stage.jobKind.getD ""
  payload : row.payload = encodeStagePayload e pass

def Excused (log : List Fact) (e : EvidenceId) (stage : IngestStage) (pass : Nat) : Prop :=
  FailedIn log e ∨ Overtaken log e pass ∨ p.stages.contains stage = false

def Lost (log : List Fact) (j : JobId) (e : EvidenceId) (stage : IngestStage) (pass : Nat) : Prop :=
  ∃ n reason, .job (.dead j n reason) ∈ log ∧
    ((∃ code, reason = .retriesExhausted code) ∨ Excused p log e stage pass)

/-- A stage's job, and what the log says of its state. -/
structure Owned (db : Db) (j : JobId) (row : JobRow) (e : EvidenceId) (stage : IngestStage)
    (pass : Nat) : Prop where
  job : JobFor p project_id j row e stage pass
  logged : ∃ fact ∈ db.facts, fact.enqueues = some (stageKey project_id e stage pass)
  item : (db.tables.evidence.get? e).isSome
  known : Known db.facts e pass
  done : row.state = .done → FinishedIn db.facts e stage pass
  dead : row.state = .dead → Lost p db.facts j e stage pass

/-- The invariant of the pipeline over all its workers. -/
structure Tended (db : Db) : Prop where
  continued : Continued p project_id db
  newest : OnNewest db
  moved : ∀ e, ∀ w ∈ movedPasses e db.facts, Known db.facts e w
  asked : ∀ body, .ingest (.reprocessRequested body) ∈ db.facts →
    Standing p project_id db body.evidence_id body.from_stage body.pass
  jobs : ∀ j row, db.queue.jobs.get? j = some row →
    ∃ e stage pass, Owned p project_id db j row e stage pass

/-- What is appended to the log: batches of the pipeline, and how a worker's
attempt came out. -/
inductive WorkBatch (s : Db) : List Fact → Prop
  | pipeline (facts : List Fact) (hbatch : PipelineBatch p project_id s facts)
      (hhead : ∀ event, facts.head? ≠ some (.job event))
      (hknown : ∀ body, .ingest (.stageFinished body) ∈ facts →
        Known s.facts body.evidence_id body.pass) : WorkBatch s facts
  | settled (event : JobEvent) (j : JobId) (row : JobRow) (e : EvidenceId) (stage : IngestStage)
      (pass : Nat) (hjob : event.job = some j) (hquiet : isEnqueue event = false)
      (hrow : s.queue.jobs.get? j = some row) (hfor : JobFor p project_id j row e stage pass)
      (hdone : nextState event = some .done → FinishedIn s.facts e stage pass)
      (hdead : ∀ n reason, event = .dead j n reason →
        (∃ code, reason = .retriesExhausted code) ∨ Excused p s.facts e stage pass) :
      WorkBatch s [.job event]

end

section
variable {p : IngestPipeline} {project_id : ProjectId} {s t : Db} {j : JobId} {row row' : JobRow}
  {e e' : EvidenceId} {stage stage' : IngestStage} {pass pass' : Nat} {facts queued : List Fact}

theorem JobFor.unique (h : JobFor p project_id j row e stage pass)
    (h' : JobFor p project_id j row' e' stage' pass') (hkind : row'.job_kind = row.job_kind)
    (hpayload : row'.payload = row.payload) : e = e' ∧ stage = stage' ∧ pass = pass' := by
  have hstage := jobKind_inj h.works (h.kind.symm.trans (hkind.symm.trans h'.kind))
  have hdecode := congrArg decodeStagePayload (h.payload.symm.trans (hpayload.symm.trans h'.payload))
  rw [decodeStagePayload_encode h.bound,decodeStagePayload_encode h'.bound] at hdecode
  cases hdecode
  exact ⟨rfl,hstage,rfl⟩

theorem JobFor.same (h : JobFor p project_id j row e stage pass) (hkind : row'.job_kind = row.job_kind)
    (hpayload : row'.payload = row.payload) : JobFor p project_id j row' e stage pass :=
  ⟨h.works,h.bound,h.id,hkind.trans h.kind,hpayload.trans h.payload⟩

theorem Excused.later {log more : List Fact} (h : Excused p log e stage pass)
    (hlog : log <+: more) : Excused p more e stage pass := by
  rcases h with h | h | h
  · exact Or.inl (h.later hlog)
  · exact Or.inr (Or.inl (h.later hlog))
  · exact Or.inr (Or.inr h)

theorem Lost.later {log more : List Fact} (h : Lost p log j e stage pass) (hlog : log <+: more) :
    Lost p more j e stage pass := by
  obtain ⟨n,reason,hfact,hwhy⟩ := h
  exact ⟨n,reason,hlog.subset hfact,hwhy.imp id fun h => h.later hlog⟩

theorem Owned.later (h : Owned p project_id s j row e stage pass) (hst : Grown s t) :
    Owned p project_id t j row e stage pass := by
  obtain ⟨found,hfound⟩ := Option.isSome_iff_exists.mp h.item
  obtain ⟨found',hfound',-⟩ := hst.kept.items e found hfound
  obtain ⟨fact,hfact,hkey⟩ := h.logged
  exact ⟨h.job,⟨fact,hst.facts.subset hfact,hkey⟩,by rw [hfound']; rfl,h.known.later hst.facts,fun hs => (h.done hs).later hst.facts,
    fun hs => (h.dead hs).later hst.facts⟩

theorem empty_tended : Tended p project_id Db.empty where
  continued := empty_continued
  newest := empty_onNewest
  moved _ _ h := absurd h not_mem_nil
  asked _ h := absurd h not_mem_nil
  jobs _ _ h := by cases h

variable {ts_ms : Nat}

theorem ingest_jobs (hfacts : ∀ fact ∈ facts, ∃ event, fact = .ingest event)
    (h : s.appendBatch ts_ms facts = .ok t) : t.queue.jobs = s.queue.jobs := by
  refine (Db.appendBatch_keeps (R := fun s t => t.queue.jobs = s.queue.jobs) (fun _ => rfl)
    (fun _ _ _ h h' => h'.trans h) ?_ h)
  intro d d' fact hfact hone
  obtain ⟨event,rfl⟩ := hfacts fact hfact
  rw [(Db.appendOne_ingest hone).2.1]

theorem stageJobSpec_row {spec : Sched.JobSpec} (h : p.stageJobSpec e stage pass = .ok spec) :
    stage ≠ .raw ∧ spec.kind.name = stage.jobKind.getD "" ∧
      spec.payload = encodeStagePayload e pass := by
  rw [IngestPipeline.stageJobSpec] at h
  cases hkind : stage.jobKind with
  | none =>
    rw [hkind] at h
    cases h
  | some kind =>
    rw [hkind] at h
    dsimp only at h
    split_ifs at h with hvalid
    cases h
    refine ⟨?_,rfl,rfl⟩
    rintro rfl
    cases hkind

variable {event : IngestEvent}

theorem queued_jobs (hqueued : Queued p project_id s e stage pass queued)
    (hpass : pass ≤ u32Max) (h : s.appendBatch ts_ms (.ingest event :: queued) = .ok t)
    (hrow : t.queue.jobs.get? j = some row) :
    s.queue.jobs.get? j = some row ∨
      (JobFor p project_id j row e stage pass ∧ row.state = .queued ∧
        ∃ fact ∈ queued, fact.enqueues = some (stageKey project_id e stage pass)) := by
  obtain ⟨mid,hone,hrest⟩ := Db.appendBatch_cons h
  have hmid : mid.queue.jobs = s.queue.jobs := by rw [(Db.appendOne_ingest hone).2.1]
  have hkeys := hqueued.key
  cases hqueued with
  | standing spec hspec hvalid hthere =>
    cases hrest
    rw [hmid] at hrow
    exact Or.inl hrow
  | fresh spec hspec hvalid =>
    obtain ⟨last,hjob,hend⟩ := Db.appendBatch_cons hrest
    cases hend
    obtain ⟨-,added,hput,hkind,hpayload,hstate⟩ := append_enqueues (Db.appendOne_job hjob).1
    rw [hput,hmid] at hrow
    by_cases hj : j = deriveJobId p.queue project_id spec.kind spec.idempotency_key
    · rw [hj,Table.get?_put_self] at hrow
      cases hrow
      refine Or.inr ⟨?_,hstate,_,mem_singleton.mpr rfl,
        (hkeys _ (mem_singleton.mpr rfl)).2⟩
      have hid := congrArg (JobKey.jobId p.queue) (@stageJobSpec_key p project_id _ _ _ _ hspec)
      rw [Sched.specKey_jobId] at hid
      obtain ⟨hworks,hname,htext⟩ := stageJobSpec_row hspec
      exact ⟨hworks,hpass,hj.trans hid,hkind.trans hname,hpayload.trans htext⟩
    · rw [Table.get?_put_ne _ _ hj] at hrow
      exact Or.inl hrow

theorem handed_jobs {next : Option IngestStage}
    (hqueued : Handed p project_id s e next pass queued) (hpass : pass ≤ u32Max)
    (h : s.appendBatch ts_ms (.ingest event :: queued) = .ok t)
    (hrow : t.queue.jobs.get? j = some row) :
    s.queue.jobs.get? j = some row ∨
      ∃ stage, JobFor p project_id j row e stage pass ∧ row.state = .queued ∧
        ∃ fact ∈ queued, fact.enqueues = some (stageKey project_id e stage pass) := by
  rw [Handed] at hqueued
  cases hnext : p.registered next with
  | none =>
    rw [hnext] at hqueued
    obtain rfl : queued = [] := hqueued
    rw [ingest_jobs (by simp) h] at hrow
    exact Or.inl hrow
  | some stage =>
    rw [hnext] at hqueued
    exact (queued_jobs hqueued hpass h hrow).imp id fun hnew => ⟨stage,hnew⟩

theorem fresh_owned (h : JobFor p project_id j row e stage pass) (hstate : row.state = .queued)
    (hlogged : ∃ fact ∈ t.facts, fact.enqueues = some (stageKey project_id e stage pass))
    (hitem : (t.tables.evidence.get? e).isSome) (hknown : Known t.facts e pass) :
    Owned p project_id t j row e stage pass where
  job := h
  logged := hlogged
  item := hitem
  known := hknown
  done hs := by rw [hstate] at hs; cases hs
  dead hs := by rw [hstate] at hs; cases hs

theorem pipeline_jobs (h : Tended p project_id s) (hb : PipelineBatch p project_id s facts)
    (hhead : ∀ event, facts.head? ≠ some (.job event))
    (hknown : ∀ body, .ingest (.stageFinished body) ∈ facts →
      Known s.facts body.evidence_id body.pass) (ha : s.appendBatch ts_ms facts = .ok t) :
    ∀ j row, t.queue.jobs.get? j = some row →
      ∃ e stage pass, Owned p project_id t j row e stage pass := by
  have hst := appendBatch_grown ha
  have hfacts := Db.appendBatch_facts ha
  have hold : ∀ j row, s.queue.jobs.get? j = some row →
      ∃ e stage pass, Owned p project_id t j row e stage pass := by
    intro j row hrow
    obtain ⟨e,stage,pass,howned⟩ := h.jobs j row hrow
    exact ⟨e,stage,pass,howned.later hst⟩
  have hquiet : (∀ fact ∈ facts, ∃ event, fact = .ingest event) →
      ∀ j row, t.queue.jobs.get? j = some row →
        ∃ e stage pass, Owned p project_id t j row e stage pass := by
    intro hingest j row hrow
    rw [ingest_jobs hingest ha] at hrow
    exact hold j row hrow
  have hlogged : ∀ {head : Fact} {queued : List Fact} {key : JobKey}, facts = head :: queued →
      (∃ fact ∈ queued, fact.enqueues = some key) →
        ∃ fact ∈ t.facts, fact.enqueues = some key := by
    rintro head queued key rfl ⟨fact,hfact,hkey⟩
    exact ⟨fact,by rw [hfacts]; simp [hfact],hkey⟩
  have hthere : ∀ {e : EvidenceId}, (s.tables.evidence.get? e).isSome →
      (t.tables.evidence.get? e).isSome := by
    intro e hsome
    obtain ⟨row,hrow⟩ := Option.isSome_iff_exists.mp hsome
    obtain ⟨row',hrow',-⟩ := hst.kept.items e row hrow
    rw [hrow']
    rfl
  have hcontinued := batch_continued h.continued hb ha
  cases hb with
  | submitted body queued hid hqueued =>
    intro j row hrow
    rcases handed_jobs hqueued (Nat.zero_le _) ha hrow with hrow | ⟨stage,hjob,hstate,hkey⟩
    · exact hold j row hrow
    · obtain ⟨found,hfound,-⟩ := hcontinued.recorded.arrived body (by rw [hfacts]; simp)
      exact ⟨_,stage,0,fresh_owned hjob hstate (hlogged rfl hkey) (by rw [hfound]; rfl)
        (Or.inl rfl)⟩
  | started | failed => exact hquiet (by simp)
  | finished body found queued hpass hfound houtput hqueued =>
    intro j row hrow
    rcases handed_jobs hqueued hpass ha hrow with hrow | ⟨stage,hjob,hstate,hkey⟩
    · exact hold j row hrow
    · exact ⟨_,stage,_,fresh_owned hjob hstate (hlogged rfl hkey) (hthere (by rw [hfound]; rfl))
        ((hknown body (by simp)).later hst.facts)⟩
  | rewound body queued hpass hqueued =>
    intro j row hrow
    rcases queued_jobs hqueued hpass ha hrow with hrow | ⟨hjob,hstate,hkey⟩
    · exact hold j row hrow
    · obtain ⟨mid,hone,-⟩ := Db.appendBatch_cons ha
      have hmoves : (Fact.ingest (.reprocessRequested body)).moves body.evidence_id =
          some body.pass := by simp [Fact.moves]
      exact ⟨_,_,_,fresh_owned hjob hstate (hlogged rfl hkey)
        (hthere (appendOne_there hone (Or.inl hmoves))) (Or.inr ⟨body,by rw [hfacts]; simp,rfl,rfl⟩)⟩
  | emitted ctx facts hemits =>
    refine hquiet fun fact hfact => ?_
    cases fact with
    | job event => exact (hemits _ hfact).elim
    | ingest event => exact ⟨event,rfl⟩
  | outside batch =>
    refine hquiet fun fact hfact => ?_
    cases hcases : batch.facts with
    | nil =>
      rw [hcases] at hfact
      cases hfact
    | cons first rest =>
      cases first with
      | job event => exact absurd (by rw [hcases]; rfl) (hhead event)
      | ingest event => exact (batch.outside (.ingest event) (by rw [hcases]; simp)).elim

theorem settled_jobs {event : JobEvent} (h : Tended p project_id s) (hjob : event.job = some j)
    (hquiet : isEnqueue event = false) (hrow : s.queue.jobs.get? j = some row)
    (hfor : JobFor p project_id j row e stage pass)
    (hdone : nextState event = some .done → FinishedIn s.facts e stage pass)
    (hdead : ∀ n reason, event = .dead j n reason →
      (∃ code, reason = .retriesExhausted code) ∨ Excused p s.facts e stage pass)
    (ha : s.appendBatch ts_ms [.job event] = .ok t) :
    ∀ i found, t.queue.jobs.get? i = some found →
      ∃ e stage pass, Owned p project_id t i found e stage pass := by
  intro i found hfound
  have hst := appendBatch_grown ha
  have hfacts := Db.appendBatch_facts ha
  obtain ⟨mid,hone,hend⟩ := Db.appendBatch_cons ha
  cases hend
  obtain ⟨hqueue,-⟩ := Db.appendOne_job hone
  have hwas : ∃ old, s.queue.jobs.get? i = some old := by
    by_cases hi : event.job = some i
    · rw [hjob] at hi
      cases hi
      exact ⟨row,hrow⟩
    · rw [Sched.append_other hqueue hi] at hfound
      exact ⟨found,hfound⟩
  obtain ⟨old,hold⟩ := hwas
  obtain ⟨new,hnew,hkind,hpayload,hstate⟩ := append_settles hqueue hquiet hold
  rw [hfound] at hnew
  cases hnew
  obtain ⟨e',stage',pass',howned⟩ := h.jobs i old hold
  obtain ⟨hj,hlogged,hitem,hknown,hd,hl⟩ := howned.later hst
  rw [hjob] at hstate
  by_cases hi : j = i
  · subst hi
    rw [hrow] at hold
    cases hold
    obtain ⟨rfl,rfl,rfl⟩ := hfor.unique hj rfl rfl
    rw [if_pos rfl] at hstate
    refine ⟨e,stage,pass,hj.same hkind hpayload,hlogged,hitem,hknown,fun hs => ?_,fun hs => ?_⟩
    · rw [hstate] at hs
      cases hnext : nextState event with
      | none =>
        rw [hnext] at hs
        exact hd hs
      | some state =>
        rw [hnext] at hs
        exact (hdone (hnext.trans (congrArg some hs))).later hst.facts
    · rw [hstate] at hs
      cases event with
      | dead job_id n reason =>
        obtain rfl := Option.some.inj hjob
        exact ⟨n,reason,by rw [hfacts]; simp,(hdead n reason rfl).imp id fun h => h.later hst.facts⟩
      | attemptFailed job_id attempt_index code detail retry_at => exact hl hs
      | cronRegistered | cronEnablementSet => cases hjob
      | _ => cases hs
  · have hother : ¬some j = some i := fun heq => hi (Option.some.inj heq)
    rw [if_neg hother] at hstate
    exact ⟨e',stage',pass',hj.same hkind hpayload,hlogged,hitem,hknown,fun hs => hd (hstate ▸ hs),
      fun hs => hl (hstate ▸ hs)⟩

theorem WorkBatch.ofPipeline (h : WorkBatch p project_id s facts) :
    PipelineBatch p project_id s facts := by
  cases h with
  | pipeline _ hbatch _ _ => exact hbatch
  | settled event j row e stage pass hjob hquiet hrow hfor hdone hdead =>
    refine .outside ⟨[.job event],fun fact hfact => ?_⟩
    obtain rfl := mem_singleton.mp hfact
    refine ⟨fun he => ?_,fun key hkey => ?_⟩
    · rw [hquiet] at he
      cases he
    · cases event with
      | enqueuedV1 | enqueuedV2 => cases hquiet
      | _ => cases hkey

theorem batch_asked (hb : PipelineBatch p project_id s facts) (hst : DbKept s t)
    (ht : Recorded p.queue t) (hfacts : t.facts = s.facts ++ facts) :
    ∀ body, .ingest (.reprocessRequested body) ∈ facts →
      Standing p project_id t body.evidence_id body.from_stage body.pass := by
  intro body hbody
  have hjobs : ∀ {queued : List Fact}, (∀ fact ∈ queued, fact.enqueues ≠ none) →
      Fact.ingest (.reprocessRequested body) ∉ queued := fun hq hmem => hq _ hmem rfl
  have hhanded : ∀ {e : EvidenceId} {next : Option IngestStage} {pass : Nat} {queued : List Fact},
      Handed p project_id s e next pass queued →
        Fact.ingest (.reprocessRequested body) ∉ queued := by
    intro e next pass queued hqueued
    refine hjobs fun fact hfact => ?_
    obtain ⟨-,_,-,hkey⟩ := hqueued.key fact hfact
    rw [hkey]
    exact nofun
  cases hb with
  | submitted added queued hid hqueued | finished done row queued hpass hrow houtput hqueued =>
    exact absurd ((mem_cons.mp hbody).resolve_left nofun) (hhanded hqueued)
  | started | failed => cases mem_singleton.mp hbody
  | emitted ctx facts hemits => exact (hemits _ hbody).elim
  | outside batch => exact (batch.outside _ hbody).elim
  | rewound body' queued hpass hqueued =>
    rcases mem_cons.mp hbody with heq | hmem
    · cases heq
      refine hqueued.stands hst ht fun fact hfact => ?_
      rw [hfacts]
      exact mem_append_right _ (mem_cons_of_mem _ hfact)
    · refine absurd hmem (hjobs fun fact hfact => ?_)
      rw [(hqueued.key fact hfact).2]
      exact nofun

theorem batch_tended {x : IngestInput} (h : Tended p project_id s)
    (hb : WorkBatch p project_id s facts) (hin : InTime x s (.append facts))
    (ha : s.appendBatch x.now_ms facts = .ok t) : Tended p project_id t := by
  have hst := appendBatch_grown ha
  have hfacts := Db.appendBatch_facts ha
  have hbatch := hb.ofPipeline
  have hcontinued := batch_continued h.continued hbatch ha
  refine ⟨hcontinued,batch_onNewest h.newest hbatch hin ha,?_,?_,?_⟩
  · intro e w hw
    rw [hfacts,movedPasses,filterMap_append,mem_append] at hw
    rcases hw with hw | hw
    · exact (h.moved e w hw).later hst.facts
    · obtain ⟨fact,hfact,hmoves⟩ := mem_filterMap.mp hw
      have hin' : fact ∈ t.facts := by
        rw [hfacts]
        exact mem_append_right _ hfact
      cases fact with
      | job event => cases hmoves
      | ingest event =>
        cases event with
        | stageFinished body =>
          simp only [Fact.moves] at hmoves
          split_ifs at hmoves with he
          cases hmoves
          cases hb with
          | pipeline _ _ _ hknown => exact he ▸ (hknown body hfact).later hst.facts
          | settled => cases mem_singleton.mp hfact
        | reprocessRequested body =>
          simp only [Fact.moves] at hmoves
          split_ifs at hmoves with he
          cases hmoves
          exact Or.inr ⟨body,hin',he,rfl⟩
        | _ => cases hmoves
  · intro body hbody
    rw [hfacts] at hbody
    rcases mem_append.mp hbody with hold | hnew
    · exact (h.asked body hold).later hst.kept
    · exact batch_asked hbatch hst.kept hcontinued.recorded hfacts body hnew
  · cases hb with
    | pipeline _ hbatch hhead hknown => exact pipeline_jobs h hbatch hhead hknown ha
    | settled event j row e stage pass hjob hquiet hrow hfor hdone hdead =>
      exact settled_jobs h hjob hquiet hrow hfor hdone hdead ha

end

end ProjectOS.Ingest
