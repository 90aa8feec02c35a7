import ProjectOS.Lib.Amid
import ProjectOS.Ingest.Pipeline

/-! What is ever appended to a project's log: the batches of the pipeline, and
those of others on the same queue. -/

namespace ProjectOS.Ingest
open Lib Domain Lib.Prog
open Sched (ClaimedJob JobKey JobSpec JobQueue deriveJobId enqueuedEvent
  eventKey specKey)

def stageKey (project_id : ProjectId) (evidence_id : EvidenceId) (stage : IngestStage)
    (pass : Nat) : JobKey :=
  ⟨project_id,stage.jobKind.getD "",stageIdempotencyKey evidence_id stage pass⟩

def stageKinds : List String := IngestStage.all.filterMap IngestStage.jobKind

/-- A job event of no stage. -/
def Outside (q : JobQueue) : Fact → Prop
  | .ingest _ => False
  | .job event => Sched.LawfulFact q event ∧ ∀ key, eventKey event = some key → key.job_kind ∉ stageKinds

def Fact.Quiet : Fact → Prop
  | .job _
  | .ingest (.evidenceTranscribed _)
  | .ingest (.evidenceChunked _)
  | .ingest (.evidenceEmbedded _) => True
  | _ => False

structure OutsideBatch (q : JobQueue) where
  facts : List Fact
  outside : ∀ fact ∈ facts, Outside q fact

section
variable (p : IngestPipeline) (project_id : ProjectId)

/-- The enqueue of a stage for an item under a pass: one fact, or none where
the job stands already. -/
inductive Queued (s : Db) (evidence_id : EvidenceId) (stage : IngestStage) (pass : Nat) :
    List Fact → Prop
  | fresh (spec : JobSpec) (hspec : p.stageJobSpec evidence_id stage pass = .ok spec)
      (hvalid : spec.validate = .ok ()) :
      Queued s evidence_id stage pass
        [.job (enqueuedEvent (deriveJobId p.queue project_id spec.kind spec.idempotency_key)
          project_id spec)]
  | standing (spec : JobSpec) (hspec : p.stageJobSpec evidence_id stage pass = .ok spec)
      (hvalid : spec.validate = .ok ()) (hrow : (s.queue.jobs.get?
        (deriveJobId p.queue project_id spec.kind spec.idempotency_key)).isSome) :
      Queued s evidence_id stage pass []

def Handed (s : Db) (evidence_id : EvidenceId) (next : Option IngestStage) (pass : Nat)
    (facts : List Fact) : Prop :=
  match p.registered next with
  | none => facts = []
  | some stage => Queued p project_id s evidence_id stage pass facts

/-- The batches the pipeline appends, one for each of its operations. -/
inductive PipelineBatch (s : Db) : List Fact → Prop
  | submitted (body : EvidenceAdded) (queued : List Fact)
      (hid : body.evidence_id =
        deriveEvidenceId p.queue.blake3 body.source_id body.external.external_id)
      (hqueued : Handed p project_id s body.evidence_id (IngestStage.raw.nextFor body.media_kind) 0
        queued) :
      PipelineBatch s (.ingest (.evidenceAdded body) :: queued)
  | started (body : IngestStageStarted) : PipelineBatch s [.ingest (.stageStarted body)]
  | finished (body : IngestStageFinished) (row : EvidenceRow) (queued : List Fact)
      (hpass : body.pass ≤ u32Max)
      (hrow : s.tables.evidence.get? body.evidence_id = some row)
      (houtput : reportsChunks body.output = true ↔ body.stage = .chunk)
      (hqueued : Handed p project_id s body.evidence_id (body.stage.nextFor row.media_kind)
        body.pass queued) :
      PipelineBatch s (.ingest (.stageFinished body) :: queued)
  | failed (body : IngestStageFailed) : PipelineBatch s [.ingest (.stageFailed body)]
  | rewound (body : EvidenceReprocessRequested) (queued : List Fact) (hpass : body.pass ≤ u32Max)
      (hqueued : Queued p project_id s body.evidence_id body.from_stage body.pass queued) :
      PipelineBatch s (.ingest (.reprocessRequested body) :: queued)
  | emitted (ctx : StageContext) (facts : List Fact) (hfacts : ∀ fact ∈ facts, ctx.Emits fact) :
      PipelineBatch s facts
  | outside (batch : OutsideBatch p.queue) : PipelineBatch s batch.facts

/-- Jobs and items stay, and an item keeps its media kind. -/
structure DbKept (s t : Db) : Prop where
  jobs : ∀ j, (s.queue.jobs.get? j).isSome → (t.queue.jobs.get? j).isSome
  items : ∀ e row, s.tables.evidence.get? e = some row →
    ∃ row', t.tables.evidence.get? e = some row' ∧ row'.media_kind = row.media_kind

theorem dbKept_refl (s : Db) : DbKept s s := ⟨fun _ h => h,fun _ row h => ⟨row,h,rfl⟩⟩

theorem DbKept.trans {s t u : Db} (h : DbKept s t) (h' : DbKept t u) : DbKept s u := by
  refine ⟨fun j hj => h'.jobs j (h.jobs j hj),?_⟩
  intro e row hrow
  obtain ⟨row',hrow',hm⟩ := h.items e row hrow
  obtain ⟨row'',hrow'',hm'⟩ := h'.items e row' hrow'
  exact ⟨row'',hrow'',hm'.trans hm⟩

variable {p project_id} {s t : Db} {evidence_id : EvidenceId} {stage : IngestStage}
  {next : Option IngestStage} {pass : Nat} {facts : List Fact}

theorem Queued.later (h : Queued p project_id s evidence_id stage pass facts) (hst : DbKept s t) :
    Queued p project_id t evidence_id stage pass facts := by
  cases h with
  | fresh spec hspec hvalid => exact .fresh spec hspec hvalid
  | standing spec hspec hvalid hrow => exact .standing spec hspec hvalid (hst.jobs _ hrow)

theorem Handed.later (h : Handed p project_id s evidence_id next pass facts) (hst : DbKept s t) :
    Handed p project_id t evidence_id next pass facts := by
  rw [Handed] at h ⊢
  cases hn : p.registered next with
  | none =>
    rw [hn] at h
    exact h
  | some stage =>
    rw [hn] at h
    exact Queued.later h hst

theorem Queued.quiet (h : Queued p project_id s evidence_id stage pass facts) :
    ∀ fact ∈ facts, fact.Quiet := by
  cases h with
  | fresh spec _ _ =>
    intro fact hfact
    obtain rfl := List.mem_singleton.mp hfact
    trivial
  | standing _ _ _ _ => exact fun _ hfact => absurd hfact List.not_mem_nil

theorem Handed.quiet (h : Handed p project_id s evidence_id next pass facts) :
    ∀ fact ∈ facts, fact.Quiet := by
  rw [Handed] at h
  cases hn : p.registered next with
  | none =>
    rw [hn] at h
    rw [h]
    exact fun _ hfact => absurd hfact List.not_mem_nil
  | some stage =>
    rw [hn] at h
    exact Queued.quiet h

variable {fact : Fact}

theorem StageContext.Emits.quiet {ctx : StageContext} (h : ctx.Emits fact) :
    fact.Quiet := by
  cases fact with
  | job _ => trivial
  | ingest event => cases event <;> trivial

theorem Outside.quiet {q : Sched.JobQueue} (h : Outside q fact) : fact.Quiet := by
  cases fact with
  | job _ => trivial
  | ingest _ => exact h.elim

theorem stageJobSpec_key {spec : JobSpec} (h : p.stageJobSpec evidence_id stage pass = .ok spec) :
    specKey project_id spec = stageKey project_id evidence_id stage pass := by
  rw [IngestPipeline.stageJobSpec] at h
  cases hk : stage.jobKind with
  | none =>
    rw [hk] at h
    cases h
  | some kind =>
    rw [hk] at h
    simp only [] at h
    split_ifs at h with hvalid
    cases h
    simp [specKey,stageKey,hk]

variable {ts_ms : Nat}

theorem appendJob_keeps {q q' : Sched.Db} {event : JobEvent}
    (h : q.append ts_ms event = .ok q') (j : JobId) (hj : (q.jobs.get? j).isSome) :
    (q'.jobs.get? j).isSome := by
  by_cases he : event.job = some j
  · cases hen : Sched.isEnqueue event with
    | true =>
      obtain ⟨hnone,-,-⟩ := Sched.append_enqueue h hen he
      rw [hnone] at hj
      cases hj
    | false =>
      obtain ⟨row,-,hst,-⟩ := Sched.append_update h hen he
      exact Sched.isSome_of_stateOf hst
  · rw [Sched.append_other h he]
    exact hj

theorem applyEvidence_kept {items items' : Table EvidenceId EvidenceRow} {seq : Nat}
    {event : IngestEvent} (h : applyEvidence items seq event = .ok items') {e : EvidenceId}
    {row : EvidenceRow} (hrow : items.get? e = some row) :
    ∃ row', items'.get? e = some row' ∧ row'.media_kind = row.media_kind := by
  rcases applyEvidence_cases h with ⟨body,-,hnone,rfl⟩ | ⟨k,f,old,hf,hold,rfl⟩ | ⟨-,-,rfl⟩
  · have hk : e ≠ body.evidence_id := by
      rintro rfl
      rw [hrow] at hnone
      cases hnone
    exact ⟨row,by rw [Table.get?_put_ne _ _ hk]; exact hrow,rfl⟩
  · by_cases hk : e = k
    · subst hk
      rw [hrow] at hold
      cases hold
      exact ⟨f row,Table.get?_put_self _ _ _,evidenceUpdate_media hf row⟩
    · exact ⟨row,by rw [Table.get?_put_ne _ _ hk]; exact hrow,rfl⟩
  · exact ⟨row,hrow,rfl⟩

theorem appendOne_dbKept (h : s.appendOne ts_ms fact = .ok t) :
    DbKept s t := by
  cases fact with
  | job event =>
    obtain ⟨hq,htables,-⟩ := Db.appendOne_job h
    refine ⟨fun j => appendJob_keeps hq j,?_⟩
    intro e row hrow
    rw [htables]
    exact ⟨row,hrow,rfl⟩
  | ingest event =>
    obtain ⟨htables,hq,-⟩ := Db.appendOne_ingest h
    refine ⟨?_,?_⟩
    · intro j hj
      rw [hq]
      exact hj
    · intro e row hrow
      exact applyEvidence_kept (EvidenceTables.apply_ok htables).1 hrow

theorem appendBatch_dbKept (h : s.appendBatch ts_ms facts = .ok t) : DbKept s t :=
  Db.appendBatch_keeps dbKept_refl (fun _ _ _ => DbKept.trans)
    (fun _ _ _ _ h => appendOne_dbKept h) h

theorem step_dbKept (i : IngestInput) (db : Db) (a : IngestAct) :
    DbKept db (ingestMachine.step i db a).2 := by
  cases a with
  | append facts =>
    rcases Db.append_cases db i facts with ⟨db',ha,hb⟩ | ⟨e,ha⟩
    · simp only [ingestMachine,ha]
      exact appendBatch_dbKept hb
    · simp only [ingestMachine,ha]
      exact dbKept_refl db
  | _ => exact dbKept_refl db

end

section
variable (p : IngestPipeline) (project_id : ProjectId) (I : Db → Prop)
  (given : IngestInput → Db → IngestAct → Prop)

def pipelineDiscipline : Discipline ingestIface IngestInput Db where
  inv := I
  rely := DbKept
  given := given
  may s a := ∀ facts, a = .append facts → PipelineBatch p project_id s facts
  refl := dbKept_refl
  trans _ _ _ := DbKept.trans

abbrev Disciplined {ε α : Type} (q : Prog ingestIface ε α) (Q : α → Db → Prop) (s : Db) : Prop :=
  q.Assured ingestMachine (pipelineDiscipline p project_id I given) (Prog.returning Q) s

variable {p project_id I given} {s : Db} {evidence_id : EvidenceId} {stage : IngestStage}
  {next : Option IngestStage} {pass : Nat} {facts : List Fact}

theorem act_disciplined {ε α : Type} {a : IngestAct} {k : ingestIface.Resp a → Prog ingestIface ε α}
    {Q : α → Db → Prop} (ha : ∀ facts, a ≠ .append facts) (h : ∀ t x, DbKept s t →
      Disciplined p project_id I given (k (ingestMachine.step x t a).1) Q
        (ingestMachine.step x t a).2) : Disciplined p project_id I given (.act a k) Q s :=
  fun t hst _ => ⟨fun facts heq => absurd heq (ha facts),fun x _ _ _ => h t x hst⟩

theorem appendBatch_disciplined (hlater : ∀ t, DbKept s t → PipelineBatch p project_id t facts) :
    Disciplined p project_id I given (IngestPipeline.appendBatch facts) (fun _ _ => True) s := by
  intro t hst _
  refine ⟨?_,?_⟩
  · intro facts' heq
    cases heq
    exact hlater t hst
  · intro x _ _ _
    cases (ingestMachine.step x t (.append facts)).1 with
    | ok | error => trivial

theorem stageJob_disciplined : Disciplined p project_id I given
    (p.stageJob project_id evidence_id stage pass)
    (fun facts t => Queued p project_id t evidence_id stage pass facts) s := by
  rw [IngestPipeline.stageJob]
  cases hspec : p.stageJobSpec evidence_id stage pass with
  | error e => trivial
  | ok spec =>
    rw [ofExcept_ok,ret_bind,IngestPipeline.enqueueRequest]
    cases hvalid : spec.validate with
    | error e => trivial
    | ok u =>
      refine act_disciplined (by simp) ?_
      intro t x _
      have hstep : ∀ j, ingestMachine.step x t (.readJob j) = (x.read (t.queue.jobs.get? j),t) :=
        fun _ => rfl
      rw [hstep,IngestInput.read]
      cases x.fault with
      | some fault => trivial
      | none =>
        cases hrow : t.queue.jobs.get?
            (deriveJobId p.queue project_id spec.kind spec.idempotency_key) with
        | none => exact .fresh spec hspec hvalid
        | some row => exact .standing spec hspec hvalid (by rw [hrow]; rfl)

theorem stageJobRequest_disciplined : Disciplined p project_id I given
    (p.stageJobRequest project_id evidence_id next pass)
    (fun queued t => Handed p project_id t evidence_id next pass (queued.getD [])) s := by
  rw [IngestPipeline.stageJobRequest]
  cases hn : p.registered next with
  | none =>
    change Handed p project_id s evidence_id next pass []
    rw [Handed,hn]
  | some stage =>
    refine assured_then stageJob_disciplined ?_
    intro facts t hfacts
    change Handed p project_id t evidence_id next pass facts
    rw [Handed,hn]
    exact hfacts

def Loaded (record : EvidenceRecord) (s : Db) : Prop :=
  ∃ row, s.tables.evidence.get? record.evidence_id = some row ∧ row.media_kind = record.media_kind

variable {record : EvidenceRecord}

theorem Loaded.later {t : Db} (h : Loaded record s) (hst : DbKept s t) : Loaded record t := by
  obtain ⟨row,hrow,hm⟩ := h
  obtain ⟨row',hrow',hm'⟩ := hst.items _ _ hrow
  exact ⟨row',hrow',hm'.trans hm⟩

theorem readEvidence_loaded (h : s.tables.readEvidence evidence_id = some record) :
    Loaded record s := by
  obtain ⟨row,hrow,rfl⟩ := Option.map_eq_some_iff.mp h
  exact ⟨row,hrow,rfl⟩

theorem readEvidence_pass (h : s.tables.readEvidence evidence_id = some record) :
    record.pass ≤ u32Max := by
  obtain ⟨row,-,rfl⟩ := Option.map_eq_some_iff.mp h
  exact countU32_le _

theorem submit_disciplined (submission : EvidenceSubmission)
    (stored : Except IngestError (Digest × Nat)) : Disciplined p project_id I given
    (p.submit project_id submission stored) (fun _ _ => True) s := by
  rw [IngestPipeline.submit]
  cases stored with
  | error e => trivial
  | ok content =>
    obtain ⟨hash,byte_size⟩ := content
    refine act_disciplined (by simp) ?_
    intro t x _
    have hstep : ∀ e, ingestMachine.step x t (.readEvidence e) =
        (x.read (t.tables.readEvidence e),t) := fun _ => rfl
    rw [hstep,IngestInput.read]
    cases x.fault with
    | some fault => trivial
    | none =>
      dsimp only
      split
      · trivial
      · trivial
      · refine assured_then stageJobRequest_disciplined ?_
        intro queued u hqueued
        refine assured_then (appendBatch_disciplined ?_) ?_
        · exact fun v huv => .submitted _ _ rfl (hqueued.later huv)
        · exact fun _ _ _ => trivial

variable {attempt : StageAttempt}

theorem commitFinished_disciplined {product : StageProduct} {wall_ms : Nat}
    (hload : Loaded attempt.evidence s) (hpass : attempt.pass ≤ u32Max)
    (houtput : reportsChunks product.output = true ↔ attempt.stage = .chunk) :
    Disciplined p project_id I given (p.commitFinished project_id attempt product wall_ms)
      (fun _ _ => True) s := by
  rw [IngestPipeline.commitFinished]
  refine assured_then (assured_rely_returning stageJobRequest_disciplined) ?_
  intro queued t ht
  have hbatch : ∀ u, DbKept t u → PipelineBatch p project_id u
      (IngestPipeline.finishedFact attempt product wall_ms :: queued.getD []) := by
    intro u htu
    obtain ⟨row,hrow,hm⟩ := hload.later (ht.2.trans htu)
    refine .finished _ row _ hpass hrow houtput ?_
    rw [hm]
    exact ht.1.later htu
  refine assured_then (appendBatch_disciplined hbatch) ?_
  exact fun _ _ _ => trivial

theorem commitFailed_disciplined (attempt : StageAttempt) (failure : StageFailure) :
    Disciplined p project_id I given (IngestPipeline.commitFailed attempt failure)
      (fun _ _ => True) s :=
  appendBatch_disciplined (fun _ _ => .failed _)

theorem settle_disciplined {started_ts_ms : Nat} {outcome : Except StageFailure StageProduct}
    (hload : Loaded attempt.evidence s) (hpass : attempt.pass ≤ u32Max)
    (houtput : ∀ product, outcome = .ok product →
      (reportsChunks product.output = true ↔ attempt.stage = .chunk)) :
    Disciplined p project_id I given (p.settle project_id attempt started_ts_ms outcome)
      (fun _ _ => True) s := by
  cases outcome with
  | ok product =>
    refine act_disciplined (by simp) ?_
    intro t x hst
    exact assured_renamed
      (commitFinished_disciplined (hload.later hst) hpass (houtput product rfl))
  | error failure =>
    refine assured_then (assured_renamed (commitFailed_disciplined attempt failure)) ?_
    exact fun _ _ _ => trivial

theorem handler_disciplined (handler : StageHandler) (ctx : StageContext) :
    (handler.run ctx).Assured ingestMachine (pipelineDiscipline p project_id I given)
      (fun r t => DbKept s t ∧ ∀ product, r = .ok product →
        (reportsChunks product.output = true ↔ handler.stage = .chunk)) s := by
  refine assured_yields (handler.yields ctx) (assured_within (handler.emits ctx) ?_)
  intro t _ _ a ha facts heq
  subst heq
  exact .emitted ctx facts ha

theorem runStageInner_disciplined (hload : Loaded attempt.evidence s)
    (hpass : attempt.pass ≤ u32Max) :
    Disciplined p project_id I given (p.runStageInner project_id attempt) (fun _ _ => True) s := by
  rw [IngestPipeline.runStageInner]
  cases hget : p.stages.get attempt.stage with
  | none => trivial
  | some handler =>
    refine assured_then (assured_rely_returning (assured_renamed
      (appendBatch_disciplined (fun _ _ => .started _)))) ?_
    intro _ t hst
    refine act_disciplined (by simp) ?_
    intro u x htu
    refine assured_bind (assured_attempt (assured_mono ?_
      (handler_disciplined handler _)))
    intro r v hr
    have hload' := hload.later ((hst.2.trans htu).trans hr.1)
    refine settle_disciplined hload' hpass ?_
    intro product hproduct
    rw [← StageRegistry.get_stage hget]
    exact hr.2 product hproduct

theorem loadForStage_disciplined : Disciplined p project_id I given
    (IngestPipeline.loadForStage evidence_id stage pass)
    (fun record t => Loaded record t ∧ pass ≤ u32Max) s := by
  rw [IngestPipeline.loadForStage]
  refine act_disciplined (by simp) ?_
  intro t x _
  have hstep : ingestMachine.step x t (.readEvidence evidence_id) =
      (x.read (t.tables.readEvidence evidence_id),t) := rfl
  rw [hstep,IngestInput.read]
  cases x.fault with
  | some fault => trivial
  | none =>
    cases hread : t.tables.readEvidence evidence_id with
    | none => trivial
    | some record =>
      dsimp only
      split_ifs with hpass
      · trivial
      · refine ⟨readEvidence_loaded hread,?_⟩
        rw [← not_not.mp hpass]
        exact readEvidence_pass hread

theorem runStage_disciplined (job : ClaimedJob) : Disciplined p project_id I given
    (p.runStage project_id stage job) (fun _ _ => True) s := by
  rw [IngestPipeline.runStage]
  cases decodeStagePayload job.payload with
  | none => trivial
  | some target =>
    refine assured_then (assured_renamed loadForStage_disciplined) ?_
    exact fun record t hload => runStageInner_disciplined hload.1 hload.2

theorem reprocessOne_disciplined (from_stage : IngestStage) (reason : String) (plan : ReprocessPlan)
    (target : EvidenceId × Nat × EvidenceStatus) : Disciplined p project_id I given
    (p.reprocessOne project_id from_stage reason plan target) (fun _ _ => True) s := by
  rw [IngestPipeline.reprocessOne]
  split_ifs
  · refine assured_then stageJob_disciplined ?_
    intro queued t hqueued
    refine assured_then (appendBatch_disciplined ?_) ?_
    · exact fun u htu => .rewound _ _ (satAdd32_le _ _) (hqueued.later htu)
    · exact fun _ _ _ => trivial
  · trivial

theorem reprocess_disciplined (request : ReprocessRequest) (reason : String) :
    Disciplined p project_id I given (p.reprocess project_id request reason)
      (fun _ _ => True) s := by
  have htargets : Disciplined p project_id I given (IngestPipeline.reprocessTargets request)
      (fun _ _ => True) s := by
    rw [IngestPipeline.reprocessTargets]
    cases request.evidence_id with
    | some e =>
      refine act_disciplined (by simp) ?_
      intro t x _
      cases (ingestMachine.step x t (.readEvidence e)).1 with
      | error fault => trivial
      | ok found => cases found <;> trivial
    | none =>
      refine act_disciplined (by simp) ?_
      intro t x _
      cases (ingestMachine.step x t (.listEvidence request.item_count_max)).1 <;> trivial
  rw [IngestPipeline.reprocess]
  split_ifs
  · trivial
  · refine assured_then htargets ?_
    intro targets t _
    exact @assured_loop _ _ _ _ _ _ _ _ (fun _ _ _ => True) _
      (fun _ target plan u _ => reprocessOne_disciplined _ _ plan target) targets [] _ _ trivial

end

/-- Submissions, deliveries of stage jobs, reprocess calls, and what others append.
-/
inductive PipelineOp (q : JobQueue) where
  | submit (submission : EvidenceSubmission) (stored : Except IngestError (Digest × Nat))
  | deliver (stage : IngestStage) (job : ClaimedJob)
  | reprocess (request : ReprocessRequest) (reason : String)
  | outside (batch : OutsideBatch q)

def PipelineOp.code (p : IngestPipeline) (project_id : ProjectId) :
    PipelineOp p.queue → IngestProg Unit
  | .submit submission stored =>
    ((p.submit project_id submission stored).mapError .ofIngest).bind fun _ => .ret ()
  | .deliver stage job => (p.runStage project_id stage job).bind fun _ => .ret ()
  | .reprocess request reason =>
    ((p.reprocess project_id request reason).mapError .ofIngest).bind fun _ => .ret ()
  | .outside batch => (IngestPipeline.appendBatch batch.facts).mapError .ofIngest

abbrev Pipelines (p : IngestPipeline) :=
  Pool ingestIface (PipelineOp p.queue) StageFailure Unit Db

abbrev PipelineTurn (p : IngestPipeline) := Turn (PipelineOp p.queue) IngestInput

def Pipelines.idle {p : IngestPipeline} : Pipelines p := Pool.fresh Db.empty

section
variable {p : IngestPipeline} {project_id : ProjectId} {I : Db → Prop}
  {given : IngestInput → Db → IngestAct → Prop}

def Pipelines.after (project_id : ProjectId) (c : Pipelines p) (ts : List (PipelineTurn p)) :
    Pipelines p := c.turns ingestMachine (PipelineOp.code p project_id) ts

theorem code_disciplined (op : PipelineOp p.queue) (s : Db) :
    (op.code p project_id).Assured ingestMachine (pipelineDiscipline p project_id I given)
      Prog.anyOutcome s := by
  suffices h : Disciplined p project_id I given (op.code p project_id) (fun _ _ => True) s from
    assured_mono (fun _ _ _ => trivial) h
  cases op with
  | submit submission stored =>
    exact assured_then (assured_renamed (submit_disciplined submission stored))
      (fun _ _ _ => trivial)
  | deliver stage job => exact assured_then (runStage_disciplined job) (fun _ _ _ => trivial)
  | reprocess request reason =>
    exact assured_then (assured_renamed (reprocess_disciplined request reason))
      (fun _ _ _ => trivial)
  | outside batch =>
    exact assured_renamed (appendBatch_disciplined (fun _ _ => .outside batch))

theorem pipeline_keeps (hbatch : ∀ x s facts t, I s → PipelineBatch p project_id s facts →
      given x s (.append facts) → s.appendBatch x.now_ms facts = .ok t → I t)
    {ts : List (PipelineTurn p)}
    (hts : Pool.Along ingestMachine (PipelineOp.code p project_id) given Pipelines.idle ts)
    (hempty : I Db.empty) : I (Pipelines.idle.after project_id ts).store := by
  have hupheld : Pool.Upheld ingestMachine (pipelineDiscipline p project_id I given) := by
    intro x s a hs hmay hgiven
    refine ⟨?_,step_dbKept x s a⟩
    cases a with
    | append facts =>
      rcases Db.append_cases s x facts with ⟨t,ha,hb⟩ | ⟨e,ha⟩
      · simp only [ingestMachine,ha]
        exact hbatch x s facts t hs (hmay facts rfl) hgiven hb
      · simp only [ingestMachine,ha]
        exact hs
    | _ => exact hs
  exact (Pool.turns_sound hupheld (fun op s _ => code_disciplined op s)
    (Pool.fresh_sound hempty) hts).1.inv

end
def noteId : EvidenceId := ⟨0xda288a44c355630eed99439a2da573d0#128⟩

def noteSource : SourceId := ⟨0x77ba6b0c549224b4ed622fea5ed7500f#128⟩

def noteDigests : List (Bytes × Digest) :=
  [(Sched.utf8Bytes "projectos/source-id/v1" ++ framed "upload" ++ framed "notes",
      0x77ba6b0c549224b4ed622fea5ed7500fe47d3ed9158336af4b9fa125d22483b0#256),
    (evidenceIdInput noteSource "note.txt",
      0xda288a44c355630eed99439a2da573d038c72828f3c14995593bf3dc970160ce#256),
    ((stageKey ⟨0⟩ noteId .normalize 0).input,
      0xd150b200f38ae1aa0c8468a8c3596415923c32d10a30396272a4483bc908f0b4#256),
    ((stageKey ⟨0⟩ noteId .normalize 1).input,
      0xc44718e3c94927f022cde1542b2f7aac421a444915c4684df9da2f697383dfcb#256),
    ((stageKey ⟨0⟩ noteId .chunk 0).input,
      0xa6843b63a4dba94566fd79d7b0bad1cfff0e32539160dbf62b61ae61a01a21dc#256),
    ((stageKey ⟨0⟩ noteId .chunk 1).input,
      0x144f0bd927896edd50092320b3e026adad6f83fd6f875c9181aa32d891bff3ff#256),
    ((stageKey ⟨0⟩ noteId .chunk 2).input,
      0xdab6dfecc425f65e0aef605d81782b9ed5611cd0806b596d26c628fa0d17bb0e#256)]

def noteBlake3 (bytes : Bytes) : Digest :=
  ((noteDigests.find? fun d => d.1 = bytes).map Prod.snd).getD 0

def noteChunk (ordinal : Nat) (chunk_id : ChunkId) (content_hash : Digest) : ChunkFact where
  chunk_id := chunk_id
  ordinal := ordinal
  kind := .documentSection
  byte_start := 6*ordinal
  byte_end := 6*ordinal+5
  locator := .lineRange (ordinal+1) (ordinal+1)
  content_hash := content_hash
  token_count_estimate := 2

def noteAlpha : ChunkFact := noteChunk 0 ⟨0x25cb0ac4ca0974c8f18c32f4eadfcea1#128⟩
  0x644a9bc57c6063e2ba4028fa73ed585170ae7db8ac7723d32be49c021a0225f5#256

def noteBravo : ChunkFact := noteChunk 1 ⟨0xa2c1b2f3d4d56a0cc8cbe7a2e4ea2337#128⟩
  0x056f1e7edb1921e7246dba8bb329bd44d639c13673c5bcd60af67c06011a4c00#256

def noteNormalize : StageHandler where
  stage := .normalize
  run _ := .ret ⟨.normalized .document 2 11 3 2 .clean,11,2⟩
  emits _ := trivial
  yields _ := by simp [Prog.Yields,reportsChunks]

def noteChunker : StageHandler where
  stage := .chunk
  run ctx := ((ctx.emitChunks 0 [noteAlpha]).bind fun _ =>
    ctx.emitChunks 1 [noteBravo]).mapError .ofIngest |>.bind fun _ => .ret ⟨.chunked 2,11,2⟩
  emits ctx := within_bind (within_mapError (within_bind
    (emitChunks_within ctx 0 _) fun _ => emitChunks_within ctx 1 _)) fun _ => trivial
  yields _ := yields_bind (yields_any _) fun _ _ => by simp [Prog.Yields,reportsChunks]

def notePipeline : IngestPipeline where
  queue :=
    { backoff := ⟨1000,2,60000⟩, lease_ttl_ms := 30000, blake3 := noteBlake3,
      schedule := fun _ _ => .error ⟨"expr","no schedule"⟩ }
  stage_retry_count_max := stageRetryCountMax
  stages := (StageRegistry.new.with_ noteNormalize).with_ noteChunker

def noteSubmission : EvidenceSubmission where
  source_kind := "upload"
  source_scope := "notes"
  external := ⟨"note.txt",none,none⟩
  media_kind := .plainText
  shape := .document
  occurred_ts_ms := 0
  author := none
  title := none
  thread_ref := none

def noteWorker : Sched.WorkerName := ⟨"worker",by decide⟩

def noteJob (job_id : JobId) (kind : Sched.JobKind) (pass attempt_index : Nat) : ClaimedJob where
  job_id := job_id
  project_id := ⟨0⟩
  kind := kind
  payload := encodeStagePayload noteId pass
  attempt_index := attempt_index
  retry_count_max := stageRetryCountMax
  enqueued_seq := 2
  worker := noteWorker
  claimed_ts_ms := 0
  claim_latency_ms := 0

def turnsOf (slot : Nat) (op : PipelineOp notePipeline.queue) (count : Nat) :
    List (PipelineTurn notePipeline) :=
  .start slot op :: List.replicate count (.act slot {})

def noteSubmitted : List (PipelineTurn notePipeline) :=
  turnsOf 0 (.submit noteSubmission (.ok (1,11))) 3

def noteNormalizing (pass : Nat) : PipelineOp notePipeline.queue :=
  .deliver .normalize (noteJob ⟨11⟩ ⟨"ingest.normalize",by decide⟩ pass 1)

def noteChunkKind : Sched.JobKind := ⟨"ingest.chunk",by decide⟩

def noteChunking (pass : Nat) : PipelineOp notePipeline.queue :=
  .deliver .chunk (noteJob ⟨12⟩ noteChunkKind pass 1)

def noteRewound (from_stage : IngestStage) : PipelineOp notePipeline.queue :=
  .reprocess ⟨some noteId,from_stage,1⟩ "again"

end ProjectOS.Ingest
