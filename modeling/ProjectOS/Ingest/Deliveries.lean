import ProjectOS.Ingest.Workers

/-! What a worker leaves behind: a stage that is finished, or a job that is
refused for a reason. -/

namespace ProjectOS.Ingest
open Lib Domain Lib.Prog List
open Sched (ClaimedJob JobFailure JobKind JobQueue failureKills isEnqueue nextState)

section
variable (p : IngestPipeline) (project_id : ProjectId)

def workDiscipline : Discipline ingestIface IngestInput Db where
  inv := Tended p project_id
  rely := Grown
  given := InTime
  may s a := ∀ facts, a = .append facts → WorkBatch p project_id s facts
  refl := grown_refl
  trans _ _ _ := Grown.trans

abbrev Worked {ε α : Type} (q : Prog ingestIface ε α) (Q : Except ε α → Db → Prop) (s : Db) :
    Prop := q.Assured ingestMachine (workDiscipline p project_id) Q s

def Unfinishing (a : IngestAct) : Prop :=
  ∀ facts, a = .append facts →
    ∃ event rest, facts = .ingest event :: rest ∧ ∀ body, event ≠ .stageFinished body

/-- Finished, or excused when it failed for good. -/
def CameOut {α : Type} (e : EvidenceId) (stage : IngestStage) (pass : Nat) :
    Except StageFailure α → Db → Prop
  | .ok _, t => FinishedIn t.facts e stage pass
  | .error failure, t => failure.permanent = true → Excused p t.facts e stage pass

variable {p project_id} {s t : Db} {e : EvidenceId} {stage : IngestStage} {pass : Nat}
  {facts : List Fact}

variable {queued : List Fact}

theorem Queued.unfinished (h : Queued p project_id s e stage pass queued)
    (body : IngestStageFinished) : .ingest (.stageFinished body) ∉ queued := by
  intro hmem
  have hkey := (h.key _ hmem).2
  cases hkey

variable {next : Option IngestStage}

theorem Handed.unfinished
    (h : Handed p project_id s e next pass queued) (body : IngestStageFinished) :
    .ingest (.stageFinished body) ∉ queued := by
  intro hmem
  obtain ⟨-,_,-,hkey⟩ := h.key _ hmem
  cases hkey

theorem pipelineBatch_unfinished {event : IngestEvent} {rest : List Fact}
    (h : PipelineBatch p project_id s facts) (hfacts : facts = .ingest event :: rest)
    (hevent : ∀ body, event ≠ .stageFinished body) (body : IngestStageFinished) :
    .ingest (.stageFinished body) ∉ facts := by
  intro hmem
  cases h with
  | submitted added queued hid hqueued | rewound request queued hpass hqueued =>
    exact hqueued.unfinished body ((mem_cons.mp hmem).resolve_left nofun)
  | started | failed => cases mem_singleton.mp hmem
  | finished done row queued hpass hrow houtput hqueued =>
    cases hfacts
    exact hevent done rfl
  | emitted ctx facts hemits => exact hemits _ hmem
  | outside batch => exact batch.outside _ hmem

theorem worked_of {ε α : Type} {q : Prog ingestIface ε α} {Q : Except ε α → Db → Prop}
    (hq : q.Within Unfinishing) (h : q.Assured ingestMachine
      (pipelineDiscipline p project_id (Tended p project_id) InTime) Q s) :
    Worked p project_id q Q s := by
  refine assured_narrow (D := pipelineDiscipline p project_id (Tended p project_id) InTime)
    ?_ (fun _ ht => ?_) (fun _ _ _ hx => ?_) ?_ hq h
  · exact fun _ _ hst => Grown.kept hst
  · exact ht
  · exact hx
  intro t a _ hmay ha facts heq
  obtain ⟨event,rest,hfacts,hevent⟩ := ha facts heq
  refine .pipeline facts (hmay facts heq) ?_ ?_
  · intro job hjob
    rw [hfacts] at hjob
    cases hjob
  · intro body hbody
    exact absurd hbody (pipelineBatch_unfinished (hmay facts heq) hfacts hevent body)

theorem act_worked {ε α : Type} {a : IngestAct} {k : ingestIface.Resp a → Prog ingestIface ε α}
    {Q : Except ε α → Db → Prop} (ha : ∀ facts, a ≠ .append facts)
    (h : ∀ t x, Grown s t → Tended p project_id t → Worked p project_id
      (k (ingestMachine.step x t a).1) Q (ingestMachine.step x t a).2) :
    Worked p project_id (.act a k) Q s :=
  fun t hst ht => ⟨fun facts heq => absurd heq (ha facts),fun x _ _ _ => h t x hst ht⟩

theorem appendBatch_worked (hlater : ∀ t, Grown s t → Tended p project_id t →
      WorkBatch p project_id t facts) : Worked p project_id (IngestPipeline.appendBatch facts)
    (fun r t => Grown s t ∧ match r with
      | .ok _ => ∀ fact ∈ facts, fact ∈ t.facts
      | .error err => err.isRetriable = true) s := by
  intro t hst ht
  refine ⟨?_,?_⟩
  · intro facts' heq
    cases heq
    exact hlater t hst ht
  · intro x _ _ hgrown
    rcases Db.append_cases t x facts with ⟨t',ha,hb⟩ | ⟨err,ha⟩
    · have hstep : ingestMachine.step x t (.append facts) = (.ok (),t') := by
        simp only [ingestMachine,ha]
      rw [hstep] at hgrown ⊢
      refine ⟨hst.trans hgrown,fun fact hfact => ?_⟩
      rw [Db.appendBatch_facts hb]
      exact mem_append_right _ hfact
    · have hstep : ingestMachine.step x t (.append facts) = (.error err,t) := by
        simp only [ingestMachine,ha]
      rw [hstep]
      exact ⟨hst,rfl⟩

variable {media : MediaKind}

theorem nextFor_works {next : IngestStage} (h : stage.nextFor media = some next) : next ≠ .raw := by
  rintro rfl
  exact Nat.not_lt_zero _ (IngestStage.rank_nextFor h)

theorem stageJob_within : (p.stageJob project_id e stage pass).Within Unfinishing := by
  refine within_bind (within_ofExcept _) fun spec => ?_
  rw [IngestPipeline.enqueueRequest]
  cases spec.validate with
  | error err => trivial
  | ok u =>
    refine ⟨by rintro _ ⟨⟩,fun r => ?_⟩
    rcases r with fault | _ | row <;> trivial

theorem stageJobRequest_within :
    (p.stageJobRequest project_id e next pass).Within Unfinishing := by
  rw [IngestPipeline.stageJobRequest]
  cases p.registered next with
  | none => trivial
  | some stage => exact within_bind stageJob_within fun _ => trivial

theorem stageJob_throws (hstage : stage ≠ .raw) :
    (p.stageJob project_id e stage pass).Throws fun err => err.isRetriable = true := by
  refine throws_bind (throws_ofExcept ?_) ?_
  · intro err herr
    rw [IngestPipeline.stageJobSpec] at herr
    cases hkind : stage.jobKind with
    | none =>
      refine absurd ?_ hstage
      cases stage <;> first | rfl | cases hkind
    | some kind =>
      rw [hkind] at herr
      dsimp only at herr
      split_ifs at herr with hvalid
      cases herr
      rfl
  · intro spec
    rw [IngestPipeline.enqueueRequest]
    cases spec.validate with
    | error err => exact rfl
    | ok u =>
      intro r
      rcases r with fault | _ | row
      · exact rfl
      · trivial
      · trivial

theorem stageJobRequest_throws :
    (p.stageJobRequest project_id e (stage.nextFor media) pass).Throws
      fun err => err.isRetriable = true := by
  rw [IngestPipeline.stageJobRequest]
  cases hnext : p.registered (stage.nextFor media) with
  | none => trivial
  | some next =>
    have hsome := (Option.filter_eq_some_iff.mp hnext).1
    exact throws_bind (stageJob_throws (nextFor_works hsome)) fun _ => trivial

theorem stageJobRequest_worked : Worked p project_id
    (p.stageJobRequest project_id e (stage.nextFor media) pass) (fun r t => Grown s t ∧
      match r with
      | .ok queued => Handed p project_id t e (stage.nextFor media) pass (queued.getD [])
      | .error err => err.isRetriable = true) s := by
  refine assured_mono ?_ (assured_rely (assured_throws stageJobRequest_throws
    (worked_of stageJobRequest_within stageJobRequest_disciplined)))
  rintro (err | queued) t ⟨⟨hqueued,herr⟩,hst⟩
  · exact ⟨hst,herr err rfl⟩
  · exact ⟨hst,hqueued⟩

variable {attempt : StageAttempt}

theorem commitFinished_worked {product : StageProduct} {wall_ms : Nat}
    (hload : Loaded attempt.evidence s) (hpass : attempt.pass ≤ u32Max)
    (houtput : reportsChunks product.output = true ↔ attempt.stage = .chunk)
    (hknown : Known s.facts attempt.evidence.evidence_id attempt.pass) :
    Worked p project_id (p.commitFinished project_id attempt product wall_ms) (fun r t =>
      match r with
      | .ok _ => FinishedIn t.facts attempt.evidence.evidence_id attempt.stage attempt.pass
      | .error err => err.isRetriable = true) s := by
  rw [IngestPipeline.commitFinished]
  refine assured_bind (assured_mono ?_ stageJobRequest_worked)
  rintro (err | queued) t ⟨hst,hqueued⟩
  · exact hqueued
  have hbatch : ∀ u, Grown t u → Tended p project_id u → WorkBatch p project_id u
      (IngestPipeline.finishedFact attempt product wall_ms :: queued.getD []) := by
    intro u htu _
    have hsu := hst.trans htu
    obtain ⟨row,hrow,hm⟩ := hload.later hsu.kept
    have hqueued' := Handed.later hqueued htu.kept
    refine .pipeline _ (.finished _ row _ hpass hrow houtput ?_) ?_ ?_
    · rw [hm]
      exact hqueued'
    · rintro _ ⟨⟩
    · intro body hbody
      rcases mem_cons.mp hbody with heq | hmem
      · cases heq
        exact hknown.later hsu.facts
      · exact absurd hmem (hqueued'.unfinished body)
  refine assured_bind (assured_mono ?_ (appendBatch_worked hbatch))
  rintro (err | u) v ⟨-,hdone⟩
  · exact hdone
  · exact ⟨_,hdone _ (mem_cons_self ..),rfl,rfl,rfl⟩

theorem commitFailed_worked (attempt : StageAttempt) (failure : StageFailure) :
    Worked p project_id (IngestPipeline.commitFailed attempt failure) (fun r t => match r with
      | .ok _ => FailedIn t.facts attempt.evidence.evidence_id
      | .error err => err.isRetriable = true) s := by
  have hbatch : ∀ t, Grown s t → Tended p project_id t →
      WorkBatch p project_id t [IngestPipeline.failedFact attempt failure] := by
    refine fun t _ _ => .pipeline _ (.failed _) nofun ?_
    intro body hbody
    cases mem_singleton.mp hbody
  refine assured_mono ?_ (appendBatch_worked hbatch)
  rintro (err | u) t ⟨-,hdone⟩
  · exact hdone
  · exact ⟨_,hdone _ (mem_singleton.mpr rfl),rfl⟩

theorem settle_worked {started_ts_ms : Nat}
    {outcome : Except StageFailure StageProduct} (hload : Loaded attempt.evidence s)
    (hpass : attempt.pass ≤ u32Max) (houtput : ∀ product, outcome = .ok product →
      (reportsChunks product.output = true ↔ attempt.stage = .chunk))
    (hknown : Known s.facts attempt.evidence.evidence_id attempt.pass) :
    Worked p project_id (p.settle project_id attempt started_ts_ms outcome)
      (CameOut p attempt.evidence.evidence_id attempt.stage attempt.pass) s := by
  cases outcome with
  | ok product =>
    refine act_worked nofun fun t x hst _ => assured_mapError (assured_mono ?_
      (commitFinished_worked (hload.later hst.kept) hpass (houtput product rfl)
        (hknown.later hst.facts)))
    rintro (err | u) v hr
    · exact fun hperm => absurd hperm (by simp [StageFailure.ofIngest,hr])
    · exact hr
  | error failure =>
    refine assured_bind (assured_mapError (assured_mono ?_
      (commitFailed_worked attempt failure)))
    rintro (err | u) v hr
    · exact fun hperm => absurd hperm (by simp [StageFailure.ofIngest,hr])
    · exact fun _ => Or.inl hr

theorem handler_worked (handler : StageHandler) (ctx : StageContext) :
    Worked p project_id (handler.run ctx) (fun r t => Grown s t ∧ ∀ product, r = .ok product →
      (reportsChunks product.output = true ↔ handler.stage = .chunk)) s := by
  refine assured_yields (handler.yields ctx) (assured_within (handler.emits ctx) ?_)
  intro t _ _ a ha facts heq
  subst heq
  refine .pipeline facts (.emitted ctx facts ha) ?_ ?_
  · intro event hhead
    exact ha _ (mem_of_head? hhead)
  · intro body hbody
    exact (ha _ hbody).elim

theorem runStageInner_worked {attempt : StageAttempt} (hload : Loaded attempt.evidence s)
    (hpass : attempt.pass ≤ u32Max)
    (hknown : Known s.facts attempt.evidence.evidence_id attempt.pass) :
    Worked p project_id (p.runStageInner project_id attempt)
      (CameOut p attempt.evidence.evidence_id attempt.stage attempt.pass) s := by
  rw [IngestPipeline.runStageInner]
  cases hget : p.stages.get attempt.stage with
  | none =>
    refine fun _ => Or.inr (Or.inr ?_)
    rw [StageRegistry.contains,hget]
    rfl
  | some handler =>
    have hstarted : ∀ t, Grown s t → Tended p project_id t →
        WorkBatch p project_id t [IngestPipeline.startedFact attempt] := by
      refine fun t _ _ => .pipeline _ (.started _) (by rintro _ ⟨⟩) ?_
      intro body hbody
      cases mem_singleton.mp hbody
    refine assured_bind (assured_mapError (assured_mono ?_
      (appendBatch_worked hstarted)))
    rintro (err | u) t ⟨hst,hr⟩
    · exact fun hperm => absurd hperm (by simp [StageFailure.ofIngest,hr])
    refine act_worked (by rintro _ ⟨⟩) fun v x htv _ => ?_
    refine assured_bind (assured_attempt (assured_mono ?_
      (handler_worked handler _)))
    rintro r w ⟨hvw,hproduct⟩
    have hsw := (hst.trans htv).trans hvw
    refine settle_worked (hload.later hsw.kept) hpass ?_ (hknown.later hsw.facts)
    intro product hok
    rw [← StageRegistry.get_stage hget]
    exact hproduct product hok

theorem stale_overtaken {db : Db} (h : Tended p project_id db) {record : EvidenceRecord}
    (hread : db.tables.readEvidence e = some record) (hknown : Known db.facts e pass)
    (hne : record.pass ≠ pass) : Overtaken db.facts e pass := by
  obtain ⟨row,hrow,rfl⟩ := Option.map_eq_some_iff.mp hread
  obtain ⟨on,hle,hon,hnewest,-⟩ := h.newest.pass e row hrow
  have hpass : (row.intoRecord e).pass = on := by
    rw [← countU32_integerU32 hle,← hon]
    rfl
  rw [hpass] at hne
  have hlt : pass < on := by
    refine lt_of_le_of_ne ?_ (Ne.symm hne)
    rcases hknown with rfl | ⟨body,hbody,hitem,rfl⟩
    · exact Nat.zero_le _
    · exact hnewest.2 _ (mem_filterMap.mpr ⟨_,hbody,by simp [Fact.moves,hitem]⟩)
  have hmoved := hnewest.1.resolve_left (by omega)
  rcases h.moved e on hmoved with hzero | ⟨body,hbody,hitem,rfl⟩
  · omega
  · exact ⟨body,hbody,hitem,hlt⟩

theorem loadForStage_worked (hitem : (s.tables.evidence.get? e).isSome)
    (hknown : Known s.facts e pass) : Worked p project_id
    (IngestPipeline.loadForStage e stage pass) (fun r t => Grown s t ∧ match r with
      | .ok record => record.evidence_id = e ∧ Loaded record t ∧ pass ≤ u32Max
      | .error err => err.isRetriable = true ∨ Overtaken t.facts e pass) s := by
  refine act_worked nofun fun t x hst ht => ?_
  have hstep : ingestMachine.step x t (.readEvidence e) =
      (x.read (t.tables.readEvidence e),t) := rfl
  rw [hstep,IngestInput.read]
  cases x.fault with
  | some fault => exact ⟨hst,Or.inl rfl⟩
  | none =>
    obtain ⟨row,hrow⟩ := Option.isSome_iff_exists.mp hitem
    obtain ⟨row',hrow',-⟩ := hst.kept.items e row hrow
    have hread : t.tables.readEvidence e = some (row'.intoRecord e) := by
      rw [EvidenceTables.readEvidence,hrow']
      rfl
    rw [hread]
    dsimp only
    split_ifs with hpass
    · exact ⟨hst,Or.inr (stale_overtaken ht hread (hknown.later hst.facts) hpass)⟩
    · refine ⟨hst,rfl,readEvidence_loaded hread,?_⟩
      rw [← not_not.mp hpass]
      exact readEvidence_pass hread

variable {job : ClaimedJob}

theorem runStage_worked (hpayload : job.payload = encodeStagePayload e pass)
    (hbound : pass ≤ u32Max) (hitem : (s.tables.evidence.get? e).isSome)
    (hknown : Known s.facts e pass) : Worked p project_id (p.runStage project_id stage job)
      (CameOut p e stage pass) s := by
  rw [IngestPipeline.runStage,hpayload,decodeStagePayload_encode hbound]
  refine assured_bind (assured_mapError (assured_mono ?_
    (loadForStage_worked hitem hknown)))
  rintro (err | record) t ⟨hst,hr⟩
  · intro hperm
    rcases hr with hr | hr
    · exact absurd hperm (by simp [StageFailure.ofIngest,hr])
    · exact Or.inr (Or.inl hr)
  · obtain ⟨rfl,hload,hpass⟩ := hr
    exact @runStageInner_worked p project_id t ⟨stage,job,record,pass⟩ hload hpass
      (hknown.later hst.facts)

theorem runJob_worked (hpayload : job.payload = encodeStagePayload e pass)
    (hbound : pass ≤ u32Max) (hitem : (s.tables.evidence.get? e).isSome)
    (hknown : Known s.facts e pass) : Worked p project_id (p.runJob project_id stage job)
      (CameOut p e stage pass) s := by
  rw [IngestPipeline.runJob]
  split_ifs with hstage
  · refine assured_bind (assured_mono ?_
      (runStage_worked hpayload hbound hitem hknown))
    rintro (failure | outcome) t hr
    · exact hr
    · exact hr
  · exact fun _ => Or.inr (Or.inr (Bool.not_eq_true _ ▸ hstage))

theorem stageOfKind_jobKind {kind : String} (h : stageOfKind kind = some stage) :
    stage.jobKind = some kind := by
  have hfound := List.find?_some h
  exact of_decide_eq_true hfound

theorem recordJob_worked {event : JobEvent} (hlater : ∀ t, Grown s t → Tended p project_id t →
      WorkBatch p project_id t [.job event]) :
    Worked p project_id (recordJob event) Prog.anyOutcome s := by
  intro t hst ht
  refine ⟨?_,fun _ _ _ _ => trivial⟩
  intro facts heq
  cases heq
  exact hlater t hst ht

theorem finishJob_worked {q : JobQueue} {draw started_ts_ms : Nat} {row : JobRow}
    (hrow : s.queue.jobs.get? job.job_id = some row)
    (hfor : JobFor p project_id job.job_id row e stage pass) {r : Except StageFailure Unit}
    (hr : CameOut p e stage pass r s) :
    Worked p project_id (finishJob q draw job started_ts_ms r) Prog.anyOutcome s := by
  have hsettled : ∀ {event : JobEvent} {t : Db}, Grown s t → event.job = some job.job_id →
      isEnqueue event = false → (nextState event = some .done → FinishedIn t.facts e stage pass) →
      (∀ n reason, event = .dead job.job_id n reason →
        (∃ code, reason = .retriesExhausted code) ∨ Excused p t.facts e stage pass) → WorkBatch p project_id t [.job event] := by
    intro event t hst hjob hquiet hdone hdead
    obtain ⟨row',hrow',hkind,hpayload⟩ := hst.jobs _ row hrow
    exact .settled event job.job_id row' e stage pass hjob hquiet hrow' (hfor.same hkind hpayload)
      hdone hdead
  cases r with
  | ok u =>
    refine act_worked nofun fun t x hst _ => recordJob_worked fun v htv _ => ?_
    exact hsettled (hst.trans htv) rfl rfl (fun _ => FinishedIn.later hr (hst.trans htv).facts)
      (fun _ _ heq => by cases heq)
  | error failure =>
    refine act_worked nofun fun t x hst _ => recordJob_worked fun v htv _ => ?_
    refine hsettled (hst.trans htv) ?_ ?_ ?_ ?_
    · rw [failedEvent]
      split_ifs <;> rfl
    · rw [failedEvent]
      split_ifs <;> rfl
    · intro hdone
      rw [failedEvent] at hdone
      split_ifs at hdone <;> cases hdone
    · intro n reason heq
      rw [failedEvent] at heq
      split_ifs at heq with hkills hperm
      · exact Or.inr (Excused.later (hr hperm) (hst.trans htv).facts)
      · cases heq
        exact Or.inl ⟨_,rfl⟩

theorem work_worked (job_id : JobId) (worker : Sched.WorkerName) (draw : Nat) :
    Worked p project_id (p.work project_id job_id worker draw) Prog.anyOutcome s := by
  refine act_worked nofun fun _ now _ _ => act_worked nofun fun t x _ ht => ?_
  have hstep : ingestMachine.step x t (.readJob job_id) =
      (x.read (t.queue.jobs.get? job_id),t) := rfl
  rw [hstep,IngestInput.read]
  cases x.fault with
  | some fault => trivial
  | none =>
    cases hrow : t.queue.jobs.get? job_id with
    | none => trivial
    | some row =>
      dsimp only
      split_ifs with hqueued
      · obtain ⟨e,stage,pass,howned⟩ := ht.jobs job_id row hrow
        cases hkind : stageOfKind row.job_kind with
        | none => trivial
        | some found =>
          obtain rfl : found = stage := by
            refine (jobKind_inj howned.job.works ?_).symm
            rw [← howned.job.kind,stageOfKind_jobKind hkind]
            rfl
          refine act_worked nofun fun u _ htu _ => ?_
          refine assured_bind (assured_attempt (assured_mono ?_
            (assured_rely (runJob_worked (howned.job.payload) howned.job.bound
              (howned.later htu).item (howned.later htu).known))))
          rintro r v ⟨hr,huv⟩
          obtain ⟨row',hrow',hkind',hpayload'⟩ := (htu.trans huv).jobs job_id row hrow
          exact finishJob_worked hrow' (howned.job.same hkind' hpayload') hr
      · trivial

theorem submit_within (submission : EvidenceSubmission)
    (stored : Except IngestError (Digest × Nat)) :
    (p.submit project_id submission stored).Within Unfinishing := by
  refine within_bind (within_ofExcept _) fun content => ⟨nofun,fun r => ?_⟩
  rcases r with fault | _ | row
  · trivial
  · refine within_bind stageJobRequest_within fun queued => ?_
    refine within_bind ⟨?_,fun r => within_ofExcept _⟩ fun _ => trivial
    intro facts heq
    cases heq
    exact ⟨_,_,rfl,nofun⟩
  · trivial

theorem reprocessOne_within (from_stage : IngestStage) (reason : String) (plan : ReprocessPlan)
    (target : EvidenceId × Nat × EvidenceStatus) :
    (p.reprocessOne project_id from_stage reason plan target).Within Unfinishing := by
  rw [IngestPipeline.reprocessOne]
  split_ifs
  · refine within_bind stageJob_within fun queued => ?_
    refine within_bind ⟨?_,fun r => within_ofExcept _⟩ fun _ => trivial
    intro facts heq
    cases heq
    exact ⟨_,_,rfl,by rintro _ ⟨⟩⟩
  · trivial

theorem reprocess_within (request : ReprocessRequest) (reason : String) :
    (p.reprocess project_id request reason).Within Unfinishing := by
  rw [IngestPipeline.reprocess]
  split_ifs
  · trivial
  · refine within_bind ?_ fun targets => within_foldlM _ _
      (fun plan target _ => reprocessOne_within request.from_stage reason plan target) _
    rw [IngestPipeline.reprocessTargets]
    cases request.evidence_id with
    | some e =>
      refine ⟨by rintro _ ⟨⟩,fun r => ?_⟩
      rcases r with fault | _ | record <;> trivial
    | none =>
      refine ⟨by rintro _ ⟨⟩,fun r => ?_⟩
      rcases r with fault | records <;> trivial

theorem workOp_worked (op : WorkOp) (s : Db) :
    Worked p project_id (op.code p project_id) Prog.anyOutcome s := by
  cases op with
  | submit submission stored =>
    refine assured_bind (assured_mapError (assured_mono ?_ (worked_of
      (submit_within submission stored) (submit_disciplined submission stored))))
    rintro (err | outcome) t _ <;> trivial
  | reprocess request reason =>
    refine assured_bind (assured_mapError (assured_mono ?_ (worked_of
      (reprocess_within request reason) (reprocess_disciplined request reason))))
    rintro (err | plan) t _ <;> trivial
  | work job_id worker draw => exact work_worked job_id worker draw

theorem works_tended {ts : List WorkTurn}
    (h : Pool.Along ingestMachine (WorkOp.code p project_id) InTime Works.idle ts) :
    Tended p project_id (Works.after p project_id ts) := by
  have hupheld : Pool.Upheld ingestMachine (workDiscipline p project_id) := by
    intro x s a hs hmay hgiven
    refine ⟨?_,step_grown x s a⟩
    cases a with
    | append facts =>
      rcases Db.append_cases s x facts with ⟨t,ha,hb⟩ | ⟨err,ha⟩
      · simp only [ingestMachine,ha]
        exact batch_tended hs (hmay facts rfl) hgiven hb
      · simp only [ingestMachine,ha]
        exact hs
    | _ => exact hs
  exact (Pool.turns_sound hupheld (fun op s _ => workOp_worked op s)
    (Pool.fresh_sound empty_tended) h).1.inv

end

end ProjectOS.Ingest
