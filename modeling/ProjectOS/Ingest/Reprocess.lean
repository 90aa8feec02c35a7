import ProjectOS.Lib.Paths
import ProjectOS.Ingest.Workers

/-! Which items a reprocess takes back. -/

namespace ProjectOS.Ingest
open Lib Domain List Lib.Prog
open Sched (JobSpec deriveJobId enqueuedEvent)

def targetsOf (db : Db) (request : ReprocessRequest) : List (EvidenceId × Nat × EvidenceStatus) :=
  match request.evidence_id with
  | some evidence_id =>
    ((db.tables.readEvidence evidence_id).map fun r => (r.evidence_id,r.pass,r.status)).toList
  | none => (db.tables.listEvidence request.item_count_max).map fun r =>
    (r.evidence_id,r.pass,r.status)

def planOne (from_stage : IngestStage) (plan : ReprocessPlan)
    (target : EvidenceId × Nat × EvidenceStatus) : ReprocessPlan :=
  if reached target.2.2 from_stage then
    { plan with requeued := plan.requeued ++ [(target.1,satAdd32 target.2.1 1)] }
  else { plan with skipped_not_reached := plan.skipped_not_reached+1 }

def requeuedBy (report : Except IngestError ReprocessPlan) : List EvidenceId :=
  match report with
  | .ok plan => plan.requeued.map Prod.fst
  | .error _ => []

variable (i : IngestInput)

theorem IngestInput.read_cases {α : Type} (a : α) :
    i.read a = .ok a ∨ ∃ fault, i.read a = .error fault := by
  rw [IngestInput.read]
  cases i.fault with
  | some fault => exact Or.inr ⟨fault,rfl⟩
  | none => exact Or.inl rfl

theorem readEvidence_step (db : Db) (e : EvidenceId) :
    ingestMachine.step i db (.readEvidence e) = (i.read (db.tables.readEvidence e),db) := rfl

theorem listEvidence_step (db : Db) (row_count_max : Nat) :
    ingestMachine.step i db (.listEvidence row_count_max) =
      (i.read (db.tables.listEvidence row_count_max),db) := rfl

theorem readJob_step (db : Db) (j : JobId) :
    ingestMachine.step i db (.readJob j) = (i.read (db.queue.jobs.get? j),db) := rfl

theorem append_step (db : Db) (facts : List Fact) :
    ingestMachine.step i db (.append facts) = db.append i facts := rfl

section
variable (p : IngestPipeline) (project_id : ProjectId)

def queuedFor (db : Db) (spec : JobSpec) : List Fact :=
  let job_id := deriveJobId p.queue project_id spec.kind spec.idempotency_key
  if (db.queue.jobs.get? job_id).isSome then [] else [.job (enqueuedEvent job_id project_id spec)]

variable (from_stage : IngestStage) (reason : String)

/-- What a reprocess appends for an item: that it was taken back, and the job of its
stage, unless the project has that job already. -/
def Requeued (s t : Db) (item : EvidenceId × Nat) : Prop :=
  ∃ spec, p.stageJobSpec item.1 from_stage item.2 = .ok spec ∧
    t.facts = s.facts ++ .ingest (.reprocessRequested
      { evidence_id := item.1, from_stage := from_stage, pass := item.2, reason := reason }) ::
        queuedFor p project_id s spec

inductive RequeuedAll : Db → List (EvidenceId × Nat) → Db → Prop
  | done (s : Db) : RequeuedAll s [] s
  | item {s t u : Db} {item : EvidenceId × Nat} {items : List (EvidenceId × Nat)}
      (h : Requeued p project_id from_stage reason s t item) (hrest : RequeuedAll t items u) :
      RequeuedAll s (item :: items) u

end

section
variable {p : IngestPipeline} {project_id : ProjectId} {request : ReprocessRequest}
  {reason : String} {env : Nat → IngestInput} {n : Nat} {db : Db}

theorem reprocessTargets_run {targets : List (EvidenceId × Nat × EvidenceStatus)} {m : Nat}
    {s : Db} (h : (IngestPipeline.reprocessTargets request).run ingestMachine env n db =
      (.ok targets,m,s)) : targets = targetsOf db request ∧ s = db := by
  rw [IngestPipeline.reprocessTargets] at h
  rw [targetsOf]
  cases hid : request.evidence_id with
  | some e =>
    rw [hid] at h
    obtain hread | ⟨fault,hread⟩ := (env n).read_cases (db.tables.readEvidence e)
    · rw [run_act,readEvidence_step,hread] at h
      cases hitem : db.tables.readEvidence e with
      | none =>
        rw [hitem] at h
        cases h
      | some record =>
        rw [hitem] at h
        cases h
        exact ⟨by simp [hitem],rfl⟩
    · rw [run_act,readEvidence_step,hread] at h
      cases h
  | none =>
    rw [hid] at h
    obtain hread | ⟨fault,hread⟩ := (env n).read_cases (db.tables.listEvidence request.item_count_max)
    · rw [run_act,listEvidence_step,hread] at h
      cases h
      exact ⟨rfl,rfl⟩
    · rw [run_act,listEvidence_step,hread] at h
      cases h

theorem reprocessOne_yields (from_stage : IngestStage) (plan : ReprocessPlan)
    (target : EvidenceId × Nat × EvidenceStatus) :
    (p.reprocessOne project_id from_stage reason plan target).Yields
      fun q => q = planOne from_stage plan target := by
  rw [IngestPipeline.reprocessOne,planOne]
  split_ifs
  · refine yields_bind (yields_any _) fun queued _ => ?_
    exact yields_bind (yields_any _) fun _ _ => rfl
  · rfl

theorem reprocess_report {plan : ReprocessPlan}
    (h : ((p.reprocess project_id request reason).run ingestMachine env n db).1 = .ok plan) :
    request.from_stage ≠ .raw ∧ plan = (targetsOf db request).foldl (planOne request.from_stage)
      ⟨[],0,request.item_count_max⟩ := by
  rw [IngestPipeline.reprocess] at h
  split_ifs at h with hraw
  · cases h
  · refine ⟨hraw,?_⟩
    obtain ⟨targets,m,s,hrun,hfold⟩ := Prog.run_bind_ok (Prod.ext h rfl)
    obtain ⟨rfl,rfl⟩ := reprocessTargets_run hrun
    exact yields_run (yields_foldlM _ (reprocessOne_yields request.from_stage) _) _ _ _ _
      (congrArg Prod.fst hfold)

theorem appendBatch_run {facts : List Fact} {m : Nat} {t : Db}
    (h : (IngestPipeline.appendBatch facts).run ingestMachine env n db = (.ok (),m,t)) :
    t.facts = db.facts ++ facts := by
  rw [IngestPipeline.appendBatch,run_act,append_step] at h
  obtain ⟨db',hdb,hbatch⟩ | ⟨err,hdb⟩ := Db.append_cases db (env n) facts
  · rw [hdb] at h
    cases h
    exact Db.appendBatch_facts hbatch
  · rw [hdb] at h
    cases h

theorem stageJob_run {e : EvidenceId} {stage : IngestStage} {pass : Nat} {queued : List Fact}
    {m : Nat} {t : Db}
    (h : (p.stageJob project_id e stage pass).run ingestMachine env n db = (.ok queued,m,t)) :
    t = db ∧ ∃ spec, p.stageJobSpec e stage pass = .ok spec ∧
      queued = queuedFor p project_id db spec := by
  rw [IngestPipeline.stageJob] at h
  cases hspec : p.stageJobSpec e stage pass with
  | error err =>
    rw [hspec] at h
    cases h
  | ok spec =>
    rw [hspec,ofExcept_ok,ret_bind,IngestPipeline.enqueueRequest] at h
    cases hvalid : spec.validate with
    | error err =>
      rw [hvalid] at h
      cases h
    | ok u =>
      rw [hvalid] at h
      obtain hread | ⟨fault,hread⟩ := (env n).read_cases
        (db.queue.jobs.get? (deriveJobId p.queue project_id spec.kind spec.idempotency_key))
      · simp only [run_act,readJob_step,hread] at h
        cases hrow : db.queue.jobs.get?
            (deriveJobId p.queue project_id spec.kind spec.idempotency_key) with
        | none | some row =>
          rw [hrow] at h
          cases h
          exact ⟨rfl,spec,rfl,by simp [queuedFor,hrow]⟩
      · simp only [run_act,readJob_step,hread] at h
        cases h

theorem reprocessOne_run {from_stage : IngestStage} {plan plan' : ReprocessPlan}
    {target : EvidenceId × Nat × EvidenceStatus} {m : Nat} {t : Db}
    (h : (p.reprocessOne project_id from_stage reason plan target).run ingestMachine env n db =
      (.ok plan',m,t)) :
    plan'.requeued = plan.requeued ∧ t = db ∨ ∃ item, plan'.requeued = plan.requeued ++ [item] ∧
      Requeued p project_id from_stage reason db t item := by
  rw [IngestPipeline.reprocessOne] at h
  split_ifs at h
  · obtain ⟨queued,k,s,hjob,hrest⟩ := run_bind_ok h
    obtain ⟨rfl,spec,hspec,rfl⟩ := stageJob_run hjob
    obtain ⟨done,l,u,happend,hret⟩ := run_bind_ok hrest
    cases hret
    exact Or.inr ⟨_,rfl,spec,hspec,appendBatch_run happend⟩
  · cases h
    exact Or.inl ⟨rfl,rfl⟩

theorem foldlM_reprocessOne {from_stage : IngestStage} {plan plan' : ReprocessPlan}
    {targets : List (EvidenceId × Nat × EvidenceStatus)} {m : Nat} {t : Db}
    (h : (targets.foldlM (p.reprocessOne project_id from_stage reason) plan).run ingestMachine env n
      db = (.ok plan',m,t)) :
    ∃ items, plan'.requeued = plan.requeued ++ items ∧
      RequeuedAll p project_id from_stage reason db items t := by
  induction targets generalizing plan n db with
  | nil =>
    cases h
    exact ⟨[],(append_nil _).symm,.done _⟩
  | cons target targets ih =>
    rw [foldlM_cons] at h
    obtain ⟨next,k,s,hone,hrest⟩ := run_bind_ok h
    obtain ⟨items,hitems,hall⟩ := ih hrest
    obtain ⟨hsame,rfl⟩ | ⟨item,hadds,hitem⟩ := reprocessOne_run hone
    · exact ⟨items,by rw [hitems,hsame],hall⟩
    · refine ⟨item :: items,?_,.item hitem hall⟩
      rw [hitems,hadds,append_assoc,singleton_append]

/-- The items a reprocess lists are those it appended for, one behind another. -/
theorem reprocess_appends {plan : ReprocessPlan} {m : Nat} {t : Db}
    (h : (p.reprocess project_id request reason).run ingestMachine env n db = (.ok plan,m,t)) :
    RequeuedAll p project_id request.from_stage reason db plan.requeued t := by
  rw [IngestPipeline.reprocess] at h
  split_ifs at h
  · cases h
  · obtain ⟨targets,k,s,htargets,hfold⟩ := run_bind_ok h
    obtain ⟨-,rfl⟩ := reprocessTargets_run htargets
    obtain ⟨items,hitems,hall⟩ := foldlM_reprocessOne hfold
    rw [hitems]
    exact hall

theorem ok_of_toOption {ε α : Type} {x : Except ε α} {a : α} (h : x.toOption = some a) :
    x = .ok a := by
  cases x with
  | ok b =>
    cases h
    rfl
  | error e => cases h

theorem reprocess_raw (h : request.from_stage = .raw) :
    ((p.reprocess project_id request reason).run ingestMachine env n db).1 =
      .error (.stageNotReprocessable .raw) := by
  rw [IngestPipeline.reprocess,if_pos h]
  rfl

end

theorem foldl_planOne (from_stage : IngestStage)
    (targets : List (EvidenceId × Nat × EvidenceStatus)) (plan : ReprocessPlan) :
    targets.foldl (planOne from_stage) plan =
      { plan with
        requeued := plan.requeued ++ (targets.filter fun t => reached t.2.2 from_stage).map
          fun t => (t.1,satAdd32 t.2.1 1)
        skipped_not_reached := plan.skipped_not_reached +
          targets.countP fun t => !reached t.2.2 from_stage } := by
  induction targets generalizing plan with
  | nil => simp
  | cons t targets ih =>
    rw [foldl_cons,ih,planOne]
    cases hreached : reached t.2.2 from_stage with
    | true => simp [hreached]
    | false =>
      simp only [hreached,Bool.false_eq_true,if_false,filter_cons_of_neg,not_false_eq_true,
        countP_cons,Bool.not_false,if_true]
      congr 1
      omega

variable {request : ReprocessRequest}

variable {project_id : ProjectId} {reason : String} {env : Nat → IngestInput} {db : Db}
    {plan : ReprocessPlan}

variable {p : IngestPipeline} {n : Nat}

theorem requeuedBy_report
    (h : ((p.reprocess project_id request reason).run ingestMachine env n db).1 = .ok plan) :
    plan.requeued.map Prod.fst =
      ((targetsOf db request).filter fun t => reached t.2.2 request.from_stage).map Prod.fst := by
  rw [(reprocess_report h).2,foldl_planOne,nil_append,map_map]
  rfl

theorem targetsOf_row {t : EvidenceId × Nat × EvidenceStatus} (h : t ∈ targetsOf db request) :
    ∃ row, db.tables.evidence.get? t.1 = some row ∧ t.2.2 = row.status := by
  rw [targetsOf] at h
  cases hid : request.evidence_id with
  | some e =>
    simp only [hid,EvidenceTables.readEvidence,Option.map_map,Option.mem_toList,
      Option.map_eq_some_iff] at h
    obtain ⟨row,hrow,rfl⟩ := h
    exact ⟨row,hrow,rfl⟩
  | none =>
    simp only [hid,EvidenceTables.listEvidence,map_map,mem_map] at h
    obtain ⟨⟨e,row⟩,hmem,rfl⟩ := h
    have hrow := (mem_insertionSort _).mp (mem_of_mem_take hmem)
    exact ⟨row,db.tables.evidence.mem_rows.mp hrow,rfl⟩

variable {e : EvidenceId}

theorem mem_requeuedBy
    (h : ((p.reprocess project_id request reason).run ingestMachine env n db).1 = .ok plan)
    {row : EvidenceRow} (hrow : db.tables.evidence.get? e = some row)
    (htarget : e ∈ (targetsOf db request).map Prod.fst) :
    e ∈ plan.requeued.map Prod.fst ↔ reached row.status request.from_stage = true := by
  rw [requeuedBy_report h]
  have hstatus : ∀ t ∈ targetsOf db request, t.1 = e → t.2.2 = row.status := by
    rintro t ht rfl
    obtain ⟨found,hfound,hsame⟩ := targetsOf_row ht
    rw [hrow,Option.some.injEq] at hfound
    rw [hsame,hfound]
  constructor
  · intro hmem
    obtain ⟨t,ht,rfl⟩ := mem_map.mp hmem
    rw [mem_filter] at ht
    rw [← hstatus t ht.1 rfl]
    exact ht.2
  · intro hreached
    obtain ⟨t,ht,rfl⟩ := mem_map.mp htarget
    refine mem_map_of_mem (mem_filter.mpr ⟨ht,?_⟩)
    rw [hstatus t ht rfl]
    exact hreached

def completes (e : EvidenceId) : Fact → Option IngestStage
  | .ingest (.stageFinished body) => if body.evidence_id = e then some body.stage else none
  | _ => none

def lastCompleted (log : List Fact) (e : EvidenceId) : IngestStage :=
  (log.filterMap (completes e)).getLast?.getD .raw

theorem lastCompleted_append (log : List Fact) (fact : Fact) (e : EvidenceId) :
    lastCompleted (log ++ [fact]) e = (completes e fact).getD (lastCompleted log e) := by
  rw [lastCompleted,filterMap_append]
  cases hfact : completes e fact with
  | none => simp [hfact,lastCompleted]
  | some stage => simp [hfact]

/-- The status of an item is that of the last stage the log completes, or failed. -/
structure StatusTold (db : Db) : Prop where
  row : ∀ e row, db.tables.evidence.get? e = some row →
    row.status = .failed ∨ row.status = .after (lastCompleted db.facts e)
  absent : ∀ e, db.tables.evidence.get? e = none → lastCompleted db.facts e = .raw

theorem empty_statusTold : StatusTold Db.empty where
  row e row h := by cases h
  absent e h := rfl

theorem outputAssignments_status (output : IngestStageOutput) (pass : Nat) (row : EvidenceRow) :
    (outputAssignments output pass row).status = row.status := by cases output <;> rfl

theorem evidenceUpdate_status {seq : Nat} {event : IngestEvent} {f : EvidenceRow → EvidenceRow}
    (h : evidenceUpdate seq event = some (e,f)) :
    (∀ j ≠ e, completes j (.ingest event) = none) ∧ ∀ row,
      (f row).status = .failed ∨ (f row).status =
        ((completes e (.ingest event)).map EvidenceStatus.after).getD row.status := by
  cases event with
  | stageFinished body =>
    cases h
    refine ⟨fun j hj => if_neg (Ne.symm hj),fun row => Or.inr ?_⟩
    rw [outputAssignments_status,completes,if_pos rfl]
    rfl
  | stageFailed body =>
    rw [evidenceUpdate] at h
    split_ifs at h
    cases h
    exact ⟨fun _ _ => rfl,fun _ => Or.inl rfl⟩
  | reprocessRequested body =>
    cases h
    exact ⟨fun _ _ => rfl,fun _ => Or.inr rfl⟩
  | _ => cases h

theorem appendOne_statusTold {db' : Db} {ts_ms : Nat} {fact : Fact} (h : StatusTold db)
    (ha : db.appendOne ts_ms fact = .ok db') : StatusTold db' := by
  have hfacts := Db.appendOne_facts ha
  have hlast : ∀ e, lastCompleted db'.facts e =
      (completes e fact).getD (lastCompleted db.facts e) := by
    intro e
    rw [hfacts,lastCompleted_append]
  cases fact with
  | job event =>
    have htables := (Db.appendOne_job ha).2.1
    constructor
    · intro e row hrow
      rw [hlast]
      exact h.row e row (htables ▸ hrow)
    · intro e hnone
      rw [hlast]
      exact h.absent e (htables ▸ hnone)
  | ingest event =>
    obtain ⟨body,rfl,hnone,ht⟩ | ⟨k,f,found,hf,hfound,ht⟩ | ⟨hf,hnot,ht⟩ :=
      applyEvidence_cases (EvidenceTables.apply_ok (Db.appendOne_ingest ha).1).1
    · -- a new item: nothing of it was completed before
      constructor
      · intro e row hrow
        rw [hlast]
        rw [ht,Table.get?_put] at hrow
        split at hrow
        next he =>
          subst he
          cases hrow
          exact Or.inr (congrArg EvidenceStatus.after (h.absent _ hnone).symm)
        next he => exact h.row e row hrow
      · intro e habsent
        rw [hlast]
        rw [ht,Table.get?_put] at habsent
        split at habsent
        · cases habsent
        next he => exact h.absent e habsent
    · obtain ⟨hothers,hstatus⟩ := evidenceUpdate_status hf
      constructor
      · intro e row hrow
        rw [hlast]
        rw [ht,Table.get?_put] at hrow
        split at hrow
        next he =>
          subst he
          cases hrow
          obtain hfailed | hsame := hstatus found
          · exact Or.inl hfailed
          · rw [hsame]
            cases hcompletes : completes e (.ingest event) with
            | some stage => exact Or.inr rfl
            | none => exact h.row e found hfound
        next he =>
          rw [hothers e he]
          exact h.row e row hrow
      · intro e habsent
        rw [hlast]
        rw [ht,Table.get?_put] at habsent
        split at habsent
        · cases habsent
        next he =>
          rw [hothers e he]
          exact h.absent e habsent
    · have hnone : ∀ e, completes e (.ingest event) = none := by
        intro e
        cases event with
        | stageFinished body => cases hf
        | _ => rfl
      constructor
      · intro e row hrow
        rw [hlast,hnone]
        exact h.row e row (ht ▸ hrow)
      · intro e habsent
        rw [hlast,hnone]
        exact h.absent e (ht ▸ habsent)

theorem after_statusTold (p : IngestPipeline) (project_id : ProjectId) (ts : List (PipelineTurn p)) :
    StatusTold (Pipelines.idle.after project_id ts).store := by
  refine pipeline_keeps (fun x s facts t hs _ (_ : True) ha => ?_)
    (Pool.along_of_free fun _ _ _ => trivial) empty_statusTold
  let R (a b : Db) : Prop := StatusTold a → StatusTold b
  have hkeeps : R s t := Db.appendBatch_keeps (fun _ h => h)
    (fun _ _ _ hab hbc h => hbc (hab h)) (fun _ _ _ _ hone h => appendOne_statusTold h hone) ha
  exact hkeeps hs

def Precedes (media : MediaKind) (before stage : IngestStage) : Prop :=
  before.appliesTo media = true ∧ before.nextFor media = some stage

instance (media : MediaKind) (before stage : IngestStage) : Decidable (Precedes media before stage) :=
  inferInstanceAs (Decidable (_ ∧ _))

/-- Where a stage's rank is not its place in the plan: TRANSCRIBE of an item past
RAW that skips it, and CHUNK of one at NORMALIZED. -/
def OutOfPlan (media : MediaKind) (status : EvidenceStatus) (from_stage : IngestStage) : Prop :=
  IngestStage.transcribe.appliesTo media = false ∧
    (from_stage = .transcribe ∧ status ≠ .raw ∨ from_stage = .chunk ∧ status = .normalized)

theorem reached_after (completed from_stage : IngestStage) :
    reached (.after completed) from_stage = true ↔ from_stage.rank ≤ completed.rank+1 := by
  cases completed <;> cases from_stage <;> decide

variable {media : MediaKind} {stage : IngestStage}

theorem precedes_rank {before : IngestStage} (h : Precedes media before stage) :
    stage.rank = before.rank+1 ∨
      before = .normalize ∧ stage = .chunk ∧ IngestStage.transcribe.appliesTo media = false := by
  revert h
  cases media <;> cases before <;> cases stage <;> decide

theorem exists_precedes (hraw : stage ≠ .raw) (hplan : stage.appliesTo media = true) :
    ∃ before, Precedes media before stage := by
  cases stage with
  | raw => exact absurd rfl hraw
  | normalize => exact ⟨.raw,by cases media <;> decide⟩
  | transcribe => exact ⟨.normalize,rfl,by revert hplan; cases media <;> decide⟩
  | chunk =>
    cases hskip : IngestStage.transcribe.appliesTo media with
    | true => exact ⟨.transcribe,hskip,by cases media <;> decide⟩
    | false => exact ⟨.normalize,rfl,by revert hskip; cases media <;> decide⟩
  | embed => exact ⟨.chunk,by cases media <;> decide⟩
  | extract => exact ⟨.embed,by cases media <;> decide⟩
  | index => exact ⟨.extract,by cases media <;> decide⟩

theorem appliesTo_of_ne (h : stage ≠ .transcribe) : stage.appliesTo media = true := by
  cases stage with
  | transcribe => exact absurd rfl h
  | _ => rfl

theorem reached_iff_precedes {completed from_stage : IngestStage} (hraw : from_stage ≠ .raw)
    (h : ¬OutOfPlan media (.after completed) from_stage) :
    reached (.after completed) from_stage = true ↔
      ∃ before, Precedes media before from_stage ∧ before.rank ≤ completed.rank := by
  rw [reached_after]
  constructor
  · intro hle
    have hplan : from_stage.appliesTo media = true := by
      by_contra hskip
      rw [Bool.not_eq_true] at hskip
      by_cases hstage : from_stage = .transcribe
      · subst hstage
        have hstill : EvidenceStatus.after completed = .raw := by
          by_contra hpast
          exact h ⟨hskip,Or.inl ⟨rfl,hpast⟩⟩
        revert hle hstill
        cases completed <;> decide
      · rw [appliesTo_of_ne hstage] at hskip
        cases hskip
    obtain ⟨before,hbefore⟩ := exists_precedes hraw hplan
    refine ⟨before,hbefore,?_⟩
    obtain hrank | ⟨rfl,rfl,-⟩ := precedes_rank hbefore
    · omega
    · have hchunk : IngestStage.chunk.rank = 3 := by decide
      have hnormalize : IngestStage.normalize.rank = 1 := by decide
      omega
  · rintro ⟨before,hbefore,hle⟩
    obtain hrank | ⟨rfl,rfl,hskip⟩ := precedes_rank hbefore
    · omega
    · have hpast : EvidenceStatus.after completed ≠ .normalized := fun hstatus =>
        h ⟨hskip,Or.inr ⟨rfl,hstatus⟩⟩
      revert hle hpast
      cases completed <;> decide

/-- A reprocess takes an item back that has failed, or that has come past the
stage its plan has before the target. -/
theorem reprocess_requeues (p : IngestPipeline) (project_id : ProjectId)
    (ts : List (PipelineTurn p)) (request : ReprocessRequest) (reason : String)
    (env : Nat → IngestInput) (n : Nat) (e : EvidenceId) (row : EvidenceRow) :
    let db := (Pipelines.idle.after project_id ts).store
    let report := ((p.reprocess project_id request reason).run ingestMachine env n db).1
    db.tables.evidence.get? e = some row → e ∈ (targetsOf db request).map Prod.fst →
    (request.from_stage = .raw ∨ ∃ plan, report = .ok plan) →
    ¬OutOfPlan row.media_kind row.status request.from_stage →
    (e ∈ requeuedBy report ↔ request.from_stage ≠ .raw ∧ (row.status = .failed ∨
      ∃ before, Precedes row.media_kind before request.from_stage ∧
        before.rank ≤ (lastCompleted db.facts e).rank)) := by
  intro db report hrow htarget hreport hplan
  obtain hraw | ⟨plan,hplanned⟩ := hreport
  · have hrefused : report = .error (.stageNotReprocessable .raw) := reprocess_raw hraw
    rw [hrefused]
    simp [requeuedBy,hraw]
  · have hraw := (reprocess_report hplanned).1
    rw [hplanned,requeuedBy,mem_requeuedBy hplanned hrow htarget]
    obtain hfailed | hstatus := (after_statusTold p project_id ts).row e row hrow
    · simp [hfailed,reached,hraw]
    · rw [hstatus] at hplan
      rw [hstatus,reached_iff_precedes hraw hplan]
      have halive : EvidenceStatus.after (lastCompleted db.facts e) ≠ .failed := by
        cases lastCompleted db.facts e <;> decide
      constructor
      · exact fun h => ⟨hraw,Or.inr h⟩
      · rintro ⟨-,hfailed | h⟩
        · exact absurd hfailed halive
        · exact h

def noteChunkedOnce : List (PipelineTurn notePipeline) :=
  noteSubmitted ++ turnsOf 1 (noteNormalizing 0) 6 ++ turnsOf 2 (noteChunking 0) 7

theorem note_requeued :
    let db := (Pipelines.idle.after ⟨0⟩ noteChunkedOnce).store
    let report := ((notePipeline.reprocess ⟨0⟩ ⟨some noteId,.embed,1⟩ "again").run ingestMachine
      (fun _ => {}) 0 db).1
    ∃ row, db.tables.evidence.get? noteId = some row ∧ row.status = .chunked ∧
      (noteId ∈ requeuedBy report ↔ IngestStage.embed ≠ .raw ∧ (row.status = .failed ∨
        ∃ before, Precedes row.media_kind before .embed ∧
          before.rank ≤ (lastCompleted db.facts noteId).rank)) := by
  have hrun : ((Pipelines.idle.after ⟨0⟩ noteChunkedOnce).store.tables.evidence.get?
        noteId).map EvidenceRow.status = some .chunked ∧
      (((notePipeline.reprocess ⟨0⟩ ⟨some noteId,.embed,1⟩ "again").run ingestMachine
        (fun _ => {}) 0 (Pipelines.idle.after ⟨0⟩ noteChunkedOnce).store).1).toOption =
          some ⟨[(noteId,1)],0,1⟩ ∧
      noteId ∈ (targetsOf (Pipelines.idle.after ⟨0⟩ noteChunkedOnce).store
        ⟨some noteId,.embed,1⟩).map Prod.fst := by decide +kernel
  obtain ⟨hstatus,hreport,htarget⟩ := hrun
  obtain ⟨row,hrow,hchunked⟩ := Option.map_eq_some_iff.mp hstatus
  have hplan : ¬OutOfPlan row.media_kind row.status .embed := by
    rintro ⟨-,⟨h,-⟩ | ⟨h,-⟩⟩ <;> cases h
  exact ⟨row,hrow,hchunked,reprocess_requeues notePipeline ⟨0⟩ noteChunkedOnce
    ⟨some noteId,.embed,1⟩ "again" (fun _ => {}) 0 noteId row hrow htarget
    (Or.inr ⟨_,ok_of_toOption hreport⟩) hplan⟩

def noteDead : List (PipelineTurn notePipeline) :=
  noteSubmitted ++ turnsOf 1 (noteNormalizing 0) 6 ++
    turnsOf 2 (.deliver .chunk (noteJob ⟨12⟩ noteChunkKind 0 4)) 3 ++
    [.act 2 { fault := some "disk full" },.act 2 {}]

theorem FinishedIn.completes {log : List Fact} {pass : Nat} (h : FinishedIn log e stage pass) :
    stage ∈ log.filterMap (completes e) := by
  obtain ⟨body,hbody,hitem,rfl,-⟩ := h
  exact mem_filterMap.mpr ⟨_,hbody,if_pos hitem⟩

/-- An item that died in CHUNK is taken back to INDEX, and EXTRACT was never done. -/
theorem dead_note_requeued :
    let db := (Pipelines.idle.after ⟨0⟩ noteDead).store
    let report := ((notePipeline.reprocess ⟨0⟩ ⟨some noteId,.index,1⟩ "again").run ingestMachine
      (fun _ => {}) 0 db).1
    ¬(noteId ∈ requeuedBy report ↔
      ∃ before, Precedes .plainText before .index ∧
        ∃ pass, FinishedIn db.facts noteId before pass) := by
  intro db report h
  have hrun : noteId ∈ requeuedBy report ∧
      db.facts.filterMap (completes noteId) = [.normalize] := by decide +kernel
  obtain ⟨hrequeued,hcompleted⟩ := hrun
  obtain ⟨before,hbefore,pass,hfinished⟩ := h.mp hrequeued
  have hmem := hfinished.completes
  rw [hcompleted,mem_singleton] at hmem
  subst hmem
  revert hbefore
  decide

end ProjectOS.Ingest
