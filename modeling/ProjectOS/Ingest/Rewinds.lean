import ProjectOS.Ingest.Deliveries

/-! What becomes of a reprocess request once no job of its item is left: its
stages are done, unless a later request that does not lead to them came between. -/

namespace ProjectOS.Ingest
open Lib Domain List
open Sched (Collisionless JobKey isEnqueue loggedKeys specKey specKey_inj)

/-- The stages of an item's plan from here on, as far as the build has them. -/
inductive IngestPipeline.Follows (p : IngestPipeline) (media : MediaKind) (from_stage : IngestStage) :
    IngestStage → Prop
  | here (h : p.stages.contains from_stage = true) : Follows p media from_stage from_stage
  | next {stage next : IngestStage} (h : Follows p media from_stage stage)
      (hnext : p.registered (stage.nextFor media) = some next) : Follows p media from_stage next

def StageJobOf (e : EvidenceId) (row : JobRow) : Prop :=
  (stageOfKind row.job_kind).isSome = true ∧
    (decodeStagePayload row.payload).map Prod.fst = some e

instance (e : EvidenceId) (row : JobRow) : Decidable (StageJobOf e row) :=
  inferInstanceAs (Decidable (_ ∧ _))

def Fact.fails (e : EvidenceId) : Fact → Bool
  | .ingest (.stageFailed body) => body.evidence_id = e
  | _ => false

def Fact.exhausts (job_id : JobId) : Fact → Bool
  | .job (.dead dead _ (.retriesExhausted _)) => dead = job_id
  | _ => false

/-- No stage job of the item is left, none ran out of retries, no handler failed. A
leased job is a queued one. -/
structure AtRest (db : Db) (e : EvidenceId) : Prop where
  unfailed : ∀ fact ∈ db.facts, fact.fails e = false
  idle : ∀ r ∈ db.queue.jobs.rows, StageJobOf e r.2 → r.2.state ≠ .queued
  retried : ∀ r ∈ db.queue.jobs.rows, StageJobOf e r.2 →
    ∀ fact ∈ db.facts, fact.exhausts r.1 = false

instance (db : Db) (e : EvidenceId) : Decidable (AtRest db e) :=
  decidable_of_iff ((∀ fact ∈ db.facts, fact.fails e = false) ∧
      (∀ r ∈ db.queue.jobs.rows, StageJobOf e r.2 → r.2.state ≠ .queued) ∧
      ∀ r ∈ db.queue.jobs.rows, StageJobOf e r.2 → ∀ fact ∈ db.facts, fact.exhausts r.1 = false)
    ⟨fun h => ⟨h.1,h.2.1,h.2.2⟩,fun h => ⟨h.unfailed,h.idle,h.retried⟩⟩

def Honoured (log : List Fact) (e : EvidenceId) (stage : IngestStage) (pass : Nat) : Prop :=
  ∃ done, pass ≤ done ∧ FinishedIn log e stage done

def Superseded (p : IngestPipeline) (log : List Fact) (media : MediaKind) (e : EvidenceId)
    (stage : IngestStage) (pass : Nat) : Prop :=
  ∃ body, .ingest (.reprocessRequested body) ∈ log ∧ body.evidence_id = e ∧ pass < body.pass ∧
    ¬p.Follows media body.from_stage stage

def requestedKeys (project_id : ProjectId) (log : List Fact) : List JobKey :=
  log.filterMap fun
    | .ingest (.reprocessRequested body) =>
      some (stageKey project_id body.evidence_id body.from_stage body.pass)
    | _ => none

section
variable {p : IngestPipeline} {project_id : ProjectId} {db : Db} {e : EvidenceId}
  {stage : IngestStage} {pass : Nat}

theorem JobFor.stageJob {j : JobId} {row : JobRow} (h : JobFor p project_id j row e stage pass) :
    StageJobOf e row := by
  refine ⟨?_,?_⟩
  · rw [h.kind]
    have hworks := h.works
    cases stage <;> first | exact absurd rfl hworks | decide
  · rw [h.payload,decodeStagePayload_encode h.bound]
    rfl

theorem standing_owned (h : Tended p project_id db) {keys : List JobKey}
    (hash : Collisionless p.queue (loggedKeys db.queue ++ keys))
    (hstands : Standing p project_id db e stage pass)
    (hkey : stageKey project_id e stage pass ∈ keys) :
    ∃ j row, db.queue.jobs.get? j = some row ∧ Owned p project_id db j row e stage pass := by
  obtain ⟨spec,hspec,hvalid,hthere⟩ := hstands
  obtain ⟨row,hrow⟩ := Option.isSome_iff_exists.mp hthere
  obtain ⟨e',stage',pass',howned⟩ := h.jobs _ row hrow
  have hsame : stageKey project_id e' stage' pass' = stageKey project_id e stage pass := by
    obtain ⟨fact,hfact,henqueues⟩ := howned.logged
    obtain ⟨event,hevent,heventkey⟩ := Option.bind_eq_some_iff.mp henqueues
    have hlogged : event ∈ db.queue.facts := by
      rw [h.continued.recorded.jobs]
      exact mem_filterMap.mpr ⟨fact,hfact,hevent⟩
    obtain ⟨project_id',spec',hvalid',rfl⟩ :=
      h.continued.recorded.queue.lawful event hlogged (Sched.isEnqueue_of_key heventkey)
    have hkey' : specKey project_id' spec' = stageKey project_id e' stage' pass' :=
      Option.some.inj heventkey
    have hkeyed := @stageJobSpec_key p project_id _ _ _ _ hspec
    rw [← hkey',← hkeyed]
    refine specKey_inj hash hvalid' hvalid ?_ ?_ ?_
    · exact mem_append_left _ (mem_filterMap.mpr ⟨_,hlogged,rfl⟩)
    · rw [hkeyed]
      exact mem_append_right _ hkey
    · rw [hkey',Sched.specKey_jobId]
      exact howned.job.id.symm
  obtain ⟨rfl,rfl,rfl⟩ := stageKey_inj howned.job.works hsame
  exact ⟨_,row,hrow,howned⟩

theorem rest_finished {j : JobId} {row : JobRow} (hrest : AtRest db e)
    (hrow : db.queue.jobs.get? j = some row) (h : Owned p project_id db j row e stage pass)
    (hstage : p.stages.contains stage = true) :
    FinishedIn db.facts e stage pass ∨ Overtaken db.facts e pass := by
  have hmem := db.queue.jobs.mem_rows.mpr hrow
  cases hstate : row.state with
  | queued => exact absurd hstate (hrest.idle _ hmem h.job.stageJob)
  | done => exact Or.inl (h.done hstate)
  | dead =>
    obtain ⟨n,reason,hfact,hwhy⟩ := h.dead hstate
    rcases hwhy with ⟨code,rfl⟩ | ⟨body,hbody,hitem⟩ | hovertaken | hlacks
    · have hnot := hrest.retried _ hmem h.job.stageJob _ hfact
      simp [Fact.exhausts] at hnot
    · have hnot := hrest.unfailed _ hbody
      simp [Fact.fails,hitem] at hnot
    · exact Or.inr hovertaken
    · rw [hstage] at hlacks
      cases hlacks

abbrev calledKeys (p : IngestPipeline) (project_id : ProjectId) (log : List Fact) : List JobKey :=
  finishedKeys p project_id log ++ requestedKeys project_id log

variable {body : EvidenceReprocessRequested}

theorem requested_owned (h : Tended p project_id db)
    (hash : Collisionless p.queue (loggedKeys db.queue ++ calledKeys p project_id db.facts))
    (hbody : .ingest (.reprocessRequested body) ∈ db.facts) :
    ∃ j row, db.queue.jobs.get? j = some row ∧
      Owned p project_id db j row body.evidence_id body.from_stage body.pass :=
  standing_owned h hash (h.asked body hbody)
    (mem_append_right _ (mem_filterMap.mpr ⟨_,hbody,rfl⟩))

theorem plan_finished (h : Tended p project_id db)
    (hash : Collisionless p.queue (loggedKeys db.queue ++ calledKeys p project_id db.facts))
    (hrest : AtRest db e) {row : EvidenceRow} (hrow : db.tables.evidence.get? e = some row)
    (hbody : .ingest (.reprocessRequested body) ∈ db.facts) (hitem : body.evidence_id = e)
    (hfollows : p.Follows row.media_kind body.from_stage stage) :
    FinishedIn db.facts e stage body.pass ∨ Overtaken db.facts e body.pass := by
  induction hfollows with
  | here hstage =>
    obtain ⟨j,job,hjob,howned⟩ := requested_owned h hash hbody
    rw [hitem] at howned
    exact rest_finished hrest hjob howned hstage
  | @next before next _ hnext ih =>
    rcases ih with ⟨done,hdone,hof,hstage,hpass⟩ | hovertaken
    · obtain ⟨found,hfound,hstands⟩ := h.continued.finished done hdone
      rw [hof,hrow] at hfound
      cases hfound
      rw [hof,hstage,hpass] at hstands
      have hregistered := (Option.filter_eq_some_iff.mp hnext).2
      have hkey : stageKey project_id e next body.pass ∈ finishedKeys p project_id db.facts := by
        rw [← hof,← hpass]
        exact mem_flatMap.mpr ⟨_,hdone,mem_map_of_mem
          (mem_filter.mpr ⟨IngestStage.mem_all next,hregistered⟩)⟩
      obtain ⟨j,job,hjob,howned⟩ := standing_owned h hash (hstands next hnext)
        (mem_append_left _ hkey)
      exact rest_finished hrest hjob howned hregistered
    · exact Or.inr hovertaken

theorem request_honoured (h : Tended p project_id db)
    (hash : Collisionless p.queue (loggedKeys db.queue ++ calledKeys p project_id db.facts))
    (hrest : AtRest db e) {row : EvidenceRow} (hrow : db.tables.evidence.get? e = some row)
    (n : Nat) (hbody : .ingest (.reprocessRequested body) ∈ db.facts)
    (hitem : body.evidence_id = e) (hn : u32Max-body.pass ≤ n)
    (hfollows : p.Follows row.media_kind body.from_stage stage) :
    Honoured db.facts e stage body.pass ∨
      Superseded p db.facts row.media_kind e stage body.pass := by
  induction n generalizing body with
  | zero =>
    rcases plan_finished h hash hrest hrow hbody hitem hfollows with hdone | ⟨later,hlater,hof,hlt⟩
    · exact Or.inl ⟨_,le_refl _,hdone⟩
    · obtain ⟨_,_,_,howned⟩ := requested_owned h hash hlater
      have hbound := howned.job.bound
      omega
  | succ n ih =>
    rcases plan_finished h hash hrest hrow hbody hitem hfollows with hdone | ⟨later,hlater,hof,hlt⟩
    · exact Or.inl ⟨_,le_refl _,hdone⟩
    · by_cases hleads : p.Follows row.media_kind later.from_stage stage
      · rcases ih hlater hof (by omega) hleads with ⟨done,hle,hdone⟩ | ⟨last,hlast,hitem',hlt',hnot⟩
        · exact Or.inl ⟨done,by omega,hdone⟩
        · exact Or.inr ⟨last,hlast,hitem',by omega,hnot⟩
      · exact Or.inr ⟨later,hlater,hof,hlt,hleads⟩

end

/-- Where every completion, dead letter and reprocess of a run comes in time,
an item that is at rest has had every request honoured, stage by stage, unless
a later request passed the stage over. -/
theorem requests_honoured (p : IngestPipeline) (project_id : ProjectId) (ts : List WorkTurn)
    (e : EvidenceId)
    (h : Pool.Along ingestMachine (WorkOp.code p project_id) InTime Works.idle ts) :
    let db := Works.after p project_id ts
    Collisionless p.queue (loggedKeys db.queue ++ calledKeys p project_id db.facts) →
    AtRest db e →
    ∀ row, db.tables.evidence.get? e = some row →
    ∀ body, .ingest (.reprocessRequested body) ∈ db.facts → body.evidence_id = e →
    ∀ stage, p.Follows row.media_kind body.from_stage stage →
      Honoured db.facts e stage body.pass ∨
        Superseded p db.facts row.media_kind e stage body.pass := by
  intro db hash hrest row hrow body hbody hitem stage hfollows
  exact request_honoured (works_tended h) hash hrest hrow _ hbody hitem (le_refl _) hfollows

def noteTurns (slot : Nat) (op : WorkOp) (count : Nat) : List WorkTurn :=
  .start slot op :: List.replicate count (.act slot {})

def noteWork (stage : IngestStage) (pass : Nat) : WorkOp :=
  .work ((stageKey ⟨0⟩ noteId stage pass).jobId notePipeline.queue) noteWorker 0

def noteRewind (from_stage : IngestStage) : WorkOp := .reprocess ⟨some noteId,from_stage,1⟩ "again"

def noteWorked : List WorkTurn :=
  noteTurns 0 (.submit noteSubmission (.ok (1,11))) 3 ++ noteTurns 1 (noteWork .normalize 0) 11 ++
    noteTurns 1 (noteWork .chunk 0) 12

def noteReworked : List WorkTurn :=
  noteWorked ++ noteTurns 2 (noteRewind .normalize) 3 ++ noteTurns 1 (noteWork .normalize 1) 11 ++
    noteTurns 1 (noteWork .chunk 1) 12

theorem note_requests_honoured :
    let db := Works.after notePipeline ⟨0⟩ noteReworked
    AtRest db noteId ∧ movedPasses noteId db.facts = [0,0,1,1,1] ∧
      ∀ row, db.tables.evidence.get? noteId = some row →
      ∀ body, .ingest (.reprocessRequested body) ∈ db.facts → body.evidence_id = noteId →
      ∀ stage, notePipeline.Follows row.media_kind body.from_stage stage →
        Honoured db.facts noteId stage body.pass ∨
          Superseded notePipeline db.facts row.media_kind noteId stage body.pass := by
  have hrun : Pool.Along ingestMachine (WorkOp.code notePipeline ⟨0⟩) InTime Works.idle noteReworked ∧
      AtRest (Works.after notePipeline ⟨0⟩ noteReworked) noteId ∧
      movedPasses noteId (Works.after notePipeline ⟨0⟩ noteReworked).facts = [0,0,1,1,1] := by
    decide +kernel
  have hkeys : loggedKeys (Works.after notePipeline ⟨0⟩ noteReworked).queue ++
        calledKeys notePipeline ⟨0⟩ (Works.after notePipeline ⟨0⟩ noteReworked).facts ⊆
      [stageKey ⟨0⟩ noteId .normalize 0,stageKey ⟨0⟩ noteId .chunk 0,
        stageKey ⟨0⟩ noteId .normalize 1,stageKey ⟨0⟩ noteId .chunk 1] := by decide +kernel
  obtain ⟨htime,hrest,hmoved⟩ := hrun
  exact ⟨hrest,hmoved,requests_honoured notePipeline ⟨0⟩ noteReworked noteId htime
    (.mono hkeys (by decide +kernel)) hrest⟩

def notePassedOver : List WorkTurn :=
  noteWorked ++ noteTurns 2 (noteRewind .normalize) 3 ++ noteTurns 2 (noteRewind .chunk) 3 ++
    noteTurns 1 (noteWork .normalize 1) 6 ++ noteTurns 1 (noteWork .chunk 2) 12

def finishedPasses (e : EvidenceId) (stage : IngestStage) (log : List Fact) : List Nat :=
  log.filterMap fun
    | .ingest (.stageFinished body) =>
      if body.evidence_id = e ∧ body.stage = stage then some body.pass else none
    | _ => none

theorem FinishedIn.passes {log : List Fact} {e : EvidenceId} {stage : IngestStage} {pass : Nat}
    (h : FinishedIn log e stage pass) : pass ∈ finishedPasses e stage log := by
  obtain ⟨body,hbody,hitem,hstage,rfl⟩ := h
  refine mem_filterMap.mpr ⟨_,hbody,?_⟩
  exact if_pos ⟨hitem,hstage⟩

/-- The job of the first request is refused as stale, and NORMALIZE is never
run again: the item is at rest, and the request is not honoured. -/
theorem passed_over_unhonoured :
    let db := Works.after notePipeline ⟨0⟩ notePassedOver
    Pool.Along ingestMachine (WorkOp.code notePipeline ⟨0⟩) InTime Works.idle notePassedOver ∧
      AtRest db noteId ∧
      ¬∀ body, .ingest (.reprocessRequested body) ∈ db.facts → body.evidence_id = noteId →
        ∀ stage, notePipeline.Follows .plainText body.from_stage stage →
          Honoured db.facts noteId stage body.pass := by
  have hrun : Pool.Along ingestMachine (WorkOp.code notePipeline ⟨0⟩) InTime Works.idle
        notePassedOver ∧
      AtRest (Works.after notePipeline ⟨0⟩ notePassedOver) noteId ∧
      .ingest (.reprocessRequested ⟨noteId,.normalize,1,"again"⟩) ∈
        (Works.after notePipeline ⟨0⟩ notePassedOver).facts ∧
      finishedPasses noteId .normalize (Works.after notePipeline ⟨0⟩ notePassedOver).facts = [0] := by
    decide +kernel
  obtain ⟨htime,hrest,hrequested,hpasses⟩ := hrun
  refine ⟨htime,hrest,fun h => ?_⟩
  obtain ⟨done,hle,hdone⟩ := h _ hrequested rfl .normalize (.here (by decide))
  have hmem := hdone.passes
  rw [hpasses,mem_singleton] at hmem
  subst hmem
  exact absurd hle (by decide)

end ProjectOS.Ingest
