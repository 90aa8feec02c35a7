import ProjectOS.Ingest.Reprocess

/-! Reprocess calls over all items, one behind another. Each lists a page, and
none moves an item in the listing. -/

namespace ProjectOS.Ingest
open Lib Domain List Lib.Prog

def ReprocessPlan.isTruncated (plan : ReprocessPlan) : Bool :=
  plan.item_count_max ≤ plan.requeued.length

def place (row : EvidenceRow) : Int × EvidenceStatus := (row.occurred_ts_ms,row.status)

def SamePlaces (s t : Db) : Prop := t.tables.evidence.column place = s.tables.evidence.column place

theorem samePlaces_refl (s : Db) : SamePlaces s s := rfl

theorem SamePlaces.trans (s t u : Db) (h : SamePlaces s t) (h' : SamePlaces t u) :
    SamePlaces s u := Eq.trans h' h

def Rewinding : Fact → Prop
  | .job _
  | .ingest (.reprocessRequested _) => True
  | _ => False

def RewindingOnly (a : IngestAct) : Prop := ∀ facts, a = .append facts → ∀ fact ∈ facts, Rewinding fact

theorem appendOne_samePlaces {db db' : Db} {ts_ms : Nat} {fact : Fact} (hfact : Rewinding fact)
    (ha : db.appendOne ts_ms fact = .ok db') : SamePlaces db db' := by
  cases fact with
  | job event => rw [SamePlaces,(Db.appendOne_job ha).2.1]
  | ingest event =>
    cases event with
    | reprocessRequested body =>
      obtain ⟨row,hrow,ht⟩ :=
        updateOne_ok (EvidenceTables.apply_ok (Db.appendOne_ingest ha).1).1
      rw [SamePlaces,ht]
      exact Table.column_put_same _ hrow rfl
    | _ => exact hfact.elim

theorem step_samePlaces (i : IngestInput) (db : Db) (a : IngestAct) (h : RewindingOnly a) :
    SamePlaces db (ingestMachine.step i db a).2 := by
  cases a with
  | append facts =>
    obtain ⟨db',happend,hbatch⟩ | ⟨e,happend⟩ := Db.append_cases db i facts
    · simp only [ingestMachine,happend]
      exact Db.appendBatch_keeps samePlaces_refl SamePlaces.trans
        (fun _ _ fact hfact hone => appendOne_samePlaces (h facts rfl fact hfact) hone) hbatch
    · simp only [ingestMachine,happend]
      exact samePlaces_refl db
  | _ => exact samePlaces_refl db

section
variable {p : IngestPipeline} {project_id : ProjectId} {stage : IngestStage} {pass : Nat}

variable {e : EvidenceId}

theorem stageJob_yields :
    (p.stageJob project_id e stage pass).Yields fun queued => ∀ fact ∈ queued, Rewinding fact := by
  refine yields_bind (yields_any _) fun spec _ => ?_
  rw [IngestPipeline.enqueueRequest]
  cases spec.validate with
  | error err => trivial
  | ok u =>
    intro r
    rcases r with fault | _ | row
    · trivial
    · intro fact hfact
      obtain rfl := mem_singleton.mp hfact
      trivial
    · intro fact hfact
      cases hfact

theorem stageJob_rewinding :
    (p.stageJob project_id e stage pass).Within RewindingOnly := by
  refine within_bind (within_ofExcept _) fun spec => ?_
  rw [IngestPipeline.enqueueRequest]
  cases spec.validate with
  | error err => trivial
  | ok u =>
    constructor
    · intro facts heq
      cases heq
    · intro r
      rcases r with fault | _ | row <;> trivial

theorem reprocessOne_rewinding (from_stage : IngestStage) (reason : String) (plan : ReprocessPlan)
    (target : EvidenceId × Nat × EvidenceStatus) :
    (p.reprocessOne project_id from_stage reason plan target).Within RewindingOnly := by
  rw [IngestPipeline.reprocessOne]
  split_ifs
  · refine within_bind_yields stageJob_rewinding stageJob_yields fun queued hqueued => ?_
    refine within_bind ⟨?_,fun r => within_ofExcept _⟩ fun _ => trivial
    intro facts heq fact hfact
    cases heq
    obtain rfl | hfact := mem_cons.mp hfact
    · trivial
    · exact hqueued fact hfact
  · trivial

theorem reprocess_rewinding (request : ReprocessRequest) (reason : String) :
    (p.reprocess project_id request reason).Within RewindingOnly := by
  rw [IngestPipeline.reprocess]
  split_ifs
  · trivial
  · refine within_bind ?_ fun targets => within_foldlM _ _
      (fun plan target _ => reprocessOne_rewinding request.from_stage reason plan target) _
    rw [IngestPipeline.reprocessTargets]
    cases request.evidence_id with
    | some e =>
      constructor
      · intro facts heq
        cases heq
      · intro r
        rcases r with fault | _ | record <;> trivial
    | none =>
      constructor
      · intro facts heq
        cases heq
      · intro r
        rcases r with fault | records <;> trivial

end

def placedBefore (a b : EvidenceId × Int × EvidenceStatus) : Prop :=
  b.2.1 < a.2.1 ∨ (a.2.1 = b.2.1 ∧ a.1 ≤ b.1)

instance (a b : EvidenceId × Int × EvidenceStatus) : Decidable (placedBefore a b) :=
  inferInstanceAs (Decidable (_ ∨ _))

def pageOf (places : Table EvidenceId (Int × EvidenceStatus)) (row_count_max : Nat) :
    List (EvidenceId × EvidenceStatus) :=
  ((places.rows.insertionSort placedBefore).take
    (min row_count_max evidenceListRowCountMax)).map fun r => (r.1,r.2.2)

def standing (t : EvidenceId × Nat × EvidenceStatus) : EvidenceId × EvidenceStatus := (t.1,t.2.2)

theorem targets_page {db : Db} {request : ReprocessRequest} (hall : request.evidence_id = none) :
    (targetsOf db request).map standing =
      pageOf (db.tables.evidence.mapRows fun _ => place) request.item_count_max := by
  have hsort := map_insertionSort EvidenceTables.evidenceBefore placedBefore
    (fun r : EvidenceId × EvidenceRow => (r.1,place r.2)) db.tables.evidence.rows
    (fun _ _ _ _ => Iff.rfl)
  simp only [targetsOf,hall,EvidenceTables.listEvidence,map_map,pageOf,Table.mapRows]
  rw [← hsort,← map_take,map_map]
  rfl

theorem SamePlaces.targets {s t : Db} (h : SamePlaces s t) {request : ReprocessRequest}
    (hall : request.evidence_id = none) :
    (targetsOf t request).map standing = (targetsOf s request).map standing := by
  have hplaces : (t.tables.evidence.mapRows fun _ => place) =
      s.tables.evidence.mapRows fun _ => place := by
    apply Table.ext_get?
    intro e
    rw [Table.get?_mapRows,Table.get?_mapRows]
    exact congrFun h e
  rw [targets_page hall,targets_page hall,hplaces]

section
variable (p : IngestPipeline) (project_id : ProjectId) (request : ReprocessRequest)
  (reason : String) (env : Nat → IngestInput) (db : Db)

def callsFrom : Nat → Nat × Db
  | 0 => (0,db)
  | k+1 =>
    let s := callsFrom k
    ((p.reprocess project_id request reason).run ingestMachine env s.1 s.2).2

def reportOf (k : Nat) : Except IngestError ReprocessPlan :=
  let s := callsFrom p project_id request reason env db k
  ((p.reprocess project_id request reason).run ingestMachine env s.1 s.2).1

def skippedBy (k : Nat) : List EvidenceId :=
  ((targetsOf (callsFrom p project_id request reason env db k).2 request).filter fun t =>
    !reached t.2.2 request.from_stage).map Prod.fst

end

def Eligible (db : Db) (from_stage : IngestStage) (e : EvidenceId) : Prop :=
  ∃ row, db.tables.evidence.get? e = some row ∧ reached row.status from_stage = true

def Truncated (report : Except IngestError ReprocessPlan) : Prop :=
  ∃ plan, report = .ok plan ∧ plan.isTruncated = true

def SweepsAll (p : IngestPipeline) (project_id : ProjectId) (request : ReprocessRequest)
    (reason : String) (env : Nat → IngestInput) (db : Db) : Prop :=
  ∃ last, (∀ k < last, Truncated (reportOf p project_id request reason env db k)) ∧
    (∃ plan, reportOf p project_id request reason env db last = .ok plan ∧
      plan.isTruncated = false) ∧
    ∀ e, Eligible db request.from_stage e → ∃ k ≤ last,
      e ∈ requeuedBy (reportOf p project_id request reason env db k) ∨
        e ∈ skippedBy p project_id request reason env db k

def listedEligible (db : Db) (request : ReprocessRequest) : List EvidenceId :=
  ((targetsOf db request).filter fun t => reached t.2.2 request.from_stage).map Prod.fst

/-- One call reaches all eligible items. -/
structure OnePage (db : Db) (request : ReprocessRequest) : Prop where
  fewer : (listedEligible db request).length < request.item_count_max
  all : ∀ e, Eligible db request.from_stage e → e ∈ (targetsOf db request).map Prod.fst

section
variable {p : IngestPipeline} {project_id : ProjectId} {request : ReprocessRequest}
  {reason : String} {env : Nat → IngestInput} {db : Db}

theorem callsFrom_samePlaces (k : Nat) :
    SamePlaces db (callsFrom p project_id request reason env db k).2 := by
  induction k with
  | zero => exact samePlaces_refl db
  | succ k ih =>
    exact SamePlaces.trans _ _ _ ih (within_after samePlaces_refl SamePlaces.trans
      step_samePlaces (reprocess_rewinding request reason) env _ _)

theorem targets_fst (s : Db) (request : ReprocessRequest) :
    (targetsOf s request).map Prod.fst = ((targetsOf s request).map standing).map Prod.fst := by
  rw [map_map]
  rfl

theorem listedEligible_standing (s : Db) (request : ReprocessRequest) :
    listedEligible s request = (((targetsOf s request).map standing).filter fun t =>
      reached t.2 request.from_stage).map Prod.fst := by
  rw [listedEligible,filter_map,map_map]
  rfl

variable {plan : ReprocessPlan}

theorem reportOf_ok (hall : request.evidence_id = none) {k : Nat}
    (h : reportOf p project_id request reason env db k = .ok plan) :
    plan.requeued.map Prod.fst = listedEligible db request ∧
      plan.item_count_max = request.item_count_max := by
  constructor
  · rw [requeuedBy_report h,← listedEligible,listedEligible_standing,listedEligible_standing,
      (callsFrom_samePlaces k).targets hall]
  · rw [(reprocess_report h).2,foldl_planOne]

theorem isTruncated_iff (hall : request.evidence_id = none) {k : Nat}
    (h : reportOf p project_id request reason env db k = .ok plan) :
    plan.isTruncated = true ↔ request.item_count_max ≤ (listedEligible db request).length := by
  obtain ⟨hitems,hmax⟩ := reportOf_ok hall h
  have hlength := congrArg List.length hitems
  rw [length_map] at hlength
  rw [ReprocessPlan.isTruncated,decide_eq_true_eq,hlength,hmax]

variable {e : EvidenceId}

theorem mem_listedEligible (he : Eligible db request.from_stage e)
    (hlisted : e ∈ (targetsOf db request).map Prod.fst) : e ∈ listedEligible db request := by
  obtain ⟨row,hrow,hreached⟩ := he
  obtain ⟨t,ht,rfl⟩ := mem_map.mp hlisted
  obtain ⟨found,hfound,hstatus⟩ := targetsOf_row ht
  rw [hrow,Option.some.injEq] at hfound
  subst hfound
  refine mem_map_of_mem (mem_filter.mpr ⟨ht,?_⟩)
  rw [hstatus]
  exact hreached

theorem listed_of_called (hall : request.evidence_id = none) {k : Nat}
    (h : e ∈ requeuedBy (reportOf p project_id request reason env db k) ∨
      e ∈ skippedBy p project_id request reason env db k) :
    e ∈ (targetsOf db request).map Prod.fst := by
  obtain h | h := h
  · cases hreport : reportOf p project_id request reason env db k with
    | error err =>
      rw [hreport] at h
      cases h
    | ok plan =>
      rw [hreport,requeuedBy,(reportOf_ok hall hreport).1] at h
      obtain ⟨t,ht,rfl⟩ := mem_map.mp h
      exact mem_map_of_mem (mem_filter.mp ht).1
  · obtain ⟨t,ht,rfl⟩ := mem_map.mp h
    rw [targets_fst,← (callsFrom_samePlaces k).targets hall,← targets_fst]
    exact mem_map_of_mem (mem_filter.mp ht).1

end

/-- Calls over all items that are all answered come to an end with every
eligible item taken if and only if one page has them all with room to spare. -/
theorem reprocess_sweeps (p : IngestPipeline) (project_id : ProjectId) (request : ReprocessRequest)
    (reason : String) (env : Nat → IngestInput) (db : Db) (hall : request.evidence_id = none)
    (hreports : ∀ k, (∀ j < k, Truncated (reportOf p project_id request reason env db j)) →
      ∃ plan, reportOf p project_id request reason env db k = .ok plan) :
    SweepsAll p project_id request reason env db ↔ OnePage db request := by
  constructor
  · rintro ⟨last,-,⟨plan,hplan,hended⟩,hitems⟩
    constructor
    · by_contra hfull
      have htruncated := (isTruncated_iff hall hplan).mpr (Nat.le_of_not_lt hfull)
      rw [hended] at htruncated
      cases htruncated
    · intro e he
      obtain ⟨k,-,hcalled⟩ := hitems e he
      exact listed_of_called hall hcalled
  · rintro ⟨hfewer,hlisted⟩
    obtain ⟨plan,hplan⟩ := hreports 0 (fun j hj => absurd hj (Nat.not_lt_zero j))
    refine ⟨0,fun j hj => absurd hj (Nat.not_lt_zero j),⟨plan,hplan,?_⟩,?_⟩
    · rw [← Bool.not_eq_true,isTruncated_iff hall hplan]
      omega
    · intro e he
      refine ⟨0,le_refl 0,Or.inl ?_⟩
      rw [hplan,requeuedBy,(reportOf_ok hall hplan).1]
      exact mem_listedEligible he (hlisted e he)

def sweptNote : Db := (Pipelines.idle.after ⟨0⟩ noteChunkedOnce).store

def noteReport (row_count_max : Nat) (db : Db) : Nat → Except IngestError ReprocessPlan :=
  reportOf notePipeline ⟨0⟩ ⟨none,.embed,row_count_max⟩ "again" (fun _ => {}) db

theorem note_swept :
    SweepsAll notePipeline ⟨0⟩ ⟨none,.embed,2⟩ "again" (fun _ => {}) sweptNote := by
  have hrun : (noteReport 2 sweptNote 0).toOption = some ⟨[(noteId,1)],0,2⟩ ∧
      sweptNote.tables.evidence.rows.map Prod.fst = [noteId] ∧
      (targetsOf sweptNote ⟨none,.embed,2⟩).map Prod.fst = [noteId] ∧
      (listedEligible sweptNote ⟨none,.embed,2⟩).length < 2 := by decide +kernel
  obtain ⟨hreport,honly,hlisted,hfewer⟩ := hrun
  have hfirst := ok_of_toOption hreport
  have hreports : ∀ k, (∀ j < k, Truncated (noteReport 2 sweptNote j)) →
      ∃ plan, noteReport 2 sweptNote k = .ok plan := by
    intro k hk
    cases k with
    | zero => exact ⟨_,hfirst⟩
    | succ k =>
      obtain ⟨plan,hplan,htruncated⟩ := hk 0 (Nat.succ_pos k)
      rw [hfirst] at hplan
      cases hplan
      cases htruncated
  refine (reprocess_sweeps notePipeline ⟨0⟩ ⟨none,.embed,2⟩ "again" (fun _ => {}) sweptNote rfl
    hreports).mpr ⟨hfewer,?_⟩
  rintro e ⟨row,hrow,-⟩
  have hmem := mem_map_of_mem (f := Prod.fst) (sweptNote.tables.evidence.mem_rows.mpr hrow)
  rw [honly] at hmem
  rw [hlisted]
  exact hmem

def memoSubmission : EvidenceSubmission :=
  { noteSubmission with external := ⟨"memo.txt",none,none⟩, occurred_ts_ms := 1 }

def memoBefore : Db :=
  (Pipelines.idle.after ⟨0⟩ (noteChunkedOnce ++ turnsOf 3 (.submit memoSubmission (.ok (2,4))) 3)).store

/-- The page of one item holds the memo, which is not at EMBED yet. The call is
not truncated, and the note behind it is never come to. -/
theorem note_behind_page :
    ¬SweepsAll notePipeline ⟨0⟩ ⟨none,.embed,1⟩ "again" (fun _ => {}) memoBefore := by
  have hrun : (noteReport 1 memoBefore 0).toOption = some ⟨[],1,1⟩ ∧
      (memoBefore.tables.evidence.get? noteId).map EvidenceRow.status = some .chunked ∧
      noteId ∉ skippedBy notePipeline ⟨0⟩ ⟨none,.embed,1⟩ "again" (fun _ => {}) memoBefore 0 := by
    decide +kernel
  obtain ⟨hreport,hstatus,hskipped⟩ := hrun
  have hfirst := ok_of_toOption hreport
  obtain ⟨row,hrow,hchunked⟩ := Option.map_eq_some_iff.mp hstatus
  rintro ⟨last,htruncated,-,hitems⟩
  have hlast : last = 0 := by
    by_contra hpos
    obtain ⟨plan,hplan,hfull⟩ := htruncated 0 (Nat.pos_of_ne_zero hpos)
    rw [← noteReport,hfirst] at hplan
    cases hplan
    cases hfull
  subst hlast
  obtain ⟨k,hk,hcalled⟩ := hitems noteId ⟨row,hrow,by rw [hchunked]; decide⟩
  obtain rfl := Nat.le_zero.mp hk
  rw [← noteReport,hfirst] at hcalled
  obtain hcalled | hcalled := hcalled
  · cases hcalled
  · exact hskipped hcalled

end ProjectOS.Ingest
