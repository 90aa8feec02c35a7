import ProjectOS.Lib.History
import ProjectOS.Ingest.Batches

/-! The hand-over from stage to stage, read off the log: a completion and the
job of the next stage are one batch, and every job has what calls for it. -/

namespace ProjectOS.Ingest
open Lib Domain List
open Sched (Admissions Collisionless JobKey JobSpec JobQueue deriveJobId
  enqueuedEvent enqueuesFor enqueuesOf eventKey isEnqueue loggedKeys specKey)

def Fact.jobEvent : Fact → Option JobEvent
  | .job event => some event
  | .ingest _ => none

def Fact.enqueues (fact : Fact) : Option JobKey := fact.jobEvent.bind eventKey

def Fact.adds (evidence_id : EvidenceId) : Fact → Bool
  | .ingest (.evidenceAdded body) => body.evidence_id = evidence_id
  | _ => false

def Fact.addsFrom (source_id : SourceId) (external_id : String) : Fact → Bool
  | .ingest (.evidenceAdded body) =>
    body.source_id = source_id && body.external.external_id = external_id
  | _ => false

/-- What calls for a stage's job: the item's arrival, the stage before completed
under the same pass, or a reprocess from there. -/
inductive Calls (earlier : List Fact) : Fact → EvidenceId → IngestStage → Nat → Prop
  | added (body : EvidenceAdded) (stage : IngestStage)
      (hnext : IngestStage.raw.nextFor body.media_kind = some stage) :
      Calls earlier (.ingest (.evidenceAdded body)) body.evidence_id stage 0
  | finished (added : EvidenceAdded) (body : IngestStageFinished) (stage : IngestStage)
      (hadded : .ingest (.evidenceAdded added) ∈ earlier)
      (hitem : added.evidence_id = body.evidence_id)
      (hnext : body.stage.nextFor added.media_kind = some stage) :
      Calls earlier (.ingest (.stageFinished body)) body.evidence_id stage body.pass
  | rewound (body : EvidenceReprocessRequested) :
      Calls earlier (.ingest (.reprocessRequested body)) body.evidence_id body.from_stage body.pass

def CalledFor (project_id : ProjectId) (before : List Fact) (fact : Fact) : Prop :=
  ∀ e stage pass, stage ≠ .raw → fact.enqueues = some (stageKey project_id e stage pass) →
    ∃ earlier cause, before = earlier ++ [cause] ∧ Calls earlier cause e stage pass

/-- What the log shows of the handover from stage to stage. -/
structure HandsOver (p : IngestPipeline) (project_id : ProjectId) (log : List Fact) : Prop where
  known : ∀ body, .ingest (.stageFinished body) ∈ log →
    ∃ added, .ingest (.evidenceAdded added) ∈ log ∧ added.evidence_id = body.evidence_id
  handed : ∀ added body next, .ingest (.evidenceAdded added) ∈ log →
    .ingest (.stageFinished body) ∈ log → added.evidence_id = body.evidence_id →
    p.registered (body.stage.nextFor added.media_kind) = some next →
    ∃ fact ∈ log, fact.enqueues = some (stageKey project_id body.evidence_id next body.pass)
  called : Lib.Ordered (CalledFor project_id) log
  once : ∀ e stage pass,
    log.countP (fun fact => fact.enqueues = some (stageKey project_id e stage pass)) ≤ 1
  items : ∀ source_id external_id, log.countP (Fact.addsFrom source_id external_id) ≤ 1

theorem jobKind_inj {a b : IngestStage} (ha : a ≠ .raw)
    (h : a.jobKind.getD "" = b.jobKind.getD "") : a = b := by
  cases a <;> cases b <;> first | rfl | exact absurd rfl ha | exact absurd h (by decide)

theorem stageIdempotencyKey_inj {e e' : EvidenceId} {stage : IngestStage} {pass pass' : Nat}
    (h : stageIdempotencyKey e stage pass = stageIdempotencyKey e' stage pass') :
    e = e' ∧ pass = pass' := by
  have hlist := congrArg String.toList h
  simp only [stageIdempotencyKey,String.toList_append,append_assoc] at hlist
  obtain ⟨hid,hrest⟩ := append_inj hlist (by rw [Id.toHex_length,Id.toHex_length])
  have hpass := append_cancel_left (append_cancel_left (append_cancel_left hrest))
  refine ⟨Id.toHex_injective (String.toList_inj.mp hid),?_⟩
  simp only [Nat.toString_eq_repr,Nat.toList_repr] at hpass
  rw [← @Nat.ofDigitChars_ten_toDigits pass,hpass,Nat.ofDigitChars_ten_toDigits]

theorem stageKey_inj {project_id : ProjectId} {e e' : EvidenceId} {stage stage' : IngestStage}
    {pass pass' : Nat} (hraw : stage ≠ .raw)
    (h : stageKey project_id e stage pass = stageKey project_id e' stage' pass') :
    e = e' ∧ stage = stage' ∧ pass = pass' := by
  simp only [stageKey,JobKey.mk.injEq,true_and] at h
  obtain rfl := jobKind_inj hraw h.1
  obtain ⟨he,hpass⟩ := stageIdempotencyKey_inj h.2
  exact ⟨he,rfl,hpass⟩

/-- A job's row is its one enqueue, an item's row its one arrival. -/
structure Recorded (q : JobQueue) (db : Db) : Prop where
  queue : Admissions q db.queue
  jobs : db.queue.facts = db.facts.filterMap Fact.jobEvent
  arrived : ∀ added, .ingest (.evidenceAdded added) ∈ db.facts →
    ∃ row, db.tables.evidence.get? added.evidence_id = some row ∧
      row.media_kind = added.media_kind
  items : ∀ e, db.facts.countP (Fact.adds e) =
    if (db.tables.evidence.get? e).isSome then 1 else 0
  named : ∀ added, .ingest (.evidenceAdded added) ∈ db.facts →
    added.evidence_id = deriveEvidenceId q.blake3 added.source_id added.external.external_id

def Fact.Proper (q : JobQueue) : Fact → Prop
  | .job event => Sched.LawfulFact q event
  | .ingest (.evidenceAdded added) =>
    added.evidence_id = deriveEvidenceId q.blake3 added.source_id added.external.external_id
  | .ingest _ => True

section
variable {p : IngestPipeline} {project_id : ProjectId} {q : JobQueue} {db db' s t : Db}
  {e : EvidenceId} {stage : IngestStage} {pass : Nat} {facts : List Fact}

theorem empty_recorded : Recorded q Db.empty where
  queue := Sched.empty_admissions
  jobs := rfl
  arrived _ h := absurd h not_mem_nil
  items _ := rfl
  named _ h := absurd h not_mem_nil

variable {ts_ms : Nat}

theorem appendOne_items {event : IngestEvent} (h : db.appendOne ts_ms (.ingest event) = .ok db')
    (e : EvidenceId) :
    ((db'.tables.evidence.get? e).isSome ↔
        (db.tables.evidence.get? e).isSome ∨ Fact.adds e (.ingest event) = true) ∧
      (Fact.adds e (.ingest event) = true → db.tables.evidence.get? e = none) := by
  have hother : (∀ body, event ≠ .evidenceAdded body) → Fact.adds e (.ingest event) = false := by
    intro hnot
    cases event with
    | evidenceAdded body => exact absurd rfl (hnot body)
    | _ => rfl
  rcases applyEvidence_cases (EvidenceTables.apply_ok (Db.appendOne_ingest h).1).1 with
    ⟨body,rfl,hnone,ht⟩ | ⟨k,f,row,hf,hrow,ht⟩ | ⟨-,hnot,ht⟩
  · rw [ht]
    by_cases hk : e = body.evidence_id
    · subst hk
      simp [Fact.adds,hnone]
    · have hk' : body.evidence_id ≠ e := fun h => hk h.symm
      simp [Fact.adds,Table.get?_put_ne _ _ hk,hk']
  · have hadds := hother (by rintro body rfl; cases hf)
    rw [ht,hadds]
    by_cases hk : e = k
    · subst hk
      simp [hrow]
    · simp [Table.get?_put_ne _ _ hk]
  · rw [ht,hother hnot]
    simp

theorem appendOne_arrived {added : EvidenceAdded}
    (h : db.appendOne ts_ms (.ingest (.evidenceAdded added)) = .ok db') :
    ∃ row, db'.tables.evidence.get? added.evidence_id = some row ∧
      row.media_kind = added.media_kind := by
  obtain ⟨-,ht⟩ := insertRow_ok (EvidenceTables.apply_ok (Db.appendOne_ingest h).1).1
  rw [ht]
  exact ⟨_,Table.get?_put_self _ _ _,rfl⟩

theorem appendOne_recorded (h : Recorded q db) {fact : Fact} (hfact : fact.Proper q)
    (ha : db.appendOne ts_ms fact = .ok db') : Recorded q db' := by
  have hfacts := Db.appendOne_facts ha
  have hcount : ∀ e, db'.facts.countP (Fact.adds e) =
      db.facts.countP (Fact.adds e) + if fact.adds e then 1 else 0 := by
    intro e
    rw [hfacts,countP_append,countP_singleton]
  have hmem : ∀ f, f ∈ db'.facts ↔ f ∈ db.facts ∨ f = fact := by simp [hfacts]
  have hnamed : ∀ added, .ingest (.evidenceAdded added) ∈ db'.facts → added.evidence_id =
      deriveEvidenceId q.blake3 added.source_id added.external.external_id := by
    intro added hadded
    rcases (hmem _).mp hadded with hold | rfl
    · exact h.named added hold
    · exact hfact
  have harrived : ∀ added, .ingest (.evidenceAdded added) ∈ db'.facts →
      ∃ row, db'.tables.evidence.get? added.evidence_id = some row ∧
        row.media_kind = added.media_kind := by
    intro added hadded
    rcases (hmem _).mp hadded with hold | rfl
    · obtain ⟨row,hrow,hm⟩ := h.arrived added hold
      obtain ⟨row',hrow',hm'⟩ := (appendOne_dbKept ha).items _ _ hrow
      exact ⟨row',hrow',hm'.trans hm⟩
    · exact appendOne_arrived ha
  cases fact with
  | job event =>
    obtain ⟨hqueue,htables,-⟩ := Db.appendOne_job ha
    refine ⟨Sched.append_admissions h.queue hqueue hfact,?_,harrived,?_,hnamed⟩
    · rw [(Sched.append_ok hqueue).2.1,h.jobs,hfacts,filterMap_append]
      rfl
    · intro e
      rw [hcount,h.items e,htables]
      simp [Fact.adds]
  | ingest event =>
    obtain ⟨-,hqueue,-⟩ := Db.appendOne_ingest ha
    have hjobs : db'.queue.jobs = db.queue.jobs ∧ db'.queue.facts = db.queue.facts := by
      rw [hqueue]
      exact ⟨rfl,rfl⟩
    refine ⟨⟨?_,?_⟩,?_,harrived,?_,hnamed⟩
    · intro j
      rw [Sched.enqueuesOf_of_facts hjobs.2,hjobs.1]
      exact h.queue.rows j
    · rw [hjobs.2]
      exact h.queue.lawful
    · rw [hjobs.2,h.jobs,hfacts,filterMap_append]
      simp [Fact.jobEvent]
    · intro e
      obtain ⟨hsome,hnone⟩ := appendOne_items ha e
      rw [hcount,h.items e]
      cases hadds : Fact.adds e (.ingest event) with
      | false =>
        simp only [hadds,Bool.false_eq_true,or_false] at hsome
        simp [hsome]
      | true =>
        simp only [hadds,or_true,iff_true] at hsome
        simp [hsome,hnone hadds]

theorem Recorded.of_row (h : Recorded q db) {row : EvidenceRow}
    (hrow : db.tables.evidence.get? e = some row) :
    ∃ added, .ingest (.evidenceAdded added) ∈ db.facts ∧ added.evidence_id = e ∧
      added.media_kind = row.media_kind := by
  have hpos : 0 < db.facts.countP (Fact.adds e) := by
    rw [h.items e,hrow]
    exact Nat.zero_lt_one
  obtain ⟨fact,hfact,hadds⟩ := countP_pos_iff.mp hpos
  cases fact with
  | job event => cases hadds
  | ingest event =>
    cases event with
    | evidenceAdded added =>
      have he : added.evidence_id = e := of_decide_eq_true hadds
      obtain ⟨row',hrow',hm⟩ := h.arrived added hfact
      rw [he,hrow] at hrow'
      cases hrow'
      exact ⟨added,hfact,he,hm.symm⟩
    | _ => cases hadds

theorem appendBatch_recorded (h : Recorded q db) (hfacts : ∀ fact ∈ facts, fact.Proper q)
    (ha : db.appendBatch ts_ms facts = .ok db') : Recorded q db' :=
  Db.appendBatch_keeps (R := fun d d' => Recorded q d → Recorded q d') (fun _ h => h)
    (fun _ _ _ h h' hr => h' (h hr))
    (fun _ _ fact hfact h hr => appendOne_recorded hr (hfacts fact hfact) h) ha h

end

section
variable (p : IngestPipeline) (project_id : ProjectId)

def Standing (db : Db) (e : EvidenceId) (stage : IngestStage) (pass : Nat) : Prop :=
  ∃ spec, p.stageJobSpec e stage pass = .ok spec ∧ spec.validate = .ok () ∧
    (db.queue.jobs.get? (deriveJobId p.queue project_id spec.kind spec.idempotency_key)).isSome

/-- The same as an invariant, with the job rows that stand for it. -/
structure Continued (db : Db) : Prop where
  recorded : Recorded p.queue db
  finished : ∀ body, .ingest (.stageFinished body) ∈ db.facts →
    ∃ row, db.tables.evidence.get? body.evidence_id = some row ∧
      ∀ next, p.registered (body.stage.nextFor row.media_kind) = some next →
        Standing p project_id db body.evidence_id next body.pass
  called : Lib.Ordered (CalledFor project_id) db.facts

variable {p project_id} {db s t : Db} {e : EvidenceId} {stage : IngestStage} {pass : Nat}
  {next : Option IngestStage} {facts queued : List Fact}

theorem empty_continued : Continued p project_id Db.empty :=
  ⟨empty_recorded,fun _ h => absurd h not_mem_nil,ordered_nil _⟩

theorem Standing.later (h : Standing p project_id s e stage pass) (hst : DbKept s t) :
    Standing p project_id t e stage pass := by
  obtain ⟨spec,hspec,hvalid,hrow⟩ := h
  exact ⟨spec,hspec,hvalid,hst.jobs _ hrow⟩

theorem Queued.key (h : Queued p project_id s e stage pass queued) :
    ∀ fact ∈ queued, fact.Proper p.queue ∧
      fact.enqueues = some (stageKey project_id e stage pass) := by
  cases h with
  | standing => simp
  | fresh spec hspec hvalid =>
    intro fact hfact
    obtain rfl := mem_singleton.mp hfact
    refine ⟨fun _ => ⟨project_id,spec,hvalid,rfl⟩,?_⟩
    rw [← stageJobSpec_key hspec]
    rfl

theorem Queued.stands (h : Queued p project_id s e stage pass queued) (hst : DbKept s t)
    (ht : Recorded p.queue t) (hmem : ∀ fact ∈ queued, fact ∈ t.facts) :
    Standing p project_id t e stage pass := by
  cases h with
  | standing spec hspec hvalid hrow => exact ⟨spec,hspec,hvalid,hst.jobs _ hrow⟩
  | fresh spec hspec hvalid =>
    refine ⟨spec,hspec,hvalid,?_⟩
    have hfact := hmem _ (mem_singleton.mpr rfl)
    have hevent : enqueuedEvent (deriveJobId p.queue project_id spec.kind spec.idempotency_key)
        project_id spec ∈ t.queue.facts := by
      rw [ht.jobs]
      exact mem_filterMap.mpr ⟨_,hfact,rfl⟩
    have hpos : 0 < enqueuesOf t.queue
        (deriveJobId p.queue project_id spec.kind spec.idempotency_key) :=
      countP_pos_iff.mpr ⟨_,hevent,by simp⟩
    rw [ht.queue.rows] at hpos
    by_contra hnone
    rw [if_neg hnone] at hpos
    omega

theorem Handed.stands (h : Handed p project_id s e next pass queued) (hst : DbKept s t)
    (ht : Recorded p.queue t) (hmem : ∀ fact ∈ queued, fact ∈ t.facts)
    (hnext : p.registered next = some stage) : Standing p project_id t e stage pass := by
  rw [Handed,hnext] at h
  exact Queued.stands h hst ht hmem

theorem Handed.key (h : Handed p project_id s e next pass queued) :
    ∀ fact ∈ queued, fact.Proper p.queue ∧
      ∃ stage, p.registered next = some stage ∧
        fact.enqueues = some (stageKey project_id e stage pass) := by
  rw [Handed] at h
  cases hn : p.registered next with
  | none =>
    rw [hn] at h
    obtain rfl : queued = [] := h
    simp
  | some stage =>
    rw [hn] at h
    intro fact hfact
    exact ⟨(Queued.key h fact hfact).1,stage,rfl,(Queued.key h fact hfact).2⟩

theorem batch_proper (h : PipelineBatch p project_id s facts) :
    ∀ fact ∈ facts, fact.Proper p.queue := by
  cases h with
  | submitted body queued hid hqueued =>
    exact forall_mem_cons.mpr ⟨hid,fun f hf => (hqueued.key f hf).1⟩
  | started | failed => simp [Fact.Proper]
  | finished body row queued hpass hrow houtput hqueued | rewound body queued hpass hqueued =>
    exact forall_mem_cons.mpr ⟨trivial,fun f hf => (hqueued.key f hf).1⟩
  | emitted ctx facts hfacts =>
    intro fact hfact
    have hemit := hfacts fact hfact
    cases fact with
    | job event => exact hemit.elim
    | ingest event =>
      cases event with
      | evidenceAdded body => exact hemit.elim
      | _ => trivial
  | outside batch =>
    intro fact hfact
    have houtside := batch.outside fact hfact
    cases fact with
    | job event => exact houtside.1
    | ingest event => exact houtside.elim

theorem called_quiet (h : Lib.Ordered (CalledFor project_id) db.facts)
    (hquiet : ∀ fact ∈ facts, ∀ e stage pass, stage ≠ .raw →
      fact.enqueues ≠ some (stageKey project_id e stage pass)) :
    Lib.Ordered (CalledFor project_id) (db.facts ++ facts) := by
  refine ordered_append h ?_
  intro pre fact post heq e stage pass hraw hkey
  exact absurd hkey (hquiet fact (by rw [heq]; simp) e stage pass hraw)

theorem called_with {cause : Fact} (h : Lib.Ordered (CalledFor project_id) db.facts)
    (hcause : cause.enqueues = none) (hlen : queued.length ≤ 1)
    (hqueued : ∀ fact ∈ queued, ∃ e stage pass, Calls db.facts cause e stage pass ∧
      fact.enqueues = some (stageKey project_id e stage pass)) :
    Lib.Ordered (CalledFor project_id) (db.facts ++ cause :: queued) := by
  have hfirst : Lib.Ordered (CalledFor project_id) (db.facts ++ [cause]) := by
    refine ordered_snoc h ?_
    intro e stage pass _ hkey
    rw [hcause] at hkey
    cases hkey
  cases queued with
  | nil => exact hfirst
  | cons fact rest =>
    obtain rfl : rest = [] := length_eq_zero_iff.mp (by
      rw [length_cons] at hlen
      omega)
    rw [append_cons]
    refine ordered_snoc hfirst ?_
    intro e stage pass hraw hkey
    obtain ⟨e',stage',pass',hcalls,hkey'⟩ := hqueued fact (mem_singleton.mpr rfl)
    rw [hkey'] at hkey
    obtain ⟨rfl,rfl,rfl⟩ := stageKey_inj hraw (Option.some.inj hkey).symm
    exact ⟨db.facts,cause,rfl,hcalls⟩

theorem Queued.length (h : Queued p project_id s e stage pass queued) : queued.length ≤ 1 := by
  cases h with
  | fresh => exact le_refl 1
  | standing => exact Nat.zero_le 1

theorem Handed.length (h : Handed p project_id s e next pass queued) : queued.length ≤ 1 := by
  rw [Handed] at h
  cases hn : p.registered next with
  | none =>
    rw [hn] at h
    obtain rfl : queued = [] := h
    exact Nat.zero_le 1
  | some stage =>
    rw [hn] at h
    exact Queued.length h

theorem registered_some (h : p.registered next = some stage) : next = some stage :=
  (Option.filter_eq_some_iff.mp h).1

theorem stageKind_mem (hraw : stage ≠ .raw) : stage.jobKind.getD "" ∈ stageKinds := by
  cases stage <;> first | exact absurd rfl hraw | decide

theorem batch_called (h : Continued p project_id s) (hb : PipelineBatch p project_id s facts) :
    Lib.Ordered (CalledFor project_id) (s.facts ++ facts) := by
  cases hb with
  | submitted body queued hid hqueued =>
    refine called_with h.called rfl hqueued.length ?_
    intro fact hfact
    obtain ⟨-,stage,hnext,hkey⟩ := hqueued.key fact hfact
    exact ⟨_,_,_,.added body stage (registered_some hnext),hkey⟩
  | started | failed => exact called_quiet h.called (by simp [Fact.enqueues,Fact.jobEvent])
  | finished body row queued hpass hrow houtput hqueued =>
    obtain ⟨added,hadded,he,hm⟩ := h.recorded.of_row hrow
    refine called_with h.called rfl hqueued.length ?_
    intro fact hfact
    obtain ⟨-,stage,hnext,hkey⟩ := hqueued.key fact hfact
    refine ⟨_,_,_,.finished added body stage hadded he ?_,hkey⟩
    rw [hm]
    exact registered_some hnext
  | rewound body queued hpass hqueued =>
    refine called_with h.called rfl hqueued.length ?_
    intro fact hfact
    exact ⟨_,_,_,.rewound body,(hqueued.key fact hfact).2⟩
  | emitted ctx facts hfacts =>
    refine called_quiet h.called ?_
    intro fact hfact e stage pass _ hkey
    cases fact with
    | job event => exact hfacts _ hfact
    | ingest event => cases hkey
  | outside batch =>
    refine called_quiet h.called ?_
    intro fact hfact e stage pass hraw hkey
    have houtside := batch.outside fact hfact
    cases fact with
    | job event => exact houtside.2 _ hkey (stageKind_mem hraw)
    | ingest event => cases hkey

theorem batch_finished (h : Continued p project_id s) (hb : PipelineBatch p project_id s facts)
    (hst : DbKept s t) (ht : Recorded p.queue t) (hfacts : t.facts = s.facts ++ facts) :
    ∀ body, .ingest (.stageFinished body) ∈ t.facts →
      ∃ row, t.tables.evidence.get? body.evidence_id = some row ∧
        ∀ next, p.registered (body.stage.nextFor row.media_kind) = some next →
          Standing p project_id t body.evidence_id next body.pass := by
  intro body hbody
  rw [hfacts] at hbody
  rcases mem_append.mp hbody with hold | hnew
  · obtain ⟨row,hrow,hstands⟩ := h.finished body hold
    obtain ⟨row',hrow',hm⟩ := hst.items _ _ hrow
    refine ⟨row',hrow',?_⟩
    intro next hnext
    rw [hm] at hnext
    exact (hstands next hnext).later hst
  · have hqueue : ∀ {queued : List Fact}, (∀ fact ∈ queued, fact.enqueues ≠ none) →
        Fact.ingest (.stageFinished body) ∉ queued := fun hq hmem => hq _ hmem rfl
    cases hb with
    | submitted added queued hid hqueued =>
      rcases mem_cons.mp hnew with heq | hmem
      · cases heq
      · refine absurd hmem (hqueue ?_)
        intro fact hfact
        obtain ⟨-,_,-,hkey⟩ := hqueued.key fact hfact
        rw [hkey]
        simp
    | started | failed => simp at hnew
    | finished body' row queued hpass hrow houtput hqueued =>
      rcases mem_cons.mp hnew with heq | hmem
      · cases heq
        obtain ⟨row',hrow',hm⟩ := hst.items _ _ hrow
        refine ⟨row',hrow',?_⟩
        intro next hnext
        rw [hm] at hnext
        refine hqueued.stands hst ht ?_ hnext
        intro fact hfact
        rw [hfacts]
        exact mem_append_right _ (mem_cons_of_mem _ hfact)
      · refine absurd hmem (hqueue ?_)
        intro fact hfact
        obtain ⟨-,_,-,hkey⟩ := hqueued.key fact hfact
        rw [hkey]
        simp
    | rewound rewound queued hpass hqueued =>
      rcases mem_cons.mp hnew with heq | hmem
      · cases heq
      · refine absurd hmem (hqueue ?_)
        intro fact hfact
        rw [(hqueued.key fact hfact).2]
        simp
    | emitted ctx facts hemits => exact (hemits _ hnew).elim
    | outside batch => exact (batch.outside _ hnew).elim

theorem batch_continued {ts_ms : Nat} (h : Continued p project_id s)
    (hb : PipelineBatch p project_id s facts) (ha : s.appendBatch ts_ms facts = .ok t) :
    Continued p project_id t := by
  have hrecorded := appendBatch_recorded h.recorded (batch_proper hb) ha
  have hfacts := Db.appendBatch_facts ha
  refine ⟨hrecorded,batch_finished h hb (appendBatch_dbKept ha) hrecorded hfacts,?_⟩
  rw [hfacts]
  exact batch_called h hb

end

def finishedKeys (p : IngestPipeline) (project_id : ProjectId) (log : List Fact) : List JobKey :=
  log.flatMap fun
    | .ingest (.stageFinished body) => (IngestStage.all.filter p.stages.contains).map fun stage =>
      stageKey project_id body.evidence_id stage body.pass
    | _ => []

section
variable {p : IngestPipeline} {project_id : ProjectId} {db : Db}

theorem Continued.enqueued (h : Continued p project_id db)
    (hash : Collisionless p.queue
      (loggedKeys db.queue ++ finishedKeys p project_id db.facts))
    {body : IngestStageFinished} (hbody : .ingest (.stageFinished body) ∈ db.facts)
    {next : IngestStage} (hnext : p.stages.contains next = true)
    (hstands : Standing p project_id db body.evidence_id next body.pass) :
    ∃ fact ∈ db.facts, fact.enqueues = some (stageKey project_id body.evidence_id next body.pass) := by
  obtain ⟨spec,hspec,hvalid,hrow⟩ := hstands
  have hkey := @stageJobSpec_key p project_id _ _ _ _ hspec
  have hmem : specKey project_id spec ∈ loggedKeys db.queue ++ finishedKeys p project_id db.facts := by
    refine mem_append_right _ (mem_flatMap.mpr ⟨_,hbody,?_⟩)
    rw [hkey]
    exact mem_map_of_mem (mem_filter.mpr ⟨IngestStage.mem_all next,hnext⟩)
  have hle := Sched.enqueuesOf_le h.recorded.queue hash (fun _ hk => mem_append_left _ hk)
    hvalid hmem
  have hone : enqueuesOf db.queue ((specKey project_id spec).jobId p.queue) = 1 := by
    rw [h.recorded.queue.rows,Sched.specKey_jobId,if_pos hrow]
  have hpos : 0 < enqueuesFor db.queue (specKey project_id spec) := by omega
  obtain ⟨event,hevent,heq⟩ := countP_pos_iff.mp hpos
  rw [h.recorded.jobs] at hevent
  obtain ⟨fact,hfact,hjob⟩ := mem_filterMap.mp hevent
  refine ⟨fact,hfact,?_⟩
  rw [Fact.enqueues,hjob,← hkey]
  exact of_decide_eq_true heq

theorem Continued.once (h : Continued p project_id db) (key : JobKey) :
    db.facts.countP (fun fact => fact.enqueues = some key) ≤ 1 := by
  have hcount : db.facts.countP (fun fact => fact.enqueues = some key) =
      enqueuesFor db.queue key := by
    rw [enqueuesFor,h.recorded.jobs,countP_filterMap]
    refine countP_congr ?_
    intro fact _
    cases fact with
    | ingest event => simp [Fact.enqueues,Fact.jobEvent]
    | job event => exact Iff.rfl
  rw [hcount]
  exact (Sched.enqueuesFor_le h.recorded.queue key).trans (h.recorded.queue.once _)

theorem Continued.items (h : Continued p project_id db) (source_id : SourceId)
    (external_id : String) : db.facts.countP (Fact.addsFrom source_id external_id) ≤ 1 := by
  have hle : db.facts.countP (Fact.addsFrom source_id external_id) ≤
      db.facts.countP (Fact.adds (deriveEvidenceId p.queue.blake3 source_id external_id)) := by
    refine countP_mono_left ?_
    intro fact hfact hadds
    cases fact with
    | job event => cases hadds
    | ingest event =>
      cases event with
      | evidenceAdded body =>
        have hfrom : body.source_id = source_id ∧ body.external.external_id = external_id := by
          simpa [Fact.addsFrom] using hadds
        refine decide_eq_true ?_
        rw [h.recorded.named body hfact,hfrom.1,hfrom.2]
      | _ => cases hadds
  rw [h.recorded.items] at hle
  split_ifs at hle <;> omega

/-- Whatever is submitted, delivered and redelivered, reprocessed and lost on
the way, the log hands every item over from stage to stage. -/
theorem pipeline_hands_over (p : IngestPipeline) (project_id : ProjectId)
    (ts : List (PipelineTurn p)) :
    let db := (Pipelines.idle.after project_id ts).store
    Collisionless p.queue (loggedKeys db.queue ++ finishedKeys p project_id db.facts) →
      HandsOver p project_id db.facts := by
  intro db hash
  have h : Continued p project_id db :=
    pipeline_keeps (fun x s facts t hs hb _ ha => batch_continued hs hb ha)
      (Pool.along_of_free fun _ _ _ => trivial) empty_continued
  refine ⟨?_,?_,h.called,fun e stage pass => h.once _,h.items⟩
  · intro body hbody
    obtain ⟨row,hrow,-⟩ := h.finished body hbody
    obtain ⟨added,hadded,he,-⟩ := h.recorded.of_row hrow
    exact ⟨added,hadded,he⟩
  · intro added body next hadded hbody he hnext
    obtain ⟨row,hrow,hstands⟩ := h.finished body hbody
    obtain ⟨row',hrow',hm⟩ := h.recorded.arrived added hadded
    rw [he,hrow] at hrow'
    cases hrow'
    rw [← hm] at hnext
    exact h.enqueued hash hbody (Option.filter_eq_some_iff.mp hnext).2 (hstands next hnext)

end

def handedTurns : List (PipelineTurn notePipeline) :=
  noteSubmitted ++ turnsOf 1 (noteNormalizing 0) 6 ++ turnsOf 2 (noteNormalizing 0) 3 ++
    turnsOf 2 (noteNormalizing 0) 6 ++ noteSubmitted

theorem note_handed_over :
    ((Pipelines.idle.after ⟨0⟩ handedTurns).store.facts.map Fact.kindTag) =
        ["EvidenceAdded","JobEnqueued","IngestStageStarted","IngestStageFinished","JobEnqueued",
          "IngestStageStarted","IngestStageStarted","IngestStageFinished"] ∧
      HandsOver notePipeline ⟨0⟩ (Pipelines.idle.after ⟨0⟩ handedTurns).store.facts := by
  have hkeys : loggedKeys (Pipelines.idle.after ⟨0⟩ handedTurns).store.queue ++
        finishedKeys notePipeline ⟨0⟩ (Pipelines.idle.after ⟨0⟩ handedTurns).store.facts ⊆
      [stageKey ⟨0⟩ noteId .normalize 0,stageKey ⟨0⟩ noteId .chunk 0] := by decide +kernel
  exact ⟨by decide +kernel,
    pipeline_hands_over notePipeline ⟨0⟩ handedTurns (.mono hkeys (by decide +kernel))⟩

def Fact.finishes (evidence_id : EvidenceId) (stage : IngestStage) (pass : Nat) : Fact → Bool
  | .ingest (.stageFinished body) =>
    body.evidence_id = evidence_id && body.stage = stage && body.pass = pass
  | _ => false

def QueuedIffFinished (p : IngestPipeline) (project_id : ProjectId) (log : List Fact) : Prop :=
  ∀ added stage next pass, .ingest (.evidenceAdded added) ∈ log →
    p.registered (stage.nextFor added.media_kind) = some next →
    ((∃ fact ∈ log, fact.finishes added.evidence_id stage pass = true) ↔
      ∃ fact ∈ log, fact.enqueues = some (stageKey project_id added.evidence_id next pass))

def noteAdded : EvidenceAdded where
  evidence_id := noteId
  source_id := noteSource
  source_kind := "upload"
  external := ⟨"note.txt",none,none⟩
  media_kind := .plainText
  shape := .document
  content_blob := 1
  byte_size := 11
  occurred_ts_ms := 0
  author := none
  title := none
  thread_ref := none

def rechunkedTurns : List (PipelineTurn notePipeline) :=
  noteSubmitted ++ turnsOf 1 (noteNormalizing 0) 6 ++ turnsOf 2 (noteChunking 0) 7 ++
    turnsOf 3 (noteRewound .chunk) 3

/-- A reprocess queues its stage under a new pass in which the stage before is
never run, so CHUNK is queued for pass 1 and NORMALIZE never completed in it. -/
theorem note_queued_unfinished : ¬QueuedIffFinished notePipeline ⟨0⟩
    (Pipelines.idle.after ⟨0⟩ rechunkedTurns).store.facts := by
  intro h
  have hrun : .ingest (.evidenceAdded noteAdded) ∈
        (Pipelines.idle.after ⟨0⟩ rechunkedTurns).store.facts ∧
      (∃ fact ∈ (Pipelines.idle.after ⟨0⟩ rechunkedTurns).store.facts,
        fact.enqueues = some (stageKey ⟨0⟩ noteId .chunk 1)) ∧
      ¬∃ fact ∈ (Pipelines.idle.after ⟨0⟩ rechunkedTurns).store.facts,
        fact.finishes noteId .normalize 1 = true := by decide +kernel
  obtain ⟨hadded,hqueued,hnot⟩ := hrun
  exact hnot ((h noteAdded .normalize .chunk 1 hadded (by decide +kernel)).mpr hqueued)

end ProjectOS.Ingest
