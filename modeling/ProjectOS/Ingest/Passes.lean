import ProjectOS.Ingest.Handover

/-! The pass an item is on, and whose results its row holds. The pass of a job
is compared when its attempt begins; what it did is appended later. -/

namespace ProjectOS.Ingest
open Lib Domain List

def Fact.writes (e : EvidenceId) : Fact → Option Nat
  | .ingest (.stageFinished body) => if body.evidence_id = e then some body.pass else none
  | .ingest (.stageFailed body) =>
    if body.evidence_id = e ∧ body.disposition.isDead = true then some body.pass else none
  | _ => none

def Fact.moves (e : EvidenceId) : Fact → Option Nat
  | .ingest (.stageFinished body) => if body.evidence_id = e then some body.pass else none
  | .ingest (.reprocessRequested body) => if body.evidence_id = e then some body.pass else none
  | _ => none

def writtenPasses (e : EvidenceId) (log : List Fact) : List Nat := log.filterMap (Fact.writes e)

def movedPasses (e : EvidenceId) (log : List Fact) : List Nat := log.filterMap (Fact.moves e)

def NotBeyond (s : Db) (e : EvidenceId) (pass : Nat) : Prop :=
  match s.tables.evidence.get? e with
  | some row => row.pass ≤ integerU32 pass
  | none => True

instance (s : Db) (e : EvidenceId) (pass : Nat) : Decidable (NotBeyond s e pass) := by
  rw [NotBeyond]
  cases s.tables.evidence.get? e with
  | some row => exact inferInstanceAs (Decidable (_ ≤ _))
  | none => exact isTrue trivial

def OnPass (s : Db) (e : EvidenceId) (pass : Nat) : Prop :=
  match s.tables.evidence.get? e with
  | some row => row.pass = integerU32 pass
  | none => True

instance (s : Db) (e : EvidenceId) (pass : Nat) : Decidable (OnPass s e pass) := by
  rw [OnPass]
  cases s.tables.evidence.get? e with
  | some row => exact inferInstanceAs (Decidable (_ = _))
  | none => exact isTrue trivial

/-- A completion or a dead letter while the item is on the pass the attempt found, a
reprocess while it is on no newer one. -/
def Fact.InTime (s : Db) : Fact → Prop
  | .ingest (.stageFinished body) => OnPass s body.evidence_id body.pass
  | .ingest (.stageFailed body) =>
    body.disposition.isDead = true → OnPass s body.evidence_id body.pass
  | .ingest (.reprocessRequested body) => NotBeyond s body.evidence_id body.pass
  | _ => True

instance (s : Db) : (fact : Fact) → Decidable (fact.InTime s)
  | .ingest (.stageFinished body) =>
    inferInstanceAs (Decidable (OnPass s body.evidence_id body.pass))
  | .ingest (.stageFailed _) => inferInstanceAs (Decidable (_ → _))
  | .ingest (.reprocessRequested body) =>
    inferInstanceAs (Decidable (NotBeyond s body.evidence_id body.pass))
  | .ingest (.evidenceAdded _)
  | .ingest (.stageStarted _)
  | .ingest (.evidenceTranscribed _)
  | .ingest (.evidenceChunked _)
  | .ingest (.evidenceEmbedded _)
  | .job _ => isTrue trivial

def InTime (_ : IngestInput) (s : Db) : IngestAct → Prop
  | .append facts => ∀ fact ∈ facts, fact.InTime s
  | _ => True

instance (x : IngestInput) (s : Db) : (a : IngestAct) → Decidable (InTime x s a)
  | .append facts => inferInstanceAs (Decidable (∀ fact ∈ facts, fact.InTime s))
  | .now
  | .readEvidence _
  | .listEvidence _
  | .listChunks ..
  | .listChunkEmbeddings ..
  | .findEmbeddingByContent ..
  | .readJob _
  | .readText ..
  | .embed ..
  | .writeBlob _ => isTrue trivial

def Newest (e : EvidenceId) (log : List Fact) (pass : Nat) : Prop :=
  (pass = 0 ∨ pass ∈ movedPasses e log) ∧ ∀ w ∈ movedPasses e log, w ≤ pass

/-- The pass only grows, no older pass replaces results of a newer one, and a job of
the newest pass finds its item on it. -/
structure NewestWins (earlier later : Db) : Prop where
  grows : ∀ e row, earlier.tables.evidence.get? e = some row →
    ∃ row', later.tables.evidence.get? e = some row' ∧ row.pass ≤ row'.pass
  kept : ∀ e, (writtenPasses e later.facts).Pairwise (· ≤ ·)
  admitted : ∀ e stage pass env n, (later.tables.evidence.get? e).isSome →
    Newest e later.facts pass → (env n : IngestInput).fault = none →
    ∃ record, ((IngestPipeline.loadForStage e stage pass).run ingestMachine env n later).1 =
      .ok record

/-- An item's row is on the newest pass, and the results came in order. -/
structure OnNewest (db : Db) : Prop where
  pass : ∀ e row, db.tables.evidence.get? e = some row → ∃ pass ≤ u32Max,
    row.pass = integerU32 pass ∧ Newest e db.facts pass ∧ ∀ w ∈ writtenPasses e db.facts, w ≤ pass
  none : ∀ e, db.tables.evidence.get? e = none →
    movedPasses e db.facts = [] ∧ writtenPasses e db.facts = []
  kept : ∀ e, (writtenPasses e db.facts).Pairwise (· ≤ ·)

section
variable {db db' s t : Db} {e : EvidenceId}

theorem empty_onNewest : OnNewest Db.empty where
  pass _ _ h := by cases h
  none _ _ := ⟨rfl,rfl⟩
  kept _ := List.Pairwise.nil

theorem writtenPasses_append (log : List Fact) (fact : Fact) :
    writtenPasses e (log ++ [fact]) = writtenPasses e log ++ (fact.writes e).toList := by
  rw [writtenPasses,filterMap_append]
  cases h : fact.writes e with
  | none | some => simp [h,writtenPasses]

theorem movedPasses_append (log : List Fact) (fact : Fact) :
    movedPasses e (log ++ [fact]) = movedPasses e log ++ (fact.moves e).toList := by
  rw [movedPasses,filterMap_append]
  cases h : fact.moves e with
  | none | some => simp [h,movedPasses]

theorem evidenceUpdate_pass {seq : Nat} {event : IngestEvent}
    {f : EvidenceRow → EvidenceRow} (h : evidenceUpdate seq event = some (e,f))
    (row : EvidenceRow) :
    (f row).pass = (((Fact.ingest event).moves e).map integerU32).getD row.pass := by
  cases event with
  | stageFinished body =>
    cases h
    simp only [Fact.moves,if_true,Option.map_some,Option.getD_some]
    cases body.output <;> rfl
  | stageFailed body =>
    rw [evidenceUpdate] at h
    split_ifs at h
    cases h
    rfl
  | reprocessRequested body =>
    cases h
    simp [Fact.moves]
  | _ => cases h

theorem evidenceUpdate_of {seq : Nat} {event : IngestEvent} {pass : Nat}
    (h : (Fact.ingest event).moves e = some pass ∨ (Fact.ingest event).writes e = some pass) :
    ∃ f, evidenceUpdate seq event = some (e,f) := by
  cases event with
  | stageFinished body | reprocessRequested body =>
    have he : body.evidence_id = e := by
      by_contra hne
      simp [Fact.moves,Fact.writes,hne] at h
    exact ⟨_,by rw [evidenceUpdate,he]⟩
  | stageFailed body =>
    have he : body.evidence_id = e ∧ body.disposition.isDead = true := by
      by_contra hne
      simp [Fact.moves,Fact.writes,hne] at h
    exact ⟨_,by rw [evidenceUpdate,if_pos he.2,he.1]⟩
  | _ => rcases h with h | h <;> cases h

variable {ts_ms : Nat} {fact : Fact}

theorem appendOne_pass {row' : EvidenceRow} (h : db.appendOne ts_ms fact = .ok db')
    (hrow' : db'.tables.evidence.get? e = some row') :
    (db.tables.evidence.get? e = none ∧ row'.pass = integerU32 0) ∨
      ∃ row, db.tables.evidence.get? e = some row ∧
        row'.pass = ((fact.moves e).map integerU32).getD row.pass := by
  cases fact with
  | job event =>
    rw [(Db.appendOne_job h).2.1] at hrow'
    exact Or.inr ⟨row',hrow',rfl⟩
  | ingest event =>
    have happly := (EvidenceTables.apply_ok (Db.appendOne_ingest h).1).1
    have hnot : ∀ {seq : Nat} {k : EvidenceId} {f : EvidenceRow → EvidenceRow},
        evidenceUpdate seq event = some (k,f) → e ≠ k → (Fact.ingest event).moves e = none := by
      intro seq k f hf hne
      refine Option.eq_none_iff_forall_ne_some.mpr ?_
      intro pass hmoves
      obtain ⟨g,hg⟩ := @evidenceUpdate_of _ seq _ _ (Or.inl hmoves)
      rw [hf] at hg
      cases hg
      exact hne rfl
    rcases applyEvidence_cases happly with ⟨body,rfl,hnone,ht⟩ | ⟨k,f,row,hf,hrow,ht⟩ |
      ⟨hf,-,ht⟩
    · rw [ht] at hrow'
      by_cases he : e = body.evidence_id
      · subst he
        rw [Table.get?_put_self] at hrow'
        cases hrow'
        exact Or.inl ⟨hnone,rfl⟩
      · rw [Table.get?_put_ne _ _ he] at hrow'
        exact Or.inr ⟨row',hrow',rfl⟩
    · rw [ht] at hrow'
      by_cases he : e = k
      · subst he
        rw [Table.get?_put_self] at hrow'
        cases hrow'
        exact Or.inr ⟨row,hrow,evidenceUpdate_pass hf row⟩
      · rw [Table.get?_put_ne _ _ he] at hrow'
        exact Or.inr ⟨row',hrow',by rw [hnot hf he]; rfl⟩
    · rw [ht] at hrow'
      refine Or.inr ⟨row',hrow',?_⟩
      have hmoves : (Fact.ingest event).moves e = none := by
        refine Option.eq_none_iff_forall_ne_some.mpr ?_
        intro pass hmoves
        obtain ⟨g,hg⟩ := evidenceUpdate_of (Or.inl hmoves)
        rw [hf] at hg
        cases hg
      rw [hmoves]
      rfl

variable {pass : Nat}

theorem appendOne_there (h : db.appendOne ts_ms fact = .ok db')
    (hfact : fact.moves e = some pass ∨ fact.writes e = some pass) :
    (db.tables.evidence.get? e).isSome := by
  cases fact with
  | job event => rcases hfact with hfact | hfact <;> cases hfact
  | ingest event =>
    have happly := (EvidenceTables.apply_ok (Db.appendOne_ingest h).1).1
    obtain ⟨g,hg⟩ := @evidenceUpdate_of _ (db.queue.head+1) _ _ hfact
    rcases applyEvidence_cases happly with ⟨body,rfl,-,-⟩ | ⟨k,f,row,hf,hrow,-⟩ | ⟨hf,-,-⟩
    · rcases hfact with hfact | hfact <;> cases hfact
    · rw [hf] at hg
      cases hg
      rw [hrow]
      rfl
    · rw [hf] at hg
      cases hg

theorem appendOne_none (h : db.appendOne ts_ms fact = .ok db')
    (hnone : db.tables.evidence.get? e = none) : fact.moves e = none ∧ fact.writes e = none := by
  refine ⟨Option.eq_none_iff_forall_ne_some.mpr ?_,Option.eq_none_iff_forall_ne_some.mpr ?_⟩
  · intro pass hmoves
    have hthere := appendOne_there h (Or.inl hmoves)
    rw [hnone] at hthere
    cases hthere
  · intro pass hwrites
    have hthere := appendOne_there h (Or.inr hwrites)
    rw [hnone] at hthere
    cases hthere

variable {row : EvidenceRow}

theorem Fact.InTime.moved (h : fact.InTime db) (hmoves : fact.moves e = some pass)
    (hrow : db.tables.evidence.get? e = some row) : row.pass ≤ integerU32 pass := by
  cases fact with
  | job event => cases hmoves
  | ingest event =>
    cases event with
    | stageFinished body =>
      simp only [Fact.moves] at hmoves
      split_ifs at hmoves with he
      cases hmoves
      rw [Fact.InTime,OnPass,he,hrow] at h
      exact h.le
    | reprocessRequested body =>
      simp only [Fact.moves] at hmoves
      split_ifs at hmoves with he
      cases hmoves
      rw [Fact.InTime,NotBeyond,he,hrow] at h
      exact h
    | _ => cases hmoves

theorem Fact.InTime.written (h : fact.InTime db) (hwrites : fact.writes e = some pass)
    (hrow : db.tables.evidence.get? e = some row) : row.pass = integerU32 pass := by
  cases fact with
  | job event => cases hwrites
  | ingest event =>
    cases event with
    | stageFinished body =>
      simp only [Fact.writes] at hwrites
      split_ifs at hwrites with he
      cases hwrites
      rw [Fact.InTime,OnPass,he,hrow] at h
      exact h
    | stageFailed body =>
      simp only [Fact.writes] at hwrites
      split_ifs at hwrites with he
      cases hwrites
      rw [Fact.InTime,OnPass,he.1,hrow] at h
      exact h he.2
    | _ => cases hwrites

theorem Fact.Quiet.inTime (h : fact.Quiet) (s : Db) : fact.InTime s := by
  cases fact with
  | job event => trivial
  | ingest event => cases event <;> trivial

theorem Fact.Quiet.moves (h : fact.Quiet) (e : EvidenceId) : fact.moves e = none := by
  cases fact with
  | job event => rfl
  | ingest event => cases event <;> first | rfl | exact h.elim

theorem written_newest (hin : fact.InTime db) (hrow : db.tables.evidence.get? e = some row)
    {w : Nat} (hpass : row.pass = integerU32 pass) (hwrites : fact.writes e = some w) : w = pass :=
  (Int.ofNat_inj.mp (hpass.symm.trans (hin.written hwrites hrow))).symm

theorem appendOne_onNewest (h : OnNewest db) (ha : db.appendOne ts_ms fact = .ok db')
    (hin : fact.InTime db) (hbound : ∀ e pass, fact.moves e = some pass → pass ≤ u32Max) :
    OnNewest db' := by
  have hfacts := Db.appendOne_facts ha
  refine ⟨?_,?_,?_⟩
  · intro e row' hrow'
    simp only [hfacts,Newest,movedPasses_append,writtenPasses_append]
    rcases appendOne_pass ha hrow' with ⟨hnone,hpass⟩ | ⟨row,hrow,hpass⟩
    · obtain ⟨hmoved,hwritten⟩ := h.none e hnone
      obtain ⟨hmoves,hwrites⟩ := appendOne_none ha hnone
      refine ⟨0,by decide,hpass,⟨Or.inl rfl,?_⟩,?_⟩
      · simp [hmoved,hmoves]
      · simp [hwritten,hwrites]
    · obtain ⟨pass,hle,hrp,hnewest,hwritten⟩ := h.pass e row hrow
      have hw : ∀ w ∈ writtenPasses e db.facts ++ (fact.writes e).toList, w ≤ pass := by
        intro w hw
        rcases mem_append.mp hw with hw | hw
        · exact hwritten w hw
        · exact (written_newest hin hrow hrp (Option.mem_toList.mp hw)).le
      cases hmoves : fact.moves e with
      | none =>
        rw [hmoves] at hpass
        refine ⟨pass,hle,hpass.trans hrp,?_,hw⟩
        rw [Option.toList_none,append_nil]
        exact hnewest
      | some v =>
        have hpv : pass ≤ v := by
          have hbeyond := hin.moved hmoves hrow
          rw [hrp] at hbeyond
          exact Int.ofNat_le.mp hbeyond
        rw [hmoves] at hpass
        refine ⟨v,hbound e v hmoves,hpass,⟨Or.inr (by simp),?_⟩,fun w hmem => (hw w hmem).trans hpv⟩
        intro w hmem
        rcases mem_append.mp hmem with hmem | hmem
        · exact (hnewest.2 w hmem).trans hpv
        · exact (mem_singleton.mp hmem).le
  · intro e hnone'
    have hnone : db.tables.evidence.get? e = none := by
      cases hrow : db.tables.evidence.get? e with
      | none => rfl
      | some row =>
        obtain ⟨row',hrow',-⟩ := (appendOne_dbKept ha).items e row hrow
        rw [hnone'] at hrow'
        cases hrow'
    obtain ⟨hmoved,hwritten⟩ := h.none e hnone
    obtain ⟨hmoves,hwrites⟩ := appendOne_none ha hnone
    rw [hfacts,movedPasses_append,writtenPasses_append,hmoved,hwritten,hmoves,hwrites]
    exact ⟨rfl,rfl⟩
  · intro e
    rw [hfacts,writtenPasses_append,pairwise_append]
    refine ⟨h.kept e,by cases fact.writes e <;> simp,?_⟩
    intro v hv w hw
    have hwrites := Option.mem_toList.mp hw
    obtain ⟨row,hrow⟩ := Option.isSome_iff_exists.mp (appendOne_there ha (Or.inr hwrites))
    obtain ⟨pass,-,hrp,-,hwritten⟩ := h.pass e row hrow
    rw [written_newest hin hrow hrp hwrites]
    exact hwritten v hv

variable {facts : List Fact}

theorem quiet_onNewest (h : OnNewest db) (hquiet : ∀ fact ∈ facts, fact.Quiet)
    (ha : db.appendBatch ts_ms facts = .ok db') : OnNewest db' := by
  induction facts generalizing db with
  | nil =>
    cases ha
    exact h
  | cons fact facts ih =>
    obtain ⟨mid,hone,hrest⟩ := Db.appendBatch_cons ha
    have hq := hquiet fact (by simp)
    refine ih (appendOne_onNewest h hone (hq.inTime db) ?_)
      (fun f hf => hquiet f (mem_cons_of_mem _ hf)) hrest
    intro e pass hmoves
    rw [hq.moves e] at hmoves
    cases hmoves

theorem cons_onNewest (h : OnNewest db) (ha : db.appendBatch ts_ms (fact :: facts) = .ok db')
    (hin : fact.InTime db) (hbound : ∀ e pass, fact.moves e = some pass → pass ≤ u32Max)
    (hquiet : ∀ fact ∈ facts, fact.Quiet) : OnNewest db' := by
  obtain ⟨mid,hone,hrest⟩ := Db.appendBatch_cons ha
  exact quiet_onNewest (appendOne_onNewest h hone hin hbound) hquiet hrest

variable {p : IngestPipeline}

theorem batch_onNewest {project_id : ProjectId} {x : IngestInput}
    (h : OnNewest s) (hb : PipelineBatch p project_id s facts) (hin : InTime x s (.append facts))
    (ha : s.appendBatch x.now_ms facts = .ok t) : OnNewest t := by
  cases hb with
  | submitted body queued _ hqueued =>
    exact cons_onNewest h ha trivial (fun _ _ hm => by cases hm) hqueued.quiet
  | started body =>
    exact cons_onNewest h ha trivial (fun _ _ hm => by cases hm) (by simp)
  | finished body row queued hpass _ _ hqueued =>
    refine cons_onNewest h ha (hin _ (by simp)) ?_ hqueued.quiet
    intro e pass hm
    simp only [Fact.moves] at hm
    split_ifs at hm
    cases hm
    exact hpass
  | failed body =>
    exact cons_onNewest h ha (hin _ (by simp)) (fun _ _ hm => by cases hm) (by simp)
  | rewound body queued hpass hqueued =>
    refine cons_onNewest h ha (hin _ (by simp)) ?_ hqueued.quiet
    intro e pass hm
    simp only [Fact.moves] at hm
    split_ifs at hm
    cases hm
    exact hpass
  | emitted ctx _ hfacts => exact quiet_onNewest h (fun f hf => (hfacts f hf).quiet) ha
  | outside batch => exact quiet_onNewest h (fun f hf => (batch.outside f hf).quiet) ha

theorem Newest.unique {log : List Fact} {a b : Nat} (ha : Newest e log a)
    (hb : Newest e log b) : a = b := by
  have hle : ∀ {a b : Nat}, Newest e log a → Newest e log b → a ≤ b := by
    intro a b ha hb
    rcases ha.1 with rfl | hmem
    · exact Nat.zero_le _
    · exact hb.2 a hmem
  exact Nat.le_antisymm (hle ha hb) (hle hb ha)

theorem Newest.grows {log later : List Fact} (hlog : log <+: later) {a b : Nat}
    (ha : Newest e log a) (hb : Newest e later b) : a ≤ b := by
  rcases ha.1 with rfl | hmem
  · exact Nat.zero_le _
  · exact hb.2 a ((hlog.filterMap _).subset hmem)

theorem onNewest_loads (h : OnNewest db) {stage : IngestStage} {env : Nat → IngestInput} {n : Nat}
    (hthere : (db.tables.evidence.get? e).isSome) (hnewest : Newest e db.facts pass)
    (hfault : (env n).fault = none) :
    ∃ record, ((IngestPipeline.loadForStage e stage pass).run ingestMachine env n db).1 =
      .ok record := by
  obtain ⟨row,hrow⟩ := Option.isSome_iff_exists.mp hthere
  obtain ⟨on,hle,hpass,hon,-⟩ := h.pass e row hrow
  obtain rfl := hon.unique hnewest
  have hread : (env n).read (db.tables.readEvidence e) = .ok (some (row.intoRecord e)) := by
    rw [IngestInput.read,hfault,EvidenceTables.readEvidence,hrow]
    rfl
  have hrecord : (row.intoRecord e).pass = on := by
    rw [← countU32_integerU32 hle,← hpass]
    rfl
  refine ⟨row.intoRecord e,?_⟩
  have hstep : ingestMachine.step (env n) db (.readEvidence e) =
      ((env n).read (db.tables.readEvidence e),db) := rfl
  rw [IngestPipeline.loadForStage,Prog.run,hstep,hread]
  simp [hrecord]

theorem step_facts (i : IngestInput) (db : Db) (a : IngestAct) :
    db.facts <+: (ingestMachine.step i db a).2.facts := by
  cases a with
  | append facts =>
    rcases Db.append_cases db i facts with ⟨db',ha,hb⟩ | ⟨e,ha⟩
    · simp only [ingestMachine,ha]
      rw [Db.appendBatch_facts hb]
      exact prefix_append _ _
    · simp only [ingestMachine,ha]
      exact prefix_rfl
  | _ => exact prefix_rfl

theorem after_kept (project_id : ProjectId) (c : Pipelines p)
    (ts : List (PipelineTurn p)) : DbKept c.store (c.after project_id ts).store ∧
      c.store.facts <+: (c.after project_id ts).store.facts := by
  let R (s t : Db) : Prop := DbKept s t ∧ s.facts <+: t.facts
  have hstep : ∀ x s a, R s (ingestMachine.step x s a).2 :=
    fun x s a => ⟨step_dbKept x s a,step_facts x s a⟩
  exact @Pool.turns_related _ _ _ _ _ _ ingestMachine (PipelineOp.code p project_id) R
    (fun s => ⟨dbKept_refl s,prefix_rfl⟩)
    (fun _ _ _ h h' => ⟨h.1.trans h'.1,h.2.trans h'.2⟩) hstep c ts

end

/-- Where every completion, dead letter and reprocess of a run comes in time,
the newest pass of every item wins. -/
theorem newest_pass_wins (p : IngestPipeline) (project_id : ProjectId)
    (before after : List (PipelineTurn p)) (h : Pool.Along ingestMachine
      (PipelineOp.code p project_id) InTime Pipelines.idle (before ++ after)) :
    NewestWins (Pipelines.idle.after project_id before).store
      (Pipelines.idle.after project_id (before ++ after)).store := by
  have hkeeps : ∀ {ts : List (PipelineTurn p)}, Pool.Along ingestMachine
      (PipelineOp.code p project_id) InTime Pipelines.idle ts →
      OnNewest (Pipelines.idle.after project_id ts).store :=
    fun hts => pipeline_keeps (fun _ _ _ _ hs hb hin ha => batch_onNewest hs hb hin ha) hts
      empty_onNewest
  have hearlier := hkeeps (Pool.along_append h).1
  have hlater := hkeeps h
  refine ⟨?_,hlater.kept,fun e stage pass env n => onNewest_loads hlater⟩
  intro e row hrow
  obtain ⟨kept,facts⟩ :=
    after_kept project_id (Pipelines.idle.after project_id before : Pipelines p) after
  rw [Pipelines.after,Pipelines.after,← Pool.turns_append] at kept facts
  obtain ⟨row',hrow',-⟩ := kept.items e row hrow
  obtain ⟨a,-,ha,hanew,-⟩ := hearlier.pass e row hrow
  obtain ⟨b,-,hb,hbnew,-⟩ := hlater.pass e row' hrow'
  refine ⟨row',hrow',?_⟩
  rw [ha,hb]
  exact Int.ofNat_le.mpr (hanew.grows facts hbnew)

def renormalized : List (PipelineTurn notePipeline) :=
  noteSubmitted ++ turnsOf 1 (noteNormalizing 0) 6 ++ turnsOf 3 (noteRewound .normalize) 3

def renormalizing : List (PipelineTurn notePipeline) :=
  turnsOf 2 (noteNormalizing 1) 6 ++ turnsOf 2 (noteChunking 1) 7

theorem note_newest_pass_wins :
    writtenPasses noteId (Pipelines.idle.after ⟨0⟩ (renormalized ++ renormalizing)).store.facts =
        [0,1,1] ∧
      NewestWins (Pipelines.idle.after ⟨0⟩ renormalized).store
        (Pipelines.idle.after ⟨0⟩ (renormalized ++ renormalizing)).store := by
  have hrun : writtenPasses noteId
        (Pipelines.idle.after ⟨0⟩ (renormalized ++ renormalizing)).store.facts = [0,1,1] ∧
      Pool.Along ingestMachine (PipelineOp.code notePipeline ⟨0⟩) InTime Pipelines.idle
        (renormalized ++ renormalizing) := by decide +kernel
  exact ⟨hrun.1,newest_pass_wins notePipeline ⟨0⟩ renormalized renormalizing hrun.2⟩

def overtaken : List (PipelineTurn notePipeline) :=
  noteSubmitted ++ turnsOf 1 (noteNormalizing 0) 2 ++ turnsOf 3 (noteRewound .normalize) 3 ++
    turnsOf 2 (noteNormalizing 1) 6

def late : List (PipelineTurn notePipeline) := List.replicate 4 (.act 1 {})

/-- The completion of pass 0 puts the item back on it, over the output of pass
1, and the CHUNK job of pass 1 is refused as stale. -/
theorem late_pass_wins :
    writtenPasses noteId (Pipelines.idle.after ⟨0⟩ (overtaken ++ late)).store.facts = [1,0] ∧
      ((IngestPipeline.loadForStage noteId .chunk 1).run ingestMachine (fun _ => {}) 0
        (Pipelines.idle.after ⟨0⟩ (overtaken ++ late)).store).1 =
          .error (.stalePass .chunk 1 0) ∧
      ¬NewestWins (Pipelines.idle.after ⟨0⟩ overtaken).store
        (Pipelines.idle.after ⟨0⟩ (overtaken ++ late)).store := by
  have hwritten : writtenPasses noteId (Pipelines.idle.after ⟨0⟩ (overtaken ++ late)).store.facts =
      [1,0] := by decide +kernel
  refine ⟨hwritten,by decide +kernel,?_⟩
  intro h
  have hkept := h.kept noteId
  rw [hwritten] at hkept
  exact absurd hkept (by decide)

end ProjectOS.Ingest
