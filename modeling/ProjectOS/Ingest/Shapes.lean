import ProjectOS.Ingest.Batches

/-! What a listing of an item's chunks shows while passes come and go. A chunk
produced again goes onto its own row, and takes the row to the pass at work. -/

namespace ProjectOS.Ingest
open Lib Domain List

def Fact.chunkedUnder (e : EvidenceId) : Fact → Option Nat
  | .ingest (.stageFinished body) =>
    if body.evidence_id = e ∧ body.stage = .chunk then some body.pass else none
  | _ => none

def chunkedPass (e : EvidenceId) (log : List Fact) : Option Nat :=
  (log.filterMap (Fact.chunkedUnder e)).getLast?

def Fact.addChunks (e : EvidenceId) (pass : Nat) (t : Table ChunkId ChunkFact) :
    Fact → Table ChunkId ChunkFact
  | .ingest (.evidenceChunked body) =>
    if body.evidence_id = e ∧ body.pass = pass then
      body.chunks.foldl (fun t chunk => t.put chunk.chunk_id chunk) t
    else t
  | _ => t

def passChunks (e : EvidenceId) (pass : Nat) (log : List Fact) : Table ChunkId ChunkFact :=
  log.foldl (fun t fact => fact.addChunks e pass t) Table.empty

def factBefore (a b : ChunkId × ChunkFact) : Prop :=
  a.2.ordinal < b.2.ordinal ∨ (a.2.ordinal = b.2.ordinal ∧ a.1 ≤ b.1)

instance (a b : ChunkId × ChunkFact) : Decidable (factBefore a b) :=
  inferInstanceAs (Decidable (_ ∨ _))

def completeShape (e : EvidenceId) (log : List Fact) : List ChunkRecord :=
  match chunkedPass e log with
  | none => []
  | some pass => ((passChunks e pass log).rows.insertionSort factBefore).map fun r =>
      (chunkRow 0 e pass r.2).intoRecord r.1

def ListsShape (db : Db) (e : EvidenceId) (row_count_max : Nat) : Prop :=
  (completeShape e db.facts).length ≤ min row_count_max evidenceListRowCountMax →
    db.tables.listChunks e none row_count_max = completeShape e db.facts

instance (db : Db) (e : EvidenceId) (row_count_max : Nat) :
    Decidable (ListsShape db e row_count_max) := inferInstanceAs (Decidable (_ → _))

def chunkPass (db : Db) (e : EvidenceId) : Option Int :=
  (db.tables.evidence.get? e).bind EvidenceRow.chunk_pass

def Stands (db : Db) (e : EvidenceId) (pass : Nat) : Prop :=
  ∀ r ∈ (passChunks e pass db.facts).rows,
    (db.tables.chunks.get? r.1).any (fun row =>
      row.evidence_id = e && row.pass = integerU32 pass) = true

instance (db : Db) (e : EvidenceId) (pass : Nat) : Decidable (Stands db e pass) :=
  inferInstanceAs (Decidable (∀ r ∈ _,_))

/-- Takes no chunk from a finished pass, and finishes none that lost one. -/
def Fact.KeepsShapes (s : Db) : Fact → Prop
  | .ingest (.evidenceChunked body) =>
    ∀ chunk ∈ body.chunks, ∀ row ∈ s.tables.chunks.get? chunk.chunk_id,
      chunkPass s row.evidence_id = some row.pass →
        row.evidence_id = body.evidence_id ∧ row.pass = integerU32 body.pass
  | .ingest (.stageFinished body) =>
    body.stage = .chunk → Stands s body.evidence_id body.pass
  | _ => True

instance (s : Db) : (fact : Fact) → Decidable (fact.KeepsShapes s)
  | .ingest (.evidenceChunked _) => inferInstanceAs (Decidable (∀ chunk ∈ _,_))
  | .ingest (.stageFinished _) => inferInstanceAs (Decidable (_ → _))
  | .ingest (.stageFailed _)
  | .ingest (.reprocessRequested _)
  | .ingest (.evidenceAdded _)
  | .ingest (.stageStarted _)
  | .ingest (.evidenceTranscribed _)
  | .ingest (.evidenceEmbedded _)
  | .job _ => isTrue trivial

def ShapesKept (ts_ms : Nat) : Db → List Fact → Prop
  | _, [] => True
  | s, fact :: facts => fact.KeepsShapes s ∧
      ∀ t ∈ (s.appendOne ts_ms fact).toOption, ShapesKept ts_ms t facts

instance shapesKeptDecidable (ts_ms : Nat) :
    (s : Db) → (facts : List Fact) → Decidable (ShapesKept ts_ms s facts)
  | _, [] => isTrue trivial
  | _, _ :: facts =>
    have : ∀ t, Decidable (ShapesKept ts_ms t facts) := fun t => shapesKeptDecidable ts_ms t facts
    inferInstanceAs (Decidable (_ ∧ _))

def KeepsShapes (x : IngestInput) (s : Db) : IngestAct → Prop
  | .append facts => ShapesKept x.now_ms s facts
  | _ => True

instance (x : IngestInput) (s : Db) : (a : IngestAct) → Decidable (KeepsShapes x s a)
  | .append facts => inferInstanceAs (Decidable (ShapesKept x.now_ms s facts))
  | .now
  | .readEvidence _
  | .listEvidence _
  | .listChunks ..
  | .listChunkEmbeddings ..
  | .findEmbeddingByContent ..
  | .readJob _
  | .readText ..
  | .embed ..
  | .writeBlob _ => isTrue trivial

/-- The items show the last pass that is through, and every chunk row is a chunk of
the log. -/
structure Shapes (db : Db) : Prop where
  current : ∀ e, chunkPass db e = (chunkedPass e db.facts).map integerU32
  known : ∀ id row, db.tables.chunks.get? id = some row → ∃ seq pass chunk,
    row = chunkRow seq row.evidence_id pass chunk ∧
      (passChunks row.evidence_id pass db.facts).get? id = some chunk
  whole : ∀ e pass, chunkedPass e db.facts = some pass → Stands db e pass

section
variable {db db' : Db} {e : EvidenceId} {pass : Nat}

theorem empty_shapes : Shapes Db.empty where
  current _ := rfl
  known _ _ h := by cases h
  whole _ _ h := by cases h

theorem chunkedPass_append (log : List Fact) (fact : Fact) :
    chunkedPass e (log ++ [fact]) = (fact.chunkedUnder e).or (chunkedPass e log) := by
  rw [chunkedPass,filterMap_append,List.getLast?_append]
  cases h : fact.chunkedUnder e with
  | none => simp [h,chunkedPass]
  | some w => simp [h]

theorem passChunks_append (log : List Fact) (fact : Fact) :
    passChunks e pass (log ++ [fact]) = fact.addChunks e pass (passChunks e pass log) := by
  rw [passChunks,foldl_append]
  rfl

theorem Stands.row (h : Stands db e pass) {id : ChunkId} {chunk : ChunkFact}
    (hchunk : (passChunks e pass db.facts).get? id = some chunk) :
    ∃ row, db.tables.chunks.get? id = some row ∧ row.evidence_id = e ∧
      row.pass = integerU32 pass := by
  have hany := h (id,chunk) ((passChunks e pass db.facts).mem_rows.mpr hchunk)
  obtain ⟨row,hrow,hany⟩ := Option.any_eq_true _ _ |>.mp hany
  simp only [Bool.and_eq_true,decide_eq_true_eq] at hany
  exact ⟨row,hrow,hany.1,hany.2⟩

theorem stands_of_rows (h : ∀ id chunk, (passChunks e pass db.facts).get? id = some chunk →
    ∃ row, db.tables.chunks.get? id = some row ∧ row.evidence_id = e ∧
      row.pass = integerU32 pass) : Stands db e pass := by
  intro r hr
  obtain ⟨row,hrow,he,hpass⟩ := h r.1 r.2 ((passChunks e pass db.facts).mem_rows.mp hr)
  simp [hrow,he,hpass]

theorem evidenceUpdate_chunk_pass {seq : Nat} {event : IngestEvent}
    {f : EvidenceRow → EvidenceRow} (h : evidenceUpdate seq event = some (e,f))
    (htyped : ∀ body, event = .stageFinished body →
      (reportsChunks body.output = true ↔ body.stage = .chunk)) (row : EvidenceRow) :
    (f row).chunk_pass =
      (((Fact.ingest event).chunkedUnder e).map integerU32).or row.chunk_pass := by
  cases event with
  | stageFinished body =>
    cases h
    have hiff := htyped body rfl
    cases hout : body.output with
    | chunked count =>
      have hstage : body.stage = .chunk := hiff.mp (by rw [hout]; rfl)
      simp [Fact.chunkedUnder,hstage,outputAssignments]
    | normalized | none =>
      rw [hout] at hiff
      have hstage : body.stage ≠ .chunk := fun hs => absurd (hiff.mpr hs) (by simp [reportsChunks])
      simp [Fact.chunkedUnder,hstage,outputAssignments]
  | stageFailed body =>
    rw [evidenceUpdate] at h
    split_ifs at h
    cases h
    rfl
  | reprocessRequested body =>
    cases h
    rfl
  | _ => cases h

theorem chunkedUnder_update {seq : Nat} {event : IngestEvent} {pass : Nat}
    (h : (Fact.ingest event).chunkedUnder e = some pass) :
    ∃ f, evidenceUpdate seq event = some (e,f) := by
  cases event with
  | stageFinished body =>
    simp only [Fact.chunkedUnder] at h
    split_ifs at h with he
    exact ⟨_,by rw [evidenceUpdate,he.1]⟩
  | _ => cases h

variable {ts_ms : Nat} {fact : Fact}

theorem appendOne_chunkPass (h : db.appendOne ts_ms fact = .ok db')
    (htyped : ∀ body, fact = .ingest (.stageFinished body) →
      (reportsChunks body.output = true ↔ body.stage = .chunk)) :
    chunkPass db' e = ((fact.chunkedUnder e).map integerU32).or (chunkPass db e) := by
  cases fact with
  | job event =>
    rw [chunkPass,(Db.appendOne_job h).2.1]
    rfl
  | ingest event =>
    have happly := (EvidenceTables.apply_ok (Db.appendOne_ingest h).1).1
    rw [chunkPass,chunkPass]
    by_cases hfact : (Fact.ingest event).chunkedUnder e = none
    · rw [hfact]
      rcases applyEvidence_cases happly with ⟨body,rfl,hnone,ht⟩ | ⟨k,f,row,hf,hrow,ht⟩ |
        ⟨-,-,ht⟩
      · rw [ht]
        by_cases he : e = body.evidence_id
        · subst he
          rw [Table.get?_put_self,hnone]
          rfl
        · rw [Table.get?_put_ne _ _ he]
          rfl
      · rw [ht]
        by_cases he : e = k
        · subst he
          rw [Table.get?_put_self,hrow,Option.bind_some,Option.bind_some,
            evidenceUpdate_chunk_pass hf (fun body hb => htyped body (by rw [hb])),hfact]
        · rw [Table.get?_put_ne _ _ he]
          rfl
      · rw [ht]
        rfl
    · obtain ⟨pass,hpass⟩ := Option.ne_none_iff_exists'.mp hfact
      obtain ⟨g,hg⟩ := @chunkedUnder_update _ (db.queue.head+1) _ _ hpass
      rcases applyEvidence_cases happly with ⟨body,rfl,-,-⟩ | ⟨k,f,row,hf,hrow,ht⟩ | ⟨hf,-,-⟩
      · cases hpass
      · rw [hg] at hf
        cases hf
        rw [ht,Table.get?_put_self,Option.bind_some,
          evidenceUpdate_chunk_pass hg (fun body hb => htyped body (by rw [hb])),hrow]
        rfl
      · rw [hg] at hf
        cases hf

theorem appendOne_chunks (h : db.appendOne ts_ms fact = .ok db')
    (hfact : ∀ body, fact ≠ .ingest (.evidenceChunked body)) :
    db'.tables.chunks = db.tables.chunks ∧
      ∀ e pass, passChunks e pass db'.facts = passChunks e pass db.facts := by
  have hlog : ∀ e pass, passChunks e pass db'.facts = passChunks e pass db.facts := by
    intro e pass
    rw [Db.appendOne_facts h,passChunks_append]
    cases fact with
    | job event => rfl
    | ingest event =>
      cases event with
      | evidenceChunked body => exact absurd rfl (hfact body)
      | _ => rfl
  cases fact with
  | job event => exact ⟨by rw [(Db.appendOne_job h).2.1],hlog⟩
  | ingest event =>
    refine ⟨?_,hlog⟩
    rw [(EvidenceTables.apply_ok (Db.appendOne_ingest h).1).2.2.1]
    cases event with
    | evidenceChunked body => exact absurd rfl (hfact body)
    | _ => rfl

variable {body : EvidenceChunked}

section
variable (h : db.appendOne ts_ms (.ingest (.evidenceChunked body)) = .ok db')
include h

theorem appendOne_chunked
    (id : ChunkId) :
    (∃ chunk ∈ body.chunks, chunk.chunk_id = id ∧
        db'.tables.chunks.get? id =
          some (chunkRow (db.queue.head+1) body.evidence_id body.pass chunk) ∧
        (passChunks body.evidence_id body.pass db'.facts).get? id = some chunk) ∨
      (db'.tables.chunks.get? id = db.tables.chunks.get? id ∧
        ∀ e pass, (passChunks e pass db'.facts).get? id = (passChunks e pass db.facts).get? id) := by
  have hchunks : db'.tables.chunks.get? id =
      ((body.chunks.reverse.find? fun c => c.chunk_id = id).map
        (chunkRow (db.queue.head+1) body.evidence_id body.pass)).or (db.tables.chunks.get? id) := by
    rw [(EvidenceTables.apply_ok (Db.appendOne_ingest h).1).2.2.1]
    exact Table.get?_puts_last ChunkFact.chunk_id
      (chunkRow (db.queue.head+1) body.evidence_id body.pass) body.chunks db.tables.chunks id
  have hlog : ∀ e pass, (passChunks e pass db'.facts).get? id =
      if body.evidence_id = e ∧ body.pass = pass then
        (body.chunks.reverse.find? fun c => c.chunk_id = id).or
          ((passChunks e pass db.facts).get? id)
      else (passChunks e pass db.facts).get? id := by
    intro e pass
    rw [Db.appendOne_facts h,passChunks_append,Fact.addChunks]
    split_ifs
    · rw [Table.get?_puts_last ChunkFact.chunk_id (fun chunk => chunk),Option.map_id']
    · rfl
  cases hfind : body.chunks.reverse.find? fun c => c.chunk_id = id with
  | some chunk =>
    refine Or.inl ⟨chunk,?_,?_,?_,?_⟩
    · exact mem_reverse.mp (mem_of_find?_eq_some hfind)
    · simpa using List.find?_some hfind
    · rw [hchunks,hfind]
      rfl
    · rw [hlog,if_pos ⟨rfl,rfl⟩,hfind]
      rfl
  | none =>
    refine Or.inr ⟨by rw [hchunks,hfind]; rfl,?_⟩
    intro e pass
    rw [hlog,hfind]
    split_ifs <;> rfl

theorem appendOne_otherPass
    (hne : ¬(body.evidence_id = e ∧ body.pass = pass)) :
    passChunks e pass db'.facts = passChunks e pass db.facts := by
  rw [Db.appendOne_facts h,passChunks_append,Fact.addChunks,if_neg hne]

end

theorem chunked_shapes (h : Shapes db)
    (ha : db.appendOne ts_ms (.ingest (.evidenceChunked body)) = .ok db')
    (hkeeps : (Fact.ingest (.evidenceChunked body)).KeepsShapes db) : Shapes db' := by
  have hpass : ∀ e, chunkPass db' e = chunkPass db e :=
    fun e => appendOne_chunkPass ha (fun _ hb => by cases hb)
  have hdone : ∀ e, chunkedPass e db'.facts = chunkedPass e db.facts := by
    intro e
    rw [Db.appendOne_facts ha,chunkedPass_append]
    rfl
  refine ⟨fun e => by rw [hpass,hdone,h.current],?_,?_⟩
  · intro id row hrow
    rcases appendOne_chunked ha id with ⟨chunk,-,-,hput,hlog⟩ | ⟨hsame,hlog⟩
    · rw [hput] at hrow
      cases hrow
      exact ⟨_,body.pass,chunk,rfl,hlog⟩
    · rw [hsame] at hrow
      obtain ⟨seq,pass,chunk,heq,hchunk⟩ := h.known id row hrow
      exact ⟨seq,pass,chunk,heq,by rw [hlog]; exact hchunk⟩
  · intro e pass hdone'
    rw [hdone] at hdone'
    have hstands := h.whole e pass hdone'
    refine stands_of_rows ?_
    intro id chunk hchunk
    rcases appendOne_chunked ha id with ⟨c,hc,hid,hput,-⟩ | ⟨hsame,hlog⟩
    · refine ⟨_,hput,?_⟩
      by_cases hown : body.evidence_id = e ∧ body.pass = pass
      · exact ⟨hown.1,congrArg integerU32 hown.2⟩
      · -- the row was listed under this pass, and the batch may not have it
        rw [appendOne_otherPass ha hown] at hchunk
        obtain ⟨row,hrow,he,hrowpass⟩ := hstands.row hchunk
        have hlisted : chunkPass db row.evidence_id = some row.pass := by
          rw [he,h.current,hdone',hrowpass]
          rfl
        obtain ⟨hbe,hbp⟩ := hkeeps c hc row (by rw [hid]; exact hrow) hlisted
        exact absurd ⟨hbe.symm.trans he,Int.ofNat_inj.mp (hbp.symm.trans hrowpass)⟩ hown
    · rw [hlog] at hchunk
      rw [hsame]
      exact hstands.row hchunk

theorem appendOne_shapes (h : Shapes db) (ha : db.appendOne ts_ms fact = .ok db')
    (hkeeps : fact.KeepsShapes db) (htyped : ∀ body, fact = .ingest (.stageFinished body) →
      (reportsChunks body.output = true ↔ body.stage = .chunk)) : Shapes db' := by
  by_cases hfact : ∃ body, fact = .ingest (.evidenceChunked body)
  · obtain ⟨body,rfl⟩ := hfact
    exact chunked_shapes h ha hkeeps
  · obtain ⟨hchunks,hlog⟩ := appendOne_chunks ha (fun body hb => hfact ⟨body,hb⟩)
    refine ⟨?_,?_,?_⟩
    · intro e
      rw [appendOne_chunkPass ha htyped,Db.appendOne_facts ha,chunkedPass_append,h.current]
      cases fact.chunkedUnder e <;> rfl
    · intro id row hrow
      rw [hchunks] at hrow
      obtain ⟨seq,pass,chunk,heq,hchunk⟩ := h.known id row hrow
      exact ⟨seq,pass,chunk,heq,by rw [hlog]; exact hchunk⟩
    · intro e pass hdone
      have hstands : Stands db e pass := by
        rw [Db.appendOne_facts ha,chunkedPass_append,Option.or_eq_some_iff] at hdone
        rcases hdone with hnow | ⟨-,hbefore⟩
        · cases fact with
          | job event => cases hnow
          | ingest event =>
            cases event with
            | stageFinished body =>
              simp only [Fact.chunkedUnder] at hnow
              split_ifs at hnow with hbody
              cases hnow
              exact hbody.1 ▸ hkeeps hbody.2
            | _ => cases hnow
        · exact h.whole e pass hbefore
      rw [Stands,hlog,hchunks]
      exact hstands

variable {facts : List Fact}

theorem PipelineBatch.typed {p : IngestPipeline} {project_id : ProjectId} {s : Db}
    (h : PipelineBatch p project_id s facts) {body : IngestStageFinished}
    (hbody : .ingest (.stageFinished body) ∈ facts) :
    reportsChunks body.output = true ↔ body.stage = .chunk := by
  cases h with
  | finished done row queued _ _ houtput hqueued =>
    rcases mem_cons.mp hbody with heq | hmem
    · cases heq
      exact houtput
    · exact (hqueued.quiet _ hmem).elim
  | submitted added queued _ hqueued | rewound again queued _ hqueued =>
    rcases mem_cons.mp hbody with heq | hmem
    · cases heq
    · exact (hqueued.quiet _ hmem).elim
  | started | failed => cases mem_singleton.mp hbody
  | emitted ctx _ hfacts => exact (hfacts _ hbody).elim
  | outside batch => exact (batch.outside _ hbody).elim

theorem batch_shapes (h : Shapes db)
    (htyped : ∀ body, .ingest (.stageFinished body) ∈ facts →
      (reportsChunks body.output = true ↔ body.stage = .chunk))
    (hkeeps : ShapesKept ts_ms db facts) (ha : db.appendBatch ts_ms facts = .ok db') :
    Shapes db' := by
  induction facts generalizing db with
  | nil =>
    cases ha
    exact h
  | cons fact facts ih =>
    obtain ⟨mid,hone,hrest⟩ := Db.appendBatch_cons ha
    refine ih (appendOne_shapes h hone hkeeps.1 ?_) ?_ ?_ hrest
    · exact fun body hb => htyped body (by rw [hb]; simp)
    · exact fun body hb => htyped body (mem_cons_of_mem _ hb)
    · exact hkeeps.2 mid (by rw [hone]; rfl)

def timeless (row : ChunkRow) : ChunkRow := { row with created_seq := integerU64 0 }

theorem Shapes.listed (h : Shapes db) (hdone : chunkedPass e db.facts = some pass) :
    (db.tables.chunksOf e none).map (fun r => (r.1,timeless r.2)) =
      (passChunks e pass db.facts).rows.map fun r => (r.1,chunkRow 0 e pass r.2) := by
  have hcurrent : (db.tables.evidence.get? e).bind EvidenceRow.chunk_pass =
      some (integerU32 pass) := by
    have hpass := h.current e
    rw [hdone] at hpass
    exact hpass
  let mine (_ : ChunkId) (row : ChunkRow) : Bool :=
    row.evidence_id = e && some (integerU32 pass) = some row.pass
  have htable : (db.tables.chunks.keep mine).mapRows (fun _ row => timeless row) =
      (passChunks e pass db.facts).mapRows fun _ chunk => chunkRow 0 e pass chunk := by
    apply Table.ext_get?
    intro id
    rw [Table.get?_mapRows,Table.get?_mapRows,Table.get?_keep]
    cases hrow : db.tables.chunks.get? id with
    | none =>
      cases hchunk : (passChunks e pass db.facts).get? id with
      | none => rfl
      | some chunk =>
        obtain ⟨row,hthere,-⟩ := (h.whole e pass hdone).row hchunk
        rw [hrow] at hthere
        cases hthere
    | some row =>
      obtain ⟨seq,own,chunk,heq,hchunk⟩ := h.known id row hrow
      by_cases hmine : mine id row = true
      · obtain ⟨he,hp⟩ : row.evidence_id = e ∧ integerU32 pass = row.pass := by
          simpa [mine] using hmine
        have hown : own = pass := by
          rw [heq] at hp
          exact (Int.ofNat_inj.mp hp).symm
        rw [he,hown] at hchunk
        rw [Option.filter_some,if_pos hmine,hchunk]
        simp only [Option.map_some,Option.some.injEq]
        rw [heq,he,hown]
        rfl
      · rw [Option.filter_some,if_neg hmine]
        cases hchunk' : (passChunks e pass db.facts).get? id with
        | none => rfl
        | some chunk' =>
          obtain ⟨row',hthere,he,hp⟩ := (h.whole e pass hdone).row hchunk'
          rw [hrow] at hthere
          cases hthere
          exact absurd (by simp [mine,he,hp]) hmine
  have hrows := congrArg Table.rows htable
  rw [EvidenceTables.chunksOf,hcurrent]
  exact hrows

theorem Shapes.lists (h : Shapes db) (e : EvidenceId) (row_count_max : Nat) :
    ListsShape db e row_count_max := by
  intro hfit
  rw [completeShape] at hfit ⊢
  rw [EvidenceTables.listChunks]
  cases hdone : chunkedPass e db.facts with
  | none =>
    have hcurrent : (db.tables.evidence.get? e).bind EvidenceRow.chunk_pass = none := by
      have hpass := h.current e
      rw [hdone] at hpass
      exact hpass
    have hempty : db.tables.chunksOf e none = [] := by
      rw [EvidenceTables.chunksOf,hcurrent]
      simp
    rw [hempty]
    simp
  | some pass =>
    have hlisted := h.listed hdone
    rw [hdone] at hfit
    simp only [length_map,length_insertionSort] at hfit
    have hlength : (db.tables.chunksOf e none).length = (passChunks e pass db.facts).rows.length := by
      simpa using congrArg List.length hlisted
    rw [take_of_length_le (by rw [length_insertionSort,hlength]; exact hfit)]
    have hrecords : ∀ l : List (ChunkId × ChunkRow), l.map (fun r => r.2.intoRecord r.1) =
        (l.map fun r => (r.1,timeless r.2)).map fun r => r.2.intoRecord r.1 := by
      intro l
      rw [map_map]
      rfl
    have hread : ∀ a b : ChunkId × ChunkFact, factBefore a b ↔ EvidenceTables.chunkBefore
        (a.1,chunkRow 0 e pass a.2) (b.1,chunkRow 0 e pass b.2) := by
      intro a b
      simp [factBefore,EvidenceTables.chunkBefore,chunkRow,integerU32]
    have hsorted := map_insertionSort EvidenceTables.chunkBefore EvidenceTables.chunkBefore
      (fun r => (r.1,timeless r.2)) (db.tables.chunksOf e none) (fun _ _ _ _ => Iff.rfl)
    rw [hrecords,hsorted,hlisted,← map_insertionSort factBefore EvidenceTables.chunkBefore _ _
      (fun a _ b _ => hread a b),map_map]
    rfl

end
/-- Where no batch of chunks takes a listed row from another item or pass, and
CHUNK is completed while its chunks stand, a listing is the complete chunk set
of the last pass that is through, at any point of the run. -/
theorem chunks_listed_whole (p : IngestPipeline) (project_id : ProjectId)
    (ts : List (PipelineTurn p)) (h : Pool.Along ingestMachine (PipelineOp.code p project_id)
      KeepsShapes Pipelines.idle ts) (e : EvidenceId) (row_count_max : Nat) :
    ListsShape (Pipelines.idle.after project_id ts).store e row_count_max := by
  have hshapes : Shapes (Pipelines.idle.after project_id ts).store :=
    pipeline_keeps (fun _ _ _ _ hs hb hgiven ha =>
      batch_shapes hs (fun _ hbody => hb.typed hbody) hgiven ha) h empty_shapes
  exact hshapes.lists e row_count_max

def noteChunked : List (PipelineTurn notePipeline) :=
  noteSubmitted ++ turnsOf 1 (noteNormalizing 0) 6 ++ turnsOf 2 (noteChunking 0) 4 ++
    turnsOf 2 (noteChunking 0) 7

theorem note_listed_whole :
    (((Pipelines.idle.after ⟨0⟩ noteChunked).store.tables.listChunks noteId none 500).map
        fun r => (r.chunk_id,r.pass)) = [(noteAlpha.chunk_id,0),(noteBravo.chunk_id,0)] ∧
      ListsShape (Pipelines.idle.after ⟨0⟩ noteChunked).store noteId 500 := by
  have hrun : (((Pipelines.idle.after ⟨0⟩ noteChunked).store.tables.listChunks noteId none 500).map
        fun r => (r.chunk_id,r.pass)) = [(noteAlpha.chunk_id,0),(noteBravo.chunk_id,0)] ∧
      Pool.Along ingestMachine (PipelineOp.code notePipeline ⟨0⟩) KeepsShapes Pipelines.idle
        noteChunked := by decide +kernel
  exact ⟨hrun.1,chunks_listed_whole notePipeline ⟨0⟩ noteChunked hrun.2 noteId 500⟩

def noteRechunking : List (PipelineTurn notePipeline) :=
  noteChunked ++ turnsOf 3 (noteRewound .chunk) 3 ++ turnsOf 2 (noteChunking 1) 4

/-- The first line has gone over to pass 1, so the listing, of pass 0 still, has
lost it. -/
theorem note_listed_torn :
    (((Pipelines.idle.after ⟨0⟩ noteRechunking).store.tables.listChunks noteId none 500).map
        fun r => (r.chunk_id,r.pass)) = [(noteBravo.chunk_id,0)] ∧
      ¬ListsShape (Pipelines.idle.after ⟨0⟩ noteRechunking).store noteId 500 := by
  decide +kernel

end ProjectOS.Ingest
