import ProjectOS.Lib.Sessions
import ProjectOS.Ingest.Identity
import ProjectOS.Ingest.Coverage

/-! One vector for one content. Sessions of EMBED run one after another, each
cut short anywhere, and other facts are appended in between. -/

namespace ProjectOS.Ingest
open Lib Domain List Lib.Prog

structure InputKey where
  content_hash : Digest
  model_id : String
  enrichment_version : Nat
  deriving DecidableEq

@[ext] theorem InputKey.ext {a b : InputKey} (hc : a.content_hash = b.content_hash)
    (hm : a.model_id = b.model_id) (hv : a.enrichment_version = b.enrichment_version) : a = b := by
  cases a
  cases b
  simp only [InputKey.mk.injEq]
  exact ⟨hc,hm,hv⟩

structure VectorFact where
  key : InputKey
  vectors_blob : Digest
  row : Nat
  deriving DecidableEq

def embeddedVectors (body : EvidenceEmbedded) : List VectorFact :=
  body.chunks.map fun f =>
    ⟨⟨f.content_hash,body.model_id,body.enrichment_version⟩,body.vectors_blob,f.row⟩

def Fact.vectors : Fact → List VectorFact
  | .ingest (.evidenceEmbedded body) => embeddedVectors body
  | _ => []

def loggedVectors (facts : List Fact) : List VectorFact := facts.flatMap Fact.vectors

/-- Whether a model call was just answered, and the inputs whose vectors were
committed right behind such a call. -/
structure Tally where
  called : Bool
  inputs : List InputKey

def Tally.look : (a : IngestAct) → ingestIface.Resp a → Tally → Tally
  | .embed .., answer, t => { t with called := answer.isOk }
  | .writeBlob _, _, t => t
  | .append facts, answer, t =>
    if t.called ∧ answer.isOk then
      ⟨false,t.inputs ++ (loggedVectors facts).map VectorFact.key⟩
    else { t with called := false }
  | _, _, t => { t with called := false }

abbrev World := Db × Tally

def World.fresh : World := (Db.empty,⟨false,[]⟩)

def watched : Machine ingestIface IngestInput World := ingestMachine.observed Tally.look

/-- A session of EMBED with what its surroundings answer, or facts that others
append in between. -/
inductive Session where
  | embed (c : EmbedCall) (inputs : List IngestInput)
  | others (ts_ms : Nat) (facts : List Fact)

def Session.after (w : World) : Session → World
  | .embed c inputs => (c.embedItem.play watched inputs w).2.2
  | .others ts_ms facts => (w.1.commit (ts_ms,facts),w.2)

def World.after (w : World) (run : List Session) : World := run.foldl Session.after w

/-- Chunks of one content under one model share one vector: no input is committed
twice, and its facts point to one place. -/
structure SharedVectors (w : World) : Prop where
  once : w.2.inputs.Nodup
  shared : ∀ v ∈ loggedVectors w.1.facts, ∀ u ∈ loggedVectors w.1.facts, v.key = u.key → v = u

namespace EmbedCall
variable (c : EmbedCall)

def Apart (done : List ChunkId) (b : Batcher) (chunk : ChunkRecord) (db : Db) : Prop :=
  chunk.chunk_id ∈ done ∨
    (db.tables.findEmbeddingByContent chunk.content_hash c.setup.model_name
      c.setup.enrichment_version).isSome ∨
    chunk.content_hash ∉ b.pending.map PendingChunk.content_hash

instance (done : List ChunkId) (b : Batcher) (chunk : ChunkRecord) (db : Db) :
    Decidable (c.Apart done b chunk db) := inferInstanceAs (Decidable (_ ∨ _ ∨ _))

def ApartAlong (done : List ChunkId) : List ChunkRecord → Batcher → List IngestInput → World → Prop
  | [], _, _, _ => True
  | chunk :: rest, b, inputs, w =>
    c.Apart done b chunk w.1 ∧
      Prog.Ended (ApartAlong done rest) ((c.takeChunk done b chunk).play watched inputs w)

instance decidableAlong (done : List ChunkId) : (chunks : List ChunkRecord) → (b : Batcher) →
    (inputs : List IngestInput) → (w : World) → Decidable (c.ApartAlong done chunks b inputs w)
  | [], _, _, _ => isTrue trivial
  | _ :: rest, _, _, _ =>
    have := decidableAlong done rest
    inferInstanceAs (Decidable (_ ∧ Prog.Ended _ _))

def ApartListed (chunks : List ChunkRecord) (inputs : List IngestInput) (w : World) : Prop :=
  Prog.Ended (fun done => c.ApartAlong done chunks Batcher.new)
    (c.alreadyEmbedded.play watched inputs w)

instance (chunks : List ChunkRecord) (inputs : List IngestInput) (w : World) :
    Decidable (c.ApartListed chunks inputs w) := inferInstanceAs (Decidable (Prog.Ended _ _))

def ApartSession (inputs : List IngestInput) (w : World) : Prop :=
  c.dim = c.setup.dim →
    Prog.Ended (fun chunks inputs w => chunks ≠ [] → c.ApartListed chunks inputs w)
      (c.listed.play watched inputs w)

instance (inputs : List IngestInput) (w : World) : Decidable (c.ApartSession inputs w) :=
  inferInstanceAs (Decidable (_ → Prog.Ended _ _))

end EmbedCall

def Session.Apart (w : World) : Session → Prop
  | .embed c inputs => c.ApartSession inputs w
  | .others .. => True

instance (w : World) : (s : Session) → Decidable (s.Apart w)
  | .embed c inputs => inferInstanceAs (Decidable (c.ApartSession inputs w))
  | .others .. => isTrue trivial

def World.ApartRun : World → List Session → Prop
  | _, [] => True
  | w, s :: run => s.Apart w ∧ World.ApartRun (s.after w) run

instance decidableRun : (w : World) → (run : List Session) → Decidable (w.ApartRun run)
  | _, [] => isTrue trivial
  | w, s :: run =>
    have := decidableRun (s.after w) run
    inferInstanceAs (Decidable (_ ∧ _))

def chunkFacts : Fact → List ChunkFact
  | .ingest (.evidenceChunked body) => body.chunks
  | _ => []

/-- Chunk ids are derived, and embeddings come of sessions only. -/
def LawfulFact (blake3 : Bytes → Digest) : Fact → Prop
  | .ingest (.evidenceChunked body) => ∀ f ∈ body.chunks,
      f.chunk_id = deriveChunkId blake3 body.evidence_id f.kind f.byte_start f.content_hash
  | .ingest (.evidenceEmbedded _) => False
  | _ => True

def Session.Lawful (blake3 : Bytes → Digest) : Session → Prop
  | .embed .. => True
  | .others _ facts => ∀ fact ∈ facts, LawfulFact blake3 fact

def Fact.idInputs : Fact → List Bytes
  | .ingest (.evidenceChunked body) => body.chunks.map fun f =>
      chunkIdInput body.evidence_id f.kind f.byte_start f.content_hash
  | _ => []

def Session.idInputs : Session → List Bytes
  | .embed .. => []
  | .others _ facts => facts.flatMap Fact.idInputs

def IdsApart (blake3 : Bytes → Digest) (run : List Session) : Prop :=
  ∀ x ∈ run.flatMap Session.idInputs, ∀ y ∈ run.flatMap Session.idInputs,
    (truncateToId (blake3 x) : ChunkId) = truncateToId (blake3 y) → x = y

instance (blake3 : Bytes → Digest) (run : List Session) : Decidable (IdsApart blake3 run) :=
  inferInstanceAs (Decidable (∀ x ∈ _, _))

section
variable (nameOf : ChunkId → Digest)

/-- The row is where the log says the vector is. -/
structure Locates (k : EmbeddingKey) (r : EmbeddingRow) (v : VectorFact) : Prop where
  content : r.content_hash = v.key.content_hash
  model : k.model_id = v.key.model_id
  version : k.enrichment_version = integerU32 v.key.enrichment_version
  blob : r.vectors_blob = v.vectors_blob
  row : r.row = integerU32 v.row

/-- The vector rows are those of the facts, found by content under their model. A
chunk's id names its content. -/
structure Vectors (db : Db) : Prop where
  rows : ∀ k r, db.tables.embeddings.get? k = some r → r.content_hash = nameOf k.chunk_id ∧
    ∃ v ∈ loggedVectors db.facts, Locates k r v
  found : ∀ v ∈ loggedVectors db.facts, ∃ k r, db.tables.embeddings.get? k = some r ∧
    Locates k r v
  small : ∀ v ∈ loggedVectors db.facts, v.row ≤ u32Max
  shared : ∀ v ∈ loggedVectors db.facts, ∀ u ∈ loggedVectors db.facts, v.key = u.key → v = u
  chunks : ∀ j row, db.tables.chunks.get? j = some row → row.content_hash = nameOf j

/-- Every input was computed once, and its vector is in the log. -/
structure Consistent (w : World) : Prop where
  vectors : Vectors nameOf w.1
  computed : ∀ k ∈ w.2.inputs, ∃ v ∈ loggedVectors w.1.facts, v.key = k
  once : w.2.inputs.Nodup

variable {nameOf} {db db' : Db} {w : World}

theorem integerU32_inj {a b : Nat} (h : integerU32 a = integerU32 b) : a = b := by
  simpa [integerU32] using h

theorem mem_loggedVectors_append {facts more : List Fact} {v : VectorFact} :
    v ∈ loggedVectors (facts ++ more) ↔ v ∈ loggedVectors facts ∨ v ∈ loggedVectors more := by
  rw [loggedVectors,flatMap_append,mem_append]
  rfl

@[simp] theorem loggedVectors_embedded (body : EvidenceEmbedded) :
    loggedVectors [.ingest (.evidenceEmbedded body)] = embeddedVectors body := by
  simp [loggedVectors,Fact.vectors]

variable {content_hash : Digest} {model_id : String} {version : Nat}

theorem Vectors.lookup_some (h : Vectors nameOf db) {r : ChunkEmbeddingRecord}
    (hr : db.tables.findEmbeddingByContent content_hash model_id version = some r) :
    (⟨⟨content_hash,model_id,version⟩,r.vectors_blob,r.row⟩ : VectorFact) ∈
      loggedVectors db.facts := by
  obtain ⟨row,hrow,hc,hrec⟩ := EvidenceTables.findEmbeddingByContent_some hr
  obtain ⟨-,v,hv,hloc⟩ := h.rows _ _ hrow
  have hblob : r.vectors_blob = v.vectors_blob := by
    rw [hrec]
    exact hloc.blob
  have hnum : r.row = v.row := by
    rw [hrec]
    change countU32 row.row = v.row
    rw [hloc.row,countU32_integerU32 (h.small v hv)]
  have hkey : v.key = ⟨content_hash,model_id,version⟩ :=
    InputKey.ext (hloc.content.symm.trans hc) hloc.model.symm (integerU32_inj hloc.version.symm)
  rw [hblob,hnum,← hkey]
  exact hv

theorem Vectors.lookup_none (h : Vectors nameOf db)
    (hr : db.tables.findEmbeddingByContent content_hash model_id version = none) :
    ∀ v ∈ loggedVectors db.facts, v.key ≠ ⟨content_hash,model_id,version⟩ := by
  intro v hv hkey
  obtain ⟨k,row,hrow,hloc⟩ := h.found v hv
  have hk : k = embeddingKey model_id version k.chunk_id :=
    EvidenceTables.embeddingKey_of (by rw [hloc.model,hkey]) (by rw [hloc.version,hkey])
  rw [hk] at hrow
  refine EvidenceTables.findEmbeddingByContent_none hr hrow ?_
  rw [hloc.content,hkey]

theorem appendBatch_one {ts_ms : Nat} {event : IngestEvent}
    (h : db.appendBatch ts_ms [.ingest event] = .ok db') :
    db'.facts = db.facts ++ [.ingest event] ∧
      db'.tables.chunks = applyChunks db.tables.chunks (db.queue.head+1) event ∧
      db'.tables.embeddings = applyEmbeddings db.tables.embeddings (db.queue.head+1) event := by
  obtain ⟨mid,h₁,h₂⟩ := Db.appendBatch_cons h
  cases h₂
  obtain ⟨htables,-,hfacts⟩ := Db.appendOne_ingest h₁
  obtain ⟨-,-,hchunks,hrows⟩ := EvidenceTables.apply_ok htables
  exact ⟨hfacts,hchunks,hrows⟩

theorem Vectors.embed (h : Vectors nameOf db) {body : EvidenceEmbedded} {ts_ms : Nat}
    (hnames : ∀ f ∈ body.chunks, f.content_hash = nameOf f.chunk_id ∧ f.row ≤ u32Max)
    (hnew : ∀ v ∈ embeddedVectors body, ∀ u ∈ loggedVectors db.facts, v.key = u.key → v = u)
    (hown : ∀ v ∈ embeddedVectors body, ∀ u ∈ embeddedVectors body, v.key = u.key → v = u)
    (ha : db.appendBatch ts_ms [.ingest (.evidenceEmbedded body)] = .ok db') :
    Vectors nameOf db' := by
  obtain ⟨hfacts,hchunks,hrows⟩ := appendBatch_one ha
  have hmem : ∀ v, v ∈ loggedVectors db'.facts ↔
      v ∈ loggedVectors db.facts ∨ v ∈ embeddedVectors body := by
    intro v
    rw [hfacts,mem_loggedVectors_append,loggedVectors_embedded]
  have hshared : ∀ v ∈ loggedVectors db'.facts, ∀ u ∈ loggedVectors db'.facts,
      v.key = u.key → v = u := by
    intro v hv u hu hk
    rcases (hmem v).mp hv with hv | hv <;> rcases (hmem u).mp hu with hu | hu
    · exact h.shared v hv u hu hk
    · exact (hnew u hu v hv hk.symm).symm
    · exact hnew v hv u hu hk
    · exact hown v hv u hu hk
  have hrows' : ∀ k r, db'.tables.embeddings.get? k = some r → r.content_hash = nameOf k.chunk_id ∧
      ∃ v ∈ loggedVectors db'.facts, Locates k r v := by
    intro k r hr
    rw [hrows] at hr
    rcases Table.get?_puts _ _ hr with ⟨f,hf,rfl,rfl⟩ | ⟨hold,-⟩
    · refine ⟨(hnames f hf).1,_,(hmem _).mpr (Or.inr (mem_map_of_mem hf)),?_⟩
      exact ⟨rfl,rfl,rfl,rfl,rfl⟩
    · obtain ⟨hname,v,hv,hloc⟩ := h.rows k r hold
      exact ⟨hname,v,(hmem v).mpr (Or.inl hv),hloc⟩
  refine ⟨hrows',?_,?_,hshared,?_⟩
  · -- a row written over is of the same chunk, and so of the same content
    have hplace : ∀ k v, v ∈ loggedVectors db'.facts → nameOf k.chunk_id = v.key.content_hash →
        k.model_id = v.key.model_id → k.enrichment_version = integerU32 v.key.enrichment_version →
        (db'.tables.embeddings.get? k).isSome → ∃ k r, db'.tables.embeddings.get? k = some r ∧
          Locates k r v := by
      intro k v hv hname hmodel hversion hsome
      obtain ⟨r,hr⟩ := Option.isSome_iff_exists.mp hsome
      obtain ⟨hcontent,u,hu,hloc⟩ := hrows' k r hr
      have hkey : u.key = v.key :=
        InputKey.ext ((hloc.content.symm.trans hcontent).trans hname)
          (hloc.model.symm.trans hmodel) (integerU32_inj (hloc.version.symm.trans hversion))
      exact ⟨k,r,hr,hshared u hu v hv hkey ▸ hloc⟩
    intro v hv
    rcases (hmem v).mp hv with hold | hnew'
    · obtain ⟨k,r,hr,hloc⟩ := h.found v hold
      refine hplace k v hv ((h.rows k r hr).1.symm.trans hloc.content) hloc.model hloc.version ?_
      rw [hrows]
      exact Table.puts_isSome _ _ (by rw [hr]; rfl)
    · obtain ⟨f,hf,rfl⟩ := mem_map.mp hnew'
      refine hplace (embeddingKey body.model_id body.enrichment_version f.chunk_id) _ hv
        (hnames f hf).1.symm rfl rfl ?_
      rw [hrows]
      exact Table.puts_written _ _ hf
  · intro v hv
    rcases (hmem v).mp hv with hv | hv
    · exact h.small v hv
    · obtain ⟨f,hf,rfl⟩ := mem_map.mp hv
      exact (hnames f hf).2
  · intro j row hrow
    rw [hchunks] at hrow
    exact h.chunks j row hrow

end

def EmbedCall.inputKey (c : EmbedCall) (content_hash : Digest) : InputKey :=
  ⟨content_hash,c.setup.model_name,c.setup.enrichment_version⟩

def EmbedCall.vectorFacts (c : EmbedCall) (vectors_blob : Digest)
    (facts : List ChunkEmbeddingFact) : List VectorFact :=
  facts.map fun f => ⟨c.inputKey f.content_hash,vectors_blob,f.row⟩

section
variable (nameOf : ChunkId → Digest)

/-- The waiting chunks are named by their contents, which differ and have no vector
yet. -/
structure Waiting (c : EmbedCall) (b : Batcher) (db : Db) : Prop where
  named : ∀ p ∈ b.pending, p.content_hash = nameOf p.chunk_id
  fresh : ∀ p ∈ b.pending, ∀ v ∈ loggedVectors db.facts, v.key ≠ c.inputKey p.content_hash
  apart : (b.pending.map PendingChunk.content_hash).Nodup

variable {nameOf} {c : EmbedCall} {b : Batcher} {w : World}

abbrev Kept {α : Type} (nameOf : ChunkId → Digest) (p : IngestProg α) (Q : α → World → Prop)
    (w : World) : Prop := p.Secured watched (Consistent nameOf) Q w

theorem Consistent.noted {db : Db} {t t' : Tally} (h : Consistent nameOf (db,t))
    (ht : t'.inputs = t.inputs) : Consistent nameOf (db,t') :=
  ⟨h.vectors,by rw [ht]; exact h.computed,by rw [ht]; exact h.once⟩

theorem emit_kept {batch_index : Nat} {vectors_blob : Digest} {facts : List ChunkEmbeddingFact}
    (hw : Consistent nameOf w)
    (hnames : ∀ f ∈ facts, f.content_hash = nameOf f.chunk_id ∧ f.row ≤ u32Max)
    (hnew : ∀ v ∈ c.vectorFacts vectors_blob facts, ∀ u ∈ loggedVectors w.1.facts,
      v.key = u.key → v = u)
    (hown : ∀ v ∈ c.vectorFacts vectors_blob facts, ∀ u ∈ c.vectorFacts vectors_blob facts,
      v.key = u.key → v = u)
    (hcalled : w.2.called = true →
      (w.2.inputs ++ (c.vectorFacts vectors_blob facts).map VectorFact.key).Nodup) :
    Kept nameOf (c.emit batch_index vectors_blob facts)
      (fun _ w' => ∀ v ∈ loggedVectors w'.1.facts,
        v ∈ loggedVectors w.1.facts ∨ v ∈ c.vectorFacts vectors_blob facts) w := by
  apply secured_mapError
  rw [StageContext.emitEmbeddings]
  split_ifs with hlen hnil
  · trivial
  · exact fun v hv => Or.inl hv
  · intro x
    obtain ⟨db,t⟩ := w
    let body : EvidenceEmbedded :=
      { evidence_id := c.context.evidence.evidence_id, source_id := c.context.evidence.source_id,
        pass := c.context.pass, batch_index := batch_index, model_id := c.setup.model_name,
        dim := c.dim, enrichment_version := c.setup.enrichment_version,
        vectors_blob := vectors_blob, chunks := facts }
    have hstep : watched.step x (db,t) (.append [.ingest (.evidenceEmbedded body)]) =
        ((db.append x [.ingest (.evidenceEmbedded body)]).1,
          (db.append x [.ingest (.evidenceEmbedded body)]).2,
          Tally.look (.append [.ingest (.evidenceEmbedded body)])
            (db.append x [.ingest (.evidenceEmbedded body)]).1 t) := rfl
    rw [hstep]
    rcases Db.append_cases db x [.ingest (.evidenceEmbedded body)] with ⟨db',ha,hb⟩ | ⟨e,ha⟩
    · rw [ha]
      have hvectors := @Vectors.embed nameOf db db' hw.vectors body _ hnames hnew hown hb
      have hfacts := (appendBatch_one hb).1
      have hmem : ∀ v, v ∈ loggedVectors db'.facts ↔
          v ∈ loggedVectors db.facts ∨ v ∈ c.vectorFacts vectors_blob facts := by
        intro v
        rw [hfacts,mem_loggedVectors_append,loggedVectors_embedded]
        rfl
      refine ⟨⟨hvectors,?_,?_⟩,fun v hv => (hmem v).mp hv⟩
      · intro k hk
        simp only [Tally.look,loggedVectors_embedded] at hk
        split_ifs at hk
        · rcases mem_append.mp hk with hk | hk
          · obtain ⟨v,hv,hvk⟩ := hw.computed k hk
            exact ⟨v,(hmem v).mpr (Or.inl hv),hvk⟩
          · obtain ⟨v,hv,hvk⟩ := mem_map.mp hk
            exact ⟨v,(hmem v).mpr (Or.inr hv),hvk⟩
        · obtain ⟨v,hv,hvk⟩ := hw.computed k hk
          exact ⟨v,(hmem v).mpr (Or.inl hv),hvk⟩
      · simp only [Tally.look,loggedVectors_embedded]
        split_ifs with hcall
        · exact hcalled hcall.1
        · exact hw.once
    · rw [ha]
      refine ⟨hw.noted ?_,trivial⟩
      simp [Tally.look,Except.isOk,Except.toBool]

theorem inputKey_inj {h h' : Digest} (he : c.inputKey h = c.inputKey h') : h = h' :=
  congrArg InputKey.content_hash he

theorem batchFacts_keys (vectors_blob : Digest) (pending : List PendingChunk) :
    (c.vectorFacts vectors_blob (EmbedCall.batchFacts pending)).map VectorFact.key =
      pending.map fun p => c.inputKey p.content_hash := by
  simp only [EmbedCall.vectorFacts,EmbedCall.batchFacts,map_map]
  rw [show (VectorFact.key ∘ (fun f : ChunkEmbeddingFact =>
      (⟨c.inputKey f.content_hash,vectors_blob,f.row⟩ : VectorFact)) ∘
      fun p : PendingChunk × Nat => EmbedCall.batchFact p.1 p.2) =
      (fun p : PendingChunk => c.inputKey p.content_hash) ∘ Prod.fst from rfl]
  rw [← map_map,zipIdx_map_fst]

theorem flush_kept (hw : Consistent nameOf w) (hb : Waiting nameOf c b w.1) :
    Kept nameOf (c.flush b) (fun b' w' => b'.pending = [] ∧ ∀ v ∈ loggedVectors w'.1.facts,
      v ∈ loggedVectors w.1.facts ∨ ∃ p ∈ b.pending, v.key = c.inputKey p.content_hash) w := by
  obtain ⟨db,t⟩ := w
  rw [EmbedCall.flush]
  split_ifs with hempty
  · exact ⟨hempty,fun v hv => Or.inl hv⟩
  · intro x
    refine ⟨hw.noted rfl,?_⟩
    have hcall : watched.step x (db,t) (.embed c.setup.model_name
        (b.pending.map PendingChunk.text) c.setup.enrichment_version) =
        (x.batch,db,{ t with called := x.batch.isOk }) := rfl
    rw [hcall]
    cases x.batch with
    | error weather => trivial
    | ok batch =>
      simp only []
      split_ifs
      · trivial
      · intro y
        refine ⟨hw.noted rfl,?_⟩
        have hwrite : ∀ t, watched.step y (db,t) (.writeBlob batch.bytes) = (y.blob,db,t) :=
          fun _ => rfl
        rw [hwrite]
        cases y.blob with
        | error failure => trivial
        | ok vectors_blob =>
          have hkeys := batchFacts_keys (c := c) vectors_blob b.pending
          have hnodup : (b.pending.map fun p => c.inputKey p.content_hash).Nodup := by
            have hmap := hb.apart.map (f := c.inputKey) (fun _ _ => inputKey_inj)
            rw [map_map] at hmap
            exact hmap
          have hof : ∀ v ∈ c.vectorFacts vectors_blob (EmbedCall.batchFacts b.pending),
              ∃ p ∈ b.pending, v.key = c.inputKey p.content_hash := by
            intro v hv
            have hk := hkeys ▸ mem_map_of_mem (f := VectorFact.key) hv
            obtain ⟨p,hp,hpk⟩ := mem_map.mp hk
            exact ⟨p,hp,hpk.symm⟩
          refine secured_bind (emit_kept (hw.noted rfl) ?_ ?_ ?_ ?_) (hw.noted rfl) ?_
          · intro f hf
            obtain ⟨q,hq,rfl⟩ := mem_map.mp hf
            have hp := mem_iff_getElem?.mpr ⟨_,mem_zipIdx_iff_getElem?.mp hq⟩
            exact ⟨hb.named _ hp,min_le_right _ _⟩
          · intro v hv u hu hk
            obtain ⟨p,hp,hpk⟩ := hof v hv
            exact absurd (hk.symm.trans hpk) (hb.fresh p hp u hu)
          · intro v hv u hu hk
            exact inj_on_of_nodup_map (hkeys ▸ hnodup) hv hu hk
          · intro _
            rw [hkeys]
            refine List.Nodup.append hw.once hnodup ?_
            intro k hk hk'
            obtain ⟨v,hv,rfl⟩ := hw.computed k hk
            obtain ⟨p,hp,hpk⟩ := mem_map.mp hk'
            exact hb.fresh p hp v hv hpk.symm
          · intro _ w' _ hlog
            refine ⟨rfl,?_⟩
            intro v hv
            exact (hlog v hv).imp_right (hof v)

variable {pending : PendingChunk}

theorem Waiting.join {db : Db} {tokens : List Nat} {longest : Nat} (hb : Waiting nameOf c b db)
    (hname : pending.content_hash = nameOf pending.chunk_id)
    (hfresh : ∀ v ∈ loggedVectors db.facts, v.key ≠ c.inputKey pending.content_hash)
    (hapart : pending.content_hash ∉ b.pending.map PendingChunk.content_hash) :
    Waiting nameOf c { b with candidate_tokens := tokens, longest_tokens := longest,
                              pending := b.pending ++ [pending] } db := by
  have hmem : ∀ p ∈ b.pending ++ [pending], p ∈ b.pending ∨ p = pending := by
    intro p hp
    rcases mem_append.mp hp with hp | hp
    · exact Or.inl hp
    · exact Or.inr (mem_singleton.mp hp)
  refine ⟨?_,?_,?_⟩
  · intro p hp
    rcases hmem p hp with hp | rfl
    · exact hb.named p hp
    · exact hname
  · intro p hp
    rcases hmem p hp with hp | rfl
    · exact hb.fresh p hp
    · exact hfresh
  · rw [map_append,map_singleton]
    refine List.Nodup.append hb.apart (nodup_singleton _) ?_
    rw [disjoint_singleton]
    exact hapart

section
variable (hw : Consistent nameOf w)
include hw

theorem enter_kept (hb : Waiting nameOf c b w.1)
    (hname : pending.content_hash = nameOf pending.chunk_id)
    (hfresh : ∀ v ∈ loggedVectors w.1.facts, v.key ≠ c.inputKey pending.content_hash)
    (hapart : pending.content_hash ∉ b.pending.map PendingChunk.content_hash) :
    Kept nameOf (c.enter b pending) (fun b' w' => Waiting nameOf c b' w'.1) w := by
  have hcandidate : ∀ tokens, Waiting nameOf c { b with candidate_tokens := tokens } w.1 :=
    fun _ => ⟨hb.named,hb.fresh,hb.apart⟩
  -- a flush leaves an empty batch, and the log has heard of others' contents only
  let Clear : Batcher → World → Prop := fun b' w' => Waiting nameOf c b' w'.1 ∧
    (∀ v ∈ loggedVectors w'.1.facts, v.key ≠ c.inputKey pending.content_hash) ∧
    pending.content_hash ∉ b'.pending.map PendingChunk.content_hash
  rw [EmbedCall.enter]
  refine secured_bind (P := Clear) ?_ hw ?_
  · split_ifs
    · refine secured_bind (flush_kept hw (hcandidate _)) hw ?_
      intro b' w' _ hflushed
      obtain ⟨hempty,hlog⟩ := hflushed
      refine ⟨⟨?_,?_,?_⟩,?_,?_⟩
      · simp [hempty]
      · simp [hempty]
      · simp [hempty]
      · intro v hv
        rcases hlog v hv with hold | ⟨p,hp,hpk⟩
        · exact hfresh v hold
        · intro hk
          exact hapart (inputKey_inj (hpk.symm.trans hk) ▸ mem_map_of_mem hp)
      · simp [hempty]
    · exact ⟨hcandidate _,hfresh,hapart⟩
  · intro b' w' _ hclear
    exact hclear.1.join hname hclear.2.1 hclear.2.2

theorem commitReused_kept {reuse : ReusedVector}
    (hquiet : w.2.called = false) (hb : Waiting nameOf c b w.1)
    (hname : pending.content_hash = nameOf pending.chunk_id) (hreuse : pending.reuse = some reuse)
    (hlogged : (⟨c.inputKey pending.content_hash,reuse.vectors_blob,reuse.row⟩ : VectorFact) ∈
      loggedVectors w.1.facts) :
    Kept nameOf (c.commitReused b pending) (fun b' w' => Waiting nameOf c b' w'.1) w := by
  rw [EmbedCall.commitReused,hreuse]
  refine secured_bind (emit_kept hw ?_ ?_ ?_ ?_) hw ?_
  · intro f hf
    obtain rfl := mem_singleton.mp hf
    exact ⟨hname,hw.vectors.small _ hlogged⟩
  · intro v hv u hu hk
    obtain rfl := mem_singleton.mp hv
    exact hw.vectors.shared _ hlogged u hu hk
  · intro v hv u hu _
    rw [mem_singleton.mp hv,mem_singleton.mp hu]
  · intro hcalled
    rw [hquiet] at hcalled
    cases hcalled
  · intro _ w' _ hlog
    refine ⟨hb.named,?_,hb.apart⟩
    intro p hp v hv
    rcases hlog v hv with hold | hnew
    · exact hb.fresh p hp v hold
    · obtain rfl := mem_singleton.mp hnew
      exact hb.fresh p hp _ hlogged

theorem chunkText_kept (chunk : ChunkRecord) :
    Kept nameOf (c.chunkText chunk) (fun _ w' => w'.1 = w.1) w := by
  obtain ⟨db,t⟩ := w
  apply secured_mapError
  rw [StageContext.readTextRange]
  split_ifs
  · trivial
  · cases c.context.evidence.text_blob with
    | none => trivial
    | some hash =>
      intro x
      refine ⟨hw.noted rfl,?_⟩
      have hstep : (watched.step x (db,t) (.readText hash chunk.byte_start
          (chunk.byte_end-chunk.byte_start))) = (x.text,db,{ t with called := false }) := rfl
      rw [hstep]
      cases x.text with
      | ok text => rfl
      | error e => trivial

variable {chunk : ChunkRecord}

theorem push_kept
    (hb : Waiting nameOf c b w.1) (hname : chunk.content_hash = nameOf chunk.chunk_id)
    (hapart : (w.1.tables.findEmbeddingByContent chunk.content_hash c.setup.model_name
        c.setup.enrichment_version).isSome ∨
      chunk.content_hash ∉ b.pending.map PendingChunk.content_hash) :
    Kept nameOf (c.push b chunk) (fun b' w' => Waiting nameOf c b' w'.1) w := by
  rw [EmbedCall.push]
  refine secured_bind (chunkText_kept hw chunk) hw ?_
  rintro text ⟨db,t⟩ hw' (rfl : db = w.1)
  have hread : Waiting nameOf c
      { b with bytes_read := satAdd64 b.bytes_read text.utf8ByteSize } w.1 :=
    ⟨hb.named,hb.fresh,hb.apart⟩
  intro x
  have hstep : watched.step x (w.1,t) (.findEmbeddingByContent chunk.content_hash
      c.setup.model_name c.setup.enrichment_version) =
      (x.read (w.1.tables.findEmbeddingByContent chunk.content_hash c.setup.model_name
        c.setup.enrichment_version),w.1,{ t with called := false }) := rfl
  rw [hstep]
  refine ⟨hw'.noted rfl,?_⟩
  rw [IngestInput.read]
  cases x.fault with
  | some fault => trivial
  | none =>
    simp only []
    cases hfound : w.1.tables.findEmbeddingByContent chunk.content_hash c.setup.model_name
        c.setup.enrichment_version with
    | some r =>
      have hreuse : (EmbedCall.pendingChunk chunk text (some r)).reuse.isSome = true := rfl
      rw [if_pos hreuse]
      exact commitReused_kept (hw'.noted rfl) rfl hread hname rfl
        (hw.vectors.lookup_some hfound)
    | none =>
      have hreuse : ¬(EmbedCall.pendingChunk chunk text none).reuse.isSome = true := by
        simp [EmbedCall.pendingChunk]
      rw [if_neg hreuse]
      refine enter_kept (hw'.noted rfl) hread hname (hw.vectors.lookup_none hfound) ?_
      rcases hapart with hsome | hnot
      · rw [hfound] at hsome
        cases hsome
      · exact hnot

theorem takeChunk_kept {done : List ChunkId}
    (hb : Waiting nameOf c b w.1) (hname : chunk.content_hash = nameOf chunk.chunk_id)
    (hapart : c.Apart done b chunk w.1) :
    Kept nameOf (c.takeChunk done b chunk) (fun b' w' => Waiting nameOf c b' w'.1) w := by
  rw [EmbedCall.takeChunk]
  split_ifs with hdone
  · exact ⟨hb.named,hb.fresh,hb.apart⟩
  · exact push_kept hw hb hname (hapart.resolve_left hdone)

end

variable {inputs : List IngestInput}

theorem loop_kept {done : List ChunkId} (chunks : List ChunkRecord) (hw : Consistent nameOf w)
    (hb : Waiting nameOf c b w.1) (hnames : ∀ r ∈ chunks, r.content_hash = nameOf r.chunk_id)
    (hapart : c.ApartAlong done chunks b inputs w) :
    Consistent nameOf (((chunks.foldlM (c.takeChunk done) b).bind c.finish).play
      watched inputs w).2.2 := by
  induction chunks generalizing b inputs w with
  | nil =>
    have hfinish : Kept nameOf (c.finish b) (fun _ _ => True) w :=
      secured_bind (flush_kept hw hb) hw (fun _ _ _ _ => trivial)
    exact (secured_play hfinish hw inputs).1
  | cons chunk chunks ih =>
    obtain ⟨hhere,hrest⟩ := hapart
    obtain ⟨hkept,hnext⟩ := secured_play
      (takeChunk_kept hw hb (hnames chunk (by simp)) hhere) hw inputs
    rw [foldlM_cons,bind_eq,bind_assoc,play_bind]
    cases hplay : (c.takeChunk done b chunk).play watched inputs w with
    | mk outcome left =>
      obtain ⟨inputs',w'⟩ := left
      rw [hplay] at hkept hnext hrest
      cases outcome with
      | none => exact hkept
      | some r =>
        cases r with
        | error e => exact hkept
        | ok b' =>
          exact ih hkept (hnext b' rfl) (fun r hr => hnames r (mem_cons_of_mem _ hr)) hrest

section
variable (hw : Consistent nameOf w)
include hw

theorem listed_kept : Kept nameOf c.listed
    (fun chunks _ => ∀ r ∈ chunks, r.content_hash = nameOf r.chunk_id) w := by
  obtain ⟨db,t⟩ := w
  intro x
  refine ⟨hw.noted rfl,?_⟩
  have hstep : watched.step x (db,t) (.listChunks c.context.evidence.evidence_id none
      embedChunkCountMax) = (x.read (db.tables.listChunks c.context.evidence.evidence_id none
        embedChunkCountMax),db,{ t with called := false }) := rfl
  rw [hstep,IngestInput.read]
  cases x.fault with
  | some fault => trivial
  | none =>
    intro r hr
    obtain ⟨row,hrow,hrec⟩ := EvidenceTables.listChunks_row hr
    rw [hrec]
    exact hw.vectors.chunks _ _ hrow

theorem alreadyEmbedded_kept :
    Kept nameOf c.alreadyEmbedded (fun _ _ => True) w := by
  obtain ⟨db,t⟩ := w
  intro x
  refine ⟨hw.noted rfl,?_⟩
  have hstep : watched.step x (db,t) (.listChunkEmbeddings c.context.evidence.evidence_id
      c.setup.model_name c.setup.enrichment_version embedChunkCountMax) =
      (x.read (db.tables.listChunkEmbeddings c.context.evidence.evidence_id c.setup.model_name
        c.setup.enrichment_version embedChunkCountMax),db,{ t with called := false }) := rfl
  rw [hstep,IngestInput.read]
  cases x.fault with
  | some | none => trivial

theorem listed_session {chunks : List ChunkRecord}
    (hnames : ∀ r ∈ chunks, r.content_hash = nameOf r.chunk_id)
    (hapart : c.ApartListed chunks inputs w) :
    Consistent nameOf ((c.alreadyEmbedded.bind (c.embedChunks chunks)).play
      watched inputs w).2.2 := by
  have hkept := (secured_play (alreadyEmbedded_kept (c := c) hw) hw inputs).1
  rw [EmbedCall.ApartListed] at hapart
  rw [play_bind]
  cases hplay : c.alreadyEmbedded.play watched inputs w with
  | mk outcome left =>
    obtain ⟨inputs',w'⟩ := left
    rw [hplay] at hkept hapart
    cases outcome with
    | none => exact hkept
    | some r =>
      cases r with
      | error e => exact hkept
      | ok done =>
        have hnew : Waiting nameOf c Batcher.new w'.1 :=
          ⟨by simp [Batcher.new],by simp [Batcher.new],by simp [Batcher.new]⟩
        exact loop_kept chunks hkept hnew hnames hapart

theorem embedItem_kept (hapart : c.ApartSession inputs w) :
    Consistent nameOf (c.embedItem.play watched inputs w).2.2 := by
  rw [EmbedCall.embedItem]
  split_ifs with hdim
  · exact hw
  · have hsession := hapart (not_not.mp hdim)
    obtain ⟨hkept,hnext⟩ := secured_play (listed_kept (c := c) hw) hw inputs
    rw [play_bind]
    cases hplay : c.listed.play watched inputs w with
    | mk outcome left =>
      obtain ⟨inputs',w'⟩ := left
      rw [hplay] at hkept hnext hsession
      cases outcome with
      | none => exact hkept
      | some r =>
        cases r with
        | error e => exact hkept
        | ok chunks =>
          simp only []
          split_ifs with hempty
          · exact hkept
          · exact listed_session hkept (hnext chunks rfl) (hsession hempty)

end

end

section
variable {blake3 : Bytes → Digest} {nameOf : ChunkId → Digest} {db db' : Db} {w : World}

theorem Vectors.other (h : Vectors nameOf db) {ts_ms : Nat} {fact : Fact}
    (hlawful : LawfulFact blake3 fact)
    (hnames : ∀ f ∈ chunkFacts fact, f.content_hash = nameOf f.chunk_id)
    (ha : db.appendOne ts_ms fact = .ok db') : Vectors nameOf db' := by
  have hfacts := Db.appendOne_facts ha
  have hlogged : loggedVectors db'.facts = loggedVectors db.facts := by
    have hnone : fact.vectors = [] := by
      cases fact with
      | job event => rfl
      | ingest event =>
        cases event with
        | evidenceEmbedded body => exact hlawful.elim
        | _ => rfl
    rw [hfacts,loggedVectors,loggedVectors,flatMap_append]
    simp [hnone]
  have hrows : db'.tables.embeddings = db.tables.embeddings := by
    cases fact with
    | job event => rw [(Db.appendOne_job ha).2.1]
    | ingest event =>
      obtain ⟨-,-,-,he⟩ := EvidenceTables.apply_ok (Db.appendOne_ingest ha).1
      rw [he]
      cases event with
      | evidenceEmbedded body => exact hlawful.elim
      | _ => rfl
  have hchunks : ∀ j row, db'.tables.chunks.get? j = some row → row.content_hash = nameOf j := by
    intro j row hrow
    cases fact with
    | job event =>
      rw [(Db.appendOne_job ha).2.1] at hrow
      exact h.chunks j row hrow
    | ingest event =>
      obtain ⟨-,-,hc,-⟩ := EvidenceTables.apply_ok (Db.appendOne_ingest ha).1
      rw [hc] at hrow
      cases event with
      | evidenceChunked body =>
        rcases Table.get?_puts _ _ hrow with ⟨f,hf,rfl,rfl⟩ | ⟨hold,-⟩
        · exact hnames f hf
        · exact h.chunks j row hold
      | _ => exact h.chunks j row hrow
  refine ⟨?_,?_,?_,?_,hchunks⟩
  · rw [hrows,hlogged]
    exact h.rows
  · rw [hrows,hlogged]
    exact h.found
  · rw [hlogged]
    exact h.small
  · rw [hlogged]
    exact h.shared

theorem others_kept {ts_ms : Nat} {facts : List Fact} (hw : Consistent nameOf w)
    (hlawful : ∀ fact ∈ facts, LawfulFact blake3 fact)
    (hnames : ∀ fact ∈ facts, ∀ f ∈ chunkFacts fact, f.content_hash = nameOf f.chunk_id) :
    Consistent nameOf (w.1.commit (ts_ms,facts),w.2) := by
  rw [Db.commit]
  cases ha : w.1.appendBatch ts_ms facts with
  | error e => exact hw
  | ok db' =>
    refine ⟨?_,?_,hw.once⟩
    · refine Db.appendBatch_keeps (R := fun d d' => Vectors nameOf d → Vectors nameOf d')
        (fun _ h => h) (fun _ _ _ h h' hv => h' (h hv)) ?_ ha hw.vectors
      intro d d' fact hf hd hv
      exact hv.other (hlawful fact hf) (hnames fact hf) hd
    · intro k hk
      obtain ⟨v,hv,hvk⟩ := hw.computed k hk
      refine ⟨v,?_,hvk⟩
      simp only [Db.appendBatch_facts ha]
      exact mem_loggedVectors_append.mpr (Or.inl hv)

theorem fresh_consistent : Consistent nameOf World.fresh := by
  have hnone : ∀ v, v ∉ loggedVectors World.fresh.1.facts := fun v => not_mem_nil
  refine ⟨⟨?_,?_,?_,?_,?_⟩,?_,nodup_nil⟩
  · intro k r hr
    cases hr
  · exact fun v hv => absurd hv (hnone v)
  · exact fun v hv => absurd hv (hnone v)
  · exact fun v hv => absurd hv (hnone v)
  · intro j row hrow
    cases hrow
  · exact fun k hk => absurd hk not_mem_nil

def Session.chunkFacts : Session → List ChunkFact
  | .embed .. => []
  | .others _ facts => facts.flatMap Ingest.chunkFacts

theorem session_kept {s : Session} (hw : Consistent nameOf w) (hlawful : s.Lawful blake3)
    (hnames : ∀ f ∈ s.chunkFacts, f.content_hash = nameOf f.chunk_id) (hapart : s.Apart w) :
    Consistent nameOf (s.after w) := by
  cases s with
  | embed c inputs => exact embedItem_kept hw hapart
  | others ts_ms facts =>
    refine others_kept hw hlawful ?_
    intro fact hfact f hf
    exact hnames f (mem_flatMap.mpr ⟨fact,hfact,hf⟩)

variable {run : List Session}

theorem run_kept (hw : Consistent nameOf w) (hlawful : ∀ s ∈ run, s.Lawful blake3)
    (hnames : ∀ s ∈ run, ∀ f ∈ s.chunkFacts, f.content_hash = nameOf f.chunk_id)
    (hapart : w.ApartRun run) : Consistent nameOf (w.after run) := by
  induction run generalizing w with
  | nil => exact hw
  | cons s run ih =>
    exact ih (session_kept hw (hlawful s (by simp)) (hnames s (by simp)) hapart.1)
      (fun s hs => hlawful s (mem_cons_of_mem _ hs))
      (fun s hs => hnames s (mem_cons_of_mem _ hs)) hapart.2

def nameIn (run : List Session) (chunk_id : ChunkId) : Digest :=
  (((run.flatMap Session.chunkFacts).find? fun f => f.chunk_id = chunk_id).map
    ChunkFact.content_hash).getD 0

variable {f : ChunkFact}

theorem idInput_of_fact (hlawful : ∀ s ∈ run, s.Lawful blake3)
    (hf : f ∈ run.flatMap Session.chunkFacts) :
    ∃ e : EvidenceId,
      chunkIdInput e f.kind f.byte_start f.content_hash ∈ run.flatMap Session.idInputs ∧
      f.chunk_id = deriveChunkId blake3 e f.kind f.byte_start f.content_hash := by
  obtain ⟨s,hs,hf⟩ := mem_flatMap.mp hf
  cases s with
  | embed c inputs => simp [Session.chunkFacts] at hf
  | others ts_ms facts =>
    obtain ⟨fact,hfact,hf⟩ := mem_flatMap.mp hf
    have hl := hlawful _ hs fact hfact
    cases fact with
    | job event => simp [chunkFacts] at hf
    | ingest event =>
      cases event with
      | evidenceChunked body =>
        have hmem : chunkIdInput body.evidence_id f.kind f.byte_start f.content_hash ∈
            Fact.idInputs (.ingest (.evidenceChunked body)) := mem_map.mpr ⟨f,hf,rfl⟩
        have hsession : chunkIdInput body.evidence_id f.kind f.byte_start f.content_hash ∈
            Session.idInputs (.others ts_ms facts) := mem_flatMap.mpr ⟨_,hfact,hmem⟩
        exact ⟨body.evidence_id,mem_flatMap.mpr ⟨_,hs,hsession⟩,hl f hf⟩
      | _ => simp [chunkFacts] at hf

theorem named_in (hlawful : ∀ s ∈ run, s.Lawful blake3) (hids : IdsApart blake3 run)
    (hf : f ∈ run.flatMap Session.chunkFacts) :
    f.content_hash = nameIn run f.chunk_id := by
  rw [nameIn]
  cases hfind : (run.flatMap Session.chunkFacts).find? fun g => g.chunk_id = f.chunk_id with
  | none => exact absurd (List.find?_eq_none.mp hfind f hf) (by simp)
  | some g =>
    have hg := mem_of_find?_eq_some hfind
    have hsame : g.chunk_id = f.chunk_id := by simpa using List.find?_some hfind
    obtain ⟨e,hmem,hid⟩ := idInput_of_fact hlawful hf
    obtain ⟨e',hmem',hid'⟩ := idInput_of_fact hlawful hg
    rw [deriveChunkId] at hid hid'
    have htext := hids _ hmem _ hmem' (hid.symm.trans (hsame.symm.trans hid'))
    exact chunkIdInput_content htext

/-- In every run of sessions, each cut short anywhere, one content gets one
vector under one model, as long as no chunk meets its own content waiting in the
batch it is about to join. -/
theorem content_embedded_once (blake3 : Bytes → Digest) (run : List Session)
    (hlawful : ∀ s ∈ run, s.Lawful blake3) (hids : IdsApart blake3 run)
    (hapart : World.fresh.ApartRun run) : SharedVectors (World.fresh.after run) := by
  have hnames : ∀ s ∈ run, ∀ f ∈ s.chunkFacts, f.content_hash = nameIn run f.chunk_id := by
    intro s hs f hf
    exact named_in hlawful hids (mem_flatMap.mpr ⟨s,hs,hf⟩)
  have hkept := run_kept fresh_consistent hlawful hnames hapart
  exact ⟨hkept.once,hkept.vectors.shared⟩

end

/-! An item of two lines, embedded in one batch: once the lines differ, once
they are the same -/

def addedDemo : Fact := .ingest (.evidenceAdded
  { evidence_id := ⟨7⟩, source_id := ⟨1⟩, source_kind := "upload", external := ⟨"notes",none,none⟩,
    media_kind := .plainText, shape := .document, content_blob := 1, byte_size := 12,
    occurred_ts_ms := 0, author := none, title := none, thread_ref := none })

def startedDemo (stage : IngestStage) (job_id : JobId) : Fact := .ingest (.stageStarted
  { evidence_id := ⟨7⟩, source_id := ⟨1⟩, stage := stage, pass := 0, job_id := job_id,
    attempt_index := 0 })

def finishedDemo (stage : IngestStage) (output : IngestStageOutput) : Fact :=
  .ingest (.stageFinished
    { evidence_id := ⟨7⟩, source_id := ⟨1⟩, stage := stage, pass := 0, wall_ms := 1,
      bytes_read := 12, item_count := 2, output := output })

def lineChunk (ordinal : Nat) (chunk_id : ChunkId) (content_hash : Digest) : ChunkFact where
  chunk_id := chunk_id
  ordinal := ordinal
  kind := .documentSection
  byte_start := 6*ordinal
  byte_end := 6*ordinal+5
  locator := .lineRange ordinal ordinal
  content_hash := content_hash
  token_count_estimate := 2

def alphaHash : Digest := 0x644a9bc57c6063e2ba4028fa73ed585170ae7db8ac7723d32be49c021a0225f5#256

def bravoHash : Digest := 0x056f1e7edb1921e7246dba8bb329bd44d639c13673c5bcd60af67c06011a4c00#256

def lineBlake3 (bytes : Bytes) : Digest :=
  if bytes = chunkIdInput ⟨7⟩ .documentSection 0 alphaHash then
    0xe07364b61ab1823c21abfb3ce480709e32d30f34a67cc1741de558e61951bc24#256
  else if bytes = chunkIdInput ⟨7⟩ .documentSection 6 alphaHash then
    0x2ef825abcb2b0ac40ba7509e9f46768978042475f040de4394d2d5df2c84fca1#256
  else if bytes = chunkIdInput ⟨7⟩ .documentSection 6 bravoHash then
    0xa774e0687c5ee4a3b34b73e3d0e11b8bd37bbb2d066ed1f4c7bc888828aaa019#256
  else 0

def alphaChunk : ChunkFact := lineChunk 0 ⟨0xe07364b61ab1823c21abfb3ce480709e#128⟩ alphaHash

def bravoChunk : ChunkFact := lineChunk 1 ⟨0xa774e0687c5ee4a3b34b73e3d0e11b8b#128⟩ bravoHash

def alphaAgain : ChunkFact := lineChunk 1 ⟨0x2ef825abcb2b0ac40ba7509e9f467689#128⟩ alphaHash

def linesChunked (chunks : List ChunkFact) : Session := .others 0
  [addedDemo,
    startedDemo .normalize ⟨11⟩,
    finishedDemo .normalize (.normalized .document 2 11 3 2 .clean),
    startedDemo .chunk ⟨12⟩,
    .ingest (.evidenceChunked ⟨⟨7⟩,0,0,chunks⟩),
    finishedDemo .chunk (.chunked 2)]

def linesEmbedded (first second : String) : Session := .embed demoCall
  [{},{},{ text := .ok first },{},{ text := .ok second },{},{ batch := .ok ⟨1,[1,2]⟩ },
    { blob := .ok 5 },{ now_ms := 9 }]

def differentLines : List Session :=
  [linesChunked [alphaChunk,bravoChunk],linesEmbedded "alpha" "bravo"]

def sameLines : List Session :=
  [linesChunked [alphaChunk,alphaAgain],linesEmbedded "alpha" "alpha"]

variable {chunks : List ChunkFact}

section
variable (h : ∀ f ∈ chunks, f.chunk_id = deriveChunkId lineBlake3 ⟨7⟩ f.kind f.byte_start f.content_hash)
include h

theorem linesChunked_lawful :
    (linesChunked chunks).Lawful lineBlake3 := by
  intro fact hfact
  simp only [mem_cons,not_mem_nil,or_false] at hfact
  rcases hfact with rfl | rfl | rfl | rfl | rfl | rfl
  all_goals first | exact h | trivial

theorem run_lawful {first second : String} :
    ∀ s ∈ [linesChunked chunks,linesEmbedded first second], s.Lawful lineBlake3 := by
  intro s hs
  simp only [mem_cons,not_mem_nil,or_false] at hs
  rcases hs with rfl | rfl
  · exact linesChunked_lawful h
  · trivial

end

theorem content_embedded_once_lines :
    (World.fresh.after differentLines).2.inputs.length = 2 ∧
      SharedVectors (World.fresh.after differentLines) :=
  ⟨by decide +kernel,content_embedded_once lineBlake3 differentLines
    (run_lawful (by decide +kernel)) (by decide +kernel) (by decide +kernel)⟩

/-- Two lines of one text, waiting in one batch: neither has a committed vector
when the other is looked up, so both are sent and both are committed. -/
theorem content_embedded_twice :
    (∀ s ∈ sameLines, s.Lawful lineBlake3) ∧ IdsApart lineBlake3 sameLines ∧
      (World.fresh.after sameLines).2.inputs =
        [demoCall.inputKey alphaHash,demoCall.inputKey alphaHash] ∧
      loggedVectors (World.fresh.after sameLines).1.facts =
        [⟨demoCall.inputKey alphaHash,5,0⟩,⟨demoCall.inputKey alphaHash,5,1⟩] ∧
      ¬SharedVectors (World.fresh.after sameLines) := by
  have hinputs : (World.fresh.after sameLines).2.inputs =
      [demoCall.inputKey alphaHash,demoCall.inputKey alphaHash] := by decide +kernel
  refine ⟨run_lawful (by decide +kernel),by decide +kernel,hinputs,by decide +kernel,?_⟩
  intro hshared
  have honce := hshared.once
  rw [hinputs] at honce
  exact absurd honce (by decide)

end ProjectOS.Ingest
