import ProjectOS.Lib.Amid
import ProjectOS.Ingest.Embed

/-! Which chunks have a vector when EMBED ends. Other writers may append
whatever they like while the stage runs. -/

namespace ProjectOS.Ingest
open Lib Domain List Lib.Prog

def KeepsVectors (s t : Db) : Prop :=
  ∀ k, (s.tables.embeddings.get? k).isSome → (t.tables.embeddings.get? k).isSome

theorem keepsVectors_refl (s : Db) : KeepsVectors s s := fun _ h => h

theorem KeepsVectors.trans {s t u : Db} (h : KeepsVectors s t) (h' : KeepsVectors t u) :
    KeepsVectors s u := fun k hk => h' k (h k hk)

theorem appendOne_keepsVectors {db db' : Db} {ts_ms : Nat} {fact : Fact}
    (h : db.appendOne ts_ms fact = .ok db') : KeepsVectors db db' := by
  cases fact with
  | job event =>
    obtain ⟨-,htables,-⟩ := Db.appendOne_job h
    intro k hk
    rw [htables]
    exact hk
  | ingest event =>
    obtain ⟨htables,-,-⟩ := Db.appendOne_ingest h
    obtain ⟨-,-,-,hrows⟩ := EvidenceTables.apply_ok htables
    intro k hk
    rw [hrows]
    cases event with
    | evidenceEmbedded body => exact Table.puts_isSome _ _ hk
    | _ => exact hk

theorem appendBatch_keepsVectors {db db' : Db} {ts_ms : Nat} {facts : List Fact}
    (h : db.appendBatch ts_ms facts = .ok db') : KeepsVectors db db' :=
  Db.appendBatch_keeps keepsVectors_refl (fun _ _ _ => KeepsVectors.trans)
    (fun _ _ _ _ h => appendOne_keepsVectors h) h

theorem step_keepsVectors (i : IngestInput) (db : Db) (a : IngestAct) :
    KeepsVectors db (ingestMachine.step i db a).2 := by
  cases a with
  | append facts =>
    rcases Db.append_cases db i facts with ⟨db',ha,hb⟩ | ⟨e,ha⟩
    · simp only [ingestMachine,ha]
      exact appendBatch_keepsVectors hb
    · simp only [ingestMachine,ha]
      exact keepsVectors_refl db
  | _ => exact keepsVectors_refl db

def vectorsStay : Discipline ingestIface IngestInput Db where
  inv _ := True
  rely := KeepsVectors
  given _ _ _ := True
  may _ _ := True
  refl := keepsVectors_refl
  trans _ _ _ := KeepsVectors.trans

theorem vectors_upheld : Pool.Upheld ingestMachine vectorsStay :=
  fun x s a _ _ _ => ⟨trivial,step_keepsVectors x s a⟩

def Db.commit (db : Db) (batch : Nat × List Fact) : Db :=
  match db.appendBatch batch.1 batch.2 with
  | .ok db' => db'
  | .error _ => db

def Db.others (batches : List (Nat × List Fact)) (db : Db) : Db := batches.foldl Db.commit db

theorem commit_keepsVectors (db : Db) (batch : Nat × List Fact) :
    KeepsVectors db (db.commit batch) := by
  rw [Db.commit]
  cases h : db.appendBatch batch.1 batch.2 with
  | ok db' => exact appendBatch_keepsVectors h
  | error e => exact keepsVectors_refl db

theorem others_keepsVectors (batches : List (Nat × List Fact)) (db : Db) :
    KeepsVectors db (db.others batches) := by
  induction batches generalizing db with
  | nil => exact keepsVectors_refl db
  | cons b batches ih => exact (commit_keepsVectors db b).trans (ih _)

section
variable (c : EmbedCall)

def EmbedCall.vectorKey (chunk_id : ChunkId) : EmbeddingKey :=
  embeddingKey c.setup.model_name c.setup.enrichment_version chunk_id

def EmbedCall.HasVector (db : Db) (chunk_id : ChunkId) : Prop :=
  (db.tables.embeddings.get? (c.vectorKey chunk_id)).isSome

instance (db : Db) (chunk_id : ChunkId) : Decidable (c.HasVector db chunk_id) :=
  inferInstanceAs (Decidable (_ = true))

def EmbedCall.currentChunks (db : Db) : List (ChunkId × ChunkRow) :=
  db.tables.chunksOf c.context.evidence.evidence_id none

/-- Every chunk has its vector, and the product counts them. -/
structure EmbedCall.Covers (chunks : List (ChunkId × ChunkRow)) (product : StageProduct)
    (db : Db) : Prop where
  embedded : ∀ r ∈ chunks, c.HasVector db r.1
  counted : product.item_count = chunks.length

variable {c}

theorem EmbedCall.HasVector.kept {s t : Db} {chunk_id : ChunkId} (h : c.HasVector s chunk_id)
    (hst : KeepsVectors s t) : c.HasVector t chunk_id := hst _ h

abbrev Assured {α : Type} (p : IngestProg α) (Q : α → Db → Prop) (s : Db) : Prop :=
  p.Assured ingestMachine vectorsStay (Prog.returning Q) s

theorem append_assured {facts : List Fact} {Q : Unit → Db → Prop} {s : Db}
    (h : ∀ t u ts_ms, KeepsVectors s t → t.appendBatch ts_ms facts = .ok u → Q () u) :
    Prog.Assured ingestMachine vectorsStay (Prog.returning Q)
      (.act (.append facts) (fun r => .ofExcept (r.mapError IngestError.log))) s := by
  intro t hst _
  refine ⟨trivial,?_⟩
  intro x _ _ _
  have hstep : ingestMachine.step x t (.append facts) = t.append x facts := rfl
  rw [hstep]
  rcases Db.append_cases t x facts with ⟨u,ha,hb⟩ | ⟨e,ha⟩
  · rw [ha]
    exact h t u _ hst hb
  · rw [ha]
    trivial

theorem emit_assured {batch_index : Nat} {vectors_blob : Digest} {facts : List ChunkEmbeddingFact}
    {s : Db} : Assured (c.emit batch_index vectors_blob facts)
      (fun _ t => KeepsVectors s t ∧ ∀ f ∈ facts, c.HasVector t f.chunk_id) s := by
  apply assured_renamed
  rw [StageContext.emitEmbeddings]
  split_ifs with hlen hnil
  · trivial
  · exact ⟨keepsVectors_refl s,by simp [hnil]⟩
  · refine append_assured ?_
    intro t u ts_ms hst hb
    refine ⟨hst.trans (appendBatch_keepsVectors hb),?_⟩
    intro f hf
    obtain ⟨mid,h₁,h₂⟩ := Db.appendBatch_cons hb
    cases h₂
    obtain ⟨htables,-,-⟩ := Db.appendOne_ingest h₁
    obtain ⟨-,-,-,hrows⟩ := EvidenceTables.apply_ok htables
    rw [EmbedCall.HasVector,hrows]
    exact Table.puts_written _ _ hf

theorem mem_batchFacts {pending : List PendingChunk} {p : PendingChunk} (h : p ∈ pending) :
    ∃ f ∈ EmbedCall.batchFacts pending, f.chunk_id = p.chunk_id := by
  obtain ⟨i,hi⟩ := mem_iff_getElem?.mp h
  refine ⟨EmbedCall.batchFact p i,?_,rfl⟩
  exact mem_map.mpr ⟨(p,i),mem_zipIdx_iff_getElem?.mpr hi,rfl⟩

theorem act_assured {α : Type} {a : IngestAct} {k : ingestIface.Resp a → IngestProg α}
    {Q : α → Db → Prop} {s : Db} (h : ∀ t x, KeepsVectors s t →
      Assured (k (ingestMachine.step x t a).1) Q (ingestMachine.step x t a).2) :
    Assured (.act a k) Q s := fun t hst _ => ⟨trivial,fun x _ _ _ => h t x hst⟩

theorem chunkText_assured (chunk : ChunkRecord) (s : Db) :
    Assured (c.chunkText chunk) (fun _ t => KeepsVectors s t) s := by
  apply assured_renamed
  rw [StageContext.readTextRange]
  split_ifs
  · trivial
  · cases c.context.evidence.text_blob with
    | none => trivial
    | some hash =>
      intro t hst _
      refine ⟨trivial,?_⟩
      intro x _ _ _
      simp only [ingestMachine]
      cases x.text with
      | ok text => exact hst
      | error e => trivial

/-- The chunks gone through have their vectors or wait in the batch; counter and
batch together are as many. -/
structure Batched (c : EmbedCall) (seen : List ChunkId) (b : Batcher) (db : Db) : Prop where
  placed : ∀ j ∈ seen, c.HasVector db j ∨ ∃ p ∈ b.pending, p.chunk_id = j
  counted : seen.length ≤ u64Max → b.vector_count+b.pending.length = seen.length

variable {seen : List ChunkId} {b : Batcher} {s t : Db}

theorem Batched.later (h : Batched c seen b s) (hst : KeepsVectors s t) : Batched c seen b t :=
  ⟨fun j hj => (h.placed j hj).imp_left (EmbedCall.HasVector.kept · hst),h.counted⟩

variable {j : ChunkId}

theorem Batched.snoc {b' : Batcher} (h : Batched c seen b s) (hkept : KeepsVectors s t)
    (hpending : ∀ p ∈ b.pending, c.HasVector t p.chunk_id ∨ p ∈ b'.pending)
    (hj : c.HasVector t j ∨ ∃ p ∈ b'.pending, p.chunk_id = j)
    (hcount : b.vector_count+b.pending.length+1 ≤ u64Max →
      b'.vector_count+b'.pending.length = b.vector_count+b.pending.length+1) :
    Batched c (seen ++ [j]) b' t := by
  refine ⟨?_,?_⟩
  · intro i hi
    rcases mem_append.mp hi with hi | hi
    · rcases h.placed i hi with hv | ⟨p,hp,rfl⟩
      · exact Or.inl (hv.kept hkept)
      · exact (hpending p hp).imp_right fun hp => ⟨p,hp,rfl⟩
    · obtain rfl := mem_singleton.mp hi
      exact hj
  · intro hle
    rw [length_append,length_singleton] at hle ⊢
    have hn := h.counted (by omega)
    rw [hcount (by omega),hn]

theorem flush_assured (h : Batched c seen b s) : Assured (c.flush b)
    (fun b' t => Batched c seen b' t ∧ b'.pending = []) s := by
  rw [EmbedCall.flush]
  split_ifs with hempty
  · exact ⟨h,hempty⟩
  · refine act_assured ?_
    intro t x hst
    simp only [ingestMachine]
    cases x.batch with
    | error weather => trivial
    | ok batch =>
      simp only []
      split_ifs
      · trivial
      · refine act_assured ?_
        intro u y htu
        simp only [ingestMachine]
        cases y.blob with
        | error failure => trivial
        | ok vectors_blob =>
          refine assured_then emit_assured ?_
          intro _ v hv
          have hsv := (hst.trans htu).trans hv.1
          refine ⟨⟨?_,?_⟩,rfl⟩
          · intro j hj
            rcases h.placed j hj with hvec | ⟨p,hp,rfl⟩
            · exact Or.inl (hvec.kept hsv)
            · obtain ⟨f,hf,hid⟩ := mem_batchFacts hp
              exact Or.inl (hid ▸ hv.2 f hf)
          · intro hle
            have hn := h.counted hle
            simp only [length_nil,Nat.add_zero]
            rw [satAdd64_of_le (by omega),hn]

variable {pending : PendingChunk}

theorem commitReused_assured (hj : pending.chunk_id = j) (h : Batched c seen b s) :
    Assured (c.commitReused b pending) (fun b' t => Batched c (seen ++ [j]) b' t) s := by
  rw [EmbedCall.commitReused]
  cases pending.reuse with
  | none => trivial
  | some reuse =>
    refine assured_then emit_assured ?_
    intro _ t ht
    refine h.snoc ht.1 (fun p hp => Or.inr hp) (Or.inl ?_) ?_
    · rw [← hj]
      exact ht.2 _ (mem_singleton.mpr rfl)
    · intro hle
      change satAdd64 b.vector_count 1+b.pending.length = _
      rw [satAdd64_of_le (by omega)]
      omega

theorem Batched.wait {tokens : List Nat} {longest : Nat} (hj : pending.chunk_id = j)
    (h : Batched c seen b s) :
    Batched c (seen ++ [j])
      { b with candidate_tokens := tokens, longest_tokens := longest,
               pending := b.pending ++ [pending] } s := by
  refine h.snoc (keepsVectors_refl s) ?_ (Or.inr ⟨pending,by simp,hj⟩) ?_
  · intro p hp
    exact Or.inr (mem_append_left _ hp)
  · intro _
    change b.vector_count+(b.pending ++ [pending]).length = _
    rw [length_append,length_singleton]
    omega

theorem enter_assured (hj : pending.chunk_id = j) (h : Batched c seen b s) :
    Assured (c.enter b pending) (fun b' t => Batched c (seen ++ [j]) b' t) s := by
  have hcandidate : ∀ tokens, Batched c seen { b with candidate_tokens := tokens } s :=
    fun _ => ⟨h.placed,h.counted⟩
  rw [EmbedCall.enter]
  refine assured_then (P := fun b' t => Batched c seen b' t) ?_ ?_
  · split_ifs
    · refine assured_then (flush_assured (hcandidate _)) ?_
      intro b' t hb
      exact ⟨hb.1.placed,hb.1.counted⟩
    · exact hcandidate _
  · intro b' t hb
    exact hb.wait hj

variable {chunk : ChunkRecord}

theorem push_assured (h : Batched c seen b s) :
    Assured (c.push b chunk) (fun b' t => Batched c (seen ++ [chunk.chunk_id]) b' t) s := by
  rw [EmbedCall.push]
  refine assured_then (chunkText_assured chunk s) ?_
  intro text t hst
  refine act_assured ?_
  intro u x htu
  have hread : Batched c seen { b with bytes_read := satAdd64 b.bytes_read text.utf8ByteSize } u :=
    ⟨(h.later (hst.trans htu)).placed,h.counted⟩
  simp only [ingestMachine,IngestInput.read]
  cases x.fault with
  | some fault => trivial
  | none =>
    simp only []
    split_ifs
    · exact commitReused_assured rfl hread
    · exact enter_assured rfl hread

variable {done : List ChunkId}

theorem takeChunk_assured (h : Batched c seen b s) (hdone : ∀ j ∈ done, c.HasVector s j) :
    Assured (c.takeChunk done b chunk)
      (fun b' t => Batched c (seen ++ [chunk.chunk_id]) b' t) s := by
  rw [EmbedCall.takeChunk]
  split_ifs with hmem
  · refine h.snoc (keepsVectors_refl s) (fun p hp => Or.inr hp) (Or.inl (hdone _ hmem)) ?_
    intro hle
    change satAdd64 b.vector_count 1+b.pending.length = _
    rw [satAdd64_of_le (by omega)]
    omega
  · exact push_assured h

def Embedded (c : EmbedCall) (chunks : List ChunkRecord) (product : StageProduct) (db : Db) : Prop :=
  (∀ r ∈ chunks, c.HasVector db r.chunk_id) ∧
    (chunks.length ≤ u64Max → product.item_count = chunks.length)

theorem alreadyEmbedded_assured (s : Db) :
    Assured c.alreadyEmbedded (fun done t => ∀ j ∈ done, c.HasVector t j) s := by
  rw [EmbedCall.alreadyEmbedded]
  refine act_assured ?_
  intro t x _
  simp only [ingestMachine,IngestInput.read]
  cases x.fault with
  | some fault => trivial
  | none =>
    intro j hj
    obtain ⟨r,hr,rfl⟩ := mem_map.mp hj
    obtain ⟨row,hrow,-,-⟩ := EvidenceTables.mem_listChunkEmbeddings hr
    simp only [EmbedCall.HasVector,EmbedCall.vectorKey,hrow,Option.isSome_some]

theorem loop_assured (chunks : List ChunkRecord)
    (h : Batched c seen b s) (hdone : ∀ j ∈ done, c.HasVector s j) :
    Assured (chunks.foldlM (c.takeChunk done) b)
      (fun b' t => Batched c (seen ++ chunks.map ChunkRecord.chunk_id) b' t) s := by
  induction chunks generalizing seen b s with
  | nil =>
    change Batched c (seen ++ []) b s
    rw [append_nil]
    exact h
  | cons chunk chunks ih =>
    rw [foldlM_cons]
    refine assured_bind (assured_mono ?_
      (assured_rely (takeChunk_assured h hdone)))
    intro r t hr
    cases r with
    | error e => trivial
    | ok b' =>
      have hrest := ih hr.1 (fun j hj => (hdone j hj).kept hr.2)
      rw [append_assoc] at hrest
      exact hrest

theorem embedChunks_assured (chunks : List ChunkRecord) (s : Db) :
    Assured (c.alreadyEmbedded.bind (c.embedChunks chunks)) (Embedded c chunks) s := by
  refine assured_then (alreadyEmbedded_assured s) ?_
  intro done t hdone
  rw [EmbedCall.embedChunks]
  have hfresh : Batched c [] Batcher.new t := ⟨by simp,fun _ => rfl⟩
  refine assured_then (loop_assured chunks hfresh hdone) ?_
  intro b u hu
  rw [nil_append] at hu
  refine assured_then (flush_assured hu) ?_
  intro b' v hv
  refine ⟨?_,?_⟩
  · intro r hr
    rcases hv.1.placed r.chunk_id (mem_map_of_mem hr) with hvec | ⟨p,hp,-⟩
    · exact hvec
    · rw [hv.2] at hp
      exact absurd hp not_mem_nil
  · intro hle
    have hn := hv.1.counted (by rw [length_map]; exact hle)
    rw [hv.2,length_map] at hn
    exact hn

theorem Embedded.later {chunks : List ChunkRecord} {product : StageProduct}
    (h : Embedded c chunks product s) (hst : KeepsVectors s t) : Embedded c chunks product t :=
  ⟨fun r hr => (h.1 r hr).kept hst,h.2⟩

end

section
variable {c : EmbedCall} {env : Nat → IngestInput × List (Nat × List Fact)} {n : Nat} {db : Db}
  {product : StageProduct}

theorem embedItem_embeds
    (h : (c.embedItem.run (ingestMachine.amid Db.others) env n db).1 = .ok product) :
    Embedded c (db.tables.listChunks c.context.evidence.evidence_id none embedChunkCountMax) product
      (c.embedItem.after (ingestMachine.amid Db.others) env n db) := by
  rw [EmbedCall.embedItem] at h ⊢
  split_ifs at h ⊢ with hdim
  · cases h
  · have hread : ((ingestMachine.amid Db.others).step (env n) db (.listChunks
        c.context.evidence.evidence_id none embedChunkCountMax)).1 =
        (env n).1.read (db.tables.listChunks c.context.evidence.evidence_id none
          embedChunkCountMax) := rfl
    rw [EmbedCall.listed,act_bind,run_act,hread] at h
    rw [EmbedCall.listed,act_bind,Prog.after,run_act,hread]
    cases hfault : (env n).1.fault with
    | some fault =>
      rw [IngestInput.read,hfault] at h
      cases h
    | none =>
      rw [IngestInput.read,hfault] at h ⊢
      simp only [ret_bind] at h ⊢
      split_ifs at h ⊢ with hempty
      · rw [hempty]
        cases h
        exact ⟨by simp,fun _ => rfl⟩
      · have hrun := assured_run vectors_upheld
          (fun batches s _ => ⟨trivial,others_keepsVectors batches s⟩) (fun _ _ _ => trivial) ?_
          env (n+1) (embedChunks_assured (c := c) (db.tables.listChunks
            c.context.evidence.evidence_id none embedChunkCountMax)
            ((ingestMachine.amid Db.others).step (env n) db (.listChunks
              c.context.evidence.evidence_id none embedChunkCountMax)).2) trivial
        · rw [h] at hrun
          exact hrun
        · intro r s t hst hr
          cases r with
          | ok a => exact Embedded.later hr hst
          | error e => trivial

theorem listed_covers {db' : Db} (h : Embedded c (db.tables.listChunks
      c.context.evidence.evidence_id none embedChunkCountMax) product db') :
    c.Covers (c.currentChunks db) product db' ↔
      (c.currentChunks db).length ≤ embedChunkCountMax := by
  obtain ⟨hvectors,hcount⟩ := h
  have hmin : min embedChunkCountMax evidenceListRowCountMax = embedChunkCountMax := rfl
  have hlen := @EvidenceTables.listChunks_length db.tables c.context.evidence.evidence_id
    none embedChunkCountMax
  rw [hmin] at hlen
  have hsmall : embedChunkCountMax ≤ u64Max := by decide
  have hitems := hcount (by rw [hlen]; exact le_trans (min_le_left _ _) hsmall)
  rw [hlen] at hitems
  constructor
  · intro hcovers
    have hcounted := hcovers.counted
    rw [hitems,EmbedCall.currentChunks] at hcounted
    exact hcounted ▸ min_le_left _ _
  · intro hle
    refine ⟨?_,?_⟩
    · intro r hr
      exact hvectors _ (EvidenceTables.mem_listChunks (by rw [hmin]; exact hle) hr)
    · rw [hitems]
      exact min_eq_right hle

/-- EMBED covers its item exactly when the chunk pass it lists fits the bound of the
listing, whatever others append meanwhile; where the item's chunks are still the listed
ones when the stage ends, it is about the chunks then current. -/
theorem embed_covers_iff (c : EmbedCall) (env : Nat → IngestInput × List (Nat × List Fact))
    (n : Nat) (db : Db) (product : StageProduct)
    (h : (c.embedItem.run (ingestMachine.amid Db.others) env n db).1 = .ok product) :
    let db' := c.embedItem.after (ingestMachine.amid Db.others) env n db
    (c.Covers (c.currentChunks db) product db' ↔
        (c.currentChunks db).length ≤ embedChunkCountMax) ∧
      (c.currentChunks db' = c.currentChunks db →
        (c.Covers (c.currentChunks db') product db' ↔
          (c.currentChunks db').length ≤ embedChunkCountMax)) := by
  have hcovers := listed_covers (embedItem_embeds h)
  refine ⟨hcovers,?_⟩
  intro hsame
  rw [hsame]
  exact hcovers

end

section
variable {c : EmbedCall} {env : Nat → IngestInput × List (Nat × List Fact)} {n : Nat} {db : Db}

theorem loop_skips {done : List ChunkId} (chunks : List ChunkRecord) (b : Batcher)
    (h : ∀ r ∈ chunks, r.chunk_id ∈ done) (hle : b.vector_count+chunks.length ≤ u64Max) :
    chunks.foldlM (c.takeChunk done) b =
      .ret { b with vector_count := b.vector_count+chunks.length } := by
  induction chunks generalizing b with
  | nil => rfl
  | cons chunk chunks ih =>
    rw [length_cons] at hle
    have hskip : c.takeChunk done b chunk = .ret b.skipCommitted := by
      rw [EmbedCall.takeChunk,if_pos (h chunk (by simp))]
    have hcount : b.skipCommitted.vector_count = b.vector_count+1 := satAdd64_of_le (by omega)
    rw [foldlM_cons,hskip,bind_eq,ret_bind,
      ih b.skipCommitted (fun r hr => h r (mem_cons_of_mem _ hr)) (by omega),hcount,
      length_cons,Nat.add_assoc,Nat.add_comm 1]
    rfl

theorem embedItem_idle {chunks : List ChunkRecord} (hdim : c.dim = c.setup.dim)
    (hlist : db.tables.listChunks c.context.evidence.evidence_id none embedChunkCountMax = chunks)
    (hne : chunks ≠ [])
    (hdone : ∀ r ∈ chunks, r.chunk_id ∈ (db.tables.listChunkEmbeddings
      c.context.evidence.evidence_id c.setup.model_name c.setup.enrichment_version
      embedChunkCountMax).map ChunkEmbeddingRecord.chunk_id)
    (hcalm : ∀ n, (env n).1.fault = none ∧ (env n).2 = []) :
    c.embedItem.run (ingestMachine.amid Db.others) env n db =
      (.ok ⟨.none,0,chunks.length⟩,n+2,db) := by
  have hbound : chunks.length ≤ u64Max := by
    have hlen := @EvidenceTables.listChunks_length db.tables
      c.context.evidence.evidence_id none embedChunkCountMax
    have hsmall : min embedChunkCountMax evidenceListRowCountMax ≤ u64Max := by decide
    rw [hlist] at hlen
    rw [hlen]
    exact le_trans (min_le_left _ _) hsmall
  have hloop := loop_skips (c := c) chunks Batcher.new hdone (by simpa [Batcher.new] using hbound)
  rw [EmbedCall.embedItem,if_neg (not_not.mpr hdim)]
  simp only [EmbedCall.listed,run_act,Machine.amid,ingestMachine,IngestInput.read,
    (hcalm _).1,(hcalm _).2,hlist,if_neg hne,EmbedCall.embedChunks,EmbedCall.alreadyEmbedded,
    act_bind,ret_bind,Db.others,foldl_nil]
  rw [hloop]
  simp [EmbedCall.finish,EmbedCall.flush,Batcher.new]

end

def demoEvidence : EvidenceRow where
  source_id := ⟨1⟩
  source_kind := "upload"
  external := ⟨"notes",none,none⟩
  media_kind := .plainText
  content_blob := 1
  byte_size := 4000
  occurred_ts_ms := 0
  author := none
  title := none
  thread_ref := none
  added_seq := 1
  shape := .document
  status := .chunked
  pass := 0
  text_blob := some 2
  text_byte_size := some 4000
  segments_blob := some 3
  segment_count := some 600
  canary_level := none
  chunk_count := 0
  chunk_pass := some 0
  updated_seq := 1

def demoChunk (ordinal : Nat) : ChunkId × ChunkRow :=
  (⟨BitVec.ofNat 128 ordinal⟩,
    { evidence_id := ⟨7⟩, ordinal := ordinal, kind := .documentSection, byte_start := 6*ordinal,
      byte_end := 6*ordinal+6, locator_kind := .lineRange, locator_start := ordinal,
      locator_end := ordinal, content_hash := BitVec.ofNat 256 ordinal,
      token_count_estimate := 2, pass := 0, created_seq := 2 })

def demoVector (ordinal : Nat) : EmbeddingKey × EmbeddingRow :=
  (embeddingKey "bge-small-en-v1.5" 0 ⟨BitVec.ofNat 128 ordinal⟩,
    { evidence_id := ⟨7⟩, dim := 1, vectors_blob := 9, row := ordinal,
      content_hash := BitVec.ofNat 256 ordinal, token_count := 2, truncated := false, pass := 0,
      created_seq := 3 })

theorem demoId_lt {i j : Nat} (hij : i < j) (hj : j < 2^128) :
    (⟨BitVec.ofNat 128 i⟩ : ChunkId) < ⟨BitVec.ofNat 128 j⟩ := by
  change (BitVec.ofNat 128 i).toNat < (BitVec.ofNat 128 j).toNat
  rw [BitVec.toNat_ofNat,BitVec.toNat_ofNat,Nat.mod_eq_of_lt (hij.trans hj),Nat.mod_eq_of_lt hj]
  exact hij

def demoTables (chunk_count vector_count : Nat) (hc : chunk_count < 2^128)
    (hv : vector_count < 2^128) : EvidenceTables where
  evidence := Table.empty.put ⟨7⟩ demoEvidence
  stages := Table.empty
  chunks := ⟨(List.range chunk_count).map demoChunk,by
    rw [pairwise_map]
    refine pairwise_lt_range.imp_of_mem ?_
    intro i j _ hj hij
    exact demoId_lt hij ((mem_range.mp hj).trans hc)⟩
  embeddings := ⟨(List.range vector_count).map demoVector,by
    rw [pairwise_map]
    refine pairwise_lt_range.imp_of_mem ?_
    intro i j _ hj hij
    exact Prod.Lex.toLex_lt_toLex.mpr
      (Or.inl (demoId_lt hij ((mem_range.mp hj).trans hv)))⟩

def demoDb (chunk_count vector_count : Nat) (hc : chunk_count < 2^128)
    (hv : vector_count < 2^128) : Db :=
  ⟨{ Sched.Db.empty with head := 3 },[],demoTables chunk_count vector_count hc hv⟩

def demoCall : EmbedCall where
  context := ⟨demoEvidence.intoRecord ⟨7⟩,.embed,0⟩
  setup := ⟨"bge-small-en-v1.5",1,0⟩
  dim := 1

def demoModel (n : Nat) : IngestInput × List (Nat × List Fact) :=
  ({ now_ms := n, text := .ok "alpha", batch := .ok ⟨1,[1,2]⟩, blob := .ok 5 },[])

theorem embed_covers_two :
    let db := demoDb 2 0 (by decide) (by decide)
    demoCall.Covers (demoCall.currentChunks db) ⟨.none,10,2⟩
      (demoCall.embedItem.after (ingestMachine.amid Db.others) demoModel 0 db) :=
  (embed_covers_iff demoCall demoModel 0 (demoDb 2 0 (by decide) (by decide)) ⟨.none,10,2⟩
    (by decide)).1.mpr (by decide)

def crowded : Db := demoDb 501 500 (by decide) (by decide)

def crowdedIds : List ChunkId := (List.range 500).map fun i => ⟨BitVec.ofNat 128 i⟩

theorem crowded_listed : (crowded.tables.listChunks ⟨7⟩ none embedChunkCountMax).map
    ChunkRecord.chunk_id = crowdedIds := by decide +kernel

theorem crowded_embedded : (crowded.tables.listChunkEmbeddings ⟨7⟩ "bge-small-en-v1.5" 0
    embedChunkCountMax).map ChunkEmbeddingRecord.chunk_id = crowdedIds := by decide +kernel

theorem crowded_chunks : demoChunk 500 ∈ demoCall.currentChunks crowded ∧
    (demoCall.currentChunks crowded).length = 501 := by decide +kernel

theorem crowded_vector : ¬demoCall.HasVector crowded (demoChunk 500).1 := by decide +kernel

/-- The stage lists five hundred chunks, skips them all and reports success. -/
theorem embed_misses_chunk :
    demoCall.embedItem.run (ingestMachine.amid Db.others) demoModel 0 crowded =
        (.ok ⟨.none,0,500⟩,2,crowded) ∧
      (demoCall.currentChunks crowded).length = 501 ∧
      demoChunk 500 ∈ demoCall.currentChunks crowded ∧
      ¬demoCall.HasVector crowded (demoChunk 500).1 ∧
      ¬demoCall.Covers (demoCall.currentChunks crowded) ⟨.none,0,500⟩ crowded := by
  have hlen : (crowded.tables.listChunks ⟨7⟩ none embedChunkCountMax).length = 500 := by
    have hids := congrArg List.length crowded_listed
    simpa [crowdedIds] using hids
  have hitem : crowded.tables.listChunks demoCall.context.evidence.evidence_id none
      embedChunkCountMax = crowded.tables.listChunks ⟨7⟩ none embedChunkCountMax := rfl
  have hrun := @embedItem_idle demoCall demoModel 0 crowded _ rfl hitem
    (ne_nil_of_length_pos (by rw [hlen]; decide)) ?_ (fun _ => ⟨rfl,rfl⟩)
  · rw [hlen] at hrun
    exact ⟨hrun,crowded_chunks.2,crowded_chunks.1,crowded_vector,
      fun hcovers => crowded_vector (hcovers.embedded _ crowded_chunks.1)⟩
  · intro r hr
    have hmem : r.chunk_id ∈ crowdedIds := crowded_listed ▸ mem_map_of_mem hr
    rw [← crowded_embedded] at hmem
    exact hmem

end ProjectOS.Ingest
