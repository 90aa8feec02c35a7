import ProjectOS.Lib.Crash
import ProjectOS.Ingest.Coverage

/-! EMBED stopped anywhere and run once more: the batches it dispatches, and
the rows it leaves. -/

namespace ProjectOS.Ingest
open Lib Domain List Lib.Prog

structure Surroundings where
  text : Digest → Nat → Nat → Except IngestError String
  vectors : String → List String → Nat → Except Gateway.Weather EmbedBatch
  blob : Bytes → Except BlobFailure Digest

def calmInput (e : Surroundings) : IngestAct → IngestInput
  | .readText blob byte_start byte_count => { text := e.text blob byte_start byte_count }
  | .embed model_id inputs enrichment_version =>
    { batch := e.vectors model_id inputs enrichment_version }
  | .writeBlob bytes => { blob := e.blob bytes }
  | _ => {}

def calmIngest (e : Surroundings) : Machine ingestIface Unit Db where
  step _ db a := ingestMachine.step (calmInput e a) db a

def IngestAct.IsCommit : IngestAct → Prop
  | .append _ => True
  | _ => False

def IngestAct.batch : IngestAct → Option (List String)
  | .embed _ inputs _ => some inputs
  | _ => none

def dispatched (acts : List IngestAct) : List (List String) := acts.filterMap IngestAct.batch

structure Delivery where
  waiting : Option (List String)
  committed : List (List String)

def Delivery.note (d : Delivery) : IngestAct → Delivery
  | .embed _ inputs _ => { d with waiting := some inputs }
  | .append _ => ⟨none,d.committed ++ d.waiting.toList⟩
  | _ => d

def settled (acts : List IngestAct) : List (List String) :=
  (acts.foldl Delivery.note ⟨none,[]⟩).committed

namespace EmbedCall
variable (c : EmbedCall)

def chunksIn (db : Db) : List ChunkRecord :=
  db.tables.listChunks c.context.evidence.evidence_id none embedChunkCountMax

def doneIn (db : Db) : List ChunkId :=
  (db.tables.listChunkEmbeddings c.context.evidence.evidence_id c.setup.model_name
    c.setup.enrichment_version embedChunkCountMax).map ChunkEmbeddingRecord.chunk_id

def Held (db : Db) (chunk_id : ChunkId) : Bool :=
  (db.tables.embeddings.get? (c.vectorKey chunk_id)).any fun row =>
    decide (row.evidence_id = c.context.evidence.evidence_id)

def Recognised (db : Db) : Prop :=
  ∀ r ∈ c.chunksIn db, c.Held db r.chunk_id = true → r.chunk_id ∈ c.doneIn db

def behind (e : Surroundings) (db : Db) (n : Nat) : Option (Batcher × Db) :=
  match (((c.chunksIn db).take n).foldlM (c.takeChunk (c.doneIn db)) Batcher.new).exec
    (calmIngest e) db with
  | (.ok b,db') => some (b,db')
  | (.error _,_) => none

def crashed (e : Surroundings) (k : Nat) (db : Db) : Db :=
  c.embedItem.stopped (calmIngest e) k db

/-- The listing shows what is embedded, before the attempt and at the crash, and
no chunk that waits in the batch has a content whose vector was committed in the
meantime. -/
def Resumable (e : Surroundings) (k : Nat) (db : Db) : Prop :=
  c.Recognised db ∧ c.Recognised (c.crashed e k db) ∧
    ∀ n ≤ (c.chunksIn db).length, ∀ stand ∈ c.behind e db n,
      stand.2.tables = (c.crashed e k db).tables → ∀ p ∈ stand.1.pending,
        stand.2.tables.findEmbeddingByContent p.content_hash c.setup.model_name
          c.setup.enrichment_version = none

instance (db : Db) : Decidable (c.Recognised db) :=
  inferInstanceAs (Decidable (∀ r ∈ _, _ → _))

/-- The attempt that follows a crash dispatches the batches that were not
committed before it, and what is left of them are the same rows. -/
structure Resumes (e : Surroundings) (k : Nat) (db : Db) : Prop where
  batches : dispatched (c.embedItem.acts (calmIngest e) db) =
    settled ((c.embedItem.acts (calmIngest e) db).take k) ++
      dispatched (c.embedItem.acts (calmIngest e) (c.crashed e k db))
  rows : (c.embedItem.exec (calmIngest e) (c.crashed e k db)).2.tables =
    (c.embedItem.exec (calmIngest e) db).2.tables
  ending : (c.embedItem.exec (calmIngest e) (c.crashed e k db)).1.map (fun _ => ()) =
    (c.embedItem.exec (calmIngest e) db).1.map fun _ => ()

end EmbedCall

section
variable {e : Surroundings} {db s t : Db} {c : EmbedCall} {b b' : Batcher}

theorem calm_quiet (s : Db) (a : IngestAct) (h : ¬a.IsCommit) :
    ((calmIngest e).step () s a).2 = s := by
  cases a with
  | append facts => exact absurd trivial h
  | _ => rfl

def IngestAct.Idle (a : IngestAct) : Prop := ¬a.IsCommit ∧ a.batch = none

theorem idle_quiet {α : Type} {p : IngestProg α} (h : p.Within IngestAct.Idle) :
    p.Within fun a : IngestAct => ¬a.IsCommit := within_mono (fun _ ha => ha.1) h

variable {acts : List IngestAct}

theorem dispatched_idle (h : ∀ a ∈ acts, IngestAct.Idle a) : dispatched acts = [] :=
  filterMap_eq_nil_iff.mpr fun a ha => (h a ha).2

def Db.embedded (db : Db) (body : EvidenceEmbedded) : Db where
  queue := { db.queue with head := db.queue.head+1 }
  facts := db.facts ++ [.ingest (.evidenceEmbedded body)]
  tables := { db.tables with
    embeddings := applyEmbeddings db.tables.embeddings (db.queue.head+1) (.evidenceEmbedded body) }

namespace EmbedCall

def embedding (c : EmbedCall) (batch_index : Nat) (vectors_blob : Digest)
    (facts : List ChunkEmbeddingFact) : EvidenceEmbedded :=
  { evidence_id := c.context.evidence.evidence_id, source_id := c.context.evidence.source_id,
    pass := c.context.pass, batch_index := batch_index, model_id := c.setup.model_name,
    dim := c.dim, enrichment_version := c.setup.enrichment_version,
    vectors_blob := vectors_blob, chunks := facts }

def committed (c : EmbedCall) (db : Db) (batch_index : Nat) (vectors_blob : Digest)
    (facts : List ChunkEmbeddingFact) : Db :=
  if facts = [] then db else db.embedded (c.embedding batch_index vectors_blob facts)

variable (batch_index : Nat) (vectors_blob : Digest) (facts : List ChunkEmbeddingFact)

theorem emit_exec (db : Db) :
    (c.emit batch_index vectors_blob facts).exec (calmIngest e) db =
      if embedBatchCountMax < facts.length then
        (.error (ingestFailure "embed_commit"
          (.limitExceeded "embed batch" facts.length embedBatchCountMax)),db)
      else (.ok (),c.committed db batch_index vectors_blob facts) := by
  rw [emit,StageContext.emitEmbeddings,committed]
  split_ifs with hlong hnone
  · rfl
  · rfl
  · rfl

theorem emit_acts (db : Db) :
    (c.emit batch_index vectors_blob facts).acts (calmIngest e) db =
      if embedBatchCountMax < facts.length ∨ facts = [] then []
      else [.append [.ingest (.evidenceEmbedded (c.embedding batch_index vectors_blob facts))]] := by
  rw [emit,StageContext.emitEmbeddings]
  by_cases hlong : embedBatchCountMax < facts.length
  · rw [if_pos hlong,if_pos (Or.inl hlong)]
    rfl
  · rw [if_neg hlong]
    by_cases hnone : facts = []
    · rw [if_pos hnone,if_pos (Or.inr hnone)]
      rfl
    · rw [if_neg hnone,if_neg (fun h => h.elim hlong hnone)]
      rfl

theorem emit_fails :
    (c.emit batch_index vectors_blob facts).FailsQuietly (calmIngest e) IngestAct.IsCommit := by
  intro s error t hend
  rw [emit_exec] at hend
  rw [emit_acts]
  split at hend
  · rename_i hlong
    cases hend
    rw [if_pos (Or.inl hlong)]
    exact ⟨rfl,fun _ h => absurd h not_mem_nil⟩
  · cases hend

theorem emit_endsIn : (c.emit batch_index vectors_blob facts).EndsIn IngestAct.IsCommit := by
  apply endsIn_mapError
  rw [StageContext.emitEmbeddings]
  split_ifs
  · trivial
  · trivial
  · refine ⟨fun r => ?_,fun _ r => ?_⟩
    all_goals cases r <;> trivial

theorem chunkText_idle (chunk : ChunkRecord) : (c.chunkText chunk).Within IngestAct.Idle := by
  apply within_mapError
  rw [StageContext.readTextRange]
  split_ifs
  · trivial
  · cases c.context.evidence.text_blob with
    | none => trivial
    | some hash =>
      refine ⟨⟨fun h => h,rfl⟩,fun r => ?_⟩
      cases r <;> trivial

def textOf (c : EmbedCall) (e : Surroundings) (chunk : ChunkRecord) : Except StageFailure String :=
  ((c.chunkText chunk).exec (calmIngest e) Db.empty).1

theorem chunkText_exec (chunk : ChunkRecord) (db : Db) :
    (c.chunkText chunk).exec (calmIngest e) db = (c.textOf e chunk,db) := by
  rw [textOf,chunkText,StageContext.readTextRange]
  split_ifs
  · rfl
  · cases c.context.evidence.text_blob with
    | none => rfl
    | some hash =>
      rw [exec_mapError,exec_mapError,exec_act,exec_act]
      have hstep : ∀ db, (calmIngest e).step () db
          (.readText hash chunk.byte_start (chunk.byte_end-chunk.byte_start)) =
          (e.text hash chunk.byte_start (chunk.byte_end-chunk.byte_start),db) := fun _ => rfl
      rw [hstep,hstep]
      cases e.text hash chunk.byte_start (chunk.byte_end-chunk.byte_start) <;> rfl

variable (b : Batcher)

theorem flush_endsIn : (c.flush b).EndsIn IngestAct.IsCommit := by
  rw [flush]
  split_ifs
  · trivial
  · refine ⟨fun answer => ?_,fun h => h.elim⟩
    cases answer with
    | error weather => trivial
    | ok batch =>
      dsimp only
      split_ifs
      · trivial
      · refine ⟨fun answer => ?_,fun h => h.elim⟩
        cases answer with
        | error failure => trivial
        | ok vectors_blob => exact endsIn_then (emit_endsIn _ _ _) fun _ => trivial

theorem flush_fails : (c.flush b).FailsQuietly (calmIngest e) IngestAct.IsCommit := by
  rw [flush]
  split_ifs
  · exact failsQuietly_ret _
  · refine failsQuietly_act calm_quiet (fun h => h) fun answer => ?_
    cases answer with
    | error weather => exact failsQuietly_throw _
    | ok batch =>
      dsimp only
      split_ifs
      · exact failsQuietly_throw _
      · refine failsQuietly_act calm_quiet (fun h => h) fun answer => ?_
        cases answer with
        | error failure => exact failsQuietly_throw _
        | ok vectors_blob => exact failsQuietly_then (emit_fails _ _ _)

theorem enter_endsIn (pending : PendingChunk) : (c.enter b pending).EndsIn IngestAct.IsCommit := by
  refine endsIn_then ?_ fun _ => trivial
  split_ifs
  · exact endsIn_then (flush_endsIn _) fun _ => trivial
  · trivial

theorem enter_fails (pending : PendingChunk) :
    (c.enter b pending).FailsQuietly (calmIngest e) IngestAct.IsCommit := by
  refine failsQuietly_then ?_
  split_ifs
  · exact failsQuietly_then (flush_fails _)
  · exact failsQuietly_ret _

theorem takeChunk_endsIn (done : List ChunkId) (b : Batcher) (chunk : ChunkRecord) :
    (c.takeChunk done b chunk).EndsIn IngestAct.IsCommit := by
  rw [takeChunk]
  split_ifs
  · trivial
  · refine endsIn_bind (idle_quiet (chunkText_idle chunk)) fun text =>
      ⟨fun found => ?_,fun h => h.elim⟩
    cases found with
    | error fault => trivial
    | ok found =>
      dsimp only
      split_ifs
      · rw [commitReused]
        split
        · trivial
        · exact endsIn_then (emit_endsIn _ _ _) fun _ => trivial
      · exact enter_endsIn _ _

theorem takeChunk_fails (done : List ChunkId) (b : Batcher) (chunk : ChunkRecord) :
    (c.takeChunk done b chunk).FailsQuietly (calmIngest e) IngestAct.IsCommit := by
  rw [takeChunk]
  split_ifs
  · exact failsQuietly_ret _
  · refine failsQuietly_bind calm_quiet (idle_quiet (chunkText_idle chunk)) fun text =>
      failsQuietly_act calm_quiet (fun h => h) fun found => ?_
    cases found with
    | error fault => exact failsQuietly_throw _
    | ok found =>
      dsimp only
      split_ifs
      · rw [commitReused]
        split
        · exact failsQuietly_throw _
        · exact failsQuietly_then (emit_fails _ _ _)
      · exact enter_fails _ _

theorem finish_endsIn : (c.finish b).EndsIn IngestAct.IsCommit :=
  endsIn_then (flush_endsIn b) fun _ => trivial

theorem finish_fails : (c.finish b).FailsQuietly (calmIngest e) IngestAct.IsCommit :=
  failsQuietly_then (flush_fails b)

def waitingOf (c : EmbedCall) (e : Surroundings) (chunk : ChunkRecord) : PendingChunk :=
  pendingChunk chunk ((c.textOf e chunk).toOption.getD "") none

def lookup (c : EmbedCall) (db : Db) (content_hash : Digest) : Option ChunkEmbeddingRecord :=
  db.tables.findEmbeddingByContent content_hash c.setup.model_name c.setup.enrichment_version

def Admits (tokens : List Nat) : Prop :=
  tokens.length ≤ batchCountMax ∧ (EmbedBatchPlan.default.check tokens).isOk

instance (tokens : List Nat) : Decidable (Admits tokens) := inferInstanceAs (Decidable (_ ∧ _))

end EmbedCall

def Complete (acts : List IngestAct) : Prop :=
  acts.foldl Delivery.note ⟨none,[]⟩ = ⟨none,dispatched acts⟩

theorem note_committed (acts : List IngestAct) (d : Delivery) :
    acts.foldl Delivery.note d =
      ⟨(acts.foldl Delivery.note ⟨d.waiting,[]⟩).waiting,
        d.committed ++ (acts.foldl Delivery.note ⟨d.waiting,[]⟩).committed⟩ := by
  induction acts generalizing d with
  | nil => simp
  | cons a acts ih =>
    rw [foldl_cons,foldl_cons,ih,ih (Delivery.note ⟨d.waiting,[]⟩ a)]
    cases a <;> simp [Delivery.note]

theorem Complete.append {xs ys : List IngestAct} (hx : Complete xs) (hy : Complete ys) :
    Complete (xs ++ ys) := by
  rw [Complete,foldl_append,hx,note_committed,hy,dispatched,dispatched,dispatched,
    filterMap_append]

theorem complete_idle (h : ∀ a ∈ acts, IngestAct.Idle a) : Complete acts := by
  rw [Complete,dispatched_idle h]
  induction acts with
  | nil => rfl
  | cons a acts ih =>
    have ha := h a mem_cons_self
    have hnote : Delivery.note ⟨none,[]⟩ a = ⟨none,[]⟩ := by
      cases a with
      | append facts => exact absurd trivial ha.1
      | embed model_id inputs version => cases ha.2
      | _ => rfl
    rw [foldl_cons,hnote]
    exact ih fun b hb => h b (mem_cons_of_mem _ hb)

theorem settled_append {xs ys : List IngestAct} (hx : Complete xs) :
    settled (xs ++ ys) = dispatched xs ++ settled ys := by
  rw [settled,foldl_append,hx,note_committed]
  rfl

theorem settled_none (h : ∀ a ∈ acts, ¬a.IsCommit) : settled acts = [] := by
  have hkeep : ∀ d : Delivery, (acts.foldl Delivery.note d).committed = d.committed := by
    induction acts with
    | nil => exact fun _ => rfl
    | cons a acts ih =>
      intro d
      rw [foldl_cons,ih fun b hb => h b (mem_cons_of_mem _ hb)]
      cases a with
      | append facts => exact absurd trivial (h _ mem_cons_self)
      | _ => rfl
  exact hkeep ⟨none,[]⟩

namespace EmbedCall

theorem flush_ok (hend : (c.flush b).exec (calmIngest e) s = (.ok b',t)) :
    b'.pending = [] ∧ Complete ((c.flush b).acts (calmIngest e) s) ∧
      (b.pending = [] ∧ t = s ∨ b'.candidate_tokens = [] ∧ ∃ batch_index vectors_blob,
        t = c.committed s batch_index vectors_blob (batchFacts b.pending)) := by
  rw [flush] at hend ⊢
  split_ifs at hend ⊢ with hnone
  · cases hend
    exact ⟨hnone,complete_idle (fun _ h => absurd h not_mem_nil),Or.inl ⟨hnone,rfl⟩⟩
  · have hcall : (calmIngest e).step () s (.embed c.setup.model_name
        (b.pending.map PendingChunk.text) c.setup.enrichment_version) =
        (e.vectors c.setup.model_name (b.pending.map PendingChunk.text)
          c.setup.enrichment_version,s) := rfl
    rw [exec_act,hcall] at hend
    rw [acts_act,hcall]
    cases hbatch : e.vectors c.setup.model_name (b.pending.map PendingChunk.text)
        c.setup.enrichment_version with
    | error weather =>
      rw [hbatch] at hend
      cases hend
    | ok batch =>
      rw [hbatch] at hend
      dsimp only at hend ⊢
      split_ifs at hend ⊢ with hcount
      · cases hend
      · have hwrite : (calmIngest e).step () s (.writeBlob batch.bytes) = (e.blob batch.bytes,s) :=
          rfl
        rw [exec_act,hwrite] at hend
        rw [acts_act,hwrite]
        cases hblob : e.blob batch.bytes with
        | error failure =>
          rw [hblob] at hend
          cases hend
        | ok vectors_blob =>
          rw [hblob] at hend
          dsimp only at hend ⊢
          rw [exec_bind,emit_exec] at hend
          rw [acts_bind,emit_exec,emit_acts]
          by_cases hlong : embedBatchCountMax < (batchFacts b.pending).length
          · rw [if_pos hlong] at hend
            cases hend
          · have hfacts : batchFacts b.pending ≠ [] := by
              intro hempty
              have hzip := map_eq_nil_iff.mp hempty
              rw [zipIdx_eq_nil_iff] at hzip
              exact hnone hzip
            rw [if_neg hlong] at hend ⊢
            rw [if_neg (fun h => h.elim hlong hfacts)]
            cases hend
            exact ⟨rfl,rfl,Or.inr ⟨rfl,_,_,rfl⟩⟩

/-- The turns of the loop over the chunks: passed over, reused, or waiting. -/
inductive Turn (c : EmbedCall) (e : Surroundings) (done : List ChunkId) (b : Batcher) (s : Db)
    (chunk : ChunkRecord) : Batcher → Db → Prop where
  | skipped {b' : Batcher} (hdone : chunk.chunk_id ∈ done) (hpending : b'.pending = b.pending)
      (htokens : b'.candidate_tokens = b.candidate_tokens) : Turn c e done b s chunk b' s
  | reused {b' : Batcher} {batch_index row token_count : Nat} {vectors_blob content_hash : Digest}
      {truncated : Bool} (hdone : chunk.chunk_id ∉ done)
      (hfound : c.lookup s chunk.content_hash ≠ none) (hpending : b'.pending = b.pending)
      (htokens : b'.candidate_tokens = b.candidate_tokens) :
      Turn c e done b s chunk b' (c.committed s batch_index vectors_blob
        [⟨chunk.chunk_id,row,content_hash,token_count,truncated⟩])
  | joined {b' : Batcher} {text : String} (hdone : chunk.chunk_id ∉ done)
      (htext : c.textOf e chunk = .ok text) (hfound : c.lookup s chunk.content_hash = none)
      (hroom : b.pending = [] ∨
        Admits (b.candidate_tokens ++ [(c.waitingOf e chunk).token_count]))
      (hpending : b'.pending = b.pending ++ [c.waitingOf e chunk])
      (htokens : b'.candidate_tokens = b.candidate_tokens ++ [(c.waitingOf e chunk).token_count]) :
      Turn c e done b s chunk b' s
  | flushed {b' : Batcher} {text : String} {batch_index : Nat} {vectors_blob : Digest}
      (hdone : chunk.chunk_id ∉ done) (htext : c.textOf e chunk = .ok text)
      (hpending : b'.pending = [c.waitingOf e chunk])
      (htokens : b'.candidate_tokens = [(c.waitingOf e chunk).token_count]) :
      Turn c e done b s chunk b' (c.committed s batch_index vectors_blob (batchFacts b.pending))

variable {done : List ChunkId}

theorem enter_turn {chunk : ChunkRecord} {text : String} (hdone : chunk.chunk_id ∉ done)
    (htext : c.textOf e chunk = .ok text) (hfound : c.lookup s chunk.content_hash = none)
    (hend : (c.enter b (c.waitingOf e chunk)).exec (calmIngest e) s = (.ok b',t)) :
    Turn c e done b s chunk b' t ∧
      Complete ((c.enter b (c.waitingOf e chunk)).acts (calmIngest e) s) := by
  have hnothing : Complete [] := complete_idle fun _ h => absurd h not_mem_nil
  rw [enter,exec_bind] at hend
  rw [enter,acts_bind]
  dsimp only at hend ⊢
  split_ifs at hend ⊢ with hfull
  · rw [exec_bind] at hend
    rw [exec_bind,acts_bind]
    cases hflush : (c.flush { b with candidate_tokens := b.candidate_tokens ++
        [(c.waitingOf e chunk).token_count] }).exec (calmIngest e) s with
    | mk result u =>
      rw [hflush] at hend
      cases result with
      | error error => cases hend
      | ok flushed =>
        obtain ⟨hempty,hcomplete,hleft⟩ := flush_ok hflush
        cases hend
        simp only [acts_ret,append_nil,exec_ret]
        refine ⟨?_,hcomplete⟩
        rcases hleft with ⟨hnone,-⟩ | ⟨htokens,batch_index,vectors_blob,rfl⟩
        · exact absurd hnone hfull.1
        · exact .flushed hdone htext (by rw [hempty]; rfl) (by rw [htokens]; rfl)
  · cases hend
    refine ⟨.joined hdone htext hfound ?_ rfl rfl,hnothing⟩
    rw [not_and_or,not_not,not_not] at hfull
    exact hfull

theorem takeChunk_turn {chunk : ChunkRecord}
    (hend : (c.takeChunk done b chunk).exec (calmIngest e) s = (.ok b',t)) :
    Turn c e done b s chunk b' t ∧ Complete ((c.takeChunk done b chunk).acts (calmIngest e) s) := by
  rw [takeChunk] at hend ⊢
  by_cases hdone : chunk.chunk_id ∈ done
  · rw [if_pos hdone] at hend ⊢
    cases hend
    exact ⟨.skipped hdone rfl rfl,complete_idle fun _ h => absurd h not_mem_nil⟩
  · rw [if_neg hdone] at hend ⊢
    rw [push,exec_bind,chunkText_exec] at hend
    rw [push,acts_bind,chunkText_exec]
    cases htext : c.textOf e chunk with
    | error error =>
      rw [htext] at hend
      cases hend
    | ok text =>
      rw [htext] at hend
      have hlookup : (calmIngest e).step () s (.findEmbeddingByContent chunk.content_hash
          c.setup.model_name c.setup.enrichment_version) =
          (.ok (c.lookup s chunk.content_hash),s) := rfl
      have hread : Complete ((c.chunkText chunk).acts (calmIngest e) s ++
          [.findEmbeddingByContent chunk.content_hash c.setup.model_name
            c.setup.enrichment_version]) := by
        refine Complete.append (complete_idle (acts_within (chunkText_idle chunk) s))
          (complete_idle fun a ha => ?_)
        rw [mem_singleton.mp ha]
        exact ⟨fun h => h,rfl⟩
      dsimp only at hend ⊢
      rw [exec_act,hlookup] at hend
      rw [acts_act,hlookup,← singleton_append,← append_assoc]
      dsimp only at hend ⊢
      cases hfound : c.lookup s chunk.content_hash with
      | none =>
        have hwaiting : pendingChunk chunk text none = c.waitingOf e chunk := by
          rw [waitingOf,htext]
          rfl
        rw [hfound,if_neg (by simp [pendingChunk]),hwaiting] at hend
        rw [if_neg (by simp [pendingChunk]),hwaiting]
        obtain ⟨hturn,hcomplete⟩ := enter_turn hdone htext hfound hend
        refine ⟨?_,hread.append hcomplete⟩
        cases hturn with
        | skipped hdone hpending htokens => exact .skipped hdone hpending htokens
        | reused hdone hfound hpending htokens => exact .reused hdone hfound hpending htokens
        | joined hdone htext hfound hroom hpending htokens =>
          exact .joined hdone htext hfound hroom hpending htokens
        | flushed hdone htext hpending htokens => exact .flushed hdone htext hpending htokens
      | some found =>
        rw [hfound,if_pos (by rfl),commitReused] at hend
        rw [if_pos (by rfl),commitReused]
        simp only [pendingChunk,Option.map_some] at hend ⊢
        rw [exec_bind,emit_exec,if_neg (by simp [embedBatchCountMax,eventRefsCountMax])] at hend
        rw [acts_bind,emit_exec,emit_acts,
          if_neg (by simp [embedBatchCountMax,eventRefsCountMax]),
          if_neg (by simp [embedBatchCountMax,eventRefsCountMax])]
        cases hend
        refine ⟨.reused hdone (by rw [hfound]; rintro ⟨⟩) rfl rfl,hread.append ?_⟩
        rfl

theorem vectorKey_inj {i j : ChunkId} (h : c.vectorKey i = c.vectorKey j) : i = j :=
  congrArg EmbeddingKey.chunk_id h

theorem held_committed (batch_index : Nat) (vectors_blob : Digest)
    (facts : List ChunkEmbeddingFact) (db : Db) (chunk_id : ChunkId) :
    c.Held (c.committed db batch_index vectors_blob facts) chunk_id =
      (c.Held db chunk_id || decide (chunk_id ∈ facts.map ChunkEmbeddingFact.chunk_id)) := by
  rw [committed]
  split_ifs with hnone
  · rw [hnone]
    simp
  · have hputs : (db.embedded (c.embedding batch_index vectors_blob facts)).tables.embeddings =
        facts.foldl (fun t f => t.put (c.vectorKey f.chunk_id)
          (embeddingRow (db.queue.head+1) (c.embedding batch_index vectors_blob facts) f))
          db.tables.embeddings := rfl
    rw [Held,hputs]
    by_cases hmem : chunk_id ∈ facts.map ChunkEmbeddingFact.chunk_id
    · obtain ⟨f,hf,rfl⟩ := mem_map.mp hmem
      have hsome := Table.puts_written (fun f : ChunkEmbeddingFact => c.vectorKey f.chunk_id)
        (embeddingRow (db.queue.head+1) (c.embedding batch_index vectors_blob facts))
        (t := db.tables.embeddings) hf
      obtain ⟨row,hrow⟩ := Option.isSome_iff_exists.mp hsome
      rw [hrow]
      rcases Table.get?_puts _ _ hrow with ⟨g,-,-,rfl⟩ | ⟨-,hnot⟩
      · simp [embeddingRow,embedding,hmem]
      · exact absurd rfl (hnot f hf)
    · rw [Table.puts_other (fun f : ChunkEmbeddingFact => c.vectorKey f.chunk_id) _
        fun f hf h => hmem (mem_map.mpr ⟨f,hf,vectorKey_inj h⟩)]
      simp [Held,hmem]

theorem chunksIn_committed (batch_index : Nat) (vectors_blob : Digest)
    (facts : List ChunkEmbeddingFact) (db : Db) :
    c.chunksIn (c.committed db batch_index vectors_blob facts) = c.chunksIn db := by
  rw [committed]
  split_ifs
  · rfl
  · rfl

theorem mem_doneIn (h : c.Recognised db) :
    ∀ r ∈ c.chunksIn db, r.chunk_id ∈ c.doneIn db ↔ c.Held db r.chunk_id = true := by
  intro r hr
  refine ⟨fun hmem => ?_,h r hr⟩
  obtain ⟨v,hv,hid⟩ := mem_map.mp hmem
  obtain ⟨row,hrow,hitem,-⟩ := EvidenceTables.mem_listChunkEmbeddings hv
  rw [hid] at hrow
  rw [Held,Option.any_eq_true]
  exact ⟨row,hrow,decide_eq_true hitem⟩

theorem batchFacts_ids (pending : List PendingChunk) :
    (batchFacts pending).map ChunkEmbeddingFact.chunk_id = pending.map PendingChunk.chunk_id := by
  rw [batchFacts,map_map,show (ChunkEmbeddingFact.chunk_id ∘ fun p : PendingChunk × Nat =>
    batchFact p.1 p.2) = PendingChunk.chunk_id ∘ Prod.fst from rfl,← map_map,
    zipIdx_map_fst]

/-- The batch in the making: the chunks before that have no vector yet. -/
structure Formed (c : EmbedCall) (e : Surroundings) (base : Db) (before : List ChunkRecord)
    (b : Batcher) (s : Db) : Prop where
  pending : b.pending = (before.filter fun r => !c.Held s r.chunk_id).map (c.waitingOf e)
  tokens : b.candidate_tokens = b.pending.map PendingChunk.token_count
  room : ∀ n, 2 ≤ n → n ≤ b.pending.length → Admits (b.candidate_tokens.take n)
  texts : ∀ r ∈ before, c.Held s r.chunk_id = false → ∃ text, c.textOf e r = .ok text
  others : ∀ i ∉ before.map ChunkRecord.chunk_id, c.Held s i = c.Held base i
  chunks : c.chunksIn s = c.chunksIn base

theorem formed_new (c : EmbedCall) (e : Surroundings) (base : Db) :
    Formed c e base [] Batcher.new base where
  pending := rfl
  tokens := rfl
  room n hn hle := absurd hle (by simp [Batcher.new]; omega)
  texts r hr := absurd hr not_mem_nil
  others _ _ := rfl
  chunks := rfl

section
variable {base : Db} {before : List ChunkRecord} {done : List ChunkId} {chunk : ChunkRecord}

theorem filter_committed {batch_index : Nat} {vectors_blob : Digest}
    {facts : List ChunkEmbeddingFact}
    (h : ∀ f ∈ facts, f.chunk_id ∉ before.map ChunkRecord.chunk_id) :
    (before.filter fun r => !c.Held (c.committed s batch_index vectors_blob facts) r.chunk_id) =
      before.filter fun r => !c.Held s r.chunk_id := by
  refine filter_congr fun r hr => ?_
  rw [held_committed,decide_eq_false,Bool.or_false]
  intro hmem
  obtain ⟨f,hf,hid⟩ := mem_map.mp hmem
  exact h f hf (hid ▸ mem_map_of_mem hr)

section
variable (h : Formed c e base before b s)
include h

theorem Formed.pending_before {p : PendingChunk}
    (hp : p ∈ b.pending) : p.chunk_id ∈ before.map ChunkRecord.chunk_id := by
  rw [h.pending] at hp
  obtain ⟨r,hr,rfl⟩ := mem_map.mp hp
  exact mem_map_of_mem (mem_of_mem_filter hr)

theorem Formed.commit {batch_index : Nat} {vectors_blob : Digest}
    (hpending : b'.pending = []) (htokens : b'.candidate_tokens = []) :
    Formed c e base before b' (c.committed s batch_index vectors_blob (batchFacts b.pending)) := by
  have hheld : ∀ i, c.Held (c.committed s batch_index vectors_blob (batchFacts b.pending)) i =
      (c.Held s i || decide (i ∈ b.pending.map PendingChunk.chunk_id)) := by
    intro i
    rw [held_committed,batchFacts_ids]
  have hchunks : c.chunksIn (c.committed s batch_index vectors_blob (batchFacts b.pending)) =
      c.chunksIn base := (chunksIn_committed _ _ _ _).trans h.chunks
  generalize c.committed s batch_index vectors_blob (batchFacts b.pending) = u at hheld hchunks
  have hall : ∀ r ∈ before, c.Held u r.chunk_id = true := by
    intro r hr
    rw [hheld,Bool.or_eq_true]
    cases hr' : c.Held s r.chunk_id with
    | true => exact Or.inl rfl
    | false =>
      refine Or.inr (decide_eq_true (mem_map.mpr ⟨c.waitingOf e r,?_,rfl⟩))
      rw [h.pending]
      exact mem_map_of_mem (mem_filter.mpr ⟨hr,by rw [hr']; rfl⟩)
  refine ⟨?_,?_,?_,?_,?_,hchunks⟩
  · have hnone : (before.filter fun r => !c.Held u r.chunk_id) = [] :=
      filter_eq_nil_iff.mpr fun r hr => by simp [hall r hr]
    rw [hnone,hpending]
    rfl
  · rw [htokens,hpending]
    rfl
  · intro n htwo hle
    rw [hpending,length_nil] at hle
    omega
  · intro r hr hfalse
    rw [hall r hr] at hfalse
    cases hfalse
  · intro i hi
    have hapart : i ∉ b.pending.map PendingChunk.chunk_id := by
      intro hin
      obtain ⟨p,hp,rfl⟩ := mem_map.mp hin
      exact hi (h.pending_before hp)
    rw [hheld,h.others i hi,decide_eq_false hapart,Bool.or_false]

section
variable (hdone : chunk.chunk_id ∈ done ↔ c.Held base chunk.chunk_id = true)
include hdone

theorem Formed.join
    (hnew : chunk.chunk_id ∉ before.map ChunkRecord.chunk_id) (hnot : chunk.chunk_id ∉ done)
    {text : String} (htext : c.textOf e chunk = .ok text)
    (hroom : b.pending = [] ∨ Admits (b.candidate_tokens ++ [(c.waitingOf e chunk).token_count]))
    (hpending : b'.pending = b.pending ++ [c.waitingOf e chunk])
    (htokens : b'.candidate_tokens = b.candidate_tokens ++ [(c.waitingOf e chunk).token_count]) :
    Formed c e base (before ++ [chunk]) b' s := by
  have hheld : c.Held s chunk.chunk_id = false := by
    rw [h.others _ hnew]
    exact Bool.eq_false_of_not_eq_true fun hin => hnot (hdone.mpr hin)
  refine ⟨?_,?_,?_,?_,?_,h.chunks⟩
  · rw [filter_append,hpending,h.pending]
    simp [hheld]
  · rw [htokens,hpending,map_append,h.tokens]
    rfl
  · intro n htwo hle
    have hlen : b.candidate_tokens.length = b.pending.length := by rw [h.tokens,length_map]
    rw [hpending,length_append,length_singleton] at hle
    rcases Nat.lt_or_ge b.pending.length n with hlast | hearly
    · rw [htokens,take_of_length_le (by rw [length_append,length_singleton]; omega)]
      refine hroom.resolve_left fun hempty => ?_
      rw [hempty,length_nil] at hle
      omega
    · rw [htokens,take_append_of_le_length (by omega)]
      exact h.room n htwo hearly
  · intro r hr hfalse
    rcases mem_append.mp hr with hr | hr
    · exact h.texts r hr hfalse
    · obtain rfl := mem_singleton.mp hr
      exact ⟨_,htext⟩
  · intro i hi
    exact h.others i fun hin => hi (by rw [map_append]; exact mem_append_left _ hin)

theorem Formed.turn
    (hnew : chunk.chunk_id ∉ before.map ChunkRecord.chunk_id)
    (hturn : Turn c e done b s chunk b' t) : Formed c e base (before ++ [chunk]) b' t := by
  have hother : ∀ i ∉ (before ++ [chunk]).map ChunkRecord.chunk_id,
      i ∉ before.map ChunkRecord.chunk_id ∧ i ≠ chunk.chunk_id := by
    intro i hi
    rw [map_append,mem_append,not_or,map_singleton,mem_singleton] at hi
    exact hi
  have hmem : ∀ r ∈ before ++ [chunk], r ∈ before ∨ r = chunk := by
    intro r hr
    rcases mem_append.mp hr with hr | hr
    · exact Or.inl hr
    · exact Or.inr (mem_singleton.mp hr)
  cases hturn with
  | skipped hin hpending htokens =>
    have hheld : c.Held s chunk.chunk_id = true := by
      rw [h.others _ hnew]
      exact hdone.mp hin
    refine ⟨?_,?_,?_,?_,?_,h.chunks⟩
    · rw [filter_append,hpending,h.pending]
      simp [hheld]
    · rw [htokens,hpending,h.tokens]
    · rw [htokens,hpending]
      exact h.room
    · intro r hr hnot
      rcases hmem r hr with hr | rfl
      · exact h.texts r hr hnot
      · rw [hheld] at hnot
        cases hnot
    · intro i hi
      exact h.others i (hother i hi).1
  | @reused batch_index row token_count vectors_blob content_hash truncated hnot hfound hpending
      htokens =>
    have hheld : ∀ i, c.Held (c.committed s batch_index vectors_blob
        [⟨chunk.chunk_id,row,content_hash,token_count,truncated⟩]) i =
          (c.Held s i || decide (i = chunk.chunk_id)) := by
      intro i
      rw [held_committed]
      simp
    refine ⟨?_,?_,?_,?_,?_,(chunksIn_committed _ _ _ _).trans h.chunks⟩
    · rw [filter_append,filter_committed (by simpa using hnew),hpending,h.pending]
      simp [hheld]
    · rw [htokens,hpending,h.tokens]
    · rw [htokens,hpending]
      exact h.room
    · intro r hr hnot
      rw [hheld,Bool.or_eq_false_iff] at hnot
      rcases hmem r hr with hr | rfl
      · exact h.texts r hr hnot.1
      · simp at hnot
    · intro i hi
      rw [hheld,h.others i (hother i hi).1]
      simp [(hother i hi).2]
  | joined hnot htext hfound hroom hpending htokens =>
    exact h.join hdone hnew hnot htext hroom hpending htokens
  | flushed hnot htext hpending htokens =>
    exact (@Formed.commit e s c b Batcher.new base before h _ _ rfl rfl).join hdone hnew hnot htext
      (Or.inl rfl) hpending htokens

end

theorem Formed.loop {chunks : List ChunkRecord}
    (hdone : ∀ r ∈ chunks, r.chunk_id ∈ done ↔ c.Held base r.chunk_id = true)
    (hnew : ((before ++ chunks).map ChunkRecord.chunk_id).Nodup)
    (hend : (chunks.foldlM (c.takeChunk done) b).exec (calmIngest e) s = (.ok b',t)) :
    Formed c e base (before ++ chunks) b' t ∧
      Complete ((chunks.foldlM (c.takeChunk done) b).acts (calmIngest e) s) := by
  induction chunks generalizing before b s with
  | nil =>
    cases hend
    rw [append_nil]
    exact ⟨h,complete_idle fun _ h => absurd h not_mem_nil⟩
  | cons chunk rest ih =>
    rw [foldlM_cons,bind_eq,exec_bind] at hend
    rw [foldlM_cons,bind_eq,acts_bind]
    cases hturn : (c.takeChunk done b chunk).exec (calmIngest e) s with
    | mk result u =>
      rw [hturn] at hend
      cases result with
      | error error => cases hend
      | ok next =>
        obtain ⟨hone,hcomplete⟩ := takeChunk_turn hturn
        have hsplit : before ++ chunk :: rest = before ++ [chunk] ++ rest := by simp
        rw [hsplit] at hnew ⊢
        have hfresh : chunk.chunk_id ∉ before.map ChunkRecord.chunk_id := by
          rw [append_assoc,map_append] at hnew
          exact fun hin => (nodup_append.mp hnew).2.2 _ hin _ (by simp) rfl
        obtain ⟨hformed,hrest⟩ := ih (h.turn (hdone chunk mem_cons_self) hfresh hone)
          (fun r hr => hdone r (mem_cons_of_mem _ hr)) hnew hend
        exact ⟨hformed,hcomplete.append hrest⟩

end

theorem takeChunk_joins (hnot : chunk.chunk_id ∉ done) {text : String}
    (htext : c.textOf e chunk = .ok text) (hfound : c.lookup s chunk.content_hash = none)
    (hroom : b.pending = [] ∨ Admits (b.candidate_tokens ++ [(c.waitingOf e chunk).token_count])) :
    ∃ b', (c.takeChunk done b chunk).exec (calmIngest e) s = (.ok b',s) ∧
      b'.pending = b.pending ++ [c.waitingOf e chunk] ∧
      b'.candidate_tokens = b.candidate_tokens ++ [(c.waitingOf e chunk).token_count] ∧
      ∀ a ∈ (c.takeChunk done b chunk).acts (calmIngest e) s, a.Idle := by
  have hlookup : (calmIngest e).step () s (.findEmbeddingByContent chunk.content_hash
      c.setup.model_name c.setup.enrichment_version) =
      (.ok (c.lookup s chunk.content_hash),s) := rfl
  have hwaiting : pendingChunk chunk text none = c.waitingOf e chunk := by
    rw [waitingOf,htext]
    rfl
  have hfits : ¬(b.pending ≠ [] ∧
      ¬((b.candidate_tokens ++ [(c.waitingOf e chunk).token_count]).length ≤ batchCountMax ∧
        (EmbedBatchPlan.default.check
          (b.candidate_tokens ++ [(c.waitingOf e chunk).token_count])).isOk)) :=
    fun h => hroom.elim h.1 h.2
  rw [takeChunk,if_neg hnot,push,exec_bind,chunkText_exec,acts_bind,chunkText_exec,htext]
  dsimp only
  rw [exec_act,hlookup,acts_act,hlookup,hfound]
  dsimp only
  rw [if_neg (by simp [pendingChunk]),hwaiting,enter]
  dsimp only
  rw [if_neg hfits]
  refine ⟨_,rfl,rfl,rfl,fun a ha => ?_⟩
  rcases mem_append.mp ha with ha | ha
  · exact acts_within (chunkText_idle chunk) s a ha
  · rw [mem_singleton.mp ha]
    exact ⟨fun h => h,rfl⟩

theorem Formed.again {seen rest : List ChunkRecord} {b₁ : Batcher}
    (h : Formed c e base (seen ++ rest) b s)
    (hdone : ∀ r ∈ rest, r.chunk_id ∈ done ↔ c.Held s r.chunk_id = true)
    (hfresh : ∀ p ∈ b.pending, c.lookup s p.content_hash = none)
    (hpending : b₁.pending = (seen.filter fun r => !c.Held s r.chunk_id).map (c.waitingOf e))
    (htokens : b₁.candidate_tokens = b₁.pending.map PendingChunk.token_count) :
    ∃ b₂, (rest.foldlM (c.takeChunk done) b₁).exec (calmIngest e) s = (.ok b₂,s) ∧
      b₂.pending = b.pending ∧ b₂.candidate_tokens = b.candidate_tokens ∧
      ∀ a ∈ (rest.foldlM (c.takeChunk done) b₁).acts (calmIngest e) s, a.Idle := by
  induction rest generalizing seen b₁ with
  | nil =>
    rw [append_nil] at h
    refine ⟨b₁,rfl,?_,?_,fun _ h => absurd h not_mem_nil⟩
    · rw [hpending,h.pending]
    · rw [htokens,h.tokens,hpending,h.pending]
  | cons r rest ih =>
    have hsplit : seen ++ r :: rest = seen ++ [r] ++ rest := by simp
    have hgo : ∀ b', (c.takeChunk done b₁ r).exec (calmIngest e) s = (.ok b',s) →
        b'.pending = ((seen ++ [r]).filter fun r => !c.Held s r.chunk_id).map (c.waitingOf e) →
        b'.candidate_tokens = b'.pending.map PendingChunk.token_count →
        (∀ a ∈ (c.takeChunk done b₁ r).acts (calmIngest e) s, a.Idle) →
        ∃ b₂, ((r :: rest).foldlM (c.takeChunk done) b₁).exec (calmIngest e) s = (.ok b₂,s) ∧
          b₂.pending = b.pending ∧ b₂.candidate_tokens = b.candidate_tokens ∧
          ∀ a ∈ ((r :: rest).foldlM (c.takeChunk done) b₁).acts (calmIngest e) s, a.Idle := by
      intro b' hexec hpending' htokens' hidle
      obtain ⟨b₂,hrest,hp,ht,hidle'⟩ := @ih (seen ++ [r]) b' (hsplit ▸ h)
        (fun r hr => hdone r (mem_cons_of_mem _ hr)) hpending' htokens'
      refine ⟨b₂,?_,hp,ht,?_⟩
      · rw [foldlM_cons,bind_eq,exec_bind,hexec]
        exact hrest
      · intro a ha
        rw [foldlM_cons,bind_eq,acts_bind,hexec] at ha
        rcases mem_append.mp ha with ha | ha
        · exact hidle a ha
        · exact hidle' a ha
    cases hheld : c.Held s r.chunk_id with
    | true =>
      have hskip : c.takeChunk done b₁ r = .ret b₁.skipCommitted := if_pos ((hdone r mem_cons_self).mpr hheld)
      refine hgo b₁.skipCommitted (by rw [hskip]; rfl) ?_ htokens ?_
      · rw [filter_append]
        simpa [hheld,Batcher.skipCommitted] using hpending
      · rw [hskip]
        exact fun _ h => absurd h not_mem_nil
    | false =>
      have hnot : r.chunk_id ∉ done := fun hin => by
        rw [(hdone r mem_cons_self).mp hin] at hheld
        cases hheld
      obtain ⟨text,htext⟩ := h.texts r (by simp) hheld
      -- the batch as far as it is filled again begins the one that was left
      have hbegin : b.pending = b₁.pending ++ c.waitingOf e r ::
          (rest.filter fun r => !c.Held s r.chunk_id).map (c.waitingOf e) := by
        rw [h.pending,hpending,filter_append,filter_cons_of_pos (by rw [hheld]; rfl),
          map_append,map_cons]
      have hmem : c.waitingOf e r ∈ b.pending := by
        rw [hbegin]
        exact mem_append_right _ mem_cons_self
      have htaken : b₁.candidate_tokens ++ [(c.waitingOf e r).token_count] =
          b.candidate_tokens.take (b₁.pending.length+1) := by
        rw [htokens,h.tokens,hbegin,map_append,map_cons,
          ← length_map PendingChunk.token_count,take_length_add_append,take_succ_cons,take_zero]
      have hroom : b₁.pending = [] ∨
          Admits (b₁.candidate_tokens ++ [(c.waitingOf e r).token_count]) := by
        rcases Nat.eq_zero_or_pos b₁.pending.length with hzero | hpos
        · exact Or.inl (length_eq_zero_iff.mp hzero)
        · rw [htaken]
          refine Or.inr (h.room _ (by omega) ?_)
          rw [hbegin,length_append,length_cons]
          omega
      obtain ⟨b',hexec,hp,ht,hidle⟩ :=
        @takeChunk_joins e s c b₁ done r hnot text htext (hfresh _ hmem) hroom
      refine hgo b' hexec ?_ ?_ hidle
      · rw [hp,hpending,filter_append]
        simp [hheld]
      · rw [ht,hp,htokens,map_append]
        rfl

end

def seen (db : Db) : EvidenceTables × Sched.Db := (db.tables,db.queue)

def filling (b : Batcher) : List PendingChunk × List Nat := (b.pending,b.candidate_tokens)

def Alike {α γ : Type} (e : Surroundings) (view : α → γ) (p q : IngestProg α) (s t : Db) : Prop :=
  p.report (calmIngest e) seen view IngestAct.batch s =
    q.report (calmIngest e) seen view IngestAct.batch t

theorem seen_committed (i j : Nat) (vectors_blob : Digest) (facts : List ChunkEmbeddingFact)
    (h : seen s = seen t) :
    seen (c.committed s i vectors_blob facts) = seen (c.committed t j vectors_blob facts) := by
  simp only [seen,Prod.mk.injEq] at h
  rw [committed,committed]
  split_ifs
  · exact Prod.ext h.1 h.2
  · simp only [seen,Db.embedded,h.1,h.2]
    rfl

theorem emit_alike (i j : Nat) (vectors_blob : Digest) (facts : List ChunkEmbeddingFact)
    (h : seen s = seen t) :
    Alike e id (c.emit i vectors_blob facts) (c.emit j vectors_blob facts) s t := by
  have hnone : ∀ i db, ((c.emit i vectors_blob facts).acts (calmIngest e) db).filterMap
      IngestAct.batch = [] := by
    intro i db
    rw [emit_acts]
    split_ifs <;> rfl
  rw [Alike,Prog.report,Prog.report,hnone,hnone,emit_exec,emit_exec]
  split_ifs
  · rw [h]
  · rw [seen_committed i j vectors_blob facts h]

theorem chunkText_alike (chunk : ChunkRecord) (h : seen s = seen t) :
    Alike e id (c.chunkText chunk) (c.chunkText chunk) s t := by
  have hnone : ∀ db, ((c.chunkText chunk).acts (calmIngest e) db).filterMap IngestAct.batch = [] :=
    fun db => dispatched_idle (acts_within (chunkText_idle chunk) db)
  rw [Alike,Prog.report,Prog.report,hnone,hnone,chunkText_exec,chunkText_exec,h]

theorem flush_alike (hfilling : filling b = filling b') (h : seen s = seen t) :
    Alike e filling (c.flush b) (c.flush b') s t := by
  have hpending : b.pending = b'.pending := congrArg Prod.fst hfilling
  rw [flush,flush,hpending]
  split_ifs
  · exact report_ret hfilling h
  · refine report_act rfl ?_
    generalize ((calmIngest e).step () t (.embed c.setup.model_name
      (b'.pending.map PendingChunk.text) c.setup.enrichment_version)).1 = answer
    cases answer with
    | error weather => exact report_throw _ h
    | ok batch =>
      dsimp only
      split_ifs
      · exact report_throw _ h
      · refine report_act rfl ?_
        generalize ((calmIngest e).step () _ (.writeBlob batch.bytes)).1 = answer
        cases answer with
        | error failure => exact report_throw _ h
        | ok vectors_blob =>
          exact report_bind id (emit_alike _ _ _ _ h) fun _ _ u v _ hseen =>
            report_ret rfl hseen

theorem commitReused_alike (pending : PendingChunk) (hfilling : filling b = filling b')
    (h : seen s = seen t) :
    Alike e filling (c.commitReused b pending) (c.commitReused b' pending) s t := by
  rw [commitReused,commitReused]
  cases pending.reuse with
  | none => exact report_throw _ h
  | some reuse =>
    exact report_bind id (emit_alike _ _ _ _ h) fun _ _ _ _ _ hseen =>
      report_ret hfilling hseen

theorem enter_alike (pending : PendingChunk) (hfilling : filling b = filling b')
    (h : seen s = seen t) : Alike e filling (c.enter b pending) (c.enter b' pending) s t := by
  have hpending : b.pending = b'.pending := congrArg Prod.fst hfilling
  have htokens : b.candidate_tokens = b'.candidate_tokens := congrArg Prod.snd hfilling
  rw [enter,enter]
  refine report_bind filling ?_ ?_
  · simp only [hpending,htokens]
    split_ifs
    · refine report_bind filling (flush_alike ?_ h) ?_
      · simp only [filling]
      · intro x y u v hview hseen
        refine report_ret ?_ hseen
        simp only [filling,Prod.mk.injEq] at hview ⊢
        exact ⟨hview.1,by rw [hview.2]⟩
    · exact report_ret rfl h
  · intro x y u v hview hseen
    refine report_ret ?_ hseen
    simp only [filling,Prod.mk.injEq] at hview ⊢
    exact ⟨by rw [hview.1],hview.2⟩

variable {done' : List ChunkId}

theorem takeChunk_alike (chunk : ChunkRecord)
    (hdone : chunk.chunk_id ∈ done ↔ chunk.chunk_id ∈ done') (hfilling : filling b = filling b')
    (h : seen s = seen t) :
    Alike e filling (c.takeChunk done b chunk) (c.takeChunk done' b' chunk) s t := by
  rw [takeChunk,takeChunk]
  simp only [hdone]
  split_ifs
  · exact report_ret hfilling h
  · refine report_bind id (chunkText_alike chunk h) ?_
    intro text text' u v htext hseen
    obtain rfl : text = text' := htext
    have htables : u.tables = v.tables := congrArg Prod.fst hseen
    have hanswer : ((calmIngest e).step () u (.findEmbeddingByContent chunk.content_hash
        c.setup.model_name c.setup.enrichment_version)).1 =
        .ok (c.lookup v chunk.content_hash) := by
      rw [lookup,← htables]
      rfl
    refine report_act (hanswer.trans rfl) ?_
    generalize ((calmIngest e).step () v (.findEmbeddingByContent chunk.content_hash
      c.setup.model_name c.setup.enrichment_version)).1 = answer
    cases answer with
    | error fault => exact report_throw _ hseen
    | ok found =>
      dsimp only
      split_ifs
      · exact commitReused_alike _ hfilling hseen
      · exact enter_alike _ hfilling hseen

theorem rest_alike {chunks : List ChunkRecord}
    (hdone : ∀ r ∈ chunks, r.chunk_id ∈ done ↔ r.chunk_id ∈ done')
    (hfilling : filling b = filling b') (h : seen s = seen t) :
    Alike e (fun _ => ()) ((chunks.foldlM (c.takeChunk done) b).bind c.finish)
      ((chunks.foldlM (c.takeChunk done') b').bind c.finish) s t := by
  refine report_bind filling (report_foldlM ?_ hfilling h) ?_
  · intro chunk hchunk x y u v hview hseen
    exact takeChunk_alike chunk (hdone chunk hchunk) hview hseen
  · intro x y u v hview hseen
    exact report_bind filling (flush_alike hview hseen) fun _ _ _ _ _ hseen =>
      report_ret rfl hseen

theorem chunksIn_nodup (db : Db) : ((c.chunksIn db).map ChunkRecord.chunk_id).Nodup := by
  have hkeys : (db.tables.chunks.rows.map Prod.fst).Nodup :=
    pairwise_map.mpr (db.tables.chunks.sorted.imp fun h => ne_of_lt h)
  have hids : (ChunkRecord.chunk_id ∘ fun r : ChunkId × ChunkRow => r.2.intoRecord r.1) =
      Prod.fst := rfl
  rw [chunksIn,EvidenceTables.listChunks,map_map,hids,map_take]
  refine (take_sublist _ _).nodup ?_
  refine ((perm_insertionSort _ _).map Prod.fst).nodup_iff.mpr ?_
  exact (filter_sublist.map Prod.fst).nodup hkeys

theorem Alike.parts {α γ : Type} {view : α → γ} {p q : IngestProg α} (h : Alike e view p q s t) :
    (p.exec (calmIngest e) s).1.map view = (q.exec (calmIngest e) t).1.map view ∧
      (p.exec (calmIngest e) s).2.tables = (q.exec (calmIngest e) t).2.tables ∧
      dispatched (p.acts (calmIngest e) s) = dispatched (q.acts (calmIngest e) t) := by
  simp only [Alike,Prog.report,Prod.mk.injEq,seen] at h
  exact ⟨h.1,h.2.1.1,h.2.2⟩

def loop (c : EmbedCall) (db : Db) : IngestProg StageProduct :=
  c.embedChunks (c.chunksIn db) (c.doneIn db)

/-- The loop on the store `s` finishes what another had begun on `db` and was
stopped at behind `k` actions. -/
structure Finishes (c : EmbedCall) (e : Surroundings) (k : Nat) (db s : Db) : Prop where
  chunks : c.chunksIn s = c.chunksIn db
  batches : dispatched ((c.loop db).acts (calmIngest e) db) =
    settled (((c.loop db).acts (calmIngest e) db).take k) ++
      dispatched ((c.loop s).acts (calmIngest e) s)
  rows : ((c.loop s).exec (calmIngest e) s).2.tables = ((c.loop db).exec (calmIngest e) db).2.tables
  ending : ((c.loop s).exec (calmIngest e) s).1.map (fun _ => ()) =
    ((c.loop db).exec (calmIngest e) db).1.map fun _ => ()

section
variable {k n : Nat} {since : List IngestAct}

theorem embedChunks_halfway (hwhole : c.Recognised db) (hlater : c.Recognised s)
    (hexec : (((c.chunksIn db).take n).foldlM (c.takeChunk (c.doneIn db)) Batcher.new).exec
      (calmIngest e) db = (.ok b,s))
    (hacts : ((c.loop db).acts (calmIngest e) db).take k =
      (((c.chunksIn db).take n).foldlM (c.takeChunk (c.doneIn db)) Batcher.new).acts
        (calmIngest e) db ++ since)
    (hsince : ∀ a ∈ since, ¬a.IsCommit)
    (hfresh : ∀ p ∈ b.pending, c.lookup s p.content_hash = none) : c.Finishes e k db s := by
  have hnodup : (((c.chunksIn db).take n ++ (c.chunksIn db).drop n).map
      ChunkRecord.chunk_id).Nodup := by
    rw [take_append_drop]
    exact chunksIn_nodup db
  have hearly : (([] ++ (c.chunksIn db).take n).map ChunkRecord.chunk_id).Nodup := by
    rw [map_append] at hnodup
    exact hnodup.of_append_left
  obtain ⟨hformed,hcomplete⟩ := (formed_new c e db).loop
    (fun r hr => mem_doneIn hwhole r (mem_of_mem_take hr)) hearly hexec
  have hchunks : c.chunksIn s = c.chunksIn db := hformed.chunks
  have hlisted : ∀ r ∈ c.chunksIn db, r.chunk_id ∈ c.doneIn s ↔ c.Held s r.chunk_id = true :=
    hchunks ▸ mem_doneIn hlater
  obtain ⟨b₁,hagain,hpending,htokens,hidle⟩ := @Formed.again e s c b db (c.doneIn s) []
    ((c.chunksIn db).take n) Batcher.new hformed
    (fun r hr => hlisted r (mem_of_mem_take hr)) hfresh rfl rfl
  have hsplit : ∀ done, c.embedChunks (c.chunksIn db) done =
      (((c.chunksIn db).take n).foldlM (c.takeChunk done) Batcher.new).bind fun b =>
        (((c.chunksIn db).drop n).foldlM (c.takeChunk done) b).bind c.finish := by
    intro done
    rw [embedChunks,← bind_assoc]
    congr 1
    conv_lhs => rw [← take_append_drop n (c.chunksIn db)]
    exact foldlM_append _ _ _ _
  have hdone : ∀ r ∈ (c.chunksIn db).drop n, r.chunk_id ∈ c.doneIn s ↔ r.chunk_id ∈ c.doneIn db := by
    intro r hr
    have hin := mem_of_mem_drop hr
    rw [hlisted r hin,mem_doneIn hwhole r hin,hformed.others r.chunk_id]
    rw [map_append] at hnodup
    exact fun hin => (nodup_append.mp hnodup).2.2 _ hin _ (mem_map_of_mem hr) rfl
  obtain ⟨hending,hrows,hbatches⟩ := (rest_alike (c := c) (e := e) hdone
    (show filling b₁ = filling b from Prod.ext hpending htokens) (rfl : seen s = seen s)).parts
  refine ⟨hchunks,?_,?_,?_⟩
  · rw [hacts,settled_append hcomplete,settled_none hsince,append_nil,loop,loop,hchunks,hsplit,
      hsplit,acts_bind,acts_bind,hexec,hagain]
    simp only [dispatched,filterMap_append] at hbatches ⊢
    rw [hbatches]
    have hnone := dispatched_idle hidle
    rw [dispatched] at hnone
    rw [hnone,nil_append]
  · rw [loop,loop,hchunks,hsplit,hsplit,exec_bind,exec_bind,hexec,hagain]
    exact hrows
  · rw [loop,loop,hchunks,hsplit,hsplit,exec_bind,exec_bind,hexec,hagain]
    exact hending

theorem embedChunks_ended {product : StageProduct} (hwhole : c.Recognised db)
    (hlater : c.Recognised s) (hexec : (c.loop db).exec (calmIngest e) db = (.ok product,s))
    (hacts : ((c.loop db).acts (calmIngest e) db).take k = (c.loop db).acts (calmIngest e) db) :
    c.Finishes e k db s := by
  have hend := hexec
  rw [loop,embedChunks,exec_bind] at hend
  cases hloop : ((c.chunksIn db).foldlM (c.takeChunk (c.doneIn db)) Batcher.new).exec
      (calmIngest e) db with
  | mk result u =>
    rw [hloop] at hend
    cases result with
    | error error => cases hend
    | ok last =>
      obtain ⟨hformed,hcomplete⟩ := (formed_new c e db).loop (mem_doneIn hwhole)
        (chunksIn_nodup db) hloop
      dsimp only at hend
      rw [finish,exec_bind] at hend
      cases hflush : (c.flush last).exec (calmIngest e) u with
      | mk result t =>
        rw [hflush] at hend
        cases result with
        | error error => cases hend
        | ok flushed =>
          obtain ⟨hnone,hsent,hleft⟩ := flush_ok hflush
          obtain rfl : t = s := congrArg Prod.snd hend
          have hall : Formed c e db ([] ++ c.chunksIn db) flushed t := by
            rcases hleft with ⟨hempty,rfl⟩ | ⟨htokens,batch_index,vectors_blob,rfl⟩
            · have hstay : (c.flush last) = .ret last := by rw [flush,if_pos hempty]
              rw [hstay] at hflush
              obtain rfl : last = flushed := Except.ok.inj (congrArg Prod.fst hflush)
              exact hformed
            · exact hformed.commit hnone htokens
          have hchunks : c.chunksIn t = c.chunksIn db := hall.chunks
          obtain ⟨b₁,hagain,hpending,-,hidle⟩ := @Formed.again e t c flushed db (c.doneIn t) []
            (c.chunksIn db) Batcher.new hall (hchunks ▸ mem_doneIn hlater)
            (fun p hp => absurd (hnone ▸ hp) not_mem_nil) rfl rfl
          have hfinish : c.finish b₁ = .ret ⟨.none,b₁.bytes_read,b₁.vector_count⟩ := by
            rw [finish,flush,if_pos (hpending.trans hnone)]
            rfl
          have hdelivered : Complete ((c.loop db).acts (calmIngest e) db) := by
            rw [loop,embedChunks,acts_bind,hloop]
            refine hcomplete.append ?_
            dsimp only
            rw [finish,acts_bind,hflush]
            exact hsent.append (complete_idle fun _ h => absurd h not_mem_nil)
          have hskip : (c.loop t).exec (calmIngest e) t =
              (.ok ⟨.none,b₁.bytes_read,b₁.vector_count⟩,t) := by
            rw [loop,hchunks,embedChunks,exec_bind,hagain]
            dsimp only
            rw [hfinish]
            rfl
          refine ⟨hchunks,?_,by rw [hexec,hskip],by rw [hexec,hskip]; rfl⟩
          · rw [hacts,settled,hdelivered,loop.eq_def c t,hchunks,embedChunks,acts_bind,hagain]
            dsimp only
            rw [hfinish,acts_ret,append_nil,dispatched_idle hidle,append_nil]

end

section
variable {k : Nat}

theorem resumes_quiet (hacts : ∀ a ∈ (c.embedItem.acts (calmIngest e) db).take k, ¬a.IsCommit) :
    c.Resumes e k db := by
  have hstore : c.crashed e k db = db := stopped_quiet calm_quiet hacts
  refine ⟨?_,by rw [hstore],by rw [hstore]⟩
  rw [hstore,settled_none hacts,nil_append]

theorem embedItem_acts (hdim : c.dim = c.setup.dim) (hsome : c.chunksIn db ≠ []) :
    ∃ first second : IngestAct, first.Idle ∧ second.Idle ∧
      c.embedItem.acts (calmIngest e) db = first :: second ::
        (c.loop db).acts (calmIngest e) db := by
  refine ⟨.listChunks c.context.evidence.evidence_id none embedChunkCountMax,
    .listChunkEmbeddings c.context.evidence.evidence_id c.setup.model_name
      c.setup.enrichment_version embedChunkCountMax,⟨fun h => h,rfl⟩,⟨fun h => h,rfl⟩,?_⟩
  have hlisted : c.listed.exec (calmIngest e) db = (.ok (c.chunksIn db),db) := rfl
  have hdone : c.alreadyEmbedded.exec (calmIngest e) db = (.ok (c.doneIn db),db) := rfl
  rw [embedItem,if_neg (not_not.mpr hdim),acts_bind,hlisted]
  dsimp only
  rw [if_neg hsome,acts_bind,hdone]
  rfl

theorem embedItem_exec (hdim : c.dim = c.setup.dim) (hsome : c.chunksIn db ≠ []) :
    c.embedItem.exec (calmIngest e) db = (c.loop db).exec (calmIngest e) db := by
  have hlisted : c.listed.exec (calmIngest e) db = (.ok (c.chunksIn db),db) := rfl
  have hdone : c.alreadyEmbedded.exec (calmIngest e) db = (.ok (c.doneIn db),db) := rfl
  rw [embedItem,if_neg (not_not.mpr hdim),exec_bind,hlisted]
  dsimp only
  rw [if_neg hsome,exec_bind,hdone]
  rfl

theorem embedItem_stopped (hdim : c.dim = c.setup.dim) (hsome : c.chunksIn db ≠ []) (k : Nat) :
    c.crashed e (k+2) db = (c.loop db).stopped (calmIngest e) k db := by
  have hlisted : c.listed.exec (calmIngest e) db = (.ok (c.chunksIn db),db) := rfl
  have hdone : c.alreadyEmbedded.exec (calmIngest e) db = (.ok (c.doneIn db),db) := rfl
  have hcount : k+2 = (c.listed.acts (calmIngest e) db).length +
      ((c.alreadyEmbedded.acts (calmIngest e) db).length+k) := by
    show k+2 = 1+(1+k)
    omega
  rw [crashed,embedItem,if_neg (not_not.mpr hdim),hcount,stopped_bind_late _ hlisted,
    if_neg hsome,stopped_bind_late _ hdone,loop]

theorem loop_finishes (hwhole : c.Recognised db) (hstop : (c.loop db).stopped (calmIngest e) k db = s)
    (hlater : c.Recognised s)
    (hfresh : ∀ n ≤ (c.chunksIn db).length, ∀ stand ∈ c.behind e db n, stand.2.tables = s.tables →
      ∀ p ∈ stand.1.pending, c.lookup stand.2 p.content_hash = none) : c.Finishes e k db s := by
  have hplace := stopped_foldlM (M := calmIngest e) calm_quiet
    (takeChunk_endsIn (c := c) (c.doneIn db)) (finish_endsIn (c := c))
    (takeChunk_fails (c.doneIn db)) finish_fails (c.chunksIn db) Batcher.new db k
  have hwhole' : ((c.chunksIn db).foldlM (c.takeChunk (c.doneIn db)) Batcher.new).bind c.finish =
      c.loop db := rfl
  simp only [hwhole',hstop] at hplace
  rcases hplace with ⟨n,hn,b,hexec,since,hacts,hsince⟩ | ⟨product,hexec,hacts⟩
  · refine embedChunks_halfway hwhole hlater hexec hacts hsince fun p hp => ?_
    refine hfresh n hn (b,s) ?_ rfl p hp
    rw [behind,hexec]
    rfl
  · exact embedChunks_ended hwhole hlater hexec hacts

/-- The attempt after a crash dispatches what was not committed. -/
theorem embed_resumed (c : EmbedCall) (e : Surroundings) (k : Nat) (db : Db)
    (h : c.Resumable e k db) : c.Resumes e k db := by
  obtain ⟨hwhole,hlater,hfresh⟩ := h
  by_cases hdim : c.dim = c.setup.dim
  · by_cases hsome : c.chunksIn db = []
    · refine resumes_quiet fun a ha => ?_
      have hlisted : c.listed.exec (calmIngest e) db = (.ok (c.chunksIn db),db) := rfl
      have hin := mem_of_mem_take ha
      rw [embedItem,if_neg (not_not.mpr hdim),acts_bind,hlisted] at hin
      dsimp only at hin
      rw [if_pos hsome,acts_ret,append_nil] at hin
      rw [mem_singleton.mp hin]
      exact fun h => h
    · obtain ⟨first,second,hfirst,hsecond,hacts⟩ := embedItem_acts (e := e) hdim hsome
      rcases k with _ | _ | k
      · exact resumes_quiet fun _ h => absurd h not_mem_nil
      · refine resumes_quiet fun a ha => ?_
        rw [hacts] at ha
        rw [mem_singleton.mp ha]
        exact hfirst.1
      · have hfinishes := loop_finishes hwhole (embedItem_stopped hdim hsome k).symm hlater hfresh
        have hleft : c.chunksIn (c.crashed e (k+2) db) ≠ [] := by
          rw [hfinishes.chunks]
          exact hsome
        obtain ⟨first',second',hfirst',hsecond',hacts'⟩ := embedItem_acts (e := e) hdim hleft
        have hreads : ∀ {a b : IngestAct}, a.Idle → b.Idle → ∀ rest,
            dispatched (a :: b :: rest) = dispatched rest := by
          intro a b ha hb rest
          rw [dispatched,filterMap_cons_none ha.2,filterMap_cons_none hb.2]
          rfl
        have hsettled : ∀ rest, settled (first :: second :: rest) = settled rest := by
          intro rest
          have htwo : Complete [first,second] := complete_idle (by simp [hfirst,hsecond])
          have hsplit : settled ([first,second] ++ rest) = dispatched [first,second] ++ settled rest :=
            settled_append htwo
          rw [hreads hfirst hsecond] at hsplit
          exact hsplit
        refine ⟨?_,?_,?_⟩
        · rw [hacts,hacts',hreads hfirst hsecond,hreads hfirst' hsecond',take_succ_cons,
            take_succ_cons,hsettled]
          exact hfinishes.batches
        · rw [embedItem_exec hdim hleft,embedItem_exec hdim hsome]
          exact hfinishes.rows
        · rw [embedItem_exec hdim hleft,embedItem_exec hdim hsome]
          exact hfinishes.ending
  · refine resumes_quiet fun a ha => ?_
    rw [embedItem,if_pos hdim] at ha
    exact absurd (mem_of_mem_take ha) not_mem_nil

end
end EmbedCall
end

def numberedChunk (period ordinal : Nat) : ChunkId × ChunkRow :=
  ((demoChunk ordinal).1,
    { (demoChunk ordinal).2 with content_hash := BitVec.ofNat 256 (ordinal % period) })

def numberedRow : EvidenceRow :=
  { demoEvidence with text_blob := some 1, text_byte_size := some 384, chunk_count := 64 }

def numberedDb (period : Nat) : Db where
  queue := { Sched.Db.empty with head := 3 }
  facts := []
  tables :=
    { evidence := Table.empty.put ⟨7⟩ numberedRow
      stages := Table.empty
      chunks := ((List.range 64).map (numberedChunk period)).foldl (fun t r => t.put r.1 r.2)
        Table.empty
      embeddings := Table.empty }

def numberedText (period : Nat) : Surroundings where
  text _ byte_start _ := .ok (toString (100000+byte_start/6 % period))
  vectors _ inputs _ := .ok ⟨1,inputs.map fun text => UInt32.ofNat text.length⟩
  blob bytes := .ok (BitVec.ofNat 256 bytes.length)

def numberedCall : EmbedCall where
  context := ⟨numberedRow.intoRecord ⟨7⟩,.embed,0⟩
  setup := ⟨"bge-small-en-v1.5",1,0⟩
  dim := 1

/-- Sixty-four different lines: the last is embedded by the second attempt. -/
theorem numbered_resumed :
    numberedCall.Resumable (numberedText 64) 133 (numberedDb 64) ∧
      numberedCall.Resumes (numberedText 64) 133 (numberedDb 64) := by
  have h : numberedCall.Resumable (numberedText 64) 133 (numberedDb 64) :=
    ⟨by decide +kernel,by decide +kernel,by decide +kernel⟩
  exact ⟨h,EmbedCall.embed_resumed numberedCall (numberedText 64) 133 (numberedDb 64) h⟩

/-- The last line repeats the first: the second attempt finds its vector and
dispatches nothing. -/
theorem numbered_differs :
    (dispatched (numberedCall.embedItem.acts (calmIngest (numberedText 63))
        (numberedDb 63))).map List.length = [63,1] ∧
      (settled ((numberedCall.embedItem.acts (calmIngest (numberedText 63))
        (numberedDb 63)).take 133)).map List.length = [63] ∧
      dispatched (numberedCall.embedItem.acts (calmIngest (numberedText 63))
        (numberedCall.crashed (numberedText 63) 133 (numberedDb 63))) = [] ∧
      ¬numberedCall.Resumes (numberedText 63) 133 (numberedDb 63) := by
  have hrun : (dispatched (numberedCall.embedItem.acts (calmIngest (numberedText 63))
        (numberedDb 63))).map List.length = [63,1] ∧
      (settled ((numberedCall.embedItem.acts (calmIngest (numberedText 63))
        (numberedDb 63)).take 133)).map List.length = [63] ∧
      dispatched (numberedCall.embedItem.acts (calmIngest (numberedText 63))
        (numberedCall.crashed (numberedText 63) 133 (numberedDb 63))) = [] :=
    ⟨by decide +kernel,by decide +kernel,by decide +kernel⟩
  obtain ⟨hall,hbefore,hafter⟩ := hrun
  refine ⟨hall,hbefore,hafter,fun h => ?_⟩
  have hlengths := congrArg (List.map List.length) h.batches
  rw [hall,hafter,append_nil,hbefore] at hlengths
  exact absurd hlengths (by decide)

end ProjectOS.Ingest
