import ProjectOS.Lib.Greedy
import ProjectOS.Lib.Paths
import ProjectOS.Ingest.Rerun

/-! How a run of inputs divides into batches: all at once, and chunk by chunk as
EMBED does it. -/

namespace ProjectOS.Ingest
open Lib Domain List

namespace EmbedBatchPlan

def splitFrom (plan : EmbedBatchPlan) : Nat → Nat → List Nat → List Nat
  | count, _, [] => if 0 < count then [count] else []
  | count, longest, tokens :: rest =>
    let next_longest := max longest (clampTokens tokens)
    if 0 < count ∧ ¬((count+1)*next_longest ≤ plan.padded_tokens_max ∧ count < plan.count_max) then
      count :: splitFrom plan 1 (clampTokens tokens) rest
    else splitFrom plan (count+1) next_longest rest

def split (plan : EmbedBatchPlan) (token_counts : List Nat) : List Nat :=
  plan.splitFrom 0 0 token_counts

def Fits (plan : EmbedBatchPlan) (token_counts : List Nat) : Bool := (plan.check token_counts).isOk

def longestOf (token_counts : List Nat) : Nat := (token_counts.map clampTokens).foldl max 0

theorem clampTokens_pos (tokens : Nat) : 1 ≤ clampTokens tokens := by
  simp only [clampTokens,embedSequenceTokensMax]
  omega

theorem longestOf_concat (token_counts : List Nat) (tokens : Nat) :
    longestOf (token_counts ++ [tokens]) = max (longestOf token_counts) (clampTokens tokens) := by
  simp [longestOf]

variable {token_counts : List Nat}

theorem longest_eq (h : token_counts ≠ []) :
    (token_counts.map clampTokens).foldl max 1 = longestOf token_counts := by
  induction token_counts using List.reverseRecOn with
  | nil => exact absurd rfl h
  | append_singleton token_counts tokens ih =>
    have hpos := clampTokens_pos tokens
    rw [longestOf_concat,map_append,foldl_append]
    by_cases hne : token_counts = []
    · subst hne
      simp only [map_nil,map_cons,foldl_nil,foldl_cons,longestOf]
      omega
    · rw [ih hne]
      rfl

variable (plan : EmbedBatchPlan)

theorem fits_iff (h : token_counts ≠ []) :
    plan.Fits token_counts = true ↔ token_counts.length ≤ plan.count_max ∧
      (1 < token_counts.length →
        token_counts.length*longestOf token_counts ≤ plan.padded_tokens_max) := by
  rw [Fits,check,if_neg h,longest_eq h]
  simp only
  split_ifs with hcount hpadded
  · simp only [Except.isOk,Except.toBool,Bool.false_eq_true,false_iff]
    omega
  · simp only [Except.isOk,Except.toBool,Bool.false_eq_true,false_iff,not_and,not_forall]
    exact fun _ => ⟨hpadded.1,by omega⟩
  · simp only [Except.isOk,Except.toBool,true_iff]
    exact ⟨by omega,fun hlen => by
      rw [not_and] at hpadded
      exact Nat.not_lt.mp (hpadded hlen)⟩

theorem fits_one (hcount : 1 ≤ plan.count_max) (tokens : Nat) : plan.Fits [tokens] = true := by
  rw [plan.fits_iff (by simp)]
  exact ⟨hcount,fun h => absurd h (by simp)⟩

theorem splitFrom_eq (current token_counts : List Nat) :
    plan.splitFrom current.length (longestOf current) token_counts =
      (greedy plan.Fits current token_counts).map List.length := by
  induction token_counts generalizing current with
  | nil =>
    rw [splitFrom]
    split_ifs with hlen
    · rw [greedy_end _ (by rintro rfl; simp at hlen)]
      rfl
    · obtain rfl := length_eq_zero_iff.mp (by omega : current.length = 0)
      rfl
  | cons tokens rest ih =>
    have hgrown := ih (current ++ [tokens])
    have hfresh := ih [tokens]
    rw [longestOf_concat,length_append,length_singleton] at hgrown
    have hone : longestOf [tokens] = clampTokens tokens := by simp [longestOf]
    rw [hone,length_singleton] at hfresh
    have hfits := plan.fits_iff (show current ++ [tokens] ≠ [] by simp)
    rw [longestOf_concat,length_append,length_singleton] at hfits
    rw [splitFrom]
    split_ifs with hfull
    · have hne : current ≠ [] := by
        rintro rfl
        simp at hfull
      have hover : plan.Fits (current ++ [tokens]) = false := by
        rw [Bool.eq_false_iff,Ne,hfits]
        rintro ⟨hlen,hpadded⟩
        exact hfull.2 ⟨hpadded (by omega),by omega⟩
      rw [greedy_close hne hover,map_cons,hfresh]
    · have hjoin : current = [] ∨ plan.Fits (current ++ [tokens]) = true := by
        by_cases hne : current = []
        · exact Or.inl hne
        · have hpos := length_pos_iff.mpr hne
          rw [not_and,not_not] at hfull
          obtain ⟨hpadded,hlen⟩ := hfull hpos
          exact Or.inr (hfits.mpr ⟨by omega,fun _ => hpadded⟩)
      rw [greedy_join hjoin,hgrown]

theorem batches_eq (token_counts : List Nat) :
    (plan.split token_counts).splitLengths token_counts = greedy plan.Fits [] token_counts := by
  have hsplit := plan.splitFrom_eq [] token_counts
  have hflat := greedy_flatten plan.Fits [] token_counts
  rw [nil_append] at hflat
  have hlengths := splitLengths_length (greedy plan.Fits [] token_counts)
  rw [hflat,← hsplit] at hlengths
  exact hlengths

end EmbedBatchPlan

abbrev IngestLog := Prog.Log ingestIface

def IngestAct.asks : IngestAct → Bool
  | .readText ..
  | .findEmbeddingByContent .. => true
  | _ => false

def asked (log : IngestLog) : IngestLog := log.filter fun x => x.1.asks

def lookedUp : (Σ a : IngestAct, ingestIface.Resp a) → Bool
  | ⟨.findEmbeddingByContent .., .ok _⟩ => true
  | _ => false

def handedOver (log : IngestLog) : List (List String) := dispatched (log.map Sigma.fst)

theorem asked_append (log more : IngestLog) : asked (log ++ more) = asked log ++ asked more :=
  filter_append ..

theorem handedOver_append (log more : IngestLog) :
    handedOver (log ++ more) = handedOver log ++ handedOver more := by
  rw [handedOver,dispatched,map_append,filterMap_append]
  rfl

def undone (done : List ChunkId) (chunks : List ChunkRecord) : List ChunkRecord :=
  chunks.filter fun chunk => !done.contains chunk.chunk_id

/-- A chunk that was looked at: its text as read, and what is held under its content. -/
structure Visit where
  chunk : ChunkRecord
  text : String
  found : Option ChunkEmbeddingRecord

def Visit.unfound (v : Visit) : Option String := if v.found.isNone then some v.text else none

def EmbedCall.asks (c : EmbedCall) (v : Visit) : IngestLog :=
  [⟨.readText (c.context.evidence.text_blob.getD 0) v.chunk.byte_start
      (v.chunk.byte_end-v.chunk.byte_start),.ok v.text⟩,
    ⟨.findEmbeddingByContent v.chunk.content_hash c.setup.model_name c.setup.enrichment_version,
      .ok v.found⟩]

/-- What a run read and looked up is that of a first part of the chunks to do, in
order, and then of no chunk to its end. -/
structure EmbedCall.Visits (c : EmbedCall) (todo : List ChunkRecord) (log : IngestLog)
    (visited : List Visit) (tail : IngestLog) : Prop where
  chunks : visited.map Visit.chunk <+: todo
  asked : asked log = visited.flatMap c.asks ++ tail
  stopped : ∀ x ∈ tail, lookedUp x = false

namespace EmbedCall
variable {c : EmbedCall} {b : Batcher}

theorem emit_silent (batch_index : Nat) (vectors_blob : Digest) (facts : List ChunkEmbeddingFact) :
    (c.emit batch_index vectors_blob facts).Paths fun _ log => asked log = [] ∧ handedOver log = [] := by
  apply Prog.Paths.mapError
  rw [StageContext.emitEmbeddings]
  split_ifs
  · exact ⟨rfl,rfl⟩
  · exact ⟨rfl,rfl⟩
  · intro r
    cases r <;> exact ⟨rfl,rfl⟩

theorem flush_hands (hne : b.pending ≠ []) :
    (c.flush b).Paths fun x log => asked log = [] ∧
      handedOver log = [b.pending.map PendingChunk.text] ∧
      ∀ b', x = .ok b' → b'.pending = [] ∧ b'.candidate_tokens = [] := by
  rw [flush,if_neg hne]
  intro answer
  cases answer with
  | error weather => exact ⟨rfl,rfl,fun _ h => by cases h⟩
  | ok batch =>
    dsimp only
    split_ifs
    · exact ⟨rfl,rfl,fun _ h => by cases h⟩
    · intro written
      cases written with
      | error failure => exact ⟨rfl,rfl,fun _ h => by cases h⟩
      | ok vectors_blob =>
        apply Prog.Paths.bind
        apply (emit_silent _ _ _).mono
        rintro x log ⟨hsilent,hnone⟩
        have hhands : ∀ r r', handedOver
            (⟨.embed c.setup.model_name (b.pending.map PendingChunk.text)
              c.setup.enrichment_version,r⟩ :: ⟨.writeBlob batch.bytes,r'⟩ :: log) =
            [b.pending.map PendingChunk.text] := by
          intro r r'
          change b.pending.map PendingChunk.text :: handedOver log = _
          rw [hnone]
        cases x with
        | error e => exact ⟨hsilent,hhands _ _,fun _ h => by cases h⟩
        | ok u =>
          rw [← append_nil log] at hsilent hhands
          refine ⟨hsilent,hhands _ _,?_⟩
          rintro b' h
          cases h
          exact ⟨rfl,rfl⟩

theorem commitReused_silent (pending : PendingChunk) :
    (c.commitReused b pending).Paths fun x log => asked log = [] ∧ handedOver log = [] ∧
      ∀ b', x = .ok b' → b'.pending = b.pending ∧ b'.candidate_tokens = b.candidate_tokens := by
  rw [commitReused]
  cases pending.reuse with
  | none => exact ⟨rfl,rfl,fun _ h => by cases h⟩
  | some reuse =>
    apply Prog.Paths.bind
    apply (emit_silent _ _ _).mono
    rintro x log ⟨hsilent,hnone⟩
    cases x with
    | error e => exact ⟨hsilent,hnone,fun _ h => by cases h⟩
    | ok u =>
      rw [← append_nil log] at hsilent hnone
      refine ⟨hsilent,hnone,?_⟩
      rintro b' h
      cases h
      exact ⟨rfl,rfl⟩

end EmbedCall

def batcherPlan : EmbedBatchPlan := ⟨embedBatchPaddedTokensMax,batchCountMax⟩

def tokensOf (text : String) : Nat := clampTokens (estimateTokens text)

def fitsTexts (texts : List String) : Bool := batcherPlan.Fits (texts.map tokensOf)

structure Batcher.Filled (b : Batcher) : Prop where
  candidate_tokens : b.candidate_tokens = b.pending.map PendingChunk.token_count
  token_count : ∀ p ∈ b.pending, p.token_count = tokensOf p.text

def Batcher.texts (b : Batcher) : List String := b.pending.map PendingChunk.text

theorem Batcher.Filled.tokens {b : Batcher} (h : b.Filled) :
    b.candidate_tokens = b.texts.map tokensOf := by
  rw [h.candidate_tokens,Batcher.texts,map_map]
  exact map_congr_left h.token_count

theorem admits_iff {token_counts : List Nat} :
    EmbedCall.Admits token_counts ↔ batcherPlan.Fits token_counts = true := by
  by_cases hne : token_counts = []
  · subst hne
    simp [EmbedCall.Admits,EmbedBatchPlan.Fits,EmbedBatchPlan.check,Except.isOk,Except.toBool]
  · rw [EmbedCall.Admits,← EmbedBatchPlan.Fits,EmbedBatchPlan.fits_iff _ hne,
      EmbedBatchPlan.fits_iff _ hne]
    simp only [batcherPlan,EmbedBatchPlan.default,batchCountMax,embedBatchCountMax,
      eventRefsCountMax,gatewayEmbedBatchCountMax]
    constructor
    · rintro ⟨hcount,-,hpadded⟩
      exact ⟨hcount,hpadded⟩
    · rintro ⟨hcount,hpadded⟩
      exact ⟨hcount,by omega,hpadded⟩

namespace EmbedCall
variable {c : EmbedCall} {b : Batcher}

theorem texts_ne_nil : b.texts ≠ [] ↔ b.pending ≠ [] := by simp [Batcher.texts]

variable {pending : PendingChunk}

theorem admits_texts (hfilled : b.Filled) (hpending : pending.token_count = tokensOf pending.text) :
    Admits (b.candidate_tokens ++ [pending.token_count]) ↔
      fitsTexts (b.texts ++ [pending.text]) = true := by
  rw [admits_iff,fitsTexts,hfilled.tokens,hpending,map_append]
  rfl

theorem Filled.join {b : Batcher} (hfilled : b.Filled)
    (hpending : pending.token_count = tokensOf pending.text) {b' : Batcher}
    (hjoined : b'.pending = b.pending ++ [pending])
    (htokens : b'.candidate_tokens = b.candidate_tokens ++ [pending.token_count]) :
    b'.Filled ∧ b'.texts = b.texts ++ [pending.text] := by
  refine ⟨⟨?_,?_⟩,?_⟩
  · rw [htokens,hjoined,hfilled.candidate_tokens,map_append]
    rfl
  · intro p hp
    rw [hjoined] at hp
    rcases mem_append.mp hp with hp | hp
    · exact hfilled.token_count p hp
    · rw [mem_singleton.mp hp]
      exact hpending
  · rw [Batcher.texts,hjoined,map_append]
    rfl

theorem enter_hands (hfilled : b.Filled) (hpending : pending.token_count = tokensOf pending.text) :
    (c.enter b pending).Paths fun x log => asked log = [] ∧
      ((b.texts ≠ [] ∧ fitsTexts (b.texts ++ [pending.text]) = false ∧ handedOver log = [b.texts] ∧
          ∀ b', x = .ok b' → b'.Filled ∧ b'.texts = [pending.text]) ∨
        ((b.texts = [] ∨ fitsTexts (b.texts ++ [pending.text]) = true) ∧ handedOver log = [] ∧
          ∃ b', x = .ok b' ∧ b'.Filled ∧ b'.texts = b.texts ++ [pending.text])) := by
  have hadmits := admits_texts hfilled hpending
  rw [enter]
  apply Prog.Paths.bind
  split_ifs with hfull
  · apply Prog.Paths.bind
    obtain ⟨hne,hover⟩ := hfull
    have hrefused : fitsTexts (b.texts ++ [pending.text]) = false := by
      rw [Bool.eq_false_iff,Ne,← hadmits]
      exact hover
    apply (flush_hands (c := c) (b := { b with
      candidate_tokens := b.candidate_tokens ++ [pending.token_count] }) hne).mono
    rintro x log ⟨hsilent,hhands,hempty⟩
    cases x with
    | error e =>
      exact ⟨hsilent,Or.inl ⟨texts_ne_nil.mpr hne,hrefused,hhands,fun _ h => by cases h⟩⟩
    | ok flushed =>
      obtain ⟨hnone,hclear⟩ := hempty flushed rfl
      rw [← append_nil log,← append_nil (log ++ [])] at hsilent hhands
      refine ⟨hsilent,Or.inl ⟨texts_ne_nil.mpr hne,hrefused,hhands,?_⟩⟩
      rintro b' h
      cases h
      have hstart : flushed.Filled :=
        ⟨by rw [hclear,hnone]; rfl,fun p hp => by rw [hnone] at hp; exact absurd hp not_mem_nil⟩
      have hnothing : flushed.texts = [] := by rw [Batcher.texts,hnone]; rfl
      refine And.imp_right (fun htexts => htexts.trans ?_) (Filled.join hstart hpending rfl rfl)
      rw [hnothing,nil_append]
  · have hroom : b.texts = [] ∨ fitsTexts (b.texts ++ [pending.text]) = true := by
      rw [not_and_or,not_not,not_not] at hfull
      rcases hfull with hnone | hadmit
      · exact Or.inl (by rw [Batcher.texts,hnone]; rfl)
      · exact Or.inr (hadmits.mp hadmit)
    exact ⟨rfl,Or.inr ⟨hroom,rfl,_,rfl,Filled.join hfilled hpending rfl rfl⟩⟩

def Batched (c : EmbedCall) (todo : List ChunkRecord) (texts : List String) {α : Type}
    (x : Except StageFailure α) (log : IngestLog) : Prop :=
  ∃ visited tail, c.Visits todo log visited tail ∧
    handedOver log <+: greedy fitsTexts texts (visited.filterMap Visit.unfound) ∧
      ((∃ a, x = .ok a) → visited.map Visit.chunk = todo ∧ tail = [] ∧
        handedOver log = greedy fitsTexts texts (visited.filterMap Visit.unfound))

theorem finish_batched (b : Batcher) : (c.finish b).Paths (c.Batched [] b.texts) := by
  apply Prog.Paths.bind
  by_cases hne : b.pending = []
  · rw [flush,if_pos hne,Batcher.texts,hne]
    exact ⟨[],[],⟨List.nil_prefix,rfl,fun _ h => by cases h⟩,List.nil_prefix,fun _ => ⟨rfl,rfl,rfl⟩⟩
  · apply (flush_hands hne).mono
    rintro x log ⟨hsilent,hhands,-⟩
    have hvisits : c.Visits [] log [] [] := ⟨List.nil_prefix,hsilent,fun _ h => by cases h⟩
    have hall : handedOver log = greedy fitsTexts b.texts [] := by
      rw [greedy_end _ (texts_ne_nil.mpr hne),hhands,Batcher.texts]
    cases x with
    | error e => exact ⟨[],[],hvisits,hall ▸ prefix_rfl,fun _ => ⟨rfl,rfl,hall⟩⟩
    | ok b' =>
      rw [← append_nil log] at hall hvisits
      exact ⟨[],[],hvisits,hall ▸ prefix_rfl,fun _ => ⟨rfl,rfl,hall⟩⟩

theorem chunkText_reads (chunk : ChunkRecord) :
    (c.chunkText chunk).Paths fun x log => handedOver log = [] ∧
      (∀ y ∈ asked log, lookedUp y = false) ∧
      ∀ text, x = .ok text → ∀ answer, asked (log ++ [⟨.findEmbeddingByContent chunk.content_hash
        c.setup.model_name c.setup.enrichment_version,.ok answer⟩]) = c.asks ⟨chunk,text,answer⟩ := by
  apply Prog.Paths.mapError
  rw [StageContext.readTextRange]
  split_ifs
  · exact ⟨rfl,fun _ h => (by cases h),fun _ h => by cases h⟩
  · cases hblob : c.context.evidence.text_blob with
    | none => exact ⟨rfl,fun _ h => (by cases h),fun _ h => by cases h⟩
    | some hash =>
      intro answer
      have hread : ∀ y ∈ asked [⟨.readText hash chunk.byte_start
          (chunk.byte_end-chunk.byte_start),answer⟩], lookedUp y = false := by
        intro y hy
        rw [mem_singleton.mp (mem_of_mem_filter hy)]
        rfl
      cases answer with
      | error e => exact ⟨rfl,hread,fun _ h => by cases h⟩
      | ok text =>
        refine ⟨rfl,hread,?_⟩
        rintro text' h found
        cases h
        rw [asks,hblob]
        rfl

section
variable {todo : List ChunkRecord} {texts texts' : List String} {α : Type}
  {x : Except StageFailure α} {log more : IngestLog} {v : Visit}

theorem batched_stopped {e : StageFailure} (hasked : ∀ y ∈ asked log, lookedUp y = false)
    (hhands : handedOver log = []) : c.Batched todo texts (.error e : Except StageFailure α) log :=
  ⟨[],asked log,⟨List.nil_prefix,rfl,hasked⟩,hhands ▸ List.nil_prefix,fun h => by
    obtain ⟨a,ha⟩ := h
    cases ha⟩

theorem batched_cut {e : StageFailure} (hasked : asked log = c.asks v)
    (hhands : handedOver log <+: greedy fitsTexts texts v.unfound.toList) :
    c.Batched (v.chunk :: todo) texts (.error e : Except StageFailure α) log := by
  refine ⟨[v],[],⟨?_,?_,fun _ h => (by cases h)⟩,?_,fun h => ?_⟩
  · exact prefix_append [v.chunk] todo
  · rw [hasked,append_nil,flatMap_singleton]
  · rwa [filterMap_cons,filterMap_nil,← Option.toList]
  · obtain ⟨a,ha⟩ := h
    cases ha

/-- What follows a visit goes on with the texts that the visit leaves in the batch. -/
theorem Batched.visit (h : c.Batched todo texts' x more) (hasked : asked log = c.asks v)
    (hhands : ∀ rest, handedOver log ++ greedy fitsTexts texts' rest =
      greedy fitsTexts texts (v.unfound.toList ++ rest)) :
    c.Batched (v.chunk :: todo) texts x (log ++ more) := by
  obtain ⟨visited,tail,⟨hchunks,hmore,hstopped⟩,hlooked,hok⟩ := h
  have htexts : (v :: visited).filterMap Visit.unfound =
      v.unfound.toList ++ visited.filterMap Visit.unfound := by
    rw [filterMap_cons]
    cases v.unfound <;> rfl
  refine ⟨v :: visited,tail,⟨?_,?_,hstopped⟩,?_,fun hx => ?_⟩
  · exact (prefix_cons_inj v.chunk).mpr hchunks
  · rw [asked_append,hasked,hmore,flatMap_cons,append_assoc]
  · rw [handedOver_append,htexts,← hhands]
    exact (prefix_append_right_inj _).mpr hlooked
  · obtain ⟨hall,htail,hwhole⟩ := hok hx
    refine ⟨by rw [map_cons,hall],htail,?_⟩
    rw [handedOver_append,htexts,← hhands,hwhole]

end

section
variable {α : Type} {rest : Batcher → IngestProg α} {todo : List ChunkRecord} {front : IngestLog}
  {v : Visit} {pending : PendingChunk}

theorem reused_batched (hfilled : b.Filled)
    (hrest : ∀ b', Batcher.Filled b' → (rest b').Paths (c.Batched todo b'.texts))
    (hasked : asked front = c.asks v) (hfound : v.unfound = none) (hhands : handedOver front = []) :
    ((c.commitReused b pending).bind rest).Paths fun x more =>
      c.Batched (v.chunk :: todo) b.texts x (front ++ more) := by
  apply Prog.Paths.bind
  apply (commitReused_silent pending).mono
  rintro x log ⟨hsilent,hquiet,hkept⟩
  have hnone : handedOver (front ++ log) = [] := by
    rw [handedOver_append,hhands,hquiet]
    rfl
  have hvisit : asked (front ++ log) = c.asks v := by
    rw [asked_append,hasked,hsilent,append_nil]
  cases x with
  | error e => exact batched_cut hvisit (by rw [hnone]; exact List.nil_prefix)
  | ok b' =>
    obtain ⟨hpending,htokens⟩ := hkept b' rfl
    have hsame : b'.texts = b.texts := by rw [Batcher.texts,hpending,Batcher.texts]
    have hfilled' : b'.Filled :=
      ⟨by rw [htokens,hpending]; exact hfilled.1,by rw [hpending]; exact hfilled.2⟩
    apply (hrest b' hfilled').mono
    intro y more h
    rw [← append_assoc]
    exact h.visit hvisit fun rest => by rw [hnone,hfound,hsame]; rfl

theorem entered_batched (hfilled : b.Filled) (hpending : pending.token_count = tokensOf pending.text)
    (hrest : ∀ b', Batcher.Filled b' → (rest b').Paths (c.Batched todo b'.texts))
    (hasked : asked front = c.asks v) (hfound : v.unfound = some pending.text)
    (hhands : handedOver front = []) :
    ((c.enter b pending).bind rest).Paths fun x more =>
      c.Batched (v.chunk :: todo) b.texts x (front ++ more) := by
  apply Prog.Paths.bind
  apply (enter_hands hfilled hpending).mono
  rintro x log ⟨hsilent,hcases⟩
  have hvisit : asked (front ++ log) = c.asks v := by
    rw [asked_append,hasked,hsilent,append_nil]
  have hsame : handedOver (front ++ log) = handedOver log := by
    rw [handedOver_append,hhands,nil_append]
  rcases hcases with ⟨hne,hrefused,hbatch,hkept⟩ | ⟨hroom,hquiet,b',rfl,hfilled',htexts⟩
  · cases x with
    | error e =>
      refine batched_cut hvisit ?_
      rw [hsame,hbatch,hfound,Option.toList,greedy_close hne hrefused]
      exact ⟨_,rfl⟩
    | ok b' =>
      obtain ⟨hfilled',htexts⟩ := hkept b' rfl
      apply (hrest b' hfilled').mono
      intro y more h
      rw [← append_assoc]
      refine h.visit hvisit fun rest => ?_
      rw [hsame,hbatch,hfound,htexts]
      exact (greedy_close hne hrefused rest).symm
  · apply (hrest b' hfilled').mono
    intro y more h
    rw [← append_assoc]
    refine h.visit hvisit fun rest => ?_
    rw [hsame,hquiet,hfound,htexts]
    exact (greedy_join hroom rest).symm

theorem takeChunk_batched (done : List ChunkId) (chunk : ChunkRecord) (hfilled : b.Filled)
    (hrest : ∀ b', Batcher.Filled b' → (rest b').Paths (c.Batched todo b'.texts)) :
    ((c.takeChunk done b chunk).bind rest).Paths (c.Batched
      (if chunk.chunk_id ∈ done then todo else chunk :: todo) b.texts) := by
  rw [takeChunk]
  by_cases hdone : chunk.chunk_id ∈ done
  · rw [if_pos hdone,if_pos hdone]
    exact hrest b.skipCommitted ⟨hfilled.1,hfilled.2⟩
  rw [if_neg hdone,if_neg hdone,push,Prog.bind_assoc]
  apply Prog.Paths.bind
  apply (chunkText_reads chunk).mono
  rintro x log ⟨hnone,hsteps,hread⟩
  cases x with
  | error e => exact batched_stopped hsteps hnone
  | ok text =>
    intro answer
    have hhands : handedOver (log ++ [⟨.findEmbeddingByContent chunk.content_hash c.setup.model_name
        c.setup.enrichment_version,answer⟩]) = [] := by
      rw [handedOver_append,hnone]
      rfl
    cases answer with
    | error fault =>
      refine batched_stopped (fun y hy => ?_) hhands
      rw [asked_append] at hy
      rcases mem_append.mp hy with hy | hy
      · exact hsteps y hy
      · rw [mem_singleton.mp hy]
        rfl
    | ok found =>
      have hasked := hread text rfl found
      have hfilled' : Batcher.Filled { b with bytes_read := satAdd64 b.bytes_read text.utf8ByteSize } :=
        ⟨hfilled.1,hfilled.2⟩
      cases found with
      | some record =>
        have hreused : ((c.commitReused { b with bytes_read := satAdd64 b.bytes_read text.utf8ByteSize }
            (pendingChunk chunk text (some record))).bind rest).Paths _ :=
          reused_batched hfilled' hrest hasked rfl hhands
        refine Prog.Paths.mono hreused fun y more h => ?_
        rw [append_assoc] at h
        exact h
      | none =>
        have hentered : ((c.enter { b with bytes_read := satAdd64 b.bytes_read text.utf8ByteSize }
            (pendingChunk chunk text none)).bind rest).Paths _ :=
          entered_batched hfilled' rfl hrest hasked rfl hhands
        refine Prog.Paths.mono hentered fun y more h => ?_
        rw [append_assoc] at h
        exact h

end

theorem loop_batched (done : List ChunkId) (chunks : List ChunkRecord) (hfilled : b.Filled) :
    ((chunks.foldlM (c.takeChunk done) b).bind c.finish).Paths
      (c.Batched (undone done chunks) b.texts) := by
  induction chunks generalizing b with
  | nil => exact finish_batched b
  | cons chunk chunks ih =>
    rw [foldlM_cons,Prog.bind_eq,Prog.bind_assoc]
    have htake := takeChunk_batched done chunk hfilled fun b' hfilled' => ih hfilled'
    by_cases hdone : chunk.chunk_id ∈ done
    · rw [if_pos hdone] at htake
      rwa [undone,filter_cons_of_neg (by simpa using hdone)]
    · rw [if_neg hdone] at htake
      rwa [undone,filter_cons_of_pos (by simpa using hdone)]

theorem split_texts (texts : List String) :
    (batcherPlan.split (texts.map tokensOf)).splitLengths texts = greedy fitsTexts [] texts := by
  have hmap := greedy_map batcherPlan.Fits tokensOf [] texts
  have hlengths : batcherPlan.split (texts.map tokensOf) =
      (greedy fitsTexts [] texts).map List.length := by
    have hsplit := batcherPlan.splitFrom_eq [] (texts.map tokensOf)
    have hlen : List.length ∘ List.map tokensOf = List.length := by
      funext batch
      exact length_map tokensOf
    rw [map_nil] at hmap
    rw [← hmap,map_map,hlen] at hsplit
    exact hsplit
  have hflat := greedy_flatten fitsTexts [] texts
  have hparts := splitLengths_length (greedy fitsTexts [] texts)
  rw [nil_append] at hflat
  rwa [hflat,← hlengths] at hparts

theorem embedChunks_batched {ι σ : Type} (M : Machine ingestIface ι σ) (env : Nat → ι) (n : Nat)
    (s : σ) (chunks : List ChunkRecord) (done : List ChunkId) :
    c.Batched (undone done chunks) [] ((c.embedChunks chunks done).run M env n s).1
      ((c.embedChunks chunks done).trace M env n s) :=
  (loop_batched done chunks ⟨rfl,fun _ hp => absurd hp not_mem_nil⟩).run M env n s

end EmbedCall

/-- The planner cuts the inputs, in order, into batches that the check accepts and
that could not have taken the next input; and EMBED, which looks in order at the
chunks that are not done, forms the same from those without a vector to reuse. -/
theorem split_batches {plan : EmbedBatchPlan} (hcount : 1 ≤ plan.count_max) (token_counts : List Nat) :
    ((plan.split token_counts).splitLengths token_counts).flatten = token_counts ∧
    ((plan.split token_counts).splitLengths token_counts).map List.length = plan.split token_counts ∧
    (∀ batch ∈ (plan.split token_counts).splitLengths token_counts,
      batch ≠ [] ∧ plan.check batch = .ok ()) ∧
    (∀ before batch next after,
      (plan.split token_counts).splitLengths token_counts = before ++ batch :: next :: after →
      ∃ tokens more, next = tokens :: more ∧ plan.check (batch ++ [tokens]) ≠ .ok ()) ∧
    ∀ (c : EmbedCall) (ι σ : Type) (M : Machine ingestIface ι σ) (env : Nat → ι) (n : Nat) (s : σ)
      (chunks : List ChunkRecord) (done : List ChunkId),
      let log := (c.embedChunks chunks done).trace M env n s
      ∃ visited tail, c.Visits (undone done chunks) log visited tail ∧
        let texts := visited.filterMap Visit.unfound
        handedOver log <+: (batcherPlan.split (texts.map tokensOf)).splitLengths texts ∧
          ((∃ product, ((c.embedChunks chunks done).run M env n s).1 = .ok product) →
            visited.map Visit.chunk = undone done chunks ∧ tail = [] ∧
              handedOver log = (batcherPlan.split (texts.map tokensOf)).splitLengths texts) := by
  have hfits : ∀ batch, plan.Fits batch = true ↔ plan.check batch = .ok () := by
    intro batch
    rw [EmbedBatchPlan.Fits]
    cases plan.check batch with
    | error e => simp [Except.isOk,Except.toBool]
    | ok u => simp [Except.isOk,Except.toBool]
  rw [plan.batches_eq]
  refine ⟨?_,?_,?_,?_,?_⟩
  · rw [greedy_flatten,nil_append]
  · exact (plan.splitFrom_eq [] token_counts).symm
  · intro batch hbatch
    exact ⟨ne_nil_of_mem_greedy _ hbatch,(hfits batch).mp
      (fits_of_mem_greedy _ (plan.fits_one hcount) (Or.inl rfl) hbatch)⟩
  · intro before batch next after h
    obtain ⟨tokens,more,rfl,hrefused⟩ := greedy_maximal _ h
    refine ⟨tokens,more,rfl,fun hok => ?_⟩
    rw [(hfits _).mpr hok] at hrefused
    exact Bool.noConfusion hrefused
  · intro c ι σ M env n s chunks done
    simp only [EmbedCall.split_texts]
    exact EmbedCall.embedChunks_batched M env n s chunks done

def fourChunks : Db := demoDb 4 1 (by decide) (by decide)

def fourTexts : Surroundings where
  text _ byte_start _ := .ok (if byte_start < 18 then "note" else "memo")
  vectors _ inputs _ := .ok ⟨1,inputs.map fun _ => 1⟩
  blob _ := .ok 5

/-- Three inputs under a budget for two; and four chunks of which one has a vector to
reuse and one is done: EMBED hands over the other two. -/
theorem split_batches_three :
    ((EmbedBatchPlan.mk 1024 2).split [300,500,100]).splitLengths [300,500,100] = [[300,500],[100]] ∧
    (EmbedBatchPlan.mk 1024 2).check [300,500] = .ok () ∧
    ∃ visited : List Visit,
      visited.map Visit.chunk = undone [(demoChunk 1).1] (demoCall.chunksIn fourChunks) ∧
      let texts := visited.filterMap Visit.unfound
      (batcherPlan.split (texts.map tokensOf)).splitLengths texts = [["note","memo"]] := by
  have h := split_batches (show 1 ≤ (EmbedBatchPlan.mk 1024 2).count_max by decide) [300,500,100]
  refine ⟨by decide,(h.2.2.1 [300,500] (by decide)).2,?_⟩
  obtain ⟨visited,tail,-,-,hok⟩ := h.2.2.2.2 demoCall Unit Db (calmIngest fourTexts)
    (fun _ => ()) 0 fourChunks (demoCall.chunksIn fourChunks) [(demoChunk 1).1]
  obtain ⟨hall,-,hbatches⟩ := hok ⟨⟨.none,12,4⟩,by decide +kernel⟩
  exact ⟨visited,hall,hbatches.symm.trans (by decide +kernel)⟩

end ProjectOS.Ingest
