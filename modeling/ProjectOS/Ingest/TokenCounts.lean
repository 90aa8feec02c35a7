import ProjectOS.Lib.Scatter
import ProjectOS.Gateway.Wire
import ProjectOS.Gateway.Vocabularies
import ProjectOS.Ingest.Splits

/-! What EMBED plans a text with, and what the local model's tokenizer makes of it. -/

namespace ProjectOS.Ingest
open Lib Domain List
open Gateway (EmbedInput EmbedUsage UnicodeTables WordPiece preTokenize splitWords_plain
  wordpieceWordCharsMax wordpieceVocabCountMax)
open Gateway.WordPiece (ne_nil_of_mem_preTokenize)

structure EncodedBatch where
  count : Nat
  width : Nat
  input_ids : List Nat
  attention_mask : List Nat
  token_type_ids : List Nat
  usage : EmbedUsage

def padded (width fill : Nat) (rows : List (List Nat)) : List Nat :=
  rows.zipIdx.foldl (fun flat row => Scatter.write (row.2*width) row.1 flat)
    (List.replicate (rows.length*width) fill)

def encodeBatch (v : WordPiece) (t : UnicodeTables) (inputs : List EmbedInput) :
    Except Gateway.Weather EncodedBatch :=
  let encodings := inputs.map fun input => v.encode t input.text.toList embedSequenceTokensMax
  let token_counts := encodings.map fun encoding => encoding.input_ids.length
  match EmbedBatchPlan.default.check token_counts with
  | .error weather => .error weather
  | .ok () =>
    let width := max (token_counts.foldl max 0) 1
    let count := encodings.length
    .ok
      { count := count
        width := width
        input_ids := padded width v.id_pad (encodings.map fun e => e.input_ids)
        attention_mask := padded width 0 (encodings.map fun e => e.attention_mask)
        token_type_ids := List.replicate (count*width) 0
        usage :=
          { tokens_in := token_counts.foldl (· + ·) 0
            padded_tokens := count*width
            vector_count := count
            truncated_count := encodings.countP fun e => e.truncated
            measured := true } }

def PlannedWell (t : UnicodeTables) (text : String) : Prop :=
  ∀ vocab v, WordPiece.fromVocabText vocab = .ok v →
    (v.encode t text.toList embedSequenceTokensMax).input_ids.length ≤ tokensOf text ∧
      ∀ chunk found, (EmbedCall.pendingChunk chunk text found).truncated =
        (v.encode t text.toList embedSequenceTokensMax).truncated

/-- At three characters a token the text has room for the ids of its words and the
two of the frame; or it is past the cap and so are they. -/
def CoveredText (t : UnicodeTables) (text : String) : Prop :=
  (text.length ≤ 1533 ∧ 3*WordPiece.mostIds t text.toList+4 ≤ text.length) ∨
    (1534 ≤ text.length ∧ 511 ≤ (preTokenize t text.toList).length)

instance (t : UnicodeTables) (text : String) : Decidable (CoveredText t text) :=
  inferInstanceAs (Decidable (_ ∨ _))

theorem exists_front (words : List (List Char)) (cap target : Nat)
    (h : ∀ word ∈ words, word.length ≤ cap) : ∃ front back, words = front ++ back ∧
      (target ≤ front.flatten.length ∨ back = []) ∧ front.flatten.length ≤ target+cap := by
  induction words generalizing target with
  | nil => exact ⟨[],[],rfl,Or.inr rfl,Nat.zero_le _⟩
  | cons word words ih =>
    have hcap := h word mem_cons_self
    by_cases hdone : target ≤ word.length
    · exact ⟨[word],words,rfl,Or.inl (by simpa using hdone),by simp; omega⟩
    · obtain ⟨front,back,hsplit,hreach,hle⟩ :=
        ih (target-word.length) fun w hw => h w (mem_cons_of_mem _ hw)
      refine ⟨word :: front,back,by rw [hsplit]; rfl,?_,?_⟩
      · rw [flatten_cons,length_append]
        exact hreach.imp_left fun hreach => by omega
      · rw [flatten_cons,length_append]
        omega

section
variable {t : UnicodeTables} {text : List Char}

theorem exists_many (ht : t.Lineless) (text : List Char) :
    ∃ vocab v, WordPiece.fromVocabText vocab = .ok v ∧
      min 510 (WordPiece.mostIds t text) ≤ (v.contentIds t text).length := by
  let short (word : List Char) : Bool := word.length ≤ wordpieceWordCharsMax
  obtain ⟨front,back,hsplit,hreach,hle⟩ := exists_front
    ((preTokenize t text).filter short) wordpieceWordCharsMax 510
    (fun word hword => of_decide_eq_true (mem_filter.mp hword).2)
  have hfront : ∀ word ∈ front, word ∈ preTokenize t text ∧ word.length ≤ wordpieceWordCharsMax := by
    intro word hword
    have hmem := mem_filter.mp (hsplit ▸ mem_append_left back hword)
    exact ⟨hmem.1,of_decide_eq_true hmem.2⟩
  have hlines : ∀ entry ∈ WordPiece.letterEntries front.flatten, '\n' ∉ entry ∧ '\r' ∉ entry := by
    intro entry hentry
    obtain ⟨c,hc,hform⟩ := WordPiece.mem_letterEntries.mp hentry
    obtain ⟨word,hword,hin⟩ := mem_flatten.mp hc
    have hbreaks := ht.normalize ((splitWords_plain (hfront word hword).1).2 c hin)
    have hmarks : '\n' ∉ Gateway.continuationPrefix ∧ '\r' ∉ Gateway.continuationPrefix := by decide
    rcases hform with rfl | rfl
    · simp [Ne.symm hbreaks.1,Ne.symm hbreaks.2]
    · simp [Ne.symm hbreaks.1,Ne.symm hbreaks.2,hmarks.1,hmarks.2]
  have hcount : (WordPiece.letterEntries front.flatten).length+4 ≤ wordpieceVocabCountMax := by
    rw [WordPiece.length_letterEntries]
    simp only [wordpieceWordCharsMax,wordpieceVocabCountMax] at hle ⊢
    omega
  obtain ⟨v,hv,hknows⟩ := WordPiece.exists_vocab hlines hcount
  have hletters : ∀ word ∈ front, (v.subwordIds word).length = word.length := by
    intro word hword
    refine WordPiece.subwordIds_letters hknows (ne_nil_of_mem_preTokenize (hfront word hword).1) ?_
      (WordPiece.plain_of_mem (hfront word hword).1) (hfront word hword).2
    exact fun c hc => mem_flatten.mpr ⟨word,hword,hc⟩
  refine ⟨_,v,hv,?_⟩
  rcases hreach with hreach | rfl
  · -- the words in front alone fill the sequence
    have hshort : front.Sublist ((preTokenize t text).filter short) := by
      rw [hsplit]
      exact sublist_append_left front back
    have hsub : front.Sublist (preTokenize t text) := hshort.trans filter_sublist
    have hall := Gateway.length_flatMap_sublist hsub v.subwordIds
    have hmany : (front.flatMap id).length ≤ (front.flatMap v.subwordIds).length :=
      Gateway.length_flatMap_le fun word hword => (hletters word hword).ge
    rw [flatMap_id] at hmany
    rw [WordPiece.contentIds]
    omega
  · rw [append_nil] at hsplit
    have hmost : WordPiece.mostIds t text ≤ (v.contentIds t text).length := by
      refine Gateway.length_flatMap_le fun word hword => ?_
      rw [WordPiece.mostPieces]
      split_ifs with hlong
      · exact length_pos_iff.mpr
          (WordPiece.subwordIds_ne_nil (ne_nil_of_mem_preTokenize hword))
      · have hmem : word ∈ front := by
          rw [← hsplit]
          exact mem_filter.mpr ⟨hword,decide_eq_true (Nat.le_of_not_lt hlong)⟩
        rw [length_map,hletters word hmem]
    omega

theorem exists_few (t : UnicodeTables) (text : List Char) :
    ∃ vocab v, WordPiece.fromVocabText vocab = .ok v ∧
      (v.contentIds t text).length ≤ (preTokenize t text).length := by
  have hnone : ∀ entry ∈ ([] : List (List Char)),'\n' ∉ entry ∧ '\r' ∉ entry := by simp
  obtain ⟨v,hv,hknows⟩ := WordPiece.exists_vocab hnone (by simp [wordpieceVocabCountMax])
  refine ⟨_,v,hv,?_⟩
  have hone : (v.contentIds t text).length ≤ ((preTokenize t text).flatMap fun word => [word]).length :=
    Gateway.length_flatMap_le fun word hword =>
      (WordPiece.subwordIds_one hknows (ne_nil_of_mem_preTokenize hword)).le
  rwa [flatMap_singleton'] at hone

end

theorem tokensOf_eq (text : String) : tokensOf text = min (max ((text.length+2)/3) 1) 512 := by
  rw [tokensOf,clampTokens,estimateTokens,embedSequenceTokensMax]
  omega

theorem plannedWell_iff (t : UnicodeTables) (text : String) :
    PlannedWell t text ↔ ∀ vocab v, WordPiece.fromVocabText vocab = .ok v →
      min (v.contentIds t text.toList).length 510+2 ≤ tokensOf text ∧
        (512 ≤ tokensOf text ↔ 510 < (v.contentIds t text.toList).length) := by
  have hflag : ∀ chunk found, (EmbedCall.pendingChunk chunk text found).truncated =
      decide (512 ≤ tokensOf text) := fun _ _ => rfl
  refine forall_congr' fun vocab => forall_congr' fun v => forall_congr' fun _ => ?_
  rw [WordPiece.encode_length,WordPiece.encode_truncated]
  simp only [hflag,embedSequenceTokensMax]
  refine and_congr_right fun _ => ⟨fun h => ?_,fun h _ _ => decide_eq_decide.mpr h⟩
  exact decide_eq_decide.mp
    (h ⟨⟨0⟩,⟨0⟩,0,.documentSection,0,0,.lineRange 0 0,0,0,0⟩ none)

variable {t : UnicodeTables}

theorem plannedWell_covered (ht : t.Lineless) (text : String) :
    PlannedWell t text ↔ CoveredText t text := by
  have hplan := tokensOf_eq text
  rw [plannedWell_iff,CoveredText]
  constructor
  · intro h
    by_cases hlong : 1534 ≤ text.length
    · obtain ⟨vocab,v,hv,hfew⟩ := exists_few t text.toList
      have hflag := (h vocab v hv).2
      exact Or.inr ⟨hlong,by omega⟩
    · obtain ⟨vocab,v,hv,hmany⟩ := exists_many ht text.toList
      have hcount := (h vocab v hv).1
      exact Or.inl ⟨by omega,by omega⟩
  · intro h vocab v hv
    have hmost := v.contentIds_le t text.toList
    have hleast := v.le_contentIds t text.toList
    omega

namespace EmbedBatchPlan

theorem clampTokens_mono {a b : Nat} (h : a ≤ b) : clampTokens a ≤ clampTokens b := by
  simp only [clampTokens]
  omega

theorem longestOf_le {α : Type} {xs : List α} {f g : α → Nat} (h : ∀ x ∈ xs, f x ≤ g x) :
    longestOf (xs.map f) ≤ longestOf (xs.map g) := by
  induction xs using List.reverseRecOn with
  | nil => exact Nat.le_refl _
  | append_singleton xs x ih =>
    have hfirst := ih fun y hy => h y (mem_append_left _ hy)
    have hlast := clampTokens_mono (h x (mem_append_right _ mem_cons_self))
    simp only [map_append,map_cons,map_nil,longestOf_concat]
    omega

end EmbedBatchPlan

variable {texts : List String}

theorem encodeBatch_ok {v : WordPiece} (hne : texts ≠ []) (hfits : fitsTexts texts = true)
    (hcounts : ∀ text ∈ texts,
      (v.encode t text.toList embedSequenceTokensMax).input_ids.length ≤ tokensOf text) :
    (encodeBatch v t (texts.map fun text => ⟨none,text⟩)).isOk = true := by
  have hcheck : EmbedBatchPlan.default.Fits (texts.map fun text =>
      (v.encode t text.toList embedSequenceTokensMax).input_ids.length) = true := by
    rw [fitsTexts,EmbedBatchPlan.fits_iff _ (by simpa using hne),length_map] at hfits
    rw [EmbedBatchPlan.fits_iff _ (by simpa using hne),length_map]
    have hlongest := EmbedBatchPlan.longestOf_le hcounts
    simp only [batcherPlan,batchCountMax,EmbedBatchPlan.default] at hfits ⊢
    refine ⟨by omega,fun hmany => ?_⟩
    exact (Nat.mul_le_mul_left _ hlongest).trans (hfits.2 hmany)
  rw [EmbedBatchPlan.Fits] at hcheck
  have htexts : ((texts.map fun text => (⟨none,text⟩ : EmbedInput)).map fun input =>
      v.encode t input.text.toList embedSequenceTokensMax).map
        (fun encoding => encoding.input_ids.length) = texts.map fun text =>
          (v.encode t text.toList embedSequenceTokensMax).input_ids.length := by
    rw [map_map,map_map]
    rfl
  rw [encodeBatch]
  simp only [htexts]
  cases h : EmbedBatchPlan.default.check (texts.map fun text =>
      (v.encode t text.toList embedSequenceTokensMax).input_ids.length) with
  | error weather =>
    rw [h] at hcheck
    cases hcheck
  | ok u => rfl

theorem handedOver_fits {c : EmbedCall} {ι σ : Type} (M : Machine ingestIface ι σ) (env : Nat → ι)
    (n : Nat) (s : σ) (chunks : List ChunkRecord) (done : List ChunkId)
    (h : texts ∈ handedOver ((c.embedChunks chunks done).trace M env n s)) :
    texts ≠ [] ∧ fitsTexts texts = true := by
  obtain ⟨visited,tail,-,hlooked,-⟩ := EmbedCall.embedChunks_batched (c := c) M env n s chunks done
  have hmem := hlooked.subset h
  refine ⟨ne_nil_of_mem_greedy _ hmem,fits_of_mem_greedy _ ?_ (Or.inl rfl) hmem⟩
  exact fun text => batcherPlan.fits_one (by decide) (tokensOf text)

/-- For a text that is covered, and for no other, what EMBED plans with is enough
for the ids of every vocabulary and says where they are cut off; and a batch of
covered texts that EMBED dispatches is admitted by the local model. -/
theorem estimate_covers (t : UnicodeTables) (ht : t.Lineless) :
    (∀ text, PlannedWell t text ↔ CoveredText t text) ∧
    ∀ (c : EmbedCall) (ι σ : Type) (M : Machine ingestIface ι σ) (env : Nat → ι) (n : Nat) (s : σ)
      (chunks : List ChunkRecord) (done : List ChunkId),
      ∀ texts ∈ handedOver ((c.embedChunks chunks done).trace M env n s),
        (∀ text ∈ texts, CoveredText t text) → ∀ vocab v, WordPiece.fromVocabText vocab = .ok v →
          (encodeBatch v t (texts.map fun text => ⟨none,text⟩)).isOk = true := by
  refine ⟨plannedWell_covered ht,?_⟩
  intro c ι σ M env n s chunks done texts htexts hcovered vocab v hv
  obtain ⟨hne,hfits⟩ := handedOver_fits M env n s chunks done htexts
  exact encodeBatch_ok hne hfits fun text htext =>
    ((plannedWell_covered ht text).mpr (hcovered text htext) vocab v hv).1

/-- Four letters and twelve blanks. -/
theorem note_planned : PlannedWell Gateway.asciiTables "note            " :=
  ((estimate_covers Gateway.asciiTables Gateway.asciiTables_lineless).1 _).mpr (by decide +kernel)

def letterVocab : List Char := "[UNK]\n[CLS]\n[SEP]\n[PAD]\na\n".toList

/-- One letter is planned with one token, and comes to three. -/
theorem letter_underplanned : ¬PlannedWell Gateway.asciiTables "a" := by
  intro h
  have hids : (WordPiece.fromVocabText letterVocab).toOption.map
      (fun v => (v.encode Gateway.asciiTables "a".toList embedSequenceTokensMax).input_ids.length) =
        some 3 := by decide +kernel
  have hplanned : tokensOf "a" = 1 := by decide +kernel
  cases hv : WordPiece.fromVocabText letterVocab with
  | error e =>
    rw [hv] at hids
    cases hids
  | ok v =>
    rw [hv] at hids
    have hlength := (h letterVocab v hv).1
    simp only [Except.toOption,Option.map_some,Option.some.injEq] at hids
    omega

end ProjectOS.Ingest
