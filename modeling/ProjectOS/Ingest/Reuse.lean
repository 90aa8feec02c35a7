import ProjectOS.Ingest.Content
import ProjectOS.Gateway.Seams
import ProjectOS.Gateway.Vocabularies

/-! A vector that is used again for a text with the same content hash: what the
hasher takes for the same, and what the tokenizer of the local model does. -/

namespace ProjectOS.Ingest
open Lib List
open Gateway (UnicodeTables WordPiece preTokenize Unglued isAsciiBlank spacedWords
  splitWords_plain wordpieceWordCharsMax wordpieceVocabCountMax)
open Gateway.WordPiece (fromVocabText ne_nil_of_mem_preTokenize)

def SameContent (text other : List Char) : Prop :=
  (ContentHasher.new.update (encode text)).hashed = (ContentHasher.new.update (encode other)).hashed

instance (text other : List Char) : Decidable (SameContent text other) :=
  inferInstanceAs (Decidable (_ = _))

def SameIds (t : UnicodeTables) (text other : List Char) : Prop :=
  ∀ vocab v, fromVocabText vocab = .ok v → ∀ cap,
    (v.encode t text cap).input_ids = (v.encode t other cap).input_ids

def clipWord (word : List Char) : Option (List Char) :=
  if wordpieceWordCharsMax < word.length then none else some word

def AlikeWords (t : UnicodeTables) (text other : List Char) : Prop :=
  (preTokenize t text).map clipWord = (preTokenize t other).map clipWord

theorem words_encode_free {text : List Char} (hfree : ∀ c ∈ text, isAsciiBlank c = false) :
    words isAsciiWhitespace (encode text) = (words isAsciiBlank text).map encode := by
  have hbytes : ∀ b ∈ encode text, isAsciiWhitespace b = false := by
    intro b hb
    by_contra hblank
    rw [Bool.not_eq_false] at hblank
    simp only [isAsciiWhitespace,Bool.or_eq_true,beq_iff_eq] at hblank
    have hsmall : b.toNat < 128 := by rcases hblank with (((rfl | rfl) | rfl) | rfl) | rfl <;> decide
    obtain ⟨c,hc,hcode⟩ := (mem_encode hsmall).mp hb
    have hno := hfree c hc
    have hchar : c = Char.ofNat b.toNat := by rw [← hcode,Char.ofNat_toNat]
    rw [hchar] at hno
    rcases hblank with (((rfl | rfl) | rfl) | rfl) | rfl <;> revert hno <;> decide
  by_cases hne : text = []
  · subst hne
    rfl
  · have hcode : encode text ≠ [] := fun hnil => hne (encode_inj hnil)
    rw [words_word hbytes hcode,words_word hfree hne,map_singleton]

theorem words_encode (text : List Char) :
    words isAsciiWhitespace (encode text) = (words isAsciiBlank text).map encode := by
  induction text using separated_induction (p := isAsciiBlank) with
  | hfree text hfree => exact words_encode_free hfree
  | hsep front c back hfree hc ih =>
    obtain ⟨b,hb,hcode⟩ : ∃ b, isAsciiWhitespace b = true ∧ String.utf8EncodeChar c = [b] := by
      simp only [isAsciiBlank,Bool.or_eq_true,beq_iff_eq] at hc
      rcases hc with (((rfl | rfl) | rfl) | rfl) | rfl
      · exact ⟨32,by decide,by decide⟩
      · exact ⟨9,by decide,by decide⟩
      · exact ⟨10,by decide,by decide⟩
      · exact ⟨12,by decide,by decide⟩
      · exact ⟨13,by decide,by decide⟩
    rw [encode_append,encode_cons,hcode,singleton_append,words_append_cons hb,
      words_append_cons hc,map_append,ih,words_encode_free hfree]

theorem sameContent_iff (text other : List Char) :
    SameContent text other ↔ words isAsciiBlank text = words isAsciiBlank other := by
  have hholds : ∀ content : List Char,
      (ContentHasher.new.update (encode content)).Holds (encode content) := by
    intro content
    simpa using ContentHasher.new_holds.update (encode content)
  rw [SameContent,(hholds text).hashed,(hholds other).hashed,append_cancel_left_eq,
    normalizedContent,normalizedContent,collapse_inj (by decide),words_encode,words_encode]
  exact map_inj_right fun a b => encode_inj

section
variable {t : UnicodeTables} {text other : List Char}

theorem subwordIds_clip (v : WordPiece) {word : List Char} (hne : word ≠ []) :
    v.subwordIds word = (clipWord word).elim [v.id_unknown] v.subwordIds := by
  rw [clipWord]
  split_ifs with hlong
  · rw [WordPiece.subwordIds,if_neg hne,if_pos hlong]
    rfl
  · rfl

theorem AlikeWords.sameIds (h : AlikeWords t text other) : SameIds t text other := by
  intro vocab v _ cap
  have hclip : ∀ content, v.contentIds t content = ((preTokenize t content).map clipWord).flatMap
      fun clipped => clipped.elim [v.id_unknown] v.subwordIds := by
    intro content
    rw [flatMap_map]
    exact flatMap_congr fun word hword => subwordIds_clip v (ne_nil_of_mem_preTokenize hword)
  rw [WordPiece.encode_input_ids,WordPiece.encode_input_ids,hclip text,h,← hclip other]

section
variable (h : SameIds t text other)
include h

theorem SameIds.contentIds {vocab : List Char} {v : WordPiece}
    (hv : fromVocabText vocab = .ok v) : v.contentIds t text = v.contentIds t other := by
  have hids := h vocab v hv ((v.contentIds t text).length+(v.contentIds t other).length+2)
  rw [WordPiece.encode_input_ids,WordPiece.encode_input_ids,List.cons.injEq,
    append_cancel_right_eq,take_of_length_le (by omega),take_of_length_le (by omega)]
    at hids
  exact hids.2

theorem SameIds.length_eq :
    (preTokenize t text).length = (preTokenize t other).length := by
  have hnone : ∀ entry ∈ ([] : List (List Char)),'\n' ∉ entry ∧ '\r' ∉ entry := by simp
  obtain ⟨v,hv,hknows⟩ := WordPiece.exists_vocab hnone (by simp [wordpieceVocabCountMax])
  have hone : ∀ content, (v.contentIds t content).length = (preTokenize t content).length := by
    intro content
    rw [WordPiece.contentIds,length_flatMap,map_congr_left fun word hword =>
      WordPiece.subwordIds_one hknows (ne_nil_of_mem_preTokenize hword)]
    simp
  rw [← hone,← hone,h.contentIds hv]

theorem SameIds.short_word (ht : t.Lineless) {i : Nat}
    {word second : List Char} (hword : (preTokenize t text)[i]? = some word)
    (hsecond : (preTokenize t other)[i]? = some second)
    (hshort : word.length ≤ wordpieceWordCharsMax) : second = word := by
  have hmem := mem_of_getElem? hword
  have hplain := WordPiece.plain_of_mem hmem
  have hlines : ∀ entry ∈ [word],'\n' ∉ entry ∧ '\r' ∉ entry := by
    intro entry hentry
    obtain rfl := mem_singleton.mp hentry
    have hletters := (splitWords_plain hmem).2
    exact ⟨fun hc => (ht.normalize (hletters _ hc)).1 rfl,fun hc => (ht.normalize (hletters _ hc)).2 rfl⟩
  obtain ⟨v,hv,hknows⟩ := WordPiece.exists_vocab hlines (by simp [wordpieceVocabCountMax])
  obtain ⟨hunknown,hinj⟩ := WordPiece.fromVocabText_ids hv
  obtain ⟨id,hid⟩ := Option.ne_none_iff_exists'.mp ((hknows word).mpr (by simp))
  let idOf (u : List Char) : Nat :=
    if u.length ≤ wordpieceWordCharsMax ∧ u = word then id else v.id_unknown
  have hids : ∀ content, v.contentIds t content = (preTokenize t content).map idOf := by
    intro content
    rw [WordPiece.contentIds,map_eq_flatMap]
    apply flatMap_congr
    intro u hu
    rw [WordPiece.subwordIds_whole hknows hplain (WordPiece.plain_of_mem hu)
      (ne_nil_of_mem_preTokenize hu),hid]
    simp only [idOf]
    split_ifs
    · rfl
    · rfl
  have hsame : idOf word = idOf second := by
    have hat := congrArg (fun ids : List Nat => ids[i]?) (h.contentIds hv)
    simpa [hids,hword,hsecond] using hat
  have hknown : id ≠ v.id_unknown := by
    rintro rfl
    exact hplain.not_special (hinj _ _ _ hid hunknown ▸ by decide)
  have hfirst : idOf word = id := if_pos ⟨hshort,rfl⟩
  by_contra hne
  have hother : idOf second = v.id_unknown := if_neg fun hand => hne hand.2
  exact hknown (hfirst.symm.trans (hsame.trans hother))

theorem SameIds.symm : SameIds t other text :=
  fun vocab v hv cap => (h vocab v hv cap).symm

theorem SameIds.alikeWords (ht : t.Lineless) :
    AlikeWords t text other := by
  have hlength := h.length_eq
  rw [AlikeWords]
  apply ext_getElem?
  intro i
  rw [List.getElem?_map,List.getElem?_map]
  cases hword : (preTokenize t text)[i]? with
  | none =>
    rw [List.getElem?_eq_none_iff,hlength,← List.getElem?_eq_none_iff] at hword
    rw [hword]
  | some word =>
    obtain ⟨second,hsecond⟩ : ∃ second, (preTokenize t other)[i]? = some second := by
      obtain ⟨hlt,-⟩ := List.getElem?_eq_some_iff.mp hword
      exact ⟨_,List.getElem?_eq_getElem (hlength ▸ hlt)⟩
    rw [hsecond,Option.map_some,Option.map_some,clipWord,clipWord]
    by_cases hshort : word.length ≤ wordpieceWordCharsMax
    · rw [h.short_word ht hword hsecond hshort]
    · rw [if_pos (by omega),if_pos]
      by_contra hsmall
      have hback := h.symm.short_word ht hsecond hword (by omega)
      rw [hback] at hshort
      omega

end

theorem SameContent.alikeWords_iff (h : SameContent text other) (htext : Unglued t text) :
    AlikeWords t text other ↔ Unglued t other := by
  have hspaced : spacedWords t text = spacedWords t other := by
    rw [spacedWords,spacedWords,(sameContent_iff text other).mp h]
  constructor
  · intro halike
    by_contra hglued
    have hfewer := Gateway.preTokenize_length_lt hglued
    have hlength := congrArg List.length halike
    rw [length_map,length_map,htext.preTokenize_eq,hspaced] at hlength
    omega
  · intro hother
    rw [AlikeWords,htext.preTokenize_eq,hother.preTokenize_eq,hspaced]

end

/-- Two texts with the same content have the same ids just when they fall into the
same words; and where the one has no form feed within a word, just when the other
has none either. -/
theorem reuse_sound (t : UnicodeTables) (ht : t.Lineless) (text other : List Char) :
    ((SameContent text other → SameIds t text other) ↔
      (SameContent text other → AlikeWords t text other)) ∧
    (SameContent text other → Unglued t text → (SameIds t text other ↔ Unglued t other)) := by
  have hwords : SameIds t text other ↔ AlikeWords t text other :=
    ⟨fun h => h.alikeWords ht,fun h => h.sameIds⟩
  refine ⟨forall_congr' fun _ => hwords,fun hcontent htext => ?_⟩
  rw [hwords]
  exact hcontent.alikeWords_iff htext

/-- A blank for a line break. -/
theorem note_reused :
    SameIds Gateway.asciiTables "to do".toList "to\ndo".toList :=
  ((reuse_sound Gateway.asciiTables Gateway.asciiTables_lineless _ _).2 (by decide +kernel)
    (Gateway.unglued_of_no_feed (by decide))).mpr (Gateway.unglued_of_no_feed (by decide))

/-- A form feed for a blank: the hasher takes it for white space, and the tokenizer
for nothing. -/
theorem feed_glued : SameContent "to do".toList "to\x0cdo".toList ∧
    ¬SameIds Gateway.asciiTables "to do".toList "to\x0cdo".toList := by
  refine ⟨by decide +kernel,fun h => ?_⟩
  have hlength := h.length_eq
  revert hlength
  decide +kernel

end ProjectOS.Ingest
