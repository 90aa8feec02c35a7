import ProjectOS.Gateway.Counts

/-! Vocabularies written for a purpose: one that knows no word, and one that knows
letters only. -/

namespace ProjectOS.Gateway
open Lib List

theorem lines_terminated {entries : List (List Char)}
    (h : ∀ entry ∈ entries, '\n' ∉ entry ∧ '\r' ∉ entry) :
    lines (entries.flatMap fun entry => entry ++ ['\n']) = entries := by
  have hsplit : (entries.flatMap fun entry => entry ++ ['\n']).splitOn '\n' = entries ++ [[]] := by
    induction entries with
    | nil => simp [splitOn_nil]
    | cons entry entries ih =>
      have hbreak := (h entry mem_cons_self).1
      rw [flatMap_cons,append_assoc,singleton_append,splitOn_append_cons_self,
        splitOn_eq_singleton hbreak,ih fun e he => h e (mem_cons_of_mem _ he)]
      rfl
  have hkept : entries.map (stripSuffix '\r') = entries := by
    rw [map_congr_left,map_id]
    intro entry hentry
    rw [stripSuffix,if_neg]
    · rfl
    · intro hlast
      exact (h entry hentry).2 (mem_of_getLast? hlast)
  rw [lines,hsplit]
  simp [hkept]

namespace WordPiece

def specialEntries : List (List Char) := [tokenUnknown,tokenClassify,tokenSeparate,tokenPad]

def vocabText (entries : List (List Char)) : List Char :=
  (specialEntries ++ entries).flatMap fun entry => entry ++ ['\n']

def Knows (v : WordPiece) (entries : List (List Char)) : Prop :=
  ∀ key, v.ids key ≠ none ↔ key ∈ specialEntries ++ entries

theorem exists_vocab {entries : List (List Char)}
    (h : ∀ entry ∈ entries, '\n' ∉ entry ∧ '\r' ∉ entry)
    (hcount : entries.length+4 ≤ wordpieceVocabCountMax) :
    ∃ v, fromVocabText (vocabText entries) = .ok v ∧ v.Knows entries := by
  have hspecial : ∀ entry ∈ specialEntries, '\n' ∉ entry ∧ '\r' ∉ entry := by decide
  have hall : ∀ entry ∈ specialEntries ++ entries, '\n' ∉ entry ∧ '\r' ∉ entry := by
    intro entry hentry
    rcases mem_append.mp hentry with hentry | hentry
    · exact hspecial entry hentry
    · exact h entry hentry
  have hlines : (lines (vocabText entries)).map (stripSuffix '\r') = specialEntries ++ entries := by
    rw [vocabText,lines_terminated hall,map_congr_left,map_id]
    intro entry hentry
    rw [stripSuffix,if_neg]
    · rfl
    · intro hlast
      exact (hall entry hentry).2 (mem_of_getLast? hlast)
  have hsmall : ¬wordpieceVocabCountMax < (specialEntries ++ entries).length := by
    rw [length_append,show specialEntries.length = 4 from rfl]
    omega
  have hne : specialEntries ++ entries ≠ [] := by simp [specialEntries]
  have hknown : ∀ key, (specialEntries ++ entries).findIdx? (· = key) ≠ none ↔
      key ∈ specialEntries ++ entries := by
    intro key
    rw [Ne,List.findIdx?_eq_none_iff]
    simp
  have hfound : ∀ token ∈ specialEntries, ∃ id,
      (specialEntries ++ entries).findIdx? (· = token) = some id := fun token htoken =>
    Option.ne_none_iff_exists'.mp ((hknown token).mpr (mem_append_left _ htoken))
  obtain ⟨unknown,hunknown⟩ := hfound tokenUnknown (by decide)
  obtain ⟨classify,hclassify⟩ := hfound tokenClassify (by decide)
  obtain ⟨separate,hseparate⟩ := hfound tokenSeparate (by decide)
  obtain ⟨pad,hpad⟩ := hfound tokenPad (by decide)
  refine ⟨⟨fun key => (specialEntries ++ entries).findIdx? (· = key),unknown,classify,separate,pad⟩,
    ?_,hknown⟩
  rw [fromVocabText]
  simp only [hlines,if_neg hsmall,if_neg hne,hunknown,hclassify,hseparate,hpad,Option.elim_some]
  rfl

variable {letters left text : List Char}

theorem fromVocabText_ids {v : WordPiece} (h : fromVocabText text = .ok v) :
    v.ids tokenUnknown = some v.id_unknown ∧
      ∀ key other id, v.ids key = some id → v.ids other = some id → key = other := by
  have hids : ∀ (entries : List (List Char)) (key other : List Char) (id : Nat),
      entries.findIdx? (· = key) = some id → entries.findIdx? (· = other) = some id → key = other := by
    intro entries key other id hkey hother
    obtain ⟨hlt,hfirst,-⟩ := List.findIdx?_eq_some_iff_getElem.mp hkey
    obtain ⟨_,hsecond,-⟩ := List.findIdx?_eq_some_iff_getElem.mp hother
    exact (of_decide_eq_true hfirst).symm.trans (of_decide_eq_true hsecond)
  have hrequired : ∀ {α : Type} {found : Option Nat} {e : VocabError} {f : Nat → Except VocabError α}
      {a : α}, found.elim (.error e) .ok >>= f = .ok a → ∃ id, found = some id ∧ f id = .ok a := by
    intro α found e f a hfound
    cases found with
    | none => cases hfound
    | some id => exact ⟨id,rfl,hfound⟩
  rw [fromVocabText] at h
  simp only at h
  split_ifs at h
  obtain ⟨unknown,hunknown,h⟩ := hrequired h
  obtain ⟨classify,-,h⟩ := hrequired h
  obtain ⟨separate,-,h⟩ := hrequired h
  obtain ⟨pad,-,h⟩ := hrequired h
  cases h
  exact ⟨hunknown,hids _⟩

def Plain (word : List Char) : Prop := word.length ≤ 1 ∨ ∀ c ∈ word, c ≠ '#' ∧ c ≠ '['

variable {v : WordPiece} {word : List Char} {start : Nat}

theorem continuation_not_special (hstart : start ≠ 0) (piece : List Char) :
    key start piece ∉ specialEntries := by
  rw [key,if_neg hstart]
  simp [specialEntries,continuationPrefix,tokenUnknown,tokenClassify,tokenSeparate,tokenPad]

theorem subwordIds_one (hv : v.Knows []) (hne : word ≠ []) : (v.subwordIds word).length = 1 := by
  obtain ⟨found,hgreedy,hids⟩ := v.subwordIds_greedy word
  rw [hids hne,wordIds]
  split_ifs
  · rfl
  · cases hgreedy with
    | done => exact absurd rfl hne
    | stuck => rfl
    | @piece _ _ piece later found hsplit hpiece hlater =>
      have hstart : 0+piece.length ≠ 0 := by
        have hpos := length_pos_iff.mpr hpiece.ne_nil
        omega
      obtain ⟨id,hid⟩ := Option.ne_none_iff_exists'.mp hpiece.known
      cases hlater with
      | done =>
        simp only [Option.map_some,Option.elim_some,pieceIds,hid,Option.toList_some]
        rfl
      | stuck => rfl
      | piece _ hnext _ =>
        have hmem := (hv _).mp hnext.known
        rw [append_nil] at hmem
        exact absurd hmem (continuation_not_special hstart _)

theorem Plain.not_special (h : Plain word) : word ∉ specialEntries := by
  intro hspecial
  have hmarks : ∀ entry ∈ specialEntries, 1 < entry.length ∧ '[' ∈ entry := by decide
  obtain ⟨hlong,hbracket⟩ := hmarks word hspecial
  rcases h with hone | hplain
  · omega
  · exact (hplain _ hbracket).2 rfl

theorem Plain.front {front : List Char} (h : Plain word) (hfront : front <+: word) : Plain front :=
  h.imp (fun hone => hfront.length_le.trans hone) fun hplain c hc => hplain c (hfront.subset hc)

theorem Plain.not_continuation (h : Plain word) (hstart : start ≠ 0) (piece : List Char) :
    key start piece ≠ word := by
  rintro rfl
  rw [key,if_neg hstart] at h
  rcases h with hone | hplain
  · have htwo : continuationPrefix.length = 2 := by decide
    rw [length_append] at hone
    omega
  · exact (hplain '#' (by simp [continuationPrefix])).1 rfl

theorem subwordIds_whole {entry : List Char} (hv : v.Knows [entry]) (hentry : Plain entry)
    (hplain : Plain word) (hne : word ≠ []) :
    v.subwordIds word = if word.length ≤ wordpieceWordCharsMax ∧ word = entry then
      (v.ids entry).toList else [v.id_unknown] := by
  obtain ⟨found,hgreedy,hids⟩ := v.subwordIds_greedy word
  rw [hids hne,wordIds]
  by_cases hlong : wordpieceWordCharsMax < word.length
  · rw [if_pos hlong,if_neg (by omega)]
  rw [if_neg hlong]
  cases hgreedy with
  | done => exact absurd rfl hne
  | stuck _ hnone =>
    rw [if_neg]
    · rfl
    · rintro ⟨-,rfl⟩
      have hknown : v.ids word ≠ none := (hv word).mpr (by simp)
      exact hknown (hnone word (prefix_refl word) hne)
  | @piece _ _ piece later found hsplit hpiece hlater =>
    have hfirst : piece = entry := by
      have hmem := mem_append.mp ((hv _).mp hpiece.known)
      rw [key,if_pos rfl] at hmem
      exact mem_singleton.mp
        (hmem.resolve_left (hplain.front hpiece.front).not_special)
    subst hfirst
    have hstart : 0+piece.length ≠ 0 := by
      have hpos := length_pos_iff.mpr hpiece.ne_nil
      omega
    have hmore : later ≠ [] → word ≠ piece := by
      intro hlater hsame
      rw [hsame] at hsplit
      exact hlater (self_eq_append_right.mp hsplit)
    cases hlater with
    | done =>
      rw [append_nil] at hsplit
      rw [if_pos ⟨by omega,hsplit⟩]
      simp [pieceIds,key]
    | stuck hleft =>
      rw [if_neg fun h => hmore hleft h.2]
      rfl
    | @piece _ _ next _ _ hsplit hnext _ =>
      have hmem := mem_append.mp ((hv _).mp hnext.known)
      rcases hmem with hspecial | hsame
      · exact absurd hspecial (continuation_not_special hstart next)
      · exact absurd (mem_singleton.mp hsame) (hentry.not_continuation hstart next)

def letterEntries (letters : List Char) : List (List Char) :=
  letters.flatMap fun c => [[c],continuationPrefix ++ [c]]

theorem mem_letterEntries {key : List Char} :
    key ∈ letterEntries letters ↔ ∃ c ∈ letters, key = [c] ∨ key = continuationPrefix ++ [c] := by
  simp [letterEntries]

theorem length_letterEntries (letters : List Char) :
    (letterEntries letters).length = 2*letters.length := by
  induction letters with
  | nil => rfl
  | cons c letters ih =>
    rw [letterEntries] at ih ⊢
    rw [flatMap_cons,length_append,ih,length_cons]
    simp only [length_cons,length_nil]
    omega

theorem letters_longest {c : Char} (hv : v.Knows (letterEntries letters)) (hc : c ∈ letters)
    (hplain : start = 0 → Plain (c :: left)) : v.Longest start (c :: left) [c] where
  front := ⟨left,rfl⟩
  ne_nil := by simp
  known := by
    refine (hv _).mpr (mem_append_right _ (mem_letterEntries.mpr ⟨c,hc,?_⟩))
    rw [key]
    split_ifs
    · exact Or.inl rfl
    · exact Or.inr rfl
  longest other hother hknown := by
    rw [length_singleton]
    by_contra hlong
    have hmem := mem_append.mp ((hv _).mp hknown)
    by_cases hstart : start = 0
    · -- a longer piece in front of the word would have a mark in it
      have hmarks : ∀ d ∈ other, d ≠ '#' ∧ d ≠ '[' := by
        rcases hplain hstart with hone | hmarks
        · have hle := hother.length_le
          omega
        · exact fun d hd => hmarks d (hother.subset hd)
      rw [key,if_pos hstart] at hmem
      rcases hmem with hspecial | hentry
      · have hbracket : ∀ entry ∈ specialEntries, '[' ∈ entry := by decide
        exact (hmarks _ (hbracket other hspecial)).2 rfl
      · obtain ⟨d,-,rfl | rfl⟩ := mem_letterEntries.mp hentry
        · exact hlong (Nat.le_refl 1)
        · exact (hmarks '#' (by simp [continuationPrefix])).1 rfl
    · rcases hmem with hspecial | hentry
      · exact continuation_not_special hstart other hspecial
      · rw [key,if_neg hstart] at hentry
        obtain ⟨d,-,hone | hsame⟩ := mem_letterEntries.mp hentry
        · have hlength := congrArg List.length hone
          have htwo : continuationPrefix.length = 2 := by decide
          rw [length_append,htwo,length_singleton] at hlength
          omega
        · rw [append_cancel_left hsame] at hlong
          exact hlong (Nat.le_refl 1)

theorem letters_greedy (hv : v.Knows (letterEntries letters))
    (hletters : ∀ c ∈ left, c ∈ letters) (start : Nat) (hplain : start = 0 → Plain left) :
    v.Greedy start left (some (left.map fun c => [c])) := by
  induction left generalizing start with
  | nil => exact .done start
  | cons c left ih =>
    have hlater := ih (fun d hd => hletters d (mem_cons_of_mem _ hd)) (start+1)
      (fun h => absurd h (Nat.succ_ne_zero start))
    have hword : v.Greedy start (c :: left) ((some (left.map fun c => [c])).map ([c] :: ·)) :=
      .piece rfl (letters_longest hv (hletters c mem_cons_self) hplain) hlater
    exact hword

theorem Greedy.pieceIds_length {found : Option (List (List Char))}
    (h : v.Greedy start left found) {pieces : List (List Char)} (hfound : found = some pieces) :
    (v.pieceIds start pieces).length = pieces.length := by
  induction h generalizing pieces with
  | done =>
    cases hfound
    rfl
  | stuck => cases hfound
  | piece hsplit hpiece hlater ih =>
    obtain ⟨later,hsome,rfl⟩ := Option.map_eq_some_iff.mp hfound
    obtain ⟨id,hid⟩ := Option.ne_none_iff_exists'.mp hpiece.known
    rw [pieceIds,hid,length_append,ih hsome,length_cons,Option.toList_some,
      length_singleton,Nat.add_comm]

theorem subwordIds_letters (hv : v.Knows (letterEntries letters))
    (hne : word ≠ []) (hletters : ∀ c ∈ word, c ∈ letters) (hplain : Plain word)
    (hshort : word.length ≤ wordpieceWordCharsMax) :
    (v.subwordIds word).length = word.length := by
  obtain ⟨found,hgreedy,hids⟩ := v.subwordIds_greedy word
  have hletterwise := letters_greedy hv hletters 0 fun _ => hplain
  obtain rfl := hgreedy.unique hletterwise
  rw [hids hne,wordIds,if_neg (by omega),Option.elim_some,hletterwise.pieceIds_length rfl,
    length_map]

theorem plain_of_mem {t : UnicodeTables} (h : word ∈ preTokenize t text) :
    Plain word := by
  rcases (splitWords_plain h).1 with hone | hmarks
  · exact Or.inl hone
  · right
    intro c hc
    constructor
    · rintro rfl
      exact absurd (hmarks _ hc) (by decide)
    · rintro rfl
      exact absurd (hmarks _ hc) (by decide)

end WordPiece
end ProjectOS.Gateway
