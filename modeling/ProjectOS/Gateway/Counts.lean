import ProjectOS.Gateway.Pieces

/-! How many ids a text comes to: at most and at least, over all vocabularies. -/

namespace ProjectOS.Gateway
open Lib List

theorem splitWords_all {P C : List Char → Prop} {text : List Char} (hnil : C [])
    (hletter : ∀ c ∈ text, P [c])
    (hgrow : ∀ current, ∀ c ∈ text, isPunctuation c = false → C current → C (current ++ [c]))
    (hword : ∀ current, C current → P current) {word : List Char} (h : word ∈ splitWords text) :
    P word := by
  have hpush : ∀ s : List (List Char) × List Char, (∀ w ∈ s.1, P w) → C s.2 →
      ∀ w ∈ pushWord s.1 s.2, P w := by
    intro s hs hc w hw
    rw [pushWord] at hw
    split_ifs at hw
    · exact hs w hw
    · rcases mem_append.mp hw with hw | hw
      · exact hs w hw
      · exact mem_singleton.mp hw ▸ hword s.2 hc
  have hfold : ∀ (letters : List Char) (s : List (List Char) × List Char), letters ⊆ text →
      (∀ w ∈ s.1, P w) → C s.2 →
      (∀ w ∈ (letters.foldl splitStep s).1, P w) ∧ C (letters.foldl splitStep s).2 := by
    intro letters
    induction letters with
    | nil => exact fun s _ hs hc => ⟨hs,hc⟩
    | cons c letters ih =>
      intro s hsub hs hc
      have hmem : c ∈ text := hsub mem_cons_self
      rw [foldl_cons]
      apply ih _ fun d hd => hsub (mem_cons_of_mem _ hd)
      · intro w hw
        unfold splitStep at hw
        split_ifs at hw
        · exact hpush s hs hc w hw
        · rcases mem_append.mp hw with hw | hw
          · exact hpush s hs hc w hw
          · exact mem_singleton.mp hw ▸ hletter c hmem
        · exact hs w hw
      · unfold splitStep
        split_ifs with hspace hpunct
        · exact hnil
        · exact hnil
        · rw [Bool.or_eq_true,not_or,Bool.not_eq_true] at hpunct
          exact hgrow s.2 c hmem hpunct.1 hc
  obtain ⟨hwords,hcurrent⟩ := hfold text ([],[]) (fun _ h => h) (by simp) hnil
  exact hpush _ hwords hcurrent word h

theorem splitWords_plain {text word : List Char} (h : word ∈ splitWords text) :
    (word.length ≤ 1 ∨ ∀ c ∈ word, isPunctuation c = false) ∧ ∀ c ∈ word, c ∈ text := by
  let P (w : List Char) : Prop :=
    (w.length ≤ 1 ∨ ∀ c ∈ w, isPunctuation c = false) ∧ ∀ c ∈ w, c ∈ text
  let C (w : List Char) : Prop := ∀ c ∈ w, isPunctuation c = false ∧ c ∈ text
  have hall : P word := by
    refine splitWords_all (C := C) (by simp [C]) ?_ ?_ ?_ h
    · intro c hc
      exact ⟨Or.inl (by simp),by simpa using hc⟩
    · intro current c hc hpunct hcurrent d hd
      rcases mem_append.mp hd with hd | hd
      · exact hcurrent d hd
      · rw [mem_singleton.mp hd]
        exact ⟨hpunct,hc⟩
    · intro current hcurrent
      exact ⟨Or.inr fun c hc => (hcurrent c hc).1,fun c hc => (hcurrent c hc).2⟩
  exact hall

def UnicodeTables.Lineless (t : UnicodeTables) : Prop :=
  ∀ raw, ∀ c ∈ (t.toLowercase raw).flatMap t.nfd, c = '\n' ∨ c = '\r' → raw = c

theorem UnicodeTables.Lineless.normalize {t : UnicodeTables} (h : t.Lineless) {text : List Char}
    {c : Char} (hc : c ∈ normalize t text) : c ≠ '\n' ∧ c ≠ '\r' := by
  rw [ProjectOS.Gateway.normalize,mem_flatMap] at hc
  obtain ⟨raw,-,hraw⟩ := hc
  rw [normalizeChar] at hraw
  have hblank : c ∈ [' '] → c ≠ '\n' ∧ c ≠ '\r' := by
    intro hc
    rw [mem_singleton.mp hc]
    decide
  split_ifs at hraw with hline hdropped
  · exact hblank hraw
  · cases hraw
  · exact hblank hraw
  · have hmem : c ∈ (t.toLowercase raw).flatMap t.nfd := by
      obtain ⟨lowered,hlowered,hin⟩ := mem_flatMap.mp hraw
      exact mem_flatMap.mpr ⟨lowered,hlowered,mem_of_mem_filter hin⟩
    constructor
    · rintro rfl
      exact hline (Or.inr (Or.inl (h raw _ hmem (Or.inl rfl))))
    · rintro rfl
      exact hline (Or.inr (Or.inr (h raw _ hmem (Or.inr rfl))))

theorem toLower_ne_break {raw : Char} (h : raw.toLower ≠ raw) :
    raw.toLower ≠ '\n' ∧ raw.toLower ≠ '\r' := by
  unfold Char.toLower at h ⊢
  split at h
  next hupper =>
    rw [dif_pos hupper]
    obtain ⟨hlow,hhigh⟩ := hupper
    rw [ge_iff_le,UInt32.le_iff_toNat_le] at hlow
    rw [UInt32.le_iff_toNat_le] at hhigh
    have hlow' : 65 ≤ raw.val.toNat := hlow
    have hhigh' : raw.val.toNat ≤ 90 := hhigh
    have hshift : (raw.val+('a'.val - 'A'.val)).toNat = raw.val.toNat+32 := by
      rw [UInt32.toNat_add]
      have hgap : ('a'.val - 'A'.val).toNat = 32 := by decide
      rw [hgap]
      omega
    constructor
    · intro hbreak
      have hvalue : (raw.val+('a'.val - 'A'.val)).toNat = 10 :=
        congrArg (fun c : Char => c.val.toNat) hbreak
      omega
    · intro hbreak
      have hvalue : (raw.val+('a'.val - 'A'.val)).toNat = 13 :=
        congrArg (fun c : Char => c.val.toNat) hbreak
      omega
  next => exact absurd rfl h

theorem asciiTables_lineless : asciiTables.Lineless := by
  intro raw c hc hbreak
  have hlower : c = raw.toLower := by simpa [asciiTables] using hc
  subst hlower
  by_contra hne
  obtain ⟨hfeed,hreturn⟩ := toLower_ne_break (Ne.symm hne)
  exact hbreak.elim hfeed hreturn

theorem length_flatMap_le {α β γ : Type} {xs : List α} {f : α → List β} {g : α → List γ}
    (h : ∀ a ∈ xs, (f a).length ≤ (g a).length) :
    (xs.flatMap f).length ≤ (xs.flatMap g).length := by
  induction xs with
  | nil => simp
  | cons a xs ih =>
    have hrest := ih fun b hb => h b (mem_cons_of_mem _ hb)
    have hfirst := h a mem_cons_self
    rw [flatMap_cons,flatMap_cons,length_append,length_append]
    omega

theorem length_flatMap_sublist {α β : Type} {xs ys : List α} (h : xs.Sublist ys)
    (f : α → List β) : (xs.flatMap f).length ≤ (ys.flatMap f).length := by
  induction h with
  | slnil => exact Nat.le_refl _
  | cons a _ ih =>
    rw [flatMap_cons,length_append]
    omega
  | cons_cons a _ ih =>
    rw [flatMap_cons,flatMap_cons,length_append,length_append]
    omega

namespace WordPiece
variable {v : WordPiece} {t : UnicodeTables} {text : List Char}

def contentIds (v : WordPiece) (t : UnicodeTables) (text : List Char) : List Nat :=
  (preTokenize t text).flatMap v.subwordIds

theorem encode_input_ids (v : WordPiece) (t : UnicodeTables) (text : List Char) (cap : Nat) :
    (v.encode t text cap).input_ids =
      v.id_classify :: ((v.contentIds t text).take (cap-2) ++ [v.id_separate]) := by
  have hstart : [v.id_classify].length ≤ cap-2+1 := by simp
  rw [encode]
  simp only [v.encodeWords_eq hstart false fun _ => ne_nil_of_mem_preTokenize]
  simp [contentIds]

theorem encode_length (v : WordPiece) (t : UnicodeTables) (text : List Char) (cap : Nat) :
    (v.encode t text cap).input_ids.length = min (v.contentIds t text).length (cap-2)+2 := by
  rw [encode_input_ids]
  simp [Nat.min_comm]

theorem encode_truncated (v : WordPiece) (t : UnicodeTables) (text : List Char) (cap : Nat) :
    (v.encode t text cap).truncated = decide (cap-2 < (v.contentIds t text).length) := by
  have hstart : [v.id_classify].length ≤ cap-2+1 := by simp
  rw [encode]
  simp only [v.encodeWords_eq hstart false fun _ => ne_nil_of_mem_preTokenize]
  simp [contentIds]

def mostPieces (word : List Char) : List (List Char) :=
  if wordpieceWordCharsMax < word.length then [word] else word.map fun c => [c]

def mostIds (t : UnicodeTables) (text : List Char) : Nat :=
  ((preTokenize t text).flatMap mostPieces).length

theorem pieceIds_le (start : Nat) (pieces : List (List Char)) :
    (v.pieceIds start pieces).length ≤ pieces.length := by
  induction pieces generalizing start with
  | nil => simp [pieceIds]
  | cons piece pieces ih =>
    have hrest := ih (start+piece.length)
    rw [pieceIds,length_append,length_cons]
    cases v.ids (key start piece) with
    | none => simp only [Option.toList_none,length_nil]; omega
    | some id => simp only [Option.toList_some,length_singleton]; omega

theorem Greedy.length_le {start : Nat} {left : List Char} {found : Option (List (List Char))}
    (h : v.Greedy start left found) {pieces : List (List Char)} (hfound : found = some pieces) :
    pieces.length ≤ left.length := by
  induction h generalizing pieces with
  | done =>
    cases hfound
    simp
  | stuck => cases hfound
  | piece hsplit hpiece hlater ih =>
    obtain ⟨later,hsome,rfl⟩ := Option.map_eq_some_iff.mp hfound
    have hle := ih hsome
    have hpos := length_pos_iff.mpr hpiece.ne_nil
    rw [hsplit,length_cons,length_append]
    omega

theorem subwordIds_le {word : List Char} (hne : word ≠ []) :
    (v.subwordIds word).length ≤ (mostPieces word).length := by
  obtain ⟨found,hgreedy,hids⟩ := v.subwordIds_greedy word
  have hpos := length_pos_iff.mpr hne
  rw [hids hne,wordIds,mostPieces]
  split_ifs
  · simp
  · rw [length_map]
    cases found with
    | none => exact hpos
    | some pieces => exact (pieceIds_le 0 pieces).trans (hgreedy.length_le rfl)

theorem contentIds_le (v : WordPiece) (t : UnicodeTables) (text : List Char) :
    (v.contentIds t text).length ≤ mostIds t text :=
  length_flatMap_le fun _ hword => subwordIds_le (ne_nil_of_mem_preTokenize hword)

theorem le_contentIds (v : WordPiece) (t : UnicodeTables) (text : List Char) :
    (preTokenize t text).length ≤ (v.contentIds t text).length := by
  have hone : ((preTokenize t text).flatMap fun word => [word]).length ≤
      (v.contentIds t text).length :=
    length_flatMap_le fun word hword =>
      length_pos_iff.mpr (subwordIds_ne_nil (ne_nil_of_mem_preTokenize hword))
  rwa [flatMap_singleton'] at hone

end WordPiece
end ProjectOS.Gateway
