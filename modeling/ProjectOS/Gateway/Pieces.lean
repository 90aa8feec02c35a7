import ProjectOS.Gateway.WordPiece

/-! What the tokenizer puts out: the pieces of each word, the longest first, cut off
at the cap. -/

namespace ProjectOS.Gateway
open List

namespace WordPiece
variable (v : WordPiece)

/-- The longest piece of the vocabulary at the front of what is left. -/
structure Longest (start : Nat) (left piece : List Char) : Prop where
  front : piece <+: left
  ne_nil : piece ≠ []
  known : v.ids (key start piece) ≠ none
  longest : ∀ other, other <+: left → v.ids (key start other) ≠ none → other.length ≤ piece.length

/-- Longest match first, from the front, or stuck. -/
inductive Greedy : Nat → List Char → Option (List (List Char)) → Prop where
  | done (start : Nat) : Greedy start [] (some [])
  | stuck {start : Nat} {left : List Char} (hne : left ≠ [])
      (hnone : ∀ piece, piece <+: left → piece ≠ [] → v.ids (key start piece) = none) :
      Greedy start left none
  | piece {start : Nat} {left piece later : List Char} {found : Option (List (List Char))}
      (hsplit : left = piece ++ later) (hpiece : v.Longest start left piece)
      (hlater : Greedy (start+piece.length) later found) :
      Greedy start left (found.map (piece :: ·))

def pieceIds : Nat → List (List Char) → List Nat
  | _, [] => []
  | start, piece :: pieces => (v.ids (key start piece)).toList ++ pieceIds (start+piece.length) pieces

def wordIds (found : Option (List (List Char))) (word : List Char) : List Nat :=
  if wordpieceWordCharsMax < word.length then [v.id_unknown]
  else found.elim [v.id_unknown] (v.pieceIds 0)

variable {v} {start : Nat} {left : List Char}

theorem Longest.unique {piece other : List Char} (h : v.Longest start left piece)
    (h' : v.Longest start left other) : piece = other := by
  have hlen := Nat.le_antisymm (h'.longest piece h.front h.known) (h.longest other h'.front h'.known)
  rw [prefix_iff_eq_take.mp h.front,prefix_iff_eq_take.mp h'.front,hlen]

variable {found : Option (List (List Char))}

theorem Greedy.unique {other : Option (List (List Char))} (h : v.Greedy start left found)
    (h' : v.Greedy start left other) : found = other := by
  induction h generalizing other with
  | done start =>
    cases h' with
    | done => rfl
    | stuck hne => exact absurd rfl hne
    | piece hsplit hpiece => exact absurd (append_eq_nil_iff.mp hsplit.symm).1 hpiece.ne_nil
  | stuck hne hnone =>
    cases h' with
    | done => exact absurd rfl hne
    | stuck => rfl
    | piece hsplit hpiece =>
      exact absurd (hnone _ hpiece.front hpiece.ne_nil) hpiece.known
  | piece hsplit hpiece hlater ih =>
    cases h' with
    | done => exact absurd (append_eq_nil_iff.mp hsplit.symm).1 hpiece.ne_nil
    | stuck hne hnone => exact absurd (hnone _ hpiece.front hpiece.ne_nil) hpiece.known
    | piece hsplit' hpiece' hlater' =>
      obtain rfl := hpiece.unique hpiece'
      obtain rfl := append_cancel_left (hsplit.symm.trans hsplit')
      rw [ih hlater']

variable {pieces : List (List Char)}

theorem Greedy.flatten (h : v.Greedy start left found)
    (hfound : found = some pieces) : pieces.flatten = left := by
  induction h generalizing pieces with
  | done => cases hfound; rfl
  | stuck => cases hfound
  | piece hsplit hpiece hlater ih =>
    obtain ⟨later,hlater',rfl⟩ := Option.map_eq_some_iff.mp hfound
    rw [flatten_cons,ih hlater',hsplit]

theorem Greedy.pieceIds_ne_nil (h : v.Greedy start left found) (hne : left ≠ [])
    (hfound : found = some pieces) : v.pieceIds start pieces ≠ [] := by
  cases h with
  | done => exact absurd rfl hne
  | stuck => cases hfound
  | piece hsplit hpiece hlater =>
    obtain ⟨later,hlater',rfl⟩ := Option.map_eq_some_iff.mp hfound
    obtain ⟨id,hid⟩ := Option.ne_none_iff_exists'.mp hpiece.known
    rw [pieceIds,hid]
    simp

variable {chars : List Char}

theorem slice_eq (stop : Nat) : (chars.take stop).drop start = (chars.drop start).take (stop-start) := by
  rw [drop_take]

theorem matched_none {stop : Nat} (h : v.matched chars start stop = none) {n : Nat}
    (hn : start+n ≤ stop) (hpos : 0 < n) : v.ids (key start ((chars.drop start).take n)) = none := by
  induction stop with
  | zero => omega
  | succ stop ih =>
    rw [matched] at h
    rw [if_pos (by omega)] at h
    cases hid : v.ids (key start ((chars.take (stop+1)).drop start)) with
    | some id => simp [hid] at h
    | none =>
      simp only [hid] at h
      by_cases hlast : start+n = stop+1
      · rwa [slice_eq,show stop+1-start = n by omega] at hid
      · exact ih h (by omega)

theorem matched_some {stop id next : Nat} (h : v.matched chars start stop = some (id,next)) :
    start < next ∧ next ≤ stop ∧ v.ids (key start ((chars.drop start).take (next-start))) = some id ∧
      ∀ n, next < start+n → start+n ≤ stop → v.ids (key start ((chars.drop start).take n)) = none := by
  induction stop with
  | zero => simp [matched] at h
  | succ stop ih =>
    rw [matched] at h
    split_ifs at h with hlt
    cases hid : v.ids (key start ((chars.take (stop+1)).drop start)) with
    | some found =>
      simp only [hid,Option.some.injEq,Prod.mk.injEq] at h
      obtain ⟨rfl,rfl⟩ := h
      exact ⟨hlt,Nat.le_refl _,by rwa [slice_eq] at hid,fun n hn hle => by omega⟩
    | none =>
      simp only [hid] at h
      obtain ⟨hstart,hnext,hfound,hlonger⟩ := ih h
      refine ⟨hstart,by omega,hfound,fun n hn hle => ?_⟩
      by_cases hlast : start+n = stop+1
      · rwa [slice_eq,show stop+1-start = n by omega] at hid
      · exact hlonger n hn (by omega)

theorem matched_longest {id next : Nat} (h : v.matched chars start chars.length = some (id,next)) :
    v.Longest start (chars.drop start) ((chars.drop start).take (next-start)) := by
  obtain ⟨hstart,hnext,hfound,hlonger⟩ := matched_some h
  have hlen : ((chars.drop start).take (next-start)).length = next-start := by
    rw [length_take,length_drop]
    omega
  refine ⟨List.take_prefix _ _,?_,by rw [hfound]; simp,fun other hother hknown => ?_⟩
  · intro hnil
    rw [hnil,length_nil] at hlen
    omega
  · rw [hlen]
    by_contra hlt
    have hle := hother.length_le
    rw [length_drop] at hle
    rw [prefix_iff_eq_take.mp hother] at hknown
    exact hknown (hlonger _ (by omega) (by omega))

theorem walk_greedy {rounds : Nat} (hstart : start ≤ chars.length)
    (hrounds : chars.length ≤ start+rounds) (ids : List Nat) :
    ∃ found, v.Greedy start (chars.drop start) found ∧
      v.walk chars rounds start ids = found.elim [v.id_unknown] (fun pieces => ids ++ v.pieceIds start pieces) := by
  induction rounds generalizing start ids with
  | zero =>
    have hnil : chars.drop start = [] := drop_eq_nil_of_le (by omega)
    exact ⟨some [],hnil ▸ .done start,by simp [walk,pieceIds]⟩
  | succ rounds ih =>
    by_cases hlt : start < chars.length
    · rw [walk,if_pos hlt]
      cases hmatched : v.matched chars start chars.length with
      | none =>
        refine ⟨none,.stuck ?_ ?_,rfl⟩
        · rw [Ne,drop_eq_nil_iff]
          omega
        · intro piece hpiece hne
          have hle := hpiece.length_le
          rw [length_drop] at hle
          rw [prefix_iff_eq_take.mp hpiece]
          exact matched_none hmatched (by omega) (length_pos_iff.mpr hne)
      | some found =>
        obtain ⟨id,next⟩ := found
        obtain ⟨hless,hnext,hid,-⟩ := matched_some hmatched
        have hlen : ((chars.drop start).take (next-start)).length = next-start := by
          rw [length_take,length_drop]
          omega
        obtain ⟨found,hgreedy,hwalk⟩ := ih hnext (by omega) (ids ++ [id])
        have hafter : start+((chars.drop start).take (next-start)).length = next := by omega
        have hlater : chars.drop next = (chars.drop start).drop (next-start) := by
          rw [drop_drop]
          congr 1
          omega
        have hrest : v.Greedy (start+((chars.drop start).take (next-start)).length)
            ((chars.drop start).drop (next-start)) found := by
          rw [hafter,← hlater]
          exact hgreedy
        refine ⟨_,.piece (take_append_drop _ _).symm (matched_longest hmatched) hrest,?_⟩
        simp only
        rw [hwalk]
        cases found with
        | none => rfl
        | some pieces =>
          simp only [Option.map_some,Option.elim_some,pieceIds,hid,Option.toList_some,hafter,
            append_assoc]
    · have hnil : chars.drop start = [] := drop_eq_nil_of_le (by omega)
      exact ⟨some [],hnil ▸ .done start,by rw [walk,if_neg hlt]; simp [pieceIds]⟩

theorem subwordIds_greedy (word : List Char) :
    ∃ found, v.Greedy 0 word found ∧ (word ≠ [] → v.subwordIds word = v.wordIds found word) := by
  obtain ⟨found,hgreedy,hwalk⟩ := walk_greedy (v := v) (Nat.zero_le word.length)
    (show word.length ≤ 0+word.length by omega) []
  refine ⟨found,hgreedy,fun hne => ?_⟩
  rw [subwordIds,if_neg hne,wordIds,hwalk]
  simp only [nil_append]

theorem subwordIds_ne_nil {word : List Char} (hne : word ≠ []) : v.subwordIds word ≠ [] := by
  obtain ⟨found,hgreedy,hids⟩ := v.subwordIds_greedy word
  rw [hids hne,wordIds]
  split_ifs
  · simp
  · cases found with
    | none => simp
    | some pieces => exact hgreedy.pieceIds_ne_nil hne rfl

variable {input_ids : List Nat} {content_max : Nat}

theorem pushIds_eq (h : input_ids.length ≤ content_max+1) (ids : List Nat) :
    pushIds content_max input_ids ids =
      (input_ids ++ ids.take (content_max+1-input_ids.length),
        decide (content_max+1-input_ids.length < ids.length)) := by
  induction ids generalizing input_ids with
  | nil => simp [pushIds]
  | cons id ids ih =>
    rw [pushIds]
    split_ifs with hfull
    · have hroom : content_max+1-input_ids.length = 0 := by omega
      simp [hroom]
    · have hroom : content_max+1-input_ids.length =
          content_max+1-(input_ids ++ [id]).length+1 := by
        rw [length_append,length_singleton]
        omega
      rw [ih (by rw [length_append,length_singleton]; omega),hroom,take_succ_cons]
      simp

theorem encodeWords_eq
    (h : input_ids.length ≤ content_max+1) (truncated : Bool) {words : List (List Char)}
    (hwords : ∀ word ∈ words, word ≠ []) :
    v.encodeWords content_max input_ids truncated words =
      (input_ids ++ (words.flatMap v.subwordIds).take (content_max+1-input_ids.length),
        truncated || decide (content_max+1-input_ids.length < (words.flatMap v.subwordIds).length)) := by
  induction words generalizing input_ids truncated with
  | nil => simp [encodeWords]
  | cons word words ih =>
    have hids := length_pos_iff.mpr (subwordIds_ne_nil (v := v) (hwords word mem_cons_self))
    rw [encodeWords]
    split_ifs with hfull
    · have hroom : content_max+1-input_ids.length = 0 := by omega
      rw [hroom,take_zero,append_nil,flatMap_cons,length_append,
        decide_eq_true (by omega),Bool.or_true]
    · have hlater := fun other hother => hwords other (mem_cons_of_mem word hother)
      rw [pushIds_eq h]
      simp only
      have hsmall : (input_ids ++ (v.subwordIds word).take (content_max+1-input_ids.length)).length ≤
          content_max+1 := by
        rw [length_append,length_take]
        omega
      have hroom : content_max+1-
          (input_ids ++ (v.subwordIds word).take (content_max+1-input_ids.length)).length =
          content_max+1-input_ids.length-(v.subwordIds word).length := by
        rw [length_append,length_take]
        omega
      rw [ih hsmall _ hlater,hroom,flatMap_cons,take_append,append_assoc,
        length_append,Bool.or_assoc,← Bool.decide_or]
      refine Prod.ext rfl (congrArg (truncated || ·) (decide_eq_decide.mpr ?_))
      omega

theorem splitWords_step {s : List (List Char) × List Char} (hs : ∀ word ∈ s.1, word ≠ [])
    (character : Char) : ∀ word ∈ (splitStep s character).1, word ≠ [] := by
  have hpush : ∀ word ∈ pushWord s.1 s.2, word ≠ [] := by
    intro word hword
    rw [pushWord] at hword
    split_ifs at hword with hnil
    · exact hs word hword
    · rcases mem_append.mp hword with hword | hword
      · exact hs word hword
      · exact mem_singleton.mp hword ▸ hnil
  intro word hword
  unfold splitStep at hword
  split_ifs at hword
  · exact hpush word hword
  · rcases mem_append.mp hword with hword | hword
    · exact hpush word hword
    · rw [mem_singleton.mp hword]
      simp
  · exact hs word hword

theorem ne_nil_of_mem_preTokenize {t : UnicodeTables} {text word : List Char}
    (h : word ∈ preTokenize t text) : word ≠ [] := by
  have hfold : ∀ (chars : List Char) (s : List (List Char) × List Char), (∀ word ∈ s.1, word ≠ []) →
      ∀ word ∈ (chars.foldl splitStep s).1, word ≠ [] := by
    intro chars
    induction chars with
    | nil => exact fun s hs => hs
    | cons c chars ih => exact fun s hs => ih _ (splitWords_step hs c)
  rw [preTokenize,splitWords,pushWord] at h
  have hwords := hfold (normalize t text) ([],[]) (by simp)
  split_ifs at h with hnil
  · exact hwords word h
  · rcases mem_append.mp h with h | h
    · exact hwords word h
    · exact mem_singleton.mp h ▸ hnil

/-- A text becomes the ids of its words' pieces between the two frame ids, as many
as the cap has room for, and says so when some are cut off. -/
theorem encode_pieces (v : WordPiece) (t : UnicodeTables) (text : List Char) (cap : Nat) :
    ∃ found : List Char → Option (List (List Char)),
      (∀ word ∈ preTokenize t text, v.Greedy 0 word (found word) ∧
        (∀ other, v.Greedy 0 word other → other = found word) ∧
        ∀ pieces, found word = some pieces → pieces.flatten = word) ∧
      (v.encode t text cap).input_ids =
        v.id_classify :: (((preTokenize t text).flatMap fun word =>
          v.wordIds (found word) word).take (cap-2) ++ [v.id_separate]) ∧
      (v.encode t text cap).truncated =
        decide (cap-2 < ((preTokenize t text).flatMap fun word => v.wordIds (found word) word).length) := by
  choose found hgreedy hids using v.subwordIds_greedy
  have hflat : ((preTokenize t text).flatMap fun word => v.wordIds (found word) word) =
      (preTokenize t text).flatMap v.subwordIds := by
    apply flatMap_congr
    intro word hword
    exact (hids word (ne_nil_of_mem_preTokenize hword)).symm
  have hstart : [v.id_classify].length ≤ cap-2+1 := by simp
  have hencode := v.encodeWords_eq hstart false
    (show ∀ word ∈ preTokenize t text, word ≠ [] from fun _ => ne_nil_of_mem_preTokenize)
  refine ⟨found,?_,?_,?_⟩
  · intro word _
    exact ⟨hgreedy word,fun other hother => hother.unique (hgreedy word),
      fun pieces hpieces => (hgreedy word).flatten hpieces⟩
  · rw [encode]
    simp only [hencode,hflat]
    simp
  · rw [encode]
    simp only [hencode,hflat]
    simp

end WordPiece
end ProjectOS.Gateway
