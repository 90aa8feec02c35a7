import ProjectOS.Lib.Code

/-! Texts cut at separators and at white space, and decimal numbers read out of
them. -/

namespace ProjectOS.Lib
open List

section
variable {α : Type} [DecidableEq α]

def splitOnce (separator : α) : List α → Option (List α × List α)
  | [] => none
  | c :: rest =>
    if c = separator then some ([],rest)
    else (splitOnce separator rest).map (fun p => (c :: p.1,p.2))

variable {separator : α}

theorem splitOnce_eq_some {text before after : List α}
    (h : splitOnce separator text = some (before,after)) :
    text = before ++ separator :: after ∧ separator ∉ before := by
  induction text generalizing before with
  | nil => simp [splitOnce] at h
  | cons c rest ih =>
    rw [splitOnce] at h
    split_ifs at h with hc
    · simp only [Option.some.injEq,Prod.mk.injEq] at h
      simp [← h.1,← h.2,hc]
    · obtain ⟨⟨b,a⟩,hs,he⟩ := Option.map_eq_some_iff.mp h
      simp only [Prod.mk.injEq] at he
      obtain ⟨hrest,hb⟩ := ih (hs.trans (by rw [← he.2]))
      rw [← he.1]
      exact ⟨by simp [hrest],by simp [hb,Ne.symm hc]⟩

theorem splitOnce_append {before : List α} (after : List α) (h : separator ∉ before) :
    splitOnce separator (before ++ separator :: after) = some (before,after) := by
  induction before with
  | nil => simp [splitOnce]
  | cons c rest ih =>
    simp only [mem_cons,not_or] at h
    simp [splitOnce,Ne.symm h.1,ih h.2]

theorem splitOnce_eq_none {text : List α} : splitOnce separator text = none ↔ separator ∉ text := by
  induction text with
  | nil => simp [splitOnce]
  | cons c rest ih =>
    rw [splitOnce]
    split_ifs with hc
    · simp [hc]
    · simp [ih,Ne.symm hc]

end

variable {α : Type} {text : List α} {separator c : α}

theorem mem_splitOn [BEq α] [LawfulBEq α] (hc : c ≠ separator) :
    (∃ part ∈ text.splitOn separator, c ∈ part) ↔ c ∈ text := by
  induction text with
  | nil => simp [splitOn_nil]
  | cons d rest ih =>
    obtain ⟨part,parts,hsplit⟩ := exists_cons_of_ne_nil (splitOn_ne_nil separator rest)
    rw [splitOn_cons_eq_if_modifyHead,mem_cons,← ih,hsplit]
    by_cases hd : d = separator
    · subst hd
      simp [hc]
    · simp [hd,or_and_right,exists_or,or_assoc]

theorem not_mem_of_mem_splitOn [BEq α] [LawfulBEq α] {part : List α}
    (h : part ∈ text.splitOn separator) : separator ∉ part := by
  induction text generalizing part with
  | nil =>
    obtain rfl : part = [] := by simpa [splitOn_nil] using h
    exact not_mem_nil
  | cons d rest ih =>
    obtain ⟨first,parts,hsplit⟩ := exists_cons_of_ne_nil (splitOn_ne_nil separator rest)
    rw [hsplit] at ih
    rw [splitOn_cons_eq_if_modifyHead,hsplit] at h
    by_cases hd : d = separator
    · simp only [hd,beq_self_eq_true,if_true,mem_cons] at h
      rcases h with rfl | h
      · exact not_mem_nil
      · exact ih (mem_cons.mpr h)
    · simp only [beq_iff_eq,hd,if_false,modifyHead_cons,mem_cons] at h
      rcases h with rfl | h
      · simpa [Ne.symm hd] using ih mem_cons_self
      · exact ih (mem_cons_of_mem _ h)

variable {after before : List α}

theorem infix_append_cons {xs : List α} (h : separator ∉ xs) :
    xs <:+: before ++ separator :: after ↔ xs <:+: before ∨ xs <:+: after := by
  constructor
  · rintro ⟨front,back,he⟩
    rw [append_eq_append_iff] at he
    rcases he with ⟨more,rfl,-⟩ | ⟨more,hfront,hafter⟩
    · exact Or.inl ⟨front,more,rfl⟩
    · cases more with
      | nil =>
        rw [append_nil] at hfront
        exact Or.inl ⟨front,[],by simpa using hfront⟩
      | cons c more =>
        rw [cons_append,List.cons.injEq] at hafter
        obtain ⟨rfl,rfl⟩ := hafter
        rw [append_eq_append_iff] at hfront
        rcases hfront with ⟨rest,-,rfl⟩ | ⟨rest,-,hrest⟩
        · simp at h
        · cases rest with
          | nil =>
            rw [nil_append] at hrest
            simp [← hrest] at h
          | cons d rest =>
            rw [cons_append,List.cons.injEq] at hrest
            exact Or.inr ⟨rest,back,by rw [hrest.2]⟩
  · rintro (⟨front,back,rfl⟩ | ⟨front,back,rfl⟩)
    · exact ⟨front,back ++ separator :: after,by simp⟩
    · exact ⟨before ++ separator :: front,back,by simp⟩

def rsplitOnce {α : Type} (p : α → Bool) : List α → Option (List α × List α)
  | [] => none
  | c :: rest =>
    match rsplitOnce p rest with
    | some (before,after) => some (c :: before,after)
    | none => if p c then some ([],rest) else none

variable {p : α → Bool}

theorem rsplitOnce_eq_none : rsplitOnce p text = none ↔ ∀ c ∈ text, p c = false := by
  induction text with
  | nil => simp [rsplitOnce]
  | cons c rest ih =>
    rw [rsplitOnce,forall_mem_cons,← ih]
    cases h : rsplitOnce p rest with
    | some cut => simp
    | none => cases hc : p c <;> simp

theorem rsplitOnce_append (hc : p c = true) (before : List α) (hafter : ∀ d ∈ after, p d = false) :
    rsplitOnce p (before ++ c :: after) = some (before,after) := by
  induction before with
  | nil => simp [rsplitOnce,rsplitOnce_eq_none.mpr hafter,hc]
  | cons d before ih => rw [cons_append,rsplitOnce,ih]

theorem rsplitOnce_eq_some :
    rsplitOnce p text = some (before,after) ↔
      ∃ c, p c = true ∧ text = before ++ c :: after ∧ ∀ d ∈ after, p d = false := by
  constructor
  · intro h
    induction text generalizing before with
    | nil => simp [rsplitOnce] at h
    | cons c rest ih =>
      rw [rsplitOnce] at h
      cases hr : rsplitOnce p rest with
      | some cut =>
        rw [hr] at h
        obtain ⟨b,a⟩ := cut
        simp only [Option.some.injEq,Prod.mk.injEq] at h
        obtain ⟨d,hd,hrest,hafter⟩ := ih (hr.trans (by rw [h.2]))
        exact ⟨d,hd,by simp [← h.1,hrest],hafter⟩
      | none =>
        simp only [hr] at h
        split_ifs at h with hc
        simp only [Option.some.injEq,Prod.mk.injEq] at h
        exact ⟨c,hc,by simp [← h.1,h.2],by rw [← h.2]; exact rsplitOnce_eq_none.mp hr⟩
  · rintro ⟨c,hc,rfl,hafter⟩
    exact rsplitOnce_append hc before hafter

def words {α : Type} (p : α → Bool) (text : List α) : List (List α) :=
  (text.splitOnP p).filter (fun word => !word.isEmpty)

def isWhitespace (c : Char) : Bool :=
  let n := c.toNat
  (9 ≤ n && n ≤ 13) || n == 32 || n == 0x85 || n == 0xA0 || n == 0x1680 ||
    (0x2000 ≤ n && n ≤ 0x200A) || n == 0x2028 || n == 0x2029 || n == 0x202F || n == 0x205F ||
    n == 0x3000

def trim (text : List Char) : List Char :=
  ((text.dropWhile isWhitespace).reverse.dropWhile isWhitespace).reverse

theorem mem_of_mem_trim {c : Char} {text : List Char} (h : c ∈ trim text) : c ∈ text := by
  rw [trim,mem_reverse] at h
  have h := (dropWhile_sublist isWhitespace).mem h
  exact (dropWhile_sublist isWhitespace).mem (mem_reverse.mp h)

theorem mem_dropWhile (h : c ∈ text) (hc : p c = false) : c ∈ text.dropWhile p := by
  rw [← takeWhile_append_dropWhile (p := p) (l := text),mem_append] at h
  rcases h with h | h
  · simp [all_eq_true.mp all_takeWhile c h] at hc
  · exact h

theorem mem_trim {c : Char} {text : List Char} (h : c ∈ text) (hc : isWhitespace c = false) :
    c ∈ trim text := by
  rw [trim,mem_reverse]
  exact mem_dropWhile (mem_reverse.mpr (mem_dropWhile h hc)) hc

def byteLen : List Char → Nat
  | [] => 0
  | c :: text => c.utf8Size + byteLen text

def splitAround {α : Type} [BEq α] (pattern : List α) : List α → Option (List α × List α)
  | [] => if pattern.isEmpty then some ([],[]) else none
  | c :: rest =>
    if pattern.isPrefixOf (c :: rest) then some ([],(c :: rest).drop pattern.length)
    else (splitAround pattern rest).map (fun p => (c :: p.1,p.2))

def stripSuffix (last : Char) (text : List Char) : List Char :=
  if text.getLast? = some last then text.dropLast else text

def lines (text : List Char) : List (List Char) :=
  let pieces := text.splitOn '\n'
  pieces.dropLast.map (stripSuffix '\r') ++ pieces.getLast?.toList.filter (fun line => !line.isEmpty)

def splitWhitespace (text : String) : List (List Char) := words isWhitespace text.toList

end ProjectOS.Lib
