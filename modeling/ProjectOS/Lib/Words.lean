import Mathlib.Data.List.Induction
import ProjectOS.Lib.Text

/-! The words of a text, and the text written with one separator between them. -/

namespace ProjectOS.Lib
open List

section
variable {α : Type} {p : α → Bool}

@[simp] theorem words_nil : words p ([] : List α) = [] := by simp [words]

theorem words_append_cons {sep : α} (hsep : p sep = true) (before after : List α) :
    words p (before ++ sep :: after) = words p before ++ words p after := by
  rw [words,splitOnP_append_cons before after hsep,filter_append,words,words]

theorem separated_induction {P : List α → Prop} (hfree : ∀ text, (∀ c ∈ text, p c = false) → P text)
    (hsep : ∀ before sep after, (∀ c ∈ before, p c = false) → p sep = true → P after →
      P (before ++ sep :: after)) (text : List α) : P text := by
  have hfrom : ∀ before : List α, (∀ c ∈ before, p c = false) → P (before ++ text) := by
    induction text with
    | nil =>
      intro before hbefore
      rw [append_nil]
      exact hfree before hbefore
    | cons c text ih =>
      intro before hbefore
      cases hc : p c with
      | true => exact hsep before c text hbefore hc (ih [] (by simp))
      | false =>
        have hgrown : ∀ d ∈ before ++ [c], p d = false := by
          intro d hd
          rcases mem_append.mp hd with hd | hd
          · exact hbefore d hd
          · rw [mem_singleton.mp hd,hc]
        have hrest := ih (before ++ [c]) hgrown
        rwa [append_assoc,singleton_append] at hrest
  exact hfrom [] (by simp)

theorem words_concat_sep {sep : α} (hsep : p sep = true) (text : List α) :
    words p (text ++ [sep]) = words p text := by
  rw [words_append_cons hsep,words_nil,append_nil]

variable {word : List α}

theorem words_word (hword : ∀ c ∈ word, p c = false) (hne : word ≠ []) :
    words p word = [word] := by
  rw [words,splitOnP_eq_singleton hword]
  simp [hne]

theorem splitOnP_concat_sep {sep : α} (hsep : p sep = true) (text : List α) :
    (text ++ [sep]).splitOnP p = text.splitOnP p ++ [[]] := by
  rw [splitOnP_append_cons text [] hsep,splitOnP_nil]

variable {text : List α} {front : List (List α)}

theorem splitOnP_concat {c : α} (hc : p c = false) {last : List α}
    (h : text.splitOnP p = front ++ [last]) :
    (text ++ [c]).splitOnP p = front ++ [last ++ [c]] := by
  have hgrown : ∀ {letters : List α}, (∀ a ∈ letters, p a = false) →
      ∀ a ∈ letters ++ [c], p a = false := by
    intro letters hletters a ha
    rcases mem_append.mp ha with ha | ha
    · exact hletters a ha
    · rw [mem_singleton.mp ha,hc]
  cases hcut : rsplitOnce p text with
  | none =>
    have hletters := rsplitOnce_eq_none.mp hcut
    rw [splitOnP_eq_singleton hletters] at h
    rw [← nil_append [text]] at h
    obtain ⟨rfl,hlast⟩ := append_inj' h rfl
    rw [splitOnP_eq_singleton (hgrown hletters)]
    simpa using hlast
  | some cut =>
    obtain ⟨before,after⟩ := cut
    obtain ⟨sep,hsep,rfl,hletters⟩ := rsplitOnce_eq_some.mp hcut
    rw [splitOnP_append_cons before after hsep,splitOnP_eq_singleton hletters] at h
    obtain ⟨rfl,hlast⟩ := append_inj' h rfl
    rw [append_assoc,cons_append,splitOnP_append_cons before _ hsep,
      splitOnP_eq_singleton (hgrown hletters)]
    simpa using hlast

theorem of_mem_splitOnP (h : word ∈ text.splitOnP p) : ∀ c ∈ word, p c = false := by
  induction text generalizing word with
  | nil =>
    obtain rfl : word = [] := by simpa using h
    simp
  | cons d rest ih =>
    obtain ⟨first,more,hsplit⟩ := exists_cons_of_ne_nil (splitOnP_ne_nil p rest)
    rw [hsplit] at ih
    rw [splitOnP_cons_eq_if_modifyHead,hsplit] at h
    split_ifs at h with hd
    · rcases mem_cons.mp h with rfl | h
      · simp
      · exact ih h
    · rw [modifyHead_cons] at h
      rcases mem_cons.mp h with rfl | h
      · simpa [hd] using ih mem_cons_self
      · exact ih (mem_cons_of_mem first h)

theorem mem_words (h : word ∈ words p text) :
    word ≠ [] ∧ ∀ c ∈ word, p c = false := by
  obtain ⟨hsplit,hne⟩ := mem_filter.mp h
  exact ⟨by simpa using hne,of_mem_splitOnP hsplit⟩

theorem words_concat_fresh {c : α} (hc : p c = false) (h : text.getLast?.all p = true) :
    words p (text ++ [c]) = words p text ++ [[c]] := by
  have hword : words p [c] = [[c]] := words_word (by simp [hc]) (by simp)
  induction text using List.reverseRecOn with
  | nil => simpa using hword
  | append_singleton text sep =>
    have hsep : p sep = true := by simpa using h
    rw [append_assoc,singleton_append,words_append_cons hsep,words_concat_sep hsep,hword]

theorem words_concat_letter {c d : α} (hc : p c = false) (hd : p d = false)
    (h : text.getLast? = some d) :
    ∃ front word, words p text = front ++ [word] ∧ words p (text ++ [c]) = front ++ [word ++ [c]] := by
  obtain ⟨text,rfl⟩ := List.getLast?_eq_some_iff.mp h
  obtain ⟨front,last,hsplit⟩ := eq_nil_or_concat' (text.splitOnP p) |>.resolve_left
    (splitOnP_ne_nil p text)
  have hword := splitOnP_concat hd hsplit
  have hgrown := splitOnP_concat hc hword
  refine ⟨front.filter (fun word => !word.isEmpty),last ++ [d],?_,?_⟩
  · rw [words,hword,filter_append]
    simp
  · rw [words,hgrown,filter_append]
    simp

theorem intercalate_concat (sep word : List α) (h : front ≠ []) :
    sep.intercalate (front ++ [word]) = sep.intercalate front ++ sep ++ word := by
  induction front with
  | nil => exact absurd rfl h
  | cons first front ih =>
    by_cases hfront : front = []
    · subst hfront
      simp
    · rw [cons_append,intercalate_cons_of_ne_nil (by simp),ih hfront,
        intercalate_cons_of_ne_nil hfront]
      simp

theorem intercalate_concat_append (sep word more : List α) (front : List (List α)) :
    sep.intercalate (front ++ [word ++ more]) = sep.intercalate (front ++ [word]) ++ more := by
  by_cases hfront : front = []
  · subst hfront
    simp
  · rw [intercalate_concat sep _ hfront,intercalate_concat sep _ hfront]
    simp

def collapse (p : α → Bool) (sep : α) (text : List α) : List α := [sep].intercalate (words p text)

variable {sep : α}

theorem words_intercalate (hsep : p sep = true) {parts : List (List α)}
    (hparts : ∀ word ∈ parts, word ≠ [] ∧ ∀ c ∈ word, p c = false) :
    words p ([sep].intercalate parts) = parts := by
  induction parts with
  | nil => simp
  | cons word parts ih =>
    have hword := hparts word mem_cons_self
    have hrest := ih (fun other hother => hparts other (mem_cons_of_mem word hother))
    by_cases hne : parts = []
    · subst hne
      simpa using words_word hword.2 hword.1
    · rw [intercalate_cons_of_ne_nil hne,append_assoc,singleton_append,
        words_append_cons hsep,hrest,words_word hword.2 hword.1,singleton_append]

theorem words_collapse (hsep : p sep = true) (text : List α) :
    words p (collapse p sep text) = words p text :=
  words_intercalate hsep (fun _ hword => mem_words hword)

theorem collapse_inj (hsep : p sep = true) {other : List α} :
    collapse p sep text = collapse p sep other ↔ words p text = words p other := by
  constructor
  · intro h
    rw [← words_collapse hsep text,h,words_collapse hsep]
  · intro h
    rw [collapse,h,collapse]

end

end ProjectOS.Lib
