import Mathlib.Data.List.SplitLengths

/-! Batches filled in order: one is closed when what comes next does not fit. -/

namespace ProjectOS.Lib
open List

section
variable {α β : Type}

def greedy (fits : List α → Bool) : List α → List α → List (List α)
  | current, [] => if current.isEmpty then [] else [current]
  | current, a :: rest =>
    if !current.isEmpty && !fits (current ++ [a]) then current :: greedy fits [a] rest
    else greedy fits (current ++ [a]) rest

variable (fits : List α → Bool)

@[simp] theorem greedy_nil : greedy fits [] [] = [] := rfl

variable {current : List α}

theorem greedy_end (h : current ≠ []) : greedy fits current [] = [current] := by
  rw [greedy,if_neg (by simpa using h)]

variable {fits} {current : List α} {a : α}

theorem greedy_close (h : current ≠ []) (hfits : fits (current ++ [a]) = false) (rest : List α) :
    greedy fits current (a :: rest) = current :: greedy fits [a] rest := by
  rw [greedy,if_pos (by simp [h,hfits])]

theorem greedy_join (h : current = [] ∨ fits (current ++ [a]) = true) (rest : List α) :
    greedy fits current (a :: rest) = greedy fits (current ++ [a]) rest := by
  rw [greedy,if_neg (by rcases h with h | h <;> simp [h])]

theorem close_or_join (fits : List α → Bool) (current : List α) (a : α) :
    (current ≠ [] ∧ fits (current ++ [a]) = false) ∨ (current = [] ∨ fits (current ++ [a]) = true) := by
  by_cases h : current = []
  · exact Or.inr (Or.inl h)
  · cases hfits : fits (current ++ [a]) with
    | false => exact Or.inl ⟨h,rfl⟩
    | true => exact Or.inr (Or.inr rfl)

variable (fits)

theorem greedy_flatten (current xs : List α) : (greedy fits current xs).flatten = current ++ xs := by
  induction xs generalizing current with
  | nil =>
    by_cases h : current = []
    · simp [h]
    · simp [greedy_end fits h]
  | cons a rest ih =>
    rcases close_or_join fits current a with ⟨hne,hfits⟩ | hjoin
    · rw [greedy_close hne hfits,flatten_cons,ih,singleton_append]
    · rw [greedy_join hjoin,ih,append_assoc,singleton_append]

theorem ne_nil_of_mem_greedy {xs b : List α} (h : b ∈ greedy fits current xs) : b ≠ [] := by
  induction xs generalizing current with
  | nil =>
    by_cases hne : current = []
    · simp [hne] at h
    · rw [greedy_end fits hne,mem_singleton] at h
      exact h ▸ hne
  | cons a rest ih =>
    rcases close_or_join fits current a with ⟨hne,hfits⟩ | hjoin
    · rw [greedy_close hne hfits] at h
      rcases mem_cons.mp h with rfl | h
      · exact hne
      · exact ih h
    · rw [greedy_join hjoin] at h
      exact ih h

theorem fits_of_mem_greedy (hone : ∀ a, fits [a] = true) {xs b : List α}
    (hcurrent : current = [] ∨ fits current = true) (h : b ∈ greedy fits current xs) :
    fits b = true := by
  induction xs generalizing current with
  | nil =>
    by_cases hne : current = []
    · simp [hne] at h
    · rw [greedy_end fits hne,mem_singleton] at h
      exact h ▸ hcurrent.resolve_left hne
  | cons a rest ih =>
    rcases close_or_join fits current a with ⟨hne,hfits⟩ | hjoin
    · rw [greedy_close hne hfits] at h
      rcases mem_cons.mp h with rfl | h
      · exact hcurrent.resolve_left hne
      · exact ih (Or.inr (hone a)) h
    · rw [greedy_join hjoin] at h
      refine ih (Or.inr ?_) h
      rcases hjoin with hnil | hfits
      · rw [hnil]
        exact hone a
      · exact hfits

theorem greedy_head (xs : List α) (hne : current ≠ []) :
    ∃ more batches, greedy fits current xs = (current ++ more) :: batches := by
  induction xs generalizing current with
  | nil => exact ⟨[],[],by rw [greedy_end fits hne,append_nil]⟩
  | cons a rest ih =>
    rcases close_or_join fits current a with ⟨-,hfits⟩ | hjoin
    · exact ⟨[],greedy fits [a] rest,by rw [greedy_close hne hfits,append_nil]⟩
    · obtain ⟨more,batches,h⟩ := ih (show current ++ [a] ≠ [] by simp)
      exact ⟨a :: more,batches,by rw [greedy_join hjoin,h]; simp⟩

theorem greedy_maximal {xs b next : List α} {before after : List (List α)}
    (h : greedy fits current xs = before ++ b :: next :: after) :
    ∃ a more, next = a :: more ∧ fits (b ++ [a]) = false := by
  induction xs generalizing current before with
  | nil =>
    have hlen := congrArg List.length h
    by_cases hne : current = []
    · simp [hne] at hlen
    · simp only [greedy_end fits hne,length_append,length_cons,length_nil] at hlen
      omega
  | cons a rest ih =>
    rcases close_or_join fits current a with ⟨hne,hfits⟩ | hjoin
    · rw [greedy_close hne hfits] at h
      cases before with
      | nil =>
        obtain ⟨rfl,htail⟩ := List.cons.inj h
        obtain ⟨more,batches,hhead⟩ := greedy_head fits rest (show [a] ≠ [] by simp)
        rw [hhead] at htail
        exact ⟨a,more,(List.cons.inj htail).1.symm,hfits⟩
      | cons first before => exact ih (List.cons.inj h).2
    · rw [greedy_join hjoin] at h
      exact ih h

theorem greedy_map (f : β → α) (current xs : List β) :
    (greedy (fun batch => fits (batch.map f)) current xs).map (List.map f) =
      greedy fits (current.map f) (xs.map f) := by
  induction xs generalizing current with
  | nil =>
    by_cases h : current = []
    · simp [h]
    · rw [greedy_end _ h,map_nil,greedy_end fits (by simpa using h)]
      rfl
  | cons a rest ih =>
    rcases close_or_join (fun batch => fits (batch.map f)) current a with ⟨hne,hfits⟩ | hjoin
    · rw [greedy_close hne hfits,map_cons,map_cons,ih]
      rw [map_append] at hfits
      rw [greedy_close (by simpa using hne) hfits]
      rfl
    · rw [greedy_join hjoin,ih,map_append,map_cons]
      rw [map_append] at hjoin
      rw [map_cons,map_nil,greedy_join (hjoin.imp_left (by simp +contextual))]

theorem splitLengths_length (batches : List (List α)) :
    (batches.map List.length).splitLengths batches.flatten = batches := by
  induction batches with
  | nil => rfl
  | cons b batches ih => simp [ih]

end
end ProjectOS.Lib
