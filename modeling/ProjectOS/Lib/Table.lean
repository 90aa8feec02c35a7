import Mathlib.Data.List.Pairwise
import Mathlib.Data.List.Lookmap
import Mathlib.Order.Lattice

namespace ProjectOS.Lib
open List

/-- A table with a primary key: rows in strictly increasing key order, so equal
contents are equal tables. -/
structure Table (κ ν : Type) [LinearOrder κ] where
  rows : List (κ × ν)
  sorted : rows.Pairwise (fun a b => a.1 < b.1)

namespace Table
variable {κ ν : Type} [LinearOrder κ]

def lookupRow (k : κ) : List (κ × ν) → Option ν
  | [] => none
  | (j,w) :: rest => if k = j then some w else lookupRow k rest

def putRow (k : κ) (v : ν) : List (κ × ν) → List (κ × ν)
  | [] => [(k,v)]
  | (j,w) :: rest =>
    if k < j then (k,v) :: (j,w) :: rest
    else if k = j then (k,v) :: rest
    else (j,w) :: putRow k v rest

variable {k j : κ} {v : ν}

theorem mem_putRow {a : κ × ν} {rows : List (κ × ν)}
    (h : a ∈ putRow k v rows) : a = (k,v) ∨ a ∈ rows := by
  induction rows with
  | nil => simpa [putRow] using h
  | cons b rest ih =>
    obtain ⟨j,w⟩ := b
    rw [putRow] at h
    split_ifs at h with h₁ h₂
    · simpa using h
    · rcases mem_cons.mp h with rfl | h
      · exact Or.inl rfl
      · exact Or.inr (mem_cons_of_mem _ h)
    · rcases mem_cons.mp h with rfl | h
      · exact Or.inr (by simp)
      · rcases ih h with h | h
        · exact Or.inl h
        · exact Or.inr (mem_cons_of_mem _ h)

theorem putRow_sorted (k : κ) (v : ν) {rows : List (κ × ν)}
    (h : rows.Pairwise (fun a b => a.1 < b.1)) :
    (putRow k v rows).Pairwise (fun a b => a.1 < b.1) := by
  induction rows with
  | nil => simp [putRow]
  | cons b rest ih =>
    obtain ⟨j,w⟩ := b
    have hj : ∀ a ∈ rest, j < a.1 := fun a ha => rel_of_pairwise_cons h ha
    rw [putRow]
    split_ifs with h₁ h₂
    · refine h.cons ?_
      intro a ha
      rcases mem_cons.mp ha with rfl | ha
      · exact h₁
      · exact h₁.trans (hj a ha)
    · subst h₂
      exact h.of_cons.cons hj
    · refine (ih h.of_cons).cons ?_
      intro a ha
      rcases mem_putRow ha with rfl | ha
      · exact lt_of_le_of_ne (not_lt.mp h₁) (Ne.symm h₂)
      · exact hj a ha

def empty : Table κ ν := ⟨[],List.Pairwise.nil⟩

def get? (t : Table κ ν) (k : κ) : Option ν := lookupRow k t.rows

def put (t : Table κ ν) (k : κ) (v : ν) : Table κ ν :=
  ⟨putRow k v t.rows,putRow_sorted k v t.sorted⟩

def erase (t : Table κ ν) (k : κ) : Table κ ν :=
  ⟨t.rows.filter (fun r => r.1 ≠ k),t.sorted.filter _⟩

def keep (t : Table κ ν) (p : κ → ν → Bool) : Table κ ν :=
  ⟨t.rows.filter (fun r => p r.1 r.2),t.sorted.filter _⟩

def newest (t : Table κ ν) (n : Nat) : Table κ ν :=
  ⟨t.rows.drop (t.rows.length-n),t.sorted.drop⟩

def last? (t : Table κ ν) : Option (κ × ν) := t.rows.getLast?

def ofRows (rows : List (κ × ν)) : Table κ ν :=
  rows.foldl (fun t r => t.put r.1 r.2) empty

@[simp] theorem get?_empty (k : κ) : (empty : Table κ ν).get? k = none := rfl

theorem lookupRow_putRow (k j : κ) (v : ν) (rows : List (κ × ν)) :
    lookupRow j (putRow k v rows) = if j = k then some v else lookupRow j rows := by
  induction rows with
  | nil => simp [putRow,lookupRow]
  | cons b rest ih =>
    obtain ⟨i,w⟩ := b
    rw [putRow]
    split_ifs with h₁ h₂ h₃ h₃ h₃ <;> simp_all [lookupRow]

theorem get?_put (t : Table κ ν) (k j : κ) (v : ν) :
    (t.put k v).get? j = if j = k then some v else t.get? j :=
  lookupRow_putRow k j v t.rows

@[simp] theorem get?_put_self (t : Table κ ν) (k : κ) (v : ν) :
    (t.put k v).get? k = some v := by simp [get?_put]

theorem get?_put_ne (t : Table κ ν) (v : ν) (h : j ≠ k) :
    (t.put k v).get? j = t.get? j := by simp [get?_put,h]

theorem lookupRow_eq_some {rows : List (κ × ν)} (h : rows.Pairwise (fun a b => a.1 < b.1)) :
    lookupRow k rows = some v ↔ (k,v) ∈ rows := by
  induction rows with
  | nil => simp [lookupRow]
  | cons b rest ih =>
    obtain ⟨j,w⟩ := b
    have hj : ∀ a ∈ rest, j < a.1 := fun a ha => rel_of_pairwise_cons h ha
    by_cases hk : k = j
    · subst hk
      simp only [lookupRow,if_true,Option.some.injEq,mem_cons,Prod.mk.injEq,true_and]
      constructor
      · rintro rfl; exact Or.inl rfl
      · rintro (rfl | hm)
        · rfl
        · exact absurd (hj _ hm) (lt_irrefl k)
    · simp [lookupRow,hk,ih h.of_cons]

theorem mem_rows (t : Table κ ν) : (k,v) ∈ t.rows ↔ t.get? k = some v :=
  (lookupRow_eq_some t.sorted).symm

theorem get?_erase (t : Table κ ν) (k j : κ) :
    (t.erase k).get? j = if j = k then none else t.get? j := by
  apply Option.ext
  intro v
  rw [← mem_rows]
  by_cases h : j = k
  · simp [erase,h]
  · simp [erase,h,mem_rows]

@[simp] theorem get?_erase_self (t : Table κ ν) (k : κ) : (t.erase k).get? k = none := by
  simp [get?_erase]

theorem get?_erase_ne (t : Table κ ν) (h : j ≠ k) :
    (t.erase k).get? j = t.get? j := by simp [get?_erase,h]

theorem ext_get? {s t : Table κ ν} (h : ∀ k, s.get? k = t.get? k) : s = t := by
  have hrows : s.rows = t.rows := by
    refine List.Perm.eq_of_pairwise ?_ s.sorted t.sorted ?_
    · intro a b _ _ hab hba
      exact absurd hab (not_lt.mpr hba.le)
    · refine (perm_ext_iff_of_nodup ?_ ?_).mpr ?_
      · exact s.sorted.imp (fun hab he => absurd hab (by rw [he]; exact lt_irrefl _))
      · exact t.sorted.imp (fun hab he => absurd hab (by rw [he]; exact lt_irrefl _))
      · rintro ⟨k,v⟩
        rw [mem_rows,mem_rows,h k]
  cases s
  cases t
  simpa using hrows

theorem ext_rows {s t : Table κ ν} (h : s.rows = t.rows) : s = t := by
  cases s
  cases t
  simpa using h

instance [DecidableEq ν] : DecidableEq (Table κ ν) :=
  fun _ _ => decidable_of_iff _ ⟨ext_rows,congrArg rows⟩

theorem get?_keep (t : Table κ ν) (p : κ → ν → Bool) (k : κ) :
    (t.keep p).get? k = (t.get? k).filter (p k) := by
  apply Option.ext
  intro v
  rw [← mem_rows,keep,mem_filter,mem_rows,Option.filter_eq_some_iff]

def mapRows {μ : Type} (t : Table κ ν) (f : κ → ν → μ) : Table κ μ :=
  ⟨t.rows.map fun r => (r.1,f r.1 r.2),pairwise_map.mpr t.sorted⟩

theorem get?_mapRows {μ : Type} (t : Table κ ν) (f : κ → ν → μ) (k : κ) :
    (t.mapRows f).get? k = (t.get? k).map (f k) := by
  apply Option.ext
  intro w
  rw [← mem_rows,mapRows,mem_map,Option.map_eq_some_iff]
  constructor
  · rintro ⟨⟨j,v⟩,hr,heq⟩
    obtain ⟨rfl,rfl⟩ := Prod.mk.inj heq
    exact ⟨v,t.mem_rows.mp hr,rfl⟩
  · rintro ⟨v,hv,rfl⟩
    exact ⟨(k,v),t.mem_rows.mpr hv,rfl⟩

theorem put_end (t : Table κ ν) (v : ν) (h : ∀ r ∈ t.rows, r.1 < k) :
    (t.put k v).rows = t.rows ++ [(k,v)] := by
  obtain ⟨rows,hsorted⟩ := t
  change putRow k v rows = rows ++ [(k,v)]
  change ∀ r ∈ rows, r.1 < k at h
  clear hsorted
  induction rows with
  | nil => rfl
  | cons r rest ih =>
    have hr : r.1 < k := h r (by simp)
    rw [putRow,if_neg (not_lt.mpr hr.le),if_neg hr.ne',ih (fun x hx => h x (by simp [hx]))]
    rfl

section
variable {α : Type} (f : α → κ) (g : α → ν) {xs : List α} {t : Table κ ν} {k : κ}

theorem get?_puts {v : ν} (h : (xs.foldl (fun t x => t.put (f x) (g x)) t).get? k = some v) :
    (∃ x ∈ xs, f x = k ∧ g x = v) ∨ t.get? k = some v ∧ ∀ x ∈ xs, f x ≠ k := by
  induction xs generalizing t with
  | nil => exact Or.inr ⟨h,by simp⟩
  | cons x xs ih =>
    rcases ih h with ⟨y,hy,hfy,hgy⟩ | ⟨hv,hnone⟩
    · exact Or.inl ⟨y,mem_cons_of_mem _ hy,hfy,hgy⟩
    · rw [get?_put] at hv
      split at hv
      · rename_i hk
        exact Or.inl ⟨x,by simp,hk.symm,by simpa using hv⟩
      · rename_i hk
        refine Or.inr ⟨hv,?_⟩
        intro y hy
        rcases mem_cons.mp hy with rfl | hy
        · exact Ne.symm hk
        · exact hnone y hy

theorem get?_puts_last [DecidableEq κ] (xs : List α) (t : Table κ ν) (k : κ) :
    (xs.foldl (fun t x => t.put (f x) (g x)) t).get? k =
      ((xs.reverse.find? fun x => f x = k).map g).or (t.get? k) := by
  induction xs generalizing t with
  | nil => rfl
  | cons x xs ih =>
    rw [foldl_cons,ih,reverse_cons,List.find?_append,get?_put]
    cases xs.reverse.find? fun x => f x = k with
    | some y => rfl
    | none =>
      by_cases hk : k = f x
      · simp [hk]
      · simp [hk,Ne.symm hk]

theorem puts_isSome (h : (t.get? k).isSome) :
    ((xs.foldl (fun t x => t.put (f x) (g x)) t).get? k).isSome := by
  induction xs generalizing t with
  | nil => exact h
  | cons x xs ih =>
    refine ih ?_
    rw [get?_put]
    split
    · rfl
    · exact h

theorem puts_written {x : α} (h : x ∈ xs) :
    ((xs.foldl (fun t x => t.put (f x) (g x)) t).get? (f x)).isSome := by
  induction xs generalizing t with
  | nil => simp at h
  | cons y xs ih =>
    rcases mem_cons.mp h with rfl | h
    · exact puts_isSome f g (t := t.put (f x) (g x)) (by simp)
    · exact ih h

theorem puts_other (h : ∀ x ∈ xs, f x ≠ k) :
    (xs.foldl (fun t x => t.put (f x) (g x)) t).get? k = t.get? k := by
  induction xs generalizing t with
  | nil => rfl
  | cons x xs ih =>
    rw [foldl_cons,ih (fun y hy => h y (mem_cons_of_mem _ hy)),
      get?_put_ne t (g x) (Ne.symm (h x (by simp)))]

end

def column {γ : Type} (t : Table κ ν) (f : ν → γ) (k : κ) : Option γ := (t.get? k).map f

theorem column_put [DecidableEq κ] {γ : Type} (t : Table κ ν) (f : ν → γ) (k : κ) (v : ν) :
    (t.put k v).column f = Function.update (t.column f) k (some (f v)) := by
  funext j
  by_cases hj : j = k
  · subst hj
    simp [column]
  · rw [Function.update_of_ne hj,column,get?_put_ne t v hj,column]

theorem column_put_same {γ : Type} (t : Table κ ν) {f : ν → γ} {w : ν}
    (hk : t.get? k = some v) (hf : f w = f v) : (t.put k w).column f = t.column f := by
  have hc : t.column f k = some (f v) := by rw [column,hk]; rfl
  rw [column_put,hf,← hc,Function.update_eq_self]

end Table
end ProjectOS.Lib
