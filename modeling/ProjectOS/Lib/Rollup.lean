import Mathlib.Algebra.BigOperators.Group.List.Basic
import Mathlib.Algebra.Ring.Nat
import ProjectOS.Lib.Table

/-! Sums by key, and tables of running figures -/

namespace ProjectOS.Lib.Rollup
open List

section
variable {α κ : Type} [DecidableEq κ] (key : α → κ) (figure : α → Nat)

def sumAt (xs : List α) (k : κ) : Nat := ((xs.filter fun x => key x = k).map figure).sum

theorem sumAt_cons (x : α) (xs : List α) :
    sumAt key figure (x :: xs) =
      fun k => (if key x = k then figure x else 0)+sumAt key figure xs k := by
  funext k
  by_cases h : key x = k <;> simp [sumAt,h]

variable {keys : List κ} {k : κ}

theorem sum_at_key (hn : keys.Nodup) (hk : k ∈ keys) (n : Nat) :
    (keys.map fun j => if k = j then n else 0).sum = n := by
  induction keys with
  | nil => cases hk
  | cons j keys ih =>
    obtain ⟨hj,hn⟩ := nodup_cons.mp hn
    rcases mem_cons.mp hk with rfl | hk
    · have hzero : (keys.map fun j => if k = j then n else 0) = keys.map fun _ => 0 :=
        map_congr_left fun j' hj' => if_neg fun he : k = j' => hj (he ▸ hj')
      simp [hzero]
    · have hne : k ≠ j := fun he => hj (he ▸ hk)
      simp [hne,ih hn hk]

variable {xs : List α}

theorem sumAt_congr {figure' : α → Nat}
    (h : ∀ x, key x = k → figure x = figure' x) : sumAt key figure xs k = sumAt key figure' xs k := by
  rw [sumAt,sumAt,map_congr_left]
  intro x hx
  exact h x (of_decide_eq_true (mem_filter.mp hx).2)

theorem sumAt_zero (h : ∀ x, key x = k → figure x = 0) :
    sumAt key figure xs k = 0 := by
  rw [sumAt_congr key figure h]
  simp [sumAt]

theorem sumAt_append (xs ys : List α) (k : κ) :
    sumAt key figure (xs ++ ys) k = sumAt key figure xs k+sumAt key figure ys k := by
  simp [sumAt]

theorem sumAt_le (xs : List α) (k : κ) : sumAt key figure xs k ≤ (xs.map figure).sum := by
  induction xs with
  | nil => exact Nat.le_refl _
  | cons x xs ih =>
    simp only [sumAt_cons,map_cons,sum_cons]
    split_ifs <;> omega

theorem sum_sumAt (hn : keys.Nodup) (hall : ∀ x ∈ xs, key x ∈ keys) :
    (keys.map (sumAt key figure xs)).sum = (xs.map figure).sum := by
  induction xs with
  | nil =>
    have hzero : sumAt key figure [] = fun _ => 0 := rfl
    simp [hzero]
  | cons x xs ih =>
    have hhead := sum_at_key hn (hall x mem_cons_self) (figure x)
    have htail := ih fun y hy => hall y (mem_cons_of_mem _ hy)
    simp only [sumAt_cons,sum_map_add,hhead,htail,map_cons,sum_cons]

theorem sumAt_each (hn : keys.Nodup) (x : α) (k : κ) :
    sumAt Prod.fst (fun entry => figure entry.2) (keys.map fun j => (j,x)) k =
      if k ∈ keys then figure x else 0 := by
  induction keys with
  | nil => rfl
  | cons j keys ih =>
    obtain ⟨hj,hn⟩ := nodup_cons.mp hn
    simp only [map_cons,sumAt_cons,ih hn]
    by_cases hk : j = k
    · subst hk
      simp [hj]
    · simp [hk,Ne.symm hk]

end

section
variable {α κ ν : Type} [LinearOrder κ] (key : α → κ) (start : κ → ν) (add : ν → α → ν)

def tally (xs : List α) (t : Table κ ν) : Table κ ν :=
  xs.foldl (fun t x => t.put (key x) (add ((t.get? (key x)).getD (start (key x))) x)) t

theorem get?_tally (xs : List α) (t : Table κ ν) (k : κ) :
    (tally key start add xs t).get? k =
      if (t.get? k).isSome ∨ k ∈ xs.map key then
        some ((xs.filter fun x => key x = k).foldl add ((t.get? k).getD (start k)))
      else none := by
  induction xs generalizing t with
  | nil => cases h : t.get? k <;> simp [tally,h]
  | cons x xs ih =>
    rw [tally,foldl_cons]
    refine (ih _).trans ?_
    rw [Table.get?_put]
    by_cases h : key x = k
    · subst h
      simp
    · simp [h,Ne.symm h]

theorem get?_tally_empty (xs : List α) (k : κ) :
    (tally key start add xs Table.empty).get? k =
      if k ∈ xs.map key then some ((xs.filter fun x => key x = k).foldl add (start k)) else none := by
  rw [get?_tally]
  simp

end

theorem foldl_sum {α β : Type} (bound : Nat) (figure : β → Nat) (weight : α → Nat) {add : β → α → β}
    (hadd : ∀ b x, figure b+weight x < bound → figure (add b x) = figure b+weight x)
    {xs : List α} {b : β} (h : figure b+(xs.map weight).sum < bound) :
    figure (xs.foldl add b) = figure b+(xs.map weight).sum := by
  induction xs generalizing b with
  | nil => rfl
  | cons x xs ih =>
    rw [map_cons,sum_cons] at h
    have hstep := hadd b x (by omega)
    rw [foldl_cons,ih (by omega),hstep,map_cons,sum_cons,Nat.add_assoc]

end ProjectOS.Lib.Rollup
