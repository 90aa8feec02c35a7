import Mathlib.Data.List.Basic
import Mathlib.Data.Nat.Basic

/-! A stretch of numbers cut into pieces of one length, the last one shorter. -/

namespace ProjectOS.Lib
open List

def pieces (m : Nat) : Nat → Nat → Nat → List (Nat × Nat)
  | 0, _, _ => []
  | rounds+1, start, remaining =>
    if remaining = 0 then []
    else
      (start,start+min remaining m) ::
        pieces m rounds (start+min remaining m) (remaining-min remaining m)

section
variable {m rounds start remaining : Nat}

theorem mem_pieces {x y : Nat} (hm : 0 < m) (h : remaining ≤ rounds) :
    (x,y) ∈ pieces m rounds start remaining ↔
      ∃ k, x = start+k*m ∧ x < start+remaining ∧ y = min (x+m) (start+remaining) := by
  induction rounds generalizing start remaining with
  | zero =>
    obtain rfl := Nat.le_zero.mp h
    simp only [pieces,not_mem_nil,false_iff]
    rintro ⟨k,rfl,hlt,-⟩
    omega
  | succ rounds ih =>
    rw [pieces]
    split_ifs with hzero
    · simp only [not_mem_nil,false_iff]
      rintro ⟨k,rfl,hlt,-⟩
      omega
    · have hrest : remaining-min remaining m ≤ rounds := by omega
      have hstop : start+min remaining m+(remaining-min remaining m) = start+remaining := by omega
      rw [mem_cons,ih hrest,hstop,Prod.mk.injEq]
      constructor
      · rintro (⟨rfl,rfl⟩ | ⟨k,rfl,hlt,rfl⟩)
        · exact ⟨0,by omega,by omega,by omega⟩
        · have hfull : min remaining m = m := by omega
          refine ⟨k+1,?_,hlt,rfl⟩
          rw [hfull,Nat.succ_mul]
          omega
      · rintro ⟨k,rfl,hlt,rfl⟩
        cases k with
        | zero => exact Or.inl ⟨by omega,by omega⟩
        | succ k =>
          right
          rw [Nat.succ_mul] at hlt ⊢
          have hfull : min remaining m = m := by omega
          exact ⟨k,by rw [hfull]; omega,hlt,rfl⟩

theorem pieces_eq (hm : 0 < m) (h : remaining ≤ rounds) :
    pieces m rounds start remaining = (List.range ((remaining+(m-1))/m)).map fun k =>
      (start+k*m,start+min remaining (k*m+m)) := by
  induction rounds generalizing start remaining with
  | zero =>
    obtain rfl := Nat.le_zero.mp h
    rw [pieces,Nat.zero_add,Nat.div_eq_of_lt (by omega)]
    rfl
  | succ rounds ih =>
    rw [pieces]
    split_ifs with hzero
    · subst hzero
      rw [Nat.zero_add,Nat.div_eq_of_lt (by omega)]
      rfl
    · have hcount : (remaining+(m-1))/m = (remaining-min remaining m+(m-1))/m+1 := by
        rcases Nat.le_total remaining m with hlast | hmore
        · have hone : (remaining-1)/m = 0 := Nat.div_eq_of_lt (by omega)
          have hnone : (m-1)/m = 0 := Nat.div_eq_of_lt (by omega)
          rw [min_eq_left hlast,Nat.sub_self,Nat.zero_add,hnone,
            show remaining+(m-1) = remaining-1+m by omega,Nat.add_div_right _ hm,hone]
        · rw [min_eq_right hmore,show remaining+(m-1) = remaining-m+(m-1)+m by omega,
            Nat.add_div_right _ hm]
      rw [hcount,range_succ_eq_map,map_cons,map_map,ih (by omega)]
      congr 1
      · simp
      · refine map_congr_left fun k hk => ?_
        have hfull : min remaining m = m := by
          by_contra hshort
          rw [show remaining-min remaining m = 0 by omega,Nat.zero_add,
            Nat.div_eq_of_lt (by omega)] at hk
          simp at hk
        simp only [Function.comp_apply,hfull,Nat.succ_mul,Nat.succ_eq_add_one,Prod.mk.injEq]
        omega

variable {p : Nat × Nat}

theorem le_pieces (h : p ∈ pieces m rounds start remaining) :
    start ≤ p.1 ∧ p.1 ≤ p.2 ∧ p.2 ≤ start+remaining := by
  induction rounds generalizing start remaining with
  | zero => simp [pieces] at h
  | succ rounds ih =>
    rw [pieces] at h
    split_ifs at h
    · simp at h
    · rcases mem_cons.mp h with rfl | h
      · exact ⟨Nat.le_refl _,Nat.le_add_right _ _,by dsimp only; omega⟩
      · have hp := ih h
        omega

theorem pieces_ordered :
    (pieces m rounds start remaining).Pairwise fun p q => p.2 ≤ q.1 := by
  induction rounds generalizing start remaining with
  | zero => exact List.Pairwise.nil
  | succ rounds ih =>
    rw [pieces]
    split_ifs
    · exact List.Pairwise.nil
    · exact List.Pairwise.cons (fun q hq => (le_pieces hq).1) ih

theorem pieces_length (hm : 0 < m) (h : p ∈ pieces m rounds start remaining) :
    p.1 < p.2 ∧ p.2-p.1 ≤ m := by
  induction rounds generalizing start remaining with
  | zero => simp [pieces] at h
  | succ rounds ih =>
    rw [pieces] at h
    split_ifs at h
    · simp at h
    · rcases mem_cons.mp h with rfl | h
      · dsimp only
        omega
      · exact ih h

theorem pieces_zero (h : p ∈ pieces 0 rounds start remaining) : p.1 = p.2 := by
  induction rounds generalizing start remaining with
  | zero => simp [pieces] at h
  | succ rounds ih =>
    rw [pieces] at h
    split_ifs at h
    · simp at h
    · rcases mem_cons.mp h with rfl | h
      · simp
      · exact ih h

theorem pieces_cover {n : Nat} (hm : 0 < m) (h : remaining ≤ rounds) (hlow : start ≤ n)
    (hhigh : n < start+remaining) :
    ∃ p ∈ pieces m rounds start remaining, p.1 ≤ n ∧ n < p.2 := by
  have hdiv := Nat.div_add_mod (n-start) m
  have hmod := Nat.mod_lt (n-start) hm
  rw [Nat.mul_comm] at hdiv
  refine ⟨(start+(n-start)/m*m,_),(mem_pieces hm h).mpr ⟨(n-start)/m,rfl,?_,rfl⟩,?_,?_⟩
  · omega
  · dsimp only
    omega
  · dsimp only
    omega

end
end ProjectOS.Lib
