import Mathlib.Data.Finset.Card
import Mathlib.Data.Nat.ModEq

/-! A counter of `m` values that starts again at zero, read modulo `p`. -/

namespace ProjectOS.Lib

def Covers (m p c : Nat) : Prop := ∀ i < p, ∃ k < p, (c+k) % m % p = i

theorem covers_of_dvd {m p : Nat} (h : p ∣ m) (c : Nat) : Covers m p c := by
  intro i hi
  have hc : c % p < p := Nat.mod_lt _ (by omega)
  by_cases hle : c % p ≤ i
  · refine ⟨i - c % p,by omega,?_⟩
    rw [Nat.mod_mod_of_dvd _ h,Nat.add_mod,Nat.mod_eq_of_lt (a := i - c % p) (by omega),
      Nat.add_sub_cancel' hle,Nat.mod_eq_of_lt hi]
  · refine ⟨i + p - c % p,by omega,?_⟩
    have hsum : c % p + (i + p - c % p) = i + p := by omega
    rw [Nat.mod_mod_of_dvd _ h,Nat.add_mod,Nat.mod_eq_of_lt (a := i + p - c % p) (by omega),hsum,
      Nat.add_mod_right,Nat.mod_eq_of_lt hi]

theorem covers_of_le {m p c : Nat} (h : c % m + p ≤ m) : Covers m p c := by
  intro i hi
  obtain ⟨k,hk,hki⟩ := covers_of_dvd (Dvd.intro 1 (Nat.mul_one p)) (c % m) i hi
  refine ⟨k,hk,?_⟩
  have hlt : c % m + k < m := by omega
  rw [Nat.add_mod c k m,Nat.mod_eq_of_lt (a := k) (by omega),Nat.mod_eq_of_lt hlt]
  rwa [Nat.mod_mod] at hki

theorem wrap_collides {m p c : Nat} (hm : 0 < m) (hwrap : m < c % m + p) (h : ¬p ∣ m) :
    ∃ a < p, ∃ b < p, a ≠ b ∧ (c+a) % m % p = (c+b) % m % p := by
  have hc : c % m < m := Nat.mod_lt _ hm
  have hadd : ∀ k, (c+k) % m = (c % m + k) % m := fun k => (Nat.mod_add_mod c m k).symm
  have hr : 0 < m % p := Nat.pos_of_ne_zero (fun h0 => h (Nat.dvd_of_mod_eq_zero h0))
  have hp : 0 < p := by
    rcases Nat.eq_zero_or_pos p with rfl | hp
    · omega
    · exact hp
  have hrp : m % p < p := Nat.mod_lt _ hp
  have hdiv := Nat.div_add_mod m p
  by_cases hbig : m < p
  · -- more values than the counter has
    refine ⟨0,hp,m,hbig,by omega,?_⟩
    rw [Nat.add_zero,Nat.add_mod_right]
  · -- `t` is met after the counter has started again, `t` plus a multiple of `p` before
    let t := min (m % p - 1) (c % m + p - m - 1)
    let x := m - 1 - (m % p - 1 - t)
    have ht : t ≤ m % p - 1 ∧ t ≤ c % m + p - m - 1 := ⟨min_le_left _ _,min_le_right _ _⟩
    have htmin : t = m % p - 1 ∨ t = c % m + p - m - 1 := min_choice _ _
    have hx : x = p * (m/p) + t := by omega
    have hcx : c % m ≤ x := by omega
    refine ⟨x - c % m,by omega,m - c % m + t,by omega,by omega,?_⟩
    have ha : c % m + (x - c % m) = x := by omega
    have hb : c % m + (m - c % m + t) = m + t := by omega
    rw [hadd,hadd,ha,hb,Nat.mod_eq_of_lt (a := x) (by omega),Nat.add_mod_left,
      Nat.mod_eq_of_lt (a := t) (by omega),hx,Nat.mul_add_mod]

theorem covers_iff {m p c : Nat} (hm : 0 < m) : Covers m p c ↔ p ∣ m ∨ c % m + p ≤ m := by
  constructor
  · intro h
    by_contra hno
    obtain ⟨hdvd,hle⟩ := not_or.mp hno
    obtain ⟨a,ha,b,hb,hne,hab⟩ := wrap_collides hm (not_le.mp hle) hdvd
    have hp : 0 < p := by omega
    have hsurj : Set.SurjOn (fun k => (c+k) % m % p) (Finset.range p) (Finset.range p) := by
      intro i hi
      obtain ⟨k,hk,hki⟩ := h i (by simpa using hi)
      exact ⟨k,by simpa using hk,hki⟩
    have hmaps : Set.MapsTo (fun k => (c+k) % m % p) (Finset.range p) (Finset.range p) :=
      fun k _ => by simpa using Nat.mod_lt _ hp
    have hinj := Finset.injOn_of_surjOn_of_card_le _ hmaps hsurj le_rfl
    exact hne (hinj (by simpa using ha) (by simpa using hb) hab)
  · rintro (h | h)
    · exact covers_of_dvd h c
    · exact covers_of_le h

end ProjectOS.Lib
