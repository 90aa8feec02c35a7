import Mathlib.Data.Int.Interval
import Mathlib.Data.Set.Card
import Mathlib.Data.Set.Finite.Lemmas

/-! A function that answers what comes next, the row it gives when it is asked
again and again, and when that row is a whole set in order. -/

namespace ProjectOS.Lib

def nthAfter (next : Int → Option Int) (cursor : Int) : Nat → Option Int
  | 0 => next cursor
  | n+1 => (nthAfter next cursor n).bind next

section
variable {next : Int → Option Int} {cursor : Int}

theorem nthAfter_before (n : Nat) {t : Int} (h : nthAfter next cursor (n+1) = some t) :
    ∃ u, nthAfter next cursor n = some u ∧ next u = some t := Option.bind_eq_some_iff.mp h

theorem nthAfter_shift {u : Int} (hc : next cursor = some u) (k : Nat) :
    nthAfter next u k = nthAfter next cursor (k+1) := by
  induction k with
  | zero => rw [nthAfter,nthAfter,nthAfter,hc,Option.bind_some]
  | succ k ih =>
    rw [nthAfter,ih]
    rfl

section
variable (hnext : ∀ a t, next a = some t → a < t)
include hnext

theorem nthAfter_lt {m n : Nat} (hmn : m < n) {t : Int}
    (h : nthAfter next cursor n = some t) : ∃ u, nthAfter next cursor m = some u ∧ u < t := by
  induction n generalizing t with
  | zero => omega
  | succ n ih =>
    obtain ⟨u,hu,ht⟩ := nthAfter_before n h
    have hlt := hnext u t ht
    rcases Nat.lt_or_ge m n with hlt' | hge
    · obtain ⟨w,hw,hwu⟩ := ih hlt' hu
      exact ⟨w,hw,by omega⟩
    · obtain rfl : m = n := by omega
      exact ⟨u,hu,hlt⟩

theorem nthAfter_lt_iff {m n : Nat} {t u : Int}
    (hm : nthAfter next cursor m = some t) (hn : nthAfter next cursor n = some u) : t < u ↔ m < n := by
  have hforward : ∀ {m n : Nat} {t u : Int}, nthAfter next cursor m = some t →
      nthAfter next cursor n = some u → m < n → t < u := by
    intro m n t u hm hn hmn
    obtain ⟨t',ht',hlt⟩ := nthAfter_lt hnext hmn hn
    rwa [Option.some.inj (hm.symm.trans ht')]
  constructor
  · intro hlt
    rcases Nat.lt_trichotomy m n with h | h | h
    · exact h
    · subst h
      rw [hm,Option.some.injEq] at hn
      omega
    · have hback := hforward hn hm h
      omega
  · exact hforward hm hn

theorem nthAfter_after {n : Nat} {t : Int} (h : nthAfter next cursor n = some t) : cursor < t := by
  induction n generalizing t with
  | zero => exact hnext cursor t h
  | succ n ih =>
    obtain ⟨u,hu,ht⟩ := nthAfter_before n h
    have hstep := hnext u t ht
    have hu' := ih hu
    omega

end

end

def window (P : Int → Prop) (cursor now : Int) : Set Int := {t | cursor < t ∧ t ≤ now ∧ P t}

theorem window_finite (P : Int → Prop) (cursor now : Int) : (window P cursor now).Finite :=
  (Set.finite_Ioc cursor now).subset (fun _ h => ⟨h.1,h.2.1⟩)

variable {P : Int → Prop} {cursor : Int}

theorem window_greatest {now t : Int} (h : t ∈ window P cursor now) :
    ∃ g, IsGreatest (window P cursor now) g := by
  obtain ⟨g,hg,hmax⟩ := Set.exists_max_image (window P cursor now) id (window_finite P cursor now) ⟨t,h⟩
  exact ⟨g,hg,hmax⟩

theorem window_up_to {now g : Int} (h : IsGreatest (window P cursor now) g) :
    window P cursor now = window P cursor g := by
  ext u
  constructor
  · exact fun hu => ⟨hu.1,h.2 hu,hu.2.2⟩
  · exact fun hu => ⟨hu.1,le_trans hu.2.1 h.1.2.1,hu.2.2⟩

/-- The times found one after another are just those after the cursor that fit. -/
def Enumerates (next : Int → Option Int) (P : Int → Prop) (cursor : Int) : Prop :=
  ∀ t, (∃ n, nthAfter next cursor n = some t) ↔ cursor < t ∧ P t

variable {next : Int → Option Int}

theorem enumerates_iff (hnext : ∀ a t, next a = some t → a < t ∧ P t) :
    Enumerates next P cursor ↔
      ∀ a m, (a = cursor ∨ cursor < a ∧ P a) → IsLeast {t | a < t ∧ P t} m → next a = some m := by
  have hlt : ∀ a t, next a = some t → a < t := fun a t h => (hnext a t h).1
  constructor
  · intro h a m ha hm
    obtain ⟨⟨ham,hPm⟩,hleast⟩ := hm
    have hcm : cursor < m := by rcases ha with rfl | ⟨hca,-⟩ <;> omega
    obtain ⟨j,hj⟩ := (h m).mpr ⟨hcm,hPm⟩
    -- the step from `a` exists, since the row goes on to `m`, and cannot pass it
    have hstep : ∃ k t, nthAfter next cursor k = some t ∧ next a = some t ∧ k ≤ j := by
      rcases ha with rfl | ⟨hca,hPa⟩
      · rcases Nat.eq_zero_or_pos j with rfl | hpos
        · exact ⟨0,m,hj,hj,le_refl _⟩
        · obtain ⟨u,hu,-⟩ := nthAfter_lt hlt hpos hj
          exact ⟨0,u,hu,hu,by omega⟩
      · obtain ⟨i,hi⟩ := (h a).mpr ⟨hca,hPa⟩
        have hij := (nthAfter_lt_iff hlt hi hj).mp ham
        have hnth : ∃ t, nthAfter next cursor (i+1) = some t := by
          rcases Nat.eq_or_lt_of_le (show i+1 ≤ j by omega) with heq | hlt'
          · exact ⟨m,by rw [heq]; exact hj⟩
          · obtain ⟨u,hu,-⟩ := nthAfter_lt hlt hlt' hj
            exact ⟨u,hu⟩
        obtain ⟨t,ht⟩ := hnth
        obtain ⟨u,hu,hut⟩ := nthAfter_before i ht
        rw [hi,Option.some.injEq] at hu
        exact ⟨i+1,t,ht,by rw [hu]; exact hut,by omega⟩
    obtain ⟨k,t,hk,ht,hkj⟩ := hstep
    have hmt : m ≤ t := hleast ⟨hlt a t ht,(hnext a t ht).2⟩
    have htm : ¬m < t := fun hlt' => by
      have hjk := (nthAfter_lt_iff hlt hj hk).mp hlt'
      omega
    rw [ht,show t = m by omega]
  · intro h t
    constructor
    · rintro ⟨n,hn⟩
      refine ⟨nthAfter_after hlt hn,?_⟩
      cases n with
      | zero => exact (hnext cursor t hn).2
      | succ n =>
        obtain ⟨u,-,hu⟩ := nthAfter_before n hn
        exact (hnext u t hu).2
    · rintro ⟨hct,hPt⟩
      induction hn : (t - cursor).toNat using Nat.strong_induction_on generalizing t with
      | _ n ih =>
        -- the greatest before `t`, if there is one, is in the row
        by_cases hfirst : ∀ u, cursor < u → u < t → ¬P u
        · refine ⟨0,h cursor t (Or.inl rfl) ⟨⟨hct,hPt⟩,?_⟩⟩
          rintro u ⟨hcu,hPu⟩
          by_contra hut
          exact hfirst u hcu (by omega) hPu
        · push Not at hfirst
          obtain ⟨u,hcu,hut,hPu⟩ := hfirst
          have hmem : u ∈ window P cursor (t-1) := ⟨hcu,by omega,hPu⟩
          obtain ⟨g,⟨hcg,hgt,hPg⟩,hgreatest⟩ := window_greatest hmem
          obtain ⟨k,hk⟩ := ih (g - cursor).toNat (by omega) g hcg hPg rfl
          refine ⟨k+1,?_⟩
          rw [nthAfter,hk]
          refine h g t (Or.inr ⟨hcg,hPg⟩) ⟨⟨by omega,hPt⟩,?_⟩
          rintro w ⟨hgw,hPw⟩
          by_contra hwt
          have hle : w ≤ g := hgreatest ⟨by omega,by omega,hPw⟩
          omega

theorem window_ncard (hnext : ∀ a t, next a = some t → a < t) (henum : Enumerates next P cursor)
    {k : Nat} {g : Int} (hg : nthAfter next cursor k = some g) :
    (window P cursor g).ncard = k+1 := by
  induction k generalizing g with
  | zero =>
    have hsingle : window P cursor g = {g} := by
      ext t
      simp only [window,Set.mem_ofPred_eq,Set.mem_singleton_iff]
      constructor
      · rintro ⟨hct,htg,hPt⟩
        obtain ⟨n,hn⟩ := (henum t).mpr ⟨hct,hPt⟩
        by_contra hne
        have hbefore := (nthAfter_lt_iff hnext hn hg).mp (by omega)
        omega
      · rintro rfl
        obtain ⟨hct,hPt⟩ := (henum t).mp ⟨0,hg⟩
        exact ⟨hct,le_refl _,hPt⟩
    rw [hsingle,Set.ncard_singleton]
  | succ k ih =>
    obtain ⟨u,hu,hug⟩ := nthAfter_before k hg
    have hlt := hnext u g hug
    have hinsert : window P cursor g = insert g (window P cursor u) := by
      ext t
      simp only [window,Set.mem_ofPred_eq,Set.mem_insert_iff]
      constructor
      · rintro ⟨hct,htg,hPt⟩
        obtain ⟨n,hn⟩ := (henum t).mpr ⟨hct,hPt⟩
        by_cases heq : t = g
        · exact Or.inl heq
        · have hnk := (nthAfter_lt_iff hnext hn hg).mp (by omega)
          have hnot : ¬u < t := fun hut => by
            have hkn := (nthAfter_lt_iff hnext hu hn).mp hut
            omega
          exact Or.inr ⟨hct,by omega,hPt⟩
      · rintro (rfl | ⟨hct,htu,hPt⟩)
        · obtain ⟨hct,hPt⟩ := (henum t).mp ⟨k+1,hg⟩
          exact ⟨hct,le_refl _,hPt⟩
        · exact ⟨hct,by omega,hPt⟩
    have hnot : g ∉ window P cursor u := fun h => by
      have hle : g ≤ u := h.2.1
      omega
    rw [hinsert,Set.ncard_insert_of_notMem hnot (window_finite P cursor u),ih hu]

theorem reaches_greatest_iff {now : Int} (hnext : ∀ a t, next a = some t → a < t)
    (henum : Enumerates next P cursor) (rounds : Nat) :
    (∀ t, IsGreatest (window P cursor now) t → ∃ k < rounds, nthAfter next cursor k = some t) ↔
      (window P cursor now).ncard ≤ rounds := by
  constructor
  · intro h
    rcases Set.eq_empty_or_nonempty (window P cursor now) with hempty | ⟨t,ht⟩
    · rw [hempty,Set.ncard_empty]
      exact Nat.zero_le _
    · obtain ⟨g,hg⟩ := window_greatest ht
      obtain ⟨k,hk,hkg⟩ := h g hg
      rw [window_up_to hg,window_ncard hnext henum hkg]
      omega
  · intro h g hg
    obtain ⟨k,hk⟩ := (henum g).mpr ⟨hg.1.1,hg.1.2.2⟩
    rw [window_up_to hg,window_ncard hnext henum hk] at h
    exact ⟨k,by omega,hk⟩

end ProjectOS.Lib
