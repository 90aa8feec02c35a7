import Mathlib.Data.Set.Card
import Mathlib.Data.Int.Interval

/-! A search that moves on from place to place until it meets a hit, leaping over
places where there is nothing to see, and how many moves that takes. -/

namespace ProjectOS.Lib

section
variable {γ τ : Type} (pos : γ → Int) (hit : γ → Option τ) (move : γ → Option γ) (stop : γ → Prop)

def leap : Nat → γ → Option τ
  | 0, _ => none
  | rounds+1, c =>
    match hit c with
    | some t => some t
    | none => (move c).bind (leap rounds)

/-- A search that never leaps over a hit. -/
structure Leaping : Prop where
  injective : Function.Injective pos
  lands : ∀ c d, hit c = none → move c = some d → pos c < pos d ∧ stop d
  leaps : ∀ c d x, hit c = none → move c = some d → pos c < pos x → pos x < pos d →
    hit x = none ∧ ¬stop x
  ends : ∀ c x, hit c = none → move c = none → pos c < pos x → hit x = none

/-- The first hit at or behind a position. -/
structure FirstHit (c d : γ) (t : τ) : Prop where
  behind : pos c ≤ pos d
  found : hit d = some t
  first : ∀ x, pos c ≤ pos x → pos x < pos d → hit x = none

def stopsBetween (c d : γ) : Set γ := {x | stop x ∧ pos c < pos x ∧ pos x ≤ pos d}

variable {pos hit move stop}

theorem FirstHit.unique (hinj : Function.Injective pos) {c d e : γ} {t u : τ}
    (hd : FirstHit pos hit c d t) (he : FirstHit pos hit c e u) : d = e ∧ t = u := by
  have hde : pos d = pos e := by
    rcases lt_trichotomy (pos d) (pos e) with h | h | h
    · have hnone := he.first d hd.behind h
      rw [hd.found] at hnone
      cases hnone
    · exact h
    · have hnone := hd.first e he.behind h
      rw [he.found] at hnone
      cases hnone
  obtain rfl := hinj hde
  exact ⟨rfl,Option.some.inj (hd.found.symm.trans he.found)⟩

theorem stopsBetween_finite (hinj : Function.Injective pos) (c d : γ) :
    (stopsBetween pos stop c d).Finite := by
  refine Set.Finite.subset ((Set.finite_Ioc (pos c) (pos d)).preimage hinj.injOn) ?_
  intro x hx
  exact ⟨hx.2.1,hx.2.2⟩

theorem stopsBetween_self (c : γ) : stopsBetween pos stop c c = ∅ := by
  ext x
  simp only [stopsBetween,Set.mem_ofPred_eq,Set.mem_empty_iff_false,iff_false]
  omega

theorem exists_firstHit {c d : γ} {t : τ} (hle : pos c ≤ pos d) (hd : hit d = some t) :
    ∃ e u, FirstHit pos hit c e u := by
  induction hn : (pos d - pos c).toNat using Nat.strong_induction_on generalizing d t with
  | _ n ih =>
    by_cases hfirst : ∀ x, pos c ≤ pos x → pos x < pos d → hit x = none
    · exact ⟨d,t,hle,hd,hfirst⟩
    · push Not at hfirst
      obtain ⟨x,hcx,hxd,hx⟩ := hfirst
      obtain ⟨u,hu⟩ := Option.ne_none_iff_exists'.mp hx
      exact ih (pos x - pos c).toNat (by omega) hcx hu rfl

namespace Leaping

theorem ncard_move (h : Leaping pos hit move stop) {c d e : γ} (hc : hit c = none)
    (hmove : move c = some e) (hle : pos e ≤ pos d) :
    (stopsBetween pos stop c d).ncard = (stopsBetween pos stop e d).ncard+1 := by
  obtain ⟨hlt,hstop⟩ := h.lands c e hc hmove
  have hinsert : stopsBetween pos stop c d = insert e (stopsBetween pos stop e d) := by
    ext x
    simp only [stopsBetween,Set.mem_ofPred_eq,Set.mem_insert_iff]
    constructor
    · rintro ⟨hx,hcx,hxd⟩
      rcases lt_trichotomy (pos x) (pos e) with hxe | hxe | hxe
      · exact absurd hx (h.leaps c e x hc hmove hcx hxe).2
      · exact Or.inl (h.injective hxe)
      · exact Or.inr ⟨hx,hxe,hxd⟩
    · rintro (rfl | ⟨hx,hex,hxd⟩)
      · exact ⟨hstop,hlt,hle⟩
      · exact ⟨hx,by omega,hxd⟩
  have hnot : e ∉ stopsBetween pos stop e d := by simp [stopsBetween]
  rw [hinsert,Set.ncard_insert_of_notMem hnot (stopsBetween_finite h.injective e d)]

theorem leap_eq_some_iff (h : Leaping pos hit move stop) {rounds : Nat} {c : γ} {t : τ} :
    leap hit move rounds c = some t ↔
      ∃ d, FirstHit pos hit c d t ∧ (stopsBetween pos stop c d).ncard < rounds := by
  induction rounds generalizing c with
  | zero => simp [leap]
  | succ rounds ih =>
    rw [leap]
    cases hc : hit c with
    | some u =>
      have hself : FirstHit pos hit c c u := ⟨le_refl _,hc,fun x _ _ => by omega⟩
      simp only [Option.some.injEq]
      constructor
      · rintro rfl
        exact ⟨c,hself,by simp [stopsBetween_self]⟩
      · rintro ⟨d,hd,-⟩
        exact (hself.unique h.injective hd).2
    | none =>
      -- nothing is hit here, so the first hit lies behind the next stop
      cases hmove : move c with
      | none =>
        simp only [Option.bind_none,reduceCtorEq,false_iff]
        rintro ⟨d,hd,-⟩
        rcases eq_or_lt_of_le hd.behind with heq | hlt
        · have hhit := hd.found
          rw [← h.injective heq,hc] at hhit
          cases hhit
        · have hnone := h.ends c d hc hmove hlt
          rw [hd.found] at hnone
          cases hnone
      | some e =>
        obtain ⟨hlt,-⟩ := h.lands c e hc hmove
        rw [Option.bind_some,ih]
        constructor
        · rintro ⟨d,hd,hcard⟩
          have hed := hd.behind
          refine ⟨d,⟨by omega,hd.found,?_⟩,?_⟩
          · intro x hcx hxd
            rcases lt_trichotomy (pos c) (pos x) with hx | hx | hx
            · by_cases hxe : pos x < pos e
              · exact (h.leaps c e x hc hmove hx hxe).1
              · exact hd.first x (by omega) hxd
            · rwa [← h.injective hx]
            · omega
          · rw [h.ncard_move hc hmove hd.behind]
            omega
        · rintro ⟨d,hd,hcard⟩
          have hed : pos e ≤ pos d := by
            by_contra hde
            rcases eq_or_lt_of_le hd.behind with heq | hcd
            · have hhit := hd.found
              rw [← h.injective heq,hc] at hhit
              cases hhit
            · have hnone := (h.leaps c e d hc hmove hcd (by omega)).1
              rw [hd.found] at hnone
              cases hnone
          rw [h.ncard_move hc hmove hed] at hcard
          exact ⟨d,⟨hed,hd.found,fun x hx hxd => hd.first x (by omega) hxd⟩,by omega⟩

end Leaping

end

end ProjectOS.Lib
