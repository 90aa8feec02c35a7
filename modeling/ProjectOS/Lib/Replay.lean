import Mathlib.Data.List.Basic

namespace ProjectOS.Lib
open List
variable {ε σ τ α : Type} {f : σ → α → Except ε σ}

theorem foldlM_simulates {g : τ → α → Except ε τ} {view : σ → τ}
    (h : ∀ s x, (f s x).map view = g (view s) x) (xs : List α) (s : σ) :
    (xs.foldlM f s).map view = xs.foldlM g (view s) := by
  induction xs generalizing s with
  | nil => rfl
  | cons x rest ih =>
    rw [foldlM_cons,foldlM_cons,← h]
    cases f s x with
    | ok t => exact ih t
    | error e => rfl

theorem foldlM_invariant {P : σ → Prop} (h : ∀ s x t, P s → f s x = .ok t → P t) {xs : List α}
    {s t : σ} (hs : P s) (hfold : xs.foldlM f s = .ok t) : P t := by
  induction xs generalizing s with
  | nil =>
    obtain rfl : s = t := Except.ok.inj hfold
    exact hs
  | cons x rest ih =>
    rw [foldlM_cons] at hfold
    cases hx : f s x with
    | error e =>
      rw [hx] at hfold
      exact absurd hfold (by simp [bind,Except.bind])
    | ok m =>
      rw [hx] at hfold
      exact ih (h s x m hs hx) hfold

theorem foldlM_append_eq (f : σ → α → Except ε σ) (xs ys : List α) (s : σ) :
    (xs ++ ys).foldlM f s = (xs.foldlM f s).bind (fun m => ys.foldlM f m) := by
  rw [foldlM_append]
  rfl

theorem ok_of_bind {f : Except ε σ} {g : σ → Except ε τ} {t : τ} (h : f.bind g = .ok t) :
    ∃ s, f = .ok s ∧ g s = .ok t := by
  cases f with
  | error e => exact absurd h (by simp [Except.bind])
  | ok s => exact ⟨s,rfl,h⟩

theorem ok_of_map {f : Except ε σ} {g : σ → τ} {t : τ} (h : f.map g = .ok t) :
    ∃ s, f = .ok s ∧ g s = t := by
  cases f with
  | error e => exact absurd h (by simp [Except.map])
  | ok s => exact ⟨s,rfl,by simpa [Except.map] using h⟩

def checked (f : σ → α → Except ε σ) (check : σ → Except ε Unit) (s : σ) (x : α) : Except ε σ :=
  (f s x).bind fun t => (check t).map fun _ => t

theorem foldlM_checked {check : σ → Except ε Unit} {xs : List α} {s t : σ}
    (h : xs.foldlM f s = .ok t) :
    xs.foldlM (checked f check) s = .ok t ↔ ∀ pre post m, xs = pre ++ post → pre ≠ [] →
      pre.foldlM f s = .ok m → check m = .ok () := by
  induction xs generalizing s with
  | nil =>
    refine ⟨fun _ pre post m heq hne _ => ?_,fun _ => h⟩
    exact absurd (append_eq_nil_iff.mp heq.symm).1 hne
  | cons x rest ih =>
    rw [foldlM_cons] at h
    cases hx : f s x with
    | error e =>
      rw [hx] at h
      cases h
    | ok s₁ =>
      rw [hx] at h
      have hrest := ih h
      have hstep : checked f check s x = (check s₁).map fun _ => s₁ := by rw [checked,hx,Except.bind]
      rw [foldlM_cons,hstep]
      constructor
      · intro hall pre post m heq hne hfold
        cases hc : check s₁ with
        | error e =>
          rw [hc] at hall
          cases hall
        | ok u =>
          rw [hc] at hall
          cases pre with
          | nil => exact absurd rfl hne
          | cons y pre =>
            obtain ⟨rfl,hsplit⟩ := List.cons.inj heq
            rw [foldlM_cons,hx] at hfold
            cases pre with
            | nil =>
              cases hfold
              exact hc
            | cons z pre => exact hrest.mp hall _ post m hsplit (by simp) hfold
      · intro hall
        have hc : check s₁ = .ok () := hall [x] rest s₁ rfl (by simp) (by
          rw [foldlM_cons,hx]
          rfl)
        rw [hc]
        refine hrest.mpr fun pre post m heq hne hfold => ?_
        refine hall (x::pre) post m (by rw [heq,cons_append]) (by simp) ?_
        rw [foldlM_cons,hx]
        exact hfold

end ProjectOS.Lib
