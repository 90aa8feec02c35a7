import ProjectOS.Lib.Pool

/-! One program run while others work on the same store. What they do after
each of its actions is part of what the surroundings choose. -/

namespace ProjectOS.Lib
open List

def Machine.amid {F : Interface} {ι δ σ : Type} (M : Machine F ι σ) (others : δ → σ → σ) :
    Machine F (ι × δ) σ where
  step x s a :=
    let out := M.step x.1 s a
    (out.1,others x.2 out.2)

namespace Prog
variable {F : Interface} {ε α β ι δ σ : Type}

def returning (Q : α → σ → Prop) : Except ε α → σ → Prop
  | .ok a, s => Q a s
  | .error _, _ => True

variable {M : Machine F ι σ} {D : Discipline F ι σ}
variable {p : Prog F ε α} {f : α → Prog F ε β} {s : σ} {P : α → σ → Prop}

theorem assured_then {Q : β → σ → Prop} (h : p.Assured M D (returning P) s)
    (hf : ∀ a t, P a t → (f a).Assured M D (returning Q) t) :
    (p.bind f).Assured M D (returning Q) s := by
  refine assured_bind (assured_mono ?_ h)
  intro r t hr
  cases r with
  | ok a => exact hf a t hr
  | error e => trivial

theorem assured_rely_returning {Q : α → σ → Prop} (h : p.Assured M D (returning Q) s) :
    p.Assured M D (returning fun a t => Q a t ∧ D.rely s t) s := by
  refine assured_mono ?_ (assured_rely h)
  intro r t hr
  cases r with
  | ok a => exact hr
  | error e => trivial

theorem assured_renamed {ε' : Type} {f : ε → ε'} {Q : α → σ → Prop}
    (h : p.Assured M D (returning Q) s) : (p.mapError f).Assured M D (returning Q) s := by
  refine assured_mapError (assured_mono ?_ h)
  intro r t hr
  cases r with
  | ok a => exact hr
  | error e => trivial

theorem assured_loop {J : List β → α → σ → Prop} (f : α → β → Prog F ε α)
    (hf : ∀ before x c s, J before c s →
      (f c x).Assured M D (returning (J (before ++ [x]))) s)
    (xs : List β) {before : List β} {c : α} {s : σ} (h : J before c s) :
    (xs.foldlM f c).Assured M D (returning (J (before ++ xs))) s := by
  induction xs generalizing before c s with
  | nil =>
    rw [append_nil]
    exact h
  | cons x xs ih =>
    rw [foldlM_cons]
    refine assured_then (hf before x c s h) ?_
    intro d t hd
    have hrest := ih hd
    rw [append_assoc,singleton_append] at hrest
    exact hrest

variable {Q : Except ε α → σ → Prop} {others : δ → σ → σ}

theorem assured_run (hU : Pool.Upheld M D)
    (hothers : ∀ d s, D.inv s → D.inv (others d s) ∧ D.rely s (others d s))
    (hgiven : ∀ x s a, D.given x s a) (hQ : ∀ r s t, D.rely s t → Q r s → Q r t)
    (env : Nat → ι × δ) (n : Nat) (h : p.Assured M D Q s) (hs : D.inv s) :
    Q (p.run (M.amid others) env n s).1 (p.after (M.amid others) env n s) := by
  induction p generalizing n s with
  | ret | throw => exact h
  | act a k ih =>
    obtain ⟨hmay,hk⟩ := h s (D.refl s) hs
    obtain ⟨hinv,hrel⟩ := hU (env n).1 s a hs hmay (hgiven _ _ _)
    obtain ⟨hinv',hrel'⟩ := hothers (env n).2 _ hinv
    exact ih _ (n+1) (assured_later hQ (hk _ (hgiven _ _ _) hinv hrel) hrel') hinv'

def Amidst (M : Machine F ι σ) (beside : σ → σ → Prop) (Q : Except ε α → σ → Prop) :
    Prog F ε α → σ → Prop
  | .ret a, s => Q (.ok a) s
  | .throw e, s => Q (.error e) s
  | .act a k, s => ∀ x t, beside (M.step x s a).2 t → Amidst M beside Q (k (M.step x s a).1) t

variable {beside : σ → σ → Prop}

theorem amidst_bind {Q : Except ε β → σ → Prop} (h : p.Amidst M beside (fun r t => match r with
      | .ok a => (f a).Amidst M beside Q t
      | .error e => Q (.error e) t) s) : (p.bind f).Amidst M beside Q s := by
  induction p generalizing s with
  | ret | throw => exact h
  | act a k ih => exact fun x t ht => ih _ (h x t ht)

theorem amidst_mono {R : Except ε α → σ → Prop} (hQR : ∀ r s, Q r s → R r s)
    (h : p.Amidst M beside Q s) : p.Amidst M beside R s := by
  induction p generalizing s with
  | ret | throw => exact hQR _ _ h
  | act a k ih => exact fun x t ht => ih _ (h x t ht)

theorem amidst_returning {Q : α → σ → Prop} (hPQ : ∀ a t, P a t → Q a t)
    (h : p.Amidst M beside (returning P) s) : p.Amidst M beside (returning Q) s := by
  refine amidst_mono ?_ h
  rintro (e | a) t hr
  · trivial
  · exact hPQ a t hr

theorem amidst_then {Q : β → σ → Prop} (h : p.Amidst M beside (returning P) s)
    (hf : ∀ a t, P a t → (f a).Amidst M beside (returning Q) t) :
    (p.bind f).Amidst M beside (returning Q) s := by
  refine amidst_bind (amidst_mono ?_ h)
  intro r t hr
  cases r with
  | ok a => exact hf a t hr
  | error e => trivial

theorem amidst_loop {J : List β → α → σ → Prop} (f : α → β → Prog F ε α)
    (hf : ∀ before x c s, J before c s →
      (f c x).Amidst M beside (returning (J (before ++ [x]))) s) (xs before : List β) {c : α}
    (h : J before c s) : (xs.foldlM f c).Amidst M beside (returning (J (before ++ xs))) s := by
  induction xs generalizing before c s with
  | nil =>
    rw [append_nil]
    exact h
  | cons x xs ih =>
    rw [foldlM_cons]
    refine amidst_then (hf before x c s h) ?_
    intro d t hd
    have hrest := ih (before ++ [x]) hd
    rw [append_assoc,singleton_append] at hrest
    exact hrest

theorem amidst_run (hothers : ∀ d s, beside s (others d s))
    (env : Nat → ι × δ) (n : Nat) (h : p.Amidst M beside Q s) :
    Q (p.run (M.amid others) env n s).1 (p.after (M.amid others) env n s) := by
  induction p generalizing n s with
  | ret | throw => exact h
  | act a k ih => exact ih _ (n+1) (h _ _ (hothers (env n).2 _))

end Prog
end ProjectOS.Lib
