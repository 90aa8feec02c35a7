import ProjectOS.Lib.Trace

/-! What holds on every way through a program, whatever its actions are answered:
of how it ends, and of the actions it took with their answers. -/

namespace ProjectOS.Lib.Prog
variable {F : Interface} {ε ε' α β ι σ : Type}

abbrev Log (F : Interface) := List (Σ a : F.Act, F.Resp a)

def Paths (Q : Except ε α → Log F → Prop) : Prog F ε α → Prop
  | .ret a => Q (.ok a) []
  | .throw e => Q (.error e) []
  | .act a k => ∀ r, (k r).Paths fun x log => Q x (⟨a,r⟩ :: log)

variable {Q : Except ε α → Log F → Prop} {p : Prog F ε α}

theorem Paths.mono {R : Except ε α → Log F → Prop} (h : p.Paths Q)
    (hr : ∀ x log, Q x log → R x log) : p.Paths R := by
  induction p generalizing Q R with
  | ret | throw => exact hr _ _ h
  | act a k ih => exact fun r => ih r (h r) fun x log => hr x _

variable {f : α → Prog F ε β}

theorem Paths.bind {R : Except ε β → Log F → Prop}
    (h : p.Paths fun x log => match x with
      | .error e => R (.error e) log
      | .ok a => (f a).Paths fun y more => R y (log ++ more)) : (p.bind f).Paths R := by
  induction p generalizing R with
  | ret | throw => exact h
  | act a k ih => exact fun r => ih r (h r)

theorem Paths.mapError {f : ε → ε'} {R : Except ε' α → Log F → Prop}
    (h : p.Paths fun x log => R (x.mapError f) log) : (p.mapError f).Paths R := by
  induction p generalizing R with
  | ret | throw => exact h
  | act a k ih => exact fun r => ih r (h r)

theorem Paths.run (h : p.Paths Q) (M : Machine F ι σ) (env : Nat → ι) (n : Nat) (s : σ) :
    Q (p.run M env n s).1 (p.trace M env n s) := by
  induction p generalizing Q n s with
  | ret | throw => exact h
  | act a k ih => exact ih _ (h _) _ _

theorem yields_foldlM {γ : Type} (xs : List β) {f : γ → β → Prog F ε γ} {g : γ → β → γ}
    (h : ∀ c x, (f c x).Yields fun d => d = g c x) (c : γ) :
    (xs.foldlM f c).Yields fun d => d = xs.foldl g c := by
  induction xs generalizing c with
  | nil => rfl
  | cons x xs ih =>
    rw [List.foldlM_cons,List.foldl_cons]
    refine yields_bind (h c x) ?_
    rintro d rfl
    exact ih (g c x)

variable {P : F.Act → Prop}

theorem within_bind_yields {R : α → Prop}
    (hp : p.Within P) (hy : p.Yields R) (hf : ∀ a, R a → (f a).Within P) : (p.bind f).Within P := by
  induction p with
  | ret a => exact hf a hy
  | throw e => trivial
  | act a k ih => exact ⟨hp.1,fun r => ih r (hp.2 r) (hy r)⟩

theorem within_after {R : σ → σ → Prop} {M : Machine F ι σ}
    (hrefl : ∀ s, R s s) (htrans : ∀ s t u, R s t → R t u → R s u)
    (hstep : ∀ i s a, P a → R s (M.step i s a).2) (hp : p.Within P) (env : Nat → ι) (n : Nat)
    (s : σ) : R s (p.after M env n s) := by
  induction p generalizing n s with
  | ret | throw => exact hrefl s
  | act a k ih => exact htrans _ _ _ (hstep _ _ a hp.1) (ih _ (hp.2 _) _ _)

end ProjectOS.Lib.Prog
