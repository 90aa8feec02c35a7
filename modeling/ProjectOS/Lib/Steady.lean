import ProjectOS.Lib.Sessions

/-! Programs on a machine whose answers hang on its store alone: run to their
end, or stopped behind so many actions. -/

namespace ProjectOS.Lib.Prog
variable {F : Interface} {ε α β γ δ σ : Type}

def exec (M : Machine F Unit σ) : Prog F ε α → σ → Except ε α × σ
  | .ret a, s => (.ok a,s)
  | .throw e, s => (.error e,s)
  | .act a k, s => (k (M.step () s a).1).exec M (M.step () s a).2

def stopped (M : Machine F Unit σ) (k : Nat) (p : Prog F ε α) (s : σ) : σ :=
  (p.play M (List.replicate k ()) s).2.2

def outcome (M : Machine F Unit σ) (view : α → γ) (p : Prog F ε α) (s : σ) : Except ε γ × σ :=
  ((p.exec M s).1.map view,(p.exec M s).2)

variable {M : Machine F Unit σ}

@[simp] theorem exec_ret (a : α) (s : σ) : (ret a : Prog F ε α).exec M s = (.ok a,s) := rfl

@[simp] theorem exec_throw (e : ε) (s : σ) : (throw e : Prog F ε α).exec M s = (.error e,s) := rfl

@[simp] theorem exec_act (a : F.Act) (k : F.Resp a → Prog F ε α) (s : σ) :
    (act a k).exec M s = (k (M.step () s a).1).exec M (M.step () s a).2 := rfl

theorem exec_bind (p : Prog F ε α) (f : α → Prog F ε β) (s : σ) :
    (p.bind f).exec M s =
      match p.exec M s with
      | (.ok a,t) => (f a).exec M t
      | (.error e,t) => (.error e,t) := by
  induction p generalizing s with
  | ret a => rfl
  | throw e => rfl
  | act a k ih => exact ih _ _

variable {p q : Prog F ε α} {s t : σ}

theorem outcome_of_exec {view : α → γ}
    (h : p.exec M s = q.exec M t) : p.outcome M view s = q.outcome M view t := by
  rw [outcome,outcome,h]

theorem outcome_bind (view : α → γ) {view' : β → δ} {f g : α → Prog F ε β}
    (h : p.outcome M view s = q.outcome M view t)
    (hfg : ∀ a b u, view a = view b → (f a).outcome M view' u = (g b).outcome M view' u) :
    (p.bind f).outcome M view' s = (q.bind g).outcome M view' t := by
  simp only [outcome,Prod.mk.injEq] at h
  simp only [outcome,exec_bind]
  cases hp : p.exec M s with
  | mk r s' =>
    cases hq : q.exec M t with
    | mk r' t' =>
      rw [hp,hq] at h
      obtain ⟨hr,rfl⟩ := h
      cases r with
      | error e =>
        cases r' with
        | error e' => rw [Except.error.inj hr]
        | ok b => cases hr
      | ok a =>
        cases r' with
        | error e' => cases hr
        | ok b => exact hfg a b s' (Except.ok.inj hr)

theorem exec_foldlM {f g : α → β → Prog F ε α}
    (h : ∀ a x s, (f a x).exec M s = (g a x).exec M s) (xs : List β) (a : α) (s : σ) :
    (xs.foldlM f a).exec M s = (xs.foldlM g a).exec M s := by
  induction xs generalizing a s with
  | nil => rfl
  | cons x xs ih =>
    rw [List.foldlM_cons,List.foldlM_cons,bind_eq,bind_eq,exec_bind,exec_bind,h]
    cases (g a x).exec M s with
    | mk r t =>
      cases r with
      | error e => rfl
      | ok b => exact ih b t

theorem exec_foldlM_keeps {J : α → σ → Prop} {f : α → β → Prog F ε α} {xs : List β}
    (h : ∀ x ∈ xs, ∀ a s b t, J a s → (f a x).exec M s = (.ok b,t) → J b t) {a b : α}
    (hJ : J a s) (hend : (xs.foldlM f a).exec M s = (.ok b,t)) : J b t := by
  induction xs generalizing a s with
  | nil =>
    cases hend
    exact hJ
  | cons x xs ih =>
    rw [List.foldlM_cons,bind_eq,exec_bind] at hend
    cases hx : (f a x).exec M s with
    | mk r u =>
      rw [hx] at hend
      cases r with
      | error e => cases hend
      | ok c =>
        exact ih (fun y hy => h y (List.mem_cons_of_mem _ hy)) (h x (by simp) a s c u hJ hx) hend

variable {P : F.Act → Prop} {I : σ → Prop}

theorem exec_within (hp : p.Within P)
    (hkeep : ∀ s a, P a → I s → I (M.step () s a).2) (hs : I s) : I (p.exec M s).2 := by
  induction p generalizing s with
  | ret | throw => exact hs
  | act a k ih => exact ih _ (hp.2 _) (hkeep s a hp.1 hs)

theorem stopped_within (hp : p.Within P)
    (hkeep : ∀ s a, P a → I s → I (M.step () s a).2) (k : Nat) (hs : I s) :
    I (p.stopped M k s) := by
  have hsecured : p.SecuredWhen M (fun _ _ _ => True) I (fun _ _ => True) s :=
    securedWhen_within hp (fun _ s a ha _ => hkeep s a ha) hs
  refine securedWhen_play hsecured hs ?_
  clear hsecured hs hp
  induction p generalizing k s with
  | ret | throw => trivial
  | act a p ih =>
    cases k with
    | zero => trivial
    | succ k => exact ⟨trivial,ih _ k⟩

end ProjectOS.Lib.Prog
