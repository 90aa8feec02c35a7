import ProjectOS.Lib.Footprint

/-! The actions of a run with their answers, in order. -/

namespace ProjectOS.Lib.Prog
variable {F : Interface} {ε ε' α β ι σ : Type}

def trace (M : Machine F ι σ) (env : Nat → ι) :
    Prog F ε α → Nat → σ → List (Σ a : F.Act, F.Resp a)
  | .ret _, _, _
  | .throw _, _, _ => []
  | .act a k, n, s =>
    ⟨a,(M.step (env n) s a).1⟩ ::
      (k (M.step (env n) s a).1).trace M env (n+1) (M.step (env n) s a).2

variable (M : Machine F ι σ) (env : Nat → ι)

@[simp] theorem trace_ret (a : α) (n : Nat) (s : σ) :
    (ret a : Prog F ε α).trace M env n s = [] := rfl

@[simp] theorem trace_throw (e : ε) (n : Nat) (s : σ) :
    (throw e : Prog F ε α).trace M env n s = [] := rfl

@[simp] theorem trace_act (a : F.Act) (k : F.Resp a → Prog F ε α) (n : Nat) (s : σ) :
    (act a k).trace M env n s = ⟨a,(M.step (env n) s a).1⟩ ::
      (k (M.step (env n) s a).1).trace M env (n+1) (M.step (env n) s a).2 := rfl

@[simp] theorem trace_ofExcept (x : Except ε α) (n : Nat) (s : σ) :
    (ofExcept x : Prog F ε α).trace M env n s = [] := by
  cases x with
  | ok a => rfl
  | error e => rfl

variable (p : Prog F ε α)

theorem run_attempt (n : Nat) (s : σ) :
    (p.attempt : Prog F ε' _).run M env n s =
      (.ok (p.run M env n s).1,(p.run M env n s).2) := by
  induction p generalizing n s with
  | ret a => rfl
  | throw e => rfl
  | act a k ih => exact ih _ _ _

theorem trace_attempt (n : Nat) (s : σ) :
    (p.attempt : Prog F ε' _).trace M env n s = p.trace M env n s := by
  induction p generalizing n s with
  | ret a => rfl
  | throw e => rfl
  | act a k ih =>
    rw [attempt,trace_act,trace_act,ih]

theorem trace_bind (f : α → Prog F ε β) (n : Nat) (s : σ) :
    (p.bind f).trace M env n s = p.trace M env n s ++
      match p.run M env n s with
      | (.ok a,m,t) => (f a).trace M env m t
      | (.error _,_,_) => [] := by
  induction p generalizing n s with
  | ret a => rfl
  | throw e => rfl
  | act a k ih =>
    rw [act_bind,trace_act,ih,trace_act,run_act]
    rfl

theorem trace_within {P : F.Act → Prop} {p : Prog F ε α} (hp : p.Within P) (n : Nat) (s : σ) :
    ∀ x ∈ p.trace M env n s, P x.1 := by
  induction p generalizing n s with
  | ret | throw => exact fun _ hx => absurd hx List.not_mem_nil
  | act a k ih =>
    intro x hx
    rcases List.mem_cons.mp hx with rfl | hx
    · exact hp.1
    · exact ih _ (hp.2 _) _ _ x hx

def AsLongAs (good : (a : F.Act) → F.Resp a → Prop) (ok : F.Act → Prop) :
    List (Σ a : F.Act, F.Resp a) → Prop
  | [] => True
  | x :: rest => ok x.1 ∧ (good x.1 x.2 → AsLongAs good ok rest)

def Guided (good : (a : F.Act) → F.Resp a → Prop) (ok : F.Act → Prop) (Q : α → Prop) :
    Prog F ε α → Prop
  | .ret a => Q a
  | .throw _ => True
  | .act a k => ok a ∧ ∀ r, good a r → (k r).Guided good ok Q

section Guided
variable {good : (a : F.Act) → F.Resp a → Prop} {ok : F.Act → Prop} {p : Prog F ε α}

theorem trace_guided {Q : α → Prop} (hp : p.Guided good ok Q) (n : Nat) (s : σ) :
    AsLongAs good ok (p.trace M env n s) := by
  induction p generalizing n s with
  | ret | throw => trivial
  | act a k ih => exact ⟨hp.1,fun hgood => ih _ (hp.2 _ hgood) _ _⟩

theorem guided_bind {P : α → Prop} {Q : β → Prop} {f : α → Prog F ε β} (hp : p.Guided good ok P)
    (hf : ∀ a, P a → (f a).Guided good ok Q) : (p.bind f).Guided good ok Q := by
  induction p with
  | ret a => exact hf a hp
  | throw e => trivial
  | act a k ih => exact ⟨hp.1,fun r hr => ih r (hp.2 r hr)⟩

theorem guided_within (hp : p.Within ok) : p.Guided good ok fun _ => True := by
  induction p with
  | ret | throw => trivial
  | act a k ih => exact ⟨hp.1,fun r _ => ih r (hp.2 r)⟩

end Guided

end ProjectOS.Lib.Prog
