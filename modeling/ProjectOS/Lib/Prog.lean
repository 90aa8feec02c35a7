import Mathlib.Logic.Relation

namespace ProjectOS.Lib

/-- The atomic actions a program may take on a shared store, each with the
type of its answer. -/
structure Interface where
  Act : Type
  Resp : Act → Type

/-- A tree of atomic actions. What happens between two of them is the scheduler's
choice, so one tree serves sequential and interleaved runs. -/
inductive Prog (F : Interface) (ε α : Type) : Type where
  | ret (a : α)
  | throw (e : ε)
  | act (a : F.Act) (k : F.Resp a → Prog F ε α)

namespace Prog
variable {F : Interface} {ε α β γ ι σ : Type}

def bind : Prog F ε α → (α → Prog F ε β) → Prog F ε β
  | .ret a, f => f a
  | .throw e, _ => .throw e
  | .act a k, f => .act a (fun r => (k r).bind f)

instance : Monad (Prog F ε) where
  pure := .ret
  bind := bind

def ofExcept : Except ε α → Prog F ε α
  | .ok a => .ret a
  | .error e => .throw e

def attempt {ε' : Type} : Prog F ε α → Prog F ε' (Except ε α)
  | .ret a => .ret (.ok a)
  | .throw e => .ret (.error e)
  | .act a k => .act a (fun r => (k r).attempt)

def mapError {ε' : Type} (f : ε → ε') : Prog F ε α → Prog F ε' α
  | .ret a => .ret a
  | .throw e => .throw (f e)
  | .act a k => .act a (fun r => (k r).mapError f)

@[simp] theorem pure_eq (a : α) : (pure a : Prog F ε α) = .ret a := rfl

variable (p : Prog F ε α)

@[simp] theorem bind_eq (f : α → Prog F ε β) : (p >>= f) = p.bind f := rfl

@[simp] theorem ret_bind (a : α) (f : α → Prog F ε β) : (ret a).bind f = f a := rfl

@[simp] theorem throw_bind (e : ε) (f : α → Prog F ε β) : (throw e).bind f = .throw e := rfl

@[simp] theorem act_bind (a : F.Act) (k : F.Resp a → Prog F ε α) (f : α → Prog F ε β) :
    (act a k).bind f = .act a (fun r => (k r).bind f) := rfl

@[simp] theorem ofExcept_ok (a : α) : (ofExcept (.ok a) : Prog F ε α) = .ret a := rfl

@[simp] theorem ofExcept_error (e : ε) : (ofExcept (.error e) : Prog F ε α) = .throw e := rfl

theorem bind_ret : p.bind .ret = p := by
  induction p with
  | ret a => rfl
  | throw e => rfl
  | act a k ih => simp only [act_bind,ih]

theorem bind_assoc (f : α → Prog F ε β) (g : β → Prog F ε γ) :
    (p.bind f).bind g = p.bind (fun a => (f a).bind g) := by
  induction p with
  | ret a => rfl
  | throw e => rfl
  | act a k ih => simp only [act_bind,ih]

end Prog

/-- What an action answers and does to the store; the extra argument is the
surroundings' choice. -/
structure Machine (F : Interface) (ι σ : Type) where
  step : ι → σ → (a : F.Act) → F.Resp a × σ

namespace Prog
variable {F : Interface} {ε α β γ ι σ : Type}

def run (M : Machine F ι σ) (env : Nat → ι) :
    Prog F ε α → Nat → σ → Except ε α × Nat × σ
  | .ret a, n, s => (.ok a,n,s)
  | .throw e, n, s => (.error e,n,s)
  | .act a k, n, s => (k (M.step (env n) s a).1).run M env (n+1) (M.step (env n) s a).2

variable (M : Machine F ι σ) (env : Nat → ι)

@[simp] theorem run_ret (a : α) (n : Nat) (s : σ) :
    (ret a : Prog F ε α).run M env n s = (.ok a,n,s) := rfl

@[simp] theorem run_throw (e : ε) (n : Nat) (s : σ) :
    (throw e : Prog F ε α).run M env n s = (.error e,n,s) := rfl

@[simp] theorem run_act (a : F.Act) (k : F.Resp a → Prog F ε α) (n : Nat) (s : σ) :
    (act a k).run M env n s =
      (k (M.step (env n) s a).1).run M env (n+1) (M.step (env n) s a).2 := rfl

theorem run_bind (p : Prog F ε α) (f : α → Prog F ε β) (n : Nat) (s : σ) :
    (p.bind f).run M env n s =
      match p.run M env n s with
      | (.ok a,m,t) => (f a).run M env m t
      | (.error e,m,t) => (.error e,m,t) := by
  induction p generalizing n s with
  | ret a => rfl
  | throw e => rfl
  | act a k ih => simp only [act_bind,run_act,ih]

variable {M} {env} in
theorem run_bind_ok {p : Prog F ε α} {f : α → Prog F ε β} {b : β} {n m : Nat} {s u : σ}
    (h : (p.bind f).run M env n s = (.ok b,m,u)) :
    ∃ a k t, p.run M env n s = (.ok a,k,t) ∧ (f a).run M env k t = (.ok b,m,u) := by
  rw [run_bind] at h
  cases hp : p.run M env n s with
  | mk r rest =>
    rw [hp] at h
    cases r with
    | ok a => exact ⟨a,rest.1,rest.2,rfl,h⟩
    | error e => cases h

def after (M : Machine F ι σ) (env : Nat → ι) (p : Prog F ε α) (n : Nat) (s : σ) : σ :=
  (p.run M env n s).2.2

theorem after_bind (M : Machine F ι σ) (env : Nat → ι) (p : Prog F ε α) (f : α → Prog F ε β)
    (n : Nat) (s : σ) :
    (p.bind f).after M env n s =
      match p.run M env n s with
      | (.ok a,m,t) => (f a).after M env m t
      | (.error _,_,t) => t := by
  simp only [after,run_bind]
  cases p.run M env n s with
  | mk r rest =>
    cases r with
    | ok | error => rfl

def Keeps (R : σ → σ → Prop) (p : Prog F ε α) : Prop :=
  ∀ (env : Nat → ι) (n : Nat) (s : σ), R s (p.after M env n s)

variable {M} {R : σ → σ → Prop}

theorem keeps_ret (hrefl : ∀ s, R s s) (a : α) : Keeps M R (ret a : Prog F ε α) :=
  fun _ _ s => hrefl s

theorem keeps_throw (hrefl : ∀ s, R s s) (e : ε) : Keeps M R (throw e : Prog F ε α) :=
  fun _ _ s => hrefl s

theorem keeps_bind (htrans : ∀ s t u, R s t → R t u → R s u) {p : Prog F ε α}
    {f : α → Prog F ε β} (hp : Keeps M R p) (hf : ∀ a, Keeps M R (f a)) :
    Keeps M R (p.bind f) := by
  intro env n s
  have h := hp env n s
  simp only [after,run_bind] at h ⊢
  cases hr : p.run M env n s with
  | mk r rest =>
    obtain ⟨m,t⟩ := rest
    rw [hr] at h
    cases r with
    | ok a => exact htrans _ _ _ h (hf a env m t)
    | error e => exact h

theorem keeps_foldlM (hrefl : ∀ s, R s s) (htrans : ∀ s t u, R s t → R t u → R s u)
    (xs : List β) (f : γ → β → Prog F ε γ) (hf : ∀ c, ∀ x ∈ xs, Keeps M R (f c x)) (c : γ) :
    Keeps M R (xs.foldlM f c) := by
  induction xs generalizing c with
  | nil => exact keeps_ret hrefl _
  | cons x xs ih =>
    rw [List.foldlM_cons]
    refine keeps_bind htrans (hf c x (by simp)) ?_
    intro d
    exact ih (fun c y hy => hf c y (List.mem_cons_of_mem _ hy)) d

end Prog
end ProjectOS.Lib
