import Mathlib.Logic.Function.Basic
import ProjectOS.Lib.Prog

namespace ProjectOS.Lib

/-- A store of independent cells. Each action works in one cell and sees
nothing of the others. -/
structure CellMachine (F : Interface) (ι κ γ : Type) where
  place : F.Act → κ
  step : ι → (a : F.Act) → γ → F.Resp a × γ

namespace CellMachine
variable {F : Interface} {ι κ γ : Type} [DecidableEq κ]

def toMachine (C : CellMachine F ι κ γ) : Machine F ι (κ → γ) where
  step i s a :=
    let out := C.step i a (s (C.place a))
    (out.1,Function.update s (C.place a) out.2)

end CellMachine

namespace Prog
variable {F : Interface} {ε α β δ ι κ γ : Type}

/-- Every action of the program, whatever it is answered. -/
def Within (P : F.Act → Prop) : Prog F ε α → Prop
  | .ret _
  | .throw _ => True
  | .act a k => P a ∧ ∀ r, (k r).Within P

section Within
variable {P : F.Act → Prop}

@[simp] theorem within_ret (a : α) : (ret a : Prog F ε α).Within P := trivial

@[simp] theorem within_throw (e : ε) : (throw e : Prog F ε α).Within P := trivial

@[simp] theorem within_ofExcept (x : Except ε α) : (ofExcept x : Prog F ε α).Within P := by
  cases x with
  | ok a => trivial
  | error e => trivial

variable {p : Prog F ε α}

theorem within_mono {Q : F.Act → Prop} (h : ∀ a, P a → Q a) (hp : p.Within P) : p.Within Q := by
  induction p with
  | ret | throw => trivial
  | act a k ih => exact ⟨h a hp.1,fun r => ih r (hp.2 r)⟩

theorem within_bind {f : α → Prog F ε β} (hp : p.Within P) (hf : ∀ a, (f a).Within P) :
    (p.bind f).Within P := by
  induction p with
  | ret a => exact hf a
  | throw e => trivial
  | act a k ih => exact ⟨hp.1,fun r => ih r (hp.2 r)⟩

theorem within_foldlM (xs : List β) (f : δ → β → Prog F ε δ)
    (hf : ∀ d, ∀ x ∈ xs, (f d x).Within P) (d : δ) : (xs.foldlM f d).Within P := by
  induction xs generalizing d with
  | nil => trivial
  | cons x xs ih =>
    rw [List.foldlM_cons]
    exact within_bind (hf d x (by simp))
      (fun e => ih (fun d y hy => hf d y (List.mem_cons_of_mem _ hy)) e)

theorem within_mapError {ε' : Type} {f : ε → ε'} (h : p.Within P) : (p.mapError f).Within P := by
  induction p with
  | ret | throw => trivial
  | act a k ih => exact ⟨h.1,fun r => ih r (h.2 r)⟩

end Within

/-- What the program returns, if it does. -/
def Yields (Q : α → Prop) : Prog F ε α → Prop
  | .ret a => Q a
  | .throw _ => True
  | .act _ k => ∀ r, (k r).Yields Q

section Yields
variable {Q : α → Prop} {R : β → Prop}

theorem yields_bind {p : Prog F ε α} {f : α → Prog F ε β} (hp : p.Yields Q)
    (hf : ∀ a, Q a → (f a).Yields R) : (p.bind f).Yields R := by
  induction p with
  | ret a => exact hf a hp
  | throw e => trivial
  | act a k ih => exact fun r => ih r (hp r)

theorem yields_any (p : Prog F ε α) : p.Yields fun _ => True := by
  induction p with
  | ret | throw => trivial
  | act a k ih => exact fun r => ih r

theorem yields_run {σ : Type} {p : Prog F ε α} (hp : p.Yields Q) (M : Machine F ι σ)
    (env : Nat → ι) (n : Nat) (s : σ) {a : α} (h : (p.run M env n s).1 = .ok a) : Q a := by
  induction p generalizing n s with
  | ret b =>
    cases h
    exact hp
  | throw e => cases h
  | act b k ih => exact ih _ (hp _) _ _ h

end Yields

/-- What it throws, if it does. -/
def Throws (E : ε → Prop) : Prog F ε α → Prop
  | .ret _ => True
  | .throw e => E e
  | .act _ k => ∀ r, (k r).Throws E

section Throws
variable {E : ε → Prop}

theorem throws_ofExcept {x : Except ε α} (h : ∀ e, x = .error e → E e) :
    (ofExcept x : Prog F ε α).Throws E := by
  cases x with
  | ok a => trivial
  | error e => exact h e rfl

theorem throws_bind {p : Prog F ε α} {f : α → Prog F ε β} (hp : p.Throws E)
    (hf : ∀ a, (f a).Throws E) : (p.bind f).Throws E := by
  induction p with
  | ret a => exact hf a
  | throw e => exact hp
  | act a k ih => exact fun r => ih r (hp r)

end Throws

variable {p : Prog F ε α}

theorem after_silent {σ : Type} (M : Machine F ι σ) (env : Nat → ι) (hp : p.Within fun _ => False)
    (n : Nat) (s : σ) : p.after M env n s = s := by
  cases p with
  | ret a => rfl
  | throw e => rfl
  | act a k => exact hp.1.elim

variable [DecidableEq κ] (C : CellMachine F ι κ γ) (env : Nat → ι)

theorem run_cell {x : κ} (hp : p.Within fun a => C.place a = x → ∀ i c, (C.step i a c).2 = c)
    (n : Nat) (s : κ → γ) : (p.run C.toMachine env n s).2.2 x = s x := by
  induction p generalizing n s with
  | ret a => rfl
  | throw e => rfl
  | act a k ih =>
    rw [run_act,ih _ (hp.2 _)]
    by_cases hx : C.place a = x
    · subst hx
      simp [CellMachine.toMachine,hp.1 rfl]
    · simp [CellMachine.toMachine,Function.update_of_ne (Ne.symm hx)]

def footprint : Prog F ε α → Nat → (κ → γ) → List κ
  | .ret _, _, _
  | .throw _, _, _ => []
  | .act a k, n, s =>
    let out := C.toMachine.step (env n) s a
    C.place a :: (k out.1).footprint (n+1) out.2

theorem footprint_within {Q : κ → Prop} (hp : p.Within (fun a => Q (C.place a))) (n : Nat)
    (s : κ → γ) : ∀ x ∈ p.footprint C env n s, Q x := by
  induction p generalizing n s with
  | ret | throw => simp [footprint]
  | act a k ih =>
    intro x hx
    rcases List.mem_cons.mp hx with rfl | hx
    · exact hp.1
    · exact ih _ (hp.2 _) _ _ x hx

theorem run_agree (p : Prog F ε α) (n : Nat) {s t : κ → γ}
    (h : ∀ x ∈ p.footprint C env n s, s x = t x) :
    (p.run C.toMachine env n t).1 = (p.run C.toMachine env n s).1 ∧
    p.footprint C env n t = p.footprint C env n s ∧
    ∀ x, s x = t x → (p.run C.toMachine env n s).2.2 x = (p.run C.toMachine env n t).2.2 x := by
  induction p generalizing n s t with
  | ret | throw => exact ⟨rfl,rfl,fun _ hx => hx⟩
  | act a k ih =>
    have hcell : s (C.place a) = t (C.place a) := h _ List.mem_cons_self
    have hresp : (C.toMachine.step (env n) t a).1 = (C.toMachine.step (env n) s a).1 := by
      simp only [CellMachine.toMachine,hcell]
    -- the two stores keep agreeing wherever they agreed before the action
    have hnext : ∀ x, s x = t x →
        (C.toMachine.step (env n) s a).2 x = (C.toMachine.step (env n) t a).2 x := by
      intro x hx
      by_cases hp : x = C.place a
      · simp [CellMachine.toMachine,hcell,hp]
      · simp [CellMachine.toMachine,hp,hx]
    have hrest := ih (C.toMachine.step (env n) s a).1 (n+1)
      (fun x hx => hnext x (h x (List.mem_cons_of_mem _ hx)))
    simp only [run_act,footprint,hresp]
    exact ⟨hrest.1,by rw [hrest.2.1],fun x hx => hrest.2.2 x (hnext x hx)⟩

end Prog
end ProjectOS.Lib
