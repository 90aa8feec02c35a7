import ProjectOS.Lib.Footprint

/-! Programs run one after another, each as far as its surroundings let it: a
program whose inputs run out is cut short there, as by a crash. -/

namespace ProjectOS.Lib

def Machine.observed {F : Interface} {ι σ γ : Type} (M : Machine F ι σ)
    (look : (a : F.Act) → F.Resp a → γ → γ) : Machine F ι (σ × γ) where
  step x s a :=
    let out := M.step x s.1 a
    (out.1,out.2,look a out.1 s.2)

namespace Prog
variable {F : Interface} {ε ε' α β ι σ γ : Type}

def play (M : Machine F ι σ) : Prog F ε α → List ι → σ → Option (Except ε α) × List ι × σ
  | .ret a, xs, s => (some (.ok a),xs,s)
  | .throw e, xs, s => (some (.error e),xs,s)
  | .act _ _, [], s => (none,[],s)
  | .act a k, x :: xs, s => (k (M.step x s a).1).play M xs (M.step x s a).2

def Ended (P : α → List ι → σ → Prop) : Option (Except ε α) × List ι × σ → Prop
  | (some (.ok a),xs,s) => P a xs s
  | _ => True

instance (P : α → List ι → σ → Prop) [∀ a xs s, Decidable (P a xs s)] :
    (left : Option (Except ε α) × List ι × σ) → Decidable (Ended P left)
  | (some (.ok a),xs,s) => inferInstanceAs (Decidable (P a xs s))
  | (some (.error _),_,_)
  | (none,_,_) => isTrue trivial

variable {M : Machine F ι σ}

theorem play_bind (p : Prog F ε α) (f : α → Prog F ε β) (xs : List ι) (s : σ) :
    (p.bind f).play M xs s =
      match p.play M xs s with
      | (some (.ok a),ys,t) => (f a).play M ys t
      | (some (.error e),ys,t) => (some (.error e),ys,t)
      | (none,ys,t) => (none,ys,t) := by
  induction p generalizing xs s with
  | ret a => rfl
  | throw e => rfl
  | act a k ih =>
    cases xs with
    | nil => rfl
    | cons x xs => exact ih _ xs _

/-- The invariant after every action, and what is returned. -/
def Secured (M : Machine F ι σ) (I : σ → Prop) (Q : α → σ → Prop) : Prog F ε α → σ → Prop
  | .ret a, s => Q a s
  | .throw _, _ => True
  | .act a k, s => ∀ x, I (M.step x s a).2 ∧ Secured M I Q (k (M.step x s a).1) (M.step x s a).2

variable {I : σ → Prop} {p : Prog F ε α} {Q : α → σ → Prop} {s : σ}

theorem secured_play (h : p.Secured M I Q s) (hs : I s) (xs : List ι) :
    I (p.play M xs s).2.2 ∧ ∀ a, (p.play M xs s).1 = some (.ok a) → Q a (p.play M xs s).2.2 := by
  induction p generalizing xs s with
  | ret a =>
    refine ⟨hs,?_⟩
    intro b hb
    cases hb
    exact h
  | throw e => exact ⟨hs,fun a ha => by cases ha⟩
  | act a k ih =>
    cases xs with
    | nil => exact ⟨hs,fun a ha => by cases ha⟩
    | cons x xs => exact ih _ (h x).2 (h x).1 xs

theorem secured_bind {P : α → σ → Prop} {Q : β → σ → Prop} {f : α → Prog F ε β}
    (h : p.Secured M I P s) (hs : I s) (hf : ∀ a t, I t → P a t → (f a).Secured M I Q t) :
    (p.bind f).Secured M I Q s := by
  induction p generalizing s with
  | ret a => exact hf a s hs h
  | throw e => trivial
  | act a k ih => exact fun x => ⟨(h x).1,ih _ (h x).2 (h x).1⟩

theorem secured_mapError {f : ε → ε'} (h : p.Secured M I Q s) :
    (p.mapError f).Secured M I Q s := by
  induction p generalizing s with
  | ret a => exact h
  | throw e => trivial
  | act a k ih => exact fun x => ⟨(h x).1,ih _ (h x).2⟩

def PlaysAlong (M : Machine F ι σ) (ok : ι → σ → F.Act → Prop) : Prog F ε α → List ι → σ → Prop
  | .act a k, x :: xs, s =>
    ok x s a ∧ (k (M.step x s a).1).PlaysAlong M ok xs (M.step x s a).2
  | _, _, _ => True

instance decidablePlaysAlong {M : Machine F ι σ} {ok : ι → σ → F.Act → Prop}
    [∀ x s a, Decidable (ok x s a)] : (p : Prog F ε α) → (xs : List ι) → (s : σ) →
    Decidable (p.PlaysAlong M ok xs s)
  | .ret _, _, _
  | .throw _, _, _
  | .act _ _, [], _ => isTrue trivial
  | .act a k, x :: xs, s =>
    @instDecidableAnd _ _ _ (decidablePlaysAlong (k (M.step x s a).1) xs (M.step x s a).2)

theorem playsAlong_and {ok : ι → σ → F.Act → Prop} {P : ι → Prop} {xs : List ι}
    (hxs : ∀ x ∈ xs, P x) (h : p.PlaysAlong M ok xs s) :
    p.PlaysAlong M (fun x s a => P x ∧ ok x s a) xs s := by
  induction p generalizing xs s with
  | ret | throw => trivial
  | act a k ih =>
    cases xs with
    | nil => trivial
    | cons x xs =>
      exact ⟨⟨hxs x (by simp),h.1⟩,ih _ (fun y hy => hxs y (List.mem_cons_of_mem _ hy)) h.2⟩

def SecuredWhen (M : Machine F ι σ) (ok : ι → σ → F.Act → Prop) (I : σ → Prop)
    (Q : α → σ → Prop) : Prog F ε α → σ → Prop
  | .ret a, s => Q a s
  | .throw _, _ => True
  | .act a k, s => ∀ x, ok x s a →
    I (M.step x s a).2 ∧ SecuredWhen M ok I Q (k (M.step x s a).1) (M.step x s a).2

section
variable {ok : ι → σ → F.Act → Prop} {p : Prog F ε α} {s : σ}

theorem securedWhen_play {Q : α → σ → Prop} (h : p.SecuredWhen M ok I Q s) (hs : I s)
    {xs : List ι} (hok : p.PlaysAlong M ok xs s) : I (p.play M xs s).2.2 := by
  induction p generalizing xs s with
  | ret | throw => exact hs
  | act a k ih =>
    cases xs with
    | nil => exact hs
    | cons x xs => exact ih _ (h x hok.1).2 (h x hok.1).1 hok.2

theorem securedWhen_bind {P : α → σ → Prop} {Q : β → σ → Prop} {f : α → Prog F ε β}
    (h : p.SecuredWhen M ok I P s) (hf : ∀ a t, P a t → (f a).SecuredWhen M ok I Q t) :
    (p.bind f).SecuredWhen M ok I Q s := by
  induction p generalizing s with
  | ret a => exact hf a s h
  | throw e => trivial
  | act a k ih => exact fun x hx => ⟨(h x hx).1,ih _ (h x hx).2⟩

theorem securedWhen_foldlM {J : List β → α → σ → Prop} (f : α → β → Prog F ε α)
    (hf : ∀ x xs a s, J (x :: xs) a s → (f a x).SecuredWhen M ok I (J xs) s) (xs : List β) {a : α}
    (h : J xs a s) : (xs.foldlM f a).SecuredWhen M ok I (J []) s := by
  induction xs generalizing a s with
  | nil => exact h
  | cons x xs ih =>
    rw [List.foldlM_cons]
    exact securedWhen_bind (hf x xs a s h) fun b t hb => ih hb

theorem securedWhen_within {P : F.Act → Prop} (hp : p.Within P)
    (hkeep : ∀ x s a, P a → ok x s a → I s → I (M.step x s a).2) (hs : I s) :
    p.SecuredWhen M ok I (fun _ _ => True) s := by
  induction p generalizing s with
  | ret | throw => trivial
  | act a k ih =>
    intro x hx
    have hnext := hkeep x s a hp.1 hx hs
    exact ⟨hnext,ih _ (hp.2 _) hnext⟩

end
end Prog
end ProjectOS.Lib
