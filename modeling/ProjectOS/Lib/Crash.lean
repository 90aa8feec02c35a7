import ProjectOS.Lib.Steady

/-! Loops that are stopped on the way. Where only the last action of a round
changes the store, a loop is always stopped between two of its rounds. -/

namespace ProjectOS.Lib.Prog
open List
variable {F : Interface} {ε ε' α β γ δ ζ σ τ : Type}

def acts (M : Machine F Unit σ) : Prog F ε α → σ → List F.Act
  | .ret _, _
  | .throw _, _ => []
  | .act a k, s => a :: (k (M.step () s a).1).acts M (M.step () s a).2

/-- Nothing comes after such an action. -/
def EndsIn (P : F.Act → Prop) : Prog F ε α → Prop
  | .ret _
  | .throw _ => True
  | .act a k => (∀ r, (k r).EndsIn P) ∧ (P a → ∀ r, (k r).Within fun _ => False)

section
variable {P : F.Act → Prop} {p : Prog F ε α} {f : α → Prog F ε β}

theorem endsIn_bind (hp : p.Within fun a => ¬P a) (hf : ∀ a, (f a).EndsIn P) :
    (p.bind f).EndsIn P := by
  induction p with
  | ret a => exact hf a
  | throw e => trivial
  | act a k ih => exact ⟨fun r => ih r (hp.2 r),fun ha => absurd ha hp.1⟩

theorem endsIn_then (hp : p.EndsIn P) (hf : ∀ a, (f a).Within fun _ => False) :
    (p.bind f).EndsIn P := by
  induction p with
  | ret a =>
    show (f a).EndsIn P
    cases hq : f a with
    | ret | throw => trivial
    | act b k => exact absurd (hq ▸ hf a) fun h => h.1
  | throw e => trivial
  | act a k ih => exact ⟨fun r => ih r (hp.1 r),fun ha r => within_bind (hp.2 ha r) hf⟩

theorem endsIn_mapError {f : ε → ε'} (hp : p.EndsIn P) : (p.mapError f).EndsIn P := by
  induction p with
  | ret | throw => trivial
  | act a k ih => exact ⟨fun r => ih r (hp.1 r),fun ha r => within_mapError (hp.2 ha r)⟩

end

variable {M : Machine F Unit σ}

@[simp] theorem acts_ret (a : α) (s : σ) : (ret a : Prog F ε α).acts M s = [] := rfl

@[simp] theorem acts_throw (e : ε) (s : σ) : (throw e : Prog F ε α).acts M s = [] := rfl

@[simp] theorem acts_act (a : F.Act) (k : F.Resp a → Prog F ε α) (s : σ) :
    (act a k).acts M s = a :: (k (M.step () s a).1).acts M (M.step () s a).2 := rfl

theorem acts_bind (p : Prog F ε α) (f : α → Prog F ε β) (s : σ) :
    (p.bind f).acts M s = p.acts M s ++
      match p.exec M s with
      | (.ok a,t) => (f a).acts M t
      | (.error _,_) => [] := by
  induction p generalizing s with
  | ret a => rfl
  | throw e => rfl
  | act a k ih =>
    rw [act_bind,acts_act,ih,acts_act,exec_act]
    rfl

variable {P : F.Act → Prop} {p : Prog F ε α}

theorem acts_within (hp : p.Within P) (s : σ) : ∀ a ∈ p.acts M s, P a := by
  induction p generalizing s with
  | ret | throw => exact fun _ h => absurd h not_mem_nil
  | act a k ih =>
    intro b hb
    rcases mem_cons.mp hb with rfl | hb
    · exact hp.1
    · exact ih _ (hp.2 _) _ b hb

@[simp] theorem exec_mapError (f : ε → ε') (p : Prog F ε α) (s : σ) :
    (p.mapError f).exec M s = ((p.exec M s).1.mapError f,(p.exec M s).2) := by
  induction p generalizing s with
  | ret a => rfl
  | throw e => rfl
  | act a k ih => exact ih _ _

@[simp] theorem stopped_zero (p : Prog F ε α) (s : σ) : p.stopped M 0 s = s := by
  cases p <;> rfl

@[simp] theorem stopped_succ (k : Nat) (a : F.Act) (p : F.Resp a → Prog F ε α) (s : σ) :
    (act a p).stopped M (k+1) s = (p (M.step () s a).1).stopped M k (M.step () s a).2 := rfl

variable {s : σ} {k : Nat}

theorem stopped_late (hk : (p.acts M s).length ≤ k) : p.stopped M k s = (p.exec M s).2 := by
  induction p generalizing k s with
  | ret a => rfl
  | throw e => rfl
  | act a p ih =>
    cases k with
    | zero => exact absurd hk (Nat.not_succ_le_zero _)
    | succ k => exact ih _ (Nat.le_of_succ_le_succ hk)

theorem stopped_bind_early (p : Prog F ε α) (f : α → Prog F ε β) (hk : k ≤ (p.acts M s).length) :
    (p.bind f).stopped M k s = p.stopped M k s := by
  induction p generalizing k s with
  | ret a =>
    obtain rfl := Nat.le_zero.mp hk
    rw [stopped_zero,stopped_zero]
  | throw e => rfl
  | act a p ih =>
    cases k with
    | zero => rfl
    | succ k => exact ih _ (Nat.le_of_succ_le_succ hk)

variable {t : σ} {a b : α}

theorem stopped_bind_late (f : α → Prog F ε β) (hp : p.exec M s = (.ok a,t))
    (k : Nat) : (p.bind f).stopped M ((p.acts M s).length+k) s = (f a).stopped M k t := by
  induction p generalizing s with
  | ret b =>
    cases hp
    rw [acts_ret,length_nil,Nat.zero_add]
    rfl
  | throw e => cases hp
  | act b p ih =>
    rw [acts_act,length_cons,Nat.add_right_comm]
    exact ih _ hp

theorem stopped_quiet (hquiet : ∀ s a, ¬P a → (M.step () s a).2 = s)
    (h : ∀ a ∈ (p.acts M s).take k, ¬P a) : p.stopped M k s = s := by
  induction p generalizing k s with
  | ret a => rfl
  | throw e => rfl
  | act a p ih =>
    cases k with
    | zero => rfl
    | succ k =>
      rw [acts_act,take_succ_cons] at h
      have hstep := hquiet s a (h a mem_cons_self)
      rw [stopped_succ,ih _ fun b hb => h b (mem_cons_of_mem _ hb),hstep]

theorem acts_endsIn (hp : p.EndsIn P) (hk : k < (p.acts M s).length) :
    ∀ a ∈ (p.acts M s).take k, ¬P a := by
  induction p generalizing k s with
  | ret | throw => cases hk
  | act a p ih =>
    cases k with
    | zero => exact fun _ h => absurd h not_mem_nil
    | succ k =>
      rw [acts_act,length_cons] at hk
      have hlater := Nat.lt_of_succ_lt_succ hk
      intro b hb
      rw [acts_act,take_succ_cons] at hb
      rcases mem_cons.mp hb with rfl | hb
      · intro ha
        have hnone := acts_within (M := M) (hp.2 ha (M.step () s b).1) (M.step () s b).2
        exact hnone _ (getElem_mem (Nat.zero_lt_of_lt hlater))
      · exact ih _ (hp.1 _) hlater b hb

/-- A program that fails leaves the store and took no such action. -/
def FailsQuietly (M : Machine F Unit σ) (P : F.Act → Prop) (p : Prog F ε α) : Prop :=
  ∀ s e t, p.exec M s = (.error e,t) → t = s ∧ ∀ a ∈ p.acts M s, ¬P a

section
variable {P : F.Act → Prop} {p : Prog F ε α}

section
variable (hquiet : ∀ s a, ¬P a → (M.step () s a).2 = s)
include hquiet

theorem exec_quiet (hp : p.Within fun a => ¬P a) (s : σ) : (p.exec M s).2 = s := by
  induction p generalizing s with
  | ret a => rfl
  | throw e => rfl
  | act a k ih =>
    have hstep := hquiet s a hp.1
    rw [exec_act,hstep]
    exact ih _ (hp.2 _) s

theorem failsQuietly_bind {f : α → Prog F ε β}
    (hp : p.Within fun a => ¬P a) (hf : ∀ a, (f a).FailsQuietly M P) :
    (p.bind f).FailsQuietly M P := by
  intro s e t hend
  have hstore := exec_quiet hquiet hp s
  have hacts := acts_within (M := M) hp s
  rw [exec_bind] at hend
  rw [acts_bind]
  cases hr : p.exec M s with
  | mk r u =>
    rw [hr] at hend hstore
    obtain rfl : u = s := hstore
    cases r with
    | error e' =>
      cases hend
      exact ⟨rfl,by simpa using hacts⟩
    | ok a =>
      obtain ⟨ht,hrest⟩ := hf a _ e t hend
      refine ⟨ht,fun b hb => ?_⟩
      rcases mem_append.mp hb with hb | hb
      · exact hacts b hb
      · exact hrest b hb

theorem failsQuietly_act {a : F.Act}
    {k : F.Resp a → Prog F ε α} (ha : ¬P a) (hk : ∀ r, (k r).FailsQuietly M P) :
    (act a k).FailsQuietly M P :=
  failsQuietly_bind hquiet (p := .act a .ret) ⟨ha,fun _ => trivial⟩ hk

end

theorem failsQuietly_ret (a : α) : (ret a : Prog F ε α).FailsQuietly M P := by
  intro s e t hend
  cases hend

theorem failsQuietly_throw (e : ε) : (throw e : Prog F ε α).FailsQuietly M P := by
  intro s e t hend
  cases hend
  exact ⟨rfl,fun _ h => absurd h not_mem_nil⟩

theorem failsQuietly_then {f : α → β} (hp : p.FailsQuietly M P) :
    (p.bind fun a => .ret (f a)).FailsQuietly M P := by
  intro s e t hend
  rw [exec_bind] at hend
  rw [acts_bind]
  cases hr : p.exec M s with
  | mk r u =>
    rw [hr] at hend
    cases r with
    | ok a => cases hend
    | error e' =>
      cases hend
      simpa using hp s _ _ hr

end

theorem foldlM_append (f : α → β → Prog F ε α) (xs ys : List β) (a : α) :
    (xs ++ ys).foldlM f a = (xs.foldlM f a).bind fun b => ys.foldlM f b := by
  induction xs generalizing a with
  | nil => rfl
  | cons x xs ih =>
    rw [cons_append,foldlM_cons,foldlM_cons,bind_eq,bind_eq,bind_assoc]
    simp only [ih]

theorem stopped_foldlM (hquiet : ∀ s a, ¬P a → (M.step () s a).2 = s) {f : α → β → Prog F ε α}
    {g : α → Prog F ε γ} (hf : ∀ a x, (f a x).EndsIn P) (hg : ∀ a, (g a).EndsIn P)
    (hfail : ∀ a x, (f a x).FailsQuietly M P) (hfail' : ∀ a, (g a).FailsQuietly M P) (xs : List β)
    (a : α) (s : σ) (k : Nat) :
    let whole := (xs.foldlM f a).bind g
    (∃ n ≤ xs.length, ∃ b, ((xs.take n).foldlM f a).exec M s = (.ok b,whole.stopped M k s) ∧
      ∃ since, (whole.acts M s).take k = ((xs.take n).foldlM f a).acts M s ++ since ∧
        ∀ y ∈ since, ¬P y) ∨
    ∃ c, whole.exec M s = (.ok c,whole.stopped M k s) ∧ (whole.acts M s).take k = whole.acts M s := by
  induction xs generalizing a s k with
  | nil =>
    show (∃ n ≤ 0, ∃ b, _ = (Except.ok b,(g a).stopped M k s) ∧ ∃ since,
      ((g a).acts M s).take k = _ ∧ _) ∨ ∃ c, (g a).exec M s = (.ok c,(g a).stopped M k s) ∧
        ((g a).acts M s).take k = (g a).acts M s
    rcases Nat.lt_or_ge k ((g a).acts M s).length with hlt | hge
    · have hsince := acts_endsIn (M := M) (hg a) hlt
      rw [stopped_quiet hquiet hsince]
      exact Or.inl ⟨0,Nat.le_refl 0,a,rfl,_,rfl,hsince⟩
    · rw [stopped_late hge,take_of_length_le hge]
      cases hend : (g a).exec M s with
      | mk r t =>
        cases r with
        | ok c => exact Or.inr ⟨c,rfl,rfl⟩
        | error e =>
          obtain ⟨rfl,hsince⟩ := hfail' a s e t hend
          exact Or.inl ⟨0,Nat.le_refl 0,a,rfl,_,rfl,hsince⟩
  | cons x xs ih =>
    have hsplit : ((x :: xs).foldlM f a).bind g =
        (f a x).bind fun b => (xs.foldlM f b).bind g := by
      rw [foldlM_cons,bind_eq,bind_assoc]
    simp only [hsplit]
    have hstay : ∀ since t, t = s → (∀ y ∈ since, ¬P y) →
        ∃ n ≤ (x :: xs).length, ∃ b, (((x :: xs).take n).foldlM f a).exec M s = (.ok b,t) ∧
          ∃ since', since = (((x :: xs).take n).foldlM f a).acts M s ++ since' ∧
            ∀ y ∈ since', ¬P y := by
      intro since t ht hsince
      exact ⟨0,Nat.zero_le _,a,by rw [ht]; rfl,since,rfl,hsince⟩
    rcases Nat.lt_or_ge k ((f a x).acts M s).length with hlt | hge
    · left
      have hsince := acts_endsIn (M := M) (hf a x) hlt
      have hle := Nat.le_of_lt hlt
      rw [stopped_bind_early _ _ hle,acts_bind,take_append_of_le_length hle]
      exact hstay _ _ (stopped_quiet hquiet hsince) hsince
    · cases hend : (f a x).exec M s with
      | mk r t =>
        cases r with
        | error e =>
          left
          obtain ⟨ht,hsince⟩ := hfail a x s e t hend
          have hacts : ((f a x).bind fun b => (xs.foldlM f b).bind g).acts M s =
              (f a x).acts M s := by
            rw [acts_bind,hend,append_nil]
          rw [stopped_late (by rw [hacts]; exact hge),hacts,take_of_length_le hge,exec_bind,hend]
          exact hstay _ _ ht hsince
        | ok b =>
          obtain ⟨later,rfl⟩ := Nat.exists_eq_add_of_le hge
          rw [stopped_bind_late _ hend,acts_bind,hend,take_length_add_append,exec_bind,hend]
          have hfirst : ∀ n, ((x :: xs).take (n+1)).foldlM f a =
              (f a x).bind fun b => (xs.take n).foldlM f b := fun n => by
            rw [take_succ_cons,foldlM_cons,bind_eq]
          rcases ih b t later with ⟨n,hn,b',hexec,since,hsince,hquiet'⟩ | ⟨c,hexec,hall⟩
          · left
            refine ⟨n+1,Nat.succ_le_succ hn,b',?_,since,?_,hquiet'⟩
            · rw [hfirst,exec_bind,hend]
              exact hexec
            · rw [hfirst,acts_bind,hend,hsince,append_assoc]
          · right
            exact ⟨c,hexec,by rw [hall]⟩

def report (M : Machine F Unit σ) (look : σ → τ) (view : α → γ) (pick : F.Act → Option δ)
    (p : Prog F ε α) (s : σ) : Except ε γ × τ × List δ :=
  ((p.exec M s).1.map view,look (p.exec M s).2,(p.acts M s).filterMap pick)

variable {look : σ → τ} {pick : F.Act → Option δ}

theorem report_bind (view : α → γ) {view' : β → ζ} {q : Prog F ε α} {f g : α → Prog F ε β}
    (h : p.report M look view pick s = q.report M look view pick t)
    (hfg : ∀ a b u v, view a = view b → look u = look v →
      (f a).report M look view' pick u = (g b).report M look view' pick v) :
    (p.bind f).report M look view' pick s = (q.bind g).report M look view' pick t := by
  simp only [report,Prod.mk.injEq] at h
  simp only [report,exec_bind,acts_bind,filterMap_append]
  cases hp : p.exec M s with
  | mk r s' =>
    cases hq : q.exec M t with
    | mk r' t' =>
      rw [hp,hq] at h
      obtain ⟨hr,hlook,hacts⟩ := h
      cases r with
      | error e =>
        cases r' with
        | ok b => cases hr
        | error e' =>
          cases hr
          exact Prod.ext rfl (Prod.ext hlook (by simpa using hacts))
      | ok a =>
        cases r' with
        | error e' => cases hr
        | ok b =>
          have hrest := hfg a b s' t' (Except.ok.inj hr) hlook
          simp only [report,Prod.mk.injEq] at hrest
          exact Prod.ext hrest.1 (Prod.ext hrest.2.1 (by simp only [hacts,hrest.2.2]))

variable {view : α → γ}

theorem report_act {a : F.Act} {k k' : F.Resp a → Prog F ε α}
    (hanswer : (M.step () s a).1 = (M.step () t a).1)
    (h : (k (M.step () t a).1).report M look view pick (M.step () s a).2 =
      (k' (M.step () t a).1).report M look view pick (M.step () t a).2) :
    (act a k).report M look view pick s = (act a k').report M look view pick t := by
  simp only [report,Prod.mk.injEq] at h
  simp only [report,exec_act,acts_act,filterMap_cons,hanswer,h.1,h.2.1,h.2.2]

theorem report_ret (hview : view a = view b) (hlook : look s = look t) :
    (ret a : Prog F ε α).report M look view pick s = (ret b).report M look view pick t := by
  simp only [report,exec_ret,acts_ret,Except.map,hview,hlook]

theorem report_throw (e : ε) (hlook : look s = look t) :
    (throw e : Prog F ε α).report M look view pick s = (throw e).report M look view pick t := by
  simp only [report,exec_throw,acts_throw,hlook]

theorem report_foldlM {f g : α → β → Prog F ε α} {xs : List β}
    (h : ∀ x ∈ xs, ∀ a b u v, view a = view b → look u = look v →
      (f a x).report M look view pick u = (g b x).report M look view pick v)
    (hview : view a = view b) (hlook : look s = look t) :
    (xs.foldlM f a).report M look view pick s = (xs.foldlM g b).report M look view pick t := by
  induction xs generalizing a b s t with
  | nil => exact report_ret hview hlook
  | cons x xs ih =>
    rw [foldlM_cons,foldlM_cons,bind_eq,bind_eq]
    refine report_bind view (h x mem_cons_self a b s t hview hlook) ?_
    intro a' b' u v hview' hlook'
    exact ih (fun y hy => h y (mem_cons_of_mem _ hy)) hview' hlook'

end ProjectOS.Lib.Prog
