import ProjectOS.Lib.Footprint

/-! Programs running side by side over one store. A slot takes its actions
whenever the scheduler says so, and may be lost between any two of them. -/

namespace ProjectOS.Lib

structure Pool (F : Interface) (Op ε α σ : Type) where
  store : σ
  threads : Nat → Option (Op × Prog F ε α)

/-- The scheduler's choices: start an operation in a slot, step a slot, or lose it,
as a crash does. -/
inductive Turn (Op ι : Type) where
  | start (slot : Nat) (op : Op)
  | act (slot : Nat) (input : ι)
  | lose (slot : Nat)

def Prog.ended {F : Interface} {ε α : Type} : Prog F ε α → Option (Except ε α)
  | .ret a => some (.ok a)
  | .throw e => some (.error e)
  | .act _ _ => none

namespace Pool
variable {F : Interface} {Op ε α ι σ : Type}

def fresh (s : σ) : Pool F Op ε α σ := ⟨s,fun _ => none⟩

def setThread (c : Pool F Op ε α σ) (s : σ) (i : Nat) (t : Option (Op × Prog F ε α)) :
    Pool F Op ε α σ := ⟨s,Function.update c.threads i t⟩

def turn (M : Machine F ι σ) (code : Op → Prog F ε α) (c : Pool F Op ε α σ) :
    Turn Op ι → Pool F Op ε α σ
  | .start i op => c.setThread c.store i (some (op,code op))
  | .act i x =>
    match c.threads i with
    | some (op,.act a k) =>
      c.setThread (M.step x c.store a).2 i (some (op,k (M.step x c.store a).1))
    | _ => c
  | .lose i => c.setThread c.store i none

def turns (M : Machine F ι σ) (code : Op → Prog F ε α) (c : Pool F Op ε α σ)
    (ts : List (Turn Op ι)) : Pool F Op ε α σ := ts.foldl (turn M code) c

def report (M : Machine F ι σ) (code : Op → Prog F ε α) (c : Pool F Op ε α σ) :
    Turn Op ι → Option (Op × Except ε α)
  | .start _ op => (code op).ended.map fun r => (op,r)
  | .act i x =>
    match c.threads i with
    | some (op,.act a k) => (k (M.step x c.store a).1).ended.map fun r => (op,r)
    | _ => none
  | .lose _ => none

def reports (M : Machine F ι σ) (code : Op → Prog F ε α) :
    Pool F Op ε α σ → List (Turn Op ι) → List (Op × Except ε α)
  | _, [] => []
  | c, t :: ts => (report M code c t).toList ++ reports M code (c.turn M code t) ts

def action (c : Pool F Op ε α σ) : Turn Op ι → Option F.Act
  | .act i _ =>
    match c.threads i with
    | some (_,.act a _) => some a
    | _ => none
  | _ => none

def taken (M : Machine F ι σ) (code : Op → Prog F ε α) :
    Pool F Op ε α σ → List (Turn Op ι) → List F.Act
  | _, [] => []
  | c, t :: ts => (action c t).toList ++ taken M code (c.turn M code t) ts

def Formed (P : Op → Prog F ε α → Prop) (c : Pool F Op ε α σ) : Prop :=
  ∀ i op p, c.threads i = some (op,p) → P op p

def Acts (ok : ι → σ → F.Act → Prop) (c : Pool F Op ε α σ) : Turn Op ι → Prop
  | .act i x =>
    match c.threads i with
    | some (_,.act a _) => ok x c.store a
    | _ => True
  | _ => True

def Along (M : Machine F ι σ) (code : Op → Prog F ε α) (ok : ι → σ → F.Act → Prop) :
    Pool F Op ε α σ → List (Turn Op ι) → Prop
  | _, [] => True
  | c, t :: ts => Acts ok c t ∧ Along M code ok (c.turn M code t) ts

instance {ok : ι → σ → F.Act → Prop} [∀ x s a, Decidable (ok x s a)] (c : Pool F Op ε α σ) :
    (t : Turn Op ι) → Decidable (Acts ok c t)
  | .start _ _
  | .lose _ => isTrue trivial
  | .act i x =>
    match h : c.threads i with
    | some (_,.act a _) => decidable_of_iff (ok x c.store a) (by simp [Acts,h])
    | some (_,.ret _)
    | some (_,.throw _)
    | none => isTrue (by simp [Acts,h])

instance decidableAlong {M : Machine F ι σ} {code : Op → Prog F ε α} {ok : ι → σ → F.Act → Prop}
    [∀ x s a, Decidable (ok x s a)] (c : Pool F Op ε α σ) :
    (ts : List (Turn Op ι)) → Decidable (Along M code ok c ts)
  | [] => isTrue trivial
  | t :: ts => @instDecidableAnd _ _ _ (decidableAlong (c.turn M code t) ts)

variable {M : Machine F ι σ} {code : Op → Prog F ε α}

theorem turns_append (c : Pool F Op ε α σ) (ts us : List (Turn Op ι)) :
    c.turns M code (ts ++ us) = (c.turns M code ts).turns M code us := List.foldl_append ..

variable {c : Pool F Op ε α σ} {ok : ι → σ → F.Act → Prop}

theorem along_of_free (hok : ∀ x s a, ok x s a) {ts : List (Turn Op ι)} : Along M code ok c ts := by
  induction ts generalizing c with
  | nil => trivial
  | cons t ts ih =>
    refine ⟨?_,ih⟩
    cases t with
    | act i x =>
      simp only [Acts]
      split
      · exact hok _ _ _
      · trivial
    | _ => trivial

theorem along_append {ts us : List (Turn Op ι)} (h : Along M code ok c (ts ++ us)) :
    Along M code ok c ts ∧ Along M code ok (c.turns M code ts) us := by
  induction ts generalizing c with
  | nil => exact ⟨trivial,h⟩
  | cons t ts ih =>
    obtain ⟨h₁,h₂⟩ := ih h.2
    exact ⟨⟨h.1,h₁⟩,h₂⟩

theorem turn_store (M : Machine F ι σ) (code : Op → Prog F ε α) (c : Pool F Op ε α σ)
    (t : Turn Op ι) :
    (c.turn M code t).store = c.store ∨
      ∃ i x op a k, t = .act i x ∧ c.threads i = some (op,.act a k) ∧
        (c.turn M code t).store = (M.step x c.store a).2 := by
  cases t with
  | start | lose => exact Or.inl rfl
  | act i x =>
    cases h : c.threads i with
    | none => exact Or.inl (by simp [turn,h])
    | some t =>
      obtain ⟨op,p⟩ := t
      cases p with
      | ret | throw => exact Or.inl (by simp [turn,h])
      | act a k => exact Or.inr ⟨i,x,op,a,k,rfl,h,by simp [turn,h,setThread]⟩

theorem fresh_formed (P : Op → Prog F ε α → Prop) (s : σ) :
    Formed P (fresh s : Pool F Op ε α σ) := fun i op p h => by simp [fresh] at h

variable {P : Op → Prog F ε α → Prop}

theorem Formed.setThread {s : σ} {i : Nat} {t : Option (Op × Prog F ε α)} (h : Formed P c)
    (ht : ∀ op p, t = some (op,p) → P op p) : Formed P (c.setThread s i t) := by
  intro j op p hj
  by_cases hij : j = i
  · subst hij
    exact ht op p (by simpa [Pool.setThread] using hj)
  · exact h j op p (by simpa [Pool.setThread,hij] using hj)

theorem turn_formed (hcode : ∀ op, P op (code op))
    (hnext : ∀ op a k, P op (.act a k) → ∀ r, P op (k r)) (h : Formed P c) (t : Turn Op ι) :
    Formed P (c.turn M code t) := by
  cases t with
  | start i op =>
    refine h.setThread ?_
    intro op' p hp
    obtain ⟨rfl,rfl⟩ : op = op' ∧ code op = p := by simpa using hp
    exact hcode op
  | lose i => exact h.setThread (fun op p hp => by simp at hp)
  | act i x =>
    cases hi : c.threads i with
    | none =>
      simp only [turn,hi]
      exact h
    | some th =>
      obtain ⟨op,p⟩ := th
      cases p with
      | ret | throw =>
        simp only [turn,hi]
        exact h
      | act a k =>
        simp only [turn,hi]
        refine h.setThread ?_
        intro op' p hp
        obtain ⟨rfl,rfl⟩ : op = op' ∧ k (M.step x c.store a).1 = p := by simpa using hp
        exact hnext op a k (h i op _ hi) _

theorem turns_formed (hcode : ∀ op, P op (code op))
    (hnext : ∀ op a k, P op (.act a k) → ∀ r, P op (k r)) (h : Formed P c) (ts : List (Turn Op ι)) :
    Formed P (c.turns M code ts) := by
  induction ts generalizing c with
  | nil => exact h
  | cons t ts ih => exact ih (turn_formed hcode hnext h t)

theorem report_some {t : Turn Op ι} {op : Op} {r : Except ε α}
    (h : report M code c t = some (op,r)) :
    (∃ i, t = .start i op ∧ (code op).ended = some r) ∨
      ∃ i x a k, t = .act i x ∧ c.threads i = some (op,.act a k) ∧
        (k (M.step x c.store a).1).ended = some r := by
  cases t with
  | lose i => simp [report] at h
  | start i op' =>
    obtain ⟨r',hr,heq⟩ := Option.map_eq_some_iff.mp h
    cases heq
    exact Or.inl ⟨i,rfl,hr⟩
  | act i x =>
    cases hi : c.threads i with
    | none => simp [report,hi] at h
    | some th =>
      obtain ⟨op',p⟩ := th
      cases p with
      | ret | throw => simp [report,hi] at h
      | act a k =>
        simp only [report,hi] at h
        obtain ⟨r',hr,heq⟩ := Option.map_eq_some_iff.mp h
        cases heq
        exact Or.inr ⟨i,x,a,k,rfl,hi,hr⟩

theorem turns_related {R : σ → σ → Prop} (hrefl : ∀ s, R s s)
    (htrans : ∀ s t u, R s t → R t u → R s u) (hstep : ∀ x s a, R s (M.step x s a).2)
    (c : Pool F Op ε α σ) (ts : List (Turn Op ι)) : R c.store (c.turns M code ts).store := by
  induction ts generalizing c with
  | nil => exact hrefl _
  | cons t ts ih =>
    refine htrans _ _ _ ?_ (ih (c.turn M code t))
    rcases turn_store M code c t with hs | ⟨i,x,op,a,k,-,-,hs⟩
    · rw [hs]
      exact hrefl _
    · rw [hs]
      exact hstep x c.store a

end Pool

/-- What the programs of a pool may count on: an invariant, a relation between a
store and every later one, what is given of a run's actions and what an action may
be. -/
structure Discipline (F : Interface) (ι σ : Type) where
  inv : σ → Prop
  rely : σ → σ → Prop
  given : ι → σ → F.Act → Prop
  may : σ → F.Act → Prop
  refl : ∀ s, rely s s
  trans : ∀ s t u, rely s t → rely t u → rely s u

namespace Prog
variable {F : Interface} {ε ε' α β ι σ : Type}

/-- In its discipline the program comes out well, whatever the others do. -/
def Assured (M : Machine F ι σ) (D : Discipline F ι σ) (Q : Except ε α → σ → Prop) :
    Prog F ε α → σ → Prop
  | .ret a, s => Q (.ok a) s
  | .throw e, s => Q (.error e) s
  | .act a k, s => ∀ t, D.rely s t → D.inv t → D.may t a ∧
      ∀ x, D.given x t a → D.inv (M.step x t a).2 → D.rely t (M.step x t a).2 →
        Assured M D Q (k (M.step x t a).1) (M.step x t a).2

def anyOutcome : Except ε α → σ → Prop := fun _ _ => True

variable {M : Machine F ι σ} {D : Discipline F ι σ}
variable {Q : Except ε α → σ → Prop} {p : Prog F ε α} {s : σ}

theorem assured_later (hQ : ∀ r s t, D.rely s t → Q r s → Q r t) {t : σ} (h : p.Assured M D Q s)
    (hst : D.rely s t) : p.Assured M D Q t := by
  cases p with
  | ret | throw => exact hQ _ _ _ hst h
  | act a k => exact fun u htu hu => h u (D.trans _ _ _ hst htu) hu

theorem assured_mono {R : Except ε α → σ → Prop} (hQR : ∀ r s, Q r s → R r s)
    (h : p.Assured M D Q s) : p.Assured M D R s := by
  induction p generalizing s with
  | ret | throw => exact hQR _ _ h
  | act a k ih =>
    intro t hst ht
    obtain ⟨hmay,hk⟩ := h t hst ht
    exact ⟨hmay,fun x hg hi hr => ih _ (hk x hg hi hr)⟩

theorem assured_bind {Q : Except ε β → σ → Prop} {f : α → Prog F ε β}
    (h : p.Assured M D (fun r t => match r with
      | .ok a => (f a).Assured M D Q t
      | .error e => Q (.error e) t) s) : (p.bind f).Assured M D Q s := by
  induction p generalizing s with
  | ret | throw => exact h
  | act a k ih =>
    intro t hst ht
    obtain ⟨hmay,hk⟩ := h t hst ht
    exact ⟨hmay,fun x hg hi hr => ih _ (hk x hg hi hr)⟩

theorem assured_attempt {Q : Except ε' (Except ε α) → σ → Prop}
    (h : p.Assured M D (fun r => Q (.ok r)) s) : p.attempt.Assured M D Q s := by
  induction p generalizing s with
  | ret | throw => exact h
  | act a k ih =>
    intro t hst ht
    obtain ⟨hmay,hk⟩ := h t hst ht
    exact ⟨hmay,fun x hg hi hr => ih _ (hk x hg hi hr)⟩

theorem assured_mapError {f : ε → ε'} {Q : Except ε' α → σ → Prop}
    (h : p.Assured M D (fun r => Q (r.mapError f)) s) : (p.mapError f).Assured M D Q s := by
  induction p generalizing s with
  | ret | throw => exact h
  | act a k ih =>
    intro t hst ht
    obtain ⟨hmay,hk⟩ := h t hst ht
    exact ⟨hmay,fun x hg hi hr => ih _ (hk x hg hi hr)⟩

theorem assured_foldlM {J : σ → Prop} (xs : List β) (f : α → β → Prog F ε α)
    (hf : ∀ c, ∀ x ∈ xs, ∀ s, J s → (f c x).Assured M D (fun _ t => J t) s) (c : α) (hs : J s) :
    (xs.foldlM f c).Assured M D (fun _ t => J t) s := by
  induction xs generalizing c s with
  | nil => exact hs
  | cons x xs ih =>
    rw [List.foldlM_cons]
    refine assured_bind (assured_mono ?_ (hf c x (by simp) s hs))
    intro r t ht
    cases r with
    | ok d => exact ih (fun c y hy => hf c y (List.mem_cons_of_mem _ hy)) d ht
    | error e => exact ht

theorem assured_rely (h : p.Assured M D Q s) : p.Assured M D (fun r t => Q r t ∧ D.rely s t) s := by
  suffices hlater : ∀ t, D.rely s t → p.Assured M D Q t →
      p.Assured M D (fun r u => Q r u ∧ D.rely s u) t from hlater s (D.refl s) h
  clear h
  induction p with
  | ret | throw => exact fun t hst h => ⟨h,hst⟩
  | act a k ih =>
    intro t hst h u htu hu
    obtain ⟨hmay,hk⟩ := h u htu hu
    have hsu := D.trans _ _ _ hst htu
    exact ⟨hmay,fun x hg hi hr => ih _ _ (D.trans _ _ _ hsu hr) (hk x hg hi hr)⟩

variable {P : F.Act → Prop}

theorem assured_within (hp : p.Within P) (hmay : ∀ t, D.rely s t → D.inv t → ∀ a, P a → D.may t a) :
    p.Assured M D (fun _ t => D.rely s t) s := by
  suffices h : ∀ t, D.rely s t → p.Assured M D (fun _ t => D.rely s t) t from h s (D.refl s)
  induction p with
  | ret | throw => exact fun t ht => ht
  | act a k ih =>
    intro t hst u htu hu
    have hsu := D.trans _ _ _ hst htu
    refine ⟨hmay u hsu hu a hp.1,?_⟩
    intro x _ _ hr
    exact ih _ (hp.2 _) _ (D.trans _ _ _ hsu hr)

theorem assured_yields {P : α → Prop} (hp : p.Yields P) (h : p.Assured M D Q s) :
    p.Assured M D (fun r t => Q r t ∧ ∀ a, r = .ok a → P a) s := by
  induction p generalizing s with
  | ret a =>
    refine ⟨h,?_⟩
    intro b hb
    cases hb
    exact hp
  | throw e => exact ⟨h,fun _ hb => by cases hb⟩
  | act a k ih =>
    intro t hst ht
    obtain ⟨hmay,hk⟩ := h t hst ht
    exact ⟨hmay,fun x hg hi hr => ih _ (hp _) (hk x hg hi hr)⟩

theorem assured_throws {E : ε → Prop} (hp : p.Throws E) (h : p.Assured M D Q s) :
    p.Assured M D (fun r t => Q r t ∧ ∀ e, r = .error e → E e) s := by
  induction p generalizing s with
  | ret a => exact ⟨h,fun _ he => by cases he⟩
  | throw e =>
    refine ⟨h,?_⟩
    intro e' he
    cases he
    exact hp
  | act a k ih =>
    intro t hst ht
    obtain ⟨hmay,hk⟩ := h t hst ht
    exact ⟨hmay,fun x hg hi hr => ih _ (hp _) (hk x hg hi hr)⟩

theorem assured_narrow {D' : Discipline F ι σ}
    (hrely : ∀ s t, D'.rely s t → D.rely s t) (hinv : ∀ s, D'.inv s → D.inv s)
    (hgiven : ∀ x s a, D'.given x s a → D.given x s a)
    (hmay : ∀ s a, D'.inv s → D.may s a → P a → D'.may s a) (hp : p.Within P)
    (h : p.Assured M D Q s) : p.Assured M D' Q s := by
  induction p generalizing s with
  | ret | throw => exact h
  | act a k ih =>
    intro t hst ht
    obtain ⟨ha,hk⟩ := h t (hrely s t hst) (hinv t ht)
    refine ⟨hmay t a ht ha hp.1,fun x hg hi hr => ih _ (hp.2 _) ?_⟩
    exact hk x (hgiven x t a hg) (hinv _ hi) (hrely _ _ hr)

end Prog

namespace Pool
variable {F : Interface} {Op ε α ι σ : Type}

def Upheld (M : Machine F ι σ) (D : Discipline F ι σ) : Prop :=
  ∀ x s a, D.inv s → D.may s a → D.given x s a →
    D.inv (M.step x s a).2 ∧ D.rely s (M.step x s a).2

/-- The store keeps its invariant, and what is left of each thread is assured. -/
structure Sound (M : Machine F ι σ) (D : Discipline F ι σ) (c : Pool F Op ε α σ) : Prop where
  inv : D.inv c.store
  thread : ∀ i op p, c.threads i = some (op,p) → p.Assured M D Prog.anyOutcome c.store

variable {M : Machine F ι σ} {D : Discipline F ι σ} {code : Op → Prog F ε α}

theorem fresh_sound {s : σ} (h : D.inv s) :
    Sound M D (fresh s : Pool F Op ε α σ) := ⟨h,fun i op p hp => by simp [fresh] at hp⟩

variable {c : Pool F Op ε α σ}

theorem Sound.setThread {s : σ} {i : Nat} {t : Option (Op × Prog F ε α)} (h : Sound M D c)
    (hs : D.inv s) (hrel : D.rely c.store s)
    (ht : ∀ op p, t = some (op,p) → p.Assured M D Prog.anyOutcome s) :
    Sound M D (c.setThread s i t) := by
  refine ⟨hs,?_⟩
  intro j op p hj
  by_cases hij : j = i
  · subst hij
    exact ht op p (by simpa [Pool.setThread] using hj)
  · refine Prog.assured_later (fun _ _ _ _ _ => trivial) (h.thread j op p ?_) hrel
    simpa [Pool.setThread,hij] using hj

variable {a : F.Act}

theorem Sound.may (h : Sound M D c) {i : Nat} {op : Op} {k : F.Resp a → Prog F ε α}
    (hi : c.threads i = some (op,.act a k)) : D.may c.store a :=
  (h.thread i op _ hi c.store (D.refl _) h.inv).1

theorem turn_sound (hU : Upheld M D)
    (hcode : ∀ op s, D.inv s → (code op).Assured M D Prog.anyOutcome s) {c : Pool F Op ε α σ}
    {t : Turn Op ι} (h : Sound M D c) (ht : Acts D.given c t) :
    Sound M D (c.turn M code t) ∧ D.rely c.store (c.turn M code t).store := by
  cases t with
  | start i op =>
    refine ⟨h.setThread h.inv (D.refl _) ?_,D.refl _⟩
    intro op' p hp
    obtain ⟨-,rfl⟩ : op = op' ∧ code op = p := by simpa using hp
    exact hcode op c.store h.inv
  | lose i => exact ⟨h.setThread h.inv (D.refl _) (fun op p hp => by simp at hp),D.refl _⟩
  | act i x =>
    cases hi : c.threads i with
    | none =>
      simp only [turn,hi]
      exact ⟨h,D.refl _⟩
    | some th =>
      obtain ⟨op,p⟩ := th
      cases p with
      | ret | throw =>
        simp only [turn,hi]
        exact ⟨h,D.refl _⟩
      | act a k =>
        have hok : D.given x c.store a := by simpa [Acts,hi] using ht
        obtain ⟨hinv,hrel⟩ := hU x c.store a h.inv (h.may hi) hok
        simp only [turn,hi]
        refine ⟨h.setThread hinv hrel ?_,hrel⟩
        intro op' p hp
        obtain ⟨-,rfl⟩ : op = op' ∧ k (M.step x c.store a).1 = p := by simpa using hp
        exact (h.thread i op _ hi c.store (D.refl _) h.inv).2 x hok hinv hrel

variable {ts : List (Turn Op ι)}

theorem turns_sound (hU : Upheld M D)
    (hcode : ∀ op s, D.inv s → (code op).Assured M D Prog.anyOutcome s) {c : Pool F Op ε α σ}
    (h : Sound M D c) (hts : Along M code D.given c ts) :
    Sound M D (c.turns M code ts) ∧ D.rely c.store (c.turns M code ts).store := by
  induction ts generalizing c with
  | nil => exact ⟨h,D.refl _⟩
  | cons t ts ih =>
    obtain ⟨h₁,hr₁⟩ := turn_sound hU hcode h hts.1
    obtain ⟨h₂,hr₂⟩ := ih h₁ hts.2
    exact ⟨h₂,D.trans _ _ _ hr₁ hr₂⟩

theorem action_may (h : Sound M D c) {t : Turn Op ι} (ha : action c t = some a) :
    D.may c.store a := by
  cases t with
  | start | lose => simp [action] at ha
  | act i x =>
    cases hi : c.threads i with
    | none => simp [action,hi] at ha
    | some th =>
      obtain ⟨op,p⟩ := th
      cases p with
      | ret | throw => simp [action,hi] at ha
      | act b k =>
        obtain rfl : b = a := by simpa [action,hi] using ha
        exact h.may hi

theorem taken_may (hU : Upheld M D)
    (hcode : ∀ op s, D.inv s → (code op).Assured M D Prog.anyOutcome s) {c : Pool F Op ε α σ}
    (h : Sound M D c) (hts : Along M code D.given c ts) (ha : a ∈ taken M code c ts) :
    ∃ s, D.may s a ∧ D.rely s (c.turns M code ts).store := by
  induction ts generalizing c with
  | nil => simp [taken] at ha
  | cons t ts ih =>
    obtain ⟨h₁,hr₁⟩ := turn_sound hU hcode h hts.1
    obtain ⟨-,hr₂⟩ := turns_sound hU hcode h₁ hts.2
    simp only [taken,List.mem_append,Option.mem_toList] at ha
    rcases ha with ha | ha
    · exact ⟨c.store,action_may h ha,D.trans _ _ _ hr₁ hr₂⟩
    · exact ih h₁ hts.2 ha

end Pool
end ProjectOS.Lib
