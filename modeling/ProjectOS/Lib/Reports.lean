import ProjectOS.Lib.Pool

/-! What operations report. An operation that is assured of its outcome where
it starts reports no other, whatever runs beside it. -/

namespace ProjectOS.Lib

theorem Prog.assured_ended {F : Interface} {ε α ι σ : Type} {M : Machine F ι σ}
    {D : Discipline F ι σ} {Q : Except ε α → σ → Prop} {p : Prog F ε α} {r : Except ε α} {s : σ}
    (hp : p.ended = some r) (h : p.Assured M D Q s) : Q r s := by
  cases p with
  | ret | throw =>
    cases hp
    exact h
  | act a k => cases hp

namespace Pool
variable {F : Interface} {Op ε α ι σ : Type}

/-- The invariant holds, and every program under way is assured of the outcome
of its operation. -/
structure SoundFor (M : Machine F ι σ) (D : Discipline F ι σ) (Q : Op → Except ε α → σ → Prop)
    (c : Pool F Op ε α σ) : Prop where
  inv : D.inv c.store
  thread : ∀ i op p, c.threads i = some (op,p) → p.Assured M D (Q op) c.store

variable {M : Machine F ι σ} {D : Discipline F ι σ} {code : Op → Prog F ε α}
  {Q : Op → Except ε α → σ → Prop}

theorem fresh_soundFor {s : σ} (h : D.inv s) : SoundFor M D Q (fresh s : Pool F Op ε α σ) :=
  ⟨h,fun i op p hp => by simp [fresh] at hp⟩

variable {c : Pool F Op ε α σ}

theorem SoundFor.setThread (hQ : ∀ op r s t, D.rely s t → Q op r s → Q op r t)
    {s : σ} {i : Nat} {t : Option (Op × Prog F ε α)}
    (h : SoundFor M D Q c) (hs : D.inv s) (hrel : D.rely c.store s)
    (ht : ∀ op p, t = some (op,p) → p.Assured M D (Q op) s) :
    SoundFor M D Q (c.setThread s i t) := by
  refine ⟨hs,?_⟩
  intro j op p hj
  by_cases hij : j = i
  · subst hij
    exact ht op p (by simpa [Pool.setThread] using hj)
  · refine Prog.assured_later (hQ op) (h.thread j op p ?_) hrel
    simpa [Pool.setThread,hij] using hj

variable {t : Turn Op ι}

theorem turn_soundFor (hU : Upheld M D) (hQ : ∀ op r s t, D.rely s t → Q op r s → Q op r t)
    (hcode : ∀ op s, D.inv s → (code op).Assured M D (Q op) s)
    (h : SoundFor M D Q c) (ht : Acts D.given c t) :
    SoundFor M D Q (c.turn M code t) ∧ D.rely c.store (c.turn M code t).store ∧
      ∀ op r, report M code c t = some (op,r) → Q op r (c.turn M code t).store := by
  cases t with
  | start i op =>
    refine ⟨h.setThread hQ h.inv (D.refl _) ?_,D.refl _,?_⟩
    · intro op' p hp
      obtain ⟨rfl,rfl⟩ : op = op' ∧ code op = p := by simpa using hp
      exact hcode op c.store h.inv
    · intro op' r hr
      rcases report_some hr with ⟨j,hj,hended⟩ | ⟨j,x,a,k,hj,-⟩
      · cases hj
        exact Prog.assured_ended hended (hcode op c.store h.inv)
      · cases hj
  | lose i =>
    refine ⟨h.setThread hQ h.inv (D.refl _) (fun op p hp => by simp at hp),D.refl _,?_⟩
    intro op r hr
    simp [report] at hr
  | act i x =>
    cases hi : c.threads i with
    | none =>
      simp only [turn,hi]
      exact ⟨h,D.refl _,fun op r hr => by simp [report,hi] at hr⟩
    | some th =>
      obtain ⟨op,p⟩ := th
      cases p with
      | ret | throw =>
        simp only [turn,hi]
        exact ⟨h,D.refl _,fun op r hr => by simp [report,hi] at hr⟩
      | act a k =>
        have hok : D.given x c.store a := by simpa [Acts,hi] using ht
        obtain ⟨hmay,hk⟩ := h.thread i op _ hi c.store (D.refl _) h.inv
        obtain ⟨hinv,hrel⟩ := hU x c.store a h.inv hmay hok
        have hnext := hk x hok hinv hrel
        simp only [turn,hi]
        refine ⟨h.setThread hQ hinv hrel ?_,hrel,?_⟩
        · intro op' p hp
          obtain ⟨rfl,rfl⟩ : op = op' ∧ k (M.step x c.store a).1 = p := by simpa using hp
          exact hnext
        · intro op' r hr
          simp only [report,hi] at hr
          obtain ⟨r',hended,heq⟩ := Option.map_eq_some_iff.mp hr
          cases heq
          exact Prog.assured_ended hended hnext

variable {ts : List (Turn Op ι)}

theorem turns_soundFor (hU : Upheld M D) (hQ : ∀ op r s t, D.rely s t → Q op r s → Q op r t)
    (hcode : ∀ op s, D.inv s → (code op).Assured M D (Q op) s)
    (h : SoundFor M D Q c) (hts : Along M code D.given c ts) :
    SoundFor M D Q (c.turns M code ts) ∧ D.rely c.store (c.turns M code ts).store ∧
      ∀ x ∈ reports M code c ts, Q x.1 x.2 (c.turns M code ts).store := by
  induction ts generalizing c with
  | nil => exact ⟨h,D.refl _,fun x hx => by simp [reports] at hx⟩
  | cons t ts ih =>
    obtain ⟨h₁,hr₁,hq₁⟩ := turn_soundFor hU hQ hcode h hts.1
    obtain ⟨h₂,hr₂,hq₂⟩ := ih h₁ hts.2
    refine ⟨h₂,D.trans _ _ _ hr₁ hr₂,?_⟩
    intro x hx
    simp only [reports,List.mem_append,Option.mem_toList] at hx
    rcases hx with hx | hx
    · exact hQ _ _ _ _ hr₂ (hq₁ x.1 x.2 hx)
    · exact hq₂ x hx

theorem report_soundFor (hU : Upheld M D) (hQ : ∀ op r s t, D.rely s t → Q op r s → Q op r t)
    (hcode : ∀ op s, D.inv s → (code op).Assured M D (Q op) s) (h : SoundFor M D Q c)
    (hts : Along M code D.given c (ts ++ [t])) {op : Op} {r : Except ε α}
    (hr : report M code (c.turns M code ts) t = some (op,r)) :
    Q op r ((c.turns M code ts).turn M code t).store := by
  obtain ⟨hbefore,ht⟩ := along_append hts
  have hthere := (turns_soundFor hU hQ hcode h hbefore).1
  exact (turn_soundFor hU hQ hcode hthere ht.1).2.2 op r hr

end Pool
end ProjectOS.Lib
