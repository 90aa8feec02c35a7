import ProjectOS.Lib.Assertion

/-! One program by itself. Where whole operations are the steps of a larger
system, each is run from start to end with nobody between its reads and its
append. -/

namespace ProjectOS.Lib.Optimistic
variable {S : Signature} {Op ε α β σ : Type}

/-- What the world decides while a program runs: clock readings and refused
writes, in order. -/
structure Weather (S : Signature) where
  clock : List Nat
  refused : List (Option S.Fault)

def alone (D : Store S σ) : OptProg S ε α → σ → Weather S → Except ε α × σ × Weather S
  | .ret a, s, w => (.ok a,s,w)
  | .throw e, s, w => (.error e,s,w)
  | .act (.query q) k, s, w => alone D (k (D.answer s q)) s w
  | .act .now k, s, w => alone D (k (w.clock.headD 0)) s { w with clock := w.clock.tail }
  | .act (.append b) k, s, w =>
    let out := appendAt D s (D.head s) b (w.refused.headD none)
    alone D (k out.1) out.2 { w with refused := w.refused.tail }

def storeAfter (D : Store S σ) (p : OptProg S ε α) (s : σ) (w : Weather S) : σ :=
  (alone D p s w).2.1

variable {D : Store S σ} {s s' : σ} {w w' : Weather S}

theorem alone_bind (p : OptProg S ε α) (f : α → OptProg S ε β) (s : σ) (w : Weather S) :
    alone D (p.bind f) s w =
      match alone D p s w with
      | (.ok a,s',w') => alone D (f a) s' w'
      | (.error e,s',w') => (.error e,s',w') := by
  induction p generalizing s w with
  | ret a => rfl
  | throw e => rfl
  | act a k ih =>
    cases a with
    | query | now | append => exact ih _ _ _

theorem alone_query (q : S.Query) (f : S.Answer q → OptProg S ε β) (s : σ) (w : Weather S) :
    alone D (Prog.bind (.act (F := optIface S) (.query q) .ret) f) s w =
      alone D (f (D.answer s q)) s w := rfl

variable {p : OptProg S ε α}

theorem alone_bind_ok {f : α → OptProg S ε β} {b : β} (h : alone D (p.bind f) s w = (.ok b,s',w')) :
    ∃ a s₁ w₁, alone D p s w = (.ok a,s₁,w₁) ∧ alone D (f a) s₁ w₁ = (.ok b,s',w') := by
  rw [alone_bind] at h
  split at h
  · rename_i a s₁ w₁ hp
    exact ⟨a,s₁,w₁,hp,h⟩
  · cases h

theorem alone_append {b : S.Batch} {k : Except (AppendError S.Fault) Unit → OptProg S ε α}
    {r : Except ε α} (h : alone D (.act (.append b) k) s w = (r,s',w')) :
    (∃ s₁ w₁, D.apply s b = .ok s₁ ∧ alone D (k (.ok ())) s₁ w₁ = (r,s',w')) ∨
      ∃ f w₁, alone D (k (.error (.fault f))) s w₁ = (r,s',w') := by
  simp only [alone,appendAt,if_true] at h
  cases hrefused : w.refused.headD none with
  | some f =>
    rw [hrefused] at h
    exact Or.inr ⟨f,_,h⟩
  | none =>
    rw [hrefused] at h
    cases ha : D.apply s b with
    | ok s₁ =>
      rw [ha] at h
      exact Or.inl ⟨s₁,_,rfl,h⟩
    | error f =>
      rw [ha] at h
      exact Or.inr ⟨f,_,h⟩

theorem alone_holds {K : Contract S Op σ} {op : Op}
    {Q : α → (σ → Prop) → Prop} {P : σ → Prop} {R : σ → σ → Prop}
    (hcompat : ∀ s q, K.compat q (D.answer s q) s) (hmay : ∀ s, K.may s op)
    (hrefl : ∀ s, R s s) (htrans : ∀ s t u, R s t → R t u → R s u)
    (hR : ∀ s b s', K.rel s b s' → R s s') (h : Holds D K op p Q P) (hP : P s) (hinv : K.inv s)
    (w : Weather S) : K.inv (storeAfter D p s w) ∧ R s (storeAfter D p s w) := by
  induction p generalizing s P w with
  | ret | throw => exact ⟨hinv,hrefl s⟩
  | act a k ih =>
    cases a with
    | query q => exact ih _ (h _) ⟨fun _ => hP,hcompat s q⟩ hinv w
    | now => exact ih _ (h _) hP hinv _
    | append b =>
      rcases appendAt_cases D s (D.head s) b (w.refused.headD none) with hs | ⟨_,ha⟩
      · have hstep := ih (appendAt D s (D.head s) b (w.refused.headD none)).1 (h.2 _) trivial hinv
          { w with refused := w.refused.tail }
        simp only [storeAfter,alone,hs]
        exact hstep
      · obtain ⟨hinv',hrel⟩ := h.1 _ _ hP hinv (hmay s) ha
        have hstep := ih (appendAt D s (D.head s) b (w.refused.headD none)).1 (h.2 _) trivial hinv'
          { w with refused := w.refused.tail }
        exact ⟨hstep.1,htrans _ _ _ (hR _ _ _ hrel) hstep.2⟩

end ProjectOS.Lib.Optimistic
