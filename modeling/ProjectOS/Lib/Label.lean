import ProjectOS.Lib.Pool

/-! Actions under a label that says what they are taken for. A label is read by
nobody: erasing the labels leaves program, run and pool as they were. -/

namespace ProjectOS.Lib

def Interface.labelled (F : Interface) (L : Type) : Interface := ⟨L × F.Act,fun a => F.Resp a.2⟩

def Machine.labelled {F : Interface} {ι σ : Type} (L : Type) (M : Machine F ι σ) :
    Machine (F.labelled L) ι σ := ⟨fun x s a => M.step x s a.2⟩

namespace Prog
variable {F : Interface} {L ε α β γ : Type}

def label (l : L) : Prog F ε α → Prog (F.labelled L) ε α
  | .ret a => .ret a
  | .throw e => .throw e
  | .act a k => .act (F := F.labelled L) (l,a) (fun r => (k r).label l)

def erase : Prog (F.labelled L) ε α → Prog F ε α
  | .ret a => .ret a
  | .throw e => .throw e
  | .act a k => .act a.2 (fun r => (k r).erase)

@[simp] theorem erase_label (l : L) (p : Prog F ε α) : (p.label l).erase = p := by
  induction p with
  | ret a => rfl
  | throw e => rfl
  | act a k ih =>
    simp only [label,erase]
    exact congrArg (act a) (funext ih)

@[simp] theorem erase_bind (p : Prog (F.labelled L) ε α) (f : α → Prog (F.labelled L) ε β) :
    (p.bind f).erase = p.erase.bind fun a => (f a).erase := by
  induction p with
  | ret a => rfl
  | throw e => rfl
  | act a k ih =>
    simp only [act_bind,erase]
    exact congrArg (act a.2) (funext ih)

theorem erase_foldlM (xs : List β) (f : γ → β → Prog (F.labelled L) ε γ) (c : γ) :
    (xs.foldlM f c).erase = xs.foldlM (fun c x => (f c x).erase) c := by
  induction xs generalizing c with
  | nil => rfl
  | cons x xs ih => simp only [List.foldlM_cons,bind_eq,erase_bind,ih]

theorem label_bind (l : L) (p : Prog F ε α) (f : α → Prog F ε β) :
    (p.bind f).label l = (p.label l).bind fun a => (f a).label l := by
  induction p with
  | ret a => rfl
  | throw e => rfl
  | act a k ih =>
    simp only [act_bind,label]
    exact congrArg (act (F := F.labelled L) (l,a)) (funext ih)

theorem label_foldlM (l : L) (xs : List β) (f : γ → β → Prog F ε γ) (c : γ) :
    (xs.foldlM f c).label l = xs.foldlM (fun c x => (f c x).label l) c := by
  induction xs generalizing c with
  | nil => rfl
  | cons x xs ih => simp only [List.foldlM_cons,bind_eq,label_bind,ih]

theorem within_label (l : L) {P : (F.labelled L).Act → Prop} {p : Prog F ε α}
    (h : p.Within fun a => P (l,a)) : (p.label l).Within P := by
  induction p with
  | ret | throw => trivial
  | act a k ih => exact ⟨h.1,fun r => ih r (h.2 r)⟩

end Prog

namespace Pool
variable {F : Interface} {L Op ε α ι σ : Type} (M : Machine F ι σ)
  (code : Op → Prog (F.labelled L) ε α)

def erase (c : Pool (F.labelled L) Op ε α σ) : Pool F Op ε α σ :=
  ⟨c.store,fun i => (c.threads i).map fun t => (t.1,t.2.erase)⟩

variable (c : Pool (F.labelled L) Op ε α σ)

theorem erase_setThread (s : σ) (i : Nat) (t : Option (Op × Prog (F.labelled L) ε α)) :
    (c.setThread s i t).erase = c.erase.setThread s i (t.map fun t => (t.1,t.2.erase)) := by
  simp only [erase,setThread,Pool.mk.injEq,true_and]
  funext j
  by_cases h : j = i
  · subst h
    simp
  · simp [h]

theorem turn_erase (t : Turn Op ι) :
    (c.turn (M.labelled L) code t).erase = c.erase.turn M (fun op => (code op).erase) t := by
  cases t with
  | start i op | lose i => exact erase_setThread c c.store i _
  | act i x =>
    cases hi : c.threads i with
    | none => simp [turn,erase,hi]
    | some th =>
      obtain ⟨op,p⟩ := th
      cases p with
      | ret | throw => simp [turn,erase,hi,Prog.erase]
      | act a k =>
        have he : c.erase.threads i = some (op,.act a.2 fun r => (k r).erase) := by
          simp [erase,hi,Prog.erase]
        simp only [turn,hi,he]
        exact erase_setThread c _ i _

theorem turns_erase (ts : List (Turn Op ι)) :
    (c.turns (M.labelled L) code ts).erase =
      c.erase.turns M (fun op => (code op).erase) ts := by
  induction ts generalizing c with
  | nil => rfl
  | cons t ts ih =>
    have h := ih (c.turn (M.labelled L) code t)
    rw [turn_erase] at h
    exact h

end Pool
end ProjectOS.Lib
