import ProjectOS.Lib.Prog

namespace ProjectOS.Lib

abbrev Statements (F : Interface) (ε σ : Type) := σ → (a : F.Act) → Except ε (F.Resp a × σ)

namespace Prog
variable {F : Interface} {ε α β γ σ : Type}

def execute (E : Statements F ε σ) : Prog F ε α → σ → Except ε (α × σ)
  | .ret a, s => .ok (a,s)
  | .throw e, _ => .error e
  | .act a k, s =>
    match E s a with
    | .ok r => (k r.1).execute E r.2
    | .error e => .error e

def disturbed (E : Statements F ε σ) (trouble : Nat → Option ε) :
    Prog F ε α → Nat → σ → Except ε (α × σ)
  | .ret a, _, s => .ok (a,s)
  | .throw e, _, _ => .error e
  | .act a k, n, s =>
    match trouble n with
    | some e => .error e
    | none =>
      match E s a with
      | .ok r => (k r.1).disturbed E trouble (n+1) r.2
      | .error e => .error e

def each (f : β → Prog F ε Unit) : List β → Prog F ε Unit
  | [] => .ret ()
  | x :: rest => (f x).bind (fun _ => each f rest)

def collect (f : β → Prog F ε α) : List β → Prog F ε (List α)
  | [] => .ret []
  | x :: rest => (f x).bind (fun a => (collect f rest).bind (fun as => .ret (a :: as)))

variable (E : Statements F ε σ)

@[simp] theorem execute_ret (a : α) (s : σ) : (ret a : Prog F ε α).execute E s = .ok (a,s) := rfl

@[simp] theorem execute_throw (e : ε) (s : σ) :
    (throw e : Prog F ε α).execute E s = .error e := rfl

@[simp] theorem execute_act (a : F.Act) (k : F.Resp a → Prog F ε α) (s : σ) :
    (act a k).execute E s = (E s a).bind (fun r => (k r.1).execute E r.2) := by
  rw [execute]
  cases E s a with
  | ok r => rfl
  | error e => rfl

theorem execute_bind (p : Prog F ε α) (f : α → Prog F ε β) (s : σ) :
    (p.bind f).execute E s = (p.execute E s).bind (fun r => (f r.1).execute E r.2) := by
  induction p generalizing s with
  | ret a => rfl
  | throw e => rfl
  | act a k ih =>
    rw [act_bind,execute_act,execute_act]
    cases E s a with
    | ok r => exact ih r.1 r.2
    | error e => rfl

theorem disturbed_ok {trouble : Nat → Option ε} {p : Prog F ε α} {n : Nat} {s : σ} {r : α × σ}
    (h : p.disturbed E trouble n s = .ok r) : p.execute E s = .ok r := by
  induction p generalizing n s with
  | ret | throw => exact h
  | act a k ih =>
    rw [disturbed] at h
    rw [execute]
    split at h
    · exact absurd h (by simp)
    · split at h
      · rename_i r' hr'
        exact ih r'.1 h
      · exact absurd h (by simp)

theorem disturbed_calm {trouble : Nat → Option ε} (hcalm : ∀ n, trouble n = none)
    (p : Prog F ε α) (n : Nat) (s : σ) : p.disturbed E trouble n s = p.execute E s := by
  induction p generalizing n s with
  | ret a => rfl
  | throw e => rfl
  | act a k ih =>
    rw [disturbed,execute,hcalm n]
    cases E s a with
    | ok r => exact ih r.1 (n+1) r.2
    | error e => rfl

def effect (p : Prog F ε Unit) (s : σ) : Except ε σ := (p.execute E s).map Prod.snd

@[simp] theorem effect_ret (s : σ) : effect E (ret () : Prog F ε Unit) s = .ok s := rfl

@[simp] theorem effect_throw (e : ε) (s : σ) : effect E (throw e : Prog F ε Unit) s = .error e := rfl

theorem effect_bind (p : Prog F ε α) (f : α → Prog F ε Unit) (s : σ) :
    effect E (p.bind f) s = (p.execute E s).bind (fun r => effect E (f r.1) r.2) := by
  rw [effect,execute_bind]
  cases p.execute E s with
  | ok r => rfl
  | error e => rfl

theorem execute_unit (p : Prog F ε Unit) (s : σ) :
    p.execute E s = (effect E p s).map (fun t => ((),t)) := by
  rw [effect]
  cases p.execute E s with
  | ok r => rfl
  | error e => rfl

theorem effect_then (p : Prog F ε Unit) (f : Unit → Prog F ε Unit) (s : σ) :
    effect E (p.bind f) s = (effect E p s).bind (effect E (f ())) := by
  rw [effect_bind,execute_unit]
  cases effect E p s with
  | ok t => rfl
  | error e => rfl

theorem effect_each (f : β → Prog F ε Unit) (xs : List β) (s : σ) :
    effect E (each f xs) s = xs.foldlM (fun s x => effect E (f x) s) s := by
  induction xs generalizing s with
  | nil => rfl
  | cons x rest ih =>
    rw [each,effect_then,List.foldlM_cons]
    cases effect E (f x) s with
    | ok t => exact ih t
    | error e => rfl

theorem execute_collect {f : β → Prog F ε α} {g : β → Except ε α} {s : σ}
    (h : ∀ x, (f x).execute E s = (g x).map (fun a => (a,s))) (xs : List β) :
    (collect f xs).execute E s = (xs.mapM g).map (fun as => (as,s)) := by
  induction xs with
  | nil => rfl
  | cons x rest ih =>
    rw [collect,execute_bind,h,List.mapM_cons]
    cases g x with
    | error e => rfl
    | ok a =>
      have hrest := execute_bind E (collect f rest) (fun as => .ret (a :: as)) s
      rw [ih] at hrest
      refine hrest.trans ?_
      cases rest.mapM g with
      | ok | error => rfl

def transaction (trouble : Nat → Option ε) (commit : Option ε) (p : Prog F ε α) (s : σ) :
    Except ε α × σ :=
  match p.disturbed E trouble 0 s with
  | .ok r =>
    match commit with
    | none => (.ok r.1,r.2)
    | some e => (.error e,s)
  | .error e => (.error e,s)

variable {E} {trouble : Nat → Option ε} {commit : Option ε} {p : Prog F ε α} {s : σ}

theorem transaction_error {e : ε} (h : (transaction E trouble commit p s).1 = .error e) :
    (transaction E trouble commit p s).2 = s := by
  rw [transaction] at h ⊢
  split
  · rename_i r hr
    rw [hr] at h
    cases commit with
    | none => exact absurd h (by simp)
    | some e' => rfl
  · rfl

theorem transaction_ok {a : α} (h : (transaction E trouble commit p s).1 = .ok a) :
    p.execute E s = .ok (a,(transaction E trouble commit p s).2) := by
  rw [transaction] at h ⊢
  split at h
  · rename_i r hr
    cases commit with
    | none =>
      obtain rfl : r.1 = a := by simpa using h
      exact disturbed_ok E hr
    | some e' => exact absurd h (by simp)
  · exact absurd h (by simp)

theorem transaction_calm (hcalm : ∀ n, trouble n = none) :
    (transaction E trouble none p s).1 = (p.execute E s).map Prod.fst := by
  rw [transaction,disturbed_calm E hcalm]
  cases p.execute E s with
  | ok r => rfl
  | error e => rfl

end Prog
end ProjectOS.Lib
