import Mathlib.Logic.Function.Basic
import ProjectOS.Lib.Prog

/-! Optimistic transactions. Threads query a shared store, read its head and append a
batch at that head, each in a step of its own; the append is refused when the head has
moved. Between two steps others may take any number. -/

namespace ProjectOS.Lib

/-- The vocabulary of an optimistic store. A query that `opens` starts a new
attempt. -/
structure Signature where
  Query : Type
  Answer : Query → Type
  Batch : Type
  Fault : Type
  opens : Query → Bool

inductive OptAct (S : Signature) where
  | query (q : S.Query)
  | now
  | append (b : S.Batch)

inductive AppendError (φ : Type) where
  | headChanged (expected actual : Nat)
  | fault (f : φ)

abbrev optIface (S : Signature) : Interface where
  Act := OptAct S
  Resp
    | .query q => S.Answer q
    | .now => Nat
    | .append _ => Except (AppendError S.Fault) Unit

abbrev OptProg (S : Signature) (ε α : Type) := Prog (optIface S) ε α

structure Store (S : Signature) (σ : Type) where
  answer : σ → (q : S.Query) → S.Answer q
  head : σ → Nat
  apply : σ → S.Batch → Except S.Fault σ
  head_lt : ∀ {s b s'}, apply s b = .ok s' → head s < head s'

structure System (S : Signature) (Op ε α σ : Type) where
  store : Store S σ
  code : Op → OptProg S ε α

inductive Obs (S : Signature) where
  | answer (q : S.Query) (a : S.Answer q)
  | clock (t : Nat)

/-- A thread: its operation, what is left of the program, the program when the
attempt began, what was learned, and the head it read. -/
structure Thread (S : Signature) (Op ε α : Type) where
  op : Op
  prog : OptProg S ε α
  start : OptProg S ε α
  seen : List (Obs S)
  pin : Option Nat

structure Config (S : Signature) (Op ε α σ : Type) where
  store : σ
  threads : Nat → Option (Thread S Op ε α)

section
variable {S : Signature} {Op ε α : Type}

def Thread.fresh (op : Op) (p : OptProg S ε α) : Thread S Op ε α := ⟨op,p,p,[],none⟩

def Thread.learn (t : Thread S Op ε α) (q : S.Query) (a : S.Answer q) (p : OptProg S ε α) :
    Thread S Op ε α :=
  if S.opens q then ⟨t.op,p,t.prog,[.answer q a],none⟩
  else ⟨t.op,p,t.start,t.seen ++ [.answer q a],none⟩

def Thread.finished (t : Thread S Op ε α) : Bool :=
  match t.prog with
  | .act _ _ => false
  | _ => true

end

namespace Optimistic
variable {S : Signature} {Op ε α β σ : Type}

def setThread (c : Config S Op ε α σ) (i : Nat) (t : Option (Thread S Op ε α)) :
    Config S Op ε α σ :=
  { c with threads := Function.update c.threads i t }

def appendAt (D : Store S σ) (s : σ) (expected : Nat) (b : S.Batch) (refused : Option S.Fault) :
    Except (AppendError S.Fault) Unit × σ :=
  if D.head s = expected then
    match refused with
    | some f => (.error (.fault f),s)
    | none =>
      match D.apply s b with
      | .ok s' => (.ok (),s')
      | .error f => (.error (.fault f),s)
  else (.error (.headChanged expected (D.head s)),s)

/-- When an operation may start, when a thread may read the head, and when it may
append. -/
structure Guard (S : Signature) (Op ε α σ : Type) where
  spawn : Config S Op ε α σ → Op → Prop
  head : σ → Thread S Op ε α → Prop
  append : σ → Op → Prop

def Guard.free : Guard S Op ε α σ := ⟨fun _ _ => True,fun _ _ => True,fun _ _ => True⟩

/-- The steps of the threads over one store, and of nobody else. -/
inductive Step (Y : System S Op ε α σ) (G : Guard S Op ε α σ) :
    Config S Op ε α σ → Config S Op ε α σ → Prop where
  | spawn (c : Config S Op ε α σ) (i : Nat) (op : Op) (hi : c.threads i = none)
      (hg : G.spawn c op) : Step Y G c (setThread c i (some (Thread.fresh op (Y.code op))))
  | query (c : Config S Op ε α σ) (i : Nat) (t : Thread S Op ε α) (q : S.Query)
      (k : S.Answer q → OptProg S ε α) (hi : c.threads i = some t)
      (hp : t.prog = .act (.query q) k) :
      Step Y G c (setThread c i (some (Thread.learn t q (Y.store.answer c.store q)
        (k (Y.store.answer c.store q)))))
  | clock (c : Config S Op ε α σ) (i : Nat) (t : Thread S Op ε α) (k : Nat → OptProg S ε α)
      (now : Nat) (hi : c.threads i = some t) (hp : t.prog = .act .now k) :
      Step Y G c (setThread c i (some ⟨t.op,k now,t.start,t.seen ++ [.clock now],none⟩))
  | head (c : Config S Op ε α σ) (i : Nat) (t : Thread S Op ε α) (b : S.Batch)
      (k : Except (AppendError S.Fault) Unit → OptProg S ε α) (hi : c.threads i = some t)
      (hp : t.prog = .act (.append b) k) (hpin : t.pin = none) (hg : G.head c.store t) :
      Step Y G c (setThread c i (some { t with pin := some (Y.store.head c.store) }))
  | append (c : Config S Op ε α σ) (i : Nat) (t : Thread S Op ε α) (b : S.Batch)
      (k : Except (AppendError S.Fault) Unit → OptProg S ε α) (n : Nat)
      (refused : Option S.Fault) (hi : c.threads i = some t)
      (hp : t.prog = .act (.append b) k) (hpin : t.pin = some n) (hg : G.append c.store t.op) :
      Step Y G c (setThread { c with store := (appendAt Y.store c.store n b refused).2 } i
        (some (Thread.fresh t.op (k (appendAt Y.store c.store n b refused).1))))
  | stop (c : Config S Op ε α σ) (i : Nat) : Step Y G c (setThread c i none)

def Reachable (Y : System S Op ε α σ) (G : Guard S Op ε α σ) (s₀ : σ)
    (c : Config S Op ε α σ) : Prop :=
  Relation.ReflTransGen (Step Y G) ⟨s₀,fun _ => none⟩ c

theorem appendAt_cases (D : Store S σ) (s : σ) (n : Nat) (b : S.Batch) (refused : Option S.Fault) :
    (appendAt D s n b refused).2 = s ∨
      (D.head s = n ∧ D.apply s b = .ok (appendAt D s n b refused).2) := by
  unfold appendAt
  by_cases hn : D.head s = n
  · rw [if_pos hn]
    cases refused with
    | some f => exact Or.inl rfl
    | none =>
      cases ha : D.apply s b with
      | ok s' => exact Or.inr ⟨hn,rfl⟩
      | error f => exact Or.inl rfl
  · rw [if_neg hn]
    exact Or.inl rfl

theorem setThread_self (c : Config S Op ε α σ) (i : Nat) (t : Option (Thread S Op ε α)) :
    (setThread c i t).threads i = t := Function.update_self ..

theorem setThread_ne (c : Config S Op ε α σ) {i j : Nat} (t : Option (Thread S Op ε α))
    (h : j ≠ i) : (setThread c i t).threads j = c.threads j := Function.update_of_ne h ..

variable {c : Config S Op ε α σ} {t : Option (Thread S Op ε α)} {P : Thread S Op ε α → Prop}

theorem setThread_forall {i : Nat}
    (ht : ∀ u, t = some u → P u) (hrest : ∀ j u, j ≠ i → c.threads j = some u → P u) :
    ∀ j u, (setThread c i t).threads j = some u → P u := by
  intro j u h
  by_cases hj : j = i
  · rw [hj,setThread_self] at h
    exact ht u h
  · rw [setThread_ne _ _ hj] at h
    exact hrest j u hj h

theorem setThread_keeps {i : Nat}
    (ht : ∀ u, t = some u → P u) (hc : ∀ j u, c.threads j = some u → P u) :
    ∀ j u, (setThread c i t).threads j = some u → P u :=
  setThread_forall ht fun j u _ hu => hc j u hu

variable {Y : System S Op ε α σ} {c' : Config S Op ε α σ}

theorem step_store {G : Guard S Op ε α σ} (h : Step Y G c c') :
    c'.store = c.store ∨ ∃ i t b k, c.threads i = some t ∧ t.prog = .act (.append b) k ∧
      t.pin = some (Y.store.head c.store) ∧ G.append c.store t.op ∧
      Y.store.apply c.store b = .ok c'.store := by
  cases h with
  | append i t b k n refused hi hp hpin hg =>
    rcases appendAt_cases Y.store c.store n b refused with hs | ⟨hn,ha⟩
    · exact Or.inl hs
    · exact Or.inr ⟨i,t,b,k,hi,hp,by rw [hpin,hn],hg,ha⟩
  | _ => exact Or.inl rfl

theorem finished_act {t : Thread S Op ε α} {a : OptAct S}
    {k : (optIface S).Resp a → OptProg S ε α} (h : t.prog = .act a k) : t.finished = false := by
  simp [Thread.finished,h]

theorem step_mono {G H : Guard S Op ε α σ} (hspawn : ∀ c op, G.spawn c op → H.spawn c op)
    (happ : ∀ s op, G.append s op → H.append s op)
    (hhead : ∀ i t, c.threads i = some t → t.finished = false →
      G.head c.store t → H.head c.store t) (h : Step Y G c c') : Step Y H c c' := by
  cases h with
  | spawn i op hi hg => exact .spawn c i op hi (hspawn c op hg)
  | query i t q k hi hp => exact .query c i t q k hi hp
  | clock i t k now hi hp => exact .clock c i t k now hi hp
  | head i t b k hi hp hpin hg => exact .head c i t b k hi hp hpin (hhead i t hi (finished_act hp) hg)
  | append i t b k n refused hi hp hpin hg =>
    exact .append c i t b k n refused hi hp hpin (happ _ _ hg)
  | stop i => exact .stop c i

inductive Move (S : Signature) (Op : Type) where
  | spawn (i : Nat) (op : Op)
  | turn (i : Nat)
  | clock (i now : Nat)
  | stop (i : Nat)

def move (Y : System S Op ε α σ) (c : Config S Op ε α σ) : Move S Op → Option (Config S Op ε α σ)
  | .spawn i op =>
    match c.threads i with
    | none => some (setThread c i (some (Thread.fresh op (Y.code op))))
    | some _ => none
  | .clock i now =>
    match c.threads i with
    | some ⟨op,.act .now k,start,seen,_⟩ =>
      some (setThread c i (some ⟨op,k now,start,seen ++ [.clock now],none⟩))
    | _ => none
  | .turn i =>
    match c.threads i with
    | some ⟨op,.act (.query q) k,start,seen,pin⟩ =>
      some (setThread c i (some (Thread.learn ⟨op,.act (.query q) k,start,seen,pin⟩ q
        (Y.store.answer c.store q) (k (Y.store.answer c.store q)))))
    | some ⟨op,.act (.append b) k,start,seen,none⟩ =>
      some (setThread c i (some ⟨op,.act (.append b) k,start,seen,some (Y.store.head c.store)⟩))
    | some ⟨op,.act (.append b) k,_,_,some n⟩ =>
      some (setThread { c with store := (appendAt Y.store c.store n b none).2 } i
        (some (Thread.fresh op (k (appendAt Y.store c.store n b none).1))))
    | _ => none
  | .stop i => some (setThread c i none)

def moves (Y : System S Op ε α σ) (c : Config S Op ε α σ) (ms : List (Move S Op)) :
    Option (Config S Op ε α σ) := ms.foldlM (move Y) c

theorem move_step {m : Move S Op} (h : move Y c m = some c') : Step Y Guard.free c c' := by
  cases m with
  | spawn i op =>
    simp only [move] at h
    split at h
    · cases h
      exact .spawn c i op (by assumption) trivial
    · cases h
  | clock i now =>
    simp only [move] at h
    split at h
    · rename_i hi
      cases h
      exact .clock c i _ _ now hi rfl
    · cases h
  | turn i =>
    simp only [move] at h
    split at h
    · rename_i hi
      cases h
      exact .query c i _ _ _ hi rfl
    · rename_i hi
      cases h
      exact .head c i _ _ _ hi rfl rfl trivial
    · rename_i hi
      cases h
      exact .append c i _ _ _ _ none hi rfl rfl trivial
    · cases h
  | stop i =>
    simp only [move] at h
    cases h
    exact .stop c i

variable {ms : List (Move S Op)}

theorem moves_run (h : moves Y c ms = some c') :
    Relation.ReflTransGen (Step Y Guard.free) c c' := by
  induction ms generalizing c with
  | nil =>
    cases h
    exact .refl
  | cons m ms ih =>
    rw [moves,List.foldlM_cons] at h
    cases hm : move Y c m with
    | none => simp [hm] at h
    | some d =>
      rw [hm] at h
      exact Relation.ReflTransGen.head (move_step hm) (ih h)

def after (Y : System S Op ε α σ) (s₀ : σ) (ms : List (Move S Op)) : Config S Op ε α σ :=
  (moves Y ⟨s₀,fun _ => none⟩ ms).getD ⟨s₀,fun _ => none⟩

theorem after_reachable {s₀ : σ} (h : (moves Y ⟨s₀,fun _ => none⟩ ms).isSome = true) :
    Reachable Y Guard.free s₀ (after Y s₀ ms) := by
  obtain ⟨c,hc⟩ := Option.isSome_iff_exists.mp h
  rw [after,hc]
  exact moves_run hc

end Optimistic
end ProjectOS.Lib
