import ProjectOS.Lib.Assertion

/-! Histories of optimistic transactions: which batches were applied and which
results were returned, in order. A history outlives the threads in it. -/

namespace ProjectOS.Lib
open List
variable {S : Signature} {Op ε α : Type}

/-- A batch took effect, with what its attempt had learned, or an operation
returned. -/
inductive Entry (S : Signature) (Op α : Type) where
  | applied (op : Op) (seen : List (Obs S)) (b : S.Batch)
  | returned (op : Op) (a : α)

/-- Every event fits those before it. -/
def Ordered {E : Type} (P : List E → E → Prop) (log : List E) : Prop :=
  ∀ pre e post, log = pre ++ e::post → P pre e

variable {E : Type}

theorem ordered_nil (P : List E → E → Prop) : Ordered P [] := by
  intro pre e post h
  simp at h

variable {P : List E → E → Prop} {log b : List E}

theorem ordered_snoc {e : E} (h : Ordered P log) (he : P log e) :
    Ordered P (log ++ [e]) := by
  intro pre e' post heq
  rcases eq_nil_or_concat post with rfl | ⟨post',last,rfl⟩
  · obtain ⟨rfl,hlast⟩ := append_inj' heq rfl
    cases hlast
    exact he
  · rw [concat_eq_append,← cons_append,← append_assoc] at heq
    exact h pre e' post' (append_inj' heq rfl).1

theorem Ordered.before (h : Ordered P (log ++ b)) : Ordered P log := by
  intro pre e post heq
  exact h pre e (post ++ b) (by rw [heq]; simp)

theorem Ordered.last {e : E} (h : Ordered P (log ++ [e])) : P log e := h log e [] rfl

/-- Every event fits those before it and those after. -/
def Followed {E : Type} (P : List E → E → List E → Prop) (log : List E) : Prop :=
  ∀ pre e post, log = pre ++ e::post → P pre e post

theorem followed_append {P : List E → E → List E → Prop}
    (hmore : ∀ pre e post rest, P pre e post → P pre e (post ++ rest)) (h : Followed P log)
    (hb : ∀ pre e post, b = pre ++ e::post → P (log ++ pre) e post) : Followed P (log ++ b) := by
  intro pre e post heq
  rcases append_eq_append_iff.mp heq with ⟨mid,rfl,hmid⟩ | ⟨mid,rfl,hmid⟩
  · exact hb mid e post hmid
  · cases mid with
    | nil =>
      have hnil := hb [] e post (by simpa using hmid.symm)
      simpa using hnil
    | cons x mid =>
      simp only [cons_append,List.cons.injEq] at hmid
      obtain ⟨rfl,rfl⟩ := hmid
      exact hmore pre e mid b (h pre e mid rfl)

theorem ordered_append (h : Ordered P log)
    (hb : ∀ pre e post, b = pre ++ e::post → P (log ++ pre) e) : Ordered P (log ++ b) :=
  followed_append (P := fun pre e _ => P pre e) (fun _ _ _ _ h => h) h hb

theorem split_at {l : List E} {n : Nat} {x : E} (h : l[n]? = some x) :
    l = l.take n ++ x::l.drop (n+1) := by
  obtain ⟨hn,hget⟩ := List.getElem?_eq_some_iff.mp h
  rw [← hget,← drop_eq_getElem_cons hn,take_append_drop]

def Thread.result (t : Thread S Op ε α) : List (Entry S Op α) :=
  match t.prog with
  | .ret a => [.returned t.op a]
  | _ => []

def Thread.wrote (t : Thread S Op ε α) (b : S.Batch) :
    Except (AppendError S.Fault) Unit → List (Entry S Op α)
  | .ok () => [.applied t.op t.seen b]
  | .error _ => []

namespace Optimistic
variable {β σ : Type}

/-- One step of the system, and what it adds to the history. -/
inductive Reports (Y : System S Op ε α σ) (G : Guard S Op ε α σ) :
    Config S Op ε α σ → List (Entry S Op α) → Config S Op ε α σ → Prop where
  | spawn (c : Config S Op ε α σ) (i : Nat) (op : Op) (hi : c.threads i = none)
      (hg : G.spawn c op) : Reports Y G c (Thread.fresh (S := S) op (Y.code op)).result
        (setThread c i (some (Thread.fresh op (Y.code op))))
  | query (c : Config S Op ε α σ) (i : Nat) (t : Thread S Op ε α) (q : S.Query)
      (k : S.Answer q → OptProg S ε α) (hi : c.threads i = some t)
      (hp : t.prog = .act (.query q) k) :
      Reports Y G c (t.learn q (Y.store.answer c.store q) (k (Y.store.answer c.store q))).result
        (setThread c i (some (t.learn q (Y.store.answer c.store q)
          (k (Y.store.answer c.store q)))))
  | clock (c : Config S Op ε α σ) (i : Nat) (t : Thread S Op ε α) (k : Nat → OptProg S ε α)
      (now : Nat) (hi : c.threads i = some t) (hp : t.prog = .act .now k) :
      Reports Y G c (Thread.mk t.op (k now) t.start (t.seen ++ [.clock now]) none).result
        (setThread c i (some ⟨t.op,k now,t.start,t.seen ++ [.clock now],none⟩))
  | head (c : Config S Op ε α σ) (i : Nat) (t : Thread S Op ε α) (b : S.Batch)
      (k : Except (AppendError S.Fault) Unit → OptProg S ε α) (hi : c.threads i = some t)
      (hp : t.prog = .act (.append b) k) (hpin : t.pin = none) (hg : G.head c.store t) :
      Reports Y G c [] (setThread c i (some { t with pin := some (Y.store.head c.store) }))
  | append (c : Config S Op ε α σ) (i : Nat) (t : Thread S Op ε α) (b : S.Batch)
      (k : Except (AppendError S.Fault) Unit → OptProg S ε α) (n : Nat)
      (refused : Option S.Fault) (hi : c.threads i = some t)
      (hp : t.prog = .act (.append b) k) (hpin : t.pin = some n) (hg : G.append c.store t.op) :
      Reports Y G c (t.wrote b (appendAt Y.store c.store n b refused).1 ++
          (Thread.fresh (S := S) t.op (k (appendAt Y.store c.store n b refused).1)).result)
        (setThread { c with store := (appendAt Y.store c.store n b refused).2 } i
          (some (Thread.fresh t.op (k (appendAt Y.store c.store n b refused).1))))
  | stop (c : Config S Op ε α σ) (i : Nat) : Reports Y G c [] (setThread c i none)

/-- The histories of the runs from a store without threads. -/
inductive Trace (Y : System S Op ε α σ) (G : Guard S Op ε α σ) (s₀ : σ) :
    List (Entry S Op α) → Config S Op ε α σ → Prop where
  | start : Trace Y G s₀ [] ⟨s₀,fun _ => none⟩
  | step {es new : List (Entry S Op α)} {c c' : Config S Op ε α σ} (h : Trace Y G s₀ es c)
      (hstep : Reports Y G c new c') : Trace Y G s₀ (es ++ new) c'

section
variable {Y : System S Op ε α σ} {G : Guard S Op ε α σ}
variable {c : Config S Op ε α σ} {es : List (Entry S Op α)} {c' : Config S Op ε α σ}

theorem Reports.step (h : Reports Y G c es c') : Step Y G c c' := by
  cases h with
  | spawn i op hi hg => exact .spawn c i op hi hg
  | query i t q k hi hp => exact .query c i t q k hi hp
  | clock i t k now hi hp => exact .clock c i t k now hi hp
  | head i t b k hi hp hpin hg => exact .head c i t b k hi hp hpin hg
  | append i t b k n refused hi hp hpin hg => exact .append c i t b k n refused hi hp hpin hg
  | stop i => exact .stop c i

theorem Trace.reachable {s₀ : σ} (h : Trace Y G s₀ es c) : Reachable Y G s₀ c := by
  induction h with
  | start => exact .refl
  | step _ hstep ih => exact ih.tail hstep.step

theorem reports_mono {H : Guard S Op ε α σ} (hspawn : ∀ c op, G.spawn c op → H.spawn c op)
    (happ : ∀ s op, G.append s op → H.append s op)
    (hhead : ∀ i t, c.threads i = some t → t.finished = false →
      G.head c.store t → H.head c.store t) (h : Reports Y G c es c') : Reports Y H c es c' := by
  cases h with
  | spawn i op hi hg => exact .spawn c i op hi (hspawn c op hg)
  | query i t q k hi hp => exact .query c i t q k hi hp
  | clock i t k now hi hp => exact .clock c i t k now hi hp
  | head i t b k hi hp hpin hg => exact .head c i t b k hi hp hpin (hhead i t hi (finished_act hp) hg)
  | append i t b k n refused hi hp hpin hg =>
    exact .append c i t b k n refused hi hp hpin (happ _ _ hg)
  | stop i => exact .stop c i

theorem trace_sequential (hspawn : ∀ c op, G.spawn c op → Alone c) {s₀ : σ}
    (h : Trace Y G s₀ es c) :
    Trace Y { G with head := fun s t => Current Y.store t s } s₀ es c := by
  induction h with
  | start => exact .start
  | step htrace hstep ih =>
    have hone := (reachable_sequential hspawn htrace.reachable).2
    refine .step ih (reports_mono (G := G) ?_ ?_ ?_ hstep)
    · intro c op hg
      exact hg
    · intro s op hg
      exact hg
    · intro i t hi ht _
      exact (hone.of_running hi ht).1

end

def learned (seen : List (Obs S)) (q : S.Query) (a : S.Answer q) : List (Obs S) :=
  if S.opens q then [.answer q a] else seen ++ [.answer q a]

/-- Every appended batch satisfies `A` of what the attempt had learned, and every
result `R` of what was learned since the append `last`. -/
def Tells (A : List (Obs S) → S.Batch → Prop)
    (R : Option (List (Obs S) × S.Batch) → List (Obs S) → α → Prop) :
    OptProg S ε α → Option (List (Obs S) × S.Batch) → List (Obs S) → Prop
  | .ret a, last, seen => R last seen a
  | .throw _, _, _ => True
  | .act (.query q) k, _, seen => ∀ a, Tells A R (k a) none (learned seen q a)
  | .act .now k, _, seen => ∀ t, Tells A R (k t) none (seen ++ [.clock t])
  | .act (.append b) k, _, seen =>
    A seen b ∧ Tells A R (k (.ok ())) (some (seen,b)) [] ∧ ∀ e, Tells A R (k (.error e)) none []

section Tells
variable {A : List (Obs S) → S.Batch → Prop}
variable {R : Option (List (Obs S) × S.Batch) → List (Obs S) → α → Prop}
variable {p : OptProg S ε α} {last : Option (List (Obs S) × S.Batch)} {seen : List (Obs S)}

variable {R' : Option (List (Obs S) × S.Batch) → List (Obs S) → α → Prop}

theorem tells_mono {A' : List (Obs S) → S.Batch → Prop}
    (hA : ∀ seen b, A seen b → A' seen b) (hR : ∀ last seen a, R last seen a → R' last seen a)
    (h : Tells A R p last seen) : Tells A' R' p last seen := by
  induction p generalizing last seen with
  | ret a => exact hR _ _ _ h
  | throw e => exact trivial
  | act a k ih =>
    cases a with
    | query q => exact fun a => ih a (h a)
    | now => exact fun t => ih t (h t)
    | append b => exact ⟨hA _ _ h.1,ih _ h.2.1,fun e => ih _ (h.2.2 e)⟩

theorem tells_result
    (hR : ∀ last seen a, R last seen a → R' last seen a) (h : Tells A R p last seen) :
    Tells A R' p last seen := tells_mono (fun _ _ hb => hb) hR h

variable {f : β → OptProg S ε α}

theorem tells_bind {p : OptProg S ε β}
    (h : Tells A (fun last seen b => Tells A R (f b) last seen) p last seen) :
    Tells A R (p.bind f) last seen := by
  induction p generalizing last seen with
  | ret a => exact h
  | throw e => exact trivial
  | act a k ih =>
    cases a with
    | query q => exact fun a => ih a (h a)
    | now => exact fun t => ih t (h t)
    | append b => exact ⟨h.1,ih _ h.2.1,fun e => ih _ (h.2.2 e)⟩

def untold : Option (List (Obs S) × S.Batch) → List (Obs S) → α → Prop := fun _ _ _ => True

theorem tells_seq {p : OptProg S ε β} (hp : Tells A untold p last seen)
    (hf : ∀ b last seen, Tells A R (f b) last seen) : Tells A R (p.bind f) last seen :=
  tells_bind (tells_result (fun last seen b _ => hf b last seen) hp)

theorem tells_holds {D : Store S σ} {K : Contract S Op σ} {op : Op}
    (hA : ∀ seen b, A seen b → ∀ s s', Compat K.compat seen s → K.inv s → K.may s op →
      D.apply s b = .ok s' → K.inv s' ∧ K.rel s b s') (h : Tells A R p last seen) :
    Holds D K op p anyResult (Compat K.compat seen) := by
  induction p generalizing last seen with
  | ret | throw => exact trivial
  | act a k ih =>
    cases a with
    | query q =>
      intro a
      refine holds_pre (ih a (h a)) ?_
      intro s hs q' a' ha
      simp only [learned] at ha
      split at ha
      · simp only [mem_singleton,Obs.answer.injEq] at ha
        obtain ⟨rfl,ha⟩ := ha
        cases ha
        exact hs.2
      · rename_i ho
        rcases mem_append.mp ha with ha | ha
        · exact hs.1 (by simpa using ho) q' a' ha
        · simp only [mem_singleton,Obs.answer.injEq] at ha
          obtain ⟨rfl,ha⟩ := ha
          cases ha
          exact hs.2
    | now =>
      intro t
      refine holds_pre (ih t (h t)) ?_
      intro s hs q a ha
      exact hs q a (by simpa using ha)
    | append b =>
      refine ⟨fun s s' => hA seen b h.1 s s',?_⟩
      intro r
      have hnone : ∀ s : σ, True → Compat K.compat ([] : List (Obs S)) s := by
        intro s _ q a ha
        cases ha
      rcases r with e | ⟨⟩
      · exact holds_pre (ih _ (h.2.2 e)) hnone
      · exact holds_pre (ih _ h.2.1) hnone

end Tells

section Invariant
variable {Y : System S Op ε α σ} {G : Guard S Op ε α σ} (A : Op → List (Obs S) → S.Batch → Prop)
variable (R : Op → Option (List (Obs S) × S.Batch) → List (Obs S) → α → Prop)
variable (compat : (q : S.Query) → S.Answer q → σ → Prop)

/-- The thread tells the truth, and a head it holds was read after answers that
still describe the store. -/
structure ThreadTells (D : Store S σ) (t : Thread S Op ε α) (s : σ) : Prop where
  rest : ∃ last, Tells (A t.op) (R t.op) t.prog last t.seen
  pinned : ∀ n, t.pin = some n → n ≤ D.head s ∧ (D.head s = n → Compat compat t.seen s)

/-- What has just happened when an operation returns: its own append, or an answer
that is still the store's. -/
structure Moment (D : Store S σ) (s : σ) (es : List (Entry S Op α)) (op : Op)
    (last : Option (List (Obs S) × S.Batch)) (seen : List (Obs S)) : Prop where
  last : ∀ sn b, last = some (sn,b) → ∃ pre, es = pre ++ [.applied op sn b]
  answer : ∀ pre q a, seen = pre ++ [.answer q a] → D.answer s q = a

/-- An invariant of the store and the history that every told append and every told
result keeps holds throughout. -/
structure HistoryRule (Y : System S Op ε α σ) (G : Guard S Op ε α σ)
    (Inv : σ → List (Entry S Op α) → Prop) : Prop where
  code : ∀ c op, G.spawn c op → Tells (A op) (R op) (Y.code op) none []
  head : ∀ s t, G.head s t → Compat compat t.seen s
  applied : ∀ s es op seen b s', Inv s es → A op seen b → Compat compat seen s →
    G.append s op → Y.store.apply s b = .ok s' → Inv s' (es ++ [.applied op seen b])
  returned : ∀ s es op last seen a, Inv s es → R op last seen a →
    Moment Y.store s es op last seen → Inv s (es ++ [.returned op a])

variable {A R compat} {Inv : σ → List (Entry S Op α) → Prop}

variable {es : List (Entry S Op α)} {last : Option (List (Obs S) × S.Batch)} {s : σ}

theorem result_inv (H : HistoryRule A R compat Y G Inv) (t : Thread S Op ε α) (hinv : Inv s es)
    (ht : Tells (A t.op) (R t.op) t.prog last t.seen)
    (hm : Moment Y.store s es t.op last t.seen) : Inv s (es ++ t.result) := by
  unfold Thread.result
  split
  · rename_i a ha
    rw [ha] at ht
    exact H.returned _ _ _ _ _ _ hinv ht hm
  · simpa using hinv

theorem moment_none {op : Op} {seen : List (Obs S)}
    (h : ∀ pre q a, seen = pre ++ [.answer q a] → Y.store.answer s q = a) :
    Moment Y.store s es op none seen where
  last := by
    rintro sn b ⟨⟩
  answer := h

theorem learn_seen (t : Thread S Op ε α) (q : S.Query) (a : S.Answer q) (p : OptProg S ε α) :
    (t.learn q a p).seen = learned t.seen q a ∧ (t.learn q a p).prog = p := by
  unfold Thread.learn learned
  split
  · exact ⟨rfl,rfl⟩
  · exact ⟨rfl,rfl⟩

theorem learned_last {seen pre : List (Obs S)} {q q' : S.Query} {a : S.Answer q}
    {a' : S.Answer q'} (h : learned seen q a = pre ++ [.answer q' a']) :
    (⟨q,a⟩ : (q : S.Query) × S.Answer q) = ⟨q',a'⟩ := by
  have hl : ∃ pre', learned seen q a = pre' ++ [.answer q a] := by
    unfold learned
    split
    · exact ⟨[],rfl⟩
    · exact ⟨seen,rfl⟩
  obtain ⟨pre',hl⟩ := hl
  rw [hl] at h
  have hlast := (append_inj' h rfl).2
  simp only [List.cons.injEq,Obs.answer.injEq,and_true] at hlast
  obtain ⟨rfl,ha⟩ := hlast
  rw [eq_of_heq ha]

variable {D : Store S σ}

theorem threadTells_fresh {op : Op} {p : OptProg S ε α} (h : Tells (A op) (R op) p last []) :
    ThreadTells A R compat D (Thread.fresh op p) s where
  rest := ⟨last,h⟩
  pinned := by
    rintro n ⟨⟩

theorem threadTells_apply {t : Thread S Op ε α} {s' : σ} {b : S.Batch}
    (ht : ThreadTells A R compat D t s) (ha : D.apply s b = .ok s') :
    ThreadTells A R compat D t s' where
  rest := ht.rest
  pinned := by
    intro n hn
    have hlt := D.head_lt ha
    have hle := (ht.pinned n hn).1
    exact ⟨by omega,fun h => by omega⟩

theorem appendAt_result (D : Store S σ) (s : σ) (n : Nat) (b : S.Batch) (refused : Option S.Fault) :
    (∃ e, (appendAt D s n b refused).1 = .error e ∧ (appendAt D s n b refused).2 = s) ∨
      ((appendAt D s n b refused).1 = .ok () ∧ D.head s = n ∧
        D.apply s b = .ok (appendAt D s n b refused).2) := by
  unfold appendAt
  by_cases hn : D.head s = n
  · rw [if_pos hn]
    cases refused with
    | some f => exact Or.inl ⟨_,rfl,rfl⟩
    | none =>
      cases ha : D.apply s b with
      | ok s' => exact Or.inr ⟨rfl,hn,rfl⟩
      | error f => exact Or.inl ⟨_,rfl,rfl⟩
  · rw [if_neg hn]
    exact Or.inl ⟨_,rfl,rfl⟩

theorem reports_inv (H : HistoryRule A R compat Y G Inv) {c c' : Config S Op ε α σ}
    {new : List (Entry S Op α)} (hinv : Inv c.store es)
    (hc : ∀ i t, c.threads i = some t → ThreadTells A R compat Y.store t c.store)
    (h : Reports Y G c new c') :
    Inv c'.store (es ++ new) ∧
      ∀ i t, c'.threads i = some t → ThreadTells A R compat Y.store t c'.store := by
  cases h with
  | spawn i op hi hg =>
    have hcode := H.code c op hg
    refine ⟨result_inv H (Thread.fresh op (Y.code op)) hinv hcode (moment_none ?_),
      setThread_keeps ?_ hc⟩
    · intro pre q a hseen
      simp [Thread.fresh] at hseen
    · rintro u ⟨⟩
      exact threadTells_fresh hcode
  | query i t q k hi hp =>
    obtain ⟨last,hrest⟩ := (hc i t hi).rest
    rw [hp] at hrest
    have hnext := hrest (Y.store.answer c.store q)
    obtain ⟨hseen,hprog⟩ := learn_seen t q (Y.store.answer c.store q)
      (k (Y.store.answer c.store q))
    have hop := learn_op t q (Y.store.answer c.store q) (k (Y.store.answer c.store q))
    have htell : Tells (A (t.learn q (Y.store.answer c.store q)
          (k (Y.store.answer c.store q))).op) (R (t.learn q (Y.store.answer c.store q)
          (k (Y.store.answer c.store q))).op)
        (t.learn q (Y.store.answer c.store q) (k (Y.store.answer c.store q))).prog none
        (t.learn q (Y.store.answer c.store q) (k (Y.store.answer c.store q))).seen := by
      rw [hop,hprog,hseen]
      exact hnext
    refine ⟨result_inv H _ hinv htell (moment_none ?_),
      setThread_keeps ?_ hc⟩
    · intro pre q' a' hlast
      rw [hseen] at hlast
      have heq := learned_last hlast
      cases heq
      rfl
    · rintro u ⟨⟩
      refine ⟨⟨none,htell⟩,?_⟩
      intro n hn
      simp only [Thread.learn] at hn
      split at hn
      · cases hn
      · cases hn
  | clock i t k now hi hp =>
    obtain ⟨last,hrest⟩ := (hc i t hi).rest
    rw [hp] at hrest
    refine ⟨result_inv H ⟨t.op,k now,t.start,t.seen ++ [.clock now],none⟩ hinv (hrest now)
        (moment_none ?_),
      setThread_keeps ?_ hc⟩
    · intro pre q a hlast
      have hcons := (append_inj' hlast rfl).2
      simp at hcons
    · rintro u ⟨⟩
      refine ⟨⟨none,hrest now⟩,?_⟩
      rintro n ⟨⟩
  | head i t b k hi hp hpin hg =>
    refine ⟨?_,setThread_keeps ?_ hc⟩
    · rw [append_nil]
      exact hinv
    · rintro u ⟨⟩
      refine ⟨(hc i t hi).rest,?_⟩
      rintro n ⟨⟩
      exact ⟨Nat.le_refl _,fun _ => H.head c.store t hg⟩
  | append i t b k n refused hi hp hpin hg =>
    obtain ⟨last,hrest⟩ := (hc i t hi).rest
    rw [hp] at hrest
    obtain ⟨hdecided,hok,herr⟩ := hrest
    rcases appendAt_result Y.store c.store n b refused with ⟨e,hr,hs⟩ | ⟨hr,hn,ha⟩
    · have hthread : ∀ u, some (Thread.fresh t.op
          (k (appendAt Y.store c.store n b refused).1)) = some u →
          ThreadTells A R compat Y.store u c.store := by
        rintro u ⟨⟩
        rw [hr]
        exact threadTells_fresh (herr e)
      constructor
      · show Inv (appendAt Y.store c.store n b refused).2 _
        rw [hs,hr]
        refine result_inv H (Thread.fresh t.op (k (.error e))) hinv (herr e) (moment_none ?_)
        intro pre q a hseen
        simp [Thread.fresh] at hseen
      · show ∀ j u, _ → ThreadTells A R compat Y.store u (appendAt Y.store c.store n b refused).2
        rw [hs]
        exact setThread_keeps hthread hc
    · have hseen := ((hc i t hi).pinned n hpin).2 hn
      have hnew := H.applied _ _ _ _ _ _ hinv hdecided hseen hg ha
      constructor
      · show Inv (appendAt Y.store c.store n b refused).2 _
        rw [hr,← append_assoc]
        refine result_inv H (Thread.fresh t.op (k (.ok ()))) hnew hok ⟨?_,?_⟩
        · rintro sn b' ⟨⟩
          exact ⟨es,rfl⟩
        · intro pre q a hlast
          simp [Thread.fresh] at hlast
      · refine setThread_forall ?_ (fun j u _ hu => threadTells_apply (hc j u hu) ha)
        rintro u ⟨⟩
        rw [hr]
        exact threadTells_fresh hok
  | stop i =>
    refine ⟨?_,setThread_keeps ?_ hc⟩
    · rw [append_nil]
      exact hinv
    · rintro u ⟨⟩

theorem trace_inv (H : HistoryRule A R compat Y G Inv) {s₀ : σ} (h₀ : Inv s₀ [])
    {c : Config S Op ε α σ} (h : Trace Y G s₀ es c) :
    Inv c.store es := by
  have hall : Inv c.store es ∧
      ∀ i t, c.threads i = some t → ThreadTells A R compat Y.store t c.store := by
    induction h with
    | start => exact ⟨h₀,by rintro i t ⟨⟩⟩
    | step _ hstep ih => exact reports_inv H ih.1 ih.2 hstep
  exact hall.1

end Invariant

section Moves
variable {Y : System S Op ε α σ} {G : Guard S Op ε α σ}

def written (Y : System S Op ε α σ) (c : Config S Op ε α σ) : Move S Op → List (Entry S Op α)
  | .turn i =>
    match c.threads i with
    | some ⟨op,.act (.append b) k,start,seen,some n⟩ =>
      Thread.wrote ⟨op,.act (.append b) k,start,seen,some n⟩ b (appendAt Y.store c.store n b none).1
    | _ => []
  | _ => []

def reported (Y : System S Op ε α σ) (c c' : Config S Op ε α σ) :
    Move S Op → List (Entry S Op α)
  | .stop _ => []
  | m => written Y c m ++ ((c'.threads m.slot).map Thread.result).getD []

def Guard.meets (G : Guard S Op ε α σ) (c : Config S Op ε α σ) : Move S Op → Prop
  | .spawn _ op => G.spawn c op
  | .turn i => ∀ t, c.threads i = some t →
    (t.pin = none → G.head c.store t) ∧ (t.pin.isSome = true → G.append c.store t.op)
  | _ => True

variable {m : Move S Op}

theorem move_reports {c c' : Config S Op ε α σ} (hG : G.meets c m) (h : move Y c m = some c') :
    Reports Y G c (reported Y c c' m) c' := by
  cases m with
  | spawn i op =>
    simp only [move] at h
    split at h
    · rename_i hi
      cases h
      have hr := Reports.spawn (Y := Y) (G := G) c i op hi hG
      simpa [reported,written,Move.slot,setThread_self] using hr
    · cases h
  | clock i now =>
    simp only [move] at h
    split at h
    · rename_i hi
      cases h
      have hr := Reports.clock (Y := Y) (G := G) c i _ _ now hi rfl
      simpa [reported,written,Move.slot,setThread_self] using hr
    · cases h
  | turn i =>
    simp only [move] at h
    split at h
    · rename_i hi
      cases h
      have hr := Reports.query (Y := Y) (G := G) c i _ _ _ hi rfl
      simpa [reported,written,hi,Move.slot,setThread_self] using hr
    · rename_i hi
      cases h
      have hr := Reports.head (Y := Y) (G := G) c i _ _ _ hi rfl rfl ((hG _ hi).1 rfl)
      simpa [reported,written,hi,Move.slot,setThread_self,Thread.result] using hr
    · rename_i hi
      cases h
      have hr := Reports.append (Y := Y) (G := G) c i _ _ _ _ none hi rfl rfl
        ((hG _ hi).2 rfl)
      simpa [reported,written,hi,Move.slot,setThread_self] using hr
    · cases h
  | stop i =>
    simp only [move] at h
    cases h
    exact .stop c i

theorem move_slot {c c' : Config S Op ε α σ} (h : move Y c m = some c') {j : Nat}
    (hj : j ≠ m.slot) : c'.threads j = c.threads j := by
  cases m <;> simp only [move] at h
  case stop i =>
    cases h
    exact setThread_ne _ _ hj
  all_goals
    split at h <;> cases h <;> exact setThread_ne _ _ hj

/-- Moves that `ok` allows meet the guard, from configurations that `I` says
something about. -/
structure Guard.Permits (Y : System S Op ε α σ) (G : Guard S Op ε α σ)
    (I : Config S Op ε α σ → Prop) (ok : Config S Op ε α σ → Move S Op → Prop) : Prop where
  meets : ∀ c m, I c → ok c m → G.meets c m
  keeps : ∀ c m c', I c → ok c m → move Y c m = some c' → I c'

def Along (Y : System S Op ε α σ) (ok : Config S Op ε α σ → Move S Op → Prop) :
    Config S Op ε α σ → List (Move S Op) → Prop
  | _, [] => True
  | c, m::ms => ok c m ∧
    match move Y c m with
    | some c' => Along Y ok c' ms
    | none => True

instance Along.decidable (ok : Config S Op ε α σ → Move S Op → Prop) [∀ c m, Decidable (ok c m)]
    (c : Config S Op ε α σ) (ms : List (Move S Op)) : Decidable (Along Y ok c ms) :=
  match ms with
  | [] => isTrue trivial
  | m::ms =>
    match hm : move Y c m with
    | some c' =>
      have : Decidable (Along Y ok c' ms) := Along.decidable ok c' ms
      decidable_of_iff (ok c m ∧ Along Y ok c' ms) (by simp only [Along,hm])
    | none => decidable_of_iff (ok c m) (by simp only [Along,hm,and_true])

variable {ms : List (Move S Op)}

theorem along_of_forall {ok : Move S Op → Prop} (h : ∀ m ∈ ms, ok m) (c : Config S Op ε α σ) :
    Along Y (fun _ m => ok m) c ms := by
  induction ms generalizing c with
  | nil => exact trivial
  | cons m ms ih =>
    refine ⟨h m (by simp),?_⟩
    split
    · exact ih (fun m hm => h m (mem_cons_of_mem _ hm)) _
    · exact trivial

def historyFrom (Y : System S Op ε α σ) : Config S Op ε α σ → List (Move S Op) →
    List (Entry S Op α)
  | _, [] => []
  | c, m::ms =>
    match move Y c m with
    | some c' => reported Y c c' m ++ historyFrom Y c' ms
    | none => []

def history (Y : System S Op ε α σ) (s₀ : σ) (ms : List (Move S Op)) : List (Entry S Op α) :=
  historyFrom Y ⟨s₀,fun _ => none⟩ ms

variable {ok : Config S Op ε α σ → Move S Op → Prop} {s₀ : σ} {I : Config S Op ε α σ → Prop}

theorem trace_moves (hG : G.Permits Y I ok)
    {es : List (Entry S Op α)} {c c' : Config S Op ε α σ} (hI : I c) (hok : Along Y ok c ms)
    (hc : Trace Y G s₀ es c) (h : moves Y c ms = some c') :
    Trace Y G s₀ (es ++ historyFrom Y c ms) c' := by
  induction ms generalizing c es with
  | nil =>
    cases h
    simpa [historyFrom] using hc
  | cons m ms ih =>
    rw [moves,foldlM_cons] at h
    obtain ⟨hm,hrest⟩ := hok
    cases hmove : move Y c m with
    | none => simp [hmove] at h
    | some d =>
      rw [hmove] at h hrest
      have hd := Trace.step hc (move_reports (hG.meets c m hI hm) hmove)
      have htail := ih (hG.keeps c m d hI hm hmove) hrest hd h
      simpa [historyFrom,hmove] using htail

theorem history_trace (hG : G.Permits Y I ok)
    (hI : I ⟨s₀,fun _ => none⟩) (hok : Along Y ok ⟨s₀,fun _ => none⟩ ms)
    (h : (moves Y ⟨s₀,fun _ => none⟩ ms).isSome = true) :
    Trace Y G s₀ (history Y s₀ ms) (after Y s₀ ms) := by
  obtain ⟨c,hc⟩ := Option.isSome_iff_exists.mp h
  have htrace := trace_moves hG hI hok .start hc
  rw [after,hc]
  simpa [history] using htrace

theorem Guard.permits_of (h : ∀ c m, ok c m → G.meets c m) : G.Permits Y (fun _ => True) ok :=
  ⟨fun c m _ hok => h c m hok,fun _ _ _ _ _ _ => trivial⟩

theorem history_free (h : (moves Y ⟨s₀,fun _ => none⟩ ms).isSome = true) :
    Trace Y Guard.free s₀ (history Y s₀ ms) (after Y s₀ ms) := by
  have hG : (Guard.free : Guard S Op ε α σ).Permits Y (fun _ => True) fun _ _ => True := by
    refine Guard.permits_of ?_
    intro c m _
    cases m with
    | turn i => exact fun _ _ => ⟨fun _ => trivial,fun _ => trivial⟩
    | _ => exact trivial
  exact history_trace hG trivial (along_of_forall (fun _ _ => trivial) _) h

def soloMove (check : σ → Op → Bool) (c : Config S Op ε α σ) : Move S Op → Bool
  | .spawn i _ => i == 0 && (c.threads 0).isNone
  | .turn i => i == 0 && (c.threads 0).all fun t => t.pin.isNone || check c.store t.op
  | m => m.slot == 0

variable {check : σ → Op → Bool}

theorem soloMove_slot {c : Config S Op ε α σ} (h : soloMove check c m = true) : m.slot = 0 := by
  cases m with
  | spawn | turn =>
    simp only [soloMove,Bool.and_eq_true,beq_iff_eq] at h
    exact h.1
  | _ => simpa [soloMove] using h

variable {may : σ → Op → Prop}

theorem oneAfterAnother_permits
    (hcheck : ∀ s op, check s op = true → may s op) :
    (oneAfterAnother may : Guard S Op ε α σ).Permits Y
      (fun c => ∀ i t, c.threads i = some t → i = 0) (fun c m => soloMove check c m = true) := by
  constructor
  · intro c m hI hok
    cases m with
    | spawn i op =>
      simp only [soloMove,Bool.and_eq_true,beq_iff_eq,Option.isNone_iff_eq_none] at hok
      intro j t hj
      obtain rfl := hI j t hj
      rw [hok.2] at hj
      cases hj
    | turn i =>
      simp only [soloMove,Bool.and_eq_true,beq_iff_eq] at hok
      obtain ⟨rfl,hall⟩ := hok
      intro t ht
      refine ⟨fun _ => trivial,?_⟩
      intro hpin
      rw [ht,Option.all_some] at hall
      have hpin' : t.pin.isNone = false := by
        cases hp : t.pin with
        | none => simp [hp] at hpin
        | some n => rfl
      rw [hpin',Bool.false_or] at hall
      exact hcheck _ _ hall
    | _ => exact trivial
  · intro c m c' hI hok hmove i t hi
    by_cases hslot : i = m.slot
    · rw [hslot,soloMove_slot hok]
    · rw [move_slot hmove hslot] at hi
      exact hI i t hi

theorem history_sequential (hcheck : ∀ s op, check s op = true → may s op)
    (hok : Along Y (fun c m => soloMove check c m = true) ⟨s₀,fun _ => none⟩ ms)
    (h : (moves Y ⟨s₀,fun _ => none⟩ ms).isSome = true) :
    Trace Y (oneAfterAnother may) s₀ (history Y s₀ ms) (after Y s₀ ms) :=
  history_trace (oneAfterAnother_permits hcheck) (by rintro i t ⟨⟩) hok h

theorem history_unchecked
    (hok : Along Y (fun c m => soloMove (fun _ _ => true) c m = true) ⟨s₀,fun _ => none⟩ ms)
    (h : (moves Y ⟨s₀,fun _ => none⟩ ms).isSome = true) :
    Trace Y (oneAfterAnother fun _ _ => True) s₀ (history Y s₀ ms) (after Y s₀ ms) :=
  history_sequential (fun _ _ _ => trivial) hok h

end Moves

end Optimistic
end ProjectOS.Lib
