import ProjectOS.Lib.Optimistic

/-! A program logic for optimistic transactions. An assertion says which stores
are compatible with what the attempt has read; an append is checked only at
such stores. -/

namespace ProjectOS.Lib.Optimistic
open List
variable {S : Signature} {Op ε α β σ : Type}

/-- What a group of operations promises: `compat q a` is how far an answer describes
a later store, `may` is when an append is attempted. -/
structure Contract (S : Signature) (Op σ : Type) where
  compat : (q : S.Query) → S.Answer q → σ → Prop
  inv : σ → Prop
  may : σ → Op → Prop
  rel : σ → S.Batch → σ → Prop

def Holds (D : Store S σ) (K : Contract S Op σ) (op : Op) :
    OptProg S ε α → (α → (σ → Prop) → Prop) → (σ → Prop) → Prop
  | .ret a, Q, P => Q a P
  | .throw _, _, _ => True
  | .act (.query q) k, Q, P =>
    ∀ a, Holds D K op (k a) Q
      (fun s => (S.opens q = false → P s) ∧ K.compat q a s)
  | .act .now k, Q, P => ∀ t, Holds D K op (k t) Q P
  | .act (.append b) k, Q, P =>
    (∀ s s', P s → K.inv s → K.may s op → D.apply s b = .ok s' → K.inv s' ∧ K.rel s b s') ∧
      ∀ r, Holds D K op (k r) Q (fun _ => True)

def anyResult : α → (σ → Prop) → Prop := fun _ _ => True

variable {D : Store S σ} {K : Contract S Op σ} {op : Op} {p : OptProg S ε α}

theorem holds_mono {Q R : α → (σ → Prop) → Prop} {P P' : σ → Prop} (h : Holds D K op p Q P)
    (hP : ∀ s, P' s → P s) (hQ : ∀ a A B, (∀ s, B s → A s) → Q a A → R a B) :
    Holds D K op p R P' := by
  induction p generalizing P P' with
  | ret a => exact hQ a P P' hP h
  | throw e => exact trivial
  | act a k ih =>
    cases a with
    | query q =>
      intro a
      exact ih a (h a) (fun s hs => ⟨fun ho => hP s (hs.1 ho),hs.2⟩)
    | now =>
      intro t
      exact ih t (h t) hP
    | append b =>
      refine ⟨fun s s' hs => h.1 s s' (hP s hs),?_⟩
      intro r
      exact ih r (h.2 r) (fun _ hs => hs)

theorem holds_pre {P P' : σ → Prop} (h : Holds D K op p anyResult P) (hP : ∀ s, P' s → P s) :
    Holds D K op p anyResult P' :=
  holds_mono h hP (fun _ _ _ _ _ => trivial)

/-- What was answered still holds of the store. -/
def Compat (compat : (q : S.Query) → S.Answer q → σ → Prop) (seen : List (Obs S)) (s : σ) : Prop :=
  ∀ q a, Obs.answer q a ∈ seen → compat q a s

def Current (D : Store S σ) (t : Thread S Op ε α) (s : σ) : Prop :=
  Compat (fun q a s => D.answer s q = a) t.seen s

/-- What is left of a thread keeps its contract, given what it has seen. -/
structure ThreadOk (D : Store S σ) (K : Contract S Op σ) (t : Thread S Op ε α) (s : σ) : Prop where
  rest : Holds D K t.op t.prog anyResult (Compat K.compat t.seen)
  pinned : ∀ n, t.pin = some n → n ≤ D.head s ∧ (D.head s = n → Compat K.compat t.seen s)

structure ConfigOk (D : Store S σ) (K : Contract S Op σ) (c : Config S Op ε α σ) : Prop where
  inv : K.inv c.store
  threads : ∀ i t, c.threads i = some t → ThreadOk D K t c.store

variable {s s' : σ}

theorem compat_append {compat : (q : S.Query) → S.Answer q → σ → Prop} {seen : List (Obs S)}
    {o : Obs S} (h : Compat compat (seen ++ [o]) s) :
    Compat compat seen s ∧ ∀ q a, o = .answer q a → compat q a s := by
  constructor
  · intro q a ha
    exact h q a (mem_append_left _ ha)
  · intro q a ho
    exact h q a (by simp [ho])

theorem threadOk_fresh (h : Holds D K op p anyResult (fun _ => True)) :
    ThreadOk D K (Thread.fresh op p) s where
  rest := holds_pre h (fun _ _ => trivial)
  pinned := by
    intro n hn
    cases hn

variable {t : Thread S Op ε α}

theorem threadOk_learn {q : S.Query}
    {k : S.Answer q → OptProg S ε α} (ht : ThreadOk D K t s) (hp : t.prog = .act (.query q) k)
    (a : S.Answer q) : ThreadOk D K (Thread.learn t q a (k a)) s' := by
  have hrest := ht.rest
  rw [hp] at hrest
  have ha := hrest a
  cases ho : S.opens q with
  | true =>
    simp only [Thread.learn,ho,if_true]
    refine ⟨holds_pre ha ?_,by simp⟩
    intro u hu
    exact ⟨fun hf => absurd hf (by simp [ho]),hu q a (by simp)⟩
  | false =>
    rw [Thread.learn,ho]
    refine ⟨holds_pre ha ?_,by simp⟩
    intro u hu
    obtain ⟨h1,h2⟩ := compat_append hu
    exact ⟨fun _ => h1,h2 q a rfl⟩

theorem threadOk_apply {b : S.Batch} (ht : ThreadOk D K t s)
    (ha : D.apply s b = .ok s') : ThreadOk D K t s' where
  rest := ht.rest
  pinned := by
    intro n hn
    have hlt := D.head_lt ha
    have hle := (ht.pinned n hn).1
    exact ⟨by omega,fun h => by omega⟩

variable {Y : System S Op ε α σ} {G : Guard S Op ε α σ}

section
variable (hcode : ∀ op, Holds Y.store K op (Y.code op) anyResult (fun _ => True))
include hcode

section
variable (hmay : ∀ s op, G.append s op → K.may s op)
include hmay

section
variable (hhead : ∀ s t, G.head s t → Compat K.compat t.seen s)
include hhead

theorem step_ok
    {c c' : Config S Op ε α σ}
    (hc : ConfigOk Y.store K c) (h : Step Y G c c') :
    ConfigOk Y.store K c' ∧ (c'.store = c.store ∨ ∃ b, K.rel c.store b c'.store) := by
  cases h with
  | spawn i op hi hg =>
    refine ⟨⟨hc.inv,setThread_keeps ?_ hc.threads⟩,Or.inl rfl⟩
    rintro u ⟨⟩
    exact threadOk_fresh (hcode op)
  | query i t q k hi hp =>
    refine ⟨⟨hc.inv,setThread_keeps ?_ hc.threads⟩,Or.inl rfl⟩
    rintro u ⟨⟩
    exact threadOk_learn (hc.threads i t hi) hp _
  | clock i t k now hi hp =>
    refine ⟨⟨hc.inv,setThread_keeps ?_ hc.threads⟩,Or.inl rfl⟩
    rintro u ⟨⟩
    have hrest := (hc.threads i t hi).rest
    rw [hp] at hrest
    refine ⟨holds_pre (hrest now) ?_,by simp⟩
    intro s hs
    exact (compat_append hs).1
  | head i t b k hi hp hpin hg =>
    refine ⟨⟨hc.inv,setThread_keeps ?_ hc.threads⟩,Or.inl rfl⟩
    rintro u ⟨⟩
    refine ⟨(hc.threads i t hi).rest,?_⟩
    rintro n ⟨⟩
    exact ⟨Nat.le_refl _,fun _ => hhead c.store t hg⟩
  | append i t b k n refused hi hp hpin hg =>
    have ht := hc.threads i t hi
    have hrest := ht.rest
    rw [hp] at hrest
    have hown : ∀ u, some (Thread.fresh t.op (k (appendAt Y.store c.store n b refused).1)) = some u →
        ThreadOk Y.store K u (appendAt Y.store c.store n b refused).2 := by
      rintro u ⟨⟩
      exact threadOk_fresh (hrest.2 _)
    rcases appendAt_cases Y.store c.store n b refused with hs | ⟨hn,ha⟩
    · refine ⟨⟨?_,setThread_forall hown ?_⟩,Or.inl hs⟩
      · show K.inv (appendAt Y.store c.store n b refused).2
        rw [hs]
        exact hc.inv
      · intro j u _ hu
        show ThreadOk Y.store K u (appendAt Y.store c.store n b refused).2
        rw [hs]
        exact hc.threads j u hu
    · have hseen := (ht.pinned n hpin).2 hn
      obtain ⟨hinv,hrel⟩ := hrest.1 _ _ hseen hc.inv (hmay _ _ hg) ha
      refine ⟨⟨hinv,setThread_forall hown ?_⟩,Or.inr ⟨b,hrel⟩⟩
      intro j u _ hu
      exact threadOk_apply (hc.threads j u hu) ha
  | stop i =>
    refine ⟨⟨hc.inv,setThread_keeps ?_ hc.threads⟩,Or.inl rfl⟩
    rintro u ⟨⟩

theorem run_ok
    {s₀ : σ} (h₀ : K.inv s₀)
    {c : Config S Op ε α σ} (h : Reachable Y G s₀ c) : ConfigOk Y.store K c := by
  induction h with
  | refl => exact ⟨h₀,by rintro i t ⟨⟩⟩
  | tail _ hstep ih => exact (step_ok hcode hmay hhead ih hstep).1

theorem run_rel
    {s₀ : σ} (h₀ : K.inv s₀)
    {R : σ → σ → Prop} (hrefl : ∀ s, R s s) (htrans : ∀ s t u, R s t → R t u → R s u)
    (hR : ∀ s b s', K.rel s b s' → R s s') {c d : Config S Op ε α σ} (hc : Reachable Y G s₀ c)
    (hd : Relation.ReflTransGen (Step Y G) c d) : R c.store d.store := by
  induction hd with
  | refl => exact hrefl _
  | tail hcd hstep ih =>
    have hok := run_ok hcode hmay hhead h₀ (Relation.ReflTransGen.trans hc hcd)
    rcases (step_ok hcode hmay hhead hok hstep).2 with hs | ⟨b,hb⟩
    · rw [hs]
      exact ih
    · exact htrans _ _ _ ih (hR _ _ _ hb)

end

end

end

section Stable
variable {compat : (q : S.Query) → S.Answer q → σ → Prop}

theorem step_stable (hanswer : ∀ s q, compat q (Y.store.answer s q) s)
    (hstable : ∀ s b s' q a, Y.store.apply s b = .ok s' → compat q a s → compat q a s')
    {c c' : Config S Op ε α σ} (hc : ∀ i t, c.threads i = some t → Compat compat t.seen c.store)
    (h : Step Y G c c') : ∀ i t, c'.threads i = some t → Compat compat t.seen c'.store := by
  cases h with
  | spawn i op hi hg =>
    refine setThread_keeps ?_ hc
    rintro u ⟨⟩ q a ha
    cases ha
  | query i t q k hi hp =>
    refine setThread_keeps ?_ hc
    rintro u ⟨⟩ q' a ha
    simp only [Thread.learn] at ha
    split at ha
    · simp only [mem_singleton,Obs.answer.injEq] at ha
      obtain ⟨rfl,ha⟩ := ha
      cases ha
      exact hanswer _ _
    · rcases mem_append.mp ha with h1 | h1
      · exact hc i t hi q' a h1
      · simp only [mem_singleton,Obs.answer.injEq] at h1
        obtain ⟨rfl,h1⟩ := h1
        cases h1
        exact hanswer _ _
  | clock i t k now hi hp =>
    refine setThread_keeps ?_ hc
    rintro u ⟨⟩ q a ha
    exact hc i t hi q a (by simpa using ha)
  | head i t b k hi hp hpin hg =>
    refine setThread_keeps ?_ hc
    rintro u ⟨⟩
    exact hc i t hi
  | append i t b k n refused hi hp hpin hg =>
    refine setThread_forall ?_ ?_
    · rintro u ⟨⟩ q a ha
      cases ha
    · intro j u _ hu q a ha
      have hua := hc j u hu q a ha
      rcases appendAt_cases Y.store c.store n b refused with hs | ⟨_,happ⟩
      · show compat q a (appendAt Y.store c.store n b refused).2
        rw [hs]
        exact hua
      · exact hstable _ _ _ q a happ hua
  | stop i =>
    refine setThread_keeps ?_ hc
    rintro u ⟨⟩

theorem reachable_stable (compat : (q : S.Query) → S.Answer q → σ → Prop)
    (hanswer : ∀ s q, compat q (Y.store.answer s q) s)
    (hstable : ∀ s b s' q a, Y.store.apply s b = .ok s' → compat q a s → compat q a s')
    {s₀ : σ} {c : Config S Op ε α σ} (h : Reachable Y G s₀ c) :
    Reachable Y { G with head := fun s t => Compat compat t.seen s } s₀ c ∧
      ∀ i t, c.threads i = some t → Compat compat t.seen c.store := by
  induction h with
  | refl => exact ⟨.refl,by rintro i t ⟨⟩⟩
  | tail _ hstep ih =>
    refine ⟨ih.1.tail (step_mono ?_ ?_ ?_ hstep),step_stable hanswer hstable ih.2 hstep⟩
    · intro c op hg
      exact hg
    · intro s op hg
      exact hg
    · intro i t hi _ _
      exact ih.2 i t hi

end Stable

section Sequential

def Alone (c : Config S Op ε α σ) : Prop := ∀ i t, c.threads i = some t → t.finished = true

def OneAtATime (D : Store S σ) (c : Config S Op ε α σ) : Prop :=
  Alone c ∨ ∃ i t, c.threads i = some t ∧ Current D t c.store ∧
    ∀ j u, j ≠ i → c.threads j = some u → u.finished = true

variable {c : Config S Op ε α σ} {t : Thread S Op ε α}

theorem OneAtATime.of_running (h : OneAtATime D c) {i : Nat}
    (hi : c.threads i = some t) (ht : t.finished = false) :
    Current D t c.store ∧ ∀ j u, j ≠ i → c.threads j = some u → u.finished = true := by
  rcases h with h | ⟨j,u,hj,hu,hrest⟩
  · rw [h i t hi] at ht
    cases ht
  · by_cases hij : i = j
    · subst hij
      rw [hi] at hj
      cases hj
      exact ⟨hu,hrest⟩
    · rw [hrest i t hij hi] at ht
      cases ht

theorem OneAtATime.setThread {i : Nat} {s : σ} (ht : Current D t s)
    (hrest : ∀ j u, j ≠ i → c.threads j = some u → u.finished = true) :
    OneAtATime D (setThread { c with store := s } i (some t)) := by
  refine Or.inr ⟨i,t,setThread_self _ _ _,ht,?_⟩
  intro j u hj hu
  rw [setThread_ne _ _ hj] at hu
  exact hrest j u hj hu

section
variable (hspawn : ∀ c op, G.spawn c op → Alone c)
include hspawn

theorem step_sequential {c' : Config S Op ε α σ}
    (hc : OneAtATime Y.store c) (h : Step Y G c c') : OneAtATime Y.store c' := by
  cases h with
  | spawn i op hi hg =>
    refine OneAtATime.setThread (c := c) (s := c.store) ?_ (fun j u _ hu => hspawn c op hg j u hu)
    intro q a ha
    cases ha
  | query i t q k hi hp =>
    obtain ⟨hcur,hrest⟩ := hc.of_running hi (finished_act hp)
    refine OneAtATime.setThread (c := c) (s := c.store) ?_ hrest
    intro q' a ha
    simp only [Thread.learn] at ha
    split at ha
    · simp only [mem_singleton,Obs.answer.injEq] at ha
      obtain ⟨rfl,ha⟩ := ha
      cases ha
      rfl
    · rcases mem_append.mp ha with h1 | h1
      · exact hcur q' a h1
      · simp only [mem_singleton,Obs.answer.injEq] at h1
        obtain ⟨rfl,h1⟩ := h1
        cases h1
        rfl
  | clock i t k now hi hp =>
    obtain ⟨hcur,hrest⟩ := hc.of_running hi (finished_act hp)
    refine OneAtATime.setThread (c := c) (s := c.store) ?_ hrest
    intro q a ha
    exact hcur q a (by simpa using ha)
  | head i t b k hi hp hpin hg =>
    obtain ⟨hcur,hrest⟩ := hc.of_running hi (finished_act hp)
    exact OneAtATime.setThread (c := c) (s := c.store) hcur hrest
  | append i t b k n refused hi hp hpin hg =>
    obtain ⟨_,hrest⟩ := hc.of_running hi (finished_act hp)
    refine OneAtATime.setThread (c := c) ?_ hrest
    intro q a ha
    cases ha
  | stop i =>
    rcases hc with hc | ⟨j,u,hj,hu,hrest⟩
    · exact Or.inl (setThread_keeps (by rintro u ⟨⟩) hc)
    · by_cases hij : j = i
      · subst hij
        exact Or.inl (setThread_forall (by rintro u ⟨⟩) (fun k v hk hv => hrest k v hk hv))
      · refine Or.inr ⟨j,u,?_,hu,?_⟩
        · rw [setThread_ne _ _ hij]
          exact hj
        · intro k v hk hv
          by_cases hki : k = i
          · rw [hki,setThread_self] at hv
            cases hv
          · rw [setThread_ne _ _ hki] at hv
            exact hrest k v hk hv

theorem reachable_sequential {s₀ : σ} (h : Reachable Y G s₀ c) :
    Reachable Y { G with head := fun s t => Current Y.store t s } s₀ c ∧ OneAtATime Y.store c := by
  induction h with
  | refl => exact ⟨.refl,Or.inl (by rintro i t ⟨⟩)⟩
  | tail _ hstep ih =>
    refine ⟨ih.1.tail (step_mono ?_ ?_ ?_ hstep),step_sequential hspawn ih.2 hstep⟩
    · intro c op hg
      exact hg
    · intro s op hg
      exact hg
    · intro i t hi ht _
      exact (ih.2.of_running hi ht).1

theorem path_sequential {s₀ : σ} {d : Config S Op ε α σ}
    (hc : Reachable Y G s₀ c) (hd : Relation.ReflTransGen (Step Y G) c d) :
    Relation.ReflTransGen (Step Y { G with head := fun s t => Current Y.store t s }) c d := by
  induction hd with
  | refl => exact .refl
  | tail hcd hstep ih =>
    have hone := (reachable_sequential hspawn (Relation.ReflTransGen.trans hc hcd)).2
    refine ih.tail (step_mono ?_ ?_ ?_ hstep)
    · intro c op hg
      exact hg
    · intro s op hg
      exact hg
    · intro i t hi ht _
      exact (hone.of_running hi ht).1

end

/-- Nothing else is under way when an operation starts. -/
def oneAfterAnother (may : σ → Op → Prop) : Guard S Op ε α σ :=
  ⟨fun c _ => Alone c,fun _ _ => True,may⟩

def Move.slot : Move S Op → Nat
  | .spawn i _ => i
  | .turn i => i
  | .clock i _ => i
  | .stop i => i

def Move.allowed (allow : Op → Prop) : Move S Op → Prop
  | .spawn _ op => allow op
  | _ => True

def Solo (allow : Op → Prop) (c : Config S Op ε α σ) : Prop :=
  ∀ i t, c.threads i = some t → i = 0 ∧ allow t.op

variable {allow : Op → Prop}

theorem solo_setThread {s : σ} {t : Option (Thread S Op ε α)} (hc : Solo allow c)
    (ht : ∀ u, t = some u → allow u.op) : Solo allow (setThread { c with store := s } 0 t) := by
  intro j u hu
  by_cases hj : j = 0
  · subst hj
    rw [setThread_self] at hu
    exact ⟨rfl,ht u hu⟩
  · rw [setThread_ne _ _ hj] at hu
    exact hc j u hu

theorem learn_op (t : Thread S Op ε α) (q : S.Query) (a : S.Answer q) (p : OptProg S ε α) :
    (Thread.learn t q a p).op = t.op := by
  unfold Thread.learn
  split
  · rfl
  · rfl

variable {may : σ → Op → Prop} {c' : Config S Op ε α σ}

theorem move_solo (hallow : ∀ s op, allow op → may s op) {m : Move S Op}
    (hm : m.slot = 0) (ha : m.allowed allow) (hc : Solo allow c) (h : move Y c m = some c') :
    Step Y (oneAfterAnother may) c c' ∧ Solo allow c' := by
  cases m with
  | spawn i op =>
    cases hm
    simp only [move] at h
    split at h
    · rename_i hi
      cases h
      refine ⟨.spawn c 0 op hi ?_,solo_setThread (s := c.store) hc (by rintro u ⟨⟩; exact ha)⟩
      intro j u hu
      obtain ⟨rfl,_⟩ := hc j u hu
      rw [hi] at hu
      cases hu
    · cases h
  | clock i now =>
    cases hm
    simp only [move] at h
    split at h
    · rename_i hi
      cases h
      exact ⟨.clock c 0 _ _ now hi rfl,
        solo_setThread (s := c.store) hc (by rintro u ⟨⟩; exact (hc _ _ hi).2)⟩
    · cases h
  | turn i =>
    cases hm
    simp only [move] at h
    split at h
    · rename_i hi
      cases h
      refine ⟨.query c 0 _ _ _ hi rfl,solo_setThread (s := c.store) hc ?_⟩
      rintro u ⟨⟩
      rw [learn_op]
      exact (hc _ _ hi).2
    · rename_i hi
      cases h
      exact ⟨.head c 0 _ _ _ hi rfl rfl trivial,
        solo_setThread (s := c.store) hc (by rintro u ⟨⟩; exact (hc _ _ hi).2)⟩
    · rename_i hi
      cases h
      exact ⟨.append c 0 _ _ _ _ none hi rfl rfl (hallow _ _ (hc _ _ hi).2),
        solo_setThread hc (by rintro u ⟨⟩; exact (hc _ _ hi).2)⟩
    · cases h
  | stop i =>
    cases hm
    simp only [move] at h
    cases h
    exact ⟨.stop c 0,solo_setThread (s := c.store) hc (by rintro u ⟨⟩)⟩

variable {ms : List (Move S Op)}

theorem moves_solo (hallow : ∀ s op, allow op → may s op)
    (hms : ∀ m ∈ ms, m.slot = 0 ∧ m.allowed allow) (hc : Solo allow c)
    (h : moves Y c ms = some c') : Relation.ReflTransGen (Step Y (oneAfterAnother may)) c c' := by
  induction ms generalizing c with
  | nil =>
    cases h
    exact .refl
  | cons m ms ih =>
    rw [moves,foldlM_cons] at h
    cases hm : move Y c m with
    | none => simp [hm] at h
    | some d =>
      rw [hm] at h
      obtain ⟨hslot,hal⟩ := hms m (by simp)
      obtain ⟨hstep,hsolo⟩ := move_solo hallow hslot hal hc hm
      exact .head hstep (ih (fun m hm => hms m (mem_cons_of_mem _ hm)) hsolo h)

theorem after_sequential (allow : Op → Prop) (hallow : ∀ s op, allow op → may s op) {s₀ : σ}
    (hms : ∀ m ∈ ms, m.slot = 0 ∧ m.allowed allow)
    (h : (moves Y ⟨s₀,fun _ => none⟩ ms).isSome = true) :
    Reachable Y (oneAfterAnother may) s₀ (after Y s₀ ms) := by
  obtain ⟨c,hc⟩ := Option.isSome_iff_exists.mp h
  rw [after,hc]
  exact moves_solo hallow hms (by rintro i t ⟨⟩) hc

end Sequential

section Replay

def computes (D : Store S σ) : OptProg S ε α → σ → List Nat → Option S.Batch
  | .act (.query q) k, s, ts => computes D (k (D.answer s q)) s ts
  | .act .now k, s, t::ts => computes D (k t) s ts
  | .act (.append b) _, _, _ => some b
  | _, _, _ => none

def clocks : List (Obs S) → List Nat
  | [] => []
  | .answer _ _::os => clocks os
  | .clock t::os => t::clocks os

/-- The program that is left once these answers are seen. -/
inductive Follows : OptProg S ε α → List (Obs S) → OptProg S ε α → Prop where
  | refl (p : OptProg S ε α) : Follows p [] p
  | query (q : S.Query) (k : S.Answer q → OptProg S ε α) (a : S.Answer q) (seen : List (Obs S))
      (r : OptProg S ε α) (h : Follows (k a) seen r) :
      Follows (.act (.query q) k) (.answer q a::seen) r
  | clock (k : Nat → OptProg S ε α) (t : Nat) (seen : List (Obs S)) (r : OptProg S ε α)
      (h : Follows (k t) seen r) : Follows (.act .now k) (.clock t::seen) r

variable {seen : List (Obs S)}

theorem Follows.snoc_query {p : OptProg S ε α} {q : S.Query} {k : S.Answer q → OptProg S ε α}
    (h : Follows p seen (.act (.query q) k)) (a : S.Answer q) :
    Follows p (seen ++ [.answer q a]) (k a) := by
  generalize hr : (Prog.act (.query q) k : OptProg S ε α) = r at h
  induction h with
  | refl p =>
    subst hr
    exact .query q k a [] _ (.refl _)
  | query q' k' a' seen r _ ih => exact .query q' k' a' _ _ (ih hr)
  | clock k' t seen r _ ih => exact .clock k' t _ _ (ih hr)

theorem Follows.snoc_clock {p : OptProg S ε α} {k : Nat → OptProg S ε α}
    (h : Follows p seen (.act .now k)) (t : Nat) : Follows p (seen ++ [.clock t]) (k t) := by
  generalize hr : (Prog.act .now k : OptProg S ε α) = r at h
  induction h with
  | refl p =>
    subst hr
    exact .clock k t [] _ (.refl _)
  | query q' k' a' seen r _ ih => exact .query q' k' a' _ _ (ih hr)
  | clock k' t' seen r _ ih => exact .clock k' t' _ _ (ih hr)

theorem computes_follows {p r : OptProg S ε α} {s : σ} (h : Follows p seen r)
    (hs : Compat (fun q a s => D.answer s q = a) seen s) (ts : List Nat) :
    computes D p s (clocks seen ++ ts) = computes D r s ts := by
  induction h with
  | refl p => rfl
  | query q k a seen r _ ih =>
    have ha : D.answer s q = a := hs q a (by simp)
    rw [computes,ha]
    exact ih (fun q a h => hs q a (mem_cons_of_mem _ h))
  | clock k t seen r _ ih => exact ih (fun q a h => hs q a (mem_cons_of_mem _ h))

variable {c : Config S Op ε α σ}

theorem step_follows {c' : Config S Op ε α σ}
    (hc : ∀ i t, c.threads i = some t → Follows t.start t.seen t.prog) (h : Step Y G c c') :
    ∀ i t, c'.threads i = some t → Follows t.start t.seen t.prog := by
  cases h with
  | spawn | append =>
    refine setThread_keeps ?_ hc
    rintro u ⟨⟩
    exact .refl _
  | query i t q k hi hp =>
    refine setThread_keeps ?_ hc
    rintro u ⟨⟩
    have ht := hc i t hi
    rw [hp] at ht
    simp only [Thread.learn]
    split
    · rw [hp]
      exact .query q k _ [] _ (.refl _)
    · exact ht.snoc_query _
  | clock i t k now hi hp =>
    refine setThread_keeps ?_ hc
    rintro u ⟨⟩
    have ht := hc i t hi
    rw [hp] at ht
    exact ht.snoc_clock now
  | head i t b k hi hp hpin hg =>
    refine setThread_keeps ?_ hc
    rintro u ⟨⟩
    exact hc i t hi
  | stop i =>
    refine setThread_keeps ?_ hc
    rintro u ⟨⟩

theorem run_follows {s₀ : σ} (h : Reachable Y G s₀ c) :
    ∀ i t, c.threads i = some t → Follows t.start t.seen t.prog := by
  induction h with
  | refl => rintro i t ⟨⟩
  | tail _ hstep ih => exact step_follows ih hstep

def currentContract (D : Store S σ) : Contract S Op σ where
  compat q a s := D.answer s q = a
  inv _ := True
  may _ _ := True
  rel _ _ _ := True

theorem holds_trivial (p : OptProg S ε α) (P : σ → Prop) :
    Holds D (currentContract D) op p anyResult P := by
  induction p generalizing P with
  | ret | throw => exact trivial
  | act a k ih =>
    cases a with
    | query q => exact fun a => ih a _
    | now => exact fun t => ih t _
    | append b => exact ⟨fun _ _ _ _ _ _ => ⟨trivial,trivial⟩,fun r => ih r _⟩

theorem append_computed (hhead : ∀ s t, G.head s t → Current Y.store t s) {s₀ : σ}
    (h : Reachable Y G s₀ c) {i : Nat} {t : Thread S Op ε α}
    {b : S.Batch} {k : Except (AppendError S.Fault) Unit → OptProg S ε α}
    (hi : c.threads i = some t) (hp : t.prog = .act (.append b) k)
    (hpin : t.pin = some (Y.store.head c.store)) :
    computes Y.store t.start c.store (clocks t.seen) = some b := by
  have hok := run_ok (K := currentContract Y.store) (fun op => holds_trivial _ _)
    (fun _ _ _ => trivial) hhead trivial h
  have hseen := ((hok.threads i t hi).pinned _ hpin).2 rfl
  have hfol := computes_follows (run_follows h i t hi) hseen []
  rw [hp,append_nil] at hfol
  rw [hfol]
  rfl

end Replay

end ProjectOS.Lib.Optimistic
