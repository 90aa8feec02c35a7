import ProjectOS.Lib.Reports

/-! Access to a project's database: one writer behind a mutex, a few pooled
readers, and a flag that stops the store once durability is lost. -/

namespace ProjectOS.Store
open Lib

inductive FaultPoint where
  | casTempWritten
  | casRenamed
  | walCommit
  | logEventInserted
  | logApplied
  | logSnapshotWritten
  deriving DecidableEq

inductive FaultAction where
  | abort
  | failOperation
  deriving DecidableEq

structure FaultPlan where
  point : FaultPoint
  action : FaultAction
  deriving DecidableEq

def trip (faults : Option FaultPlan) (point : FaultPoint) : Option FaultAction :=
  match faults with
  | none => none
  | some plan => if plan.point ≠ point then none else some plan.action

inductive ErrorCode where
  | diskFull
  | systemIoFailure
  | databaseCorrupt
  | notADatabase
  | other (code : Nat)
  deriving DecidableEq

inductive SqliteError where
  | sqliteFailure (code : ErrorCode)
  | other (message : String)
  deriving DecidableEq

inductive StoreError where
  | sqlite (context : String) (source : SqliteError)
  | durabilityLost (context : String) (path : String)
  | failStopped (path : String)
  deriving DecidableEq

def READER_CONNECTION_COUNT_MAX : Nat := 4

def is_durability_loss : SqliteError → Bool
  | .sqliteFailure .diskFull
  | .sqliteFailure .systemIoFailure
  | .sqliteFailure .databaseCorrupt
  | .sqliteFailure .notADatabase => true
  | _ => false

structure ProjectDb where
  path : String
  faults : Option FaultPlan

/-- What the threads of one handle share; what was committed is kept transaction by
transaction. -/
structure Shared (W : Type) where
  writer_locked : Bool
  writer_poisoned : Bool
  fail_stopped : Bool
  transaction : Option (List W)
  committed : List (List W)
  readers : Nat
  aborted : Bool

inductive DbAct (W R : Type) where
  | load_fail_stopped
  | store_fail_stopped
  | lock_writer
  | unlock_writer (panicking : Bool)
  | begin_immediate
  | statement (w : W)
  | commit
  | rollback
  | pop_reader
  | open_reader
  | read (r : R)
  | push_reader
  | abort
  deriving DecidableEq

abbrev dbIface (W R A : Type) : Interface where
  Act := DbAct W R
  Resp
    | .load_fail_stopped => Bool
    | .lock_writer => Except Unit Unit
    | .begin_immediate => Except SqliteError Unit
    | .statement _ => Except SqliteError A
    | .commit => Except SqliteError Unit
    | .pop_reader => Except Unit Bool
    | .open_reader => Except SqliteError Unit
    | .read _ => Except SqliteError A
    | .push_reader => Except Unit Unit
    | _ => Unit

/-- How SQLite answers, whether an error ended the transaction, and whether the
mutex is poisoned. -/
structure DbInput (A : Type) where
  answer : Except SqliteError A
  ended : Bool := false
  readers_poisoned : Bool := false

variable {W R A ε α : Type}

def Shared.write (s : Shared W) (w : W) : Shared W :=
  match s.transaction with
  | some ws => { s with transaction := some (ws ++ [w]) }
  | none => { s with committed := s.committed ++ [[w]] }

def dbMachine (W R A : Type) : Machine (dbIface W R A) (DbInput A) (Shared W) where
  step x s
    | .load_fail_stopped => (s.fail_stopped,s)
    | .store_fail_stopped => ((),{ s with fail_stopped := true })
    | .lock_writer =>
      (if s.writer_poisoned then .error () else .ok (),{ s with writer_locked := true })
    | .unlock_writer panicking =>
      ((),{ s with writer_locked := false, writer_poisoned := s.writer_poisoned || panicking })
    | .begin_immediate =>
      match x.answer with
      | .ok _ => (.ok (),{ s with transaction := some [] })
      | .error e => (.error e,s)
    | .statement w =>
      match x.answer with
      | .ok a => (.ok a,s.write w)
      | .error e => (.error e,if x.ended then { s with transaction := none } else s)
    | .commit =>
      match x.answer with
      | .ok _ =>
        (.ok (),{ s with transaction := none, committed := s.committed ++ s.transaction.toList })
      | .error e => (.error e,s)
    | .rollback => ((),{ s with transaction := none })
    | .pop_reader =>
      if x.readers_poisoned then (.error (),s)
      else (.ok (decide (0 < s.readers)),{ s with readers := s.readers-1 })
    | .open_reader => (x.answer.map fun _ => (),s)
    | .read _ => (x.answer,s)
    | .push_reader =>
      if x.readers_poisoned then (.error (),s)
      else
        (.ok (),if s.readers < READER_CONNECTION_COUNT_MAX then { s with readers := s.readers+1 }
          else s)
    | .abort => ((),{ s with aborted := true })

def enabled (_ : DbInput A) (s : Shared W) (a : DbAct W R) : Prop :=
  s.aborted = false ∧ (a = .lock_writer → s.writer_locked = false)

instance [DecidableEq W] [DecidableEq R] (x : DbInput A) (s : Shared W) (a : DbAct W R) :
    Decidable (enabled x s a) := inferInstanceAs (Decidable (_ ∧ _))

inductive Unwind (ε : Type) where
  | err (e : ε)
  | panic

structure Operation (W R A ε α : Type) (P : DbAct W R → Prop) where
  body : Prog (dbIface W R A) (Unwind ε) α
  speaks : body.Within P

def DbAct.Writes : DbAct W R → Prop
  | .statement _ => True
  | _ => False

def DbAct.Reads : DbAct W R → Prop
  | .read _ => True
  | _ => False

inductive Failure (ε : Type) where
  | store (e : StoreError)
  | operation (e : ε)
  | panic
  deriving DecidableEq

abbrev DbProg (W R A ε α : Type) := Prog (dbIface W R A) (Failure ε) α

namespace ProjectDb
variable (db : ProjectDb)

def ensure_live : DbProg W R A ε Unit :=
  .act .load_fail_stopped fun stopped =>
    if stopped then .throw (.store (.failStopped db.path)) else .ret ()

def declare_durability_lost (context : String) : DbProg W R A ε StoreError :=
  .act .store_fail_stopped fun _ => .ret (.durabilityLost context db.path)

def fail_stop_error : DbProg W R A ε StoreError :=
  .act .store_fail_stopped fun _ => .ret (.failStopped db.path)

def classify (context : String) (source : SqliteError) : DbProg W R A ε StoreError :=
  if is_durability_loss source then db.declare_durability_lost context
  else .ret (.sqlite context source)

def lock_writer : DbProg W R A ε Unit :=
  .act .lock_writer fun
    | .ok () => .ret ()
    | .error () => do
      let e ← db.fail_stop_error
      .act (.unlock_writer false) fun _ => .throw (.store e)

def release (panicking : Bool) (r : Except (Failure ε) α) : DbProg W R A ε α :=
  .act (.unlock_writer panicking) fun _ => .ofExcept r

def with_writer (context : String) (operation : Operation W R A SqliteError α DbAct.Writes) :
    DbProg W R A ε α := do
  db.ensure_live
  db.lock_writer
  match ← operation.body.attempt with
  | .ok out => release false (.ok out)
  | .error (.err source) => do
    let e ← db.classify context source
    release false (.error (.store e))
  | .error .panic => release true (.error .panic)

def write_transaction (context : String) (operation : Operation W R A ε α DbAct.Writes) :
    DbProg W R A ε α := do
  db.ensure_live
  db.lock_writer
  .act .begin_immediate fun
    | .error source => do
      let e ← db.classify context source
      release false (.error (.store e))
    | .ok () => do
      match ← operation.body.attempt with
      | .error (.err e) => .act .rollback fun _ => release false (.error (.operation e))
      | .error .panic => .act .rollback fun _ => release true (.error .panic)
      | .ok out =>
        match trip db.faults .walCommit with
        | some .abort => .act .abort fun _ => .throw .panic
        | some .failOperation => do
          let e ← db.declare_durability_lost context
          .act .rollback fun _ => release false (.error (.store e))
        | none =>
          .act .commit fun
            | .ok () => release false (.ok out)
            | .error source => .act .rollback fun _ => do
              let e ← db.classify context source
              release false (.error (.store e))

def take_reader : DbProg W R A ε Unit :=
  .act .pop_reader fun
    | .error () => do
      let e ← db.fail_stop_error
      .throw (.store e)
    | .ok true => .ret ()
    | .ok false => .act .open_reader fun
      | .error source => .throw (.store (.sqlite "open read connection" source))
      | .ok () => .ret ()

def return_reader : DbProg W R A ε Unit :=
  .act .push_reader fun
    | .error () => do
      let e ← db.fail_stop_error
      .throw (.store e)
    | .ok () => .ret ()

def with_reader (context : String) (operation : Operation W R A SqliteError α DbAct.Reads) :
    DbProg W R A ε α := do
  db.ensure_live
  db.take_reader
  match ← operation.body.attempt with
  | .error .panic => .throw .panic
  | .error (.err source) => do
    let e ← db.classify context source
    db.return_reader
    .throw (.store e)
  | .ok out => do
    db.return_reader
    .ret out

end ProjectDb

inductive DbCall (W R A ε α : Type) where
  | with_writer (context : String) (operation : Operation W R A SqliteError α DbAct.Writes)
  | write_transaction (context : String) (operation : Operation W R A ε α DbAct.Writes)
  | with_reader (context : String) (operation : Operation W R A SqliteError α DbAct.Reads)

def ProjectDb.call (db : ProjectDb) : DbCall W R A ε α → DbProg W R A ε α
  | .with_writer context operation => db.with_writer context operation
  | .write_transaction context operation => db.write_transaction context operation
  | .with_reader context operation => db.with_reader context operation

def ProjectDb.Lost (db : ProjectDb) (r : Except (Failure ε) α) : Prop :=
  ∃ context, r = .error (.store (.durabilityLost context db.path))

def stopping (W R A : Type) : Discipline (dbIface W R A) (DbInput A) (Shared W) where
  inv _ := True
  rely s t := s.fail_stopped = true → t.fail_stopped = true
  given _ _ _ := True
  may _ _ := True
  refl _ h := h
  trans _ _ _ h₁ h₂ h := h₂ (h₁ h)

theorem write_fail_stopped (s : Shared W) (w : W) : (s.write w).fail_stopped = s.fail_stopped := by
  rw [Shared.write]
  split <;> rfl

theorem step_fail_stopped (x : DbInput A) (s : Shared W) (a : DbAct W R)
    (h : s.fail_stopped = true) : ((dbMachine W R A).step x s a).2.fail_stopped = true := by
  cases a with
  | store_fail_stopped => rfl
  | begin_immediate | commit | pop_reader =>
    simp only [dbMachine]
    split <;> exact h
  | statement w =>
    simp only [dbMachine]
    split
    · exact (write_fail_stopped s w).trans h
    · split <;> exact h
  | push_reader =>
    simp only [dbMachine]
    split
    · exact h
    · split <;> exact h
  | _ => exact h

theorem stopping_upheld : Pool.Upheld (dbMachine W R A) (stopping W R A) :=
  fun x s a _ _ _ => ⟨trivial,step_fail_stopped x s a⟩

namespace ProjectDb
variable (db : ProjectDb)

def Warned (r : Except (Failure ε) α) (s : Shared W) : Prop := db.Lost r → s.fail_stopped = true

abbrev Warns (p : DbProg W R A ε α) (s : Shared W) : Prop :=
  p.Assured (dbMachine W R A) (stopping W R A) db.Warned s

variable {db} {s : Shared W} {r : Except (Failure ε) α}

theorem warned_of_other (h : ¬db.Lost r) : db.Warned r s :=
  fun hlost => absurd hlost h

variable {a : DbAct W R}

theorem warns_next {k : (dbIface W R A).Resp a → DbProg W R A ε α}
    (h : ∀ x t, (s.fail_stopped = true → ((dbMachine W R A).step x t a).2.fail_stopped = true) →
      db.Warns (k ((dbMachine W R A).step x t a).1) ((dbMachine W R A).step x t a).2) :
    db.Warns (.act a k) s :=
  fun t hst _ => ⟨trivial,fun x _ _ hrel => h x t fun hs => hrel (hst hs)⟩

theorem warns_act {k : (dbIface W R A).Resp a → DbProg W R A ε α}
    (h : ∀ x t, db.Warns (k ((dbMachine W R A).step x t a).1) ((dbMachine W R A).step x t a).2) :
    db.Warns (.act a k) s := warns_next fun x t _ => h x t

theorem warns_release {panicking : Bool} (h : db.Warned r s) :
    db.Warns (release panicking r : DbProg W R A ε α) s := by
  intro t hst _
  refine ⟨trivial,fun x _ _ hrel => ?_⟩
  have hlater : ∀ u : Shared W, (s.fail_stopped = true → u.fail_stopped = true) →
      db.Warned r u := fun u hu hlost => hu (h hlost)
  cases r with
  | ok | error => exact hlater _ fun hs => hrel (hst hs)

variable (context : String)

theorem warns_classify (source : SqliteError) {k : StoreError → DbProg W R A ε α}
    (hk : ∀ e t, db.Warned (.error (.store e) : Except (Failure ε) α) t → db.Warns (k e) t) :
    db.Warns ((db.classify context source).bind k) s := by
  rw [classify]
  split
  · exact warns_act fun x t => hk _ _ fun _ => rfl
  · refine hk _ _ (warned_of_other ?_)
    rintro ⟨c,hc⟩
    cases hc

theorem warns_store {e : StoreError} (h : ∀ context, e ≠ .durabilityLost context db.path) :
    db.Warns (.throw (.store e) : DbProg W R A ε α) s := by
  refine warned_of_other ?_
  rintro ⟨c,hc⟩
  cases hc
  exact h c rfl

variable {k : Unit → DbProg W R A ε α}

theorem warns_ensure_live (hk : ∀ t, db.Warns (k ()) t) : db.Warns (db.ensure_live.bind k) s := by
  refine warns_act fun x t => ?_
  cases hstopped : ((dbMachine W R A).step x t .load_fail_stopped).1 with
  | true => exact warns_store nofun
  | false => exact hk _

theorem warns_lock_writer (hk : ∀ t, db.Warns (k ()) t) : db.Warns (db.lock_writer.bind k) s := by
  refine warns_act fun x t => ?_
  cases hlock : ((dbMachine W R A).step x t .lock_writer).1 with
  | ok u => exact hk _
  | error u => exact warns_act fun _ _ => warns_act fun _ _ => warns_store nofun

theorem warns_operation {ε' : Type} {p : Prog (dbIface W R A) (Unwind ε') α}
    {k : Except (Unwind ε') α → DbProg W R A ε α} (hk : ∀ r t, db.Warns (k r) t) :
    db.Warns (p.attempt.bind k) s := by
  refine Prog.assured_bind ?_
  refine Prog.assured_attempt (Prog.assured_mono ?_ (Prog.assured_within (P := fun _ => True)
    ?_ fun _ _ _ _ _ => trivial))
  · exact fun r t _ => hk r t
  · induction p with
    | ret | throw => trivial
    | act a k ih => exact ⟨trivial,ih⟩

theorem with_writer_warns (operation : Operation W R A SqliteError α DbAct.Writes) (s : Shared W) :
    db.Warns (db.with_writer context operation : DbProg W R A ε α) s := by
  refine warns_ensure_live fun t => warns_lock_writer fun t => warns_operation fun r t => ?_
  rcases r with (source | _) | out
  · exact warns_classify context source fun e t h => warns_release h
  · exact warns_release (warned_of_other nofun)
  · exact warns_release (warned_of_other nofun)

theorem write_transaction_warns (operation : Operation W R A ε α DbAct.Writes) (s : Shared W) :
    db.Warns (db.write_transaction context operation) s := by
  refine warns_ensure_live fun t => warns_lock_writer fun t => warns_act fun x t => ?_
  cases ((dbMachine W R A).step x t .begin_immediate).1 with
  | error source => exact warns_classify context source fun e t h => warns_release h
  | ok u =>
    refine warns_operation fun r t => ?_
    rcases r with (e | _) | out
    · exact warns_act fun _ _ => warns_release (warned_of_other nofun)
    · exact warns_act fun _ _ => warns_release (warned_of_other nofun)
    · simp only
      split
      · exact warns_act fun _ _ => warned_of_other nofun
      · refine warns_act fun x t => ?_
        have hlost : ((dbMachine W R A).step x t .store_fail_stopped).2.fail_stopped = true := rfl
        exact warns_next fun _ _ hkept => warns_release fun _ => hkept hlost
      · refine warns_act fun x t => ?_
        cases ((dbMachine W R A).step x t .commit).1 with
        | ok u => exact warns_release (warned_of_other nofun)
        | error source =>
          exact warns_act fun _ _ => warns_classify context source fun e t h => warns_release h

theorem warns_take_reader (hk : ∀ t, db.Warns (k ()) t) : db.Warns (db.take_reader.bind k) s := by
  refine warns_act fun x t => ?_
  cases ((dbMachine W R A).step x t .pop_reader).1 with
  | error u => exact warns_act fun _ _ => warns_store nofun
  | ok pooled =>
    cases pooled with
    | true => exact hk _
    | false =>
      refine warns_act fun x t => ?_
      cases ((dbMachine W R A).step x t .open_reader).1 with
      | error source => exact warns_store nofun
      | ok u => exact hk _

theorem warns_return_reader
    (hk : ∀ t : Shared W, (s.fail_stopped = true → t.fail_stopped = true) → db.Warns (k ()) t) :
    db.Warns (db.return_reader.bind k) s := by
  refine warns_next fun x t hkept => ?_
  cases ((dbMachine W R A).step x t .push_reader).1 with
  | error u => exact warns_act fun _ _ => warns_store nofun
  | ok u => exact hk _ hkept

theorem with_reader_warns (operation : Operation W R A SqliteError α DbAct.Reads) (s : Shared W) :
    db.Warns (db.with_reader context operation : DbProg W R A ε α) s := by
  refine warns_ensure_live fun t => warns_take_reader fun t => warns_operation fun r t => ?_
  rcases r with (source | _) | out
  · refine warns_classify context source fun e t h => warns_return_reader fun u hkept => ?_
    exact fun hlost => hkept (h hlost)
  · exact warned_of_other nofun
  · exact warns_return_reader fun t _ => warned_of_other nofun

theorem call_warns (op : DbCall W R A ε α) (s : Shared W) : db.Warns (db.call op) s := by
  cases op with
  | with_writer context operation => exact with_writer_warns context operation s
  | write_transaction context operation => exact write_transaction_warns context operation s
  | with_reader context operation => exact with_reader_warns context operation s

end ProjectDb

def Live : (a : DbAct W R) → (dbIface W R A).Resp a → Prop
  | .load_fail_stopped, stopped => stopped = false
  | _, _ => False

/-- Writes and commits only after it has seen the store live. -/
def Guarded : DbProg W R A ε α → Prop
  | .ret _
  | .throw _ => True
  | .act a k => a ≠ .commit ∧ ¬a.Writes ∧ ∀ r, ¬Live a r → Guarded (k r)

theorem step_committed (x : DbInput A) (s : Shared W) {a : DbAct W R} (hcommit : a ≠ .commit)
    (hwrites : ¬a.Writes) : ((dbMachine W R A).step x s a).2.committed = s.committed := by
  cases a with
  | commit => exact absurd rfl hcommit
  | statement w => exact absurd trivial hwrites
  | begin_immediate | pop_reader =>
    simp only [dbMachine]
    split <;> rfl
  | push_reader =>
    simp only [dbMachine]
    split
    · rfl
    · split <;> rfl
  | _ => rfl

theorem call_guarded (db : ProjectDb) (op : DbCall W R A ε α) : Guarded (db.call op) := by
  have hlive : ∀ k : Unit → DbProg W R A ε α, Guarded (db.ensure_live.bind k) := by
    refine fun k => ⟨nofun,id,fun stopped hdead => ?_⟩
    cases stopped with
    | true => trivial
    | false => exact absurd rfl hdead
  cases op with
  | with_writer | write_transaction | with_reader => exact hlive _

abbrev DbPool (W R A ε α : Type) :=
  Pool (dbIface W R A) (DbCall W R A ε α) (Failure ε) α (Shared W)

abbrev DbTurn (W R A ε α : Type) := Turn (DbCall W R A ε α) (DbInput A)

def AllGuarded (c : DbPool W R A ε α) : Prop :=
  ∀ i op p, c.threads i = some (op,p) → Guarded p

variable {db : ProjectDb} {c : DbPool W R A ε α}

theorem turn_guarded (hstopped : c.store.fail_stopped = true) (db : ProjectDb)
    (hall : AllGuarded c) (t : DbTurn W R A ε α) :
    (c.turn (dbMachine W R A) db.call t).store.fail_stopped = true ∧
      AllGuarded (c.turn (dbMachine W R A) db.call t) ∧
      (c.turn (dbMachine W R A) db.call t).store.committed = c.store.committed := by
  have hset : ∀ (s : Shared W) i (th : Option (DbCall W R A ε α × DbProg W R A ε α)),
      (∀ op p, th = some (op,p) → Guarded p) → AllGuarded (c.setThread s i th) := by
    intro s i th hth j op p hj
    by_cases hij : j = i
    · subst hij
      exact hth op p (by simpa [Pool.setThread] using hj)
    · exact hall j op p (by simpa [Pool.setThread,hij] using hj)
  cases t with
  | start i op =>
    refine ⟨hstopped,hset _ _ _ fun op' p hp => ?_,rfl⟩
    cases hp
    exact call_guarded db op
  | lose i => exact ⟨hstopped,hset _ _ _ (by rintro _ _ ⟨⟩),rfl⟩
  | act i x =>
    cases hi : c.threads i with
    | none =>
      simp only [Pool.turn,hi]
      exact ⟨hstopped,hall,trivial⟩
    | some th =>
      obtain ⟨op,p⟩ := th
      have hp := hall i op p hi
      cases p with
      | ret | throw =>
        simp only [Pool.turn,hi]
        exact ⟨hstopped,hall,trivial⟩
      | act a k =>
        simp only [Pool.turn,hi]
        obtain ⟨hcommit,hwrites,hk⟩ := hp
        refine ⟨step_fail_stopped x _ a hstopped,hset _ _ _ fun op' q hq => ?_,
          step_committed x _ hcommit hwrites⟩
        cases hq
        refine hk _ fun hlive => ?_
        cases a with
        | load_fail_stopped => exact absurd (hstopped.symm.trans hlive) (by rintro ⟨⟩)
        | _ => exact hlive

theorem turns_guarded (hstopped : c.store.fail_stopped = true) (db : ProjectDb)
    (hall : AllGuarded c) (ts : List (DbTurn W R A ε α)) :
    (c.turns (dbMachine W R A) db.call ts).store.committed = c.store.committed := by
  induction ts generalizing c with
  | nil => rfl
  | cons t ts ih =>
    obtain ⟨hstopped',hall',heq⟩ := turn_guarded hstopped db hall t
    exact (ih hstopped' hall').trans heq

/-- When a call loses the store, no other is past its live check. -/
def AloneInLoss (db : ProjectDb) : DbPool W R A ε α → List (DbTurn W R A ε α) → Prop
  | _, [] => True
  | c, t :: ts =>
    (∀ op r, Pool.report (dbMachine W R A) db.call c t = some (op,r) → db.Lost r →
        AllGuarded (c.turn (dbMachine W R A) db.call t)) ∧
      AloneInLoss db (c.turn (dbMachine W R A) db.call t) ts

theorem aloneInLoss_at {before after : List (DbTurn W R A ε α)} {t : DbTurn W R A ε α}
    (h : AloneInLoss db c (before ++ t :: after)) :
    ∀ op r, Pool.report (dbMachine W R A) db.call (c.turns (dbMachine W R A) db.call before) t =
        some (op,r) → db.Lost r →
      AllGuarded ((c.turns (dbMachine W R A) db.call before).turn (dbMachine W R A) db.call t) := by
  induction before generalizing c with
  | nil => exact h.1
  | cons u before ih => exact ih h.2

theorem report_stopped (s : Shared W) (ts : List (DbTurn W R A ε α)) (t : DbTurn W R A ε α)
    {op : DbCall W R A ε α} {r : Except (Failure ε) α}
    (hreport : Pool.report (dbMachine W R A) db.call
      ((Pool.fresh s).turns (dbMachine W R A) db.call ts) t = some (op,r))
    (hlost : db.Lost r) :
    (((Pool.fresh s).turns (dbMachine W R A) db.call ts).turn
      (dbMachine W R A) db.call t).store.fail_stopped = true := by
  have hkeeps : ∀ (op : DbCall W R A ε α) (r : Except (Failure ε) α) (s t : Shared W),
      (stopping W R A).rely s t → db.Warned r s → db.Warned r t :=
    fun _ _ _ _ hst h hl => hst (h hl)
  have hcalls : ∀ (op : DbCall W R A ε α) (s : Shared W), (stopping W R A).inv s →
      db.Warns (db.call op) s := fun op s _ => ProjectDb.call_warns op s
  have hfresh : Pool.SoundFor (dbMachine W R A) (stopping W R A) (fun _ => db.Warned)
      (Pool.fresh s : DbPool W R A ε α) := Pool.fresh_soundFor trivial
  exact Pool.report_soundFor stopping_upheld hkeeps hcalls hfresh
    (Pool.along_of_free fun _ _ _ => trivial) hreport hlost

/-- Once a call has said that durability is lost nothing is committed any more,
in every run where no other call was past its live check at that moment. -/
theorem lost_commits_nothing (s : Shared W) (before after : List (DbTurn W R A ε α))
    (t : DbTurn W R A ε α) (halone : AloneInLoss db (Pool.fresh s) (before ++ t :: after))
    (op : DbCall W R A ε α) (r : Except (Failure ε) α)
    (hreport : Pool.report (dbMachine W R A) db.call
      ((Pool.fresh s).turns (dbMachine W R A) db.call before) t = some (op,r))
    (hlost : db.Lost r) :
    ((Pool.fresh s).turns (dbMachine W R A) db.call (before ++ t :: after)).store.committed =
      ((Pool.fresh s).turns (dbMachine W R A) db.call (before ++ [t])).store.committed := by
  have hstopped := report_stopped s before t hreport hlost
  have hstill := turns_guarded hstopped db (aloneInLoss_at halone op r hreport hlost) after
  rw [Pool.turns_append,Pool.turns_append]
  exact hstill

def insert (n : Nat) : Operation Nat Unit Unit Unit Unit DbAct.Writes where
  body := .act (.statement n) fun
    | .ok () => .ret ()
    | .error _ => .throw (.err ())
  speaks := ⟨trivial,fun r => by cases r <;> trivial⟩

def projectDb : ProjectDb := ⟨"project.db",none⟩

def opened : Shared Nat := ⟨false,false,false,none,[],0,false⟩

def appending (n : Nat) : DbCall Nat Unit Unit Unit Unit := .write_transaction "append event" (insert n)

def well (i : Nat) : DbTurn Nat Unit Unit Unit Unit := .act i { answer := .ok () }

def failing (i : Nat) : DbTurn Nat Unit Unit Unit Unit :=
  .act i { answer := .error (.sqliteFailure .systemIoFailure) }

def lossTurns : List (DbTurn Nat Unit Unit Unit Unit) :=
  [.start 0 (appending 1),well 0,well 0,well 0,well 0,failing 0,well 0,well 0]

theorem append_refused :
    ((Pool.fresh opened).turns (dbMachine Nat Unit Unit) projectDb.call
        (lossTurns ++ well 0 :: [.start 1 (appending 2),well 1])).store.committed =
      ((Pool.fresh opened).turns (dbMachine Nat Unit Unit) projectDb.call
        (lossTurns ++ [well 0])).store.committed := by
  refine lost_commits_nothing opened lossTurns _ _ ?_ (appending 1)
    (.error (.store (.durabilityLost "append event" "project.db"))) rfl ⟨_,rfl⟩
  refine ⟨nofun,nofun,nofun,nofun,nofun,nofun,nofun,nofun,?_,nofun,?_,trivial⟩
  · intro op r _ _ i op p hp
    cases i with
    | zero =>
      cases hp
      trivial
    | succ i => cases hp
  · intro op r hreport hlost
    cases hreport
    obtain ⟨context,hcontext⟩ := hlost
    cases hcontext

/-- The second append has made its live check before the first fails. It takes
the writer after the first has returned, and commits. -/
theorem append_after_loss : ∃ op,
    Pool.Along (dbMachine Nat Unit Unit) projectDb.call enabled (Pool.fresh opened)
        ([.start 1 (appending 2),well 1] ++ lossTurns ++
          well 0 :: [well 1,well 1,well 1,well 1]) ∧
      Pool.report (dbMachine Nat Unit Unit) projectDb.call
          ((Pool.fresh opened).turns (dbMachine Nat Unit Unit) projectDb.call
            ([.start 1 (appending 2),well 1] ++ lossTurns)) (well 0) =
        some (op,.error (.store (.durabilityLost "append event" "project.db"))) ∧
      ((Pool.fresh opened).turns (dbMachine Nat Unit Unit) projectDb.call
        ([.start 1 (appending 2),well 1] ++ lossTurns ++ [well 0])).store.committed = [] ∧
      ((Pool.fresh opened).turns (dbMachine Nat Unit Unit) projectDb.call
        ([.start 1 (appending 2),well 1] ++ lossTurns ++
          well 0 :: [well 1,well 1,well 1,well 1])).store.committed = [[2]] :=
  ⟨appending 1,by decide,rfl,rfl,rfl⟩

end ProjectOS.Store
