import ProjectOS.Sched.Queue

/-! The bounded wait for empty queues: pass after pass over the registered
projects, until nothing is queued or the budget is spent. -/

namespace ProjectOS.Api
open Lib Domain Sched

structure QueueDepth where
  queued : Nat
  done : Nat
  dead : Nat
  deriving DecidableEq

def countJobsByState (db : Db) : QueueDepth where
  queued := db.jobs.rows.countP fun row => row.2.state = .queued
  done := db.jobs.rows.countP fun row => row.2.state = .done
  dead := db.jobs.rows.countP fun row => row.2.state = .dead

abbrev QueuePass := List (ProjectId × Except String Db)

def depth (read : Except String Db) : Except String QueueDepth := read.map countJobsByState

def addDepth (totals : Nat × Nat × Option String) : Except String QueueDepth →
    Nat × Nat × Option String
  | .ok depth => (satAdd64 totals.1 depth.queued,satAdd64 totals.2.1 depth.dead,totals.2.2)
  | .error error => (totals.1,totals.2.1,some error)

def queueTotals (pass : QueuePass) : Nat × Nat × Option String :=
  pass.foldl (fun totals read => addDepth totals (depth read.2)) (0,0,none)

structure WorkerDrainReport where
  quiescent : Bool
  queued_remaining : Nat
  dead_total : Nat
  waited_ms : Nat
  last_read_error : Option String
  deriving DecidableEq

structure DrainWorld where
  passes : Nat → QueuePass
  waited_ms : Nat → Nat

namespace DrainWorld
variable (w : DrainWorld) (budget_ms : Nat)

def report (n : Nat) : WorkerDrainReport :=
  let totals := queueTotals (w.passes n)
  { quiescent := totals.1 == 0
    queued_remaining := totals.1
    dead_total := totals.2.1
    waited_ms := w.waited_ms n
    last_read_error := totals.2.2 }

def drainFrom : Nat → Nat → Option (Nat × WorkerDrainReport)
  | _, 0 => none
  | n, rounds+1 =>
    if (queueTotals (w.passes n)).1 = 0 ∨ budget_ms ≤ w.waited_ms n then some (n,w.report n)
    else drainFrom (n+1) rounds

def drain (rounds : Nat) : Option (Nat × WorkerDrainReport) := w.drainFrom budget_ms 0 rounds

end DrainWorld

def SeenEmpty (read : Except String Db) : Prop :=
  ∃ db, read = .ok db ∧ ∀ row ∈ db.jobs.rows, row.2.state ≠ .queued

def SeenBusy (read : Except String Db) : Prop :=
  ∃ db, read = .ok db ∧ ∃ row ∈ db.jobs.rows, row.2.state = .queued

/-- A pass that could not read some queue, and saw no other busy. -/
structure Blind (pass : QueuePass) : Prop where
  failed : ∃ read ∈ pass, ∃ error, read.2 = .error error
  idle : ∀ read ∈ pass, ¬SeenBusy read.2

variable {read : Except String Db}

theorem seenBusy_iff :
    SeenBusy read ↔ ∃ d, depth read = .ok d ∧ d.queued ≠ 0 := by
  cases read with
  | error error => simp [SeenBusy,depth,Except.map]
  | ok db => simp [SeenBusy,depth,Except.map,countJobsByState]

theorem seenEmpty_iff :
    SeenEmpty read ↔ ¬SeenBusy read ∧ ∀ error, read ≠ .error error := by
  cases read with
  | error error => simp [SeenEmpty]
  | ok db => simp [SeenEmpty,SeenBusy]

theorem satAdd64_eq_zero {a b : Nat} : satAdd64 a b = 0 ↔ a = 0 ∧ b = 0 := by
  have hpos : 0 < u64Max := by decide
  simp only [satAdd64]
  omega

theorem queued_foldl (pass : QueuePass) (totals : Nat × Nat × Option String) :
    (pass.foldl (fun totals read => addDepth totals (depth read.2)) totals).1 = 0 ↔
      totals.1 = 0 ∧ ∀ read ∈ pass, ¬SeenBusy read.2 := by
  induction pass generalizing totals with
  | nil => simp
  | cons read pass ih =>
    rw [List.foldl_cons,ih,List.forall_mem_cons,seenBusy_iff]
    cases hdepth : depth read.2 with
    | error error => simp [addDepth]
    | ok d => simp [addDepth,satAdd64_eq_zero,and_assoc]

theorem queueTotals_queued (pass : QueuePass) :
    (queueTotals pass).1 = 0 ↔ ∀ read ∈ pass, ¬SeenBusy read.2 := by
  simp [queueTotals,queued_foldl]

theorem seenEmpty_or_blind {pass : QueuePass} (hidle : ∀ read ∈ pass, ¬SeenBusy read.2) :
    (∀ read ∈ pass, SeenEmpty read.2) ↔ ¬Blind pass := by
  constructor
  · rintro h ⟨⟨read,hread,error,herror⟩,-⟩
    exact (seenEmpty_iff.mp (h read hread)).2 error herror
  · intro h read hread
    refine seenEmpty_iff.mpr ⟨hidle read hread,fun error herror => ?_⟩
    exact h ⟨⟨read,hread,error,herror⟩,hidle⟩

namespace DrainWorld
variable {w : DrainWorld} {budget_ms : Nat}

def Waits (w : DrainWorld) (budget_ms n : Nat) : Prop :=
  (∃ read ∈ w.passes n, SeenBusy read.2) ∧ w.waited_ms n < budget_ms

theorem waits_iff {n : Nat} :
    w.Waits budget_ms n ↔ ¬((queueTotals (w.passes n)).1 = 0 ∨ budget_ms ≤ w.waited_ms n) := by
  simp [Waits,queueTotals_queued,not_or]

variable {r : WorkerDrainReport}

theorem drainFrom_iff {start rounds n : Nat} :
    w.drainFrom budget_ms start rounds = some (n,r) ↔
      start ≤ n ∧ n < start+rounds ∧ (∀ i, start ≤ i → i < n → w.Waits budget_ms i) ∧
        ¬w.Waits budget_ms n ∧ r = w.report n := by
  induction rounds generalizing start with
  | zero =>
    simp only [drainFrom,reduceCtorEq,false_iff]
    omega
  | succ rounds ih =>
    rw [drainFrom]
    split_ifs with hstop
    · have hwaits : ¬w.Waits budget_ms start := fun h => waits_iff.mp h hstop
      simp only [Option.some.injEq,Prod.mk.injEq]
      constructor
      · rintro ⟨rfl,rfl⟩
        exact ⟨le_refl _,by omega,fun i hi hlt => by omega,hwaits,rfl⟩
      · rintro ⟨hle,-,hbefore,-,rfl⟩
        rcases Nat.eq_or_lt_of_le hle with rfl | hlt
        · exact ⟨rfl,rfl⟩
        · exact absurd (hbefore start (le_refl _) hlt) hwaits
    · have hwaits := waits_iff.mpr hstop
      rw [ih]
      constructor
      · rintro ⟨hle,hlt,hbefore,hend⟩
        refine ⟨by omega,by omega,fun i hi hin => ?_,hend⟩
        rcases Nat.eq_or_lt_of_le hi with rfl | hi
        · exact hwaits
        · exact hbefore i hi hin
      · rintro ⟨hle,hlt,hbefore,hend⟩
        have hne : start ≠ n := by
          rintro rfl
          exact hend.1 hwaits
        exact ⟨by omega,by omega,fun i hi hin => hbefore i (by omega) hin,hend⟩

theorem drain_iff {rounds n : Nat} :
    w.drain budget_ms rounds = some (n,r) ↔
      n < rounds ∧ (∀ i < n, w.Waits budget_ms i) ∧ ¬w.Waits budget_ms n ∧ r = w.report n := by
  simp [drain,drainFrom_iff]

theorem drain_ends {last : Nat} (hlast : budget_ms ≤ w.waited_ms last) :
    ∃ n r, w.drain budget_ms (last+1) = some (n,r) := by
  classical
  have hend : ∃ n, ¬w.Waits budget_ms n := ⟨last,fun h => by have := h.2; omega⟩
  refine ⟨Nat.find hend,w.report (Nat.find hend),drain_iff.mpr ⟨?_,?_,Nat.find_spec hend,rfl⟩⟩
  · exact Nat.lt_succ_of_le (Nat.find_min' hend fun h => by have := h.2; omega)
  · exact fun i hi => not_not.mp (Nat.find_min hend hi)

end DrainWorld

/-- A drain that reports quiescence has read every queue and seen it empty, unless
it comes to a pass that is blind. -/
theorem drain_honest_iff (w : DrainWorld) (budget_ms : Nat) :
    (∀ rounds n report, w.drain budget_ms rounds = some (n,report) → report.quiescent = true →
      ∀ read ∈ w.passes n, SeenEmpty read.2) ↔
    ∀ n, (∀ i < n, w.Waits budget_ms i) → ¬Blind (w.passes n) := by
  constructor
  · intro h n hreached hblind
    have hidle : ¬w.Waits budget_ms n := fun hwaits =>
      hwaits.1.elim fun read hread => hblind.idle read hread.1 hread.2
    have hquiescent : (w.report n).quiescent = true := by
      simpa [DrainWorld.report] using (queueTotals_queued _).mpr hblind.idle
    refine (seenEmpty_or_blind hblind.idle).mp ?_ hblind
    exact h (n+1) n (w.report n)
      (DrainWorld.drain_iff.mpr ⟨Nat.lt_succ_self n,hreached,hidle,rfl⟩) hquiescent
  · intro h rounds n report hdrain hquiescent
    obtain ⟨-,hreached,-,rfl⟩ := DrainWorld.drain_iff.mp hdrain
    have hidle : ∀ read ∈ w.passes n, ¬SeenBusy read.2 := by
      refine (queueTotals_queued _).mp ?_
      simpa [DrainWorld.report] using hquiescent
    exact (seenEmpty_or_blind hidle).mpr (h n hreached)

def sickWorld : DrainWorld := ⟨fun _ => [(⟨0⟩,.error "database is locked")],fun _ => 0⟩

/-- The wait is over at once, with a queue that nobody has read. -/
theorem sick_project_quiescent : ¬∀ rounds n report,
    sickWorld.drain 1000 rounds = some (n,report) → report.quiescent = true →
      ∀ read ∈ sickWorld.passes n, SeenEmpty read.2 := by
  intro h
  obtain ⟨db,hdb,-⟩ := h 1 0 (sickWorld.report 0) rfl rfl _ (List.mem_singleton.mpr rfl)
  cases hdb

end ProjectOS.Api
