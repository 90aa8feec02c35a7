import ProjectOS.Sched.Runs

namespace ProjectOS.Sched
open Lib Domain List

def settledAttempt : JobEvent → Option (JobId × Nat)
  | .attemptFailed j a _ _ _ => some (j,a)
  | .completedV1 j a => some (j,a)
  | .completedV2 j a _ => some (j,a)
  | .dead _ _ (.supersededByCron _) => none
  | .dead j a _ => some (j,a)
  | _ => none

def Db.settled (db : Db) : List (JobId × Nat) := db.facts.filterMap settledAttempt

variable {e : JobEvent}

theorem settledAttempt_some {j : JobId} {a : Nat} (h : settledAttempt e = some (j,a)) :
    e.job = some j ∧ nextAttempt e = some a ∧ isEnqueue e = false := by
  cases e with
  | attemptFailed | completedV1 | completedV2 =>
    simp only [settledAttempt,Option.some.injEq,Prod.mk.injEq] at h
    simp [JobEvent.job,nextAttempt,isEnqueue,h]
  | dead i b r =>
    cases r with
    | supersededByCron c => simp [settledAttempt] at h
    | _ =>
      simp only [settledAttempt,Option.some.injEq,Prod.mk.injEq] at h
      simp [JobEvent.job,nextAttempt,isEnqueue,h]
  | _ => simp [settledAttempt] at h

@[simp] theorem failureEvent_settledAttempt (attempt : FailedAttempt) (failure : JobFailure)
    (delay_ms : Nat) :
    settledAttempt (failureEvent attempt failure delay_ms) =
      some (attempt.job_id,attempt.attempt_index) := by
  unfold failureEvent
  split
  · split <;> rfl
  · rfl

variable {db db' : Db} {ts_ms : Nat}

theorem append_settled (h : db.append ts_ms e = .ok db') :
    db'.settled = db.settled ++ (settledAttempt e).toList := by
  obtain ⟨-,hf,-⟩ := append_ok h
  rw [Db.settled,hf,filterMap_append]
  cases hs : settledAttempt e with
  | none | some => simp [Db.settled,hs]

/-- A counter above zero names an attempt some fact settled, and leases reserve
attempts from one up. -/
structure Counted (db : Db) : Prop where
  rows : ∀ j row, db.jobs.get? j = some row →
    ∃ n : Nat, row.attempt_count = n ∧ n ≤ u32Max ∧ (n = 0 ∨ (j,n) ∈ db.settled)
  leases : ∀ j lease, db.leases.get? j = some lease →
    ∃ n : Nat, lease.attempt_index = n ∧ 1 ≤ n ∧ n ≤ u32Max

/-- While no settle is stale no attempt is settled twice, and the counter is at
least each one. -/
structure SettledOnce (db : Db) : Prop where
  nodup : db.settled.Nodup
  counted : ∀ j a, (j,a) ∈ db.settled → ∃ n, db.attemptCount j = some n ∧ (a : Int) ≤ n

def CountsGrow (db db' : Db) : Prop :=
  ∀ j n, db.attemptCount j = some n → ∃ m, db'.attemptCount j = some m ∧ n ≤ m

theorem countsGrow_refl (db : Db) : CountsGrow db db := fun _ n h => ⟨n,h,le_refl n⟩

theorem countsGrow_trans {a b c : Db} (h₁ : CountsGrow a b) (h₂ : CountsGrow b c) :
    CountsGrow a c := by
  intro j n h
  obtain ⟨m,hm,hnm⟩ := h₁ j n h
  obtain ⟨k,hk,hmk⟩ := h₂ j m hm
  exact ⟨k,hk,hnm.trans hmk⟩

theorem append_counted (h : db.append ts_ms e = .ok db') (hc : Counted db)
    (he : ∀ j a, e.job = some j → isEnqueue e = false → nextAttempt e = some a →
      a ≤ u32Max ∧ (settledAttempt e = some (j,a) ∨ a = 0 ∨ (j,a) ∈ db.settled)) : Counted db' := by
  have hset := append_settled h
  constructor
  · intro j row' hr'
    by_cases hj : e.job = some j
    · cases hq : isEnqueue e with
      | true =>
        obtain ⟨-,-,hcount⟩ := append_enqueue h hq hj
        simp only [Db.attemptCount,hr',Option.map_some,Option.some.injEq] at hcount
        exact ⟨0,by simpa using hcount,by simp [u32Max],Or.inl rfl⟩
      | false =>
        obtain ⟨row,-,-,hcount⟩ := append_update h hq hj
        simp only [Db.attemptCount,hr',Option.map_some] at hcount
        obtain ⟨a,ha,hrow⟩ := Option.map_eq_some_iff.mp hcount.symm
        obtain ⟨hmax,hs⟩ := he j a hj hq ha
        refine ⟨a,hrow.symm,hmax,?_⟩
        rw [hset]
        rcases hs with hs | h0 | hs
        · exact Or.inr (by simp [hs])
        · exact Or.inl h0
        · exact Or.inr (mem_append_left _ hs)
    · rw [append_other h hj] at hr'
      obtain ⟨n,hn,hmax,hs⟩ := hc.rows j row' hr'
      refine ⟨n,hn,hmax,?_⟩
      rw [hset]
      exact hs.imp_right (mem_append_left _)
  · intro j lease hl
    rw [(append_ok h).2.2.1] at hl
    exact hc.leases j lease hl

theorem nextAttempt_of_job {j : JobId} (h : e.job = some j) : ∃ a, nextAttempt e = some a := by
  cases e with
  | cronRegistered | cronEnablementSet => simp [JobEvent.job] at h
  | _ => exact ⟨_,rfl⟩

theorem append_countsGrow (h : db.append ts_ms e = .ok db')
    (he : ∀ j a n, e.job = some j → isEnqueue e = false → nextAttempt e = some a →
      db.attemptCount j = some n → n ≤ a) : CountsGrow db db' := by
  intro j n hn
  by_cases hj : e.job = some j
  · cases hq : isEnqueue e with
    | true =>
      obtain ⟨hnone,-,-⟩ := append_enqueue h hq hj
      simp [Db.attemptCount,hnone] at hn
    | false =>
      obtain ⟨row,hr,-,hcount⟩ := append_update h hq hj
      obtain ⟨a,ha⟩ := nextAttempt_of_job hj
      rw [ha] at hcount
      exact ⟨a,hcount,he j a n hj hq ha hn⟩
  · refine ⟨n,?_,le_refl n⟩
    rw [Db.attemptCount,append_other h hj]
    exact hn

theorem append_settledOnce (h : db.append ts_ms e = .ok db') (ho : SettledOnce db)
    (hgrow : CountsGrow db db')
    (he : ∀ j a n, settledAttempt e = some (j,a) → db.attemptCount j = some n → n < a) :
    SettledOnce db' := by
  have hset := append_settled h
  constructor
  · rw [hset]
    cases hs : settledAttempt e with
    | none => simpa using ho.nodup
    | some p =>
      obtain ⟨j,a⟩ := p
      refine nodup_append.mpr ⟨ho.nodup,by simp,?_⟩
      intro x hx y hy
      obtain rfl : y = (j,a) := by simpa using hy
      rintro rfl
      obtain ⟨n,hn,han⟩ := ho.counted j a hx
      have hlt := he j a n hs hn
      omega
  · intro j a hm
    rw [hset,mem_append] at hm
    rcases hm with hm | hm
    · obtain ⟨n,hn,han⟩ := ho.counted j a hm
      obtain ⟨m,hm',hnm⟩ := hgrow j n hn
      exact ⟨m,hm',han.trans hnm⟩
    · have hs : settledAttempt e = some (j,a) := by simpa using hm
      obtain ⟨hj,ha,hq⟩ := settledAttempt_some hs
      obtain ⟨row,-,-,hcount⟩ := append_update h hq hj
      rw [ha] at hcount
      exact ⟨a,hcount,le_refl _⟩

theorem counted_releaseLease (h : Counted db) (j : JobId) : Counted (db.releaseLease j) := by
  refine ⟨h.rows,?_⟩
  intro i lease hl
  by_cases hij : i = j
  · subst hij
    simp [Db.releaseLease] at hl
  · exact h.leases i lease (by rwa [Db.releaseLease,Table.get?_erase_ne _ hij] at hl)

/-- A step keeps the attempt counts, and settles no attempt twice. -/
structure Accounts (db db' : Db) : Prop where
  counted : Counted db → Counted db'
  once : Counted db → SettledOnce db → SettledOnce db' ∧ CountsGrow db db'

theorem accounts_refl (db : Db) : Accounts db db :=
  ⟨fun h => h,fun _ h => ⟨h,countsGrow_refl db⟩⟩

theorem accounts_trans (a b c : Db) (h₁ : Accounts a b) (h₂ : Accounts b c) : Accounts a c := by
  refine ⟨fun h => h₂.counted (h₁.counted h),?_⟩
  intro hc ho
  obtain ⟨ho₁,hg₁⟩ := h₁.once hc ho
  obtain ⟨ho₂,hg₂⟩ := h₂.once (h₁.counted hc) ho₁
  exact ⟨ho₂,countsGrow_trans hg₁ hg₂⟩

theorem accounts_releaseLease (db : Db) (j : JobId) : Accounts db (db.releaseLease j) :=
  ⟨fun h => counted_releaseLease h j,fun _ h => ⟨⟨h.nodup,h.counted⟩,countsGrow_refl db⟩⟩

theorem append_accounts (h : db.append ts_ms e = .ok db')
    (hcount : Counted db → ∀ j a, e.job = some j → isEnqueue e = false → nextAttempt e = some a →
      a ≤ u32Max ∧ (settledAttempt e = some (j,a) ∨ a = 0 ∨ (j,a) ∈ db.settled))
    (hgrow : Counted db → ∀ j a n, e.job = some j → isEnqueue e = false →
      nextAttempt e = some a → db.attemptCount j = some n → n ≤ a)
    (honce : Counted db → ∀ j a n, settledAttempt e = some (j,a) → db.attemptCount j = some n →
      n < a) : Accounts db db' := by
  refine ⟨fun hc => append_counted h hc (hcount hc),?_⟩
  intro hc ho
  have hg := append_countsGrow h (hgrow hc)
  exact ⟨append_settledOnce h ho hg (honce hc),hg⟩

theorem settles_accounts {j : JobId} (h : Settles db e j db')
    (ha : ∀ ts_ms db₁, db.append ts_ms e = .ok db₁ → Accounts db db₁) : Accounts db db' := by
  rcases h with rfl | ⟨ts_ms,db₁,happ,rfl | rfl⟩
  · exact accounts_refl db'
  · exact ha ts_ms db' happ
  · exact accounts_trans _ db₁ _ (ha ts_ms db₁ happ) (accounts_releaseLease db₁ j)

variable (q : JobQueue)

theorem enqueue_accounts (p : ProjectId) (spec : JobSpec) :
    Prog.Keeps queueMachine Accounts (enqueue q p spec) := by
  intro env n db
  rcases enqueue_after q p spec env n db with h | ⟨ts_ms,ha⟩
  · rw [h]; exact accounts_refl db
  · refine append_accounts ha ?_ ?_ ?_
    · intro _ j a _ hq
      exact absurd hq (by simp [enqueuedEvent,isEnqueue])
    · intro _ j a n _ hq
      exact absurd hq (by simp [enqueuedEvent,isEnqueue])
    · intro _ j a n hs
      exact absurd hs (by simp [enqueuedEvent,settledAttempt])

theorem supersede_accounts (j : JobId) (c : CronId) :
    Prog.Keeps queueMachine Accounts (supersede j c) := by
  intro env n db
  rcases supersede_after env n db j c with h | ⟨row,hr,-,hs⟩
  · rw [h]; exact accounts_refl db
  · refine settles_accounts hs ?_
    intro ts_ms db₁ happ
    have hcol : Counted db → ∃ k : Nat, row.attempt_count = k ∧ countU32 row.attempt_count = k ∧
        k ≤ u32Max ∧ (k = 0 ∨ (j,k) ∈ db.settled) := by
      intro hc
      obtain ⟨k,hk,hmax,hset⟩ := hc.rows j row hr
      exact ⟨k,hk,by rw [hk]; exact countU32_integerU32 hmax,hmax,hset⟩
    refine append_accounts happ ?_ ?_ ?_
    · intro hc i a hi _ ha
      simp only [JobEvent.job,nextAttempt,Option.some.injEq] at hi ha
      subst hi ha
      obtain ⟨k,-,hk,hmax,hset⟩ := hcol hc
      rw [hk]
      exact ⟨hmax,Or.inr hset⟩
    · intro hc i a m hi _ ha hm
      simp only [JobEvent.job,nextAttempt,Option.some.injEq] at hi ha
      subst hi ha
      obtain ⟨k,hrow,hk,-⟩ := hcol hc
      simp only [Db.attemptCount,hr,Option.map_some,Option.some.injEq] at hm
      rw [hk,← hm,hrow]
    · intro _ i a m hset
      exact absurd hset (by simp [settledAttempt])

theorem reapLease_accounts (now_ms : Nat) (lease : JobId × LeaseRow) :
    Prog.Keeps queueMachine Accounts (reapLease q now_ms lease) := by
  intro env n db
  rcases reapLease_after q now_ms lease env n db with h | ⟨h,-⟩ | ⟨row,delay_ms,hr,-,hlt,hs⟩
  · rw [h]; exact accounts_refl db
  · rw [h]; exact accounts_releaseLease db lease.1
  · refine settles_accounts hs ?_
    intro ts_ms db₁ happ
    have hmax : countU32 lease.2.attempt_index ≤ u32Max := by
      unfold countU32
      split <;> omega
    have hcol : Counted db → ∀ m, db.attemptCount lease.1 = some m →
        m < (countU32 lease.2.attempt_index : Int) := by
      intro hc m hm
      obtain ⟨k,hk,hkmax,-⟩ := hc.rows _ row hr
      have hk' : countU32 row.attempt_count = k := by rw [hk]; exact countU32_integerU32 hkmax
      simp only [Db.attemptCount,hr,Option.map_some,Option.some.injEq] at hm
      rw [← hm,hk]
      omega
    refine append_accounts happ ?_ ?_ ?_
    · intro hc i a hi _ ha
      simp only [failureEvent_job,failureEvent_nextAttempt,Option.some.injEq] at hi ha
      subst hi ha
      exact ⟨hmax,Or.inl (by simp)⟩
    · intro hc i a m hi _ ha hm
      simp only [failureEvent_job,failureEvent_nextAttempt,Option.some.injEq] at hi ha
      subst hi ha
      exact le_of_lt (hcol hc m hm)
    · intro hc i a m hset hm
      simp only [failureEvent_settledAttempt,Option.some.injEq,Prod.mk.injEq] at hset
      obtain ⟨rfl,rfl⟩ := hset
      exact hcol hc m hm

def Recounts (w : World) (c : Call) : Prop :=
  match c.op with
  | .complete job _ =>
    (c.env 0).fault = none ∧
      ∃ n, w.db.attemptCount job.job_id = some n ∧ (job.attempt_index : Int) ≤ n
  | .fail job failure =>
    (c.env (if failureKills failure job.attempt_index job.retry_count_max then 1 else 2)).fault =
        none ∧
      ∃ n, w.db.attemptCount job.job_id = some n ∧ (job.attempt_index : Int) ≤ n
  | _ => False

structure WorldCounted (w : World) : Prop where
  db : Counted w.db
  claims : ∀ job ∈ w.claims, 1 ≤ job.attempt_index ∧ job.attempt_index ≤ u32Max

theorem empty_counted : WorldCounted World.empty := by
  refine ⟨⟨?_,?_⟩,?_⟩
  · intro j row h
    simp [World.empty,Db.empty] at h
  · intro j lease h
    simp [World.empty,Db.empty] at h
  · intro job h
    simp [World.empty] at h

section Settle
variable {db db' : Db} {e : JobEvent} {j : JobId} {a : Nat}

theorem settles_counted (h : Settles db e j db') (hset : settledAttempt e = some (j,a))
    (hmax : a ≤ u32Max) (hc : Counted db) : Counted db' := by
  obtain ⟨hj,ha,-⟩ := settledAttempt_some hset
  have happ : ∀ ts_ms db₁, db.append ts_ms e = .ok db₁ → Counted db₁ := by
    intro ts_ms db₁ happ
    refine append_counted happ hc ?_
    intro i b hi _ hb
    obtain rfl : j = i := by simpa [hj] using hi
    obtain rfl : a = b := by simpa [ha] using hb
    exact ⟨hmax,Or.inl hset⟩
  rcases h with rfl | ⟨ts_ms,db₁,hdb,rfl | rfl⟩
  · exact hc
  · exact happ ts_ms _ hdb
  · exact counted_releaseLease (happ ts_ms db₁ hdb) j

theorem settles_fresh_accounts (h : Settles db e j db') (hset : settledAttempt e = some (j,a))
    (hmax : a ≤ u32Max) (hfresh : ∀ n, db.attemptCount j = some n → n < (a : Int)) :
    Accounts db db' := by
  obtain ⟨hj,ha,-⟩ := settledAttempt_some hset
  refine settles_accounts h ?_
  intro ts_ms db₁ happ
  refine append_accounts happ ?_ ?_ ?_
  · intro _ i b hi _ hb
    obtain rfl : j = i := by simpa [hj] using hi
    obtain rfl : a = b := by simpa [ha] using hb
    exact ⟨hmax,Or.inl hset⟩
  · intro _ i b n hi _ hb hn
    obtain rfl : j = i := by simpa [hj] using hi
    obtain rfl : a = b := by simpa [ha] using hb
    exact le_of_lt (hfresh n hn)
  · intro _ i b n hs hn
    rw [hset] at hs
    simp only [Option.some.injEq,Prod.mk.injEq] at hs
    obtain ⟨rfl,rfl⟩ := hs
    exact hfresh n hn

theorem append_recounts {ts_ms : Nat} {n : Int} (h : db.append ts_ms e = .ok db')
    (hset : settledAttempt e = some (j,a)) (hpos : 1 ≤ a) (hc : Counted db)
    (hn : db.attemptCount j = some n) (han : (a : Int) ≤ n) :
    ¬(db'.settled.Nodup ∧ CountsGrow db db') := by
  rintro ⟨hnodup,hgrow⟩
  obtain ⟨hj,ha,hq⟩ := settledAttempt_some hset
  obtain ⟨row,hr,-,hcount⟩ := append_update h hq hj
  rw [ha] at hcount
  obtain ⟨m,hm,hnm⟩ := hgrow j n hn
  have hma : m = (a : Int) := by simpa [hcount] using hm.symm
  obtain ⟨k,hk,-,hset'⟩ := hc.rows j row hr
  have hnk : n = (k : Int) := by
    simp only [Db.attemptCount,hr,Option.map_some,Option.some.injEq] at hn
    omega
  obtain rfl : k = a := by omega
  rw [append_settled h,hset] at hnodup
  rcases hset' with h0 | hmem
  · omega
  · exact absurd hmem (by
      have hdis := (nodup_append.mp hnodup).2.2
      intro hm
      exact hdis _ hm _ (by simp) rfl)

end Settle

theorem releaseLease_after_counts (env : Nat → QueueInput) (n : Nat) (db₀ db : Db) (j : JobId) :
    (((releaseLease j).after queueMachine env n db).settled.Nodup ∧
      CountsGrow db₀ ((releaseLease j).after queueMachine env n db)) ↔
    (db.settled.Nodup ∧ CountsGrow db₀ db) := by
  rcases releaseLease_after env n db j with h | h
  · rw [h]
  · rw [h]; exact Iff.rfl

variable (w : World)

theorem exec_counted (c : Call) (hl : c.Legal w) (hw : WorldCounted w) :
    WorldCounted (w.exec q c) := by
  obtain ⟨op,env⟩ := c
  cases op with
  | enqueue p spec => exact ⟨(enqueue_accounts q p spec env 0 w.db).counted hw.db,hw.claims⟩
  | claim p cl wk =>
    rcases claim_run q p cl wk env 0 w.db with
      ⟨hdb,hno⟩ | ⟨row,job,lease,hr,-,-,hidx,-,-,hlease,-,hrun⟩
    · have hclaims : (w.exec q ⟨.claim p cl wk,env⟩).claims = w.claims := by
        simp only [World.exec]
      refine ⟨?_,by rw [hclaims]; exact hw.claims⟩
      have hsame : (w.exec q ⟨.claim p cl wk,env⟩).db = w.db := by
        simpa only [World.exec] using hdb
      rw [hsame]
      exact hw.db
    · have hjob : 1 ≤ job.attempt_index ∧ job.attempt_index ≤ u32Max := by
        rw [hidx]
        simp only [satAdd32,u32Max]
        omega
      simp only [World.exec,hrun]
      refine ⟨⟨hw.db.rows,?_⟩,?_⟩
      · intro i l hi
        by_cases hij : i = job.job_id
        · subst hij
          rw [Table.get?_put_self,Option.some.injEq] at hi
          subst hi
          exact ⟨job.attempt_index,hlease,hjob⟩
        · exact hw.db.leases i l (by rwa [Table.get?_put_ne _ _ hij] at hi)
      · intro i hi
        rcases mem_append.mp hi with hi | hi
        · exact hw.claims i hi
        · obtain rfl : i = job := by simpa using hi
          exact hjob
  | heartbeat job =>
    rcases heartbeat_after q job env 0 w.db with h | ⟨lease,lease',hlease,-,hsame,h⟩
    · exact ⟨by simpa only [World.exec,h] using hw.db,hw.claims⟩
    · refine ⟨?_,hw.claims⟩
      simp only [World.exec,h]
      refine ⟨hw.db.rows,?_⟩
      intro i l hi
      by_cases hij : i = job.job_id
      · subst hij
        rw [Table.get?_put_self,Option.some.injEq] at hi
        subst hi
        rw [hsame]
        exact hw.db.leases _ lease hlease
      · exact hw.db.leases i l (by rwa [Table.get?_put_ne _ _ hij] at hi)
  | complete job wall_ms =>
    exact ⟨settles_counted (complete_after env 0 w.db job wall_ms) rfl (hw.claims job hl).2 hw.db,
      hw.claims⟩
  | fail job failure =>
    obtain ⟨now_ms,delay_ms,hs⟩ := fail_after q env 0 w.db job failure
    exact ⟨settles_counted hs (by simp) (hw.claims job hl).2 hw.db,hw.claims⟩
  | supersede j c => exact ⟨(supersede_accounts j c env 0 w.db).counted hw.db,hw.claims⟩
  | reap =>
    exact ⟨(reap_keeps accounts_refl accounts_trans q (reapLease_accounts q) env 0 w.db).counted
      hw.db,hw.claims⟩
  | tick p =>
    exact ⟨(tick_keeps accounts_refl accounts_trans q supersede_accounts (enqueue_accounts q) p
      env 0 w.db).counted hw.db,hw.claims⟩
  | registerCron p spec =>
    refine ⟨?_,hw.claims⟩
    rcases registerCron_after q p spec env 0 w.db with h | ⟨ts_ms,body,ha⟩
    · simpa only [World.exec,h] using hw.db
    · refine append_counted ha hw.db ?_
      intro j a hj
      exact absurd hj (by simp [JobEvent.job])

theorem exec_accounts (c : Call) (hl : c.Legal w) (hw : WorldCounted w) (hno : ¬Recounts w c) :
    Accounts w.db (w.exec q c).db := by
  obtain ⟨op,env⟩ := c
  cases op with
  | enqueue p spec => exact enqueue_accounts q p spec env 0 w.db
  | claim p cl wk =>
    refine ⟨fun _ => (exec_counted q w _ hl hw).db,?_⟩
    intro _ ho
    rcases claim_run q p cl wk env 0 w.db with ⟨hdb,_⟩ | ⟨row,job,lease,-,-,-,-,-,-,-,-,hrun⟩
    · have hsame : (w.exec q ⟨.claim p cl wk,env⟩).db = w.db := by
        simpa only [World.exec] using hdb
      rw [hsame]
      exact ⟨ho,countsGrow_refl _⟩
    · simp only [World.exec,hrun]
      exact ⟨⟨ho.nodup,ho.counted⟩,countsGrow_refl w.db⟩
  | heartbeat job =>
    refine ⟨fun _ => (exec_counted q w _ hl hw).db,?_⟩
    intro _ ho
    rcases heartbeat_after q job env 0 w.db with h | ⟨_,_,-,-,-,h⟩
    · simp only [World.exec,h]
      exact ⟨ho,countsGrow_refl w.db⟩
    · simp only [World.exec,h]
      exact ⟨⟨ho.nodup,ho.counted⟩,countsGrow_refl w.db⟩
  | complete job wall_ms =>
    cases hf : (env 0).fault with
    | some fault =>
      have hsame : (complete job wall_ms).after queueMachine env 0 w.db = w.db := by
        simp only [complete_after_eq,hf]
      simpa only [World.exec,hsame] using accounts_refl w.db
    | none =>
      refine settles_fresh_accounts (complete_after env 0 w.db job wall_ms) rfl
        (hw.claims job hl).2 ?_
      intro n hn
      by_contra hge
      exact hno ⟨hf,n,hn,not_lt.mp hge⟩
  | fail job failure =>
    obtain ⟨delay_ms,hafter⟩ := fail_after_eq q env 0 w.db job failure
    cases hf : (env (if failureKills failure job.attempt_index job.retry_count_max then 1
        else 2)).fault with
    | some fault =>
      have hsame : (fail q job failure).after queueMachine env 0 w.db = w.db := by
        simpa only [failureAppendAt,zero_add,hf] using hafter
      simpa only [World.exec,hsame] using accounts_refl w.db
    | none =>
      obtain ⟨now_ms,delay_ms,hs⟩ := fail_after q env 0 w.db job failure
      refine settles_fresh_accounts hs (by simp) (hw.claims job hl).2 ?_
      intro n hn
      by_contra hge
      exact hno ⟨hf,n,hn,not_lt.mp hge⟩
  | supersede j c => exact supersede_accounts j c env 0 w.db
  | reap => exact reap_keeps accounts_refl accounts_trans q (reapLease_accounts q) env 0 w.db
  | tick p =>
    exact tick_keeps accounts_refl accounts_trans q supersede_accounts (enqueue_accounts q) p
      env 0 w.db
  | registerCron p spec =>
    rcases registerCron_after q p spec env 0 w.db with h | ⟨ts_ms,body,ha⟩
    · simpa only [World.exec,h] using accounts_refl w.db
    · refine append_accounts ha ?_ ?_ ?_
      · intro _ j a hj
        exact absurd hj (by simp [JobEvent.job])
      · intro _ j a n hj
        exact absurd hj (by simp [JobEvent.job])
      · intro _ j a n hs
        exact absurd hs (by simp [settledAttempt])

theorem exec_recounts (c : Call) (hl : c.Legal w) (hw : WorldCounted w) (hre : Recounts w c) :
    ¬((w.exec q c).db.settled.Nodup ∧ CountsGrow w.db (w.exec q c).db) := by
  obtain ⟨op,env⟩ := c
  cases op with
  | complete job wall_ms =>
    obtain ⟨hf,n,hn,han⟩ := hre
    dsimp only at hf
    obtain ⟨row,hr,-⟩ := Option.map_eq_some_iff.mp hn
    obtain ⟨db₁,ha⟩ := append_settle_ok (env 0).now_ms
      (e := .completedV2 job.job_id job.attempt_index wall_ms) hr rfl rfl
    have hafter : (complete job wall_ms).after queueMachine env 0 w.db =
        (releaseLease job.job_id).after queueMachine env 1 db₁ := by
      simp only [complete_after_eq,hf,ha]
    simp only [World.exec,hafter,releaseLease_after_counts]
    exact append_recounts ha rfl (hw.claims job hl).1 hw.db hn han
  | fail job failure =>
    obtain ⟨hf,n,hn,han⟩ := hre
    dsimp only at hf
    obtain ⟨row,hr,-⟩ := Option.map_eq_some_iff.mp hn
    obtain ⟨delay_ms,hafter⟩ := fail_after_eq q env 0 w.db job failure
    obtain ⟨db₁,ha⟩ := append_settle_ok
      (env (if failureKills failure job.attempt_index job.retry_count_max then 1 else 2)).now_ms
      (e := failureEvent ⟨job.job_id,job.attempt_index,job.retry_count_max,(env 0).now_ms⟩ failure
        delay_ms) hr (by simp) (by simp)
    simp only [failureAppendAt,zero_add,Nat.reduceAdd,hf,ha] at hafter
    simp only [World.exec,hafter,releaseLease_after_counts]
    exact append_recounts ha (by simp) (hw.claims job hl).1 hw.db hn han
  | _ => exact absurd hre (fun h => h)

theorem empty_settledOnce : SettledOnce World.empty.db :=
  ⟨nodup_nil,fun _ _ h => absurd h (by simp [Db.settled,World.empty,Db.empty])⟩

theorem run_settledOnce (calls : List Call) (hrun : LegalRun q w calls) (hw : WorldCounted w)
    (ho : SettledOnce w.db)
    (hfresh : ∀ pre c post, calls = pre ++ c :: post → ¬Recounts (w.run q pre) c) :
    SettledOnce (w.run q calls).db := by
  induction calls generalizing w with
  | nil => exact ho
  | cons c cs ih =>
    have hacc := exec_accounts q w c hrun.1 hw (hfresh [] c cs rfl)
    refine ih _ hrun.2 (exec_counted q w c hrun.1 hw) (hacc.once hw.db ho).1 ?_
    intro pre d post hsplit
    exact hfresh (c :: pre) d post (by simp [hsplit])

/-- Precisely when a run settles each attempt at most once and never takes an
attempt counter back: no completion or failure reports an attempt the job's
counter has already reached. -/
theorem attempts_settled_once_iff (q : JobQueue) (calls : List Call)
    (hrun : LegalRun q World.empty calls) :
    (∀ pre c post, calls = pre ++ c :: post →
      (World.empty.run q (pre ++ [c])).db.settled.Nodup ∧
        CountsGrow (World.empty.run q pre).db (World.empty.run q (pre ++ [c])).db) ↔
    ∀ pre c post, calls = pre ++ c :: post → ¬Recounts (World.empty.run q pre) c := by
  have hcounted : ∀ pre c post, calls = pre ++ c :: post →
      c.Legal (World.empty.run q pre) ∧ WorldCounted (World.empty.run q pre) := by
    intro pre c post hsplit
    subst hsplit
    obtain ⟨hpre,hc⟩ := hrun.prefix_call
    exact ⟨hc,run_invariant (exec_counted q) hpre empty_counted⟩
  constructor
  · intro h pre c post hsplit hre
    obtain ⟨hl,hw⟩ := hcounted pre c post hsplit
    have hbad := exec_recounts q _ c hl hw hre
    have hgood := h pre c post hsplit
    rw [run_append] at hgood
    exact hbad hgood
  · intro h pre c post hsplit
    obtain ⟨hl,hw⟩ := hcounted pre c post hsplit
    have hpre : SettledOnce (World.empty.run q pre).db := by
      subst hsplit
      refine run_settledOnce q _ pre hrun.prefix_call.1 empty_counted empty_settledOnce ?_
      intro p d r hp
      exact h p d (r ++ c :: post) (by simp [hp])
    obtain ⟨honce,hgrow⟩ := (exec_accounts q _ c hl hw (h pre c post hsplit)).once hw.db hpre
    rw [run_append]
    exact ⟨honce.nodup,hgrow⟩

/-! A worker stops heartbeating, its attempt is reaped and the job fails a
second attempt; then the first worker reports its own failure after all. -/

def demoFailure : JobFailure := ⟨"timeout","no answer",false⟩

def reapedThenFailed : List Call :=
  [⟨.enqueue ⟨0⟩ demoSpec,demoAt 0⟩,
   ⟨.claim ⟨0⟩ .foreground (demoWorker firstSlot),demoAt 1000⟩,
   ⟨.reap,demoAt 40000⟩,
   ⟨.claim ⟨0⟩ .foreground (demoWorker secondSlot),demoAt 50000⟩,
   ⟨.fail (demoClaim secondSlot 2 50000 10000) demoFailure,demoAt 51000⟩,
   ⟨.fail (demoClaim firstSlot 1 1000 1000) demoFailure,demoAt 52000⟩]

theorem reapedThenFailed_legal : LegalRun demoQueue World.empty reapedThenFailed := by
  refine ⟨trivial,trivial,trivial,trivial,?_,?_,trivial⟩
  · exact (by decide +kernel : demoClaim 1 2 50000 10000 ∈
      (World.empty.run demoQueue (reapedThenFailed.take 4)).claims)
  · exact (by decide +kernel : demoClaim 0 1 1000 1000 ∈
      (World.empty.run demoQueue (reapedThenFailed.take 5)).claims)

theorem attempt_settled_twice :
    ¬∀ (q : JobQueue) (calls : List Call), LegalRun q World.empty calls →
      ∀ pre c post, calls = pre ++ c :: post →
        (World.empty.run q (pre ++ [c])).db.settled.Nodup ∧
          CountsGrow (World.empty.run q pre).db (World.empty.run q (pre ++ [c])).db := by
  intro h
  obtain ⟨-,hgrow⟩ := h demoQueue reapedThenFailed reapedThenFailed_legal
    (reapedThenFailed.take 5) ⟨.fail (demoClaim 0 1 1000 1000) demoFailure,demoAt 52000⟩ [] rfl
  have hbefore : (World.empty.run demoQueue (reapedThenFailed.take 5)).db.attemptCount ⟨0⟩ =
      some 2 := by decide
  have hafter : (World.empty.run demoQueue reapedThenFailed).db.attemptCount ⟨0⟩ = some 1 := by
    decide
  obtain ⟨m,hm,hle⟩ := hgrow ⟨0⟩ 2 hbefore
  have hone : m = 1 := by
    have hsame : some m = some (1 : Int) := hm.symm.trans hafter
    simpa using hsame
  omega

theorem attempts_settled_once_demo :
    LegalRun demoQueue World.empty (reapedThenFailed.take 5) ∧
      ((∀ pre c post, reapedThenFailed.take 5 = pre ++ c :: post →
        (World.empty.run demoQueue (pre ++ [c])).db.settled.Nodup ∧
          CountsGrow (World.empty.run demoQueue pre).db
            (World.empty.run demoQueue (pre ++ [c])).db) ↔
      ∀ pre c post, reapedThenFailed.take 5 = pre ++ c :: post →
        ¬Recounts (World.empty.run demoQueue pre) c) := by
  have hlegal : LegalRun demoQueue World.empty (reapedThenFailed.take 5) :=
    (LegalRun.prefix_call reapedThenFailed_legal).1
  exact ⟨hlegal,attempts_settled_once_iff demoQueue _ hlegal⟩

end ProjectOS.Sched
