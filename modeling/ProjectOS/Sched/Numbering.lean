import ProjectOS.Sched.Attempts
import ProjectOS.Sched.Leases

/-! The attempts of a job, numbered: what successive claims carry while every
settle is made under the lease of its own claim. -/

namespace ProjectOS.Sched
open Lib Domain List Lib.Prog

def claimsOf (claims : List ClaimedJob) (j : JobId) : List ClaimedJob :=
  claims.filter (fun job => job.job_id = j)

def Call.Own (w : World) (c : Call) : Prop :=
  match c.op with
  | .complete job _
  | .fail job _ => ∃ lease, w.db.leases.get? job.job_id = some lease ∧ lease.HeldBy job
  | _ => True

/-- A job's row whose counter stands at `c`, with `n` claims and at most `max`
retries. -/
structure Numbering (n c max : Nat) (lease : Option LeaseRow) (row : JobRow) : Prop where
  count : row.attempt_count = c
  limit : row.attempt_count_max = max
  limit_le : max ≤ jobRetryCountMax
  count_le : c ≤ n
  claims_le : n ≤ max+1
  runnable : row.state = .queued → c ≤ max
  unleased : row.state = .queued → lease = none → c = n
  leased : ∀ l, lease = some l → l.attempt_index = n

/-- The claims handed out for a job agree with its row and its lease. -/
structure Numbered (claims : List ClaimedJob) (db : Db) : Prop where
  fresh : ∀ j, db.jobs.get? j = none → claimsOf claims j = [] ∧ db.leases.get? j = none
  rows : ∀ j row, db.jobs.get? j = some row → ∃ c max,
    Numbering (claimsOf claims j).length c max (db.leases.get? j) row ∧
      ∀ job ∈ claimsOf claims j, job.retry_count_max = max

def Releasable (claims : List ClaimedJob) (db : Db) (j : JobId) : Prop :=
  ∀ row, db.jobs.get? j = some row → row.state = .queued →
    row.attempt_count = (claimsOf claims j).length

variable {j : JobId}

theorem append_moves {db db' : Db} {ts_ms : Nat} {e : JobEvent} (h : db.append ts_ms e = .ok db')
    (he : isEnqueue e = false) (hj : e.job = some j) :
    ∃ row row', db.jobs.get? j = some row ∧ db'.jobs.get? j = some row' ∧
      row'.state = (nextState e).getD row.state ∧ nextAttempt e = some (row'.attempt_count.toNat) ∧
      0 ≤ row'.attempt_count ∧ row'.attempt_count_max = row.attempt_count_max := by
  obtain ⟨-,-,-,hjobs,-⟩ := append_ok h
  cases e with
  | enqueuedV1 | enqueuedV2 => simp [isEnqueue] at he
  | cronRegistered | cronEnablementSet => simp [JobEvent.job] at hj
  | _ =>
    obtain ⟨row,hr,hput⟩ := updateOne_ok hjobs
    simp only [JobEvent.job,Option.some.injEq] at hj
    subst hj
    refine ⟨row,_,hr,by rw [hput]; exact Table.get?_put_self _ _ _,?_⟩
    simp [nextState,nextAttempt,integerU32]

section Append
variable {claims : List ClaimedJob} {db db' : Db} {ts_ms : Nat} {e : JobEvent} {j : JobId}

theorem numbered_append (h : db.append ts_ms e = .ok db') (he : isEnqueue e = false)
    (hj : e.job = some j) (hn : Numbered claims db)
    (hstep : ∀ row c max, db.jobs.get? j = some row →
      Numbering (claimsOf claims j).length c max (db.leases.get? j) row →
      ∃ a, nextAttempt e = some a ∧ a ≤ (claimsOf claims j).length ∧
        ((nextState e).getD row.state = .queued → a = (claimsOf claims j).length ∧ a ≤ max)) :
    Numbered claims db' ∧ Releasable claims db' j := by
  obtain ⟨row,row',hr,hr',hst,hcount,hpos,hlim⟩ := append_moves h he hj
  have hleases := (append_ok h).2.2.1
  obtain ⟨c,max,hnum,hmax⟩ := hn.rows j row hr
  obtain ⟨a,ha,hle,hq⟩ := hstep row c max hr hnum
  have hca : row'.attempt_count = a := by
    rw [ha,Option.some.injEq] at hcount
    omega
  have hrow' : Numbering (claimsOf claims j).length a max (db'.leases.get? j) row' := by
    refine ⟨hca,hlim.trans hnum.limit,hnum.limit_le,hle,hnum.claims_le,?_,?_,?_⟩
    · intro hs
      exact (hq (by rw [← hst]; exact hs)).2
    · intro hs _
      exact (hq (by rw [← hst]; exact hs)).1
    · rw [hleases]
      exact hnum.leased
  refine ⟨⟨?_,?_⟩,?_⟩
  · intro i hi
    have hne : e.job ≠ some i := by
      rintro hji
      obtain rfl : j = i := by simpa [hj] using hji
      rw [hr'] at hi
      exact absurd hi (by simp)
    rw [hleases]
    exact hn.fresh i (by rwa [append_other h hne] at hi)
  · intro i r hi
    by_cases hij : i = j
    · subst hij
      obtain rfl : row' = r := by simpa [hr'] using hi
      exact ⟨a,max,hrow',hmax⟩
    · have hne : e.job ≠ some i := by
        rw [hj]
        simp only [ne_eq,Option.some.injEq]
        exact fun hh => hij hh.symm
      rw [hleases]
      exact hn.rows i r (by rwa [append_other h hne] at hi)
  · intro r hi hs
    obtain rfl : row' = r := by simpa [hr'] using hi
    rw [hca,(hq (by rw [← hst]; exact hs)).1]

theorem numbered_releaseLease (hn : Numbered claims db) (hrel : Releasable claims db j) :
    Numbered claims (db.releaseLease j) := by
  refine ⟨?_,?_⟩
  · intro i hi
    obtain ⟨hc,hl⟩ := hn.fresh i hi
    refine ⟨hc,?_⟩
    rw [Db.releaseLease,Table.get?_erase]
    split
    · rfl
    · exact hl
  · intro i row hi
    obtain ⟨c,max,hnum,hmax⟩ := hn.rows i row hi
    refine ⟨c,max,?_,hmax⟩
    by_cases hij : i = j
    · subst hij
      refine ⟨hnum.count,hnum.limit,hnum.limit_le,hnum.count_le,hnum.claims_le,hnum.runnable,?_,?_⟩
      · intro hs _
        have hfull := hrel row hi hs
        rw [hnum.count] at hfull
        omega
      · intro l hl
        exact absurd hl (by simp [Db.releaseLease])
    · rw [Db.releaseLease,Table.get?_erase_ne _ hij]
      exact hnum

theorem numbered_settles (h : Settles db e j db') (hn : Numbered claims db)
    (happ : ∀ ts_ms db₁, db.append ts_ms e = .ok db₁ →
      Numbered claims db₁ ∧ Releasable claims db₁ j) : Numbered claims db' := by
  rcases h with rfl | ⟨ts_ms,db₁,ha,rfl | rfl⟩
  · exact hn
  · exact (happ ts_ms _ ha).1
  · exact numbered_releaseLease (happ ts_ms db₁ ha).1 (happ ts_ms db₁ ha).2

theorem numbered_counts {a : Nat} (h : Settles db e j db') (hn : Numbered claims db)
    (hset : settledAttempt e = some (j,a)) (ha : a = (claimsOf claims j).length)
    (hq : ∀ row (max : Nat), db.jobs.get? j = some row → row.attempt_count_max = (max : Int) →
      max ≤ jobRetryCountMax → (nextState e).getD row.state = .queued → a ≤ max) :
    Numbered claims db' := by
  obtain ⟨hj,hat,he⟩ := settledAttempt_some hset
  refine numbered_settles h hn ?_
  intro ts_ms db₁ happ
  refine numbered_append happ he hj hn ?_
  intro row c max hr hnum
  exact ⟨a,hat,ha.le,fun hs => ⟨ha,hq row max hr hnum.limit hnum.limit_le hs⟩⟩

end Append

variable (q : JobQueue)

theorem enqueue_valid (p : ProjectId) (spec : JobSpec) (env : Nat → QueueInput) (n : Nat)
    (db : Db) :
    (enqueue q p spec).after queueMachine env n db = db ∨
      spec.retry_count_max ≤ jobRetryCountMax := by
  unfold enqueue
  cases hv : spec.validate with
  | error x => exact Or.inl rfl
  | ok u =>
    right
    by_contra hgt
    unfold JobSpec.validate at hv
    split_ifs at hv
    rename_i hle
    exact hgt (not_lt.mp hle)

variable (claims : List ClaimedJob)

theorem enqueue_numbered (p : ProjectId) (spec : JobSpec) : Prog.Keeps queueMachine
      (fun db db' => Numbered claims db → Numbered claims db') (enqueue q p spec) := by
  intro env n db hn
  rcases enqueue_valid q p spec env n db with h | hmax
  · rw [h]
    exact hn
  rcases enqueue_after q p spec env n db with h | ⟨ts_ms,ha⟩
  · rw [h]
    exact hn
  · generalize (enqueue q p spec).after queueMachine env n db = db' at ha
    let j := deriveJobId q p spec.kind spec.idempotency_key
    obtain ⟨-,-,hleases,hjobs,-⟩ := append_ok ha
    obtain ⟨hnone,hput⟩ := insertRow_ok hjobs
    obtain ⟨hclaims,hlease⟩ := hn.fresh j hnone
    refine ⟨?_,?_⟩
    · intro i hi
      by_cases hij : i = j
      · subst hij
        rw [hput] at hi
        exact absurd hi (by simp [j])
      · rw [hleases]
        refine hn.fresh i ?_
        rwa [hput,Table.get?_put_ne _ _ hij] at hi
    · intro i row hi
      by_cases hij : i = j
      · subst hij
        rw [hput] at hi
        obtain rfl := Option.some.inj ((Table.get?_put_self _ _ _).symm.trans hi)
        refine ⟨0,spec.retry_count_max,?_,by rw [hclaims]; simp⟩
        rw [hclaims,hleases,hlease]
        exact ⟨rfl,rfl,hmax,le_rfl,by simp,fun _ => Nat.zero_le _,fun _ _ => rfl,
          fun l hl => absurd hl (by simp)⟩
      · rw [hleases]
        refine hn.rows i row ?_
        rwa [hput,Table.get?_put_ne _ _ hij] at hi

theorem supersede_numbered (j : JobId) (c : CronId) :
    Prog.Keeps queueMachine (fun db db' => Numbered claims db → Numbered claims db')
      (supersede j c) := by
  intro env n db hn
  rcases supersede_after env n db j c with h | ⟨row,hr,-,hs⟩
  · rw [h]
    exact hn
  · refine numbered_settles hs hn ?_
    intro ts_ms db₁ ha
    refine numbered_append ha rfl rfl hn ?_
    intro row' k max hr' hnum
    obtain rfl : row = row' := by simpa [hr] using hr'
    refine ⟨_,rfl,?_,fun hst => absurd hst (by simp [nextState])⟩
    have hk : k ≤ u32Max := by
      have h1 := hnum.count_le
      have h2 := hnum.claims_le
      have h3 := hnum.limit_le
      simp only [jobRetryCountMax] at h3
      simp only [u32Max]
      omega
    rw [hnum.count]
    exact (countU32_integerU32 hk).le.trans hnum.count_le

theorem failure_queued {attempt : FailedAttempt} {failure : JobFailure} {delay_ms : Nat}
    {state : JobDurableState}
    (h : (nextState (failureEvent attempt failure delay_ms)).getD state = .queued) :
    attempt.attempt_index ≤ attempt.retry_count_max := by
  rw [failureEvent_nextState] at h
  by_cases hk : failureKills failure attempt.attempt_index attempt.retry_count_max = true
  · simp [hk] at h
  · simp only [failureKills,Bool.or_eq_true,decide_eq_true_eq,not_or,not_lt] at hk
    exact hk.2

section Settle
variable {claims : List ClaimedJob} {db db' : Db} {job : ClaimedJob} {lease : LeaseRow}

theorem held_index (hn : Numbered claims db) (hl : db.leases.get? job.job_id = some lease)
    (hheld : lease.HeldBy job) : job.attempt_index = (claimsOf claims job.job_id).length := by
  cases hr : db.jobs.get? job.job_id with
  | none =>
    rw [(hn.fresh _ hr).2] at hl
    exact absurd hl (by simp)
  | some row =>
    obtain ⟨c,max,hnum,-⟩ := hn.rows _ row hr
    have hidx := hnum.leased lease hl
    rw [hheld.2,integerU32] at hidx
    exact_mod_cast hidx

theorem complete_numbered (hn : Numbered claims db) (hl : db.leases.get? job.job_id = some lease)
    (hheld : lease.HeldBy job) (wall_ms : Nat) (env : Nat → QueueInput) :
    Numbered claims ((complete job wall_ms).after queueMachine env 0 db) :=
  numbered_counts (complete_after env 0 db job wall_ms) hn rfl (held_index hn hl hheld)
    (fun _ _ _ _ _ hs => absurd hs (by simp [nextState]))

theorem fail_numbered (q : JobQueue) (hn : Numbered claims db) (hmem : job ∈ claims)
    (hl : db.leases.get? job.job_id = some lease) (hheld : lease.HeldBy job)
    (failure : JobFailure) (env : Nat → QueueInput) :
    Numbered claims ((fail q job failure).after queueMachine env 0 db) := by
  obtain ⟨now_ms,delay_ms,hs⟩ := fail_after q env 0 db job failure
  refine numbered_counts hs hn (by simp) (held_index hn hl hheld) ?_
  intro row max hr hlim _ hq
  obtain ⟨c,max',hnum,hmax⟩ := hn.rows _ row hr
  have hjob : job.retry_count_max = max' := hmax job (by simp [claimsOf,hmem])
  have hsame : max' = max := by
    have h := hnum.limit.symm.trans hlim
    exact_mod_cast h
  rw [← hsame,← hjob]
  exact failure_queued hq

theorem reapLease_numbered (q : JobQueue) (now_ms : Nat) (hn : Numbered claims db)
    {r : JobId × LeaseRow} (hl : db.leases.get? r.1 = some r.2) (env : Nat → QueueInput) (n : Nat) :
    Numbered claims ((reapLease q now_ms r).after queueMachine env n db) := by
  have hrow : ∀ row, db.jobs.get? r.1 = some row → ∃ c max,
      Numbering (claimsOf claims r.1).length c max (some r.2) row ∧
        countU32 row.attempt_count = c ∧
        countU32 r.2.attempt_index = (claimsOf claims r.1).length := by
    intro row hr
    obtain ⟨c,max,hnum,-⟩ := hn.rows _ row hr
    rw [hl] at hnum
    have hbound : (claimsOf claims r.1).length ≤ u32Max := by
      have h2 := hnum.claims_le
      have h3 := hnum.limit_le
      simp only [jobRetryCountMax] at h3
      simp only [u32Max]
      omega
    refine ⟨c,max,hnum,?_,?_⟩
    · rw [hnum.count]
      exact countU32_integerU32 (hnum.count_le.trans hbound)
    · rw [hnum.leased r.2 rfl]
      exact countU32_integerU32 hbound
  rcases reapLease_after q now_ms r env n db with h | ⟨h,hcounted⟩ | ⟨row,delay_ms,hr,-,-,hs⟩
  · rw [h]
    exact hn
  · rw [h]
    refine numbered_releaseLease hn ?_
    intro row hr hst
    obtain ⟨c,max,hnum,hc,ha⟩ := hrow row hr
    have hle := hcounted row hr (by rw [hst]; rfl)
    rw [hc,ha] at hle
    rw [hnum.count,le_antisymm hnum.count_le hle]
  · obtain ⟨c,max,hnum,hc,ha⟩ := hrow row hr
    refine numbered_counts hs hn (by simp) ha ?_
    intro row' max' hr' hlim hle hq
    obtain rfl : row = row' := by simpa [hr] using hr'
    have hmax : countU32 row.attempt_count_max = max' := by
      rw [hlim]
      refine countU32_integerU32 (hle.trans ?_)
      decide
    rw [← hmax]
    exact failure_queued hq

end Settle

def reapLoop (q : JobQueue) (now_ms : Nat) (expired : List (JobId × LeaseRow)) (reaped : Nat) :
    QueueProg Nat :=
  expired.foldlM (fun reaped lease => do
    reapLease q now_ms lease
    pure (reaped+1)) reaped

theorem reap_eq (env : Nat → QueueInput) (db : Db) :
    (reapExpiredLeases q).run queueMachine env 0 db =
      (reapLoop q (env 0).now_ms (readExpiredLeases db (env 0).now_ms) 0).run queueMachine env 2
        db := rfl

variable (now_ms : Nat)

theorem reapLoop_cons (r : JobId × LeaseRow) (rest : List (JobId × LeaseRow)) (reaped : Nat) :
    reapLoop q now_ms (r :: rest) reaped =
      (reapLease q now_ms r).bind fun _ => reapLoop q now_ms rest (reaped+1) := by
  simp only [reapLoop,foldlM_cons,bind_eq,bind_assoc,pure_eq,ret_bind]

theorem reapLease_other (r : JobId × LeaseRow) (env : Nat → QueueInput) (n : Nat) (db : Db)
    (hj : j ≠ r.1) :
    ((reapLease q now_ms r).after queueMachine env n db).jobs.get? j = db.jobs.get? j ∧
      ((reapLease q now_ms r).after queueMachine env n db).leases.get? j = db.leases.get? j := by
  have hrel : ∀ db₁ : Db, (db₁.releaseLease r.1).leases.get? j = db₁.leases.get? j :=
    fun db₁ => Table.get?_erase_ne _ hj
  rcases reapLease_after q now_ms r env n db with h | ⟨h,-⟩ | ⟨row,delay_ms,-,-,-,hs⟩
  · rw [h]
    exact ⟨rfl,rfl⟩
  · rw [h]
    exact ⟨rfl,hrel db⟩
  · rcases hs with h | ⟨ts_ms,db₁,ha,h⟩
    · rw [h]
      exact ⟨rfl,rfl⟩
    · have hjobs := append_other ha (j := j) (by
        simp only [failureEvent_job,ne_eq,Option.some.injEq]
        exact fun he => hj he.symm)
      have hleases := (append_ok ha).2.2.1
      rcases h with h | h
      · rw [h,hleases]
        exact ⟨hjobs,rfl⟩
      · rw [h,hrel db₁,hleases]
        exact ⟨hjobs,rfl⟩

theorem reapLoop_other (expired : List (JobId × LeaseRow)) (reaped : Nat) (env : Nat → QueueInput)
    (n : Nat) (db : Db) (hj : j ∉ expired.map Prod.fst) :
    ((reapLoop q now_ms expired reaped).after queueMachine env n db).jobs.get? j =
      db.jobs.get? j := by
  let R : Db → Db → Prop := fun db db' => db'.jobs.get? j = db.jobs.get? j
  have hrefl : ∀ db, R db db := fun _ => rfl
  have htrans : ∀ a b c, R a b → R b c → R a c := fun _ _ _ h₁ h₂ => h₂.trans h₁
  have hloop : Prog.Keeps queueMachine R (reapLoop q now_ms expired reaped) := by
    refine keeps_foldlM hrefl htrans expired _ ?_ reaped
    intro reaped r hr
    refine keeps_bind htrans ?_ (fun _ => keeps_ret hrefl _)
    intro env n db
    have hne : j ≠ r.1 := by
      intro he
      rw [he] at hj
      exact hj (mem_map_of_mem hr)
    exact (reapLease_other q now_ms r env n db hne).1
  exact hloop env n db

theorem readExpiredLeases_nodup (db : Db) (now_ms : Nat) :
    ((readExpiredLeases db now_ms).map Prod.fst).Nodup := by
  have hrows : (db.leases.rows.map Prod.fst).Nodup :=
    pairwise_map.mpr (db.leases.sorted.imp (fun h => h.ne))
  have hfilter := hrows.sublist (List.Sublist.map Prod.fst (filter_sublist
    (p := fun r => decide (r.2.lease_expires_ts_ms ≤ integerU64 now_ms))))
  have hperm := ((perm_insertionSort (fun a b : JobId × LeaseRow =>
    a.2.lease_expires_ts_ms ≤ b.2.lease_expires_ts_ms) (db.leases.rows.filter
      (fun r => decide (r.2.lease_expires_ts_ms ≤ integerU64 now_ms)))).map Prod.fst).nodup_iff.mpr
    hfilter
  exact hperm.sublist (List.Sublist.map Prod.fst (take_sublist _ _))

theorem reapLoop_numbered {claims : List ClaimedJob} {expired : List (JobId × LeaseRow)}
    (hnd : (expired.map Prod.fst).Nodup) (reaped : Nat) (env : Nat → QueueInput) (n : Nat)
    {db : Db} (hn : Numbered claims db) (hl : ∀ r ∈ expired, db.leases.get? r.1 = some r.2) :
    Numbered claims ((reapLoop q now_ms expired reaped).after queueMachine env n db) := by
  induction expired generalizing reaped n db with
  | nil => exact hn
  | cons r rest ih =>
    obtain ⟨hr,hrest⟩ := nodup_cons.mp hnd
    have hone := reapLease_numbered q now_ms hn (hl r mem_cons_self) env n
    have hother := fun {j : JobId} => reapLease_other (j := j) q now_ms r env n db
    rw [reapLoop_cons,after_bind]
    simp only [Prog.after] at hone hother
    cases hrun : (reapLease q now_ms r).run queueMachine env n db with
    | mk outcome rest' =>
      obtain ⟨m,db₁⟩ := rest'
      rw [hrun] at hone hother
      cases outcome with
      | error e => exact hone
      | ok u =>
        refine ih hrest _ _ hone ?_
        intro r' hr'
        have hne : r'.1 ≠ r.1 := fun he => hr (he ▸ mem_map_of_mem hr')
        rw [(hother hne).2]
        exact hl r' (mem_cons_of_mem _ hr')

def DeadWithReason (db : Db) (j : JobId) : Prop :=
  ∃ row reason, db.jobs.get? j = some row ∧ row.state = .dead ∧
    row.dead_reason_code = some (JobDeadReason.code reason) ∧
    row.dead_reason_detail = some (JobDeadReason.detail reason)

theorem append_dead {db db' : Db} {ts_ms a : Nat} {reason : JobDeadReason}
    (h : db.append ts_ms (.dead j a reason) = .ok db') : DeadWithReason db' j := by
  obtain ⟨-,-,-,hjobs,-⟩ := append_ok h
  obtain ⟨row,-,hput⟩ := updateOne_ok hjobs
  exact ⟨_,reason,by rw [hput]; exact Table.get?_put_self _ _ _,rfl,rfl,rfl⟩

theorem deadWithReason_of_jobs {db db' : Db} (h : db'.jobs = db.jobs) (hd : DeadWithReason db j) :
    DeadWithReason db' j := by
  rwa [DeadWithReason,h]

theorem releaseLease_after_jobs (env : Nat → QueueInput) (n : Nat) (db : Db) (j : JobId) :
    ((releaseLease j).after queueMachine env n db).jobs = db.jobs := by
  rcases releaseLease_after env n db j with h | h
  · rw [h]
  · rw [h,releaseLease_jobs]

section Kill
variable {q : JobQueue} {env : Nat → QueueInput} {n : Nat} {db : Db}

theorem kill_dead {α : Type} (attempt : FailedAttempt) {failure : JobFailure}
    (hk : failureKills failure attempt.attempt_index attempt.retry_count_max = true)
    (f : FailureOutcome → QueueProg α)
    (hf : ∀ out env n db, ((f out).after queueMachine env n db).jobs = db.jobs) {a : α}
    (h : (((appendFailure q attempt failure).bind f).run queueMachine env n db).1 = .ok a) :
    DeadWithReason (((appendFailure q attempt failure).bind f).after queueMachine env n db)
      attempt.job_id := by
  rw [after_bind]
  simp only [appendFailure,hk,if_true,bind_eq,run_bind,appendJobFact_run] at h ⊢
  cases hfault : (env n).fault with
  | some fault => simp [hfault] at h
  | none =>
    generalize hreason : (if failure.permanent = true then JobDeadReason.refused failure.code
      else JobDeadReason.retriesExhausted failure.code) = reason at h ⊢
    cases ha : db.append (env n).now_ms
        (.dead attempt.job_id attempt.attempt_index reason) with
    | error x => simp [hfault,ha] at h
    | ok db₁ =>
      simp only [pure_eq,run_ret]
      exact deadWithReason_of_jobs (hf _ _ _ _) (append_dead ha)

theorem fail_dead {job : ClaimedJob} {failure : JobFailure} {out : FailureOutcome}
    (hk : failureKills failure job.attempt_index job.retry_count_max = true)
    (h : ((fail q job failure).run queueMachine env n db).1 = .ok out) :
    DeadWithReason ((fail q job failure).after queueMachine env n db) job.job_id := by
  have hfail : fail q job failure = Act.now.bind fun now_ms =>
      (appendFailure q ⟨job.job_id,job.attempt_index,job.retry_count_max,now_ms⟩ failure).bind
        fun outcome => (releaseLease job.job_id).bind fun _ => .ret outcome := rfl
  rw [hfail] at h ⊢
  rw [after_bind]
  simp only [run_bind,now_run] at h ⊢
  refine @kill_dead q env _ _ _ ⟨job.job_id,job.attempt_index,job.retry_count_max,
    (env n).now_ms⟩ failure hk _ ?_ out ?_
  · intro out env n db
    rw [release_ret_after]
    exact releaseLease_after_jobs env n db job.job_id
  · simpa only [run_bind] using h

variable {r : JobId × LeaseRow} {row : JobRow}

theorem reapLease_dead {now_ms : Nat} {u : Unit}
    (hr : db.jobs.get? r.1 = some row) (ht : row.state.isTerminal = false)
    (hlt : countU32 row.attempt_count < countU32 r.2.attempt_index)
    (hlast : countU32 row.attempt_count_max < countU32 r.2.attempt_index)
    (h : ((reapLease q now_ms r).run queueMachine env n db).1 = .ok u) :
    DeadWithReason ((reapLease q now_ms r).after queueMachine env n db) r.1 := by
  let attempt : FailedAttempt :=
    ⟨r.1,countU32 r.2.attempt_index,countU32 row.attempt_count_max,now_ms⟩
  have hrun : (reapLease q now_ms r).run queueMachine env n db =
      ((appendFailure q attempt (leaseFailure r.2)).bind fun _ =>
        releaseLease r.1).run queueMachine env (n+1) db := by
    simp [reapLease,run_bind,hr,ht,hlt,attempt]
  have hk : failureKills (leaseFailure r.2) attempt.attempt_index attempt.retry_count_max =
      true := by simp [failureKills,attempt,hlast]
  rw [hrun] at h
  rw [Prog.after,hrun]
  exact kill_dead attempt hk _ (fun _ env n db => releaseLease_after_jobs env n db r.1) h

theorem reapLoop_dead {now_ms : Nat} (ht : row.state.isTerminal = false)
    (hlt : countU32 row.attempt_count < countU32 r.2.attempt_index)
    (hlast : countU32 row.attempt_count_max < countU32 r.2.attempt_index)
    {expired : List (JobId × LeaseRow)} (hnd : (expired.map Prod.fst).Nodup) (hmem : r ∈ expired)
    {reaped m : Nat} (hr : db.jobs.get? r.1 = some row)
    (h : ((reapLoop q now_ms expired reaped).run queueMachine env n db).1 = .ok m) :
    DeadWithReason ((reapLoop q now_ms expired reaped).after queueMachine env n db) r.1 := by
  induction expired generalizing reaped n db with
  | nil => exact absurd hmem not_mem_nil
  | cons r' rest ih =>
    obtain ⟨hr',hrest⟩ := nodup_cons.mp hnd
    rw [reapLoop_cons,run_bind] at h
    rw [reapLoop_cons,after_bind]
    cases hrun : (reapLease q now_ms r').run queueMachine env n db with
    | mk outcome rest' =>
      obtain ⟨k,db₁⟩ := rest'
      simp only [hrun] at h ⊢
      cases outcome with
      | error e => exact absurd h (by simp)
      | ok u =>
        have hdb₁ : (reapLease q now_ms r').after queueMachine env n db = db₁ := by
          rw [Prog.after,hrun]
        rcases mem_cons.mp hmem with rfl | hmem
        · have hok : ((reapLease q now_ms r).run queueMachine env n db).1 = .ok u := by rw [hrun]
          have hdead := reapLease_dead hr ht hlt hlast hok
          rw [hdb₁] at hdead
          obtain ⟨row',reason,hrow',hst⟩ := hdead
          refine ⟨row',reason,?_,hst⟩
          rw [← hrow']
          exact reapLoop_other q now_ms rest (reaped+1) env k db₁ hr'
        · have hne : r.1 ≠ r'.1 := fun he => hr' (he ▸ mem_map_of_mem hmem)
          refine ih hrest hmem ?_ h
          rw [← hdb₁,(reapLease_other q now_ms r' env n db hne).1]
          exact hr

end Kill

def World.attemptsOf (w : World) (j : JobId) : List Nat :=
  (claimsOf w.claims j).map ClaimedJob.attempt_index

/-- The invariant of a run: the attempts of each job are numbered from one on. -/
structure InOrder (w : World) : Prop where
  numbered : Numbered w.claims w.db
  indexes : ∀ j, w.attemptsOf j = List.range' 1 (claimsOf w.claims j).length

theorem empty_inOrder : InOrder World.empty :=
  ⟨⟨fun j _ => ⟨rfl,rfl⟩,fun j row h => by simp [World.empty,Db.empty] at h⟩,fun j => rfl⟩

theorem claimsOf_snoc (job : ClaimedJob) (j : JobId) :
    claimsOf (claims ++ [job]) j =
      if job.job_id = j then claimsOf claims j ++ [job] else claimsOf claims j := by
  by_cases h : job.job_id = j
  · simp [claimsOf,h]
  · simp [claimsOf,h]

variable {w : World}

theorem claim_inOrder (hw : InOrder w) {job : ClaimedJob} {row : JobRow}
    {lease : LeaseRow} (hr : w.db.jobs.get? job.job_id = some row) (hq : row.state = .queued)
    (hl : w.db.leases.get? job.job_id = none)
    (hidx : job.attempt_index = satAdd32 (countU32 row.attempt_count) 1)
    (hlease : lease.attempt_index = integerU32 job.attempt_index)
    (hmax : job.retry_count_max = countU32 row.attempt_count_max) :
    InOrder ⟨{ w.db with leases := w.db.leases.put job.job_id lease },w.claims ++ [job]⟩ := by
  obtain ⟨c,max,hnum,hclaims⟩ := hw.numbered.rows _ row hr
  have hfull := hnum.unleased hq hl
  have hrun := hnum.runnable hq
  have hlim := hnum.limit_le
  simp only [jobRetryCountMax] at hlim
  have hc : countU32 row.attempt_count = c := by
    rw [hnum.count]
    exact countU32_integerU32 (by simp only [u32Max]; omega)
  have hm : job.retry_count_max = max := by
    rw [hmax,hnum.limit]
    exact countU32_integerU32 (by simp only [u32Max]; omega)
  have hnext : job.attempt_index = c+1 := by
    rw [hidx,hc]
    exact Nat.min_eq_left (by simp only [u32Max]; omega)
  refine ⟨⟨?_,?_⟩,?_⟩
  · intro j hj
    have hne : j ≠ job.job_id := by
      rintro rfl
      rw [hr] at hj
      exact absurd hj (by simp)
    rw [claimsOf_snoc,if_neg (fun h => hne h.symm),Table.get?_put_ne _ _ hne]
    exact hw.numbered.fresh j hj
  · intro j r hj
    by_cases hjj : j = job.job_id
    · subst hjj
      obtain rfl : row = r := by simpa [hr] using hj
      rw [claimsOf_snoc,if_pos rfl,Table.get?_put_self,length_append,length_singleton]
      refine ⟨c,max,⟨hnum.count,hnum.limit,hnum.limit_le,by omega,by omega,hnum.runnable,?_,?_⟩,?_⟩
      · intro _ hnone
        exact absurd hnone (by simp)
      · intro l hl'
        obtain rfl : lease = l := by simpa using hl'
        rw [hlease,hnext,integerU32,hfull]
      · intro job' hjob'
        rcases mem_append.mp hjob' with hjob' | hjob'
        · exact hclaims job' hjob'
        · rw [mem_singleton.mp hjob',hm]
    · rw [claimsOf_snoc,if_neg (fun h => hjj h.symm),Table.get?_put_ne _ _ hjj]
      exact hw.numbered.rows j r hj
  · intro j
    have hold := hw.indexes j
    rw [World.attemptsOf] at hold ⊢
    rw [claimsOf_snoc]
    by_cases hjj : job.job_id = j
    · subst hjj
      rw [if_pos rfl,map_append,hold,length_append,length_singleton,
        List.range'_1_concat,map_singleton,hnext,hfull,Nat.add_comm 1]
    · rw [if_neg hjj]
      exact hold

theorem exec_inOrder (w : World) (c : Call) (hl : c.Legal w) (ho : c.Own w) (hw : InOrder w) :
    InOrder (w.exec q c) := by
  have hdb : ∀ db', Numbered w.claims db' → InOrder ⟨db',w.claims⟩ :=
    fun db' hn => ⟨hn,hw.indexes⟩
  let R : Db → Db → Prop := fun db db' => Numbered w.claims db → Numbered w.claims db'
  have hrefl : ∀ db, R db db := fun _ h => h
  have htrans : ∀ a b c, R a b → R b c → R a c := fun _ _ _ h₁ h₂ h => h₂ (h₁ h)
  obtain ⟨op,env⟩ := c
  cases op with
  | enqueue p spec => exact hdb _ (enqueue_numbered q w.claims p spec env 0 w.db hw.numbered)
  | claim p cl wk =>
    rcases claim_run q p cl wk env 0 w.db with
      ⟨hsame,_⟩ | ⟨row,job,lease,hr,hq,hnone,hidx,-,-,hlease,hmax,hrun⟩
    · simp only [World.exec,hsame]
      exact hw
    · simp only [World.exec,hrun]
      exact claim_inOrder hw hr hq hnone hidx hlease hmax
  | heartbeat job =>
    refine hdb _ ?_
    rcases heartbeat_after q job env 0 w.db with h | ⟨lease,lease',hlease,-,hsame,h⟩
    · rw [h]
      exact hw.numbered
    · rw [h]
      refine ⟨?_,?_⟩
      · intro j hj
        obtain ⟨hc,hnone⟩ := hw.numbered.fresh j hj
        have hne : j ≠ job.job_id := by
          rintro rfl
          rw [hlease] at hnone
          exact absurd hnone (by simp)
        exact ⟨hc,by rw [Table.get?_put_ne _ _ hne]; exact hnone⟩
      · intro j row hj
        obtain ⟨c,max,hnum,hclaims⟩ := hw.numbered.rows j row hj
        refine ⟨c,max,?_,hclaims⟩
        by_cases hjj : j = job.job_id
        · subst hjj
          rw [Table.get?_put_self]
          refine ⟨hnum.count,hnum.limit,hnum.limit_le,hnum.count_le,hnum.claims_le,hnum.runnable,
            fun _ hno => absurd hno (by simp),?_⟩
          intro l hl'
          obtain rfl : lease' = l := by simpa using hl'
          rw [hsame]
          exact hnum.leased lease hlease
        · rw [Table.get?_put_ne _ _ hjj]
          exact hnum
  | complete job wall_ms =>
    obtain ⟨lease,hlease,hheld⟩ := ho
    exact hdb _ (complete_numbered hw.numbered hlease hheld wall_ms env)
  | fail job failure =>
    obtain ⟨lease,hlease,hheld⟩ := ho
    exact hdb _ (fail_numbered q hw.numbered hl hlease hheld failure env)
  | supersede j c => exact hdb _ (supersede_numbered w.claims j c env 0 w.db hw.numbered)
  | reap =>
    refine hdb _ ?_
    rw [Prog.after,reap_eq]
    exact reapLoop_numbered q _ (readExpiredLeases_nodup w.db _) 0 env 2 hw.numbered
      (fun r hr => (readExpiredLeases_mem hr).1)
  | tick p =>
    exact hdb _ (tick_keeps (R := R) hrefl htrans q (supersede_numbered w.claims)
      (enqueue_numbered q w.claims) p env 0 w.db hw.numbered)
  | registerCron p spec =>
    refine hdb _ ?_
    rcases registerCron_after q p spec env 0 w.db with h | ⟨ts_ms,body,ha⟩
    · rw [h]
      exact hw.numbered
    · have hjobs : ∀ j, ((registerCron q p spec).after queueMachine env 0 w.db).jobs.get? j =
          w.db.jobs.get? j := fun j => append_other ha (by simp [JobEvent.job])
      have hleases := (append_ok ha).2.2.1
      refine ⟨fun j hj => ?_,fun j row hj => ?_⟩
      · rw [hleases]
        exact hw.numbered.fresh j (by rw [← hjobs]; exact hj)
      · rw [hleases]
        exact hw.numbered.rows j row (by rw [← hjobs]; exact hj)

def OwnRun (q : JobQueue) : World → List Call → Prop
  | _, [] => True
  | w, c :: cs => c.Legal w ∧ c.Own w ∧ OwnRun q (w.exec q c) cs

theorem OwnRun.prefix_call {q : JobQueue} {pre post : List Call} {c : Call}
    (h : OwnRun q w (pre ++ c :: post)) :
    OwnRun q w pre ∧ c.Legal (w.run q pre) ∧ c.Own (w.run q pre) := by
  induction pre generalizing w with
  | nil => exact ⟨trivial,h.1,h.2.1⟩
  | cons d pre ih =>
    obtain ⟨h₁,h₂⟩ := ih h.2.2
    exact ⟨⟨h.1,h.2.1,h₁⟩,h₂⟩

theorem run_inOrder {q : JobQueue} {calls : List Call} (hrun : OwnRun q w calls)
    (hw : InOrder w) : InOrder (w.run q calls) := by
  induction calls generalizing w with
  | nil => exact hw
  | cons c cs ih => exact ih hrun.2.2 (exec_inOrder q w c hrun.1 hrun.2.1 hw)

theorem exec_terminal_unclaimed (w : World) (c : Call) {st : JobDurableState}
    (hs : w.db.stateOf j = some st) (ht : st.isTerminal = true) :
    (w.exec q c).attemptsOf j = w.attemptsOf j := by
  obtain ⟨op,env⟩ := c
  cases op with
  | claim p cl wk =>
    rcases claim_run q p cl wk env 0 w.db with
      ⟨-,hno⟩ | ⟨row,job,lease,hr,hq,-,-,-,-,-,-,hrun⟩
    · simp only [World.exec,World.attemptsOf]
    · have hne : job.job_id ≠ j := by
        rintro rfl
        simp only [Db.stateOf,hr,Option.map_some,hq,Option.some.injEq] at hs
        rw [← hs] at ht
        exact absurd ht (by simp [JobDurableState.isTerminal])
      simp only [World.exec,hrun,World.attemptsOf,claimsOf_snoc,if_neg hne]
  | _ => rfl

def Reaped (w : World) (c : Call) (j : JobId) (lease : LeaseRow) : Prop :=
  c.op = .reap ∧ (j,lease) ∈ readExpiredLeases w.db (c.env 0).now_ms ∧
    ∃ row, w.db.jobs.get? j = some row ∧ row.state.isTerminal = false ∧
      countU32 row.attempt_count < countU32 lease.attempt_index

def Call.Returns (q : JobQueue) (w : World) (c : Call) : Prop :=
  match c.op with
  | .fail job failure =>
    ∃ out, ((Sched.fail q job failure).run queueMachine c.env 0 w.db).1 = .ok out
  | .reap => ∃ n, ((reapExpiredLeases q).run queueMachine c.env 0 w.db).1 = .ok n
  | _ => True

/-- The claims of a job are numbered from one up without a gap or a repeat, at most one
past its retries; a job that has ended is not claimed; and one whose last allowed attempt
fails or is reaped is Dead with a reason. The operations of a run are whole, one behind
another. -/
theorem attempts_numbered (q : JobQueue) (calls : List Call)
    (hrun : OwnRun q World.empty calls) :
    (∀ j, (World.empty.run q calls).attemptsOf j =
      List.range' 1 ((World.empty.run q calls).attemptsOf j).length) ∧
    (∀ job ∈ (World.empty.run q calls).claims, job.attempt_index ≤ job.retry_count_max+1 ∧
      ∃ row, (World.empty.run q calls).db.jobs.get? job.job_id = some row ∧
        row.attempt_count_max = job.retry_count_max) ∧
    ∀ pre c post, calls = pre ++ c :: post →
      (∀ j st, (World.empty.run q pre).db.stateOf j = some st → st.isTerminal = true →
        (World.empty.run q (pre ++ [c])).attemptsOf j = (World.empty.run q pre).attemptsOf j) ∧
      (∀ job failure, c.op = .fail job failure → c.Returns q (World.empty.run q pre) →
        job.attempt_index = job.retry_count_max+1 →
          DeadWithReason (World.empty.run q (pre ++ [c])).db job.job_id) ∧
      ∀ j lease row, Reaped (World.empty.run q pre) c j lease →
        c.Returns q (World.empty.run q pre) →
        (World.empty.run q pre).db.jobs.get? j = some row →
        lease.attempt_index = row.attempt_count_max+1 →
          DeadWithReason (World.empty.run q (pre ++ [c])).db j := by
  have hall := run_inOrder hrun empty_inOrder
  refine ⟨?_,?_,?_⟩
  · intro j
    have h := hall.indexes j
    rw [World.attemptsOf,length_map]
    exact h
  · intro job hjob
    have hmem : job ∈ claimsOf (World.empty.run q calls).claims job.job_id := by
      simp [claimsOf,hjob]
    cases hr : (World.empty.run q calls).db.jobs.get? job.job_id with
    | none =>
      rw [(hall.numbered.fresh _ hr).1] at hmem
      exact absurd hmem not_mem_nil
    | some row =>
      obtain ⟨k,max,hnum,hmax⟩ := hall.numbered.rows _ row hr
      have hidx : job.attempt_index ∈ (World.empty.run q calls).attemptsOf job.job_id :=
        mem_map_of_mem hmem
      rw [hall.indexes,mem_range'_1] at hidx
      have hle := hnum.claims_le
      rw [hmax job hmem]
      exact ⟨by omega,row,rfl,hnum.limit⟩
  · intro pre c post hsplit
    subst hsplit
    obtain ⟨hpre,hlegal,hown⟩ := hrun.prefix_call
    have hw := run_inOrder hpre empty_inOrder
    rw [run_append]
    refine ⟨?_,?_,?_⟩
    · intro j st hs ht
      exact exec_terminal_unclaimed q _ c hs ht
    · intro job failure hop hret hlast
      obtain ⟨op,env⟩ := c
      obtain rfl : op = .fail job failure := hop
      obtain ⟨out,hout⟩ := hret
      exact fail_dead (by simp [failureKills,hlast]) hout
    · rintro j lease row ⟨hop,hmem,row',hr',ht,hlt⟩ hret hr hlast
      obtain ⟨op,env⟩ := c
      obtain rfl : op = .reap := hop
      obtain rfl : row = row' := by simpa [hr] using hr'
      obtain ⟨n,hn⟩ := hret
      obtain ⟨k,max,hnum,-⟩ := hw.numbered.rows j row hr
      have hbound := hnum.limit_le
      simp only [jobRetryCountMax] at hbound
      have hmax : countU32 row.attempt_count_max = max := by
        rw [hnum.limit]
        exact countU32_integerU32 (by simp only [u32Max]; omega)
      have hidx : countU32 lease.attempt_index = max+1 := by
        rw [hlast,hnum.limit]
        exact countU32_integerU32 (by simp only [u32Max]; omega)
      rw [reap_eq] at hn
      have hdead := reapLoop_dead (q := q) (n := 2) (r := (j,lease)) ht hlt
        (by rw [hmax,hidx]; omega) (readExpiredLeases_nodup _ _) hmem hr hn
      simp only [run_cons,run_nil,World.exec,Prog.after,reap_eq]
      exact hdead

/-! A job that may be retried once: its first attempt is reaped, its second
fails. -/

def retriedOnce : List Call :=
  [⟨.enqueue ⟨0⟩ { demoSpec with retry_count_max := 1 },demoAt 0⟩,
   ⟨.claim ⟨0⟩ .foreground (demoWorker firstSlot),demoAt 1000⟩,
   ⟨.reap,demoAt 40000⟩,
   ⟨.claim ⟨0⟩ .foreground (demoWorker secondSlot),demoAt 50000⟩,
   ⟨.fail { demoClaim secondSlot 2 50000 10000 with retry_count_max := 1 } demoFailure,
     demoAt 51000⟩]

theorem attempts_numbered_demo :
    OwnRun demoQueue World.empty retriedOnce ∧
      ∀ j, (World.empty.run demoQueue retriedOnce).attemptsOf j =
        List.range' 1 ((World.empty.run demoQueue retriedOnce).attemptsOf j).length := by
  have hown : OwnRun demoQueue World.empty retriedOnce := by
    refine ⟨trivial,trivial,trivial,trivial,trivial,trivial,trivial,trivial,?_,?_,trivial⟩
    · exact (by decide +kernel : { demoClaim 1 2 50000 10000 with retry_count_max := 1 } ∈
        (World.empty.run demoQueue (retriedOnce.take 4)).claims)
    · exact ⟨⟨"foreground-1",2,50000,50000,80000⟩,by decide +kernel,rfl,rfl⟩
  exact ⟨hown,(attempts_numbered demoQueue retriedOnce hown).1⟩

example : (World.empty.run demoQueue retriedOnce).attemptsOf ⟨0⟩ = [1,2] := by decide

end ProjectOS.Sched
