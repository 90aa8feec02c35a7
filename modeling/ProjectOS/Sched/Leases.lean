import ProjectOS.Sched.Runs

namespace ProjectOS.Sched
open Lib Domain

def LeaseRow.HeldBy (lease : LeaseRow) (job : ClaimedJob) : Prop :=
  lease.worker = job.worker.name ∧ lease.attempt_index = integerU32 job.attempt_index

def Op.claimed : Op → Option ClaimedJob
  | .heartbeat job
  | .complete job _
  | .fail job _ => some job
  | _ => none

def Op.settled : Op → Option ClaimedJob
  | .complete job _
  | .fail job _ => some job
  | _ => none

def LeaseLost (w w' : World) (j : JobId) (lease : LeaseRow) : Prop :=
  w.db.leases.get? j = some lease ∧
    ¬∃ lease', w'.db.leases.get? j = some lease' ∧ lease'.worker = lease.worker ∧
      lease'.attempt_index = lease.attempt_index

def ByHolder (c : Call) (j : JobId) (lease : LeaseRow) : Prop :=
  ∃ job, c.op.claimed = some job ∧ job.job_id = j ∧ lease.HeldBy job

def ByStaleClaim (c : Call) (j : JobId) (lease : LeaseRow) : Prop :=
  ∃ job, c.op.settled = some job ∧ job.job_id = j ∧ ¬lease.HeldBy job

/-- The call supersedes the job itself, or is a tick, in which a cron may. -/
def BySupersede (c : Call) (j : JobId) : Prop :=
  (∃ cron, c.op = .supersede j cron) ∨ ∃ p, c.op = .tick p

def Expired (c : Call) (lease : LeaseRow) : Prop :=
  lease.lease_expires_ts_ms ≤ integerU64 (c.env 0).now_ms

def Superseded (db : Db) (j : JobId) : Prop :=
  ∃ row, db.jobs.get? j = some row ∧ row.state = .dead ∧
    row.dead_reason_code = some "superseded_by_cron"

/-- A step that gives no lease and takes one only from a job it leaves superseded. -/
structure LeaseStep (db db' : Db) : Prop where
  kept : ∀ j lease, db.leases.get? j = some lease →
    db'.leases.get? j = some lease ∨ (db'.leases.get? j = none ∧ Superseded db' j)
  none : ∀ j, db.leases.get? j = none → db'.leases.get? j = none
  superseded : ∀ j, Superseded db j → Superseded db' j

theorem leaseStep_refl (db : Db) : LeaseStep db db :=
  ⟨fun _ _ h => Or.inl h,fun _ h => h,fun _ h => h⟩

theorem leaseStep_trans (a b c : Db) (h₁ : LeaseStep a b) (h₂ : LeaseStep b c) :
    LeaseStep a c := by
  refine ⟨?_,fun j h => h₂.none j (h₁.none j h),fun j h => h₂.superseded j (h₁.superseded j h)⟩
  intro j lease h
  rcases h₁.kept j lease h with h | ⟨hn,hs⟩
  · exact h₂.kept j lease h
  · exact Or.inr ⟨h₂.none j hn,h₂.superseded j hs⟩

variable (q : JobQueue)

theorem enqueue_leaseStep (p : ProjectId) (spec : JobSpec) :
    Prog.Keeps queueMachine LeaseStep (enqueue q p spec) := by
  intro env n db
  rcases enqueue_after q p spec env n db with h | ⟨ts_ms,ha⟩
  · rw [h]; exact leaseStep_refl db
  · obtain ⟨-,-,hl,-⟩ := append_ok ha
    refine ⟨fun j lease h => Or.inl (by rw [hl]; exact h),fun j h => by rw [hl]; exact h,?_⟩
    rintro j ⟨row,hr,hrest⟩
    refine ⟨row,?_,hrest⟩
    rw [append_other ha,hr]
    intro hj
    obtain ⟨hn,-,-⟩ := append_enqueue ha rfl hj
    rw [hr] at hn
    exact absurd hn (by simp)

theorem supersede_leaseStep (j : JobId) (c : CronId) :
    Prog.Keeps queueMachine LeaseStep (supersede j c) := by
  intro env n db
  rcases supersede_after env n db j c with h | ⟨row,hr,ht,hs⟩
  · rw [h]; exact leaseStep_refl db
  · have happ : ∀ ts_ms db₁, db.append ts_ms (.dead j (countU32 row.attempt_count)
        (.supersededByCron c)) = .ok db₁ →
        db₁.leases = db.leases ∧ Superseded db₁ j ∧ ∀ i, Superseded db i → Superseded db₁ i := by
      intro ts_ms db₁ ha
      obtain ⟨-,-,hl,hjobs,-⟩ := append_ok ha
      obtain ⟨_,-,hput⟩ := updateOne_ok hjobs
      have hj : Superseded db₁ j := ⟨_,by rw [hput]; exact Table.get?_put_self _ _ _,rfl,rfl⟩
      refine ⟨hl,hj,?_⟩
      rintro i ⟨row',hr',hrest⟩
      by_cases hij : i = j
      · rw [hij]; exact hj
      · refine ⟨row',?_,hrest⟩
        rw [append_other ha,hr']
        simp only [JobEvent.job,ne_eq,Option.some.injEq]
        exact fun h => hij h.symm
    rcases hs with h | ⟨ts_ms,db₁,ha,h | h⟩
    · rw [h]; exact leaseStep_refl db
    · obtain ⟨hl,-,hsup⟩ := happ ts_ms db₁ ha
      rw [h]
      exact ⟨fun i lease hi => Or.inl (by rw [hl]; exact hi),fun i hi => by rw [hl]; exact hi,hsup⟩
    · obtain ⟨hl,hj,hsup⟩ := happ ts_ms db₁ ha
      rw [h]
      refine ⟨?_,?_,hsup⟩
      · intro i lease hi
        by_cases hij : i = j
        · subst hij
          exact Or.inr ⟨Table.get?_erase_self _ _,hj⟩
        · left
          rw [Db.releaseLease,Table.get?_erase_ne _ hij,hl]
          exact hi
      · intro i hi
        rw [Db.releaseLease,Table.get?_erase,hl]
        split
        · rfl
        · exact hi

def RemovesOnly (S : List JobId) (db db' : Db) : Prop :=
  ∀ j, db'.leases.get? j = db.leases.get? j ∨ (db'.leases.get? j = none ∧ j ∈ S)

theorem removesOnly_refl (S : List JobId) (db : Db) : RemovesOnly S db db := fun _ => Or.inl rfl

theorem removesOnly_trans (S : List JobId) (a b c : Db) (h₁ : RemovesOnly S a b)
    (h₂ : RemovesOnly S b c) : RemovesOnly S a c := by
  intro j
  rcases h₂ j with h | h
  · rw [h]; exact h₁ j
  · exact Or.inr h

variable {j : JobId} {S : List JobId}

theorem removesOnly_releaseLease (db : Db) (h : j ∈ S) :
    RemovesOnly S db (db.releaseLease j) := by
  intro i
  rw [Db.releaseLease,Table.get?_erase]
  split
  · rename_i hij
    exact Or.inr ⟨rfl,hij ▸ h⟩
  · exact Or.inl rfl

theorem settles_removesOnly {db db' : Db} {e : JobEvent} (h : Settles db e j db')
    (hj : j ∈ S) : RemovesOnly S db db' := by
  rcases h with rfl | ⟨ts_ms,db₁,ha,h⟩
  · exact removesOnly_refl S db'
  · have happ : RemovesOnly S db db₁ := fun i => Or.inl (by rw [(append_ok ha).2.2.1])
    rcases h with rfl | rfl
    · exact happ
    · exact removesOnly_trans S _ db₁ _ happ (removesOnly_releaseLease db₁ hj)

theorem readExpiredLeases_mem {db : Db} {now_ms : Nat} {r : JobId × LeaseRow}
    (h : r ∈ readExpiredLeases db now_ms) :
    db.leases.get? r.1 = some r.2 ∧ r.2.lease_expires_ts_ms ≤ integerU64 now_ms := by
  have hm := List.mem_of_mem_take h
  rw [List.mem_insertionSort,List.mem_filter] at hm
  exact ⟨(Table.mem_rows _).mp hm.1,by simpa using hm.2⟩

theorem reap_leases (env : Nat → QueueInput) (db : Db) (j : JobId) :
    ((reapExpiredLeases q).after queueMachine env 0 db).leases.get? j = db.leases.get? j ∨
      (((reapExpiredLeases q).after queueMachine env 0 db).leases.get? j = none ∧
        ∃ lease, db.leases.get? j = some lease ∧
          lease.lease_expires_ts_ms ≤ integerU64 (env 0).now_ms) := by
  let expired := readExpiredLeases db (env 0).now_ms
  have hloop : Prog.Keeps queueMachine (RemovesOnly (expired.map Prod.fst))
      (expired.foldlM (fun reaped lease => do
        reapLease q (env 0).now_ms lease
        pure (reaped+1)) 0) := by
    refine Prog.keeps_foldlM (removesOnly_refl _) (removesOnly_trans _) expired _ ?_ 0
    intro reaped lease hm
    refine Prog.keeps_bind (removesOnly_trans _) ?_
      (fun _ => Prog.keeps_ret (removesOnly_refl _) _)
    intro env n db
    have hmem : lease.1 ∈ expired.map Prod.fst := List.mem_map_of_mem hm
    rcases reapLease_after q _ lease env n db with h | ⟨h,-⟩ | ⟨row,delay_ms,-,-,-,hs⟩
    · rw [h]; exact removesOnly_refl _ db
    · rw [h]; exact removesOnly_releaseLease db hmem
    · exact settles_removesOnly hs hmem
  rcases hloop env 2 db j with h | ⟨hn,hm⟩
  · exact Or.inl h
  · obtain ⟨r,hr,rfl⟩ := List.mem_map.mp hm
    obtain ⟨hget,hexp⟩ := readExpiredLeases_mem hr
    exact Or.inr ⟨hn,r.2,hget,hexp⟩

variable {lease : LeaseRow}

theorem leaseStep_lost {w w' : World} (h : LeaseLost w w' j lease) (hs : LeaseStep w.db w'.db) :
    Superseded w'.db j := by
  rcases hs.kept j lease h.1 with hk | ⟨-,hsup⟩
  · exact absurd ⟨lease,hk,rfl,rfl⟩ h.2
  · exact hsup

theorem leases_eq_not_lost {w w' : World} (h : LeaseLost w w' j lease)
    (hs : w'.db.leases = w.db.leases) : False :=
  h.2 ⟨lease,by rw [hs]; exact h.1,rfl,rfl⟩

theorem settle_lost {w w' : World} {i : JobId} {e : JobEvent} (h : LeaseLost w w' j lease)
    (hs : Settles w.db e i w'.db) : i = j := by
  rcases settles_removesOnly hs (List.mem_singleton.mpr rfl) j with hk | ⟨-,hm⟩
  · exact absurd ⟨lease,by rw [hk]; exact h.1,rfl,rfl⟩ h.2
  · exact (List.mem_singleton.mp hm).symm

theorem exec_lease_lost (w : World) (c : Call) (h : LeaseLost w (w.exec q c) j lease)
    (hstale : ¬ByStaleClaim c j lease) :
    ByHolder c j lease ∨ (c.op = .reap ∧ Expired c lease) ∨
      (BySupersede c j ∧ Superseded (w.exec q c).db j) := by
  have hown : ∀ job, c.op.settled = some job → c.op.claimed = some job → job.job_id = j →
      ByHolder c j lease := by
    intro job hs hj hid
    by_contra hno
    exact hstale ⟨job,hs,hid,fun hheld => hno ⟨job,hj,hid,hheld⟩⟩
  obtain ⟨op,env⟩ := c
  cases op with
  | enqueue p spec =>
    exfalso
    refine leases_eq_not_lost h ?_
    rcases enqueue_after q p spec env 0 w.db with hb | ⟨ts_ms,ha⟩
    · simp only [World.exec,hb]
    · exact (append_ok ha).2.2.1
  | claim p cl wk =>
    exfalso
    rcases claim_run q p cl wk env 0 w.db with ⟨hdb,_⟩ | ⟨row,job,lease',-,-,hnone,-,-,-,-,-,hrun⟩
    · refine leases_eq_not_lost h ?_
      simpa only [World.exec] using congrArg Db.leases hdb
    · have hne : j ≠ job.job_id := by
        rintro rfl
        rw [h.1] at hnone
        exact absurd hnone (by simp)
      refine h.2 ⟨lease,?_,rfl,rfl⟩
      simp only [World.exec,hrun]
      rw [Table.get?_put_ne _ _ hne]
      exact h.1
  | heartbeat job =>
    exfalso
    rcases heartbeat_after q job env 0 w.db with hb | ⟨old,new,hold,hw,ha,hb⟩
    · refine leases_eq_not_lost h ?_
      simp only [World.exec,hb]
    · by_cases hne : j = job.job_id
      · subst hne
        obtain rfl : old = lease := by simpa [hold] using h.1
        refine h.2 ⟨new,?_,hw,ha⟩
        simp only [World.exec,hb,Table.get?_put_self]
      · refine h.2 ⟨lease,?_,rfl,rfl⟩
        simp only [World.exec,hb]
        rw [Table.get?_put_ne _ _ hne]
        exact h.1
  | complete job wall_ms =>
    exact Or.inl (hown job rfl rfl (settle_lost h (complete_after env 0 w.db job wall_ms)))
  | fail job failure =>
    obtain ⟨now_ms,delay_ms,hs⟩ := fail_after q env 0 w.db job failure
    exact Or.inl (hown job rfl rfl (settle_lost h hs))
  | supersede i cron =>
    have hsup := leaseStep_lost h (supersede_leaseStep i cron env 0 w.db)
    rcases supersede_after env 0 w.db i cron with hb | ⟨row,-,-,hs⟩
    · refine absurd (leases_eq_not_lost h ?_) not_false
      simp only [World.exec,hb]
    · obtain rfl := settle_lost h hs
      exact Or.inr (Or.inr ⟨Or.inl ⟨cron,rfl⟩,hsup⟩)
  | reap =>
    rcases reap_leases q env w.db j with hk | ⟨-,old,hold,hexp⟩
    · exact absurd ⟨lease,hk.trans h.1,rfl,rfl⟩ h.2
    · obtain rfl : old = lease := by simpa [hold] using h.1
      exact Or.inr (Or.inl ⟨rfl,hexp⟩)
  | tick p =>
    exact Or.inr (Or.inr ⟨Or.inr ⟨p,rfl⟩,leaseStep_lost h (tick_keeps leaseStep_refl
      leaseStep_trans q supersede_leaseStep (enqueue_leaseStep q) p env 0 w.db)⟩)
  | registerCron p spec =>
    exfalso
    refine leases_eq_not_lost h ?_
    rcases registerCron_after q p spec env 0 w.db with hb | ⟨ts_ms,body,ha⟩
    · simp only [World.exec,hb]
    · exact (append_ok ha).2.2.1

def Holds (db : Db) (now_ms : Nat) (job : ClaimedJob) : Prop :=
  ∃ lease, db.leases.get? job.job_id = some lease ∧ lease.HeldBy job ∧
    integerU64 now_ms < lease.lease_expires_ts_ms

theorem holds_unique {db : Db} {now_ms : Nat} {job₁ job₂ : ClaimedJob}
    (h₁ : Holds db now_ms job₁) (h₂ : Holds db now_ms job₂) (hj : job₁.job_id = job₂.job_id) :
    job₁.worker = job₂.worker ∧ job₁.attempt_index = job₂.attempt_index := by
  obtain ⟨lease,hl,⟨hw,ha⟩,-⟩ := h₁
  obtain ⟨lease',hl',⟨hw',ha'⟩,-⟩ := h₂
  rw [← hj,hl,Option.some.injEq] at hl'
  subst hl'
  refine ⟨?_,?_⟩
  · have hname : job₁.worker.name = job₂.worker.name := hw.symm.trans hw'
    cases h₁ : job₁.worker with
    | mk n v =>
      cases h₂ : job₂.worker with
      | mk m u => simpa [h₁,h₂] using hname
  · simp only [integerU32] at ha ha'
    omega

/-- In every run a lease is lost only to its holder, to a reap after its expiry, or to
a supersede of its job; what a complete or fail under a stale claim does is left open.
At every moment the unexpired lease of a job is held by one worker's one attempt. -/
theorem lease_lost_by_design (q : JobQueue) (calls : List Call) :
    (∀ pre c post, calls = pre ++ c :: post → ∀ j lease,
      LeaseLost (World.empty.run q pre) (World.empty.run q (pre ++ [c])) j lease →
      ¬ByStaleClaim c j lease →
        ByHolder c j lease ∨ (c.op = .reap ∧ Expired c lease) ∨
          (BySupersede c j ∧ Superseded (World.empty.run q (pre ++ [c])).db j)) ∧
    ∀ now_ms, ∀ job₁ ∈ (World.empty.run q calls).claims,
      ∀ job₂ ∈ (World.empty.run q calls).claims, job₁.job_id = job₂.job_id →
        Holds (World.empty.run q calls).db now_ms job₁ →
        Holds (World.empty.run q calls).db now_ms job₂ →
          job₁.worker = job₂.worker ∧ job₁.attempt_index = job₂.attempt_index := by
  constructor
  · intro pre c post _ j lease hlost hstale
    rw [run_append] at hlost ⊢
    exact exec_lease_lost q _ c hlost hstale
  · intro now_ms job₁ _ job₂ _ hj h₁ h₂
    exact holds_unique h₁ h₂ hj

/-- A cron that cancels a running job takes a live lease from its worker. -/
theorem live_lease_superseded :
    ¬∀ (q : JobQueue) (calls : List Call), LegalRun q World.empty calls →
      ∀ pre c post, calls = pre ++ c :: post → ∀ j lease,
        LeaseLost (World.empty.run q pre) (World.empty.run q (pre ++ [c])) j lease →
          ByHolder c j lease ∨ Expired c lease := by
  intro h
  let pre := supersededThenCompleted.take 2
  let c : Call := ⟨.supersede ⟨0⟩ ⟨0⟩,demoAt 2000⟩
  let lease : LeaseRow := ⟨"foreground-0",1,1000,1000,31000⟩
  have hlegal : LegalRun demoQueue World.empty (pre ++ [c]) := ⟨trivial,trivial,trivial,trivial⟩
  have hheld : (World.empty.run demoQueue pre).db.leases.get? ⟨0⟩ = some lease := by decide
  have hgone : ((World.empty.run demoQueue (pre ++ [c])).db.leases.get? ⟨0⟩).isNone = true := by
    decide
  have hlost : LeaseLost (World.empty.run demoQueue pre) (World.empty.run demoQueue (pre ++ [c]))
      ⟨0⟩ lease := by
    refine ⟨hheld,?_⟩
    rintro ⟨lease',hl',-⟩
    rw [Option.isNone_iff_eq_none.mp hgone] at hl'
    exact absurd hl' (by simp)
  rcases h demoQueue (pre ++ [c]) hlegal pre c [] rfl ⟨0⟩ lease hlost with ⟨job,hj,-⟩ | hexp
  · exact absurd hj (by simp [c,Op.claimed])
  · simp [Expired,lease,c,demoAt,integerU64,i64Max] at hexp

end ProjectOS.Sched
