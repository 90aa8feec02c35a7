import ProjectOS.Lib.Label
import ProjectOS.Sched.Admission
import ProjectOS.Sched.Watermarks

/-! Cron ticks side by side: which firing a tick is taking up when it retires
a job, and which firing that job was enqueued for. -/

namespace ProjectOS.Sched
open Lib Domain Lib.Prog List

structure Firing where
  cron_id : CronId
  scheduled_ts_ms : Nat
  overlap_policy : CronOverlapPolicy
  deriving DecidableEq

section
variable (q : JobQueue)

def owedFiring (now_ms : Nat) (cron : CronId × CronRow) : Option Firing :=
  if cron.2.enabled = false then none
  else
    match q.schedule cron.2.expr cron.2.tz with
    | .error _ => none
    | .ok next =>
      (dueFiring next (watermarkTsMs cron.2) now_ms).map fun due =>
        ⟨cron.1,due.scheduled_ts_ms,cron.2.overlap_policy⟩

abbrev firingIface : Interface := queueIface.labelled (Option Firing)

def tickFor (project_id : ProjectId) : Prog firingIface SchedError CronTickReport :=
  (Act.now.label none).bind fun now_ms =>
    (Act.listCrons.label none).bind fun crons =>
      crons.foldlM (fun report cron =>
        (tickOne q project_id now_ms report cron).label (owedFiring q now_ms cron)) ⟨[],0,0,0⟩

theorem tickFor_erase (project_id : ProjectId) : (tickFor q project_id).erase = tick q project_id := by
  simp only [tickFor,tick,erase_bind,erase_label,erase_foldlM,bind_eq]

inductive Clerk where
  | tick (project_id : ProjectId)
  | other (op : Op) (plain : op.retires = false)

def Clerk.op : Clerk → Op
  | .tick project_id => .tick project_id
  | .other op _ => op

def Clerk.code : Clerk → Prog firingIface SchedError Reply
  | .tick project_id => (tickFor q project_id).bind fun _ => .ret .done
  | .other op _ => (op.code q).label none

theorem clerk_erase (c : Clerk) : (c.code q).erase = c.op.code q := by
  cases c with
  | tick project_id =>
    simp only [Clerk.code,erase_bind,tickFor_erase,Clerk.op,Op.code]
    rfl
  | other op plain => exact erase_label none (op.code q)

end

def originIn (j : JobId) : JobEvent → Option JobCronOrigin
  | .enqueuedV2 b => if b.job_id = j then b.cron else none
  | _ => none

def originOf (db : Db) (j : JobId) : Option JobCronOrigin := db.facts.findSome? (originIn j)

/-- The rows name the schedule their job was enqueued for. -/
structure CronRows (db : Db) : Prop where
  origin : ∀ j row, db.jobs.get? j = some row →
    row.cron_id = (originOf db j).map JobCronOrigin.cron_id
  enqueued : ∀ e ∈ db.facts, isEnqueue e = true → ∀ j, e.job = some j →
    (db.jobs.get? j).isSome = true

theorem empty_cronRows : CronRows Db.empty :=
  ⟨fun j row h => by simp [Db.empty] at h,fun e he => by simp [Db.empty] at he⟩

variable {j : JobId} {e : JobEvent}

theorem originIn_other (h : isEnqueue e = false ∨ e.job ≠ some j) : originIn j e = none := by
  cases e with
  | enqueuedV2 b =>
    rcases h with h | h
    · simp [isEnqueue] at h
    · simp only [JobEvent.job,ne_eq,Option.some.injEq] at h
      simp [originIn,h]
  | _ => rfl

variable {ts_ms : Nat}

theorem originOf_append {db db' : Db} (h : db.append ts_ms e = .ok db') (j : JobId) :
    originOf db' j = (originOf db j).or (originIn j e) := by
  simp [originOf,(append_ok h).2.1,List.findSome?_append]

theorem originOf_none {db : Db} (h : CronRows db) (hr : db.jobs.get? j = none) :
    originOf db j = none := by
  refine List.findSome?_eq_none_iff.mpr ?_
  intro e he
  by_cases hen : isEnqueue e = true
  · refine originIn_other (Or.inr ?_)
    intro hj
    have hsome := h.enqueued e he hen j hj
    simp [hr] at hsome
  · exact originIn_other (Or.inl (by simpa using hen))

theorem append_cron_id {db db' : Db} {row' : JobRow} (h : db.append ts_ms e = .ok db')
    (hr' : db'.jobs.get? j = some row') :
    (db.jobs.get? j = none ∧ row'.cron_id = (originIn j e).map JobCronOrigin.cron_id) ∨
      ∃ row, db.jobs.get? j = some row ∧ row'.cron_id = row.cron_id := by
  by_cases hj : e.job = some j
  · obtain ⟨-,-,-,hjobs,-⟩ := append_ok h
    have hupdate : ∀ f : JobRow → JobRow,
        updateOne "proj_jobs" "strict update" db.jobs j f = .ok db'.jobs →
        (∀ row, (f row).cron_id = row.cron_id) →
        ∃ row, db.jobs.get? j = some row ∧ row'.cron_id = row.cron_id := by
      intro f hu hf
      obtain ⟨row,hr,hput⟩ := updateOne_ok hu
      rw [hput,Table.get?_put_self,Option.some.injEq] at hr'
      exact ⟨row,hr,by rw [← hr',hf]⟩
    cases e with
    | enqueuedV1 job_id job_kind =>
      obtain ⟨hn,hput⟩ := insertRow_ok hjobs
      obtain rfl : job_id = j := by simpa [JobEvent.job] using hj
      rw [hput,Table.get?_put_self,Option.some.injEq] at hr'
      exact Or.inl ⟨hn,by simp [← hr',originIn]⟩
    | enqueuedV2 b =>
      obtain ⟨hn,hput⟩ := insertRow_ok hjobs
      obtain rfl : b.job_id = j := by simpa [JobEvent.job] using hj
      rw [hput,Table.get?_put_self,Option.some.injEq] at hr'
      exact Or.inl ⟨hn,by simp [← hr',originIn]⟩
    | cronRegistered | cronEnablementSet => simp [JobEvent.job] at hj
    | _ =>
      obtain rfl := Option.some.inj hj
      exact Or.inr (hupdate _ hjobs (fun _ => rfl))
  · rw [append_other h hj] at hr'
    exact Or.inr ⟨row',hr',rfl⟩

theorem originOf_kept {db db' : Db} {row : JobRow} (h : db.append ts_ms e = .ok db')
    (hr : db.jobs.get? j = some row) : originOf db' j = originOf db j := by
  have hin : originIn j e = none := by
    by_cases hen : isEnqueue e = true
    · refine originIn_other (Or.inr ?_)
      intro hj
      have hnone := (append_enqueue h hen hj).1
      simp [hr] at hnone
    · exact originIn_other (Or.inl (by simpa using hen))
  rw [originOf_append h,hin,Option.or_none]

theorem append_cronRows {db db' : Db} (hdb : CronRows db) (h : db.append ts_ms e = .ok db') :
    CronRows db' := by
  refine ⟨?_,?_⟩
  · intro j row' hr'
    rcases append_cron_id h hr' with ⟨hn,hcron⟩ | ⟨row,hr,hcron⟩
    · rw [originOf_append h,originOf_none hdb hn,Option.none_or]
      exact hcron
    · rw [originOf_kept h hr,hcron]
      exact hdb.origin j row hr
  · intro e' he' hen j hj
    have hstays : (db.jobs.get? j).isSome = true → (db'.jobs.get? j).isSome = true := by
      intro hsome
      obtain ⟨row,hr⟩ := Option.isSome_iff_exists.mp hsome
      by_cases hje : e.job = some j
      · have hne : isEnqueue e = false := by
          cases hen' : isEnqueue e with
          | false => rfl
          | true => simp [(append_enqueue h hen' hje).1] at hr
        obtain ⟨_,_,hst,_⟩ := append_update h hne hje
        exact isSome_of_stateOf hst
      · rw [append_other h hje]
        exact hsome
    rw [(append_ok h).2.1] at he'
    rcases mem_append.mp he' with hmem | hmem
    · exact hstays (hdb.enqueued e' hmem hen j hj)
    · obtain rfl := mem_singleton.mp hmem
      exact isSome_of_stateOf (append_enqueue h hen hj).2.1

def Earlier (db : Db) (f : Firing) (j : JobId) : Prop :=
  ∃ ts_ms, originOf db j = some ⟨f.cron_id,ts_ms⟩ ∧ ts_ms < f.scheduled_ts_ms

def ListsEarlier (db : Db) : firingIface.Act → Prop
  | (some f,.listQueuedOf cron_id) => f.overlap_policy = .cancelPrevious →
      ∀ j ∈ listQueuedOf db cron_id, ∀ origin ∈ originOf db j,
        origin.scheduled_ts_ms < f.scheduled_ts_ms
  | _ => True

instance (db : Db) : (a : firingIface.Act) → Decidable (ListsEarlier db a)
  | (some _,.listQueuedOf _) => inferInstanceAs (Decidable (_ → _))
  | (none,_)
  | (some _,.now)
  | (some _,.jitter _)
  | (some _,.readJob _)
  | (some _,.listCrons)
  | (some _,.readExpiredLeases _)
  | (some _,.append _)
  | (some _,.claimLease ..)
  | (some _,.heartbeat ..)
  | (some _,.releaseLease _) => isTrue trivial

/-- Only jobs of earlier firings are superseded. -/
def RetiresEarlier (db : Db) : firingIface.Act → Prop
  | (l,.append e) => ∀ j c, supersession e = some (j,c) →
      ∃ f, l = some f ∧ f.cron_id = c ∧ Earlier db f j
  | _ => True

def KeepsOrigins (db db' : Db) : Prop :=
  ∀ j origin, originOf db j = some origin → originOf db' j = some origin

def firingDiscipline : Discipline firingIface QueueInput Db where
  inv := CronRows
  rely := KeepsOrigins
  given := fun _ => ListsEarlier
  may := RetiresEarlier
  refl := fun _ _ _ h => h
  trans := fun _ _ _ h₁ h₂ j origin h => h₂ j origin (h₁ j origin h)

abbrev firingMachine : Machine firingIface QueueInput Db := queueMachine.labelled (Option Firing)

theorem firing_upheld : Pool.Upheld firingMachine firingDiscipline := by
  intro x db a hdb _ _
  change CronRows (queueMachine.step x db a.2).2 ∧ KeepsOrigins db (queueMachine.step x db a.2).2
  rcases step_appends x db a.2 with ⟨hjobs,hfacts⟩ | ⟨event,-,happ⟩
  · have horigin : ∀ j, originOf (queueMachine.step x db a.2).2 j = originOf db j := by
      intro j
      rw [originOf,originOf,hfacts]
    refine ⟨⟨?_,?_⟩,?_⟩
    · intro j row hr
      rw [hjobs] at hr
      rw [horigin]
      exact hdb.origin j row hr
    · rw [hfacts,hjobs]
      exact hdb.enqueued
    · intro j origin h
      rw [horigin]
      exact h
  · refine ⟨append_cronRows hdb happ,?_⟩
    intro j origin h
    rw [originOf_append happ,h]
    rfl

section
variable {q : JobQueue}

theorem plain_assured {α : Type} {p : QueueProg α}
    (hp : p.Within (Appends fun e => supersession e = none)) (l : Option Firing) (db : Db) :
    (p.label l).Assured firingMachine firingDiscipline (fun _ t => KeepsOrigins db t) db := by
  have hwithin : (p.label l).Within
      fun a : firingIface.Act => Appends (fun e => supersession e = none) a.2 :=
    within_label l hp
  refine assured_within hwithin ?_
  intro t _ _ a ha
  match a with
  | (l,.append e) =>
    intro j c hs
    have hnone : supersession e = none := ha
    simp [hnone] at hs
  | (l,.now) | (l,.jitter _) | (l,.readJob _) | (l,.listCrons) | (l,.listQueuedOf _)
  | (l,.readExpiredLeases _) | (l,.claimLease ..) | (l,.heartbeat ..) | (l,.releaseLease _) =>
    trivial

theorem plain_records : Records q fun e => supersession e = none := ⟨fun _ _ _ => rfl,fun _ _ h => h⟩

variable {db : Db} {f : Firing}

theorem Earlier.kept {db' : Db} {j : JobId} (h : Earlier db f j) (hk : KeepsOrigins db db') :
    Earlier db' f j := by
  obtain ⟨ts_ms,ho,hlt⟩ := h
  exact ⟨ts_ms,hk j _ ho,hlt⟩

theorem supersede_assured {j : JobId} (h : Earlier db f j) :
    ((supersede j f.cron_id).label (some f)).Assured firingMachine firingDiscipline
      (fun _ t => KeepsOrigins db t) db := by
  let retires : firingIface.Act → Prop := fun a => a.1 = some f ∧
    Appends (fun e => ∃ n, e = .dead j n (.supersededByCron f.cron_id)) a.2
  have hwithin : ((supersede j f.cron_id).label (some f)).Within retires :=
    within_label (some f) (within_mono (fun a ha => ⟨rfl,ha⟩)
      (supersede_appends fun n => ⟨n,rfl⟩))
  refine assured_within hwithin ?_
  intro t ht _ a ha
  match a with
  | (l,.append e) =>
    obtain ⟨hl,n,rfl⟩ := ha
    intro j' c hs
    cases hs
    exact ⟨f,hl,rfl,h.kept ht⟩
  | (l,.now) | (l,.jitter _) | (l,.readJob _) | (l,.listCrons) | (l,.listQueuedOf _)
  | (l,.readExpiredLeases _) | (l,.claimLease ..) | (l,.heartbeat ..) | (l,.releaseLease _) =>
    trivial

theorem supersedeAll_assured {live : List JobId} (h : ∀ j ∈ live, Earlier db f j)
    (report : CronTickReport) :
    ((supersedeAll f.cron_id live report).label (some f)).Assured firingMachine firingDiscipline
      (fun _ t => KeepsOrigins db t) db := by
  rw [supersedeAll,label_foldlM]
  refine assured_foldlM live _ ?_ report (firingDiscipline.refl db)
  intro report j hj t ht
  rw [bind_eq,label_bind]
  refine assured_bind (assured_mono ?_ (supersede_assured ((h j hj).kept ht)))
  intro r u hu
  cases r with
  | ok _ => exact firingDiscipline.trans _ _ _ ht hu
  | error e => exact firingDiscipline.trans _ _ _ ht hu

theorem mem_listQueuedOf {cron_id : CronId} {j : JobId} (h : j ∈ listQueuedOf db cron_id) :
    ∃ row, db.jobs.get? j = some row ∧ row.cron_id = some cron_id := by
  obtain ⟨r,hr,rfl⟩ := mem_map.mp h
  have hmem := (mem_insertionSort _).mp (mem_of_mem_take hr)
  obtain ⟨hrow,hcond⟩ := mem_filter.mp hmem
  simp only [Bool.and_eq_true,decide_eq_true_eq] at hcond
  exact ⟨r.2,(Table.mem_rows _).mp hrow,hcond.2⟩

theorem listed_earlier (hdb : CronRows db) (h : ListsEarlier db (some f,.listQueuedOf f.cron_id))
    (hp : f.overlap_policy = .cancelPrevious) :
    ∀ j ∈ listQueuedOf db f.cron_id, Earlier db f j := by
  intro j hj
  obtain ⟨row,hr,hc⟩ := mem_listQueuedOf hj
  have ho := hdb.origin j row hr
  rw [hc] at ho
  obtain ⟨origin,horigin,hcron⟩ := Option.map_eq_some_iff.mp ho.symm
  refine ⟨origin.scheduled_ts_ms,?_,h hp j hj origin horigin⟩
  rw [horigin,← hcron]

end

section
variable {q : JobQueue}

def takeUp (q : JobQueue) (project_id : ProjectId) (cron : CronId × CronRow) (due : DueFiring)
    (report : CronTickReport) (live : List JobId) : QueueProg CronTickReport :=
  match cron.2.overlap_policy with
  | .skip =>
    if live = [] then fire q project_id cron due report
    else pure { report with skipped_overlap_count := report.skipped_overlap_count+1 }
  | .cancelPrevious => do
    let report ← supersedeAll cron.1 live report
    fire q project_id cron due report
  | .queue => fire q project_id cron due report

variable (project_id : ProjectId)

theorem tickOne_due {now_ms : Nat} (report : CronTickReport) {cron : CronId × CronRow}
    {next : Int → Option Int} {due : DueFiring} (he : cron.2.enabled ≠ false)
    (hs : q.schedule cron.2.expr cron.2.tz = .ok next)
    (hd : dueFiring next (watermarkTsMs cron.2) now_ms = some due) :
    tickOne q project_id now_ms report cron =
      .act (F := queueIface) (.listQueuedOf cron.1) (takeUp q project_id cron due
        { report with missed_tick_count := report.missed_tick_count+due.missed_count }) := by
  simp only [tickOne,he,hs,hd]
  rfl

theorem takeUp_assured (cron : CronId × CronRow) (due : DueFiring) (report : CronTickReport)
    {live : List JobId} {db : Db} (hlive : cron.2.overlap_policy = .cancelPrevious → ∀ j ∈ live,
      Earlier db ⟨cron.1,due.scheduled_ts_ms,cron.2.overlap_policy⟩ j) :
    ((takeUp q project_id cron due report live).label
      (some ⟨cron.1,due.scheduled_ts_ms,cron.2.overlap_policy⟩)).Assured firingMachine
        firingDiscipline (fun _ t => KeepsOrigins db t) db := by
  have hfire : ∀ report l t, KeepsOrigins db t →
      ((fire q project_id cron due report).label l).Assured firingMachine firingDiscipline
        (fun _ t => KeepsOrigins db t) t := by
    intro report l t ht
    refine assured_mono ?_
      (plain_assured (fire_appends plain_records project_id cron due report) l t)
    exact fun _ _ hu => firingDiscipline.trans _ _ _ ht hu
  have hrefl : KeepsOrigins db db := firingDiscipline.refl db
  cases hp : cron.2.overlap_policy with
  | skip =>
    simp only [takeUp,hp]
    by_cases hn : live = []
    · rw [if_pos hn]
      exact hfire report _ db hrefl
    · rw [if_neg hn]
      exact hrefl
  | queue =>
    simp only [takeUp,hp]
    exact hfire report _ db hrefl
  | cancelPrevious =>
    simp only [takeUp,hp,bind_eq,label_bind]
    rw [hp] at hlive
    refine assured_bind (assured_mono ?_ (supersedeAll_assured (hlive rfl) report))
    intro r t ht
    cases r with
    | ok report => exact hfire report _ t ht
    | error e => exact ht

theorem tickOne_assured (now_ms : Nat) (report : CronTickReport) (cron : CronId × CronRow)
    (db : Db) :
    ((tickOne q project_id now_ms report cron).label (owedFiring q now_ms cron)).Assured
      firingMachine firingDiscipline (fun _ t => KeepsOrigins db t) db := by
  have hrefl : KeepsOrigins db db := firingDiscipline.refl db
  by_cases he : cron.2.enabled = false
  · simp only [tickOne,he,if_true]
    exact hrefl
  · cases hs : q.schedule cron.2.expr cron.2.tz with
    | error e =>
      simp only [tickOne,he,hs]
      exact hrefl
    | ok next =>
      cases hd : dueFiring next (watermarkTsMs cron.2) now_ms with
      | none =>
        simp only [tickOne,he,hs,hd]
        exact hrefl
      | some due =>
        have hf : owedFiring q now_ms cron =
            some ⟨cron.1,due.scheduled_ts_ms,cron.2.overlap_policy⟩ := by
          simp [owedFiring,he,hs,hd]
        rw [hf,tickOne_due project_id report he hs hd]
        intro t ht hinv
        refine ⟨trivial,?_⟩
        intro x hg _ _
        refine assured_mono ?_ (takeUp_assured project_id cron due _
          (fun hp => listed_earlier hinv hg hp))
        exact fun _ _ hu => firingDiscipline.trans _ _ _ ht hu

theorem clerk_assured (c : Clerk) (db : Db) :
    (c.code q).Assured firingMachine firingDiscipline Prog.anyOutcome db := by
  cases c with
  | other op plain =>
    refine assured_mono (fun _ _ _ => trivial) (plain_assured ?_ none db)
    exact op_appends plain_records op (fun h => by simp [plain] at h)
  | tick project_id =>
    have htick : (tickFor q project_id).Assured firingMachine firingDiscipline
        (fun _ t => KeepsOrigins db t) db := by
      intro t ht _
      refine ⟨trivial,?_⟩
      intro x _ _ _ u hu _
      refine ⟨trivial,?_⟩
      intro y _ _ _
      refine assured_foldlM _ _ ?_ _ (firingDiscipline.trans _ _ _ ht hu)
      intro report cron _ v hv
      refine assured_mono ?_ (tickOne_assured project_id _ report cron v)
      exact fun _ _ hw => firingDiscipline.trans _ _ _ hv hw
    refine assured_bind (assured_mono ?_ htick)
    intro r t _
    cases r with
    | ok | error => trivial

end

abbrev Clerks := Pool firingIface Clerk SchedError Reply Db

def Clerks.idle : Clerks := Pool.fresh Db.empty

section
variable (q : JobQueue)

def Clerks.after (c : Clerks) (ts : List (Turn Clerk QueueInput)) : Clerks :=
  c.turns firingMachine (Clerk.code q) ts

def Clerks.taken (c : Clerks) (ts : List (Turn Clerk QueueInput)) : List firingIface.Act :=
  Pool.taken firingMachine (Clerk.code q) c ts

def Clerks.firings (c : Clerks) (ts : List (Turn Clerk QueueInput)) : List Firing :=
  (c.taken q ts).filterMap Prod.fst

/-- Every retired job gave way to a later firing of its schedule; the latest
firing's job was left alone. -/
structure RetiredForLater (ts : List (Turn Clerk QueueInput)) : Prop where
  taken : ∀ l j n c, (l,.append (.dead j n (.supersededByCron c))) ∈ Clerks.idle.taken q ts →
    ∃ f, l = some f ∧ f.cron_id = c ∧ Earlier (Clerks.idle.after q ts).store f j
  recorded : ∀ j n c, .dead j n (.supersededByCron c) ∈ (Clerks.idle.after q ts).store.facts →
    ∃ f ∈ Clerks.idle.firings q ts, f.cron_id = c ∧ Earlier (Clerks.idle.after q ts).store f j
  latest : ∀ j origin, originOf (Clerks.idle.after q ts).store j = some origin →
    (∀ f ∈ Clerks.idle.firings q ts, f.cron_id = origin.cron_id →
      f.scheduled_ts_ms ≤ origin.scheduled_ts_ms) →
    ∀ n c, .dead j n (.supersededByCron c) ∉ (Clerks.idle.after q ts).store.facts

def ListsOnlyEarlier (ts : List (Turn Clerk QueueInput)) : Prop :=
  Clerks.idle.Along firingMachine (Clerk.code q) (fun _ => ListsEarlier) ts

instance (ts : List (Turn Clerk QueueInput)) : Decidable (ListsOnlyEarlier q ts) :=
  Pool.decidableAlong Clerks.idle ts

end

section
variable {q : JobQueue}

theorem after_erase (c : Clerks) (ts : List (Turn Clerk QueueInput)) :
    (c.after q ts).erase = c.erase.turns queueMachine (fun c => c.op.code q) ts := by
  have hcode : (fun c : Clerk => (c.code q).erase) = fun c => c.op.code q :=
    funext fun c => clerk_erase q c
  rw [← hcode]
  exact Pool.turns_erase queueMachine (Clerk.code q) c ts

variable {ts : List (Turn Clerk QueueInput)}

theorem fact_taken {c : Clerks} {e : JobEvent} (h : e ∈ (c.after q ts).store.facts) :
    e ∈ c.store.facts ∨ ∃ l, (l,.append e) ∈ c.taken q ts := by
  induction ts generalizing c with
  | nil => exact Or.inl h
  | cons t ts ih =>
    rcases ih h with h | ⟨l,hl⟩
    · rcases Pool.turn_store firingMachine (Clerk.code q) c t with hs | ⟨i,x,op,a,k,rfl,hi,hs⟩
      · rw [hs] at h
        exact Or.inl h
      · rw [hs] at h
        have hact : c.action (.act i x) = some a := by simp [Pool.action,hi]
        rcases step_appends x c.store a.2 with ⟨-,hfacts⟩ | ⟨event,ha,happ⟩
        · exact Or.inl (hfacts ▸ h)
        · have hfacts := (append_ok happ).2.1
          have hmem : e ∈ c.store.facts ++ [event] := hfacts ▸ h
          rcases mem_append.mp hmem with hmem | hmem
          · exact Or.inl hmem
          · refine Or.inr ⟨a.1,?_⟩
            obtain rfl := mem_singleton.mp hmem
            refine mem_append_left _ ?_
            rw [hact,← ha]
            exact mem_singleton.mpr rfl
    · exact Or.inr ⟨l,mem_append_right _ hl⟩

theorem taken_retires (h : ListsOnlyEarlier q ts)
    {l : Option Firing} {j : JobId} {n : Nat} {c : CronId}
    (ht : (l,.append (.dead j n (.supersededByCron c))) ∈ Clerks.idle.taken q ts) :
    ∃ f, l = some f ∧ f.cron_id = c ∧ Earlier (Clerks.idle.after q ts).store f j := by
  obtain ⟨db,hmay,hrely⟩ := Pool.taken_may firing_upheld (fun c db _ => clerk_assured c db)
    (Pool.fresh_sound empty_cronRows) h ht
  obtain ⟨f,hl,hc,hearlier⟩ := hmay j c rfl
  exact ⟨f,hl,hc,hearlier.kept hrely⟩

end

/-- In every run whose ticks list only jobs of earlier firings, jobs are retired
for later firings only. -/
theorem retired_for_later (q : JobQueue) (ts : List (Turn Clerk QueueInput))
    (h : ListsOnlyEarlier q ts) : RetiredForLater q ts := by
  have hrecorded : ∀ j n c,
      .dead j n (.supersededByCron c) ∈ (Clerks.idle.after q ts).store.facts →
      ∃ f ∈ Clerks.idle.firings q ts, f.cron_id = c ∧
        Earlier (Clerks.idle.after q ts).store f j := by
    intro j n c hfact
    rcases fact_taken hfact with hempty | ⟨l,hl⟩
    · simp [Clerks.idle,Pool.fresh,Db.empty] at hempty
    · obtain ⟨f,rfl,hc,hearlier⟩ := taken_retires h hl
      exact ⟨f,mem_filterMap.mpr ⟨_,hl,rfl⟩,hc,hearlier⟩
  refine ⟨fun l j n c ht => taken_retires h ht,hrecorded,?_⟩
  intro j origin ho hlatest n c hfact
  obtain ⟨f,hf,-,ts_ms,hearlier,hlt⟩ := hrecorded j n c hfact
  rw [ho,Option.some.injEq] at hearlier
  subst hearlier
  exact Nat.not_le_of_lt hlt (hlatest f hf rfl)

/-! A schedule of every minute replaces its previous job. Two ticks read it before
either fires; the second retires the job of its own firing and finds its enqueue a
duplicate. -/

def firingBlake3 (bytes : Bytes) : Digest :=
  if bytes = jobIdInput ⟨0⟩ "noop" "cron:00000000000000000000000000000007:60000" then
    0x050eb9bf13be0a772d37aaca4657931a89cebeaa2559a6e32e339679565df065#256
  else if bytes = jobIdInput ⟨0⟩ "noop" "cron:00000000000000000000000000000007:120000" then
    0x01f10b6406be36d239cf3ca273c67f2ccf61ab3a8b038fdaafeb83f9091bac64#256
  else 0

def replacingQueue : JobQueue := { minutely with blake3 := firingBlake3 }

def replacingCron : CronSpec := { digestCron with overlap_policy := .cancelPrevious }

def registersReplacing : Clerk := .other (.registerCron ⟨0⟩ replacingCron) rfl

def actAt (slot now_ms : Nat) : Turn Clerk QueueInput := .act slot ⟨now_ms,0,none⟩

def twoTicks : List (Turn Clerk QueueInput) :=
  [.start 0 registersReplacing,actAt 0 0,.start 1 (.tick ⟨0⟩),.start 2 (.tick ⟨0⟩),
   actAt 1 60500,actAt 1 60500,actAt 2 60600,actAt 2 60600,
   actAt 1 60700,actAt 1 60700,actAt 1 60700,
   actAt 2 60800,actAt 2 60800,actAt 2 60800,actAt 2 60800,actAt 2 60800]

def firstFiringJob : JobId := ⟨0x050eb9bf13be0a772d37aaca4657931a#128⟩

theorem tick_retires_own_firing : ¬∀ q ts, RetiredForLater q ts := by
  intro h
  have horigin : originOf (Clerks.idle.after replacingQueue twoTicks).store firstFiringJob =
      some ⟨⟨7⟩,60000⟩ := by decide +kernel
  have hlatest : ∀ f ∈ Clerks.idle.firings replacingQueue twoTicks, f.cron_id = ⟨7⟩ →
      f.scheduled_ts_ms ≤ 60000 := by decide +kernel
  have hdead : JobEvent.dead firstFiringJob 0 (.supersededByCron ⟨7⟩) ∈
      (Clerks.idle.after replacingQueue twoTicks).store.facts := by decide +kernel
  exact (h replacingQueue twoTicks).latest firstFiringJob _ horigin hlatest 0 ⟨7⟩ hdead

def tickAfterTick : List (Turn Clerk QueueInput) :=
  [.start 0 registersReplacing,actAt 0 0,
   .start 1 (.tick ⟨0⟩),actAt 1 60500,actAt 1 60500,actAt 1 60500,actAt 1 60500,actAt 1 60500,
   .start 2 (.tick ⟨0⟩),actAt 2 120500,actAt 2 120500,actAt 2 120500,actAt 2 120500,
   actAt 2 120500,actAt 2 120500,actAt 2 120500,actAt 2 120500]

theorem retired_for_later_demo :
    ListsOnlyEarlier replacingQueue tickAfterTick ∧
      JobEvent.dead firstFiringJob 0 (.supersededByCron ⟨7⟩) ∈
        (Clerks.idle.after replacingQueue tickAfterTick).store.facts ∧
      RetiredForLater replacingQueue tickAfterTick := by
  have hlists : ListsOnlyEarlier replacingQueue tickAfterTick := by decide +kernel
  exact ⟨hlists,by decide +kernel,retired_for_later replacingQueue tickAfterTick hlists⟩

end ProjectOS.Sched
