import ProjectOS.Sched.Runs

/-! The watermark of a schedule: the instant its next firing is searched from. -/

namespace ProjectOS.Sched
open Lib Domain List Lib.Prog

def Db.watermark (db : Db) (c : CronId) : Option Nat := (db.crons.get? c).map watermarkTsMs

def FiredSince (db db' : Db) (c : CronId) (t : Nat) : Prop :=
  ∃ added b, db'.facts = db.facts ++ added ∧ JobEvent.enqueuedV2 b ∈ added ∧
    b.cron = some ⟨c,t⟩

def WatermarksKept (db db' : Db) : Prop :=
  ∀ c w, db.watermark c = some w → ∃ w', db'.watermark c = some w' ∧ w ≤ w' ∧
    (w' = w ∨ FiredSince db db' c w')

/-- The step leaves the schedules alone, and only adds facts. -/
structure CronsSame (db db' : Db) : Prop where
  crons : db'.crons = db.crons
  facts : ∃ added, db'.facts = db.facts ++ added

theorem cronsSame_refl (db : Db) : CronsSame db db := ⟨rfl,[],by simp⟩

theorem cronsSame_trans (a b c : Db) (h₁ : CronsSame a b) (h₂ : CronsSame b c) : CronsSame a c := by
  obtain ⟨x,hx⟩ := h₁.facts
  obtain ⟨y,hy⟩ := h₂.facts
  exact ⟨h₂.crons.trans h₁.crons,x ++ y,by rw [hy,hx,append_assoc]⟩

/-- Leaves every cron as it was. -/
def CronNeutral : JobEvent → Prop
  | .cronRegistered _ => False
  | .cronEnablementSet .. => False
  | .enqueuedV2 b => b.cron = none
  | _ => True

theorem append_cronsSame {db db' : Db} {ts_ms : Nat} {e : JobEvent}
    (h : db.append ts_ms e = .ok db') (he : CronNeutral e) : CronsSame db db' := by
  obtain ⟨-,hf,-,-,hc⟩ := append_ok h
  refine ⟨?_,[e],hf⟩
  cases e with
  | cronRegistered | cronEnablementSet => exact absurd he (by simp [CronNeutral])
  | enqueuedV2 b =>
    simp only [CronNeutral] at he
    simpa [applyCrons,he] using hc.symm
  | _ => simpa [applyCrons] using hc.symm

theorem settles_cronsSame {db db' : Db} {e : JobEvent} {j : JobId} (h : Settles db e j db')
    (he : CronNeutral e) : CronsSame db db' := by
  rcases h with rfl | ⟨ts_ms,db₁,ha,rfl | rfl⟩
  · exact cronsSame_refl db'
  · exact append_cronsSame ha he
  · exact cronsSame_trans _ db₁ _ (append_cronsSame ha he) ⟨rfl,[],by simp⟩

theorem supersede_cronsSame (j : JobId) (c : CronId) :
    Prog.Keeps queueMachine CronsSame (supersede j c) := by
  intro env n db
  rcases supersede_after env n db j c with h | ⟨row,-,-,hs⟩
  · rw [h]; exact cronsSame_refl db
  · exact settles_cronsSame hs trivial

theorem failureEvent_neutral (attempt : FailedAttempt) (failure : JobFailure) (delay_ms : Nat) :
    CronNeutral (failureEvent attempt failure delay_ms) := by
  unfold failureEvent
  split <;> trivial

variable (q : JobQueue)

theorem reapLease_cronsSame (now_ms : Nat) (lease : JobId × LeaseRow) :
    Prog.Keeps queueMachine CronsSame (reapLease q now_ms lease) := by
  intro env n db
  rcases reapLease_after q now_ms lease env n db with h | ⟨h,-⟩ | ⟨row,delay_ms,-,-,-,hs⟩
  · rw [h]; exact cronsSame_refl db
  · rw [h]; exact ⟨rfl,[],by simp [Db.releaseLease]⟩
  · exact settles_cronsSame hs (failureEvent_neutral _ _ _)

theorem watermarksKept_of_same {db db' : Db} (h : db'.crons = db.crons) :
    WatermarksKept db db' := by
  intro c w hw
  exact ⟨w,by rw [Db.watermark,h]; exact hw,le_refl w,Or.inl rfl⟩

/-- What a tick does for one schedule: nothing to the others, and to its own
row at most a firing. -/
structure Fires (c : CronId) (row : CronRow) (db db' : Db) : Prop where
  facts : ∃ added, db'.facts = db.facts ++ added
  other : ∀ c', c' ≠ c → db'.crons.get? c' = db.crons.get? c'
  own : db'.crons.get? c = some row ∨ ∃ row', db'.crons.get? c = some row' ∧
    watermarkTsMs row < watermarkTsMs row' ∧ FiredSince db db' c (watermarkTsMs row')

variable {x : List JobEvent}

theorem firedSince_of_facts {a b c : Db} {k : CronId} {t : Nat}
    (h : b.facts = a.facts ++ x) (hf : FiredSince b c k t) : FiredSince a c k t := by
  obtain ⟨added,body,hadd,hm,hk⟩ := hf
  exact ⟨x ++ added,body,by rw [hadd,h,append_assoc],by simp [hm],hk⟩

theorem firedSince_later {a b c : Db} {k : CronId} {t : Nat}
    (h : c.facts = b.facts ++ x) (hf : FiredSince a b k t) : FiredSince a c k t := by
  obtain ⟨added,body,hadd,hm,hk⟩ := hf
  exact ⟨added ++ x,body,by rw [h,hadd,append_assoc],by simp [hm],hk⟩

theorem fires_of_same {c : CronId} {row : CronRow} {db db' : Db}
    (hr : db.crons.get? c = some row) (h : CronsSame db db') : Fires c row db db' :=
  ⟨h.facts,fun _ _ => by rw [h.crons],Or.inl (by rw [h.crons]; exact hr)⟩

theorem fires_after_same {c : CronId} {row : CronRow} {a b d : Db} (h₁ : CronsSame a b)
    (h₂ : Fires c row b d) : Fires c row a d := by
  obtain ⟨x,hx⟩ := h₁.facts
  obtain ⟨y,hy⟩ := h₂.facts
  refine ⟨⟨x ++ y,by rw [hy,hx,append_assoc]⟩,?_,?_⟩
  · intro c' hc
    rw [h₂.other c' hc,h₁.crons]
  · rcases h₂.own with h | ⟨row',hr,hlt,hf⟩
    · exact Or.inl h
    · exact Or.inr ⟨row',hr,hlt,firedSince_of_facts hx hf⟩

def JobQueue.Advances (q : JobQueue) : Prop :=
  ∀ expr tz next, q.schedule expr tz = .ok next → ∀ cursor t, next cursor = some t → cursor < t

variable {next : Int → Option Int}

theorem dueScan_between (hnext : ∀ c t, next c = some t → c < t)
    {now : Int} (n : Nat) {cursor : Int} {latest : Option Int} {count : Nat} {r : Int × Nat}
    (h : dueScan next now n cursor latest count = some r) :
    latest = some r.1 ∨ (cursor < r.1 ∧ r.1 ≤ now) := by
  induction n generalizing cursor latest count with
  | zero =>
    obtain ⟨t,ht,rfl⟩ := Option.map_eq_some_iff.mp h
    exact Or.inl ht
  | succ n ih =>
    rw [dueScan] at h
    cases hx : next cursor with
    | none =>
      simp only [hx] at h
      obtain ⟨t,ht,rfl⟩ := Option.map_eq_some_iff.mp h
      exact Or.inl ht
    | some t =>
      have hlt := hnext cursor t hx
      simp only [hx] at h
      split at h
      · obtain ⟨t',ht,rfl⟩ := Option.map_eq_some_iff.mp h
        exact Or.inl ht
      · rcases ih h with hl | ⟨h₁,h₂⟩
        · right
          simp only [Option.some.injEq] at hl
          omega
        · right
          omega

theorem dueFiring_between (hnext : ∀ c t, next c = some t → c < t)
    {watermark_ts_ms now_ms : Nat} {due : DueFiring}
    (h : dueFiring next watermark_ts_ms now_ms = some due) :
    watermark_ts_ms < due.scheduled_ts_ms ∧ (due.scheduled_ts_ms : Int) ≤ integerU64 now_ms := by
  obtain ⟨r,hr,rfl⟩ := Option.map_eq_some_iff.mp h
  have hcap := integerU64_le now_ms
  rcases dueScan_between hnext _ hr with h | ⟨h₁,h₂⟩
  · simp at h
  · simp only [integerU64,i64Max,nonNegative] at *
    omega

theorem nonNegative_integerU64 {n : Nat} (h : (n : Int) ≤ i64Max) :
    nonNegative (integerU64 n) = n := by
  simp [integerU64,nonNegative,min_eq_left h]

section Tick
variable (q : JobQueue) (env : Nat → QueueInput) (n : Nat) {db : Db} {c : CronId} {row : CronRow}

theorem fire_after (project_id : ProjectId) (cron : CronId × CronRow) (due : DueFiring)
    (report : CronTickReport) (db : Db) :
    (fire q project_id cron due report).after queueMachine env n db = db ∨
      ∃ kind, (fire q project_id cron due report).after queueMachine env n db =
        (enqueue q project_id (firingSpec cron.1 cron.2 kind due)).after queueMachine env n db := by
  unfold fire
  split
  · rename_i hk
    refine Or.inr ⟨⟨cron.2.job_kind,hk⟩,?_⟩
    simp only [bind_eq,Prog.after,run_bind]
    cases hp : (enqueue q project_id (firingSpec cron.1 cron.2 ⟨cron.2.job_kind,hk⟩ due)).run
        queueMachine env n db with
    | mk r rest =>
      cases r with
      | ok outcome => dsimp only; split <;> rfl
      | error e => rfl
  · exact Or.inl rfl

theorem fire_fires (project_id : ProjectId) {due : DueFiring} (report : CronTickReport)
    (hr : db.crons.get? c = some row) (hlt : watermarkTsMs row < due.scheduled_ts_ms)
    (hle : (due.scheduled_ts_ms : Int) ≤ i64Max) :
    Fires c row db ((fire q project_id (c,row) due report).after queueMachine env n db) := by
  rcases fire_after q env n project_id (c,row) due report db with h | ⟨kind,h⟩
  · rw [h]
    exact fires_of_same hr (cronsSame_refl db)
  rw [h]
  rcases enqueue_after q project_id (firingSpec c row kind due) env n db with h | ⟨ts_ms,ha⟩
  · rw [h]
    exact fires_of_same hr (cronsSame_refl db)
  generalize (enqueue q project_id (firingSpec c row kind due)).after queueMachine env n db =
    db' at ha
  obtain ⟨-,hf,-,-,hc⟩ := append_ok ha
  obtain ⟨row₀,-,hput⟩ := updateOne_ok hc
  refine ⟨⟨_,hf⟩,?_,Or.inr ⟨_,by rw [hput]; exact Table.get?_put_self _ _ _,?_⟩⟩
  · intro c' hne
    rw [hput]
    exact Table.get?_put_ne _ _ hne
  · have hw : nonNegative (integerU64 due.scheduled_ts_ms) = due.scheduled_ts_ms :=
      nonNegative_integerU64 hle
    refine ⟨?_,_,_,hf,mem_singleton.mpr rfl,?_⟩
    · change _ < nonNegative (integerU64 due.scheduled_ts_ms)
      rw [hw]
      exact hlt
    · change some (JobCronOrigin.mk c due.scheduled_ts_ms) =
        some ⟨c,nonNegative (integerU64 due.scheduled_ts_ms)⟩
      rw [hw]

theorem supersedeAll_cronsSame (cron_id : CronId) (live : List JobId) (report : CronTickReport) :
    Prog.Keeps queueMachine CronsSame (supersedeAll cron_id live report) :=
  supersedeAll_keeps cronsSame_refl cronsSame_trans supersede_cronsSame cron_id live report

theorem tickOne_fires (hq : q.Advances) (project_id : ProjectId) (now_ms : Nat)
    (report : CronTickReport) (hr : db.crons.get? c = some row) :
    Fires c row db
      ((tickOne q project_id now_ms report (c,row)).after queueMachine env n db) := by
  have hsame : Fires c row db db := fires_of_same hr (cronsSame_refl db)
  unfold tickOne
  split
  · exact hsame
  cases hs : q.schedule row.expr row.tz with
  | error e => exact hsame
  | ok next =>
    cases hd : dueFiring next (watermarkTsMs row) now_ms with
    | none =>
      simp only [hd]
      exact hsame
    | some due =>
      obtain ⟨hlt,hle⟩ := dueFiring_between (hq _ _ _ hs) hd
      have hmax : (due.scheduled_ts_ms : Int) ≤ i64Max := hle.trans (integerU64_le now_ms)
      simp only [hd,bind_eq,after_bind,listQueuedOf_run]
      split
      · split
        · exact fire_fires q env (n+1) project_id _ hr hlt hmax
        · exact hsame
      · rw [after_bind]
        cases hsup : (supersedeAll c (listQueuedOf db c) { report with
            missed_tick_count := report.missed_tick_count+due.missed_count }).run queueMachine env
              (n+1) db with
        | mk r rest =>
          obtain ⟨m,db₁⟩ := rest
          have hk := supersedeAll_cronsSame c (listQueuedOf db c) { report with
            missed_tick_count := report.missed_tick_count+due.missed_count } env (n+1) db
          simp only [Prog.after,hsup] at hk
          have hr₁ : db₁.crons.get? c = some row := by rw [hk.crons]; exact hr
          cases r with
          | ok report' =>
            exact fires_after_same hk (fire_fires q env m project_id report' hr₁ hlt hmax)
          | error e => exact fires_of_same hr hk
      · exact fire_fires q env (n+1) project_id _ hr hlt hmax

theorem watermarksKept_of_fires {db' : Db} (hr : db.crons.get? c = some row)
    (h : Fires c row db db') : WatermarksKept db db' := by
  intro k w hw
  by_cases hk : k = c
  · subst hk
    simp only [Db.watermark,hr,Option.map_some,Option.some.injEq] at hw
    subst hw
    rcases h.own with h | ⟨row',hr',hlt,hf⟩
    · exact ⟨_,by simp [Db.watermark,h],le_refl _,Or.inl rfl⟩
    · exact ⟨_,by simp [Db.watermark,hr'],hlt.le,Or.inr hf⟩
  · exact ⟨w,by rw [Db.watermark,h.other k hk]; exact hw,le_refl w,Or.inl rfl⟩

theorem watermarksKept_trans {a b d : Db} {x y : List JobEvent} (hx : b.facts = a.facts ++ x)
    (hy : d.facts = b.facts ++ y) (h₁ : WatermarksKept a b) (h₂ : WatermarksKept b d) :
    WatermarksKept a d := by
  intro k w hw
  obtain ⟨w₁,hw₁,hle₁,hc₁⟩ := h₁ k w hw
  obtain ⟨w₂,hw₂,hle₂,hc₂⟩ := h₂ k w₁ hw₁
  refine ⟨w₂,hw₂,hle₁.trans hle₂,?_⟩
  rcases hc₂ with rfl | hf
  · exact hc₁.imp_right (firedSince_later hy)
  · exact Or.inr (firedSince_of_facts hx hf)

theorem ticks_kept (hq : q.Advances) (project_id : ProjectId) (now_ms : Nat)
    (crons : List (CronId × CronRow)) (hd : crons.Pairwise (fun a b => a.1 ≠ b.1))
    (report : CronTickReport) (db : Db) (hrows : ∀ r ∈ crons, db.crons.get? r.1 = some r.2) :
    WatermarksKept db
        ((crons.foldlM (tickOne q project_id now_ms) report).after queueMachine env n db) ∧
      ∃ added, ((crons.foldlM (tickOne q project_id now_ms) report).after queueMachine env n
        db).facts = db.facts ++ added := by
  induction crons generalizing db n report with
  | nil => exact ⟨watermarksKept_of_same rfl,[],by simp [Prog.after]⟩
  | cons r rest ih =>
    have hr := hrows r (by simp)
    have hfire := tickOne_fires q env n hq project_id now_ms report hr
    rw [foldlM_cons,bind_eq,after_bind]
    simp only [Prog.after] at hfire
    cases hrun : (tickOne q project_id now_ms report (r.1,r.2)).run queueMachine env n db with
    | mk out tail =>
      obtain ⟨m,db₁⟩ := tail
      rw [hrun] at hfire
      have hkept := watermarksKept_of_fires hr hfire
      obtain ⟨x,hx⟩ := hfire.facts
      cases out with
      | error e => exact ⟨hkept,x,hx⟩
      | ok report' =>
        have hrest : ∀ t ∈ rest, db₁.crons.get? t.1 = some t.2 := by
          intro t ht
          rw [hfire.other t.1 (fun he => rel_of_pairwise_cons hd ht he.symm)]
          exact hrows t (mem_cons_of_mem _ ht)
        obtain ⟨hk,y,hy⟩ := ih m hd.of_cons report' db₁ hrest
        exact ⟨watermarksKept_trans hx hy hkept hk,x ++ y,by rw [hy,hx,append_assoc]⟩

theorem tick_kept (hq : q.Advances) (project_id : ProjectId) (db : Db) :
    WatermarksKept db ((tick q project_id).after queueMachine env n db) := by
  unfold tick
  simp only [bind_eq,after_bind,now_run,listCrons_run]
  have hd : db.crons.rows.Pairwise (fun a b => a.1 ≠ b.1) := db.crons.sorted.imp ne_of_lt
  exact (ticks_kept q env (n+2) hq project_id _ _ hd _ db (fun r hr => (Table.mem_rows _).mp hr)).1

end Tick

def Rewinds (q : JobQueue) (w : World) (c : Call) : Prop :=
  match c.op with
  | .registerCron _ spec =>
    (q.schedule spec.expr spec.tz).isOk = true ∧ (c.env 0).fault = none ∧
      ∃ t, w.db.watermark spec.cron_id = some t ∧ t ≠ nonNegative (integerU64 (c.env 0).now_ms)
  | _ => False

def Call.Plain (c : Call) : Prop :=
  match c.op with
  | .enqueue _ spec => spec.cron = none
  | _ => True

theorem registerCron_after_eq (project_id : ProjectId) (spec : CronSpec) (env : Nat → QueueInput)
    (n : Nat) (db : Db) :
    (registerCron q project_id spec).after queueMachine env n db = db ∨
      ((q.schedule spec.expr spec.tz).isOk = true ∧ (env n).fault = none ∧
        ∃ body row, ((registerCron q project_id spec).after queueMachine env n db).facts =
            db.facts ++ [.cronRegistered body] ∧
          ((registerCron q project_id spec).after queueMachine env n db).crons =
            db.crons.put spec.cron_id row ∧
          watermarkTsMs row = nonNegative (integerU64 (env n).now_ms)) := by
  unfold registerCron
  cases q.schedule spec.expr spec.tz with
  | error x => exact Or.inl rfl
  | ok next =>
    simp only [Prog.after,appendJobFact_run]
    cases (env n).fault with
    | some fault => exact Or.inl rfl
    | none => exact Or.inr ⟨rfl,rfl,_,_,rfl,rfl,rfl⟩

theorem registerCron_kept_iff (project_id : ProjectId) (spec : CronSpec) (env : Nat → QueueInput)
    (db : Db) :
    WatermarksKept db ((registerCron q project_id spec).after queueMachine env 0 db) ↔
      ¬((q.schedule spec.expr spec.tz).isOk = true ∧ (env 0).fault = none ∧
        ∃ t, db.watermark spec.cron_id = some t ∧ t ≠ nonNegative (integerU64 (env 0).now_ms)) := by
  constructor
  · rintro hkept ⟨hok,hf,t,ht,hne⟩
    rcases registerCron_after_eq q project_id spec env 0 db with h | ⟨-,-,body,row,hfacts,hput,hrow⟩
    · obtain ⟨next,hs⟩ : ∃ next, q.schedule spec.expr spec.tz = .ok next := by
        cases hs : q.schedule spec.expr spec.tz with
        | ok next => exact ⟨next,rfl⟩
        | error x => simp [hs,Except.isOk,Except.toBool] at hok
      have hhead := congrArg Db.head h
      simp [registerCron,hs,Prog.after,appendJobFact_run,hf,Db.append,applyCrons,applyJobs] at hhead
    · obtain ⟨w',hw',-,hcase⟩ := hkept _ t ht
      have hnow : w' = nonNegative (integerU64 (env 0).now_ms) := by
        simpa [Db.watermark,hput,hrow] using hw'.symm
      rcases hcase with h | ⟨added,b,hadd,hm,-⟩
      · exact hne (by rw [← h,hnow])
      · obtain rfl : added = [.cronRegistered body] :=
          append_cancel_left (hadd.symm.trans hfacts)
        exact absurd hm (by simp)
  · intro hno
    rcases registerCron_after_eq q project_id spec env 0 db with h | ⟨hok,hf,body,row,-,hput,hrow⟩
    · rw [h]
      exact watermarksKept_of_same rfl
    · intro c w hw
      by_cases hc : c = spec.cron_id
      · subst hc
        have hnow : w = nonNegative (integerU64 (env 0).now_ms) := by
          by_contra hne
          exact hno ⟨hok,hf,w,hw,hne⟩
        exact ⟨w,by simp [Db.watermark,hput,hrow,hnow],le_refl w,Or.inl rfl⟩
      · refine ⟨w,?_,le_refl w,Or.inl rfl⟩
        rw [Db.watermark,hput,Table.get?_put_ne _ _ hc]
        exact hw

theorem exec_watermarks_iff (hq : q.Advances) (w : World) (c : Call) (hc : c.Plain) :
    WatermarksKept w.db (w.exec q c).db ↔ ¬Rewinds q w c := by
  have hsame : ∀ {db' : Db}, CronsSame w.db db' → (WatermarksKept w.db db' ↔ ¬False) :=
    fun h => iff_of_true (watermarksKept_of_same h.crons) not_false
  obtain ⟨op,env⟩ := c
  cases op with
  | enqueue p spec =>
    refine hsame ?_
    change CronsSame w.db ((enqueue q p spec).after queueMachine env 0 w.db)
    rcases enqueue_after q p spec env 0 w.db with h | ⟨ts_ms,ha⟩
    · rw [h]
      exact cronsSame_refl _
    · exact append_cronsSame ha hc
  | claim p cl wk =>
    refine iff_of_true (watermarksKept_of_same ?_) not_false
    rcases claim_run q p cl wk env 0 w.db with ⟨hdb,_⟩ | ⟨row,job,lease,-,-,-,-,-,-,-,-,hrun⟩
    · simpa only [World.exec] using congrArg Db.crons hdb
    · simp only [World.exec,hrun]
  | heartbeat job =>
    refine iff_of_true (watermarksKept_of_same ?_) not_false
    rcases heartbeat_after q job env 0 w.db with h | ⟨_,_,-,-,-,h⟩
    · simp only [World.exec,h]
    · simp only [World.exec,h]
  | complete job wall_ms =>
    exact hsame (settles_cronsSame (complete_after env 0 w.db job wall_ms) trivial)
  | fail job failure =>
    obtain ⟨now_ms,delay_ms,hs⟩ := fail_after q env 0 w.db job failure
    exact hsame (settles_cronsSame hs (failureEvent_neutral _ _ _))
  | supersede j cr => exact hsame (supersede_cronsSame j cr env 0 w.db)
  | reap =>
    exact hsame (reap_keeps cronsSame_refl cronsSame_trans q (reapLease_cronsSame q) env 0 w.db)
  | tick p => exact iff_of_true (tick_kept q env 0 hq p w.db) not_false
  | registerCron p spec => exact registerCron_kept_iff q p spec env w.db

/-- Precisely when a run moves every watermark only forward and only to a
recorded firing: it re-registers no schedule at an instant other than the
schedule's watermark. -/
theorem watermarks_kept_iff (q : JobQueue) (hq : q.Advances) (calls : List Call)
    (hplain : ∀ c ∈ calls, c.Plain) :
    (∀ pre c post, calls = pre ++ c :: post →
      WatermarksKept (World.empty.run q pre).db (World.empty.run q (pre ++ [c])).db) ↔
    ∀ pre c post, calls = pre ++ c :: post → ¬Rewinds q (World.empty.run q pre) c := by
  have hstep : ∀ pre c post, calls = pre ++ c :: post →
      (WatermarksKept (World.empty.run q pre).db (World.empty.run q (pre ++ [c])).db ↔
        ¬Rewinds q (World.empty.run q pre) c) := by
    intro pre c post hsplit
    rw [run_append]
    exact exec_watermarks_iff q hq _ c (hplain c (by simp [hsplit]))
  constructor
  · intro h pre c post hsplit
    exact (hstep pre c post hsplit).mp (h pre c post hsplit)
  · intro h pre c post hsplit
    exact (hstep pre c post hsplit).mpr (h pre c post hsplit)

/-! A schedule fires every minute. The process is down over one firing, and
registers its schedules again when it starts. -/

def minutely : JobQueue where
  backoff := ⟨2000,2,900000⟩
  lease_ttl_ms := 30000
  blake3 := fun _ => 0
  schedule := fun _ _ => .ok (fun cursor => some ((cursor/60000+1)*60000))

theorem minutely_advances : minutely.Advances := by
  intro expr tz next h cursor t ht
  simp only [minutely,Except.ok.injEq] at h
  subst h
  simp only [Option.some.injEq] at ht
  omega

def digestCron : CronSpec :=
  { cron_id := ⟨7⟩, job_kind := demoKind, expr := "* * * * *", tz := "UTC",
    overlap_policy := .skip, enabled := true, priority := .normal, class_ := .foreground,
    payload := [] }

def registeredAgain : List Call :=
  [⟨.registerCron ⟨0⟩ digestCron,demoAt 0⟩,
   ⟨.tick ⟨0⟩,demoAt 60500⟩,
   ⟨.registerCron ⟨0⟩ digestCron,demoAt 130000⟩]

theorem watermark_overwritten :
    ¬∀ (q : JobQueue), q.Advances → ∀ calls : List Call, (∀ c ∈ calls, c.Plain) →
      ∀ pre c post, calls = pre ++ c :: post →
        WatermarksKept (World.empty.run q pre).db (World.empty.run q (pre ++ [c])).db := by
  intro h
  have hkept := h minutely minutely_advances registeredAgain (by simp [registeredAgain,Call.Plain])
    (registeredAgain.take 2) ⟨.registerCron ⟨0⟩ digestCron,demoAt 130000⟩ [] rfl
  have hbefore : (World.empty.run minutely (registeredAgain.take 2)).db.watermark ⟨7⟩ =
      some 60000 := by decide
  have hrewinds : Rewinds minutely (World.empty.run minutely (registeredAgain.take 2))
      ⟨.registerCron ⟨0⟩ digestCron,demoAt 130000⟩ :=
    ⟨rfl,rfl,60000,hbefore,by decide⟩
  rw [run_append] at hkept
  exact (exec_watermarks_iff minutely minutely_advances
    (World.empty.run minutely (registeredAgain.take 2))
    ⟨.registerCron ⟨0⟩ digestCron,demoAt 130000⟩ trivial).mp hkept hrewinds

theorem watermarks_kept_minutely :
    minutely.Advances ∧ (∀ c ∈ registeredAgain, c.Plain) ∧
      ((∀ pre c post, registeredAgain = pre ++ c :: post →
        WatermarksKept (World.empty.run minutely pre).db
          (World.empty.run minutely (pre ++ [c])).db) ↔
      ∀ pre c post, registeredAgain = pre ++ c :: post →
        ¬Rewinds minutely (World.empty.run minutely pre) c) := by
  have hplain : ∀ c ∈ registeredAgain, c.Plain := by simp [registeredAgain,Call.Plain]
  exact ⟨minutely_advances,hplain,watermarks_kept_iff minutely minutely_advances _ hplain⟩

end ProjectOS.Sched
