import ProjectOS.Lib.Replay
import ProjectOS.Lib.Succession
import ProjectOS.Sched.Schedule
import ProjectOS.Sched.Watermarks

/-! The firings of a schedule, and what the bounded searches of the cron driver
find of them. -/

namespace ProjectOS.Sched
open Lib

namespace CronSchedule
variable (s : CronSchedule)

def Firing (t : Int) : Prop := ∃ c zoned, s.Matches c ∧ s.tz.compatible c = some zoned ∧ zoned.ms = t

noncomputable def stops (c d : CivilMinute) : Nat := (stopsBetween CivilMinute.number s.Stop c d).ncard

variable {s} {t after_ts_ms : Int}

theorem fires_eq_some {c : CivilMinute} :
    s.fires after_ts_ms c = some t ↔
      s.Matches c ∧ after_ts_ms < t ∧ ∃ zoned, s.tz.compatible c = some zoned ∧ zoned.ms = t := by
  unfold fires
  split_ifs with hmatch
  · cases s.tz.compatible c with
    | none => simp
    | some zoned =>
      simp only [Option.bind_some,hmatch,true_and,Option.some.injEq,exists_eq_left']
      split_ifs with hlt
      · simp only [Option.some.injEq]
        constructor
        · rintro rfl
          exact ⟨hlt,rfl⟩
        · exact fun h => h.2
      · simp only [false_iff]
        rintro ⟨h,rfl⟩
        exact hlt h
  · simp [hmatch]

theorem firing_after :
    after_ts_ms < t ∧ s.Firing t ↔ ∃ c, s.fires after_ts_ms c = some t := by
  constructor
  · rintro ⟨hlt,c,zoned,hmatch,hzoned,rfl⟩
    exact ⟨c,fires_eq_some.mpr ⟨hmatch,hlt,zoned,hzoned,rfl⟩⟩
  · rintro ⟨c,hc⟩
    obtain ⟨hmatch,hlt,zoned,hzoned,hms⟩ := fires_eq_some.mp hc
    exact ⟨hlt,c,zoned,hmatch,hzoned,hms⟩

theorem firing_range (h : s.Firing t) : timestampMinMs ≤ t ∧ t ≤ timestampMaxMs := by
  obtain ⟨-,zoned,-,-,rfl⟩ := h
  exact zoned.range

theorem fromMillisecond_ms (a : Timestamp) : Timestamp.fromMillisecond a.ms = some a := by
  rw [Timestamp.fromMillisecond,dif_pos a.range]

theorem nextFireAfter_eq_some {a : Timestamp} :
    s.nextFireAfter a.ms = some t ↔
      ∃ c d, s.firstCandidate a = some c ∧ FirstHit CivilMinute.number (s.fires a.ms) c d t ∧
        s.stops c d < cronSearchStepCountMax := by
  simp only [nextFireAfter,fromMillisecond_ms,Option.bind_eq_bind,Option.bind_some,
    Option.bind_eq_some_iff,search_eq,(s.leaping a.ms).leap_eq_some_iff]
  constructor
  · rintro ⟨c,hc,d,hd,hstops⟩
    exact ⟨c,d,hc,hd,hstops⟩
  · rintro ⟨c,d,hc,hd,hstops⟩
    exact ⟨c,hc,d,hd,hstops⟩

theorem nextFireAfter_firing (h : s.nextFireAfter after_ts_ms = some t) :
    after_ts_ms < t ∧ s.Firing t := by
  have hrange : ∃ a, Timestamp.fromMillisecond after_ts_ms = some a ∧ a.ms = after_ts_ms := by
    obtain ⟨a,ha,-⟩ := Option.bind_eq_some_iff.mp h
    unfold Timestamp.fromMillisecond at ha
    split_ifs at ha with hin
    exact ⟨⟨after_ts_ms,hin⟩,by rw [Timestamp.fromMillisecond,dif_pos hin],rfl⟩
  obtain ⟨a,-,rfl⟩ := hrange
  obtain ⟨c,d,-,hd,-⟩ := nextFireAfter_eq_some.mp h
  exact firing_after.mpr ⟨d,hd.found⟩

theorem stops_mono {c d e : CivilMinute} (h : d.number ≤ e.number) : s.stops c d ≤ s.stops c e := by
  refine Set.ncard_le_ncard ?_ (stopsBetween_finite CivilMinute.number_injective c e)
  rintro x ⟨hx,hcx,hxd⟩
  exact ⟨hx,hcx,le_trans hxd h⟩

/-- The search gives up with a firing still ahead exactly when none of the
minutes from the next one on the wall clock fires within its bound. -/
theorem next_fire_found_iff (s : CronSchedule) (after : Timestamp) :
    (s.nextFireAfter after.ms = none → ¬∃ t, after.ms < t ∧ s.Firing t) ↔
      ((∃ t, after.ms < t ∧ s.Firing t) →
        ∃ c d t, s.firstCandidate after = some c ∧ c.number ≤ d.number ∧
          s.fires after.ms d = some t ∧ s.stops c d < cronSearchStepCountMax) := by
  constructor
  · intro h hfiring
    obtain ⟨t,ht⟩ := Option.ne_none_iff_exists'.mp (fun hnone => h hnone hfiring)
    obtain ⟨c,d,hc,hd,hstops⟩ := nextFireAfter_eq_some.mp ht
    exact ⟨c,d,t,hc,hd.behind,hd.found,hstops⟩
  · intro h hnone hfiring
    obtain ⟨c,d,t,hc,hcd,hd,hstops⟩ := h hfiring
    obtain ⟨e,u,he⟩ := @exists_firstHit _ _ _ (s.fires after.ms) _ _ _ hcd hd
    have hed : e.number ≤ d.number := by
      by_contra hlt
      have hmiss := he.first d hcd (by omega)
      rw [hd] at hmiss
      cases hmiss
    have hfound := nextFireAfter_eq_some.mpr
      ⟨c,e,hc,he,Nat.lt_of_le_of_lt (stops_mono hed) hstops⟩
    rw [hnone] at hfound
    cases hfound

def leapDay : CronSchedule := ⟨⟨1,1,2^29,4,127,true,false⟩,TimeZone.utc,"UTC"⟩

/-- From the leap day of 2096 on, the search stops short of the one of 2104. -/
theorem leap_day_not_found :
    CronExpr.parse "0 0 29 2 *" = .ok leapDay.expr ∧
    leapDay.nextFireAfter 3981312000000 = none ∧
    leapDay.Firing 4233686400000 := by
  refine ⟨by decide +kernel,by decide +kernel,?_⟩
  exact ⟨⟨⟨2104,2,29,by decide,by decide,by decide⟩,0,0⟩,⟨4233686400000,by decide⟩,by decide +kernel,
    by decide +kernel,rfl⟩

def EnumeratesFirings (s : CronSchedule) (start : Int) : Prop :=
  Enumerates s.nextFireAfter s.Firing start ∧
    ∀ n t u, nthAfter s.nextFireAfter start n = some t →
      nthAfter s.nextFireAfter start (n+1) = some u → t < u

/-- No firing is lost exactly when from the start, and from each firing, the
first minute on the wall clock that fires later is the earliest firing there is,
and lies within the search's bound. -/
theorem firings_enumerated_iff (s : CronSchedule) (start : Timestamp) :
    s.EnumeratesFirings start.ms ↔
      ∀ (a : Timestamp) (m : Int), (a = start ∨ start.ms < a.ms ∧ s.Firing a.ms) →
        IsLeast {t | a.ms < t ∧ s.Firing t} m →
        ∃ c d, s.firstCandidate a = some c ∧ FirstHit CivilMinute.number (s.fires a.ms) c d m ∧
          s.stops c d < cronSearchStepCountMax := by
  have hnext : ∀ a t, s.nextFireAfter a = some t → a < t ∧ s.Firing t :=
    fun _ _ h => nextFireAfter_firing h
  have horder : ∀ n t u, nthAfter s.nextFireAfter start.ms n = some t →
      nthAfter s.nextFireAfter start.ms (n+1) = some u → t < u :=
    fun n t u ht hu => (nthAfter_lt_iff (fun a t h => (hnext a t h).1) ht hu).mpr (by omega)
  rw [EnumeratesFirings,and_iff_left horder,enumerates_iff hnext]
  constructor
  · intro h a m ha hm
    refine nextFireAfter_eq_some.mp (h a.ms m ?_ hm)
    rcases ha with rfl | ha
    · exact Or.inl rfl
    · exact Or.inr ha
  · intro h a m ha hm
    have hinstant : ∃ b : Timestamp, b.ms = a ∧ (b = start ∨ start.ms < b.ms ∧ s.Firing b.ms) := by
      rcases ha with rfl | ⟨hlt,hfiring⟩
      · exact ⟨start,rfl,Or.inl rfl⟩
      · exact ⟨⟨a,firing_range hfiring⟩,rfl,Or.inr ⟨hlt,hfiring⟩⟩
    obtain ⟨b,rfl,hb⟩ := hinstant
    exact nextFireAfter_eq_some.mpr (h b m hb hm)

def springForward : TimeZone where
  datetime t := DateTime.ofMs (t.ms+(if t.ms < 1774746000000 then 3600000 else 7200000))
  compatible c :=
    Timestamp.fromMillisecond ((c.number-(if c.number < 29579220 then 60 else 120))*60000)

def twiceAtTwo : CronSchedule :=
  ⟨⟨1+2^30,4,2^32-2,2^13-2,127,false,false⟩,springForward,"Europe/Berlin"⟩

/-- Both firings are moved by the hour that does not exist; from the first of
them the search goes on behind three o'clock on the wall clock, and the second is
lost. -/
theorem gap_loses_firing :
    CronExpr.parse "0,30 2 * * *" = .ok twiceAtTwo.expr ∧
    twiceAtTwo.nextFireAfter 1774699200000 = some 1774746000000 ∧
    twiceAtTwo.nextFireAfter 1774746000000 = some 1774828800000 ∧
    twiceAtTwo.Firing 1774747800000 := by
  refine ⟨by decide,by decide,by decide,?_⟩
  exact ⟨⟨⟨2026,3,29,by decide,by decide,by decide⟩,2,30⟩,⟨1774747800000,by decide⟩,by decide,
    by decide,rfl⟩

section
variable {next : Int → Option Int} {now : Int}

variable {rounds count : Nat} {cursor : Int} {latest : Option Int}

theorem dueScan_eq_some {t : Int} {n : Nat}
    (hnext : ∀ a t, next a = some t → a < t) (h : dueScan next now rounds cursor latest count = some (t,n)) :
    (latest = some t ∧ ∀ k < rounds, ∀ u, nthAfter next cursor k = some u → now < u) ∨
      ∃ k < rounds, nthAfter next cursor k = some t ∧ t ≤ now ∧
        ∀ j < rounds, ∀ u, nthAfter next cursor j = some u → u ≤ now → u ≤ t := by
  induction rounds generalizing cursor latest count with
  | zero =>
    obtain ⟨u,hu,heq⟩ := Option.map_eq_some_iff.mp h
    exact Or.inl ⟨by rw [hu,(Prod.mk.inj heq).1],fun k hk => by omega⟩
  | succ rounds ih =>
    rw [dueScan] at h
    cases hc : next cursor with
    | none =>
      rw [hc] at h
      obtain ⟨u,hu,heq⟩ := Option.map_eq_some_iff.mp h
      refine Or.inl ⟨by rw [hu,(Prod.mk.inj heq).1],?_⟩
      intro k _ w hw
      obtain ⟨first,hfirst⟩ : ∃ first, nthAfter next cursor 0 = some first := by
        rcases Nat.eq_zero_or_pos k with rfl | hpos
        · exact ⟨w,hw⟩
        · obtain ⟨v,hv,-⟩ := nthAfter_lt hnext hpos hw
          exact ⟨v,hv⟩
      rw [nthAfter,hc] at hfirst
      cases hfirst
    | some u =>
      have hshift := nthAfter_shift hc
      have hzero : nthAfter next cursor 0 = some u := hc
      simp only [hc] at h
      split_ifs at h with hnow
      · obtain ⟨w,hw,heq⟩ := Option.map_eq_some_iff.mp h
        refine Or.inl ⟨by rw [hw,(Prod.mk.inj heq).1],?_⟩
        intro k _ v hv
        rcases Nat.eq_zero_or_pos k with rfl | hpos
        · rw [hzero,Option.some.injEq] at hv
          omega
        · have hlt := (nthAfter_lt_iff hnext hzero hv).mpr hpos
          omega
      · rcases ih h with ⟨hlatest,hlater⟩ | ⟨k,hk,ht,htnow,hmax⟩
        · obtain rfl := Option.some.inj hlatest
          refine Or.inr ⟨0,by omega,hzero,by omega,?_⟩
          intro j hj v hv hvnow
          cases j with
          | zero =>
            rw [hzero,Option.some.injEq] at hv
            omega
          | succ j =>
            have hlate := hlater j (by omega) v (by rw [hshift]; exact hv)
            omega
        · refine Or.inr ⟨k+1,by omega,by rw [← hshift]; exact ht,htnow,?_⟩
          intro j hj v hv hvnow
          cases j with
          | zero =>
            rw [hzero,Option.some.injEq] at hv
            have hlt := nthAfter_after hnext ht
            omega
          | succ j => exact hmax j (by omega) v (by rw [hshift]; exact hv) hvnow

theorem dueScan_eq_none :
    dueScan next now rounds cursor latest count = none ↔
      latest = none ∧ ∀ t, 0 < rounds → next cursor = some t → now < t := by
  induction rounds generalizing cursor latest count with
  | zero => simp [dueScan]
  | succ rounds ih =>
    rw [dueScan]
    cases hc : next cursor with
    | none => simp
    | some u =>
      simp only [Option.some.injEq,forall_eq',Nat.succ_pos,forall_const]
      split_ifs with hnow
      · simp [hnow]
      · rw [ih]
        simp [hnow]

end

def OwesLatest (s : CronSchedule) (watermark_ts_ms now_ms : Nat) : Prop :=
  (∀ d, dueFiring s.nextFireAfter watermark_ts_ms now_ms = some d →
    IsGreatest (window s.Firing watermark_ts_ms now_ms) d.scheduled_ts_ms) ∧
  (dueFiring s.nextFireAfter watermark_ts_ms now_ms = none →
    window s.Firing watermark_ts_ms now_ms = ∅)

variable (s : CronSchedule)

theorem nextFireAfter_clamp (n : Nat) : s.nextFireAfter (integerU64 n) = s.nextFireAfter n := by
  by_cases h : (n : Int) ≤ i64Max
  · rw [integerU64,min_eq_left h]
  · have hclamped : ¬(timestampMinMs ≤ i64Max ∧ i64Max ≤ timestampMaxMs) := by decide
    have hbeyond : ¬(timestampMinMs ≤ (n : Int) ∧ (n : Int) ≤ timestampMaxMs) := by
      have hroom : timestampMaxMs ≤ i64Max := by decide
      omega
    rw [integerU64,min_eq_right (by omega),nextFireAfter,nextFireAfter,Timestamp.fromMillisecond,
      Timestamp.fromMillisecond,dif_neg hclamped,dif_neg hbeyond]
    simp only [Option.bind_eq_bind,Option.bind_none]

theorem nthAfter_clamp (n k : Nat) :
    nthAfter s.nextFireAfter (integerU64 n) k = nthAfter s.nextFireAfter n k := by
  induction k with
  | zero => exact s.nextFireAfter_clamp n
  | succ k ih => rw [nthAfter,ih,nthAfter]

theorem le_clamp {s : CronSchedule} (h : s.Firing t) (now : Nat) : t ≤ integerU64 now ↔ t ≤ now := by
  have hrange := (firing_range h).2
  have hroom : timestampMaxMs ≤ i64Max := by decide
  unfold integerU64
  omega

theorem next_lt : ∀ a t, s.nextFireAfter a = some t → a < t :=
  fun _ _ h => (nextFireAfter_firing h).1

theorem new_advances (get : String → Except String TimeZone) (expr tz_name : String)
    {next : Int → Option Int}
    (h : (CronSchedule.new get expr tz_name).map CronSchedule.nextFireAfter = .ok next) :
    ∀ cursor t, next cursor = some t → cursor < t := by
  cases hs : CronSchedule.new get expr tz_name with
  | error error =>
    rw [hs] at h
    cases h
  | ok s =>
    rw [hs] at h
    cases h
    exact s.next_lt

theorem nthAfter_firing {s : CronSchedule} {cursor : Int} {k : Nat}
    (h : nthAfter s.nextFireAfter cursor k = some t) : s.Firing t := by
  cases k with
  | zero => exact (nextFireAfter_firing h).2
  | succ k =>
    obtain ⟨u,-,hu⟩ := nthAfter_before k h
    exact (nextFireAfter_firing hu).2

def ScanReaches (s : CronSchedule) (watermark_ts_ms now_ms : Nat) : Prop :=
  ∀ t, IsGreatest (window s.Firing watermark_ts_ms now_ms) t →
    ∃ k < cronCatchupScanCountMax, nthAfter s.nextFireAfter watermark_ts_ms k = some t

section
variable {s : CronSchedule} {watermark_ts_ms now_ms : Nat}

theorem owesLatest_of_none
    (hdue : dueScan s.nextFireAfter (integerU64 now_ms) cronCatchupScanCountMax
      (integerU64 watermark_ts_ms) none 0 = none) :
    s.OwesLatest watermark_ts_ms now_ms ↔ s.ScanReaches watermark_ts_ms now_ms := by
  have hnone : dueFiring s.nextFireAfter watermark_ts_ms now_ms = none := by
    rw [dueFiring,hdue]
    rfl
  rw [OwesLatest,hnone]
  constructor
  · rintro ⟨-,hempty⟩ t ht
    have hmem := ht.1
    rw [hempty rfl] at hmem
    exact absurd hmem (Set.notMem_empty t)
  · intro h
    refine ⟨fun d hd => (by cases hd),fun _ => Set.eq_empty_iff_forall_notMem.mpr ?_⟩
    intro t ht
    obtain ⟨g,hg⟩ := window_greatest ht
    obtain ⟨k,-,hk⟩ := h g hg
    obtain ⟨first,hfirst,hle⟩ : ∃ first, s.nextFireAfter watermark_ts_ms = some first ∧ first ≤ g := by
      rcases Nat.eq_zero_or_pos k with rfl | hpos
      · exact ⟨g,hk,le_refl _⟩
      · obtain ⟨u,hu,hlt⟩ := nthAfter_lt s.next_lt hpos hk
        exact ⟨u,hu,le_of_lt hlt⟩
    have hlater := (dueScan_eq_none.mp hdue).2 first (by decide)
      (by rw [nextFireAfter_clamp]; exact hfirst)
    have hnow := (le_clamp (nextFireAfter_firing hfirst).2 now_ms).mpr (le_trans hle hg.1.2.1)
    omega

theorem owesLatest_of_some {r : Int} {n : Nat}
    (hdue : dueScan s.nextFireAfter (integerU64 now_ms) cronCatchupScanCountMax
      (integerU64 watermark_ts_ms) none 0 = some (r,n)) :
    s.OwesLatest watermark_ts_ms now_ms ↔ s.ScanReaches watermark_ts_ms now_ms := by
  rcases dueScan_eq_some s.next_lt hdue with ⟨hlatest,-⟩ | ⟨k,hk,hr,hrnow,hmax⟩
  · cases hlatest
  · rw [nthAfter_clamp] at hr
    have hPr := nthAfter_firing hr
    have hafter := nthAfter_after s.next_lt hr
    have hmem : r ∈ window s.Firing watermark_ts_ms now_ms :=
      ⟨hafter,(le_clamp hPr now_ms).mp hrnow,hPr⟩
    have hsome : dueFiring s.nextFireAfter watermark_ts_ms now_ms = some ⟨nonNegative r,n-1⟩ := by
      rw [dueFiring,hdue]
      rfl
    have hsched : ((nonNegative r : Nat) : Int) = r := by
      unfold nonNegative
      omega
    rw [OwesLatest,hsome]
    constructor
    · rintro ⟨hright,-⟩ t ht
      have hrt := (hright _ rfl).unique ht
      rw [hsched] at hrt
      exact ⟨k,hk,by rw [← hrt]; exact hr⟩
    · intro h
      refine ⟨?_,fun hd => (by cases hd)⟩
      intro d hd
      obtain rfl := Option.some.inj hd
      rw [hsched]
      obtain ⟨g,hg⟩ := window_greatest hmem
      obtain ⟨j,hj,hjg⟩ := h g hg
      have hgr := hmax j hj g (by rw [nthAfter_clamp]; exact hjg)
        ((le_clamp hg.1.2.2 now_ms).mpr hg.1.2.1)
      have hrg := hg.2 hmem
      rw [show r = g by omega]
      exact hg

end

/-- A tick is right about the latest firing exactly when the scan gets as far;
where the search misses no firing, as far as its bound is a number of firings. -/
theorem due_firing_latest_iff (s : CronSchedule) (watermark_ts_ms now_ms : Nat) :
    (s.OwesLatest watermark_ts_ms now_ms ↔
      ∀ t, IsGreatest (window s.Firing watermark_ts_ms now_ms) t →
        ∃ k < cronCatchupScanCountMax, nthAfter s.nextFireAfter watermark_ts_ms k = some t) ∧
    (Enumerates s.nextFireAfter s.Firing watermark_ts_ms →
      (s.OwesLatest watermark_ts_ms now_ms ↔
        (window s.Firing watermark_ts_ms now_ms).ncard ≤ cronCatchupScanCountMax)) := by
  have hscan : s.OwesLatest watermark_ts_ms now_ms ↔ s.ScanReaches watermark_ts_ms now_ms := by
    cases hdue : dueScan s.nextFireAfter (integerU64 now_ms) cronCatchupScanCountMax
        (integerU64 watermark_ts_ms) none 0 with
    | none => exact owesLatest_of_none hdue
    | some found => exact owesLatest_of_some hdue
  refine ⟨hscan,?_⟩
  intro henum
  rw [hscan]
  exact reaches_greatest_iff s.next_lt henum cronCatchupScanCountMax

def everyMinute : CronSchedule := ⟨⟨2^60-1,2^24-1,2^32-2,2^13-2,127,false,false⟩,TimeZone.utc,"UTC"⟩

/-- After 513 missed minutes a tick fires for the last but one. -/
theorem missed_minutes_overtake_scan :
    CronExpr.parse "* * * * *" = .ok everyMinute.expr ∧
    (dueFiring everyMinute.nextFireAfter 1772323200000 1772353980000).map DueFiring.scheduled_ts_ms =
      some 1772353920000 ∧
    everyMinute.Firing 1772353980000 := by
  refine ⟨by decide +kernel,by decide +kernel,?_⟩
  exact ⟨⟨⟨2026,3,1,by decide,by decide,by decide⟩,8,33⟩,⟨1772353980000,by decide⟩,by decide +kernel,
    by decide +kernel,rfl⟩

end CronSchedule

/-- The queue over the cron driver's own search, with the zones that `get` knows. -/
def JobQueue.inZones (get : String → Except String TimeZone) (q : JobQueue) : JobQueue :=
  { q with
    schedule := fun expr tz_name =>
      (CronSchedule.new get expr tz_name).map CronSchedule.nextFireAfter }

theorem inZones_advances (get : String → Except String TimeZone) (q : JobQueue) :
    (q.inZones get).Advances :=
  fun expr tz_name _ h => CronSchedule.new_advances get expr tz_name h

end ProjectOS.Sched
