import ProjectOS.Lib.Calendar
import ProjectOS.Lib.Leap
import ProjectOS.Sched.Cron

/-! Schedules: an expression bound to a time zone, and the search for its next
firing. The time-zone library is given by what it answers. -/

namespace ProjectOS.Sched
open Lib

def cronSearchStepCountMax : Nat := 4*366+24+60+64

def timestampMinMs : Int := -377705023201000
def timestampMaxMs : Int := 253402207200999

structure Timestamp where
  ms : Int
  range : timestampMinMs ≤ ms ∧ ms ≤ timestampMaxMs
  deriving DecidableEq

def Timestamp.fromMillisecond (ms : Int) : Option Timestamp :=
  if h : timestampMinMs ≤ ms ∧ ms ≤ timestampMaxMs then some ⟨ms,h⟩ else none

structure DateTime extends CivilMinute where
  second : Fin 60
  nanosecond : Fin 1000000000

/-- A zone of the time-zone library: the civil time at an instant, and the instant
of a civil minute (`Disambiguation::Compatible`), if within range. -/
structure TimeZone where
  datetime : Timestamp → DateTime
  compatible : CivilMinute → Option Timestamp

def DateTime.ofMs (ms : Int) : DateTime :=
  let minutes := ms/60000
  { date := (Date.ofDays (minutes/1440)).getD ⟨1970,1,1,by decide,by decide,by decide⟩,
    hour := ⟨(minutes/60%24).toNat,by omega⟩, minute := ⟨(minutes%60).toNat,by omega⟩,
    second := ⟨(ms/1000%60).toNat,by omega⟩, nanosecond := ⟨(ms%1000).toNat*1000000,by omega⟩ }

def TimeZone.utc : TimeZone where
  datetime t := DateTime.ofMs t.ms
  compatible c := Timestamp.fromMillisecond (c.number*60000)

structure CronSchedule where
  expr : CronExpr
  tz : TimeZone
  tz_name : String

def startOfMinute (datetime : DateTime) : CivilMinute := datetime.toCivilMinute

def startOfNextDay (c : CivilMinute) : Option CivilMinute := c.date.tomorrow.map .midnight

def startOfNextHour (c : CivilMinute) : Option CivilMinute :=
  if h : 23 ≤ c.hour.val then startOfNextDay c else some (.onHour c.date ⟨c.hour.val+1,by omega⟩)

namespace CronSchedule

def new (get : String → Except String TimeZone) (expr tz_name : String) :
    Except CronParseError CronSchedule := do
  let expr_parsed ← CronExpr.parse expr
  match get tz_name with
  | .error error => .error ⟨"timezone",s!"{tz_name.quote} is not an IANA zone: {error}"⟩
  | .ok tz => .ok ⟨expr_parsed,tz,tz_name⟩

variable (s : CronSchedule)

def matchesDate (d : Date) : Bool := s.expr.matchesDate d.month d.day d.toSundayZeroOffset

def search (after_ts_ms : Int) : Nat → CivilMinute → Option Int
  | 0, _ => none
  | steps+1, candidate =>
    if ¬s.matchesDate candidate.date then
      (startOfNextDay candidate).bind (search after_ts_ms steps)
    else if ¬s.expr.matchesHour candidate.hour then
      (startOfNextHour candidate).bind (search after_ts_ms steps)
    else if ¬s.expr.matchesMinute candidate.minute then
      candidate.next.bind (search after_ts_ms steps)
    else
      match s.tz.compatible candidate with
      | some zoned =>
        if after_ts_ms < zoned.ms then some zoned.ms
        else candidate.next.bind (search after_ts_ms steps)
      | none => candidate.next.bind (search after_ts_ms steps)

def firstCandidate (after : Timestamp) : Option CivilMinute :=
  (startOfMinute (s.tz.datetime after)).next

def nextFireAfter (after_ts_ms : Int) : Option Int := do
  let after ← Timestamp.fromMillisecond after_ts_ms
  let candidate ← s.firstCandidate after
  s.search after_ts_ms cronSearchStepCountMax candidate

def Matches (c : CivilMinute) : Prop :=
  s.matchesDate c.date ∧ s.expr.matchesHour c.hour ∧ s.expr.matchesMinute c.minute

instance : DecidablePred s.Matches := fun _ => inferInstanceAs (Decidable (_ ∧ _ ∧ _))

def fires (after_ts_ms : Int) (c : CivilMinute) : Option Int :=
  if s.Matches c then
    (s.tz.compatible c).bind (fun zoned => if after_ts_ms < zoned.ms then some zoned.ms else none)
  else none

def move (c : CivilMinute) : Option CivilMinute :=
  if s.matchesDate c.date then
    if s.expr.matchesHour c.hour then c.next else startOfNextHour c
  else startOfNextDay c

/-- The minutes a search looks at: every midnight, every full hour of a matching
date, every minute of a matching hour. -/
def Stop (c : CivilMinute) : Prop :=
  c.hour.val = 0 ∧ c.minute.val = 0 ∨
    s.matchesDate c.date ∧ (c.minute.val = 0 ∨ s.expr.matchesHour c.hour)

theorem search_eq (after_ts_ms : Int) (steps : Nat) (c : CivilMinute) :
    s.search after_ts_ms steps c = leap (s.fires after_ts_ms) s.move steps c := by
  induction steps generalizing c with
  | zero => rfl
  | succ steps ih =>
    have hrest : s.search after_ts_ms steps = leap (s.fires after_ts_ms) s.move steps := funext ih
    rw [search,leap,hrest]
    by_cases hdate : s.matchesDate c.date
    · by_cases hhour : s.expr.matchesHour c.hour
      · by_cases hminute : s.expr.matchesMinute c.minute
        · simp only [fires,Matches,move,hdate,hhour,hminute,and_self,if_true,not_true_eq_false,
            if_false]
          cases s.tz.compatible c with
          | none => rfl
          | some zoned =>
            simp only [Option.bind_some]
            split_ifs <;> rfl
        · simp [fires,Matches,move,hdate,hhour,hminute]
      · simp [fires,Matches,move,hdate,hhour]
    · simp [fires,Matches,move,hdate]

variable {c x d : CivilMinute}

theorem date_of_between (hlt : c.number < x.number)
    (hle : x.date.days ≤ c.date.days) : x.date = c.date := by
  unfold CivilMinute.number at hlt
  exact Date.days_injective (by omega)

theorem hour_of_between (hdate : x.date = c.date) (hlt : c.number < x.number)
    (hle : x.hour.val ≤ c.hour.val) : x.hour = c.hour ∧ x.minute.val ≠ 0 := by
  unfold CivilMinute.number at hlt
  rw [hdate] at hlt
  constructor
  · exact Fin.ext (by omega)
  · omega

theorem startOfNextDay_some (h : startOfNextDay c = some d) :
    d.date.days = c.date.days+1 ∧ d.hour.val = 0 ∧ d.minute.val = 0 := by
  obtain ⟨e,he,rfl⟩ := Option.map_eq_some_iff.mp h
  exact ⟨Date.days_tomorrow he,rfl,rfl⟩

theorem startOfNextDay_none (h : startOfNextDay c = none) (x : CivilMinute) :
    x.date.days ≤ c.date.days :=
  Date.days_le_of_tomorrow_none (Option.map_eq_none_iff.mp h) x.date

theorem startOfNextHour_some (h : startOfNextHour c = some d) :
    c.number < d.number ∧ (d.hour.val = 0 ∧ d.minute.val = 0 ∨ d.date = c.date ∧ d.minute.val = 0) := by
  unfold startOfNextHour at h
  split_ifs at h with hlast
  · obtain ⟨hdays,hh,hm⟩ := startOfNextDay_some h
    refine ⟨?_,Or.inl ⟨hh,hm⟩⟩
    unfold CivilMinute.number
    omega
  · obtain rfl := Option.some.inj h
    refine ⟨?_,Or.inr ⟨rfl,rfl⟩⟩
    unfold CivilMinute.number CivilMinute.onHour
    simp only [Fin.val_zero]
    omega

theorem startOfNextHour_between (h : startOfNextHour c = some d)
    (hcx : c.number < x.number) (hxd : x.number < d.number) :
    x.date = c.date ∧ x.hour.val ≤ c.hour.val := by
  unfold startOfNextHour at h
  split_ifs at h with hlast
  · obtain ⟨hdays,hh,hm⟩ := startOfNextDay_some h
    refine ⟨date_of_between hcx ?_,by omega⟩
    unfold CivilMinute.number at hxd
    omega
  · obtain rfl := Option.some.inj h
    unfold CivilMinute.number CivilMinute.onHour at hxd
    simp only [Fin.val_zero] at hxd
    have hsame : x.date = c.date := date_of_between hcx (by omega)
    rw [hsame] at hxd
    exact ⟨hsame,by omega⟩

theorem fires_eq_none {after_ts_ms : Int} (h : ¬s.Matches c) :
    s.fires after_ts_ms c = none := by rw [fires,if_neg h]

theorem leaping (after_ts_ms : Int) :
    Leaping CivilMinute.number (s.fires after_ts_ms) s.move s.Stop where
  injective := CivilMinute.number_injective
  lands := by
    intro c d _ hmove
    unfold move at hmove
    split_ifs at hmove with hdate hhour
    · have hnumber := CivilMinute.number_next hmove
      refine ⟨by omega,?_⟩
      unfold CivilMinute.next at hmove
      split_ifs at hmove with hm hh
      · obtain rfl := Option.some.inj hmove
        exact Or.inr ⟨hdate,Or.inr hhour⟩
      · obtain rfl := Option.some.inj hmove
        exact Or.inr ⟨hdate,Or.inl rfl⟩
      · obtain ⟨e,-,rfl⟩ := Option.map_eq_some_iff.mp hmove
        exact Or.inl ⟨rfl,rfl⟩
    · obtain ⟨hlt,hstop⟩ := startOfNextHour_some hmove
      refine ⟨hlt,?_⟩
      rcases hstop with ⟨hh,hm⟩ | ⟨hsame,hm⟩
      · exact Or.inl ⟨hh,hm⟩
      · exact Or.inr ⟨by rwa [hsame],Or.inl hm⟩
    · obtain ⟨hdays,hh,hm⟩ := startOfNextDay_some hmove
      refine ⟨?_,Or.inl ⟨hh,hm⟩⟩
      unfold CivilMinute.number
      omega
  leaps := by
    intro c d x _ hmove hcx hxd
    unfold move at hmove
    split_ifs at hmove with hdate hhour
    · have hnumber := CivilMinute.number_next hmove
      omega
    · obtain ⟨hsame,hle⟩ := startOfNextHour_between hmove hcx hxd
      obtain ⟨hhours,hminutes⟩ := hour_of_between hsame hcx hle
      constructor
      · exact s.fires_eq_none (fun h => hhour (by rw [← hhours]; exact h.2.1))
      · rintro (⟨-,h⟩ | ⟨-,h | h⟩)
        · exact hminutes h
        · exact hminutes h
        · exact hhour (by rwa [← hhours])
    · obtain ⟨hdays,hh,hm⟩ := startOfNextDay_some hmove
      have hsame : x.date = c.date := by
        refine date_of_between hcx ?_
        unfold CivilMinute.number at hxd
        omega
      constructor
      · exact s.fires_eq_none (fun h => hdate (by rw [← hsame]; exact h.1))
      · rintro (⟨h₁,h₂⟩ | ⟨h,-⟩)
        · unfold CivilMinute.number at hcx
          rw [hsame] at hcx
          omega
        · exact hdate (by rwa [← hsame])
  ends := by
    intro c x _ hmove hcx
    unfold move at hmove
    split_ifs at hmove with hdate hhour
    · have hle := CivilMinute.number_le_of_next_none hmove x
      omega
    · unfold startOfNextHour at hmove
      split_ifs at hmove with hlast
      have hsame := date_of_between hcx (startOfNextDay_none hmove x)
      have hhours := (hour_of_between hsame hcx (by omega)).1
      exact s.fires_eq_none (fun h => hhour (by rw [← hhours]; exact h.2.1))
    · have hsame := date_of_between hcx (startOfNextDay_none hmove x)
      exact s.fires_eq_none (fun h => hdate (by rw [← hsame]; exact h.1))

end CronSchedule

end ProjectOS.Sched
