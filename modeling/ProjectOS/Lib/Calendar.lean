import Mathlib.Tactic.IntervalCases
import Mathlib.Data.Fin.Basic

/-! The proleptic Gregorian calendar: dates, days one after another, and the
minutes of civil time. -/

namespace ProjectOS.Lib

def isLeap (year : Int) : Bool := year%4 = 0 && (year%100 ≠ 0 || year%400 = 0)

def leapDay (year : Int) : Nat := if isLeap year then 1 else 0

def daysInMonth (year : Int) (month : Nat) : Nat :=
  match month with
  | 2 => 28+leapDay year
  | 4 | 6 | 9 | 11 => 30
  | _ => 31

def yearMin : Int := -9999
def yearMax : Int := 9999

structure Date where
  year : Int
  month : Nat
  day : Nat
  yearRange : yearMin ≤ year ∧ year ≤ yearMax
  monthRange : 1 ≤ month ∧ month ≤ 12
  dayRange : 1 ≤ day ∧ day ≤ daysInMonth year month
  deriving DecidableEq

theorem daysInMonth_pos (year : Int) (month : Nat) : 1 ≤ daysInMonth year month := by
  unfold daysInMonth
  split <;> omega

namespace Date

def tomorrow (d : Date) : Option Date :=
  if hday : d.day < daysInMonth d.year d.month then
    some ⟨d.year,d.month,d.day+1,d.yearRange,d.monthRange,⟨by omega,hday⟩⟩
  else if hmonth : d.month < 12 then
    some ⟨d.year,d.month+1,1,d.yearRange,⟨by omega,by omega⟩,⟨le_refl _,daysInMonth_pos _ _⟩⟩
  else if hyear : d.year < yearMax then
    some ⟨d.year+1,1,1,⟨by have := d.yearRange; omega,by omega⟩,⟨by omega,by omega⟩,
      ⟨le_refl _,daysInMonth_pos _ _⟩⟩
  else none

def daysBeforeYear (year : Int) : Int := 365*(year-1)+(year-1)/4-(year-1)/100+(year-1)/400

def daysBeforeMonth (year : Int) (month : Nat) : Nat :=
  match month with
  | 1 => 0
  | 2 => 31
  | 3 => 59+leapDay year
  | 4 => 90+leapDay year
  | 5 => 120+leapDay year
  | 6 => 151+leapDay year
  | 7 => 181+leapDay year
  | 8 => 212+leapDay year
  | 9 => 243+leapDay year
  | 10 => 273+leapDay year
  | 11 => 304+leapDay year
  | _ => 334+leapDay year

def days (d : Date) : Int :=
  daysBeforeYear d.year+daysBeforeMonth d.year d.month+d.day-719163

def toSundayZeroOffset (d : Date) : Nat := ((d.days+4)%7).toNat

theorem leapDay_eq (year : Int) :
    (leapDay year : Int) = daysBeforeYear (year+1)-daysBeforeYear year-365 := by
  unfold leapDay isLeap daysBeforeYear
  simp only [Bool.and_eq_true,Bool.or_eq_true,decide_eq_true_eq]
  split_ifs with h <;> omega

theorem daysBeforeYear_le {a b : Int} (h : a ≤ b) : daysBeforeYear a+365*(b-a) ≤ daysBeforeYear b := by
  unfold daysBeforeYear
  omega

theorem leapDay_le (year : Int) : leapDay year ≤ 1 := by
  unfold leapDay
  split <;> omega

theorem daysBeforeMonth_lt {year : Int} {m n : Nat} (hm : 1 ≤ m) (hmn : m < n) (hn : n ≤ 12) :
    daysBeforeMonth year m+daysInMonth year m ≤ daysBeforeMonth year n := by
  have hle := leapDay_le year
  interval_cases n <;> interval_cases m <;> simp only [daysBeforeMonth,daysInMonth] <;> omega

theorem daysBeforeMonth_succ {year : Int} {m : Nat} (hm : 1 ≤ m) (h : m < 12) :
    daysBeforeMonth year (m+1) = daysBeforeMonth year m+daysInMonth year m := by
  interval_cases m <;> simp only [daysBeforeMonth,daysInMonth] <;> omega

theorem yearEnd {year : Int} {m d : Nat} (hm : 1 ≤ m ∧ m ≤ 12) (hd : d ≤ daysInMonth year m) :
    daysBeforeMonth year m+d ≤ 365+leapDay year := by
  obtain ⟨hm,hm'⟩ := hm
  interval_cases m <;> simp only [daysBeforeMonth,daysInMonth] at hd ⊢ <;> omega

theorem days_tomorrow {d e : Date} (h : d.tomorrow = some e) : e.days = d.days+1 := by
  have hd := d.dayRange
  have hm := d.monthRange
  unfold tomorrow at h
  split_ifs at h with hday hmonth hyear
  · obtain rfl := Option.some.inj h
    simp only [days]
    omega
  · obtain rfl := Option.some.inj h
    simp only [days,daysBeforeMonth_succ hm.1 hmonth]
    omega
  · obtain rfl := Option.some.inj h
    have hleap := leapDay_eq d.year
    have hmonth' : d.month = 12 := by omega
    have hlast : d.day = 31 := by
      have hdecember : daysInMonth d.year d.month = 31 := by rw [hmonth']; rfl
      omega
    simp only [days,hmonth',hlast,daysBeforeMonth]
    omega

theorem days_lt_of_year_lt {d e : Date} (h : d.year < e.year) : d.days < e.days := by
  have hd := yearEnd d.monthRange d.dayRange.2
  have hleap := leapDay_eq d.year
  have hyears := daysBeforeYear_le (show d.year+1 ≤ e.year by omega)
  have he := e.dayRange.1
  unfold days
  omega

theorem days_lt_of_month_lt {d e : Date} (hyear : d.year = e.year) (h : d.month < e.month) :
    d.days < e.days := by
  have hmonths := @daysBeforeMonth_lt d.year _ _ d.monthRange.1 h e.monthRange.2
  have hd := d.dayRange.2
  have he := e.dayRange.1
  unfold days
  rw [← hyear]
  omega

theorem days_injective : Function.Injective days := by
  intro d e h
  have hyear : d.year = e.year := by
    rcases lt_trichotomy d.year e.year with hlt | heq | hlt
    · exact absurd h (ne_of_lt (days_lt_of_year_lt hlt))
    · exact heq
    · exact absurd h (ne_of_gt (days_lt_of_year_lt hlt))
  have hmonth : d.month = e.month := by
    rcases Nat.lt_trichotomy d.month e.month with hlt | heq | hlt
    · exact absurd h (ne_of_lt (days_lt_of_month_lt hyear hlt))
    · exact heq
    · exact absurd h (ne_of_gt (days_lt_of_month_lt hyear.symm hlt))
  have hday : d.day = e.day := by
    unfold days at h
    rw [hyear,hmonth] at h
    omega
  cases d
  cases e
  simp only [Date.mk.injEq]
  exact ⟨hyear,hmonth,hday⟩

theorem days_le_of_tomorrow_none {d : Date} (h : d.tomorrow = none) (e : Date) : e.days ≤ d.days := by
  have hd := d.dayRange
  have hm := d.monthRange
  unfold tomorrow at h
  split_ifs at h with hday hmonth hyear
  have hyears := e.yearRange
  rcases lt_or_eq_of_le (show e.year ≤ d.year by omega) with hlt | heq
  · exact le_of_lt (days_lt_of_year_lt hlt)
  · rcases Nat.lt_or_ge e.month d.month with hlt | hge
    · exact le_of_lt (days_lt_of_month_lt heq hlt)
    · have he := e.dayRange.2
      have hmonths : e.month = d.month := by have := e.monthRange; omega
      rw [heq,hmonths] at he
      unfold days
      rw [heq,hmonths]
      omega

def ofDays (n : Int) : Option Date :=
  let z := n+719468
  let era := z/146097
  let doe := z-era*146097
  let yoe := (doe-doe/1460+doe/36524-doe/146096)/365
  let doy := doe-(365*yoe+yoe/4-yoe/100)
  let mp := (5*doy+2)/153
  let day := (doy-(153*mp+2)/5+1).toNat
  let month := (if mp < 10 then mp+3 else mp-9).toNat
  let year := yoe+era*400+(if month ≤ 2 then 1 else 0)
  if hyear : yearMin ≤ year ∧ year ≤ yearMax then
    if hmonth : 1 ≤ month ∧ month ≤ 12 then
      if hday : 1 ≤ day ∧ day ≤ daysInMonth year month then
        let d : Date := ⟨year,month,day,hyear,hmonth,hday⟩
        if d.days = n then some d else none
      else none
    else none
  else none

end Date

structure CivilMinute where
  date : Date
  hour : Fin 24
  minute : Fin 60
  deriving DecidableEq

namespace CivilMinute

def number (c : CivilMinute) : Int := c.date.days*1440+c.hour.val*60+c.minute.val

theorem number_injective : Function.Injective number := by
  rintro ⟨d,h,m⟩ ⟨e,i,n⟩ heq
  simp only [number] at heq
  have hdays : d = e := Date.days_injective (by omega)
  subst hdays
  simp only [CivilMinute.mk.injEq,true_and]
  omega

def onHour (date : Date) (hour : Fin 24) : CivilMinute := ⟨date,hour,0⟩

def midnight (date : Date) : CivilMinute := onHour date 0

def next (c : CivilMinute) : Option CivilMinute :=
  if hm : c.minute.val < 59 then some { c with minute := ⟨c.minute.val+1,by omega⟩ }
  else if hh : c.hour.val < 23 then some { c with hour := ⟨c.hour.val+1,by omega⟩, minute := 0 }
  else c.date.tomorrow.map (fun d => ⟨d,0,0⟩)

theorem number_next {c d : CivilMinute} (h : c.next = some d) : d.number = c.number+1 := by
  unfold next at h
  split_ifs at h with hm hh
  · obtain rfl := Option.some.inj h
    simp only [number]
    omega
  · obtain rfl := Option.some.inj h
    simp only [number]
    simp
    omega
  · obtain ⟨e,he,rfl⟩ := Option.map_eq_some_iff.mp h
    have hdays := Date.days_tomorrow he
    simp only [number]
    simp
    omega

theorem number_le_of_next_none {c : CivilMinute} (h : c.next = none) (d : CivilMinute) :
    d.number ≤ c.number := by
  unfold next at h
  split_ifs at h with hm hh
  have hdays := Date.days_le_of_tomorrow_none (Option.map_eq_none_iff.mp h) d.date
  simp only [number]
  omega

end CivilMinute

end ProjectOS.Lib
