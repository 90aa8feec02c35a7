import ProjectOS.Lib.Text
import ProjectOS.Sched.Queue

/-! Cron expressions: the five fields of a schedule as sets of bits. -/

namespace ProjectOS.Sched
open Lib

def cronFieldCount : Nat := 5

/-- A day field written as `*` is told from its bits: an explicit full range is a
restriction too. -/
structure CronExpr where
  minutes : Nat
  hours : Nat
  days_of_month : Nat
  months : Nat
  days_of_week : Nat
  day_of_month_restricted : Bool
  day_of_week_restricted : Bool
  deriving DecidableEq

def bitSet (mask value : Nat) : Bool := value < 64 && mask.testBit value

def maskBits (width mask : Nat) : Nat := mask &&& (2^width-1)

def quoted (text : List Char) : String := (String.ofList text).quote

/-- The values of a stepped range, one after another; as many rounds as the range
has values are enough. -/
def setSteps (last step : Nat) : Nat → Nat → Nat → Nat
  | 0, _, mask => mask
  | rounds+1, value, mask =>
    if value ≤ last then setSteps last step rounds (min (value+step) u8Max) (mask ||| 2^value)
    else mask

def parseNumber (field what : String) (text : List Char) : Except CronParseError Nat :=
  match fromStrRadix 10 u8Max text with
  | some n => .ok n
  | none => .error ⟨field,s!"{what}{quoted text} is not a number"⟩

def parseRange (text : List Char) (field : String) (min max : Nat) :
    Except CronParseError (Nat × Nat) :=
  if text = ['*'] then .ok (min,max)
  else do
    let (first_text,last_text) := (splitOnce '-' text).getD (text,text)
    let first ← parseNumber field "" first_text
    let last ← parseNumber field "" last_text
    if first < min ∨ max < last ∨ last < first then
      .error ⟨field,s!"{quoted text} is outside the {min}..={max} range"⟩
    else .ok (first,last)

def parseStep (field : String) (text : List Char) : Except CronParseError Nat := do
  let step ← parseNumber field "step " text
  if step = 0 then .error ⟨field,"step 0 would never advance"⟩ else .ok step

def parsePart (text : List Char) (field : String) (min max mask : Nat) (part : List Char) :
    Except CronParseError Nat :=
  if part.isEmpty then .error ⟨field,s!"empty item in {quoted text}"⟩
  else do
    let (range_text,step) ← match splitOnce '/' part with
      | some (range_text,step_text) => (parseStep field step_text).map (fun step => (range_text,step))
      | none => .ok (part,1)
    let (first,last) ← parseRange range_text field min max
    .ok (setSteps last step (last+1-first) first mask)

def parseField (text : List Char) (field : String) (min max : Nat) : Except CronParseError Nat := do
  let mask ← (text.splitOn ',').foldlM (parsePart text field min max) 0
  if mask = 0 then .error ⟨field,s!"{quoted text} selects no values"⟩ else .ok mask

def parseDayOfWeek (text : List Char) : Except CronParseError Nat := do
  let mask ← parseField text "day-of-week" 0 7
  let sunday_from_seven := (mask >>> 7) &&& 1
  .ok (((mask &&& 0x7f) ||| sunday_from_seven) &&& 0x7f)

namespace CronExpr

def parse (text : String) : Except CronParseError CronExpr :=
  match splitWhitespace text with
  | [minute,hour,day_of_month,month,day_of_week] => do
    let minutes ← parseField minute "minute" 0 59
    let hours ← parseField hour "hour" 0 23
    let days_of_month ← parseField day_of_month "day-of-month" 1 31
    let months ← parseField month "month" 1 12
    let days_of_week ← parseDayOfWeek day_of_week
    .ok { minutes, hours := maskBits 32 hours, days_of_month := maskBits 32 days_of_month,
          months := maskBits 16 months, days_of_week := maskBits 8 days_of_week,
          day_of_month_restricted := day_of_month ≠ ['*'],
          day_of_week_restricted := day_of_week ≠ ['*'] }
  | fields =>
    .error ⟨"expression",s!"{cronFieldCount} fields required " ++
      s!"(minute hour day-of-month month day-of-week), got {fields.length}"⟩

def matchesMinute (expr : CronExpr) (minute : Nat) : Bool := bitSet expr.minutes minute

def matchesHour (expr : CronExpr) (hour : Nat) : Bool := bitSet expr.hours hour

def matchesDate (expr : CronExpr) (month day weekday : Nat) : Bool :=
  bitSet expr.months month &&
    (if expr.day_of_month_restricted && expr.day_of_week_restricted then
      bitSet expr.days_of_month day || bitSet expr.days_of_week weekday
    else bitSet expr.days_of_month day && bitSet expr.days_of_week weekday)

end CronExpr

theorem setSteps_testBit {last step : Nat} (hstep : 0 < step) (hlast : last < u8Max) {rounds value : Nat}
    (hrounds : last+1-value ≤ rounds) (mask v : Nat) :
    (setSteps last step rounds value mask).testBit v ↔
      mask.testBit v ∨ ∃ k, v = value+k*step ∧ v ≤ last := by
  induction rounds generalizing value mask with
  | zero =>
    rw [setSteps]
    constructor
    · exact Or.inl
    · rintro (h | ⟨k,rfl,hle⟩)
      · exact h
      · omega
  | succ rounds ih =>
    rw [setSteps]
    split_ifs with hle
    · have hnext : min (value+step) u8Max ≤ last ∨ last < value+step := by omega
      rw [ih (by omega)]
      simp only [Nat.testBit_or,Nat.testBit_two_pow,Bool.or_eq_true,decide_eq_true_eq]
      constructor
      · rintro ((h | rfl) | ⟨k,hk,hv⟩)
        · exact Or.inl h
        · exact Or.inr ⟨0,by omega,hle⟩
        · refine Or.inr ⟨k+1,?_,hv⟩
          have hroom : min (value+step) u8Max = value+step := by
            have hpos : 0 ≤ k*step := Nat.zero_le _
            omega
          rw [hk,hroom]
          ring
      · rintro (h | ⟨k,hk,hv⟩)
        · exact Or.inl (Or.inl h)
        · cases k with
          | zero => exact Or.inl (Or.inr (by omega))
          | succ k =>
            refine Or.inr ⟨k,?_,hv⟩
            have hsum : v = value+step+k*step := by rw [hk]; ring
            have hpos : 0 ≤ k*step := Nat.zero_le _
            omega
    · constructor
      · exact Or.inl
      · rintro (h | ⟨k,rfl,hv⟩)
        · exact h
        · omega

end ProjectOS.Sched
