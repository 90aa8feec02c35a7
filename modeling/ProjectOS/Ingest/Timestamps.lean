import ProjectOS.Sched.Grammar

/-! The timestamps of caption files: what the parser makes of a text, and what
is a timestamp. -/

namespace ProjectOS.Ingest
open Lib List
open Sched (Numeral digitsValue fromStrRadix_eq_some isDigit plus_not_digit)

/-- How the code is built: arithmetic that leaves its type ends the program, or
wraps around. -/
inductive Build where
  | checked
  | wrapping
  deriving DecidableEq

inductive ArithmeticFault where
  | subtract
  | multiply
  deriving DecidableEq

namespace Build
variable (build : Build)

def sub32 (a b : Nat) : Except ArithmeticFault Nat :=
  if b ≤ a then .ok (a-b)
  else match build with
    | .checked => .error .subtract
    | .wrapping => .ok (a+2^32-b)

def mul64 (a b : Nat) : Except ArithmeticFault Nat :=
  if a*b ≤ u64Max then .ok (a*b)
  else match build with
    | .checked => .error .multiply
    | .wrapping => .ok (a*b % 2^64)

def pow10 (exponent : Nat) : Except ArithmeticFault Nat :=
  if exponent < 20 then .ok (10^exponent)
  else match build with
    | .checked => .error .multiply
    | .wrapping => .ok (if 64 ≤ exponent then 0 else 10^exponent % 2^64)

end Build

def readField (part : List Char) : Option Nat := fromStrRadix 10 u64Max (trim part)

def isFractionMark (c : Char) : Bool := c == '.' || c == ','

def cutFraction (text : List Char) : List Char × List Char :=
  (rsplitOnce isFractionMark text).getD (text,['0'])

def fractionMs (build : Build) (fraction : List Char) : Except ArithmeticFault (Option Nat) :=
  if fraction.isEmpty then .ok (some 0)
  else do
    let digits := fraction.take 3
    let exponent ← build.sub32 3 (byteLen digits)
    let scale ← build.pow10 exponent
    match fromStrRadix 10 u64Max digits with
    | none => .ok none
    | some n => do
      let millis ← build.mul64 n scale
      .ok (some millis)

def addFields (build : Build) :
    List (List Char) → Nat → Nat → Except ArithmeticFault (Option Nat)
  | [], total_ms, _ => .ok (some total_ms)
  | part :: parts, total_ms, unit_ms =>
    if part.isEmpty || 3600000 < unit_ms then .ok none
    else
      match readField part with
      | none => .ok none
      | some n => do
        let field_ms ← build.mul64 n unit_ms
        if u64Max < total_ms+field_ms then .ok none
        else do
          let unit_ms ← build.mul64 unit_ms 60
          addFields build parts (total_ms+field_ms) unit_ms

def parseTimestamp (build : Build) (text : List Char) : Except ArithmeticFault (Option Nat) := do
  let (clock,fraction) := cutFraction (trim text)
  match ← fractionMs build fraction with
  | none => .ok none
  | some millis => addFields build (clock.splitOn ':').reverse millis 1000

example : parseTimestamp .checked "01:02:03.004".toList = .ok (some 3723004) := by decide

def FieldReads (part : List Char) (n : Nat) : Prop :=
  trim part ≠ [] ∧ (trim part).all isDigit ∧ n = digitsValue 0 (trim part)

def ClockReads (clock : List Char) (h m s : Nat) : Prop :=
  match clock.splitOn ':' with
  | [seconds] => h = 0 ∧ m = 0 ∧ FieldReads seconds s
  | [minutes,seconds] => h = 0 ∧ FieldReads minutes m ∧ FieldReads seconds s
  | [hours,minutes,seconds] => FieldReads hours h ∧ FieldReads minutes m ∧ FieldReads seconds s
  | _ => False

def FractionReads (fraction : List Char) (ms : Nat) : Prop :=
  fraction.all isDigit ∧ ms = digitsValue 0 ((fraction ++ ['0','0','0']).take 3)

def TimestampReads (text : List Char) (h m s ms : Nat) : Prop :=
  (∃ clock mark fraction, trim text = clock ++ mark :: fraction ∧ isFractionMark mark ∧
    ClockReads clock h m s ∧ FractionReads fraction ms) ∨
  ClockReads (trim text) h m s ∧ ms = 0

def ParsesExactly (text : List Char) : Prop :=
  ∃ r, parseTimestamp .checked text = .ok r ∧ ∀ v, r = some v →
    ∃ h m s ms, TimestampReads text h m s ms ∧ v = h*3600000+m*60000+s*1000+ms

def amount : Nat → List Nat → Nat
  | _, [] => 0
  | unit, n :: values => n*unit+amount (unit*60) values

def FractionAmount (fraction : List Char) (millis : Nat) : Prop :=
  fraction = [] ∧ millis = 0 ∨ ∃ n, fromStrRadix 10 u64Max (fraction.take 3) = some n ∧
    millis = n*10^(3-(fraction.take 3).length)

def clockFields (text : List Char) : List (List Char) :=
  ((cutFraction (trim text)).1.splitOn ':').reverse

structure Tame (text : List Char) : Prop where
  /-- The first three characters behind the mark take at most three bytes. -/
  narrow : byteLen ((cutFraction (trim text)).2.take 3) ≤ 3
  /-- A field fits in sixty-four bits as milliseconds, if the fields behind it do
  together with the fraction. -/
  fits : ∀ millis, FractionAmount (cutFraction (trim text)).2 millis →
    ∀ values n, values.length < 3 →
      ((clockFields text).take (values.length+1)).map readField = (values ++ [n]).map some →
      millis+amount 1000 values ≤ u64Max → n*(1000*60^values.length) ≤ u64Max
  /-- Where all fields are numbers and fit together, none has a sign, and behind
  the fraction's third character there are digits. -/
  plain : ∀ millis, FractionAmount (cutFraction (trim text)).2 millis →
    ∀ values, values.length ≤ 3 → (clockFields text).map readField = values.map some →
      millis+amount 1000 values ≤ u64Max →
      '+' ∉ text ∧ ((cutFraction (trim text)).2.drop 3).all isDigit

variable {digits : List Char}

theorem digitsValue_lt (h : digits.all isDigit) (acc : Nat) :
    digitsValue acc digits < (acc+1)*10^digits.length := by
  induction digits generalizing acc with
  | nil => simp [digitsValue]
  | cons c rest ih =>
    simp only [all_cons,Bool.and_eq_true] at h
    have hc : c.toNat ≤ 57 := by
      have hdigit := h.1
      simp only [isDigit,Bool.and_eq_true,decide_eq_true_eq] at hdigit
      omega
    have hrest := ih h.2 (acc*10+(c.toNat-48))
    have hmono : (acc*10+(c.toNat-48)+1)*10^rest.length ≤ ((acc+1)*10)*10^rest.length :=
      Nat.mul_le_mul_right _ (by omega)
    calc digitsValue acc (c :: rest)
        = digitsValue (acc*10+(c.toNat-48)) rest := rfl
      _ < (acc*10+(c.toNat-48)+1)*10^rest.length := hrest
      _ ≤ ((acc+1)*10)*10^rest.length := hmono
      _ = (acc+1)*10^(c :: rest).length := by rw [length_cons,Nat.pow_succ']; ring

variable {text : List Char}

theorem byteLen_eq_length (h : ∀ c ∈ text, c.toNat < 128) : byteLen text = text.length := by
  induction text with
  | nil => rfl
  | cons c text ih =>
    obtain ⟨hc,htext⟩ := forall_mem_cons.mp h
    have hsize : c.utf8Size = 1 := by
      rw [Char.utf8Size_eq_one_iff]
      exact Nat.lt_succ_iff.mp hc
    rw [byteLen,hsize,ih htext,length_cons]
    omega

theorem numeral_byteLen (n : Numeral) : byteLen n.text = n.text.length := by
  refine byteLen_eq_length ?_
  intro c hc
  rcases n.text_chars hc with rfl | h
  · decide
  · simp only [isDigit,Bool.and_eq_true,decide_eq_true_eq] at h
    omega

theorem numeral_value_lt (n : Numeral) : n.value < 10^n.text.length := by
  obtain ⟨plus,digits,hne,hall⟩ := n
  have hlt := digitsValue_lt hall 0
  cases plus with
  | true =>
    simp only [Numeral.value,Numeral.text,if_true,length_cons,Nat.pow_succ] at hlt ⊢
    omega
  | false => simpa [Numeral.value,Numeral.text] using hlt

variable {n total_ms a b ms : Nat}

theorem scaled_lt (hthree : digits.length ≤ 3)
    (hread : fromStrRadix 10 u64Max digits = some n) : n*10^(3-digits.length) < 1000 := by
  obtain ⟨num,htext,hvalue,-⟩ := (fromStrRadix_eq_some _).mp hread
  have hn : n < 10^digits.length := by
    rw [← hvalue,htext]
    exact numeral_value_lt num
  calc n*10^(3-digits.length) < 10^digits.length*10^(3-digits.length) :=
        Nat.mul_lt_mul_of_pos_right hn (Nat.pow_pos (by decide))
    _ = 1000 := by rw [← Nat.pow_add,show digits.length+(3-digits.length) = 3 by omega]

variable {fraction : List Char} {millis : Nat}

theorem fractionAmount_lt (h : FractionAmount fraction millis) : millis < 1000 := by
  rcases h with ⟨-,rfl⟩ | ⟨n,hread,rfl⟩
  · decide
  · exact scaled_lt (length_take_le 3 fraction) hread

variable {r : Option Nat}

theorem fractionMs_ok (h : fractionMs .checked fraction = .ok r) :
    byteLen (fraction.take 3) ≤ 3 := by
  by_contra hwide
  have hne : fraction.isEmpty = false := by
    cases fraction with
    | nil => simp [byteLen] at hwide
    | cons c rest => rfl
  simp [fractionMs,hne,Build.sub32,hwide,bind,Except.bind] at h

theorem fractionMs_narrow (h : byteLen (fraction.take 3) ≤ 3) :
    ∃ r, fractionMs .checked fraction = .ok r ∧
      ∀ millis, r = some millis ↔ FractionAmount fraction millis := by
  by_cases hne : fraction = []
  · subst hne
    refine ⟨some 0,rfl,?_⟩
    intro millis
    simp [FractionAmount,show fromStrRadix 10 u64Max [] = none from rfl,eq_comm]
  have hthree : (fraction.take 3).length ≤ 3 := length_take_le 3 fraction
  unfold FractionAmount fractionMs
  generalize fraction.take 3 = digits at h hthree ⊢
  have hscale : Build.pow10 .checked (3-byteLen digits) = .ok (10^(3-byteLen digits)) :=
    if_pos (by omega)
  cases hread : fromStrRadix 10 u64Max digits with
  | none =>
    refine ⟨none,?_,?_⟩
    · simp [hne,Build.sub32,h,hscale,hread,bind,Except.bind]
    · simp [hne]
  | some n =>
    obtain ⟨num,htext,-⟩ := (fromStrRadix_eq_some _).mp hread
    have hlen : byteLen digits = digits.length := by rw [htext,numeral_byteLen]
    have hlt : n*10^(3-digits.length) ≤ u64Max :=
      Nat.le_trans (scaled_lt hthree hread).le (by decide)
    rw [hlen] at hscale
    refine ⟨some (n*10^(3-digits.length)),?_,?_⟩
    · simp [hne,Build.sub32,Build.mul64,hlen,hthree,hscale,hread,hlt,bind,Except.bind]
    · simp [hne,eq_comm]

theorem mul64_checked (h : a*b ≤ u64Max) : Build.mul64 .checked a b = .ok (a*b) :=
  if_pos h

theorem mul64_leaves (h : ¬a*b ≤ u64Max) :
    Build.mul64 .checked a b = .error .multiply := if_neg h

theorem readField_nil : readField [] = none := rfl

theorem unit_next (i : Nat) : 1000*60^i*60 = 1000*60^(i+1) := by rw [Nat.pow_succ,Nat.mul_assoc]

variable {i h m s : Nat}

theorem unit_le (h : i < 3) : 1000*60^i ≤ 3600000 := by
  calc 1000*60^i ≤ 1000*60^2 := Nat.mul_le_mul_left _ (Nat.pow_le_pow_right (by decide) (by omega))
    _ = 3600000 := rfl

variable {part : List Char} {parts : List (List Char)}

theorem addFields_cons (hi : i < 3) (hread : readField part = some n) :
    addFields .checked (part :: parts) total_ms (1000*60^i) =
      if u64Max < n*(1000*60^i) then .error .multiply
      else if u64Max < total_ms+n*(1000*60^i) then .ok none
      else addFields .checked parts (total_ms+n*(1000*60^i)) (1000*60^(i+1)) := by
  have hpart : part.isEmpty = false := by
    cases part with
    | nil => simp [readField_nil] at hread
    | cons c part => rfl
  have hunit : ¬3600000 < 1000*60^i := Nat.not_lt.mpr (unit_le hi)
  have hnext : 1000*60^i*60 ≤ u64Max := by
    have hle := unit_le hi
    exact Nat.le_trans (Nat.mul_le_mul_right 60 hle) (by decide)
  rw [addFields,hpart,hread]
  by_cases hfield : n*(1000*60^i) ≤ u64Max
  · rw [if_neg (Nat.not_lt.mpr hfield)]
    simp only [Bool.false_or,decide_eq_true_eq,hunit,if_false,mul64_checked hfield,
      mul64_checked hnext,bind,Except.bind,unit_next]
  · rw [if_pos (Nat.lt_of_not_le hfield)]
    simp only [Bool.false_or,decide_eq_true_eq,hunit,if_false,mul64_leaves hfield,bind,
      Except.bind]

theorem addFields_stops (h : readField part = none ∨ 3 ≤ i) :
    addFields .checked (part :: parts) total_ms (1000*60^i) = .ok none := by
  rw [addFields]
  by_cases hstop : (part.isEmpty || 3600000 < 1000*60^i) = true
  · rw [if_pos hstop]
  · rw [if_neg hstop]
    rcases h with h | h
    · rw [h]
    · have hle : 1000*60^3 ≤ 1000*60^i :=
        Nat.mul_le_mul_left _ (Nat.pow_le_pow_right (by decide) h)
      simp only [Bool.or_eq_true,decide_eq_true_eq,not_or] at hstop
      omega

theorem addFields_ok_iff (htotal : total_ms ≤ u64Max) :
    (∃ r, addFields .checked parts total_ms (1000*60^i) = .ok r) ↔
      ∀ values n, i+values.length < 3 →
        (parts.take (values.length+1)).map readField = (values ++ [n]).map some →
        total_ms+amount (1000*60^i) values ≤ u64Max →
          n*(1000*60^(i+values.length)) ≤ u64Max := by
  induction parts generalizing total_ms i with
  | nil =>
    refine iff_of_true ⟨_,rfl⟩ ?_
    intro values n _ hread
    simp at hread
  | cons part parts ih =>
    by_cases hi : i < 3
    · cases hread : readField part with
      | none =>
        refine iff_of_true ⟨none,addFields_stops (Or.inl hread)⟩ ?_
        intro values n _ hvalues
        cases values <;> simp [hread] at hvalues
      | some v =>
        rw [addFields_cons hi hread]
        constructor
        · rintro ⟨r,hr⟩ values n hlen hvalues hfits
          have hfield : ¬ u64Max < v*(1000*60^i) := fun hover => by simp [hover] at hr
          rw [if_neg hfield] at hr
          cases values with
          | nil =>
            obtain rfl : v = n := by simpa [hread] using hvalues
            simpa using Nat.not_lt.mp hfield
          | cons w values =>
            simp only [length_cons,take_succ_cons,map_cons,cons_append,
              hread,List.cons.injEq,Option.some.injEq] at hlen hvalues ⊢
            obtain ⟨rfl,hvalues⟩ := hvalues
            simp only [amount,unit_next] at hfits
            split_ifs at hr with htot
            · omega
            · have hrest := (ih (i := i+1) (Nat.not_lt.mp htot)).mp ⟨r,hr⟩ values n (by omega) hvalues
                (by omega)
              rwa [show i+(values.length+1) = i+1+values.length by omega]
        · intro h
          have hfield := h [] v (by simpa using hi) (by simp [hread]) (by simpa [amount] using htotal)
          simp only [length_nil,Nat.add_zero] at hfield
          rw [if_neg (Nat.not_lt.mpr hfield)]
          split_ifs with htot
          · exact ⟨none,rfl⟩
          · refine (ih (i := i+1) (Nat.not_lt.mp htot)).mpr ?_
            intro values n hlen hvalues hfits
            have hall := h (v :: values) n (by simp only [length_cons]; omega)
              (by simpa [hread] using hvalues)
              (by simp only [amount,unit_next]; omega)
            rwa [show i+(v :: values).length = i+1+values.length by
              simp only [length_cons]; omega] at hall
    · refine iff_of_true ⟨none,addFields_stops (Or.inr (Nat.not_lt.mp hi))⟩ ?_
      intro values n hlen
      omega

theorem addFields_eq_some {v : Nat} (hi : i ≤ 3) (htotal : total_ms ≤ u64Max) :
    addFields .checked parts total_ms (1000*60^i) = .ok (some v) ↔
      ∃ values, i+values.length ≤ 3 ∧ parts.map readField = values.map some ∧
        v = total_ms+amount (1000*60^i) values ∧ v ≤ u64Max := by
  induction parts generalizing total_ms i with
  | nil =>
    simp only [addFields,Except.ok.injEq,Option.some.injEq]
    constructor
    · rintro rfl
      exact ⟨[],by simpa using hi,rfl,rfl,htotal⟩
    · rintro ⟨values,-,hvalues,hv,-⟩
      obtain rfl : values = [] := by simpa using hvalues.symm
      exact hv.symm
  | cons part parts ih =>
    cases hread : readField part with
    | none =>
      rw [addFields_stops (Or.inl hread)]
      refine iff_of_false (by simp) ?_
      rintro ⟨values,-,hvalues,-⟩
      cases values <;> simp [hread] at hvalues
    | some n =>
      by_cases hlt : i < 3
      · rw [addFields_cons hlt hread]
        constructor
        · intro h
          split_ifs at h with hfield htot
          · simp at h
          · obtain ⟨values,hlen,hvalues,hv,hle⟩ :=
              (ih (i := i+1) hlt (Nat.not_lt.mp htot)).mp h
            refine ⟨n :: values,?_,by simp [hread,hvalues],?_,hle⟩
            · simp only [length_cons]
              omega
            · simp only [amount,unit_next]
              omega
        · rintro ⟨values,hlen,hvalues,hv,hle⟩
          cases values with
          | nil => simp at hvalues
          | cons w values =>
            simp only [map_cons,hread,List.cons.injEq,Option.some.injEq] at hvalues
            obtain ⟨rfl,hvalues⟩ := hvalues
            simp only [amount,unit_next] at hv
            rw [if_neg (by omega),if_neg (by omega)]
            refine (ih (i := i+1) hlt (by omega)).mpr ⟨values,?_,hvalues,by omega,hle⟩
            simp only [length_cons] at hlen
            omega
      · rw [addFields_stops (Or.inr (Nat.not_lt.mp hlt))]
        refine iff_of_false (by simp) ?_
        rintro ⟨values,hlen,hvalues,-⟩
        cases values with
        | nil => simp at hvalues
        | cons w values =>
          simp only [length_cons] at hlen
          omega

theorem fieldReads_of (hread : readField part = some n) (hplus : '+' ∉ part) :
    FieldReads part n := by
  obtain ⟨⟨plus,digits,hne,hall⟩,htext,hvalue,-⟩ := (fromStrRadix_eq_some _).mp hread
  cases plus with
  | true =>
    refine absurd (mem_of_mem_trim (c := '+') ?_) hplus
    rw [htext]
    exact mem_cons_self
  | false =>
    have htrim : trim part = digits := htext
    exact ⟨by rw [htrim]; exact hne,by rw [htrim]; exact hall,by rw [htrim]; exact hvalue.symm⟩

variable {c : Char}

theorem fieldReads_mem (h : FieldReads part n) (hc : c ∈ part) :
    isWhitespace c = true ∨ isDigit c = true := by
  cases hw : isWhitespace c with
  | true => exact Or.inl rfl
  | false => exact Or.inr (all_eq_true.mp h.2.1 c (mem_trim hc hw))

variable {clock : List Char}

theorem clockReads_fields (hclock : ClockReads clock h m s)
    (hpart : part ∈ clock.splitOn ':') : ∃ n, FieldReads part n := by
  unfold ClockReads at hclock
  split at hclock
  all_goals rename_i hsplit
  · rw [hsplit,mem_singleton] at hpart
    exact ⟨s,hpart ▸ hclock.2.2⟩
  · simp only [hsplit,mem_cons,not_mem_nil,or_false] at hpart
    rcases hpart with rfl | rfl
    · exact ⟨m,hclock.2.1⟩
    · exact ⟨s,hclock.2.2⟩
  · simp only [hsplit,mem_cons,not_mem_nil,or_false] at hpart
    rcases hpart with rfl | rfl | rfl
    · exact ⟨h,hclock.1⟩
    · exact ⟨m,hclock.2.1⟩
    · exact ⟨s,hclock.2.2⟩
  · exact hclock.elim

theorem clockReads_mem (hclock : ClockReads clock h m s) (hc : c ∈ clock) :
    c = ':' ∨ isWhitespace c = true ∨ isDigit c = true := by
  by_cases hcolon : c = ':'
  · exact Or.inl hcolon
  · obtain ⟨part,hpart,hmem⟩ := (mem_splitOn hcolon).mpr hc
    obtain ⟨n,hn⟩ := clockReads_fields hclock hpart
    exact Or.inr (fieldReads_mem hn hmem)

theorem clockReads_unmarked (hclock : ClockReads clock h m s) :
    (∀ c ∈ clock, isFractionMark c = false) ∧ '+' ∉ clock := by
  constructor
  · intro c hc
    by_contra hmark
    simp only [isFractionMark,Bool.or_eq_false_iff,not_and_or,beq_eq_false_iff_ne,ne_eq,
      Decidable.not_not] at hmark
    rcases hmark with rfl | rfl
    · exact absurd (clockReads_mem hclock hc) (by decide)
    · exact absurd (clockReads_mem hclock hc) (by decide)
  · intro hc
    exact absurd (clockReads_mem hclock hc) (by decide)

theorem clockReads_of {values : List Nat} (hlen : values.length ≤ 3)
    (hread : (clock.splitOn ':').reverse.map readField = values.map some) (hplus : '+' ∉ clock) :
    ∃ h m s, ClockReads clock h m s ∧ amount 1000 values = h*3600000+m*60000+s*1000 := by
  have hfield : ∀ part ∈ clock.splitOn ':', ∀ n, readField part = some n → FieldReads part n := by
    intro part hpart n hn
    refine fieldReads_of hn ?_
    intro hmem
    exact hplus ((mem_splitOn (by decide)).mp ⟨part,hpart,hmem⟩)
  obtain ⟨values,rfl⟩ : ∃ fields, values = fields.reverse := ⟨values.reverse,by simp⟩
  have hread : (clock.splitOn ':').map readField = values.map some := by
    rw [map_reverse,map_reverse] at hread
    exact reverse_injective hread
  have hne : clock.splitOn ':' ≠ [] := splitOn_ne_nil ':' clock
  have hsame : (clock.splitOn ':').length = values.length := by
    simpa using congrArg List.length hread
  unfold ClockReads
  rw [length_reverse] at hlen
  generalize clock.splitOn ':' = parts at *
  rcases parts with _ | ⟨a,_ | ⟨b,_ | ⟨c,_ | ⟨d,parts⟩⟩⟩⟩
  · exact absurd rfl hne
  · obtain ⟨s,rfl⟩ := length_eq_one_iff.mp hsame.symm
    simp only [map_cons,map_nil,List.cons.injEq,and_true] at hread
    exact ⟨0,0,s,⟨rfl,rfl,hfield a (by simp) s hread⟩,by simp [amount]⟩
  · obtain ⟨m,s,rfl⟩ := length_eq_two.mp hsame.symm
    simp only [map_cons,map_nil,List.cons.injEq,and_true] at hread
    refine ⟨0,m,s,⟨rfl,hfield a (by simp) m hread.1,hfield b (by simp) s hread.2⟩,?_⟩
    simp [amount]
    omega
  · obtain ⟨h,m,s,rfl⟩ := length_eq_three.mp hsame.symm
    simp only [map_cons,map_nil,List.cons.injEq,and_true] at hread
    refine ⟨h,m,s,⟨hfield a (by simp) h hread.1,hfield b (by simp) m hread.2.1,
      hfield c (by simp) s hread.2.2⟩,?_⟩
    simp [amount]
    omega
  · simp only [length_cons] at hsame
    omega

theorem fractionReads_of (h : FractionAmount fraction millis) (hplus : '+' ∉ fraction)
    (hrest : (fraction.drop 3).all isDigit) : FractionReads fraction millis := by
  rcases h with ⟨rfl,rfl⟩ | ⟨n,hread,rfl⟩
  · exact ⟨rfl,rfl⟩
  · obtain ⟨⟨plus,digits,hne,hall⟩,htext,hvalue,-⟩ := (fromStrRadix_eq_some _).mp hread
    cases plus with
    | true =>
      refine absurd (mem_of_mem_take (i := 3) ?_) hplus
      rw [htext]
      exact mem_cons_self
    | false =>
      have htake : fraction.take 3 = digits := htext
      refine ⟨?_,?_⟩
      · rw [← take_append_drop 3 fraction,all_append,hrest,htake,hall]
        rfl
      · rw [← hvalue]
        change digitsValue 0 digits*_ = _
        rw [← htake]
        rcases fraction with _ | ⟨a,_ | ⟨b,_ | ⟨c,rest⟩⟩⟩
        all_goals simp [digitsValue]
        all_goals omega

theorem timestampReads_iff :
    TimestampReads text h m s ms ↔
      ClockReads (cutFraction (trim text)).1 h m s ∧
        FractionReads (cutFraction (trim text)).2 ms := by
  constructor
  · rintro (⟨clock,mark,fraction,htext,hmark,hclock,hfraction⟩ | ⟨hclock,rfl⟩)
    · have hafter : ∀ d ∈ fraction, isFractionMark d = false := by
        intro d hd
        have hdigit := all_eq_true.mp hfraction.1 d hd
        by_contra hmark
        simp only [isFractionMark,Bool.or_eq_false_iff,not_and_or,beq_eq_false_iff_ne,ne_eq,
          Decidable.not_not] at hmark
        rcases hmark with rfl | rfl <;> exact absurd hdigit (by decide)
      rw [cutFraction,htext,rsplitOnce_append hmark clock hafter]
      exact ⟨hclock,hfraction⟩
    · rw [cutFraction,rsplitOnce_eq_none.mpr (clockReads_unmarked hclock).1]
      exact ⟨hclock,rfl,rfl⟩
  · unfold cutFraction
    cases hcut : rsplitOnce isFractionMark (trim text) with
    | none =>
      rintro ⟨hclock,-,rfl⟩
      exact Or.inr ⟨hclock,rfl⟩
    | some cut =>
      obtain ⟨mark,hmark,htext,-⟩ := rsplitOnce_eq_some.mp hcut
      rintro ⟨hclock,hfraction⟩
      exact Or.inl ⟨cut.1,mark,cut.2,htext,hmark,hclock,hfraction⟩

theorem mem_cutFraction (hc : c ≠ '0') :
    c ∈ (cutFraction text).1 ∨ c ∈ (cutFraction text).2 → c ∈ text := by
  unfold cutFraction
  cases hcut : rsplitOnce isFractionMark text with
  | none => simp [hc]
  | some cut =>
    obtain ⟨mark,-,htext,-⟩ := rsplitOnce_eq_some.mp hcut
    rw [htext]
    rintro (h | h)
    · exact mem_append_left _ h
    · exact mem_append_right _ (mem_cons_of_mem _ h)

theorem timestampReads_signless (hreads : TimestampReads text h m s ms) :
    '+' ∉ text := by
  intro hmem
  have hmem : '+' ∈ trim text := mem_trim hmem (by decide)
  rcases hreads with ⟨clock,mark,fraction,htext,hmark,hclock,hfraction⟩ | ⟨hclock,-⟩
  · rw [htext,mem_append,mem_cons] at hmem
    rcases hmem with hmem | rfl | hmem
    · exact (clockReads_unmarked hclock).2 hmem
    · exact absurd hmark (by decide)
    · exact absurd (all_eq_true.mp hfraction.1 _ hmem) (by decide)
  · exact (clockReads_unmarked hclock).2 hmem

variable {build : Build}

theorem parseTimestamp_none
    (h : fractionMs build (cutFraction (trim text)).2 = .ok none) :
    parseTimestamp build text = .ok none := by
  simp only [parseTimestamp,h,bind,Except.bind]

theorem parseTimestamp_some
    (h : fractionMs build (cutFraction (trim text)).2 = .ok (some millis)) :
    parseTimestamp build text = addFields build (clockFields text) millis (1000*60^0) := by
  simp only [parseTimestamp,h,bind,Except.bind,clockFields,Nat.pow_zero,Nat.mul_one]

theorem parseTimestamp_narrow (h : parseTimestamp .checked text = .ok r) :
    byteLen ((cutFraction (trim text)).2.take 3) ≤ 3 := by
  cases hf : fractionMs .checked (cutFraction (trim text)).2 with
  | error e => simp [parseTimestamp,hf,bind,Except.bind] at h
  | ok fraction => exact fractionMs_ok hf

/-- Precisely the texts that the parser reads without a fault, and as nothing
but a timestamp. -/
theorem parseTimestamp_exact_iff (text : List Char) : ParsesExactly text ↔ Tame text := by
  have hsum : ∀ millis, FractionAmount (cutFraction (trim text)).2 millis → millis ≤ u64Max :=
    fun millis h => Nat.le_trans (fractionAmount_lt h).le (by decide)
  constructor
  · rintro ⟨r,hr,hexact⟩
    have hnarrow := parseTimestamp_narrow hr
    obtain ⟨f,hf,hamount⟩ := fractionMs_narrow hnarrow
    have hclock : ∀ millis, FractionAmount (cutFraction (trim text)).2 millis →
        addFields .checked (clockFields text) millis (1000*60^0) = .ok r := by
      intro millis hmillis
      rw [← hr,parseTimestamp_some (by rw [hf,(hamount millis).mpr hmillis])]
    refine ⟨hnarrow,?_,?_⟩
    · intro millis hmillis values n hlen hvalues hfits
      have hok := (addFields_ok_iff (hsum millis hmillis)).mp ⟨r,hclock millis hmillis⟩ values n
        (by omega) hvalues hfits
      simpa using hok
    · intro millis hmillis values hlen hvalues hfits
      have hsome := (addFields_eq_some (v := millis+amount 1000 values) (Nat.zero_le 3)
        (hsum millis hmillis)).mpr ⟨values,by omega,hvalues,rfl,hfits⟩
      rw [hclock millis hmillis,Except.ok.injEq] at hsome
      obtain ⟨h,m,s,ms,hreads,-⟩ := hexact _ hsome
      refine ⟨timestampReads_signless hreads,?_⟩
      rw [all_eq_true]
      intro c hc
      exact all_eq_true.mp (timestampReads_iff.mp hreads).2.1 c (mem_of_mem_drop hc)
  · intro hgood
    obtain ⟨f,hf,hamount⟩ := fractionMs_narrow hgood.narrow
    cases f with
    | none => exact ⟨none,parseTimestamp_none hf,by simp⟩
    | some millis =>
      have hmillis := (hamount millis).mp rfl
      have hle := hsum millis hmillis
      obtain ⟨r,hr⟩ : ∃ r, addFields .checked (clockFields text) millis (1000*60^0) = .ok r := by
        refine (addFields_ok_iff hle).mpr ?_
        intro values n hlen hvalues hfits
        simpa using hgood.fits millis hmillis values n (by omega) hvalues hfits
      refine ⟨r,by rw [parseTimestamp_some hf,hr],?_⟩
      rintro v rfl
      obtain ⟨values,hlen,hvalues,rfl,hfits⟩ := (addFields_eq_some (Nat.zero_le 3) hle).mp hr
      obtain ⟨hplus,hrest⟩ := hgood.plain millis hmillis values (by omega) hvalues hfits
      have hparts : '+' ∉ (cutFraction (trim text)).1 ∧ '+' ∉ (cutFraction (trim text)).2 := by
        rw [← not_or]
        intro hmem
        exact hplus (mem_of_mem_trim (mem_cutFraction (by decide) hmem))
      obtain ⟨h,m,s,hclock,hvalue⟩ := clockReads_of (by omega) hvalues hparts.1
      refine ⟨h,m,s,millis,timestampReads_iff.mpr ⟨hclock,fractionReads_of hmillis hparts.2 hrest⟩,?_⟩
      change millis+amount 1000 values = _
      omega

/-- Digits of another script: the first two take six bytes, and `3 - 6` is no
count. -/
theorem parseTimestamp_faults : ¬ParsesExactly "00:00:01.५०".toList := by
  rintro ⟨r,hr,-⟩
  have hfault : parseTimestamp .checked "00:00:01.५०".toList = .error .subtract := by decide
  rw [hfault] at hr
  exact absurd hr (by simp)

example : parseTimestamp .checked "99999999999999999:00:00".toList = .error .multiply := by decide

example : parseTimestamp .checked "+1.250pm".toList = .ok (some 1250) := by decide

end ProjectOS.Ingest
