import ProjectOS.Lib.Replay
import ProjectOS.Sched.Cron

/-! The grammar of cron expressions, and what the parser makes of it. Documented are
`*`, `a`, `a-b`, `a-b/s` and `*/s` in plain digits; the parser also reads a plus sign
before a number and a step behind a lone one, and so does a spelling here. -/

namespace ProjectOS.Sched
open Lib List

def isDigit (c : Char) : Bool := 48 ≤ c.toNat && c.toNat ≤ 57

def digitsValue (acc : Nat) (digits : List Char) : Nat :=
  digits.foldl (fun n c => n*10+(c.toNat-48)) acc

structure Numeral where
  plus : Bool
  digits : List Char
  valid : digits ≠ [] ∧ digits.all isDigit
  deriving DecidableEq

namespace Numeral

def value (n : Numeral) : Nat := digitsValue 0 n.digits

def text (n : Numeral) : List Char := if n.plus then '+' :: n.digits else n.digits

end Numeral

inductive Span where
  | every
  | lone (n : Numeral)
  | range (first last : Numeral)
  deriving DecidableEq

namespace Span

def text : Span → List Char
  | .every => ['*']
  | .lone n => n.text
  | .range first last => first.text ++ '-' :: last.text

def ends (min max : Nat) : Span → Nat × Nat
  | .every => (min,max)
  | .lone n => (n.value,n.value)
  | .range first last => (first.value,last.value)

def Valid (min max : Nat) (s : Span) : Prop :=
  min ≤ (s.ends min max).1 ∧ (s.ends min max).2 ≤ max ∧ (s.ends min max).1 ≤ (s.ends min max).2

instance (min max : Nat) : DecidablePred (Valid min max) := fun _ =>
  inferInstanceAs (Decidable (_ ≤ _ ∧ _ ≤ _ ∧ _ ≤ _))

def Signless : Span → Prop
  | .every => True
  | .lone n => n.plus = false
  | .range first last => first.plus = false ∧ last.plus = false

end Span

structure Item where
  span : Span
  step : Option Numeral
  deriving DecidableEq

namespace Item

def text (i : Item) : List Char :=
  i.span.text ++ (match i.step with
    | some s => '/' :: s.text
    | none => [])

def stepValue (i : Item) : Nat := (i.step.map Numeral.value).getD 1

def Valid (min max : Nat) (i : Item) : Prop := i.span.Valid min max ∧ 1 ≤ i.stepValue

instance (min max : Nat) : DecidablePred (Valid min max) := fun _ =>
  inferInstanceAs (Decidable (_ ∧ _ ≤ _))

def Documented (i : Item) : Prop :=
  i.span.Signless ∧ (∀ s, i.step = some s → s.plus = false ∧ ∀ n, i.span ≠ .lone n)

def Oversized (i : Item) : Prop := u8Max < i.stepValue

def Denotes (min max : Nat) (i : Item) (v : Nat) : Prop :=
  ∃ k, v = (i.span.ends min max).1+k*i.stepValue ∧ v ≤ (i.span.ends min max).2

end Item

def fieldText (items : List Item) : List Char := [','].intercalate (items.map Item.text)

structure Spelling where
  minute : List Item
  hour : List Item
  day_of_month : List Item
  month : List Item
  day_of_week : List Item
  deriving DecidableEq

namespace Spelling

def items (x : Spelling) : List Item :=
  x.minute ++ x.hour ++ x.day_of_month ++ x.month ++ x.day_of_week

def texts (x : Spelling) : List (List Char) :=
  [x.minute,x.hour,x.day_of_month,x.month,x.day_of_week].map fieldText

def FieldValid (min max : Nat) (items : List Item) : Prop :=
  items ≠ [] ∧ ∀ i ∈ items, i.Valid min max

instance (min max : Nat) : DecidablePred (FieldValid min max) := fun items =>
  inferInstanceAs (Decidable (items ≠ [] ∧ ∀ i ∈ items, i.Valid min max))

/-- The text spells the five fields, each of its range. -/
structure Reads (x : Spelling) (text : String) : Prop where
  texts : splitWhitespace text = x.texts
  minute : FieldValid 0 59 x.minute
  hour : FieldValid 0 23 x.hour
  day_of_month : FieldValid 1 31 x.day_of_month
  month : FieldValid 1 12 x.month
  day_of_week : FieldValid 0 7 x.day_of_week

def Documented (x : Spelling) : Prop := ∀ i ∈ x.items, i.Documented

def Oversized (x : Spelling) : Prop := ∃ i ∈ x.items, i.Oversized

end Spelling

def FieldDenotes (min max : Nat) (items : List Item) (v : Nat) : Prop :=
  ∃ i ∈ items, i.Denotes min max v

/-- The bits of a parsed expression are the values its fields stand for, a
seventh weekday being a Sunday. -/
structure CronExpr.Means (expr : CronExpr) (x : Spelling) : Prop where
  minutes : ∀ v, bitSet expr.minutes v ↔ FieldDenotes 0 59 x.minute v
  hours : ∀ v, bitSet expr.hours v ↔ FieldDenotes 0 23 x.hour v
  days_of_month : ∀ v, bitSet expr.days_of_month v ↔ FieldDenotes 1 31 x.day_of_month v
  months : ∀ v, bitSet expr.months v ↔ FieldDenotes 1 12 x.month v
  days_of_week : ∀ v, bitSet expr.days_of_week v ↔
    v < 7 ∧ (FieldDenotes 0 7 x.day_of_week v ∨ v = 0 ∧ FieldDenotes 0 7 x.day_of_week 7)

theorem toDigit_ten (c : Char) : toDigit 10 c = if isDigit c then some (c.toNat-48) else none := by
  by_cases h : 48 ≤ c.toNat ∧ c.toNat ≤ 57
  · have hlt : c.toNat-48 < 10 := by omega
    simp [toDigit,isDigit,h,hlt]
  · have hdigit : isDigit c = false := by
      simp only [isDigit,Bool.and_eq_false_iff,decide_eq_false_iff_not]
      omega
    simp only [toDigit,h,if_false,hdigit]
    split_ifs with hlower hlt hupper hlt <;> first | rfl | omega

theorem digitsValue_le (acc : Nat) (digits : List Char) : acc ≤ digitsValue acc digits := by
  induction digits generalizing acc with
  | nil => exact Nat.le_refl _
  | cons c rest ih =>
    have hrest := ih (acc*10+(c.toNat-48))
    rw [digitsValue,foldl_cons]
    exact Nat.le_trans (by omega) hrest

theorem readDigits_eq_some {max acc n : Nat} (hacc : acc ≤ max) (text : List Char) :
    readDigits 10 max acc text = some n ↔
      text.all isDigit ∧ digitsValue acc text = n ∧ n ≤ max := by
  induction text generalizing acc with
  | nil => simp [readDigits,digitsValue]; omega
  | cons c rest ih =>
    rw [readDigits,toDigit_ten]
    by_cases hc : isDigit c
    · have hle := digitsValue_le (acc*10+(c.toNat-48)) rest
      simp only [hc,if_true,all_cons,Bool.true_and]
      rw [show digitsValue acc (c :: rest) = digitsValue (acc*10+(c.toNat-48)) rest from rfl]
      split_ifs with hmax
      · exact ih hmax
      · simp only [false_iff]
        omega
    · simp [hc]

theorem plus_not_digit : isDigit '+' = false := by decide

theorem fromStrRadix_eq_some {max n : Nat} (text : List Char) :
    fromStrRadix 10 max text = some n ↔ ∃ num : Numeral, text = num.text ∧ num.value = n ∧ n ≤ max := by
  have hread : ∀ digits : List Char, readDigits 10 max 0 digits = some n ↔
      digits.all isDigit ∧ digitsValue 0 digits = n ∧ n ≤ max :=
    readDigits_eq_some (Nat.zero_le _)
  constructor
  · intro h
    unfold fromStrRadix at h
    split at h
    · simp at h
    · simp at h
    · rename_i digits hne
      obtain ⟨hall,hvalue,hle⟩ := (hread digits).mp h
      exact ⟨⟨true,digits,by simpa using hne,hall⟩,rfl,hvalue,hle⟩
    · rename_i hnil hplus hsigned
      obtain ⟨hall,hvalue,hle⟩ := (hread text).mp h
      exact ⟨⟨false,text,by simpa using hnil,hall⟩,rfl,hvalue,hle⟩
  · rintro ⟨⟨plus,digits,hne,hall⟩,rfl,hvalue,hle⟩
    have hdone := (hread digits).mpr ⟨hall,hvalue,hle⟩
    obtain ⟨c,rest,rfl⟩ := exists_cons_of_ne_nil hne
    cases plus with
    | true => exact hdone
    | false =>
      have hc : c ≠ '+' := by
        rintro rfl
        simp [plus_not_digit] at hall
      unfold fromStrRadix Numeral.text
      split <;> simp_all

variable {c : Char}

theorem Numeral.text_chars {n : Numeral} (h : c ∈ n.text) : c = '+' ∨ isDigit c := by
  obtain ⟨plus,digits,hne,hall⟩ := n
  cases plus with
  | true =>
    rcases mem_cons.mp h with rfl | h
    · exact Or.inl rfl
    · exact Or.inr (all_eq_true.mp hall c h)
  | false => exact Or.inr (all_eq_true.mp hall c h)

theorem Numeral.not_mem_text {n : Numeral} (hplus : c ≠ '+') (hdigit : isDigit c = false) :
    c ∉ n.text := by
  intro h
  rcases n.text_chars h with rfl | h
  · exact hplus rfl
  · simp [hdigit] at h

theorem Numeral.text_ne_nil (n : Numeral) : n.text ≠ [] := by
  obtain ⟨plus,digits,hne,hall⟩ := n
  cases plus <;> simp [Numeral.text,hne]

theorem Numeral.text_inj {n m : Numeral} (h : n.text = m.text) : n = m := by
  obtain ⟨plus,digits,hne,hall⟩ := n
  obtain ⟨plus',digits',hne',hall'⟩ := m
  have hsigned : ∀ ds es : List Char, ds.all isDigit → ds ≠ '+' :: es := by
    rintro ds es hds rfl
    simp [plus_not_digit] at hds
  cases plus <;> cases plus' <;> simp [Numeral.text] at h ⊢
  · exact h
  · exact hsigned _ _ hall h
  · exact hsigned _ _ hall' h.symm
  · exact h

theorem parseNumber_eq_ok {field what : String} {text : List Char} {n : Nat} :
    parseNumber field what text = .ok n ↔
      ∃ num : Numeral, text = num.text ∧ num.value = n ∧ n ≤ u8Max := by
  rw [← fromStrRadix_eq_some]
  unfold parseNumber
  split <;> rename_i h <;> simp [h]

theorem Span.text_inj {s t : Span} (h : s.text = t.text) : s = t := by
  have hstar : ∀ n : Numeral, '*' ∉ n.text := fun n => n.not_mem_text (by decide) (by decide)
  have hdash : ∀ n : Numeral, '-' ∉ n.text := fun n => n.not_mem_text (by decide) (by decide)
  have hnoStar : ∀ (n : Numeral) (rest : List Char), n.text ++ rest ≠ ['*'] := by
    intro n rest he
    obtain ⟨c,more,hc⟩ := exists_cons_of_ne_nil n.text_ne_nil
    rw [hc,cons_append,List.cons.injEq] at he
    exact hstar n (by simp [hc,he.1])
  cases s <;> cases t <;> simp only [Span.text] at h
  case every.every => rfl
  case every.lone n => exact absurd (by simpa using h.symm) (hnoStar n [])
  case every.range a b => exact absurd h.symm (hnoStar a _)
  case lone.every n => exact absurd (by simpa using h) (hnoStar n [])
  case lone.lone n m => rw [Numeral.text_inj h]
  case lone.range n a b => exact absurd (by rw [h]; simp) (hdash n)
  case range.every a b => exact absurd h (hnoStar a _)
  case range.lone a b n => exact absurd (by rw [← h]; simp) (hdash n)
  case range.range a b c d =>
    have hcut := splitOnce_append b.text (hdash a)
    rw [h,splitOnce_append d.text (hdash c),Option.some.injEq,Prod.mk.injEq] at hcut
    rw [Numeral.text_inj hcut.1,Numeral.text_inj hcut.2]

theorem Span.not_mem_text {s : Span} (hstar : c ≠ '*') (hdash : c ≠ '-') (hplus : c ≠ '+')
    (hdigit : isDigit c = false) : c ∉ s.text := by
  cases s with
  | every => simpa [Span.text] using hstar
  | lone n => exact n.not_mem_text hplus hdigit
  | range first last =>
    simp [Span.text,hdash,first.not_mem_text hplus hdigit,last.not_mem_text hplus hdigit]

theorem Span.text_ne_nil (s : Span) : s.text ≠ [] := by
  cases s <;> simp [Span.text,Numeral.text_ne_nil]

theorem splitOnce_item (i : Item) :
    splitOnce '/' i.text = i.step.map (fun s => (i.span.text,s.text)) := by
  have hslash : '/' ∉ i.span.text := i.span.not_mem_text (by decide) (by decide) (by decide) (by decide)
  obtain ⟨span,step⟩ := i
  cases step with
  | none => simpa [Item.text] using splitOnce_eq_none.mpr hslash
  | some s => exact splitOnce_append s.text hslash

theorem Item.text_inj {i j : Item} (h : i.text = j.text) : i = j := by
  have hi := splitOnce_item i
  rw [h,splitOnce_item j] at hi
  obtain ⟨span,step⟩ := i
  obtain ⟨span',step'⟩ := j
  cases step <;> cases step' <;> simp at hi
  · have hspan : span.text = span'.text := by simpa [Item.text] using h
    rw [Span.text_inj hspan]
  · rw [Span.text_inj hi.1,Numeral.text_inj hi.2]

theorem Item.comma_not_mem (i : Item) : ',' ∉ i.text := by
  have hspan : ',' ∉ i.span.text := i.span.not_mem_text (by decide) (by decide) (by decide) (by decide)
  obtain ⟨span,step⟩ := i
  cases step with
  | none => simpa [Item.text] using hspan
  | some s => simp [Item.text,hspan,s.not_mem_text (c := ',') (by decide) (by decide)]

variable {items : List Item}

theorem splitOn_fieldText (h : items ≠ []) :
    (fieldText items).splitOn ',' = items.map Item.text := by
  refine splitOn_intercalate ',' ?_ (by simpa using h)
  intro text ht
  obtain ⟨i,-,rfl⟩ := mem_map.mp ht
  exact i.comma_not_mem

theorem fieldText_inj {items' : List Item} (h : items ≠ []) (h' : items' ≠ [])
    (he : fieldText items = fieldText items') : items = items' := by
  have hsplit := splitOn_fieldText h
  rw [he,splitOn_fieldText h'] at hsplit
  exact (map_injective_iff.mpr (fun _ _ => Item.text_inj)) hsplit.symm

theorem bind_eq_ok {ε α β : Type} {x : Except ε α} {f : α → Except ε β} {b : β} :
    (x >>= f) = .ok b ↔ ∃ a, x = .ok a ∧ f a = .ok b := by
  cases x with
  | ok a =>
    constructor
    · intro h
      exact ⟨a,rfl,h⟩
    · rintro ⟨a',ha,h⟩
      rw [Except.ok.inj ha]
      exact h
  | error e =>
    constructor
    · intro h
      cases h
    · rintro ⟨a,ha,-⟩
      cases ha

section
variable {field : String} {text : List Char} {min max : Nat}

theorem parseEnds_eq_ok (hmax : max ≤ u8Max) {first_text last_text : List Char} {ends : Nat × Nat} :
    (do
      let first ← parseNumber field "" first_text
      let last ← parseNumber field "" last_text
      if first < min ∨ max < last ∨ last < first then
        Except.error ⟨field,s!"{quoted text} is outside the {min}..={max} range"⟩
      else Except.ok (first,last)) = .ok ends ↔
    ∃ a b : Numeral, first_text = a.text ∧ last_text = b.text ∧ (a.value,b.value) = ends ∧
      min ≤ a.value ∧ b.value ≤ max ∧ a.value ≤ b.value := by
  simp only [bind_eq_ok,parseNumber_eq_ok]
  constructor
  · rintro ⟨first,⟨a,ha,rfl,-⟩,last,⟨b,hb,rfl,-⟩,h⟩
    split_ifs at h with hout
    exact ⟨a,b,ha,hb,Except.ok.inj h,by omega,by omega,by omega⟩
  · rintro ⟨a,b,ha,hb,rfl,hmin,hmax',hle⟩
    refine ⟨a.value,⟨a,ha,rfl,by omega⟩,b.value,⟨b,hb,rfl,by omega⟩,?_⟩
    rw [if_neg (by omega)]

theorem parseRange_eq_ok (hmax : max ≤ u8Max) (hle : min ≤ max) {range_text : List Char}
    {ends : Nat × Nat} :
    parseRange range_text field min max = .ok ends ↔
      ∃ s : Span, range_text = s.text ∧ s.ends min max = ends ∧ s.Valid min max := by
  have hstar : ∀ n : Numeral, '*' ∉ n.text := fun n => n.not_mem_text (by decide) (by decide)
  have hdash : ∀ n : Numeral, '-' ∉ n.text := fun n => n.not_mem_text (by decide) (by decide)
  unfold parseRange
  split_ifs with hevery
  · constructor
    · intro h
      exact ⟨.every,hevery,Except.ok.inj h,Nat.le_refl _,Nat.le_refl _,hle⟩
    · rintro ⟨s,hs,hends,-⟩
      obtain rfl : s = .every := Span.text_inj (hs.symm.trans hevery)
      rw [← hends]
      rfl
  · cases hcut : splitOnce '-' range_text with
    | none =>
      refine (parseEnds_eq_ok hmax).trans ?_
      constructor
      · rintro ⟨a,b,ha,hb,hends,hmin,hmax',hab⟩
        obtain rfl : a = b := Numeral.text_inj (ha.symm.trans hb)
        exact ⟨.lone a,ha,hends,hmin,hmax',hab⟩
      · rintro ⟨s,rfl,hends,hmin,hmax',hab⟩
        cases s with
        | every => exact absurd rfl hevery
        | lone n => exact ⟨n,n,rfl,rfl,hends,hmin,hmax',hab⟩
        | range a b => exact absurd (by simp [Span.text]) (splitOnce_eq_none.mp hcut)
    | some cut =>
      obtain ⟨before,after⟩ := cut
      obtain ⟨htext,-⟩ := splitOnce_eq_some hcut
      refine (parseEnds_eq_ok hmax).trans ?_
      constructor
      · rintro ⟨a,b,ha,hb,hends,hmin,hmax',hab⟩
        exact ⟨.range a b,by rw [htext,show before = a.text from ha,show after = b.text from hb]; rfl,
          hends,hmin,hmax',hab⟩
      · rintro ⟨s,rfl,hends,hmin,hmax',hab⟩
        cases s with
        | every => exact absurd rfl hevery
        | lone n => exact absurd (by rw [show n.text = _ from htext]; simp) (hdash n)
        | range a b =>
          have hsplit := splitOnce_append b.text (hdash a)
          rw [show splitOnce '-' (a.text ++ '-' :: b.text) = _ from hcut,Option.some.injEq,
            Prod.mk.injEq] at hsplit
          exact ⟨a,b,hsplit.1,hsplit.2,hends,hmin,hmax',hab⟩

theorem parseStep_eq_ok {step_text : List Char} {step : Nat} :
    parseStep field step_text = .ok step ↔
      ∃ s : Numeral, step_text = s.text ∧ s.value = step ∧ 1 ≤ step ∧ step ≤ u8Max := by
  simp only [parseStep,bind_eq_ok,parseNumber_eq_ok]
  constructor
  · rintro ⟨n,⟨s,hs,hvalue,hle⟩,h⟩
    split_ifs at h with hzero
    obtain rfl := Except.ok.inj h
    exact ⟨s,hs,hvalue,by omega,hle⟩
  · rintro ⟨s,hs,hvalue,hpos,hle⟩
    refine ⟨step,⟨s,hs,hvalue,hle⟩,?_⟩
    rw [if_neg (by omega)]

end

def Item.set (min max mask : Nat) (i : Item) : Nat :=
  setSteps (i.span.ends min max).2 i.stepValue
    ((i.span.ends min max).2+1-(i.span.ends min max).1) (i.span.ends min max).1 mask

section
variable {field : String} {text : List Char} {min max : Nat}

def Item.Taken (min max : Nat) (i : Item) : Prop := i.Valid min max ∧ ¬i.Oversized

theorem parsePart_eq_ok (hmax : max ≤ u8Max) (hle : min ≤ max) {mask mask' : Nat} {part : List Char} :
    parsePart text field min max mask part = .ok mask' ↔
      ∃ i : Item, part = i.text ∧ i.Taken min max ∧ mask' = i.set min max mask := by
  have hempty : ∀ i : Item, i.text ≠ [] := by simp [Item.text,Span.text_ne_nil]
  unfold parsePart
  split_ifs with hnil
  · constructor
    · intro h
      cases h
    · rintro ⟨i,rfl,-⟩
      exact absurd (by simpa using hnil) (hempty i)
  · cases hcut : splitOnce '/' part with
    | none =>
      simp only [bind_eq_ok,parseRange_eq_ok hmax hle,Except.ok.injEq]
      constructor
      · rintro ⟨_,rfl,ends,⟨s,hs,rfl,hvalid⟩,rfl⟩
        refine ⟨⟨s,none⟩,by simpa [Item.text] using hs,⟨⟨hvalid,?_⟩,?_⟩,rfl⟩
        · simp [Item.stepValue]
        · simp [Item.Oversized,Item.stepValue,u8Max]
      · rintro ⟨i,rfl,⟨⟨hvalid,-⟩,-⟩,rfl⟩
        rw [splitOnce_item,Option.map_eq_none_iff] at hcut
        refine ⟨_,rfl,_,⟨i.span,by simp [Item.text,hcut],rfl,hvalid⟩,?_⟩
        simp [Item.set,Item.stepValue,hcut]
    | some cut =>
      obtain ⟨range_text,step_text⟩ := cut
      obtain ⟨htext,-⟩ := splitOnce_eq_some hcut
      simp only [bind_eq_ok,parseRange_eq_ok hmax hle,Except.ok.injEq]
      constructor
      · rintro ⟨_,hstep,ends,⟨s,hs,rfl,hvalid⟩,rfl⟩
        obtain ⟨step,hparse,rfl⟩ := ok_of_map hstep
        obtain ⟨num,hnum,rfl,hpos,hfits⟩ := parseStep_eq_ok.mp hparse
        refine ⟨⟨s,some num⟩,?_,⟨⟨hvalid,hpos⟩,?_⟩,rfl⟩
        · rw [htext,show range_text = s.text from hs,hnum]
          rfl
        · simpa [Item.Oversized,Item.stepValue] using hfits
      · rintro ⟨i,rfl,⟨⟨hvalid,hpos⟩,hfits⟩,rfl⟩
        rw [splitOnce_item] at hcut
        obtain ⟨num,hnum,hpair⟩ := Option.map_eq_some_iff.mp hcut
        obtain ⟨rfl,rfl⟩ := Prod.mk.inj hpair
        have hvalue : i.stepValue = num.value := by simp [Item.stepValue,hnum]
        rw [Item.Oversized,hvalue,not_lt] at hfits
        rw [hvalue] at hpos
        refine ⟨(i.span.text,num.value),?_,_,⟨i.span,rfl,rfl,hvalid⟩,?_⟩
        · rw [parseStep_eq_ok.mpr ⟨num,rfl,rfl,hpos,hfits⟩]
          rfl
        · rw [Item.set,hvalue]

theorem parseParts_eq_ok (hmax : max ≤ u8Max) (hle : min ≤ max) {mask mask' : Nat}
    {parts : List (List Char)} :
    parts.foldlM (parsePart text field min max) mask = .ok mask' ↔
      ∃ items : List Item, parts = items.map Item.text ∧ (∀ i ∈ items, i.Taken min max) ∧
        mask' = items.foldl (Item.set min max) mask := by
  induction parts generalizing mask with
  | nil =>
    simp only [foldlM_nil,pure,Except.pure,Except.ok.injEq]
    constructor
    · rintro rfl
      exact ⟨[],rfl,by simp,rfl⟩
    · rintro ⟨items,hitems,-,rfl⟩
      rw [map_eq_nil_iff.mp hitems.symm]
      rfl
  | cons part rest ih =>
    simp only [foldlM_cons,bind_eq_ok,parsePart_eq_ok hmax hle,ih]
    constructor
    · rintro ⟨_,⟨i,rfl,hi,rfl⟩,items,rfl,hitems,rfl⟩
      exact ⟨i :: items,rfl,by simpa using ⟨hi,hitems⟩,rfl⟩
    · rintro ⟨items,hitems,htaken,rfl⟩
      cases items with
      | nil => simp at hitems
      | cons i items =>
        obtain ⟨hpart,hrest⟩ := List.cons.inj hitems
        exact ⟨_,⟨i,hpart,htaken i (by simp),rfl⟩,items,hrest,fun j hj => htaken j (by simp [hj]),rfl⟩

theorem Item.set_testBit (hmax : max < u8Max) {i : Item} (h : i.Valid min max) (mask v : Nat) :
    (i.set min max mask).testBit v ↔ mask.testBit v ∨ i.Denotes min max v := by
  have hlast : (i.span.ends min max).2 < u8Max := Nat.lt_of_le_of_lt h.1.2.1 hmax
  exact setSteps_testBit h.2 hlast (Nat.le_refl _) mask v

theorem foldl_set_testBit (hmax : max < u8Max) {items : List Item} (h : ∀ i ∈ items, i.Valid min max)
    (mask v : Nat) :
    (items.foldl (Item.set min max) mask).testBit v ↔
      mask.testBit v ∨ FieldDenotes min max items v := by
  induction items generalizing mask with
  | nil => simp [FieldDenotes]
  | cons i items ih =>
    rw [foldl_cons,ih (fun j hj => h j (by simp [hj])),Item.set_testBit hmax (h i (by simp))]
    simp [FieldDenotes,or_assoc]

theorem parseField_eq_ok (hmax : max < u8Max) (hle : min ≤ max) {mask : Nat} :
    parseField text field min max = .ok mask ↔
      ∃ items : List Item, items ≠ [] ∧ text = fieldText items ∧ (∀ i ∈ items, i.Taken min max) ∧
        ∀ v, mask.testBit v ↔ FieldDenotes min max items v := by
  simp only [parseField,bind_eq_ok,parseParts_eq_ok (Nat.le_of_lt hmax) hle]
  constructor
  · rintro ⟨_,⟨items,hparts,htaken,rfl⟩,h⟩
    split_ifs at h with hzero
    obtain rfl := Except.ok.inj h
    refine ⟨items,?_,?_,htaken,?_⟩
    · rintro rfl
      exact splitOn_ne_nil ',' text hparts
    · rw [fieldText,← hparts,intercalate_splitOn]
    · intro v
      simpa using foldl_set_testBit hmax (fun i hi => (htaken i hi).1) 0 v
  · rintro ⟨items,hne,rfl,htaken,hbits⟩
    have hset := foldl_set_testBit hmax (fun i hi => (htaken i hi).1) 0
    refine ⟨_,⟨items,splitOn_fieldText hne,htaken,rfl⟩,?_⟩
    have hmask : items.foldl (Item.set min max) 0 = mask := by
      refine Nat.eq_of_testBit_eq ?_
      intro v
      rw [Bool.eq_iff_iff,hset v,hbits v]
      simp
    have hpos : mask ≠ 0 := by
      rintro rfl
      obtain ⟨i,rest,rfl⟩ := exists_cons_of_ne_nil hne
      have hfirst := (hbits (i.span.ends min max).1).mpr
        ⟨i,by simp,0,by simp,(htaken i (by simp)).1.1.2.2⟩
      simp at hfirst
    rw [hmask,if_neg hpos]

end

theorem fieldDenotes_le {min max v : Nat} (h : ∀ i ∈ items, i.Valid min max)
    (hv : FieldDenotes min max items v) : v ≤ max := by
  obtain ⟨i,hi,k,-,hle⟩ := hv
  exact Nat.le_trans hle (h i hi).1.2.1

theorem bitSet_maskBits (width mask v : Nat) :
    bitSet (maskBits width mask) v ↔ v < 64 ∧ v < width ∧ mask.testBit v := by
  simp only [bitSet,maskBits,Nat.testBit_and,Nat.testBit_two_pow_sub_one,Bool.and_eq_true,
    decide_eq_true_eq]
  tauto

theorem parseDayOfWeek_eq_ok {text : List Char} {mask : Nat} :
    parseDayOfWeek text = .ok mask ↔
      ∃ items : List Item, items ≠ [] ∧ text = fieldText items ∧ (∀ i ∈ items, i.Taken 0 7) ∧
        ∀ v, mask.testBit v ↔
          v < 7 ∧ (FieldDenotes 0 7 items v ∨ v = 0 ∧ FieldDenotes 0 7 items 7) := by
  have hfold : ∀ m v : Nat, (((m &&& 0x7f) ||| ((m >>> 7) &&& 1)) &&& 0x7f).testBit v ↔
      v < 7 ∧ (m.testBit v ∨ v = 0 ∧ m.testBit 7) := by
    intro m v
    rw [show 0x7f = 2^7-1 from rfl,show (m >>> 7) &&& 1 = (m >>> 7) &&& (2^1-1) from rfl]
    simp only [Nat.testBit_and,Nat.testBit_or,Nat.testBit_shiftRight,Nat.testBit_two_pow_sub_one,
      Bool.and_eq_true,Bool.or_eq_true,decide_eq_true_eq]
    by_cases hv : v = 0
    · subst hv
      simp
    · have hge : ¬v < 1 := by omega
      simp only [hge,hv,and_false,false_and,or_false]
      constructor
      · rintro ⟨⟨hbit,hlt⟩,-⟩
        exact ⟨hlt,hbit⟩
      · rintro ⟨hlt,hbit⟩
        exact ⟨⟨hbit,hlt⟩,hlt⟩
  simp only [parseDayOfWeek,bind_eq_ok,@parseField_eq_ok "day-of-week" text 0 7 (by decide)
    (by decide)]
  constructor
  · rintro ⟨m,⟨items,hne,htext,htaken,hbits⟩,h⟩
    obtain rfl := Except.ok.inj h
    refine ⟨items,hne,htext,htaken,?_⟩
    intro v
    rw [hfold,hbits v,hbits 7]
  · rintro ⟨items,hne,htext,htaken,hbits⟩
    have hset := @foldl_set_testBit 0 7 (by decide) _ (fun i hi => (htaken i hi).1) 0
    simp only [Nat.zero_testBit,Bool.false_eq_true,false_or] at hset
    refine ⟨items.foldl (Item.set 0 7) 0,⟨items,hne,htext,htaken,hset⟩,?_⟩
    rw [Except.ok.injEq]
    refine Nat.eq_of_testBit_eq ?_
    intro v
    rw [Bool.eq_iff_iff,hfold,hbits v,hset v,hset 7]

variable {s : String}

theorem reads_unique {x y : Spelling} (hx : x.Reads s) (hy : y.Reads s) : x = y := by
  have htexts := hx.texts.symm.trans hy.texts
  simp only [Spelling.texts,map_cons,map_nil,List.cons.injEq,and_true] at htexts
  obtain ⟨h₁,h₂,h₃,h₄,h₅⟩ := htexts
  cases x
  cases y
  simp only [Spelling.mk.injEq]
  exact ⟨fieldText_inj hx.minute.1 hy.minute.1 h₁,fieldText_inj hx.hour.1 hy.hour.1 h₂,
    fieldText_inj hx.day_of_month.1 hy.day_of_month.1 h₃,fieldText_inj hx.month.1 hy.month.1 h₄,
    fieldText_inj hx.day_of_week.1 hy.day_of_week.1 h₅⟩

theorem parse_ok {expr : CronExpr} (h : CronExpr.parse s = .ok expr) :
    ∃ x : Spelling, x.Reads s ∧ ¬x.Oversized ∧ expr.Means x := by
  unfold CronExpr.parse at h
  split at h
  · rename_i minute hour day_of_month month day_of_week hfields
    simp only [bind_eq_ok] at h
    obtain ⟨m₁,h₁,m₂,h₂,m₃,h₃,m₄,h₄,m₅,h₅,h⟩ := h
    obtain ⟨x₁,hn₁,rfl,ht₁,hb₁⟩ := (parseField_eq_ok (by decide) (by decide)).mp h₁
    obtain ⟨x₂,hn₂,rfl,ht₂,hb₂⟩ := (parseField_eq_ok (by decide) (by decide)).mp h₂
    obtain ⟨x₃,hn₃,rfl,ht₃,hb₃⟩ := (parseField_eq_ok (by decide) (by decide)).mp h₃
    obtain ⟨x₄,hn₄,rfl,ht₄,hb₄⟩ := (parseField_eq_ok (by decide) (by decide)).mp h₄
    obtain ⟨x₅,hn₅,rfl,ht₅,hb₅⟩ := parseDayOfWeek_eq_ok.mp h₅
    obtain rfl := Except.ok.inj h
    refine ⟨⟨x₁,x₂,x₃,x₄,x₅⟩,⟨hfields,⟨hn₁,fun i hi => (ht₁ i hi).1⟩,⟨hn₂,fun i hi => (ht₂ i hi).1⟩,
      ⟨hn₃,fun i hi => (ht₃ i hi).1⟩,⟨hn₄,fun i hi => (ht₄ i hi).1⟩,⟨hn₅,fun i hi => (ht₅ i hi).1⟩⟩,
      ?_,?_⟩
    · rintro ⟨i,hi,hover⟩
      simp only [Spelling.items,mem_append] at hi
      rcases hi with (((hi | hi) | hi) | hi) | hi
      · exact (ht₁ i hi).2 hover
      · exact (ht₂ i hi).2 hover
      · exact (ht₃ i hi).2 hover
      · exact (ht₄ i hi).2 hover
      · exact (ht₅ i hi).2 hover
    · have hmask : ∀ {width m lo hi : Nat} {items : List Item}, hi < width → hi < 64 →
          (∀ i ∈ items, i.Taken lo hi) → (∀ v, m.testBit v ↔ FieldDenotes lo hi items v) →
          ∀ v, bitSet (maskBits width m) v ↔ FieldDenotes lo hi items v := by
        intro width m lo hi items hwidth hroom htaken hbits v
        rw [bitSet_maskBits,hbits v]
        constructor
        · exact fun h => h.2.2
        · intro h
          have hle := fieldDenotes_le (fun i hi => (htaken i hi).1) h
          exact ⟨by omega,by omega,h⟩
      refine ⟨?_,hmask (by decide) (by decide) ht₂ hb₂,hmask (by decide) (by decide) ht₃ hb₃,
        hmask (by decide) (by decide) ht₄ hb₄,?_⟩
      · intro v
        rw [bitSet,Bool.and_eq_true,decide_eq_true_eq,hb₁ v]
        constructor
        · exact fun h => h.2
        · intro h
          have hle := fieldDenotes_le (fun i hi => (ht₁ i hi).1) h
          exact ⟨by omega,h⟩
      · intro v
        rw [bitSet_maskBits,hb₅ v]
        constructor
        · exact fun h => h.2.2
        · exact fun h => ⟨by omega,by omega,h⟩
  · cases h

theorem parse_accepts {x : Spelling} (hx : x.Reads s) (hfits : ¬x.Oversized) :
    ∃ expr, CronExpr.parse s = .ok expr := by
  have htaken : ∀ {lo hi : Nat} {items : List Item}, Spelling.FieldValid lo hi items →
      (∀ i ∈ items, i ∈ x.items) → ∀ i ∈ items, i.Taken lo hi :=
    fun hvalid hsub i hi => ⟨hvalid.2 i hi,fun hover => hfits ⟨i,hsub i hi,hover⟩⟩
  have hfield : ∀ {lo hi : Nat} {items : List Item} (field : String), hi < u8Max → lo ≤ hi →
      Spelling.FieldValid lo hi items → (∀ i ∈ items, i ∈ x.items) →
      ∃ mask, parseField (fieldText items) field lo hi = .ok mask := by
    intro lo hi items field hmax hle hvalid hsub
    have hset := foldl_set_testBit hmax hvalid.2 0
    simp only [Nat.zero_testBit,Bool.false_eq_true,false_or] at hset
    exact ⟨_,(parseField_eq_ok hmax hle).mpr ⟨items,hvalid.1,rfl,htaken hvalid hsub,hset⟩⟩
  obtain ⟨m₁,h₁⟩ := hfield "minute" (by decide) (by decide) hx.minute (by simp [Spelling.items]; tauto)
  obtain ⟨m₂,h₂⟩ := hfield "hour" (by decide) (by decide) hx.hour (by simp [Spelling.items]; tauto)
  obtain ⟨m₃,h₃⟩ := hfield "day-of-month" (by decide) (by decide) hx.day_of_month
    (by simp [Spelling.items]; tauto)
  obtain ⟨m₄,h₄⟩ := hfield "month" (by decide) (by decide) hx.month (by simp [Spelling.items]; tauto)
  obtain ⟨m₅,h₅⟩ := hfield "day-of-week" (by decide) (by decide) hx.day_of_week
    (by simp [Spelling.items]; tauto)
  unfold CronExpr.parse
  rw [hx.texts]
  simp only [Spelling.texts,map_cons,map_nil]
  simp only [bind_eq_ok,h₁,h₂,h₃,h₄,parseDayOfWeek,h₅,Except.ok.injEq,exists_eq_left']
  exact ⟨_,rfl⟩

def ParsesAsDocumented (s : String) : Prop :=
  ((∃ expr, CronExpr.parse s = .ok expr) ↔ ∃ x : Spelling, x.Reads s ∧ x.Documented) ∧
    ∀ expr, CronExpr.parse s = .ok expr → ∀ x : Spelling, x.Reads s → x.Documented → expr.Means x

/-- The parser keeps to the documented grammar on a text that has no spelling at
all, and on one whose spelling is documented exactly when its steps fit. -/
theorem parses_as_documented_iff (s : String) :
    ParsesAsDocumented s ↔ ∀ x : Spelling, x.Reads s → (x.Documented ↔ ¬x.Oversized) := by
  constructor
  · rintro ⟨haccept,-⟩ x hx
    constructor
    · intro hdoc
      obtain ⟨expr,hexpr⟩ := haccept.mpr ⟨x,hx,hdoc⟩
      obtain ⟨y,hy,hfits,-⟩ := parse_ok hexpr
      rwa [reads_unique hx hy]
    · intro hfits
      obtain ⟨y,hy,hdoc⟩ := haccept.mp (parse_accepts hx hfits)
      rwa [reads_unique hx hy]
  · intro h
    refine ⟨⟨?_,?_⟩,?_⟩
    · rintro ⟨expr,hexpr⟩
      obtain ⟨x,hx,hfits,-⟩ := parse_ok hexpr
      exact ⟨x,hx,(h x hx).mpr hfits⟩
    · rintro ⟨x,hx,hdoc⟩
      exact parse_accepts hx ((h x hx).mp hdoc)
    · intro expr hexpr x hx _
      obtain ⟨y,hy,-,hmeans⟩ := parse_ok hexpr
      rwa [reads_unique hx hy]

def signedFive : Spelling :=
  ⟨[⟨.lone ⟨true,['5'],by decide⟩,none⟩],[⟨.every,none⟩],[⟨.every,none⟩],[⟨.every,none⟩],[⟨.every,none⟩]⟩

def wideStep : Spelling :=
  ⟨[⟨.every,some ⟨false,['3','0','0'],by decide⟩⟩],[⟨.every,none⟩],[⟨.every,none⟩],[⟨.every,none⟩],
    [⟨.every,none⟩]⟩

/-- A sign is taken that the grammar does not have, and a step refused that it
has. -/
theorem sign_taken_wide_step_refused :
    (CronExpr.parse "+5 * * * *").isOk = true ∧
    (¬∃ x : Spelling, x.Reads "+5 * * * *" ∧ x.Documented) ∧
    (wideStep.Reads "*/300 * * * *" ∧ wideStep.Documented) ∧
    (CronExpr.parse "*/300 * * * *").isOk = false := by
  have hsigned : signedFive.Reads "+5 * * * *" :=
    ⟨by decide,by decide,by decide,by decide,by decide,by decide⟩
  have hwide : wideStep.Reads "*/300 * * * *" :=
    ⟨by decide,by decide,by decide,by decide,by decide,by decide⟩
  refine ⟨by decide,?_,⟨hwide,?_⟩,by decide⟩
  · rintro ⟨x,hx,hdoc⟩
    obtain rfl := reads_unique hx hsigned
    exact absurd (hdoc ⟨.lone ⟨true,['5'],by decide⟩,none⟩ (by decide)).1 (by simp [Span.Signless])
  · intro i hi
    simp [wideStep,Spelling.items] at hi
    rcases hi with rfl | rfl
    · simp [Item.Documented,Span.Signless]
    · simp [Item.Documented,Span.Signless]

end ProjectOS.Sched
