import Mathlib.Data.List.Basic
import Mathlib.Data.Nat.Basic

/-! Streams of records of one width, with nothing between them. -/

namespace ProjectOS.Lib
open List

structure FixedCode (α β : Type) where
  width : Nat
  encode : α → List β
  decode : List β → Option α
  Valid : α → Prop
  width_pos : 0 < width
  encode_length : ∀ a, (encode a).length = width
  decode_encode : ∀ a, Valid a → decode (encode a) = some a
  decode_short : ∀ letters, letters.length < width → decode letters = none

namespace FixedCode
variable {α β : Type} (c : FixedCode α β)

def records : Nat → List β → List α × List β
  | 0, stream => ([],stream)
  | rounds+1, stream =>
    match c.decode (stream.take c.width) with
    | none => ([],stream)
    | some a =>
      (a :: (records rounds (stream.drop c.width)).1,(records rounds (stream.drop c.width)).2)

theorem records_short (rounds : Nat) {stream : List β} (h : stream.length < c.width) :
    c.records rounds stream = ([],stream) := by
  cases rounds with
  | zero => rfl
  | succ rounds =>
    have hshort : (stream.take c.width).length < c.width := by
      rw [length_take]
      omega
    rw [records,c.decode_short _ hshort]

theorem records_cons {a : α} (ha : c.Valid a) (rounds : Nat) (rest : List β) :
    c.records (rounds+1) (c.encode a ++ rest) =
      (a :: (c.records rounds rest).1,(c.records rounds rest).2) := by
  have htake : (c.encode a ++ rest).take c.width = c.encode a := take_left' (c.encode_length a)
  have hdrop : (c.encode a ++ rest).drop c.width = rest := drop_left' (c.encode_length a)
  rw [records,htake,c.decode_encode a ha,hdrop]

theorem length_flatMap_encode (as : List α) : (as.flatMap c.encode).length = as.length*c.width := by
  induction as with
  | nil => simp
  | cons a as ih =>
    rw [flatMap_cons,length_append,ih,c.encode_length,length_cons,Nat.succ_mul,
      Nat.add_comm]

variable {rounds n : Nat}

theorem records_flatMap {as : List α} (has : ∀ a ∈ as, c.Valid a) {tail : List β}
    (htail : tail.length < c.width) (hrounds : as.length ≤ rounds) :
    c.records rounds (as.flatMap c.encode ++ tail) = (as,tail) := by
  induction as generalizing rounds with
  | nil => exact c.records_short rounds htail
  | cons a as ih =>
    obtain ⟨rounds,rfl⟩ : ∃ n, rounds = n+1 := ⟨rounds-1,by simp at hrounds; omega⟩
    have hrest := ih (fun b hb => has b (mem_cons_of_mem a hb))
      (Nat.le_of_succ_le_succ hrounds)
    rw [flatMap_cons,append_assoc,c.records_cons (has a mem_cons_self),hrest]

theorem take_flatMap (as : List α) (hn : n ≤ (as.flatMap c.encode).length) :
    ∃ tail, tail.length = n%c.width ∧
      (as.flatMap c.encode).take n = (as.take (n/c.width)).flatMap c.encode ++ tail := by
  induction as generalizing n with
  | nil =>
    obtain rfl : n = 0 := by simpa using hn
    exact ⟨[],by simp,by simp⟩
  | cons a as ih =>
    have hlen := c.encode_length a
    have hpos := c.width_pos
    rcases Nat.lt_or_ge n c.width with hlt | hge
    · refine ⟨(c.encode a).take n,?_,?_⟩
      · rw [length_take,Nat.mod_eq_of_lt hlt]
        omega
      · rw [Nat.div_eq_of_lt hlt,flatMap_cons,take_append_of_le_length (by omega)]
        simp
    · have hrest : n-c.width ≤ (as.flatMap c.encode).length := by
        rw [flatMap_cons,length_append] at hn
        omega
      obtain ⟨tail,htail,htake⟩ := ih hrest
      have hdiv : n/c.width = (n-c.width)/c.width+1 := by
        rw [Nat.div_eq_sub_div hpos hge]
      refine ⟨tail,by rw [htail,← Nat.mod_eq_sub_mod hge],?_⟩
      rw [hdiv,take_succ_cons,flatMap_cons,flatMap_cons,append_assoc,← htake,
        take_append,hlen,take_of_length_le (by omega)]

theorem records_take {as : List α} (has : ∀ a ∈ as, c.Valid a)
    (hn : n ≤ (as.flatMap c.encode).length) (hrounds : n/c.width ≤ rounds) :
    ∃ tail, tail.length = n%c.width ∧
      c.records rounds ((as.flatMap c.encode).take n) = (as.take (n/c.width),tail) := by
  obtain ⟨tail,htail,htake⟩ := c.take_flatMap as hn
  refine ⟨tail,htail,?_⟩
  rw [htake]
  apply c.records_flatMap (fun a ha => has a (mem_of_mem_take ha))
  · rw [htail]
    exact Nat.mod_lt n c.width_pos
  · rw [length_take]
    omega

end FixedCode
end ProjectOS.Lib
