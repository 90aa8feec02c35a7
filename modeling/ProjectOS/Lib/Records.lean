import Mathlib.Data.List.Infix

/-! A text cut into records by what reads it letter by letter: a record ends with
a letter, by that letter and the state before it. -/

namespace ProjectOS.Lib
open List

structure Splitter (σ α : Type) where
  start : σ
  next : σ → α → σ
  ends : σ → α → Bool

structure Cuts (σ α : Type) where
  closed : List (List α)
  part : List α
  state : σ

def Cuts.lead {σ α : Type} (ys : List α) (c : Cuts σ α) : Cuts σ α :=
  match c.closed with
  | [] => { c with part := ys ++ c.part }
  | record :: closed => { c with closed := (ys ++ record) :: closed }

namespace Splitter
variable {σ α : Type} (S : Splitter σ α)

def take (c : Cuts σ α) (a : α) : Cuts σ α :=
  if S.ends c.state a then ⟨c.closed ++ [c.part ++ [a]],[],S.next c.state a⟩
  else ⟨c.closed,c.part ++ [a],S.next c.state a⟩

def cuts (text : List α) : Cuts σ α := text.foldl S.take ⟨[],[],S.start⟩

def records (text : List α) : List (List α) := (S.cuts text).closed ++ [(S.cuts text).part]

@[simp] theorem cuts_nil : S.cuts [] = ⟨[],[],S.start⟩ := rfl

variable (text : List α)

@[simp] theorem cuts_snoc (a : α) : S.cuts (text ++ [a]) = S.take (S.cuts text) a := by
  simp [cuts]

variable (c : Cuts σ α)

theorem take_closed (a : α) :
    (S.take c a).closed = c.closed ++ if S.ends c.state a then [c.part ++ [a]] else [] := by
  unfold take
  split_ifs <;> simp

theorem take_part (a : α) : (S.take c a).part = if S.ends c.state a then [] else c.part ++ [a] := by
  unfold take
  split_ifs <;> rfl

theorem cuts_flatten : (S.cuts text).closed.flatten ++ (S.cuts text).part = text := by
  induction text using List.reverseRecOn with
  | nil => rfl
  | append_singleton text a ih =>
    rw [cuts_snoc,take]
    split_ifs
    · simpa [← append_assoc] using ih
    · simpa [← append_assoc] using ih

theorem records_flatten : (S.records text).flatten = text := by
  simpa [records] using S.cuts_flatten text

theorem closed_append (more : List α) :
    (S.cuts text).closed <+: (S.cuts (text ++ more)).closed := by
  induction more using List.reverseRecOn with
  | nil => simp
  | append_singleton more a ih =>
    rw [← append_assoc,cuts_snoc,take_closed]
    exact ih.trans (prefix_append _ _)

theorem part_append_length (more : List α) :
    (S.cuts (text ++ more)).part.length ≤ (S.cuts text).part.length+more.length := by
  induction more using List.reverseRecOn with
  | nil => simp
  | append_singleton more a ih =>
    rw [← append_assoc,cuts_snoc,take_part,length_append,length_singleton]
    split_ifs
    · exact Nat.zero_le _
    · rw [length_append,length_singleton]
      omega

theorem take_lead (ys : List α) (c : Cuts σ α) (a : α) :
    S.take (c.lead ys) a = (S.take c a).lead ys := by
  obtain ⟨closed,part,state⟩ := c
  by_cases hend : S.ends state a
  · cases closed <;> simp [Cuts.lead,take,hend]
  · cases closed <;> simp [Cuts.lead,take,hend]

theorem cuts_lead {ys : List α} (h : S.cuts ys = ⟨[],ys,S.start⟩) (text : List α) :
    S.cuts (ys ++ text) = (S.cuts text).lead ys := by
  induction text using List.reverseRecOn with
  | nil => simp [h,Cuts.lead]
  | append_singleton text a ih => rw [← append_assoc,cuts_snoc,ih,take_lead,cuts_snoc]

end Splitter

namespace Cuts
variable {σ α : Type} (ys : List α) (c : Cuts σ α)

theorem lead_part_of_closed (h : c.closed ≠ []) : (c.lead ys).part = c.part := by
  obtain ⟨closed,part,state⟩ := c
  cases closed with
  | nil => exact absurd rfl h
  | cons record closed => rfl

theorem lead_part_length : c.part.length ≤ (c.lead ys).part.length := by
  obtain ⟨closed,part,state⟩ := c
  cases closed <;> simp [lead]

@[simp] theorem lead_closed_nil : (c.lead ys).closed = [] ↔ c.closed = [] := by
  obtain ⟨closed,part,state⟩ := c
  cases closed <;> simp [lead]

end Cuts
end ProjectOS.Lib
