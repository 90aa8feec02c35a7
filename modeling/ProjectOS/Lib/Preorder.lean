import Mathlib.Algebra.Ring.Nat
import Mathlib.Data.List.Nodup
import Mathlib.Logic.Relation

/-! The items of a tree in pre-order, down to a depth bound. The tree is given by
the items and the children of each node, and need not be finite. -/

namespace ProjectOS.Lib
open List
open Relation (ReflTransGen)

section
variable {α β : Type} (items : α → List β) (children : α → List α)

def preorder : Nat → α → List β
  | 0, a => items a
  | n+1, a => items a ++ (children a).flatMap (preorder n)

def CutOff : Nat → α → Prop
  | 0, a => children a ≠ []
  | n+1, a => ∃ b ∈ children a, CutOff n b

def nodeCount : Nat → α → Nat
  | 0, _ => 1
  | n+1, a => 1+((children a).map (nodeCount n)).sum

abbrev Below (a b : α) : Prop := ReflTransGen (fun a b => b ∈ children a) a b

variable {items children}

theorem below_of_mem_preorder {n : Nat} {a : α} {x : β} (h : x ∈ preorder items children n a) :
    ∃ b, Below children a b ∧ x ∈ items b := by
  induction n generalizing a with
  | zero => exact ⟨a,.refl,h⟩
  | succ n ih =>
    rw [preorder] at h
    rcases mem_append.mp h with h | h
    · exact ⟨a,.refl,h⟩
    · obtain ⟨b,hb,hx⟩ := mem_flatMap.mp h
      obtain ⟨c,hc,hx⟩ := ih hx
      exact ⟨c,.head hb hc,hx⟩

theorem mem_preorder {n : Nat} {a : α} (hcut : ¬ CutOff children n a) {x : β} :
    x ∈ preorder items children n a ↔ ∃ b, Below children a b ∧ x ∈ items b := by
  refine ⟨below_of_mem_preorder,?_⟩
  rintro ⟨b,hb,hx⟩
  induction n generalizing a with
  | zero =>
    rcases hb.cases_head with rfl | ⟨c,hc,_⟩
    · exact hx
    · exact absurd (ne_nil_of_mem hc) hcut
  | succ n ih =>
    rw [preorder]
    rcases hb.cases_head with rfl | ⟨c,hc,hbelow⟩
    · exact mem_append_left _ hx
    · exact mem_append_right _ (mem_flatMap.mpr
        ⟨c,hc,ih (fun h => hcut ⟨c,hc,h⟩) hbelow⟩)

/-- Each child has one parent and stands one level below it; no child and no item
stands twice. -/
structure Branching (items : α → List β) (children : α → List α) (parent : α → α)
    (depth : α → Nat) (owner : β → α) : Prop where
  parent_eq : ∀ a, ∀ b ∈ children a, parent b = a
  depth_eq : ∀ a, ∀ b ∈ children a, depth b = depth a+1
  owner_eq : ∀ a, ∀ x ∈ items a, owner x = a
  children_nodup : ∀ a, (children a).Nodup
  items_nodup : ∀ a, (items a).Nodup

variable {parent : α → α} {depth : α → Nat} {owner : β → α}

section
variable (h : Branching items children parent depth owner)
include h

theorem Branching.depth_le {a b : α} (hab : Below children a b) : depth a ≤ depth b := by
  induction hab with
  | refl => exact le_refl _
  | tail _ hstep ih =>
    have hdepth := h.depth_eq _ _ hstep
    omega

theorem Branching.below_unique {a b c : α}
    (hac : Below children a c) (hbc : Below children b c) (hdepth : depth a = depth b) : a = b := by
  induction hac generalizing b with
  | refl =>
    rcases hbc.cases_tail with heq | ⟨d,hbd,hda⟩
    · exact heq
    · have hle := h.depth_le hbd
      have hstep := h.depth_eq _ _ hda
      omega
  | tail had hstep ih =>
    rcases hbc.cases_tail with rfl | ⟨d,hbd,hdc⟩
    · have hle := h.depth_le had
      have hnext := h.depth_eq _ _ hstep
      omega
    · have hsame := (h.parent_eq _ _ hstep).symm.trans (h.parent_eq _ _ hdc)
      exact ih (hsame ▸ hbd) hdepth

theorem Branching.preorder_nodup (n : Nat) (a : α) : (preorder items children n a).Nodup := by
  have hown : ∀ {m : Nat} {b : α} {x : β}, x ∈ preorder items children m b →
      Below children b (owner x) := by
    intro m b x hx
    obtain ⟨c,hc,hmem⟩ := below_of_mem_preorder hx
    rw [h.owner_eq c x hmem]
    exact hc
  induction n generalizing a with
  | zero => exact h.items_nodup a
  | succ n ih =>
    rw [preorder,nodup_append']
    refine ⟨h.items_nodup a,nodup_flatMap.mpr ⟨fun b _ => ih b,?_⟩,?_⟩
    · refine (h.children_nodup a).pairwise_of_forall_ne fun b hb c hc hne => ?_
      intro x hxb hxc
      refine hne (h.below_unique (hown hxb) (hown hxc) ?_)
      rw [h.depth_eq a b hb,h.depth_eq a c hc]
    · intro x hx hbelow
      obtain ⟨b,hb,hxb⟩ := mem_flatMap.mp hbelow
      have hle := h.depth_le (hown hxb)
      rw [h.owner_eq a x hx,h.depth_eq a b hb] at hle
      omega

end

end
end ProjectOS.Lib
