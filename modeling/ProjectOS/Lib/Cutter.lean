import Mathlib.Data.List.Basic
import Mathlib.Algebra.Ring.Nat

/-! A text that comes in pieces and is cut into blocks. The pieces are of any
length; the blocks come out the same, as long as the buffer holds. -/

namespace ProjectOS.Lib
open List

structure Cutter (α : Type) where
  cut : List α → Option (List α × List α)
  shorter : ∀ text block rest, cut text = some (block,rest) → rest.length < text.length

namespace Cutter
variable {α β ε : Type} (C : Cutter α)

def drain (read : List α → Except ε (List β)) (text : List α) : Except ε (List β × List α) :=
  match _h : C.cut text with
  | none => .ok ([],text)
  | some (block,rest) =>
    match read block with
    | .error e => .error e
    | .ok out =>
      match drain read rest with
      | .error e => .error e
      | .ok (more,left) => .ok (out ++ more,left)
termination_by text.length
decreasing_by exact C.shorter _ _ _ (by assumption)

def push (read : List α → Except ε (List β)) (bound : Nat) (overflow : ε) (buffer piece : List α) :
    Except ε (List β × List α) :=
  if bound < (buffer ++ piece).length then .error overflow else C.drain read (buffer ++ piece)

def feed (read : List α → Except ε (List β)) (bound : Nat) (overflow : ε) :
    List α → List (List α) → Except ε (List β × List α)
  | buffer, [] => .ok ([],buffer)
  | buffer, piece :: pieces =>
    match C.push read bound overflow buffer piece with
    | .error e => .error e
    | .ok (out,left) =>
      match feed read bound overflow left pieces with
      | .error e => .error e
      | .ok (more,left) => .ok (out ++ more,left)

/-- A block that is cut off once all of it is there, and not before. -/
structure Whole (written block : List α) : Prop where
  found : ∀ rest, C.cut (written ++ rest) = some (block,rest)
  waits : ∀ part rest, part ++ rest = written → rest ≠ [] → C.cut part = none

def unfinished : List Nat → Nat → Nat
  | [], n => n
  | length :: lengths, n => if n < length then n else unfinished lengths (n-length)

def Fits (bound : Nat) (lengths : List Nat) : Nat → List (List α) → Prop
  | _, [] => True
  | n, piece :: pieces =>
    unfinished lengths n + piece.length ≤ bound ∧ Fits bound lengths (n+piece.length) pieces

instance (bound : Nat) (lengths : List Nat) (n : Nat) (pieces : List (List α)) :
    Decidable (Fits bound lengths n pieces) := by
  induction pieces generalizing n with
  | nil => exact isTrue trivial
  | cons piece pieces ih =>
    have := ih (n+piece.length)
    exact inferInstanceAs (Decidable (_ ∧ _))

variable {C} {read : List α → Except ε (List β)} {bound : Nat} {overflow : ε}

theorem drain_none {text : List α} (h : C.cut text = none) : C.drain read text = .ok ([],text) := by
  rw [drain]
  split
  · rfl
  · rename_i hsome
    rw [h] at hsome
    cases hsome

theorem drain_some {text block rest : List α} {out : List β} (h : C.cut text = some (block,rest))
    (hread : read block = .ok out) : C.drain read text =
      match C.drain read rest with
      | .error e => .error e
      | .ok (more,left) => .ok (out ++ more,left) := by
  rw [drain]
  split
  · rename_i hnone
    rw [h] at hnone
    cases hnone
  · rename_i found hfound
    rw [h] at hfound
    cases hfound
    rw [hread]

theorem drain_left (hcut : ∀ text block rest, C.cut text = some (block,rest) → rest <:+ text)
    {text left : List α} {out : List β} (h : C.drain read text = .ok (out,left)) :
    left <:+ text := by
  rw [drain] at h
  split at h
  · cases h
    exact suffix_rfl
  · rename_i block rest hsome
    split at h
    · cases h
    · split at h
      · cases h
      · rename_i more left' hrest
        cases h
        exact (drain_left hcut hrest).trans (hcut _ _ _ hsome)
termination_by text.length
decreasing_by exact C.shorter _ _ _ (by assumption)

def Blocks (C : Cutter α) (read : List α → Except ε (List β)) (blocks : List (List α × List β)) :
    Prop := ∀ b ∈ blocks, ∃ block, C.Whole b.1 block ∧ read block = .ok b.2

/-- Between two pieces: the buffer begins the blocks to come and holds no whole
block. -/
structure Stands (blocks : List (List α × List β)) (buffer : List α) : Prop where
  short : ∀ b rest, blocks = b :: rest → buffer.length < b.1.length
  empty : blocks = [] → buffer = []

theorem drain_blocks {blocks : List (List α × List β)} (h : Blocks C read blocks)
    {part rest : List α} (htext : part ++ rest = (blocks.map Prod.fst).flatten)
    (hempty : C.cut [] = none) :
    ∃ done later left, blocks = done ++ later ∧
      C.drain read part = .ok ((done.map Prod.snd).flatten,left) ∧
      left ++ rest = (later.map Prod.fst).flatten ∧ Stands later left := by
  induction blocks generalizing part with
  | nil =>
    obtain ⟨rfl,rfl⟩ := append_eq_nil_iff.mp htext
    exact ⟨[],[],[],rfl,drain_none hempty,rfl,nofun,fun _ => rfl⟩
  | cons b blocks ih =>
    obtain ⟨block,hwhole,hread⟩ := h b (mem_cons_self ..)
    rw [map_cons,flatten_cons] at htext
    by_cases hlt : part.length < b.1.length
    · obtain ⟨more,hmore,-⟩ := append_eq_append_iff.mp htext |>.resolve_right fun hother => by
        obtain ⟨extra,hpart,-⟩ := hother
        rw [hpart,length_append] at hlt
        omega
      have hne : more ≠ [] := by
        rintro rfl
        rw [hmore,append_nil] at hlt
        exact Nat.lt_irrefl _ hlt
      refine ⟨[],b :: blocks,part,rfl,drain_none (hwhole.waits part more hmore.symm hne),?_,
        ?_,nofun⟩
      · rw [map_cons,flatten_cons,htext]
      · intro b' later heq
        cases heq
        exact hlt
    · obtain ⟨extra,hpart,hrest⟩ : ∃ extra, part = b.1 ++ extra ∧
          extra ++ rest = (blocks.map Prod.fst).flatten := by
        rcases append_eq_append_iff.mp htext with ⟨more,hmore,hrest⟩ | ⟨extra,hpart,hrest⟩
        · have hlength := congrArg List.length hmore
          rw [length_append] at hlength
          obtain rfl := length_eq_zero_iff.mp (show more.length = 0 by omega)
          rw [append_nil] at hmore
          exact ⟨[],by rw [hmore,append_nil],hrest⟩
        · exact ⟨extra,hpart,hrest.symm⟩
      obtain ⟨done,later,left,hblocks,hdrain,hleft,hstands⟩ :=
        ih (fun b hb => h b (mem_cons_of_mem _ hb)) hrest
      refine ⟨b :: done,later,left,by rw [hblocks,cons_append],?_,hleft,hstands⟩
      rw [hpart,drain_some (hwhole.found extra) hread,hdrain]
      rfl

theorem unfinished_behind (done later : List Nat) (n : Nat) :
    unfinished (done ++ later) (done.sum+n) = unfinished later n := by
  induction done with
  | nil => simp
  | cons length done ih =>
    rw [cons_append,unfinished,sum_cons,if_neg (by omega),← ih]
    congr 1
    omega

theorem fits_behind (done later : List Nat) (n : Nat) (pieces : List (List α)) :
    Fits bound (done ++ later) (done.sum+n) pieces ↔ Fits bound later n pieces := by
  induction pieces generalizing n with
  | nil => exact Iff.rfl
  | cons piece pieces ih => rw [Fits,Fits,unfinished_behind,Nat.add_assoc,ih]

theorem length_flatten_fst (blocks : List (List α × List β)) :
    (blocks.map Prod.fst).flatten.length = (blocks.map fun b => b.1.length).sum := by
  rw [length_flatten,map_map]
  rfl

theorem feed_blocks {blocks : List (List α × List β)} (h : Blocks C read blocks)
    (hempty : C.cut [] = none) {buffer : List α} (hstands : Stands blocks buffer)
    {pieces : List (List α)} (htext : buffer ++ pieces.flatten = (blocks.map Prod.fst).flatten) :
    (Fits bound (blocks.map fun b => b.1.length) buffer.length pieces →
        C.feed read bound overflow buffer pieces = .ok ((blocks.map Prod.snd).flatten,[])) ∧
      (¬Fits bound (blocks.map fun b => b.1.length) buffer.length pieces →
        C.feed read bound overflow buffer pieces = .error overflow) := by
  induction pieces generalizing blocks buffer with
  | nil =>
    rw [flatten_nil,append_nil] at htext
    cases blocks with
    | nil =>
      rw [hstands.empty rfl]
      exact ⟨fun _ => rfl,fun hnot => absurd trivial hnot⟩
    | cons b blocks =>
      have hlt := hstands.short b blocks rfl
      rw [htext,map_cons,flatten_cons,length_append] at hlt
      omega
  | cons piece pieces ih =>
    have hnow : unfinished (blocks.map fun b => b.1.length) buffer.length = buffer.length := by
      cases blocks with
      | nil => rw [hstands.empty rfl]; rfl
      | cons b blocks => exact if_pos (hstands.short b blocks rfl)
    rw [flatten_cons,← append_assoc] at htext
    obtain ⟨done,later,left,rfl,hdrain,hleft,hstands'⟩ := drain_blocks h htext hempty
    have hlater : Blocks C read later := fun b hb => h b (mem_append_right _ hb)
    have hgone : buffer.length+piece.length = (done.map fun b => b.1.length).sum+left.length := by
      have hlength := congrArg List.length htext
      have hlength' := congrArg List.length hleft
      rw [map_append,flatten_append,length_append,length_append,
        length_append,length_flatten_fst] at hlength
      rw [length_append] at hlength'
      omega
    rw [Fits,hnow,hgone,map_append,fits_behind,feed,push,length_append]
    obtain ⟨hfits,hover⟩ := ih hlater hstands' hleft
    constructor
    · rintro ⟨hle,hrest⟩
      rw [if_neg (by omega),hdrain]
      simp only [hfits hrest,map_append,flatten_append]
    · intro hnot
      by_cases hle : (done.map fun b => b.1.length).sum+left.length ≤ bound
      · rw [if_neg (by omega),hdrain]
        simp only [hover fun hrest => hnot ⟨by omega,hrest⟩]
      · rw [if_pos (by omega)]

end Cutter
end ProjectOS.Lib
