import Mathlib.Data.List.Perm.Subperm
import Mathlib.Data.List.Range

/-! A flat buffer of rows of one width, written row by row in any order. -/

namespace ProjectOS.Lib.Scatter
open List
variable {α : Type}

def write : Nat → List α → List α → List α
  | _,[],buffer => buffer
  | start,v :: vs,buffer => write (start+1) vs (buffer.set start v)

def rowAt (width : Nat) (buffer : List α) (i : Nat) : List α := (buffer.drop (i*width)).take width

def scatter (width : Nat) : List (Nat × List α) → List α → List α
  | [],buffer => buffer
  | row :: rows,buffer => scatter width rows (write (row.1*width) row.2 buffer)

@[simp] theorem length_write (vs : List α) (start : Nat) (buffer : List α) :
    (write start vs buffer).length = buffer.length := by
  induction vs generalizing start buffer with
  | nil => rfl
  | cons v vs ih => simp [write,ih]

@[simp] theorem length_scatter (width : Nat) (rows : List (Nat × List α)) (buffer : List α) :
    (scatter width rows buffer).length = buffer.length := by
  induction rows generalizing buffer with
  | nil => rfl
  | cons row rows ih => simp [scatter,ih]

variable {width j start i : Nat} {vs buffer : List α}

theorem getElem?_write_outside
    (h : j < start ∨ start+vs.length ≤ j) : (write start vs buffer)[j]? = buffer[j]? := by
  induction vs generalizing start buffer with
  | nil => rfl
  | cons v vs ih =>
    rw [length_cons] at h
    have htail : j < start+1 ∨ start+1+vs.length ≤ j := by omega
    rw [write,ih htail]
    exact List.getElem?_set_ne (by omega)

theorem getElem?_write_inside {k : Nat}
    (hroom : start+vs.length ≤ buffer.length) (hk : k < vs.length) :
    (write start vs buffer)[start+k]? = vs[k]? := by
  induction vs generalizing start buffer k with
  | nil => simp at hk
  | cons v vs ih =>
    rw [length_cons] at hroom hk
    rw [write]
    cases k with
    | zero =>
      rw [getElem?_write_outside (Or.inl (by omega)),Nat.add_zero,List.getElem?_set_self (by omega)]
      rfl
    | succ k =>
      have hroom' : start+1+vs.length ≤ (buffer.set start v).length := by
        rw [length_set]
        omega
      have hslot : start+(k+1) = start+1+k := by omega
      rw [hslot,ih hroom' (by omega),List.getElem?_cons_succ]

theorem getElem?_rowAt (width : Nat) (buffer : List α) (i k : Nat) :
    (rowAt width buffer i)[k]? = if k < width then buffer[i*width+k]? else none := by
  rw [rowAt,List.getElem?_take,List.getElem?_drop]

theorem rowAt_write (hvs : vs.length = width)
    (hroom : (i+1)*width ≤ buffer.length) : rowAt width (write (i*width) vs buffer) i = vs := by
  apply ext_getElem?
  intro k
  rw [getElem?_rowAt]
  rw [Nat.succ_mul] at hroom
  split
  next hk => exact getElem?_write_inside (by omega) (by omega)
  next hk => rw [List.getElem?_eq_none (by omega)]

theorem rowAt_write_ne (buffer : List α) (hvs : vs.length = width)
    (hij : i ≠ j) : rowAt width (write (i*width) vs buffer) j = rowAt width buffer j := by
  apply ext_getElem?
  intro k
  rw [getElem?_rowAt,getElem?_rowAt]
  split
  next hk =>
    apply getElem?_write_outside
    obtain h | h := Nat.lt_or_gt_of_ne hij
    · have hle : (i+1)*width ≤ j*width := Nat.mul_le_mul_right width h
      rw [Nat.succ_mul] at hle
      right
      omega
    · have hle : (j+1)*width ≤ i*width := Nat.mul_le_mul_right width h
      rw [Nat.succ_mul] at hle
      left
      omega
  next hk => rfl

variable {rows : List (Nat × List α)}

theorem rowAt_scatter_ne (buffer : List α)
    (hwidth : ∀ row ∈ rows, row.2.length = width) (hj : j ∉ rows.map Prod.fst) :
    rowAt width (scatter width rows buffer) j = rowAt width buffer j := by
  induction rows generalizing buffer with
  | nil => rfl
  | cons row rows ih =>
    rw [map_cons,mem_cons,not_or] at hj
    rw [scatter,ih _ (fun r hr => hwidth r (mem_cons_of_mem _ hr)) hj.2]
    exact rowAt_write_ne buffer (hwidth row mem_cons_self) (Ne.symm hj.1)

theorem rowAt_scatter
    (hwidth : ∀ row ∈ rows, row.2.length = width)
    (hroom : ∀ row ∈ rows, (row.1+1)*width ≤ buffer.length)
    (hnodup : (rows.map Prod.fst).Nodup) {row : Nat × List α} (hrow : row ∈ rows) :
    rowAt width (scatter width rows buffer) row.1 = row.2 := by
  induction rows generalizing buffer with
  | nil => simp at hrow
  | cons first rows ih =>
    rw [map_cons,nodup_cons] at hnodup
    have htail : ∀ r ∈ rows, r.2.length = width := fun r hr =>
      hwidth r (mem_cons_of_mem _ hr)
    rw [scatter]
    rw [mem_cons] at hrow
    obtain rfl | hrow := hrow
    · rw [rowAt_scatter_ne _ htail hnodup.1]
      exact rowAt_write (hwidth row mem_cons_self) (hroom row mem_cons_self)
    · apply ih htail _ hnodup.2 hrow
      intro r hr
      rw [length_write]
      exact hroom r (mem_cons_of_mem _ hr)

theorem perm_range_iff {places : List Nat} {count : Nat} :
    places.Perm (List.range count) ↔
      places.length = count ∧ places.Nodup ∧ ∀ i ∈ places, i < count := by
  constructor
  · intro h
    refine ⟨?_,h.nodup_iff.mpr nodup_range,?_⟩
    · rw [h.length_eq,length_range]
    · intro i hi
      exact mem_range.mp (h.mem_iff.mp hi)
  · rintro ⟨hlength,hnodup,hbound⟩
    have hsub : places ⊆ List.range count := fun i hi => mem_range.mpr (hbound i hi)
    apply (subperm_of_subset hnodup hsub).perm_of_length_le
    rw [length_range,hlength]

end ProjectOS.Lib.Scatter
