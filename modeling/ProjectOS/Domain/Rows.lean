import ProjectOS.Lib.Table

namespace ProjectOS.Domain
open Lib

structure ApplyError where
  reason : String
  deriving DecidableEq

def requireOneChanged (table operation : String) : ApplyError :=
  ⟨s!"{table}: {operation} changed 0 rows; exactly one lifecycle row must exist"⟩

section
variable {κ ν : Type} [LinearOrder κ]

def insertRow (table : String) (t : Table κ ν) (k : κ) (v : ν) :
    Except ApplyError (Table κ ν) :=
  match t.get? k with
  | some _ => .error ⟨s!"{table}: UNIQUE constraint failed"⟩
  | none => .ok (t.put k v)

def updateOne (table operation : String) (t : Table κ ν) (k : κ) (f : ν → ν) :
    Except ApplyError (Table κ ν) :=
  match t.get? k with
  | some v => .ok (t.put k (f v))
  | none => .error (requireOneChanged table operation)

def updateOneWhenNull {γ : Type} (table : String) (t : Table κ ν) (k : κ)
    (guard : ν → Option γ) (f : ν → ν) : Except ApplyError (Table κ ν) :=
  match t.get? k with
  | some v =>
    match guard v with
    | none => .ok (t.put k (f v))
    | some _ => .error (requireOneChanged table "guarded single-assignment update")
  | none => .error (requireOneChanged table "guarded single-assignment update")

variable {table : String} {k : κ}

theorem insertRow_ok {t t' : Table κ ν} {v : ν}
    (h : insertRow table t k v = .ok t') : t.get? k = none ∧ t' = t.put k v := by
  unfold insertRow at h
  split at h
  · exact absurd h (by simp)
  · exact ⟨by assumption,by simpa using h.symm⟩

variable {f : ν → ν}

theorem updateOne_ok {operation : String} {t t' : Table κ ν}
    (h : updateOne table operation t k f = .ok t') :
    ∃ v, t.get? k = some v ∧ t' = t.put k (f v) := by
  unfold updateOne at h
  split at h
  · rename_i v hv
    exact ⟨v,hv,by simpa using h.symm⟩
  · exact absurd h (by simp)

theorem updateOneWhenNull_ok {γ : Type} {t t' : Table κ ν}
    {guard : ν → Option γ} (h : updateOneWhenNull table t k guard f = .ok t') :
    ∃ v, t.get? k = some v ∧ guard v = none ∧ t' = t.put k (f v) := by
  unfold updateOneWhenNull at h
  split at h
  · rename_i v hv
    split at h
    · exact ⟨v,hv,by assumption,by simpa using h.symm⟩
    · exact absurd h (by simp)
  · exact absurd h (by simp)

end

end ProjectOS.Domain
