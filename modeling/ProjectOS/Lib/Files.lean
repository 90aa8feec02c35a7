import Mathlib.Logic.Function.Basic

/-! Files under names. A name stands for an inode, a handle writes to an inode
at its own offset, and either may outlive the other. -/

namespace ProjectOS.Lib

structure Handle where
  ino : Nat
  offset : Nat
  deriving DecidableEq

structure Files (π : Type) where
  entries : π → Option Nat
  data : Nat → List UInt8
  next : Nat

def overwrite (text : List UInt8) (offset : Nat) (bytes : List UInt8) : List UInt8 :=
  text.take offset ++ List.replicate (offset-text.length) 0 ++ bytes ++
    text.drop (offset+bytes.length)

theorem overwrite_end (text bytes : List UInt8) :
    overwrite text text.length bytes = text ++ bytes := by
  simp [overwrite]

namespace Files
variable {π : Type}

def empty : Files π := ⟨fun _ => none,fun _ => [],0⟩

def write (d : Files π) (f : Handle) (bytes : List UInt8) : Handle × Files π :=
  (⟨f.ino,f.offset+bytes.length⟩,
    { d with data := Function.update d.data f.ino (overwrite (d.data f.ino) f.offset bytes) })

/-- No two names share a file, and new files are new. -/
structure Sound (d : Files π) : Prop where
  single : ∀ p q ino, d.entries p = some ino → d.entries q = some ino → p = q
  made : ∀ p ino, d.entries p = some ino → ino < d.next

/-- The handle is of the file at the path, and of no other. -/
structure Owns (d : Files π) (f : Handle) (p : π) : Prop where
  only : ∀ q, d.entries q = some f.ino → q = p
  made : f.ino < d.next

theorem empty_sound : Sound (empty : Files π) := ⟨nofun,nofun⟩

variable {d : Files π} {f : Handle}

theorem Sound.write (h : Sound d) (bytes : List UInt8) :
    Sound (d.write f bytes).2 := ⟨h.single,h.made⟩

theorem Owns.write {g : Handle} {p : π} (h : Owns d f p) (bytes : List UInt8) :
    Owns (d.write g bytes).2 f p := ⟨h.only,h.made⟩

theorem Owns.moved {p : π} (h : Owns d f p) (bytes : List UInt8) :
    Owns (d.write f bytes).2 (d.write f bytes).1 p := ⟨h.only,h.made⟩

variable {ino : Nat}

theorem write_other {bytes : List UInt8} (h : ino ≠ f.ino) :
    (d.write f bytes).2.data ino = d.data ino := Function.update_of_ne h ..

theorem write_end (h : f.offset = (d.data f.ino).length) (bytes : List UInt8) :
    (d.write f bytes).2.data f.ino = d.data f.ino ++ bytes := by
  rw [write,h]
  simp only [Function.update_self,overwrite_end]

variable [DecidableEq π]

def create (d : Files π) (p : π) : Handle × Files π :=
  match d.entries p with
  | some ino => (⟨ino,0⟩,{ d with data := Function.update d.data ino [] })
  | none =>
    (⟨d.next,0⟩,{
      entries := Function.update d.entries p (some d.next)
      data := Function.update d.data d.next []
      next := d.next+1 })

def unlink (d : Files π) (p : π) : Files π :=
  { d with entries := Function.update d.entries p none }

def rename (d : Files π) (p q : π) : Files π :=
  match d.entries p with
  | some ino =>
    { d with entries := Function.update (Function.update d.entries p none) q (some ino) }
  | none => d

variable {d : Files π} {p q r : π} {f g : Handle}

theorem unlink_entry : (d.unlink p).entries q = if q = p then none else d.entries q := by
  simp [unlink,Function.update_apply]

theorem unlink_sub (h : (d.unlink p).entries q = some ino) : q ≠ p ∧ d.entries q = some ino := by
  rw [unlink_entry] at h
  split at h
  · cases h
  · rename_i hne
    exact ⟨hne,h⟩

theorem Sound.unlink (h : Sound d) : Sound (d.unlink p) :=
  ⟨fun _ _ _ hp hq => h.single _ _ _ (unlink_sub hp).2 (unlink_sub hq).2,
    fun _ _ hp => h.made _ _ (unlink_sub hp).2⟩

theorem Owns.unlink (h : Owns d f q) : Owns (d.unlink p) f q :=
  ⟨fun _ hq => h.only _ (unlink_sub hq).2,h.made⟩

/-- The path has an empty file, and everything else is as it was. -/
structure Created (d : Files π) (p : π) (f : Handle) (d' : Files π) : Prop where
  entry : d'.entries p = some f.ino
  emptied : d'.data f.ino = []
  offset : f.offset = 0
  other : ∀ q, q ≠ p → d'.entries q = d.entries q
  kept : ∀ ino, ino ≠ f.ino → d'.data ino = d.data ino
  next : d.next ≤ d'.next
  made : f.ino < d'.next
  source : d.entries p = some f.ino ∨ f.ino = d.next

theorem create_created (h : Sound d) (p : π) : Created d p (d.create p).1 (d.create p).2 := by
  rw [create]
  split
  · rename_i ino hino
    exact ⟨hino,by simp,rfl,fun _ _ => rfl,fun ino hne => by simp [hne],Nat.le_refl _,
      h.made _ _ hino,Or.inl hino⟩
  · exact ⟨by simp,by simp,rfl,fun q hne => by simp [hne],fun ino hne => by simp [hne],
      Nat.le_succ _,Nat.lt_succ_self _,Or.inr rfl⟩

namespace Created
variable {d' : Files π}

omit [DecidableEq π] in
theorem free (h : Created d p f d') (hsound : Sound d) (hne : q ≠ p) :
    d.entries q ≠ some f.ino := by
  intro hq
  rcases h.source with hp | hnext
  · exact hne (hsound.single _ _ _ hq hp)
  · exact Nat.lt_irrefl _ (hnext ▸ hsound.made _ _ hq)

omit [DecidableEq π] in
theorem owns (h : Created d p f d') (hsound : Sound d) : Owns d' f p := by
  refine ⟨fun q hq => ?_,h.made⟩
  by_contra hne
  exact h.free hsound hne (h.other q hne ▸ hq)

omit [DecidableEq π] in
theorem sound (h : Created d p f d') (hsound : Sound d) : Sound d' := by
  constructor
  · intro q r ino hq hr
    by_cases hqp : q = p
    · rw [hqp,h.entry] at hq
      exact hqp.trans ((h.owns hsound).only r (hr.trans hq.symm)).symm
    · by_cases hrp : r = p
      · rw [hrp,h.entry] at hr
        exact ((h.owns hsound).only q (hq.trans hr.symm)).trans hrp.symm
      · exact hsound.single _ _ _ (h.other q hqp ▸ hq) (h.other r hrp ▸ hr)
  · intro q ino hq
    by_cases hqp : q = p
    · rw [hqp,h.entry] at hq
      exact Option.some.inj hq ▸ h.made
    · exact Nat.lt_of_lt_of_le (hsound.made _ _ (h.other q hqp ▸ hq)) h.next

omit [DecidableEq π] in
theorem apart (h : Created d p f d') (hg : Owns d g q) (hne : q ≠ p) :
    g.ino ≠ f.ino ∧ Owns d' g q := by
  have hino : g.ino ≠ f.ino := by
    intro heq
    rcases h.source with hp | hnext
    · exact hne (hg.only p (heq ▸ hp)).symm
    · exact Nat.lt_irrefl _ (hnext ▸ heq ▸ hg.made)
  refine ⟨hino,fun r hr => ?_,Nat.lt_of_lt_of_le hg.made h.next⟩
  by_cases hrp : r = p
  · rw [hrp,h.entry] at hr
    exact absurd (Option.some.inj hr).symm hino
  · exact hg.only r (h.other r hrp ▸ hr)

end Created

theorem rename_entry (hp : d.entries p = some ino) :
    (d.rename p q).entries r = if r = q then some ino else if r = p then none else d.entries r := by
  rw [rename,hp]
  simp [Function.update_apply]

theorem rename_data : (d.rename p q).data = d.data ∧ (d.rename p q).next = d.next := by
  rw [rename]
  split <;> exact ⟨rfl,rfl⟩

theorem rename_sub (h : (d.rename p q).entries r = some ino) :
    d.entries r = some ino ∨ r = q ∧ d.entries p = some ino := by
  cases hp : d.entries p with
  | none =>
    rw [rename,hp] at h
    exact Or.inl h
  | some i =>
    rw [rename_entry hp] at h
    split at h
    · rename_i hrq
      exact Or.inr ⟨hrq,h⟩
    · split at h
      · cases h
      · exact Or.inl h

theorem Sound.rename (h : Sound d) : Sound (d.rename p q) := by
  cases hp : d.entries p with
  | none =>
    rw [Files.rename,hp]
    exact h
  | some i =>
    constructor
    · intro r s ino hr hs
      rw [rename_entry hp] at hr hs
      split at hr
      · rename_i hrq
        split at hs
        · rename_i hsq
          exact hrq.trans hsq.symm
        · split at hs
          · cases hs
          · rename_i hsp
            exact absurd (h.single _ _ _ hs (hp.trans hr)) hsp
      · split at hr
        · cases hr
        · rename_i hrp
          split at hs
          · exact absurd (h.single _ _ _ hr (hp.trans hs)) hrp
          · split at hs
            · cases hs
            · exact h.single _ _ _ hr hs
    · intro r ino hr
      rw [rename_data.2]
      rcases rename_sub hr with hr | ⟨-,hr⟩
      · exact h.made _ _ hr
      · exact h.made _ _ hr

theorem Owns.rename (h : Owns d f r) (hne : p ≠ r) : Owns (d.rename p q) f r := by
  refine ⟨fun s hs => ?_,by rw [rename_data.2]; exact h.made⟩
  rcases rename_sub hs with hs | ⟨-,hs⟩
  · exact h.only _ hs
  · exact absurd (h.only _ hs) hne

end Files
end ProjectOS.Lib
