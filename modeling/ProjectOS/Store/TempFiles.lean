import ProjectOS.Store.Blobs

/-! Which temp files there are: those of the writers under way, and what
crashes have left. -/

namespace ProjectOS.Store
open Lib Function

def Task.holdsTemp : Task → Bool
  | .creating
  | .renamed _ _ => false
  | .dropping writer => writer.file.isSome
  | _ => true

/-- The writer holds its temporary file at the path. -/
structure Slot.Holds (s : Slot) (p : Path) : Prop where
  task : s.task.holdsTemp = true
  path : s.temp = p

/-- The answers that let a step do its work: after giving up its file `finish` fails
nowhere before the rename, and what is to be removed is removed. -/
def Slot.Unhindered (x : FileInput) (s : Slot) : Prop :=
  match s.task with
  | .syncing _ _ => x.ok = true
  | .synced _ _ => trip s.faults .casTempWritten ≠ some .failOperation
  | .removing _ _
  | .placing _ _
  | .publishing _ _
  | .dropping _ => x.ok = true
  | _ => True

instance (x : FileInput) (s : Slot) : Decidable (s.Unhindered x) := by
  rw [Slot.Unhindered]
  split <;> infer_instance

namespace World

def killed (blake3 : Bytes → Digest) (w : World) : Move → Option Nat
  | .kill pid => some pid
  | .next i x =>
    match w.slots i with
    | some s =>
      match (s.next blake3 x w.disk).2 with
      | .aborts => some s.pid
      | _ => none
    | none => none
  | _ => none

def created (w : World) : Move → Option Path
  | .next i x =>
    match w.slots i with
    | some s =>
      match s.task with
      | .creating => if x.ok then some s.temp else none
      | _ => none
    | none => none
  | _ => none

def lose (blake3 : Bytes → Digest) (w : World) (m : Move) (lost : Path → Prop) (p : Path) : Prop :=
  (∃ pid i s, w.killed blake3 m = some pid ∧ w.slots i = some s ∧ s.pid = pid ∧ s.Holds p) ∨
    lost p ∧ w.created m ≠ some p

/-- The temporary files whose writers were killed. -/
def lostAfter (blake3 : Bytes → Digest) : World → (Path → Prop) → List Move → Path → Prop
  | _, lost, [] => lost
  | w, lost, m :: moves => lostAfter blake3 (w.step blake3 m) (w.lose blake3 m lost) moves

def Abandoned (w : World) (o : Opening) : Prop :=
  match o.stage with
  | .sweeping (name :: _) =>
    starts_with name (active_process o.pid) = true ∨
      ∀ pid, (w.processes pid).isSome → starts_with name (active_process pid) = false
  | _ => True

/-- The moves that leave no temporary file behind, or take none away from its writer. -/
structure Careful (w : World) (m : Move) : Prop where
  distinct : w.Distinct m
  unhindered : ∀ i x s, m = .next i x → w.slots i = some s → Slot.Unhindered x s
  abandoned : ∀ o x s, m = .open_next o x → w.opens o = some s → w.Abandoned s

/-- Every writer is of a running process, and a temp file is there while its writer
is, or if it was lost. -/
structure Exact (w : World) (lost : Path → Prop) : Prop where
  running : ∀ i s, w.slots i = some s → (w.processes s.pid).isSome
  there : ∀ i s p, w.slots i = some s → s.Holds p → (w.disk.entries p).isSome
  known : ∀ name, (w.disk.entries [TEMP_DIRECTORY_NAME,name]).isSome →
    (∃ i s, w.slots i = some s ∧ s.Holds [TEMP_DIRECTORY_NAME,name]) ∨
      lost [TEMP_DIRECTORY_NAME,name]

variable {blake3 : Bytes → Digest} {w : World} {lost : Path → Prop}

theorem empty_exact : World.empty.Exact fun _ => False where
  running := fun i s h => by simp [empty] at h
  there := fun i s p h => by simp [empty] at h
  known := fun name h => by simp [empty,Files.empty] at h

end World

variable {d' : Files Path}

theorem Touches.other {d : Files Path} {p q : Path} {handle : Option Handle}
    (h : Touches d p handle d') (hsound : d.Sound) (hne : q ≠ p)
    (hblob : ∀ hash, blob_path hash ≠ q) : d'.entries q = d.entries q := by
  cases h with
  | nothing | written => rfl
  | created => exact (Files.create_created hsound p).other q hne
  | unlinked => rw [Files.unlink_entry,if_neg hne]
  | renamed hash =>
    cases hentry : d.entries p with
    | none => rw [Files.rename,hentry]
    | some ino =>
      rw [Files.rename_entry hentry,if_neg (Ne.symm (hblob hash)),if_neg hne]

/-- The step leaves the temporary file there exactly while its writer holds it. -/
structure Tidy (d : Files Path) (s : Slot) (d' : Files Path) (after : After) : Prop where
  held : ∀ task, after = .goes task → task.holdsTemp = true → (d'.entries s.temp).isSome
  gone : (∀ task, after = .goes task → task.holdsTemp = false) → after ≠ .aborts →
    (d'.entries s.temp).isSome →
      s.task.holdsTemp = false ∧ (d.entries s.temp).isSome
  aborts : after = .aborts → d' = d

variable {blake3 : Bytes → Digest} {d : Files Path} {s : Slot}

theorem tidy_goes {task : Task} (hentries : d'.entries = d.entries)
    (hthere : (d.entries s.temp).isSome) (hheld : task.holdsTemp = true) :
    Tidy d s d' (.goes task) :=
  ⟨fun _ _ _ => hentries ▸ hthere,
    fun hall => absurd hheld (by rw [hall task rfl]; decide),nofun⟩

variable {after : After}

theorem tidy_gone (hgone : d'.entries s.temp = none)
    (hafter : ∀ task, after = .goes task → task.holdsTemp = false) (habort : after ≠ .aborts) :
    Tidy d s d' after := by
  refine ⟨fun task htask hheld => ?_,fun _ _ hthere => ?_,fun h => absurd h habort⟩
  · rw [hafter task htask] at hheld
    cases hheld
  · rw [hgone] at hthere
    cases hthere

theorem tidy_never (hnever : s.task.holdsTemp = false)
    (hafter : ∀ task, after = .goes task → task.holdsTemp = false) :
    Tidy d s d after := by
  refine ⟨fun task htask hheld => ?_,fun _ _ hthere => ⟨hnever,hthere⟩,fun _ => rfl⟩
  rw [hafter task htask] at hheld
  cases hheld

theorem flush_entries {writer : BlobWriter} {file : Handle} {out : Bool × BlobWriter × Files Path}
    (h : Flushed d writer file out) : out.2.2.entries = d.entries := by
  cases h <;> rfl

variable {x : FileInput}

theorem next_tidy (hsound : d.Sound) (h : s.Ok blake3 d)
    (hthere : s.task.holdsTemp = true → (d.entries s.temp).isSome) (hx : s.Unhindered x) :
    Tidy d s (s.next blake3 x d).1 (s.next blake3 x d).2 := by
  obtain ⟨pid,unique,faults,content,task⟩ := s
  obtain ⟨htask,hwriter,hmine⟩ := h
  have hremoved : ∀ p : Path, (d.unlink p).entries p = none := fun p => by
    rw [Files.unlink_entry,if_pos rfl]
  cases task with
  | creating =>
    simp only [Slot.next]
    split
    · have hnew := Files.create_created hsound (temp_path pid unique)
      have hentry : ((d.create (temp_path pid unique)).2.entries (temp_path pid unique)).isSome := by
        rw [hnew.entry]
        rfl
      exact ⟨fun _ _ _ => hentry,fun hall => absurd (hall _ rfl) (by simp [Task.holdsTemp]),
        by rintro ⟨⟩⟩
    · exact tidy_never rfl (by rintro _ ⟨⟩)
  | held | failed => exact tidy_goes rfl (hthere rfl) rfl
  | appending writer pieces =>
    obtain ⟨⟨file,before,hw,-⟩,-⟩ := htask
    cases pieces with
    | nil => exact tidy_goes rfl (hthere rfl) rfl
    | cons piece pieces =>
      simp only [Slot.next]
      split
      · have hflush := flush_flushed (d := d) hw.handle x
        have hentries := flush_entries hflush
        generalize writer.flush_buffer x d = out at hflush hentries ⊢
        obtain ⟨ok,writer',d'⟩ := out
        cases ok <;> exact tidy_goes hentries (hthere rfl) rfl
      · exact tidy_goes rfl (hthere rfl) rfl
  | finishing writer =>
    obtain ⟨file,hw⟩ := htask
    simp only [Slot.next]
    have hflush := flush_flushed (d := d) hw.handle x
    have hentries := flush_entries hflush
    generalize writer.flush_buffer x d = out at hflush hentries ⊢
    cases hflush with
    | nothing hempty =>
      simp only [hw.handle]
      exact tidy_goes rfl (hthere rfl) rfl
    | wrote | failed => exact tidy_goes rfl (hthere rfl) rfl
  | syncing | placing =>
    simp only [Slot.next,if_pos (show x.ok = true from hx)]
    exact tidy_goes rfl (hthere rfl) rfl
  | synced writer hash =>
    simp only [Slot.next]
    split
    · exact ⟨by rintro _ ⟨⟩,fun _ hne => absurd rfl hne,fun _ => rfl⟩
    · rename_i hfail
      exact absurd hfail hx
    · exact tidy_goes rfl (hthere rfl) rfl
  | checking writer hash =>
    simp only [Slot.next]
    split
    · exact tidy_goes rfl (hthere rfl) rfl
    · exact tidy_goes rfl (hthere rfl) rfl
  | removing writer hash =>
    obtain ⟨hpath,-⟩ := hwriter writer rfl
    simp only [Slot.next,if_pos (show x.ok = true from hx),hpath]
    exact tidy_gone (hremoved _) (by rintro _ ⟨⟩) (by rintro ⟨⟩)
  | publishing writer hash =>
    obtain ⟨hpath,-⟩ := hwriter writer rfl
    have hentry : (d.entries writer.temp_path).isSome := hpath ▸ hthere rfl
    simp only [Slot.next,if_pos (show x.ok = true ∧ _ from ⟨hx,hentry⟩)]
    refine tidy_gone ?_ ?_ (by rintro ⟨⟩)
    · obtain ⟨ino,hino⟩ := Option.isSome_iff_exists.mp hentry
      rw [Files.rename_entry hino,if_neg (Ne.symm (temp_ne_blob _ hash)),if_pos hpath.symm]
    · rintro _ ⟨⟩
      rfl
  | renamed writer hash =>
    simp only [Slot.next]
    split
    · exact tidy_never rfl (by rintro _ ⟨⟩)
    · exact tidy_never rfl (by rintro _ ⟨⟩)
    · exact tidy_never rfl (by rintro _ ⟨⟩)
  | dropping writer =>
    obtain ⟨hpath,-⟩ := hwriter writer rfl
    simp only [Slot.next]
    split
    · rw [hpath]
      exact tidy_gone (hremoved _) (by rintro _ ⟨⟩) (by rintro ⟨⟩)
    · rename_i hnot
      refine tidy_never ?_ (by rintro _ ⟨⟩)
      cases hfile : writer.file with
      | none =>
        show writer.file.isSome = false
        rw [hfile]
        rfl
      | some file => exact absurd ⟨by rw [hfile]; rfl,hx⟩ hnot

namespace World
variable {w : World} {lost : Path → Prop} {i : Nat}

theorem Exact.replace (h : w.Exact lost) {old new : Slot} (hi : w.slots i = some old)
    (hpid : new.pid = old.pid) (hunique : new.unique = old.unique)
    (hholds : new.task.holdsTemp = old.task.holdsTemp) : (w.setSlot i (some new)).Exact lost := by
  have hsame : ∀ p, new.Holds p ↔ old.Holds p := by
    refine fun p => ⟨fun hp => ⟨hholds ▸ hp.task,?_⟩,fun hp => ⟨hholds ▸ hp.task,?_⟩⟩
    · rw [← hp.path,Slot.temp,Slot.temp,hpid,hunique]
    · rw [← hp.path,Slot.temp,Slot.temp,hpid,hunique]
  have hcases : ∀ {j t}, (w.setSlot i (some new)).slots j = some t →
      t = new ∨ w.slots j = some t := by
    intro j t hj
    simp only [setSlot,update_apply] at hj
    split at hj
    · exact Or.inl (Option.some.inj hj).symm
    · exact Or.inr hj
  refine ⟨fun j t hj => ?_,fun j t p hj hp => ?_,fun name hname => ?_⟩
  · rcases hcases hj with rfl | hj
    · exact hpid ▸ h.running i old hi
    · exact h.running j t hj
  · rcases hcases hj with rfl | hj
    · exact h.there i old p hi ((hsame p).mp hp)
    · exact h.there j t p hj hp
  · rcases h.known name hname with ⟨j,t,hj,hp⟩ | hlost
    · by_cases hji : j = i
      · subst hji
        cases hi.symm.trans hj
        exact Or.inl ⟨j,new,by simp [setSlot],(hsame _).mpr hp⟩
      · exact Or.inl ⟨j,t,by simp [setSlot,hji,hj],hp⟩
    · exact Or.inr hlost

theorem Exact.called (h : w.Exact lost) {f : Slot → BlobWriter → Slot}
    (hf : ∀ s writer, w.slots i = some s → s.task = .held writer →
      (f s writer).pid = s.pid ∧ (f s writer).unique = s.unique ∧
        (f s writer).task.holdsTemp = true) : (w.call i f).Exact lost := by
  rw [call]
  split
  · rename_i s hs
    split
    · rename_i writer htask
      obtain ⟨hpid,hunique,hholds⟩ := hf s writer hs htask
      exact h.replace hs hpid hunique (by rw [hholds,htask]; rfl)
    · exact h
  · exact h

theorem lose_kept {m : Move} {p : Path} (hp : lost p) (hcreated : w.created m ≠ some p) :
    w.lose blake3 m lost p := Or.inr ⟨hp,hcreated⟩

variable {other : Path → Prop}

theorem Exact.weaken (h : w.Exact lost) (hlost : ∀ p, lost p → other p) :
    w.Exact other :=
  ⟨h.running,h.there,fun name hname => (h.known name hname).imp_right (hlost _)⟩

theorem Exact.killed (h : w.Exact lost) (pid : Nat) :
    (w.kill pid).Exact fun p =>
      (∃ i s, w.slots i = some s ∧ s.pid = pid ∧ s.Holds p) ∨ lost p := by
  refine ⟨fun i s hs => ?_,fun i s p hs hp => ?_,fun name hname => ?_⟩
  · obtain ⟨hs',hpid⟩ := Option.filter_eq_some_iff.mp hs
    have hne : s.pid ≠ pid := by simpa using hpid
    simp only [kill,update_of_ne hne]
    exact h.running i s hs'
  · exact h.there i s p (Option.filter_eq_some_iff.mp hs).1 hp
  · rcases h.known name hname with ⟨i,s,hs,hp⟩ | hlost
    · by_cases hpid : s.pid = pid
      · exact Or.inr (Or.inl ⟨i,s,hs,hpid,hp⟩)
      · refine Or.inl ⟨i,s,Option.filter_eq_some_iff.mpr ⟨hs,?_⟩,hp⟩
        simpa using hpid
    · exact Or.inr (Or.inr hlost)

theorem Exact.moved (hok : w.Ok blake3) (h : w.Exact lost) {s : Slot} (hi : w.slots i = some s)
    {d' : Files Path}
    (hentry : ∀ q, q ≠ s.temp → (∀ hash, blob_path hash ≠ q) →
      d'.entries q = w.disk.entries q) (hlost : ∀ p, p ≠ s.temp → lost p → other p)
    (new : Option Slot) (hnew : ∀ s', new = some s' → s'.pid = s.pid ∧ s'.unique = s.unique ∧
      (s'.task.holdsTemp = true → (d'.entries s.temp).isSome))
    (hgone : (∀ s', new = some s' → s'.task.holdsTemp = false) → (d'.entries s.temp).isSome →
      s.task.holdsTemp = false ∧ (w.disk.entries s.temp).isSome ∧ (lost s.temp → other s.temp)) :
    ({ w with disk := d' }.setSlot i new).Exact other := by
  have hcases : ∀ {j t}, ({ w with disk := d' }.setSlot i new).slots j = some t →
      new = some t ∨ j ≠ i ∧ w.slots j = some t := by
    intro j t hj
    simp only [setSlot,update_apply] at hj
    split at hj
    · exact Or.inl hj
    · rename_i hji
      exact Or.inr ⟨hji,hj⟩
  -- the others are under other names
  have hother : ∀ j t, j ≠ i → w.slots j = some t → t.temp ≠ s.temp := fun j t hji hj =>
    (hok.apart j i t s hji hj hi).temp
  have hback : ∀ {j t p}, j ≠ i → w.slots j = some t → t.Holds p →
      ∃ i' s', ({ w with disk := d' }.setSlot i new).slots i' = some s' ∧ s'.Holds p := by
    intro j t p hji hj hp
    exact ⟨j,t,by simp [setSlot,hji,hj],hp⟩
  refine ⟨fun j t hj => ?_,fun j t p hj hp => ?_,fun name hname => ?_⟩
  · rcases hcases hj with ht | ⟨-,hj⟩
    · rw [(hnew t ht).1]
      exact h.running i s hi
    · exact h.running j t hj
  · rcases hcases hj with ht | ⟨hji,hj⟩
    · obtain ⟨hpid,hunique,hthere⟩ := hnew t ht
      have hp' : s.temp = p := by rw [← hp.path,Slot.temp,Slot.temp,hpid,hunique]
      exact hp' ▸ hthere hp.task
    · show (d'.entries p).isSome
      rw [hentry p (hp.path ▸ hother j t hji hj) (hp.path ▸ temp_ne_blob t)]
      exact h.there j t p hj hp
  · by_cases hne : [TEMP_DIRECTORY_NAME,name] = s.temp
    · rw [hne] at hname ⊢
      by_cases hheld : ∃ s', new = some s' ∧ s'.task.holdsTemp = true
      · obtain ⟨s',hs',hheld⟩ := hheld
        obtain ⟨hpid,hunique,-⟩ := hnew s' hs'
        refine Or.inl ⟨i,s',by simp [setSlot,hs'],hheld,?_⟩
        rw [Slot.temp,Slot.temp,hpid,hunique]
      · have hnone : ∀ s', new = some s' → s'.task.holdsTemp = false := by
          intro s' hs'
          by_contra hholds
          exact hheld ⟨s',hs',by simpa using hholds⟩
        obtain ⟨hnever,hold,hsame⟩ := hgone hnone hname
        rcases h.known name (hne ▸ hold) with ⟨j,t,hj,hp⟩ | hl
        · have hji : j ≠ i := by
            rintro rfl
            cases hi.symm.trans hj
            exact absurd hp.task (by rw [hnever]; decide)
          exact absurd (hp.path.trans hne) (hother j t hji hj)
        · exact Or.inr (hsame (hne ▸ hl))
    · have hold : (w.disk.entries [TEMP_DIRECTORY_NAME,name]).isSome := by
        rw [← hentry _ hne fun hash => blob_ne_pair hash _ _]
        exact hname
      rcases h.known name hold with ⟨j,t,hj,hp⟩ | hl
      · have hji : j ≠ i := by
          rintro rfl
          cases hi.symm.trans hj
          exact hne hp.path.symm
        exact Or.inl (hback hji hj hp)
      · exact Or.inr (hlost _ hne hl)

theorem created_next {s : Slot} {x : FileInput} (hi : w.slots i = some s) {p : Path}
    (h : w.created (.next i x) = some p) : p = s.temp ∧
      ∃ task, (s.next blake3 x w.disk).2 = .goes task ∧ task.holdsTemp = true := by
  simp only [created,hi] at h
  split at h
  · rename_i htask
    split at h
    · rename_i hx
      refine ⟨(Option.some.inj h).symm,?_⟩
      rw [Slot.next,htask]
      simp only [hx,if_true]
      exact ⟨_,rfl,rfl⟩
    · cases h
  · cases h

theorem Exact.next (hok : w.Ok blake3) (h : w.Exact lost) {i : Nat} {s : Slot} {x : FileInput}
    (hi : w.slots i = some s) (hx : s.Unhindered x) :
    (w.step blake3 (.next i x)).Exact (w.lose blake3 (.next i x) lost) := by
  have hslot := hok.slots i s hi
  have hdid := next_did x hok.sound hslot
  have htidy := next_tidy hok.sound hslot (fun hheld => h.there i s s.temp hi ⟨hheld,rfl⟩) hx
  have hmade : ∀ {p}, w.created (.next i x) = some p → p = s.temp ∧
      ∃ task, (s.next blake3 x w.disk).2 = .goes task ∧ task.holdsTemp = true := created_next hi
  have hkilled : (s.next blake3 x w.disk).2 = .aborts →
      w.killed blake3 (.next i x) = some s.pid := by
    intro habort
    simp only [World.killed,hi,habort]
  simp only [World.step,hi]
  generalize s.next blake3 x w.disk = out at hdid htidy hmade hkilled ⊢
  obtain ⟨d',after⟩ := out
  have hothers : ∀ p, p ≠ s.temp → lost p → w.lose blake3 (.next i x) lost p :=
    fun p hne hl => lose_kept hl fun hmake => hne (hmade hmake).1
  have hentry : ∀ q, q ≠ s.temp → (∀ hash, blob_path hash ≠ q) →
      d'.entries q = w.disk.entries q :=
    fun q hne hblob => hdid.touches.other hok.sound hne hblob
  cases after with
  | goes task =>
    have hgoes := h.moved hok hi hentry hothers (some { s with task := task }) (fun s' hs' => by
      cases hs'
      exact ⟨rfl,rfl,htidy.held task rfl⟩) (fun hall hthere => by
      have hfalse := hall _ rfl
      obtain ⟨hnever,hold⟩ := htidy.gone (fun t ht => by
        cases ht
        exact hfalse) (by rintro ⟨⟩) hthere
      refine ⟨hnever,hold,fun hl => lose_kept hl fun hmake => ?_⟩
      obtain ⟨-,t,ht,hheld⟩ := hmade hmake
      cases ht
      exact absurd hheld (by rw [hfalse]; decide))
    exact ⟨hgoes.running,hgoes.there,hgoes.known⟩
  | ends result =>
    have hends := h.moved hok hi hentry hothers none (by rintro _ ⟨⟩) (fun _ hthere => by
      obtain ⟨hnever,hold⟩ := htidy.gone (by rintro _ ⟨⟩) (by rintro ⟨⟩) hthere
      refine ⟨hnever,hold,fun hl => lose_kept hl fun hmake => ?_⟩
      obtain ⟨-,t,ht,-⟩ := hmade hmake
      cases ht)
    cases result <;> exact ⟨hends.running,hends.there,hends.known⟩
  | aborts =>
    cases htidy.aborts rfl
    refine (h.killed s.pid).weaken fun p hp => ?_
    rcases hp with ⟨j,t,hj,hpid,hp⟩ | hl
    · exact Or.inl ⟨s.pid,j,t,hkilled rfl,hj,hpid,hp⟩
    · refine lose_kept hl fun hmake => ?_
      obtain ⟨-,t,ht,-⟩ := hmade hmake
      cases ht

theorem Exact.swept (h : w.Exact lost) {name : String}
    (hname : ∀ pid, (w.processes pid).isSome → starts_with name (active_process pid) = false) :
    { w with disk := w.disk.unlink [TEMP_DIRECTORY_NAME,name] }.Exact lost := by
  refine ⟨h.running,fun i s p hs hp => ?_,fun other hother => ?_⟩
  · have hthere := h.there i s p hs hp
    have hne : p ≠ [TEMP_DIRECTORY_NAME,name] := by
      intro heq
      have hpath := hp.path.trans heq
      simp only [Slot.temp,temp_path,List.cons.injEq,and_true,true_and] at hpath
      have hfalse := hname s.pid (h.running i s hs)
      rw [← hpath,(starts_with_temp s.pid s.pid s.unique).mpr rfl] at hfalse
      cases hfalse
    rw [Files.unlink_entry,if_neg hne]
    exact hthere
  · obtain ⟨ino,hino⟩ := Option.isSome_iff_exists.mp hother
    exact h.known other (Option.isSome_iff_exists.mpr ⟨ino,(Files.unlink_sub hino).2⟩)

theorem Exact.step (hok : w.Ok blake3) (h : w.Exact lost) {m : Move} (hm : w.Careful m) :
    (w.step blake3 m).Exact (w.lose blake3 m lost) := by
  cases m with
  | next i x =>
    cases hi : w.slots i with
    | none =>
      simp only [World.step,hi]
      exact h.weaken fun p hp => lose_kept hp (by simp [created,hi])
    | some s => exact h.next hok hi (hm.unhindered i x s rfl hi)
  | kill pid =>
    refine (h.killed pid).weaken fun p hp => ?_
    rcases hp with ⟨j,t,hj,hpid,hp⟩ | hl
    · exact Or.inl ⟨pid,j,t,rfl,hj,hpid,hp⟩
    · exact lose_kept hl (by rintro ⟨⟩)
  | spawn pid =>
    refine Exact.weaken ?_ fun p hp => lose_kept hp (by rintro ⟨⟩)
    simp only [World.step]
    split
    · exact h
    · refine ⟨fun i s hs => ?_,h.there,h.known⟩
      simp only [update_apply]
      split
      · rfl
      · exact h.running i s hs
  | writer i pid faults =>
    refine Exact.weaken ?_ fun p hp => lose_kept hp (by rintro ⟨⟩)
    simp only [World.step]
    split
    · rename_i unique hpid hi
      refine ⟨fun j t hj => ?_,fun j t p hj hp => ?_,fun name hname => ?_⟩
      · simp only [update_apply] at hj ⊢
        split
        · rfl
        · split at hj
          · cases hj
            exact absurd rfl ‹¬_›
          · exact h.running j t hj
      · simp only [update_apply] at hj
        split at hj
        · cases hj
          exact absurd hp.task (by rintro ⟨⟩)
        · exact h.there j t p hj hp
      · rcases h.known name hname with ⟨j,t,hj,hp⟩ | hl
        · refine Or.inl ⟨j,t,?_,hp⟩
          have hji : j ≠ i := by
            rintro rfl
            cases hi.symm.trans hj
          simp only [update_apply,if_neg hji]
          exact hj
        · exact Or.inr hl
    · exact h
  | append | finish =>
    refine Exact.weaken ?_ fun p hp => lose_kept hp (by rintro ⟨⟩)
    exact h.called fun _ _ _ _ => ⟨rfl,rfl,rfl⟩
  | drop i =>
    refine Exact.weaken ?_ fun p hp => lose_kept hp (by rintro ⟨⟩)
    simp only [World.step]
    split
    · rename_i s hs
      have hslot := (hok.slots i s hs).task
      split
      · rename_i writer htask
        rw [htask] at hslot
        obtain ⟨file,hw⟩ := hslot
        refine h.replace hs rfl rfl ?_
        rw [htask]
        show writer.file.isSome = true
        rw [hw.handle]
        rfl
      · rename_i writer htask
        rw [htask] at hslot
        refine h.replace hs rfl rfl ?_
        rw [htask]
        exact hslot
      · exact h
    · exact h
  | open_store o pid =>
    refine Exact.weaken ?_ fun p hp => lose_kept hp (by rintro ⟨⟩)
    simp only [World.step]
    split
    · exact ⟨h.running,h.there,h.known⟩
    · exact h
  | open_next o x =>
    refine Exact.weaken ?_ fun p hp => lose_kept hp (by rintro ⟨⟩)
    simp only [World.step]
    split
    · rename_i s hs
      have habandoned := hm.abandoned o x s rfl hs
      suffices hdisk : { w with disk := (s.next x w.disk).1 }.Exact lost from
        ⟨hdisk.running,hdisk.there,hdisk.known⟩
      rw [Abandoned] at habandoned
      rw [Opening.next]
      split
      · exact h
      · exact h
      · exact h
      · rename_i name names hstage
        rw [hstage] at habandoned
        split
        · exact h
        · split
          · exact h
          · rename_i hforeign
            simp only
            split
            · exact h.swept (habandoned.resolve_left hforeign)
            · exact h
    · exact h

theorem Exact.run (hok : w.Ok blake3) (h : w.Exact lost) {moves : List Move}
    (hmoves : Along blake3 Careful w moves) :
    (w.run blake3 moves).Exact (lostAfter blake3 w lost moves) := by
  induction moves generalizing w lost with
  | nil => exact h
  | cons m moves ih =>
    exact ih (hok.step hmoves.1.distinct) (h.step hok hmoves.1) hmoves.2

end World

/-- In every run in which `open` removes no entry of a running process, `finish`
fails nowhere between giving up its file and the rename, and what is to be removed is
removed: a temp file is there while its writer is, and no other is there but what crashes left. -/
theorem temp_files_exact (blake3 : Bytes → Digest) (moves : List Move)
    (h : World.Along blake3 World.Careful World.empty moves) (name : String) :
    (∀ i s, (World.empty.run blake3 moves).slots i = some s →
        s.Holds [TEMP_DIRECTORY_NAME,name] →
        ((World.empty.run blake3 moves).disk.entries [TEMP_DIRECTORY_NAME,name]).isSome) ∧
      (((World.empty.run blake3 moves).disk.entries [TEMP_DIRECTORY_NAME,name]).isSome →
        (∃ i s, (World.empty.run blake3 moves).slots i = some s ∧
          s.Holds [TEMP_DIRECTORY_NAME,name]) ∨
          World.lostAfter blake3 World.empty (fun _ => False) moves [TEMP_DIRECTORY_NAME,name]) := by
  have hexact := World.empty_exact.run World.empty_ok h
  exact ⟨fun i s hs hp => hexact.there i s _ hs hp,hexact.known name⟩

/-- A process opens the store, and is killed with one blob finished and one begun. -/
def killedMoves : List Move :=
  [.spawn 7,.open_store 0 7,.open_next 0 allWell,.open_next 0 { names := ["write-6-0"] },
    .open_next 0 allWell,.writer 0 7 none,.writer 1 7 none,.next 0 allWell,.next 1 allWell,
    .append 0 [98],.next 0 allWell,.next 0 allWell,.finish 0,.next 0 allWell,.next 0 allWell,
    .next 0 allWell,.next 0 allWell,.next 0 allWell,.next 0 allWell,.next 0 allWell,.kill 7]

variable {w : World}

theorem careful_next {i : Nat}
    (h : (w.slots i).all (fun s => decide (s.Unhindered x)) = true) : w.Careful (.next i x) := by
  refine ⟨trivial,fun j y s hm hs => ?_,nofun⟩
  cases hm
  rw [hs] at h
  exact of_decide_eq_true h

theorem careful_other {m : Move} (hdistinct : w.Distinct m)
    (hnext : ∀ i x, m ≠ .next i x) (hopen : ∀ o x, m ≠ .open_next o x) : w.Careful m :=
  ⟨hdistinct,fun i x _ hm => absurd hm (hnext i x),fun o x _ hm => absurd hm (hopen o x)⟩

theorem careful_open {o : Nat} (h : ∀ s, w.opens o = some s → w.Abandoned s) :
    w.Careful (.open_next o x) := by
  refine ⟨trivial,nofun,fun o' y s hm hs => ?_⟩
  cases hm
  exact h s hs

theorem six_abandoned (pid : Nat)
    (h : (Function.update (fun _ => none) 7 (some 0) pid : Option Nat).isSome) :
    starts_with "write-6-0" (active_process pid) = false := by
  rcases eq_or_ne pid 7 with rfl | hne
  · decide
  · rw [update_of_ne hne] at h
    cases h

theorem killed_careful : World.Along readBytes256 World.Careful World.empty killedMoves := by
  refine ⟨careful_other trivial nofun nofun,careful_other trivial nofun nofun,careful_open fun s hs => ?_,
    careful_open fun s hs => ?_,careful_open fun s hs => ?_,
    careful_other (World.distinct_first fun _ => rfl) nofun nofun,
    careful_other (World.distinct_second rfl rfl rfl) nofun nofun,careful_next (by decide),
    careful_next (by decide),careful_other trivial nofun nofun,careful_next (by decide),
    careful_next (by decide),careful_other trivial nofun nofun,careful_next (by decide),
    careful_next (by decide),careful_next (by decide),careful_next (by decide),
    careful_next (by decide),careful_next (by decide),careful_next (by decide),
    careful_other trivial nofun nofun,trivial⟩
  · cases hs
    trivial
  · cases hs
    trivial
  · cases hs
    exact Or.inr six_abandoned

theorem killed_temp_files :
    ((World.empty.run readBytes256 killedMoves).disk.entries [TEMP_DIRECTORY_NAME,"write-7-0"] =
        none) ∧
      ((∃ i s, (World.empty.run readBytes256 killedMoves).slots i = some s ∧
          s.Holds [TEMP_DIRECTORY_NAME,"write-7-1"]) ∨
        World.lostAfter readBytes256 World.empty (fun _ => False) killedMoves
          [TEMP_DIRECTORY_NAME,"write-7-1"]) :=
  ⟨by decide,(temp_files_exact readBytes256 killedMoves killed_careful "write-7-1").2 (by decide)⟩

def sweptMoves : List Move :=
  [.spawn 1,.writer 0 1 none,.next 0 allWell,.spawn 2,.open_store 0 2,.open_next 0 allWell,
    .open_next 0 { names := ["write-1-0"] },.open_next 0 allWell]

def unsyncedMoves : List Move :=
  [.spawn 1,.writer 0 1 none,.next 0 allWell,.finish 0,.next 0 allWell,.next 0 { ok := false },
    .next 0 allWell]

def World.calm (blake3 : Bytes → Digest) : World → List Move → Bool
  | _, [] => true
  | w, m :: moves => (w.killed blake3 m).isNone && calm blake3 (w.step blake3 m) moves

theorem calm_lost {lost : Path → Prop} {moves : List Move} {p : Path}
    (hcalm : w.calm blake3 moves = true) (h : World.lostAfter blake3 w lost moves p) : lost p := by
  induction moves generalizing w lost with
  | nil => exact h
  | cons m moves ih =>
    rw [World.calm,Bool.and_eq_true] at hcalm
    rcases ih hcalm.2 h with ⟨pid,i,s,hkilled,-⟩ | ⟨hl,-⟩
    · rw [hkilled] at hcalm
      cases hcalm.1
    · exact hl

theorem temp_files_inexact :
    (∃ s, (World.empty.run readBytes256 sweptMoves).slots 0 = some s ∧
      s.Holds [TEMP_DIRECTORY_NAME,"write-1-0"] ∧
      (World.empty.run readBytes256 sweptMoves).disk.entries [TEMP_DIRECTORY_NAME,"write-1-0"] =
        none) ∧
    (∀ i, (World.empty.run readBytes256 unsyncedMoves).slots i = none) ∧
      ((World.empty.run readBytes256 unsyncedMoves).disk.entries
        [TEMP_DIRECTORY_NAME,"write-1-0"]).isSome ∧
      ¬World.lostAfter readBytes256 World.empty (fun _ => False) unsyncedMoves
        [TEMP_DIRECTORY_NAME,"write-1-0"] := by
  refine ⟨⟨_,rfl,⟨rfl,by decide⟩,by decide⟩,fun i => ?_,by decide,?_⟩
  · cases i <;> rfl
  · have hcalm : World.empty.calm readBytes256 unsyncedMoves = true := by decide
    exact calm_lost hcalm

end ProjectOS.Store
