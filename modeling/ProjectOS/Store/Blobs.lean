import ProjectOS.Store.Cas

/-! What the writers keep true of the directory. -/

namespace ProjectOS.Store
open Lib List Function

theorem BlobHash.to_hex_injective {a b : Digest} (h : BlobHash.to_hex a = BlobHash.to_hex b) :
    a = b := by
  have hlist := congrArg String.toList h
  simp only [BlobHash.to_hex,String.toList_ofList] at hlist
  have hsize : (2 : Nat)^256 = 16^64 := by decide
  exact BitVec.eq_of_toNat_eq (hexText_inj (hsize ▸ a.isLt) (hsize ▸ b.isLt) hlist)

theorem blob_path_injective {a b : Digest} (h : blob_path a = blob_path b) : a = b := by
  simp only [blob_path,List.cons.injEq,and_true] at h
  have hhex := congrArg String.toList h.2.2
  simp only [String.toList_ofList] at hhex
  exact BlobHash.to_hex_injective (String.toList_injective hhex)

theorem blob_ne_pair (hash : Digest) (a b : String) : blob_path hash ≠ [a,b] := by
  intro h
  have hlength := congrArg List.length h
  simp [blob_path] at hlength

theorem blob_ne_temp (hash : Digest) (pid unique : Nat) : blob_path hash ≠ temp_path pid unique :=
  blob_ne_pair hash _ _

theorem number_digits (n : Nat) : '-' ∉ (toString n).toList := by
  intro hmem
  rw [Nat.toString_eq_ofList_toDigits,String.toList_ofList] at hmem
  exact absurd (Nat.isDigit_of_mem_toDigits (by decide) (by decide) hmem) (by decide)

theorem number_inj {a b : Nat} (h : (toString a).toList = (toString b).toList) : a = b := by
  have hnum := congrArg (fun digits => Nat.ofDigitChars 10 digits 0) h
  simpa [Nat.toString_eq_ofList_toDigits] using hnum

theorem dash_inj {a b c d : List Char} (ha : '-' ∉ a) (hc : '-' ∉ c)
    (h : a ++ '-' :: b = c ++ '-' :: d) : a = c ∧ b = d := by
  induction a generalizing c with
  | nil =>
    cases c with
    | nil => exact ⟨rfl,(List.cons.inj h).2⟩
    | cons x c =>
      rw [← (List.cons.inj h).1] at hc
      exact absurd (mem_cons_self ..) hc
  | cons x a ih =>
    cases c with
    | nil =>
      rw [(List.cons.inj h).1] at ha
      exact absurd (mem_cons_self ..) ha
    | cons y c =>
      obtain ⟨hxy,hrest⟩ := List.cons.inj h
      obtain ⟨hac,hbd⟩ := ih (not_mem_of_not_mem_cons ha) (not_mem_of_not_mem_cons hc) hrest
      exact ⟨by rw [hxy,hac],hbd⟩

theorem active_process_toList (pid : Nat) (rest : List Char) :
    (active_process pid).toList ++ rest =
      "write-".toList ++ ((toString pid).toList ++ '-' :: rest) := by
  simp [active_process]

theorem temp_path_inj {p q m n : Nat} (h : temp_path p m = temp_path q n) : p = q ∧ m = n := by
  simp only [temp_path,List.cons.injEq,and_true,true_and] at h
  have hlist := congrArg String.toList h
  rw [String.toList_append,String.toList_append,active_process_toList,active_process_toList] at hlist
  obtain ⟨hpid,hnumber⟩ :=
    dash_inj (number_digits p) (number_digits q) (append_cancel_left hlist)
  exact ⟨number_inj hpid,number_inj hnumber⟩

theorem starts_with_temp (p q n : Nat) :
    starts_with (active_process q ++ toString n) (active_process p) = true ↔ p = q := by
  rw [starts_with,List.isPrefixOf_iff_prefix]
  constructor
  · rintro ⟨rest,hrest⟩
    rw [String.toList_append,active_process_toList,active_process_toList] at hrest
    exact number_inj
      (dash_inj (number_digits p) (number_digits q) (append_cancel_left hrest)).1
  · rintro rfl
    rw [String.toList_append]
    exact prefix_append _ _

variable {content : Bytes}

theorem chunksOf_spec {n : Nat} (hn : 0 < n) {fuel : Nat} (h : content.length ≤ fuel) :
    (chunksOf n fuel content).flatten = content ∧
      ∀ piece ∈ chunksOf n fuel content, piece.length ≤ n := by
  induction fuel generalizing content with
  | zero =>
    rw [length_eq_zero_iff.mp (Nat.le_zero.mp h)]
    exact ⟨rfl,nofun⟩
  | succ fuel ih =>
    rw [chunksOf]
    split
    · rename_i hnil
      rw [hnil]
      exact ⟨rfl,nofun⟩
    · rename_i hne
      have hpos := length_pos_iff.mpr hne
      have hshort : (content.drop n).length ≤ fuel := by
        rw [length_drop]
        omega
      obtain ⟨hflat,hall⟩ := ih hshort
      refine ⟨by rw [flatten_cons,hflat,take_append_drop],fun piece hpiece => ?_⟩
      rcases mem_cons.mp hpiece with rfl | hpiece
      · rw [length_take]
        exact Nat.min_le_left ..
      · exact hall piece hpiece

def Task.writer : Task → Option BlobWriter
  | .creating => none
  | .held writer
  | .failed writer
  | .appending writer _
  | .finishing writer
  | .syncing writer _
  | .synced writer _
  | .checking writer _
  | .removing writer _
  | .placing writer _
  | .publishing writer _
  | .renamed writer _
  | .dropping writer => some writer

def Task.handle : Task → Option Handle
  | .syncing _ file => some file
  | task => task.writer.bind BlobWriter.file

def Slot.temp (s : Slot) : Path := temp_path s.pid s.unique

/-- The writer's file holds what it hashed, and its buffer the rest. -/
structure Writing (d : Files Path) (writer : BlobWriter) (content : Bytes) (file : Handle) :
    Prop where
  handle : writer.file = some file
  offset : file.offset = (d.data file.ino).length
  hashed : writer.hasher = d.data file.ino
  rest : writer.hasher ++ writer.buffer = content

/-- The temporary file holds the whole content, under its hash. -/
structure Whole (blake3 : Bytes → Digest) (d : Files Path) (writer : BlobWriter) (content : Bytes)
    (hash : Digest) : Prop where
  closed : writer.file = none
  hash : hash = blake3 content
  data : ∀ ino, d.entries writer.temp_path = some ino → d.data ino = content

def Task.Ok (blake3 : Bytes → Digest) (d : Files Path) (content : Bytes) : Task → Prop
  | .creating => content = []
  | .held writer => ∃ file, Writing d writer content file
  | .failed writer => writer.file.isSome = true
  | .appending writer pieces =>
    (∃ file before, Writing d writer before file ∧ before ++ pieces.flatten = content) ∧
      ∀ piece ∈ pieces, piece.length ≤ CAS_WRITE_BUFFER_CAP
  | .finishing writer => ∃ file, Writing d writer content file
  | .syncing writer file =>
    writer.file = none ∧ writer.hasher = content ∧ d.data file.ino = content
  | .synced writer hash
  | .checking writer hash => Whole blake3 d writer content hash
  | .removing writer hash =>
    Whole blake3 d writer content hash ∧ (d.entries (blob_path hash)).isSome
  | .placing writer hash
  | .publishing writer hash => Whole blake3 d writer content hash
  | .renamed writer hash =>
    writer.file = none ∧ hash = blake3 content ∧ (d.entries (blob_path hash)).isSome
  | .dropping _ => True

structure BlobWriter.Bounded (writer : BlobWriter) : Prop where
  buffer : writer.buffer.length ≤ CAS_WRITE_BUFFER_CAP
  max : writer.buffered_len_max ≤ CAS_WRITE_BUFFER_CAP

/-- The open file is the one at the path, and at no other. -/
structure Mine (d : Files Path) (file : Handle) (p : Path) : Prop where
  owns : d.Owns file p
  entry : ∀ ino, d.entries p = some ino → ino = file.ino

/-- What one writer knows of the disk. -/
structure Slot.Ok (blake3 : Bytes → Digest) (d : Files Path) (s : Slot) : Prop where
  task : s.task.Ok blake3 d s.content
  writer : ∀ writer, s.task.writer = some writer → writer.temp_path = s.temp ∧ writer.Bounded
  mine : ∀ file, s.task.handle = some file → Mine d file s.temp

variable {file : Handle} {p : Path}

theorem Mine.moved {d : Files Path} (h : Mine d file p) (bytes : Bytes) :
    Mine (d.write file bytes).2 (d.write file bytes).1 p :=
  ⟨h.owns.moved bytes,h.entry⟩

/-- What others do is nothing to a writer: its file and every blob stay. -/
structure Quiet (d d' : Files Path) (p : Path) (handle : Option Handle) : Prop where
  entry : ∀ ino, d'.entries p = some ino → d.entries p = some ino
  named : ∀ ino, d.entries p = some ino → d'.data ino = d.data ino
  owns : ∀ file, handle = some file → d'.Owns file p
  opened : ∀ file, handle = some file → d'.data file.ino = d.data file.ino
  blobs : ∀ hash, (d.entries (blob_path hash)).isSome → (d'.entries (blob_path hash)).isSome

variable {blake3 : Bytes → Digest} {d d' : Files Path} {s : Slot} {writer : BlobWriter}

theorem Writing.quiet (h : Writing d writer content file)
    (hdata : d'.data file.ino = d.data file.ino) : Writing d' writer content file :=
  ⟨h.handle,hdata ▸ h.offset,hdata ▸ h.hashed,h.rest⟩

variable {handle : Option Handle}

theorem Whole.quiet {hash : Digest} (h : Whole blake3 d writer content hash)
    (hp : writer.temp_path = p) (hquiet : Quiet d d' p handle) :
    Whole blake3 d' writer content hash := by
  refine ⟨h.closed,h.hash,fun ino hino => ?_⟩
  rw [hp] at hino
  have hold := hquiet.entry ino hino
  rw [hquiet.named ino hold]
  exact h.data ino (hp ▸ hold)

theorem Slot.Ok.quiet (h : s.Ok blake3 d) (hquiet : Quiet d d' s.temp s.task.handle) :
    s.Ok blake3 d' := by
  obtain ⟨pid,unique,faults,content,task⟩ := s
  obtain ⟨htask,hwriter,hmine⟩ := h
  refine ⟨?_,hwriter,fun file hfile => ⟨hquiet.owns file hfile,fun ino hino => ?_⟩⟩
  swap
  · exact (hmine file hfile).entry ino (hquiet.entry ino hino)
  cases task with
  | creating | failed => exact htask
  | dropping writer => trivial
  | held | finishing =>
    obtain ⟨file,hw⟩ := htask
    exact ⟨file,hw.quiet (hquiet.opened file hw.handle)⟩
  | appending writer pieces =>
    obtain ⟨⟨file,before,hw,hcontent⟩,hpieces⟩ := htask
    exact ⟨⟨file,before,hw.quiet (hquiet.opened file hw.handle),hcontent⟩,hpieces⟩
  | syncing writer file =>
    exact ⟨htask.1,htask.2.1,(hquiet.opened file rfl).trans htask.2.2⟩
  | removing writer hash =>
    exact ⟨htask.1.quiet (hwriter writer rfl).1 hquiet,hquiet.blobs hash htask.2⟩
  | renamed writer hash => exact ⟨htask.1,htask.2.1,hquiet.blobs hash htask.2.2⟩
  | synced writer hash | checking writer hash | placing writer hash | publishing writer hash =>
    exact htask.quiet (hwriter writer rfl).1 hquiet

/-- What one step of a writer may do to the disk. -/
inductive Touches (d : Files Path) (p : Path) (handle : Option Handle) : Files Path → Prop
  | nothing : Touches d p handle d
  | created : Touches d p handle (d.create p).2
  | written (file : Handle) (bytes : Bytes) (h : handle = some file) :
    Touches d p handle (d.write file bytes).2
  | unlinked : Touches d p handle (d.unlink p)
  | renamed (hash : Digest) : Touches d p handle (d.rename p (blob_path hash))

theorem Touches.sound (h : Touches d p handle d') (hsound : d.Sound) : d'.Sound := by
  cases h with
  | nothing => exact hsound
  | created => exact (Files.create_created hsound p).sound hsound
  | written file bytes _ => exact hsound.write bytes
  | unlinked => exact hsound.unlink
  | renamed hash => exact hsound.rename

theorem Touches.kept (h : Touches d p handle d') (hsound : d.Sound)
    (hp : ∀ hash, blob_path hash ≠ p) {hash : Digest}
    (hthere : (d.entries (blob_path hash)).isSome) : (d'.entries (blob_path hash)).isSome := by
  cases h with
  | nothing | written => exact hthere
  | created =>
    rw [(Files.create_created hsound p).other _ (hp hash)]
    exact hthere
  | unlinked =>
    rw [Files.unlink_entry,if_neg (hp hash)]
    exact hthere
  | renamed other =>
    cases hentry : d.entries p with
    | none =>
      rw [Files.rename,hentry]
      exact hthere
    | some ino =>
      rw [Files.rename_entry hentry]
      split
      · rfl
      · rw [if_neg (hp hash)]
        exact hthere

theorem Touches.quiet {q : Path} {other : Option Handle} (h : Touches d p handle d')
    (hsound : d.Sound) (howns : ∀ file, handle = some file → d.Owns file p)
    (hother : ∀ file, other = some file → d.Owns file q) (hne : q ≠ p)
    (hp : ∀ hash, blob_path hash ≠ p) (hq : ∀ hash, blob_path hash ≠ q)
    (hapart : ∀ f g, handle = some f → other = some g → g.ino ≠ f.ino) : Quiet d d' q other := by
  have hkept : ∀ hash, (d.entries (blob_path hash)).isSome →
      (d'.entries (blob_path hash)).isSome := fun hash => h.kept hsound hp
  cases h with
  | nothing => exact ⟨fun _ h => h,fun _ _ => rfl,hother,fun _ _ => rfl,hkept⟩
  | created =>
    have hnew := Files.create_created hsound p
    refine ⟨fun ino h => hnew.other q hne ▸ h,fun ino h => hnew.kept ino fun heq => ?_,
      fun file h => (hnew.apart (hother file h) hne).2,
      fun file h => hnew.kept _ (hnew.apart (hother file h) hne).1,hkept⟩
    exact hnew.free hsound hne (heq ▸ h)
  | written file bytes hfile =>
    refine ⟨fun _ h => h,fun ino h => Files.write_other fun heq => ?_,
      fun g h => (hother g h).write bytes,fun g h => Files.write_other (hapart _ _ hfile h),
      hkept⟩
    exact hne ((howns file hfile).only q (heq ▸ h))
  | unlinked =>
    exact ⟨fun ino h => (Files.unlink_sub h).2,fun _ _ => rfl,fun g h => (hother g h).unlink,
      fun _ _ => rfl,hkept⟩
  | renamed hash =>
    refine ⟨fun ino h => ?_,fun _ _ => by rw [Files.rename_data.1],
      fun g h => (hother g h).rename hne.symm,fun _ _ => by rw [Files.rename_data.1],hkept⟩
    rcases Files.rename_sub h with h | ⟨h,-⟩
    · exact h
    · exact absurd h.symm (hq hash)

/-- The outcomes of a flush: nothing to do, all written, or a failed write. -/
inductive Flushed (d : Files Path) (writer : BlobWriter) (file : Handle) :
    Bool × BlobWriter × Files Path → Prop
  | nothing (h : writer.buffer = []) : Flushed d writer file (true,writer,d)
  | wrote : Flushed d writer file
      (true,
        { writer with
          hasher := writer.hasher ++ writer.buffer
          file := some (d.write file writer.buffer).1
          buffer := [] },
        (d.write file writer.buffer).2)
  | failed (bytes : Bytes) : Flushed d writer file
      (false,
        { writer with
          hasher := writer.hasher ++ writer.buffer
          file := some (d.write file bytes).1 },
        (d.write file bytes).2)

theorem flush_flushed (h : writer.file = some file) (x : FileInput) :
    Flushed d writer file (writer.flush_buffer x d) := by
  rw [BlobWriter.flush_buffer]
  split
  · rename_i hempty
    exact .nothing hempty
  · rw [h]
    simp only
    split
    · exact .wrote
    · exact .failed _

theorem Writing.wrote (h : Writing d writer content file) :
    Writing (d.write file writer.buffer).2
      { writer with
        hasher := writer.hasher ++ writer.buffer
        file := some (d.write file writer.buffer).1
        buffer := [] } content (d.write file writer.buffer).1 := by
  have hdata := Files.write_end h.offset writer.buffer
  refine ⟨rfl,?_,?_,?_⟩
  · show file.offset+writer.buffer.length = _
    rw [show (d.write file writer.buffer).1.ino = file.ino from rfl,hdata,length_append,
      h.offset]
  · show writer.hasher ++ writer.buffer = _
    rw [show (d.write file writer.buffer).1.ino = file.ino from rfl,hdata,h.hashed]
  · show writer.hasher ++ writer.buffer ++ [] = content
    rw [append_nil,h.rest]

theorem Writing.extended (h : Writing d writer content file) (piece : Bytes) :
    Writing d (writer.extend piece) (content ++ piece) file :=
  ⟨h.handle,h.offset,h.hashed,by rw [← h.rest]; exact (append_assoc ..).symm⟩

theorem BlobWriter.Bounded.extended (h : writer.Bounded) {piece : Bytes}
    (hfits : writer.buffer.length+piece.length ≤ CAS_WRITE_BUFFER_CAP) :
    (writer.extend piece).Bounded := by
  have hlength : (writer.buffer ++ piece).length ≤ CAS_WRITE_BUFFER_CAP := by
    rw [length_append]
    exact hfits
  exact ⟨hlength,Nat.max_le.mpr ⟨h.max,hlength⟩⟩

/-- What a step of one writer did, as the others see it. -/
structure Did (blake3 : Bytes → Digest) (d : Files Path) (s : Slot) (d' : Files Path)
    (after : After) : Prop where
  touches : Touches d s.temp s.task.handle d'
  goes : ∀ task, after = .goes task → { s with task := task }.Ok blake3 d'
  handle : ∀ task file, after = .goes task → task.handle = some file →
    (∃ g, s.task.handle = some g ∧ g.ino = file.ino) ∨
      ∀ q g, q ≠ s.temp → d.Owns g q → g.ino ≠ file.ino
  ends : ∀ hash, after = .ends (some hash) →
    hash = blake3 s.content ∧ (d'.entries (blob_path hash)).isSome
  blobs : ∀ hash ino, d'.entries (blob_path hash) = some ino →
    d.entries (blob_path hash) = some ino ∧ d'.data ino = d.data ino ∨
      (∃ writer, s.task = .publishing writer hash ∧ after = .goes (.renamed writer hash)) ∧
        d'.data ino = s.content ∧ hash = blake3 s.content

theorem did_nothing {after : After} (hgoes : ∀ task, after = .goes task →
      { s with task := task }.Ok blake3 d ∧
        ∀ file, task.handle = some file → ∃ g, s.task.handle = some g ∧ g.ino = file.ino)
    (hends : ∀ hash, after = .ends (some hash) →
      hash = blake3 s.content ∧ (d.entries (blob_path hash)).isSome) :
    Did blake3 d s d after :=
  ⟨.nothing,fun task h => (hgoes task h).1,fun task file h hfile => Or.inl ((hgoes task h).2 file hfile),
    hends,fun _ _ h => Or.inl ⟨h,rfl⟩⟩

theorem did_end : Did blake3 d s d (.ends none) := did_nothing nofun nofun

theorem temp_ne_blob (s : Slot) (hash : Digest) : blob_path hash ≠ s.temp :=
  blob_ne_temp hash s.pid s.unique

theorem did_write {task : Task} {bytes : Bytes} (hfile : s.task.handle = some file)
    (hmine : Mine d file s.temp) (hok : { s with task := task }.Ok blake3 (d.write file bytes).2)
    (hsame : ∀ g, task.handle = some g → g.ino = file.ino) :
    Did blake3 d s (d.write file bytes).2 (.goes task) := by
  refine ⟨.written file bytes hfile,?_,?_,nofun,?_⟩
  · intro t ht
    cases ht
    exact hok
  · intro t g ht hg
    cases ht
    exact Or.inl ⟨file,hfile,(hsame g hg).symm⟩
  · intro hash ino h
    refine Or.inl ⟨h,Files.write_other fun heq => ?_⟩
    exact temp_ne_blob s hash (hmine.owns.only _ (heq ▸ h))

theorem did_unlink {result : Option Digest} (hends : ∀ hash, result = some hash →
      hash = blake3 s.content ∧ (d.entries (blob_path hash)).isSome) :
    Did blake3 d s (d.unlink s.temp) (.ends result) := by
  refine ⟨.unlinked,nofun,nofun,?_,?_⟩
  · intro hash h
    cases h
    obtain ⟨hhash,hblob⟩ := hends hash rfl
    rw [Files.unlink_entry,if_neg (temp_ne_blob s hash)]
    exact ⟨hhash,hblob⟩
  · intro hash ino h
    exact Or.inl ⟨(Files.unlink_sub h).2,rfl⟩

section
variable {task : Task}
  (hwriter : ∀ writer, task.writer = some writer → writer.temp_path = s.temp ∧ writer.Bounded)
include hwriter

theorem did_goes (hok : task.Ok blake3 d s.content)
    (hhandle : ∀ file, task.handle = some file →
      Mine d file s.temp ∧ ∃ g, s.task.handle = some g ∧ g.ino = file.ino) :
    Did blake3 d s d (.goes task) := by
  refine did_nothing (fun t ht => ?_) nofun
  cases ht
  exact ⟨⟨hok,hwriter,fun file hfile => (hhandle file hfile).1⟩,
    fun file hfile => (hhandle file hfile).2⟩

theorem did_same (hok : task.Ok blake3 d s.content)
    (hmine : ∀ file, s.task.handle = some file → Mine d file s.temp)
    (hhandle : task.handle = s.task.handle) : Did blake3 d s d (.goes task) :=
  did_goes hwriter hok fun file hfile => by
    rw [hhandle] at hfile
    exact ⟨hmine file hfile,file,hfile,rfl⟩

theorem did_closed (hclosed : writer.file = none) (hok : task.Ok blake3 d s.content)
    (hhandle : task.handle = writer.file) : Did blake3 d s d (.goes task) :=
  did_goes hwriter hok fun file hfile => by
    rw [hhandle,hclosed] at hfile
    cases hfile

theorem did_moved {bytes : Bytes} (hfile : s.task.handle = some file)
    (hmine : Mine d file s.temp) (hok : task.Ok blake3 (d.write file bytes).2 s.content)
    (hhandle : task.handle = some (d.write file bytes).1) :
    Did blake3 d s (d.write file bytes).2 (.goes task) := by
  refine did_write hfile hmine ⟨hok,hwriter,fun g hg => ?_⟩ fun g hg => ?_
  · rw [hhandle] at hg
    cases hg
    exact hmine.moved bytes
  · rw [hhandle] at hg
    cases hg
    rfl

end

theorem next_did (x : FileInput) (hsound : d.Sound) (h : s.Ok blake3 d) :
    Did blake3 d s (s.next blake3 x d).1 (s.next blake3 x d).2 := by
  obtain ⟨pid,unique,faults,content,task⟩ := s
  obtain ⟨htask,hwriter,hmine⟩ := h
  cases task with
  | creating =>
    simp only [Slot.next]
    split
    · have hnew := Files.create_created hsound (temp_path pid unique)
      refine ⟨.created,?_,?_,nofun,?_⟩
      · intro task ht
        cases ht
        refine ⟨⟨_,rfl,by rw [hnew.emptied,hnew.offset]; rfl,hnew.emptied.symm,htask.symm⟩,?_,?_⟩
        · intro writer hw
          cases hw
          exact ⟨rfl,Nat.zero_le _,Nat.zero_le _⟩
        · intro file hfile
          cases hfile
          exact ⟨hnew.owns hsound,fun ino hino => Option.some.inj (hino.symm.trans hnew.entry)⟩
      · intro task file ht hfile
        cases ht
        cases hfile
        exact Or.inr fun q g hne hg => (hnew.apart hg hne).1
      · intro hash ino hentry
        have hne := blob_ne_temp hash pid unique
        rw [hnew.other _ hne] at hentry
        exact Or.inl ⟨hentry,hnew.kept ino fun heq => hnew.free hsound hne (heq ▸ hentry)⟩
    · exact did_end
  | held | failed => exact did_same hwriter htask hmine rfl
  | appending writer pieces =>
    obtain ⟨⟨file,before,hw,hcontent⟩,hpieces⟩ := htask
    obtain ⟨hpath,hbound⟩ := hwriter writer rfl
    have hfile := hmine file hw.handle
    cases pieces with
    | nil =>
      refine did_same hwriter ⟨file,?_⟩ hmine rfl
      rw [flatten_nil,append_nil] at hcontent
      exact hcontent ▸ hw
    | cons piece pieces =>
      have hpiece := hpieces piece (mem_cons_self ..)
      have hrest : ∀ p ∈ pieces, p.length ≤ CAS_WRITE_BUFFER_CAP :=
        fun p hp => hpieces p (mem_cons_of_mem _ hp)
      rw [flatten_cons,← append_assoc] at hcontent
      simp only [Slot.next]
      split
      · have hflush := flush_flushed (d := d) hw.handle x
        generalize writer.flush_buffer x d = r at hflush ⊢
        cases hflush with
        | nothing hempty =>
          have hfits : writer.buffer.length+piece.length ≤ CAS_WRITE_BUFFER_CAP := by
            rw [hempty,length_nil,Nat.zero_add]
            exact hpiece
          refine did_same ?_ ⟨⟨file,_,hw.extended piece,hcontent⟩,hrest⟩ hmine rfl
          rintro _ ⟨⟩
          exact ⟨hpath,hbound.extended hfits⟩
        | wrote =>
          have hempty : BlobWriter.Bounded
              { writer with
                hasher := writer.hasher ++ writer.buffer
                file := some (d.write file writer.buffer).1
                buffer := [] } := ⟨Nat.zero_le _,hbound.max⟩
          refine did_moved ?_ hw.handle hfile
            ⟨⟨_,_,hw.wrote.extended piece,hcontent⟩,hrest⟩ rfl
          rintro _ ⟨⟩
          refine ⟨hpath,hempty.extended ?_⟩
          show 0+piece.length ≤ CAS_WRITE_BUFFER_CAP
          rw [Nat.zero_add]
          exact hpiece
        | failed bytes =>
          refine did_moved ?_ hw.handle hfile rfl rfl
          rintro _ ⟨⟩
          exact ⟨hpath,hbound.buffer,hbound.max⟩
      · rename_i hfits
        refine did_same ?_ ⟨⟨file,_,hw.extended piece,hcontent⟩,hrest⟩ hmine rfl
        rintro _ ⟨⟩
        exact ⟨hpath,hbound.extended (Nat.le_of_not_lt hfits)⟩
  | finishing writer =>
    obtain ⟨file,hw⟩ := htask
    obtain ⟨hpath,hbound⟩ := hwriter writer rfl
    have hfile := hmine file hw.handle
    simp only [Slot.next]
    have hflush := flush_flushed (d := d) hw.handle x
    generalize writer.flush_buffer x d = r at hflush ⊢
    cases hflush with
    | nothing hempty =>
      have hrest : writer.hasher ++ writer.buffer = content := hw.rest
      have hcontent : writer.hasher = content := by
        rw [← hrest,hempty,append_nil]
      simp only [hw.handle]
      refine did_goes ?_ ⟨rfl,hcontent,hw.hashed.symm.trans hcontent⟩ ?_
      · rintro _ ⟨⟩
        exact ⟨hpath,hbound.buffer,hbound.max⟩
      · rintro _ ⟨⟩
        exact ⟨hfile,file,hw.handle,rfl⟩
    | wrote =>
      have hnew := hw.wrote
      have hcontent := hnew.rest
      rw [append_nil] at hcontent
      refine did_moved ?_ hw.handle hfile ⟨rfl,hcontent,hnew.hashed.symm.trans hcontent⟩ rfl
      rintro _ ⟨⟩
      exact ⟨hpath,Nat.zero_le _,hbound.max⟩
    | failed bytes =>
      refine did_moved ?_ hw.handle hfile trivial rfl
      rintro _ ⟨⟩
      exact ⟨hpath,hbound.buffer,hbound.max⟩
  | syncing writer file =>
    obtain ⟨hclosed,hhasher,hdata⟩ := htask
    obtain ⟨hpath,hbound⟩ := hwriter writer rfl
    have hfile := hmine file rfl
    simp only [Slot.next]
    split
    · refine did_closed hwriter hclosed ⟨hclosed,by rw [hhasher],fun ino hino => ?_⟩ rfl
      rw [hpath] at hino
      rw [hfile.entry ino hino]
      exact hdata
    · exact did_closed hwriter hclosed trivial rfl
  | synced writer hash =>
    simp only [Slot.next]
    split
    · exact did_nothing nofun nofun
    · exact did_closed hwriter htask.closed trivial rfl
    · exact did_closed hwriter htask.closed htask rfl
  | checking writer hash =>
    simp only [Slot.next]
    split
    · rename_i hthere
      exact did_closed hwriter htask.closed ⟨htask,hthere.2⟩ rfl
    · exact did_closed hwriter htask.closed htask rfl
  | removing writer hash =>
    obtain ⟨hpath,-⟩ := hwriter writer rfl
    have hends : ∀ other, some hash = some other →
        other = blake3 content ∧ (d.entries (blob_path other)).isSome := by
      rintro _ ⟨⟩
      exact ⟨htask.1.hash,htask.2⟩
    simp only [Slot.next,hpath]
    split
    · exact did_unlink hends
    · refine did_nothing nofun fun other h => hends other ?_
      cases h
      rfl
  | placing writer hash =>
    simp only [Slot.next]
    split
    · exact did_closed hwriter htask.closed htask rfl
    · exact did_closed hwriter htask.closed trivial rfl
  | publishing writer hash =>
    obtain ⟨hpath,hbound⟩ := hwriter writer rfl
    simp only [Slot.next]
    split
    · rename_i hthere
      obtain ⟨old,hold⟩ := Option.isSome_iff_exists.mp hthere.2
      have hblob : ((d.rename writer.temp_path (blob_path hash)).entries (blob_path hash)).isSome := by
        rw [Files.rename_entry hold,if_pos rfl]
        rfl
      refine ⟨hpath ▸ .renamed hash,?_,?_,nofun,?_⟩
      · rintro _ ⟨⟩
        exact ⟨⟨htask.closed,htask.hash,hblob⟩,hwriter,
          fun g hg => by cases htask.closed.symm.trans hg⟩
      · rintro _ g ⟨⟩ hg
        cases htask.closed.symm.trans hg
      · intro other ino hino
        rw [Files.rename_entry hold] at hino
        rw [Files.rename_data.1]
        split at hino
        · rename_i hsame
          cases blob_path_injective hsame
          cases hino
          exact Or.inr ⟨⟨writer,rfl,rfl⟩,htask.data _ hold,htask.hash⟩
        · split at hino
          · cases hino
          · exact Or.inl ⟨hino,rfl⟩
    · exact did_closed hwriter htask.closed trivial rfl
  | renamed writer hash =>
    simp only [Slot.next]
    split
    · exact did_nothing nofun nofun
    · exact did_end
    · refine did_nothing nofun fun other h => ?_
      split at h
      · cases h
        exact ⟨htask.2.1,htask.2.2⟩
      · cases h
  | dropping writer =>
    obtain ⟨hpath,-⟩ := hwriter writer rfl
    simp only [Slot.next,hpath]
    split
    · exact did_unlink nofun
    · exact did_end

/-- Two writers share neither a name nor an open file. -/
structure Apart (s t : Slot) : Prop where
  number : s.pid = t.pid → s.unique ≠ t.unique
  handle : ∀ f g, s.task.handle = some f → t.task.handle = some g → f.ino ≠ g.ino

theorem Apart.symm {s t : Slot} (h : Apart s t) : Apart t s :=
  ⟨fun hp hu => h.number hp.symm hu.symm,fun f g hf hg heq => h.handle g f hg hf heq.symm⟩

theorem Apart.temp {s t : Slot} (h : Apart s t) : s.temp ≠ t.temp := by
  intro heq
  obtain ⟨hp,hu⟩ := temp_path_inj heq
  exact h.number hp hu

/-- The invariant: every blob is whole, under its own hash, and was published. -/
structure World.Ok (blake3 : Bytes → Digest) (w : World) : Prop where
  sound : w.disk.Sound
  blobs : ∀ hash ino, w.disk.entries (blob_path hash) = some ino →
    blake3 (w.disk.data ino) = hash ∧ (w.disk.data ino,hash) ∈ w.published
  finished : ∀ content hash, (content,hash) ∈ w.finished →
    hash = blake3 content ∧ (w.disk.entries (blob_path hash)).isSome
  slots : ∀ i s, w.slots i = some s → s.Ok blake3 w.disk
  apart : ∀ i j s t, i ≠ j → w.slots i = some s → w.slots j = some t → Apart s t

namespace World
variable {w : World}

theorem empty_ok : World.empty.Ok blake3 where
  sound := Files.empty_sound
  blobs := fun hash ino h => by simp [empty,Files.empty] at h
  finished := fun content hash h => by simp [empty] at h
  slots := fun i s h => by simp [empty] at h
  apart := fun i j s t _ h => by simp [empty] at h

section
variable (h : w.Ok blake3)
include h

theorem Ok.fewer {slots : Nat → Option Slot} {processes : Nat → Option Nat}
    {opens : Nat → Option Opening} (hfewer : ∀ i s, slots i = some s → w.slots i = some s) :
    { w with slots, processes, opens }.Ok blake3 :=
  ⟨h.sound,h.blobs,h.finished,fun i s hs => h.slots i s (hfewer i s hs),
    fun i j s t hij hs ht => h.apart i j s t hij (hfewer i s hs) (hfewer j t ht)⟩

theorem Ok.moved (hsound : d'.Sound) {published : List (Bytes × Digest)}
    (hpublished : ∀ p ∈ w.published, p ∈ published)
    (hquiet : ∀ i s, w.slots i = some s → Quiet w.disk d' s.temp s.task.handle)
    (hkept : ∀ hash, (w.disk.entries (blob_path hash)).isSome → (d'.entries (blob_path hash)).isSome)
    (hblobs : ∀ hash ino, d'.entries (blob_path hash) = some ino →
      w.disk.entries (blob_path hash) = some ino ∧ d'.data ino = w.disk.data ino ∨
        blake3 (d'.data ino) = hash ∧ (d'.data ino,hash) ∈ published) :
    { w with disk := d', published }.Ok blake3 := by
  refine ⟨hsound,fun hash ino hino => ?_,fun content hash hmem => ?_,fun i s hs => ?_,h.apart⟩
  · rcases hblobs hash ino hino with ⟨hold,hdata⟩ | hnew
    · obtain ⟨hhash,hmem⟩ := h.blobs hash ino hold
      show blake3 (d'.data ino) = hash ∧ (d'.data ino,hash) ∈ published
      rw [hdata]
      exact ⟨hhash,hpublished _ hmem⟩
    · exact hnew
  · obtain ⟨hhash,hthere⟩ := h.finished content hash hmem
    exact ⟨hhash,hkept hash hthere⟩
  · exact (h.slots i s hs).quiet (hquiet i s hs)

variable {i : Nat}

theorem Ok.put (hs : s.Ok blake3 w.disk) (hapart : ∀ j t, j ≠ i → w.slots j = some t → Apart s t) :
    (w.setSlot i (some s)).Ok blake3 := by
  have hcases : ∀ {j t}, (w.setSlot i (some s)).slots j = some t →
      j = i ∧ t = s ∨ j ≠ i ∧ w.slots j = some t := by
    intro j t hj
    simp only [setSlot,update_apply] at hj
    split at hj
    · rename_i hji
      exact Or.inl ⟨hji,(Option.some.inj hj).symm⟩
    · rename_i hji
      exact Or.inr ⟨hji,hj⟩
  refine ⟨h.sound,h.blobs,h.finished,fun j t hj => ?_,fun j k t u hjk hj hk => ?_⟩
  · rcases hcases hj with ⟨-,rfl⟩ | ⟨-,hj⟩
    · exact hs
    · exact h.slots j t hj
  · rcases hcases hj with ⟨hji,hts⟩ | ⟨hji,hj'⟩
    · rcases hcases hk with ⟨hki,-⟩ | ⟨hki,hk'⟩
      · exact absurd (hji.trans hki.symm) hjk
      · exact hts ▸ hapart k u hki hk'
    · rcases hcases hk with ⟨hki,hus⟩ | ⟨hki,hk'⟩
      · exact hus ▸ (hapart j t hji hj').symm
      · exact h.apart j k t u hjk hj' hk'

theorem Ok.replace {old : Slot} (hold : w.slots i = some old)
    (hs : s.Ok blake3 w.disk) (hnumber : s.pid = old.pid ∧ s.unique = old.unique)
    (hhandle : ∀ f, s.task.handle = some f → ∃ g, old.task.handle = some g ∧ g.ino = f.ino) :
    (w.setSlot i (some s)).Ok blake3 := by
  refine h.put hs fun j t hji hj => ?_
  have hapart := h.apart i j old t (Ne.symm hji) hold hj
  refine ⟨fun hp hu => ?_,fun f g hf hg heq => ?_⟩
  · exact hapart.number (hnumber.1 ▸ hp) (hnumber.2 ▸ hu)
  · obtain ⟨f',hf',hsame⟩ := hhandle f hf
    exact hapart.handle f' g hf' hg (hsame.trans heq)

theorem Ok.without (i : Nat) : (w.setSlot i none).Ok blake3 := by
  refine h.fewer fun j t hj => ?_
  rw [update_apply] at hj
  split at hj
  · cases hj
  · exact hj

theorem Ok.killed (pid : Nat) : (w.kill pid).Ok blake3 :=
  h.fewer fun _ _ hs => (Option.filter_eq_some_iff.mp hs).1

theorem Ok.returned {content : Bytes} {hash : Digest}
    (hhash : hash = blake3 content) (hthere : (w.disk.entries (blob_path hash)).isSome) :
    { w with finished := w.finished ++ [(content,hash)] }.Ok blake3 := by
  refine ⟨h.sound,h.blobs,fun c k hmem => ?_,h.slots,h.apart⟩
  rcases mem_append.mp hmem with hmem | hmem
  · exact h.finished c k hmem
  · cases mem_singleton.mp hmem
    exact ⟨hhash,hthere⟩

theorem Ok.next {i : Nat} (hi : w.slots i = some s) (x : FileInput) :
    (w.step blake3 (.next i x)).Ok blake3 := by
  have hslot := h.slots i s hi
  have hdid := next_did x h.sound hslot
  simp only [step,hi]
  generalize s.next blake3 x w.disk = out at hdid ⊢
  obtain ⟨d',after⟩ := out
  -- what is true of everybody else, on the new directory
  have hothers : ∀ published, (∀ p ∈ w.published, p ∈ published) →
      (∀ hash ino, d'.entries (blob_path hash) = some ino →
        w.disk.entries (blob_path hash) = some ino ∧ d'.data ino = w.disk.data ino ∨
          blake3 (d'.data ino) = hash ∧ (d'.data ino,hash) ∈ published) →
      { w.setSlot i none with disk := d', published }.Ok blake3 := by
    intro published hpublished hblobs
    refine (h.without i).moved (hdid.touches.sound h.sound) hpublished ?_
      (fun hash => hdid.touches.kept h.sound (temp_ne_blob s)) hblobs
    intro j t hj
    simp only [setSlot,update_apply] at hj
    split at hj
    · cases hj
    · rename_i hji
      have hapart := h.apart i j s t (Ne.symm hji) hi hj
      exact hdid.touches.quiet h.sound (fun f hf => (hslot.mine f hf).owns)
        (fun f hf => ((h.slots j t hj).mine f hf).owns) (Ne.symm hapart.temp)
        (temp_ne_blob s) (temp_ne_blob t) fun f g hf hg => Ne.symm (hapart.handle f g hf hg)
  have hover : (∀ task, after ≠ .goes task) →
      { w.setSlot i none with disk := d' }.Ok blake3 := by
    refine fun hgone => hothers w.published (fun _ hp => hp) fun hash ino hino => ?_
    rcases hdid.blobs hash ino hino with hold | ⟨⟨writer,-,hgoes⟩,-⟩
    · exact Or.inl hold
    · exact absurd hgoes (hgone _)
  cases after with
  | goes task =>
    have hput : ∀ published, { w.setSlot i none with disk := d', published }.Ok blake3 →
        ({ w with disk := d', published }.setSlot i (some { s with task := task })).Ok blake3 := by
      intro published hrest
      have hnew := hrest.put (i := i) (hdid.goes task rfl) ?_
      · simpa [setSlot] using hnew
      · intro j t hji hj
        simp only [setSlot,update_apply,if_neg hji] at hj
        have hapart := h.apart i j s t (Ne.symm hji) hi hj
        refine ⟨hapart.number,fun f g hf hg heq => ?_⟩
        rcases hdid.handle task f rfl hf with ⟨f',hf',hsame⟩ | hfresh
        · exact hapart.handle f' g hf' hg (hsame.trans heq)
        · exact hfresh t.temp g (Ne.symm hapart.temp) ((h.slots j t hj).mine g hg).owns heq.symm
    refine hput (w.published ++ s.publishes task) (hothers _ ?_ ?_)
    · exact fun p hp => mem_append_left _ hp
    · intro hash ino hino
      rcases hdid.blobs hash ino hino with ⟨hold,hdata⟩ | ⟨⟨writer,htask,hgoes⟩,hdata,hhash⟩
      · exact Or.inl ⟨hold,hdata⟩
      · cases hgoes
        have hpair : s.publishes (.renamed writer hash) = [(s.content,hash)] := by
          simp only [Slot.publishes,htask]
        refine Or.inr ⟨hhash ▸ congrArg blake3 hdata,mem_append_right _ ?_⟩
        rw [hpair]
        exact mem_singleton.mpr (congrArg (·,hash) hdata)
  | ends result =>
    have hrest := hover nofun
    cases result with
    | none => exact hrest
    | some hash =>
      obtain ⟨hhash,hthere⟩ := hdid.ends hash rfl
      exact hrest.returned hhash hthere
  | aborts =>
    refine (hover nofun).fewer fun j t hj => ?_
    obtain ⟨hj',hpid⟩ := Option.filter_eq_some_iff.mp hj
    have hji : j ≠ i := by
      rintro rfl
      cases hi.symm.trans hj'
      simp at hpid
    simp only [setSlot,update_apply,if_neg hji]
    exact hj'

theorem Ok.swept {p : Path} (hp : ∀ hash, blob_path hash ≠ p) :
    { w with disk := w.disk.unlink p }.Ok blake3 := by
  have hkept : ∀ hash, (w.disk.entries (blob_path hash)).isSome →
      ((w.disk.unlink p).entries (blob_path hash)).isSome := by
    have htouches : Touches w.disk p none (w.disk.unlink p) := .unlinked
    exact fun hash => htouches.kept h.sound hp
  refine h.moved h.sound.unlink (fun _ hp => hp) (fun i s hs => ?_) hkept
    fun hash ino hino => Or.inl ⟨(Files.unlink_sub hino).2,rfl⟩
  exact ⟨fun ino hino => (Files.unlink_sub hino).2,fun _ _ => rfl,
    fun file hfile => ((h.slots i s hs).mine file hfile).owns.unlink,fun _ _ => rfl,hkept⟩

theorem Ok.called {f : Slot → BlobWriter → Slot}
    (hf : ∀ s writer, w.slots i = some s → s.task = .held writer →
      (f s writer).Ok blake3 w.disk ∧ (f s writer).pid = s.pid ∧ (f s writer).unique = s.unique ∧
        (f s writer).task.handle = writer.file) : (w.call i f).Ok blake3 := by
  rw [call]
  split
  · rename_i s hs
    split
    · rename_i writer htask
      obtain ⟨hok,hpid,hunique,hhandle⟩ := hf s writer hs htask
      refine h.replace hs hok ⟨hpid,hunique⟩ fun file hfile => ⟨file,?_,rfl⟩
      rw [htask]
      exact hhandle.symm.trans hfile
    · exact h
  · exact h

end

theorem held_ok (h : s.Ok blake3 d) {writer : BlobWriter} (htask : s.task = .held writer) :
    (∃ file, Writing d writer s.content file) ∧
      (writer.temp_path = s.temp ∧ writer.Bounded) ∧
      ∀ file, writer.file = some file → Mine d file s.temp := by
  obtain ⟨htask',hwriter,hmine⟩ := h
  rw [htask] at htask' hwriter hmine
  exact ⟨htask',hwriter writer rfl,hmine⟩

theorem Ok.step (h : w.Ok blake3) {m : Move} (hm : w.Distinct m) : (w.step blake3 m).Ok blake3 := by
  cases m with
  | next i x =>
    cases hi : w.slots i with
    | none =>
      simp only [World.step,hi]
      exact h
    | some s => exact h.next hi x
  | spawn pid =>
    simp only [World.step]
    split
    · exact h
    · exact h.fewer fun _ _ hs => hs
  | kill pid => exact h.killed pid
  | writer i pid faults =>
    simp only [World.step]
    split
    · rename_i unique hpid hi
      have hnew : (⟨pid,unique,faults,[],.creating⟩ : Slot).Ok blake3 w.disk := ⟨rfl,nofun,nofun⟩
      refine (h.put (i := i) hnew fun j t _ hj => ?_).fewer fun _ _ hs => hs
      exact ⟨fun hp hu => hm unique hpid j t hj hp.symm hu.symm,nofun⟩
    · exact h
  | append i content =>
    refine h.called fun s writer hs htask => ?_
    obtain ⟨⟨file,hw⟩,hwriter,hmine⟩ := held_ok (h.slots i s hs) htask
    obtain ⟨hflat,hall⟩ :=
      chunksOf_spec (n := CAS_WRITE_BUFFER_CAP) (by decide) (Nat.le_refl content.length)
    refine ⟨⟨⟨⟨file,_,hw,by rw [hflat]⟩,hall⟩,?_,hmine⟩,rfl,rfl,rfl⟩
    rintro _ ⟨⟩
    exact hwriter
  | finish i =>
    refine h.called fun s writer hs htask => ?_
    obtain ⟨hw,hwriter,hmine⟩ := held_ok (h.slots i s hs) htask
    refine ⟨⟨hw,?_,hmine⟩,rfl,rfl,rfl⟩
    rintro _ ⟨⟩
    exact hwriter
  | drop i =>
    simp only [World.step]
    split
    · rename_i s hs
      obtain ⟨-,hwriter,hmine⟩ := h.slots i s hs
      split
      · rename_i writer htask
        rw [htask] at hwriter hmine
        exact h.replace hs ⟨trivial,hwriter,hmine⟩ ⟨rfl,rfl⟩ fun f hf =>
          ⟨f,by rw [htask]; exact hf,rfl⟩
      · rename_i writer htask
        rw [htask] at hwriter hmine
        exact h.replace hs ⟨trivial,hwriter,hmine⟩ ⟨rfl,rfl⟩ fun f hf =>
          ⟨f,by rw [htask]; exact hf,rfl⟩
      · exact h
    · exact h
  | open_store o pid =>
    simp only [World.step]
    split
    · exact h.fewer fun _ _ hs => hs
    · exact h
  | open_next o x =>
    simp only [World.step]
    split
    · rename_i s hs
      suffices hdisk : { w with disk := (s.next x w.disk).1 }.Ok blake3 from
        hdisk.fewer fun _ _ hs => hs
      rw [Opening.next]
      split
      · exact h
      · exact h
      · exact h
      · split
        · exact h
        · split
          · exact h
          · simp only
            split
            · exact h.swept fun hash => blob_ne_pair hash _ _
            · exact h
    · exact h

theorem Ok.run (h : w.Ok blake3) {moves : List Move} (hmoves : Along blake3 Distinct w moves) :
    (w.run blake3 moves).Ok blake3 := by
  induction moves generalizing w with
  | nil => exact h
  | cons m moves ih => exact ih (h.step hmoves.1) hmoves.2

theorem finished_step (w : World) (m : Move) {p : Bytes × Digest} (h : p ∈ w.finished) :
    p ∈ (w.step blake3 m).finished := by
  cases m with
  | next i x =>
    simp only [World.step]
    split
    · rename_i s hs
      generalize (s.next blake3 x w.disk).2 = after
      cases after with
      | goes | aborts => exact h
      | ends result =>
        cases result with
        | none => exact h
        | some hash => exact mem_append_left _ h
    · exact h
  | spawn | writer | open_store | open_next =>
    simp only [World.step]
    split <;> exact h
  | kill pid => exact h
  | append | finish =>
    simp only [World.step,call]
    split
    · split <;> exact h
    · exact h
  | drop i =>
    simp only [World.step]
    split
    · split <;> exact h
    · exact h

theorem finished_run (w : World) (moves : List Move) {p : Bytes × Digest} (h : p ∈ w.finished) :
    p ∈ (w.run blake3 moves).finished := by
  induction moves generalizing w with
  | nil => exact h
  | cons m moves ih => exact ih _ (finished_step w m h)

end World

/-- In every run in which no two writers of a process share a number: every blob hashes
to its address and is the whole content of a writer that published it, what `finish`
returns is the hash of all that was appended and stays there, and no buffer is over its
bound. -/
theorem blobs_keep (blake3 : Bytes → Digest) (before after : List Move)
    (h : World.Along blake3 World.Distinct World.empty (before ++ after)) :
    (∀ hash ino, (World.empty.run blake3 (before ++ after)).disk.entries (blob_path hash) =
          some ino →
        blake3 ((World.empty.run blake3 (before ++ after)).disk.data ino) = hash ∧
          ((World.empty.run blake3 (before ++ after)).disk.data ino,hash) ∈
            (World.empty.run blake3 (before ++ after)).published) ∧
      (∀ content hash, (content,hash) ∈ (World.empty.run blake3 before).finished →
        hash = blake3 content ∧
          ((World.empty.run blake3 (before ++ after)).disk.entries (blob_path hash)).isSome) ∧
      ∀ i s writer, (World.empty.run blake3 (before ++ after)).slots i = some s →
        s.task.writer = some writer → writer.buffer.length ≤ CAS_WRITE_BUFFER_CAP ∧
          writer.buffered_len_max ≤ CAS_WRITE_BUFFER_CAP := by
  have hok := World.empty_ok.run h
  refine ⟨hok.blobs,fun content hash hmem => hok.finished content hash ?_,
    fun i s writer hs hwriter => ?_⟩
  · rw [World.run_append]
    exact World.finished_run _ after hmem
  · obtain ⟨-,hbound⟩ := (hok.slots i s hs).writer writer hwriter
    exact ⟨hbound.buffer,hbound.max⟩

def readBytes256 (bytes : Bytes) : Digest :=
  BitVec.ofNat 256 (bytes.foldl (fun n b => 256*n+b.toNat) 1)

def allWell : FileInput := {}

def oneBlob (i pid : Nat) (content : Bytes) : List Move :=
  [.writer i pid none,.next i allWell,.append i content,.next i allWell,.next i allWell,.finish i] ++
    List.replicate 7 (.next i allWell)

theorem World.distinct_first {w : World} {i pid : Nat} (h : ∀ j, w.slots j = none) :
    w.Distinct (.writer i pid none) := by
  intro unique _ j t hj
  rw [h j] at hj
  cases hj

theorem World.distinct_second {w : World} {s : Slot} (hprocess : w.processes 7 = some 1)
    (hslots : w.slots = Function.update (fun _ => none) 0 (some s)) (hs : s.unique = 0) :
    w.Distinct (.writer 1 7 none) := by
  intro unique hunique j t hj _
  rw [hslots] at hj
  rw [hprocess] at hunique
  cases hunique
  rcases eq_or_ne j 0 with rfl | hne
  · rw [update_self] at hj
    cases hj
    rw [hs]
    exact Nat.zero_ne_one
  · rw [update_of_ne hne] at hj
    cases hj

/-- Two writers of a process take turns. -/
def twoBlobs : List Move :=
  .spawn 7 :: (List.zipWith (fun a b => [a,b]) (oneBlob 0 7 [98,98]) (oneBlob 1 7 [99])).flatten

theorem two_blobs_kept :
    ((([98,98],readBytes256 [98,98]) ∈ (World.empty.run readBytes256 twoBlobs).finished) ∧
      ([99],readBytes256 [99]) ∈ (World.empty.run readBytes256 twoBlobs).finished) ∧
    ((World.empty.run readBytes256 (twoBlobs ++ [.kill 7])).disk.entries
      (blob_path (readBytes256 [98,98]))).isSome ∧
    ((World.empty.run readBytes256 (twoBlobs ++ [.kill 7])).disk.entries
      (blob_path (readBytes256 [99]))).isSome := by
  have hfinished : (([98,98],readBytes256 [98,98]) ∈
        (World.empty.run readBytes256 twoBlobs).finished) ∧
      ([99],readBytes256 [99]) ∈ (World.empty.run readBytes256 twoBlobs).finished := by decide
  have halong : World.Along readBytes256 World.Distinct World.empty (twoBlobs ++ [.kill 7]) := by
    refine ⟨trivial,World.distinct_first fun _ => rfl,World.distinct_second rfl rfl rfl,?_⟩
    repeat refine ⟨trivial,?_⟩
    exact trivial
  have hkept := (blobs_keep readBytes256 twoBlobs [.kill 7] halong).2.1
  exact ⟨hfinished,(hkept _ _ hfinished.1).2,(hkept _ _ hfinished.2).2⟩

def fruitless : List Move := [.writer 1 7 none,.next 1 { ok := false }]

theorem fruitless_run {w : World} {k : Nat} (hk : w.processes 7 = some k)
    (hfree : w.slots 1 = none) : w.run blake3 fruitless =
      { w with processes := Function.update w.processes 7 (some ((k+1) % 2^64)) } := by
  have hslots : Function.update w.slots 1 none = w.slots := by
    rw [← hfree,update_eq_self]
  simp [fruitless,World.run,World.step,hk,hfree,Slot.next,World.after,World.setSlot,hslots]

theorem fruitless_runs {w : World} {k : Nat} (hk : w.processes 7 = some k) (hlt : k < 2^64)
    (hfree : w.slots 1 = none) (n : Nat) : w.run blake3 (List.replicate n fruitless).flatten =
      { w with processes := Function.update w.processes 7 (some ((k+n) % 2^64)) } := by
  induction n with
  | zero =>
    rw [Nat.add_zero,Nat.mod_eq_of_lt hlt,← hk,update_eq_self]
    rfl
  | succ n ih =>
    have hnow : ({ w with
        processes := Function.update w.processes 7 (some ((k+n) % 2^64)) } : World).processes 7 =
          some ((k+n) % 2^64) := by simp
    rw [replicate_succ',flatten_append,World.run_append,ih,flatten_singleton,
      fruitless_run hnow hfree,update_idem,Nat.mod_add_mod]
    rfl

def firstWriter : List Move :=
  [.spawn 7,.writer 0 7 none,.next 0 allWell,.append 0 [97],.next 0 allWell,.next 0 allWell]

def secondWriter : List Move := oneBlob 1 7 [98,98] ++ [.finish 0,.next 0 allWell]

theorem number_comes_again : ∃ moves hash ino,
    (World.empty.run readBytes256 moves).disk.entries (blob_path hash) = some ino ∧
      readBytes256 ((World.empty.run readBytes256 moves).disk.data ino) ≠ hash := by
  refine ⟨firstWriter ++ (List.replicate (2^64-1) fruitless).flatten ++ secondWriter,
    readBytes256 [98,98],0,?_⟩
  have hfirst : (World.empty.run readBytes256 firstWriter).processes 7 = some 1 := rfl
  rw [World.run_append,World.run_append,fruitless_runs hfirst (by decide) rfl (2^64-1)]
  constructor
  · decide
  · decide

end ProjectOS.Store
