import ProjectOS.Lib.OsPaths
import ProjectOS.Lib.Preorder
import ProjectOS.Lib.Replay
import ProjectOS.Gateway.Sse
import ProjectOS.Ingest.Log

/-! Intake of a directory: which files a batch import covers, in which order, and
whether it says so when it leaves some out. -/

namespace ProjectOS.Ingest
open Lib List
open Gateway (fromUtf8Lossy)

def intakeFileCountMax : Nat := 2000
def intakeDepthMax : Nat := 8

inductive FileType where
  | file
  | directory
  | symlink
  | other
  deriving DecidableEq

structure DirEntry where
  file_name : OsName
  file_type : Except String FileType

structure DirTree where
  read_dir : OsPath → Except String (List (Except String DirEntry))
  distinct : ∀ directory entries, read_dir directory = .ok entries →
    ((entries.filterMap Except.toOption).map DirEntry.file_name).Nodup

def isSkippedName (name : String) : Bool :=
  ['.'].isPrefixOf name.toList || ['.','p','o','s'].isSuffixOf name.toList

structure Listing where
  files : List OsPath
  directories : List OsPath
  skipped : Nat

def Listing.skip (listing : Listing) : Listing :=
  { listing with skipped := satAdd32 listing.skipped 1 }

def readEntry (directory : OsPath) (listing : Listing) :
    Except String DirEntry → Except IngestError Listing
  | .error fault => .error (.io "read an intake directory entry" fault)
  | .ok entry =>
    if isSkippedName (fromUtf8Lossy entry.file_name) then .ok listing.skip
    else
      match entry.file_type with
      | .error fault => .error (.io "read an intake entry type" fault)
      | .ok .symlink => .ok listing.skip
      | .ok .directory =>
        .ok { listing with directories := listing.directories ++ [directory ++ [entry.file_name]] }
      | .ok .file => .ok { listing with files := listing.files ++ [directory ++ [entry.file_name]] }
      | .ok .other => .ok listing.skip

def Listing.sort (listing : Listing) : Listing :=
  { listing with
    files := listing.files.insertionSort pathBefore
    directories := listing.directories.insertionSort pathBefore }

def readDirectory (t : DirTree) (directory : OsPath) : Except IngestError Listing :=
  match t.read_dir directory with
  | .error fault => .error (.io "read an intake directory" fault)
  | .ok entries => (entries.foldlM (readEntry directory) ⟨[],[],0⟩).map Listing.sort

structure IntakePlan where
  files : List OsPath
  skipped_count : Nat
  truncated : Bool

def IntakePlan.empty : IntakePlan := ⟨[],0,false⟩

def addFiles (plan : IntakePlan) : List OsPath → IntakePlan × Bool
  | [] => (plan,false)
  | file :: rest =>
    if intakeFileCountMax ≤ plan.files.length then ({ plan with truncated := true },true)
    else addFiles { plan with files := plan.files ++ [file] } rest

def walkLoop (t : DirTree) : Nat → List (OsPath × Nat) → IntakePlan →
    Option (Except IngestError IntakePlan)
  | 0, _, _ => none
  | _+1, [], plan => some (.ok plan)
  | fuel+1, (directory,depth) :: stack, plan =>
    match readDirectory t directory with
    | .error e => some (.error e)
    | .ok listing =>
      let counted := { plan with skipped_count := satAdd32 plan.skipped_count listing.skipped }
      let added := addFiles counted listing.files
      if added.2 then some (.ok added.1)
      else if intakeDepthMax < depth+1 then
        walkLoop t fuel stack
          { added.1 with truncated := added.1.truncated || !listing.directories.isEmpty }
      else walkLoop t fuel (listing.directories.map (fun child => (child,depth+1)) ++ stack) added.1

def walk (t : DirTree) (fuel : Nat) : Option (Except IngestError IntakePlan) :=
  walkLoop t fuel [([],0)] .empty

def entriesOf (t : DirTree) (directory : OsPath) : List DirEntry :=
  ((t.read_dir directory).toOption.getD []).filterMap Except.toOption

def DirEntry.kept (type : FileType) (entry : DirEntry) : Bool :=
  !isSkippedName (fromUtf8Lossy entry.file_name) && decide (entry.file_type.toOption = some type)

def pathsOf (type : FileType) (t : DirTree) (directory : OsPath) : List OsPath :=
  (((entriesOf t directory).filter (DirEntry.kept type)).map
    fun entry => directory ++ [entry.file_name]).insertionSort pathBefore

/-- The directories the walk enters. -/
inductive Entered (t : DirTree) : OsPath → Prop where
  | root : Entered t []
  | into {directory : OsPath} {entry : DirEntry} (hdirectory : Entered t directory)
      (hentry : entry ∈ entriesOf t directory) (hkept : entry.kept .directory) :
      Entered t (directory ++ [entry.file_name])

def Covers (t : DirTree) (file : OsPath) : Prop :=
  ∃ directory entry, Entered t directory ∧ entry ∈ entriesOf t directory ∧ entry.kept .file ∧
    file = directory ++ [entry.file_name]

def traversal (t : DirTree) : List OsPath :=
  preorder (pathsOf .file t) (pathsOf .directory t) intakeDepthMax []

def entryPaths (type : FileType) (directory : OsPath) (entry : DirEntry) : List OsPath :=
  if entry.kept type then [directory ++ [entry.file_name]] else []

variable {directory : OsPath} {listing next : Listing}

theorem readEntry_ok {read : Except String DirEntry}
    (h : readEntry directory listing read = .ok next) :
    ∃ entry, read = .ok entry ∧
      next.files = listing.files ++ entryPaths .file directory entry ∧
      next.directories = listing.directories ++ entryPaths .directory directory entry := by
  cases read with
  | error fault => cases h
  | ok entry =>
    refine ⟨entry,rfl,?_⟩
    rw [readEntry] at h
    by_cases hskip : isSkippedName (fromUtf8Lossy entry.file_name) = true
    · rw [if_pos hskip] at h
      cases h
      simp [entryPaths,DirEntry.kept,hskip,Listing.skip]
    · rw [if_neg hskip] at h
      cases htype : entry.file_type with
      | error fault =>
        rw [htype] at h
        cases h
      | ok type =>
        rw [htype] at h
        cases type <;> cases h <;>
          simp [entryPaths,DirEntry.kept,hskip,htype,Except.toOption,Listing.skip]

theorem pathsIn_eq (type : FileType) (directory : OsPath) (entries : List DirEntry) :
    entries.flatMap (entryPaths type directory) =
      (entries.filter (DirEntry.kept type)).map fun entry => directory ++ [entry.file_name] := by
  induction entries with
  | nil => rfl
  | cons entry rest ih =>
    rw [flatMap_cons,ih,entryPaths,filter_cons]
    split <;> rfl

theorem readEntries_ok {reads : List (Except String DirEntry)}
    (h : reads.foldlM (readEntry directory) listing = .ok next) :
    next.files = listing.files ++
        (reads.filterMap Except.toOption).flatMap (entryPaths .file directory) ∧
      next.directories = listing.directories ++
        (reads.filterMap Except.toOption).flatMap (entryPaths .directory directory) := by
  induction reads generalizing listing with
  | nil =>
    cases h
    simp
  | cons read rest ih =>
    rw [foldlM_cons] at h
    obtain ⟨middle,hread,hrest⟩ := ok_of_bind h
    obtain ⟨entry,rfl,hfiles,hdirectories⟩ := readEntry_ok hread
    obtain ⟨ihfiles,ihdirectories⟩ := ih hrest
    rw [ihfiles,ihdirectories,hfiles,hdirectories]
    simp [Except.toOption]

variable {t : DirTree}

theorem readDirectory_ok (h : readDirectory t directory = .ok listing) :
    listing.files = pathsOf .file t directory ∧
      listing.directories = pathsOf .directory t directory := by
  rw [readDirectory] at h
  cases hread : t.read_dir directory with
  | error fault =>
    rw [hread] at h
    cases h
  | ok entries =>
    rw [hread] at h
    obtain ⟨read,hentries,rfl⟩ := ok_of_map h
    obtain ⟨hfiles,hdirectories⟩ := readEntries_ok hentries
    have hall : entriesOf t directory = entries.filterMap Except.toOption := by
      rw [entriesOf,hread]
      rfl
    rw [pathsOf,pathsOf,hall,← pathsIn_eq,← pathsIn_eq,Listing.sort]
    rw [hfiles,hdirectories,nil_append,nil_append]
    exact ⟨rfl,rfl⟩

theorem mem_pathsOf {type : FileType} {path : OsPath} :
    path ∈ pathsOf type t directory ↔
      ∃ entry ∈ entriesOf t directory, entry.kept type ∧ path = directory ++ [entry.file_name] := by
  rw [pathsOf,mem_insertionSort,mem_map]
  constructor
  · rintro ⟨entry,hentry,rfl⟩
    obtain ⟨hmem,hkept⟩ := mem_filter.mp hentry
    exact ⟨entry,hmem,hkept,rfl⟩
  · rintro ⟨entry,hmem,hkept,rfl⟩
    exact ⟨entry,mem_filter.mpr ⟨hmem,hkept⟩,rfl⟩

theorem entriesOf_distinct (t : DirTree) (directory : OsPath) :
    ((entriesOf t directory).map DirEntry.file_name).Nodup := by
  rw [entriesOf]
  cases hread : t.read_dir directory with
  | error fault => exact nodup_nil
  | ok entries => exact t.distinct directory entries hread

theorem pathsOf_nodup (type : FileType) (t : DirTree) (directory : OsPath) :
    (pathsOf type t directory).Nodup := by
  rw [pathsOf,(perm_insertionSort pathBefore _).nodup_iff]
  have hnames := (entriesOf_distinct t directory).sublist
    ((filter_sublist (p := DirEntry.kept type)).map DirEntry.file_name)
  have hpaths := hnames.map (f := fun name => directory ++ [name]) fun a b hab => by
    simpa using hab
  rwa [map_map] at hpaths

theorem tree_branching (t : DirTree) :
    Branching (pathsOf .file t) (pathsOf .directory t) List.dropLast List.length
      List.dropLast where
  parent_eq a b hb := by
    obtain ⟨entry,_,_,rfl⟩ := mem_pathsOf.mp hb
    exact dropLast_concat
  depth_eq a b hb := by
    obtain ⟨entry,_,_,rfl⟩ := mem_pathsOf.mp hb
    exact length_append
  owner_eq a x hx := by
    obtain ⟨entry,_,_,rfl⟩ := mem_pathsOf.mp hx
    exact dropLast_concat
  children_nodup := pathsOf_nodup .directory t
  items_nodup := pathsOf_nodup .file t

theorem entered_iff : Entered t directory ↔ Below (pathsOf .directory t) [] directory := by
  constructor
  · intro h
    induction h with
    | root => exact .refl
    | into _ hentry hkept ih => exact ih.tail (mem_pathsOf.mpr ⟨_,hentry,hkept,rfl⟩)
  · intro h
    induction h with
    | refl => exact .root
    | tail _ hstep ih =>
      obtain ⟨entry,hentry,hkept,rfl⟩ := mem_pathsOf.mp hstep
      exact .into ih hentry hkept

theorem addFiles_eq (plan : IntakePlan) {files : List OsPath}
    (h : plan.files.length ≤ intakeFileCountMax) :
    addFiles plan files =
      if plan.files.length+files.length ≤ intakeFileCountMax then
        ({ plan with files := plan.files ++ files },false)
      else
        ({ plan with files := (plan.files ++ files).take intakeFileCountMax, truncated := true },
          true) := by
  induction files generalizing plan with
  | nil =>
    rw [addFiles,length_nil,Nat.add_zero,if_pos h,append_nil]
  | cons file rest ih =>
    rw [addFiles,length_cons]
    by_cases hfull : intakeFileCountMax ≤ plan.files.length
    · rw [if_pos hfull,if_neg (by omega),take_append_of_le_length hfull,
        take_of_length_le h]
    · rw [if_neg hfull,ih { plan with files := plan.files ++ [file] }
        (by rw [length_append,length_singleton]; omega)]
      rw [length_append,length_singleton,append_assoc,singleton_append,
        show plan.files.length+1+rest.length = plan.files.length+(rest.length+1) by omega]

def pending (t : DirTree) (stack : List (OsPath × Nat)) : List OsPath :=
  stack.flatMap fun entry =>
    preorder (pathsOf .file t) (pathsOf .directory t) (intakeDepthMax-entry.2) entry.1

def rounds (t : DirTree) (stack : List (OsPath × Nat)) : Nat :=
  (stack.map fun entry =>
    nodeCount (pathsOf .directory t) (intakeDepthMax-entry.2) entry.1).sum

/-- The walk lists what is pending up to its bound, and says that it left something
out exactly where that bound or the depth cut something off. -/
structure Continues (t : DirTree) (stack : List (OsPath × Nat)) (plan done : IntakePlan) :
    Prop where
  files : done.files = (plan.files ++ pending t stack).take intakeFileCountMax
  truncated : done.truncated = true ↔ plan.truncated = true ∨
    intakeFileCountMax < (plan.files ++ pending t stack).length ∨
    ∃ entry ∈ stack, CutOff (pathsOf .directory t) (intakeDepthMax-entry.2) entry.1

variable {depth : Nat}

theorem preorder_round (t : DirTree) (directory : OsPath)
    (h : depth < intakeDepthMax) (stack : List (OsPath × Nat)) :
    pending t ((directory,depth) :: stack) = pathsOf .file t directory ++
      pending t ((pathsOf .directory t directory).map (fun child => (child,depth+1)) ++ stack) := by
  obtain ⟨left,hleft⟩ := Nat.exists_eq_add_of_lt h
  have hnow : intakeDepthMax-depth = left+1 := by omega
  have hnext : intakeDepthMax-(depth+1) = left := by omega
  rw [pending,pending,flatMap_cons,hnow,preorder,flatMap_append,flatMap_map,
    append_assoc]
  simp only [hnext]

theorem rounds_round (t : DirTree) (directory : OsPath)
    (h : depth < intakeDepthMax) (stack : List (OsPath × Nat)) :
    rounds t ((directory,depth) :: stack) =
      1+rounds t ((pathsOf .directory t directory).map (fun child => (child,depth+1)) ++ stack) := by
  obtain ⟨left,hleft⟩ := Nat.exists_eq_add_of_lt h
  have hnow : intakeDepthMax-depth = left+1 := by omega
  have hnext : intakeDepthMax-(depth+1) = left := by omega
  rw [rounds,rounds,map_cons,sum_cons,hnow,nodeCount,map_append,sum_append,
    map_map,Nat.add_assoc]
  simp only [Function.comp_def,hnext]

variable {stack : List (OsPath × Nat)} {skipped_count : Nat}

theorem continues_full {plan : IntakePlan} {files rest : List OsPath}
    (hfull : intakeFileCountMax < plan.files.length+files.length)
    (hpending : pending t stack = files ++ rest) :
    Continues t stack plan
      ⟨(plan.files ++ files).take intakeFileCountMax,skipped_count,true⟩ where
  files := by
    have htaken : intakeFileCountMax ≤ (plan.files ++ files).length := by
      rw [length_append]
      omega
    rw [hpending,← append_assoc]
    exact (take_append_of_le_length htaken).symm
  truncated := by
    refine iff_of_true rfl (Or.inr (Or.inl ?_))
    rw [hpending,length_append,length_append]
    omega

theorem continues_bottom {plan done : IntakePlan}
    (h : Continues t stack ⟨plan.files ++ pathsOf .file t directory,skipped_count,
      plan.truncated || !(pathsOf .directory t directory).isEmpty⟩ done) :
    Continues t ((directory,intakeDepthMax) :: stack) plan done := by
  have hpending : pending t ((directory,intakeDepthMax) :: stack) =
      pathsOf .file t directory ++ pending t stack := by
    rw [pending,pending,flatMap_cons,Nat.sub_self,preorder]
  refine ⟨by rw [h.files,hpending,append_assoc],?_⟩
  rw [h.truncated,hpending,append_assoc,Bool.or_eq_true]
  simp only [mem_cons,exists_eq_or_imp,Nat.sub_self,CutOff,Bool.not_eq_true',ne_eq,
    isEmpty_eq_false_iff]
  tauto

theorem continues_into (hdepth : depth < intakeDepthMax) {plan done : IntakePlan}
    (h : Continues t ((pathsOf .directory t directory).map (fun child => (child,depth+1)) ++ stack)
      ⟨plan.files ++ pathsOf .file t directory,skipped_count,plan.truncated⟩ done) :
    Continues t ((directory,depth) :: stack) plan done := by
  have hpending := preorder_round t directory hdepth stack
  refine ⟨by rw [h.files,hpending,append_assoc],?_⟩
  obtain ⟨left,hleft⟩ := Nat.exists_eq_add_of_lt hdepth
  have hnow : intakeDepthMax-depth = left+1 := by omega
  have hnext : intakeDepthMax-(depth+1) = left := by omega
  rw [h.truncated,hpending,append_assoc]
  simp only [mem_cons,mem_append,mem_map,or_and_right,exists_or,exists_eq_left,
    exists_exists_and_eq_and,hnow,hnext,CutOff]

theorem walk_continues {t : DirTree} {fuel : Nat} {stack : List (OsPath × Nat)}
    {plan : IntakePlan} (hfuel : rounds t stack < fuel)
    (hdepth : ∀ entry ∈ stack, entry.2 ≤ intakeDepthMax)
    (hentered : ∀ entry ∈ stack, Entered t entry.1)
    (hlength : plan.files.length ≤ intakeFileCountMax) :
    ∃ outcome, walkLoop t fuel stack plan = some outcome ∧
      (∀ e, outcome = .error e → ∃ directory, Entered t directory ∧
        readDirectory t directory = .error e) ∧
      ∀ done, outcome = .ok done → Continues t stack plan done := by
  induction fuel generalizing stack plan with
  | zero => exact absurd hfuel (Nat.not_lt_zero _)
  | succ fuel ih =>
    cases stack with
    | nil =>
      refine ⟨.ok plan,rfl,fun e h => (by cases h),?_⟩
      rintro _ ⟨⟩
      refine ⟨?_,?_⟩
      · rw [pending,flatMap_nil,append_nil,take_of_length_le hlength]
      · simp [pending,Nat.not_lt.mpr hlength]
    | cons entry stack =>
      obtain ⟨directory,depth⟩ := entry
      have hhere : Entered t directory := hentered (directory,depth) (by simp)
      have hat : depth ≤ intakeDepthMax := hdepth (directory,depth) (by simp)
      rw [walkLoop]
      cases hread : readDirectory t directory with
      | error e =>
        refine ⟨.error e,rfl,?_,fun _ h => (by cases h)⟩
        rintro _ ⟨⟩
        exact ⟨directory,hhere,hread⟩
      | ok listing =>
        obtain ⟨hfiles,hdirectories⟩ := readDirectory_ok hread
        dsimp only
        rw [addFiles_eq { plan with
          skipped_count := satAdd32 plan.skipped_count listing.skipped } hlength,hfiles,hdirectories]
        by_cases hfits : plan.files.length+(pathsOf .file t directory).length ≤ intakeFileCountMax
        · rw [if_pos hfits]
          dsimp only
          rw [if_neg Bool.false_ne_true]
          have hadded : (plan.files ++ pathsOf .file t directory).length ≤ intakeFileCountMax := by
            rw [length_append]
            exact hfits
          have hstack : ∀ entry ∈ stack, entry.2 ≤ intakeDepthMax ∧ Entered t entry.1 :=
            fun entry hmem => ⟨hdepth entry (mem_cons_of_mem _ hmem),
              hentered entry (mem_cons_of_mem _ hmem)⟩
          by_cases hbottom : intakeDepthMax < depth+1
          · have hdeepest : depth = intakeDepthMax := by omega
            subst hdeepest
            rw [if_pos hbottom]
            have hless : rounds t stack < fuel := by
              rw [rounds,map_cons,sum_cons,Nat.sub_self,nodeCount] at hfuel
              rw [rounds]
              omega
            obtain ⟨outcome,hwalk,herror,hok⟩ := @ih stack ⟨plan.files ++ pathsOf .file t directory,
              satAdd32 plan.skipped_count listing.skipped,
              plan.truncated || !(pathsOf .directory t directory).isEmpty⟩ hless
              (fun entry hmem => (hstack entry hmem).1) (fun entry hmem => (hstack entry hmem).2)
              hadded
            exact ⟨outcome,hwalk,herror,fun done hdone => continues_bottom (hok done hdone)⟩
          · have habove : depth < intakeDepthMax := by omega
            rw [if_neg hbottom]
            have hless : rounds t ((pathsOf .directory t directory).map
                (fun child => (child,depth+1)) ++ stack) < fuel := by
              rw [rounds_round t directory habove] at hfuel
              omega
            have hnext : ∀ entry ∈ (pathsOf .directory t directory).map
                (fun child => (child,depth+1)) ++ stack,
                entry.2 ≤ intakeDepthMax ∧ Entered t entry.1 := by
              intro entry hmem
              rcases mem_append.mp hmem with hmem | hmem
              · obtain ⟨child,hchild,rfl⟩ := mem_map.mp hmem
                obtain ⟨item,hitem,hkept,rfl⟩ := mem_pathsOf.mp hchild
                exact ⟨habove,.into hhere hitem hkept⟩
              · exact hstack entry hmem
            obtain ⟨outcome,hwalk,herror,hok⟩ := @ih _ ⟨plan.files ++ pathsOf .file t directory,
              satAdd32 plan.skipped_count listing.skipped,plan.truncated⟩ hless
              (fun entry hmem => (hnext entry hmem).1) (fun entry hmem => (hnext entry hmem).2)
              hadded
            exact ⟨outcome,hwalk,herror,fun done hdone => continues_into habove (hok done hdone)⟩
        · rw [if_neg hfits]
          refine ⟨_,if_pos rfl,fun e h => (by cases h),?_⟩
          rintro _ ⟨⟩
          have hfirst : ∃ rest, pending t ((directory,depth) :: stack) =
              pathsOf .file t directory ++ rest := by
            rw [pending,flatMap_cons]
            cases intakeDepthMax-depth with
            | zero => exact ⟨_,rfl⟩
            | succ left => exact ⟨_,append_assoc _ _ _⟩
          obtain ⟨rest,hrest⟩ := hfirst
          exact continues_full (Nat.lt_of_not_le hfits) hrest

/-- What a walk that ends well lists, and when it says that it was cut short. -/
structure Lists (t : DirTree) (plan : IntakePlan) : Prop where
  files : plan.files = (traversal t).take intakeFileCountMax
  distinct : plan.files.Nodup
  truncated : plan.truncated = true ↔ intakeFileCountMax < (traversal t).length ∨
    CutOff (pathsOf .directory t) intakeDepthMax []
  whole : plan.truncated = false →
    plan.files = traversal t ∧ ∀ file, file ∈ plan.files ↔ Covers t file

theorem Continues.lists {plan : IntakePlan} (h : Continues t [([],0)] .empty plan) :
    Lists t plan := by
  have hall : IntakePlan.empty.files ++ pending t [([],0)] = traversal t := by
    rw [pending,flatMap_singleton]
    rfl
  have hfiles := h.files
  have htruncated := h.truncated
  rw [hall] at hfiles htruncated
  simp only [IntakePlan.empty,Bool.false_eq_true,false_or,mem_singleton,exists_eq_left,
    Nat.sub_zero] at htruncated
  have hlead : plan.files <+: traversal t := hfiles ▸ List.take_prefix _ _
  refine ⟨hfiles,((tree_branching t).preorder_nodup _ _).sublist hlead.sublist,htruncated,
    fun hwhole => ?_⟩
  rw [← Bool.not_eq_true,htruncated,not_or,Nat.not_lt] at hwhole
  obtain ⟨hlength,hcut⟩ := hwhole
  rw [take_of_length_le hlength] at hfiles
  refine ⟨hfiles,fun file => ?_⟩
  rw [hfiles]
  refine (mem_preorder hcut).trans ?_
  constructor
  · rintro ⟨directory,hbelow,hmem⟩
    obtain ⟨entry,hentry,hkept,hpath⟩ := mem_pathsOf.mp hmem
    exact ⟨directory,entry,entered_iff.mpr hbelow,hentry,hkept,hpath⟩
  · rintro ⟨directory,entry,hentered,hentry,hkept,hpath⟩
    exact ⟨directory,entered_iff.mp hentered,mem_pathsOf.mpr ⟨entry,hentry,hkept,hpath⟩⟩

/-- The walk of any tree ends. Unless a directory cannot be read it lists the
files in order, and all of them if it does not say that it was cut short. -/
theorem walk_lists (t : DirTree) : ∃ enough, ∀ fuel, enough ≤ fuel →
    ∃ outcome, walk t fuel = some outcome ∧
      (∀ e, outcome = .error e → ∃ directory, Entered t directory ∧
        readDirectory t directory = .error e) ∧
      ∀ plan, outcome = .ok plan → Lists t plan := by
  refine ⟨rounds t [([],0)]+1,fun fuel hfuel => ?_⟩
  have hroot : ∀ entry ∈ [(([] : OsPath),0)], entry.2 ≤ intakeDepthMax ∧ Entered t entry.1 := by
    intro entry hmem
    rw [mem_singleton.mp hmem]
    exact ⟨Nat.zero_le _,.root⟩
  obtain ⟨outcome,hwalk,herror,hok⟩ := @walk_continues t fuel _ .empty hfuel
    (fun entry hmem => (hroot entry hmem).1) (fun entry hmem => (hroot entry hmem).2)
    (Nat.zero_le _)
  exact ⟨outcome,hwalk,herror,fun plan hplan => (hok plan hplan).lists⟩

namespace IntakeDemo

/-- A directory and two files at the root, with a dot-file, and a file and a link below. -/
def readDir (directory : OsPath) : Except String (List (Except String DirEntry)) :=
  if directory = [] then .ok [.ok ⟨[115],.ok .directory⟩,.ok ⟨[98],.ok .file⟩,
    .ok ⟨[46,120],.ok .file⟩,.ok ⟨[97],.ok .file⟩]
  else if directory = [[115]] then .ok [.ok ⟨[108],.ok .symlink⟩,.ok ⟨[97],.ok .file⟩]
  else .error "no such directory"

def tree : DirTree where
  read_dir := readDir
  distinct directory entries h := by
    rw [readDir] at h
    split_ifs at h <;> cases h <;> decide

end IntakeDemo

open IntakeDemo in
/-- The three files are listed, the root's before the one below. -/
theorem tree_listed : ∃ enough, ∀ fuel, enough ≤ fuel → ∃ plan,
    walk tree fuel = some (.ok plan) ∧ plan.files = [[[97]],[[98]],[[115],[97]]] ∧
      Covers tree [[115],[97]] := by
  obtain ⟨enough,h⟩ := walk_lists tree
  refine ⟨enough+3,fun fuel hfuel => ?_⟩
  obtain ⟨more,rfl⟩ := Nat.exists_eq_add_of_le' hfuel
  obtain ⟨outcome,hwalk,-,hok⟩ := h (more+(enough+3)) (by omega)
  have hrun : walk tree (more+(enough+3)) =
      some (.ok ⟨[[[97]],[[98]],[[115],[97]]],2,false⟩) := by
    rw [← Nat.add_assoc]
    rfl
  obtain rfl := Option.some.inj (hwalk.symm.trans hrun)
  have hlists := hok _ rfl
  exact ⟨_,hwalk,rfl,((hlists.whole rfl).2 _).mp (by simp)⟩

end ProjectOS.Ingest
