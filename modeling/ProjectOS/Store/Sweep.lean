import ProjectOS.Lib.OsPaths
import ProjectOS.Gateway.Sse
import ProjectOS.Store.Blobs

/-! The sweep over the blobs directory: which files it looks at, what it asks of
each, and what it passes over. -/

namespace ProjectOS.Gateway

def asciiBytes (text : List Char) : Bytes := text.map fun c => UInt8.ofNat c.toNat

theorem decodeLossy_ascii {text : List Char} (h : ∀ c ∈ text, c.toNat < 128) :
    decodeLossy none (asciiBytes text) = text := by
  induction text with
  | nil => rfl
  | cons c rest ih =>
    have hc := h c (by simp)
    have hbyte : (UInt8.ofNat c.toNat).toNat = c.toNat := by
      simp only [UInt8.toNat_ofNat']
      omega
    have hrest := ih fun d hd => h d (List.mem_cons_of_mem _ hd)
    rw [asciiBytes] at hrest
    rw [asciiBytes,List.map_cons,decodeLossy,hbyte,nextByte,leadByte,if_pos (by omega),hrest,
      Char.ofNat_toNat]
    rfl

theorem charOfNat_toNat {n : Nat} (h : n.isValidChar) : (Char.ofNat n).toNat = n := by
  rw [Char.ofNat,dif_pos h]
  rfl

structure Opened (c : OpenChar) : Prop where
  low : 0x80 ≤ c.low
  ends : ∀ b, c.low ≤ b → b ≤ c.high →
    c.owed ≤ 1 ∧ 0x80 ≤ c.value*64+(b-0x80) ∧ (c.value*64+(b-0x80) < 0xD800 ∨
        0xE000 ≤ c.value*64+(b-0x80) ∧ c.value*64+(b-0x80) < 0x110000) ∨
      c.owed = 2 ∧ 2 ≤ c.value*64+(b-0x80) ∧ (c.value*64+(b-0x80) < 0x360 ∨
        0x380 ≤ c.value*64+(b-0x80) ∧ c.value*64+(b-0x80) < 0x4400) ∨
      c.owed = 3 ∧ 0xE ≤ c.value*64+(b-0x80) ∧ c.value*64+(b-0x80) < 0x110

theorem leadByte_cases (b : Nat) :
    b < 128 ∧ leadByte b = ([Char.ofNat b],none) ∨ leadByte b = ([replacement],none) ∨
      ∃ c, leadByte b = ([],some c) ∧ Opened c := by
  rw [leadByte]
  split_ifs
  · exact Or.inl ⟨by omega,rfl⟩
  all_goals
    first
    | exact Or.inr (Or.inl rfl)
    | exact Or.inr (Or.inr ⟨_,rfl,⟨by simp,fun b' h h' => by
        simp only [true_and] at h h' ⊢
        omega⟩⟩)

theorem Opened.next {c : OpenChar} (h : Opened c) {b : Nat} (hlow : c.low ≤ b) (hhigh : b ≤ c.high)
    (howed : ¬ c.owed ≤ 1) : Opened ⟨c.owed-1,0x80,0xBF,c.value*64+(b-0x80)⟩ where
  low := le_refl _
  ends b' hlow' hhigh' := by
    have hends := h.ends b hlow hhigh
    simp only at hlow' hhigh' ⊢
    omega

theorem replacement_toNat : 128 ≤ replacement.toNat := by decide

theorem Opened.decode {c : OpenChar} (h : Opened c) (bytes : Bytes) :
    ∃ d ∈ decodeLossy (some c) bytes, 128 ≤ d.toNat := by
  induction bytes generalizing c with
  | nil => exact ⟨replacement,by simp [decodeLossy],replacement_toNat⟩
  | cons b rest ih =>
    rw [decodeLossy,nextByte]
    by_cases hin : c.low ≤ b.toNat ∧ b.toNat ≤ c.high
    · rw [if_pos hin]
      by_cases howed : c.owed ≤ 1
      · rw [if_pos howed]
        have hends := h.ends b.toNat hin.1 hin.2
        refine ⟨Char.ofNat (c.value*64+(b.toNat-0x80)),by simp,?_⟩
        have hvalid : (c.value*64+(b.toNat-0x80)).isValidChar := by
          rw [Nat.isValidChar]
          omega
        rw [charOfNat_toNat hvalid]
        omega
      · rw [if_neg howed]
        obtain ⟨d,hd,hlarge⟩ := ih (h.next hin.1 hin.2 howed)
        exact ⟨d,List.mem_append_right _ hd,hlarge⟩
    · rw [if_neg hin]
      exact ⟨replacement,by simp,replacement_toNat⟩

theorem ascii_of_decode {bytes : Bytes} (h : ∀ d ∈ decodeLossy none bytes, d.toNat < 128) :
    bytes = asciiBytes (decodeLossy none bytes) := by
  induction bytes with
  | nil => rfl
  | cons b rest ih =>
    rw [decodeLossy,nextByte] at h ⊢
    rcases leadByte_cases b.toNat with ⟨hsmall,hlead⟩ | hlead | ⟨c,hlead,hopened⟩
    · rw [hlead] at h ⊢
      have hrest := ih fun d hd => h d (List.mem_append_right _ hd)
      have hvalid : b.toNat.isValidChar := by
        rw [Nat.isValidChar]
        omega
      rw [asciiBytes,List.map_append,List.map_singleton,charOfNat_toNat hvalid]
      rw [asciiBytes] at hrest
      rw [← hrest,UInt8.ofNat_toNat,List.singleton_append]
    · rw [hlead] at h
      exact absurd (h replacement (by simp)) (Nat.not_lt.mpr replacement_toNat)
    · rw [hlead] at h
      obtain ⟨d,hd,hlarge⟩ := hopened.decode rest
      exact absurd (h d (List.mem_append_right _ hd)) (Nat.not_lt.mpr hlarge)

end ProjectOS.Gateway

namespace ProjectOS.Store
open Lib List
open Gateway (fromUtf8Lossy asciiBytes decodeLossy_ascii ascii_of_decode)

/-- Where a path leads, links followed: a file, a directory with its names, or
neither. -/
inductive Item where
  | file (content : Bytes)
  | directory (names : List OsName)
  | other

abbrev Disk := OsPath → Item

def is_dir (disk : Disk) (path : OsPath) : Bool :=
  match disk path with
  | .directory _ => true
  | _ => false

/-- The paths a walk from the root comes to. -/
inductive Under (disk : Disk) (root : OsPath) : OsPath → Prop where
  | root : Under disk root root
  | into {path : OsPath} {names : List OsName} {name : OsName} (hpath : Under disk root path)
      (hnames : disk path = .directory names) (hname : name ∈ names) :
      Under disk root (path ++ [name])

def sorted_directory_entries (disk : Disk) (path : OsPath) : Except String (List OsPath) :=
  match disk path with
  | .directory names => .ok ((names.map fun name => path ++ [name]).insertionSort pathBefore)
  | _ => .error "list blob directory"

def file_name_string (path : OsPath) : String :=
  (path.getLast?.map fromUtf8Lossy).getD ""

def isLowerHex (c : Char) : Bool :=
  decide (48 ≤ c.toNat ∧ c.toNat ≤ 57) || decide (97 ≤ c.toNat ∧ c.toNat ≤ 102)

def hexValue (digits : List Char) : Nat :=
  digits.foldl (fun n c => 16*n+(if c.toNat ≤ 57 then c.toNat-48 else c.toNat-87)) 0

def BlobHash.from_hex (text : String) : Option Digest :=
  if text.toList.length = 64 ∧ text.toList.all isLowerHex then
    some (BitVec.ofNat 256 (hexValue text.toList))
  else none

structure BlobStore where
  root : OsPath

def claimed (first_name second_name : String) (blob : OsPath) : Option Digest :=
  (BlobHash.from_hex (file_name_string blob)).filter fun hash =>
    let hex := BlobHash.to_hex hash
    starts_with hex first_name && starts_with (String.ofList (hex.toList.drop 2)) second_name

def second_entries (disk : Disk) (first_name : String) (second : OsPath) :
    Except String (List (OsPath × Option Digest)) :=
  if !is_dir disk second then .ok [(second,none)]
  else
    (sorted_directory_entries disk second).map fun blobs =>
      blobs.map fun blob => (blob,claimed first_name (file_name_string second) blob)

def first_entries (disk : Disk) (first : OsPath) :
    Except String (List (OsPath × Option Digest)) :=
  if file_name_string first = TEMP_DIRECTORY_NAME ∨ !is_dir disk first then .ok []
  else do
    let seconds ← sorted_directory_entries disk first
    (seconds.mapM (second_entries disk (file_name_string first))).map List.flatten

def sorted_blob_files (disk : Disk) (store : BlobStore) :
    Except String (List (OsPath × Option Digest)) := do
  let firsts ← sorted_directory_entries disk store.root
  (firsts.mapM (first_entries disk)).map List.flatten

structure CasVerifyReport where
  blob_count : Nat
  corrupt_count : Nat
  misplaced_count : Nat
  temp_leftover_count : Nat
  defect_paths : List OsPath
  defect_paths_truncated : Bool

namespace CasVerifyReport

def VERIFY_DEFECT_REPORT_MAX : Nat := 64

def is_clean (report : CasVerifyReport) : Bool :=
  report.corrupt_count == 0 && report.misplaced_count == 0

def record_defect (report : CasVerifyReport) (path : OsPath) : CasVerifyReport :=
  if report.defect_paths.length < VERIFY_DEFECT_REPORT_MAX then
    { report with defect_paths := report.defect_paths ++ [path] }
  else { report with defect_paths_truncated := true }

end CasVerifyReport

def count_temp_leftovers (disk : Disk) (store : BlobStore) : Nat :=
  match disk (store.root ++ [asciiBytes TEMP_DIRECTORY_NAME.toList]) with
  | .directory names => names.length
  | _ => 0

def rehash_file (blake3 : Bytes → Digest) (disk : Disk) (path : OsPath) : Except String Digest :=
  match disk path with
  | .file content => .ok (blake3 content)
  | _ => .error "read blob for verification"

def verify_one (blake3 : Bytes → Digest) (disk : Disk) (report : CasVerifyReport)
    (entry : OsPath × Option Digest) : Except String CasVerifyReport :=
  let counted := { report with blob_count := report.blob_count+1 }
  match entry.2 with
  | none =>
    .ok ({ counted with misplaced_count := counted.misplaced_count+1 }.record_defect entry.1)
  | some expected =>
    (rehash_file blake3 disk entry.1).map fun actual =>
      if actual = expected then counted
      else { counted with corrupt_count := counted.corrupt_count+1 }.record_defect entry.1

def verify (blake3 : Bytes → Digest) (disk : Disk) (store : BlobStore) :
    Except String CasVerifyReport := do
  let files ← sorted_blob_files disk store
  files.foldlM (verify_one blake3 disk) ⟨0,0,0,count_temp_leftovers disk store,[],false⟩

def copy_files (disk : Disk) (store : BlobStore) (destination_root : OsPath) :
    List (OsPath × Option Digest) → List (OsPath × OsPath) →
    List (OsPath × OsPath) × Except String Nat
  | [], copied => (copied,.ok copied.length)
  | (path,_) :: rest, copied =>
    match store.root.isPrefixOf? path with
    | none => (copied,.error "resolve blob export path")
    | some relative =>
      match disk path with
      | .file _ =>
        copy_files disk store destination_root rest
          (copied ++ [(path,destination_root ++ relative)])
      | _ => (copied,.error "copy blob into export")

def copy_all_into (disk : Disk) (store : BlobStore) (destination_root : OsPath) :
    List (OsPath × OsPath) × Except String Nat :=
  match sorted_blob_files disk store with
  | .error e => ([],.error e)
  | .ok files => copy_files disk store destination_root files []

variable {name : OsName} {text : List Char}

theorem lossy_eq_iff (h : ∀ c ∈ text, c.toNat < 128) :
    fromUtf8Lossy name = String.ofList text ↔ name = asciiBytes text := by
  constructor
  · intro heq
    have hdecode : Gateway.decodeLossy none name = text := by
      have hlist := congrArg String.toList heq
      simpa only [fromUtf8Lossy,String.toList_ofList] using hlist
    have hname := ascii_of_decode (hdecode ▸ h)
    rwa [hdecode] at hname
  · rintro rfl
    rw [fromUtf8Lossy,decodeLossy_ascii h]

theorem lossy_starts_iff (h : ∀ c ∈ text, c.toNat < 128) :
    starts_with (String.ofList text) (fromUtf8Lossy name) ↔ name <+: asciiBytes text := by
  rw [starts_with,String.toList_ofList,fromUtf8Lossy,String.toList_ofList,List.isPrefixOf_iff_prefix]
  constructor
  · rintro hlead
    have hname := ascii_of_decode fun c hc => h c (hlead.subset hc)
    rw [hname]
    exact hlead.map _
  · intro hlead
    have htake : name = asciiBytes (text.take name.length) := by
      rw [asciiBytes,map_take]
      exact prefix_iff_eq_take.mp hlead
    rw [htake,decodeLossy_ascii fun c hc => h c (mem_of_mem_take hc)]
    exact List.take_prefix _ _

theorem hexDigit_lower (n : Nat) : isLowerHex (hexDigit (n%16)) = true := by
  have hall : ∀ n : Fin 16, isLowerHex (hexDigit n.val) = true := by decide
  exact hall ⟨n%16,Nat.mod_lt _ (by decide)⟩

theorem hexText_lower (w n : Nat) : (hexText w n).all isLowerHex = true := by
  induction w generalizing n with
  | zero => rfl
  | succ w ih => rw [hexText,all_append,ih,all_cons,hexDigit_lower]; rfl

theorem lowerHex_ascii {c : Char} (h : isLowerHex c = true) : c.toNat < 128 := by
  simp only [isLowerHex,Bool.or_eq_true,decide_eq_true_eq] at h
  omega

theorem to_hex_toList (hash : Digest) : (BlobHash.to_hex hash).toList = hexText 64 hash.toNat := by
  rw [BlobHash.to_hex,String.toList_ofList]

theorem to_hex_ascii (hash : Digest) : ∀ c ∈ (BlobHash.to_hex hash).toList, c.toNat < 128 := by
  intro c hc
  rw [to_hex_toList] at hc
  exact lowerHex_ascii (all_eq_true.mp (hexText_lower 64 _) c hc)

theorem hexDigit_value {c : Char} (h : isLowerHex c = true) :
    (if c.toNat ≤ 57 then c.toNat-48 else c.toNat-87) < 16 ∧
      hexDigit (if c.toNat ≤ 57 then c.toNat-48 else c.toNat-87) = c := by
  simp only [isLowerHex,Bool.or_eq_true,decide_eq_true_eq] at h
  split
  · refine ⟨by omega,?_⟩
    rw [hexDigit,if_pos (by omega),show 48+(c.toNat-48) = c.toNat by omega,Char.ofNat_toNat]
  · refine ⟨by omega,?_⟩
    rw [hexDigit,if_neg (by omega),show 87+(c.toNat-87) = c.toNat by omega,Char.ofNat_toNat]

theorem hexText_value {digits : List Char} (h : digits.all isLowerHex = true) :
    hexText digits.length (hexValue digits) = digits ∧ hexValue digits < 16^digits.length := by
  induction digits using List.reverseRecOn with
  | nil => exact ⟨rfl,by decide⟩
  | append_singleton digits c ih =>
    rw [all_append,Bool.and_eq_true,all_cons,all_nil,Bool.and_true] at h
    obtain ⟨htext,hlt⟩ := ih h.1
    obtain ⟨hsmall,hdigit⟩ := hexDigit_value h.2
    have hvalue : hexValue (digits ++ [c]) =
        16*hexValue digits+(if c.toNat ≤ 57 then c.toNat-48 else c.toNat-87) := by
      rw [hexValue,foldl_append]
      rfl
    generalize (if c.toNat ≤ 57 then c.toNat-48 else c.toNat-87) = d at hsmall hdigit hvalue
    rw [hvalue,length_append,length_singleton]
    refine ⟨?_,?_⟩
    · rw [hexText,show (16*hexValue digits+d)/16 = hexValue digits by omega,htext,
        show (16*hexValue digits+d)%16 = d by omega,hdigit]
    · rw [Nat.pow_succ]
      omega

variable {hash : Digest}

theorem from_hex_iff {text : String} :
    BlobHash.from_hex text = some hash ↔ text = BlobHash.to_hex hash := by
  have hread : ∀ hash', BlobHash.from_hex text = some hash' → text = BlobHash.to_hex hash' := by
    intro hash' h
    rw [BlobHash.from_hex] at h
    split at h
    · rename_i hok
      cases h
      obtain ⟨htext,hlt⟩ := hexText_value hok.2
      rw [hok.1] at htext hlt
      have hsize : (16 : Nat)^64 = 2^256 := by decide
      rw [BlobHash.to_hex,BitVec.toNat_ofNat,Nat.mod_eq_of_lt (hsize ▸ hlt),htext,
        String.ofList_toList]
    · cases h
  refine ⟨hread hash,?_⟩
  rintro rfl
  have hok : (BlobHash.to_hex hash).toList.length = 64 ∧
      (BlobHash.to_hex hash).toList.all isLowerHex = true := by
    rw [to_hex_toList,hexText_length]
    exact ⟨rfl,hexText_lower _ _⟩
  have hsome : BlobHash.from_hex (BlobHash.to_hex hash) =
      some (BitVec.ofNat 256 (hexValue (BlobHash.to_hex hash).toList)) := by
    rw [BlobHash.from_hex,if_pos hok]
  rw [hsome]
  exact congrArg some (BlobHash.to_hex_injective (hread _ hsome)).symm

def listed (disk : Disk) (path : OsPath) : List OsPath :=
  (sorted_directory_entries disk path).toOption.getD []

variable {disk : Disk} {path : OsPath}

theorem is_dir_iff : is_dir disk path = true ↔ ∃ names, disk path = .directory names := by
  rw [is_dir]
  cases disk path <;> simp

theorem sorted_of_dir (h : is_dir disk path = true) :
    sorted_directory_entries disk path = .ok (listed disk path) := by
  obtain ⟨names,hnames⟩ := is_dir_iff.mp h
  rw [listed,sorted_directory_entries,hnames]
  rfl

theorem mem_listed {entry : OsPath} :
    entry ∈ listed disk path ↔
      ∃ names name, disk path = .directory names ∧ name ∈ names ∧ entry = path ++ [name] := by
  rw [listed,sorted_directory_entries]
  cases disk path with
  | directory names =>
    rw [Except.toOption,Option.getD_some,mem_insertionSort,mem_map]
    constructor
    · rintro ⟨name,hname,rfl⟩
      exact ⟨names,name,rfl,hname,rfl⟩
    · rintro ⟨_,name,⟨⟩,hname,rfl⟩
      exact ⟨name,hname,rfl⟩
  | file | other => simp [Except.toOption]

def seconds (disk : Disk) (first second : OsPath) : List (OsPath × Option Digest) :=
  if is_dir disk second then
    (listed disk second).map fun blob =>
      (blob,claimed (file_name_string first) (file_name_string second) blob)
  else [(second,none)]

def firsts (disk : Disk) (first : OsPath) : List (OsPath × Option Digest) :=
  if file_name_string first = TEMP_DIRECTORY_NAME ∨ !is_dir disk first then []
  else ((listed disk first).map (seconds disk first)).flatten

theorem second_entries_eq (disk : Disk) (first second : OsPath) :
    second_entries disk (file_name_string first) second = .ok (seconds disk first second) := by
  rw [second_entries,seconds]
  by_cases h : is_dir disk second = true
  · rw [if_neg (by simp [h]),if_pos h,sorted_of_dir h]
    rfl
  · rw [if_pos (by simp [h]),if_neg h]

theorem mapM_ok {α β : Type} {f : α → Except String β} {g : α → β} (h : ∀ a, f a = .ok (g a))
    (xs : List α) : xs.mapM f = .ok (xs.map g) := by
  rw [show f = fun a => pure (g a) from funext h]
  exact mapM_pure

theorem first_entries_eq (disk : Disk) (first : OsPath) :
    first_entries disk first = .ok (firsts disk first) := by
  rw [first_entries,firsts]
  split
  · rfl
  · rename_i h
    have hdir : is_dir disk first = true := by
      by_contra hnot
      exact h (Or.inr (by simp [hnot]))
    rw [sorted_of_dir hdir]
    show Except.map List.flatten
      ((listed disk first).mapM (second_entries disk (file_name_string first))) = _
    rw [mapM_ok (second_entries_eq disk first)]
    rfl

variable {store : BlobStore}

theorem sorted_blob_files_eq (h : is_dir disk store.root = true) :
    sorted_blob_files disk store =
      .ok ((listed disk store.root).map (firsts disk)).flatten := by
  rw [sorted_blob_files,sorted_of_dir h]
  show Except.map List.flatten ((listed disk store.root).mapM (first_entries disk)) = _
  rw [mapM_ok (first_entries_eq disk)]
  rfl

def tempName : OsName := asciiBytes TEMP_DIRECTORY_NAME.toList

theorem file_name_concat (path : OsPath) (name : OsName) :
    file_name_string (path ++ [name]) = fromUtf8Lossy name := by
  rw [file_name_string,List.getLast?_append]
  rfl

theorem temp_iff : fromUtf8Lossy name = TEMP_DIRECTORY_NAME ↔ name = tempName := by
  have hascii : ∀ c ∈ TEMP_DIRECTORY_NAME.toList, c.toNat < 128 :=
    forall_mem_of_all (by decide)
  have heq : fromUtf8Lossy name = String.ofList TEMP_DIRECTORY_NAME.toList ↔ name = tempName :=
    lossy_eq_iff hascii
  rwa [String.ofList_toList] at heq

theorem Under.relative {root : OsPath} (h : Under disk root path) :
    ∃ relative, path = root ++ relative := by
  induction h with
  | root => exact ⟨[],(append_nil root).symm⟩
  | into _ _ _ ih =>
    obtain ⟨relative,rfl⟩ := ih
    exact ⟨_,append_assoc _ _ _⟩

theorem Under.parent {root relative : OsPath} (h : Under disk root (root ++ relative ++ [name])) :
    Under disk root (root ++ relative) ∧
      ∃ names, disk (root ++ relative) = .directory names ∧ name ∈ names := by
  generalize hpath : root ++ relative ++ [name] = path at h
  cases h with
  | root =>
    have hlength := congrArg List.length hpath
    simp only [length_append,length_singleton] at hlength
    omega
  | into hunder hnames hname =>
    obtain ⟨rfl,hlast⟩ := append_inj' hpath rfl
    obtain ⟨rfl⟩ := List.cons.inj hlast
    exact ⟨hunder,_,hnames,hname⟩

theorem Under.before {root relative further : OsPath}
    (h : Under disk root (root ++ (relative ++ further))) : Under disk root (root ++ relative) := by
  induction further using List.reverseRecOn with
  | nil => rwa [append_nil] at h
  | append_singleton further name ih =>
    rw [← append_assoc relative further,← append_assoc root] at h
    exact ih h.parent.1

def Examined (disk : Disk) (store : BlobStore) (path : OsPath) : Prop :=
  Under disk store.root path ∧ ∃ a b, a ≠ tempName ∧
    (path = store.root ++ [a,b] ∧ is_dir disk path = false ∨ ∃ c, path = store.root ++ [a,b,c])

def Accepted (blake3 : Bytes → Digest) (disk : Disk) (store : BlobStore) (path : OsPath) : Prop :=
  ∃ a b content, path = store.root ++ [a,b,asciiBytes (BlobHash.to_hex (blake3 content)).toList] ∧
    disk path = .file content ∧ a <+: asciiBytes (BlobHash.to_hex (blake3 content)).toList ∧
    b <+: (asciiBytes (BlobHash.to_hex (blake3 content)).toList).drop 2

def Passes (blake3 : Bytes → Digest) (disk : Disk) (entry : OsPath × Option Digest) : Prop :=
  ∃ content, disk entry.1 = .file content ∧ entry.2 = some (blake3 content)

theorem claimed_iff {root : OsPath} {a b c : OsName} :
    claimed (fromUtf8Lossy a) (fromUtf8Lossy b) (root ++ [c]) = some hash ↔
      c = asciiBytes (BlobHash.to_hex hash).toList ∧
        a <+: asciiBytes (BlobHash.to_hex hash).toList ∧
        b <+: (asciiBytes (BlobHash.to_hex hash).toList).drop 2 := by
  have hascii := to_hex_ascii hash
  have hname : fromUtf8Lossy c = BlobHash.to_hex hash ↔
      c = asciiBytes (BlobHash.to_hex hash).toList := by
    have heq : fromUtf8Lossy c = String.ofList (BlobHash.to_hex hash).toList ↔ _ :=
      lossy_eq_iff hascii
    rwa [String.ofList_toList] at heq
  have hfirst : starts_with (BlobHash.to_hex hash) (fromUtf8Lossy a) ↔
      a <+: asciiBytes (BlobHash.to_hex hash).toList := by
    have heq : starts_with (String.ofList (BlobHash.to_hex hash).toList) (fromUtf8Lossy a) ↔ _ :=
      lossy_starts_iff hascii
    rwa [String.ofList_toList] at heq
  have hsecond : starts_with (String.ofList ((BlobHash.to_hex hash).toList.drop 2))
      (fromUtf8Lossy b) ↔ b <+: (asciiBytes (BlobHash.to_hex hash).toList).drop 2 := by
    have hdrop : (asciiBytes (BlobHash.to_hex hash).toList).drop 2 =
        asciiBytes ((BlobHash.to_hex hash).toList.drop 2) := by
      rw [asciiBytes,asciiBytes,map_drop]
    rw [hdrop]
    exact lossy_starts_iff fun c hc => hascii c (mem_of_mem_drop hc)
  rw [claimed,Option.filter_eq_some_iff,file_name_concat,from_hex_iff,hname,Bool.and_eq_true,
    hfirst,hsecond]

variable {entry : OsPath × Option Digest}

theorem mem_sorted_iff :
    entry ∈ ((listed disk store.root).map (firsts disk)).flatten ↔
      ∃ a b, a ≠ tempName ∧ Under disk store.root entry.1 ∧
        (entry = (store.root ++ [a,b],none) ∧ is_dir disk entry.1 = false ∨
          ∃ c, entry = (store.root ++ [a,b,c],
            claimed (fromUtf8Lossy a) (fromUtf8Lossy b) (store.root ++ [a,b] ++ [c]))) := by
  have htwo : ∀ a b : OsName, store.root ++ [a] ++ [b] = store.root ++ [a,b] := by simp
  have hthree : ∀ a b c : OsName, store.root ++ [a,b] ++ [c] = store.root ++ [a,b,c] := by simp
  rw [← flatMap_def,mem_flatMap]
  constructor
  · rintro ⟨first,hfirst,hentry⟩
    obtain ⟨names,a,hnames,ha,rfl⟩ := mem_listed.mp hfirst
    rw [firsts] at hentry
    split at hentry
    · cases hentry
    · rename_i hkept
      rw [file_name_concat,temp_iff] at hkept
      have hdir : Under disk store.root (store.root ++ [a]) := .into .root hnames ha
      rw [← flatMap_def,mem_flatMap] at hentry
      obtain ⟨second,hsecond,hentry⟩ := hentry
      obtain ⟨names,b,hnames,hb,rfl⟩ := mem_listed.mp hsecond
      have hunder : Under disk store.root (store.root ++ [a] ++ [b]) := .into hdir hnames hb
      rw [htwo] at hentry hunder
      refine ⟨a,b,fun h => hkept (Or.inl h),?_⟩
      rw [seconds] at hentry
      split at hentry
      · obtain ⟨blob,hblob,rfl⟩ := mem_map.mp hentry
        obtain ⟨names,c,hnames,hc,rfl⟩ := mem_listed.mp hblob
        refine ⟨.into hunder hnames hc,Or.inr ⟨c,?_⟩⟩
        rw [← htwo a b,file_name_concat,file_name_concat,htwo,hthree]
      · rename_i hplain
        rw [mem_singleton.mp hentry]
        exact ⟨hunder,Or.inl ⟨rfl,by simpa using hplain⟩⟩
  · rintro ⟨a,b,ha,hunder,hcase⟩
    have hsecond : Under disk store.root (store.root ++ [a,b]) := by
      rcases hcase with ⟨rfl,_⟩ | ⟨c,rfl⟩
      · exact hunder
      · rw [← hthree] at hunder
        exact hunder.parent.1
    rw [← htwo] at hsecond
    obtain ⟨hfirst,names,hnames,hb⟩ := hsecond.parent
    obtain ⟨_,names',hnames',ha'⟩ := (show Under disk store.root (store.root ++ [] ++ [a]) by
      rwa [append_nil]).parent
    rw [append_nil] at hnames'
    refine ⟨store.root ++ [a],mem_listed.mpr ⟨names',a,hnames',ha',rfl⟩,?_⟩
    have hdir : is_dir disk (store.root ++ [a]) = true := is_dir_iff.mpr ⟨names,hnames⟩
    have hkept : ¬ (file_name_string (store.root ++ [a]) = TEMP_DIRECTORY_NAME ∨
        (!is_dir disk (store.root ++ [a])) = true) := by
      rw [file_name_concat,temp_iff,hdir]
      simpa using ha
    rw [firsts,if_neg hkept,← flatMap_def,mem_flatMap]
    refine ⟨store.root ++ [a] ++ [b],mem_listed.mpr ⟨names,b,hnames,hb,rfl⟩,?_⟩
    rw [seconds,file_name_concat,file_name_concat,htwo]
    rcases hcase with ⟨rfl,hplain⟩ | ⟨c,rfl⟩
    · rw [if_neg (by simpa using hplain)]
      exact mem_singleton.mpr rfl
    · rw [← hthree] at hunder
      obtain ⟨_,names,hnames,hc⟩ := hunder.parent
      rw [if_pos (is_dir_iff.mpr ⟨names,hnames⟩),← hthree]
      exact mem_map.mpr ⟨_,mem_listed.mpr ⟨names,c,hnames,hc,rfl⟩,rfl⟩

variable {blake3 : Bytes → Digest}

theorem passes_iff (h : entry ∈ ((listed disk store.root).map (firsts disk)).flatten) :
    Passes blake3 disk entry ↔ Accepted blake3 disk store entry.1 := by
  obtain ⟨a,b,_,_,hcase⟩ := mem_sorted_iff.mp h
  rcases hcase with ⟨rfl,_⟩ | ⟨c,rfl⟩
  · constructor
    · rintro ⟨content,_,hclaim⟩
      cases hclaim
    · rintro ⟨a',b',content,hpath,_⟩
      have hlength := congrArg List.length hpath
      simp at hlength
  · constructor
    · rintro ⟨content,hfile,hclaim⟩
      dsimp only at hfile hclaim ⊢
      obtain ⟨hname,hfirst,hsecond⟩ := claimed_iff.mp hclaim
      rw [hname] at hfile ⊢
      exact ⟨a,b,content,rfl,hfile,hfirst,hsecond⟩
    · dsimp only
      rintro ⟨a',b',content,hpath,hfile,hfirst,hsecond⟩
      have hnames := append_cancel_left hpath
      simp only [List.cons.injEq,and_true] at hnames
      obtain ⟨rfl,rfl,hname⟩ := hnames
      have hclaim : claimed (fromUtf8Lossy a) (fromUtf8Lossy b) (store.root ++ [a,b] ++ [c]) =
          some (blake3 content) := claimed_iff.mpr ⟨hname,hfirst,hsecond⟩
      exact ⟨content,hfile,hclaim⟩

theorem examined_iff :
    Examined disk store path ↔
      ∃ hash, (path,hash) ∈ ((listed disk store.root).map (firsts disk)).flatten := by
  constructor
  · rintro ⟨hunder,a,b,ha,⟨rfl,hplain⟩ | ⟨c,rfl⟩⟩
    · exact ⟨none,mem_sorted_iff.mpr ⟨a,b,ha,hunder,Or.inl ⟨rfl,hplain⟩⟩⟩
    · exact ⟨_,mem_sorted_iff.mpr ⟨a,b,ha,hunder,Or.inr ⟨c,rfl⟩⟩⟩
  · rintro ⟨hash,hmem⟩
    obtain ⟨a,b,ha,hunder,⟨heq,hplain⟩ | ⟨c,heq⟩⟩ := mem_sorted_iff.mp hmem
    · exact ⟨hunder,a,b,ha,Or.inl ⟨congrArg Prod.fst heq,hplain⟩⟩
    · exact ⟨hunder,a,b,ha,Or.inr ⟨c,congrArg Prod.fst heq⟩⟩

theorem record_defect_clean (report : CasVerifyReport) (path : OsPath) :
    (report.record_defect path).is_clean = report.is_clean := by
  rw [CasVerifyReport.record_defect]
  split <;> rfl

variable {report : CasVerifyReport}

theorem verify_one_clean :
    (∃ next, verify_one blake3 disk report entry = .ok next ∧ next.is_clean) ↔
      report.is_clean ∧ Passes blake3 disk entry := by
  obtain ⟨path,claim⟩ := entry
  rw [verify_one,Passes]
  cases claim with
  | none =>
    constructor
    · rintro ⟨_,⟨⟩,hclean⟩
      rw [record_defect_clean] at hclean
      simp [CasVerifyReport.is_clean] at hclean
    · rintro ⟨_,content,_,hclaim⟩
      cases hclaim
  | some expected =>
    dsimp only
    rw [rehash_file]
    cases hitem : disk path with
    | file content =>
      by_cases hsame : blake3 content = expected
      · subst hsame
        simp [Except.map,CasVerifyReport.is_clean]
      · have hother : ¬ expected = blake3 content := fun h => hsame h.symm
        simp only [Except.map,if_neg hsame,Except.ok.injEq,exists_eq_left',record_defect_clean]
        simp [CasVerifyReport.is_clean,hother]
    | directory | other => simp [Except.map]

variable {files : List (OsPath × Option Digest)}

theorem verify_all_clean :
    (∃ done, files.foldlM (verify_one blake3 disk) report = .ok done ∧ done.is_clean) ↔
      report.is_clean ∧ ∀ entry ∈ files, Passes blake3 disk entry := by
  induction files generalizing report with
  | nil =>
    constructor
    · rintro ⟨_,⟨⟩,hclean⟩
      exact ⟨hclean,by simp⟩
    · rintro ⟨hclean,_⟩
      exact ⟨report,rfl,hclean⟩
  | cons entry rest ih =>
    rw [foldlM_cons,forall_mem_cons,← and_assoc,← verify_one_clean]
    cases verify_one blake3 disk report entry with
    | error e =>
      constructor
      · rintro ⟨_,hrun,_⟩
        cases hrun
      · rintro ⟨⟨_,hrun,_⟩,_⟩
        cases hrun
    | ok next =>
      refine ih.trans (and_congr_left fun _ => ?_)
      constructor
      · exact fun hclean => ⟨next,rfl,hclean⟩
      · rintro ⟨_,⟨⟩,hclean⟩
        exact hclean

theorem verify_clean_iff (h : is_dir disk store.root = true) :
    (∃ report, verify blake3 disk store = .ok report ∧ report.is_clean) ↔
      ∀ path, Examined disk store path → Accepted blake3 disk store path := by
  rw [verify,sorted_blob_files_eq h]
  refine verify_all_clean.trans ⟨fun hall path hpath => ?_,fun hall => ⟨rfl,fun entry hentry => ?_⟩⟩
  · obtain ⟨hash,hmem⟩ := examined_iff.mp hpath
    exact (passes_iff hmem).mp (hall.2 _ hmem)
  · exact (passes_iff hentry).mpr (hall entry.1 (examined_iff.mpr ⟨entry.2,hentry⟩))

theorem isPrefixOf?_append (root relative : OsPath) :
    root.isPrefixOf? (root ++ relative) = some relative := by
  induction root with
  | nil => simp [List.isPrefixOf?]
  | cons name root ih => simp [List.isPrefixOf?,ih]

def copies (store : BlobStore) (destination_root : OsPath)
    (files : List (OsPath × Option Digest)) : List (OsPath × OsPath) :=
  files.map fun entry => (entry.1,destination_root ++ entry.1.drop store.root.length)

theorem copy_files_iff {destination_root : OsPath} (copied : List (OsPath × OsPath))
    (h : ∀ entry ∈ files, ∃ relative, entry.1 = store.root ++ relative) :
    copy_files disk store destination_root files copied =
        (copied ++ copies store destination_root files,.ok (copied.length+files.length)) ↔
      ∀ entry ∈ files, ∃ content, disk entry.1 = .file content := by
  induction files generalizing copied with
  | nil => simp [copy_files,copies]
  | cons entry rest ih =>
    obtain ⟨path,claim⟩ := entry
    obtain ⟨relative,rfl⟩ : ∃ relative, path = store.root ++ relative := h (path,claim) (by simp)
    have hrest : ∀ entry ∈ rest, ∃ relative, entry.1 = store.root ++ relative :=
      fun entry hmem => h entry (mem_cons_of_mem _ hmem)
    rw [copy_files,isPrefixOf?_append,forall_mem_cons]
    have hcopies : copied ++ copies store destination_root ((store.root ++ relative,claim) :: rest) =
        copied ++ [(store.root ++ relative,destination_root ++ relative)] ++
          copies store destination_root rest := by
      rw [copies,map_cons,drop_left,← copies,append_assoc,singleton_append]
    rw [hcopies]
    cases hitem : disk (store.root ++ relative) with
    | file content =>
      dsimp only
      have hlength : copied.length+((store.root ++ relative,claim) :: rest).length =
          (copied ++ [(store.root ++ relative,destination_root ++ relative)]).length+rest.length := by
        simp only [length_append,length_cons,length_nil]
        omega
      rw [hlength,ih _ hrest]
      simp
    | directory | other => simp

def BlobStore.blob_path (store : BlobStore) (hash : Digest) : OsPath :=
  store.root ++ (Store.blob_path hash).map fun name => asciiBytes name.toList

def InTemp (store : BlobStore) (path : OsPath) : Prop :=
  ∃ name rest, path = store.root ++ tempName :: name :: rest

def AllPlaced (blake3 : Bytes → Digest) (disk : Disk) (store : BlobStore) : Prop :=
  ∀ path content, Under disk store.root path → ¬ InTemp store path →
    disk path = .file content → path = store.blob_path (blake3 content)

/-- The sweep comes out clean, and an export copies what it looks at, each file to
its own place. -/
structure Sweeps (blake3 : Bytes → Digest) (disk : Disk) (store : BlobStore) : Prop where
  clean_iff : (∃ report, verify blake3 disk store = .ok report ∧ report.is_clean) ↔
    AllPlaced blake3 disk store
  copied : ∀ destination_root files, sorted_blob_files disk store = .ok files →
    copy_all_into disk store destination_root =
      (copies store destination_root files,.ok files.length)

/-- No file lies above the second level, and the directories a file lies in are
called by two letters each. -/
structure Regular (disk : Disk) (store : BlobStore) : Prop where
  top : ∀ a content, Under disk store.root (store.root ++ [a]) →
    disk (store.root ++ [a]) ≠ .file content
  letters : ∀ a b c, a ≠ tempName → Under disk store.root (store.root ++ [a,b,c]) →
    a.length = 2 ∧ b.length = 2

theorem blob_path_eq (store : BlobStore) (hash : Digest) :
    store.blob_path hash = store.root ++
      [(asciiBytes (BlobHash.to_hex hash).toList).take 2,
        ((asciiBytes (BlobHash.to_hex hash).toList).drop 2).take 2,
        asciiBytes (BlobHash.to_hex hash).toList] := by
  rw [BlobStore.blob_path,Store.blob_path]
  simp only [map_cons,map_nil,String.toList_ofList,asciiBytes,map_take,
    map_drop]

theorem asciiHex_length (hash : Digest) :
    (asciiBytes (BlobHash.to_hex hash).toList).length = 64 := by
  rw [asciiBytes,length_map,to_hex_toList,hexText_length]

theorem prefix_two {a text : OsName} (h : a <+: text) (hlength : a.length = 2) :
    a = text.take 2 := by
  rw [← hlength]
  exact prefix_iff_eq_take.mp h

section
variable {blake3 : Bytes → Digest} {disk : Disk} {store : BlobStore} {content : Bytes}

theorem placed_accepted {path : OsPath} (hfile : disk path = .file content)
    (hpath : path = store.blob_path (blake3 content)) : Accepted blake3 disk store path := by
  rw [blob_path_eq] at hpath
  exact ⟨_,_,content,hpath,hfile,List.take_prefix _ _,List.take_prefix _ _⟩

theorem accepted_placed {a b c : OsName} (hfile : disk (store.root ++ [a,b,c]) = .file content)
    (h : Accepted blake3 disk store (store.root ++ [a,b,c])) (ha : a.length = 2)
    (hb : b.length = 2) : store.root ++ [a,b,c] = store.blob_path (blake3 content) := by
  obtain ⟨a',b',content',hpath,hfile',hfirst,hsecond⟩ := h
  rw [hfile] at hfile'
  cases hfile'
  rw [blob_path_eq]
  generalize asciiBytes (BlobHash.to_hex (blake3 content)).toList = hex at hpath hfirst hsecond ⊢
  have hnames := append_cancel_left hpath
  simp only [List.cons.injEq,and_true] at hnames
  obtain ⟨rfl,rfl,rfl⟩ := hnames
  rw [← prefix_two hfirst ha,← prefix_two hsecond hb]

theorem examined_outside {path : OsPath} (h : Examined disk store path) : ¬ InTemp store path := by
  obtain ⟨_,a,b,ha,hcase⟩ := h
  rintro ⟨name,rest,hpath⟩
  rcases hcase with ⟨rfl,_⟩ | ⟨c,rfl⟩ <;>
    exact ha (List.cons.inj (append_cancel_left hpath)).1

theorem copied_iff (hroot : is_dir disk store.root = true) :
    (∀ destination_root files, sorted_blob_files disk store = .ok files →
      copy_all_into disk store destination_root =
        (copies store destination_root files,.ok files.length)) ↔
      ∀ path, Examined disk store path → ∃ content, disk path = .file content := by
  have hfiles := sorted_blob_files_eq hroot
  have hrelative : ∀ entry ∈ ((listed disk store.root).map (firsts disk)).flatten,
      ∃ relative, entry.1 = store.root ++ relative :=
    fun entry hmem => (examined_iff.mpr ⟨entry.2,hmem⟩).1.relative
  constructor
  · intro h path hpath
    obtain ⟨hash,hmem⟩ := examined_iff.mp hpath
    have hcopied := h [] _ hfiles
    rw [copy_all_into,hfiles] at hcopied
    have hlength := (Nat.zero_add (((listed disk store.root).map (firsts disk)).flatten).length).symm
    rw [hlength] at hcopied
    exact (copy_files_iff [] hrelative).mp hcopied _ hmem
  · intro h destination_root files hok
    rw [hfiles] at hok
    cases hok
    have hall : copy_files disk store destination_root
        ((listed disk store.root).map (firsts disk)).flatten [] = _ :=
      (copy_files_iff [] hrelative).mpr fun entry hmem =>
        h entry.1 (examined_iff.mpr ⟨entry.2,hmem⟩)
    rw [copy_all_into,hfiles]
    dsimp only
    rw [hall,nil_append,length_nil,Nat.zero_add]

theorem under_placed (hroot : is_dir disk store.root = true)
    (hfiles : ∀ path, Examined disk store path → ∃ content, disk path = .file content)
    (hall : ∀ path, Examined disk store path → Accepted blake3 disk store path)
    (hregular : Regular disk store) {relative : OsPath}
    (hunder : Under disk store.root (store.root ++ relative))
    (houtside : ¬ InTemp store (store.root ++ relative))
    (hfile : disk (store.root ++ relative) = .file content) :
    store.root ++ relative = store.blob_path (blake3 content) := by
  rcases relative with _ | ⟨a,_ | ⟨b,rest⟩⟩
  · obtain ⟨names,hnames⟩ := is_dir_iff.mp hroot
    rw [append_nil,hnames] at hfile
    cases hfile
  · exact absurd hfile (hregular.top a content hunder)
  · have ha : a ≠ tempName := by
      rintro rfl
      exact houtside ⟨b,rest,rfl⟩
    rcases rest with _ | ⟨c,_ | ⟨d,further⟩⟩
    · have hplain : is_dir disk (store.root ++ [a,b]) = false := by
        rw [is_dir,hfile]
      obtain ⟨_,_,_,hpath,_⟩ := hall _ ⟨hunder,a,b,ha,Or.inl ⟨rfl,hplain⟩⟩
      have hlength := congrArg List.length hpath
      simp at hlength
    · have haccepted := hall _ ⟨hunder,a,b,ha,Or.inr ⟨c,rfl⟩⟩
      obtain ⟨htwo,htwo'⟩ := hregular.letters a b c ha hunder
      exact accepted_placed hfile haccepted htwo htwo'
    · have hdeep : Under disk store.root (store.root ++ ([a,b,c] ++ d :: further)) := hunder
      have hthird := hdeep.before
      have hchild : Under disk store.root (store.root ++ ([a,b,c] ++ [d])) := by
        have hsplit : store.root ++ ([a,b,c] ++ d :: further) =
            store.root ++ (([a,b,c] ++ [d]) ++ further) := by simp
        rw [hsplit] at hdeep
        exact hdeep.before
      rw [← append_assoc] at hchild
      obtain ⟨_,names,hnames,_⟩ := hchild.parent
      obtain ⟨content',hfile'⟩ := hfiles _ ⟨hthird,a,b,ha,Or.inr ⟨c,rfl⟩⟩
      rw [hnames] at hfile'
      cases hfile'

/-- The sweep tells the truth, and an export is whole, just where all it looks at
are files, and either one of these does not pass or the directory is regular. -/
theorem sweeps_iff (hroot : is_dir disk store.root = true) :
    Sweeps blake3 disk store ↔
      (∀ path, Examined disk store path → ∃ content, disk path = .file content) ∧
      ((∃ path, Examined disk store path ∧ ¬ Accepted blake3 disk store path) ∨
        Regular disk store) := by
  constructor
  · intro h
    have hfiles := (copied_iff hroot).mp h.copied
    refine ⟨hfiles,?_⟩
    by_cases hall : ∀ path, Examined disk store path → Accepted blake3 disk store path
    · have hplaced := h.clean_iff.mp ((verify_clean_iff hroot).mpr hall)
      refine Or.inr ⟨fun a content hunder hfile => ?_,fun a b c ha hunder => ?_⟩
      · have houtside : ¬ InTemp store (store.root ++ [a]) := by
          rintro ⟨name,rest,htemp⟩
          have hlength := congrArg List.length htemp
          simp at hlength
        have hpath := hplaced _ content hunder houtside hfile
        rw [blob_path_eq] at hpath
        have hlength := congrArg List.length hpath
        simp at hlength
      · have hexamined : Examined disk store (store.root ++ [a,b,c]) :=
          ⟨hunder,a,b,ha,Or.inr ⟨c,rfl⟩⟩
        obtain ⟨content,hfile⟩ := hfiles _ hexamined
        have hpath := hplaced _ content hunder (examined_outside hexamined) hfile
        have hlength := asciiHex_length (blake3 content)
        rw [blob_path_eq] at hpath
        generalize asciiBytes (BlobHash.to_hex (blake3 content)).toList = hex at hpath hlength
        have hnames := append_cancel_left hpath
        simp only [List.cons.injEq] at hnames
        rw [hnames.1,hnames.2.1,length_take,length_take,length_drop]
        omega
    · refine Or.inl ?_
      simp only [not_forall] at hall
      obtain ⟨path,hexamined,hnot⟩ := hall
      exact ⟨path,hexamined,hnot⟩
  · rintro ⟨hfiles,hcase⟩
    refine ⟨(verify_clean_iff hroot).trans ⟨fun hall => ?_,fun hplaced path hpath => ?_⟩,
      (copied_iff hroot).mpr hfiles⟩
    · rcases hcase with ⟨path,hexamined,hnot⟩ | hregular
      · exact absurd (hall path hexamined) hnot
      intro path content hunder houtside hfile
      obtain ⟨relative,rfl⟩ := hunder.relative
      exact under_placed hroot hfiles hall hregular hunder houtside hfile
    · obtain ⟨content,hfile⟩ := hfiles path hpath
      exact placed_accepted hfile (hplaced path content hpath.1 (examined_outside hpath) hfile)

end

def singleBlob (a b name : OsName) : Disk := fun path =>
  if path = [] then .directory [a]
  else if path = [a] then .directory [b]
  else if path = [a,b] then .directory [name]
  else if path = [a,b,name] then .file []
  else .other

theorem singleBlob_blob (a b name : OsName) : Under (singleBlob a b name) [] [a,b,name] := by
  have hfirst : Under (singleBlob a b name) [] ([] ++ [a]) :=
    Under.root.into rfl (mem_singleton_self _)
  have hsecond : Under (singleBlob a b name) [] ([a] ++ [b]) :=
    hfirst.into (by simp [singleBlob]) (mem_singleton_self _)
  exact hsecond.into (by simp [singleBlob]) (mem_singleton_self _)

theorem singleBlob_under {a b : OsName} (h : Under (singleBlob a b name) [] path) :
    path = [] ∨ path = [a] ∨ path = [a,b] ∨ path = [a,b,name] := by
  induction h with
  | root => exact Or.inl rfl
  | into hpath hnames hname ih =>
    rcases ih with rfl | rfl | rfl | rfl <;> simp [singleBlob] at hnames <;> subst hnames <;>
      simp at hname <;> simp [hname]

theorem singleBlob_examined {a b : OsName} (h : Examined (singleBlob a b name) ⟨[]⟩ path) :
    path = [a,b,name] := by
  obtain ⟨hunder,a',b',_,hcase⟩ := h
  rcases singleBlob_under hunder with rfl | rfl | rfl | rfl
  · simp at hcase
  · simp at hcase
  · simp [is_dir,singleBlob] at hcase
  · rfl

def zeros : OsName := List.replicate 64 48

theorem zeros_eq : asciiBytes (BlobHash.to_hex 0).toList = zeros := by decide +kernel

/-- A blob in its own place. -/
theorem placed_sweeps : Sweeps (fun _ => 0) (singleBlob [48,48] [48,48] zeros) ⟨[]⟩ := by
  refine (sweeps_iff rfl).mpr ⟨fun path hpath => ?_,Or.inr ⟨?_,?_⟩⟩
  · rw [singleBlob_examined hpath]
    exact ⟨[],by simp [singleBlob]⟩
  · intro a content hunder hfile
    rcases singleBlob_under hunder with h | h | h | h <;> simp at h
    subst h
    simp [singleBlob] at hfile
  · intro a b c _ hunder
    rcases singleBlob_under hunder with h | h | h | h <;> simp at h
    obtain ⟨rfl,rfl,_⟩ := h
    exact ⟨rfl,rfl⟩

/-- One letter each is enough for the sweep, and `open_blob` looks elsewhere. -/
theorem short_names_pass : ¬ Sweeps (fun _ => 0) (singleBlob [48] [48] zeros) ⟨[]⟩ := by
  intro h
  have hfile : singleBlob [48] [48] zeros [[48],[48],zeros] = .file [] := by simp [singleBlob]
  have hunder : Under (singleBlob [48] [48] zeros) [] [[48],[48],zeros] :=
    singleBlob_blob _ _ _
  have haccepted : ∀ path, Examined (singleBlob [48] [48] zeros) ⟨[]⟩ path →
      Accepted (fun _ => 0) (singleBlob [48] [48] zeros) ⟨[]⟩ path := by
    intro path hpath
    rw [singleBlob_examined hpath]
    refine ⟨[48],[48],[],?_⟩
    rw [zeros_eq]
    exact ⟨rfl,hfile,by decide,by decide⟩
  have hplaced := h.clean_iff.mp ((verify_clean_iff rfl).mpr haccepted) _ [] hunder
    (by rintro ⟨_,_,⟨⟩⟩) hfile
  rw [blob_path_eq,zeros_eq] at hplaced
  exact absurd hplaced (by decide)

end ProjectOS.Store
