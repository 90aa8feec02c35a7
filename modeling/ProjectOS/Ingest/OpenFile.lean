import ProjectOS.Gateway.Sse
import ProjectOS.Ingest.Captions

/-! Intake of one file: what its first bytes say it is, and whether it is small
enough for that. -/

namespace ProjectOS.Ingest
open Lib Domain List

def sniffPrefixBytes : Nat := 4096
def intakeFileBytesMax : Nat := 16*1024*1024*1024
def intakeTextBytesMax : Nat := 1024*1024*1024
def sniffLineCountMax : Nat := 16

def startsWithText (prefix_bytes : Bytes) (text : String) : Bool :=
  (encode text.toList).isPrefixOf prefix_bytes

def showsAt (prefix_bytes : Bytes) (start : Nat) (text : String) : Bool :=
  startsWithText (prefix_bytes.drop start) text

def sniffContainer (prefix_bytes : Bytes) : Option MediaKind :=
  if startsWithText prefix_bytes "RIFF" && showsAt prefix_bytes 8 "WAVE" then some .audio
  else if startsWithText prefix_bytes "OggS" || startsWithText prefix_bytes "fLaC" ||
      startsWithText prefix_bytes "ID3" then some .audio
  else if 2 ≤ prefix_bytes.length ∧ prefix_bytes.getD 0 0 = 0xFF ∧
      0xE2 ≤ (prefix_bytes.getD 1 0 &&& 0xE6) then some .audio
  else if 12 ≤ prefix_bytes.length ∧ showsAt prefix_bytes 4 "ftyp" = true then
    if showsAt prefix_bytes 8 "M4A" || showsAt prefix_bytes 8 "M4B" then some .audio
    else some .video
  else if List.isPrefixOf [0x1A,0x45,0xDF,0xA3] prefix_bytes then some .video
  else if List.isPrefixOf [0x00,0x00,0x01,0xBA] prefix_bytes ||
      List.isPrefixOf [0x00,0x00,0x01,0xB3] prefix_bytes then some .video
  else if startsWithText prefix_bytes "%PDF-" then some .opaque_
  else none

def openAfter : Option Gateway.OpenChar → Bytes → List Char × Option Gateway.OpenChar
  | c, [] => ([],c)
  | c, b :: rest =>
    let next := Gateway.nextByte b.toNat c
    let later := openAfter next.2 rest
    (next.1 ++ later.1,later.2)

def tornChar (bytes : Bytes) : Bool :=
  (openAfter none bytes).1.isEmpty && (openAfter none bytes).2.isSome

def firstValidUtf8 (prefix_bytes : Bytes) : Option (List Char) :=
  ([1,2,3].findSome? fun torn =>
    if tornChar (prefix_bytes.drop (prefix_bytes.length-torn)) then
      decodeUtf8 (prefix_bytes.take (prefix_bytes.length-torn))
    else none).filter fun text => !text.isEmpty

def prefixText (prefix_bytes : Bytes) : Option (List Char) :=
  (decodeUtf8 prefix_bytes).or (firstValidUtf8 prefix_bytes)

def byteOrderMark : Char := Char.ofNat 0xFEFF

def stripMark : List Char → List Char
  | [] => []
  | c :: text => if c = byteOrderMark then text else c :: text

def sniffCaptions (prefix_bytes : Bytes) : Option MediaKind := do
  let text ← prefixText prefix_bytes
  let text := stripMark text
  if "WEBVTT".toList.isPrefixOf text then some .captions
  else
    match (lines text).filter fun line => !(trim line).isEmpty with
    | first :: second :: _ =>
      if (fromStrRadix 10 u32Max (trim first)).isSome && containsArrow second then some .captions
      else none
    | _ => none

def markdownLine (line : List Char) : Bool :=
  "# ".toList.isPrefixOf line || "## ".toList.isPrefixOf line || "```".toList.isPrefixOf line

def evenlySeparated (lines : List (List Char)) : Bool :=
  match (lines.filter fun line => !line.isEmpty).map fun line => line.count ',' with
  | first :: second :: counts => decide (0 < first) && (second :: counts).all (· == first)
  | _ => false

def sniffMediaKind (prefix_bytes : Bytes) : MediaKind :=
  if prefix_bytes.isEmpty then .plainText
  else if prefix_bytes.contains 0 then .opaque_
  else
    match prefixText prefix_bytes with
    | none => .opaque_
    | some text =>
      let lines := (lines text).take sniffLineCountMax
      if lines.any markdownLine then .markdown
      else if evenlySeparated lines then .csv
      else .plainText

def sniffIntake (prefix_bytes : Bytes) : MediaKind :=
  ((sniffContainer prefix_bytes).or (sniffCaptions prefix_bytes)).getD (sniffMediaKind prefix_bytes)

def shapeFor : MediaKind → EvidenceShape
  | .audio | .video | .captions => .transcript
  | .csv => .table
  | .structured => .thread
  | .plainText | .markdown | .opaque_ => .document

def isText : MediaKind → Bool
  | .plainText | .markdown | .csv | .captions => true
  | .structured | .audio | .video | .opaque_ => false

example : sniffIntake (encode "# Notes\n\nWe agreed to ship.".toList) = .markdown := by decide +kernel

structure DiskFile where
  is_file : Bool
  content : Bytes
  modified_ms : Option Nat
  stat_fault : Option String
  open_fault : Option String
  offers : List (Except String Nat)
  rewind_fault : Option String

def DiskFile.reader (f : DiskFile) : Reader := ⟨f.content,f.offers⟩

structure IntakeFile where
  content : Bytes
  media_kind : MediaKind
  shape : EvidenceShape
  byte_size : Nat
  modified_ms : Option Nat

def readPrefix : Nat → Bytes → Reader → Except IngestError Bytes
  | 0, filled, _ => .ok filled
  | rounds+1, filled, r =>
    if sniffPrefixBytes ≤ filled.length then .ok filled
    else
      match r.read (sniffPrefixBytes-filled.length) with
      | .error fault => .error (.io "read an intake prefix" fault)
      | .ok (bytes,r) => if bytes.isEmpty then .ok filled else readPrefix rounds (filled ++ bytes) r

def classify (f : DiskFile) (prefix_bytes : Bytes) : Except IngestError IntakeFile :=
  let media_kind := sniffIntake prefix_bytes
  let byte_size := f.content.length
  if isText media_kind = true ∧ intakeTextBytesMax < byte_size then
    .error (.limitExceeded "intake text bytes" byte_size intakeTextBytesMax)
  else .ok ⟨f.content,media_kind,shapeFor media_kind,byte_size,f.modified_ms⟩

def openFile (f : DiskFile) : Except IngestError IntakeFile :=
  match f.stat_fault with
  | some fault => .error (.io "stat an intake file" fault)
  | none =>
    if f.is_file = false then
      .error (.io "open an intake file"
        "only regular files are ingested; directories are walked and symlinks are skipped")
    else if intakeFileBytesMax < f.content.length then
      .error (.limitExceeded "intake file bytes" f.content.length intakeFileBytesMax)
    else
      match f.open_fault with
      | some fault => .error (.io "open an intake file" fault)
      | none =>
        match readPrefix (sniffPrefixBytes+1) [] f.reader with
        | .error e => .error e
        | .ok prefix_bytes =>
          match f.rewind_fault with
          | some fault => .error (.io "rewind an intake file" fault)
          | none => classify f prefix_bytes

theorem readPrefix_ok {rounds : Nat} {filled prefix_bytes : Bytes} {r : Reader}
    (hrounds : sniffPrefixBytes < filled.length+rounds) (hfilled : filled.length ≤ sniffPrefixBytes)
    (h : readPrefix rounds filled r = .ok prefix_bytes) :
    prefix_bytes = (filled ++ r.rest).take sniffPrefixBytes := by
  induction rounds generalizing filled r with
  | zero => omega
  | succ rounds ih =>
    rw [readPrefix] at h
    split_ifs at h with hfull
    · have hlength : filled.length = sniffPrefixBytes := Nat.le_antisymm hfilled hfull
      rw [← Except.ok.inj h,← hlength,take_left]
    · cases hread : r.read (sniffPrefixBytes-filled.length) with
      | error fault =>
        rw [hread] at h
        cases h
      | ok next =>
        obtain ⟨bytes,r'⟩ := next
        obtain ⟨hrest,hlength,hend⟩ := Reader.read_ok hread
        rw [hread] at h
        dsimp only at h
        split_ifs at h with hempty
        · have hnil : r.rest = [] := by
            rw [← hrest,isEmpty_iff.mp hempty,
              hend (by omega) (isEmpty_iff.mp hempty),nil_append]
          rw [← Except.ok.inj h,hnil,append_nil,take_of_length_le hfilled]
        · have hpos := length_pos_iff.mpr fun hnil => hempty (isEmpty_iff.mpr hnil)
          have hlead := ih (by rw [length_append]; omega)
            (by rw [length_append]; omega) h
          rw [hlead,append_assoc,hrest]

theorem readPrefix_calm (rounds : Nat) (content : Bytes) :
    readPrefix (rounds+2) [] ⟨content,[]⟩ = .ok (content.take sniffPrefixBytes) := by
  have hpos : ¬ sniffPrefixBytes ≤ ([] : Bytes).length := by decide
  rw [readPrefix,if_neg hpos,Reader.read]
  simp only [length_nil,Nat.sub_zero,nil_append]
  by_cases hempty : (content.take sniffPrefixBytes).isEmpty = true
  · rw [if_pos hempty,isEmpty_iff.mp hempty]
  · rw [if_neg hempty,readPrefix]
    split_ifs with hfull
    · rfl
    · have hrest : content.drop sniffPrefixBytes = [] := by
        rw [length_take] at hfull
        exact drop_eq_nil_of_le (by omega)
      rw [Reader.read,hrest]
      simp

theorem openFile_ok {f : DiskFile} {file : IntakeFile} (h : openFile f = .ok file) :
    file.content = f.content ∧ file.byte_size = f.content.length ∧
      file.media_kind = sniffIntake (f.content.take sniffPrefixBytes) ∧
      file.shape = shapeFor file.media_kind ∧ f.content.length ≤ intakeFileBytesMax ∧
      (isText file.media_kind = true → f.content.length ≤ intakeTextBytesMax) := by
  unfold openFile at h
  split at h
  · cases h
  split_ifs at h with hregular hlarge
  split at h
  · cases h
  split at h
  · cases h
  rename_i prefix_bytes hlead
  have hread := readPrefix_ok (by simp) (Nat.zero_le _) hlead
  rw [nil_append] at hread
  split at h
  · cases h
  unfold classify at h
  simp only at h
  split_ifs at h with htext
  cases h
  refine ⟨rfl,rfl,congrArg sniffIntake hread,rfl,Nat.not_lt.mp hlarge,fun hkind => ?_⟩
  exact Nat.not_lt.mp fun hlong => htext ⟨hkind,hlong⟩

end ProjectOS.Ingest
