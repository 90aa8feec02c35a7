import ProjectOS.Lib.Files
import ProjectOS.Foundation
import ProjectOS.Store.Db

/-! The blob store: content goes through a bounded buffer and a temp file and is
published under its hash by a rename. Every step is one file operation of one writer or
one call of `open`, in any process. -/

namespace ProjectOS.Store
open Lib

def CAS_WRITE_BUFFER_CAP : Nat := 8*1024*1024

def TEMP_DIRECTORY_NAME : String := "tmp"

abbrev Path := List String

def BlobHash.to_hex (hash : Digest) : String := String.ofList (hexText 64 hash.toNat)

def blob_path (hash : Digest) : Path :=
  let hex := (BlobHash.to_hex hash).toList
  [String.ofList (hex.take 2),String.ofList ((hex.drop 2).take 2),String.ofList hex]

def active_process (pid : Nat) : String := "write-" ++ toString pid ++ "-"

def temp_path (pid unique : Nat) : Path :=
  [TEMP_DIRECTORY_NAME,active_process pid ++ toString unique]

def starts_with (name start : String) : Bool := start.toList.isPrefixOf name.toList

def chunksOf (n : Nat) : Nat → Bytes → List Bytes
  | 0, _ => []
  | fuel+1, content =>
    if content = [] then [] else content.take n :: chunksOf n fuel (content.drop n)

/-- How the operating system answers: success, how much of a failed write came
through, and what a directory lists. -/
structure FileInput where
  ok : Bool := true
  came_through : Nat := 0
  names : List String := []
  entry : Bool := true

structure BlobWriter where
  hasher : Bytes
  file : Option Handle
  temp_path : Path
  buffer : Bytes
  buffered_len_max : Nat
  deriving DecidableEq

namespace BlobWriter

def flush_buffer (x : FileInput) (d : Files Path) (w : BlobWriter) :
    Bool × BlobWriter × Files Path :=
  if w.buffer = [] then (true,w,d)
  else
    match w.file with
    | none => (false,w,d)
    | some file =>
      let w := { w with hasher := w.hasher ++ w.buffer }
      if x.ok then
        let (file,d) := d.write file w.buffer
        (true,{ w with file := some file, buffer := [] },d)
      else
        let (file,d) := d.write file (w.buffer.take x.came_through)
        (false,{ w with file := some file },d)

def extend (w : BlobWriter) (piece : Bytes) : BlobWriter :=
  { w with
    buffer := w.buffer ++ piece
    buffered_len_max := max w.buffered_len_max (w.buffer ++ piece).length }

end BlobWriter

/-- Where a writer stands. `held` and `failed` wait for the caller; the rest goes on
by itself. -/
inductive Task where
  | creating
  | held (writer : BlobWriter)
  | failed (writer : BlobWriter)
  | appending (writer : BlobWriter) (pieces : List Bytes)
  | finishing (writer : BlobWriter)
  | syncing (writer : BlobWriter) (file : Handle)
  | synced (writer : BlobWriter) (hash : Digest)
  | checking (writer : BlobWriter) (hash : Digest)
  | removing (writer : BlobWriter) (hash : Digest)
  | placing (writer : BlobWriter) (hash : Digest)
  | publishing (writer : BlobWriter) (hash : Digest)
  | renamed (writer : BlobWriter) (hash : Digest)
  | dropping (writer : BlobWriter)

/-- One writer: its process and temp number, its store's plan, and what its caller
has appended. -/
structure Slot where
  pid : Nat
  unique : Nat
  faults : Option FaultPlan
  content : Bytes
  task : Task

inductive After where
  | goes (task : Task)
  | ends (result : Option Digest)
  | aborts

def Slot.next (blake3 : Bytes → Digest) (x : FileInput) (d : Files Path) (s : Slot) :
    Files Path × After :=
  match s.task with
  | .creating =>
    if x.ok then
      let (file,d) := d.create (temp_path s.pid s.unique)
      (d,.goes (.held ⟨[],some file,temp_path s.pid s.unique,[],0⟩))
    else (d,.ends none)
  | .held writer => (d,.goes (.held writer))
  | .failed writer => (d,.goes (.failed writer))
  | .appending writer [] => (d,.goes (.held writer))
  | .appending writer (piece :: pieces) =>
    if CAS_WRITE_BUFFER_CAP < writer.buffer.length+piece.length then
      match writer.flush_buffer x d with
      | (true,writer,d) => (d,.goes (.appending (writer.extend piece) pieces))
      | (false,writer,d) => (d,.goes (.failed writer))
    else (d,.goes (.appending (writer.extend piece) pieces))
  | .finishing writer =>
    match writer.flush_buffer x d with
    | (true,writer,d) =>
      match writer.file with
      | some file => (d,.goes (.syncing { writer with file := none } file))
      | none => (d,.goes (.dropping writer))
    | (false,writer,d) => (d,.goes (.dropping writer))
  | .syncing writer _ =>
    if x.ok then (d,.goes (.synced writer (blake3 writer.hasher))) else (d,.goes (.dropping writer))
  | .synced writer hash =>
    match trip s.faults .casTempWritten with
    | some .abort => (d,.aborts)
    | some .failOperation => (d,.goes (.dropping writer))
    | none => (d,.goes (.checking writer hash))
  | .checking writer hash =>
    -- a failed stat says that it is no file
    if x.ok ∧ (d.entries (blob_path hash)).isSome then (d,.goes (.removing writer hash))
    else (d,.goes (.placing writer hash))
  | .removing writer hash =>
    (if x.ok then d.unlink writer.temp_path else d,.ends (some hash))
  | .placing writer hash =>
    if x.ok then (d,.goes (.publishing writer hash)) else (d,.goes (.dropping writer))
  | .publishing writer hash =>
    if x.ok ∧ (d.entries writer.temp_path).isSome then
      (d.rename writer.temp_path (blob_path hash),.goes (.renamed writer hash))
    else (d,.goes (.dropping writer))
  | .renamed _ hash =>
    match trip s.faults .casRenamed with
    | some .abort => (d,.aborts)
    | some .failOperation => (d,.ends none)
    | none => (d,.ends (if x.ok then some hash else none))
  | .dropping writer =>
    -- only a writer that still has its file removes it
    (if writer.file.isSome ∧ x.ok then d.unlink writer.temp_path else d,.ends none)

def Slot.publishes (s : Slot) (task : Task) : List (Bytes × Digest) :=
  match s.task, task with
  | .publishing _ _, .renamed _ hash => [(s.content,hash)]
  | _, _ => []

inductive OpenStage where
  | making
  | reading
  | sweeping (names : List String)

structure Opening where
  pid : Nat
  stage : OpenStage

def Opening.next (x : FileInput) (d : Files Path) (o : Opening) :
    Files Path × Option OpenStage :=
  match o.stage with
  | .making => (d,if x.ok then some .reading else none)
  | .reading => (d,if x.ok then some (.sweeping x.names) else none)
  | .sweeping [] => (d,none)
  | .sweeping (name :: names) =>
    if !x.entry then (d,none)
    else if starts_with name (active_process o.pid) then (d,some (.sweeping names))
    else
      (if x.ok then d.unlink [TEMP_DIRECTORY_NAME,name] else d,some (.sweeping names))

/-- The directory and who works in it. A process is its next temp number; `finished`
is what `finish` has returned, `published` what was renamed. -/
structure World where
  disk : Files Path
  processes : Nat → Option Nat
  slots : Nat → Option Slot
  opens : Nat → Option Opening
  finished : List (Bytes × Digest)
  published : List (Bytes × Digest)

/-- A process starts or dies, a caller calls, or a writer or an `open` takes its
next step. -/
inductive Move where
  | spawn (pid : Nat)
  | kill (pid : Nat)
  | writer (i pid : Nat) (faults : Option FaultPlan)
  | append (i : Nat) (content : Bytes)
  | finish (i : Nat)
  | drop (i : Nat)
  | next (i : Nat) (x : FileInput)
  | open_store (o pid : Nat)
  | open_next (o : Nat) (x : FileInput)

namespace World

def empty : World := ⟨Files.empty,fun _ => none,fun _ => none,fun _ => none,[],[]⟩

def setSlot (w : World) (i : Nat) (s : Option Slot) : World :=
  { w with slots := Function.update w.slots i s }

def setOpen (w : World) (o : Nat) (s : Option Opening) : World :=
  { w with opens := Function.update w.opens o s }

def kill (w : World) (pid : Nat) : World :=
  { w with
    processes := Function.update w.processes pid none
    slots := fun i => (w.slots i).filter fun s => s.pid ≠ pid
    opens := fun o => (w.opens o).filter fun s => s.pid ≠ pid }

def call (w : World) (i : Nat) (f : Slot → BlobWriter → Slot) : World :=
  match w.slots i with
  | some s =>
    match s.task with
    | .held writer => w.setSlot i (some (f s writer))
    | _ => w
  | none => w

def after (w : World) (i : Nat) (s : Slot) : After → World
  | .goes task =>
    { w with
      slots := Function.update w.slots i (some { s with task := task })
      published := w.published ++ s.publishes task }
  | .ends none => w.setSlot i none
  | .ends (some hash) =>
    { w with
      slots := Function.update w.slots i none
      finished := w.finished ++ [(s.content,hash)] }
  | .aborts => w.kill s.pid

def step (blake3 : Bytes → Digest) (w : World) : Move → World
  | .spawn pid =>
    if (w.processes pid).isSome then w
    else { w with processes := Function.update w.processes pid (some 0) }
  | .kill pid => w.kill pid
  | .writer i pid faults =>
    match w.processes pid, w.slots i with
    | some unique, none =>
      { w with
        processes := Function.update w.processes pid (some ((unique+1) % 2^64))
        slots := Function.update w.slots i (some ⟨pid,unique,faults,[],.creating⟩) }
    | _, _ => w
  | .append i content =>
    w.call i fun s writer =>
      { s with
        content := s.content ++ content
        task := .appending writer (chunksOf CAS_WRITE_BUFFER_CAP content.length content) }
  | .finish i => w.call i fun s writer => { s with task := .finishing writer }
  | .drop i =>
    match w.slots i with
    | some s =>
      match s.task with
      | .held writer
      | .failed writer => w.setSlot i (some { s with task := .dropping writer })
      | _ => w
    | none => w
  | .next i x =>
    match w.slots i with
    | some s =>
      let (disk,after) := s.next blake3 x w.disk
      { w with disk }.after i s after
    | none => w
  | .open_store o pid =>
    match w.processes pid, w.opens o with
    | some _, none => w.setOpen o (some ⟨pid,.making⟩)
    | _, _ => w
  | .open_next o x =>
    match w.opens o with
    | some s =>
      let (disk,stage) := s.next x w.disk
      { w with disk }.setOpen o (stage.map fun stage => ⟨s.pid,stage⟩)
    | none => w

def run (blake3 : Bytes → Digest) (w : World) (moves : List Move) : World :=
  moves.foldl (step blake3) w

theorem run_append (blake3 : Bytes → Digest) (w : World) (first second : List Move) :
    w.run blake3 (first ++ second) = (w.run blake3 first).run blake3 second := List.foldl_append ..

def Along (blake3 : Bytes → Digest) (ok : World → Move → Prop) : World → List Move → Prop
  | _, [] => True
  | w, m :: moves => ok w m ∧ Along blake3 ok (w.step blake3 m) moves

/-- No open writer of the process has the number yet. -/
def Distinct (w : World) : Move → Prop
  | .writer _ pid _ => ∀ unique, w.processes pid = some unique →
    ∀ j t, w.slots j = some t → t.pid = pid → t.unique ≠ unique
  | _ => True

end World

end ProjectOS.Store
