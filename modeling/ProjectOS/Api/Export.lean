import ProjectOS.Lib.Amid
import ProjectOS.Log.Replay
import ProjectOS.Store.Blobs
import ProjectOS.Api.Surface

/-! `project.export`: the database, the blobs, the rendering of the log and the
manifest, copied one after another from a project that others go on writing. -/

namespace ProjectOS.Api
open Lib Store Log List Lib.Prog

structure ExportedRef where
  entity : String
  id : String

structure ExportedEventLine where
  seq : Nat
  device : String
  lamport : Nat
  ts_ms : Nat
  actor_kind : String
  actor_id : String
  kind : String
  body_cbor_hex : String
  refs : List ExportedRef

structure ProjectExportReport where
  out : String
  event_count : Nat
  blob_count : Nat
  deriving DecidableEq

def hex_encode (bytes : Bytes) : String :=
  String.ofList (bytes.flatMap fun byte => hexText 2 byte.toNat)

def exportedActor : Actor → String × String
  | .user id => ("user",id.toHex)
  | .agent id => ("agent",id.toHex)
  | .system id => ("system",id.toHex)

def ExportedEventLine.of (event : Event) : ExportedEventLine where
  seq := event.seq
  device := event.device.toHex
  lamport := event.lamport
  ts_ms := event.tsMs
  actor_kind := (exportedActor event.actor).1
  actor_id := (exportedActor event.actor).2
  kind := event.kind.tag
  body_cbor_hex := hex_encode event.body
  refs := event.refs.map fun ref => ⟨ref.entity,String.ofList (hexText 32 ref.id.toNat)⟩

def exported_line (to_string : ExportedEventLine → Except String String) (event : Event) :
    Except ApiError String :=
  match to_string (.of event) with
  | .ok line => .ok line
  | .error error => .error ⟨"log_failure",
      s!"event {event.seq} cannot be decoded: export serialization failed: {error}",false⟩

def already_exists (out : String) : ApiError :=
  ⟨"already_exists",s!"{out} already exists and is not empty",false⟩

/-- The project's own directory, its blobs under their paths below the store's root.
-/
structure Live where
  log : List Event
  blobs : Table Store.Path Bytes
  manifest : Bytes

/-- The export directory; `events.jsonl` is in the buffer until it is flushed. -/
structure Exported where
  database : Option (List Event)
  blobs : Table Store.Path Bytes
  events_jsonl : Option String
  buffer : String
  manifest : Option Bytes

/-- What happened to the log, in order: a copy of its database, a commit, a
reading of a batch. -/
inductive Happening where
  | copied
  | committed (events : List Event)
  | read
  deriving DecidableEq

structure World where
  live : Live
  out : Option Exported
  history : List Happening

inductive ExportAct where
  | open_log
  | out_exists
  | create_out
  | vacuum_into
  | create_temp
  | list (dir : Store.Path)
  | is_dir (path : Store.Path)
  | create_parent (path : Store.Path)
  | copy (path : Store.Path)
  | create_events
  | read_batch_after (cursor : Nat)
  | write_all (text : String)
  | flush
  | read_manifest
  | write_manifest (manifest : Bytes)

inductive ExportEnd where
  | failed (error : ApiError)
  | unfinished
  deriving DecidableEq

abbrev exportIface : Interface where
  Act := ExportAct
  Resp
    | .out_exists => Bool
    | .is_dir _ => Bool
    | .list _ => Except ApiError (List String)
    | .read_batch_after _ => Except ApiError (List Event)
    | .read_manifest => Except ApiError Bytes
    | _ => Except ApiError Unit

structure ExportInput where
  fault : Option ApiError := none
  spill : Bool := false

def child (dir path : Store.Path) : Option String :=
  if dir.isPrefixOf path then path[dir.length]? else none

def entries (files : Table Store.Path Bytes) (dir : Store.Path) : List String :=
  (files.rows.filterMap fun row => child dir row.1).dedup

def holds_entries (files : Table Store.Path Bytes) (path : Store.Path) : Bool :=
  files.rows.any fun row => (child path row.1).isSome

namespace Exported

def new : Exported := ⟨none,Table.empty,none,"",none⟩

def flushed (out : Exported) : Exported :=
  { out with events_jsonl := out.events_jsonl.map (· ++ out.buffer), buffer := "" }

def written (out : Exported) (text : String) (spill : Bool) : Exported :=
  let out := { out with buffer := out.buffer ++ text }
  if spill then out.flushed else out

end Exported

namespace World

def onOut (w : World) (f : Exported → Exported) : World := { w with out := w.out.map f }

def noting (w : World) (happening : Happening) : World :=
  { w with history := w.history ++ [happening] }

def read_batch_after (w : World) (cursor : Nat) : List Event :=
  (w.live.log.filter fun event => cursor < event.seq).take replayBatchEventCount

end World

def exportMachine : Machine exportIface ExportInput World where
  step x w a :=
    match a, x.fault with
    | .out_exists, _ => (w.out.isSome,w)
    | .is_dir path, _ => (holds_entries w.live.blobs path,w)
    | .open_log, some error => (.error error,w)
    | .open_log, none => (.ok (),w)
    | .create_out, some error => (.error error,w)
    | .create_out, none => (.ok (),{ w with out := some .new })
    | .vacuum_into, some error => (.error error,w)
    | .vacuum_into, none =>
      (.ok (),(w.onOut fun out => { out with database := some w.live.log }).noting .copied)
    | .create_temp, some error => (.error error,w)
    | .create_temp, none => (.ok (),w)
    | .list _, some error => (.error error,w)
    | .list dir, none => (.ok (entries w.live.blobs dir),w)
    | .create_parent _, some error => (.error error,w)
    | .create_parent _, none => (.ok (),w)
    | .copy _, some error => (.error error,w)
    | .copy path, none =>
      match w.live.blobs.get? path with
      | none => (.error ⟨"storage_failure","copy blob into export",false⟩,w)
      | some content =>
        (.ok (),w.onOut fun out => { out with blobs := out.blobs.put path content })
    | .create_events, some error => (.error error,w)
    | .create_events, none => (.ok (),w.onOut fun out => { out with events_jsonl := some "" })
    | .read_batch_after _, some error => (.error error,w)
    | .read_batch_after cursor, none => (.ok (w.read_batch_after cursor),w.noting .read)
    | .write_all _, some error => (.error error,w)
    | .write_all text, none => (.ok (),w.onOut fun out => out.written text x.spill)
    | .flush, some error => (.error error,w)
    | .flush, none => (.ok (),w.onOut Exported.flushed)
    | .read_manifest, some error => (.error error,w)
    | .read_manifest, none => (.ok w.live.manifest,w)
    | .write_manifest _, some error => (.error error,w)
    | .write_manifest manifest, none =>
      (.ok (),w.onOut fun out => { out with manifest := some manifest })

abbrev ExportProg (α : Type) := Prog exportIface ExportEnd α

def orFailed {α : Type} : Except ApiError α → ExportProg α
  | .ok a => .ret a
  | .error error => .throw (.failed error)

def open_log : ExportProg Unit := .act .open_log orFailed

def out_exists : ExportProg Bool := .act .out_exists .ret

def create_out : ExportProg Unit := .act .create_out orFailed

def vacuum_into : ExportProg Unit := .act .vacuum_into orFailed

def sorted_directory_entries (dir : Store.Path) : ExportProg (List String) :=
  .act (.list dir) orFailed

def is_dir (path : Store.Path) : ExportProg Bool := .act (.is_dir path) .ret

def read_batch_after (cursor : Nat) : ExportProg (List Event) :=
  .act (.read_batch_after cursor) orFailed

def create_events : ExportProg Unit := .act .create_events orFailed

def write_all (text : String) : ExportProg Unit := .act (.write_all text) orFailed

def flush : ExportProg Unit := .act .flush orFailed

def read_manifest : ExportProg Bytes := .act .read_manifest orFailed

def write_manifest (manifest : Bytes) : ExportProg Unit := .act (.write_manifest manifest) orFailed

def second_level (first : String) (files : List Store.Path) (second : String) :
    ExportProg (List Store.Path) := do
  if !(← is_dir [first,second]) then return files ++ [[first,second]]
  let blobs ← sorted_directory_entries [first,second]
  return files ++ blobs.map fun blob => [first,second,blob]

def first_level (files : List Store.Path) (first : String) : ExportProg (List Store.Path) := do
  if first = TEMP_DIRECTORY_NAME then return files
  if !(← is_dir [first]) then return files
  let seconds ← sorted_directory_entries [first]
  seconds.foldlM (second_level first) files

def sorted_blob_files : ExportProg (List Store.Path) := do
  let firsts ← sorted_directory_entries []
  firsts.foldlM first_level []

def copy_blob (copied : Nat) (path : Store.Path) : ExportProg Nat := do
  Prog.act (.create_parent path) orFailed
  Prog.act (.copy path) orFailed
  return copied+1

def copy_all_into : ExportProg Nat := do
  Prog.act .create_temp orFailed
  let files ← sorted_blob_files
  files.foldlM copy_blob 0

def for_each_event {α : Type} (consumer : α → Event → ExportProg α) :
    Nat → Nat → α → ExportProg α
  | 0, _, _ => .throw .unfinished
  | fuel+1, cursor, state => do
    let batch ← read_batch_after cursor
    match batch.getLast? with
    | none => return state
    | some last =>
      let state ← batch.foldlM consumer state
      if batch.length < replayBatchEventCount then return state
      for_each_event consumer fuel last.seq state

section
variable (to_string : ExportedEventLine → Except String String)

def write_event (event_count : Nat) (event : Event) : ExportProg Nat := do
  let line ← orFailed (exported_line to_string event)
  write_all line
  write_all "\n"
  return event_count+1

def project_export (fuel : Nat) (input : ProjectExportInput) : ExportProg ProjectExportReport := do
  open_log
  if (← out_exists) then Prog.throw (.failed (already_exists input.out))
  create_out
  vacuum_into
  let blob_count ← copy_all_into
  create_events
  let event_count ← for_each_event (write_event to_string) fuel 0 0
  flush
  let manifest ← read_manifest
  write_manifest manifest
  return ⟨input.out,event_count,blob_count⟩

end

/-- Another handle or process appends a batch or publishes a blob. -/
inductive Other where
  | commit (batch : List (AppendRequest × Nat × Nat))
  | place (content : Bytes)

def assigned (length : Nat) (batch : List (AppendRequest × Nat × Nat)) : List Event :=
  batch.mapIdx fun i request => request.1.event (length+i+1) request.2.1 request.2.2

section
variable (blake3 : Bytes → Digest) (blobs_of : Event → List Digest)

def Live.has (live : Live) (hash : Digest) : Prop := (live.blobs.get? (blob_path hash)).isSome

instance (live : Live) (hash : Digest) : Decidable (live.has hash) :=
  inferInstanceAs (Decidable (_ = true))

def Live.ready (live : Live) (events : List Event) : Bool :=
  events.all fun event => (blobs_of event).all fun hash => live.has hash

def World.other (w : World) : Other → World
  | .commit batch =>
    let events := assigned w.live.log.length batch
    if w.live.ready blobs_of events then
      { w with live.log := w.live.log ++ events }.noting (.committed events)
    else w
  | .place content =>
    { w with live.blobs := w.live.blobs.put (blob_path (blake3 content)) content }

def World.others (moves : List Other) (w : World) : World :=
  moves.foldl (World.other blake3 blobs_of) w

/-- The log has no gap, a blob is what its address says, and every blob referred to
is there. -/
structure Live.Sound (live : Live) : Prop where
  numbered : live.log.map Event.seq = List.range' 1 live.log.length
  content : ∀ hash content, live.blobs.get? (blob_path hash) = some content →
    blake3 content = hash
  present : ∀ event ∈ live.log, ∀ hash ∈ blobs_of event, live.has hash

/-- What a step outside the export may change: batches are committed, blobs stay. -/
structure Beside (w w' : World) : Prop where
  out : w'.out = w.out
  sound : w.live.Sound blake3 blobs_of → w'.live.Sound blake3 blobs_of
  kept : ∀ path, (w.live.blobs.get? path).isSome → (w'.live.blobs.get? path).isSome
  grew : ∃ batches : List (List Event), w'.history = w.history ++ batches.map .committed ∧
    w'.live.log = w.live.log ++ batches.flatten

variable {blake3 : Bytes → Digest} {blobs_of : Event → List Digest} {w w' w'' : World}

theorem Beside.refl (w : World) : Beside blake3 blobs_of w w :=
  ⟨rfl,id,fun _ h => h,[],by simp,by simp⟩

theorem Beside.trans (h : Beside blake3 blobs_of w w') (h' : Beside blake3 blobs_of w' w'') :
    Beside blake3 blobs_of w w'' := by
  obtain ⟨batches,hhistory,hlog⟩ := h.grew
  obtain ⟨batches',hhistory',hlog'⟩ := h'.grew
  refine ⟨h'.out.trans h.out,fun hs => h'.sound (h.sound hs),fun p hp => h'.kept p (h.kept p hp),
    batches ++ batches',?_,?_⟩
  · rw [hhistory',hhistory,map_append,append_assoc]
  · rw [hlog',hlog,flatten_append,append_assoc]

theorem assigned_seq (length : Nat) (batch : List (AppendRequest × Nat × Nat)) :
    (assigned length batch).map Event.seq = List.range' (length+1) batch.length := by
  refine ext_getElem (by simp [assigned]) ?_
  intro i hi hi'
  simp [assigned]
  omega

theorem assigned_length (length : Nat) (batch : List (AppendRequest × Nat × Nat)) :
    (assigned length batch).length = batch.length := by simp [assigned]

theorem Live.Sound.commit {live : Live} (h : live.Sound blake3 blobs_of)
    (batch : List (AppendRequest × Nat × Nat))
    (hready : live.ready blobs_of (assigned live.log.length batch)) :
    Live.Sound blake3 blobs_of { live with log := live.log ++ assigned live.log.length batch } := by
  refine ⟨?_,h.content,fun event hevent => ?_⟩
  · rw [map_append,h.numbered,assigned_seq,length_append,assigned_length,
      Nat.add_comm live.log.length 1,List.range'_append_1]
  · rcases mem_append.mp hevent with hevent | hevent
    · exact h.present event hevent
    · intro hash hhash
      have hall := all_eq_true.mp hready event hevent
      exact of_decide_eq_true (all_eq_true.mp hall hash hhash)

theorem Live.Sound.place {live : Live} (h : live.Sound blake3 blobs_of) (content : Bytes) :
    Live.Sound blake3 blobs_of
      { live with blobs := live.blobs.put (blob_path (blake3 content)) content } := by
  refine ⟨h.numbered,fun hash other hother => ?_,fun event hevent hash hhash => ?_⟩
  · rw [Table.get?_put] at hother
    split at hother
    · rename_i heq
      cases hother
      exact (blob_path_injective heq).symm
    · exact h.content hash other hother
  · have hold := h.present event hevent hash hhash
    rw [Live.has,Table.get?_put]
    split
    · rfl
    · exact hold

theorem other_beside (w : World) (move : Other) :
    Beside blake3 blobs_of w (w.other blake3 blobs_of move) := by
  cases move with
  | commit batch =>
    rw [World.other]
    simp only
    split
    · rename_i hready
      exact ⟨rfl,fun h => h.commit batch hready,fun _ h => h,[_],rfl,by simp [World.noting]⟩
    · exact .refl w
  | place content =>
    refine ⟨rfl,fun h => h.place content,fun path hpath => ?_,[],by simp [World.other],
      by simp [World.other]⟩
    rw [World.other,Table.get?_put]
    split
    · rfl
    · exact hpath

theorem others_beside (moves : List Other) (w : World) :
    Beside blake3 blobs_of w (w.others blake3 blobs_of moves) := by
  induction moves generalizing w with
  | nil => exact .refl w
  | cons move moves ih => exact (other_beside w move).trans (ih _)

variable {files : Table Store.Path Bytes} {dir path : Store.Path} {name : String}

theorem entries_complete
    (h : (files.get? path).isSome) (hchild : child dir path = some name) :
    name ∈ entries files dir := by
  obtain ⟨content,hcontent⟩ := Option.isSome_iff_exists.mp h
  exact mem_dedup.mpr (mem_filterMap.mpr ⟨_,(Table.mem_rows files).mpr hcontent,hchild⟩)

theorem holds_of_child
    (h : (files.get? path).isSome) (hchild : child dir path = some name) :
    holds_entries files dir = true := by
  obtain ⟨content,hcontent⟩ := Option.isSome_iff_exists.mp h
  refine any_eq_true.mpr ⟨_,(Table.mem_rows files).mpr hcontent,?_⟩
  rw [hchild]
  rfl

theorem child_first (first second name : String) : child [] [first,second,name] = some first := rfl

theorem child_second (first second name : String) :
    child [first] [first,second,name] = some second := by simp [child]

theorem child_third (first second name : String) :
    child [first,second] [first,second,name] = some name := by simp [child]

theorem blob_path_first (hash : Digest) :
    ∃ first second name, blob_path hash = [first,second,name] ∧ first ≠ TEMP_DIRECTORY_NAME := by
  refine ⟨_,_,_,rfl,fun h => ?_⟩
  have hlength := congrArg (fun text => text.toList.length) h
  simp [TEMP_DIRECTORY_NAME] at hlength
  omega

variable {Q : Unit → World → Prop}

theorem open_log_amidst (h : ∀ w', Beside blake3 blobs_of w w' → Q () w') :
    open_log.Amidst exportMachine (Beside blake3 blobs_of) (Prog.returning Q) w := by
  rintro ⟨fault,spill⟩ w' hw
  cases fault with
  | some error => trivial
  | none => exact h w' hw

variable {P : Bool → World → Prop}

theorem out_exists_amidst
    (h : ∀ w', Beside blake3 blobs_of w w' → P w.out.isSome w') :
    out_exists.Amidst exportMachine (Beside blake3 blobs_of) (Prog.returning P) w := by
  rintro ⟨fault,spill⟩ w' hw
  cases fault with
  | some | none => exact h w' hw

theorem create_out_amidst
    (h : ∀ w', Beside blake3 blobs_of { w with out := some .new } w' → Q () w') :
    create_out.Amidst exportMachine (Beside blake3 blobs_of) (Prog.returning Q) w := by
  rintro ⟨fault,spill⟩ w' hw
  cases fault with
  | some error => trivial
  | none => exact h w' hw

theorem vacuum_into_amidst
    (h : ∀ w', Beside blake3 blobs_of
      ((w.onOut fun out => { out with database := some w.live.log }).noting .copied) w' → Q () w') :
    vacuum_into.Amidst exportMachine (Beside blake3 blobs_of) (Prog.returning Q) w := by
  rintro ⟨fault,spill⟩ w' hw
  cases fault with
  | some error => trivial
  | none => exact h w' hw

theorem list_amidst {P : List String → World → Prop}
    (h : ∀ w', Beside blake3 blobs_of w w' → P (entries w.live.blobs dir) w') :
    (sorted_directory_entries dir).Amidst exportMachine (Beside blake3 blobs_of)
      (Prog.returning P) w := by
  rintro ⟨fault,spill⟩ w' hw
  cases fault with
  | some error => trivial
  | none => exact h w' hw

theorem is_dir_amidst
    (h : ∀ w', Beside blake3 blobs_of w w' → P (holds_entries w.live.blobs path) w') :
    (is_dir path).Amidst exportMachine (Beside blake3 blobs_of) (Prog.returning P) w := by
  rintro ⟨fault,spill⟩ w' hw
  cases fault with
  | some | none => exact h w' hw

theorem create_events_amidst
    (h : ∀ w', Beside blake3 blobs_of
      (w.onOut fun out => { out with events_jsonl := some "" }) w' → Q () w') :
    create_events.Amidst exportMachine (Beside blake3 blobs_of) (Prog.returning Q) w := by
  rintro ⟨fault,spill⟩ w' hw
  cases fault with
  | some error => trivial
  | none => exact h w' hw

theorem flush_amidst
    (h : ∀ w', Beside blake3 blobs_of (w.onOut Exported.flushed) w' → Q () w') :
    flush.Amidst exportMachine (Beside blake3 blobs_of) (Prog.returning Q) w := by
  rintro ⟨fault,spill⟩ w' hw
  cases fault with
  | some error => trivial
  | none => exact h w' hw

theorem read_manifest_amidst {P : Bytes → World → Prop}
    (h : ∀ w', Beside blake3 blobs_of w w' → P w.live.manifest w') :
    read_manifest.Amidst exportMachine (Beside blake3 blobs_of) (Prog.returning P) w := by
  rintro ⟨fault,spill⟩ w' hw
  cases fault with
  | some error => trivial
  | none => exact h w' hw

theorem write_manifest_amidst {manifest : Bytes}
    (h : ∀ w', Beside blake3 blobs_of
      (w.onOut fun out => { out with manifest := some manifest }) w' → Q () w') :
    (write_manifest manifest).Amidst exportMachine (Beside blake3 blobs_of) (Prog.returning Q)
      w := by
  rintro ⟨fault,spill⟩ w' hw
  cases fault with
  | some error => trivial
  | none => exact h w' hw

def Holding (paths : Store.Path → Prop) (w : World) : Prop :=
  ∀ path, paths path → (w.live.blobs.get? path).isSome

theorem Holding.beside {paths : Store.Path → Prop} (h : Holding paths w)
    (hw : Beside blake3 blobs_of w w') : Holding paths w' := fun path hp => hw.kept path (h path hp)

/-- What the other threads leave as it is. -/
def Settled (blake3 : Bytes → Digest) (blobs_of : Event → List Digest) (I : World → Prop) : Prop :=
  ∀ w w', Beside blake3 blobs_of w w' → I w → I w'

variable {I : World → Prop} {paths : Store.Path → Prop}

theorem second_level_amidst (hI : Settled blake3 blobs_of I) (first second : String)
    (files : List Store.Path) (h : I w) (hw : Holding paths w) :
    (second_level first files second).Amidst exportMachine (Beside blake3 blobs_of)
      (Prog.returning fun files' w' => I w' ∧ Holding paths w' ∧ (∀ path ∈ files, path ∈ files') ∧
        ∀ name, paths [first,second,name] → [first,second,name] ∈ files') w := by
  refine amidst_then (P := fun answer w' => (I w' ∧ Holding paths w') ∧
    ∀ name, paths [first,second,name] → answer = true) ?_ ?_
  · refine is_dir_amidst fun w' hw' => ⟨⟨hI _ _ hw' h,hw.beside hw'⟩,fun name hname => ?_⟩
    exact holds_of_child (hw _ hname) (child_third first second name)
  · rintro answer w' ⟨⟨h',hw'⟩,hanswer⟩
    cases answer with
    | false =>
      refine ⟨h',hw',fun path hpath => mem_append_left _ hpath,fun name hname => ?_⟩
      exact absurd (hanswer name hname) (by decide)
    | true =>
      refine amidst_then (P := fun names w'' => (I w'' ∧ Holding paths w'') ∧
        ∀ name, paths [first,second,name] → name ∈ names) ?_ ?_
      · refine list_amidst fun w'' hw'' => ⟨⟨hI _ _ hw'' h',hw'.beside hw''⟩,fun name hname => ?_⟩
        exact entries_complete (hw' _ hname) (child_third first second name)
      · rintro names w'' ⟨⟨h'',hw''⟩,hnames⟩
        refine ⟨h'',hw'',fun path hpath => mem_append_left _ hpath,fun name hname => ?_⟩
        exact mem_append_right _ (mem_map_of_mem (hnames name hname))

theorem first_level_amidst (hI : Settled blake3 blobs_of I) (first : String)
    (files : List Store.Path) (h : I w) (hw : Holding paths w) :
    (first_level files first).Amidst exportMachine (Beside blake3 blobs_of)
      (Prog.returning fun files' w' => I w' ∧ Holding paths w' ∧ (∀ path ∈ files, path ∈ files') ∧
        ∀ second name, first ≠ TEMP_DIRECTORY_NAME → paths [first,second,name] →
          [first,second,name] ∈ files') w := by
  rw [first_level]
  by_cases htemp : first = TEMP_DIRECTORY_NAME
  · rw [if_pos htemp]
    exact ⟨h,hw,fun _ hpath => hpath,fun _ _ hne => absurd htemp hne⟩
  rw [if_neg htemp]
  refine amidst_then (P := fun answer w' => (I w' ∧ Holding paths w') ∧
    ∀ second name, paths [first,second,name] → answer = true) ?_ ?_
  · refine is_dir_amidst fun w' hw' =>
      ⟨⟨hI _ _ hw' h,hw.beside hw'⟩,fun second name hname => ?_⟩
    exact holds_of_child (hw _ hname) (child_second first second name)
  rintro answer w' ⟨⟨h',hw'⟩,hanswer⟩
  cases answer with
  | false =>
    refine ⟨h',hw',fun _ hpath => hpath,fun second name _ hname => ?_⟩
    exact absurd (hanswer second name hname) (by decide)
  | true =>
    refine amidst_then (P := fun seconds w'' => (I w'' ∧ Holding paths w'') ∧
      ∀ second name, paths [first,second,name] → second ∈ seconds) ?_ ?_
    · refine list_amidst fun w'' hw'' =>
        ⟨⟨hI _ _ hw'' h',hw'.beside hw''⟩,fun second name hname => ?_⟩
      exact entries_complete (hw' _ hname) (child_second first second name)
    rintro seconds w'' ⟨⟨h'',hw''⟩,hseconds⟩
    refine amidst_returning ?_ (amidst_loop (J := fun before found t => I t ∧
      Holding paths t ∧ (∀ path ∈ files, path ∈ found) ∧
        ∀ second ∈ before, ∀ name, paths [first,second,name] → [first,second,name] ∈ found)
      (second_level first) ?_ seconds [] ⟨h'',hw'',fun _ hpath => hpath,nofun⟩)
    · rintro found t ⟨ht,hheld,hfiles,hfound⟩
      refine ⟨ht,hheld,hfiles,fun second name _ hname => ?_⟩
      exact hfound second (hseconds second name hname) name hname
    · rintro before second found t ⟨ht,hheld,hfiles,hfound⟩
      refine amidst_returning ?_ (second_level_amidst hI first second found ht hheld)
      rintro found' t' ⟨ht',hheld',hmore,hnew⟩
      refine ⟨ht',hheld',fun path hpath => hmore _ (hfiles path hpath),
        fun other hother name hname => ?_⟩
      rcases mem_append.mp hother with hother | hother
      · exact hmore _ (hfound other hother name hname)
      · cases mem_singleton.mp hother
        exact hnew name hname

theorem sorted_blob_files_amidst (paths : Store.Path → Prop) (hI : Settled blake3 blobs_of I)
    (h : I w) (hw : Holding paths w) :
    sorted_blob_files.Amidst exportMachine (Beside blake3 blobs_of)
      (Prog.returning fun files w' => I w' ∧ Holding paths w' ∧
        ∀ first second name, first ≠ TEMP_DIRECTORY_NAME → paths [first,second,name] →
          [first,second,name] ∈ files) w := by
  refine amidst_then (P := fun firsts w' => (I w' ∧ Holding paths w') ∧
    ∀ first second name, paths [first,second,name] → first ∈ firsts) ?_ ?_
  · refine list_amidst fun w' hw' =>
      ⟨⟨hI _ _ hw' h,hw.beside hw'⟩,fun first second name hname => ?_⟩
    exact entries_complete (hw _ hname) (child_first first second name)
  rintro firsts w' ⟨⟨h',hw'⟩,hfirsts⟩
  refine amidst_returning ?_ (amidst_loop (J := fun before found t => I t ∧
    Holding paths t ∧ ∀ first ∈ before, ∀ second name, first ≠ TEMP_DIRECTORY_NAME →
      paths [first,second,name] → [first,second,name] ∈ found)
    first_level ?_ firsts [] ⟨h',hw',nofun⟩)
  · rintro found t ⟨ht,hheld,hfound⟩
    refine ⟨ht,hheld,fun first second name hne hname => ?_⟩
    exact hfound first (hfirsts first second name hname) second name hne hname
  · rintro before first found t ⟨ht,hheld,hfound⟩
    refine amidst_returning ?_ (first_level_amidst hI first found ht hheld)
    rintro found' t' ⟨ht',hheld',hmore,hnew⟩
    refine ⟨ht',hheld',fun other hother second name hne hname => ?_⟩
    rcases mem_append.mp hother with hother | hother
    · exact hmore _ (hfound other hother second name hne hname)
    · cases mem_singleton.mp hother
      exact hnew second name hne hname

def Exported.has (blake3 : Bytes → Digest) (out : Exported) (hash : Digest) : Prop :=
  ∃ content, out.blobs.get? (blob_path hash) = some content ∧ blake3 content = hash

def commits : List Happening → List Event
  | [] => []
  | .committed events :: rest => events ++ commits rest
  | _ :: rest => commits rest

theorem commits_append (xs ys : List Happening) :
    commits (xs ++ ys) = commits xs ++ commits ys := by
  induction xs with
  | nil => rfl
  | cons x xs ih =>
    cases x with
    | copied | read => exact ih
    | committed events => simp [commits,ih]

theorem commits_batches (batches : List (List Event)) :
    commits (batches.map .committed) = batches.flatten := by
  induction batches with
  | nil => rfl
  | cons events batches ih => simp [commits,ih]

/-- The export holds the log as it was at the copy, and the run went on from there. -/
structure Copied (blake3 : Bytes → Digest) (blobs_of : Event → List Digest) (E : List Event)
    (before since : List Happening) (out : Exported) (w : World) : Prop where
  sound : w.live.Sound blake3 blobs_of
  there : w.out = some out
  database : out.database = some E
  history : w.history = before ++ .copied :: since
  once : .copied ∉ since
  log : w.live.log = E ++ commits since

variable {E : List Event} {before since : List Happening} {out : Exported}

theorem committed_only {x : Happening} {batches : List (List Event)}
    (h : x ∈ batches.map Happening.committed) : x ≠ .copied ∧ x ≠ .read := by
  obtain ⟨events,-,rfl⟩ := mem_map.mp h
  exact ⟨nofun,nofun⟩

theorem Copied.beside (h : Copied blake3 blobs_of E before since out w)
    (hw : Beside blake3 blobs_of w w') : ∃ batches : List (List Event),
      Copied blake3 blobs_of E before (since ++ batches.map .committed) out w' := by
  obtain ⟨batches,hhistory,hlog⟩ := hw.grew
  refine ⟨batches,hw.sound h.sound,hw.out.trans h.there,h.database,?_,?_,?_⟩
  · rw [hhistory,h.history,append_assoc,cons_append]
  · intro hmem
    rcases mem_append.mp hmem with hmem | hmem
    · exact h.once hmem
    · exact (committed_only hmem).1 rfl
  · rw [hlog,h.log,commits_append,commits_batches,append_assoc]

def Copying (blake3 : Bytes → Digest) (blobs_of : Event → List Digest) (E : List Event)
    (before : List Happening) (copied : Digest → Prop) (w : World) : Prop :=
  ∃ since out, Copied blake3 blobs_of E before since out w ∧ out.buffer = "" ∧
    ∀ hash, copied hash → out.has blake3 hash

variable {copied : Digest → Prop}

theorem Copying.beside (h : Copying blake3 blobs_of E before copied w)
    (hw : Beside blake3 blobs_of w w') : Copying blake3 blobs_of E before copied w' := by
  obtain ⟨since,out,hcopied,hout⟩ := h
  obtain ⟨batches,hcopied'⟩ := hcopied.beside hw
  exact ⟨_,out,hcopied',hout⟩

theorem copying_settled :
    Settled blake3 blobs_of (Copying blake3 blobs_of E before copied) := fun _ _ hw h => h.beside hw

theorem copy_blob_amidst (n : Nat) (path : Store.Path)
    (h : Copying blake3 blobs_of E before copied w) :
    (copy_blob n path).Amidst exportMachine (Beside blake3 blobs_of)
      (Prog.returning fun _ w' => Copying blake3 blobs_of E before
        (fun hash => copied hash ∨ blob_path hash = path) w') w := by
  rintro ⟨fault,spill⟩ w' hw
  cases fault with
  | some error => trivial
  | none =>
    obtain ⟨since,out,hcopied,hbuffer,hhas⟩ := h.beside hw
    rintro ⟨fault,spill⟩ w'' hw'
    cases fault with
    | some error => trivial
    | none =>
      simp only [exportMachine] at hw' ⊢
      cases hget : w'.live.blobs.get? path with
      | none => trivial
      | some content =>
        simp only [hget] at hw' ⊢
        refine Copying.beside ?_ hw'
        refine ⟨since,{ out with blobs := out.blobs.put path content },⟨hcopied.sound,?_,
          hcopied.database,hcopied.history,hcopied.once,hcopied.log⟩,hbuffer,?_⟩
        · simp [World.onOut,hcopied.there]
        · intro hash hhash
          simp only [Exported.has,Table.get?_put]
          split
          · rename_i heq
            exact ⟨content,rfl,hcopied.sound.content hash content (heq ▸ hget)⟩
          · rename_i hne
            exact hhas hash (hhash.resolve_right hne)

theorem copy_all_into_amidst (h : Copying blake3 blobs_of E before (fun _ => False) w) :
    copy_all_into.Amidst exportMachine (Beside blake3 blobs_of)
      (Prog.returning fun _ w' => Copying blake3 blobs_of E before
        (fun hash => w.live.has hash) w') w := by
  rintro ⟨fault,spill⟩ w' hw
  cases fault with
  | some error => trivial
  | none =>
    change (sorted_blob_files.bind fun files => files.foldlM copy_blob 0).Amidst _ _ _ _
    refine amidst_then (sorted_blob_files_amidst (fun path =>
      ∃ hash, w.live.has hash ∧ blob_path hash = path) copying_settled (h.beside hw) ?_) ?_
    · rintro path ⟨hash,hhash,rfl⟩
      exact hw.kept _ hhash
    · rintro files t ⟨ht,-,hfiles⟩
      refine amidst_returning ?_ (amidst_loop (J := fun done _ => Copying blake3 blobs_of E
        before fun hash => blob_path hash ∈ done) copy_blob ?_ files [] ?_)
      · rintro n t' ⟨since,out,hcopied,hbuffer,hhas⟩
        refine ⟨since,out,hcopied,hbuffer,fun hash hhash => hhas hash ?_⟩
        obtain ⟨first,second,name,hpath,hne⟩ := blob_path_first hash
        rw [nil_append,hpath]
        exact hfiles first second name hne ⟨hash,hhash,hpath⟩
      · intro done path n t' hdone
        refine amidst_returning ?_ (copy_blob_amidst n path hdone)
        rintro m t'' ⟨since,out,hcopied,hbuffer,hhas⟩
        refine ⟨since,out,hcopied,hbuffer,fun hash hhash => hhas hash ?_⟩
        rcases mem_append.mp hhash with hhash | hhash
        · exact Or.inl hhash
        · exact Or.inr (mem_singleton.mp hhash)
      · obtain ⟨since,out,hcopied,hbuffer,-⟩ := ht
        exact ⟨since,out,hcopied,hbuffer,nofun⟩

def jsonl : List String → String
  | [] => ""
  | line :: lines => line ++ "\n" ++ jsonl lines

theorem jsonl_append (xs ys : List String) : jsonl (xs ++ ys) = jsonl xs ++ jsonl ys := by
  induction xs with
  | nil => rw [nil_append,jsonl,String.empty_append]
  | cons x xs ih => rw [cons_append,jsonl,jsonl,ih,← String.append_assoc]

def Rendered (to_string : ExportedEventLine → Except String String) (events : List Event)
    (text : String) : Prop :=
  ∃ lines, List.Forall₂ (fun event line => exported_line to_string event = .ok line) events lines ∧
    text = jsonl lines

variable {to_string : ExportedEventLine → Except String String} {events log : List Event}

theorem Rendered.snoc {text line : String} {event : Event}
    (h : Rendered to_string events text) (hline : exported_line to_string event = .ok line) :
    Rendered to_string (events ++ [event]) (text ++ line ++ "\n") := by
  obtain ⟨lines,hlines,rfl⟩ := h
  refine ⟨lines ++ [line],rel_append hlines (.cons hline .nil),?_⟩
  rw [jsonl_append,jsonl,jsonl,String.append_empty,String.append_assoc]

def Reading (blake3 : Bytes → Digest) (blobs_of : Event → List Digest) (E : List Event)
    (copied : Digest → Prop) (before since : List Happening) (text : String) (w : World) : Prop :=
  ∃ out, Copied blake3 blobs_of E before since out w ∧ (∀ hash, copied hash → out.has blake3 hash) ∧
    ∃ file, out.events_jsonl = some file ∧ file ++ out.buffer = text

variable {copied : Digest → Prop} {between : List Happening} {text : String}

theorem Reading.beside (h : Reading blake3 blobs_of E copied before since text w)
    (hw : Beside blake3 blobs_of w w') : ∃ batches : List (List Event),
      Reading blake3 blobs_of E copied before (since ++ batches.map .committed) text w' := by
  obtain ⟨out,hcopied,hout⟩ := h
  obtain ⟨batches,hcopied'⟩ := hcopied.beside hw
  exact ⟨batches,out,hcopied',hout⟩

def UpTo (blake3 : Bytes → Digest) (blobs_of : Event → List Digest) (E : List Event)
    (copied : Digest → Prop) (before between : List Happening) (text : String) (w : World) : Prop :=
  ∃ after, .read ∉ after ∧
    Reading blake3 blobs_of E copied before (between ++ .read :: after) text w

theorem UpTo.beside (h : UpTo blake3 blobs_of E copied before between text w)
    (hw : Beside blake3 blobs_of w w') : UpTo blake3 blobs_of E copied before between text w' := by
  obtain ⟨after,hafter,hreading⟩ := h
  obtain ⟨batches,hreading'⟩ := hreading.beside hw
  refine ⟨after ++ batches.map .committed,fun hmem => ?_,?_⟩
  · rcases mem_append.mp hmem with hmem | hmem
    · exact hafter hmem
    · exact (committed_only hmem).2 rfl
  · rwa [append_assoc,cons_append] at hreading'

theorem written_text (out : Exported) (text : String) (spill : Bool) {file : String}
    (h : out.events_jsonl = some file) :
    ∃ file', (out.written text spill).events_jsonl = some file' ∧
      file' ++ (out.written text spill).buffer = file ++ out.buffer ++ text := by
  cases spill with
  | false => exact ⟨file,h,(String.append_assoc ..).symm⟩
  | true =>
    refine ⟨file ++ (out.buffer ++ text),by simp [Exported.written,Exported.flushed,h],?_⟩
    simp [Exported.written,Exported.flushed,String.append_assoc]

theorem written_other (out : Exported) (text : String) (spill : Bool) :
    (out.written text spill).database = out.database ∧
      (out.written text spill).blobs = out.blobs := by
  cases spill with
  | false | true => exact ⟨rfl,rfl⟩

theorem write_all_amidst (added : String)
    (h : UpTo blake3 blobs_of E copied before between text w) :
    (write_all added).Amidst exportMachine (Beside blake3 blobs_of)
      (Prog.returning fun _ => UpTo blake3 blobs_of E copied before between (text ++ added)) w := by
  rintro ⟨fault,spill⟩ w' hw
  cases fault with
  | some error => trivial
  | none =>
    obtain ⟨after,hafter,out,hcopied,hhas,file,hfile,rfl⟩ := h
    obtain ⟨file',hfile',htext⟩ := written_text out added spill hfile
    refine UpTo.beside ?_ hw
    refine ⟨after,hafter,out.written added spill,⟨hcopied.sound,?_,?_,hcopied.history,hcopied.once,
      hcopied.log⟩,fun hash hhash => ?_,file',hfile',htext⟩
    · simp [exportMachine,World.onOut,hcopied.there]
    · rw [(written_other ..).1]
      exact hcopied.database
    · rw [Exported.has,(written_other ..).2]
      exact hhas hash hhash

theorem write_event_amidst (event : Event) (n : Nat)
    (h : UpTo blake3 blobs_of E copied before between text w)
    (hevents : Rendered to_string events text) :
    (write_event to_string n event).Amidst exportMachine (Beside blake3 blobs_of)
      (Prog.returning fun m w' => m = n+1 ∧ ∃ text',
        UpTo blake3 blobs_of E copied before between text' w' ∧
          Rendered to_string (events ++ [event]) text') w := by
  rw [write_event]
  cases hline : exported_line to_string event with
  | error error => trivial
  | ok line =>
    change ((write_all line).bind _).Amidst _ _ _ _
    refine amidst_then (write_all_amidst line h) fun _ t ht => ?_
    refine amidst_then (write_all_amidst "\n" ht) fun _ t' ht' => ?_
    exact ⟨rfl,_,ht',hevents.snoc hline⟩

theorem numbered_drop (start cursor : Nat)
    (h : log.map Event.seq = List.range' (start+1) log.length) :
    log.filter (fun event => start+cursor < event.seq) = log.drop cursor := by
  induction log generalizing start cursor with
  | nil => simp
  | cons event log ih =>
    rw [map_cons,length_cons,List.range'_succ,List.cons.injEq] at h
    cases cursor with
    | zero =>
      have hrest := ih (start+1) 0 h.2
      rw [drop_zero] at hrest ⊢
      rw [filter_cons_of_pos (by simp; omega)]
      congr 1
      refine filter_eq_self.mpr fun other hother => ?_
      have hmem := mem_map_of_mem (f := Event.seq) hother
      rw [h.2] at hmem
      have hrange := mem_range'_1.mp hmem
      simp
      omega
    | succ cursor =>
      have hrest := ih (start+1) cursor h.2
      rw [filter_cons_of_neg (by simp; omega),drop_succ_cons,← hrest]
      exact congrArg (fun f => List.filter f log) (funext fun other => by
        rw [Nat.add_right_comm start 1 cursor,Nat.add_assoc start cursor 1])

theorem read_batch_drop (h : w.live.Sound blake3 blobs_of) (cursor : Nat) :
    w.read_batch_after cursor = (w.live.log.drop cursor).take replayBatchEventCount := by
  have hdrop := numbered_drop 0 cursor h.numbered
  rw [World.read_batch_after,← hdrop]
  simp only [Nat.zero_add]

theorem numbered_last {last : Event}
    (h : log.map Event.seq = List.range' 1 log.length) (hevents : events <+: log)
    (hlast : events.getLast? = some last) : last.seq = events.length := by
  obtain ⟨rest,rfl⟩ := hevents
  obtain ⟨front,rfl⟩ := List.getLast?_eq_some_iff.mp hlast
  have hat := congrArg (fun seqs => seqs[front.length]?) h
  simp at hat
  simp
  omega

theorem Reading.noted (h : Reading blake3 blobs_of E copied before since text w) :
    UpTo blake3 blobs_of E copied before since text (w.noting .read) := by
  obtain ⟨out,hcopied,hout⟩ := h
  refine ⟨[],nofun,out,⟨hcopied.sound,hcopied.there,hcopied.database,?_,?_,?_⟩,hout⟩
  · rw [World.noting,hcopied.history,append_assoc,cons_append]
  · intro hmem
    rcases mem_append.mp hmem with hmem | hmem
    · exact hcopied.once hmem
    · cases mem_singleton.mp hmem
  · have hnone : commits [.read] = [] := rfl
    rw [commits_append,hnone,append_nil]
    exact hcopied.log

theorem Reading.within (h : Reading blake3 blobs_of E copied before since text w)
    {between after : List Happening} (hsince : since = between ++ after) :
    E ++ commits between <+: w.live.log := by
  obtain ⟨out,hcopied,-⟩ := h
  rw [hcopied.log,hsince,commits_append,← append_assoc]
  exact prefix_append _ _

theorem for_each_event_amidst (fuel : Nat) (events : List Event)
    (h : Reading blake3 blobs_of E copied before since text w) (hevents : events <+: w.live.log)
    (htext : Rendered to_string events text) :
    (for_each_event (write_event to_string) fuel events.length events.length).Amidst exportMachine
      (Beside blake3 blobs_of)
      (Prog.returning fun n w' => ∃ between text',
        UpTo blake3 blobs_of E copied before between text' w' ∧
          Rendered to_string (E ++ commits between) text' ∧ n = (E ++ commits between).length)
      w := by
  induction fuel generalizing w since text events with
  | zero => trivial
  | succ fuel ih =>
    rintro ⟨fault,spill⟩ w' hw
    cases fault with
    | some error => trivial
    | none =>
      obtain ⟨out,hcopied,hout⟩ := h
      have hsound := hcopied.sound
      have hlog := hcopied.log
      have hread : UpTo blake3 blobs_of E copied before since text w' :=
        (Reading.noted ⟨out,hcopied,hout⟩).beside hw
      have hbatch := read_batch_drop hsound events.length
      obtain ⟨rest,hrest⟩ := hevents
      rw [← hrest,drop_left] at hbatch
      change Prog.Amidst _ _ _ (match (w.read_batch_after events.length).getLast? with
        | none => _
        | some last => _) w'
      cases hlast : (w.read_batch_after events.length).getLast? with
      | none =>
        -- nothing is behind the cursor
        rw [hbatch,List.getLast?_eq_none_iff] at hlast
        have hnil : rest = [] := by
          cases rest with
          | nil => rfl
          | cons event rest => simp [replayBatchEventCount] at hlast
        rw [hnil,append_nil,hlog] at hrest
        rw [hrest] at htext
        exact ⟨since,text,hread,htext,by rw [hrest]⟩
      | some last =>
        have hpart : events ++ w.read_batch_after events.length <+: w.live.log := by
          rw [hbatch,← hrest,prefix_append_right_inj]
          exact List.take_prefix _ _
        refine amidst_then (amidst_loop (J := fun done n t =>
          n = (events ++ done).length ∧ ∃ text',
            UpTo blake3 blobs_of E copied before since text' t ∧
              Rendered to_string (events ++ done) text') (write_event to_string) ?_ _ []
          ⟨by simp,text,hread,by rwa [append_nil]⟩) ?_
        · rintro done event n t ⟨rfl,text',ht,hdone⟩
          refine amidst_returning ?_ (write_event_amidst event _ ht hdone)
          rintro m t' ⟨rfl,text'',ht',htext''⟩
          rw [← append_assoc]
          exact ⟨by simp [Nat.add_assoc],text'',ht',htext''⟩
        · rintro n t ⟨rfl,text',ht,hdone⟩
          rw [nil_append] at hdone ⊢
          by_cases hshort : (w.read_batch_after events.length).length < replayBatchEventCount
          · -- the log is read out
            rw [if_pos hshort]
            have hall : events ++ w.read_batch_after events.length = E ++ commits since := by
              rw [hbatch,length_take] at hshort
              rw [hbatch,take_of_length_le (by omega),hrest,hlog]
            rw [hall] at hdone ⊢
            exact ⟨since,text',ht,hdone,rfl⟩
          · rw [if_neg hshort]
            have hcursor : last.seq = (events ++ w.read_batch_after events.length).length := by
              refine numbered_last hsound.numbered hpart ?_
              rw [List.getLast?_append,hlast,Option.some_or]
            obtain ⟨after,-,hreading⟩ := ht
            rw [hcursor]
            refine ih _ hreading ?_ hdone
            refine hpart.trans ?_
            rw [hlog]
            exact hreading.within rfl

def Undisturbed (history : List Happening) : Prop :=
  ∀ before between after, history = before ++ .copied :: (between ++ .read :: after) →
    ∀ events, .committed events ∈ between → events = []

theorem commits_nil {xs : List Happening} :
    commits xs = [] ↔ ∀ events, .committed events ∈ xs → events = [] := by
  induction xs with
  | nil => simp [commits]
  | cons x xs ih =>
    cases x with
    | copied | read => simpa [commits] using ih
    | committed events => simp [commits,ih]

theorem front_sub {a : Happening} {xs ys xs' ys' : List Happening}
    (h : xs ++ a :: ys = xs' ++ a :: ys') (hy : a ∉ ys) : ∀ x ∈ xs', x ∈ xs := by
  rcases append_eq_append_iff.mp h with ⟨rest,rfl,hrest⟩ | ⟨rest,rfl,-⟩
  · cases rest with
    | nil => simp
    | cons b rest =>
      obtain ⟨-,hys⟩ := List.cons.inj hrest
      exact absurd (hys ▸ mem_append_right _ (mem_cons_self ..)) hy
  · exact fun x hx => mem_append_left _ hx

theorem undisturbed_iff {between after : List Happening} (hbefore : .copied ∉ before)
    (hsince : .copied ∉ between ++ .read :: after) (hafter : .read ∉ after) :
    Undisturbed (before ++ .copied :: (between ++ .read :: after)) ↔ commits between = [] := by
  rw [commits_nil]
  constructor
  · exact fun h => h before between after rfl
  · intro h before' between' after' heq events hevents
    obtain ⟨-,-,hsame⟩ := (append_cons_inj_of_notMem hbefore hsince).mp heq
    exact h events (front_sub hsame hafter _ hevents)

def Finished (to_string : ExportedEventLine → Except String String)
    (blake3 : Bytes → Digest) (blobs_of : Event → List Digest) (report : ProjectExportReport)
    (w : World) : Prop :=
  ∃ out E text, w.out = some out ∧ out.database = some E ∧ E <+: w.live.log ∧
    (∀ event ∈ E, ∀ hash ∈ blobs_of event, out.has blake3 hash) ∧
    out.events_jsonl = some text ∧
    ((Rendered to_string E text ∧ report.event_count = E.length) ↔ Undisturbed w.history)

def Read (to_string : ExportedEventLine → Except String String) (blake3 : Bytes → Digest)
    (blobs_of : Event → List Digest) (n : Nat) (w : World) : Prop :=
  ∃ E before between after out text, .copied ∉ before ∧ .read ∉ after ∧
    Copied blake3 blobs_of E before (between ++ .read :: after) out w ∧
    (∀ event ∈ E, ∀ hash ∈ blobs_of event, out.has blake3 hash) ∧
    (∃ file, out.events_jsonl = some file ∧ file ++ out.buffer = text) ∧
    Rendered to_string (E ++ commits between) text ∧ n = (E ++ commits between).length

variable {n : Nat}

section
variable (h : Read to_string blake3 blobs_of n w)
include h

theorem Read.beside (hw : Beside blake3 blobs_of w w') :
    Read to_string blake3 blobs_of n w' := by
  obtain ⟨E,before,between,after,out,text,hbefore,hafter,hcopied,hhas,hfile,hrest⟩ := h
  obtain ⟨batches,hcopied'⟩ := hcopied.beside hw
  refine ⟨E,before,between,after ++ batches.map .committed,out,text,hbefore,fun hmem => ?_,?_,hhas,
    hfile,hrest⟩
  · rcases mem_append.mp hmem with hmem | hmem
    · exact hafter hmem
    · exact (committed_only hmem).2 rfl
  · rwa [append_assoc,cons_append] at hcopied'

theorem Read.flush :
    Read to_string blake3 blobs_of n (w.onOut Exported.flushed) ∧
      ∀ out, (w.onOut Exported.flushed).out = some out → out.buffer = "" := by
  obtain ⟨E,before,between,after,out,text,hbefore,hafter,hcopied,hhas,⟨file,hfile,rfl⟩,hrest⟩ := h
  refine ⟨⟨E,before,between,after,out.flushed,_,hbefore,hafter,⟨hcopied.sound,?_,hcopied.database,
    hcopied.history,hcopied.once,hcopied.log⟩,hhas,?_,hrest⟩,?_⟩
  · rw [World.onOut,hcopied.there,Option.map_some]
  · exact ⟨file ++ out.buffer,by simp [Exported.flushed,hfile],String.append_empty⟩
  · intro other hother
    rw [World.onOut,hcopied.there,Option.map_some] at hother
    rw [← Option.some.inj hother,Exported.flushed]

theorem Read.finished
    (hflushed : ∀ out, w.out = some out → out.buffer = "") (name : String) (blob_count : Nat) :
    Finished to_string blake3 blobs_of ⟨name,n,blob_count⟩ w := by
  obtain ⟨E,before,between,after,out,text,hbefore,hafter,hcopied,hhas,⟨file,hfile,rfl⟩,htext,rfl⟩
    := h
  rw [hflushed out hcopied.there,String.append_empty] at htext
  refine ⟨out,E,file,hcopied.there,hcopied.database,?_,hhas,hfile,?_⟩
  · rw [hcopied.log]
    exact prefix_append _ _
  · rw [hcopied.history,undisturbed_iff hbefore hcopied.once hafter]
    constructor
    · rintro ⟨-,hlength⟩
      simp only [length_append] at hlength
      exact length_eq_zero_iff.mp (by omega)
    · intro hnone
      rw [hnone,append_nil] at htext ⊢
      exact ⟨htext,rfl⟩

theorem Read.manifest (manifest : Bytes) :
    Read to_string blake3 blobs_of n
      (w.onOut fun out => { out with manifest := some manifest }) := by
  obtain ⟨E,before,between,after,out,text,hbefore,hafter,hcopied,hhas,hfile,hrest⟩ := h
  refine ⟨E,before,between,after,{ out with manifest := some manifest },text,hbefore,hafter,
    ⟨hcopied.sound,?_,hcopied.database,hcopied.history,hcopied.once,hcopied.log⟩,hhas,hfile,hrest⟩
  rw [World.onOut,hcopied.there,Option.map_some]

end

theorem finish_amidst (name : String) (blob_count : Nat) (h : Read to_string blake3 blobs_of n w) :
    (flush.bind fun _ => read_manifest.bind fun manifest => (write_manifest manifest).bind fun _ =>
      Prog.ret ⟨name,n,blob_count⟩).Amidst exportMachine (Beside blake3 blobs_of)
      (Prog.returning (Finished to_string blake3 blobs_of)) w := by
  let Ready := fun t : World => Read to_string blake3 blobs_of n t ∧
    ∀ out, t.out = some out → out.buffer = ""
  have hready : ∀ t t', Ready t → Beside blake3 blobs_of t t' → Ready t' :=
    fun t t' ht hb => ⟨ht.1.beside hb,fun out hout => ht.2 out (hb.out.symm.trans hout)⟩
  refine amidst_then (flush_amidst (Q := fun _ => Ready) fun t ht => hready _ _ h.flush ht) ?_
  intro _ t ht
  refine amidst_then (read_manifest_amidst (P := fun _ => Ready)
    fun t' ht' => hready _ _ ht ht') ?_
  intro manifest t' ht'
  refine amidst_then (write_manifest_amidst (Q := fun _ => Ready)
    fun t'' ht'' => hready _ _ ⟨ht'.1.manifest manifest,?_⟩ ht'') ?_
  · intro out hout
    obtain ⟨old,hold,rfl⟩ := Option.map_eq_some_iff.mp hout
    exact ht'.2 old hold
  · exact fun _ t'' ht'' => ht''.1.finished ht''.2 name blob_count

def Refers (blobs_of : Event → List Digest) (E : List Event) (hash : Digest) : Prop :=
  ∃ event ∈ E, hash ∈ blobs_of event

def Fresh (blake3 : Bytes → Digest) (blobs_of : Event → List Digest) (w : World) : Prop :=
  w.live.Sound blake3 blobs_of ∧ .copied ∉ w.history

theorem Fresh.beside (h : Fresh blake3 blobs_of w) (hw : Beside blake3 blobs_of w w') :
    Fresh blake3 blobs_of w' := by
  obtain ⟨batches,hhistory,-⟩ := hw.grew
  refine ⟨hw.sound h.1,fun hmem => ?_⟩
  rw [hhistory] at hmem
  rcases mem_append.mp hmem with hmem | hmem
  · exact h.2 hmem
  · exact (committed_only hmem).1 rfl

theorem Fresh.vacuum (h : Fresh blake3 blobs_of w) (hout : w.out = some .new) :
    Copying blake3 blobs_of w.live.log w.history (fun _ => False)
      ((w.onOut fun out => { out with database := some w.live.log }).noting .copied) := by
  refine ⟨[],{ Exported.new with database := some w.live.log },⟨h.1,?_,rfl,rfl,nofun,?_⟩,rfl,nofun⟩
  · rw [World.noting,World.onOut,hout]
    rfl
  · exact (append_nil _).symm

theorem copying_amidst (h : Fresh blake3 blobs_of w) (hout : w.out = some .new) :
    (vacuum_into.bind fun _ => copy_all_into).Amidst exportMachine (Beside blake3 blobs_of)
      (Prog.returning fun _ t => ∃ E before, .copied ∉ before ∧
        Copying blake3 blobs_of E before (Refers blobs_of E) t) w := by
  refine amidst_then (vacuum_into_amidst (Q := fun _ t =>
    Copying blake3 blobs_of w.live.log w.history (fun _ => False) t ∧
      ∀ hash, Refers blobs_of w.live.log hash → t.live.has hash) fun t ht => ?_) ?_
  · refine ⟨(h.vacuum hout).beside ht,?_⟩
    rintro hash ⟨event,hevent,hhash⟩
    exact ht.kept _ (h.1.present event hevent hash hhash)
  · rintro _ t ⟨ht,hheld⟩
    refine amidst_returning ?_ (copy_all_into_amidst ht)
    rintro blob_count t' ⟨since,out,hcopied,hbuffer,hhas⟩
    exact ⟨_,_,h.2,since,out,hcopied,hbuffer,fun hash hhash => hhas hash (hheld hash hhash)⟩

theorem Copying.create_events (h : Copying blake3 blobs_of E before copied w) :
    ∃ since, Reading blake3 blobs_of E copied before since ""
      (w.onOut fun out => { out with events_jsonl := some "" }) := by
  obtain ⟨since,out,hcopied,hbuffer,hhas⟩ := h
  refine ⟨since,{ out with events_jsonl := some "" },⟨hcopied.sound,?_,hcopied.database,
    hcopied.history,hcopied.once,hcopied.log⟩,hhas,"",rfl,?_⟩
  · rw [World.onOut,hcopied.there,Option.map_some]
  · rw [String.empty_append]
    exact hbuffer

theorem rendering_amidst (fuel : Nat) (hbefore : .copied ∉ before)
    (h : Copying blake3 blobs_of E before (Refers blobs_of E) w) :
    (create_events.bind fun _ => for_each_event (write_event to_string) fuel 0 0).Amidst
      exportMachine (Beside blake3 blobs_of)
      (Prog.returning (Read to_string blake3 blobs_of)) w := by
  refine amidst_then (create_events_amidst (Q := fun _ t => ∃ since,
    Reading blake3 blobs_of E (Refers blobs_of E) before since "" t) fun t ht => ?_) ?_
  · obtain ⟨since,hreading⟩ := h.create_events
    obtain ⟨batches,hreading'⟩ := hreading.beside ht
    exact ⟨_,hreading'⟩
  · rintro _ t ⟨since,hreading⟩
    refine amidst_returning ?_ (for_each_event_amidst fuel [] hreading
      (List.nil_prefix ..) ⟨[],.nil,rfl⟩)
    rintro n t' ⟨between,text,⟨after,hafter,out,hcopied,hhas,hfile⟩,htext,hn⟩
    exact ⟨E,before,between,after,out,text,hbefore,hafter,hcopied,
      fun event hevent hash hhash => hhas hash ⟨event,hevent,hhash⟩,hfile,htext,hn⟩

theorem project_export_amidst (fuel : Nat) (input : ProjectExportInput)
    (h : Fresh blake3 blobs_of w) :
    (project_export to_string fuel input).Amidst exportMachine (Beside blake3 blobs_of)
      (Prog.returning (Finished to_string blake3 blobs_of)) w := by
  refine amidst_then (open_log_amidst (Q := fun _ => Fresh blake3 blobs_of) fun t ht =>
    h.beside ht) fun _ t ht => ?_
  refine amidst_then (out_exists_amidst (P := fun _ => Fresh blake3 blobs_of) fun t' ht' =>
    ht.beside ht') fun exists_already t ht => ?_
  cases exists_already with
  | true => trivial
  | false =>
    refine amidst_then (create_out_amidst (Q := fun _ t' =>
      Fresh blake3 blobs_of t' ∧ t'.out = some .new) fun t' ht' => ?_) ?_
    · exact ⟨Fresh.beside (w := { t with out := some .new }) ht ht',ht'.out⟩
    rintro _ t' ⟨ht',hout⟩
    change (vacuum_into.bind fun _ => copy_all_into.bind fun blob_count => _).Amidst _ _ _ _
    rw [← bind_assoc]
    refine amidst_then (copying_amidst ht' hout) ?_
    rintro blob_count u ⟨E,before,hbefore,hcopying⟩
    change (create_events.bind fun _ =>
      (for_each_event (write_event to_string) fuel 0 0).bind fun n => _).Amidst _ _ _ _
    rw [← bind_assoc]
    refine amidst_then (rendering_amidst fuel hbefore hcopying) ?_
    exact fun n u' hread => finish_amidst input.out blob_count hread

/-- Whatever is appended and published beside it, an export that ends well holds
a prefix of the log and every blob it refers to. The rendering and the count are
of that prefix if and only if nothing was committed between the copy of the
database and the last reading of the log. -/
theorem export_consistent (to_string : ExportedEventLine → Except String String)
    (blake3 : Bytes → Digest) (blobs_of : Event → List Digest) (fuel : Nat)
    (input : ProjectExportInput) (env : Nat → ExportInput × List Other) (w : World)
    (h : w.live.Sound blake3 blobs_of) (hnew : w.history = []) (report : ProjectExportReport)
    (hreport : ((project_export to_string fuel input).run
      (exportMachine.amid (World.others blake3 blobs_of)) env 0 w).1 = .ok report) :
    Finished to_string blake3 blobs_of report ((project_export to_string fuel input).after
      (exportMachine.amid (World.others blake3 blobs_of)) env 0 w) := by
  have hexport : (project_export to_string fuel input).Amidst exportMachine
      (Beside blake3 blobs_of) (Prog.returning (Finished to_string blake3 blobs_of)) w :=
    project_export_amidst fuel input ⟨h,hnew ▸ nofun⟩
  have hrun := amidst_run (fun moves t => others_beside moves t) env 0 hexport
  rw [hreport] at hrun
  exact hrun

end

def noted : AppendRequest := ⟨⟨0⟩,.user ⟨0⟩,⟨"Noted",by decide⟩,[1],[]⟩

def kindOf (line : ExportedEventLine) : Except String String := .ok line.kind

def bodyBlob (event : Event) : List Digest := [readBytes256 event.body]

def oneEvent : World :=
  ⟨⟨assigned 0 [(noted,0,0)],Table.empty.put (blob_path (readBytes256 [1])) [1],[]⟩,none,[]⟩

theorem oneEvent_sound : oneEvent.live.Sound readBytes256 bodyBlob := by
  refine ⟨rfl,fun hash content hget => ?_,fun event hevent hash hhash => ?_⟩
  · simp only [oneEvent,Table.get?_put,Table.get?_empty] at hget
    split at hget
    · rename_i heq
      cases hget
      exact (blob_path_injective heq).symm
    · cases hget
  · obtain rfl := mem_singleton.mp hevent
    obtain rfl := mem_singleton.mp hhash
    simp [Live.has,oneEvent,assigned,noted,AppendRequest.event]

def behindTheCopy (n : Nat) : ExportInput × List Other :=
  ({},if n = 3 then [.commit [(noted,0,0)]] else [])

def behindTheReading (n : Nat) : ExportInput × List Other :=
  ({},if n = 13 then [.commit [(noted,0,0)]] else [])

def exported (env : Nat → ExportInput × List Other) :
    Except ExportEnd ProjectExportReport × World :=
  let ended := (project_export kindOf 2 ⟨"alpha","copy"⟩).run
    (exportMachine.amid (World.others readBytes256 bodyBlob)) env 0 oneEvent
  (ended.1,ended.2.2)

theorem late_reading_exported :
    Finished kindOf readBytes256 bodyBlob ⟨"copy",1,1⟩ (exported behindTheReading).2 :=
  export_consistent kindOf readBytes256 bodyBlob 2 ⟨"alpha","copy"⟩ behindTheReading oneEvent
    oneEvent_sound rfl ⟨"copy",1,1⟩ (by decide)

/-- The event behind the copy is counted, and the database is without it. -/
theorem late_event_exported :
    (exported behindTheCopy).1 = .ok ⟨"copy",2,1⟩ ∧
      ((exported behindTheCopy).2.out.bind Exported.database).map List.length = some 1 := by
  decide

end ProjectOS.Api
