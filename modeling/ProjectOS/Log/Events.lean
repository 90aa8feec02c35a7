import ProjectOS.Log.Writes

namespace ProjectOS.Log
open Lib Domain List

inductive FaultPoint where
  | casTempWritten
  | casRenamed
  | walCommit
  | logEventInserted
  | logApplied
  | logSnapshotWritten
  deriving DecidableEq

inductive StoreError where
  | sqlite (context message : String)
  | durabilityLost (context : String)
  | failStopped
  | injectedFault (point : FaultPoint)
  deriving DecidableEq

inductive LogError where
  | store (source : StoreError)
  | invalidKindTag (tag : String)
  | oversizeBody (len : Nat)
  | oversizeRefs (count : Nat)
  | decodeEvent (seq : Nat) (reason : String)
  | apply (kind : String) (seq : Nat) (source : ApplyError)
  | stateAhead (applied head : Nat)
  | headChanged (expected actual : Nat)
  deriving DecidableEq

/-- How a call can end without a result: a typed error, a panic, or the death
of the process. -/
inductive Failure where
  | error (e : LogError)
  | panic (message : String)
  | killed
  deriving DecidableEq

def sqlite (context message : String) : Failure := .error (.store (.sqlite context message))

inductive Actor where
  | user (id : UserId)
  | agent (id : RunId)
  | system (id : JobId)
  deriving DecidableEq

def kindTagLenMax : Nat := 64

def asciiAlphanumeric (c : Char) : Bool :=
  (48 ≤ c.toNat && c.toNat ≤ 57) || (65 ≤ c.toNat && c.toNat ≤ 90) ||
    (97 ≤ c.toNat && c.toNat ≤ 122)

def validTag (tag : String) : Bool :=
  tag ≠ "" && tag.length ≤ kindTagLenMax && tag.toList.all asciiAlphanumeric

structure KindTag where
  tag : String
  valid : validTag tag
  deriving DecidableEq

def KindTag.new (tag : String) : Except LogError KindTag :=
  if h : validTag tag then .ok ⟨tag,h⟩ else .error (.invalidKindTag tag)

structure EntityRef where
  entity : String
  id : BitVec 128
  deriving DecidableEq

structure Event where
  seq : Nat
  device : DeviceId
  lamport : Nat
  tsMs : Nat
  actor : Actor
  kind : KindTag
  body : Bytes
  refs : List EntityRef
  deriving DecidableEq

/-- What a caller submits; sequence number, lamport value and time are assigned at
append. -/
structure AppendRequest where
  device : DeviceId
  actor : Actor
  kind : KindTag
  body : Bytes
  refs : List EntityRef
  deriving DecidableEq

structure EventRow where
  device : DeviceId
  lamport : Int
  tsMs : Int
  actor : Actor
  kind : KindTag
  body : Bytes
  refs : List EntityRef
  deriving DecidableEq

def eventRefsCountMax : Nat := 64
def eventBodyLenMax : Nat := 1048576

def validateRequest (request : AppendRequest) : Except LogError Unit :=
  if eventBodyLenMax < request.body.length then .error (.oversizeBody request.body.length)
  else if eventRefsCountMax < request.refs.length then .error (.oversizeRefs request.refs.length)
  else .ok ()

def AppendRequest.event (request : AppendRequest) (seq lamport tsMs : Nat) : Event :=
  { seq, device := request.device, lamport, tsMs, actor := request.actor, kind := request.kind,
    body := request.body, refs := request.refs }

@[simp] theorem AppendRequest.event_seq (request : AppendRequest) (seq lamport tsMs : Nat) :
    (request.event seq lamport tsMs).seq = seq := rfl

@[simp] theorem AppendRequest.event_tsMs (request : AppendRequest) (seq lamport tsMs : Nat) :
    (request.event seq lamport tsMs).tsMs = tsMs := rfl

def AppendRequest.row (request : AppendRequest) (lamport tsMs : Nat) : EventRow :=
  { device := request.device, lamport := integerU64 lamport, tsMs := integerU64 tsMs,
    actor := request.actor, kind := request.kind, body := request.body, refs := request.refs }

def decodeEventRow (seq : Int) (row : EventRow) : Except LogError Event :=
  if seq < 0 then .error (.decodeEvent 0 s!"negative seq {seq}")
  else if row.lamport < 0 then .error (.decodeEvent seq.toNat s!"negative lamport {row.lamport}")
  else .ok
    { seq := seq.toNat, device := row.device, lamport := row.lamport.toNat,
      tsMs := nonNegative row.tsMs, actor := row.actor, kind := row.kind, body := row.body,
      refs := row.refs }

structure Projection where
  table : TableDef
  apply : Event → Except ApplyError (List RowWrite)

def projectionCountMax : Nat := 64

def TableDef.declares (t : TableDef) (column : String) : Bool :=
  t.columns.any (fun c => c.name = column)

def TableDef.shapeError (previous : String) (t : TableDef) : Option String :=
  if ¬ "proj_".toList.isPrefixOf t.name.toList then
    some s!"projection table {t.name} must use the proj_ naming convention"
  else if t.name = previous then some s!"projection table {t.name} is registered twice"
  else if t.keyColumns.isEmpty then some s!"projection table {t.name} declares no key columns"
  else t.indexes.findSome? (fun index =>
    (index.columns.find? (fun column => !t.declares column)).map (fun column =>
      s!"index {index.name} on {t.name} names undeclared column {column}"))

def shapeErrors (previous : String) : List TableDef → Option String
  | [] => none
  | t :: rest =>
    match t.shapeError previous with
    | some reason => some reason
    | none => shapeErrors t.name rest

def byName (a b : Projection) : Prop := a.table.name ≤ b.table.name

instance : DecidableRel byName := fun _ _ => inferInstanceAs (Decidable (_ ≤ _))

structure ProjectionRegistry where
  projections : List Projection
  bounded : projections.length ≤ projectionCountMax
  ordered : projections.Pairwise byName
  accepted : shapeErrors "" (projections.map Projection.table) = none

namespace ProjectionRegistry

def tables (R : ProjectionRegistry) : List TableDef := R.projections.map Projection.table

instance : IsTrans Projection byName := ⟨fun _ _ _ h h' => le_trans h h'⟩

instance : Std.Total byName := ⟨fun a b => le_total a.table.name b.table.name⟩

def new (projections : List Projection) : Except Failure ProjectionRegistry :=
  if hb : projections.length ≤ projectionCountMax then
    if ha : shapeErrors "" ((projections.insertionSort byName).map Projection.table) = none then
      .ok ⟨projections.insertionSort byName,by rwa [length_insertionSort],
        pairwise_insertionSort byName projections,ha⟩
    else
      .error (.error (.apply "" 0
        ⟨(shapeErrors "" ((projections.insertionSort byName).map Projection.table)).getD ""⟩))
  else .error (.panic "projection count exceeds the stated bound")

theorem shapeErrors_chain {previous : String} {ts : List TableDef}
    (h : shapeErrors previous ts = none) :
    (∀ t ∈ ts.head?, t.name ≠ previous) ∧ ts.IsChain (fun a b => b.name ≠ a.name) := by
  induction ts generalizing previous with
  | nil => simp
  | cons t rest ih =>
    rw [shapeErrors] at h
    split at h
    · exact absurd h (by simp)
    · rename_i ht
      obtain ⟨hhead,hrest⟩ := ih h
      constructor
      · have hne : t.name ≠ previous := by
          intro he
          rw [TableDef.shapeError] at ht
          split_ifs at ht
        simpa using hne
      · cases rest with
        | nil => simp
        | cons t' rest =>
          rw [isChain_cons_cons]
          exact ⟨hhead t' rfl,hrest⟩

theorem tables_ascending (R : ProjectionRegistry) :
    R.tables.Pairwise (fun a b => a.name < b.name) := by
  have hchain : R.tables.IsChain (fun a b => a.name < b.name) := by
    have hle : R.tables.IsChain (fun a b => a.name ≤ b.name) := by
      have hpairs : R.tables.Pairwise (fun a b => a.name ≤ b.name) :=
        pairwise_map.mpr R.ordered
      exact hpairs.isChain
    refine (isChain_iff_getElem.mpr ?_)
    intro i hi
    exact lt_of_le_of_ne (isChain_iff_getElem.mp hle i hi)
      (Ne.symm (isChain_iff_getElem.mp (shapeErrors_chain R.accepted).2 i hi))
  exact isChain_iff_pairwise.mp hchain

end ProjectionRegistry

def utf8 (s : String) : Bytes := s.toList.flatMap String.utf8EncodeChar

def beBytes32 (n : Nat) : Bytes := [n/2^24,n/2^16,n/2^8,n].map UInt8.ofNat

def TableDef.digestInput (t : TableDef) : Bytes :=
  utf8 t.name ++ beBytes32 t.version ++
    t.columns.flatMap (fun c => utf8 c.name ++ utf8 c.kind.sqlType) ++
    t.indexes.flatMap (fun i => utf8 i.name ++ i.columns.flatMap utf8)

structure Backend where
  sqlite : Sqlite
  blake3 : Bytes → Digest

def ProjectionRegistry.schemaDigest (B : Backend) (R : ProjectionRegistry) : Digest :=
  B.blake3 (R.tables.flatMap TableDef.digestInput)

end ProjectOS.Log
