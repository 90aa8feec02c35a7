import ProjectOS.Log.Catalog

namespace ProjectOS.Log
open Lib Domain

def TableDef.requireArity (t : TableDef) (what : String) (got expected : Nat) :
    Except ApplyError Unit :=
  if got = expected then .ok ()
  else .error ⟨s!"{t.name}: {what} arity {got}, table declares {expected}"⟩

def TableDef.requireValueColumn (t : TableDef) (column : String) : Except ApplyError Unit :=
  if t.valueColumns.any (fun c => c.name = column) then .ok ()
  else .error ⟨s!"{t.name}: {column} is not a declared value column"⟩

def TableDef.requireValueColumns (t : TableDef) (columns : List String) : Except ApplyError Unit :=
  columns.forM t.requireValueColumn

def TableDef.requireOneChanged (t : TableDef) (operation : String) (changed : Nat) :
    Except ApplyError Unit :=
  if changed = 1 then .ok ()
  else .error
    ⟨s!"{t.name}: {operation} changed {changed} rows; exactly one lifecycle row must exist"⟩

def TableDef.checkWrite (t : TableDef) : RowWrite → Except ApplyError Unit
  | .insert key values | .upsert key values => do
    t.requireArity "key" key.length t.keyColumns.length
    t.requireArity "values" values.length t.valueColumns.length
  | .update key assignments => do
    t.requireArity "key" key.length t.keyColumns.length
    t.requireValueColumns (assignments.map Prod.fst)
    if assignments.isEmpty then .error ⟨s!"{t.name}: update with no assignments"⟩
  | .updateOne key assignments => do
    t.requireArity "key" key.length t.keyColumns.length
    t.requireValueColumns (assignments.map Prod.fst)
    if assignments.isEmpty then .error ⟨s!"{t.name}: strict update with no assignments"⟩
  | .updateOneWhenNull key guardColumn assignments => do
    t.requireArity "key" key.length t.keyColumns.length
    t.requireValueColumn guardColumn
    t.requireValueColumns (assignments.map Prod.fst)
    if assignments.isEmpty then .error ⟨s!"{t.name}: guarded update with no assignments"⟩
  | .increment key column _ | .incrementOne key column _ => do
    t.requireArity "key" key.length t.keyColumns.length
    t.requireValueColumn column
  | .incrementManyOne key deltas => do
    t.requireArity "key" key.length t.keyColumns.length
    if deltas.isEmpty then .error ⟨s!"{t.name}: strict multi-increment has no deltas"⟩
    t.requireValueColumns (deltas.map Prod.fst)
  | .delete key => t.requireArity "key" key.length t.keyColumns.length

def TableDef.checkChanged (t : TableDef) (changed : Nat) : RowWrite → Except ApplyError Unit
  | .updateOne _ _ => t.requireOneChanged "strict update" changed
  | .updateOneWhenNull _ _ _ => t.requireOneChanged "guarded single-assignment update" changed
  | .incrementOne _ _ _ => t.requireOneChanged "strict increment" changed
  | .incrementManyOne _ _ => t.requireOneChanged "strict multi-increment" changed
  | .insert _ _ | .upsert _ _ | .update _ _ | .increment _ _ _ | .delete _ => .ok ()

def assign (columns : List ColumnDef) (sets : List (String × (ColumnKind → Cell → Cell)))
    (row : List Cell) : List Cell :=
  List.zipWith (fun c old =>
    match (sets.filter (fun set => set.1 = c.name)).getLast? with
    | some set => set.2 c.kind old
    | none => old) columns row

def TableDef.cellAt (t : TableDef) (column : String) (row : List Cell) : Cell :=
  match (t.valueColumns.zip row).find? (fun c => c.1.name = column) with
  | some c => c.2
  | none => .null

namespace Sqlite
variable (S : Sqlite)

def fit (columns : List ColumnDef) (values : List SqlValue) : List Cell :=
  List.zipWith (fun c v => S.affinity c.kind v) columns values

def keyOf (t : TableDef) (key : List SqlValue) : Except String (List Cell) :=
  if Cell.null ∈ S.fit t.keyColumns key then .error s!"NOT NULL constraint failed: {t.name}"
  else .ok (S.fit t.keyColumns key)

def values (assignments : List (String × SqlValue)) :
    List (String × (ColumnKind → Cell → Cell)) :=
  assignments.map (fun a => (a.1,fun kind _ => S.affinity kind a.2))

def sums (deltas : List (String × Int)) : List (String × (ColumnKind → Cell → Cell)) :=
  deltas.map (fun d => (d.1,fun kind old => S.add kind old d.2))

def insertRow (t : TableDef) (rows : Rows) (key values : List SqlValue) :
    Except String (Nat × Rows) :=
  (S.keyOf t key).bind (fun k =>
    match rows.get? k with
    | some _ => .error s!"UNIQUE constraint failed: {t.name}"
    | none => .ok (1,rows.put k (S.fit t.valueColumns values)))

def upsertRow (t : TableDef) (rows : Rows) (key values : List SqlValue) :
    Except String (Nat × Rows) :=
  (S.keyOf t key).bind (fun k => .ok (1,rows.put k (S.fit t.valueColumns values)))

def updateRow (t : TableDef) (rows : Rows) (key : List SqlValue) (guard : List Cell → Bool)
    (sets : List (String × (ColumnKind → Cell → Cell))) : Nat × Rows :=
  match rows.get? (S.fit t.keyColumns key) with
  | none => (0,rows)
  | some row =>
    if guard row then (1,rows.put (S.fit t.keyColumns key) (assign t.valueColumns sets row))
    else (0,rows)

def incrementRow (t : TableDef) (rows : Rows) (key : List SqlValue) (column : String)
    (delta : Int) : Except String (Nat × Rows) :=
  (S.keyOf t key).bind (fun k =>
    match rows.get? k with
    | some row => .ok (1,rows.put k (assign t.valueColumns (S.sums [(column,delta)]) row))
    | none => .ok (1,rows.put k (t.valueColumns.map (fun c =>
        if c.name = column then S.affinity c.kind (.integer delta) else .null))))

def statement (t : TableDef) (rows : Rows) : RowWrite → Except String (Nat × Rows)
  | .insert key values => S.insertRow t rows key values
  | .upsert key values => S.upsertRow t rows key values
  | .update key assignments | .updateOne key assignments =>
    .ok (S.updateRow t rows key (fun _ => true) (S.values assignments))
  | .updateOneWhenNull key guardColumn assignments =>
    .ok (S.updateRow t rows key (fun row => t.cellAt guardColumn row = .null)
      (S.values assignments))
  | .increment key column delta => S.incrementRow t rows key column delta
  | .incrementOne key column delta =>
    .ok (S.updateRow t rows key (fun _ => true) (S.sums [(column,delta)]))
  | .incrementManyOne key deltas => .ok (S.updateRow t rows key (fun _ => true) (S.sums deltas))
  | .delete key => .ok (1,rows.erase (S.fit t.keyColumns key))

def sqlError {α : Type} (t : TableDef) : Except String α → Except ApplyError α
  | .ok a => .ok a
  | .error message => .error ⟨s!"{t.name}: {message}"⟩

def executeWrite (t : TableDef) (w : RowWrite) (c : Catalog) : Except ApplyError Catalog := do
  t.checkWrite w
  match c.tables.get? t.name with
  | none => .error ⟨s!"{t.name}: no such table: main.{t.name}"⟩
  | some stored =>
    let done ← sqlError t
      (if stored.shape = t.shape then S.statement t stored.rows w
       else S.foreign stored.shape t w stored.rows)
    t.checkChanged done.1 w
    .ok { c with tables := c.tables.put t.name { stored with rows := done.2 } }

end Sqlite
end ProjectOS.Log
