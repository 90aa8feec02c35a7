import Mathlib.Data.String.Basic
import Mathlib.Data.Prod.Lex
import ProjectOS.Foundation
import ProjectOS.Domain.Rows

/-! Tables and their catalog. SQLite folds the ASCII case of names; the names here are
without capitals, and compared as they stand. -/

namespace ProjectOS.Log
open Lib Domain

inductive SqlValue where
  | integer (n : Int)
  | text (s : String)
  | blob (b : Bytes)
  | null
  deriving DecidableEq

/-- No projection asks for a REAL, but SQLite makes one of an integer sum that
overflows. -/
inductive Cell where
  | null
  | integer (n : Int)
  | real (bits : BitVec 64)
  | text (s : String)
  | blob (b : Bytes)
  deriving DecidableEq

namespace Cell

def rank : Cell → Nat ×ₗ Int ×ₗ String ×ₗ List Nat
  | .null => toLex (0,toLex (0,toLex ("",[])))
  | .integer n => toLex (1,toLex (n,toLex ("",[])))
  | .real bits => toLex (2,toLex (bits.toNat,toLex ("",[])))
  | .text s => toLex (3,toLex (0,toLex (s,[])))
  | .blob b => toLex (4,toLex (0,toLex ("",b.map UInt8.toNat)))

theorem bytes_injective : Function.Injective (fun b : Bytes => b.map UInt8.toNat) :=
  List.map_injective_iff.mpr (fun _ _ h => UInt8.toNat_inj.mp h)

theorem rank_injective : Function.Injective rank := by
  intro a b h
  cases a <;> cases b <;> simp [rank] at h <;> simp
  case integer.integer => exact h
  case real.real => exact BitVec.eq_of_toNat_eq h
  case text.text => exact h
  case blob.blob => exact bytes_injective h

instance : LinearOrder Cell := LinearOrder.lift' rank rank_injective

def read : Cell → Option SqlValue
  | .null => some .null
  | .integer n => some (.integer n)
  | .real _ => none
  | .text s => some (.text s)
  | .blob b => some (.blob b)

end Cell

inductive ColumnKind where
  | integer
  | text
  | blob
  deriving DecidableEq

def ColumnKind.sqlType : ColumnKind → String
  | .integer => "INTEGER"
  | .text => "TEXT"
  | .blob => "BLOB"

structure ColumnDef where
  name : String
  kind : ColumnKind
  deriving DecidableEq

structure IndexDef where
  name : String
  columns : List String
  deriving DecidableEq

structure TableDef where
  name : String
  version : Nat
  keyColumns : List ColumnDef
  valueColumns : List ColumnDef
  indexes : List IndexDef
  deriving DecidableEq

def TableDef.columns (t : TableDef) : List ColumnDef := t.keyColumns ++ t.valueColumns

def TableDef.columnNames (t : TableDef) : List String := t.columns.map ColumnDef.name

structure Shape where
  keyColumns : List ColumnDef
  valueColumns : List ColumnDef
  deriving DecidableEq

def TableDef.shape (t : TableDef) : Shape := ⟨t.keyColumns,t.valueColumns⟩

def Shape.columnNames (s : Shape) : List String :=
  (s.keyColumns ++ s.valueColumns).map ColumnDef.name

inductive RowWrite where
  | insert (key values : List SqlValue)
  | upsert (key values : List SqlValue)
  | update (key : List SqlValue) (assignments : List (String × SqlValue))
  | updateOne (key : List SqlValue) (assignments : List (String × SqlValue))
  | updateOneWhenNull (key : List SqlValue) (guardColumn : String)
      (assignments : List (String × SqlValue))
  | increment (key : List SqlValue) (column : String) (delta : Int)
  | incrementOne (key : List SqlValue) (column : String) (delta : Int)
  | incrementManyOne (key : List SqlValue) (deltas : List (String × Int))
  | delete (key : List SqlValue)
  deriving DecidableEq

abbrev Rows := Table (List Cell) (List Cell)

/-- SQLite as the log relies on it: `affinity` is how a column keeps a value, `add`
is `COALESCE(c, 0) + delta`, `foreign` and `foreignRows` are a write and a read on a
table created with other columns. -/
structure Sqlite where
  affinity : ColumnKind → SqlValue → Cell
  add : ColumnKind → Cell → Int → Cell
  foreign : Shape → TableDef → RowWrite → Rows → Except String (Nat × Rows)
  foreignRows : Shape → TableDef → Rows → Except String (List (List Cell))

structure Stored where
  shape : Shape
  rows : Rows
  deriving DecidableEq

structure StoredIndex where
  table : String
  columns : List String
  deriving DecidableEq

structure Catalog where
  tables : Table String Stored
  indexes : Table String StoredIndex
  deriving DecidableEq

namespace Catalog

def empty : Catalog := ⟨Table.empty,Table.empty⟩

def logTables : List String := ["events","log_devices","log_state","log_snapshots"]

def createTable (c : Catalog) (t : TableDef) : Except String Catalog :=
  match c.tables.get? t.name with
  | some _ => .ok c
  | none =>
    match c.indexes.get? t.name with
    | some _ => .error s!"there is already an index named {t.name}"
    | none =>
      if t.columnNames.Nodup then
        .ok { c with tables := c.tables.put t.name ⟨t.shape,Table.empty⟩ }
      else .error "duplicate column name"

def reserved (name : String) : Bool := "sqlite_".toList.isPrefixOf (name.toList.map Char.toLower)

/-- `CREATE INDEX IF NOT EXISTS`: an index of that name is left alone; otherwise its
columns must be the table's. -/
def createIndex (c : Catalog) (t : TableDef) (i : IndexDef) : Except String Catalog :=
  if i.columns = [] then .error "near \")\": syntax error"
  else if reserved i.name then .error s!"object name reserved for internal use: {i.name}"
  else
    match c.tables.get? t.name with
    | none => .error s!"no such table: main.{t.name}"
    | some stored =>
      if i.name ∈ logTables ∨ (c.tables.get? i.name).isSome then
        .error s!"there is already a table named {i.name}"
      else
        match c.indexes.get? i.name with
        | some _ => .ok c
        | none =>
          match i.columns.find? (fun column => column ∉ stored.shape.columnNames) with
          | some column => .error s!"no such column: {column}"
          | none => .ok { c with indexes := c.indexes.put i.name ⟨t.name,i.columns⟩ }

def dropTable (c : Catalog) (t : TableDef) : Catalog :=
  ⟨c.tables.erase t.name,c.indexes.keep (fun _ i => i.table ≠ t.name)⟩

def ensureTable (c : Catalog) (t : TableDef) : Except String Catalog :=
  (c.createTable t).bind (fun c => t.indexes.foldlM (fun c i => c.createIndex t i) c)

def ensureTables (ts : List TableDef) (c : Catalog) : Except String Catalog :=
  ts.foldlM ensureTable c

def dropTables (ts : List TableDef) (c : Catalog) : Catalog := ts.foldl dropTable c

end Catalog

end ProjectOS.Log
