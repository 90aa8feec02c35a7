import ProjectOS.Lib.Code
import ProjectOS.Log.Migration

/-! The verify pass of a project log: the projections are derived once more into
the `temp` schema, and what either schema holds is compared by a digest of its
rows, written one after another. -/

namespace ProjectOS.Log
open Lib Domain List

inductive ValueRef where
  | null
  | integer (value : BitVec 64)
  | real (value : BitVec 64)
  | text (text : Bytes)
  | blob (blob : Bytes)
  deriving DecidableEq

namespace ValueRef

def fold : ValueRef → Bytes
  | .null => [0]
  | .integer value => 1 :: beBytes 8 value.toNat
  | .real _ => [4]
  | .text b => 2 :: framed 8 b
  | .blob b => 3 :: framed 8 b

def Plain : ValueRef → Prop
  | .null | .integer _ => True
  | .real _ => False
  | .text b | .blob b => b.length < 256^8

theorem fold_ne_nil (v : ValueRef) : v.fold ≠ [] := by cases v <;> simp [fold]

theorem fold_delimits : Delimits Plain fold := by
  intro a b x y ha hb he
  cases a <;> cases b <;> simp [fold] at he <;> try contradiction
  case null.null => exact ⟨rfl,he⟩
  case integer.integer v w =>
    obtain ⟨hvw,hxy⟩ := beBytes_delimits 8 v.toNat w.toNat x y (by omega) (by omega) he
    exact ⟨by rw [BitVec.eq_of_toNat_eq hvw],hxy⟩
  case text.text v w =>
    obtain ⟨hvw,hxy⟩ := framed_delimits 8 v w x y ha hb he
    exact ⟨by rw [hvw],hxy⟩
  case blob.blob v w =>
    obtain ⟨hvw,hxy⟩ := framed_delimits 8 v w x y ha hb he
    exact ⟨by rw [hvw],hxy⟩

end ValueRef

def rowBytes (row : List ValueRef) : Bytes := row.flatMap ValueRef.fold

def foldTableRows (rows : List (List ValueRef)) : Bytes := rows.flatMap rowBytes

def PlainRow (columns : Nat) (row : List ValueRef) : Prop :=
  row.length = columns ∧ ∀ v ∈ row, v.Plain

theorem rowBytes_delimits (columns : Nat) : Delimits (PlainRow columns) rowBytes :=
  ValueRef.fold_delimits.lists columns

variable {columns : Nat}

theorem rowBytes_ne_nil (hpos : 0 < columns) {row : List ValueRef}
    (h : PlainRow columns row) : rowBytes row ≠ [] := by
  obtain ⟨hlen,-⟩ := h
  cases row with
  | nil => simp at hlen; omega
  | cons v row => simp [rowBytes,ValueRef.fold_ne_nil]

theorem foldTableRows_inj (hpos : 0 < columns) {rows rows' : List (List ValueRef)}
    (h : ∀ row ∈ rows, PlainRow columns row) (h' : ∀ row ∈ rows', PlainRow columns row)
    (he : foldTableRows rows = foldTableRows rows') : rows = rows' :=
  (rowBytes_delimits columns).flatMap_injective (fun _ => rowBytes_ne_nil hpos) h h' he

theorem utf8_inj {s t : String} (h : utf8 s = utf8 t) : s = t := by
  have hbytes : s.toByteArray = t.toByteArray := by
    rw [← String.utf8Encode_toList,← String.utf8Encode_toList,List.utf8Encode,List.utf8Encode]
    exact congrArg List.toByteArray h
  exact String.toByteArray_inj.mp hbytes

namespace Cell

def valueRef : Cell → ValueRef
  | .null => .null
  | .integer n => .integer (BitVec.ofInt 64 n)
  | .real bits => .real bits
  | .text s => .text (utf8 s)
  | .blob b => .blob b

def Plain : Cell → Prop
  | .null => True
  | .integer n => -2^63 ≤ n ∧ n < 2^63
  | .real _ => False
  | .text s => (utf8 s).length < 256^8
  | .blob b => b.length < 256^8

instance : DecidablePred Plain := fun c =>
  match c with
  | .null => .isTrue trivial
  | .integer n => inferInstanceAs (Decidable (-2^63 ≤ n ∧ n < 2^63))
  | .real _ => .isFalse id
  | .text s => inferInstanceAs (Decidable ((utf8 s).length < 256^8))
  | .blob b => inferInstanceAs (Decidable (b.length < 256^8))

theorem plain_valueRef {c : Cell} (h : c.Plain) : c.valueRef.Plain := by
  cases c <;> simp_all [Plain,valueRef,ValueRef.Plain]

theorem valueRef_inj {c d : Cell} (hc : c.Plain) (hd : d.Plain) (h : c.valueRef = d.valueRef) :
    c = d := by
  cases c <;> cases d <;> simp [valueRef] at h
  case null.null => rfl
  case integer.integer n m =>
    obtain ⟨hn,hn'⟩ := hc
    obtain ⟨hm,hm'⟩ := hd
    have hint := congrArg BitVec.toInt h
    simp only [BitVec.toInt_ofInt,Int.bmod_def] at hint
    have heq : n = m := by split_ifs at hint <;> omega
    rw [heq]
  case real.real => exact absurd hc (by simp [Plain])
  case text.text s t => rw [utf8_inj h]
  case blob.blob b b' => rw [h]

end Cell

def digestTable (B : Backend) (t : TableDef) (c : Catalog) : Except String Digest :=
  (Db.tableRows B t c).map (fun rows => B.blake3 (foldTableRows (rows.map (·.map Cell.valueRef))))

structure TableVerify where
  name : String
  matches_ : Bool
  deriving DecidableEq

structure VerifyReport where
  eventsReplayed : Nat
  appliedSeq : Nat
  headSeq : Nat
  tables : List TableVerify
  deriving DecidableEq

def VerifyReport.isClean (report : VerifyReport) : Bool :=
  report.appliedSeq = report.headSeq && report.tables.all TableVerify.matches_

def VerifyReport.mismatchedTables (report : VerifyReport) : List String :=
  (report.tables.filter (fun table => !table.matches_)).map TableVerify.name

section
variable (B : Backend) (R : ProjectionRegistry)

/-- How many events are replayed, and the tables of both schemas at the time of
their digests. The `temp` schema starts out empty and is filled as `main` is; its
applied position is not kept. -/
def deriveReplay (db : Db) : Except Failure (Nat × Db × Catalog) :=
  (Prog.effect (Db.exec B) (ensureTables R) db).bind (fun main =>
    (Prog.effect (Db.exec B) (recreateTables R) (main.withCatalog Catalog.empty)).bind (fun temp =>
      ((replayRange B R none 0 main.head).execute (Db.exec B) temp).map (fun replayed =>
        (replayed.1,main,replayed.2.catalog))))

def deriveProjections (db : Db) : Except Failure (Db × Catalog) :=
  (deriveReplay B R db).map Prod.snd

def verifyTable (main temp : Catalog) (t : TableDef) : Except Failure TableVerify :=
  (sqlFails "digest stored projection" (digestTable B t main)).bind (fun stored =>
    (sqlFails "digest derived projection" (digestTable B t temp)).map (fun derived =>
      ⟨t.name,stored = derived⟩))

def verifyAgainstReplay (db : Db) : Except Failure VerifyReport :=
  (deriveReplay B R db).bind (fun (eventsReplayed,main,temp) =>
    (R.tables.mapM (verifyTable B main.catalog temp)).map (fun tables =>
      { eventsReplayed, appliedSeq := main.applied, headSeq := main.head, tables }))

end

/-- The table holds the rows, each of the table's width and of cells that survive a read. -/
structure Catalog.Holds (c : Catalog) (t : TableDef) (rows : Rows) : Prop where
  stored : c.tables.get? t.name = some ⟨t.shape,rows⟩
  keys : ∀ r ∈ rows.rows, r.1.length = t.keyColumns.length
  values : ∀ r ∈ rows.rows, r.2.length = t.valueColumns.length
  plain : ∀ r ∈ rows.rows, ∀ c ∈ r.1 ++ r.2, Cell.Plain c

def rowsBytes (rows : Rows) : Bytes :=
  foldTableRows (rows.rows.map (fun r => (r.1 ++ r.2).map Cell.valueRef))

def Apart (B : Backend) (rows rows' : Rows) : Prop :=
  B.blake3 (rowsBytes rows) = B.blake3 (rowsBytes rows') → rowsBytes rows = rowsBytes rows'

section
variable {B : Backend} {t : TableDef} {c d : Catalog} {rows rows' : Rows}

theorem digestTable_holds (h : c.Holds t rows) :
    digestTable B t c = .ok (B.blake3 (rowsBytes rows)) := by
  simp only [digestTable,Db.tableRows,h.stored,if_true,Except.map,rowsBytes,map_map]
  rfl

theorem Catalog.Holds.plainRows (h : c.Holds t rows) :
    ∀ row ∈ rows.rows.map (fun r => (r.1 ++ r.2).map Cell.valueRef),
      PlainRow (t.keyColumns.length+t.valueColumns.length) row := by
  intro row hrow
  obtain ⟨r,hr,rfl⟩ := mem_map.mp hrow
  constructor
  · simp [h.keys r hr,h.values r hr]
  · intro v hv
    obtain ⟨cell,hcell,rfl⟩ := mem_map.mp hv
    exact Cell.plain_valueRef (h.plain r hr cell hcell)

theorem map_valueRef_inj {xs ys : List Cell} (hx : ∀ c ∈ xs, c.Plain) (hy : ∀ c ∈ ys, c.Plain)
    (h : xs.map Cell.valueRef = ys.map Cell.valueRef) : xs = ys := by
  induction xs generalizing ys with
  | nil => simpa using h
  | cons x xs ih =>
    cases ys with
    | nil => simp at h
    | cons y ys =>
      simp only [map_cons,List.cons.injEq] at h
      rw [Cell.valueRef_inj (hx x (by simp)) (hy y (by simp)) h.1,
        ih (fun c hc => hx c (by simp [hc])) (fun c hc => hy c (by simp [hc])) h.2]

theorem rows_inj {xs ys : List (List Cell × List Cell)} {width : Nat}
    (hx : ∀ r ∈ xs, r.1.length = width ∧ ∀ c ∈ r.1 ++ r.2, c.Plain)
    (hy : ∀ r ∈ ys, r.1.length = width ∧ ∀ c ∈ r.1 ++ r.2, c.Plain)
    (h : xs.map (fun r => (r.1 ++ r.2).map Cell.valueRef) =
      ys.map (fun r => (r.1 ++ r.2).map Cell.valueRef)) : xs = ys := by
  induction xs generalizing ys with
  | nil => simpa using h
  | cons x xs ih =>
    cases ys with
    | nil => simp at h
    | cons y ys =>
      rw [map_cons,map_cons,List.cons.injEq] at h
      have hcells := map_valueRef_inj (hx x (by simp)).2 (hy y (by simp)).2 h.1
      obtain ⟨hkey,hvalue⟩ := append_inj hcells
        (by rw [(hx x (by simp)).1,(hy y (by simp)).1])
      rw [Prod.ext hkey hvalue,ih (fun r hr => hx r (by simp [hr])) (fun r hr => hy r (by simp [hr])) h.2]

theorem rowsBytes_inj (ht : t.keyColumns ≠ []) (h : c.Holds t rows) (h' : d.Holds t rows')
    (he : rowsBytes rows = rowsBytes rows') : rows = rows' := by
  have hpos : 0 < t.keyColumns.length+t.valueColumns.length := by
    have hkey := length_pos_iff.mpr ht
    omega
  have hcells := foldTableRows_inj hpos h.plainRows h'.plainRows he
  have hrows := rows_inj (fun r hr => ⟨h.keys r hr,h.plain r hr⟩)
    (fun r hr => ⟨h'.keys r hr,h'.plain r hr⟩) hcells
  cases rows
  cases rows'
  simpa using hrows

theorem digests_agree (ht : t.keyColumns ≠ []) (h : c.Holds t rows) (h' : d.Holds t rows')
    (hash : Apart B rows rows') : digestTable B t c = digestTable B t d ↔ rows = rows' := by
  rw [digestTable_holds h,digestTable_holds h']
  constructor
  · intro he
    exact rowsBytes_inj ht h h' (hash (Except.ok.inj he))
  · intro he
    rw [he]

end

section
variable {B : Backend} {R : ProjectionRegistry}

theorem keyColumns_ne_nil {previous : String} {ts : List TableDef} (h : shapeErrors previous ts = none)
    {t : TableDef} (ht : t ∈ ts) : t.keyColumns ≠ [] := by
  induction ts generalizing previous with
  | nil => simp at ht
  | cons x rest ih =>
    rw [shapeErrors] at h
    split at h
    · simp at h
    · rename_i hx
      rcases mem_cons.mp ht with rfl | ht
      · intro hnil
        rw [TableDef.shapeError] at hx
        split_ifs at hx
        simp_all
      · exact ih h ht

theorem verifyTable_holds {main temp : Catalog} {t : TableDef} {stored derived : Rows}
    (hs : main.Holds t stored) (hd : temp.Holds t derived) :
    verifyTable B main temp t =
      .ok ⟨t.name,B.blake3 (rowsBytes stored) = B.blake3 (rowsBytes derived)⟩ := by
  rw [verifyTable,digestTable_holds hs,digestTable_holds hd]
  rfl

theorem verifyAgainstReplay_holds {db main : Db} {temp : Catalog} {stored derived : TableDef → Rows}
    (hderive : deriveProjections B R db = .ok (main,temp))
    (h : ∀ t ∈ R.tables, main.catalog.Holds t (stored t) ∧ temp.Holds t (derived t) ∧
      Apart B (stored t) (derived t)) :
    ∃ report, verifyAgainstReplay B R db = .ok report ∧ report.appliedSeq = main.applied ∧
      report.headSeq = main.head ∧
      report.tables = R.tables.map (fun t => ⟨t.name,stored t = derived t⟩) := by
  have hmap : R.tables.mapM (verifyTable B main.catalog temp) =
      .ok (R.tables.map (fun t => ⟨t.name,stored t = derived t⟩)) := by
    have hkeys : ∀ t ∈ R.tables, t.keyColumns ≠ [] := fun t => keyColumns_ne_nil R.accepted
    revert h hkeys
    generalize R.tables = ts
    intro h hkeys
    induction ts with
    | nil => rfl
    | cons t rest ih =>
      obtain ⟨hs,hd,hash⟩ := h t (by simp)
      have hagree := digests_agree (hkeys t (by simp)) hs hd hash
      rw [digestTable_holds hs,digestTable_holds hd] at hagree
      have hone : verifyTable B main.catalog temp t = .ok ⟨t.name,stored t = derived t⟩ := by
        rw [verifyTable_holds hs hd]
        simp only [Except.ok.injEq] at hagree
        simp [hagree]
      rw [mapM_cons,hone,ih (fun t ht => h t (by simp [ht])) (fun t ht => hkeys t (by simp [ht]))]
      rfl
  obtain ⟨⟨replayed,main',temp'⟩,hreplay,heq⟩ := ok_of_map hderive
  cases heq
  refine ⟨_,by rw [verifyAgainstReplay,hreplay]; exact congrArg (Except.map _) hmap,rfl,rfl,rfl⟩

end

/-- The rows of a table are read back from the bytes they are hashed as, so digests agree
on equal rows only, and a verify names every table that differs in a cell, a row or the
order of rows. -/
theorem verify_sees_every_row (B : Backend) :
    (∀ columns, 0 < columns → ∀ rows rows' : List (List ValueRef),
      (∀ row ∈ rows, PlainRow columns row) → (∀ row ∈ rows', PlainRow columns row) →
        foldTableRows rows = foldTableRows rows' → rows = rows') ∧
    (∀ (R : ProjectionRegistry) (t : TableDef) (c d : Catalog) (rows rows' : Rows), t ∈ R.tables →
      c.Holds t rows → d.Holds t rows' → Apart B rows rows' →
        (digestTable B t c = digestTable B t d ↔ rows = rows')) ∧
    ∀ (R : ProjectionRegistry) (db main : Db) (temp : Catalog) (stored derived : TableDef → Rows),
      deriveProjections B R db = .ok (main,temp) →
      (∀ t ∈ R.tables, main.catalog.Holds t (stored t) ∧ temp.Holds t (derived t) ∧
        Apart B (stored t) (derived t)) →
      ∃ report, verifyAgainstReplay B R db = .ok report ∧
        report.mismatchedTables =
          (R.tables.filter (fun t => stored t ≠ derived t)).map TableDef.name ∧
        (report.isClean ↔ main.applied = main.head ∧ ∀ t ∈ R.tables, stored t = derived t) := by
  refine ⟨fun columns hpos rows rows' h h' he => foldTableRows_inj hpos h h' he,?_,?_⟩
  · intro R t c d rows rows' ht hc hd hash
    exact digests_agree (keyColumns_ne_nil R.accepted ht) hc hd hash
  · intro R db main temp stored derived hderive h
    obtain ⟨report,hreport,happlied,hhead,htables⟩ := verifyAgainstReplay_holds hderive h
    refine ⟨report,hreport,?_,?_⟩
    · simp [VerifyReport.mismatchedTables,htables,filter_map,Function.comp_def]
    · simp [VerifyReport.isClean,htables,happlied,hhead]

def takenNotes : Rows := Table.ofRows [([.integer 1],[.blob [104]]),([.integer 2],[.blob [105]]),
  ([.integer 3],[.blob []])]

def alteredNotes : Rows := Table.ofRows [([.integer 1],[.blob [72]]),([.integer 2],[.blob [105]]),
  ([.integer 3],[.blob []])]

def alteredProject : Db :=
  notesProject.db.withCatalog
    { notesProject.db.catalog with
        tables := notesProject.db.catalog.tables.put "proj_notes" ⟨notesTable.shape,alteredNotes⟩ }

theorem verify_sees_every_row_notes :
    ∃ report, verifyAgainstReplay plainBackend notes alteredProject = .ok report ∧
      report.mismatchedTables = ["proj_notes"] := by
  obtain ⟨report,hreport,hmismatched,-⟩ := (verify_sees_every_row plainBackend).2.2 notes
    alteredProject alteredProject notesProject.db.catalog (fun _ => alteredNotes) (fun _ => takenNotes)
    (by decide) (by
      intro t ht
      obtain rfl : t = notesTable := by simpa [ProjectionRegistry.tables,notes] using ht
      refine ⟨⟨by decide,by decide,by decide,?_⟩,⟨by decide,by decide,by decide,?_⟩,?_⟩
      · decide
      · decide
      · intro h
        exact absurd h (by decide +kernel))
  refine ⟨report,hreport,?_⟩
  rw [hmismatched]
  decide +kernel

end ProjectOS.Log
