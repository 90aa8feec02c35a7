import ProjectOS.Log.Verify

/-! Every way to the projection tables is one replay of the log: batches that were
appended, a project opened again, a rebuild, a snapshot and the events behind it. -/

namespace ProjectOS.Log
open Lib Domain List

namespace Sqlite
variable (S : Sqlite)

/-- What the cell reads as is kept as the same cell when it is bound again. -/
def Stays (kind : ColumnKind) (cell : Cell) : Prop :=
  ∀ v, cell.read = some v → S.affinity kind v = cell

/-- SQLite leaves a value alone that it has kept in a column of the kind before. -/
structure KeepsValues : Prop where
  bound : ∀ kind v, S.Stays kind (S.affinity kind v)
  added : ∀ kind cell delta, S.Stays kind (S.add kind cell delta)
  null : ∀ kind, S.Stays kind .null

def Stay (columns : List ColumnDef) (cells : List Cell) : Prop :=
  List.Forall₂ (fun c cell => S.Stays c.kind cell) columns cells

/-- A row that is read back from its table as it was written. -/
structure RowStays (t : TableDef) (key values : List Cell) : Prop where
  keys : S.Stay t.keyColumns key
  kept : S.Stay t.valueColumns values
  present : Cell.null ∉ key

def RowsStay (t : TableDef) (rows : Rows) : Prop :=
  ∀ key values, rows.get? key = some values → S.RowStays t key values

variable {S} {t : TableDef} {rows : Rows} {columns : List ColumnDef} {cells key vals : List Cell}

theorem RowsStay.put (h : S.RowsStay t rows) (hrow : S.RowStays t key vals) :
    S.RowsStay t (rows.put key vals) := by
  intro k v hk
  rw [Table.get?_put] at hk
  split_ifs at hk with heq
  · cases hk
    exact heq ▸ hrow
  · exact h k v hk

theorem stay_fit (hS : S.KeepsValues) {values : List SqlValue}
    (h : values.length = columns.length) : S.Stay columns (S.fit columns values) := by
  induction columns generalizing values with
  | nil =>
    rw [length_eq_zero_iff.mp h]
    exact .nil
  | cons c columns ih =>
    cases values with
    | nil => cases h
    | cons v values => exact .cons (hS.bound c.kind v) (ih (Nat.succ.inj h))

variable {sets : List (String × (ColumnKind → Cell → Cell))}

theorem stay_assign (hsets : ∀ set ∈ sets, ∀ kind cell, S.Stays kind (set.2 kind cell))
    (h : S.Stay columns cells) : S.Stay columns (assign columns sets cells) := by
  induction h with
  | nil => exact .nil
  | cons hcell _ ih =>
    refine .cons ?_ ih
    dsimp only
    split
    · rename_i set hset
      exact hsets set (mem_filter.mp (mem_of_getLast? hset)).1 _ _
    · exact hcell

theorem stay_update (h : S.RowsStay t rows)
    (hsets : ∀ set ∈ sets, ∀ kind cell, S.Stays kind (set.2 kind cell)) (key : List SqlValue)
    (guard : List Cell → Bool) : S.RowsStay t (S.updateRow t rows key guard sets).2 := by
  rw [updateRow]
  split
  · exact h
  · rename_i row hrow
    have hold := h _ _ hrow
    split_ifs
    · exact h.put ⟨hold.keys,stay_assign hsets hold.kept,hold.present⟩
    · exact h

theorem values_stay (hS : S.KeepsValues) (assignments : List (String × SqlValue)) :
    ∀ set ∈ S.values assignments, ∀ kind cell, S.Stays kind (set.2 kind cell) := by
  intro set hset kind cell
  obtain ⟨a,-,rfl⟩ := mem_map.mp hset
  exact hS.bound kind a.2

theorem sums_stay (hS : S.KeepsValues) (deltas : List (String × Int)) :
    ∀ set ∈ S.sums deltas, ∀ kind cell, S.Stays kind (set.2 kind cell) := by
  intro set hset kind cell
  obtain ⟨d,-,rfl⟩ := mem_map.mp hset
  exact hS.added kind cell d.2

theorem keyOf_ok {key : List SqlValue} {k : List Cell} (h : S.keyOf t key = .ok k) :
    k = S.fit t.keyColumns key ∧ Cell.null ∉ k := by
  rw [keyOf] at h
  split_ifs at h with hnull
  cases h
  exact ⟨rfl,hnull⟩

theorem requireArity_ok {what : String} {got expected : Nat}
    (h : t.requireArity what got expected = .ok ()) : got = expected := by
  rw [TableDef.requireArity] at h
  split_ifs at h with heq
  exact heq

theorem statement_stay (hS : S.KeepsValues) (h : S.RowsStay t rows) {w : RowWrite}
    {done : Nat × Rows} (hcheck : t.checkWrite w = .ok ())
    (hrun : S.statement t rows w = .ok done) : S.RowsStay t done.2 := by
  have hrow : ∀ {key values k}, t.requireArity "key" key.length t.keyColumns.length = .ok () →
      t.requireArity "values" values.length t.valueColumns.length = .ok () →
      S.keyOf t key = .ok k → S.RowStays t k (S.fit t.valueColumns values) := by
    intro key values k hkey hvalues hk
    obtain ⟨rfl,hnull⟩ := keyOf_ok hk
    exact ⟨stay_fit hS (requireArity_ok hkey),stay_fit hS (requireArity_ok hvalues),hnull⟩
  cases w with
  | insert key values =>
    obtain ⟨_,hkey,hvalues⟩ := ok_of_bind hcheck
    obtain ⟨k,hk,hrest⟩ := ok_of_bind hrun
    split at hrest
    · cases hrest
    · cases hrest
      exact h.put (hrow hkey hvalues hk)
  | upsert key values =>
    obtain ⟨_,hkey,hvalues⟩ := ok_of_bind hcheck
    obtain ⟨k,hk,hrest⟩ := ok_of_bind hrun
    cases hrest
    exact h.put (hrow hkey hvalues hk)
  | update key assignments | updateOne key assignments | updateOneWhenNull key _ assignments =>
    cases hrun
    exact stay_update h (values_stay hS assignments) key _
  | incrementOne key column delta =>
    cases hrun
    exact stay_update h (sums_stay hS [(column,delta)]) key _
  | incrementManyOne key deltas =>
    cases hrun
    exact stay_update h (sums_stay hS deltas) key _
  | increment key column delta =>
    obtain ⟨_,hkey,_⟩ := ok_of_bind hcheck
    obtain ⟨k,hk,hrest⟩ := ok_of_bind hrun
    split at hrest
    · rename_i row hget
      have hold := h _ _ hget
      cases hrest
      exact h.put ⟨hold.keys,stay_assign (sums_stay hS [(column,delta)]) hold.kept,hold.present⟩
    · cases hrest
      obtain ⟨rfl,hnull⟩ := keyOf_ok hk
      refine h.put ⟨stay_fit hS (requireArity_ok hkey),?_,hnull⟩
      rw [Stay,forall₂_map_right_iff]
      refine forall₂_same.mpr fun c _ => ?_
      split_ifs
      · exact hS.bound c.kind _
      · exact hS.null c.kind
  | delete key =>
    cases hrun
    intro k v hk
    rw [Table.get?_erase] at hk
    split_ifs at hk
    exact h k v hk

theorem fit_read (h : S.Stay columns cells) {vals : List SqlValue}
    (hread : cells.mapM Cell.read = some vals) :
    vals.length = columns.length ∧ S.fit columns vals = cells := by
  induction h generalizing vals with
  | nil =>
    cases hread
    exact ⟨rfl,rfl⟩
  | cons hcell _ ih =>
    rw [mapM_cons] at hread
    obtain ⟨v,hv,hread⟩ := Option.bind_eq_some_iff.mp hread
    obtain ⟨vs,hvs,hread⟩ := Option.bind_eq_some_iff.mp hread
    cases hread
    exact ⟨congrArg Nat.succ (ih hvs).1,congrArg₂ List.cons (hcell v hv) (ih hvs).2⟩

end Sqlite

variable {B : Backend} {R : ProjectionRegistry} {t : TableDef} {fresh c d : Catalog}

theorem loadRow_stays {rows : Rows} {k v : List Cell} {row : List SqlValue}
    (hget : c.tables.get? t.name = some ⟨t.shape,rows⟩) (h : B.sqlite.RowStays t k v)
    (hread : (k ++ v).mapM Cell.read = some row) (hlast : ∀ r ∈ rows.rows, r.1 < k) :
    row.length = t.columns.length ∧
      Db.loadRow B t row c = .ok { c with tables := c.tables.put t.name ⟨t.shape,rows.put k v⟩ } := by
  rw [mapM_append] at hread
  obtain ⟨key,hkey,hread⟩ := Option.bind_eq_some_iff.mp hread
  obtain ⟨values,hvalues,hread⟩ := Option.bind_eq_some_iff.mp hread
  cases hread
  obtain ⟨hlen,hk⟩ := Sqlite.fit_read h.keys hkey
  obtain ⟨hlen',hv⟩ := Sqlite.fit_read h.kept hvalues
  have hfree : rows.get? k = none := by
    refine Option.eq_none_iff_forall_ne_some.mpr fun w hw => ?_
    exact absurd (hlast _ ((Table.mem_rows rows).mpr hw)) (lt_irrefl k)
  refine ⟨by rw [length_append,hlen,hlen',TableDef.columns,length_append],?_⟩
  rw [Db.loadRow,hget]
  simp only [if_true,← hlen,take_left',drop_left']
  rw [Sqlite.insertRow,Sqlite.keyOf,hk,hv,if_neg h.present]
  simp only [Except.bind,hfree]
  rfl

theorem loadRows_stay {rows target : Rows} {rest : List (List Cell × List Cell)}
    {vals : List (List SqlValue)} (hget : c.tables.get? t.name = some ⟨t.shape,rows⟩)
    (htarget : target.rows = rows.rows ++ rest) (h : B.sqlite.RowsStay t target)
    (hread : (rest.map fun r => r.1 ++ r.2).mapM (fun row => row.mapM Cell.read) = some vals) :
    ∃ d, vals.foldlM (fun c row =>
        if row.length ≠ t.columns.length then .error (badSnapshotRow t row)
        else sqlFails "restore snapshot row" (Db.loadRow B t row c)) c = .ok d ∧
      d.indexes = c.indexes ∧
      ∀ n, d.tables.get? n = if n = t.name then some ⟨t.shape,target⟩ else c.tables.get? n := by
  induction rest generalizing c rows vals with
  | nil =>
    cases hread
    rw [append_nil] at htarget
    refine ⟨c,rfl,rfl,fun n => ?_⟩
    split_ifs with hn
    · rw [hn,hget,Table.ext_rows htarget]
    · rfl
  | cons r rest ih =>
    rw [map_cons,mapM_cons] at hread
    obtain ⟨row,hrow,hread⟩ := Option.bind_eq_some_iff.mp hread
    obtain ⟨more,hmore,hread⟩ := Option.bind_eq_some_iff.mp hread
    cases hread
    have hsorted := target.sorted
    rw [htarget] at hsorted
    have hlast : ∀ x ∈ rows.rows, x.1 < r.1 := fun x hx =>
      (pairwise_append.mp hsorted).2.2 x hx r mem_cons_self
    have hmem : (r.1,r.2) ∈ target.rows := by
      rw [htarget]
      exact mem_append_right _ mem_cons_self
    obtain ⟨hlen,hload⟩ := loadRow_stays hget (h _ _ ((Table.mem_rows target).mp hmem)) hrow hlast
    obtain ⟨d,hd,hindexes,htables⟩ := ih (c := { c with
        tables := c.tables.put t.name ⟨t.shape,rows.put r.1 r.2⟩ })
      (Table.get?_put_self _ _ _)
      (by rw [htarget,Table.put_end rows r.2 hlast,append_assoc,singleton_append]) hmore
    refine ⟨d,?_,hindexes,fun n => ?_⟩
    · rw [foldlM_cons,if_neg (not_not.mpr hlen),hload]
      exact hd
    · rw [htables n]
      split_ifs with hn
      · rfl
      · exact Table.get?_put_ne _ _ hn

/-- The rows of every registered table stay what they are when they are bound again. -/
def TablesStay (B : Backend) (R : ProjectionRegistry) (c : Catalog) : Prop :=
  ∀ t ∈ R.tables, ∀ stored, c.tables.get? t.name = some stored → B.sqlite.RowsStay t stored.rows

variable (hfresh : R.ensure Catalog.empty = .ok fresh)
include hfresh

theorem outlined_table (h : Outlined fresh c) (ht : t ∈ R.tables) :
    ∃ rows, c.tables.get? t.name = some ⟨t.shape,rows⟩ := by
  have hget := h.get? t.name
  rw [fresh_table hfresh ht] at hget
  obtain ⟨⟨shape,rows⟩,hc,hshape⟩ := Option.map_eq_some_iff.mp hget
  exact ⟨rows,by rw [hc,← show shape = t.shape from hshape]⟩

variable {es : List Event}

theorem replayed_stay (hS : B.sqlite.KeepsValues)
    (h : es.foldlM (R.applyTo B) fresh = .ok c) : Outlined fresh c ∧ TablesStay B R c := by
  refine foldlM_invariant (P := fun c => Outlined fresh c ∧ TablesStay B R c) ?_ ?_ h
  · intro c e d hc he
    refine applyTo_keeps (P := fun c => Outlined fresh c ∧ TablesStay B R c) ?_ hc he
    rintro p hp w c c' ⟨ho,hstay⟩ hw
    have ht : p.table ∈ R.tables := mem_map_of_mem hp
    obtain ⟨rows,hrows⟩ := outlined_table hfresh ho ht
    obtain ⟨stored,done,hget,hcheck,hrun,rfl⟩ := executeWrite_ok hw
    obtain rfl := Option.some.inj (hrows.symm.trans hget)
    rw [if_pos rfl] at hrun
    refine ⟨ho.with_rows hget done.2,fun u hu stored hstored => ?_⟩
    rw [Table.get?_put] at hstored
    split_ifs at hstored with hname
    · obtain rfl := tables_inj hu ht hname
      cases hstored
      exact Sqlite.statement_stay hS (hstay _ hu _ hget) hcheck hrun
    · exact hstay u hu stored hstored
  · refine ⟨Outlined.refl fresh,fun t ht stored hstored => ?_⟩
    rw [fresh_table hfresh ht] at hstored
    cases hstored
    exact fun key values hget => absurd hget (by simp)

variable {body : List TableSnapshot} {ts : List TableDef}

theorem restoreTables_stay (ho : Outlined fresh c) (hstay : TablesStay B R c)
    (hts : ∀ t ∈ ts, t ∈ R.tables) (hbody : ts.mapM (readTable B c) = .ok body)
    (hd : ∀ t ∈ ts, ∃ rows, d.tables.get? t.name = some ⟨t.shape,rows⟩) :
    ∃ d', (ts.zip body).foldlM (fun c pair => restoreInto B pair.1 pair.2 c) d = .ok d' ∧
      d'.indexes = d.indexes ∧ ∀ n, d'.tables.get? n =
        if n ∈ ts.map TableDef.name then c.tables.get? n else d.tables.get? n := by
  induction ts generalizing body d with
  | nil => exact ⟨d,rfl,rfl,fun _ => by simp⟩
  | cons t ts ih =>
    rw [mapM_cons] at hbody
    obtain ⟨snapshot,hread,hbody⟩ := ok_of_bind hbody
    obtain ⟨more,hmore,hbody⟩ := ok_of_bind hbody
    cases hbody
    have ht := hts t mem_cons_self
    obtain ⟨rows,hrows⟩ := outlined_table hfresh ho ht
    obtain ⟨old,hold⟩ := hd t mem_cons_self
    rw [readTable,Db.tableRows,hrows] at hread
    simp only [if_true,sqlFails,Except.bind,readRows] at hread
    split at hread
    · rename_i vals hvals
      cases hread
      have hall : rows.rows = (Table.empty : Rows).rows ++ rows.rows := rfl
      obtain ⟨d₁,hload,hindexes,htables⟩ := loadRows_stay
        (c := { d with tables := d.tables.put t.name ⟨t.shape,Table.empty⟩ })
        (Table.get?_put_self _ _ _) hall (hstay t ht _ hrows) hvals
      have hone : restoreInto B t ⟨t.name,vals⟩ d = .ok d₁ := by
        rw [restoreInto,Db.clearTable,hold]
        exact hload
      have hget : ∀ n, d₁.tables.get? n =
          if n = t.name then c.tables.get? n else d.tables.get? n := by
        intro n
        rw [htables n]
        split_ifs with hn
        · rw [hn,hrows]
        · exact Table.get?_put_ne _ _ hn
      obtain ⟨d',hd',hindexes',htables'⟩ := ih (fun u hu => hts u (mem_cons_of_mem _ hu)) hmore
        (d := d₁) fun u hu => by
          rw [hget]
          split_ifs
          · exact outlined_table hfresh ho (hts u (mem_cons_of_mem _ hu))
          · exact hd u (mem_cons_of_mem _ hu)
      refine ⟨d',?_,hindexes'.trans hindexes,fun n => ?_⟩
      · rw [zip_cons_cons,foldlM_cons,hone]
        exact hd'
      · rw [htables',hget]
        by_cases hn : n = t.name
        · simp [hn]
        · simp [hn]
    · cases hread

theorem restoreAll_replayed (hS : B.sqlite.KeepsValues) (h : es.foldlM (R.applyTo B) fresh = .ok c)
    (hbody : R.dump B c = .ok body) : R.restoreAll B body fresh = .ok c := by
  obtain ⟨ho,hstay⟩ := replayed_stay hfresh hS h
  obtain ⟨d,hd,hindexes,htables⟩ := restoreTables_stay hfresh ho hstay (fun _ ht => ht) hbody
    (d := fresh) fun t ht => ⟨_,fresh_table hfresh ht⟩
  have htables' : d.tables = c.tables := by
    refine Table.ext_get? fun n => ?_
    rw [htables]
    split_ifs with hn
    · rfl
    · have hnone : fresh.tables.get? n = none := by
        refine Option.eq_none_iff_forall_ne_some.mpr fun stored hstored => ?_
        exact hn ((fresh_owned hfresh).tables n stored hstored)
      rw [hnone,(ho.none_iff n).mpr hnone]
  rw [ProjectionRegistry.restoreAll,hd]
  exact congrArg Except.ok (congrArg₂ Catalog.mk htables' (hindexes.trans ho.indexes.symm))

omit hfresh

/-- Every snapshot of this registry is the replay of the events up to its own number. -/
def Snapped (B : Backend) (R : ProjectionRegistry) (fresh : Catalog) (log : List Event)
    (db : Db) : Prop :=
  ∀ seq s, db.snapshots.get? seq = some s → s.schemaDigest = R.schemaDigest B →
    ∃ (n : Nat) (c : Catalog), seq = n ∧ n ≤ log.length ∧
      (log.take n).foldlM (R.applyTo B) fresh = .ok c ∧ R.dump B c = .ok s.body

/-- The tables are the replay of the first `k` events, and so is each snapshot of its own. -/
structure Traced (B : Backend) (R : ProjectionRegistry) (fresh : Catalog) (log : List Event)
    (k : Nat) (db : Db) : Prop where
  here : (log.take k).foldlM (R.applyTo B) fresh = .ok db.catalog
  snapshots : Snapped B R fresh log db

variable {log : List Event} {k : Nat} {db db' : Db} {policy : SnapshotPolicy} {e : Event}

theorem Traced.follow (h : Traced B R fresh log k db) (he : log[k]? = some e) (hseq : e.seq = k+1)
    (hroom : (log.length : Int) ≤ i64Max) (hf : db.follow B R policy e = .ok db') :
    Traced B R fresh log (k+1) db' := by
  have hlt := (List.getElem?_eq_some_iff.mp he).1
  obtain ⟨c,hc,hafter⟩ := ok_of_bind hf
  have here : (log.take (k+1)).foldlM (R.applyTo B) fresh = .ok c := by
    rw [take_add_one,he,foldlM_append_eq,h.here]
    change ([e].foldlM (R.applyTo B) db.catalog) = _
    rw [foldlM_cons,hc]
    rfl
  unfold Db.snapshotAfter at hafter
  split at hafter
  · cases hafter
    exact ⟨here,h.snapshots⟩
  · split_ifs at hafter
    · obtain ⟨body,hbody,rfl⟩ := ok_of_map hafter
      refine ⟨here,fun seq s hs hdigest => ?_⟩
      have hput := mem_of_mem_drop ((Table.mem_rows _).mpr hs)
      rw [Table.mem_rows,Table.get?_put] at hput
      split_ifs at hput with hnow
      · cases hput
        exact ⟨k+1,c,by rw [hnow,hseq,integerU64_eq (by push_cast; omega)],hlt,here,hbody⟩
      · exact h.snapshots seq s hput hdigest
    · cases hafter
      exact ⟨here,h.snapshots⟩

theorem Traced.fold (hseqs : ∀ i e, log[i]? = some e → e.seq = i+1)
    (hroom : (log.length : Int) ≤ i64Max) (hes : log.drop k = es)
    (h : Traced B R fresh log k db) (hf : es.foldlM (Db.follow B R policy) db = .ok db') :
    Traced B R fresh log log.length db' := by
  induction es generalizing k db with
  | nil =>
    cases hf
    have hle := drop_eq_nil_iff.mp hes
    exact ⟨by rw [take_length,← h.here,take_of_length_le hle],h.snapshots⟩
  | cons e es ih =>
    rw [foldlM_cons] at hf
    obtain ⟨db₁,hone,hrest⟩ := ok_of_bind hf
    have he : log[k]? = some e := by
      rw [← List.head?_drop,hes]
      rfl
    refine ih ?_ (h.follow he (hseqs k e he) hroom hone) hrest
    rw [← drop_drop,hes]
    rfl

theorem Traced.grown (hsound : Sound db) {tsMs : Nat} (hclock : (tsMs : Int) ≤ i64Max)
    (hroom : (db.events.rows.length : Int) < i64Max) (request : AppendRequest)
    (h : Traced B R fresh db.log db.log.length db) :
    (db.grown tsMs request).log = db.log ++ [db.nextEvent tsMs request] ∧
      Traced B R fresh (db.log ++ [db.nextEvent tsMs request]) db.log.length
        (db.grown tsMs request) := by
  have hlamport : (((deviceRows db.events request.device).length+1 : Nat) : Int) ≤ i64Max := by
    have hle := deviceRows_le db.events request.device
    push_cast
    omega
  have hseq : ((db.events.rows.length : Int)+1).toNat = db.events.rows.length+1 := by omega
  have hevent : storedEvent ((db.events.rows.length : Int)+1)
      (request.row ((deviceRows db.events request.device).length+1) tsMs) =
        db.nextEvent tsMs request := by
    rw [storedEvent,AppendRequest.row,integerU64_eq hclock,integerU64_eq hlamport,hseq]
    rfl
  constructor
  · rw [Db.log,grown_rows hsound,storedEvents,map_append,map_singleton,hevent]
    rfl
  · have here := h.here
    rw [take_length] at here
    refine ⟨by rw [take_left]; exact here,fun seq s hs hdigest => ?_⟩
    obtain ⟨n,c,hn,hle,hfold,hbody⟩ := h.snapshots seq s hs hdigest
    refine ⟨n,c,hn,?_,by rwa [take_append_of_le_length hle],hbody⟩
    rw [length_append]
    omega

def Replayed (B : Backend) (R : ProjectionRegistry) (fresh : Catalog) (db : Db) : Prop :=
  Traced B R fresh db.log db.log.length db

theorem Replayed.fold {db₀ : Db} (hsound : Sound db) (hevents : db₀.events = db.events)
    (h : Traced B R fresh db.log k db₀)
    (hf : (db.log.drop k).foldlM (Db.follow B R policy) db₀ = .ok db') :
    Replayed B R fresh db' := by
  have hlog : db'.log = db.log := by rw [Db.log,(follow_fold R hf).1,hevents,Db.log]
  rw [Replayed,hlog]
  exact h.fold (fun i e he => hsound.contiguous.log_seq he)
    (by rw [log_length]; exact hsound.contiguous.room) rfl hf

theorem replayed_rebased (hsound : Sound db) (h : Snapped B R fresh db.log db)
    (hf : (db.log.foldlM (Db.follow B R policy) (db.rebased B R fresh)).map
      (fun db' => db'.withDigest (R.schemaDigest B)) = .ok db') : Replayed B R fresh db' := by
  obtain ⟨db₁,hfold,rfl⟩ := ok_of_map hf
  have hbase : Traced B R fresh db.log 0 (db.rebased B R fresh) := by
    refine ⟨rfl,fun seq s hs hdigest => ?_⟩
    rw [Db.rebased,Table.get?_keep] at hs
    exact h seq s (Option.filter_eq_some_iff.mp hs).1 hdigest
  have hevents : (db.rebased B R fresh).events = db.events := rfl
  have hdone : Replayed B R fresh db₁ := Replayed.fold hsound hevents hbase hfold
  exact ⟨hdone.here,hdone.snapshots⟩

variable (cfg : LogConfig)

theorem maintained_replayed (hS : B.sqlite.KeepsValues)
    (hfresh : R.ensure Catalog.empty = .ok fresh) :
    Maintained B R cfg (fun tsMs => (tsMs : Int) ≤ i64Max)
      (fun db => Built B R fresh db ∧ Replayed B R fresh db) where
  appends := by
    intro tsMs db db' request hclock hsound h hext
    refine ⟨(maintained_built cfg hfresh).appends tsMs db db' request trivial hsound h.1 hext,?_⟩
    rw [extend_eq hsound] at hext
    split_ifs at hext with hroom
    obtain ⟨hlog,htraced⟩ := Traced.grown hsound hclock hroom request h.2
    have hlen := log_length db
    have hnext := htraced.follow (by simp) (by rw [Db.nextEvent,hlen]; rfl)
      (by rw [length_append,hlen,length_singleton]; push_cast; omega) hext
    have hlog' : db'.log = db.log ++ [db.nextEvent tsMs request] := by
      rw [← hlog,Db.log,(follow_log R hext).1,Db.log]
    rw [Replayed,hlog',length_append]
    exact hnext
  opens := by
    intro db db' hsound h he
    refine ⟨built_open hfresh hsound h.1 he,?_⟩
    rw [effect_openProjections R _ hsound.contiguous hsound.readable,
      ensure_outlined hfresh h.1.outlined] at he
    obtain ⟨c,hc,he⟩ := ok_of_bind he
    cases hc
    rw [if_neg (not_not.mpr h.1.digest)] at he
    split_ifs at he
    have hhere : Traced B R fresh db.log db.applied (db.withCatalog db.catalog) := by
      rw [hsound.applied_eq,← log_length]
      exact ⟨h.2.here,h.2.snapshots⟩
    exact Replayed.fold hsound rfl hhere he
  rebuilds := by
    intro db db' hsound h he
    refine ⟨built_rebuildProjections hfresh hsound h.1.outlined he,?_⟩
    rw [effect_rebuildProjections R _ hsound.contiguous hsound.readable,
      recreate_owned (outlined_owned hfresh h.1.outlined),hfresh] at he
    exact replayed_rebased hsound h.2.snapshots he
  restores := by
    intro db db' hsound h he
    refine ⟨built_restore hfresh hsound h.1.outlined he,?_⟩
    rw [effect_restore R hsound.contiguous hsound.readable,ensure_outlined hfresh h.1.outlined] at he
    obtain ⟨c,hc,he⟩ := ok_of_bind he
    cases hc
    rw [recreate_owned (outlined_owned hfresh h.1.outlined),hfresh] at he
    obtain ⟨c,hc,he⟩ := ok_of_bind he
    cases hc
    obtain ⟨start,hstart,he⟩ := ok_of_bind he
    obtain ⟨db₁,hfold,rfl⟩ := ok_of_map he
    have htraced : start.2.events = db.events ∧ Traced B R fresh db.log start.1 start.2 := by
      unfold Db.restored at hstart
      split at hstart
      · cases hstart
        exact ⟨rfl,rfl,h.2.snapshots⟩
      · rename_i s hs
        obtain ⟨c,hall,rfl⟩ := ok_of_map hstart
        obtain ⟨hlatest,-⟩ := Option.filter_eq_some_iff.mp hs
        obtain ⟨r,hr,rfl⟩ := Option.map_eq_some_iff.mp hlatest
        obtain ⟨hmem,hboth⟩ := mem_filter.mp (mem_of_getLast? hr)
        obtain ⟨n,c',hn,-,hreplay,hbody⟩ := h.2.snapshots r.1 r.2
          ((Table.mem_rows _).mp hmem) (of_decide_eq_true hboth).1
        have hc := restoreAll_replayed hfresh hS hreplay hbody
        obtain rfl := Except.ok.inj (hall.symm.trans hc)
        refine ⟨rfl,?_,h.2.snapshots⟩
        rw [hn]
        exact hreplay
    have hdone : Replayed B R fresh db₁ := Replayed.fold hsound htraced.1 htraced.2 hfold
    exact ⟨hdone.here,hdone.snapshots⟩

variable {ms : List Move}

theorem run_replayed (hS : B.sqlite.KeepsValues)
    (hopen : (ProjectLog.openLog B R cfg .calm Db.empty).1 = .ok ())
    (hclock : ∀ m ∈ ms, m.clockOk fun tsMs => (tsMs : Int) ≤ i64Max) :
    ∃ fresh, R.ensure Catalog.empty = .ok fresh ∧
      Built B R fresh ((Project.fresh B R cfg).run B R cfg ms).db ∧
      Replayed B R fresh ((Project.fresh B R cfg).run B R cfg ms).db := by
  obtain ⟨fresh,hfresh,hdb⟩ := fresh_rebuilt cfg hopen
  have hnone : Snapped B R fresh Db.empty.log Db.empty := fun seq s hs => absurd hs (by simp [Db.empty])
  have hstart : Built B R fresh (Project.fresh B R cfg).db ∧
      Replayed B R fresh (Project.fresh B R cfg).db :=
    ⟨built_rebuild _ Db.empty (Outlined.refl fresh) hdb,replayed_rebased sound_empty hnone hdb⟩
  exact ⟨fresh,hfresh,(maintained_replayed cfg hS hfresh).run hclock (fresh_sound B R cfg) hstart⟩

theorem Replayed.fold_log (h : Replayed B R fresh db) :
    db.log.foldlM (R.applyTo B) fresh = .ok db.catalog := by
  have hhere := h.here
  rwa [take_length] at hhere

theorem derive_replayed (hfresh : R.ensure Catalog.empty = .ok fresh) (hsound : Sound db)
    (hbuilt : Built B R fresh db) (h : Replayed B R fresh db) :
    deriveReplay B R db = .ok (db.log.length,db,db.catalog) := by
  have howned : Owned R.names Catalog.empty := ⟨by simp [Catalog.empty],by simp [Catalog.empty]⟩
  have hcarry : R.carry B none = R.applyTo B := by
    funext c e
    cases hc : R.applyTo B c e <;> simp [ProjectionRegistry.carry,hc,Except.bind]
  have hfold := follow_fold_catalog (B := B) R none db.log (db.withCatalog fresh)
  rw [hcarry,show (db.withCatalog fresh).catalog = fresh from rfl,h.fold_log] at hfold
  obtain ⟨temp,htemp,hcatalog⟩ := ok_of_map hfold
  have hrange := execute_replayRange (B := B) R none
    (show Contiguous (db.withCatalog fresh).events from hsound.contiguous) hsound.readable 0
  rw [deriveReplay,effect_ensureTables,ensure_outlined hfresh hbuilt.outlined]
  simp only [Except.map,Except.bind,effect_recreateTables,Db.withCatalog_catalog,
    recreate_owned howned,hfresh]
  have htail : (db.withCatalog fresh).log.drop 0 = db.log := rfl
  rw [htail,htemp] at hrange
  refine (congrArg (Except.map _) hrange).trans ?_
  rw [log_length]
  exact congrArg (fun c => Except.ok (db.events.rows.length-0,db,c)) hcatalog

theorem verify_same
    (h : ∀ t ∈ ts, ∃ rows, c.tables.get? t.name = some ⟨t.shape,rows⟩) :
    ts.mapM (verifyTable B c c) = .ok (ts.map fun t => ⟨t.name,true⟩) := by
  induction ts with
  | nil => rfl
  | cons t ts ih =>
    obtain ⟨rows,hrows⟩ := h t mem_cons_self
    have hone : verifyTable B c c t = .ok ⟨t.name,true⟩ := by
      simp [verifyTable,digestTable,Db.tableRows,hrows,sqlFails,Except.map,Except.bind]
    rw [mapM_cons,hone,ih fun u hu => h u (mem_cons_of_mem _ hu)]
    rfl

/-- At every point of every run of appends, reopenings, rebuilds and restores by any
handles, whatever fails on the way, the tables are the replay of the log from its first
event. -/
theorem runs_replay_log (hS : B.sqlite.KeepsValues)
    (hopen : (ProjectLog.openLog B R cfg .calm Db.empty).1 = .ok ()) {ms : List Move}
    (hclock : ∀ m ∈ ms, m.clockOk fun tsMs => (tsMs : Int) ≤ i64Max) :
    R.replay B ((Project.fresh B R cfg).run B R cfg ms).db.log =
      .ok ((Project.fresh B R cfg).run B R cfg ms).db.catalog := by
  obtain ⟨fresh,hfresh,-,hreplayed⟩ := run_replayed cfg hS hopen hclock
  rw [ProjectionRegistry.replay,hfresh]
  exact hreplayed.fold_log

/-- A verify finds nothing wrong with the project of any run, and replays the whole log. -/
theorem runs_verify_clean (hS : B.sqlite.KeepsValues)
    (hopen : (ProjectLog.openLog B R cfg .calm Db.empty).1 = .ok ())
    (hclock : ∀ m ∈ ms, m.clockOk fun tsMs => (tsMs : Int) ≤ i64Max) :
    ∃ report, verifyAgainstReplay B R ((Project.fresh B R cfg).run B R cfg ms).db = .ok report ∧
      report.isClean = true ∧ report.tables.map TableVerify.name = R.names ∧
      report.eventsReplayed = ((Project.fresh B R cfg).run B R cfg ms).db.log.length := by
  obtain ⟨fresh,hfresh,hbuilt,hreplayed⟩ := run_replayed cfg hS hopen hclock
  have hsound : Sound ((Project.fresh B R cfg).run B R cfg ms).db :=
    run_sound (fresh_sound B R cfg) ms
  have htables := verify_same (B := B) fun t ht => outlined_table hfresh hbuilt.outlined ht
  rw [verifyAgainstReplay,derive_replayed hfresh hsound hbuilt hreplayed]
  simp only [Except.bind,htables,Except.map]
  refine ⟨_,rfl,?_,?_,rfl⟩
  · simp [VerifyReport.isClean,hsound.current]
  · simp [ProjectionRegistry.names,Function.comp_def]

theorem plain_keeps : plainBackend.sqlite.KeepsValues := by
  have hall : ∀ kind cell, plainBackend.sqlite.Stays kind cell := by
    rintro kind (n | _ | s | b | _) v hv <;> cases hv <;> rfl
  exact ⟨fun _ _ => hall _ _,fun _ _ _ => hall _ _,fun _ => hall _ _⟩

theorem notes_replay_log : notes.replay plainBackend notesProject.db.log = .ok notesProject.db.catalog :=
  runs_replay_log smallConfig plain_keeps (by decide) (by simp [noteMoves,Move.clockOk,i64Max])

theorem notes_verify_clean : ∃ report,
    verifyAgainstReplay plainBackend notes notesProject.db = .ok report ∧
      report.isClean = true ∧ report.tables.map TableVerify.name = notes.names ∧
      report.eventsReplayed = notesProject.db.log.length :=
  runs_verify_clean smallConfig plain_keeps (by decide) (by simp [noteMoves,Move.clockOk,i64Max])

theorem maintained_grows (B : Backend) (R : ProjectionRegistry) (db₀ : Db) :
    Maintained B R cfg (fun _ => True) (fun db => db₀.events.rows <+: db.events.rows) where
  appends := by
    intro tsMs db db' request _ hsound h hext
    rw [(extend_sound hsound hext).2,grown_rows hsound]
    exact h.trans (prefix_append _ _)
  opens := fun _ _ hsound h he => by
    rwa [(openProjections_recovered R hsound.contiguous hsound.readable he).events]
  rebuilds := fun _ _ hsound h he => by
    rwa [(rebuildProjections_recovered R hsound.contiguous hsound.readable he).events]
  restores := fun _ _ hsound h he => by
    rwa [(restore_recovered R hsound.contiguous hsound.readable he).events]

/-- Of all conditional appends of a run that expect one head at most one goes through,
and nothing that comes after it changes or removes a row of the log. -/
theorem head_won_once (B : Backend) (R : ProjectionRegistry) {ms later : List Move} {p : Project}
    {handle head clock : Nat} {request : AppendRequest} {W : Weather} {seqs : List Nat}
    (hp : p = (Project.fresh B R cfg).run B R cfg ms)
    (h : ((Call.appendAtHead head request).run B R cfg clock W (p.log handle)).1 = .ok seqs) :
    let q := (p.step B R cfg ⟨handle,.call (.appendAtHead head request) clock,W⟩).run B R cfg later
    seqs = [head+1] ∧ p.db.events.rows <+: q.db.events.rows ∧
      ∀ handle clock request W, ∃ f,
        ((Call.appendAtHead head request).run B R cfg clock W (q.log handle)).1 = .error f := by
  have hsound : Sound p.db := hp ▸ run_sound (fresh_sound B R cfg) ms
  have hkeeps : KeepsLog B R cfg p := sound_keepsLog hsound
  obtain ⟨hseqs,added,hrows,hlen,-⟩ := hkeeps.taken handle _ clock W seqs h
  have hhead := hkeeps.expected handle clock W head request seqs h
  have hsize := head_eq hsound.contiguous
  have hroom := hsound.contiguous.room
  have hclock : ∀ m ∈ later, m.clockOk fun _ => True := by
    intro m _
    rw [Move.clockOk]
    split <;> trivial
  have hstep : Sound (p.step B R cfg ⟨handle,.call (.appendAtHead head request) clock,W⟩).db :=
    step_sound hsound
  have hgrown := (maintained_grows cfg B R _).run hclock hstep prefix_rfl
  have hgrown : p.db.events.rows ++ added <+: _ := hrows ▸ hgrown
  intro q
  refine ⟨?_,(prefix_append _ _).trans hgrown,fun handle' clock' request' W' => ?_⟩
  · rw [hseqs,hhead]
    simp only [Call.requests,seqsAfter]
    rw [satAdd64_one (by omega)]
  · have hlater : Sound q.db := run_sound hstep later
    cases hdone : ((Call.appendAtHead head request').run B R cfg clock' W' (q.log handle')).1 with
    | error f => exact ⟨f,rfl⟩
    | ok seqs' =>
      have hagain := (sound_keepsLog hlater).expected handle' clock' W' head request' seqs' hdone
      have hsize' := head_eq hlater.contiguous
      have hle : (p.db.events.rows ++ added).length ≤ q.db.events.rows.length := hgrown.length_le
      rw [length_append,hlen] at hle
      simp only [Call.requests,length_singleton] at hle
      omega

theorem head_won_once_notes : ∃ f, ((Call.appendAtHead 2 (noteRequest 2 [7])).run plainBackend notes
    smallConfig 700 .calm (notesProject.log 0)).1 = .error f :=
  (@head_won_once smallConfig plainBackend notes (noteMoves.take 1) [] _ 1 2 600 (noteRequest 1 [])
    .calm [3] rfl rfl).2.2 0 700 (noteRequest 2 [7]) .calm

end ProjectOS.Log
