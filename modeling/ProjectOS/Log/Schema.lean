import ProjectOS.Log.Recovery

namespace ProjectOS.Log
open Lib Domain List

abbrev Ddl := TableDef × Option IndexDef

def runDdl (c : Catalog) : Ddl → Except String Catalog
  | (t,none) => c.createTable t
  | (t,some i) => c.createIndex t i

def TableDef.ddl (t : TableDef) : List Ddl := (t,none) :: t.indexes.map (fun i => (t,some i))

def ProjectionRegistry.ddl (R : ProjectionRegistry) : List Ddl := R.tables.flatMap TableDef.ddl

theorem ensureTable_ddl (t : TableDef) (c : Catalog) : c.ensureTable t = t.ddl.foldlM runDdl c := by
  have hindexes : ∀ (is : List IndexDef) (c : Catalog),
      is.foldlM (fun c i => c.createIndex t i) c =
        (is.map (fun i => ((t,some i) : Ddl))).foldlM runDdl c := by
    intro is
    induction is with
    | nil => intro c; rfl
    | cons i rest ih =>
      intro c
      rw [map_cons,foldlM_cons,foldlM_cons]
      change (c.createIndex t i >>= _) = (c.createIndex t i >>= _)
      cases c.createIndex t i with
      | ok c' => exact ih c'
      | error e => rfl
  rw [Catalog.ensureTable,TableDef.ddl,foldlM_cons]
  change (c.createTable t).bind _ = (c.createTable t).bind _
  cases c.createTable t with
  | ok c' => exact hindexes t.indexes c'
  | error e => rfl

theorem ensureTables_ddl (ts : List TableDef) (c : Catalog) :
    Catalog.ensureTables ts c = (ts.flatMap TableDef.ddl).foldlM runDdl c := by
  induction ts generalizing c with
  | nil => rfl
  | cons t rest ih =>
    rw [flatMap_cons,foldlM_append_eq,← ensureTable_ddl,Catalog.ensureTables,foldlM_cons]
    change (c.ensureTable t).bind _ = (c.ensureTable t).bind _
    cases c.ensureTable t with
    | ok c' => exact ih c'
    | error e => rfl

/-- `d` is `c` with what only `e` has beside it. -/
structure Completed (c e d : Catalog) : Prop where
  tables : ∀ n, d.tables.get? n = (c.tables.get? n).or (e.tables.get? n)
  indexes : ∀ n, d.indexes.get? n = (c.indexes.get? n).or (e.indexes.get? n)

variable {c : Catalog} {e d c' e' d' : Catalog}

theorem Completed.unique (h : Completed c e d) (h' : Completed c e d') :
    d = d' := by
  have ht : d.tables = d'.tables := Table.ext_get? (fun n => (h.tables n).trans (h'.tables n).symm)
  have hi : d.indexes = d'.indexes :=
    Table.ext_get? (fun n => (h.indexes n).trans (h'.indexes n).symm)
  cases d
  cases d'
  simp_all

def StepFits (c e : Catalog) : Ddl → Prop
  | (t,none) =>
    c.tables.get? t.name = none → e.tables.get? t.name = none → c.indexes.get? t.name = none
  | (t,some i) =>
    c.tables.get? i.name = none ∧
      (c.indexes.get? i.name = none → e.indexes.get? i.name = none →
        ∀ stored, c.tables.get? t.name = some stored →
          ∀ column ∈ i.columns, column ∈ stored.shape.columnNames)

variable {t : TableDef}

theorem createTable_cases (h : c.createTable t = .ok c') :
    ((∃ stored, c.tables.get? t.name = some stored) ∧ c' = c) ∨
    (c.tables.get? t.name = none ∧ c.indexes.get? t.name = none ∧ t.columnNames.Nodup ∧
      c' = { c with tables := c.tables.put t.name ⟨t.shape,Table.empty⟩ }) := by
  rw [Catalog.createTable] at h
  split at h
  · rename_i stored hs
    exact Or.inl ⟨⟨stored,hs⟩,(Except.ok.inj h).symm⟩
  · rename_i hs
    split at h
    · exact absurd h (by simp)
    · rename_i hi
      split at h
      · rename_i hnodup
        exact Or.inr ⟨hs,hi,hnodup,(Except.ok.inj h).symm⟩
      · exact absurd h (by simp)

variable {i : IndexDef}

theorem createIndex_cases (h : c.createIndex t i = .ok c') :
    i.columns ≠ [] ∧ Catalog.reserved i.name = false ∧ i.name ∉ Catalog.logTables ∧
      c.tables.get? i.name = none ∧ ∃ stored, c.tables.get? t.name = some stored ∧
      (((∃ row, c.indexes.get? i.name = some row) ∧ c' = c) ∨
        (c.indexes.get? i.name = none ∧
          (∀ column ∈ i.columns, column ∈ stored.shape.columnNames) ∧
          c' = { c with indexes := c.indexes.put i.name ⟨t.name,i.columns⟩ })) := by
  rw [Catalog.createIndex] at h
  split at h
  · exact absurd h (by simp)
  rename_i hempty
  split at h
  · exact absurd h (by simp)
  rename_i hreserved
  split at h
  · exact absurd h (by simp)
  rename_i stored hstored
  split at h
  · exact absurd h (by simp)
  rename_i hname
  have hnone : c.tables.get? i.name = none := by simpa using (not_or.mp hname).2
  refine ⟨hempty,by simpa using hreserved,(not_or.mp hname).1,hnone,stored,hstored,?_⟩
  split at h
  · rename_i row hrow
    exact Or.inl ⟨⟨row,hrow⟩,(Except.ok.inj h).symm⟩
  · rename_i hrow
    split at h
    · exact absurd h (by simp)
    · rename_i hcolumns
      refine Or.inr ⟨hrow,?_,(Except.ok.inj h).symm⟩
      intro column hcolumn
      have hfind := List.find?_eq_none.mp hcolumns column hcolumn
      simpa using hfind

variable {stored : Stored}

theorem createTable_kept (h : c.tables.get? t.name = some stored) : c.createTable t = .ok c := by
  rw [Catalog.createTable,h]

theorem createTable_new (ht : c.tables.get? t.name = none) (hi : c.indexes.get? t.name = none)
    (hnodup : t.columnNames.Nodup) :
    c.createTable t = .ok { c with tables := c.tables.put t.name ⟨t.shape,Table.empty⟩ } := by
  rw [Catalog.createTable,ht,hi]
  exact if_pos hnodup

/-- The name of a new index is free, and its table is there. -/
structure IndexNamed (c : Catalog) (t : TableDef) (i : IndexDef) (stored : Stored) : Prop where
  columns : i.columns ≠ []
  reserved : Catalog.reserved i.name = false
  own : i.name ∉ Catalog.logTables
  name : c.tables.get? i.name = none
  table : c.tables.get? t.name = some stored

variable {row : StoredIndex}

theorem createIndex_kept (h : IndexNamed c t i stored)
    (hrow : c.indexes.get? i.name = some row) : c.createIndex t i = .ok c := by
  simp [Catalog.createIndex,h.columns,h.reserved,h.table,h.own,h.name,hrow]

theorem createIndex_new (h : IndexNamed c t i stored) (hrow : c.indexes.get? i.name = none)
    (hcolumns : ∀ column ∈ i.columns, column ∈ stored.shape.columnNames) :
    c.createIndex t i =
      .ok { c with indexes := c.indexes.put i.name ⟨t.name,i.columns⟩ } := by
  have hfind : i.columns.find? (fun column => !decide (column ∈ stored.shape.columnNames)) = none :=
    List.find?_eq_none.mpr (fun column hc => by simpa using hcolumns column hc)
  simp [Catalog.createIndex,h.columns,h.reserved,h.table,h.own,h.name,hrow,hfind]

variable {n : String}

section
variable (h : Completed c e d)
include h

theorem Completed.kept_table
    (hc : c.tables.get? n = some stored) (stored' : Stored) :
    Completed c { e with tables := e.tables.put n stored' } d := by
  refine ⟨?_,h.indexes⟩
  intro m
  by_cases hm : m = n
  · subst hm
    rw [h.tables,hc]
    rfl
  · rw [h.tables,Table.get?_put_ne _ _ hm]

theorem Completed.put_table (hc : c.tables.get? n = none) (stored : Stored) :
    Completed c { e with tables := e.tables.put n stored }
      { d with tables := d.tables.put n stored } := by
  refine ⟨?_,h.indexes⟩
  intro m
  rw [Table.get?_put,Table.get?_put]
  split
  · rename_i hm
    rw [hm,hc]
    rfl
  · exact h.tables m

theorem Completed.kept_index
    (hc : c.indexes.get? n = some row) (row' : StoredIndex) :
    Completed c { e with indexes := e.indexes.put n row' } d := by
  refine ⟨h.tables,?_⟩
  intro m
  by_cases hm : m = n
  · subst hm
    rw [h.indexes,hc]
    rfl
  · rw [h.indexes,Table.get?_put_ne _ _ hm]

theorem Completed.put_index (hc : c.indexes.get? n = none) (row : StoredIndex) :
    Completed c { e with indexes := e.indexes.put n row }
      { d with indexes := d.indexes.put n row } := by
  refine ⟨h.tables,?_⟩
  intro m
  rw [Table.get?_put,Table.get?_put]
  split
  · rename_i hm
    rw [hm,hc]
    rfl
  · exact h.indexes m

end

variable {s : Ddl}

theorem runDdl_fits (h : Completed c e d) (he : runDdl e s = .ok e')
    (hfits : StepFits c e s) : ∃ d', runDdl d s = .ok d' ∧ Completed c e' d' := by
  obtain ⟨t,none | i⟩ := s
  · change e.createTable t = .ok e' at he
    change ∃ d', d.createTable t = .ok d' ∧ Completed c e' d'
    cases hc : c.tables.get? t.name with
    | some stored =>
      have hd : d.tables.get? t.name = some stored := by rw [h.tables,hc]; rfl
      refine ⟨d,createTable_kept hd,?_⟩
      rcases createTable_cases he with ⟨-,rfl⟩ | ⟨-,-,-,rfl⟩
      · exact h
      · exact h.kept_table hc _
    | none =>
      rcases createTable_cases he with ⟨⟨stored,hs⟩,rfl⟩ | ⟨hnone,hindex,hnodup,rfl⟩
      · have hd : d.tables.get? t.name = some stored := by rw [h.tables,hc,hs]; rfl
        exact ⟨d,createTable_kept hd,h⟩
      · have hd : d.tables.get? t.name = none := by rw [h.tables,hc,hnone]; rfl
        have hi : d.indexes.get? t.name = none := by rw [h.indexes,hfits hc hnone,hindex]; rfl
        exact ⟨_,createTable_new hd hi hnodup,h.put_table hc _⟩
  · change e.createIndex t i = .ok e' at he
    change ∃ d', d.createIndex t i = .ok d' ∧ Completed c e' d'
    obtain ⟨hcolumns,hreserved,hown,hname,stored,hstored,hcase⟩ := createIndex_cases he
    have hdname : d.tables.get? i.name = none := by rw [h.tables,hfits.1,hname]; rfl
    obtain ⟨stored',hd⟩ : ∃ stored', d.tables.get? t.name = some stored' := by
      rw [h.tables,hstored]
      cases c.tables.get? t.name with
      | some a => exact ⟨a,rfl⟩
      | none => exact ⟨stored,rfl⟩
    have hnamed : IndexNamed d t i stored' := ⟨hcolumns,hreserved,hown,hdname,hd⟩
    cases hc : c.indexes.get? i.name with
    | some row =>
      have hrow : d.indexes.get? i.name = some row := by rw [h.indexes,hc]; rfl
      refine ⟨d,createIndex_kept hnamed hrow,?_⟩
      rcases hcase with ⟨-,rfl⟩ | ⟨-,-,rfl⟩
      · exact h
      · exact h.kept_index hc _
    | none =>
      rcases hcase with ⟨⟨row,hrow⟩,rfl⟩ | ⟨hnone,hover,rfl⟩
      · have hdrow : d.indexes.get? i.name = some row := by rw [h.indexes,hc,hrow]; rfl
        exact ⟨d,createIndex_kept hnamed hdrow,h⟩
      · have hdrow : d.indexes.get? i.name = none := by rw [h.indexes,hc,hnone]; rfl
        have hdover : ∀ column ∈ i.columns, column ∈ stored'.shape.columnNames := by
          rw [h.tables,hstored] at hd
          cases hct : c.tables.get? t.name with
          | some a =>
            rw [hct] at hd
            obtain rfl := Option.some.inj hd
            exact hfits.2 hc hnone a hct
          | none =>
            rw [hct] at hd
            obtain rfl := Option.some.inj hd
            exact hover
        exact ⟨_,createIndex_new hnamed hdrow hdover,h.put_index hc _⟩

theorem runDdl_needs (h : Completed c e d) (he : runDdl e s = .ok e')
    (hd : runDdl d s = .ok d') : StepFits c e s := by
  obtain ⟨t,none | i⟩ := s
  · intro hc hnone
    rcases createTable_cases hd with ⟨⟨stored,hs⟩,-⟩ | ⟨-,hindex,-⟩
    · rw [h.tables,hc,hnone] at hs
      exact absurd hs (by simp)
    · rw [h.indexes] at hindex
      exact (Option.or_eq_none_iff.mp hindex).1
  · obtain ⟨-,-,-,hname,stored,hstored,hcase⟩ := createIndex_cases hd
    rw [h.tables] at hname
    refine ⟨(Option.or_eq_none_iff.mp hname).1,?_⟩
    intro hc hnone stored' hs
    rw [h.tables,hs] at hstored
    obtain rfl := Option.some.inj hstored
    rcases hcase with ⟨⟨row,hrow⟩,-⟩ | ⟨-,hover,-⟩
    · rw [h.indexes,hc,hnone] at hrow
      exact absurd hrow (by simp)
    · exact hover

variable {ss : List Ddl}

theorem ddl_iff (h : Completed c e d) (he : ss.foldlM runDdl e = .ok e') :
    ((∀ pre s post e₁, ss = pre ++ s :: post → pre.foldlM runDdl e = .ok e₁ → StepFits c e₁ s) ↔
      ∃ d', ss.foldlM runDdl d = .ok d') ∧
    (∀ d', ss.foldlM runDdl d = .ok d' → Completed c e' d') := by
  induction ss generalizing e d with
  | nil =>
    obtain rfl : e = e' := Except.ok.inj he
    refine ⟨⟨fun _ => ⟨d,rfl⟩,fun _ pre s post e₁ hs => absurd hs (by simp)⟩,?_⟩
    intro d' hd
    obtain rfl : d = d' := Except.ok.inj hd
    exact h
  | cons s rest ih =>
    rw [foldlM_cons] at he
    obtain ⟨e₂,hone,hrest⟩ := ok_of_bind he
    constructor
    · constructor
      · intro hall
        obtain ⟨d₂,hd,hcompleted⟩ := runDdl_fits h hone (hall [] s rest e rfl rfl)
        have hrestFits := (ih hcompleted hrest).1.mp (by
          intro pre s' post e₁ hs hpre
          refine hall (s :: pre) s' post e₁ (by rw [hs]; rfl) ?_
          rw [foldlM_cons,hone]
          exact hpre)
        rw [foldlM_cons,hd]
        exact hrestFits
      · rintro ⟨d',hd'⟩ pre s' post e₁ hs hpre
        rw [foldlM_cons] at hd'
        obtain ⟨d₂,hd,hdrest⟩ := ok_of_bind hd'
        have hfits := runDdl_needs h hone hd
        obtain ⟨d₃,hd₃,hcompleted⟩ := runDdl_fits h hone hfits
        obtain rfl : d₂ = d₃ := Except.ok.inj (hd.symm.trans hd₃)
        cases pre with
        | nil =>
          obtain ⟨rfl,-⟩ := List.cons.inj hs
          obtain rfl : e = e₁ := Except.ok.inj hpre
          exact hfits
        | cons p pre =>
          obtain ⟨hp,htail⟩ := List.cons.inj hs
          rw [← hp,foldlM_cons,hone] at hpre
          exact (ih hcompleted hrest).1.mpr ⟨d',hdrest⟩ pre s' post e₁ htail hpre
    · intro d' hd'
      rw [foldlM_cons] at hd'
      obtain ⟨d₂,hd,hdrest⟩ := ok_of_bind hd'
      obtain ⟨d₃,hd₃,hcompleted⟩ := runDdl_fits h hone (runDdl_needs h hone hd)
      obtain rfl : d₂ = d₃ := Except.ok.inj (hd.symm.trans hd₃)
      exact (ih hcompleted hrest).2 d' hdrest

/-- The catalog has exactly the tables and indexes of the statements. -/
structure Made (ss : List Ddl) (e : Catalog) : Prop where
  tables : ∀ n, (∃ stored, e.tables.get? n = some stored) ↔ ∃ t, (t,none) ∈ ss ∧ t.name = n
  indexes : ∀ n, (∃ row, e.indexes.get? n = some row) ↔ ∃ t i, (t,some i) ∈ ss ∧ i.name = n

theorem isSome_put {ν : Type} (t : Table String ν) (k n : String) (v : ν) :
    (∃ w, (t.put k v).get? n = some w) ↔ k = n ∨ ∃ w, t.get? n = some w := by
  rw [Table.get?_put]
  split
  · rename_i hn
    simp [hn]
  · rename_i hn
    have hkn : k ≠ n := fun he => hn he.symm
    simp [hkn]

theorem made_snoc (h : Made ss e) (he : runDdl e s = .ok e') :
    Made (ss ++ [s]) e' := by
  obtain ⟨t,none | i⟩ := s
  · have hindexes : e'.indexes = e.indexes := by
      rcases createTable_cases he with ⟨-,rfl⟩ | ⟨-,-,-,rfl⟩ <;> rfl
    have htables : ∀ n, (∃ stored, e'.tables.get? n = some stored) ↔
        t.name = n ∨ ∃ stored, e.tables.get? n = some stored := by
      intro n
      rcases createTable_cases he with ⟨⟨stored,hs⟩,rfl⟩ | ⟨-,-,-,rfl⟩
      · refine ⟨Or.inr,?_⟩
        rintro (rfl | hn)
        · exact ⟨stored,hs⟩
        · exact hn
      · exact isSome_put _ _ _ _
    constructor
    · intro n
      rw [htables,h.tables]
      constructor
      · rintro (hn | ⟨u,hu,hn⟩)
        · exact ⟨t,by simp,hn⟩
        · exact ⟨u,by simp [hu],hn⟩
      · rintro ⟨u,hu,hn⟩
        rcases mem_append.mp hu with hu | hu
        · exact Or.inr ⟨u,hu,hn⟩
        · obtain rfl : u = t := by simpa using hu
          exact Or.inl hn
    · intro n
      rw [hindexes,h.indexes]
      simp
  · have htables : e'.tables = e.tables := by
      obtain ⟨-,-,-,-,_,-,hcase⟩ := createIndex_cases he
      rcases hcase with ⟨-,rfl⟩ | ⟨-,-,rfl⟩ <;> rfl
    have hindexes : ∀ n, (∃ row, e'.indexes.get? n = some row) ↔
        i.name = n ∨ ∃ row, e.indexes.get? n = some row := by
      intro n
      obtain ⟨-,-,-,-,_,-,hcase⟩ := createIndex_cases he
      rcases hcase with ⟨⟨row,hrow⟩,rfl⟩ | ⟨-,-,rfl⟩
      · refine ⟨Or.inr,?_⟩
        rintro (rfl | hn)
        · exact ⟨row,hrow⟩
        · exact hn
      · exact isSome_put _ _ _ _
    constructor
    · intro n
      rw [htables,h.tables]
      simp
    · intro n
      rw [hindexes,h.indexes]
      constructor
      · rintro (hn | ⟨u,j,hu,hn⟩)
        · exact ⟨t,i,by simp,hn⟩
        · exact ⟨u,j,by simp [hu],hn⟩
      · rintro ⟨u,j,hu,hn⟩
        rcases mem_append.mp hu with hu | hu
        · exact Or.inr ⟨u,j,hu,hn⟩
        · obtain ⟨rfl,rfl⟩ : u = t ∧ j = i := by simpa using hu
          exact Or.inl hn

theorem made_of (h : ss.foldlM runDdl Catalog.empty = .ok e) : Made ss e := by
  induction ss using List.reverseRecOn generalizing e with
  | nil =>
    obtain rfl : Catalog.empty = e := Except.ok.inj h
    exact ⟨by simp [Catalog.empty],by simp [Catalog.empty]⟩
  | append_singleton ss s ih =>
    rw [foldlM_append_eq] at h
    obtain ⟨e₁,hfirst,hlast⟩ := ok_of_bind h
    rw [foldlM_cons] at hlast
    obtain ⟨e₂,hs,hend⟩ := ok_of_bind hlast
    obtain rfl : e₂ = e := Except.ok.inj hend
    exact made_snoc (ih hfirst) hs

section
variable {R : ProjectionRegistry}

theorem mem_ddl_table {t : TableDef} : (t,none) ∈ R.ddl ↔ t ∈ R.tables := by
  constructor
  · intro h
    obtain ⟨u,hu,hmem⟩ := mem_flatMap.mp h
    obtain rfl : t = u := by simpa [TableDef.ddl] using hmem
    exact hu
  · intro h
    exact mem_flatMap.mpr ⟨t,h,by simp [TableDef.ddl]⟩

theorem mem_ddl_index {t : TableDef} {i : IndexDef} :
    (t,some i) ∈ R.ddl ↔ t ∈ R.tables ∧ i ∈ t.indexes := by
  constructor
  · intro h
    obtain ⟨u,hu,hmem⟩ := mem_flatMap.mp h
    obtain ⟨hi,rfl⟩ : i ∈ u.indexes ∧ u = t := by simpa [TableDef.ddl] using hmem
    exact ⟨hu,hi⟩
  · rintro ⟨h,hi⟩
    exact mem_flatMap.mpr ⟨t,h,by simp [TableDef.ddl,hi]⟩

theorem ddl_tables_distinct (R : ProjectionRegistry) :
    R.ddl.Pairwise (fun a b => a.2 = none → b.2 = none → a.1.name < b.1.name) := by
  rw [ProjectionRegistry.ddl,pairwise_flatMap]
  constructor
  · intro t _
    rw [TableDef.ddl,pairwise_cons]
    refine ⟨?_,?_⟩
    · intro b hb _ hnone
      obtain ⟨i,-,rfl⟩ := mem_map.mp hb
      exact absurd hnone (by simp)
    · exact pairwise_map.mpr (pairwise_of_forall (fun _ _ h => absurd h (by simp)))
  · refine R.tables_ascending.imp ?_
    intro t u hlt a ha b hb _ _
    have hat : a.1 = t := by
      rcases mem_cons.mp ha with rfl | ha
      · rfl
      · obtain ⟨i,-,rfl⟩ := mem_map.mp ha
        rfl
    have hbu : b.1 = u := by
      rcases mem_cons.mp hb with rfl | hb
      · rfl
      · obtain ⟨i,-,rfl⟩ := mem_map.mp hb
        rfl
    rw [hat,hbu]
    exact hlt

/-- What the create-if-missing pass needs of a database. Of several indexes of one
name only the first counts. -/
structure Fits (R : ProjectionRegistry) (c : Catalog) : Prop where
  tables : ∀ t ∈ R.tables, c.tables.get? t.name = none → c.indexes.get? t.name = none
  names : ∀ t ∈ R.tables, ∀ i ∈ t.indexes, c.tables.get? i.name = none
  columns : ∀ pre t i post, R.ddl = pre ++ (t,some i) :: post →
    (∀ u j, (u,some j) ∈ pre → j.name ≠ i.name) → c.indexes.get? i.name = none →
      ∀ stored, c.tables.get? t.name = some stored →
        ∀ column ∈ i.columns, column ∈ stored.shape.columnNames

theorem ensure_ok {c d : Catalog} : R.ensure c = .ok d ↔ R.ddl.foldlM runDdl c = .ok d := by
  rw [ProjectionRegistry.ensure,ensureTables_ddl]
  change sqlFails _ (R.ddl.foldlM runDdl c) = _ ↔ _
  cases R.ddl.foldlM runDdl c with
  | ok | error => simp [sqlFails]

theorem fits_iff {c fresh : Catalog} (hfresh : R.ensure Catalog.empty = .ok fresh) :
    Fits R c ↔ ∀ pre s post e₁, R.ddl = pre ++ s :: post →
      pre.foldlM runDdl Catalog.empty = .ok e₁ → StepFits c e₁ s := by
  constructor
  · intro h pre s post e₁ hs hpre
    have hmade := made_of hpre
    have hmem : s ∈ R.ddl := by rw [hs]; simp
    obtain ⟨t,none | i⟩ := s
    · intro hc _
      exact h.tables t (mem_ddl_table.mp hmem) hc
    · obtain ⟨ht,hi⟩ := mem_ddl_index.mp hmem
      refine ⟨h.names t ht i hi,?_⟩
      intro hc hnone stored hstored
      refine h.columns pre t i post hs ?_ hc stored hstored
      intro u j hj hname
      obtain ⟨row,hrow⟩ := (hmade.indexes i.name).mpr ⟨u,j,hj,hname⟩
      rw [hnone] at hrow
      exact absurd hrow (by simp)
  · intro h
    have hprefix : ∀ pre s post, R.ddl = pre ++ s :: post →
        ∃ e₁, pre.foldlM runDdl Catalog.empty = .ok e₁ := by
      intro pre s post hs
      have hall := ensure_ok.mp hfresh
      rw [hs,foldlM_append_eq] at hall
      obtain ⟨e₁,he₁,-⟩ := ok_of_bind hall
      exact ⟨e₁,he₁⟩
    refine ⟨?_,?_,?_⟩
    · intro t ht hc
      obtain ⟨pre,post,hs⟩ := append_of_mem (mem_ddl_table.mpr ht)
      obtain ⟨e₁,he₁⟩ := hprefix pre _ post hs
      refine h pre _ post e₁ hs he₁ hc ?_
      cases hget : e₁.tables.get? t.name with
      | none => rfl
      | some stored =>
        obtain ⟨u,hu,hname⟩ := ((made_of he₁).tables t.name).mp ⟨stored,hget⟩
        have hdistinct := ddl_tables_distinct R
        rw [hs,pairwise_append] at hdistinct
        have hlt := hdistinct.2.2 _ hu (t,none) (by simp) rfl rfl
        exact absurd hname hlt.ne
    · intro t ht i hi
      obtain ⟨pre,post,hs⟩ := append_of_mem (mem_ddl_index.mpr ⟨ht,hi⟩)
      obtain ⟨e₁,he₁⟩ := hprefix pre _ post hs
      exact (h pre _ post e₁ hs he₁).1
    · intro pre t i post hs hfirst hc stored hstored
      obtain ⟨e₁,he₁⟩ := hprefix pre _ post hs
      refine (h pre _ post e₁ hs he₁).2 hc ?_ stored hstored
      cases hget : e₁.indexes.get? i.name with
      | none => rfl
      | some row =>
        obtain ⟨u,j,hj,hname⟩ := ((made_of he₁).indexes i.name).mp ⟨row,hget⟩
        exact absurd hname (hfirst u j hj)

theorem completed_empty (c : Catalog) : Completed c Catalog.empty c :=
  ⟨fun n => by simp [Catalog.empty],fun n => by simp [Catalog.empty]⟩

theorem ensure_iff {c fresh : Catalog} (hfresh : R.ensure Catalog.empty = .ok fresh) :
    (Fits R c ↔ ∃ d, R.ensure c = .ok d) ∧ (∀ d, R.ensure c = .ok d → Completed c fresh d) := by
  have hddl := ddl_iff (completed_empty c) (ensure_ok.mp hfresh)
  refine ⟨?_,?_⟩
  · rw [fits_iff hfresh,hddl.1]
    simp [ensure_ok]
  · intro d hd
    exact hddl.2 d (ensure_ok.mp hd)

end

/-- Every table and index belongs to one of the names. -/
structure Owned (names : List String) (c : Catalog) : Prop where
  tables : ∀ n stored, c.tables.get? n = some stored → n ∈ names
  indexes : ∀ n row, c.indexes.get? n = some row → row.table ∈ names

def Disjoint (c : Catalog) : Prop := ∀ n, c.tables.get? n = none ∨ c.indexes.get? n = none

theorem runDdl_owned {names : List String} (h : Owned names c)
    (hs : s.1.name ∈ names) (he : runDdl c s = .ok c') : Owned names c' := by
  obtain ⟨t,none | i⟩ := s
  · rcases createTable_cases he with ⟨-,rfl⟩ | ⟨-,-,-,rfl⟩
    · exact h
    · refine ⟨?_,h.indexes⟩
      intro n stored hn
      rw [Table.get?_put] at hn
      split at hn
      · rename_i heq
        rw [heq]
        exact hs
      · exact h.tables n stored hn
  · obtain ⟨-,-,-,-,_,-,hcase⟩ := createIndex_cases he
    rcases hcase with ⟨-,rfl⟩ | ⟨-,-,rfl⟩
    · exact h
    · refine ⟨h.tables,?_⟩
      intro n row hn
      rw [Table.get?_put] at hn
      split at hn
      · obtain rfl := Option.some.inj hn
        exact hs
      · exact h.indexes n row hn

theorem runDdl_disjoint (h : Disjoint c) (he : runDdl c s = .ok c') :
    Disjoint c' := by
  obtain ⟨t,none | i⟩ := s
  · rcases createTable_cases he with ⟨-,rfl⟩ | ⟨-,hindex,-,rfl⟩
    · exact h
    · intro n
      rw [Table.get?_put]
      split
      · rename_i heq
        rw [heq]
        exact Or.inr hindex
      · exact h n
  · obtain ⟨-,-,-,hname,_,-,hcase⟩ := createIndex_cases he
    rcases hcase with ⟨-,rfl⟩ | ⟨-,-,rfl⟩
    · exact h
    · intro n
      rw [Table.get?_put]
      split
      · rename_i heq
        rw [heq]
        exact Or.inl hname
      · exact h n

theorem ddl_owned {names : List String} (h : Owned names c)
    (hs : ∀ s ∈ ss, s.1.name ∈ names) (he : ss.foldlM runDdl c = .ok c') : Owned names c' := by
  induction ss generalizing c with
  | nil =>
    obtain rfl : c = c' := Except.ok.inj he
    exact h
  | cons s rest ih =>
    rw [foldlM_cons] at he
    obtain ⟨c₁,hone,hrest⟩ := ok_of_bind he
    exact ih (runDdl_owned h (hs s (by simp)) hone) (fun s hmem => hs s (by simp [hmem])) hrest

def ProjectionRegistry.names (R : ProjectionRegistry) : List String := R.tables.map TableDef.name

theorem ddl_names (R : ProjectionRegistry) : ∀ s ∈ R.ddl, s.1.name ∈ R.names := by
  intro s hs
  obtain ⟨t,ht,hmem⟩ := mem_flatMap.mp hs
  have hst : s.1 = t := by
    rcases mem_cons.mp hmem with rfl | hmem
    · rfl
    · obtain ⟨i,-,rfl⟩ := mem_map.mp hmem
      rfl
  exact mem_map.mpr ⟨t,ht,by rw [hst]⟩

theorem owned_empty (names : List String) : Owned names Catalog.empty :=
  ⟨by simp [Catalog.empty],by simp [Catalog.empty]⟩

section
variable {R : ProjectionRegistry} {fresh : Catalog}

theorem fresh_owned (h : R.ensure Catalog.empty = .ok fresh) : Owned R.names fresh :=
  ddl_owned (owned_empty _) (ddl_names R) (ensure_ok.mp h)

theorem fresh_disjoint (h : R.ensure Catalog.empty = .ok fresh) : Disjoint fresh :=
  foldlM_invariant (fun _ _ _ hd he => runDdl_disjoint hd he)
    (fun n => Or.inl (by simp [Catalog.empty])) (ensure_ok.mp h)

theorem get?_dropTables (ts : List TableDef) (c : Catalog) (n : String) :
    (c.dropTables ts).tables.get? n =
      (if n ∈ ts.map TableDef.name then none else c.tables.get? n) := by
  rw [Catalog.dropTables]
  induction ts generalizing c with
  | nil => simp
  | cons t rest ih =>
    rw [foldl_cons,ih,Catalog.dropTable,Table.get?_erase]
    by_cases hrest : n ∈ rest.map TableDef.name
    · simp [hrest]
    · by_cases hn : n = t.name
      · simp [hn]
      · simp [hn,hrest]

variable {c : Catalog}

theorem indexes_dropTables {ts : List TableDef} {n : String} {row : StoredIndex}
    (h : (c.dropTables ts).indexes.get? n = some row) :
    c.indexes.get? n = some row ∧ row.table ∉ ts.map TableDef.name := by
  rw [Catalog.dropTables] at h
  induction ts generalizing c with
  | nil => exact ⟨h,by simp⟩
  | cons t rest ih =>
    rw [foldl_cons] at h
    obtain ⟨hdrop,hrest⟩ := ih h
    rw [Catalog.dropTable,Table.get?_keep,Option.filter_eq_some_iff] at hdrop
    refine ⟨hdrop.1,?_⟩
    have hne : row.table ≠ t.name := by simpa using hdrop.2
    simp only [map_cons,mem_cons,not_or]
    exact ⟨hne,hrest⟩

theorem dropTables_owned (h : Owned R.names c) : c.dropTables R.tables = Catalog.empty := by
  have htables : (c.dropTables R.tables).tables = Table.empty := by
    apply Table.ext_get?
    intro n
    rw [get?_dropTables,Table.get?_empty]
    split
    · rfl
    · rename_i hn
      cases hget : c.tables.get? n with
      | none => rfl
      | some stored => exact absurd (h.tables n stored hget) hn
  have hindexes : (c.dropTables R.tables).indexes = Table.empty := by
    apply Table.ext_get?
    intro n
    rw [Table.get?_empty]
    cases hget : (c.dropTables R.tables).indexes.get? n with
    | none => rfl
    | some row =>
      obtain ⟨hold,hout⟩ := indexes_dropTables hget
      exact absurd (h.indexes n row hold) hout
  cases hdrop : c.dropTables R.tables with
  | mk tables indexes =>
    rw [hdrop] at htables hindexes
    simp only at htables hindexes
    rw [htables,hindexes]
    rfl

theorem recreate_owned (h : Owned R.names c) : R.recreate c = R.ensure Catalog.empty := by
  rw [ProjectionRegistry.recreate,dropTables_owned h]

/-- The catalog has the shape of the fresh one; the rows are its own. -/
structure Outlined (fresh c : Catalog) : Prop where
  indexes : c.indexes = fresh.indexes
  tables : c.tables.column Stored.shape = fresh.tables.column Stored.shape

theorem Outlined.get? (h : Outlined fresh c) (n : String) :
    (c.tables.get? n).map Stored.shape = (fresh.tables.get? n).map Stored.shape :=
  congrFun h.tables n

theorem Outlined.none_iff (h : Outlined fresh c) (n : String) :
    c.tables.get? n = none ↔ fresh.tables.get? n = none := by
  rw [← Option.map_eq_none_iff (f := Stored.shape),h.get? n,Option.map_eq_none_iff]

theorem outlined_owned (hfresh : R.ensure Catalog.empty = .ok fresh) (h : Outlined fresh c) :
    Owned R.names c := by
  have howned := fresh_owned hfresh
  constructor
  · intro n stored hn
    cases hget : fresh.tables.get? n with
    | none =>
      rw [(h.none_iff n).mpr hget] at hn
      exact absurd hn (by simp)
    | some stored' => exact howned.tables n stored' hget
  · intro n row hn
    rw [h.indexes] at hn
    exact howned.indexes n row hn

theorem ensure_outlined (hfresh : R.ensure Catalog.empty = .ok fresh) (h : Outlined fresh c) :
    R.ensure c = .ok c := by
  have hmade := made_of (ensure_ok.mp hfresh)
  have hindex : ∀ t i, (t,some i) ∈ R.ddl → c.indexes.get? i.name ≠ none := by
    intro t i hmem hnone
    obtain ⟨row,hrow⟩ := (hmade.indexes i.name).mpr ⟨t,i,hmem,rfl⟩
    rw [h.indexes,hrow] at hnone
    exact absurd hnone (by simp)
  have hfits : Fits R c := by
    refine ⟨?_,?_,?_⟩
    · intro t ht hc
      obtain ⟨stored,hs⟩ := (hmade.tables t.name).mpr ⟨t,mem_ddl_table.mpr ht,rfl⟩
      rw [(h.none_iff t.name).mp hc] at hs
      exact absurd hs (by simp)
    · intro t ht i hi
      have hsome := hindex t i (mem_ddl_index.mpr ⟨ht,hi⟩)
      rw [h.indexes] at hsome
      exact (h.none_iff i.name).mpr ((fresh_disjoint hfresh i.name).resolve_right hsome)
    · intro pre t i post hs _ hnone
      exact absurd hnone (hindex t i (by rw [hs]; simp))
  obtain ⟨d,hd⟩ := (ensure_iff hfresh).1.mp hfits
  have hsame : Completed c fresh c := by
    constructor
    · intro n
      cases hget : c.tables.get? n with
      | some stored => rfl
      | none => rw [(h.none_iff n).mp hget]; rfl
    · intro n
      rw [h.indexes]
      simp
  rw [hd,((ensure_iff hfresh).2 d hd).unique hsame]

end

end ProjectOS.Log
