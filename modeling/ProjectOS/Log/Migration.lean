import ProjectOS.Log.Schema
import ProjectOS.Log.Sequence

namespace ProjectOS.Log
open Lib Domain List

theorem executeWrite_ok {S : Sqlite} {t : TableDef} {w : RowWrite} {c c' : Catalog}
    (h : S.executeWrite t w c = .ok c') :
    ∃ stored done, c.tables.get? t.name = some stored ∧ t.checkWrite w = .ok () ∧
      (if stored.shape = t.shape then S.statement t stored.rows w
        else S.foreign stored.shape t w stored.rows) = .ok done ∧
      c' = { c with tables := c.tables.put t.name { stored with rows := done.2 } } := by
  unfold Sqlite.executeWrite at h
  cases hcheck : t.checkWrite w with
  | error e =>
    rw [hcheck] at h
    exact absurd h (by simp [bind,Except.bind])
  | ok u =>
    rw [hcheck] at h
    cases hget : c.tables.get? t.name with
    | none =>
      simp only [hget] at h
      exact absurd h (by simp [bind,Except.bind])
    | some stored =>
      simp only [hget] at h
      cases hrun : (if stored.shape = t.shape then S.statement t stored.rows w
          else S.foreign stored.shape t w stored.rows) with
      | error e =>
        rw [hrun] at h
        exact absurd h (by simp [bind,Except.bind,Sqlite.sqlError])
      | ok done =>
        rw [hrun] at h
        refine ⟨stored,done,rfl,rfl,hrun,?_⟩
        simp only [bind,Except.bind,Sqlite.sqlError] at h
        split at h
        · exact absurd h (by simp)
        · exact (Except.ok.inj h).symm

section
variable {B : Backend} {R : ProjectionRegistry} {fresh : Catalog}

theorem Outlined.refl (c : Catalog) : Outlined c c := ⟨rfl,rfl⟩

variable {c : Catalog}

theorem Outlined.with_rows (h : Outlined fresh c) {n : String} {stored : Stored}
    (hget : c.tables.get? n = some stored) (rows : Rows) :
    Outlined fresh { c with tables := c.tables.put n { stored with rows := rows } } :=
  ⟨h.indexes,(Table.column_put_same c.tables (w := { stored with rows := rows }) hget rfl).trans h.tables⟩

variable {t : TableDef} {c' : Catalog}

theorem executeWrite_outlined {S : Sqlite} {w : RowWrite} (h : Outlined fresh c)
    (he : S.executeWrite t w c = .ok c') : Outlined fresh c' := by
  obtain ⟨stored,done,hget,-,-,rfl⟩ := executeWrite_ok he
  exact h.with_rows hget done.2

theorem applyFails_ok {α : Type} {kind : String} {seq : Nat} {x : Except ApplyError α} {a : α}
    (h : applyFails kind seq x = .ok a) : x = .ok a := by
  cases x with
  | ok b => simpa [applyFails] using h
  | error e => exact absurd h (by simp [applyFails])

theorem applyTo_keeps {P : Catalog → Prop}
    (hP : ∀ p ∈ R.projections, ∀ w c c', P c → B.sqlite.executeWrite p.table w c = .ok c' → P c')
    {e : Event} (h : P c) (he : R.applyTo B c e = .ok c') : P c' := by
  have hall : ∀ (ps : List Projection), (∀ p ∈ ps, p ∈ R.projections) → ∀ c : Catalog, P c →
      ps.foldlM (fun c p => p.applyTo B e c) c = .ok c' → P c' := by
    intro ps
    induction ps with
    | nil =>
      intro _ c hc hfold
      obtain rfl : c = c' := Except.ok.inj hfold
      exact hc
    | cons p rest ih =>
      intro hps c hc hfold
      rw [foldlM_cons] at hfold
      obtain ⟨c₁,hone,hrest⟩ := ok_of_bind hfold
      refine ih (fun q hq => hps q (by simp [hq])) c₁ ?_ hrest
      unfold Projection.applyTo at hone
      split at hone
      · exact absurd hone (by simp)
      · refine foldlM_invariant ?_ hc hone
        intro s w s' hs hw
        exact hP p (hps p (by simp)) w s s' hs (applyFails_ok hw)
  exact hall R.projections (fun _ hp => hp) c h he

variable {policy : SnapshotPolicy}

theorem carry_applyTo {e : Event} (h : R.carry B policy c e = .ok c') :
    R.applyTo B c e = .ok c' := by
  obtain ⟨c₁,hone,hrest⟩ := ok_of_bind h
  split at hrest
  · rw [hone,← Except.ok.inj hrest]
  · split at hrest
    · obtain ⟨body,-,rfl⟩ := ok_of_map hrest
      exact hone
    · rw [hone,← Except.ok.inj hrest]

variable {es : List Event}

theorem carry_fold_applyTo (h : es.foldlM (R.carry B policy) c = .ok c') :
    es.foldlM (R.applyTo B) c = .ok c' := by
  induction es generalizing c with
  | nil => exact h
  | cons e rest ih =>
    rw [foldlM_cons] at h ⊢
    obtain ⟨c₁,hone,hrest⟩ := ok_of_bind h
    rw [carry_applyTo hone]
    exact ih hrest

theorem carry_outlined (h : Outlined fresh c) (he : es.foldlM (R.carry B policy) c = .ok c') :
    Outlined fresh c' :=
  foldlM_invariant (fun _ _ _ hc hone => applyTo_keeps
    (fun _ _ _ _ _ hc hw => executeWrite_outlined hc hw) hc (carry_applyTo hone)) h he

variable {db db' : Db}

theorem follow_fold_carry (h : es.foldlM (Db.follow B R policy) db = .ok db') :
    es.foldlM (R.carry B policy) db.catalog = .ok db'.catalog := by
  rw [← follow_fold_catalog,h]
  rfl

theorem clearTable_ok (h : Db.clearTable t c = .ok c') :
    ∃ stored, c.tables.get? t.name = some stored ∧
      c' = { c with tables := c.tables.put t.name { stored with rows := Table.empty } } := by
  unfold Db.clearTable at h
  split at h
  · exact absurd h (by simp)
  · rename_i stored hget
    exact ⟨stored,hget,(Except.ok.inj h).symm⟩

theorem loadRow_ok {row : List SqlValue} (h : Db.loadRow B t row c = .ok c') :
    ∃ stored rows, c.tables.get? t.name = some stored ∧
      c' = { c with tables := c.tables.put t.name { stored with rows := rows } } := by
  unfold Db.loadRow at h
  split at h
  · exact absurd h (by simp)
  · rename_i stored hget
    obtain ⟨done,-,rfl⟩ := ok_of_map h
    exact ⟨stored,done.2,hget,rfl⟩

theorem restoreInto_outlined {snapshot : TableSnapshot} (h : Outlined fresh c)
    (he : restoreInto B t snapshot c = .ok c') : Outlined fresh c' := by
  obtain ⟨c₁,hclear,hload⟩ := ok_of_bind he
  obtain ⟨stored,hget,rfl⟩ := clearTable_ok (sqlFails_ok hclear)
  refine foldlM_invariant ?_ (h.with_rows hget Table.empty) hload
  intro d row d' hd hone
  split at hone
  · exact absurd hone (by simp)
  · obtain ⟨stored',rows,hget',rfl⟩ := loadRow_ok (sqlFails_ok hone)
    exact hd.with_rows hget' rows

/-- The project has the tables and the digest of the registry. -/
structure Built (B : Backend) (R : ProjectionRegistry) (fresh : Catalog) (db : Db) : Prop where
  outlined : Outlined fresh db.catalog
  digest : db.schemaDigest = some (R.schemaDigest B)

theorem built_fold (db : Db) (h : Outlined fresh db.catalog)
    (he : es.foldlM (Db.follow B R policy) db = .ok db') :
    Outlined fresh db'.catalog := carry_outlined h (follow_fold_carry he)

theorem built_rebuild (policy : SnapshotPolicy) (db : Db) (h : Outlined fresh c)
    (he : (db.log.foldlM (Db.follow B R policy) (db.rebased B R c)).map
      (fun db' => db'.withDigest (R.schemaDigest B)) = .ok db') : Built B R fresh db' := by
  obtain ⟨db₁,hfold,rfl⟩ := ok_of_map he
  have houtlined := built_fold (db.rebased B R c) h hfold
  exact ⟨houtlined,rfl⟩

theorem built_rebuildProjections (hfresh : R.ensure Catalog.empty = .ok fresh) (hsound : Sound db)
    (h : Outlined fresh db.catalog)
    (he : Prog.effect (Db.exec B) (rebuildProjections B R policy) db = .ok db') :
    Built B R fresh db' := by
  rw [effect_rebuildProjections R policy hsound.contiguous hsound.readable,
    recreate_owned (outlined_owned hfresh h),hfresh] at he
  exact built_rebuild policy db (Outlined.refl fresh) he

theorem built_open (hfresh : R.ensure Catalog.empty = .ok fresh) (hsound : Sound db)
    (h : Built B R fresh db)
    (he : Prog.effect (Db.exec B) (openProjections B R policy) db = .ok db') :
    Built B R fresh db' := by
  rw [effect_openProjections R policy hsound.contiguous hsound.readable,
    ensure_outlined hfresh h.outlined] at he
  obtain ⟨c,hc,he⟩ := ok_of_bind he
  obtain rfl := Except.ok.inj hc
  split at he
  · rename_i hdigest
    exact absurd h.digest hdigest
  · split at he
    · exact absurd he (by simp)
    · refine ⟨built_fold (db.withCatalog db.catalog) h.outlined he,?_⟩
      rw [(follow_fold R he).2.2]
      exact h.digest

theorem restored_outlined {start : Nat × Db} (h : Outlined fresh c)
    (he : db.restored B R c = .ok start) : Outlined fresh start.2.catalog := by
  unfold Db.restored at he
  split at he
  · obtain rfl := Except.ok.inj he
    exact h
  · obtain ⟨c',hall,rfl⟩ := ok_of_map he
    refine foldlM_invariant ?_ h hall
    intro d pair d' hd hone
    exact restoreInto_outlined hd hone

theorem built_restore (hfresh : R.ensure Catalog.empty = .ok fresh) (hsound : Sound db)
    (h : Outlined fresh db.catalog)
    (he : Prog.effect (Db.exec B) (restoreSnapshotAndTail B R) db = .ok db') :
    Built B R fresh db' := by
  rw [effect_restore R hsound.contiguous hsound.readable,ensure_outlined hfresh h] at he
  obtain ⟨c,hc,he⟩ := ok_of_bind he
  obtain rfl := Except.ok.inj hc
  rw [recreate_owned (outlined_owned hfresh h),hfresh] at he
  obtain ⟨c',hc',he⟩ := ok_of_bind he
  obtain rfl := Except.ok.inj hc'
  obtain ⟨start,hstart,he⟩ := ok_of_bind he
  obtain ⟨db₁,hfold,rfl⟩ := ok_of_map he
  have houtlined := built_fold start.2 (restored_outlined (Outlined.refl _) hstart) hfold
  exact ⟨houtlined,rfl⟩

variable (cfg : LogConfig)

theorem maintained_built (hfresh : R.ensure Catalog.empty = .ok fresh) :
    Maintained B R cfg (fun _ => True) (Built B R fresh) where
  appends := by
    intro tsMs db db' request _ hsound h hext
    rw [extend_eq hsound] at hext
    split at hext
    · obtain ⟨-,-,hdigest,-⟩ := follow_log R hext
      refine ⟨?_,hdigest.trans h.digest⟩
      have hfold : [db.nextEvent tsMs request].foldlM
          (Db.follow B R (some cfg.snapshotCadenceEvents)) (db.grown tsMs request) = .ok db' := by
        rw [foldlM_cons,hext]
        rfl
      exact built_fold (db.grown tsMs request) h.outlined hfold
    · exact absurd hext (by simp)
  opens := fun _ _ hsound h he => built_open hfresh hsound h he
  rebuilds := fun _ _ hsound h he => built_rebuildProjections hfresh hsound h.outlined he
  restores := fun _ _ hsound h he => built_restore hfresh hsound h.outlined he

theorem writeTransaction_live (context : String) (p : Tx Unit) (db : Db) :
    (∀ db', Prog.effect (Db.exec B) p db = .ok db' →
      ((ProjectLog.mk db false).writeTransaction B context .calm p).1 = .ok () ∧
        ((ProjectLog.mk db false).writeTransaction B context .calm p).2.db = db') ∧
    (((ProjectLog.mk db false).writeTransaction B context .calm p).1 = .ok () →
      ∃ db', Prog.effect (Db.exec B) p db = .ok db') := by
  have hcalm := @writeTransaction_calm B Unit context p ⟨db,false⟩ rfl
  constructor
  · intro db' hdb
    have hexec : p.execute (Db.exec B) db = .ok ((),db') := by
      rw [Prog.execute_unit,hdb]
      rfl
    rw [hexec] at hcalm
    refine ⟨hcalm,?_⟩
    rcases writeTransaction_cases (B := B) context .calm p ⟨db,false⟩ with hfail | hok
    · obtain ⟨f,hf,-⟩ := hfail
      exact absurd (hf.symm.trans hcalm) (by simp [Except.map])
    · obtain ⟨a,-,hrun⟩ := hok
      exact (Prod.mk.inj (Except.ok.inj (hrun.symm.trans hexec))).2
  · intro hok
    rw [hok] at hcalm
    obtain ⟨r,hr,-⟩ := ok_of_map hcalm.symm
    exact ⟨r.2,by rw [Prog.effect,hr]; rfl⟩

theorem openLog_iff (h : Sound db) (P : Db → Prop) :
    ((ProjectLog.openLog B R cfg .calm db).1 = .ok () ∧
      P (ProjectLog.openLog B R cfg .calm db).2.db) ↔
    ∃ db', Prog.effect (Db.exec B) (openProjections B R (some cfg.snapshotCadenceEvents)) db = .ok db' ∧
      P db' := by
  have hlive := writeTransaction_live (B := B) "open projections"
    (openProjections B R (some cfg.snapshotCadenceEvents)) db
  rw [ProjectLog.openLog,ProjectLog.recover]
  constructor
  · rintro ⟨hok,hP⟩
    split at hok
    · exact absurd hok (by simp)
    · rename_i hdone
      obtain ⟨db',hdb⟩ := hlive.2 hdone
      refine ⟨db',hdb,?_⟩
      rw [hdone] at hP
      simp only [(hlive.1 db' hdb).2] at hP
      exact hP
  · rintro ⟨db',hdb,hP⟩
    obtain ⟨hdone,hstate⟩ := hlive.1 db' hdb
    have hrec := openProjections_recovered R h.contiguous h.readable hdb
    have hcurrent : db'.applied = db'.head := hrec.applied.trans hrec.head.symm
    simp only [hdone,hstate]
    refine ⟨?_,hP⟩
    rw [ProjectLog.assertConsistent,hcurrent,if_neg (lt_irrefl _)]
    simp

def ProjectionRegistry.replay (B : Backend) (R : ProjectionRegistry) (log : List Event) :
    Except Failure Catalog :=
  (R.ensure Catalog.empty).bind (fun c => log.foldlM (R.applyTo B) c)

theorem fresh_rebuilt (hopen : (ProjectLog.openLog B R cfg .calm Db.empty).1 = .ok ()) :
    ∃ fresh, R.ensure Catalog.empty = .ok fresh ∧
      (Db.empty.log.foldlM (Db.follow B R (some cfg.snapshotCadenceEvents))
        (Db.empty.rebased B R fresh)).map (fun db => db.withDigest (R.schemaDigest B)) =
        .ok (Project.fresh B R cfg).db := by
  have hboth := (openLog_iff (B := B) (R := R) cfg sound_empty
    (fun db => db = (Project.fresh B R cfg).db)).mp ⟨hopen,rfl⟩
  obtain ⟨db',hdb,rfl⟩ := hboth
  rw [effect_openProjections R _ sound_empty.contiguous sound_empty.readable] at hdb
  obtain ⟨fresh,hfresh,hdb⟩ := ok_of_bind hdb
  rw [if_pos (by simp [Db.empty]),recreate_owned (fresh_owned hfresh),
    show R.ensure Catalog.empty = .ok fresh from hfresh] at hdb
  exact ⟨fresh,hfresh,hdb⟩

theorem fresh_built (hopen : (ProjectLog.openLog B R cfg .calm Db.empty).1 = .ok ()) :
    ∃ fresh, R.ensure Catalog.empty = .ok fresh ∧ Built B R fresh (Project.fresh B R cfg).db := by
  obtain ⟨fresh,hfresh,hdb⟩ := fresh_rebuilt cfg hopen
  exact ⟨fresh,hfresh,built_rebuild _ Db.empty (Outlined.refl fresh) hdb⟩

theorem ddl_tables {ss : List Ddl} (h : ∀ n stored, c.tables.get? n = some stored →
      ∃ t ∈ R.tables, t.name = n ∧ stored = ⟨t.shape,Table.empty⟩) (hs : ∀ s ∈ ss, s.1 ∈ R.tables)
    (he : ss.foldlM runDdl c = .ok c') :
    ∀ n stored, c'.tables.get? n = some stored →
      ∃ t ∈ R.tables, t.name = n ∧ stored = ⟨t.shape,Table.empty⟩ := by
  induction ss generalizing c with
  | nil =>
    obtain rfl : c = c' := Except.ok.inj he
    exact h
  | cons s rest ih =>
    rw [foldlM_cons] at he
    obtain ⟨c₁,hone,hrest⟩ := ok_of_bind he
    refine ih ?_ (fun x hx => hs x (by simp [hx])) hrest
    have hmem := hs s (by simp)
    obtain ⟨t,none | i⟩ := s
    · rcases createTable_cases hone with ⟨-,rfl⟩ | ⟨-,-,-,rfl⟩
      · exact h
      · intro n stored hn
        rw [Table.get?_put] at hn
        split at hn
        · rename_i heq
          exact ⟨t,hmem,heq.symm,(Option.some.inj hn).symm⟩
        · exact h n stored hn
    · obtain ⟨-,-,-,-,_,-,hcase⟩ := createIndex_cases hone
      rcases hcase with ⟨-,rfl⟩ | ⟨-,-,rfl⟩
      · exact h
      · exact h

theorem tables_inj {u : TableDef} (ht : t ∈ R.tables) (hu : u ∈ R.tables) (h : t.name = u.name) :
    t = u := by
  have hnodup : (R.tables.map TableDef.name).Nodup :=
    pairwise_map.mpr (R.tables_ascending.imp (fun hlt => hlt.ne))
  exact inj_on_of_nodup_map hnodup ht hu h

theorem fresh_table (hfresh : R.ensure Catalog.empty = .ok fresh) (ht : t ∈ R.tables) :
    fresh.tables.get? t.name = some ⟨t.shape,Table.empty⟩ := by
  have hmembers : ∀ s ∈ R.ddl, s.1 ∈ R.tables := by
    intro s hs
    obtain ⟨u,none | i⟩ := s
    · exact mem_ddl_table.mp hs
    · exact (mem_ddl_index.mp hs).1
  have hall := ddl_tables (c := Catalog.empty) (by simp [Catalog.empty]) hmembers
    (ensure_ok.mp hfresh)
  obtain ⟨stored,hstored⟩ := ((made_of (ensure_ok.mp hfresh)).tables t.name).mpr
    ⟨t,mem_ddl_table.mpr ht,rfl⟩
  obtain ⟨u,hu,hname,rfl⟩ := hall t.name stored hstored
  obtain rfl := tables_inj hu ht hname
  exact hstored

def ProjectionRegistry.indexNames (R : ProjectionRegistry) : List String :=
  R.tables.flatMap (fun t => t.indexes.map IndexDef.name)

theorem fresh_tables_iff (hfresh : R.ensure Catalog.empty = .ok fresh) (n : String) :
    fresh.tables.get? n = none ↔ n ∉ R.names := by
  have hmade := (made_of (ensure_ok.mp hfresh)).tables n
  rw [← not_iff_not,not_not,← ne_eq,Option.ne_none_iff_exists']
  refine hmade.trans ?_
  simp only [mem_ddl_table,ProjectionRegistry.names,mem_map]

theorem fresh_indexes_iff (hfresh : R.ensure Catalog.empty = .ok fresh) (n : String) :
    fresh.indexes.get? n = none ↔ n ∉ R.indexNames := by
  have hmade := (made_of (ensure_ok.mp hfresh)).indexes n
  rw [← not_iff_not,not_not,← ne_eq,Option.ne_none_iff_exists']
  refine hmade.trans ?_
  simp only [mem_ddl_index,ProjectionRegistry.indexNames,mem_flatMap,mem_map]
  constructor
  · rintro ⟨t,i,⟨ht,hi⟩,hn⟩
    exact ⟨t,ht,i,hi,hn⟩
  · rintro ⟨t,ht,i,hi,hn⟩
    exact ⟨t,i,⟨ht,hi⟩,hn⟩

end

/-- What the create-if-missing pass of the second registry needs of the first: no
table has the name of an index of the other, and a new index is over columns its
table has. -/
structure FitsOver (R₁ R₂ : ProjectionRegistry) : Prop where
  tables : ∀ t ∈ R₂.tables, t.name ∉ R₁.names → t.name ∉ R₁.indexNames
  names : ∀ t ∈ R₂.tables, ∀ i ∈ t.indexes, i.name ∉ R₁.names
  columns : ∀ pre t i post, R₂.ddl = pre ++ (t,some i) :: post →
    (∀ u j, (u,some j) ∈ pre → j.name ≠ i.name) → i.name ∉ R₁.indexNames →
      ∀ t₁ ∈ R₁.tables, t₁.name = t.name → ∀ column ∈ i.columns, column ∈ t₁.columnNames

theorem fits_built {R₁ R₂ : ProjectionRegistry} {fresh c : Catalog}
    (hfresh : R₁.ensure Catalog.empty = .ok fresh) (h : Outlined fresh c) :
    Fits R₂ c ↔ FitsOver R₁ R₂ := by
  have htables : ∀ n, c.tables.get? n = none ↔ n ∉ R₁.names :=
    fun n => (h.none_iff n).trans (fresh_tables_iff hfresh n)
  have hindexes : ∀ n, c.indexes.get? n = none ↔ n ∉ R₁.indexNames := by
    intro n
    rw [h.indexes]
    exact fresh_indexes_iff hfresh n
  have hshape : ∀ t₁ ∈ R₁.tables, ∀ stored, c.tables.get? t₁.name = some stored →
      stored.shape = t₁.shape := by
    intro t₁ ht₁ stored hs
    have hsame := h.get? t₁.name
    rw [hs,fresh_table hfresh ht₁] at hsame
    simpa using hsame
  constructor
  · intro hf
    refine ⟨?_,?_,?_⟩
    · intro t ht hn
      exact (hindexes t.name).mp (hf.tables t ht ((htables t.name).mpr hn))
    · intro t ht i hi
      exact (htables i.name).mp (hf.names t ht i hi)
    · intro pre t i post hs hfirst hn t₁ ht₁ hname column hcolumn
      obtain ⟨stored,hstored⟩ : ∃ stored, c.tables.get? t₁.name = some stored := by
        refine Option.ne_none_iff_exists'.mp ?_
        rw [ne_eq,htables,not_not]
        exact mem_map.mpr ⟨t₁,ht₁,rfl⟩
      have hover := hf.columns pre t i post hs hfirst ((hindexes i.name).mpr hn) stored
        (by rw [← hname]; exact hstored) column hcolumn
      rw [hshape t₁ ht₁ stored hstored] at hover
      exact hover
  · intro hf
    refine ⟨?_,?_,?_⟩
    · intro t ht hn
      exact (hindexes t.name).mpr (hf.tables t ht ((htables t.name).mp hn))
    · intro t ht i hi
      exact (htables i.name).mpr (hf.names t ht i hi)
    · intro pre t i post hs hfirst hn stored hstored column hcolumn
      have hmem : t.name ∈ R₁.names := by
        by_contra hout
        rw [(htables t.name).mpr hout] at hstored
        exact absurd hstored (by simp)
      obtain ⟨t₁,ht₁,hname⟩ := mem_map.mp hmem
      have hover := hf.columns pre t i post hs hfirst ((hindexes i.name).mp hn) t₁ ht₁ hname column
        hcolumn
      rw [← hname] at hstored
      rw [hshape t₁ ht₁ stored hstored]
      exact hover

def OpensReplayed (B : Backend) (R : ProjectionRegistry) (cfg : LogConfig) (db : Db) : Prop :=
  ∃ c, R.replay B db.log = .ok c ∧ (ProjectLog.openLog B R cfg .calm db).1 = .ok () ∧
    (ProjectLog.openLog B R cfg .calm db).2.db.catalog = c

/-- A change of registry the open path copes with: every table stays, the
create-if-missing pass fits, and the log can be replayed or the digests agree and
the project holds what a replay produces. -/
structure Migrates (B : Backend) (R₁ R₂ : ProjectionRegistry) (cfg : LogConfig) (db : Db) : Prop where
  kept : ∀ n ∈ R₁.names, n ∈ R₂.names
  fits : FitsOver R₁ R₂
  replays :
    if R₁.schemaDigest B = R₂.schemaDigest B then
      ∃ fresh c, R₂.ensure Catalog.empty = .ok fresh ∧ R₂.replay B db.log = .ok c ∧
        Completed db.catalog fresh c
    else
      ∃ c, (R₂.ensure Catalog.empty).bind (fun fresh =>
        db.log.foldlM (R₂.carry B (some cfg.snapshotCadenceEvents)) fresh) = .ok c

section
variable {B : Backend} {R₁ R₂ : ProjectionRegistry} {cfg : LogConfig} {fresh₁ : Catalog} {db : Db}

variable {d c : Catalog}

theorem replay_owned {log : List Event} (h : R₂.replay B log = .ok c) :
    ∃ fresh, R₂.ensure Catalog.empty = .ok fresh ∧ log.foldlM (R₂.applyTo B) fresh = .ok c ∧
      Owned R₂.names c := by
  obtain ⟨fresh,hfresh,hfold⟩ := ok_of_bind h
  refine ⟨fresh,hfresh,hfold,outlined_owned hfresh ?_⟩
  exact foldlM_invariant (fun _ _ _ hc hone => applyTo_keeps
    (fun _ _ _ _ _ hc hw => executeWrite_outlined hc hw) hc hone) (Outlined.refl fresh) hfold

variable {n : String}

theorem built_table (hfresh : R₁.ensure Catalog.empty = .ok fresh₁)
    (h : Outlined fresh₁ db.catalog) (hn : n ∈ R₁.names) :
    ∃ stored, db.catalog.tables.get? n = some stored := by
  refine Option.ne_none_iff_exists'.mp ?_
  rw [ne_eq,h.none_iff,fresh_tables_iff hfresh,not_not]
  exact hn

variable {stored : Stored}

theorem completed_table {e : Catalog} (h : Completed c e d)
    (hn : c.tables.get? n = some stored) : d.tables.get? n = some stored := by
  rw [h.tables,hn]
  rfl

theorem rebuilt_iff (howned : Owned R₂.names d) (P : Catalog → Prop) :
    (∃ db', (R₂.recreate d).bind (fun c =>
      (db.log.foldlM (Db.follow B R₂ (some cfg.snapshotCadenceEvents)) (db.rebased B R₂ c)).map
        (fun db' => db'.withDigest (R₂.schemaDigest B))) = .ok db' ∧ P db'.catalog) ↔
    ∃ c, (R₂.ensure Catalog.empty).bind (fun fresh =>
      db.log.foldlM (R₂.carry B (some cfg.snapshotCadenceEvents)) fresh) = .ok c ∧ P c := by
  rw [recreate_owned howned]
  cases hfresh : R₂.ensure Catalog.empty with
  | error f => simp [Except.bind]
  | ok fresh =>
    have hview := follow_fold_catalog (B := B) R₂ (some cfg.snapshotCadenceEvents) db.log
      (db.rebased B R₂ fresh)
    change _ = db.log.foldlM (R₂.carry B (some cfg.snapshotCadenceEvents)) fresh at hview
    simp only [Except.bind]
    rw [← hview]
    cases db.log.foldlM (Db.follow B R₂ (some cfg.snapshotCadenceEvents)) (db.rebased B R₂ fresh) with
    | error f => simp [Except.map]
    | ok db' =>
      simp only [Except.map,Except.ok.injEq,exists_eq_left']
      exact Iff.rfl

theorem leftover_survives {db' : Db}
    (hfresh : ∃ fresh, R₂.ensure Catalog.empty = .ok fresh) (hn : n ∉ R₂.names)
    (hd : d.tables.get? n = some stored)
    (h : (R₂.recreate d).bind (fun c =>
      (db.log.foldlM (Db.follow B R₂ (some cfg.snapshotCadenceEvents)) (db.rebased B R₂ c)).map
        (fun db' => db'.withDigest (R₂.schemaDigest B))) = .ok db') :
    db'.catalog.tables.get? n ≠ none := by
  obtain ⟨fresh,hfresh⟩ := hfresh
  obtain ⟨c,hc,hmapped⟩ := ok_of_bind h
  obtain ⟨db₁,hfold,rfl⟩ := ok_of_map hmapped
  have hcompleted := (ensure_iff hfresh).2 c hc
  have hdrop : (d.dropTables R₂.tables).tables.get? n = some stored := by
    rw [get?_dropTables]
    exact (if_neg hn).trans hd
  have hkept := completed_table hcompleted hdrop
  have houtlined := built_fold (db.rebased B R₂ c) (Outlined.refl c) hfold
  intro hnone
  rw [(houtlined.none_iff n).mp hnone] at hkept
  exact absurd hkept (by simp)

theorem opens_replayed_of_built (hsound : Sound db)
    (hfresh₁ : R₁.ensure Catalog.empty = .ok fresh₁) (hbuilt : Built B R₁ fresh₁ db) :
    OpensReplayed B R₂ cfg db ↔ Migrates B R₁ R₂ cfg db := by
  have hfits : Fits R₂ db.catalog ↔ FitsOver R₁ R₂ := fits_built hfresh₁ hbuilt.outlined
  have hopen := fun P => openLog_iff (B := B) (R := R₂) cfg hsound P
  have heffect := effect_openProjections (B := B) R₂ (some cfg.snapshotCadenceEvents)
    hsound.contiguous hsound.readable
  have howned₁ := outlined_owned hfresh₁ hbuilt.outlined
  have hdone : db.log.drop db.applied = [] := by
    have hlen := log_length db
    have hcurrent := hsound.applied_eq
    exact drop_of_length_le (by omega)
  have howned : ∀ fresh d, R₂.ensure Catalog.empty = .ok fresh → R₂.ensure db.catalog = .ok d →
      (∀ n ∈ R₁.names, n ∈ R₂.names) → Owned R₂.names d := by
    intro fresh d hfresh hd hkept
    have hcompleted := (ensure_iff hfresh).2 d hd
    have hfreshOwned := fresh_owned hfresh
    constructor
    · intro n stored hn
      rw [hcompleted.tables,Option.or_eq_some_iff] at hn
      rcases hn with hn | ⟨-,hn⟩
      · exact hkept n (howned₁.tables n stored hn)
      · exact hfreshOwned.tables n stored hn
    · intro n row hn
      rw [hcompleted.indexes,Option.or_eq_some_iff] at hn
      rcases hn with hn | ⟨-,hn⟩
      · exact hkept _ (howned₁.indexes n row hn)
      · exact hfreshOwned.indexes n row hn
  constructor
  · rintro ⟨c,hreplay,hok,hcatalog⟩
    obtain ⟨fresh,hfresh,hfold,hcOwned⟩ := replay_owned hreplay
    obtain ⟨db',hdb,hcat⟩ := (hopen (fun x => x.catalog = c)).mp ⟨hok,hcatalog⟩
    rw [heffect] at hdb
    obtain ⟨d,hd,hdb⟩ := ok_of_bind hdb
    have hcompleted := (ensure_iff hfresh).2 d hd
    have hpass := hfits.mp ((ensure_iff hfresh).1.mpr ⟨d,hd⟩)
    by_cases hdigest : R₁.schemaDigest B = R₂.schemaDigest B
    · rw [if_neg (by rw [hbuilt.digest,hdigest]; simp),if_neg (by rw [hsound.current]; simp),
        hdone] at hdb
      obtain rfl := Except.ok.inj hdb
      obtain rfl : d = c := hcat
      refine ⟨?_,hpass,?_⟩
      · intro n hn
        obtain ⟨stored,hstored⟩ := built_table hfresh₁ hbuilt.outlined hn
        exact hcOwned.tables n stored (completed_table hcompleted hstored)
      · rw [if_pos hdigest]
        exact ⟨fresh,d,hfresh,hreplay,hcompleted⟩
    · rw [if_pos (by rw [hbuilt.digest]; simpa using hdigest)] at hdb
      have hkept : ∀ n ∈ R₁.names, n ∈ R₂.names := by
        intro n hn
        by_contra hout
        obtain ⟨stored,hstored⟩ := built_table hfresh₁ hbuilt.outlined hn
        have hsurvives := leftover_survives ⟨fresh,hfresh⟩ hout
          (completed_table hcompleted hstored) hdb
        obtain ⟨stored',hstored'⟩ := Option.ne_none_iff_exists'.mp hsurvives
        rw [hcat] at hstored'
        exact hout (hcOwned.tables n stored' hstored')
      refine ⟨hkept,hpass,?_⟩
      rw [if_neg hdigest]
      obtain ⟨c',hc',-⟩ := (rebuilt_iff (howned fresh d hfresh hd hkept) (fun _ => True)).mp
        ⟨db',hdb,trivial⟩
      exact ⟨c',hc'⟩
  · intro h
    have hreplays := h.replays
    by_cases hdigest : R₁.schemaDigest B = R₂.schemaDigest B
    · rw [if_pos hdigest] at hreplays
      obtain ⟨fresh,c,hfresh,hreplay,hcompleted⟩ := hreplays
      obtain ⟨d,hd⟩ := (ensure_iff hfresh).1.mp (hfits.mpr h.fits)
      obtain rfl := ((ensure_iff hfresh).2 d hd).unique hcompleted
      refine ⟨d,hreplay,(hopen (fun x => x.catalog = d)).mpr ⟨db.withCatalog d,?_,rfl⟩⟩
      rw [heffect,hd]
      simp only [Except.bind]
      rw [if_neg (by rw [hbuilt.digest,hdigest]; simp),if_neg (by rw [hsound.current]; simp),hdone]
      rfl
    · rw [if_neg hdigest] at hreplays
      obtain ⟨c,hc⟩ := hreplays
      obtain ⟨fresh,hfresh,hfold⟩ := ok_of_bind hc
      obtain ⟨d,hd⟩ := (ensure_iff hfresh).1.mp (hfits.mpr h.fits)
      obtain ⟨db',hdb,hcat⟩ := (rebuilt_iff (howned fresh d hfresh hd h.kept) (fun x => x = c)).mpr
        ⟨c,hc,rfl⟩
      have hreplay : R₂.replay B db.log = .ok c := by
        rw [ProjectionRegistry.replay,hfresh]
        exact carry_fold_applyTo hfold
      refine ⟨c,hreplay,(hopen (fun x => x.catalog = c)).mpr ⟨db',?_,hcat⟩⟩
      rw [heffect,hd]
      simp only [Except.bind]
      rw [if_pos (by rw [hbuilt.digest]; simpa using hdigest)]
      exact hdb

end

/-- A project built under one registry opens under another, with the tables of
a full replay, exactly when the change is one the open path copes with. -/
theorem opens_replayed_iff (B : Backend) (R₁ R₂ : ProjectionRegistry) (cfg₁ cfg₂ : LogConfig)
    (ms : List Move) (hopen : (ProjectLog.openLog B R₁ cfg₁ .calm Db.empty).1 = .ok ()) :
    OpensReplayed B R₂ cfg₂ ((Project.fresh B R₁ cfg₁).run B R₁ cfg₁ ms).db ↔
      Migrates B R₁ R₂ cfg₂ ((Project.fresh B R₁ cfg₁).run B R₁ cfg₁ ms).db := by
  obtain ⟨fresh,hfresh,hbuilt⟩ := fresh_built cfg₁ hopen
  have hsound := fresh_sound B R₁ cfg₁
  have hall : ∀ m ∈ ms, m.clockOk (fun _ => True) := by
    intro m _
    rw [Move.clockOk]
    split <;> trivial
  exact opens_replayed_of_built (run_sound hsound ms) hfresh
    ((maintained_built cfg₁ hfresh).run hall hsound hbuilt)

def plainBackend : Backend where
  sqlite :=
    { affinity := fun _ v =>
        match v with
        | .integer n => .integer n
        | .text s => .text s
        | .blob b => .blob b
        | .null => .null
      add := fun _ old delta =>
        match old with
        | .integer n => .integer (n+delta)
        | _ => .integer delta
      foreign := fun _ _ _ _ => .error "no such column"
      foreignRows := fun _ _ _ => .error "no such column" }
  blake3 := fun bytes => BitVec.ofNat 256 (bytes.foldl (fun h b => h*257+b.toNat+1) 7)

def notesTable : TableDef := ⟨"proj_notes",1,[⟨"id",.integer⟩],[⟨"body",.blob⟩],[]⟩

def notes : ProjectionRegistry :=
  ⟨[⟨notesTable,fun e => .ok [.upsert [.integer e.seq] [.blob e.body]]⟩],
    by decide,by simp,by decide⟩

def notesKindTable : TableDef :=
  ⟨"proj_notes",2,[⟨"id",.integer⟩],[⟨"body",.blob⟩,⟨"kind",.text⟩],[⟨"idx_notes_kind",["kind"]⟩]⟩

def notesKind : ProjectionRegistry :=
  ⟨[⟨notesKindTable,fun e => .ok [.upsert [.integer e.seq] [.blob e.body,.text e.kind.tag]]⟩],
    by decide,by simp,by decide⟩

def smallConfig : LogConfig := ⟨2,by decide⟩

def noteRequest (device : Nat) (body : Bytes) : AppendRequest :=
  ⟨⟨BitVec.ofNat 128 device⟩,.user ⟨1⟩,⟨"NoteTaken",by decide⟩,body,[]⟩

def noteMoves : List Move :=
  [⟨0,.call (.appendBatch [noteRequest 1 [104],noteRequest 2 [105]]) 500,.calm⟩,
    ⟨1,.call (.appendAtHead 2 (noteRequest 1 [])) 600,.calm⟩]

def notesProject : Project :=
  (Project.fresh plainBackend notes smallConfig).run plainBackend notes smallConfig noteMoves

theorem opens_replayed_iff_notes :
    OpensReplayed plainBackend notesKind smallConfig notesProject.db ↔
      Migrates plainBackend notes notesKind smallConfig notesProject.db :=
  opens_replayed_iff plainBackend notes notesKind smallConfig smallConfig noteMoves
    (by decide)

/-- Both releases open a new project and the second can replay the log of the first but
not open its project: the index is created before the rebuild that brings the column. -/
theorem new_index_blocks_open :
    (ProjectLog.openLog plainBackend notes smallConfig .calm Db.empty).1 = .ok () ∧
    (ProjectLog.openLog plainBackend notesKind smallConfig .calm Db.empty).1 = .ok () ∧
    (notesKind.replay plainBackend notesProject.db.log).toBool = true ∧
    (ProjectLog.openLog plainBackend notesKind smallConfig .calm notesProject.db).1 =
      .error (sqlite "create projection table" "no such column: kind") ∧
    ¬ OpensReplayed plainBackend notesKind smallConfig notesProject.db := by
  have hfails : (ProjectLog.openLog plainBackend notesKind smallConfig .calm notesProject.db).1 =
      .error (sqlite "create projection table" "no such column: kind") := by decide
  refine ⟨by decide,by decide,by decide,hfails,?_⟩
  rintro ⟨c,-,hok,-⟩
  rw [hfails] at hok
  exact absurd hok (by simp)

end ProjectOS.Log
