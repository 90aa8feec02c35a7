import ProjectOS.Log.Growth

namespace ProjectOS.Log
open Lib Domain Lib.Prog List

section
variable {B : Backend} (R : ProjectionRegistry)

theorem sqlFails_bind {α β : Type} (context : String) (x : Except String α)
    (f : α → Except String β) :
    sqlFails context (x.bind f) = (sqlFails context x).bind (fun a => sqlFails context (f a)) := by
  cases x with
  | ok a => rfl
  | error e => rfl

theorem sqlFails_foldlM {α β : Type} (context : String) (f : β → α → Except String β) (xs : List α)
    (b : β) : sqlFails context (xs.foldlM f b) = xs.foldlM (fun b x => sqlFails context (f b x)) b := by
  induction xs generalizing b with
  | nil => rfl
  | cons x rest ih =>
    rw [foldlM_cons,foldlM_cons]
    cases f b x with
    | ok b' => exact ih b'
    | error e => rfl

theorem sqlFails_ok {α : Type} {context : String} {x : Except String α} {a : α}
    (h : sqlFails context x = .ok a) : x = .ok a := by
  cases x with
  | ok b => simpa [sqlFails] using h
  | error e => exact absurd h (by simp [sqlFails])

def ProjectionRegistry.ensure (R : ProjectionRegistry) (c : Catalog) : Except Failure Catalog :=
  sqlFails "create projection table" (Catalog.ensureTables R.tables c)

def ProjectionRegistry.recreate (R : ProjectionRegistry) (c : Catalog) : Except Failure Catalog :=
  R.ensure (c.dropTables R.tables)

variable (t : TableDef)

theorem catalogued_createTable :
    Catalogued B (ask (.createTable t))
      (fun c => sqlFails "create projection table" (c.createTable t)) :=
  catalogued_sql (fun db => by rw [Prog.effect,execute_ask]; rfl)

theorem catalogued_createIndex (i : IndexDef) :
    Catalogued B (ask (.createIndex t i))
      (fun c => sqlFails "create projection table" (c.createIndex t i)) :=
  catalogued_sql (fun db => by rw [Prog.effect,execute_ask]; rfl)

theorem effect_ensureTables (db : Db) :
    Prog.effect (Db.exec B) (ensureTables R) db = (R.ensure db.catalog).map db.withCatalog := by
  have hindexes : ∀ t : TableDef, Catalogued B (Prog.each (fun i => ask (.createIndex t i)) t.indexes)
      (fun c => t.indexes.foldlM
        (fun c i => sqlFails "create projection table" (c.createIndex t i)) c) :=
    fun t => catalogued_each (fun i => catalogued_createIndex t i) t.indexes
  have htable : ∀ t : TableDef, Catalogued B (ensureTable t)
      (fun c => sqlFails "create projection table" (c.ensureTable t)) := by
    intro t
    have hboth := catalogued_then (catalogued_createTable (B := B) t) (hindexes t)
    intro db
    beta_reduce
    rw [Catalog.ensureTable,sqlFails_bind]
    simp only [sqlFails_foldlM]
    exact hboth db
  have hall := catalogued_each htable R.tables db
  rw [ProjectionRegistry.ensure,Catalog.ensureTables,sqlFails_foldlM]
  exact hall

theorem effect_dropTables (db : Db) :
    Prog.effect (Db.exec B) (dropTables R) db =
      .ok (db.withCatalog (db.catalog.dropTables R.tables)) := by
  rw [dropTables,effect_each,Catalog.dropTables]
  generalize R.tables = ts
  induction ts generalizing db with
  | nil => rfl
  | cons t rest ih =>
    rw [foldlM_cons,Prog.effect,execute_ask]
    exact ih (db.withCatalog (db.catalog.dropTable t))

theorem effect_recreateTables (db : Db) :
    Prog.effect (Db.exec B) (recreateTables R) db = (R.recreate db.catalog).map db.withCatalog := by
  rw [recreateTables,effect_then,effect_dropTables]
  simp only [Except.bind]
  rw [effect_ensureTables]
  rfl

def Db.rebased (B : Backend) (R : ProjectionRegistry) (db : Db) (c : Catalog) : Db :=
  { db with catalog := c, appliedSeq := some 0,
            snapshots := db.snapshots.keep (fun _ s => s.schemaDigest = R.schemaDigest B) }

def Db.withDigest (db : Db) (digest : Digest) : Db := { db with schemaDigest := some digest }

variable {db : Db}

theorem effect_rebuild (policy : SnapshotPolicy) (hc : Contiguous db.events)
    (hread : Readable db.events) :
    Prog.effect (Db.exec B) (rebuildInTransaction B R policy db.head) db =
      (R.recreate db.catalog).bind (fun c =>
        (db.log.foldlM (Db.follow B R policy) (db.rebased B R c)).map
          (fun db' => db'.withDigest (R.schemaDigest B))) := by
  rw [rebuildInTransaction,effect_then,effect_recreateTables]
  cases R.recreate db.catalog with
  | error f => rfl
  | ok c =>
    simp only [Except.map,Except.bind]
    rw [effect_bind,execute_ask]
    simp only [Db.exec,Except.bind]
    rw [effect_bind,execute_ask]
    simp only [Db.exec,Except.bind]
    have hrange := effect_after_replayRange (B := B) R policy
      (show Contiguous (db.rebased B R c).events from hc) hread 0
      (ask (.writeSchemaDigest (R.schemaDigest B)))
    refine hrange.trans ?_
    rw [drop_zero]
    change Except.bind (db.log.foldlM _ _) _ = _
    cases db.log.foldlM (Db.follow B R policy) (db.rebased B R c) with
    | error | ok => rfl

theorem effect_rebuildProjections (policy : SnapshotPolicy) (hc : Contiguous db.events)
    (hread : Readable db.events) :
    Prog.effect (Db.exec B) (rebuildProjections B R policy) db =
      (R.recreate db.catalog).bind (fun c =>
        (db.log.foldlM (Db.follow B R policy) (db.rebased B R c)).map
          (fun db' => db'.withDigest (R.schemaDigest B))) := by
  rw [rebuildProjections,effect_bind,execute_ask]
  exact effect_rebuild R policy hc hread

theorem effect_openProjections (policy : SnapshotPolicy) (hc : Contiguous db.events)
    (hread : Readable db.events) :
    Prog.effect (Db.exec B) (openProjections B R policy) db =
      (R.ensure db.catalog).bind (fun c =>
        if db.schemaDigest ≠ some (R.schemaDigest B) then
          (R.recreate c).bind (fun c =>
            (db.log.foldlM (Db.follow B R policy) (db.rebased B R c)).map
              (fun db' => db'.withDigest (R.schemaDigest B)))
        else if db.head < db.applied then .error (.error (.stateAhead db.applied db.head))
        else (db.log.drop db.applied).foldlM (Db.follow B R policy) (db.withCatalog c)) := by
  rw [openProjections,effect_then,effect_ensureTables]
  cases R.ensure db.catalog with
  | error f => rfl
  | ok c =>
    simp only [Except.map,Except.bind]
    rw [effect_bind,execute_ask]
    simp only [Db.exec,Except.bind]
    rw [effect_bind,execute_ask]
    simp only [Db.exec,Except.bind]
    have hc' : Contiguous (db.withCatalog c).events := hc
    simp only [Db.withCatalog_schemaDigest,Db.withCatalog_head]
    rw [openStored]
    split
    · exact effect_rebuild R policy hc' hread
    · rw [effect_bind,execute_ask]
      simp only [Db.exec,Except.bind,Db.withCatalog_applied]
      rw [bringCurrent]
      split
      · rfl
      · split
        · exact effect_replayRange R policy hc' hread db.applied
        · have hhead := head_eq hc
          have hlen : db.log.length = db.events.rows.length := by simp [Db.log,storedEvents]
          rw [drop_of_length_le (by omega)]
          rfl

def restoreInto (B : Backend) (t : TableDef) (snapshot : TableSnapshot) (c : Catalog) :
    Except Failure Catalog :=
  (sqlFails "clear projection table" (Db.clearTable t c)).bind (fun c =>
    snapshot.rows.foldlM (fun c row =>
      if row.length ≠ t.columns.length then .error (badSnapshotRow t row)
      else sqlFails "restore snapshot row" (Db.loadRow B t row c)) c)

theorem catalogued_restoreTable (snapshot : TableSnapshot) :
    Catalogued B (restoreTable t snapshot) (restoreInto B t snapshot) := by
  have hclear : Catalogued B (ask (.clearTable t))
      (fun c => sqlFails "clear projection table" (Db.clearTable t c)) :=
    catalogued_sql (fun db => by rw [Prog.effect,execute_ask]; rfl)
  refine catalogued_then hclear (catalogued_each (fun row => ?_) snapshot.rows)
  intro db
  rw [restoreRow]
  split
  · rfl
  · exact catalogued_sql (fun db => by rw [Prog.effect,execute_ask]; rfl) db

def Db.usableSnapshot (B : Backend) (R : ProjectionRegistry) (db : Db) :
    Option (Int × List TableSnapshot) :=
  (db.latestSnapshot (R.schemaDigest B) (integerU64 db.head)).filter (fun s =>
    s.2.map TableSnapshot.name = R.tables.map TableDef.name)

def ProjectionRegistry.restoreAll (B : Backend) (R : ProjectionRegistry)
    (body : List TableSnapshot) (c : Catalog) : Except Failure Catalog :=
  (R.tables.zip body).foldlM (fun c pair => restoreInto B pair.1 pair.2 c) c

theorem execute_restoreLatestSnapshot (db : Db) :
    (restoreLatestSnapshot B R db.head).execute (Db.exec B) db =
      match db.usableSnapshot B R with
      | none => .ok (none,db)
      | some s => (R.restoreAll B s.2 db.catalog).map (fun c =>
          (some (nonNegative s.1),{ db with catalog := c, appliedSeq := some (nonNegative s.1) })) := by
  rw [restoreLatestSnapshot,execute_bind,execute_ask,Db.usableSnapshot]
  simp only [Db.exec,Except.bind]
  cases db.latestSnapshot (R.schemaDigest B) (integerU64 db.head) with
  | none => rfl
  | some s =>
    obtain ⟨seq,body⟩ := s
    dsimp only
    by_cases hnames : body.map TableSnapshot.name = R.tables.map TableDef.name
    · have hzip := catalogued_each (fun pair : TableDef × TableSnapshot =>
        catalogued_restoreTable (B := B) pair.1 pair.2) (R.tables.zip body) db
      have husable : (some (seq,body)).filter (fun s : Int × List TableSnapshot =>
          decide (s.2.map TableSnapshot.name = R.tables.map TableDef.name)) = some (seq,body) := by
        simp [hnames]
      rw [husable,if_neg (not_not.mpr hnames),execute_bind,execute_unit,hzip]
      simp only [ProjectionRegistry.restoreAll]
      cases (R.tables.zip body).foldlM (fun c pair => restoreInto B pair.1 pair.2 c) db.catalog with
      | error | ok => rfl
    · have husable : (some (seq,body)).filter (fun s : Int × List TableSnapshot =>
          decide (s.2.map TableSnapshot.name = R.tables.map TableDef.name)) = none := by
        simp [hnames]
      rw [husable,if_pos hnames]
      rfl

def Db.restored (B : Backend) (R : ProjectionRegistry) (db : Db) (c : Catalog) :
    Except Failure (Nat × Db) :=
  match db.usableSnapshot B R with
  | none => .ok (0,{ db with catalog := c, appliedSeq := some 0 })
  | some s => (R.restoreAll B s.2 c).map (fun c =>
      (nonNegative s.1,{ db with catalog := c, appliedSeq := some (nonNegative s.1) }))

theorem effect_restore (hc : Contiguous db.events) (hread : Readable db.events) :
    Prog.effect (Db.exec B) (restoreSnapshotAndTail B R) db =
      (R.ensure db.catalog).bind (fun c => (R.recreate c).bind (fun c =>
        (db.restored B R c).bind (fun start =>
          ((db.log.drop start.1).foldlM (Db.follow B R none) start.2).map
            (fun db' => db'.withDigest (R.schemaDigest B))))) := by
  rw [restoreSnapshotAndTail,effect_then,effect_ensureTables]
  cases R.ensure db.catalog with
  | error f => rfl
  | ok c =>
    simp only [Except.map,Except.bind]
    rw [effect_bind,execute_ask]
    simp only [Db.exec,Except.bind]
    rw [effect_bind,execute_unit,effect_recreateTables]
    simp only [Db.withCatalog_catalog,Db.withCatalog_head]
    cases R.recreate c with
    | error f => rfl
    | ok c' =>
      simp only [Except.map,Except.bind]
      rw [effect_bind,execute_ask]
      simp only [Db.exec,Except.bind]
      have hlatest := execute_restoreLatestSnapshot (B := B) R
        { db with catalog := c', appliedSeq := some 0 }
      rw [effect_bind]
      change ((Prog.execute _ (restoreLatestSnapshot B R
        { db with catalog := c', appliedSeq := some 0 }.head)
          { db with catalog := c', appliedSeq := some 0 }).bind _) = _
      rw [hlatest]
      have husable : { db with catalog := c', appliedSeq := some 0 }.usableSnapshot B R =
        db.usableSnapshot B R := rfl
      rw [husable,Db.restored]
      have htail : ∀ (start : Nat) (db₁ : Db), db₁.events = db.events →
          Prog.effect (Db.exec B) ((replayRange B R none start db.head).bind (fun _ =>
            ask (.writeSchemaDigest (R.schemaDigest B)))) db₁ =
          ((db.log.drop start).foldlM (Db.follow B R none) db₁).map
            (fun db' => db'.withDigest (R.schemaDigest B)) := by
        intro start db₁ hevents
        have hhead : db₁.head = db.head := by rw [Db.head,hevents,Db.head]
        have hlog : db₁.log = db.log := by rw [Db.log,hevents,Db.log]
        rw [← hhead,effect_after_replayRange R none (hevents ▸ hc) (hevents ▸ hread) start,hlog]
        cases (db.log.drop start).foldlM (Db.follow B R none) db₁ with
        | error | ok => rfl
      cases db.usableSnapshot B R with
      | none => exact htail 0 _ rfl
      | some s =>
        dsimp only
        cases R.restoreAll B s.2 c' with
        | error f => rfl
        | ok c'' => exact htail (nonNegative s.1) _ rfl

variable {policy : SnapshotPolicy} {db' : Db}

theorem fold_applied {es : List Event} (h : es.foldlM (Db.follow B R policy) db = .ok db') :
    db'.applied = (es.getLast?.map Event.seq).getD db.applied := by
  induction es generalizing db with
  | nil =>
    obtain rfl : db = db' := Except.ok.inj h
    rfl
  | cons e rest ih =>
    rw [foldlM_cons] at h
    obtain ⟨db₁,hone,hrest⟩ := ok_of_bind h
    have happlied := (follow_log R hone).2.2.2
    rw [ih hrest,Db.applied,happlied]
    cases rest with
    | nil => rfl
    | cons e' rest => rw [List.getLast?_cons_cons,List.getLast?_cons]; rfl

theorem log_length (db : Db) : db.log.length = db.events.rows.length := by
  simp [Db.log,storedEvents]

theorem Contiguous.log_seq (h : Contiguous db.events) {i : Nat} {e : Event}
    (he : db.log[i]? = some e) : e.seq = i+1 := by
  rw [Db.log,storedEvents,List.getElem?_map] at he
  obtain ⟨r,hr,rfl⟩ := Option.map_eq_some_iff.mp he
  have hseq := h.seqs i r hr
  dsimp only [storedEvent]
  omega

theorem tail_applied {db₀ : Db} (hc : Contiguous db.events) {start : Nat}
    (hstart : db₀.applied = start) (hle : start ≤ db.head)
    (h : (db.log.drop start).foldlM (Db.follow B R policy) db₀ = .ok db') :
    db'.applied = db.head := by
  have hlen := log_length db
  have hhead := head_eq hc
  rw [fold_applied R h]
  by_cases hlt : start < db.log.length
  · obtain ⟨e,he⟩ : ∃ e, db.log[db.log.length-1]? = some e := ⟨_,List.getElem?_eq_getElem (by omega)⟩
    have hseq := hc.log_seq he
    have hlast : (db.log.drop start).getLast? = some e := by
      rw [List.getLast?_eq_getElem?,length_drop,List.getElem?_drop,← he]
      congr 1
      omega
    rw [hlast,Option.map_some,Option.getD_some,hseq]
    omega
  · rw [drop_of_length_le (by omega),List.getLast?_nil,Option.map_none,Option.getD_none,hstart]
    omega

/-- What the recovery transactions leave of the log itself, and where they
leave the projections. -/
structure Recovered (db db' : Db) : Prop where
  events : db'.events = db.events
  devices : db'.devices = db.devices
  applied : db'.applied = db.head

theorem Recovered.head (h : Recovered db db') : db'.head = db.head := by
  rw [Db.head,h.events,Db.head]

theorem Recovered.sound (h : Recovered db db') (hs : Sound db) : Sound db' := by
  refine ⟨h.events ▸ hs.contiguous,h.events ▸ hs.lamports,?_,h.applied.trans h.head.symm⟩
  intro device
  rw [h.devices,h.events]
  exact hs.devices device

theorem recovered_fold (db₀ : Db) (hc : Contiguous db.events) (hevents : db₀.events = db.events)
    (hdevices : db₀.devices = db.devices) {start : Nat} (hstart : db₀.applied = start)
    (hle : start ≤ db.head) (h : (db.log.drop start).foldlM (Db.follow B R policy) db₀ = .ok db') :
    Recovered db db' := by
  obtain ⟨he,hd,-⟩ := follow_fold R h
  exact ⟨he.trans hevents,hd.trans hdevices,tail_applied R hc hstart hle h⟩

theorem rebuild_recovered {c : Catalog} (hc : Contiguous db.events)
    (h : (db.log.foldlM (Db.follow B R policy) (db.rebased B R c)).map
      (fun db' => db'.withDigest (R.schemaDigest B)) = .ok db') : Recovered db db' := by
  obtain ⟨db₁,hfold,rfl⟩ := ok_of_map h
  have hrec := recovered_fold R (db.rebased B R c) hc rfl rfl rfl (Nat.zero_le _) hfold
  exact ⟨hrec.events,hrec.devices,hrec.applied⟩

theorem rebuildProjections_recovered (hc : Contiguous db.events) (hread : Readable db.events)
    (h : Prog.effect (Db.exec B) (rebuildProjections B R policy) db = .ok db') :
    Recovered db db' := by
  rw [effect_rebuildProjections R policy hc hread] at h
  obtain ⟨c,-,h⟩ := ok_of_bind h
  exact rebuild_recovered R hc h

theorem openProjections_recovered (hc : Contiguous db.events) (hread : Readable db.events)
    (h : Prog.effect (Db.exec B) (openProjections B R policy) db = .ok db') : Recovered db db' := by
  rw [effect_openProjections R policy hc hread] at h
  obtain ⟨c,-,h⟩ := ok_of_bind h
  split at h
  · obtain ⟨c',-,h⟩ := ok_of_bind h
    exact rebuild_recovered R hc h
  · split at h
    · exact absurd h (by simp)
    · rename_i hle
      exact recovered_fold R (db.withCatalog c) hc rfl rfl rfl (not_lt.mp hle) h

theorem latestSnapshot_le {digest : Digest} {head : Int} {s : Int × List TableSnapshot}
    (h : db.latestSnapshot digest head = some s) : s.1 ≤ head := by
  rw [Db.latestSnapshot] at h
  obtain ⟨r,hr,rfl⟩ := Option.map_eq_some_iff.mp h
  have hmem := mem_of_getLast? hr
  have hboth := (mem_filter.mp hmem).2
  simp only [decide_eq_true_eq] at hboth
  exact hboth.2

theorem restore_recovered (hc : Contiguous db.events) (hread : Readable db.events)
    (h : Prog.effect (Db.exec B) (restoreSnapshotAndTail B R) db = .ok db') : Recovered db db' := by
  rw [effect_restore R hc hread] at h
  obtain ⟨c,-,h⟩ := ok_of_bind h
  obtain ⟨c',-,h⟩ := ok_of_bind h
  obtain ⟨start,hstart,h⟩ := ok_of_bind h
  obtain ⟨db₁,hfold,rfl⟩ := ok_of_map h
  have hfrom : start.2.events = db.events ∧ start.2.devices = db.devices ∧
      start.2.applied = start.1 ∧ start.1 ≤ db.head := by
    unfold Db.restored at hstart
    split at hstart
    · obtain rfl := Except.ok.inj hstart
      exact ⟨rfl,rfl,rfl,Nat.zero_le _⟩
    · rename_i s hs
      obtain ⟨c'',-,rfl⟩ := ok_of_map hstart
      rw [Db.usableSnapshot,Option.filter_eq_some_iff] at hs
      have hle := latestSnapshot_le hs.1
      have hroom := hc.room
      have hhead := head_eq hc
      rw [integerU64_eq (by omega)] at hle
      refine ⟨rfl,rfl,rfl,?_⟩
      simp only [nonNegative]
      omega
  obtain ⟨he,hd,ha,hle⟩ := hfrom
  have hrec := recovered_fold R start.2 hc he hd ha hle hfold
  exact ⟨hrec.events,hrec.devices,hrec.applied⟩

end
end ProjectOS.Log
