import ProjectOS.Lib.Replay
import ProjectOS.Log.Replay

namespace ProjectOS.Log
open Lib Domain List Lib.Prog

section
variable (B : Backend) (R : ProjectionRegistry)

def Catalogued (p : Tx Unit) (f : Catalog → Except Failure Catalog) : Prop :=
  ∀ db, Prog.effect (Db.exec B) p db = (f db.catalog).map db.withCatalog

variable {B}

theorem catalogued_each {β : Type} {p : β → Tx Unit} {f : β → Catalog → Except Failure Catalog}
    (h : ∀ x, Catalogued B (p x) (f x)) (xs : List β) :
    Catalogued B (Prog.each p xs) (fun c => xs.foldlM (fun c x => f x c) c) := by
  intro db
  rw [effect_each]
  induction xs generalizing db with
  | nil => rfl
  | cons x rest ih =>
    beta_reduce
    rw [foldlM_cons,foldlM_cons,h x]
    cases f x db.catalog with
    | ok c => exact ih (db.withCatalog c)
    | error e => rfl

theorem catalogued_then {p q : Tx Unit} {f g : Catalog → Except Failure Catalog}
    (hp : Catalogued B p f) (hq : Catalogued B q g) :
    Catalogued B (p.bind (fun _ => q)) (fun c => (f c).bind g) := by
  intro db
  beta_reduce
  rw [effect_then,hp]
  cases f db.catalog with
  | ok c => exact hq (db.withCatalog c)
  | error e => rfl

theorem catalogued_throw (e : Failure) : Catalogued B (.throw e) (fun _ => .error e) := fun _ => rfl

theorem catalogued_sql {a : Tx Unit} {context : String} {f : Catalog → Except String Catalog}
    (h : ∀ db, Prog.effect (Db.exec B) a db =
      ((sqlFails context (db.onCatalog f)).map (fun db => ((),db))).map Prod.snd) :
    Catalogued B a (fun c => sqlFails context (f c)) := by
  intro db
  beta_reduce
  rw [h,Db.onCatalog]
  cases f db.catalog with
  | ok c => rfl
  | error e => rfl

def writeTo (B : Backend) (e : Event) (t : TableDef) (w : RowWrite) (c : Catalog) :
    Except Failure Catalog :=
  applyFails e.kind.tag e.seq (B.sqlite.executeWrite t w c)

def Projection.applyTo (B : Backend) (p : Projection) (e : Event) (c : Catalog) :
    Except Failure Catalog :=
  match p.apply e with
  | .error source => .error (.error (.apply e.kind.tag e.seq source))
  | .ok writes => writes.foldlM (fun c w => writeTo B e p.table w c) c

def ProjectionRegistry.applyTo (B : Backend) (R : ProjectionRegistry) (c : Catalog) (e : Event) :
    Except Failure Catalog :=
  R.projections.foldlM (fun c p => p.applyTo B e c) c

variable (e : Event)

theorem catalogued_write (t : TableDef) (w : RowWrite) :
    Catalogued B (ask (.write e t w)) (writeTo B e t w) := by
  intro db
  have hexec := execute_ask B (.write e t w) db
  rw [Prog.effect,hexec,Db.exec,writeTo]
  cases applyFails e.kind.tag e.seq (B.sqlite.executeWrite t w db.catalog) with
  | ok c => rfl
  | error f => rfl

theorem catalogued_apply : Catalogued B (applyEventToSchema R e) (fun c => R.applyTo B c e) := by
  refine catalogued_each (f := fun (p : Projection) c => p.applyTo B e c) ?_ _
  intro p
  cases hp : p.apply e with
  | error source =>
    simp only [applyProjection,Projection.applyTo,hp]
    exact catalogued_throw _
  | ok writes =>
    simp only [applyProjection,Projection.applyTo,hp]
    exact catalogued_each (catalogued_write e p.table) writes

def readTable (B : Backend) (c : Catalog) (t : TableDef) : Except Failure TableSnapshot :=
  (sqlFails "read snapshot rows" (Db.tableRows B t c)).bind (readRows t)

def ProjectionRegistry.dump (B : Backend) (R : ProjectionRegistry) (c : Catalog) :
    Except Failure (List TableSnapshot) :=
  R.tables.mapM (readTable B c)

def Db.addSnapshot (db : Db) (seq : Nat) (snapshot : Snapshot) : Db :=
  { db with snapshots := (db.snapshots.put (integerU64 seq) snapshot).newest snapshotKeepCount }

theorem execute_ofExcept {α : Type} (x : Except Failure α) (db : Db) :
    (Prog.ofExcept x : Tx α).execute (Db.exec B) db = x.map (fun a => (a,db)) := by
  cases x with
  | ok a => rfl
  | error e => rfl

theorem execute_readTableSnapshot (t : TableDef) (db : Db) :
    (readTableSnapshot t).execute (Db.exec B) db =
      (readTable B db.catalog t).map (fun table => (table,db)) := by
  rw [readTableSnapshot,execute_bind,execute_ask,Db.exec,readTable]
  cases sqlFails "read snapshot rows" (Db.tableRows B t db.catalog) with
  | ok rows => exact execute_ofExcept (readRows t rows) db
  | error e => rfl

theorem effect_writeSnapshot (seq tsMs : Nat) (db : Db) :
    Prog.effect (Db.exec B) (writeSnapshot B R seq tsMs) db =
      (R.dump B db.catalog).map (fun body =>
        db.addSnapshot seq ⟨R.schemaDigest B,body,integerU64 tsMs⟩) := by
  rw [writeSnapshot,effect_bind,
    execute_collect (Db.exec B) (fun t => execute_readTableSnapshot t db),
    ProjectionRegistry.dump]
  cases R.tables.mapM (readTable B db.catalog) with
  | ok | error => rfl

def Db.snapshotAfter (B : Backend) (R : ProjectionRegistry) (policy : SnapshotPolicy) (e : Event)
    (db : Db) : Except Failure Db :=
  match policy with
  | none => .ok db
  | some cadence =>
    if e.seq % cadence = 0 then
      (R.dump B db.catalog).map (fun body =>
        db.addSnapshot e.seq ⟨R.schemaDigest B,body,integerU64 e.tsMs⟩)
    else .ok db

def Db.follow (B : Backend) (R : ProjectionRegistry) (policy : SnapshotPolicy) (db : Db)
    (e : Event) : Except Failure Db :=
  (R.applyTo B db.catalog e).bind (fun c =>
    { db with catalog := c, appliedSeq := some e.seq }.snapshotAfter B R policy e)

variable (db : Db)

theorem effect_applyEventToSchema :
    Prog.effect (Db.exec B) (applyEventToSchema R e) db =
      (R.applyTo B db.catalog e).map db.withCatalog := catalogued_apply R e db

theorem effect_applyEvent :
    Prog.effect (Db.exec B) (applyEvent R e) db =
      (R.applyTo B db.catalog e).map (fun c => { db with catalog := c, appliedSeq := some e.seq }) := by
  rw [applyEvent,effect_then,effect_applyEventToSchema]
  cases R.applyTo B db.catalog e with
  | ok c => rfl
  | error f => rfl

theorem effect_snapshotIfDue {after : Tx Unit}
    (hafter : ∀ db, Prog.effect (Db.exec B) after db = .ok db) (cadence : Nat) (e : Event) (db : Db) :
    Prog.effect (Db.exec B) (snapshotIfDue B R cadence e.seq e.tsMs after) db =
      db.snapshotAfter B R (some cadence) e := by
  rw [snapshotIfDue,Db.snapshotAfter]
  split
  · rw [effect_then,effect_writeSnapshot]
    cases R.dump B db.catalog with
    | ok body => exact hafter _
    | error f => rfl
  · rfl

theorem effect_replayEvent (policy : SnapshotPolicy) (e : Event) (db : Db) :
    Prog.effect (Db.exec B) (replayEvent B R policy e) db = db.follow B R policy e := by
  unfold replayEvent
  rw [effect_then,effect_applyEventToSchema,Db.follow]
  cases R.applyTo B db.catalog e with
  | error f => rfl
  | ok c =>
    cases policy with
    | none => rfl
    | some cadence =>
      exact effect_snapshotIfDue R (fun _ => rfl) cadence e
        { db with catalog := c, appliedSeq := some e.seq }

theorem follow_log {policy : SnapshotPolicy} {db db' : Db} {e : Event}
    (h : db.follow B R policy e = .ok db') :
    db'.events = db.events ∧ db'.devices = db.devices ∧ db'.schemaDigest = db.schemaDigest ∧
      db'.appliedSeq = some e.seq := by
  obtain ⟨c,-,h⟩ := ok_of_bind h
  unfold Db.snapshotAfter at h
  split at h
  · obtain rfl := Except.ok.inj h
    simp
  · split at h
    · obtain ⟨body,-,rfl⟩ := ok_of_map h
      simp [Db.addSnapshot]
    · obtain rfl := Except.ok.inj h
      simp

def storedEvent (seq : Int) (row : EventRow) : Event :=
  { seq := seq.toNat, device := row.device, lamport := row.lamport.toNat,
    tsMs := nonNegative row.tsMs, actor := row.actor, kind := row.kind, body := row.body,
    refs := row.refs }

def storedEvents (rows : List (Int × EventRow)) : List Event :=
  rows.map (fun r => storedEvent r.1 r.2)

def Db.log (db : Db) : List Event := storedEvents db.events.rows

/-- The events are numbered from one on, without a gap. -/
structure Contiguous (events : Table Int EventRow) : Prop where
  seqs : ∀ (i : Nat) r, events.rows[i]? = some r → r.1 = i+1
  room : (events.rows.length : Int) ≤ i64Max

def Readable (events : Table Int EventRow) : Prop := ∀ r ∈ events.rows, 0 ≤ r.2.lamport

theorem head_eq {db : Db} (h : Contiguous db.events) : db.head = db.events.rows.length := by
  rw [Db.head,Table.last?,List.getLast?_eq_getElem?]
  cases hr : db.events.rows[db.events.rows.length-1]? with
  | none =>
    have hlen := List.getElem?_eq_none_iff.mp hr
    simp only [nonNegative,Option.map_none,Option.getD_none,Int.toNat_zero]
    omega
  | some r =>
    have hseq := h.seqs _ r hr
    have hlt := (List.getElem?_eq_some_iff.mp hr).1
    simp only [nonNegative,Option.map_some,Option.getD_some]
    omega

variable {rows : List (Int × EventRow)}

theorem filter_after {o : Nat} (h : ∀ (i : Nat) r, rows[i]? = some r → r.1 = i+o+1) (cursor : Nat) :
    rows.filter (fun r => decide ((cursor : Int)+o < r.1)) = rows.drop cursor := by
  induction rows generalizing cursor o with
  | nil => simp
  | cons x rest ih =>
    have hx : x.1 = 0+o+1 := h 0 x rfl
    have hrest : ∀ (i : Nat) r, rest[i]? = some r → r.1 = i+(o+1 : Nat)+1 := by
      intro i r hr
      have hseq := h (i+1) r hr
      push_cast at hseq ⊢
      omega
    cases cursor with
    | zero =>
      have hall := ih hrest 0
      have hmore : ∀ r ∈ rest, decide (((0 : Nat) : Int)+o < r.1) = true := by
        intro r hr
        obtain ⟨i,hi⟩ := mem_iff_getElem?.mp hr
        have hseq := hrest i r hi
        push_cast at hseq ⊢
        simp only [decide_eq_true_eq]
        omega
      have hfirst : decide (((0 : Nat) : Int)+o < x.1) = true := by
        simp only [decide_eq_true_eq]
        omega
      rw [filter_cons_of_pos (by simpa using hfirst),filter_eq_self.mpr hmore,
        drop_zero]
    | succ cursor =>
      have hfirst : ¬ decide (((cursor+1 : Nat) : Int)+o < x.1) = true := by
        simp only [decide_eq_true_eq]
        push_cast
        omega
      have hshift : (fun r : Int × EventRow => decide (((cursor+1 : Nat) : Int)+o < r.1)) =
          fun r => decide ((cursor : Int)+(o+1 : Nat) < r.1) := by
        funext r
        congr 1
        push_cast
        apply propext
        omega
      rw [filter_cons_of_neg (by simpa using hfirst),hshift,ih hrest,drop_succ_cons]

theorem eventsAfter_eq {db : Db} (h : Contiguous db.events) {cursor : Nat}
    (hc : (cursor : Int) ≤ i64Max) (limit : Nat) :
    db.eventsAfter (integerU64 cursor) limit = (db.events.rows.drop cursor).take limit := by
  have hseqs : ∀ (i : Nat) r, db.events.rows[i]? = some r → r.1 = i+(0 : Nat)+1 := by
    intro i r hr
    simpa using h.seqs i r hr
  have hf := filter_after hseqs cursor
  simp only [Nat.cast_zero,add_zero] at hf
  rw [Db.eventsAfter,integerU64,min_eq_left hc,hf]

theorem decodeEventRow_ok {seq : Int} {row : EventRow} (hs : 0 ≤ seq) (hl : 0 ≤ row.lamport) :
    decodeEventRow seq row = .ok (storedEvent seq row) := by
  rw [decodeEventRow,if_neg (not_lt.mpr hs),if_neg (not_lt.mpr hl)]
  rfl

def cursorAfter : Nat → List (Int × EventRow) → Nat
  | cursor, [] => cursor
  | _, row :: rest => cursorAfter row.1.toNat rest

variable (policy : SnapshotPolicy)

theorem execute_replayRows (h : ∀ r ∈ rows, 0 ≤ r.1 ∧ 0 ≤ r.2.lamport) (cursor replayed : Nat)
    (db : Db) : (replayRows B R policy cursor replayed rows).execute (Db.exec B) db =
      ((storedEvents rows).foldlM (Db.follow B R policy) db).map
        (fun db => ((cursorAfter cursor rows,replayed+rows.length),db)) := by
  induction rows generalizing cursor replayed db with
  | nil => rfl
  | cons r rest ih =>
    obtain ⟨hs,hl⟩ := h r (by simp)
    have hmap : storedEvents (r :: rest) = storedEvent r.1 r.2 :: storedEvents rest := rfl
    rw [replayRows,decodeEventRow_ok hs hl,hmap,foldlM_cons]
    simp only [execute_bind,execute_unit,effect_replayEvent]
    cases db.follow B R policy (storedEvent r.1 r.2) with
    | error e => rfl
    | ok db' =>
      rw [length_cons,Nat.add_comm rest.length,← Nat.add_assoc]
      exact ih (fun x hx => h x (by simp [hx])) _ _ db'

theorem cursorAfter_eq {cursor : Nat} (h : ∀ (i : Nat) r, rows[i]? = some r → r.1 = cursor+i+1) :
    cursorAfter cursor rows = cursor+rows.length := by
  induction rows generalizing cursor with
  | nil => rfl
  | cons r rest ih =>
    have hr : r.1 = cursor+(0 : Nat)+1 := h 0 r rfl
    have hnat : r.1.toNat = cursor+1 := by omega
    have hrest : ∀ (i : Nat) x, rest[i]? = some x → x.1 = (cursor+1 : Nat)+i+1 := by
      intro i x hx
      have hseq := h (i+1) x hx
      push_cast at hseq ⊢
      omega
    rw [cursorAfter,hnat,ih hrest,length_cons]
    omega

theorem follow_fold {policy : SnapshotPolicy} {es : List Event} {db db' : Db}
    (h : es.foldlM (Db.follow B R policy) db = .ok db') :
    db'.events = db.events ∧ db'.devices = db.devices ∧ db'.schemaDigest = db.schemaDigest := by
  refine foldlM_invariant (P := fun x => x.events = db.events ∧ x.devices = db.devices ∧
    x.schemaDigest = db.schemaDigest) ?_ ⟨rfl,rfl,rfl⟩ h
  intro s e t hs hstep
  obtain ⟨he,hd,hg,-⟩ := follow_log R hstep
  exact ⟨he.trans hs.1,hd.trans hs.2.1,hg.trans hs.2.2⟩

theorem execute_replayBatches (policy : SnapshotPolicy) {db : Db} (hc : Contiguous db.events)
    (hread : Readable db.events) (rounds : Nat) {cursor : Nat} (replayed : Nat)
    (hrounds : db.events.rows.length-cursor ≤ rounds) :
    (replayBatches B R policy db.events.rows.length rounds (cursor,replayed)).execute (Db.exec B) db =
      ((db.log.drop cursor).foldlM (Db.follow B R policy) db).map
        (fun db' => (replayed+(db.events.rows.length-cursor),db')) := by
  have hlen : db.log.length = db.events.rows.length := by simp [Db.log,storedEvents]
  induction rounds generalizing cursor replayed db with
  | zero =>
    rw [drop_of_length_le (by omega),Nat.le_zero.mp hrounds]
    rfl
  | succ rounds ih =>
    rw [replayBatches]
    split
    · rename_i hlt
      have hroom := hc.room
      rw [execute_bind,execute_ask,Db.exec,eventsAfter_eq hc (by omega)]
      simp only [Except.bind]
      generalize hbatch : (db.events.rows.drop cursor).take replayBatchEventCount = batch
      have hbatchLen : batch.length = min replayBatchEventCount (db.events.rows.length-cursor) := by
        rw [← hbatch,length_take,length_drop]
      have hpos : 0 < batch.length := by
        rw [hbatchLen,replayBatchEventCount]
        omega
      have hnot : batch.isEmpty = false := by
        cases batch with
        | nil => simp at hpos
        | cons r rest => rfl
      have hseqs : ∀ (i : Nat) r, batch[i]? = some r → r.1 = cursor+i+1 := by
        intro i r hr
        rw [← hbatch,List.getElem?_take] at hr
        split at hr
        · rw [List.getElem?_drop] at hr
          have hseq := hc.seqs _ r hr
          push_cast at hseq
          exact hseq
        · exact absurd hr (by simp)
      have hmem : ∀ r ∈ batch, 0 ≤ r.1 ∧ 0 ≤ r.2.lamport := by
        intro r hr
        obtain ⟨i,hi⟩ := mem_iff_getElem?.mp hr
        have hseq := hseqs i r hi
        refine ⟨by omega,hread r ?_⟩
        rw [← hbatch] at hr
        exact mem_of_mem_drop (mem_of_mem_take hr)
      have hsplit : db.log.drop cursor = storedEvents batch ++ db.log.drop (cursor+batch.length) := by
        have htake : batch = (db.events.rows.drop cursor).take batch.length := by
          rw [hbatchLen,← hbatch,take_eq_take_iff,length_drop]
          omega
        have hcut := take_append_drop batch.length (db.events.rows.drop cursor)
        rw [← htake,drop_drop] at hcut
        rw [Db.log,storedEvents,← map_drop,← hcut,map_append,← map_drop,storedEvents]
      rw [hnot,hsplit,foldlM_append_eq]
      simp only [Bool.false_eq_true,if_false]
      rw [execute_bind,execute_replayRows R policy hmem,cursorAfter_eq hseqs]
      cases hfold : (storedEvents batch).foldlM (Db.follow B R policy) db with
      | error e => rfl
      | ok db' =>
        have hevents := (follow_fold R hfold).1
        have hlog : db'.log = db.log := by rw [Db.log,hevents,Db.log]
        have hnext := @ih db' (hevents ▸ hc) (hevents ▸ hread) (cursor+batch.length)
          (replayed+batch.length) (by rw [hevents]; omega) (by rw [hlog,hlen,hevents])
        have hcount : replayed+batch.length+(db.events.rows.length-(cursor+batch.length)) =
            replayed+(db.events.rows.length-cursor) := by omega
        rw [hlog,hevents,hcount] at hnext
        exact hnext
    · rename_i hge
      rw [drop_of_length_le (by omega),Nat.sub_eq_zero_of_le (Nat.not_lt.mp hge)]
      rfl

theorem execute_replayRange {db : Db} (hc : Contiguous db.events) (hread : Readable db.events)
    (cursor : Nat) :
    (replayRange B R policy cursor db.head).execute (Db.exec B) db =
      ((db.log.drop cursor).foldlM (Db.follow B R policy) db).map
        (fun db' => (db.events.rows.length-cursor,db')) := by
  rw [replayRange,head_eq hc,execute_replayBatches R policy hc hread _ 0 (le_refl _),Nat.zero_add]

theorem effect_after_replayRange {db : Db} (hc : Contiguous db.events) (hread : Readable db.events)
    (cursor : Nat) (next : Tx Unit) :
    Prog.effect (Db.exec B) ((replayRange B R policy cursor db.head).bind fun _ => next) db =
      ((db.log.drop cursor).foldlM (Db.follow B R policy) db).bind
        (Prog.effect (Db.exec B) next) := by
  rw [effect_bind,execute_replayRange R policy hc hread]
  cases (db.log.drop cursor).foldlM (Db.follow B R policy) db with
  | error e => rfl
  | ok db' => rfl

theorem effect_replayRange {db : Db} (hc : Contiguous db.events) (hread : Readable db.events)
    (cursor : Nat) :
    Prog.effect (Db.exec B) ((replayRange B R policy cursor db.head).bind fun _ => .ret ()) db =
      (db.log.drop cursor).foldlM (Db.follow B R policy) db := by
  rw [effect_after_replayRange R policy hc hread]
  cases (db.log.drop cursor).foldlM (Db.follow B R policy) db with
  | error | ok => rfl

def ProjectionRegistry.carry (B : Backend) (R : ProjectionRegistry) (policy : SnapshotPolicy)
    (c : Catalog) (e : Event) : Except Failure Catalog :=
  (R.applyTo B c e).bind (fun c =>
    match policy with
    | none => .ok c
    | some cadence => if e.seq % cadence = 0 then (R.dump B c).map (fun _ => c) else .ok c)

theorem follow_catalog (policy : SnapshotPolicy) (db : Db) (e : Event) :
    (db.follow B R policy e).map Db.catalog = R.carry B policy db.catalog e := by
  unfold Db.follow ProjectionRegistry.carry
  cases R.applyTo B db.catalog e with
  | error f => rfl
  | ok c =>
    cases policy with
    | none => rfl
    | some cadence =>
      simp only [Except.bind,Db.snapshotAfter]
      split
      · cases R.dump B c with
        | error | ok => rfl
      · rfl

theorem follow_fold_catalog (es : List Event) (db : Db) :
    (es.foldlM (Db.follow B R policy) db).map Db.catalog =
      es.foldlM (R.carry B policy) db.catalog :=
  foldlM_simulates (follow_catalog R policy) es db

end

end ProjectOS.Log
