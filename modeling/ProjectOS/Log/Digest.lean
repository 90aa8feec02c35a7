import ProjectOS.Log.Verify

/-! What the schema digest is the hash of: names, versions, types and index
columns one after another, with no mark between them. -/

namespace ProjectOS.Log
open Lib Domain List

def ProjectionRegistry.digestInput (R : ProjectionRegistry) : Bytes :=
  R.tables.flatMap TableDef.digestInput

def columnBytes (c : ColumnDef) : Bytes := utf8 c.name ++ utf8 c.kind.sqlType

def indexText (t : TableDef) : Bytes := t.indexes.flatMap (fun i => utf8 i.name ++ i.columns.flatMap utf8)

/-- A table as bytes: the text that ends with its name, its version and its columns,
keys first. -/
structure Section where
  lead : Bytes
  version : Nat
  columns : List ColumnDef
  deriving DecidableEq

/-- The sections of a registry, and the index text left over: a table's index text
runs into the name of the next table. -/
def sections : Bytes → List TableDef → List Section × Bytes
  | lead, [] => ([],lead)
  | lead, t :: rest =>
    (⟨lead ++ utf8 t.name,t.version,t.columns⟩ :: (sections (indexText t) rest).1,
      (sections (indexText t) rest).2)

def ProjectionRegistry.sections (R : ProjectionRegistry) : List Section × Bytes :=
  Log.sections [] R.tables

def Section.bytes (s : Section) : Bytes :=
  s.lead ++ beBytes32 s.version ++ s.columns.flatMap columnBytes

theorem sections_bytes (lead : Bytes) (ts : List TableDef) :
    lead ++ ts.flatMap TableDef.digestInput =
      (sections lead ts).1.flatMap Section.bytes ++ (sections lead ts).2 := by
  induction ts generalizing lead with
  | nil => simp [sections]
  | cons t rest ih =>
    have htable : t.digestInput =
        utf8 t.name ++ beBytes32 t.version ++ t.columns.flatMap columnBytes ++ indexText t := rfl
    simp only [sections,flatMap_cons,Section.bytes,htable,append_assoc]
    rw [ih]

def soft (b : UInt8) : Bool := b ≠ 0 && !(65 ≤ b && b ≤ 90)

def softText (s : String) : Bool := (utf8 s).all soft

/-- No text of the definition holds a byte that the digest could take for a delimiter. -/
structure TableDef.Plain (t : TableDef) : Prop where
  version : t.version < 2^24
  name : softText t.name
  columns : ∀ c ∈ t.columns, softText c.name
  indexes : ∀ i ∈ t.indexes, softText i.name ∧ ∀ c ∈ i.columns, softText c

def ProjectionRegistry.Plain (R : ProjectionRegistry) : Prop := ∀ t ∈ R.tables, t.Plain

structure Section.Plain (s : Section) : Prop where
  lead : ∀ b ∈ s.lead, soft b
  version : s.version < 2^24
  columns : ∀ c ∈ s.columns, softText c.name

theorem indexText_soft {t : TableDef} (h : t.Plain) : ∀ b ∈ indexText t, soft b := by
  intro b hb
  obtain ⟨i,hi,hb⟩ := mem_flatMap.mp hb
  obtain ⟨hname,hcolumns⟩ := h.indexes i hi
  rcases mem_append.mp hb with hb | hb
  · exact all_eq_true.mp hname b hb
  · obtain ⟨c,hc,hb⟩ := mem_flatMap.mp hb
    exact all_eq_true.mp (hcolumns c hc) b hb

theorem sections_plain {lead : Bytes} {ts : List TableDef} (hlead : ∀ b ∈ lead, soft b)
    (h : ∀ t ∈ ts, t.Plain) :
    (∀ s ∈ (sections lead ts).1, s.Plain) ∧ ∀ b ∈ (sections lead ts).2, soft b := by
  induction ts generalizing lead with
  | nil => simpa [sections] using hlead
  | cons t rest ih =>
    have ht := h t (by simp)
    obtain ⟨hall,hlast⟩ := ih (indexText_soft ht) (fun u hu => h u (by simp [hu]))
    refine ⟨?_,hlast⟩
    intro s hs
    rcases mem_cons.mp hs with rfl | hs
    · refine ⟨?_,ht.version,ht.columns⟩
      intro b hb
      rcases mem_append.mp hb with hb | hb
      · exact hlead b hb
      · exact all_eq_true.mp ht.name b hb
    · exact hall s hs

theorem sqlType_delimits : Delimits (fun _ => True) (fun k : ColumnKind => utf8 k.sqlType) := by
  intro a b x y _ _ he
  cases a <;> cases b <;> simp [ColumnKind.sqlType,utf8,String.utf8EncodeChar] at he <;> simp [he]

theorem sqlType_head (k : ColumnKind) (rest : Bytes) :
    ∃ b tail, utf8 k.sqlType ++ rest = b :: tail ∧ soft b = false ∧ b ≠ 0 := by
  cases k
  case integer => exact ⟨73,_,rfl,by decide,by decide⟩
  case text => exact ⟨84,_,rfl,by decide,by decide⟩
  case blob => exact ⟨66,_,rfl,by decide,by decide⟩

theorem beBytes32_eq (n : Nat) : beBytes32 n = beBytes 4 n := by
  simp [beBytes32,beBytes,Nat.div_div_eq_div_mul]

theorem beBytes32_head {n : Nat} (h : n < 2^24) : (beBytes32 n).head? = some 0 := by
  have hzero : n/2^24 = 0 := Nat.div_eq_of_lt h
  simp only [beBytes32,hzero,map_cons,List.head?_cons]
  rfl

def Stops (rest : Bytes) : Prop :=
  ∃ u v, rest = u ++ v ∧ (∀ b ∈ u, soft b) ∧ ∀ b ∈ v.head?, b = 0

theorem columns_inj {cs ds : List ColumnDef} {x y : Bytes} (hc : ∀ c ∈ cs, softText c.name)
    (hd : ∀ d ∈ ds, softText d.name) (hx : Stops x) (hy : Stops y)
    (h : cs.flatMap columnBytes ++ x = ds.flatMap columnBytes ++ y) : cs = ds ∧ x = y := by
  -- a list that ends where the other has a column would have to show a capital
  have hends : ∀ (d : ColumnDef) (rest z : Bytes), softText d.name → Stops z →
      z ≠ columnBytes d ++ rest := by
    rintro d rest z hname ⟨u,v,rfl,hu,hv⟩ he
    obtain ⟨b,tail,hb,hsoft,hne⟩ := sqlType_head d.kind rest
    rw [columnBytes,append_assoc,hb] at he
    have hspan := span_inj (p := soft) hu (all_eq_true.mp hname)
      (by intro c hc; rw [hv c hc]; decide) (by simp [hsoft]) he
    exact hne (hv b (by simp [hspan.2]))
  induction cs generalizing ds with
  | nil =>
    cases ds with
    | nil => simpa using h
    | cons d ds =>
      rw [flatMap_cons,append_assoc] at h
      exact absurd h (hends d _ x (hd d (by simp)) hx)
  | cons c cs ih =>
    cases ds with
    | nil =>
      rw [flatMap_cons,append_assoc] at h
      exact absurd h.symm (hends c _ y (hc c (by simp)) hy)
    | cons d ds =>
      simp only [flatMap_cons,columnBytes,append_assoc] at h
      have hcHead : ∀ r : Bytes, ∀ b ∈ (utf8 c.kind.sqlType ++ r).head?, ¬soft b := by
        intro r b hb
        obtain ⟨b',tail,heq,hsoft,-⟩ := sqlType_head c.kind r
        simp_all
      have hdHead : ∀ r : Bytes, ∀ b ∈ (utf8 d.kind.sqlType ++ r).head?, ¬soft b := by
        intro r b hb
        obtain ⟨b',tail,heq,hsoft,-⟩ := sqlType_head d.kind r
        simp_all
      obtain ⟨hname,hrest⟩ := span_inj (p := soft) (all_eq_true.mp (hc c (by simp)))
        (all_eq_true.mp (hd d (by simp))) (hcHead _) (hdHead _) h
      obtain ⟨hkind,hrest⟩ := sqlType_delimits _ _ _ _ trivial trivial hrest
      obtain ⟨hlist,hxy⟩ := ih (fun e he => hc e (by simp [he])) (fun e he => hd e (by simp [he])) hrest
      have hcd : c = d := by
        cases c
        cases d
        simp only [ColumnDef.mk.injEq]
        exact ⟨utf8_inj hname,hkind⟩
      exact ⟨by rw [hlist,hcd],hxy⟩

theorem section_stops {ss : List Section} {last : Bytes} (h : ∀ s ∈ ss, s.Plain)
    (hlast : ∀ b ∈ last, soft b) : Stops (ss.flatMap Section.bytes ++ last) := by
  cases ss with
  | nil => exact ⟨last,[],by simp,hlast,by simp⟩
  | cons s rest =>
    have hs := h s (by simp)
    refine ⟨s.lead,beBytes32 s.version ++ s.columns.flatMap columnBytes ++
      (rest.flatMap Section.bytes ++ last),by simp [Section.bytes],hs.lead,?_⟩
    intro b hb
    rw [append_assoc,List.head?_append,beBytes32_head hs.version] at hb
    simpa using hb.symm

theorem sections_inj {ss tt : List Section} {l m : Bytes} (hs : ∀ s ∈ ss, s.Plain)
    (ht : ∀ t ∈ tt, t.Plain) (hl : ∀ b ∈ l, soft b) (hm : ∀ b ∈ m, soft b)
    (h : ss.flatMap Section.bytes ++ l = tt.flatMap Section.bytes ++ m) : ss = tt ∧ l = m := by
  -- a table's version holds a NUL, which the text behind the last table does not
  have hends : ∀ (s : Section) (rest z : Bytes), s.Plain → (∀ b ∈ z, soft b) →
      z ≠ s.bytes ++ rest := by
    intro s rest z hplain hz he
    obtain ⟨tail,htail⟩ := List.head?_eq_some_iff.mp (beBytes32_head hplain.version)
    have hzero : (0 : UInt8) ∈ z := by simp [he,Section.bytes,htail]
    exact absurd (hz 0 hzero) (by decide)
  induction ss generalizing tt with
  | nil =>
    cases tt with
    | nil => simpa using h
    | cons t tt =>
      rw [flatMap_cons,append_assoc] at h
      exact absurd h (hends t _ l (ht t (by simp)) hl)
  | cons s ss ih =>
    cases tt with
    | nil =>
      rw [flatMap_cons,append_assoc] at h
      exact absurd h.symm (hends s _ m (hs s (by simp)) hm)
    | cons t tt =>
      have hps := hs s (by simp)
      have hpt := ht t (by simp)
      have hss : ∀ x ∈ ss, x.Plain := fun x hx => hs x (by simp [hx])
      have htt : ∀ x ∈ tt, x.Plain := fun x hx => ht x (by simp [hx])
      have hhead : ∀ (s : Section), s.Plain → ∀ rest : Bytes,
          ∀ b ∈ (beBytes32 s.version ++ rest).head?, ¬soft b := by
        intro s hplain rest b hb
        rw [List.head?_append,beBytes32_head hplain.version] at hb
        obtain rfl : 0 = b := by simpa using hb
        decide
      simp only [flatMap_cons,Section.bytes,append_assoc] at h
      obtain ⟨hlead,hrest⟩ := span_inj (p := soft) hps.lead hpt.lead
        (hhead s hps _) (hhead t hpt _) h
      rw [beBytes32_eq,beBytes32_eq] at hrest
      have hsv := hps.version
      have htv := hpt.version
      obtain ⟨hversion,hrest⟩ := beBytes_delimits 4 _ _ _ _ (by omega) (by omega) hrest
      obtain ⟨hcolumns,hrest⟩ := columns_inj hps.columns hpt.columns (section_stops hss hl)
        (section_stops htt hm) hrest
      obtain ⟨hlist,hlast⟩ := ih hss htt hrest
      refine ⟨?_,hlast⟩
      rw [hlist,show s = t from by cases s; cases t; simp_all]

variable {R : ProjectionRegistry}

theorem digestInput_eq_iff {R' : ProjectionRegistry} (h : R.Plain) (h' : R'.Plain) :
    R.digestInput = R'.digestInput ↔ R.sections = R'.sections := by
  have hbytes : ∀ R : ProjectionRegistry,
      R.digestInput = R.sections.1.flatMap Section.bytes ++ R.sections.2 :=
    fun R => sections_bytes [] R.tables
  rw [hbytes,hbytes]
  constructor
  · intro he
    obtain ⟨hs,hl⟩ := @sections_plain [] _ (by simp) h
    obtain ⟨ht,hm⟩ := @sections_plain [] _ (by simp) h'
    obtain ⟨hsections,hlast⟩ := sections_inj hs ht hl hm he
    exact Prod.ext hsections hlast
  · intro he
    rw [he]

def TableDef.withBlankIndex (t : TableDef) : TableDef := { t with indexes := t.indexes ++ [⟨"",[]⟩] }

theorem withBlankIndex_ne (t : TableDef) : t.withBlankIndex ≠ t := by
  intro he
  have hlen := congrArg (fun u => u.indexes.length) he
  simp [TableDef.withBlankIndex] at hlen

theorem withBlankIndex_digestInput (t : TableDef) : t.withBlankIndex.digestInput = t.digestInput := by
  simp [TableDef.digestInput,TableDef.withBlankIndex,TableDef.columns,utf8]

theorem withBlankIndex_shapeErrors (previous : String) (t : TableDef) (ts : List TableDef) :
    shapeErrors previous (t.withBlankIndex :: ts) = shapeErrors previous (t :: ts) := by
  have hdeclares : t.withBlankIndex.declares = t.declares := rfl
  have hshape : t.withBlankIndex.shapeError previous = t.shapeError previous := by
    unfold TableDef.shapeError
    rw [hdeclares,TableDef.withBlankIndex,List.findSome?_append]
    simp only [List.findSome?_cons,List.findSome?_nil,List.find?_nil,Option.map_none,Option.or_none]
  rw [shapeErrors,shapeErrors,hshape]
  rfl

def ProjectionRegistry.withBlankIndex (R : ProjectionRegistry) (p : Projection) (rest : List Projection)
    (h : R.projections = p :: rest) : ProjectionRegistry where
  projections := { p with table := p.table.withBlankIndex } :: rest
  bounded := by simpa [h] using R.bounded
  ordered := by
    have hordered := R.ordered
    rw [h,pairwise_cons] at hordered
    exact pairwise_cons.mpr hordered
  accepted := by
    have haccepted := R.accepted
    rw [h,map_cons] at haccepted
    rw [map_cons,withBlankIndex_shapeErrors]
    exact haccepted

theorem withBlankIndex_tables {p : Projection} {rest : List Projection}
    (h : R.projections = p :: rest) :
    (R.withBlankIndex p rest h).tables = p.table.withBlankIndex :: rest.map Projection.table := rfl

theorem digestInput_ne_nil (h : R.tables ≠ []) : R.digestInput ≠ [] := by
  obtain ⟨t,rest,ht⟩ := exists_cons_of_ne_nil h
  simp [ProjectionRegistry.digestInput,ht,TableDef.digestInput,beBytes32]

theorem every_change_detected_iff (R : ProjectionRegistry) :
    (∀ R' : ProjectionRegistry, R'.tables ≠ R.tables → R'.digestInput ≠ R.digestInput) ↔
      R.tables = [] := by
  constructor
  · intro h
    by_contra hne
    obtain ⟨p,rest,hp⟩ : ∃ p rest, R.projections = p :: rest :=
      exists_cons_of_ne_nil (by simpa [ProjectionRegistry.tables] using hne)
    have htables : R.tables = p.table :: rest.map Projection.table := by
      rw [ProjectionRegistry.tables,hp,map_cons]
    refine h (R.withBlankIndex p rest hp) ?_ ?_
    · rw [withBlankIndex_tables,htables]
      exact fun he => withBlankIndex_ne p.table (List.cons.inj he).1
    · rw [ProjectionRegistry.digestInput,ProjectionRegistry.digestInput,withBlankIndex_tables,htables,
        flatMap_cons,flatMap_cons,withBlankIndex_digestInput]
  · intro h R' hne
    rw [h] at hne
    rw [show R.digestInput = [] by simp [ProjectionRegistry.digestInput,h]]
    exact digestInput_ne_nil hne

/-- A change of schema shows in the hashed bytes, between registries with plain names,
exactly when it shows in a table's name (behind the index text before it), a version or
the columns in order; and no registry with a table is safe from every change. -/
theorem schema_change_detected_iff (R : ProjectionRegistry) :
    (∀ R' : ProjectionRegistry, R.Plain → R'.Plain →
      (R.digestInput ≠ R'.digestInput ↔ R.sections ≠ R'.sections)) ∧
    ((∀ R' : ProjectionRegistry, R'.tables ≠ R.tables → R'.digestInput ≠ R.digestInput) ↔
      R.tables = []) :=
  ⟨fun _ h h' => not_congr (digestInput_eq_iff h h'),every_change_detected_iff R⟩

def perEvent : ProjectionRegistry :=
  ⟨[⟨⟨"proj_latest",1,[⟨"device",.blob⟩,⟨"seq",.integer⟩],[⟨"body",.blob⟩],[]⟩,fun _ => .ok []⟩],
    by decide,by simp,by decide⟩

def perDevice : ProjectionRegistry :=
  ⟨[⟨⟨"proj_latest",1,[⟨"device",.blob⟩],[⟨"seq",.integer⟩,⟨"body",.blob⟩],[]⟩,fun _ => .ok []⟩],
    by decide,by simp,by decide⟩

/-- Where the key ends is not hashed. -/
theorem key_split_undetected :
    perEvent.tables ≠ perDevice.tables ∧ perEvent.digestInput = perDevice.digestInput := by
  decide

end ProjectOS.Log
