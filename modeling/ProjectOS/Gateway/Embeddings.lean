import ProjectOS.Lib.Scatter
import ProjectOS.Gateway.Adapter

/-! The vectors of an embeddings response. A row says which input it belongs to,
and its vector goes to that input's place whenever it comes. -/

namespace ProjectOS.Gateway
open Lib List

def asF64 : Value → Option Float
  | .number (.posInt n) => some (UInt64.ofNat n).toFloat
  | .number (.negInt n) => some (Int64.ofInt n).toFloat
  | .number (.float bits) => some (Float.ofBits bits)
  | _ => none

def embedDimMax : Nat := 1536

namespace Vectors

def new (dim : Nat) (vectors : List UInt32) (count : Nat) : Except Weather Vectors :=
  if dim = 0 ∨ embedDimMax < dim then
    .error (.malformedOutput s!"embedding dimension {dim} is outside 1..={embedDimMax}")
  else if vectors.length ≠ count*dim then
    .error (.malformedOutput
      s!"{vectors.length} floats for {count} inputs at dimension {dim} (expected {count*dim})")
  else .ok ⟨dim,vectors⟩

def count (batch : Vectors) : Nat := batch.rows.length/batch.dim

def vector (batch : Vectors) (index : Nat) : Option (List UInt32) :=
  if (index+1)*batch.dim ≤ batch.rows.length then
    some ((batch.rows.drop (index*batch.dim)).take batch.dim)
  else none

end Vectors

def component (value : Value) : Option UInt32 :=
  ((asF64 value).filter Float.isFinite).map fun number => number.toFloat32.toBits

def writeRow (index : Nat) : Nat → List Value → List UInt32 → Except Weather (List UInt32)
  | _,[],vectors => .ok vectors
  | slot,value :: values,vectors =>
    match component value with
    | none => .error (.malformedOutput s!"embedding row {index} carried a non-finite component")
    | some number => writeRow index (slot+1) values (vectors.set slot number)

def placeRow (dim count : Nat) (row : Value) (vectors : List UInt32) (seen : List Bool) :
    Except Weather (List UInt32 × List Bool) :=
  match ((row.get "index").bind Json.asU64).filter fun value => value < count with
  | none => .error (.malformedOutput "an embedding row carried no usable `index`")
  | some index =>
    match (row.get "embedding").bind Json.asArray with
    | none => .error (.malformedOutput s!"embedding row {index} carried no `embedding` array")
    | some values =>
      if values.length ≠ dim then
        .error (.malformedOutput
          s!"embedding row {index} is {values.length} wide, not the declared {dim}")
      else if seen.getD index false then
        .error (.malformedOutput s!"the endpoint returned index {index} twice")
      else
        match writeRow index (index*dim) values vectors with
        | .error weather => .error weather
        | .ok vectors => .ok (vectors,seen.set index true)

def placeRows (dim count : Nat) :
    List Value → List UInt32 → List Bool → Except Weather (List UInt32)
  | [],vectors,_ => .ok vectors
  | row :: rows,vectors,seen =>
    match placeRow dim count row vectors seen with
    | .error weather => .error weather
    | .ok placed => placeRows dim count rows placed.1 placed.2

def embedUsage (parsed : Value) (count character_count : Nat) : EmbedUsage :=
  let reported := ((parsed.get "usage").bind fun usage => usage.get "prompt_tokens").bind
    Json.asU64
  { tokens_in := reported.getD (estimateTokens character_count)
    padded_tokens := reported.getD (estimateTokens character_count)
    vector_count := count
    truncated_count := 0
    measured := reported.isSome }

def parseEmbeddings (from_slice : Bytes → Except String Value) (body : Bytes)
    (dim count character_count : Nat) : Except Weather (Vectors × EmbedUsage) :=
  match from_slice body with
  | .error error => .error (.malformedOutput s!"the embedding response was not JSON: {error}")
  | .ok parsed =>
    match (parsed.get "data").bind Json.asArray with
    | none => .error (.malformedOutput "the embedding response carried no `data` array")
    | some rows =>
      if rows.length ≠ count then
        .error (.malformedOutput s!"{rows.length} vectors for {count} inputs")
      else
        match placeRows dim count rows (List.replicate (count*dim) 0)
            (List.replicate count false) with
        | .error weather => .error weather
        | .ok vectors =>
          match Vectors.new dim vectors count with
          | .error weather => .error weather
          | .ok batch => .ok (batch,embedUsage parsed count character_count)

structure IsRow (dim : Nat) (item : Value) (row : Nat × List UInt32) : Prop where
  index : (item.get "index").bind Json.asU64 = some row.1
  vector : ∃ values, (item.get "embedding").bind Json.asArray = some values ∧
    values.length = dim ∧ values.map component = row.2.map some

/-- The answer has `count` rows, each index once. -/
structure Carries (dim count : Nat) (parsed : Value) (rows : List (Nat × List UInt32)) : Prop where
  data : ∃ items, (parsed.get "data").bind Json.asArray = some items ∧
    List.Forall₂ (IsRow dim) items rows
  indices : (rows.map Prod.fst).Perm (List.range count)

variable {dim count : Nat} {item : Value} {row : Nat × List UInt32}

theorem IsRow.length (h : IsRow dim item row) :
    row.2.length = dim := by
  obtain ⟨values,-,hlength,hmap⟩ := h.vector
  have hsame := congrArg List.length hmap
  rw [length_map,length_map] at hsame
  omega

variable {rows : List (Nat × List UInt32)} {items : List Value}

theorem isRow_length
    (h : List.Forall₂ (IsRow dim) items rows) : ∀ row ∈ rows, row.2.length = dim := by
  induction h with
  | nil => simp
  | cons hrow _ ih =>
    intro row hmem
    rw [mem_cons] at hmem
    obtain rfl | hmem := hmem
    · exact hrow.length
    · exact ih row hmem

variable {vectors : List UInt32}

theorem writeRow_ok_iff {index slot : Nat} {values : List Value} {written : List UInt32} :
    writeRow index slot values vectors = .ok written ↔
      ∃ numbers, values.map component = numbers.map some ∧
        written = Scatter.write slot numbers vectors := by
  induction values generalizing slot vectors with
  | nil =>
    simp only [writeRow,map_nil,Except.ok.injEq]
    constructor
    · rintro rfl
      exact ⟨[],rfl,rfl⟩
    · rintro ⟨numbers,hnil,rfl⟩
      rw [map_eq_nil_iff.mp hnil.symm]
      rfl
  | cons value values ih =>
    rw [writeRow,map_cons]
    cases hvalue : component value with
    | none =>
      simp only [reduceCtorEq,false_iff]
      rintro ⟨numbers,hmap,-⟩
      cases numbers with
      | nil | cons => simp at hmap
    | some number =>
      rw [ih]
      constructor
      · rintro ⟨numbers,hmap,rfl⟩
        exact ⟨number :: numbers,by rw [hmap,map_cons],rfl⟩
      · rintro ⟨numbers,hmap,rfl⟩
        cases numbers with
        | nil => simp at hmap
        | cons first numbers =>
          rw [map_cons,List.cons.injEq,Option.some.injEq] at hmap
          obtain ⟨rfl,hmap⟩ := hmap
          exact ⟨numbers,hmap,rfl⟩

variable {seen : List Bool}

theorem placeRow_ok_iff
    {placed : List UInt32 × List Bool} :
    placeRow dim count item vectors seen = .ok placed ↔
      ∃ row, IsRow dim item row ∧ row.1 < count ∧ seen.getD row.1 false = false ∧
        placed = (Scatter.write (row.1*dim) row.2 vectors,seen.set row.1 true) := by
  rw [placeRow]
  constructor
  · intro h
    split at h
    · cases h
    next index hindex =>
    rw [Option.filter_eq_some_iff,decide_eq_true_eq] at hindex
    split at h
    · cases h
    next values hvalues =>
    split at h
    · cases h
    next hwidth =>
    split at h
    · cases h
    next hseen =>
    split at h
    · cases h
    next written hwritten =>
    obtain ⟨numbers,hmap,rfl⟩ := writeRow_ok_iff.mp hwritten
    have hrow : IsRow dim item (index,numbers) :=
      ⟨hindex.1,values,hvalues,Decidable.not_not.mp hwidth,hmap⟩
    exact ⟨(index,numbers),hrow,hindex.2,Bool.eq_false_iff.mpr hseen,(Except.ok.inj h).symm⟩
  · rintro ⟨⟨index,numbers⟩,hrow,hindex,hseen,rfl⟩
    obtain ⟨values,hvalues,hwidth,hmap⟩ := hrow.vector
    have hwritten : writeRow index (index*dim) values vectors =
        .ok (Scatter.write (index*dim) numbers vectors) :=
      writeRow_ok_iff.mpr ⟨numbers,hmap,rfl⟩
    have hfilter : ((item.get "index").bind Json.asU64).filter (fun value => value < count) =
        some index := by
      rw [Option.filter_eq_some_iff,decide_eq_true_eq]
      exact ⟨hrow.index,hindex⟩
    simp only [hfilter,hvalues,hwidth,hseen,hwritten,ne_eq,not_true_eq_false,if_false,
      Bool.false_eq_true]

theorem getD_set_true {i j : Nat} (hi : i < seen.length) :
    (seen.set i true).getD j false = false ↔ j ≠ i ∧ seen.getD j false = false := by
  rw [getD_eq_getElem?_getD,getD_eq_getElem?_getD,List.getElem?_set]
  split
  next h =>
    subst h
    simp
  next h => simp [Ne.symm h]

theorem placeRows_ok_iff {placed : List UInt32} (hcount : seen.length = count) :
    placeRows dim count items vectors seen = .ok placed ↔
      ∃ rows, List.Forall₂ (IsRow dim) items rows ∧
        (∀ row ∈ rows, row.1 < count ∧ seen.getD row.1 false = false) ∧
        (rows.map Prod.fst).Nodup ∧ placed = Scatter.scatter dim rows vectors := by
  induction items generalizing vectors seen with
  | nil =>
    simp only [placeRows,Except.ok.injEq]
    constructor
    · rintro rfl
      exact ⟨[],.nil,by simp,by simp,rfl⟩
    · rintro ⟨rows,hrows,-,-,rfl⟩
      cases hrows
      rfl
  | cons item items ih =>
    rw [placeRows]
    constructor
    · intro h
      split at h
      · cases h
      next first hfirst =>
      obtain ⟨row,hrow,hindex,hfree,rfl⟩ := placeRow_ok_iff.mp hfirst
      have hlength : (seen.set row.1 true).length = count := by rw [length_set,hcount]
      obtain ⟨rows,hrows,hplaces,hnodup,rfl⟩ := (ih hlength).mp h
      have hothers : ∀ r ∈ rows, r.1 ≠ row.1 ∧ seen.getD r.1 false = false := fun r hr =>
        (getD_set_true (by omega)).mp (hplaces r hr).2
      refine ⟨row :: rows,.cons hrow hrows,?_,?_,rfl⟩
      · intro r hr
        rw [mem_cons] at hr
        obtain rfl | hr := hr
        · exact ⟨hindex,hfree⟩
        · exact ⟨(hplaces r hr).1,(hothers r hr).2⟩
      · rw [map_cons,nodup_cons]
        refine ⟨?_,hnodup⟩
        intro hmem
        obtain ⟨r,hr,hsame⟩ := mem_map.mp hmem
        exact (hothers r hr).1 hsame
    · rintro ⟨rows,hrows,hplaces,hnodup,rfl⟩
      cases hrows with
      | @cons _ row _ rows hrow hrows =>
        obtain ⟨hindex,hfree⟩ := hplaces row mem_cons_self
        rw [map_cons,nodup_cons] at hnodup
        have hlength : (seen.set row.1 true).length = count := by rw [length_set,hcount]
        rw [placeRow_ok_iff.mpr ⟨row,hrow,hindex,hfree,rfl⟩]
        apply (ih hlength).mpr
        refine ⟨rows,hrows,?_,hnodup.2,rfl⟩
        intro r hr
        obtain ⟨hbound,hopen⟩ := hplaces r (mem_cons_of_mem _ hr)
        refine ⟨hbound,(getD_set_true (by omega)).mpr ⟨?_,hopen⟩⟩
        intro hsame
        exact hnodup.1 (mem_map.mpr ⟨r,hr,hsame⟩)

theorem parseEmbeddings_ok_iff {from_slice : Bytes → Except String Value} {body : Bytes}
    {character_count : Nat} {answer : Vectors × EmbedUsage} :
    parseEmbeddings from_slice body dim count character_count = .ok answer ↔
      ∃ parsed rows, from_slice body = .ok parsed ∧ Carries dim count parsed rows ∧
        (1 ≤ dim ∧ dim ≤ embedDimMax) ∧
        answer = (⟨dim,Scatter.scatter dim rows (List.replicate (count*dim) 0)⟩,
          embedUsage parsed count character_count) := by
  have hseen : (List.replicate count false).length = count := length_replicate
  rw [parseEmbeddings]
  constructor
  · intro h
    split at h
    · cases h
    next parsed hparsed =>
    split at h
    · cases h
    next items hitems =>
    split at h
    · cases h
    next hcount =>
    split at h
    · cases h
    next placed hplaced =>
    obtain ⟨rows,hrows,hplaces,hnodup,rfl⟩ := (placeRows_ok_iff hseen).mp hplaced
    split at h
    · cases h
    next batch hbatch =>
    cases h
    have hperm : (rows.map Prod.fst).Perm (List.range count) := by
      refine Scatter.perm_range_iff.mpr ⟨?_,hnodup,?_⟩
      · rw [length_map,← hrows.length_eq]
        exact Decidable.not_not.mp hcount
      · intro i hi
        obtain ⟨row,hrow,rfl⟩ := mem_map.mp hi
        exact (hplaces row hrow).1
    rw [Vectors.new] at hbatch
    split at hbatch
    · cases hbatch
    next hdim =>
    split at hbatch
    · cases hbatch
    cases hbatch
    exact ⟨parsed,rows,hparsed,⟨⟨items,hitems,hrows⟩,hperm⟩,by omega,rfl⟩
  · rintro ⟨parsed,rows,hparsed,⟨⟨items,hitems,hrows⟩,hperm⟩,hdim,rfl⟩
    obtain ⟨hlength,hnodup,hbound⟩ := Scatter.perm_range_iff.mp hperm
    have hcount : items.length = count := by
      rw [hrows.length_eq,← hlength,length_map]
    have hplaced : placeRows dim count items (List.replicate (count*dim) 0)
        (List.replicate count false) =
          .ok (Scatter.scatter dim rows (List.replicate (count*dim) 0)) := by
      refine (placeRows_ok_iff hseen).mpr ⟨rows,hrows,?_,hnodup,rfl⟩
      intro row hrow
      have hindex := hbound row.1 (mem_map_of_mem hrow)
      simp [getD_eq_getElem?_getD,hindex]
    have hnew : ¬ (dim = 0 ∨ embedDimMax < dim) := by omega
    simp [hparsed,hitems,hcount,hplaced,Vectors.new,hnew]

theorem vector_scatter {parsed : Value} (h : Carries dim count parsed rows) (hrow : row ∈ rows) :
    (Vectors.mk dim (Scatter.scatter dim rows (List.replicate (count*dim) 0))).vector row.1 =
      some row.2 := by
  obtain ⟨items,-,hitems⟩ := h.data
  obtain ⟨-,hnodup,hbound⟩ := Scatter.perm_range_iff.mp h.indices
  have hroom : ∀ r ∈ rows, (r.1+1)*dim ≤ (List.replicate (count*dim) (0 : UInt32)).length := by
    intro r hr
    rw [length_replicate]
    exact Nat.mul_le_mul_right dim (hbound r.1 (mem_map_of_mem hr))
  have hread := Scatter.rowAt_scatter (isRow_length hitems) hroom hnodup hrow
  rw [Scatter.rowAt] at hread
  simp only [Vectors.vector,Scatter.length_scatter]
  rw [if_pos (hroom row hrow),hread]

/-- A response is taken if it has one vector of finite numbers for each input and
the width is one the seam carries. Each input's place then holds the vector of
the row that names it, in whatever order the rows came. -/
theorem parseEmbeddings_rows (from_slice : Bytes → Except String Value) (body : Bytes)
    (dim count character_count : Nat) :
    ((parseEmbeddings from_slice body dim count character_count).isOk = true ↔
      (1 ≤ dim ∧ dim ≤ embedDimMax) ∧
        ∃ parsed rows, from_slice body = .ok parsed ∧ Carries dim count parsed rows) ∧
    ∀ parsed rows answer, from_slice body = .ok parsed → Carries dim count parsed rows →
      parseEmbeddings from_slice body dim count character_count = .ok answer →
      answer.1.dim = dim ∧ answer.1.count = count ∧
        ∀ row ∈ rows, answer.1.vector row.1 = some row.2 := by
  refine ⟨⟨?_,?_⟩,?_⟩
  · intro h
    cases hanswer : parseEmbeddings from_slice body dim count character_count with
    | error weather =>
      rw [hanswer] at h
      cases h
    | ok answer =>
      obtain ⟨parsed,rows,hparsed,hrows,hdim,-⟩ := parseEmbeddings_ok_iff.mp hanswer
      exact ⟨hdim,parsed,rows,hparsed,hrows⟩
  · rintro ⟨hdim,parsed,rows,hparsed,hrows⟩
    rw [parseEmbeddings_ok_iff.mpr ⟨parsed,rows,hparsed,hrows,hdim,rfl⟩]
    rfl
  · intro parsed rows answer hparsed hrows hanswer
    obtain ⟨-,-,-,-,hdim,-⟩ := parseEmbeddings_ok_iff.mp hanswer
    -- The answer is the one these rows make.
    rw [parseEmbeddings_ok_iff.mpr ⟨parsed,rows,hparsed,hrows,hdim,rfl⟩] at hanswer
    cases hanswer
    refine ⟨rfl,?_,fun row hrow => vector_scatter hrows hrow⟩
    rw [Vectors.count,Scatter.length_scatter,length_replicate]
    exact Nat.mul_div_cancel count hdim.1

def emptyRow : Value :=
  .object [("data",.array [.object [("index",.number (.posInt 0)),("embedding",.array [])]])]

/-- A response of width zero carries its row and is refused. -/
theorem emptyRow_refused : ¬ ((parseEmbeddings (fun _ => .ok emptyRow) [] 0 1 0).isOk = true ↔
    ∃ parsed rows, (fun _ : Bytes => Except.ok emptyRow : Bytes → Except String Value) [] =
      .ok parsed ∧ Carries 0 1 parsed rows) := by
  have hcarries : Carries 0 1 emptyRow [(0,[])] := by
    refine ⟨⟨_,rfl,.cons ⟨rfl,[],rfl,rfl,rfl⟩ .nil⟩,?_⟩
    decide
  intro h
  have hok := h.mpr ⟨emptyRow,[(0,[])],rfl,hcarries⟩
  cases hok

end ProjectOS.Gateway
