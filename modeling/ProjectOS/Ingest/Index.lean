import ProjectOS.Ingest.Records

/-! The index over a text cut into records: its segments are in order and apart,
they hold all the content, and each names the lines its content stands on. -/

namespace ProjectOS.Ingest
open Lib Domain List

def Segment.covers (s : Segment) (n : Nat) : Bool := decide (s.byte_start ≤ n ∧ n < s.byte_end)

theorem Segment.covers_iff {s : Segment} {n : Nat} :
    s.covers n = true ↔ s.byte_start ≤ n ∧ n < s.byte_end := decide_eq_true_iff

def Segment.slice (s : Segment) (text : Bytes) : Bytes :=
  (text.drop s.byte_start).take (s.byte_end-s.byte_start)

def ContentAt (text : Bytes) (s : Segment) (n : Nat) : Prop :=
  s.covers n = true ∧ ∃ b, text[n]? = some b ∧ isAsciiWhitespace b = false

def OnLines (text : Bytes) (s : Segment) : Prop :=
  ∃ first last, ContentAt text s first ∧ ContentAt text s last ∧
    (∀ n, ContentAt text s n → first ≤ n ∧ n ≤ last) ∧
    s.locator = .lineRange (lineBehind (text.take first)) (lineBehind (text.take last))

/-- The segments are in order, and cover what is not blank once. -/
structure Indexes (shape : EvidenceShape) (text : Bytes) (segments : List Segment) : Prop where
  ordered : segments.Pairwise fun s t => s.byte_end ≤ t.byte_start
  within : ∀ s ∈ segments, s.byte_start ≤ s.byte_end ∧ s.byte_end ≤ text.length
  covered : ∀ n b, text[n]? = some b → isAsciiWhitespace b = false →
    segments.countP (fun s => s.covers n) = 1
  lines : shape ≠ .thread → shape ≠ .message → ∀ s ∈ segments, OnLines text s

section
variable {markdown : Bool} {shape : EvidenceShape} {before : Bytes} {index : Nat}
  {records : List Bytes}

theorem mem_segmentsOf {s : Segment} (h : s ∈ segmentsOf markdown shape before index records) :
    ∃ early record late number, records = early ++ record :: late ∧ hasContent record = true ∧
      s = segmentOf markdown shape (before ++ early.flatten) number record := by
  induction records generalizing before index with
  | nil => simp [segmentsOf] at h
  | cons first records ih =>
    have hlater : ∀ number, s ∈ segmentsOf markdown shape (before ++ first) number records →
        ∃ early record late number, first :: records = early ++ record :: late ∧
          hasContent record = true ∧
          s = segmentOf markdown shape (before ++ early.flatten) number record := by
      intro number hs
      obtain ⟨early,record,late,i,rfl,hfull,rfl⟩ := ih hs
      exact ⟨first :: early,record,late,i,rfl,hfull,by simp⟩
    rw [segmentsOf] at h
    split_ifs at h with hfirst
    · rcases mem_cons.mp h with rfl | h
      · exact ⟨[],first,records,index,rfl,hfirst,by simp⟩
      · exact hlater _ h
    · exact hlater _ h

theorem exists_segmentOf (markdown : Bool) (shape : EvidenceShape) (before : Bytes) (index : Nat)
    {records : List Bytes} {record : Bytes} (h : record ∈ records)
    (hfull : hasContent record = true) :
    ∃ s ∈ segmentsOf markdown shape before index records,
      s.byte_end-s.byte_start = record.length := by
  induction records generalizing before index with
  | nil => simp at h
  | cons first records ih =>
    rw [segmentsOf]
    rcases mem_cons.mp h with rfl | h
    · rw [if_pos hfull]
      exact ⟨_,mem_cons_self,by simp [segmentOf]⟩
    · split_ifs
      · obtain ⟨s,hs,hlen⟩ := ih (before ++ first) (index+1) h
        exact ⟨s,mem_cons_of_mem _ hs,hlen⟩
      · exact ih _ _ h

theorem le_segmentsOf {s : Segment} (h : s ∈ segmentsOf markdown shape before index records) :
    before.length ≤ s.byte_start := by
  obtain ⟨early,record,late,number,-,-,rfl⟩ := mem_segmentsOf h
  simp [segmentOf]

theorem segmentsOf_ordered :
    (segmentsOf markdown shape before index records).Pairwise fun s t =>
      s.byte_end ≤ t.byte_start := by
  induction records generalizing before index with
  | nil => exact List.Pairwise.nil
  | cons first records ih =>
    rw [segmentsOf]
    split_ifs
    · refine List.Pairwise.cons ?_ ih
      intro s hs
      simpa [segmentOf] using le_segmentsOf hs
    · exact ih

theorem segmentsOf_avoid {n : Nat} (hn : n < before.length) :
    (segmentsOf markdown shape before index records).countP (fun s => s.covers n) = 0 := by
  rw [countP_eq_zero]
  intro s hs
  have hle := le_segmentsOf hs
  simp only [Segment.covers,decide_eq_true_eq,not_and]
  omega

theorem segmentsOf_cover {n : Nat} {b : UInt8} (hn : before.length ≤ n)
    (h : (before ++ records.flatten)[n]? = some b) (hb : isAsciiWhitespace b = false) :
    (segmentsOf markdown shape before index records).countP (fun s => s.covers n) = 1 := by
  induction records generalizing before index with
  | nil =>
    rw [flatten_nil,append_nil,List.getElem?_eq_none hn] at h
    cases h
  | cons first records ih =>
    rw [flatten_cons,← append_assoc] at h
    by_cases hin : n < (before ++ first).length
    · have hfirst : hasContent first = true := by
        rw [List.getElem?_append_left hin,List.getElem?_append_right hn] at h
        rw [hasContent,any_eq_true]
        exact ⟨b,mem_of_getElem? h,by simp [hb]⟩
      have hcovers : (segmentOf markdown shape before index first).covers n = true := by
        rw [length_append] at hin
        simp [Segment.covers,segmentOf,hn,hin]
      rw [segmentsOf,if_pos hfirst,countP_cons,segmentsOf_avoid hin,if_pos hcovers]
    · have hnot : (segmentOf markdown shape before index first).covers n = false := by
        rw [length_append] at hin
        exact decide_eq_false (by simp only [segmentOf]; omega)
      rw [segmentsOf]
      split_ifs
      · rw [countP_cons,if_neg (by simp [hnot])]
        exact ih (Nat.not_lt.mp hin) h
      · exact ih (Nat.not_lt.mp hin) h

end

variable {record : Bytes}

theorem leadingBlanks_split (h : hasContent record = true) :
    ∃ b rest, record = leadingBlanks record ++ b :: rest ∧ isAsciiWhitespace b = false := by
  have hrest : record.dropWhile isAsciiWhitespace ≠ [] := by
    rw [ne_eq,dropWhile_eq_nil_iff,← hasContent_eq_false,h]
    simp
  obtain ⟨b,rest,hb⟩ := exists_cons_of_ne_nil hrest
  have hhead := head_dropWhile_not isAsciiWhitespace hrest
  simp only [hb,head_cons] at hhead
  refine ⟨b,rest,?_,by simpa using hhead⟩
  rw [← hb,leadingBlanks,takeWhile_append_dropWhile]

theorem uptoLastContent_split (h : hasContent record = true) :
    ∃ front b blanks, record = front ++ b :: blanks ∧ uptoLastContent record = front ++ [b] ∧
      isAsciiWhitespace b = false ∧ ∀ c ∈ blanks, isAsciiWhitespace c = true := by
  have hne : record.rdropWhile isAsciiWhitespace ≠ [] := by
    rw [ne_eq,rdropWhile_eq_nil_iff,← hasContent_eq_false,h]
    simp
  have hlast := rdropWhile_last_not isAsciiWhitespace record hne
  have hfront := dropLast_append_getLast hne
  refine ⟨_,_,record.rtakeWhile isAsciiWhitespace,?_,hfront.symm,by simpa using hlast,?_⟩
  · rw [append_cons,hfront,rdropWhile_append_rtakeWhile]
  · exact fun c hc => mem_rtakeWhile_imp hc

variable {markdown : Bool} {shape : EvidenceShape}

theorem contentAt_segmentOf {before after : Bytes} {index n : Nat} :
    ContentAt (before ++ record ++ after) (segmentOf markdown shape before index record) n ↔
      ∃ k b, n = before.length+k ∧ record[k]? = some b ∧ isAsciiWhitespace b = false := by
  rw [ContentAt,Segment.covers_iff]
  simp only [segmentOf]
  constructor
  · rintro ⟨⟨hle,hlt⟩,b,hget,hb⟩
    refine ⟨n-before.length,b,by omega,?_,hb⟩
    rwa [append_assoc,List.getElem?_append_right hle,List.getElem?_append_left (by omega)]
      at hget
  · rintro ⟨k,b,rfl,hget,hb⟩
    have hk : k < record.length := (List.getElem?_eq_some_iff.mp hget).1
    refine ⟨by omega,b,?_,hb⟩
    rwa [append_assoc,List.getElem?_append_right (by omega),Nat.add_sub_cancel_left,
      List.getElem?_append_left hk]

theorem segmentOf_onLines {before after : Bytes} {index : Nat} (hthread : shape ≠ .thread)
    (hmessage : shape ≠ .message) (h : hasContent record = true) :
    OnLines (before ++ record ++ after) (segmentOf markdown shape before index record) := by
  obtain ⟨b,rest,hlead,hb⟩ := leadingBlanks_split h
  obtain ⟨front,d,blanks,hrecord,hupto,hd,hblanks⟩ := uptoLastContent_split h
  have hfirst : (before ++ record ++ after).take (before.length+(leadingBlanks record).length) =
      before ++ leadingBlanks record := by
    generalize leadingBlanks record = blanks at hlead
    subst hlead
    rw [append_assoc,append_assoc,← append_assoc,← length_append,
      take_left]
  have hlast : (before ++ record ++ after).take (before.length+front.length) = before ++ front := by
    rw [hrecord,append_assoc,append_assoc,← append_assoc,← length_append,
      take_left]
  have hne : d ≠ newline := by
    rintro rfl
    cases hd
  refine ⟨before.length+(leadingBlanks record).length,before.length+front.length,?_,?_,?_,?_⟩
  · rw [contentAt_segmentOf]
    refine ⟨_,b,rfl,?_,hb⟩
    have hget := congrArg (fun xs => xs[(leadingBlanks record).length]?) hlead
    simpa using hget
  · rw [contentAt_segmentOf]
    exact ⟨_,d,rfl,by rw [hrecord]; simp,hd⟩
  · intro n hn
    rw [contentAt_segmentOf] at hn
    obtain ⟨k,c,rfl,hget,hc⟩ := hn
    constructor
    · by_contra hlt
      have hk : k < (leadingBlanks record).length := by omega
      rw [hlead,List.getElem?_append_left hk] at hget
      rw [mem_takeWhile_imp (mem_of_getElem? hget)] at hc
      cases hc
    · by_contra hlt
      have hk : front.length+1 ≤ k := by omega
      rw [hrecord,append_cons,List.getElem?_append_right (by simpa using hk)] at hget
      rw [hblanks c (mem_of_getElem? hget)] at hc
      cases hc
  · rw [hfirst,hlast]
    have hline : lineBehind (before ++ uptoLastContent record) = lineBehind (before ++ front) := by
      rw [hupto,← append_assoc,lineBehind_snoc,if_neg hne,Nat.add_zero]
    rw [← hline]
    cases shape with
    | thread => exact absurd rfl hthread
    | message => exact absurd rfl hmessage
    | transcript | document | table => rfl

theorem segmentsOf_indexes (markdown : Bool) (shape : EvidenceShape) (records : List Bytes) :
    Indexes shape records.flatten (segmentsOf markdown shape [] 0 records) where
  ordered := segmentsOf_ordered
  within s hs := by
    obtain ⟨early,record,late,number,rfl,-,rfl⟩ := mem_segmentsOf hs
    simp only [segmentOf,nil_append,flatten_append,flatten_cons,length_append]
    omega
  covered n b h hb := segmentsOf_cover (Nat.zero_le n) h hb
  lines hthread hmessage s hs := by
    obtain ⟨early,record,late,number,rfl,hfull,rfl⟩ := mem_segmentsOf hs
    have hlines : OnLines (early.flatten ++ record ++ late.flatten)
        (segmentOf markdown shape early.flatten number record) :=
      segmentOf_onLines hthread hmessage hfull
    simpa using hlines

theorem segmentsOf_slice {records : List Bytes} {s : Segment}
    (h : s ∈ segmentsOf markdown shape [] 0 records) :
    s.slice records.flatten ∈ records ∧ hasContent (s.slice records.flatten) = true ∧
      s.byte_end-s.byte_start = (s.slice records.flatten).length ∧
      s.depth = if markdown then headingDepth (contentOf (s.slice records.flatten)) else 0 := by
  obtain ⟨early,record,late,number,rfl,hfull,rfl⟩ := mem_segmentsOf h
  have hslice : (segmentOf markdown shape ([] ++ early.flatten) number record).slice
      (early ++ record :: late).flatten = record := by
    simp [Segment.slice,segmentOf]
  rw [hslice]
  exact ⟨by simp,hfull,by simp [segmentOf],rfl⟩

end ProjectOS.Ingest
