import ProjectOS.Ingest.Cues
import ProjectOS.Ingest.Normalized
import ProjectOS.Ingest.OpenFile
import ProjectOS.Ingest.Sections

/-! The limit on the chunks of an item: which of the files that are taken in go
over it. -/

namespace ProjectOS.Ingest
open Lib Domain List

structure NormalizedItem where
  shape : EvidenceShape
  text : Bytes
  segments : List Segment

def readText (rule : RecordRule) (markdown : Bool) (shape : EvidenceShape) (reader : Reader)
    (budget : StreamBudget) : Except ImportStop NormalizedItem :=
  match normalizeText rule markdown shape reader budget with
  | .error e => .error (.refused e)
  | .ok p => .ok ⟨shape,p.text,p.segments⟩

def normalizeItem (build : Build) (media_kind : MediaKind) (shape : EvidenceShape) (reader : Reader)
    (budget : StreamBudget) : Except ImportStop NormalizedItem :=
  match media_kind with
  | .audio | .video => .ok ⟨.transcript,[],[]⟩
  | .opaque_ => .ok ⟨shape,[],[]⟩
  | .captions => (normalizeCaptions build reader budget).map fun out =>
    ⟨.transcript,out.text,out.segments⟩
  | .csv => readText .csvRecord false shape reader budget
  | .markdown => readText .paragraph true shape reader budget
  | .plainText | .structured => readText .paragraph false shape reader budget

def ChunkStage.new : ChunkStage := ⟨none⟩

/-- What a reader of the index yields: the segments, as far as it comes, and what it
fails with is no limit. -/
structure IndexRead (segments : List Segment) (index : List (Except StreamError Segment)) : Prop where
  first : yielded index <+: segments
  failure : ∀ error, .error error ∈ index →
    ∀ limit value limit_value, error ≠ .limitExceeded limit value limit_value

/-- The run keeps within the limit, and does not fail on it. -/
structure WithinLimit (run : Except (ChunkStop × ChunkEmitter) ChunkRun.Product) : Prop where
  few : (ChunkRun.emitted run).length ≤ chunkCountMax
  served : ∀ stop, run = .error stop → ¬ stop.1.OnLimit

def Chunkable (item : NormalizedItem) : Prop :=
  ∀ (R : ChunkRun) (index : List (Except StreamError Segment)) (reader : Reader)
    (budget : StreamBudget), R.params = ChunkStage.new.paramsFor item.shape →
    reader.rest = item.text → IndexRead item.segments index →
    WithinLimit (R.chunkEvidence index reader budget)

section
variable {item : NormalizedItem}

theorem paramsFor_bytes (shape : EvidenceShape) :
    (ChunkStage.new.paramsFor shape).bytesTarget = 1200 ∧
      (ChunkStage.new.paramsFor shape).bytesMax = 1600 := by
  cases shape <;> exact ⟨rfl,rfl⟩

theorem chunkable_iff (horder : Ascending item.segments)
    (hwithin : ∀ s ∈ item.segments, s.byte_end ≤ item.text.length) :
    Chunkable item ↔ (draftsOf (ChunkStage.new.paramsFor item.shape) item.text
      item.segments).length ≤ chunkCountMax := by
  have hpos : 0 < (ChunkStage.new.paramsFor item.shape).bytesMax := by
    rw [(paramsFor_bytes item.shape).2]
    decide
  constructor
  · intro h
    by_contra hmany
    let R : ChunkRun := ⟨fun _ => 0,⟨0⟩,ChunkStage.new.paramsFor item.shape,fun _ => .ok ()⟩
    let reader : Reader := ⟨item.text,[]⟩
    let budget : StreamBudget := ⟨.chunk,R.params.bytesMax⟩
    have hyielded := ChunkRun.yielded_map item.segments
    have hrun := h R (item.segments.map .ok) reader budget rfl rfl
      ⟨by rw [hyielded],by simp⟩
    have hends := ChunkRun.chunkEvidence_ends R reader budget (item.segments.map .ok)
    cases hend : R.chunkEvidence (item.segments.map .ok) reader budget with
    | ok product =>
      rw [hend] at hends
      have hfew := hends.few
      rw [hyielded] at hfew
      exact hmany hfew
    | error stop =>
      rw [hend] at hends
      have hstopped := hends (by
        rw [hyielded]
        exact fitting_ascending horder hwithin)
      rcases hstopped.cause with ⟨hlimit,-⟩ | ⟨-,hindered⟩
      · exact hrun.served stop hend hlimit
      · cases hindered with
        | reader h => exact h (by simp [Reader.Healthy,reader])
        | budget h => exact Nat.lt_irrefl _ h
        | size h => exact hpos.ne' h
        | log n error h => cases h
        | index error h => simp at h
        | count h => exact absurd h (by simp)
  · intro hfew R index reader budget hparams hrest hindex
    have hends := ChunkRun.chunkEvidence_ends R reader budget index
    have hsub := hindex.first.sublist
    have horder' := horder.sublist hsub
    have hwithin' : ∀ s ∈ yielded index, s.byte_end ≤ reader.rest.length := by
      intro s hs
      rw [hrest]
      exact hwithin s (hsub.mem hs)
    have hfirst : (draftsOf (ChunkStage.new.paramsFor item.shape) item.text (yielded index)).length ≤
        (draftsOf (ChunkStage.new.paramsFor item.shape) item.text item.segments).length :=
      draftsOf_prefix hpos horder hwithin hindex.first
    rw [← hparams,← hrest] at hfirst hfew
    constructor
    · cases hend : R.chunkEvidence index reader budget with
      | ok product =>
        rw [hend] at hends
        rw [ChunkRun.emitted,hends.facts,ChunkRun.factsOf_length]
        exact hends.few
      | error stop =>
        rw [hend] at hends
        exact (hends (fitting_ascending horder' hwithin')).few
    · intro stop hend hlimit
      rw [hend] at hends
      rcases (hends (fitting_ascending horder' hwithin')).cause with ⟨-,hmany⟩ | ⟨hindex',-⟩
      · omega
      · obtain ⟨error,hmem,hstop⟩ := hindex' hlimit
        obtain ⟨value,limit_value,hlimit⟩ := hlimit
        rw [hstop] at hlimit
        exact hindex.failure error hmem _ _ _ (ChunkStop.refused.inj hlimit)

end

structure TextItem (item : NormalizedItem) : Prop where
  ordered : Ascending item.segments
  within : ∀ s ∈ item.segments, s.byte_end ≤ item.text.length
  short : item.text.length ≤ intakeTextBytesMax

theorem tiles_ascending {start : Nat} {text : Bytes} {segments : List Segment}
    (h : Tiles start text segments) : Ascending segments ∧
      ∀ s ∈ segments, start ≤ s.byte_start ∧ s.byte_end ≤ start+text.length := by
  induction segments generalizing start text with
  | nil => exact ⟨⟨List.Pairwise.nil,by simp⟩,by simp⟩
  | cons segment segments ih =>
    obtain ⟨hstart,line,rest,rfl,-,hend,hrest⟩ := h
    obtain ⟨horder,hwithin⟩ := ih hrest
    have hlength : (line ++ newline :: rest).length = line.length+1+rest.length := by
      rw [length_append,length_cons]
      omega
    refine ⟨⟨pairwise_cons.mpr ⟨fun s hs => ?_,horder.ordered⟩,?_⟩,?_⟩
    · have hs := (hwithin s hs).1
      omega
    · rw [forall_mem_cons]
      exact ⟨by omega,horder.forward⟩
    · rw [forall_mem_cons,hlength]
      refine ⟨by omega,fun s hs => ?_⟩
      have hs := hwithin s hs
      omega

theorem captions_text {build : Build} {reader : Reader} {budget : StreamBudget}
    {out : CaptionProduct} (h : normalizeCaptions build reader budget = .ok out) :
    TextItem ⟨.transcript,out.text,out.segments⟩ := by
  obtain ⟨w,s,-,hfold,rfl⟩ := normalizeCaptions_ok h
  have hholds := Import.empty_holds.run (fileCues_spoken h) hfold
  obtain ⟨horder,hwithin⟩ := tiles_ascending hholds.tiles
  refine ⟨horder,fun s hs => ?_,?_⟩
  · have hs := (hwithin s hs).2
    rwa [Nat.zero_add] at hs
  · have hbound := hholds.bound
    rw [hholds.offset] at hbound
    refine hbound.trans ((Nat.mul_le_mul_right _ hholds.count).trans ?_)
    decide

theorem textAt_length (b : Nat) (content : Bytes) : (textAt b content).length ≤ content.length := by
  have hplain : ∀ bytes : Bytes, (plain bytes).length ≤ bytes.length :=
    fun bytes => length_filter_le _ _
  have hclean : (clean content).length ≤ content.length := by
    refine (hplain _).trans (Nat.le_trans ?_
      (length_dropWhile_le (· == carriageReturn) content))
    rw [stripBom]
    split_ifs
    · rw [length_drop]
      exact Nat.sub_le _ _
    · exact Nat.le_refl _
  rw [textAt]
  split_ifs
  · exact Nat.zero_le _
  · rcases textFrom_cases b content with heq | heq
    · rw [heq]
      exact hclean
    · rw [heq]
      exact hplain content

theorem normalizeText_text {rule : RecordRule} {markdown : Bool} {shape : EvidenceShape}
    {reader : Reader} {budget : StreamBudget} {p : TextProduct}
    (hshort : reader.rest.length ≤ intakeTextBytesMax)
    (h : normalizeText rule markdown shape reader budget = .ok p) :
    TextItem ⟨shape,p.text,p.segments⟩ ∧
      ∀ s ∈ p.segments, (∃ n, ContentAt p.text s n) ∧ (markdown = false → s.depth = 0) := by
  obtain ⟨htext,-,hsegments,-⟩ := normalizeText_ok h
  have hflat : ((recordSplitter rule).records p.text).flatten = p.text :=
    (recordSplitter rule).records_flatten p.text
  have hindexes := segmentsOf_indexes markdown shape ((recordSplitter rule).records p.text)
  rw [hflat,← hsegments] at hindexes
  refine ⟨⟨⟨hindexes.ordered,fun s hs => (hindexes.within s hs).1⟩,
    fun s hs => (hindexes.within s hs).2,?_⟩,fun s hs => ?_⟩
  · rw [htext]
    exact (textAt_length _ _).trans hshort
  · rw [hsegments] at hs
    obtain ⟨-,hcontent,-,hdepth⟩ := segmentsOf_slice hs
    rw [hflat] at hcontent hdepth
    refine ⟨?_,fun hplain => ?_⟩
    · obtain ⟨k,b,hk,hget,hb⟩ := hasContent_slice.mp hcontent
      exact ⟨s.byte_start+k,Segment.covers_iff.mpr (by omega),b,hget,hb⟩
    · rw [hdepth,hplain]
      rfl

section
variable {build : Build} {media_kind : MediaKind} {reader : Reader} {budget : StreamBudget}
  {item : NormalizedItem}

theorem readText_ok {rule : RecordRule} {markdown : Bool} {shape : EvidenceShape}
    (h : readText rule markdown shape reader budget = .ok item) :
    ∃ p, normalizeText rule markdown shape reader budget = .ok p ∧
      item = ⟨shape,p.text,p.segments⟩ := by
  rw [readText] at h
  cases hp : normalizeText rule markdown shape reader budget with
  | error e =>
    rw [hp] at h
    cases h
  | ok p =>
    rw [hp] at h
    exact ⟨p,rfl,(Except.ok.inj h).symm⟩

theorem normalizeItem_text (htext : isText media_kind = true)
    (hshort : reader.rest.length ≤ intakeTextBytesMax)
    (h : normalizeItem build media_kind (shapeFor media_kind) reader budget = .ok item) :
    TextItem item ∧ item.shape = shapeFor media_kind ∧ (media_kind ≠ .markdown →
      (ChunkStage.new.paramsFor item.shape).breaks item.segments = 0) := by
  have hread : ∀ rule, readText rule false (shapeFor media_kind) reader budget = .ok item →
      TextItem item ∧ item.shape = shapeFor media_kind ∧ (media_kind ≠ .markdown →
        (ChunkStage.new.paramsFor item.shape).breaks item.segments = 0) := by
    intro rule hitem
    obtain ⟨p,hp,rfl⟩ := readText_ok hitem
    obtain ⟨hitem,hsegments⟩ := normalizeText_text hshort hp
    refine ⟨hitem,rfl,fun _ => countP_eq_zero.mpr fun s hs hbreak => ?_⟩
    have hdepth := (hsegments s hs).2 rfl
    have hpos := (of_decide_eq_true hbreak).2
    omega
  cases media_kind with
  | plainText | csv => exact hread _ h
  | markdown =>
    obtain ⟨p,hp,rfl⟩ := readText_ok h
    exact ⟨(normalizeText_text hshort hp).1,rfl,fun hother => absurd rfl hother⟩
  | captions =>
    rw [normalizeItem] at h
    cases hout : normalizeCaptions build reader budget with
    | error e =>
      rw [hout] at h
      cases h
    | ok out =>
      rw [hout] at h
      cases h
      refine ⟨captions_text hout,rfl,fun _ => countP_eq_zero.mpr fun s _ hbreak => ?_⟩
      have hrule := (of_decide_eq_true hbreak).1
      cases hrule
  | audio | video | structured | opaque_ => cases htext

theorem chunkable_of_few (hitem : TextItem item) (hrule : item.shape ≠ .message)
    (hfew : (ChunkStage.new.paramsFor item.shape).breaks item.segments ≤ 2434127) :
    Chunkable item := by
  obtain ⟨htarget,hmax⟩ := paramsFor_bytes item.shape
  have hboundary : (ChunkStage.new.paramsFor item.shape).boundary ≠ .perSegment := by
    cases hshape : item.shape with
    | message => exact absurd hshape hrule
    | transcript | thread | document | table => decide
  have hlength := draftsOf_length hboundary (by omega) (by omega) hitem.ordered hitem.within
  have hshort := hitem.short
  rw [htarget,hmax] at hlength
  rw [chunkable_iff hitem.ordered hitem.within]
  simp only [intakeTextBytesMax] at hshort
  simp only [chunkCountMax]
  omega

end

/-- Of the files that are taken in as texts, all but Markdown always fit in the limit,
and a Markdown file does if the pieces of its sections are not too many. -/
theorem accepted_fit_iff {f : DiskFile} {file : IntakeFile} {build : Build} {reader : Reader}
    {budget : StreamBudget} {item : NormalizedItem} (haccepted : openFile f = .ok file)
    (htext : isText file.media_kind = true) (hcontent : reader.rest = file.content)
    (hnormal : normalizeItem build file.media_kind file.shape reader budget = .ok item) :
    Chunkable item ↔ (file.media_kind = .markdown →
      (sectionPieces (chunkParamsFor .document) item.text item.segments).length ≤ chunkCountMax) := by
  obtain ⟨hfile,-,-,hshape,-,hshort⟩ := openFile_ok haccepted
  rw [hshape] at hnormal
  obtain ⟨hitem,hkept,hbreaks⟩ := normalizeItem_text htext
    (by rw [hcontent,hfile]; exact hshort htext) hnormal
  by_cases hmarkdown : file.media_kind = .markdown
  · rw [chunkable_iff hitem.ordered hitem.within,hkept,hmarkdown]
    have hpieces := @draftsOf_sections (chunkParamsFor .document) item.text item.segments rfl
      (by decide) (by decide) hitem.ordered hitem.within
    rw [← hpieces]
    exact ⟨fun h _ => h,fun h => h rfl⟩
  · refine ⟨fun _ h => absurd h hmarkdown,fun _ => chunkable_of_few hitem ?_ ?_⟩
    · rw [hkept]
      cases file.media_kind <;> decide
    · rw [hbreaks hmarkdown]
      exact Nat.zero_le _

def noteHeading : List Char := "# Note\n".toList

theorem lines_heading (text : List Char) :
    lines (noteHeading ++ text) = "# Note".toList :: lines text := by
  have hsplit : (noteHeading ++ text).splitOn '\n' = "# Note".toList :: text.splitOn '\n' := by
    have hbreak : '\n' ∉ "# Note".toList := by decide
    change ("# Note".toList ++ '\n' :: text).splitOn '\n' = _
    rw [splitOn_append_cons_self,splitOn_eq_singleton hbreak]
    rfl
  obtain ⟨first,rest,hrest⟩ := exists_cons_of_ne_nil (splitOn_ne_nil '\n' text)
  rw [lines,lines,hsplit,hrest]
  rfl

theorem sniff_heading {text : List Char} (hzero : ∀ c ∈ text, c.toNat ≠ 0) :
    sniffIntake (encode (noteHeading ++ text)) = .markdown := by
  have hbytes : encode (noteHeading ++ text) = 35 :: 32 :: 78 :: 111 :: 116 :: 101 :: 10 :: encode text := by
    rw [encode_append]
    rfl
  have htext : prefixText (encode (noteHeading ++ text)) = some (noteHeading ++ text) := by
    rw [prefixText,decodeUtf8_eq_some.mpr rfl]
    rfl
  have hcontainer : sniffContainer (encode (noteHeading ++ text)) = none := by
    have hbox : ¬ (12 ≤ (encode (noteHeading ++ text)).length ∧
        showsAt (encode (noteHeading ++ text)) 4 "ftyp" = true) := by
      rw [hbytes]
      rintro ⟨-,⟨⟩⟩
    rw [sniffContainer,if_neg hbox,hbytes]
    rfl
  have hcaptions : sniffCaptions (encode (noteHeading ++ text)) = none := by
    have hfilter : ((lines (noteHeading ++ text)).filter fun line => !(trim line).isEmpty) =
        "# Note".toList :: (lines text).filter fun line => !(trim line).isEmpty := by
      rw [lines_heading]
      rfl
    have hmark : stripMark (noteHeading ++ text) = noteHeading ++ text := rfl
    rw [sniffCaptions,htext]
    simp only [Option.bind_eq_bind,Option.bind_some,hmark,hfilter]
    cases (lines text).filter fun line => !(trim line).isEmpty with
    | nil | cons => rfl
  have hnul : (encode (noteHeading ++ text)).contains 0 = false := by
    rw [← Bool.not_eq_true,contains_iff_mem,mem_encode (by decide)]
    rintro ⟨c,hc,hvalue⟩
    rcases mem_append.mp hc with hc | hc
    · exact (forall_mem_of_all (by decide) : ∀ c ∈ noteHeading, c.toNat ≠ 0) c hc hvalue
    · exact hzero c hc hvalue
  rw [sniffIntake,hcontainer,hcaptions,sniffMediaKind,htext,hnul]
  dsimp only
  rw [lines_heading]
  rw [hbytes]
  rfl

def noteText : List Char := "# Note\n\n".toList

def notes (n : Nat) : List Char := (List.replicate n noteText).flatten

def notesFile (n : Nat) : DiskFile := ⟨true,encode (notes n),none,none,none,[],none⟩

theorem notes_add (m n : Nat) : notes (m+n) = notes m ++ notes n := by
  rw [notes,replicate_add,flatten_append]
  rfl

variable (n : Nat)

theorem notes_succ : notes (n+1) = notes n ++ noteText := by
  rw [notes_add]
  simp [notes]

theorem notes_length : (encode (notes n)).length = 8*n := by
  induction n with
  | zero => rfl
  | succ n ih =>
    rw [notes_succ,encode_append,length_append,ih]
    rfl

theorem mem_notes {n : Nat} {c : Char} (h : c ∈ notes n) : c ∈ noteText := by
  obtain ⟨note,hnote,hc⟩ := mem_flatten.mp h
  rwa [eq_of_mem_replicate hnote] at hc

theorem notes_prefix : (encode (notes n)).take sniffPrefixBytes = encode (notes (min n 512)) := by
  rcases Nat.le_total n 512 with hle | hle
  · rw [min_eq_left hle,take_of_length_le]
    rw [notes_length]
    simp only [sniffPrefixBytes]
    omega
  · obtain ⟨more,rfl⟩ := Nat.exists_eq_add_of_le hle
    rw [min_eq_right hle,notes_add,encode_append,take_left']
    exact notes_length 512

theorem notes_opened {n : Nat} (hsome : 0 < n) (hfits : 8*n ≤ intakeTextBytesMax) :
    openFile (notesFile n) = .ok ⟨encode (notes n),.markdown,.document,8*n,none⟩ := by
  have hread : readPrefix (sniffPrefixBytes+1) [] (notesFile n).reader =
      .ok (encode (notes (min n 512))) := by
    rw [← notes_prefix]
    exact readPrefix_calm 4095 _
  have hsniff : sniffIntake (encode (notes (min n 512))) = .markdown := by
    obtain ⟨k,hk⟩ := Nat.exists_eq_succ_of_ne_zero (show min n 512 ≠ 0 by omega)
    have hnote : notes (k+1) = noteHeading ++ ('\n' :: notes k) := by
      rw [Nat.add_comm,notes_add]
      rfl
    rw [hk,Nat.succ_eq_add_one,hnote]
    refine sniff_heading fun c hc => ?_
    rcases mem_cons.mp hc with rfl | hc
    · decide
    · exact (forall_mem_of_all (by decide) : ∀ c ∈ noteText, c.toNat ≠ 0) c (mem_notes hc)
  have hlarge : ¬ intakeFileBytesMax < (notesFile n).content.length := by
    change ¬ intakeFileBytesMax < (encode (notes n)).length
    rw [notes_length]
    simp only [intakeFileBytesMax,intakeTextBytesMax] at hfits ⊢
    omega
  have hclassified : classify (notesFile n) (encode (notes (min n 512))) =
      .ok ⟨encode (notes n),.markdown,.document,8*n,none⟩ := by
    have htext : ¬ (isText .markdown = true ∧ intakeTextBytesMax < (notesFile n).content.length) := by
      change ¬ (_ ∧ intakeTextBytesMax < (encode (notes n)).length)
      rw [notes_length]
      omega
    rw [classify,hsniff,if_neg htext]
    change Except.ok (IntakeFile.mk (encode (notes n)) _ _ (encode (notes n)).length _) = _
    rw [notes_length]
    rfl
  rw [openFile,if_neg hlarge,hread]
  exact hclassified

theorem notes_cuts : (recordSplitter .paragraph).cuts (encode (notes n)) =
    ⟨List.replicate n (encode noteText),[],(decide (0 < n),false)⟩ := by
  induction n with
  | zero => rfl
  | succ n ih =>
    rw [notes_succ,encode_append,Splitter.cuts,foldl_append,← Splitter.cuts,ih,
      replicate_succ']
    cases n with
    | zero => rfl
    | succ n => 
      rw [show decide (0 < n+1) = true by simp,show decide (0 < n+1+1) = true by simp]
      rfl

theorem notes_part {n : Nat} {before : Bytes} (h : before <+: encode (notes n)) :
    ((recordSplitter .paragraph).cuts before).part.length ≤ 8 := by
  induction n with
  | zero =>
    rw [prefix_nil.mp h]
    exact Nat.zero_le _
  | succ n ih =>
    rw [notes_succ,encode_append] at h
    rcases prefix_or_prefix_of_prefix h (prefix_append _ _) with hfront | ⟨later,rfl⟩
    · exact ih hfront
    · have hlater := ((prefix_append_right_inj _).mp h).length_le
      have hpart := (recordSplitter .paragraph).part_append_length (encode (notes n)) later
      rw [notes_cuts] at hpart
      exact hpart.trans ((Nat.add_le_add_left hlater _).trans (Nat.le_refl 8))

theorem notes_clean : clean (encode (notes n)) = encode (notes n) := by
  have hmark : utf8Bom.isPrefixOf ((encode (notes n)).dropWhile (· == carriageReturn)) = false := by
    cases n with
    | zero => rfl
    | succ n =>
      rw [Nat.add_comm,notes_add,encode_append]
      rfl
  rw [clean_eq_plain hmark,plain,filter_eq_self]
  intro b hb
  rw [bne_iff_ne]
  rintro rfl
  obtain ⟨c,hc,hvalue⟩ := (mem_encode (by decide)).mp hb
  exact (forall_mem_of_all (by decide) : ∀ c ∈ noteText, c.toNat ≠ carriageReturn.toNat) c (mem_notes hc) hvalue

theorem notes_acceptable {n : Nat} (hfew : n ≤ segmentCountMax) :
    Acceptable .paragraph (clean (encode (notes n))) := by
  rw [notes_clean]
  refine ⟨?_,fun before hbefore => ?_,?_⟩
  · rw [Splitter.records,notes_cuts,countP_append]
    have hcount := countP_le_length (p := hasContent) (l := List.replicate n (encode noteText))
    rw [length_replicate] at hcount
    exact hcount.trans hfew
  · exact (notes_part hbefore).trans (by decide)
  · exact (notes_part prefix_rfl).trans (by decide)

theorem notes_breaks (before : Bytes) (index : Nat) :
    (ChunkStage.new.paramsFor .document).breaks (segmentsOf true .document before index
      (List.replicate n (encode noteText) ++ [[]])) = n := by
  induction n generalizing before index with
  | zero => rfl
  | succ n ih =>
    have hcontent : hasContent (encode noteText) = true := by decide
    have hbreak : (ChunkStage.new.paramsFor .document).breaksAt
        (segmentOf true .document before index (encode noteText)) := by
      refine ⟨rfl,?_⟩
      change 0 < headingDepth (contentOf (encode noteText))
      decide
    have hrest := ih (before ++ encode noteText) (index+1)
    rw [ChunkParams.breaks] at hrest ⊢
    rw [replicate_succ,cons_append,segmentsOf,if_pos hcontent,countP_cons,hrest,
      if_pos (decide_eq_true hbreak)]

theorem notes_normalized {n : Nat} (hfits : 8*n < stageBufferBytesMaxDefault) (build : Build) :
    ∃ item, normalizeItem build .markdown .document ⟨encode (notes n),[]⟩
        ⟨.normalize,stageBufferBytesMaxDefault⟩ = .ok item ∧ item.shape = .document ∧
      TextItem item ∧ (∀ s ∈ item.segments, ∃ k, ContentAt item.text s k) ∧
      (ChunkStage.new.paramsFor .document).breaks item.segments = n := by
  have hlength : (encode (notes n)).length < stageBufferBytesMaxDefault := by
    rw [notes_length]
    exact hfits
  have hshort : (encode (notes n)).length ≤ intakeTextBytesMax :=
    hlength.le.trans (by decide)
  have hfew : n ≤ segmentCountMax := by
    simp only [stageBufferBytesMaxDefault] at hfits
    simp only [segmentCountMax]
    omega
  obtain ⟨p,hp,htext⟩ := (notes_acceptable hfew).accepted true .document hlength
  obtain ⟨hitem,hsegments⟩ := normalizeText_text hshort hp
  refine ⟨⟨.document,p.text,p.segments⟩,?_,rfl,hitem,fun s hs => (hsegments s hs).1,?_⟩
  · rw [normalizeItem,readText,hp]
  · obtain ⟨-,-,hindex,-⟩ := normalizeText_ok hp
    rw [hindex,htext,notes_clean,Splitter.records,notes_cuts]
    exact notes_breaks n [] 0

/-- Four million and one headings make a file of 32 MB that is taken in and normalized,
and whose chunks are too many. -/
theorem notes_overflow : ∃ file item,
    openFile (notesFile 4000001) = .ok file ∧ isText file.media_kind = true ∧
    normalizeItem .checked file.media_kind file.shape ⟨file.content,[]⟩
      ⟨.normalize,stageBufferBytesMaxDefault⟩ = .ok item ∧ ¬ Chunkable item := by
  obtain ⟨item,hitem,hshape,htext,hcontent,hbreaks⟩ :=
    notes_normalized (show 8*4000001 < stageBufferBytesMaxDefault by decide) .checked
  refine ⟨_,item,notes_opened (by decide) (by decide),rfl,hitem,?_⟩
  rw [chunkable_iff htext.ordered htext.within,hshape]
  have hmany := @breaks_le_draftsOf (ChunkStage.new.paramsFor .document) item.text (by decide)
    (by decide) (by decide) item.segments htext.ordered htext.within hcontent
  rw [hbreaks] at hmany
  simp only [chunkCountMax]
  omega

/-- Two headings make a file that fits. -/
theorem two_notes_fit : ∃ item,
    normalizeItem .checked .markdown .document ⟨encode (notes 2),[]⟩
      ⟨.normalize,stageBufferBytesMaxDefault⟩ = .ok item ∧ Chunkable item := by
  obtain ⟨item,hitem,hshape,htext,-,hbreaks⟩ :=
    notes_normalized (show 8*2 < stageBufferBytesMaxDefault by decide) .checked
  refine ⟨item,hitem,?_⟩
  have hopened := notes_opened (show 0 < 2 by decide) (by decide)
  refine (accepted_fit_iff hopened rfl rfl hitem).mpr fun _ => ?_
  have hpieces := @draftsOf_sections (chunkParamsFor .document) item.text item.segments rfl
    (by decide) (by decide) htext.ordered htext.within
  have hlength : (draftsOf (chunkParamsFor .document) item.text item.segments).length ≤
      item.text.length/1600+(item.text.length/1200+
        (chunkParamsFor .document).breaks item.segments+1) :=
    draftsOf_length (by decide) (by decide) (by decide) htext.ordered htext.within
  have htwo : (chunkParamsFor .document).breaks item.segments = 2 := hbreaks
  have hshort := htext.short
  rw [htwo] at hlength
  simp only [intakeTextBytesMax] at hshort
  rw [← hpieces]
  simp only [chunkCountMax]
  omega

end ProjectOS.Ingest
