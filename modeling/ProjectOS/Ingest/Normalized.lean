import ProjectOS.Ingest.Index

/-! What the buffer of a stream does to a normalized text: to the mark that may
lead it, and to which records are refused as too large. -/

namespace ProjectOS.Ingest
open Lib Domain List

def bomWhole (b : Nat) (content : Bytes) : Bool :=
  !utf8Bom.isPrefixOf (content.dropWhile (· == carriageReturn)) ||
    decide ((content.takeWhile (· == carriageReturn)).length % b+2 < b)

def textFrom (b : Nat) (at_start : Bool) (content : Bytes) : Bytes :=
  if at_start && bomWhole b content then clean content else plain content

@[simp] theorem plain_append (xs ys : Bytes) : plain (xs ++ ys) = plain xs ++ plain ys := by
  simp [plain]

variable {xs : Bytes}

theorem plain_returns (h : xs.all (· == carriageReturn) = true) : plain xs = [] := by
  simpa [plain] using h

theorem plain_dropWhile (content : Bytes) :
    plain (content.dropWhile (· == carriageReturn)) = plain content := by
  induction content with
  | nil => rfl
  | cons b content ih =>
    by_cases hb : b = carriageReturn
    · simpa [hb,plain] using ih
    · simp [hb]

variable {window ys rest : Bytes}

theorem clean_returns (h : xs.all (· == carriageReturn) = true) :
    clean (xs ++ ys) = clean ys := by
  rw [clean,dropWhile_append_of_pos (by simpa using h)]
  rfl

theorem plain_of_bom {content : Bytes}
    (h : utf8Bom.isPrefixOf (content.dropWhile (· == carriageReturn)) = true) :
    plain content = utf8Bom ++ clean content := by
  rw [clean,stripBom,if_pos h,← plain_dropWhile]
  obtain ⟨rest,hrest⟩ := List.isPrefixOf_iff_prefix.mp h
  rw [← hrest,drop_left,plain_append]
  rfl

theorem isPrefixOf_append (ys : Bytes) (h : utf8Bom.isPrefixOf xs = true) :
    utf8Bom.isPrefixOf (xs ++ ys) = true := by
  rw [List.isPrefixOf_iff_prefix] at h ⊢
  exact h.trans (prefix_append _ _)

theorem isPrefixOf_length (h : utf8Bom.isPrefixOf xs = true) : 3 ≤ xs.length :=
  (List.isPrefixOf_iff_prefix.mp h).length_le

theorem length_of_torn (h : utf8Bom.isPrefixOf xs = false)
    (hwhole : utf8Bom.isPrefixOf (xs ++ ys) = true) : xs.length < 3 := by
  by_contra hlen
  rw [List.isPrefixOf_iff_prefix] at hwhole
  have hpre : utf8Bom <+: xs :=
    prefix_of_prefix_length_le hwhole (prefix_append _ _) (Nat.not_lt.mp hlen)
  rw [List.isPrefixOf_iff_prefix.mpr hpre] at h
  cases h

variable {b : Nat}

theorem bomWhole_returns (h : window.all (· == carriageReturn) = true)
    (hfull : rest ≠ [] → window.length = b) : bomWhole b (window ++ rest) = bomWhole b rest := by
  have hall : ∀ c ∈ window, (c == carriageReturn) = true := by simpa using h
  rw [bomWhole,bomWhole,dropWhile_append_of_pos hall,takeWhile_append_of_pos hall]
  by_cases hrest : rest = []
  · subst hrest
    rfl
  · rw [length_append,hfull hrest,Nat.add_mod_left]

theorem clean_window (h : window.all (· == carriageReturn) = false)
    (hlen : window.length ≤ b) (hfull : rest ≠ [] → window.length = b) :
    clean window ++ plain rest = textFrom b true (window ++ rest) := by
  have hbody : window.dropWhile (· == carriageReturn) ≠ [] := by
    rw [ne_eq,dropWhile_eq_nil_iff]
    simpa using h
  have hpart := congrArg List.length
    (takeWhile_append_dropWhile (p := (· == carriageReturn)) (l := window))
  have hpos := length_pos_iff.mpr hbody
  have hdrop : (window ++ rest).dropWhile (· == carriageReturn) =
      window.dropWhile (· == carriageReturn) ++ rest := by
    rw [dropWhile_append,if_neg (by simpa using hbody)]
  have htake : (window ++ rest).takeWhile (· == carriageReturn) =
      window.takeWhile (· == carriageReturn) := by
    rw [length_append] at hpart
    rw [takeWhile_append,if_neg (by omega)]
  rw [length_append] at hpart
  have hmod : (window.takeWhile (· == carriageReturn)).length % b =
      (window.takeWhile (· == carriageReturn)).length := Nat.mod_eq_of_lt (by omega)
  rw [textFrom,bomWhole,hdrop,htake,hmod,clean,clean,hdrop,Bool.true_and]
  cases hbom : utf8Bom.isPrefixOf (window.dropWhile (· == carriageReturn)) with
  | true =>
    have hlong := isPrefixOf_length hbom
    have hdrop3 : (window.dropWhile (· == carriageReturn) ++ rest).drop utf8Bom.length =
        (window.dropWhile (· == carriageReturn)).drop utf8Bom.length ++ rest :=
      drop_append_of_le_length hlong
    rw [isPrefixOf_append rest hbom,if_pos (by simp; omega),stripBom,stripBom,if_pos hbom,
      if_pos (isPrefixOf_append rest hbom),hdrop3,plain_append]
  | false =>
    have hplain : plain (window.dropWhile (· == carriageReturn)) ++ plain rest =
        plain (window ++ rest) := by rw [plain_dropWhile,plain_append]
    rw [stripBom,if_neg (by simp [hbom]),hplain]
    cases hwhole : utf8Bom.isPrefixOf (window.dropWhile (· == carriageReturn) ++ rest) with
    | false =>
      rw [if_pos (by simp),stripBom,if_neg (by simp [hwhole]),plain_append,plain_append,
        plain_dropWhile]
    | true =>
      have htorn := length_of_torn hbom hwhole
      have hrest : rest ≠ [] := by
        rintro rfl
        rw [append_nil,hbom] at hwhole
        cases hwhole
      have hwide := hfull hrest
      rw [if_neg (by simp; omega)]

theorem textFrom_nil (b : Nat) (at_start : Bool) : textFrom b at_start [] = [] := by
  cases at_start <;> rfl

theorem textFrom_take (b : Nat) (at_start : Bool) (content : Bytes) :
    keep at_start (content.take b) ++
      textFrom b (stillAtStart at_start (content.take b)) (content.drop b) =
      textFrom b at_start content := by
  have hsplit := take_append_drop b content
  have hlen : (content.take b).length ≤ b := by
    rw [length_take]
    omega
  have hfull : content.drop b ≠ [] → (content.take b).length = b := by
    intro hrest
    rw [ne_eq,drop_eq_nil_iff] at hrest
    rw [length_take]
    omega
  generalize content.take b = window at *
  generalize content.drop b = rest at *
  subst hsplit
  cases at_start with
  | false => simp [keep,stillAtStart,textFrom]
  | true =>
    cases hall : window.all (· == carriageReturn) with
    | false =>
      rw [← clean_window hall hlen hfull]
      simp [keep,stillAtStart,hall,textFrom]
    | true =>
      have hnone : clean window = [] := by
        rw [← append_nil window,clean_returns hall]
        rfl
      have hplain := plain_returns hall
      simp only [keep,stillAtStart,hall,textFrom,hnone,bomWhole_returns hall hfull,
        clean_returns hall,plain_append,hplain,if_true,Bool.and_true,nil_append]

theorem textFrom_window (at_start : Bool) (h : window.length ≤ b) :
    textFrom b at_start window = keep at_start window := by
  have htext := textFrom_take b at_start window
  rw [take_of_length_le h,drop_eq_nil_of_le h,textFrom_nil,append_nil] at htext
  exact htext.symm

theorem textFrom_succ (b j : Nat) (at_start : Bool) (content : Bytes) :
    textFrom b at_start (content.take ((j+1)*b)) = keep at_start (content.take b) ++
      textFrom b (stillAtStart at_start (content.take b)) ((content.drop b).take (j*b)) := by
  have htake : (content.take ((j+1)*b)).take b = content.take b := by
    rw [take_take,min_eq_left (Nat.le_mul_of_pos_left _ (Nat.succ_pos j))]
  have hdrop : (content.take ((j+1)*b)).drop b = (content.drop b).take (j*b) := by
    rw [drop_take,Nat.succ_mul,Nat.add_sub_cancel]
  rw [← textFrom_take b at_start (content.take ((j+1)*b)),htake,hdrop]

section
variable {stops : Bytes → Prop} {rule : RecordRule} {markdown : Bool} {shape : EvidenceShape}
  {scan : ScanState} {text : Bytes} {at_start : Bool} {s : BoundedStream}

def Guarded (rule : RecordRule) (b : Nat) (text : Bytes) (at_start : Bool) (content : Bytes) : Prop :=
  ∀ j, ((recordSplitter rule).cuts
      (text ++ textFrom b at_start (content.take (j*b)))).closed.countP hasContent ≤
        segmentCountMax →
    ((recordSplitter rule).cuts (text ++ textFrom b at_start (content.take (j*b)))).part.length ≤
      recordBytesMax

theorem normalizeLoop_outcome {rounds : Nat} (hs : s.Sound) (hopen : 0 < s.budget.buffer_bytes_max)
    (hlen : s.remaining.length < rounds)
    (hstops : ∀ j, stops (text ++ textFrom s.budget.buffer_bytes_max at_start
      (s.remaining.take (j*s.budget.buffer_bytes_max))))
    (h : Outcome stops rule markdown shape text at_start (.ok scan)) :
    (∃ e, normalizeLoop rounds scan s = .error e ∧ ¬s.reader.Healthy ∧
        ∀ limit value limit_value, e ≠ .limitExceeded limit value limit_value) ∨
      ∃ at_start', Outcome stops rule markdown shape
        (text ++ textFrom s.budget.buffer_bytes_max at_start s.remaining) at_start'
        ((normalizeLoop rounds scan s).map Prod.fst) := by
  induction rounds generalizing scan text at_start s with
  | zero => omega
  | succ rounds ih =>
    rw [normalizeLoop]
    cases hwindow : s.windowMax with
    | error e =>
      left
      refine ⟨e,rfl,?_,BoundedStream.windowMax_error hwindow⟩
      intro hhealthy
      obtain ⟨bytes,s',hok,-⟩ := BoundedStream.windowMax_healthy hhealthy hs
      rw [hwindow] at hok
      cases hok
    | ok next =>
      obtain ⟨window,s₁⟩ := next
      obtain ⟨hshown,hsound,hrest,hbudget⟩ := BoundedStream.windowMax_past hs hwindow
      dsimp only
      split_ifs with hnil
      · right
        have hend : s.remaining = [] := by
          rw [List.isEmpty_iff,hshown,take_eq_nil_iff] at hnil
          exact hnil.resolve_left (by omega)
        rw [hend,textFrom_nil,append_nil]
        exact ⟨at_start,h⟩
      · have htext := textFrom_take s.budget.buffer_bytes_max at_start s.remaining
        rw [← hshown,← hrest,← hbudget] at htext
        rw [← hbudget,← htext,← append_assoc]
        have hstop := hstops 1
        rw [Nat.one_mul,textFrom_window _ (length_take_le _ _),← hshown] at hstop
        obtain ⟨hstep,-⟩ := absorb_outcome window h hstop
        cases habsorb : scan.absorb window with
        | error e =>
          right
          rw [habsorb] at hstep
          exact ⟨false,hstep.error_mono⟩
        | ok scan' =>
          rw [habsorb] at hstep
          have hshort : (s₁.advance window.length).remaining.length < rounds := by
            rw [List.isEmpty_iff,hshown,take_eq_nil_iff,not_or] at hnil
            have hpos := length_pos_iff.mpr hnil.2
            rw [hrest,length_drop]
            omega
          have hstops' : ∀ j, stops (text ++ keep at_start window ++
              textFrom (s₁.advance window.length).budget.buffer_bytes_max
                (stillAtStart at_start window) ((s₁.advance window.length).remaining.take
                  (j*(s₁.advance window.length).budget.buffer_bytes_max))) := by
            intro j
            have hstop := hstops (j+1)
            rwa [textFrom_succ,← hshown,← hrest,← hbudget,← append_assoc] at hstop
          rcases ih hsound (by rw [hbudget]; exact hopen) hshort hstops' hstep with
            ⟨e,herror,hsick,hlimit⟩ | hdone
          · left
            refine ⟨e,herror,?_,hlimit⟩
            intro hhealthy
            obtain ⟨bytes,s',hok,hreader⟩ := BoundedStream.windowMax_healthy hhealthy hs
            rw [hwindow] at hok
            cases hok
            exact hsick hreader
          · exact Or.inr hdone

theorem Outcome.overflow {value : Nat} (h : Outcome stops rule markdown shape text at_start
      (.error (.limitExceeded "segment count" value segmentCountMax))) :
    segmentCountMax < ((recordSplitter rule).cuts text).closed.countP hasContent := by
  generalize hr : Except.error (ε := StreamError) (α := ScanState)
    (.limitExceeded "segment count" value segmentCountMax) = r at h
  cases h with
  | passed s => cases hr
  | oversized value before => simp at hr
  | overflowing value hmany => exact hmany

theorem normalizeLoop_guarded {rounds : Nat} (hs : s.Sound)
    (h : Outcome (fun _ => True) rule markdown shape text at_start (.ok scan))
    (hguard : ((recordSplitter rule).cuts text).part.length ≤ recordBytesMax)
    (hlen : s.remaining.length < rounds) (hopen : 0 < s.budget.buffer_bytes_max)
    (hend : ∀ e, normalizeLoop rounds scan s = .error e →
      ∃ value, e = .limitExceeded "segment count" value segmentCountMax) :
    Guarded rule s.budget.buffer_bytes_max text at_start s.remaining := by
  intro j
  induction j generalizing rounds scan text at_start s with
  | zero => simpa [textFrom_nil] using fun _ => hguard
  | succ j ih =>
    obtain ⟨rounds,rfl⟩ : ∃ n, rounds = n+1 := ⟨rounds-1,by omega⟩
    rw [normalizeLoop] at hend
    cases hwindow : s.windowMax with
    | error e =>
      obtain ⟨value,rfl⟩ := hend e (by rw [hwindow])
      exact absurd rfl (BoundedStream.windowMax_error hwindow _ _ _)
    | ok next =>
      obtain ⟨window,s₁⟩ := next
      obtain ⟨hshown,hsound,hrest,hbudget⟩ := BoundedStream.windowMax_past hs hwindow
      simp only [hwindow] at hend
      split_ifs at hend with hnil
      · have hempty : s.remaining = [] := by
          rw [List.isEmpty_iff,hshown,take_eq_nil_iff] at hnil
          exact hnil.resolve_left (by omega)
        simpa [hempty,textFrom_nil] using fun _ => hguard
      · obtain ⟨hstep,hcheck⟩ := absorb_outcome window h trivial
        rw [textFrom_succ,← hshown,← hrest,← append_assoc]
        cases habsorb : scan.absorb window with
        | error e =>
          obtain ⟨value,rfl⟩ := hend e (by rw [habsorb])
          rw [habsorb] at hstep
          intro hfew
          have hmany := hstep.overflow
          have hmono := ((recordSplitter rule).closed_append (text ++ keep at_start window)
            (textFrom s.budget.buffer_bytes_max (stillAtStart at_start window)
              ((s₁.advance window.length).remaining.take
                (j*s.budget.buffer_bytes_max)))).sublist.countP_le (p := hasContent)
          omega
        | ok scan' =>
          rw [habsorb] at hstep
          simp only [habsorb] at hend
          have hshort : (s₁.advance window.length).remaining.length < rounds := by
            rw [List.isEmpty_iff,hshown,take_eq_nil_iff,not_or] at hnil
            have hpos := length_pos_iff.mpr hnil.2
            rw [hrest,length_drop]
            omega
          rw [← hbudget]
          exact ih hsound hstep (hcheck scan' habsorb) hshort (by rw [hbudget]; exact hopen) hend

end

def textAt (b : Nat) (content : Bytes) : Bytes := if b = 0 then [] else textFrom b true content

/-- The text keeps within the limits on records and lines. -/
structure Acceptable (rule : RecordRule) (text : Bytes) : Prop where
  few : ((recordSplitter rule).records text).countP hasContent ≤ segmentCountMax
  lines : ∀ before, before ++ [newline] <+: text →
    ((recordSplitter rule).cuts (before ++ [newline])).part.length ≤ recordBytesMax
  last : ((recordSplitter rule).cuts text).part.length ≤ recordBytesMax

section
variable {rule : RecordRule} {markdown : Bool} {shape : EvidenceShape} {reader : Reader}
  {budget : StreamBudget} {p : TextProduct}

variable {stops : Bytes → Prop}

theorem new_outcome :
    Outcome stops rule markdown shape [] true (.ok (.new rule markdown shape)) := by
  refine .passed _ tracks_new ⟨Nat.zero_le _,?_⟩ rfl
  intro before hpre
  simp at hpre

theorem normalizeText_unbuffered (h : budget.buffer_bytes_max = 0) :
    normalizeText rule markdown shape reader budget = .ok ⟨[],0,[],0,0⟩ := by
  have hwindow : (BoundedStream.new reader budget).windowMax =
      .ok ([],.new reader budget) := by
    simp [BoundedStream.windowMax,BoundedStream.fill,BoundedStream.new,h,BoundedStream.fillLoop]
  rw [normalizeText,normalizeLoop,hwindow]
  rfl

theorem finish_outcome {text : Bytes} {at_start : Bool} {scan : ScanState}
    (h : Outcome stops rule markdown shape text at_start (.ok scan)) :
    (∃ s, scan.finish = .ok s ∧ s.text = text ∧ s.out_offset = text.length ∧
        s.segments = segmentsOf markdown shape [] 0 ((recordSplitter rule).records text) ∧
        ((recordSplitter rule).records text).countP hasContent ≤ segmentCountMax) ∨
      ∃ value, scan.finish = .error (.limitExceeded "segment count" value segmentCountMax) ∧
        segmentCountMax < ((recordSplitter rule).records text).countP hasContent := by
  cases h with
  | passed _ htracks hpasses _ =>
    have hflat := (recordSplitter rule).records_flatten text
    rcases htracks.close hpasses.few with ⟨s,hclose,hs,-,hfew⟩ | ⟨value,hclose,hmany⟩
    · left
      have htext := hs.text
      have hoffset := hs.out_offset
      rw [append_nil] at htext hoffset
      exact ⟨s,hclose,htext.trans hflat,by rw [hoffset]; exact congrArg _ hflat,hs.segments,hfew⟩
    · exact Or.inr ⟨value,hclose,hmany⟩

theorem normalizeText_cases (rule : RecordRule) (markdown : Bool) (shape : EvidenceShape)
    (reader : Reader) {budget : StreamBudget} (hopen : 0 < budget.buffer_bytes_max) :
    (∃ e, normalizeText rule markdown shape reader budget = .error e ∧ ¬reader.Healthy ∧
        ∀ limit value limit_value, e ≠ .limitExceeded limit value limit_value) ∨
      (∃ value before, normalizeText rule markdown shape reader budget =
          .error (.limitExceeded "structural record" value recordBytesMax) ∧
        before <+: textFrom budget.buffer_bytes_max true reader.rest ∧
        recordBytesMax < ((recordSplitter rule).cuts before).part.length ∧
        ((∃ front, before = front ++ [newline]) ∨
          ∃ j, before = textFrom budget.buffer_bytes_max true
            (reader.rest.take (j*budget.buffer_bytes_max)))) ∨
      (∃ value, normalizeText rule markdown shape reader budget =
          .error (.limitExceeded "segment count" value segmentCountMax) ∧
        segmentCountMax < ((recordSplitter rule).records
          (textFrom budget.buffer_bytes_max true reader.rest)).countP hasContent ∧
        Guarded rule budget.buffer_bytes_max [] true reader.rest) ∨
      ∃ p, normalizeText rule markdown shape reader budget = .ok p ∧
        p.text = textFrom budget.buffer_bytes_max true reader.rest ∧
        p.text_byte_size = p.text.length ∧
        p.segments = segmentsOf markdown shape [] 0 ((recordSplitter rule).records p.text) ∧
        Acceptable rule p.text ∧ Guarded rule budget.buffer_bytes_max [] true reader.rest := by
  have hsound := BoundedStream.new_sound reader budget
  have hlen : (BoundedStream.new reader budget).remaining.length < reader.rest.length+1 :=
    Nat.lt_succ_self _
  have hstart : (∃ e, normalizeLoop (reader.rest.length+1) (.new rule markdown shape)
        (.new reader budget) = .error e ∧ ¬reader.Healthy ∧
        ∀ limit value limit_value, e ≠ .limitExceeded limit value limit_value) ∨
      ∃ at_start, Outcome (fun before => ∃ j, before = textFrom budget.buffer_bytes_max true
          (reader.rest.take (j*budget.buffer_bytes_max))) rule markdown shape
        (textFrom budget.buffer_bytes_max true reader.rest) at_start
        ((normalizeLoop (reader.rest.length+1) (.new rule markdown shape)
          (.new reader budget)).map Prod.fst) :=
    normalizeLoop_outcome hsound hopen hlen (fun j => ⟨j,rfl⟩) new_outcome
  have hguard : (∀ e, normalizeLoop (reader.rest.length+1) (.new rule markdown shape)
        (.new reader budget) = .error e →
        ∃ value, e = .limitExceeded "segment count" value segmentCountMax) →
      Guarded rule budget.buffer_bytes_max [] true reader.rest :=
    normalizeLoop_guarded hsound new_outcome (Nat.zero_le _) hlen hopen
  rcases hstart with ⟨e,hloop,hsick,hlimit⟩ | ⟨at_start,hstart⟩
  · left
    exact ⟨e,by rw [normalizeText,hloop],hsick,hlimit⟩
  right
  cases hloop : normalizeLoop (reader.rest.length+1) (.new rule markdown shape)
      (.new reader budget) with
  | error e =>
    have hrun : normalizeText rule markdown shape reader budget = .error e := by
      rw [normalizeText,hloop]
    rw [hloop] at hstart
    cases hstart with
    | oversized value before hpre hlong hpoint =>
      exact Or.inl ⟨value,before,hrun,hpre,hlong,hpoint⟩
    | overflowing value hmany =>
      refine Or.inr (Or.inl ⟨value,hrun,lt_of_lt_of_le hmany ?_,hguard ?_⟩)
      · rw [Splitter.records,countP_append]
        exact Nat.le_add_right _ _
      · intro e he
        rw [hloop,Except.error.injEq] at he
        exact ⟨value,he.symm⟩
  | ok out =>
    obtain ⟨scan,s⟩ := out
    have hrun : normalizeText rule markdown shape reader budget = scan.finish.map fun last =>
        ⟨last.text,last.out_offset,last.segments,s.read_total,last.segments.length⟩ := by
      rw [normalizeText,hloop]
    have hguarded := hguard (by simp [hloop])
    rw [hloop] at hstart
    right
    rcases finish_outcome hstart with ⟨last,hfinish,htext,hoffset,hsegments,hfew⟩ |
      ⟨value,hfinish,hmany⟩
    · right
      rw [hfinish] at hrun
      have hsize : last.out_offset = last.text.length := by rw [hoffset,htext]
      rw [← htext] at hsegments hfew
      refine ⟨_,hrun,htext,hsize,hsegments,?_,hguarded⟩
      refine ⟨hfew,?_,?_⟩
      all_goals
        dsimp only
        rw [htext]
      · cases hstart with
        | passed _ _ hpasses _ => exact hpasses.lines
      · have hlast := hguarded reader.rest.length
        rw [take_of_length_le (Nat.le_mul_of_pos_right _ hopen)] at hlast
        cases hstart with
        | passed _ _ hpasses _ => exact hlast hpasses.few
    · left
      rw [hfinish] at hrun
      exact ⟨value,hrun,hmany,hguarded⟩

theorem normalizeText_ok (h : normalizeText rule markdown shape reader budget = .ok p) :
    p.text = textAt budget.buffer_bytes_max reader.rest ∧ p.text_byte_size = p.text.length ∧
      p.segments = segmentsOf markdown shape [] 0 ((recordSplitter rule).records p.text) ∧
      (0 < budget.buffer_bytes_max → Acceptable rule p.text ∧
        Guarded rule budget.buffer_bytes_max [] true reader.rest) := by
  rcases Nat.eq_zero_or_pos budget.buffer_bytes_max with hzero | hopen
  · rw [normalizeText_unbuffered hzero,Except.ok.injEq] at h
    subst h
    rw [hzero]
    exact ⟨rfl,rfl,rfl,fun hpos => absurd hpos (Nat.lt_irrefl 0)⟩
  · rw [textAt,if_neg (Nat.pos_iff_ne_zero.mp hopen)]
    rcases normalizeText_cases rule markdown shape reader hopen with ⟨e,hrun,-⟩ | ⟨value,before,hrun,-⟩ | ⟨value,hrun,-⟩ |
        ⟨p',hrun,htext,hsize,hsegments,hacceptable,hguarded⟩
    all_goals rw [h] at hrun
    all_goals cases hrun
    exact ⟨htext,hsize,hsegments,fun _ => ⟨hacceptable,hguarded⟩⟩

end

def Shown (b : Nat) (content : Bytes) : Prop :=
  if b = 0 then clean content = [] else bomWhole b content = true

theorem textAt_eq_clean {content : Bytes} : textAt b content = clean content ↔ Shown b content := by
  unfold textAt Shown
  split_ifs with hb
  · exact eq_comm
  · rw [textFrom,Bool.true_and]
    cases hwhole : bomWhole b content with
    | true => simp
    | false =>
      have hbom : utf8Bom.isPrefixOf (content.dropWhile (· == carriageReturn)) = true := by
        rw [bomWhole,Bool.or_eq_false_iff] at hwhole
        simpa using hwhole.1
      have hne : utf8Bom ++ clean content ≠ clean content := by
        intro heq
        have hlen := congrArg List.length heq
        simp only [utf8Bom,length_append,length_cons] at hlen
        omega
      simpa [plain_of_bom hbom] using hne

/-- What is promised of a normalized text: it is the content without a leading mark
and without carriage returns, and it is indexed. -/
structure Normalized (shape : EvidenceShape) (content : Bytes) (p : TextProduct) : Prop where
  text : p.text = clean content
  indexed : Indexes shape p.text p.segments

/-- Two runs over one content keep the promise, and come to the same, exactly when
both buffers show the mark whole. -/
theorem normalized_iff {rule : RecordRule} {markdown : Bool} {shape : EvidenceShape}
    {reader reader' : Reader} {budget budget' : StreamBudget} {p p' : TextProduct}
    (hsame : reader'.rest = reader.rest)
    (h : normalizeText rule markdown shape reader budget = .ok p)
    (h' : normalizeText rule markdown shape reader' budget' = .ok p') :
    (Normalized shape reader.rest p ∧ p'.text = p.text ∧ p'.segments = p.segments) ↔
      Shown budget.buffer_bytes_max reader.rest ∧ Shown budget'.buffer_bytes_max reader.rest := by
  obtain ⟨htext,-,hsegments,-⟩ := normalizeText_ok h
  obtain ⟨htext',-,hsegments',-⟩ := normalizeText_ok h'
  rw [hsame] at htext'
  rw [← textAt_eq_clean,← textAt_eq_clean,← htext,← htext']
  constructor
  · rintro ⟨hclean,hsametext,-⟩
    exact ⟨hclean.text,hsametext.trans hclean.text⟩
  · rintro ⟨hclean,hclean'⟩
    have hsametext : p'.text = p.text := hclean'.trans hclean.symm
    refine ⟨⟨hclean,?_⟩,hsametext,by rw [hsegments,hsegments',hsametext]⟩
    have hindexes := segmentsOf_indexes markdown shape ((recordSplitter rule).records p.text)
    rwa [← hsegments,Splitter.records_flatten] at hindexes

theorem normalized_demo :
    (Normalized .document [0xEF,0xBB,0xBF,97,13,10] ⟨[97,10],2,[⟨0,2,.lineRange 1 1,0⟩],6,1⟩ ∧
        ([97,10] : Bytes) = [97,10] ∧
        ([⟨0,2,.lineRange 1 1,0⟩] : List Segment) = [⟨0,2,.lineRange 1 1,0⟩]) ↔
      Shown 64 [0xEF,0xBB,0xBF,97,13,10] ∧ Shown 3 [0xEF,0xBB,0xBF,97,13,10] := by
  have h : normalizeText .paragraph false .document ⟨[0xEF,0xBB,0xBF,97,13,10],[]⟩ ⟨.normalize,64⟩ =
      .ok ⟨[97,10],2,[⟨0,2,.lineRange 1 1,0⟩],6,1⟩ := by decide
  have h' : normalizeText .paragraph false .document ⟨[0xEF,0xBB,0xBF,97,13,10],[.ok 0]⟩
      ⟨.normalize,3⟩ = .ok ⟨[97,10],2,[⟨0,2,.lineRange 1 1,0⟩],6,1⟩ := by decide
  refine normalized_iff ?_ h h'
  rfl

/-- A buffer of two bytes never sees the mark, and leaves it in the text. -/
theorem bom_kept : ∃ p p',
    normalizeText .paragraph false .document ⟨[0xEF,0xBB,0xBF,97],[]⟩ ⟨.normalize,2⟩ = .ok p ∧
    normalizeText .paragraph false .document ⟨[0xEF,0xBB,0xBF,97],[]⟩ ⟨.normalize,64⟩ = .ok p' ∧
    p.text ≠ clean [0xEF,0xBB,0xBF,97] ∧ p'.text ≠ p.text ∧ p'.segments ≠ p.segments := by
  exact ⟨⟨[0xEF,0xBB,0xBF,97],4,[⟨0,4,.lineRange 1 1,0⟩],4,1⟩,⟨[97],1,[⟨0,1,.lineRange 1 1,0⟩],4,1⟩,
    by decide,by decide,by decide,by decide,by decide⟩

def Uniform (rule : RecordRule) (markdown : Bool) (shape : EvidenceShape) (content : Bytes) : Prop :=
  ∀ reader reader' budget budget' p, reader.rest = content → reader'.rest = content →
    0 < budget.buffer_bytes_max → 0 < budget'.buffer_bytes_max →
    normalizeText rule markdown shape reader budget = .ok p →
      (∀ s ∈ p.segments, s.byte_end-s.byte_start ≤ recordBytesMax) ∧
      ∀ value, normalizeText rule markdown shape reader' budget' ≠
        .error (.limitExceeded "structural record" value recordBytesMax)

/-- At no point of the text is more open than a record may have, and no record with
content has more, unless there are too many of them. -/
structure Moderate (rule : RecordRule) (text : Bytes) : Prop where
  fits : ∀ before, before <+: text →
    ((recordSplitter rule).cuts before).part.length ≤ recordBytesMax
  short : ((recordSplitter rule).records text).countP hasContent ≤ segmentCountMax →
    ∀ record ∈ (recordSplitter rule).records text, hasContent record = true →
      record.length ≤ recordBytesMax

section
variable {rule : RecordRule} {markdown : Bool} {shape : EvidenceShape} {content text : Bytes}

theorem cuts_bom (text : Bytes) : (recordSplitter rule).cuts (utf8Bom ++ text) =
    ((recordSplitter rule).cuts text).lead utf8Bom := by
  refine (recordSplitter rule).cuts_lead ?_ text
  cases rule <;> rfl

theorem clean_eq_plain
    (h : utf8Bom.isPrefixOf (content.dropWhile (· == carriageReturn)) = false) :
    clean content = plain content := by
  rw [clean,stripBom,if_neg (by simp [h]),plain_dropWhile]

theorem textFrom_cases (b : Nat) (content : Bytes) :
    textFrom b true content = clean content ∨ textFrom b true content = plain content := by
  unfold textFrom
  split_ifs
  · exact Or.inl rfl
  · exact Or.inr rfl

theorem textFrom_one (content : Bytes) : textFrom 1 true content = plain content := by
  rw [textFrom,bomWhole]
  cases hbom : utf8Bom.isPrefixOf (content.dropWhile (· == carriageReturn)) with
  | true => simp [Nat.mod_one]
  | false => simpa using clean_eq_plain hbom

theorem Acceptable.of_bom (h : Acceptable rule (utf8Bom ++ text)) : Acceptable rule text := by
  have hpart : ∀ before, ((recordSplitter rule).cuts before).part.length ≤
      ((recordSplitter rule).cuts (utf8Bom ++ before)).part.length := by
    intro before
    rw [cuts_bom]
    exact Cuts.lead_part_length _ _
  refine ⟨le_trans ?_ h.few,?_,(hpart text).trans h.last⟩
  · rw [Splitter.records,Splitter.records,cuts_bom]
    have hfull : ∀ record, hasContent record = true → hasContent (utf8Bom ++ record) = true := by
      intro record hrecord
      simp [hasContent] at hrecord ⊢
      exact Or.inr hrecord
    cases hclosed : ((recordSplitter rule).cuts text).closed with
    | nil =>
      simp only [Cuts.lead,hclosed,nil_append,countP_singleton]
      split_ifs with hpart hlead
      · exact Nat.le_refl _
      · exact absurd (hfull _ hpart) hlead
      · exact Nat.zero_le _
      · exact Nat.zero_le _
    | cons record closed =>
      simp only [Cuts.lead,hclosed,cons_append,countP_cons]
      split_ifs with hrecord hlead
      · exact Nat.le_refl _
      · exact absurd (hfull _ hrecord) hlead
      · exact Nat.le_add_right _ _
      · exact Nat.le_refl _
  · intro before hbefore
    have hline := h.lines (utf8Bom ++ before) (by
      rw [append_assoc]
      exact (prefix_append_right_inj _).mpr hbefore)
    rw [append_assoc] at hline
    exact (hpart _).trans hline

variable {before : Bytes}

theorem exists_window (h : before <+: clean content) (hne : before ≠ []) :
    ∃ b, 0 < b ∧ textFrom b true (content.take b) = before ∧
      textFrom b true content = clean content := by
  obtain ⟨part,hpart,hbefore⟩ := prefix_filter_iff.mp h
  have hpartne : part ≠ [] := by
    rintro rfl
    exact hne hbefore
  have hpos := length_pos_iff.mpr hpartne
  have hall : (content.takeWhile (· == carriageReturn)).all (· == carriageReturn) = true := by
    rw [all_eq_true]
    intro c hc
    exact mem_takeWhile_imp (p := (· == carriageReturn)) hc
  have hcontent := takeWhile_append_dropWhile (p := (· == carriageReturn)) (l := content)
  cases hbom : utf8Bom.isPrefixOf (content.dropWhile (· == carriageReturn)) with
  | true =>
    obtain ⟨rest,hrest⟩ := List.isPrefixOf_iff_prefix.mp hbom
    have hstrip : stripBom (content.dropWhile (· == carriageReturn)) = rest := by
      rw [stripBom,if_pos hbom,← hrest,drop_left]
    rw [hstrip] at hpart
    have hpre : content.takeWhile (· == carriageReturn) ++ (utf8Bom ++ part) <+: content := by
      conv => rhs; rw [← hcontent,← hrest]
      exact (prefix_append_right_inj _).mpr ((prefix_append_right_inj _).mpr hpart)
    have hlen : (content.takeWhile (· == carriageReturn) ++ (utf8Bom ++ part)).length =
        (content.takeWhile (· == carriageReturn)).length+(3+part.length) := by
      rw [length_append,length_append]
      rfl
    refine ⟨(content.takeWhile (· == carriageReturn) ++ (utf8Bom ++ part)).length,by omega,?_,?_⟩
    · rw [← prefix_iff_eq_take.mp hpre,textFrom_window _ (Nat.le_refl _),keep,if_pos rfl,clean_returns hall]
      exact hbefore.symm
    · rw [textFrom,bomWhole,hlen,Nat.mod_eq_of_lt (by omega),decide_eq_true (by omega)]
      simp
  | false =>
    have hstrip : stripBom (content.dropWhile (· == carriageReturn)) =
        content.dropWhile (· == carriageReturn) := by
      rw [stripBom,if_neg (by simp [hbom])]
    rw [hstrip] at hpart
    have hpre : content.takeWhile (· == carriageReturn) ++ part <+: content := by
      conv => rhs; rw [← hcontent]
      exact (prefix_append_right_inj _).mpr hpart
    have hclean : clean part = plain part := by
      obtain ⟨b,more,rfl⟩ := exists_cons_of_ne_nil hpartne
      obtain ⟨rest,hrest⟩ := hpart
      have hb : (b == carriageReturn) = false := by
        have hhead := head_dropWhile_not (· == carriageReturn)
          (show content.dropWhile (· == carriageReturn) ≠ [] by simp [← hrest])
        simpa only [← hrest,cons_append,head_cons] using hhead
      apply clean_eq_plain
      rw [dropWhile_cons,hb,if_neg (by simp)]
      by_contra hlead
      rw [Bool.not_eq_false] at hlead
      rw [← hrest,isPrefixOf_append rest hlead] at hbom
      cases hbom
    refine ⟨(content.takeWhile (· == carriageReturn) ++ part).length,?_,?_,?_⟩
    · rw [length_append]
      omega
    · rw [← prefix_iff_eq_take.mp hpre,textFrom_window _ (Nat.le_refl _),keep,if_pos rfl,clean_returns hall,
        hclean]
      exact hbefore.symm
    · rw [textFrom,bomWhole,hbom]
      simp

theorem Acceptable.accepted (h : Acceptable rule (clean content)) (markdown : Bool)
    (shape : EvidenceShape) {b : Nat} (hb : content.length < b) :
    ∃ p, normalizeText rule markdown shape ⟨content,[]⟩ ⟨.normalize,b⟩ = .ok p ∧
      p.text = clean content := by
  have hhealthy : (⟨content,[]⟩ : Reader).Healthy := by simp [Reader.Healthy]
  have htext : textFrom b true content = clean content := textFrom_window true hb.le
  have hopen : 0 < (⟨.normalize,b⟩ : StreamBudget).buffer_bytes_max := Nat.zero_lt_of_lt hb
  rcases normalizeText_cases rule markdown shape ⟨content,[]⟩ hopen with
      ⟨e,-,hsick,-⟩ | ⟨value,before,-,hpre,hlong,hpoint⟩ | ⟨value,-,hmany,-⟩ | ⟨p,hrun,hp,-⟩
  · exact absurd hhealthy hsick
  · rw [htext] at hpre
    rcases hpoint with ⟨front,rfl⟩ | ⟨j,rfl⟩
    · exact absurd hlong (Nat.not_lt.mpr (h.lines front hpre))
    · cases j with
      | zero =>
        rw [Nat.zero_mul,take_zero,textFrom_nil] at hlong
        exact absurd hlong (Nat.not_lt.mpr (Nat.zero_le _))
      | succ j =>
        have hall : content.length ≤ (j+1)*b :=
          hb.le.trans (Nat.le_mul_of_pos_left _ (Nat.succ_pos j))
        rw [take_of_length_le hall,htext] at hlong
        exact absurd hlong (Nat.not_lt.mpr h.last)
  · rw [htext] at hmany
    exact absurd hmany (Nat.not_lt.mpr h.few)
  · exact ⟨p,hrun,hp.trans htext⟩

section
variable (h : Uniform rule markdown shape content)
include h

section
variable (hacc : Acceptable rule (clean content))
include hacc

theorem Uniform.guarded
    {b : Nat} (hb : 0 < b) :
    Guarded rule b [] true content := by
  have hhealthy : (⟨content,[]⟩ : Reader).Healthy := by simp [Reader.Healthy]
  obtain ⟨p,hp,-⟩ := hacc.accepted markdown shape (Nat.lt_succ_self _)
  have hopen : 0 < (⟨.normalize,b⟩ : StreamBudget).buffer_bytes_max := hb
  rcases normalizeText_cases rule markdown shape ⟨content,[]⟩ hopen with
      ⟨e,-,hsick,-⟩ | ⟨value,before,hrun,-⟩ | ⟨value,-,-,hguarded⟩ | ⟨p,-,-,-,-,-,hguarded⟩
  · exact absurd hhealthy hsick
  · exact absurd hrun ((h _ _ _ _ p rfl rfl (Nat.succ_pos _) hb hp).2 value)
  · exact hguarded
  · exact hguarded

theorem Uniform.fits_clean
    (hpre : before <+: clean content) :
    ((recordSplitter rule).cuts before).part.length ≤ recordBytesMax := by
  by_cases hne : before = []
  · subst hne
    exact Nat.zero_le _
  · obtain ⟨b,hb,hbefore,-⟩ := exists_window hpre hne
    have hguard := h.guarded hacc hb 1
    rw [Nat.one_mul,hbefore,nil_append] at hguard
    refine hguard (le_trans ?_ hacc.few)
    obtain ⟨more,hmore⟩ := hpre
    rw [← hmore,Splitter.records,countP_append]
    exact ((recordSplitter rule).closed_append before more).sublist.countP_le.trans
      (Nat.le_add_right _ _)

theorem Uniform.fits_plain
    (hpre : before <+: plain content) :
    ((recordSplitter rule).cuts before).part.length ≤ recordBytesMax := by
  cases hbom : utf8Bom.isPrefixOf (content.dropWhile (· == carriageReturn)) with
  | false => exact h.fits_clean hacc (by rwa [clean_eq_plain hbom])
  | true =>
    by_cases hlen : before.length ≤ 3
    · have hflat := congrArg List.length ((recordSplitter rule).cuts_flatten before)
      rw [length_append] at hflat
      simp only [recordBytesMax]
      omega
    · rw [plain_of_bom hbom] at hpre
      obtain ⟨rest,rfl⟩ := prefix_of_prefix_length_le (prefix_append utf8Bom _) hpre
        (Nat.le_of_not_le hlen)
      have hrest : rest <+: clean content := (prefix_append_right_inj _).mp hpre
      by_cases hclosed : ((recordSplitter rule).cuts rest).closed = []
      · -- the first record is still open, so nothing has been counted
        rw [← plain_of_bom hbom] at hpre
        obtain ⟨part,⟨more,hpart⟩,hbefore⟩ := prefix_filter_iff.mp hpre
        have hguard := h.guarded hacc Nat.one_pos part.length
        rw [Nat.mul_one,textFrom_one,nil_append,← hpart,take_left,plain,← hbefore]
          at hguard
        refine hguard ?_
        rw [cuts_bom,(Cuts.lead_closed_nil _ _).mpr hclosed]
        exact Nat.zero_le _
      · rw [cuts_bom,Cuts.lead_part_of_closed _ _ hclosed]
        exact h.fits_clean hacc hrest

end

theorem Uniform.short {reader : Reader}
    {budget : StreamBudget} {p : TextProduct} (hreader : reader.rest = content)
    (hopen : 0 < budget.buffer_bytes_max)
    (hp : normalizeText rule markdown shape reader budget = .ok p) {record : Bytes}
    (hrecord : record ∈ (recordSplitter rule).records p.text) (hfull : hasContent record = true) :
    record.length ≤ recordBytesMax := by
  obtain ⟨-,-,hsegments,-⟩ := normalizeText_ok hp
  obtain ⟨s,hs,hlen⟩ := exists_segmentOf markdown shape [] 0 hrecord hfull
  rw [← hsegments] at hs
  rw [← hlen]
  exact (h reader reader budget budget p hreader hreader hopen hopen hp).1 s hs

theorem Uniform.moderate
    (hacc : Acceptable rule (clean content)) :
    Moderate rule (clean content) ∧ Moderate rule (plain content) := by
  have hhealthy : (⟨content,[]⟩ : Reader).Healthy := by simp [Reader.Healthy]
  obtain ⟨p,hp,htext⟩ := hacc.accepted markdown shape (Nat.lt_succ_self _)
  refine ⟨⟨fun before hpre => h.fits_clean hacc hpre,?_⟩,
    ⟨fun before hpre => h.fits_plain hacc hpre,?_⟩⟩
  · intro _ record hrecord hfull
    exact h.short rfl (Nat.succ_pos _) hp (by rwa [htext]) hfull
  · intro hfew record hrecord hfull
    have hopen : 0 < (⟨.normalize,1⟩ : StreamBudget).buffer_bytes_max := Nat.one_pos
    rcases normalizeText_cases rule markdown shape ⟨content,[]⟩ hopen with
        ⟨e,-,hsick,-⟩ | ⟨value,before,hrun,-⟩ | ⟨value,-,hmany,-⟩ | ⟨p',hp',htext',-⟩
    · exact absurd hhealthy hsick
    · exact absurd hrun ((h _ _ _ _ p rfl rfl (Nat.succ_pos _) Nat.one_pos hp).2 value)
    · exact absurd (lt_of_lt_of_eq hmany (by rw [textFrom_one])) (Nat.not_lt.mpr hfew)
    · exact h.short rfl Nat.one_pos hp' (by rwa [htext',textFrom_one]) hfull

end

theorem uniform_of_moderate (hclean : Moderate rule (clean content)) (hplain : Moderate rule (plain content)) :
    Uniform rule markdown shape content := by
  intro reader reader' budget budget' p hreader hreader' hopen hopen' hp
  have hmoderate : ∀ b, Moderate rule (textFrom b true content) := by
    intro b
    rcases textFrom_cases b content with hb | hb
    · rwa [hb]
    · rwa [hb]
  obtain ⟨htext,-,hsegments,hguards⟩ := normalizeText_ok hp
  obtain ⟨hacc,-⟩ := hguards hopen
  rw [textAt,if_neg (Nat.pos_iff_ne_zero.mp hopen),hreader] at htext
  constructor
  · intro s hs
    rw [hsegments] at hs
    obtain ⟨hmem,hfull,hlen,-⟩ := segmentsOf_slice hs
    rw [hlen]
    have hshort := (hmoderate budget.buffer_bytes_max).short
    rw [← htext] at hshort
    exact hshort hacc.few _ hmem hfull
  · intro value hrun
    rcases normalizeText_cases rule markdown shape reader' hopen' with ⟨e,hrun',-,hlimit⟩ | ⟨value',before,-,hpre,hlong,-⟩ |
        ⟨value',hrun',-⟩ | ⟨p',hrun',-⟩
    · rw [hrun,Except.error.injEq] at hrun'
      exact hlimit _ _ _ hrun'.symm
    · rw [hreader'] at hpre
      exact absurd hlong (Nat.not_lt.mpr ((hmoderate _).fits before hpre))
    · rw [hrun] at hrun'
      simp at hrun'
    · rw [hrun] at hrun'
      cases hrun'

theorem uniform_of_refused (h : ¬Acceptable rule (clean content)) :
    Uniform rule markdown shape content := by
  intro reader reader' budget budget' p hreader hreader' hopen hopen' hp
  obtain ⟨htext,-,-,hguards⟩ := normalizeText_ok hp
  obtain ⟨hacc,-⟩ := hguards hopen
  rw [textAt,if_neg (Nat.pos_iff_ne_zero.mp hopen),hreader] at htext
  refine absurd ?_ h
  rcases textFrom_cases budget.buffer_bytes_max content with hb | hb
  · rwa [htext,hb] at hacc
  · rw [htext,hb] at hacc
    cases hbom : utf8Bom.isPrefixOf (content.dropWhile (· == carriageReturn)) with
    | false => rwa [clean_eq_plain hbom]
    | true =>
      rw [plain_of_bom hbom] at hacc
      exact hacc.of_bom

/-- A buffer that holds nothing accepts every content as empty. The others treat it
alike exactly when all of them refuse it, or no record of it is too large. -/
theorem uniform_iff (rule : RecordRule) (markdown : Bool) (shape : EvidenceShape)
    (content : Bytes) :
    (∀ stage offers, normalizeText rule markdown shape ⟨content,offers⟩ ⟨stage,0⟩ =
        .ok ⟨[],0,[],0,0⟩) ∧
      (Uniform rule markdown shape content ↔
        ¬Acceptable rule (clean content) ∨
          Moderate rule (clean content) ∧ Moderate rule (plain content)) := by
  refine ⟨fun stage offers => normalizeText_unbuffered rfl,?_,?_⟩
  · intro h
    by_cases hacc : Acceptable rule (clean content)
    · exact Or.inr (h.moderate hacc)
    · exact Or.inl hacc
  · rintro (hrefused | ⟨hclean,hplain⟩)
    · exact uniform_of_refused hrefused
    · exact uniform_of_moderate hclean hplain

end

def largeRow : Bytes := List.replicate (recordBytesMax+1) 97 ++ [newline]

theorem cuts_replicate (n : Nat) : (recordSplitter .csvRecord).cuts (List.replicate n 97) =
    ⟨[],List.replicate n 97,(false,false)⟩ := by
  induction n with
  | zero => rfl
  | succ n ih =>
    rw [replicate_succ',Splitter.cuts_snoc,ih]
    rfl

theorem cuts_largeRow : (recordSplitter .csvRecord).cuts largeRow =
    ⟨[largeRow],[],(true,false)⟩ := by
  rw [largeRow,Splitter.cuts_snoc,cuts_replicate]
  rfl

theorem plain_replicate (n : Nat) : plain (List.replicate n 97) = List.replicate n 97 := by
  rw [plain,filter_eq_self]
  intro b hb
  rw [eq_of_mem_replicate hb]
  rfl

theorem clean_largeRow : clean largeRow = largeRow := by
  rw [clean_eq_plain rfl,largeRow,plain_append,plain_replicate]
  rfl

theorem largeRow_acceptable : Acceptable .csvRecord (clean largeRow) := by
  rw [clean_largeRow]
  refine ⟨?_,?_,?_⟩
  · rw [Splitter.records,cuts_largeRow]
    exact countP_le_length.trans (by decide)
  · intro before hbefore
    rcases prefix_concat_iff.mp hbefore with heq | hpre
    · obtain ⟨rfl,-⟩ := append_inj' heq rfl
      rw [← largeRow,cuts_largeRow]
      exact Nat.zero_le _
    · have hmem : newline ∈ List.replicate (recordBytesMax+1) 97 := hpre.subset (by simp)
      exact absurd (eq_of_mem_replicate hmem) (by decide)
  · rw [cuts_largeRow]
    exact Nat.zero_le _

/-- Behind the default buffer the row becomes a segment; behind one of a record and
a byte it is refused. -/
theorem large_row_uneven : ∃ p value,
    normalizeText .csvRecord false .table ⟨largeRow,[]⟩
      ⟨.normalize,stageBufferBytesMaxDefault⟩ = .ok p ∧
    (∃ s ∈ p.segments, recordBytesMax < s.byte_end-s.byte_start) ∧
    normalizeText .csvRecord false .table ⟨largeRow,[]⟩ ⟨.normalize,recordBytesMax+1⟩ =
      .error (.limitExceeded "structural record" value recordBytesMax) := by
  have hlen : largeRow.length = recordBytesMax+2 := by simp [largeRow]
  have hhealthy : (⟨largeRow,[]⟩ : Reader).Healthy := by simp [Reader.Healthy]
  obtain ⟨p,hp,htext⟩ := largeRow_acceptable.accepted false .table
    (show largeRow.length < stageBufferBytesMaxDefault by rw [hlen]; decide)
  obtain ⟨-,-,hsegments,-⟩ := normalizeText_ok hp
  rw [htext,clean_largeRow,Splitter.records,cuts_largeRow] at hsegments
  have hwindow : textFrom (recordBytesMax+1) true (largeRow.take (1*(recordBytesMax+1))) =
      List.replicate (recordBytesMax+1) 97 := by
    have htake : largeRow.take (1*(recordBytesMax+1)) = List.replicate (recordBytesMax+1) 97 := by
      rw [Nat.one_mul,largeRow]
      exact take_left' (length_replicate)
    rw [htake,textFrom_window true (by simp)]
    exact (clean_eq_plain rfl).trans (plain_replicate _)
  have hlarge : ¬Guarded .csvRecord (recordBytesMax+1) [] true largeRow := by
    intro hguarded
    have hguard := hguarded 1
    rw [hwindow,nil_append,cuts_replicate,length_replicate] at hguard
    exact absurd (hguard (Nat.zero_le _)) (Nat.not_succ_le_self _)
  have hopen : 0 < (⟨.normalize,recordBytesMax+1⟩ : StreamBudget).buffer_bytes_max :=
    Nat.succ_pos _
  rcases normalizeText_cases .csvRecord false .table ⟨largeRow,[]⟩ hopen with
      ⟨e,-,hsick,-⟩ | ⟨value,before,hrun,-⟩ | ⟨value,-,-,hguarded⟩ | ⟨p',-,-,-,-,-,hguarded⟩
  · exact absurd hhealthy hsick
  · refine ⟨p,value,hp,?_,hrun⟩
    obtain ⟨s,hs,hspan⟩ := exists_segmentOf false .table [] 0
      (show largeRow ∈ [largeRow,[]] from mem_cons_self) rfl
    refine ⟨s,by rw [hsegments]; exact hs,?_⟩
    rw [hspan,hlen]
    omega
  · exact absurd hguarded hlarge
  · exact absurd hguarded hlarge

end ProjectOS.Ingest
