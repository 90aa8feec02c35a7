import ProjectOS.Lib.Amid
import ProjectOS.Lib.Replay
import ProjectOS.Lib.Sessions
import ProjectOS.Ingest.Transcribe

/-! The segments of a pass follow one another in time, as long as the model
returns those of one window in order. -/

namespace ProjectOS.Ingest
open Lib Domain List Lib.Prog
open Gateway (TranscriptSegment)

/-- The segments are numbered without a gap and begin where those before have ended.
-/
structure Ordered (t : SegmentTable) : Prop where
  dense : ∃ n, ∀ i, (t.get? i).isSome ↔ i < n
  ranges : ∀ i row, t.get? i = some row → row.start_ms ≤ row.end_ms
  apart : ∀ i j a b, t.get? i = some a → t.get? j = some b → i < j → a.end_ms ≤ b.start_ms

def spans (t : SegmentTable) : Nat → Option (Nat × Nat) :=
  t.column fun row => (row.start_ms,row.end_ms)

/-- The segments of a pass, dense, in order, and up to the watermark. -/
structure Reaching (s : Nat → Option (Nat × Nat)) (n committed_to_ms : Nat) : Prop where
  dense : ∀ i, (s i).isSome ↔ i < n
  ranges : ∀ i a, s i = some a → a.1 ≤ a.2
  apart : ∀ i j a b, s i = some a → s j = some b → i < j → a.2 ≤ b.1
  within : ∀ i a, s i = some a → a.2 ≤ msColumn committed_to_ms
  few : n ≤ transcriptSegmentCountMax

variable {t : SegmentTable}

theorem spans_some {i : Nat} {row : SegmentRow} (h : t.get? i = some row) :
    spans t i = some (row.start_ms,row.end_ms) := by
  rw [spans,Table.column,h]
  rfl

theorem of_spans {i : Nat} {a : Nat × Nat} (h : spans t i = some a) :
    ∃ row, t.get? i = some row ∧ a = (row.start_ms,row.end_ms) := by
  rw [spans,Table.column] at h
  obtain ⟨row,hrow,rfl⟩ := Option.map_eq_some_iff.mp h
  exact ⟨row,hrow,rfl⟩

theorem spans_isSome (t : SegmentTable) (i : Nat) : (spans t i).isSome = (t.get? i).isSome := by
  rw [spans,Table.column,Option.isSome_map]

variable {n committed_to_ms : Nat}

theorem Reaching.ordered (h : Reaching (spans t) n committed_to_ms) : Ordered t where
  dense := ⟨n,fun i => by rw [← spans_isSome]; exact h.dense i⟩
  ranges i row hrow := h.ranges i _ (spans_some hrow)
  apart i j a b ha hb hij := h.apart i j _ _ (spans_some ha) (spans_some hb) hij

theorem msColumn_mono {a b : Nat} (h : a ≤ b) : msColumn a ≤ msColumn b :=
  min_le_min_right _ h

theorem msColumn_le (a : Nat) : msColumn a ≤ a := min_le_left _ _

theorem reaching_empty : Reaching (spans Table.empty) 0 0 where
  dense i := by simp [spans,Table.column]
  ranges i a h := by cases h
  apart i j a b h := by cases h
  within i a h := by cases h
  few := Nat.zero_le _

theorem Reaching.lastEndMs_le (h : Reaching (spans t) n committed_to_ms) :
    lastEndMs t ≤ committed_to_ms :=
  maxOver_le fun i _ hrow => (h.within i _ (spans_some hrow)).trans (msColumn_le _)

theorem maxOver_dense (hdense : ∀ i, (t.get? i).isSome ↔ i < n) (hsome : t.rows ≠ []) :
    maxOver (fun entry => entry.1) t+1 = n := by
  obtain ⟨entry,hentry⟩ := exists_mem_of_ne_nil _ hsome
  have hget := t.mem_rows.mp (show (entry.1,entry.2) ∈ t.rows from hentry)
  have hpos : entry.1 < n := (hdense _).mp (by rw [hget]; rfl)
  have hle : maxOver (fun entry => entry.1) t ≤ n-1 := by
    refine maxOver_le fun i row hrow => ?_
    have hi : i < n := (hdense i).mp (by rw [hrow]; rfl)
    show i ≤ n-1
    omega
  obtain ⟨row,hrow⟩ := Option.isSome_iff_exists.mp ((hdense (n-1)).mpr (by omega))
  have hge : n-1 ≤ maxOver (fun entry => entry.1) t := le_maxOver (f := fun entry => entry.1) hrow
  omega

theorem resumePoint_dense (hdense : ∀ i, (t.get? i).isSome ↔ i < n)
    (hfew : n ≤ transcriptSegmentCountMax) (hsome : t.rows ≠ []) :
    resumePoint (readTranscriptProgress t) = (n,lastEndMs t) := by
  rw [readTranscriptProgress,if_neg hsome,resumePoint,satAdd32,maxOver_dense hdense hsome,
    min_eq_left (hfew.trans (by decide))]

theorem Reaching.resumes (h : Reaching (spans t) n committed_to_ms) :
    Reaching (spans t) (resumePoint (readTranscriptProgress t)).1
      (resumePoint (readTranscriptProgress t)).2 := by
  by_cases hempty : t.rows = []
  · have ht : t = Table.empty := Table.ext_rows hempty
    subst ht
    exact reaching_empty
  · rw [resumePoint_dense (fun i => by rw [← spans_isSome]; exact h.dense i) h.few hempty]
    refine { h with within := ?_ }
    intro i a ha
    obtain ⟨row,hrow,rfl⟩ := of_spans ha
    have hstored := (h.within i _ ha).trans (min_le_right _ msColumnMax)
    exact le_min (le_maxOver (f := fun entry => entry.2.end_ms) hrow) hstored

theorem Reaching.put (seq : Nat) (h : Reaching (spans t) n committed_to_ms)
    (hfew : n < transcriptSegmentCountMax) {segment : TranscriptSegment}
    (hstart : committed_to_ms ≤ segment.start_ms) :
    Reaching (spans (t.put n (segmentRow seq (segmentFact n segment)))) (n+1)
      (max committed_to_ms (max segment.end_ms segment.start_ms)) := by
  have hput : ∀ i, spans (t.put n (segmentRow seq (segmentFact n segment))) i =
      if i = n then some (msColumn segment.start_ms,msColumn (max segment.end_ms segment.start_ms))
      else spans t i := by
    intro i
    rw [spans,Table.column_put,Function.update_apply]
    rfl
  have hlt : ∀ i a, spans t i = some a → i < n := fun i a ha =>
    (h.dense i).mp (by rw [ha]; rfl)
  refine ⟨?_,?_,?_,?_,hfew⟩
  · intro i
    rw [hput]
    split
    · simp; omega
    · rw [h.dense]
      omega
  · intro i a ha
    rw [hput] at ha
    split at ha
    · cases ha
      exact msColumn_mono (le_max_right _ _)
    · exact h.ranges i a ha
  · intro i j a b ha hb hij
    rw [hput] at ha hb
    split at hb
    · rename_i hj
      rw [if_neg (by omega)] at ha
      cases hb
      exact (h.within i a ha).trans (msColumn_mono hstart)
    · rw [if_neg (by have := hlt j b hb; omega)] at ha
      exact h.apart i j a b ha hb hij
  · intro i a ha
    rw [hput] at ha
    split at ha
    · cases ha
      exact msColumn_mono (le_max_right _ _)
    · exact (h.within i a ha).trans (msColumn_mono (le_max_left _ _))

def After (a b : TranscriptSegment) : Prop := max a.end_ms a.start_ms ≤ b.start_ms

instance : DecidableRel After := fun _ _ => inferInstanceAs (Decidable (_ ≤ _))

theorem Reaching.upsert (seq : Nat) {segments : List TranscriptSegment}
    {facts : List TranscriptSegmentFact} (hfacts : segmentFacts n segments = .ok facts)
    (h : Reaching (spans t) n committed_to_ms) (horder : segments.Pairwise After)
    (hstart : ∀ s ∈ segments, committed_to_ms ≤ s.start_ms) :
    Reaching (spans (upsertSegments seq facts t)) (n+facts.length)
      (facts.foldl (fun latest fact => max latest fact.end_ms) committed_to_ms) ∧
    ∀ b, (∀ s ∈ segments, max s.end_ms s.start_ms ≤ b) → committed_to_ms ≤ b →
      facts.foldl (fun latest fact => max latest fact.end_ms) committed_to_ms ≤ b := by
  induction segments generalizing n committed_to_ms facts t with
  | nil =>
    cases hfacts
    exact ⟨h,fun b _ hb => hb⟩
  | cons segment rest ih =>
    rw [segmentFacts] at hfacts
    split at hfacts
    · cases hfacts
    · rename_i hfew
      split at hfacts
      · cases hfacts
      · obtain ⟨facts',hrest,rfl⟩ := ok_of_map hfacts
        have hhead := h.put seq (Nat.lt_of_not_le hfew) (hstart segment (by simp))
        have horder' := pairwise_cons.mp horder
        obtain ⟨hr,hb⟩ := ih hrest hhead horder'.2 (fun s hs =>
          max_le (hstart s (mem_cons_of_mem _ hs)) (horder'.1 s hs))
        refine ⟨?_,?_⟩
        · rw [length_cons,show n+(facts'.length+1) = n+1+facts'.length by omega]
          exact hr
        · intro b hall hle
          exact hb b (fun s hs => hall s (mem_cons_of_mem _ hs))
            (max_le hle (hall segment (by simp)))

def Foreign (key : PassKey) : TranscriptEvent → Prop
  | .evidenceTranscribed body => (⟨body.evidence_id,body.pass⟩ : PassKey) ≠ key
  | _ => True

instance (key : PassKey) : DecidablePred (Foreign key)
  | .evidenceTranscribed _ => inferInstanceAs (Decidable (_ ≠ _))
  | .transcriptTextCorrected ..
  | .transcriptSegmentSpeakerSet .. => isTrue trivial

abbrev sharedMachine (α : Type) :
    Machine (transcribeIface α) (TranscribeInput × List TranscriptEvent) Transcripts :=
  (transcribeMachine α).amid fun events db => events.foldl Transcripts.apply db

/-- The new segments of an answer stand in order. -/
def AnswersInOrder {α : Type} (t : SegmentTable) :
    TranscribeAct α → Except Gateway.Weather (List TranscriptSegment) → Prop
  | .transcribe .., .ok segments => (freshSegments (lastEndMs t) segments).Pairwise After
  | _, _ => True

instance {α : Type} (t : SegmentTable) : (a : TranscribeAct α) →
    (answer : Except Gateway.Weather (List TranscriptSegment)) → Decidable (AnswersInOrder t a answer)
  | .transcribe .., .ok segments =>
    inferInstanceAs (Decidable ((freshSegments (lastEndMs t) segments).Pairwise After))
  | .transcribe .., .error _
  | .readProgress _, _
  | .append _, _
  | .listSegments .., _
  | .writeText _, _
  | .writeSegments _, _ => isTrue trivial

def InOrder {α : Type} (key : PassKey) (x : TranscribeInput × List TranscriptEvent)
    (db : Transcripts) (a : TranscribeAct α) : Prop :=
  (∀ event ∈ x.2, Foreign key event) ∧ AnswersInOrder (db.rows key) a x.1.answer

instance {α : Type} (key : PassKey) (x : TranscribeInput × List TranscriptEvent)
    (db : Transcripts) (a : TranscribeAct α) : Decidable (InOrder key x db a) :=
  inferInstanceAs (Decidable (_ ∧ _))

def Lasting {γ : Type} (f : SegmentRow → γ) : Prop :=
  ∀ row edited_text speaker_index,
    f { row with edited_text } = f row ∧ f { row with speaker_index } = f row

section
variable {γ : Type} {f : SegmentRow → γ} {key : PassKey}

theorem column_updateSegment {i : Nat} {g : SegmentRow → SegmentRow} {t : SegmentTable}
    (hg : ∀ row, f (g row) = f row) : (updateSegment i g t).column f = t.column f := by
  rw [updateSegment]
  cases h : t.get? i with
  | none => rfl
  | some row => exact Table.column_put_same t h (hg row)

theorem column_foreign (hf : Lasting f) {event : TranscriptEvent} (h : Foreign key event)
    (db : Transcripts) : ((db.apply event).rows key).column f = (db.rows key).column f := by
  by_cases hkey : key = event.key
  · subst hkey
    rw [applySegments_key]
    cases event with
    | evidenceTranscribed body => exact absurd rfl h
    | transcriptTextCorrected key i text =>
      exact column_updateSegment fun row => (hf row (some text) 0).1
    | transcriptSegmentSpeakerSet key i speaker_index =>
      exact column_updateSegment fun row => (hf row none speaker_index).2
  · rw [apply_elsewhere hkey]

theorem column_others (hf : Lasting f) {events : List TranscriptEvent}
    (h : ∀ event ∈ events, Foreign key event) (db : Transcripts) :
    ((events.foldl Transcripts.apply db).rows key).column f = (db.rows key).column f := by
  induction events generalizing db with
  | nil => rfl
  | cons event events ih =>
    rw [foldl_cons,ih (fun e he => h e (mem_cons_of_mem _ he)),
      column_foreign hf (h event (by simp))]

end

/-- What attempts of a pass know of their commits, by number and end time, and of
the segments still to commit. -/
structure Account (α : Type) (key : PassKey) where
  ok : TranscribeInput × List TranscriptEvent → Transcripts → TranscribeAct α → Prop
  holds : List TranscriptSegment → Nat → Nat → Transcripts → Prop
  foreign : ∀ {x db a}, ok x db a → ∀ event ∈ x.2, Foreign key event
  others : ∀ {segments n e db} {events : List TranscriptEvent},
    (∀ event ∈ events, Foreign key event) → holds segments n e db →
    holds segments n e (events.foldl Transcripts.apply db)
  idle : ∀ {segments n e db}, holds segments n e db → holds [] n e db
  resumes : ∀ {n e db}, holds [] n e db →
    holds [] (resumePoint (readTranscriptProgress (db.rows key))).1
      (resumePoint (readTranscriptProgress (db.rows key))).2 db
  answered : ∀ {x db model language offset_ms samples n e segments},
    ok x db (.transcribe model language offset_ms samples) → x.1.answer = .ok segments →
    holds [] n e db → holds (freshSegments e segments) n e db
  commits : ∀ batch_index {n e db batch rest} {facts : List TranscriptSegmentFact},
    segmentFacts n batch = .ok facts → holds (batch ++ rest) n e db →
    holds rest (n+facts.length) (facts.foldl (fun latest fact => max latest fact.end_ms) e)
      (db.apply (transcribedEvent key batch_index facts))

section
variable {α : Type} {key : PassKey} (A : Account α key)

def Account.Kept (db : Transcripts) : Prop := ∃ n e, A.holds [] n e db

abbrev Account.Secured {β : Type} (Q : β → Transcripts → Prop) (p : TranscribeProg α β)
    (db : Transcripts) : Prop :=
  p.SecuredWhen (sharedMachine α) A.ok A.Kept Q db

variable {segments : List TranscriptSegment} {db : Transcripts}

theorem Account.kept {n e : Nat} (h : A.holds segments n e db) : A.Kept db := ⟨n,e,A.idle h⟩

variable {batch_index fuel : Nat}

theorem subBatches_flatten (h : segments.length ≤ fuel) :
    (subBatches fuel segments).flatten = segments := by
  induction fuel generalizing segments with
  | zero => rw [length_eq_zero_iff.mp (Nat.le_zero.mp h)]; rfl
  | succ fuel ih =>
    cases segments with
    | nil => rfl
    | cons segment rest =>
      rw [subBatches,flatten_cons,ih,take_append_drop]
      · rw [length_drop,transcriptBatchCountMax]
        rw [length_cons] at h ⊢
        omega
      · exact fun hnil => by cases hnil

theorem segmentFacts_nil {n : Nat} (h : segmentFacts n segments = .ok []) : segments = [] := by
  cases segments with
  | nil => rfl
  | cons segment rest =>
    rw [segmentFacts] at h
    split_ifs at h
    obtain ⟨facts,_,hfacts⟩ := ok_of_map h
    cases hfacts

theorem emitTranscript_secured {n n' e e' : Nat} {facts : List TranscriptSegmentFact}
    {rest : List TranscriptSegment} (h : A.holds segments n e db)
    (hnext : A.holds rest n' e' (db.apply (transcribedEvent key batch_index facts)))
    (hempty : facts = [] → A.holds rest n' e' db) :
    A.Secured (fun _ => A.holds rest n' e')
      (emitTranscript key batch_index facts : TranscribeProg α Unit) db := by
  rw [emitTranscript]
  split
  · rename_i hnil
    exact hempty hnil
  · rintro ⟨x,others⟩ hok
    have hforeign := A.foreign hok
    have hstep : (sharedMachine α).step (x,others) db
        (.append (transcribedEvent key batch_index facts)) =
        x.fault.elim (.ok (),others.foldl Transcripts.apply
            (db.apply (transcribedEvent key batch_index facts)))
          fun fault => (.error (.store fault),others.foldl Transcripts.apply db) := by
      cases hfault : x.fault <;> simp [Machine.amid,transcribeMachine,hfault]
    rw [hstep]
    cases x.fault with
    | some fault => exact ⟨A.kept (A.others hforeign h),trivial⟩
    | none =>
      have hshared := A.others hforeign hnext
      exact ⟨A.kept hshared,hshared⟩

theorem le_latest (facts : List TranscriptSegmentFact) (e : Nat) :
    e ≤ facts.foldl (fun latest fact => max latest fact.end_ms) e := by
  induction facts generalizing e with
  | nil => exact le_refl e
  | cons fact facts ih => exact (le_max_left _ _).trans (ih _)

theorem commitBatch_secured {e : Nat} {batch : List TranscriptSegment × Nat}
    {batches : List (List TranscriptSegment × Nat)} {c : Committed} (hlater : e ≤ c.committed_to_ms)
    (h : A.holds ((batch :: batches).map Prod.fst).flatten c.next_segment_index
      c.committed_to_ms db) :
    A.Secured (fun c t => e ≤ c.committed_to_ms ∧
        A.holds (batches.map Prod.fst).flatten c.next_segment_index c.committed_to_ms t)
      (commitBatch key batch_index c batch : TranscribeProg α Committed) db := by
  rw [map_cons,flatten_cons] at h
  rw [commitBatch]
  cases hfacts : segmentFacts c.next_segment_index batch.1 with
  | error e => trivial
  | ok facts =>
    have hcommits := A.commits (batchNumber batch_index batch.2) hfacts h
    refine securedWhen_bind (emitTranscript_secured A h hcommits ?_)
      fun _ t ht => ⟨hlater.trans (le_latest facts _),ht⟩
    rintro rfl
    rw [segmentFacts_nil hfacts] at h
    exact h

theorem commitSegments_secured {n committed_to_ms : Nat}
    (h : A.holds (freshSegments committed_to_ms segments) n committed_to_ms db) :
    A.Secured (fun c t => committed_to_ms ≤ c.committed_to_ms ∧
        A.holds [] c.next_segment_index c.committed_to_ms t)
      (commitSegments key batch_index n segments committed_to_ms : TranscribeProg α Committed)
      db := by
  rw [commitSegments]
  refine securedWhen_foldlM (J := fun batches (c : Committed) t =>
      committed_to_ms ≤ c.committed_to_ms ∧
      A.holds (batches.map Prod.fst).flatten c.next_segment_index c.committed_to_ms t) _
    (fun batch batches c t hc => commitBatch_secured A hc.1 hc.2) _ ⟨le_refl _,?_⟩
  rw [zipIdx_map_fst,subBatches_flatten (le_refl _)]
  exact h

variable {setup : TranscribeSetup}

theorem transcribeWindow_secured
    {window_start_ms n committed_to_ms : Nat} {samples : List α}
    (h : A.holds [] n committed_to_ms db) :
    A.Secured (fun segments t => A.holds (freshSegments committed_to_ms segments) n
        committed_to_ms t)
      (transcribeWindow setup window_start_ms samples) db := by
  rintro ⟨x,others⟩ hok
  have hforeign := A.foreign hok
  refine ⟨A.kept (A.others hforeign h),?_⟩
  have hstep : ((sharedMachine α).step (x,others) db
      (.transcribe setup.model_name setup.language window_start_ms samples)).1 = x.answer := rfl
  rw [hstep]
  cases hx : x.answer with
  | error weather => trivial
  | ok segments => exact A.others hforeign (A.answered hok hx h)

theorem transcribeLoop_secured {resume_from_ms : Nat}
    {c : Cursor α} (h : A.holds [] c.next_segment_index c.committed_to_ms db) :
    A.Secured (fun c => A.holds [] c.next_segment_index c.committed_to_ms)
      (transcribeLoop setup key resume_from_ms fuel c) db := by
  induction fuel generalizing c db with
  | zero => trivial
  | succ fuel ih =>
    rw [transcribeLoop]
    split
    · trivial
    · rename_i packets window ended _
      dsimp only
      have hready : A.holds []
          (({ c with packets, window } : Cursor α).skipTo resume_from_ms).next_segment_index
          (({ c with packets, window } : Cursor α).skipTo resume_from_ms).committed_to_ms db := by
        rw [Cursor.skipTo]
        split <;> exact h
      generalize ({ c with packets, window } : Cursor α).skipTo resume_from_ms = ready at hready
      have hnext : ∀ segments (committed : Committed) u,
          ready.committed_to_ms ≤ committed.committed_to_ms →
          A.holds [] committed.next_segment_index committed.committed_to_ms u →
          A.holds [] (ready.next segments committed).next_segment_index
            (ready.next segments committed).committed_to_ms u := by
        intro segments committed u hlater hu
        have hmax : (ready.next segments committed).committed_to_ms = committed.committed_to_ms :=
          max_eq_left hlater
        rw [hmax]
        exact hu
      split_ifs with hpassed hended hempty
      · exact h
      · exact ih h
      · exact hready
      · refine securedWhen_bind (transcribeWindow_secured A hready) fun segments t ht => ?_
        refine securedWhen_bind (commitSegments_secured A ht) fun committed u hu => ?_
        exact hnext segments committed u hu.1 hu.2
      · refine securedWhen_bind (transcribeWindow_secured A hready) fun segments t ht => ?_
        refine securedWhen_bind (commitSegments_secured A ht) fun committed u hu => ?_
        exact ih (hnext segments committed u hu.1 hu.2)

def TranscribeAct.Reads : TranscribeAct α → Prop
  | .append _ => False
  | _ => True

variable {a : TranscribeAct α}

theorem reads_step {x : TranscribeInput} (h : a.Reads) :
    ((transcribeMachine α).step x db a).2 = db := by
  cases a with
  | append event => exact h.elim
  | readProgress | transcribe | listSegments | writeText | writeSegments => rfl

theorem reads_keep {x : TranscribeInput × List TranscriptEvent}
    (ha : a.Reads) (hx : A.ok x db a) (h : A.Kept db) :
    A.Kept ((sharedMachine α).step x db a).2 := by
  obtain ⟨n,e,hreach⟩ := h
  refine ⟨n,e,?_⟩
  show A.holds [] n e (x.2.foldl Transcripts.apply ((transcribeMachine α).step x.1 db a).2)
  rw [reads_step ha]
  exact A.others (A.foreign hx) hreach

theorem transcribeItem_secured {a : Attempt α} (A : Account α a.key) (h : A.Kept db) :
    A.Secured (fun _ _ => True) (transcribeItem a) db := by
  obtain ⟨n,e,hreach⟩ := h
  rintro ⟨x,others⟩ hok
  have hforeign := A.foreign hok
  refine ⟨A.kept (A.others hforeign hreach),?_⟩
  have hstep : ((sharedMachine α).step (x,others) db (.readProgress a.key)).1 =
      x.read (readTranscriptProgress (db.rows a.key)) := rfl
  rw [hstep,TranscribeInput.read]
  cases x.fault with
  | some fault => trivial
  | none =>
    dsimp only
    cases a.recording with
    | error e => trivial
    | ok packets =>
      have hresumes := A.others hforeign (A.resumes hreach)
      refine securedWhen_bind (transcribeLoop_secured A
        (c := Cursor.start packets (resumePoint (readTranscriptProgress (db.rows a.key))))
        hresumes) fun c t ht => ?_
      refine securedWhen_within (P := TranscribeAct.Reads) ?_ ?_ (A.kept ht)
      · exact writeTranscript_within (fun _ => trivial) (fun _ => trivial) (fun _ => trivial)
      · exact fun y s b hb hy hs => reads_keep A hb hy hs

end

section
variable {α : Type} {key : PassKey}

def ReachingDb (key : PassKey) (n committed_to_ms : Nat) (db : Transcripts) : Prop :=
  Reaching (spans (db.rows key)) n committed_to_ms

variable {committed_to_ms : Nat} {db : Transcripts}

theorem reaching_others {events : List TranscriptEvent} {n : Nat}
    (hforeign : ∀ event ∈ events, Foreign key event) (h : ReachingDb key n committed_to_ms db) :
    ReachingDb key n committed_to_ms (events.foldl Transcripts.apply db) := by
  rw [ReachingDb,spans,column_others (fun _ _ _ => ⟨rfl,rfl⟩) hforeign]
  exact h

def ToCommit (key : PassKey) (segments : List TranscriptSegment) (n committed_to_ms : Nat)
    (db : Transcripts) : Prop :=
  ReachingDb key n committed_to_ms db ∧ segments.Pairwise After ∧
  ∀ s ∈ segments, committed_to_ms ≤ s.start_ms

theorem toCommit_nil {n : Nat} (h : ReachingDb key n committed_to_ms db) :
    ToCommit key [] n committed_to_ms db :=
  ⟨h,List.Pairwise.nil,by simp⟩

theorem toCommit_batch {batch_index n : Nat} {batch rest : List TranscriptSegment}
    {facts : List TranscriptSegmentFact} (hfacts : segmentFacts n batch = .ok facts)
    (h : ToCommit key (batch ++ rest) n committed_to_ms db) :
    ToCommit key rest (n+facts.length)
      (facts.foldl (fun latest fact => max latest fact.end_ms) committed_to_ms)
      (db.apply (transcribedEvent key batch_index facts)) := by
  obtain ⟨hreach,horder,hstart⟩ := h
  obtain ⟨hfirst,hrest,hacross⟩ := pairwise_append.mp horder
  have hup := fun seq => Reaching.upsert seq hfacts hreach hfirst
    (fun s hs => hstart s (mem_append_left _ hs))
  refine ⟨?_,hrest,?_⟩
  · have happly := applySegments_key db (transcribedEvent key batch_index facts)
    rw [ReachingDb]
    exact happly ▸ (hup _).1
  · exact fun s hs => (hup 0).2 _ (fun a ha => hacross a ha s hs)
      (hstart s (mem_append_right _ hs))

theorem toCommit_answered {n : Nat} {segments : List TranscriptSegment}
    (horder : (freshSegments (lastEndMs (db.rows key)) segments).Pairwise After)
    (h : ReachingDb key n committed_to_ms db) :
    ToCommit key (freshSegments committed_to_ms segments) n committed_to_ms db := by
  refine ⟨h,horder.sublist (monotone_filter_right _ fun s hs => ?_),fun s hs => ?_⟩
  · have hle := Reaching.lastEndMs_le h
    simp only [decide_eq_true_eq] at hs ⊢
    omega
  · simpa [freshSegments] using (mem_filter.mp hs).2

def orderAccount (α : Type) (key : PassKey) : Account α key where
  ok := InOrder key
  holds := ToCommit key
  foreign h := h.1
  others hforeign h := ⟨reaching_others hforeign h.1,h.2⟩
  idle h := toCommit_nil h.1
  resumes h := toCommit_nil (Reaching.resumes h.1)
  answered hok hx h := by
    have hanswer := hok.2
    rw [hx] at hanswer
    exact toCommit_answered hanswer h.1
  commits _ _ _ _ _ _ _ hfacts h := toCommit_batch hfacts h

end

def sessions {α : Type} (db : Transcripts)
    (attempts : List (Attempt α × List (TranscribeInput × List TranscriptEvent))) : Transcripts :=
  attempts.foldl (fun db s => ((transcribeItem s.1).play (sharedMachine α) s.2 db).2.2) db

def SessionsInOrder {α : Type} (key : PassKey) : Transcripts →
    List (Attempt α × List (TranscribeInput × List TranscriptEvent)) → Prop
  | _, [] => True
  | db, s :: rest => s.1.key = key ∧
    (transcribeItem s.1).PlaysAlong (sharedMachine α) (InOrder key) s.2 db ∧
    SessionsInOrder key ((transcribeItem s.1).play (sharedMachine α) s.2 db).2.2 rest

theorem sessions_reach {α : Type} {key : PassKey}
    {attempts : List (Attempt α × List (TranscribeInput × List TranscriptEvent))}
    {db : Transcripts} (hdb : (orderAccount α key).Kept db) (h : SessionsInOrder key db attempts) :
    (orderAccount α key).Kept (sessions db attempts) := by
  induction attempts generalizing db with
  | nil => exact hdb
  | cons s rest ih =>
    obtain ⟨rfl,halong,hrest⟩ := h
    exact ih (securedWhen_play (transcribeItem_secured _ hdb) hdb halong) hrest

/-- However often the attempts of a pass are cut short and resumed, its
segments stand in order if the model returned each window's in order. -/
theorem sessions_ordered {α : Type} (key : PassKey)
    (attempts : List (Attempt α × List (TranscribeInput × List TranscriptEvent)))
    (h : SessionsInOrder key Transcripts.empty attempts) :
    Ordered ((sessions Transcripts.empty attempts).rows key) := by
  have hempty : (orderAccount α key).Kept Transcripts.empty := ⟨0,0,toCommit_nil reaching_empty⟩
  obtain ⟨n,e,hreach⟩ := sessions_reach hempty h
  exact hreach.1.ordered

instance decidableSessions {α : Type} (key : PassKey) : (db : Transcripts) →
    (attempts : List (Attempt α × List (TranscribeInput × List TranscriptEvent))) →
    Decidable (SessionsInOrder key db attempts)
  | _, [] => isTrue trivial
  | db, s :: rest =>
    @instDecidableAnd _ _ _ (@instDecidableAnd _ _ _
      (decidableSessions key ((transcribeItem s.1).play (sharedMachine α) s.2 db).2.2 rest))

def noteAttempt : Attempt Nat where
  key := ⟨⟨7⟩,0⟩
  setup := ⟨"whisper-small",none,30000⟩
  recording := .ok [.ok (List.replicate 16000 0)]
  fuel := 2

def noteInputs (segments : List TranscriptSegment) :
    List (TranscribeInput × List TranscriptEvent) :=
  [({},[]),({ answer := .ok segments },[]),({},[])]

/-- The first attempt is cut off behind its commit; the second finds nothing left. -/
theorem note_ordered :
    SessionsInOrder noteAttempt.key Transcripts.empty
      [(noteAttempt,noteInputs [⟨0,400,"one",true⟩,⟨400,1000,"two",false⟩]),
        (noteAttempt,noteInputs [])] ∧
    Ordered ((sessions Transcripts.empty
      [(noteAttempt,noteInputs [⟨0,400,"one",true⟩,⟨400,1000,"two",false⟩]),
        (noteAttempt,noteInputs [])]).rows noteAttempt.key) :=
  have hok : SessionsInOrder noteAttempt.key Transcripts.empty
      [(noteAttempt,noteInputs [⟨0,400,"one",true⟩,⟨400,1000,"two",false⟩]),
        (noteAttempt,noteInputs [])] := by decide +kernel
  ⟨hok,sessions_ordered noteAttempt.key _ hok⟩

/-- Two segments of one window that overlap are both committed. -/
theorem note_overlaps :
    ¬ Ordered ((sessions Transcripts.empty
      [(noteAttempt,noteInputs [⟨0,800,"one two",true⟩,⟨400,1000,"two three",false⟩])]).rows
        noteAttempt.key) := by
  intro h
  have hrows : (sessions Transcripts.empty
      [(noteAttempt,noteInputs [⟨0,800,"one two",true⟩,⟨400,1000,"two three",false⟩])]).rows
        noteAttempt.key = upsertSegments 1 [⟨0,0,800,true,"one two"⟩,⟨1,400,1000,false,"two three"⟩]
          Table.empty := by
    decide +kernel
  rw [hrows] at h
  exact absurd (h.apart 0 1 _ _ rfl rfl (by decide)) (by decide)

end ProjectOS.Ingest
