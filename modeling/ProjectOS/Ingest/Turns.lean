import ProjectOS.Ingest.Segments

/-! The turns of a transcript. An adapter marks them call by call: it hears nothing of
the pause before a call's first segment and takes no account of segments dropped later. -/

namespace ProjectOS.Gateway

def turnGapMs : Nat := 700

def opensTurn (previous_end_ms : Option Nat) (start_ms : Nat) : Bool :=
  match previous_end_ms with
  | none => true
  | some end_ms => decide (turnGapMs ≤ start_ms-end_ms)

def markTurnsFrom : Option Nat → List TranscriptSegment → List TranscriptSegment
  | _, [] => []
  | previous_end_ms, segment :: rest =>
    { segment with starts_turn := opensTurn previous_end_ms segment.start_ms } ::
      markTurnsFrom (some segment.end_ms) rest

def markTurns (segments : List TranscriptSegment) : List TranscriptSegment :=
  markTurnsFrom none segments

theorem markTurnsFrom_idem (previous_end_ms : Option Nat) (segments : List TranscriptSegment) :
    markTurnsFrom previous_end_ms (markTurnsFrom previous_end_ms segments) =
      markTurnsFrom previous_end_ms segments := by
  induction segments generalizing previous_end_ms with
  | nil => rfl
  | cons segment rest ih => rw [markTurnsFrom,markTurnsFrom,ih]

end ProjectOS.Gateway

namespace ProjectOS.Ingest
open Lib Domain
open Gateway (TranscriptSegment turnGapMs opensTurn markTurnsFrom markTurns)

def Turned (t : SegmentTable) : Prop :=
  ∀ i row, t.get? i = some row →
    (row.starts_turn = true ↔
      i = 0 ∨ ∃ before, t.get? (i-1) = some before ∧ before.end_ms+turnGapMs ≤ row.start_ms)

def adapted (x : TranscribeInput × List TranscriptEvent) :
    TranscribeInput × List TranscriptEvent :=
  ({ x.1 with answer := x.1.answer.map markTurns },x.2)

/-- Each kept segment of an answer follows what the adapter heard before it as it
follows what the transcript will show: either pause is a turn's, or neither. -/
def SamePauses (committed_to_ms : Nat) : Option Nat → Option Nat → List TranscriptSegment → Prop
  | _, _, [] => True
  | heard, shown, segment :: rest =>
    if committed_to_ms ≤ segment.start_ms then
      opensTurn heard segment.start_ms = opensTurn shown (msColumn segment.start_ms) ∧
        SamePauses committed_to_ms (some segment.end_ms)
          (some (msColumn (max segment.end_ms segment.start_ms))) rest
    else SamePauses committed_to_ms (some segment.end_ms) shown rest

instance decidableSamePauses (committed_to_ms : Nat) : (heard shown : Option Nat) →
    (segments : List TranscriptSegment) → Decidable (SamePauses committed_to_ms heard shown segments)
  | _, _, [] => isTrue trivial
  | _, shown, segment :: rest =>
    @instDecidableIte (committed_to_ms ≤ segment.start_ms) _ _ inferInstance
      (@instDecidableAnd _ _ inferInstance (decidableSamePauses committed_to_ms _ _ rest))
      (decidableSamePauses committed_to_ms _ shown rest)

/-- Turn marks as the rule sets them. -/
def Rightly : Option Nat → List TranscriptSegment → Prop
  | _, [] => True
  | shown, segment :: rest =>
    segment.starts_turn = opensTurn shown (msColumn segment.start_ms) ∧
      Rightly (some (msColumn (max segment.end_ms segment.start_ms))) rest

theorem rightly_iff (committed_to_ms : Nat) (heard shown : Option Nat)
    (segments : List TranscriptSegment) :
    Rightly shown (freshSegments committed_to_ms (markTurnsFrom heard segments)) ↔
      SamePauses committed_to_ms heard shown segments := by
  induction segments generalizing heard shown with
  | nil => exact Iff.rfl
  | cons segment rest ih =>
    rw [markTurnsFrom,freshSegments,List.filter_cons,SamePauses]
    by_cases hfresh : committed_to_ms ≤ segment.start_ms
    · rw [if_pos (decide_eq_true hfresh),if_pos hfresh,Rightly]
      exact and_congr_right fun _ => ih _ _
    · rw [if_neg (by simpa using hfresh),if_neg hfresh]
      exact ih _ _

def marksOf (t : SegmentTable) : Nat → Option (Nat × Nat × Bool) :=
  t.column fun row => (row.start_ms,row.end_ms,row.starts_turn)

theorem marksOf_lasting :
    Lasting fun row : SegmentRow => (row.start_ms,row.end_ms,row.starts_turn) :=
  fun _ _ _ => ⟨rfl,rfl⟩

variable {t : SegmentTable}

theorem marksOf_some {i : Nat} {row : SegmentRow} (h : t.get? i = some row) :
    marksOf t i = some (row.start_ms,row.end_ms,row.starts_turn) := by
  rw [marksOf,Table.column,h]
  rfl

theorem of_marksOf {i : Nat} {a : Nat × Nat × Bool} (h : marksOf t i = some a) :
    ∃ row, t.get? i = some row ∧ a = (row.start_ms,row.end_ms,row.starts_turn) := by
  rw [marksOf,Table.column] at h
  obtain ⟨row,hrow,rfl⟩ := Option.map_eq_some_iff.mp h
  exact ⟨row,hrow,rfl⟩

def before (s : Nat → Option (Nat × Nat × Bool)) : Nat → Option Nat
  | 0 => none
  | i+1 => (s i).map fun a => a.2.1

/-- There are `n` segments, each marked rightly, and the last of their ends is
`committed_to_ms`, as far as the column holds it. -/
structure Told (s : Nat → Option (Nat × Nat × Bool)) (n committed_to_ms : Nat) : Prop where
  dense : ∀ i, (s i).isSome ↔ i < n
  few : n ≤ transcriptSegmentCountMax
  marks : ∀ i a, s i = some a → a.2.2 = opensTurn (before s i) a.1
  within : ∀ i a, s i = some a → a.2.1 ≤ msColumn committed_to_ms
  reached : 0 < n → ∃ i a, s i = some a ∧ a.2.1 = msColumn committed_to_ms
  begun : n = 0 → committed_to_ms = 0

theorem told_empty : Told (marksOf Table.empty) 0 0 where
  dense i := by simp [marksOf,Table.column]
  few := Nat.zero_le _
  marks i a h := by cases h
  within i a h := by cases h
  reached h := absurd h (lt_irrefl 0)
  begun _ := rfl

variable {n committed_to_ms : Nat}

section
variable (h : Told (marksOf t) n committed_to_ms)
include h

theorem Told.turned : Turned t := by
  intro i row hrow
  have hmark : row.starts_turn = opensTurn (before (marksOf t) i) row.start_ms :=
    h.marks i _ (marksOf_some hrow)
  rw [hmark]
  cases i with
  | zero => exact ⟨fun _ => Or.inl rfl,fun _ => rfl⟩
  | succ i =>
    have hi : i+1 < n := (h.dense _).mp (by rw [marksOf_some hrow]; rfl)
    obtain ⟨a,ha⟩ := Option.isSome_iff_exists.mp ((h.dense i).mpr (by omega))
    obtain ⟨prior,hprior,rfl⟩ := of_marksOf ha
    rw [before,ha,Nat.add_sub_cancel,hprior]
    have hgap : opensTurn (some prior.end_ms) row.start_ms = true ↔
        prior.end_ms+turnGapMs ≤ row.start_ms := by
      rw [opensTurn,decide_eq_true_iff,turnGapMs]
      omega
    refine hgap.trans ⟨fun hle => Or.inr ⟨prior,rfl,hle⟩,?_⟩
    rintro (hzero | ⟨_,⟨⟩,hle⟩)
    · cases hzero
    · exact hle

theorem Told.lastEndMs_eq :
    lastEndMs t = msColumn committed_to_ms := by
  have hle : lastEndMs t ≤ msColumn committed_to_ms :=
    maxOver_le fun i _ hrow => h.within i _ (marksOf_some hrow)
  refine le_antisymm hle ?_
  rcases Nat.eq_zero_or_pos n with hn | hn
  · rw [h.begun hn]
    exact Nat.zero_le _
  · obtain ⟨i,a,ha,hend⟩ := h.reached hn
    obtain ⟨row,hrow,rfl⟩ := of_marksOf ha
    rw [← hend]
    exact le_maxOver (f := fun entry => entry.2.end_ms) hrow

theorem Told.get?_dense (i : Nat) :
    (t.get? i).isSome ↔ i < n := by
  rw [← h.dense i,marksOf,Table.column,Option.isSome_map]

theorem Told.resumes :
    Told (marksOf t) (resumePoint (readTranscriptProgress t)).1
      (resumePoint (readTranscriptProgress t)).2 := by
  by_cases hempty : t.rows = []
  · have ht : t = Table.empty := Table.ext_rows hempty
    subst ht
    exact told_empty
  · have hend : msColumn (lastEndMs t) = msColumn committed_to_ms := by
      rw [h.lastEndMs_eq,msColumn,msColumn,min_assoc,min_self]
    rw [resumePoint_dense h.get?_dense h.few hempty]
    refine { h with within := ?_, reached := ?_, begun := ?_ }
    · rw [hend]
      exact h.within
    · rw [hend]
      exact h.reached
    · intro hn
      rw [h.lastEndMs_eq,h.begun hn]
      rfl

end

def shownEnd (t : SegmentTable) : Option Nat :=
  (readTranscriptProgress t).bind fun progress => (t.get? progress.1).map SegmentRow.end_ms

theorem Told.shownEnd_eq (h : Told (marksOf t) n committed_to_ms) :
    shownEnd t = before (marksOf t) n := by
  by_cases hempty : t.rows = []
  · have ht : t = Table.empty := Table.ext_rows hempty
    subst ht
    cases n with
    | zero => rfl
    | succ n => rfl
  · have hlast := maxOver_dense h.get?_dense hempty
    rw [shownEnd,readTranscriptProgress,if_neg hempty,← hlast]
    show (t.get? _).map _ = _
    rw [before,marksOf,Table.column,Option.map_map]
    rfl

theorem Told.put (seq : Nat) (h : Told (marksOf t) n committed_to_ms)
    (hfew : n < transcriptSegmentCountMax) {segment : TranscriptSegment}
    (hmark : segment.starts_turn = opensTurn (before (marksOf t) n) (msColumn segment.start_ms)) :
    let t' := t.put n (segmentRow seq (segmentFact n segment))
    Told (marksOf t') (n+1) (max committed_to_ms (max segment.end_ms segment.start_ms)) ∧
    before (marksOf t') (n+1) = some (msColumn (max segment.end_ms segment.start_ms)) := by
  intro t'
  have hput : ∀ i, marksOf t' i = if i = n then some (msColumn segment.start_ms,
      msColumn (max segment.end_ms segment.start_ms),segment.starts_turn) else marksOf t i := by
    intro i
    rw [marksOf,Table.column_put,Function.update_apply]
    rfl
  have hbefore : ∀ i, i ≤ n → before (marksOf t') i = before (marksOf t) i := by
    intro i hi
    cases i with
    | zero => rfl
    | succ i => rw [before,before,hput,if_neg (by omega)]
  have hmax : msColumn (max committed_to_ms (max segment.end_ms segment.start_ms)) =
      max (msColumn committed_to_ms) (msColumn (max segment.end_ms segment.start_ms)) :=
    min_max_distrib_right _ _ _
  refine ⟨⟨?_,hfew,?_,?_,?_,?_⟩,?_⟩
  · intro i
    rw [hput]
    split
    · simp; omega
    · rw [h.dense]
      omega
  · intro i a ha
    rw [hput] at ha
    split at ha
    · rename_i hi
      cases ha
      rw [hi,hbefore n (le_refl n)]
      exact hmark
    · have hi : i < n := (h.dense i).mp (by rw [ha]; rfl)
      rw [hbefore i (by omega)]
      exact h.marks i a ha
  · intro i a ha
    rw [hmax]
    rw [hput] at ha
    split at ha
    · cases ha
      exact le_max_right _ _
    · exact (h.within i a ha).trans (le_max_left _ _)
  · intro _
    rw [hmax]
    rcases le_total (msColumn (max segment.end_ms segment.start_ms)) (msColumn committed_to_ms)
      with hle | hle
    · rw [max_eq_left hle]
      rcases Nat.eq_zero_or_pos n with hn | hn
      · have hzero : msColumn committed_to_ms = 0 := by rw [h.begun hn]; rfl
        refine ⟨n,_,by rw [hput,if_pos rfl],?_⟩
        show msColumn (max segment.end_ms segment.start_ms) = _
        omega
      · obtain ⟨i,a,ha,hend⟩ := h.reached hn
        have hi : i < n := (h.dense i).mp (by rw [ha]; rfl)
        exact ⟨i,a,by rw [hput,if_neg (by omega),ha],hend⟩
    · rw [max_eq_right hle]
      exact ⟨n,_,by rw [hput,if_pos rfl],rfl⟩
  · exact fun hn => absurd hn (Nat.succ_ne_zero n)
  · rw [before,hput,if_pos rfl]
    rfl

theorem Told.upsert (seq : Nat) {segments rest : List TranscriptSegment}
    {facts : List TranscriptSegmentFact} (hfacts : segmentFacts n segments = .ok facts)
    (h : Told (marksOf t) n committed_to_ms)
    (hmarks : Rightly (before (marksOf t) n) (segments ++ rest)) :
    Told (marksOf (upsertSegments seq facts t)) (n+facts.length)
      (facts.foldl (fun latest fact => max latest fact.end_ms) committed_to_ms) ∧
    Rightly (before (marksOf (upsertSegments seq facts t)) (n+facts.length)) rest := by
  induction segments generalizing n committed_to_ms facts t with
  | nil =>
    cases hfacts
    exact ⟨h,hmarks⟩
  | cons segment segments ih =>
    rw [segmentFacts] at hfacts
    split at hfacts
    · cases hfacts
    · rename_i hfew
      split at hfacts
      · cases hfacts
      · obtain ⟨facts',hfacts',rfl⟩ := ok_of_map hfacts
        obtain ⟨hhead,hbefore⟩ := h.put seq (Nat.lt_of_not_le hfew) hmarks.1
        have hlen : n+(segmentFact n segment :: facts').length = n+1+facts'.length := by
          rw [List.length_cons]
          omega
        rw [hlen]
        refine ih hfacts' hhead ?_
        show Rightly (before (marksOf (t.put n (segmentRow seq (segmentFact n segment)))) (n+1)) _
        rw [hbefore]
        exact hmarks.2

/-- The pauses a window's answer is marked by are the transcript's; one that has
reached its columns' last moment begins no segment past it. -/
def AnswersAlike {α : Type} (t : SegmentTable) :
    TranscribeAct α → Except Gateway.Weather (List TranscriptSegment) → Prop
  | .transcribe .., .ok segments => SamePauses (lastEndMs t) none (shownEnd t) segments ∧
    (lastEndMs t = msColumnMax → ∀ segment ∈ segments, segment.start_ms ≤ msColumnMax)
  | _, _ => True

instance {α : Type} (t : SegmentTable) : (a : TranscribeAct α) →
    (answer : Except Gateway.Weather (List TranscriptSegment)) → Decidable (AnswersAlike t a answer)
  | .transcribe .., .ok _ => inferInstanceAs (Decidable (_ ∧ _))
  | .transcribe .., .error _
  | .readProgress _, _
  | .append _, _
  | .listSegments .., _
  | .writeText _, _
  | .writeSegments _, _ => isTrue trivial

def InTurn {α : Type} (key : PassKey) (x : TranscribeInput × List TranscriptEvent)
    (db : Transcripts) (a : TranscribeAct α) : Prop :=
  (∀ event ∈ x.2, Foreign key event) ∧ AnswersAlike (db.rows key) a x.1.answer

instance {α : Type} (key : PassKey) (x : TranscribeInput × List TranscriptEvent)
    (db : Transcripts) (a : TranscribeAct α) : Decidable (InTurn key x db a) :=
  inferInstanceAs (Decidable (_ ∧ _))

def TurnMarked (x : TranscribeInput × List TranscriptEvent) : Prop :=
  ∀ segments, x.1.answer = .ok segments → markTurns segments = segments

theorem adapted_marked (x : TranscribeInput × List TranscriptEvent) : TurnMarked (adapted x) := by
  intro segments h
  obtain ⟨raw,_,rfl⟩ := ok_of_map h
  exact Gateway.markTurnsFrom_idem none raw

theorem Told.rightly {segments : List TranscriptSegment} (h : Told (marksOf t) n committed_to_ms)
    (hmarked : markTurns segments = segments)
    (halike : SamePauses (lastEndMs t) none (shownEnd t) segments ∧
      (lastEndMs t = msColumnMax → ∀ segment ∈ segments, segment.start_ms ≤ msColumnMax)) :
    Rightly (before (marksOf t) n) (freshSegments committed_to_ms segments) := by
  obtain ⟨hsame,hpast⟩ := halike
  rw [h.shownEnd_eq] at hsame
  have hright := (rightly_iff (lastEndMs t) none _ segments).mpr hsame
  rw [show markTurnsFrom none segments = segments from hmarked] at hright
  have hlast : lastEndMs t = min committed_to_ms msColumnMax := h.lastEndMs_eq
  rcases Nat.lt_or_ge msColumnMax committed_to_ms with hcut | hfits
  · have hnone : freshSegments committed_to_ms segments = [] := by
      rw [freshSegments,List.filter_eq_nil_iff]
      intro segment hmem
      have hle := hpast (by omega) segment hmem
      simp only [decide_eq_true_eq]
      omega
    rw [hnone]
    trivial
  · rw [show lastEndMs t = committed_to_ms by omega] at hright
    exact hright

def turnAccount (α : Type) (key : PassKey) : Account α key where
  ok x db a := TurnMarked x ∧ InTurn key x db a
  holds segments n committed_to_ms db :=
    Told (marksOf (db.rows key)) n committed_to_ms ∧
      Rightly (before (marksOf (db.rows key)) n) segments
  foreign h := h.2.1
  others hforeign h := by
    rw [marksOf,column_others marksOf_lasting hforeign]
    exact h
  idle h := ⟨h.1,trivial⟩
  resumes h := ⟨Told.resumes h.1,trivial⟩
  answered hok hx h := by
    have hanswer := hok.2.2
    rw [hx] at hanswer
    exact ⟨h.1,h.1.rightly (hok.1 _ hx) hanswer⟩
  commits batch_index _ _ db _ _ facts hfacts h := by
    have happly := applySegments_key db (transcribedEvent key batch_index facts)
    exact happly ▸ Told.upsert (db.head+1) hfacts h.1 h.2

def adaptedAttempts {α : Type}
    (attempts : List (Attempt α × List (TranscribeInput × List TranscriptEvent))) :
    List (Attempt α × List (TranscribeInput × List TranscriptEvent)) :=
  attempts.map fun s => (s.1,s.2.map adapted)

def SessionsInTurn {α : Type} (key : PassKey) : Transcripts →
    List (Attempt α × List (TranscribeInput × List TranscriptEvent)) → Prop
  | _, [] => True
  | db, s :: rest => s.1.key = key ∧
    (transcribeItem s.1).PlaysAlong (sharedMachine α) (InTurn key) s.2 db ∧
    SessionsInTurn key ((transcribeItem s.1).play (sharedMachine α) s.2 db).2.2 rest

theorem sessions_tell {α : Type} {key : PassKey}
    {attempts : List (Attempt α × List (TranscribeInput × List TranscriptEvent))}
    {db : Transcripts} (hdb : (turnAccount α key).Kept db)
    (h : SessionsInTurn key db (adaptedAttempts attempts)) :
    (turnAccount α key).Kept (sessions db (adaptedAttempts attempts)) := by
  induction attempts generalizing db with
  | nil => exact hdb
  | cons s rest ih =>
    obtain ⟨rfl,halong,hrest⟩ := h
    have hmarked : ∀ x ∈ s.2.map adapted, TurnMarked x := by
      intro x hx
      obtain ⟨y,_,rfl⟩ := List.mem_map.mp hx
      exact adapted_marked y
    exact ih (Prog.securedWhen_play (transcribeItem_secured _ hdb) hdb
      (Prog.playsAlong_and hmarked halong)) hrest

/-- However often the attempts of a pass are cut short and resumed, its turns are
marked where its pauses are, if each window's answer was marked by the same pauses. -/
theorem sessions_turned {α : Type} (key : PassKey)
    (attempts : List (Attempt α × List (TranscribeInput × List TranscriptEvent)))
    (h : SessionsInTurn key Transcripts.empty (adaptedAttempts attempts)) :
    Turned ((sessions Transcripts.empty (adaptedAttempts attempts)).rows key) := by
  have hempty : (turnAccount α key).Kept Transcripts.empty := ⟨0,0,told_empty,trivial⟩
  obtain ⟨n,e,htold,_⟩ := sessions_tell hempty h
  exact htold.turned

instance decidableInTurn {α : Type} (key : PassKey) : (db : Transcripts) →
    (attempts : List (Attempt α × List (TranscribeInput × List TranscriptEvent))) →
    Decidable (SessionsInTurn key db attempts)
  | _, [] => isTrue trivial
  | db, s :: rest =>
    @instDecidableAnd _ _ _ (@instDecidableAnd _ _ _
      (decidableInTurn key ((transcribeItem s.1).play (sharedMachine α) s.2 db).2.2 rest))

def talkAttempt : Attempt Nat where
  key := ⟨⟨7⟩,0⟩
  setup := ⟨"whisper-small",none,1000⟩
  recording := .ok [.ok (List.replicate 16000 0),.ok (List.replicate 16000 0)]
  fuel := 3

/-- The attempt is cut off behind the first second and resumed; the second
begins with a pause. -/
theorem talk_turned :
    SessionsInTurn talkAttempt.key Transcripts.empty (adaptedAttempts
      [(talkAttempt,noteInputs [⟨0,1000,"one",false⟩]),
        (talkAttempt,noteInputs [⟨1700,2000,"two",false⟩])]) ∧
    Turned ((sessions Transcripts.empty (adaptedAttempts
      [(talkAttempt,noteInputs [⟨0,1000,"one",false⟩]),
        (talkAttempt,noteInputs [⟨1700,2000,"two",false⟩])])).rows talkAttempt.key) :=
  have hok : SessionsInTurn talkAttempt.key Transcripts.empty (adaptedAttempts
      [(talkAttempt,noteInputs [⟨0,1000,"one",false⟩]),
        (talkAttempt,noteInputs [⟨1700,2000,"two",false⟩])]) := by decide +kernel
  ⟨hok,sessions_turned talkAttempt.key _ hok⟩

def runOnInputs : List (TranscribeInput × List TranscriptEvent) :=
  noteInputs [⟨0,1000,"one",false⟩] ++
    [(({ answer := .ok [⟨1000,2000,"two",false⟩] } : TranscribeInput),[]),
      (({} : TranscribeInput),[])]

/-- Speech that runs on from one window into the next is marked as a turn there. -/
theorem talk_misses :
    ¬ Turned ((sessions Transcripts.empty (adaptedAttempts
      [(talkAttempt,runOnInputs)])).rows talkAttempt.key) := by
  intro h
  have hrows : (sessions Transcripts.empty (adaptedAttempts
      [(talkAttempt,runOnInputs)])).rows talkAttempt.key =
      upsertSegments 2 [⟨1,1000,2000,true,"two"⟩]
        (upsertSegments 1 [⟨0,0,1000,true,"one"⟩] Table.empty) := by
    decide +kernel
  rw [hrows] at h
  rcases (h 1 _ rfl).mp rfl with hzero | ⟨_,hprior,hgap⟩
  · cases hzero
  · cases hprior
    exact absurd hgap (by decide)

end ProjectOS.Ingest
