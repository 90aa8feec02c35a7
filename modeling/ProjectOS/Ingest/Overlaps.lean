import ProjectOS.Lib.Pool
import ProjectOS.Ingest.Transcribe

/-! Attempts of one pass that overlap, while a user corrects and labels the
segments they have written. -/

namespace ProjectOS.Ingest
open Lib Domain List
open Gateway (TranscriptSegment)

def Corrects (key : PassKey) (segment_index : Nat) (event : TranscriptEvent) : Prop :=
  ∃ text, event = .transcriptTextCorrected key segment_index text

def Labels (key : PassKey) (segment_index : Nat) (event : TranscriptEvent) : Prop :=
  ∃ speaker_index, event = .transcriptSegmentSpeakerSet key segment_index speaker_index

def Preserved (events : List TranscriptEvent) (before after : Transcripts) : Prop :=
  ∀ key i row, (before.rows key).get? i = some row →
    ∃ row', (after.rows key).get? i = some row' ∧ row'.asr_text = row.asr_text ∧
      ((∀ e ∈ events, ¬ Corrects key i e) → row'.edited_text = row.edited_text) ∧
      ((∀ e ∈ events, ¬ Labels key i e) → row'.speaker_index = row.speaker_index)

def written (segments : List TranscriptSegmentFact) (segment_index : Nat) :
    Option TranscriptSegmentFact :=
  segments.reverse.find? fun segment => segment.segment_index = segment_index

/-- Writes over unedited rows only, and the text they have. -/
def Harmless (db : Transcripts) : TranscriptEvent → Prop
  | .evidenceTranscribed body =>
    ∀ segment_index row, (db.rows ⟨body.evidence_id,body.pass⟩).get? segment_index = some row →
      ∀ segment ∈ written body.segments segment_index,
        row.asr_text = segment.text ∧ row.edited_text = none ∧
          row.speaker_index = transcriptSpeakerUnassigned
  | _ => True

theorem get?_upsertSegments (seq : Nat) (segments : List TranscriptSegmentFact) (t : SegmentTable)
    (i : Nat) : (upsertSegments seq segments t).get? i =
      ((written segments i).map (segmentRow seq)).or (t.get? i) :=
  Table.get?_puts_last TranscriptSegmentFact.segment_index (segmentRow seq) segments t i

theorem preserved_refl (db : Transcripts) : Preserved [] db db :=
  fun _ _ row hrow => ⟨row,hrow,rfl,fun _ => rfl,fun _ => rfl⟩

theorem preserved_trans {es fs : List TranscriptEvent} {a b c : Transcripts}
    (hab : Preserved es a b) (hbc : Preserved fs b c) : Preserved (es ++ fs) a c := by
  intro key i row hrow
  obtain ⟨r₁,h₁,hasr₁,hedit₁,hlabel₁⟩ := hab key i row hrow
  obtain ⟨r₂,h₂,hasr₂,hedit₂,hlabel₂⟩ := hbc key i r₁ h₁
  refine ⟨r₂,h₂,hasr₂.trans hasr₁,?_,?_⟩
  · intro hnone
    rw [hedit₂ fun e he => hnone e (mem_append_right _ he),
      hedit₁ fun e he => hnone e (mem_append_left _ he)]
  · intro hnone
    rw [hlabel₂ fun e he => hnone e (mem_append_right _ he),
      hlabel₁ fun e he => hnone e (mem_append_left _ he)]

variable {event : TranscriptEvent} {db : Transcripts} {i : Nat}

theorem preserved_elsewhere {key : PassKey}
    (h : key ≠ event.key) {row : SegmentRow} (hrow : (db.rows key).get? i = some row) :
    ((db.apply event).rows key).get? i = some row := by
  rw [apply_elsewhere h,hrow]

theorem preserved_update
    {f : SegmentRow → SegmentRow} (happly : applySegments (db.head+1) event = updateSegment i f)
    (hasr : ∀ row, (f row).asr_text = row.asr_text)
    (hedit : ¬ Corrects event.key i event → ∀ row, (f row).edited_text = row.edited_text)
    (hlabel : ¬ Labels event.key i event → ∀ row, (f row).speaker_index = row.speaker_index) :
    Preserved [event] db (db.apply event) := by
  intro key j row hrow
  by_cases hkey : key = event.key
  · subst hkey
    rw [applySegments_key,happly,get?_updateSegment]
    split
    · rename_i hj
      subst hj
      refine ⟨f row,by rw [hrow]; rfl,hasr row,?_,?_⟩
      · exact fun hnone => hedit (hnone event (by simp)) row
      · exact fun hnone => hlabel (hnone event (by simp)) row
    · exact ⟨row,hrow,rfl,fun _ => rfl,fun _ => rfl⟩
  · exact ⟨row,preserved_elsewhere hkey hrow,rfl,fun _ => rfl,fun _ => rfl⟩

theorem preserved_apply (db : Transcripts) (event : TranscriptEvent) :
    Preserved [event] db (db.apply event) ↔ Harmless db event := by
  cases event with
  | evidenceTranscribed body =>
    have hrows : ∀ i, ((db.apply (.evidenceTranscribed body)).rows
        ⟨body.evidence_id,body.pass⟩).get? i =
          ((written body.segments i).map (segmentRow (db.head+1))).or
            ((db.rows ⟨body.evidence_id,body.pass⟩).get? i) := by
      intro i
      rw [← get?_upsertSegments]
      exact congrArg (fun t : SegmentTable => t.get? i)
        (applySegments_key db (.evidenceTranscribed body))
    constructor
    · intro h i row hrow segment hsegment
      obtain ⟨row',hrow',hasr,hedit,hlabel⟩ := h _ i row hrow
      rw [hrows,hsegment] at hrow'
      cases hrow'
      refine ⟨hasr.symm,(hedit ?_).symm,(hlabel ?_).symm⟩
      · rintro e he ⟨text,rfl⟩
        cases mem_singleton.mp he
      · rintro e he ⟨speaker_index,rfl⟩
        cases mem_singleton.mp he
    · intro h key i row hrow
      by_cases hkey : key = ⟨body.evidence_id,body.pass⟩
      · subst hkey
        rw [hrows]
        cases hsegment : written body.segments i with
        | none => exact ⟨row,hrow,rfl,fun _ => rfl,fun _ => rfl⟩
        | some segment =>
          obtain ⟨hasr,hedit,hlabel⟩ := h i row hrow segment hsegment
          exact ⟨segmentRow (db.head+1) segment,rfl,hasr.symm,fun _ => hedit.symm,
            fun _ => hlabel.symm⟩
      · exact ⟨row,preserved_elsewhere hkey hrow,rfl,fun _ => rfl,fun _ => rfl⟩
  | transcriptTextCorrected key i text =>
    refine iff_of_true (preserved_update rfl (fun _ => rfl) ?_ fun _ _ => rfl) trivial
    exact fun h => absurd ⟨text,rfl⟩ h
  | transcriptSegmentSpeakerSet key i speaker_index =>
    refine iff_of_true (preserved_update rfl (fun _ => rfl) (fun _ _ => rfl) ?_) trivial
    exact fun h => absurd ⟨speaker_index,rfl⟩ h

inductive TranscriptOp (α : Type) where
  | attempt (a : Attempt α)
  | correct (key : PassKey) (segment_index : Nat) (text : String)
  | setSpeaker (key : PassKey) (segment_index speaker_index : Nat)

section
variable {α : Type}

def appendEdit (event : TranscriptEvent) : TranscribeProg α Unit :=
  .act (.append event) fun
  | .ok () => .ret ()
  | .error e => failed (.log e)

def TranscriptOp.code : TranscriptOp α → TranscribeProg α Unit
  | .attempt a => (transcribeItem a).bind fun _ => .ret ()
  | .correct key segment_index text =>
    appendEdit (.transcriptTextCorrected key segment_index text)
  | .setSpeaker key segment_index speaker_index =>
    appendEdit (.transcriptSegmentSpeakerSet key segment_index speaker_index)

abbrev TranscriptPool (α : Type) :=
  Pool (transcribeIface α) (TranscriptOp α) StageFailure Unit Transcripts

abbrev TranscriptTurn (α : Type) := Turn (TranscriptOp α) TranscribeInput

def TranscriptPool.run (c : TranscriptPool α) (ts : List (TranscriptTurn α)) : TranscriptPool α :=
  c.turns (transcribeMachine α) TranscriptOp.code ts

def landed (c : TranscriptPool α) (t : TranscriptTurn α) : Option TranscriptEvent :=
  match t,c.action t with
  | .act _ x,some (.append event) => if x.fault.isNone then some event else none
  | _, _ => none

def logOf : TranscriptPool α → List (TranscriptTurn α) → List TranscriptEvent
  | _, [] => []
  | c, t :: ts =>
    (landed c t).toList ++ logOf (c.turn (transcribeMachine α) TranscriptOp.code t) ts

variable (c : TranscriptPool α)

theorem turn_landed (t : TranscriptTurn α) :
    (c.turn (transcribeMachine α) TranscriptOp.code t).store =
      (landed c t).toList.foldl Transcripts.apply c.store := by
  cases t with
  | start | lose => rfl
  | act i x =>
    simp only [landed,Pool.action,Pool.turn]
    cases c.threads i with
    | none => rfl
    | some thread =>
      obtain ⟨op,p⟩ := thread
      cases p with
      | ret | throw => rfl
      | act a k =>
        cases a with
        | append event =>
          cases hfault : x.fault <;> simp [Pool.setThread,transcribeMachine,hfault]
        | readProgress | transcribe | listSegments | writeText | writeSegments => rfl

theorem run_append (ts us : List (TranscriptTurn α)) :
    c.run (ts ++ us) = (c.run ts).run us := c.turns_append ts us

theorem logOf_append (ts us : List (TranscriptTurn α)) :
    logOf c (ts ++ us) = logOf c ts ++ logOf (c.run ts) us := by
  induction ts generalizing c with
  | nil => rfl
  | cons t ts ih =>
    rw [cons_append,logOf,ih,logOf,append_assoc]
    rfl

def WordsKept (c : TranscriptPool α) (ts : List (TranscriptTurn α)) : Prop :=
  ∀ us vs ws, ts = us ++ vs ++ ws →
    Preserved (logOf (c.run us) vs) (c.run us).store (c.run (us ++ vs)).store

def NoRecommits (c : TranscriptPool α) (ts : List (TranscriptTurn α)) : Prop :=
  ∀ us t ws, ts = us ++ t :: ws → ∀ event ∈ landed (c.run us) t, Harmless (c.run us).store event

theorem preserved_turn (t : TranscriptTurn α) :
    Preserved (logOf c [t]) c.store (c.run [t]).store ↔
      ∀ event ∈ landed c t, Harmless c.store event := by
  have hlog : logOf c [t] = (landed c t).toList := append_nil _
  have hstore : (c.run [t]).store = (landed c t).toList.foldl Transcripts.apply c.store :=
    turn_landed c t
  rw [hlog,hstore]
  cases landed c t with
  | none => exact iff_of_true (preserved_refl _) (by simp)
  | some event =>
    have hone := preserved_apply c.store event
    simpa using hone

theorem preserved_run {c : TranscriptPool α} {ts : List (TranscriptTurn α)}
    (h : NoRecommits c ts) : Preserved (logOf c ts) c.store (c.run ts).store := by
  induction ts generalizing c with
  | nil => exact preserved_refl _
  | cons t ts ih =>
    have hfirst := (preserved_turn c t).mpr (h [] t ts rfl)
    have hrest : NoRecommits (c.run [t]) ts := by
      intro us u ws hts
      have hlater := h (t :: us) u ws (by rw [hts]; rfl)
      rw [← singleton_append,run_append] at hlater
      exact hlater
    have hboth := preserved_trans hfirst (ih hrest)
    rw [← logOf_append,← run_append,singleton_append] at hboth
    exact hboth

/-- What a pass says of its segments, and what users say of them, is kept
exactly as long as no attempt commits a segment anew that has other words or
that a user has touched. -/
theorem words_kept (db : Transcripts) (ts : List (TranscriptTurn α)) :
    WordsKept (Pool.fresh db) ts ↔ NoRecommits (Pool.fresh db) ts := by
  generalize (Pool.fresh db : TranscriptPool α) = c
  constructor
  · rintro h us t ws rfl
    have hturn := h us [t] ws (by simp)
    rw [run_append] at hturn
    exact (preserved_turn _ t).mp hturn
  · rintro h us vs ws rfl
    rw [run_append]
    refine preserved_run fun us' t ws' hvs => ?_
    have hlater := h (us ++ us') t (ws' ++ ws) (by rw [hvs]; simp)
    rw [run_append] at hlater
    exact hlater

end

def sharedAttempt : Attempt Nat where
  key := ⟨⟨7⟩,0⟩
  setup := ⟨"whisper-small",none,30000⟩
  recording := .ok [.ok (List.replicate 1600 0)]
  fuel := 2

def overlap : List (TranscriptTurn Nat) :=
  [.start 0 (.attempt sharedAttempt),.start 1 (.attempt sharedAttempt),.act 0 {},.act 1 {},
    .act 0 { answer := .ok [⟨0,100,"Tuesday",true⟩] },
    .act 1 { answer := .ok [⟨0,100,"Thursday",true⟩] },.act 0 {},
    .start 2 (.correct ⟨⟨7⟩,0⟩ 0 "on Tuesday"),.act 2 {}]

/-- The second to commit takes the words of the first and the user's correction. -/
theorem overlap_overwrites :
    ¬ WordsKept (Pool.fresh Transcripts.empty) (overlap ++ [.act 1 {}]) := by
  intro h
  have hkept := h overlap [.act 1 {}] [] (by simp)
  have hbefore : ((TranscriptPool.run (Pool.fresh Transcripts.empty) overlap).store.rows
      ⟨⟨7⟩,0⟩).get? 0 = some ⟨0,100,true,0,"Tuesday",some "on Tuesday",1⟩ := by
    decide +kernel
  have hafter : ((TranscriptPool.run (Pool.fresh Transcripts.empty)
      (overlap ++ [.act 1 {}])).store.rows ⟨⟨7⟩,0⟩).get? 0 =
        some ⟨0,100,true,0,"Thursday",none,3⟩ := by
    decide +kernel
  obtain ⟨row,hrow,hasr,_⟩ := hkept ⟨⟨7⟩,0⟩ 0 _ hbefore
  rw [hafter] at hrow
  cases hrow
  exact absurd hasr (by decide)

end ProjectOS.Ingest
