import ProjectOS.Api.Surface
import ProjectOS.Domain.Transcript
import ProjectOS.Ingest.Rewinds

/-! The transcript viewer's read. The segments of an item are kept by the pass
that decoded them; the item's row is on the pass of whatever came last. -/

namespace ProjectOS.Api
open Lib Domain Ingest List

def hexNibble (c : Char) : Option Nat :=
  if 48 ≤ c.toNat ∧ c.toNat ≤ 57 then some (c.toNat-48)
  else if 97 ≤ c.toNat ∧ c.toNat ≤ 102 then some (c.toNat-97+10)
  else none

def evidenceIdFromHex (text : String) : Option EvidenceId :=
  match text.toList.mapM hexNibble with
  | none => none
  | some digits =>
    if digits.length = 32 then some ⟨BitVec.ofNat 128 (digits.foldl (fun n d => 16*n+d) 0)⟩
    else none

def parseEvidenceId (value field : String) : Except ApiError EvidenceId :=
  match evidenceIdFromHex value with
  | some evidence_id => .ok evidence_id
  | none => .error ⟨"invalid_input",s!"{field} must be 32 lowercase hex characters",false⟩

structure Transcribed where
  db : Ingest.Db
  transcripts : Transcripts
  speakers : EvidenceId → Table Nat String

def Transcribed.empty : Transcribed := ⟨Ingest.Db.empty,Transcripts.empty,fun _ => Table.empty⟩

inductive TranscribedEntry where
  | append (ts_ms : Nat) (facts : List Fact)
  | corrected (key : PassKey) (segment_index : Nat) (text : String)
  | speakerSet (key : PassKey) (segment_index speaker_index : Nat)
  | speakerNamed (evidence_id : EvidenceId) (speaker_index : Nat) (name : String)

def factTranscribes : Fact → Option TranscriptEvent
  | .ingest (.evidenceTranscribed body) => some (.evidenceTranscribed body)
  | _ => none

structure TranscriptSegmentRow where
  segment_index : Nat
  start_ms : Nat
  end_ms : Nat
  starts_turn : Bool
  speaker_index : Nat
  text : String
  asr_text : String
  edited : Bool
  deriving DecidableEq

structure TranscriptReport where
  evidence_id : String
  pass : Nat
  segments : List TranscriptSegmentRow
  speakers : List (Nat × String)
  row_count_max : Nat
  deriving DecidableEq

def transcriptRowCountDefault : Nat := 200

def segmentReport (segment : TranscriptSegmentRecord) : TranscriptSegmentRow where
  segment_index := segment.segment_index
  start_ms := segment.start_ms
  end_ms := segment.end_ms
  starts_turn := segment.starts_turn
  speaker_index := segment.speaker_index
  text := segment.renderedText
  asr_text := segment.asr_text
  edited := segment.edited_text.isSome

namespace Transcribed

def enter (s : Transcribed) : TranscribedEntry → Transcribed
  | .append ts_ms facts =>
    match s.db.appendBatch ts_ms facts with
    | .error _ => s
    | .ok db =>
      { s with
        db := db
        transcripts := (facts.filterMap factTranscribes).foldl Transcripts.apply s.transcripts }
  | .corrected key segment_index text =>
    { s with transcripts := s.transcripts.apply (.transcriptTextCorrected key segment_index text) }
  | .speakerSet key segment_index speaker_index =>
    { s with
      transcripts :=
        s.transcripts.apply (.transcriptSegmentSpeakerSet key segment_index speaker_index) }
  | .speakerNamed evidence_id speaker_index name =>
    { s with
      speakers := Function.update s.speakers evidence_id
        ((s.speakers evidence_id).put speaker_index name) }

def after (entries : List TranscribedEntry) : Transcribed := entries.foldl enter empty

def report (s : Transcribed) (evidence_id : EvidenceId) (pass : Nat) (input : TranscriptGetInput) :
    TranscriptReport :=
  let row_count_max :=
    min (input.row_count_max.getD transcriptRowCountDefault) transcriptListRowCountMax
  { evidence_id := evidence_id.toHex, pass := pass,
    segments := (listTranscriptSegments (s.transcripts.rows ⟨evidence_id,pass⟩)
      input.after_segment_index row_count_max).map segmentReport,
    speakers := (s.speakers evidence_id).rows, row_count_max := row_count_max }

def transcriptGet (s : Transcribed) (input : TranscriptGetInput) :
    Except ApiError TranscriptReport :=
  match parseEvidenceId input.evidence_id "evidenceId" with
  | .error e => .error e
  | .ok evidence_id =>
    match s.db.tables.readEvidence evidence_id with
    | none =>
      .error ⟨"not_found",s!"evidence {input.evidence_id} is not in this project",false⟩
    | some record => .ok (s.report evidence_id (input.pass.getD record.pass) input)

end Transcribed

theorem hexNibble_hexDigit (d : Fin 16) : hexNibble (hexDigit d.val) = some d.val := by
  revert d
  decide

theorem mapM_hexText (w n : Nat) : ∃ digits, (hexText w n).mapM hexNibble = some digits ∧
    digits.length = w ∧ digits.foldl (fun n d => 16*n+d) 0 = n%16^w := by
  induction w generalizing n with
  | zero => exact ⟨[],rfl,rfl,by simp [Nat.mod_one]⟩
  | succ w ih =>
    obtain ⟨digits,hmap,hlength,hvalue⟩ := ih (n/16)
    have hlast := hexNibble_hexDigit ⟨n%16,Nat.mod_lt _ (by decide)⟩
    refine ⟨digits ++ [n%16],?_,?_,?_⟩
    · rw [hexText,mapM_append,hmap]
      simp [hlast]
    · simp [hlength]
    · rw [foldl_append,hvalue]
      simp only [foldl_cons,foldl_nil]
      have hpow : 16^(w+1) = 16*16^w := Nat.pow_succ'
      rw [hpow,Nat.mod_mul]
      omega

theorem evidenceIdFromHex_toHex (e : EvidenceId) : evidenceIdFromHex e.toHex = some e := by
  obtain ⟨digits,hmap,hlength,hvalue⟩ := mapM_hexText 32 e.num
  rw [evidenceIdFromHex,Id.toHex,String.toList_ofList,hmap]
  have hlt : e.num < 16^32 := e.bits.isLt
  simp only [hlength,if_true,hvalue,Nat.mod_eq_of_lt hlt]
  simp [Id.num]

def lastPass (e : EvidenceId) (log : List Fact) : Nat := (movedPasses e log).getLast?.getD 0

def latestTranscribed (e : EvidenceId) (log : List Fact) : Option Nat :=
  (finishedPasses e .transcribe log).max?

/-- The pass in the table is the last one the log moved the item to. -/
structure OnLast (db : Ingest.Db) : Prop where
  pass : ∀ e row, db.tables.evidence.get? e = some row → row.pass = integerU32 (lastPass e db.facts)
  none : ∀ e, db.tables.evidence.get? e = none → movedPasses e db.facts = []

section
variable {db db' : Ingest.Db} {e : EvidenceId}

theorem empty_onLast : OnLast Ingest.Db.empty where
  pass _ _ h := by cases h
  none _ _ := rfl

theorem lastPass_append (log : List Fact) (fact : Fact) :
    lastPass e (log ++ [fact]) = (fact.moves e).getD (lastPass e log) := by
  rw [lastPass,movedPasses_append,lastPass]
  cases fact.moves e with
  | none | some => simp

theorem appendOne_onLast {ts_ms : Nat} {fact : Fact} (h : OnLast db)
    (ha : db.appendOne ts_ms fact = .ok db') : OnLast db' := by
  have hfacts := Db.appendOne_facts ha
  refine ⟨?_,?_⟩
  · intro e row' hrow'
    rw [hfacts,lastPass_append]
    rcases appendOne_pass ha hrow' with ⟨hnone,hpass⟩ | ⟨row,hrow,hpass⟩
    · rw [hpass,(appendOne_none ha hnone).1,lastPass,h.none e hnone]
      rfl
    · rw [hpass,h.pass e row hrow]
      cases fact.moves e <;> rfl
  · intro e hnone'
    have hnone : db.tables.evidence.get? e = none := by
      cases hrow : db.tables.evidence.get? e with
      | none => rfl
      | some row =>
        obtain ⟨row',hrow',-⟩ := (appendOne_dbKept ha).items e row hrow
        rw [hnone'] at hrow'
        cases hrow'
    rw [hfacts,movedPasses_append,h.none e hnone,(appendOne_none ha hnone).1]
    rfl

theorem appendBatch_onLast {ts_ms : Nat} {facts : List Fact} (h : OnLast db)
    (ha : db.appendBatch ts_ms facts = .ok db') : OnLast db' :=
  Db.appendBatch_keeps (R := fun d d' => OnLast d → OnLast d') (fun _ h => h)
    (fun _ _ _ h h' hd => h' (h hd)) (fun _ _ _ _ hone hd => appendOne_onLast hd hone) ha h

end

section
variable {s : Transcribed} {e : EvidenceId}

theorem enter_onLast (h : OnLast s.db) (entry : TranscribedEntry) : OnLast (s.enter entry).db := by
  cases entry with
  | append ts_ms facts =>
    rw [Transcribed.enter]
    cases ha : s.db.appendBatch ts_ms facts with
    | error err => exact h
    | ok db => exact appendBatch_onLast h ha
  | corrected | speakerSet | speakerNamed => exact h

theorem after_onLast (entries : List TranscribedEntry) : OnLast (Transcribed.after entries).db := by
  suffices h : ∀ s : Transcribed, OnLast s.db → OnLast (entries.foldl Transcribed.enter s).db from
    h _ empty_onLast
  induction entries with
  | nil => exact fun s h => h
  | cons entry entries ih => exact fun s h => ih _ (enter_onLast h entry)

theorem report_pass (pass : Nat) (input : TranscriptGetInput) :
    (s.report e pass input).pass = pass := rfl

theorem transcriptGet_current (h : OnLast s.db) {row : EvidenceRow}
    (hrow : s.db.tables.evidence.get? e = some row) (hlast : lastPass e s.db.facts ≤ u32Max)
    {input : TranscriptGetInput} (hid : input.evidence_id = e.toHex) (hpass : input.pass = none) :
    s.transcriptGet input = .ok (s.report e (lastPass e s.db.facts) input) := by
  have hrecord : (row.intoRecord e).pass = lastPass e s.db.facts := by
    rw [← countU32_integerU32 hlast,← h.pass e row hrow]
    rfl
  have hread : s.db.tables.readEvidence e = some (row.intoRecord e) := by
    rw [EvidenceTables.readEvidence,hrow]
    rfl
  simp only [Transcribed.transcriptGet,parseEvidenceId,hid,evidenceIdFromHex_toHex,hread,hpass,
    Option.getD_none,hrecord]

end

theorem finishedPasses_moved {e : EvidenceId} {stage : IngestStage} {log : List Fact} {pass : Nat}
    (h : pass ∈ finishedPasses e stage log) : pass ∈ movedPasses e log := by
  obtain ⟨fact,hfact,hpass⟩ := mem_filterMap.mp h
  refine mem_filterMap.mpr ⟨fact,hfact,?_⟩
  cases fact with
  | job event => cases hpass
  | ingest event =>
    cases event with
    | stageFinished body =>
      simp only at hpass
      split_ifs at hpass with hof
      cases hpass
      exact if_pos hof.1
    | _ => cases hpass

/-- However stages complete and reprocesses are asked for: the viewer's read is
of the latest pass that was transcribed, exactly where no later fact has put
the item on another one. -/
theorem latest_transcript_iff (entries : List TranscribedEntry) (e : EvidenceId) (latest : Nat) :
    let s := Transcribed.after entries
    (∀ pass ∈ movedPasses e s.db.facts, pass ≤ u32Max) →
    latestTranscribed e s.db.facts = some latest →
      ((∀ input : TranscriptGetInput, input.evidence_id = e.toHex → input.pass = none →
          s.transcriptGet input = .ok (s.report e latest input)) ↔
        lastPass e s.db.facts = latest) := by
  intro s hbound hlatest
  have hon := after_onLast entries
  have hmoved : latest ∈ movedPasses e s.db.facts :=
    finishedPasses_moved (List.max?_mem hlatest)
  have hlast : lastPass e s.db.facts ∈ movedPasses e s.db.facts := by
    have hsome := List.getLast?_eq_some_getLast (ne_nil_of_mem hmoved)
    rw [lastPass,hsome,Option.getD_some]
    exact getLast_mem _
  have hthere : ∃ row, s.db.tables.evidence.get? e = some row := by
    refine Option.isSome_iff_exists.mp ?_
    by_contra hnone
    rw [hon.none e (Option.not_isSome_iff_eq_none.mp hnone)] at hmoved
    cases hmoved
  obtain ⟨row,hrow⟩ := hthere
  constructor
  · intro h
    let input : TranscriptGetInput := ⟨"",e.toHex,none,none,none⟩
    have hid : input.evidence_id = e.toHex := rfl
    have hreport := h input hid rfl
    rw [transcriptGet_current hon hrow (hbound _ hlast) hid rfl] at hreport
    have hpass := congrArg TranscriptReport.pass (Except.ok.inj hreport)
    rwa [report_pass,report_pass] at hpass
  · intro heq input hid hpass
    rw [transcriptGet_current hon hrow (hbound _ hlast) hid hpass,heq]

def voiceInput : TranscriptGetInput := ⟨"voice.pos",noteId.toHex,none,none,none⟩

def voiceStarted (stage : IngestStage) : TranscribedEntry :=
  .append 0 [.ingest (.stageStarted ⟨noteId,noteSource,stage,0,⟨1⟩,1⟩)]

def voiceFinished (stage : IngestStage) : TranscribedEntry :=
  .append 0 [.ingest (.stageFinished ⟨noteId,noteSource,stage,0,0,0,0,.none⟩)]

def voiceTranscribed : List TranscribedEntry :=
  [.append 0 [.ingest (.evidenceAdded { noteAdded with media_kind := .audio })],
    voiceStarted .normalize,voiceFinished .normalize,voiceStarted .transcribe,
    .append 0 [.ingest (.evidenceTranscribed ⟨noteId,0,0,[⟨0,0,900,true,"good morning"⟩]⟩)],
    voiceFinished .transcribe]

def voiceRechunking : List TranscribedEntry :=
  voiceTranscribed ++ [.append 0 [.ingest (.reprocessRequested ⟨noteId,.chunk,1,"again"⟩)]]

theorem voice_transcript_iff :
    (∀ input : TranscriptGetInput, input.evidence_id = noteId.toHex → input.pass = none →
        (Transcribed.after voiceTranscribed).transcriptGet input =
          .ok ((Transcribed.after voiceTranscribed).report noteId 0 input)) ↔
      lastPass noteId (Transcribed.after voiceTranscribed).db.facts = 0 :=
  latest_transcript_iff voiceTranscribed noteId 0 (by decide) (by decide)

/-- The request to chunk it again takes the words out of the viewer. -/
theorem voice_goes_missing :
    latestTranscribed noteId (Transcribed.after voiceRechunking).db.facts = some 0 ∧
      ((Transcribed.after voiceRechunking).report noteId 0 voiceInput).segments.map
        TranscriptSegmentRow.text = ["good morning"] ∧
      ((Transcribed.after voiceRechunking).transcriptGet voiceInput).map
        (fun report => (report.pass,report.segments)) = .ok (1,[]) := by
  refine ⟨by decide,by decide,?_⟩
  have hget : (Transcribed.after voiceRechunking).transcriptGet voiceInput =
      .ok ((Transcribed.after voiceRechunking).report noteId 1 voiceInput) := by decide
  rw [hget]
  decide

end ProjectOS.Api
