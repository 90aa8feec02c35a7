import ProjectOS.Lib.Steady
import ProjectOS.Lib.Replay
import ProjectOS.Ingest.Timeline

/-! An attempt that is stopped behind the commit of a window, and the attempt
that takes up where it left off. -/

namespace ProjectOS.Ingest
open Lib Domain List Lib.Prog
open Gateway (TranscriptSegment)

abbrev SteadyTranscriber (α : Type) := Nat → List α → List TranscriptSegment

structure Blobs where
  text : String → Digest
  segments : List Segment → Digest

section
variable {α : Type}

def steadyAnswer (f : SteadyTranscriber α) (blobs : Blobs) : TranscribeAct α → TranscribeInput
  | .transcribe _ _ offset_ms samples => { answer := .ok (f offset_ms samples) }
  | .writeText text => { blob := blobs.text text }
  | .writeSegments segments => { blob := blobs.segments segments }
  | _ => {}

def steadyMachine (f : SteadyTranscriber α) (blobs : Blobs) :
    Machine (transcribeIface α) Unit Transcripts where
  step _ db a := (transcribeMachine α).step (steadyAnswer f blobs a) db a

def upcoming (setup : TranscribeSetup) (resume_from_ms : Nat) :
    Nat → Cursor α → Except AudioError (Option (Cursor α × Bool))
  | 0, _ => .ok none
  | fuel+1, c =>
    match fillWindow (samplesForMs setup.windowMsClamped) c.packets c.window with
    | .error e => .error e
    | .ok (packets,window,ended) =>
      let filled : Cursor α := { c with packets := packets, window := window }
      if filled.Passed resume_from_ms then
        if ended then .ok none else upcoming setup resume_from_ms fuel filled.pass
      else
        let ready := filled.skipTo resume_from_ms
        if ready.window.isEmpty then .ok none else .ok (some (ready,ended))

structure Place (α : Type) where
  cursor : Cursor α
  ended : Bool
  db : Transcripts

structure HandedWindow (α : Type) where
  offset_ms : Nat
  samples : List α
  rest : Packets α
  ended : Bool
  deriving DecidableEq

def handedWindow (w : Cursor α × Bool) : HandedWindow α :=
  ⟨w.1.window_start_ms,w.1.window,w.1.packets,w.2⟩

def Place.window (setup : TranscribeSetup) (resume_from_ms fuel : Nat) (p : Place α) :
    Except AudioError (Option (HandedWindow α)) :=
  if p.ended then .ok none
  else (upcoming setup resume_from_ms fuel p.cursor).map (Option.map handedWindow)

def Place.next (key : PassKey) (setup : TranscribeSetup) (f : SteadyTranscriber α) (blobs : Blobs)
    (resume_from_ms fuel : Nat) (p : Place α) : Option (Place α) :=
  if p.ended then none
  else
    match upcoming setup resume_from_ms fuel p.cursor with
    | .ok (some (ready,ended)) =>
      let segments := f ready.window_start_ms ready.window
      match (commitSegments key ready.batch_index ready.next_segment_index segments
        ready.committed_to_ms).exec (steadyMachine f blobs) p.db with
      | (.ok committed,db) => some ⟨ready.next segments committed,ended,db⟩
      | (.error _,_) => none
    | _ => none

def Place.behind (key : PassKey) (setup : TranscribeSetup) (f : SteadyTranscriber α) (blobs : Blobs)
    (resume_from_ms fuel : Nat) : Nat → Place α → Option (Place α)
  | 0, p => some p
  | n+1, p =>
    (p.next key setup f blobs resume_from_ms fuel).bind
      (Place.behind key setup f blobs resume_from_ms fuel n)

def resumeMs (key : PassKey) (db : Transcripts) : Nat :=
  (resumePoint (readTranscriptProgress (db.rows key))).2

def Place.start (key : PassKey) (packets : Packets α) (db : Transcripts) : Place α :=
  ⟨.start packets (resumePoint (readTranscriptProgress (db.rows key))),false,db⟩

def crashed (a : Attempt α) (f : SteadyTranscriber α) (blobs : Blobs) (k : Nat) (db : Transcripts) :
    Transcripts :=
  (transcribeItem a).stopped (steadyMachine f blobs) k db

def TakesUp (a : Attempt α) (f : SteadyTranscriber α) (blobs : Blobs) (db : Transcripts) (k n : Nat) :
    Prop :=
  ∀ packets ∈ a.recording.toOption,
    let left := crashed a f blobs k db
    ∃ p ∈ (Place.start a.key packets db).behind a.key a.setup f blobs (resumeMs a.key db) a.fuel n,
      left.head = p.db.head ∧ left.rows a.key = p.db.rows a.key ∧
        (Place.start a.key packets left).window a.setup (resumeMs a.key left) a.fuel =
          p.window a.setup (resumeMs a.key db) a.fuel

instance [DecidableEq α] (a : Attempt α) (f : SteadyTranscriber α) (blobs : Blobs)
    (db : Transcripts) (k n : Nat) : Decidable (TakesUp a f blobs db k n) :=
  inferInstanceAs (Decidable (∀ packets ∈ a.recording.toOption, _))

def samplesLeft : Packets α → Nat
  | [] => 0
  | .ok samples :: rest => samples.length+samplesLeft rest
  | .error _ :: rest => samplesLeft rest

theorem fillWindow_samples {window_samples : Nat} {packets packets' : Packets α}
    {window window' : List α} {ended : Bool}
    (h : fillWindow window_samples packets window = .ok (packets',window',ended)) :
    window'.length+samplesLeft packets' = window.length+samplesLeft packets ∧
      (ended = false → window_samples ≤ window'.length) := by
  induction packets generalizing window with
  | nil =>
    cases h
    exact ⟨rfl,fun hended => Nat.le_of_not_lt (of_decide_eq_false hended)⟩
  | cons packet rest ih =>
    by_cases hroom : window.length < window_samples
    · cases packet with
      | error e =>
        rw [fillWindow,if_pos hroom] at h
        cases h
      | ok samples =>
        rw [fillWindow,if_pos hroom] at h
        obtain ⟨hcount,hfull⟩ := ih h
        refine ⟨?_,hfull⟩
        rw [hcount,samplesLeft,length_append]
        omega
    · have hdone : fillWindow window_samples (packet :: rest) window =
          .ok (packet :: rest,window,false) := by
        cases packet <;> rw [fillWindow,if_neg hroom]
      rw [hdone] at h
      cases h
      exact ⟨rfl,fun _ => Nat.le_of_not_lt hroom⟩

def clockMax (total : Nat) : Nat := msColumnMax+total

theorem clockMax_lt {total : Nat} (h : Short total) : clockMax total < u64Max := by
  rw [Short] at h
  rw [clockMax,msColumnMax,u64Max]
  omega

structure Bounded (total : Nat) (c : Cursor α) : Prop where
  samples : c.window.length+samplesLeft c.packets ≤ total
  clock : c.window_start_ms+c.window.length+samplesLeft c.packets ≤ clockMax total

section
variable {total resume_from_ms : Nat} {c : Cursor α}

theorem bounded_start (packets : Packets α) (resume : Nat × Nat) :
    Bounded (samplesLeft packets) (.start packets resume) :=
  ⟨(Nat.zero_add _).le,(Nat.zero_add _).le.trans (Nat.le_add_left _ _)⟩

section
variable (h : Bounded total c)
include h

theorem Bounded.early (hshort : Short total) : c.window_start_ms < u64Max := by
  have := h.clock
  have := clockMax_lt hshort
  omega

theorem Bounded.passed_iff (hshort : Short total) :
    c.Passed resume_from_ms ↔ c.window_start_ms+c.window.length/16 ≤ resume_from_ms := by
  have hclock := h.clock
  have hmax := clockMax_lt hshort
  have hwrap : u64Max < 2^64 := by decide
  rw [Cursor.Passed,msForSamples_eq,Nat.mod_eq_of_lt (by omega)]

theorem Bounded.pass (hshort : Short total) :
    Bounded total c.pass ∧ c.pass.window_start_ms = c.window_start_ms+c.window.length/16 := by
  have hclock := h.clock
  have hsamples := h.samples
  have hmax := clockMax_lt hshort
  have hstart : c.pass.window_start_ms = c.window_start_ms+c.window.length/16 := by
    rw [Cursor.pass,msForSamples_eq]
    exact min_eq_left (by omega)
  have hwindow : c.pass.window.length = 0 := rfl
  have hpackets : c.pass.packets = c.packets := rfl
  refine ⟨⟨?_,?_⟩,hstart⟩
  · rw [hwindow,hpackets]
    omega
  · rw [hstart,hwindow,hpackets]
    omega

theorem Bounded.skipTo (hshort : Short total)
    (hnot : ¬ c.Passed resume_from_ms) : Bounded total (c.skipTo resume_from_ms) := by
  rw [h.passed_iff hshort] at hnot
  have hclock := h.clock
  have hsamples := h.samples
  rw [Cursor.skipTo]
  split
  · rename_i hbefore
    have hskip : samplesForMs (resume_from_ms-c.window_start_ms) =
        16*(resume_from_ms-c.window_start_ms) :=
      samplesForMs_short (by omega) hshort
    refine ⟨?_,?_⟩
    · dsimp only
      rw [length_drop]
      omega
    · dsimp only
      rw [hskip,length_drop]
      omega
  · exact h

end

def InColumn (f : SteadyTranscriber α) : Prop :=
  ∀ offset_ms samples, ∀ segment ∈ f offset_ms samples,
    segment.start_ms ≤ msColumnMax ∧ segment.end_ms ≤ msColumnMax

theorem advanceMs_cases (window_start_ms sample_count : Nat) {segments : List TranscriptSegment}
    (hends : ∀ segment ∈ segments, segment.end_ms ≤ msColumnMax) :
    advanceMs window_start_ms sample_count segments = 1 ∨
      advanceMs window_start_ms sample_count segments ≤ sample_count/16 ∨
        window_start_ms+advanceMs window_start_ms sample_count segments ≤ msColumnMax := by
  have hlast : (segments.getLast?.map TranscriptSegment.end_ms).getD window_start_ms =
      window_start_ms ∨
      (segments.getLast?.map TranscriptSegment.end_ms).getD window_start_ms ≤ msColumnMax := by
    cases hlast : segments.getLast? with
    | none => exact Or.inl rfl
    | some segment => exact Or.inr (hends segment (mem_of_getLast? hlast))
  rw [advanceMs,msForSamples_eq,advanceFractionMin,boundaryOverlapMs]
  generalize (segments.getLast?.map TranscriptSegment.end_ms).getD window_start_ms = last at hlast
  split <;> omega

theorem Bounded.next (h : Bounded total c) (hshort : Short total) (hsome : c.window.length ≠ 0)
    {segments : List TranscriptSegment}
    (hends : ∀ segment ∈ segments, segment.end_ms ≤ msColumnMax) (committed : Committed) :
    Bounded total (c.next segments committed) ∧
      c.window_start_ms < (c.next segments committed).window_start_ms := by
  have hclock := h.clock
  have hsamples := h.samples
  have hmax := clockMax_lt hshort
  have hpos : 1 ≤ advanceMs c.window_start_ms c.window.length segments := le_max_right _ _
  have hadvance := advanceMs_cases c.window_start_ms c.window.length hends
  have hwindow : (c.next segments committed).window.length = c.window.length-
      min (samplesForMs (advanceMs c.window_start_ms c.window.length segments)) c.window.length :=
    length_drop
  have hpackets : (c.next segments committed).packets = c.packets := rfl
  have hstart : (c.next segments committed).window_start_ms =
      min (c.window_start_ms+advanceMs c.window_start_ms c.window.length segments) u64Max := rfl
  generalize advanceMs c.window_start_ms c.window.length segments = advance
    at hpos hadvance hwindow hstart
  have hlate : c.window_start_ms+advance+(c.next segments committed).window.length+
      samplesLeft c.packets ≤ clockMax total := by
    rcases hadvance with rfl | hadvance | hadvance
    · have hone : samplesForMs 1 = 16 := by decide
      omega
    · have hskip : samplesForMs advance = 16*advance :=
        samplesForMs_short (by omega) hshort
      omega
    · have hleft : (c.next segments committed).window.length+samplesLeft c.packets ≤ total := by
        omega
      rw [Nat.add_assoc]
      exact Nat.add_le_add hadvance hleft
  refine ⟨⟨?_,?_⟩,?_⟩
  · rw [hpackets]
    omega
  · rw [hpackets,hstart]
    omega
  · rw [hstart]
    omega

end

theorem resumePoint_end (t : SegmentTable) :
    (resumePoint (readTranscriptProgress t)).2 = lastEndMs t := by
  rw [readTranscriptProgress]
  split
  · rename_i hempty
    rw [lastEndMs,maxOver,hempty]
    rfl
  · rfl

variable {t : SegmentTable}

theorem lt_resumePoint {i : Nat} {row : SegmentRow} (hrow : t.get? i = some row)
    (hfew : (resumePoint (readTranscriptProgress t)).1 < transcriptSegmentCountMax) :
    i < (resumePoint (readTranscriptProgress t)).1 := by
  have hsome : t.rows ≠ [] := ne_nil_of_mem (t.mem_rows.mpr hrow)
  have hle : i ≤ maxOver (fun entry => entry.1) t := le_maxOver (f := fun entry => entry.1) hrow
  rw [readTranscriptProgress,if_neg hsome,resumePoint,satAdd32] at hfew ⊢
  have hsmall : transcriptSegmentCountMax < u32Max := by decide
  omega

theorem resumePoint_put {n e : Nat} (h : resumePoint (readTranscriptProgress t) = (n,e))
    (hfew : n < transcriptSegmentCountMax) (row : SegmentRow) :
    resumePoint (readTranscriptProgress (t.put n row)) = (n+1,max e row.end_ms) := by
  have hbelow : ∀ i old, t.get? i = some old → i < n := by
    intro i old hold
    have hlt := lt_resumePoint hold (by rw [h]; exact hfew)
    rwa [h] at hlt
  have hnew : (t.put n row).get? n = some row := Table.get?_put_self t n row
  have hold : ∀ i old, t.get? i = some old → (t.put n row).get? i = some old := fun i old hget => by
    rw [Table.get?_put_ne t row (Nat.ne_of_lt (hbelow i old hget)),hget]
  have hsome : (t.put n row).rows ≠ [] := ne_nil_of_mem ((t.put n row).mem_rows.mpr hnew)
  have hlast : lastEndMs t = e := by rw [← resumePoint_end,h]
  have hindex : maxOver (fun entry => entry.1) (t.put n row) = n := by
    refine le_antisymm (maxOver_le fun i other hother => ?_) (le_maxOver (f := fun entry => entry.1) hnew)
    rw [Table.get?_put] at hother
    split at hother
    · omega
    · exact (hbelow i other hother).le
  have hend : lastEndMs (t.put n row) = max e row.end_ms := by
    refine le_antisymm (maxOver_le fun i other hother => ?_) (max_le ?_ ?_)
    · rw [Table.get?_put] at hother
      split at hother
      · cases hother
        exact le_max_right _ _
      · rw [← hlast]
        exact (le_maxOver (f := fun entry => entry.2.end_ms) hother).trans (le_max_left _ _)
    · rw [← hlast]
      exact maxOver_le fun i other hother =>
        le_maxOver (f := fun entry => entry.2.end_ms) (hold i other hother)
    · exact le_maxOver (f := fun entry => entry.2.end_ms) hnew
  have hnext : satAdd32 n 1 = n+1 := by
    have hsmall : transcriptSegmentCountMax < u32Max := by decide
    rw [satAdd32]
    omega
  rw [readTranscriptProgress,if_neg hsome,hindex,hend,resumePoint,hnext]

theorem resumePoint_upsert (seq : Nat) {segments : List TranscriptSegment}
    {facts : List TranscriptSegmentFact} {n e : Nat} (hfacts : segmentFacts n segments = .ok facts)
    (htimes : ∀ segment ∈ segments, segment.start_ms ≤ msColumnMax ∧ segment.end_ms ≤ msColumnMax)
    (h : resumePoint (readTranscriptProgress t) = (n,e)) :
    resumePoint (readTranscriptProgress (upsertSegments seq facts t)) =
      (n+facts.length,facts.foldl (fun latest fact => max latest fact.end_ms) e) := by
  induction segments generalizing n e facts t with
  | nil =>
    cases hfacts
    exact h
  | cons segment rest ih =>
    rw [segmentFacts] at hfacts
    split at hfacts
    · cases hfacts
    · rename_i hfew
      split at hfacts
      · cases hfacts
      · obtain ⟨facts',hrest,rfl⟩ := ok_of_map hfacts
        have htime := htimes segment (by simp)
        have hcolumn : (segmentRow seq (segmentFact n segment)).end_ms =
            max segment.end_ms segment.start_ms := min_eq_left (max_le htime.2 htime.1)
        have hput := resumePoint_put h (Nat.lt_of_not_le hfew) (segmentRow seq (segmentFact n segment))
        rw [hcolumn] at hput
        have hnext := ih hrest (fun s hs => htimes s (mem_cons_of_mem _ hs)) hput
        rw [length_cons,show n+(facts'.length+1) = n+1+facts'.length by omega]
        exact hnext

def UpTo (key : PassKey) (db : Transcripts) (c : Committed) : Prop :=
  resumePoint (readTranscriptProgress (db.rows key)) = (c.next_segment_index,c.committed_to_ms)

section
variable {key : PassKey} {f : SteadyTranscriber α} {blobs : Blobs}

theorem emitTranscript_exec (batch_index : Nat) (facts : List TranscriptSegmentFact)
    (db : Transcripts) :
    (emitTranscript key batch_index facts).exec (steadyMachine f blobs) db =
      (.ok (),if facts = [] then db else db.apply (transcribedEvent key batch_index facts)) := by
  rw [emitTranscript]
  split
  · rfl
  · rfl

theorem commitBatch_exec (batch_index batch_index' : Nat) (c : Committed)
    (batch : List TranscriptSegment × Nat) (db : Transcripts) :
    (commitBatch key batch_index c batch).exec (steadyMachine f blobs) db =
      (commitBatch key batch_index' c batch).exec (steadyMachine f blobs) db := by
  rw [commitBatch]
  cases hfacts : segmentFacts c.next_segment_index batch.1 with
  | error e => rw [commitBatch,hfacts]
  | ok facts =>
    rw [commitBatch,hfacts]
    simp only [exec_bind,emitTranscript_exec]
    rfl

theorem commitSegments_exec (batch_index batch_index' n committed_to_ms : Nat)
    (segments : List TranscriptSegment) (db : Transcripts) :
    (commitSegments key batch_index n segments committed_to_ms).exec (steadyMachine f blobs) db =
      (commitSegments key batch_index' n segments committed_to_ms).exec (steadyMachine f blobs) db :=
  exec_foldlM (fun c batch db => commitBatch_exec batch_index batch_index' c batch db) _ _ _

theorem mem_subBatches {fuel : Nat} {segments batch : List TranscriptSegment}
    (h : batch ∈ subBatches fuel segments) : ∀ segment ∈ batch, segment ∈ segments := by
  induction fuel generalizing segments with
  | zero => cases h
  | succ fuel ih =>
    cases segments with
    | nil => cases h
    | cons first rest =>
      intro segment hsegment
      have hcut : batch ∈ (first :: rest).take transcriptBatchCountMax ::
        subBatches fuel ((first :: rest).drop transcriptBatchCountMax) := h
      rcases mem_cons.mp hcut with rfl | h
      · exact mem_of_mem_take hsegment
      · exact mem_of_mem_drop (ih h segment hsegment)

theorem commitBatch_upTo {batch_index : Nat} {batch : List TranscriptSegment × Nat}
    (htimes : ∀ segment ∈ batch.1, segment.start_ms ≤ msColumnMax ∧ segment.end_ms ≤ msColumnMax)
    {c c' : Committed} {db db' : Transcripts} (h : UpTo key db c)
    (hcommit : (commitBatch key batch_index c batch).exec (steadyMachine f blobs) db =
      (.ok c',db')) : UpTo key db' c' ∧ c.committed_to_ms ≤ c'.committed_to_ms := by
  rw [commitBatch] at hcommit
  cases hfacts : segmentFacts c.next_segment_index batch.1 with
  | error e =>
    rw [hfacts] at hcommit
    cases hcommit
  | ok facts =>
    rw [hfacts] at hcommit
    simp only [exec_bind,emitTranscript_exec,exec_ret] at hcommit
    cases hcommit
    refine ⟨?_,?_⟩
    · split
      · rename_i hnone
        subst hnone
        exact h
      · rw [UpTo,show (db.apply (transcribedEvent key (batchNumber batch_index batch.2) facts)).rows
            key = upsertSegments (db.head+1) facts (db.rows key) from applySegments_key db _]
        exact resumePoint_upsert _ hfacts htimes h
    · dsimp only
      generalize c.committed_to_ms = latest
      clear hfacts
      induction facts generalizing latest with
      | nil => exact le_refl _
      | cons fact facts ih => exact (le_max_left _ _).trans (ih _)

theorem commitSegments_upTo {batch_index n e : Nat} {segments : List TranscriptSegment}
    (htimes : ∀ segment ∈ segments, segment.start_ms ≤ msColumnMax ∧ segment.end_ms ≤ msColumnMax)
    {committed : Committed} {db db' : Transcripts} (h : UpTo key db ⟨n,e⟩)
    (hcommit : (commitSegments key batch_index n segments e).exec (steadyMachine f blobs) db =
      (.ok committed,db')) : UpTo key db' committed ∧ e ≤ committed.committed_to_ms := by
  refine exec_foldlM_keeps (J := fun c db => UpTo key db c ∧ e ≤ c.committed_to_ms)
    (fun batch hbatch c s c' s' hc hround => ?_) ⟨h,le_refl e⟩ hcommit
  have hmem : batch.1 ∈ subBatches (freshSegments e segments).length (freshSegments e segments) :=
    (mem_zipIdx hbatch).2.2 ▸ getElem_mem _
  obtain ⟨hup,hle⟩ := commitBatch_upTo (fun segment hsegment =>
    htimes segment (mem_of_mem_filter (mem_subBatches hmem segment hsegment))) hc.1 hround
  exact ⟨hup,hc.2.trans hle⟩

def AppendsTo (key : PassKey) : TranscribeAct α → Prop
  | .append event => event.key = key
  | _ => True

def SameElsewhere (key : PassKey) (db db' : Transcripts) : Prop :=
  ∀ other ≠ key, db'.rows other = db.rows other

theorem steadyMachine_elsewhere {db db' : Transcripts} {a : TranscribeAct α}
    (ha : AppendsTo key a) (h : SameElsewhere key db db') :
    SameElsewhere key db ((steadyMachine f blobs).step () db' a).2 := by
  cases a with
  | append event =>
    intro other hother
    exact (apply_elsewhere (by rwa [show event.key = key from ha])).trans (h other hother)
  | readProgress | transcribe | listSegments | writeText | writeSegments => exact h

variable (setup : TranscribeSetup)

theorem transcribeWindow_appends (window_start_ms : Nat) (samples : List α) :
    (transcribeWindow setup window_start_ms samples).Within (AppendsTo key) := by
  refine ⟨trivial,fun answer => ?_⟩
  cases answer with
  | error | ok => trivial

theorem transcribeLoop_appends (resume_from_ms fuel : Nat) (c : Cursor α) :
    (transcribeLoop setup key resume_from_ms fuel c).Within (AppendsTo key) := by
  induction fuel generalizing c with
  | zero => trivial
  | succ fuel ih =>
    rw [transcribeLoop]
    split
    · trivial
    · dsimp only
      split_ifs
      · trivial
      · exact ih _
      · trivial
      · exact within_bind (transcribeWindow_appends _ _ _) fun segments =>
          within_bind (commitSegments_within fun _ _ => rfl) fun committed => trivial
      · exact within_bind (transcribeWindow_appends _ _ _) fun segments =>
          within_bind (commitSegments_within fun _ _ => rfl) fun committed => ih _

theorem transcribeItem_appends (a : Attempt α) : (transcribeItem a).Within (AppendsTo a.key) := by
  refine ⟨trivial,fun progress => ?_⟩
  cases progress with
  | error fault => trivial
  | ok progress =>
    dsimp only
    cases a.recording with
    | error e => trivial
    | ok packets =>
      exact within_bind (transcribeLoop_appends _ _ _ _) fun c =>
        writeTranscript_within (fun _ => trivial) (fun _ => trivial) fun _ => trivial

def windowRound (setup : TranscribeSetup) (key : PassKey) (resume_from_ms fuel : Nat)
    (ready : Cursor α) (ended : Bool) : TranscribeProg α (Cursor α) :=
  (transcribeWindow setup ready.window_start_ms ready.window).bind fun segments =>
    (commitSegments key ready.batch_index ready.next_segment_index segments
      ready.committed_to_ms).bind fun committed =>
        if ended then .ret (ready.next segments committed)
        else transcribeLoop setup key resume_from_ms fuel (ready.next segments committed)

theorem windowRound_exec (resume_from_ms fuel : Nat) (ready : Cursor α) (ended : Bool)
    (db : Transcripts) :
    (windowRound setup key resume_from_ms fuel ready ended).exec (steadyMachine f blobs) db =
      let segments := f ready.window_start_ms ready.window
      match (commitSegments key ready.batch_index ready.next_segment_index segments
        ready.committed_to_ms).exec (steadyMachine f blobs) db with
      | (.ok committed,db') =>
        (if ended then .ret (ready.next segments committed)
          else transcribeLoop setup key resume_from_ms fuel
            (ready.next segments committed)).exec (steadyMachine f blobs) db'
      | (.error e,db') => (.error e,db') := by
  have hcall : (transcribeWindow setup ready.window_start_ms ready.window).exec
      (steadyMachine f blobs) db = (.ok (f ready.window_start_ms ready.window),db) := rfl
  rw [windowRound,exec_bind,hcall]
  dsimp only
  rw [exec_bind]
  cases (commitSegments key ready.batch_index ready.next_segment_index
    (f ready.window_start_ms ready.window) ready.committed_to_ms).exec (steadyMachine f blobs) db with
  | mk result db' =>
    cases result with
    | ok | error => rfl

/-- Two cursors that go on alike. -/
structure SameAt (c c' : Cursor α) : Prop where
  packets : c.packets = c'.packets
  window : c.window = c'.window
  start : c.window_start_ms = c'.window_start_ms
  index : c.next_segment_index = c'.next_segment_index
  committed : c.committed_to_ms = c'.committed_to_ms

theorem SameAt.passed {c c' : Cursor α} (h : SameAt c c') (resume_from_ms : Nat) :
    c'.Passed resume_from_ms ↔ c.Passed resume_from_ms := by
  rw [Cursor.Passed,Cursor.Passed,h.window,h.start]

theorem SameAt.next {c c' : Cursor α} (h : SameAt c c') (segments : List TranscriptSegment)
    (committed : Committed) : SameAt (c.next segments committed) (c'.next segments committed) where
  packets := h.packets
  window := by simp only [Cursor.next,h.window,h.start]
  start := by simp only [Cursor.next,h.window,h.start]
  index := rfl
  committed := by simp only [Cursor.next,h.committed]

abbrev loopOutcome (f : SteadyTranscriber α) (blobs : Blobs) (p : TranscribeProg α (Cursor α))
    (db : Transcripts) : Except StageFailure Nat × Transcripts :=
  p.outcome (steadyMachine f blobs) Cursor.next_segment_index db

theorem windowRound_alike {setup : TranscribeSetup} {resume_from_ms resume_from_ms' fuel fuel' : Nat}
    {ready ready' : Cursor α} (hsame : SameAt ready ready') (ended : Bool) (db : Transcripts)
    (hnext : ∀ committed db,
      let segments := f ready.window_start_ms ready.window
      loopOutcome f blobs (transcribeLoop setup key resume_from_ms fuel
          (ready.next segments committed)) db =
        loopOutcome f blobs (transcribeLoop setup key resume_from_ms' fuel'
          (ready'.next segments committed)) db) :
    loopOutcome f blobs (windowRound setup key resume_from_ms fuel ready ended) db =
      loopOutcome f blobs (windowRound setup key resume_from_ms' fuel' ready' ended) db := by
  simp only [loopOutcome,Prog.outcome,windowRound_exec] at hnext ⊢
  rw [← hsame.start,← hsame.window,← hsame.index,← hsame.committed,
    commitSegments_exec ready'.batch_index ready.batch_index]
  cases (commitSegments key ready.batch_index ready.next_segment_index
    (f ready.window_start_ms ready.window) ready.committed_to_ms).exec (steadyMachine f blobs) db with
  | mk result db' =>
    cases result with
    | error e => rfl
    | ok committed =>
      cases ended with
      | true => rfl
      | false => exact hnext committed db'

section
variable {setup : TranscribeSetup} {total : Nat} {c : Cursor α} {resume_from_ms : Nat}

theorem skipTo_late (h : resume_from_ms < c.window_start_ms) :
    c.skipTo resume_from_ms = c := if_neg (Nat.lt_asymm h)

theorem Bounded.fill (h : Bounded total c) {window_samples : Nat} {packets : Packets α}
    {window : List α} {ended : Bool}
    (hfill : fillWindow window_samples c.packets c.window = .ok (packets,window,ended)) :
    Bounded total { c with packets := packets, window := window } := by
  have hcount := (fillWindow_samples hfill).1
  have hsamples := h.samples
  have hclock := h.clock
  exact ⟨by dsimp only; omega,by dsimp only; omega⟩

variable {c' : Cursor α}

theorem transcribeLoop_alike (hshort : Short total) (htimes : InColumn f)
    {resume_from_ms' fuel fuel' : Nat} (hsame : SameAt c c')
    (hb : Bounded total c) (hlate : resume_from_ms < c.window_start_ms)
    (hlate' : resume_from_ms' < c.window_start_ms) (hfuel : u64Max ≤ fuel+c.window_start_ms)
    (hfuel' : u64Max ≤ fuel'+c.window_start_ms) (db : Transcripts) :
    loopOutcome f blobs (transcribeLoop setup key resume_from_ms fuel c) db =
      loopOutcome f blobs (transcribeLoop setup key resume_from_ms' fuel' c') db := by
  have hearly := hb.early hshort
  induction fuel generalizing fuel' c c' db with
  | zero => omega
  | succ fuel ih =>
    cases fuel' with
    | zero => omega
    | succ fuel' =>
      rw [transcribeLoop,transcribeLoop,← hsame.packets,← hsame.window]
      cases hfill : fillWindow (samplesForMs setup.windowMsClamped) c.packets c.window with
      | error e => rfl
      | ok out =>
        obtain ⟨packets,window,ended⟩ := out
        have hfilled := hb.fill hfill
        have hsame' : SameAt { c with packets := packets, window := window }
            { c' with packets := packets, window := window } :=
          ⟨rfl,rfl,hsame.start,hsame.index,hsame.committed⟩
        have hstart : ({ c with packets := packets, window := window } : Cursor α).window_start_ms =
            c.window_start_ms := rfl
        dsimp only
        generalize ({ c with packets := packets, window := window } : Cursor α) = filled
          at hfilled hsame' hstart
        generalize ({ c' with packets := packets, window := window } : Cursor α) = filled' at hsame'
        rw [← hstart] at hlate hlate' hfuel hfuel'
        have hnot : ¬ filled.Passed resume_from_ms := by
          rw [hfilled.passed_iff hshort]
          omega
        have hnot' : ¬ filled'.Passed resume_from_ms' := by
          rw [hsame'.passed,hfilled.passed_iff hshort]
          omega
        rw [if_neg hnot,if_neg hnot',skipTo_late hlate,skipTo_late (hsame'.start ▸ hlate')]
        by_cases hempty : filled.window.isEmpty = true
        · rw [if_pos hempty,if_pos (by rwa [← hsame'.window])]
          exact congrArg (fun index => (Except.ok index,db)) hsame'.index
        · rw [if_neg hempty,if_neg (by rwa [← hsame'.window])]
          have hsome : filled.window.length ≠ 0 := by simpa using hempty
          refine windowRound_alike hsame' ended db fun committed db => ?_
          obtain ⟨hnext,hlt⟩ := hfilled.next hshort hsome
            (fun segment hsegment => (htimes _ _ segment hsegment).2) committed
          exact ih (hsame'.next _ _) hnext (by omega) (by omega) (by omega) (by omega) db
            (hnext.early hshort)

structure Ready (total resume_from_ms : Nat) (c ready : Cursor α) : Prop where
  bounded : Bounded total ready
  some : ready.window.length ≠ 0
  late : resume_from_ms ≤ ready.window_start_ms
  index : ready.next_segment_index = c.next_segment_index
  committed : ready.committed_to_ms = c.committed_to_ms

theorem skipTo_ready (hb : Bounded total (c.skipTo resume_from_ms))
    (hsome : ¬ (c.skipTo resume_from_ms).window.isEmpty = true) :
    Ready total resume_from_ms c (c.skipTo resume_from_ms) := by
  refine ⟨hb,by simpa using hsome,?_,?_,?_⟩
  all_goals rw [Cursor.skipTo]; split
  · exact le_refl _
  · omega
  all_goals rfl

theorem transcribeLoop_upcoming (hshort : Short total) {resume_from_ms fuel fuel' : Nat}
    {c : Cursor α} (hb : Bounded total c) (hfuel : u64Max ≤ fuel+c.window_start_ms)
    (hfuel' : u64Max ≤ fuel'+c.window_start_ms) :
    match upcoming setup resume_from_ms fuel' c with
    | .error e => transcribeLoop setup key resume_from_ms fuel c = .throw (stageFailureForAudio e)
    | .ok none => ∃ last, transcribeLoop setup key resume_from_ms fuel c = .ret last ∧
        last.next_segment_index = c.next_segment_index
    | .ok (some (ready,ended)) => Ready total resume_from_ms c ready ∧
        ∃ left, u64Max ≤ left+1+ready.window_start_ms ∧ transcribeLoop setup key resume_from_ms fuel c =
          windowRound setup key resume_from_ms left ready ended := by
  have hearly := hb.early hshort
  induction fuel generalizing fuel' c with
  | zero => omega
  | succ fuel ih =>
    cases fuel' with
    | zero => omega
    | succ fuel' =>
      rw [transcribeLoop,upcoming]
      cases hfill : fillWindow (samplesForMs setup.windowMsClamped) c.packets c.window with
      | error e => rfl
      | ok out =>
        obtain ⟨packets,window,ended⟩ := out
        have hfilled := hb.fill hfill
        have hlong : ended = false → 16000 ≤ window.length := fun hended =>
          (windowSamples_eq setup).2.1.trans ((fillWindow_samples hfill).2 hended)
        have hkept : ({ c with packets := packets, window := window } : Cursor α).window_start_ms =
            c.window_start_ms ∧
          ({ c with packets := packets, window := window } : Cursor α).window = window ∧
          ({ c with packets := packets, window := window } : Cursor α).next_segment_index =
            c.next_segment_index ∧
          ({ c with packets := packets, window := window } : Cursor α).committed_to_ms =
            c.committed_to_ms := ⟨rfl,rfl,rfl,rfl⟩
        dsimp only
        generalize ({ c with packets := packets, window := window } : Cursor α) = filled
          at hfilled hkept
        obtain ⟨hstart,hwindow,hindex,hcommitted⟩ := hkept
        by_cases hpassed : filled.Passed resume_from_ms
        · rw [if_pos hpassed,if_pos hpassed]
          cases ended with
          | true => exact ⟨filled.pass,rfl,hindex⟩
          | false =>
            have := hlong rfl
            obtain ⟨hpass,hlater⟩ := hfilled.pass hshort
            rw [hwindow,hstart] at hlater
            have hgo := @ih fuel' filled.pass hpass (by omega) (by omega) (hpass.early hshort)
            have hindex' : filled.pass.next_segment_index = c.next_segment_index := hindex
            have hcommitted' : filled.pass.committed_to_ms = c.committed_to_ms := hcommitted
            simp only [Bool.false_eq_true,if_false]
            cases hup : upcoming setup resume_from_ms fuel' filled.pass with
            | error e =>
              rw [hup] at hgo
              exact hgo
            | ok next =>
              rw [hup] at hgo
              cases next with
              | none =>
                obtain ⟨last,hlast,hlast'⟩ := hgo
                exact ⟨last,hlast,hlast'.trans hindex'⟩
              | some w =>
                obtain ⟨hready,left,hleft,hround⟩ := hgo
                exact ⟨⟨hready.bounded,hready.some,hready.late,hready.index.trans hindex',
                  hready.committed.trans hcommitted'⟩,left,hleft,hround⟩
        · rw [if_neg hpassed,if_neg hpassed]
          have hskip := hfilled.skipTo hshort hpassed
          by_cases hempty : (filled.skipTo resume_from_ms).window.isEmpty = true
          · rw [if_pos hempty,if_pos hempty]
            refine ⟨_,rfl,?_⟩
            rw [Cursor.skipTo]
            split <;> exact hindex
          · rw [if_neg hempty,if_neg hempty]
            have hready := skipTo_ready hskip hempty
            have hlater : c.window_start_ms ≤ (filled.skipTo resume_from_ms).window_start_ms := by
              rw [Cursor.skipTo]
              split
              · dsimp only
                omega
              · omega
            exact ⟨⟨hready.bounded,hready.some,hready.late,hready.index.trans hindex,
              hready.committed.trans hcommitted⟩,fuel,by omega,rfl⟩

theorem upcoming_alike (hshort : Short total) (htimes : InColumn f)
    {resume_from_ms' fuel fuel' whole : Nat} (hb : Bounded total c)
    (hb' : Bounded total c') (hfuel : u64Max ≤ fuel+c.window_start_ms)
    (hfuel' : u64Max ≤ fuel'+c'.window_start_ms) (hwhole : u64Max ≤ whole)
    (hindex : c.next_segment_index = c'.next_segment_index)
    (hcommitted : c.committed_to_ms = c'.committed_to_ms)
    (hsame : (upcoming setup resume_from_ms whole c).map (Option.map handedWindow) =
      (upcoming setup resume_from_ms' whole c').map (Option.map handedWindow)) (db : Transcripts) :
    loopOutcome f blobs (transcribeLoop setup key resume_from_ms fuel c) db =
      loopOutcome f blobs (transcribeLoop setup key resume_from_ms' fuel' c') db := by
  have hcome := @transcribeLoop_upcoming _ key setup total hshort resume_from_ms fuel whole c hb
    hfuel (hwhole.trans (Nat.le_add_right _ _))
  have hcome' := @transcribeLoop_upcoming _ key setup total hshort resume_from_ms' fuel' whole c' hb'
    hfuel' (hwhole.trans (Nat.le_add_right _ _))
  revert hcome hcome' hsame
  cases upcoming setup resume_from_ms whole c with
  | error e =>
    cases upcoming setup resume_from_ms' whole c' with
    | ok next' => exact nofun
    | error e' =>
      intro hsame hcome hcome'
      rw [hcome,hcome',Except.error.inj hsame]
  | ok next =>
    cases upcoming setup resume_from_ms' whole c' with
    | error e' => exact nofun
    | ok next' =>
      intro hsame hcome hcome'
      have hwindow := Except.ok.inj hsame
      cases next with
      | none =>
        cases next' with
        | some w => cases hwindow
        | none =>
          obtain ⟨last,hlast,hend⟩ := hcome
          obtain ⟨last',hlast',hend'⟩ := hcome'
          rw [hlast,hlast']
          exact congrArg (fun index => (Except.ok index,db))
            (hend.trans (hindex.trans hend'.symm))
      | some w =>
        cases next' with
        | none => cases hwindow
        | some w' =>
          obtain ⟨ready,ended⟩ := w
          obtain ⟨ready',ended'⟩ := w'
          simp only [handedWindow,Option.map_some,Option.some.injEq,HandedWindow.mk.injEq] at hwindow
          obtain ⟨hstart,hsamples,hpackets,rfl⟩ := hwindow
          obtain ⟨hready,left,hleft,hround⟩ := hcome
          obtain ⟨hready',left',hleft',hround'⟩ := hcome'
          rw [hround,hround']
          have hat : SameAt ready ready' := ⟨hpackets,hsamples,hstart,
            hready.index.trans (hindex.trans hready'.index.symm),
            hready.committed.trans (hcommitted.trans hready'.committed.symm)⟩
          refine windowRound_alike hat ended db fun committed db => ?_
          obtain ⟨hnext,hlater⟩ := hready.bounded.next hshort hready.some
            (fun segment hsegment => (htimes _ _ segment hsegment).2) committed
          have hlate := hready.late
          have hlate' := hready'.late
          exact transcribeLoop_alike hshort htimes (hat.next _ _) hnext (by omega) (by omega)
            (by omega) (by omega) db

end

def Place.rest (setup : TranscribeSetup) (key : PassKey) (resume_from_ms fuel : Nat)
    (p : Place α) : TranscribeProg α (Cursor α) :=
  if p.ended then .ret p.cursor else transcribeLoop setup key resume_from_ms fuel p.cursor

/-- The whole run comes by this place, and goes on from there. -/
structure ComesBy (f : SteadyTranscriber α) (blobs : Blobs) (key : PassKey) (setup : TranscribeSetup)
    (total resume_from_ms : Nat) (whole : TranscribeProg α (Cursor α)) (db : Transcripts)
    (p : Place α) : Prop where
  bounded : Bounded total p.cursor
  upTo : UpTo key p.db ⟨p.cursor.next_segment_index,p.cursor.committed_to_ms⟩
  elsewhere : SameElsewhere key db p.db
  goes_on : ∃ fuel, u64Max ≤ fuel+p.cursor.window_start_ms ∧
    whole.exec (steadyMachine f blobs) db =
      (p.rest setup key resume_from_ms fuel).exec (steadyMachine f blobs) p.db

section
variable {setup : TranscribeSetup} {total resume_from_ms fuel : Nat}
  {whole : TranscribeProg α (Cursor α)} {db : Transcripts} {p q : Place α}

theorem comesBy_start (setup : TranscribeSetup) (resume_from_ms : Nat) (packets : Packets α)
    (db : Transcripts) (hfuel : u64Max ≤ fuel) :
    ComesBy f blobs key setup (samplesLeft packets) resume_from_ms
      (transcribeLoop setup key resume_from_ms fuel (Place.start key packets db).cursor) db
      (Place.start key packets db) :=
  ⟨bounded_start packets _,rfl,fun _ _ => rfl,fuel,hfuel,rfl⟩

section
variable (h : ComesBy f blobs key setup total resume_from_ms whole db p)
include h

theorem ComesBy.next
    (hshort : Short total) (htimes : InColumn f) (hfuel : u64Max ≤ fuel)
    (hnext : p.next key setup f blobs resume_from_ms fuel = some q) :
    ComesBy f blobs key setup total resume_from_ms whole db q := by
  obtain ⟨left,hleft,hwhole⟩ := h.goes_on
  rw [Place.next] at hnext
  rw [Place.rest] at hwhole
  cases hended : p.ended with
  | true =>
    rw [hended] at hnext
    cases hnext
  | false =>
    rw [hended] at hnext hwhole
    simp only [Bool.false_eq_true,if_false] at hnext hwhole
    have hcome := @transcribeLoop_upcoming _ key setup total hshort resume_from_ms left fuel
      p.cursor h.bounded hleft (hfuel.trans (Nat.le_add_right _ _))
    split at hnext
    · rename_i ready ended hup
      rw [hup] at hcome
      obtain ⟨hready,left',hleft',hround⟩ := hcome
      rw [hround,windowRound_exec] at hwhole
      dsimp only at hwhole hnext
      cases hcommit : (commitSegments key ready.batch_index ready.next_segment_index
        (f ready.window_start_ms ready.window) ready.committed_to_ms).exec
          (steadyMachine f blobs) p.db with
      | mk result db' =>
        rw [hcommit] at hwhole hnext
        cases result with
        | error e => cases hnext
        | ok committed =>
          cases hnext
          have hup' : UpTo key p.db ⟨ready.next_segment_index,ready.committed_to_ms⟩ := by
            rw [hready.index,hready.committed]
            exact h.upTo
          obtain ⟨hcommitted,hle⟩ := commitSegments_upTo (htimes _ _) hup' hcommit
          obtain ⟨hbounded,hlater⟩ := hready.bounded.next hshort hready.some
            (fun segment hsegment => (htimes _ _ segment hsegment).2) committed
          refine ⟨hbounded,?_,?_,left',?_,hwhole⟩
          · rw [UpTo,hcommitted]
            exact congrArg (Prod.mk _) (max_eq_left hle).symm
          · have hwithin : (commitSegments key ready.batch_index ready.next_segment_index
                (f ready.window_start_ms ready.window) ready.committed_to_ms :
                  TranscribeProg α Committed).Within (AppendsTo key) :=
              commitSegments_within fun _ _ => rfl
            have hkeep := exec_within hwithin
              (fun s a ha hs => @steadyMachine_elsewhere _ key f blobs _ s a ha hs) h.elsewhere
            rw [hcommit] at hkeep
            exact hkeep
          · show u64Max ≤ left'+(ready.next _ committed).window_start_ms
            omega
    · cases hnext

theorem ComesBy.behind
    (hshort : Short total) (htimes : InColumn f) (hfuel : u64Max ≤ fuel) {n : Nat}
    (hbehind : p.behind key setup f blobs resume_from_ms fuel n = some q) :
    ComesBy f blobs key setup total resume_from_ms whole db q := by
  induction n generalizing p with
  | zero =>
    cases hbehind
    exact h
  | succ n ih =>
    rw [Place.behind] at hbehind
    obtain ⟨next,hnext,hrest⟩ := Option.bind_eq_some_iff.mp hbehind
    exact ih (h.next hshort htimes hfuel hnext) hrest

theorem ComesBy.resumed
    (hshort : Short total) (htimes : InColumn f) (hfuel : u64Max ≤ fuel) (hb : Bounded total q.cursor)
    (hup : UpTo key p.db ⟨q.cursor.next_segment_index,q.cursor.committed_to_ms⟩)
    (hgoing : q.ended = false) {resume_from_ms' : Nat}
    (hwindow : q.window setup resume_from_ms' fuel = p.window setup resume_from_ms fuel) :
    loopOutcome f blobs (transcribeLoop setup key resume_from_ms' fuel q.cursor) p.db =
      loopOutcome f blobs whole db := by
  obtain ⟨left,hleft,hwhole⟩ := h.goes_on
  have hsame := hup.symm.trans h.upTo
  simp only [Prod.mk.injEq] at hsame
  have hstart : u64Max ≤ fuel+q.cursor.window_start_ms := hfuel.trans (Nat.le_add_right _ _)
  have hseen : loopOutcome f blobs whole db =
      loopOutcome f blobs (p.rest setup key resume_from_ms left) p.db := outcome_of_exec hwhole
  rw [hseen,Place.rest]
  rw [Place.window,Place.window,hgoing] at hwindow
  cases hended : p.ended with
  | false =>
    rw [hended] at hwindow
    exact upcoming_alike hshort htimes hb h.bounded hstart hleft hfuel hsame.1 hsame.2 hwindow p.db
  | true =>
    rw [hended] at hwindow
    have hcome := @transcribeLoop_upcoming _ key setup total hshort resume_from_ms' fuel fuel
      q.cursor hb hstart hstart
    cases hnone : upcoming setup resume_from_ms' fuel q.cursor with
    | error e =>
      rw [hnone] at hwindow
      cases hwindow
    | ok next =>
      rw [hnone] at hwindow hcome
      cases next with
      | some w => cases hwindow
      | none =>
        obtain ⟨last,hlast,hindex⟩ := hcome
        rw [hlast]
        exact congrArg (fun index => (Except.ok index,p.db)) (hindex.trans hsame.1)

end

end

theorem writeTranscript_alike (segment_count audio_ms audio_ms' : Nat) (db : Transcripts) :
    (writeTranscript key segment_count audio_ms : TranscribeProg α StageProduct).outcome
        (steadyMachine f blobs) StageProduct.output db =
      (writeTranscript key segment_count audio_ms').outcome (steadyMachine f blobs)
        StageProduct.output db :=
  outcome_bind id rfl fun w w' db hw => by
    cases hw
    rfl

end

variable {a : Attempt α}

theorem transcribeItem_outcome {packets : Packets α} (f : SteadyTranscriber α)
    (blobs : Blobs) (h : a.recording = .ok packets) (db : Transcripts) :
    (transcribeItem a).outcome (steadyMachine f blobs) StageProduct.output db =
      ((transcribeLoop a.setup a.key (resumeMs a.key db) a.fuel
        (Place.start a.key packets db).cursor).bind fun c =>
          writeTranscript a.key c.next_segment_index c.audio_ms_transcribed).outcome
            (steadyMachine f blobs) StageProduct.output db := by
  refine outcome_of_exec ?_
  rw [transcribeItem,h]
  rfl

theorem crashed_unread {e : AudioError} (f : SteadyTranscriber α) (blobs : Blobs)
    (k : Nat) (h : a.recording = .error e) (db : Transcripts) : crashed a f blobs k db = db := by
  cases k with
  | zero => rfl
  | succ k =>
    rw [crashed,transcribeItem,h]
    rfl

theorem Transcripts.ext_elsewhere {key : PassKey} {db db' db'' : Transcripts}
    (hhead : db'.head = db''.head) (hrows : db'.rows key = db''.rows key)
    (h' : SameElsewhere key db db') (h'' : SameElsewhere key db db'') : db' = db'' := by
  have hall : db'.rows = db''.rows := by
    funext other
    by_cases hother : other = key
    · rw [hother,hrows]
    · rw [h' other hother,h'' other hother]
  cases db'
  cases db''
  simp_all

/-- An attempt that takes up with the window that was to come commits what the
attempt before it would have, and writes the same transcript. -/
theorem resumed_alike (a : Attempt α) (f : SteadyTranscriber α) (blobs : Blobs) (db : Transcripts)
    (k n : Nat) (hfuel : u64Max ≤ a.fuel)
    (hshort : ∀ packets, a.recording = .ok packets → Short (samplesLeft packets))
    (htimes : InColumn f) (h : TakesUp a f blobs db k n) :
    (transcribeItem a).outcome (steadyMachine f blobs) StageProduct.output (crashed a f blobs k db) =
      (transcribeItem a).outcome (steadyMachine f blobs) StageProduct.output db := by
  cases hrecording : a.recording with
  | error e => rw [crashed_unread f blobs k hrecording]
  | ok packets =>
    obtain ⟨p,hbehind,hhead,hrows,hwindow⟩ := h packets (by rw [hrecording]; rfl)
    have hcomes := (comesBy_start a.setup _ packets db hfuel).behind (hshort packets hrecording)
      htimes hfuel hbehind
    have helsewhere : SameElsewhere a.key db (crashed a f blobs k db) :=
      stopped_within (transcribeItem_appends a)
        (fun s act hact hs => steadyMachine_elsewhere hact hs) k fun _ _ => rfl
    have hleft := Transcripts.ext_elsewhere hhead hrows helsewhere hcomes.elsewhere
    rw [transcribeItem_outcome f blobs hrecording,transcribeItem_outcome f blobs hrecording]
    refine outcome_bind Cursor.next_segment_index ?_ fun c c' db hindex => ?_
    · rw [hleft] at hwindow ⊢
      exact hcomes.resumed (q := Place.start a.key packets p.db) (hshort packets hrecording) htimes
        hfuel (bounded_start packets _) rfl rfl hwindow
    · rw [hindex]
      exact writeTranscript_alike _ _ _ db

end

def dictation : Attempt Nat where
  key := ⟨⟨7⟩,0⟩
  setup := ⟨"whisper-small",none,1000⟩
  recording := .ok [.ok (List.replicate 16000 0),.ok (List.replicate 1600 0)]
  fuel := u64Max

def lengthBlobs : Blobs where
  text t := t.utf8ByteSize
  segments s := s.length

def fluent : SteadyTranscriber Nat := fun offset_ms _ =>
  if offset_ms = 0 then [⟨0,1000,"one",true⟩] else [⟨1000,1100,"two",true⟩]

theorem dictation_resumed :
    (u64Max ≤ dictation.fuel ∧
      (∀ packets, dictation.recording = .ok packets → Short (samplesLeft packets)) ∧
      InColumn fluent ∧ TakesUp dictation fluent lengthBlobs Transcripts.empty 3 1) ∧
    (transcribeItem dictation).outcome (steadyMachine fluent lengthBlobs) StageProduct.output
        (crashed dictation fluent lengthBlobs 3 Transcripts.empty) =
      (transcribeItem dictation).outcome (steadyMachine fluent lengthBlobs) StageProduct.output
        Transcripts.empty := by
  have hcount : samplesLeft [.ok (List.replicate 16000 0),.ok (List.replicate 1600 0)] = 17600 := by
    simp only [samplesLeft,length_replicate]
  have hshort : ∀ packets, dictation.recording = .ok packets → Short (samplesLeft packets) := by
    intro packets hpackets
    rw [← Except.ok.inj hpackets,hcount,Short]
    decide
  have htimes : InColumn fluent := by
    intro offset_ms samples segment hsegment
    rw [fluent] at hsegment
    split at hsegment
    all_goals
      cases mem_singleton.mp hsegment
      decide
  have htakes : TakesUp dictation fluent lengthBlobs Transcripts.empty 3 1 := by decide +kernel
  exact ⟨⟨le_refl _,hshort,htimes,htakes⟩,
    resumed_alike dictation fluent lengthBlobs Transcripts.empty 3 1 (le_refl _) hshort htimes htakes⟩

def halting : SteadyTranscriber Nat := fun offset_ms samples =>
  [⟨offset_ms,if offset_ms = 0 then 600 else offset_ms+samples.length/16,"word",true⟩]

/-- Behind the crash the audio is cut into other windows, and into other segments. -/
theorem dictation_differs :
    ((transcribeItem dictation).exec (steadyMachine halting lengthBlobs)
        (crashed dictation halting lengthBlobs 3 Transcripts.empty)).2.rows dictation.key ≠
      ((transcribeItem dictation).exec (steadyMachine halting lengthBlobs)
        Transcripts.empty).2.rows dictation.key := by
  decide +kernel

end ProjectOS.Ingest
