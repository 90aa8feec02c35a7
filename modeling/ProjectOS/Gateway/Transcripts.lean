import Mathlib.Data.List.DropRight
import Mathlib.Data.Rat.Floor
import ProjectOS.Ingest.Cues
import ProjectOS.Ingest.Turns

/-! What the transcription adapters make of an engine's answer, and what they hand to
their sink. -/

namespace ProjectOS.Gateway
open Lib List

def SEGMENT_TEXT_BYTES_MAX : Nat := 16*1024

/-- The body of an answer, its numbers taken exactly. -/
abbrev SttJson := Json Rat

structure WhisperSegment where
  start_timestamp : Int
  end_timestamp : Int
  text : Except String (List Char)

def saturatingI64 (n : Int) : Int := max (-(i64Max+1)) (min n i64Max)

def windowMs (centiseconds : Int) (offset_ms : Nat) : Nat :=
  satAdd64 offset_ms (max (saturatingI64 (centiseconds*10)) 0).toNat

def secondsToMs (value : Option SttJson) (offset_ms : Nat) : Nat :=
  let seconds := (value.bind Json.asNumber).getD 0
  if seconds ≤ 0 then offset_ms
  else satAdd64 offset_ms (min (seconds*1000+1/2).floor.toNat u64Max)

def collect {α : Type} (read : Nat → α → Except Weather (Option TranscriptSegment)) :
    Nat → List α → Except Weather (List TranscriptSegment)
  | _, [] => .ok []
  | n, x :: xs =>
    match read n x with
    | .error e => .error e
    | .ok found => (collect read (n+1) xs).map (found.toList ++ ·)

def readWhisper (offset_ms count n : Nat) :
    Option WhisperSegment → Except Weather (Option TranscriptSegment)
  | none =>
    .error (.malformedOutput s!"whisper reported {count} segments but segment {n} is absent")
  | some segment =>
    match segment.text with
    | .error e => .error (.malformedOutput s!"whisper segment {n} is not readable text: {e}")
    | .ok text =>
      if SEGMENT_TEXT_BYTES_MAX < byteLen text then
        .error (.malformedOutput s!"whisper segment {n} is {byteLen text} bytes, past the {SEGMENT_TEXT_BYTES_MAX}-byte bound; a decoder in a loop is not speech")
      else if trim text = [] then .ok none
      else
        .ok (some ⟨windowMs segment.start_timestamp offset_ms,
          windowMs segment.end_timestamp offset_ms,String.ofList (trim text),false⟩)

def spoken (segment : SttJson) : Option (List Char) :=
  (((segment.get "text").bind Json.asStr).map fun text => trim text.toList).filter
    fun text => text ≠ []

def readCloud (offset_ms _n : Nat) (segment : SttJson) : Except Weather (Option TranscriptSegment) :=
  match spoken segment with
  | none => .ok none
  | some text =>
    if SEGMENT_TEXT_BYTES_MAX < byteLen text then
      .error (.malformedOutput s!"a transcript segment is {byteLen text} bytes, past the {SEGMENT_TEXT_BYTES_MAX}-byte bound")
    else
      let start_ms := secondsToMs (segment.get "start") offset_ms
      .ok (some ⟨start_ms,max (secondsToMs (segment.get "end") offset_ms) start_ms,
        String.ofList text,false⟩)

def collectSegments (offset_ms : Nat) (segments : List (Option WhisperSegment)) :
    Except Weather (List TranscriptSegment) :=
  collect (readWhisper offset_ms segments.length) 0 segments

def parseSegments (body : Except String SttJson) (request : TranscribeRequest) :
    Except Weather (List TranscriptSegment) :=
  match body with
  | .error e => .error (.malformedOutput s!"transcription response is not JSON: {e}")
  | .ok parsed =>
    match (parsed.get "segments").bind Json.asArray with
    | some segments => collect (readCloud request.offset_ms) 0 segments
    | none =>
      match (parsed.get "text").bind Json.asStr with
      | none =>
        .error (.malformedOutput "transcription response carries neither `segments` nor `text`")
      | some text =>
        if trim text.toList = [] then .ok []
        else
          .ok [⟨request.offset_ms,satAdd64 request.offset_ms (audioMs request.samples.length),
            String.ofList (trim text.toList),false⟩]

def handOver (takes : Nat → Bool) : Nat → List TranscriptSegment → List TranscriptSegment × Nat
  | _, [] => ([],0)
  | n, segment :: rest =>
    if takes n then
      (segment :: (handOver takes (n+1) rest).1,(handOver takes (n+1) rest).2+1)
    else ([segment],0)

def emit (request : TranscribeRequest) (measured : Bool) (takes : Nat → Bool)
    (answer : Except Weather (List TranscriptSegment)) :
    Except Weather (List TranscriptSegment × TranscribeUsage) :=
  answer.map fun segments =>
    let handed := handOver takes 0 (markTurns segments)
    (handed.1,⟨audioMs request.samples.length,handed.2,measured⟩)

def Spoken (segment : TranscriptSegment) : Prop :=
  segment.start_ms ≤ segment.end_ms ∧ segment.text.toList ≠ [] ∧
    trim segment.text.toList = segment.text.toList ∧
    byteLen segment.text.toList ≤ SEGMENT_TEXT_BYTES_MAX

def SegmentsInOrder (segments : List TranscriptSegment) : Prop :=
  (∀ segment ∈ segments, Spoken segment) ∧
    segments.Pairwise fun a b => a.start_ms ≤ b.start_ms

/-- In order, or refused as malformed. -/
def Obeys : Except Weather (List TranscriptSegment × TranscribeUsage) → Prop
  | .ok (handed,_) => SegmentsInOrder handed
  | .error e => ∃ reason, e = .malformedOutput reason

def worded (segment : Option WhisperSegment) : Option WhisperSegment :=
  segment.filter fun segment => segment.text.toOption.any fun text => trim text ≠ []

def RefusedWhisper : Option WhisperSegment → Prop
  | none => True
  | some segment => ∀ text, segment.text = .ok text → SEGMENT_TEXT_BYTES_MAX < byteLen text

def RefusedCloud (segment : SttJson) : Prop :=
  ∃ text, spoken segment = some text ∧ SEGMENT_TEXT_BYTES_MAX < byteLen text

def WhisperTimed (offset_ms : Nat) (segments : List (Option WhisperSegment)) : Prop :=
  (∃ segment ∈ segments, RefusedWhisper segment) ∨
    (∀ segment ∈ segments, ∀ s, worded segment = some s →
      windowMs s.start_timestamp offset_ms ≤ windowMs s.end_timestamp offset_ms) ∧
    segments.Pairwise fun a b => ∀ s, worded a = some s → ∀ t, worded b = some t →
      windowMs s.start_timestamp offset_ms ≤ windowMs t.start_timestamp offset_ms

def CloudTimed (offset_ms : Nat) : Except String SttJson → Prop
  | .error _ => True
  | .ok parsed =>
    match (parsed.get "segments").bind Json.asArray with
    | some segments =>
      (∃ segment ∈ segments, RefusedCloud segment) ∨
        segments.Pairwise fun a b => (spoken a).isSome = true → (spoken b).isSome = true →
          secondsToMs (a.get "start") offset_ms ≤ secondsToMs (b.get "start") offset_ms
    | none => ∀ text, (parsed.get "text").bind Json.asStr = some text →
        byteLen (trim text.toList) ≤ SEGMENT_TEXT_BYTES_MAX

variable {α : Type} {segments : List TranscriptSegment} {text : List Char} {offset_ms : Nat}

theorem trim_trim (text : List Char) : trim (trim text) = trim text := by
  have hfront : trim text <+: text.dropWhile isWhitespace := rdropWhile_prefix isWhitespace _
  have hhead : (trim text).dropWhile isWhitespace = trim text := by
    cases htrim : trim text with
    | nil => rfl
    | cons c rest =>
      obtain ⟨more,hmore⟩ := htrim ▸ hfront
      have hc := List.head?_dropWhile_not isWhitespace text
      rw [← hmore,cons_append,List.head?_cons] at hc
      exact dropWhile_cons_of_neg (by simp [hc])
  calc trim (trim text)
      = ((trim text).dropWhile isWhitespace).rdropWhile isWhitespace := rfl
    _ = (trim text).rdropWhile isWhitespace := by rw [hhead]
    _ = trim text := rdropWhile_idempotent isWhitespace _

theorem handOver_front (takes : Nat → Bool) (n : Nat) (segments : List TranscriptSegment) :
    (handOver takes n segments).1 <+: segments := by
  induction segments generalizing n with
  | nil => exact prefix_refl _
  | cons segment rest ih =>
    rw [handOver]
    split_ifs
    · exact cons_prefix_cons.mpr ⟨rfl,ih (n+1)⟩
    · exact cons_prefix_cons.mpr ⟨rfl,List.nil_prefix⟩

theorem handOver_all (n : Nat) (segments : List TranscriptSegment) :
    (handOver (fun _ => true) n segments).1 = segments := by
  induction segments generalizing n with
  | nil => rfl
  | cons segment rest ih => rw [handOver,if_pos rfl,ih]

theorem SegmentsInOrder.sublist {front : List TranscriptSegment} (h : SegmentsInOrder segments)
    (hfront : front.Sublist segments) : SegmentsInOrder front :=
  ⟨fun segment hsegment => h.1 segment (hfront.subset hsegment),h.2.sublist hfront⟩

theorem inOrder_marked (previous : Option Nat) (segments : List TranscriptSegment) :
    SegmentsInOrder (markTurnsFrom previous segments) ↔ SegmentsInOrder segments := by
  have hplain : (markTurnsFrom previous segments).map (fun s => { s with starts_turn := false }) =
      segments.map fun s => { s with starts_turn := false } := by
    induction segments generalizing previous with
    | nil => rfl
    | cons segment rest ih => rw [markTurnsFrom,map_cons,map_cons,ih]
  have hmap : ∀ xs : List TranscriptSegment,
      SegmentsInOrder (xs.map fun s => { s with starts_turn := false }) ↔ SegmentsInOrder xs := fun xs => by
    simp [SegmentsInOrder,Spoken,pairwise_map]
  rw [← hmap,hplain,hmap]

variable (request : TranscribeRequest)

theorem emit_obeys (measured : Bool) (segments : List TranscriptSegment) :
    (∀ takes, Obeys (emit request measured takes (.ok segments))) ↔ SegmentsInOrder segments := by
  constructor
  · intro h
    have hall := h fun _ => true
    change SegmentsInOrder (handOver (fun _ => true) 0 (markTurns segments)).1 at hall
    rw [handOver_all] at hall
    exact (inOrder_marked none segments).mp hall
  · exact fun h takes => ((inOrder_marked none segments).mpr h).sublist
      (handOver_front takes 0 _).sublist

variable {heard : α → Option TranscriptSegment}

theorem collect_cases {read : Nat → α → Except Weather (Option TranscriptSegment)}
    {Refused : α → Prop}
    (hread : ∀ n x, Refused x ∧ (∃ reason, read n x = .error (.malformedOutput reason)) ∨
      ¬ Refused x ∧ read n x = .ok (heard x)) (n : Nat) (xs : List α) :
    (∃ x ∈ xs, Refused x) ∧ (∃ reason, collect read n xs = .error (.malformedOutput reason)) ∨
      (∀ x ∈ xs, ¬ Refused x) ∧ collect read n xs = .ok (xs.filterMap heard) := by
  induction xs generalizing n with
  | nil => exact Or.inr ⟨by simp,rfl⟩
  | cons x xs ih =>
    rcases hread n x with ⟨hx,reason,hread⟩ | ⟨hx,hread⟩
    · exact Or.inl ⟨⟨x,mem_cons_self,hx⟩,reason,by rw [collect,hread]⟩
    · rw [collect,hread]
      rcases ih (n+1) with ⟨⟨y,hy,hrefused⟩,reason,hrest⟩ | ⟨hall,hrest⟩
      · exact Or.inl ⟨⟨y,mem_cons_of_mem _ hy,hrefused⟩,reason,by rw [hrest]; rfl⟩
      · refine Or.inr ⟨by simpa using ⟨hx,hall⟩,?_⟩
        rw [hrest,filterMap_cons]
        cases heard x <;> rfl

theorem readWhisper_cases (offset_ms count n : Nat) (segment : Option WhisperSegment) :
    RefusedWhisper segment ∧
        (∃ reason, readWhisper offset_ms count n segment = .error (.malformedOutput reason)) ∨
      ¬ RefusedWhisper segment ∧ readWhisper offset_ms count n segment =
        .ok ((worded segment).map fun s =>
          ⟨windowMs s.start_timestamp offset_ms,windowMs s.end_timestamp offset_ms,
            String.ofList (trim (s.text.toOption.getD [])),false⟩) := by
  cases segment with
  | none => exact Or.inl ⟨trivial,_,rfl⟩
  | some segment =>
    obtain ⟨start_timestamp,end_timestamp,text⟩ := segment
    cases text with
    | error e => exact Or.inl ⟨fun text h => (by cases h),_,rfl⟩
    | ok text =>
      by_cases hlong : SEGMENT_TEXT_BYTES_MAX < byteLen text
      · refine Or.inl ⟨fun _ h => ?_,_,if_pos hlong⟩
        cases h
        exact hlong
      · refine Or.inr ⟨fun h => hlong (h text rfl),(if_neg hlong).trans ?_⟩
        by_cases hblank : trim text = [] <;>
          simp [hblank,worded,Except.toOption]

theorem readCloud_cases (offset_ms n : Nat) (segment : SttJson) :
    RefusedCloud segment ∧
        (∃ reason, readCloud offset_ms n segment = .error (.malformedOutput reason)) ∨
      ¬ RefusedCloud segment ∧ readCloud offset_ms n segment =
        .ok ((spoken segment).map fun text =>
          ⟨secondsToMs (segment.get "start") offset_ms,
            max (secondsToMs (segment.get "end") offset_ms) (secondsToMs (segment.get "start") offset_ms),
            String.ofList text,false⟩) := by
  unfold RefusedCloud readCloud
  cases hspoken : spoken segment with
  | none => exact Or.inr ⟨by simp,rfl⟩
  | some text =>
    by_cases hlong : SEGMENT_TEXT_BYTES_MAX < byteLen text
    · exact Or.inl ⟨⟨text,rfl,hlong⟩,_,if_pos hlong⟩
    · exact Or.inr ⟨by simpa using hlong,if_neg hlong⟩

theorem inOrder_filterMap {xs : List α} :
    SegmentsInOrder (xs.filterMap heard) ↔
      (∀ x ∈ xs, ∀ s, heard x = some s → Spoken s) ∧
        xs.Pairwise fun a b => ∀ s, heard a = some s → ∀ t, heard b = some t →
          s.start_ms ≤ t.start_ms := by
  rw [SegmentsInOrder,pairwise_filterMap]
  simp only [mem_filterMap,forall_exists_index,and_imp]
  exact and_congr_left fun _ => ⟨fun h x hx s => h s x hx,fun h s x hx => h x hx s⟩

theorem refused_obeys (measured : Bool) (reason : String)
    (takes : Nat → Bool) : Obeys (emit request measured takes (.error (.malformedOutput reason))) :=
  ⟨reason,rfl⟩

theorem spoken_iff {a b : Nat} (hne : trim text ≠ []) (hlen : byteLen (trim text) ≤ SEGMENT_TEXT_BYTES_MAX) :
    Spoken ⟨a,b,String.ofList (trim text),false⟩ ↔ a ≤ b := by
  rw [Spoken,String.toList_ofList]
  exact ⟨fun h => h.1,fun h => ⟨h,hne,trim_trim text,hlen⟩⟩

theorem worded_text {segment : Option WhisperSegment} {s : WhisperSegment}
    (hread : ¬ RefusedWhisper segment) (h : worded segment = some s) :
    trim (s.text.toOption.getD []) ≠ [] ∧
      byteLen (trim (s.text.toOption.getD [])) ≤ SEGMENT_TEXT_BYTES_MAX := by
  obtain ⟨rfl,hwords⟩ := Option.filter_eq_some_iff.mp h
  obtain ⟨start_timestamp,end_timestamp,text⟩ := s
  cases text with
  | error e => cases hwords
  | ok text =>
    refine ⟨by simpa [Except.toOption] using hwords,?_⟩
    have hlen := Ingest.byteLen_sublist (Ingest.trim_sublist text)
    by_contra hlong
    refine hread fun text' h => ?_
    cases h
    exact lt_of_lt_of_le (Nat.not_le.mp hlong) hlen

theorem spoken_text {segment : SttJson} (h : spoken segment = some text) :
    trim text = text ∧ text ≠ [] := by
  obtain ⟨hmap,hne⟩ := Option.filter_eq_some_iff.mp h
  obtain ⟨raw,-,rfl⟩ := Option.map_eq_some_iff.mp hmap
  exact ⟨trim_trim raw.toList,of_decide_eq_true hne⟩

theorem whisper_obeys_iff (segments : List (Option WhisperSegment)) :
    (∀ takes, Obeys (emit request true takes (collectSegments request.offset_ms segments))) ↔
      WhisperTimed request.offset_ms segments := by
  unfold WhisperTimed collectSegments
  rcases collect_cases (readWhisper_cases request.offset_ms segments.length) 0 segments with
    ⟨hrefused,reason,hcollect⟩ | ⟨hread,hcollect⟩
  · rw [hcollect]
    exact ⟨fun _ => Or.inl hrefused,fun _ => refused_obeys request true reason⟩
  · rw [hcollect,emit_obeys,inOrder_filterMap,or_iff_right (by simpa using hread)]
    refine and_congr (forall₂_congr fun segment hsegment => ?_) (List.Pairwise.iff fun a b => ?_)
    · cases hworded : worded segment with
      | none => simp
      | some s =>
        obtain ⟨hne,hlen⟩ := worded_text (hread segment hsegment) hworded
        simp [spoken_iff hne hlen]
    · simp [Option.map_eq_some_iff]

theorem cloud_obeys_iff (hoffset : request.offset_ms ≤ u64Max) (body : Except String SttJson) :
    (∀ takes, Obeys (emit request false takes (parseSegments body request))) ↔
      CloudTimed request.offset_ms body := by
  cases body with
  | error e => exact ⟨fun _ => trivial,fun _ => refused_obeys request false _⟩
  | ok parsed =>
    unfold parseSegments CloudTimed
    dsimp only
    cases (parsed.get "segments").bind Json.asArray with
    | some segments =>
      dsimp only
      rcases collect_cases (readCloud_cases request.offset_ms) 0 segments with
        ⟨hrefused,reason,hcollect⟩ | ⟨hread,hcollect⟩
      · rw [hcollect]
        exact ⟨fun _ => Or.inl hrefused,fun _ => refused_obeys request false reason⟩
      · rw [hcollect,emit_obeys,inOrder_filterMap,or_iff_right (by simpa using hread)]
        have hspoken : ∀ segment ∈ segments, ∀ s, ((spoken segment).map fun text =>
            (⟨secondsToMs (segment.get "start") request.offset_ms,
              max (secondsToMs (segment.get "end") request.offset_ms)
                (secondsToMs (segment.get "start") request.offset_ms),
              String.ofList text,false⟩ : TranscriptSegment)) = some s → Spoken s := by
          intro segment hsegment s hs
          obtain ⟨text,htext,rfl⟩ := Option.map_eq_some_iff.mp hs
          obtain ⟨htrim,hne⟩ := spoken_text htext
          have hlen := Nat.not_lt.mp fun hlong => hread segment hsegment ⟨text,htext,hlong⟩
          exact htrim ▸ (spoken_iff (htrim.symm ▸ hne) (htrim.symm ▸ hlen)).mpr (Nat.le_max_right _ _)
        rw [and_iff_right hspoken]
        refine List.Pairwise.iff fun a b => ?_
        simp [Option.isSome_iff_exists]
    | none =>
      dsimp only
      cases (parsed.get "text").bind Json.asStr with
      | none => exact ⟨fun _ text h => (by cases h),fun _ => refused_obeys request false _⟩
      | some text =>
        dsimp only
        split_ifs with hblank
        · rw [emit_obeys]
          refine ⟨fun _ text' h => ?_,fun _ => ⟨by simp,List.Pairwise.nil⟩⟩
          obtain rfl := Option.some.inj h
          simp [hblank,byteLen]
        · rw [emit_obeys]
          have hend : request.offset_ms ≤
              satAdd64 request.offset_ms (audioMs request.samples.length) :=
            le_min (Nat.le_add_right _ _) hoffset
          constructor
          · rintro ⟨hspoken,-⟩ text' h
            obtain rfl := Option.some.inj h
            have hlen := (hspoken _ mem_cons_self).2.2.2
            rwa [String.toList_ofList] at hlen
          · intro h
            refine ⟨fun segment hsegment => ?_,pairwise_singleton _ _⟩
            obtain rfl := mem_singleton.mp hsegment
            exact (spoken_iff hblank (h text rfl)).mpr hend

/-- Both adapters, whatever the engine answers and whatever the sink takes. -/
theorem segments_in_order_iff (request : TranscribeRequest) (hoffset : request.offset_ms ≤ u64Max)
    (segments : List (Option WhisperSegment)) (body : Except String SttJson) :
    ((∀ takes, Obeys (emit request true takes (collectSegments request.offset_ms segments))) ↔
        WhisperTimed request.offset_ms segments) ∧
      ((∀ takes, Obeys (emit request false takes (parseSegments body request))) ↔
        CloudTimed request.offset_ms body) :=
  ⟨whisper_obeys_iff request segments,cloud_obeys_iff request hoffset body⟩

def oneSecond : TranscribeRequest := ⟨"base",none,0,List.replicate 16000 0⟩

def backwards : List (Option WhisperSegment) := [some ⟨200,100,.ok ['a']⟩]

def sttSegment (start : Rat) : SttJson :=
  .object [("text",.string "a"),("start",.number start),("end",.number (start+1))]

def swapped : SttJson := .object [("segments",.array [sttSegment 2,sttSegment 1])]

theorem backwards_iff :
    ((∀ takes, Obeys (emit oneSecond true takes (collectSegments 0 backwards))) ↔
        WhisperTimed 0 backwards) ∧
      ((∀ takes, Obeys (emit oneSecond false takes (parseSegments (.ok swapped) oneSecond))) ↔
        CloudTimed 0 (.ok swapped)) :=
  segments_in_order_iff oneSecond (by decide) backwards (.ok swapped)

theorem backwards_handed :
    (emit oneSecond true (fun _ => true) (collectSegments 0 backwards)).toOption.map Prod.fst =
        some [⟨2000,1000,"a",true⟩] ∧
      (emit oneSecond false (fun _ => true)
        (parseSegments (.ok swapped) oneSecond)).toOption.map Prod.fst =
        some [⟨2000,3000,"a",true⟩,⟨1000,2000,"a",false⟩] ∧
      ¬ SegmentsInOrder [⟨2000,1000,"a",true⟩] ∧
      ¬ SegmentsInOrder [⟨2000,3000,"a",true⟩,⟨1000,2000,"a",false⟩] :=
  ⟨by decide +kernel,by decide +kernel,by simp [SegmentsInOrder,Spoken],by simp [SegmentsInOrder]⟩

end ProjectOS.Gateway
