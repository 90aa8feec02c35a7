import ProjectOS.Lib.Words
import ProjectOS.Gateway.Sse

/-! The events of a stream, read off its lines: between two blank lines stands one
event. The decoder is compared with this reading, however its bytes come. -/

namespace ProjectOS.Gateway
open Lib List

def lineOf (bytes : Bytes) : List Char :=
  decodeLossy none (if bytes.getLast? = some 13 then bytes.dropLast else bytes)

def openLine (stream : Bytes) : Bytes := (stream.splitOn 10).getLast?.getD []

def completeLines (stream : Bytes) : List (List Char) := (stream.splitOn 10).dropLast.map lineOf

def groups (lines : List (List Char)) : List (List (List Char)) := lines.splitOnP List.isEmpty

def dataOf (group : List (List Char)) : List String :=
  group.filterMap (SseDecoder.fieldValue "data:")

def nameOf (group : List (List Char)) : Option String :=
  (group.filterMap (SseDecoder.fieldValue "event:")).getLast?

def eventOf (group : List (List Char)) : Option SseEvent :=
  if dataOf group = [] ∧ nameOf group = none then none
  else some ⟨nameOf group,"\n".intercalate (dataOf group)⟩

def wholeEvents (stream : Bytes) : List SseEvent :=
  (groups (completeLines stream)).dropLast.filterMap eventOf

def openGroup (stream : Bytes) : List (List Char) := (groups (completeLines stream)).getLast?.getD []

section
variable {stream : Bytes} {byte : UInt8} (stream : Bytes)

theorem splitOn_openLine :
    stream.splitOn 10 = (stream.splitOn 10).dropLast ++ [openLine stream] := by
  obtain ⟨front,last,h⟩ := eq_nil_or_concat' (stream.splitOn 10) |>.resolve_left
    (splitOn_ne_nil 10 stream)
  rw [openLine,h]
  simp

theorem groups_openGroup :
    groups (completeLines stream) =
      (groups (completeLines stream)).dropLast ++ [openGroup stream] := by
  obtain ⟨front,last,h⟩ := eq_nil_or_concat' (groups (completeLines stream)) |>.resolve_left
    (splitOnP_ne_nil List.isEmpty (completeLines stream))
  rw [openGroup,h]
  simp

theorem splitOn_concat (hbyte : byte ≠ 10) (stream : Bytes) :
    (stream ++ [byte]).splitOn 10 = (stream.splitOn 10).dropLast ++ [openLine stream ++ [byte]] := by
  have h := splitOn_openLine stream
  rw [splitOn_eq_splitOnP] at h ⊢
  exact splitOnP_concat (by simpa using hbyte) h

theorem openLine_concat (hbyte : byte ≠ 10) (stream : Bytes) :
    openLine (stream ++ [byte]) = openLine stream ++ [byte] := by
  rw [openLine,splitOn_concat hbyte]
  simp

theorem completeLines_concat (hbyte : byte ≠ 10) (stream : Bytes) :
    completeLines (stream ++ [byte]) = completeLines stream := by
  rw [completeLines,splitOn_concat hbyte,dropLast_concat,completeLines]

theorem splitOn_feed : (stream ++ [10]).splitOn 10 = stream.splitOn 10 ++ [[]] := by
  rw [splitOn_eq_splitOnP,splitOn_eq_splitOnP,splitOnP_concat_sep (by simp)]

@[simp] theorem openLine_feed : openLine (stream ++ [10]) = [] := by
  rw [openLine,splitOn_feed]
  simp

theorem completeLines_feed :
    completeLines (stream ++ [10]) = completeLines stream ++ [lineOf (openLine stream)] := by
  have h := congrArg (List.map lineOf) (splitOn_openLine stream)
  rw [completeLines,splitOn_feed,dropLast_concat,h,map_append]
  rfl

theorem groups_blank (hline : lineOf (openLine stream) = []) :
    groups (completeLines (stream ++ [10])) = groups (completeLines stream) ++ [[]] := by
  rw [completeLines_feed,hline]
  exact splitOnP_concat_sep rfl _

theorem groups_line (hline : lineOf (openLine stream) ≠ []) :
    groups (completeLines (stream ++ [10])) =
      (groups (completeLines stream)).dropLast ++ [openGroup stream ++ [lineOf (openLine stream)]] := by
  rw [completeLines_feed]
  exact splitOnP_concat (by simpa using hline) (groups_openGroup stream)

end

namespace SseDecoder

def standing (stream : Bytes) : SseDecoder :=
  ⟨openLine stream,nameOf (openGroup stream),dataOf (openGroup stream)⟩

theorem standing_nil : standing [] = new := by
  simp [standing,openLine,openGroup,completeLines,groups,nameOf,dataOf,new]

def Within (stream : Bytes) : Prop :=
  ∀ before, before <+: stream → (standing before).bufferedLen ≤ eventDataBytesMax

variable {before rest : Bytes}

theorem Within.of_append (h : Within (before ++ rest)) : Within before :=
  fun front hfront => h front (hfront.trans (prefix_append before rest))

variable {stream : Bytes}

theorem within_concat {byte : UInt8} :
    Within (stream ++ [byte]) ↔
      Within stream ∧ (standing (stream ++ [byte])).bufferedLen ≤ eventDataBytesMax := by
  constructor
  · intro h
    exact ⟨h.of_append,h _ prefix_rfl⟩
  · rintro ⟨hstream,hlast⟩ before hbefore
    rcases prefix_concat_iff.mp hbefore with rfl | hbefore
    · exact hlast
    · exact hstream before hbefore

theorem fieldValue_data {line : List Char} {value : String} (h : fieldValue "data:" line = some value) :
    fieldValue "event:" line = none := by
  cases line with
  | nil => rfl
  | cons c line =>
    by_cases hc : c = 'd'
    · simp [fieldValue,stripPrefix,hc]
    · simp [fieldValue,stripPrefix,Ne.symm hc] at h

variable {d : SseDecoder}

theorem lineComplete_blank (h : lineOf d.line_buffer = []) :
    d.lineComplete =
      if d.data_lines ≠ [] ∨ d.event_name.isSome then
        .ok (new,some ⟨d.event_name,"\n".intercalate d.data_lines⟩)
      else .ok ({ d with line_buffer := [] },none) := if_pos h

theorem lineComplete_line (h : lineOf d.line_buffer ≠ []) :
    d.lineComplete =
      match fieldValue "data:" (lineOf d.line_buffer) with
      | some value => checked { d with line_buffer := [], data_lines := d.data_lines ++ [value] }
      | none =>
        match fieldValue "event:" (lineOf d.line_buffer) with
        | some value => .ok ({ d with line_buffer := [], event_name := some value },none)
        | none => .ok ({ d with line_buffer := [] },none) := if_neg h

section
variable (stream : Bytes) {byte : UInt8}

theorem push_letter (hbyte : byte ≠ 10) :
    (standing stream).push byte = (standing (stream ++ [byte])).checked := by
  rw [push,if_neg hbyte,standing,standing,openLine_concat hbyte,openGroup,openGroup,
    completeLines_concat hbyte]

theorem wholeEvents_letter (hbyte : byte ≠ 10) : wholeEvents (stream ++ [byte]) = wholeEvents stream := by
  rw [wholeEvents,completeLines_concat hbyte,wholeEvents]

variable {stream}

theorem push_blank (hline : lineOf (openLine stream) = []) :
    (standing stream).push 10 = .ok (standing (stream ++ [10]),eventOf (openGroup stream)) := by
  have hopen : openGroup (stream ++ [10]) = [] := by
    rw [openGroup,groups_blank stream hline]
    simp
  have hnew : standing (stream ++ [10]) = new := by
    rw [standing,openLine_feed,hopen]
    rfl
  rw [push,if_pos rfl,lineComplete_blank hline,hnew,eventOf]
  by_cases h : dataOf (openGroup stream) = [] ∧ nameOf (openGroup stream) = none
  · have hnothing : ¬((standing stream).data_lines ≠ [] ∨ (standing stream).event_name.isSome = true) := by
      simp [standing,h.1,h.2]
    rw [if_neg hnothing,if_pos h,standing,h.1,h.2]
    rfl
  · have hsome : (standing stream).data_lines ≠ [] ∨ (standing stream).event_name.isSome = true := by
      rw [not_and_or] at h
      exact h.imp_right Option.isSome_iff_ne_none.mpr
    rw [if_pos hsome,if_neg h]
    rfl

theorem wholeEvents_blank (hline : lineOf (openLine stream) = []) :
    wholeEvents (stream ++ [10]) = wholeEvents stream ++ (eventOf (openGroup stream)).toList := by
  rw [wholeEvents,groups_blank stream hline,dropLast_concat,groups_openGroup stream,
    filterMap_append,wholeEvents]
  cases h : eventOf (openGroup stream) <;> simp [h]

section
variable (hline : lineOf (openLine stream) ≠ [])
include hline

theorem openGroup_line :
    openGroup (stream ++ [10]) = openGroup stream ++ [lineOf (openLine stream)] := by
  rw [openGroup,groups_line stream hline]
  simp

theorem wholeEvents_line :
    wholeEvents (stream ++ [10]) = wholeEvents stream := by
  rw [wholeEvents,groups_line stream hline,dropLast_concat,wholeEvents]

theorem standing_line :
    standing (stream ++ [10]) =
      ⟨[],((fieldValue "event:" (lineOf (openLine stream))).or (nameOf (openGroup stream))),
        dataOf (openGroup stream) ++ (fieldValue "data:" (lineOf (openLine stream))).toList⟩ := by
  rw [standing,openLine_feed,openGroup_line hline,nameOf,dataOf,filterMap_append,
    filterMap_append,nameOf,dataOf,List.getLast?_append]
  generalize lineOf (openLine stream) = line
  cases hname : fieldValue "event:" line <;> cases hdata : fieldValue "data:" line <;>
    simp [hname,hdata]

theorem push_line
    (hfits : (standing stream).bufferedLen ≤ eventDataBytesMax) :
    (standing stream).push 10 = (standing (stream ++ [10])).checked := by
  have hunchecked : ∀ d : SseDecoder, d.line_buffer = [] →
      d.data_lines = dataOf (openGroup stream) → checked d = .ok (d,none) := by
    intro d hbuffer hdata
    rw [checked,if_neg]
    simp only [bufferedLen,standing,hbuffer,hdata,length_nil] at hfits ⊢
    omega
  rw [push,if_pos rfl,lineComplete_line hline,standing_line hline]
  simp only [standing]
  cases hdata : fieldValue "data:" (lineOf (openLine stream)) with
  | some value => simp [fieldValue_data hdata]
  | none =>
    cases hname : fieldValue "event:" (lineOf (openLine stream)) with
    | some value =>
      simp only [Option.some_or,Option.toList_none,append_nil]
      exact (hunchecked _ rfl rfl).symm
    | none =>
      simp only [Option.none_or,Option.toList_none,append_nil]
      exact (hunchecked _ rfl rfl).symm

end

variable (byte)

theorem push_standing (hfits : (standing stream).bufferedLen ≤ eventDataBytesMax) :
    ∃ item, wholeEvents (stream ++ [byte]) = wholeEvents stream ++ item.toList ∧
      (standing stream).push byte =
        if eventDataBytesMax < (standing (stream ++ [byte])).bufferedLen then
          .error (.eventTooLarge (standing (stream ++ [byte])).bufferedLen)
        else .ok (standing (stream ++ [byte]),item) := by
  by_cases hbyte : byte = 10
  · subst hbyte
    by_cases hline : lineOf (openLine stream) = []
    · refine ⟨_,wholeEvents_blank hline,?_⟩
      have hempty : (standing (stream ++ [10])).bufferedLen = 0 := by
        rw [standing,openLine_feed,openGroup,groups_blank stream hline]
        simp [bufferedLen,dataOf]
      rw [hempty,if_neg (Nat.not_lt_zero _)]
      exact push_blank hline
    · exact ⟨none,by simp [wholeEvents_line hline],push_line hline hfits⟩
  · exact ⟨none,by simp [wholeEvents_letter stream hbyte],push_letter stream hbyte⟩

end

theorem feed_within (h : Within (before ++ rest)) :
    ∃ items, (standing before).feed rest = (items,.ok (standing (before ++ rest))) ∧
      wholeEvents (before ++ rest) = wholeEvents before ++ items := by
  induction rest generalizing before with
  | nil => exact ⟨[],by simp [feed]⟩
  | cons byte rest ih =>
    have hsplit : before ++ byte :: rest = (before ++ [byte]) ++ rest := by simp
    rw [hsplit] at h ⊢
    have hnext := (within_concat.mp h.of_append).2
    obtain ⟨item,hevents,hpush⟩ := push_standing byte (h.of_append.of_append before prefix_rfl)
    obtain ⟨items,hfeed,hrest⟩ := ih h
    rw [if_neg (Nat.not_lt.mpr hnext)] at hpush
    refine ⟨item.toList ++ items,?_,by rw [hrest,hevents,append_assoc]⟩
    rw [feed] at hfeed
    rw [feed,Relay.feed,hpush]
    simp only [hfeed]

theorem feed_new (h : Within stream) :
    new.feed stream = (wholeEvents stream,.ok (standing stream)) := by
  have hstart : Within ([] ++ stream) := h
  obtain ⟨items,hfeed,hevents⟩ := feed_within hstart
  rw [nil_append,standing_nil] at hfeed
  rw [nil_append] at hevents
  rw [hfeed,hevents]
  simp [wholeEvents,completeLines,groups]

theorem feed_beyond {byte : UInt8} (h : Within before)
    (hover : eventDataBytesMax < (standing (before ++ [byte])).bufferedLen) (rest : Bytes) :
    new.feed (before ++ byte :: rest) =
      (wholeEvents before,.error (.eventTooLarge (standing (before ++ [byte])).bufferedLen)) := by
  have hfeed := feed_new h
  obtain ⟨item,-,hpush⟩ := push_standing byte (h before prefix_rfl)
  rw [if_pos hover] at hpush
  rw [feed] at hfeed
  rw [feed,Relay.feed_append_ok hfeed,Relay.feed,hpush]
  simp

theorem within_or_beyond (stream : Bytes) :
    Within stream ∨
      ∃ before byte rest, stream = before ++ byte :: rest ∧ Within before ∧
        eventDataBytesMax < (standing (before ++ [byte])).bufferedLen := by
  induction stream using List.reverseRecOn with
  | nil =>
    left
    intro before hbefore
    rw [prefix_nil.mp hbefore,standing_nil]
    exact Nat.zero_le _
  | append_singleton stream byte ih =>
    rcases ih with h | ⟨before,excess,rest,rfl,h,hover⟩
    · rcases Nat.lt_or_ge eventDataBytesMax (standing (stream ++ [byte])).bufferedLen with hlen | hlen
      · exact Or.inr ⟨stream,byte,[],rfl,h,hlen⟩
      · exact Or.inl (within_concat.mpr ⟨h,hlen⟩)
    · exact Or.inr ⟨before,excess,rest ++ [byte],by simp,h,hover⟩

theorem utf8ByteSize_intercalate (lines : List String) :
    ("\n".intercalate lines).utf8ByteSize =
      (lines.map String.utf8ByteSize).sum+(lines.length-1) := by
  induction lines with
  | nil => rfl
  | cons line rest ih =>
    cases rest with
    | nil => simp
    | cons next rest =>
      have hfeed : "\n".utf8ByteSize = 1 := by decide
      rw [String.intercalate_cons_cons]
      simp only [String.utf8ByteSize_append,ih,hfeed,map_cons,sum_cons,length_cons]
      omega

def LinesFit (stream : Bytes) : Prop :=
  ∀ before, before <+: stream → Within before →
    ∀ group ∈ (groups (completeLines before)).dropLast,
      ((dataOf group).map String.utf8ByteSize).sum+((dataOf group).length-1) ≤ eventDataBytesMax

variable {event : SseEvent} {group : List (List Char)}

theorem eventOf_data (h : eventOf group = some event) :
    event.data.utf8ByteSize =
      ((dataOf group).map String.utf8ByteSize).sum+((dataOf group).length-1) := by
  unfold eventOf at h
  split_ifs at h
  cases h
  exact utf8ByteSize_intercalate _

theorem eventOf_of_data (h : dataOf group ≠ []) :
    ∃ event, eventOf group = some event := by
  simp [eventOf,h]

theorem bufferedLen_of_feed (h : (new.feed stream).2 = .ok d) :
    d.bufferedLen ≤ eventDataBytesMax := by
  rcases within_or_beyond stream with hwithin | ⟨before,byte,rest,rfl,hwithin,hover⟩
  · rw [feed_new hwithin] at h
    cases h
    exact hwithin stream prefix_rfl
  · rw [feed_beyond hwithin hover] at h
    cases h

theorem event_of_feed (h : event ∈ (new.feed stream).1) :
    ∃ before, before <+: stream ∧ Within before ∧
      ∃ group ∈ (groups (completeLines before)).dropLast, eventOf group = some event := by
  rcases within_or_beyond stream with hwithin | ⟨before,byte,rest,rfl,hwithin,hover⟩
  · rw [feed_new hwithin] at h
    exact ⟨stream,prefix_rfl,hwithin,mem_filterMap.mp h⟩
  · rw [feed_beyond hwithin hover] at h
    exact ⟨before,prefix_append _ _,hwithin,mem_filterMap.mp h⟩

theorem feed_of_event (hbefore : before <+: stream) (hwithin : Within before)
    (h : event ∈ wholeEvents before) : event ∈ (new.feed stream).1 := by
  obtain ⟨rest,rfl⟩ := hbefore
  have hfeed := feed_new hwithin
  rw [feed] at hfeed
  rw [feed,Relay.feed_append_ok hfeed]
  exact mem_append_left _ h

/-- What the decoder keeps is always within the cap. What it emits is within the cap
just when the feeds between data lines, which no check counts, still fit. -/
theorem feeds_bounded (chunks : List Bytes) :
    ((∀ before, before <+: chunks.flatten → ∀ d, (new.feed before).2 = .ok d →
        d.bufferedLen ≤ eventDataBytesMax) ∧
      ∀ event ∈ (Relay.feeds push new chunks).1, event.data.utf8ByteSize ≤ eventDataBytesMax) ↔
    LinesFit chunks.flatten := by
  rw [Relay.feeds_flatten]
  constructor
  · rintro ⟨-,hevents⟩ before hbefore hwithin group hgroup
    by_cases hdata : dataOf group = []
    · simp [hdata]
    · obtain ⟨event,he⟩ := eventOf_of_data hdata
      rw [← eventOf_data he]
      exact hevents event (feed_of_event hbefore hwithin (mem_filterMap.mpr ⟨group,hgroup,he⟩))
  · intro hfit
    refine ⟨fun before _ d hd => bufferedLen_of_feed hd,fun event hevent => ?_⟩
    obtain ⟨before,hbefore,hwithin,group,hgroup,he⟩ := event_of_feed hevent
    rw [eventOf_data he]
    exact hfit before hbefore hwithin group hgroup

def emptyDataLine : Bytes := [100,97,116,97,58,10]

theorem feed_emptyDataLines (n m : Nat) :
    Relay.feed push ⟨[],none,List.replicate m ""⟩ (List.replicate n emptyDataLine).flatten =
      ([],.ok ⟨[],none,List.replicate (m+n) ""⟩) := by
  induction n generalizing m with
  | zero => rfl
  | succ n ih =>
    have hcount : ((List.replicate m "").map String.utf8ByteSize).sum = 0 := by simp
    have hcolon : fieldValue "data:" (decodeLossy none [100,97,116,97,58]) = some "" := by decide
    have hline : decodeLossy none [100,97,116,97,58] ≠ [] := by decide
    have hone : Relay.feed push ⟨[],none,List.replicate m ""⟩ emptyDataLine =
        ([],.ok ⟨[],none,List.replicate (m+1) ""⟩) := by
      simp [emptyDataLine,Relay.feed,push,checked,bufferedLen,eventDataBytesMax,lineComplete,hcolon,
        hline,replicate_succ']
    rw [replicate_succ,flatten_cons,Relay.feed_append_ok hone,ih]
    simp [Nat.add_comm,Nat.add_left_comm]

theorem feed_emptyEvent (n : Nat) :
    ∃ event ∈ (new.feed ((List.replicate (n+1) emptyDataLine).flatten ++ [10])).1,
      event.data.utf8ByteSize = n := by
  have hlines := feed_emptyDataLines (n+1) 0
  rw [Nat.zero_add,replicate_zero] at hlines
  have hblank : lineOf (⟨[],none,List.replicate (n+1) ""⟩ : SseDecoder).line_buffer = [] := rfl
  rw [feed,new,Relay.feed_append_ok hlines,Relay.feed,push,if_pos rfl,lineComplete_blank hblank]
  refine ⟨⟨none,"\n".intercalate (List.replicate (n+1) "")⟩,by simp,?_⟩
  rw [utf8ByteSize_intercalate]
  simp

/-- Empty data lines are free of charge, and a feed stands between any two of them. -/
theorem emptyDataLines_overflow : ¬ ∀ chunks : List Bytes,
    (∀ before, before <+: chunks.flatten → ∀ d, (new.feed before).2 = .ok d →
      d.bufferedLen ≤ eventDataBytesMax) ∧
    ∀ event ∈ (Relay.feeds push new chunks).1, event.data.utf8ByteSize ≤ eventDataBytesMax := by
  intro h
  have hevent := (h [(List.replicate (eventDataBytesMax+1+1) emptyDataLine).flatten ++ [10]]).2
  rw [Relay.feeds_flatten,flatten_singleton] at hevent
  obtain ⟨event,hmem,hsize⟩ := feed_emptyEvent (eventDataBytesMax+1)
  exact Nat.not_succ_le_self _ (hsize ▸ hevent event hmem)

end SseDecoder
end ProjectOS.Gateway
