import ProjectOS.Ingest.Captions

/-! What an import makes of a caption file: its segments tile the transcript,
however the file is cut into windows, and which words of it are lost. -/

namespace ProjectOS.Ingest
open Lib Domain List Nat

def firstLine : Bytes → Bytes
  | [] => []
  | b :: rest => if b = newline then [b] else b :: firstLine rest

theorem firstLine_of_some {xs : Bytes} {i : Nat} (h : xs.findIdx? (· == newline) = some i)
    (ys : Bytes) : firstLine (xs ++ ys) = xs.take (i+1) ∧ i < xs.length := by
  induction xs generalizing i with
  | nil => simp at h
  | cons b xs ih =>
    rw [List.findIdx?_cons] at h
    rw [cons_append,firstLine]
    by_cases hb : b = newline
    · obtain rfl : i = 0 := by simpa [hb] using h.symm
      simp [hb]
    · simp only [beq_iff_eq,hb,if_false] at h ⊢
      obtain ⟨j,hj,rfl⟩ := Option.map_eq_some_iff.mp h
      obtain ⟨hline,hlt⟩ := ih hj
      simp [hline,hlt]

theorem firstLine_of_none {xs : Bytes} (h : xs.findIdx? (· == newline) = none) (ys : Bytes) :
    firstLine (xs ++ ys) = xs ++ firstLine ys := by
  induction xs with
  | nil => rfl
  | cons b xs ih =>
    simp only [List.findIdx?_eq_none_iff,forall_mem_cons,beq_eq_false_iff_ne,ne_eq] at h ih
    rw [cons_append,firstLine,if_neg h.1,ih h.2,cons_append]

theorem firstLine_eq_nil {content : Bytes} : firstLine content = [] ↔ content = [] := by
  cases content with
  | nil => simp [firstLine]
  | cons b rest =>
    rw [firstLine]
    split_ifs <;> simp

theorem windowMax_line {window : Bytes} {s s₁ : BoundedStream} (hs : s.Sound)
    (hopen : 0 < s.budget.buffer_bytes_max) (h : s.windowMax = .ok (window,s₁)) :
    window = [] ∧ s.remaining = [] ∧ s.Past [] s₁ ∨
    window ≠ [] ∧ ∃ take, ((window.findIdx? (· == newline)).map (·+1)).getD window.length = take ∧
      0 < (window.take take).length ∧ (window.take take).length = take ∧
      s.Past (window.take take) (s₁.advance take) ∧
      ((window.findIdx? (· == newline)).isSome = true ∧ firstLine s.remaining = window.take take ∨
        (window.findIdx? (· == newline)).isSome = false ∧
          firstLine s.remaining = window.take take ++ firstLine (s₁.advance take).remaining) := by
  obtain ⟨hahead,hwindow,hbuffer⟩ := BoundedStream.windowMax_ok hs h
  have hsplit : s.remaining = window ++ s.remaining.drop s.budget.buffer_bytes_max := by
    rw [hwindow,take_append_drop]
  have havail : window.length = s₁.available := by
    rw [hbuffer]
    rfl
  by_cases hnil : window = []
  · left
    refine ⟨hnil,?_,hahead.past⟩
    rw [hwindow,take_eq_nil_iff] at hnil
    exact hnil.resolve_left (by omega)
  have hpast : ∀ take, take ≤ window.length → s.Past (window.take take) (s₁.advance take) := by
    intro take hle
    have hpast := hahead.past_advance (havail ▸ hle)
    rwa [hsplit,take_append_of_le_length hle] at hpast
  right
  refine ⟨hnil,_,rfl,?_⟩
  cases hfind : window.findIdx? (· == newline) with
  | some i =>
    obtain ⟨hline,hlt⟩ := firstLine_of_some hfind (s.remaining.drop s.budget.buffer_bytes_max)
    rw [← hsplit] at hline
    simp only [Option.map_some,Option.getD_some,Option.isSome_some,length_take]
    exact ⟨by omega,by omega,hpast (i+1) hlt,Or.inl ⟨trivial,hline⟩⟩
  | none =>
    have hpast := hpast window.length (le_refl _)
    have hline := firstLine_of_none hfind (s₁.advance window.length).remaining
    rw [take_length] at hpast
    rw [← hpast.remaining] at hline
    simp only [Option.map_none,Option.getD_none,Option.isSome_none,take_length]
    exact ⟨length_pos_iff.mpr hnil,trivial,hpast,Or.inr ⟨trivial,hline⟩⟩

theorem lineLoop_ok {rounds : Nat} {line out : Bytes} {s s' : BoundedStream} (hs : s.Sound)
    (hopen : 0 < s.budget.buffer_bytes_max) (hlen : line.length ≤ captionBlockBytesMax)
    (hrounds : captionBlockBytesMax < line.length+rounds)
    (h : lineLoop rounds line s = .ok (out,s')) :
    out = line ++ firstLine s.remaining ∧ s.Past (firstLine s.remaining) s' ∧
      out.length ≤ captionBlockBytesMax := by
  induction rounds generalizing line s with
  | zero => omega
  | succ rounds ih =>
    rw [lineLoop] at h
    cases hwindow : s.windowMax with
    | error e => simp [hwindow] at h
    | ok next =>
      obtain ⟨window,s₁⟩ := next
      simp only [hwindow] at h
      rcases windowMax_line hs hopen hwindow with ⟨hnil,hempty,hpast⟩ |
        ⟨hne,take,htake,hpos,hlength,hpast,hline⟩
      · simp only [hnil,isEmpty_nil,if_true,Except.ok.injEq,Prod.mk.injEq] at h
        obtain ⟨rfl,rfl⟩ := h
        rw [hempty]
        exact ⟨by simp [firstLine],hpast,hlen⟩
      · simp only [List.isEmpty_iff,hne,if_false,htake] at h
        split_ifs at h with hwide hend
        · simp only [Except.ok.injEq,Prod.mk.injEq] at h
          obtain ⟨rfl,rfl⟩ := h
          have hline := (hline.resolve_right (by simp [hend])).2
          rw [hline]
          exact ⟨rfl,hpast,by rw [length_append]; omega⟩
        · have hline := (hline.resolve_left (by simp [hend])).2
          obtain ⟨hout,hrest,hmax⟩ := ih hpast.sound (by rw [hpast.budget]; exact hopen)
            (by rw [length_append]; omega) (by rw [length_append]; omega) h
          rw [hline,hout,append_assoc]
          exact ⟨rfl,hpast.trans hrest,by rwa [hout,append_assoc] at hmax⟩

theorem lineLoop_live {rounds : Nat} {line : Bytes} {s : BoundedStream} (hs : s.Live)
    (hlen : (line ++ firstLine s.remaining).length ≤ captionBlockBytesMax) :
    ∃ out s', lineLoop rounds line s = .ok (out,s') ∧ s'.reader.Healthy := by
  induction rounds generalizing line s with
  | zero => exact ⟨line,s,rfl,hs.healthy⟩
  | succ rounds ih =>
    obtain ⟨window,s₁,hwindow,hreader⟩ := BoundedStream.windowMax_healthy hs.healthy hs.sound
    rw [lineLoop,hwindow]
    rcases windowMax_line hs.sound hs.opened hwindow with ⟨hnil,-,-⟩ |
      ⟨hne,take,htake,-,hlength,hpast,hline⟩
    · exact ⟨line,s₁,by simp [hnil],hreader⟩
    · simp only [List.isEmpty_iff,hne,if_false,htake]
      have hfits : line.length+take ≤ captionBlockBytesMax := by
        rcases hline with ⟨-,hline⟩ | ⟨-,hline⟩
        all_goals
          rw [hline] at hlen
          simp only [length_append] at hlen
          omega
      rw [if_neg (not_lt.mpr hfits)]
      split_ifs with hend
      · exact ⟨_,_,rfl,hreader⟩
      · have hline := (hline.resolve_left (by simp [hend])).2
        refine ih ⟨hpast.sound,hreader,by rw [hpast.budget]; exact hs.opened⟩ ?_
        rwa [append_assoc,← hline]

def lineOf (content : Bytes) : Option (Option (List Char)) :=
  if captionBlockBytesMax < (firstLine content).length then none
  else if content.isEmpty then some none
  else (decodeUtf8 (stripLineEnd (firstLine content))).map some

theorem readLine_ok {s s' : BoundedStream} {line : Option (List Char)} (hs : s.Sound)
    (hopen : 0 < s.budget.buffer_bytes_max) (h : readLine s = .ok (line,s')) :
    lineOf s.remaining = some line ∧ s.Past (firstLine s.remaining) s' := by
  unfold readLine at h
  cases hloop : lineLoop (captionBlockBytesMax+1) [] s with
  | error e => simp [hloop] at h
  | ok out =>
    obtain ⟨out,s₁⟩ := out
    obtain ⟨hout,hpast,hmax⟩ := lineLoop_ok hs hopen (zero_le _) (by simp) hloop
    rw [nil_append] at hout
    subst hout
    simp only [hloop,List.isEmpty_iff,firstLine_eq_nil] at h
    rw [lineOf,if_neg (not_lt.mpr hmax)]
    split_ifs at h with hempty
    · simp only [Except.ok.injEq,Prod.mk.injEq] at h
      obtain ⟨rfl,rfl⟩ := h
      exact ⟨by simp [hempty],hpast⟩
    · cases hdecode : decodeUtf8 (stripLineEnd (firstLine s.remaining)) with
      | none => simp [hdecode] at h
      | some text =>
        simp only [hdecode,Except.ok.injEq,Prod.mk.injEq] at h
        obtain ⟨rfl,rfl⟩ := h
        exact ⟨by simp [hempty],hpast⟩

theorem readLine_live {s : BoundedStream} {line : Option (List Char)} (hs : s.Live)
    (h : lineOf s.remaining = some line) :
    ∃ s', readLine s = .ok (line,s') ∧ s.Past (firstLine s.remaining) s' ∧ s'.Live := by
  rw [lineOf] at h
  split_ifs at h with hwide hempty
  all_goals
    obtain ⟨out,s',hloop,hreader⟩ : ∃ out s', lineLoop (captionBlockBytesMax+1) [] s =
        .ok (out,s') ∧ s'.reader.Healthy := lineLoop_live hs (not_lt.mp hwide)
    obtain ⟨hout,hpast,-⟩ := lineLoop_ok hs.sound hs.opened (zero_le _) (by simp) hloop
    rw [nil_append] at hout
    subst hout
    refine ⟨s',?_,hpast,hpast.sound,hreader,by rw [hpast.budget]; exact hs.opened⟩
    rw [readLine,hloop]
  · rw [List.isEmpty_iff] at hempty
    simpa [hempty,firstLine] using h
  · obtain ⟨text,hdecode,rfl⟩ := Option.map_eq_some_iff.mp h
    rw [List.isEmpty_iff] at hempty
    simp [firstLine_eq_nil,hempty,hdecode]

/-- The second stream, behind a reader that does not fail, has the same still to
come as the first. -/
structure Alike (s t : BoundedStream) : Prop where
  sound : s.Sound
  opened : 0 < s.budget.buffer_bytes_max
  live : t.Live
  remaining : s.remaining = t.remaining
  offset : s.offset = t.offset

section
variable {s s' t : BoundedStream}

theorem Alike.past {t' : BoundedStream} {bytes : Bytes} (h : Alike s t) (hs : s.Past bytes s')
    (ht : t.Past bytes t') (hlive : t'.Live) : Alike s' t' where
  sound := hs.sound
  opened := by rw [hs.budget]; exact h.opened
  live := hlive
  remaining := by
    have hrest := h.remaining
    rw [hs.remaining,ht.remaining] at hrest
    exact append_cancel_left hrest
  offset := by rw [hs.offset,ht.offset,h.offset]

theorem readLine_alike {line : Option (List Char)} (h : Alike s t)
    (hs : readLine s = .ok (line,s')) : ∃ t', readLine t = .ok (line,t') ∧ Alike s' t' := by
  obtain ⟨hline,hpast⟩ := readLine_ok h.sound h.opened hs
  rw [h.remaining] at hline hpast
  obtain ⟨t',ht,hpast',hlive⟩ := readLine_live h.live hline
  exact ⟨t',ht,h.past hpast hpast' hlive⟩

variable {pending : List Char} {block : Option (List Char)}

theorem nextBlock_alike {rounds : Nat}
    (h : Alike s t) (hs : nextBlock rounds pending s = .ok (block,s')) :
    ∃ t', nextBlock rounds pending t = .ok (block,t') ∧ Alike s' t' := by
  induction rounds generalizing pending s t with
  | zero =>
    simp only [nextBlock,Except.ok.injEq,Prod.mk.injEq] at hs
    obtain ⟨rfl,rfl⟩ := hs
    exact ⟨t,rfl,h⟩
  | succ rounds ih =>
    rw [nextBlock] at hs ⊢
    cases hread : readLine s with
    | error e => simp [hread] at hs
    | ok next =>
      obtain ⟨line,s₁⟩ := next
      obtain ⟨t₁,ht,halike⟩ := readLine_alike h hread
      rw [ht]
      cases line with
      | none =>
        simp only [hread,Except.ok.injEq,Prod.mk.injEq] at hs ⊢
        obtain ⟨rfl,rfl⟩ := hs
        exact ⟨t₁,⟨rfl,rfl⟩,halike⟩
      | some line =>
        simp only [hread] at hs ⊢
        split_ifs at hs ⊢ with hblank hnone hwide
        · exact ih halike hs
        · simp only [Except.ok.injEq,Prod.mk.injEq] at hs ⊢
          obtain ⟨rfl,rfl⟩ := hs
          exact ⟨t₁,⟨rfl,rfl⟩,halike⟩
        · exact ih halike hs

theorem importLoop_succ {build : Build} {lines_max rounds : Nat} {w w' : Import}
    (h : importLoop build lines_max (rounds+1) w s = .ok (w',s')) :
    (nextBlock lines_max [] s = .ok (none,s') ∧ w = w') ∨
    ∃ block s₁ w₁, nextBlock lines_max [] s = .ok (some block,s₁) ∧
      (parseBlock build block = .ok none ∧ w = w₁ ∨
        ∃ cue, parseBlock build block = .ok (some cue) ∧ importCue w cue = .ok w₁) ∧
      importLoop build lines_max rounds w₁ s₁ = .ok (w',s') := by
  rw [importLoop] at h
  cases hnext : nextBlock lines_max [] s with
  | error e => simp [hnext] at h
  | ok next =>
    obtain ⟨_ | block,s₁⟩ := next
    · simp only [hnext,Except.ok.injEq,Prod.mk.injEq] at h
      exact Or.inl ⟨h.2 ▸ rfl,h.1⟩
    · refine Or.inr ⟨block,s₁,?_⟩
      simp only [hnext] at h
      cases hparse : parseBlock build block with
      | error fault => simp [hparse] at h
      | ok cue =>
        cases cue with
        | none =>
          simp only [hparse] at h
          exact ⟨w,rfl,Or.inl ⟨rfl,rfl⟩,h⟩
        | some cue =>
          simp only [hparse] at h
          cases himport : importCue w cue with
          | error e => simp [himport] at h
          | ok w₁ =>
            simp only [himport] at h
            exact ⟨w₁,rfl,Or.inr ⟨cue,rfl,himport⟩,h⟩

theorem importLoop_alike {build : Build} {lines_max rounds : Nat} {w w' : Import} (h : Alike s t)
    (hs : importLoop build lines_max rounds w s = .ok (w',s')) :
    ∃ t', importLoop build lines_max rounds w t = .ok (w',t') ∧ Alike s' t' := by
  induction rounds generalizing w s t with
  | zero =>
    simp only [importLoop,Except.ok.injEq,Prod.mk.injEq] at hs
    obtain ⟨rfl,rfl⟩ := hs
    exact ⟨t,rfl,h⟩
  | succ rounds ih =>
    rcases importLoop_succ hs with ⟨hnext,rfl⟩ | ⟨block,s₁,w₁,hnext,hcue,hrest⟩
    · obtain ⟨t₁,ht,halike⟩ := nextBlock_alike h hnext
      exact ⟨t₁,by rw [importLoop,ht],halike⟩
    · obtain ⟨t₁,ht,halike⟩ := nextBlock_alike h hnext
      obtain ⟨t',hloop,hlast⟩ := ih halike hrest
      refine ⟨t',?_,hlast⟩
      rw [importLoop,ht]
      rcases hcue with ⟨hparse,rfl⟩ | ⟨cue,hparse,himport⟩
      · simp only [hparse]
        exact hloop
      · simp only [hparse,himport]
        exact hloop

theorem readLine_some {line : List Char} (hs : s.Sound) (hopen : 0 < s.budget.buffer_bytes_max)
    (h : readLine s = .ok (some line,s')) :
    s.Past (firstLine s.remaining) s' ∧ 0 < (firstLine s.remaining).length := by
  obtain ⟨hline,hpast⟩ := readLine_ok hs hopen h
  refine ⟨hpast,?_⟩
  rw [length_pos_iff,ne_eq,firstLine_eq_nil]
  intro hnil
  simp [lineOf,hnil,firstLine] at hline

theorem readLine_none (hs : s.Sound) (hopen : 0 < s.budget.buffer_bytes_max)
    (h : readLine s = .ok (none,s')) : s.remaining = [] ∧ s.Past [] s' := by
  obtain ⟨hline,hpast⟩ := readLine_ok hs hopen h
  have hnil : s.remaining = [] := by
    rw [lineOf] at hline
    split_ifs at hline with hwide hempty
    · exact List.isEmpty_iff.mp hempty
    · simp at hline
  rw [hnil] at hpast
  exact ⟨hnil,hpast⟩

theorem nextBlock_ok {rounds : Nat} (hs : s.Sound)
    (hopen : 0 < s.budget.buffer_bytes_max) (hrounds : s.remaining.length < rounds)
    (hpending : byteLen pending ≤ captionBlockBytesMax+1)
    (h : nextBlock rounds pending s = .ok (block,s')) :
    ∃ bytes, s.Past bytes s' ∧ (block = none → s'.remaining = []) ∧
      ∀ text, block = some text →
        byteLen text ≤ captionBlockBytesMax+1 ∧ (trim pending = [] → 0 < bytes.length) := by
  induction rounds generalizing pending s with
  | zero => omega
  | succ rounds ih =>
    rw [nextBlock] at h
    cases hread : readLine s with
    | error e => simp [hread] at h
    | ok next =>
      obtain ⟨line,s₁⟩ := next
      cases line with
      | none =>
        obtain ⟨hnil,hpast⟩ := readLine_none hs hopen hread
        have hend : s₁.remaining = [] := by simpa [hnil] using hpast.remaining.symm
        simp only [hread,Except.ok.injEq,Prod.mk.injEq] at h
        obtain ⟨hblock,rfl⟩ := h
        refine ⟨[],hpast,fun _ => hend,?_⟩
        rintro text rfl
        split_ifs at hblock with hblank
        simp only [Option.some.injEq] at hblock
        subst hblock
        rw [List.isEmpty_iff] at hblank
        exact ⟨hpending,fun htrim => absurd htrim hblank⟩
      | some line =>
        obtain ⟨hpast,hpos⟩ := readLine_some hs hopen hread
        have hopen₁ : 0 < s₁.budget.buffer_bytes_max := by rw [hpast.budget]; exact hopen
        have hrounds₁ : s₁.remaining.length < rounds := by
          have hlen := congrArg List.length hpast.remaining
          rw [length_append] at hlen
          omega
        simp only [hread] at h
        split_ifs at h with hblank hnone hwide
        · obtain ⟨bytes,hrest,hend,hblock⟩ := ih hpast.sound hopen₁ hrounds₁ (zero_le _) h
          refine ⟨_,hpast.trans hrest,hend,?_⟩
          intro text htext
          refine ⟨(hblock text htext).1,fun _ => ?_⟩
          rw [length_append]
          omega
        · simp only [Except.ok.injEq,Prod.mk.injEq] at h
          obtain ⟨rfl,rfl⟩ := h
          refine ⟨_,hpast,by simp,?_⟩
          rintro text htext
          simp only [Option.some.injEq] at htext
          subst htext
          exact ⟨hpending,fun _ => hpos⟩
        · have hbound : byteLen (pending ++ line ++ ['\n']) ≤ captionBlockBytesMax+1 := by
            rw [byteLen_append,byteLen_append,show byteLen ['\n'] = 1 from rfl]
            omega
          obtain ⟨bytes,hrest,hend,hblock⟩ := ih hpast.sound hopen₁ hrounds₁ hbound h
          refine ⟨_,hpast.trans hrest,hend,?_⟩
          intro text htext
          refine ⟨(hblock text htext).1,fun _ => ?_⟩
          rw [length_append]
          omega

end

def linesLen : List (List Char) → Nat
  | [] => 0
  | line :: lines => byteLen line+1+linesLen lines

theorem byteLen_sublist {xs ys : List Char} (h : xs.Sublist ys) : byteLen xs ≤ byteLen ys := by
  induction h with
  | slnil => exact le_refl _
  | cons | cons_cons => simp only [byteLen]; omega

theorem linesLen_sublist {xs ys : List (List Char)} (h : xs.Sublist ys) :
    linesLen xs ≤ linesLen ys := by
  induction h with
  | slnil => exact le_refl _
  | cons | cons_cons => simp only [linesLen]; omega

theorem linesLen_append (xs ys : List (List Char)) :
    linesLen (xs ++ ys) = linesLen xs+linesLen ys := by
  induction xs with
  | nil => simp [linesLen]
  | cons line xs ih => simp [linesLen,ih,add_assoc]

theorem linesLen_map_stripSuffix (c : Char) (xs : List (List Char)) :
    linesLen (xs.map (stripSuffix c)) ≤ linesLen xs := by
  induction xs with
  | nil => exact le_refl _
  | cons line xs ih =>
    have hstrip : byteLen (stripSuffix c line) ≤ byteLen line := by
      unfold stripSuffix
      split_ifs
      · exact byteLen_sublist (dropLast_sublist line)
      · exact le_refl _
    simp only [map_cons,linesLen]
    omega

variable (text : List Char)

theorem linesLen_splitOn : linesLen (text.splitOn '\n') = byteLen text+1 := by
  induction text with
  | nil => rfl
  | cons c text ih =>
    obtain ⟨first,parts,hsplit⟩ := exists_cons_of_ne_nil (splitOn_ne_nil '\n' text)
    rw [hsplit] at ih
    rw [splitOn_cons_eq_if_modifyHead,hsplit,byteLen]
    simp only [linesLen] at ih
    split_ifs with hc
    · simp only [beq_iff_eq] at hc
      subst hc
      simp only [linesLen,byteLen,show '\n'.utf8Size = 1 from rfl]
      omega
    · simp only [modifyHead_cons,linesLen,byteLen]
      omega

theorem lines_sublist :
    ∃ pieces last, text.splitOn '\n' = pieces ++ [last] ∧
      (lines text).Sublist (pieces.map (stripSuffix '\r') ++ [last]) := by
  have hne := splitOn_ne_nil '\n' text
  refine ⟨_,_,(dropLast_append_getLast hne).symm,?_⟩
  rw [lines,List.getLast?_eq_some_getLast hne]
  exact List.Sublist.append_left (filter_sublist) _

theorem linesLen_lines : linesLen (lines text) ≤ byteLen text+1 := by
  obtain ⟨pieces,last,hsplit,hsub⟩ := lines_sublist text
  have hle := linesLen_sublist hsub
  have hstrip := linesLen_map_stripSuffix '\r' pieces
  rw [← linesLen_splitOn,hsplit]
  simp only [linesLen_append] at hle ⊢
  omega

theorem newline_not_mem_lines {text line : List Char} (h : line ∈ lines text) : '\n' ∉ line := by
  obtain ⟨pieces,last,hsplit,hsub⟩ := lines_sublist text
  have hpiece : ∀ piece ∈ pieces ++ [last], '\n' ∉ piece := by
    intro piece hpiece
    exact not_mem_of_mem_splitOn (hsplit ▸ hpiece)
  have hmem := hsub.mem h
  rw [mem_append,mem_map] at hmem
  rcases hmem with ⟨piece,hmem,rfl⟩ | hmem
  · have hno := hpiece piece (mem_append_left _ hmem)
    unfold stripSuffix
    split_ifs
    · exact fun hc => hno ((dropLast_sublist piece).mem hc)
    · exact hno
  · exact hpiece line (mem_append_right _ hmem)

theorem trim_sublist : (trim text).Sublist text := by
  have hback := (dropWhile_sublist isWhitespace (l := (text.dropWhile isWhitespace).reverse)).reverse
  rw [reverse_reverse] at hback
  exact hback.trans (dropWhile_sublist isWhitespace)

theorem cueText_fold (xs : List (List Char)) (text : List Char) :
    byteLen (xs.foldl (fun text line =>
      if (trim line).isEmpty then text
      else if text.isEmpty then trim line
      else text ++ ' ' :: trim line) text) ≤ byteLen text+linesLen xs := by
  induction xs generalizing text with
  | nil => exact le_refl _
  | cons line xs ih =>
    have hline := byteLen_sublist (trim_sublist line)
    rw [foldl_cons,linesLen]
    refine (ih _).trans ?_
    split_ifs with hblank hfirst
    · omega
    · omega
    · rw [byteLen_append,byteLen,show ' '.utf8Size = 1 from rfl]
      omega

theorem newline_not_mem_fold {xs : List (List Char)} (h : ∀ line ∈ xs, '\n' ∉ line)
    {text : List Char} (htext : '\n' ∉ text) :
    '\n' ∉ xs.foldl (fun text line =>
      if (trim line).isEmpty then text
      else if text.isEmpty then trim line
      else text ++ ' ' :: trim line) text := by
  induction xs generalizing text with
  | nil => exact htext
  | cons line xs ih =>
    obtain ⟨hline,hxs⟩ := forall_mem_cons.mp h
    have htrim : '\n' ∉ trim line := fun hc => hline (mem_of_mem_trim hc)
    rw [foldl_cons]
    refine ih hxs ?_
    split_ifs
    · exact htext
    · exact htrim
    · simp [htext,htrim]

theorem timingLine_suffix {xs rest : List (List Char)} {timing : List Char}
    (h : timingLine xs = some (timing,rest)) : rest.Sublist xs := by
  rcases xs with _ | ⟨first,_ | ⟨second,xs⟩⟩
  · simp [timingLine] at h
  · simp only [timingLine,Option.ite_none_right_eq_some,Option.some.injEq,Prod.mk.injEq] at h
    rw [← h.2.2]
    exact nil_sublist _
  · simp only [timingLine] at h
    split_ifs at h with hfirst hsecond
    all_goals simp only [Option.some.injEq,Prod.mk.injEq] at h
    · rw [← h.2]
      exact sublist_cons_self first _
    · rw [← h.2]
      exact (sublist_cons_self second xs).trans (sublist_cons_self first _)

/-- A cue that an import keeps as a line of its own. -/
structure Cue.Spoken (cue : Cue) : Prop where
  forward : cue.start_ms ≤ cue.end_ms
  words : cue.text ≠ []
  one_line : '\n' ∉ cue.text
  fits : byteLen cue.text ≤ captionBlockBytesMax+2

variable {cue : Cue}

theorem parseBlock_spoken {build : Build} {block : List Char}
    (hblock : byteLen block ≤ captionBlockBytesMax+1)
    (h : parseBlock build block = .ok (some cue)) : cue.Spoken := by
  unfold parseBlock at h
  cases htiming : timingLine ((lines block).filter fun line => !(trim line).isEmpty) with
  | none => simp [htiming] at h
  | some timed =>
    obtain ⟨timing,rest⟩ := timed
    have hsub : rest.Sublist (lines block) := (timingLine_suffix htiming).trans filter_sublist
    simp only [htiming] at h
    cases htexts : timingTexts timing with
    | none => simp [htexts] at h
    | some texts =>
      obtain ⟨start_text,end_text⟩ := texts
      simp only [htexts,bind,Except.bind] at h
      cases hstart : parseTimestamp build start_text with
      | error e => simp [hstart] at h
      | ok start =>
        cases start with
        | none => simp [hstart] at h
        | some start_ms =>
          simp only [hstart] at h
          cases hend : parseTimestamp build end_text with
          | error e => simp [hend] at h
          | ok ending =>
            cases ending with
            | none => simp [hend] at h
            | some end_ms =>
              simp only [hend] at h
              split_ifs at h with hbackward hempty
              all_goals simp only [Except.ok.injEq,Option.some.injEq,reduceCtorEq] at h
              subst h
              refine ⟨not_lt.mp hbackward,?_,?_,?_⟩
              · simpa using hempty
              · exact newline_not_mem_fold
                  (fun line hline => newline_not_mem_lines (hsub.mem hline)) not_mem_nil
              · have hlines := linesLen_sublist hsub
                have hall := linesLen_lines block
                have htext : byteLen (cueText rest) ≤ 0+linesLen rest := cueText_fold rest []
                simp only
                omega

def cuesLoop (build : Build) (lines_max : Nat) : Nat → BoundedStream → Except ImportStop (List Cue)
  | 0, _ => .ok []
  | rounds+1, s =>
    match nextBlock lines_max [] s with
    | .error e => .error (.refused e)
    | .ok (none,_) => .ok []
    | .ok (some block,s) =>
      match parseBlock build block with
      | .error fault => .error (.panicked fault)
      | .ok none => cuesLoop build lines_max rounds s
      | .ok (some cue) => (cuesLoop build lines_max rounds s).map (cue :: ·)

def fileCues (build : Build) (reader : Reader) (budget : StreamBudget) : List Cue :=
  match cuesLoop build (reader.rest.length+1) (reader.rest.length+1) (.new reader budget) with
  | .ok cues => cues
  | .error _ => []

section Importing
variable {build : Build} {lines_max rounds : Nat} {s s' : BoundedStream} {w w' : Import}

theorem importLoop_cues (h : importLoop build lines_max rounds w s = .ok (w',s')) :
    ∃ cues, cuesLoop build lines_max rounds s = .ok cues ∧ cues.foldlM importCue w = .ok w' := by
  induction rounds generalizing w s with
  | zero =>
    simp only [importLoop,Except.ok.injEq,Prod.mk.injEq] at h
    exact ⟨[],rfl,congrArg Except.ok h.1⟩
  | succ rounds ih =>
    rw [cuesLoop]
    rcases importLoop_succ h with ⟨hnext,rfl⟩ | ⟨block,s₁,w₁,hnext,hcue,hrest⟩
    · exact ⟨[],by rw [hnext],rfl⟩
    · obtain ⟨cues,hcues,hfold⟩ := ih hrest
      rw [hnext]
      rcases hcue with ⟨hparse,rfl⟩ | ⟨cue,hparse,himport⟩
      · exact ⟨cues,by simp only [hparse,hcues],hfold⟩
      · refine ⟨cue :: cues,by simp [hparse,hcues,Except.map],?_⟩
        rw [foldlM_cons,himport]
        exact hfold

theorem cuesLoop_spoken {cues : List Cue} (hs : s.Sound) (hopen : 0 < s.budget.buffer_bytes_max)
    (hlines : s.remaining.length < lines_max) (h : cuesLoop build lines_max rounds s = .ok cues) :
    ∀ cue ∈ cues, cue.Spoken := by
  induction rounds generalizing s cues with
  | zero =>
    simp only [cuesLoop,Except.ok.injEq] at h
    simp [← h]
  | succ rounds ih =>
    rw [cuesLoop] at h
    cases hnext : nextBlock lines_max [] s with
    | error e => simp [hnext] at h
    | ok next =>
      obtain ⟨block,s₁⟩ := next
      obtain ⟨bytes,hpast,-,hblock⟩ := nextBlock_ok hs hopen hlines (zero_le _) hnext
      have hlen := congrArg List.length hpast.remaining
      rw [length_append] at hlen
      have hrest : ∀ {more : List Cue}, cuesLoop build lines_max rounds s₁ = .ok more →
          ∀ cue ∈ more, cue.Spoken :=
        ih hpast.sound (by rw [hpast.budget]; exact hopen) (by omega)
      cases block with
      | none =>
        simp only [hnext,Except.ok.injEq] at h
        simp [← h]
      | some block =>
        simp only [hnext] at h
        cases hparse : parseBlock build block with
        | error fault => simp [hparse] at h
        | ok cue =>
          cases cue with
          | none =>
            simp only [hparse] at h
            exact hrest h
          | some cue =>
            simp only [hparse] at h
            cases hmore : cuesLoop build lines_max rounds s₁ with
            | error e => simp [hmore,Except.map] at h
            | ok more =>
              simp only [hmore,Except.map,Except.ok.injEq] at h
              rw [← h,forall_mem_cons]
              exact ⟨parseBlock_spoken (hblock block rfl).1 hparse,hrest hmore⟩

theorem importLoop_end (hs : s.Sound) (hopen : 0 < s.budget.buffer_bytes_max)
    (hlines : s.remaining.length < lines_max) (hrounds : s.remaining.length < rounds)
    (h : importLoop build lines_max rounds w s = .ok (w',s')) :
    ∃ bytes, s.Past bytes s' ∧ s'.remaining = [] := by
  induction rounds generalizing w s with
  | zero => omega
  | succ rounds ih =>
    rcases importLoop_succ h with ⟨hnext,-⟩ | ⟨block,s₁,w₁,hnext,-,hrest⟩
    · obtain ⟨bytes,hpast,hend,-⟩ := nextBlock_ok hs hopen hlines (zero_le _) hnext
      exact ⟨bytes,hpast,hend rfl⟩
    · obtain ⟨bytes,hpast,-,hblock⟩ := nextBlock_ok hs hopen hlines (zero_le _) hnext
      have hpos := (hblock block rfl).2 rfl
      have hlen := congrArg List.length hpast.remaining
      rw [length_append] at hlen
      obtain ⟨more,hmore,hnil⟩ := ih hpast.sound (by rw [hpast.budget]; exact hopen) (by omega)
        (by omega) hrest
      exact ⟨_,hpast.trans hmore,hnil⟩

end Importing

def Tiles : Nat → Bytes → List Segment → Prop
  | _, text, [] => text = []
  | start, text, segment :: segments =>
    segment.byte_start = start ∧ ∃ line rest, text = line ++ newline :: rest ∧ newline ∉ line ∧
      segment.byte_end = start+line.length ∧ Tiles (segment.byte_end+1) rest segments

theorem Tiles.snoc {start : Nat} {text line : Bytes} {segments : List Segment} {segment : Segment}
    (h : Tiles start text segments) (hstart : segment.byte_start = start+text.length)
    (hline : newline ∉ line) (hend : segment.byte_end = segment.byte_start+line.length) :
    Tiles start (text ++ line ++ [newline]) (segments ++ [segment]) := by
  induction segments generalizing start text with
  | nil =>
    obtain rfl : text = [] := h
    exact ⟨hstart,line,[],by simp,hline,by rw [hend,hstart]; rfl,rfl⟩
  | cons first segments ih =>
    obtain ⟨hfirst,own,rest,rfl,hown,hown_end,hrest⟩ := h
    refine ⟨hfirst,own,rest ++ line ++ [newline],by simp,hown,hown_end,ih hrest ?_⟩
    rw [hstart,hown_end,length_append,length_cons]
    omega

/-- No segment begins before the one before it has ended, and each ends later. -/
structure Timed (segments : List Segment) : Prop where
  forward : ∀ s ∈ segments, ∃ start_ms end_ms, s.locator = .timeRange start_ms end_ms ∧
    start_ms ≤ end_ms
  ordered : segments.Pairwise fun s t => ∀ a b c d, s.locator = .timeRange a b →
    t.locator = .timeRange c d → b ≤ c ∧ b < d

/-- The segments tile the text written so far, in the order of their times. -/
structure Import.Holds (w : Import) : Prop where
  tiles : Tiles 0 w.text w.segments
  offset : w.byte_offset = w.text.length
  bound : w.byte_offset ≤ w.cue_count*(captionBlockBytesMax+3)
  count : w.cue_count ≤ captionCueCountMax
  in_time : Timed w.segments
  committed : ∀ s ∈ w.segments, ∀ a b, s.locator = .timeRange a b → b ≤ w.committed_to_ms

theorem Import.empty_holds : Import.empty.Holds where
  tiles := rfl
  offset := rfl
  bound := zero_le _
  count := zero_le _
  in_time := ⟨by simp [Import.empty],List.Pairwise.nil⟩
  committed := by simp [Import.empty]

theorem importCue_ok {w w' : Import} (h : importCue w cue = .ok w') :
    cue.end_ms ≤ w.committed_to_ms ∧ w' = w ∨
    w.committed_to_ms < cue.end_ms ∧ w.cue_count < captionCueCountMax ∧
      w' = ⟨w.text ++ encode cue.text ++ [newline],
        w.segments ++ [⟨w.byte_offset,satAdd64 w.byte_offset (byteLen cue.text),
          .timeRange (max cue.start_ms w.committed_to_ms) cue.end_ms,0⟩],
        satAdd64 (satAdd64 w.byte_offset (byteLen cue.text)) 1,satAdd32 w.cue_count 1,cue.end_ms⟩ := by
  unfold importCue at h
  by_cases hdrop : cue.end_ms ≤ w.committed_to_ms
  · rw [order,if_pos hdrop] at h
    exact Or.inl ⟨hdrop,(Except.ok.inj h).symm⟩
  · right
    rw [order,if_neg hdrop] at h
    simp only at h
    split_ifs at h with hcount
    refine ⟨Nat.lt_of_not_le hdrop,Nat.lt_of_not_le hcount,?_⟩
    unfold writeCue pushSegment at h
    split_ifs at h with hsegments
    · simp [Except.map] at h
    · simp only [Except.map,Except.ok.injEq] at h
      exact h.symm

theorem Import.Holds.step {w w' : Import} (hw : w.Holds) (hcue : cue.Spoken)
    (h : importCue w cue = .ok w') : w'.Holds := by
  rcases importCue_ok h with ⟨-,rfl⟩ | ⟨hlater,hcount,rfl⟩
  · exact hw
  have hfits := hcue.fits
  have hbound := hw.bound
  have hmul : (w.cue_count+1)*(captionBlockBytesMax+3) =
      w.cue_count*(captionBlockBytesMax+3)+(captionBlockBytesMax+3) := succ_mul _ _
  have hmax : (w.cue_count+1)*(captionBlockBytesMax+3) ≤ u64Max :=
    le_trans (mul_le_mul_right _ hcount) (by decide)
  have hend : satAdd64 w.byte_offset (byteLen cue.text) = w.byte_offset+byteLen cue.text :=
    satAdd64_of_le (by omega)
  have hnext : satAdd64 (w.byte_offset+byteLen cue.text) 1 = w.byte_offset+byteLen cue.text+1 :=
    satAdd64_of_le (by omega)
  have hcounted : satAdd32 w.cue_count 1 = w.cue_count+1 := by
    refine min_eq_left ?_
    exact le_trans hcount (by decide)
  have hline : newline ∉ encode cue.text := by
    rw [mem_encode (by decide)]
    rintro ⟨c,hc,hvalue⟩
    have hnew : c = '\n' := Char.toNat_inj.mp hvalue
    exact hcue.one_line (hnew ▸ hc)
  rw [hend,hnext,hcounted]
  refine ⟨hw.tiles.snoc (by simp [hw.offset]) hline (by simp),?_,?_,hcount,⟨?_,?_⟩,?_⟩
  · simp [hw.offset,add_assoc]
  · simp only
    omega
  · intro s hs
    rw [mem_append,mem_singleton] at hs
    rcases hs with hs | rfl
    · exact hw.in_time.forward s hs
    · exact ⟨_,_,rfl,max_le hcue.forward hlater.le⟩
  · rw [pairwise_append]
    refine ⟨hw.in_time.ordered,pairwise_singleton _ _,?_⟩
    intro s hs t ht a b c d hst htt
    rw [mem_singleton] at ht
    subst ht
    have hle := hw.committed s hs a b hst
    simp only [Locator.timeRange.injEq] at htt
    omega
  · intro s hs a b hst
    rw [mem_append,mem_singleton] at hs
    rcases hs with hs | rfl
    · exact le_trans (hw.committed s hs a b hst) hlater.le
    · simp only [Locator.timeRange.injEq] at hst
      exact hst.2.symm.le

variable {cues : List Cue}

theorem Import.Holds.run {w w' : Import} (hw : w.Holds) (hcues : ∀ cue ∈ cues, cue.Spoken)
    (h : cues.foldlM importCue w = .ok w') : w'.Holds := by
  induction cues generalizing w with
  | nil =>
    obtain rfl : w = w' := Except.ok.inj h
    exact hw
  | cons cue cues ih =>
    obtain ⟨hcue,hrest⟩ := forall_mem_cons.mp hcues
    rw [foldlM_cons] at h
    cases hstep : importCue w cue with
    | error e => simp [hstep,bind,Except.bind] at h
    | ok w₁ =>
      simp only [hstep,bind,Except.bind] at h
      exact ih (hw.step hcue hstep) hrest h

section Whole
variable {build : Build} {reader : Reader} {budget : StreamBudget} {out : CaptionProduct}

theorem normalizeCaptions_ok (h : normalizeCaptions build reader budget = .ok out) :
    ∃ w s, importLoop build (reader.rest.length+1) (reader.rest.length+1) .empty
        (.new reader budget) = .ok (w,s) ∧
      (fileCues build reader budget).foldlM importCue .empty = .ok w ∧
      out = ⟨w.text,w.byte_offset,w.segments,s.read_total,w.cue_count⟩ := by
  unfold normalizeCaptions at h
  simp only at h
  cases hloop : importLoop build (reader.rest.length+1) (reader.rest.length+1) .empty
      (.new reader budget) with
  | error e => simp [hloop] at h
  | ok next =>
    obtain ⟨w,s⟩ := next
    obtain ⟨cues,hcues,hfold⟩ := importLoop_cues hloop
    simp only [hloop,Except.ok.injEq] at h
    exact ⟨w,s,rfl,by rw [fileCues,hcues]; exact hfold,h.symm⟩

theorem fileCues_closed (hclosed : budget.buffer_bytes_max = 0) :
    fileCues build reader budget = [] := by
  have hwindow : (BoundedStream.new reader budget).windowMax =
      .ok ([],BoundedStream.new reader budget) := by
    simp [BoundedStream.windowMax,BoundedStream.fill,BoundedStream.new,hclosed,
      BoundedStream.fillLoop]
  have hline : readLine (.new reader budget) = .ok (none,.new reader budget) := by
    rw [readLine,lineLoop,hwindow]
    rfl
  rw [fileCues,cuesLoop,nextBlock,hline]
  rfl

theorem fileCues_spoken (h : normalizeCaptions build reader budget = .ok out) :
    ∀ cue ∈ fileCues build reader budget, cue.Spoken := by
  obtain ⟨w,s,hloop,-⟩ := normalizeCaptions_ok h
  obtain ⟨cues,hcues,-⟩ := importLoop_cues hloop
  rcases Nat.eq_zero_or_pos budget.buffer_bytes_max with hclosed | hopen
  · simp [fileCues_closed hclosed]
  · rw [fileCues,hcues]
    exact cuesLoop_spoken (BoundedStream.new_sound reader budget) hopen
      (by simp [BoundedStream.new,BoundedStream.remaining]) hcues

/-- The segments of an accepted caption file run forward, none begins before the last
has ended, and they tile the transcript with one line feed behind each; however the
content is handed over and cut into windows that show something, the outcome is the same. -/
theorem captions_transcript (h : normalizeCaptions build reader budget = .ok out) :
    Timed out.segments ∧ Tiles 0 out.text out.segments ∧ out.text_byte_size = out.text.length ∧
    (0 < budget.buffer_bytes_max → ∀ reader' budget', reader'.rest = reader.rest →
      reader'.Healthy → 0 < budget'.buffer_bytes_max →
        normalizeCaptions build reader' budget' = .ok out) := by
  obtain ⟨w,s,hloop,hfold,rfl⟩ := normalizeCaptions_ok h
  have hholds := Import.empty_holds.run (fileCues_spoken h) hfold
  refine ⟨hholds.in_time,hholds.tiles,hholds.offset,?_⟩
  intro hopen reader' budget' hrest hhealthy hopen'
  have halike : Alike (.new reader budget) (.new reader' budget') :=
    ⟨BoundedStream.new_sound _ _,hopen,⟨BoundedStream.new_sound _ _,hhealthy,hopen'⟩,
      by simp [BoundedStream.new,BoundedStream.remaining,hrest],rfl⟩
  have hlen : (BoundedStream.new reader budget).remaining.length < reader.rest.length+1 := by
    simp [BoundedStream.new,BoundedStream.remaining]
  obtain ⟨t,ht,hsame⟩ := importLoop_alike halike hloop
  obtain ⟨bytes,hpast,hend⟩ := importLoop_end halike.sound hopen hlen hlen hloop
  have hread : t.read_total = s.read_total := by
    rw [hsame.live.sound.read_total_eq (hsame.remaining ▸ hend),hpast.sound.read_total_eq hend,
      hsame.offset]
  rw [normalizeCaptions,hrest]
  simp only [ht,hread]

end Whole

def twoCues : Bytes :=
  encode "00:01.0 --> 00:02.0\nHi\n\n00:02.0 --> 00:03.0\nHo".toList

theorem captions_transcript_demo :
    normalizeCaptions .checked ⟨twoCues,[.ok 5,.ok 30]⟩ ⟨.normalize,3⟩ =
      .ok ⟨encode "Hi\nHo\n".toList,6,
        [⟨0,2,.timeRange 1000 2000,0⟩,⟨3,5,.timeRange 2000 3000,0⟩],46,2⟩ := by
  have hwhole : normalizeCaptions .checked ⟨twoCues,[]⟩ ⟨.normalize,64⟩ =
      .ok ⟨encode "Hi\nHo\n".toList,6,
        [⟨0,2,.timeRange 1000 2000,0⟩,⟨3,5,.timeRange 2000 3000,0⟩],46,2⟩ := by
    decide +kernel
  exact (captions_transcript hwhole).2.2.2 (by decide) _ _ rfl (by simp [Reader.Healthy])
    (by decide)

def latestEnd (cues : List Cue) : Nat := cues.foldl (fun latest cue => max latest cue.end_ms) 0

def Dropped (before : List Cue) (cue : Cue) : Prop :=
  ∃ w, before.foldlM importCue .empty = .ok w ∧ order cue w.committed_to_ms = none

def NothingLost (cues : List Cue) (text : Bytes) : Prop :=
  ∀ before cue after, cues = before ++ cue :: after → Dropped before cue →
    encode cue.text <:+: text

def Covered (cues : List Cue) : Prop :=
  ∀ before cue after, cues = before ++ cue :: after → cue.end_ms ≤ latestEnd before →
    ∃ before' later after', cues = before' ++ later :: after' ∧
      latestEnd before' < later.end_ms ∧ encode cue.text <:+: encode later.text

def kept : Nat → List Cue → List Cue
  | _, [] => []
  | committed_to_ms, cue :: cues =>
    if cue.end_ms ≤ committed_to_ms then kept committed_to_ms cues
    else cue :: kept cue.end_ms cues

theorem mem_kept {c : Nat} :
    cue ∈ kept c cues ↔ ∃ before after, cues = before ++ cue :: after ∧
      before.foldl (fun latest cue => max latest cue.end_ms) c < cue.end_ms := by
  induction cues generalizing c with
  | nil => simp [kept]
  | cons first cues ih =>
    have hsplit : ∀ before after, first :: cues = before ++ cue :: after ↔
        (before = [] ∧ first = cue ∧ cues = after) ∨
          ∃ rest, before = first :: rest ∧ cues = rest ++ cue :: after := by
      intro before after
      cases before with
      | nil => simp
      | cons b before => simp [eq_comm,and_assoc]
    have hcases : (∃ before after, first :: cues = before ++ cue :: after ∧
        before.foldl (fun latest cue => max latest cue.end_ms) c < cue.end_ms) ↔
        (first = cue ∧ c < cue.end_ms) ∨ cue ∈ kept (max c first.end_ms) cues := by
      rw [ih]
      constructor
      · rintro ⟨before,after,hcues,hlt⟩
        rcases (hsplit before after).mp hcues with ⟨rfl,hfirst,-⟩ | ⟨rest,rfl,hrest⟩
        · exact Or.inl ⟨hfirst,hlt⟩
        · exact Or.inr ⟨rest,after,hrest,hlt⟩
      · rintro (⟨hfirst,hlt⟩ | ⟨rest,after,hrest,hlt⟩)
        · exact ⟨[],cues,(hsplit _ _).mpr (Or.inl ⟨rfl,hfirst,rfl⟩),hlt⟩
        · exact ⟨first :: rest,after,(hsplit _ _).mpr (Or.inr ⟨rest,rfl,hrest⟩),hlt⟩
    rw [hcases,kept]
    split_ifs with hdrop
    · rw [max_eq_left hdrop]
      constructor
      · exact Or.inr
      · rintro (⟨rfl,hlt⟩ | h)
        · omega
        · exact h
    · rw [max_eq_right (Nat.le_of_not_le hdrop),mem_cons]
      constructor
      · rintro (rfl | h)
        · exact Or.inl ⟨rfl,Nat.lt_of_not_le hdrop⟩
        · exact Or.inr h
      · rintro (⟨rfl,-⟩ | h)
        · exact Or.inl rfl
        · exact Or.inr h

theorem import_committed {w w' : Import} (h : cues.foldlM importCue w = .ok w') :
    w'.committed_to_ms = cues.foldl (fun latest cue => max latest cue.end_ms) w.committed_to_ms ∧
      w'.text = w.text ++ (kept w.committed_to_ms cues).flatMap fun cue =>
        encode cue.text ++ [newline] := by
  induction cues generalizing w with
  | nil =>
    obtain rfl : w = w' := Except.ok.inj h
    simp [kept]
  | cons cue cues ih =>
    rw [foldlM_cons] at h
    cases hstep : importCue w cue with
    | error e => simp [hstep,bind,Except.bind] at h
    | ok w₁ =>
      simp only [hstep,bind,Except.bind] at h
      obtain ⟨hcommitted,htext⟩ := ih h
      rw [hcommitted,htext,foldl_cons,kept]
      rcases importCue_ok hstep with ⟨hdrop,rfl⟩ | ⟨hlater,-,rfl⟩
      · rw [if_pos hdrop,max_eq_left hdrop]
        exact ⟨rfl,rfl⟩
      · rw [if_neg (not_le.mpr hlater),max_eq_right hlater.le]
        exact ⟨rfl,by simp⟩

theorem infix_transcript {words : Bytes} (hwords : words ≠ []) (hline : newline ∉ words) :
    words <:+: (cues.flatMap fun cue => encode cue.text ++ [newline]) ↔
      ∃ cue ∈ cues, words <:+: encode cue.text := by
  induction cues with
  | nil => simp [hwords]
  | cons cue cues ih =>
    rw [flatMap_cons,append_assoc,singleton_append,infix_append_cons hline,ih]
    simp

theorem import_prefix {before after : List Cue} {w w' : Import}
    (h : (before ++ after).foldlM importCue w = .ok w') :
    ∃ w₁, before.foldlM importCue w = .ok w₁ := by
  rw [foldlM_append] at h
  cases hw : before.foldlM importCue w with
  | error e => simp [hw,bind,Except.bind] at h
  | ok w₁ => exact ⟨w₁,rfl⟩

/-- Precisely when no words are lost with the cues that the ordering step drops
from a file that is accepted. -/
theorem captions_lossless_iff (build : Build) (reader : Reader) (budget : StreamBudget)
    (out : CaptionProduct) (h : normalizeCaptions build reader budget = .ok out) :
    NothingLost (fileCues build reader budget) out.text ↔ Covered (fileCues build reader budget) := by
  obtain ⟨w,s,-,hfold,rfl⟩ := normalizeCaptions_ok h
  have hspoken := fileCues_spoken h
  generalize fileCues build reader budget = cues at hfold hspoken ⊢
  have htext : w.text = (kept 0 cues).flatMap fun cue => encode cue.text ++ [newline] :=
    (import_committed hfold).2
  have hpresent : ∀ cue ∈ cues, encode cue.text <:+: w.text ↔
      ∃ before' later after', cues = before' ++ later :: after' ∧
        latestEnd before' < later.end_ms ∧ encode cue.text <:+: encode later.text := by
    intro cue hcue
    have hwords : encode cue.text ≠ [] := fun hnil => (hspoken cue hcue).words (encode_inj hnil)
    have hline : newline ∉ encode cue.text := by
      rw [mem_encode (by decide)]
      rintro ⟨c,hc,hvalue⟩
      have hnew : c = '\n' := Char.toNat_inj.mp hvalue
      exact (hspoken cue hcue).one_line (hnew ▸ hc)
    rw [htext,infix_transcript hwords hline]
    constructor
    · rintro ⟨later,hlater,hwithin⟩
      obtain ⟨before',after',hcues,hlt⟩ := mem_kept.mp hlater
      exact ⟨before',later,after',hcues,hlt,hwithin⟩
    · rintro ⟨before',later,after',hcues,hlt,hwithin⟩
      exact ⟨later,mem_kept.mpr ⟨before',after',hcues,hlt⟩,hwithin⟩
  have hdropped : ∀ before cue after, cues = before ++ cue :: after →
      (Dropped before cue ↔ cue.end_ms ≤ latestEnd before) := by
    intro before cue after hcues
    obtain ⟨w₁,hw₁⟩ := import_prefix (hcues ▸ hfold)
    have hcommitted : w₁.committed_to_ms = latestEnd before := (import_committed hw₁).1
    have horder : order cue w₁.committed_to_ms = none ↔ cue.end_ms ≤ latestEnd before := by
      rw [order,hcommitted]
      split_ifs with hle <;> simp [hle]
    constructor
    · rintro ⟨w₂,hw₂,hnone⟩
      obtain rfl : w₁ = w₂ := Except.ok.inj (hw₁.symm.trans hw₂)
      exact horder.mp hnone
    · intro hle
      exact ⟨w₁,hw₁,horder.mpr hle⟩
  constructor
  · intro hkept before cue after hcues hle
    exact (hpresent cue (by simp [hcues])).mp
      (hkept before cue after hcues ((hdropped before cue after hcues).mpr hle))
  · intro hcovered before cue after hcues hdrop
    exact (hpresent cue (by simp [hcues])).mpr
      (hcovered before cue after hcues ((hdropped before cue after hcues).mp hdrop))

def crosstalk : Bytes :=
  encode "00:01.0 --> 00:04.0\nI\n\n00:02.0 --> 00:03.0\nNo".toList

theorem captions_lose_words :
    ∃ out, normalizeCaptions .checked ⟨crosstalk,[]⟩ ⟨.normalize,64⟩ = .ok out ∧
      ¬NothingLost (fileCues .checked ⟨crosstalk,[]⟩ ⟨.normalize,64⟩) out.text := by
  refine ⟨⟨encode "I\n".toList,2,[⟨0,1,.timeRange 1000 4000,0⟩],45,1⟩,by decide +kernel,?_⟩
  have hcues : fileCues .checked ⟨crosstalk,[]⟩ ⟨.normalize,64⟩ =
      [⟨1000,4000,['I']⟩,⟨2000,3000,['N','o']⟩] := by decide +kernel
  rw [hcues]
  intro h
  have hin := h [⟨1000,4000,['I']⟩] ⟨2000,3000,['N','o']⟩ [] rfl ⟨_,rfl,rfl⟩
  exact absurd hin (by decide)

theorem captions_lossless_demo :
    NothingLost (fileCues .checked ⟨encode "00:01.0 --> 00:02.0\nHi".toList,[]⟩ ⟨.normalize,64⟩)
      (encode "Hi\n".toList) := by
  have hok : normalizeCaptions .checked ⟨encode "00:01.0 --> 00:02.0\nHi".toList,[]⟩
      ⟨.normalize,64⟩ = .ok ⟨encode "Hi\n".toList,3,[⟨0,2,.timeRange 1000 2000,0⟩],22,1⟩ := by
    decide +kernel
  have hcues : fileCues .checked ⟨encode "00:01.0 --> 00:02.0\nHi".toList,[]⟩ ⟨.normalize,64⟩ =
      [⟨1000,2000,['H','i']⟩] := by decide +kernel
  refine (captions_lossless_iff .checked _ _ _ hok).mpr ?_
  rw [hcues]
  intro before cue after hsplit hle
  cases before with
  | nil =>
    simp only [nil_append,List.cons.injEq] at hsplit
    simp [← hsplit.1,latestEnd] at hle
  | cons b before => simp at hsplit

end ProjectOS.Ingest
