import ProjectOS.Ingest.Normalized

/-! The headings of a Markdown text: the level the scanner gives to a record, and
the level its first line has. -/

namespace ProjectOS.Ingest
open Lib Domain List

def AtxHeading (record : Bytes) (d : Nat) : Prop :=
  1 ≤ d ∧ d ≤ 6 ∧ ∃ indent rest, record = indent ++ List.replicate d numberSign ++ rest ∧
    (∀ b ∈ indent, isAsciiWhitespace b = true) ∧
    ∀ b ∈ rest.head?, b = 32 ∨ b = 9 ∨ b = newline

def Marked (content : Bytes) (d : Nat) : Prop :=
  1 ≤ d ∧ d ≤ 6 ∧ ∃ b more, content = List.replicate d numberSign ++ b :: more ∧ b ≠ numberSign

theorem headingDepth_iff {content : Bytes} {d : Nat} (hd : 0 < d) :
    headingDepth content = d ↔ Marked content d := by
  have hsigns : content.takeWhile (· == numberSign) =
      List.replicate (content.takeWhile (· == numberSign)).length numberSign := by
    rw [eq_replicate_iff]
    exact ⟨rfl,fun b hb => by simpa using mem_takeWhile_imp (p := (· == numberSign)) hb⟩
  have hcontent := takeWhile_append_dropWhile (p := (· == numberSign)) (l := content)
  constructor
  · intro h
    unfold headingDepth at h
    dsimp only at h
    split_ifs at h with hmark
    · obtain ⟨hlow,hhigh,hmore⟩ := hmark
      rw [h] at hlow hhigh hsigns
      have hrest : content.dropWhile (· == numberSign) ≠ [] := by
        intro hnil
        rw [hnil,append_nil] at hcontent
        rw [hcontent] at hmore
        exact absurd hmore (Nat.lt_irrefl _)
      obtain ⟨b,more,hb⟩ := exists_cons_of_ne_nil hrest
      have hhead := head_dropWhile_not (· == numberSign) hrest
      simp only [hb,head_cons,beq_eq_false_iff_ne,ne_eq] at hhead
      exact ⟨hlow,hhigh,b,more,by rw [← hsigns,← hb,hcontent],hhead⟩
    · omega
  · rintro ⟨hlow,hhigh,b,more,rfl,hb⟩
    have htake : (List.replicate d numberSign ++ b :: more).takeWhile (· == numberSign) =
        List.replicate d numberSign := by
      rw [takeWhile_append_of_pos (by simp),
        takeWhile_cons_of_neg (by simpa using hb),append_nil]
    rw [headingDepth,htake]
    simp only [length_replicate,length_append,length_cons]
    rw [if_pos ⟨hlow,hhigh,by omega⟩]

variable {record : Bytes}

theorem AtxHeading.content {d : Nat} (h : AtxHeading record d) :
    contentOf record = List.replicate d numberSign ++ (contentOf record).drop d := by
  obtain ⟨-,-,indent,rest,rfl,hindent,-⟩ := h
  have hblank : contentOf indent = [] := by
    rw [contentOf,filter_eq_nil_iff]
    intro b hb
    simp [hindent b hb]
  have hsigns : contentOf (List.replicate d numberSign) = List.replicate d numberSign := by
    rw [contentOf,filter_eq_self]
    intro b hb
    rw [eq_of_mem_replicate hb]
    rfl
  have hcontent : contentOf (indent ++ List.replicate d numberSign ++ rest) =
      List.replicate d numberSign ++ contentOf rest := by
    rw [contentOf,filter_append,filter_append,← contentOf,← contentOf,← contentOf,hblank,
      hsigns,nil_append]
  rw [hcontent,drop_left' length_replicate]

/-- The blanks the scanner drops do not matter: behind a heading's mark there is
more content, and no further sign; without a heading the content does not begin like
one. -/
def Readable (record : Bytes) : Prop :=
  (∀ d, AtxHeading record d → ∃ b more, (contentOf record).drop d = b :: more ∧ b ≠ numberSign) ∧
    ((∀ d, ¬AtxHeading record d) → ∀ d, ¬Marked (contentOf record) d)

theorem readable_iff :
    (∀ d, 0 < d → (headingDepth (contentOf record) = d ↔ AtxHeading record d)) ↔
      Readable record := by
  constructor
  · intro h
    refine ⟨?_,?_⟩
    · intro d hatx
      obtain ⟨-,-,b,more,hcontent,hb⟩ := (headingDepth_iff hatx.1).mp ((h d hatx.1).mpr hatx)
      exact ⟨b,more,by rw [hcontent,drop_left' length_replicate],hb⟩
    · intro hnone d hmarked
      exact hnone d ((h d hmarked.1).mp ((headingDepth_iff hmarked.1).mpr hmarked))
  · rintro ⟨hbehind,hplain⟩ d hd
    have hdepth : ∀ e, AtxHeading record e → headingDepth (contentOf record) = e := by
      intro e hatx
      obtain ⟨b,more,hdrop,hb⟩ := hbehind e hatx
      rw [headingDepth_iff hatx.1]
      exact ⟨hatx.1,hatx.2.1,b,more,by rw [← hdrop]; exact hatx.content,hb⟩
    constructor
    · intro h
      by_contra hnot
      by_cases hsome : ∃ e, AtxHeading record e
      · obtain ⟨e,hatx⟩ := hsome
        rw [hdepth e hatx] at h
        exact hnot (h ▸ hatx)
      · rw [not_exists] at hsome
        exact hplain hsome d ((headingDepth_iff hd).mp h)
    · exact hdepth d

/-- A segment of a Markdown text has the level of its heading exactly when its
record is readable without its blanks. -/
theorem headings_iff {shape : EvidenceShape} {reader : Reader} {budget : StreamBudget}
    {p : TextProduct} {s : Segment}
    (h : normalizeText .paragraph true shape reader budget = .ok p) (hs : s ∈ p.segments) :
    (∀ d, 0 < d → (s.depth = d ↔ AtxHeading (s.slice p.text) d)) ↔ Readable (s.slice p.text) := by
  obtain ⟨-,-,hsegments,-⟩ := normalizeText_ok h
  rw [hsegments] at hs
  obtain ⟨-,-,-,hdepth⟩ := segmentsOf_slice hs
  rw [Splitter.records_flatten,if_pos rfl] at hdepth
  rw [hdepth]
  exact readable_iff

theorem headings_title :
    (∀ d, 0 < d → ((⟨0,4,.lineRange 1 1,1⟩ : Segment).depth = d ↔ AtxHeading [35,32,84,10] d)) ↔
      Readable [35,32,84,10] := by
  have h : normalizeText .paragraph true .document ⟨[35,32,84,10],[]⟩ ⟨.normalize,64⟩ =
      .ok ⟨[35,32,84,10],4,[⟨0,4,.lineRange 1 1,1⟩],4,1⟩ := by decide
  exact headings_iff (s := ⟨0,4,.lineRange 1 1,1⟩) h mem_cons_self

/-- `#tag` gets the level of a heading. -/
theorem hashtag_heading : ∃ p,
    normalizeText .paragraph true .document ⟨[35,116,97,103],[]⟩ ⟨.normalize,64⟩ = .ok p ∧
    ∃ s ∈ p.segments, s.depth = 1 ∧ ¬AtxHeading (s.slice p.text) 1 := by
  refine ⟨⟨[35,116,97,103],4,[⟨0,4,.lineRange 1 1,1⟩],4,1⟩,by decide,_,mem_cons_self,rfl,?_⟩
  rintro ⟨-,-,indent,rest,hrecord,hindent,hrest⟩
  have hslice : (⟨0,4,.lineRange 1 1,1⟩ : Segment).slice [35,116,97,103] = [35,116,97,103] := rfl
  rw [hslice] at hrecord
  cases indent with
  | nil =>
    simp only [replicate_one,nil_append,cons_append,List.cons.injEq] at hrecord
    rw [← hrecord.2] at hrest
    exact absurd (hrest 116 rfl) (by decide)
  | cons b indent =>
    simp only [cons_append,List.cons.injEq] at hrecord
    have hb := hindent b mem_cons_self
    rw [← hrecord.1] at hb
    cases hb

end ProjectOS.Ingest
