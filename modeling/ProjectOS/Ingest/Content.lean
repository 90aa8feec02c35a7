import ProjectOS.Lib.Words
import ProjectOS.Ingest.Chunk

/-! The content of a chunk as it is hashed: its words, one blank between each two. -/

namespace ProjectOS.Ingest
open Lib List

def blank : UInt8 := 32

def normalizedContent (content : Bytes) : Bytes := collapse isAsciiWhitespace blank content

/-- The hasher has taken in the content with its blanks folded. -/
structure ContentHasher.Holds (h : ContentHasher) (content : Bytes) : Prop where
  hashed : h.hashed = ContentHasher.new.hashed ++ normalizedContent content
  content_byte_count : h.content_byte_count = (normalizedContent content).length
  started : h.started = true ↔ words isAsciiWhitespace content ≠ []
  pending_space : h.pending_space = (h.started && content.getLast?.all isAsciiWhitespace)

namespace ContentHasher

theorem new_holds : new.Holds [] where
  hashed := by simp [normalizedContent,collapse]
  content_byte_count := by simp [normalizedContent,collapse,new]
  started := by simp [new]
  pending_space := by simp [new]

section
variable {h : ContentHasher} {content : Bytes} {b : UInt8}

section
variable (held : h.Holds content)
include held

theorem Holds.take_blank (hb : isAsciiWhitespace b = true) :
    (h.take b).Holds (content ++ [b]) := by
  have hwords := words_concat_sep hb content
  have hsame : normalizedContent (content ++ [b]) = normalizedContent content := by
    rw [normalizedContent,collapse,hwords,normalizedContent,collapse]
  rw [take,if_pos hb]
  exact ⟨hsame ▸ held.hashed,hsame ▸ held.content_byte_count,hwords.symm ▸ held.started,by simp [hb]⟩

theorem Holds.take_fresh (hb : isAsciiWhitespace b = false)
    (hlast : content.getLast?.all isAsciiWhitespace = true) : (h.take b).Holds (content ++ [b]) := by
  have hwords := words_concat_fresh hb hlast
  have hpending : h.pending_space = h.started := by rw [held.pending_space,hlast,Bool.and_true]
  have hfirst : words isAsciiWhitespace content = [] →
      normalizedContent (content ++ [b]) = normalizedContent content ++ [b] := by
    intro hnone
    rw [normalizedContent,collapse,hwords,normalizedContent,collapse,hnone]
    simp
  have hnext : words isAsciiWhitespace content ≠ [] →
      normalizedContent (content ++ [b]) = normalizedContent content ++ [blank,b] := by
    intro hsome
    rw [normalizedContent,collapse,hwords,intercalate_concat _ _ hsome,append_assoc,
      normalizedContent,collapse]
    rfl
  rw [take,if_neg (by simp [hb]),hpending]
  cases hstarted : h.started with
  | true =>
    rw [if_pos rfl]
    have hnorm := hnext (held.started.mp hstarted)
    refine ⟨?_,?_,by simp [hwords],by simp [hb]⟩
    · rw [hnorm,held.hashed,append_assoc]
      rfl
    · rw [hnorm,held.content_byte_count,length_append]
      rfl
  | false =>
    rw [if_neg Bool.false_ne_true]
    have hnone : words isAsciiWhitespace content = [] := by
      by_contra hsome
      rw [held.started.mpr hsome] at hstarted
      exact Bool.noConfusion hstarted
    have hnorm := hfirst hnone
    refine ⟨?_,?_,by simp [hwords],by simp [hb]⟩
    · rw [hnorm,held.hashed,append_assoc]
    · rw [hnorm,held.content_byte_count,length_append]
      rfl

theorem Holds.take_letter (hb : isAsciiWhitespace b = false)
    (hlast : content.getLast?.all isAsciiWhitespace = false) : (h.take b).Holds (content ++ [b]) := by
  obtain ⟨d,hd,hletter⟩ : ∃ d, content.getLast? = some d ∧ isAsciiWhitespace d = false := by
    cases hget : content.getLast? with
    | none => simp [hget] at hlast
    | some d => exact ⟨d,rfl,by simpa [hget] using hlast⟩
  obtain ⟨front,word,hbefore,hafter⟩ := words_concat_letter hb hletter hd
  have hpending : h.pending_space = false := by rw [held.pending_space,hlast,Bool.and_false]
  have hnorm : normalizedContent (content ++ [b]) = normalizedContent content ++ [b] := by
    rw [normalizedContent,collapse,hafter,intercalate_concat_append,normalizedContent,collapse,hbefore]
  rw [take,if_neg (by simp [hb]),if_neg (by simp [hpending])]
  refine ⟨?_,?_,by simp [hafter],by simp [hb]⟩
  · rw [hnorm,held.hashed,append_assoc]
  · rw [hnorm,held.content_byte_count,length_append]
    rfl

theorem Holds.take (b : UInt8) : (h.take b).Holds (content ++ [b]) := by
  cases hb : isAsciiWhitespace b with
  | true => exact held.take_blank hb
  | false =>
    cases hlast : content.getLast?.all isAsciiWhitespace with
    | true => exact held.take_fresh hb hlast
    | false => exact held.take_letter hb hlast

theorem Holds.update (bytes : Bytes) :
    (h.update bytes).Holds (content ++ bytes) := by
  induction bytes generalizing h content with
  | nil => simpa [ContentHasher.update] using held
  | cons b bytes ih =>
    have hrest := ih (held.take b)
    rwa [append_assoc,singleton_append] at hrest

theorem Holds.pieces (pieces : List Bytes) :
    (pieces.foldl ContentHasher.update h).Holds (content ++ pieces.flatten) := by
  induction pieces generalizing h content with
  | nil => simpa using held
  | cons piece pieces ih =>
    have hrest := ih (held.update piece)
    rwa [append_assoc,← flatten_cons] at hrest

end

end

/-- However the content comes in pieces, its words with one blank between each two
are hashed and counted, so the same goes in for two contents just when they have
the same words. -/
theorem content_normalized (pieces : List Bytes) :
    (pieces.foldl update new).hashed = new.hashed ++ normalizedContent pieces.flatten ∧
    (pieces.foldl update new).content_byte_count = (normalizedContent pieces.flatten).length ∧
    ∀ other : List Bytes,
      (other.foldl update new).hashed = (pieces.foldl update new).hashed ↔
        words isAsciiWhitespace other.flatten = words isAsciiWhitespace pieces.flatten := by
  have hholds : ∀ content : List Bytes, (content.foldl update new).Holds content.flatten := by
    intro content
    simpa using new_holds.pieces content
  refine ⟨(hholds pieces).hashed,(hholds pieces).content_byte_count,fun other => ?_⟩
  rw [(hholds other).hashed,(hholds pieces).hashed,append_cancel_left_eq]
  exact collapse_inj (by decide)

end ContentHasher
end ProjectOS.Ingest
