import ProjectOS.Lib.Words
import ProjectOS.Gateway.Counts

/-! Where the words of a text end: at blanks, but not at a form feed, which the
tokenizer drops. -/

namespace ProjectOS.Gateway
open Lib List

def isWordChar (c : Char) : Bool := !(c == ' ' || isPunctuation c || isCjk c)

def endsInWord (text : List Char) : Bool := text.getLast?.any isWordChar
def startsInWord (text : List Char) : Bool := text.head?.any isWordChar

theorem pushWord_append (before words : List (List Char)) (current : List Char) :
    pushWord (before ++ words) current = before ++ pushWord words current := by
  rw [pushWord,pushWord]
  split_ifs
  · rfl
  · rw [append_assoc]

theorem splitStep_append (before words : List (List Char)) (current : List Char) (c : Char) :
    splitStep (before ++ words,current) c =
      (before ++ (splitStep (words,current) c).1,(splitStep (words,current) c).2) := by
  rw [splitStep,splitStep]
  split_ifs
  · rw [pushWord_append]
  · rw [pushWord_append,append_assoc]
  · rfl

theorem foldl_splitStep (text : List Char) (before words : List (List Char)) (current : List Char) :
    text.foldl splitStep (before ++ words,current) =
      (before ++ (text.foldl splitStep (words,current)).1,
        (text.foldl splitStep (words,current)).2) := by
  induction text generalizing words current with
  | nil => rfl
  | cons c text ih =>
    rw [foldl_cons,foldl_cons,splitStep_append,ih]

def splitFrom (current text : List Char) : List (List Char) :=
  let s := text.foldl splitStep ([],current)
  pushWord s.1 s.2

theorem splitWords_append (front back : List Char) :
    splitWords (front ++ back) =
      (front.foldl splitStep ([],[])).1 ++ splitFrom (front.foldl splitStep ([],[])).2 back := by
  rw [splitWords,splitFrom]
  simp only [foldl_append]
  have hfold := foldl_splitStep back (front.foldl splitStep ([],[])).1 []
    (front.foldl splitStep ([],[])).2
  rw [append_nil,Prod.mk.eta] at hfold
  rw [hfold,pushWord_append]

theorem splitFrom_cons (current text : List Char) (c : Char) :
    splitFrom current (c :: text) =
      (splitStep ([],current) c).1 ++ splitFrom (splitStep ([],current) c).2 text := by
  rw [splitFrom,splitFrom]
  simp only [foldl_cons]
  have hfold := foldl_splitStep text (splitStep ([],current) c).1 [] (splitStep ([],current) c).2
  rw [append_nil,Prod.mk.eta] at hfold
  rw [hfold,pushWord_append]

variable {text front : List Char}

theorem splitFrom_stops (h : startsInWord text = false) (current : List Char) :
    splitFrom current text = pushWord [] current ++ splitWords text := by
  have hsplit : splitWords text = splitFrom [] text := rfl
  cases text with
  | nil => exact (append_nil _).symm
  | cons c text =>
    rw [hsplit,splitFrom_cons,splitFrom_cons,← append_assoc]
    simp only [startsInWord,List.head?_cons,Option.any_some,isWordChar,Bool.not_eq_false',
      Bool.or_eq_true,beq_iff_eq] at h
    rw [splitStep,splitStep]
    split_ifs with hblank hmark
    · simp [pushWord]
    · simp [pushWord]
    · rw [Bool.or_eq_true,not_or] at hmark
      exact absurd h (by simp [hblank,hmark])

theorem splitFrom_length {current other : List Char} (hcurrent : current ≠ []) (hother : other ≠ [])
    (text : List Char) : (splitFrom current text).length = (splitFrom other text).length := by
  induction text generalizing current other with
  | nil => simp [splitFrom,pushWord,hcurrent,hother]
  | cons c text ih =>
    rw [splitFrom_cons,splitFrom_cons,splitStep,splitStep]
    split_ifs
    · simp [pushWord,hcurrent,hother]
    · simp [pushWord,hcurrent,hother]
    · exact ih (by simp) (by simp)

theorem current_nil_iff (text : List Char) :
    (text.foldl splitStep ([],[])).2 = [] ↔ endsInWord text = false := by
  induction text using List.reverseRecOn with
  | nil => simp [endsInWord]
  | append_singleton text c =>
    rw [foldl_append,foldl_cons,foldl_nil,splitStep,endsInWord]
    simp only [List.getLast?_append,List.getLast?_singleton,Option.some_or,Option.any_some,isWordChar]
    split_ifs with hblank hmark
    · simp [hblank]
    · rw [Bool.or_assoc,hmark]
      simp
    · rw [Bool.or_assoc,Bool.eq_false_of_not_eq_true hmark]
      simp [hblank]

theorem splitWords_apart {back : List Char} (h : (endsInWord front && startsInWord back) = false) :
    splitWords (front ++ back) = splitWords front ++ splitWords back := by
  have hfront : splitWords front = (front.foldl splitStep ([],[])).1 ++
      pushWord [] (front.foldl splitStep ([],[])).2 := by
    rw [← pushWord_append,append_nil,splitWords]
  rw [splitWords_append,hfront,append_assoc]
  cases hends : endsInWord front with
  | false =>
    rw [(current_nil_iff front).mpr hends]
    rfl
  | true =>
    rw [hends,Bool.true_and] at h
    rw [splitFrom_stops h]

theorem splitWords_joined {back : List Char} (h : (endsInWord front && startsInWord back) = true) :
    (splitWords (front ++ back)).length+1 = (splitWords front).length+(splitWords back).length := by
  obtain ⟨hends,hstarts⟩ := Bool.and_eq_true_iff.mp h
  have hcurrent : (front.foldl splitStep ([],[])).2 ≠ [] := by
    rw [Ne,current_nil_iff,hends]
    simp
  cases back with
  | nil => cases hstarts
  | cons c back =>
    have hletter : isWordChar c = true := hstarts
    have hstep : ∀ current, splitStep ([],current) c = ([],current ++ [c]) := by
      intro current
      simp only [isWordChar,Bool.not_eq_true',Bool.or_eq_false_iff,beq_eq_false_iff_ne] at hletter
      rw [splitStep,if_neg hletter.1.1,if_neg (by simp [hletter.1.2,hletter.2])]
    have hback : splitWords (c :: back) = splitFrom [c] back := by
      rw [show splitWords (c :: back) = splitFrom [] (c :: back) from rfl,splitFrom_cons,hstep]
      rfl
    rw [splitWords_append,splitFrom_cons,hstep,hback,splitWords,pushWord,if_neg hcurrent]
    simp only [nil_append,length_append,length_singleton]
    rw [splitFrom_length (append_ne_nil_of_right_ne_nil _ (by simp)) (show [c] ≠ [] by simp) back]
    omega

def isAsciiBlank (c : Char) : Bool :=
  c == ' ' || c == '\t' || c == '\n' || c == '\x0c' || c == '\r'

variable {t : UnicodeTables}

theorem normalize_append (t : UnicodeTables) (front back : List Char) :
    normalize t (front ++ back) = normalize t front ++ normalize t back := flatMap_append

variable {c : Char}

theorem normalizeChar_blank (h : isAsciiBlank c = true) :
    normalizeChar t c = if c = '\x0c' then [] else [' '] := by
  simp only [isAsciiBlank,Bool.or_eq_true,beq_iff_eq] at h
  rcases h with (((rfl | rfl) | rfl) | rfl) | rfl
  · rw [normalizeChar,if_neg (by decide),if_neg (by decide),if_pos (by decide),if_neg (by decide)]
  · rw [normalizeChar,if_pos (by decide),if_neg (by decide)]
  · rw [normalizeChar,if_pos (by decide),if_neg (by decide)]
  · rw [normalizeChar,if_neg (by decide),if_pos (by decide),if_pos rfl]
  · rw [normalizeChar,if_pos (by decide),if_neg (by decide)]

def Joined (t : UnicodeTables) (front back : List Char) : Bool :=
  endsInWord (normalize t front) && startsInWord (normalize t back)

def Unglued (t : UnicodeTables) (text : List Char) : Prop :=
  ∀ front back, text = front ++ '\x0c' :: back → Joined t front back = false

theorem preTokenize_feed (t : UnicodeTables) (front back : List Char) :
    preTokenize t (front ++ '\x0c' :: back) = splitWords (normalize t front ++ normalize t back) := by
  rw [preTokenize,normalize_append,normalize,normalize,flatMap_cons,
    normalizeChar_blank (by decide),if_pos rfl]
  rfl

theorem preTokenize_blank (hc : isAsciiBlank c = true) (hfeed : c ≠ '\x0c')
    (front back : List Char) :
    preTokenize t (front ++ c :: back) = preTokenize t front ++ preTokenize t back := by
  have hblank : splitWords (' ' :: normalize t back) = splitWords (normalize t back) := rfl
  rw [preTokenize,normalize_append,normalize,normalize,flatMap_cons,normalizeChar_blank hc,
    if_neg hfeed,singleton_append,splitWords_apart (by simp [startsInWord,isWordChar])]
  exact congrArg _ hblank

def spacedWords (t : UnicodeTables) (text : List Char) : List (List Char) :=
  (words isAsciiBlank text).flatMap (preTokenize t)

theorem spacedWords_append (hc : isAsciiBlank c = true) (front back : List Char) :
    spacedWords t (front ++ c :: back) = spacedWords t front ++ spacedWords t back := by
  rw [spacedWords,words_append_cons hc,flatMap_append]
  rfl

theorem spacedWords_free (h : ∀ c ∈ text, isAsciiBlank c = false) :
    spacedWords t text = preTokenize t text := by
  rw [spacedWords]
  by_cases hne : text = []
  · subst hne
    rfl
  · rw [words_word h hne,flatMap_cons,flatMap_nil,append_nil]

theorem Unglued.back {back : List Char} (h : Unglued t (front ++ c :: back)) :
    Unglued t back := by
  intro first rest hsplit
  have hwhole := h (front ++ c :: first) rest (by rw [hsplit]; simp)
  rw [Joined,Bool.and_eq_false_iff] at hwhole ⊢
  refine hwhole.imp_left fun hends => ?_
  rw [show front ++ c :: first = (front ++ [c]) ++ first by simp,normalize_append,endsInWord,
    List.getLast?_append] at hends
  rw [endsInWord]
  cases hlast : (normalize t first).getLast? with
  | none => rfl
  | some d => simpa [hlast] using hends

theorem Unglued.preTokenize_eq (h : Unglued t text) :
    preTokenize t text = spacedWords t text := by
  induction text using separated_induction (p := isAsciiBlank) with
  | hfree text hfree => exact (spacedWords_free hfree).symm
  | hsep front c back hfree hc ih =>
    rw [spacedWords_append hc,spacedWords_free hfree,← ih h.back]
    by_cases hfeed : c = '\x0c'
    · subst hfeed
      rw [preTokenize_feed]
      exact splitWords_apart (h front back rfl)
    · exact preTokenize_blank hc hfeed front back

theorem preTokenize_length_le (t : UnicodeTables) (text : List Char) :
    (preTokenize t text).length ≤ (spacedWords t text).length := by
  induction text using separated_induction (p := isAsciiBlank) with
  | hfree text hfree => rw [spacedWords_free hfree]
  | hsep front c back hfree hc ih =>
    rw [spacedWords_append hc,spacedWords_free hfree,length_append]
    by_cases hfeed : c = '\x0c'
    · subst hfeed
      rw [preTokenize_feed]
      have happend : (splitWords (normalize t front ++ normalize t back)).length ≤
          (preTokenize t front).length+(preTokenize t back).length := by
        cases hjoined : Joined t front back with
        | false =>
          rw [splitWords_apart hjoined,length_append]
          exact Nat.le_refl _
        | true =>
          have hone := splitWords_joined hjoined
          rw [preTokenize,preTokenize]
          omega
      omega
    · rw [preTokenize_blank hc hfeed,length_append]
      omega

theorem preTokenize_length_lt (h : ¬Unglued t text) :
    (preTokenize t text).length < (spacedWords t text).length := by
  rw [Unglued] at h
  push Not at h
  obtain ⟨front,back,rfl,hjoined⟩ := h
  have hone := splitWords_joined (Bool.eq_true_of_not_eq_false hjoined)
  have hfront := preTokenize_length_le t front
  have hback := preTokenize_length_le t back
  rw [preTokenize] at hfront hback
  rw [preTokenize_feed,spacedWords_append (by decide),length_append]
  omega

theorem unglued_of_no_feed (h : '\x0c' ∉ text) : Unglued t text := by
  rintro front back rfl
  exact absurd (by simp) h

end ProjectOS.Gateway
