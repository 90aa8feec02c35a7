import Mathlib.Data.List.Basic

/-! A stream that comes in pieces and is passed on. A reader turns its letters into
items and may break down; the items of a piece are handed on when the piece has been
read, until the listener hangs up. -/

namespace ProjectOS.Lib.Relay
open List

section Reading
variable {α β δ ε : Type} (read : δ → α → Except ε (δ × Option β))

def feed (d : δ) : List α → List β × Except ε δ
  | [] => ([],.ok d)
  | a :: piece =>
    match read d a with
    | .error e => ([],.error e)
    | .ok (d',item) => (item.toList ++ (feed d' piece).1,(feed d' piece).2)

@[simp] theorem feed_nil (d : δ) : feed read d [] = ([],.ok d) := rfl

variable {read}

theorem feed_append_ok {d d' : δ} {xs : List α} {items : List β}
    (h : feed read d xs = (items,.ok d')) (ys : List α) :
    feed read d (xs ++ ys) = (items ++ (feed read d' ys).1,(feed read d' ys).2) := by
  induction xs generalizing d items with
  | nil => cases h; rfl
  | cons a xs ih =>
    rw [feed] at h
    rw [cons_append,feed]
    cases hread : read d a with
    | error e => rw [hread] at h; cases h
    | ok next =>
      obtain ⟨next,item⟩ := next
      simp only [hread,Prod.mk.injEq] at h ⊢
      rw [ih (Prod.ext rfl h.2),← h.1,append_assoc]
      exact ⟨rfl,rfl⟩

theorem feed_append_error {d : δ} {xs : List α} {items : List β} {e : ε}
    (h : feed read d xs = (items,.error e)) (ys : List α) :
    feed read d (xs ++ ys) = (items,.error e) := by
  induction xs generalizing d items with
  | nil => cases h
  | cons a xs ih =>
    rw [feed] at h
    rw [cons_append,feed]
    cases hread : read d a with
    | error e' => simp only [hread] at h ⊢; exact h
    | ok next =>
      obtain ⟨next,item⟩ := next
      simp only [hread,Prod.mk.injEq] at h ⊢
      rw [ih (Prod.ext rfl h.2)]
      exact ⟨h.1,rfl⟩

variable (read) in
def feeds (d : δ) : List (List α) → List β × Except ε δ
  | [] => ([],.ok d)
  | piece :: pieces =>
    match feed read d piece with
    | (items,.error e) => (items,.error e)
    | (items,.ok d') => (items ++ (feeds d' pieces).1,(feeds d' pieces).2)

theorem feeds_flatten (d : δ) (pieces : List (List α)) :
    feeds read d pieces = feed read d pieces.flatten := by
  induction pieces generalizing d with
  | nil => rfl
  | cons piece pieces ih =>
    rw [flatten_cons,feeds]
    rcases hfeed : feed read d piece with ⟨items,outcome⟩
    cases outcome with
    | error e => exact (feed_append_error hfeed _).symm
    | ok d' =>
      rw [feed_append_ok hfeed]
      simp only [ih]

end Reading

section Telling
variable {τ β ι : Type}

structure Post (τ ι : Type) where
  notes : τ
  heard : List ι
  closed : Bool

abbrev Listener (ι : Type) := List ι → ι → Bool

namespace Post
variable (listener : Listener ι)

def send (p : Post τ ι) (i : ι) : Post τ ι :=
  { p with heard := p.heard ++ [i], closed := p.closed || !listener p.heard i }

end Post

def takes (listener : Listener ι) : List ι → List ι → Bool
  | _, [] => true
  | heard, i :: rest => listener heard i && takes listener (heard ++ [i]) rest

def HungUp (listener : Listener ι) (heard : List ι) : Prop :=
  ∃ before i, before ++ [i] <+: heard ∧ listener before i = false

variable (listener : Listener ι)

theorem foldl_send (p : Post τ ι) (said : List ι) :
    said.foldl (Post.send listener) p =
      ⟨p.notes,p.heard ++ said,p.closed || !takes listener p.heard said⟩ := by
  induction said generalizing p with
  | nil => simp [takes]
  | cons i said ih => simp [ih,Post.send,takes,Bool.or_assoc]

theorem takes_append (heard xs ys : List ι) :
    takes listener heard (xs ++ ys) =
      (takes listener heard xs && takes listener (heard ++ xs) ys) := by
  induction xs generalizing heard with
  | nil => simp [takes]
  | cons i xs ih => simp [takes,ih,Bool.and_assoc]

theorem takes_iff {heard said : List ι} :
    takes listener heard said = true ↔
      ∀ before i, before ++ [i] <+: said → listener (heard ++ before) i = true := by
  induction said generalizing heard with
  | nil => simp [takes]
  | cons j said ih =>
    rw [takes,Bool.and_eq_true,ih]
    constructor
    · rintro ⟨hj,hrest⟩ before i hpre
      cases before with
      | nil =>
        obtain rfl : i = j := by simpa using hpre
        simpa using hj
      | cons b before =>
        rw [cons_append,cons_prefix_cons] at hpre
        obtain ⟨rfl,hpre⟩ := hpre
        simpa using hrest before i hpre
    · intro h
      refine ⟨by simpa using h [] j (by simp),fun before i hpre => ?_⟩
      simpa using h (j :: before) i (by simpa using hpre)

theorem takes_eq_false_iff {said : List ι} :
    takes listener [] said = false ↔ HungUp listener said := by
  rw [← Bool.not_eq_true,takes_iff,HungUp]
  push Not
  simp

theorem HungUp.ne_nil {heard : List ι} (h : HungUp listener heard) : heard ≠ [] := by
  obtain ⟨before,i,hpre,-⟩ := h
  rintro rfl
  simp at hpre

end Telling

structure Codec (τ β ι : Type) where
  note : τ → β → τ
  tells : τ → β → List ι

namespace Codec
variable {τ β ι : Type} (C : Codec τ β ι)

def notes (t : τ) (items : List β) : τ := items.foldl C.note t

def transcript : τ → List β → List ι
  | _, [] => []
  | t, b :: items => C.tells t b ++ transcript (C.note t b) items

def handle (listener : Listener ι) (p : Post τ ι) (b : β) : Post τ ι :=
  { (C.tells p.notes b).foldl (Post.send listener) p with notes := C.note p.notes b }

@[simp] theorem notes_nil (t : τ) : C.notes t [] = t := rfl

@[simp] theorem notes_cons (t : τ) (b : β) (items : List β) :
    C.notes t (b :: items) = C.notes (C.note t b) items := rfl

theorem notes_append (t : τ) (xs ys : List β) :
    C.notes t (xs ++ ys) = C.notes (C.notes t xs) ys := foldl_append ..

theorem transcript_append (t : τ) (xs ys : List β) :
    C.transcript t (xs ++ ys) = C.transcript t xs ++ C.transcript (C.notes t xs) ys := by
  induction xs generalizing t with
  | nil => rfl
  | cons b xs ih => simp [transcript,ih]

theorem handle_eq (listener : Listener ι) (p : Post τ ι) (b : β) :
    C.handle listener p b = ⟨C.note p.notes b,p.heard ++ C.tells p.notes b,
      p.closed || !takes listener p.heard (C.tells p.notes b)⟩ := by
  rw [handle,foldl_send]

end Codec

section Running
variable {α β δ ε τ ι : Type}

def drain (take : Post τ ι → β → Post τ ι) : Post τ ι → List β → Post τ ι × Bool
  | p, [] => (p,false)
  | p, b :: items => if (take p b).closed then (take p b,true) else drain take (take p b) items

variable (read : δ → α → Except ε (δ × Option β)) (take : Post τ ι → β → Post τ ι)
  (broken : τ → τ)

/-- One piece: it is read whole before an item is handed on, and with a breakdown
none is. The flag says no more is wanted. -/
def piece (d : δ) (p : Post τ ι) (letters : List α) : δ × Post τ ι × Bool :=
  match feed read d letters with
  | (_,.error _) => (d,{ p with notes := broken p.notes },true)
  | (items,.ok d') => (d',drain take p items)

def run : δ → Post τ ι → List (List α) → Post τ ι × Bool
  | _, p, [] => (p,false)
  | d, p, letters :: pieces =>
    match piece read take broken d p letters with
    | (_,p',true) => (p',true)
    | (d',p',false) => run d' p' pieces

def breakOff (r : Post τ ι × Bool) : Post τ ι × Bool :=
  if r.2 then r else ({ r.1 with notes := broken r.1.notes },true)

variable {read take broken}

theorem drain_append (p : Post τ ι) (xs ys : List β) :
    drain take p (xs ++ ys) =
      if (drain take p xs).2 then drain take p xs else drain take (drain take p xs).1 ys := by
  induction xs generalizing p with
  | nil => rfl
  | cons b xs ih =>
    simp only [cons_append,drain]
    split
    · rfl
    · exact ih _

variable {p : Post τ ι} {items : List β}

theorem run_whole {d d' : δ} {pieces : List (List α)}
    (h : feed read d pieces.flatten = (items,.ok d')) :
    run read take broken d p pieces = drain take p items := by
  induction pieces generalizing d p items with
  | nil => cases h; rfl
  | cons letters pieces ih =>
    rw [flatten_cons] at h
    rw [run,piece]
    cases hfeed : feed read d letters with
    | mk now next =>
      cases next with
      | error e => rw [feed_append_error hfeed] at h; cases h
      | ok next =>
        rw [feed_append_ok hfeed,Prod.mk.injEq] at h
        simp only
        rw [← h.1,drain_append]
        rcases hdrain : drain take p now with ⟨p',_ | _⟩
        · exact ih (Prod.ext rfl h.2)
        · rfl

theorem run_broken {d : δ} {p : Post τ ι} {pieces : List (List α)} {items : List β} {e : ε}
    (h : feed read d pieces.flatten = (items,.error e)) :
    ∃ n, run read take broken d p pieces = breakOff broken (drain take p (items.take n)) := by
  induction pieces generalizing d p items with
  | nil => cases h
  | cons letters pieces ih =>
    rw [flatten_cons] at h
    rw [run,piece]
    cases hfeed : feed read d letters with
    | mk now next =>
      cases next with
      | error e => exact ⟨0,rfl⟩
      | ok next =>
        rw [feed_append_ok hfeed,Prod.mk.injEq] at h
        rcases hdrain : drain take p now with ⟨p',_ | _⟩
        · obtain ⟨n,hn⟩ := ih (p := p') (Prod.ext rfl h.2)
          refine ⟨now.length+n,?_⟩
          rw [← h.1,take_length_add_append,drain_append]
          simpa only [hdrain,Bool.false_eq_true,if_false] using hn
        · refine ⟨now.length,?_⟩
          rw [← h.1,take_left]
          simp only [hdrain,breakOff,if_true]

variable {letters : List α} {e : ε}

theorem run_one {d : δ} (h : feed read d letters = (items,.error e)) :
    run read take broken d p [letters] = breakOff broken (p,false) := by
  rw [run,piece,h]
  rfl

theorem run_letters {d : δ} (h : feed read d letters = (items,.error e)) :
    run read take broken d p (letters.map fun a => [a]) =
      breakOff broken (drain take p items) := by
  induction letters generalizing d p items with
  | nil => cases h
  | cons a letters ih =>
    rw [feed] at h
    rw [map_cons,run,piece,feed]
    cases hread : read d a with
    | error e' =>
      rw [hread] at h
      cases h
      rfl
    | ok next =>
      obtain ⟨d',item⟩ := next
      simp only [hread,Prod.mk.injEq,feed_nil,append_nil] at h ⊢
      rw [← h.1,drain_append]
      rcases hdrain : drain take p item.toList with ⟨p',_ | _⟩
      · exact ih (Prod.ext rfl h.2)
      · rfl

end Running

section Handed
variable {τ β ι : Type} {C : Codec τ β ι} {listener : Listener ι} {p : Post τ ι} {items : List β}

theorem drain_taken (hopen : p.closed = false)
    (h : takes listener p.heard (C.transcript p.notes items) = true) :
    drain (C.handle listener) p items =
      (⟨C.notes p.notes items,p.heard ++ C.transcript p.notes items,false⟩,false) := by
  induction items generalizing p with
  | nil =>
    obtain ⟨notes,heard,closed⟩ := p
    cases hopen
    simp [drain,Codec.transcript]
  | cons b items ih =>
    rw [Codec.transcript,takes_append,Bool.and_eq_true] at h
    have hstep : (C.handle listener p b).closed = false := by simp [C.handle_eq,hopen,h.1]
    rw [drain,hstep,if_neg Bool.false_ne_true,
      ih hstep (by simpa [C.handle_eq] using h.2)]
    simp [C.handle_eq,Codec.transcript]

theorem drain_refused (hopen : p.closed = false)
    (h : takes listener p.heard (C.transcript p.notes items) = false) :
    (drain (C.handle listener) p items).2 = true ∧
      ∃ said, said <+: C.transcript p.notes items ∧ takes listener p.heard said = false ∧
        (drain (C.handle listener) p items).1.heard = p.heard ++ said := by
  induction items generalizing p with
  | nil => cases h
  | cons b items ih =>
    rw [Codec.transcript,takes_append,Bool.and_eq_false_iff] at h
    rw [drain,Codec.transcript]
    cases hstep : (C.handle listener p b).closed with
    | true =>
      refine ⟨rfl,C.tells p.notes b,prefix_append ..,?_,by simp [C.handle_eq]⟩
      simpa [C.handle_eq,hopen] using hstep
    | false =>
      have htaken : takes listener p.heard (C.tells p.notes b) = true := by
        simpa [C.handle_eq,hopen] using hstep
      obtain ⟨hstop,said,hpre,hnot,hheard⟩ := ih hstep
        (by simpa [C.handle_eq] using h.resolve_left (by simp [htaken]))
      refine ⟨hstop,C.tells p.notes b ++ said,(prefix_append_right_inj _).mpr
        (by simpa [C.handle_eq] using hpre),?_,?_⟩
      · simpa [C.handle_eq,takes_append,htaken] using hnot
      · simpa [C.handle_eq] using hheard

variable (listener) in
theorem drain_cases (C : Codec τ β ι) (notes : τ) (items : List β) :
    (takes listener [] (C.transcript notes items) = true ∧
        drain (C.handle listener) ⟨notes,[],false⟩ items =
          (⟨C.notes notes items,C.transcript notes items,false⟩,false)) ∨
      (takes listener [] (C.transcript notes items) = false ∧
        (drain (C.handle listener) ⟨notes,[],false⟩ items).2 = true ∧
        HungUp listener (drain (C.handle listener) ⟨notes,[],false⟩ items).1.heard) := by
  cases h : takes listener [] (C.transcript notes items) with
  | true => exact .inl ⟨rfl,drain_taken (p := ⟨notes,[],false⟩) rfl h⟩
  | false =>
    obtain ⟨hstop,said,-,hsaid,hheard⟩ := drain_refused (p := ⟨notes,[],false⟩) rfl h
    rw [nil_append] at hheard
    exact .inr ⟨rfl,hstop,hheard ▸ (takes_eq_false_iff listener).mp hsaid⟩

end Handed
end ProjectOS.Lib.Relay
