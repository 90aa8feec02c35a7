import Mathlib.Data.List.Basic
import Mathlib.Tactic.Ring

/-! Codes whose words are told apart inside a longer stream: of one width, behind
their length, behind a tag, or up to the first letter of another class. -/

namespace ProjectOS.Lib
open List

section
variable {α β γ δ : Type}

/-- A text begins with the code of one value at most. -/
def Delimits (P : α → Prop) (code : α → List γ) : Prop :=
  ∀ a b x y, P a → P b → code a ++ x = code b ++ y → a = b ∧ x = y

namespace Delimits
variable {P : α → Prop} {code : α → List γ}

theorem of_width (w : Nat) (hw : ∀ a, P a → (code a).length = w)
    (hi : ∀ a b, P a → P b → code a = code b → a = b) : Delimits P code := by
  intro a b x y ha hb he
  have hlen : (code a).length = (code b).length := by simp [hw a ha,hw b hb]
  obtain ⟨hcode,hrest⟩ := append_inj he hlen
  exact ⟨hi a b ha hb hcode,hrest⟩

section
variable (h : Delimits P code)
include h

theorem comap {Q : β → Prop} {f : β → α} (hf : ∀ b, Q b → P (f b))
    (hi : ∀ a b, Q a → Q b → f a = f b → a = b) : Delimits Q (fun b => code (f b)) := by
  intro a b x y ha hb he
  obtain ⟨hab,hxy⟩ := h (f a) (f b) x y (hf a ha) (hf b hb) he
  exact ⟨hi a b ha hb hab,hxy⟩

theorem bind {Q : α → β → Prop} {tail : α → β → List γ} (ht : ∀ a, P a → Delimits (Q a) (tail a)) :
    Delimits (fun p : α × β => P p.1 ∧ Q p.1 p.2) (fun p => code p.1 ++ tail p.1 p.2) := by
  rintro ⟨a,b⟩ ⟨c,d⟩ x y ⟨ha,hb⟩ ⟨hc,hd⟩ he
  simp only [append_assoc] at he
  obtain ⟨hac,hrest⟩ := h a c _ _ ha hc he
  subst hac
  obtain ⟨hbd,hxy⟩ := ht a ha b d x y hb hd hrest
  exact ⟨by rw [hbd],hxy⟩

theorem lists (n : Nat) :
    Delimits (fun as : List α => as.length = n ∧ ∀ a ∈ as, P a) (fun as => as.flatMap code) := by
  induction n with
  | zero =>
    rintro as bs x y ⟨ha,-⟩ ⟨hb,-⟩ he
    simp_all
  | succ n ih =>
    rintro as bs x y ⟨ha,hpa⟩ ⟨hb,hpb⟩ he
    obtain ⟨a,as,rfl⟩ := exists_cons_of_length_eq_add_one ha
    obtain ⟨b,bs,rfl⟩ := exists_cons_of_length_eq_add_one hb
    simp only [flatMap_cons,append_assoc] at he
    obtain ⟨hab,hrest⟩ := h a b _ _ (hpa a (by simp)) (hpb b (by simp)) he
    obtain ⟨hlist,hxy⟩ := ih as bs x y
      ⟨by simpa using ha,fun c hc => hpa c (by simp [hc])⟩
      ⟨by simpa using hb,fun c hc => hpb c (by simp [hc])⟩ hrest
    simp [hab,hlist,hxy]

theorem flatMap_injective (hne : ∀ a, P a → code a ≠ []) {as bs : List α}
    (ha : ∀ a ∈ as, P a) (hb : ∀ b ∈ bs, P b) (he : as.flatMap code = bs.flatMap code) :
    as = bs := by
  induction as generalizing bs with
  | nil =>
    cases bs with
    | nil => rfl
    | cons b bs => simp_all
  | cons a as ih =>
    cases bs with
    | nil => simp_all
    | cons b bs =>
      simp only [flatMap_cons] at he
      obtain ⟨hab,hrest⟩ := h a b _ _ (ha a (by simp)) (hb b (by simp)) he
      rw [hab,ih (fun c hc => ha c (by simp [hc])) (fun c hc => hb c (by simp [hc])) hrest]

end

end Delimits

theorem span_inj {p : γ → Bool} {u v x y : List γ} (hu : ∀ c ∈ u, p c) (hv : ∀ c ∈ v, p c)
    (hx : ∀ c ∈ x.head?, ¬p c) (hy : ∀ c ∈ y.head?, ¬p c) (h : u ++ x = v ++ y) :
    u = v ∧ x = y := by
  induction u generalizing v with
  | nil =>
    cases v with
    | nil => simpa using h
    | cons d v =>
      simp only [nil_append] at h
      subst h
      exact absurd (hv d (by simp)) (hx d (by simp))
  | cons c u ih =>
    cases v with
    | nil =>
      simp only [nil_append] at h
      subst h
      exact absurd (hu c (by simp)) (hy c (by simp))
    | cons d v =>
      simp only [cons_append,List.cons.injEq] at h
      obtain ⟨huv,hxy⟩ := ih (fun c hc => hu c (by simp [hc])) (fun c hc => hv c (by simp [hc])) h.2
      simp [h.1,huv,hxy]

end

def beBytes : Nat → Nat → List UInt8
  | 0, _ => []
  | w+1, n => beBytes w (n/256) ++ [UInt8.ofNat n]

@[simp] theorem beBytes_length (w n : Nat) : (beBytes w n).length = w := by
  induction w generalizing n with
  | zero => simp [beBytes]
  | succ w ih => simp [beBytes,ih]

theorem beBytes_inj {w a b : Nat} (ha : a < 256^w) (hb : b < 256^w)
    (h : beBytes w a = beBytes w b) : a = b := by
  induction w generalizing a b with
  | zero => simp at ha hb; omega
  | succ w ih =>
    simp only [beBytes] at h
    obtain ⟨hhigh,hlow⟩ := append_inj h (by simp)
    have hquot : a/256 = b/256 := by
      rw [Nat.pow_succ] at ha hb
      exact ih (by omega) (by omega) hhigh
    simp only [List.cons.injEq,and_true,UInt8.ofNat_eq_iff_mod_eq_toNat,UInt8.toNat_ofNat'] at hlow
    omega

theorem beBytes_delimits (w : Nat) : Delimits (fun n => n < 256^w) (beBytes w) :=
  .of_width w (fun n _ => beBytes_length w n) (fun _ _ ha hb h => beBytes_inj ha hb h)

def framed (w : Nat) (b : List UInt8) : List UInt8 := beBytes w b.length ++ b

theorem framed_delimits (w : Nat) : Delimits (fun b => b.length < 256^w) (framed w) := by
  have hpair : Delimits (fun p : Nat × List UInt8 => p.1 < 256^w ∧ p.2.length = p.1)
      (fun p => beBytes w p.1 ++ p.2) :=
    (beBytes_delimits w).bind (fun n _ => .of_width n (fun _ h => h) (fun _ _ _ _ h => h))
  exact hpair.comap (f := fun b : List UInt8 => (b.length,b)) (fun b hb => ⟨hb,rfl⟩)
    (fun a b _ _ h => (Prod.mk.inj h).2)

end ProjectOS.Lib
