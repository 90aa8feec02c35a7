import ProjectOS.Lib.Text

/-! Texts as UTF-8. -/

namespace ProjectOS.Lib
open List

def encode (text : List Char) : List UInt8 := text.flatMap String.utf8EncodeChar

def decodeUtf8 (bytes : List UInt8) : Option (List Char) :=
  (String.fromUTF8? ⟨bytes.toArray⟩).map String.toList

@[simp] theorem encode_nil : encode [] = [] := rfl

@[simp] theorem encode_cons (c : Char) (text : List Char) :
    encode (c :: text) = String.utf8EncodeChar c ++ encode text := rfl

@[simp] theorem encode_append (xs ys : List Char) : encode (xs ++ ys) = encode xs ++ encode ys := by
  simp [encode]

@[simp] theorem encode_length (text : List Char) : (encode text).length = byteLen text := by
  induction text with
  | nil => rfl
  | cons c text ih => simp [byteLen,ih]

@[simp] theorem byteLen_append (xs ys : List Char) : byteLen (xs ++ ys) = byteLen xs+byteLen ys := by
  induction xs with
  | nil => simp [byteLen]
  | cons c xs ih => simp [byteLen,ih,Nat.add_assoc]

theorem encode_toByteArray (text : List Char) : (encode text).toByteArray = text.utf8Encode := rfl

theorem toByteArray_inj {xs ys : List UInt8} : xs.toByteArray = ys.toByteArray ↔ xs = ys := by
  constructor
  · intro h
    simpa [← data_toByteArray] using congrArg (fun b => b.data.toList) h
  · rintro rfl
    rfl

variable {bytes : List UInt8}

theorem encode_prefix {xs ys : List Char} (h : encode xs ++ bytes = encode ys) :
    ∃ zs, ys = xs ++ zs ∧ bytes = encode zs := by
  have hpre : xs <+: ys := by
    refine isPrefix_of_utf8Encode_append_eq_utf8Encode bytes.toByteArray ?_
    rw [← encode_toByteArray,← encode_toByteArray,← h]
    simp
  obtain ⟨zs,rfl⟩ := hpre
  exact ⟨zs,rfl,by simpa using h⟩

theorem encode_inj {xs ys : List Char} (h : encode xs = encode ys) : xs = ys := by
  have happend : encode xs ++ [] = encode ys := by rwa [append_nil]
  obtain ⟨zs,rfl,hzs⟩ := encode_prefix happend
  cases zs with
  | nil => simp
  | cons c zs => simp [String.utf8EncodeChar_ne_nil] at hzs

variable {text : List Char}

theorem decodeUtf8_eq_some :
    decodeUtf8 bytes = some text ↔ encode text = bytes := by
  have harray : (⟨bytes.toArray⟩ : ByteArray) = bytes.toByteArray := by
    exact ByteArray.ext (by simp [data_toByteArray])
  unfold decodeUtf8 String.fromUTF8?
  rw [harray]
  constructor
  · intro h
    split_ifs at h with hvalid
    · simp only [Option.map_some,Option.some.injEq] at h
      rw [← toByteArray_inj,encode_toByteArray,← h,String.utf8Encode_toList]
      rfl
    · simp at h
  · rintro rfl
    have hvalid : (encode text).toByteArray.IsValidUTF8 := ⟨text,rfl⟩
    rw [dif_pos hvalid,Option.map_some,Option.some.injEq]
    have hencode : (String.fromUTF8 (encode text).toByteArray hvalid).toList.utf8Encode =
        text.utf8Encode := by
      rw [String.utf8Encode_toList]
      rfl
    refine encode_inj (toByteArray_inj.mp ?_)
    rw [encode_toByteArray]
    exact hencode

variable {b : UInt8}

theorem mem_utf8EncodeChar {c : Char} (hb : b.toNat < 128) :
    b ∈ String.utf8EncodeChar c ↔ c.toNat = b.toNat := by
  have hc : c.val.toNat = c.toNat := rfl
  have hbyte : ∀ n, n < 256 → (b = UInt8.ofNat n ↔ n = b.toNat) := by
    intro n hn
    rw [← UInt8.toNat_inj,UInt8.toNat_ofNat_of_lt' hn,eq_comm]
  unfold String.utf8EncodeChar
  simp only [hc]
  split_ifs with h₁ h₂ h₃
  all_goals simp only [mem_cons,not_mem_nil,or_false]
  · exact hbyte _ (by omega)
  · rw [hbyte _ (by omega),hbyte _ (by omega)]
    omega
  · rw [hbyte _ (by omega),hbyte _ (by omega),hbyte _ (by omega)]
    omega
  · rw [hbyte _ (by omega),hbyte _ (by omega),hbyte _ (by omega),hbyte _ (by omega)]
    omega

theorem mem_encode (hb : b.toNat < 128) :
    b ∈ encode text ↔ ∃ c ∈ text, c.toNat = b.toNat := by
  simp only [encode,mem_flatMap,mem_utf8EncodeChar hb]

def CharBoundary (text : List Char) (n : Nat) : Prop :=
  ∃ front back, text = front ++ back ∧ byteLen front = n

theorem CharBoundary.le {n : Nat} (h : CharBoundary text n) : n ≤ (encode text).length := by
  obtain ⟨front,back,rfl,rfl⟩ := h
  simp

theorem CharBoundary.slice {m n : Nat} (hm : CharBoundary text m) (hn : CharBoundary text n)
    (hle : m ≤ n) : ∃ part, ((encode text).drop m).take (n-m) = encode part := by
  obtain ⟨front,back,rfl,rfl⟩ := hm
  obtain ⟨front',back',htext,rfl⟩ := hn
  rcases prefix_or_prefix_of_prefix (prefix_append front back)
    (htext ▸ prefix_append front' back') with ⟨part,rfl⟩ | ⟨part,rfl⟩
  · rw [htext]
    refine ⟨part,?_⟩
    simp [← encode_length]
  · refine ⟨[],?_⟩
    rw [byteLen_append] at hle ⊢
    simp only [encode_nil,take_eq_nil_iff]
    omega

theorem charBoundary_of_ascii {n : Nat} (h : (encode text)[n]? = some b)
    (hb : b.toNat < 128) : CharBoundary text n := by
  induction text generalizing n with
  | nil => simp at h
  | cons c text ih =>
    rw [encode_cons] at h
    rcases Nat.lt_or_ge n (String.utf8EncodeChar c).length with hlt | hge
    · rw [List.getElem?_append_left hlt] at h
      have hc := (mem_utf8EncodeChar hb).mp (mem_of_getElem? h)
      have hone : (String.utf8EncodeChar c).length = 1 := by
        have hval : c.val.toNat = c.toNat := rfl
        rw [String.utf8EncodeChar,if_pos (by omega)]
        rfl
      exact ⟨[],c :: text,rfl,by simp only [byteLen]; omega⟩
    · rw [List.getElem?_append_right hge] at h
      obtain ⟨front,back,rfl,hn⟩ := ih h
      refine ⟨c :: front,back,rfl,?_⟩
      rw [String.length_utf8EncodeChar] at hge hn
      rw [byteLen,hn]
      omega

end ProjectOS.Lib
