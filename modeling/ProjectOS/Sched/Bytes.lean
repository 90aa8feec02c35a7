import ProjectOS.Sched.Queue

/-! The bytes that derived ids are the hash of: fields of one width, and texts
behind their length, are read back from them. -/

namespace ProjectOS.Sched

theorem byteArray_loop (a : ByteArray) (i : Nat) (acc : List UInt8) (hi : i ≤ a.size) :
    ByteArray.toList.loop a i acc = acc.reverse ++ a.data.toList.drop i := by
  induction h : a.size - i generalizing i acc with
  | zero =>
    have hend : ¬i < a.size := by omega
    have hlen : a.data.toList.length ≤ i := by
      rw [Array.length_toList]
      exact Nat.le_of_not_lt hend
    rw [ByteArray.toList.loop]
    simp [hend,List.drop_eq_nil_of_le hlen]
  | succ n ih =>
    have hlt : i < a.size := by omega
    have hlen : i < a.data.toList.length := by
      rw [Array.length_toList]
      exact hlt
    rw [ByteArray.toList.loop]
    simp only [hlt,if_true]
    rw [ih (i+1) _ (by omega) (by omega),List.drop_eq_getElem_cons hlen]
    simp only [ByteArray.get!,List.reverse_cons,List.append_assoc,List.singleton_append,
      Array.getElem_toList]
    rw [getElem!_pos]

theorem byteArray_toList (a : ByteArray) : a.toList = a.data.toList := by
  simp [ByteArray.toList,byteArray_loop a 0 [] (Nat.zero_le _)]

theorem utf8Bytes_length (s : String) : (utf8Bytes s).length = s.utf8ByteSize := by
  rw [utf8Bytes,byteArray_toList,Array.length_toList]
  rfl

theorem utf8Bytes_inj {s t : String} (h : utf8Bytes s = utf8Bytes t) : s = t := by
  simp only [utf8Bytes,byteArray_toList] at h
  exact String.toByteArray_inj.mp (ByteArray.ext (Array.ext' h))

theorem beBytes32_inj {a b : Nat} (ha : a < 2^32) (hb : b < 2^32)
    (h : beBytes32 a = beBytes32 b) : a = b := by
  simp only [beBytes32,List.cons.injEq,UInt8.ofNat_eq_iff_mod_eq_toNat,UInt8.toNat_ofNat'] at h
  omega

theorem idBytes_length {k : IdKind} (i : Id k) : (idBytes i).length = 16 := by simp [idBytes]

theorem eq_of_bytes {w a b : Nat} (ha : a < 256^w) (hb : b < 256^w)
    (h : ∀ j < w, a/256^j%256 = b/256^j%256) : a = b := by
  induction w generalizing a b with
  | zero =>
    simp only [Nat.pow_zero] at ha hb
    omega
  | succ w ih =>
    have hlow : a%256 = b%256 := by simpa using h 0 (by omega)
    have hhigh : a/256 = b/256 := by
      refine ih (by omega) (by omega) ?_
      intro j hj
      rw [Nat.div_div_eq_div_mul,Nat.div_div_eq_div_mul,← Nat.pow_succ']
      exact h (j+1) (by omega)
    omega

theorem idBytes_inj {k : IdKind} {i j : Id k} (h : idBytes i = idBytes j) : i = j := by
  apply Id.num_injective
  refine eq_of_bytes (w := 16) i.bits.isLt j.bits.isLt ?_
  intro n hn
  have hbyte := congrArg (fun bytes => bytes[15-n]?) h
  simp only [idBytes,List.getElem?_map,List.getElem?_range (show 15-n < 16 by omega),
    Option.map_some,Option.some.injEq,UInt8.ofNat_eq_iff_mod_eq_toNat,UInt8.toNat_ofNat'] at hbyte
  have hpow : 2^(8*(15-(15-n))) = 256^n := by
    rw [show 15-(15-n) = n by omega,Nat.pow_mul]
  rw [hpow] at hbyte
  exact hbyte

theorem lengthPrefixed_inj {s t : String} {xs ys : Bytes} (hs : s.utf8ByteSize < u32Max)
    (ht : t.utf8ByteSize < u32Max)
    (h : beBytes32 (min s.utf8ByteSize u32Max) ++ (utf8Bytes s ++ xs) =
      beBytes32 (min t.utf8ByteSize u32Max) ++ (utf8Bytes t ++ ys)) : s = t ∧ xs = ys := by
  obtain ⟨hlen,hrest⟩ := List.append_inj h rfl
  rw [Nat.min_eq_left (Nat.le_of_lt hs),Nat.min_eq_left (Nat.le_of_lt ht)] at hlen
  simp only [u32Max] at hs ht
  have hsize := beBytes32_inj (by omega) (by omega) hlen
  obtain ⟨htext,hxs⟩ := List.append_inj hrest (by rw [utf8Bytes_length,utf8Bytes_length,hsize])
  exact ⟨utf8Bytes_inj htext,hxs⟩

end ProjectOS.Sched
