import Stronk.ByteOrder
import Stronk.Leb128
import Stronk.McprCrypto

/-! The text of a digest as the session server has it: the digest is a signed number of 160 bits,
and the text is that number in hexadecimal. -/
namespace Stronk.Mcpr
open ByteParser

section Hex

/-- A number in hexadecimal, without leading zeros. -/
def hexNumber (n : ℕ) : List UInt8 :=
  if n = 0 then [lowerHexDigit 0] else (Nat.digits 16 n).reverse.map lowerHexDigit

/-- An integer in hexadecimal. -/
def hexText (v : ℤ) : List UInt8 := (if v < 0 then ascii "-" else []) ++ hexNumber v.natAbs

/-- The digits of bytes, two for each. -/
def nibbles (bs : List UInt8) : List ℕ := bs.flatMap fun b => [b.toNat/16, b.toNat%16]

theorem nibbles_length (bs : List UInt8) : (nibbles bs).length = 2*bs.length := by
  induction bs with
  | nil => rfl
  | cons b bs ih =>
    rw [nibbles, List.flatMap_cons, ← nibbles, List.length_append, ih, List.length_cons]
    simp only [List.length_cons, List.length_nil]
    omega

theorem nibbles_lt (bs : List UInt8) : ∀ d ∈ nibbles bs, d < 16 := by
  intro d hd
  obtain ⟨b, -, hb⟩ := List.mem_flatMap.mp hd
  have hlt := b.toNat_lt
  simp only [List.mem_cons, List.not_mem_nil, or_false] at hb
  omega

theorem pow_nibbles (n : ℕ) : 16^(2*n) = 256^n := by
  rw [pow_mul]
  norm_num

theorem ofDigits_nibbles (bs : List UInt8) : Nat.ofDigits 16 (nibbles bs).reverse = beNat bs := by
  induction bs with
  | nil => rfl
  | cons b bs ih =>
    have hcons : (nibbles (b :: bs)).reverse = (nibbles bs).reverse ++ [b.toNat%16, b.toNat/16] := by
      simp [nibbles]
    have hb : b.toNat%16+16*(b.toNat/16) = b.toNat := Nat.mod_add_div _ _
    rw [hcons, Nat.ofDigits_append, ih, List.length_reverse, nibbles_length, pow_nibbles, beNat]
    simp only [Nat.ofDigits_cons, Nat.ofDigits_nil]
    rw [Nat.mul_zero, Nat.add_zero, hb]
    ring

theorem flatMap_hexPair (bs : List UInt8) : bs.flatMap hexPair = (nibbles bs).map lowerHexDigit := by
  rw [nibbles, List.map_flatMap]
  rfl

/-- Two digits for each byte are the number if and only if the first of them is not zero. -/
theorem hexPairs_eq_iff (b : UInt8) (bs : List UInt8) :
    (b :: bs).flatMap hexPair = hexNumber (beNat (b :: bs)) ↔ 16 ≤ b.toNat := by
  have hlen := nibbles_length (b :: bs)
  have hvalue := ofDigits_nibbles (b :: bs)
  rw [flatMap_hexPair]
  constructor
  · intro h
    by_contra hb
    -- the number is too small to have so many digits
    have hsmall : beNat (b :: bs) < 16^(2*bs.length+1) := by
      have hrest := ofDigits_nibbles bs
      have hlt := Nat.ofDigits_lt_base_pow_length (b := 16) (by omega) (l := (nibbles bs).reverse)
        (fun d hd => nibbles_lt bs d (List.mem_reverse.mp hd))
      rw [hrest, List.length_reverse, nibbles_length] at hlt
      rw [beNat, ← pow_nibbles, pow_succ]
      have hmul : b.toNat*16^(2*bs.length) ≤ 15*16^(2*bs.length) :=
        Nat.mul_le_mul_right _ (by omega)
      omega
    have hlength := congrArg List.length h
    rw [List.length_map, hlen, List.length_cons, hexNumber] at hlength
    split at hlength
    · rw [List.length_singleton] at hlength
      omega
    · have hle := (Nat.digits_length_le_iff (by omega) (beNat (b :: bs))).mpr hsmall
      rw [List.length_map, List.length_reverse] at hlength
      omega
  · intro hb
    have hdigits : Nat.digits 16 (beNat (b :: bs)) = (nibbles (b :: bs)).reverse := by
      rw [← hvalue]
      apply Nat.digits_ofDigits 16 (by omega)
      · intro d hd
        exact nibbles_lt _ d (List.mem_reverse.mp hd)
      · intro hne
        rw [List.getLast_reverse]
        simp only [nibbles, List.flatMap_cons, List.cons_append, List.head_cons]
        omega
    have hpos : beNat (b :: bs) ≠ 0 := by
      rw [beNat]
      have := Nat.pos_of_ne_zero (pow_ne_zero bs.length (by omega : (256 : ℕ) ≠ 0))
      have hmul := Nat.mul_le_mul hb (Nat.one_le_iff_ne_zero.mpr this.ne')
      omega
    rw [hexNumber, if_neg hpos, hdigits, List.reverse_reverse]

theorem digestPairs_eq_iff {bs : List UInt8} (hlen : bs.length = 20) :
    bs.flatMap hexPair = hexNumber (beNat bs) ↔ 16^39 ≤ beNat bs := by
  obtain ⟨b, rest, rfl⟩ := List.exists_cons_of_length_eq_add_one hlen
  have hrest : rest.length = 19 := by
    rw [List.length_cons] at hlen
    omega
  have hlt := leValue_lt rest.reverse
  rw [← beNat_reverse, List.reverse_reverse, List.length_reverse, hrest] at hlt
  rw [hexPairs_eq_iff, beNat, hrest]
  omega

theorem lowerHexDigit_ne (n : ℕ) (hn : n < 16) : lowerHexDigit n ≠ 45 := by
  interval_cases n <;> decide

theorem hexNumber_unsigned (n : ℕ) : 45 ∉ hexNumber n := by
  rw [hexNumber]
  split
  · decide
  · intro hmem
    obtain ⟨d, hd, he⟩ := List.mem_map.mp hmem
    exact lowerHexDigit_ne d (Nat.digits_lt_base (by omega) (List.mem_reverse.mp hd)) he

theorem hexPairs_unsigned (bs : List UInt8) : 45 ∉ bs.flatMap hexPair := by
  rw [flatMap_hexPair]
  intro hmem
  obtain ⟨d, hd, he⟩ := List.mem_map.mp hmem
  exact lowerHexDigit_ne d (nibbles_lt bs d hd) he

end Hex

section Sign

theorem not_toNat (b : UInt8) : (~~~b).toNat+b.toNat = 255 := by
  have hlt := b.toNat_lt
  have hsize : UInt8.size = 256 := rfl
  rw [UInt8.toNat_not]
  omega

/-- Without a carry the loop complements the bytes. -/
theorem negateLoop_false (bs : List UInt8) :
    leValue (negateLoop false bs)+leValue bs+1 = 256^bs.length := by
  induction bs with
  | nil => rfl
  | cons b bs ih =>
    have hb := not_toNat b
    rw [negateLoop, leValue, leValue, List.length_cons, pow_succ, ← ih]
    omega

/-- With one it negates a number that is not zero. -/
theorem negateLoop_true (bs : List UInt8) (h : leValue bs ≠ 0) :
    leValue (negateLoop true bs)+leValue bs = 256^bs.length := by
  induction bs with
  | nil => exact absurd rfl h
  | cons b bs ih =>
    have hb := not_toNat b
    rw [negateLoop, leValue, leValue, List.length_cons, pow_succ]
    by_cases hcarry : ~~~b = 0xFF
    · -- the carry goes on
      rw [hcarry] at hb ⊢
      have h0 : b.toNat = 0 := by
        have h255 : (0xFF : UInt8).toNat = 255 := rfl
        omega
      have hrest : leValue bs ≠ 0 := by
        rw [leValue, h0] at h
        omega
      have hsum := ih hrest
      rw [decide_eq_true rfl, ← hsum, h0]
      have hhead : ((0xFF : UInt8)+1).toNat = 0 := rfl
      omega
    · have hsum := negateLoop_false bs
      have hhead : (~~~b+1).toNat = 256-b.toNat := by
        have hne : (~~~b).toNat ≠ 255 := fun hff => hcarry (UInt8.toNat_inj.mp hff)
        rw [UInt8.toNat_add, UInt8.toNat_one]
        omega
      rw [decide_eq_false hcarry, ← hsum, hhead]
      omega

/-- A digest as a signed number. -/
def digestValue (hash : Vector UInt8 20) : ℤ := (BitVec.ofNat 160 (beNat hash.toList)).toInt

/-- The text is that of the number, and it fits in 42 bytes with its terminator. -/
def HashText (hash : Vector UInt8 20) : Prop :=
  mcprCryptoStringifySha1 hash = hexText (digestValue hash) ∧
    (mcprCryptoStringifySha1 hash).length+1 ≤ 42

/-- The last byte has the sign of the first one, and the first hexadecimal digit of the absolute
value is not zero. -/
def SignAtBothEnds (hash : Vector UInt8 20) : Prop :=
  (0x10 ≤ (hash.get 0).toNat ∧ (hash.get 0).toNat < 0x80 ∧ (hash.get 19).toNat < 0x80) ∨
    (0x80 ≤ (hash.get 0).toNat ∧ (hash.get 0).toNat < 0xF0 ∧ 0x80 ≤ (hash.get 19).toNat)

theorem digest_ends (hash : Vector UInt8 20) : beNat hash.toList%256 = (hash.get 19).toNat ∧
    beNat hash.toList/256^19 = (hash.get 0).toNat := by
  have hlen : hash.toList.length = 20 := Vector.length_toList
  have hne : hash.toList ≠ [] := by
    intro h
    rw [h] at hlen
    cases hlen
  constructor
  · have hlast : hash.toList.getLast hne = hash.get 19 := by
      simp only [List.getLast_eq_getElem, hlen, Vector.getElem_toList]
      rfl
    have hrev : hash.toList.reverse = hash.get 19 :: hash.toList.dropLast.reverse := by
      rw [← hlast, ← List.reverse_concat, List.dropLast_append_getLast]
    have hlt := (hash.get 19).toNat_lt
    rw [← List.reverse_reverse hash.toList, beNat_reverse, hrev, leValue]
    omega
  · have hhead : hash.toList.head hne = hash.get 0 := by
      simp only [List.head_eq_getElem, Vector.getElem_toList]
      rfl
    have htail : hash.toList.tail.length = 19 := by
      rw [List.length_tail, hlen]
    have hlt := leValue_lt hash.toList.tail.reverse
    rw [← beNat_reverse, List.reverse_reverse, List.length_reverse, htail] at hlt
    rw [← List.cons_head_tail hne, hhead, beNat, htail]
    omega

theorem digest_lt (hash : Vector UInt8 20) : beNat hash.toList < 2^160 := by
  have h := leValue_lt hash.toList.reverse
  rw [← beNat_reverse, List.reverse_reverse, List.length_reverse, Vector.length_toList] at h
  exact h

theorem digestValue_eq (hash : Vector UInt8 20) : digestValue hash =
    if beNat hash.toList < 2^159 then (beNat hash.toList : ℤ) else (beNat hash.toList : ℤ)-2^160 := by
  rw [digestValue, BitVec.toInt_eq_toNat_cond, BitVec.toNat_ofNat, Nat.mod_eq_of_lt (digest_lt hash)]
  have hhalf : 2*beNat hash.toList < 2^160 ↔ beNat hash.toList < 2^159 := by omega
  simp only [hhalf]
  norm_num

/-- Without a sign at its end a digest is written as a number that is not negative. -/
theorem plainText_iff (hash : Vector UInt8 20) :
    hash.toList.flatMap hexPair = hexText (digestValue hash) ↔
      16^39 ≤ beNat hash.toList ∧ beNat hash.toList < 2^159 := by
  rw [digestValue_eq]
  split
  · rename_i hsmall
    have hnot : ¬ ((beNat hash.toList : ℤ) < 0) := by omega
    rw [hexText, if_neg hnot, List.nil_append, Int.natAbs_natCast,
      digestPairs_eq_iff Vector.length_toList, and_iff_left hsmall]
  · rename_i hlarge
    have hlt := digest_lt hash
    have hneg : (beNat hash.toList : ℤ)-2^160 < 0 := by
      have : (beNat hash.toList : ℤ) < 2^160 := by exact_mod_cast hlt
      omega
    refine iff_of_false ?_ fun h => hlarge h.2
    rw [hexText, if_pos hneg]
    intro h
    apply hexPairs_unsigned hash.toList
    rw [h]
    exact List.mem_append_left _ (by decide)

/-- With one it is written as a negative number. -/
theorem signedText_iff (hash : Vector UInt8 20) (hend : (hash.get 19).toNat ≠ 0) :
    ascii "-" ++ (negateLoop true hash.toList.reverse).reverse.flatMap hexPair =
      hexText (digestValue hash) ↔ 2^159 ≤ beNat hash.toList ∧ 16^39+beNat hash.toList ≤ 2^160 := by
  have hlt := digest_lt hash
  rw [digestValue_eq]
  split
  · rename_i hsmall
    have hnot : ¬ ((beNat hash.toList : ℤ) < 0) := by omega
    refine iff_of_false ?_ fun h => absurd h.1 (not_le.mpr hsmall)
    rw [hexText, if_neg hnot, List.nil_append]
    intro h
    apply hexNumber_unsigned (beNat hash.toList : ℤ).natAbs
    rw [← h]
    exact List.mem_append_left _ (by decide)
  · rename_i hlarge
    have hneg : (beNat hash.toList : ℤ)-2^160 < 0 := by
      have : (beNat hash.toList : ℤ) < 2^160 := by exact_mod_cast hlt
      omega
    have hrev : leValue hash.toList.reverse = beNat hash.toList := by
      rw [← beNat_reverse, List.reverse_reverse]
    have hne : leValue hash.toList.reverse ≠ 0 := by
      intro h0
      apply hend
      rw [← (digest_ends hash).1, ← hrev, h0]
    have hsum := negateLoop_true hash.toList.reverse hne
    rw [hrev, List.length_reverse, Vector.length_toList, ← beNat_reverse] at hsum
    have habs : ((beNat hash.toList : ℤ)-2^160).natAbs =
        beNat (negateLoop true hash.toList.reverse).reverse := by
      have hcast : (beNat (negateLoop true hash.toList.reverse).reverse : ℤ)+beNat hash.toList =
          2^160 := by exact_mod_cast hsum
      omega
    have hlen : (negateLoop true hash.toList.reverse).reverse.length = 20 := by
      rw [List.length_reverse, negateLoop_length, List.length_reverse, Vector.length_toList]
    rw [hexText, if_pos hneg, habs, List.append_cancel_left_eq, digestPairs_eq_iff hlen]
    omega

/-- The text of a digest is right if and only if both of its ends have one sign and the first
digit is not zero. -/
theorem digest_text_iff (hash : Vector UInt8 20) : HashText hash ↔ SignAtBothEnds hash := by
  obtain ⟨hlast, hfirst⟩ := digest_ends hash
  have hlt := digest_lt hash
  have hfits : (mcprCryptoStringifySha1 hash).length+1 ≤ 42 := by
    have := mcprCryptoStringifySha1_length hash
    omega
  have hsign : hash[19] &&& 0x80 ≠ 0 ↔ 0x80 ≤ (hash.get 19).toNat :=
    Leb128.follower_iff (hash.get 19)
  rw [HashText, and_iff_left hfits, mcprCryptoStringifySha1, SignAtBothEnds]
  by_cases hend : 0x80 ≤ (hash.get 19).toNat
  · rw [if_pos (hsign.mpr hend), signedText_iff hash (by omega)]
    omega
  · rw [if_neg (fun h => hend (hsign.mp h)), plainText_iff]
    omega

/-- The SHA-1 digest of `jeb_`. -/
def jebDigest : Vector UInt8 20 :=
  #v[0x83, 0x62, 0xA4, 0xFF, 0xBB, 0x3E, 0xCF, 0xEF, 0x65, 0xA2, 0x84, 0xA0, 0x4A, 0x3C, 0xE8, 0x3F,
    0xD4, 0xB1, 0xD7, 0x3F]

/-- It is negative, and it is written without a sign. -/
theorem jeb_digest_unsigned : ¬ ∀ hash, HashText hash := by
  intro h
  have htext := (h jebDigest).1
  have hplain : ¬ jebDigest[19] &&& 0x80 ≠ 0 := by decide
  rw [mcprCryptoStringifySha1, if_neg hplain, plainText_iff] at htext
  exact absurd htext.2 (by decide)

end Sign
end Stronk.Mcpr
