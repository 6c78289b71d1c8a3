import Stronk.ServerHash

/-! The loop that negates a digest (`mcpr_crypto_stringify_sha1`), from the last byte to the first
with a carry from each to the next. -/
namespace Stronk.Mcpr
open ByteParser

section Model

/-- The carry, and the array that the loop fills. -/
structure Negation where
  carry : Bool
  tmp : Vector UInt8 20

/-- The body of the loop. -/
def negateTurn (bytes : Vector UInt8 20) (i : Fin 20) (s : Negation) : Negation :=
  let newByte := ~~~bytes[i] &&& 0xFF
  -- the carry is found before the byte wraps
  if s.carry = true then { carry := newByte = 0xFF, tmp := s.tmp.set i (newByte+1) }
  else { s with tmp := s.tmp.set i newByte }

/-- The index of turn `n`. -/
def turnIndex (n : ℕ) : Fin 20 := ⟨19-n, by omega⟩

/-- The first `n` turns. -/
def negateTurns (bytes tmp : Vector UInt8 20) : ℕ → Negation
  | 0 => { carry := true, tmp := tmp }
  | n+1 => negateTurn bytes (turnIndex n) (negateTurns bytes tmp n)

/-- The whole loop, when the array holds `tmp` before. -/
def negate (bytes tmp : Vector UInt8 20) : Vector UInt8 20 := (negateTurns bytes tmp 20).tmp

end Model

section Property

/-- In turn `n` the new byte and the carry that goes on are the complement and the carry that came. -/
def CarryKept (bytes tmp : Vector UInt8 20) (n : ℕ) : Prop :=
  ((negateTurns bytes tmp (n+1)).tmp.get (turnIndex n)).toNat+
      256*(negateTurns bytes tmp (n+1)).carry.toNat =
    (~~~bytes.get (turnIndex n)).toNat+(negateTurns bytes tmp n).carry.toNat

/-- The array is the negated number modulo `2^160`, negated again it is the number, and no carry is
lost on the way. -/
structure NegatesExactly (bytes tmp : Vector UInt8 20) : Prop where
  value : beNat (negate bytes tmp).toList = (2^160-beNat bytes.toList)%2^160
  twice : ∀ tmp', negate (negate bytes tmp) tmp' = bytes
  carried : ∀ n < 20, CarryKept bytes tmp n

/-- The number in the last `n` bytes. -/
def lowValue (bytes : Vector UInt8 20) (n : ℕ) : ℕ := beNat (bytes.toList.drop (20-n))

end Property

section Low

theorem lowValue_zero (bytes : Vector UInt8 20) : lowValue bytes 0 = 0 := by
  rw [lowValue, List.drop_of_length_le (by rw [Vector.length_toList])]
  rfl

theorem lowValue_all (bytes : Vector UInt8 20) : lowValue bytes 20 = beNat bytes.toList := rfl

theorem lowValue_succ (bytes : Vector UInt8 20) {n : ℕ} (hn : n < 20) :
    lowValue bytes (n+1) = (bytes.get (turnIndex n)).toNat*256^n+lowValue bytes n := by
  have hlen : bytes.toList.length = 20 := Vector.length_toList
  have hstart : 20-(n+1) = 19-n := by omega
  have hnext : 19-n+1 = 20-n := by omega
  have hrest : (bytes.toList.drop (20-n)).length = n := by
    rw [List.length_drop, hlen]
    omega
  rw [lowValue, hstart, List.drop_eq_getElem_cons (by omega), beNat, hnext, hrest, lowValue]
  rfl

/-- What is written before the last `n` bytes is not in their number. -/
theorem lowValue_set (bytes : Vector UInt8 20) {n : ℕ} (hn : n < 20) (byte : UInt8) :
    lowValue (bytes.set (turnIndex n) byte) n = lowValue bytes n := by
  have hi : (turnIndex n).val < 20-n := by
    change 19-n < 20-n
    omega
  rw [lowValue, lowValue, Vector.toList_set, List.drop_set_of_lt hi]

end Low

section Turns
variable (bytes tmp : Vector UInt8 20)

theorem get_set_self (v : Vector UInt8 20) (i : Fin 20) (byte : UInt8) :
    (v.set i byte).get i = byte := by
  rw [Vector.get_eq_getElem]
  exact Vector.getElem_set_self i.isLt

/-- The byte that a turn writes, and the carry behind it. -/
theorem negateTurn_kept (i : Fin 20) (s : Negation) : ∃ byte,
    (negateTurn bytes i s).tmp = s.tmp.set i byte ∧
      byte.toNat+256*(negateTurn bytes i s).carry.toNat =
        (~~~bytes.get i).toNat+s.carry.toNat := by
  have hmask : ~~~bytes[i] &&& 0xFF = ~~~bytes.get i := by
    rw [show (0xFF : UInt8) = -1 from rfl, UInt8.and_neg_one]
    rfl
  rw [negateTurn, hmask]
  cases hs : s.carry with
  | false => exact ⟨_, rfl, by simp⟩
  | true =>
    refine ⟨_, rfl, ?_⟩
    by_cases hff : ~~~bytes.get i = 0xFF
    · rw [hff]
      rfl
    · have hlt := (~~~bytes.get i).toNat_lt
      have hne : (~~~bytes.get i).toNat ≠ 255 := fun h => hff (UInt8.toNat_inj.mp h)
      have hwrap : (~~~bytes.get i+1).toNat = (~~~bytes.get i).toNat+1 := by
        rw [UInt8.toNat_add, UInt8.toNat_one]
        omega
      simp only [↓reduceIte, decide_eq_false hff, hwrap, Bool.toNat_false, Bool.toNat_true]

theorem negateTurns_carryKept (n : ℕ) : CarryKept bytes tmp n := by
  obtain ⟨byte, htmp, hkept⟩ :=
    negateTurn_kept bytes (turnIndex n) (negateTurns bytes tmp n)
  rw [CarryKept, negateTurns, htmp, get_set_self]
  exact hkept

/-- After `n` turns their part of the number is negated, with the carry for what is above it. -/
theorem negateTurns_value {n : ℕ} (hn : n ≤ 20) :
    lowValue (negateTurns bytes tmp n).tmp n+lowValue bytes n+
      256^n*(negateTurns bytes tmp n).carry.toNat = 256^n := by
  induction n with
  | zero => rw [lowValue_zero, lowValue_zero]; rfl
  | succ n ih =>
    have hlow := ih (by omega)
    have hkept := negateTurns_carryKept bytes tmp n
    have hbyte := not_toNat (bytes.get (turnIndex n))
    obtain ⟨byte, htmp, -⟩ :=
      negateTurn_kept bytes (turnIndex n) (negateTurns bytes tmp n)
    -- the turn leaves the bytes behind it alone
    have hrest : lowValue (negateTurns bytes tmp (n+1)).tmp n =
        lowValue (negateTurns bytes tmp n).tmp n := by
      rw [negateTurns, htmp, lowValue_set _ (by omega)]
    rw [CarryKept] at hkept
    rw [lowValue_succ _ (by omega), lowValue_succ _ (by omega), hrest]
    set new := ((negateTurns bytes tmp (n+1)).tmp.get (turnIndex n)).toNat
    set old := (bytes.get (turnIndex n)).toNat
    set carry := (negateTurns bytes tmp (n+1)).carry.toNat
    have hsum : new+old+256*carry = 255+(negateTurns bytes tmp n).carry.toNat := by omega
    calc new*256^n+lowValue (negateTurns bytes tmp n).tmp n+(old*256^n+lowValue bytes n)+
          256^(n+1)*carry
        = (new+old+256*carry)*256^n+
            (lowValue (negateTurns bytes tmp n).tmp n+lowValue bytes n) := by ring
      _ = 255*256^n+(lowValue (negateTurns bytes tmp n).tmp n+lowValue bytes n+
            256^n*(negateTurns bytes tmp n).carry.toNat) := by rw [hsum]; ring
      _ = 256^(n+1) := by rw [hlow]; ring

end Turns

section Digest
variable (bytes tmp : Vector UInt8 20)

theorem digest_inj {v w : Vector UInt8 20} (h : beNat v.toList = beNat w.toList) : v = w := by
  have hbytes (u : Vector UInt8 20) : leBytes 20 (beNat u.toList) = u.toList.reverse := by
    have hu := leBytes_leValue u.toList.reverse
    rwa [List.length_reverse, Vector.length_toList, ← beNat_reverse, List.reverse_reverse] at hu
  have hv := hbytes v
  rw [h, hbytes w] at hv
  exact Vector.toList_inj.mp (List.reverse_injective hv).symm

theorem negate_value : beNat (negate bytes tmp).toList = (2^160-beNat bytes.toList)%2^160 := by
  have hturns := negateTurns_value bytes tmp (le_refl 20)
  rw [lowValue_all, lowValue_all] at hturns
  have hold := digest_lt bytes
  have hnew := digest_lt (negate bytes tmp)
  rw [negate] at hnew ⊢
  cases hcarry : (negateTurns bytes tmp 20).carry with
  | false =>
    rw [hcarry, Bool.toNat_false] at hturns
    omega
  | true =>
    -- the carry runs out at the top: every byte is zero
    rw [hcarry, Bool.toNat_true] at hturns
    omega

/-- The number zero is its own negation, for the carry runs out at the top. -/
theorem negateLoop_zero (bs : List UInt8) (h : leValue bs = 0) :
    leValue (negateLoop true bs) = 0 := by
  induction bs with
  | nil => rfl
  | cons b bs ih =>
    rw [leValue] at h
    have hb : b = 0 := UInt8.toNat_inj.mp (by rw [UInt8.toNat_zero]; omega)
    have hrest := ih (by omega)
    subst hb
    rw [negateLoop, leValue, decide_eq_true (by decide), hrest]
    rfl

theorem negateLoop_value (bs : List UInt8) :
    leValue (negateLoop true bs) = (256^bs.length-leValue bs)%256^bs.length := by
  by_cases hzero : leValue bs = 0
  · rw [negateLoop_zero bs hzero, hzero, Nat.sub_zero, Nat.mod_self]
  · have hsum := negateLoop_true bs hzero
    rw [Nat.mod_eq_of_lt (by omega)]
    omega

theorem negate_toList :
    (negate bytes tmp).toList = (negateLoop true bytes.toList.reverse).reverse := by
  have hlen : (negateLoop true bytes.toList.reverse).reverse.length = 20 := by
    rw [List.length_reverse, negateLoop_length, List.length_reverse, Vector.length_toList]
  have hold : leValue bytes.toList.reverse = beNat bytes.toList := by
    rw [← beNat_reverse, List.reverse_reverse]
  have hsize : 256^20 = 2^160 := by norm_num
  set v : Vector UInt8 20 :=
    ⟨(negateLoop true bytes.toList.reverse).reverse.toArray, by simpa using hlen⟩ with hv
  have hlist : v.toList = (negateLoop true bytes.toList.reverse).reverse := by rw [hv]; rfl
  rw [← hlist]
  congr 1
  apply digest_inj
  rw [negate_value, hlist, beNat_reverse, negateLoop_value, hold, List.length_reverse,
    Vector.length_toList, hsize]

/-- A text with a sign is made with it, whatever was in the array. -/
theorem mcprCryptoStringifySha1_signed
    (hsign : mcprCryptoStringifySha1 bytes ≠ bytes.toList.flatMap hexPair) :
    mcprCryptoStringifySha1 bytes = ascii "-" ++ (negate bytes tmp).toList.flatMap hexPair := by
  rw [mcprCryptoStringifySha1] at hsign ⊢
  split_ifs at hsign ⊢
  · rw [negate_toList]
  · exact absurd rfl hsign

/-- The loop negates every number of 160 bits. -/
theorem negate_exact : NegatesExactly bytes tmp := by
  refine ⟨negate_value bytes tmp, fun tmp' => ?_, fun n _ => negateTurns_carryKept bytes tmp n⟩
  apply digest_inj
  rw [negate_value, negate_value]
  have hlt := digest_lt bytes
  omega

end Digest

end Stronk.Mcpr
