import Stronk.FixedWidth

/-! Positions on the wire: three signed coordinates in the fields of one word (`mcpr/codec.c`). -/
namespace Stronk.Mcpr
open ByteMemory

section Word

/-- The word that a position is packed into. -/
def positionWord (pos : McprPosition) : BitVec 64 :=
  ((pos.x &&& 0x3FFFFFF#64) <<< 38) ||| ((pos.y &&& 0xFFF#64) <<< 26) ||| (pos.z &&& 0x3FFFFFF#64)

theorem mcprEncodePosition_word (host : Endian) (pos : McprPosition) :
    mcprEncodePosition host pos = mcprEncodeLong host (positionWord pos) := rfl

theorem mask26_getLsbD (j : ℕ) (hj : j < 64) : (0x3FFFFFF#64).getLsbD j = decide (j < 26) := by
  interval_cases j <;> decide

theorem mask12_getLsbD (j : ℕ) (hj : j < 64) : (0xFFF#64).getLsbD j = decide (j < 12) := by
  interval_cases j <;> decide

/-- Every bit of the word belongs to one coordinate. -/
theorem positionWord_getLsbD (pos : McprPosition) (j : ℕ) (hj : j < 64) :
    (positionWord pos).getLsbD j =
      if j < 26 then pos.z.getLsbD j
      else if j < 38 then pos.y.getLsbD (j-26) else pos.x.getLsbD (j-38) := by
  simp only [positionWord, BitVec.getLsbD_or, BitVec.getLsbD_shiftLeft, BitVec.getLsbD_and, hj,
    decide_true, Bool.true_and, mask26_getLsbD j hj, mask26_getLsbD (j-38) (by omega),
    mask12_getLsbD (j-26) (by omega)]
  split_ifs with h1 h2
  · simp [h1, show j < 38 by omega]
  · simp [h1, h2, show j-26 < 12 by omega]
  · simp [h1, h2, show ¬ j-26 < 12 by omega, show j-38 < 26 by omega]

/-- The position that is read from a word. -/
def wordPosition (iin : BitVec 64) : McprPosition :=
  { x := iin.sshiftRight 38
    y := iin.sshiftRight 26 &&& 0xFFF#64
    z := (iin <<< 38).sshiftRight 38 }

theorem mcprDecodePosition_word (host : Endian) (mem : Mem) :
    mcprDecodePosition host mem = wordPosition (mcprDecodeLong host mem) := rfl

/-- What is read of the coordinates: the signs of the outer fields are extended, that of the middle
field is not. -/
theorem wordPosition_positionWord (pos : McprPosition) : wordPosition (positionWord pos) =
    { x := (pos.x.setWidth 26).signExtend 64
      y := (pos.y.setWidth 12).setWidth 64
      z := (pos.z.setWidth 26).signExtend 64 } := by
  have hword := positionWord_getLsbD pos
  have hmsb : (positionWord pos).msb = pos.x.getLsbD 25 := by
    rw [BitVec.msb_eq_getLsbD_last, hword 63 (by omega)]
    rfl
  have hlow : (positionWord pos <<< 38).msb = pos.z.getLsbD 25 := by
    rw [BitVec.msb_eq_getLsbD_last, BitVec.getLsbD_shiftLeft]
    exact hword 25 (by omega)
  rw [wordPosition, McprPosition.mk.injEq]
  refine ⟨?_, ?_, ?_⟩
  · apply BitVec.eq_of_getLsbD_eq
    intro k hk
    rw [BitVec.getLsbD_sshiftRight, BitVec.getLsbD_signExtend, hmsb, BitVec.msb_eq_getLsbD_last]
    by_cases h : k < 26
    · have hbit : (positionWord pos).getLsbD (38+k) = pos.x.getLsbD k := by
        rw [hword _ (by omega), if_neg (by omega), if_neg (by omega), Nat.add_sub_cancel_left]
      rw [if_pos (by omega), hbit]
      simp [h, hk]
    · simp [h, hk, show ¬ 64 ≤ k by omega, show ¬ 38+k < 64 by omega]
  · apply BitVec.eq_of_getLsbD_eq
    intro k hk
    rw [BitVec.getLsbD_and, BitVec.getLsbD_sshiftRight, mask12_getLsbD k hk]
    by_cases h : k < 12
    · have hbit : (positionWord pos).getLsbD (26+k) = pos.y.getLsbD k := by
        rw [hword _ (by omega), if_neg (by omega), if_pos (by omega), Nat.add_sub_cancel_left]
      rw [if_pos (by omega), hbit]
      simp [h, hk]
    · simp [h, hk]
  · apply BitVec.eq_of_getLsbD_eq
    intro k hk
    rw [BitVec.getLsbD_sshiftRight, BitVec.getLsbD_signExtend, hlow, BitVec.msb_eq_getLsbD_last]
    by_cases h : k < 26
    · have hbit : (positionWord pos <<< 38).getLsbD (38+k) = pos.z.getLsbD k := by
        rw [BitVec.getLsbD_shiftLeft, Nat.add_sub_cancel_left, hword k hk, if_pos h]
        simp [show 38+k < 64 by omega]
      rw [if_pos (by omega), hbit]
      simp [h, hk]
    · simp [h, hk, show ¬ 64 ≤ k by omega, show ¬ 38+k < 64 by omega]

/-- Packing what was read gives the word back: what the middle field lacks is masked anyway. -/
theorem positionWord_wordPosition (iin : BitVec 64) : positionWord (wordPosition iin) = iin := by
  apply BitVec.eq_of_getLsbD_eq
  intro j hj
  rw [positionWord_getLsbD _ j hj, wordPosition]
  split_ifs with h1 h2
  · rw [BitVec.getLsbD_sshiftRight, BitVec.getLsbD_shiftLeft]
    simp [show ¬ 64 ≤ j by omega, show 38+j < 64 by omega]
  · rw [BitVec.getLsbD_and, BitVec.getLsbD_sshiftRight, mask12_getLsbD _ (by omega)]
    rw [show 26+(j-26) = j by omega, if_pos hj]
    simp [show ¬ 64 ≤ j-26 by omega, show j-26 < 12 by omega]
  · rw [BitVec.getLsbD_sshiftRight]
    rw [show 38+(j-38) = j by omega, if_pos hj]
    simp [show ¬ 64 ≤ j-38 by omega]

/-- Two positions are packed alike if and only if their fields agree. -/
theorem positionWord_eq_iff (p q : McprPosition) : positionWord p = positionWord q ↔
    p.x.setWidth 26 = q.x.setWidth 26 ∧ p.y.setWidth 12 = q.y.setWidth 12 ∧
      p.z.setWidth 26 = q.z.setWidth 26 := by
  constructor
  · intro h
    have hbit (j : ℕ) (hj : j < 64) := congrArg (fun w => BitVec.getLsbD w j) h
    refine ⟨?_, ?_, ?_⟩
    · apply BitVec.eq_of_getLsbD_eq
      intro k hk
      have hk' := hbit (k+38) (by omega)
      simp only [positionWord_getLsbD _ (k+38) (by omega), show ¬ k+38 < 26 by omega,
        show ¬ k+38 < 38 by omega, if_false, Nat.add_sub_cancel] at hk'
      simpa only [BitVec.getLsbD_setWidth, hk, decide_true, Bool.true_and] using hk'
    · apply BitVec.eq_of_getLsbD_eq
      intro k hk
      have hk' := hbit (k+26) (by omega)
      simp only [positionWord_getLsbD _ (k+26) (by omega), show ¬ k+26 < 26 by omega,
        show k+26 < 38 by omega, if_false, if_true, Nat.add_sub_cancel] at hk'
      simpa only [BitVec.getLsbD_setWidth, hk, decide_true, Bool.true_and] using hk'
    · apply BitVec.eq_of_getLsbD_eq
      intro k hk
      have hk' := hbit k (by omega)
      simp only [positionWord_getLsbD _ k (by omega), hk, if_true] at hk'
      simpa only [BitVec.getLsbD_setWidth, hk, decide_true, Bool.true_and] using hk'
  · rintro ⟨hx, hy, hz⟩
    have field {n : ℕ} {a b : BitVec 64} (h : a.setWidth n = b.setWidth n) (k : ℕ) (hk : k < n) :
        a.getLsbD k = b.getLsbD k := by
      have := congrArg (fun w => BitVec.getLsbD w k) h
      simpa only [BitVec.getLsbD_setWidth, hk, decide_true, Bool.true_and] using this
    apply BitVec.eq_of_getLsbD_eq
    intro j hj
    rw [positionWord_getLsbD p j hj, positionWord_getLsbD q j hj]
    split_ifs with h1 h2
    · exact field hz j h1
    · exact field hy (j-26) (by omega)
    · exact field hx (j-38) (by omega)

end Word

section Fields
variable {n : ℕ} (a b : BitVec 64)

/-- A word and the number it stands for differ by a multiple of every field's size. -/
theorem toNat_modEq_toInt (hn : n ≤ 64) : (a.toNat : ℤ) ≡ a.toInt [ZMOD 2^n] := by
  have hsize : (2^n : ℤ) ∣ ((2^64 : ℕ) : ℤ) := pow_dvd_pow 2 hn
  have hsign : ((2^64 : ℕ) : ℤ) ∣ a.toInt-a.toNat := by
    rw [BitVec.toInt_eq_toNat_bmod]
    exact Int.dvd_bmod_sub_self
  exact Int.modEq_iff_dvd.mpr (hsize.trans hsign)

theorem toInt_emod_field (hn : n ≤ 64) : a.toInt%2^n = (a.setWidth n).toNat := by
  have hcongr : (a.toNat : ℤ)%2^n = a.toInt%2^n := toNat_modEq_toInt a hn
  rw [← hcongr, BitVec.toNat_setWidth]
  push_cast
  rfl

/-- Two words have the same low bits if and only if their numbers agree up to a multiple. -/
theorem setWidth_eq_iff (hn : n ≤ 64) :
    a.setWidth n = b.setWidth n ↔ a.toInt%2^n = b.toInt%2^n := by
  rw [toInt_emod_field a hn, toInt_emod_field b hn]
  constructor
  · intro h
    rw [h]
  · intro h
    apply BitVec.eq_of_toNat_eq
    exact_mod_cast h

/-- The numbers of a signed field of `n` bits. -/
def InField (n : ℕ) (a : BitVec 64) : Prop := -2^(n-1) ≤ a.toInt ∧ a.toInt < 2^(n-1)

variable {a}

/-- The sign extension of the field gives back what fits in it. -/
theorem InField.signExtend (h : InField 26 a) : (a.setWidth 26).signExtend 64 = a := by
  obtain ⟨hl, hu⟩ := h
  have hdvd : (2^26 : ℤ) ∣ a.toInt-a.toNat := Int.modEq_iff_dvd.mp (toNat_modEq_toInt a (by decide))
  apply BitVec.eq_of_toInt_eq
  rw [BitVec.toInt_signExtend_of_le (by decide), BitVec.toInt_setWidth, Int.bmod_eq_iff (by decide)]
  norm_num at hl hu hdvd ⊢
  exact ⟨hl, hu, hdvd⟩

/-- Without it only what is not negative is given back. -/
theorem InField.zeroExtend_iff (h : InField 12 a) :
    (a.setWidth 12).setWidth 64 = a ↔ 0 ≤ a.toInt := by
  obtain ⟨hl, hu⟩ := h
  have hlow : ((a.setWidth 12).setWidth 64).toNat = a.toNat%2^12 := by
    rw [BitVec.toNat_setWidth, BitVec.toNat_setWidth]
    exact Nat.mod_eq_of_lt (by omega)
  have hsign := BitVec.toInt_eq_toNat_cond a
  have ha := a.isLt
  norm_num at hl hu
  rw [← BitVec.toNat_inj, hlow]
  split at hsign <;> omega

end Fields

section Codec
variable (host : Endian)

/-- A position is read back as it was written if and only if its height is not negative. -/
theorem position_round_trip_iff (pos : McprPosition) (hx : InField 26 pos.x) (hy : InField 12 pos.y)
    (hz : InField 26 pos.z) :
    mcprDecodePosition host (ofList (mcprEncodePosition host pos)) = pos ↔ 0 ≤ pos.y.toInt := by
  have hread : mcprDecodeLong host (ofList (mcprEncodePosition host pos)) = positionWord pos := by
    have h := mcprDecodeLong_encode host (positionWord pos) []
    rwa [List.append_nil] at h
  rw [mcprDecodePosition_word, hread, wordPosition_positionWord, hx.signExtend, hz.signExtend,
    ← hy.zeroExtend_iff]
  constructor
  · intro h
    exact congrArg McprPosition.y h
  · intro h
    rw [h]

theorem position_above_ground :
    mcprDecodePosition .little (ofList (mcprEncodePosition .little ⟨-1#64, 64#64, -30000000#64⟩)) =
      ⟨-1#64, 64#64, -30000000#64⟩ ↔ 0 ≤ (64#64).toInt :=
  position_round_trip_iff .little ⟨-1#64, 64#64, -30000000#64⟩ (by unfold InField; decide)
    (by unfold InField; decide) (by unfold InField; decide)

/-- One block below it, the height that is read is 4095. -/
theorem position_below_ground : InField 26 (0#64) ∧ InField 12 (-1#64) ∧
    mcprDecodePosition .little (ofList (mcprEncodePosition .little ⟨0#64, -1#64, 0#64⟩)) =
      ⟨0#64, 4095#64, 0#64⟩ ∧ (4095#64 ≠ -1#64) := by
  unfold InField
  decide

/-- Writing the word that is read from eight bytes gives these bytes. -/
theorem mcprEncodeLong_decode (mem : Mem) :
    mcprEncodeLong host (mcprDecodeLong host mem) = read mem mcprLongSize := by
  have hlen : (read mem 8).length = 8 := read_length mem 8
  have hlt (bs : List UInt8) (hbs : bs.length = 8) : leValue bs < 2^64 := by
    have h := leValue_lt bs
    rw [hbs] at h
    omega
  have hback (bs : List UInt8) (hbs : bs.length = 8) : leBytes 8 (leValue bs) = bs := by
    have h := leBytes_leValue bs
    rwa [hbs] at h
  cases host with
  | little =>
    have hword := hlt (read mem 8) hlen
    rw [mcprEncodeLong, hostBytes, mcprDecodeLong, hostValue, mcprLongSize, htonll_toNat,
      htonll_toNat, BitVec.toNat_ofNat, Nat.mod_eq_of_lt hword, swapBytes_swapBytes _ _ (by omega),
      hback _ hlen]
  | big =>
    have hrev : (read mem 8).reverse.length = 8 := by rw [List.length_reverse, hlen]
    have hword := hlt (read mem 8).reverse hrev
    rw [mcprEncodeLong, hostBytes, mcprDecodeLong, hostValue, mcprLongSize, htonll_big, htonll_big,
      BitVec.toNat_ofNat, Nat.mod_eq_of_lt hword, hback _ hrev, List.reverse_reverse]

/-- Eight bytes that are read as a position are written back, and positions are written alike if
and only if their fields agree. -/
theorem position_wire_image :
    (∀ mem, mcprEncodePosition host (mcprDecodePosition host mem) = read mem mcprLongSize) ∧
    ∀ p q, mcprEncodePosition host p = mcprEncodePosition host q ↔
      p.x.toInt%2^26 = q.x.toInt%2^26 ∧ p.y.toInt%2^12 = q.y.toInt%2^12 ∧
        p.z.toInt%2^26 = q.z.toInt%2^26 := by
  constructor
  · intro mem
    rw [mcprEncodePosition_word, mcprDecodePosition_word, positionWord_wordPosition,
      mcprEncodeLong_decode]
  · intro p q
    rw [← setWidth_eq_iff _ _ (by decide), ← setWidth_eq_iff _ _ (by decide),
      ← setWidth_eq_iff _ _ (by decide), ← positionWord_eq_iff, mcprEncodePosition_word,
      mcprEncodePosition_word]
    constructor
    · intro h
      have hread := congrArg (fun bs => mcprDecodeLong host (ofList (bs ++ []))) h
      simpa only [mcprDecodeLong_encode] using hread
    · intro h
      rw [h]

end Codec

end Stronk.Mcpr
