import Stronk.VarintCodec

/-! VarLongs, and how far the decoders of both kinds read (`mcpr/codec.c`). -/
namespace Stronk.Mcpr
open ByteMemory Leb128

section Decode
variable (shiftOut : BitVec 32 → ℕ → BitVec 32)

/-- What a turn of `mcpr_decode_varlong` shifts into place, as an `int`. -/
def varlongGroup (i : ℕ) (tmp : UInt8) : BitVec 32 :=
  let value := (tmp &&& 0x7F).toBitVec.setWidth 32
  if 7*i < 32 then value <<< (7*i) else shiftOut value (7*i)

/-- What it adds to the result. -/
def addVarlong (i : ℕ) (tmp : UInt8) (result : BitVec 64) : BitVec 64 :=
  result ||| (varlongGroup shiftOut i tmp).signExtend 64

/-- `mcpr_decode_varlong` on a buffer that may lack the bytes it fetches. -/
def mcprDecodeVarlongFrom (buf : ℕ → Option UInt8) (maxLen : UInt64) :
    Option (Except String (BitVec 64 × ℕ)) :=
  readGroups (addVarlong shiftOut) "Varlong size exceeded 10 bytes."
    "Exceeded given max length whilst decoding varlong." mcprVarlongSizeMax maxLen.toNat buf 11 0 0#64

variable {mem : Mem} {maxLen : UInt64}

theorem mcprDecodeVarlongFrom_mem (mem : Mem) (maxLen : UInt64) :
    mcprDecodeVarlongFrom shiftOut (fun k => some (mem k)) maxLen =
      some (mcprDecodeVarlong shiftOut mem maxLen) :=
  readGroups_eq_loop (addVarlong shiftOut) _ _ mcprVarlongSizeMax maxLen.toNat (fun _ _ _ => rfl)
    11 0 (Nat.zero_le _) rfl 0#64

theorem mcprDecodeVarlong_endsAt {n : ℕ} (h : EndsAt mem n)
    (hn : n ≤ min mcprVarlongSizeMax maxLen.toNat) :
    mcprDecodeVarlong shiftOut mem maxLen = .ok (foldGroups (addVarlong shiftOut) 0#64 mem n, n) := by
  have hread := readGroups_endsAt (addVarlong shiftOut) "Varlong size exceeded 10 bytes."
    "Exceeded given max length whilst decoding varlong." mcprVarlongSizeMax maxLen.toNat 0#64 h
    (by omega) (by omega) (fun _ _ => rfl) 11 0 h.pos rfl
  exact Option.some_inj.mp ((mcprDecodeVarlongFrom_mem shiftOut mem maxLen).symm.trans hread)

end Decode

section Reads
variable (shiftOut : BitVec 32 → ℕ → BitVec 32) (mem : Mem) (maxLen : UInt64)

/-- The decoders keep to the bytes that they promise to read if and only if the top bit of one of
them is clear. -/
theorem decoders_within_iff :
    ((mcprDecodeVarintFrom (firstBytes mem (min maxLen.toNat 5)) maxLen).isSome = true ↔
      ∃ i < min maxLen.toNat 5, (mem i).toNat < 128) ∧
    ((mcprDecodeVarlongFrom shiftOut (firstBytes mem (min maxLen.toNat 10)) maxLen).isSome = true ↔
      ∃ i < min maxLen.toNat 10, (mem i).toNat < 128) := by
  constructor
  · rw [min_comm]
    exact readGroups_within_iff addVarint _ _ 5 maxLen.toNat 0#32
  · rw [min_comm]
    exact readGroups_within_iff (addVarlong shiftOut) _ _ 10 maxLen.toNat 0#64

/-- On an empty buffer both fetch a byte. -/
theorem decoders_read_empty :
    mcprDecodeVarintFrom (firstBytes (ofList []) 0) 0 = none ∧
    mcprDecodeVarlongFrom (fun value _ => value) (firstBytes (ofList []) 0) 0 = none :=
  ⟨rfl, rfl⟩

end Reads

section RoundTrip
variable (shiftOut : BitVec 32 → ℕ → BitVec 32) {mem : Mem} {n : ℕ}

/-- A value is written in one to ten bytes and read back, whatever follows. -/
def VarlongRoundTrip (v : BitVec 64) : Prop :=
  1 ≤ (mcprEncodeVarlong v).length ∧ (mcprEncodeVarlong v).length ≤ 10 ∧
  ∀ shiftOut s (maxLen : UInt64), (mcprEncodeVarlong v).length ≤ maxLen.toNat →
    mcprDecodeVarlong shiftOut (ofList (mcprEncodeVarlong v ++ s)) maxLen =
      .ok (v, (mcprEncodeVarlong v).length)

theorem mcprEncodeVarlong_size (v : BitVec 64) :
    1 ≤ (mcprEncodeVarlong v).length ∧ (mcprEncodeVarlong v).length ≤ 10 := by
  rw [mcprEncodeVarlong_groups]
  exact ⟨groupBytes_pos 9 v.toNat, groupBytes_length_le 10 v.toNat⟩

theorem mcprEncodeVarlong_endsAt (v : BitVec 64) (s : List UInt8) :
    EndsAt (ofList (mcprEncodeVarlong v ++ s)) (mcprEncodeVarlong v).length ∧
      groupSum (ofList (mcprEncodeVarlong v ++ s)) (mcprEncodeVarlong v).length = v.toNat := by
  rw [mcprEncodeVarlong_groups]
  exact groupBytes_endsAt s (lt_trans v.isLt (by decide))

theorem mcprDecodeVarlong_encode (v : BitVec 64) (s : List UInt8) (maxLen : UInt64)
    (h : (mcprEncodeVarlong v).length ≤ maxLen.toNat) :
    mcprDecodeVarlong shiftOut (ofList (mcprEncodeVarlong v ++ s)) maxLen =
      .ok (foldGroups (addVarlong shiftOut) 0#64 (ofList (mcprEncodeVarlong v ++ s))
        (mcprEncodeVarlong v).length, (mcprEncodeVarlong v).length) := by
  have hsize := (mcprEncodeVarlong_size v).2
  exact mcprDecodeVarlong_endsAt shiftOut (mcprEncodeVarlong_endsAt v s).1
    (by unfold mcprVarlongSizeMax; omega)

/-- The sign extension of a group reaches all of the upper half. -/
theorem signExtend_or (a b : BitVec 32) :
    (a ||| b).signExtend 64 = a.signExtend 64 ||| b.signExtend 64 := by
  apply BitVec.eq_of_getLsbD_eq
  intro k hk
  simp only [BitVec.getLsbD_or, BitVec.getLsbD_signExtend, BitVec.msb_or]
  split_ifs <;> simp [hk]

/-- The result is a sign-extended `int` all the time. -/
theorem foldGroups_varlong (mem : Mem) (n : ℕ) : foldGroups (addVarlong shiftOut) 0#64 mem n =
    (foldGroups (fun i tmp result => result ||| varlongGroup shiftOut i tmp) 0#32 mem n).signExtend
      64 := by
  induction n with
  | zero => rfl
  | succ n ih => rw [foldGroups, foldGroups, addVarlong, ih, signExtend_or]

theorem foldGroups_varlong_small (hn : n ≤ 5) : foldGroups (addVarlong shiftOut) 0#64 mem n =
    (BitVec.ofNat 32 (groupSum mem n)).signExtend 64 := by
  have hsame (n : ℕ) (hn : n ≤ 5) :
      foldGroups (fun i tmp result => result ||| varlongGroup shiftOut i tmp) 0#32 mem n =
        foldGroups addVarint 0#32 mem n := by
    induction n with
    | zero => rfl
    | succ n ih => rw [foldGroups, foldGroups, ih (by omega), varlongGroup, if_pos (by omega), addVarint]
  rw [foldGroups_varlong, hsame n hn, foldGroups_varint]

theorem foldGroups_varlong_allOnes {k : ℕ}
    (h : foldGroups (addVarlong shiftOut) 0#64 mem k = BitVec.allOnes 64) (hk : k ≤ n) :
    foldGroups (addVarlong shiftOut) 0#64 mem n = BitVec.allOnes 64 := by
  induction n, hk using Nat.le_induction with
  | base => exact h
  | succ n _ ih => rw [foldGroups, ih, addVarlong, BitVec.allOnes_or]

theorem small_roundTrip (v : BitVec 64) (h0 : 0 ≤ v.toInt) (h : v.toInt < 2^31) :
    VarlongRoundTrip v := by
  have hnat : v.toNat < 2^31 := by
    have hv := v.isLt
    rw [BitVec.toInt_eq_toNat_cond] at h0 h
    split at h0 <;> omega
  have hlen : (mcprEncodeVarlong v).length ≤ 5 := by
    rw [mcprEncodeVarlong_groups]
    exact groupBytes_length_le_of_lt (by decide) (by omega)
  refine ⟨(mcprEncodeVarlong_size v).1, (mcprEncodeVarlong_size v).2, fun shiftOut s maxLen hmax => ?_⟩
  have hext : (BitVec.ofNat 32 v.toNat).signExtend 64 = v := by
    have hmsb : (BitVec.ofNat 32 v.toNat).msb = false := by
      rw [BitVec.msb_eq_decide, BitVec.toNat_ofNat, Nat.mod_eq_of_lt (by omega)]
      simp only [decide_eq_false_iff_not]
      omega
    apply BitVec.eq_of_toNat_eq
    rw [BitVec.signExtend_eq_setWidth_of_msb_false hmsb, BitVec.toNat_setWidth, BitVec.toNat_ofNat]
    omega
  rw [mcprDecodeVarlong_encode shiftOut v s maxLen hmax, foldGroups_varlong_small shiftOut hlen,
    (mcprEncodeVarlong_endsAt v s).2, hext]

theorem minusOne_roundTrip : VarlongRoundTrip (-1#64) := by
  refine ⟨(mcprEncodeVarlong_size _).1, (mcprEncodeVarlong_size _).2, fun shiftOut s maxLen hmax => ?_⟩
  -- the fifth group fills the upper half
  have hfive : foldGroups (addVarlong shiftOut) 0#64 (ofList (mcprEncodeVarlong (-1#64) ++ s)) 5 =
      BitVec.allOnes 64 := by
    have hbytes : mcprEncodeVarlong (-1#64) = List.replicate 9 255 ++ [1] := by decide
    rw [foldGroups_varlong_small shiftOut le_rfl, hbytes]
    have hsum : groupSum (ofList (List.replicate 9 255 ++ [1] ++ s)) 5 = 128^5-1 := by
      simp [groupSum, Finset.sum_range_succ, ofList, List.replicate]
    rw [hsum]
    decide
  have hlen : 5 ≤ (mcprEncodeVarlong (-1#64)).length := by decide
  rw [mcprDecodeVarlong_encode shiftOut _ s maxLen hmax, foldGroups_varlong_allOnes shiftOut hfive hlen]
  rfl

/-- A negative value takes all ten groups, so that the shifts out of the `int` decide what is read
of it. -/
theorem negative_roundTrip (v : BitVec 64) (hneg : v.toInt < 0) (h : VarlongRoundTrip v) :
    v = BitVec.allOnes 64 := by
  have hnat : 2^63 ≤ v.toNat := by
    have hv := v.isLt
    rw [BitVec.toInt_eq_toNat_cond] at hneg
    split at hneg <;> omega
  have hlen : 9 < (mcprEncodeVarlong v).length := by
    rw [mcprEncodeVarlong_groups]
    exact lt_groupBytes_length (by decide) (by omega)
  have hread := h.2.2 (fun _ _ => BitVec.allOnes 32) [] 10 h.2.1
  rw [mcprDecodeVarlong_encode _ v [] 10 h.2.1] at hread
  have hsix : foldGroups (addVarlong fun _ _ => BitVec.allOnes 32) 0#64
      (ofList (mcprEncodeVarlong v ++ [])) 6 = BitVec.allOnes 64 := by
    rw [foldGroups, addVarlong, varlongGroup, if_neg (by decide)]
    have hext : (BitVec.allOnes 32).signExtend 64 = BitVec.allOnes 64 := by decide
    rw [hext, BitVec.or_allOnes]
  rw [foldGroups_varlong_allOnes _ hsix (by omega)] at hread
  exact (congrArg Prod.fst (Except.ok.inj hread)).symm

/-- A VarLong is read back as it was written if and only if the value is an `int` that is not
negative, or -1. -/
theorem varlong_round_trip_iff (v : BitVec 64) :
    VarlongRoundTrip v ↔ -1 ≤ v.toInt ∧ v.toInt < 2^31 := by
  constructor
  · intro h
    have hint : ∃ a : BitVec 32, v = a.signExtend 64 := by
      have hread := h.2.2 (fun value _ => value) [] 10 h.2.1
      rw [mcprDecodeVarlong_encode _ v [] 10 h.2.1, foldGroups_varlong] at hread
      exact ⟨_, (congrArg Prod.fst (Except.ok.inj hread)).symm⟩
    obtain ⟨a, ha⟩ := hint
    have hlt : v.toInt < 2^31 := by
      rw [ha, BitVec.toInt_signExtend_of_le (by decide)]
      have := BitVec.toInt_lt (x := a)
      simpa using this
    refine ⟨?_, hlt⟩
    by_contra hneg
    have hones := negative_roundTrip v (by omega) h
    rw [hones] at hneg
    exact hneg (by decide)
  · rintro ⟨hlow, hhigh⟩
    by_cases h0 : 0 ≤ v.toInt
    · exact small_roundTrip v h0 hhigh
    · have hone : v = -1#64 := by
        apply BitVec.eq_of_toInt_eq
        have : (-1#64).toInt = -1 := by decide
        omega
      rw [hone]
      exact minusOne_roundTrip

/-- The fifth group of 2^31 ends up in the sign of the `int`. -/
theorem varlong_sign_lost : ¬ VarlongRoundTrip 2147483648#64 ∧
    mcprDecodeVarlong (fun value _ => value) (ofList (mcprEncodeVarlong 2147483648#64 ++ [])) 10 =
      .ok (-2147483648#64, 5) := by
  have hread : mcprDecodeVarlong (fun value _ => value)
      (ofList (mcprEncodeVarlong 2147483648#64 ++ [])) 10 = .ok (-2147483648#64, 5) := by decide
  refine ⟨fun h => ?_, hread⟩
  have hback := h.2.2 (fun value _ => value) [] 10 h.2.1
  rw [hread] at hback
  exact absurd (congrArg Prod.fst (Except.ok.inj hback)) (by decide)

end RoundTrip

end Stronk.Mcpr
