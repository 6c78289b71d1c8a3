import Stronk.ByteParser
import Stronk.Leb128
import Stronk.McprCodec

/-! VarInts: what the decoder accepts, and what it makes of it (`mcpr/codec.c`). -/
namespace Stronk.Mcpr
open ByteMemory ByteParser Leb128

section Encode
variable {w : ℕ}

/-- A group with and without its highest bit, and the groups after it. -/
theorem word_group (hw : 7 < w) (value : BitVec w) :
    let tmp := UInt8.ofBitVec ((value &&& 0x7F#w).setWidth 8)
    tmp = UInt8.ofNat (value.toNat%128) ∧ tmp ||| 0x80 = UInt8.ofNat (value.toNat%128+128) ∧
      (value >>> 7).toNat = value.toNat/128 := by
  have hmask : (0x7F#w).toNat = 127 := by
    have h8 : 2^8 ≤ 2^w := Nat.pow_le_pow_right (by decide) hw
    rw [BitVec.toNat_ofNat]
    exact Nat.mod_eq_of_lt (by omega)
  have hlow : (UInt8.ofBitVec ((value &&& 0x7F#w).setWidth 8)).toNat = value.toNat%128 := by
    rw [UInt8.toNat_ofBitVec, BitVec.toNat_setWidth, BitVec.toNat_and, hmask,
      Nat.and_two_pow_sub_one_eq_mod value.toNat 7]
    omega
  refine ⟨?_, ?_, ?_⟩
  · apply UInt8.toNat_inj.mp
    rw [hlow, UInt8.toNat_ofNat']
    omega
  · have hor := Nat.two_pow_add_eq_or_of_lt (i := 7) (Nat.mod_lt value.toNat (by decide)) 1
    have hbit : (UInt8.ofBitVec ((value &&& 0x7F#w).setWidth 8) ||| 0x80).toNat =
        value.toNat%128+128 := by
      rw [UInt8.toNat_or, hlow, Nat.lor_comm]
      exact hor.symm.trans (Nat.add_comm _ _)
    apply UInt8.toNat_inj.mp
    rw [hbit, UInt8.toNat_ofNat']
    omega
  · rw [BitVec.toNat_ushiftRight, Nat.shiftRight_eq_div_pow]

/-- The next groups are those of the rest, if there is a rest. -/
theorem word_rest (hw : 7 < w) (value : BitVec w) : value >>> 7 ≠ 0#w ↔ value.toNat/128 ≠ 0 := by
  rw [← (word_group hw value).2.2, Ne, Ne, ← BitVec.toNat_inj, BitVec.toNat_zero]

/-- A loop that takes a group off the word in every turn writes the groups of its number. -/
theorem wordLoop_groups {loop : ℕ → BitVec w → List UInt8} (hw : 7 < w)
    (hnone : ∀ value, loop 0 value = [])
    (hloop : ∀ turns value, loop (turns+1) value =
      let tmp := UInt8.ofBitVec ((value &&& 0x7F#w).setWidth 8)
      if value >>> 7 ≠ 0#w then (tmp ||| 0x80) :: loop turns (value >>> 7) else [tmp])
    (turns : ℕ) (value : BitVec w) : loop turns value = groupBytes turns value.toNat := by
  induction turns generalizing value with
  | zero => exact hnone value
  | succ turns ih =>
    obtain ⟨hlast, hmore, hrest⟩ := word_group hw value
    rw [hlast] at hmore
    rw [hloop, groupBytes]
    simp only [hlast, hmore, word_rest hw, ih, hrest]

theorem mcprEncodeVarint_groups (value : BitVec 32) :
    mcprEncodeVarint value = groupBytes 5 value.toNat :=
  wordLoop_groups (by decide) (fun _ => rfl) (fun _ _ => rfl) 5 value

theorem mcprEncodeVarlong_groups (value : BitVec 64) :
    mcprEncodeVarlong value = groupBytes 10 value.toNat :=
  wordLoop_groups (by decide) (fun _ => rfl) (fun _ _ => rfl) 10 value

/-- A reader of groups finds the number in its groups. -/
theorem reads_groupBytes (turns v : ℕ) (h : v < 128^(turns+1)) :
    Reads (leb128 (turns+1)) (groupBytes (turns+1) v) v := by
  have hbyte (n : ℕ) (hn : n < 256) : (UInt8.ofNat n).toNat = n := by
    rw [UInt8.toNat_ofNat', Nat.mod_eq_of_lt hn]
  have hone (turns v : ℕ) (hv : v/128 = 0) :
      Reads (leb128 (turns+1)) (groupBytes (turns+1) v) v := by
    have hlow : v%128 = v := by omega
    rw [groupBytes, if_neg (not_not.mpr hv), hlow]
    have hlast := reads_leb128_last turns (UInt8.ofNat v) (by rw [hbyte v (by omega)]; omega)
    rwa [hbyte v (by omega)] at hlast
  induction turns generalizing v with
  | zero => exact hone 0 v (Nat.div_eq_of_lt (by simpa using h))
  | succ turns ih =>
    by_cases hv : v/128 = 0
    · exact hone (turns+1) v hv
    · rw [groupBytes, if_pos hv]
      have htail := ih (v/128) (Nat.div_lt_of_lt_mul (by rwa [pow_succ'] at h))
      have hmore := reads_leb128_more (turns+1) (UInt8.ofNat (v%128+128))
        (by rw [hbyte _ (by omega)]; omega) htail
      rwa [hbyte _ (by omega), Nat.add_sub_cancel, Nat.mod_add_div] at hmore

theorem reads_mcprEncodeVarint (value : BitVec 32) :
    Reads (leb128 5) (mcprEncodeVarint value) value.toNat := by
  rw [mcprEncodeVarint_groups]
  exact reads_groupBytes 4 value.toNat (lt_trans value.isLt (by decide))

/-- The first byte of a VarInt is 0 for 0 only. -/
theorem mcprEncodeVarint_head (value : BitVec 32) (h : value ≠ 0#32) :
    ∃ b rest, mcprEncodeVarint value = b :: rest ∧ b ≠ 0 := by
  have hne : value.toNat ≠ 0 := by
    rwa [Ne, ← BitVec.toNat_zero, BitVec.toNat_inj]
  have hbyte (n : ℕ) (hn : n < 256) (hn0 : n ≠ 0) : UInt8.ofNat n ≠ 0 := by
    intro hzero
    have hnat := congrArg UInt8.toNat hzero
    rw [UInt8.toNat_ofNat', UInt8.toNat_zero] at hnat
    omega
  rw [mcprEncodeVarint_groups, groupBytes]
  split_ifs with hmore
  · exact ⟨_, _, rfl, hbyte _ (by omega) (by omega)⟩
  · exact ⟨_, _, rfl, hbyte _ (by omega) (by omega)⟩

end Encode

section Decode

/-- What a turn of `mcpr_decode_varint` adds to the result. -/
def addVarint (i : ℕ) (tmp : UInt8) (result : BitVec 32) : BitVec 32 :=
  result ||| ((tmp &&& 0x7F).toBitVec.setWidth 32) <<< (7*i)

/-- `mcpr_decode_varint` on a buffer that may lack the bytes it fetches. -/
def mcprDecodeVarintFrom (buf : ℕ → Option UInt8) (maxLen : UInt64) :
    Option (Except String (BitVec 32 × ℕ)) :=
  readGroups addVarint "Varint size exceeded 5 bytes."
    "Exceeded given max length whilst decoding varint." mcprVarintSizeMax maxLen.toNat buf 6 0 0#32

/-- `mcpr_decode_varint` as its caller sees it: `*out` afterwards, and the result. -/
def mcprDecodeVarintInto (out : BitVec 32) (mem : Mem) (maxLen : UInt64) : BitVec 32 × ℤ :=
  match mcprDecodeVarint mem maxLen with
  | .ok (value, n) => (value, n)
  | .error _ => (out, -1)

variable (mem : Mem) (maxLen : UInt64)

/-- On a memory that lacks nothing it is the decoder. -/
theorem mcprDecodeVarintFrom_mem :
    mcprDecodeVarintFrom (fun k => some (mem k)) maxLen = some (mcprDecodeVarint mem maxLen) :=
  readGroups_eq_loop addVarint _ _ mcprVarintSizeMax maxLen.toNat (fun _ _ _ => rfl) 6 0
    (Nat.zero_le _) rfl 0#32

/-- The groups are disjoint, so that adding one to the others is an addition. -/
theorem addVarint_sum (n : ℕ) :
    addVarint n (mem n) (BitVec.ofNat 32 (groupSum mem n)) = BitVec.ofNat 32 (groupSum mem (n+1)) := by
  have hlt : groupSum mem n < 2^(7*n) := by
    rw [Nat.pow_mul]
    exact groupSum_lt mem n
  have hgroup : ((mem n &&& 0x7F).toBitVec.setWidth 32) <<< (7*n) =
      BitVec.ofNat 32 (((mem n).toNat%128) <<< (7*n)) := by
    apply BitVec.eq_of_toNat_eq
    have hlow : (mem n &&& 0x7F).toNat = (mem n).toNat%128 := by
      rw [UInt8.toNat_and]
      exact Nat.and_two_pow_sub_one_eq_mod (mem n).toNat 7
    have hwide : ((mem n &&& 0x7F).toBitVec.setWidth 32).toNat = (mem n).toNat%128 := by
      rw [BitVec.toNat_setWidth, UInt8.toNat_toBitVec, hlow]
      omega
    rw [BitVec.toNat_shiftLeft, hwide, BitVec.toNat_ofNat]
  have hpow : 2^(7*n) = 128^n := Nat.pow_mul 2 7 n
  have hsum := Nat.shiftLeft_add_eq_or_of_lt hlt ((mem n).toNat%128)
  rw [addVarint, hgroup, ← BitVec.ofNat_or, Nat.lor_comm, ← hsum, Nat.shiftLeft_eq, hpow, Nat.add_comm,
    ← groupSum_succ]

theorem foldGroups_varint (n : ℕ) :
    foldGroups addVarint 0#32 mem n = BitVec.ofNat 32 (groupSum mem n) := by
  induction n with
  | zero => rfl
  | succ n ih => rw [foldGroups, ih, addVarint_sum]

variable {mem maxLen} {n : ℕ}

/-- What ends within the limits is decoded. -/
theorem mcprDecodeVarint_endsAt (h : EndsAt mem n) (hn : n ≤ min mcprVarintSizeMax maxLen.toNat) :
    mcprDecodeVarint mem maxLen = .ok (BitVec.ofNat 32 (groupSum mem n), n) := by
  have hread := readGroups_endsAt addVarint "Varint size exceeded 5 bytes."
    "Exceeded given max length whilst decoding varint." mcprVarintSizeMax maxLen.toNat 0#32 h
    (by omega) (by omega) (fun _ _ => rfl) 6 0 h.pos rfl
  rw [foldGroups_varint mem n] at hread
  exact Option.some_inj.mp ((mcprDecodeVarintFrom_mem mem maxLen).symm.trans hread)

theorem mcprDecodeVarint_open (h : ∀ n ≤ min mcprVarintSizeMax maxLen.toNat, ¬ EndsAt mem n) :
    ∃ message, mcprDecodeVarint mem maxLen = .error message := by
  have hmore : ∀ i < min mcprVarintSizeMax maxLen.toNat, 128 ≤ (mem i).toNat := by
    have hnone : ¬ ∃ i < min mcprVarintSizeMax maxLen.toNat, (mem i).toNat < 128 := by
      rw [← exists_endsAt_iff]
      rintro ⟨n, hn, hends⟩
      exact h n hn hends
    intro i hi
    by_contra hlast
    exact hnone ⟨i, hi, not_le.mp hlast⟩
  have hread := readGroups_open addVarint "Varint size exceeded 5 bytes."
    "Exceeded given max length whilst decoding varint." mcprVarintSizeMax maxLen.toNat hmore
    (fun _ _ => rfl) 6 0 (Nat.zero_le _) rfl 0#32
  exact ⟨_, Option.some_inj.mp ((mcprDecodeVarintFrom_mem mem maxLen).symm.trans hread)⟩

theorem mcprDecodeVarint_sound {v : BitVec 32} (h : mcprDecodeVarint mem maxLen = .ok (v, n)) :
    EndsAt mem n ∧ n ≤ min mcprVarintSizeMax maxLen.toNat ∧ v = BitVec.ofNat 32 (groupSum mem n) := by
  by_cases hex : ∃ n ≤ min mcprVarintSizeMax maxLen.toNat, EndsAt mem n
  · obtain ⟨m, hm, hends⟩ := hex
    have hok := mcprDecodeVarint_endsAt hends hm
    rw [h] at hok
    cases hok
    exact ⟨hends, hm, rfl⟩
  · push Not at hex
    obtain ⟨message, herror⟩ := mcprDecodeVarint_open hex
    rw [h] at herror
    cases herror

/-- The decoder accepts exactly the numbers that end within the limits; what it refuses leaves the
output as it was. -/
theorem varint_grammar (out : BitVec 32) (mem : Mem) (maxLen : UInt64) :
    (∀ n : ℕ, 0 < n → ((mcprDecodeVarintInto out mem maxLen).2 = n ↔
      1 ≤ n ∧ n ≤ min 5 maxLen.toNat ∧ (∀ i < n-1, 128 ≤ (mem i).toNat) ∧ (mem (n-1)).toNat < 128)) ∧
    (∀ n : ℕ, 0 < n → (mcprDecodeVarintInto out mem maxLen).2 = n →
      (mcprDecodeVarintInto out mem maxLen).1 =
        BitVec.ofNat 32 (∑ i ∈ Finset.range n, (mem i).toNat%128*128^i)) ∧
    ((∀ n : ℕ, 0 < n → (mcprDecodeVarintInto out mem maxLen).2 ≠ n) →
      mcprDecodeVarintInto out mem maxLen = (out, -1)) := by
  rcases hd : mcprDecodeVarint mem maxLen with message | ⟨v, k⟩
  · have hinto : mcprDecodeVarintInto out mem maxLen = (out, -1) := by rw [mcprDecodeVarintInto, hd]
    rw [hinto]
    refine ⟨fun n hn => ⟨fun h => by omega, fun ⟨_, hle, hmore, hlast⟩ => ?_⟩,
      fun n hn h => by omega, fun _ => rfl⟩
    have hends : EndsAt mem n := ⟨hn, fun i hi => hmore i (by omega), hlast⟩
    rw [mcprDecodeVarint_endsAt hends hle] at hd
    cases hd
  · have hinto : mcprDecodeVarintInto out mem maxLen = (v, (k : ℤ)) := by rw [mcprDecodeVarintInto, hd]
    obtain ⟨hends, hle, hv⟩ := mcprDecodeVarint_sound hd
    rw [hinto]
    refine ⟨fun n hn => ⟨fun h => ?_, fun ⟨_, _, hmore, hlast⟩ => ?_⟩, fun n hn h => ?_, fun h => ?_⟩
    · obtain rfl : k = n := Int.ofNat_inj.mp h
      exact ⟨hn, hle, fun i hi => hends.more i (by omega), hends.last⟩
    · have hends' : EndsAt mem n := ⟨hn, fun i hi => hmore i (by omega), hlast⟩
      rw [hends.unique hends']
    · obtain rfl : k = n := Int.ofNat_inj.mp h
      exact hv
    · exact absurd rfl (h k hends.pos)

end Decode

section Codec
variable (out v : BitVec 32)

theorem mcprEncodeVarint_endsAt (s : List UInt8) :
    EndsAt (ofList (mcprEncodeVarint v ++ s)) (mcprEncodeVarint v).length ∧
      groupSum (ofList (mcprEncodeVarint v ++ s)) (mcprEncodeVarint v).length = v.toNat := by
  rw [mcprEncodeVarint_groups]
  exact groupBytes_endsAt s (lt_trans v.isLt (by decide))

/-- The decoder reads back what the encoder wrote. -/
theorem mcprDecodeVarint_encode (mem : Mem) (maxLen : UInt64) (value : BitVec 32)
    (hmem : AgreeOn (mcprEncodeVarint value).length mem (ofList (mcprEncodeVarint value)))
    (hmax : (mcprEncodeVarint value).length ≤ maxLen.toNat) :
    mcprDecodeVarint mem maxLen = .ok (value, (mcprEncodeVarint value).length) := by
  obtain ⟨hends, hsum⟩ := mcprEncodeVarint_endsAt value []
  rw [List.append_nil] at hends hsum
  have hle : (mcprEncodeVarint value).length ≤ 5 := by
    rw [mcprEncodeVarint_groups]
    exact groupBytes_length_le 5 value.toNat
  have hmem' := agreeOn_symm hmem
  rw [mcprDecodeVarint_endsAt (hends.congr hmem') (by unfold mcprVarintSizeMax; omega),
    groupSum_congr hmem, hsum, BitVec.ofNat_toNat, BitVec.setWidth_eq]

/-- Where the first number ends the second one does, and they stand for the same groups. -/
theorem mcprEncodeVarint_append_inj {v v' : BitVec 32} {s s' : List UInt8}
    (h : mcprEncodeVarint v ++ s = mcprEncodeVarint v' ++ s') : v = v' := by
  obtain ⟨hends, hsum⟩ := mcprEncodeVarint_endsAt v s
  obtain ⟨hends', hsum'⟩ := mcprEncodeVarint_endsAt v' s'
  rw [h] at hends hsum
  rw [hends.unique hends'] at hsum
  exact BitVec.eq_of_toNat_eq (hsum.symm.trans hsum')

/-- Every value is written in its own way, in as few bytes as any that are read as it, and is read
back under every limit that its bytes keep to. -/
theorem varint_codec :
    (mcprEncodeVarint v).length = mcprVarintBounds v ∧ 1 ≤ mcprVarintBounds v ∧
    mcprVarintBounds v ≤ 5 ∧
    (∀ s maxLen, mcprDecodeVarintInto out (ofList (mcprEncodeVarint v ++ s)) maxLen =
      if mcprVarintBounds v ≤ maxLen.toNat then (v, (mcprVarintBounds v : ℤ)) else (out, -1)) ∧
    (∀ v', mcprEncodeVarint v <+: mcprEncodeVarint v' → v = v') ∧
    ∀ mem maxLen (n : ℕ), 0 < n → mcprDecodeVarintInto out mem maxLen = (v, (n : ℤ)) →
      mcprVarintBounds v ≤ n := by
  have hlen := mcprEncodeVarint_length v
  have hle := mcprVarintBounds_le v
  refine ⟨hlen, mcprVarintBounds_pos v, hle, ?_, ?_, ?_⟩
  · intro s maxLen
    obtain ⟨hends, hsum⟩ := mcprEncodeVarint_endsAt v s
    rw [hlen] at hends hsum
    rw [mcprDecodeVarintInto]
    split_ifs with hmax
    · rw [mcprDecodeVarint_endsAt hends (by unfold mcprVarintSizeMax; omega), hsum, BitVec.ofNat_toNat,
        BitVec.setWidth_eq]
    · have hopen : ∀ n ≤ min mcprVarintSizeMax maxLen.toNat,
          ¬ EndsAt (ofList (mcprEncodeVarint v ++ s)) n := by
        intro n hn hends'
        have := hends.unique hends'
        omega
      obtain ⟨message, herror⟩ := mcprDecodeVarint_open hopen
      rw [herror]
  · rintro v' ⟨s, hs⟩
    rw [← List.append_nil (mcprEncodeVarint v')] at hs
    exact mcprEncodeVarint_append_inj hs
  · intro mem maxLen n hn hinto
    have hd : mcprDecodeVarint mem maxLen = .ok (v, n) := by
      rw [mcprDecodeVarintInto] at hinto
      split at hinto
      · rename_i value k hd
        have hv : value = v := congrArg Prod.fst hinto
        have hk : (k : ℤ) = n := congrArg Prod.snd hinto
        rw [hd, hv, show k = n by exact_mod_cast hk]
      · have hk : (-1 : ℤ) = n := congrArg Prod.snd hinto
        omega
    -- a number in `n` groups is less than 128^n, and is not written in more
    obtain ⟨-, -, hv⟩ := mcprDecodeVarint_sound hd
    have hlt : v.toNat < 128^n := by
      rw [hv, BitVec.toNat_ofNat]
      exact lt_of_le_of_lt (Nat.mod_le _ _) (groupSum_lt mem n)
    rw [← hlen, mcprEncodeVarint_groups]
    exact groupBytes_length_le_of_lt hn hlt

end Codec

end Stronk.Mcpr
