import Stronk.FixedWidth

/-! Floating-point numbers on the wire, by their bit patterns (`mcpr/codec.c`). They are encoded
through the macro for 64 bits, and decoded without any. -/
namespace Stronk.Mcpr
open ByteMemory

section Kept

/-- A `float` goes out with the most significant byte first, and is read back. -/
def FloatKept (host : Endian) (shiftOut : BitVec 32 → BitVec 32) (f : BitVec 32) : Prop :=
  mcprEncodeFloat host shiftOut f = bigEndian 4 f.toNat ∧
    ∀ s, mcprDecodeFloat host (ofList (mcprEncodeFloat host shiftOut f ++ s)) = f

def DoubleKept (host : Endian) (d : BitVec 64) : Prop :=
  mcprEncodeDouble host d = bigEndian 8 d.toNat ∧
    ∀ s, mcprDecodeDouble host (ofList (mcprEncodeDouble host d ++ s)) = d

end Kept

section Encode
variable (shiftOut : BitVec 32 → BitVec 32)

theorem mcprEncodeFloat_big (f : BitVec 32) :
    mcprEncodeFloat .big shiftOut f = (leBytes 4 f.toNat).reverse := by
  have hword : htonll32 .big shiftOut f = f.setWidth 64 := if_pos rfl
  rw [mcprEncodeFloat, hword, BitVec.setWidth_setWidth_of_le _ (by decide), BitVec.setWidth_eq]
  rfl

/-- Only the lower half of the swapped word is stored, and that is what was shifted out. -/
theorem mcprEncodeFloat_little (f : BitVec 32) :
    mcprEncodeFloat .little shiftOut f = (leBytes 4 (shiftOut f).toNat).reverse := by
  have hne : ¬ 1#32 = htonl .little 1#32 := by decide
  have hlow : (htonll32 .little shiftOut f).setWidth 32 = htonl .little (shiftOut f) := by
    rw [htonll32, if_neg hne]
    apply BitVec.eq_of_getLsbD_eq
    intro i hi
    simp only [BitVec.getLsbD_setWidth, BitVec.getLsbD_or, BitVec.getLsbD_shiftLeft, hi,
      decide_true, Bool.true_and, Bool.not_true, Bool.and_false, Bool.false_and, Bool.false_or,
      show i < 64 by omega]
  rw [mcprEncodeFloat, hlow]
  exact mcprEncodeInt_bytes .little (shiftOut f)

theorem leBytes_inj {n v w : ℕ} (hv : v < 256^n) (hw : w < 256^n) (h : leBytes n v = leBytes n w) :
    v = w := by
  rw [← leValue_leBytes n v hv, h, leValue_leBytes n w hw]

end Encode

section Decode

/-- The bytes of a `float` are taken as the host stores them. -/
theorem mcprDecodeFloat_wire (host : Endian) (f : BitVec 32) (s : List UInt8) :
    mcprDecodeFloat host (ofList ((leBytes 4 f.toNat).reverse ++ s)) =
      match host with
      | .little => BitVec.ofNat 32 (swapBytes 4 f.toNat)
      | .big => f := by
  have h := hostValue_wire host 4 f.toNat f.isLt _ s rfl
  rw [mcprDecodeFloat, mcprFloatSize, h]
  cases host with
  | little => rfl
  | big => rw [BitVec.ofNat_toNat, BitVec.setWidth_eq]

theorem mcprDecodeDouble_wire (host : Endian) (d : BitVec 64) (s : List UInt8) :
    mcprDecodeDouble host (ofList ((leBytes 8 d.toNat).reverse ++ s)) =
      match host with
      | .little => BitVec.ofNat 64 (swapBytes 8 d.toNat)
      | .big => d := by
  have h := hostValue_wire host 8 d.toNat d.isLt _ s rfl
  rw [mcprDecodeDouble, mcprDoubleSize, h]
  cases host with
  | little => rfl
  | big => rw [BitVec.ofNat_toNat, BitVec.setWidth_eq]

theorem ofNat_swapBytes_eq_iff {w n : ℕ} (hw : 2^w = 256^n) (x : BitVec w) :
    BitVec.ofNat w (swapBytes n x.toNat) = x ↔ swapBytes n x.toNat = x.toNat := by
  have hlt := swapBytes_lt n x.toNat
  rw [← BitVec.toNat_inj, BitVec.toNat_ofNat, Nat.mod_eq_of_lt (hw ▸ hlt)]

end Decode

section Iff

theorem doubleKept_iff (host : Endian) (d : BitVec 64) :
    DoubleKept host d ↔ host = .big ∨ swapBytes 8 d.toNat = d.toNat := by
  have hbytes : mcprEncodeDouble host d = (leBytes 8 d.toNat).reverse := mcprEncodeLong_bytes host d
  rw [DoubleKept, hbytes]
  simp only [mcprDecodeDouble_wire, forall_const]
  cases host with
  | little =>
    rw [ofNat_swapBytes_eq_iff (by norm_num) d]
    simp [bigEndian_toNat]
  | big => simp [bigEndian_toNat]

theorem floatKept_little_iff (shiftOut : BitVec 32 → BitVec 32) (f : BitVec 32) :
    FloatKept .little shiftOut f ↔ shiftOut f = f ∧ swapBytes 4 f.toNat = f.toNat := by
  rw [FloatKept, mcprEncodeFloat_little, ← bigEndian_toNat, List.reverse_inj]
  -- the encoder stores what was shifted out, so that has to be the pattern itself
  have hshift : leBytes 4 (shiftOut f).toNat = leBytes 4 f.toNat ↔ shiftOut f = f := by
    constructor
    · intro h
      exact BitVec.eq_of_toNat_eq (leBytes_inj (shiftOut f).isLt f.isLt h)
    · intro h
      rw [h]
  rw [hshift]
  apply and_congr_right
  intro h
  rw [h]
  simp only [mcprDecodeFloat_wire, forall_const]
  exact ofNat_swapBytes_eq_iff (by norm_num) f

/-- On a big-endian host every pattern is kept; on a little-endian one the pattern has to be the
same from both ends, and for a `float` the shift of 32 bits by 32 places must give them back. -/
theorem float_bits_kept_iff (host : Endian) (shiftOut : BitVec 32 → BitVec 32) :
    (∀ f, FloatKept host shiftOut f ↔
      host = .big ∨ shiftOut f = f ∧ swapBytes 4 f.toNat = f.toNat) ∧
    ∀ d, DoubleKept host d ↔ host = .big ∨ swapBytes 8 d.toNat = d.toNat := by
  refine ⟨?_, doubleKept_iff host⟩
  intro f
  cases host with
  | little => simp [floatKept_little_iff]
  | big =>
    have hkept : FloatKept .big shiftOut f := by
      rw [FloatKept, mcprEncodeFloat_big]
      exact ⟨bigEndian_toNat 4 f, mcprDecodeFloat_wire .big f⟩
    simp [hkept]

/-- The number 1, on a little-endian host. -/
theorem one_not_kept : (∀ shiftOut, ¬ FloatKept .little shiftOut 0x3F800000#32) ∧
    ¬ DoubleKept .little 0x3FF0000000000000#64 := by
  constructor
  · intro shiftOut h
    have hswap := ((floatKept_little_iff shiftOut _).mp h).2
    exact absurd hswap (by decide)
  · intro h
    rcases (doubleKept_iff .little _).mp h with hbig | hswap
    · cases hbig
    · exact absurd hswap (by decide)

end Iff

end Stronk.Mcpr
