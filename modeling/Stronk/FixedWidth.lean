import Stronk.ByteOrder

/-! Integers and positions on the wire (`mcpr/codec.c`). -/
namespace Stronk.Mcpr
open ByteMemory

section BigEndian

/-- The `n` bytes of a number in two's complement, most significant first. -/
def bigEndian (n : ℕ) (z : ℤ) : List UInt8 :=
  (List.range n).reverse.map fun k => UInt8.ofNat ((z/256^k)%256).toNat

theorem leBytes_eq_map (n v : ℕ) :
    leBytes n v = (List.range n).map fun k => UInt8.ofNat (v/256^k) := by
  induction n generalizing v with
  | zero => rfl
  | succ n ih =>
    rw [leBytes, ih, List.range_succ_eq_map, List.map_cons, List.map_map, pow_zero, Nat.div_one]
    congr 1
    apply List.map_congr_left
    intro k _
    rw [Function.comp_apply, Nat.div_div_eq_div_mul, pow_succ, Nat.mul_comm]

/-- A byte of a number does not change with the sign that is read into its highest bit. -/
theorem byte_of_residue (n k v : ℕ) (c : ℤ) (hk : k < n) :
    UInt8.ofNat ((((v : ℤ)-256^n*c)/256^k)%256).toNat = UInt8.ofNat (v/256^k) := by
  obtain ⟨d, rfl⟩ := Nat.exists_eq_add_of_lt hk
  have hpos : (0 : ℤ) < 256^k := by positivity
  have hdiv : ((v : ℤ)-256^(k+d+1)*c)/256^k = v/256^k-256*(256^d*c) := by
    have hsplit : (256 : ℤ)^(k+d+1)*c = 256^k*(256*(256^d*c)) := by ring
    rw [hsplit, Int.sub_mul_ediv_left _ _ hpos.ne']
  have hcast : (v : ℤ)/256^k = ((v/256^k : ℕ) : ℤ) := by push_cast; rfl
  rw [hdiv, hcast, Int.sub_mul_emod_self_left]
  apply UInt8.toNat_inj.mp
  simp only [UInt8.toNat_ofNat']
  omega

theorem bigEndian_eq (n v : ℕ) (z c : ℤ) (h : z = v-256^n*c) :
    (leBytes n v).reverse = bigEndian n z := by
  subst h
  rw [leBytes_eq_map, bigEndian, List.map_reverse]
  congr 1
  apply List.map_congr_left
  intro k hk
  exact (byte_of_residue n k v c (List.mem_range.mp hk)).symm

/-- The bytes of a bit vector are those of the number it stands for, with or without a sign. -/
theorem bigEndian_toInt {w : ℕ} (n : ℕ) (hw : 2^w = 256^n) (i : BitVec w) :
    (leBytes n i.toNat).reverse = bigEndian n i.toInt := by
  have hcast : ((2^w : ℕ) : ℤ) = 256^n := by rw [hw]; push_cast; rfl
  by_cases hneg : 2*i.toNat < 2^w
  · refine bigEndian_eq n i.toNat i.toInt 0 ?_
    rw [BitVec.toInt_eq_toNat_cond, if_pos hneg]
    ring
  · refine bigEndian_eq n i.toNat i.toInt 1 ?_
    rw [BitVec.toInt_eq_toNat_cond, if_neg hneg, hcast]
    ring

theorem bigEndian_toNat {w : ℕ} (n : ℕ) (i : BitVec w) :
    (leBytes n i.toNat).reverse = bigEndian n i.toNat :=
  bigEndian_eq n i.toNat i.toNat 0 (by ring)

end BigEndian

section Swap

/-- The bytes of a number in the opposite order. -/
def swapBytes (n v : ℕ) : ℕ := leValue (leBytes n v).reverse

theorem swapBytes_lt (n v : ℕ) : swapBytes n v < 256^n := by
  have h := leValue_lt (leBytes n v).reverse
  rwa [List.length_reverse, leBytes_length] at h

theorem swapBytes_swapBytes (n v : ℕ) (h : v < 256^n) : swapBytes n (swapBytes n v) = v := by
  have hb := leBytes_leValue (leBytes n v).reverse
  rw [List.length_reverse, leBytes_length] at hb
  rw [swapBytes, swapBytes, hb, List.reverse_reverse, leValue_leBytes n v h]

theorem leBytes_add (n m v : ℕ) : leBytes (n+m) v = leBytes n v ++ leBytes m (v/256^n) := by
  induction n generalizing v with
  | zero => simp [leBytes]
  | succ n ih =>
    rw [Nat.add_right_comm, leBytes, ih, leBytes, List.cons_append, Nat.div_div_eq_div_mul, pow_succ,
      Nat.mul_comm 256]

theorem leValue_leBytes_mod (n v : ℕ) : leValue (leBytes n v) = v%256^n := by
  induction n generalizing v with
  | zero => simp [leBytes, leValue, Nat.mod_one]
  | succ n ih =>
    have hpow : 256^(n+1) = 256*256^n := pow_succ' 256 n
    rw [leBytes, leValue, ih, UInt8.toNat_ofNat', hpow, Nat.mod_mul]

theorem leBytes_mod (n v : ℕ) : leBytes n (v%256^n) = leBytes n v := by
  have h := leBytes_leValue (leBytes n v)
  rwa [leValue_leBytes_mod, leBytes_length] at h

theorem swapBytes_halves (v : ℕ) :
    swapBytes 8 v = swapBytes 4 (v%2^32)*2^32+swapBytes 4 (v/2^32) := by
  have hlow : leBytes 4 (v%2^32) = leBytes 4 v := leBytes_mod 4 v
  have hsplit : leBytes 8 v = leBytes 4 v ++ leBytes 4 (v/2^32) := leBytes_add 4 4 v
  rw [swapBytes, hsplit, List.reverse_append, leValue_append, List.length_reverse, leBytes_length,
    swapBytes, swapBytes, hlow]
  ring

theorem htons_toNat (x : BitVec 16) : (htons .little x).toNat = swapBytes 2 x.toNat := by
  have h := swapBytes_lt 2 x.toNat
  rw [htons, BitVec.toNat_ofNat]
  exact Nat.mod_eq_of_lt h

theorem htonl_toNat (x : BitVec 32) : (htonl .little x).toNat = swapBytes 4 x.toNat := by
  have h := swapBytes_lt 4 x.toNat
  rw [htonl, BitVec.toNat_ofNat]
  exact Nat.mod_eq_of_lt h

theorem htonll_big (x : BitVec 64) : htonll .big x = x := if_pos rfl

/-- The upper half of a 64-bit word, however it is shifted down. -/
theorem upper_half (x : BitVec 64) : ((x.sshiftRight 32).setWidth 32).toNat = x.toNat/2^32 := by
  have h : (x.sshiftRight 32).setWidth 32 = (x >>> 32).setWidth 32 := by
    apply BitVec.eq_of_getLsbD_eq
    intro i hi
    simp only [BitVec.getLsbD_setWidth, BitVec.getLsbD_sshiftRight, BitVec.getLsbD_ushiftRight, hi,
      show ¬ 64 ≤ i by omega, show 32+i < 64 by omega, decide_true, decide_false, Bool.true_and,
      Bool.not_false, ↓reduceIte]
  have hx := x.isLt
  rw [h, BitVec.toNat_setWidth, BitVec.toNat_ushiftRight, Nat.shiftRight_eq_div_pow]
  exact Nat.mod_eq_of_lt (by omega)

/-- The macro swaps each half, and the halves. -/
theorem htonll_toNat (x : BitVec 64) : (htonll .little x).toNat = swapBytes 8 x.toNat := by
  have hne : ¬ 1#32 = htonl .little 1#32 := by decide
  have hlow := swapBytes_lt 4 (x.toNat%2^32)
  have hhigh := swapBytes_lt 4 (x.toNat/2^32)
  rw [htonll, if_neg hne, BitVec.toNat_or, BitVec.toNat_shiftLeft, BitVec.toNat_setWidth,
    BitVec.toNat_setWidth, htonl_toNat, htonl_toNat, BitVec.toNat_setWidth, upper_half,
    swapBytes_halves x.toNat]
  rw [Nat.mod_eq_of_lt (a := swapBytes 4 (x.toNat%2^32)) (by omega),
    Nat.mod_eq_of_lt (a := swapBytes 4 (x.toNat/2^32)) (by omega), Nat.shiftLeft_eq,
    Nat.mod_eq_of_lt (by omega), ← Nat.shiftLeft_eq,
    ← Nat.shiftLeft_add_eq_or_of_lt (by omega) (swapBytes 4 (x.toNat%2^32)), Nat.shiftLeft_eq]

end Swap

section Wire
variable (host : Endian)

theorem mcprEncodeShort_bytes (i : BitVec 16) :
    mcprEncodeShort host i = (leBytes 2 i.toNat).reverse := by
  apply hostBytes_swapped
  · rintro rfl
    exact htons_toNat i
  · rintro rfl
    rfl

theorem mcprEncodeUshort_bytes (i : BitVec 16) :
    mcprEncodeUshort host i = (leBytes 2 i.toNat).reverse := mcprEncodeShort_bytes host i

theorem mcprEncodeLong_bytes (i : BitVec 64) :
    mcprEncodeLong host i = (leBytes 8 i.toNat).reverse := by
  apply hostBytes_swapped
  · rintro rfl
    exact htonll_toNat i
  · rintro rfl
    rw [htonll_big]

/-- Reading a number as the host stores it, from the bytes that the encoder wrote, gives it in
network order. -/
theorem hostValue_wire (n v : ℕ) (h : v < 256^n) (bs : List UInt8) (s : List UInt8)
    (hbs : bs = (leBytes n v).reverse) : hostValue host (read (ofList (bs ++ s)) n) =
      match host with
      | .little => swapBytes n v
      | .big => v := by
  have hlen : bs.length = n := by rw [hbs, List.length_reverse, leBytes_length]
  have hread : read (ofList (bs ++ s)) n = bs := by
    have hagree := ofList_append bs s
    rw [hlen] at hagree
    rw [(read_eq_iff _ _ n).mpr hagree, ← hlen, read_ofList]
  rw [hread, hbs]
  cases host with
  | little => rfl
  | big => rw [hostValue, List.reverse_reverse, leValue_leBytes n v h]

theorem mcprDecodeShort_encode (i : BitVec 16) (s : List UInt8) :
    mcprDecodeShort host (ofList (mcprEncodeShort host i ++ s)) = i := by
  have hi : i.toNat < 256^2 := i.isLt
  have h := hostValue_wire host 2 i.toNat hi _ s (mcprEncodeShort_bytes host i)
  rw [mcprDecodeShort, mcprShortSize, h]
  apply BitVec.eq_of_toNat_eq
  cases host with
  | little =>
    have hlt := swapBytes_lt 2 i.toNat
    rw [htons_toNat, BitVec.toNat_ofNat, Nat.mod_eq_of_lt (by omega), swapBytes_swapBytes 2 _ hi]
  | big => rw [htons, BitVec.toNat_ofNat, Nat.mod_eq_of_lt i.isLt]

theorem mcprDecodeUshort_encode (i : BitVec 16) (s : List UInt8) :
    mcprDecodeUshort host (ofList (mcprEncodeUshort host i ++ s)) = i :=
  mcprDecodeShort_encode host i s

theorem mcprDecodeInt_encode (i : BitVec 32) (s : List UInt8) :
    mcprDecodeInt host (ofList (mcprEncodeInt host i ++ s)) = i := by
  have hi : i.toNat < 256^4 := i.isLt
  have h := hostValue_wire host 4 i.toNat hi _ s (mcprEncodeInt_bytes host i)
  rw [mcprDecodeInt, mcprIntSize, h]
  apply BitVec.eq_of_toNat_eq
  cases host with
  | little =>
    have hlt := swapBytes_lt 4 i.toNat
    rw [htonl_toNat, BitVec.toNat_ofNat, Nat.mod_eq_of_lt (by omega), swapBytes_swapBytes 4 _ hi]
  | big => rw [htonl, BitVec.toNat_ofNat, Nat.mod_eq_of_lt i.isLt]

theorem mcprDecodeLong_encode (i : BitVec 64) (s : List UInt8) :
    mcprDecodeLong host (ofList (mcprEncodeLong host i ++ s)) = i := by
  have hi : i.toNat < 256^8 := i.isLt
  have h := hostValue_wire host 8 i.toNat hi _ s (mcprEncodeLong_bytes host i)
  rw [mcprDecodeLong, mcprLongSize, h]
  apply BitVec.eq_of_toNat_eq
  cases host with
  | little =>
    have hlt := swapBytes_lt 8 i.toNat
    rw [htonll_toNat, BitVec.toNat_ofNat, Nat.mod_eq_of_lt (by omega), swapBytes_swapBytes 8 _ hi]
  | big => rw [htonll_big, BitVec.toNat_ofNat, Nat.mod_eq_of_lt i.isLt]

/-- Integers go out in two's complement, most significant byte first, whatever the host is, and are
read back. -/
theorem fixed_width_big_endian :
    (∀ i : BitVec 16, mcprEncodeShort host i = bigEndian 2 i.toInt ∧
      ∀ s, mcprDecodeShort host (ofList (mcprEncodeShort host i ++ s)) = i) ∧
    (∀ i : BitVec 16, mcprEncodeUshort host i = bigEndian 2 i.toNat ∧
      ∀ s, mcprDecodeUshort host (ofList (mcprEncodeUshort host i ++ s)) = i) ∧
    (∀ i : BitVec 32, mcprEncodeInt host i = bigEndian 4 i.toInt ∧
      ∀ s, mcprDecodeInt host (ofList (mcprEncodeInt host i ++ s)) = i) ∧
    ∀ i : BitVec 64, mcprEncodeLong host i = bigEndian 8 i.toInt ∧
      ∀ s, mcprDecodeLong host (ofList (mcprEncodeLong host i ++ s)) = i := by
  refine ⟨fun i => ⟨?_, mcprDecodeShort_encode host i⟩, fun i => ⟨?_, mcprDecodeUshort_encode host i⟩,
    fun i => ⟨?_, mcprDecodeInt_encode host i⟩, fun i => ⟨?_, mcprDecodeLong_encode host i⟩⟩
  · rw [mcprEncodeShort_bytes]
    exact bigEndian_toInt 2 (by norm_num) i
  · rw [mcprEncodeUshort_bytes]
    exact bigEndian_toNat 2 i
  · rw [mcprEncodeInt_bytes]
    exact bigEndian_toInt 4 (by norm_num) i
  · rw [mcprEncodeLong_bytes]
    exact bigEndian_toInt 8 (by norm_num) i

end Wire

end Stronk.Mcpr
