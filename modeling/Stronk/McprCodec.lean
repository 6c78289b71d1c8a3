import Stronk.ByteMemory

/-! Encoding and decoding of Minecraft protocol data (`mcpr/codec.c`). Fixed-width integers
are bit vectors, a `float` or a `double` is its bit pattern, and a C string is the list of
the bytes of its buffer, of which the functions of `string.h` see those before the first NUL. -/
namespace Stronk.Mcpr
open ByteMemory

def mcprVarintSizeMax : ℕ := 5
def mcprVarlongSizeMax : ℕ := 10
def mcprStrMax : ℤ := 2147483652
def mcprByteSize : ℕ := 1
def mcprUbyteSize : ℕ := 1
def mcprBoolSize : ℕ := 1
def mcprShortSize : ℕ := 2
def mcprUshortSize : ℕ := 2
def mcprIntSize : ℕ := 4
def mcprLongSize : ℕ := 8
def mcprFloatSize : ℕ := 4
def mcprDoubleSize : ℕ := 8
def mcprPositionSize : ℕ := 8

def int32Max : ℤ := 2147483647

/-- The largest block the allocator hands out. -/
def ptrdiffMax : ℕ := 9223372036854775807

/-- Values of `ninerr`. -/
inductive Ninerr
  | new (message : String)
  | arithmetic
  | fromErrno
  | outOfMemory
  deriving DecidableEq, Repr, Inhabited

/-- Byte order of the host. -/
inductive Endian
  | little
  | big
  deriving DecidableEq, Repr, Inhabited

/-- The `n` low bytes of `v`, least significant first. -/
def leBytes : ℕ → ℕ → List UInt8
  | 0, _ => []
  | n+1, v => UInt8.ofNat v :: leBytes n (v/256)

def leValue : List UInt8 → ℕ
  | [] => 0
  | b :: bs => b.toNat+256*leValue bs

/-- Object representation of an `n`-byte integer. -/
def hostBytes (host : Endian) (n v : ℕ) : List UInt8 :=
  match host with
  | .little => leBytes n v
  | .big => (leBytes n v).reverse

def hostValue (host : Endian) (bs : List UInt8) : ℕ :=
  match host with
  | .little => leValue bs
  | .big => leValue bs.reverse

def htons (host : Endian) (x : BitVec 16) : BitVec 16 :=
  match host with
  | .little => BitVec.ofNat 16 (leValue (leBytes 2 x.toNat).reverse)
  | .big => x

def htonl (host : Endian) (x : BitVec 32) : BitVec 32 :=
  match host with
  | .little => BitVec.ofNat 32 (leValue (leBytes 4 x.toNat).reverse)
  | .big => x

/-- The macro `htonll` of `mcpr/util.h` on a 64-bit operand. -/
def htonll (host : Endian) (x : BitVec 64) : BitVec 64 :=
  if 1#32 = htonl host 1#32 then x
  else ((htonl host (x.setWidth 32)).setWidth 64 <<< 32) |||
    (htonl host ((x.sshiftRight 32).setWidth 32)).setWidth 64

/-- The macro `htonll` on a 32-bit operand. C leaves a shift of it by 32 places undefined,
so what it gives is a parameter. -/
def htonll32 (host : Endian) (shiftOut : BitVec 32 → BitVec 32) (x : BitVec 32) : BitVec 64 :=
  if 1#32 = htonl host 1#32 then x.setWidth 64
  else ((htonl host x).setWidth 64 <<< 32) ||| (htonl host (shiftOut x)).setWidth 64

def mcprEncodeBool (b : Bool) : List UInt8 := [if b then 0x01 else 0x00]

def mcprEncodeByte (byte : BitVec 8) : List UInt8 := [UInt8.ofBitVec byte]

def mcprEncodeUbyte (byte : UInt8) : List UInt8 := [byte]

def mcprEncodeShort (host : Endian) (i : BitVec 16) : List UInt8 :=
  hostBytes host mcprShortSize (htons host i).toNat

def mcprEncodeUshort (host : Endian) (i : BitVec 16) : List UInt8 :=
  hostBytes host mcprUshortSize (htons host i).toNat

def mcprEncodeInt (host : Endian) (i : BitVec 32) : List UInt8 :=
  hostBytes host mcprIntSize (htonl host i).toNat

def mcprEncodeLong (host : Endian) (i : BitVec 64) : List UInt8 :=
  hostBytes host mcprLongSize (htonll host i).toNat

def mcprEncodeFloat (host : Endian) (shiftOut : BitVec 32 → BitVec 32) (f : BitVec 32) :
    List UInt8 :=
  hostBytes host mcprFloatSize ((htonll32 host shiftOut f).setWidth 32).toNat

def mcprEncodeDouble (host : Endian) (d : BitVec 64) : List UInt8 :=
  hostBytes host mcprDoubleSize (htonll host d).toNat

/-- The `do ... while` of `mcpr_encode_varint`. Seven bits leave the 32-bit value at every
turn, so it ends within five. -/
def mcprEncodeVarintLoop : ℕ → BitVec 32 → List UInt8
  | 0, _ => []
  | turns+1, value =>
    let tmp := UInt8.ofBitVec ((value &&& 0x7F#32).setWidth 8)
    let value := value >>> 7
    if value ≠ 0#32 then (tmp ||| 0x80) :: mcprEncodeVarintLoop turns value else [tmp]

def mcprEncodeVarint (value : BitVec 32) : List UInt8 := mcprEncodeVarintLoop 5 value

def mcprVarintBoundsLoop : ℕ → BitVec 32 → ℕ
  | 0, _ => 0
  | turns+1, value =>
    let value := value >>> 7
    1+if value ≠ 0#32 then mcprVarintBoundsLoop turns value else 0

def mcprVarintBounds (value : BitVec 32) : ℕ := mcprVarintBoundsLoop 5 value

/-- The `do ... while` of `mcpr_encode_varlong`, which ends within ten turns. -/
def mcprEncodeVarlongLoop : ℕ → BitVec 64 → List UInt8
  | 0, _ => []
  | turns+1, value =>
    let tmp := UInt8.ofBitVec ((value &&& 0x7F#64).setWidth 8)
    let value := value >>> 7
    if value ≠ 0#64 then (tmp ||| 0x80) :: mcprEncodeVarlongLoop turns value else [tmp]

def mcprEncodeVarlong (value : BitVec 64) : List UInt8 := mcprEncodeVarlongLoop 10 value

/-- `struct mcpr_position` -/
structure McprPosition where
  x : BitVec 64
  y : BitVec 64
  z : BitVec 64
  deriving DecidableEq, Repr, Inhabited

def mcprEncodePosition (host : Endian) (pos : McprPosition) : List UInt8 :=
  mcprEncodeLong host (((pos.x &&& 0x3FFFFFF#64) <<< 38) ||| ((pos.y &&& 0xFFF#64) <<< 26) |||
    (pos.z &&& 0x3FFFFFF#64))

/-- The bytes of a buffer that `string.h` sees. -/
def cString (s : List UInt8) : List UInt8 := s.takeWhile (· ≠ 0)

def strlen (s : List UInt8) : ℕ := (cString s).length

/-- A string literal. -/
def ascii (s : String) : List UInt8 := s.toList.map fun c => UInt8.ofNat c.toNat

/-- The `do ... while` of `mcpr_decode_varint`; the sixth turn leaves by the size check. -/
def mcprDecodeVarintLoop (mem : Mem) (maxLen : UInt64) :
    ℕ → ℕ → BitVec 32 → Except String (BitVec 32 × ℕ)
  | 0, _, _ => .error ""
  | turns+1, i, result =>
    let tmp := mem i
    let value := (tmp &&& 0x7F).toBitVec.setWidth 32
    let result := result ||| (value <<< (7*i))
    let i := i+1
    if i > mcprVarintSizeMax then .error "Varint size exceeded 5 bytes."
    else if i > maxLen.toNat then .error "Exceeded given max length whilst decoding varint."
    else if tmp &&& 0x80 ≠ 0 then mcprDecodeVarintLoop mem maxLen turns i result
    else .ok (result, i)

/-- `mcpr_decode_varint`: the value and the number of bytes read, or the error it sets. -/
def mcprDecodeVarint (mem : Mem) (maxLen : UInt64) : Except String (BitVec 32 × ℕ) :=
  mcprDecodeVarintLoop mem maxLen 6 0 0#32

/-- The `do ... while` of `mcpr_decode_varlong`. A group of seven bits is shifted as an `int`, and
widened after that. C leaves a shift by more than 31 places undefined, so what it gives is a
parameter. -/
def mcprDecodeVarlongLoop (shiftOut : BitVec 32 → ℕ → BitVec 32) (mem : Mem) (maxLen : UInt64) :
    ℕ → ℕ → BitVec 64 → Except String (BitVec 64 × ℕ)
  | 0, _, _ => .error ""
  | turns+1, i, result =>
    let tmp := mem i
    let value := (tmp &&& 0x7F).toBitVec.setWidth 32
    let shifted := if 7*i < 32 then value <<< (7*i) else shiftOut value (7*i)
    let result := result ||| shifted.signExtend 64
    let i := i+1
    if i > mcprVarlongSizeMax then .error "Varlong size exceeded 10 bytes."
    else if i > maxLen.toNat then .error "Exceeded given max length whilst decoding varlong."
    else if tmp &&& 0x80 ≠ 0 then mcprDecodeVarlongLoop shiftOut mem maxLen turns i result
    else .ok (result, i)

/-- `mcpr_decode_varlong`: the value and the number of bytes read, or the error it sets. -/
def mcprDecodeVarlong (shiftOut : BitVec 32 → ℕ → BitVec 32) (mem : Mem) (maxLen : UInt64) :
    Except String (BitVec 64 × ℕ) :=
  mcprDecodeVarlongLoop shiftOut mem maxLen 11 0 0#64

/-- `mcpr_decode_bool` leaves `*out` alone unless the byte is 0 or 1. -/
def mcprDecodeBool (out : Bool) (mem : Mem) : Bool :=
  let b := mem 0
  if b ≠ 0x01 ∧ b ≠ 0x00 then out else b = 0x01

def mcprDecodeByte (mem : Mem) : BitVec 8 := (mem 0).toBitVec

def mcprDecodeUbyte (mem : Mem) : UInt8 := mem 0

def mcprDecodeShort (host : Endian) (mem : Mem) : BitVec 16 :=
  htons host (BitVec.ofNat 16 (hostValue host (read mem mcprShortSize)))

def mcprDecodeUshort (host : Endian) (mem : Mem) : BitVec 16 :=
  htons host (BitVec.ofNat 16 (hostValue host (read mem mcprUshortSize)))

def mcprDecodeInt (host : Endian) (mem : Mem) : BitVec 32 :=
  htonl host (BitVec.ofNat 32 (hostValue host (read mem mcprIntSize)))

def mcprDecodeLong (host : Endian) (mem : Mem) : BitVec 64 :=
  htonll host (BitVec.ofNat 64 (hostValue host (read mem mcprLongSize)))

def mcprDecodeFloat (host : Endian) (mem : Mem) : BitVec 32 :=
  BitVec.ofNat 32 (hostValue host (read mem mcprFloatSize))

def mcprDecodeDouble (host : Endian) (mem : Mem) : BitVec 64 :=
  BitVec.ofNat 64 (hostValue host (read mem mcprDoubleSize))

/-- The middle field is masked, but its sign is not extended. -/
def mcprDecodePosition (host : Endian) (mem : Mem) : McprPosition :=
  let iin := mcprDecodeLong host mem
  { x := iin.sshiftRight 38
    y := iin.sshiftRight 26 &&& 0xFFF#64
    z := (iin <<< 38).sshiftRight 38 }

section Lengths

@[simp] theorem cString_length (s : List UInt8) : (cString s).length = strlen s := rfl

theorem cString_eq_self_iff (s : List UInt8) : cString s = s ↔ 0 ∉ s := by
  rw [cString, List.takeWhile_eq_self_iff]
  constructor
  · intro h hm
    simpa using h 0 hm
  · intro h c hc
    simpa using ne_of_mem_of_not_mem hc h

theorem zero_not_mem_cString (s : List UInt8) : 0 ∉ cString s := by
  intro h
  simpa using List.mem_takeWhile_imp h

/-- A string ends at its terminator. -/
theorem cString_append_zero {s : List UInt8} (h : 0 ∉ s) (rest : List UInt8) :
    cString (s ++ 0 :: rest) = s := by
  rw [cString, List.takeWhile_append_of_pos, List.takeWhile_cons_of_neg (by simp), List.append_nil]
  intro c hc
  simpa using ne_of_mem_of_not_mem hc h

theorem leBytes_length (n v : ℕ) : (leBytes n v).length = n := by
  induction n generalizing v with
  | zero => rfl
  | succ n ih => simp only [leBytes, List.length_cons, ih]

@[simp] theorem hostBytes_length (host : Endian) (n v : ℕ) : (hostBytes host n v).length = n := by
  cases host <;> simp [hostBytes, leBytes_length]

theorem mcprVarintBoundsLoop_eq (turns : ℕ) (value : BitVec 32) :
    mcprVarintBoundsLoop turns value = (mcprEncodeVarintLoop turns value).length := by
  induction turns generalizing value with
  | zero => rfl
  | succ turns ih =>
    simp only [mcprVarintBoundsLoop, mcprEncodeVarintLoop, ih]
    split_ifs
    · simp only [List.length_cons]
      omega
    · rfl

/-- The bounds function predicts the width of an encoded VarInt exactly. -/
theorem mcprEncodeVarint_length (value : BitVec 32) :
    (mcprEncodeVarint value).length = mcprVarintBounds value :=
  (mcprVarintBoundsLoop_eq 5 value).symm

theorem mcprVarintBounds_pos (value : BitVec 32) : 1 ≤ mcprVarintBounds value := by
  simp only [mcprVarintBounds, mcprVarintBoundsLoop]
  omega

theorem mcprVarintBounds_le (value : BitVec 32) : mcprVarintBounds value ≤ 5 := by
  simp only [mcprVarintBounds, mcprVarintBoundsLoop]
  split_ifs <;> omega

end Lengths

section Varint

theorem mcprDecodeVarintLoop_agree (a b : Mem) (maxLen : UInt64) (h : AgreeOn maxLen.toNat a b)
    (turns i : ℕ) (result : BitVec 32) :
    mcprDecodeVarintLoop a maxLen turns i result = mcprDecodeVarintLoop b maxLen turns i result := by
  induction turns generalizing i result with
  | zero => rfl
  | succ turns ih =>
    simp only [mcprDecodeVarintLoop]
    by_cases hi : i+1 > maxLen.toNat
    · -- the byte past the limit is looked at, but cannot change the result
      simp only [hi, ↓reduceIte]
    · rw [h i (by omega)]
      simp only [ih]

/-- A VarInt is decided by the bytes within its limit. -/
theorem mcprDecodeVarint_agree (a b : Mem) (maxLen : UInt64) (h : AgreeOn maxLen.toNat a b) :
    mcprDecodeVarint a maxLen = mcprDecodeVarint b maxLen :=
  mcprDecodeVarintLoop_agree a b maxLen h 6 0 0#32

theorem mcprDecodeVarintLoop_size (mem : Mem) (maxLen : UInt64) (turns i : ℕ)
    (result v : BitVec 32) (k : ℕ)
    (h : mcprDecodeVarintLoop mem maxLen turns i result = .ok (v,k)) :
    i < k ∧ k ≤ mcprVarintSizeMax ∧ k ≤ maxLen.toNat := by
  induction turns generalizing i result with
  | zero => simp [mcprDecodeVarintLoop] at h
  | succ turns ih =>
    simp only [mcprDecodeVarintLoop] at h
    split_ifs at h with h5 hm hc
    · have := ih _ _ h
      omega
    · simp only [Except.ok.injEq, Prod.mk.injEq] at h
      omega

/-- A decoded VarInt takes between one and five bytes, all within its limit. -/
theorem mcprDecodeVarint_size (mem : Mem) (maxLen : UInt64) (v : BitVec 32) (k : ℕ)
    (h : mcprDecodeVarint mem maxLen = .ok (v,k)) :
    1 ≤ k ∧ k ≤ mcprVarintSizeMax ∧ k ≤ maxLen.toNat :=
  mcprDecodeVarintLoop_size mem maxLen 6 0 0#32 v k h

theorem mcprDecodeVarintLoop_limit (mem : Mem) (maxLen maxLen' : UInt64) (turns i : ℕ)
    (result v : BitVec 32) (k : ℕ) (hk : k ≤ maxLen'.toNat)
    (h : mcprDecodeVarintLoop mem maxLen turns i result = .ok (v,k)) :
    mcprDecodeVarintLoop mem maxLen' turns i result = .ok (v,k) := by
  induction turns generalizing i result with
  | zero => simp [mcprDecodeVarintLoop] at h
  | succ turns ih =>
    simp only [mcprDecodeVarintLoop] at h ⊢
    split_ifs at h with h5 hm hc
    · have := (mcprDecodeVarintLoop_size mem maxLen turns (i+1) _ v k h).1
      rw [if_neg h5, if_neg (by omega), if_pos hc]
      exact ih _ _ h
    · simp only [Except.ok.injEq, Prod.mk.injEq] at h
      rw [if_neg h5, if_neg (by omega), if_neg hc, h.1, h.2]

/-- A VarInt stays what it is under every limit that it keeps to. -/
theorem mcprDecodeVarint_limit (mem : Mem) (maxLen maxLen' : UInt64) (v : BitVec 32) (k : ℕ)
    (hk : k ≤ maxLen'.toNat) (h : mcprDecodeVarint mem maxLen = .ok (v,k)) :
    mcprDecodeVarint mem maxLen' = .ok (v,k) :=
  mcprDecodeVarintLoop_limit mem maxLen maxLen' 6 0 0#32 v k hk h

end Varint

end Stronk.Mcpr
