import Stronk.DecodeHeap
import Stronk.VarintCodec

/-! Encryption Response: two blobs, each behind its length. The decoder steps over the second
length by the width of the first, and it compares neither length with what is left. -/
namespace Stronk.Mcpr
open ByteMemory BoundedReader Leb128

section Length

/-- A VarInt of `width` bytes that announces `n` bytes. -/
structure LengthAt (mem : Mem) (n width : ℕ) : Prop where
  ends : EndsAt mem width
  width_le : width ≤ mcprVarintSizeMax
  value : n = groupSum mem width%2^32
  nonnegative : n < 2^31

variable {mem : Mem} {left : UInt64} {n width : ℕ}

theorem LengthAt.decode (h : LengthAt mem n width) (hleft : width ≤ left.toNat) :
    mcprDecodeVarint mem left = .ok (BitVec.ofNat 32 n, width) := by
  have hvalue : BitVec.ofNat 32 (groupSum mem width) = BitVec.ofNat 32 n := by
    apply BitVec.eq_of_toNat_eq
    rw [h.value, BitVec.toNat_ofNat, BitVec.toNat_ofNat, Nat.mod_mod]
  rw [mcprDecodeVarint_endsAt h.ends (le_min h.width_le hleft), hvalue]

theorem lengthAt_of_decode {v : BitVec 32} (h : mcprDecodeVarint mem left = .ok (v, width))
    (hv : ¬ v.toInt < 0) : LengthAt mem v.toNat width ∧ width ≤ left.toNat := by
  obtain ⟨hends, hle, rfl⟩ := mcprDecodeVarint_sound h
  refine ⟨⟨hends, le_trans hle (min_le_left _ _), BitVec.toNat_ofNat _ _, ?_⟩,
    le_trans hle (min_le_right _ _)⟩
  rw [BitVec.toInt_eq_toNat_cond] at hv
  split at hv
  · omega
  · omega

theorem LengthAt.toNat_ofNat (h : LengthAt mem n width) : (BitVec.ofNat 32 n).toNat = n := by
  have hn := h.nonnegative
  rw [BitVec.toNat_ofNat]
  omega

theorem LengthAt.toInt_ofNat (h : LengthAt mem n width) : (BitVec.ofNat 32 n).toInt = n := by
  have hn := h.nonnegative
  rw [BitVec.toInt_eq_toNat_of_lt (by rw [h.toNat_ofNat]; omega), h.toNat_ofNat]

theorem lengthAt_encode (hn : n < 2^31)
    (hmem : AgreeOn (mcprEncodeVarint (BitVec.ofNat 32 n)).length mem
      (ofList (mcprEncodeVarint (BitVec.ofNat 32 n)))) :
    LengthAt mem n (mcprEncodeVarint (BitVec.ofNat 32 n)).length := by
  obtain ⟨hends, hsum⟩ := mcprEncodeVarint_endsAt (BitVec.ofNat 32 n) []
  rw [List.append_nil] at hends hsum
  have hvalue : (BitVec.ofNat 32 n).toNat = n := by
    rw [BitVec.toNat_ofNat]
    omega
  refine ⟨hends.congr (agreeOn_symm hmem), ?_, ?_, hn⟩
  · rw [mcprEncodeVarint_length]
    exact mcprVarintBounds_le _
  · rw [groupSum_congr hmem, hsum, hvalue]
    omega

end Length

section Run
variable (host : Endian) (out : McprPacket) {mem : Mem} {maxlen : UInt64} {k0 s k1 : ℕ}

/-- The frame is an Encryption Response, and `s` is its first length. -/
structure FirstLength (mem : Mem) (maxlen : UInt64) (k0 s k1 : ℕ) : Prop where
  type : frameType mem .login maxlen = some (.lgSbEncryptionResponse, k0)
  length : LengthAt (shift mem k0) s k1
  whole : k0+k1 ≤ maxlen.toNat

/-- What is left when the second length is read. -/
def leftBehind (maxlen : UInt64) (k0 s k1 : ℕ) : UInt64 :=
  maxlen-UInt64.ofNat k0-UInt64.ofNat k1-UInt64.ofNat s

theorem FirstLength.decode (h : FirstLength mem maxlen k0 s k1) :
    mcprDecodeVarint (shift mem k0) (maxlen-UInt64.ofNat k0) = .ok (BitVec.ofNat 32 s, k1) := by
  have hwhole := h.whole
  apply h.length.decode
  rw [toNat_sub_ofNat _ _ (by omega)]
  omega

theorem malloc_spare_run (size : ℕ) (hsize : size < 2^31) (events : List HeapEvent)
    (c : Cursor DecodeObjects) :
    (mallocOr (spare host) size events).run mem c = (.ok c.objects.mallocs,
      { c with objects := { c.objects with
          mallocs := c.objects.mallocs+1
          heap := c.objects.heap ++ [.alloc c.objects.mallocs] } }) := by
  have hle : size ≤ ptrdiffMax := by
    unfold ptrdiffMax
    omega
  simp [mallocOr, malloc, orElse, spare, hle]

/-- What is left to do once the first blob is taken; `width` is that of the first length. -/
def decodeToken (env : DecodeEnv) (width : ℕ) : Decoder ℤ := do
  let verifyTokenLength ← varint [.freeOut]
  refuse (verifyTokenLength.1.toInt < 0)
    (failWith (.new "Read invalid verify token length (d).") [.freeOut] (-1))
  setOut fun p => { p with
    data.loginServerbound.encryptionResponse.verifyTokenLength := verifyTokenLength.1 }
  skip width
  let _ ← mallocOr env verifyTokenLength.1.toNat [.freeOut]
  let verifyToken ← load verifyTokenLength.1.toNat fun m => read m verifyTokenLength.1.toNat
  setOut fun p => { p with data.loginServerbound.encryptionResponse.verifyToken := verifyToken }
  skip verifyTokenLength.1.toNat
  let o ← offset
  return o

/-- The first blob is in the packet, and the reader is behind it. -/
structure SecretTaken (mem : Mem) (maxlen : UInt64) (k0 s k1 : ℕ) (c : Cursor DecodeObjects) :
    Prop where
  off : c.off = k0+k1+s
  left : c.left = leftBehind maxlen k0 s k1
  length : c.objects.out.data.loginServerbound.encryptionResponse.sharedSecretLength =
    BitVec.ofNat 32 s
  secret : c.objects.out.data.loginServerbound.encryptionResponse.sharedSecret =
    read (shift mem (k0+k1)) s

/-- A first length is never compared with what is left. -/
theorem FirstLength.taken (h : FirstLength mem maxlen k0 s k1) :
    ∃ c, decodeRun (spare host) out mem .login maxlen = (decodeToken (spare host) k1).run mem c ∧
      SecretTaken mem maxlen k0 s k1 c := by
  have hs : ¬ ((s : ℤ) < 0) := by omega
  have hrun := decodeRun_typed (spare host) out h.type
  simp only [decodeFields, decodeLogin, decodeEncryptionResponse] at hrun
  rw [varint, bind_bind, bind_run, peek_run, fieldsStart, h.decode] at hrun
  simp only [bind_run, pure_run, refuse, setOut, update_run, skip_run, load_run,
    h.length.toNat_ofNat, h.length.toInt_ofNat, hs, ↓reduceIte,
    malloc_spare_run _ _ h.length.nonnegative] at hrun
  exact ⟨_, hrun, rfl, rfl, rfl, rfl⟩

/-- The second blob is taken from as far behind its length as the first length is wide. -/
theorem FirstLength.decodes (h : FirstLength mem maxlen k0 s k1) {t k2 : ℕ}
    (h2 : LengthAt (shift mem (k0+k1+s)) t k2) (hk2 : k2 ≤ (leftBehind maxlen k0 s k1).toNat) :
    (mcprDecodePacket (spare host) out mem .login maxlen).exit = .ret (k0+k1+s+k1+t : ℕ) ∧
      (mcprDecodePacket (spare host) out mem .login maxlen).out.data.loginServerbound.encryptionResponse =
        ⟨BitVec.ofNat 32 s, read (shift mem (k0+k1)) s, BitVec.ofNat 32 t,
          read (shift mem (k0+k1+s+k1)) t⟩ := by
  obtain ⟨c, hrun, htaken⟩ := h.taken host out
  have hsecond := h2.decode hk2
  rw [← htaken.off, ← htaken.left] at hsecond
  have ht : ¬ ((t : ℤ) < 0) := by omega
  simp only [decodeToken, varint, bind_run, peek_run, hsecond, pure_run, refuse, setOut, update_run,
    skip_run, load_run, h2.toNat_ofNat, h2.toInt_ofNat, ht, ↓reduceIte,
    malloc_spare_run _ _ h2.nonnegative, offset_run] at hrun
  simp only [mcprDecodePacket, DecodeResult.out, hrun, exitOf, htaken.off, htaken.length,
    htaken.secret]
  exact ⟨trivial, trivial⟩

/-- Where no second length is found, the frame is refused. -/
theorem FirstLength.refused (h : FirstLength mem maxlen k0 s k1)
    (hno : ∀ t k2, LengthAt (shift mem (k0+k1+s)) t k2 → (leftBehind maxlen k0 s k1).toNat < k2) :
    (mcprDecodePacket (spare host) out mem .login maxlen).exit = .ret (-1) := by
  obtain ⟨c, hrun, htaken⟩ := h.taken host out
  rw [← htaken.off, ← htaken.left] at hno
  rcases hd : mcprDecodeVarint (shift mem c.off) c.left with message | ⟨v, k2⟩
  · simp only [decodeToken, varint, bind_run, peek_run, hd, failWith, fail, ninerrSetErr, release,
      update_run, leave_run] at hrun
    simp only [mcprDecodePacket, hrun, exitOf]
  · -- a number that is read is negative, or it would be a second length
    have hv : v.toInt < 0 := by
      by_contra hv
      obtain ⟨hlength, hle⟩ := lengthAt_of_decode hd hv
      exact absurd (hno _ _ hlength) (not_lt.mpr hle)
    simp only [decodeToken, varint, bind_run, peek_run, hd, pure_run, refuse, hv, ↓reduceIte,
      failWith, fail, ninerrSetErr, release, update_run, leave_run] at hrun
    simp only [mcprDecodePacket, hrun, exitOf]

end Run

section Frames
variable (host : Endian) {mem : Mem} {maxlen : UInt64} {k0 s k1 t k2 : ℕ} {a b : List UInt8}

/-- Two blobs as a client sends them. -/
def responseBytes (a b : List UInt8) : List UInt8 :=
  mcprEncodeVarint 1#32 ++ (mcprEncodeVarint (BitVec.ofNat 32 a.length) ++
    (a ++ (mcprEncodeVarint (BitVec.ofNat 32 b.length) ++ b)))

/-- The frame holds the two blobs and nothing else. -/
structure ResponseFrame (mem : Mem) (maxlen : UInt64) (a b : List UInt8) : Prop where
  secretShort : a.length < 2^31
  tokenShort : b.length < 2^31
  bytes : AgreeOn (responseBytes a b).length mem (ofList (responseBytes a b))
  whole : maxlen.toNat = (responseBytes a b).length

/-- The second length is in the frame too. -/
structure SecondLength (mem : Mem) (maxlen : UInt64) (k0 s k1 t k2 : ℕ) : Prop where
  first : FirstLength mem maxlen k0 s k1
  length : LengthAt (shift mem (k0+k1+s)) t k2
  whole : k0+k1+s+k2 ≤ maxlen.toNat

/-- Two blobs are parsed as they were sent, and a frame that announces more than is left of it is
refused. -/
structure ResponseParsed (host : Endian) (mem : Mem) (maxlen : UInt64) : Prop where
  parsed : ∀ a b, ResponseFrame mem maxlen a b → ∀ out,
    (mcprDecodePacket (spare host) out mem .login maxlen).exit = .ret maxlen.toNat ∧
      (mcprDecodePacket (spare host) out mem .login maxlen).out.data.loginServerbound.encryptionResponse =
        ⟨BitVec.ofNat 32 a.length, a, BitVec.ofNat 32 b.length, b⟩
  secretRefused : ∀ k0 s k1, FirstLength mem maxlen k0 s k1 → maxlen.toNat < k0+k1+s → ∀ out,
    (mcprDecodePacket (spare host) out mem .login maxlen).exit = .ret (-1)
  tokenRefused : ∀ k0 s k1 t k2, SecondLength mem maxlen k0 s k1 t k2 →
    maxlen.toNat < k0+k1+s+k2+t → ∀ out,
    (mcprDecodePacket (spare host) out mem .login maxlen).exit = .ret (-1)

/-- The lengths of the two blobs are equally wide. A first length that does not fit has no second
one where the first blob would end, outside of the frame; a second length always fits. -/
structure ResponseSafe (mem : Mem) (maxlen : UInt64) : Prop where
  widths : ∀ a b, ResponseFrame mem maxlen a b →
    mcprVarintBounds (BitVec.ofNat 32 a.length) = mcprVarintBounds (BitVec.ofNat 32 b.length)
  secret : ∀ k0 s k1, FirstLength mem maxlen k0 s k1 → maxlen.toNat < k0+k1+s →
    ¬ ∃ t k2, LengthAt (shift mem (k0+k1+s)) t k2
  token : ∀ k0 s k1 t k2, SecondLength mem maxlen k0 s k1 t k2 → k0+k1+s+k2+t ≤ maxlen.toNat

theorem leftBehind_toNat (hs : k0+k1+s ≤ maxlen.toNat) :
    (leftBehind maxlen k0 s k1).toNat = maxlen.toNat-(k0+k1+s) := by
  have h0 := toNat_sub_ofNat maxlen k0 (by omega)
  have h1 := toNat_sub_ofNat (maxlen-UInt64.ofNat k0) k1 (by omega)
  rw [leftBehind, toNat_sub_ofNat _ s (by omega), h1, h0]
  omega

/-- The count of what is left wraps when the first blob does not fit, and is huge from then on. -/
theorem FirstLength.left_wrapped (h : FirstLength mem maxlen k0 s k1) (hs : maxlen.toNat < k0+k1+s) :
    mcprVarintSizeMax ≤ (leftBehind maxlen k0 s k1).toNat := by
  have hwhole := h.whole
  have hshort := h.length.nonnegative
  have h0 := toNat_sub_ofNat maxlen k0 (by omega)
  have h1 := toNat_sub_ofNat (maxlen-UInt64.ofNat k0) k1 (by omega)
  have hnat : (UInt64.ofNat s).toNat = s := by
    rw [UInt64.toNat_ofNat']
    omega
  rw [leftBehind, UInt64.toNat_sub, hnat, h1, h0]
  unfold mcprVarintSizeMax
  omega

theorem ResponseFrame.fields (h : ResponseFrame mem maxlen a b) :
    let k1 := mcprVarintBounds (BitVec.ofNat 32 a.length)
    let k2 := mcprVarintBounds (BitVec.ofNat 32 b.length)
    SecondLength mem maxlen 1 a.length k1 b.length k2 ∧
      maxlen.toNat = 1+k1+a.length+k2+b.length ∧ read (shift mem (1+k1)) a.length = a ∧
        read (shift mem (1+k1+a.length+k2)) b.length = b := by
  have hwhole := h.whole
  have h1 : (mcprEncodeVarint 1#32).length = 1 := by decide
  have hlen (n : ℕ) : (mcprEncodeVarint (BitVec.ofNat 32 n)).length =
      mcprVarintBounds (BitVec.ofNat 32 n) := mcprEncodeVarint_length _
  have htotal : (responseBytes a b).length = 1+mcprVarintBounds (BitVec.ofNat 32 a.length)+a.length+
      mcprVarintBounds (BitVec.ofNat 32 b.length)+b.length := by
    simp only [responseBytes, List.length_append, h1, hlen]
    omega
  -- the parts of the frame, each behind the ones before it
  have hparts := h.bytes
  simp only [responseBytes, agreeOn_append_iff, shift_shift, h1, hlen] at hparts
  obtain ⟨hid, hsecretLength, hsecret, htokenLength, htoken⟩ := hparts
  have htype : frameType mem .login maxlen = some (.lgSbEncryptionResponse, 1) := by
    have hd := mcprDecodeVarint_encode mem maxlen 1#32 (by rwa [h1]) (by omega)
    simp only [frameType, hd, h1]
    rfl
  have hfirst : LengthAt (shift mem 1) a.length (mcprVarintBounds (BitVec.ofNat 32 a.length)) := by
    rw [← hlen]
    exact lengthAt_encode h.secretShort (by rwa [hlen])
  have hsecond : LengthAt (shift mem (1+mcprVarintBounds (BitVec.ofNat 32 a.length)+a.length))
      b.length (mcprVarintBounds (BitVec.ofNat 32 b.length)) := by
    rw [← hlen b.length]
    exact lengthAt_encode h.tokenShort (by rwa [hlen])
  refine ⟨⟨⟨htype, hfirst, by omega⟩, hsecond, by omega⟩, by omega, ?_, ?_⟩
  · exact read_of_agreeOn hsecret
  · exact read_of_agreeOn htoken

/-- A second length within the frame is never refused. -/
theorem SecondLength.decodes (h : SecondLength mem maxlen k0 s k1 t k2) (out : McprPacket) :
    (mcprDecodePacket (spare host) out mem .login maxlen).exit = .ret (k0+k1+s+k1+t : ℕ) ∧
      (mcprDecodePacket (spare host) out mem .login maxlen).out.data.loginServerbound.encryptionResponse =
        ⟨BitVec.ofNat 32 s, read (shift mem (k0+k1)) s, BitVec.ofNat 32 t,
          read (shift mem (k0+k1+s+k1)) t⟩ := by
  have hwhole := h.whole
  apply h.first.decodes host out h.length
  rw [leftBehind_toNat (by omega)]
  omega

theorem ResponseFrame.parsed_iff (h : ResponseFrame mem maxlen a b) :
    (∀ out, (mcprDecodePacket (spare host) out mem .login maxlen).exit = .ret maxlen.toNat ∧
      (mcprDecodePacket (spare host) out mem .login maxlen).out.data.loginServerbound.encryptionResponse =
        ⟨BitVec.ofNat 32 a.length, a, BitVec.ofNat 32 b.length, b⟩) ↔
      mcprVarintBounds (BitVec.ofNat 32 a.length) = mcprVarintBounds (BitVec.ofNat 32 b.length) := by
  obtain ⟨hsecond, htotal, hsecret, htoken⟩ := h.fields
  constructor
  · intro hparsed
    have hexit := (hparsed default).1
    rw [(hsecond.decodes host default).1, htotal] at hexit
    injection hexit with hexit
    omega
  · intro hwidths out
    obtain ⟨hexit, hfields⟩ := hsecond.decodes host out
    rw [hexit, hfields, hsecret, htotal]
    rw [hwidths] at htoken ⊢
    rw [htoken]
    exact ⟨rfl, rfl⟩

theorem FirstLength.refused_iff (h : FirstLength mem maxlen k0 s k1) (hs : maxlen.toNat < k0+k1+s) :
    (∀ out, (mcprDecodePacket (spare host) out mem .login maxlen).exit = .ret (-1)) ↔
      ¬ ∃ t k2, LengthAt (shift mem (k0+k1+s)) t k2 := by
  have hleft := h.left_wrapped hs
  constructor
  · rintro hrefused ⟨t, k2, hsecond⟩
    have hexit := hrefused default
    rw [(h.decodes host default hsecond (le_trans hsecond.width_le hleft)).1] at hexit
    injection hexit with hexit
    omega
  · intro hno out
    exact h.refused host out fun t k2 hsecond => absurd ⟨t, k2, hsecond⟩ hno

theorem SecondLength.refused_iff (h : SecondLength mem maxlen k0 s k1 t k2) :
    (maxlen.toNat < k0+k1+s+k2+t → ∀ out,
      (mcprDecodePacket (spare host) out mem .login maxlen).exit = .ret (-1)) ↔
        k0+k1+s+k2+t ≤ maxlen.toNat := by
  constructor
  · intro hrefused
    by_contra hexceeds
    have hexit := hrefused (not_le.mp hexceeds) default
    rw [(h.decodes host default).1] at hexit
    injection hexit with hexit
    omega
  · intro hfits hexceeds
    omega

/-- Encryption Responses are parsed as they were sent, and refused where they announce more than
they hold, if and only if the lengths are safe. -/
theorem encryption_response_parsed_iff (host : Endian) (mem : Mem) (maxlen : UInt64) :
    ResponseParsed host mem maxlen ↔ ResponseSafe mem maxlen := by
  constructor
  · intro h
    refine ⟨fun a b hframe => ?_, fun k0 s k1 hfirst hs => ?_, fun k0 s k1 t k2 hsecond => ?_⟩
    · exact (hframe.parsed_iff host).mp (h.parsed a b hframe)
    · exact (hfirst.refused_iff host hs).mp (h.secretRefused k0 s k1 hfirst hs)
    · exact (hsecond.refused_iff host).mp (h.tokenRefused k0 s k1 t k2 hsecond)
  · intro h
    refine ⟨fun a b hframe => ?_, fun k0 s k1 hfirst hs => ?_, fun k0 s k1 t k2 hsecond => ?_⟩
    · exact (hframe.parsed_iff host).mpr (h.widths a b hframe)
    · exact (hfirst.refused_iff host hs).mpr (h.secret k0 s k1 hfirst hs)
    · exact (hsecond.refused_iff host).mpr (h.token k0 s k1 t k2 hsecond)

/-- A frame of three bytes, which announces an empty secret and a token of five. -/
theorem short_token_accepted : ¬ ∀ host mem maxlen, ResponseParsed host mem maxlen := by
  intro h
  have hone (byte : UInt8) (n : ℕ) (hn : n = byte.toNat) (hlt : n < 128) (mem : Mem)
      (hmem : mem 0 = byte) : LengthAt mem n 1 := by
    have hsum : groupSum mem 1 = n := by
      rw [groupSum, Finset.sum_range_one, hmem, ← hn]
      omega
    refine ⟨⟨Nat.one_pos, fun i hi => by omega, ?_⟩, by decide, ?_, by omega⟩
    · rw [hmem, ← hn]
      exact hlt
    · rw [hsum]
      omega
  have hfirst : FirstLength (ofList [0x01, 0x00, 0x05]) 3 1 0 1 :=
    ⟨by decide, hone 0x00 0 rfl (by decide) _ rfl, by decide⟩
  have hsecond : SecondLength (ofList [0x01, 0x00, 0x05]) 3 1 0 1 5 1 :=
    ⟨hfirst, hone 0x05 5 rfl (by decide) _ rfl, by decide⟩
  have hexit := (h .little _ 3).tokenRefused 1 0 1 5 1 hsecond (by decide) default
  rw [(hsecond.decodes .little default).1] at hexit
  exact absurd hexit (by decide)

end Frames
end Stronk.Mcpr
