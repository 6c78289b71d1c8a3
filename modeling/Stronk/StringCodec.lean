import Stronk.EncodedPackets
import Stronk.McprDecode
import Stronk.VarintCodec

/-! Strings: what is written of one is read back, also where others follow (`mcpr/codec.c`). -/
namespace Stronk.Mcpr
open ByteMemory BoundedReader

section Wire

/-- The strings that go over the wire: no NUL is in them, and their size fits in an `int`. -/
structure WireString where
  content : List UInt8
  nulFree : 0 ∉ content
  short : content.length ≤ 2^31-6

/-- The length of a string and its bytes. -/
def WireString.bytes (u : WireString) : List UInt8 :=
  mcprEncodeVarint (BitVec.ofNat 32 u.content.length) ++ u.content

variable (u : WireString)

theorem WireString.cString_content : cString u.content = u.content :=
  (cString_eq_self_iff _).mpr u.nulFree

theorem WireString.strlen_content : strlen u.content = u.content.length := by
  rw [strlen, u.cString_content]

theorem WireString.bytes_length : u.bytes.length =
    (mcprEncodeVarint (BitVec.ofNat 32 u.content.length)).length+u.content.length :=
  List.length_append

/-- The size of a string on the wire is an `int`. -/
theorem WireString.bytes_length_lt : u.bytes.length < 2^31 := by
  have hle := mcprVarintBounds_le (BitVec.ofNat 32 u.content.length)
  have hshort := u.short
  rw [u.bytes_length, mcprEncodeVarint_length]
  omega

end Wire

section Encode
variable (env : EncodeEnv) (o : EncodeObjects) (u : WireString)

/-- The encoder writes the length and the bytes, and returns their number. -/
theorem mcprEncodeString_wire (hmalloc : env.malloc o.mallocs = true) :
    (mcprEncodeString env u.content).run o = (.ok (u.bytes.length : ℤ),
      { o with written := o.written ++ u.bytes, mallocs := o.mallocs+1 }) := by
  have hencodes : StringEncodes env o.mallocs u.content := by
    refine ⟨hmalloc, ?_⟩
    have hshort := u.short
    rw [u.strlen_content]
    unfold int32Max
    omega
  have hsize : toInt32 (((mcprEncodeVarint (BitVec.ofNat 32 u.content.length)).length : ℤ)+
      u.content.length) = u.bytes.length := by
    have hlt := u.bytes_length_lt
    rw [u.bytes_length] at hlt ⊢
    push_cast
    rw [toInt32, BitVec.toInt_ofInt]
    exact Int.bmod_eq_of_le (by omega) (by omega)
  rw [mcprEncodeString_run env o u.content hencodes, u.strlen_content, u.cString_content, hsize,
    List.append_assoc, WireString.bytes]

end Encode

section Decode

/-- Strings that stand one after another, as the callers of the decoder take them. -/
def decodeStrings (env : DecodeEnv) : ℕ → Decoder (List (List UInt8))
  | 0 => pure []
  | n+1 => do
    let d ← string env
    skip d.bytesRead
    let ds ← decodeStrings env n
    return d.content :: ds

/-- A string of any length behind its length. -/
def wireBytes (content : List UInt8) : List UInt8 :=
  mcprEncodeVarint (BitVec.ofNat 32 content.length) ++ content

/-- What the decoder finds at the head of a string. -/
theorem stringHead_wireBytes {mem : Mem} {left : UInt64} {content : List UInt8}
    (hshort : content.length < 2^31)
    (hmem : AgreeOn (wireBytes content).length mem (ofList (wireBytes content)))
    (hleft : (wireBytes content).length ≤ left.toNat) :
    stringHead mem left = if content.length = 2^31-1 then .trap
      else .content content.length (mcprEncodeVarint (BitVec.ofNat 32 content.length)).length := by
  have hnat : (BitVec.ofNat 32 content.length).toNat = content.length := by
    rw [BitVec.toNat_ofNat]
    exact Nat.mod_eq_of_lt (by omega)
  have hint : (BitVec.ofNat 32 content.length).toInt = content.length := by
    rw [BitVec.toInt_eq_toNat_of_lt (by rw [hnat]; omega), hnat]
  have hvarint := mcprDecodeVarint_encode mem left (BitVec.ofNat 32 content.length)
    ((agreeOn_append_iff _ _ _).mp hmem).1 (by rw [wireBytes, List.length_append] at hleft; omega)
  have htrap : ((content.length : ℤ) = int32Max) ↔ content.length = 2^31-1 := by
    unfold int32Max
    omega
  simp only [stringHead, hvarint, hint, hnat, htrap, show ¬ (content.length : ℤ) < 0 by omega,
    ↓reduceIte]

variable (env : DecodeEnv) (hmalloc : ∀ k, env.malloc k = true) (mem : Mem) (u : WireString)
include hmalloc

/-- The decoder returns the size of a string, and a copy of its own. -/
theorem mcprDecodeString_wireBytes {content : List UInt8} (hshort : content.length < 2^31-1)
    (c : Cursor DecodeObjects)
    (hmem : AgreeOn (wireBytes content).length (shift mem c.off) (ofList (wireBytes content)))
    (hleft : (wireBytes content).length ≤ c.left.toNat) :
    (mcprDecodeString env).run mem c =
      (.ok (some ⟨content, (wireBytes content).length, c.objects.mallocs⟩),
        { c with objects := { c.objects with
                              mallocs := c.objects.mallocs+1
                              heap := c.objects.heap ++ [.alloc c.objects.mallocs] } }) := by
  have hhead := stringHead_wireBytes (by omega) hmem hleft
  rw [if_neg (by omega)] at hhead
  have hcontent := read_of_agreeOn ((agreeOn_append_iff _ _ _).mp hmem).2
  have hlen : (wireBytes content).length =
      (mcprEncodeVarint (BitVec.ofNat 32 content.length)).length+content.length :=
    List.length_append
  have hsize : content.length+1 ≤ ptrdiffMax := stringHead_content_le hhead
  have hin : ¬ c.left.toNat <
      (mcprEncodeVarint (BitVec.ofNat 32 content.length)).length+content.length := by omega
  rw [mcprDecodeString_run, hhead]
  rw [shift_shift] at hcontent
  simp [copyString, Mcpr.malloc, hsize, hmalloc, hcontent, hin, hlen]

theorem mcprDecodeString_wire (c : Cursor DecodeObjects)
    (hmem : AgreeOn u.bytes.length (shift mem c.off) (ofList u.bytes))
    (hleft : u.bytes.length ≤ c.left.toNat) :
    (mcprDecodeString env).run mem c =
      (.ok (some ⟨u.content, u.bytes.length, c.objects.mallocs⟩),
        { c with objects := { c.objects with
                              mallocs := c.objects.mallocs+1
                              heap := c.objects.heap ++ [.alloc c.objects.mallocs] } }) := by
  have hshort := u.short
  exact mcprDecodeString_wireBytes env hmalloc mem (by omega) c hmem hleft

theorem decodeStrings_wire (us : List WireString) (c : Cursor DecodeObjects)
    (hmem : AgreeOn (us.flatMap WireString.bytes).length (shift mem c.off)
      (ofList (us.flatMap WireString.bytes)))
    (hleft : (us.flatMap WireString.bytes).length ≤ c.left.toNat) :
    ((decodeStrings env us.length).run mem c).1 = .ok (us.map WireString.content) := by
  induction us generalizing c with
  | nil => rfl
  | cons u us ih =>
    rw [List.flatMap_cons] at hmem hleft
    rw [List.length_append] at hleft
    obtain ⟨hone, hrest⟩ := (agreeOn_append_iff _ _ _).mp hmem
    rw [shift_shift] at hrest
    have hrun : ∃ c', (string env).run mem c =
        (.ok ⟨u.content, u.bytes.length, c.objects.mallocs⟩, c') ∧ c'.off = c.off ∧ c'.left = c.left := by
      rw [string, bind_ok (mcprDecodeString_wire env hmalloc mem u c hone (by omega))]
      exact ⟨_, rfl, rfl, rfl⟩
    obtain ⟨c', hrun, hoff, hsame⟩ := hrun
    have hstring : u.bytes.length ≤ c'.left.toNat := by
      rw [hsame]
      omega
    have htail := ih { c' with off := c'.off+u.bytes.length
                               left := c'.left-UInt64.ofNat u.bytes.length
                               wrapped := c'.wrapped || decide (c'.left.toNat < u.bytes.length) }
      (by rwa [hoff]) (by rw [toNat_sub_ofNat _ _ hstring, hsame]; omega)
    rw [List.length_cons, decodeStrings, bind_ok hrun, bind_ok (skip_run mem c' u.bytes.length),
      List.map_cons]
    rcases hd : (decodeStrings env us.length).run mem _ with ⟨e | ds, c''⟩
    · rw [hd] at htail
      cases htail
    · rw [hd] at htail
      rw [bind_ok hd, Except.ok.inj htail]
      rfl

end Decode

section Codec
variable (encodeEnv : EncodeEnv) (decodeEnv : DecodeEnv)

/-- A string is written as its length and its bytes, and read back whatever follows; strings that
were written one after another are read back one by one. -/
theorem string_codec (hencode : ∀ k, encodeEnv.malloc k = true)
    (hdecode : ∀ k, decodeEnv.malloc k = true) :
    (∀ (u : WireString) o, ∃ o', (mcprEncodeString encodeEnv u.content).run o =
      (.ok (u.bytes.length : ℤ), o') ∧ o'.written = o.written ++ u.bytes) ∧
    (∀ (u : WireString) s (c : Cursor DecodeObjects), c.off = 0 → u.bytes.length ≤ c.left.toNat →
      ∃ d c', (mcprDecodeString decodeEnv).run (ofList (u.bytes ++ s)) c = (.ok (some d), c') ∧
        d.content = u.content ∧ cString d.content = u.content ∧ d.bytesRead = u.bytes.length) ∧
    ∀ (us : List WireString) s (c : Cursor DecodeObjects), c.off = 0 →
      (us.flatMap WireString.bytes).length ≤ c.left.toNat →
      ((decodeStrings decodeEnv us.length).run (ofList (us.flatMap WireString.bytes ++ s)) c).1 =
        .ok (us.map WireString.content) := by
  refine ⟨fun u o => ?_, fun u s c hoff hleft => ?_, fun us s c hoff hleft => ?_⟩
  · exact ⟨_, mcprEncodeString_wire encodeEnv o u (hencode o.mallocs), rfl⟩
  · have hmem : AgreeOn u.bytes.length (shift (ofList (u.bytes ++ s)) c.off) (ofList u.bytes) := by
      rw [hoff, shift_zero]
      exact ofList_append u.bytes s
    exact ⟨_, _, mcprDecodeString_wire decodeEnv hdecode _ u c hmem hleft, rfl, u.cString_content, rfl⟩
  · refine decodeStrings_wire decodeEnv hdecode _ us c ?_ hleft
    rw [hoff, shift_zero]
    exact ofList_append _ s

/-- A string of one character. -/
def letterExample : WireString := { content := [0x61], nulFree := by decide, short := by decide }

/-- Two strings in a row, of which the first is empty. -/
theorem two_strings_read : ((decodeStrings (spare .little) 2).run (ofList [0, 1, 0x61, 0xff])
    ⟨0, 3, false, false, ⟨default, none, 0, []⟩⟩).1 = .ok [[], [0x61]] := by
  have h := (string_codec default (spare .little) (fun _ => rfl) fun _ => rfl).2.2
    [⟨[], by decide, by decide⟩, letterExample] [0xff] ⟨0, 3, false, false, ⟨default, none, 0, []⟩⟩
    rfl (by decide)
  have hbytes : [⟨[], by decide, by decide⟩, letterExample].flatMap WireString.bytes ++ [0xff] =
      [0, 1, 0x61, 0xff] := by decide
  rwa [hbytes] at h

end Codec

end Stronk.Mcpr
