import Stronk.ChunkDataSize
import Stronk.ConnectionClose
import Stronk.Transport

/-! Where an outgoing packet lies in its buffer. The body is encoded behind a reserve of five
bytes, and the length is written into the reserve so that it ends where the body starts: how
far in is up to `mcpr_varint_bounds`, and how many bytes it takes to `mcpr_encode_varint`. -/
namespace Stronk.Mcpr
open ByteMemory EarlyExit
variable {κ : Type}

section Buffer
variable (garbage : Mem) (body : List UInt8)

/-- The length of a body, as the `int32_t` that is written. -/
def bodyLength : BitVec 32 := BitVec.ofNat 32 body.length

/-- Where the frame starts. -/
def frameSkip : ℕ := mcprVarintSizeMax-mcprVarintBounds (bodyLength body)

/-- The buffer with the body in it, and then with the length before the body. -/
def bodyBuffer : Mem := write garbage mcprVarintSizeMax body

def packetBuffer : Mem :=
  write (bodyBuffer garbage body) (frameSkip body) (mcprEncodeVarint (bodyLength body))

/-- What `mcpr_connection_write` is given. -/
def handedOver : List UInt8 := read (shift (packetBuffer garbage body) (frameSkip body))
  (body.length+(mcprEncodeVarint (bodyLength body)).length)

/-- The length takes the last bytes of the reserve and no others. -/
structure LaidOut : Prop where
  reserve : frameSkip body+mcprVarintBounds (bodyLength body) = mcprVarintSizeMax
  lengthPrefix : read (shift (packetBuffer garbage body) (frameSkip body))
    (mcprVarintBounds (bodyLength body)) = mcprEncodeVarint (bodyLength body)
  content : read (shift (packetBuffer garbage body) mcprVarintSizeMax) body.length = body
  untouched : ∀ i, i < frameSkip body ∨ mcprVarintSizeMax ≤ i →
    packetBuffer garbage body i = bodyBuffer garbage body i

/-- A reader takes the length off a frame, whatever follows it, and the body is left. -/
def ReadsBack (frame body : List UInt8) : Prop :=
  (∀ more maxLen, mcprVarintBounds (bodyLength body) ≤ UInt64.toNat maxLen →
    mcprDecodeVarint (ofList (frame ++ more)) maxLen =
      .ok (bodyLength body, mcprVarintBounds (bodyLength body))) ∧
  (bodyLength body).toInt = body.length ∧
  frame.drop (mcprVarintBounds (bodyLength body)) = body

theorem frameSkip_add : frameSkip body+mcprVarintBounds (bodyLength body) = mcprVarintSizeMax :=
  Nat.sub_add_cancel (mcprVarintBounds_le _)

/-- The two loops agree on the width of the length. -/
theorem laidOut : LaidOut garbage body := by
  have hskip := frameSkip_add body
  have hwidth := mcprEncodeVarint_length (bodyLength body)
  have huntouched : ∀ i, i < frameSkip body ∨ mcprVarintSizeMax ≤ i →
      packetBuffer garbage body i = bodyBuffer garbage body i := by
    intro i hi
    apply write_outside
    omega
  refine ⟨hskip, ?_, ?_, huntouched⟩
  · rw [← hwidth]
    exact read_write_same _ _ _
  · calc
      read (shift (packetBuffer garbage body) mcprVarintSizeMax) body.length
          = read (shift (bodyBuffer garbage body) mcprVarintSizeMax) body.length := by
        apply (read_eq_iff _ _ _).mpr
        intro i _
        exact huntouched _ (.inr (Nat.le_add_right _ _))
      _ = body := read_write_same _ _ _

theorem handedOver_eq : handedOver garbage body = frameOf body := by
  have h := laidOut garbage body
  have hwidth := mcprEncodeVarint_length (bodyLength body)
  rw [handedOver, Nat.add_comm, read_add, shift_shift, hwidth, h.reserve, h.lengthPrefix, h.content]
  rfl

theorem frameOf_readsBack (hmax : body.length ≤ int32Max) : ReadsBack (frameOf body) body := by
  have hwidth := mcprEncodeVarint_length (bodyLength body)
  simp only [int32Max] at hmax
  refine ⟨?_, ?_, ?_⟩
  · intro more maxLen h
    rw [frameOf, List.append_assoc, ← hwidth]
    apply mcprDecodeVarint_encode
    · exact ofList_append _ _
    · rw [hwidth]
      exact h
  · rw [bodyLength, toInt_ofNat_32]
    omega
  · rw [← hwidth]
    exact List.drop_left

end Buffer

section Frame

/-- A packet whose encoding has a length that is an `int32_t` and within its bound. -/
structure FrameSized (w : PacketWrite) (bound : UInt64) : Prop where
  bounds : mcprEncodePacketBounds w.1.bounds w.2 = .ret bound
  exit : (mcprEncodePacket w.1.encode w.2).exit = .ret (sizeOfNat w.body.length)
  pos : 0 < w.body.length
  max : w.body.length ≤ int32Max
  le : w.body.length ≤ bound.toNat

/-- Unless no buffer can be had, the frame is built in it and handed over as a whole. -/
structure FrameHanded (cipher : Cipher κ) (w : PacketWrite) (bound : UInt64) : Prop where
  frame : handedOver w.1.garbage w.body = mcprEncodeVarint (bodyLength w.body) ++ w.body
  layout : LaidOut w.1.garbage w.body
  readBack : ReadsBack (handedOver w.1.garbage w.body) w.body
  run : ∀ o, (mcprConnectionWritePacket cipher w.1 w.2).run o =
    if (sizeOfNat mcprVarintSizeMax+bound).toNat ≤ ptrdiffMax ∧ w.1.mallocPacket = true then
      (do
        let ok ← mcprConnectionWrite cipher w.1 (handedOver w.1.garbage w.body)
        if ok then do
          record (.writePacket w.2.id)
          return true
        else return false : ConnProg κ Bool).run (w.encoded o)
    else (.ok false, { o with ninerr := some .fromErrno })

variable (cipher : Cipher κ) {w : PacketWrite} {bound : UInt64}

theorem writePacket_unallocated (h : FrameSized w bound) (o : ConnObjects κ)
    (hsize : ¬ ((sizeOfNat mcprVarintSizeMax+bound).toNat ≤ ptrdiffMax ∧
      w.1.mallocPacket = true)) :
    (mcprConnectionWritePacket cipher w.1 w.2).run o =
      (.ok false, { o with ninerr := some .fromErrno }) := by
  obtain ⟨byte, hbyte⟩ := mcprPacketTypeToByte_of_ret h.exit
  have hfails : ptrdiffMax < (sizeOfNat mcprVarintSizeMax+bound).toNat ∨
      w.1.mallocPacket = false := by
    rw [not_and_or, not_le, Bool.not_eq_true] at hsize
    exact hsize
  simp only [mcprConnectionWritePacket, hbyte, h.bounds, if_pos hfails, setNinerr, bind_run,
    modify_run, pure_run]

/-- The body is encoded past the end of a buffer whose size wrapped around. -/
theorem writePacket_wraps (h : FrameSized w bound) (o : ConnObjects κ)
    (hwraps : 2^64 ≤ bound.toNat+mcprVarintSizeMax) (hmalloc : w.1.mallocPacket = true) :
    (mcprConnectionWritePacket cipher w.1 w.2).run o = (.error .undefined, o) := by
  obtain ⟨byte, hbyte⟩ := mcprPacketTypeToByte_of_ret h.exit
  have hsize : (sizeOfNat mcprVarintSizeMax+bound).toNat < mcprVarintSizeMax := by
    have := bound.toNat_lt
    rw [UInt64.toNat_add, sizeOfNat_toNat]
    simp only [mcprVarintSizeMax] at hwraps ⊢
    omega
  have hallocated : ¬ (ptrdiffMax < (sizeOfNat mcprVarintSizeMax+bound).toNat ∨
      w.1.mallocPacket = false) := by
    rintro (hlarge | hfails)
    · simp only [mcprVarintSizeMax, ptrdiffMax] at hsize hlarge
      omega
    · rw [hmalloc] at hfails
      contradiction
  -- not even the reserve fits
  have hroom : (sizeOfNat mcprVarintSizeMax+bound).toNat <
      mcprVarintSizeMax+(mcprEncodePacket w.1.encode w.2).objects.written.length := by
    omega
  simp only [mcprConnectionWritePacket, hbyte, h.bounds, if_neg hallocated, if_pos hroom, exit_run]

theorem not_frameHanded (h : FrameSized w bound) (hwraps : 2^64 ≤ bound.toNat+mcprVarintSizeMax)
    (hmalloc : w.1.mallocPacket = true) : ¬ FrameHanded cipher w bound := by
  intro hhanded
  -- a new connection neither encrypts nor compresses, and its writes return
  let o : ConnObjects κ := mcprConnectionNew (fun _ => 0) []
  have hwrite := mcprConnectionWrite_plain cipher w.1 (handedOver w.1.garbage w.body)
    (o := w.encoded o) rfl rfl
  have hrun := hhanded.run o
  rw [writePacket_wraps cipher h o hwraps hmalloc] at hrun
  split_ifs at hrun
  · rw [bind_run, hwrite] at hrun
    dsimp only at hrun
    split_ifs at hrun <;> simp [record] at hrun
  · simp at hrun

/-- A frame is handed over whole if and only if the size of its buffer does not wrap around, or
there is no buffer at all. -/
theorem frame_handed_iff (h : FrameSized w bound) : FrameHanded cipher w bound ↔
    bound.toNat+mcprVarintSizeMax < 2^64 ∨ w.1.mallocPacket = false := by
  have hframe := handedOver_eq w.1.garbage w.body
  have hread : ReadsBack (handedOver w.1.garbage w.body) w.body := by
    rw [hframe]
    exact frameOf_readsBack w.body h.max
  constructor
  · intro hhanded
    by_contra hnot
    rw [not_or, not_lt, Bool.not_eq_false] at hnot
    exact not_frameHanded cipher h hnot.1 hnot.2 hhanded
  · intro hcondition
    refine ⟨hframe, laidOut _ _, hread, ?_⟩
    intro o
    split_ifs with hallocated
    · -- there is room for the reserve and for all that the bound promises
      have hroom : (sizeOfNat mcprVarintSizeMax+bound).toNat = bound.toNat+mcprVarintSizeMax := by
        have hwhole : bound.toNat+mcprVarintSizeMax < 2^64 := by
          rcases hcondition with hwhole | hfails
          · exact hwhole
          · rw [hallocated.2] at hfails
            contradiction
        rw [UInt64.toNat_add, sizeOfNat_toNat]
        simp only [mcprVarintSizeMax] at hwhole ⊢
        omega
      have hne : sizeOfNat w.body.length ≠ 0 := by
        have hpos := h.pos
        have hmax := h.max
        intro hzero
        have := congrArg UInt64.toNat hzero
        rw [sizeOfNat_toNat, UInt64.toNat_zero] at this
        simp only [int32Max] at hmax
        omega
      have hfits : w.Fits := ⟨bound, sizeOfNat w.body.length, h.bounds, hallocated.1, hallocated.2,
        by have := h.le; omega, h.exit, hne, h.max⟩
      rw [hframe]
      exact mcprConnectionWritePacket_run cipher hfits o
    · exact writePacket_unallocated cipher h o hallocated

theorem keep_alive_framed : FrameHanded cipherExample
    ((default, { (default : McprPacket) with id := .plCbKeepAlive, state := .play }) : PacketWrite)
    10 :=
  (frame_handed_iff cipherExample ⟨rfl, rfl, by decide, by decide, by decide⟩).mpr
    (.inl (by decide))

section Wrap
variable {palette : List (BitVec 32)}

theorem paletteSection_whole (hlen : palette.length ≤ int32Max) :
    SectionWhole (paletteSection palette) := by
  constructor
  · have h := toInt_ofNat_32 palette.length
    simp only [int32Max] at hlen
    change (BitVec.ofNat 32 palette.length).toInt = palette.length
    omega
  · change NonNegative 0#32
    decide

theorem paletteSection_estimate (hlen : palette.length = 858993043) :
    paletteEstimate (paletteSection palette) = 7+5*palette.length ∧
      sectionEstimate (paletteSection palette) = 2055+5*palette.length := by
  have hwidth : mcprVarintBounds (BitVec.ofNat 32 palette.length) = 5 := by
    rw [hlen]
    decide
  have hzero : mcprVarintBounds 0#32 = 1 := by decide
  have hcount : (paletteSection palette).paletteLength = BitVec.ofNat 32 palette.length := rfl
  have hblocks : (paletteSection palette).blockArrayLength = 0#32 := rfl
  have hlight : lightLength (paletteSection palette) = 2048 := rfl
  have hnat : (BitVec.ofNat 32 palette.length).toNat = palette.length := by
    rw [BitVec.toNat_ofNat]
    omega
  simp only [paletteEstimate, sectionEstimate, hcount, hblocks, hlight, hwidth, hzero, hnat,
    BitVec.toNat_ofNat]
  omega

/-- 26 bytes less than none are counted for the sections. -/
theorem chunkExample_dataSize (hlen : palette.length = 858993043) :
    chunkDataSize (chunkExample palette).data.playClientbound.chunkData =
      some (BitVec.ofNat 32 4294967270) := by
  have hwhole : SectionWhole (paletteSection palette) := by
    apply paletteSection_whole
    simp only [hlen, int32Max]
    decide
  obtain ⟨hpalette, hsection⟩ := paletteSection_estimate hlen
  have hstays : SumStays 0 [paletteSection palette] := by
    have hblocks : (paletteSection palette).blockArrayLength.toNat = 0 := rfl
    have hlight : lightLength (paletteSection palette) = 2048 := rfl
    refine ⟨?_, trivial⟩
    rw [hpalette, hblocks, hlight]
    omega
  have hsize := sectionsDataSize_ofNat 0 [paletteSection palette]
    (by simpa using hwhole.nonNegative) (by
      intro s h
      rw [List.mem_singleton.mp h]
      change (8*(0 : ℕ) : ℤ) ≤ int32Max
      decide)
  rw [if_pos hstays, List.map_singleton, List.sum_singleton, hsection, hlen] at hsize
  exact hsize

theorem chunkExample_run (env : EncodeEnv) (hlen : palette.length = 858993043)
    (hone : ∀ v ∈ palette, mcprVarintBounds v = 1) :
    ∃ o, (encodeBody env (chunkExample palette)).run encodeStart = (.ok (), o) ∧
      o.written.length = 858995115 := by
  have hwhole : SectionWhole (paletteSection palette) := by
    apply paletteSection_whole
    simp only [hlen, int32Max]
    decide
  -- four bytes too many are counted for each entry
  have hexcess : (palette.map fun v => 5-mcprVarintBounds v).sum = 4*palette.length := by
    have hfour : palette.map (fun v => 5-mcprVarintBounds v) = palette.map fun _ => 4 :=
      List.map_congr_left fun v hv => by rw [hone v hv]
    rw [hfour, List.map_const', List.sum_replicate, smul_eq_mul, Nat.mul_comm]
  have hsection : sectionLength (paletteSection palette) = 858995098 := by
    have hestimate := (paletteSection_estimate hlen).2
    have h := (sectionEstimate_excess _ hwhole).1
    change sectionEstimate (paletteSection palette) = sectionLength (paletteSection palette)+
      (palette.map fun v => 5-mcprVarintBounds v).sum at h
    omega
  have hchunk : chunkLength (chunkExample palette).data.playClientbound.chunkData = 858995098 := by
    have hsections : (chunkExample palette).data.playClientbound.chunkData.chunkSections =
        [paletteSection palette] := rfl
    have hbiomes : biomesLength (chunkExample palette).data.playClientbound.chunkData = 0 := rfl
    rw [chunkLength, hbiomes, hsections, List.map_singleton, List.sum_singleton, hsection,
      Nat.zero_add]
  obtain ⟨o, hr, hl⟩ := encodeChunkData_run env
    (chunkExample palette).data.playClientbound.chunkData _
    (by
      intro s h
      rw [List.mem_singleton.mp h]
      exact hwhole.nonNegative) (chunkExample_dataSize hlen)
  refine ⟨o, hr, ?_⟩
  have hzero : mcprVarintBounds 0#32 = 1 := by decide
  have hwidth : mcprVarintBounds (BitVec.ofNat 32 4294967270) = 5 := by decide
  have hmask : (chunkExample palette).data.playClientbound.chunkData.primaryBitMask = 0#32 := rfl
  have hcount : (chunkExample palette).data.playClientbound.chunkData.blockEntityCount = 0#32 := rfl
  rw [hl, hmask, hcount, hzero, hwidth, hchunk]

theorem chunkExample_sized (env : WriteEnv) (hlen : palette.length = 858993043)
    (hone : ∀ v ∈ palette, mcprVarintBounds v = 1) :
    FrameSized (env, chunkExample palette) 18446744073709551614 := by
  obtain ⟨o, hr, hl⟩ := chunkExample_run env.encode hlen hone
  obtain ⟨hexit, hobjects⟩ := mcprEncodePacket_of_run env.encode (chunkExample palette) hr
  have hbody : (PacketWrite.body (env, chunkExample palette)).length = 858995115 := by
    rw [PacketWrite.body, hobjects, hl]
  have hbounds : chunkDataBounds env.bounds
      (chunkExample palette).data.playClientbound.chunkData = .ret 18446744073709551614 := by
    have hnone : rawBlockEntities env.bounds
        (chunkExample palette).data.playClientbound.chunkData = [] := rfl
    rw [chunkDataBounds, chunkExample_dataSize hlen, hnone]
    decide
  refine ⟨hbounds, ?_, ?_, ?_, ?_⟩
  · rw [hbody, ← hl]
    exact hexit
  · rw [hbody]
    decide
  · rw [hbody]
    decide
  · rw [hbody]
    decide

/-- Three bytes are allocated for a palette whose frame is 859 million bytes long. -/
theorem huge_palette_not_framed :
    let w : PacketWrite := (default, chunkExample (List.replicate 858993043 0#32))
    FrameSized w 18446744073709551614 ∧ ¬ FrameHanded cipherExample w 18446744073709551614 := by
  have hsized : FrameSized ((default, chunkExample (List.replicate 858993043 0#32)) : PacketWrite)
      18446744073709551614 := by
    apply chunkExample_sized default List.length_replicate
    intro v hv
    rw [List.eq_of_mem_replicate hv]
    decide
  exact ⟨hsized, not_frameHanded cipherExample hsized (by decide) rfl⟩

end Wrap

end Frame

end Stronk.Mcpr
