import Stronk.EncodedPackets
import Stronk.VarintCodec

/-! The size in front of the sections of a Chunk Data packet. One loop of `mcpr_encode_packet`
adds it up and another writes the bytes that it is to count: the first takes every entry of a
palette for five bytes, the second writes a VarInt. -/
namespace Stronk.Mcpr
open ByteMemory EarlyExit

section Layout

/-- What stands in front of the size. -/
def chunkHead (env : EncodeEnv) (c : ChunkData) : List UInt8 :=
  numberBytes .plCbChunkData ++ mcprEncodeInt env.host c.chunkX ++
    mcprEncodeInt env.host c.chunkZ ++ mcprEncodeBool c.groundUpContinuous ++
    mcprEncodeVarint c.primaryBitMask

/-- What the size is to count. -/
def chunkBody (c : ChunkData) : List UInt8 :=
  c.chunkSections.flatMap sectionField ++
    arrayBytes (if c.groundUpContinuous then 256 else 0) c.biomes

/-- The encoder writes a size, and it is the number of bytes between itself and the count of
the block entities. -/
def SizePrefixed (env : EncodeEnv) (pkt : McprPacket) : Prop :=
  let c := pkt.data.playClientbound.chunkData
  ∃ (size : BitVec 32) (rest : List UInt8),
    (mcprEncodePacket env pkt).objects.written = chunkHead env c ++ (mcprEncodeVarint size ++
      (chunkBody c ++ (mcprEncodeVarint c.blockEntityCount ++ rest))) ∧
    size.toInt = (chunkBody c).length

/-- Every entry of the palette is there, and no array has a negative length. -/
structure SectionWhole (s : McprChunkSection) : Prop where
  palette : s.paletteLength.toInt = s.palette.length
  blocks : NonNegative s.blockArrayLength

theorem SectionWhole.nonNegative {s : McprChunkSection} (h : SectionWhole s) :
    SectionNonNegative s := by
  refine ⟨?_, h.blocks⟩
  have := h.palette
  simp only [NonNegative]
  omega

theorem sectionField_length (s : McprChunkSection) (hs : SectionNonNegative s) :
    (sectionField s).length = sectionLength s := by
  have hblocks := hs.2.toInt
  simp only [sectionField, arrayBytes, List.length_append, mcprEncodeUbyte, mcprEncodeVarint_length,
    read_length, List.length_singleton, sectionLength, lightLength]
  split_ifs <;> omega

theorem chunkBody_length (c : ChunkData) (hs : ∀ s ∈ c.chunkSections, SectionNonNegative s) :
    (chunkBody c).length = chunkLength c := by
  have hsections : (c.chunkSections.map fun s => (sectionField s).length) =
      c.chunkSections.map sectionLength :=
    List.map_congr_left fun s h => sectionField_length s (hs s h)
  have hbiomes : (arrayBytes (if c.groundUpContinuous then 256 else 0) c.biomes).length =
      biomesLength c := by
    simp only [arrayBytes, read_length, biomesLength]
    split_ifs <;> rfl
  rw [chunkBody, List.length_append, List.length_flatMap, hsections, hbiomes, chunkLength,
    Nat.add_comm]

theorem encodeBlockEntities_appends (env : EncodeEnv) (c : ChunkData) (o : EncodeObjects) :
    ∃ rest, ((encodeBlockEntities env c).run o).2.written = o.written ++ rest := by
  unfold encodeBlockEntities
  split_ifs
  · rcases c.blockEntities with _ | node
    · exact ⟨[], (List.append_nil _).symm⟩
    · exact ⟨rawBlockEntities env c, rfl⟩
  · exact ⟨[], (List.append_nil _).symm⟩

/-- The size and all that it counts is written before the block entities are looked at. -/
theorem encodeChunkData_written (env : EncodeEnv) (c : ChunkData) (size : BitVec 32)
    (hs : ∀ s ∈ c.chunkSections, SectionNonNegative s) (hd : chunkDataSize c = some size) :
    ∃ rest, ((encodeChunkData env c).run encodeStart).2.written =
      chunkHead env c ++ (mcprEncodeVarint size ++ (chunkBody c ++
        (mcprEncodeVarint c.blockEntityCount ++ rest))) := by
  let front : EncodeObjects :=
    { encodeStart with written := chunkHead env c ++ mcprEncodeVarint size }
  obtain ⟨o, hr, -⟩ := encodeSections_run c.chunkSections hs front
  have hsections : o.written = front.written ++ c.chunkSections.flatMap sectionField := by
    have h := emits_encodeSections c.chunkSections front
    rw [hr] at h
    exact h
  let behind : EncodeObjects :=
    { o with written := front.written ++ chunkBody c ++ mcprEncodeVarint c.blockEntityCount }
  have hrun : (encodeChunkData env c).run encodeStart = (encodeBlockEntities env c).run behind := by
    have hnum (o : EncodeObjects) : (packetNumber .plCbChunkData).run o =
        (.ok (), { o with written := o.written ++ numberBytes .plCbChunkData }) := rfl
    have hbiomes : (0 : ℤ) ≤ if c.groundUpContinuous then 256 else 0 := by
      split_ifs <;> omega
    simp only [front, chunkHead, encodeStart, List.append_assoc] at hr
    simp [encodeChunkData, hd, hnum, encodeStart, hr, memcpyOut_run, hbiomes, hsections, behind,
      front, chunkHead, chunkBody, arrayBytes]
  obtain ⟨rest, hrest⟩ := encodeBlockEntities_appends env c behind
  refine ⟨rest, ?_⟩
  rw [hrun, hrest]
  simp only [behind, front, List.append_assoc]

/-- Nothing is written where the sum overflows; else the size is the sum. -/
theorem sizePrefixed_iff_dataSize (env : EncodeEnv) (pkt : McprPacket)
    (hid : pkt.id = .plCbChunkData)
    (hs : ∀ s ∈ pkt.data.playClientbound.chunkData.chunkSections, SectionNonNegative s) :
    SizePrefixed env pkt ↔ ∃ size, chunkDataSize pkt.data.playClientbound.chunkData = some size ∧
      size.toInt = chunkLength pkt.data.playClientbound.chunkData := by
  obtain ⟨id, state, data⟩ := pkt
  subst hid
  have hbody : encodeBody env ⟨.plCbChunkData, state, data⟩ =
      encodeChunkData env data.playClientbound.chunkData := by
    cases state <;> rfl
  have hlength := chunkBody_length data.playClientbound.chunkData hs
  simp only [SizePrefixed, mcprEncodePacket, hbody, hlength]
  constructor
  · rintro ⟨size, rest, hwritten, hsize⟩
    rcases hd : chunkDataSize data.playClientbound.chunkData with _ | d
    · -- nothing is written at all
      simp [encodeChunkData, hd, encodeStart, chunkHead, mcprEncodeBool] at hwritten
    · obtain ⟨rest', hwritten'⟩ :=
        encodeChunkData_written env data.playClientbound.chunkData d hs hd
      rw [hwritten'] at hwritten
      rw [← mcprEncodeVarint_append_inj (List.append_cancel_left hwritten)] at hsize
      exact ⟨d, rfl, hsize⟩
  · rintro ⟨d, hd, hsize⟩
    obtain ⟨rest, hwritten⟩ := encodeChunkData_written env data.playClientbound.chunkData d hs hd
    exact ⟨d, rest, hwritten, hsize⟩

end Layout

section Sum

/-- From the residue of what has been added so far, no block array and no light takes the sum
over the largest `int`. -/
def SumStays : ℕ → List McprChunkSection → Prop
  | _, [] => True
  | n, s :: sections =>
    (n+paletteEstimate s+2147483648)%4294967296+(8*s.blockArrayLength.toNat+lightLength s) <
      4294967296 ∧ SumStays (n+sectionEstimate s) sections

instance decidableSumStays : ∀ n sections, Decidable (SumStays n sections)
  | _, [] => inferInstanceAs (Decidable True)
  | n, s :: sections =>
    have := decidableSumStays (n+sectionEstimate s) sections
    inferInstanceAs (Decidable (_ ∧ SumStays (n+sectionEstimate s) sections))

/-- How many bytes fewer than five the entries of the palettes take. -/
def paletteExcess (c : ChunkData) : ℕ :=
  (c.chunkSections.map fun s => (s.palette.map fun v => 5-mcprVarintBounds v).sum).sum

theorem sectionsDataSize_ofNat (n : ℕ) (sections : List McprChunkSection)
    (hs : ∀ s ∈ sections, SectionNonNegative s)
    (hfit : ∀ s ∈ sections, 8*s.blockArrayLength.toNat ≤ int32Max) :
    sectionsDataSize (BitVec.ofNat 32 n) sections =
      if SumStays n sections then some (BitVec.ofNat 32 (n+(sections.map sectionEstimate).sum))
        else none := by
  induction sections generalizing n with
  | nil => rfl
  | cons s sections ih =>
    have hhead := sectionDataSize_ofNat n s (hs s (by simp)) (hfit s (by simp))
    rw [addInt_ofNat, ← sectionEstimate_eq] at hhead
    have htail := ih (n+sectionEstimate s) (fun t ht => hs t (by simp [ht]))
      (fun t ht => hfit t (by simp [ht]))
    rw [sectionsDataSize, hhead, List.map_cons, List.sum_cons, ← Nat.add_assoc n]
    split_ifs with h h' h'
    · rw [Option.bind_some, htail, if_pos h'.2]
    · rw [Option.bind_some, htail, if_neg fun ht => h' ⟨h, ht⟩]
    · exact absurd h'.1 h
    · rfl

theorem SumStays.of_le (n : ℕ) (sections : List McprChunkSection)
    (h : n+(sections.map sectionEstimate).sum ≤ int32Max) : SumStays n sections := by
  induction sections generalizing n with
  | nil => trivial
  | cons s sections ih =>
    have hestimate := sectionEstimate_eq n s
    rw [List.map_cons, List.sum_cons] at h
    refine ⟨?_, ih _ (by omega)⟩
    simp only [int32Max] at h
    omega

end Sum

section Excess

/-- An entry takes one byte to five, and five are counted for it. -/
theorem encodePalette_excess (palette : List (BitVec 32)) :
    let excess := (palette.map fun v => 5-mcprVarintBounds v).sum
    (encodePalette palette.length palette).length+excess = 5*palette.length ∧
      excess ≤ 4*(encodePalette palette.length palette).length := by
  induction palette with
  | nil => exact ⟨rfl, le_refl _⟩
  | cons v palette ih =>
    have hle := mcprVarintBounds_le v
    have hpos := mcprVarintBounds_pos v
    simp only [List.map_cons, List.sum_cons, List.length_cons, encodePalette, List.headD_cons,
      List.tail_cons, List.length_append, mcprEncodeVarint_length] at ih ⊢
    omega

theorem sectionEstimate_excess (s : McprChunkSection) (hs : SectionWhole s) :
    let excess := (s.palette.map fun v => 5-mcprVarintBounds v).sum
    sectionEstimate s = sectionLength s+excess ∧ excess ≤ 4*sectionLength s := by
  have hcount : s.paletteLength.toNat = s.palette.length := by
    have := hs.nonNegative.1.toInt
    have := hs.palette
    omega
  have hbytes : paletteBytes s = encodePalette s.palette.length s.palette := by
    rw [paletteBytes, hcount, hs.palette]
    split_ifs with h
    · rfl
    · have hnil : s.palette.length = 0 := by omega
      rw [hnil]
      rfl
  obtain ⟨hexcess, hle⟩ := encodePalette_excess s.palette
  simp only [sectionEstimate, sectionLength, hbytes, hcount]
  omega

theorem chunkEstimate_excess (c : ChunkData) (hs : ∀ s ∈ c.chunkSections, SectionWhole s) :
    chunkEstimate c = chunkLength c+paletteExcess c ∧ paletteExcess c ≤ 4*chunkLength c := by
  have hsum : ∀ sections : List McprChunkSection, (∀ s ∈ sections, SectionWhole s) →
      let excess :=
        (sections.map fun s => (s.palette.map fun v => 5-mcprVarintBounds v).sum).sum
      (sections.map sectionEstimate).sum = (sections.map sectionLength).sum+excess ∧
        excess ≤ 4*(sections.map sectionLength).sum := by
    intro sections hs
    induction sections with
    | nil => exact ⟨rfl, le_refl _⟩
    | cons s sections ih =>
      have hhead := sectionEstimate_excess s (hs s (by simp))
      have htail := ih fun t ht => hs t (by simp [ht])
      simp only [List.map_cons, List.sum_cons] at hhead htail ⊢
      omega
  have := hsum c.chunkSections hs
  simp only [chunkEstimate, chunkLength, paletteExcess] at this ⊢
  omega

theorem paletteExcess_eq_zero_iff (c : ChunkData) : paletteExcess c = 0 ↔
    ∀ s ∈ c.chunkSections, ∀ v ∈ s.palette, mcprVarintBounds v = 5 := by
  have hfive (v : BitVec 32) : 5-mcprVarintBounds v = 0 ↔ mcprVarintBounds v = 5 := by
    have := mcprVarintBounds_le v
    omega
  simp only [paletteExcess, List.sum_eq_zero_iff, List.forall_mem_map, hfive]

/-- The size is right if and only if every entry of every palette takes five bytes. Where the
others leave out 2^32 bytes between them, the sum is right again, if it gets there. -/
theorem chunk_size_prefixed_iff (env : EncodeEnv) (pkt : McprPacket)
    (hid : pkt.id = .plCbChunkData)
    (hs : ∀ s ∈ pkt.data.playClientbound.chunkData.chunkSections, SectionWhole s)
    (hfit : (chunkBody pkt.data.playClientbound.chunkData).length ≤ int32Max) :
    SizePrefixed env pkt ↔
      (∀ s ∈ pkt.data.playClientbound.chunkData.chunkSections,
        ∀ v ∈ s.palette, mcprVarintBounds v = 5) ∨
      (paletteExcess pkt.data.playClientbound.chunkData = 4294967296 ∧
        SumStays (biomesLength pkt.data.playClientbound.chunkData)
          pkt.data.playClientbound.chunkData.chunkSections) := by
  rw [sizePrefixed_iff_dataSize env pkt hid fun s h => (hs s h).nonNegative]
  generalize pkt.data.playClientbound.chunkData = c at hs hfit
  rw [chunkBody_length c fun s h => (hs s h).nonNegative] at hfit
  obtain ⟨hestimate, hle⟩ := chunkEstimate_excess c hs
  have hblocks : ∀ s ∈ c.chunkSections, 8*s.blockArrayLength.toNat ≤ int32Max := by
    intro s h
    have hsection : sectionLength s ≤ (c.chunkSections.map sectionLength).sum :=
      List.single_le_sum (fun _ _ => Nat.zero_le _) _ (List.mem_map_of_mem h)
    simp only [chunkLength] at hfit
    simp only [sectionLength] at hsection
    omega
  have hstart : (if c.groundUpContinuous then 256#32 else 0#32) =
      BitVec.ofNat 32 (biomesLength c) := by
    rw [biomesLength]
    split_ifs <;> rfl
  have hsize := sectionsDataSize_ofNat (biomesLength c) c.chunkSections
    (fun s h => (hs s h).nonNegative) hblocks
  rw [← hstart] at hsize
  have hint := toInt_ofNat_32 (chunkEstimate c)
  simp only [int32Max] at hfit
  rw [chunkDataSize, hsize, ← chunkEstimate, ← paletteExcess_eq_zero_iff]
  constructor
  · rintro ⟨size, hsome, hlength⟩
    obtain ⟨hstays, hsum⟩ : SumStays (biomesLength c) c.chunkSections ∧
        BitVec.ofNat 32 (chunkEstimate c) = size := by
      split_ifs at hsome with h
      exact ⟨h, Option.some.inj hsome⟩
    rw [← hsum, hint] at hlength
    -- the excess is a multiple of 2^32, and less than twice that
    by_cases hzero : paletteExcess c = 0
    · exact .inl hzero
    · exact .inr ⟨by omega, hstays⟩
  · intro h
    have hstays : SumStays (biomesLength c) c.chunkSections := by
      rcases h with hzero | ⟨-, hstays⟩
      · -- the sum is the length itself, which is an `int`
        apply SumStays.of_le
        simp only [int32Max]
        simp only [chunkEstimate] at hestimate
        omega
      · exact hstays
    refine ⟨_, if_pos hstays, ?_⟩
    omega

/-- A section in the dark: a palette, no blocks and no light from the sky. -/
def paletteSection (palette : List (BitVec 32)) : McprChunkSection :=
  { (default : McprChunkSection) with
    paletteLength := BitVec.ofNat 32 palette.length
    palette
    blockLight := List.replicate 2048 0 }

def chunkExample (palette : List (BitVec 32)) : McprPacket :=
  { (default : McprPacket) with
    id := .plCbChunkData
    state := .play
    data := { (default : McprPacketData) with
      playClientbound := { (default : PlayClientbound) with
        chunkData := { (default : ChunkData) with
          chunkSections := [paletteSection palette] } } } }

theorem five_byte_entry_counted : SizePrefixed default (chunkExample [0xFFFFFFFF#32]) := by
  refine (chunk_size_prefixed_iff default _ rfl ?_ ?_).mpr (.inl ?_)
  · intro s h
    rw [List.mem_singleton.mp h]
    constructor <;> decide
  · rw [chunkBody_length _ (by decide)]
    decide
  · intro s h v hv
    rw [List.mem_singleton.mp h] at hv
    rw [List.mem_singleton.mp hv]
    decide

/-- For the one byte of a palette of stone five are counted. -/
theorem stone_entry_miscounted : ¬ SizePrefixed default (chunkExample [0x10#32]) := by
  rw [sizePrefixed_iff_dataSize default _ rfl (by decide)]
  rintro ⟨size, hd, hsize⟩
  have hd' : chunkDataSize (chunkExample [0x10#32]).data.playClientbound.chunkData =
      some 2056#32 := by
    decide
  rw [hd', Option.some.injEq] at hd
  rw [← hd] at hsize
  exact absurd hsize (by decide)

end Excess
end Stronk.Mcpr
