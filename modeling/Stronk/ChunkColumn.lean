import Stronk.BlockPacking
import Stronk.EncodeBounds
import Stronk.VarintCodec

/-! A column of chunks on its way to the client: the layout of Chunk Data as a client reads it,
and what it reads in the packet that `send_chunk_data` sends. -/
namespace Stronk.Mcpr
open ByteMemory ByteParser EarlyExit WordStream

section Layout

structure SectionImage where
  bitsPerBlock : ℕ
  palette : List ℕ
  longs : List ℕ
  blockLight : List UInt8
  skyLight : Option (List UInt8)
  deriving DecidableEq, Repr

structure ColumnImage where
  packetId : ℕ
  chunkX : ℤ
  chunkZ : ℤ
  groundUp : UInt8
  mask : ℕ
  sections : List SectionImage
  biomes : List UInt8
  blockEntityCount : ℕ
  deriving DecidableEq, Repr

def skyLightLayout (skyLight : Bool) : Parser (Option (List UInt8)) :=
  if skyLight then some <$> bytes 2048 else pure none

def biomesLayout (groundUp : UInt8) : Parser (List UInt8) :=
  if groundUp ≠ 0 then bytes 256 else pure []

def sectionLayout (skyLight : Bool) : Parser SectionImage := do
  let bitsPerBlock ← unsigned 1
  let paletteLength ← leb128 5
  let palette ← times (leb128 5) paletteLength
  let longCount ← leb128 5
  let longs ← times (unsigned 8) longCount
  let blockLight ← bytes 2048
  let skyLight ← skyLightLayout skyLight
  return { bitsPerBlock, palette, longs, blockLight, skyLight }

/-- One section for every bit of the mask, and the biomes of a column that is new. -/
def columnData (skyLight : Bool) (groundUp : UInt8) (mask : ℕ) :
    Parser (List SectionImage × List UInt8) := do
  let sections ← times (sectionLayout skyLight) ((List.range 16).countP fun i => mask.testBit i)
  let biomes ← biomesLayout groundUp
  return (sections, biomes)

/-- The size says where the sections and the biomes end. -/
def columnLayout (skyLight : Bool) : Parser ColumnImage := do
  let packetId ← leb128 5
  let chunkX ← signed 4
  let chunkZ ← signed 4
  let groundUp ← byte
  let mask ← leb128 5
  let size ← leb128 5
  let data ← framed size (columnData skyLight groundUp mask)
  let blockEntityCount ← leb128 5
  return { packetId, chunkX, chunkZ, groundUp, mask, sections := data.1, biomes := data.2
           blockEntityCount }

/-- The `i`-th entry of 13 bits, least significant bits first. -/
def SectionImage.entry (image : SectionImage) (i : ℕ) : ℕ :=
  Nat.ofDigits (2^64) image.longs/2^(13*i)%2^13

structure ShowsSection (skyLight : Bool) (s : ChunkSection) (image : SectionImage) : Prop where
  bitsPerBlock : image.bitsPerBlock = 13
  palette : image.palette = []
  longs : image.longs.length = 832
  blocks : ∀ i (_ : i < blocksPerChunkSection), image.entry i = s.blocks[i].entry
  blockLight : image.blockLight.length = 2048
  skyLight : image.skyLight.map List.length = if skyLight then some 2048 else none

structure ShowsColumn (skyLight : Bool) (chunk : Chunk) (x z : ℤ) (image : ColumnImage) : Prop where
  packetId : image.packetId = 0x20
  chunkX : image.chunkX = x
  chunkZ : image.chunkZ = z
  groundUp : image.groundUp = 0x01
  mask : image.mask = 0xFFFF
  sections : List.Forall₂ (ShowsSection skyLight) chunk.sections.toList image.sections
  biomes : image.biomes = chunk.biomes.toList
  blockEntityCount : image.blockEntityCount = 0

end Layout

section Column
variable (host : Endian)

/-- What a section comes to in the packet. -/
def sectionBytes (light : List UInt8) (skyLight : Option (List UInt8)) (s : ChunkSection) :
    List UInt8 :=
  [13] ++ mcprEncodeVarint 0#32 ++ mcprEncodeVarint 832#32 ++ encodeChunkSectionBlocks host s ++
    light ++ skyLight.getD []

variable (light : List UInt8) (hlight : light.length = 2048)
  (skyLight : Option (List UInt8)) (hsky : ∀ l ∈ skyLight, l.length = 2048)

include hlight hsky in
/-- A reader of the layout finds the blocks, and finds the lengths right. -/
theorem reads_section (s : ChunkSection) (hfit : ∀ b ∈ s.blocks.toList, b.entry < 2^13) :
    ∃ image, Reads (sectionLayout skyLight.isSome) (sectionBytes host light skyLight s) image ∧
      ShowsSection skyLight.isSome s image := by
  obtain ⟨words, hl, hbytes, hvalue⟩ := encodeChunkSectionBlocks_words host s hfit
  have hentry (i : ℕ) (hi : i < blocksPerChunkSection) :
      Nat.ofDigits (2^64) (words.map UInt64.toNat)/2^(13*i)%2^13 = s.blocks[i].entry := by
    rw [hvalue, digit_ofDigits _ (by simpa using hfit) i (by simpa using hi)]
    simp
  have hlongs : Reads (times (unsigned 8) 832) (encodeChunkSectionBlocks host s)
      (words.map UInt64.toNat) := by
    have h := reads_times words (fun word => (leBytes 8 word.toNat).reverse) UInt64.toNat
      fun word _ => by
        have hw := reads_unsigned (leBytes 8 word.toNat).reverse 8 (by simp [leBytes_length])
        rwa [beNat_reverse, leValue_leBytes 8 _ word.toNat_lt] at hw
    rwa [hl, ← hbytes] at h
  have hskyReads : Reads (skyLightLayout skyLight.isSome) (skyLight.getD []) skyLight := by
    cases skyLight with
    | some l => exact (reads_bytes l 2048 (hsky l rfl)).bind_pure
    | none => exact Reads.pure none
  refine ⟨{ bitsPerBlock := 13, palette := [], longs := words.map UInt64.toNat
            blockLight := light, skyLight := skyLight }, ?_, ?_⟩
  · have h13 : Reads (unsigned 1) [13] 13 := reads_unsigned [13] 1 rfl
    have hpal : Reads (times (leb128 5) 0) [] [] := Reads.pure []
    have hb : sectionBytes host light skyLight s = [13] ++ (mcprEncodeVarint 0#32 ++ ([] ++
        (mcprEncodeVarint 832#32 ++ (encodeChunkSectionBlocks host s ++
          (light ++ skyLight.getD []))))) := by
      simp only [sectionBytes, List.append_assoc, List.nil_append]
    rw [hb]
    unfold sectionLayout
    apply h13.bind
    apply (reads_mcprEncodeVarint 0#32).bind
    apply hpal.bind
    apply (reads_mcprEncodeVarint 832#32).bind
    apply hlongs.bind
    apply (reads_bytes light 2048 hlight).bind
    exact hskyReads.bind_pure
  · refine ⟨rfl, rfl, by simpa using hl, hentry, hlight, ?_⟩
    cases skyLight with
    | some l => simpa using hsky l rfl
    | none => rfl

include hlight hsky in
theorem reads_sections (sections : List ChunkSection)
    (hfit : ∀ s ∈ sections, ∀ b ∈ s.blocks.toList, b.entry < 2^13) :
    ∃ images, Reads (times (sectionLayout skyLight.isSome) sections.length)
        (sections.flatMap (sectionBytes host light skyLight)) images ∧
      List.Forall₂ (ShowsSection skyLight.isSome) sections images := by
  induction sections with
  | nil => exact ⟨[], Reads.pure [], .nil⟩
  | cons s sections ih =>
    obtain ⟨image, hr, hs⟩ := reads_section host light hlight skyLight hsky s (hfit s (by simp))
    obtain ⟨images, hrs, hss⟩ := ih fun t ht => hfit t (by simp [ht])
    refine ⟨image :: images, ?_, .cons hs hss⟩
    rw [List.flatMap_cons]
    exact hr.bind hrs.bind_pure

end Column

section Encode

/-- A section whose arrays are as long as they are said to be is written out whole. -/
theorem encodeSection_whole (m : McprChunkSection) (hb : m.blocks.length = 8*m.blockArrayLength.toNat)
    (hn : NonNegative m.blockArrayLength) (hl : m.blockLight.length = 2048)
    (hs : ∀ l ∈ m.skyLight, l.length = 2048) (o : EncodeObjects) :
    (encodeSection m).run o = (.ok (), { o with written := o.written ++
      ([m.bitsPerBlock] ++ mcprEncodeVarint m.paletteLength ++ paletteBytes m ++
        mcprEncodeVarint m.blockArrayLength ++ m.blocks ++ m.blockLight ++ m.skyLight.getD []) }) := by
  have hlen : m.blockArrayLength.toInt*8 = ((8*m.blockArrayLength.toNat : ℕ) : ℤ) := by
    rw [hn.toInt]
    push_cast
    ring
  have hcopy (n : ℕ) (bs : List UInt8) (h : bs.length = n) (o : EncodeObjects) :
      (memcpyOut n bs).run o = (.ok (), { o with written := o.written ++ bs }) := by
    rw [memcpyOut_run o n bs (Int.natCast_nonneg n), Int.toNat_natCast, ← h, read_ofList]
  have hsky : (memcpyOut (if m.skyLight.isSome then 2048 else 0) (m.skyLight.getD [])).run =
      fun o => (.ok (), { o with written := o.written ++ m.skyLight.getD [] }) := by
    funext o
    rcases h : m.skyLight with _ | l
    · exact hcopy 0 [] rfl o
    · exact hcopy 2048 l (hs l h) o
  have hlight := hcopy 2048 m.blockLight hl
  rw [encodeSection]
  simp only [bind_run, emit, modify_run, hlen, hcopy _ _ hb, mcprEncodeUbyte, hsky]
  rw [show (2048 : ℤ) = ((2048 : ℕ) : ℤ) from rfl]
  simp only [hlight, List.append_assoc]

def skyLightOf (sendSkyLight : Bool) : Option (List UInt8) :=
  if sendSkyLight then some (List.replicate (blocksPerChunkSection/2) 0xFF) else none

theorem skyLightOf_isSome (sendSkyLight : Bool) : (skyLightOf sendSkyLight).isSome = sendSkyLight := by
  cases sendSkyLight <;> rfl

theorem skyLightOf_length (sendSkyLight : Bool) : ∀ l ∈ skyLightOf sendSkyLight, l.length = 2048 := by
  intro l hl
  cases sendSkyLight with
  | true =>
    cases hl
    exact List.length_replicate
  | false => cases hl

/-- The fields of a section, wherever they lie. -/
def sectionFields (host : Endian) (sendSkyLight : Bool) (s : ChunkSection) : McprChunkSection :=
  { bitsPerBlock := 13, palette := [], paletteLength := 0, blockArrayLength := 832
    blocks := encodeChunkSectionBlocks host s
    blockLight := List.replicate (blocksPerChunkSection/2) 0x00, skyLight := skyLightOf sendSkyLight }

/-- What is read below a place that was written to is what lay there before. -/
theorem read_below (m : Mem) {off k n : ℕ} (bs : List UInt8) (h : k+n ≤ off) :
    read (shift (write m off bs) k) n = read (shift m k) n := by
  rw [read_eq_iff]
  exact fun i hi => write_outside m off bs (.inl (by omega))

theorem read_replicate (m : Mem) (off n : ℕ) (b : UInt8) :
    read (shift (write m off (List.replicate n b)) off) n = List.replicate n b := by
  have h := read_write_same m off (List.replicate n b)
  rwa [List.length_replicate] at h

/-- The parts of `membuf2` do not overlap. -/
theorem mcprChunkSectionOf_eq (host : Endian) (sendSkyLight : Bool) (s : ChunkSection)
    (hfit : ∀ b ∈ s.blocks.toList, b.entry < 2^13) :
    mcprChunkSectionOf host sendSkyLight s = sectionFields host sendSkyLight s := by
  have hblocks : read (shift (sectionMemory host sendSkyLight s) (blocksOffset sendSkyLight))
      (8*832) = encodeChunkSectionBlocks host s := by
    rw [← encodeChunkSectionBlocks_length host s hfit, sectionMemory]
    exact read_write_same _ _ _
  have hlight : read (shift (sectionMemory host sendSkyLight s) 0) (blocksPerChunkSection/2) =
      List.replicate (blocksPerChunkSection/2) 0x00 := by
    rw [sectionMemory, read_below _ _ (by cases sendSkyLight <;> decide)]
    cases sendSkyLight with
    | true =>
      rw [if_pos rfl, read_below _ _ (by decide)]
      exact read_replicate _ _ _ _
    | false =>
      rw [if_neg Bool.false_ne_true]
      exact read_replicate _ _ _ _
  have hsky : read (shift (sectionMemory host true s) (blocksPerChunkSection/2))
      (blocksPerChunkSection/2) = List.replicate (blocksPerChunkSection/2) 0xFF := by
    rw [sectionMemory, if_pos rfl, read_below _ _ (by decide)]
    exact read_replicate _ _ _ _
  rw [shift_zero] at hlight
  rw [mcprChunkSectionOf, sectionFields, hblocks, hlight]
  cases sendSkyLight with
  | true => rw [if_pos rfl, hsky, skyLightOf, if_pos rfl]
  | false => rw [if_neg Bool.false_ne_true, skyLightOf, if_neg Bool.false_ne_true]

def sectionsBytes (host : Endian) (sendSkyLight : Bool) (sections : List ChunkSection) :
    List UInt8 :=
  sections.flatMap (sectionBytes host (List.replicate (blocksPerChunkSection/2) 0x00)
    (skyLightOf sendSkyLight))

variable (host : Endian) (sendSkyLight : Bool) (sections : List ChunkSection)
  (hfit : ∀ s ∈ sections, ∀ b ∈ s.blocks.toList, b.entry < 2^13)

include hfit in
theorem encodeSections_whole (o : EncodeObjects) :
    (encodeSections (sections.map (mcprChunkSectionOf host sendSkyLight))).run o =
      (.ok (), { o with written := o.written ++ sectionsBytes host sendSkyLight sections }) := by
  induction sections generalizing o with
  | nil => simp [encodeSections, sectionsBytes]
  | cons s sections ih =>
    have hs := encodeSection_whole (sectionFields host sendSkyLight s)
      (encodeChunkSectionBlocks_length host s (hfit s (by simp)))
      (show (0 : ℤ) ≤ (832#32).toInt by decide) List.length_replicate
      (skyLightOf_length sendSkyLight) o
    have hpal : paletteBytes (sectionFields host sendSkyLight s) = [] := rfl
    rw [hpal, List.append_nil] at hs
    rw [List.map_cons, mcprChunkSectionOf_eq host sendSkyLight s (hfit s (by simp)), encodeSections,
      bind_run, hs]
    refine (ih (fun t ht => hfit t (by simp [ht])) _).trans ?_
    conv_rhs => rw [sectionsBytes, List.flatMap_cons, ← List.append_assoc]
    rfl

/-- A section without its arrays. -/
def bareSection (sendSkyLight : Bool) : McprChunkSection :=
  { bitsPerBlock := 13, palette := [], paletteLength := 0, blockArrayLength := 832, blocks := []
    blockLight := [], skyLight := if sendSkyLight then some [] else none }

/-- The size of the sections depends on nothing but their number and the sky light. -/
theorem sectionsDataSize_column (d : BitVec 32) :
    sectionsDataSize d (sections.map (mcprChunkSectionOf host sendSkyLight)) =
      sectionsDataSize d (List.replicate sections.length (bareSection sendSkyLight)) := by
  induction sections generalizing d with
  | nil => rfl
  | cons s sections ih =>
    have hs : sectionDataSize d (mcprChunkSectionOf host sendSkyLight s) =
        sectionDataSize d (bareSection sendSkyLight) := by
      have hsky : (mcprChunkSectionOf host sendSkyLight s).skyLight.isSome =
          (bareSection sendSkyLight).skyLight.isSome := by
        cases sendSkyLight <;> simp [mcprChunkSectionOf, bareSection]
      rw [sectionDataSize, sectionDataSize, hsky]
      rfl
    rw [List.map_cons, List.length_cons, List.replicate_succ, sectionsDataSize, sectionsDataSize, hs]
    simp only [ih]

def columnSize (sendSkyLight : Bool) : ℕ := if sendSkyLight then 172352 else 139584

theorem chunkDataSize_column (chunk : Chunk) (x z : BitVec 64) :
    chunkDataSize (chunkDataPacket host chunk x z sendSkyLight).data.playClientbound.chunkData =
      some (BitVec.ofNat 32 (columnSize sendSkyLight)) := by
  have h := sectionsDataSize_column host sendSkyLight chunk.sections.toList 256#32
  rw [Vector.length_toList] at h
  refine h.trans ?_
  cases sendSkyLight <;> rfl

theorem sections_length (hfit : ∀ s ∈ sections, ∀ b ∈ s.blocks.toList, b.entry < 2^13) :
    (sectionsBytes host sendSkyLight sections).length =
      sections.length*(if sendSkyLight then 10756 else 8708) := by
  unfold sectionsBytes
  induction sections with
  | nil => simp
  | cons s sections ih =>
    have h0 : (mcprEncodeVarint 0#32).length = 1 := by decide
    have h832 : (mcprEncodeVarint 832#32).length = 2 := by decide
    have hsky : ((skyLightOf sendSkyLight).getD []).length = if sendSkyLight then 2048 else 0 := by
      cases sendSkyLight with
      | true => exact List.length_replicate
      | false => rfl
    rw [List.flatMap_cons, List.length_append, ih fun t ht => hfit t (by simp [ht]), sectionBytes]
    simp only [List.length_append, h0, h832, hsky,
      encodeChunkSectionBlocks_length host s (hfit s (by simp)), List.length_replicate,
      List.length_cons, List.length_nil, blocksPerChunkSection]
    split <;> ring

/-- The packet as it goes out. -/
def columnBytes (chunk : Chunk) (x z : BitVec 32) : List UInt8 :=
  mcprEncodeVarint 0x20#32 ++ (mcprEncodeInt host x ++ (mcprEncodeInt host z ++ ([0x01] ++
    (mcprEncodeVarint 0xFFFF#32 ++ (mcprEncodeVarint (BitVec.ofNat 32 (columnSize sendSkyLight)) ++
      (sectionsBytes host sendSkyLight chunk.sections.toList ++ chunk.biomes.toList ++
        mcprEncodeVarint 0#32))))))

theorem encodeChunkData_column (env : EncodeEnv) (chunk : Chunk) (x z : BitVec 32)
    (hfit : ∀ s ∈ chunk.sections.toList, ∀ b ∈ s.blocks.toList, b.entry < 2^13) :
    (encodeBody env (chunkDataPacket env.host chunk (longOf x) (longOf z) sendSkyLight)).run
        encodeStart =
      (.ok (), { encodeStart with written := columnBytes env.host sendSkyLight chunk x z }) := by
  have hcut (n : BitVec 32) : (longOf n).setWidth 32 = n := by
    apply BitVec.eq_of_getLsbD_eq
    intro i hi
    rw [BitVec.getLsbD_setWidth, longOf, BitVec.getLsbD_signExtend, if_pos hi]
    simp [hi, show i < 64 by omega]
  have hnum (o : EncodeObjects) : (packetNumber .plCbChunkData).run o =
      (.ok (), { o with written := o.written ++ mcprEncodeVarint 0x20#32 }) := rfl
  have hbiomes (o : EncodeObjects) : (memcpyOut 256 chunk.biomes.toList).run o =
      (.ok (), { o with written := o.written ++ chunk.biomes.toList }) := by
    rw [memcpyOut_run o 256 _ (by decide)]
    have h := read_ofList chunk.biomes.toList
    rw [Vector.length_toList] at h
    rw [show (256 : ℤ).toNat = 256 from rfl, h]
  have hent (c : ChunkData) (hc : c.blockEntityCount = 0#32) (o : EncodeObjects) :
      (encodeBlockEntities env c).run o = (.ok (), o) := by
    rw [encodeBlockEntities, hc]
    rfl
  change (encodeChunkData env (chunkDataPacket env.host chunk (longOf x) (longOf z)
    sendSkyLight).data.playClientbound.chunkData).run encodeStart = _
  rw [encodeChunkData, chunkDataSize_column env.host sendSkyLight chunk (longOf x) (longOf z)]
  simp only [bind_run, hnum, emit_run, encodeStart]
  simp only [chunkDataPacket, hcut, ↓reduceIte, hbiomes,
    encodeSections_whole env.host sendSkyLight chunk.sections.toList hfit]
  rw [hent _ rfl]
  simp only [columnBytes, mcprEncodeBool, List.append_assoc, List.nil_append, ↓reduceIte]
  rfl

theorem columnSize_eq (chunk : Chunk)
    (hfit : ∀ s ∈ chunk.sections.toList, ∀ b ∈ s.blocks.toList, b.entry < 2^13) :
    (sectionsBytes host sendSkyLight chunk.sections.toList ++ chunk.biomes.toList).length =
      columnSize sendSkyLight := by
  rw [List.length_append, sections_length host sendSkyLight _ hfit, Vector.length_toList,
    Vector.length_toList]
  cases sendSkyLight <;> rfl

theorem columnSize_toNat : (BitVec.ofNat 32 (columnSize sendSkyLight)).toNat =
    columnSize sendSkyLight := by
  cases sendSkyLight <;> rfl

/-- The client finds in the packet what was put into it. -/
theorem reads_column (chunk : Chunk) (x z : BitVec 32)
    (hfit : ∀ s ∈ chunk.sections.toList, ∀ b ∈ s.blocks.toList, b.entry < 2^13) :
    ∃ image, Reads (columnLayout sendSkyLight) (columnBytes host sendSkyLight chunk x z) image ∧
      ShowsColumn sendSkyLight chunk x.toInt z.toInt image := by
  obtain ⟨images, hsections, hshows⟩ := reads_sections host _ List.length_replicate
    (skyLightOf sendSkyLight) (skyLightOf_length sendSkyLight) chunk.sections.toList hfit
  rw [skyLightOf_isSome, Vector.length_toList] at hsections
  rw [skyLightOf_isSome] at hshows
  have hbiomes : Reads (biomesLayout 0x01) chunk.biomes.toList chunk.biomes.toList :=
    reads_bytes _ 256 (by rw [Vector.length_toList])
  have hdata : Reads (columnData sendSkyLight 0x01 0xFFFF)
      (sectionsBytes host sendSkyLight chunk.sections.toList ++ chunk.biomes.toList)
      (images, chunk.biomes.toList) := by
    have hmask : ((List.range 16).countP fun i => (0xFFFF : ℕ).testBit i) = 16 := by decide
    rw [columnData, hmask]
    exact hsections.bind hbiomes.bind_pure
  have hsize := reads_mcprEncodeVarint (BitVec.ofNat 32 (columnSize sendSkyLight))
  rw [columnSize_toNat] at hsize
  refine ⟨{ packetId := 0x20, chunkX := x.toInt, chunkZ := z.toInt, groundUp := 0x01, mask := 0xFFFF
            sections := images, biomes := chunk.biomes.toList, blockEntityCount := 0 }, ?_,
    ⟨rfl, rfl, rfl, rfl, rfl, hshows, rfl, rfl⟩⟩
  rw [columnLayout, columnBytes]
  apply (reads_mcprEncodeVarint 0x20#32).bind
  apply (reads_mcprEncodeInt host x).bind
  apply (reads_mcprEncodeInt host z).bind
  apply (reads_byte 0x01).bind
  apply (reads_mcprEncodeVarint 0xFFFF#32).bind
  apply hsize.bind
  apply (reads_framed _ (columnSize_eq host sendSkyLight chunk hfit) hdata).bind
  exact (reads_mcprEncodeVarint 0#32).bind_pure

end Encode

/-- The packet that `send_chunk_data` builds for a chunk is encoded, within the bound that is
made for it, to bytes in which a client finds that chunk and nothing more. -/
theorem chunk_column_intact (env envBounds : EncodeEnv) (chunk : Chunk) (x z : BitVec 32)
    (sendSkyLight : Bool)
    (hfit : ∀ s ∈ chunk.sections.toList, ∀ b ∈ s.blocks.toList,
      b.typeId.toNat < 512 ∧ b.data.toNat < 16) :
    let pkt := chunkDataPacket env.host chunk (longOf x) (longOf z) sendSkyLight
    let bs := (mcprEncodePacket env pkt).objects.written
    (mcprEncodePacket env pkt).exit = .ret (UInt64.ofNat bs.length) ∧
      (∃ image, parseAll (columnLayout sendSkyLight) bs = some image ∧
        ShowsColumn sendSkyLight chunk x.toInt z.toInt image) ∧
      ∃ bound, mcprEncodePacketBounds envBounds pkt = .ret bound ∧ bs.length ≤ bound.toNat := by
  intro pkt bs
  have hentry : ∀ s ∈ chunk.sections.toList, ∀ b ∈ s.blocks.toList, b.entry < 2^13 :=
    fun s hs b hb => b.entry_lt (hfit s hs b hb).1 (hfit s hs b hb).2
  have hrun := encodeChunkData_column sendSkyLight env chunk x z hentry
  have hbs : bs = columnBytes env.host sendSkyLight chunk x z := by
    simp only [bs, mcprEncodePacket, pkt, hrun]
  refine ⟨by simp only [bs, mcprEncodePacket, pkt, hrun, encodeExit], ?_, ?_⟩
  · obtain ⟨image, hr, hs⟩ := reads_column env.host sendSkyLight chunk x z hentry
    exact ⟨image, by rw [hbs]; exact hr.parseAll, hs⟩
  · have hd := chunkDataSize_column env.host sendSkyLight chunk (longOf x) (longOf z)
    have hb : mcprEncodePacketBounds envBounds pkt =
        .ret (UInt64.ofNat (24+columnSize sendSkyLight)) := by
      change chunkDataBounds envBounds pkt.data.playClientbound.chunkData = _
      have hnone : rawBlockEntities envBounds pkt.data.playClientbound.chunkData = [] := rfl
      simp only [chunkDataBounds, hnone, pkt, hd]
      cases sendSkyLight <;> decide
    have hlen : bs.length = 17+columnSize sendSkyLight := by
      have h1 : (mcprEncodeVarint 0x20#32).length = 1 := by decide
      have h3 : (mcprEncodeVarint 0xFFFF#32).length = 3 := by decide
      have hs : (mcprEncodeVarint (BitVec.ofNat 32 (columnSize sendSkyLight))).length = 3 := by
        cases sendSkyLight <;> decide
      have h0 : (mcprEncodeVarint 0#32).length = 1 := by decide
      have hi (i : BitVec 32) : (mcprEncodeInt env.host i).length = 4 := hostBytes_length _ _ _
      have hdata := columnSize_eq env.host sendSkyLight chunk hentry
      rw [List.length_append] at hdata
      simp only [hbs, columnBytes, List.length_append, List.length_singleton, h1, h3, hs, h0, hi]
      omega
    refine ⟨_, hb, ?_⟩
    rw [hlen, UInt64.toNat_ofNat', Nat.mod_eq_of_lt (by cases sendSkyLight <;> decide)]
    omega

/-- A dummy chunk south-east of the origin, with sky light. -/
theorem dummy_chunk_intact : ∃ image,
    parseAll (columnLayout true) (mcprEncodePacket default (chunkDataPacket
      (default : EncodeEnv).host dummyChunk (longOf 3#32) (longOf 5#32) true)).objects.written =
        some image ∧ ShowsColumn true dummyChunk (3#32).toInt (5#32).toInt image := by
  refine (chunk_column_intact default default dummyChunk 3#32 5#32 true ?_).2.1
  intro s hs b hb
  simp only [dummyChunk, Vector.mem_toList_iff, Vector.mem_ofFn] at hs
  obtain ⟨i, rfl⟩ := hs
  simp only [solidSection, Vector.mem_toList_iff, Vector.mem_replicate] at hb
  rw [hb.2]
  constructor
  · show (if i.val < 8 then (1 : UInt16) else 0).toNat < 512
    split <;> decide
  · show (0 : UInt8).toNat < 16
    decide

end Stronk.Mcpr
