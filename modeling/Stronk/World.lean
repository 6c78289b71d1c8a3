import Stronk.McprEncode

/-! The world (`world/world.c`): the store of its chunks, and the packet that carries one. -/
namespace Stronk.Mcpr
open ByteMemory

/-- `struct block` -/
structure Block where
  typeId : UInt16
  data : UInt8
  deriving DecidableEq, Repr, Inhabited

/-- A `long` in the range of an `int32_t`. -/
def longOf (n : BitVec 32) : BitVec 64 := n.signExtend 64

def blocksPerChunkSection : ℕ := 4096

/-- `struct chunk_section` -/
structure ChunkSection where
  blocks : Vector Block blocksPerChunkSection
  deriving DecidableEq, Repr

/-- `struct chunk` -/
structure Chunk where
  sections : Vector ChunkSection 16
  biomes : Vector UInt8 256
  deriving DecidableEq, Repr

section Encode

/-- The macro `hton64` of `util.h`. -/
def hton64 (host : Endian) (x : UInt64) : UInt64 :=
  match host with
  | .little => UInt64.ofNat (leValue (leBytes 8 x.toNat).reverse)
  | .big => x

def blockData (block : Block) : UInt64 := (block.typeId.toUInt64 <<< 4) ||| block.data.toUInt64

/-- The loop over the blocks. A block that overflows a word is continued in the next; the last
word is stored as it is. -/
def encodeBlocksLoop (host : Endian) : ℕ → UInt64 → List Block → List UInt64
  | _, _, [] => []
  | bitsUsed, tmpResult, block :: blocks =>
    let current := blockData block
    let tmpResult := tmpResult ||| (current <<< UInt64.ofNat bitsUsed)
    let bitsUsed := bitsUsed+13
    if bitsUsed ≥ 64 ∨ blocks = [] then
      hton64 host tmpResult ::
        if bitsUsed > 64 then
          encodeBlocksLoop host (bitsUsed-64) (current >>> UInt64.ofNat (13-(bitsUsed-64))) blocks
        else encodeBlocksLoop host 0 0 blocks
    else encodeBlocksLoop host bitsUsed tmpResult blocks

/-- What `encode_chunk_section_blocks` stores, as the memory it is stored in. -/
def encodeChunkSectionBlocks (host : Endian) (s : ChunkSection) : List UInt8 :=
  (encodeBlocksLoop host 0 0 s.blocks.toList).flatMap fun word => hostBytes host 8 word.toNat

/-- Where the blocks of a section lie in `membuf2`, behind its light. -/
def blocksOffset (sendSkyLight : Bool) : ℕ :=
  if sendSkyLight then blocksPerChunkSection/2*2 else blocksPerChunkSection/2

/-- What `send_chunk_data` stores in `membuf2` for a section, in one allocation: the light of its
blocks, the sky light if that is sent, the blocks. -/
def sectionMemory (host : Endian) (sendSkyLight : Bool) (s : ChunkSection) : Mem :=
  let lit := write (fun _ => 0) 0 (List.replicate (blocksPerChunkSection/2) 0x00)
  let skyLit := if sendSkyLight then
      write lit (blocksPerChunkSection/2) (List.replicate (blocksPerChunkSection/2) 0xFF)
    else lit
  write skyLit (blocksOffset sendSkyLight) (encodeChunkSectionBlocks host s)

def mcprChunkSectionOf (host : Endian) (sendSkyLight : Bool) (s : ChunkSection) :
    McprChunkSection where
  bitsPerBlock := 13
  paletteLength := 0
  palette := []
  blockArrayLength := 832
  blocks := read (shift (sectionMemory host sendSkyLight s) (blocksOffset sendSkyLight)) (8*832)
  blockLight := read (sectionMemory host sendSkyLight s) (blocksPerChunkSection/2)
  skyLight := if sendSkyLight then
      some (read (shift (sectionMemory host sendSkyLight s) (blocksPerChunkSection/2))
        (blocksPerChunkSection/2))
    else none

/-- The packet that `send_chunk_data` builds; the coordinates are cut down to an `int32_t`. -/
def chunkDataPacket (host : Endian) (chunk : Chunk) (x z : BitVec 64) (sendSkyLight : Bool) :
    McprPacket where
  id := .plCbChunkData
  state := .play
  data := { (default : McprPacketData) with
    playClientbound := { (default : PlayClientbound) with
      chunkData :=
        { chunkX := x.setWidth 32
          chunkZ := z.setWidth 32
          groundUpContinuous := true
          primaryBitMask := 0xFFFF
          chunkSections := chunk.sections.toList.map (mcprChunkSectionOf host sendSkyLight)
          biomes := chunk.biomes.toList
          blockEntityCount := 0
          blockEntities := none } } }

end Encode

section Store

/-- A chunk is known by the number of the allocation that made it. -/
abbrev ChunkRef := ℕ

/-- `struct world`: the hash table from keys to chunks, and the chunks themselves. -/
structure World where
  chunks : BitVec 64 → Option ChunkRef
  heap : List Chunk

/-- `world_manager_init` -/
def worldManagerInit : World := { chunks := fun _ => none, heap := [] }

/-- The macro `get_chunk_key`, on two values of type `long`. -/
def getChunkKey (x z : BitVec 64) : BitVec 64 := (x <<< 32) ||| z

def solidSection (typeId : UInt16) : ChunkSection :=
  { blocks := Vector.replicate _ { typeId, data := 0 } }

/-- A dummy chunk: stone in the lower half, air in the upper. -/
def dummyChunk : Chunk where
  sections := Vector.ofFn fun i => solidSection (if i.val < 8 then 1 else 0)
  biomes := Vector.replicate _ 0

/-- The table is taken for a map of the values of keys; what `load_chunk` gives to it is the address
of a local variable. -/
def loadChunk (w : World) (x z : BitVec 64) : ChunkRef × World :=
  (w.heap.length,
    { chunks := Function.update w.chunks (getChunkKey x z) (some w.heap.length)
      heap := w.heap ++ [dummyChunk] })

def getChunk (w : World) (x z : BitVec 64) : ChunkRef × World :=
  match w.chunks (getChunkKey x z) with
  | some chunk => (chunk, w)
  | none => loadChunk w x z

/-- The chunks that a sequence of calls returns. -/
def getChunks : World → List (BitVec 64 × BitVec 64) → List ChunkRef × World
  | w, [] => ([], w)
  | w, (x, z) :: calls =>
    let r := getChunk w x z
    let rs := getChunks r.2 calls
    (r.1 :: rs.1, rs.2)

end Store

end Stronk.Mcpr
