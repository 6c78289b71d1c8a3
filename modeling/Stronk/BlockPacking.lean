import Stronk.ByteOrder
import Stronk.WordStream
import Stronk.World

/-! The blocks of a section on their way into a packet (`encode_chunk_section_blocks` of
`world/world.c`): entries of 13 bits in words of 64. -/
namespace Stronk.Mcpr
open ByteMemory ByteParser WordStream

section Packing

/-- What the entry of a block is to be. -/
def Block.entry (block : Block) : ℕ := block.typeId.toNat <<< 4 ||| block.data.toNat

theorem hton64_bytes (host : Endian) (word : UInt64) :
    hostBytes host 8 (hton64 host word).toNat = (leBytes 8 word.toNat).reverse := by
  apply hostBytes_swapped
  · rintro rfl
    have h := leValue_lt (leBytes 8 word.toNat).reverse
    rw [List.length_reverse, leBytes_length] at h
    rw [hton64, UInt64.toNat_ofNat', Nat.mod_eq_of_lt (by simpa using h)]
  · rintro rfl
    rfl

theorem blockData_toNat (block : Block) : (blockData block).toNat = block.entry := by
  have ht := block.typeId.toNat_lt
  rw [blockData, Block.entry, UInt64.toNat_or, UInt64.toNat_shiftLeft]
  simp only [UInt16.toNat_toUInt64, UInt8.toNat_toUInt64, UInt64.toNat_ofNat, Nat.reducePow,
    Nat.reduceMod, Nat.shiftLeft_eq]
  rw [Nat.mod_eq_of_lt (by omega)]

theorem Block.entry_lt (block : Block) (ht : block.typeId.toNat < 512) (hd : block.data.toNat < 16) :
    block.entry < 2^13 := by
  have h := Nat.two_pow_add_eq_or_of_lt (i := 4) hd block.typeId.toNat
  rw [Block.entry, Nat.shiftLeft_eq, Nat.mul_comm, ← h]
  omega

/-- Or-ing a value in above the bits that are used adds it, cut off at the end of the word. -/
theorem or_shiftLeft_toNat (tmp current : UInt64) (used : ℕ) (hu : used < 64)
    (ht : tmp.toNat < 2^used) :
    (tmp ||| (current <<< UInt64.ofNat used)).toNat =
      tmp.toNat+2^used*(current.toNat%2^(64-used)) := by
  have hs : (current <<< UInt64.ofNat used).toNat = 2^used*(current.toNat%2^(64-used)) := by
    rw [UInt64.toNat_shiftLeft, UInt64.toNat_ofNat', Nat.mod_eq_of_lt (by omega : used < 2^64),
      Nat.mod_eq_of_lt hu, Nat.shiftLeft_eq, Nat.mul_comm]
    have h64 : 2^64 = 2^used*2^(64-used) := by
      rw [← pow_add, Nat.add_sub_of_le (le_of_lt hu)]
    rw [h64, Nat.mul_mod_mul_left]
  rw [UInt64.toNat_or, hs, Nat.lor_comm, ← Nat.two_pow_add_eq_or_of_lt ht, Nat.add_comm]

/-- A value of 13 bits that fits above the bits that are used. -/
theorem or_shiftLeft_small (tmp current : UInt64) (used : ℕ) (hu : used+13 < 64)
    (ht : tmp.toNat < 2^used) (hc : current.toNat < 2^13) :
    (tmp ||| (current <<< UInt64.ofNat used)).toNat = tmp.toNat+2^used*current.toNat ∧
      (tmp ||| (current <<< UInt64.ofNat used)).toNat < 2^(used+13) := by
  have hword := or_shiftLeft_toNat tmp current used (by omega) ht
  have hno : current.toNat%2^(64-used) = current.toNat := by
    apply Nat.mod_eq_of_lt
    exact lt_of_lt_of_le hc (Nat.pow_le_pow_right (by decide) (by omega))
  rw [hno] at hword
  refine ⟨hword, ?_⟩
  have hle := Nat.mul_le_mul_left (2^used) (Nat.le_of_lt_succ hc)
  have hpos := Nat.two_pow_pos used
  rw [hword, pow_add]
  omega

/-- The word takes the low bits of a value, and its high bits are left over. -/
theorem or_shiftLeft_split (tmp current : UInt64) (used : ℕ) (hu : used < 64)
    (ht : tmp.toNat < 2^used) : tmp.toNat+2^used*current.toNat =
      (tmp ||| (current <<< UInt64.ofNat used)).toNat+2^64*(current.toNat/2^(64-used)) := by
  have h64 : 2^64 = 2^used*2^(64-used) := by
    rw [← pow_add, Nat.add_sub_of_le (le_of_lt hu)]
  calc tmp.toNat+2^used*current.toNat
      = tmp.toNat+2^used*(current.toNat%2^(64-used)+2^(64-used)*(current.toNat/2^(64-used))) := by
        rw [Nat.mod_add_div]
    _ = tmp.toNat+2^used*(current.toNat%2^(64-used))+2^64*(current.toNat/2^(64-used)) := by
        rw [h64]
        ring
    _ = _ := by rw [or_shiftLeft_toNat tmp current used hu ht]

theorem shiftRight_ofNat_toNat (current : UInt64) (n : ℕ) (hn : n < 64) :
    (current >>> UInt64.ofNat n).toNat = current.toNat/2^n := by
  rw [UInt64.toNat_shiftRight, UInt64.toNat_ofNat', Nat.mod_eq_of_lt (by omega : n < 2^64),
    Nat.mod_eq_of_lt hn, Nat.shiftRight_eq_div_pow]

/-- From `used` bits in `tmp` on, the words are the blocks strung together: read as one number
each, least significant end first, they are the same number. -/
structure PackedInto (host : Endian) (used : ℕ) (tmp : UInt64) (blocks : List Block)
    (words : List UInt64) : Prop where
  loop : encodeBlocksLoop host used tmp blocks = words.map (hton64 host)
  length : 64*words.length = used+13*blocks.length
  value : Nat.ofDigits (2^64) (words.map UInt64.toNat) =
    tmp.toNat+2^used*Nat.ofDigits (2^13) (blocks.map Block.entry)

section Turn
variable {host : Endian} {used : ℕ} {tmp : UInt64} {block : Block} {blocks : List Block}
  {words : List UInt64}

theorem ofDigits_block (block : Block) (blocks : List Block) :
    Nat.ofDigits (2^13) ((block :: blocks).map Block.entry) =
      (blockData block).toNat+2^13*Nat.ofDigits (2^13) (blocks.map Block.entry) := by
  rw [List.map_cons, Nat.ofDigits_cons, blockData_toNat]

/-- The block fits into the word, and it is not the last one. -/
theorem PackedInto.fits (hsmall : used+13 < 64) (htmp : tmp.toNat < 2^used)
    (hblock : (blockData block).toNat < 2^13) (hne : blocks ≠ [])
    (h : PackedInto host (used+13) (tmp ||| (blockData block <<< UInt64.ofNat used)) blocks words) :
    PackedInto host used tmp (block :: blocks) words := by
  obtain ⟨hword, -⟩ := or_shiftLeft_small tmp (blockData block) used hsmall htmp hblock
  refine ⟨?_, ?_, ?_⟩
  · have hnot : ¬ (used+13 ≥ 64 ∨ blocks = []) := by
      rintro (hge | he)
      · exact absurd hge (not_le.mpr hsmall)
      · exact hne he
    rw [encodeBlocksLoop, if_neg hnot, h.loop]
  · rw [h.length, List.length_cons]
    ring
  · rw [h.value, hword, ofDigits_block, pow_add]
    ring

/-- The word is full before the block ends, and its other bits start the next one. -/
theorem PackedInto.splits (hover : used+13 > 64) (hused : used < 64) (htmp : tmp.toNat < 2^used)
    (h : PackedInto host (used+13-64) (blockData block >>> UInt64.ofNat (64-used)) blocks words) :
    PackedInto host used tmp (block :: blocks)
      ((tmp ||| (blockData block <<< UInt64.ofNat used)) :: words) := by
  have hsplit := or_shiftLeft_split tmp (blockData block) used hused htmp
  have hleft := shiftRight_ofNat_toNat (blockData block) (64-used) (by omega)
  refine ⟨?_, ?_, ?_⟩
  · have hshift : 13-(used+13-64) = 64-used := by omega
    rw [encodeBlocksLoop, if_pos (.inl (by omega)), if_pos hover, hshift, h.loop, List.map_cons]
  · have hlen := h.length
    rw [List.length_cons, List.length_cons]
    omega
  · have hpow : 2^64*2^(used+13-64) = 2^used*2^13 := by
      rw [← pow_add, ← pow_add]
      congr 1
      omega
    calc Nat.ofDigits (2^64) (List.map UInt64.toNat (_ :: words))
        = (tmp ||| (blockData block <<< UInt64.ofNat used)).toNat+
            2^64*((blockData block).toNat/2^(64-used))+
              2^64*2^(used+13-64)*Nat.ofDigits (2^13) (blocks.map Block.entry) := by
          rw [List.map_cons, Nat.ofDigits_cons, h.value, hleft]
          ring
      _ = _ := by
          rw [← hsplit, hpow, ofDigits_block]
          ring

/-- The block ends with the word. -/
theorem PackedInto.ends (htmp : tmp.toNat < 2^51) (hblock : (blockData block).toNat < 2^13)
    (h : PackedInto host 0 0 blocks words) : PackedInto host 51 tmp (block :: blocks)
      ((tmp ||| (blockData block <<< UInt64.ofNat 51)) :: words) := by
  have hsplit := or_shiftLeft_split tmp (blockData block) 51 (by decide) htmp
  have hdiv : (blockData block).toNat/2^(64-51) = 0 := Nat.div_eq_of_lt hblock
  refine ⟨?_, ?_, ?_⟩
  · rw [encodeBlocksLoop, if_pos (.inl (by decide)), if_neg (by decide), h.loop, List.map_cons]
  · have hlen := h.length
    rw [List.length_cons, List.length_cons]
    omega
  · rw [hdiv] at hsplit
    rw [List.map_cons, Nat.ofDigits_cons, h.value, ofDigits_block]
    simp only [UInt64.toNat_zero, pow_zero]
    linarith

end Turn

/-- By induction on the blocks: the bits in use are less than a word, and they end with one. -/
theorem encodeBlocksLoop_value (host : Endian) (blocks : List Block)
    (hfit : ∀ b ∈ blocks, b.entry < 2^13) (used : ℕ) (tmp : UInt64) (hused : used < 64)
    (htmp : tmp.toNat < 2^used) (hend : (used+13*blocks.length)%64 = 0) :
    ∃ words, PackedInto host used tmp blocks words := by
  induction blocks generalizing used tmp with
  | nil =>
    have h0 : used = 0 := by
      simp only [List.length_nil] at hend
      omega
    subst h0
    have ht : tmp.toNat = 0 := by simpa using htmp
    exact ⟨[], rfl, rfl, by simp [ht]⟩
  | cons block blocks ih =>
    have hlt : (blockData block).toNat < 2^13 := by
      rw [blockData_toNat]
      exact hfit block (by simp)
    have hrest := fun b hb => hfit b (List.mem_cons_of_mem _ hb)
    rw [List.length_cons] at hend
    -- the block stays below the end of the word, goes over it or ends with it
    by_cases hsmall : used+13 < 64
    · have hne : blocks ≠ [] := by
        rintro rfl
        simp only [List.length_nil] at hend
        omega
      obtain ⟨-, hnext⟩ := or_shiftLeft_small tmp (blockData block) used hsmall htmp hlt
      obtain ⟨words, h⟩ := ih hrest (used+13) _ hsmall hnext (by
        rw [← hend]; congr 1; ring)
      exact ⟨words, h.fits hsmall htmp hlt hne⟩
    · by_cases hover : used+13 > 64
      · have hnext : (blockData block >>> UInt64.ofNat (64-used)).toNat < 2^(used+13-64) := by
          rw [shiftRight_ofNat_toNat (blockData block) (64-used) (by omega)]
          apply Nat.div_lt_of_lt_mul
          rw [← pow_add]
          exact lt_of_lt_of_le hlt (Nat.pow_le_pow_right (by decide) (by omega))
        obtain ⟨words, h⟩ := ih hrest (used+13-64) _ (by omega) hnext (by omega)
        exact ⟨_, h.splits hover hused htmp⟩
      · have hu : used = 51 := by omega
        subst hu
        obtain ⟨words, h⟩ := ih hrest 0 0 (by decide) (by decide) (by omega)
        exact ⟨_, h.ends htmp hlt⟩

/-- A section comes to 832 words, which are its entries strung together. -/
theorem encodeChunkSectionBlocks_words (host : Endian) (s : ChunkSection)
    (hfit : ∀ b ∈ s.blocks.toList, b.entry < 2^13) :
    ∃ words : List UInt64, words.length = 832 ∧
      encodeChunkSectionBlocks host s =
        words.flatMap (fun word => (leBytes 8 word.toNat).reverse) ∧
        Nat.ofDigits (2^64) (words.map UInt64.toNat) =
          Nat.ofDigits (2^13) (s.blocks.toList.map Block.entry) := by
  have hlen : s.blocks.toList.length = 4096 := by rw [Vector.length_toList]; rfl
  obtain ⟨words, hpacked⟩ := encodeBlocksLoop_value host s.blocks.toList hfit 0 0
    (by decide) (by decide) (by rw [hlen])
  have hl := hpacked.length
  refine ⟨words, by omega, ?_, ?_⟩
  · rw [encodeChunkSectionBlocks, hpacked.loop, List.flatMap_map]
    congr 1
    funext word
    exact hton64_bytes host word
  · rw [hpacked.value, UInt64.toNat_zero, pow_zero, Nat.one_mul, Nat.zero_add]

end Packing

section Bits

/-- Word `k` of what is stored, read with its most significant byte first. -/
def wordAt (out : List UInt8) (k : ℕ) : ℕ := beNat ((out.drop (8*k)).take 8)

theorem wordAt_words (words : List UInt64) (k : ℕ) (hk : k < words.length) :
    wordAt (words.flatMap fun word => (leBytes 8 word.toNat).reverse) k = words[k].toNat := by
  have hblock := flatMap_block (fun word : UInt64 => (leBytes 8 word.toNat).reverse) 8
    (fun word => by rw [List.length_reverse, leBytes_length]) words k hk
  rw [wordAt, hblock, beNat_reverse, leValue_leBytes 8 _ words[k].toNat_lt]

theorem encodeChunkSectionBlocks_length (host : Endian) (s : ChunkSection)
    (hfit : ∀ b ∈ s.blocks.toList, b.entry < 2^13) :
    (encodeChunkSectionBlocks host s).length = 8*832 := by
  obtain ⟨words, hl, hbytes, -⟩ := encodeChunkSectionBlocks_words host s hfit
  rw [hbytes, List.length_flatMap, List.map_congr_left (g := fun _ => 8)
    (fun word _ => by rw [List.length_reverse, leBytes_length]), List.map_const', List.sum_replicate,
    hl]
  decide

theorem block_bits_packed (host : Endian) (s : ChunkSection)
    (hfit : ∀ b ∈ s.blocks.toList, b.typeId.toNat < 512 ∧ b.data.toNat < 16) :
    (encodeChunkSectionBlocks host s).length = 8*832 ∧
      ∀ i (_ : i < blocksPerChunkSection) j, j < 13 →
        (wordAt (encodeChunkSectionBlocks host s) ((13*i+j)/64)).testBit ((13*i+j)%64) =
          (s.blocks[i].typeId.toNat <<< 4 ||| s.blocks[i].data.toNat).testBit j := by
  have hentry : ∀ b ∈ s.blocks.toList, b.entry < 2^13 :=
    fun b hb => b.entry_lt (hfit b hb).1 (hfit b hb).2
  refine ⟨encodeChunkSectionBlocks_length host s hentry, ?_⟩
  intro i hi j hj
  have hi' : i < 4096 := hi
  obtain ⟨words, hl, hbytes, hvalue⟩ := encodeChunkSectionBlocks_words host s hentry
  have hcount : (s.blocks.toList.map Block.entry).length = 4096 := by
    rw [List.length_map, Vector.length_toList]
    rfl
  have hword : (13*i+j)/64 < words.length := by omega
  have hwords : ∀ d ∈ words.map UInt64.toNat, d < 2^64 := by
    intro d hd
    obtain ⟨word, -, rfl⟩ := List.mem_map.mp hd
    exact word.toNat_lt
  have hentries : ∀ d ∈ s.blocks.toList.map Block.entry, d < 2^13 := by
    intro d hd
    obtain ⟨b, hb, rfl⟩ := List.mem_map.mp hd
    exact hentry b hb
  have hsame := streamBit_repacked (by decide) (by decide) hwords hentries hvalue (13*i+j)
    (by rwa [List.length_map]) (by omega)
  calc (wordAt (encodeChunkSectionBlocks host s) ((13*i+j)/64)).testBit ((13*i+j)%64)
      = streamBit 64 (words.map UInt64.toNat) (13*i+j) := by
        rw [hbytes, wordAt_words words _ hword, streamBit, List.getD_eq_getElem _ _
          (by rwa [List.length_map]), List.getElem_map]
    _ = streamBit 13 (s.blocks.toList.map Block.entry) (13*i+j) := hsame
    _ = s.blocks[i].entry.testBit j := by
        rw [streamBit_mul_add _ hj, List.getD_eq_getElem _ _ (by omega), List.getElem_map,
          Vector.getElem_toList]
        rfl

/-- The last block of a section of stone ends with the last word. -/
theorem stone_section_packed :
    (encodeChunkSectionBlocks .little (solidSection 1)).length = 8*832 ∧
      (wordAt (encodeChunkSectionBlocks .little (solidSection 1)) 831).testBit 55 = true := by
  have hstone : ∀ b ∈ (solidSection 1).blocks.toList, b.typeId.toNat < 512 ∧ b.data.toNat < 16 := by
    intro b hb
    rw [solidSection, Vector.toList_replicate] at hb
    obtain rfl := List.eq_of_mem_replicate hb
    exact ⟨by decide, by decide⟩
  obtain ⟨hlen, hbits⟩ := block_bits_packed .little (solidSection 1) hstone
  refine ⟨hlen, ?_⟩
  have hlt : 4095 < blocksPerChunkSection := by
    unfold blocksPerChunkSection
    omega
  rw [hbits 4095 hlt 4 (by omega)]
  simp only [solidSection, Vector.getElem_replicate]
  decide

end Bits

end Stronk.Mcpr
