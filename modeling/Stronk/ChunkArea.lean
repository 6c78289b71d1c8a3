import Stronk.UpdateClient

/-! The chunks that a player is sent (`world_send_chunk_data1`): those around the chunk that its
position is taken to be in. -/
namespace Stronk.Mcpr
open EarlyExit
variable {κ ρ : Type}

section Model

/-- What the conversion of a floating-point number to an integer leaves of it. -/
def truncate (q : ℚ) : ℤ := if 0 ≤ q then ⌊q⌋ else ⌈q⌉

/-- `long base_x = p->pos.x / 16` -/
def chunkBase (pos : ℚ) : BitVec 64 := BitVec.ofInt 64 (truncate (pos/16))

/-- The columns that the loops of `world_send_chunk_data1` come to. -/
def areaPositions (posX posZ : ℚ) : List (BitVec 64 × BitVec 64) :=
  viewPositions (chunkBase posX) (chunkBase posZ)

variable (crypto : Crypto κ ρ) (host : Endian) (chunks : BitVec 64 → BitVec 64 → ChunkSend)

def worldSendChunkData1 (posX posZ : ℚ) : ConnectionProg κ ρ Unit :=
  sendChunks crypto host chunks (areaPositions posX posZ)

end Model

section Property
variable (host : Endian) (chunks : BitVec 64 → BitVec 64 → ChunkSend)

/-- Packets are written one after another, whatever becomes of each. -/
def writeEach (cipher : Cipher κ) : List (StreamWrite × McprPacket) → ConnectionProg κ ρ Unit
  | [] => pure ()
  | (write, pkt) :: rest => do
    let _ ← fwritePacket cipher write pkt
    writeEach cipher rest

/-- For every position the chunk that `get_chunk` returned for it, in a packet. -/
def chunkWrites (positions : List (BitVec 64 × BitVec 64)) : List (StreamWrite × McprPacket) :=
  positions.filterMap fun p => (chunks p.1 p.2).chunk.map fun chunk =>
    ((chunks p.1 p.2).write, chunkDataPacket host chunk p.1 p.2 true)

/-- `get_chunk` returns a chunk for every position, and `send_chunk_data` has memory to send it. -/
structure ChunksFound (positions : List (BitVec 64 × BitVec 64)) : Prop where
  chunk : ∀ p ∈ positions, (chunks p.1 p.2).chunk.isSome = true
  malloc : ∀ p ∈ positions, (chunks p.1 p.2).malloc = true

/-- The coordinates in a packet. -/
def chunkCoordinates (pkt : McprPacket) : ℤ × ℤ :=
  (pkt.data.playClientbound.chunkData.chunkX.toInt, pkt.data.playClientbound.chunkData.chunkZ.toInt)

/-- Ten chunks in every direction from the chunk that a position is in. -/
def InView (posX posZ : ℚ) (c : ℤ × ℤ) : Prop := |c.1-⌊posX/16⌋| ≤ 10 ∧ |c.2-⌊posZ/16⌋| ≤ 10

/-- The packet carries the chunk that `get_chunk` returned for the coordinates that are in it. -/
def Paired (pkt : McprPacket) : Prop :=
  let data := pkt.data.playClientbound.chunkData
  ∃ chunk, (chunks (longOf data.chunkX) (longOf data.chunkZ)).chunk = some chunk ∧
    pkt = chunkDataPacket host chunk (longOf data.chunkX) (longOf data.chunkZ) true

/-- The chunks in view are sent once each, and no others. -/
structure AreaSent (posX posZ : ℚ) (sent : List McprPacket) : Prop where
  once : ∀ c, InView posX posZ c → (sent.map chunkCoordinates).count c = 1
  only : ∀ pkt ∈ sent, InView posX posZ (chunkCoordinates pkt)
  paired : ∀ pkt ∈ sent, Paired host chunks pkt

/-- The chunks in view have coordinates in the range of an `int32_t`. -/
def InRange (pos : ℚ) : Prop := -2^31 ≤ ⌊pos/16⌋-10 ∧ ⌊pos/16⌋+10 < 2^31

/-- A coordinate is not negative, or it lies on the border of a chunk. -/
def OnGrid (pos : ℚ) : Prop := 0 ≤ pos ∨ ∃ n : ℤ, pos = 16*n

end Property

section Truncate

/-- Truncation goes up where the floor goes down. -/
theorem truncate_cases (q : ℚ) : truncate q = ⌊q⌋ ∧ (0 ≤ q ∨ ∃ n : ℤ, q = n) ∨
    truncate q = ⌊q⌋+1 ∧ ¬ (0 ≤ q ∨ ∃ n : ℤ, q = n) := by
  unfold truncate
  split_ifs with hq
  · exact .inl ⟨rfl, .inl hq⟩
  · by_cases hn : ∃ n : ℤ, q = n
    · obtain ⟨n, rfl⟩ := hn
      exact .inl ⟨by rw [Int.ceil_intCast, Int.floor_intCast], .inr ⟨n, rfl⟩⟩
    · refine .inr ⟨?_, not_or.mpr ⟨hq, hn⟩⟩
      rw [Int.ceil_eq_iff]
      have hle := Int.floor_le q
      have hlt := Int.lt_floor_add_one q
      push_cast
      refine ⟨?_, hlt.le⟩
      have hne : (⌊q⌋ : ℚ) ≠ q := fun he => hn ⟨⌊q⌋, he.symm⟩
      have := lt_of_le_of_ne hle hne
      linarith

theorem onGrid_iff (pos : ℚ) : OnGrid pos ↔ 0 ≤ pos/16 ∨ ∃ n : ℤ, pos/16 = n := by
  have hdiv (n : ℤ) : pos = 16*n ↔ pos/16 = n := by
    rw [div_eq_iff (by norm_num : (16 : ℚ) ≠ 0), mul_comm]
  have hpos : 0 ≤ pos/16 ↔ 0 ≤ pos := by
    constructor
    · intro h
      have := mul_nonneg h (by norm_num : (0 : ℚ) ≤ 16)
      rwa [div_mul_cancel₀ _ (by norm_num : (16 : ℚ) ≠ 0)] at this
    · intro h
      exact div_nonneg h (by norm_num)
  rw [OnGrid, hpos]
  simp only [hdiv]

theorem truncate_eq_floor_iff (pos : ℚ) : truncate (pos/16) = ⌊pos/16⌋ ↔ OnGrid pos := by
  rw [onGrid_iff]
  rcases truncate_cases (pos/16) with ⟨he, hg⟩ | ⟨he, hg⟩
  · exact iff_of_true he hg
  · refine iff_of_false (fun h => ?_) hg
    omega

/-- No coordinate in the loops leaves the range. -/
theorem truncate_inRange {pos : ℚ} (h : InRange pos) :
    -2^31 ≤ truncate (pos/16)-10 ∧ truncate (pos/16)+10 < 2^31 := by
  obtain ⟨hlow, hhigh⟩ := h
  rcases truncate_cases (pos/16) with ⟨he, -⟩ | ⟨he, hg⟩
  · omega
  · -- the base is one further up only below zero
    have hneg : ⌊pos/16⌋ < 0 := by
      rw [Int.floor_lt, Int.cast_zero]
      exact not_le.mp (not_or.mp hg).1
    omega

end Truncate

section Coordinates

/-- An `int32_t` in a `long`, and back. -/
theorem longOf_ofInt {v : ℤ} (hlow : -2^31 ≤ v) (hhigh : v < 2^31) :
    longOf (BitVec.ofInt 32 v) = BitVec.ofInt 64 v := by
  apply BitVec.eq_of_toInt_eq
  rw [longOf, BitVec.toInt_signExtend_of_le (by decide), BitVec.toInt_ofInt, BitVec.toInt_ofInt,
    Int.bmod_eq_of_le (by omega) (by omega), Int.bmod_eq_of_le (by omega) (by omega)]

theorem setWidth_ofInt (v : ℤ) : (BitVec.ofInt 64 v).setWidth 32 = BitVec.ofInt 32 v := by
  apply BitVec.eq_of_toNat_eq
  rw [BitVec.toNat_setWidth, BitVec.toNat_ofInt, BitVec.toNat_ofInt]
  omega

theorem position_eq (b : ℤ) (i : ℕ) :
    BitVec.ofInt 64 b+BitVec.ofNat 64 i-10 = BitVec.ofInt 64 (b+i-10) := by
  rw [sub_eq_iff_eq_add, ← BitVec.ofInt_natCast, ← BitVec.ofInt_add,
    show (10 : BitVec 64) = BitVec.ofInt 64 10 from rfl, ← BitVec.ofInt_add, sub_add_cancel]

/-- The coordinates that the two loops come to, around a base. -/
def square (base : ℤ × ℤ) : List (ℤ × ℤ) :=
  (List.range 21).flatMap fun i : ℕ => (List.range 21).map fun j : ℕ =>
    (base.1+i-10, base.2+j-10)

theorem viewPositions_eq (base : ℤ × ℤ) :
    viewPositions (BitVec.ofInt 64 base.1) (BitVec.ofInt 64 base.2) =
      (square base).map fun c => (BitVec.ofInt 64 c.1, BitVec.ofInt 64 c.2) := by
  simp only [viewPositions, square, List.map_flatMap, List.map_map, position_eq]
  rfl

theorem mem_square (base c : ℤ × ℤ) :
    c ∈ square base ↔ |c.1-base.1| ≤ 10 ∧ |c.2-base.2| ≤ 10 := by
  simp only [square, List.mem_flatMap, List.mem_map, List.mem_range, abs_le]
  constructor
  · rintro ⟨i, hi, j, hj, rfl⟩
    dsimp only
    omega
  · rintro ⟨hx, hz⟩
    refine ⟨(c.1-base.1+10).toNat, by omega, (c.2-base.2+10).toNat, by omega, ?_⟩
    ext
    · dsimp only
      omega
    · dsimp only
      omega

theorem square_nodup (base : ℤ × ℤ) : (square base).Nodup := by
  rw [square, List.nodup_flatMap]
  constructor
  · intro i _
    apply List.nodup_range.map
    intro j j' h
    have := (Prod.ext_iff.mp h).2
    dsimp only at this
    omega
  · -- different rows have different first coordinates
    apply List.nodup_range.imp
    intro i i' hne
    rw [Function.onFun, List.disjoint_left]
    intro c hc hc'
    obtain ⟨j, -, rfl⟩ := List.mem_map.mp hc
    obtain ⟨j', -, he⟩ := List.mem_map.mp hc'
    have := (Prod.ext_iff.mp he).1
    dsimp only at this
    omega

end Coordinates

section Send
variable (crypto : Crypto κ ρ) {host : Endian} {chunks : BitVec 64 → BitVec 64 → ChunkSend}
  {positions : List (BitVec 64 × BitVec 64)}

theorem chunkWrites_cons {p : BitVec 64 × BitVec 64} {chunk : Chunk}
    (h : (chunks p.1 p.2).chunk = some chunk) : chunkWrites host chunks (p :: positions) =
      ((chunks p.1 p.2).write, chunkDataPacket host chunk p.1 p.2 true) ::
        chunkWrites host chunks positions := by
  rw [chunkWrites, List.filterMap_cons, h]
  rfl

/-- Where nothing is missing the loops come to nothing but these writes. -/
theorem sendChunks_eq (h : ChunksFound chunks positions) :
    sendChunks crypto host chunks positions =
      writeEach crypto.cipher (chunkWrites host chunks positions) := by
  induction positions with
  | nil => rfl
  | cons p positions ih =>
    obtain ⟨x, z⟩ := p
    obtain ⟨chunk, hchunk⟩ := Option.isSome_iff_exists.mp (h.chunk _ List.mem_cons_self)
    have hmalloc := h.malloc _ List.mem_cons_self
    have hrest := ih ⟨fun p hp => h.chunk p (List.mem_cons_of_mem _ hp),
      fun p hp => h.malloc p (List.mem_cons_of_mem _ hp)⟩
    rw [chunkWrites_cons hchunk, writeEach, ← hrest]
    dsimp only at hchunk hmalloc
    simp only [sendChunks, sendChunkData, hchunk, hmalloc, Bool.true_eq_false, if_false]

/-- The coordinates are cut down to an `int32_t`, which leaves them what they are. -/
theorem chunkDataPacket_coordinates (host : Endian) (chunk : Chunk) {c : ℤ × ℤ}
    (hx : -2^31 ≤ c.1 ∧ c.1 < 2^31) (hz : -2^31 ≤ c.2 ∧ c.2 < 2^31) :
    chunkCoordinates (chunkDataPacket host chunk (BitVec.ofInt 64 c.1) (BitVec.ofInt 64 c.2) true) =
      c := by
  rw [chunkCoordinates, chunkDataPacket, setWidth_ofInt, setWidth_ofInt, BitVec.toInt_ofInt,
    BitVec.toInt_ofInt, Int.bmod_eq_of_le (by omega) (by omega),
    Int.bmod_eq_of_le (by omega) (by omega)]

theorem chunkDataPacket_paired {chunk : Chunk} {c : ℤ × ℤ}
    (hx : -2^31 ≤ c.1 ∧ c.1 < 2^31) (hz : -2^31 ≤ c.2 ∧ c.2 < 2^31)
    (h : (chunks (BitVec.ofInt 64 c.1) (BitVec.ofInt 64 c.2)).chunk = some chunk) :
    Paired host chunks (chunkDataPacket host chunk (BitVec.ofInt 64 c.1) (BitVec.ofInt 64 c.2)
      true) := by
  have hX : (chunkDataPacket host chunk (BitVec.ofInt 64 c.1) (BitVec.ofInt 64 c.2)
      true).data.playClientbound.chunkData.chunkX = BitVec.ofInt 32 c.1 := setWidth_ofInt c.1
  have hZ : (chunkDataPacket host chunk (BitVec.ofInt 64 c.1) (BitVec.ofInt 64 c.2)
      true).data.playClientbound.chunkData.chunkZ = BitVec.ofInt 32 c.2 := setWidth_ofInt c.2
  rw [Paired, hX, hZ, longOf_ofInt hx.1 hx.2, longOf_ofInt hz.1 hz.2]
  exact ⟨chunk, h, rfl⟩

/-- What is written for a list of coordinates, each a packet with them in it. -/
theorem chunkWrites_spec (cs : List (ℤ × ℤ))
    (hrange : ∀ c ∈ cs, (-2^31 ≤ c.1 ∧ c.1 < 2^31) ∧ (-2^31 ≤ c.2 ∧ c.2 < 2^31))
    (hfound : ∀ c ∈ cs, (chunks (BitVec.ofInt 64 c.1) (BitVec.ofInt 64 c.2)).chunk.isSome = true) :
    (((chunkWrites host chunks (cs.map fun c => (BitVec.ofInt 64 c.1, BitVec.ofInt 64 c.2))).map
      Prod.snd).map chunkCoordinates = cs) ∧
    ∀ pkt ∈ (chunkWrites host chunks (cs.map fun c => (BitVec.ofInt 64 c.1, BitVec.ofInt 64 c.2))).map
      Prod.snd, Paired host chunks pkt := by
  induction cs with
  | nil => exact ⟨rfl, fun _ h => absurd h List.not_mem_nil⟩
  | cons c cs ih =>
    obtain ⟨hcoords, hpaired⟩ := ih (fun c hc => hrange c (List.mem_cons_of_mem _ hc))
      fun c hc => hfound c (List.mem_cons_of_mem _ hc)
    obtain ⟨hx, hz⟩ := hrange c List.mem_cons_self
    obtain ⟨chunk, hchunk⟩ := Option.isSome_iff_exists.mp (hfound c List.mem_cons_self)
    rw [List.map_cons, chunkWrites_cons hchunk, List.map_cons, List.map_cons, hcoords,
      chunkDataPacket_coordinates host chunk hx hz]
    constructor
    · rfl
    · intro pkt hpkt
      rcases List.mem_cons.mp hpkt with rfl | hpkt
      · exact chunkDataPacket_paired hx hz hchunk
      · exact hpaired pkt hpkt

end Send

section Area
variable (crypto : Crypto κ ρ) (host : Endian) {chunks : BitVec 64 → BitVec 64 → ChunkSend}
  {posX posZ : ℚ}

/-- What is written is the square around the base. -/
theorem areaWrites_spec (hx : InRange posX) (hz : InRange posZ)
    (hfound : ChunksFound chunks (areaPositions posX posZ)) :
    ((chunkWrites host chunks (areaPositions posX posZ)).map Prod.snd).map chunkCoordinates =
      square (truncate (posX/16), truncate (posZ/16)) ∧
    ∀ pkt ∈ (chunkWrites host chunks (areaPositions posX posZ)).map Prod.snd,
      Paired host chunks pkt := by
  set base : ℤ × ℤ := (truncate (posX/16), truncate (posZ/16)) with hbase
  have hsquare : areaPositions posX posZ =
      (square base).map fun c => (BitVec.ofInt 64 c.1, BitVec.ofInt 64 c.2) := viewPositions_eq base
  have hx' := truncate_inRange hx
  have hz' := truncate_inRange hz
  rw [hsquare]
  apply chunkWrites_spec
  · intro c hc
    rw [mem_square, abs_le, abs_le, hbase] at hc
    dsimp only at hc
    omega
  · intro c hc
    apply hfound.chunk (BitVec.ofInt 64 c.1, BitVec.ofInt 64 c.2)
    rw [hsquare]
    exact List.mem_map_of_mem hc

/-- Where nothing is missing, `world_send_chunk_data1` writes one packet after another, and they are
the area around the player if and only if neither coordinate is negative inside a chunk. -/
theorem area_sent_iff (hx : InRange posX) (hz : InRange posZ)
    (hfound : ChunksFound chunks (areaPositions posX posZ)) :
    worldSendChunkData1 crypto host chunks posX posZ =
        writeEach crypto.cipher (chunkWrites host chunks (areaPositions posX posZ)) ∧
      (AreaSent host chunks posX posZ
          ((chunkWrites host chunks (areaPositions posX posZ)).map Prod.snd) ↔
        OnGrid posX ∧ OnGrid posZ) := by
  refine ⟨sendChunks_eq crypto hfound, ?_⟩
  obtain ⟨hcoords, hpaired⟩ := areaWrites_spec host hx hz hfound
  rw [← truncate_eq_floor_iff, ← truncate_eq_floor_iff]
  set sent := (chunkWrites host chunks (areaPositions posX posZ)).map Prod.snd
  constructor
  · intro harea
    -- the corners of what was sent are in view, and so are those of the view among it
    have honly (c : ℤ × ℤ) (hc : c ∈ square (truncate (posX/16), truncate (posZ/16))) :
        InView posX posZ c := by
      rw [← hcoords] at hc
      obtain ⟨pkt, hpkt, rfl⟩ := List.mem_map.mp hc
      exact harea.only pkt hpkt
    have hlow := honly (truncate (posX/16)-10, truncate (posZ/16)-10)
      ((mem_square _ _).mpr (by constructor <;> simp))
    have hhigh := honly (truncate (posX/16)+10, truncate (posZ/16)+10)
      ((mem_square _ _).mpr (by constructor <;> simp))
    rw [InView, abs_le, abs_le] at hlow hhigh
    dsimp only at hlow hhigh
    omega
  · rintro ⟨heX, heZ⟩
    have hview (c : ℤ × ℤ) : c ∈ sent.map chunkCoordinates ↔ InView posX posZ c := by
      rw [hcoords, mem_square, heX, heZ]
      exact Iff.rfl
    refine ⟨fun c hc => ?_, fun pkt hpkt => ?_, hpaired⟩
    · apply List.count_eq_one_of_mem
      · rw [hcoords]
        exact square_nodup _
      · exact (hview c).mpr hc
    · exact (hview _).mp (List.mem_map_of_mem hpkt)

end Area

section Example

/-- A world of dummy chunks, and memory to send them. -/
def dummyChunks (_ _ : BitVec 64) : ChunkSend :=
  { chunk := some dummyChunk, malloc := true, write := default }

theorem dummyChunks_found (positions : List (BitVec 64 × BitVec 64)) :
    ChunksFound dummyChunks positions := ⟨fun _ _ => rfl, fun _ _ => rfl⟩

/-- A player whose position is the origin. -/
theorem origin_area_sent : ∃ sent, worldSendChunkData1 cryptoExample .little dummyChunks 0 0 =
    writeEach cryptoExample.cipher sent ∧ sent.length = 441 ∧
      AreaSent .little dummyChunks 0 0 (sent.map Prod.snd) := by
  have hrange : InRange 0 := by norm_num [InRange]
  have hfound := dummyChunks_found (areaPositions 0 0)
  have hlength := congrArg List.length (areaWrites_spec .little hrange hrange hfound).1
  rw [List.length_map, List.length_map] at hlength
  obtain ⟨hrun, harea⟩ := area_sent_iff cryptoExample .little hrange hrange hfound
  exact ⟨_, hrun, hlength.trans (by simp [square]), harea.mpr ⟨.inl le_rfl, .inl le_rfl⟩⟩

/-- A player one block west of the origin is in the chunk with `x = -1`, but the area around the
chunk with `x = 0` is sent. -/
theorem west_of_origin_not_sent : InRange (-1) ∧ InRange 0 ∧
    ∃ sent, worldSendChunkData1 cryptoExample .little dummyChunks (-1) 0 =
      writeEach cryptoExample.cipher sent ∧
        ¬ AreaSent .little dummyChunks (-1) 0 (sent.map Prod.snd) := by
  have hwest : InRange (-1) := by norm_num [InRange]
  have hzero : InRange 0 := by norm_num [InRange]
  have hfound := dummyChunks_found (areaPositions (-1) 0)
  refine ⟨hwest, hzero, _, sendChunks_eq cryptoExample hfound, fun harea => ?_⟩
  obtain ⟨hcoords, -⟩ := areaWrites_spec .little hwest hzero hfound
  -- the easternmost row is out of view
  have hmem : ((10, 0) : ℤ × ℤ) ∈ ((chunkWrites .little dummyChunks
      (areaPositions (-1) 0)).map Prod.snd).map chunkCoordinates := by
    rw [hcoords, mem_square]
    norm_num [truncate]
  obtain ⟨pkt, hpkt, he⟩ := List.mem_map.mp hmem
  have hview := harea.only pkt hpkt
  rw [he] at hview
  norm_num [InView] at hview

end Example

end Stronk.Mcpr
