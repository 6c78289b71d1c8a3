import Stronk.World

/-! Whether the store of chunks tells chunks apart: it is a map from keys, and what a key leaves
of a pair of coordinates decides the rest. -/
namespace Stronk.Mcpr

section Key

theorem longOf_getLsbD_low (n : BitVec 32) (i : ℕ) (h : i < 32) :
    (longOf n).getLsbD i = n.getLsbD i := by
  rw [longOf, BitVec.getLsbD_signExtend, if_pos h]
  simp [show i < 64 by omega]

theorem longOf_getLsbD_high (n : BitVec 32) (i : ℕ) (h : 32 ≤ i) (h' : i < 64) :
    (longOf n).getLsbD i = n.msb := by
  rw [longOf, BitVec.getLsbD_signExtend, if_neg (by omega)]
  simp [h']

theorem getChunkKey_low (x z : BitVec 32) (i : ℕ) (h : i < 32) :
    (getChunkKey (longOf x) (longOf z)).getLsbD i = z.getLsbD i := by
  rw [getChunkKey, BitVec.getLsbD_or, BitVec.getLsbD_shiftLeft, longOf_getLsbD_low z i h]
  simp [h]

/-- The upper half of a key is that of `x`, or all ones. -/
theorem getChunkKey_high (x z : BitVec 32) (i : ℕ) (h : i < 32) :
    (getChunkKey (longOf x) (longOf z)).getLsbD (32+i) = (x.getLsbD i || z.msb) := by
  have hs : 32+i < 64 := by omega
  rw [getChunkKey, BitVec.getLsbD_or, BitVec.getLsbD_shiftLeft,
    longOf_getLsbD_high z (32+i) (by omega) hs, Nat.add_sub_cancel_left, longOf_getLsbD_low x i h]
  simp [hs]

/-- A negative `z` wipes `x` out. -/
theorem getChunkKey_eq_iff (x z x' z' : BitVec 32) :
    getChunkKey (longOf x) (longOf z) = getChunkKey (longOf x') (longOf z') ↔
      z = z' ∧ (x = x' ∨ z.toInt < 0) := by
  have hneg : z.toInt < 0 ↔ z.msb = true := by
    rw [BitVec.msb_eq_toInt, decide_eq_true_iff]
  rw [hneg]
  constructor
  · intro h
    have hz : z = z' := by
      apply BitVec.eq_of_getLsbD_eq
      intro i hi
      rw [← getChunkKey_low x z i hi, h, getChunkKey_low x' z' i hi]
    refine ⟨hz, ?_⟩
    subst hz
    cases hm : z.msb with
    | true => exact .inr rfl
    | false =>
      left
      apply BitVec.eq_of_getLsbD_eq
      intro i hi
      have hb := congrArg (fun k => k.getLsbD (32+i)) h
      simpa only [getChunkKey_high x z i hi, getChunkKey_high x' z i hi, hm, Bool.or_false] using hb
  · rintro ⟨rfl, hx⟩
    apply BitVec.eq_of_getLsbD_eq
    intro i hi
    by_cases hlow : i < 32
    · rw [getChunkKey_low x z i hlow, getChunkKey_low x' z i hlow]
    · obtain ⟨j, rfl⟩ := Nat.exists_eq_add_of_le (not_lt.mp hlow)
      rw [getChunkKey_high x z j (by omega), getChunkKey_high x' z j (by omega)]
      rcases hx with rfl | hm
      · rfl
      · simp [hm]

end Key

section Map

/-- The table holds chunks that exist, each under one key. -/
structure TableSound (w : World) : Prop where
  exists_chunk : ∀ key chunk, w.chunks key = some chunk → chunk < w.heap.length
  key_unique : ∀ key key' chunk, w.chunks key = some chunk → w.chunks key' = some chunk → key = key'

theorem worldManagerInit_sound : TableSound worldManagerInit :=
  ⟨fun _ _ h => by simp [worldManagerInit] at h, fun _ _ _ h => by simp [worldManagerInit] at h⟩

theorem loadChunk_sound (w : World) (x z : BitVec 64) (h : TableSound w) :
    TableSound (loadChunk w x z).2 := by
  have hcase (key : BitVec 64) (chunk : ChunkRef) (hk : (loadChunk w x z).2.chunks key = some chunk) :
      (key = getChunkKey x z ∧ chunk = w.heap.length) ∨
        (w.chunks key = some chunk ∧ chunk < w.heap.length) := by
    by_cases he : key = getChunkKey x z
    · simp only [loadChunk, he, Function.update_self, Option.some.injEq] at hk
      exact .inl ⟨he, hk.symm⟩
    · simp only [loadChunk, Function.update_of_ne he] at hk
      exact .inr ⟨hk, h.exists_chunk key chunk hk⟩
  constructor
  · intro key chunk hk
    have hl : (loadChunk w x z).2.heap.length = w.heap.length+1 := by simp [loadChunk]
    rcases hcase key chunk hk with ⟨-, rfl⟩ | ⟨-, hlt⟩
    · rw [hl]
      exact Nat.lt_succ_self _
    · rw [hl]
      exact Nat.lt_succ_of_lt hlt
  · intro key key' chunk hk hk'
    rcases hcase key chunk hk with ⟨rfl, rfl⟩ | ⟨hw, hlt⟩ <;>
      rcases hcase key' _ hk' with ⟨rfl, hc⟩ | ⟨hw', hlt'⟩
    · rfl
    · exact absurd hlt' (lt_irrefl _)
    · exact absurd hlt (by rw [hc]; exact lt_irrefl _)
    · exact h.key_unique key key' chunk hw hw'

/-- A call answers with what the table then holds under its key, and loses nothing. -/
theorem getChunk_spec (w : World) (x z : BitVec 64) (h : TableSound w) :
    TableSound (getChunk w x z).2 ∧
      (getChunk w x z).2.chunks (getChunkKey x z) = some (getChunk w x z).1 ∧
        ∀ key chunk, w.chunks key = some chunk → (getChunk w x z).2.chunks key = some chunk := by
  unfold getChunk
  split
  · rename_i chunk hk
    exact ⟨h, hk, fun _ _ hkey => hkey⟩
  · rename_i hk
    refine ⟨loadChunk_sound w x z h, by simp [loadChunk], fun key chunk hkey => ?_⟩
    have hne : key ≠ getChunkKey x z := by
      rintro rfl
      simp [hk] at hkey
    simpa only [loadChunk, Function.update_of_ne hne] using hkey

/-- After a sequence of calls the table holds every answer under the key it was asked for. -/
theorem getChunks_spec (calls : List (BitVec 64 × BitVec 64)) (w : World) (h : TableSound w) :
    TableSound (getChunks w calls).2 ∧
      (∀ key chunk, w.chunks key = some chunk → (getChunks w calls).2.chunks key = some chunk) ∧
        (getChunks w calls).1.map some =
          calls.map fun call => (getChunks w calls).2.chunks (getChunkKey call.1 call.2) := by
  induction calls generalizing w with
  | nil => exact ⟨h, fun _ _ hk => hk, rfl⟩
  | cons call calls ih =>
    obtain ⟨x, z⟩ := call
    obtain ⟨hs, hans, hkeep⟩ := getChunk_spec w x z h
    obtain ⟨hs', hkeep', hall⟩ := ih _ hs
    refine ⟨hs', fun key chunk hk => hkeep' key chunk (hkeep key chunk hk), ?_⟩
    simp only [getChunks, List.map_cons, hall]
    rw [hkeep' _ _ hans]

/-- Two answers are the same chunk exactly if the keys are the same. -/
theorem getChunks_eq_iff (calls : List (BitVec 64 × BitVec 64)) (i j : ℕ) (hi : i < calls.length)
    (hj : j < calls.length) :
    (getChunks worldManagerInit calls).1[i]? = (getChunks worldManagerInit calls).1[j]? ↔
      getChunkKey calls[i].1 calls[i].2 = getChunkKey calls[j].1 calls[j].2 := by
  obtain ⟨hs, -, hall⟩ := getChunks_spec calls worldManagerInit worldManagerInit_sound
  have hget (k : ℕ) (hk : k < calls.length) : ∃ chunk,
      (getChunks worldManagerInit calls).1[k]? = some chunk ∧
        (getChunks worldManagerInit calls).2.chunks (getChunkKey calls[k].1 calls[k].2) =
          some chunk := by
    have hm := congrArg (fun l => l[k]?) hall
    simp only [List.getElem?_map, List.getElem?_eq_getElem hk, Option.map_some,
      Option.map_eq_some_iff] at hm
    obtain ⟨chunk, hc, he⟩ := hm
    exact ⟨chunk, hc, he.symm⟩
  obtain ⟨ci, hci, hki⟩ := hget i hi
  obtain ⟨cj, hcj, hkj⟩ := hget j hj
  rw [hci, hcj]
  constructor
  · intro h
    cases h
    exact hs.key_unique _ _ _ hki hkj
  · intro h
    rw [h, hkj] at hki
    exact hki.symm

end Map

/-- On a new world, calls with coordinates in the range of an `int32_t` return the same chunk
exactly if they ask for the same coordinates. -/
def StoreIsMap (calls : List (BitVec 32 × BitVec 32)) : Prop :=
  ∀ i j (_ : i < calls.length) (_ : j < calls.length),
    let chunks := (getChunks worldManagerInit (calls.map fun c => (longOf c.1, longOf c.2))).1
    chunks[i]? = chunks[j]? ↔ calls[i] = calls[j]

theorem same_chunk_iff (calls : List (BitVec 32 × BitVec 32)) (i j : ℕ) (hi : i < calls.length)
    (hj : j < calls.length) :
    (getChunks worldManagerInit (calls.map fun c => (longOf c.1, longOf c.2))).1[i]? =
        (getChunks worldManagerInit (calls.map fun c => (longOf c.1, longOf c.2))).1[j]? ↔
      calls[i].2 = calls[j].2 ∧ (calls[i].1 = calls[j].1 ∨ calls[i].2.toInt < 0) := by
  rw [getChunks_eq_iff _ i j (by simpa using hi) (by simpa using hj)]
  simp only [List.getElem_map]
  exact getChunkKey_eq_iff _ _ _ _

/-- The store is such a map if and only if no two calls agree in a negative `z` and differ in
`x`. -/
theorem getChunk_map_iff (calls : List (BitVec 32 × BitVec 32)) :
    StoreIsMap calls ↔ ∀ c ∈ calls, ∀ d ∈ calls, c.2 = d.2 → c.2.toInt < 0 → c.1 = d.1 := by
  constructor
  · intro h c hc d hd hz hneg
    obtain ⟨i, hi, rfl⟩ := List.mem_iff_getElem.mp hc
    obtain ⟨j, hj, rfl⟩ := List.mem_iff_getElem.mp hd
    have hsame := (h i j hi hj).mp ((same_chunk_iff calls i j hi hj).mpr ⟨hz, .inr hneg⟩)
    rw [hsame]
  · intro h i j hi hj
    dsimp only
    rw [same_chunk_iff calls i j hi hj]
    constructor
    · rintro ⟨hz, hx⟩
      have hx := hx.elim id fun hneg => h _ (List.getElem_mem hi) _ (List.getElem_mem hj) hz hneg
      exact Prod.ext hx hz
    · intro he
      rw [he]
      exact ⟨rfl, .inl rfl⟩

/-- Two chunks of the row with `z = -1` are one. -/
theorem negative_z_collides : ¬ StoreIsMap [(0#32, -1#32), (1#32, -1#32)] := by
  intro h
  have hsame := (h 0 1 (by decide) (by decide)).mp
    ((same_chunk_iff _ 0 1 (by decide) (by decide)).mpr ⟨rfl, .inr (by decide)⟩)
  exact absurd hsame (by decide)

end Stronk.Mcpr
