import Stronk.FrameSync

/-! What a stream of frames means: it is cut at its length prefixes, and every frame is decoded
by itself. -/
namespace Stronk.Mcpr
open ByteMemory

/-- The length prefix at the front of a stream: how wide it is and what it announces. -/
def headFrame (bytes : List UInt8) : Option (ℕ × ℕ) :=
  match mcprDecodeVarint (ofList bytes) (sizeOfNat (min bytes.length mcprVarintSizeMax)) with
  | .error _ => none
  | .ok (v, headerSize) => if 0 < v.toInt then some (headerSize, v.toNat) else none

def frameBytes (bytes : List UInt8) (headerSize pktlen : ℕ) : List UInt8 :=
  (bytes.drop headerSize).take pktlen

section Head
variable {bytes : List UInt8} {headerSize pktlen : ℕ}

theorem headFrame_eq_some_iff : headFrame bytes = some (headerSize, pktlen) ↔
    ∃ v, mcprDecodeVarint (ofList bytes) (sizeOfNat (min bytes.length mcprVarintSizeMax)) =
      .ok (v, headerSize) ∧ 0 < v.toInt ∧ v.toNat = pktlen := by
  simp only [headFrame]
  rcases mcprDecodeVarint (ofList bytes) _ with message | ⟨v, k⟩
  · simp
  · by_cases hv : 0 < v.toInt
    · simp only [hv, ↓reduceIte, Option.some.injEq, Prod.mk.injEq, Except.ok.injEq]
      constructor
      · rintro ⟨rfl, rfl⟩
        exact ⟨v, ⟨rfl, rfl⟩, hv, rfl⟩
      · rintro ⟨w, ⟨rfl, rfl⟩, -, rfl⟩
        exact ⟨rfl, rfl⟩
    · simp only [hv, ↓reduceIte, reduceCtorEq, Except.ok.injEq, Prod.mk.injEq, false_iff]
      rintro ⟨w, ⟨rfl, -⟩, hw, -⟩
      exact hv hw

theorem sizeOfNat_min_toNat (n : ℕ) :
    (sizeOfNat (min n mcprVarintSizeMax)).toNat = min n mcprVarintSizeMax := by
  rw [sizeOfNat_toNat]
  simp only [mcprVarintSizeMax]
  omega

theorem headFrame_bounds (h : headFrame bytes = some (headerSize, pktlen)) :
    1 ≤ headerSize ∧ headerSize ≤ bytes.length ∧ 0 < pktlen ∧ pktlen < 2^32 := by
  obtain ⟨v, hd, hv, rfl⟩ := headFrame_eq_some_iff.mp h
  have hk := mcprDecodeVarint_size _ _ _ _ hd
  rw [sizeOfNat_min_toNat] at hk
  refine ⟨hk.1, by omega, ?_, v.isLt⟩
  rw [BitVec.toInt_eq_toNat_cond] at hv
  split_ifs at hv <;> omega

/-- More bytes do not change a length prefix that is there. -/
theorem headFrame_append (more : List UInt8) (h : headFrame bytes = some (headerSize, pktlen)) :
    headFrame (bytes ++ more) = some (headerSize, pktlen) := by
  obtain ⟨v, hd, hv⟩ := headFrame_eq_some_iff.mp h
  refine headFrame_eq_some_iff.mpr ⟨v, ?_, hv⟩
  have hk := (mcprDecodeVarint_size _ _ _ _ hd).2.2
  rw [mcprDecodeVarint_agree _ (ofList (bytes ++ more)) _ ?_] at hd
  · refine mcprDecodeVarint_limit _ _ _ v headerSize ?_ hd
    rw [sizeOfNat_min_toNat] at hk ⊢
    simp only [List.length_append]
    omega
  · rw [sizeOfNat_min_toNat]
    exact agreeOn_mono (agreeOn_symm (ofList_append bytes more)) (min_le_left _ _)

/-- The head of a buffer is the head of the bytes in it. -/
theorem headFrame_buffer (buf : NinioBuffer) :
    HeadFrame buf headerSize pktlen ↔ headFrame buf.bytes = some (headerSize, pktlen) := by
  have hlen := buf.bytes_length
  have hagree : AgreeOn buf.size.toNat (ofList buf.bytes) buf.content := ofList_read _ _
  rw [headFrame_eq_some_iff, HeadFrame]
  refine exists_congr fun v => and_congr_left fun _ => ?_
  have hmin : (sizeOfNat (min buf.bytes.length mcprVarintSizeMax)).toNat =
      min buf.size.toNat mcprVarintSizeMax := by
    rw [sizeOfNat_min_toNat, hlen]
  rw [mcprDecodeVarint_agree (ofList buf.bytes) buf.content _
    (agreeOn_mono hagree (by rw [hmin]; exact min_le_left _ _))]
  constructor
  · intro hd
    have hk := mcprDecodeVarint_size _ _ _ _ hd
    exact mcprDecodeVarint_limit _ _ _ v headerSize (by omega) hd
  · intro hd
    have hk := mcprDecodeVarint_size _ _ _ _ hd
    exact mcprDecodeVarint_limit _ _ _ v headerSize (by omega) hd

theorem headFrame_nil : headFrame [] = none := by
  rcases h : headFrame [] with _ | ⟨headerSize, pktlen⟩
  · rfl
  · have := headFrame_bounds h
    simp only [List.length_nil] at this
    omega

end Head

section Split
variable (host : Endian) (state : McprState)

/-- A frame, decoded by itself. -/
def decodeAlone (out : McprPacket) (frame : List UInt8) : DecodeResult :=
  mcprDecodePacket (spare host) out (ofList frame) state (UInt64.ofNat frame.length)

/-- Every packet takes two bytes of the stream at least, so the length of the stream is enough
fuel. -/
def splitLoop : ℕ → McprPacket → List UInt8 → List (McprPacket × ℕ)
  | 0, _, _ => []
  | fuel+1, out, bytes =>
    match headFrame bytes with
    | none => []
    | some (headerSize, pktlen) =>
      if bytes.length < headerSize+pktlen then []
      else
        let r := decodeAlone host state out (frameBytes bytes headerSize pktlen)
        match r.exit with
        | .trap => []
        | .ret n =>
          if n = -1 then []
          else (r.out, headerSize+pktlen) :: splitLoop fuel r.out (bytes.drop (headerSize+pktlen))

/-- The packets of a stream, each with the bytes it takes, up to the first frame that is not
complete or is rejected. -/
def splitFrames (out : McprPacket) (bytes : List UInt8) : List (McprPacket × ℕ) :=
  splitLoop host state bytes.length out bytes

theorem splitLoop_fuel (fuel fuel' : ℕ) (out : McprPacket) (bytes : List UInt8)
    (h : bytes.length ≤ fuel) (h' : bytes.length ≤ fuel') :
    splitLoop host state fuel out bytes = splitLoop host state fuel' out bytes := by
  induction fuel generalizing fuel' out bytes with
  | zero =>
    obtain rfl := List.eq_nil_of_length_eq_zero (Nat.le_zero.mp h)
    rcases fuel' with _ | fuel'
    · rfl
    · simp [splitLoop, headFrame_nil]
  | succ fuel ih =>
    rcases fuel' with _ | fuel'
    · obtain rfl := List.eq_nil_of_length_eq_zero (Nat.le_zero.mp h')
      simp [splitLoop, headFrame_nil]
    · simp only [splitLoop]
      rcases hh : headFrame bytes with _ | ⟨headerSize, pktlen⟩
      · rfl
      · have hb := headFrame_bounds hh
        dsimp only
        split_ifs with hc
        · rfl
        · have hd : (bytes.drop (headerSize+pktlen)).length = bytes.length-(headerSize+pktlen) :=
            List.length_drop
          split
          · rfl
          · rw [ih fuel' _ _ (by omega) (by omega)]

variable {host state}
variable {out : McprPacket} {bytes : List UInt8} {headerSize pktlen : ℕ}

/-- There is no complete frame. -/
theorem splitFrames_waiting (h : ∀ headerSize pktlen,
    headFrame bytes = some (headerSize, pktlen) → bytes.length < headerSize+pktlen) :
    splitFrames host state out bytes = [] := by
  unfold splitFrames
  rcases hl : bytes.length with _ | fuel
  · rfl
  · simp only [splitLoop]
    rcases hh : headFrame bytes with _ | ⟨headerSize, pktlen⟩
    · rfl
    · simp only [h _ _ hh, ↓reduceIte]

theorem frameBytes_length (hc : headerSize+pktlen ≤ bytes.length) :
    (frameBytes bytes headerSize pktlen).length = pktlen := by
  simp only [frameBytes, List.length_take, List.length_drop]
  omega

/-- The frame at the front is rejected, or decoding it ends the program. -/
theorem splitFrames_rejected (hh : headFrame bytes = some (headerSize, pktlen))
    (h : (decodeAlone host state out (frameBytes bytes headerSize pktlen)).exit = .ret (-1) ∨
      (decodeAlone host state out (frameBytes bytes headerSize pktlen)).exit = .trap) :
    splitFrames host state out bytes = [] := by
  unfold splitFrames
  rcases hl : bytes.length with _ | fuel
  · rfl
  · simp only [splitLoop, hh]
    split_ifs
    · rfl
    · rcases h with h | h <;> simp [h]

theorem splitFrames_delivered (hh : headFrame bytes = some (headerSize, pktlen))
    (hc : headerSize+pktlen ≤ bytes.length) (n : ℤ) (hn : n ≠ -1) (r : DecodeResult)
    (hr : decodeAlone host state out (frameBytes bytes headerSize pktlen) = r)
    (hexit : r.exit = .ret n) :
    splitFrames host state out bytes = (r.out, headerSize+pktlen) ::
      splitFrames host state r.out (bytes.drop (headerSize+pktlen)) := by
  have hb := headFrame_bounds hh
  unfold splitFrames
  obtain ⟨fuel, hfuel⟩ : ∃ fuel, bytes.length = fuel+1 := ⟨bytes.length-1, by omega⟩
  rw [hfuel]
  simp only [splitLoop, hh, not_lt.mpr hc, ↓reduceIte, hr, hexit, hn]
  rw [splitLoop_fuel host state fuel (bytes.drop (headerSize+pktlen)).length _ _ _ (le_refl _)]
  simp only [List.length_drop]
  omega

end Split

end Stronk.Mcpr
