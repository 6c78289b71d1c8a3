import Stronk.McprDecode

/-! The layout of serverbound packets as data: which fields a decoder steps over, in which
order, and what it returns where one of them is refused. Walking a layout looks at length
prefixes and at the values that can be refused only; nothing is allocated and nothing is
copied. -/
namespace Stronk.Mcpr
open ByteMemory BoundedReader

/-- `width` says how far the decoder steps for a VarInt that takes so many bytes. -/
inductive Layout
  | done
  | varint (accepted : ℤ → Bool) (refusal : ℤ) (width : ℕ → ℕ) (next : ℕ → ℕ → Layout)
  | string (next : Layout)
  | fixed (n : ℕ) (refusal : ℤ) (next : Layout)
  | bytes (n : ℕ) (next : Layout)
  | rest

/-- The walk of a decoder whose allocations all succeed: where it ends or how it fails, and
whether the count of what is left was ever decremented below zero. -/
def Layout.walk (mem : Mem) : Layout → ℕ → UInt64 → Bool → Except DecodeExit ℕ × Bool
  | .done, off, _, wrapped => (.ok off, wrapped)
  | .varint accepted refusal width next, off, left, wrapped =>
    match mcprDecodeVarint (shift mem off) left with
    | .error _ => (.error (.ret (-1)), wrapped)
    | .ok (v, k) =>
      if accepted v.toInt then
        (next v.toNat k).walk mem (off+width k) (left-UInt64.ofNat (width k))
          (wrapped || decide (left.toNat < width k))
      else (.error (.ret refusal), wrapped)
  | .string next, off, left, wrapped =>
    match mcprDecodeVarint (shift mem off) left with
    | .error _ => (.error (.ret (-1)), wrapped)
    | .ok (len, k) =>
      if len.toInt < 0 then (.error (.ret (-1)), wrapped)
      else if len.toInt = int32Max then (.error .trap, wrapped)
      else next.walk mem (off+(k+len.toNat)) (left-UInt64.ofNat (k+len.toNat))
        (wrapped || decide (left.toNat < k+len.toNat))
  | .fixed n refusal next, off, left, wrapped =>
    if left.toNat < n then (.error (.ret refusal), wrapped)
    else next.walk mem (off+n) (left-UInt64.ofNat n) wrapped
  | .bytes n next, off, left, wrapped =>
    next.walk mem (off+n) (left-UInt64.ofNat n) (wrapped || decide (left.toNat < n))
  | .rest, off, left, wrapped =>
    if left.toNat ≤ ptrdiffMax then (.ok (off+left.toNat), wrapped)
    else (.error (.ret (-1)), wrapped)

/-- Every length prefix announces no more than what is left of the frame behind it, as far
as a decoder gets. -/
def Layout.fits : Layout → Mem → UInt64 → Bool
  | .done, _, _ => true
  | .varint accepted _ width next, mem, left =>
    match mcprDecodeVarint mem left with
    | .error _ => true
    | .ok (v, k) => !accepted v.toInt || (decide (width k ≤ left.toNat) &&
        (next v.toNat k).fits (shift mem (width k)) (left-UInt64.ofNat (width k)))
  | .string next, mem, left =>
    match mcprDecodeVarint mem left with
    | .error _ => true
    | .ok (len, k) => decide (len.toInt < 0) || decide (len.toInt = int32Max) ||
        (decide (k+len.toNat ≤ left.toNat) &&
          next.fits (shift mem (k+len.toNat)) (left-UInt64.ofNat (k+len.toNat)))
  | .fixed n _ next, mem, left =>
    decide (left.toNat < n) || next.fits (shift mem n) (left-UInt64.ofNat n)
  | .bytes n next, mem, left =>
    decide (n ≤ left.toNat) && next.fits (shift mem n) (left-UInt64.ofNat n)
  | .rest, _, _ => true

/-- Every number a layout is refused with satisfies `P`. -/
def Layout.AllRefusals (P : ℤ → Prop) : Layout → Prop
  | .done => True
  | .varint _ refusal _ next => P refusal ∧ ∀ v k, (next v k).AllRefusals P
  | .string next => next.AllRefusals P
  | .fixed _ refusal next => P refusal ∧ next.AllRefusals P
  | .bytes _ next => next.AllRefusals P
  | .rest => True

def anyInt : ℤ → Bool := fun _ => true

def nonNegative : ℤ → Bool := fun n => decide (0 ≤ n)

/-- A VarInt field that is neither checked nor looked at again. -/
def Layout.number (next : Layout) : Layout := .varint anyInt (-1) id fun _ _ => next

/-- The layout of each type that `mcpr_decode_packet` has a case for. -/
def packetLayout : McprPacketType → Option Layout
  | .hsSbHandshake => some (.number (.string (.fixed mcprUshortSize 0
      (.varint (fun n => n = 1 ∨ n = 2) 0 id fun _ _ => .done))))
  | .lgSbLoginStart => some (.string .done)
  -- the second length is stepped over by the width of the first
  | .lgSbEncryptionResponse => some (.varint nonNegative (-1) id fun sharedSecretLength k =>
      .bytes sharedSecretLength (.varint nonNegative (-1) (fun _ => k) fun verifyTokenLength _ =>
        .bytes verifyTokenLength .done))
  | .stSbPing => some (.fixed mcprLongSize (-1) .done)
  | .stSbRequest => some .done
  | .plSbChatMessage => some (.string .done)
  | .plSbClientSettings => some (.string (.fixed mcprByteSize (-1)
      (.varint (fun n => n = 0 ∨ n = 1 ∨ n = 2) (-1) id fun _ _ => .fixed mcprBoolSize (-1)
        (.fixed mcprUbyteSize (-1) (.varint (fun n => n = 0 ∨ n = 1) (-1) id fun _ _ => .done)))))
  | .plSbPluginMessage => some (.string .rest)
  | .plSbKeepAlive => some (.number .done)
  | .plSbPlayerPosition => some (.fixed mcprDoubleSize (-1) (.fixed mcprDoubleSize (-1)
      (.fixed mcprDoubleSize (-1) (.fixed mcprBoolSize (-1) .done))))
  | .plSbPlayerPositionAndLook => some (.fixed mcprDoubleSize (-1) (.fixed mcprDoubleSize (-1)
      (.fixed mcprDoubleSize (-1) (.fixed mcprFloatSize (-1) (.fixed mcprFloatSize (-1)
        (.fixed mcprBoolSize (-1) .done))))))
  | .plSbTeleportConfirm => some (.number .done)
  | .plSbPlayerLook => some (.fixed mcprFloatSize (-1) (.fixed mcprFloatSize (-1)
      (.fixed mcprBoolSize (-1) .done)))
  | .plSbHeldItemChange => some (.fixed mcprShortSize (-1) .done)
  | _ => none

/-- The layout of the frame at `mem`: the number of its packet type, then the packet. -/
def frameLayout (mem : Mem) (state : McprState) (maxlen : UInt64) : Option (ℕ × Layout) :=
  match mcprDecodeVarint mem maxlen with
  | .error _ => none
  | .ok (id, k) =>
    ((mcprGetPacketType (UInt8.ofBitVec (id.setWidth 8)) state).bind packetLayout).map fun layout =>
      (k, layout)

theorem frameLayout_some {mem : Mem} {state : McprState} {maxlen : UInt64} {k : ℕ}
    {layout : Layout} (h : frameLayout mem state maxlen = some (k, layout)) :
    (∃ id, mcprDecodeVarint mem maxlen = .ok (id, k)) ∧ ∃ t, packetLayout t = some layout := by
  unfold frameLayout at h
  split at h
  · contradiction
  · rename_i id k' hd
    simp only [Option.map_eq_some_iff, Option.bind_eq_some_iff] at h
    obtain ⟨l, ⟨t, -, hl⟩, hk⟩ := h
    cases hk
    exact ⟨⟨id, hd⟩, t, hl⟩

/-- Walk over a frame; what has no layout is refused. -/
def walkFrame (mem : Mem) (state : McprState) (maxlen : UInt64) : Except DecodeExit ℕ × Bool :=
  match frameLayout mem state maxlen with
  | none => (.error (.ret (-1)), false)
  | some (k, layout) => layout.walk mem k (maxlen-UInt64.ofNat k) false

/-- The lengths announced inside a frame fit the frame. -/
def lengthsFit (mem : Mem) (state : McprState) (maxlen : UInt64) : Bool :=
  match frameLayout mem state maxlen with
  | none => true
  | some (k, layout) => layout.fits (shift mem k) (maxlen-UInt64.ofNat k)

section Walk
-- the equations of both are worked out once, before the lemmas that rewrite with them
attribute [local simp] Layout.walk Layout.fits

/-- The walk steps over a string as soon as its prefix is read. -/
theorem Layout.walk_string (mem : Mem) (next : Layout) (off : ℕ) (left : UInt64) (wrapped : Bool) :
    (Layout.string next).walk mem off left wrapped = match stringHead (shift mem off) left with
      | .invalid _ => (.error (.ret (-1)), wrapped)
      | .trap => (.error .trap, wrapped)
      | .content len k => (Layout.bytes (k+len) next).walk mem off left wrapped := by
  simp only [Layout.walk, stringHead]
  rcases mcprDecodeVarint (shift mem off) left with message | ⟨len, k⟩
  · rfl
  · dsimp only
    split_ifs
    all_goals rfl

/-- The ghost of a walk is never cleared. -/
theorem Layout.walk_wrapped (mem : Mem) (layout : Layout) (off : ℕ) (left : UInt64) :
    (layout.walk mem off left true).2 = true := by
  induction layout generalizing off left with
  | done => rfl
  | varint accepted refusal width next ih =>
    simp only [Layout.walk]
    split
    · rfl
    · split
      · exact ih _ _ _ _
      · rfl
  | string next ih =>
    simp only [Layout.walk]
    split
    · rfl
    · split_ifs
      · rfl
      · rfl
      · exact ih _ _
  | fixed n refusal next ih =>
    simp only [Layout.walk]
    split_ifs
    · rfl
    · exact ih _ _
  | bytes n next ih => exact ih _ _
  | rest =>
    simp only [Layout.walk]
    split_ifs <;> rfl

/-- A walk that starts right goes wrong exactly where a length does not fit. -/
theorem Layout.walk_fits (mem : Mem) (layout : Layout) (off : ℕ) (left : UInt64) :
    (layout.walk mem off left false).2 = !layout.fits (shift mem off) left := by
  induction layout generalizing off left with
  | done => rfl
  | varint accepted refusal width next ih =>
    simp only [Layout.walk, Layout.fits]
    rcases mcprDecodeVarint (shift mem off) left with message | ⟨v, k⟩
    · rfl
    · cases hacc : accepted v.toInt with
      | false => simp [hacc]
      | true =>
        by_cases hw : width k ≤ left.toNat
        · simp [hacc, hw, not_lt.mpr hw, ih]
        · simp [hacc, hw, not_le.mp hw, walk_wrapped]
  | string next ih =>
    simp only [Layout.walk, Layout.fits]
    rcases mcprDecodeVarint (shift mem off) left with message | ⟨len, k⟩
    · rfl
    · by_cases hneg : len.toInt < 0
      · simp [hneg]
      · by_cases hmax : len.toInt = int32Max
        · simp [hmax, show ¬ int32Max < 0 by decide]
        · by_cases hw : k+len.toNat ≤ left.toNat
          · simp [hneg, hmax, hw, not_lt.mpr hw, ih]
          · simp [hneg, hmax, hw, not_le.mp hw, walk_wrapped]
  | fixed n refusal next ih =>
    simp only [Layout.walk, Layout.fits]
    by_cases hn : left.toNat < n
    · simp [hn]
    · simp [hn, ih]
  | bytes n next ih =>
    simp only [Layout.walk, Layout.fits]
    by_cases hn : n ≤ left.toNat
    · simp [hn, not_lt.mpr hn, ih]
    · simp [hn, not_le.mp hn, walk_wrapped]
  | rest =>
    simp only [Layout.walk, Layout.fits]
    split_ifs <;> rfl

/-- A walk that goes right behind a step of `k` bytes had so many left. -/
theorem Layout.walk_unwrapped {mem : Mem} {layout : Layout} {off k : ℕ} {left l : UInt64}
    {wrapped : Bool} {r : Except DecodeExit ℕ}
    (h : layout.walk mem off l (wrapped || decide (left.toNat < k)) = (r, false)) :
    k ≤ left.toNat := by
  by_contra hk
  have hghost := walk_wrapped mem layout off l
  rw [decide_eq_true (not_le.mp hk), Bool.or_true] at h
  rw [h] at hghost
  contradiction

/-- A walk that goes right ends inside its frame. -/
theorem Layout.walk_le (mem : Mem) (layout : Layout) (off : ℕ) (left : UInt64) (wrapped : Bool)
    (n : ℕ) (h : layout.walk mem off left wrapped = (.ok n, false)) : n ≤ off+left.toNat := by
  -- what is left behind a step is what was left, less the step
  have hstep {o k : ℕ} {l : UInt64} (hk : k ≤ l.toNat) (hn : n ≤ o+k+(l-UInt64.ofNat k).toNat) :
      n ≤ o+l.toNat := by
    rw [toNat_sub_ofNat l k hk] at hn
    omega
  induction layout generalizing off left wrapped with
  | done =>
    simp only [Layout.walk, Prod.mk.injEq, Except.ok.injEq] at h
    omega
  | varint accepted refusal width next ih =>
    simp only [Layout.walk] at h
    split at h
    · simp at h
    · split at h
      · exact hstep (walk_unwrapped h) (ih _ _ _ _ _ h)
      · simp at h
  | string next ih =>
    rw [walk_string] at h
    split at h
    · simp at h
    · simp at h
    · exact hstep (walk_unwrapped h) (ih _ _ _ h)
  | fixed m refusal next ih =>
    simp only [Layout.walk] at h
    split_ifs at h with hn
    · simp at h
    · exact hstep (not_lt.mp hn) (ih _ _ _ h)
  | bytes m next ih =>
    exact hstep (walk_unwrapped h) (ih _ _ _ h)
  | rest =>
    simp only [Layout.walk] at h
    split_ifs at h
    · simp only [Prod.mk.injEq, Except.ok.injEq] at h
      omega
    · simp at h

theorem Layout.walk_refusal (mem : Mem) (P : ℤ → Prop) (h1 : P (-1)) (layout : Layout)
    (hl : layout.AllRefusals P) (off : ℕ) (left : UInt64) (wrapped : Bool) (n : ℤ)
    (h : (layout.walk mem off left wrapped).1 = .error (.ret n)) : P n := by
  have hret {m : ℤ} (hm : P m) {w : Bool}
      (h : ((.error (.ret m), w) : Except DecodeExit ℕ × Bool).1 = .error (.ret n)) : P n := by
    simp only [Except.error.injEq, DecodeExit.ret.injEq] at h
    exact h ▸ hm
  induction layout generalizing off left wrapped with
  | done => simp at h
  | varint accepted refusal width next ih =>
    simp only [Layout.walk] at h
    split at h
    · exact hret h1 h
    · split at h
      · exact ih _ _ (hl.2 _ _) _ _ _ h
      · exact hret hl.1 h
  | string next ih =>
    simp only [Layout.walk] at h
    split at h
    · exact hret h1 h
    · split_ifs at h
      · exact hret h1 h
      · simp at h
      · exact ih hl _ _ _ h
  | fixed m refusal next ih =>
    simp only [Layout.walk] at h
    split_ifs at h
    · exact hret hl.1 h
    · exact ih hl.2 _ _ _ h
  | bytes m next ih => exact ih hl _ _ _ h
  | rest =>
    simp only [Layout.walk] at h
    split_ifs at h
    exact hret h1 h

theorem packetLayout_refusals (t : McprPacketType) (layout : Layout)
    (h : packetLayout t = some layout) : layout.AllRefusals fun n => n = 0 ∨ n = -1 := by
  cases t <;> cases h <;> simp [Layout.AllRefusals, Layout.number]

/-- What a frame is refused with is never a count. -/
theorem walkFrame_refusal (mem : Mem) (state : McprState) (maxlen : UInt64) (n : ℤ)
    (h : (walkFrame mem state maxlen).1 = .error (.ret n)) : n = 0 ∨ n = -1 := by
  simp only [walkFrame] at h
  split at h
  · simp only [Except.error.injEq, DecodeExit.ret.injEq] at h
    exact .inr h.symm
  · rename_i k layout hf
    obtain ⟨-, t, hl⟩ := frameLayout_some hf
    exact Layout.walk_refusal mem (fun n => n = 0 ∨ n = -1) (.inr rfl) _
      (packetLayout_refusals t _ hl) _ _ _ n h

/-- A frame that is walked to its end without a wrap is walked inside its bounds. -/
theorem walkFrame_le (mem : Mem) (state : McprState) (maxlen : UInt64) (n : ℕ)
    (h : walkFrame mem state maxlen = (.ok n, false)) : n ≤ maxlen.toNat := by
  simp only [walkFrame] at h
  split at h
  · simp at h
  · rename_i k layout hf
    obtain ⟨⟨id, hd⟩, -⟩ := frameLayout_some hf
    have hk := (mcprDecodeVarint_size _ _ _ _ hd).2.2
    have := Layout.walk_le mem layout k _ _ n h
    rw [toNat_sub_ofNat maxlen k hk] at this
    omega

theorem Layout.walk_ge (mem : Mem) (layout : Layout) (off : ℕ) (left : UInt64) (wrapped : Bool)
    (n : ℕ) (h : (layout.walk mem off left wrapped).1 = .ok n) : off ≤ n := by
  induction layout generalizing off left wrapped with
  | done =>
    simp only [Layout.walk, Except.ok.injEq] at h
    omega
  | varint accepted refusal width next ih =>
    simp only [Layout.walk] at h
    split at h
    · contradiction
    · split at h
      · have := ih _ _ _ _ _ h
        omega
      · contradiction
  | string next ih =>
    simp only [Layout.walk] at h
    split at h
    · contradiction
    · split_ifs at h
      have := ih _ _ _ h
      omega
  | fixed m refusal next ih =>
    simp only [Layout.walk] at h
    split_ifs at h
    have := ih _ _ _ h
    omega
  | bytes m next ih =>
    have := ih _ _ _ h
    omega
  | rest =>
    simp only [Layout.walk] at h
    split_ifs at h
    simp only [Except.ok.injEq] at h
    omega

/-- A packet takes a byte at least, for its number. -/
theorem walkFrame_pos (mem : Mem) (state : McprState) (maxlen : UInt64) (n : ℕ)
    (h : (walkFrame mem state maxlen).1 = .ok n) : 0 < n := by
  simp only [walkFrame] at h
  split at h
  · contradiction
  · rename_i k layout hf
    obtain ⟨⟨id, hd⟩, -⟩ := frameLayout_some hf
    have hk := (mcprDecodeVarint_size _ _ _ _ hd).1
    have := Layout.walk_ge mem layout k _ _ n h
    omega

theorem walkFrame_fits (mem : Mem) (state : McprState) (maxlen : UInt64) :
    (walkFrame mem state maxlen).2 = !lengthsFit mem state maxlen := by
  simp only [walkFrame, lengthsFit]
  split
  · rfl
  · exact Layout.walk_fits mem _ _ _

end Walk

end Stronk.Mcpr
