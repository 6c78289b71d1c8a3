import Stronk.PacketLayout

/-! What the front of a frame decides, and how far a decoder gets at most. A length that
overflows is met within the first three VarInts of a packet, or not at all. -/
namespace Stronk.Mcpr
open ByteMemory BoundedReader

section Varint

theorem mcprDecodeVarintLoop_front (a b : Mem) (maxLen : UInt64) (h : AgreeOn mcprVarintSizeMax a b)
    (turns i : ℕ) (result : BitVec 32) :
    mcprDecodeVarintLoop a maxLen turns i result = mcprDecodeVarintLoop b maxLen turns i result := by
  induction turns generalizing i result with
  | zero => rfl
  | succ turns ih =>
    simp only [mcprDecodeVarintLoop]
    by_cases hi : i+1 > mcprVarintSizeMax
    · simp only [hi, ↓reduceIte]
    · rw [h i (by omega)]
      simp only [ih]

/-- A VarInt is decided by five bytes. -/
theorem mcprDecodeVarint_front (a b : Mem) (maxLen : UInt64) (h : AgreeOn mcprVarintSizeMax a b) :
    mcprDecodeVarint a maxLen = mcprDecodeVarint b maxLen :=
  mcprDecodeVarintLoop_front a b maxLen h 6 0 0#32

theorem mcprDecodeVarintLoop_end (mem : Mem) (maxLen : UInt64) (turns i : ℕ) (result v : BitVec 32)
    (k : ℕ) (h : mcprDecodeVarintLoop mem maxLen turns i result = .ok (v, k)) :
    mem (k-1) &&& 0x80 = 0 := by
  induction turns generalizing i result with
  | zero => simp [mcprDecodeVarintLoop] at h
  | succ turns ih =>
    simp only [mcprDecodeVarintLoop] at h
    split_ifs at h with h5 hm hc
    · exact ih _ _ h
    · simp only [Except.ok.injEq, Prod.mk.injEq] at h
      rw [← h.2, Nat.add_sub_cancel]
      exact not_not.mp hc

/-- A VarInt ends before the bytes that all say that it goes on. -/
theorem mcprDecodeVarint_within (mem : Mem) (maxLen : UInt64) (v : BitVec 32) (k s : ℕ)
    (hff : ∀ i ≥ s, mem i = 0xFF) (h : mcprDecodeVarint mem maxLen = .ok (v, k)) : k ≤ s := by
  have hend := mcprDecodeVarintLoop_end mem maxLen 6 0 0#32 v k h
  by_contra hlt
  rw [hff (k-1) (by omega)] at hend
  exact absurd hend (by decide)

/-- A VarInt is decided by its own bytes. -/
theorem mcprDecodeVarint_known (a b : Mem) (maxLen maxLen' : UInt64) (v : BitVec 32) (k : ℕ)
    (hagree : AgreeOn k a b) (hk : k ≤ maxLen'.toNat) (h : mcprDecodeVarint a maxLen = .ok (v, k)) :
    mcprDecodeVarint b maxLen' = .ok (v, k) := by
  have hsize := mcprDecodeVarint_size a maxLen v k h
  have hnat : (UInt64.ofNat k).toNat = k := by
    rw [UInt64.toNat_ofNat']
    simp only [mcprVarintSizeMax] at hsize
    omega
  have hshort := mcprDecodeVarint_limit a maxLen (UInt64.ofNat k) v k hnat.ge h
  rw [mcprDecodeVarint_agree a b _ (by rwa [hnat])] at hshort
  exact mcprDecodeVarint_limit b _ maxLen' v k hk hshort

theorem varint_last_group (result : BitVec 32) (i : ℕ) (h : result.toNat < 2^(7*i)) (hi : i < 5) :
    0 < (result ||| (((1 : UInt8) &&& 0x7F).toBitVec.setWidth 32) <<< (7*i)).toInt := by
  have hone : ((((1 : UInt8) &&& 0x7F).toBitVec.setWidth 32) <<< (7*i)).toNat = 2^(7*i) := by
    interval_cases i <;> rfl
  have hle : 2^(7*i) ≤ 2^28 := Nat.pow_le_pow_right (by decide) (by omega)
  have hlt : (result ||| (((1 : UInt8) &&& 0x7F).toBitVec.setWidth 32) <<< (7*i)).toNat < 2^29 := by
    rw [BitVec.toNat_or, hone]
    exact Nat.or_lt_two_pow (by omega) (by omega)
  have hpos : 2^(7*i) ≤ (result ||| (((1 : UInt8) &&& 0x7F).toBitVec.setWidth 32) <<< (7*i)).toNat := by
    rw [BitVec.toNat_or, hone]
    exact Nat.right_le_or
  have hpow := Nat.two_pow_pos (7*i)
  rw [BitVec.toInt_eq_toNat_of_lt (by omega)]
  omega

theorem varint_group_lt (result : BitVec 32) (byte : UInt8) (i : ℕ) (h : result.toNat < 2^(7*i)) :
    (result ||| ((byte &&& 0x7F).toBitVec.setWidth 32) <<< (7*i)).toNat < 2^(7*(i+1)) := by
  have hbyte : (byte &&& 0x7F).toNat < 2^7 := by
    rw [UInt8.toNat_and]
    exact Nat.and_lt_two_pow _ (by decide)
  have hshift : (((byte &&& 0x7F).toBitVec.setWidth 32) <<< (7*i)).toNat < 2^(7*(i+1)) := by
    rw [BitVec.toNat_shiftLeft, Nat.shiftLeft_eq]
    refine lt_of_le_of_lt (Nat.mod_le _ _) ?_
    rw [BitVec.toNat_setWidth, Nat.mul_add, Nat.pow_add, Nat.mul_comm]
    refine Nat.mul_lt_mul_of_pos_left ?_ (Nat.two_pow_pos _)
    exact lt_of_le_of_lt (Nat.mod_le _ _) hbyte
  rw [BitVec.toNat_or]
  refine Nat.or_lt_two_pow (h.trans_le ?_) hshift
  exact Nat.pow_le_pow_right (by decide) (by omega)

/-- The prefix that has not ended in fewer than five bytes ends with the byte 1, and is positive. -/
theorem mcprDecodeVarintLoop_completed (a b : Mem) (maxLen maxLen' : UInt64) (message : String)
    (hagree : AgreeOn maxLen.toNat a b) (hlast : b maxLen.toNat = 1)
    (hshort : maxLen.toNat < mcprVarintSizeMax) (hmore : maxLen.toNat < maxLen'.toNat)
    (turns i : ℕ) (hturns : mcprVarintSizeMax ≤ turns+i) (hi : i ≤ maxLen.toNat) (result : BitVec 32)
    (hresult : result.toNat < 2^(7*i))
    (h : mcprDecodeVarintLoop a maxLen turns i result = .error message) :
    ∃ v, mcprDecodeVarintLoop b maxLen' turns i result = .ok (v, maxLen.toNat+1) ∧ 0 < v.toInt := by
  simp only [mcprVarintSizeMax] at hshort hturns
  induction turns generalizing i result with
  | zero => omega
  | succ turns ih =>
    have h5 : ¬ i+1 > mcprVarintSizeMax := by
      simp only [mcprVarintSizeMax]
      omega
    have hm' : ¬ i+1 > maxLen'.toNat := by omega
    simp only [mcprDecodeVarintLoop, h5, hm', ↓reduceIte] at h ⊢
    rcases Nat.lt_or_eq_of_le hi with hlt | rfl
    · have hm : ¬ i+1 > maxLen.toNat := by omega
      simp only [hm, ↓reduceIte, hagree i hlt] at h
      split_ifs at h ⊢ with hc
      exact ih (i+1) (by omega) hlt _ (varint_group_lt result _ i hresult) h
    · have hone : ¬ ((1 : UInt8) &&& 0x80 ≠ 0) := by decide
      simp only [hlast, hone, ↓reduceIte]
      exact ⟨_, rfl, varint_last_group result _ hresult hshort⟩

theorem mcprDecodeVarint_completed (a b : Mem) (maxLen maxLen' : UInt64) (message : String)
    (hagree : AgreeOn maxLen.toNat a b) (hlast : b maxLen.toNat = 1)
    (hshort : maxLen.toNat < mcprVarintSizeMax) (hmore : maxLen.toNat < maxLen'.toNat)
    (h : mcprDecodeVarint a maxLen = .error message) :
    ∃ v, mcprDecodeVarint b maxLen' = .ok (v, maxLen.toNat+1) ∧ 0 < v.toInt :=
  mcprDecodeVarintLoop_completed a b maxLen maxLen' message hagree hlast hshort hmore 6 0
    (by decide) (Nat.zero_le _) 0#32 (by decide) h

end Varint

section Trap

/-- No string is among the fields. -/
def Layout.StringFree : Layout → Prop
  | .done => True
  | .varint _ _ _ next => ∀ v k, (next v k).StringFree
  | .string _ => False
  | .fixed _ _ next => next.StringFree
  | .bytes _ next => next.StringFree
  | .rest => True

/-- Only the length of a string can overflow. -/
theorem Layout.walk_stringFree (mem : Mem) (layout : Layout) (h : layout.StringFree) (off : ℕ)
    (left : UInt64) (wrapped : Bool) :
    (layout.walk mem off left wrapped).1 ≠ .error .trap := by
  induction layout generalizing off left wrapped with
  | done => simp [Layout.walk]
  | varint accepted refusal width next ih =>
    simp only [Layout.walk]
    split
    · simp
    · split
      · exact ih _ _ (h _ _) _ _ _
      · simp
  | string next => exact h.elim
  | fixed n refusal next ih =>
    simp only [Layout.walk]
    split_ifs
    · simp
    · exact ih h _ _ _
  | bytes n next ih => exact ih h _ _ _
  | rest =>
    simp only [Layout.walk]
    split_ifs <;> simp

/-- There is one string at most, and it is behind fewer than `n` VarInts and nothing else. -/
inductive Layout.EarlyString : ℕ → Layout → Prop
  | free {n : ℕ} {layout : Layout} : layout.StringFree → EarlyString n layout
  | string {n : ℕ} {next : Layout} : next.StringFree → EarlyString (n+1) (.string next)
  | varint {n : ℕ} {accepted : ℤ → Bool} {refusal : ℤ} {next : ℕ → ℕ → Layout} :
      (∀ v k, EarlyString n (next v k)) → EarlyString (n+1) (.varint accepted refusal id next)

/-- Whether a length overflows is decided by the VarInts up to the string. -/
theorem Layout.EarlyString.walk_trap {n : ℕ} {layout : Layout} (h : layout.EarlyString n)
    (a b : Mem) (off : ℕ) (left : UInt64) (wrapped : Bool)
    (hagree : AgreeOn (off+mcprVarintSizeMax*n) a b) :
    (layout.walk a off left wrapped).1 = .error .trap ↔
      (layout.walk b off left wrapped).1 = .error .trap := by
  have hfront {n : ℕ} (off : ℕ) (left : UInt64) (hagree : AgreeOn (off+mcprVarintSizeMax*(n+1)) a b) :
      mcprDecodeVarint (shift a off) left = mcprDecodeVarint (shift b off) left := by
    refine mcprDecodeVarint_front _ _ _ (agreeOn_shift hagree ?_)
    rw [Nat.mul_add]
    omega
  induction h generalizing off left wrapped with
  | free hfree =>
    apply iff_of_false
    · exact Layout.walk_stringFree _ _ hfree _ _ _
    · exact Layout.walk_stringFree _ _ hfree _ _ _
  | string hfree =>
    simp only [Layout.walk, hfront off left hagree]
    rcases mcprDecodeVarint (shift b off) left with message | ⟨len, k⟩
    · rfl
    · dsimp only
      split_ifs
      · rfl
      · rfl
      · apply iff_of_false
        · exact Layout.walk_stringFree _ _ hfree _ _ _
        · exact Layout.walk_stringFree _ _ hfree _ _ _
  | @varint n accepted refusal next _ ih =>
    simp only [Layout.walk, hfront off left hagree]
    rcases hd : mcprDecodeVarint (shift b off) left with message | ⟨v, k⟩
    · rfl
    · dsimp only
      split_ifs
      · have hk := mcprDecodeVarint_size _ _ _ _ hd
        refine ih _ _ _ _ _ (agreeOn_mono hagree ?_)
        rw [Nat.mul_add, id]
        omega
      · rfl

theorem packetLayout_early (t : McprPacketType) (layout : Layout)
    (h : packetLayout t = some layout) : layout.EarlyString 2 := by
  cases t <;> cases h
  case hsSbHandshake => exact .varint fun _ _ => .string (fun _ _ => trivial)
  case lgSbLoginStart => exact .string trivial
  case plSbChatMessage => exact .string trivial
  case plSbClientSettings => exact .string fun _ _ _ _ => trivial
  case plSbPluginMessage => exact .string trivial
  all_goals exact .free (by simp [Layout.StringFree, Layout.number])

/-- Whether decoding a frame ends in an overflow is decided by its first fifteen bytes. -/
theorem walkFrame_trap_front (a b : Mem) (state : McprState) (maxlen : UInt64)
    (hagree : AgreeOn 15 a b) : (walkFrame a state maxlen).1 = .error .trap ↔
      (walkFrame b state maxlen).1 = .error .trap := by
  have hid := mcprDecodeVarint_front a b maxlen (agreeOn_mono hagree (by decide))
  have hlayout : frameLayout a state maxlen = frameLayout b state maxlen := by
    simp only [frameLayout, hid]
  simp only [walkFrame, hlayout]
  split
  · rfl
  · rename_i k layout hf
    obtain ⟨⟨id, hd⟩, t, hl⟩ := frameLayout_some hf
    have hk := mcprDecodeVarint_size _ _ _ _ hd
    refine (packetLayout_early t layout hl).walk_trap a b _ _ _ (agreeOn_mono hagree ?_)
    simp only [mcprVarintSizeMax] at hk ⊢
    omega

/-- What overflows in front of bytes that all say that a VarInt goes on overflows in front of
any bytes. -/
theorem Layout.walk_trap_within (layout : Layout) (a b : Mem) (s : ℕ)
    (hff : ∀ i ≥ s, a i = 0xFF) (hagree : AgreeOn s a b) (off : ℕ) (left : UInt64)
    (wrapped : Bool) (h : (layout.walk a off left wrapped).1 = .error .trap) :
    (layout.walk b off left wrapped).1 = .error .trap := by
  have hknown {off : ℕ} {left : UInt64} {v : BitVec 32} {k : ℕ}
      (hd : mcprDecodeVarint (shift a off) left = .ok (v, k)) :
      mcprDecodeVarint (shift b off) left = .ok (v, k) := by
    have hsize := mcprDecodeVarint_size _ _ _ _ hd
    have hin := mcprDecodeVarint_within _ _ v k (s-off) (fun i hi => hff (off+i) (by omega)) hd
    refine mcprDecodeVarint_known _ _ _ _ v k ?_ hsize.2.2 hd
    exact agreeOn_shift hagree (by omega)
  induction layout generalizing off left wrapped with
  | done => simp [Layout.walk] at h
  | varint accepted refusal width next ih =>
    simp only [Layout.walk] at h ⊢
    rcases hd : mcprDecodeVarint (shift a off) left with message | ⟨v, k⟩ <;> rw [hd] at h
    · simp at h
    · rw [hknown hd]
      dsimp only at h ⊢
      split_ifs at h ⊢
      · exact ih _ _ _ _ _ h
      · simp at h
  | string next ih =>
    simp only [Layout.walk] at h ⊢
    rcases hd : mcprDecodeVarint (shift a off) left with message | ⟨len, k⟩ <;> rw [hd] at h
    · simp at h
    · rw [hknown hd]
      dsimp only at h ⊢
      split_ifs at h ⊢
      · simp at h
      · rfl
      · exact ih _ _ _ h
  | fixed n refusal next ih =>
    simp only [Layout.walk] at h ⊢
    split_ifs at h ⊢
    · simp at h
    · exact ih _ _ _ h
  | bytes n next ih => exact ih _ _ _ h
  | rest =>
    simp only [Layout.walk] at h
    split_ifs at h
    simp at h

theorem walkFrame_trap_within (a b : Mem) (s : ℕ) (hff : ∀ i ≥ s, a i = 0xFF)
    (hagree : AgreeOn s a b) (state : McprState) (maxlen : UInt64)
    (h : (walkFrame a state maxlen).1 = .error .trap) :
    (walkFrame b state maxlen).1 = .error .trap := by
  unfold walkFrame at h
  split at h
  · simp at h
  · rename_i k layout hf
    have hlayout : frameLayout b state maxlen = some (k, layout) := by
      obtain ⟨⟨id, hd⟩, -⟩ := frameLayout_some hf
      have hsize := mcprDecodeVarint_size _ _ _ _ hd
      have hin := mcprDecodeVarint_within _ _ id k s hff hd
      have hb := mcprDecodeVarint_known a b _ maxlen id k (agreeOn_mono hagree hin) hsize.2.2 hd
      simp only [frameLayout, hd] at hf
      simp only [frameLayout, hb, hf]
    simp only [walkFrame, hlayout]
    exact layout.walk_trap_within a b s hff hagree _ _ _ h

end Trap

section Span

/-- There are at most `d` fields, and none that is stepped over by 2^33 bytes or more. -/
def Layout.Short : Layout → ℕ → Prop
  | .done, _ => True
  | .varint _ _ width next, d => ∃ d', d = d'+1 ∧ ∀ v k, v < 2^32 → k ≤ mcprVarintSizeMax →
      width k < 2^33 ∧ (next v k).Short d'
  | .string next, d => ∃ d', d = d'+1 ∧ next.Short d'
  | .fixed n _ next, d => ∃ d', d = d'+1 ∧ n < 2^33 ∧ next.Short d'
  | .bytes n next, d => ∃ d', d = d'+1 ∧ n < 2^33 ∧ next.Short d'
  | .rest, _ => True

theorem packetLayout_short (t : McprPacketType) (layout : Layout)
    (h : packetLayout t = some layout) : layout.Short 8 := by
  cases t <;> cases h <;> simp [Layout.Short, Layout.number, mcprVarintSizeMax, mcprUshortSize,
    mcprLongSize, mcprByteSize, mcprBoolSize, mcprUbyteSize, mcprDoubleSize, mcprFloatSize,
    mcprShortSize]
  all_goals grind

/-- What is left of a frame, counted modulo 2^64, once `c` bytes were stepped over. -/
def LeftOf (maxlen : UInt64) (c : ℕ) (left : UInt64) : Prop := left = maxlen-UInt64.ofNat c

theorem LeftOf.sub {maxlen left : UInt64} {c : ℕ} (h : LeftOf maxlen c left) (n : ℕ) :
    LeftOf maxlen (c+n) (left-UInt64.ofNat n) := by
  unfold LeftOf at h ⊢
  rw [h, UInt64.ofNat_add, sub_sub]

/-- A count that does not look negative is no larger than it was. -/
theorem LeftOf.le {maxlen left : UInt64} {c : ℕ} (h : LeftOf maxlen c left) (hc : c < 2^62)
    (hmax : maxlen.toNat < 2^32) (hleft : left.toNat ≤ ptrdiffMax) : left.toNat < 2^32 := by
  unfold LeftOf at h
  have hnat : (UInt64.ofNat c).toNat = c := by
    rw [UInt64.toNat_ofNat']
    omega
  rw [h, UInt64.toNat_sub, hnat] at hleft ⊢
  simp only [ptrdiffMax] at hleft
  omega

/-- How far a walk gets at most, whatever the lengths inside of the frame are. -/
theorem Layout.walk_short (mem : Mem) (maxlen : UInt64) (hmax : maxlen.toNat < 2^32)
    (layout : Layout) (d : ℕ) (h : layout.Short d) (off c : ℕ) (left : UInt64) (wrapped : Bool)
    (hleft : LeftOf maxlen c left) (hc : c+d*2^33 < 2^62) (n : ℕ)
    (hn : (layout.walk mem off left wrapped).1 = .ok n) : n ≤ off+d*2^33+2^32 := by
  induction layout generalizing d off c left wrapped with
  | done =>
    simp only [Layout.walk, Except.ok.injEq] at hn
    omega
  | varint accepted refusal width next ih =>
    obtain ⟨d, rfl, hnext⟩ := h
    simp only [Layout.walk] at hn
    split at hn
    · contradiction
    · rename_i v k hd
      split at hn
      · obtain ⟨hw, hs⟩ := hnext v.toNat k v.isLt (mcprDecodeVarint_size _ _ _ _ hd).2.1
        have := ih _ _ d hs _ _ _ _ (hleft.sub _) (by omega) hn
        omega
      · contradiction
  | string next ih =>
    obtain ⟨d, rfl, hnext⟩ := h
    simp only [Layout.walk] at hn
    split at hn
    · contradiction
    · rename_i len k hd
      have hk := (mcprDecodeVarint_size _ _ _ _ hd).2.1
      have hlen := len.isLt
      simp only [mcprVarintSizeMax] at hk
      split_ifs at hn
      have := ih d hnext _ _ _ _ (hleft.sub _) (by omega) hn
      omega
  | fixed m refusal next ih =>
    obtain ⟨d, rfl, hm, hnext⟩ := h
    simp only [Layout.walk] at hn
    split_ifs at hn
    have := ih d hnext _ _ _ _ (hleft.sub _) (by omega) hn
    omega
  | bytes m next ih =>
    obtain ⟨d, rfl, hm, hnext⟩ := h
    have := ih d hnext _ _ _ _ (hleft.sub _) (by omega) hn
    omega
  | rest =>
    simp only [Layout.walk] at hn
    split_ifs at hn with hp
    have := hleft.le (by omega) hmax hp
    simp only [Except.ok.injEq] at hn
    omega

/-- How many bytes a decoder says it read of a packet, at most. -/
theorem walkFrame_short (mem : Mem) (state : McprState) (maxlen : UInt64)
    (hmax : maxlen.toNat < 2^32) (n : ℕ) (h : (walkFrame mem state maxlen).1 = .ok n) :
    n < 2^37 := by
  unfold walkFrame at h
  split at h
  · contradiction
  · rename_i k layout hf
    obtain ⟨⟨id, hd⟩, t, hl⟩ := frameLayout_some hf
    have hk := (mcprDecodeVarint_size _ _ _ _ hd).2.1
    simp only [mcprVarintSizeMax] at hk
    have := Layout.walk_short mem maxlen hmax layout 8 (packetLayout_short t layout hl) k k _ _ rfl
      (by omega) n h
    omega

end Span

end Stronk.Mcpr
