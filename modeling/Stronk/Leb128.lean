import Stronk.ByteMemory

/-! Numbers in groups of seven bits, least significant first: the highest bit of a byte says that
another group follows. The loop that reads them fetches a byte before it looks at its limits. -/
namespace Leb128
open ByteMemory
open scoped BigOperators

section Groups

/-- The groups of a number, in at most `turns` bytes. -/
def groupBytes : ℕ → ℕ → List UInt8
  | 0, _ => []
  | turns+1, v =>
    if v/128 ≠ 0 then UInt8.ofNat (v%128+128) :: groupBytes turns (v/128) else [UInt8.ofNat (v%128)]

/-- The number that the first `n` groups of a memory stand for. -/
def groupSum (mem : Mem) (n : ℕ) : ℕ := ∑ i ∈ Finset.range n, (mem i).toNat%128*128^i

/-- The byte `n` bytes in is the first one without a follower. -/
structure EndsAt (mem : Mem) (n : ℕ) : Prop where
  pos : 0 < n
  more : ∀ i, i+1 < n → 128 ≤ (mem i).toNat
  last : (mem (n-1)).toNat < 128

variable {mem mem' : Mem} {n m : ℕ}

theorem EndsAt.le (h : EndsAt mem n) (h' : EndsAt mem m) : n ≤ m := by
  by_contra hlt
  have hmore := h.more (m-1) (by have := h'.pos; omega)
  exact absurd h'.last (by omega)

theorem EndsAt.unique (h : EndsAt mem n) (h' : EndsAt mem m) : n = m :=
  le_antisymm (h.le h') (h'.le h)

theorem EndsAt.congr (h : EndsAt mem n) (ha : AgreeOn n mem mem') : EndsAt mem' n := by
  refine ⟨h.pos, fun i hi => ?_, ?_⟩
  · rw [← ha i (by omega)]
    exact h.more i hi
  · rw [← ha (n-1) (by have := h.pos; omega)]
    exact h.last

theorem groupSum_congr (ha : AgreeOn n mem mem') : groupSum mem n = groupSum mem' n := by
  apply Finset.sum_congr rfl
  intro i hi
  rw [ha i (Finset.mem_range.mp hi)]

theorem groupSum_succ (mem : Mem) (n : ℕ) :
    groupSum mem (n+1) = groupSum mem n+(mem n).toNat%128*128^n := Finset.sum_range_succ _ n

theorem groupSum_lt (mem : Mem) (n : ℕ) : groupSum mem n < 128^n := by
  induction n with
  | zero => exact Nat.one_pos
  | succ n ih =>
    have hgroup : (mem n).toNat%128*128^n ≤ 127*128^n :=
      Nat.mul_le_mul_right _ (Nat.le_of_lt_succ (Nat.mod_lt _ (by decide)))
    rw [groupSum_succ, pow_succ]
    omega

theorem groupSum_shift (mem : Mem) (n : ℕ) :
    groupSum mem (n+1) = (mem 0).toNat%128+128*groupSum (shift mem 1) n := by
  rw [groupSum, Finset.sum_range_succ', groupSum, Finset.mul_sum, pow_zero, Nat.mul_one, Nat.add_comm]
  congr 1
  apply Finset.sum_congr rfl
  intro i _
  rw [shift_apply, Nat.add_comm 1 i, pow_succ]
  ring

/-- A number has ended within `m` bytes if and only if one of them has no follower. -/
theorem exists_endsAt_iff : (∃ n ≤ m, EndsAt mem n) ↔ ∃ i < m, (mem i).toNat < 128 := by
  constructor
  · rintro ⟨n, hn, h⟩
    exact ⟨n-1, by have := h.pos; omega, h.last⟩
  · rintro ⟨i, hi, hlast⟩
    have hex : ∃ j, (mem j).toNat < 128 := ⟨i, hlast⟩
    refine ⟨Nat.find hex+1, ?_, Nat.succ_pos _, fun j hj => ?_, Nat.find_spec hex⟩
    · have := Nat.find_le hlast (h := hex)
      omega
    · exact not_lt.mp (Nat.find_min hex (by omega))

end Groups

section Encode
variable {turns v : ℕ}

theorem groupBytes_pos (turns v : ℕ) : 0 < (groupBytes (turns+1) v).length := by
  rw [groupBytes]
  split_ifs
  · exact Nat.succ_pos _
  · exact Nat.one_pos

theorem groupBytes_length_le (turns v : ℕ) : (groupBytes turns v).length ≤ turns := by
  induction turns generalizing v with
  | zero => exact le_refl 0
  | succ turns ih =>
    rw [groupBytes]
    split_ifs
    · exact Nat.succ_le_succ (ih (v/128))
    · exact Nat.succ_le_succ (Nat.zero_le turns)

/-- A number takes no more groups than it has to. -/
theorem groupBytes_length_le_of_lt {n : ℕ} (hn : 0 < n) (h : v < 128^n) :
    (groupBytes turns v).length ≤ n := by
  induction turns generalizing v n with
  | zero => exact Nat.zero_le n
  | succ turns ih =>
    rw [groupBytes]
    split_ifs with hv
    · obtain ⟨n, rfl⟩ := Nat.exists_eq_add_of_lt hn
      rw [Nat.zero_add, pow_succ] at h
      have hrest : v/128 < 128^n := Nat.div_lt_of_lt_mul (by rwa [Nat.mul_comm])
      rcases Nat.eq_zero_or_pos n with rfl | hpos
      · rw [pow_zero] at hrest
        exact absurd (Nat.lt_one_iff.mp hrest) hv
      · have := ih hpos hrest
        rw [List.length_cons]
        omega
    · exact hn

theorem lt_groupBytes_length {k : ℕ} (hk : k < turns) (h : 128^k ≤ v) :
    k < (groupBytes turns v).length := by
  induction turns generalizing v k with
  | zero => omega
  | succ turns ih =>
    rcases k with _ | k
    · exact groupBytes_pos turns v
    · have hdiv : 128^k ≤ v/128 := by
        rw [pow_succ] at h
        exact (Nat.le_div_iff_mul_le (by decide)).mpr h
      have hpos : 0 < 128^k := by positivity
      rw [groupBytes, if_pos (by omega), List.length_cons]
      exact Nat.succ_lt_succ (ih (Nat.lt_of_succ_lt_succ hk) hdiv)

theorem shift_cons (b : UInt8) (bs : List UInt8) : shift (ofList (b :: bs)) 1 = ofList bs := by
  funext i
  rw [shift_apply, Nat.add_comm, ofList, ofList, List.getD_cons_succ]

theorem EndsAt.cons {b : UInt8} {bs : List UInt8} {n : ℕ} (hb : 128 ≤ b.toNat)
    (h : EndsAt (ofList bs) n) : EndsAt (ofList (b :: bs)) (n+1) := by
  refine ⟨Nat.succ_pos n, fun i hi => ?_, ?_⟩
  · rcases i with _ | i
    · exact hb
    · exact h.more i (by omega)
  · obtain ⟨n, rfl⟩ := Nat.exists_eq_add_of_lt h.pos
    exact h.last

/-- What is read of a number that was written, whatever follows. -/
theorem groupBytes_endsAt (s : List UInt8) (hv : v < 128^(turns+1)) :
    EndsAt (ofList (groupBytes (turns+1) v ++ s)) (groupBytes (turns+1) v).length ∧
      groupSum (ofList (groupBytes (turns+1) v ++ s)) (groupBytes (turns+1) v).length = v := by
  -- a number in one byte
  have hone (v : ℕ) (hsmall : v/128 = 0) : EndsAt (ofList ([UInt8.ofNat (v%128)] ++ s)) 1 ∧
      groupSum (ofList ([UInt8.ofNat (v%128)] ++ s)) 1 = v := by
    have hbyte : (ofList ([UInt8.ofNat (v%128)] ++ s) 0).toNat = v%128 := by
      rw [ofList, List.singleton_append, List.getD_cons_zero, UInt8.toNat_ofNat']
      omega
    refine ⟨⟨Nat.one_pos, fun i hi => by omega, by rw [hbyte]; omega⟩, ?_⟩
    rw [groupSum, Finset.sum_range_one, hbyte]
    omega
  induction turns generalizing v with
  | zero =>
    have hsmall : v/128 = 0 := Nat.div_eq_of_lt (by simpa using hv)
    rw [groupBytes, if_neg (by omega)]
    exact hone v hsmall
  | succ turns ih =>
    rw [groupBytes]
    split_ifs with hmore
    · have hrest : v/128 < 128^(turns+1) := Nat.div_lt_of_lt_mul (by rwa [pow_succ'] at hv)
      have hbyte : (UInt8.ofNat (v%128+128)).toNat = v%128+128 := by
        rw [UInt8.toNat_ofNat']
        omega
      obtain ⟨hends, hsum⟩ := ih hrest
      rw [List.length_cons, List.cons_append]
      refine ⟨hends.cons (by omega), ?_⟩
      rw [groupSum_shift, shift_cons, hsum, ofList, List.getD_cons_zero, hbyte]
      omega
    · exact hone v (not_not.mp hmore)

end Encode

section Loop
variable {β ε : Type} (add : ℕ → UInt8 → β → β) (tooLong tooFar : ε) (sizeMax maxLen : ℕ)

/-- The loop that reads groups: `none` if it fetches a byte that the buffer does not have. -/
def readGroups (buf : ℕ → Option UInt8) : ℕ → ℕ → β → Option (Except ε (β × ℕ))
  | 0, _, _ => some (.error tooLong)
  | turns+1, i, result => do
    let tmp ← buf i
    let result := add i tmp result
    let i := i+1
    if i > sizeMax then return .error tooLong
    else if i > maxLen then return .error tooFar
    else if tmp &&& 0x80 ≠ 0 then readGroups buf turns i result
    else return .ok (result, i)

/-- What the first `n` groups add up to. -/
def foldGroups (init : β) (mem : Mem) : ℕ → β
  | 0 => init
  | n+1 => add n (mem n) (foldGroups init mem n)

/-- A buffer that ends after `n` bytes. -/
def firstBytes (mem : Mem) (n : ℕ) : ℕ → Option UInt8 := fun i => if i < n then some (mem i) else none

/-- A loop that takes the same turns on a memory comes to the same end. -/
theorem readGroups_eq_loop {mem : Mem} {loop : ℕ → ℕ → β → Except ε (β × ℕ)}
    (hloop : ∀ turns i result, loop (turns+1) i result =
      if i+1 > sizeMax then .error tooLong
      else if i+1 > maxLen then .error tooFar
      else if mem i &&& 0x80 ≠ 0 then loop turns (i+1) (add i (mem i) result)
      else .ok (add i (mem i) result, i+1))
    (turns i : ℕ) (hi : i ≤ sizeMax) (ht : i+turns = sizeMax+1) (result : β) :
    readGroups add tooLong tooFar sizeMax maxLen (fun k => some (mem k)) turns i result =
      some (loop turns i result) := by
  induction turns generalizing i result with
  | zero => omega
  | succ turns ih =>
    rw [readGroups, hloop]
    simp only [Option.bind_eq_bind, Option.bind_some]
    by_cases hsize : i+1 > sizeMax
    · rw [if_pos hsize, if_pos hsize]
      rfl
    · rw [if_neg hsize, if_neg hsize]
      by_cases hmax : i+1 > maxLen
      · rw [if_pos hmax, if_pos hmax]
        rfl
      · rw [if_neg hmax, if_neg hmax]
        by_cases hmore : mem i &&& 0x80 ≠ 0
        · rw [if_pos hmore, if_pos hmore]
          exact ih (i+1) (by omega) (by omega) (add i (mem i) result)
        · rw [if_neg hmore, if_neg hmore]
          rfl

theorem follower_iff (b : UInt8) : b &&& 0x80 ≠ 0 ↔ 128 ≤ b.toNat := by
  revert b
  decide +kernel

variable {mem : Mem} {buf : ℕ → Option UInt8} (init : β)

/-- A number that ends within the limits is read, and nothing behind it. -/
theorem readGroups_endsAt {n : ℕ} (h : EndsAt mem n) (hs : n ≤ sizeMax) (hm : n ≤ maxLen)
    (hbuf : ∀ i < n, buf i = some (mem i)) (turns i : ℕ) (hi : i < n) (ht : i+turns = sizeMax+1) :
    readGroups add tooLong tooFar sizeMax maxLen buf turns i (foldGroups add init mem i) =
      some (.ok (foldGroups add init mem n, n)) := by
  induction turns generalizing i with
  | zero => omega
  | succ turns ih =>
    rw [readGroups, hbuf i hi]
    simp only [Option.bind_eq_bind, Option.bind_some, show ¬ i+1 > sizeMax by omega,
      show ¬ i+1 > maxLen by omega, ↓reduceIte, follower_iff]
    by_cases hlast : i+1 = n
    · subst hlast
      have hend := h.last
      rw [Nat.add_sub_cancel] at hend
      rw [if_neg (by omega)]
      rfl
    · rw [if_pos (h.more i (by omega))]
      exact ih (i+1) (by omega) (by omega)

/-- If every byte within the limits has a follower, then the byte behind them is fetched, and
refused. -/
theorem readGroups_open (hmore : ∀ i < min sizeMax maxLen, 128 ≤ (mem i).toNat)
    (hbuf : ∀ i < min sizeMax maxLen, buf i = some (mem i)) (turns i : ℕ)
    (hi : i ≤ min sizeMax maxLen) (ht : i+turns = sizeMax+1) (result : β) :
    readGroups add tooLong tooFar sizeMax maxLen buf turns i result =
      (buf (min sizeMax maxLen)).map fun _ => .error (if sizeMax ≤ maxLen then tooLong else tooFar) := by
  induction turns generalizing i result with
  | zero => omega
  | succ turns ih =>
    rw [readGroups]
    -- the byte is fetched before the limits are looked at
    by_cases hlast : i = min sizeMax maxLen
    · rw [← hlast]
      rcases buf i with _ | tmp
      · rfl
      · simp only [Option.bind_eq_bind, Option.bind_some, Option.map_some]
        by_cases hsize : sizeMax ≤ maxLen
        · rw [if_pos (by omega), if_pos hsize]
          rfl
        · rw [if_neg (by omega), if_pos (by omega), if_neg hsize]
          rfl
    · rw [hbuf i (by omega)]
      simp only [Option.bind_eq_bind, Option.bind_some, show ¬ i+1 > sizeMax by omega,
        show ¬ i+1 > maxLen by omega, ↓reduceIte, follower_iff, hmore i (by omega)]
      exact ih (i+1) (by omega) (by omega) _

/-- The loop keeps to the first `min sizeMax maxLen` bytes if and only if one of them has no
follower. -/
theorem readGroups_within_iff : (readGroups add tooLong tooFar sizeMax maxLen
      (firstBytes mem (min sizeMax maxLen)) (sizeMax+1) 0 init).isSome = true ↔
    ∃ i < min sizeMax maxLen, (mem i).toNat < 128 := by
  have hbuf (n : ℕ) (hn : n ≤ min sizeMax maxLen) (i : ℕ) (hi : i < n) :
      firstBytes mem (min sizeMax maxLen) i = some (mem i) := if_pos (by omega)
  rw [← exists_endsAt_iff]
  constructor
  · intro h
    by_contra hnone
    rw [exists_endsAt_iff] at hnone
    push Not at hnone
    rw [readGroups_open add tooLong tooFar sizeMax maxLen hnone (hbuf _ le_rfl) _ 0
      (Nat.zero_le _) (Nat.zero_add _), firstBytes, if_neg (lt_irrefl _)] at h
    cases h
  · rintro ⟨n, hn, h⟩
    have hread := readGroups_endsAt add tooLong tooFar sizeMax maxLen init h (by omega) (by omega)
      (hbuf n hn) (sizeMax+1) 0 h.pos (Nat.zero_add _)
    rw [foldGroups] at hread
    rw [hread]
    rfl

end Loop

end Leb128
