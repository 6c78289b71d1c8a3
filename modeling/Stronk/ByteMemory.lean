import Mathlib

/-! Byte memory seen from a pointer. A memory is total: what lies past the end of an
object is whatever happens to be there, and no statement may depend on it. -/
namespace ByteMemory

/-- The bytes at and after a pointer. -/
abbrev Mem := ℕ → UInt8

/-- Pointer arithmetic: the memory seen from `k` bytes further on. -/
def shift (m : Mem) (k : ℕ) : Mem := fun i => m (k+i)

/-- The first `n` bytes. -/
def read (m : Mem) (n : ℕ) : List UInt8 := (List.range n).map m

/-- Store `bs` at offset `off`. -/
def write (m : Mem) (off : ℕ) (bs : List UInt8) : Mem := fun i =>
  if off ≤ i ∧ i < off+bs.length then bs.getD (i-off) 0 else m i

/-- `memmove(m, m + src, n)`. -/
def moveDown (m : Mem) (src n : ℕ) : Mem := fun i => if i < n then m (src+i) else m i

/-- An object holding exactly `bs`, followed by zeros. -/
def ofList (bs : List UInt8) : Mem := fun i => bs.getD i 0

def AgreeOn (n : ℕ) (a b : Mem) : Prop := ∀ i < n, a i = b i

theorem agreeOn_refl (n : ℕ) (a : Mem) : AgreeOn n a a := fun _ _ => rfl

theorem agreeOn_symm {n : ℕ} {a b : Mem} (h : AgreeOn n a b) : AgreeOn n b a :=
  fun i hi => (h i hi).symm

theorem agreeOn_mono {n k : ℕ} {a b : Mem} (h : AgreeOn n a b) (hk : k ≤ n) : AgreeOn k a b :=
  fun i hi => h i (by omega)

theorem agreeOn_shift {n k r : ℕ} {a b : Mem} (h : AgreeOn n a b) (hk : k+r ≤ n) :
    AgreeOn r (shift a k) (shift b k) :=
  fun i hi => h (k+i) (by omega)

@[simp] theorem shift_apply (m : Mem) (k i : ℕ) : shift m k i = m (k+i) := rfl

@[simp] theorem shift_zero (m : Mem) : shift m 0 = m := by
  funext i
  simp

@[simp] theorem shift_shift (m : Mem) (k l : ℕ) : shift (shift m k) l = shift m (k+l) := by
  funext i
  simp only [shift_apply, Nat.add_assoc]

@[simp] theorem read_length (m : Mem) (n : ℕ) : (read m n).length = n := by
  simp [read]

@[simp] theorem read_getElem (m : Mem) (n i : ℕ) (h : i < (read m n).length) :
    (read m n)[i] = m i := by
  simp [read]

/-- Reading `n` bytes sees exactly the first `n` bytes. -/
theorem read_eq_iff (a b : Mem) (n : ℕ) : read a n = read b n ↔ AgreeOn n a b := by
  constructor
  · intro h i hi
    have hg := List.getElem_of_eq h (by simpa using hi)
    simpa using hg
  · intro h
    apply List.ext_getElem
    · simp
    · intro i hi _
      simpa using h i (by simpa using hi)

theorem read_add (m : Mem) (k n : ℕ) : read m (k+n) = read m k ++ read (shift m k) n := by
  apply List.ext_getElem
  · simp
  · intro i hi _
    by_cases hk : i < k
    · simp [hk]
    · simp [List.getElem_append, hk, show k+(i-k) = i by omega]

theorem read_drop (m : Mem) (k n : ℕ) (h : k ≤ n) : (read m n).drop k = read (shift m k) (n-k) := by
  obtain ⟨r, rfl⟩ := Nat.exists_eq_add_of_le h
  rw [read_add, List.drop_append_of_le_length (by simp)]
  simp

theorem read_take (m : Mem) (k n : ℕ) (h : k ≤ n) : (read m n).take k = read m k := by
  obtain ⟨r, rfl⟩ := Nat.exists_eq_add_of_le h
  rw [read_add, List.take_append_of_le_length (by simp)]
  simp

/-- An object agrees with the memory it was read from, up to its length. -/
theorem ofList_read (m : Mem) (n : ℕ) : AgreeOn n (ofList (read m n)) m := by
  intro i hi
  simp [ofList, List.getD_eq_getElem?_getD, hi]

theorem ofList_append (a b : List UInt8) : AgreeOn a.length (ofList (a ++ b)) (ofList a) := by
  intro i hi
  simp only [ofList, List.getD_eq_getElem?_getD, List.getElem?_append_left hi]

theorem read_ofList (bs : List UInt8) : read (ofList bs) bs.length = bs := by
  apply List.ext_getElem
  · simp
  · intro i _ hi
    simp [ofList, List.getD_eq_getElem?_getD, List.getElem?_eq_getElem hi]

/-- An object holds one list behind another if and only if it holds each where it belongs. -/
theorem agreeOn_append_iff (m : Mem) (xs ys : List UInt8) :
    AgreeOn (xs ++ ys).length m (ofList (xs ++ ys)) ↔
      AgreeOn xs.length m (ofList xs) ∧ AgreeOn ys.length (shift m xs.length) (ofList ys) := by
  constructor
  · intro h
    constructor
    · intro i hi
      rw [h i (by rw [List.length_append]; omega)]
      exact ofList_append xs ys i hi
    · intro i hi
      rw [shift_apply, h _ (by rw [List.length_append]; omega), ofList, ofList,
        List.getD_append_right _ _ _ _ (by omega), Nat.add_sub_cancel_left]
  · rintro ⟨hx, hy⟩ i hi
    rcases lt_or_ge i xs.length with hlt | hge
    · rw [hx i hlt]
      exact (ofList_append xs ys i hlt).symm
    · have h := hy (i-xs.length) (by rw [List.length_append] at hi; omega)
      rw [shift_apply, Nat.add_sub_of_le hge] at h
      rw [h, ofList, ofList, List.getD_append_right _ _ _ _ hge]

theorem read_of_agreeOn {m : Mem} {bs : List UInt8} (h : AgreeOn bs.length m (ofList bs)) :
    read m bs.length = bs := by
  rw [(read_eq_iff _ _ _).mpr h, read_ofList]

/-- A store leaves the other bytes alone. -/
theorem write_outside (m : Mem) (off : ℕ) (bs : List UInt8) {i : ℕ}
    (h : i < off ∨ off+bs.length ≤ i) : write m off bs i = m i := by
  rw [write, if_neg (by omega)]

/-- What was stored is there. -/
theorem read_write_same (m : Mem) (off : ℕ) (bs : List UInt8) :
    read (shift (write m off bs) off) bs.length = bs := by
  apply List.ext_getElem
  · simp
  · intro i _ hi
    simp [write, hi]

/-- Appending `bs` at the end of the first `n` bytes. -/
theorem read_write_end (m : Mem) (n : ℕ) (bs : List UInt8) :
    read (write m n bs) (n+bs.length) = read m n ++ bs := by
  rw [read_add]
  congr 1
  · apply (read_eq_iff _ _ _).mpr
    intro i hi
    exact write_outside m n bs (.inl hi)
  · exact read_write_same m n bs

/-- Bytes stored right before others are read together with them. -/
theorem read_write_before (m : Mem) (off : ℕ) (as bs : List UInt8) :
    read (shift (write (write m (off+as.length) bs) off as) off) (as.length+bs.length) =
      as ++ bs := by
  apply List.ext_getElem
  · simp
  · intro i h1 h2
    rw [read_length] at h1
    rw [read_getElem, shift_apply, List.getElem_append]
    by_cases hi : i < as.length
    · simp [write, hi]
    · have hge : as.length ≤ i := not_lt.mp hi
      have hbs : i-as.length < bs.length := by omega
      have hsub : off+i-(off+as.length) = i-as.length := by omega
      have hlt : off+i < off+as.length+bs.length := by omega
      simp [write, hi, hge, hsub, hlt, hbs]

theorem write_inside (m : Mem) {off i : ℕ} {bs : List UInt8} (h : off ≤ i)
    (h' : i < off+bs.length) : write m off bs i = bs.getD (i-off) 0 := by
  rw [write, if_pos ⟨h, h'⟩]

theorem write_append (m : Mem) (off : ℕ) (as bs : List UInt8) :
    write m off (as ++ bs) = write (write m off as) (off+as.length) bs := by
  have hlength : (as ++ bs).length = as.length+bs.length := List.length_append
  funext i
  have hwhole (h : off ≤ i) (h' : i < off+as.length+bs.length) :
      write m off (as ++ bs) i = (as ++ bs).getD (i-off) 0 := write_inside m h (by omega)
  by_cases hbs : off+as.length ≤ i ∧ i < off+as.length+bs.length
  · have hsub : i-off-as.length = i-(off+as.length) := by omega
    rw [hwhole (by omega) hbs.2, write_inside _ hbs.1 hbs.2,
      List.getD_append_right _ _ _ _ (by omega), hsub]
  · rw [write_outside (write m off as) _ _ (by omega)]
    by_cases has : off ≤ i ∧ i < off+as.length
    · rw [hwhole has.1 (by omega), write_inside _ has.1 has.2,
        List.getD_append _ _ _ _ (by omega)]
    · rw [write_outside m off as (by omega), write_outside m off (as ++ bs) (by omega)]

/-- A store over another one of the same length or less is all that is left of it. -/
theorem write_write (m : Mem) (off : ℕ) {as bs : List UInt8} (h : as.length ≤ bs.length) :
    write (write m off as) off bs = write m off bs := by
  funext i
  by_cases hbs : off ≤ i ∧ i < off+bs.length
  · rw [write_inside _ hbs.1 hbs.2, write_inside _ hbs.1 hbs.2]
  · rw [write_outside _ off bs (by omega), write_outside _ off as (by omega),
      write_outside m off bs (by omega)]

/-- Moving the tail down leaves the tail at the front. -/
theorem read_moveDown (m : Mem) (src n : ℕ) : read (moveDown m src n) n = read (shift m src) n := by
  apply (read_eq_iff _ _ _).mpr
  intro i hi
  simp [moveDown, hi]

end ByteMemory
