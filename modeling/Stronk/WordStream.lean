import Mathlib

/-! Numbers packed into words: the bits of a stream of words, least significant first, and the number
whose digits the words are. -/
namespace WordStream

/-- Bit `p` of a stream of words of `w` bits. -/
def streamBit (w : ℕ) (words : List ℕ) (p : ℕ) : Bool := (words.getD (p/w) 0).testBit (p%w)

variable {w : ℕ}

theorem digit_ofDigits (words : List ℕ) (hfit : ∀ d ∈ words, d < 2^w) (i : ℕ)
    (hi : i < words.length) : Nat.ofDigits (2^w) words/2^(w*i)%2^w = words[i] := by
  have hdrop : words.drop i = words[i] :: words.drop (i+1) := List.drop_eq_getElem_cons hi
  rw [pow_mul, Nat.ofDigits_div_pow_eq_ofDigits_drop i (Nat.two_pow_pos w) words hfit, hdrop,
    Nat.ofDigits_cons, Nat.add_mul_mod_self_left]
  exact Nat.mod_eq_of_lt (hfit _ (List.getElem_mem hi))

theorem testBit_ofDigits (hw : 0 < w) (words : List ℕ) (hfit : ∀ d ∈ words, d < 2^w) (p : ℕ)
    (hp : p/w < words.length) : (Nat.ofDigits (2^w) words).testBit p = streamBit w words p := by
  have hsplit : p%w+w*(p/w) = p := Nat.mod_add_div p w
  have hdigit := digit_ofDigits words hfit (p/w) hp
  have hmod : p%w < w := Nat.mod_lt p hw
  calc (Nat.ofDigits (2^w) words).testBit p
      = (Nat.ofDigits (2^w) words/2^(w*(p/w))).testBit (p%w) := by
        rw [Nat.testBit_div_two_pow, hsplit]
    _ = (Nat.ofDigits (2^w) words/2^(w*(p/w))%2^w).testBit (p%w) := by
        rw [Nat.testBit_mod_two_pow, decide_eq_true hmod, Bool.true_and]
    _ = streamBit w words p := by
        rw [hdigit, streamBit, List.getD_eq_getElem _ _ hp]

/-- The same number packed into words of two widths has the same bits. -/
theorem streamBit_repacked {v : ℕ} (hw : 0 < w) (hv : 0 < v) {as bs : List ℕ}
    (has : ∀ d ∈ as, d < 2^w) (hbs : ∀ d ∈ bs, d < 2^v)
    (h : Nat.ofDigits (2^w) as = Nat.ofDigits (2^v) bs) (p : ℕ) (ha : p/w < as.length)
    (hb : p/v < bs.length) : streamBit w as p = streamBit v bs p := by
  rw [← testBit_ofDigits hw as has p ha, h, testBit_ofDigits hv bs hbs p hb]

theorem streamBit_mul_add (words : List ℕ) {i j : ℕ} (hj : j < w) :
    streamBit w words (w*i+j) = (words.getD i 0).testBit j := by
  have hdiv : (w*i+j)/w = i := by
    rw [Nat.mul_add_div (by omega), Nat.div_eq_of_lt hj, Nat.add_zero]
  rw [streamBit, hdiv, Nat.mul_add_mod, Nat.mod_eq_of_lt hj]

/-- Where every element is stored in `n` places, the `k`-th one is found behind `n*k` of them. -/
theorem flatMap_block {α β : Type} (f : α → List β) (n : ℕ) (hf : ∀ a, (f a).length = n)
    (as : List α) (k : ℕ) (hk : k < as.length) : ((as.flatMap f).drop (n*k)).take n = f as[k] := by
  induction as generalizing k with
  | nil => simp at hk
  | cons a as ih =>
    rw [List.flatMap_cons]
    cases k with
    | zero =>
      rw [Nat.mul_zero, List.drop_zero, List.take_append_of_le_length (le_of_eq (hf a).symm)]
      exact List.take_of_length_le (le_of_eq (hf a))
    | succ k =>
      have hskip : n*(k+1) = (f a).length+n*k := by rw [hf a]; ring
      rw [hskip, List.drop_append, List.drop_of_length_le (by omega), List.nil_append,
        Nat.add_sub_cancel_left]
      exact ih k (by simpa using hk)

end WordStream
