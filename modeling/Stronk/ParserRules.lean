import Stronk.ByteParser

/-! Rules for parsers: what they yield, from the bytes they take off the front, and that a parser
with a counter is the same for every counter that is large enough. -/
namespace ByteParser

variable {α β : Type}

section Yields

/-- Where `p` succeeds, it takes bytes off the front, and `P` holds of them and of the result. -/
def Yields (p : Parser α) (P : List UInt8 → α → Prop) : Prop :=
  ∀ bs a rest, p.run bs = some (a, rest) → ∃ taken, bs = taken ++ rest ∧ P taken a

variable {p : Parser α} {f : α → Parser β} {P : List UInt8 → α → Prop} {Q : List UInt8 → β → Prop}

theorem Yields.mono {P' : List UInt8 → α → Prop} (h : Yields p P) (hP : ∀ bs a, P bs a → P' bs a) :
    Yields p P' := by
  intro bs a rest hp
  obtain ⟨taken, htaken, hPa⟩ := h bs a rest hp
  exact ⟨taken, htaken, hP taken a hPa⟩

theorem yields_pure {a : α} (h : P [] a) : Yields (pure a) P := by
  intro bs b rest hp
  cases hp
  exact ⟨[], rfl, h⟩

theorem yields_failure : Yields (failure : Parser α) P := by
  intro bs a rest hp
  cases hp

theorem Yields.bind (hp : Yields p P)
    (hf : ∀ taken a, P taken a → Yields (f a) fun more b => Q (taken ++ more) b) :
    Yields (p >>= f) Q := by
  intro bs b rest h
  rw [StateT.run_bind] at h
  cases hfirst : p.run bs with
  | none =>
    rw [hfirst] at h
    cases h
  | some r =>
    rw [hfirst] at h
    obtain ⟨taken, rfl, hP⟩ := hp bs r.1 r.2 hfirst
    obtain ⟨more, hmore, hQ⟩ := hf taken r.1 hP r.2 b rest h
    exact ⟨taken ++ more, by rw [hmore, List.append_assoc], hQ⟩

theorem yields_byte : Yields byte fun bs b => bs = [b] := by
  intro bs b rest h
  cases bs with
  | nil => cases h
  | cons c cs =>
    cases h
    exact ⟨[b], rfl, rfl⟩

theorem yields_bytes (n : ℕ) : Yields (bytes n) fun bs as => bs = as ∧ as.length = n := by
  intro bs as rest h
  rw [StateT.run, bytes] at h
  split_ifs at h with hle
  cases h
  exact ⟨bs.take n, (List.take_append_drop n bs).symm, rfl, List.length_take_of_le hle⟩

/-- One item after another, each with its own bytes. -/
theorem Yields.times (h : Yields p P) (n : ℕ) :
    Yields (times p n) fun bs as =>
      as.length = n ∧ ∃ parts : List (List UInt8), bs = parts.flatten ∧ List.Forall₂ P parts as := by
  induction n with
  | zero => exact yields_pure ⟨rfl, [], rfl, .nil⟩
  | succ n ih =>
    apply h.bind
    intro taken a ha
    apply ih.bind
    rintro more as ⟨hlength, parts, rfl, hparts⟩
    apply yields_pure
    refine ⟨by rw [List.length_cons, hlength], taken :: parts, ?_, hparts.cons ha⟩
    rw [List.append_nil, List.flatten_cons]

end Yields

section Local

/-- What `p` makes of an input depends only on what it takes off. -/
def Local (p : Parser α) : Prop := Yields p fun bs a => Reads p bs a

variable {p : Parser α} {f : α → Parser β}

theorem local_pure (a : α) : Local (pure a : Parser α) := yields_pure (Reads.pure a)

theorem local_failure : Local (failure : Parser α) := yields_failure

theorem Local.bind (hp : Local p) (hf : ∀ a, Local (f a)) : Local (p >>= f) := by
  apply Yields.bind hp
  intro taken a ha
  exact (hf a).mono fun more b hb => ha.bind hb

theorem local_byte : Local byte := by
  apply yields_byte.mono
  rintro _ b rfl
  exact reads_byte b

theorem local_bytes (n : ℕ) : Local (bytes n) := by
  apply (yields_bytes n).mono
  rintro bs as ⟨rfl, hlength⟩
  exact reads_bytes bs n hlength

theorem Local.times (hp : Local p) (n : ℕ) : Local (times p n) := by
  induction n with
  | zero => exact local_pure []
  | succ n ih => exact hp.bind fun a => ih.bind fun as => local_pure (a :: as)

theorem Local.ite {c : Prop} [Decidable c] {p q : Parser α} (hp : Local p) (hq : Local q) :
    Local (if c then p else q) := by
  split_ifs
  · exact hp
  · exact hq

end Local

section Agreement

/-- The two parsers do the same on every input that is shorter than `n`. -/
def Agree (n : ℕ) (p p' : Parser α) : Prop := ∀ bs, bs.length < n → p.run bs = p'.run bs

variable {n m k : ℕ} {p p' : Parser α} {f f' : α → Parser β}

theorem Agree.refl (n : ℕ) (p : Parser α) : Agree n p p := fun _ _ => rfl

theorem Agree.mono (h : Agree n p p') (hm : m ≤ n) : Agree m p p' :=
  fun bs hbs => h bs (Nat.lt_of_lt_of_le hbs hm)

/-- What `p` takes off makes the input of the rest shorter. -/
theorem Agree.bind (h : Agree n p p') (hp : Yields p fun bs _ => k ≤ bs.length)
    (hf : ∀ a, Agree (n-k) (f a) (f' a)) : Agree n (p >>= f) (p' >>= f') := by
  intro bs hbs
  rw [StateT.run_bind, StateT.run_bind, ← h bs hbs]
  cases hfirst : p.run bs with
  | none => rfl
  | some r =>
    obtain ⟨taken, rfl, hk⟩ := hp bs r.1 r.2 hfirst
    apply hf r.1 r.2
    rw [List.length_append] at hbs
    omega

theorem Agree.times (h : Agree n p p') (hp : Yields p fun _ _ => True) (count : ℕ) :
    Agree n (times p count) (times p' count) := by
  induction count with
  | zero => exact Agree.refl n _
  | succ count ih =>
    apply h.bind (hp.mono fun _ _ _ => Nat.zero_le _)
    intro a
    apply ih.bind (hp.times count |>.mono fun _ _ _ => Nat.zero_le _)
    exact fun as => Agree.refl _ _

end Agreement

end ByteParser
