import Mathlib

/-! Imperative programs that may leave early. -/
namespace EarlyExit

/-- A program over a state `σ` that returns an `α` or leaves early with an `ε`. The state
survives an early exit, as the objects of a caller survive a `return` from the middle. -/
structure Prog (σ : Type) (ε : Type) (α : Type) where
  run : σ → Except ε α × σ

variable {σ ε α β : Type}

instance : Monad (Prog σ ε) where
  pure a := ⟨fun s => (.ok a, s)⟩
  bind m f := ⟨fun s =>
    match m.run s with
    | (.ok a, s') => (f a).run s'
    | (.error e, s') => (.error e, s')⟩

def get : Prog σ ε σ := ⟨fun s => (.ok s, s)⟩

def modify (f : σ → σ) : Prog σ ε Unit := ⟨fun s => (.ok (), f s)⟩

def exit (e : ε) : Prog σ ε α := ⟨fun s => (.error e, s)⟩

/-- A program over a part of the state. -/
def zoom {τ : Type} (part : σ → τ) (put : τ → σ → σ) (m : Prog τ ε α) : Prog σ ε α := ⟨fun s =>
  ((m.run (part s)).1, put (m.run (part s)).2 s)⟩

section Run
variable (s : σ)

@[simp] theorem pure_run (a : α) : (pure a : Prog σ ε α).run s = (.ok a, s) := rfl

@[simp] theorem bind_run (m : Prog σ ε α) (f : α → Prog σ ε β) :
    (m >>= f).run s = match m.run s with
      | (.ok a, s') => (f a).run s'
      | (.error e, s') => (.error e, s') := rfl

@[simp] theorem get_run : (get : Prog σ ε σ).run s = (.ok s, s) := rfl

@[simp] theorem modify_run (f : σ → σ) :
    (modify f : Prog σ ε Unit).run s = (.ok (), f s) := rfl

@[simp] theorem exit_run (e : ε) : (exit e : Prog σ ε α).run s = (.error e, s) := rfl

@[simp] theorem zoom_run {τ : Type} (part : σ → τ) (put : τ → σ → σ) (m : Prog τ ε α) :
    (zoom part put m).run s = ((m.run (part s)).1, put (m.run (part s)).2 s) := rfl

@[simp] theorem ite_run (c : Prop) [Decidable c] (m k : Prog σ ε α) :
    (if c then m else k).run s = if c then m.run s else k.run s := by
  split <;> rfl

end Run

/-- Whatever a program does, the state it leaves behind is `R`-related to the one before. -/
def Moves (R : σ → σ → Prop) (m : Prog σ ε α) : Prop := ∀ s, R s (m.run s).2

section Moves
variable {R : σ → σ → Prop} [IsPreorder σ R]

theorem Moves.pure (a : α) : Moves R (pure a : Prog σ ε α) := fun s => refl_of R s

theorem Moves.exit (e : ε) : Moves R (exit e : Prog σ ε α) := fun s => refl_of R s

theorem Moves.get : Moves R (get : Prog σ ε σ) := fun s => refl_of R s

omit [IsPreorder σ R] in
theorem Moves.modify {f : σ → σ} (h : ∀ s, R s (f s)) : Moves R (modify f : Prog σ ε Unit) := h

theorem Moves.bind {m : Prog σ ε α} {f : α → Prog σ ε β} (hm : Moves R m)
    (hf : ∀ a, Moves R (f a)) : Moves R (m >>= f) := by
  intro s
  have h := hm s
  rw [bind_run]
  rcases hr : m.run s with ⟨e | a, s'⟩ <;> rw [hr] at h
  · exact h
  · exact trans_of R h (hf a s')

omit [IsPreorder σ R] in
theorem Moves.ite {c : Prop} [Decidable c] {m k : Prog σ ε α} (hm : Moves R m)
    (hk : Moves R k) : Moves R (if c then m else k) := by
  split
  · exact hm
  · exact hk

end Moves

/-- The state after a program satisfies `P` if the state before does. -/
def Keeps (P : σ → Prop) (m : Prog σ ε α) : Prop := ∀ s, P s → P (m.run s).2

section Keeps
variable {P : σ → Prop}

theorem Keeps.pure (a : α) : Keeps P (pure a : Prog σ ε α) := fun _ h => h

theorem Keeps.exit (e : ε) : Keeps P (exit e : Prog σ ε α) := fun _ h => h

theorem Keeps.get_bind {f : σ → Prog σ ε α} (hf : ∀ s, Keeps P (f s)) : Keeps P (get >>= f) :=
  fun s h => hf s s h

theorem Keeps.ite {c : Prop} [Decidable c] {m k : Prog σ ε α} (hm : Keeps P m)
    (hk : Keeps P k) : Keeps P (if c then m else k) := by
  split
  · exact hm
  · exact hk

theorem Keeps.bind {m : Prog σ ε α} {f : α → Prog σ ε β} (hm : Keeps P m)
    (hf : ∀ a, Keeps P (f a)) : Keeps P (m >>= f) := by
  intro s h
  have hs := hm s h
  rw [bind_run]
  rcases hr : m.run s with ⟨e | a, s'⟩ <;> rw [hr] at hs
  · exact hs
  · exact hf a s' hs

end Keeps

/-- From `s` a program returns, with a result and in a state that satisfy `Q`. -/
def Returns (m : Prog σ ε α) (s : σ) (Q : α → σ → Prop) : Prop :=
  ∃ a t, m.run s = (.ok a, t) ∧ Q a t

section Returns
variable {s : σ} {Q : β → σ → Prop}

theorem Returns.pure {b : β} (h : Q b s) : Returns (pure b : Prog σ ε β) s Q := ⟨b, s, rfl, h⟩

theorem Returns.bind {m : Prog σ ε α} {f : α → Prog σ ε β} {P : α → σ → Prop}
    (hm : Returns m s P) (hf : ∀ a t, P a t → Returns (f a) t Q) : Returns (m >>= f) s Q := by
  obtain ⟨a, t, hr, h⟩ := hm
  obtain ⟨b, u, hr', h'⟩ := hf a t h
  exact ⟨b, u, by simp only [bind_run, hr, hr'], h'⟩

theorem Returns.mono {P : β → σ → Prop} {m : Prog σ ε β} (hm : Returns m s P)
    (h : ∀ b t, P b t → Q b t) : Returns m s Q := by
  obtain ⟨b, t, hr, hp⟩ := hm
  exact ⟨b, t, hr, h b t hp⟩

/-- There is one run, so what is known of its end can be put together. -/
theorem Returns.and {P : β → σ → Prop} {m : Prog σ ε β} (hm : Returns m s P)
    (h : Returns m s Q) : Returns m s fun b t => P b t ∧ Q b t := by
  obtain ⟨b, t, hr, hp⟩ := hm
  obtain ⟨b', t', hr', hq⟩ := h
  rw [hr] at hr'
  cases hr'
  exact ⟨b, t, hr, hp, hq⟩

end Returns

/-- From a state that satisfies `P` a program returns with a result and a state that satisfy `Q`,
or leaves early in a state that satisfies `E`. -/
def Ensures (P : σ → Prop) (m : Prog σ ε α) (Q : α → σ → Prop) (E : σ → Prop) : Prop :=
  ∀ s, P s → (∀ a, (m.run s).1 = .ok a → Q a (m.run s).2) ∧
    ∀ e, (m.run s).1 = .error e → E (m.run s).2

section Ensures
variable {P : σ → Prop} {Q : α → σ → Prop} {R : β → σ → Prop} {E : σ → Prop}

theorem Ensures.pure {a : α} (h : ∀ s, P s → Q a s) : Ensures P (pure a : Prog σ ε α) Q E := by
  intro s hs
  refine ⟨fun b hb => ?_, fun e he => by cases he⟩
  cases hb
  exact h s hs

theorem Ensures.exit {e : ε} (h : ∀ s, P s → E s) : Ensures P (exit e : Prog σ ε α) Q E := by
  intro s hs
  exact ⟨fun b hb => (by cases hb), fun _ _ => h s hs⟩

theorem Ensures.get {Q : σ → σ → Prop} (h : ∀ s, P s → Q s s) :
    Ensures P (get : Prog σ ε σ) Q E := by
  intro s hs
  refine ⟨fun b hb => ?_, fun e he => by cases he⟩
  cases hb
  exact h s hs

theorem Ensures.modify {f : σ → σ} {Q : Unit → σ → Prop} (h : ∀ s, P s → Q () (f s)) :
    Ensures P (modify f : Prog σ ε Unit) Q E := by
  intro s hs
  exact ⟨fun _ _ => h s hs, fun e he => by cases he⟩

theorem Ensures.bind {m : Prog σ ε α} {f : α → Prog σ ε β} (hm : Ensures P m Q E)
    (hf : ∀ a, Ensures (Q a) (f a) R E) : Ensures P (m >>= f) R E := by
  intro s hs
  have h := hm s hs
  rw [bind_run]
  rcases hr : m.run s with ⟨e | a, t⟩ <;> rw [hr] at h
  · exact ⟨fun b hb => (by cases hb), fun _ _ => h.2 e rfl⟩
  · exact hf a t (h.1 a rfl)

theorem Ensures.ite {c : Prop} [Decidable c] {m k : Prog σ ε α} (hm : c → Ensures P m Q E)
    (hk : ¬ c → Ensures P k Q E) : Ensures P (if c then m else k) Q E := by
  split
  · exact hm ‹_›
  · exact hk ‹_›

theorem Ensures.mono {P' : σ → Prop} {Q' : α → σ → Prop} {E' : σ → Prop} {m : Prog σ ε α}
    (h : Ensures P m Q E) (hp : ∀ s, P' s → P s) (hq : ∀ a s, Q a s → Q' a s)
    (he : ∀ s, E s → E' s) : Ensures P' m Q' E' := by
  intro s hs
  have h := h s (hp s hs)
  exact ⟨fun a ha => hq a _ (h.1 a ha), fun e hr => he _ (h.2 e hr)⟩

theorem Keeps.ensures {m : Prog σ ε α} (h : Keeps P m) : Ensures P m (fun _ => P) P :=
  fun s hs => ⟨fun _ _ => h s hs, fun _ _ => h s hs⟩

theorem Ensures.of_returns {m : Prog σ ε α} (h : ∀ s, P s → Returns m s Q) :
    Ensures P m Q fun _ => False := by
  intro s hs
  obtain ⟨a, t, hr, hq⟩ := h s hs
  rw [hr]
  refine ⟨fun b hb => ?_, fun e he => by cases he⟩
  cases hb
  exact hq

/-- What a program does whatever happens is what it ensures. -/
theorem Ensures.of_moves {S : σ → σ → Prop} {m : Prog σ ε α} (h : Moves S m)
    (hq : ∀ s t, P s → S s t → (∀ a, Q a t) ∧ E t) : Ensures P m Q E := by
  intro s hs
  have h := hq s _ hs (h s)
  exact ⟨fun a _ => h.1 a, fun _ _ => h.2⟩

end Ensures

section Runs
variable {ι : Type}

/-- Calls one after another, each of them admitted in the state it is made in. A call that
leaves early is the last one. -/
inductive Reaches (call : ι → Prog σ ε α) (admits : σ → ι → Prop) (s : σ) :
    Except ε Unit → σ → Prop
  | start : Reaches call admits s (.ok ()) s
  | call {t : σ} (i : ι) : Reaches call admits s (.ok ()) t → admits t i →
      Reaches call admits s (((call i).run t).1.map fun _ => ()) ((call i).run t).2

/-- What every admitted call keeps holds of every state reached. -/
theorem Reaches.invariant {call : ι → Prog σ ε α} {admits : σ → ι → Prop} {s t : σ}
    {r : Except ε Unit} {P : σ → Prop} (h0 : P s)
    (hcall : ∀ u i, admits u i → P u → P ((call i).run u).2)
    (h : Reaches call admits s r t) : P t := by
  induction h with
  | start => exact h0
  | call i _ hi ih => exact hcall _ i hi ih

/-- What every admitted call ensures if it returns holds as long as the calls go on, and what it
ensures if it leaves early holds at the end. -/
theorem Reaches.ensures {call : ι → Prog σ ε α} {admits : σ → ι → Prop} {s t : σ}
    {r : Except ε Unit} {P E : σ → Prop} (h0 : P s)
    (hcall : ∀ i, Ensures (fun u => admits u i ∧ P u) (call i) (fun _ => P) E)
    (h : Reaches call admits s r t) : (r = .ok () → P t) ∧ ∀ e, r = .error e → E t := by
  induction h with
  | start => exact ⟨fun _ => h0, fun e he => by cases he⟩
  | @call u i _ hi ih =>
    have hs := hcall i u ⟨hi, ih.1 rfl⟩
    rcases hr : (call i).run u with ⟨e | a, v⟩ <;> rw [hr] at hs
    · exact ⟨fun he => (by cases he), fun _ _ => hs.2 e rfl⟩
    · exact ⟨fun _ => hs.1 a rfl, fun e he => by cases he⟩

end Runs

end EarlyExit
