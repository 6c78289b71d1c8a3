import Stronk.ByteMemory

/-! Readers that walk over a frame of announced length and keep count of what is left of
it in a machine word. Two ghosts record whether the count was ever decremented below zero
and whether bytes past it were loaded; a run that sets neither is confined to its frame. -/
namespace BoundedReader
open ByteMemory

/-- Where a reader stands (`off`), how many bytes it believes are left, and the objects it
fills. `wrapped` and `overread` are the ghosts. -/
structure Cursor (υ : Type) where
  off : ℕ
  left : UInt64
  wrapped : Bool
  overread : Bool
  objects : υ

variable {υ ε α β : Type}

/-- Where the frame ends as far as the reader knows. -/
def Cursor.bound (s : Cursor υ) : ℕ := s.off+s.left.toNat

def Cursor.strayed (s : Cursor υ) : Bool := s.wrapped || s.overread

structure Reader (υ : Type) (ε : Type) (α : Type) where
  run : Mem → Cursor υ → Except ε α × Cursor υ

instance : Monad (Reader υ ε) where
  pure a := ⟨fun _ s => (.ok a, s)⟩
  bind m f := ⟨fun mem s =>
    match m.run mem s with
    | (.ok a, s') => (f a).run mem s'
    | (.error e, s') => (.error e, s')⟩

/-- Evaluate a function of the bytes at the cursor and of the number of bytes left. -/
def peek (f : Mem → UInt64 → α) : Reader υ ε α := ⟨fun mem s =>
  (.ok (f (shift mem s.off) s.left), s)⟩

/-- Evaluate a function of the next `n` bytes, whether or not so many are left. -/
def load (n : ℕ) (f : Mem → α) : Reader υ ε α := ⟨fun mem s =>
  (.ok (f (shift mem s.off)), { s with overread := s.overread || decide (s.left.toNat < n) })⟩

/-- `ptr += n; left -= n` in machine arithmetic. -/
def skip (n : ℕ) : Reader υ ε Unit := ⟨fun _ s =>
  (.ok (), { s with off := s.off+n, left := s.left-UInt64.ofNat n
                    wrapped := s.wrapped || decide (s.left.toNat < n) })⟩

def left : Reader υ ε UInt64 := ⟨fun _ s => (.ok s.left, s)⟩

def offset : Reader υ ε ℕ := ⟨fun _ s => (.ok s.off, s)⟩

def objects : Reader υ ε υ := ⟨fun _ s => (.ok s.objects, s)⟩

def update (f : υ → υ) : Reader υ ε Unit := ⟨fun _ s =>
  (.ok (), { s with objects := f s.objects })⟩

def leave (e : ε) : Reader υ ε α := ⟨fun _ s => (.error e, s)⟩

section Run
variable (mem : Mem) (s : Cursor υ)

@[simp] theorem pure_run (a : α) : (pure a : Reader υ ε α).run mem s = (.ok a, s) := rfl

@[simp] theorem bind_run (m : Reader υ ε α) (f : α → Reader υ ε β) :
    (m >>= f).run mem s = match m.run mem s with
      | (.ok a, s') => (f a).run mem s'
      | (.error e, s') => (.error e, s') := rfl

theorem bind_ok {m : Reader υ ε α} {f : α → Reader υ ε β} {mem : Mem} {s s' : Cursor υ} {a : α}
    (h : m.run mem s = (.ok a, s')) : (m >>= f).run mem s = (f a).run mem s' := by
  rw [bind_run, h]

theorem bind_error {m : Reader υ ε α} {f : α → Reader υ ε β} {mem : Mem} {s s' : Cursor υ} {e : ε}
    (h : m.run mem s = (.error e, s')) : (m >>= f).run mem s = (.error e, s') := by
  rw [bind_run, h]

/-- What comes after two programs that end alike ends alike. -/
theorem bind_congr_run {m m' : Reader υ ε α} {mem : Mem} {s : Cursor υ}
    (h : m.run mem s = m'.run mem s) (f : α → Reader υ ε β) :
    (m >>= f).run mem s = (m' >>= f).run mem s := by
  rw [bind_run, bind_run, h]

theorem bind_bind (m : Reader υ ε α) (f : α → Reader υ ε β) {γ : Type} (g : β → Reader υ ε γ) :
    (m >>= f) >>= g = m >>= fun a => f a >>= g := by
  have hrun (mem : Mem) (s : Cursor υ) :
      ((m >>= f) >>= g).run mem s = (m >>= fun a => f a >>= g).run mem s := by
    simp only [bind_run]
    rcases m.run mem s with ⟨e | a, t⟩
    · rfl
    · rfl
  exact congrArg Reader.mk (funext fun mem => funext fun s => hrun mem s)

@[simp] theorem ite_run (c : Prop) [Decidable c] (m k : Reader υ ε α) :
    (if c then m else k).run mem s = if c then m.run mem s else k.run mem s := by
  split <;> rfl

@[simp] theorem peek_run (f : Mem → UInt64 → α) :
    (peek f : Reader υ ε α).run mem s = (.ok (f (shift mem s.off) s.left), s) := rfl

@[simp] theorem load_run (n : ℕ) (f : Mem → α) : (load n f : Reader υ ε α).run mem s =
    (.ok (f (shift mem s.off)),
      { s with overread := s.overread || decide (s.left.toNat < n) }) := rfl

@[simp] theorem skip_run (n : ℕ) : (skip n : Reader υ ε Unit).run mem s =
    (.ok (), { s with off := s.off+n, left := s.left-UInt64.ofNat n
                      wrapped := s.wrapped || decide (s.left.toNat < n) }) := rfl

@[simp] theorem left_run : (left : Reader υ ε UInt64).run mem s = (.ok s.left, s) := rfl

@[simp] theorem offset_run : (offset : Reader υ ε ℕ).run mem s = (.ok s.off, s) := rfl

@[simp] theorem objects_run : (objects : Reader υ ε υ).run mem s = (.ok s.objects, s) := rfl

@[simp] theorem update_run (f : υ → υ) : (update f : Reader υ ε Unit).run mem s =
    (.ok (), { s with objects := f s.objects }) := rfl

@[simp] theorem leave_run (e : ε) : (leave e : Reader υ ε α).run mem s = (.error e, s) := rfl

end Run

section Arithmetic

@[simp] theorem sub_ofNat_zero (l : UInt64) : l-UInt64.ofNat 0 = l := by
  simp

theorem toNat_sub_ofNat (l : UInt64) (n : ℕ) (h : n ≤ l.toNat) :
    (l-UInt64.ofNat n).toNat = l.toNat-n := by
  have hl := l.toNat_lt
  have hn : (UInt64.ofNat n).toNat = n := UInt64.toNat_ofNat_of_lt' (lt_of_le_of_lt h hl)
  have hle : UInt64.ofNat n ≤ l := UInt64.le_iff_toNat_le.mpr (by omega)
  rw [UInt64.toNat_sub_of_le _ _ hle, hn]

end Arithmetic

section Ahead

/-- What is left of the frame is `bs`. -/
structure Ahead (mem : Mem) (off : ℕ) (left : UInt64) (bs : List UInt8) : Prop where
  count : left.toNat = bs.length
  bytes : AgreeOn bs.length (shift mem off) (ofList bs)

variable {mem : Mem} {off : ℕ} {left : UInt64} {xs ys : List UInt8}

theorem Ahead.front (h : Ahead mem off left (xs ++ ys)) :
    AgreeOn xs.length (shift mem off) (ofList xs) ∧ xs.length ≤ left.toNat := by
  refine ⟨((agreeOn_append_iff _ _ _).mp h.bytes).1, ?_⟩
  rw [h.count, List.length_append]
  omega

theorem Ahead.skip (h : Ahead mem off left (xs ++ ys)) :
    Ahead mem (off+xs.length) (left-UInt64.ofNat xs.length) ys := by
  refine ⟨?_, ?_⟩
  · rw [toNat_sub_ofNat _ _ h.front.2, h.count, List.length_append]
    omega
  · rw [← shift_shift]
    exact ((agreeOn_append_iff _ _ _).mp h.bytes).2

end Ahead

section Framed

/-- A function of memory and a limit that looks no further than the limit. -/
class Limited (f : Mem → UInt64 → α) : Prop where
  agree : ∀ a b l, AgreeOn l.toNat a b → f a l = f b l

/-- A function of memory that looks at the first `n` bytes only. -/
class LimitedTo (n : ℕ) (f : Mem → α) : Prop where
  agree : ∀ a b, AgreeOn n a b → f a = f b

/-- A reader whose ghosts are never cleared and which, as long as it sets none of them,
stays in its frame: the run is the same on every memory that agrees up to the frame's end. -/
class Framed (m : Reader υ ε α) : Prop where
  wrapped : ∀ mem s, s.wrapped = true → (m.run mem s).2.wrapped = true
  overread : ∀ mem s, s.overread = true → (m.run mem s).2.overread = true
  bound : ∀ mem s, (m.run mem s).2.strayed = false → (m.run mem s).2.bound ≤ s.bound
  agree : ∀ a b s, AgreeOn s.bound a b → (m.run a s).2.strayed = false → m.run b s = m.run a s

theorem Framed.strayed (m : Reader υ ε α) [Framed m] (mem : Mem) (s : Cursor υ)
    (h : s.strayed = true) : (m.run mem s).2.strayed = true := by
  simp only [Cursor.strayed, Bool.or_eq_true] at h ⊢
  exact h.imp (Framed.wrapped mem s) (Framed.overread mem s)

theorem Framed.unstrayed (m : Reader υ ε α) [Framed m] (mem : Mem) (s : Cursor υ)
    (h : (m.run mem s).2.strayed = false) : s.strayed = false := by
  by_contra hs
  rw [Framed.strayed m mem s (by simpa using hs)] at h
  contradiction

instance (a : α) : Framed (pure a : Reader υ ε α) where
  wrapped _ _ h := h
  overread _ _ h := h
  bound _ _ _ := le_refl _
  agree _ _ _ _ _ := rfl

theorem Framed.bind {m : Reader υ ε α} {f : α → Reader υ ε β} (hm : Framed m)
    (hf : ∀ a, Framed (f a)) : Framed (m >>= f) where
  wrapped mem s h := by
    have hr := hm.wrapped mem s h
    rcases e : m.run mem s with ⟨r | a, s'⟩ <;> rw [e] at hr
    · rw [bind_error e]
      exact hr
    · rw [bind_ok e]
      exact (hf a).wrapped mem s' hr
  overread mem s h := by
    have hr := hm.overread mem s h
    rcases e : m.run mem s with ⟨r | a, s'⟩ <;> rw [e] at hr
    · rw [bind_error e]
      exact hr
    · rw [bind_ok e]
      exact (hf a).overread mem s' hr
  bound mem s h := by
    have hr := hm.bound mem s
    rcases e : m.run mem s with ⟨r | a, s'⟩ <;> rw [e] at hr
    · rw [bind_error e] at h ⊢
      exact hr h
    · rw [bind_ok e] at h ⊢
      exact le_trans ((hf a).bound mem s' h) (hr (Framed.unstrayed (f a) mem s' h))
  agree a b s hab h := by
    have hr := hm.agree a b s hab
    have hb := hm.bound a s
    rcases e : m.run a s with ⟨r | x, s'⟩ <;> rw [e] at hr hb
    · rw [bind_error e] at h ⊢
      exact bind_error (hr h)
    · rw [bind_ok e] at h ⊢
      have hs := Framed.unstrayed (f x) a s' h
      rw [bind_ok (hr hs)]
      exact (hf x).agree a b s' (agreeOn_mono hab (hb hs)) h

instance (m : Reader υ ε α) (f : α → Reader υ ε β) [hm : Framed m] [hf : ∀ a, Framed (f a)] :
    Framed (m >>= f) := Framed.bind hm hf

instance (c : Prop) [Decidable c] (m k : Reader υ ε α) [Framed m] [Framed k] :
    Framed (if c then m else k) := by
  split <;> infer_instance

instance (f : Mem → UInt64 → α) [Limited f] : Framed (peek f : Reader υ ε α) where
  wrapped _ _ h := h
  overread _ _ h := h
  bound _ _ _ := le_refl _
  agree a b s hab _ := by
    simp only [peek_run]
    rw [Limited.agree (f := f) (shift b s.off) (shift a s.off) s.left
      (agreeOn_shift (agreeOn_symm hab) (le_refl _))]

instance (n : ℕ) (f : Mem → α) [LimitedTo n f] : Framed (load n f : Reader υ ε α) where
  wrapped _ _ h := h
  overread _ _ h := by simp [h]
  bound _ _ _ := le_refl _
  agree a b s hab h := by
    simp only [load_run, Cursor.strayed, Bool.or_eq_false_iff, decide_eq_false_iff_not,
      not_lt] at h ⊢
    have hn : s.off+n ≤ s.bound := by simp only [Cursor.bound]; omega
    rw [LimitedTo.agree (n := n) (f := f) _ _ (agreeOn_shift (agreeOn_symm hab) hn)]

instance (n : ℕ) : Framed (skip n : Reader υ ε Unit) where
  wrapped _ _ h := by simp [h]
  overread _ _ h := h
  bound _ s h := by
    simp only [skip_run, Cursor.strayed, Bool.or_eq_false_iff, decide_eq_false_iff_not,
      not_lt] at h
    simp only [skip_run, Cursor.bound, toNat_sub_ofNat s.left n (by omega)]
    omega
  agree _ _ _ _ _ := rfl

instance : Framed (left : Reader υ ε UInt64) where
  wrapped _ _ h := h
  overread _ _ h := h
  bound _ _ _ := le_refl _
  agree _ _ _ _ _ := rfl

instance : Framed (offset : Reader υ ε ℕ) where
  wrapped _ _ h := h
  overread _ _ h := h
  bound _ _ _ := le_refl _
  agree _ _ _ _ _ := rfl

instance : Framed (objects : Reader υ ε υ) where
  wrapped _ _ h := h
  overread _ _ h := h
  bound _ _ _ := le_refl _
  agree _ _ _ _ _ := rfl

instance (f : υ → υ) : Framed (update f : Reader υ ε Unit) where
  wrapped _ _ h := h
  overread _ _ h := h
  bound _ _ _ := le_refl _
  agree _ _ _ _ _ := rfl

instance (e : ε) : Framed (leave e : Reader υ ε α) where
  wrapped _ _ h := h
  overread _ _ h := h
  bound _ _ _ := le_refl _
  agree _ _ _ _ _ := rfl

end Framed

end BoundedReader
