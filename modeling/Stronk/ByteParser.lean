import Mathlib

/-! Parsers of byte strings, from the reader's side: what a format says, not how some code goes
about it. -/
namespace ByteParser

/-- A parser takes bytes off the front or fails. -/
abbrev Parser := StateT (List UInt8) Option

variable {α β : Type}

def byte : Parser UInt8 := fun bs =>
  match bs with
  | [] => none
  | b :: bs => some (b, bs)

def bytes (n : ℕ) : Parser (List UInt8) := fun bs =>
  if n ≤ bs.length then some (bs.take n, bs.drop n) else none

/-- The value of bytes, most significant first. -/
def beNat : List UInt8 → ℕ
  | [] => 0
  | b :: bs => b.toNat*256^bs.length+beNat bs

def unsigned (n : ℕ) : Parser ℕ := do
  let bs ← bytes n
  return beNat bs

/-- Two's complement in `n` bytes. -/
def signed (n : ℕ) : Parser ℤ := do
  let v ← unsigned n
  return (BitVec.ofNat (8*n) v).toInt

/-- Groups of seven bits, least significant first, in at most `n` bytes. -/
def leb128 : ℕ → Parser ℕ
  | 0 => failure
  | n+1 => do
    let b ← byte
    if b.toNat < 128 then return b.toNat
    else do
      let v ← leb128 n
      return b.toNat-128+128*v

def times (p : Parser α) : ℕ → Parser (List α)
  | 0 => return []
  | n+1 => do
    let a ← p
    let as ← times p n
    return a :: as

/-- A part of announced length, of which the parser has to leave nothing over. -/
def framed (n : ℕ) (p : Parser α) : Parser α := do
  let bs ← bytes n
  match p.run bs with
  | some (a, []) => return a
  | _ => failure

/-- Parse a whole byte string. -/
def parseAll (p : Parser α) (bs : List UInt8) : Option α :=
  match p.run bs with
  | some (a, []) => some a
  | _ => none

/-- In front of anything, `p` takes `bs` and makes `a` of it. -/
def Reads (p : Parser α) (bs : List UInt8) (a : α) : Prop :=
  ∀ rest, p.run (bs ++ rest) = some (a, rest)

section Reads

theorem Reads.pure (a : α) : Reads (pure a) [] a := fun _ => rfl

theorem Reads.bind {p : Parser α} {f : α → Parser β} {bs cs : List UInt8} {a : α} {b : β}
    (hp : Reads p bs a) (hf : Reads (f a) cs b) : Reads (p >>= f) (bs ++ cs) b := by
  intro rest
  rw [StateT.run_bind, List.append_assoc, hp]
  exact hf rest

/-- The last part of a parser that ends with a value. -/
theorem Reads.bind_pure {p : Parser α} {f : α → β} {bs : List UInt8} {a : α} (hp : Reads p bs a) :
    Reads (p >>= fun a => Pure.pure (f a)) bs (f a) := by
  have h : Reads (p >>= fun a => Pure.pure (f a)) (bs ++ []) (f a) := hp.bind (Reads.pure (f a))
  rwa [List.append_nil] at h

theorem Reads.parseAll {p : Parser α} {bs : List UInt8} {a : α} (h : Reads p bs a) :
    parseAll p bs = some a := by
  have := h []
  rw [List.append_nil] at this
  simp only [ByteParser.parseAll, this]

theorem reads_byte (b : UInt8) : Reads byte [b] b := fun _ => rfl

theorem reads_bytes (bs : List UInt8) (n : ℕ) (h : bs.length = n) : Reads (bytes n) bs bs := by
  intro rest
  subst h
  simp [bytes, StateT.run]

theorem reads_unsigned (bs : List UInt8) (n : ℕ) (h : bs.length = n) :
    Reads (unsigned n) bs (beNat bs) := (reads_bytes bs n h).bind_pure

theorem reads_signed (bs : List UInt8) (n : ℕ) (h : bs.length = n) :
    Reads (signed n) bs (BitVec.ofNat (8*n) (beNat bs)).toInt := (reads_unsigned bs n h).bind_pure

theorem reads_leb128_last (n : ℕ) (b : UInt8) (h : b.toNat < 128) :
    Reads (leb128 (n+1)) [b] b.toNat := by
  have hb : Reads (leb128 (n+1)) ([b] ++ []) b.toNat :=
    (reads_byte b).bind (by rw [if_pos h]; exact Reads.pure _)
  rwa [List.append_nil] at hb

theorem reads_leb128_more (n : ℕ) (b : UInt8) {bs : List UInt8} {v : ℕ} (h : ¬ b.toNat < 128)
    (hv : Reads (leb128 n) bs v) : Reads (leb128 (n+1)) (b :: bs) (b.toNat-128+128*v) :=
  (reads_byte b).bind (by rw [if_neg h]; exact hv.bind_pure)

theorem reads_framed {p : Parser α} {bs : List UInt8} {a : α} (n : ℕ) (hn : bs.length = n)
    (h : Reads p bs a) : Reads (framed n p) bs a := by
  have hall : p.run bs = some (a, []) := by
    have := h []
    rwa [List.append_nil] at this
  have hrest : Reads (match p.run bs with
      | some (a, []) => Pure.pure a
      | _ => failure) [] a := by
    rw [hall]
    exact Reads.pure a
  have hb : Reads (framed n p) (bs ++ []) a := (reads_bytes bs n hn).bind hrest
  rwa [List.append_nil] at hb

/-- One item after another, each with its own bytes. -/
theorem reads_times {ι : Type} {p : Parser α} (is : List ι) (bs : ι → List UInt8) (a : ι → α)
    (h : ∀ i ∈ is, Reads p (bs i) (a i)) :
    Reads (times p is.length) (is.flatMap bs) (is.map a) := by
  induction is with
  | nil => exact Reads.pure []
  | cons i is ih =>
    rw [List.flatMap_cons, List.map_cons, List.length_cons]
    have hi := h i (by simp)
    have htail := ih fun j hj => h j (by simp [hj])
    exact hi.bind htail.bind_pure

end Reads

end ByteParser
