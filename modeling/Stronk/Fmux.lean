import Mathlib

/-! A stream that is to pass on what is written to it to several others (`ninio/fmux.c`). Memory is
made of blocks of words, each as large as a pointer. -/
namespace Stronk.Ninio

section Model
variable {φ : Type}

/-- The block that holds a cookie and what follows it, or the `FILE` object of a stream, about which
only the C library knows. -/
inductive Block (φ : Type)
  | cookie
  | file (f : φ)
  deriving DecidableEq

inductive Word (φ : Type)
  | count (n : ℕ)
  /-- The address of a word in a block, by its distance from the start. -/
  | pointer (block : Block φ) (words : ℕ)
  | other
  deriving DecidableEq

abbrev Words (φ : Type) := Block φ → ℕ → Word φ

/-- `p[i]`, which is nothing if `p` is no pointer. -/
def load (mem : Words φ) (p : Word φ) (i : ℕ) : Option (Word φ) :=
  match p with
  | .pointer block words => some (mem block (words+i))
  | _ => none

/-- `p[i] = w` -/
def store [DecidableEq φ] (mem : Words φ) (p : Word φ) (i : ℕ) (w : Word φ) : Option (Words φ) :=
  match p with
  | .pointer block words =>
    some (Function.update mem block (Function.update (mem block) (words+i) w))
  | _ => none

/-- A `struct fmux_cookie` has its count in the first word and `output_files` in the second one. -/
def cookie : Word φ := .pointer .cookie 0

/-- The loop over the arguments, from argument `i` on. -/
def storeOutputs [DecidableEq φ] : ℕ → List φ → Words φ → Option (Words φ)
  | _, [], mem => some mem
  | i, output :: rest, mem => do
    let outputFiles ← load mem cookie 1
    let mem ← store mem outputFiles i (.pointer (.file output) 0)
    storeOutputs (i+1) rest mem

/-- `fmux_openv` when `malloc` gives it a block and `fopencookie` a stream. -/
def fmuxOpenv [DecidableEq φ] (outputs : List φ) (mem : Words φ) : Option (Words φ) := do
  let mem ← store mem cookie 0 (.count outputs.length)
  -- `sizeof(cookie)` is the size of a pointer, and not that of the struct
  let mem ← store mem cookie 1 (.pointer .cookie 1)
  storeOutputs 0 outputs mem

/-- A call of `fmux_write`: its buffer, how many bytes of it each stream takes, and what is in the
objects of the streams by then. -/
structure FmuxCall (φ : Type) where
  buf : List UInt8
  accepted : φ → ℕ
  objects : φ → ℕ → Word φ

/-- The memory that a call finds. -/
def FmuxCall.memory (call : FmuxCall φ) (mem : Words φ) : Words φ
  | .cookie => mem .cookie
  | .file f => call.objects f

/-- What the streams have received. -/
abbrev Received (φ : Type) := φ → List UInt8

/-- `fwrite(buf, size, 1, stream)`: the buffer is one item. What is not a stream cannot be written
to. -/
def fwrite [DecidableEq φ] (call : FmuxCall φ) (stream : Word φ) (received : Received φ) :
    Option (ℕ × Received φ) :=
  match stream with
  | .pointer (.file f) 0 =>
    let taken := call.buf.take (call.accepted f)
    some (if call.buf ≠ [] ∧ taken = call.buf then 1 else 0,
      Function.update received f (received f ++ taken))
  | _ => none

/-- `EOF` as a `size_t`. -/
def eof : ℕ := 2^64-1

/-- `fmux_write`. Its loop is never in a second turn, for the first one ends with a `return` either
way; without a first one nothing is returned. -/
def fmuxWrite [DecidableEq φ] (call : FmuxCall φ) (mem : Words φ) (received : Received φ) :
    Option (ℕ × Received φ) := do
  match ← load (call.memory mem) cookie 0 with
  | .count count =>
    if 0 < count then do
      let outputFiles ← load (call.memory mem) cookie 1
      let stream ← load (call.memory mem) outputFiles 0
      let (written, received) ← fwrite call stream received
      if written = eof then some (0, received) else some (written, received)
    else none
  | _ => none

/-- Any number of calls, with what each of them returns. -/
def fmuxWrites [DecidableEq φ] (mem : Words φ) :
    List (FmuxCall φ) → Received φ → Option (List ℕ × Received φ)
  | [], received => some ([], received)
  | call :: calls, received => do
    let (size, received) ← fmuxWrite call mem received
    let (sizes, received) ← fmuxWrites mem calls received
    some (size :: sizes, received)

end Model

section Property
variable {φ : Type} [DecidableEq φ]

/-- Every output has received the buffers, one after another, and every call has returned the size
of its own. -/
def OutputsReached (mem : Words φ) (outputs : List φ) (calls : List (FmuxCall φ)) : Prop :=
  ∃ mem' received, fmuxOpenv outputs mem = some mem' ∧
    fmuxWrites mem' calls (fun _ => []) = some (calls.map fun call => call.buf.length, received) ∧
    ∀ output ∈ outputs, received output = calls.flatMap FmuxCall.buf

/-- All outputs are one stream, whose object happens to start with a pointer to itself, and there is
one byte to write. -/
structure FmuxCall.Passes (call : FmuxCall φ) (outputs : List φ) : Prop where
  single : call.buf.length = 1
  pointed : ∀ first ∈ outputs.head?, ∀ output ∈ outputs,
    call.objects first 0 = .pointer (.file output) 0

end Property

section Open
variable {φ : Type} [DecidableEq φ]

/-- With `output_files` pointing to the object of a stream, that is where the outputs are stored. -/
theorem storeOutputs_spill {i : ℕ} {outputs : List φ} {mem : Words φ} {f : φ}
    (hmem : mem .cookie 1 = .pointer (.file f) 0) :
    ∃ mem', storeOutputs i outputs mem = some mem' ∧ mem' .cookie = mem .cookie := by
  induction outputs generalizing i mem with
  | nil => exact ⟨mem, rfl, rfl⟩
  | cons output rest ih =>
    set mem1 : Words φ := Function.update mem (.file f)
      (Function.update (mem (.file f)) (0+i) (.pointer (.file output) 0)) with hmem1
    have hcookie : mem1 .cookie = mem .cookie := Function.update_of_ne (by simp) _ _
    have hfile : mem1 .cookie 1 = .pointer (.file f) 0 := by rw [hcookie, hmem]
    obtain ⟨mem', hrest, hkept⟩ := ih (i := i+1) hfile
    refine ⟨mem', ?_, hkept.trans hcookie⟩
    have hfiles : load mem cookie 1 = some (.pointer (.file f) 0) := by
      rw [← hmem]
      rfl
    rw [storeOutputs, hfiles]
    exact hrest

/-- The first output takes the place of `output_files` itself. -/
theorem fmuxOpenv_cookie (first : φ) (rest : List φ) (mem : Words φ) :
    ∃ mem', fmuxOpenv (first :: rest) mem = some mem' ∧
      mem' .cookie 0 = .count (rest.length+1) ∧ mem' .cookie 1 = .pointer (.file first) 0 := by
  set mem1 : Words φ := Function.update mem .cookie
    (Function.update (mem .cookie) 0 (.count (rest.length+1))) with hmem1
  set mem2 : Words φ := Function.update mem1 .cookie
    (Function.update (mem1 .cookie) 1 (.pointer .cookie 1)) with hmem2
  set mem3 : Words φ := Function.update mem2 .cookie
    (Function.update (mem2 .cookie) 1 (.pointer (.file first) 0)) with hmem3
  have hcount : mem3 .cookie 0 = .count (rest.length+1) := by simp [hmem3, hmem2, hmem1]
  have hfiles : mem3 .cookie 1 = .pointer (.file first) 0 := by simp [hmem3]
  have hself : load mem2 cookie 1 = some (.pointer .cookie 1) := by simp [load, cookie, hmem2]
  obtain ⟨mem', hrest, hkept⟩ : ∃ mem', storeOutputs 1 rest mem3 = some mem' ∧
      mem' .cookie = mem3 .cookie := storeOutputs_spill hfiles
  refine ⟨mem', ?_, by rw [hkept, hcount], by rw [hkept, hfiles]⟩
  have hstore : storeOutputs 0 (first :: rest) mem2 = some mem' := by
    rw [storeOutputs, hself]
    exact hrest
  exact hstore

end Open

section Write
variable {φ : Type} [DecidableEq φ]

theorem fwrite_eq_some_iff {call : FmuxCall φ} {stream : Word φ} {received received' : Received φ}
    {n : ℕ} : fwrite call stream received = some (n, received') ↔
      ∃ f, stream = .pointer (.file f) 0 ∧
        n = (if call.buf ≠ [] ∧ call.buf.take (call.accepted f) = call.buf then 1 else 0) ∧
        received' = Function.update received f
          (received f ++ call.buf.take (call.accepted f)) := by
  unfold fwrite
  split
  · rename_i f
    constructor
    · intro h
      cases h
      exact ⟨f, rfl, rfl, rfl⟩
    · rintro ⟨f', hf, rfl, rfl⟩
      cases hf
      rfl
  · rename_i hnot
    refine iff_of_false (by simp) ?_
    rintro ⟨f, rfl, -, -⟩
    exact hnot f rfl

/-- A cookie whose `output_files` points to the object of a stream. -/
def Spilled (mem : Words φ) (first : φ) : Prop :=
  (∃ count, mem .cookie 0 = .count (count+1)) ∧ mem .cookie 1 = .pointer (.file first) 0

/-- It is written to whatever the object starts with a pointer to, and that is all. -/
theorem fmuxWrite_eq {mem : Words φ} {first : φ} (hmem : Spilled mem first) (call : FmuxCall φ)
    (received : Received φ) :
    fmuxWrite call mem received = fwrite call (call.objects first 0) received := by
  obtain ⟨⟨count, hcount⟩, hfiles⟩ := hmem
  have h0 : load (call.memory mem) cookie 0 = some (.count (count+1)) := by
    rw [← hcount]
    rfl
  have h1 : load (call.memory mem) cookie 1 = some (.pointer (.file first) 0) := by
    rw [← hfiles]
    rfl
  have hstream : load (call.memory mem) (.pointer (.file first) 0) 0 =
      some (call.objects first 0) := rfl
  simp only [fmuxWrite, h0, h1, hstream, Option.bind_eq_bind, Option.bind_some,
    if_pos (Nat.succ_pos count)]
  cases hwrite : fwrite call (call.objects first 0) received with
  | none => rfl
  | some result =>
    obtain ⟨f, -, hn, -⟩ := fwrite_eq_some_iff.mp hwrite
    have hne : result.1 ≠ eof := by
      rw [hn, eof]
      split_ifs <;> decide
    rw [Option.bind_some]
    exact if_neg hne

/-- What a stream gets of a call. -/
def FmuxCall.passed (call : FmuxCall φ) (first f : φ) : List UInt8 :=
  if call.objects first 0 = .pointer (.file f) 0 then call.buf.take (call.accepted f) else []

/-- A call returns the size of its buffer only if that is one byte, and one stream gets it. -/
theorem fmuxWrite_passed {mem : Words φ} {first : φ} (hmem : Spilled mem first) {call : FmuxCall φ}
    (hbuf : call.buf ≠ []) {received received' : Received φ}
    (h : fmuxWrite call mem received = some (call.buf.length, received')) :
    call.buf.length = 1 ∧ ∀ f, received' f = received f ++ call.passed first f := by
  rw [fmuxWrite_eq hmem] at h
  obtain ⟨g, hg, hn, rfl⟩ := fwrite_eq_some_iff.mp h
  have hlength := List.length_pos_iff.mpr hbuf
  constructor
  · split_ifs at hn
    · exact hn
    · omega
  · intro f
    by_cases hf : f = g
    · rw [hf, Function.update_self, FmuxCall.passed, if_pos hg]
    · have hne : call.objects first 0 ≠ .pointer (.file f) 0 := by
        rw [hg]
        simpa using Ne.symm hf
      rw [Function.update_of_ne hf, FmuxCall.passed, if_neg hne, List.append_nil]

theorem fmuxWrites_passed {mem : Words φ} {first : φ} (hmem : Spilled mem first)
    {calls : List (FmuxCall φ)} (hbufs : ∀ call ∈ calls, call.buf ≠ [])
    {received received' : Received φ} (h : fmuxWrites mem calls received =
      some (calls.map fun call => call.buf.length, received')) :
    (∀ call ∈ calls, call.buf.length = 1) ∧
      ∀ f, received' f = received f ++ calls.flatMap fun call => call.passed first f := by
  induction calls generalizing received with
  | nil =>
    cases h
    exact ⟨by simp, by simp⟩
  | cons call calls ih =>
    rw [fmuxWrites] at h
    obtain ⟨⟨size, received1⟩, hone, h⟩ := Option.bind_eq_some_iff.mp h
    obtain ⟨⟨sizes, received2⟩, hrest, h⟩ := Option.bind_eq_some_iff.mp h
    cases h
    obtain ⟨hsingle, hpassed⟩ := fmuxWrite_passed hmem (hbufs call List.mem_cons_self) hone
    obtain ⟨hsingles, hall⟩ := ih (fun call hc => hbufs call (List.mem_cons_of_mem _ hc)) hrest
    refine ⟨List.forall_mem_cons.mpr ⟨hsingle, hsingles⟩, fun f => ?_⟩
    rw [hall, hpassed, List.flatMap_cons, List.append_assoc]

/-- One stream gets all of the calls that pass. -/
theorem fmuxWrites_of_passes {mem : Words φ} {first g : φ} (hmem : Spilled mem first)
    {calls : List (FmuxCall φ)} (hsingle : ∀ call ∈ calls, call.buf.length = 1)
    (hpointed : ∀ call ∈ calls, call.objects first 0 = .pointer (.file g) 0)
    (haccepted : ∀ call ∈ calls, call.buf.length ≤ call.accepted g) (received : Received φ) :
    fmuxWrites mem calls received = some (calls.map fun call => call.buf.length,
      Function.update received g (received g ++ calls.flatMap FmuxCall.buf)) := by
  induction calls generalizing received with
  | nil => simp [fmuxWrites]
  | cons call calls ih =>
    rw [List.forall_mem_cons] at hsingle hpointed haccepted
    have htake : call.buf.take (call.accepted g) = call.buf := List.take_of_length_le haccepted.1
    have hone : fmuxWrite call mem received = some (call.buf.length,
        Function.update received g (received g ++ call.buf)) := by
      have hne : call.buf ≠ [] := List.ne_nil_of_length_pos (by omega)
      rw [fmuxWrite_eq hmem, hpointed.1]
      apply fwrite_eq_some_iff.mpr
      exact ⟨g, rfl, by rw [if_pos ⟨hne, htake⟩, hsingle.1], by rw [htake]⟩
    rw [fmuxWrites, hone, Option.bind_eq_bind, Option.bind_some]
    dsimp only
    rw [ih hsingle.2 hpointed.2 haccepted.2]
    simp

end Write

section Outputs
variable {φ : Type} [DecidableEq φ]

theorem length_eq_of_flatMap {α β : Type} {l : List α} {f g : α → List β}
    (hle : ∀ a ∈ l, (f a).length ≤ (g a).length) (h : l.flatMap f = l.flatMap g) :
    ∀ a ∈ l, (f a).length = (g a).length := by
  have hsum := congrArg List.length h
  rw [List.length_flatMap, List.length_flatMap] at hsum
  clear h
  induction l with
  | nil => simp
  | cons a l ih =>
    rw [List.forall_mem_cons] at hle ⊢
    have hrest := List.sum_le_sum hle.2
    rw [List.map_cons, List.map_cons, List.sum_cons, List.sum_cons] at hsum
    exact ⟨by omega, ih hle.2 (by omega)⟩

/-- What a stream gets of a call is at most the buffer. -/
theorem FmuxCall.passed_length_le (call : FmuxCall φ) (first f : φ) :
    (call.passed first f).length ≤ call.buf.length := by
  rw [FmuxCall.passed]
  split_ifs
  · exact List.length_take_le' ..
  · exact Nat.zero_le _

/-- A stream that gets everything is the one that the object of the first output points to. -/
theorem pointed_of_passed {calls : List (FmuxCall φ)} (hbufs : ∀ call ∈ calls, call.buf ≠ [])
    {first f : φ} (h : calls.flatMap (fun call => call.passed first f) =
      calls.flatMap FmuxCall.buf) :
    ∀ call ∈ calls, call.objects first 0 = .pointer (.file f) 0 := by
  intro call hc
  have hlength := length_eq_of_flatMap (fun call _ => call.passed_length_le first f) h call hc
  by_contra hne
  rw [FmuxCall.passed, if_neg hne] at hlength
  exact hbufs call hc (List.length_eq_zero_iff.mp hlength.symm)

/-- The outputs are reached if and only if all are one stream whose object starts with a pointer to
itself, and the buffers are single bytes. -/
theorem outputs_reached_iff (mem : Words φ) (outputs : List φ) (hcount : outputs ≠ [])
    (calls : List (FmuxCall φ)) (hbufs : ∀ call ∈ calls, call.buf ≠ [])
    (haccepted : ∀ call ∈ calls, ∀ output ∈ outputs, call.buf.length ≤ call.accepted output) :
    OutputsReached mem outputs calls ↔ ∀ call ∈ calls, call.Passes outputs := by
  obtain ⟨first, rest, rfl⟩ := List.exists_cons_of_ne_nil hcount
  obtain ⟨mem', hopen, hwords, hfiles⟩ := fmuxOpenv_cookie first rest mem
  have hspilled : Spilled mem' first := ⟨⟨_, hwords⟩, hfiles⟩
  constructor
  · rintro ⟨mem1, received, hopen1, hrun, hreached⟩
    rw [hopen] at hopen1
    cases hopen1
    obtain ⟨hsingle, hpassed⟩ := fmuxWrites_passed hspilled hbufs hrun
    intro call hc
    refine ⟨hsingle call hc, ?_⟩
    rintro _ ⟨⟩ output ho
    have hall : calls.flatMap (fun call => call.passed first output) =
        calls.flatMap FmuxCall.buf := by
      rw [← hreached output ho, hpassed output, List.nil_append]
    exact pointed_of_passed hbufs hall call hc
  · intro hpasses
    refine ⟨mem', _, hopen, fmuxWrites_of_passes (g := first) hspilled
      (fun call hc => (hpasses call hc).single)
      (fun call hc => (hpasses call hc).pointed first rfl first List.mem_cons_self)
      (fun call hc => haccepted call hc first List.mem_cons_self) _, ?_⟩
    intro output ho
    cases calls with
    | nil => simp
    | cons call calls =>
      have hpointed := (hpasses call List.mem_cons_self).pointed first rfl
      have hsame : output = first := by
        have htwo := (hpointed output ho).symm.trans (hpointed first List.mem_cons_self)
        simpa using htwo
      rw [hsame, Function.update_self, List.nil_append]

/-- One byte, to a stream whose object starts with a pointer to itself. -/
theorem single_byte_passed :
    let call : FmuxCall Unit := ⟨[97], fun _ => 1, fun _ _ => .pointer (.file ()) 0⟩
    OutputsReached (fun _ _ => .other) [()] [call] := by
  intro call
  refine (outputs_reached_iff _ _ (by simp) [call] (by simp [call]) (by simp [call])).mpr ?_
  intro call' hc
  rw [List.mem_singleton.mp hc]
  exact ⟨rfl, fun _ _ _ _ => rfl⟩

/-- Two streams that take two bytes each get none, for what the first one's object starts with is no
pointer. -/
theorem two_outputs_missed :
    let call : FmuxCall Bool := ⟨[97, 98], fun _ => 2, fun _ _ => .other⟩
    (∀ output ∈ [false, true], call.buf.length ≤ call.accepted output) ∧
      ¬ OutputsReached (fun _ _ => .other) [false, true] [call] := by
  intro call
  refine ⟨by simp [call], ?_⟩
  rintro ⟨mem', received, hopen, hrun, -⟩
  cases hopen
  cases hrun

end Outputs

end Stronk.Ninio
