import Stronk.McprConnection

/-! A byte stream over a descriptor (`ninio/bstream.c`, `ninio/ninio.h`): what is read ahead is kept
in a buffer that grows on demand. -/
namespace Stronk.Mcpr
open ByteMemory EarlyExit

section Model

/-- How `read` fares; it returns no more than it is asked for, and nothing at the end of the file. -/
inductive FdReadResult
  | bytes (bs : List UInt8)
  | again
  | error
  deriving DecidableEq, Repr, Inhabited

/-- What a call finds around it: whether `realloc` succeeds, what a new block holds, and how `read`
fares. -/
structure FdEnv where
  realloc : Bool
  garbage : Mem
  read : FdReadResult

/-- Bytes are taken off the buffer: is there one, how many are taken, how many does it hold? -/
structure Take where
  allocated : Bool
  taken : ℕ
  held : ℕ
  deriving DecidableEq, Repr

/-- `struct fd_bstream`. The content of a buffer that was never allocated is NULL. What came from the
descriptor, what was handed out and how it was taken off the buffer is kept with it. -/
structure FdBstream where
  buf : NinioBuffer
  isNull : Bool
  ninerr : Option Ninerr
  obtained : List UInt8
  delivered : List UInt8
  takes : List Take

/-- `bstream_from_fd` -/
def bstreamFromFd : FdBstream where
  buf := { content := fun _ => 0, maxSize := 0, size := 0 }
  isNull := true
  ninerr := none
  obtained := []
  delivered := []
  takes := []

abbrev BstreamProg := Prog FdBstream Halt

variable (env : FdEnv) (bytes : UInt64)

/-- `read(fd, buf->content + buf->size, count)` -/
def readInto (count : UInt64) : BstreamProg Bool :=
  match env.read with
  | .bytes bs => do
    modify fun s =>
      let bs := bs.take count.toNat
      { s with
        buf := { s.buf with
          content := write s.buf.content s.buf.size.toNat bs
          size := s.buf.size+UInt64.ofNat bs.length }
        obtained := s.obtained ++ bs }
    return true
  | .again => return true
  | .error => do
    modify fun s => { s with ninerr := some .fromErrno }
    return false

/-- A block of `size` bytes that starts with what the old one held. -/
def reallocate (size : UInt64) (s : FdBstream) : FdBstream :=
  { s with
    buf := { s.buf with
      content := fun i => if i < s.buf.maxSize.toNat then s.buf.content i else env.garbage i
      maxSize := size }
    isNull := false }

def attemptFillUpBuffer (size : UInt64) : BstreamProg Bool := do
  let s ← get
  if s.buf.size < size then do
    let remaining := size-s.buf.size
    if s.buf.maxSize < s.buf.size+remaining then
      if (s.buf.size+remaining).toNat ≤ ptrdiffMax ∧ env.realloc = true then do
        modify (reallocate env (s.buf.size+remaining))
        readInto env remaining
      else readInto env (s.buf.maxSize-s.buf.size)
    else readInto env remaining
  else return true

/-- `ninio_buffer_read`; the size stays what it was unless all is taken. -/
def ninioBufferRead (bytes : UInt64) : BstreamProg (List UInt8) := do
  let s ← get
  modify fun s => { s with takes := s.takes ++ [⟨!s.isNull, bytes.toNat, s.buf.size.toNat⟩] }
  if s.isNull then exit .abort
  else if s.buf.size < bytes then exit .abort
  else do
    (if s.buf.size-bytes > 0 then modify fun s => { s with buf := { s.buf with
      content := moveDown s.buf.content bytes.toNat (s.buf.size-bytes).toNat } }
    else modify fun s => { s with buf := { s.buf with size := 0 } })
    return read s.buf.content bytes.toNat

/-- Bytes reach the caller. -/
def handOut (out : List UInt8) : BstreamProg (Option (List UInt8)) := do
  modify fun s => { s with delivered := s.delivered ++ out }
  return some out

/-- `none` is the result -1. -/
def bstreamFdReadMax : BstreamProg (Option (List UInt8)) := do
  let filled ← attemptFillUpBuffer env bytes
  if filled = false then return none
  else do
    let s ← get
    let out ← ninioBufferRead (if bytes ≤ s.buf.size then bytes else s.buf.size)
    handOut out

def bstreamFdPeekMax : BstreamProg (List UInt8) := do
  let _ ← attemptFillUpBuffer env bytes
  let s ← get
  return read s.buf.content (if bytes ≤ s.buf.size then bytes else s.buf.size).toNat

def bstreamFdIsAvailable (amount : UInt64) : BstreamProg Bool := do
  let _ ← attemptFillUpBuffer env amount
  let s ← get
  return amount ≤ s.buf.size

/-- `none` is the result `false`. -/
def bstreamFdRead : BstreamProg (Option (List UInt8)) := do
  let _ ← attemptFillUpBuffer env bytes
  let s ← get
  if bytes ≤ s.buf.size then do
    let out ← ninioBufferRead bytes
    handOut out
  else do
    modify fun s => { s with ninerr := some (.new "Not enough bytes available.") }
    return none

def bstreamFdPeek : BstreamProg (Option (List UInt8)) := do
  let _ ← attemptFillUpBuffer env bytes
  let s ← get
  if bytes ≤ s.buf.size then return some (read s.buf.content bytes.toNat) else return none

/-- A call of one of the operations that read. -/
inductive BstreamCall
  | read (env : FdEnv) (bytes : UInt64)
  | readMax (env : FdEnv) (bytes : UInt64)
  | peek (env : FdEnv) (bytes : UInt64)
  | peekMax (env : FdEnv) (bytes : UInt64)
  | isAvailable (env : FdEnv) (amount : UInt64)

def BstreamCall.run : BstreamCall → BstreamProg Unit
  | .read env bytes => do let _ ← bstreamFdRead env bytes
  | .readMax env bytes => do let _ ← bstreamFdReadMax env bytes
  | .peek env bytes => do let _ ← bstreamFdPeek env bytes
  | .peekMax env bytes => do let _ ← bstreamFdPeekMax env bytes
  | .isAvailable env amount => do let _ ← bstreamFdIsAvailable env amount

/-- Any calls on a new stream, one after another. -/
def BstreamRun : Except Halt Unit → FdBstream → Prop :=
  Reaches BstreamCall.run (fun _ _ => True) bstreamFromFd

end Model

section Queue

/-- What came from a source, what was handed out, and what is held in between. -/
structure Queue (α : Type) where
  obtained : List α
  delivered : List α
  held : List α

variable {α : Type}

/-- Nothing was lost, repeated or moved. -/
def Queue.Fifo (q : Queue α) : Prop := q.delivered ++ q.held = q.obtained

def Queue.put (q : Queue α) (new : List α) : Queue α :=
  { q with obtained := q.obtained ++ new, held := q.held ++ new }

def Queue.deliver (q : Queue α) (n : ℕ) : Queue α :=
  { q with delivered := q.delivered ++ q.held.take n, held := q.held.drop n }

theorem Queue.Fifo.put {q : Queue α} (h : q.Fifo) (new : List α) : (q.put new).Fifo := by
  have hq : q.delivered ++ q.held = q.obtained := h
  change q.delivered ++ (q.held ++ new) = q.obtained ++ new
  rw [← List.append_assoc, hq]

theorem Queue.Fifo.deliver {q : Queue α} (h : q.Fifo) (n : ℕ) : (q.deliver n).Fifo := by
  have hq : q.delivered ++ q.held = q.obtained := h
  change q.delivered ++ q.held.take n ++ q.held.drop n = q.obtained
  rw [List.append_assoc, List.take_append_drop, hq]

/-- The elements that are there more often than they came. -/
def Queue.Surplus (q : Queue α) (n : ℕ) : Prop :=
  q.delivered.length+q.held.length = q.obtained.length+n

theorem Queue.Fifo.surplus {q : Queue α} (h : q.Fifo) : q.Surplus 0 := by
  have hlen := congrArg List.length h
  rwa [List.length_append] at hlen

end Queue

section Fill
variable (env : FdEnv)

/-- The stream as a queue. -/
def FdBstream.queue (s : FdBstream) : Queue UInt8 :=
  { obtained := s.obtained, delivered := s.delivered, held := s.buf.bytes }

/-- The buffer is as large as it says; a missing one has no bytes. -/
structure FdBstream.Valid (s : FdBstream) : Prop where
  fits : s.buf.size.toNat ≤ s.buf.maxSize.toNat
  empty : s.isNull = true → s.buf.maxSize = 0

/-- From `s` to `s'` the stream obtained the bytes `new`, and nothing else happened. -/
structure Obtains (new : List UInt8) (s s' : FdBstream) : Prop where
  queue : s'.queue = s.queue.put new
  valid : s'.Valid
  takes : s'.takes = s.takes
  isNull : s'.isNull = true → s.isNull = true

theorem FdBstream.Valid.obtains_nil {s s' : FdBstream} (h : s.Valid) (hbuf : s'.buf = s.buf)
    (hnull : s'.isNull = s.isNull) (hobtained : s'.obtained = s.obtained)
    (hdelivered : s'.delivered = s.delivered) (htakes : s'.takes = s.takes) : Obtains [] s s' := by
  refine ⟨?_, ⟨?_, ?_⟩, htakes, fun hn => hnull ▸ hn⟩
  · rw [FdBstream.queue, FdBstream.queue, Queue.put, hobtained, hdelivered, hbuf, List.append_nil,
      List.append_nil]
  · rw [hbuf]
    exact h.fits
  · rw [hbuf, hnull]
    exact h.empty

theorem NinioBuffer.size_add {buf : NinioBuffer} {n : ℕ}
    (hroom : buf.size.toNat+n ≤ buf.maxSize.toNat) :
    (buf.size+UInt64.ofNat n).toNat = buf.size.toNat+n := by
  have hmax : buf.maxSize.toNat < 2^64 := buf.maxSize.toNat_lt
  have hword : n < UInt64.size := by
    rw [UInt64.size]
    omega
  rw [UInt64.toNat_add, UInt64.toNat_ofNat_of_lt' hword]
  exact Nat.mod_eq_of_lt (by omega)

theorem NinioBuffer.bytes_append {buf : NinioBuffer} {bs : List UInt8}
    (hroom : buf.size.toNat+bs.length ≤ buf.maxSize.toNat) :
    NinioBuffer.bytes { buf with
      content := write buf.content buf.size.toNat bs
      size := buf.size+UInt64.ofNat bs.length } = buf.bytes ++ bs := by
  rw [NinioBuffer.bytes, NinioBuffer.size_add hroom, read_write_end]
  rfl

/-- A read into the room behind the bytes. -/
theorem readInto_obtains {s : FdBstream} (h : s.Valid) (count : UInt64)
    (hroom : s.buf.size.toNat+count.toNat ≤ s.buf.maxSize.toNat) :
    ∃ ok new, ((readInto env count).run s).1 = .ok ok ∧ Obtains new s ((readInto env count).run s).2 := by
  unfold readInto
  split
  · rename_i bs _
    refine ⟨true, bs.take count.toNat, rfl, ?_⟩
    set new := bs.take count.toNat with hnew
    have hlen : new.length ≤ count.toNat := by
      rw [hnew, List.length_take]
      exact Nat.min_le_left _ _
    have hfit : s.buf.size.toNat+new.length ≤ s.buf.maxSize.toNat := by omega
    refine ⟨?_, ⟨?_, fun hn => ?_⟩, rfl, fun hn => hn⟩
    · change Queue.mk _ _ _ = Queue.mk _ _ _
      rw [Queue.mk.injEq]
      exact ⟨rfl, rfl, NinioBuffer.bytes_append hfit⟩
    · change (s.buf.size+UInt64.ofNat new.length).toNat ≤ _
      rw [NinioBuffer.size_add hfit]
      exact hfit
    · exact h.empty hn
  · exact ⟨true, [], rfl, h.obtains_nil rfl rfl rfl rfl rfl⟩
  · exact ⟨false, [], rfl, h.obtains_nil rfl rfl rfl rfl rfl⟩

theorem Obtains.trans {s s' s'' : FdBstream} {new new' : List UInt8} (h : Obtains new s s')
    (h' : Obtains new' s' s'') : Obtains (new ++ new') s s'' := by
  refine ⟨?_, h'.valid, h'.takes.trans h.takes, fun hn => h.isNull (h'.isNull hn)⟩
  rw [h'.queue, h.queue, Queue.put, Queue.put, Queue.put, List.append_assoc, List.append_assoc]

theorem reallocate_bytes {s : FdBstream} (size : UInt64)
    (hfits : s.buf.size.toNat ≤ s.buf.maxSize.toNat) :
    (reallocate env size s).buf.bytes = s.buf.bytes := by
  apply (read_eq_iff _ _ _).mpr
  intro i hi
  have hold : i < s.buf.size.toNat := hi
  exact if_pos (by omega)

theorem reallocate_obtains {s : FdBstream} (h : s.Valid) (size : UInt64)
    (hsize : s.buf.maxSize.toNat ≤ size.toNat) : Obtains [] s (reallocate env size s) := by
  have hfits := h.fits
  refine ⟨?_, ⟨le_trans hfits hsize, nofun⟩, rfl, nofun⟩
  rw [FdBstream.queue, FdBstream.queue, Queue.put, reallocate_bytes env size hfits, List.append_nil,
    List.append_nil]
  rfl

/-- Filling up obtains some bytes, perhaps none. -/
theorem attemptFillUpBuffer_obtains (size : UInt64) {s : FdBstream} (h : s.Valid) :
    ∃ ok new, ((attemptFillUpBuffer env size).run s).1 = .ok ok ∧
      Obtains new s ((attemptFillUpBuffer env size).run s).2 := by
  have hfits := h.fits
  simp only [attemptFillUpBuffer, bind_run, get_run, ite_run, modify_run]
  split_ifs with hless hgrow hok
  · have hlt := UInt64.lt_iff_toNat_lt.mp hless
    have hsum : s.buf.size+(size-s.buf.size) = size := by
      rw [UInt64.add_comm, UInt64.sub_add_cancel]
    rw [hsum] at hgrow ⊢
    have hmax := UInt64.lt_iff_toNat_lt.mp hgrow
    have hremaining : (size-s.buf.size).toNat = size.toNat-s.buf.size.toNat :=
      UInt64.toNat_sub_of_le _ _ (UInt64.le_iff_toNat_le.mpr hlt.le)
    have hgrown := reallocate_obtains env h size hmax.le
    have hroom : (reallocate env size s).buf.size.toNat+(size-s.buf.size).toNat ≤
        (reallocate env size s).buf.maxSize.toNat := by
      change s.buf.size.toNat+(size-s.buf.size).toNat ≤ size.toNat
      omega
    obtain ⟨ok, new, hrun, hobtains⟩ := readInto_obtains env hgrown.valid (size-s.buf.size) hroom
    exact ⟨ok, new, hrun, hgrown.trans hobtains⟩
  · refine readInto_obtains env h (s.buf.maxSize-s.buf.size) ?_
    rw [UInt64.toNat_sub_of_le _ _ (UInt64.le_iff_toNat_le.mpr hfits)]
    omega
  · have hlt := UInt64.lt_iff_toNat_lt.mp hless
    have hsum : s.buf.size+(size-s.buf.size) = size := by
      rw [UInt64.add_comm, UInt64.sub_add_cancel]
    have hmax := UInt64.le_iff_toNat_le.mp (UInt64.not_lt.mp hgrow)
    rw [hsum] at hmax
    refine readInto_obtains env h (size-s.buf.size) ?_
    rw [UInt64.toNat_sub_of_le _ _ (UInt64.le_iff_toNat_le.mpr hlt.le)]
    omega
  · exact ⟨true, [], rfl, h.obtains_nil rfl rfl rfl rfl rfl⟩

theorem attemptFillUpBuffer_full (size : UInt64) {s : FdBstream} (h : size ≤ s.buf.size) :
    (attemptFillUpBuffer env size).run s = (.ok true, s) := by
  simp only [attemptFillUpBuffer, bind_run, get_run, UInt64.not_lt.mpr h, ↓reduceIte, pure_run]

end Fill

section Takes

/-- All that the buffer holds is taken, or nothing, and there is a buffer. -/
def Take.Whole (t : Take) : Prop := t.allocated = true ∧ (t.taken = 0 ∨ t.taken = t.held)

/-- How many of the bytes taken stay in the buffer as well. -/
def Take.kept (t : Take) : ℕ := if t.taken = t.held then 0 else t.taken

theorem Take.kept_le (t : Take) : t.kept ≤ t.taken := by
  rw [Take.kept]
  split_ifs
  · exact Nat.zero_le _
  · exact le_refl _

/-- A take that is possible: what it leaves behind, and what it hands over. -/
theorem ninioBufferRead_run (n : UInt64) {s : FdBstream} (hnull : s.isNull = false)
    (hn : n ≤ s.buf.size) : ∃ s', (ninioBufferRead n).run s = (.ok (s.buf.bytes.take n.toNat), s') ∧
      s'.isNull = false ∧ s'.buf.maxSize = s.buf.maxSize ∧ s'.obtained = s.obtained ∧
      s'.delivered = s.delivered ∧ s'.takes = s.takes ++ [⟨true, n.toNat, s.buf.size.toNat⟩] ∧
      s'.buf.size.toNat+n.toNat = s.buf.size.toNat+(⟨true, n.toNat, s.buf.size.toNat⟩ : Take).kept ∧
      (n.toNat = 0 ∨ n.toNat = s.buf.size.toNat → s'.buf.bytes = s.buf.bytes.drop n.toNat) := by
  have hle := UInt64.le_iff_toNat_le.mp hn
  have hout : read s.buf.content n.toNat = s.buf.bytes.take n.toNat :=
    (read_take s.buf.content n.toNat s.buf.size.toNat hle).symm
  have hsub : (s.buf.size-n).toNat = s.buf.size.toNat-n.toNat := UInt64.toNat_sub_of_le _ _ hn
  simp only [ninioBufferRead, bind_run, get_run, modify_run, hnull, UInt64.not_lt.mpr hn,
    Bool.false_eq_true, Bool.not_false, ↓reduceIte]
  by_cases hrest : s.buf.size-n > 0
  · have hpos : 0 < (s.buf.size-n).toNat := UInt64.lt_iff_toNat_lt.mp hrest
    rw [if_pos hrest, ← hout]
    refine ⟨_, rfl, rfl, rfl, rfl, rfl, rfl, ?_, fun hwhole => ?_⟩
    · have hpart : n.toNat ≠ s.buf.size.toNat := by omega
      rw [Take.kept, if_neg hpart]
    · have hzero : n.toNat = 0 := by omega
      have hmoved := read_moveDown s.buf.content n.toNat (s.buf.size-n).toNat
      change read (moveDown s.buf.content n.toNat (s.buf.size-n).toNat) s.buf.size.toNat =
        s.buf.bytes.drop n.toNat
      rw [hsub, hzero, Nat.sub_zero, shift_zero] at hmoved
      rw [hsub, hzero, Nat.sub_zero, hmoved, List.drop_zero]
      rfl
  · have hall : (s.buf.size-n).toNat = 0 := by
      have := UInt64.le_iff_toNat_le.mp (UInt64.not_lt.mp hrest)
      exact Nat.le_zero.mp this
    rw [if_neg hrest, ← hout]
    refine ⟨_, rfl, rfl, rfl, rfl, rfl, rfl, ?_, fun _ => ?_⟩
    · have hwhole : n.toNat = s.buf.size.toNat := by omega
      rw [Take.kept, if_pos hwhole]
      change 0+n.toNat = s.buf.size.toNat+0
      omega
    · rw [List.drop_of_length_le (by rw [NinioBuffer.bytes_length]; omega)]
      rfl

theorem ninioBufferRead_null (n : UInt64) {s : FdBstream} (hnull : s.isNull = true) :
    (ninioBufferRead n).run s = (.error .abort,
      { s with takes := s.takes ++ [⟨false, n.toNat, s.buf.size.toNat⟩] }) := by
  simp only [ninioBufferRead, bind_run, get_run, modify_run, hnull, Bool.not_true, ↓reduceIte, exit_run]

/-- A run so far: the queue is one as long as everything was taken as a whole, and what was not is
there twice. -/
structure StreamSound (s : FdBstream) : Prop where
  valid : s.Valid
  allocated : ∀ t ∈ s.takes, t.allocated = true
  fifo : (∀ t ∈ s.takes, t.Whole) → s.queue.Fifo
  surplus : s.queue.Surplus (s.takes.map Take.kept).sum

/-- Bytes were to be taken off a buffer that was never allocated. -/
def Aborted (s : FdBstream) : Prop := ∃ t ∈ s.takes, t.allocated = false

theorem StreamSound.obtains {s s' : FdBstream} {new : List UInt8} (h : StreamSound s)
    (ho : Obtains new s s') : StreamSound s' := by
  refine ⟨ho.valid, ?_, ?_, ?_⟩
  · rw [ho.takes]
    exact h.allocated
  · rw [ho.takes, ho.queue]
    intro hwhole
    exact (h.fifo hwhole).put new
  · have hold : s.delivered.length+s.buf.bytes.length = s.obtained.length+_ := h.surplus
    rw [ho.takes, ho.queue]
    change s.delivered.length+(s.buf.bytes ++ new).length = (s.obtained ++ new).length+_
    rw [List.length_append, List.length_append]
    omega

theorem attemptFillUpBuffer_sound (env : FdEnv) (size : UInt64) :
    Ensures StreamSound (attemptFillUpBuffer env size) (fun _ => StreamSound) Aborted := by
  intro s h
  obtain ⟨ok, new, hrun, hobtains⟩ := attemptFillUpBuffer_obtains env size h.valid
  refine ⟨fun _ _ => h.obtains hobtains, fun e he => ?_⟩
  rw [hrun] at he
  cases he

theorem take_sound (n : UInt64) :
    Ensures (fun s => StreamSound s ∧ n ≤ s.buf.size) (do
      let out ← ninioBufferRead n
      handOut out) (fun _ => StreamSound) Aborted := by
  rintro s ⟨h, hn⟩
  -- without a buffer the assertion fails
  rcases hnull : s.isNull with _ | _
  · obtain ⟨s', hrun, hnull', hmax, hobtained, hdelivered, htakes, hsize, hbytes⟩ :=
      ninioBufferRead_run n hnull hn
    have hle := UInt64.le_iff_toNat_le.mp hn
    have hsound : StreamSound { s' with delivered := s'.delivered ++ s.buf.bytes.take n.toNat } := by
      refine ⟨⟨?_, fun hn => ?_⟩, fun t ht => ?_, fun hwhole => ?_, ?_⟩
      · have hfits := h.valid.fits
        have hkept := Take.kept_le ⟨true, n.toNat, s.buf.size.toNat⟩
        change s'.buf.size.toNat ≤ s'.buf.maxSize.toNat
        rw [hmax]
        change _ ≤ n.toNat at hkept
        omega
      · have hnone : s'.isNull = true := hn
        rw [hnull'] at hnone
        cases hnone
      · rw [htakes] at ht
        rcases List.mem_append.mp ht with ht | ht
        · exact h.allocated t ht
        · rw [List.mem_singleton.mp ht]
      · rw [htakes] at hwhole
        have hold := h.fifo fun t ht => hwhole t (List.mem_append_left _ ht)
        have hlast := (hwhole _ (List.mem_append_right _ (List.mem_singleton_self _))).2
        have hqueue : FdBstream.queue { s' with delivered := s'.delivered ++ s.buf.bytes.take n.toNat } =
            s.queue.deliver n.toNat := by
          rw [FdBstream.queue, FdBstream.queue, Queue.deliver, hbytes hlast, hobtained, hdelivered]
        rw [hqueue]
        exact hold.deliver n.toNat
      · have hold : s.delivered.length+s.buf.bytes.length = s.obtained.length+_ := h.surplus
        change (s'.delivered ++ s.buf.bytes.take n.toNat).length+s'.buf.bytes.length =
          s'.obtained.length+(s'.takes.map Take.kept).sum
        rw [NinioBuffer.bytes_length] at hold
        rw [htakes, hobtained, hdelivered, List.map_append, List.sum_append, List.map_singleton,
          List.sum_singleton, List.length_append, List.length_take, NinioBuffer.bytes_length,
          NinioBuffer.bytes_length, min_eq_left hle]
        omega
    rw [bind_run, hrun]
    exact ⟨fun _ _ => hsound, fun e he => by cases he⟩
  · rw [bind_run, ninioBufferRead_null n hnull]
    refine ⟨fun _ hok => (by cases hok), fun _ _ => ?_⟩
    exact ⟨_, List.mem_append_right _ (List.mem_singleton_self _), rfl⟩

end Takes

section Runs

theorem bstreamCall_sound (call : BstreamCall) :
    Ensures StreamSound call.run (fun _ => StreamSound) Aborted := by
  have hdone {α : Type} (a : α) :
      Ensures StreamSound (pure a : BstreamProg α) (fun _ => StreamSound) Aborted :=
    Ensures.pure fun _ h => h
  have hget : Ensures StreamSound (get : BstreamProg FdBstream)
      (fun s s' => StreamSound s' ∧ s' = s) Aborted :=
    Ensures.get fun _ h => ⟨h, rfl⟩
  cases call with
  | read env bytes =>
    refine Ensures.bind ((attemptFillUpBuffer_sound env bytes).bind fun _ => hget.bind fun s =>
      Ensures.ite (fun hn => ?_) fun _ => ?_) fun _ => hdone ()
    · refine (take_sound bytes).mono ?_ (fun _ _ h => h) fun _ h => h
      rintro _ ⟨h, rfl⟩
      exact ⟨h, hn⟩
    · refine Ensures.bind (Q := fun _ => StreamSound) (Ensures.modify fun s hs => ?_) fun _ => hdone none
      exact ⟨⟨hs.1.valid.fits, hs.1.valid.empty⟩, hs.1.allocated, hs.1.fifo, hs.1.surplus⟩
  | readMax env bytes =>
    refine Ensures.bind ((attemptFillUpBuffer_sound env bytes).bind fun filled =>
      Ensures.ite (fun _ => hdone none) fun _ => hget.bind fun s => ?_) fun _ => hdone ()
    refine (take_sound _).mono ?_ (fun _ _ h => h) fun _ h => h
    rintro _ ⟨h, rfl⟩
    refine ⟨h, ?_⟩
    split_ifs with hn
    · exact hn
    · exact UInt64.le_refl _
  | peek env bytes =>
    refine Ensures.bind ((attemptFillUpBuffer_sound env bytes).bind fun _ => hget.bind fun s => ?_)
      fun _ => hdone ()
    exact Ensures.ite (fun _ => Ensures.pure fun _ h => h.1) fun _ => Ensures.pure fun _ h => h.1
  | peekMax env bytes =>
    exact Ensures.bind ((attemptFillUpBuffer_sound env bytes).bind fun _ => hget.bind fun s =>
      Ensures.pure fun _ h => h.1) fun _ => hdone ()
  | isAvailable env amount =>
    exact Ensures.bind ((attemptFillUpBuffer_sound env amount).bind fun _ => hget.bind fun s =>
      Ensures.pure fun _ h => h.1) fun _ => hdone ()

theorem Take.kept_pos {t : Take} (ha : t.allocated = true) (h : ¬ t.Whole) : 0 < t.kept := by
  have hsome : t.taken ≠ 0 := fun h0 => h ⟨ha, .inl h0⟩
  have hpart : t.taken ≠ t.held := fun hall => h ⟨ha, .inr hall⟩
  rw [Take.kept, if_neg hpart]
  exact Nat.pos_of_ne_zero hsome

end Runs

section Looks
variable (env : FdEnv) (bytes : UInt64) {s : FdBstream}

/-- A call that is to look at bytes only. -/
def BstreamCall.Looks : BstreamCall → Prop
  | .read _ _ => False
  | .readMax _ _ => False
  | _ => True

/-- Looking reads ahead at most. -/
theorem looks_run (h : s.Valid) (call : BstreamCall) (hlooks : call.Looks) :
    ∃ new, (call.run.run s).1 = .ok () ∧ (call.run.run s).2.queue = s.queue.put new := by
  -- every look begins by filling up the buffer
  have hfill (size : UInt64) (env : FdEnv) : ∃ ok new s',
      (attemptFillUpBuffer env size).run s = (.ok ok, s') ∧ s'.queue = s.queue.put new := by
    obtain ⟨ok, new, hrun, hobtains⟩ := attemptFillUpBuffer_obtains env size h
    exact ⟨ok, new, _, Prod.ext hrun rfl, hobtains.queue⟩
  cases call with
  | read env bytes => exact hlooks.elim
  | readMax env bytes => exact hlooks.elim
  | peek env bytes =>
    obtain ⟨ok, new, s', hr, hqueue⟩ := hfill bytes env
    refine ⟨new, ?_⟩
    simp only [BstreamCall.run, bstreamFdPeek, bind_run, hr, get_run]
    split_ifs
    · exact ⟨rfl, hqueue⟩
    · exact ⟨rfl, hqueue⟩
  | peekMax env bytes =>
    obtain ⟨ok, new, s', hr, hqueue⟩ := hfill bytes env
    refine ⟨new, ?_⟩
    simp only [BstreamCall.run, bstreamFdPeekMax, bind_run, hr, get_run]
    exact ⟨rfl, hqueue⟩
  | isAvailable env amount =>
    obtain ⟨ok, new, s', hr, hqueue⟩ := hfill amount env
    refine ⟨new, ?_⟩
    simp only [BstreamCall.run, bstreamFdIsAvailable, bind_run, hr, get_run]
    exact ⟨rfl, hqueue⟩

/-- A read of bytes that are buffered gives them, if there is a buffer. -/
theorem bstreamFdRead_buffered (h : bytes ≤ s.buf.size) :
    ((bstreamFdRead env bytes).run s).1 = .ok (some (s.buf.bytes.take bytes.toNat)) ↔
      s.isNull = false := by
  have hrun : (bstreamFdRead env bytes).run s = (do
      let out ← ninioBufferRead bytes
      handOut out : BstreamProg _).run s := by
    simp only [bstreamFdRead, bind_run, attemptFillUpBuffer_full env bytes h, get_run, h, ↓reduceIte]
  rw [hrun, bind_run]
  rcases hnull : s.isNull with _ | _
  · obtain ⟨s', hread, -⟩ := ninioBufferRead_run bytes hnull h
    rw [hread]
    exact ⟨fun _ => rfl, fun _ => rfl⟩
  · rw [ninioBufferRead_null bytes hnull]
    constructor
    · intro hok
      cases hok
    · intro hfalse
      cases hfalse

/-- What a peek shows is the beginning of what is buffered afterwards. -/
theorem bstreamFdPeek_run {bs : List UInt8} {s' : FdBstream}
    (hrun : (bstreamFdPeek env bytes).run s = (.ok (some bs), s') ∨
      (bstreamFdPeekMax env bytes).run s = (.ok bs, s')) :
    UInt64.ofNat bs.length ≤ s'.buf.size ∧ s'.buf.bytes.take (UInt64.ofNat bs.length).toNat = bs := by
  have hshown (k : UInt64) (hk : k ≤ s'.buf.size) (hbs : read s'.buf.content k.toNat = bs) :
      UInt64.ofNat bs.length ≤ s'.buf.size ∧
        s'.buf.bytes.take (UInt64.ofNat bs.length).toNat = bs := by
    have hlen : UInt64.ofNat bs.length = k := by
      rw [← hbs, read_length, UInt64.ofNat_toNat]
    rw [hlen]
    refine ⟨hk, ?_⟩
    rw [NinioBuffer.bytes, read_take _ _ _ (UInt64.le_iff_toNat_le.mp hk), hbs]
  rcases hrun with hrun | hrun
  · rw [bstreamFdPeek, bind_run] at hrun
    rcases hr : (attemptFillUpBuffer env bytes).run s with ⟨e | ok, t⟩ <;> rw [hr] at hrun
    · cases hrun
    · simp only [bind_run, get_run, ite_run] at hrun
      split_ifs at hrun with hk
      · cases hrun
        exact hshown bytes hk rfl
      · cases hrun
  · rw [bstreamFdPeekMax, bind_run] at hrun
    rcases hr : (attemptFillUpBuffer env bytes).run s with ⟨e | ok, t⟩ <;> rw [hr] at hrun
    · cases hrun
    · simp only [bind_run, get_run, pure_run] at hrun
      cases hrun
      refine hshown (if bytes ≤ s'.buf.size then bytes else s'.buf.size) ?_ rfl
      split_ifs with hk
      · exact hk
      · exact UInt64.le_refl _

end Looks

section Fifo

/-- Whatever is called on a stream, it is a FIFO and its calls return if and only if everything that
was taken off the buffer was taken as a whole. What only looks takes nothing, and a peek shows what
a read gives then, if there is a buffer. -/
theorem bstream_fifo_iff (r : Except Halt Unit) (s : FdBstream) (h : BstreamRun r s) :
    (r = .ok () ∧ s.queue.Fifo ↔ ∀ t ∈ s.takes, t.Whole) ∧
    (r = .ok () → ∀ call : BstreamCall, call.Looks →
      ∃ new, (call.run.run s).1 = .ok () ∧ (call.run.run s).2.queue = s.queue.put new) ∧
    (∀ env bytes bs s', (bstreamFdPeek env bytes).run s = (.ok (some bs), s') ∨
        (bstreamFdPeekMax env bytes).run s = (.ok bs, s') →
      ∀ env', ((bstreamFdRead env' (UInt64.ofNat bs.length)).run s').1 = .ok (some bs) ↔
        s'.isNull = false) := by
  have hstart : StreamSound bstreamFromFd := ⟨⟨le_refl 0, fun _ => rfl⟩, nofun, fun _ => rfl, rfl⟩
  have hrun := h.ensures hstart fun call => (bstreamCall_sound call).mono (fun _ hs => hs.2)
    (fun _ _ hs => hs) fun _ hs => hs
  refine ⟨⟨?_, fun hwhole => ?_⟩, fun hok call hlooks => ?_, fun env bytes bs s' hpeek env' => ?_⟩
  · rintro ⟨rfl, hfifo⟩ t ht
    have hsound := hrun.1 rfl
    -- what is taken in part stays in the buffer, and so there are more bytes than were obtained
    by_contra hpart
    have hkept := Take.kept_pos (hsound.allocated t ht) hpart
    have hsum : t.kept ≤ (s.takes.map Take.kept).sum :=
      List.single_le_sum (fun _ _ => Nat.zero_le _) _ (List.mem_map_of_mem ht)
    have hnone : s.queue.Surplus 0 := hfifo.surplus
    have hmore : s.queue.Surplus (s.takes.map Take.kept).sum := hsound.surplus
    unfold Queue.Surplus at hnone hmore
    omega
  · rcases r with e | ⟨⟩
    · obtain ⟨t, ht, hnull⟩ := hrun.2 e rfl
      rw [(hwhole t ht).1] at hnull
      cases hnull
    · exact ⟨rfl, (hrun.1 rfl).fifo hwhole⟩
  · exact looks_run (hrun.1 hok).valid call hlooks
  · obtain ⟨hle, htake⟩ := bstreamFdPeek_run env bytes hpeek
    rw [← bstreamFdRead_buffered env' _ hle, htake]

end Fifo

section Example

/-- A descriptor that has the bytes 1 and 2. -/
def twoBytes : FdEnv := { realloc := true, garbage := fun _ => 0, read := .bytes [1, 2] }

/-- A stream that was looked at. -/
def peekedExample : Except Halt Unit × FdBstream :=
  (BstreamCall.peek twoBytes 2).run.run bstreamFromFd

theorem peeked_run (call : BstreamCall) :
    BstreamRun ((call.run.run peekedExample.2).1.map fun _ => ()) (call.run.run peekedExample.2).2 := by
  have hstart : BstreamRun (.ok ()) bstreamFromFd := .start
  have hpeeked : BstreamRun (.ok ()) peekedExample.2 :=
    Reaches.call (BstreamCall.peek twoBytes 2) hstart trivial
  exact Reaches.call call hpeeked trivial

theorem both_read :
    (((BstreamCall.read twoBytes 2).run.run peekedExample.2).1.map fun _ => ()) = .ok () ∧
      ((BstreamCall.read twoBytes 2).run.run peekedExample.2).2.queue.Fifo ↔
    ∀ t ∈ ((BstreamCall.read twoBytes 2).run.run peekedExample.2).2.takes, t.Whole :=
  (bstream_fifo_iff _ _ (peeked_run _)).1

/-- One byte is read, and the other one is buffered twice from then on. -/
theorem half_read : ∃ r s, BstreamRun r s ∧ s.obtained = [1, 2] ∧ s.delivered = [1] ∧
    s.buf.bytes = [2, 2] ∧ ¬ s.queue.Fifo := by
  refine ⟨_, _, peeked_run (.read twoBytes 1), ?_, ?_, ?_, ?_⟩
  · decide
  · decide
  · decide
  · unfold Queue.Fifo
    decide

end Example

end Stronk.Mcpr
