import Stronk.Bstream

/-! What `attempt_fill_up_buffer` asks `read` for, and what it leaves in the buffer. -/
namespace Stronk.Mcpr
open ByteMemory EarlyExit

section Model

/-- What `read` returns when it is asked for `count` bytes. -/
def FdReadResult.upTo (count : ℕ) : FdReadResult → FdReadResult
  | .bytes bs => .bytes (bs.take count)
  | .again => .again
  | .error => .error

def FdReadResult.toList : FdReadResult → List UInt8
  | .bytes bs => bs
  | .again => []
  | .error => []

/-- A call of `read`: where in the buffer and for how many bytes, how large the buffer is then, and
what is returned. -/
structure FdRead where
  offset : ℕ
  count : ℕ
  maxSize : ℕ
  result : FdReadResult
  deriving DecidableEq, Repr, Inhabited

/-- A stream and the calls of `read` for it. -/
structure FdTrace where
  stream : FdBstream
  reads : List FdRead

abbrev TraceProg := Prog FdTrace Halt

def onStream {α : Type} (m : BstreamProg α) : TraceProg α :=
  zoom FdTrace.stream (fun s t => { t with stream := s }) m

variable (env : FdEnv)

def tracedRead (count : UInt64) : TraceProg Bool := do
  modify fun t => { t with
    reads := t.reads ++ [{
      offset := t.stream.buf.size.toNat
      count := count.toNat
      maxSize := t.stream.buf.maxSize.toNat
      result := env.read.upTo count.toNat }] }
  onStream (readInto env count)

/-- `attempt_fill_up_buffer` with its calls of `read`. -/
def tracedFill (size : UInt64) : TraceProg Bool := do
  let t ← get
  let s := t.stream
  if s.buf.size < size then do
    let remaining := size-s.buf.size
    if s.buf.maxSize < s.buf.size+remaining then
      if (s.buf.size+remaining).toNat ≤ ptrdiffMax ∧ env.realloc = true then do
        onStream (modify (reallocate env (s.buf.size+remaining)))
        tracedRead env remaining
      -- as much as there is room for
      else tracedRead env (s.buf.maxSize-s.buf.size)
    else tracedRead env remaining
  else return true

end Model

section Property

/-- What is asked for lies in the buffer, what is read is appended to what it held, which is never
too much, and an error other than `EAGAIN` and `EWOULDBLOCK` is the only failure and adds nothing. -/
structure FilledUp (size : UInt64) (s : FdBstream) (ok : Bool) (t : FdTrace) : Prop where
  inside : ∀ r ∈ t.reads, r.offset+r.count ≤ r.maxSize
  bytes : t.stream.buf.bytes = s.buf.bytes ++ t.reads.flatMap fun r => r.result.toList
  fits : t.stream.buf.size ≤ t.stream.buf.maxSize
  bounded : t.stream.buf.size.toNat ≤ max s.buf.size.toNat size.toNat
  failed : ok = false ↔ ∃ r ∈ t.reads, r.result = .error
  unchanged : ok = false → t.stream.buf.bytes = s.buf.bytes

end Property

section Fill
variable (env : FdEnv) (size : UInt64)

/-- Without its calls of `read` it is `attempt_fill_up_buffer`. -/
theorem tracedFill_run (t : FdTrace) :
    ((tracedFill env size).run t).1 = ((attemptFillUpBuffer env size).run t.stream).1 ∧
      ((tracedFill env size).run t).2.stream =
        ((attemptFillUpBuffer env size).run t.stream).2 := by
  simp only [tracedFill, tracedRead, onStream, attemptFillUpBuffer, bind_run, get_run, ite_run,
    modify_run, zoom_run, pure_run]
  split_ifs
  · exact ⟨rfl, rfl⟩
  · exact ⟨rfl, rfl⟩
  · exact ⟨rfl, rfl⟩
  · exact ⟨rfl, rfl⟩

/-- One call of `read` with room for what it is asked for, in a buffer that holds the bytes of `s`. -/
theorem tracedRead_fills {s s' : FdBstream} (hbytes : s'.buf.bytes = s.buf.bytes) {count : UInt64}
    (hroom : s'.buf.size.toNat+count.toNat ≤ s'.buf.maxSize.toNat)
    (hbound : s'.buf.size.toNat+count.toNat ≤ max s.buf.size.toNat size.toNat) :
    ∃ ok t, (tracedRead env count).run ⟨s', []⟩ = (.ok ok, t) ∧ FilledUp size s ok t := by
  have hfits : s'.buf.size ≤ s'.buf.maxSize := UInt64.le_iff_toNat_le.mpr (by omega)
  have hleft : s'.buf.size.toNat ≤ max s.buf.size.toNat size.toNat := by omega
  simp only [tracedRead, onStream, bind_run, modify_run, zoom_run, List.nil_append]
  unfold readInto
  cases hread : env.read with
  | bytes bs =>
    have hlen : (bs.take count.toNat).length ≤ count.toNat := List.length_take_le ..
    have hroom' : s'.buf.size.toNat+(bs.take count.toNat).length ≤ s'.buf.maxSize.toNat := by omega
    have hsum := NinioBuffer.size_add hroom'
    have hnew : s'.buf.size+UInt64.ofNat (bs.take count.toNat).length ≤ s'.buf.maxSize :=
      UInt64.le_iff_toNat_le.mpr (by omega)
    have hmost : (s'.buf.size+UInt64.ofNat (bs.take count.toNat).length).toNat ≤
        max s.buf.size.toNat size.toNat := by omega
    refine ⟨true, _, rfl, ?_, ?_, hnew, hmost, ?_, ?_⟩
    · simpa using hroom
    · simp only [modify_run, bind_run, pure_run]
      rw [NinioBuffer.bytes_append hroom', hbytes]
      simp [FdReadResult.upTo, FdReadResult.toList]
    · simp [FdReadResult.upTo]
    · simp
  | again =>
    refine ⟨true, _, rfl, ?_, ?_, hfits, hleft, ?_, ?_⟩
    · simpa using hroom
    · simp [hbytes, FdReadResult.upTo, FdReadResult.toList]
    · simp [FdReadResult.upTo]
    · simp
  | error =>
    refine ⟨false, _, rfl, ?_, ?_, hfits, hleft, ?_, ?_⟩
    · simpa using hroom
    · simp [hbytes, FdReadResult.upTo, FdReadResult.toList]
    · simp [FdReadResult.upTo]
    · exact fun _ => hbytes

theorem tracedFill_fills {s : FdBstream} (h : s.buf.size ≤ s.buf.maxSize) :
    ∃ ok t, (tracedFill env size).run ⟨s, []⟩ = (.ok ok, t) ∧ FilledUp size s ok t := by
  have hfits := UInt64.le_iff_toNat_le.mp h
  by_cases hless : s.buf.size < size
  · have hlt := UInt64.lt_iff_toNat_lt.mp hless
    have hremaining : (size-s.buf.size).toNat = size.toNat-s.buf.size.toNat :=
      UInt64.toNat_sub_of_le _ _ (UInt64.le_iff_toNat_le.mpr hlt.le)
    have hsum : s.buf.size+(size-s.buf.size) = size := by
      rw [UInt64.add_comm, UInt64.sub_add_cancel]
    simp only [tracedFill, bind_run, get_run, ite_run, hless, ↓reduceIte, hsum]
    split_ifs with hgrow hok
    · have hlarger := UInt64.lt_iff_toNat_lt.mp hgrow
      have hbytes : (reallocate env size s).buf.bytes = s.buf.bytes :=
        reallocate_bytes env size hfits
      have hroom : s.buf.size.toNat+(size-s.buf.size).toNat ≤ size.toNat := by omega
      exact tracedRead_fills env size hbytes hroom (hroom.trans (le_max_right _ _))
    · have hlarger := UInt64.lt_iff_toNat_lt.mp hgrow
      have hpossible : (s.buf.maxSize-s.buf.size).toNat =
          s.buf.maxSize.toNat-s.buf.size.toNat := UInt64.toNat_sub_of_le _ _ h
      exact tracedRead_fills env size rfl (by omega) (by omega)
    · have hlarge := UInt64.le_iff_toNat_le.mp (UInt64.not_lt.mp hgrow)
      exact tracedRead_fills env size rfl (by omega) (by omega)
  · -- there is enough already
    refine ⟨true, ⟨s, []⟩, ?_, ?_⟩
    · simp only [tracedFill, bind_run, get_run, hless, ↓reduceIte, pure_run]
    · exact ⟨by simp, by simp, h, le_max_left _ _, by simp, by simp⟩

/-- Filling up a buffer that is as large as it says never goes wrong. -/
theorem fill_right (s : FdBstream) (h : s.buf.size ≤ s.buf.maxSize) :
    ∃ ok t, (tracedFill env size).run ⟨s, []⟩ = (.ok ok, t) ∧
      (attemptFillUpBuffer env size).run s = (.ok ok, t.stream) ∧ FilledUp size s ok t := by
  obtain ⟨ok, t, hrun, hfilled⟩ := tracedFill_fills env size h
  obtain ⟨hresult, hstream⟩ := tracedFill_run env size ⟨s, []⟩
  rw [hrun] at hresult hstream
  exact ⟨ok, t, hrun, Prod.ext hresult.symm hstream.symm, hfilled⟩

/-- Two bytes are asked for in a new buffer, where three have arrived. -/
theorem new_buffer_filled :
    let env : FdEnv := { realloc := true, garbage := ofList [], read := .bytes [7, 8, 9] }
    ∃ t, (attemptFillUpBuffer env 2).run bstreamFromFd = (.ok true, t.stream) ∧
      FilledUp 2 bstreamFromFd true t ∧ t.stream.buf.bytes = [7, 8] := by
  intro env
  obtain ⟨ok, t, -, hrun, hfilled⟩ := fill_right env 2 bstreamFromFd (by decide)
  have hok : ((attemptFillUpBuffer env 2).run bstreamFromFd).1 = .ok true := by rfl
  have hbytes : ((attemptFillUpBuffer env 2).run bstreamFromFd).2.buf.bytes = [7, 8] := by
    decide +kernel
  rw [hrun] at hok hbytes
  cases hok
  exact ⟨t, hrun, hfilled, hbytes⟩

end Fill

end Stronk.Mcpr
