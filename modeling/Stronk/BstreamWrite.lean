import Stronk.Bstream

/-! Writing to a byte stream over a descriptor (`ninio/bstream.c`): what becomes of the result of
`write` on its way through `bstream_fd_write`, `bstream_vprintf` and the write function of
`fp_from_bstream`. -/
namespace Stronk.Mcpr
open EarlyExit

section Model

/-- How `write` fares: it takes up to `count` bytes, or fails. -/
inductive FdWriteResult
  | accepted (count : ℕ)
  | error
  deriving DecidableEq, Repr, Inhabited

/-- What the descriptor has received. -/
structure FdSink where
  received : List UInt8
  deriving DecidableEq, Repr, Inhabited

abbrev SinkProg := Prog FdSink Halt

/-- `write(private->fd, in, bytes)` -/
def fdWrite (result : FdWriteResult) (buf : List UInt8) : SinkProg ℤ :=
  match result with
  | .accepted count => do
    modify fun s => { s with received := s.received ++ buf.take count }
    return (buf.take count).length
  | .error => return -1

/-- The signed count is returned as a `bool`. -/
def bstreamFdWrite (result : FdWriteResult) (buf : List UInt8) : SinkProg Bool := do
  let count ← fdWrite result buf
  -- -1 is true as well
  return count ≠ 0

/-- `bstream_write` on a stream that `bstream_from_fd` made. -/
def bstreamWrite (result : FdWriteResult) (buf : List UInt8) : SinkProg Bool :=
  bstreamFdWrite result buf

/-- `vasprintf`, for what the format comes to, if anything; the length has to fit in an `int`. -/
def vasprintf (formatted : Option (List UInt8)) : Option (List UInt8) :=
  formatted.filter fun text => text.length ≤ int32Max

def bstreamVprintf (result : FdWriteResult) (formatted : Option (List UInt8)) : SinkProg ℤ :=
  match vasprintf formatted with
  | none => return -1
  | some buf => do
    let ok ← bstreamWrite result buf
    if ok = false then return -1
    else return buf.length

def fpFromBstreamWrite (result : FdWriteResult) (buf : List UInt8) : SinkProg ℤ := do
  let ok ← bstreamWrite result buf
  if ok = false then return -1
  else return buf.length

/-- The ways to write. -/
inductive WriteCall
  | bstreamFdWrite (buf : List UInt8)
  | bstreamVprintf (formatted : Option (List UInt8))
  | fpFromBstreamWrite (buf : List UInt8)
  deriving DecidableEq, Repr

/-- What is to be written; nothing if the format fails. -/
def WriteCall.buffer : WriteCall → Option (List UInt8)
  | .bstreamFdWrite buf => some buf
  | .bstreamVprintf formatted => vasprintf formatted
  | .fpFromBstreamWrite buf => some buf

/-- Does a call report success: `true`, or the full size? -/
def WriteCall.run (result : FdWriteResult) : WriteCall → SinkProg Bool
  | .bstreamFdWrite buf => Mcpr.bstreamFdWrite result buf
  | .bstreamVprintf formatted => do
    let count ← Mcpr.bstreamVprintf result formatted
    return some count = (vasprintf formatted).map fun buf => (buf.length : ℤ)
  | .fpFromBstreamWrite buf => do
    let count ← Mcpr.fpFromBstreamWrite result buf
    return count = buf.length

/-- A sequence of calls, each with the result of the `write` that it leads to. -/
def writeAll : List (WriteCall × FdWriteResult) → SinkProg (List Bool)
  | [] => return []
  | (call, result) :: calls => do
    let report ← call.run result
    let reports ← writeAll calls
    return report :: reports

end Model

section Property

/-- The descriptor accepted the whole buffer of a call. -/
def AcceptedWhole (call : WriteCall) (result : FdWriteResult) : Prop :=
  ∃ buf count, call.buffer = some buf ∧ result = .accepted count ∧ buf.length ≤ count

/-- Success is reported by exactly those calls whose buffer was accepted completely, and if it is
always reported, the descriptor has what the buffers hold. -/
structure NothingLost (calls : List (WriteCall × FdWriteResult)) : Prop where
  reports : ∃ reports s, (writeAll calls).run default = (.ok reports, s) ∧
    List.Forall₂ (fun call report => report = true ↔ AcceptedWhole call.1 call.2) calls reports
  received : ∀ reports s, (writeAll calls).run default = (.ok reports, s) →
    (∀ report ∈ reports, report = true) →
      s.received = calls.flatMap fun call => call.1.buffer.getD []

/-- What is written is not empty, and the descriptor takes all of it or nothing. -/
def AllOrNothing (call : WriteCall) (result : FdWriteResult) : Prop :=
  ∀ buf, call.buffer = some buf →
    buf ≠ [] ∧ ∃ count, result = .accepted count ∧ (count = 0 ∨ buf.length ≤ count)

end Property

section Calls

/-- What of a buffer goes out. -/
def FdWriteResult.taken (buf : List UInt8) : FdWriteResult → List UInt8
  | .accepted count => buf.take count
  | .error => []

/-- Whether the result of `write` is true as a `bool`. -/
def FdWriteResult.truthy (buf : List UInt8) : FdWriteResult → Bool
  | .accepted count => buf.take count ≠ []
  | .error => true

theorem bstreamFdWrite_run (result : FdWriteResult) (buf : List UInt8) (s : FdSink) :
    (bstreamFdWrite result buf).run s =
      (.ok (result.truthy buf), { received := s.received ++ result.taken buf }) := by
  cases result with
  | error => simp [bstreamFdWrite, fdWrite, FdWriteResult.truthy, FdWriteResult.taken]
  | accepted count =>
    have hlength : ((buf.take count).length : ℤ) ≠ 0 ↔ buf.take count ≠ [] := by
      rw [Ne, Nat.cast_eq_zero, List.length_eq_zero_iff]
    simp only [bstreamFdWrite, fdWrite, bind_run, modify_run, pure_run, hlength,
      FdWriteResult.truthy, FdWriteResult.taken]

/-- All three ways report what `bstream_fd_write` makes of the result. -/
theorem writeCall_run (call : WriteCall) (result : FdWriteResult) (s : FdSink) :
    (call.run result).run s = (.ok (call.buffer.elim false result.truthy),
      { received := s.received ++ call.buffer.elim [] result.taken }) := by
  cases call with
  | bstreamFdWrite buf => exact bstreamFdWrite_run result buf s
  | bstreamVprintf formatted =>
    cases hbuf : vasprintf formatted with
    | none => simp [WriteCall.run, bstreamVprintf, WriteCall.buffer, hbuf]
    | some buf =>
      simp only [WriteCall.run, bstreamVprintf, WriteCall.buffer, hbuf, bstreamWrite, bind_run,
        bstreamFdWrite_run, ite_run, pure_run, Option.map_some, Option.elim_some]
      cases htruthy : result.truthy buf with
      | false => simp
      | true => simp
  | fpFromBstreamWrite buf =>
    simp only [WriteCall.run, fpFromBstreamWrite, WriteCall.buffer, bstreamWrite, bind_run,
      bstreamFdWrite_run, ite_run, pure_run, Option.elim_some]
    cases htruthy : result.truthy buf with
    | false => simp
    | true => simp

theorem writeAll_run (calls : List (WriteCall × FdWriteResult)) (s : FdSink) :
    (writeAll calls).run s =
      (.ok (calls.map fun call => call.1.buffer.elim false call.2.truthy), {
        received := s.received ++ calls.flatMap (fun call =>
          call.1.buffer.elim [] call.2.taken) }) := by
  induction calls generalizing s with
  | nil => simp [writeAll]
  | cons call calls ih =>
    obtain ⟨call, result⟩ := call
    simp only [writeAll, bind_run, writeCall_run, ih, pure_run, List.map_cons, List.flatMap_cons,
      List.append_assoc]

/-- An error is reported as a success, also by `bstream_vprintf`. -/
example : (writeAll [(.bstreamVprintf (some [7]), .error)]).run default =
    (.ok [true], { received := [] }) := by rfl

/-- A call tells the truth exactly if it writes all or nothing of something. -/
theorem report_iff (call : WriteCall) (result : FdWriteResult) :
    (call.buffer.elim false result.truthy = true ↔ AcceptedWhole call result) ↔
      AllOrNothing call result := by
  cases hbuf : call.buffer with
  | none => simp [AcceptedWhole, AllOrNothing, hbuf]
  | some buf =>
    cases result with
    | error => simp [AcceptedWhole, AllOrNothing, hbuf, FdWriteResult.truthy]
    | accepted count =>
      rcases buf with _ | ⟨b, buf⟩
      · -- an empty buffer is accepted, and reported as a failure
        simp [AcceptedWhole, AllOrNothing, hbuf, FdWriteResult.truthy]
      · cases count with
        | zero => simp [AcceptedWhole, AllOrNothing, hbuf, FdWriteResult.truthy]
        | succ count => simp [AcceptedWhole, AllOrNothing, hbuf, FdWriteResult.truthy]

theorem taken_of_accepted {call : WriteCall} {result : FdWriteResult}
    (h : AcceptedWhole call result) :
    call.buffer.elim [] result.taken = call.buffer.getD [] := by
  obtain ⟨buf, count, hbuf, rfl, hle⟩ := h
  simp [hbuf, FdWriteResult.taken, List.take_of_length_le hle]

end Calls

/-- Nothing is lost silently, and no success is denied, if and only if every `write` takes all or
nothing of a buffer that is not empty. -/
theorem nothing_lost_iff (calls : List (WriteCall × FdWriteResult)) :
    NothingLost calls ↔ ∀ call ∈ calls, AllOrNothing call.1 call.2 := by
  have hforall (calls : List (WriteCall × FdWriteResult)) :
      List.Forall₂ (fun call report => report = true ↔ AcceptedWhole call.1 call.2) calls
        (calls.map fun call => call.1.buffer.elim false call.2.truthy) ↔
      ∀ call ∈ calls, AllOrNothing call.1 call.2 := by
    rw [List.forall₂_map_right_iff, List.forall₂_same]
    simp only [report_iff]
  constructor
  · intro h
    obtain ⟨reports, s, hrun, hreports⟩ := h.reports
    rw [writeAll_run] at hrun
    cases hrun
    exact (hforall calls).mp hreports
  · intro h
    refine ⟨⟨_, _, writeAll_run calls default, (hforall calls).mpr h⟩, ?_⟩
    intro reports s hrun hall
    rw [writeAll_run] at hrun
    cases hrun
    -- success was reported of every call, and so its buffer was accepted
    have hwhole (call : WriteCall × FdWriteResult) (hc : call ∈ calls) :
        AcceptedWhole call.1 call.2 :=
      ((report_iff call.1 call.2).mpr (h call hc)).mp (hall _ (List.mem_map_of_mem hc))
    change [] ++ _ = _
    rw [List.nil_append, List.flatMap_def, List.flatMap_def]
    congr 1
    exact List.map_congr_left fun call hc => taken_of_accepted (hwhole call hc)

/-- The descriptor takes one byte of two, and success is reported. -/
theorem short_write_lost : ¬ NothingLost [(.bstreamFdWrite [1, 2], .accepted 1)] := by
  intro h
  obtain ⟨reports, s, hrun, hreports⟩ := h.reports
  have hreport : (writeAll [(.bstreamFdWrite [1, 2], .accepted 1)]).run default =
      (.ok [true], { received := [1] }) := by rfl
  rw [hreport] at hrun
  cases hrun
  obtain ⟨hone, -⟩ := List.forall₂_cons.mp hreports
  obtain ⟨buf, count, hbuf, hcount, hle⟩ := hone.mp rfl
  cases hbuf
  cases hcount
  exact absurd hle (by decide)

end Stronk.Mcpr
