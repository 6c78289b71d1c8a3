import Stronk.HandlerMoves

/-! The packet stream of a connection: a `FILE` whose write function sends the packet it is given
(`mcpr/connection.c`), and what stdio makes of the sizes that this function reports. -/
namespace Stronk.Mcpr
open EarlyExit
variable {κ : Type}

section Model

variable (cipher : Cipher κ) (size : PacketSize)

/-- A call of the write function: the `fwrite` it belongs to, the number of bytes it is given,
whether the packet could be written, how many frames went out, what is reported if it returns. -/
structure StreamCall where
  item : ℕ
  size : ℕ
  written : Bool
  frames : ℕ
  returned : Option ℤ
  deriving DecidableEq, Repr

structure PacketStream (κ : Type) where
  objects : ConnObjects κ
  items : ℕ
  calls : List StreamCall

abbrev StreamProg (κ : Type) := Prog (PacketStream κ) Halt

def openStream (objects : ConnObjects κ) : PacketStream κ := { objects, items := 0, calls := [] }

def ConnEvent.isFrame : ConnEvent → Bool
  | .writePacket _ => true
  | _ => false

/-- The number of frames that went out from `o` to `o'`. -/
def framesBetween (o o' : ConnObjects κ) : ℕ :=
  (o'.log.drop o.log.length).countP ConnEvent.isFrame

/-- stdio submits `n` bytes, which start with the packet. -/
def submit (env : WriteEnv) (pkt : McprPacket) (n : ℕ) : StreamProg κ ℤ := ⟨fun s =>
  let r := (mcprConnectionStreamWrite cipher env size pkt n).run s.objects
  let written := (mcprConnectionWritePacket cipher env pkt).run s.objects
  (r.1, { s with
    objects := r.2
    calls := s.calls ++ [{
      item := s.items
      size := n
      written := decide (size.bytes ≤ n ∧ written.1.toOption = some true)
      frames := framesBetween s.objects r.2
      returned := r.1.toOption }] })⟩

/-- What was not accepted is submitted again, as often as stdio tries. -/
def submitRest (pkt : McprPacket) : List WriteEnv → ℕ → StreamProg κ Bool
  | [], _ => return false
  | env :: envs, n => do
    let accepted ← submit cipher size env pkt n
    if n ≤ accepted then return true else submitRest pkt envs (n-accepted.toNat)

/-- `fwrite` of one packet: how the write that follows each submission fares. -/
structure ItemWrite where
  pkt : McprPacket
  envs : List WriteEnv

/-- `fwrite(pkt, sizeof(struct mcpr_packet), 1, pktstream)`. The packet fills the buffer: it is first
submitted as a whole, at once behind a read, and behind a short count when the buffer is flushed. -/
def fwriteItem (w : ItemWrite) : StreamProg κ Bool := do
  modify fun s => { s with items := s.items+1 }
  submitRest cipher size w.pkt w.envs size.bytes

/-- Any sequence of writes on a stream that was just opened. -/
def StreamRun (objects : ConnObjects κ) : Except Halt Unit → PacketStream κ → Prop :=
  Reaches (fwriteItem cipher size) (fun _ _ => True) (openStream objects)

end Model

section Property

/-- The calls carry packets one to one: the size that is asserted is kept, a frame goes out if the
packet could be written, once for one item, and all of the packet is reported then, and nothing
otherwise. -/
structure CarriesPackets (size : PacketSize) (calls : List StreamCall) : Prop where
  sized : ∀ call ∈ calls, size.bytes ≤ call.size
  framed : ∀ call ∈ calls, call.frames = if call.written then 1 else 0
  once : ∀ item, calls.countP (fun call => call.item = item ∧ call.written) ≤ 1
  reports : ∀ call ∈ calls, ∀ n, call.returned = some n →
    n = if call.written then (call.size : ℤ) else 0

end Property

section Frames
variable (cipher : Cipher κ) (env : WriteEnv)

theorem framesBetween_of_append {o o' : ConnObjects κ} {es : List ConnEvent}
    (h : o'.log = o.log ++ es) : framesBetween o o' = es.countP ConnEvent.isFrame := by
  rw [framesBetween, h, List.drop_left]

/-- A frame goes out if the call returns true, and none otherwise. -/
def CountsFrames (m : ConnProg κ Bool) : Prop := ∀ o, ∃ es, (m.run o).2.log = o.log ++ es ∧
  es.countP ConnEvent.isFrame = if (m.run o).1.toOption = some true then 1 else 0

theorem CountsFrames.exit (e : Halt) : CountsFrames (exit e : ConnProg κ Bool) :=
  fun _ => ⟨[], by simp, rfl⟩

theorem CountsFrames.giveUp : CountsFrames (return false : ConnProg κ Bool) :=
  fun _ => ⟨[], by simp, rfl⟩

theorem CountsFrames.sent (id : McprPacketType) :
    CountsFrames (do record (.writePacket id); return true : ConnProg κ Bool) :=
  fun _ => ⟨[.writePacket id], rfl, rfl⟩

theorem CountsFrames.ite {c : Prop} [Decidable c] {m k : ConnProg κ Bool} (hm : CountsFrames m)
    (hk : CountsFrames k) : CountsFrames (if c then m else k) := by
  split
  · exact hm
  · exact hk

/-- What sends no packet itself may come before. -/
theorem CountsFrames.bind {α : Type} {m : ConnProg κ α} {f : α → ConnProg κ Bool}
    (hm : Moves (LogsOnly none) m) (hf : ∀ a, CountsFrames (f a)) : CountsFrames (m >>= f) := by
  intro o
  obtain ⟨es, hes, hall⟩ := hm o
  have hnone : es.countP ConnEvent.isFrame = 0 := by
    rw [List.countP_eq_zero]
    intro e he hframe
    cases e with
    | writePacket t => cases hall t he
    | _ => cases hframe
  rw [bind_run]
  rcases hr : m.run o with ⟨e | a, o'⟩ <;> rw [hr] at hes
  · exact ⟨es, hes, hnone⟩
  · obtain ⟨es', hes', hcount⟩ := hf a o'
    refine ⟨es ++ es', by rw [hes', hes, List.append_assoc], ?_⟩
    rw [List.countP_append, hnone, Nat.zero_add, hcount]

theorem mcprConnectionWritePacket_counts (pkt : McprPacket) :
    CountsFrames (mcprConnectionWritePacket cipher env pkt) := by
  have hfail (err : Ninerr) : CountsFrames (do setNinerr err; return false : ConnProg κ Bool) :=
    CountsFrames.bind (setNinerr_logs err) fun _ => CountsFrames.giveUp
  unfold mcprConnectionWritePacket
  split
  · exact CountsFrames.exit _
  · exact CountsFrames.exit _
  · exact CountsFrames.exit _
  · refine CountsFrames.ite (hfail _) (CountsFrames.ite (CountsFrames.exit _) ?_)
    refine CountsFrames.bind (Moves.modify fun _ => .of_log rfl) fun _ => ?_
    split
    · exact CountsFrames.exit _
    · exact CountsFrames.exit _
    · refine CountsFrames.ite CountsFrames.giveUp (CountsFrames.ite (hfail _) ?_)
      exact CountsFrames.bind (mcprConnectionWrite_logs cipher env _) fun ok =>
        CountsFrames.ite (CountsFrames.sent pkt.id) CountsFrames.giveUp

end Frames

section Calls
variable (cipher : Cipher κ) (size : PacketSize)

/-- What is known of every call: a packet that could be written is one frame and is reported as one
byte; what could not be written is reported as nothing. -/
structure StreamCall.Sound (call : StreamCall) : Prop where
  framed : call.frames = if call.written then 1 else 0
  written : call.written = true → size.bytes ≤ call.size ∧ call.returned = some 1
  failed : call.written = false → ∀ n, call.returned = some n → n = 0

/-- One submission: the call that it makes, and what is returned to stdio. -/
theorem submit_run (env : WriteEnv) (pkt : McprPacket) (n : ℕ) (s : PacketStream κ) :
    ∃ call : StreamCall, call.Sound size ∧ call.item = s.items ∧ call.size = n ∧
      ((submit cipher size env pkt n).run s).2.calls = s.calls ++ [call] ∧
      ((submit cipher size env pkt n).run s).2.items = s.items ∧
      ((submit cipher size env pkt n).run s).1.toOption = call.returned := by
  refine ⟨_, ?_, rfl, rfl, rfl, rfl, rfl⟩
  obtain ⟨es, hes, hcount⟩ := mcprConnectionWritePacket_counts cipher env pkt s.objects
  by_cases hn : n < size.bytes
  · -- the assertion fails, and nothing is written
    have hrun : (mcprConnectionStreamWrite cipher env size pkt n).run s.objects =
        (.error .abort, s.objects) := by
      rw [mcprConnectionStreamWrite, if_pos hn]
      rfl
    have hwritten : ∀ r : Option Bool, decide (size.bytes ≤ n ∧ r = some true) = false :=
      fun r => decide_eq_false fun h => absurd h.1 (by omega)
    constructor
    · simp [hrun, hwritten, framesBetween]
    · simp [hwritten]
    · simp [hrun, Except.toOption]
  · have hrun : (mcprConnectionStreamWrite cipher env size pkt n).run s.objects =
        (do
          let ok ← mcprConnectionWritePacket cipher env pkt
          return if ok then 1 else 0 : ConnProg κ ℤ).run s.objects := by
      rw [mcprConnectionStreamWrite, if_neg hn]
    rw [bind_run] at hrun
    rcases hr : (mcprConnectionWritePacket cipher env pkt).run s.objects with ⟨e | ok, o'⟩
    · -- the program stops before anything is reported
      rw [hr] at hrun hes hcount
      have hframes : framesBetween s.objects o' = 0 := (framesBetween_of_append hes).trans hcount
      constructor
      · simp [hrun, hframes, Except.toOption]
      · simp [Except.toOption]
      · simp [hrun, Except.toOption]
    · rw [hr] at hrun hes hcount
      have hframes : framesBetween s.objects o' = if ok then 1 else 0 := by
        rw [framesBetween_of_append hes, hcount]
        cases ok <;> rfl
      have hsize : size.bytes ≤ n := not_lt.mp hn
      constructor
      · cases ok <;> simp [hrun, hframes, hsize, Except.toOption]
      · cases ok <;> simp [hrun, hsize, Except.toOption]
      · cases ok <;> simp [hrun, hsize, Except.toOption]

/-- The calls of a run: each of them is sound, and as long as no packet could be written stdio
submits whole packets. -/
structure CallsSound (s : PacketStream κ) : Prop where
  sound : ∀ call ∈ s.calls, call.Sound size
  sized : (∀ call ∈ s.calls, call.written = false) → ∀ call ∈ s.calls, size.bytes ≤ call.size

theorem submitRest_sound (pkt : McprPacket) (envs : List WriteEnv) (n : ℕ) (s : PacketStream κ)
    (h : CallsSound size s)
    (hn : (∀ call ∈ s.calls, call.written = false) → n = size.bytes) :
    CallsSound size ((submitRest cipher size pkt envs n).run s).2 := by
  induction envs generalizing n s with
  | nil => exact h
  | cons env envs ih =>
    obtain ⟨call, hsound, -, hsize, hcalls, -, hreturned⟩ := submit_run cipher size env pkt n s
    have hnext : CallsSound size ((submit cipher size env pkt n).run s).2 := by
      constructor
      · rw [hcalls]
        intro c hc
        rcases List.mem_append.mp hc with hc | hc
        · exact h.sound c hc
        · rw [List.mem_singleton.mp hc]
          exact hsound
      · rw [hcalls]
        intro hnone c hc
        have hold : ∀ c ∈ s.calls, c.written = false := fun c hc =>
          hnone c (List.mem_append_left _ hc)
        rcases List.mem_append.mp hc with hc | hc
        · exact h.sized hold c hc
        · rw [List.mem_singleton.mp hc, hsize, hn hold]
    rw [submitRest, bind_run]
    rcases hr : (submit cipher size env pkt n).run s with ⟨e | accepted, t⟩
    · rw [hr] at hnext
      exact hnext
    · rw [hr] at hnext hcalls hreturned
      simp only [ite_run]
      split_ifs
      · exact hnext
      · -- a rest that is no packet was left by a packet that could be written
        refine ih _ t hnext fun hnone => ?_
        have hfailed : call.written = false := hnone call (by
          rw [hcalls]
          exact List.mem_append_right _ (List.mem_singleton_self call))
        have hzero : accepted = 0 := hsound.failed hfailed accepted hreturned.symm
        rw [hzero, hn fun c hc => hnone c (by rw [hcalls]; exact List.mem_append_left _ hc)]
        rfl

theorem fwriteItem_sound (w : ItemWrite) : Keeps (CallsSound size) (fwriteItem cipher size w) := by
  intro s h
  exact submitRest_sound cipher size w.pkt w.envs size.bytes { s with items := s.items+1 }
    ⟨h.sound, h.sized⟩ fun _ => rfl

/-- Whatever is written to the stream, its packets are carried one to one if and only if none of
them could be written: a write that succeeds is reported as one byte of the packet. -/
theorem packets_carried_iff (objects : ConnObjects κ) (r : Except Halt Unit) (s : PacketStream κ)
    (h : StreamRun cipher size objects r s) :
    CarriesPackets size s.calls ↔ ∀ call ∈ s.calls, call.written = false := by
  have hstart : CallsSound size (openStream objects) := ⟨nofun, fun _ => nofun⟩
  have hcalls : CallsSound size s := h.invariant hstart fun u w _ hu =>
    fwriteItem_sound cipher size w u hu
  constructor
  · intro hc call hcall
    rcases hw : call.written with _ | _
    · rfl
    · -- one byte is reported of a packet that is longer
      obtain ⟨hsize, hreturned⟩ := (hcalls.sound call hcall).written hw
      have hfull := hc.reports call hcall 1 hreturned
      have hlarge := size.large
      rw [hw, if_pos rfl] at hfull
      omega
  · intro hnone
    refine ⟨hcalls.sized hnone, fun call hcall => (hcalls.sound call hcall).framed, fun item => ?_,
      fun call hcall n hn => ?_⟩
    · have hzero : s.calls.countP (fun call => call.item = item ∧ call.written) = 0 := by
        rw [List.countP_eq_zero]
        intro call hcall
        simp [hnone call hcall]
      omega
    · rw [hnone call hcall]
      exact (hcalls.sound call hcall).failed (hnone call hcall) n hn

end Calls

section Example

/-- The answer to a Ping on a new connection, which goes out; stdio submits the rest again. -/
def pongStream : Except Halt Bool × PacketStream Unit :=
  (fwriteItem cipherExample ⟨200, by decide⟩ ⟨statusPong 7#64, [default, default]⟩).run
    (openStream (mcprConnectionNew (fun _ => 0) []))

theorem pongStream_calls : pongStream.1 = .error .abort ∧ pongStream.2.calls =
    [⟨1, 200, true, 1, some 1⟩, ⟨1, 199, false, 0, none⟩] := by
  decide +kernel

theorem pongStream_run : StreamRun cipherExample ⟨200, by decide⟩ (mcprConnectionNew (fun _ => 0) [])
    (pongStream.1.map fun _ => ()) pongStream.2 := by
  have hstart : Reaches (fwriteItem cipherExample ⟨200, by decide⟩) (fun _ _ => True)
      (openStream (mcprConnectionNew (fun _ => 0) [])) (.ok ()) _ := .start
  exact Reaches.call ⟨statusPong 7#64, [default, default]⟩ hstart trivial

/-- The packet is written and one byte of it is reported, so that the rest runs into the
assertion. -/
theorem pong_not_carried : pongStream.1 = .error .abort ∧
    ¬ CarriesPackets ⟨200, by decide⟩ pongStream.2.calls := by
  obtain ⟨habort, hcalls⟩ := pongStream_calls
  refine ⟨habort, fun h => ?_⟩
  have hfull := h.reports ⟨1, 200, true, 1, some 1⟩ (by rw [hcalls]; exact List.mem_cons_self) 1 rfl
  cases hfull

/-- The run of the answer to a Ping. -/
theorem pong_carried_iff : CarriesPackets ⟨200, by decide⟩ pongStream.2.calls ↔
    ∀ call ∈ pongStream.2.calls, call.written = false :=
  packets_carried_iff cipherExample ⟨200, by decide⟩ _ _ _ pongStream_run

end Example

end Stronk.Mcpr
