import Stronk.DecodeHeap
import Stronk.FrameSync

/-! What becomes of a frame that the decoder gives up on. Its caller knows a failure by the
number -1 alone. -/
namespace Stronk.Mcpr
open ByteMemory EarlyExit
variable {κ : Type}

section Decoder
variable {env : DecodeEnv} {out : McprPacket} {mem : Mem} {state : McprState} {maxlen : UInt64}

end Decoder

section Reader
variable (cipher : Cipher κ) (o : ConnObjects κ)

/-- The bytes at the front of the buffer are a complete frame. -/
def CompleteFrame (headerSize pktlen : ℕ) : Prop :=
  HeadFrame o.conn.receivingBuf headerSize pktlen ∧
    headerSize+pktlen ≤ o.conn.receivingBuf.size.toNat

/-- The run of the decoder over a frame in the buffer. -/
def frameRun (env : DecodeEnv) (out : McprPacket) (headerSize pktlen : ℕ) :=
  decodeRun env out (shift o.conn.receivingBuf.content headerSize) o.conn.state
    (UInt64.ofNat pktlen)

/-- If the decoder gives up, no packet is delivered and the connection is closed; and a packet
is delivered only if the decoder got to its end. -/
def RejectsFrame : Prop :=
  (∀ headerSize pktlen, CompleteFrame o headerSize pktlen → ∀ (env : ReadEnv) out n,
    (frameRun o env.decode out headerSize pktlen).1 = .error (.ret n) →
      ∃ enough, ∀ fuel ≥ enough, ∃ out' o',
        (readFrame cipher { env with fuel := fuel } out).run o = (.ok ⟨false, out'⟩, o') ∧
          o'.conn.isClosed = true) ∧
  ∀ (env : ReadEnv) out out', ((readFrame cipher env out).run o).1 = .ok ⟨true, out'⟩ →
    ∃ headerSize pktlen, CompleteFrame o headerSize pktlen ∧
      ∃ n, (frameRun o env.decode out headerSize pktlen).1 = .ok n

/-- Closing the connection comes to an end. -/
def Conn.closesQuietly (c : Conn κ) : Prop := c.isClosed = true ∨ ¬ c.talks

variable {o} {headerSize pktlen : ℕ}

/-- What the packet reader is told of a run. -/
theorem frameRun_exit (o : ConnObjects κ) (headerSize pktlen : ℕ) (env : DecodeEnv)
    (out : McprPacket) :
    (mcprDecodePacket env out (shift o.conn.receivingBuf.content headerSize) o.conn.state
      (UInt64.ofNat pktlen)).exit = exitOf (frameRun o env out headerSize pktlen).1 := rfl

/-- A rejected frame closes the connection, in as many steps as that takes. -/
theorem readFrame_rejected_iff (env : ReadEnv) (out : McprPacket)
    (hframe : CompleteFrame o headerSize pktlen)
    (hr : (frameRun o env.decode out headerSize pktlen).1 = .error (.ret (-1))) :
    (∃ enough, ∀ fuel ≥ enough, ∃ out' o',
      (readFrame cipher { env with fuel := fuel } out).run o = (.ok ⟨false, out'⟩, o') ∧
        o'.conn.isClosed = true) ↔ o.conn.closesQuietly := by
  have hexit := frameRun_exit o headerSize pktlen env.decode out
  rw [hr, exitOf] at hexit
  have hrun (fuel : ℕ) : (readFrame cipher { env with fuel := fuel } out).run o =
      (do closeOnError cipher { env with fuel := fuel }
          return ⟨false, (mcprDecodePacket env.decode out
            (shift o.conn.receivingBuf.content headerSize) o.conn.state
            (UInt64.ofNat pktlen)).out⟩ : ConnProg κ ReadResult).run
        { o with ninerr := (mcprDecodePacket env.decode out
          (shift o.conn.receivingBuf.content headerSize) o.conn.state
          (UInt64.ofNat pktlen)).cursor.objects.ninerr.or o.ninerr } := by
    rw [readFrame_run cipher _ out o hframe.1, if_pos hframe.2]
    simp only [decodeFrame, bind_run, get_run, modify_run, hexit, ↓reduceIte]
  obtain ⟨out', hout⟩ : ∃ out', (mcprDecodePacket env.decode out
    (shift o.conn.receivingBuf.content headerSize) o.conn.state (UInt64.ofNat pktlen)).out = out' :=
    ⟨_, rfl⟩
  obtain ⟨o1, ho1⟩ : ∃ o1, ({ o with ninerr := (mcprDecodePacket env.decode out
    (shift o.conn.receivingBuf.content headerSize) o.conn.state
    (UInt64.ofNat pktlen)).cursor.objects.ninerr.or o.ninerr } : ConnObjects κ) = o1 := ⟨_, rfl⟩
  have hconn : o1.conn = o.conn := by rw [← ho1]
  simp only [hout, ho1, bind_run, closeOnError, pure_run] at hrun
  constructor
  · rintro ⟨enough, h⟩
    obtain ⟨out2, o2, h2, -⟩ := h enough (le_refl _)
    by_contra hn
    simp only [Conn.closesQuietly, not_or, not_not, Bool.not_eq_true] at hn
    -- a connection that talks is never done with closing
    have hnever := mcprConnectionClose_never cipher env.closing enough none o1 (hconn ▸ hn.1)
      (hconn ▸ hn.2)
    rw [hrun] at h2
    rcases hc : (mcprConnectionClose cipher env.closing enough none).run o1 with ⟨e | ⟨⟩, o3⟩
    · simp [hc] at h2
    · rw [hc] at hnever
      exact hnever rfl
  · intro hq
    refine ⟨1, fun fuel hf => ?_⟩
    obtain ⟨fuel, rfl⟩ := Nat.exists_eq_add_of_le' hf
    have hc := mcprConnectionClose_quiet cipher env.closing fuel none o1 (hconn ▸ hq)
    rw [hrun, hc]
    exact ⟨_, _, rfl, rfl⟩

/-- A frame that is refused with another number than -1 is delivered. -/
theorem readFrame_accepts_refused (env : ReadEnv) (out : McprPacket) (n : ℤ)
    (hframe : CompleteFrame o headerSize pktlen) (hn : n ≤ 0) (hne : n ≠ -1)
    (hr : (frameRun o env.decode out headerSize pktlen).1 = .error (.ret n)) :
    ∃ out', ((readFrame cipher env out).run o).1 = .ok ⟨true, out'⟩ := by
  have hexit := frameRun_exit o headerSize pktlen env.decode out
  rw [hr, exitOf] at hexit
  have hle : (n+headerSize).toNat ≤ o.conn.receivingBuf.size.toNat := by
    have := hframe.1.header_le
    omega
  rw [readFrame_run cipher env out o hframe.1, if_pos hframe.2,
    decodeFrame_consumes cipher env out o n hne _ rfl hle _ _ rfl hexit]
  exact ⟨_, rfl⟩

/-- A connection that runs out of memory whatever it asks for. -/
def exhausted : ReadEnv :=
  { fuel := 0, closing := default, steps := [], decode := { host := .little, malloc := fun _ => false } }

/-- A frame that the reader knows to be refused is refused with -1. -/
theorem RejectsFrame.refused (h : RejectsFrame cipher o) (hframe : CompleteFrame o headerSize pktlen)
    {n : ℤ} (hw : (walkFrame (shift o.conn.receivingBuf.content headerSize) o.conn.state
      (UInt64.ofNat pktlen)).1 = .error (.ret n)) : n = -1 ∧ o.conn.closesQuietly := by
  have hspare := decodeRun_spare .little default
    (shift o.conn.receivingBuf.content headerSize) o.conn.state (UInt64.ofNat pktlen)
  rw [hw] at hspare
  let env : ReadEnv := { exhausted with decode := spare .little }
  have hclose := h.1 headerSize pktlen hframe env default n hspare
  rcases walkFrame_refusal _ _ _ n hw with rfl | rfl
  · -- the number is taken for a count of nothing
    obtain ⟨enough, hall⟩ := hclose
    obtain ⟨out', o', hrun, -⟩ := hall enough (le_refl _)
    obtain ⟨out2, h2⟩ := readFrame_accepts_refused cipher { env with fuel := enough } default 0
      hframe (le_refl _) (by decide) hspare
    rw [hrun] at h2
    simp at h2
  · exact ⟨rfl, (readFrame_rejected_iff cipher env default hframe hspare).mp hclose⟩

end Reader

section Example

end Example

end Stronk.Mcpr
