import Stronk.ConnectionClose
import Stronk.DecodeLayout

/-! Whether `mcpr_connection_read_packet` stays in step with the frames of its stream: the
buffer is moved on by what the decoder reports, not by the length that was announced. -/
namespace Stronk.Mcpr
open ByteMemory EarlyExit
variable {κ : Type}

/-- The first bytes of a buffer are a VarInt of `headerSize` bytes with a positive value. -/
def HeadFrame (buf : NinioBuffer) (headerSize pktlen : ℕ) : Prop :=
  ∃ v, mcprDecodeVarint buf.content buf.size = .ok (v, headerSize) ∧ 0 < v.toInt ∧ v.toNat = pktlen

/-- What was logged from `o` to `o'`. -/
def newEvents (o o' : ConnObjects κ) : List ConnEvent := o'.log.drop o.log.length

theorem newEvents_append (o o' : ConnObjects κ) (es : List ConnEvent) (h : o'.log = o.log ++ es) :
    newEvents o o' = es := by
  simp [newEvents, h]

section Step
variable {buf : NinioBuffer} {headerSize pktlen : ℕ}

theorem HeadFrame.header_le (h : HeadFrame buf headerSize pktlen) : headerSize ≤ buf.size.toNat := by
  obtain ⟨v, hd, -⟩ := h
  exact (mcprDecodeVarint_size _ _ _ _ hd).2.2

theorem HeadFrame.pos (h : HeadFrame buf headerSize pktlen) : 0 < pktlen := by
  obtain ⟨v, -, hv, rfl⟩ := h
  rw [BitVec.toInt_eq_toNat_cond] at hv
  split_ifs at hv <;> omega

theorem HeadFrame.lt (h : HeadFrame buf headerSize pktlen) : pktlen < 2^32 := by
  obtain ⟨v, -, -, rfl⟩ := h
  exact v.isLt

variable (cipher : Cipher κ) (env : ReadEnv) (out : McprPacket) (o : ConnObjects κ)

/-- A frame is decoded once it is there as a whole; until then nothing happens. -/
theorem readFrame_run (h : HeadFrame o.conn.receivingBuf headerSize pktlen) :
    (readFrame cipher env out).run o =
      if headerSize+pktlen ≤ o.conn.receivingBuf.size.toNat
        then (decodeFrame cipher env out headerSize (UInt64.ofNat pktlen)).run o
        else (.ok ⟨false, out⟩, o) := by
  have hle := h.header_le
  obtain ⟨v, hd, hv, rfl⟩ := h
  have hk := (mcprDecodeVarint_size _ _ _ _ hd).1
  have hsize : ¬ o.conn.receivingBuf.size ≤ 0 := by
    rw [UInt64.le_iff_toNat_le]
    simp only [UInt64.toNat_zero]
    omega
  have hrest := BoundedReader.toNat_sub_ofNat o.conn.receivingBuf.size headerSize hle
  simp only [readFrame, bind_run, get_run, hsize, ↓reduceIte, hd, not_le.mpr hv, hrest]
  by_cases hc : headerSize+v.toNat ≤ o.conn.receivingBuf.size.toNat
  · rw [if_pos hc, if_pos (by omega)]
  · rw [if_neg hc, if_neg (by omega)]
    rfl

/-- Without a head there is nothing to do but to leave an error behind. -/
theorem readFrame_headless (h : ∀ headerSize pktlen, ¬ HeadFrame o.conn.receivingBuf headerSize pktlen) :
    ∃ err, (readFrame cipher env out).run o = (.ok ⟨false, out⟩, { o with ninerr := err }) := by
  by_cases hsize : o.conn.receivingBuf.size ≤ 0
  · exact ⟨o.ninerr, by simp only [readFrame, bind_run, get_run, hsize, ↓reduceIte]; rfl⟩
  · simp only [readFrame, bind_run, get_run, hsize, ↓reduceIte]
    rcases hd : mcprDecodeVarint o.conn.receivingBuf.content o.conn.receivingBuf.size with
      message | ⟨pktlen, headerSize⟩
    · exact ⟨_, rfl⟩
    · have hle : pktlen.toInt ≤ 0 := not_lt.mp fun hv => h _ _ ⟨pktlen, hd, hv, rfl⟩
      exact ⟨_, by simp only [hle, ↓reduceIte]; rfl⟩

/-- The objects once `n` bytes were taken off the buffer. -/
def afterConsume (n : ℕ) : ConnObjects κ :=
  { o with
    conn := { o.conn with receivingBuf := { o.conn.receivingBuf with
      content := moveDown o.conn.receivingBuf.content n (o.conn.receivingBuf.size.toNat-n)
      size := o.conn.receivingBuf.size-UInt64.ofNat n } }
    log := o.log ++ [.consume n o.conn.receivingBuf.bytes] }

theorem consumeBytes_run (n : ℕ) (hn : n ≤ o.conn.receivingBuf.size.toNat) :
    (consumeBytes n).run o = (.ok (), afterConsume o n) := by
  simp [consumeBytes, not_lt.mpr hn, record, setBuf, setConn, afterConsume]

theorem afterConsume_bytes (n : ℕ) (hn : n ≤ o.conn.receivingBuf.size.toNat) :
    (afterConsume o n).conn.receivingBuf.bytes = o.conn.receivingBuf.bytes.drop n := by
  simp only [NinioBuffer.bytes, afterConsume, BoundedReader.toNat_sub_ofNat _ n hn, read_moveDown,
    read_drop _ _ _ hn]

/-- Taking off more than there is is logged before it goes wrong. -/
theorem consumeBytes_overrun (n : ℕ) (hn : o.conn.receivingBuf.size.toNat < n) :
    (consumeBytes n).run o =
      (.error .undefined, { o with log := o.log ++ [.consume n o.conn.receivingBuf.bytes] }) := by
  simp [consumeBytes, hn, record]

/-- Where the decoder reports a count, the buffer is moved on by it. -/
theorem decodeFrame_ret (n : ℤ) (hn : n ≠ -1) (maxlen : UInt64) (r : DecodeResult)
    (hr : mcprDecodePacket env.decode out (shift o.conn.receivingBuf.content headerSize)
      o.conn.state maxlen = r) (hd : r.exit = .ret n) :
    (decodeFrame cipher env out headerSize maxlen).run o =
      (do consumeBytes (n+headerSize).toNat; return ⟨true, r.out⟩ : ConnProg κ ReadResult).run
        { o with ninerr := r.cursor.objects.ninerr.or o.ninerr } := by
  subst hr
  simp only [decodeFrame, bind_run, get_run, modify_run, hd, hn, ↓reduceIte]

theorem decodeFrame_consumes (n : ℤ) (hn : n ≠ -1) (k : ℕ) (hk : (n+headerSize).toNat = k)
    (hle : k ≤ o.conn.receivingBuf.size.toNat) (maxlen : UInt64) (r : DecodeResult)
    (hr : mcprDecodePacket env.decode out (shift o.conn.receivingBuf.content headerSize)
      o.conn.state maxlen = r) (hd : r.exit = .ret n) :
    (decodeFrame cipher env out headerSize maxlen).run o =
      (.ok ⟨true, r.out⟩, afterConsume { o with ninerr := r.cursor.objects.ninerr.or o.ninerr } k) := by
  have hc := consumeBytes_run { o with ninerr := r.cursor.objects.ninerr.or o.ninerr } k hle
  simp only [decodeFrame_ret cipher env out o n hn maxlen r hr hd, hk, bind_run, hc, pure_run]

theorem decodeFrame_overruns (n : ℤ) (hn : n ≠ -1) (k : ℕ) (hk : (n+headerSize).toNat = k)
    (hlt : o.conn.receivingBuf.size.toNat < k) (maxlen : UInt64) (r : DecodeResult)
    (hr : mcprDecodePacket env.decode out (shift o.conn.receivingBuf.content headerSize)
      o.conn.state maxlen = r) (hd : r.exit = .ret n) :
    (decodeFrame cipher env out headerSize maxlen).run o =
      (.error .undefined, { o with
        ninerr := r.cursor.objects.ninerr.or o.ninerr
        log := o.log ++ [.consume k o.conn.receivingBuf.bytes] }) := by
  have hc := consumeBytes_overrun { o with ninerr := r.cursor.objects.ninerr.or o.ninerr } k hlt
  simp only [decodeFrame_ret cipher env out o n hn maxlen r hr hd, hk, bind_run, hc]

/-- Where the decoder rejects the frame, the connection is closed and no packet delivered. -/
theorem decodeFrame_rejected (maxlen : UInt64) (r : DecodeResult)
    (hr : mcprDecodePacket env.decode out (shift o.conn.receivingBuf.content headerSize)
      o.conn.state maxlen = r) (hd : r.exit = .ret (-1)) :
    KeepsStream o ((decodeFrame cipher env out headerSize maxlen).run o).2 ∧
      ∀ res, ((decodeFrame cipher env out headerSize maxlen).run o).1 = .ok res →
        res = ⟨false, r.out⟩ := by
  subst hr
  simp only [decodeFrame, bind_run, get_run, modify_run, hd, ↓reduceIte, closeOnError]
  generalize ho : ({ o with ninerr := _ } : ConnObjects κ) = o1
  have h0 : KeepsStream o o1 := by
    subst ho
    exact KeepsStream.of_conn rfl rfl rfl
  have hc := mcprConnectionClose_keeps cipher env.closing env.fuel none o1
  rcases hrun : (mcprConnectionClose cipher env.closing env.fuel none).run o1 with ⟨e | ⟨⟩, o'⟩ <;>
    rw [hrun] at hc
  · exact ⟨h0.trans hc, by simp⟩
  · exact ⟨h0.trans hc, by simp⟩

theorem decodeFrame_trap (maxlen : UInt64) (r : DecodeResult)
    (hr : mcprDecodePacket env.decode out (shift o.conn.receivingBuf.content headerSize)
      o.conn.state maxlen = r) (hd : r.exit = .trap) :
    (decodeFrame cipher env out headerSize maxlen).run o =
      (.error .trap, { o with ninerr := r.cursor.objects.ninerr.or o.ninerr }) := by
  subst hr
  simp only [decodeFrame, bind_run, get_run, modify_run, hd, exit_run]

end Step

/-- The framing step keeps to the frame of `pktlen` bytes behind a header of `headerSize`: it
waits for the whole frame, never takes off more than there is, and after a packet was
delivered the buffer starts with the next frame. -/
def StaysInSync (cipher : Cipher κ) (o : ConnObjects κ) (headerSize pktlen : ℕ) : Prop :=
  ∀ env out,
    (o.conn.receivingBuf.size.toNat < headerSize+pktlen →
      (readFrame cipher env out).run o = (.ok ⟨false, out⟩, o)) ∧
    (headerSize+pktlen ≤ o.conn.receivingBuf.size.toNat →
      (∀ n held, .consume n held ∈ newEvents o ((readFrame cipher env out).run o).2 →
        n ≤ held.length) ∧
      ∀ out', ((readFrame cipher env out).run o).1 = .ok ⟨true, out'⟩ →
        ((readFrame cipher env out).run o).2.conn.receivingBuf.bytes =
          o.conn.receivingBuf.bytes.drop (headerSize+pktlen))

/-- The fields of the frame end where the frame does, or the frame is rejected. -/
def FrameExact (content : Mem) (state : McprState) (headerSize pktlen : ℕ) : Prop :=
  match (walkFrame (shift content headerSize) state (UInt64.ofNat pktlen)).1 with
  | .ok n => n = pktlen
  | .error (.ret n) => n = -1
  | .error .trap => True

section Sync
variable {headerSize pktlen : ℕ}

/-- What the decoder reports of an exact frame. -/
theorem FrameExact.exit (env : DecodeEnv) (out : McprPacket) {content : Mem} {state : McprState}
    (h : FrameExact content state headerSize pktlen) :
    (mcprDecodePacket env out (shift content headerSize) state (UInt64.ofNat pktlen)).exit =
        .ret (-1) ∨
      (mcprDecodePacket env out (shift content headerSize) state (UInt64.ofNat pktlen)).exit =
        .ret pktlen ∨
      (mcprDecodePacket env out (shift content headerSize) state (UInt64.ofNat pktlen)).exit =
        .trap := by
  rcases mcprDecodePacket_exit env out (shift content headerSize) state (UInt64.ofNat pktlen) with
    ⟨-, he⟩ | he
  · exact .inl he
  · unfold FrameExact at h
    split at h
    · rename_i n hw
      subst h
      exact .inr (.inl (by rw [he, hw]; rfl))
    · rename_i n hw
      subst h
      exact .inl (by rw [he, hw]; rfl)
    · rename_i hw
      exact .inr (.inr (by rw [he, hw]; rfl))

variable (cipher : Cipher κ) (o : ConnObjects κ)

/-- Where the decoder reports a count other than the length of the frame, something goes wrong. -/
theorem not_staysInSync (h : HeadFrame o.conn.receivingBuf headerSize pktlen)
    (hc : headerSize+pktlen ≤ o.conn.receivingBuf.size.toNat) (env : ReadEnv) (out : McprPacket)
    (n : ℤ) (hn : n ≠ -1) (hne : n ≠ pktlen)
    (hd : (mcprDecodePacket env.decode out (shift o.conn.receivingBuf.content headerSize)
      o.conn.state (UInt64.ofNat pktlen)).exit = .ret n) :
    ¬ StaysInSync cipher o headerSize pktlen := by
  intro hs
  obtain ⟨htake, hrest⟩ := (hs env out).2 hc
  rw [readFrame_run cipher env out o h, if_pos hc] at htake hrest
  obtain ⟨k, hk⟩ : ∃ k, (n+headerSize).toNat = k := ⟨_, rfl⟩
  have hpos := h.pos
  by_cases hle : k ≤ o.conn.receivingBuf.size.toNat
  · rw [decodeFrame_consumes cipher env out o n hn k hk hle _ _ rfl hd] at hrest
    have hb := congrArg List.length ((afterConsume_bytes _ k hle).symm.trans (hrest _ rfl))
    simp only [NinioBuffer.bytes, List.length_drop, read_length] at hb
    omega
  · rw [decodeFrame_overruns cipher env out o n hn k hk (not_le.mp hle) _ _ rfl hd] at htake
    have := htake k o.conn.receivingBuf.bytes (by simp [newEvents])
    rw [NinioBuffer.bytes_length] at this
    omega

/-- The reader stays in step with the frame at the front of its buffer if and only if the frame
is not there as a whole, is rejected, or is consumed to its end by its fields. -/
theorem readFrame_sync_iff (h : HeadFrame o.conn.receivingBuf headerSize pktlen) :
    StaysInSync cipher o headerSize pktlen ↔
      o.conn.receivingBuf.size.toNat < headerSize+pktlen ∨
        FrameExact o.conn.receivingBuf.content o.conn.state headerSize pktlen := by
  constructor
  · intro hs
    by_contra hn
    rw [not_or, not_lt] at hn
    obtain ⟨hc, hx⟩ := hn
    -- with memory to spare, the decoder ends where the walk does
    let env : ReadEnv := { fuel := 0, closing := default, steps := [],
                           decode := { host := .little, malloc := fun _ => true } }
    rcases mcprDecodePacket_exit env.decode default (shift o.conn.receivingBuf.content headerSize)
      o.conn.state (UInt64.ofNat pktlen) with ⟨⟨k, hk⟩, -⟩ | he
    · contradiction
    · unfold FrameExact at hx
      split at hx
      · rename_i n hw
        rw [hw] at he
        exact not_staysInSync cipher o h hc env default n (by omega) (by omega) he hs
      · rename_i n hw
        have hle := walkFrame_refusal _ _ _ n hw
        have hpos := h.pos
        rw [hw] at he
        exact not_staysInSync cipher o h hc env default n hx (by omega) he hs
      · exact hx trivial
  · intro hx env out
    rw [readFrame_run cipher env out o h]
    refine ⟨fun hlt => by rw [if_neg (not_le.mpr hlt)], fun hc => ?_⟩
    rw [if_pos hc]
    have hx := hx.resolve_left (not_lt.mpr hc)
    rcases hx.exit env.decode out with he | he | he
    · obtain ⟨hk, hres⟩ := decodeFrame_rejected cipher env out o _ _ rfl he
      obtain ⟨es, hes, hall⟩ := hk.log
      refine ⟨fun n held hm => ?_, fun out' hr => by simpa using hres _ hr⟩
      rw [newEvents_append _ _ es hes] at hm
      simpa using hall _ hm
    · rw [decodeFrame_consumes cipher env out o pktlen (by omega) (headerSize+pktlen) (by omega) hc
        _ _ rfl he]
      refine ⟨fun n held hm => ?_, fun _ _ => afterConsume_bytes _ _ hc⟩
      rw [newEvents_append _ _ _ rfl] at hm
      simp only [List.mem_singleton, ConnEvent.consume.injEq] at hm
      obtain ⟨rfl, rfl⟩ := hm
      rwa [NinioBuffer.bytes_length]
    · rw [decodeFrame_trap cipher env out o _ _ rfl he]
      exact ⟨fun n held hm => by simp [newEvents] at hm, fun _ hr => by simp at hr⟩

end Sync

section Example

/-- A connection in STATUS that has buffered `bs`. -/
def statusExample (bs : List UInt8) : ConnObjects Unit :=
  let o := mcprConnectionNew (ofList bs) []
  { o with conn := { o.conn with
    state := .status
    receivingBuf := { o.conn.receivingBuf with size := sizeOfNat bs.length } } }

/-- A Request is a frame of one byte. -/
theorem status_request_in_sync : StaysInSync cipherExample (statusExample [0x01, 0x00]) 1 1 :=
  (readFrame_sync_iff cipherExample (statusExample [0x01, 0x00])
    ⟨1#32, by rfl, by decide, by decide⟩).mpr (.inr (show (1 : ℕ) = 1 from rfl))

/-- A Request with a byte behind it in its frame: that byte becomes the next length prefix. -/
theorem long_request_out_of_sync :
    ¬ StaysInSync cipherExample (statusExample [0x02, 0x00, 0x07]) 1 2 :=
  not_staysInSync cipherExample _ ⟨2#32, by rfl, by decide, by decide⟩ (by decide)
    { fuel := 0, closing := default, steps := []
      decode := { host := .little, malloc := fun _ => true } } default 1 (by decide) (by decide)
    (by rfl)

end Example

end Stronk.Mcpr
