import Stronk.FrameSync

/-! The receive buffer of a connection over whole runs: reads stay inside it, and it holds what
was received and not yet taken off. The plain branch of the reader counts 256 bytes for every
byte it reads, so this is about runs in which it reads none. -/
namespace Stronk.Mcpr
open ByteMemory EarlyExit
variable {κ : Type}

section Log

/-- The bytes that were received, decrypted where they came encrypted. -/
def ConnEvent.received : ConnEvent → List UInt8
  | .receive bytes _ => bytes
  | _ => []

/-- The bytes that were taken off the buffer. -/
def ConnEvent.consumed : ConnEvent → List UInt8
  | .consume n held => held.take n
  | _ => []

/-- An `fread` stays inside of the buffer it is given. -/
def ConnEvent.inside : ConnEvent → Prop
  | .store off len maxSize => off+len ≤ maxSize
  | _ => True

end Log

/-- Some bytes are stored at the end of what a buffer holds. -/
def NinioBuffer.store (buf : NinioBuffer) (bytes : List UInt8) : NinioBuffer :=
  { buf with
    content := write buf.content buf.size.toNat bytes
    size := buf.size+sizeOfNat bytes.length }

/-- The receive buffer and the log of a run in which nothing went wrong. -/
structure BufferSound (buf : NinioBuffer) (log : List ConnEvent) : Prop where
  size_le : buf.size.toNat ≤ buf.maxSize.toNat
  maxSize_le : buf.maxSize.toNat ≤ ptrdiffMax
  inside : ∀ e ∈ log, e.inside
  bytes : log.flatMap ConnEvent.received = log.flatMap ConnEvent.consumed ++ buf.bytes

namespace BufferSound
variable {buf : NinioBuffer} {log es : List ConnEvent}

theorem append (h : BufferSound buf log) (hes : ∀ e ∈ es, e.inside)
    (hr : es.flatMap ConnEvent.received = []) (hc : es.flatMap ConnEvent.consumed = []) :
    BufferSound buf (log ++ es) := by
  refine ⟨h.size_le, h.maxSize_le, fun e he => ?_, ?_⟩
  · rcases List.mem_append.mp he with he | he
    · exact h.inside e he
    · exact hes e he
  · simp only [List.flatMap_append, hr, hc, List.append_nil, h.bytes]

theorem store (h : BufferSound buf log) (len : ℕ) (hroom : buf.size.toNat+len ≤ buf.maxSize.toNat) :
    BufferSound buf (log ++ [.store buf.size.toNat len buf.maxSize.toNat]) :=
  h.append (by simpa [ConnEvent.inside] using hroom) rfl rfl

theorem grow (h : BufferSound buf log) (k : UInt64) (hk : (buf.maxSize+k).toNat ≤ ptrdiffMax)
    (hle : buf.maxSize.toNat ≤ (buf.maxSize+k).toNat) :
    BufferSound { buf with maxSize := buf.maxSize+k } log :=
  ⟨h.size_le.trans hle, hk, h.inside, h.bytes⟩

theorem store_size (h : BufferSound buf log) (bytes : List UInt8)
    (hroom : buf.size.toNat+bytes.length ≤ buf.maxSize.toNat) :
    (buf.store bytes).size.toNat = buf.size.toNat+bytes.length := by
  have hmax := h.maxSize_le
  simp only [ptrdiffMax] at hmax
  simp only [NinioBuffer.store, UInt64.toNat_add, sizeOfNat_toNat]
  omega

theorem store_bytes (h : BufferSound buf log) (bytes : List UInt8)
    (hroom : buf.size.toNat+bytes.length ≤ buf.maxSize.toNat) :
    (buf.store bytes).bytes = buf.bytes ++ bytes := by
  rw [NinioBuffer.bytes, h.store_size bytes hroom]
  exact read_write_end _ _ _

/-- A buffer with room for them receives some bytes. -/
theorem receive (h : BufferSound buf log) (bytes : List UInt8) (decrypted : Bool)
    (hroom : buf.size.toNat+bytes.length ≤ buf.maxSize.toNat) :
    BufferSound (buf.store bytes) (log ++ [.receive bytes decrypted]) := by
  refine ⟨(h.store_size bytes hroom).le.trans hroom, h.maxSize_le, fun e he => ?_, ?_⟩
  · rcases List.mem_append.mp he with he | he
    · exact h.inside e he
    · rw [List.mem_singleton.mp he]
      trivial
  · rw [h.store_bytes bytes hroom]
    simp [h.bytes, ConnEvent.received, ConnEvent.consumed]

/-- A buffer that holds as many gives up `n` bytes. -/
theorem consume {o : ConnObjects κ} (h : BufferSound o.conn.receivingBuf o.log) (n : ℕ)
    (hn : n ≤ o.conn.receivingBuf.size.toNat) :
    BufferSound (afterConsume o n).conn.receivingBuf (afterConsume o n).log := by
  have hsub := BoundedReader.toNat_sub_ofNat o.conn.receivingBuf.size n hn
  refine ⟨?_, h.maxSize_le, fun e he => ?_, ?_⟩
  · exact (hsub.le.trans (Nat.sub_le _ _)).trans h.size_le
  · rcases List.mem_append.mp he with he | he
    · exact h.inside e he
    · rw [List.mem_singleton.mp he]
      trivial
  · rw [afterConsume_bytes o n hn]
    simp [afterConsume, h.bytes, ConnEvent.received, ConnEvent.consumed]

end BufferSound

def Sound (o : ConnObjects κ) : Prop := BufferSound o.conn.receivingBuf o.log

theorem KeepsStream.sound {o o' : ConnObjects κ} (h : KeepsStream o o') (hs : Sound o) :
    Sound o' := by
  obtain ⟨es, hes, hall⟩ := h.log
  have hnone (e : ConnEvent) (he : e ∈ es) : e.inside ∧ e.received = [] ∧ e.consumed = [] := by
    rcases hall e he with ⟨_, _, rfl⟩ | ⟨_, rfl⟩ | rfl <;> exact ⟨trivial, rfl, rfl⟩
  have hbuf : o'.conn.receivingBuf = o.conn.receivingBuf := by
    rw [← h.conn]
  rw [Sound, hbuf, hes]
  exact BufferSound.append hs (fun e he => (hnone e he).1)
    (List.flatMap_eq_nil_iff.mpr fun e he => (hnone e he).2.1)
    (List.flatMap_eq_nil_iff.mpr fun e he => (hnone e he).2.2)

theorem KeepsStream.useEncryption {o o' : ConnObjects κ} (h : KeepsStream o o') :
    o'.conn.useEncryption = o.conn.useEncryption := by
  rw [← h.conn]

section Grow

/-- The allocator does not give a larger buffer. -/
def GrowthFails (o : ConnObjects κ) (step : ReadStep) : Prop :=
  ptrdiffMax < (o.conn.receivingBuf.maxSize+sizeOfNat (blockSize*256)).toNat ∨ step.realloc = false

def grown (o : ConnObjects κ) : ConnObjects κ :=
  { o with conn := { o.conn with receivingBuf := { o.conn.receivingBuf with
    maxSize := o.conn.receivingBuf.maxSize+sizeOfNat (blockSize*256) } } }

variable {o : ConnObjects κ} (step : ReadStep)

theorem Sound.full_iff (h : Sound o) :
    o.conn.receivingBuf.maxSize < o.conn.receivingBuf.size+sizeOfNat blockSize ↔
      o.conn.receivingBuf.size.toNat = o.conn.receivingBuf.maxSize.toNat := by
  have h1 := h.size_le
  have h2 := h.maxSize_le
  simp only [ptrdiffMax] at h2
  rw [UInt64.lt_iff_toNat_lt]
  simp only [UInt64.toNat_add, sizeOfNat_toNat, blockSize]
  omega

theorem Sound.grown_maxSize (h : Sound o) :
    (grown o).conn.receivingBuf.maxSize.toNat = o.conn.receivingBuf.maxSize.toNat+256 := by
  have h2 := h.maxSize_le
  simp only [ptrdiffMax] at h2
  simp only [grown, UInt64.toNat_add, sizeOfNat_toNat, blockSize]
  omega

/-- A buffer with a byte to spare is left as it is, a full one grows by 256. -/
theorem growBuffer_run (h : Sound o) :
    (o.conn.receivingBuf.size.toNat < o.conn.receivingBuf.maxSize.toNat ∧
      (growBuffer step).run o = (.ok true, o)) ∨
    (o.conn.receivingBuf.size.toNat = o.conn.receivingBuf.maxSize.toNat ∧ GrowthFails o step ∧
      (growBuffer step).run o = (.ok false, { o with ninerr := some .fromErrno })) ∨
    (o.conn.receivingBuf.size.toNat = o.conn.receivingBuf.maxSize.toNat ∧ ¬ GrowthFails o step ∧
      (growBuffer step).run o = (.ok true, grown o) ∧ Sound (grown o)) := by
  have hfull := h.full_iff
  by_cases hf : o.conn.receivingBuf.size.toNat = o.conn.receivingBuf.maxSize.toNat
  · have hlt := hfull.mpr hf
    by_cases hg : GrowthFails o step
    · refine .inr (.inl ⟨hf, hg, ?_⟩)
      have hg' := hg
      simp only [GrowthFails] at hg'
      simp only [growBuffer, bind_run, get_run, hlt, hg', ↓reduceIte]
      rfl
    · refine .inr (.inr ⟨hf, hg, ?_, ?_⟩)
      · have hg' := hg
        simp only [GrowthFails] at hg'
        simp only [growBuffer, bind_run, get_run, hlt, hg', ↓reduceIte]
        rfl
      · refine BufferSound.grow h _ ?_ ?_
        · exact not_lt.mp fun hlt => hg (.inl hlt)
        · have := h.grown_maxSize
          simp only [grown] at this
          omega
  · have hnlt := mt hfull.mp hf
    refine .inl ⟨lt_of_le_of_ne h.size_le hf, ?_⟩
    simp [growBuffer, hnlt]

end Grow

section Encrypted
variable (cipher : Cipher κ) (env : ReadEnv) (step : ReadStep)

/-- The receive buffer is in order and the connection encrypted. -/
def SoundEncrypted (o : ConnObjects κ) : Prop := Sound o ∧ o.conn.useEncryption = true

theorem KeepsStream.soundEncrypted {o o' : ConnObjects κ} (h : KeepsStream o o')
    (hs : SoundEncrypted o) : SoundEncrypted o' :=
  ⟨h.sound hs.1, h.useEncryption.trans hs.2⟩

/-- One block is read into a buffer with room for it. -/
theorem readBlock_sound (o : ConnObjects κ) (h : SoundEncrypted o)
    (hroom : o.conn.receivingBuf.size.toNat < o.conn.receivingBuf.maxSize.toNat) :
    SoundEncrypted ((readBlock cipher env step).run o).2 := by
  cases hm : step.malloc with
  | false =>
    simp only [readBlock, hm, ↓reduceIte]
    exact h
  | true =>
    have hstore := h.1.store blockSize hroom
    simp only [readBlock, hm, bind_run, get_run, record, modify_run, freadStream, pure_run,
      Bool.true_eq_false, ↓reduceIte]
    generalize ho : ({ o with input := _, log := _ } : ConnObjects κ) = o1
    have h1 : SoundEncrypted o1 := by
      subst ho
      exact ⟨hstore, h.2⟩
    have hroom1 : o1.conn.receivingBuf.size.toNat < o1.conn.receivingBuf.maxSize.toNat := by
      subst ho
      exact hroom
    rcases o.input.take (min blockSize step.ready) with _ | ⟨byte, rest⟩
    · dsimp only
      split_ifs
      · have hc := mcprConnectionClose_keeps cipher env.closing env.fuel none o1
        simp only [closeOnError, bind_run]
        rcases hr : (mcprConnectionClose cipher env.closing env.fuel none).run o1 with
          ⟨e | ⟨⟩, o'⟩ <;> rw [hr] at hc <;> exact hc.soundEncrypted h1
      · exact h1
    · simp only [mcprCryptoDecrypt, bind_run, get_run]
      rcases hctx : o1.conn.ctxDecrypt with _ | ctx
      · exact h1
      · cases hd : step.decryptUpdate with
        | false => exact h1
        | true =>
          exact ⟨BufferSound.receive h1.1 [(cipher.decrypt ctx byte).1] true hroom1, h1.2⟩

theorem updateTurn_sound (o : ConnObjects κ) (h : SoundEncrypted o) :
    SoundEncrypted ((updateTurn cipher env step).run o).2 := by
  rcases growBuffer_run step h.1 with ⟨hlt, hr⟩ | ⟨-, -, hr⟩ | ⟨heq, -, hr, hg⟩
  · simp only [updateTurn, bind_run, hr, Bool.true_eq_false, ↓reduceIte, get_run, h.2]
    exact readBlock_sound cipher env step o h hlt
  · simp only [updateTurn, bind_run, hr, ↓reduceIte, pure_run]
    exact h
  · have henc : (grown o).conn.useEncryption = true := h.2
    simp only [updateTurn, bind_run, hr, Bool.true_eq_false, ↓reduceIte, get_run, henc]
    refine readBlock_sound cipher env step (grown o) ⟨hg, henc⟩ ?_
    have := h.1.grown_maxSize
    have hs : (grown o).conn.receivingBuf.size = o.conn.receivingBuf.size := rfl
    rw [hs]
    omega

/-- By induction on the turns: every one of them starts where the one before left off. -/
theorem updateLoop_sound (steps : List ReadStep) :
    Keeps SoundEncrypted (updateLoop cipher env steps) := by
  induction steps with
  | nil => exact Keeps.bind (updateTurn_sound cipher env _) fun _ => Keeps.pure _
  | cons step steps ih =>
    refine Keeps.bind (updateTurn_sound cipher env step) fun r => ?_
    rcases r with _ | ok
    · exact ih
    · exact Keeps.pure _

end Encrypted

section Plain
variable (cipher : Cipher κ) (env : ReadEnv) (step : ReadStep)

/-- In a turn of the plain branch no byte arrives, and what `fread` asks for fits the buffer
(which grows only when it is full), or there is no buffer to read into. -/
def NothingArrives (o : ConnObjects κ) (step : ReadStep) : Prop :=
  (o.conn.receivingBuf.size.toNat = o.conn.receivingBuf.maxSize.toNat ∧ GrowthFails o step) ∨
    (o.conn.receivingBuf.size.toNat = o.conn.receivingBuf.maxSize.toNat ∨
      o.conn.receivingBuf.size.toNat+256 ≤ o.conn.receivingBuf.maxSize.toNat) ∧
    (o.input = [] ∨ step.ready = 0)

theorem readPlain_sound (o : ConnObjects κ) (h : Sound o)
    (hroom : o.conn.receivingBuf.size.toNat+256 ≤ o.conn.receivingBuf.maxSize.toNat)
    (hno : o.input = [] ∨ step.ready = 0) :
    Sound ((readPlain cipher env step).run o).2 ∧
      ((readPlain cipher env step).run o).1 ≠ .ok none := by
  have hstore := h.store 256 hroom
  have hnil : o.input.take (min 256 step.ready) = [] := by
    rcases hno with hn | hn <;> simp [hn]
  simp only [readPlain, bind_run, get_run, record, modify_run, freadStream, pure_run, hnil,
    ↓reduceIte]
  split_ifs
  · simp only [setNinerr, closeOnError, bind_run, modify_run]
    generalize ho : ({ o with input := _, log := _, ninerr := _ } : ConnObjects κ) = o1
    have h1 : Sound o1 := by
      subst ho
      exact hstore
    have hc := mcprConnectionClose_keeps cipher env.closing env.fuel none o1
    rcases hr : (mcprConnectionClose cipher env.closing env.fuel none).run o1 with
      ⟨e | ⟨⟩, o'⟩ <;> rw [hr] at hc <;> exact ⟨hc.sound h1, by simp⟩
  · exact ⟨hstore, by simp⟩

theorem updateTurn_plain (o : ConnObjects κ) (h : Sound o) (hp : o.conn.useEncryption = false)
    (hno : NothingArrives o step) :
    Sound ((updateTurn cipher env step).run o).2 ∧
      ((updateTurn cipher env step).run o).1 ≠ .ok none := by
  rcases growBuffer_run step h with ⟨hlt, hr⟩ | ⟨-, -, hr⟩ | ⟨heq, hg, hr, hs⟩
  · rcases hno with ⟨heq, -⟩ | ⟨hroom, hno⟩
    · omega
    · simp only [updateTurn, bind_run, hr, Bool.true_eq_false, ↓reduceIte, get_run, hp,
        Bool.false_eq_true]
      exact readPlain_sound cipher env step o h (by omega) hno
  · simp only [updateTurn, bind_run, hr, ↓reduceIte, pure_run]
    exact ⟨h, by simp⟩
  · have hp' : (grown o).conn.useEncryption = false := hp
    simp only [updateTurn, bind_run, hr, Bool.true_eq_false, ↓reduceIte, get_run, hp',
      Bool.false_eq_true]
    refine readPlain_sound cipher env step (grown o) hs ?_ ?_
    · have := h.grown_maxSize
      have hsize : (grown o).conn.receivingBuf.size = o.conn.receivingBuf.size := rfl
      rw [hsize]
      omega
    · exact hno.elim (fun hf => absurd hf.2 hg) fun h => h.2

/-- The turn that the loop starts with. -/
def ReadEnv.firstStep (env : ReadEnv) : ReadStep := env.steps.headD .quiet

theorem updateReceivingBuffer_plain (o : ConnObjects κ) (h : Sound o)
    (hp : o.conn.useEncryption = false) (hno : NothingArrives o env.firstStep) :
    Sound ((updateReceivingBuffer cipher env).run o).2 := by
  have hturn := updateTurn_plain cipher env env.firstStep o h hp hno
  -- the loop ends with its first turn
  simp only [updateReceivingBuffer]
  rcases hs : env.steps with _ | ⟨step, steps⟩ <;>
    simp only [ReadEnv.firstStep, hs, List.headD_nil, List.headD_cons] at hturn <;>
    simp only [updateLoop, bind_run] <;>
    rcases hr : (updateTurn cipher env _).run o with ⟨e | _ | ok, o'⟩ <;>
    rw [hr] at hturn
  · exact hturn.1
  · exact absurd rfl hturn.2
  · exact hturn.1
  · exact hturn.1
  · exact absurd rfl hturn.2
  · exact hturn.1

end Plain

section Frame
variable (cipher : Cipher κ) (env : ReadEnv) (out : McprPacket)

/-- The fields of the frame at the front of the buffer, if it is there as a whole, do not run
past the end of what is buffered. -/
def FrameBuffered (o : ConnObjects κ) : Prop :=
  ∀ headerSize pktlen, HeadFrame o.conn.receivingBuf headerSize pktlen →
    headerSize+pktlen ≤ o.conn.receivingBuf.size.toNat →
      ∀ n, (walkFrame (shift o.conn.receivingBuf.content headerSize) o.conn.state
        (UInt64.ofNat pktlen)).1 = .ok n → headerSize+n ≤ o.conn.receivingBuf.size.toNat

theorem readFrame_sound (o : ConnObjects κ) (h : Sound o) (hf : FrameBuffered o) :
    Sound ((readFrame cipher env out).run o).2 := by
  by_cases hhead : ∃ headerSize pktlen, HeadFrame o.conn.receivingBuf headerSize pktlen
  · obtain ⟨headerSize, pktlen, hhead⟩ := hhead
    rw [readFrame_run cipher env out o hhead]
    split_ifs with hc
    · have hend := hf headerSize pktlen hhead hc
      generalize hr : mcprDecodePacket env.decode out
        (shift o.conn.receivingBuf.content headerSize) o.conn.state (UInt64.ofNat pktlen) = r
      have hexit := mcprDecodePacket_exit env.decode out
        (shift o.conn.receivingBuf.content headerSize) o.conn.state (UInt64.ofNat pktlen)
      rw [hr] at hexit
      rcases he : r.exit with n | _
      · by_cases hn : n = -1
        · subst hn
          exact (decodeFrame_rejected cipher env out o _ r hr he).1.sound h
        · -- a count is the end of the walk, or the zero of a refusal
          have hle : (n+headerSize).toNat ≤ o.conn.receivingBuf.size.toNat := by
            rw [he] at hexit
            rcases hexit with ⟨-, hexit⟩ | hexit
            · exact absurd (DecodeExit.ret.inj hexit) hn
            · rcases hw : (walkFrame (shift o.conn.receivingBuf.content headerSize) o.conn.state
                (UInt64.ofNat pktlen)).1 with (m | _) | m <;> rw [hw] at hexit
              · have hm := walkFrame_refusal _ _ _ m hw
                obtain rfl : n = m := DecodeExit.ret.inj hexit
                have := hhead.header_le
                omega
              · simp [exitOf, Except.map] at hexit
              · obtain rfl : n = (m : ℤ) := DecodeExit.ret.inj hexit
                have := hend m hw
                omega
          rw [decodeFrame_consumes cipher env out o n hn _ rfl hle _ r hr he]
          exact BufferSound.consume h _ hle
      · rw [decodeFrame_trap cipher env out o _ r hr he]
        exact h
    · exact h
  · push Not at hhead
    obtain ⟨err, hr⟩ := readFrame_headless cipher env out o hhead
    rw [hr]
    exact h

end Frame

section Runs
variable (cipher : Cipher κ)

/-- What the owner of a connection can call. A call of `mcpr_connection_read_packet` is an
`update` and a `frame`. -/
inductive ConnCall (κ : Type)
  | update (env : ReadEnv)
  | frame (env : ReadEnv) (out : McprPacket)
  | setUseEncryption (value : Bool)
  | setCrypto (ctxEncrypt ctxDecrypt : κ)
  | setState (state : McprState)
  | setCompression (compression : Bool)

def ConnCall.prog : ConnCall κ → ConnProg κ Unit
  | .update env => do let _ ← updateReceivingBuffer cipher env
  | .frame env out => do let _ ← readFrame cipher env out
  | .setUseEncryption value => mcprConnectionSetUseEncryption value
  | .setCrypto ctxEncrypt ctxDecrypt => mcprConnectionSetCrypto ctxEncrypt ctxDecrypt
  | .setState state => mcprConnectionSetState state
  | .setCompression compression => mcprConnectionSetCompression compression

/-- The condition on a call, in the state it is made in. -/
def StaysSound (o : ConnObjects κ) : ConnCall κ → Prop
  | .update env => o.conn.useEncryption = true ∨ NothingArrives o env.firstStep
  | .frame _ _ => FrameBuffered o
  | _ => True

theorem bind_unit_run {α : Type} (m : ConnProg κ α) (o : ConnObjects κ) :
    ((do let _ ← m : ConnProg κ Unit).run o).2 = (m.run o).2 := by
  simp only [bind_run]
  rcases m.run o with ⟨e | a, o'⟩ <;> rfl

/-- In a run of a new connection whose calls all meet the condition, every state reached has a
sound receive buffer. -/
theorem receivingBuf_sound (garbage : Mem) (input : List UInt8) (r : Except Halt Unit)
    (o : ConnObjects κ) (h : Reaches (ConnCall.prog cipher) StaysSound
      (mcprConnectionNew garbage input) r o) : BufferSound o.conn.receivingBuf o.log := by
  refine Reaches.invariant (P := Sound) ?_ ?_ h
  · exact ⟨show (0 : ℕ) ≤ 256 by decide, show 256 ≤ ptrdiffMax by decide,
      by simp [mcprConnectionNew], rfl⟩
  intro u i hi hu
  rcases i with env | ⟨env, out⟩ | value | ⟨ctxEncrypt, ctxDecrypt⟩ | state | compression
  · rw [ConnCall.prog, bind_unit_run]
    rcases hi with henc | hno
    · exact (updateLoop_sound cipher env env.steps u ⟨hu, henc⟩).1
    · cases henc : u.conn.useEncryption with
      | true => exact (updateLoop_sound cipher env env.steps u ⟨hu, henc⟩).1
      | false => exact updateReceivingBuffer_plain cipher env u hu henc hno
  · rw [ConnCall.prog, bind_unit_run]
    exact readFrame_sound cipher env out u hu hi
  · exact hu
  · exact BufferSound.append hu (by simp [ConnEvent.inside]) rfl rfl
  · exact hu
  · exact hu

/-- A call of `mcpr_connection_read_packet` stays within such runs. -/
theorem mcprConnectionReadPacket_reaches {o u : ConnObjects κ}
    (h : Reaches (ConnCall.prog cipher) StaysSound o (.ok ()) u) (env : ReadEnv) (out : McprPacket)
    (hu : StaysSound u (.update env)) (hf : ∀ ok u',
      (updateReceivingBuffer cipher env).run u = (.ok ok, u') → FrameBuffered u') :
    ∃ r, Reaches (ConnCall.prog cipher) StaysSound o r
      ((mcprConnectionReadPacket cipher env out).run u).2 := by
  have hupdate := Reaches.call (.update env) h hu
  simp only [mcprConnectionReadPacket, bind_run]
  rcases hr : (updateReceivingBuffer cipher env).run u with ⟨e | ok, u'⟩
  · have hcall : (ConnCall.prog cipher (.update env)).run u = (.error e, u') := by
      simp [ConnCall.prog, hr]
    rw [hcall] at hupdate
    exact ⟨_, hupdate⟩
  · have hcall : (ConnCall.prog cipher (.update env)).run u = (.ok (), u') := by
      simp [ConnCall.prog, hr]
    rw [hcall] at hupdate
    have hframe := Reaches.call (ConnCall.frame env out) hupdate (hf ok u' hr)
    rw [ConnCall.prog, bind_unit_run] at hframe
    exact ⟨_, hframe⟩

end Runs

section Example

/-- Two bytes can arrive at once, in each of two turns. -/
def readEnvExample : ReadEnv :=
  { fuel := 0, closing := default, decode := { host := .little, malloc := fun _ => true }
    steps := [{ ReadStep.quiet with ready := 2 }, { ReadStep.quiet with ready := 2 }] }

/-- With encryption on, two bytes are received one by one. -/
theorem encrypted_buffer_sound : ∃ o : ConnObjects Unit,
    o.conn.receivingBuf.bytes = [0x01, 0x00] ∧ BufferSound o.conn.receivingBuf o.log := by
  have hnew : Reaches (ConnCall.prog cipherExample) StaysSound
    (mcprConnectionNew (fun _ => 0) [0x01, 0x00]) _ _ := .start
  have hcrypto := Reaches.call (ConnCall.setCrypto () ()) hnew trivial
  have hflag := Reaches.call (ConnCall.setUseEncryption true) hcrypto trivial
  have hupdate := Reaches.call (ConnCall.update readEnvExample) hflag (.inl rfl)
  exact ⟨_, by rfl, receivingBuf_sound cipherExample _ _ _ _ hupdate⟩

/-- With encryption off, two bytes count for 512: the next read writes past the buffer. -/
theorem plain_buffer_overrun :
    ∃ o, Reaches (ConnCall.prog cipherExample) (fun _ _ => True)
      (mcprConnectionNew (fun _ => 0) [0x01, 0x00]) (.ok ()) o ∧
        ¬ BufferSound o.conn.receivingBuf o.log := by
  refine ⟨_, .call (ConnCall.update readEnvExample) .start trivial, fun h => ?_⟩
  have := h.inside (.store 512 256 512) (by decide)
  exact absurd this (show ¬ 512+256 ≤ 512 by decide)

end Example

end Stronk.Mcpr
