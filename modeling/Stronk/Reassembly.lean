import Stronk.FrameSplit
import Stronk.ReceiveBuffer

/-! Reassembly of packets from a stream that arrives in pieces. However the pieces fall, what is
delivered is what the stream splits into, as long as the reader works as it should: encrypted,
and on frames that keep to their length. -/
namespace Stronk.Mcpr
open ByteMemory EarlyExit
variable {κ : Type}

section Frames

/-- `rest` starts with a frame of the stream `bytes`, all frames before it being accepted. -/
inductive FrameAt (state : McprState) : List UInt8 → List UInt8 → Prop
  | here (bytes : List UInt8) : FrameAt state bytes bytes
  | next {bytes rest : List UInt8} {headerSize pktlen : ℕ} :
      headFrame bytes = some (headerSize, pktlen) → headerSize+pktlen ≤ bytes.length →
      (walkFrame (ofList (frameBytes bytes headerSize pktlen)) state (UInt64.ofNat pktlen)).1 =
        .ok pktlen →
      FrameAt state (bytes.drop (headerSize+pktlen)) rest → FrameAt state bytes rest

/-- The lengths inside of every frame fit it, and its fields end where it does, unless it is
rejected. -/
def FramesSound (state : McprState) (bytes : List UInt8) : Prop :=
  ∀ rest, FrameAt state bytes rest → ∀ headerSize pktlen,
    headFrame rest = some (headerSize, pktlen) → headerSize+pktlen ≤ rest.length →
      lengthsFit (ofList (frameBytes rest headerSize pktlen)) state (UInt64.ofNat pktlen) = true ∧
        FrameExact (ofList (frameBytes rest headerSize pktlen)) state 0 pktlen

variable {state : McprState} {bytes : List UInt8} {headerSize pktlen : ℕ}

theorem FramesSound.next (h : FramesSound state bytes)
    (hh : headFrame bytes = some (headerSize, pktlen)) (hc : headerSize+pktlen ≤ bytes.length)
    (hw : (walkFrame (ofList (frameBytes bytes headerSize pktlen)) state
      (UInt64.ofNat pktlen)).1 = .ok pktlen) :
    FramesSound state (bytes.drop (headerSize+pktlen)) :=
  fun rest hr => h rest (.next hh hc hw hr)

/-- What becomes of an exact frame, whatever the packet held before. -/
theorem FrameExact.alone (host : Endian) (out : McprPacket)
    (h : FrameExact (ofList (frameBytes bytes headerSize pktlen)) state 0 pktlen)
    (hh : headFrame bytes = some (headerSize, pktlen)) (hc : headerSize+pktlen ≤ bytes.length) :
    ((walkFrame (ofList (frameBytes bytes headerSize pktlen)) state (UInt64.ofNat pktlen)).1 =
        .ok pktlen ∧
      (decodeAlone host state out (frameBytes bytes headerSize pktlen)).exit = .ret pktlen) ∨
    (∀ out', (decodeAlone host state out' (frameBytes bytes headerSize pktlen)).exit =
        .ret (-1)) ∨
    ∀ out', (decodeAlone host state out' (frameBytes bytes headerSize pktlen)).exit = .trap := by
  have hlen := frameBytes_length hc
  have hexit (out' : McprPacket) :
      (decodeAlone host state out' (frameBytes bytes headerSize pktlen)).exit =
        exitOf ((walkFrame (ofList (frameBytes bytes headerSize pktlen)) state
          (UInt64.ofNat pktlen)).1.map Int.ofNat) := by
    rw [decodeAlone, hlen]
    exact (mcprDecodePacket_exit (spare host) out' _ state _).resolve_left fun h => by
      obtain ⟨⟨k, hk⟩, -⟩ := h
      simp [spare] at hk
  unfold FrameExact at h
  rw [shift_zero] at h
  split at h
  · rename_i n hw
    subst h
    exact .inl ⟨hw, by rw [hexit, hw]; rfl⟩
  · rename_i n hw
    subst h
    exact .inr (.inl fun out' => by rw [hexit, hw]; rfl)
  · rename_i hw
    exact .inr (.inr fun out' => by rw [hexit, hw]; rfl)

end Frames

section Stream

def Cipher.decryptAll (cipher : Cipher κ) : κ → List UInt8 → List UInt8
  | _, [] => []
  | ctx, b :: bs => (cipher.decrypt ctx b).1 :: cipher.decryptAll (cipher.decrypt ctx b).2 bs

/-- An encrypted connection that has `bytes` to go through: those in its buffer and those still
to come. -/
structure Pending (cipher : Cipher κ) (bytes : List UInt8) (o : ConnObjects κ) : Prop where
  sound : SoundEncrypted o
  stream : ∃ ctx, o.conn.ctxDecrypt = some ctx ∧
    bytes = o.conn.receivingBuf.bytes ++ cipher.decryptAll ctx o.input

/-- The bytes taken off the buffer from `o` to `o'`. -/
def taken (o o' : ConnObjects κ) : ℕ := ((newEvents o o').flatMap ConnEvent.consumed).length

/-- From `o` to `o'` the buffer was filled, and nothing taken off. -/
structure Filled (cipher : Cipher κ) (bytes : List UInt8) (o o' : ConnObjects κ) : Prop where
  pending : Pending cipher bytes o'
  state : o'.conn.state = o.conn.state
  log : ∃ es, o'.log = o.log ++ es ∧ es.flatMap ConnEvent.consumed = []

/-- Bytes arrive in pieces: the stream does not fail and every byte can be decrypted. Packets
are decoded with memory to spare. -/
structure Calm (host : Endian) (env : ReadEnv) : Prop where
  decode : env.decode = spare host
  steps : ∀ step ∈ env.steps, step.ferror = false ∧ step.decryptUpdate = true

variable {cipher : Cipher κ} {bytes : List UInt8} {o o' o'' : ConnObjects κ}

theorem Filled.refl (h : Pending cipher bytes o) : Filled cipher bytes o o :=
  ⟨h, rfl, [], by simp, rfl⟩

theorem Filled.trans (h : Filled cipher bytes o o') (h' : Filled cipher bytes o' o'') :
    Filled cipher bytes o o'' := by
  obtain ⟨es, hes, hc⟩ := h.log
  obtain ⟨es', hes', hc'⟩ := h'.log
  exact ⟨h'.pending, h'.state.trans h.state, es ++ es', by rw [hes', hes, List.append_assoc],
    by rw [List.flatMap_append, hc, hc', List.append_nil]⟩

variable (env : ReadEnv) (step : ReadStep)

/-- A block that arrives goes from the stream to the end of the buffer. -/
theorem readBlock_fills (h : Pending cipher bytes o)
    (hroom : o.conn.receivingBuf.size.toNat < o.conn.receivingBuf.maxSize.toNat)
    (herr : step.ferror = false) (hdec : step.decryptUpdate = true) :
    Returns (readBlock cipher env step) o fun _ o' => Filled cipher bytes o o' := by
  obtain ⟨ctx, hctx, hbytes⟩ := h.stream
  cases hm : step.malloc with
  | false =>
    refine ⟨_, _, by simp only [readBlock, hm, ↓reduceIte]; rfl, ?_⟩
    exact ⟨⟨h.sound, ctx, hctx, hbytes⟩, rfl, [], by simp, rfl⟩
  | true =>
    have hstore := h.sound.1.store blockSize hroom
    rcases hin : o.input.take (min blockSize step.ready) with _ | ⟨byte, rest⟩
    · have hdrop : o.input.drop (min blockSize step.ready) = o.input := by
        have := List.take_append_drop (min blockSize step.ready) o.input
        rwa [hin, List.nil_append] at this
      refine ⟨some true, _, by simp [readBlock, hm, record, freadStream, hin, herr]; rfl, ?_⟩
      exact ⟨⟨⟨hstore, h.sound.2⟩, ctx, hctx, by rw [hbytes, hdrop]⟩, rfl, _, rfl, rfl⟩
    · obtain ⟨rest', hrest⟩ : ∃ rest', o.input = byte :: rest' := by
        rcases hi : o.input with _ | ⟨b, rest'⟩ <;> rw [hi] at hin
        · simp at hin
        · rcases hk : min blockSize step.ready with _ | k <;> rw [hk] at hin
          · simp at hin
          · exact ⟨rest', by simp only [List.take_succ_cons, List.cons.injEq] at hin; rw [hin.1]⟩
      have hone : min blockSize step.ready = 1 := by
        rcases hk : step.ready with _ | k
        · simp [hk] at hin
        · simp only [blockSize]
          omega
      let plain := (cipher.decrypt ctx byte).1
      have hsize : o.conn.receivingBuf.size.toNat+[plain].length ≤
          o.conn.receivingBuf.maxSize.toNat := hroom
      have hreceive := hstore.receive [plain] true hsize
      rw [List.append_assoc] at hreceive
      refine ⟨none, _, by simp [readBlock, hm, record, freadStream, hin, mcprCryptoDecrypt, hctx,
        hdec, setConn, storeBytes, setBuf]; rfl, ?_⟩
      refine ⟨⟨⟨hreceive, h.sound.2⟩, (cipher.decrypt ctx byte).2, rfl, ?_⟩,
        rfl, [.store o.conn.receivingBuf.size.toNat blockSize o.conn.receivingBuf.maxSize.toNat,
          .receive [plain] true], by simp [plain], rfl⟩
      change bytes = (o.conn.receivingBuf.store [plain]).bytes ++ cipher.decryptAll _ (o.input.drop _)
      rw [hstore.store_bytes [plain] hsize, hone, hbytes, hrest]
      simp [Cipher.decryptAll, plain]

theorem updateTurn_fills (h : Pending cipher bytes o) (herr : step.ferror = false)
    (hdec : step.decryptUpdate = true) :
    Returns (updateTurn cipher env step) o fun _ o' => Filled cipher bytes o o' := by
  obtain ⟨ctx, hctx, hbytes⟩ := h.stream
  rcases growBuffer_run step h.sound.1 with ⟨hlt, hr⟩ | ⟨-, -, hr⟩ | ⟨heq, -, hr, hg⟩
  · have hb := readBlock_fills env step h hlt herr hdec
    obtain ⟨r, o', hrun, hf⟩ := hb
    exact ⟨r, o', by simp only [updateTurn, bind_run, hr, Bool.true_eq_false, ↓reduceIte, get_run,
      h.sound.2, hrun], hf⟩
  · refine ⟨some false, _, by simp only [updateTurn, bind_run, hr, ↓reduceIte]; rfl, ?_⟩
    exact ⟨⟨h.sound, ctx, hctx, hbytes⟩, rfl, [], by simp, rfl⟩
  · have henc : (grown o).conn.useEncryption = true := h.sound.2
    have hp : Pending cipher bytes (grown o) := ⟨⟨hg, henc⟩, ctx, hctx, hbytes⟩
    have hroom : (grown o).conn.receivingBuf.size.toNat < (grown o).conn.receivingBuf.maxSize.toNat := by
      rw [h.sound.1.grown_maxSize, ← heq]
      exact Nat.lt_add_of_pos_right (by decide)
    obtain ⟨r, o', hrun, hf⟩ := readBlock_fills env step hp hroom herr hdec
    refine ⟨r, o', by simp only [updateTurn, bind_run, hr, Bool.true_eq_false, ↓reduceIte, get_run,
      henc, hrun], ?_⟩
    exact ⟨hf.pending, hf.state, hf.log⟩

/-- By induction on the turns: an update moves bytes from the stream into the buffer. -/
theorem updateLoop_fills (steps : List ReadStep)
    (hcalm : ∀ step ∈ steps, step.ferror = false ∧ step.decryptUpdate = true)
    (h : Pending cipher bytes o) :
    Returns (updateLoop cipher env steps) o fun _ o' => Filled cipher bytes o o' := by
  induction steps generalizing o with
  | nil => exact (updateTurn_fills env _ h rfl rfl).bind fun _ _ hf => Returns.pure hf
  | cons step steps ih =>
    obtain ⟨herr, hdec⟩ := hcalm step List.mem_cons_self
    refine (updateTurn_fills env step h herr hdec).bind fun r o1 hf => ?_
    rcases r with _ | ok
    · exact (ih (fun s hs => hcalm s (List.mem_cons_of_mem _ hs)) hf.pending).mono fun _ _ hf' =>
        hf.trans hf'
    · exact Returns.pure hf

/-- Turns in which one byte arrives each. -/
def oneByOne (n : ℕ) : List ReadStep := List.replicate n { ReadStep.quiet with ready := 1 }

/-- Where memory can be had, a turn takes what has arrived, a byte at most. -/
structure ReadStep.Healthy (step : ReadStep) : Prop where
  realloc : step.realloc = true
  malloc : step.malloc = true
  ferror : step.ferror = false
  decryptUpdate : step.decryptUpdate = true

theorem readBlock_takes (h : Pending cipher bytes o) (hs : step.Healthy) :
    Returns (readBlock cipher env step) o fun r o' =>
      o'.input = o.input.drop (min 1 step.ready) ∧ (r = none ↔ 0 < step.ready ∧ o.input ≠ []) := by
  obtain ⟨ctx, hctx, -⟩ := h.stream
  have hm := hs.malloc
  have herr := hs.ferror
  have hdec := hs.decryptUpdate
  rcases hin : o.input with _ | ⟨byte, rest⟩
  · refine ⟨some true, _, by simp [readBlock, hm, record, freadStream, hin, herr]; rfl, ?_⟩
    simp
  · rcases hready : step.ready with _ | k
    · refine ⟨some true, _, by simp [readBlock, hm, record, freadStream, hin, herr, hready]; rfl, ?_⟩
      simp
    · have hone : min blockSize step.ready = 1 := by
        simp only [blockSize]
        omega
      refine ⟨none, _, by simp [readBlock, hm, record, freadStream, hin, hone, mcprCryptoDecrypt,
        hctx, hdec, setConn, storeBytes, setBuf]; rfl, ?_⟩
      simp

/-- The buffer has room for so many bytes more, and for the growth that comes with them. -/
def HasRoom (o : ConnObjects κ) (n : ℕ) : Prop := o.conn.receivingBuf.size.toNat+n+256 ≤ ptrdiffMax

theorem updateTurn_takes (h : Pending cipher bytes o) (hs : step.Healthy) (hroom : HasRoom o 0) :
    Returns (updateTurn cipher env step) o fun r o' =>
      o'.input = o.input.drop (min 1 step.ready) ∧ (r = none ↔ 0 < step.ready ∧ o.input ≠ []) := by
  obtain ⟨ctx, hctx, hbytes⟩ := h.stream
  rcases growBuffer_run step h.sound.1 with ⟨hlt, hr⟩ | ⟨heq, hfails, -⟩ | ⟨heq, -, hr, hg⟩
  · obtain ⟨r, o', hrun, hf⟩ := readBlock_takes env step h hs
    exact ⟨r, o', by simp only [updateTurn, bind_run, hr, Bool.true_eq_false, ↓reduceIte, get_run,
      h.sound.2, hrun], hf⟩
  · exfalso
    have hgrown := h.sound.1.grown_maxSize
    simp only [grown] at hgrown
    rcases hfails with hf | hf
    · rw [hgrown] at hf
      simp only [HasRoom] at hroom
      omega
    · rw [hs.realloc] at hf
      contradiction
  · have henc : (grown o).conn.useEncryption = true := h.sound.2
    have hp : Pending cipher bytes (grown o) := ⟨⟨hg, henc⟩, ctx, hctx, hbytes⟩
    obtain ⟨r, o', hrun, hf⟩ := readBlock_takes env step hp hs
    exact ⟨r, o', by simp only [updateTurn, bind_run, hr, Bool.true_eq_false, ↓reduceIte, get_run,
      henc, hrun], hf⟩

/-- What is not in the buffer is still to come. -/
theorem Pending.length (h : Pending cipher bytes o) :
    bytes.length = o.conn.receivingBuf.size.toNat+o.input.length := by
  obtain ⟨ctx, -, hbytes⟩ := h.stream
  have hlen (ctx : κ) (input : List UInt8) : (cipher.decryptAll ctx input).length = input.length := by
    induction input generalizing ctx with
    | nil => rfl
    | cons b bs ih => simp [Cipher.decryptAll, ih]
  rw [hbytes, List.length_append, hlen, NinioBuffer.bytes_length]

/-- The buffer holds the start of what is pending. -/
theorem Pending.buffered (h : Pending cipher bytes o) :
    o.conn.receivingBuf.bytes = bytes.take o.conn.receivingBuf.size.toNat := by
  obtain ⟨ctx, -, hbytes⟩ := h.stream
  have hlen := o.conn.receivingBuf.bytes_length
  rw [hbytes, List.take_left' hlen]

/-- By induction on the turns: where there is room, as many bytes are read as arrive. -/
theorem updateLoop_drains (n : ℕ) (h : Pending cipher bytes o) (hroom : HasRoom o n) :
    Returns (updateLoop cipher env (oneByOne n)) o fun _ o' =>
      Filled cipher bytes o o' ∧ o'.input = o.input.drop n := by
  induction n generalizing o with
  | zero =>
    have hturn := (updateTurn_fills env .quiet h rfl rfl).and
      (updateTurn_takes env .quiet h ⟨rfl, rfl, rfl, rfl⟩ hroom)
    exact hturn.bind fun _ _ ht => Returns.pure ⟨ht.1, ht.2.1⟩
  | succ n ih =>
    have hroom0 : HasRoom o 0 := by
      simp only [HasRoom] at hroom ⊢
      omega
    have hturn := (updateTurn_fills env { ReadStep.quiet with ready := 1 } h rfl rfl).and
      (updateTurn_takes env { ReadStep.quiet with ready := 1 } h ⟨rfl, rfl, rfl, rfl⟩ hroom0)
    rw [oneByOne, List.replicate_succ, ← oneByOne]
    refine hturn.bind fun r o1 ⟨hf, hin, hgo⟩ => ?_
    rcases r with _ | ok
    · obtain ⟨-, hnil⟩ := hgo.mp rfl
      have hlen := h.length
      have hlen1 := hf.pending.length
      have hpos := List.length_pos_iff.mpr hnil
      have hdrop : o1.input.length = o.input.length-1 := by
        rw [hin]
        simp
      refine (ih hf.pending ?_).mono fun _ o2 ⟨hf2, hin2⟩ => ⟨hf.trans hf2, ?_⟩
      · simp only [HasRoom] at hroom ⊢
        omega
      · rw [hin2, hin]
        simp
    · -- nothing is left to arrive
      have hnil : o.input = [] := by
        by_contra hne
        simpa using hgo.mpr ⟨by decide, hne⟩
      refine Returns.pure ⟨hf, ?_⟩
      rw [hin, hnil, List.drop_nil, List.drop_nil]

theorem KeepsStream.filled (h : KeepsStream o o') (hp : Pending cipher bytes o) :
    Filled cipher bytes o o' := by
  obtain ⟨ctx, hctx, hbytes⟩ := hp.stream
  obtain ⟨es, hes, hall⟩ := h.log
  refine ⟨⟨h.soundEncrypted hp.sound, ctx, ?_, ?_⟩, ?_, es, hes, ?_⟩
  · rw [← hctx, ← h.conn]
  · rw [hbytes, h.input, ← h.conn]
  · rw [← h.conn]
  · refine List.flatMap_eq_nil_iff.mpr fun e he => ?_
    rcases hall e he with ⟨_, _, rfl⟩ | ⟨_, rfl⟩ | rfl <;> rfl

end Stream

section Delivery
variable {cipher : Cipher κ} {host : Endian} {bytes : List UInt8} {o o' : ConnObjects κ}
variable {headerSize pktlen : ℕ}

/-- A complete frame looks the same in the buffer and in the stream. -/
theorem frameBytes_buffer (buf : NinioBuffer) (more : List UInt8)
    (hc : headerSize+pktlen ≤ buf.size.toNat) :
    frameBytes (buf.bytes ++ more) headerSize pktlen = read (shift buf.content headerSize) pktlen := by
  have hlen := buf.bytes_length
  rw [frameBytes, List.drop_append_of_le_length (by omega), List.take_append_of_le_length]
  · rw [NinioBuffer.bytes, read_drop _ _ _ (by omega), read_take _ _ _ (by omega)]
  · rw [List.length_drop]
    omega

/-- A frame whose lengths fit is decoded in the buffer as it is by itself. -/
theorem decode_in_place (host : Endian) (state : McprState) (out : McprPacket) (buf : NinioBuffer)
    (more : List UInt8) (hc : headerSize+pktlen ≤ buf.size.toNat) (hlt : pktlen < 2^32)
    (hfit : lengthsFit (ofList (frameBytes (buf.bytes ++ more) headerSize pktlen)) state
      (UInt64.ofNat pktlen) = true) :
    mcprDecodePacket (spare host) out (shift buf.content headerSize) state (UInt64.ofNat pktlen) =
      decodeAlone host state out (frameBytes (buf.bytes ++ more) headerSize pktlen) := by
  have hframe := frameBytes_buffer buf more hc
  rw [decodeAlone, hframe, read_length]
  rw [hframe] at hfit
  refine mcprDecodePacket_agree _ _ _ _ _ _ ?_ ?_
  · have hnat : (UInt64.ofNat pktlen).toNat = pktlen := by
      rw [UInt64.toNat_ofNat']
      omega
    rw [hnat]
    exact ofList_read _ _
  · by_contra hs
    have hw := (decodeRun_agrees (spare host) out _ state (UInt64.ofNat pktlen)).strayed
      (eq_true_of_ne_false hs)
    rw [walkFrame_fits, hfit] at hw
    contradiction

/-- What a call that reads a packet does to an encrypted connection with `bytes` to go through:
it halts or waits where the stream has no packet at its front, or it delivers that packet and
takes off its frame. -/
inductive ReadsNext (cipher : Cipher κ) (host : Endian) (bytes : List UInt8) (out : McprPacket)
    (o : ConnObjects κ) : Except Halt ReadResult × ConnObjects κ → Prop
  | halted (e : Halt) (o' : ConnObjects κ) : splitFrames host o.conn.state out bytes = [] →
      ReadsNext cipher host bytes out o (.error e, o')
  | waiting (out' : McprPacket) (o' : ConnObjects κ) : Filled cipher bytes o o' →
      splitFrames host o.conn.state out bytes = splitFrames host o.conn.state out' bytes →
      (o'.input = [] → splitFrames host o.conn.state out bytes = []) →
      ReadsNext cipher host bytes out o (.ok ⟨false, out'⟩, o')
  | delivered (out' : McprPacket) (o' : ConnObjects κ) (k : ℕ) :
      splitFrames host o.conn.state out bytes =
        (out', k) :: splitFrames host o.conn.state out' (bytes.drop k) →
      Pending cipher (bytes.drop k) o' → FramesSound o.conn.state (bytes.drop k) →
      o'.conn.state = o.conn.state →
      (∃ es, o'.log = o.log ++ es ∧ (es.flatMap ConnEvent.consumed).length = k) →
      ReadsNext cipher host bytes out o (.ok ⟨true, out'⟩, o')

theorem readFrame_next (env : ReadEnv) (out : McprPacket) (hdec : env.decode = spare host)
    (h : Pending cipher bytes o) (hs : FramesSound o.conn.state bytes) :
    ReadsNext cipher host bytes out o ((readFrame cipher env out).run o) := by
  obtain ⟨ctx, hctx, hbytes⟩ := h.stream
  have hlen := o.conn.receivingBuf.bytes_length
  by_cases hhead : ∃ headerSize pktlen, HeadFrame o.conn.receivingBuf headerSize pktlen
  · obtain ⟨headerSize, pktlen, hhead⟩ := hhead
    have hbuf := (headFrame_buffer _).mp hhead
    have hh : headFrame bytes = some (headerSize, pktlen) := by
      rw [hbytes]
      exact headFrame_append _ hbuf
    rw [readFrame_run cipher env out o hhead]
    split_ifs with hc
    · have hcb : headerSize+pktlen ≤ bytes.length := by
        rw [hbytes, List.length_append]
        omega
      obtain ⟨hfit, hexact⟩ := hs bytes (.here _) headerSize pktlen hh hcb
      have hplace : mcprDecodePacket env.decode out (shift o.conn.receivingBuf.content headerSize)
          o.conn.state (UInt64.ofNat pktlen) =
            decodeAlone host o.conn.state out (frameBytes bytes headerSize pktlen) := by
        rw [hdec, hbytes]
        rw [hbytes] at hfit
        exact decode_in_place host _ out _ _ hc hhead.lt hfit
      rcases hexact.alone host out hh hcb with ⟨hw, he⟩ | he | he
      · rw [decodeFrame_consumes cipher env out o pktlen (by omega) (headerSize+pktlen) (by omega) hc
          _ _ hplace he]
        have hsplit := splitFrames_delivered hh hcb pktlen (by omega) _ rfl he
        refine .delivered _ _ (headerSize+pktlen) hsplit ?_ (hs.next hh hcb hw) rfl
          ⟨[.consume (headerSize+pktlen) o.conn.receivingBuf.bytes], rfl, ?_⟩
        · refine ⟨⟨BufferSound.consume h.sound.1 _ hc, h.sound.2⟩, ctx, hctx, ?_⟩
          rw [hbytes, List.drop_append_of_le_length (by omega)]
          congr 1
          exact (afterConsume_bytes _ _ hc).symm
        · simp [ConnEvent.consumed, hlen, hc]
      · obtain ⟨hkeeps, hres⟩ := decodeFrame_rejected cipher env out o _ _ hplace (he out)
        have hnil (out' : McprPacket) : splitFrames host o.conn.state out' bytes = [] :=
          splitFrames_rejected hh (.inl (he out'))
        rcases hrun : (decodeFrame cipher env out headerSize (UInt64.ofNat pktlen)).run o with
          ⟨e | res, o'⟩ <;> rw [hrun] at hkeeps hres
        · exact .halted e o' (hnil out)
        · obtain rfl := hres res rfl
          exact .waiting _ o' (hkeeps.filled h) (by rw [hnil, hnil]) fun _ => hnil out
      · rw [decodeFrame_trap cipher env out o _ _ hplace (he out)]
        exact .halted _ _ (splitFrames_rejected hh (.inr (he out)))
    · refine .waiting out o (Filled.refl h) rfl fun hin => splitFrames_waiting fun k l hk => ?_
      rw [hh, Option.some.injEq, Prod.mk.injEq] at hk
      rw [hbytes, hin, Cipher.decryptAll, List.append_nil]
      omega
  · push Not at hhead
    obtain ⟨err, hr⟩ := readFrame_headless cipher env out o hhead
    rw [hr]
    refine .waiting out _ ⟨⟨h.sound, ctx, hctx, hbytes⟩, rfl, [], by simp, rfl⟩ rfl fun hin => ?_
    refine splitFrames_waiting fun k l hk => ?_
    have hin' : o.input = [] := hin
    rw [hbytes, hin', Cipher.decryptAll, List.append_nil] at hk
    exact absurd ((headFrame_buffer _).mpr hk) (hhead k l)

theorem mcprConnectionReadPacket_next {env : ReadEnv} {out : McprPacket}
    {r : Except Halt ReadResult × ConnObjects κ} (hcalm : Calm host env)
    (h : Pending cipher bytes o) (hs : FramesSound o.conn.state bytes)
    (hr : (mcprConnectionReadPacket cipher env out).run o = r) :
    ReadsNext cipher host bytes out o r := by
  obtain ⟨ok, o1, hupdate, hf⟩ := updateLoop_fills env env.steps hcalm.steps h
  obtain ⟨es, hes, hc⟩ := hf.log
  simp only [mcprConnectionReadPacket, updateReceivingBuffer, bind_run, hupdate] at hr
  have hnext := readFrame_next env out hcalm.decode hf.pending (by rwa [hf.state])
  rw [hr] at hnext
  rcases hnext with ⟨e, o', h1⟩ | ⟨out', o', h1, h2, h3⟩ | ⟨out', o', k, h1, h2, h3, h4, es', h5, h6⟩
  · exact .halted e o' (by rwa [hf.state] at h1)
  · rw [hf.state] at h2 h3
    exact .waiting out' o' (hf.trans h1) h2 h3
  · rw [hf.state] at h1 h3 h4
    refine .delivered out' o' k h1 h2 h3 h4 ⟨es ++ es', ?_, ?_⟩
    · rw [h5, hes, List.append_assoc]
    · rw [List.flatMap_append, hc, List.nil_append, h6]

/-- What successive calls deliver, each packet with the bytes taken off for it, until the
program halts or the stream is exhausted: nothing is left to arrive and a call delivers
nothing. -/
inductive Delivers (cipher : Cipher κ) : McprPacket → ConnObjects κ → List ReadEnv →
    List (McprPacket × ℕ) → Prop
  | halted {out : McprPacket} {o o' : ConnObjects κ} {env : ReadEnv} {envs : List ReadEnv}
      {e : Halt} : (mcprConnectionReadPacket cipher env out).run o = (.error e, o') →
      Delivers cipher out o (env :: envs) []
  | exhausted {out out' : McprPacket} {o o' : ConnObjects κ} {env : ReadEnv} :
      (mcprConnectionReadPacket cipher env out).run o = (.ok ⟨false, out'⟩, o') → o'.input = [] →
      Delivers cipher out o [env] []
  | waiting {out out' : McprPacket} {o o' : ConnObjects κ} {env : ReadEnv} {envs : List ReadEnv}
      {packets : List (McprPacket × ℕ)} :
      (mcprConnectionReadPacket cipher env out).run o = (.ok ⟨false, out'⟩, o') →
      Delivers cipher out' o' envs packets → Delivers cipher out o (env :: envs) packets
  | delivered {out out' : McprPacket} {o o' : ConnObjects κ} {env : ReadEnv} {envs : List ReadEnv}
      {packets : List (McprPacket × ℕ)} :
      (mcprConnectionReadPacket cipher env out).run o = (.ok ⟨true, out'⟩, o') →
      Delivers cipher out' o' envs packets →
      Delivers cipher out o (env :: envs) ((out', taken o o') :: packets)

/-- By induction on the calls: what is delivered and what is still to come make up the stream. -/
theorem Delivers.eq_splitFrames {out : McprPacket} {envs : List ReadEnv}
    {packets : List (McprPacket × ℕ)} (hd : Delivers cipher out o envs packets)
    (hcalm : ∀ env ∈ envs, Calm host env) (h : Pending cipher bytes o)
    (hs : FramesSound o.conn.state bytes) :
    packets = splitFrames host o.conn.state out bytes := by
  induction hd generalizing bytes with
  | halted hr =>
    have hnext := mcprConnectionReadPacket_next (hcalm _ List.mem_cons_self) h hs hr
    rcases hnext with ⟨_, _, h1⟩
    exact h1.symm
  | exhausted hr hin =>
    have hnext := mcprConnectionReadPacket_next (hcalm _ List.mem_cons_self) h hs hr
    rcases hnext with _ | ⟨_, _, _, _, h3⟩
    exact (h3 hin).symm
  | waiting hr _ ih =>
    have hnext := mcprConnectionReadPacket_next (hcalm _ List.mem_cons_self) h hs hr
    rcases hnext with _ | ⟨_, _, hf, h2, _⟩
    rw [h2, ih (fun env he => hcalm env (List.mem_cons_of_mem _ he)) hf.pending (by rwa [hf.state]),
      hf.state]
  | delivered hr _ ih =>
    have hnext := mcprConnectionReadPacket_next (hcalm _ List.mem_cons_self) h hs hr
    rcases hnext with _ | _ | ⟨_, _, k, h1, hp, hs', hst, es, hes, hk⟩
    rw [h1, ih (fun env he => hcalm env (List.mem_cons_of_mem _ he)) hp (by rwa [hst]), hst, taken,
      newEvents_append _ _ es hes, hk]

end Delivery

section Plain
variable {cipher : Cipher κ} {host : Endian} {o : ConnObjects κ}

/-- A connection that is not encrypted, on which nothing was received and nothing will be. -/
structure Silent (o : ConnObjects κ) : Prop where
  plain : o.conn.useEncryption = false
  input : o.input = []
  size : o.conn.receivingBuf.size = 0
  room : 0 < o.conn.receivingBuf.maxSize

theorem updateTurn_silent (env : ReadEnv) (step : ReadStep) (h : Silent o)
    (herr : step.ferror = false) :
    Returns (updateTurn cipher env step) o fun r o' => r = some false ∧ Silent o' := by
  have hroom : ¬ o.conn.receivingBuf.maxSize < 1 := by
    have := UInt64.lt_iff_toNat_lt.mp h.room
    rw [UInt64.lt_iff_toNat_lt]
    simp only [UInt64.toNat_zero, UInt64.toNat_one] at this ⊢
    omega
  refine ⟨some false, _, by simp [updateTurn, growBuffer, h.size, hroom, h.plain, readPlain, record,
    freadStream, h.input, herr, sizeOfNat, blockSize]; rfl, rfl, ?_⟩
  exact ⟨h.plain, by simp, h.size, h.room⟩

theorem updateReceivingBuffer_silent (env : ReadEnv)
    (hsteps : ∀ step ∈ env.steps, step.ferror = false) (h : Silent o) :
    Returns (updateReceivingBuffer cipher env) o fun _ o' => Silent o' := by
  rw [updateReceivingBuffer]
  rcases hs : env.steps with _ | ⟨step, steps⟩
  · exact (updateTurn_silent env _ h rfl).bind fun _ _ hr => Returns.pure hr.2
  · refine (updateTurn_silent env step h (hsteps step (by simp [hs]))).bind fun r o1 hr => ?_
    rw [hr.1]
    exact Returns.pure hr.2

theorem mcprConnectionReadPacket_silent (env : ReadEnv) (out : McprPacket) (hcalm : Calm host env)
    (h : Silent o) : Returns (mcprConnectionReadPacket cipher env out) o fun r o' =>
      r = ⟨false, out⟩ ∧ Silent o' := by
  have hloop : Returns (updateReceivingBuffer cipher env) o fun _ o' => Silent o' :=
    updateReceivingBuffer_silent env (fun step hs => (hcalm.steps step hs).1) h
  refine hloop.bind fun _ o1 h1 => ⟨⟨false, out⟩, o1, ?_, rfl, h1⟩
  simp [readFrame, h1.size]

theorem Delivers.silent {out : McprPacket} {envs : List ReadEnv} {packets : List (McprPacket × ℕ)}
    (hd : Delivers cipher out o envs packets) (hcalm : ∀ env ∈ envs, Calm host env)
    (h : Silent o) : packets = [] := by
  induction hd with
  | halted => rfl
  | exhausted => rfl
  | @waiting out _ _ _ env _ _ hr _ ih =>
    obtain ⟨r, o1, hrun, -, h1⟩ := mcprConnectionReadPacket_silent env out
      (hcalm _ List.mem_cons_self) h
    rw [hr] at hrun
    cases hrun
    exact ih (fun env he => hcalm env (List.mem_cons_of_mem _ he)) h1
  | @delivered out _ _ _ env _ _ hr _ ih =>
    obtain ⟨r, o1, hrun, h0, -⟩ := mcprConnectionReadPacket_silent env out
      (hcalm _ List.mem_cons_self) h
    rw [hr] at hrun
    cases hrun
    cases h0

end Plain

section Main

/-- A connection on which `input` is to arrive, encrypted if it has contexts. -/
def openedConnection (garbage : Mem) (state : McprState) (ctxs : Option (κ × κ))
    (input : List UInt8) : ConnObjects κ :=
  let o : ConnObjects κ := mcprConnectionNew garbage input
  { o with conn := { o.conn with
    state := state
    useEncryption := ctxs.isSome
    ctxEncrypt := ctxs.map Prod.fst
    ctxDecrypt := ctxs.map Prod.snd } }

def plaintext (cipher : Cipher κ) : Option (κ × κ) → List UInt8 → List UInt8
  | some (_, ctx), input => cipher.decryptAll ctx input
  | none, input => input

/-- However a stream arrives in pieces, the packets delivered are those it splits into, provided
that the connection is encrypted (or nothing arrives at all) and the frames are sound. -/
theorem deliveries_fragmentation (cipher : Cipher κ) (host : Endian) (garbage : Mem)
    (state : McprState) (ctxs : Option (κ × κ)) (input : List UInt8) (out : McprPacket)
    (hmode : ctxs.isSome = true ∨ input = [])
    (hframes : FramesSound state (plaintext cipher ctxs input))
    (envs envs' : List ReadEnv) (hcalm : ∀ env ∈ envs, Calm host env)
    (hcalm' : ∀ env ∈ envs', Calm host env) (packets packets' : List (McprPacket × ℕ))
    (hd : Delivers cipher out (openedConnection garbage state ctxs input) envs packets)
    (hd' : Delivers cipher out (openedConnection garbage state ctxs input) envs' packets') :
    packets = packets' ∧ packets = splitFrames host state out (plaintext cipher ctxs input) := by
  rcases ctxs with _ | ⟨ctxEncrypt, ctxDecrypt⟩
  · obtain rfl : input = [] := by simpa using hmode
    have hsilent : Silent (openedConnection garbage state (none : Option (κ × κ)) []) :=
      ⟨rfl, rfl, rfl, show (0 : UInt64) < 256 by decide⟩
    rw [hd.silent hcalm hsilent, hd'.silent hcalm' hsilent]
    exact ⟨rfl, rfl⟩
  · have hp : Pending cipher (plaintext cipher (some (ctxEncrypt, ctxDecrypt)) input)
        (openedConnection garbage state (some (ctxEncrypt, ctxDecrypt)) input) :=
      ⟨⟨⟨show (0 : ℕ) ≤ 256 by decide, show 256 ≤ ptrdiffMax by decide,
        by simp [openedConnection, mcprConnectionNew], rfl⟩, rfl⟩, ctxDecrypt, rfl, rfl⟩
    rw [hd.eq_splitFrames hcalm hp hframes, hd'.eq_splitFrames hcalm' hp hframes]
    exact ⟨rfl, rfl⟩

end Main

section Example

/-- A call in which so many bytes arrive, turn by turn. -/
def arrivals (ready : List ℕ) : ReadEnv :=
  { fuel := 1, closing := default, decode := spare .little
    steps := ready.map fun n => { ReadStep.quiet with ready := n } }

theorem arrivals_calm (ready : List ℕ) : Calm .little (arrivals ready) := by
  refine ⟨rfl, fun step hs => ?_⟩
  obtain ⟨n, -, rfl⟩ := List.mem_map.mp hs
  exact ⟨rfl, rfl⟩

theorem status_request_frames : FramesSound .status [0x01, 0x00] := by
  have hh : headFrame [0x01, 0x00] = some (1, 1) := by rfl
  intro rest hr k l hk hc
  rcases hr with _ | ⟨hh', -, -, hrest⟩
  · cases hh.symm.trans hk
    exact ⟨by rfl, show (1 : ℕ) = 1 from rfl⟩
  · cases hh.symm.trans hh'
    rcases hrest with _ | ⟨hnil, -, -, -⟩
    · exact absurd hk (by simp [headFrame_nil])
    · exact absurd hnil (by simp [headFrame_nil])

/-- A Request on an encrypted connection, in one call and in two. -/
theorem encrypted_request_reassembled : ∃ packets packets',
    Delivers cipherExample default (openedConnection (fun _ => 0xFF) .status (some ((), ()))
      [0x01, 0x00]) [arrivals [1, 1], arrivals []] packets ∧
    Delivers cipherExample default (openedConnection (fun _ => 0xFF) .status (some ((), ()))
      [0x01, 0x00]) [arrivals [1], arrivals [1], arrivals []] packets' ∧
    packets = packets' ∧ packets = splitFrames .little .status default [0x01, 0x00] := by
  have hd : Delivers cipherExample default (openedConnection (fun _ => 0xFF) .status
      (some ((), ())) [0x01, 0x00]) [arrivals [1, 1], arrivals []] _ :=
    .delivered (by rfl) (.exhausted (by rfl) (by rfl))
  have hd' : Delivers cipherExample default (openedConnection (fun _ => 0xFF) .status
      (some ((), ())) [0x01, 0x00]) [arrivals [1], arrivals [1], arrivals []] _ :=
    .waiting (by rfl) (.delivered (by rfl) (.exhausted (by rfl) (by rfl)))
  refine ⟨_, _, hd, hd', deliveries_fragmentation cipherExample .little _ .status (some ((), ()))
    [0x01, 0x00] default (.inl rfl) status_request_frames _ _ ?_ ?_ _ _ hd hd'⟩ <;>
    simp [arrivals_calm]

/-- A Request on a plain connection: delivered when its bytes arrive at once, and lost when they
arrive one by one, for then the second is stored 256 bytes on. -/
theorem plain_request_depends_on_arrival : ∃ packets packets',
    Delivers cipherExample default (openedConnection (fun _ => 0xFF) .status none
      [0x01, 0x00]) [arrivals [2], arrivals []] packets ∧
    Delivers cipherExample default (openedConnection (fun _ => 0xFF) .status none
      [0x01, 0x00]) [arrivals [1, 1]] packets' ∧
    packets ≠ packets' := by
  have hd : Delivers cipherExample default (openedConnection (fun _ => 0xFF) .status none
      [0x01, 0x00]) [arrivals [2], arrivals []] _ :=
    .delivered (by rfl) (.exhausted (by rfl) (by rfl))
  have hd' : Delivers cipherExample default (openedConnection (fun _ => 0xFF) .status none
      [0x01, 0x00]) [arrivals [1, 1]] [] := .exhausted (by rfl) (by rfl)
  exact ⟨_, _, hd, hd', by simp⟩

end Example

end Stronk.Mcpr
