import Stronk.EncodedPackets
import Stronk.Reassembly
import Stronk.VarintCodec

/-! What one connection writes and another reads. The writer puts a length before every packet,
then encrypts and then compresses; the reader decrypts, and looks for lengths. -/
namespace Stronk.Mcpr
open ByteMemory EarlyExit
variable {κ : Type}

section Cipher

/-- `R` relates contexts of which the second undoes what the first does, byte by byte. -/
def Inverse (cipher : Cipher κ) (R : κ → κ → Prop) : Prop :=
  ∀ e d byte, R e d →
    (cipher.decrypt d (cipher.encrypt e byte).1).1 = byte ∧
      R (cipher.encrypt e byte).2 (cipher.decrypt d (cipher.encrypt e byte).1).2

variable {cipher : Cipher κ} {R : κ → κ → Prop}

theorem Inverse.decryptAll (h : Inverse cipher R) {e d : κ} (he : R e d) (bs : List UInt8) :
    cipher.decryptAll d (cipher.encryptAll e bs).1 = bs := by
  induction bs generalizing e d with
  | nil => rfl
  | cons b bs ih =>
    obtain ⟨hb, hnext⟩ := h e d b he
    rw [Cipher.encryptAll, Cipher.decryptAll, hb, ih hnext]

theorem encryptAll_append (cipher : Cipher κ) (ctx : κ) (as bs : List UInt8) :
    (cipher.encryptAll ctx (as ++ bs)).1 = (cipher.encryptAll ctx as).1 ++
      (cipher.encryptAll (cipher.encryptAll ctx as).2 bs).1 := by
  induction as generalizing ctx with
  | nil => rfl
  | cons a as ih => simp only [List.cons_append, Cipher.encryptAll, ih]

end Cipher

section Writer
variable (cipher : Cipher κ) (env : WriteEnv)

/-- A packet as it is framed: the length of its body, and the body. -/
def frameOf (body : List UInt8) : List UInt8 :=
  mcprEncodeVarint (BitVec.ofNat 32 body.length) ++ body

/-- The bytes put on the iostream. -/
def ConnEvent.sent : ConnEvent → List UInt8
  | .send bytes _ => bytes
  | _ => []

def sentBytes (o o' : ConnObjects κ) : List UInt8 := (newEvents o o').flatMap ConnEvent.sent

/-- A write, with what it finds around it. -/
abbrev PacketWrite := WriteEnv × McprPacket

/-- The bytes that a packet is encoded to. -/
def PacketWrite.body (w : PacketWrite) : List UInt8 :=
  (mcprEncodePacket w.1.encode w.2).objects.written

/-- Framing and writing of a body that is not too long. -/
theorem writeEncoded_run (id : McprPacketType) (body : List UInt8) (o : ConnObjects κ)
    (hpos : 0 < body.length) (hmax : body.length ≤ int32Max) :
    (writeEncoded cipher env id (sizeOfNat body.length) body).run o =
      (do
        let ok ← mcprConnectionWrite cipher env (frameOf body)
        if ok then do
          record (.writePacket id)
          return true
        else return false : ConnProg κ Bool).run o := by
  have hlen : (sizeOfNat body.length).toNat = body.length := by
    rw [sizeOfNat_toNat]
    simp only [int32Max] at hmax
    omega
  have hne : sizeOfNat body.length ≠ 0 := by
    intro h
    rw [h, UInt64.toNat_zero] at hlen
    omega
  have hbounds : mcprVarintBounds (BitVec.ofNat 32 body.length) ≤ mcprVarintSizeMax :=
    mcprVarintBounds_le _
  have hfront := mcprEncodeVarint_length (BitVec.ofNat 32 body.length)
  have hread := read_write_before env.garbage
    (mcprVarintSizeMax-mcprVarintBounds (BitVec.ofNat 32 body.length))
    (mcprEncodeVarint (BitVec.ofNat 32 body.length)) body
  rw [hfront, Nat.sub_add_cancel hbounds, Nat.add_comm] at hread
  simp only [writeEncoded, hne, ↓reduceIte, hlen, not_lt.mpr hmax, hfront, hread, frameOf]

theorem mcprPacketTypeToByte_of_ret {env : EncodeEnv} {pkt : McprPacket} {n : UInt64}
    (h : (mcprEncodePacket env pkt).exit = .ret n) :
    ∃ byte, mcprPacketTypeToByte pkt.id = some byte := by
  rcases hbyte : mcprPacketTypeToByte pkt.id with _ | byte
  · simp [mcprEncodePacket, encodeBody, hbyte, encodeExit] at h
  · exact ⟨byte, rfl⟩

/-- A packet is encoded, inside of the buffer that is allocated for it, to a body whose length
is an `int32_t`. -/
def PacketWrite.Fits (w : PacketWrite) : Prop :=
  ∃ bounds pktlen, mcprEncodePacketBounds w.1.bounds w.2 = .ret bounds ∧
    (sizeOfNat mcprVarintSizeMax+bounds).toNat ≤ ptrdiffMax ∧ w.1.mallocPacket = true ∧
    mcprVarintSizeMax+w.body.length ≤ (sizeOfNat mcprVarintSizeMax+bounds).toNat ∧
    (mcprEncodePacket w.1.encode w.2).exit = .ret pktlen ∧ pktlen ≠ 0 ∧ w.body.length ≤ int32Max

/-- The error that encoding a packet leaves behind. -/
def PacketWrite.encoded (w : PacketWrite) (o : ConnObjects κ) : ConnObjects κ :=
  { o with ninerr := (mcprEncodePacket w.1.encode w.2).objects.ninerr.or o.ninerr }

variable {w : PacketWrite}

theorem PacketWrite.Fits.body_pos (h : w.Fits) : 0 < w.body.length := by
  obtain ⟨bounds, pktlen, -, -, -, -, hexit, hne, -⟩ := h
  obtain ⟨-, hlen⟩ := mcprEncodePacket_written _ _ pktlen hne hexit
  rw [Nat.pos_iff_ne_zero]
  intro hzero
  rw [PacketWrite.body] at hzero
  rw [hzero] at hlen
  exact hne hlen

theorem PacketWrite.Fits.body_le (h : w.Fits) : w.body.length ≤ int32Max := by
  obtain ⟨bounds, pktlen, -, -, -, -, -, -, hmax⟩ := h
  exact hmax

/-- A packet that fits is framed and written. -/
theorem mcprConnectionWritePacket_run (h : w.Fits) (o : ConnObjects κ) :
    (mcprConnectionWritePacket cipher w.1 w.2).run o =
      (do
        let ok ← mcprConnectionWrite cipher w.1 (frameOf w.body)
        if ok then do
          record (.writePacket w.2.id)
          return true
        else return false : ConnProg κ Bool).run (w.encoded o) := by
  have hpos := h.body_pos
  obtain ⟨bounds, pktlen, hbounds, hsize, hmalloc, hroom, hexit, hne, hmax⟩ := h
  obtain ⟨-, hlen⟩ := mcprEncodePacket_written _ _ pktlen hne hexit
  obtain ⟨byte, hbyte⟩ := mcprPacketTypeToByte_of_ret hexit
  have henc := writeEncoded_run cipher w.1 w.2.id w.body (w.encoded o) hpos hmax
  rw [PacketWrite.body] at hroom henc
  simp only [mcprConnectionWritePacket, hbyte, hbounds, hmalloc, not_lt.mpr hsize, not_lt.mpr hroom,
    hexit, hlen, bind_run, modify_run, Bool.true_eq_false, or_self, ↓reduceIte]
  exact henc

/-- Only a packet that fits is written. -/
theorem PacketWrite.fits_of_ok {o o' : ConnObjects κ}
    (h : (mcprConnectionWritePacket cipher w.1 w.2).run o = (.ok true, o')) : w.Fits := by
  unfold mcprConnectionWritePacket at h
  split at h
  · simp at h
  · simp at h
  · simp at h
  · rename_i byte bounds hbyte hbounds
    dsimp only at h
    split_ifs at h with hsize hroom
    · simp [setNinerr] at h
    · simp at h
    · simp only [not_or, not_lt, Bool.not_eq_false] at hsize hroom
      simp only [bind_run, modify_run] at h
      split at h
      · simp at h
      · simp at h
      · rename_i pktlen hexit
        unfold writeEncoded at h
        split_ifs at h with hzero hmax
        · simp at h
        · simp [setNinerr] at h
        · obtain ⟨-, hlen⟩ := mcprEncodePacket_written _ _ pktlen hzero hexit
          refine ⟨bounds, pktlen, hbounds, hsize.1, hsize.2, hroom, hexit, hzero, ?_⟩
          have hwide : (sizeOfNat (mcprEncodePacket w.1.encode w.2).objects.written.length).toNat =
              (mcprEncodePacket w.1.encode w.2).objects.written.length := by
            rw [sizeOfNat_toNat]
            have hobject := hsize.1
            simp only [ptrdiffMax] at hobject
            omega
          rw [hlen, hwide] at hmax
          exact not_lt.mp hmax

end Writer

section Write
variable (cipher : Cipher κ) (env : WriteEnv) (bytes : List UInt8) {o o' : ConnObjects κ}

theorem mcprConnectionWrite_plain (he : o.conn.useEncryption = false)
    (hc : o.conn.useCompression = false) : (mcprConnectionWrite cipher env bytes).run o =
      (.ok (decide (bytes ≠ [] ∧ env.fwrite = true)),
        { o with log := o.log ++ [.send bytes false] }) := by
  simp only [mcprConnectionWrite, bind_run, get_run, he, hc, Bool.false_eq_true, ↓reduceIte,
    fwriteStream, record, modify_run, pure_run]
  split_ifs with hw <;> simp [hw]

/-- What is left of the writer once bytes were encrypted. -/
def afterEncrypt (cipher : Cipher κ) (o : ConnObjects κ) (ctx : κ) (bytes : List UInt8) :
    ConnObjects κ :=
  { o with conn := { o.conn with ctxEncrypt := some (cipher.encryptAll ctx bytes).2 } }

theorem mcprCryptoEncrypt_some {encrypted : List UInt8}
    (h : (mcprCryptoEncrypt cipher env bytes).run o = (.ok (some encrypted), o')) :
    ∃ ctx, o.conn.ctxEncrypt = some ctx ∧ encrypted = (cipher.encryptAll ctx bytes).1 ∧
      o' = afterEncrypt cipher o ctx bytes := by
  simp only [mcprCryptoEncrypt, bind_run, get_run] at h
  by_cases hlen : bytes.length > int32Max
  · simp [hlen, setNinerr] at h
  · simp only [hlen, ↓reduceIte] at h
    rcases hctx : o.conn.ctxEncrypt with _ | ctx
    · simp [hctx] at h
    · cases henv : env.encryptUpdate with
      | false => simp [hctx, henv, setNinerr] at h
      | true =>
        simp only [hctx, henv, ↓reduceIte, setConn, bind_run, modify_run, pure_run, Prod.mk.injEq,
          Except.ok.injEq, Option.some.injEq] at h
        exact ⟨ctx, rfl, h.1.symm, h.2.symm⟩

theorem mcprCryptoEncrypt_run {ctx : κ} (hctx : o.conn.ctxEncrypt = some ctx)
    (hlen : bytes.length ≤ int32Max) (henv : env.encryptUpdate = true) :
    (mcprCryptoEncrypt cipher env bytes).run o =
      (.ok (some (cipher.encryptAll ctx bytes).1), afterEncrypt cipher o ctx bytes) := by
  simp only [mcprCryptoEncrypt, bind_run, get_run, not_lt.mpr hlen, ↓reduceIte, hctx, henv,
    setConn, modify_run, pure_run]
  rfl

/-- On an encrypted connection without compression, what is written was encrypted. -/
theorem mcprConnectionWrite_encrypted (he : o.conn.useEncryption = true)
    (hc : o.conn.useCompression = false)
    (h : (mcprConnectionWrite cipher env bytes).run o = (.ok true, o')) :
    ∃ ctx, o.conn.ctxEncrypt = some ctx ∧ o' = { afterEncrypt cipher o ctx bytes with
      log := o.log ++ [.send (cipher.encryptAll ctx bytes).1 true] } := by
  simp only [mcprConnectionWrite, bind_run, get_run, he, hc, Bool.false_eq_true,
    ↓reduceIte] at h
  split_ifs at h
  · simp [setNinerr] at h
  · rcases hr : (mcprCryptoEncrypt cipher env bytes).run o with ⟨e | encrypted, o1⟩ <;>
      simp only [bind_run, hr] at h
    · simp at h
    · rcases encrypted with _ | encrypted
      · simp at h
      · obtain ⟨ctx, hctx, rfl, rfl⟩ := mcprCryptoEncrypt_some cipher env bytes hr
        simp only [fwriteStream, record, bind_run, modify_run, pure_run, Prod.mk.injEq] at h
        exact ⟨ctx, hctx, h.2.symm⟩

end Write

section Wire
variable {cipher : Cipher κ} {o o' o'' : ConnObjects κ}

/-- The packets are written one after the other, all of them successfully. -/
inductive WritesAll (cipher : Cipher κ) : ConnObjects κ → List PacketWrite → ConnObjects κ → Prop
  | nil (o : ConnObjects κ) : WritesAll cipher o [] o
  | cons {o o' o'' : ConnObjects κ} {w : PacketWrite} {writes : List PacketWrite} :
      (mcprConnectionWritePacket cipher w.1 w.2).run o = (.ok true, o') →
      WritesAll cipher o' writes o'' → WritesAll cipher o (w :: writes) o''

def bodiesOf (writes : List PacketWrite) : List (List UInt8) := writes.map PacketWrite.body

/-- A connection that encrypts and does not compress put `frames` on its stream, in encrypted
form. -/
structure Encrypts (cipher : Cipher κ) (ctx : κ) (frames : List UInt8) (o o' : ConnObjects κ) :
    Prop where
  ctxEncrypt : o'.conn.ctxEncrypt = some (cipher.encryptAll ctx frames).2
  useEncryption : o'.conn.useEncryption = o.conn.useEncryption
  useCompression : o'.conn.useCompression = o.conn.useCompression
  log : ∃ es, o'.log = o.log ++ es ∧ es.flatMap ConnEvent.sent = (cipher.encryptAll ctx frames).1

theorem encryptAll_append_ctx (cipher : Cipher κ) (ctx : κ) (as bs : List UInt8) :
    (cipher.encryptAll ctx (as ++ bs)).2 =
      (cipher.encryptAll (cipher.encryptAll ctx as).2 bs).2 := by
  induction as generalizing ctx with
  | nil => rfl
  | cons a as ih => simp only [List.cons_append, Cipher.encryptAll, ih]

theorem Encrypts.trans {ctx : κ} {as bs : List UInt8} (h : Encrypts cipher ctx as o o')
    (h' : Encrypts cipher (cipher.encryptAll ctx as).2 bs o' o'') :
    Encrypts cipher ctx (as ++ bs) o o'' := by
  obtain ⟨es, hes, hsent⟩ := h.log
  obtain ⟨es', hes', hsent'⟩ := h'.log
  refine ⟨?_, h'.useEncryption.trans h.useEncryption, h'.useCompression.trans h.useCompression,
    es ++ es', ?_, ?_⟩
  · rw [encryptAll_append_ctx]
    exact h'.ctxEncrypt
  · rw [hes', hes, List.append_assoc]
  · rw [List.flatMap_append, hsent, hsent', encryptAll_append]

/-- One packet that is written, on a connection that encrypts and does not compress. -/
theorem mcprConnectionWritePacket_encrypts {w : PacketWrite} (he : o.conn.useEncryption = true)
    (hc : o.conn.useCompression = false)
    (h : (mcprConnectionWritePacket cipher w.1 w.2).run o = (.ok true, o')) :
    ∃ ctx, o.conn.ctxEncrypt = some ctx ∧ Encrypts cipher ctx (frameOf w.body) o o' := by
  have hfits := PacketWrite.fits_of_ok cipher h
  rw [mcprConnectionWritePacket_run cipher hfits] at h
  rcases hr : (mcprConnectionWrite cipher w.1 (frameOf w.body)).run (w.encoded o) with
    ⟨e | _ | _, o1⟩ <;> simp only [bind_run, hr] at h
  · simp at h
  · simp at h
  · obtain ⟨ctx, hctx, rfl⟩ := mcprConnectionWrite_encrypted cipher w.1 _ (o := w.encoded o) he hc hr
    simp only [↓reduceIte, record, bind_run, modify_run, pure_run, Prod.mk.injEq, true_and] at h
    subst h
    refine ⟨ctx, hctx, rfl, rfl, rfl, [.send (cipher.encryptAll ctx (frameOf w.body)).1 true,
      .writePacket w.2.id], ?_, ?_⟩
    · simp [PacketWrite.encoded]
    · simp [ConnEvent.sent]

/-- By induction on the packets: their frames are encrypted one behind the other. -/
theorem WritesAll.encrypts {writes : List PacketWrite} (h : WritesAll cipher o writes o')
    (he : o.conn.useEncryption = true) (hc : o.conn.useCompression = false) {ctx : κ}
    (hctx : o.conn.ctxEncrypt = some ctx) :
    Encrypts cipher ctx ((bodiesOf writes).flatMap frameOf) o o' ∧ ∀ w ∈ writes, w.Fits := by
  induction h generalizing ctx with
  | nil o => exact ⟨⟨hctx, rfl, rfl, [], by simp, rfl⟩, by simp⟩
  | @cons o o1 o' w writes hw _ ih =>
    obtain ⟨ctx', hctx', hfirst⟩ := mcprConnectionWritePacket_encrypts he hc hw
    obtain rfl : ctx' = ctx := by
      rw [hctx, Option.some.injEq] at hctx'
      exact hctx'.symm
    obtain ⟨hrest, hfits⟩ := ih (hfirst.useEncryption.trans he) (hfirst.useCompression.trans hc)
      hfirst.ctxEncrypt
    refine ⟨hfirst.trans hrest, ?_⟩
    intro w' hw'
    rcases List.mem_cons.mp hw' with rfl | hw'
    · exact PacketWrite.fits_of_ok cipher hw
    · exact hfits w' hw'

end Wire

section Split
variable (cipher : Cipher κ) (env : ReadEnv) (o : ConnObjects κ) {headerSize pktlen : ℕ}

/-- The frame splitting of `mcpr_connection_read_packet`: what is handed to the decoder, and
taken off the buffer if the decoder reads all of it. -/
def splitFrame : ConnProg κ (Option (List UInt8)) := do
  let o ← get
  let buf := o.conn.receivingBuf
  if buf.size ≤ 0 then return none
  else match mcprDecodeVarint buf.content buf.size with
    | .error message => do
      setNinerr (.new message)
      return none
    | .ok (pktlen, headerSize) =>
      if pktlen.toInt ≤ 0 then do
        setNinerr (.new "Received invalid packet length")
        return none
      else if pktlen.toNat ≤ (buf.size-UInt64.ofNat headerSize).toNat then do
        consumeBytes (headerSize+pktlen.toNat)
        return some (read (shift buf.content headerSize) pktlen.toNat)
      else return none

variable {o}

theorem splitFrame_run (h : HeadFrame o.conn.receivingBuf headerSize pktlen) :
    splitFrame.run o =
      if headerSize+pktlen ≤ o.conn.receivingBuf.size.toNat
        then (.ok (some (read (shift o.conn.receivingBuf.content headerSize) pktlen)),
          afterConsume o (headerSize+pktlen))
        else (.ok none, o) := by
  have hle := h.header_le
  obtain ⟨v, hd, hv, rfl⟩ := h
  have hk := (mcprDecodeVarint_size _ _ _ _ hd).1
  have hsize : ¬ o.conn.receivingBuf.size ≤ 0 := by
    rw [UInt64.le_iff_toNat_le]
    simp only [UInt64.toNat_zero]
    omega
  have hrest := BoundedReader.toNat_sub_ofNat o.conn.receivingBuf.size headerSize hle
  simp only [splitFrame, bind_run, get_run, hsize, ↓reduceIte, hd, not_le.mpr hv, hrest]
  by_cases hc : headerSize+v.toNat ≤ o.conn.receivingBuf.size.toNat
  · rw [if_pos hc, if_pos (by omega)]
    simp only [bind_run, consumeBytes_run o _ hc, pure_run]
  · rw [if_neg hc, if_neg (by omega)]
    rfl

theorem splitFrame_headless (h : ∀ headerSize pktlen, ¬ HeadFrame o.conn.receivingBuf headerSize pktlen) :
    ∃ err, splitFrame.run o = (.ok none, { o with ninerr := err }) := by
  by_cases hsize : o.conn.receivingBuf.size ≤ 0
  · exact ⟨o.ninerr, by simp only [splitFrame, bind_run, get_run, hsize, ↓reduceIte]; rfl⟩
  · simp only [splitFrame, bind_run, get_run, hsize, ↓reduceIte]
    rcases hd : mcprDecodeVarint o.conn.receivingBuf.content o.conn.receivingBuf.size with
      message | ⟨pktlen, headerSize⟩
    · exact ⟨_, rfl⟩
    · have hle : pktlen.toInt ≤ 0 := not_lt.mp fun hv => h _ _ ⟨pktlen, hd, hv, rfl⟩
      exact ⟨_, by simp only [hle, ↓reduceIte]; rfl⟩

/-- `mcpr_connection_read_packet` splits off the same bytes, where its decoder reads all that it
is given. -/
theorem readFrame_splits (out : McprPacket) (h : HeadFrame o.conn.receivingBuf headerSize pktlen)
    (hc : headerSize+pktlen ≤ o.conn.receivingBuf.size.toNat) (r : DecodeResult)
    (hr : mcprDecodePacket env.decode out (shift o.conn.receivingBuf.content headerSize)
      o.conn.state (UInt64.ofNat pktlen) = r) (hd : r.exit = .ret pktlen) :
    (readFrame cipher env out).run o = (.ok ⟨true, r.out⟩,
      { (splitFrame.run o).2 with ninerr := r.cursor.objects.ninerr.or o.ninerr }) := by
  rw [readFrame_run cipher env out o h, if_pos hc, splitFrame_run h, if_pos hc,
    decodeFrame_consumes cipher env out o pktlen (by omega) (headerSize+pktlen) (by omega) hc _ r
      hr hd]
  rfl

/-- `update_receiving_buffer`, and then the splitting. -/
def receiveBody : ConnProg κ (Option (List UInt8)) := do
  let _ ← updateReceivingBuffer cipher env
  splitFrame

/-- What successive calls find. -/
def receiveBodies (cipher : Cipher κ) : List ReadEnv → ConnProg κ (List (Option (List UInt8)))
  | [] => return []
  | env :: envs => do
    let found ← receiveBody cipher env
    let rest ← receiveBodies cipher envs
    return found :: rest

end Split

section Receive
variable {cipher : Cipher κ} {o o' : ConnObjects κ} {env : ReadEnv}

/-- Bytes arrive in pieces: the stream does not fail and every byte can be decrypted. -/
def Arrives (env : ReadEnv) : Prop :=
  ∀ step ∈ env.steps, step.ferror = false ∧ step.decryptUpdate = true

/-- However the bytes arrive, the bodies found are the first ones of `bodies`; and when all have
arrived, a call finds none only if all were found. -/
def Recovers (cipher : Cipher κ) (bodies : List (List UInt8)) (o : ConnObjects κ) : Prop :=
  ∀ envs, (∀ env ∈ envs, Arrives env) → ∃ found o',
    (receiveBodies cipher envs).run o = (.ok found, o') ∧
      found.reduceOption <+: bodies ∧
      (o'.input = [] → found.getLast? = some none → found.reduceOption = bodies)

/-- A body that can be framed. -/
def Framable (body : List UInt8) : Prop := 0 < body.length ∧ (body.length : ℤ) ≤ int32Max

/-- The reader finds in front of a stream what the writer put there. -/
theorem headFrame_frameOf {body : List UInt8} (h : Framable body) (more : List UInt8) :
    headFrame (frameOf body ++ more) =
      some ((mcprEncodeVarint (BitVec.ofNat 32 body.length)).length, body.length) := by
  obtain ⟨hpos, hmax⟩ := h
  simp only [int32Max] at hmax
  have hnat : (BitVec.ofNat 32 body.length).toNat = body.length := by
    rw [BitVec.toNat_ofNat]
    omega
  have hint : (BitVec.ofNat 32 body.length).toInt = body.length := by
    rw [BitVec.toInt_eq_toNat_cond, hnat]
    omega
  obtain ⟨header, hheader⟩ : ∃ header, mcprEncodeVarint (BitVec.ofNat 32 body.length) = header :=
    ⟨_, rfl⟩
  have hbound : header.length ≤ 5 := by
    rw [← hheader, mcprEncodeVarint_length]
    exact mcprVarintBounds_le _
  refine headFrame_eq_some_iff.mpr ⟨BitVec.ofNat 32 body.length, ?_, by omega, hnat⟩
  rw [frameOf, hheader, List.append_assoc]
  have hdec := mcprDecodeVarint_encode (ofList (header ++ (body ++ more)))
    (sizeOfNat (min (header ++ (body ++ more)).length mcprVarintSizeMax))
    (BitVec.ofNat 32 body.length)
  rw [hheader] at hdec
  refine hdec (ofList_append _ _) ?_
  rw [sizeOfNat_min_toNat]
  simp only [List.length_append, mcprVarintSizeMax]
  omega

theorem frameBytes_frameOf (body more : List UInt8) : frameBytes (frameOf body ++ more)
    (mcprEncodeVarint (BitVec.ofNat 32 body.length)).length body.length = body := by
  simp [frameBytes, frameOf]

theorem drop_frameOf (body more : List UInt8) : (frameOf body ++ more).drop
    ((mcprEncodeVarint (BitVec.ofNat 32 body.length)).length+body.length) = more := by
  have hlen : (frameOf body).length =
      (mcprEncodeVarint (BitVec.ofNat 32 body.length)).length+body.length := by
    rw [frameOf, List.length_append]
  rw [← hlen, List.drop_left]

/-- What the splitting makes of an encrypted stream of frames: it waits for the rest of the first
one, or takes it off. -/
theorem splitFrame_next {bodies : List (List UInt8)} (hb : ∀ body ∈ bodies, Framable body)
    (h : Pending cipher (bodies.flatMap frameOf) o) : Returns splitFrame o fun found o' =>
      (found = none ∧ Pending cipher (bodies.flatMap frameOf) o' ∧ (o'.input = [] → bodies = [])) ∨
      ∃ body rest, bodies = body :: rest ∧ found = some body ∧
        Pending cipher (rest.flatMap frameOf) o' := by
  obtain ⟨ctx, hctx, hbytes⟩ := h.stream
  have hlen := o.conn.receivingBuf.bytes_length
  by_cases hhead : ∃ headerSize pktlen, HeadFrame o.conn.receivingBuf headerSize pktlen
  · obtain ⟨headerSize, pktlen, hhead⟩ := hhead
    have hh : headFrame (bodies.flatMap frameOf) = some (headerSize, pktlen) := by
      rw [hbytes]
      exact headFrame_append _ ((headFrame_buffer _).mp hhead)
    rcases bodies with _ | ⟨body, rest⟩
    · rw [List.flatMap_nil, headFrame_nil] at hh
      contradiction
    · rw [List.flatMap_cons] at hbytes hh
      rw [headFrame_frameOf (hb body List.mem_cons_self), Option.some.injEq, Prod.mk.injEq] at hh
      obtain ⟨rfl, rfl⟩ := hh
      have hrun := splitFrame_run hhead
      split_ifs at hrun with hc
      · -- the frame is there as a whole
        refine ⟨_, _, hrun, .inr ⟨body, rest, rfl, ?_, ?_⟩⟩
        · have hframe := frameBytes_buffer o.conn.receivingBuf (cipher.decryptAll ctx o.input) hc
          rw [← hbytes, frameBytes_frameOf] at hframe
          rw [← hframe]
        · refine ⟨⟨BufferSound.consume h.sound.1 _ hc, h.sound.2⟩, ctx, hctx, ?_⟩
          have hrest := drop_frameOf body (rest.flatMap frameOf)
          rw [hbytes, List.drop_append_of_le_length (by omega)] at hrest
          rw [← hrest]
          congr 1
          exact (afterConsume_bytes _ _ hc).symm
      · refine ⟨_, _, hrun, .inl ⟨rfl, h, fun hin => absurd ?_ hc⟩⟩
        have htotal := h.length
        rw [hin, List.flatMap_cons, List.length_append, frameOf, List.length_append] at htotal
        simp only [List.length_nil, Nat.add_zero] at htotal
        omega
  · push Not at hhead
    obtain ⟨err, hr⟩ := splitFrame_headless hhead
    refine ⟨_, _, hr, .inl ⟨rfl, ⟨h.sound, ctx, hctx, hbytes⟩, fun hin => ?_⟩⟩
    have hin' : o.input = [] := hin
    rcases bodies with _ | ⟨body, rest⟩
    · rfl
    · have hframe := headFrame_frameOf (hb body List.mem_cons_self) (rest.flatMap frameOf)
      rw [← List.flatMap_cons, hbytes, hin', Cipher.decryptAll, List.append_nil] at hframe
      exact absurd ((headFrame_buffer _).mpr hframe) (hhead _ _)

theorem receiveBodies_length {envs : List ReadEnv} {found : List (Option (List UInt8))}
    (h : (receiveBodies cipher envs).run o = (.ok found, o')) : found.length = envs.length := by
  induction envs generalizing o o' found with
  | nil =>
    simp only [receiveBodies, pure_run, Prod.mk.injEq, Except.ok.injEq] at h
    rw [← h.1]
    rfl
  | cons env envs ih =>
    rcases hcall : (receiveBody cipher env).run o with ⟨e | first, o1⟩ <;>
      simp only [receiveBodies, bind_run, hcall] at h
    · simp at h
    · rcases hmore : (receiveBodies cipher envs).run o1 with ⟨e | rest, o2⟩ <;>
        simp only [hmore, pure_run, Prod.mk.injEq, Except.ok.injEq] at h
      · simp at h
      · rw [← h.1, List.length_cons, ih hmore, List.length_cons]

/-- By induction on the calls: what was found and what is still to come are the bodies. -/
theorem Pending.recovers {bodies : List (List UInt8)} (hb : ∀ body ∈ bodies, Framable body)
    (h : Pending cipher (bodies.flatMap frameOf) o) : Recovers cipher bodies o := by
  intro envs
  induction envs generalizing bodies o with
  | nil =>
    intro _
    exact ⟨[], o, rfl, List.nil_prefix, by simp⟩
  | cons env envs ih =>
    intro harrives
    have hrest (e : ReadEnv) (he : e ∈ envs) : Arrives e := harrives e (List.mem_cons_of_mem _ he)
    obtain ⟨ok, o1, hupdate, hf⟩ := updateLoop_fills env env.steps
      (harrives env List.mem_cons_self) h
    obtain ⟨found, o2, hsplit, hnext⟩ := splitFrame_next hb hf.pending
    have hcall : (receiveBody cipher env).run o = (.ok found, o2) := by
      simp only [receiveBody, updateReceivingBuffer, bind_run, hupdate, hsplit]
    rcases hnext with ⟨rfl, hp, hend⟩ | ⟨body, rest, rfl, rfl, hp⟩
    · obtain ⟨more, o3, hmore, hfront, hall⟩ := ih hb hp hrest
      refine ⟨none :: more, o3, by simp only [receiveBodies, bind_run, hcall, hmore, pure_run],
        by rwa [List.reduceOption_cons_of_none], fun hin hlast => ?_⟩
      rw [List.reduceOption_cons_of_none]
      rcases more with _ | ⟨m, more⟩
      · -- the last call
        have hnone := receiveBodies_length hmore
        obtain rfl := List.eq_nil_of_length_eq_zero hnone.symm
        obtain rfl : o3 = o2 := by simpa [receiveBodies] using hmore.symm
        rw [hend hin]
        rfl
      · exact hall hin (by simpa using hlast)
    · obtain ⟨more, o3, hmore, hfront, hall⟩ := ih (fun b hb' => hb b (List.mem_cons_of_mem _ hb'))
        hp hrest
      refine ⟨some body :: more, o3, by simp only [receiveBodies, bind_run, hcall, hmore, pure_run],
        ?_, fun hin hlast => ?_⟩
      · rw [List.reduceOption_cons_of_some]
        exact (List.prefix_cons_inj body).mpr hfront
      · rw [List.reduceOption_cons_of_some, hall hin ?_]
        rcases more with _ | ⟨m, more⟩
        · simp at hlast
        · simpa using hlast

/-- Nothing is found where nothing arrives. -/
theorem Silent.recovers (h : Silent o) : Recovers cipher [] o := by
  intro envs
  suffices hnone : (∀ env ∈ envs, Arrives env) → ∃ found o',
      (receiveBodies cipher envs).run o = (.ok found, o') ∧ found.reduceOption = [] by
    intro harrives
    obtain ⟨found, o', hrun, hnil⟩ := hnone harrives
    exact ⟨found, o', hrun, by rw [hnil], fun _ _ => hnil⟩
  induction envs generalizing o with
  | nil => exact fun _ => ⟨[], o, rfl, rfl⟩
  | cons env envs ih =>
    intro harrives
    have hsilent : Returns (updateReceivingBuffer cipher env) o fun _ o' => Silent o' :=
      updateReceivingBuffer_silent env (fun step hs => (harrives env List.mem_cons_self step hs).1) h
    obtain ⟨ok, o1, hupdate, h1⟩ := hsilent
    obtain ⟨more, o2, hmore, hnil⟩ := ih h1 fun e he => harrives e (List.mem_cons_of_mem _ he)
    have hsplit : splitFrame.run o1 = (.ok none, o1) := by
      simp [splitFrame, h1.size]
    refine ⟨none :: more, o2, ?_, by rwa [List.reduceOption_cons_of_none]⟩
    simp only [receiveBodies, receiveBody, bind_run, hupdate, hsplit, hmore, pure_run]

end Receive

section Agreement

/-- What zlib documents: `uncompress` undoes `compress`, whose output has a header of two bytes
and a checksum of four. -/
structure Zlib (compress : List UInt8 → Compressed) (uncompress : List UInt8 → Option (List UInt8)) :
    Prop where
  inverse : ∀ bytes compressed, compress bytes = .ok compressed → uncompress compressed = some bytes
  length : ∀ bytes compressed, compress bytes = .ok compressed → 6 ≤ compressed.length

/-- A new connection with the settings of `o`. -/
def peerConnection (o : ConnObjects κ) (garbage : Mem) (ctxDecrypt : Option κ)
    (input : List UInt8) : ConnObjects κ :=
  let p := mcprConnectionNew garbage input
  { p with conn := { p.conn with
    useEncryption := o.conn.useEncryption
    useCompression := o.conn.useCompression
    ctxDecrypt := ctxDecrypt } }

/-- With these settings, packets that were all written successfully are read by a peer as they
were written, whatever the cipher and the compression are, and however the bytes arrive. -/
def TransportAgrees (useEncryption useCompression : Bool) (pkts : List McprPacket) : Prop :=
  ∀ (κ : Type) (cipher : Cipher κ) (R : κ → κ → Prop) (uncompress : List UInt8 → Option (List UInt8))
    (writes : List PacketWrite) (o o' : ConnObjects κ) (garbage : Mem) (ctxDecrypt : Option κ),
    Inverse cipher R → (∀ w ∈ writes, Zlib w.1.compress uncompress) →
    o.conn.useEncryption = useEncryption → o.conn.useCompression = useCompression →
    (useEncryption = true → ∃ e d, o.conn.ctxEncrypt = some e ∧ ctxDecrypt = some d ∧ R e d) →
    writes.map Prod.snd = pkts → WritesAll cipher o writes o' →
      Recovers cipher (bodiesOf writes) (peerConnection o garbage ctxDecrypt (sentBytes o o'))

/-- There is a way to write a packet: its body can be framed, and the frame encrypted where that
is asked for. -/
def Writable (useEncryption : Bool) (pkt : McprPacket) : Prop :=
  ∃ env, PacketWrite.Fits (env, pkt) ∧
    (useEncryption = true → (frameOf (PacketWrite.body (env, pkt))).length ≤ int32Max)

section Encrypted

/-- Encrypted and not compressed: what one writes the other reads. -/
theorem transport_encrypted (pkts : List McprPacket) : TransportAgrees true false pkts := by
  intro κ cipher R uncompress writes o o' garbage ctxDecrypt hR _ he hc hctx _ hw
  obtain ⟨e, d, henc, hdec, hed⟩ := hctx rfl
  obtain ⟨hsent, hfits⟩ := hw.encrypts he hc henc
  obtain ⟨es, hes, hbytes⟩ := hsent.log
  have hinput : sentBytes o o' = (cipher.encryptAll e ((bodiesOf writes).flatMap frameOf)).1 := by
    rw [sentBytes, newEvents_append _ _ es hes, hbytes]
  refine Pending.recovers ?_ ⟨⟨⟨show (0 : ℕ) ≤ 256 by decide, show 256 ≤ ptrdiffMax by decide,
    by simp [peerConnection, mcprConnectionNew], rfl⟩, he⟩, d, hdec, ?_⟩
  · intro body hbody
    obtain ⟨w, hw, rfl⟩ := List.mem_map.mp hbody
    exact ⟨(hfits w hw).body_pos, (hfits w hw).body_le⟩
  · have hinverse := hR.decryptAll hed ((bodiesOf writes).flatMap frameOf)
    rw [← hinput] at hinverse
    exact hinverse.symm

end Encrypted

section Healthy

/-- Some bytes between a header and a checksum. -/
def storedBytes (bytes : List UInt8) : List UInt8 := 0x78 :: 0x9C :: (bytes ++ [0, 0, 0, 0])

/-- A stand-in for zlib that stores what it is given. -/
def stored (bytes : List UInt8) : Compressed := .ok (storedBytes bytes)

def unstored (compressed : List UInt8) : Option (List UInt8) :=
  some ((compressed.drop 2).take (compressed.length-6))

theorem stored_zlib : Zlib stored unstored := by
  constructor
  · rintro bytes _ ⟨⟩
    simp [unstored, storedBytes]
  · rintro bytes _ ⟨⟩
    simp [storedBytes]

/-- Everything that a write needs once its packet is encoded. -/
def WriteEnv.healthy (env : WriteEnv) : WriteEnv :=
  { env with
    mallocEncrypted := true
    encryptUpdate := true
    mallocCompressed := true
    compress := stored
    fwrite := true }

/-- Packets that can be written, with ways to write them. -/
theorem exists_writes (useEncryption : Bool) (pkts : List McprPacket)
    (h : ∀ pkt ∈ pkts, Writable useEncryption pkt) :
    ∃ writes : List PacketWrite, writes.map Prod.snd = pkts ∧ ∀ w ∈ writes, w.Fits ∧
      (useEncryption = true → (frameOf w.body).length ≤ int32Max) ∧ w.1.healthy = w.1 := by
  induction pkts with
  | nil => exact ⟨[], rfl, by simp⟩
  | cons pkt pkts ih =>
    obtain ⟨env, hfits, hlen⟩ := h pkt List.mem_cons_self
    obtain ⟨writes, hmap, hall⟩ := ih fun p hp => h p (List.mem_cons_of_mem _ hp)
    refine ⟨(env.healthy, pkt) :: writes, by rw [List.map_cons, hmap], fun w hw => ?_⟩
    rcases List.mem_cons.mp hw with rfl | hw
    · exact ⟨hfits, hlen, rfl⟩
    · exact hall w hw

/-- By induction on the packets: where every write puts something on the stream, all of them
do. -/
theorem exists_writesAll (cipher : Cipher κ) (P : ConnObjects κ → Prop)
    (put : List UInt8 → List UInt8) (writes : List PacketWrite)
    (hstep : ∀ o, P o → ∀ w ∈ writes, ∃ o', P o' ∧
      (mcprConnectionWritePacket cipher w.1 w.2).run o = (.ok true, o') ∧
      ∃ es, o'.log = o.log ++ es ∧ es.flatMap ConnEvent.sent = put (frameOf w.body))
    (o : ConnObjects κ) (h : P o) : ∃ o', WritesAll cipher o writes o' ∧ ∃ es,
      o'.log = o.log ++ es ∧
        es.flatMap ConnEvent.sent = (bodiesOf writes).flatMap fun body => put (frameOf body) := by
  induction writes generalizing o with
  | nil => exact ⟨o, .nil o, [], by simp, rfl⟩
  | cons w writes ih =>
    obtain ⟨o1, h1, hrun, es, hes, hsent⟩ := hstep o h w List.mem_cons_self
    obtain ⟨o2, hrest, es', hes', hsent'⟩ :=
      ih (fun o ho w hw => hstep o ho w (List.mem_cons_of_mem _ hw)) o1 h1
    refine ⟨o2, .cons hrun hrest, es ++ es', by rw [hes', hes, List.append_assoc], ?_⟩
    rw [List.flatMap_append, hsent, hsent']
    rfl

/-- What a successful write of a frame comes to. -/
theorem mcprConnectionWritePacket_puts {w : PacketWrite} (hfits : w.Fits) {o o' : ConnObjects κ}
    {bytes : List UInt8} {encrypted : Bool}
    (hw : (mcprConnectionWrite cipher w.1 (frameOf w.body)).run (w.encoded o) = (.ok true, o'))
    (hlog : o'.log = o.log ++ [.send bytes encrypted]) :
    (mcprConnectionWritePacket cipher w.1 w.2).run o =
        (.ok true, { o' with log := o'.log ++ [.writePacket w.2.id] }) ∧
      ∃ es, o'.log ++ [.writePacket w.2.id] = o.log ++ es ∧ es.flatMap ConnEvent.sent = bytes := by
  constructor
  · rw [mcprConnectionWritePacket_run cipher hfits]
    simp only [bind_run, hw, ↓reduceIte, record, modify_run, pure_run]
  · refine ⟨[.send bytes encrypted, .writePacket w.2.id], ?_, ?_⟩
    · rw [hlog, List.append_assoc]
      rfl
    · simp [ConnEvent.sent]

theorem frameOf_ne_nil (body : List UInt8) : frameOf body ≠ [] := by
  have hpos := mcprVarintBounds_pos (BitVec.ofNat 32 body.length)
  intro h
  have hlen := congrArg List.length h
  rw [frameOf, List.length_append, mcprEncodeVarint_length, List.length_nil] at hlen
  omega

end Healthy

section Plain
variable {cipher : Cipher κ} {o : ConnObjects κ}

/-- One byte of a plain stream arrives: the buffer counts it as 256. -/
theorem update_one_plain (cipher : Cipher κ) (garbage : Mem) (ctxDecrypt : Option κ) (b : UInt8) (rest : List UInt8)
    (he : o.conn.useEncryption = false) :
    Returns (updateReceivingBuffer cipher (arrivals [1]))
      (peerConnection o garbage ctxDecrypt (b :: rest)) fun _ o' =>
        o'.conn.receivingBuf.size = 256 ∧
          o'.conn.receivingBuf.content = write garbage 0 [b] := by
  refine ⟨false, _, by
    simp [updateReceivingBuffer, arrivals, updateLoop, updateTurn, growBuffer, peerConnection,
      mcprConnectionNew, he, readPlain, record, freadStream, storeBytes, setBuf, setConn,
      ReadStep.quiet, sizeOfNat, blockSize, ptrdiffMax]; rfl, ?_⟩
  simp

/-- The second byte that the reader takes from a buffer in which only the first one arrived. -/
def staleByte (b : UInt8) : UInt8 := if b = 0x80 then 1 else 0

theorem first_group (b : UInt8) (hb : b ≠ 0) (h : b &&& 0x80 = 0) :
    0 < (0#32 ||| ((b &&& 0x7F).toBitVec.setWidth 32) <<< 0).toInt ∧
      (0#32 ||| ((b &&& 0x7F).toBitVec.setWidth 32) <<< 0).toNat ≤ 128 := by
  revert b
  decide +kernel

theorem stale_group (b : UInt8) (h : b &&& 0x80 ≠ 0) :
    staleByte b &&& 0x80 = 0 ∧
      0 < ((0#32 ||| ((b &&& 0x7F).toBitVec.setWidth 32) <<< 0) |||
        ((staleByte b &&& 0x7F).toBitVec.setWidth 32) <<< 7).toInt ∧
      ((0#32 ||| ((b &&& 0x7F).toBitVec.setWidth 32) <<< 0) |||
        ((staleByte b &&& 0x7F).toBitVec.setWidth 32) <<< 7).toNat ≤ 128 := by
  revert b
  decide +kernel

/-- Whatever the first byte of a stream is, what was in the buffer before can make a frame of it
that starts with a wrong byte. -/
theorem stale_frame (b wrong : UInt8) (hb : b ≠ 0) : ∃ garbage, ∀ buf : NinioBuffer,
    buf.size = 256 → buf.content = write garbage 0 [b] → ∃ headerSize pktlen,
      HeadFrame buf headerSize pktlen ∧ headerSize+pktlen ≤ buf.size.toNat ∧
        buf.content headerSize = wrong := by
  by_cases hlast : b &&& 0x80 = 0
  · refine ⟨fun _ => wrong, fun buf hsize hcontent => ?_⟩
    obtain ⟨hpos, hle⟩ := first_group b hb hlast
    refine ⟨1, _, ⟨_, ?_, hpos, rfl⟩, ?_, ?_⟩
    · rw [hsize, hcontent, mcprDecodeVarint, mcprDecodeVarintLoop]
      simp [write, hlast, mcprVarintSizeMax]
    · rw [hsize]
      have : (256 : UInt64).toNat = 256 := rfl
      omega
    · rw [hcontent]
      simp [write]
  · refine ⟨fun i => if i = 1 then staleByte b else wrong, fun buf hsize hcontent => ?_⟩
    obtain ⟨hend, hpos, hle⟩ := stale_group b hlast
    refine ⟨2, _, ⟨_, ?_, hpos, rfl⟩, ?_, ?_⟩
    · rw [hsize, hcontent, mcprDecodeVarint, mcprDecodeVarintLoop, mcprDecodeVarintLoop]
      simp [write, hlast, hend, mcprVarintSizeMax]
    · rw [hsize]
      have : (256 : UInt64).toNat = 256 := rfl
      omega
    · rw [hcontent]
      simp [write]

/-- A reader of a plain stream that starts with a frame can find something else in front of it. -/
theorem plain_not_recovered (cipher : Cipher κ) (he : o.conn.useEncryption = false)
    (ctxDecrypt : Option κ) {body : List UInt8} (hb : Framable body) (bodies : List (List UInt8))
    (more : List UInt8) : ∃ garbage, ¬ Recovers cipher (body :: bodies)
      (peerConnection o garbage ctxDecrypt (frameOf body ++ more)) := by
  obtain ⟨first, tail, hfirst⟩ : ∃ first tail, body = first :: tail := by
    rcases body with _ | ⟨first, tail⟩
    · exact absurd hb.1 (by simp)
    · exact ⟨first, tail, rfl⟩
  obtain ⟨b, rest, hframe, hne⟩ : ∃ b rest, frameOf body ++ more = b :: rest ∧ b ≠ 0 := by
    obtain ⟨b, rest, henc, hne⟩ := mcprEncodeVarint_head (BitVec.ofNat 32 body.length) (by
      intro hzero
      have hnat := congrArg BitVec.toNat hzero
      obtain ⟨hpos, hmax⟩ := hb
      simp only [int32Max] at hmax
      rw [BitVec.toNat_ofNat, BitVec.toNat_zero] at hnat
      omega)
    exact ⟨b, rest ++ (body ++ more), by rw [frameOf, henc]; simp, hne⟩
  obtain ⟨garbage, hstale⟩ := stale_frame b (first+1) hne
  refine ⟨garbage, fun hrec => ?_⟩
  obtain ⟨found, o', hrun, hfront, -⟩ := hrec [arrivals [1]] (by
    intro env henv
    rw [List.mem_singleton.mp henv]
    exact (arrivals_calm [1]).steps)
  obtain ⟨ok, o1, hupdate, hsize, hcontent⟩ := update_one_plain cipher garbage ctxDecrypt b rest he
  obtain ⟨headerSize, pktlen, hhead, hc, hwrong⟩ := hstale _ hsize hcontent
  have hsplit := splitFrame_run hhead
  rw [if_pos hc] at hsplit
  rw [hframe] at hrun
  simp only [receiveBodies, receiveBody, bind_run, hupdate, hsplit, pure_run, Prod.mk.injEq,
    Except.ok.injEq] at hrun
  rw [← hrun.1, List.reduceOption_cons_of_some, List.reduceOption_nil] at hfront
  have hbody := (List.cons_prefix_cons.mp hfront).1
  rw [hfirst] at hbody
  have hhead0 := congrArg (fun bs => bs[0]?) hbody
  rw [List.getElem?_cons_zero, List.getElem?_eq_getElem (by rw [read_length]; exact hhead.pos),
    read_getElem, shift_apply, Nat.add_zero, hwrong, Option.some.injEq] at hhead0
  simp at hhead0

/-- A connection that neither encrypts nor compresses. -/
def PlainConn (o : ConnObjects κ) : Prop :=
  o.conn.useEncryption = false ∧ o.conn.useCompression = false

theorem writePacket_plain {w : PacketWrite} (h : PlainConn o) (hfits : w.Fits)
    (henv : w.1.healthy = w.1) : ∃ o', PlainConn o' ∧
      (mcprConnectionWritePacket cipher w.1 w.2).run o = (.ok true, o') ∧
      ∃ es, o'.log = o.log ++ es ∧ es.flatMap ConnEvent.sent = frameOf w.body := by
  have hrun := mcprConnectionWrite_plain cipher w.1 (frameOf w.body) (o := w.encoded o) h.1 h.2
  have hok : decide (frameOf w.body ≠ [] ∧ w.1.fwrite = true) = true := by
    rw [decide_eq_true_iff, ← henv]
    exact ⟨frameOf_ne_nil _, rfl⟩
  rw [hok] at hrun
  obtain ⟨hwrite, hes⟩ := mcprConnectionWritePacket_puts hfits hrun rfl
  refine ⟨_, ?_, hwrite, hes⟩
  exact h

/-- Without encryption and compression, what one connection writes can be misread by another. -/
theorem transport_plain_fails (pkts : List McprPacket) (hne : pkts ≠ [])
    (h : ∀ pkt ∈ pkts, Writable false pkt) : ¬ TransportAgrees false false pkts := by
  intro hagrees
  obtain ⟨writes, hmap, hall⟩ := exists_writes false pkts h
  obtain ⟨w, rest, rfl⟩ : ∃ w rest, writes = w :: rest := by
    rcases writes with _ | ⟨w, rest⟩
    · exact absurd hmap.symm hne
    · exact ⟨w, rest, rfl⟩
  let o : ConnObjects Unit := mcprConnectionNew (fun _ => 0) []
  obtain ⟨o', hw, es, hes, hsent⟩ := exists_writesAll cipherExample PlainConn id (w :: rest)
    (fun o ho w hw => writePacket_plain ho (hall w hw).1 (hall w hw).2.2) o ⟨rfl, rfl⟩
  have hfits := (hall w List.mem_cons_self).1
  obtain ⟨garbage, hbad⟩ := plain_not_recovered (o := o) cipherExample rfl none
    ⟨hfits.body_pos, hfits.body_le⟩ (bodiesOf rest) ((bodiesOf rest).flatMap frameOf)
  refine hbad ?_
  have hrec := hagrees Unit cipherExample (fun _ _ => True) unstored (w :: rest) o o' garbage none
    (fun _ _ _ _ => ⟨rfl, trivial⟩) (fun w' hw' => ?_) rfl rfl (by simp) hmap hw
  · rw [sentBytes, newEvents_append _ _ es hes, hsent] at hrec
    exact hrec
  · rw [← (hall w' hw').2.2]
    exact stored_zlib

end Plain

section Compressed
variable {cipher : Cipher κ} {o o' : ConnObjects κ}

/-- Compressed and not encrypted: no write is reported successful, for the number of items that
`fwrite` wrote is compared with the number of bytes. -/
theorem mcprConnectionWrite_compressed {env : WriteEnv}
    {uncompress : List UInt8 → Option (List UInt8)} (hz : Zlib env.compress uncompress)
    (he : o.conn.useEncryption = false) (hc : o.conn.useCompression = true) (bytes : List UInt8) :
    (mcprConnectionWrite cipher env bytes).run o ≠ (.ok true, o') := by
  intro h
  simp only [mcprConnectionWrite, bind_run, get_run, he, hc, Bool.false_eq_true, ↓reduceIte,
    writeCompressed] at h
  cases hm : env.mallocCompressed with
  | false => simp [hm, setNinerr] at h
  | true =>
    simp only [hm, Bool.true_eq_false, ↓reduceIte, bind_run, mcprCompress] at h
    rcases hcomp : env.compress bytes with compressed | _ | _ <;> simp only [hcomp] at h
    · have hlen := hz.length bytes compressed hcomp
      simp only [pure_run, bind_run, fwriteStream, record, modify_run, Prod.mk.injEq,
        Except.ok.injEq] at h
      have hwritten := h.1
      split_ifs at hwritten <;> simp at hwritten <;> omega
    · simp [setNinerr] at h
    · simp at h

theorem transport_compressed (pkts : List McprPacket) (hne : pkts ≠ []) :
    TransportAgrees false true pkts := by
  intro κ cipher R uncompress writes o o' garbage ctxDecrypt _ hz he hc _ hmap hw
  rcases hw with _ | ⟨hfirst, -⟩
  · exact absurd hmap.symm hne
  · rename_i o1 w writes
    exfalso
    have hfits := PacketWrite.fits_of_ok cipher hfirst
    rw [mcprConnectionWritePacket_run cipher hfits] at hfirst
    rcases hr : (mcprConnectionWrite cipher w.1 (frameOf w.body)).run (w.encoded o) with
      ⟨e | _ | _, o2⟩ <;> simp only [bind_run, hr] at hfirst
    · simp at hfirst
    · simp at hfirst
    · exact mcprConnectionWrite_compressed (o := w.encoded o) (hz w List.mem_cons_self) he hc _ hr

/-- A cipher that inverts some bits. -/
def maskCipher (mask : UInt8) : Cipher Unit :=
  { encrypt := fun _ b => (b ^^^ mask, ()), decrypt := fun _ b => (b ^^^ mask, ()) }

theorem maskCipher_inverse (mask : UInt8) : Inverse (maskCipher mask) fun _ _ => True := by
  intro _ _ byte _
  simp only [maskCipher, and_true]
  rw [UInt8.xor_assoc, UInt8.xor_self, UInt8.xor_zero]

/-- A connection that encrypts and compresses. -/
def BothConn (o : ConnObjects Unit) : Prop :=
  o.conn.useEncryption = true ∧ o.conn.useCompression = true ∧ o.conn.ctxEncrypt = some ()

theorem writePacket_both {mask : UInt8} {o : ConnObjects Unit} {w : PacketWrite} (h : BothConn o)
    (hfits : w.Fits) (hlen : (frameOf w.body).length ≤ int32Max) (henv : w.1.healthy = w.1) :
    ∃ o', BothConn o' ∧
      (mcprConnectionWritePacket (maskCipher mask) w.1 w.2).run o = (.ok true, o') ∧
      ∃ es, o'.log = o.log ++ es ∧ es.flatMap ConnEvent.sent =
        storedBytes ((maskCipher mask).encryptAll () (frameOf w.body)).1 := by
  obtain ⟨encrypted, hencrypted⟩ : ∃ encrypted,
      ((maskCipher mask).encryptAll () (frameOf w.body)).1 = encrypted := ⟨_, rfl⟩
  have hcrypto := mcprCryptoEncrypt_run (maskCipher mask) w.1 (frameOf w.body) (o := w.encoded o)
    h.2.2 hlen (by rw [← henv]; rfl)
  have hm : w.1.mallocEncrypted = true := by rw [← henv]; rfl
  have hm' : w.1.mallocCompressed = true := by rw [← henv]; rfl
  have hcomp (bytes : List UInt8) : w.1.compress bytes = .ok (storedBytes bytes) := by
    rw [← henv]
    rfl
  have hwrite : w.1.fwrite = true := by rw [← henv]; rfl
  have hrun : (mcprConnectionWrite (maskCipher mask) w.1 (frameOf w.body)).run (w.encoded o) =
      (.ok true, { afterEncrypt (maskCipher mask) (w.encoded o) () (frameOf w.body) with
        log := o.log ++ [.send (storedBytes encrypted) true] }) := by
    have he : (w.encoded o).conn.useEncryption = true := h.1
    have hc : (w.encoded o).conn.useCompression = true := h.2.1
    have hne : storedBytes encrypted ≠ [] := by simp [storedBytes]
    simp only [mcprConnectionWrite, bind_run, get_run, he, ↓reduceIte, hm, Bool.true_eq_false,
      hcrypto, hencrypted, hc, writeCompressed, hm', mcprCompress, hcomp, pure_run, fwriteStream,
      record, modify_run, hne, hwrite, ne_eq, not_false_eq_true, and_self, decide_true]
    rfl
  obtain ⟨hwrite, hes⟩ := mcprConnectionWritePacket_puts hfits hrun rfl
  rw [hencrypted]
  refine ⟨_, ?_, hwrite, hes⟩
  exact ⟨h.1, h.2.1, rfl⟩

/-- A mask under which the header of what was stored reads as a length, followed by a byte other
than `first`. -/
def misleadingMask (first : UInt8) : UInt8 := if first = 0xE5 then 0x7A else 0x79

theorem misleading_head (first x : UInt8) : ∃ pktlen wrong y,
    [0x78 ^^^ misleadingMask first, 0x9C ^^^ misleadingMask first, x ^^^ misleadingMask first] =
      [pktlen, wrong, y] ∧ wrong ≠ first ∧
      headFrame [pktlen, wrong, y] = some (1, pktlen.toNat) ∧ pktlen.toNat ≤ 2 ∧
      0 < pktlen.toNat := by
  by_cases h : first = 0xE5
  · have hhead : headFrame [2] = some (1, 2) := by rfl
    have hwhole := headFrame_append [0xE6, x ^^^ 0x7A] hhead
    rw [List.singleton_append] at hwhole
    refine ⟨2, 0xE6, x ^^^ 0x7A, ?_, ?_, hwhole, by decide, by decide⟩
    · rw [misleadingMask, if_pos h]
      rfl
    · rw [h]
      decide
  · have hhead : headFrame [1] = some (1, 1) := by rfl
    have hwhole := headFrame_append [0xE5, x ^^^ 0x79] hhead
    rw [List.singleton_append] at hwhole
    refine ⟨1, 0xE5, x ^^^ 0x79, ?_, ?_, hwhole, by decide, by decide⟩
    · rw [misleadingMask, if_neg h]
      rfl
    · exact fun hw => h hw.symm

/-- A new peer to which three bytes arrive has them in its buffer, decrypted. -/
theorem peer_reads_three {o : ConnObjects Unit} (henc : o.conn.useEncryption = true) (garbage : Mem)
    (cipher : Cipher Unit) {input : List UInt8} (hinput : 3 ≤ input.length) :
    ∃ ok o', (updateReceivingBuffer cipher (arrivals [1, 1, 1])).run
        (peerConnection o garbage (some ()) input) = (.ok ok, o') ∧
      o'.conn.receivingBuf.size.toNat = 3 ∧
      o'.conn.receivingBuf.bytes = (cipher.decryptAll () input).take 3 := by
  have hp : Pending cipher (cipher.decryptAll () input)
      (peerConnection o garbage (some ()) input) :=
    ⟨⟨⟨show (0 : ℕ) ≤ 256 by decide, show 256 ≤ ptrdiffMax by decide,
      by simp [peerConnection, mcprConnectionNew], rfl⟩, henc⟩, (), rfl, rfl⟩
  obtain ⟨ok, o', hupdate, hf, hrest⟩ := updateLoop_drains (arrivals [1, 1, 1]) 3 hp
    (show (0 : UInt64).toNat+3+256 ≤ ptrdiffMax by decide)
  have hlen := hf.pending.length
  have htotal := hp.length
  have hin : (peerConnection o garbage (some ()) input).input = input := rfl
  have hempty : (peerConnection o garbage (some ()) input).conn.receivingBuf.size.toNat = 0 := rfl
  rw [hempty, hin] at htotal
  rw [hrest, hin, htotal, List.length_drop] at hlen
  have hsize : o'.conn.receivingBuf.size.toNat = 3 := by omega
  refine ⟨ok, o', hupdate, hsize, ?_⟩
  rw [hf.pending.buffered, hsize]

/-- A peer decrypts what was compressed last, and splits the outcome. -/
theorem both_not_recovered {o : ConnObjects Unit} (h : BothConn o) (garbage : Mem)
    (first : UInt8) (tail : List UInt8) (bodies : List (List UInt8)) (x : UInt8)
    (more : List UInt8) : ¬ Recovers (maskCipher (misleadingMask first))
      ((first :: tail) :: bodies)
      (peerConnection o garbage (some ()) (0x78 :: 0x9C :: x :: more)) := by
  intro hrec
  obtain ⟨found, o', hrun, hfront, -⟩ := hrec [arrivals [1, 1, 1]] (by
    intro env henv
    rw [List.mem_singleton.mp henv]
    exact (arrivals_calm _).steps)
  obtain ⟨ok, o1, hcall, hsize, hbuf⟩ := peer_reads_three h.1 garbage
    (maskCipher (misleadingMask first)) (show 3 ≤ (0x78 :: 0x9C :: x :: more).length by simp)
  obtain ⟨pktlen, wrong, y, hthree, hwrong, hhead, hle, hpos⟩ := misleading_head first x
  replace hbuf : o1.conn.receivingBuf.bytes = [pktlen, wrong, y] := by
    rw [hbuf, ← hthree]
    rfl
  have hbufHead := (headFrame_buffer _).mpr (hbuf ▸ hhead)
  have hsplit := splitFrame_run hbufHead
  rw [if_pos (by rw [hsize]; omega)] at hsplit
  simp only [receiveBodies, receiveBody, bind_run, hcall, hsplit, pure_run, Prod.mk.injEq,
    Except.ok.injEq] at hrun
  rw [← hrun.1, List.reduceOption_cons_of_some, List.reduceOption_nil] at hfront
  -- the body that is found starts with the byte behind the length
  have hbody := (List.cons_prefix_cons.mp hfront).1
  have hfirst := congrArg (fun bs => bs[0]?) hbody
  rw [List.getElem?_cons_zero, List.getElem?_eq_getElem (by rw [read_length]; exact hpos),
    read_getElem, shift_apply, Nat.add_zero, Option.some.injEq] at hfirst
  have hsecond := congrArg (fun bs => bs[1]?) hbuf
  rw [NinioBuffer.bytes, List.getElem?_eq_getElem (by rw [read_length, hsize]; decide),
    read_getElem, hfirst] at hsecond
  simp only [List.getElem?_cons_succ, List.getElem?_cons_zero, Option.some.injEq] at hsecond
  exact hwrong hsecond.symm

/-- With encryption and compression, what one connection writes can be misread by another. -/
theorem transport_both_fails (pkts : List McprPacket) (hne : pkts ≠ [])
    (h : ∀ pkt ∈ pkts, Writable true pkt) : ¬ TransportAgrees true true pkts := by
  intro hagrees
  obtain ⟨writes, hmap, hall⟩ := exists_writes true pkts h
  obtain ⟨w, rest, rfl⟩ : ∃ w rest, writes = w :: rest := by
    rcases writes with _ | ⟨w, rest⟩
    · exact absurd hmap.symm hne
    · exact ⟨w, rest, rfl⟩
  have hfits := (hall w List.mem_cons_self).1
  obtain ⟨first, tail, hfirst⟩ : ∃ first tail, w.body = first :: tail := by
    rcases hb : w.body with _ | ⟨first, tail⟩
    · have := hfits.body_pos
      simp [hb] at this
    · exact ⟨first, tail, rfl⟩
  let o : ConnObjects Unit :=
    let p := mcprConnectionNew (fun _ => 0) []
    { p with conn := { p.conn with
      useEncryption := true, useCompression := true, ctxEncrypt := some () } }
  obtain ⟨o', hw, es, hes, hsent⟩ := exists_writesAll (maskCipher (misleadingMask first)) BothConn
    (fun bytes => storedBytes ((maskCipher (misleadingMask first)).encryptAll () bytes).1)
    (w :: rest) (fun o ho w hw => writePacket_both ho (hall w hw).1 ((hall w hw).2.1 rfl)
      (hall w hw).2.2) o ⟨rfl, rfl, rfl⟩
  have hrec := hagrees Unit (maskCipher (misleadingMask first)) (fun _ _ => True) unstored
    (w :: rest) o o' (fun _ => 0) (some ()) (maskCipher_inverse _) (fun w' hw' => by
      rw [← (hall w' hw').2.2]
      exact stored_zlib) rfl rfl (fun _ => ⟨(), (), rfl, rfl, trivial⟩) hmap hw
  rw [sentBytes, newEvents_append _ _ es hes, hsent] at hrec
  obtain ⟨x, more, hx⟩ : ∃ x more, ((bodiesOf (w :: rest)).flatMap fun body => storedBytes
      ((maskCipher (misleadingMask first)).encryptAll () (frameOf body)).1) =
        0x78 :: 0x9C :: x :: more := by
    rw [bodiesOf, List.map_cons, List.flatMap_cons]
    generalize ((maskCipher (misleadingMask first)).encryptAll () (frameOf w.body)).1 = encrypted
    generalize (List.map PacketWrite.body rest).flatMap _ = behind
    obtain ⟨x, more, hx⟩ := List.exists_cons_of_ne_nil
      (show (encrypted ++ [0, 0, 0, 0]) ++ behind ≠ [] by simp)
    exact ⟨x, more, by rw [← hx]; rfl⟩
  rw [hx] at hrec
  have hbodies : bodiesOf (w :: rest) = (first :: tail) :: bodiesOf rest := by
    rw [← hfirst]
    rfl
  rw [hbodies] at hrec
  exact both_not_recovered (o := o) ⟨rfl, rfl, rfl⟩ _ first tail _ x more hrec

end Compressed

section Main
variable {cipher : Cipher κ} {o o' : ConnObjects κ}

/-- What is encrypted is no longer than an `int32_t` can say. -/
theorem mcprConnectionWrite_short {env : WriteEnv} {bytes : List UInt8}
    (he : o.conn.useEncryption = true)
    (h : (mcprConnectionWrite cipher env bytes).run o = (.ok true, o')) :
    bytes.length ≤ int32Max := by
  by_contra hlong
  have hgt : bytes.length > int32Max := not_le.mp hlong
  simp only [mcprConnectionWrite, bind_run, get_run, he, ↓reduceIte, mcprCryptoEncrypt, hgt,
    setNinerr] at h
  split_ifs at h <;> simp at h

/-- What is written successfully can be written. -/
theorem WritesAll.writable {writes : List PacketWrite} (h : WritesAll cipher o writes o') :
    ∀ w ∈ writes, Writable o.conn.useEncryption w.2 := by
  induction h with
  | nil => simp
  | @cons o o1 o' w writes hw _ ih =>
    intro w' hw'
    have hfits := PacketWrite.fits_of_ok cipher hw
    have hsame : o1.conn.useEncryption = o.conn.useEncryption := by
      have hsends := mcprConnectionWritePacket_sends cipher w.1 w.2 o
      rw [hw] at hsends
      exact hsends.useEncryption
    rcases List.mem_cons.mp hw' with rfl | hw'
    · refine ⟨w'.1, hfits, fun he => ?_⟩
      rw [mcprConnectionWritePacket_run cipher hfits] at hw
      rcases hr : (mcprConnectionWrite cipher w'.1 (frameOf w'.body)).run (w'.encoded o) with
        ⟨e | _ | _, o2⟩ <;> simp only [bind_run, hr] at hw
      · simp at hw
      · simp at hw
      · exact mcprConnectionWrite_short (o := w'.encoded o) he hr
    · rw [← hsame]
      exact ih w' hw'

/-- Nothing is read where nothing is written. -/
theorem transport_nothing (useEncryption useCompression : Bool) :
    TransportAgrees useEncryption useCompression [] := by
  intro κ cipher R uncompress writes o o' garbage ctxDecrypt _ _ he _ hctx hmap hw
  obtain rfl : writes = [] := List.map_eq_nil_iff.mp hmap
  rcases hw with ⟨⟩
  have hinput : sentBytes o o = [] := by
    rw [sentBytes, newEvents_append o o [] (by simp)]
    rfl
  rw [hinput]
  cases useEncryption with
  | true =>
    obtain ⟨e, d, -, hdec, -⟩ := hctx rfl
    exact Pending.recovers (by simp [bodiesOf]) ⟨⟨⟨show (0 : ℕ) ≤ 256 by decide,
      show 256 ≤ ptrdiffMax by decide, by simp [peerConnection, mcprConnectionNew], rfl⟩, he⟩,
      d, hdec, rfl⟩
  | false =>
    exact Silent.recovers ⟨he, rfl, rfl, show (0 : UInt64) < 256 by decide⟩

/-- Writer and reader agree on the transport if and only if exactly one of encryption and
compression is on, or nothing is written, or one of the packets cannot be. With compression
alone no write is ever reported successful. -/
theorem transport_agrees_iff (useEncryption useCompression : Bool) (pkts : List McprPacket) :
    TransportAgrees useEncryption useCompression pkts ↔
      useEncryption ≠ useCompression ∨ pkts = [] ∨
        ∃ pkt ∈ pkts, ¬ Writable useEncryption pkt := by
  constructor
  · intro h
    by_contra hn
    simp only [ne_eq, not_or, not_not, not_exists, not_and] at hn
    obtain ⟨rfl, hne, hall⟩ := hn
    cases useEncryption with
    | false => exact transport_plain_fails pkts hne hall h
    | true => exact transport_both_fails pkts hne hall h
  · intro h
    by_cases hne : pkts = []
    · rw [hne]
      exact transport_nothing useEncryption useCompression
    · rcases h with h | h | ⟨pkt, hpkt, hno⟩
      · cases useEncryption <;> cases useCompression
        · contradiction
        · exact transport_compressed pkts hne
        · exact transport_encrypted pkts
        · contradiction
      · contradiction
      · intro κ cipher R uncompress writes o o' garbage ctxDecrypt _ _ he _ _ hmap hw
        rw [← hmap] at hpkt
        obtain ⟨w, hmem, rfl⟩ := List.mem_map.mp hpkt
        exact absurd (he ▸ hw.writable w hmem) hno

end Main

end Agreement

section Example

def keepAliveExample : McprPacket :=
  { (default : McprPacket) with id := .plCbKeepAlive, state := .play }

theorem keep_alive_writable : Writable false keepAliveExample :=
  ⟨default, ⟨10, 2, by decide, by decide, rfl, by decide, by decide, by decide, by decide⟩, by simp⟩

/-- A Keep Alive on a plain connection: a reader that gets it byte by byte can find another
body. -/
theorem keep_alive_misread : ¬ ∀ useEncryption useCompression pkts,
    TransportAgrees useEncryption useCompression pkts := fun h =>
  transport_plain_fails [keepAliveExample] (by simp) (by simp [keep_alive_writable])
    (h false false [keepAliveExample])

end Example

end Stronk.Mcpr
