import Stronk.McprDecode
import Stronk.McprEncode

/-! A connection that carries packets over a byte stream (`mcpr/connection.c`). A run keeps a
log of what it does with the receive buffer and the streams. Callbacks of the packet stream
can call back into the connection, so a call that may close takes fuel. -/
namespace Stronk.Mcpr
open ByteMemory EarlyExit

/-- A stream cipher that turns one byte into one, as AES-128-CFB8 does. -/
structure Cipher (κ : Type) where
  encrypt : κ → UInt8 → UInt8 × κ
  decrypt : κ → UInt8 → UInt8 × κ

variable {κ : Type}

def Cipher.encryptAll (cipher : Cipher κ) : κ → List UInt8 → List UInt8 × κ
  | ctx, [] => ([], ctx)
  | ctx, b :: bs =>
    let r := cipher.encryptAll (cipher.encrypt ctx b).2 bs
    ((cipher.encrypt ctx b).1 :: r.1, r.2)

def blockSize : ℕ := 1

/-- `struct ninio_buffer` -/
structure NinioBuffer where
  content : Mem
  maxSize : UInt64
  size : UInt64

/-- The bytes that a buffer holds. -/
def NinioBuffer.bytes (buf : NinioBuffer) : List UInt8 := read buf.content buf.size.toNat

theorem NinioBuffer.bytes_length (buf : NinioBuffer) : buf.bytes.length = buf.size.toNat :=
  read_length _ _

/-- `struct conn`; a context that was never set is NULL. -/
structure Conn (κ : Type) where
  isClosed : Bool
  state : McprState
  useCompression : Bool
  useEncryption : Bool
  ctxEncrypt : Option κ
  ctxDecrypt : Option κ
  receivingBuf : NinioBuffer

inductive ConnEvent
  | /-- `fread` may store `len` bytes at `off` in a buffer of `maxSize`. -/
    store (off len maxSize : ℕ)
  | receive (bytes : List UInt8) (decrypted : Bool)
  | /-- `n` bytes are taken off a receive buffer that held `held`. -/
    consume (n : ℕ) (held : List UInt8)
  | send (bytes : List UInt8) (encrypted : Bool)
  | writePacket (id : McprPacketType)
  | fclose
  | setCrypto
  deriving DecidableEq, Repr

/-- `input` is what is still to come on the iostream. -/
structure ConnObjects (κ : Type) where
  conn : Conn κ
  input : List UInt8
  log : List ConnEvent
  ninerr : Option Ninerr

/-- A call that does not return. -/
inductive Halt
  | abort
  | exitFailure
  | trap
  | undefined
  | outOfFuel
  deriving DecidableEq, Repr, Inhabited

abbrev ConnProg (κ : Type) := Prog (ConnObjects κ) Halt

def record (e : ConnEvent) : ConnProg κ Unit := modify fun o => { o with log := o.log ++ [e] }

def setNinerr (err : Ninerr) : ConnProg κ Unit := modify fun o => { o with ninerr := some err }

def setConn (f : Conn κ → Conn κ) : ConnProg κ Unit := modify fun o => { o with conn := f o.conn }

def setBuf (f : NinioBuffer → NinioBuffer) : ConnProg κ Unit :=
  setConn fun c => { c with receivingBuf := f c.receivingBuf }

section Write

/-- What `compress` of zlib makes of some bytes. -/
inductive Compressed
  | ok (bytes : List UInt8)
  | memError
  | bufError
  deriving DecidableEq, Repr

/-- What a call that writes a packet finds around it: the allocations of the packet buffer and
of the buffers for encryption and compression, what the packet buffer holds before, how
`EVP_EncryptUpdate` and `fwrite` fare. -/
structure WriteEnv where
  bounds : EncodeEnv
  encode : EncodeEnv
  mallocPacket : Bool
  garbage : Mem
  mallocEncrypted : Bool
  encryptUpdate : Bool
  mallocCompressed : Bool
  compress : List UInt8 → Compressed
  fwrite : Bool

/-- Everything goes well, and nothing can be compressed. -/
instance : Inhabited WriteEnv := ⟨{
  bounds := default
  encode := default
  mallocPacket := true
  garbage := fun _ => 0
  mallocEncrypted := true
  encryptUpdate := true
  mallocCompressed := true
  compress := .ok
  fwrite := true }⟩

variable (cipher : Cipher κ) (env : WriteEnv)

def mcprCryptoEncrypt (data : List UInt8) : ConnProg κ (Option (List UInt8)) := do
  let o ← get
  if data.length > int32Max then do
    setNinerr .arithmetic
    return none
  else match o.conn.ctxEncrypt with
    | none => exit .undefined
    | some ctx =>
      if env.encryptUpdate then do
        setConn fun c => { c with ctxEncrypt := some (cipher.encryptAll ctx data).2 }
        return some (cipher.encryptAll ctx data).1
      else do
        setNinerr (.new "EVP_EncryptUpdate failed.")
        return none

def mcprCompress (bytes : List UInt8) : ConnProg κ (Option (List UInt8)) :=
  match env.compress bytes with
  | .ok compressed => return some compressed
  | .memError => do
    setNinerr .outOfMemory
    return none
  | .bufError => do
    modify fun o => { o with ninerr := none }
    return none

/-- `fwrite(bytes, length, 1, iostream)`; no item is written of an empty buffer. -/
def fwriteStream (bytes : List UInt8) (encrypted : Bool) : ConnProg κ ℕ := do
  record (.send bytes encrypted)
  return if bytes ≠ [] ∧ env.fwrite then 1 else 0

/-- The result of `fwrite` is compared with 1, but with the length of what was compressed
first where nothing was encrypted. -/
def writeCompressed (bytes : List UInt8) (encrypted : Bool) : ConnProg κ Bool := do
  if env.mallocCompressed = false then do
    setNinerr .fromErrno
    return false
  else do
    let compressed ← mcprCompress env bytes
    match compressed with
    | none => return false
    | some compressed => do
      let written ← fwriteStream env compressed encrypted
      if encrypted then return written = 1
      else return (if written = compressed.length then 1 else 0) = 1

def mcprConnectionWrite (bytes : List UInt8) : ConnProg κ Bool := do
  let o ← get
  if o.conn.useEncryption then
    if env.mallocEncrypted = false then do
      setNinerr .fromErrno
      return false
    else do
      let encrypted ← mcprCryptoEncrypt cipher env bytes
      match encrypted with
      | none => return false
      | some encrypted =>
        if o.conn.useCompression then writeCompressed env encrypted true
        else do
          let written ← fwriteStream env encrypted true
          return written = 1
  else if o.conn.useCompression then writeCompressed env bytes false
  else do
    let written ← fwriteStream env bytes false
    return written = 1

/-- The packet is encoded behind a reserve of five bytes, and its length is put right before
it. -/
def writeEncoded (id : McprPacketType) (pktlen : UInt64) (encoded : List UInt8) :
    ConnProg κ Bool := do
  if pktlen = 0 then return false
  else if int32Max < pktlen.toNat then do
    setNinerr .arithmetic
    return false
  else do
    let lengthPrefix := mcprEncodeVarint (BitVec.ofNat 32 pktlen.toNat)
    let skip := mcprVarintSizeMax-mcprVarintBounds (BitVec.ofNat 32 pktlen.toNat)
    let buf := write (write env.garbage mcprVarintSizeMax encoded) skip lengthPrefix
    let ok ← mcprConnectionWrite cipher env
      (read (shift buf skip) (pktlen.toNat+lengthPrefix.length))
    if ok then do
      record (.writePacket id)
      return true
    else return false

/-- Nothing holds an encoder back that writes more than was allocated. -/
def mcprConnectionWritePacket (pkt : McprPacket) : ConnProg κ Bool := do
  match mcprPacketTypeToByte pkt.id, mcprEncodePacketBounds env.bounds pkt with
  | none, _ => exit .abort
  | some _, .abort => exit .abort
  | some _, .undefined => exit .undefined
  | some _, .ret bounds =>
    let requiredSize := sizeOfNat mcprVarintSizeMax+bounds
    if ptrdiffMax < requiredSize.toNat ∨ env.mallocPacket = false then do
      setNinerr .fromErrno
      return false
    else do
      let r := mcprEncodePacket env.encode pkt
      if requiredSize.toNat < mcprVarintSizeMax+r.objects.written.length then exit .undefined
      else do
        modify fun o => { o with ninerr := r.objects.ninerr.or o.ninerr }
        match r.exit with
        | .abort => exit .abort
        | .undefined => exit .undefined
        | .ret pktlen => writeEncoded cipher env pkt.id pktlen r.objects.written

/-- `sizeof(struct mcpr_packet)`, which is the size of the stream's buffer as well. -/
structure PacketSize where
  bytes : ℕ
  large : 1 < bytes

/-- The size where a pointer has eight bytes. -/
def sizeofMcprPacket : PacketSize := ⟨136, by decide⟩

/-- `mcpr_connection_stream_write`; the `bool` of the write is what it returns. -/
def mcprConnectionStreamWrite (size : PacketSize) (pkt : McprPacket) (n : ℕ) : ConnProg κ ℤ := do
  if n < size.bytes then exit .abort
  else do
    let ok ← mcprConnectionWritePacket cipher env pkt
    return if ok then 1 else 0

end Write

section Close
variable (cipher : Cipher κ) (closing : ℕ → WriteEnv)

def disconnectPacket (state : McprState) (reason : List UInt8) : McprPacket :=
  { (default : McprPacket) with
    id := .plCbDisconnect
    state := if state = .play then .play else .login
    data := { (default : McprPacketData) with
      playClientbound := { (default : PlayClientbound) with disconnect := { reason } } } }

mutual

/-- `closing` says how the write fares at each level. -/
def mcprConnectionClose : ℕ → Option (List UInt8) → ConnProg κ Unit
  | 0, _ => exit .outOfFuel
  | fuel+1, reason => do
    let o ← get
    if o.conn.isClosed then pure ()
    else do
      (if o.conn.state = .login ∨ o.conn.state = .play then do
        let _ ← mcprConnectionWritePacket cipher (closing fuel) (disconnectPacket o.conn.state
          (reason.getD (ascii "\x7b\"text\":\"Disconnected by server.\"\x7d")))
        -- `fclose` on the packet stream runs its close function before it returns
        record .fclose
        mcprConnectionStreamClose fuel
      else pure ())
      setConn fun c => { c with isClosed := true }

def mcprConnectionStreamClose : ℕ → ConnProg κ Unit
  | 0 => exit .outOfFuel
  | fuel+1 => mcprConnectionClose fuel none

end

end Close

section Read

inductive Errno
  | eagain
  | ewouldblock
  | ebadf
  | econnreset
  | enotconn
  | other
  deriving DecidableEq, Repr, Inhabited

/-- What one turn of the read loop finds: whether the allocations succeed, how many bytes
have arrived, whether the stream is in error and why, how `EVP_DecryptUpdate` fares. -/
structure ReadStep where
  realloc : Bool
  malloc : Bool
  ready : ℕ
  ferror : Bool
  errno : Errno
  decryptUpdate : Bool
  deriving DecidableEq, Repr

/-- A turn in which nothing has arrived. -/
def ReadStep.quiet : ReadStep :=
  { realloc := true, malloc := true, ready := 0, ferror := false, errno := .eagain
    decryptUpdate := true }

/-- How a call that reads fares, turn by turn; a loop that gets to the end of `steps` finds
nothing more. -/
structure ReadEnv where
  fuel : ℕ
  closing : ℕ → WriteEnv
  steps : List ReadStep
  decode : DecodeEnv

variable (cipher : Cipher κ) (env : ReadEnv) (step : ReadStep)

def mcprCryptoDecrypt (byte : UInt8) : ConnProg κ (Option UInt8) := do
  let o ← get
  match o.conn.ctxDecrypt with
  | none => exit .undefined
  | some ctx =>
    if step.decryptUpdate then do
      setConn fun c => { c with ctxDecrypt := some (cipher.decrypt ctx byte).2 }
      return some (cipher.decrypt ctx byte).1
    else do
      setNinerr (.new "EVP_DecryptUpdate failed.")
      return none

/-- `fread` of at most `n` bytes from the iostream. -/
def freadStream (n : ℕ) : ConnProg κ (List UInt8) := do
  let o ← get
  let bytes := o.input.take (min n step.ready)
  modify fun o => { o with input := o.input.drop (min n step.ready) }
  return bytes

def growBuffer : ConnProg κ Bool := do
  let o ← get
  let buf := o.conn.receivingBuf
  if buf.maxSize < buf.size+sizeOfNat blockSize then
    if ptrdiffMax < (buf.maxSize+sizeOfNat (blockSize*256)).toNat ∨ step.realloc = false then do
      setNinerr .fromErrno
      return false
    else do
      setBuf fun b => { b with maxSize := b.maxSize+sizeOfNat (blockSize*256) }
      return true
  else return true

/-- Store bytes at the end of the buffer and move the end by `n`. -/
def storeBytes (bytes : List UInt8) (decrypted : Bool) (n : ℕ) : ConnProg κ Unit := do
  setBuf fun b => { b with
    content := write b.content b.size.toNat bytes
    size := b.size+sizeOfNat n }
  record (.receive bytes decrypted)

def closeOnError : ConnProg κ Unit := mcprConnectionClose cipher env.closing env.fuel none

/-- The encrypted branch of a turn; `none` goes on with the next turn. -/
def readBlock : ConnProg κ (Option Bool) := do
  if step.malloc = false then do
    setNinerr .fromErrno
    return some false
  else do
    let o ← get
    let buf := o.conn.receivingBuf
    record (.store buf.size.toNat blockSize buf.maxSize.toNat)
    let block ← freadStream step blockSize
    match block with
    | [] =>
      if step.ferror ∧ (step.errno = .ebadf ∨ step.errno = .econnreset ∨ step.errno = .enotconn)
      then do
        closeOnError cipher env
        return some false
      else return some true
    | byte :: _ => do
      let plain ← mcprCryptoDecrypt cipher step byte
      match plain with
      | none => return some false
      | some plain => do
        storeBytes [plain] true 1
        return none

/-- The plain branch of a turn: the end of the buffer moves by 256 for every byte read. -/
def readPlain : ConnProg κ (Option Bool) := do
  let o ← get
  let buf := o.conn.receivingBuf
  record (.store buf.size.toNat 256 buf.maxSize.toNat)
  let bytes ← freadStream step 256
  if bytes = [] then
    if step.ferror ∧ step.errno ≠ .eagain ∧ step.errno ≠ .ewouldblock then do
      setNinerr .fromErrno
      closeOnError cipher env
      return some false
    else return some false
  else do
    storeBytes bytes false (bytes.length*256)
    return none

def updateTurn : ConnProg κ (Option Bool) := do
  let ok ← growBuffer step
  if ok = false then return some false
  else do
    let o ← get
    if o.conn.useEncryption then readBlock cipher env step else readPlain cipher env step

def updateLoop : List ReadStep → ConnProg κ Bool
  | [] => do
    let r ← updateTurn cipher env .quiet
    return r.getD true
  | step :: steps => do
    let r ← updateTurn cipher env step
    match r with
    | some ok => return ok
    | none => updateLoop steps

def updateReceivingBuffer : ConnProg κ Bool := updateLoop cipher env env.steps

structure ReadResult where
  ok : Bool
  out : McprPacket

/-- Take `n` bytes off the front of the buffer. Taking more than it holds moves memory that
is not its own. -/
def consumeBytes (n : ℕ) : ConnProg κ Unit := do
  let o ← get
  let buf := o.conn.receivingBuf
  record (.consume n buf.bytes)
  if buf.size.toNat < n then exit .undefined
  else setBuf fun b => { b with
    content := moveDown b.content n (b.size.toNat-n)
    size := b.size-UInt64.ofNat n }

/-- The frame at the front of the buffer, `headerSize` bytes in, is decoded. -/
def decodeFrame (out : McprPacket) (headerSize : ℕ) (pktlen : UInt64) : ConnProg κ ReadResult := do
  let o ← get
  let r := mcprDecodePacket env.decode out (shift o.conn.receivingBuf.content headerSize)
    o.conn.state pktlen
  modify fun o => { o with ninerr := r.cursor.objects.ninerr.or o.ninerr }
  match r.exit with
  | .trap => exit .trap
  | .ret bytesRead =>
    if bytesRead = -1 then do
      closeOnError cipher env
      return ⟨false, r.out⟩
    else do
      consumeBytes (bytesRead+headerSize).toNat
      return ⟨true, r.out⟩

/-- What `mcpr_connection_read_packet` does once the receive buffer is updated. -/
def readFrame (out : McprPacket) : ConnProg κ ReadResult := do
  let o ← get
  let buf := o.conn.receivingBuf
  if buf.size ≤ 0 then return ⟨false, out⟩
  else match mcprDecodeVarint buf.content buf.size with
    | .error message => do
      setNinerr (.new message)
      return ⟨false, out⟩
    | .ok (pktlen, headerSize) =>
      if pktlen.toInt ≤ 0 then do
        setNinerr (.new "Received invalid packet length")
        return ⟨false, out⟩
      else if pktlen.toNat ≤ (buf.size-UInt64.ofNat headerSize).toNat then
        decodeFrame cipher env out headerSize (UInt64.ofNat pktlen.toNat)
      else return ⟨false, out⟩

def mcprConnectionReadPacket (out : McprPacket) : ConnProg κ ReadResult := do
  let _ ← updateReceivingBuffer cipher env
  readFrame cipher env out

/-- What every turn does, the loop does. Its last turn is one in which nothing is ready. -/
theorem updateLoop_moves {R : ConnObjects κ → ConnObjects κ → Prop} [IsPreorder (ConnObjects κ) R]
    (hquiet : Moves R (updateTurn cipher env .quiet)) (steps : List ReadStep)
    (hturn : ∀ step ∈ steps, Moves R (updateTurn cipher env step)) :
    Moves R (updateLoop cipher env steps) := by
  induction steps with
  | nil => exact hquiet.bind fun _ => Moves.pure _
  | cons step steps ih =>
    apply (hturn step List.mem_cons_self).bind
    intro r
    cases r with
    | none => exact ih fun s hs => hturn s (List.mem_cons_of_mem step hs)
    | some ok => exact Moves.pure ok

end Read

section Set

def mcprConnectionSetUseEncryption (value : Bool) : ConnProg κ Unit :=
  setConn fun c => { c with useEncryption := value }

def mcprConnectionSetCrypto (ctxEncrypt ctxDecrypt : κ) : ConnProg κ Unit := do
  setConn fun c => { c with ctxEncrypt := some ctxEncrypt, ctxDecrypt := some ctxDecrypt }
  record .setCrypto

def mcprConnectionSetState (state : McprState) : ConnProg κ Unit :=
  setConn fun c => { c with state := state }

def mcprConnectionSetCompression (compression : Bool) : ConnProg κ Unit :=
  setConn fun c => { c with useCompression := compression }

end Set

/-- `mcpr_connection_new`; the buffer is as the allocator left it. -/
def mcprConnectionNew (garbage : Mem) (input : List UInt8) : ConnObjects κ :=
  { conn :=
      { isClosed := false, state := .handshake, useCompression := false, useEncryption := false
        ctxEncrypt := none, ctxDecrypt := none
        receivingBuf := { content := garbage, maxSize := 256, size := 0 } }
    input := input, log := [], ninerr := none }

end Stronk.Mcpr
