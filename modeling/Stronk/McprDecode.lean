import Stronk.BoundedReader
import Stronk.McprPacket

/-! Decoding of serverbound packets: `mcpr_decode_packet` of `mcpr/packet.c` and
`mcpr_decode_string` of `mcpr/codec.c`. A run takes the frame as the memory at `in`, and
keeps a record of the heap. -/
namespace Stronk.Mcpr
open ByteMemory BoundedReader

/-- What a call finds around it: the byte order and which of its allocations succeed. -/
structure DecodeEnv where
  host : Endian
  malloc : ℕ → Bool

/-- A machine that does not run out of memory. -/
def spare (host : Endian) : DecodeEnv := { host := host, malloc := fun _ => true }

/-- Blocks carry the number of the allocation that made them; `out` is the caller's packet. -/
inductive HeapEvent
  | alloc (k : ℕ)
  | free (k : ℕ)
  | freeOut
  | readOut
  deriving DecidableEq, Repr, Inhabited

structure DecodeObjects where
  out : McprPacket
  ninerr : Option Ninerr
  mallocs : ℕ
  heap : List HeapEvent
  deriving DecidableEq, Repr, Inhabited

/-- A call returns a number, or dies where `-ftrapv` catches a signed overflow. -/
inductive DecodeExit
  | ret (n : ℤ)
  | trap
  deriving DecidableEq, Repr, Inhabited

abbrev Decoder := Reader DecodeObjects DecodeExit

def ninerrSetErr (err : Ninerr) : Decoder Unit := update fun o => { o with ninerr := some err }

def release (events : List HeapEvent) : Decoder Unit :=
  update fun o => { o with heap := o.heap ++ events }

/-- A failure exit: what it releases, and what it returns. -/
def fail {α : Type} (events : List HeapEvent) (n : ℤ) : Decoder α := do
  release events
  leave (.ret n)

def failWith {α : Type} (err : Ninerr) (events : List HeapEvent) (n : ℤ) : Decoder α := do
  ninerrSetErr err
  fail events n

def malloc (env : DecodeEnv) (size : ℕ) : Decoder (Option ℕ) := do
  let o ← objects
  if size ≤ ptrdiffMax ∧ env.malloc o.mallocs = true then do
    update fun o => { o with mallocs := o.mallocs+1, heap := o.heap ++ [.alloc o.mallocs] }
    pure (some o.mallocs)
  else do
    update fun o => { o with mallocs := o.mallocs+1 }
    pure none

def maxPacketLengthExceeded : Ninerr := .new "Max packet length exceeded."

def maxDecodingLengthExceeded : Ninerr := .new "Max decoding length exceeded."

/-- A VarInt at the cursor and its width; the failure exit of the caller otherwise. -/
def varint (events : List HeapEvent) : Decoder (BitVec 32 × ℕ) := do
  let r ← peek mcprDecodeVarint
  match r with
  | .ok v => pure v
  | .error message => failWith (.new message) events (-1)

def refuse (c : Prop) [Decidable c] (failure : Decoder Unit) : Decoder Unit :=
  if c then failure else pure ()

/-- `if(len_left < n) ...` -/
def require (n : ℕ) (exceeded : Decoder Unit) : Decoder Unit := do
  let l ← left
  refuse (l.toNat < n) exceeded

/-- A field of `n` bytes behind a check of what is left of the frame. -/
def field {α : Type} (n : ℕ) (exceeded : Decoder Unit) (decode : Mem → α) : Decoder α := do
  require n exceeded
  load n decode

def orElse {α : Type} (o : Option α) (failure : Decoder α) : Decoder α :=
  match o with
  | some a => pure a
  | none => failure

/-- A decoded string, the number of bytes it took and the block it is in. -/
structure DecodedString where
  content : List UInt8
  bytesRead : ℕ
  block : ℕ
  deriving DecidableEq, Repr, Inhabited

/-- The copy at the end of `mcpr_decode_string`; `none` is the result -1. The NUL that is put behind
the copy is the end of the list. -/
def copyString (env : DecodeEnv) (len bytesRead : ℕ) : Decoder (Option DecodedString) := do
  let p ← malloc env (len+1)
  match p with
  | none => do
    ninerrSetErr .fromErrno
    pure none
  | some block => do
    let content ← load (bytesRead+len) fun m => read (shift m bytesRead) len
    pure (some ⟨content, bytesRead+len, block⟩)

/-- `none` is the result -1. The length is not compared with what is left of the frame. -/
def mcprDecodeString (env : DecodeEnv) : Decoder (Option DecodedString) := do
  let r ← peek mcprDecodeVarint
  match r with
  | .error message => do
    ninerrSetErr (.new message)
    pure none
  | .ok (len, bytesRead) =>
    if len.toInt < 0 then do
      ninerrSetErr (.new "Invalid string length in mcpr_decode_string().")
      pure none
    else if len.toInt > mcprStrMax then do
      ninerrSetErr .arithmetic
      pure none
    -- `len + 1` overflows
    else if len.toInt = int32Max then leave .trap
    else copyString env len.toNat bytesRead

/-- Every caller of `mcpr_decode_string` frees the packet when it fails. -/
def string (env : DecodeEnv) : Decoder DecodedString := do
  let r ← mcprDecodeString env
  orElse r (fail [.freeOut] (-1))

/-- `malloc` with the failure exit of the caller. -/
def mallocOr (env : DecodeEnv) (size : ℕ) (events : List HeapEvent) : Decoder ℕ := do
  let p ← malloc env size
  orElse p (failWith .fromErrno events (-1))

def setOut (f : McprPacket → McprPacket) : Decoder Unit := update fun o => { o with out := f o.out }

def decodeHandshake (env : DecodeEnv) : Decoder ℤ := do
  let protocolVersion ← varint [.freeOut]
  setOut fun p => { p with data.handshake.protocolVersion := protocolVersion.1 }
  skip protocolVersion.2
  let serverAddress ← string env
  setOut fun p => { p with data.handshake.serverAddress := serverAddress.content }
  skip serverAddress.bytesRead
  let serverPort ← field mcprUshortSize
    (failWith maxPacketLengthExceeded [.readOut, .free serverAddress.block, .freeOut] 0)
    (mcprDecodeUshort env.host)
  setOut fun p => { p with data.handshake.serverPort := serverPort }
  skip mcprUshortSize
  let nextState ← varint [.readOut, .free serverAddress.block, .freeOut]
  let state ← orElse (if nextState.1.toInt = 1 then some McprState.status
    else if nextState.1.toInt = 2 then some .login else none)
    (failWith (.new s!"Received invalid next state {nextState.1.toInt} in handshake packet.")
      [.readOut, .free serverAddress.block, .freeOut] 0)
  setOut fun p => { p with data.handshake.nextState := state }
  let o ← offset
  return o+nextState.2

/-- The cursor is not moved past the name. -/
def decodeLoginStart (env : DecodeEnv) (bytesRead1 : ℕ) : Decoder ℤ := do
  let name ← string env
  setOut fun p => { p with data.loginServerbound.loginStart.name := name.content }
  return name.bytesRead+bytesRead1

/-- The format strings of the two length errors have no conversion in them: `PRId32` is
pasted without its percent sign. -/
def decodeEncryptionResponse (env : DecodeEnv) : Decoder ℤ := do
  let sharedSecretLength ← varint [.freeOut]
  refuse (sharedSecretLength.1.toInt < 0)
    (failWith (.new "Read invalid shared secret length (d).") [.freeOut] (-1))
  setOut fun p => { p with
    data.loginServerbound.encryptionResponse.sharedSecretLength := sharedSecretLength.1 }
  skip sharedSecretLength.2
  let _ ← mallocOr env sharedSecretLength.1.toNat [.freeOut]
  let sharedSecret ← load sharedSecretLength.1.toNat fun m => read m sharedSecretLength.1.toNat
  setOut fun p => { p with data.loginServerbound.encryptionResponse.sharedSecret := sharedSecret }
  skip sharedSecretLength.1.toNat
  let verifyTokenLength ← varint [.freeOut]
  refuse (verifyTokenLength.1.toInt < 0)
    (failWith (.new "Read invalid verify token length (d).") [.freeOut] (-1))
  setOut fun p => { p with
    data.loginServerbound.encryptionResponse.verifyTokenLength := verifyTokenLength.1 }
  -- the width of the first length once more, not of the second
  skip sharedSecretLength.2
  let _ ← mallocOr env verifyTokenLength.1.toNat [.freeOut]
  let verifyToken ← load verifyTokenLength.1.toNat fun m => read m verifyTokenLength.1.toNat
  setOut fun p => { p with data.loginServerbound.encryptionResponse.verifyToken := verifyToken }
  skip verifyTokenLength.1.toNat
  let o ← offset
  return o

/-- The answer to a field that does not fit. -/
def exceeded : Decoder Unit := failWith maxPacketLengthExceeded [.freeOut] (-1)

def decodePing (env : DecodeEnv) (bytesRead1 : ℕ) : Decoder ℤ := do
  let payload ← field mcprLongSize exceeded (mcprDecodeLong env.host)
  setOut fun p => { p with data.ping.payload := payload }
  return mcprLongSize+bytesRead1

def decodeChatMessage (env : DecodeEnv) : Decoder ℤ := do
  let message ← string env
  setOut fun p => { p with data.playServerbound.chatMessage.message := message.content }
  skip message.bytesRead
  let o ← offset
  return o

def mcprChatModeOf (n : ℤ) : Option McprChatMode :=
  if n = 0 then some .enabled else if n = 1 then some .commandsOnly
  else if n = 2 then some .hidden else none

def mcprHandOf (n : ℤ) : Option McprSideBasedHand :=
  if n = 0 then some .left else if n = 1 then some .right else none

def displayedSkinPartsOf (parts : UInt8) : DisplayedSkinParts where
  capeEnabled := parts &&& 0x01 ≠ 0
  jacketEnabled := parts &&& 0x02 ≠ 0
  leftSleeveEnabled := parts &&& 0x04 ≠ 0
  rightSleeveEnabled := parts &&& 0x08 ≠ 0
  leftPantsEnabled := parts &&& 0x10 ≠ 0
  rightPantsEnabled := parts &&& 0x20 ≠ 0
  hatEnabled := parts &&& 0x40 ≠ 0

/-- The failure exits free the packet before they look up its locale. -/
def decodeClientSettings (env : DecodeEnv) : Decoder ℤ := do
  let locale ← string env
  setOut fun p => { p with data.playServerbound.clientSettings.locale := locale.content }
  skip locale.bytesRead
  let events := [.freeOut, .readOut, .free locale.block]
  let viewDistance ← field mcprByteSize (failWith maxDecodingLengthExceeded events (-1))
    mcprDecodeByte
  setOut fun p => { p with data.playServerbound.clientSettings.viewDistance := viewDistance }
  skip mcprByteSize
  let chatModeInt ← varint events
  let chatMode ← orElse (mcprChatModeOf chatModeInt.1.toInt)
    (failWith (.new s!"Invalid value {chatModeInt.1.toInt} for chat mode in client settings packet.")
      events (-1))
  setOut fun p => { p with data.playServerbound.clientSettings.chatMode := chatMode }
  skip chatModeInt.2
  let chatColors ← field mcprBoolSize (failWith maxPacketLengthExceeded events (-1))
    fun m old => mcprDecodeBool old m
  setOut fun p => { p with
    data.playServerbound.clientSettings.chatColors :=
      chatColors p.data.playServerbound.clientSettings.chatColors }
  skip mcprBoolSize
  let displayedSkinParts ← field mcprUbyteSize (failWith maxPacketLengthExceeded events (-1))
    mcprDecodeUbyte
  setOut fun p => { p with
    data.playServerbound.clientSettings.displayedSkinParts :=
      displayedSkinPartsOf displayedSkinParts }
  skip mcprUbyteSize
  let mainHandInt ← varint events
  let mainHand ← orElse (mcprHandOf mainHandInt.1.toInt)
    (failWith (.new (s!"Invalid value {mainHandInt.1.toInt} for main hand in client settings " ++
      "packet. Expected either 0 for left hand or 1 for right hand.")) events (-1))
  setOut fun p => { p with data.playServerbound.clientSettings.mainHand := mainHand }
  skip mainHandInt.2
  let o ← offset
  return o

/-- All that is left of the frame is the message. Its length is not recorded. -/
def decodePluginMessage (env : DecodeEnv) : Decoder ℤ := do
  let channel ← string env
  setOut fun p => { p with data.playServerbound.pluginMessage.channel := channel.content }
  skip channel.bytesRead
  let lenLeft ← left
  let _ ← mallocOr env lenLeft.toNat [.readOut, .free channel.block, .freeOut]
  let data ← load lenLeft.toNat fun m => read m lenLeft.toNat
  setOut fun p => { p with data.playServerbound.pluginMessage.data := data }
  let o ← offset
  return o+lenLeft.toNat

def decodeKeepAlive : Decoder ℤ := do
  let keepAliveId ← varint [.freeOut]
  setOut fun p => { p with data.playServerbound.keepAlive.keepAliveId := keepAliveId.1 }
  let o ← offset
  return o+keepAliveId.2

def decodeTeleportConfirm : Decoder ℤ := do
  let teleportId ← varint [.freeOut]
  setOut fun p => { p with data.playServerbound.teleportConfirm.teleportId := teleportId.1 }
  let o ← offset
  return o+teleportId.2

/-- `on_ground` goes to the packet of another type. -/
def decodePlayerPosition (env : DecodeEnv) : Decoder ℤ := do
  let x ← field mcprDoubleSize exceeded (mcprDecodeDouble env.host)
  setOut fun p => { p with data.playServerbound.playerPosition.x := x }
  skip mcprDoubleSize
  let feetY ← field mcprDoubleSize exceeded (mcprDecodeDouble env.host)
  setOut fun p => { p with data.playServerbound.playerPosition.feetY := feetY }
  skip mcprDoubleSize
  let z ← field mcprDoubleSize exceeded (mcprDecodeDouble env.host)
  setOut fun p => { p with data.playServerbound.playerPosition.z := z }
  skip mcprDoubleSize
  let onGround ← field mcprBoolSize exceeded fun m old => mcprDecodeBool old m
  setOut fun p => { p with
    data.playServerbound.playerPositionAndLook.onGround :=
      onGround p.data.playServerbound.playerPositionAndLook.onGround }
  let o ← offset
  return o+mcprBoolSize

def decodePlayerPositionAndLook (env : DecodeEnv) : Decoder ℤ := do
  let x ← field mcprDoubleSize exceeded (mcprDecodeDouble env.host)
  setOut fun p => { p with data.playServerbound.playerPositionAndLook.x := x }
  skip mcprDoubleSize
  let feetY ← field mcprDoubleSize exceeded (mcprDecodeDouble env.host)
  setOut fun p => { p with data.playServerbound.playerPositionAndLook.feetY := feetY }
  skip mcprDoubleSize
  let z ← field mcprDoubleSize exceeded (mcprDecodeDouble env.host)
  setOut fun p => { p with data.playServerbound.playerPositionAndLook.z := z }
  skip mcprDoubleSize
  let yaw ← field mcprFloatSize exceeded (mcprDecodeFloat env.host)
  setOut fun p => { p with data.playServerbound.playerPositionAndLook.yaw := yaw }
  skip mcprFloatSize
  let pitch ← field mcprFloatSize exceeded (mcprDecodeFloat env.host)
  setOut fun p => { p with data.playServerbound.playerPositionAndLook.pitch := pitch }
  skip mcprFloatSize
  let onGround ← field mcprBoolSize exceeded fun m old => mcprDecodeBool old m
  setOut fun p => { p with
    data.playServerbound.playerPositionAndLook.onGround :=
      onGround p.data.playServerbound.playerPositionAndLook.onGround }
  let o ← offset
  return o+mcprBoolSize

def decodePlayerLook (env : DecodeEnv) : Decoder ℤ := do
  let yaw ← field mcprFloatSize exceeded (mcprDecodeFloat env.host)
  setOut fun p => { p with data.playServerbound.playerLook.yaw := yaw }
  skip mcprFloatSize
  let pitch ← field mcprFloatSize exceeded (mcprDecodeFloat env.host)
  setOut fun p => { p with data.playServerbound.playerLook.pitch := pitch }
  skip mcprFloatSize
  let onGround ← field mcprBoolSize exceeded fun m old => mcprDecodeBool old m
  setOut fun p => { p with
    data.playServerbound.playerLook.onGround :=
      onGround p.data.playServerbound.playerLook.onGround }
  let o ← offset
  return o+mcprBoolSize

def decodeHeldItemChange (env : DecodeEnv) : Decoder ℤ := do
  let slot ← field mcprShortSize exceeded (mcprDecodeShort env.host)
  setOut fun p => { p with data.playServerbound.heldItemChange.slot := slot }
  skip mcprShortSize
  let o ← offset
  return o

/-- The innermost `switch`. A type without a case falls out of all of them. -/
def decodePlay (env : DecodeEnv) (id : McprPacketType) : Decoder ℤ :=
  match id with
  | .plSbChatMessage => decodeChatMessage env
  | .plSbClientSettings => decodeClientSettings env
  | .plSbPluginMessage => decodePluginMessage env
  | .plSbKeepAlive => decodeKeepAlive
  | .plSbPlayerPosition => decodePlayerPosition env
  | .plSbPlayerPositionAndLook => decodePlayerPositionAndLook env
  | .plSbTeleportConfirm => decodeTeleportConfirm
  | .plSbPlayerLook => decodePlayerLook env
  | .plSbHeldItemChange => decodeHeldItemChange env
  | _ => fail [] (-1)

def decodeStatus (env : DecodeEnv) (bytesRead1 : ℕ) (id : McprPacketType) : Decoder ℤ :=
  match id with
  | .stSbPing => decodePing env bytesRead1
  | .stSbRequest => pure bytesRead1
  | _ => decodePlay env id

def decodeLogin (env : DecodeEnv) (bytesRead1 : ℕ) (id : McprPacketType) : Decoder ℤ :=
  match id with
  | .lgSbLoginStart => decodeLoginStart env bytesRead1
  | .lgSbEncryptionResponse => decodeEncryptionResponse env
  | _ => decodeStatus env bytesRead1 id

/-- The `switch(state)`, whose cases fall through. -/
def decodeFields (env : DecodeEnv) (state : McprState) (bytesRead1 : ℕ) (id : McprPacketType) :
    Decoder ℤ :=
  match state with
  | .handshake => decodeHandshake env
  | .login => decodeLogin env bytesRead1 id
  | .status => decodeStatus env bytesRead1 id
  | .play => decodePlay env id

def decodeBody (env : DecodeEnv) (state : McprState) : Decoder ℤ := do
  let packetId ← varint []
  skip packetId.2
  let id ← orElse (mcprGetPacketType (UInt8.ofBitVec (packetId.1.setWidth 8)) state)
    (failWith (.new s!"Invalid packet id {packetId.1.toInt}") [] (-1))
  setOut fun p => { p with id := id }
  decodeFields env state packetId.2 id

structure DecodeResult where
  exit : DecodeExit
  cursor : Cursor DecodeObjects

def DecodeResult.out (r : DecodeResult) : McprPacket := r.cursor.objects.out

/-- How a run ends. -/
def exitOf : Except DecodeExit ℤ → DecodeExit
  | .ok n => .ret n
  | .error e => e

/-- The run of a call, from its entry. -/
def decodeRun (env : DecodeEnv) (out : McprPacket) (mem : Mem) (state : McprState)
    (maxlen : UInt64) : Except DecodeExit ℤ × Cursor DecodeObjects :=
  (decodeBody env state).run mem
    { off := 0, left := maxlen, wrapped := false, overread := false
      objects := { out := out, ninerr := none, mallocs := 0, heap := [] } }

def mcprDecodePacket (env : DecodeEnv) (out : McprPacket) (mem : Mem) (state : McprState)
    (maxlen : UInt64) : DecodeResult :=
  let r := decodeRun env out mem state maxlen
  ⟨exitOf r.1, r.2⟩

section StringHead

/-- What the length prefix of a string comes to. -/
inductive StringHead
  | invalid (err : Ninerr)
  | trap
  | content (len bytesRead : ℕ)

/-- No `int` is above the limit of `mcpr_decode_string`, so that check never fires. -/
def stringHead (mem : Mem) (left : UInt64) : StringHead :=
  match mcprDecodeVarint mem left with
  | .error message => .invalid (.new message)
  | .ok (len, bytesRead) =>
    if len.toInt < 0 then .invalid (.new "Invalid string length in mcpr_decode_string().")
    else if len.toInt = int32Max then .trap
    else .content len.toNat bytesRead

/-- What is left to do once the length prefix is read. -/
def stringRest (env : DecodeEnv) : StringHead → Decoder DecodedString
  | .invalid err => failWith err [.freeOut] (-1)
  | .trap => leave .trap
  | .content len bytesRead => do
    let block ← mallocOr env (len+1) [.freeOut]
    let content ← load (bytesRead+len) fun m => read (shift m bytesRead) len
    pure ⟨content, bytesRead+len, block⟩

theorem stringHead_content {mem : Mem} {left : UInt64} {n k : ℕ}
    (h : stringHead mem left = .content n k) :
    ∃ len, mcprDecodeVarint mem left = .ok (len, k) ∧ len.toNat = n := by
  unfold stringHead at h
  split at h
  · cases h
  · rename_i len bytesRead hd
    split_ifs at h
    cases h
    exact ⟨len, hd, rfl⟩

theorem stringHead_content_le {mem : Mem} {left : UInt64} {n k : ℕ}
    (h : stringHead mem left = .content n k) : n+1 ≤ ptrdiffMax := by
  obtain ⟨len, -, rfl⟩ := stringHead_content h
  have hlt := len.isLt
  simp only [ptrdiffMax]
  omega

theorem mcprDecodeString_run (env : DecodeEnv) (mem : Mem) (s : Cursor DecodeObjects) :
    (mcprDecodeString env).run mem s = match stringHead (shift mem s.off) s.left with
      | .invalid err => (.ok none, { s with objects := { s.objects with ninerr := some err } })
      | .trap => (.error .trap, s)
      | .content len bytesRead => (copyString env len bytesRead).run mem s := by
  simp only [mcprDecodeString, stringHead, bind_run, peek_run]
  rcases mcprDecodeVarint (shift mem s.off) s.left with message | ⟨len, k⟩
  · rfl
  · have hmax : ¬ len.toInt > mcprStrMax := by
      have hlt := BitVec.toInt_lt (x := len)
      simp only [mcprStrMax]
      omega
    simp only [ite_run, if_neg hmax]
    split_ifs
    all_goals rfl

/-- A string is read in the same way whoever is to read it: by its prefix first. -/
theorem string_run (env : DecodeEnv) (mem : Mem) (s : Cursor DecodeObjects) :
    (string env).run mem s = (stringRest env (stringHead (shift mem s.off) s.left)).run mem s := by
  rw [string, bind_run, mcprDecodeString_run]
  cases stringHead (shift mem s.off) s.left with
  | invalid err => rfl
  | trap => rfl
  | content len k =>
    simp only [copyString, stringRest, mallocOr, bind_run]
    rcases (malloc env (len+1)).run mem s with ⟨e | _ | block, t⟩
    all_goals rfl

end StringHead

section Framed

instance : Limited mcprDecodeVarint where
  agree a b l h := mcprDecodeVarint_agree a b l h

instance (k n : ℕ) : LimitedTo (k+n) fun m => read (shift m k) n where
  agree _ _ h := (read_eq_iff _ _ _).mpr (agreeOn_shift h (le_refl _))

instance (n : ℕ) : LimitedTo n fun m => read m n where
  agree _ _ h := (read_eq_iff _ _ _).mpr h

instance (host : Endian) : LimitedTo mcprUshortSize (mcprDecodeUshort host) where
  agree _ _ h := by simp only [mcprDecodeUshort, (read_eq_iff _ _ _).mpr h]

instance (host : Endian) : LimitedTo mcprShortSize (mcprDecodeShort host) where
  agree _ _ h := by simp only [mcprDecodeShort, (read_eq_iff _ _ _).mpr h]

instance (host : Endian) : LimitedTo mcprLongSize (mcprDecodeLong host) where
  agree _ _ h := by simp only [mcprDecodeLong, (read_eq_iff _ _ _).mpr h]

instance (host : Endian) : LimitedTo mcprFloatSize (mcprDecodeFloat host) where
  agree _ _ h := by simp only [mcprDecodeFloat, (read_eq_iff _ _ _).mpr h]

instance (host : Endian) : LimitedTo mcprDoubleSize (mcprDecodeDouble host) where
  agree _ _ h := by simp only [mcprDecodeDouble, (read_eq_iff _ _ _).mpr h]

instance : LimitedTo mcprByteSize mcprDecodeByte where
  agree _ _ h := by simp only [mcprDecodeByte, h 0 Nat.one_pos]

instance : LimitedTo mcprUbyteSize mcprDecodeUbyte where
  agree _ _ h := by simp only [mcprDecodeUbyte, h 0 Nat.one_pos]

instance : LimitedTo mcprBoolSize fun m old => mcprDecodeBool old m where
  agree _ _ h := by
    funext old
    simp only [mcprDecodeBool, h 0 Nat.one_pos]

instance {α : Type} (events : List HeapEvent) (n : ℤ) : Framed (fail events n : Decoder α) := by
  unfold fail release
  infer_instance

instance {α : Type} (err : Ninerr) (events : List HeapEvent) (n : ℤ) :
    Framed (failWith err events n : Decoder α) := by
  unfold failWith ninerrSetErr
  infer_instance

instance {α : Type} (o : Option α) (failure : Decoder α) [Framed failure] :
    Framed (orElse o failure) := by
  unfold orElse
  split <;> infer_instance

instance (env : DecodeEnv) (size : ℕ) : Framed (malloc env size) := by
  unfold malloc
  infer_instance

instance (events : List HeapEvent) : Framed (varint events) := by
  unfold varint
  refine Framed.bind inferInstance fun r => ?_
  split <;> infer_instance

instance (c : Prop) [Decidable c] (failure : Decoder Unit) [Framed failure] :
    Framed (refuse c failure) := by
  unfold refuse
  infer_instance

instance (n : ℕ) (exceeded : Decoder Unit) [Framed exceeded] : Framed (require n exceeded) := by
  unfold require
  infer_instance

instance (err : Ninerr) : Framed (ninerrSetErr err) := by
  unfold ninerrSetErr
  infer_instance

instance (env : DecodeEnv) (len bytesRead : ℕ) : Framed (copyString env len bytesRead) := by
  unfold copyString
  refine Framed.bind inferInstance fun p => ?_
  split <;> infer_instance

instance (env : DecodeEnv) : Framed (mcprDecodeString env) := by
  unfold mcprDecodeString
  refine Framed.bind inferInstance fun r => ?_
  split <;> infer_instance

instance (env : DecodeEnv) : Framed (string env) := by
  unfold string
  infer_instance

instance (env : DecodeEnv) (size : ℕ) (events : List HeapEvent) :
    Framed (mallocOr env size events) := by
  unfold mallocOr
  infer_instance

instance (f : McprPacket → McprPacket) : Framed (setOut f) := by
  unfold setOut
  infer_instance

instance {α : Type} (n : ℕ) (exceeded : Decoder Unit) (decode : Mem → α) [Framed exceeded]
    [LimitedTo n decode] : Framed (field n exceeded decode) := by
  unfold field
  infer_instance

instance : Framed exceeded := by
  unfold exceeded
  infer_instance

instance (env : DecodeEnv) : Framed (decodeHandshake env) := by
  unfold decodeHandshake
  repeat' (refine Framed.bind inferInstance fun _ => ?_)
  infer_instance

instance (env : DecodeEnv) (bytesRead1 : ℕ) : Framed (decodeLoginStart env bytesRead1) := by
  unfold decodeLoginStart
  infer_instance

instance (env : DecodeEnv) : Framed (decodeEncryptionResponse env) := by
  unfold decodeEncryptionResponse
  repeat' (refine Framed.bind inferInstance fun _ => ?_)
  infer_instance

instance (env : DecodeEnv) (bytesRead1 : ℕ) : Framed (decodePing env bytesRead1) := by
  unfold decodePing
  infer_instance

instance (env : DecodeEnv) : Framed (decodeChatMessage env) := by
  unfold decodeChatMessage
  infer_instance

instance (env : DecodeEnv) : Framed (decodeClientSettings env) := by
  unfold decodeClientSettings
  repeat' (refine Framed.bind inferInstance fun _ => ?_)
  infer_instance

instance (env : DecodeEnv) : Framed (decodePluginMessage env) := by
  unfold decodePluginMessage
  repeat' (refine Framed.bind inferInstance fun _ => ?_)
  infer_instance

instance : Framed decodeKeepAlive := by
  unfold decodeKeepAlive
  infer_instance

instance : Framed decodeTeleportConfirm := by
  unfold decodeTeleportConfirm
  infer_instance

instance (env : DecodeEnv) : Framed (decodePlayerPosition env) := by
  unfold decodePlayerPosition
  repeat' (refine Framed.bind inferInstance fun _ => ?_)
  infer_instance

instance (env : DecodeEnv) : Framed (decodePlayerPositionAndLook env) := by
  unfold decodePlayerPositionAndLook
  repeat' (refine Framed.bind inferInstance fun _ => ?_)
  infer_instance

instance (env : DecodeEnv) : Framed (decodePlayerLook env) := by
  unfold decodePlayerLook
  repeat' (refine Framed.bind inferInstance fun _ => ?_)
  infer_instance

instance (env : DecodeEnv) : Framed (decodeHeldItemChange env) := by
  unfold decodeHeldItemChange
  infer_instance

instance (env : DecodeEnv) (id : McprPacketType) : Framed (decodePlay env id) := by
  unfold decodePlay
  split <;> infer_instance

instance (env : DecodeEnv) (bytesRead1 : ℕ) (id : McprPacketType) :
    Framed (decodeStatus env bytesRead1 id) := by
  unfold decodeStatus
  split <;> infer_instance

instance (env : DecodeEnv) (bytesRead1 : ℕ) (id : McprPacketType) :
    Framed (decodeLogin env bytesRead1 id) := by
  unfold decodeLogin
  split <;> infer_instance

instance (env : DecodeEnv) (state : McprState) (bytesRead1 : ℕ) (id : McprPacketType) :
    Framed (decodeFields env state bytesRead1 id) := by
  unfold decodeFields
  split <;> infer_instance

instance (env : DecodeEnv) (state : McprState) : Framed (decodeBody env state) := by
  unfold decodeBody
  infer_instance

/-- A decoding that never strays is decided by the bytes of its frame. -/
theorem mcprDecodePacket_agree (env : DecodeEnv) (out : McprPacket) (a b : Mem)
    (state : McprState) (maxlen : UInt64) (hab : AgreeOn maxlen.toNat a b)
    (h : (mcprDecodePacket env out a state maxlen).cursor.strayed = false) :
    mcprDecodePacket env out b state maxlen = mcprDecodePacket env out a state maxlen := by
  have hf := Framed.agree (m := decodeBody env state) a b
    { off := 0, left := maxlen, wrapped := false, overread := false
      objects := { out := out, ninerr := none, mallocs := 0, heap := [] } }
    (by simpa only [Cursor.bound, Nat.zero_add] using hab) h
  simp only [mcprDecodePacket, decodeRun, hf]

end Framed

end Stronk.Mcpr
