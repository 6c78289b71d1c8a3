import Stronk.EarlyExit
import Stronk.McprPacket

/-! Encoding of clientbound packets and the bound on their size: `mcpr_encode_packet` and
`mcpr_encode_packet_bounds` of `mcpr/packet.c`, two switches that are written separately. A
run keeps what it has written so far. -/
namespace Stronk.Mcpr
open ByteMemory EarlyExit

/-- What a call finds around it. `nbtDumpBinary` is the dump of the tree at an address, which fits
in memory. `behind` is what `strlen` makes of the memory past the terminator of a string; C leaves
that open. -/
structure EncodeEnv where
  host : Endian
  shiftOut : BitVec 32 → BitVec 32
  malloc : ℕ → Bool
  nbtDumpBinary : NbtNode → { bs : List UInt8 // bs.length ≤ ptrdiffMax }
  behind : UInt64

/-- A machine on which everything goes well and a C string is followed by another terminator. -/
instance : Inhabited EncodeEnv := ⟨{
  host := .little
  shiftOut := id
  malloc := fun _ => true
  nbtDumpBinary := fun _ => ⟨[], Nat.zero_le _⟩
  behind := 0 }⟩

structure EncodeObjects where
  written : List UInt8
  mallocs : ℕ
  ninerr : Option Ninerr
  deriving DecidableEq, Repr, Inhabited

def encodeStart : EncodeObjects := { written := [], mallocs := 0, ninerr := none }

inductive EncodeExit
  | ret (n : UInt64)
  | abort
  | undefined
  deriving DecidableEq, Repr, Inhabited

abbrev Encoder := Prog EncodeObjects EncodeExit

/-- Write at the buffer pointer and move it along. -/
def emit (bs : List UInt8) : Encoder Unit := modify fun o => { o with written := o.written ++ bs }

def encodeMalloc (env : EncodeEnv) (size : ℕ) : Encoder Bool := do
  let o ← get
  modify fun o => { o with mallocs := o.mallocs+1 }
  return decide (size ≤ ptrdiffMax) && env.malloc o.mallocs

/-- `memcpy` of a length that is an `int32_t`; a negative one is a huge `size_t`. -/
def memcpyOut (len : ℤ) (bs : List UInt8) : Encoder Unit :=
  if len < 0 then exit .undefined else emit (read (ofList bs) len.toNat)

def packetNumber (id : McprPacketType) : Encoder Unit :=
  match mcprPacketTypeToByte id with
  | some byte => emit (mcprEncodeVarint (byte.toBitVec.setWidth 32))
  | none => exit .abort

def toInt32 (n : ℤ) : ℤ := (BitVec.ofInt 32 n).toInt

/-- The sum of the two lengths goes through an `int`. -/
def mcprEncodeString (env : EncodeEnv) (s : List UInt8) : Encoder ℤ := do
  let len := strlen s
  let ok ← encodeMalloc env (len+1)
  if ok = false then do
    modify fun o => { o with ninerr := some .fromErrno }
    return -1
  else if len > int32Max then do
    modify fun o => { o with ninerr := some .arithmetic }
    return -1
  else do
    let prefixBytes := mcprEncodeVarint (BitVec.ofNat 32 len)
    emit prefixBytes
    emit (cString s)
    return toInt32 (prefixBytes.length+len)

/-- `if(bytes_written < 0) { return 0; }` -/
def encodeStringField (env : EncodeEnv) (s : List UInt8) : Encoder Unit := do
  let bytesWritten ← mcprEncodeString env s
  if bytesWritten < 0 then exit (.ret 0) else pure ()

section Json

/-- The text of a status response without a player sample. -/
def responseText (r : Response) : List UInt8 :=
  let players := ascii (toString r.maxPlayers.toInt) ++ ascii ",\"online\":" ++
    ascii (toString r.onlinePlayers.toInt)
  ascii "\x7b\"version\":\x7b\"name\":\"" ++ cString r.versionName ++ ascii "\",\"protocol\":" ++
    ascii (toString r.protocolVersion.toInt) ++ ascii "\x7d,\"players\":\x7b\"max\":" ++ players ++
    ascii "\x7d,\"description\":" ++ cString r.description ++
    (match r.favicon with
      | some favicon => ascii ",\"favicon\":\"" ++ cString favicon ++ ascii "\"\x7d"
      | none => ascii "\x7d")

/-- `server_list_response_to_json`. With a player sample it loops up to a variable that was
never set. `required_size + 1` overflows at the largest `int`. -/
def serverListResponseToJson (env : EncodeEnv) (r : Response) : Encoder (Option (List UInt8)) := do
  if r.playerSample.isSome then exit .undefined
  else do
    let text := responseText r
    if text.length > int32Max then do
      modify fun o => { o with ninerr := some (.new "sprintf failed.") }
      return none
    else if text.length = int32Max then exit .abort
    else do
      let ok ← encodeMalloc env (text.length+1)
      if ok then return some text
      else do
        modify fun o => { o with ninerr := some .fromErrno }
        return none

end Json

section Uuid

def hexDigit (n : ℕ) : UInt8 := UInt8.ofNat (if n < 10 then 48+n else 55+n)

/-- `%hhX`: no leading zero. -/
def hexByte (b : UInt8) : List UInt8 :=
  if b.toNat < 16 then [hexDigit b.toNat] else [hexDigit (b.toNat/16), hexDigit (b.toNat%16)]

/-- `ninuuid_to_string` in the long form; asking for lower case changes nothing. -/
def ninuuidToString (self : Ninuuid) : List UInt8 :=
  let group (k n : ℕ) := ((self.bytes.toList.drop k).take n).flatMap hexByte
  group 0 4 ++ ascii "-" ++ group 4 2 ++ ascii "-" ++ group 6 2 ++ ascii "-" ++ group 8 2 ++
    ascii "-" ++ group 10 6

end Uuid

section Chunk

def fitsInt (n : ℤ) : Bool := decide (-2147483648 ≤ n ∧ n ≤ int32Max)

/-- `d += n` on `int`s, which traps on overflow. -/
def addInt (d : BitVec 32) (n : ℤ) : Option (BitVec 32) :=
  if fitsInt (d.toInt+n) then some (BitVec.ofInt 32 (d.toInt+n)) else none

/-- `d += n` with `n` of type `size_t`: the sum is converted back without a trap. -/
def addSize (d : BitVec 32) (n : ℤ) : BitVec 32 := BitVec.ofInt 32 (d.toInt+n)

/-- One turn of the loop that adds up `data_size`. -/
def sectionDataSize (d : BitVec 32) (s : McprChunkSection) : Option (BitVec 32) :=
  let d := addSize d mcprUbyteSize
  let d := addSize d (mcprVarintBounds s.paletteLength)
  let d := addSize d (s.paletteLength.toInt*mcprVarintSizeMax)
  let d := addSize d (mcprVarintBounds s.blockArrayLength)
  if fitsInt (s.blockArrayLength.toInt*8) then do
    let d ← addInt d (s.blockArrayLength.toInt*8)
    let d ← addInt d 2048
    if s.skyLight.isSome then addInt d 2048 else some d
  else none

/-- The loop over the sections; `none` is a trap. -/
def sectionsDataSize : BitVec 32 → List McprChunkSection → Option (BitVec 32)
  | d, [] => some d
  | d, s :: sections => (sectionDataSize d s).bind fun d => sectionsDataSize d sections

def chunkDataSize (c : ChunkData) : Option (BitVec 32) :=
  sectionsDataSize (if c.groundUpContinuous then 256#32 else 0#32) c.chunkSections

def encodePalette : ℕ → List (BitVec 32) → List UInt8
  | 0, _ => []
  | n+1, palette => mcprEncodeVarint (palette.headD 0#32) ++ encodePalette n palette.tail

def paletteBytes (s : McprChunkSection) : List UInt8 :=
  if s.paletteLength.toInt > 0 then encodePalette s.paletteLength.toNat s.palette else []

def encodeSection (s : McprChunkSection) : Encoder Unit := do
  emit (mcprEncodeUbyte s.bitsPerBlock)
  emit (mcprEncodeVarint s.paletteLength)
  emit (paletteBytes s)
  emit (mcprEncodeVarint s.blockArrayLength)
  memcpyOut (s.blockArrayLength.toInt*8) s.blocks
  memcpyOut 2048 s.blockLight
  memcpyOut (if s.skyLight.isSome then 2048 else 0) (s.skyLight.getD [])

def encodeSections : List McprChunkSection → Encoder Unit
  | [] => pure ()
  | s :: sections => do
    encodeSection s
    encodeSections sections

end Chunk

section Bounds

def sizeOfNat (n : ℕ) : UInt64 := UInt64.ofNat n

theorem sizeOfNat_toNat (n : ℕ) : (sizeOfNat n).toNat = n%2^64 := UInt64.toNat_ofNat'

/-- Conversion of an `int32_t` to `size_t`. -/
def sizeOfInt (n : BitVec 32) : UInt64 := UInt64.ofBitVec (n.signExtend 64)

def rawBlockEntities (env : EncodeEnv) (c : ChunkData) : List UInt8 :=
  match c.blockEntities with
  | some node => (env.nbtDumpBinary node).1
  | none => []

def chunkDataBounds (env : EncodeEnv) (c : ChunkData) : EncodeExit :=
  match chunkDataSize c with
  | none => .abort
  | some dataSize => .ret (sizeOfNat mcprIntSize+sizeOfNat mcprIntSize+sizeOfNat mcprBoolSize+
      sizeOfNat mcprVarintSizeMax+sizeOfNat mcprVarintSizeMax+sizeOfInt dataSize+
      sizeOfNat mcprVarintSizeMax+sizeOfNat (rawBlockEntities env c).length)

/-- `strlen(json_data + MCPR_VARINT_SIZE_MAX + MCPR_BYTE_SIZE)`: the sum is inside. -/
def chatMessageBounds (env : EncodeEnv) (jsonData : List UInt8) : UInt64 :=
  let skipped := mcprVarintSizeMax+mcprByteSize
  if skipped ≤ strlen jsonData then sizeOfNat (strlen jsonData-skipped) else env.behind

def boundsPlay (env : EncodeEnv) (pkt : McprPacket) : EncodeExit :=
  let data := pkt.data.playClientbound
  match pkt.id with
  | .plCbChatMessage => .ret (chatMessageBounds env data.chatMessage.jsonData)
  | .plCbDisconnect => .ret (10+sizeOfNat (strlen data.disconnect.reason))
  | .plCbKeepAlive => .ret 10
  | .plCbJoinGame => .ret 33
  | .plCbPluginMessage =>
    .ret (10+sizeOfNat (strlen data.pluginMessage.channel)+data.pluginMessage.dataLength)
  | .plCbSpawnPosition => .ret (sizeOfNat mcprVarintSizeMax+sizeOfNat mcprPositionSize)
  | .plCbPlayerAbilities => .ret (sizeOfNat mcprVarintSizeMax+sizeOfNat mcprByteSize+
      sizeOfNat mcprFloatSize+sizeOfNat mcprFloatSize)
  | .plCbPlayerPositionAndLook => .ret (sizeOfNat mcprVarintSizeMax+sizeOfNat mcprDoubleSize*3+
      sizeOfNat mcprFloatSize*2+sizeOfNat mcprByteSize+sizeOfNat mcprVarintSizeMax)
  | .plSbKeepAlive => .ret 10
  | .plSbPluginMessage =>
    .ret (10+sizeOfNat (strlen pkt.data.playServerbound.pluginMessage.channel)+
      pkt.data.playServerbound.pluginMessage.dataLength)
  | .plCbChunkData => chunkDataBounds env data.chunkData
  | _ => .abort

def boundsLogin (env : EncodeEnv) (pkt : McprPacket) : EncodeExit :=
  let data := pkt.data.loginClientbound
  match pkt.id with
  | .lgCbDisconnect => .ret (10+sizeOfNat (strlen data.disconnect.reason))
  | .lgCbEncryptionRequest => .ret (20+sizeOfNat (strlen data.encryptionRequest.serverId)+
      sizeOfInt data.encryptionRequest.publicKeyLength+
      sizeOfInt data.encryptionRequest.verifyTokenLength)
  | .lgCbLoginSuccess => .ret (51+sizeOfNat (strlen data.loginSuccess.username))
  | .lgCbSetCompression => .ret 10
  | .lgSbLoginStart => .ret (10+sizeOfNat (strlen pkt.data.loginServerbound.loginStart.name))
  | .lgSbEncryptionResponse =>
    -- a sum of `int`s
    match (addInt 15 pkt.data.loginServerbound.encryptionResponse.sharedSecretLength.toInt).bind
        fun n => addInt n pkt.data.loginServerbound.encryptionResponse.verifyTokenLength.toInt with
    | some n => .ret (sizeOfInt n)
    | none => .abort
  | _ => boundsPlay env pkt

def responseBounds (env : EncodeEnv) (r : Response) : EncodeExit :=
  match ((serverListResponseToJson env r).run encodeStart).1 with
  | .ok (some response) =>
    .ret (sizeOfNat mcprVarintSizeMax+sizeOfNat mcprVarintSizeMax+sizeOfNat (strlen response))
  | .ok none => .ret 0
  | .error e => e

def boundsStatus (env : EncodeEnv) (pkt : McprPacket) : EncodeExit :=
  match pkt.id with
  | .stCbPong => .ret (sizeOfNat mcprVarintSizeMax+sizeOfNat mcprLongSize)
  | .stCbResponse => responseBounds env pkt.data.status.response
  | _ => boundsLogin env pkt

/-- The cases of the outer `switch` fall through: a packet is found from its own state and
from every state before it. -/
def mcprEncodePacketBounds (env : EncodeEnv) (pkt : McprPacket) : EncodeExit :=
  match pkt.state with
  | .handshake =>
    match pkt.id with
    | .hsSbHandshake => .ret (12+sizeOfNat (strlen pkt.data.handshake.serverAddress))
    | _ => boundsStatus env pkt
  | .status => boundsStatus env pkt
  | .login => boundsLogin env pkt
  | .play => boundsPlay env pkt

end Bounds

section Encode

def encodePong (env : EncodeEnv) (p : Pong) : Encoder Unit := do
  packetNumber .stCbPong
  emit (mcprEncodeLong env.host p.payload)

/-- The text is made anew, and fails here or in the bound on its own. -/
def encodeResponse (env : EncodeEnv) (r : Response) : Encoder Unit := do
  let response ← serverListResponseToJson env r
  match response with
  | none => exit (.ret 0)
  | some response => do
    packetNumber .stCbResponse
    emit (mcprEncodeVarint (BitVec.ofNat 32 (strlen response)))
    emit (cString response)

def encodeLoginDisconnect (env : EncodeEnv) (p : Disconnect) : Encoder Unit := do
  packetNumber .lgCbDisconnect
  encodeStringField env p.reason

def encodeEncryptionRequest (env : EncodeEnv) (p : EncryptionRequest) : Encoder Unit := do
  packetNumber .lgCbEncryptionRequest
  encodeStringField env p.serverId
  emit (mcprEncodeVarint p.publicKeyLength)
  memcpyOut p.publicKeyLength.toInt p.publicKey
  emit (mcprEncodeVarint p.verifyTokenLength)
  memcpyOut p.verifyTokenLength.toInt p.verifyToken

def encodeLoginSuccess (env : EncodeEnv) (p : LoginSuccess) : Encoder Unit := do
  packetNumber .lgCbLoginSuccess
  encodeStringField env (ninuuidToString p.uuid)
  encodeStringField env p.username

def encodeSetCompression (p : SetCompression) : Encoder Unit := do
  packetNumber .lgCbSetCompression
  emit (mcprEncodeVarint p.threshold)

def chatPositionByte : McprChatPosition → BitVec 8
  | .chat => 0
  | .system => 1
  | .hotbar => 2

/-- The number of the packet type is not written. -/
def encodeChatMessage (env : EncodeEnv) (p : ClientboundChatMessage) : Encoder Unit := do
  encodeStringField env p.jsonData
  emit (mcprEncodeByte (chatPositionByte p.position))

def encodeDisconnect (env : EncodeEnv) (p : Disconnect) : Encoder Unit := do
  packetNumber .plCbDisconnect
  encodeStringField env p.reason

def encodeKeepAlive (p : KeepAlive) : Encoder Unit := do
  packetNumber .plCbKeepAlive
  emit (mcprEncodeVarint p.keepAliveId)

def gamemodeByte : McprGamemode → UInt8
  | .survival => 0x00
  | .creative => 0x01
  | .adventure => 0x02
  | .spectator => 0x03

def dimensionInt : McprDimension → BitVec 32
  | .nether => -1
  | .overworld => 0
  | .end => 1

def difficultyByte : McprDifficulty → UInt8
  | .peaceful => 0
  | .easy => 1
  | .normal => 2
  | .hard => 3

def levelType : McprLevel → List UInt8
  | .default => ascii "default"
  | .flat => ascii "flat"
  | .largeBiomes => ascii "largeBiomes"
  | .amplified => ascii "amplified"
  | .default11 => ascii "default_1_1"

def encodeJoinGame (env : EncodeEnv) (p : JoinGame) : Encoder Unit := do
  packetNumber .plCbJoinGame
  emit (mcprEncodeInt env.host p.entityId)
  let gamemode := gamemodeByte p.gamemode
  emit (mcprEncodeUbyte (if p.hardcore then gamemode ||| 0x08 else gamemode))
  emit (mcprEncodeInt env.host (dimensionInt p.dimension))
  emit (mcprEncodeUbyte (difficultyByte p.difficulty))
  emit (mcprEncodeUbyte p.maxPlayers)
  encodeStringField env (levelType p.levelType)
  emit (mcprEncodeBool p.reducedDebugInfo)

def encodePluginMessage (env : EncodeEnv) (p : PluginMessage) : Encoder Unit := do
  if strlen p.channel > 20 then exit .abort
  else do
    packetNumber .plCbPluginMessage
    encodeStringField env p.channel
    emit (read (ofList p.data) p.dataLength.toNat)

def encodeSpawnPosition (env : EncodeEnv) (p : SpawnPosition) : Encoder Unit := do
  packetNumber .plCbSpawnPosition
  emit (mcprEncodePosition env.host p.location)

/-- `flags |= bit` for every flag that is set. -/
def flagsByte (flags : List (Bool × BitVec 8)) : BitVec 8 :=
  flags.foldl (fun acc f => if f.1 then acc ||| f.2 else acc) 0

def encodePlayerAbilities (env : EncodeEnv) (p : PlayerAbilities) : Encoder Unit := do
  packetNumber .plCbPlayerAbilities
  emit (mcprEncodeByte (flagsByte [(p.invulnerable, 0x01), (p.isFlying, 0x02),
    (p.allowFlying, 0x04), (p.creativeMode, 0x08)]))
  emit (mcprEncodeFloat env.host env.shiftOut p.flyingSpeed)
  emit (mcprEncodeFloat env.host env.shiftOut p.fieldOfViewModifier)

def encodePlayerPositionAndLook (env : EncodeEnv) (p : ClientboundPlayerPositionAndLook) :
    Encoder Unit := do
  packetNumber .plCbPlayerPositionAndLook
  emit (mcprEncodeDouble env.host p.x)
  emit (mcprEncodeDouble env.host p.y)
  emit (mcprEncodeDouble env.host p.z)
  emit (mcprEncodeFloat env.host env.shiftOut p.yaw)
  emit (mcprEncodeFloat env.host env.shiftOut p.pitch)
  emit (mcprEncodeByte (flagsByte [(p.xIsRelative, 0x01), (p.yIsRelative, 0x02),
    (p.zIsRelative, 0x04), (p.pitchIsRelative, 0x08), (p.yawIsRelative, 0x10)]))
  emit (mcprEncodeVarint p.teleportId)

/-- A positive count without a tree dereferences a null pointer. -/
def encodeBlockEntities (env : EncodeEnv) (c : ChunkData) : Encoder Unit :=
  if c.blockEntityCount.toInt > 0 then
    match c.blockEntities with
    | some _ => emit (rawBlockEntities env c)
    | none => exit .undefined
  else pure ()

def encodeChunkData (env : EncodeEnv) (c : ChunkData) : Encoder Unit := do
  match chunkDataSize c with
  | none => exit .abort
  | some dataSize => do
    packetNumber .plCbChunkData
    emit (mcprEncodeInt env.host c.chunkX)
    emit (mcprEncodeInt env.host c.chunkZ)
    emit (mcprEncodeBool c.groundUpContinuous)
    emit (mcprEncodeVarint c.primaryBitMask)
    emit (mcprEncodeVarint dataSize)
    encodeSections c.chunkSections
    memcpyOut (if c.groundUpContinuous then 256 else 0) c.biomes
    emit (mcprEncodeVarint c.blockEntityCount)
    encodeBlockEntities env c

section Serverbound

def mcprProtocolVersion : BitVec 32 := 340

/-- The value of an `enum mcpr_state`. -/
def mcprStateNumber : McprState → BitVec 32
  | .handshake => 0
  | .status => 1
  | .login => 2
  | .play => 3

def encodeHandshake (env : EncodeEnv) (p : Handshake) : Encoder Unit := do
  packetNumber .hsSbHandshake
  emit (mcprEncodeVarint mcprProtocolVersion)
  encodeStringField env p.serverAddress
  emit (mcprEncodeUshort env.host p.serverPort)
  emit (mcprEncodeVarint (mcprStateNumber p.nextState))

/-- The buffer pointer is not moved past the name. -/
def encodeLoginStart (env : EncodeEnv) (p : LoginStart) : Encoder Unit := do
  packetNumber .lgSbLoginStart
  let o ← get
  encodeStringField env p.name
  exit (.ret (UInt64.ofNat o.written.length))

def encodeEncryptionResponse (p : EncryptionResponse) : Encoder Unit := do
  packetNumber .lgSbEncryptionResponse
  emit (mcprEncodeVarint p.sharedSecretLength)
  memcpyOut p.sharedSecretLength.toInt p.sharedSecret
  emit (mcprEncodeVarint p.verifyTokenLength)
  memcpyOut p.verifyTokenLength.toInt p.verifyToken

def encodeServerboundKeepAlive (p : KeepAlive) : Encoder Unit := do
  packetNumber .plSbKeepAlive
  emit (mcprEncodeVarint p.keepAliveId)

def encodeServerboundPluginMessage (env : EncodeEnv) (p : PluginMessage) : Encoder Unit := do
  packetNumber .plSbPluginMessage
  encodeStringField env p.channel
  emit (read (ofList p.data) p.dataLength.toNat)

end Serverbound

def encodePlay (env : EncodeEnv) (pkt : McprPacket) : Encoder Unit :=
  let data := pkt.data.playClientbound
  match pkt.id with
  | .plCbChatMessage => encodeChatMessage env data.chatMessage
  | .plCbDisconnect => encodeDisconnect env data.disconnect
  | .plCbKeepAlive => encodeKeepAlive data.keepAlive
  | .plCbJoinGame => encodeJoinGame env data.joinGame
  | .plCbPluginMessage => encodePluginMessage env data.pluginMessage
  | .plCbSpawnPosition => encodeSpawnPosition env data.spawnPosition
  | .plCbPlayerAbilities => encodePlayerAbilities env data.playerAbilities
  | .plCbPlayerPositionAndLook => encodePlayerPositionAndLook env data.playerPositionAndLook
  | .plSbKeepAlive => encodeServerboundKeepAlive pkt.data.playServerbound.keepAlive
  | .plSbPluginMessage => encodeServerboundPluginMessage env pkt.data.playServerbound.pluginMessage
  | .plCbChunkData => encodeChunkData env data.chunkData
  | _ => exit .abort

def encodeLogin (env : EncodeEnv) (pkt : McprPacket) : Encoder Unit :=
  let data := pkt.data.loginClientbound
  match pkt.id with
  | .lgCbDisconnect => encodeLoginDisconnect env data.disconnect
  | .lgCbEncryptionRequest => encodeEncryptionRequest env data.encryptionRequest
  | .lgCbLoginSuccess => encodeLoginSuccess env data.loginSuccess
  | .lgCbSetCompression => encodeSetCompression data.setCompression
  | .lgSbLoginStart => encodeLoginStart env pkt.data.loginServerbound.loginStart
  | .lgSbEncryptionResponse =>
    encodeEncryptionResponse pkt.data.loginServerbound.encryptionResponse
  | _ => encodePlay env pkt

def encodeStatus (env : EncodeEnv) (pkt : McprPacket) : Encoder Unit :=
  match pkt.id with
  | .stCbPong => encodePong env pkt.data.status.pong
  | .stCbResponse => encodeResponse env pkt.data.status.response
  | _ => encodeLogin env pkt

def encodeHandshakeState (env : EncodeEnv) (pkt : McprPacket) : Encoder Unit :=
  match pkt.id with
  | .hsSbHandshake => encodeHandshake env pkt.data.handshake
  | _ => encodeStatus env pkt

/-- The `switch` of `mcpr_encode_packet`, whose cases fall through. -/
def encodeSwitch (env : EncodeEnv) (pkt : McprPacket) : Encoder Unit :=
  match pkt.state with
  | .handshake => encodeHandshakeState env pkt
  | .status => encodeStatus env pkt
  | .login => encodeLogin env pkt
  | .play => encodePlay env pkt

/-- The number of the packet type is asked for before the `switch` already, for the log. -/
def encodeBody (env : EncodeEnv) (pkt : McprPacket) : Encoder Unit :=
  match mcprPacketTypeToByte pkt.id with
  | none => exit .abort
  | some _ => encodeSwitch env pkt

structure EncodeResult where
  exit : EncodeExit
  objects : EncodeObjects

/-- The number returned is how far the buffer pointer moved. -/
def encodeExit (r : Except EncodeExit Unit × EncodeObjects) : EncodeExit :=
  match r.1 with
  | .ok () => .ret (UInt64.ofNat r.2.written.length)
  | .error e => e

def mcprEncodePacket (env : EncodeEnv) (pkt : McprPacket) : EncodeResult :=
  let r := (encodeBody env pkt).run encodeStart
  ⟨encodeExit r, r.2⟩

end Encode

end Stronk.Mcpr
