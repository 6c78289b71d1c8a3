import Stronk.McprCodec

/-! The packets of the protocol (`mcpr/packet.h`): their types, their numbers on the wire and
the data they carry. Packet types and fields that no function of the development reads or
writes are left out. -/
namespace Stronk.Mcpr

/-- `enum mcpr_state` -/
inductive McprState
  | handshake
  | status
  | login
  | play
  deriving DecidableEq, Repr, Inhabited

/-- `enum mcpr_packet_type` -/
inductive McprPacketType
  | hsSbHandshake
  | stCbResponse
  | stCbPong
  | stSbRequest
  | stSbPing
  | lgCbDisconnect
  | lgCbEncryptionRequest
  | lgCbLoginSuccess
  | lgCbSetCompression
  | lgSbLoginStart
  | lgSbEncryptionResponse
  | plCbChatMessage
  | plCbPluginMessage
  | plCbDisconnect
  | plCbKeepAlive
  | plCbChunkData
  | plCbJoinGame
  | plCbPlayerAbilities
  | plCbPlayerPositionAndLook
  | plCbSpawnPosition
  | plSbTeleportConfirm
  | plSbTabComplete
  | plSbChatMessage
  | plSbClientStatus
  | plSbClientSettings
  | plSbConfirmTransaction
  | plSbEnchantItem
  | plSbClickWindow
  | plSbCloseWindow
  | plSbPluginMessage
  | plSbUseEntity
  | plSbKeepAlive
  | plSbPlayerPosition
  | plSbPlayerPositionAndLook
  | plSbPlayerLook
  | plSbPlayer
  | plSbVehicleMove
  | plSbSteerBoat
  | plSbPlayerAbilities
  | plSbPlayerDigging
  | plSbEntityAction
  | plSbSteerVehicle
  | plSbResourcePackStatus
  | plSbHeldItemChange
  | plSbCreativeInventoryAction
  | plSbUpdateSign
  | plSbAnimation
  | plSbSpectate
  | plSbPlayerBlockPlacement
  | plSbUseItem
  | plSbAdvancementTab
  | plSbCraftRecipeRequest
  | plSbCraftingBookData
  deriving DecidableEq, Repr, Inhabited

open McprPacketType in
/-- The serverbound packet type behind a number on the wire, if there is one. -/
def mcprGetPacketType (id : UInt8) (state : McprState) : Option McprPacketType :=
  match state with
  | .handshake => some hsSbHandshake
  | .login =>
    match id.toNat with
    | 0x00 => some lgSbLoginStart
    | 0x01 => some lgSbEncryptionResponse
    | _ => none
  | .status =>
    match id.toNat with
    | 0x00 => some stSbRequest
    | 0x01 => some stSbPing
    | _ => none
  | .play =>
    match id.toNat with
    | 0x00 => some plSbTeleportConfirm
    | 0x01 => some plSbTabComplete
    | 0x02 => some plSbChatMessage
    | 0x03 => some plSbClientStatus
    | 0x04 => some plSbClientSettings
    | 0x05 => some plSbConfirmTransaction
    | 0x06 => some plSbEnchantItem
    | 0x07 => some plSbClickWindow
    | 0x08 => some plSbCloseWindow
    | 0x09 => some plSbPluginMessage
    | 0x0A => some plSbUseEntity
    | 0x0B => some plSbKeepAlive
    | 0x0C => some plSbPlayer
    | 0x0D => some plSbPlayerPosition
    | 0x0E => some plSbPlayerPositionAndLook
    | 0x0F => some plSbPlayerLook
    | 0x10 => some plSbVehicleMove
    | 0x11 => some plSbSteerBoat
    | 0x12 => some plSbCraftRecipeRequest
    | 0x13 => some plSbPlayerAbilities
    | 0x14 => some plSbPlayerDigging
    | 0x15 => some plSbEntityAction
    | 0x16 => some plSbSteerVehicle
    | 0x17 => some plSbCraftingBookData
    | 0x18 => some plSbResourcePackStatus
    | 0x19 => some plSbAdvancementTab
    | 0x1A => some plSbHeldItemChange
    | 0x1B => some plSbCreativeInventoryAction
    | 0x1C => some plSbUpdateSign
    | 0x1D => some plSbAnimation
    | 0x1E => some plSbSpectate
    | 0x1F => some plSbPlayerBlockPlacement
    | 0x20 => some plSbUseItem
    | _ => none

open McprPacketType in
/-- The number of a packet type on the wire. `none` is the `abort()` of the types that are
not implemented, which include every serverbound one. -/
def mcprPacketTypeToByte (id : McprPacketType) : Option UInt8 :=
  match id with
  | stCbResponse => some 0x00
  | stCbPong => some 0x01
  | lgCbDisconnect => some 0x00
  | lgCbEncryptionRequest => some 0x01
  | lgCbLoginSuccess => some 0x02
  | lgCbSetCompression => some 0x03
  | plCbDisconnect => some 0x1A
  | plCbKeepAlive => some 0x1F
  | plCbJoinGame => some 0x23
  | plCbPluginMessage => some 0x18
  | plCbSpawnPosition => some 0x46
  | plCbChunkData => some 0x20
  | plCbPlayerAbilities => some 0x2C
  | plCbPlayerPositionAndLook => some 0x2F
  | plCbChatMessage => some 0x0F
  | _ => none

/-- `struct ninuuid` -/
structure Ninuuid where
  bytes : Vector UInt8 16
  deriving DecidableEq, Repr, Inhabited

inductive McprSideBasedHand
  | right
  | left
  deriving DecidableEq, Repr, Inhabited

inductive McprChatMode
  | enabled
  | commandsOnly
  | hidden
  deriving DecidableEq, Repr, Inhabited

inductive McprChatPosition
  | chat
  | system
  | hotbar
  deriving DecidableEq, Repr, Inhabited

inductive McprGamemode
  | survival
  | creative
  | adventure
  | spectator
  deriving DecidableEq, Repr, Inhabited

inductive McprDimension
  | overworld
  | nether
  | «end»
  deriving DecidableEq, Repr, Inhabited

inductive McprDifficulty
  | peaceful
  | easy
  | normal
  | hard
  deriving DecidableEq, Repr, Inhabited

inductive McprLevel
  | default
  | flat
  | largeBiomes
  | amplified
  | default11
  deriving DecidableEq, Repr, Inhabited

/-- The address of a tree of `lib/nbt`. A packet has no more of it. -/
abbrev NbtNode := ℕ

/-- `struct mcpr_chunk_section`; `palette_length` words of `palette` count, and
`block_array_length` eight-byte words of `blocks`. -/
structure McprChunkSection where
  bitsPerBlock : UInt8
  paletteLength : BitVec 32
  palette : List (BitVec 32)
  blockArrayLength : BitVec 32
  blocks : List UInt8
  blockLight : List UInt8
  skyLight : Option (List UInt8)
  deriving DecidableEq, Repr, Inhabited

structure McprPlayerSample where
  playerName : List UInt8
  uuid : Ninuuid
  deriving DecidableEq, Repr, Inhabited

section Serverbound

structure Handshake where
  protocolVersion : BitVec 32
  serverAddress : List UInt8
  serverPort : BitVec 16
  nextState : McprState
  deriving DecidableEq, Repr, Inhabited

structure Ping where
  payload : BitVec 64
  deriving DecidableEq, Repr, Inhabited

structure LoginStart where
  name : List UInt8
  deriving DecidableEq, Repr, Inhabited

structure EncryptionResponse where
  sharedSecretLength : BitVec 32
  sharedSecret : List UInt8
  verifyTokenLength : BitVec 32
  verifyToken : List UInt8
  deriving DecidableEq, Repr, Inhabited

structure ServerboundChatMessage where
  message : List UInt8
  deriving DecidableEq, Repr, Inhabited

structure DisplayedSkinParts where
  capeEnabled : Bool
  jacketEnabled : Bool
  leftSleeveEnabled : Bool
  rightSleeveEnabled : Bool
  leftPantsEnabled : Bool
  rightPantsEnabled : Bool
  hatEnabled : Bool
  deriving DecidableEq, Repr, Inhabited

structure ClientSettings where
  locale : List UInt8
  viewDistance : BitVec 8
  chatMode : McprChatMode
  chatColors : Bool
  displayedSkinParts : DisplayedSkinParts
  mainHand : McprSideBasedHand
  deriving DecidableEq, Repr, Inhabited

structure KeepAlive where
  keepAliveId : BitVec 32
  deriving DecidableEq, Repr, Inhabited

structure PlayerPosition where
  x : BitVec 64
  feetY : BitVec 64
  z : BitVec 64
  onGround : Bool
  deriving DecidableEq, Repr, Inhabited

structure ServerboundPlayerPositionAndLook where
  x : BitVec 64
  feetY : BitVec 64
  z : BitVec 64
  yaw : BitVec 32
  pitch : BitVec 32
  onGround : Bool
  deriving DecidableEq, Repr, Inhabited

structure TeleportConfirm where
  teleportId : BitVec 32
  deriving DecidableEq, Repr, Inhabited

structure PlayerLook where
  yaw : BitVec 32
  pitch : BitVec 32
  onGround : Bool
  deriving DecidableEq, Repr, Inhabited

structure HeldItemChange where
  slot : BitVec 16
  deriving DecidableEq, Repr, Inhabited

end Serverbound

/-- Plugin messages have one layout in both directions. -/
structure PluginMessage where
  channel : List UInt8
  dataLength : UInt64
  data : List UInt8
  deriving DecidableEq, Repr, Inhabited

section Clientbound

structure Response where
  versionName : List UInt8
  protocolVersion : BitVec 32
  maxPlayers : BitVec 32
  onlinePlayers : BitVec 32
  description : List UInt8
  favicon : Option (List UInt8)
  onlinePlayersSize : UInt64
  playerSample : Option (List McprPlayerSample)
  deriving DecidableEq, Repr, Inhabited

structure Pong where
  payload : BitVec 64
  deriving DecidableEq, Repr, Inhabited

structure Disconnect where
  reason : List UInt8
  deriving DecidableEq, Repr, Inhabited

structure EncryptionRequest where
  serverId : List UInt8
  publicKeyLength : BitVec 32
  publicKey : List UInt8
  verifyTokenLength : BitVec 32
  verifyToken : List UInt8
  deriving DecidableEq, Repr, Inhabited

structure LoginSuccess where
  uuid : Ninuuid
  username : List UInt8
  deriving DecidableEq, Repr, Inhabited

structure SetCompression where
  threshold : BitVec 32
  deriving DecidableEq, Repr, Inhabited

structure ClientboundChatMessage where
  jsonData : List UInt8
  position : McprChatPosition
  deriving DecidableEq, Repr, Inhabited

structure JoinGame where
  entityId : BitVec 32
  gamemode : McprGamemode
  hardcore : Bool
  dimension : McprDimension
  difficulty : McprDifficulty
  maxPlayers : UInt8
  levelType : McprLevel
  reducedDebugInfo : Bool
  deriving DecidableEq, Repr, Inhabited

structure SpawnPosition where
  location : McprPosition
  deriving DecidableEq, Repr, Inhabited

structure PlayerAbilities where
  invulnerable : Bool
  isFlying : Bool
  allowFlying : Bool
  creativeMode : Bool
  flyingSpeed : BitVec 32
  fieldOfViewModifier : BitVec 32
  deriving DecidableEq, Repr, Inhabited

structure ClientboundPlayerPositionAndLook where
  x : BitVec 64
  y : BitVec 64
  z : BitVec 64
  yaw : BitVec 32
  pitch : BitVec 32
  xIsRelative : Bool
  yIsRelative : Bool
  zIsRelative : Bool
  yawIsRelative : Bool
  pitchIsRelative : Bool
  teleportId : BitVec 32
  deriving DecidableEq, Repr, Inhabited

structure ChunkData where
  chunkX : BitVec 32
  chunkZ : BitVec 32
  groundUpContinuous : Bool
  primaryBitMask : BitVec 32
  chunkSections : List McprChunkSection
  biomes : List UInt8
  blockEntityCount : BitVec 32
  blockEntities : Option NbtNode
  deriving DecidableEq, Repr, Inhabited

end Clientbound

structure StatusClientbound where
  response : Response
  pong : Pong
  deriving DecidableEq, Repr, Inhabited

structure LoginServerbound where
  loginStart : LoginStart
  encryptionResponse : EncryptionResponse
  deriving DecidableEq, Repr, Inhabited

structure LoginClientbound where
  disconnect : Disconnect
  encryptionRequest : EncryptionRequest
  loginSuccess : LoginSuccess
  setCompression : SetCompression
  deriving DecidableEq, Repr, Inhabited

structure PlayServerbound where
  chatMessage : ServerboundChatMessage
  clientSettings : ClientSettings
  pluginMessage : PluginMessage
  keepAlive : KeepAlive
  playerPosition : PlayerPosition
  playerPositionAndLook : ServerboundPlayerPositionAndLook
  teleportConfirm : TeleportConfirm
  playerLook : PlayerLook
  heldItemChange : HeldItemChange
  deriving DecidableEq, Repr, Inhabited

structure PlayClientbound where
  chatMessage : ClientboundChatMessage
  disconnect : Disconnect
  keepAlive : KeepAlive
  joinGame : JoinGame
  pluginMessage : PluginMessage
  spawnPosition : SpawnPosition
  playerAbilities : PlayerAbilities
  playerPositionAndLook : ClientboundPlayerPositionAndLook
  chunkData : ChunkData
  deriving DecidableEq, Repr, Inhabited

/-- The union of packet data, with every member in a place of its own. -/
structure McprPacketData where
  handshake : Handshake
  ping : Ping
  status : StatusClientbound
  loginServerbound : LoginServerbound
  loginClientbound : LoginClientbound
  playServerbound : PlayServerbound
  playClientbound : PlayClientbound
  deriving DecidableEq, Repr, Inhabited

/-- `struct mcpr_packet` -/
structure McprPacket where
  id : McprPacketType
  state : McprState
  data : McprPacketData
  deriving DecidableEq, Repr, Inhabited

/-- No number of PLAY names a packet of an earlier state. -/
theorem mcprGetPacketType_play (id : UInt8) (t : McprPacketType)
    (h : mcprGetPacketType id .play = some t) :
    t ∉ [McprPacketType.hsSbHandshake, .stSbRequest, .stSbPing, .lgSbLoginStart,
      .lgSbEncryptionResponse] := by
  simp only [mcprGetPacketType] at h
  split at h <;> cases h <;> decide

end Stronk.Mcpr
