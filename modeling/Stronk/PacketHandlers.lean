import Stronk.McprCrypto
import Stronk.ServerConnection
import Stronk.World

/-! The packet handlers (`network/packethandlers/`) and `packet_handler`, which finds one for a
packet and closes the connection if it says so. Messages that go to the log are left out. -/
namespace Stronk.Mcpr
open ByteMemory EarlyExit

/-- `enum hp_result_type` -/
inductive HpResultType
  | ok
  | err
  | fatal
  | closed
  deriving DecidableEq, Repr, Inhabited

/-- `struct hp_result` -/
structure HpResult where
  result : HpResultType
  disconnectMessage : Option (List UInt8)
  deriving DecidableEq, Repr, Inhabited

/-- A result without a message. -/
def HpResult.of (result : HpResultType) : HpResult := { result, disconnectMessage := none }

/-- What most handlers answer to an error. -/
def loginError (asChat : Bool) : HpResult where
  result := .fatal
  disconnectMessage := mcprAsChat asChat (ascii "A fatal error occurred whilst logging in.")

def mcprMinecraftVersion : List UInt8 := ascii "1.12.2"

variable {κ ρ : Type}

section Common

def setState (state : McprState) : ConnectionProg κ ρ Unit := do
  onObjects (mcprConnectionSetState state)
  note (.setState state)

/-- The player behind `conn->player`. -/
def requirePlayer : ConnectionProg κ ρ Player := do
  let c ← get
  match c.player with
  | some player => return player
  | none => exit .undefined

end Common

section Handshake

/-- Whether the allocations succeed. -/
structure HandshakeEnv where
  asChat : Bool
  mallocAddress : Bool
  deriving DecidableEq, Repr

def unsupportedVersion (protocolVersion : BitVec 32) : List UInt8 :=
  ascii "Protocol version " ++ ascii (toString protocolVersion.toInt) ++
    ascii " is not supported! I'm on protocol version " ++ ascii (toString mcprProtocolVersion.toInt) ++
    ascii " (MC " ++ mcprMinecraftVersion ++ ascii ")"

/-- The state is set before anything is checked. -/
def handleHsHandshake (env : HandshakeEnv) (pkt : McprPacket) : ConnectionProg κ ρ HpResult := do
  let handshake := pkt.data.handshake
  note (.handshake (cString handshake.serverAddress))
  setState handshake.nextState
  let c ← get
  if handshake.protocolVersion ≠ mcprProtocolVersion ∧ c.state = .login then
    return { result := .fatal
             disconnectMessage := mcprAsChat env.asChat
               (unsupportedVersion handshake.protocolVersion) }
  else if env.mallocAddress = false then
    if c.state = .login then return loginError env.asChat
    else return .of .fatal
  else do
    modify fun c => { c with
      serverAddressUsed := some (cString handshake.serverAddress)
      portUsed := handshake.serverPort }
    return .of .ok

end Handshake

section Status
variable (crypto : Crypto κ ρ)

/-- `motd` is the text that `net_init` made. -/
def statusResponse (motd : List UInt8) : McprPacket :=
  { (default : McprPacket) with
    id := .stCbResponse
    state := .status
    data := { (default : McprPacketData) with
      status := { (default : StatusClientbound) with
        response :=
          { versionName := mcprMinecraftVersion
            protocolVersion := mcprProtocolVersion
            maxPlayers := 999
            onlinePlayers := 999
            description := motd
            favicon := none
            onlinePlayersSize := 0
            playerSample := none } } } }

def handleStRequest (motd : List UInt8) (write : StreamWrite) : ConnectionProg κ ρ HpResult := do
  let sent ← fwritePacket crypto.cipher write (statusResponse motd)
  if sent then return .of .ok
  else if write.closed then return .of .closed
  else return .of .err

def statusPong (payload : BitVec 64) : McprPacket :=
  { (default : McprPacket) with
    id := .stCbPong
    state := .status
    data := { (default : McprPacketData) with
      status := { (default : StatusClientbound) with pong := { payload } } } }

/-- After a Pong the connection is closed. -/
def handleStPing (write : StreamWrite) (pkt : McprPacket) : ConnectionProg κ ρ HpResult := do
  let sent ← fwritePacket crypto.cipher write (statusPong pkt.data.ping.payload)
  if sent then return .of .closed
  else if write.closed then return .of .closed
  else return .of .err

end Status

section Player
variable (crypto : Crypto κ ρ)

/-- What `create_player` finds: the memory of the player as `malloc` leaves it, if it does, a
new entity id, the internal clock. -/
structure PlayerEnv where
  malloc : Option Player
  entityId : BitVec 32
  clock : Timespec
  deriving DecidableEq, Repr, Inhabited

/-- The number 1 as a `float`. -/
def floatOne : BitVec 32 := 0x3F800000

/-- The number 128 as a `double`. -/
def double128 : BitVec 64 := 0x4060000000000000

def newPlayer (env : PlayerEnv) (garbage : Player) (username : List UInt8) (uuid : Ninuuid) :
    Player :=
  { garbage with
    uuid := uuid
    username := username
    clientBrand := none
    invulnerable := true
    isFlying := true
    allowFlying := true
    flyingSpeed := floatOne
    gamemode := .survival
    clientSettingsKnown := false
    compassTarget := { x := 0, y := 70, z := 0 }
    pos := { x := 0, y := double128, z := 0, yaw := 0, pitch := 0 }
    entityId := env.entityId
    lastKeepaliveSent := env.clock
    lastKeepaliveReceived := env.clock }

/-- Is there a player now? -/
def createPlayer (env : PlayerEnv) (uuid : Ninuuid) : ConnectionProg κ ρ Bool :=
  match env.malloc with
  | none => return false
  | some garbage => do
    let username ← useTmp Tmp.username
    modify fun c => { c with player := some (newPlayer env garbage username uuid) }
    return true

def joinGamePacket (player : Player) : McprPacket :=
  { (default : McprPacket) with
    id := .plCbJoinGame
    state := .play
    data := { (default : McprPacketData) with
      playClientbound := { (default : PlayClientbound) with
        joinGame :=
          { entityId := player.entityId
            gamemode := player.gamemode
            hardcore := false
            dimension := .overworld
            difficulty := .peaceful
            maxPlayers := 255
            levelType := .default
            reducedDebugInfo := false } } } }

/-- The text "Stronk" behind its length; `mcpr_encode_string` does not fail on it. -/
def brandMessage : McprPacket :=
  { (default : McprPacket) with
    id := .plCbPluginMessage
    state := .play
    data := { (default : McprPacketData) with
      playClientbound := { (default : PlayClientbound) with
        pluginMessage :=
          { channel := ascii "MC|BRAND"
            dataLength := 7
            data := mcprEncodeVarint 6 ++ ascii "Stronk" } } } }

def spawnPositionPacket (player : Player) : McprPacket :=
  { (default : McprPacket) with
    id := .plCbSpawnPosition
    state := .play
    data := { (default : McprPacketData) with
      playClientbound := { (default : PlayClientbound) with
        spawnPosition := { location := player.compassTarget } } } }

def playerAbilitiesPacket (player : Player) : McprPacket :=
  { (default : McprPacket) with
    id := .plCbPlayerAbilities
    state := .play
    data := { (default : McprPacketData) with
      playClientbound := { (default : PlayClientbound) with
        playerAbilities :=
          { invulnerable := player.invulnerable
            isFlying := player.isFlying
            allowFlying := player.allowFlying
            creativeMode := false
            flyingSpeed := player.flyingSpeed
            fieldOfViewModifier := floatOne } } } }

/-- Packets are sent until one cannot be. -/
def sendEach : List (StreamWrite × McprPacket) → ConnectionProg κ ρ HpResult
  | [] => return .of .ok
  | (write, pkt) :: rest => do
    let sent ← fwritePacket crypto.cipher write pkt
    if sent then sendEach rest
    else if write.closed then return .of .closed
    else return .of .fatal

/-- How the four writes of `send_post_login_sequence` fare. -/
structure SequenceEnv where
  joinGame : StreamWrite
  brand : StreamWrite
  spawnPosition : StreamWrite
  playerAbilities : StreamWrite

def sendPostLoginSequence (env : SequenceEnv) : ConnectionProg κ ρ HpResult := do
  let player ← requirePlayer
  sendEach crypto [(env.joinGame, joinGamePacket player), (env.brand, brandMessage),
    (env.spawnPosition, spawnPositionPacket player),
    (env.playerAbilities, playerAbilitiesPacket player)]

end Player

section Login
variable (crypto : Crypto κ ρ)

def isAuthRequired (_username : List UInt8) : Bool := true

def loginSuccessPacket (uuid : Ninuuid) (username : List UInt8) : McprPacket :=
  { (default : McprPacket) with
    id := .lgCbLoginSuccess
    state := .login
    data := { (default : McprPacketData) with
      loginClientbound := { (default : LoginClientbound) with
        loginSuccess := { uuid, username } } } }

def encryptionRequestPacket (publicKey : List UInt8) (verifyToken : Vector UInt8 16) : McprPacket :=
  { (default : McprPacket) with
    id := .lgCbEncryptionRequest
    state := .login
    data := { (default : McprPacketData) with
      loginClientbound := { (default : LoginClientbound) with
        encryptionRequest :=
          { serverId := []
            publicKeyLength := BitVec.ofNat 32 publicKey.length
            publicKey := publicKey
            verifyTokenLength := 16
            verifyToken := verifyToken.toList } } } }

/-- What `handle_lg_login_start` finds: a new key (NULL if there is none), whether it can be
encoded, the bytes of `secure_random`, and how its other calls fare. -/
structure LoginStartEnv (ρ : Type) where
  asChat : Bool
  rsa : Option ρ
  encodeKey : Bool
  mallocToken : Bool
  secureRandom : Option (Vector UInt8 16)
  request : StreamWrite
  mallocUsername : Bool
  generateUuid : Option Ninuuid
  success : StreamWrite
  player : PlayerEnv
  sequence : SequenceEnv

/-- `i2d_RSA_PUBKEY`; there is nothing to encode of a key that is NULL. -/
def encodePublicKey (rsa : Option ρ) (ok : Bool) : Option (List UInt8) :=
  if ok then some ((rsa.map crypto.i2dRsaPubkey).getD []) else none

/-- `ninerr != NULL && ninerr->message != NULL && strcmp(ninerr->message, "ninerr_closed") == 0`,
which looks at the message, not at the type. -/
def StreamWrite.messageClosed (w : StreamWrite) : Bool :=
  match w.ninerr with
  | some err => err.message = some ninerrClosed
  | none => false

/-- What is sent and kept if the client has to prove who it is. -/
def requestEncryption (env : LoginStartEnv ρ) (username : List UInt8) :
    ConnectionProg κ ρ HpResult :=
  match encodePublicKey crypto env.rsa env.encodeKey with
  | none => return loginError env.asChat
  | some publicKey =>
    if env.mallocToken = false then return loginError env.asChat
    else match env.secureRandom with
      | none => return loginError env.asChat
      | some verifyToken => do
        let sent ← fwritePacket crypto.cipher env.request
          (encryptionRequestPacket publicKey verifyToken)
        if sent = false then
          if env.request.messageClosed then return .of .closed
          else return loginError env.asChat
        else if env.mallocUsername = false then return loginError env.asChat
        else do
          modify fun c => { c with
            tmpPresent := true
            tmp := { verifyToken := .live verifyToken.toList, rsa := .live env.rsa
                     username := .live username } }
          note (.issueToken env.rsa verifyToken.toList)
          return .of .ok

/-- What is sent if it has not to. -/
def loginUnauthenticated (env : LoginStartEnv ρ) : ConnectionProg κ ρ HpResult :=
  match env.generateUuid with
  | none => return .of .fatal
  | some uuid => do
    let username ← useTmp Tmp.username
    let sent ← fwritePacket crypto.cipher env.success (loginSuccessPacket uuid username)
    if sent = false then
      if env.success.ninerr = none then exit .undefined
      else if env.success.closed then return .of .closed
      else return .of .fatal
    else do
      setState .play
      let created ← createPlayer env.player uuid
      if created = false then return .of .fatal
      else sendPostLoginSequence crypto env.sequence

/-- The name is kept at once, as a part of the packet. -/
def handleLgLoginStart (env : LoginStartEnv ρ) (pkt : McprPacket) : ConnectionProg κ ρ HpResult := do
  let name := cString pkt.data.loginServerbound.loginStart.name
  note (.loginStart name)
  modify fun c => { c with tmp := { c.tmp with username := .live name } }
  if isAuthRequired name then requestEncryption crypto env name
  else loginUnauthenticated crypto env

/-- What `handle_lg_encryption_response` finds: whether its allocations and its calls of OpenSSL
succeed, and the id that the session server answers with. -/
structure EncryptionResponseEnv where
  asChat : Bool
  mallocSecret : Bool
  newEncrypt : Bool
  initEncrypt : Bool
  newDecrypt : Bool
  initDecrypt : Bool
  encodeKey : Bool
  sha1Init : Bool
  sha1Secret : Bool
  sha1Key : Bool
  sha1Final : Bool
  hasJoined : Option Ninuuid
  success : StreamWrite
  player : PlayerEnv
  sequence : SequenceEnv

/-- Can both cipher contexts be made? -/
def EncryptionResponseEnv.ciphers (env : EncryptionResponseEnv) : Bool :=
  env.newEncrypt && env.initEncrypt && env.newDecrypt && env.initDecrypt

/-- Can the server id be hashed? -/
def EncryptionResponseEnv.hashes (env : EncryptionResponseEnv) : Bool :=
  env.sha1Init && env.sha1Secret && env.sha1Key && env.sha1Final

variable (env : EncryptionResponseEnv)

/-- What is released at every end of an Encryption Response. -/
def releaseLogin : ConnectionProg κ ρ Unit := do
  releaseTmp Tmp.rsa fun tmp => { tmp with rsa := .released }
  releaseTmp Tmp.verifyToken fun tmp => { tmp with verifyToken := .released }

def releaseUsername : ConnectionProg κ ρ Unit :=
  releaseTmp Tmp.username fun tmp => { tmp with username := .released }

def clearTmpPresent : ConnectionProg κ ρ Unit := modify fun c => { c with tmpPresent := false }

/-- The label `err`. -/
def responseError : ConnectionProg κ ρ HpResult := do
  releaseLogin
  releaseUsername
  clearTmpPresent
  return loginError env.asChat

/-- The label `closed`. -/
def responseClosed : ConnectionProg κ ρ HpResult := do
  releaseLogin
  releaseUsername
  clearTmpPresent
  return .of .closed

/-- The label `cleanup_only`. -/
def responseDone : ConnectionProg κ ρ HpResult := do
  releaseLogin
  clearTmpPresent
  return .of .ok

/-- The shared secret, unless it is too long, cannot be decrypted or there is no memory. -/
def decryptSharedSecret (response : EncryptionResponse) : ConnectionProg κ ρ (Option (List UInt8)) := do
  let rsa ← useTmp Tmp.rsa
  match rsa with
  | none => exit .undefined
  | some key =>
    if env.mallocSecret = false then return none
    else if response.sharedSecretLength.toInt > crypto.rsaSize key then return none
    else return (crypto.rsaPrivateDecrypt key
      (response.sharedSecret.take response.sharedSecretLength.toNat))

/-- The session server is asked whether the client has joined under the hash of the server id. -/
def joinSession (sharedSecret : List UInt8) : ConnectionProg κ ρ (Option Ninuuid) := do
  let rsa ← useTmp Tmp.rsa
  match encodePublicKey crypto rsa env.encodeKey with
  | none => return none
  | some publicKey =>
    if env.hashes = false then return none
    else do
      let username ← useTmp Tmp.username
      let c ← get
      match env.hasJoined with
      | none => return none
      | some id => do
        note (.hasJoined username
          (mcprCryptoStringifySha1 (crypto.sha1 (sharedSecret ++ publicKey)))
          c.serverAddressUsed id)
        return some id

/-- From Login Success on. -/
def enterPlay (id : Ninuuid) : ConnectionProg κ ρ HpResult := do
  let username ← useTmp Tmp.username
  let sent ← fwritePacket crypto.cipher env.success (loginSuccessPacket id username)
  if sent = false then
    if env.success.ninerr = none then exit .undefined
    else if env.success.closed then responseClosed
    else responseError env
  else do
    setState .play
    let created ← createPlayer env.player id
    if created = false then responseError env
    else do
      let result ← sendPostLoginSequence crypto env.sequence
      if result.result = .fatal then responseError env
      else if result.result = .closed then responseClosed
      else responseDone

/-- The token of the response is never looked at, and the cipher contexts are set but not
switched on. -/
def handleLgEncryptionResponse (pkt : McprPacket) : ConnectionProg κ ρ HpResult := do
  let response := pkt.data.loginServerbound.encryptionResponse
  note (.encryptionResponse response.verifyToken)
  let c ← get
  if c.tmpPresent = false then return loginError env.asChat
  else do
    let secret ← decryptSharedSecret crypto env response
    match secret with
    | none => responseError env
    | some secret =>
      if env.ciphers = false then responseError env
      else do
        onObjects (mcprConnectionSetCrypto (crypto.initCipher secret) (crypto.initCipher secret))
        let joined ← joinSession crypto env secret
        match joined with
        | none => responseError env
        | some id => enterPlay crypto env id

end Login

section Play
variable (crypto : Crypto κ ρ)

/-- The handlers that do nothing. -/
def ignored : ConnectionProg κ ρ HpResult := return .of .ok

def handlePlKeepAlive (clock : Timespec) : ConnectionProg κ ρ HpResult := do
  let _ ← requirePlayer
  setPlayer fun p => { p with lastKeepaliveReceived := clock }
  return .of .ok

/-- What `handle_pl_plugin_message` finds: how decoding fares, and what lies behind the data. -/
structure PluginMessageEnv where
  decode : DecodeEnv
  behind : Mem

/-- The data of a Plugin Message as a string. -/
def decodeBrand (env : PluginMessageEnv) (data : List UInt8) (maxlen : UInt64) :
    Except DecodeExit (Option DecodedString) :=
  ((mcprDecodeString env.decode).run (write env.behind 0 data)
    { off := 0, left := maxlen, wrapped := false, overread := false, objects := default }).1

/-- The length is cut down to an `int32_t`. -/
def handlePlPluginMessage (env : PluginMessageEnv) (pkt : McprPacket) :
    ConnectionProg κ ρ HpResult :=
  let message := pkt.data.playServerbound.pluginMessage
  let dataLength := BitVec.ofNat 32 message.dataLength.toNat
  if cString message.channel = ascii "MC|BRAND" then
    if dataLength.toInt < 0 then return .of .err
    else match decodeBrand env message.data (UInt64.ofNat dataLength.toNat) with
      | .error _ => exit .trap
      | .ok none => return .of .err
      | .ok (some brand) => do
        let _ ← requirePlayer
        setPlayer fun p => { p with clientBrand := some brand.content }
        return .of .ok
  else return .of .ok

/-- What `send_chunk_data` finds for one column: the chunk (NULL if there is none), whether its
allocations succeed, how its write fares. -/
structure ChunkSend where
  chunk : Option Chunk
  malloc : Bool
  write : StreamWrite

def sendChunkData (host : Endian) (send : ChunkSend) (x z : BitVec 64) : ConnectionProg κ ρ Bool :=
  if send.malloc = false then return false
  else match send.chunk with
    | none => exit .undefined
    | some chunk => fwritePacket crypto.cipher send.write (chunkDataPacket host chunk x z true)

/-- The columns around a base, ten in every direction. -/
def viewPositions (baseX baseZ : BitVec 64) : List (BitVec 64 × BitVec 64) :=
  (List.range 21).flatMap fun i => (List.range 21).map fun j =>
    (baseX+BitVec.ofNat 64 i-10, baseZ+BitVec.ofNat 64 j-10)

/-- `world_send_chunk_data1`, which does not fail. -/
def sendChunks (host : Endian) (chunks : BitVec 64 → BitVec 64 → ChunkSend) :
    List (BitVec 64 × BitVec 64) → ConnectionProg κ ρ Unit
  | [] => pure ()
  | (x, z) :: rest => do
    let _ ← sendChunkData crypto host (chunks x z) x z
    sendChunks host chunks rest

def playerPositionAndLookPacket (player : Player) : McprPacket :=
  { (default : McprPacket) with
    id := .plCbPlayerPositionAndLook
    state := .play
    data := { (default : McprPacketData) with
      playClientbound := { (default : PlayClientbound) with
        playerPositionAndLook :=
          { x := player.pos.x, y := player.pos.y, z := player.pos.z
            yaw := player.pos.yaw, pitch := player.pos.pitch
            xIsRelative := false, yIsRelative := false, zIsRelative := false
            yawIsRelative := false, pitchIsRelative := false
            teleportId := 0 } } } }

/-- What `handle_pl_client_settings` finds; `base` is the column that the position of the player
comes to, whose coordinates are floating-point numbers. -/
structure ClientSettingsEnv where
  mallocLocale : Bool
  host : Endian
  base : BitVec 64 × BitVec 64
  chunks : BitVec 64 → BitVec 64 → ChunkSend
  position : StreamWrite

/-- The main hand is not copied. -/
def playerSettings (env : ClientSettingsEnv) (old : PlayerSettings) (p : ClientSettings) :
    PlayerSettings :=
  { old with
    locale := if env.mallocLocale then some (cString p.locale) else none
    viewDistance := UInt8.ofBitVec p.viewDistance
    chatMode := p.chatMode
    chatColors := p.chatColors
    displayedSkinParts := p.displayedSkinParts }

/-- Here too the message is compared, which must not be NULL. -/
def handlePlClientSettings (env : ClientSettingsEnv) (pkt : McprPacket) :
    ConnectionProg κ ρ HpResult := do
  let _ ← requirePlayer
  setPlayer fun p => { p with
    clientSettings := playerSettings env p.clientSettings pkt.data.playServerbound.clientSettings
    clientSettingsKnown := true }
  sendChunks crypto env.host env.chunks (viewPositions env.base.1 env.base.2)
  let player ← requirePlayer
  let sent ← fwritePacket crypto.cipher env.position (playerPositionAndLookPacket player)
  if sent = false then
    match env.position.ninerr with
    | none => return .of .fatal
    | some err =>
      match err.message with
      | none => exit .undefined
      | some message => return .of (if message = ninerrClosed then .closed else .fatal)
  else do
    setPlayer fun p => { p with lastTeleportId := 0 }
    return .of .ok

/-- `last_teleport_id` is counted up, unless it overflows. -/
def countTeleport : ConnectionProg κ ρ HpResult := do
  let player ← requirePlayer
  if player.lastTeleportId = BitVec.intMax 64 then exit .trap
  else do
    setPlayer fun p => { p with lastTeleportId := p.lastTeleportId+1 }
    return .of .ok

def handlePlTeleportConfirm (write : StreamWrite) : ConnectionProg κ ρ HpResult := do
  let player ← requirePlayer
  if player.lastTeleportId = 0 then do
    let sent ← fwritePacket crypto.cipher write (playerPositionAndLookPacket player)
    if sent then countTeleport
    else if write.closed then return .of .closed
    else return .of .fatal
  else countTeleport

/-- A message that is not a command is to be broadcast, for which the lock of the players is
asked for: that is not implemented. -/
def handlePlChatMessage (pkt : McprPacket) : ConnectionProg κ ρ HpResult :=
  if (cString pkt.data.playServerbound.chatMessage.message).head? ≠ some 0x2F then exit .abort
  else return .of .ok

def handlePlHeldItemChange (pkt : McprPacket) : ConnectionProg κ ρ HpResult := do
  let _ ← requirePlayer
  setPlayer fun p => { p with
    selectedSlot := UInt8.ofBitVec (pkt.data.playServerbound.heldItemChange.slot.setWidth 8) }
  return .of .ok

end Play

section Dispatch
variable (crypto : Crypto κ ρ)

/-- What a packet finds when it is handled. -/
structure HandlerEnv (ρ : Type) where
  handshake : HandshakeEnv
  motd : List UInt8
  write : StreamWrite
  loginStart : LoginStartEnv ρ
  encryptionResponse : EncryptionResponseEnv
  clock : Timespec
  pluginMessage : PluginMessageEnv
  clientSettings : ClientSettingsEnv
  close : CloseEnv

/-- The handler of a packet, by the state of the connection and the type of the packet. Without
one, the result is not initialised. -/
def handlePacket (env : HandlerEnv ρ) (pkt : McprPacket) (state : McprState) :
    ConnectionProg κ ρ HpResult :=
  match state, pkt.id with
  | .handshake, .hsSbHandshake => handleHsHandshake env.handshake pkt
  | .status, .stSbRequest => handleStRequest crypto env.motd env.write
  | .status, .stSbPing => handleStPing crypto env.write pkt
  | .login, .lgSbLoginStart => handleLgLoginStart crypto env.loginStart pkt
  | .login, .lgSbEncryptionResponse => handleLgEncryptionResponse crypto env.encryptionResponse pkt
  | .play, .plSbTeleportConfirm => handlePlTeleportConfirm crypto env.write
  | .play, .plSbTabComplete => ignored
  | .play, .plSbChatMessage => handlePlChatMessage pkt
  | .play, .plSbClientStatus => ignored
  | .play, .plSbClientSettings => handlePlClientSettings crypto env.clientSettings pkt
  | .play, .plSbConfirmTransaction => ignored
  | .play, .plSbEnchantItem => ignored
  | .play, .plSbClickWindow => ignored
  | .play, .plSbCloseWindow => ignored
  | .play, .plSbPluginMessage => handlePlPluginMessage env.pluginMessage pkt
  | .play, .plSbUseEntity => ignored
  | .play, .plSbKeepAlive => handlePlKeepAlive env.clock
  | .play, .plSbPlayerPosition => ignored
  | .play, .plSbPlayerPositionAndLook => ignored
  | .play, .plSbPlayerLook => ignored
  | .play, .plSbPlayer => ignored
  | .play, .plSbVehicleMove => ignored
  | .play, .plSbSteerBoat => ignored
  | .play, .plSbPlayerAbilities => ignored
  | .play, .plSbPlayerDigging => ignored
  | .play, .plSbEntityAction => ignored
  | .play, .plSbSteerVehicle => ignored
  | .play, .plSbResourcePackStatus => ignored
  | .play, .plSbHeldItemChange => handlePlHeldItemChange pkt
  | .play, .plSbCreativeInventoryAction => ignored
  | .play, .plSbUpdateSign => ignored
  | .play, .plSbAnimation => ignored
  | .play, .plSbSpectate => ignored
  | .play, .plSbPlayerBlockPlacement => ignored
  | .play, .plSbUseItem => ignored
  | _, _ => exit .undefined

/-- What `packet_handler` does with the result of a handler. -/
def finishPacket (close : CloseEnv) (result : HpResult) : ConnectionProg κ ρ Bool :=
  if result.result = .fatal ∨ result.result = .closed then do
    connectionClose crypto.cipher close result.disconnectMessage
    return false
  else return true

def packetHandler (env : HandlerEnv ρ) (pkt : McprPacket) : ConnectionProg κ ρ Bool := do
  touch
  let c ← get
  let result ← handlePacket crypto env pkt c.state
  finishPacket crypto env.close result

end Dispatch

end Stronk.Mcpr
