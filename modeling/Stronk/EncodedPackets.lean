import Stronk.EncodeBounds

/-! What is in an encoded packet: the number of its type and the fields behind it. The encoder
writes the two in separate calls, once for every type. -/
namespace Stronk.Mcpr
open ByteMemory EarlyExit

section Payload

/-- A string: its length and its bytes. -/
def stringBytes (s : List UInt8) : List UInt8 :=
  mcprEncodeVarint (BitVec.ofNat 32 (strlen s)) ++ cString s

/-- `len` bytes of an array. -/
def arrayBytes (len : ℤ) (bs : List UInt8) : List UInt8 := read (ofList bs) len.toNat

/-- Bytes behind a field that says how many there are. -/
def blobBytes (len : BitVec 32) (bs : List UInt8) : List UInt8 :=
  mcprEncodeVarint len ++ arrayBytes len.toInt bs

def sectionField (s : McprChunkSection) : List UInt8 :=
  mcprEncodeUbyte s.bitsPerBlock ++ mcprEncodeVarint s.paletteLength ++ paletteBytes s ++
    mcprEncodeVarint s.blockArrayLength ++ arrayBytes (s.blockArrayLength.toInt*8) s.blocks ++
    arrayBytes 2048 s.blockLight ++
    arrayBytes (if s.skyLight.isSome then 2048 else 0) (s.skyLight.getD [])

def chunkDataPayload (env : EncodeEnv) (c : ChunkData) : List UInt8 :=
  mcprEncodeInt env.host c.chunkX ++ mcprEncodeInt env.host c.chunkZ ++
    mcprEncodeBool c.groundUpContinuous ++ mcprEncodeVarint c.primaryBitMask ++
    mcprEncodeVarint ((chunkDataSize c).getD 0#32) ++ c.chunkSections.flatMap sectionField ++
    arrayBytes (if c.groundUpContinuous then 256 else 0) c.biomes ++
    mcprEncodeVarint c.blockEntityCount ++
    (if c.blockEntityCount.toInt > 0 then rawBlockEntities env c else [])

def joinGamePayload (env : EncodeEnv) (p : JoinGame) : List UInt8 :=
  let gamemode := gamemodeByte p.gamemode
  mcprEncodeInt env.host p.entityId ++
    mcprEncodeUbyte (if p.hardcore then gamemode ||| 0x08 else gamemode) ++
    mcprEncodeInt env.host (dimensionInt p.dimension) ++
    mcprEncodeUbyte (difficultyByte p.difficulty) ++ mcprEncodeUbyte p.maxPlayers ++
    stringBytes (levelType p.levelType) ++ mcprEncodeBool p.reducedDebugInfo

def playerAbilitiesPayload (env : EncodeEnv) (p : PlayerAbilities) : List UInt8 :=
  mcprEncodeByte (flagsByte [(p.invulnerable, 0x01), (p.isFlying, 0x02), (p.allowFlying, 0x04),
    (p.creativeMode, 0x08)]) ++ mcprEncodeFloat env.host env.shiftOut p.flyingSpeed ++
    mcprEncodeFloat env.host env.shiftOut p.fieldOfViewModifier

def playerPositionAndLookPayload (env : EncodeEnv) (p : ClientboundPlayerPositionAndLook) :
    List UInt8 :=
  mcprEncodeDouble env.host p.x ++ mcprEncodeDouble env.host p.y ++
    mcprEncodeDouble env.host p.z ++ mcprEncodeFloat env.host env.shiftOut p.yaw ++
    mcprEncodeFloat env.host env.shiftOut p.pitch ++
    mcprEncodeByte (flagsByte [(p.xIsRelative, 0x01), (p.yIsRelative, 0x02),
      (p.zIsRelative, 0x04), (p.pitchIsRelative, 0x08), (p.yawIsRelative, 0x10)]) ++
    mcprEncodeVarint p.teleportId

/-- The fields of a clientbound packet, as the protocol puts them on the wire. -/
def payload (env : EncodeEnv) (pkt : McprPacket) : List UInt8 :=
  let login := pkt.data.loginClientbound
  let play := pkt.data.playClientbound
  match pkt.id with
  | .stCbPong => mcprEncodeLong env.host pkt.data.status.pong.payload
  | .stCbResponse => stringBytes (responseText pkt.data.status.response)
  | .lgCbDisconnect => stringBytes login.disconnect.reason
  | .lgCbEncryptionRequest => stringBytes login.encryptionRequest.serverId ++
    blobBytes login.encryptionRequest.publicKeyLength login.encryptionRequest.publicKey ++
    blobBytes login.encryptionRequest.verifyTokenLength login.encryptionRequest.verifyToken
  | .lgCbLoginSuccess => stringBytes (ninuuidToString login.loginSuccess.uuid) ++
    stringBytes login.loginSuccess.username
  | .lgCbSetCompression => mcprEncodeVarint login.setCompression.threshold
  | .plCbChatMessage => stringBytes play.chatMessage.jsonData ++
    mcprEncodeByte (chatPositionByte play.chatMessage.position)
  | .plCbDisconnect => stringBytes play.disconnect.reason
  | .plCbKeepAlive => mcprEncodeVarint play.keepAlive.keepAliveId
  | .plCbJoinGame => joinGamePayload env play.joinGame
  | .plCbPluginMessage => stringBytes play.pluginMessage.channel ++
    read (ofList play.pluginMessage.data) play.pluginMessage.dataLength.toNat
  | .plCbSpawnPosition => mcprEncodePosition env.host play.spawnPosition.location
  | .plCbPlayerAbilities => playerAbilitiesPayload env play.playerAbilities
  | .plCbPlayerPositionAndLook => playerPositionAndLookPayload env play.playerPositionAndLook
  | .plCbChunkData => chunkDataPayload env play.chunkData
  | _ => []

/-- The number of a type, if it has one, as a VarInt. -/
def numberBytes (id : McprPacketType) : List UInt8 :=
  match mcprPacketTypeToByte id with
  | some byte => mcprEncodeVarint (byte.toBitVec.setWidth 32)
  | none => []

end Payload

section Emits
variable {α β : Type} {as bs : List UInt8}

/-- A program writes exactly `bs`, or it gives up: it returns 0 or does not return. -/
def Emits (m : Encoder α) (bs : List UInt8) : Prop :=
  ∀ o, match (m.run o).1 with
    | .ok _ => (m.run o).2.written = o.written ++ bs
    | .error (.ret n) => n = 0
    | .error _ => True

theorem Emits.pure (a : α) : Emits (pure a : Encoder α) [] := by
  intro o
  simp

theorem Emits.abort : Emits (exit .abort : Encoder α) bs := fun _ => trivial

theorem Emits.undefined : Emits (exit .undefined : Encoder α) bs := fun _ => trivial

theorem Emits.bind {m : Encoder α} {f : α → Encoder β} (hm : Emits m as)
    (hf : ∀ a, Emits (f a) bs) : Emits (m >>= f) (as ++ bs) := by
  intro o
  have h := hm o
  rw [bind_run]
  rcases hr : m.run o with ⟨e | a, o'⟩ <;> rw [hr] at h
  · rcases e with n | _ | _
    · exact h
    · trivial
    · trivial
  · have h' := hf a o'
    dsimp only at h h' ⊢
    rw [h, List.append_assoc] at h'
    exact h'

/-- The last part of a program. -/
theorem Emits.last {m : Encoder α} {f : α → Encoder β} (hm : Emits m bs)
    (hf : ∀ a, Emits (f a) []) : Emits (m >>= f) bs := by
  have h := hm.bind hf
  rwa [List.append_nil] at h

theorem emits_emit (bs : List UInt8) : Emits (emit bs) bs := fun _ => rfl

theorem emits_memcpyOut (len : ℤ) (bs : List UInt8) : Emits (memcpyOut len bs) (arrayBytes len bs) := by
  unfold memcpyOut
  split_ifs
  · exact .undefined
  · exact emits_emit _

theorem emits_packetNumber (id : McprPacketType) : Emits (packetNumber id) (numberBytes id) := by
  simp only [packetNumber, numberBytes]
  rcases mcprPacketTypeToByte id with _ | byte
  · exact .abort
  · exact emits_emit _

/-- A string is written as a whole, or the encoder gives up. -/
theorem emits_encodeStringField (env : EncodeEnv) (s : List UInt8) :
    Emits (encodeStringField env s) (stringBytes s) := by
  intro o
  by_cases h : StringEncodes env o.mallocs s
  · simp only [encodeStringField, bind_run, mcprEncodeString_run env o s h]
    split_ifs
    · exact rfl
    · simp [stringBytes]
  · obtain ⟨o', hr, -⟩ := mcprEncodeString_run_fails env o s h
    simp [encodeStringField, hr]

end Emits

section Types
variable (env : EncodeEnv)

theorem emits_encodePong (p : Pong) :
    Emits (encodePong env p) (numberBytes .stCbPong ++ mcprEncodeLong env.host p.payload) :=
  (emits_packetNumber _).bind fun _ => emits_emit _

theorem emits_encodeResponse (r : Response) :
    Emits (encodeResponse env r) (numberBytes .stCbResponse ++ stringBytes (responseText r)) := by
  have hsome (response : List UInt8) : Emits (do
      packetNumber .stCbResponse
      emit (mcprEncodeVarint (BitVec.ofNat 32 (strlen response)))
      emit (cString response)) (numberBytes .stCbResponse ++ stringBytes response) :=
    (emits_packetNumber _).bind fun _ => (emits_emit _).bind fun _ => emits_emit _
  intro o
  cases hs : r.playerSample.isSome with
  | true => simp [encodeResponse, serverListResponseToJson_sample env r o hs]
  | false =>
    rcases lt_trichotomy (int32Max : ℤ) (responseText r).length with hlt | heq | hlt
    · obtain ⟨o', hr, -⟩ := serverListResponseToJson_none env r o hs (.inl hlt)
      simp [encodeResponse, hr]
    · simp [encodeResponse, serverListResponseToJson, hs, ← heq]
    · cases hm : env.malloc o.mallocs with
      | false =>
        obtain ⟨o', hr, -⟩ := serverListResponseToJson_none env r o hs (.inr ⟨hlt, hm⟩)
        simp [encodeResponse, hr]
      | true =>
        have h := hsome (responseText r) { o with mallocs := o.mallocs+1 }
        simp only [encodeResponse, bind_run,
          serverListResponseToJson_some env r o hs hlt hm] at h ⊢
        exact h

theorem emits_encodeLoginDisconnect (p : Disconnect) : Emits (encodeLoginDisconnect env p)
    (numberBytes .lgCbDisconnect ++ stringBytes p.reason) :=
  (emits_packetNumber _).bind fun _ => emits_encodeStringField env _

theorem emits_encodeEncryptionRequest (p : EncryptionRequest) :
    Emits (encodeEncryptionRequest env p) (numberBytes .lgCbEncryptionRequest ++
      (stringBytes p.serverId ++ blobBytes p.publicKeyLength p.publicKey ++
        blobBytes p.verifyTokenLength p.verifyToken)) := by
  simp only [blobBytes, List.append_assoc]
  refine (emits_packetNumber _).bind fun _ => (emits_encodeStringField env _).bind fun _ => ?_
  refine (emits_emit _).bind fun _ => (emits_memcpyOut _ _).bind fun _ => ?_
  exact (emits_emit _).bind fun _ => emits_memcpyOut _ _

theorem emits_encodeLoginSuccess (p : LoginSuccess) : Emits (encodeLoginSuccess env p)
    (numberBytes .lgCbLoginSuccess ++ (stringBytes (ninuuidToString p.uuid) ++
      stringBytes p.username)) := by
  unfold encodeLoginSuccess
  -- which text it is makes no difference
  generalize ninuuidToString p.uuid = uuid
  exact (emits_packetNumber _).bind fun _ => (emits_encodeStringField env _).bind fun _ =>
    emits_encodeStringField env _

theorem emits_encodeSetCompression (p : SetCompression) : Emits (encodeSetCompression p)
    (numberBytes .lgCbSetCompression ++ mcprEncodeVarint p.threshold) :=
  (emits_packetNumber _).bind fun _ => emits_emit _

/-- The fields of a Chat Message are written, and no number. -/
theorem emits_encodeChatMessage (p : ClientboundChatMessage) : Emits (encodeChatMessage env p)
    (stringBytes p.jsonData ++ mcprEncodeByte (chatPositionByte p.position)) :=
  (emits_encodeStringField env _).bind fun _ => emits_emit _

theorem emits_encodeDisconnect (p : Disconnect) : Emits (encodeDisconnect env p)
    (numberBytes .plCbDisconnect ++ stringBytes p.reason) :=
  (emits_packetNumber _).bind fun _ => emits_encodeStringField env _

theorem emits_encodeKeepAlive (p : KeepAlive) : Emits (encodeKeepAlive p)
    (numberBytes .plCbKeepAlive ++ mcprEncodeVarint p.keepAliveId) :=
  (emits_packetNumber _).bind fun _ => emits_emit _

theorem emits_encodeJoinGame (p : JoinGame) : Emits (encodeJoinGame env p)
    (numberBytes .plCbJoinGame ++ joinGamePayload env p) := by
  simp only [joinGamePayload, List.append_assoc]
  refine (emits_packetNumber _).bind fun _ => (emits_emit _).bind fun _ => ?_
  refine (emits_emit _).bind fun _ => (emits_emit _).bind fun _ => ?_
  refine (emits_emit _).bind fun _ => (emits_emit _).bind fun _ => ?_
  exact (emits_encodeStringField env _).bind fun _ => emits_emit _

theorem emits_encodePluginMessage (p : PluginMessage) : Emits (encodePluginMessage env p)
    (numberBytes .plCbPluginMessage ++ (stringBytes p.channel ++
      read (ofList p.data) p.dataLength.toNat)) := by
  unfold encodePluginMessage
  split_ifs
  · exact .abort
  · exact (emits_packetNumber _).bind fun _ => (emits_encodeStringField env _).bind fun _ =>
      emits_emit _

theorem emits_encodeSpawnPosition (p : SpawnPosition) : Emits (encodeSpawnPosition env p)
    (numberBytes .plCbSpawnPosition ++ mcprEncodePosition env.host p.location) :=
  (emits_packetNumber _).bind fun _ => emits_emit _

theorem emits_encodePlayerAbilities (p : PlayerAbilities) : Emits (encodePlayerAbilities env p)
    (numberBytes .plCbPlayerAbilities ++ playerAbilitiesPayload env p) := by
  simp only [playerAbilitiesPayload, List.append_assoc]
  exact (emits_packetNumber _).bind fun _ => (emits_emit _).bind fun _ =>
    (emits_emit _).bind fun _ => emits_emit _

theorem emits_encodePlayerPositionAndLook (p : ClientboundPlayerPositionAndLook) :
    Emits (encodePlayerPositionAndLook env p)
      (numberBytes .plCbPlayerPositionAndLook ++ playerPositionAndLookPayload env p) := by
  simp only [playerPositionAndLookPayload, List.append_assoc]
  refine (emits_packetNumber _).bind fun _ => (emits_emit _).bind fun _ => ?_
  refine (emits_emit _).bind fun _ => (emits_emit _).bind fun _ => ?_
  refine (emits_emit _).bind fun _ => (emits_emit _).bind fun _ => ?_
  exact (emits_emit _).bind fun _ => emits_emit _

theorem emits_encodeSection (s : McprChunkSection) : Emits (encodeSection s) (sectionField s) := by
  simp only [sectionField, List.append_assoc]
  refine (emits_emit _).bind fun _ => (emits_emit _).bind fun _ => ?_
  refine (emits_emit _).bind fun _ => (emits_emit _).bind fun _ => ?_
  exact (emits_memcpyOut _ _).bind fun _ => (emits_memcpyOut _ _).bind fun _ =>
    emits_memcpyOut _ _

theorem emits_encodeSections (sections : List McprChunkSection) :
    Emits (encodeSections sections) (sections.flatMap sectionField) := by
  induction sections with
  | nil => exact .pure ()
  | cons s sections ih =>
    rw [List.flatMap_cons]
    exact (emits_encodeSection s).bind fun _ => ih

theorem emits_encodeBlockEntities (c : ChunkData) : Emits (encodeBlockEntities env c)
    (if c.blockEntityCount.toInt > 0 then rawBlockEntities env c else []) := by
  unfold encodeBlockEntities
  split_ifs
  · rcases c.blockEntities with _ | node
    · exact .undefined
    · exact emits_emit _
  · exact .pure ()

theorem emits_encodeChunkData (c : ChunkData) : Emits (encodeChunkData env c)
    (numberBytes .plCbChunkData ++ chunkDataPayload env c) := by
  simp only [encodeChunkData, chunkDataPayload, List.append_assoc]
  rcases chunkDataSize c with _ | dataSize
  · exact .abort
  · refine (emits_packetNumber _).bind fun _ => (emits_emit _).bind fun _ => ?_
    refine (emits_emit _).bind fun _ => (emits_emit _).bind fun _ => ?_
    refine (emits_emit _).bind fun _ => (emits_emit _).bind fun _ => ?_
    refine (emits_encodeSections _).bind fun _ => (emits_memcpyOut _ _).bind fun _ => ?_
    exact (emits_emit _).bind fun _ => emits_encodeBlockEntities env c

end Types

section Packet

/-- The number that the encoder writes in front of the fields. -/
def writtenNumber : McprPacketType → List UInt8
  | .plCbChatMessage => []
  | id => numberBytes id

/-- What the encoder makes of a packet. -/
def encodedBytes (env : EncodeEnv) (pkt : McprPacket) : List UInt8 :=
  writtenNumber pkt.id ++ payload env pkt

variable (env : EncodeEnv) (pkt : McprPacket)

/-- The case of a type without a number ends the program. -/
theorem emits_numberless {id : McprPacketType} (h : mcprPacketTypeToByte id = none)
    (K : Unit → Encoder Unit) (bs : List UInt8) : Emits (packetNumber id >>= K) bs := by
  intro o
  simp [packetNumber, h]

theorem emits_encodePlay : Emits (encodePlay env pkt) (encodedBytes env pkt) := by
  unfold encodePlay
  dsimp only
  split
  · rename_i h
    simp only [encodedBytes, h, writtenNumber, payload]
    exact emits_encodeChatMessage env pkt.data.playClientbound.chatMessage
  · rename_i h
    simp only [encodedBytes, h, writtenNumber, payload]
    exact emits_encodeDisconnect env pkt.data.playClientbound.disconnect
  · rename_i h
    simp only [encodedBytes, h, writtenNumber, payload]
    exact emits_encodeKeepAlive pkt.data.playClientbound.keepAlive
  · rename_i h
    simp only [encodedBytes, h, writtenNumber, payload]
    exact emits_encodeJoinGame env pkt.data.playClientbound.joinGame
  · rename_i h
    simp only [encodedBytes, h, writtenNumber, payload]
    exact emits_encodePluginMessage env pkt.data.playClientbound.pluginMessage
  · rename_i h
    simp only [encodedBytes, h, writtenNumber, payload]
    exact emits_encodeSpawnPosition env pkt.data.playClientbound.spawnPosition
  · rename_i h
    simp only [encodedBytes, h, writtenNumber, payload]
    exact emits_encodePlayerAbilities env pkt.data.playClientbound.playerAbilities
  · rename_i h
    simp only [encodedBytes, h, writtenNumber, payload]
    exact emits_encodePlayerPositionAndLook env pkt.data.playClientbound.playerPositionAndLook
  · exact emits_numberless rfl _ _
  · exact emits_numberless rfl _ _
  · rename_i h
    simp only [encodedBytes, h, writtenNumber, payload]
    exact emits_encodeChunkData env pkt.data.playClientbound.chunkData
  · exact .abort

theorem emits_encodeLogin : Emits (encodeLogin env pkt) (encodedBytes env pkt) := by
  unfold encodeLogin
  dsimp only
  split
  · rename_i h
    simp only [encodedBytes, h, writtenNumber, payload]
    exact emits_encodeLoginDisconnect env pkt.data.loginClientbound.disconnect
  · rename_i h
    simp only [encodedBytes, h, writtenNumber, payload]
    exact emits_encodeEncryptionRequest env pkt.data.loginClientbound.encryptionRequest
  · rename_i h
    simp only [encodedBytes, h, writtenNumber, payload]
    exact @emits_encodeLoginSuccess env pkt.data.loginClientbound.loginSuccess
  · rename_i h
    simp only [encodedBytes, h, writtenNumber, payload]
    exact emits_encodeSetCompression pkt.data.loginClientbound.setCompression
  · exact emits_numberless rfl _ _
  · exact emits_numberless rfl _ _
  · exact emits_encodePlay env pkt

theorem emits_encodeStatus : Emits (encodeStatus env pkt) (encodedBytes env pkt) := by
  unfold encodeStatus
  split
  · rename_i h
    simp only [encodedBytes, h, writtenNumber, payload]
    exact emits_encodePong env pkt.data.status.pong
  · rename_i h
    simp only [encodedBytes, h, writtenNumber, payload]
    exact emits_encodeResponse env pkt.data.status.response
  · exact emits_encodeLogin env pkt

theorem emits_encodeHandshakeState :
    Emits (encodeHandshakeState env pkt) (encodedBytes env pkt) := by
  unfold encodeHandshakeState
  split
  · exact emits_numberless rfl _ _
  · exact emits_encodeStatus env pkt

/-- Whatever state is given, the case of the type is reached by falling through, or the program
ends. -/
theorem emits_encodeBody : Emits (encodeBody env pkt) (encodedBytes env pkt) := by
  unfold encodeBody
  split
  · exact .abort
  · unfold encodeSwitch
    split
    · exact emits_encodeHandshakeState env pkt
    · exact emits_encodeStatus env pkt
    · exact emits_encodeLogin env pkt
    · exact emits_encodePlay env pkt

/-- A packet that is encoded starts with the number of its type, and its fields follow. -/
def Identifiable : Prop :=
  ∀ n, 0 < n → (mcprEncodePacket env pkt).exit = .ret n →
    ∃ byte, mcprPacketTypeToByte pkt.id = some byte ∧
      (mcprEncodePacket env pkt).objects.written =
        mcprEncodeVarint (byte.toBitVec.setWidth 32) ++ payload env pkt

/-- A text can be copied, and its length with the prefix is an `int`. -/
def TextEncodes (s : List UInt8) : Prop :=
  env.malloc 0 = true ∧ (stringBytes s).length ≤ int32Max

theorem stringBytes_length (s : List UInt8) : (stringBytes s).length =
    (mcprEncodeVarint (BitVec.ofNat 32 (strlen s))).length+strlen s := by
  rw [stringBytes, List.length_append, cString_length]

theorem toInt32_nonneg_iff (n : ℕ) (h : n ≤ int32Max+5) : 0 ≤ toInt32 n ↔ n ≤ int32Max := by
  simp only [int32Max] at h ⊢
  rw [toInt32, BitVec.toInt_ofInt, Int.bmod_def]
  split_ifs <;> omega

/-- The encoder gets through a Chat Message if and only if its text can be encoded. -/
theorem encodeChatMessage_ok_iff (p : ClientboundChatMessage) :
    (∃ o, (encodeChatMessage env p).run encodeStart = (.ok (), o)) ↔
      TextEncodes env p.jsonData := by
  have hlen := stringBytes_length p.jsonData
  by_cases h : StringEncodes env encodeStart.mallocs p.jsonData
  · have hfront : (mcprEncodeVarint (BitVec.ofNat 32 (strlen p.jsonData))).length ≤ 5 := by
      rw [mcprEncodeVarint_length]
      exact mcprVarintBounds_le _
    have hsum := toInt32_nonneg_iff (stringBytes p.jsonData).length (by
      have := h.2
      omega)
    rw [hlen, Nat.cast_add] at hsum
    simp only [encodeChatMessage, encodeStringField, bind_run, mcprEncodeString_run env _ _ h]
    split_ifs with hneg
    · refine iff_of_false (by simp) fun ht => ?_
      have := ht.2
      omega
    · refine iff_of_true ⟨_, rfl⟩ ⟨h.1, ?_⟩
      omega
  · obtain ⟨o', hr, -⟩ := mcprEncodeString_run_fails env encodeStart p.jsonData h
    refine iff_of_false (by simp [encodeChatMessage, encodeStringField, hr]) fun ht => h ⟨ht.1, ?_⟩
    have := ht.2
    omega

/-- An encoder that gets to its end reports what it has written. -/
theorem mcprEncodePacket_of_run {o : EncodeObjects}
    (h : (encodeBody env pkt).run encodeStart = (.ok (), o)) :
    (mcprEncodePacket env pkt).exit = .ret (sizeOfNat o.written.length) ∧
      (mcprEncodePacket env pkt).objects = o := by
  simp only [mcprEncodePacket, h]
  exact ⟨rfl, trivial⟩

/-- A count that is not 0 is reported at the end of the encoder only. -/
theorem encodeBody_of_ret {n : UInt64} (hn : n ≠ 0) (h : (mcprEncodePacket env pkt).exit = .ret n) :
    ∃ o, (encodeBody env pkt).run encodeStart = (.ok (), o) ∧ n = sizeOfNat o.written.length := by
  have hemits := emits_encodeBody env pkt encodeStart
  simp only [mcprEncodePacket, encodeExit] at h
  rcases hr : (encodeBody env pkt).run encodeStart with ⟨e | ⟨⟩, o⟩ <;> rw [hr] at h hemits
  · dsimp only at h
    subst h
    exact absurd hemits hn
  · simp only [EncodeExit.ret.injEq] at h
    exact ⟨o, rfl, h.symm⟩

theorem encodeBody_written {o : EncodeObjects}
    (h : (encodeBody env pkt).run encodeStart = (.ok (), o)) : o.written = encodedBytes env pkt := by
  have hemits := emits_encodeBody env pkt encodeStart
  rw [h] at hemits
  exact hemits

/-- What is written of a packet that is encoded, and how much the encoder says it is. -/
theorem mcprEncodePacket_written (n : UInt64) (hn : n ≠ 0)
    (h : (mcprEncodePacket env pkt).exit = .ret n) :
    (mcprEncodePacket env pkt).objects.written = encodedBytes env pkt ∧
      n = sizeOfNat (mcprEncodePacket env pkt).objects.written.length := by
  obtain ⟨o, hr, hlen⟩ := encodeBody_of_ret env pkt hn h
  rw [(mcprEncodePacket_of_run env pkt hr).2]
  exact ⟨encodeBody_written env pkt hr, hlen⟩

/-- A Chat Message that is encoded starts with its text. -/
theorem chatMessage_not_identifiable (hid : pkt.id = .plCbChatMessage)
    (ht : TextEncodes env pkt.data.playClientbound.chatMessage.jsonData) :
    ¬ Identifiable env pkt := by
  have hbody : encodeBody env pkt = encodeChatMessage env pkt.data.playClientbound.chatMessage := by
    rcases pkt with ⟨id, state, data⟩
    subst hid
    cases state <;> rfl
  obtain ⟨o, hr⟩ := (encodeChatMessage_ok_iff env _).mpr ht
  rw [← hbody] at hr
  have hpayload : payload env pkt = stringBytes pkt.data.playClientbound.chatMessage.jsonData ++
      mcprEncodeByte (chatPositionByte pkt.data.playClientbound.chatMessage.position) := by
    simp only [payload, hid]
  have hwritten : o.written = payload env pkt := by
    rw [encodeBody_written env pkt hr, encodedBytes, hid]
    rfl
  have hlen : o.written.length = (stringBytes
      pkt.data.playClientbound.chatMessage.jsonData).length+1 := by
    rw [hwritten, hpayload, List.length_append]
    rfl
  obtain ⟨hexit, hobjects⟩ := mcprEncodePacket_of_run env pkt hr
  intro h
  obtain ⟨byte, -, hw⟩ := h _ (by
    rw [UInt64.lt_iff_toNat_lt, sizeOfNat_toNat, UInt64.toNat_zero]
    have := ht.2
    simp only [int32Max] at this
    omega) hexit
  rw [hobjects, hwritten] at hw
  have hnumber := congrArg List.length hw
  have hpos := mcprVarintBounds_pos (byte.toBitVec.setWidth 32)
  rw [List.length_append, mcprEncodeVarint_length] at hnumber
  omega

/-- Every packet can be told by its first bytes, but for a Chat Message that is encoded. -/
theorem identifiable_iff : Identifiable env pkt ↔ (pkt.id = .plCbChatMessage →
    ¬ TextEncodes env pkt.data.playClientbound.chatMessage.jsonData) := by
  refine ⟨fun h hid ht => chatMessage_not_identifiable env pkt hid ht h, fun h n hn hexit => ?_⟩
  have hne : n ≠ 0 := by
    rintro rfl
    simp at hn
  obtain ⟨o, hr, -⟩ := encodeBody_of_ret env pkt hne hexit
  have hchat : pkt.id ≠ .plCbChatMessage := by
    intro hid
    refine h hid ((encodeChatMessage_ok_iff env _).mp ⟨o, ?_⟩)
    rw [← hr]
    rcases pkt with ⟨id, state, data⟩
    subst hid
    cases state <;> rfl
  rcases hbyte : mcprPacketTypeToByte pkt.id with _ | byte
  · simp [encodeBody, hbyte] at hr
  · refine ⟨byte, rfl, ?_⟩
    have hnumber : writtenNumber pkt.id = mcprEncodeVarint (byte.toBitVec.setWidth 32) := by
      rw [writtenNumber, numberBytes, hbyte]
      exact hchat
    rw [(mcprEncodePacket_written env pkt n hne hexit).1, encodedBytes, hnumber]

end Packet

end Stronk.Mcpr
