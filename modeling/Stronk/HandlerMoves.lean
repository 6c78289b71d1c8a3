import Stronk.PacketHandlers

/-! What the packet handlers can do to a connection at most. The handlers of STATUS and PLAY only
send packets and change the player; the others keep to the connection as well, and none of them
closes it. -/
namespace Stronk.Mcpr
open ByteMemory EarlyExit
variable {κ ρ : Type}

section Log
variable (cipher : Cipher κ) (env : WriteEnv)

/-- Nothing was logged from `o` to `o'` but packets of the type `id` and the bytes sent for them. -/
def LogsOnly (id : Option McprPacketType) (o o' : ConnObjects κ) : Prop :=
  ∃ es, o'.log = o.log ++ es ∧ ∀ t, .writePacket t ∈ es → some t = id

variable {id : Option McprPacketType}

instance : IsPreorder (ConnObjects κ) (LogsOnly id) where
  refl _ := ⟨[], by simp, by simp⟩
  trans o o' o'' h h' := by
    obtain ⟨es, hes, hall⟩ := h
    obtain ⟨es', hes', hall'⟩ := h'
    refine ⟨es ++ es', by rw [hes', hes, List.append_assoc], fun t ht => ?_⟩
    exact (List.mem_append.mp ht).elim (hall t) (hall' t)

theorem LogsOnly.of_log {o o' : ConnObjects κ} (h : o'.log = o.log) : LogsOnly id o o' :=
  ⟨[], by simp [h], by simp⟩

theorem setNinerr_logs (err : Ninerr) : Moves (LogsOnly id) (setNinerr err : ConnProg κ Unit) :=
  Moves.modify fun _ => .of_log rfl

theorem fail_logs (err : Ninerr) {α : Type} (a : α) :
    Moves (LogsOnly id) (do setNinerr err; return a : ConnProg κ α) :=
  (setNinerr_logs err).bind fun _ => Moves.pure a

theorem fwriteStream_logs (bytes : List UInt8) (encrypted : Bool) :
    Moves (LogsOnly id) (fwriteStream env bytes encrypted : ConnProg κ _) :=
  Moves.bind (Moves.modify fun _ => ⟨[.send bytes encrypted], rfl, by simp⟩) fun _ => Moves.pure _

theorem writeCompressed_logs (bytes : List UInt8) (encrypted : Bool) :
    Moves (LogsOnly id) (writeCompressed env bytes encrypted : ConnProg κ _) := by
  refine Moves.ite (fail_logs _ _) (Moves.bind ?_ fun compressed => ?_)
  · unfold mcprCompress
    split
    · exact Moves.pure _
    · exact fail_logs _ _
    · exact Moves.bind (Moves.modify fun _ => .of_log rfl) fun _ => Moves.pure _
  · rcases compressed with _ | compressed
    · exact Moves.pure _
    · exact (fwriteStream_logs env compressed encrypted).bind fun _ =>
        Moves.ite (Moves.pure _) (Moves.pure _)

theorem mcprConnectionWrite_logs (bytes : List UInt8) :
    Moves (LogsOnly id) (mcprConnectionWrite cipher env bytes) := by
  have hcrypt : Moves (LogsOnly id) (mcprCryptoEncrypt cipher env bytes) := by
    refine Moves.get.bind fun o => Moves.ite (fail_logs _ _) ?_
    rcases o.conn.ctxEncrypt with _ | ctx
    · exact Moves.exit _
    · exact Moves.ite (Moves.bind (Moves.modify fun _ => .of_log rfl) fun _ => Moves.pure _)
        (fail_logs _ _)
  have hplain (bytes : List UInt8) (encrypted : Bool) : Moves (LogsOnly id) (do
      let written ← fwriteStream env bytes encrypted
      return decide (written = 1) : ConnProg κ Bool) :=
    (fwriteStream_logs env bytes encrypted).bind fun _ => Moves.pure _
  refine Moves.get.bind fun o => Moves.ite (Moves.ite (fail_logs _ _) (hcrypt.bind fun encrypted => ?_))
    (Moves.ite (writeCompressed_logs env bytes false) (hplain bytes false))
  rcases encrypted with _ | encrypted
  · exact Moves.pure _
  · exact Moves.ite (writeCompressed_logs env encrypted true) (hplain encrypted true)

/-- A packet is logged as what it is. -/
theorem mcprConnectionWritePacket_logs (pkt : McprPacket) :
    Moves (LogsOnly (some pkt.id)) (mcprConnectionWritePacket cipher env pkt) := by
  unfold mcprConnectionWritePacket
  split
  · exact Moves.exit _
  · exact Moves.exit _
  · exact Moves.exit _
  · refine Moves.ite (fail_logs _ _) (Moves.ite (Moves.exit _) ?_)
    refine Moves.bind (Moves.modify fun _ => .of_log rfl) fun _ => ?_
    split
    · exact Moves.exit _
    · exact Moves.exit _
    · refine Moves.ite (Moves.pure _) (Moves.ite (fail_logs _ _) ?_)
      refine (mcprConnectionWrite_logs cipher env _).bind fun ok => Moves.ite ?_ (Moves.pure _)
      exact Moves.bind (Moves.modify fun _ => ⟨[.writePacket pkt.id], rfl, by simp⟩) fun _ =>
        Moves.pure _

theorem mcprConnectionStreamWrite_logs (size : PacketSize) (pkt : McprPacket) (n : ℕ) :
    Moves (LogsOnly (some pkt.id)) (mcprConnectionStreamWrite cipher env size pkt n) :=
  Moves.ite (Moves.exit _) ((mcprConnectionWritePacket_logs cipher env pkt).bind fun _ =>
    Moves.pure _)

/-- The events of a call that logs packets of one type only. -/
theorem LogsOnly.wroteEvents {o o' : ConnObjects κ} (h : LogsOnly id o o') (e : ServerEvent ρ)
    (he : e ∈ wroteEvents ρ o o') : ∃ t, e = .wrote o.conn.state t ∧ some t = id := by
  obtain ⟨es, hes, hall⟩ := h
  simp only [Mcpr.wroteEvents, hes, List.drop_left, List.mem_filterMap] at he
  obtain ⟨e', he', hsome⟩ := he
  cases e' with
  | writePacket t =>
    cases hsome
    exact ⟨t, rfl, hall t he'⟩
  | _ => cases hsome

end Log

section Talks

/-- The packet types that go with an event. -/
def ServerEvent.Sent (ids : McprPacketType → Prop) (state : McprState) : ServerEvent ρ → Prop
  | .fwrite id => ids id
  | .wrote s id => s = state ∧ ids id
  | _ => False

/-- What stays of a player. -/
def Player.identity (player : Player) : List UInt8 × Ninuuid := (player.username, player.uuid)

/-- Packets of the types `ids` were sent, and maybe the player was changed, but not who it is. -/
structure Talks (ids : McprPacketType → Prop) (c c' : Connection κ ρ) : Prop where
  objects : Sends c.objects c'.objects
  player : c'.player.map Player.identity = c.player.map Player.identity
  serverAddressUsed : c'.serverAddressUsed = c.serverAddressUsed
  tmpPresent : c'.tmpPresent = c.tmpPresent
  tmp : c'.tmp = c.tmp
  listed : c'.listed = c.listed
  freed : c'.freed = c.freed
  history : ∃ es, c'.history = c.history ++ es ∧
    ∀ e ∈ es, e = .touch c.isClosed ∨ e.Sent ids c.state

variable {ids : McprPacketType → Prop} {c c' c'' : Connection κ ρ}

theorem Talks.state (h : Talks ids c c') : c'.state = c.state := h.objects.state

theorem Talks.isClosed (h : Talks ids c c') : c'.isClosed = c.isClosed := by
  rw [Connection.isClosed, Connection.isClosed, h.freed, h.objects.isClosed]

theorem Talks.trans (h : Talks ids c c') (h' : Talks ids c' c'') : Talks ids c c'' := by
  obtain ⟨es, hes, hall⟩ := h.history
  obtain ⟨es', hes', hall'⟩ := h'.history
  refine ⟨h.objects.trans h'.objects, h'.player.trans h.player,
    h'.serverAddressUsed.trans h.serverAddressUsed, h'.tmpPresent.trans h.tmpPresent,
    h'.tmp.trans h.tmp, h'.listed.trans h.listed, h'.freed.trans h.freed, es ++ es',
    by rw [hes', hes, List.append_assoc], fun e he => ?_⟩
  rcases List.mem_append.mp he with he | he
  · exact hall e he
  · have := hall' e he
    rwa [h.isClosed, h.state] at this

theorem Talks.refl (c : Connection κ ρ) : Talks ids c c :=
  ⟨refl_of Sends c.objects, rfl, rfl, rfl, rfl, rfl, rfl, [], by simp, by simp⟩

instance : IsPreorder (Connection κ ρ) (Talks ids) where
  refl := Talks.refl
  trans _ _ _ := Talks.trans

theorem Talks.mono {ids' : McprPacketType → Prop} (h : Talks ids c c')
    (hids : ∀ id, ids id → ids' id) : Talks ids' c c' := by
  obtain ⟨es, hes, hall⟩ := h.history
  refine ⟨h.objects, h.player, h.serverAddressUsed, h.tmpPresent, h.tmp, h.listed, h.freed, es, hes,
    fun e he => (hall e he).imp_right fun hsent => ?_⟩
  cases e with
  | fwrite id => exact hids id hsent
  | wrote s id => exact ⟨hsent.1, hids id hsent.2⟩
  | _ => exact hsent

@[simp] theorem note_run (e : ServerEvent ρ) (c : Connection κ ρ) :
    (note e).run c = (.ok (), { c with history := c.history ++ [e] }) := rfl

@[simp] theorem onObjects_run {α : Type} (m : ConnProg κ α) (c : Connection κ ρ) :
    (onObjects m).run c = ((m.run c.objects).1, { c with
      objects := (m.run c.objects).2
      history := c.history ++ wroteEvents ρ c.objects (m.run c.objects).2 }) := rfl

/-- Looking at a connection is noted; one that is freed cannot be looked at. -/
theorem touch_run (c : Connection κ ρ) : touch.run c =
    (if c.freed then .error .undefined else .ok (),
      { c with history := c.history ++ [.touch c.isClosed] }) := by
  simp only [touch, bind_run, get_run, note_run]
  split <;> rfl

theorem Talks.of_history {c c' : Connection κ ρ} (h : c' = { c with history := c'.history })
    (hes : ∃ es, c'.history = c.history ++ es ∧
      ∀ e ∈ es, e = .touch c.isClosed ∨ e.Sent ids c.state) : Talks ids c c' := by
  refine ⟨?_, ?_, ?_, ?_, ?_, ?_, ?_, hes⟩ <;> rw [h]
  exact refl_of Sends c.objects

theorem touch_talks : Moves (Talks ids) (touch : ConnectionProg κ ρ Unit) := by
  intro c
  rw [touch_run]
  exact .of_history rfl ⟨_, rfl, by simp⟩

theorem fwritePacket_talks (cipher : Cipher κ) (w : StreamWrite) (pkt : McprPacket)
    (hid : ids pkt.id) : Moves (Talks ids) (fwritePacket cipher w pkt : ConnectionProg κ ρ Bool) := by
  refine touch_talks.bind fun _ => Moves.bind ?_ fun _ => Moves.bind ?_ fun _ => Moves.pure _
  · intro c
    exact .of_history rfl ⟨_, rfl, by simp [ServerEvent.Sent, hid]⟩
  · intro c
    refine ⟨mcprConnectionStreamWrite_sends cipher w.env _ pkt _ c.objects, rfl, rfl, rfl, rfl, rfl,
      rfl, _, rfl, fun e he => .inr ?_⟩
    obtain ⟨t, rfl, ht⟩ :=
      (mcprConnectionStreamWrite_logs cipher w.env _ pkt _ c.objects).wroteEvents e he
    cases ht
    exact ⟨rfl, hid⟩

theorem setPlayer_talks (f : Player → Player) (hf : ∀ p, (f p).identity = p.identity) :
    Moves (Talks ids) (setPlayer f : ConnectionProg κ ρ Unit) := by
  refine Moves.modify fun c => ⟨refl_of Sends c.objects, ?_, rfl, rfl, rfl, rfl, rfl, [], by simp,
    by simp⟩
  rcases c.player with _ | p
  · rfl
  · simp [hf p]

theorem requirePlayer_talks : Moves (Talks ids) (requirePlayer : ConnectionProg κ ρ Player) := by
  refine Moves.get.bind fun c => ?_
  rcases c.player with _ | p
  · exact Moves.exit _
  · exact Moves.pure _

end Talks

section Handlers
variable (crypto : Crypto κ ρ)

/-- The packets of STATUS. -/
def StatusType (id : McprPacketType) : Prop := id = .stCbResponse ∨ id = .stCbPong

/-- The packets of PLAY that the server sends. -/
def PlayType (id : McprPacketType) : Prop :=
  id ∈ [McprPacketType.plCbJoinGame, .plCbPluginMessage, .plCbSpawnPosition, .plCbPlayerAbilities,
    .plCbChunkData, .plCbPlayerPositionAndLook, .plCbKeepAlive]

theorem handleStRequest_talks (motd : List UInt8) (write : StreamWrite) :
    Moves (Talks StatusType) (handleStRequest crypto motd write) := by
  refine (fwritePacket_talks _ _ _ (.inl rfl)).bind fun sent => Moves.ite (Moves.pure _) ?_
  exact Moves.ite (Moves.pure _) (Moves.pure _)

theorem handleStPing_talks (write : StreamWrite) (pkt : McprPacket) :
    Moves (Talks StatusType) (handleStPing crypto write pkt) := by
  refine (fwritePacket_talks _ _ _ (.inr rfl)).bind fun sent => Moves.ite (Moves.pure _) ?_
  exact Moves.ite (Moves.pure _) (Moves.pure _)

theorem sendEach_talks {ids : McprPacketType → Prop} (packets : List (StreamWrite × McprPacket))
    (hids : ∀ p ∈ packets, ids p.2.id) : Moves (Talks ids) (sendEach crypto packets) := by
  induction packets with
  | nil => exact Moves.pure _
  | cons p packets ih =>
    refine (fwritePacket_talks _ _ _ (hids p List.mem_cons_self)).bind fun sent => Moves.ite ?_ ?_
    · exact ih fun q hq => hids q (List.mem_cons_of_mem _ hq)
    · exact Moves.ite (Moves.pure _) (Moves.pure _)

theorem sendPostLoginSequence_talks (env : SequenceEnv) :
    Moves (Talks PlayType) (sendPostLoginSequence crypto env) := by
  refine requirePlayer_talks.bind fun player => sendEach_talks crypto _ fun p hp => ?_
  simp only [List.mem_cons, List.not_mem_nil, or_false] at hp
  rcases hp with rfl | rfl | rfl | rfl
  all_goals simp [PlayType, joinGamePacket, brandMessage, spawnPositionPacket, playerAbilitiesPacket]

theorem handlePlKeepAlive_talks (clock : Timespec) :
    Moves (Talks PlayType) (handlePlKeepAlive clock : ConnectionProg κ ρ HpResult) :=
  requirePlayer_talks.bind fun _ =>
    Moves.bind (setPlayer_talks _ fun _ => rfl) fun _ => Moves.pure _

theorem handlePlPluginMessage_talks (env : PluginMessageEnv) (pkt : McprPacket) :
    Moves (Talks PlayType) (handlePlPluginMessage env pkt : ConnectionProg κ ρ HpResult) := by
  refine Moves.ite (Moves.ite (Moves.pure _) ?_) (Moves.pure _)
  split
  · exact Moves.exit _
  · exact Moves.pure _
  · exact requirePlayer_talks.bind fun _ => Moves.bind (setPlayer_talks _ fun _ => rfl) fun _ =>
      Moves.pure _

theorem sendChunks_talks (host : Endian) (chunks : BitVec 64 → BitVec 64 → ChunkSend)
    (positions : List (BitVec 64 × BitVec 64)) :
    Moves (Talks PlayType) (sendChunks crypto host chunks positions) := by
  induction positions with
  | nil => exact Moves.pure _
  | cons p positions ih =>
    refine Moves.bind (Moves.ite (Moves.pure _) ?_) fun _ => ih
    split
    · exact Moves.exit _
    · exact fwritePacket_talks _ _ _ (by simp [PlayType, chunkDataPacket])

theorem positionAndLook_talks (write : StreamWrite) (player : Player) :
    Moves (Talks PlayType)
      (fwritePacket crypto.cipher write (playerPositionAndLookPacket player) : ConnectionProg κ ρ _) :=
  fwritePacket_talks _ _ _ (by simp [PlayType, playerPositionAndLookPacket])

theorem handlePlClientSettings_talks (env : ClientSettingsEnv) (pkt : McprPacket) :
    Moves (Talks PlayType) (handlePlClientSettings crypto env pkt) := by
  refine requirePlayer_talks.bind fun _ => Moves.bind (setPlayer_talks _ fun _ => rfl) fun _ => ?_
  refine (sendChunks_talks crypto _ _ _).bind fun _ => requirePlayer_talks.bind fun player => ?_
  refine (positionAndLook_talks crypto _ player).bind fun sent => Moves.ite ?_ ?_
  · split
    · exact Moves.pure _
    · split
      · exact Moves.exit _
      · exact Moves.pure _
  · exact Moves.bind (setPlayer_talks _ fun _ => rfl) fun _ => Moves.pure _

theorem handlePlTeleportConfirm_talks (write : StreamWrite) :
    Moves (Talks PlayType) (handlePlTeleportConfirm crypto write) := by
  have hcount : Moves (Talks PlayType) (countTeleport : ConnectionProg κ ρ HpResult) := by
    refine requirePlayer_talks.bind fun player => Moves.ite (Moves.exit _) ?_
    exact Moves.bind (setPlayer_talks _ fun _ => rfl) fun _ => Moves.pure _
  refine requirePlayer_talks.bind fun player => Moves.ite ?_ hcount
  refine (positionAndLook_talks crypto _ player).bind fun sent => Moves.ite hcount ?_
  exact Moves.ite (Moves.pure _) (Moves.pure _)

theorem handlePlChatMessage_talks (pkt : McprPacket) :
    Moves (Talks PlayType) (handlePlChatMessage pkt : ConnectionProg κ ρ HpResult) :=
  Moves.ite (Moves.exit _) (Moves.pure _)

theorem handlePlHeldItemChange_talks (pkt : McprPacket) :
    Moves (Talks PlayType) (handlePlHeldItemChange pkt : ConnectionProg κ ρ HpResult) :=
  requirePlayer_talks.bind fun _ =>
    Moves.bind (setPlayer_talks _ fun _ => rfl) fun _ => Moves.pure _

/-- In PLAY, whatever the packet. -/
theorem handlePacket_play_talks (env : HandlerEnv ρ) (pkt : McprPacket) :
    Moves (Talks PlayType) (handlePacket crypto env pkt .play) := by
  unfold handlePacket
  cases pkt.id
  case plSbTeleportConfirm => exact handlePlTeleportConfirm_talks crypto _
  case plSbChatMessage => exact handlePlChatMessage_talks pkt
  case plSbClientSettings => exact handlePlClientSettings_talks crypto _ pkt
  case plSbPluginMessage => exact handlePlPluginMessage_talks _ pkt
  case plSbKeepAlive => exact handlePlKeepAlive_talks _
  case plSbHeldItemChange => exact handlePlHeldItemChange_talks pkt
  -- the others leave the connection alone
  all_goals exact fun c => Talks.refl c

/-- In STATUS, whatever the packet. -/
theorem handlePacket_status_talks (env : HandlerEnv ρ) (pkt : McprPacket) :
    Moves (Talks StatusType) (handlePacket crypto env pkt .status) := by
  unfold handlePacket
  cases pkt.id
  case stSbRequest => exact handleStRequest_talks crypto _ _
  case stSbPing => exact handleStPing_talks crypto _ pkt
  all_goals exact Moves.exit _

end Handlers

section Handshake

@[simp] theorem setState_run (state : McprState) (c : Connection κ ρ) : (setState state).run c =
    (.ok (), { c with
      objects := { c.objects with conn := { c.objects.conn with state := state } }
      history := c.history ++ [.setState state] }) := by
  simp [setState, onObjects_run, mcprConnectionSetState, setConn, wroteEvents]

/-- From `c` to `c'` a Handshake was handled, with the result `r`. -/
structure Greets (pkt : McprPacket) (c c' : Connection κ ρ) (r : HpResult) : Prop where
  objects : c'.objects = { c.objects with conn :=
    { c.objects.conn with state := pkt.data.handshake.nextState } }
  player : c'.player = c.player
  tmpPresent : c'.tmpPresent = c.tmpPresent
  tmp : c'.tmp = c.tmp
  listed : c'.listed = c.listed
  freed : c'.freed = c.freed
  history : c'.history = c.history ++ [.handshake (cString pkt.data.handshake.serverAddress),
    .setState pkt.data.handshake.nextState]
  result : r.result = .ok ∨ r.result = .fatal
  address : r.result = .ok →
    c'.serverAddressUsed = some (cString pkt.data.handshake.serverAddress)

/-- The handler of a Handshake always returns. -/
theorem handleHsHandshake_greets (env : HandshakeEnv) (pkt : McprPacket) (c : Connection κ ρ) :
    ∃ r c', (handleHsHandshake env pkt).run c = (.ok r, c') ∧ Greets pkt c c' r := by
  have hfatal (message : Option (List UInt8)) : Greets pkt c { c with
      objects := { c.objects with conn :=
        { c.objects.conn with state := pkt.data.handshake.nextState } }
      history := c.history ++ [.handshake (cString pkt.data.handshake.serverAddress),
        .setState pkt.data.handshake.nextState] } { result := .fatal, disconnectMessage := message } :=
    ⟨rfl, rfl, rfl, rfl, rfl, rfl, rfl, .inr rfl, fun h => by cases h⟩
  simp only [handleHsHandshake, bind_run, note_run, setState_run, get_run, ite_run, pure_run,
    modify_run, List.append_assoc, List.cons_append, List.nil_append]
  split_ifs
  · exact ⟨_, _, rfl, hfatal _⟩
  · exact ⟨_, _, rfl, hfatal _⟩
  · exact ⟨_, _, rfl, hfatal _⟩
  · exact ⟨_, _, rfl, rfl, rfl, rfl, rfl, rfl, rfl, rfl, .inl rfl, fun _ => rfl⟩

end Handshake

section Login
variable (crypto : Crypto κ ρ)

/-- The events of a login that are neither packets nor a change of the state. -/
def ServerEvent.OfLogin : ServerEvent ρ → Prop
  | .loginStart _ => True
  | .issueToken _ _ => True
  | .encryptionResponse _ => True
  | .useTmp _ => True
  | .hasJoined _ _ _ _ => True
  | _ => False

/-- Packets of the types `ids` were sent, and maybe `tmp` was used or changed. -/
structure Works (ids : McprPacketType → Prop) (c c' : Connection κ ρ) : Prop where
  objects : Sends c.objects c'.objects
  player : c'.player = c.player
  serverAddressUsed : c'.serverAddressUsed = c.serverAddressUsed
  listed : c'.listed = c.listed
  freed : c'.freed = c.freed
  history : ∃ es, c'.history = c.history ++ es ∧
    ∀ e ∈ es, e = .touch c.isClosed ∨ e.Sent ids c.state ∨ e.OfLogin

variable {ids : McprPacketType → Prop} {c c' c'' : Connection κ ρ}

theorem Works.state (h : Works ids c c') : c'.state = c.state := h.objects.state

theorem Works.isClosed (h : Works ids c c') : c'.isClosed = c.isClosed := by
  rw [Connection.isClosed, Connection.isClosed, h.freed, h.objects.isClosed]

theorem Works.trans (h : Works ids c c') (h' : Works ids c' c'') : Works ids c c'' := by
  obtain ⟨es, hes, hall⟩ := h.history
  obtain ⟨es', hes', hall'⟩ := h'.history
  refine ⟨h.objects.trans h'.objects, h'.player.trans h.player,
    h'.serverAddressUsed.trans h.serverAddressUsed, h'.listed.trans h.listed,
    h'.freed.trans h.freed, es ++ es', by rw [hes', hes, List.append_assoc], fun e he => ?_⟩
  rcases List.mem_append.mp he with he | he
  · exact hall e he
  · have := hall' e he
    rwa [h.isClosed, h.state] at this

instance : IsPreorder (Connection κ ρ) (Works ids) where
  refl c := ⟨refl_of Sends c.objects, rfl, rfl, rfl, rfl, [], by simp, by simp⟩
  trans _ _ _ := Works.trans

theorem note_works (e : ServerEvent ρ) (he : e.OfLogin) :
    Moves (Works ids) (note e : ConnectionProg κ ρ Unit) := fun c =>
  ⟨refl_of Sends c.objects, rfl, rfl, rfl, rfl, [e], rfl, by simp [he]⟩

theorem tmp_works (present : Connection κ ρ → Bool) (f : Connection κ ρ → Tmp ρ) :
    Moves (Works ids) (modify fun c => { c with tmpPresent := present c, tmp := f c } :
      ConnectionProg κ ρ Unit) := fun c =>
  ⟨refl_of Sends c.objects, rfl, rfl, rfl, rfl, [], by simp, by simp⟩

theorem fwritePacket_works (cipher : Cipher κ) (w : StreamWrite) (pkt : McprPacket)
    (hid : ids pkt.id) :
    Moves (Works ids) (fwritePacket cipher w pkt : ConnectionProg κ ρ Bool) := by
  have htouch : Moves (Works ids) (touch : ConnectionProg κ ρ Unit) := by
    intro c
    rw [touch_run]
    exact ⟨refl_of Sends c.objects, rfl, rfl, rfl, rfl, _, rfl, by simp⟩
  refine htouch.bind fun _ => Moves.bind (fun c => ?_) fun _ => Moves.bind (fun c => ?_)
    fun _ => Moves.pure _
  · exact ⟨refl_of Sends c.objects, rfl, rfl, rfl, rfl, [.fwrite pkt.id], rfl,
      by simp [ServerEvent.Sent, hid]⟩
  · refine ⟨mcprConnectionStreamWrite_sends cipher w.env _ pkt _ c.objects, rfl, rfl, rfl, rfl, _,
      rfl, fun e he => .inr (.inl ?_)⟩
    obtain ⟨t, rfl, ht⟩ :=
      (mcprConnectionStreamWrite_logs cipher w.env _ pkt _ c.objects).wroteEvents e he
    cases ht
    exact ⟨rfl, hid⟩

theorem useTmp_works {α : Type} (member : Tmp ρ → Slot α) :
    Moves (Works ids) (useTmp member : ConnectionProg κ ρ α) := by
  refine Moves.get.bind fun c => ?_
  split
  · exact (note_works (.useTmp true) trivial).bind fun _ => Moves.pure _
  · exact (note_works (.useTmp false) trivial).bind fun _ => Moves.exit _

theorem releaseTmp_works {α : Type} (member : Tmp ρ → Slot α) (release : Tmp ρ → Tmp ρ) :
    Moves (Works ids) (releaseTmp member release : ConnectionProg κ ρ Unit) :=
  (useTmp_works member).bind fun _ => tmp_works (fun c => c.tmpPresent) fun c => release c.tmp

theorem releaseLogin_works : Moves (Works ids) (releaseLogin : ConnectionProg κ ρ Unit) :=
  (releaseTmp_works _ _).bind fun _ => releaseTmp_works _ _

theorem clearTmpPresent_works : Moves (Works ids) (clearTmpPresent : ConnectionProg κ ρ Unit) :=
  tmp_works (fun _ => false) fun c => c.tmp

theorem responseClosed_works : Moves (Works ids) (responseClosed : ConnectionProg κ ρ HpResult) :=
  releaseLogin_works.bind fun _ => (releaseTmp_works _ _).bind fun _ =>
    clearTmpPresent_works.bind fun _ => Moves.pure _

theorem responseDone_works : Moves (Works ids) (responseDone : ConnectionProg κ ρ HpResult) :=
  releaseLogin_works.bind fun _ => clearTmpPresent_works.bind fun _ => Moves.pure _

theorem responseError_works (env : EncryptionResponseEnv) :
    Moves (Works ids) (responseError env : ConnectionProg κ ρ HpResult) :=
  releaseLogin_works.bind fun _ => (releaseTmp_works _ _).bind fun _ =>
    clearTmpPresent_works.bind fun _ => Moves.pure _

theorem decryptSharedSecret_works (env : EncryptionResponseEnv) (response : EncryptionResponse) :
    Moves (Works ids) (decryptSharedSecret crypto env response) := by
  refine (useTmp_works _).bind fun rsa => ?_
  rcases rsa with _ | key
  · exact Moves.exit _
  · exact Moves.ite (Moves.pure _) (Moves.ite (Moves.pure _) (Moves.pure _))

theorem joinSession_works (env : EncryptionResponseEnv) (secret : List UInt8) :
    Moves (Works ids) (joinSession crypto env secret) := by
  refine (useTmp_works _).bind fun rsa => ?_
  split
  · exact Moves.pure _
  · refine Moves.ite (Moves.pure _) ((useTmp_works _).bind fun username => Moves.get.bind fun c => ?_)
    split
    · exact Moves.pure _
    · exact (note_works (.hasJoined _ _ _ _) trivial).bind fun _ => Moves.pure _

theorem requestEncryption_works (env : LoginStartEnv ρ) (username : List UInt8) :
    Moves (Works fun id => id = .lgCbEncryptionRequest) (requestEncryption crypto env username) := by
  unfold requestEncryption
  split
  · exact Moves.pure _
  · refine Moves.ite (Moves.pure _) ?_
    split
    · exact Moves.pure _
    · refine Moves.bind (fwritePacket_works _ _ _ ?_) fun sent => ?_
      · rfl
      refine Moves.ite (Moves.ite (Moves.pure _) (Moves.pure _)) (Moves.ite (Moves.pure _) ?_)
      exact (tmp_works (fun _ => true) fun _ => _).bind fun _ =>
        (note_works (.issueToken _ _) trivial).bind fun _ => Moves.pure _

theorem handleLgLoginStart_works (env : LoginStartEnv ρ) (pkt : McprPacket) :
    Moves (Works fun id => id = .lgCbEncryptionRequest) (handleLgLoginStart crypto env pkt) := by
  refine (note_works (.loginStart _) trivial).bind fun _ => ?_
  refine (tmp_works (fun c => c.tmpPresent) fun _ => _).bind fun _ => ?_
  -- the client always has to prove who it is
  exact requestEncryption_works crypto env _

end Login

section Handles
variable (crypto : Crypto κ ρ)

/-- The connection is neither closed nor taken off the list, and was used only as it is. -/
structure Handles (c c' : Connection κ ρ) : Prop where
  listed : c'.listed = c.listed
  freed : c'.freed = c.freed
  isClosed : c'.objects.conn.isClosed = c.objects.conn.isClosed
  history : ∃ es, c'.history = c.history ++ es ∧
    ∀ e ∈ es, e ≠ .connectionClose ∧ ∀ closed, e = .touch closed → closed = c.isClosed

variable {ids : McprPacketType → Prop} {c c' c'' : Connection κ ρ}

theorem Handles.closed (h : Handles c c') : c'.isClosed = c.isClosed := by
  rw [Connection.isClosed, Connection.isClosed, h.freed, h.isClosed]

theorem Handles.trans (h : Handles c c') (h' : Handles c' c'') : Handles c c'' := by
  obtain ⟨es, hes, hall⟩ := h.history
  obtain ⟨es', hes', hall'⟩ := h'.history
  refine ⟨h'.listed.trans h.listed, h'.freed.trans h.freed, h'.isClosed.trans h.isClosed,
    es ++ es', by rw [hes', hes, List.append_assoc], fun e he => ?_⟩
  rcases List.mem_append.mp he with he | he
  · exact hall e he
  · have := hall' e he
    rwa [h.closed] at this

instance : IsPreorder (Connection κ ρ) Handles where
  refl c := ⟨rfl, rfl, rfl, [], by simp, by simp⟩
  trans _ _ _ := Handles.trans

theorem ServerEvent.Sent.quiet {state : McprState} {e : ServerEvent ρ} (h : e.Sent ids state)
    (now : Bool) : e ≠ .connectionClose ∧ ∀ closed, e = .touch closed → closed = now := by
  cases e <;> first
    | exact h.elim
    | exact ⟨nofun, nofun⟩

theorem ServerEvent.OfLogin.quiet {e : ServerEvent ρ} (h : e.OfLogin) (now : Bool) :
    e ≠ .connectionClose ∧ ∀ closed, e = .touch closed → closed = now := by
  cases e <;> first
    | exact h.elim
    | exact ⟨nofun, nofun⟩

theorem Talks.handles (h : Talks ids c c') : Handles c c' := by
  obtain ⟨es, hes, hall⟩ := h.history
  refine ⟨h.listed, h.freed, h.objects.isClosed, es, hes, fun e he => ?_⟩
  rcases hall e he with rfl | hsent
  · exact ⟨nofun, fun closed h => by cases h; rfl⟩
  · exact hsent.quiet _

theorem Works.handles (h : Works ids c c') : Handles c c' := by
  obtain ⟨es, hes, hall⟩ := h.history
  refine ⟨h.listed, h.freed, h.objects.isClosed, es, hes, fun e he => ?_⟩
  rcases hall e he with rfl | hsent | hlogin
  · exact ⟨nofun, fun closed h => by cases h; rfl⟩
  · exact hsent.quiet _
  · exact hlogin.quiet _

theorem handles_of_talks {α : Type} {m : ConnectionProg κ ρ α} (h : Moves (Talks ids) m) :
    Moves Handles m := fun c => (h c).handles

theorem handles_of_works {α : Type} {m : ConnectionProg κ ρ α} (h : Moves (Works ids) m) :
    Moves Handles m := fun c => (h c).handles

theorem handleHsHandshake_handles (env : HandshakeEnv) (pkt : McprPacket) :
    Moves Handles (handleHsHandshake env pkt : ConnectionProg κ ρ HpResult) := by
  intro c
  obtain ⟨r, c', hr, hg⟩ := handleHsHandshake_greets env pkt c
  rw [hr]
  refine ⟨hg.listed, hg.freed, by rw [hg.objects], _, hg.history, fun e he => ?_⟩
  simp only [List.mem_cons, List.not_mem_nil, or_false] at he
  rcases he with rfl | rfl <;> exact ⟨nofun, nofun⟩

theorem setState_handles {s : McprState} :
    Moves Handles (setState s : ConnectionProg κ ρ Unit) := by
  intro c
  rw [setState_run]
  exact ⟨rfl, rfl, rfl, [.setState s], rfl, by simp⟩

theorem setCrypto_handles {ctx ctx' : κ} : Moves Handles
    (onObjects (mcprConnectionSetCrypto ctx ctx') : ConnectionProg κ ρ Unit) := by
  intro c
  refine ⟨rfl, rfl, rfl, [], ?_, by simp⟩
  simp [wroteEvents, mcprConnectionSetCrypto, setConn, record]

theorem createPlayer_handles (env : PlayerEnv) (uuid : Ninuuid) :
    Moves Handles (createPlayer env uuid : ConnectionProg κ ρ Bool) := by
  unfold createPlayer
  split
  · exact Moves.pure _
  · have hname : Moves Handles (useTmp Tmp.username : ConnectionProg κ ρ (List UInt8)) := fun c =>
      Works.handles (useTmp_works Tmp.username c : Works (fun _ => True) c _)
    refine hname.bind fun username => Moves.bind (fun c => ?_) fun _ => Moves.pure _
    exact ⟨rfl, rfl, rfl, [], by simp, by simp⟩

theorem enterPlay_handles (env : EncryptionResponseEnv) (id : Ninuuid) :
    Moves Handles (enterPlay crypto env id) := by
  have hworks {α : Type} {m : ConnectionProg κ ρ α} (h : Moves (Works fun _ => True) m) :
      Moves Handles m := handles_of_works h
  refine (hworks (useTmp_works _)).bind fun username => ?_
  refine (hworks (fwritePacket_works _ _ _ trivial)).bind fun sent => Moves.ite ?_ ?_
  · refine Moves.ite (Moves.exit _) (Moves.ite (hworks responseClosed_works) ?_)
    exact hworks (responseError_works env)
  · refine setState_handles.bind fun _ => (createPlayer_handles _ _).bind fun created => ?_
    refine Moves.ite (hworks (responseError_works env)) ?_
    refine (handles_of_talks (sendPostLoginSequence_talks crypto env.sequence)).bind fun result => ?_
    refine Moves.ite (hworks (responseError_works env)) (Moves.ite ?_ ?_)
    · exact hworks responseClosed_works
    · exact hworks responseDone_works

theorem handleLgEncryptionResponse_handles (env : EncryptionResponseEnv) (pkt : McprPacket) :
    Moves Handles (handleLgEncryptionResponse crypto env pkt) := by
  have hworks {α : Type} {m : ConnectionProg κ ρ α} (h : Moves (Works fun _ => True) m) :
      Moves Handles m := handles_of_works h
  have herror : Moves Handles (responseError env : ConnectionProg κ ρ HpResult) :=
    hworks (responseError_works env)
  refine (hworks (note_works (.encryptionResponse _) trivial)).bind fun _ => Moves.get.bind fun c => ?_
  refine Moves.ite (Moves.pure _) ?_
  refine (hworks (decryptSharedSecret_works crypto env _)).bind fun secret => ?_
  rcases secret with _ | secret
  · exact herror
  · refine Moves.ite herror (setCrypto_handles.bind fun _ => ?_)
    refine (hworks (joinSession_works crypto env secret)).bind fun joined => ?_
    rcases joined with _ | id
    · exact herror
    · exact enterPlay_handles crypto env id

/-- Whatever the packet and the state, no handler closes the connection. -/
theorem handlePacket_handles (env : HandlerEnv ρ) (pkt : McprPacket) (s : McprState) :
    Moves Handles (handlePacket crypto env pkt s) := by
  cases s with
  | handshake =>
    unfold handlePacket
    cases pkt.id
    case hsSbHandshake => exact handleHsHandshake_handles env.handshake pkt
    all_goals exact Moves.exit _
  | status => exact handles_of_talks (handlePacket_status_talks crypto env pkt)
  | login =>
    unfold handlePacket
    cases pkt.id
    case lgSbLoginStart => exact handles_of_works (handleLgLoginStart_works crypto env.loginStart pkt)
    case lgSbEncryptionResponse =>
      exact handleLgEncryptionResponse_handles crypto env.encryptionResponse pkt
    all_goals exact Moves.exit _
  | play => exact handles_of_talks (handlePacket_play_talks crypto env pkt)

end Handles

section Rule

/-- The result has the connection closed. -/
def HpResult.Closes (r : HpResult) : Prop := r.result = .fatal ∨ r.result = .closed

/-- The parts of `packet_handler` put together. -/
theorem packetHandler_ensures {crypto : Crypto κ ρ} {A I F J E : Connection κ ρ → Prop}
    {env : HandlerEnv ρ} {pkt : McprPacket}
    (htouch : Ensures A (touch : ConnectionProg κ ρ Unit) (fun _ => I) E)
    (hhandle : ∀ s, Ensures (fun c => I c ∧ c.state = s) (handlePacket crypto env pkt s)
      (fun r c => (r.Closes → F c) ∧ (¬ r.Closes → J c)) E)
    (hclose : ∀ message, Ensures F (connectionClose crypto.cipher env.close message :
      ConnectionProg κ ρ Unit) (fun _ => J) E) :
    Ensures A (packetHandler crypto env pkt) (fun _ => J) E := by
  refine htouch.bind fun _ => Ensures.bind (Q := fun c0 c => I c ∧ c.state = c0.state)
    (Ensures.get fun c hc => ⟨hc, rfl⟩) fun c0 => (hhandle c0.state).bind fun r => ?_
  refine Ensures.ite (fun hcloses => ?_) fun hopen => Ensures.pure fun c hc => hc.2 hopen
  have hclosed : Ensures (fun c => (r.Closes → F c) ∧ (¬ r.Closes → J c))
      (connectionClose crypto.cipher env.close r.disconnectMessage) (fun _ => J) E :=
    (hclose r.disconnectMessage).mono (fun c hc => hc.1 hcloses) (fun _ _ h => h) fun _ h => h
  exact hclosed.bind fun _ => Ensures.pure fun _ h => h

end Rule

end Stronk.Mcpr
