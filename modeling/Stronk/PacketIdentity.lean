import Stronk.EncodedPackets
import Stronk.UpdateClient

/-! Whether the other side can tell what it is sent: the number a packet goes out with has to be
the one that its meaning has in the state of the connection. -/
namespace Stronk.Mcpr
open ByteMemory EarlyExit
variable {κ ρ : Type}

section Meaning

/-- The type that a packet with the meaning of `id` has in a state. -/
def meantIn (state : McprState) (id : McprPacketType) : Option McprPacketType :=
  match state with
  | .handshake => none
  | .status =>
    match id with
    | .stCbResponse => some .stCbResponse
    | .stCbPong => some .stCbPong
    | _ => none
  | .login =>
    match id with
    | .lgCbDisconnect => some .lgCbDisconnect
    | .plCbDisconnect => some .lgCbDisconnect
    | .lgCbEncryptionRequest => some .lgCbEncryptionRequest
    | .lgCbLoginSuccess => some .lgCbLoginSuccess
    | .lgCbSetCompression => some .lgCbSetCompression
    | _ => none
  | .play =>
    match id with
    | .lgCbDisconnect => some .plCbDisconnect
    | .plCbDisconnect => some .plCbDisconnect
    | .plCbKeepAlive => some .plCbKeepAlive
    | .plCbJoinGame => some .plCbJoinGame
    | .plCbPluginMessage => some .plCbPluginMessage
    | .plCbSpawnPosition => some .plCbSpawnPosition
    | .plCbChunkData => some .plCbChunkData
    | .plCbPlayerAbilities => some .plCbPlayerAbilities
    | .plCbPlayerPositionAndLook => some .plCbPlayerPositionAndLook
    | .plCbChatMessage => some .plCbChatMessage
    | _ => none

/-- A packet of the type `id` goes out with the number that its meaning has in the state. -/
def RightNumber (state : McprState) (id : McprPacketType) : Prop :=
  ∃ meant byte, meantIn state id = some meant ∧ mcprPacketTypeToByte meant = some byte ∧
    mcprPacketTypeToByte id = some byte

/-- The packets that the server writes in a state. -/
def WrittenIn (state : McprState) (id : McprPacketType) : Prop :=
  match state with
  | .handshake => False
  | .status => StatusType id
  | .login => id = .lgCbEncryptionRequest ∨ id = .lgCbLoginSuccess ∨ id = .plCbDisconnect
  | .play => PlayType id ∨ id = .plCbDisconnect

/-- Of all these, only the Disconnect of LOGIN has the number of another packet. -/
theorem WrittenIn.rightNumber_iff {state : McprState} {id : McprPacketType}
    (h : WrittenIn state id) : RightNumber state id ↔ ¬ (state = .login ∧ id = .plCbDisconnect) := by
  cases state with
  | handshake => exact h.elim
  | status =>
    refine iff_of_true ?_ (by simp)
    rcases h with rfl | rfl <;> exact ⟨_, _, rfl, rfl, rfl⟩
  | login =>
    rcases h with rfl | rfl | rfl
    · exact iff_of_true ⟨_, _, rfl, rfl, rfl⟩ (by simp)
    · exact iff_of_true ⟨_, _, rfl, rfl, rfl⟩ (by simp)
    · refine iff_of_false ?_ (by simp)
      rintro ⟨meant, byte, hmeant, hbyte, hid⟩
      cases hmeant
      cases hbyte
      cases hid
  | play =>
    refine iff_of_true ?_ (by simp)
    rcases h with h | rfl
    · simp only [PlayType, List.mem_cons, List.not_mem_nil, or_false] at h
      rcases h with rfl | rfl | rfl | rfl | rfl | rfl | rfl <;> exact ⟨_, _, rfl, rfl, rfl⟩
    · exact ⟨_, _, rfl, rfl, rfl⟩

end Meaning

section Runs
variable (crypto : Crypto κ ρ)

/-- Every packet that went out belongs to the state it went out in, and there is a player in PLAY
only. -/
structure Numbered (c : Connection κ ρ) : Prop where
  written : ∀ state id, .wrote state id ∈ c.history → WrittenIn state id
  player : c.player.isSome = true → c.state = .play

variable {crypto} {c c' : Connection κ ρ} {ids : McprPacketType → Prop} {s : McprState}

theorem Numbered.of_events {es : List (ServerEvent ρ)} (h : Numbered c)
    (hes : c'.history = c.history ++ es)
    (hw : ∀ state id, .wrote state id ∈ es → WrittenIn state id)
    (hp : c'.player.isSome = true → c'.state = .play) : Numbered c' := by
  refine ⟨fun state id hid => ?_, hp⟩
  rw [hes] at hid
  exact (List.mem_append.mp hid).elim (h.written state id) (hw state id)

theorem Talks.numbered (h : Talks ids c c') (hn : Numbered c)
    (hids : ∀ id, ids id → WrittenIn c.state id) : Numbered c' := by
  obtain ⟨es, hes, hall⟩ := h.history
  refine hn.of_events hes (fun state id hid => ?_) fun hp => ?_
  · rcases hall _ hid with he | ⟨rfl, hsent⟩
    · cases he
    · exact hids id hsent
  · rw [h.state]
    refine hn.player ?_
    have := congrArg Option.isSome h.player
    rwa [Option.isSome_map, Option.isSome_map, hp, eq_comm] at this

theorem Works.numbered (h : Works ids c c') (hn : Numbered c)
    (hids : ∀ id, ids id → WrittenIn c.state id) : Numbered c' := by
  obtain ⟨es, hes, hall⟩ := h.history
  refine hn.of_events hes (fun state id hid => ?_) fun hp => ?_
  · rcases hall _ hid with he | ⟨rfl, hsent⟩ | he
    · cases he
    · exact hids id hsent
    · exact he.elim
  · rw [h.state]
    rw [h.player] at hp
    exact hn.player hp

theorem Winds.numbered (h : Winds c c') (hn : Numbered c) : Numbered c' := by
  obtain ⟨es, hes, hall⟩ := h.history
  refine hn.of_events hes (fun state id hid => ?_) fun hp => ?_
  · rcases hall _ hid with ⟨closed, he⟩ | he | ⟨he, ht⟩
    · cases he
    · cases he
    · cases he
      rcases ht with ht | ht
      · rw [ht]
        exact .inr (.inr rfl)
      · rw [ht]
        exact .inr rfl
  · rw [h.state]
    rw [h.player] at hp
    exact hn.player hp

/-- `Numbered`, in a state that is known. -/
def NumberedIn (s : McprState) (c : Connection κ ρ) : Prop := Numbered c ∧ c.state = s

theorem numbered_of_talks {α : Type} {m : ConnectionProg κ ρ α} (h : Moves (Talks ids) m)
    (hids : ∀ id, ids id → WrittenIn s id) :
    Ensures (NumberedIn s) m (fun _ => NumberedIn s) Numbered := by
  refine Ensures.of_moves h fun c c' hc ht => ?_
  obtain ⟨hn, rfl⟩ := hc
  have hn' := ht.numbered hn hids
  exact ⟨fun _ => ⟨hn', ht.state⟩, hn'⟩

theorem numbered_of_works {α : Type} {m : ConnectionProg κ ρ α}
    (ids : McprPacketType → Prop) (h : Moves (Works ids) m)
    (hids : ∀ id, ids id → WrittenIn s id) :
    Ensures (NumberedIn s) m (fun _ => NumberedIn s) Numbered := by
  refine Ensures.of_moves h fun c c' hc hw => ?_
  obtain ⟨hn, rfl⟩ := hc
  have hn' := hw.numbered hn hids
  exact ⟨fun _ => ⟨hn', hw.state⟩, hn'⟩

theorem numbered_of_winds {α : Type} {m : ConnectionProg κ ρ α} (h : Moves Winds m) :
    Keeps Numbered m := fun c hc => (h c).numbered hc

variable (crypto)

/-- The packets of a login. -/
def LoginType (id : McprPacketType) : Prop := id = .lgCbEncryptionRequest ∨ id = .lgCbLoginSuccess

theorem LoginType.writtenIn {id : McprPacketType} (h : LoginType id) : WrittenIn .login id :=
  h.elim .inl fun h => .inr (.inl h)

theorem handleHsHandshake_numbered (env : HandshakeEnv) (pkt : McprPacket) :
    Ensures (NumberedIn .handshake) (handleHsHandshake env pkt : ConnectionProg κ ρ HpResult)
      (fun _ => Numbered) Numbered := by
  rintro c ⟨hn, hs⟩
  obtain ⟨r, c', hr, hg⟩ := handleHsHandshake_greets env pkt c
  have hplayer : c.player.isSome = false := by
    rcases hp : c.player.isSome with _ | _
    · rfl
    · have := hn.player hp
      rw [hs] at this
      cases this
  have hn' : Numbered c' := by
    refine hn.of_events hg.history (by simp) fun hp => ?_
    rw [hg.player, hplayer] at hp
    cases hp
  rw [hr]
  exact ⟨fun _ _ => hn', fun _ h => by cases h⟩

theorem setState_numbered : Ensures (NumberedIn .login) (setState .play : ConnectionProg κ ρ Unit)
    (fun _ => NumberedIn .play) Numbered := by
  rintro c ⟨hn, -⟩
  rw [setState_run]
  refine ⟨fun _ _ => ⟨?_, rfl⟩, fun _ h => by cases h⟩
  exact hn.of_events rfl (by simp) fun _ => rfl

theorem createPlayer_numbered (env : PlayerEnv) (uuid : Ninuuid) :
    Ensures (NumberedIn .play) (createPlayer env uuid : ConnectionProg κ ρ Bool)
      (fun _ => NumberedIn .play) Numbered := by
  unfold createPlayer
  split
  · exact Ensures.pure fun _ h => h
  · have hname : Ensures (NumberedIn .play) (useTmp Tmp.username : ConnectionProg κ ρ _)
        (fun _ => NumberedIn .play) Numbered :=
      numbered_of_works (fun _ => False) (useTmp_works _) fun _ h => h.elim
    refine hname.bind fun username => Ensures.bind (Ensures.modify fun c hc => ?_)
      fun _ => Ensures.pure fun c hc => hc
    exact ⟨⟨hc.1.written, fun _ => hc.2⟩, hc.2⟩

theorem enterPlay_numbered (env : EncryptionResponseEnv) (id : Ninuuid) :
    Ensures (NumberedIn .login) (enterPlay crypto env id) (fun _ => Numbered) Numbered := by
  have hworks {α : Type} {s : McprState} {m : ConnectionProg κ ρ α}
      (h : Moves (Works fun _ => False) m) :
      Ensures (NumberedIn s) m (fun _ => Numbered) Numbered :=
    (numbered_of_works _ h fun _ hf => hf.elim).mono (fun _ h => h) (fun _ _ h => h.1) fun _ h => h
  have hname : Ensures (NumberedIn .login) (useTmp Tmp.username : ConnectionProg κ ρ _)
      (fun _ => NumberedIn .login) Numbered :=
    numbered_of_works LoginType (useTmp_works _) fun _ h => h.writtenIn
  refine hname.bind fun username => Ensures.bind (numbered_of_works LoginType
    (fwritePacket_works _ _ _ (.inr rfl)) fun _ h => h.writtenIn) fun sent => Ensures.ite
    (fun _ => ?_) fun _ => ?_
  · refine Ensures.ite (fun _ => Ensures.exit fun _ h => h.1) fun _ => Ensures.ite ?_ ?_
    · exact fun _ => hworks responseClosed_works
    · exact fun _ => hworks (responseError_works env)
  · refine setState_numbered.bind fun _ => (createPlayer_numbered _ _).bind fun created => ?_
    refine Ensures.ite (fun _ => hworks (responseError_works env)) fun _ => ?_
    have hsequence := numbered_of_talks (s := .play) (sendPostLoginSequence_talks crypto env.sequence)
      fun _ h => .inl h
    refine hsequence.bind fun result => Ensures.ite (fun _ => hworks (responseError_works env))
      fun _ => Ensures.ite ?_ ?_
    · exact fun _ => hworks responseClosed_works
    · exact fun _ => hworks responseDone_works

theorem handleLgEncryptionResponse_numbered (env : EncryptionResponseEnv) (pkt : McprPacket) :
    Ensures (NumberedIn .login) (handleLgEncryptionResponse crypto env pkt) (fun _ => Numbered)
      Numbered := by
  have hworks {α : Type} {m : ConnectionProg κ ρ α} (h : Moves (Works fun _ => False) m) :
      Ensures (NumberedIn .login) m (fun _ => NumberedIn .login) Numbered :=
    numbered_of_works _ h fun _ hf => hf.elim
  have herror : Ensures (NumberedIn .login) (responseError env : ConnectionProg κ ρ HpResult)
      (fun _ => Numbered) Numbered :=
    (hworks (responseError_works env)).mono (fun _ h => h) (fun _ _ h => h.1) fun _ h => h
  refine (hworks (note_works (.encryptionResponse _) trivial)).bind fun _ => Ensures.bind
    (Ensures.get (Q := fun _ => NumberedIn .login) fun _ h => h) fun c => Ensures.ite ?_ fun _ => ?_
  · exact fun _ => Ensures.pure fun _ h => h.1
  · refine (hworks (decryptSharedSecret_works crypto env _)).bind fun secret => ?_
    rcases secret with _ | secret
    · exact herror
    · refine Ensures.ite (fun _ => herror) fun _ => Ensures.bind (Q := fun _ => NumberedIn .login)
        ?_ fun _ => (hworks (joinSession_works crypto env secret)).bind fun joined => ?_
      · rintro c ⟨hn, hs⟩
        have hn' : Numbered ((onObjects (mcprConnectionSetCrypto (crypto.initCipher secret)
            (crypto.initCipher secret)) : ConnectionProg κ ρ Unit).run c).2 := by
          refine hn.of_events rfl (fun state id hid => ?_) fun hp => ?_
          · simp [wroteEvents, mcprConnectionSetCrypto, setConn, record] at hid
          · exact hn.player hp
        exact ⟨fun _ _ => ⟨hn', hs⟩, fun _ _ => hn'⟩
      · rcases joined with _ | id
        · exact herror
        · exact enterPlay_numbered crypto env id

theorem handlePacket_numbered (env : HandlerEnv ρ) (pkt : McprPacket) (s : McprState) :
    Ensures (NumberedIn s) (handlePacket crypto env pkt s) (fun _ => Numbered) Numbered := by
  have hnone : Ensures (NumberedIn s) (exit .undefined : ConnectionProg κ ρ HpResult)
      (fun _ => Numbered) Numbered := Ensures.exit fun _ h => h.1
  cases s with
  | handshake =>
    unfold handlePacket
    cases pkt.id
    case hsSbHandshake => exact handleHsHandshake_numbered env.handshake pkt
    all_goals exact hnone
  | status =>
    refine (numbered_of_talks (s := .status) (handlePacket_status_talks crypto env pkt)
      fun _ h => h).mono ?_ ?_ ?_
    · exact fun _ h => h
    · exact fun _ _ h => h.1
    · exact fun _ h => h
  | login =>
    unfold handlePacket
    cases pkt.id
    case lgSbLoginStart =>
      refine (numbered_of_works (s := .login) _ (handleLgLoginStart_works crypto env.loginStart pkt)
        fun _ h => .inl h).mono ?_ ?_ ?_
      · exact fun _ h => h
      · exact fun _ _ h => h.1
      · exact fun _ h => h
    case lgSbEncryptionResponse =>
      exact handleLgEncryptionResponse_numbered crypto env.encryptionResponse pkt
    all_goals exact hnone
  | play =>
    refine (numbered_of_talks (s := .play) (handlePacket_play_talks crypto env pkt)
      fun _ h => .inl h).mono ?_ ?_ ?_
    · exact fun _ h => h
    · exact fun _ _ h => h.1
    · exact fun _ h => h

theorem packetHandler_numbered (env : HandlerEnv ρ) (pkt : McprPacket) :
    Ensures Numbered (packetHandler crypto env pkt) (fun _ => Numbered) Numbered := by
  apply packetHandler_ensures (I := Numbered) (F := Numbered)
  · exact (numbered_of_winds touch_winds).ensures
  · intro s
    exact (handlePacket_numbered crypto env pkt s).mono (fun _ h => h)
      (fun _ _ h => ⟨fun _ => h, fun _ => h⟩) fun _ h => h
  · intro message
    exact (numbered_of_winds (connectionClose_winds crypto.cipher env.close message)).ensures

/-- A keep-alive goes to players only, and so in PLAY only. -/
theorem updateClient_numbered (P : Turn ρ → McprPacket → Connection κ ρ → Prop) (tick : Tick ρ) :
    Ensures (fun c => TickMeets crypto P tick c ∧ Numbered c) (updateClient crypto tick)
      (fun _ => Numbered) Numbered := by
  have htick : Ensures (fun c => TickMeets crypto (Dispatches crypto fun _ _ _ => True) tick c ∧
      Numbered c) (updateClient crypto tick) (fun _ => Numbered) Numbered := by
    apply updateClient_dispatches tick (L := NumberedIn .play)
    · intro c c' hc hw
      exact hw.numbered hc
    · intro c hc hp
      exact ⟨hc, hc.player hp⟩
    · intro c hc
      exact hc.1
    · intro c c' hc ht
      obtain ⟨hn, hs⟩ := hc
      refine ⟨ht.numbered hn fun id hid => ?_, ht.state.trans hs⟩
      rw [hs]
      exact .inl hid
    · intro env pkt
      exact (packetHandler_numbered crypto env pkt).mono (fun _ h => h.2) (fun _ _ h => h) fun _ h => h
    · intro c hc
      exact hc
  refine htick.mono (fun c hc => ⟨fun hadPlayer _ => ?_, hc.2⟩) (fun _ _ h => h) fun _ h => h
  exact turnsMeet_of_forall (fun _ _ _ _ _ _ => trivial) _ _ _

theorem numbered_of_served {P : Turn ρ → McprPacket → Connection κ ρ → Prop}
    {s c : Connection κ ρ} {r : Except Halt Unit} (hs : Numbered s)
    (h : Served crypto P s r c) : Numbered c :=
  Served.ends hs (updateClient_numbered crypto P) (fun _ hc => hc) h

/-- The first bytes of a packet are the number of its type, but for a Chat Message that is
encoded. Whatever happens in a run of the server, the number of every packet that goes out is the
one that its meaning has in the state of the connection, but for a Disconnect in LOGIN. -/
theorem packets_identifiable_iff (garbage : Mem) (input : List UInt8) (now : ℤ) :
    (∀ env pkt, Identifiable env pkt ↔ (pkt.id = .plCbChatMessage →
      ¬ TextEncodes env pkt.data.playClientbound.chatMessage.jsonData)) ∧
    ∀ r c, Served crypto (fun _ _ _ => True) (acceptConnection ρ garbage input now) r c →
      ∀ state id, .wrote state id ∈ c.history →
        (RightNumber state id ↔ ¬ (state = .login ∧ id = .plCbDisconnect)) := by
  refine ⟨identifiable_iff, fun r c h state id hid => ?_⟩
  have hstart : Numbered (acceptConnection (κ := κ) ρ garbage input now) :=
    ⟨fun state id hid => by simp [acceptConnection] at hid, fun hp => by
      simp [acceptConnection] at hp⟩
  exact ((numbered_of_served crypto hstart h).written state id hid).rightNumber_iff

end Runs

section Example

/-- A Handshake for LOGIN with a protocol version that is not supported. -/
def strangerExample : Connection Unit Unit := acceptExample 6 [0, 0, 0, 0, 0, 2]

theorem stranger_served : ∃ r c, Served cryptoExample (fun _ _ _ => True) strangerExample r c ∧
    .wrote .login .plCbDisconnect ∈ c.history := by
  obtain ⟨r, h⟩ := served_tick strangerExample (tickExample [1]) rfl
    fun _ _ => turnsMeet_of_forall (fun _ _ _ => trivial) _ _ _
  exact ⟨r, _, h, by decide +kernel⟩

/-- The Disconnect that the stranger gets. -/
theorem stranger_disconnect_number :
    RightNumber .login .plCbDisconnect ↔ ¬ (McprState.login = .login ∧
      McprPacketType.plCbDisconnect = .plCbDisconnect) := by
  obtain ⟨r, c, h, hid⟩ := stranger_served
  exact (packets_identifiable_iff cryptoExample _ [6] 0).2 r c h _ _ hid

/-- A Chat Message goes out without its number, and a Disconnect in LOGIN with that of PLAY. -/
theorem login_disconnect_misnumbered :
    ¬ Identifiable default (chatMessageExample []) ∧
    ∃ r c, Served cryptoExample (fun _ _ _ => True) strangerExample r c ∧
      .wrote .login .plCbDisconnect ∈ c.history ∧ ¬ RightNumber .login .plCbDisconnect := by
  constructor
  · exact chatMessage_not_identifiable default (chatMessageExample []) rfl ⟨rfl, by decide⟩
  · obtain ⟨r, c, h, hid⟩ := stranger_served
    refine ⟨r, c, h, hid, ?_⟩
    have hin : WrittenIn .login .plCbDisconnect := .inr (.inr rfl)
    rw [hin.rightNumber_iff]
    simp

end Example

end Stronk.Mcpr
