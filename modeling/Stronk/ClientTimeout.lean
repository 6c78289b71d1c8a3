import Stronk.ServerClock
import Stronk.UnfinishedLogin

/-! When a client is timed out: `update_client` decides it after its packets are handled, by
whether there was a player before. No packet makes one. -/
namespace Stronk.Mcpr
open ByteMemory EarlyExit
variable {κ ρ : Type}

section Model
variable (crypto : Crypto κ ρ)

/-- `update_client` up to its last part; is that to come? -/
def processPackets (tick : Tick ρ) : ConnectionProg κ ρ (Bool × Bool) := do
  let start ← tickStart crypto tick
  if start.1 then do
    readLoop crypto tick.turns tick.garbage
    return start
  else return start

theorem updateClient_split (tick : Tick ρ) (c : Connection κ ρ) :
    (updateClient crypto tick).run c = (do
      let start ← processPackets crypto tick
      if start.1 then checkTimeout crypto tick.timeout start.2 else pure () :
        ConnectionProg κ ρ Unit).run c := by
  rw [updateClient_run]
  simp only [processPackets, bind_run]
  rcases (tickStart crypto tick).run c with ⟨e | ⟨going, hadPlayer⟩, c1⟩
  · rfl
  · cases going with
    | false => rfl
    | true =>
      rcases hloop : (readLoop crypto tick.turns tick.garbage).run c1 with ⟨e | ⟨⟩, c2⟩
      · simp [hloop]
      · simp [hloop]

/-- The connection is in the list of clients, and neither it nor what it consists of is closed. -/
def Connection.Open (c : Connection κ ρ) : Prop := c.listed = true ∧ c.isClosed = false

instance (c : Connection κ ρ) : Decidable c.Open := inferInstanceAs (Decidable (_ ∧ _))

/-- The time is up: a player has not been heard of for 30 whole seconds of the internal clock, a
client without a player has been there for more than 60 seconds. -/
def Overdue (env : TimeoutEnv) (c : Connection κ ρ) : Prop :=
  match c.player with
  | some player => 30 ≤ (env.clock.ns-player.lastKeepaliveReceived.ns)/1000000000
  | none => 60 < env.time-c.connectedAt

/-- Between the two states the connection was closed. -/
def ClosedBetween (c c' : Connection κ ρ) : Prop :=
  ∃ es, c'.history = c.history ++ es ∧ .connectionClose ∈ es

/-- A connection that is open when its packets are processed is timed out if and only if it is
overdue then. -/
def TimeoutExact (tick : Tick ρ) (c : Connection κ ρ) : Prop :=
  ∀ hadPlayer c1, (processPackets crypto tick).run c = (.ok (true, hadPlayer), c1) → c1.Open →
    (ClosedBetween c1 ((updateClient crypto tick).run c).2 ↔ Overdue tick.timeout c1)

end Model

section Stamps

/-- Whatever a packet makes of the internal clock, it finds this time. -/
def HandlerEnv.Finds (env : HandlerEnv ρ) (clock : Timespec) : Prop :=
  env.clock = clock ∧ env.encryptionResponse.player.clock = clock

/-- The internal clock is normalised, and stands still during the tick: `server_tick` moves it only
after `net_tick`. -/
def Tick.Clocked (tick : Tick ρ) : Prop :=
  tick.timeout.clock.Normal ∧ ∀ turn ∈ tick.turns, turn.handler.Finds tick.timeout.clock

/-- Nothing that is written behind a read in this tick is buffered. -/
def Tick.WritesThrough (tick : Tick ρ) : Prop := ∀ turn ∈ tick.turns, turn.handler.WritesThrough

/-- What a packet does to a stamp leaves it one of these: a Keep Alive sets it, and so does a login
whose Login Success is not seen to fail. -/
structure HandlerEnv.Stamps (stamps : Timespec → Prop) (env : HandlerEnv ρ) : Prop where
  keepAlive : ∀ stamp, stamps stamp → stamps env.clock
  login : env.encryptionResponse.success.buffered = true →
    stamps env.encryptionResponse.player.clock

theorem HandlerEnv.Finds.stamps {env : HandlerEnv ρ} {clock : Timespec}
    {stamps : Timespec → Prop} (h : env.Finds clock) (hclock : stamps clock) :
    env.Stamps stamps := by
  obtain ⟨hown, hplayer⟩ := h
  exact ⟨fun _ _ => hown ▸ hclock, fun _ => hplayer ▸ hclock⟩

/-- There is a player, if one is asked for, and its stamp is one of these. -/
structure Stamped (needed : Bool) (stamps : Timespec → Prop) (c : Connection κ ρ) : Prop where
  present : needed = true → c.player.isSome = true
  stamp : ∀ player, c.player = some player → stamps player.lastKeepaliveReceived

variable {needed : Bool} {stamps : Timespec → Prop} {α : Type}
variable {m : ConnectionProg κ ρ α}

/-- What leaves the player alone keeps its stamp. -/
theorem keeps_of_player (h : ∀ c, (m.run c).2.player = c.player) :
    Keeps (Stamped needed stamps) m := by
  intro c hc
  constructor
  · rw [h c]
    exact hc.present
  · rw [h c]
    exact hc.stamp

theorem keeps_of_winds (h : Moves Winds m) : Keeps (Stamped needed stamps) m :=
  keeps_of_player fun c => (h c).player

theorem keeps_of_works {ids : McprPacketType → Prop} (h : Moves (Works ids) m) :
    Keeps (Stamped needed stamps) m := keeps_of_player fun c => (h c).player

theorem setPlayer_keeps {f : Player → Player}
    (hf : ∀ p, stamps p.lastKeepaliveReceived → stamps (f p).lastKeepaliveReceived) :
    Keeps (Stamped needed stamps) (setPlayer f : ConnectionProg κ ρ Unit) := by
  intro c hc
  constructor
  · intro hneeded
    rw [setPlayer, modify_run, Option.isSome_map]
    exact hc.present hneeded
  · intro player hp
    obtain ⟨p, hold, rfl⟩ := Option.map_eq_some_iff.mp hp
    exact hf p (hc.stamp p hold)

theorem requirePlayer_keeps :
    Keeps (Stamped needed stamps) (requirePlayer : ConnectionProg κ ρ Player) :=
  keeps_of_winds requirePlayer_winds

theorem fwritePacket_keeps (cipher : Cipher κ) (w : StreamWrite) (pkt : McprPacket) :
    Keeps (Stamped needed stamps) (fwritePacket cipher w pkt : ConnectionProg κ ρ Bool) := by
  have hworks : Moves (Works fun _ => True) (fwritePacket cipher w pkt : ConnectionProg κ ρ Bool) :=
    fwritePacket_works cipher w pkt trivial
  exact keeps_of_works hworks

variable (crypto : Crypto κ ρ)

theorem sendEach_keeps (packets : List (StreamWrite × McprPacket)) :
    Keeps (Stamped needed stamps) (sendEach crypto packets : ConnectionProg κ ρ HpResult) := by
  induction packets with
  | nil => exact Keeps.pure _
  | cons packet rest ih =>
    obtain ⟨write, pkt⟩ := packet
    refine (fwritePacket_keeps _ _ _).bind fun sent => Keeps.ite ih ?_
    exact Keeps.ite (Keeps.pure _) (Keeps.pure _)

theorem sendPostLoginSequence_keeps (env : SequenceEnv) :
    Keeps (Stamped needed stamps) (sendPostLoginSequence crypto env : ConnectionProg κ ρ HpResult) :=
  requirePlayer_keeps.bind fun _ => sendEach_keeps crypto _

theorem sendChunks_keeps (host : Endian) (chunks : BitVec 64 → BitVec 64 → ChunkSend)
    (positions : List (BitVec 64 × BitVec 64)) :
    Keeps (Stamped needed stamps) (sendChunks crypto host chunks positions :
      ConnectionProg κ ρ Unit) := by
  induction positions with
  | nil => exact Keeps.pure _
  | cons position rest ih =>
    obtain ⟨x, z⟩ := position
    refine Keeps.bind ?_ fun _ => ih
    unfold sendChunkData
    refine Keeps.ite (Keeps.pure _) ?_
    split
    · exact Keeps.exit _
    · exact fwritePacket_keeps _ _ _

theorem handlePlClientSettings_keeps (env : ClientSettingsEnv) (pkt : McprPacket) :
    Keeps (Stamped needed stamps) (handlePlClientSettings crypto env pkt :
      ConnectionProg κ ρ HpResult) := by
  refine requirePlayer_keeps.bind fun _ => Keeps.bind (setPlayer_keeps fun _ h => h) fun _ => ?_
  refine (sendChunks_keeps crypto _ _ _).bind fun _ => requirePlayer_keeps.bind fun player => ?_
  refine (fwritePacket_keeps _ _ _).bind fun sent => Keeps.ite ?_ ?_
  · split
    · exact Keeps.pure _
    · split
      · exact Keeps.exit _
      · exact Keeps.pure _
  · exact Keeps.bind (setPlayer_keeps fun _ h => h) fun _ => Keeps.pure _

theorem handlePlTeleportConfirm_keeps (write : StreamWrite) :
    Keeps (Stamped needed stamps) (handlePlTeleportConfirm crypto write :
      ConnectionProg κ ρ HpResult) := by
  have hcount : Keeps (Stamped needed stamps) (countTeleport : ConnectionProg κ ρ HpResult) :=
    requirePlayer_keeps.bind fun _ => Keeps.ite (Keeps.exit _)
      (Keeps.bind (setPlayer_keeps fun _ h => h) fun _ => Keeps.pure _)
  refine requirePlayer_keeps.bind fun player => Keeps.ite ?_ hcount
  refine (fwritePacket_keeps _ _ _).bind fun sent => Keeps.ite hcount ?_
  exact Keeps.ite (Keeps.pure _) (Keeps.pure _)

theorem handlePlPluginMessage_keeps (env : PluginMessageEnv) (pkt : McprPacket) :
    Keeps (Stamped needed stamps) (handlePlPluginMessage env pkt : ConnectionProg κ ρ HpResult) := by
  unfold handlePlPluginMessage
  refine Keeps.ite (Keeps.ite (Keeps.pure _) ?_) (Keeps.pure _)
  split
  · exact Keeps.exit _
  · exact Keeps.pure _
  · exact requirePlayer_keeps.bind fun _ => Keeps.bind (setPlayer_keeps fun _ h => h) fun _ =>
      Keeps.pure _

/-- The stamp of a player is set by a Keep Alive, to the internal clock. -/
theorem handlePacket_play_keeps (env : HandlerEnv ρ) (henv : ∀ stamp, stamps stamp → stamps env.clock)
    (pkt : McprPacket) : Keeps (Stamped needed stamps) (handlePacket crypto env pkt .play) := by
  unfold handlePacket
  cases pkt.id
  case plSbKeepAlive =>
    exact requirePlayer_keeps.bind fun _ => Keeps.bind (setPlayer_keeps fun _ h => henv _ h)
      fun _ => Keeps.pure _
  case plSbHeldItemChange =>
    exact requirePlayer_keeps.bind fun _ => Keeps.bind (setPlayer_keeps fun _ h => h) fun _ =>
      Keeps.pure _
  case plSbChatMessage =>
    exact Keeps.ite (Keeps.exit _) (Keeps.pure _)
  case plSbClientSettings => exact handlePlClientSettings_keeps crypto _ pkt
  case plSbTeleportConfirm => exact handlePlTeleportConfirm_keeps crypto _
  case plSbPluginMessage => exact handlePlPluginMessage_keeps _ pkt
  all_goals first
    | exact Keeps.exit _
    | exact Keeps.pure _

theorem handlePacket_status_keeps (env : HandlerEnv ρ) (pkt : McprPacket) :
    Keeps (Stamped needed stamps) (handlePacket crypto env pkt .status) := by
  unfold handlePacket
  cases pkt.id
  case stSbRequest =>
    exact (fwritePacket_keeps _ _ _).bind fun _ => Keeps.ite (Keeps.pure _)
      (Keeps.ite (Keeps.pure _) (Keeps.pure _))
  case stSbPing =>
    exact (fwritePacket_keeps _ _ _).bind fun _ => Keeps.ite (Keeps.pure _)
      (Keeps.ite (Keeps.pure _) (Keeps.pure _))
  all_goals exact Keeps.exit _

theorem createPlayer_keeps (env : PlayerEnv) (henv : stamps env.clock) (uuid : Ninuuid) :
    Keeps (Stamped needed stamps) (createPlayer env uuid : ConnectionProg κ ρ Bool) := by
  unfold createPlayer
  split
  · exact Keeps.pure _
  · have hworks : Moves (Works fun _ => True)
        (useTmp Tmp.username : ConnectionProg κ ρ (List UInt8)) := useTmp_works _
    have hname : Keeps (Stamped needed stamps)
        (useTmp Tmp.username : ConnectionProg κ ρ (List UInt8)) :=
      keeps_of_works hworks
    refine hname.bind fun username => Keeps.bind (fun c _ => ?_) fun _ => Keeps.pure _
    constructor
    · exact fun _ => rfl
    · intro player hp
      cases hp
      exact henv

/-- A player is made only behind a Login Success that is not seen to fail. -/
theorem enterPlay_keeps (env : EncryptionResponseEnv)
    (henv : env.success.buffered = true → stamps env.player.clock) (id : Ninuuid) :
    Keeps (Stamped needed stamps) (enterPlay crypto env id) := by
  have hworks {α : Type} {m : ConnectionProg κ ρ α} (h : Moves (Works fun _ => True) m) :
      Keeps (Stamped needed stamps) m := keeps_of_works h
  have herror : Keeps (Stamped needed stamps) (responseError env : ConnectionProg κ ρ HpResult) :=
    hworks (responseError_works env)
  have hfailed : Keeps (Stamped needed stamps) (if env.success.ninerr = none then exit .undefined
      else if env.success.closed then responseClosed
      else responseError env : ConnectionProg κ ρ HpResult) :=
    Keeps.ite (Keeps.exit _) (Keeps.ite (hworks responseClosed_works) herror)
  refine (hworks (useTmp_works _)).bind fun username => ?_
  cases hb : env.success.buffered with
  | false =>
    refine fwritePacket_short_keeps hb (fwritePacket_keeps _ _ _) ?_
    rw [if_pos rfl]
    exact hfailed
  | true =>
    refine (fwritePacket_keeps _ _ _).bind fun sent => Keeps.ite hfailed ?_
    refine Keeps.bind (keeps_of_player fun c => by rw [setState_run]) fun _ => ?_
    refine (createPlayer_keeps _ (henv hb) _).bind fun created => Keeps.ite herror ?_
    refine (sendPostLoginSequence_keeps crypto env.sequence).bind fun result => ?_
    refine Keeps.ite herror (Keeps.ite ?_ ?_)
    · exact hworks responseClosed_works
    · exact hworks responseDone_works

theorem handleLgEncryptionResponse_keeps (env : EncryptionResponseEnv)
    (henv : env.success.buffered = true → stamps env.player.clock) (pkt : McprPacket) :
    Keeps (Stamped needed stamps) (handleLgEncryptionResponse crypto env pkt) := by
  have hworks {α : Type} {m : ConnectionProg κ ρ α} (h : Moves (Works fun _ => True) m) :
      Keeps (Stamped needed stamps) m := keeps_of_works h
  have herror : Keeps (Stamped needed stamps) (responseError env : ConnectionProg κ ρ HpResult) :=
    hworks (responseError_works env)
  refine (hworks (note_works (.encryptionResponse _) trivial)).bind fun _ =>
    Keeps.get_bind fun c => Keeps.ite (Keeps.pure _) ?_
  refine (hworks (decryptSharedSecret_works crypto env _)).bind fun secret => ?_
  rcases secret with _ | secret
  · exact herror
  · refine Keeps.ite herror (Keeps.bind (keeps_of_player fun _ => rfl) fun _ => ?_)
    refine (hworks (joinSession_works crypto env secret)).bind fun joined => ?_
    rcases joined with _ | id
    · exact herror
    · exact enterPlay_keeps crypto env henv id

theorem handlePacket_keeps (env : HandlerEnv ρ) (henv : env.Stamps stamps) (pkt : McprPacket)
    (s : McprState) : Keeps (Stamped needed stamps) (handlePacket crypto env pkt s) := by
  cases s with
  | handshake =>
    unfold handlePacket
    cases pkt.id
    case hsSbHandshake =>
      apply keeps_of_player
      intro c
      obtain ⟨r, c', hr, hg⟩ := handleHsHandshake_greets env.handshake pkt c
      rw [hr]
      exact hg.player
    all_goals exact Keeps.exit _
  | status => exact handlePacket_status_keeps crypto env pkt
  | login =>
    unfold handlePacket
    cases pkt.id
    case lgSbLoginStart => exact keeps_of_works (handleLgLoginStart_works crypto env.loginStart pkt)
    case lgSbEncryptionResponse =>
      exact handleLgEncryptionResponse_keeps crypto env.encryptionResponse henv.login pkt
    all_goals exact Keeps.exit _
  | play => exact handlePacket_play_keeps crypto env henv.keepAlive pkt

/-- A whole turn of the loop keeps the stamp. -/
theorem readTurn_keeps (turn : Turn ρ) (hturn : turn.handler.Stamps stamps) (pkt : McprPacket) :
    Keeps (Stamped needed stamps) (readTurn crypto turn pkt) := by
  have htouch : Keeps (Stamped needed stamps) (touch : ConnectionProg κ ρ Unit) :=
    keeps_of_winds touch_winds
  have hread := mcprConnectionReadPacket_reads crypto.cipher turn.read pkt
  refine htouch.bind fun _ => (keeps_of_winds (onObjects_winds hread)).bind fun r => ?_
  refine Keeps.ite (Keeps.bind ?_ fun _ => Keeps.pure _) (htouch.bind fun _ => Keeps.pure _)
  refine htouch.bind fun _ => Keeps.get_bind fun c => ?_
  refine (handlePacket_keeps crypto _ hturn r.out c.state).bind fun result => ?_
  refine Keeps.ite (Keeps.bind ?_ fun _ => Keeps.pure _) (Keeps.pure _)
  exact keeps_of_winds (connectionClose_winds crypto.cipher _ _)

theorem readLoop_keeps (turns : List (Turn ρ))
    (hturns : ∀ turn ∈ turns, turn.handler.Stamps stamps) (pkt : McprPacket) :
    Keeps (Stamped needed stamps) (readLoop crypto turns pkt) := by
  induction turns generalizing pkt with
  | nil => exact Keeps.exit _
  | cons turn turns ih =>
    have hturn : Keeps (Stamped needed stamps) (readTurn crypto turn pkt) :=
      readTurn_keeps crypto turn (hturns turn List.mem_cons_self) pkt
    refine hturn.bind fun next => ?_
    rcases next with _ | next
    · exact Keeps.pure _
    · exact ih (fun turn ht => hturns turn (List.mem_cons_of_mem _ ht)) next

theorem tickStart_keeps (tick : Tick ρ) :
    Keeps (Stamped needed stamps) (tickStart crypto tick) := by
  refine (keeps_of_winds touch_winds).bind fun _ => Keeps.get_bind fun c => ?_
  refine Keeps.bind ?_ fun _ => Keeps.pure _
  unfold sendKeepAlive
  split
  · exact Keeps.pure _
  · refine Keeps.ite ((fwritePacket_keeps _ _ _).bind fun sent => Keeps.ite ?_ ?_) (Keeps.pure _)
    · exact Keeps.bind (setPlayer_keeps fun _ h => h) fun _ => Keeps.pure _
    · split
      · exact Keeps.exit _
      · refine Keeps.ite (Keeps.bind ?_ fun _ => Keeps.pure _) (Keeps.pure _)
        exact keeps_of_winds (connectionClose_winds crypto.cipher _ _)

theorem processPackets_keeps (tick : Tick ρ)
    (hturns : ∀ turn ∈ tick.turns, turn.handler.Stamps stamps) :
    Keeps (Stamped needed stamps) (processPackets crypto tick) := by
  refine (tickStart_keeps crypto tick).bind fun start => Keeps.ite ?_ (Keeps.pure _)
  exact (readLoop_keeps crypto _ hturns _).bind fun _ => Keeps.pure _

theorem Tick.Clocked.turns {tick : Tick ρ} (h : tick.Clocked) :
    ∀ turn ∈ tick.turns, turn.handler.Stamps Timespec.Normal :=
  fun turn ht => (h.2 turn ht).stamps h.1

theorem updateClient_keeps (tick : Tick ρ) (htick : tick.Clocked) :
    Keeps (Stamped needed Timespec.Normal) (updateClient crypto tick) := by
  intro c hc
  rw [updateClient_split]
  refine (processPackets_keeps crypto tick htick.turns).bind (fun start => ?_) c hc
  exact Keeps.ite (keeps_of_winds (checkTimeout_winds crypto _ _)) (Keeps.pure _)

/-- Packets make no player where nothing is buffered. -/
theorem processPackets_playerless (tick : Tick ρ) (htick : tick.WritesThrough)
    {c : Connection κ ρ} (h : c.player = none) :
    ((processPackets crypto tick).run c).2.player = none := by
  have hstart : Stamped false (fun _ => False) c :=
    ⟨fun hn => (by cases hn), fun player hp => by rw [h] at hp; cases hp⟩
  have hturns (turn : Turn ρ) (ht : turn ∈ tick.turns) : turn.handler.Stamps fun _ => False :=
    ⟨fun _ h => h, fun hb => by rw [(htick turn ht).2] at hb; cases hb⟩
  have hkept := processPackets_keeps crypto tick hturns c hstart
  rw [Option.eq_none_iff_forall_ne_some]
  exact fun player hp => hkept.stamp player hp

end Stamps

section Verdict
variable (crypto : Crypto κ ρ) {c c' : Connection κ ρ}

theorem Connection.Open.not_freed (h : c.Open) : c.freed = false := by
  have hclosed := h.2
  rw [Connection.isClosed, Bool.or_eq_false_iff] at hclosed
  exact hclosed.1

theorem ClosedBetween.before {c'' : Connection κ ρ} {es : List (ServerEvent ρ)}
    (hes : c'.history = c.history ++ es) (h : ClosedBetween c' c'') : ClosedBetween c c'' := by
  obtain ⟨es', hes', hmem⟩ := h
  refine ⟨es ++ es', ?_, List.mem_append_right _ hmem⟩
  rw [hes', hes, List.append_assoc]

theorem ClosedBetween.after {c'' : Connection κ ρ} (h : ClosedBetween c c') (hw : Winds c' c'') :
    ClosedBetween c c'' := by
  obtain ⟨es, hes, hmem⟩ := h
  obtain ⟨es', hes', -⟩ := hw.history
  refine ⟨es ++ es', ?_, List.mem_append_left _ hmem⟩
  rw [hes', hes, List.append_assoc]

theorem not_closedBetween {es : List (ServerEvent ρ)} (hes : c'.history = c.history ++ es)
    (hnot : .connectionClose ∉ es) : ¬ ClosedBetween c c' := by
  rintro ⟨es', hes', hmem⟩
  rw [hes, List.append_cancel_left_eq] at hes'
  exact hnot (hes' ▸ hmem)

/-- A client that is listed is closed, whatever becomes of closing its streams. -/
theorem connectionClose_closes (hlisted : c.listed = true) (hfreed : c.freed = false)
    (env : CloseEnv) (message : Option (List UInt8)) :
    ClosedBetween c ((connectionClose crypto.cipher env message).run c).2 := by
  set c1 : Connection κ ρ :=
    { c with history := c.history ++ [.touch c.isClosed] ++ [.connectionClose] } with hc1
  set rest : ConnectionProg κ ρ Unit := do
    modify fun c => { c with listed := false }
    onObjects (mcprConnectionClose crypto.cipher env.closing env.fuel message)
    modify fun c => { c with freed := true } with hrest
  have hrun : (connectionClose crypto.cipher env message).run c = rest.run c1 := by
    simp only [connectionClose, bind_run, touch_run, hfreed, get_run, hlisted, note_run,
      Bool.false_eq_true, Bool.true_eq_false, ↓reduceIte, hrest, hc1]
  have hwinds : Moves Winds rest := by
    refine Moves.bind (fun c => ?_) fun _ => Moves.bind (onObjects_winds
      (mcprConnectionClose_reads crypto.cipher _ _ _)) fun _ => fun c => ?_
    · exact ⟨refl_of Reads c.objects, rfl, rfl, rfl, rfl, [], by simp, by simp⟩
    · exact ⟨refl_of Reads c.objects, rfl, rfl, rfl, rfl, [], by simp, by simp⟩
  have hclosed : ClosedBetween c c1 :=
    ⟨[.touch c.isClosed, .connectionClose], by rw [hc1]; simp, by simp⟩
  rw [hrun]
  exact hclosed.after (hwinds c1)

theorem doTimeout_closes (h : c.Open) (env : TimeoutEnv) :
    ClosedBetween c ((doTimeout crypto env).run c).2 := by
  have hfreed := h.not_freed
  set c1 : Connection κ ρ := { c with history := c.history ++ [.touch c.isClosed] } with hc1
  have hclosed := connectionClose_closes crypto (c := c1) h.1 hfreed env.close
    (mcprAsChat env.asChat (ascii "Timed out. (server-side)"))
  have hrun : (doTimeout crypto env).run c = (connectionClose crypto.cipher env.close
      (mcprAsChat env.asChat (ascii "Timed out. (server-side)"))).run c1 := by
    simp only [doTimeout, bind_run, touch_run, hfreed, Bool.false_eq_true, ↓reduceIte, hc1]
  rw [hrun]
  exact hclosed.before rfl

/-- What the last part of `update_client` goes by. -/
theorem checkTimeout_closes_iff (h : c.Open) (env : TimeoutEnv) (hadPlayer : Bool)
    (hplayer : hadPlayer = true → c.player.isSome = true) :
    ClosedBetween c ((checkTimeout crypto env hadPlayer).run c).2 ↔
      if hadPlayer then ∃ player, c.player = some player ∧
        (timespecDiff player.lastKeepaliveReceived env.clock).tvSec ≥ 30
      else env.time-c.connectedAt > 60 := by
  have hfreed := h.not_freed
  cases hadPlayer with
  | true =>
    obtain ⟨player, hp⟩ := Option.isSome_iff_exists.mp (hplayer rfl)
    simp only [checkTimeout, ↓reduceIte, requirePlayer, bind_run, get_run, hp, pure_run, ite_run]
    split_ifs with hlate
    · exact iff_of_true (doTimeout_closes crypto h env) ⟨player, rfl, hlate⟩
    · refine iff_of_false (not_closedBetween (List.append_nil _).symm List.not_mem_nil) ?_
      rintro ⟨player', hp', hlate'⟩
      cases hp'
      exact hlate hlate'
  | false =>
    set c1 : Connection κ ρ := { c with history := c.history ++ [.touch c.isClosed] } with hc1
    have hopen : c1.Open := h
    have hrun : (checkTimeout crypto env false).run c = (if env.time-c.connectedAt > 60 then
        (doTimeout crypto env).run c1 else (.ok (), c1)) := by
      simp only [checkTimeout, Bool.false_eq_true, ↓reduceIte, bind_run, touch_run, hfreed, get_run,
        ite_run, pure_run, hc1]
    rw [hrun, if_neg Bool.false_ne_true]
    split_ifs with hlate
    · refine iff_of_true ?_ hlate
      exact (doTimeout_closes crypto hopen env).before rfl
    · refine iff_of_false (not_closedBetween rfl ?_) hlate
      simp

end Verdict

section Exact
variable (crypto : Crypto κ ρ) {c c1 : Connection κ ρ}

/-- Ticks of a client, in which the clocks are normalised. -/
abbrev ClockedRuns : Connection κ ρ → Except Halt Unit → Connection κ ρ → Prop :=
  Reaches (updateClient crypto) fun c tick => c.listed = true ∧ tick.Clocked

theorem ClockedRuns.stamped {garbage : Mem} {input : List UInt8} {now : ℤ} {r : Except Halt Unit}
    (h : ClockedRuns crypto (acceptConnection ρ garbage input now) r c) :
    Stamped false Timespec.Normal c := by
  have hstart : Stamped false Timespec.Normal
      (acceptConnection ρ garbage input now : Connection κ ρ) :=
    ⟨fun h => (by cases h), fun _ h => (by cases h)⟩
  exact Reaches.invariant hstart (fun c tick ht hc => updateClient_keeps crypto tick ht.2 c hc) h

/-- Whether there was a player is decided before the packets are read. -/
theorem processPackets_hadPlayer {tick : Tick ρ} {going hadPlayer : Bool}
    (h : (processPackets crypto tick).run c = (.ok (going, hadPlayer), c1)) :
    hadPlayer = c.player.isSome := by
  have hstart (start : Bool × Bool) (hs : ((tickStart crypto tick).run c).1 = .ok start) :
      start.2 = c.player.isSome := by
    simp only [tickStart, bind_run, touch_run, get_run, pure_run] at hs
    cases hfreed : c.freed with
    | true => simp [hfreed] at hs
    | false =>
      simp only [hfreed, Bool.false_eq_true, ↓reduceIte] at hs
      split at hs
      · cases hs
        rfl
      · cases hs
  simp only [processPackets, bind_run] at h
  rcases hr : (tickStart crypto tick).run c with ⟨e | start, c2⟩
  · simp [hr] at h
  · have hs := hstart start (by rw [hr])
    simp only [hr, ite_run, bind_run, pure_run] at h
    split_ifs at h with hgo
    · split at h
      · cases h
        exact hs
      · cases h
    · cases h
      exact hs

/-- A client is timed out exactly when it is overdue after its packets were processed. -/
theorem timeout_exact {garbage : Mem} {input : List UInt8} {now : ℤ}
    (hrun : ClockedRuns crypto (acceptConnection ρ garbage input now) (.ok ()) c) (tick : Tick ρ)
    (htick : tick.Clocked) (hthrough : tick.WritesThrough) : TimeoutExact crypto tick c := by
  have hstamped : Stamped c.player.isSome Timespec.Normal c := ⟨id, (hrun.stamped crypto).stamp⟩
  intro hadPlayer c1 hp ho
  have hkept : Stamped c.player.isSome Timespec.Normal c1 := by
    have hkeeps := processPackets_keeps crypto tick htick.turns c hstamped
    rwa [hp] at hkeeps
  have hupdate : (updateClient crypto tick).run c =
      (checkTimeout crypto tick.timeout c.player.isSome).run c1 := by
    rw [updateClient_split, bind_run, hp, processPackets_hadPlayer crypto hp]
    rfl
  rw [hupdate, checkTimeout_closes_iff crypto ho tick.timeout _ hkept.present]
  -- there is a player now if and only if there was one before
  split_ifs with hsome
  · obtain ⟨player, hplayer⟩ := Option.isSome_iff_exists.mp (hkept.present hsome)
    have hdiff := timespecDiff_is (hkept.stamp player hplayer) htick.1
    simp [Overdue, hplayer, hdiff.tvSec]
  · have hnone : c1.player = none := by
      have hbefore : c.player = none := by simpa using hsome
      have hafter := processPackets_playerless crypto tick hthrough hbefore
      rwa [hp] at hafter
    simp [Overdue, hnone]

end Exact

section Example

/-- The tick of a client 61 seconds after it connected; the internal clock has not moved. -/
def lateTick (arrived : List ℕ) : Tick Unit :=
  { throughTick arrived with
    timeout := { clock := default, time := 61, asChat := false, close := closeExample } }

theorem lateTick_clocked (arrived : List ℕ) : (lateTick arrived).Clocked := by
  have hzero : (default : Timespec).Normal := by decide
  refine ⟨hzero, fun turn ht => ?_⟩
  obtain ⟨n, -, rfl⟩ := List.mem_map.mp ht
  exact ⟨rfl, rfl⟩

theorem lateTick_through (arrived : List ℕ) : (lateTick arrived).WritesThrough := by
  intro turn ht
  obtain ⟨n, -, rfl⟩ := List.mem_map.mp ht
  exact ⟨rfl, rfl⟩

/-- A client that sends no more than a Handshake in its first minute is timed out. -/
theorem slow_client_timed_out : TimeoutExact cryptoExample (lateTick [1, 0]) (acceptExample 7
      [0, 0xd4, 2, 0, 0, 0, 2]) ∧
    ∃ c1, (processPackets cryptoExample (lateTick [1, 0])).run (acceptExample 7
        [0, 0xd4, 2, 0, 0, 0, 2]) = (.ok (true, false), c1) ∧
      c1.Open ∧ c1.state = .login ∧ Overdue (lateTick [1, 0]).timeout c1 := by
  set run := (processPackets cryptoExample (lateTick [1, 0])).run
    (acceptExample 7 [0, 0xd4, 2, 0, 0, 0, 2]) with hrun
  have hnone : run.2.player = none := by decide +kernel
  refine ⟨timeout_exact cryptoExample .start _ (lateTick_clocked _) (lateTick_through _), run.2,
    Prod.ext (by decide +kernel) rfl, by decide +kernel, by decide +kernel, ?_⟩
  rw [Overdue, hnone]
  decide +kernel

end Example

end Stronk.Mcpr
