import Stronk.HandlerMoves

/-! What the server does for a client in every tick (`update_client`): the keep-alive, the loop
that reads packets and hands them on, the timeout. Messages that go to the log are left out, and so
is `ninerr`, which nothing reads afterwards. -/
namespace Stronk.Mcpr
open ByteMemory EarlyExit
variable {κ ρ : Type}

section Model
variable (crypto : Crypto κ ρ)

/-- What the keep-alive branch finds: the internal clock before and after the write. -/
structure KeepAliveEnv where
  now : Timespec
  write : StreamWrite
  sentAt : Timespec
  close : CloseEnv

/-- What one turn of the loop finds. -/
structure Turn (ρ : Type) where
  read : ReadEnv
  handler : HandlerEnv ρ

/-- What is found when the time is up; `time` is what `time(NULL)` says. -/
structure TimeoutEnv where
  clock : Timespec
  time : ℤ
  asChat : Bool
  close : CloseEnv

/-- One tick of a client; `garbage` is what the packet on the stack holds before. -/
structure Tick (ρ : Type) where
  keepAlive : KeepAliveEnv
  garbage : McprPacket
  turns : List (Turn ρ)
  timeout : TimeoutEnv

def keepAlivePacket : McprPacket :=
  { (default : McprPacket) with
    id := .plCbKeepAlive
    state := .play
    data := { (default : McprPacketData) with
      playClientbound := { (default : PlayClientbound) with keepAlive := { keepAliveId := 0 } } } }

/-- The first part of `update_client`; does it go on? -/
def sendKeepAlive (env : KeepAliveEnv) (player : Option Player) : ConnectionProg κ ρ Bool :=
  match player with
  | none => return true
  | some player =>
    if (timespecDiff player.lastKeepaliveSent env.now).tvSec ≥ 10 then do
      let sent ← fwritePacket crypto.cipher env.write keepAlivePacket
      if sent then do
        setPlayer fun p => { p with lastKeepaliveSent := env.sentAt }
        return true
      else match env.write.ninerr with
        | none => exit .undefined
        | some err =>
          if err.type = ninerrClosed then do
            connectionClose crypto.cipher env.close none
            return false
          else return true
    else return true

/-- One turn of the loop, with what the packet on the stack holds before and after it. Without a
packet `ferror` and `clearerr` look at the stream, and the loop ends. -/
def readTurn (turn : Turn ρ) (pkt : McprPacket) : ConnectionProg κ ρ (Option McprPacket) := do
  touch
  let r ← onObjects (mcprConnectionReadPacket crypto.cipher turn.read pkt)
  if r.ok then do
    let _ ← packetHandler crypto turn.handler r.out
    return some r.out
  else do
    touch
    return none

def readLoop : List (Turn ρ) → McprPacket → ConnectionProg κ ρ Unit
  | [], _ => exit .outOfFuel
  | turn :: turns, pkt => do
    let next ← readTurn crypto turn pkt
    match next with
    | some pkt => readLoop turns pkt
    | none => pure ()

def doTimeout (env : TimeoutEnv) : ConnectionProg κ ρ Unit := do
  touch
  connectionClose crypto.cipher env.close (mcprAsChat env.asChat (ascii "Timed out. (server-side)"))

/-- The last part of `update_client`, by whether there was a player at its start. -/
def checkTimeout (env : TimeoutEnv) (hadPlayer : Bool) : ConnectionProg κ ρ Unit :=
  if hadPlayer then do
    let player ← requirePlayer
    if (timespecDiff player.lastKeepaliveReceived env.clock).tvSec ≥ 30 then doTimeout crypto env
    else pure ()
  else do
    touch
    let c ← get
    if env.time-c.connectedAt > 60 then doTimeout crypto env else pure ()

def updateClient (tick : Tick ρ) : ConnectionProg κ ρ Unit := do
  touch
  let c ← get
  let going ← sendKeepAlive crypto tick.keepAlive c.player
  if going then do
    readLoop crypto tick.turns tick.garbage
    checkTimeout crypto tick.timeout c.player.isSome
  else pure ()

end Model

section Read
variable (cipher : Cipher κ)

/-- Reading changes neither the state nor the flags, sets no ciphers and writes nothing but that
the connection is closed. -/
structure Reads (o o' : ConnObjects κ) : Prop where
  state : o'.conn.state = o.conn.state
  useEncryption : o'.conn.useEncryption = o.conn.useEncryption
  log : ∃ es, o'.log = o.log ++ es ∧ .setCrypto ∉ es ∧
    ∀ id, .writePacket id ∈ es → id = .plCbDisconnect ∧ o.conn.talks

variable {o o' o'' : ConnObjects κ}

theorem Reads.talks (h : Reads o o') : o'.conn.talks ↔ o.conn.talks := by
  rw [Conn.talks, Conn.talks, h.state]

theorem Reads.trans (h : Reads o o') (h' : Reads o' o'') : Reads o o'' := by
  obtain ⟨es, hes, hset, hall⟩ := h.log
  obtain ⟨es', hes', hset', hall'⟩ := h'.log
  refine ⟨h'.state.trans h.state, h'.useEncryption.trans h.useEncryption, es ++ es',
    by rw [hes', hes, List.append_assoc], by simp [hset, hset'], fun id hid => ?_⟩
  rcases List.mem_append.mp hid with hid | hid
  · exact hall id hid
  · exact (hall' id hid).imp_right h.talks.mp

theorem Reads.of_log (es : List ConnEvent) (hstate : o'.conn.state = o.conn.state)
    (huse : o'.conn.useEncryption = o.conn.useEncryption) (hes : o'.log = o.log ++ es)
    (hset : .setCrypto ∉ es) (hw : ∀ id, .writePacket id ∉ es) : Reads o o' :=
  ⟨hstate, huse, es, hes, hset, fun id hid => absurd hid (hw id)⟩

instance : IsPreorder (ConnObjects κ) Reads where
  refl o := .of_log [] rfl rfl (by simp) (by simp) (by simp)
  trans _ _ _ := Reads.trans

theorem mcprConnectionClose_logs (closing : ℕ → WriteEnv) (fuel : ℕ) (reason : Option (List UInt8)) :
    Moves (LogsOnly (some .plCbDisconnect)) (mcprConnectionClose cipher closing fuel reason) := by
  have hmark : Moves (LogsOnly (some .plCbDisconnect)) (record .fclose : ConnProg κ Unit) :=
    Moves.modify fun _ => ⟨[.fclose], rfl, by simp⟩
  induction fuel using Nat.strongRecOn generalizing reason with
  | ind fuel ih =>
    rcases fuel with _ | fuel
    · exact Moves.exit _
    · refine Moves.get.bind fun o => Moves.ite (Moves.pure _) ?_
      refine Moves.bind (Moves.ite ?_ (Moves.pure _)) fun _ => Moves.modify fun _ => .of_log rfl
      refine (mcprConnectionWritePacket_logs cipher _ (disconnectPacket _ _)).bind fun _ =>
        hmark.bind fun _ => ?_
      rcases fuel with _ | fuel
      · exact Moves.exit _
      · exact ih fuel (by omega) none

/-- Closing writes a Disconnect, and only if there is somebody to tell. -/
theorem mcprConnectionClose_reads (closing : ℕ → WriteEnv) (fuel : ℕ)
    (reason : Option (List UInt8)) :
    Moves Reads (mcprConnectionClose cipher closing fuel reason) := by
  intro o
  have hk := mcprConnectionClose_keeps cipher closing fuel reason o
  obtain ⟨es, hes, hall⟩ := hk.log
  refine ⟨by rw [← hk.conn], by rw [← hk.conn], es, hes, fun hset => ?_, fun id hid => ⟨?_, ?_⟩⟩
  · simpa using hall _ hset
  · obtain ⟨es', hes', hall'⟩ := mcprConnectionClose_logs cipher closing fuel reason o
    rw [hes, List.append_cancel_left_eq] at hes'
    subst hes'
    exact Option.some.inj (hall' id hid)
  · by_contra ht
    rcases fuel with _ | fuel
    · simp [mcprConnectionClose] at hes
      simp [hes] at hid
    · rw [mcprConnectionClose_quiet cipher closing fuel reason o (.inr ht)] at hes
      simp at hes
      simp [hes] at hid

theorem setNinerr_reads (err : Ninerr) : Moves Reads (setNinerr err : ConnProg κ Unit) :=
  Moves.modify fun _ => .of_log [] rfl rfl (by simp) (by simp) (by simp)

theorem growBuffer_reads (step : ReadStep) : Moves Reads (growBuffer step : ConnProg κ Bool) := by
  refine Moves.get.bind fun o => Moves.ite (Moves.ite ?_ ?_) (Moves.pure _)
  · exact (setNinerr_reads _).bind fun _ => Moves.pure _
  · refine Moves.bind (Moves.modify fun _ => ?_) fun _ => Moves.pure _
    exact .of_log [] rfl rfl (by simp) (by simp) (by simp)

theorem storeBytes_reads (bytes : List UInt8) (decrypted : Bool) (n : ℕ) :
    Moves Reads (storeBytes bytes decrypted n : ConnProg κ Unit) := fun _ =>
  .of_log [.receive bytes decrypted] rfl rfl rfl (by simp) (by simp)

theorem recordStore_reads (off len maxSize : ℕ) :
    Moves Reads (record (.store off len maxSize) : ConnProg κ Unit) := fun _ =>
  .of_log [.store off len maxSize] rfl rfl rfl (by simp) (by simp)

theorem freadStream_reads (step : ReadStep) (n : ℕ) :
    Moves Reads (freadStream step n : ConnProg κ (List UInt8)) := fun _ =>
  .of_log [] rfl rfl (by simp [freadStream]) (by simp) (by simp)

variable (env : ReadEnv) (step : ReadStep)

theorem closeOnError_reads : Moves Reads (closeOnError cipher env) :=
  mcprConnectionClose_reads cipher env.closing env.fuel none

theorem mcprCryptoDecrypt_reads (byte : UInt8) :
    Moves Reads (mcprCryptoDecrypt cipher step byte) := by
  refine Moves.get.bind fun o => ?_
  rcases o.conn.ctxDecrypt with _ | ctx
  · exact Moves.exit _
  · refine Moves.ite (Moves.bind (Moves.modify fun _ => ?_) fun _ => Moves.pure _) ?_
    · exact .of_log [] rfl rfl (by simp) (by simp) (by simp)
    · exact (setNinerr_reads _).bind fun _ => Moves.pure _

theorem readBlock_reads : Moves Reads (readBlock cipher env step) := by
  refine Moves.ite ((setNinerr_reads _).bind fun _ => Moves.pure _) (Moves.get.bind fun o => ?_)
  refine (recordStore_reads _ _ _).bind fun _ => (freadStream_reads step _).bind fun block => ?_
  rcases block with _ | ⟨byte, rest⟩
  · exact Moves.ite ((closeOnError_reads cipher env).bind fun _ => Moves.pure _) (Moves.pure _)
  · refine (mcprCryptoDecrypt_reads cipher step byte).bind fun plain => ?_
    rcases plain with _ | plain
    · exact Moves.pure _
    · exact (storeBytes_reads _ _ _).bind fun _ => Moves.pure _

theorem readPlain_reads : Moves Reads (readPlain cipher env step) := by
  refine Moves.get.bind fun o => (recordStore_reads _ _ _).bind fun _ => ?_
  refine (freadStream_reads step _).bind fun bytes => Moves.ite (Moves.ite ?_ (Moves.pure _)) ?_
  · exact (setNinerr_reads _).bind fun _ =>
      (closeOnError_reads cipher env).bind fun _ => Moves.pure _
  · exact (storeBytes_reads _ _ _).bind fun _ => Moves.pure _

theorem updateReceivingBuffer_reads : Moves Reads (updateReceivingBuffer cipher env) := by
  have hturn (step : ReadStep) : Moves Reads (updateTurn cipher env step) :=
    (growBuffer_reads step).bind fun ok => Moves.ite (Moves.pure _)
      (Moves.get.bind fun o => Moves.ite (readBlock_reads cipher env step)
        (readPlain_reads cipher env step))
  exact updateLoop_moves cipher env (hturn .quiet) env.steps fun step _ => hturn step

theorem readFrame_reads (out : McprPacket) : Moves Reads (readFrame cipher env out) := by
  have hfail (err : Ninerr) : Moves Reads (do
      setNinerr err
      return ⟨false, out⟩ : ConnProg κ ReadResult) := (setNinerr_reads err).bind fun _ => Moves.pure _
  refine Moves.get.bind fun o => Moves.ite (Moves.pure _) ?_
  split
  · exact hfail _
  · refine Moves.ite (hfail _) (Moves.ite (Moves.get.bind fun o => ?_) (Moves.pure _))
    dsimp only
    refine Moves.bind (Moves.modify fun _ => ?_) fun _ => ?_
    · exact .of_log [] rfl rfl (by simp) (by simp) (by simp)
    · split
      · exact Moves.exit _
      · refine Moves.ite ((closeOnError_reads cipher env).bind fun _ => Moves.pure _) ?_
        refine Moves.bind (Moves.get.bind fun o1 => Moves.bind (fun o2 => ?_) fun _ => ?_)
          fun _ => Moves.pure _
        · exact .of_log [.consume _ _] rfl rfl rfl (by simp) (by simp)
        · refine Moves.ite (Moves.exit _) (Moves.modify fun _ => ?_)
          exact .of_log [] rfl rfl (by simp) (by simp) (by simp)

theorem mcprConnectionReadPacket_reads (out : McprPacket) :
    Moves Reads (mcprConnectionReadPacket cipher env out) :=
  (updateReceivingBuffer_reads cipher env).bind fun _ => readFrame_reads cipher env out

theorem Reads.wroteEvents (h : Reads o o') (e : ServerEvent ρ) (he : e ∈ Mcpr.wroteEvents ρ o o') :
    e = .wrote o.conn.state .plCbDisconnect ∧ o.conn.talks := by
  obtain ⟨es, hes, -, hall⟩ := h.log
  simp only [Mcpr.wroteEvents, hes, List.drop_left, List.mem_filterMap] at he
  obtain ⟨e', he', hsome⟩ := he
  cases e' with
  | writePacket id =>
    cases hsome
    obtain ⟨rfl, ht⟩ := hall id he'
    exact ⟨rfl, ht⟩
  | _ => cases hsome

end Read

section Close
variable (cipher : Cipher κ)

/-- Nothing happened but reading and closing. -/
structure Winds (c c' : Connection κ ρ) : Prop where
  objects : Reads c.objects c'.objects
  player : c'.player = c.player
  serverAddressUsed : c'.serverAddressUsed = c.serverAddressUsed
  tmpPresent : c'.tmpPresent = c.tmpPresent
  tmp : c'.tmp = c.tmp
  history : ∃ es, c'.history = c.history ++ es ∧ ∀ e ∈ es,
    (∃ closed, e = .touch closed) ∨ e = .connectionClose ∨
      e = .wrote c.state .plCbDisconnect ∧ (c.state = .login ∨ c.state = .play)

variable {c c' c'' : Connection κ ρ}

theorem Winds.state (h : Winds c c') : c'.state = c.state := h.objects.state

theorem Winds.trans (h : Winds c c') (h' : Winds c' c'') : Winds c c'' := by
  obtain ⟨es, hes, hall⟩ := h.history
  obtain ⟨es', hes', hall'⟩ := h'.history
  refine ⟨h.objects.trans h'.objects, h'.player.trans h.player,
    h'.serverAddressUsed.trans h.serverAddressUsed, h'.tmpPresent.trans h.tmpPresent,
    h'.tmp.trans h.tmp, es ++ es', by rw [hes', hes, List.append_assoc], fun e he => ?_⟩
  rcases List.mem_append.mp he with he | he
  · exact hall e he
  · have := hall' e he
    rwa [h.state] at this

instance : IsPreorder (Connection κ ρ) Winds where
  refl c := ⟨refl_of Reads c.objects, rfl, rfl, rfl, rfl, [], by simp, by simp⟩
  trans _ _ _ := Winds.trans

theorem touch_winds : Moves Winds (touch : ConnectionProg κ ρ Unit) := by
  intro c
  rw [touch_run]
  exact ⟨refl_of Reads c.objects, rfl, rfl, rfl, rfl, _, rfl, by simp⟩

theorem onObjects_winds {α : Type} {m : ConnProg κ α} (h : Moves Reads m) :
    Moves Winds (onObjects m : ConnectionProg κ ρ α) := by
  intro c
  refine ⟨h c.objects, rfl, rfl, rfl, rfl, _, rfl, fun e he => .inr (.inr ?_)⟩
  exact (h c.objects).wroteEvents e he

theorem connectionClose_winds (env : CloseEnv) (message : Option (List UInt8)) :
    Moves Winds (connectionClose cipher env message : ConnectionProg κ ρ Unit) := by
  refine touch_winds.bind fun _ => Moves.get.bind fun c => Moves.ite (Moves.exit _) ?_
  refine Moves.bind (fun c => ?_) fun _ => Moves.bind (fun c => ?_) fun _ =>
    Moves.bind (onObjects_winds (mcprConnectionClose_reads cipher _ _ _)) fun _ => fun c => ?_
  · exact ⟨refl_of Reads c.objects, rfl, rfl, rfl, rfl, [.connectionClose], rfl, by simp⟩
  · exact ⟨refl_of Reads c.objects, rfl, rfl, rfl, rfl, [], by simp, by simp⟩
  · exact ⟨refl_of Reads c.objects, rfl, rfl, rfl, rfl, [], by simp, by simp⟩

theorem requirePlayer_winds : Moves Winds (requirePlayer : ConnectionProg κ ρ Player) := by
  refine Moves.get.bind fun c => ?_
  rcases c.player with _ | p
  · exact Moves.exit _
  · exact Moves.pure _

theorem checkTimeout_winds (crypto : Crypto κ ρ) (env : TimeoutEnv) (hadPlayer : Bool) :
    Moves Winds (checkTimeout crypto env hadPlayer) := by
  have htimeout : Moves Winds (doTimeout crypto env) :=
    touch_winds.bind fun _ => connectionClose_winds crypto.cipher _ _
  refine Moves.ite (requirePlayer_winds.bind fun player => Moves.ite htimeout (Moves.pure _)) ?_
  exact touch_winds.bind fun _ => Moves.get.bind fun c => Moves.ite htimeout (Moves.pure _)

end Close

section Rule
variable (crypto : Crypto κ ρ)

/-- Up to the loop: does it go on, and was there a player? -/
def tickStart (tick : Tick ρ) : ConnectionProg κ ρ (Bool × Bool) := do
  touch
  let c ← get
  let going ← sendKeepAlive crypto tick.keepAlive c.player
  return (going, c.player.isSome)

theorem updateClient_run (tick : Tick ρ) (c : Connection κ ρ) : (updateClient crypto tick).run c =
    (do
      let start ← tickStart crypto tick
      if start.1 then do
        readLoop crypto tick.turns tick.garbage
        checkTimeout crypto tick.timeout start.2
      else pure () : ConnectionProg κ ρ Unit).run c := by
  simp only [updateClient, tickStart, bind_run, get_run, pure_run]
  rcases (touch : ConnectionProg κ ρ Unit).run c with ⟨e | ⟨⟩, c1⟩
  · rfl
  · rcases hs : (sendKeepAlive crypto tick.keepAlive c1.player).run c1 with ⟨e | going, c2⟩ <;>
      simp only [hs]

/-- The first half of a turn. -/
def receivePacket (turn : Turn ρ) (pkt : McprPacket) : ConnectionProg κ ρ ReadResult := do
  touch
  onObjects (mcprConnectionReadPacket crypto.cipher turn.read pkt)

theorem readTurn_run (turn : Turn ρ) (pkt : McprPacket) (c : Connection κ ρ) :
    (readTurn crypto turn pkt).run c = (do
      let r ← receivePacket crypto turn pkt
      if r.ok then do
        let _ ← packetHandler crypto turn.handler r.out
        return some r.out
      else do
        touch
        return none : ConnectionProg κ ρ (Option McprPacket)).run c := by
  simp only [readTurn, receivePacket, bind_run]
  rcases (touch : ConnectionProg κ ρ Unit).run c with ⟨e | ⟨⟩, c1⟩ <;> rfl

/-- The packet of a turn, if there is one, meets the condition `Q` in the state it is handed on
in. -/
def Dispatches (Q : HandlerEnv ρ → McprPacket → Connection κ ρ → Prop) (turn : Turn ρ)
    (pkt : McprPacket) (c : Connection κ ρ) : Prop :=
  ∀ r, ((receivePacket crypto turn pkt).run c).1 = .ok r → r.ok = true →
    Q turn.handler r.out ((receivePacket crypto turn pkt).run c).2

variable (P : Turn ρ → McprPacket → Connection κ ρ → Prop)

/-- Every turn that the loop comes to meets the condition `P` in the state it starts in. -/
def TurnsMeet : List (Turn ρ) → McprPacket → Connection κ ρ → Prop
  | [], _, _ => True
  | turn :: turns, pkt, c => P turn pkt c ∧
      ∀ next, ((readTurn crypto turn pkt).run c).1 = .ok (some next) →
        TurnsMeet turns next ((readTurn crypto turn pkt).run c).2

/-- Every turn of a tick meets the condition `P`. -/
def TickMeets (tick : Tick ρ) (c : Connection κ ρ) : Prop :=
  ∀ hadPlayer, ((tickStart crypto tick).run c).1 = .ok (true, hadPlayer) →
    TurnsMeet crypto P tick.turns tick.garbage ((tickStart crypto tick).run c).2

/-- Ticks of a client, as long as it is in the list of clients. -/
abbrev Served : Connection κ ρ → Except Halt Unit → Connection κ ρ → Prop :=
  Reaches (updateClient crypto) fun c tick => c.listed = true ∧ TickMeets crypto P tick c

variable {crypto P} {A I K J E : Connection κ ρ → Prop}

/-- The halves of a turn put together. -/
theorem readTurn_ensures {Q : HandlerEnv ρ → McprPacket → Connection κ ρ → Prop} {turn : Turn ρ}
    {pkt : McprPacket} (hread : Ensures A (receivePacket crypto turn pkt) (fun _ => I) E)
    (hpacket : ∀ pkt, Ensures (fun c => Q turn.handler pkt c ∧ I c)
      (packetHandler crypto turn.handler pkt) (fun _ => J) E)
    (hend : Ensures I (touch : ConnectionProg κ ρ Unit) (fun _ => K) E) :
    Ensures (fun c => Dispatches crypto Q turn pkt c ∧ A c) (readTurn crypto turn pkt)
      (fun next c => if next.isSome then J c else K c) E := by
  have hrest (r : ReadResult) : Ensures (fun c => (r.ok = true → Q turn.handler r.out c) ∧ I c)
      (if r.ok then do
        let _ ← packetHandler crypto turn.handler r.out
        return some r.out
      else do
        touch
        return none : ConnectionProg κ ρ (Option McprPacket))
      (fun next c => if next.isSome then J c else K c) E := by
    refine Ensures.ite (fun hok => ?_) fun _ => ?_
    · refine Ensures.bind ((hpacket r.out).mono (fun c hc => ⟨hc.1 hok, hc.2⟩) (fun _ _ h => h)
        fun _ h => h) fun _ => Ensures.pure fun _ h => ?_
      simpa using h
    · refine Ensures.bind (hend.mono (fun c hc => hc.2) (fun _ _ h => h) fun _ h => h)
        fun _ => Ensures.pure fun _ h => ?_
      simpa using h
  rintro c ⟨hq, ha⟩
  have hr := hread c ha
  unfold Dispatches at hq
  rw [readTurn_run, bind_run]
  -- the condition speaks of the state in between, and so the first half is run
  rcases hrun : (receivePacket crypto turn pkt).run c with ⟨e | r, c1⟩ <;> rw [hrun] at hr hq
  · exact ⟨fun _ h => (by cases h), fun _ _ => hr.2 e rfl⟩
  · exact hrest r c1 ⟨hq r rfl, hr.1 r rfl⟩

/-- What every turn ensures, the loop ensures: `I` as long as it goes on, `K` after it. -/
theorem readLoop_ensures (hturn : ∀ turn pkt, Ensures (fun c => P turn pkt c ∧ I c)
      (readTurn crypto turn pkt) (fun next c => if next.isSome then I c else K c) E)
    (hfuel : ∀ c, I c → E c) (turns : List (Turn ρ)) (pkt : McprPacket) :
    Ensures (fun c => TurnsMeet crypto P turns pkt c ∧ I c) (readLoop crypto turns pkt)
      (fun _ => K) E := by
  -- by induction on the turns: what the packet on the stack holds goes from one to the next
  induction turns generalizing pkt with
  | nil => exact Ensures.exit fun c hc => hfuel c hc.2
  | cons turn turns ih =>
    rintro c ⟨⟨hp, hrest⟩, hi⟩
    have hone := hturn turn pkt c ⟨hp, hi⟩
    simp only [readLoop, bind_run]
    rcases hr : (readTurn crypto turn pkt).run c with ⟨e | _ | next, c1⟩ <;> rw [hr] at hone hrest
    · exact ⟨fun _ h => (by cases h), fun _ _ => hone.2 e rfl⟩
    · exact ⟨fun _ _ => hone.1 none rfl, fun _ h => by cases h⟩
    · exact ih next c1 ⟨hrest next rfl, hone.1 (some next) rfl⟩

/-- The parts of a tick put together. -/
theorem updateClient_ensures (tick : Tick ρ)
    (hstart : Ensures A (tickStart crypto tick) (fun start c => if start.1 then I c else J c) E)
    (hturn : ∀ turn pkt, Ensures (fun c => P turn pkt c ∧ I c)
      (readTurn crypto turn pkt) (fun next c => if next.isSome then I c else K c) E)
    (hfuel : ∀ c, I c → E c)
    (htimeout : ∀ hadPlayer, Ensures K (checkTimeout crypto tick.timeout hadPlayer) (fun _ => J) E) :
    Ensures (fun c => TickMeets crypto P tick c ∧ A c) (updateClient crypto tick) (fun _ => J) E := by
  rintro c ⟨hmeets, ha⟩
  have hs := hstart c ha
  rw [updateClient_run]
  simp only [bind_run]
  rcases hr : (tickStart crypto tick).run c with ⟨e | ⟨going, hadPlayer⟩, c1⟩
  · rw [hr] at hs
    exact ⟨fun _ h => (by cases h), fun _ _ => hs.2 e rfl⟩
  · have hmeets := hmeets hadPlayer
    rw [hr] at hs hmeets
    have hs := hs.1 _ rfl
    cases going with
    | false => exact ⟨fun _ _ => hs, fun _ h => by cases h⟩
    | true =>
      have hloop := readLoop_ensures hturn hfuel tick.turns tick.garbage
      exact hloop.bind (fun _ => htimeout hadPlayer) c1 ⟨hmeets rfl, hs⟩

/-- The parts of the keep-alive put together: `L` holds of players, and so while one is written
to. -/
theorem tickStart_ensures {L : Connection κ ρ → Prop} (tick : Tick ρ)
    (htouch : Ensures A (touch : ConnectionProg κ ρ Unit) (fun _ => I) E)
    (hplayer : ∀ c, I c → c.player.isSome = true → L c) (hback : ∀ c, L c → I c)
    (htalks : ∀ {α : Type} {m : ConnectionProg κ ρ α}, Moves (Talks PlayType) m →
      Ensures L m (fun _ => L) E)
    (hclose : Ensures I (connectionClose crypto.cipher tick.keepAlive.close none :
      ConnectionProg κ ρ Unit) (fun _ => J) E)
    (hexit : ∀ c, I c → E c) :
    Ensures A (tickStart crypto tick) (fun start c => if start.1 then I c else J c) E := by
  have hgoes : Ensures I (return true : ConnectionProg κ ρ Bool)
      (fun going c => if going then I c else J c) E := by
    apply Ensures.pure
    intro c hc
    simpa using hc
  have hgoesOn : Ensures L (return true : ConnectionProg κ ρ Bool)
      (fun going c => if going then I c else J c) E :=
    hgoes.mono hback (fun _ _ h => h) fun _ h => h
  have hwrite : Ensures L (fwritePacket crypto.cipher tick.keepAlive.write keepAlivePacket :
      ConnectionProg κ ρ Bool) (fun _ => L) E := by
    apply htalks
    apply fwritePacket_talks
    simp [PlayType, keepAlivePacket]
  have hset : Ensures L (setPlayer fun p => { p with lastKeepaliveSent := tick.keepAlive.sentAt } :
      ConnectionProg κ ρ Unit) (fun _ => L) E := by
    apply htalks
    apply setPlayer_talks
    intro p
    rfl
  -- the player that is written to is the one found before the write
  have hsend (c0 : Connection κ ρ) : Ensures (fun c => I c ∧ c = c0)
      (sendKeepAlive crypto tick.keepAlive c0.player)
      (fun going c => if going then I c else J c) E := by
    have hstart : Ensures (fun c => I c ∧ c = c0) (return true : ConnectionProg κ ρ Bool)
        (fun going c => if going then I c else J c) E :=
      hgoes.mono (fun _ h => h.1) (fun _ _ h => h) fun _ h => h
    unfold sendKeepAlive
    split
    · exact hstart
    · rename_i player hp
      have hin (c : Connection κ ρ) (hc : I c ∧ c = c0) : L c := by
        obtain ⟨hi, rfl⟩ := hc
        apply hplayer c hi
        rw [hp]
        rfl
      have hsent := hwrite.mono hin (fun _ _ h => h) fun _ h => h
      refine Ensures.ite (fun _ => hsent.bind fun sent => Ensures.ite (fun _ => ?_) fun _ => ?_)
        fun _ => hstart
      · exact hset.bind fun _ => hgoesOn
      · split
        · exact Ensures.exit fun c hc => hexit c (hback c hc)
        · refine Ensures.ite (fun _ => ?_) fun _ => hgoesOn
          have hclosed := hclose.mono hback (fun _ _ h => h) fun _ h => h
          exact hclosed.bind fun _ => Ensures.pure fun c hc => by simpa using hc
  refine htouch.bind fun _ => Ensures.bind (Q := fun c0 c => I c ∧ c = c0)
    (Ensures.get fun c hc => ⟨hc, rfl⟩) fun c0 => ?_
  exact (hsend c0).bind fun going => Ensures.pure fun _ h => h

/-- What reading, closing and the keep-alive do not change, a tick keeps if every packet that is
handed on does. -/
theorem updateClient_dispatches {L : Connection κ ρ → Prop}
    {Q : HandlerEnv ρ → McprPacket → Connection κ ρ → Prop} (tick : Tick ρ)
    (hwinds : ∀ c c', I c → Winds c c' → I c')
    (hplayer : ∀ c, I c → c.player.isSome = true → L c) (hback : ∀ c, L c → I c)
    (htalks : ∀ c c', L c → Talks PlayType c c' → L c')
    (hpacket : ∀ env pkt, Ensures (fun c => Q env pkt c ∧ I c) (packetHandler crypto env pkt)
      (fun _ => I) E)
    (hexit : ∀ c, I c → E c) :
    Ensures (fun c => TickMeets crypto (Dispatches crypto Q) tick c ∧ I c) (updateClient crypto tick)
      (fun _ => I) E := by
  have hof {α : Type} {m : ConnectionProg κ ρ α} (hm : Moves Winds m) :
      Ensures I m (fun _ => I) E := by
    apply Ensures.of_moves hm
    intro c c' hc hw
    have hc' := hwinds c c' hc hw
    exact ⟨fun _ => hc', hexit c' hc'⟩
  have htalk {α : Type} {m : ConnectionProg κ ρ α} (hm : Moves (Talks PlayType) m) :
      Ensures L m (fun _ => L) E := by
    apply Ensures.of_moves hm
    intro c c' hc ht
    have hc' := htalks c c' hc ht
    exact ⟨fun _ => hc', hexit c' (hback c' hc')⟩
  have hstart := tickStart_ensures tick (hof touch_winds) hplayer hback htalk
    (hof (connectionClose_winds crypto.cipher tick.keepAlive.close none)) hexit
  have hread (turn : Turn ρ) (pkt : McprPacket) : Ensures I (receivePacket crypto turn pkt)
      (fun _ => I) E := by
    apply (hof touch_winds).bind
    intro _
    exact hof (onObjects_winds (mcprConnectionReadPacket_reads crypto.cipher turn.read pkt))
  apply updateClient_ensures tick hstart
  · intro turn pkt
    exact readTurn_ensures (hread turn pkt) (hpacket turn.handler) (hof touch_winds)
  · exact hexit
  · intro hadPlayer
    exact hof (checkTimeout_winds crypto tick.timeout hadPlayer)

/-- What a tick keeps holds in every state of a run, up to what is left of it at an early exit. -/
theorem Served.ends {s c : Connection κ ρ} {r : Except Halt Unit} (hs : I s)
    (htick : ∀ tick, Ensures (fun c => TickMeets crypto P tick c ∧ I c) (updateClient crypto tick)
      (fun _ => I) E)
    (hexit : ∀ c, I c → E c) (h : Served crypto P s r c) : E c := by
  have hends := h.ensures hs fun tick =>
    (htick tick).mono (fun _ hu => ⟨hu.1.2, hu.2⟩) (fun _ _ h => h) fun _ h => h
  cases r with
  | ok a => exact hexit c (hends.1 rfl)
  | error e => exact hends.2 e rfl

theorem turnsMeet_of_forall (h : ∀ turn pkt c, P turn pkt c) (turns : List (Turn ρ))
    (pkt : McprPacket) (c : Connection κ ρ) : TurnsMeet crypto P turns pkt c := by
  induction turns generalizing pkt c with
  | nil => exact trivial
  | cons turn turns ih => exact ⟨h turn pkt c, fun next _ => ih next _⟩

end Rule

section Example

/-- A cipher and an RSA without secrets. -/
def cryptoExample : Crypto Unit Unit where
  cipher := cipherExample
  initCipher := fun _ => ()
  rsaSize := fun _ => 8
  rsaPrivateDecrypt := fun _ bytes => some bytes
  i2dRsaPubkey := fun _ => []
  sha1 := fun _ => default

def closeExample : CloseEnv := { fuel := 2, closing := default }

def playerExample : PlayerEnv := { malloc := some default, entityId := 0, clock := default }

def sequenceExample : SequenceEnv :=
  { joinGame := default, brand := default, spawnPosition := default, playerAbilities := default }

/-- Everything goes well, and the session server knows the client. -/
def handlerExample : HandlerEnv Unit where
  handshake := { asChat := false, mallocAddress := true }
  motd := []
  write := default
  loginStart :=
    { asChat := false, rsa := some (), encodeKey := true, mallocToken := true
      secureRandom := some default, request := default, mallocUsername := true
      generateUuid := some default, success := default, player := playerExample
      sequence := sequenceExample }
  encryptionResponse :=
    { asChat := false, mallocSecret := true, newEncrypt := true, initEncrypt := true
      newDecrypt := true, initDecrypt := true, encodeKey := true, sha1Init := true
      sha1Secret := true, sha1Key := true, sha1Final := true, hasJoined := some default
      success := default, player := playerExample, sequence := sequenceExample }
  clock := default
  pluginMessage := { decode := spare .little, behind := fun _ => 0 }
  clientSettings :=
    { mallocLocale := true, host := .little, base := (0, 0)
      chunks := fun _ _ => { chunk := none, malloc := false, write := default }
      position := default }
  close := closeExample

/-- `n` bytes arrive at once. -/
def readExample (n : ℕ) : ReadEnv where
  fuel := 2
  closing := default
  steps := [{ ReadStep.quiet with ready := n }]
  decode := spare .little

/-- A turn of the loop for every number of bytes. -/
def tickExample (arrived : List ℕ) : Tick Unit where
  keepAlive := { now := default, write := default, sentAt := default, close := closeExample }
  garbage := default
  turns := arrived.map fun n => { read := readExample n, handler := handlerExample }
  timeout := { clock := default, time := 0, asChat := false, close := closeExample }

/-- One byte arrives. The reader counts 256, and takes the others from what `malloc` left in the
buffer. -/
def acceptExample (byte : UInt8) (left : List UInt8) : Connection Unit Unit :=
  acceptConnection Unit (ofList (0 :: left)) [byte] 0

/-- A client that logs in: a Handshake, a Login Start, an Encryption Response. -/
def loginInput : Connection Unit Unit :=
  acceptExample 7 [0, 0xd4, 2, 0, 0, 0, 2, 3, 0, 1, 0x61, 5, 1, 1, 0xaa, 1, 0xbb]

/-- A client that has not sent anything. -/
def silentExample : Connection Unit Unit := acceptConnection Unit (fun _ => 0) [] 0

theorem served_tick {P : Turn Unit → McprPacket → Connection Unit Unit → Prop}
    (c : Connection Unit Unit) (tick : Tick Unit) (hl : c.listed = true)
    (hp : TickMeets cryptoExample P tick c) :
    ∃ r, Served cryptoExample P c r ((updateClient cryptoExample tick).run c).2 :=
  ⟨_, Reaches.call tick .start ⟨hl, hp⟩⟩

end Example

end Stronk.Mcpr
