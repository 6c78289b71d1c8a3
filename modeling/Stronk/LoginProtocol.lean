import Stronk.DecodedFields
import Stronk.LoginMoves
import Stronk.UpdateClient

/-! The states that a connection goes through (`packet_handler`), and what is known of the client in
each of them. -/
namespace Stronk.Mcpr
open ByteMemory EarlyExit
variable {κ ρ : Type}

section Property

/-- From HANDSHAKE to STATUS or LOGIN, from LOGIN to PLAY. -/
def Advances (a b : McprState) : Prop :=
  a = .handshake ∧ (b = .status ∨ b = .login) ∨ a = .login ∧ b = .play

def ServerEvent.newState : ServerEvent ρ → Option McprState
  | .setState state => some state
  | _ => none

/-- The name in a Login Start. -/
def ServerEvent.name : ServerEvent ρ → Option (List UInt8)
  | .loginStart name => some name
  | _ => none

/-- The address in a Handshake. -/
def ServerEvent.address : ServerEvent ρ → Option (List UInt8)
  | .handshake address => some address
  | _ => none

/-- The states so far, from the first. -/
def states (history : List (ServerEvent ρ)) : List McprState :=
  .handshake :: history.filterMap ServerEvent.newState

/-- The player is the one of the last Login Start, and the session server knows it. -/
def PlayerKnown (c : Connection κ ρ) : Prop :=
  ∃ player hash address, c.player = some player ∧
    lastOf ServerEvent.name c.history = some player.username ∧
      .hasJoined player.username hash address player.uuid ∈ c.history

/-- The address that is used is the one of the Handshake. -/
def AddressKnown (c : Connection κ ρ) : Prop :=
  ∃ address, c.serverAddressUsed = some address ∧
    lastOf ServerEvent.address c.history = some address

/-- At the end of a run, with the result `r`, the login protocol was kept. -/
structure LoginProtocol (r : Except Halt Unit) (c : Connection κ ρ) : Prop where
  advances : (states c.history).IsChain Advances
  current : (states c.history).getLast? = some c.state
  player : r = .ok () → c.listed = true → c.state = .play → PlayerKnown c
  address : r = .ok () → c.listed = true → c.state ≠ .handshake → AddressKnown c
  tmp : .useTmp false ∉ c.history

/-- A packet that is handed to `packet_handler`. -/
structure Dispatched (ρ : Type) where
  env : HandlerEnv ρ
  pkt : McprPacket

/-- The packet was decoded in a state, with a positive count. -/
def DecodedIn (state : McprState) (pkt : McprPacket) : Prop :=
  ∃ env out mem maxlen n, 0 < n ∧ (mcprDecodePacket env out mem state maxlen).exit = .ret n ∧
    (mcprDecodePacket env out mem state maxlen).out = pkt

variable (crypto : Crypto κ ρ)

/-- Packets are handed to `packet_handler`, each decoded in the state that the connection is in, as
long as it is in the list of clients. -/
abbrev Handled : Connection κ ρ → Except Halt Unit → Connection κ ρ → Prop :=
  Reaches (fun d : Dispatched ρ => packetHandler crypto d.env d.pkt) fun c d =>
    c.listed = true ∧ DecodedIn c.state d.pkt

end Property

section Invariant

/-- What holds even where the program stops. -/
structure Orderly (c : Connection κ ρ) : Prop where
  advances : (states c.history).IsChain Advances
  current : (states c.history).getLast? = some c.state
  tmp : .useTmp false ∉ c.history

/-- What is known of a client whose connection stays open. -/
structure Known (c : Connection κ ρ) : Prop where
  awaits : c.tmpPresent = true → ∃ key token name, Awaits key token name c ∧
    lastOf ServerEvent.name c.history = some name
  address : c.state ≠ .handshake → AddressKnown c
  player : c.state = .play → PlayerKnown c

variable {c c' : Connection κ ρ}

theorem ServerEvent.Minor.silent {e : ServerEvent ρ} (h : e.Minor) :
    e.newState = none ∧ e.name = none ∧ e.address = none ∧ e ≠ .useTmp false := by
  cases e with
  | useTmp live =>
    cases (h : live = true)
    exact ⟨rfl, rfl, rfl, nofun⟩
  | handshake => exact h.elim
  | setState => exact h.elim
  | loginStart => exact h.elim
  | _ => exact ⟨rfl, rfl, rfl, nofun⟩

theorem Orderly.of_silent {es : List (ServerEvent ρ)} (h : Orderly c)
    (hes : c'.history = c.history ++ es) (hstate : c'.state = c.state)
    (hall : ∀ e ∈ es, e.newState = none ∧ e ≠ .useTmp false) : Orderly c' := by
  have hstates : states c'.history = states c.history := by
    have hnil : es.filterMap ServerEvent.newState = [] :=
      List.filterMap_eq_nil_iff.mpr fun e he => (hall e he).1
    rw [states, states, hes, List.filterMap_append, hnil, List.append_nil]
  refine ⟨hstates ▸ h.advances, by rw [hstates, h.current, hstate], fun ht => ?_⟩
  rw [hes] at ht
  rcases List.mem_append.mp ht with ht | ht
  · exact h.tmp ht
  · exact (hall _ ht).2 rfl

theorem Orderly.stays (h : Orderly c) (hs : Stays ServerEvent.Minor c c') : Orderly c' := by
  obtain ⟨es, hes, hall⟩ := hs.history
  exact h.of_silent hes hs.state fun e he => ⟨(hall e he).silent.1, (hall e he).silent.2.2.2⟩

theorem Orderly.advance {state : McprState} (h : Orderly c) (hnext : Advances c.state state)
    (hes : c'.history = c.history ++ [.setState state]) (hstate : c'.state = state) :
    Orderly c' := by
  have hstates : states c'.history = states c.history ++ [state] := by
    rw [states, states, hes, List.filterMap_append]
    rfl
  refine ⟨?_, by simp [hstates, hstate], fun ht => ?_⟩
  · rw [hstates, List.isChain_append]
    refine ⟨h.advances, List.isChain_singleton _, fun a ha b hb => ?_⟩
    rw [h.current] at ha
    cases ha
    cases hb
    exact hnext
  · rw [hes] at ht
    rcases List.mem_append.mp ht with ht | ht
    · exact h.tmp ht
    · cases List.mem_singleton.mp ht

/-- What is noted in between says nothing of the address. -/
theorem AddressKnown.of_append {es : List (ServerEvent ρ)} (h : AddressKnown c)
    (hused : c'.serverAddressUsed = c.serverAddressUsed) (hes : c'.history = c.history ++ es)
    (hall : ∀ e ∈ es, e.address = none) : AddressKnown c' := by
  obtain ⟨address, hknown, hlast⟩ := h
  refine ⟨address, hused.trans hknown, ?_⟩
  rw [hes, lastOf_append hall, hlast]

theorem AddressKnown.stays (h : AddressKnown c) (hs : Stays ServerEvent.Minor c c') :
    AddressKnown c' := by
  obtain ⟨es, hes, hall⟩ := hs.history
  exact h.of_append hs.serverAddressUsed hes fun e he => (hall e he).silent.2.2.1

/-- Packets were sent and received, but nobody else is playing. -/
theorem Known.talks {ids : McprPacketType → Prop} (h : Known c) (ht : Talks ids c c') :
    Known c' := by
  have hs : Stays ServerEvent.Minor c c' := ht.stays
  have hname := hs.lastOf (f := ServerEvent.name) fun e he => he.silent.2.1
  obtain ⟨es, hes, -⟩ := hs.history
  refine ⟨fun hp => ?_, fun hstate => ?_, fun hstate => ?_⟩
  · obtain ⟨key, token, name, hawaits, hlast⟩ := h.awaits (ht.tmpPresent ▸ hp)
    exact ⟨key, token, name, hawaits.talks ht, hname.trans hlast⟩
  · exact (h.address (ht.state ▸ hstate)).stays hs
  · obtain ⟨player, hash, address, hplayer, hlast, hjoined⟩ := h.player (ht.state ▸ hstate)
    have hsame := ht.player
    rw [hplayer, Option.map_some, Option.map_eq_some_iff] at hsame
    obtain ⟨player', hplayer', hidentity⟩ := hsame
    obtain ⟨husername, huuid⟩ := Prod.mk.inj hidentity
    refine ⟨player', hash, address, hplayer', ?_, ?_⟩
    · rw [hname, hlast, husername]
    · rw [husername, huuid, hes]
      exact List.mem_append_left _ hjoined

end Invariant

section Handlers
variable (crypto : Crypto κ ρ)

/-- What a handler does in a state: unless the connection is to be closed, what has to be known is
known afterwards. -/
abbrev Proceeds (A : Connection κ ρ → Prop) (m : ConnectionProg κ ρ HpResult) : Prop :=
  Ensures (fun c => A c ∧ Orderly c ∧ Known c) m
    (fun r c => Orderly c ∧ (¬ r.Closes → Known c)) Orderly

theorem proceeds_of_talks {A : Connection κ ρ → Prop} {ids : McprPacketType → Prop}
    {m : ConnectionProg κ ρ HpResult} (h : Moves (Talks ids) m) : Proceeds A m :=
  Ensures.of_moves h fun _ _ hc ht =>
    ⟨fun _ => ⟨hc.2.1.stays ht.stays, fun _ => hc.2.2.talks ht⟩, hc.2.1.stays ht.stays⟩

theorem handleHsHandshake_proceeds (env : HandshakeEnv) (pkt : McprPacket) :
    Proceeds (fun c : Connection κ ρ => c.state = .handshake ∧
      (pkt.data.handshake.nextState = .status ∨ pkt.data.handshake.nextState = .login))
        (handleHsHandshake env pkt) := by
  rintro c ⟨⟨hs, hnext⟩, horder, hknown⟩
  obtain ⟨r, c', hr, hg⟩ := handleHsHandshake_greets env pkt c
  have hstate : c'.state = pkt.data.handshake.nextState := by rw [Connection.state, hg.objects]
  -- the address is noted before the state changes
  set c1 := c.noted [.handshake (cString pkt.data.handshake.serverAddress)] with hc1
  have h1 : Orderly c1 := horder.of_silent rfl rfl (by simp [ServerEvent.newState])
  have hhistory : c'.history = c1.history ++ [.setState pkt.data.handshake.nextState] := by
    rw [hg.history, hc1, Connection.noted, List.append_assoc]
    rfl
  have horder' : Orderly c' := h1.advance (.inl ⟨hs, hnext⟩) hhistory hstate
  have hknown' (hopen : ¬ r.Closes) : Known c' := by
    have hok : r.result = .ok := by
      rcases hg.result with hok | hfatal
      · exact hok
      · exact absurd (.inl hfatal) hopen
    refine ⟨fun hp => ?_, fun _ => ⟨_, hg.address hok, ?_⟩, fun hplay => ?_⟩
    · obtain ⟨key, token, name, hawaits, hlast⟩ := hknown.awaits (hg.tmpPresent ▸ hp)
      refine ⟨key, token, name, hawaits.of_tmp hg.tmpPresent hg.tmp, ?_⟩
      rw [hg.history, lastOf_append (by simp [ServerEvent.name]), hlast]
    · rw [hhistory, lastOf_append (by simp [ServerEvent.address])]
      exact lastOf_snoc rfl
    · rw [hstate] at hplay
      rcases hnext with hn | hn <;> rw [hn] at hplay <;> cases hplay
  rw [hr]
  refine ⟨fun r' he => ?_, fun _ he => by cases he⟩
  cases he
  exact ⟨horder', hknown'⟩

theorem handleLgLoginStart_proceeds (env : LoginStartEnv ρ) (pkt : McprPacket) :
    Proceeds (fun c => c.state = .login) (handleLgLoginStart crypto env pkt) := by
  rintro c ⟨hs, horder, hknown⟩
  set name := cString pkt.data.loginServerbound.loginStart.name with hname
  have hnamed : Orderly (c.named name) :=
    horder.of_silent rfl rfl (by simp [ServerEvent.newState])
  have haddress : AddressKnown (c.named name) := by
    have hbefore : AddressKnown c := hknown.address (by rw [hs]; exact nofun)
    exact hbefore.of_append rfl rfl (by simp [ServerEvent.address])
  rw [handleLgLoginStart_run]
  obtain ⟨c1, ht, ⟨hr, hcloses⟩ | ⟨token, hr⟩⟩ :=
    requestEncryption_cases crypto env name (c.named name)
  · rw [hr]
    have h1 : Orderly c1 := hnamed.stays ht.stays
    exact ⟨fun r he => ⟨h1, fun hopen => absurd (hcloses r he) hopen⟩, fun _ _ => h1⟩
  · rw [hr]
    have hstate : c1.state = .login := ht.state.trans hs
    have h1 : Orderly (c1.challenged env.rsa token name) :=
      (hnamed.stays ht.stays).of_silent rfl rfl (by simp [ServerEvent.newState])
    have hstays : Stays ServerEvent.Minor (c.named name) c1 := ht.stays
    refine ⟨fun r _ => ⟨h1, fun _ => ⟨fun _ => ?_, fun _ => ?_, fun hplay => ?_⟩⟩,
      fun _ he => by cases he⟩
    · refine ⟨env.rsa, token, name, ⟨rfl, rfl⟩, ?_⟩
      have hlast := hstays.lastOf (f := ServerEvent.name) fun e he => he.silent.2.1
      rw [Connection.challenged, lastOf_append (by simp [ServerEvent.name]), hlast]
      exact lastOf_snoc rfl
    · exact (haddress.stays hstays).of_append rfl rfl (by simp [ServerEvent.address])
    · cases hstate.symm.trans hplay

/-- The login of a client that the session server knows comes to an end. -/
theorem enterPlay_proceeds {key : Option ρ} {token name hash : List UInt8} {id : Ninuuid}
    {address : Option (List UInt8)} (env : EncryptionResponseEnv) {c : Connection κ ρ}
    (hs : c.state = .login) (horder : Orderly c) (haddress : AddressKnown c)
    (hawaits : Awaits key token name c) (hlast : lastOf ServerEvent.name c.history = some name)
    (hjoined : .hasJoined name hash address id ∈ c.history) :
    Orderly ((enterPlay crypto env id).run c).2 ∧
      ∀ r, ((enterPlay crypto env id).run c).1 = .ok r → ¬ r.Closes →
        Known ((enterPlay crypto env id).run c).2 := by
  rcases enterPlay_cases crypto env id hawaits with ⟨hstays, hr⟩ | ⟨c1, hs1, hs2, hr⟩
  · exact ⟨horder.stays hstays, fun r he hopen => absurd (hr r he).1 hopen⟩
  · have hentered : Orderly c1.entered :=
      (horder.stays hs1).advance (.inr ⟨hs1.state.trans hs, rfl⟩) rfl rfl
    refine ⟨hentered.stays hs2, fun r he hopen => ?_⟩
    obtain ⟨hp, hcloses | ⟨-, hidentity⟩⟩ := hr r he
    · exact absurd hcloses hopen
    obtain ⟨player, hplayer, heq⟩ := Option.map_eq_some_iff.mp hidentity
    obtain ⟨husername, huuid⟩ := Prod.mk.inj heq
    have hname1 : lastOf ServerEvent.name c1.entered.history = some name := by
      rw [Connection.entered, lastOf_append (by simp [ServerEvent.name]),
        hs1.lastOf fun e he => he.silent.2.1, hlast]
    have haddress1 : AddressKnown c1.entered :=
      (haddress.stays hs1).of_append rfl rfl (by simp [ServerEvent.address])
    have hjoined1 : .hasJoined name hash address id ∈ c1.entered.history := by
      obtain ⟨es, hes, -⟩ := hs1.history
      refine List.mem_append_left _ ?_
      rw [hes]
      exact List.mem_append_left _ hjoined
    refine ⟨fun ht => absurd ht (by simp [hp]), fun _ => haddress1.stays hs2, fun _ => ?_⟩
    refine ⟨player, hash, address, hplayer, ?_, ?_⟩
    · rw [hs2.lastOf fun e he => he.silent.2.1, hname1, husername]
    · obtain ⟨es, hes, -⟩ := hs2.history
      rw [husername, huuid, hes]
      exact List.mem_append_left _ hjoined1

theorem handleLgEncryptionResponse_proceeds (env : EncryptionResponseEnv) (pkt : McprPacket) :
    Proceeds (fun c => c.state = .login) (handleLgEncryptionResponse crypto env pkt) := by
  rintro c ⟨hs, horder, hknown⟩
  set response := pkt.data.loginServerbound.encryptionResponse with hresponse
  set c1 := c.noted [.encryptionResponse response.verifyToken] with hc1
  have h1 : Orderly c1 := horder.of_silent rfl rfl (by simp [ServerEvent.newState])
  have haddress : AddressKnown c1 := by
    have hbefore : AddressKnown c := hknown.address (by rw [hs]; exact nofun)
    exact hbefore.of_append rfl rfl (by simp [ServerEvent.address])
  rw [handleLgEncryptionResponse_run]
  rcases hp : c.tmpPresent with _ | _
  · refine ⟨fun r he => ⟨h1, fun hopen => ?_⟩, fun _ _ => h1⟩
    cases he
    exact absurd (.inl rfl) hopen
  · obtain ⟨key, token, name, hawaits, hlast⟩ := hknown.awaits hp
    have hname : lastOf ServerEvent.name c1.history = some name := by
      rw [← hlast]
      exact lastOf_append (by simp [ServerEvent.name])
    simp only [Bool.true_eq_false, ↓reduceIte]
    rcases answerEncryption_cases crypto env response (hawaits.noted _) with ⟨hstays, hr⟩ |
      ⟨id, ctx, hash, -, hrun⟩
    · have h2 := h1.stays hstays.minor
      exact ⟨fun r he => ⟨h2, fun hopen => absurd (hr r he).1 hopen⟩, fun _ _ => h2⟩
    · -- the answer of the session server is noted before the state changes
      have hjoined := joined_stays c1 ctx name hash id
      have hname' : lastOf ServerEvent.name (c1.joined ctx name hash id).history = some name := by
        rw [hjoined.lastOf fun e he => he.silent.2.1, hname]
      have hknows : .hasJoined name hash c1.serverAddressUsed id ∈
          (c1.joined ctx name hash id).history := List.mem_append_right _ (by simp)
      obtain ⟨horder2, hknown2⟩ := enterPlay_proceeds crypto env (hjoined.state.trans hs)
        (h1.stays hjoined) (haddress.stays hjoined) ((hawaits.noted _).joined ctx hash id) hname' hknows
      rw [hrun]
      exact ⟨fun r he => ⟨horder2, hknown2 r he⟩, fun _ _ => horder2⟩

theorem handlePacket_proceeds (env : HandlerEnv ρ) (pkt : McprPacket) (s : McprState) :
    Proceeds (fun c => DecodedIn c.state pkt ∧ c.state = s) (handlePacket crypto env pkt s) := by
  have hstop {m : ConnectionProg κ ρ HpResult} (hm : m = exit .undefined) :
      Proceeds (fun c => DecodedIn c.state pkt ∧ c.state = s) m := by
    rw [hm]
    exact Ensures.exit fun _ h => h.2.1
  cases s with
  | handshake =>
    unfold handlePacket
    cases hid : pkt.id
    case hsSbHandshake =>
      refine (handleHsHandshake_proceeds env.handshake pkt).mono ?_ (fun _ _ h => h) fun _ h => h
      rintro c ⟨⟨hdecoded, hs⟩, hc⟩
      -- the decoder lets no Handshake through that asks for another state
      rw [hs] at hdecoded
      obtain ⟨denv, out, mem, maxlen, n, hn, hexit, rfl⟩ := hdecoded
      exact ⟨⟨hs, mcprDecodePacket_next hn hexit⟩, hc⟩
    all_goals exact hstop rfl
  | status => exact proceeds_of_talks (handlePacket_status_talks crypto env pkt)
  | login =>
    unfold handlePacket
    cases pkt.id
    case lgSbLoginStart =>
      exact (handleLgLoginStart_proceeds crypto env.loginStart pkt).mono (fun _ h => ⟨h.1.2, h.2⟩)
        (fun _ _ h => h) fun _ h => h
    case lgSbEncryptionResponse =>
      exact (handleLgEncryptionResponse_proceeds crypto env.encryptionResponse pkt).mono
        (fun _ h => ⟨h.1.2, h.2⟩) (fun _ _ h => h) fun _ h => h
    all_goals exact hstop rfl
  | play => exact proceeds_of_talks (handlePacket_play_talks crypto env pkt)

end Handlers

section Runs
variable (crypto : Crypto κ ρ)

/-- What holds between two packets. -/
def InProtocol (c : Connection κ ρ) : Prop := Orderly c ∧ (c.listed = true → Known c)

theorem Winds.stays {c c' : Connection κ ρ} (h : Winds c c') : Stays ServerEvent.Minor c c' := by
  obtain ⟨es, hes, hall⟩ := h.history
  refine ⟨h.state, h.serverAddressUsed, es, hes, fun e he => ?_⟩
  rcases hall e he with ⟨closed, rfl⟩ | rfl | ⟨rfl, -⟩ <;> exact trivial

theorem connectionClose_delists (cipher : Cipher κ) (env : CloseEnv)
    (message : Option (List UInt8)) (c : Connection κ ρ)
    (h : ((connectionClose cipher env message).run c).1 = .ok ()) :
    ((connectionClose cipher env message).run c).2.listed = false := by
  rcases hfreed : c.freed with _ | _
  · rcases hlisted : c.listed with _ | _
    · simp [connectionClose, touch_run, hfreed, hlisted] at h
    · simp only [connectionClose, bind_run, touch_run, hfreed, hlisted, get_run, note_run, modify_run,
        onObjects_run, Bool.false_eq_true, Bool.true_eq_false, ↓reduceIte]
      rcases (mcprConnectionClose cipher env.closing env.fuel message).run c.objects with
        ⟨e | ⟨⟩, o⟩ <;> rfl
  · simp [connectionClose, touch_run, hfreed] at h

theorem connectionClose_protocol (cipher : Cipher κ) (env : CloseEnv) (message : Option (List UInt8)) :
    Ensures Orderly (connectionClose cipher env message : ConnectionProg κ ρ Unit)
      (fun _ => InProtocol) Orderly := by
  intro c hc
  have hafter := hc.stays (connectionClose_winds cipher env message c).stays
  refine ⟨fun _ hok => ⟨hafter, fun hlisted => absurd hlisted ?_⟩, fun _ _ => hafter⟩
  rw [connectionClose_delists cipher env message c hok]
  exact Bool.false_ne_true

theorem packetHandler_protocol (env : HandlerEnv ρ) (pkt : McprPacket) :
    Ensures (fun c => (c.listed = true ∧ DecodedIn c.state pkt) ∧ InProtocol c)
      (packetHandler crypto env pkt) (fun _ => InProtocol) Orderly := by
  refine packetHandler_ensures (I := fun c => DecodedIn c.state pkt ∧ Orderly c ∧ Known c)
    (F := Orderly) ?_ (fun s => ?_) fun message => connectionClose_protocol crypto.cipher _ _
  · rintro c ⟨⟨hlisted, hdecoded⟩, horder, hknown⟩
    have ht : Talks (fun _ => True) c ((touch : ConnectionProg κ ρ Unit).run c).2 := touch_talks c
    have horder' := horder.stays ht.stays
    refine ⟨fun _ _ => ⟨?_, horder', (hknown hlisted).talks ht⟩, fun _ _ => horder'⟩
    rwa [ht.state]
  · refine (handlePacket_proceeds crypto env pkt s).mono ?_ ?_ fun _ h => h
    · exact fun c h => ⟨⟨h.1.1, h.2⟩, h.1.2⟩
    · exact fun r c h => ⟨fun _ => h.1, fun hopen => ⟨h.1, fun _ => h.2 hopen⟩⟩

/-- Whatever packets a connection has decoded, the login protocol is kept. -/
theorem login_protocol (garbage : Mem) (input : List UInt8) (now : ℤ) (r : Except Halt Unit)
    (c : Connection κ ρ) (h : Handled crypto (acceptConnection ρ garbage input now) r c) :
    LoginProtocol r c := by
  have hstart : InProtocol (acceptConnection (κ := κ) ρ garbage input now) :=
    ⟨⟨List.isChain_singleton _, rfl, by simp [acceptConnection]⟩, fun _ => ⟨nofun,
      fun hs => absurd rfl hs, nofun⟩⟩
  have hrun := h.ensures hstart fun d : Dispatched ρ =>
    packetHandler_protocol crypto d.env d.pkt
  have horder : Orderly c := by
    cases r with
    | ok a => exact (hrun.1 rfl).1
    | error e => exact hrun.2 e rfl
  refine ⟨horder.advances, horder.current, fun hr hlisted => ?_, fun hr hlisted => ?_, horder.tmp⟩
  · exact ((hrun.1 hr).2 hlisted).player
  · exact ((hrun.1 hr).2 hlisted).address

end Runs

section Example

/-- A packet as it is decoded from a frame. -/
def decodedExample (state : McprState) (frame : List UInt8) : Dispatched Unit where
  env := handlerExample
  pkt := (mcprDecodePacket (spare .little) default (ofList frame) state
    (UInt64.ofNat frame.length)).out

def afterExample (state : McprState) (frame : List UInt8) (c : Connection Unit Unit) :
    Connection Unit Unit :=
  ((packetHandler cryptoExample handlerExample (decodedExample state frame).pkt).run c).2

theorem handled_example {c : Connection Unit Unit} (state : McprState) (frame : List UInt8)
    (hc : Handled cryptoExample silentExample (.ok ()) c) (hpos : 0 < frame.length)
    (hexit : (mcprDecodePacket (spare .little) default (ofList frame) state
      (UInt64.ofNat frame.length)).exit = .ret frame.length)
    (hlisted : c.listed = true) (hstate : c.state = state)
    (hrun : ((packetHandler cryptoExample handlerExample (decodedExample state frame).pkt).run c).1 =
      .ok true) : Handled cryptoExample silentExample (.ok ()) (afterExample state frame c) := by
  have hdecoded : DecodedIn c.state (decodedExample state frame).pkt :=
    ⟨spare .little, default, ofList frame, UInt64.ofNat frame.length, frame.length, by omega,
      hstate ▸ hexit, hstate ▸ rfl⟩
  have hcall := Reaches.call (decodedExample state frame) hc ⟨hlisted, hdecoded⟩
  have hresult : ((packetHandler cryptoExample (decodedExample state frame).env
      (decodedExample state frame).pkt).run c).1 = .ok true := hrun
  rw [hresult] at hcall
  exact hcall

/-- A Handshake, a Login Start and an Encryption Response lead to PLAY. -/
theorem login_in_protocol : ∃ c, Handled cryptoExample silentExample (.ok ()) c ∧
    c.listed = true ∧ c.state = .play ∧ LoginProtocol (.ok ()) c := by
  have h1 := handled_example .handshake [0, 0xd4, 2, 0, 0, 0, 2] .start (by decide)
    (by decide +kernel) rfl rfl (by decide +kernel)
  have h2 := handled_example .login [0, 1, 0x61] h1 (by decide) (by decide +kernel)
    (by decide +kernel) (by decide +kernel) (by decide +kernel)
  have h3 := handled_example .login [1, 1, 0xaa, 1, 0xbb] h2 (by decide) (by decide +kernel)
    (by decide +kernel) (by decide +kernel) (by decide +kernel)
  exact ⟨_, h3, by decide +kernel, by decide +kernel, login_protocol cryptoExample _ _ _ _ _ h3⟩

end Example

end Stronk.Mcpr
