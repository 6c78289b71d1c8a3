import Stronk.UnfinishedLogin

/-! Whether a client that logs in has answered the challenge it was sent. Its answer and the token
are never compared, but no answer is ever looked at. -/
namespace Stronk.Mcpr
open ByteMemory EarlyExit
variable {κ ρ : Type}

section Property

/-- The key and the token that go out with a challenge. -/
def ServerEvent.challenge : ServerEvent ρ → Option (Option ρ × List UInt8)
  | .issueToken key token => some (key, token)
  | _ => none

/-- The encrypted token that comes back. -/
def ServerEvent.answer : ServerEvent ρ → Option (List UInt8)
  | .encryptionResponse token => some token
  | _ => none

/-- Login Success goes out, or the state becomes PLAY. -/
def ServerEvent.LogsIn : ServerEvent ρ → Prop
  | .wrote _ id => id = .lgCbLoginSuccess
  | .setState state => state = .play
  | _ => False

variable (crypto : Crypto κ ρ)

/-- The last answer is the last token, encrypted under the key that it went out with. -/
def Answered (history : List (ServerEvent ρ)) : Prop :=
  ∃ key token answer, lastOf ServerEvent.challenge history = some (some key, token) ∧
    lastOf ServerEvent.answer history = some answer ∧
      crypto.rsaPrivateDecrypt key answer = some token

/-- Nobody logs in without the challenge being answered. -/
def ChallengeMet (history : List (ServerEvent ρ)) : Prop :=
  ∀ past e, past ++ [e] <+: history → e.LogsIn → Answered crypto past

/-- An Encryption Response that is awaited, and that nothing else speaks against, answers the
challenge. -/
def AnswersChallenge (env : EncryptionResponseEnv) (response : EncryptionResponse)
    (c : Connection κ ρ) : Prop :=
  ∀ key id, c.tmpPresent = true → c.tmp.rsa = .live key → Admits crypto env response key id →
    ∃ k token, key = some k ∧ c.tmp.verifyToken = .live token ∧
      crypto.rsaPrivateDecrypt k response.verifyToken = some token

/-- The packet does not let anybody in who has not answered. -/
def ChecksAnswer (env : HandlerEnv ρ) (pkt : McprPacket) (c : Connection κ ρ) : Prop :=
  (c.state = .login → pkt.id = .lgSbEncryptionResponse → AnswersChallenge crypto
    env.encryptionResponse pkt.data.loginServerbound.encryptionResponse c) ∧ ¬ AsksForPlay pkt c

end Property

section History
variable {crypto : Crypto κ ρ} {history es : List (ServerEvent ρ)} {e : ServerEvent ρ}

theorem challengeMet_snoc : ChallengeMet crypto (history ++ [e]) ↔
    ChallengeMet crypto history ∧ (e.LogsIn → Answered crypto history) := by
  constructor
  · intro h
    refine ⟨fun past e' hp => h past e' (hp.trans (List.prefix_append _ _)), fun hin => ?_⟩
    exact h history e (List.prefix_refl _) hin
  · rintro ⟨h, hlast⟩ past e' hp hin
    rcases List.prefix_concat_iff.mp hp with he | hp
    · obtain ⟨hpast, he⟩ := List.append_inj' he rfl
      cases he
      rw [hpast]
      exact hlast hin
    · exact h past e' hp hin

/-- An event that has nothing to do with a challenge. -/
def ServerEvent.Aside (e : ServerEvent ρ) : Prop :=
  ¬ e.LogsIn ∧ e.challenge = none ∧ e.answer = none

theorem ChallengeMet.append (h : ChallengeMet crypto history) (hes : ∀ e ∈ es, ¬ e.LogsIn) :
    ChallengeMet crypto (history ++ es) := by
  induction es using List.reverseRecOn with
  | nil => simpa using h
  | append_singleton es e ih =>
    rw [← List.append_assoc, challengeMet_snoc]
    refine ⟨ih fun e' he => hes e' (List.mem_append_left _ he), fun hin => ?_⟩
    exact absurd hin (hes e (by simp))

theorem Answered.append (h : Answered crypto history)
    (hes : ∀ e ∈ es, e.challenge = none ∧ e.answer = none) : Answered crypto (history ++ es) := by
  obtain ⟨key, token, answer, hc, ha, hd⟩ := h
  refine ⟨key, token, answer, ?_, ?_, hd⟩
  · rwa [lastOf_append fun e he => (hes e he).1]
  · rwa [lastOf_append fun e he => (hes e he).2]

/-- Once the challenge is answered, nothing speaks against logging in. -/
theorem ChallengeMet.append_answered (h : ChallengeMet crypto history)
    (ha : Answered crypto history) (hes : ∀ e ∈ es, e.challenge = none ∧ e.answer = none) :
    ChallengeMet crypto (history ++ es) := by
  induction es using List.reverseRecOn with
  | nil => simpa using h
  | append_singleton es e ih =>
    have hes' : ∀ e ∈ es, e.challenge = none ∧ e.answer = none := fun e' he =>
      hes e' (List.mem_append_left _ he)
    rw [← List.append_assoc, challengeMet_snoc]
    exact ⟨ih hes', fun _ => ha.append hes'⟩

theorem ServerEvent.Minor.unasked (h : e.Minor) : e.challenge = none ∧ e.answer = none := by
  cases e <;> first
    | exact h.elim
    | exact ⟨rfl, rfl⟩

end History

section Invariant
variable (crypto : Crypto κ ρ)

/-- So far nobody logged in without an answer, and the key and the token that are kept are those
that went out last. -/
structure Challenging (c : Connection κ ρ) : Prop where
  met : ChallengeMet crypto c.history
  kept : c.tmpPresent = true → ∃ key token name, Awaits key token name c ∧
    lastOf ServerEvent.challenge c.history = some (key, token)

variable {crypto} {c c' : Connection κ ρ}

theorem Challenging.stays (h : Challenging crypto c) (hs : Stays ServerEvent.Aside c c')
    (hpresent : c'.tmpPresent = c.tmpPresent) (htmp : c'.tmp = c.tmp) : Challenging crypto c' := by
  obtain ⟨es, hes, hall⟩ := hs.history
  refine ⟨by rw [hes]; exact h.met.append fun e he => (hall e he).1, fun hp => ?_⟩
  obtain ⟨key, token, name, hawaits, hlast⟩ := h.kept (hpresent ▸ hp)
  refine ⟨key, token, name, hawaits.of_tmp hpresent htmp, ?_⟩
  rw [hs.lastOf fun e he => he.2.1, hlast]

theorem ChallengeMet.challenging (h : ChallengeMet crypto c.history) (hp : c.tmpPresent = false) :
    Challenging crypto c := ⟨h, fun ht => absurd ht (by simp [hp])⟩

theorem Talks.aside {ids : McprPacketType → Prop} (h : Talks ids c c')
    (hids : ¬ ids .lgCbLoginSuccess) : Stays ServerEvent.Aside c c' := by
  obtain ⟨es, hes, hall⟩ := h.history
  refine ⟨h.state, h.serverAddressUsed, es, hes, fun e he => ?_⟩
  rcases hall e he with rfl | hsent
  · exact ⟨nofun, rfl, rfl⟩
  · refine ⟨fun hin => ?_, hsent.minor.unasked⟩
    cases e with
    | wrote s id =>
      cases (hin : id = .lgCbLoginSuccess)
      exact hids hsent.2
    | _ => first | exact hin | exact hsent

theorem Winds.aside (h : Winds c c') : Stays ServerEvent.Aside c c' := by
  obtain ⟨es, hes, hall⟩ := h.history
  refine ⟨h.state, h.serverAddressUsed, es, hes, fun e he => ?_⟩
  rcases hall e he with ⟨closed, rfl⟩ | rfl | ⟨rfl, -⟩
  · exact ⟨nofun, rfl, rfl⟩
  · exact ⟨nofun, rfl, rfl⟩
  · exact ⟨fun hin => (by cases hin), rfl, rfl⟩

theorem Challenging.talks {ids : McprPacketType → Prop} (h : Challenging crypto c)
    (ht : Talks ids c c') (hids : ¬ ids .lgCbLoginSuccess) : Challenging crypto c' :=
  h.stays (ht.aside hids) ht.tmpPresent ht.tmp

theorem Challenging.winds (h : Challenging crypto c) (hw : Winds c c') : Challenging crypto c' :=
  h.stays hw.aside hw.tmpPresent hw.tmp

end Invariant

section Handlers
variable (crypto : Crypto κ ρ)

theorem handleLgLoginStart_challenges (env : LoginStartEnv ρ) (pkt : McprPacket)
    {c : Connection κ ρ} (h : Challenging crypto c) :
    Challenging crypto ((handleLgLoginStart crypto env pkt).run c).2 := by
  set name := cString pkt.data.loginServerbound.loginStart.name with hname
  have hnamed : Challenging crypto (c.named name) := by
    refine ⟨challengeMet_snoc.mpr ⟨h.met, nofun⟩, fun hp => ?_⟩
    obtain ⟨key, token, old, hawaits, hlast⟩ := h.kept hp
    refine ⟨key, token, name, ⟨hp, by simp [Connection.named, hawaits.tmp]⟩, ?_⟩
    rw [← hlast]
    exact lastOf_append fun e he => by rw [List.mem_singleton.mp he]; rfl
  rw [handleLgLoginStart_run]
  obtain ⟨c1, ht, ⟨hr, -⟩ | ⟨token, hr⟩⟩ := requestEncryption_cases crypto env name (c.named name)
  · rw [hr]
    exact hnamed.talks ht nofun
  · rw [hr]
    have h1 := hnamed.talks ht nofun
    refine ⟨challengeMet_snoc.mpr ⟨h1.met, nofun⟩, fun _ => ?_⟩
    exact ⟨env.rsa, token, name, ⟨rfl, rfl⟩, lastOf_snoc rfl⟩

/-- What an Encryption Response comes to that is awaited, and that answers the challenge if nothing
else speaks against it. -/
theorem answerEncryption_challenges (env : EncryptionResponseEnv) (response : EncryptionResponse)
    {c : Connection κ ρ} (h : Challenging crypto c) (hp : c.tmpPresent = true)
    (ha : lastOf ServerEvent.answer c.history = some response.verifyToken)
    (hq : AnswersChallenge crypto env response c) :
    ChallengeMet crypto ((answerEncryption crypto env response).run c).2.history ∧
      ∀ r, ((answerEncryption crypto env response).run c).1 = .ok r →
        ((answerEncryption crypto env response).run c).2.tmpPresent = false := by
  obtain ⟨key, token, name, hawaits, hlast⟩ := h.kept hp
  rcases answerEncryption_cases crypto env response hawaits with ⟨hs, hr⟩ |
    ⟨id, ctx, hash, hadmits, hrun⟩
  · obtain ⟨es, hes, hall⟩ := hs.history
    refine ⟨?_, fun r he => (hr r he).2⟩
    rw [hes]
    exact h.met.append fun e he => by rw [hall e he]; exact nofun
  · obtain ⟨k, token', hkey, htoken, hdecrypt⟩ := hq key id hp (by rw [hawaits.tmp]) hadmits
    have hanswered : Answered crypto c.history := by
      rw [hawaits.tmp] at htoken
      cases htoken
      exact ⟨k, token, response.verifyToken, hkey ▸ hlast, ha, hdecrypt⟩
    -- from here on, nothing is noted of a challenge
    have hgo (c1 c2 : Connection κ ρ) (hs : Stays ServerEvent.Minor c1 c2)
        (h1 : ChallengeMet crypto c1.history ∧ Answered crypto c1.history) :
        ChallengeMet crypto c2.history ∧ Answered crypto c2.history := by
      obtain ⟨es, hes, hall⟩ := hs.history
      rw [hes]
      exact ⟨h1.1.append_answered h1.2 fun e he => (hall e he).unasked,
        h1.2.append fun e he => (hall e he).unasked⟩
    have hjoined := hgo c (c.joined ctx name hash id) (joined_stays c ctx name hash id)
      ⟨h.met, hanswered⟩
    rw [hrun]
    rcases enterPlay_cases crypto env id (hawaits.joined ctx hash id) with ⟨hs, hr⟩ |
      ⟨c1, hs, hs', hr⟩
    · exact ⟨(hgo _ _ hs hjoined).1, fun r he => (hr r he).2⟩
    · have h1 := hgo _ _ hs hjoined
      have hentered : ChallengeMet crypto c1.entered.history ∧ Answered crypto c1.entered.history := by
        refine ⟨challengeMet_snoc.mpr ⟨h1.1, fun _ => h1.2⟩, h1.2.append fun e he => ?_⟩
        rw [List.mem_singleton.mp he]
        exact ⟨rfl, rfl⟩
      exact ⟨(hgo _ _ hs' hentered).1, fun r he => (hr r he).1⟩

theorem handleLgEncryptionResponse_challenges (env : EncryptionResponseEnv) (pkt : McprPacket)
    {c : Connection κ ρ} (h : Challenging crypto c)
    (hq : AnswersChallenge crypto env pkt.data.loginServerbound.encryptionResponse c) :
    ChallengeMet crypto ((handleLgEncryptionResponse crypto env pkt).run c).2.history ∧
      ∀ r, ((handleLgEncryptionResponse crypto env pkt).run c).1 = .ok r →
        Challenging crypto ((handleLgEncryptionResponse crypto env pkt).run c).2 := by
  set response := pkt.data.loginServerbound.encryptionResponse with hresponse
  set c' := c.noted [.encryptionResponse response.verifyToken] with hc'
  have hmet : ChallengeMet crypto c'.history := challengeMet_snoc.mpr ⟨h.met, nofun⟩
  rw [handleLgEncryptionResponse_run]
  rcases hp : c.tmpPresent with _ | _
  · exact ⟨hmet, fun _ _ => hmet.challenging hp⟩
  · have h' : Challenging crypto c' := by
      refine ⟨hmet, fun hp => ?_⟩
      obtain ⟨key, token, name, hawaits, hlast⟩ := h.kept hp
      refine ⟨key, token, name, hawaits.noted _, ?_⟩
      rw [← hlast]
      exact lastOf_append fun e he => by rw [List.mem_singleton.mp he]; rfl
    obtain ⟨hdone, hr⟩ := answerEncryption_challenges crypto env response h' hp (lastOf_snoc rfl) hq
    exact ⟨hdone, fun r he => hdone.challenging (hr r he)⟩

theorem handlePacket_challenges (env : HandlerEnv ρ) (pkt : McprPacket) (s : McprState) :
    Ensures (fun c => (ChecksAnswer crypto env pkt c ∧ Challenging crypto c) ∧ c.state = s)
      (handlePacket crypto env pkt s) (fun _ => Challenging crypto)
        (fun c => ChallengeMet crypto c.history) := by
  rintro c ⟨⟨hq, hc⟩, rfl⟩
  -- nearly everywhere what holds at an early exit holds at the other ends as well
  have hboth (h : Challenging crypto ((handlePacket crypto env pkt c.state).run c).2) :
      (∀ r, ((handlePacket crypto env pkt c.state).run c).1 = .ok r →
        Challenging crypto ((handlePacket crypto env pkt c.state).run c).2) ∧
      ∀ e, ((handlePacket crypto env pkt c.state).run c).1 = .error e →
        ChallengeMet crypto ((handlePacket crypto env pkt c.state).run c).2.history :=
    ⟨fun _ _ => h, fun _ _ => h.met⟩
  cases hs : c.state with
  | handshake =>
    rw [hs] at hboth
    unfold handlePacket at hboth ⊢
    cases hid : pkt.id
    case hsSbHandshake =>
      simp only [hid] at hboth
      apply hboth
      obtain ⟨r, c', hr, hg⟩ := handleHsHandshake_greets env.handshake pkt c
      rw [hr]
      refine ⟨?_, fun hp => ?_⟩
      · rw [hg.history]
        refine hc.met.append fun e he => ?_
        simp only [List.mem_cons, List.not_mem_nil, or_false] at he
        rcases he with rfl | rfl
        · exact nofun
        · exact fun hin => hq.2 ⟨hs, hid, hin⟩
      · obtain ⟨key, token, name, hawaits, hlast⟩ := hc.kept (hg.tmpPresent ▸ hp)
        refine ⟨key, token, name, hawaits.of_tmp hg.tmpPresent hg.tmp, ?_⟩
        rw [← hlast, hg.history]
        refine lastOf_append fun e he => ?_
        simp only [List.mem_cons, List.not_mem_nil, or_false] at he
        rcases he with rfl | rfl <;> rfl
    all_goals simp only [hid] at hboth; exact hboth hc
  | status =>
    rw [hs] at hboth
    have ht := handlePacket_status_talks crypto env pkt c
    exact hboth (hc.talks ht (by simp [StatusType]))
  | login =>
    rw [hs] at hboth
    unfold handlePacket at hboth ⊢
    cases hid : pkt.id
    case lgSbLoginStart =>
      simp only [hid] at hboth
      exact hboth (handleLgLoginStart_challenges crypto env.loginStart pkt hc)
    case lgSbEncryptionResponse =>
      obtain ⟨hmet, hr⟩ := handleLgEncryptionResponse_challenges crypto env.encryptionResponse pkt hc
        (hq.1 hs hid)
      exact ⟨hr, fun _ _ => hmet⟩
    all_goals simp only [hid] at hboth; exact hboth hc
  | play =>
    rw [hs] at hboth
    have ht := handlePacket_play_talks crypto env pkt c
    exact hboth (hc.talks ht (by simp [PlayType]))

end Handlers

section Runs
variable (crypto : Crypto κ ρ)

theorem challenging_of_winds {α : Type} {m : ConnectionProg κ ρ α} (h : Moves Winds m) :
    Ensures (Challenging crypto) m (fun _ => Challenging crypto)
      (fun c => ChallengeMet crypto c.history) :=
  Ensures.of_moves h fun _ _ hc hw => ⟨fun _ => hc.winds hw, (hc.winds hw).met⟩

theorem packetHandler_challenges (env : HandlerEnv ρ) (pkt : McprPacket) :
    Ensures (fun c => ChecksAnswer crypto env pkt c ∧ Challenging crypto c)
      (packetHandler crypto env pkt) (fun _ => Challenging crypto)
        (fun c => ChallengeMet crypto c.history) := by
  apply packetHandler_ensures (I := fun c => ChecksAnswer crypto env pkt c ∧ Challenging crypto c)
    (F := Challenging crypto)
  · intro c hc
    obtain ⟨hq, hchallenging⟩ := hc
    have htouch : Challenging crypto ((touch : ConnectionProg κ ρ Unit).run c).2 :=
      hchallenging.winds (touch_winds c)
    rw [touch_run] at htouch ⊢
    exact ⟨fun _ _ => ⟨hq, htouch⟩, fun _ _ => htouch.met⟩
  · intro s
    exact (handlePacket_challenges crypto env pkt s).mono (fun _ h => h)
      (fun _ _ h => ⟨fun _ => h, fun _ => h⟩) fun _ h => h
  · intro message
    exact challenging_of_winds crypto (connectionClose_winds crypto.cipher env.close message)

/-- While no answer is waited for, none is let in. -/
theorem HandedOver.checksAnswer {env : HandlerEnv ρ} {pkt : McprPacket} {c : Connection κ ρ}
    (h : HandedOver env pkt c) (hc : Unawaited c) : ChecksAnswer crypto env pkt c := by
  refine ⟨fun _ _ key id hpresent _ _ => ?_, h.not_asksForPlay⟩
  rw [hc] at hpresent
  cases hpresent

/-- Whatever a client sends, it does not log in without having answered its challenge. -/
theorem login_challenge_met (garbage : Mem) (input : List UInt8) (now : ℤ)
    (r : Except Halt Unit) (c : Connection κ ρ)
    (h : Served crypto (Dispatches crypto HandedOver) (acceptConnection ρ garbage input now) r c) :
    ChallengeMet crypto c.history := by
  have hnone : Unawaited (acceptConnection (κ := κ) ρ garbage input now) := rfl
  have hstart : Challenging crypto (acceptConnection (κ := κ) ρ garbage input now) := by
    refine ⟨fun past e hp => ?_, nofun⟩
    have hlen := hp.length_le
    simp [acceptConnection] at hlen
  apply Served.unawaited (E := fun c => ChallengeMet crypto c.history) hnone hstart
  · exact fun c c' hc hw => hc.winds hw
  · exact fun c c' hc ht => hc.talks ht (by simp [PlayType])
  · intro env pkt
    exact (packetHandler_challenges crypto env pkt).mono
      (fun c hc => ⟨hc.1.1.checksAnswer crypto hc.1.2, hc.2⟩) (fun _ _ h => h) fun _ h => h
  · exact fun c hc => hc.met
  · exact h

end Runs

section Example

/-- A client that logs in is turned away before it can answer. -/
theorem login_start_challenge_met : ∃ r c,
    Served cryptoExample (Dispatches cryptoExample HandedOver) loginInput r c ∧
      .wrote .login .lgCbEncryptionRequest ∈ c.history ∧ .connectionClose ∈ c.history ∧
        ChallengeMet cryptoExample c.history := by
  obtain ⟨r, h⟩ := login_served
  exact ⟨r, _, h, by decide +kernel, by decide +kernel,
    login_challenge_met cryptoExample _ _ 0 r _ h⟩

end Example

end Stronk.Mcpr
