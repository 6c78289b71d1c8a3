import Stronk.UnfinishedLogin

/-! Whether a connection is encrypted once its ciphers are set. Setting them does not switch
encryption on, but no login gets as far. -/
namespace Stronk.Mcpr
open ByteMemory EarlyExit
variable {κ ρ : Type}

section Property

/-- What happens from the time on when the ciphers are set. -/
def afterCrypto (log : List ConnEvent) : List ConnEvent := log.dropWhile (· ≠ .setCrypto)

/-- Bytes that go out are encrypted, and bytes that come in are decrypted. -/
def ConnEvent.Sealed : ConnEvent → Prop
  | .send _ encrypted => encrypted = true
  | .receive _ decrypted => decrypted = true
  | _ => True

/-- Nothing goes over the connection in plain from the time on when its ciphers are set, and in PLAY
encryption is switched on. -/
structure Confidential (c : Connection κ ρ) : Prop where
  isSealed : ∀ e ∈ afterCrypto c.objects.log, e.Sealed
  play : c.state = .play → c.objects.conn.useEncryption = true

variable (crypto : Crypto κ ρ)

/-- The shared secret of a response can be had. -/
def DecryptsSecret (env : EncryptionResponseEnv) (response : EncryptionResponse)
    (c : Connection κ ρ) : Prop :=
  ∃ key, c.tmp.rsa = .live (some key) ∧ (sharedSecret crypto env response key).isSome = true

/-- An Encryption Response that is awaited comes with a secret, and its ciphers can be made. -/
def InstallsCrypto (env : EncryptionResponseEnv) (pkt : McprPacket) (c : Connection κ ρ) : Prop :=
  c.tmpPresent = true ∧ DecryptsSecret crypto env pkt.data.loginServerbound.encryptionResponse c ∧
    env.ciphers = true

/-- The packet neither has ciphers set nor leads to PLAY. -/
def StaysPlain (env : HandlerEnv ρ) (pkt : McprPacket) (c : Connection κ ρ) : Prop :=
  ¬ (c.state = .login ∧ pkt.id = .lgSbEncryptionResponse ∧
    InstallsCrypto crypto env.encryptionResponse pkt c) ∧ ¬ AsksForPlay pkt c

end Property

section Plain

/-- The ciphers are not set. -/
structure Plain (c : Connection κ ρ) : Prop where
  unset : .setCrypto ∉ c.objects.log
  state : c.state ≠ .play

variable {c c' : Connection κ ρ}

theorem Plain.confidential (h : Plain c) : Confidential c := by
  refine ⟨?_, fun hp => absurd hp h.state⟩
  have hall : ∀ e ∈ c.objects.log, decide (e ≠ .setCrypto) = true := by
    intro e he
    exact decide_eq_true fun hset => h.unset (hset ▸ he)
  rw [afterCrypto, List.dropWhile_eq_nil_iff.mpr hall]
  exact nofun

theorem Plain.of_log {es : List ConnEvent} (h : Plain c) (hlog : c'.objects.log = c.objects.log ++ es)
    (hes : .setCrypto ∉ es) (hstate : c'.state ≠ .play) : Plain c' := by
  refine ⟨?_, hstate⟩
  rw [hlog]
  intro hset
  rcases List.mem_append.mp hset with hset | hset
  · exact h.unset hset
  · exact hes hset

theorem Plain.sends (h : Plain c) (hs : Sends c.objects c'.objects) : Plain c' := by
  obtain ⟨es, hes, hall⟩ := hs.log
  have hstate : c'.state = c.state := hs.state
  refine h.of_log hes (fun hset => ?_) (hstate ▸ h.state)
  rcases hall _ hset with ⟨bytes, he⟩ | ⟨id, he⟩
  · cases he
  · cases he

theorem Plain.winds (h : Plain c) (hw : Winds c c') : Plain c' := by
  obtain ⟨es, hes, hset, -⟩ := hw.objects.log
  exact h.of_log hes hset (hw.state ▸ h.state)

theorem plain_of_talks {α : Type} {ids : McprPacketType → Prop} {m : ConnectionProg κ ρ α}
    (h : Moves (Talks ids) m) : Keeps Plain m := fun c hc => hc.sends (h c).objects

theorem plain_of_works {α : Type} {ids : McprPacketType → Prop} {m : ConnectionProg κ ρ α}
    (h : Moves (Works ids) m) : Keeps Plain m := fun c hc => hc.sends (h c).objects

theorem plain_of_winds {α : Type} {m : ConnectionProg κ ρ α} (h : Moves Winds m) :
    Keeps Plain m := fun c hc => hc.winds (h c)

end Plain

section Runs
variable (crypto : Crypto κ ρ)

theorem decryptSharedSecret_some {env : EncryptionResponseEnv} {response : EncryptionResponse}
    {c c' : Connection κ ρ} {secret : List UInt8}
    (h : (decryptSharedSecret crypto env response).run c = (.ok (some secret), c')) :
    DecryptsSecret crypto env response c := by
  rcases hrsa : c.tmp.rsa with _ | key | _
  · simp [decryptSharedSecret, useTmp, hrsa] at h
  · rcases key with _ | key
    · rw [decryptSharedSecret_null crypto env response hrsa] at h
      cases h
    · rw [decryptSharedSecret_run crypto env response key hrsa] at h
      have hsecret := Except.ok.inj (congrArg Prod.fst h)
      exact ⟨key, hrsa, by rw [hsecret]; rfl⟩
  · simp [decryptSharedSecret, useTmp, hrsa] at h

/-- A response that sets no ciphers sends nothing. -/
theorem handleLgEncryptionResponse_quiet (env : EncryptionResponseEnv) (pkt : McprPacket)
    (c : Connection κ ρ) (h : ¬ InstallsCrypto crypto env pkt c) :
    Works (fun _ => False) c ((handleLgEncryptionResponse crypto env pkt).run c).2 := by
  set response := pkt.data.loginServerbound.encryptionResponse with hresponse
  have hnote : Works (fun _ => False) c (c.noted [.encryptionResponse response.verifyToken]) :=
    note_works (.encryptionResponse response.verifyToken) trivial c
  have hdecrypt := hnote.trans (decryptSharedSecret_works crypto env response _)
  rw [handleLgEncryptionResponse_run]
  by_cases hpresent : c.tmpPresent = false
  · simp only [hpresent, ↓reduceIte]
    exact hnote
  · simp only [hpresent, answerEncryption, bind_run, ← hresponse]
    rcases hd : (decryptSharedSecret crypto env response).run
      (c.noted [.encryptionResponse response.verifyToken]) with ⟨e | _ | secret, c1⟩ <;>
      rw [hd] at hdecrypt
    · exact hdecrypt
    · exact hdecrypt.trans (responseError_works env c1)
    · have hsecret : DecryptsSecret crypto env response
          (c.noted [.encryptionResponse response.verifyToken]) := decryptSharedSecret_some crypto hd
      have hciphers : env.ciphers = false := by
        rcases hc : env.ciphers with _ | _
        · rfl
        · exact absurd ⟨by simpa using hpresent, hsecret, hc⟩ h
      simp only [hciphers, ↓reduceIte]
      exact hdecrypt.trans (responseError_works env c1)

theorem handlePacket_plain (env : HandlerEnv ρ) (pkt : McprPacket) (c : Connection κ ρ)
    (hq : StaysPlain crypto env pkt c) (hc : Plain c) :
    Plain ((handlePacket crypto env pkt c.state).run c).2 := by
  rcases hs : c.state with _ | _ | _ | _
  · unfold handlePacket
    cases hid : pkt.id
    case hsSbHandshake =>
      -- the state is the one that was asked for
      obtain ⟨r, c', hr, hg⟩ := handleHsHandshake_greets env.handshake pkt c
      have hstate : c'.state = pkt.data.handshake.nextState := by
        rw [Connection.state, hg.objects]
      simp only [hr]
      have hlog : c'.objects.log = c.objects.log ++ [] := by rw [hg.objects, List.append_nil]
      exact hc.of_log hlog (by simp) fun hp => hq.2 ⟨hs, hid, hstate ▸ hp⟩
    all_goals exact hc
  · exact plain_of_talks (handlePacket_status_talks crypto env pkt) c hc
  · unfold handlePacket
    cases hid : pkt.id
    case lgSbLoginStart =>
      exact plain_of_works (handleLgLoginStart_works crypto env.loginStart pkt) c hc
    case lgSbEncryptionResponse =>
      have hquiet : ¬ InstallsCrypto crypto env.encryptionResponse pkt c := fun hi => hq.1 ⟨hs, hid, hi⟩
      exact hc.sends (handleLgEncryptionResponse_quiet crypto env.encryptionResponse pkt c hquiet).objects
    all_goals exact hc
  · exact absurd hs hc.state

theorem packetHandler_plain (env : HandlerEnv ρ) (pkt : McprPacket) :
    Ensures (fun c => StaysPlain crypto env pkt c ∧ Plain c) (packetHandler crypto env pkt)
      (fun _ => Plain) Plain := by
  apply packetHandler_ensures (I := fun c => StaysPlain crypto env pkt c ∧ Plain c) (F := Plain)
  · intro c hc
    obtain ⟨hq, hplain⟩ := hc
    rw [touch_run]
    exact ⟨fun _ _ => ⟨hq, hplain.unset, hplain.state⟩, fun _ _ => ⟨hplain.unset, hplain.state⟩⟩
  · intro s c hc
    obtain ⟨⟨hq, hplain⟩, rfl⟩ := hc
    have hafter := handlePacket_plain crypto env pkt c hq hplain
    exact ⟨fun _ _ => ⟨fun _ => hafter, fun _ => hafter⟩, fun _ _ => hafter⟩
  · intro message
    exact (plain_of_winds (connectionClose_winds crypto.cipher env.close message)).ensures

/-- While no answer is waited for, no packet has ciphers set. -/
theorem HandedOver.staysPlain {env : HandlerEnv ρ} {pkt : McprPacket} {c : Connection κ ρ}
    (h : HandedOver env pkt c) (hc : Unawaited c) : StaysPlain crypto env pkt c := by
  refine ⟨fun hresponse => ?_, h.not_asksForPlay⟩
  have hpresent := hresponse.2.2.1
  rw [hc] at hpresent
  cases hpresent

/-- Whatever a client sends, nothing is sent in plain that should not be, and nothing taken as
plain. -/
theorem key_exchange_confidential (garbage : Mem) (input : List UInt8) (now : ℤ)
    (r : Except Halt Unit) (c : Connection κ ρ)
    (h : Served crypto (Dispatches crypto HandedOver) (acceptConnection ρ garbage input now) r c) :
    Confidential c := by
  have hstart : Plain (acceptConnection (κ := κ) ρ garbage input now) := ⟨nofun, nofun⟩
  have hnone : Unawaited (acceptConnection (κ := κ) ρ garbage input now) := rfl
  have hplain : Plain c := by
    apply Served.unawaited hnone hstart
    · exact fun c c' hc hw => hc.winds hw
    · exact fun c c' hc ht => hc.sends ht.objects
    · intro env pkt
      exact (packetHandler_plain crypto env pkt).mono
        (fun c hc => ⟨hc.1.1.staysPlain crypto hc.1.2, hc.2⟩) (fun _ _ h => h) fun _ h => h
    · exact fun c hc => hc
    · exact h
  exact hplain.confidential

end Runs

section Example

/-- A client that logs in is turned away before there are any ciphers. -/
theorem login_confidential : ∃ r c,
    Served cryptoExample (Dispatches cryptoExample HandedOver) loginInput r c ∧
      .wrote .login .lgCbEncryptionRequest ∈ c.history ∧ .connectionClose ∈ c.history ∧
        Confidential c := by
  obtain ⟨r, h⟩ := login_served
  exact ⟨r, _, h, by decide +kernel, by decide +kernel,
    key_exchange_confidential cryptoExample _ _ 0 r _ h⟩

end Example

end Stronk.Mcpr
