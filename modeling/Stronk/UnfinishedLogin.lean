import Stronk.DecodeHeap
import Stronk.LoginProtocol

/-! How far a login gets. The write function of the packet stream says that it has taken one byte of
a packet, so that `fwrite` reports the Encryption Request as not written, and nothing is kept for an
answer to it. -/
namespace Stronk.Mcpr
open ByteMemory EarlyExit
variable {κ ρ : Type}

section Property

/-- What stdio does directly behind a read: its buffer holds nothing that is to be written, a packet
is as large as the buffer, and so `fwrite` hands it to the write function at once. An Encryption
Request and a Login Success are what their handlers write first. -/
def HandlerEnv.WritesThrough (env : HandlerEnv ρ) : Prop :=
  env.loginStart.request.buffered = false ∧ env.encryptionResponse.success.buffered = false

/-- The packet comes from the decoder, which has not called `free` on it. It lies on the stack of
`update_client`, so that the program is undefined behind such a call. -/
def KeptByDecoder (state : McprState) (pkt : McprPacket) : Prop :=
  ∃ env out mem maxlen n, n ≠ -1 ∧ (mcprDecodePacket env out mem state maxlen).exit = .ret n ∧
    HeapEvent.freeOut ∉ (mcprDecodePacket env out mem state maxlen).cursor.objects.heap ∧
    (mcprDecodePacket env out mem state maxlen).out = pkt

/-- What holds of a packet that is handed to `packet_handler`. -/
def HandedOver (env : HandlerEnv ρ) (pkt : McprPacket) (c : Connection κ ρ) : Prop :=
  env.WritesThrough ∧ KeptByDecoder c.state pkt

end Property

section Decode

/-- What the decoder has not released it has decoded to its end. -/
theorem KeptByDecoder.decodedIn {state : McprState} {pkt : McprPacket}
    (h : KeptByDecoder state pkt) : DecodedIn state pkt := by
  obtain ⟨env, out, mem, maxlen, n, hn, hexit, hkept, hout⟩ := h
  refine ⟨env, out, mem, maxlen, n, ?_, hexit, hout⟩
  simp only [mcprDecodePacket] at hexit hkept
  rcases hr : decodeRun env out mem state maxlen with ⟨(_ | _) | k, o⟩ <;> rw [hr] at hexit hkept
  · -- given up, and so the packet is released unless its type is not known
    cases hexit
    by_cases hf : frameLayout mem state maxlen = none
    · obtain ⟨o', hunknown, -⟩ := decodeRun_unknown env out hf
      rw [hr] at hunknown
      cases hunknown
      exact absurd rfl hn
    · have hledger := decodeRun_ledger env out hf
      rw [hr] at hledger
      exact absurd hledger.2 hkept
  · cases hexit
  · cases hexit
    rcases (decodeRun_agrees env out mem state maxlen).outcome with ⟨-, hstop⟩ | ⟨hwalk, -⟩
    · rw [hr] at hstop
      cases hstop
    · rcases hw : (walkFrame mem state maxlen).1 with e | m <;> rw [hr, hw] at hwalk
      · cases hwalk
      · have hpos := walkFrame_pos mem state maxlen m hw
        have hm : n = m := Except.ok.inj hwalk
        omega

/-- No Handshake that is handed over leads to PLAY. -/
theorem HandedOver.not_asksForPlay {env : HandlerEnv ρ} {pkt : McprPacket} {c : Connection κ ρ}
    (h : HandedOver env pkt c) : ¬ AsksForPlay pkt c := by
  rintro ⟨hs, -, hplay⟩
  obtain ⟨denv, out, mem, maxlen, n, hn, hexit, rfl⟩ := h.2.decodedIn
  rw [hs] at hexit hplay
  rcases mcprDecodePacket_next hn hexit with hnext | hnext
  · rw [hnext] at hplay
    cases hplay
  · rw [hnext] at hplay
    cases hplay

end Decode

section Write

/-- The write function takes one byte at most. -/
theorem mcprConnectionStreamWrite_short (cipher : Cipher κ) (env : WriteEnv) (size : PacketSize)
    (pkt : McprPacket) (n : ℕ) : Ensures (fun _ => True)
      (mcprConnectionStreamWrite cipher env size pkt n) (fun accepted _ => accepted ≤ 1)
      fun _ => True := by
  have hwrite : Ensures (fun _ => True) (mcprConnectionWritePacket cipher env pkt)
      (fun _ _ => True) fun _ => True := fun _ _ => ⟨fun _ _ => trivial, fun _ _ => trivial⟩
  refine Ensures.ite (fun _ => Ensures.exit fun _ _ => trivial) fun _ => ?_
  refine hwrite.bind fun ok => Ensures.pure fun _ _ => ?_
  cases ok <;> simp

theorem onObjects_ensures {α : Type} {m : ConnProg κ α} {q : α → Prop}
    (h : Ensures (fun _ => True) m (fun a _ => q a) fun _ => True) :
    Ensures (fun _ => True) (onObjects m : ConnectionProg κ ρ α) (fun a _ => q a) fun _ => True :=
  fun c _ => ⟨(h c.objects trivial).1, fun _ _ => trivial⟩

/-- What goes to the write function at once is reported as not written. -/
theorem fwritePacket_short (cipher : Cipher κ) {w : StreamWrite} (h : w.buffered = false)
    (pkt : McprPacket) : Ensures (fun _ => True)
      (fwritePacket cipher w pkt : ConnectionProg κ ρ Bool) (fun sent _ => sent = false)
      fun _ => True := by
  have hany {m : ConnectionProg κ ρ Unit} : Ensures (fun _ => True) m (fun _ _ => True)
      fun _ => True := fun _ _ => ⟨fun _ _ => trivial, fun _ _ => trivial⟩
  refine hany.bind fun _ => hany.bind fun _ => (onObjects_ensures
    (mcprConnectionStreamWrite_short cipher w.env _ pkt _)).bind fun accepted =>
      Ensures.pure fun _ hle => ?_
  have hshort : ¬ (sizeofMcprPacket.bytes : ℤ) ≤ accepted := by
    rw [sizeofMcprPacket]
    push_cast
    omega
  rw [h, decide_eq_false hshort]
  rfl

/-- Behind such a write comes what is there for one that failed. -/
theorem fwritePacket_short_keeps {α : Type} {P : Connection κ ρ → Prop} {cipher : Cipher κ}
    {w : StreamWrite} {pkt : McprPacket} {f : Bool → ConnectionProg κ ρ α} (h : w.buffered = false)
    (hw : Keeps P (fwritePacket cipher w pkt : ConnectionProg κ ρ Bool)) (hf : Keeps P (f false)) :
    Keeps P (fwritePacket cipher w pkt >>= f) := by
  intro c hc
  have hsent := (fwritePacket_short cipher h pkt c trivial).1
  have hc' := hw c hc
  rw [bind_run]
  rcases hr : (fwritePacket cipher w pkt : ConnectionProg κ ρ Bool).run c with ⟨e | sent, c'⟩ <;>
    rw [hr] at hsent hc'
  · exact hc'
  · rw [hsent sent rfl]
    exact hf c' hc'

end Write

section Runs
variable (crypto : Crypto κ ρ)

/-- No answer is waited for. -/
def Unawaited (c : Connection κ ρ) : Prop := c.tmpPresent = false

theorem unawaited_of_moves {α : Type} {R : Connection κ ρ → Connection κ ρ → Prop}
    {m : ConnectionProg κ ρ α} (h : Moves R m)
    (hR : ∀ c c', R c c' → c'.tmpPresent = c.tmpPresent) : Keeps Unawaited m :=
  fun c hc => (hR c _ (h c)).trans hc

/-- The Encryption Request is reported as not written, and the client is turned away. -/
theorem requestEncryption_unawaited {env : LoginStartEnv ρ} (h : env.request.buffered = false)
    (name : List UInt8) : Keeps Unawaited (requestEncryption crypto env name) := by
  unfold requestEncryption
  split
  · exact Keeps.pure _
  · refine Keeps.ite (Keeps.pure _) ?_
    split
    · exact Keeps.pure _
    · rename_i publicKey _ _ token _
      have hsend : Moves (Talks RequestType) (fwritePacket crypto.cipher env.request
          (encryptionRequestPacket publicKey token) : ConnectionProg κ ρ Bool) :=
        fwritePacket_talks _ _ _ rfl
      refine fwritePacket_short_keeps h (unawaited_of_moves hsend fun _ _ ht => ht.tmpPresent) ?_
      rw [if_pos rfl]
      exact Keeps.ite (Keeps.pure _) (Keeps.pure _)

theorem handlePacket_unawaited {env : HandlerEnv ρ} (h : env.WritesThrough) (pkt : McprPacket)
    (s : McprState) : Keeps Unawaited (handlePacket crypto env pkt s) := by
  cases s with
  | handshake =>
    unfold handlePacket
    cases pkt.id
    case hsSbHandshake =>
      intro c hc
      obtain ⟨r, c', hr, hg⟩ := handleHsHandshake_greets env.handshake pkt c
      rw [hr]
      exact hg.tmpPresent.trans hc
    all_goals exact Keeps.exit _
  | status =>
    exact unawaited_of_moves (handlePacket_status_talks crypto env pkt) fun _ _ ht =>
      ht.tmpPresent
  | login =>
    unfold handlePacket
    cases pkt.id
    case lgSbLoginStart =>
      intro c hc
      rw [handleLgLoginStart_run]
      exact requestEncryption_unawaited crypto h.1 _ (c.named _) hc
    case lgSbEncryptionResponse =>
      -- without a Login Start behind it a response only has the connection closed
      intro c hc
      have hnone : c.tmpPresent = false := hc
      rw [handleLgEncryptionResponse_run]
      simp only [hnone, ↓reduceIte]
      exact hc
    all_goals exact Keeps.exit _
  | play =>
    exact unawaited_of_moves (handlePacket_play_talks crypto env pkt) fun _ _ ht =>
      ht.tmpPresent

theorem packetHandler_unawaited {env : HandlerEnv ρ} (h : env.WritesThrough) (pkt : McprPacket) :
    Ensures Unawaited (packetHandler crypto env pkt) (fun _ => Unawaited) Unawaited := by
  have hof {α : Type} {m : ConnectionProg κ ρ α} (hm : Moves Winds m) :
      Ensures Unawaited m (fun _ => Unawaited) Unawaited :=
    (unawaited_of_moves hm fun _ _ hw => hw.tmpPresent).ensures
  apply packetHandler_ensures (I := Unawaited) (F := Unawaited) (hof touch_winds)
  · intro s
    exact (handlePacket_unawaited crypto h pkt s).ensures.mono (fun _ hc => hc.1)
      (fun _ _ hc => ⟨fun _ => hc, fun _ => hc⟩) fun _ hc => hc
  · exact fun message => hof (connectionClose_winds crypto.cipher env.close message)

variable {crypto}

/-- What packets keep while no answer is waited for holds of every state of a run, since none ever
is. -/
theorem Served.unawaited {I E : Connection κ ρ → Prop} {s c : Connection κ ρ}
    {r : Except Halt Unit} (hs : Unawaited s) (hi : I s)
    (hwinds : ∀ c c', I c → Winds c c' → I c')
    (htalks : ∀ c c', I c → Talks PlayType c c' → I c')
    (hpacket : ∀ env pkt, Ensures (fun c => (HandedOver env pkt c ∧ Unawaited c) ∧ I c)
      (packetHandler crypto env pkt) (fun _ => I) E)
    (hexit : ∀ c, I c → E c) (h : Served crypto (Dispatches crypto HandedOver) s r c) : E c := by
  refine Served.ends (I := fun c => Unawaited c ∧ I c) ⟨hs, hi⟩ (fun tick => ?_)
    (fun c hc => hexit c hc.2) h
  apply updateClient_dispatches tick (L := fun c => Unawaited c ∧ I c)
  · exact fun c c' hc hw => ⟨hw.tmpPresent.trans hc.1, hwinds c c' hc.2 hw⟩
  · exact fun c hc _ => hc
  · exact fun c hc => hc
  · exact fun c c' hc ht => ⟨ht.tmpPresent.trans hc.1, htalks c c' hc.2 ht⟩
  · rintro env pkt c ⟨hover, hun, hc⟩
    have hkept := packetHandler_unawaited crypto hover.1 pkt c hun
    have hp := hpacket env pkt c ⟨⟨hover, hun⟩, hc⟩
    exact ⟨fun a ha => ⟨hkept.1 a ha, hp.1 a ha⟩, hp.2⟩
  · exact fun c hc => hexit c hc.2

end Runs

section Example

/-- Everything goes well, and nothing is buffered. -/
def throughExample : HandlerEnv Unit :=
  { handlerExample with
    loginStart := { handlerExample.loginStart with request := { (default : StreamWrite) with buffered := false } }
    encryptionResponse :=
      { handlerExample.encryptionResponse with
        success := { (default : StreamWrite) with buffered := false } } }

def throughTick (arrived : List ℕ) : Tick Unit :=
  { tickExample arrived with
    turns := arrived.map fun n => { read := readExample n, handler := throughExample } }

/-- What the decoder makes of a frame, and of what the packet held before. -/
def keptExample (out : McprPacket) (state : McprState) (frame : List UInt8) : DecodeResult :=
  mcprDecodePacket (spare .little) out (ofList frame) state (UInt64.ofNat frame.length)

/-- A turn in which a frame is decoded, and its packet handed over. -/
theorem dispatches_example {turn : Turn Unit} {pkt : McprPacket} {c : Connection Unit Unit}
    (state : McprState) (frame : List UInt8) (hturn : turn.handler = throughExample)
    (hr : ((receivePacket cryptoExample turn pkt).run c).1 =
      .ok ⟨true, (keptExample pkt state frame).out⟩)
    (hstate : ((receivePacket cryptoExample turn pkt).run c).2.state = state)
    (hexit : (keptExample pkt state frame).exit = .ret frame.length)
    (hkept : HeapEvent.freeOut ∉ (keptExample pkt state frame).cursor.objects.heap) :
    Dispatches cryptoExample HandedOver turn pkt c := by
  intro r hr' _
  rw [hr] at hr'
  cases hr'
  rw [hturn]
  refine ⟨⟨rfl, rfl⟩, spare .little, pkt, ofList frame, UInt64.ofNat frame.length, frame.length,
    by omega, ?_⟩
  rw [hstate]
  exact ⟨hexit, hkept, rfl⟩

/-- A Handshake and a Login Start come, and the client is turned away. -/
theorem login_served : ∃ r, Served cryptoExample (Dispatches cryptoExample HandedOver) loginInput r
    ((updateClient cryptoExample (throughTick [1, 0, 0])).run loginInput).2 := by
  apply served_tick loginInput (throughTick [1, 0, 0]) rfl
  intro hadPlayer _
  refine ⟨dispatches_example .handshake [0, 0xd4, 2, 0, 0, 0, 2] rfl (by rfl) rfl
    (by decide +kernel) (by decide +kernel), fun first hfirst => ?_⟩
  cases (by rfl : ((readTurn cryptoExample { read := readExample 1, handler := throughExample }
    default).run loginInput).1 = .ok (some (keptExample default .handshake
      [0, 0xd4, 2, 0, 0, 0, 2]).out)).symm.trans hfirst
  refine ⟨dispatches_example .login [0, 1, 0x61] rfl (by rfl) rfl (by decide +kernel)
    (by decide +kernel), fun second hsecond => ?_⟩
  -- closing does not come to an end
  cases (by rfl : ((readTurn cryptoExample { read := readExample 0, handler := throughExample }
    (keptExample default .handshake [0, 0xd4, 2, 0, 0, 0, 2]).out).run
      ((readTurn cryptoExample { read := readExample 1, handler := throughExample }
        default).run loginInput).2).1 = .error .outOfFuel).symm.trans hsecond

end Example

end Stronk.Mcpr
