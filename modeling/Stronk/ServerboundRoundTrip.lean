import Stronk.DecodedFields
import Stronk.McprEncode

/-! Whether serverbound packets can be encoded and decoded again. The encoder has a case for
five of their types, but no serverbound type has a number that it could write. -/
namespace Stronk.Mcpr
open ByteMemory EarlyExit

def NulFree (s : List UInt8) : Prop := (0 : UInt8) ∉ s

/-- A blob and the field that says how long it is. -/
def BlobOf (length : BitVec 32) (bytes : List UInt8) : Prop := (bytes.length : ℤ) = length.toInt

/-- The packets that a client could ask the encoder for: those of a type with a case, whose
fields are as the protocol has them. -/
inductive EncodableServerbound : McprPacket → Prop
  | handshake (data : McprPacketData) : NulFree data.handshake.serverAddress →
      data.handshake.protocolVersion = mcprProtocolVersion →
      data.handshake.nextState = .status ∨ data.handshake.nextState = .login →
      EncodableServerbound ⟨.hsSbHandshake, .handshake, data⟩
  | loginStart (data : McprPacketData) : NulFree data.loginServerbound.loginStart.name →
      EncodableServerbound ⟨.lgSbLoginStart, .login, data⟩
  | encryptionResponse (data : McprPacketData) :
      BlobOf data.loginServerbound.encryptionResponse.sharedSecretLength
        data.loginServerbound.encryptionResponse.sharedSecret →
      BlobOf data.loginServerbound.encryptionResponse.verifyTokenLength
        data.loginServerbound.encryptionResponse.verifyToken →
      EncodableServerbound ⟨.lgSbEncryptionResponse, .login, data⟩
  | keepAlive (data : McprPacketData) : EncodableServerbound ⟨.plSbKeepAlive, .play, data⟩
  | pluginMessage (data : McprPacketData) :
      NulFree data.playServerbound.pluginMessage.channel →
      data.playServerbound.pluginMessage.data.length =
        data.playServerbound.pluginMessage.dataLength.toNat →
      EncodableServerbound ⟨.plSbPluginMessage, .play, data⟩

/-- The packet is encoded in `n` bytes, of which decoding takes all and finds the same packet,
whatever packet it is given to fill. -/
def RoundTrips (env : EncodeEnv) (pkt : McprPacket) : Prop :=
  ∃ n : UInt64, 0 < n ∧ (mcprEncodePacket env pkt).exit = .ret n ∧ ∀ out,
    let r := mcprDecodePacket (spare env.host) out
      (ofList (mcprEncodePacket env pkt).objects.written) pkt.state n
    r.exit = .ret n.toNat ∧ r.out.id = pkt.id ∧ SameFields pkt.id r.out.data pkt.data

/-- Nothing is written, and the program ends. -/
def Aborts (m : Encoder Unit) : Prop := ∀ o, m.run o = (.error .abort, o)

/-- A case that starts with a number which is not there gets no further. -/
theorem packetNumber_aborts {t : McprPacketType} (h : mcprPacketTypeToByte t = none)
    (K : Unit → Encoder Unit) : Aborts (packetNumber t >>= K) := by
  intro o
  have hnumber : (packetNumber t).run o = (.error .abort, o) := by
    simp only [packetNumber, h]
    rfl
  simp only [bind_run, hnumber]

/-- No case of the `switch` gets past the number of its packet, with or without the log. -/
theorem EncodableServerbound.aborts (env : EncodeEnv) {pkt : McprPacket}
    (h : EncodableServerbound pkt) :
    mcprPacketTypeToByte pkt.id = none ∧ Aborts (encodeSwitch env pkt) := by
  cases h with
  | handshake data => exact ⟨rfl, packetNumber_aborts rfl _⟩
  | loginStart data => exact ⟨rfl, packetNumber_aborts rfl _⟩
  | encryptionResponse data => exact ⟨rfl, packetNumber_aborts rfl _⟩
  | keepAlive data => exact ⟨rfl, packetNumber_aborts rfl _⟩
  | pluginMessage data => exact ⟨rfl, packetNumber_aborts rfl _⟩

/-- No serverbound packet makes the round trip: encoding it ends the program, whatever its
fields are. -/
theorem serverbound_never_round_trips (env : EncodeEnv) (pkt : McprPacket)
    (h : EncodableServerbound pkt) :
    (mcprEncodePacket env pkt).exit = .abort ∧ ¬ RoundTrips env pkt := by
  have habort : (mcprEncodePacket env pkt).exit = .abort := by
    have hbody : encodeBody env pkt = exit .abort := by
      simp only [encodeBody, (h.aborts env).1]
    simp only [mcprEncodePacket, hbody]
    rfl
  refine ⟨habort, ?_⟩
  rintro ⟨n, -, hn, -⟩
  rw [habort] at hn
  contradiction

section Example

def loginStartExample : McprPacket :=
  { (default : McprPacket) with
    id := .lgSbLoginStart
    state := .login
    data.loginServerbound.loginStart.name := ascii "Notch" }

theorem login_start_encodable : EncodableServerbound loginStartExample :=
  .loginStart _ (show (0 : UInt8) ∉ ascii "Notch" by decide)

theorem login_start_lost :
    (mcprEncodePacket default loginStartExample).exit = .abort ∧
      ¬ RoundTrips default loginStartExample :=
  serverbound_never_round_trips default loginStartExample login_start_encodable

/-- A Login Start with a name of five letters does not come back. -/
theorem login_start_no_round_trip : ¬ ∀ pkt, EncodableServerbound pkt → RoundTrips default pkt := by
  intro h
  obtain ⟨n, -, hn, -⟩ := h loginStartExample login_start_encodable
  exact absurd hn (by simp [mcprEncodePacket, encodeBody, loginStartExample, mcprPacketTypeToByte,
    encodeExit])

end Example

end Stronk.Mcpr
