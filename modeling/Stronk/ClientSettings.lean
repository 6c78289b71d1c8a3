import Stronk.DecodeHeap
import Stronk.StringCodec
import Stronk.UpdateClient

/-! Client Settings, from the frame to the player: they go through two copies, field by field, the
first into the packet and the second into the player. -/
namespace Stronk.Mcpr
open ByteMemory

section Frame

/-- The settings that a client can send. -/
structure SettingsFrame where
  locale : List UInt8
  nulFree : 0 ∉ locale
  short : locale.length < 2^31
  viewDistance : UInt8
  chatMode : McprChatMode
  chatColors : Bool
  skinParts : UInt8
  mainHand : McprSideBasedHand

def chatModeNumber : McprChatMode → BitVec 32
  | .enabled => 0
  | .commandsOnly => 1
  | .hidden => 2

def handNumber : McprSideBasedHand → BitVec 32
  | .left => 0
  | .right => 1

variable (f : SettingsFrame)

/-- What comes behind the locale. -/
def SettingsFrame.tail : List UInt8 :=
  [f.viewDistance] ++ (mcprEncodeVarint (chatModeNumber f.chatMode) ++
    ([if f.chatColors then 1 else 0] ++ ([f.skinParts] ++
      (mcprEncodeVarint (handNumber f.mainHand) ++ []))))

/-- The frame that they are sent in. -/
def SettingsFrame.bytes : List UInt8 :=
  mcprEncodeVarint 4#32 ++ (wireBytes f.locale ++ f.tail)

/-- The settings as the player is to keep them; each of the skin parts has a bit of its own. -/
def SettingsFrame.settings : PlayerSettings where
  locale := some f.locale
  viewDistance := f.viewDistance
  chatMode := f.chatMode
  chatColors := f.chatColors
  mainHand := f.mainHand
  displayedSkinParts :=
    { capeEnabled := f.skinParts.toNat.testBit 0
      jacketEnabled := f.skinParts.toNat.testBit 1
      leftSleeveEnabled := f.skinParts.toNat.testBit 2
      rightSleeveEnabled := f.skinParts.toNat.testBit 3
      leftPantsEnabled := f.skinParts.toNat.testBit 4
      rightPantsEnabled := f.skinParts.toNat.testBit 5
      hatEnabled := f.skinParts.toNat.testBit 6 }

/-- The packet that the frame is to be decoded to. -/
def SettingsFrame.fields : ClientSettings where
  locale := f.locale
  viewDistance := f.viewDistance.toBitVec
  chatMode := f.chatMode
  chatColors := f.chatColors
  displayedSkinParts := f.settings.displayedSkinParts
  mainHand := f.mainHand

theorem and_ne_zero_iff (parts mask : UInt8) (i : ℕ) (hmask : mask.toNat = 2^i) :
    decide (parts &&& mask ≠ 0) = parts.toNat.testBit i := by
  have hand : (parts &&& mask).toNat = 2^i*(parts.toNat.testBit i).toNat := by
    rw [UInt8.toNat_and, hmask, Nat.and_two_pow, Nat.mul_comm]
  rw [Bool.eq_iff_iff, decide_eq_true_eq, ne_eq, ← UInt8.toNat_inj, hand, UInt8.toNat_zero]
  cases parts.toNat.testBit i
  · simp
  · simp

theorem displayedSkinPartsOf_bits :
    displayedSkinPartsOf f.skinParts = f.settings.displayedSkinParts := by
  simp only [displayedSkinPartsOf, SettingsFrame.settings, DisplayedSkinParts.mk.injEq]
  exact ⟨and_ne_zero_iff _ _ 0 rfl, and_ne_zero_iff _ _ 1 rfl, and_ne_zero_iff _ _ 2 rfl,
    and_ne_zero_iff _ _ 3 rfl, and_ne_zero_iff _ _ 4 rfl, and_ne_zero_iff _ _ 5 rfl,
    and_ne_zero_iff _ _ 6 rfl⟩

theorem mcprChatModeOf_number (mode : McprChatMode) :
    mcprChatModeOf (chatModeNumber mode).toInt = some mode := by
  cases mode <;> decide

theorem mcprHandOf_number (hand : McprSideBasedHand) :
    mcprHandOf (handNumber hand).toInt = some hand := by
  cases hand <;> decide

end Frame

section Decode
open BoundedReader
variable {mem : Mem} {off : ℕ} {left : UInt64} {rest : List UInt8}

theorem ahead_varint {v : BitVec 32} (h : Ahead mem off left (mcprEncodeVarint v ++ rest)) :
    mcprDecodeVarint (shift mem off) left = .ok (v, (mcprEncodeVarint v).length) :=
  mcprDecodeVarint_encode _ _ v h.front.1 h.front.2

theorem ahead_byte {b : UInt8} (h : Ahead mem off left ([b] ++ rest)) :
    shift mem off 0 = b ∧ ¬ left.toNat < 1 := by
  refine ⟨h.front.1 0 Nat.one_pos, ?_⟩
  exact not_lt.mpr h.front.2

variable (f : SettingsFrame) (host : Endian) (out : McprPacket) {maxlen : UInt64}

/-- The frame stands at the start of the memory, and it is all that there is to decode. -/
def SettingsFrame.InFrame (mem : Mem) (maxlen : UInt64) : Prop := Ahead mem 0 maxlen f.bytes

variable {f} (h : f.InFrame mem maxlen)
include h

theorem SettingsFrame.InFrame.type : frameType mem .play maxlen = some (.plSbClientSettings, 1) := by
  have hid : mcprDecodeVarint (shift mem 0) maxlen = .ok (4#32, 1) := ahead_varint h
  rw [shift_zero] at hid
  simp only [frameType, hid]
  rfl

/-- The decoder takes the whole frame, unless the copy of the locale would take 2^31 bytes. -/
theorem SettingsFrame.InFrame.decodes (hlocale : f.locale.length < 2^31-1) :
    (mcprDecodePacket (spare host) out mem .play maxlen).exit = .ret f.bytes.length ∧
      (mcprDecodePacket (spare host) out mem .play maxlen).out.data.playServerbound.clientSettings =
        f.fields := by
  have h1 : Ahead mem 1 (maxlen-UInt64.ofNat 1) (wireBytes f.locale ++ f.tail) := Ahead.skip h
  have h2 := h1.skip
  have h3 := Ahead.skip h2
  have h4 := h3.skip
  have h5 := h4.skip
  have h6 := h5.skip
  have hstring := mcprDecodeString_wireBytes (spare host) (fun _ => rfl) mem hlocale
    (fieldsStart out .plSbClientSettings 1 maxlen) h1.front.1 h1.front.2
  have hmode := ahead_varint h3
  have hhand := ahead_varint h6
  simp only [List.length_singleton] at *
  obtain ⟨hview, hviewIn⟩ := ahead_byte h2
  obtain ⟨hcolors, hcolorsIn⟩ := ahead_byte h4
  obtain ⟨hparts, hpartsIn⟩ := ahead_byte h5
  have hrun := decodeRun_typed (spare host) out h.type
  simp only [fieldsStart] at hstring
  simp only [decodeFields, decodePlay, decodeClientSettings, string, bind_run, hstring, fieldsStart,
    orElse, pure_run, setOut, update_run, skip_run, field, require, refuse, left_run, load_run, varint,
    peek_run, mcprByteSize, mcprBoolSize, mcprUbyteSize, hmode, hhand, mcprChatModeOf_number,
    mcprHandOf_number, mcprDecodeByte, mcprDecodeUbyte, mcprDecodeBool, hview, hviewIn, hcolors,
    hcolorsIn, hparts, hpartsIn, ↓reduceIte, offset_run] at hrun
  simp only [mcprDecodePacket, DecodeResult.out, hrun, exitOf]
  constructor
  · have hlen : (mcprEncodeVarint 4#32).length = 1 := by decide
    simp only [SettingsFrame.bytes, SettingsFrame.tail, List.length_append, List.length_singleton,
      List.length_nil, hlen]
    congr 2
    omega
  · have hbool : (if (if f.chatColors = true then (1 : UInt8) else 0) ≠ 1 ∧
        (if f.chatColors = true then (1 : UInt8) else 0) ≠ 0 then
          out.data.playServerbound.clientSettings.chatColors
        else decide ((if f.chatColors = true then (1 : UInt8) else 0) = 1)) = f.chatColors := by
      cases f.chatColors <;> rfl
    rw [hbool, displayedSkinPartsOf_bits]
    rfl

/-- A locale of 2^31-1 bytes needs one byte more than an `int` can count. -/
theorem SettingsFrame.InFrame.traps (hlocale : f.locale.length = 2^31-1) :
    (mcprDecodePacket (spare host) out mem .play maxlen).exit = .trap := by
  have h1 : Ahead mem 1 (maxlen-UInt64.ofNat 1) (wireBytes f.locale ++ f.tail) := Ahead.skip h
  have hhead := stringHead_wireBytes f.short h1.front.1 h1.front.2
  rw [if_pos hlocale] at hhead
  have hstring := mcprDecodeString_run (spare host) mem (fieldsStart out .plSbClientSettings 1 maxlen)
  simp only [fieldsStart, hhead] at hstring
  have hrun := decodeRun_typed (spare host) out h.type
  simp only [decodeFields, decodePlay, decodeClientSettings, string, bind_run, hstring,
    fieldsStart] at hrun
  simp only [mcprDecodePacket, hrun, exitOf]

end Decode

section Handle
open EarlyExit
variable {κ ρ : Type} (crypto : Crypto κ ρ)

/-- The settings of the player are left alone. -/
def SettingsKept (c c' : Connection κ ρ) : Prop :=
  c'.player.map (fun p => (p.clientSettingsKnown, p.clientSettings)) =
    c.player.map fun p => (p.clientSettingsKnown, p.clientSettings)

instance : IsPreorder (Connection κ ρ) SettingsKept where
  refl _ := rfl
  trans _ _ _ h h' := Eq.trans h' h

theorem fwritePacket_settingsKept (w : StreamWrite) (pkt : McprPacket) :
    Moves SettingsKept (fwritePacket crypto.cipher w pkt : ConnectionProg κ ρ Bool) := by
  intro c
  have hworks : Works (fun _ => True) c ((fwritePacket crypto.cipher w pkt).run c).2 :=
    fwritePacket_works crypto.cipher w pkt trivial c
  rw [SettingsKept, hworks.player]

theorem requirePlayer_settingsKept :
    Moves SettingsKept (requirePlayer : ConnectionProg κ ρ Player) := by
  refine Moves.get.bind fun c => ?_
  rcases c.player with _ | p
  · exact Moves.exit _
  · exact Moves.pure _

theorem sendChunks_settingsKept (host : Endian) (chunks : BitVec 64 → BitVec 64 → ChunkSend)
    (positions : List (BitVec 64 × BitVec 64)) :
    Moves SettingsKept (sendChunks crypto host chunks positions) := by
  induction positions with
  | nil => exact Moves.pure _
  | cons p positions ih =>
    refine Moves.bind (Moves.ite (Moves.pure _) ?_) fun _ => ih
    rcases (chunks p.1 p.2).chunk with _ | chunk
    · exact Moves.exit _
    · exact fwritePacket_settingsKept crypto _ _

/-- Whatever comes of the packets that the handler sends, the settings were set before. -/
theorem handlePlClientSettings_player (env : ClientSettingsEnv) (pkt : McprPacket)
    {c : Connection κ ρ} {p : Player} (hp : c.player = some p) :
    ∃ p', ((handlePlClientSettings crypto env pkt).run c).2.player = some p' ∧
      p'.clientSettingsKnown = true ∧ p'.clientSettings =
        playerSettings env p.clientSettings pkt.data.playServerbound.clientSettings := by
  -- what comes behind the copy
  obtain ⟨rest, hsplit, hrest⟩ : ∃ rest : ConnectionProg κ ρ HpResult,
      handlePlClientSettings crypto env pkt = (requirePlayer >>= fun _ =>
        setPlayer (fun p => { p with
          clientSettings := playerSettings env p.clientSettings pkt.data.playServerbound.clientSettings
          clientSettingsKnown := true }) >>= fun _ => rest) ∧ Moves SettingsKept rest := by
    refine ⟨_, rfl, ?_⟩
    refine (sendChunks_settingsKept crypto _ _ _).bind fun _ => ?_
    refine requirePlayer_settingsKept.bind fun player => ?_
    refine (fwritePacket_settingsKept crypto _ _).bind fun sent => Moves.ite ?_ ?_
    · split
      · exact Moves.pure _
      · split
        · exact Moves.exit _
        · exact Moves.pure _
    · refine Moves.bind (Moves.modify fun c => ?_) fun _ => Moves.pure _
      simp only [SettingsKept, Option.map_map]
      rfl
  have hrun : (handlePlClientSettings crypto env pkt).run c = rest.run { c with
      player := some { p with
        clientSettings := playerSettings env p.clientSettings pkt.data.playServerbound.clientSettings
        clientSettingsKnown := true } } := by
    simp only [hsplit, bind_run, requirePlayer, get_run, hp, pure_run, setPlayer, modify_run,
      Option.map_some]
  have hkept := hrest { c with
    player := some { p with
      clientSettings := playerSettings env p.clientSettings pkt.data.playServerbound.clientSettings
      clientSettingsKnown := true } }
  rw [← hrun, SettingsKept, Option.map_some, Option.map_eq_some_iff] at hkept
  obtain ⟨p', hp', hsame⟩ := hkept
  rw [Prod.mk.injEq] at hsame
  exact ⟨p', hp', hsame.1, hsame.2⟩

/-- The frame is decoded, and the player that it is handled for keeps its settings as they were
sent. -/
def SettingsReach (f : SettingsFrame) (host : Endian) (mem : Mem) (maxlen : UInt64)
    (env : ClientSettingsEnv) (out : McprPacket) (c : Connection κ ρ) : Prop :=
  let r := mcprDecodePacket (spare host) out mem .play maxlen
  r.exit = .ret f.bytes.length ∧
    ∃ p, ((handlePlClientSettings crypto env r.out).run c).2.player = some p ∧
      p.clientSettingsKnown = true ∧ p.clientSettings = f.settings

/-- Client settings reach the player unchanged if and only if the player had the main hand of the
frame before. -/
theorem client_settings_reach_iff {f : SettingsFrame} {mem : Mem} {maxlen : UInt64}
    (h : f.InFrame mem maxlen) (host : Endian) (out : McprPacket) {env : ClientSettingsEnv}
    (henv : env.mallocLocale = true) {c : Connection κ ρ} {p : Player} (hp : c.player = some p) :
    SettingsReach crypto f host mem maxlen env out c ↔
      f.locale.length < 2^31-1 ∧ p.clientSettings.mainHand = f.mainHand := by
  by_cases hlocale : f.locale.length < 2^31-1
  · obtain ⟨hexit, hfields⟩ := h.decodes host out hlocale
    obtain ⟨p', hp', hknown, hsettings⟩ := handlePlClientSettings_player crypto env
      (mcprDecodePacket (spare host) out mem .play maxlen).out hp
    have hlocale' : cString f.locale = f.locale := (cString_eq_self_iff _).mpr f.nulFree
    have hcopied : p'.clientSettings =
        { f.settings with mainHand := p.clientSettings.mainHand } := by
      rw [hsettings, hfields]
      simp only [playerSettings, henv, SettingsFrame.fields, SettingsFrame.settings, hlocale',
        UInt8.ofBitVec_toBitVec, ↓reduceIte]
    constructor
    · rintro ⟨-, q, hq, -, hsame⟩
      rw [hp'] at hq
      cases hq
      refine ⟨hlocale, ?_⟩
      have hhand := congrArg PlayerSettings.mainHand (hcopied.symm.trans hsame)
      exact hhand
    · rintro ⟨-, hhand⟩
      refine ⟨hexit, p', hp', hknown, ?_⟩
      rw [hcopied, hhand]
      rfl
  · have htrap := h.traps host out (by have := f.short; omega)
    refine iff_of_false ?_ fun hlt => hlocale hlt.1
    rintro ⟨hexit, -⟩
    rw [htrap] at hexit
    cases hexit

/-- A frame from a left-handed client, which has not sent settings before. -/
def leftHandedFrame : SettingsFrame where
  locale := ascii "en_GB"
  nulFree := by decide
  short := by decide
  viewDistance := 10
  chatMode := .enabled
  chatColors := true
  skinParts := 0x7F
  mainHand := .left

theorem leftHandedFrame_inFrame :
    leftHandedFrame.InFrame (ofList leftHandedFrame.bytes) 12 := by
  refine ⟨by decide, ?_⟩
  rw [shift_zero]
  exact agreeOn_refl _ _

/-- A client in PLAY whose player has a main hand. -/
def handedConnection (hand : McprSideBasedHand) : Connection Unit Unit :=
  { silentExample with
    player := some { (default : Player) with
      clientSettings := { (default : PlayerSettings) with mainHand := hand } } }

/-- The hand of the frame is the one that the player has. -/
theorem left_hand_reaches :
    SettingsReach cryptoExample leftHandedFrame .little (ofList leftHandedFrame.bytes) 12
      handlerExample.clientSettings default (handedConnection .left) :=
  (client_settings_reach_iff cryptoExample leftHandedFrame_inFrame .little default rfl rfl).mpr
    ⟨by decide, rfl⟩

/-- The player stays right-handed. -/
theorem left_hand_lost : ¬ ∀ (f : SettingsFrame) mem maxlen env out (c : Connection Unit Unit) p,
    f.InFrame mem maxlen → env.mallocLocale = true → c.player = some p →
      SettingsReach cryptoExample f .little mem maxlen env out c := by
  intro h
  obtain ⟨-, p', hp', -, hsettings⟩ := h leftHandedFrame (ofList leftHandedFrame.bytes) 12
    handlerExample.clientSettings default (handedConnection .right) _ leftHandedFrame_inFrame rfl rfl
  obtain ⟨q, hq, -, hkept⟩ := handlePlClientSettings_player cryptoExample
    handlerExample.clientSettings (mcprDecodePacket (spare .little) default
      (ofList leftHandedFrame.bytes) .play 12).out
    (show (handedConnection .right).player = some _ from rfl)
  rw [hp'] at hq
  cases hq
  have hhand := congrArg PlayerSettings.mainHand (hkept.symm.trans hsettings)
  cases hhand

end Handle
end Stronk.Mcpr
