import Stronk.DecodeHeap
import Stronk.VarintCodec

/-! Which numbers the decoder takes for which packets. On the wire a number has 32 bits; the
lookup of `mcpr_get_packet_type` gets the eight low ones of them, and in HANDSHAKE it does not
look at all. -/
namespace Stronk.Mcpr
open ByteMemory BoundedReader

section Table

open McprPacketType in
/-- The serverbound packets of a state, each in the place of its number. -/
def serverboundTable : McprState → List McprPacketType
  | .handshake => [hsSbHandshake]
  | .login => [lgSbLoginStart, lgSbEncryptionResponse]
  | .status => [stSbRequest, stSbPing]
  | .play => [plSbTeleportConfirm, plSbTabComplete, plSbChatMessage, plSbClientStatus,
      plSbClientSettings, plSbConfirmTransaction, plSbEnchantItem, plSbClickWindow,
      plSbCloseWindow, plSbPluginMessage, plSbUseEntity, plSbKeepAlive, plSbPlayer,
      plSbPlayerPosition, plSbPlayerPositionAndLook, plSbPlayerLook, plSbVehicleMove,
      plSbSteerBoat, plSbCraftRecipeRequest, plSbPlayerAbilities, plSbPlayerDigging,
      plSbEntityAction, plSbSteerVehicle, plSbCraftingBookData, plSbResourcePackStatus,
      plSbAdvancementTab, plSbHeldItemChange, plSbCreativeInventoryAction, plSbUpdateSign,
      plSbAnimation, plSbSpectate, plSbPlayerBlockPlacement, plSbUseItem]

/-- The packet of a number, as a number of 32 bits. -/
def serverboundPacket (state : McprState) (id : BitVec 32) : Option McprPacketType :=
  (serverboundTable state)[id.toNat]?

/-- A lookup that knows the numbers of a table and no others. -/
theorem lookup_eq_table {α : Type} {table : List α} {lookup : ℕ → Option α}
    (hknown : ∀ n < table.length, lookup n = table[n]?)
    (hother : ∀ n, lookup (n+table.length) = none) (n : ℕ) : lookup n = table[n]? := by
  rcases lt_or_ge n table.length with h | h
  · exact hknown n h
  · obtain ⟨k, rfl⟩ := Nat.exists_eq_add_of_le' h
    rw [hother, List.getElem?_eq_none (Nat.le_add_left _ _)]

/-- The lookup finds the entry of the table, except in HANDSHAKE, where it finds the only
packet under every number. -/
theorem mcprGetPacketType_table (id : UInt8) (state : McprState) : mcprGetPacketType id state =
    if state = .handshake then some .hsSbHandshake else (serverboundTable state)[id.toNat]? := by
  cases state with
  | handshake => rfl
  | login =>
    simp only [mcprGetPacketType, reduceCtorEq, if_false]
    generalize id.toNat = n
    revert n
    apply lookup_eq_table
    · decide
    · intro n
      rfl
  | status =>
    simp only [mcprGetPacketType, reduceCtorEq, if_false]
    generalize id.toNat = n
    revert n
    apply lookup_eq_table
    · decide
    · intro n
      rfl
  | play =>
    simp only [mcprGetPacketType, reduceCtorEq, if_false]
    generalize id.toNat = n
    revert n
    apply lookup_eq_table
    · decide
    · intro n
      rfl

theorem narrowed_toNat (id : BitVec 32) :
    (UInt8.ofBitVec (id.setWidth 8)).toNat = id.toNat%256 := by
  rw [UInt8.toNat_ofBitVec, BitVec.toNat_setWidth]

end Table

section Kept

/-- A decoder that leaves the type of the packet alone. -/
class KeepsType {α : Type} (m : Decoder α) : Prop where
  out : ∀ mem s, (m.run mem s).2.objects.out.id = s.objects.out.id

variable {α β : Type}

theorem KeepsType.bind {m : Decoder α} {f : α → Decoder β} (hm : KeepsType m)
    (hf : ∀ a, KeepsType (f a)) : KeepsType (m >>= f) where
  out mem s := by
    have h := hm.out mem s
    rcases e : m.run mem s with ⟨r | a, s'⟩
    · rw [e] at h
      rwa [bind_error e]
    · rw [e] at h
      rw [bind_ok e, (hf a).out mem s', h]

instance (m : Decoder α) (f : α → Decoder β) [hm : KeepsType m] [hf : ∀ a, KeepsType (f a)] :
    KeepsType (m >>= f) := KeepsType.bind hm hf

instance (a : α) : KeepsType (pure a : Decoder α) := ⟨fun _ _ => rfl⟩

instance (e : DecodeExit) : KeepsType (leave e : Decoder α) := ⟨fun _ _ => rfl⟩

instance (f : Mem → UInt64 → α) : KeepsType (peek f : Decoder α) := ⟨fun _ _ => rfl⟩

instance (n : ℕ) (f : Mem → α) : KeepsType (load n f : Decoder α) := ⟨fun _ _ => rfl⟩

instance (n : ℕ) : KeepsType (skip n : Decoder Unit) := ⟨fun _ _ => rfl⟩

instance : KeepsType (left : Decoder UInt64) := ⟨fun _ _ => rfl⟩

instance : KeepsType (offset : Decoder ℕ) := ⟨fun _ _ => rfl⟩

instance : KeepsType (objects : Decoder DecodeObjects) := ⟨fun _ _ => rfl⟩

instance (c : Prop) [Decidable c] (m k : Decoder α) [KeepsType m] [KeepsType k] :
    KeepsType (if c then m else k) := by
  split <;> infer_instance

instance (events : List HeapEvent) (n : ℤ) : KeepsType (fail events n : Decoder α) :=
  ⟨fun _ _ => rfl⟩

instance (err : Ninerr) (events : List HeapEvent) (n : ℤ) :
    KeepsType (failWith err events n : Decoder α) := ⟨fun _ _ => rfl⟩

instance (err : Ninerr) : KeepsType (ninerrSetErr err) := ⟨fun _ _ => rfl⟩

instance (o : Option α) (failure : Decoder α) [KeepsType failure] :
    KeepsType (orElse o failure) := by
  unfold orElse
  split <;> infer_instance

instance (env : DecodeEnv) (size : ℕ) : KeepsType (malloc env size) := by
  constructor
  intro mem s
  simp only [malloc, bind_run, objects_run, ite_run]
  split <;> rfl

instance (events : List HeapEvent) : KeepsType (varint events) := by
  unfold varint
  apply KeepsType.bind inferInstance
  intro r
  split <;> infer_instance

instance (c : Prop) [Decidable c] (failure : Decoder Unit) [KeepsType failure] :
    KeepsType (refuse c failure) := by
  unfold refuse
  infer_instance

instance (n : ℕ) (exceeded : Decoder Unit) [KeepsType exceeded] :
    KeepsType (require n exceeded) := by
  unfold require
  infer_instance

instance (n : ℕ) (exceeded : Decoder Unit) (decode : Mem → α) [KeepsType exceeded] :
    KeepsType (field n exceeded decode) := by
  unfold field
  infer_instance

instance : KeepsType exceeded := by
  unfold exceeded
  infer_instance

instance (env : DecodeEnv) (len bytesRead : ℕ) : KeepsType (copyString env len bytesRead) := by
  unfold copyString
  apply KeepsType.bind inferInstance
  intro p
  split <;> infer_instance

instance (env : DecodeEnv) : KeepsType (string env) := by
  unfold string mcprDecodeString
  apply KeepsType.bind _ inferInstance
  apply KeepsType.bind inferInstance
  intro r
  split <;> infer_instance

instance (env : DecodeEnv) (size : ℕ) (events : List HeapEvent) :
    KeepsType (mallocOr env size events) := by
  unfold mallocOr
  infer_instance

theorem setOut_keepsType {f : McprPacket → McprPacket} (h : ∀ p, (f p).id = p.id) :
    KeepsType (setOut f) := ⟨fun _ s => h s.objects.out⟩

/-- The type is set before the fields are read, and no field overwrites it. -/
instance (env : DecodeEnv) (state : McprState) (bytesRead1 : ℕ) (id : McprPacketType) :
    KeepsType (decodeFields env state bytesRead1 id) := by
  unfold decodeFields decodeLogin decodeStatus decodePlay
  -- one goal for each packet, and within it one for each statement
  repeat' first
    | infer_instance
    | exact setOut_keepsType fun _ => rfl
    | refine KeepsType.bind ?_ fun _ => ?_
    | split

end Kept

section Frames

/-- The frame begins with a number. -/
structure BeginsWith (id : BitVec 32) (mem : Mem) (maxlen : UInt64) : Prop where
  bytes : AgreeOn (mcprEncodeVarint id).length mem (ofList (mcprEncodeVarint id))
  whole : (mcprEncodeVarint id).length ≤ maxlen.toNat

/-- The frame is taken for a packet of the type, whatever the packet held that is filled. -/
def TakenFor (env : DecodeEnv) (mem : Mem) (state : McprState) (maxlen : UInt64)
    (t : McprPacketType) : Prop :=
  ∀ out, (mcprDecodePacket env out mem state maxlen).out.id = t

/-- The frame is taken for the packet of its number, or else refused. -/
def NumberObeyed (env : DecodeEnv) (mem : Mem) (state : McprState) (maxlen : UInt64)
    (id : BitVec 32) : Prop :=
  (∀ t, TakenFor env mem state maxlen t ↔ serverboundPacket state id = some t) ∧
    (serverboundPacket state id = none →
      ∀ out, (mcprDecodePacket env out mem state maxlen).exit = .ret (-1))

/-- The number is 0 in HANDSHAKE; in the other states it has eight bits, or what is left of it is
beyond the table. -/
def SurvivesNarrowing (state : McprState) (id : BitVec 32) : Prop :=
  match state with
  | .handshake => id = 0#32
  | _ => id.toNat < 256 ∨ (serverboundTable state).length ≤ id.toNat%256

variable (env : DecodeEnv) {mem : Mem} {state : McprState} {maxlen : UInt64} {id : BitVec 32}

/-- A frame with a number that the lookup knows is taken for what the lookup says. -/
theorem BeginsWith.takenFor_iff (h : BeginsWith id mem maxlen) (t : McprPacketType) :
    TakenFor env mem state maxlen t ↔
      mcprGetPacketType (UInt8.ofBitVec (id.setWidth 8)) state = some t := by
  have hid : mcprDecodeVarint mem maxlen = .ok (id, (mcprEncodeVarint id).length) :=
    mcprDecodeVarint_encode mem maxlen id h.bytes h.whole
  rcases ht : mcprGetPacketType (UInt8.ofBitVec (id.setWidth 8)) state with _ | known
  · have hnone : frameType mem state maxlen = none := by
      simp only [frameType, hid, ht, Option.map_none]
    have hkept (out : McprPacket) : (mcprDecodePacket env out mem state maxlen).out = out := by
      obtain ⟨o, hr, -, hout⟩ := decodeRun_untyped env out hnone
      simp only [mcprDecodePacket, DecodeResult.out, hr, hout]
    refine iff_of_false ?_ (by simp)
    intro htaken
    -- two packets of different types are left as they are
    have h1 := htaken { (default : McprPacket) with id := .hsSbHandshake }
    have h2 := htaken { (default : McprPacket) with id := .stSbPing }
    rw [hkept] at h1 h2
    cases h1
    cases h2
  · have hsome : frameType mem state maxlen = some (known, (mcprEncodeVarint id).length) := by
      simp only [frameType, hid, ht, Option.map_some]
    have htype (out : McprPacket) : (mcprDecodePacket env out mem state maxlen).out.id = known := by
      have hkeeps : KeepsType (decodeFields env state (mcprEncodeVarint id).length known) :=
        inferInstance
      simp only [mcprDecodePacket, DecodeResult.out, decodeRun_typed env out hsome]
      rw [hkeeps.out]
      rfl
    rw [Option.some_inj]
    constructor
    · intro htaken
      rw [← htype default, htaken default]
    · rintro rfl
      exact htype

theorem BeginsWith.refused (h : BeginsWith id mem maxlen)
    (hnone : mcprGetPacketType (UInt8.ofBitVec (id.setWidth 8)) state = none) (out : McprPacket) :
    (mcprDecodePacket env out mem state maxlen).exit = .ret (-1) := by
  have hid : mcprDecodeVarint mem maxlen = .ok (id, (mcprEncodeVarint id).length) :=
    mcprDecodeVarint_encode mem maxlen id h.bytes h.whole
  have huntyped : frameType mem state maxlen = none := by
    simp only [frameType, hid, hnone, Option.map_none]
  obtain ⟨o, hr, -⟩ := decodeRun_untyped env out huntyped
  simp only [mcprDecodePacket, hr, exitOf]

/-- What the lookup finds is the packet of the number if and only if the number survives being
cut down to a byte. -/
theorem survivesNarrowing_iff : SurvivesNarrowing state id ↔
    mcprGetPacketType (UInt8.ofBitVec (id.setWidth 8)) state = serverboundPacket state id := by
  have hcut (s : McprState) (hlen : (serverboundTable s).length ≤ 256) :
      (id.toNat < 256 ∨ (serverboundTable s).length ≤ id.toNat%256) ↔
        (serverboundTable s)[id.toNat%256]? = (serverboundTable s)[id.toNat]? := by
    rcases lt_or_ge id.toNat 256 with hlt | hge
    · simp only [hlt, true_or, Nat.mod_eq_of_lt hlt]
    · have hbeyond : (serverboundTable s)[id.toNat]? = none :=
        List.getElem?_eq_none (le_trans hlen hge)
      rw [hbeyond, List.getElem?_eq_none_iff]
      exact ⟨fun h => h.resolve_left (not_lt.mpr hge), .inr⟩
  rw [mcprGetPacketType_table, narrowed_toNat, serverboundPacket]
  cases state with
  | handshake =>
    simp only [SurvivesNarrowing, ↓reduceIte]
    constructor
    · rintro rfl
      rfl
    · intro h
      have hlt := (List.getElem?_eq_some_iff.mp h.symm).1
      simp only [serverboundTable, List.length_cons, List.length_nil] at hlt
      apply BitVec.eq_of_toNat_eq
      rw [BitVec.toNat_zero]
      omega
  | status => exact hcut .status (by decide)
  | login => exact hcut .login (by decide)
  | play => exact hcut .play (by decide)

/-- A frame is taken for the packet of its number, and refused where there is none, if and only
if its number survives being cut down to a byte. -/
theorem packet_number_obeyed_iff (h : BeginsWith id mem maxlen) :
    NumberObeyed env mem state maxlen id ↔ SurvivesNarrowing state id := by
  rw [survivesNarrowing_iff]
  constructor
  · intro hobeyed
    apply Option.ext
    intro t
    rw [← h.takenFor_iff env, hobeyed.1 t]
  · intro hsame
    refine ⟨fun t => ?_, fun hnone out => ?_⟩
    · rw [h.takenFor_iff env, hsame]
    · exact h.refused env (hsame.trans hnone) out

/-- A Teleport Confirm with its own number. -/
theorem teleport_confirm_obeyed :
    NumberObeyed (spare .little) (ofList [0x00, 0x01]) .play 2 0#32 := by
  have hbegins : BeginsWith 0#32 (ofList [0x00, 0x01]) 2 := by
    refine ⟨?_, by decide⟩
    unfold AgreeOn
    decide
  exact (packet_number_obeyed_iff (spare .little) hbegins).mpr (.inl (by decide))

/-- The number 256 of a frame of PLAY is taken for that of Teleport Confirm. -/
theorem number_256_taken : ¬ ∀ (id : BitVec 32) mem state maxlen, BeginsWith id mem maxlen →
    NumberObeyed (spare .little) mem state maxlen id := by
  intro h
  have hbegins : BeginsWith 256#32 (ofList [0x80, 0x02, 0x01]) 3 := by
    refine ⟨?_, by decide⟩
    unfold AgreeOn
    decide
  have hobeyed := h 256#32 (ofList [0x80, 0x02, 0x01]) .play 3 hbegins
  have htaken : TakenFor (spare .little) (ofList [0x80, 0x02, 0x01]) .play 3
      .plSbTeleportConfirm := (hbegins.takenFor_iff (spare .little) _).mpr (by decide)
  have hnone := (hobeyed.1 .plSbTeleportConfirm).mp htaken
  exact absurd hnone (by decide)

end Frames
end Stronk.Mcpr
