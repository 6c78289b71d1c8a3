import Stronk.DecodeConfined
import Stronk.LayoutFront

/-! What a decoder does to the heap. It allocates a block for every string and blob; once it
knows the type of a packet, every way it has to give up releases the packet of its caller. -/
namespace Stronk.Mcpr
open ByteMemory BoundedReader

/-- The blocks of `n` allocations that all succeed, from number `k` on. -/
def allocations (k n : ℕ) : List HeapEvent := (List.range' k n).map HeapEvent.alloc

/-- A decoder asks for `n` blocks. If it gets to its end it was given all of them and released
none; if it gives up, the caller's packet is released. -/
def Ledger {α : Type} (env : DecodeEnv) (n : ℕ) (m : Decoder α) : Prop :=
  ∀ mem s, match m.run mem s with
    | (.ok _, s') => s'.objects.mallocs = s.objects.mallocs+n ∧
        (∀ i, s.objects.mallocs ≤ i → i < s.objects.mallocs+n → env.malloc i = true) ∧
        s'.objects.heap = s.objects.heap ++ allocations s.objects.mallocs n
    | (.error .trap, s') => ∃ k, s'.objects.heap = s.objects.heap ++ allocations s.objects.mallocs k
    | (.error (.ret _), s') => s'.objects.mallocs ≤ s.objects.mallocs+n ∧
        HeapEvent.freeOut ∈ s'.objects.heap

section Rules
variable {env : DecodeEnv} {α β : Type} {n : ℕ}

theorem allocations_append (k a b : ℕ) :
    allocations k a ++ allocations (k+a) b = allocations k (a+b) := by
  rw [allocations, allocations, allocations, ← List.map_append, List.range'_append_1]

theorem Ledger.bind {a b : ℕ} {m : Decoder α} {K : α → Decoder β} (hm : Ledger env a m)
    (hK : ∀ x, Ledger env b (K x)) : Ledger env (a+b) (m >>= K) := by
  intro mem s
  have h1 := hm mem s
  rcases hr : m.run mem s with ⟨(_ | _) | x, t⟩ <;> rw [hr] at h1
  · rw [bind_error hr]
    obtain ⟨hle, hfree⟩ := h1
    exact ⟨by omega, hfree⟩
  · rw [bind_error hr]
    exact h1
  · rw [bind_ok hr]
    obtain ⟨hcount, hgiven, hheap⟩ := h1
    have h2 := hK x mem t
    rcases hr' : (K x).run mem t with ⟨(_ | _) | y, u⟩ <;> rw [hr'] at h2
    · exact ⟨by omega, h2.2⟩
    · obtain ⟨k, hk⟩ := h2
      exact ⟨a+k, by rw [hk, hheap, hcount, List.append_assoc, allocations_append]⟩
    · obtain ⟨hcount', hgiven', hheap'⟩ := h2
      refine ⟨by omega, fun i hi hlt => ?_, ?_⟩
      · by_cases hia : i < s.objects.mallocs+a
        · exact hgiven i hi hia
        · exact hgiven' i (by omega) (by omega)
      · rw [hheap', hheap, hcount, List.append_assoc, allocations_append]

/-- A step that allocates nothing. -/
theorem Ledger.step {m : Decoder α} {K : α → Decoder β} (hm : Ledger env 0 m)
    (hK : ∀ x, Ledger env n (K x)) : Ledger env n (m >>= K) := by
  have h := hm.bind hK
  rwa [Nat.zero_add] at h

/-- A step that allocates a block. -/
theorem Ledger.block {m : Decoder α} {K : α → Decoder β} (hm : Ledger env 1 m)
    (hK : ∀ x, Ledger env n (K x)) : Ledger env (n+1) (m >>= K) := by
  have h := hm.bind hK
  rwa [Nat.add_comm] at h

/-- Nothing happens to the heap. -/
theorem Ledger.still {m : Decoder α} (hm : ∀ mem s, ∃ a t, m.run mem s = (.ok a, t) ∧
    t.objects.mallocs = s.objects.mallocs ∧ t.objects.heap = s.objects.heap) :
    Ledger env 0 m := by
  intro mem s
  obtain ⟨a, t, hr, hcount, hheap⟩ := hm mem s
  rw [hr]
  refine ⟨hcount, fun i _ _ => by omega, ?_⟩
  rw [hheap]
  exact (List.append_nil _).symm

theorem Ledger.pure (a : α) : Ledger env 0 (pure a : Decoder α) :=
  Ledger.still fun _ s => ⟨a, s, rfl, rfl, rfl⟩

theorem Ledger.setOut (f : McprPacket → McprPacket) : Ledger env 0 (setOut f) :=
  Ledger.still fun _ _ => ⟨_, _, rfl, rfl, rfl⟩

theorem Ledger.skip (k : ℕ) : Ledger env 0 (skip k : Decoder Unit) :=
  Ledger.still fun _ _ => ⟨_, _, rfl, rfl, rfl⟩

theorem Ledger.load (k : ℕ) (f : Mem → α) : Ledger env 0 (load k f : Decoder α) :=
  Ledger.still fun _ _ => ⟨_, _, rfl, rfl, rfl⟩

theorem Ledger.left : Ledger env 0 (left : Decoder UInt64) :=
  Ledger.still fun _ _ => ⟨_, _, rfl, rfl, rfl⟩

theorem Ledger.offset : Ledger env 0 (offset : Decoder ℕ) :=
  Ledger.still fun _ _ => ⟨_, _, rfl, rfl, rfl⟩

/-- A failure exit that releases the packet. -/
theorem Ledger.failWith (err : Ninerr) {events : List HeapEvent}
    (h : HeapEvent.freeOut ∈ events) (k : ℤ) :
    Ledger env 0 (failWith err events k : Decoder α) :=
  fun _ _ => ⟨le_refl _, List.mem_append_right _ h⟩

theorem Ledger.varint {events : List HeapEvent} (h : HeapEvent.freeOut ∈ events) :
    Ledger env 0 (varint events) := by
  intro mem s
  rcases hd : mcprDecodeVarint (shift mem s.off) s.left with message | v
  · have hr : (Mcpr.varint events).run mem s = (Mcpr.failWith (.new message) events (-1)).run mem s := by
      simp [Mcpr.varint, hd]
    rw [hr]
    exact (Ledger.failWith _ h (-1) : Ledger env 0 (_ : Decoder (BitVec 32 × ℕ))) mem s
  · have hr : (Mcpr.varint events).run mem s = (.ok v, s) := by
      simp [Mcpr.varint, hd]
    rw [hr]
    exact (Ledger.pure v : Ledger env 0 _) mem s

theorem Ledger.refuse {c : Prop} [Decidable c] {failure : Decoder Unit}
    (hf : Ledger env 0 failure) : Ledger env 0 (refuse c failure) := by
  unfold Mcpr.refuse
  split
  · exact hf
  · exact Ledger.pure ()

theorem Ledger.orElse {o : Option α} {failure : Decoder α} (hf : Ledger env 0 failure) :
    Ledger env 0 (orElse o failure) := by
  rcases o with _ | a
  · exact hf
  · exact Ledger.pure a

theorem Ledger.field {k : ℕ} {exceeded : Decoder Unit} (hf : Ledger env 0 exceeded)
    (decode : Mem → α) : Ledger env 0 (field k exceeded decode) :=
  (Ledger.left.step fun _ => Ledger.refuse hf).step fun _ => Ledger.load _ _

/-- The outcome of an allocation is left to the caller. -/
theorem malloc_ledger (env : DecodeEnv) (size : ℕ) (mem : Mem) (s : Cursor DecodeObjects) :
    ∃ t, t.objects.mallocs = s.objects.mallocs+1 ∧
      (((malloc env size).run mem s = (.ok (some s.objects.mallocs), t) ∧
        env.malloc s.objects.mallocs = true ∧
        t.objects.heap = s.objects.heap ++ allocations s.objects.mallocs 1) ∨
      ((malloc env size).run mem s = (.ok none, t) ∧ t.objects.heap = s.objects.heap)) := by
  by_cases hc : size ≤ ptrdiffMax ∧ env.malloc s.objects.mallocs = true
  · refine ⟨{ s with objects := { s.objects with
      mallocs := s.objects.mallocs+1, heap := s.objects.heap ++ [.alloc s.objects.mallocs] } },
      rfl, .inl ⟨?_, hc.2, rfl⟩⟩
    simp only [malloc, bind_run, objects_run, hc, ite_run]
    rfl
  · refine ⟨{ s with objects := { s.objects with mallocs := s.objects.mallocs+1 } }, rfl,
      .inr ⟨?_, rfl⟩⟩
    simp only [malloc, bind_run, objects_run, hc, ↓reduceIte]
    rfl

theorem Ledger.mallocOr {size : ℕ} {events : List HeapEvent} (h : HeapEvent.freeOut ∈ events) :
    Ledger env 1 (mallocOr env size events) := by
  intro mem s
  obtain ⟨t, hcount, ⟨hr, hgiven, hheap⟩ | ⟨hr, hheap⟩⟩ := malloc_ledger env size mem s
  · have hrun : (Mcpr.mallocOr env size events).run mem s = (.ok s.objects.mallocs, t) := by
      rw [Mcpr.mallocOr, bind_ok hr]
      rfl
    rw [hrun]
    refine ⟨hcount, fun i hi hlt => ?_, hheap⟩
    obtain rfl : i = s.objects.mallocs := by omega
    exact hgiven
  · have hrun : (Mcpr.mallocOr env size events).run mem s = (.error (.ret (-1)),
        { t with objects := { t.objects with
          ninerr := some .fromErrno, heap := t.objects.heap ++ events } }) := by
      rw [Mcpr.mallocOr, bind_ok hr]
      rfl
    rw [hrun]
    exact ⟨hcount.le, List.mem_append_right _ h⟩

/-- A string is one block; wherever it fails, its caller releases the packet. -/
theorem Ledger.string : Ledger env 1 (string env) := by
  have hrest (head : StringHead) : Ledger env 1 (stringRest env head) := by
    intro mem s
    cases head with
    | invalid err => exact ⟨Nat.le_succ _, List.mem_append_right _ List.mem_cons_self⟩
    | trap => exact ⟨0, (List.append_nil _).symm⟩
    | content len k =>
      have hcopy : Ledger env 1 (stringRest env (.content len k)) := by
        apply Ledger.block (Ledger.mallocOr List.mem_cons_self)
        intro block
        apply (Ledger.load _ _).step
        intro content
        exact Ledger.pure _
      exact hcopy mem s
  intro mem s
  rw [string_run]
  exact hrest _ mem s

end Rules

section Packets
variable {env : DecodeEnv}

/-- How many blocks a packet of a type takes. -/
def packetMallocs : McprPacketType → ℕ
  | .hsSbHandshake => 1
  | .lgSbLoginStart => 1
  | .lgSbEncryptionResponse => 2
  | .plSbChatMessage => 1
  | .plSbClientSettings => 1
  | .plSbPluginMessage => 2
  | _ => 0

theorem exceeded_ledger : Ledger env 0 exceeded := Ledger.failWith _ (by simp) _

/-- A field without a block, as it is read, stored and stepped over. -/
theorem Ledger.stored {α : Type} {m : Decoder α} {f : α → McprPacket → McprPacket} {k : α → ℕ}
    {K : α → Decoder ℤ} {n : ℕ} (hm : Ledger env 0 m) (hK : ∀ a, Ledger env n (K a)) :
    Ledger env n (do let a ← m; Mcpr.setOut (f a); BoundedReader.skip (k a); K a) :=
  hm.step fun a => (Ledger.setOut _).step fun _ => (Ledger.skip _).step fun _ => hK a

theorem decodeHandshake_ledger : Ledger env 1 (decodeHandshake env) := by
  apply Ledger.stored (Ledger.varint (by simp))
  intro protocolVersion
  apply Ledger.block Ledger.string
  intro serverAddress
  apply Ledger.step (Ledger.setOut _)
  intro _
  apply Ledger.step (Ledger.skip _)
  intro _
  apply Ledger.stored (Ledger.field (Ledger.failWith _ (by simp) _) _)
  intro serverPort
  apply Ledger.step (Ledger.varint (by simp))
  intro nextState
  apply Ledger.step (Ledger.orElse (Ledger.failWith _ (by simp) _))
  intro state
  apply Ledger.step (Ledger.setOut _)
  intro _
  apply Ledger.step Ledger.offset
  intro o
  exact Ledger.pure _

theorem decodeLoginStart_ledger (bytesRead1 : ℕ) :
    Ledger env 1 (decodeLoginStart env bytesRead1) := by
  apply Ledger.block Ledger.string
  intro name
  apply Ledger.step (Ledger.setOut _)
  intro _
  exact Ledger.pure _

theorem decodeEncryptionResponse_ledger : Ledger env 2 (decodeEncryptionResponse env) := by
  apply Ledger.step (Ledger.varint (by simp))
  intro sharedSecretLength
  apply Ledger.step (Ledger.refuse (Ledger.failWith _ (by simp) _))
  intro _
  apply Ledger.step (Ledger.setOut _)
  intro _
  apply Ledger.step (Ledger.skip _)
  intro _
  apply Ledger.block (Ledger.mallocOr (by simp))
  intro _
  apply Ledger.stored (Ledger.load _ _)
  intro sharedSecret
  apply Ledger.step (Ledger.varint (by simp))
  intro verifyTokenLength
  apply Ledger.step (Ledger.refuse (Ledger.failWith _ (by simp) _))
  intro _
  apply Ledger.step (Ledger.setOut _)
  intro _
  apply Ledger.step (Ledger.skip _)
  intro _
  apply Ledger.block (Ledger.mallocOr (by simp))
  intro _
  apply Ledger.stored (Ledger.load _ _)
  intro verifyToken
  apply Ledger.step Ledger.offset
  intro o
  exact Ledger.pure _

theorem decodePing_ledger (bytesRead1 : ℕ) : Ledger env 0 (decodePing env bytesRead1) := by
  apply Ledger.step (Ledger.field exceeded_ledger _)
  intro payload
  apply Ledger.step (Ledger.setOut _)
  intro _
  exact Ledger.pure _

theorem decodeChatMessage_ledger : Ledger env 1 (decodeChatMessage env) := by
  apply Ledger.block Ledger.string
  intro message
  apply Ledger.step (Ledger.setOut _)
  intro _
  apply Ledger.step (Ledger.skip _)
  intro _
  apply Ledger.step Ledger.offset
  intro o
  exact Ledger.pure _

theorem decodeClientSettings_ledger : Ledger env 1 (decodeClientSettings env) := by
  apply Ledger.block Ledger.string
  intro locale
  apply Ledger.step (Ledger.setOut _)
  intro _
  apply Ledger.step (Ledger.skip _)
  intro _
  apply Ledger.stored (Ledger.field (Ledger.failWith _ (by simp) _) _)
  intro viewDistance
  apply Ledger.step (Ledger.varint (by simp))
  intro chatModeInt
  apply Ledger.stored (Ledger.orElse (Ledger.failWith _ (by simp) _))
  intro chatMode
  apply Ledger.stored (Ledger.field (Ledger.failWith _ (by simp) _) _)
  intro chatColors
  apply Ledger.stored (Ledger.field (Ledger.failWith _ (by simp) _) _)
  intro displayedSkinParts
  apply Ledger.step (Ledger.varint (by simp))
  intro mainHandInt
  apply Ledger.stored (Ledger.orElse (Ledger.failWith _ (by simp) _))
  intro mainHand
  apply Ledger.step Ledger.offset
  intro o
  exact Ledger.pure _

theorem decodePluginMessage_ledger : Ledger env 2 (decodePluginMessage env) := by
  apply Ledger.block Ledger.string
  intro channel
  apply Ledger.step (Ledger.setOut _)
  intro _
  apply Ledger.step (Ledger.skip _)
  intro _
  apply Ledger.step Ledger.left
  intro lenLeft
  apply Ledger.block (Ledger.mallocOr (by simp))
  intro _
  apply Ledger.step (Ledger.load _ _)
  intro data
  apply Ledger.step (Ledger.setOut _)
  intro _
  apply Ledger.step Ledger.offset
  intro o
  exact Ledger.pure _

theorem decodeKeepAlive_ledger : Ledger env 0 decodeKeepAlive := by
  apply Ledger.step (Ledger.varint (by simp))
  intro keepAliveId
  apply Ledger.step (Ledger.setOut _)
  intro _
  apply Ledger.step Ledger.offset
  intro o
  exact Ledger.pure _

theorem decodeTeleportConfirm_ledger : Ledger env 0 decodeTeleportConfirm := by
  apply Ledger.step (Ledger.varint (by simp))
  intro teleportId
  apply Ledger.step (Ledger.setOut _)
  intro _
  apply Ledger.step Ledger.offset
  intro o
  exact Ledger.pure _

/-- The flag at the end of a packet that moves the player. -/
theorem onGround_ledger {f : (Bool → Bool) → McprPacket → McprPacket} {v : ℕ → ℤ} :
    Ledger env 0 (do
      let onGround ← field mcprBoolSize exceeded fun m old => mcprDecodeBool old m
      setOut (f onGround)
      let o ← offset
      return v o) :=
  (Ledger.field exceeded_ledger _).step fun _ => (Ledger.setOut _).step fun _ =>
    Ledger.offset.step fun _ => Ledger.pure _

theorem decodePlayerPosition_ledger : Ledger env 0 (decodePlayerPosition env) := by
  apply Ledger.stored (Ledger.field exceeded_ledger _)
  intro x
  apply Ledger.stored (Ledger.field exceeded_ledger _)
  intro feetY
  apply Ledger.stored (Ledger.field exceeded_ledger _)
  intro z
  exact onGround_ledger

theorem decodePlayerPositionAndLook_ledger : Ledger env 0 (decodePlayerPositionAndLook env) := by
  apply Ledger.stored (Ledger.field exceeded_ledger _)
  intro x
  apply Ledger.stored (Ledger.field exceeded_ledger _)
  intro feetY
  apply Ledger.stored (Ledger.field exceeded_ledger _)
  intro z
  apply Ledger.stored (Ledger.field exceeded_ledger _)
  intro yaw
  apply Ledger.stored (Ledger.field exceeded_ledger _)
  intro pitch
  exact onGround_ledger

theorem decodePlayerLook_ledger : Ledger env 0 (decodePlayerLook env) := by
  apply Ledger.stored (Ledger.field exceeded_ledger _)
  intro yaw
  apply Ledger.stored (Ledger.field exceeded_ledger _)
  intro pitch
  exact onGround_ledger

theorem decodeHeldItemChange_ledger : Ledger env 0 (decodeHeldItemChange env) := by
  apply Ledger.stored (Ledger.field exceeded_ledger _)
  intro slot
  apply Ledger.step Ledger.offset
  intro o
  exact Ledger.pure _

/-- The ledger of every type that has a case in its state. -/
theorem decodeFields_ledger (state : McprState) (bytesRead1 : ℕ) (id : UInt8) (t : McprPacketType)
    (ht : mcprGetPacketType id state = some t) (hl : packetLayout t ≠ none) :
    Ledger env (packetMallocs t) (decodeFields env state bytesRead1 t) := by
  cases state with
  | handshake =>
    cases ht
    exact decodeHandshake_ledger
  | login =>
    simp only [mcprGetPacketType] at ht
    split at ht
    · cases ht
      exact decodeLoginStart_ledger bytesRead1
    · cases ht
      exact decodeEncryptionResponse_ledger
    · contradiction
  | status =>
    simp only [mcprGetPacketType] at ht
    split at ht
    · cases ht
      exact Ledger.pure _
    · cases ht
      exact decodePing_ledger bytesRead1
    · contradiction
  | play =>
    have hplay := mcprGetPacketType_play id t ht
    cases t
    case plSbTeleportConfirm => exact decodeTeleportConfirm_ledger
    case plSbChatMessage => exact decodeChatMessage_ledger
    case plSbClientSettings => exact decodeClientSettings_ledger
    case plSbPluginMessage => exact decodePluginMessage_ledger
    case plSbKeepAlive => exact decodeKeepAlive_ledger
    case plSbPlayerPosition => exact decodePlayerPosition_ledger
    case plSbPlayerPositionAndLook => exact decodePlayerPositionAndLook_ledger
    case plSbPlayerLook => exact decodePlayerLook_ledger
    case plSbHeldItemChange => exact decodeHeldItemChange_ledger
    all_goals first
      | exact absurd rfl hl
      | exact absurd (by decide) hplay

/-- A type without a case is given up at the end of the `switch`. -/
theorem decodeFields_unimplemented (env : DecodeEnv) (state : McprState) (bytesRead1 : ℕ)
    (id : UInt8) (t : McprPacketType) (ht : mcprGetPacketType id state = some t)
    (hl : packetLayout t = none) : decodeFields env state bytesRead1 t = fail [] (-1) := by
  cases state with
  | handshake =>
    cases ht
    contradiction
  | login =>
    simp only [mcprGetPacketType] at ht
    split at ht
    · cases ht
      contradiction
    · cases ht
      contradiction
    · contradiction
  | status =>
    simp only [mcprGetPacketType] at ht
    split at ht
    · cases ht
      contradiction
    · cases ht
      contradiction
    · contradiction
  | play =>
    cases t
    all_goals first
      | rfl
      | contradiction

end Packets

section Trap

variable {env : DecodeEnv} {mem : Mem} {s : Cursor DecodeObjects}

/-- The decoder ends where the walk does if that is where a length overflows. -/
def TrapsWith (m : Decoder ℤ) (layout : Layout) : Prop :=
  ∀ mem (s : Cursor DecodeObjects) w, (layout.walk mem s.off s.left w).1 = .error .trap →
    (m.run mem s).1 = .error .trap

/-- The string comes before the first allocation. -/
theorem string_traps {K : DecodedString → Decoder ℤ} {next : Layout} (h : next.StringFree) :
    TrapsWith (string env >>= K) (.string next) := by
  intro mem s w hw
  rw [Layout.walk_string] at hw
  rw [bind_congr_run (string_run env mem s) K]
  rcases hd : stringHead (shift mem s.off) s.left with err | _ | ⟨len, k⟩ <;> rw [hd] at hw
  · cases hw
  · rfl
  · exact absurd hw (next.walk_stringFree mem h _ _ _)

theorem decodeHandshake_traps : TrapsWith (decodeHandshake env) (.number (.string
    (.fixed mcprUshortSize 0 (.varint (fun n => n = 1 ∨ n = 2) 0 id fun _ _ => .done)))) := by
  intro mem s w hw
  simp only [Layout.number, Layout.walk.eq_2] at hw
  split at hw
  · simp at hw
  · rename_i v k hd
    have hv : (varint [.freeOut]).run mem s = (.ok (v, k), s) := by
      simp [varint, hd]
    rw [decodeHandshake, bind_ok hv]
    exact @string_traps env _ _ (by simp [Layout.StringFree]) mem _ _ hw

/-- Where the walk over the fields traps, so does the decoder. -/
theorem decodeFields_traps (state : McprState) (bytesRead1 : ℕ) (id : UInt8) (t : McprPacketType)
    (ht : mcprGetPacketType id state = some t) (layout : Layout)
    (hl : packetLayout t = some layout) :
    TrapsWith (decodeFields env state bytesRead1 t) layout := by
  have hfree (h : layout.StringFree) (m : Decoder ℤ) : TrapsWith m layout :=
    fun mem s w hw => absurd hw (layout.walk_stringFree mem h _ _ _)
  cases state with
  | handshake =>
    cases ht
    cases hl
    exact decodeHandshake_traps
  | login =>
    simp only [mcprGetPacketType] at ht
    split at ht
    · cases ht
      cases hl
      exact string_traps (by simp [Layout.StringFree])
    · cases ht
      cases hl
      exact hfree (by simp [Layout.StringFree]) _
    · contradiction
  | status =>
    simp only [mcprGetPacketType] at ht
    split at ht
    · cases ht
      cases hl
      exact hfree trivial _
    · cases ht
      cases hl
      exact hfree trivial _
    · contradiction
  | play =>
    have hplay := mcprGetPacketType_play id t ht
    cases t
    case plSbChatMessage => cases hl; exact string_traps (by simp [Layout.StringFree])
    case plSbClientSettings => cases hl; exact string_traps (by simp [Layout.StringFree])
    case plSbPluginMessage => cases hl; exact string_traps (by simp [Layout.StringFree])
    all_goals first
      | contradiction
      | exact absurd (by decide) hplay
      | (cases hl; exact hfree (by simp [Layout.StringFree, Layout.number]) _)

end Trap

section Frames
variable (env : DecodeEnv) (out : McprPacket) (mem : Mem) (state : McprState) (maxlen : UInt64)

/-- The type of the packet in a frame, and how many bytes its number takes. -/
def frameType : Option (McprPacketType × ℕ) :=
  match mcprDecodeVarint mem maxlen with
  | .error _ => none
  | .ok (id, k) =>
    (mcprGetPacketType (UInt8.ofBitVec (id.setWidth 8)) state).map fun t => (t, k)

/-- How many blocks the packet in a frame takes. -/
def frameMallocs : ℕ :=
  match frameType mem state maxlen with
  | some (t, _) => packetMallocs t
  | none => 0

/-- Every field of the frame is accepted, and every allocation that it takes succeeds. -/
def FrameAccepted : Prop :=
  (∃ n, (walkFrame mem state maxlen).1 = .ok n) ∧
    ∀ i < frameMallocs mem state maxlen, env.malloc i = true

variable {mem state maxlen}

/-- Where the fields of a packet start, once its type is known. -/
def fieldsStart (t : McprPacketType) (k : ℕ) (maxlen : UInt64) : Cursor DecodeObjects :=
  { off := k, left := maxlen-UInt64.ofNat k, wrapped := decide (maxlen.toNat < k)
    overread := false
    objects := { out := { out with id := t }, ninerr := none, mallocs := 0, heap := [] } }

theorem decodeRun_typed {t : McprPacketType} {k : ℕ} (h : frameType mem state maxlen = some (t, k)) :
    decodeRun env out mem state maxlen =
      (decodeFields env state k t).run mem (fieldsStart out t k maxlen) := by
  simp only [frameType] at h
  split at h
  · contradiction
  · rename_i id j hd
    simp only [Option.map_eq_some_iff, Prod.mk.injEq] at h
    obtain ⟨t', ht, rfl, rfl⟩ := h
    simp [decodeRun, decodeBody, varint, hd, ht, orElse, setOut, fieldsStart]

/-- Where no type is found nothing was allocated yet, nothing is released, and the packet is as
it was. -/
theorem decodeRun_untyped (h : frameType mem state maxlen = none) :
    ∃ o, decodeRun env out mem state maxlen = (.error (.ret (-1)), o) ∧ o.objects.heap = [] ∧
      o.objects.out = out := by
  simp only [frameType] at h
  split at h
  · rename_i message hd
    simp [decodeRun, decodeBody, varint, hd, failWith, fail, release, ninerrSetErr]
  · rename_i id k hd
    simp only [Option.map_eq_none_iff] at h
    simp [decodeRun, decodeBody, varint, hd, h, orElse, failWith, fail, release, ninerrSetErr]

theorem frameLayout_eq : frameLayout mem state maxlen =
    (frameType mem state maxlen).bind fun (t, k) => (packetLayout t).map fun layout => (k, layout) := by
  simp only [frameLayout, frameType]
  rcases mcprDecodeVarint mem maxlen with message | ⟨id, k⟩
  · rfl
  · dsimp only
    rcases mcprGetPacketType (UInt8.ofBitVec (id.setWidth 8)) state with _ | t <;> rfl

theorem frameType_spec {t : McprPacketType} {k : ℕ} (h : frameType mem state maxlen = some (t, k)) :
    ∃ id, mcprGetPacketType id state = some t := by
  simp only [frameType] at h
  split at h
  · contradiction
  · simp only [Option.map_eq_some_iff, Prod.mk.injEq] at h
    obtain ⟨t', ht, rfl, -⟩ := h
    exact ⟨_, ht⟩

/-- Without a layout for the packet the heap is left alone, and the frame refused. -/
theorem decodeRun_unknown (h : frameLayout mem state maxlen = none) :
    ∃ o, decodeRun env out mem state maxlen = (.error (.ret (-1)), o) ∧ o.objects.heap = [] := by
  rw [frameLayout_eq, Option.bind_eq_none_iff] at h
  rcases hf : frameType mem state maxlen with _ | ⟨t, k⟩
  · obtain ⟨o, hr, hheap, -⟩ := decodeRun_untyped env out hf
    exact ⟨o, hr, hheap⟩
  · have hl : packetLayout t = none := Option.map_eq_none_iff.mp (h (t, k) hf)
    obtain ⟨id, ht⟩ := frameType_spec hf
    rw [decodeRun_typed env out hf, decodeFields_unimplemented env state k id t ht hl]
    exact ⟨_, rfl, rfl⟩

/-- What a run leaves behind on the heap once the packet has a layout. -/
theorem decodeRun_ledger (h : frameLayout mem state maxlen ≠ none) :
    match decodeRun env out mem state maxlen with
    | (.ok _, o) => (∀ i < frameMallocs mem state maxlen, env.malloc i = true) ∧
        o.objects.heap = allocations 0 (frameMallocs mem state maxlen)
    | (.error .trap, o) => ∃ k, o.objects.heap = allocations 0 k
    | (.error (.ret _), o) => o.objects.mallocs ≤ frameMallocs mem state maxlen ∧
        HeapEvent.freeOut ∈ o.objects.heap := by
  rw [frameLayout_eq] at h
  rcases hf : frameType mem state maxlen with _ | ⟨t, k⟩
  · simp [hf] at h
  · have hl : packetLayout t ≠ none := by
      intro hn
      simp [hf, hn] at h
    obtain ⟨id, ht⟩ := frameType_spec hf
    have hm : frameMallocs mem state maxlen = packetMallocs t := by
      simp only [frameMallocs, hf]
    have hfields : Ledger env (packetMallocs t) (decodeFields env state k t) :=
      decodeFields_ledger state k id t ht hl
    have hledger := hfields mem (fieldsStart out t k maxlen)
    rw [decodeRun_typed env out hf, hm]
    have hheap : (fieldsStart out t k maxlen).objects.heap = [] := rfl
    have hnone : (fieldsStart out t k maxlen).objects.mallocs = 0 := rfl
    rw [hheap, hnone] at hledger
    rcases hr : (decodeFields env state k t).run mem (fieldsStart out t k maxlen) with
      ⟨(_ | _) | n, o⟩ <;> rw [hr] at hledger <;>
      simp only [Nat.zero_add, List.nil_append] at hledger ⊢
    · exact hledger
    · exact hledger
    · exact ⟨fun i hi => hledger.2.1 i (Nat.zero_le i) hi, hledger.2.2⟩

/-- The decoder gets to its end if and only if the fields are accepted and there is memory for
them. -/
theorem decodeRun_ok_iff : (∃ n, (decodeRun env out mem state maxlen).1 = .ok n) ↔
    FrameAccepted env mem state maxlen := by
  have hagrees := (decodeRun_agrees env out mem state maxlen).outcome
  by_cases hf : frameLayout mem state maxlen = none
  · obtain ⟨o, hr, -⟩ := decodeRun_unknown env out hf
    refine iff_of_false (by simp [hr]) fun h => ?_
    obtain ⟨n, hn⟩ := h.1
    simp [walkFrame, hf] at hn
  · have hledger := decodeRun_ledger env out hf
    constructor
    · rintro ⟨n, hn⟩
      rcases hagrees with ⟨-, hr⟩ | ⟨hr, -⟩
      · rw [hn] at hr
        contradiction
      · rcases hw : (walkFrame mem state maxlen).1 with e | k
        · rw [hn, hw] at hr
          contradiction
        · refine ⟨⟨k, hw⟩, ?_⟩
          rcases hrun : decodeRun env out mem state maxlen with ⟨r, o⟩
          rw [hrun] at hledger hn
          subst hn
          exact hledger.1
    · rintro ⟨⟨k, hk⟩, hmem⟩
      rcases hagrees with ⟨⟨i, hlt, hi⟩, hr⟩ | ⟨hr, -⟩
      · -- every allocation that was asked for succeeded
        rcases hrun : decodeRun env out mem state maxlen with ⟨r, o⟩
        rw [hrun] at hledger hlt hr
        subst hr
        have hi' : i < frameMallocs mem state maxlen := lt_of_lt_of_le hlt hledger.1
        rw [hmem i hi'] at hi
        contradiction
      · exact ⟨k, by rw [hr, hk]; rfl⟩

/-- Whether a length overflows is not a matter of memory. -/
theorem decodeRun_trap_iff : (decodeRun env out mem state maxlen).1 = .error .trap ↔
    (walkFrame mem state maxlen).1 = .error .trap := by
  constructor
  · intro h
    rcases (decodeRun_agrees env out mem state maxlen).outcome with ⟨-, hr⟩ | ⟨hr, -⟩
    · rw [h] at hr
      simp at hr
    · rw [h] at hr
      rcases hw : (walkFrame mem state maxlen).1 with e | k <;> rw [hw] at hr
      · simpa [Except.map] using hr.symm
      · simp [Except.map] at hr
  · intro h
    rcases hf : frameType mem state maxlen with _ | ⟨t, k⟩
    · simp [walkFrame, frameLayout_eq, hf] at h
    · rcases hl : packetLayout t with _ | layout
      · simp [walkFrame, frameLayout_eq, hf, hl] at h
      · obtain ⟨id, ht⟩ := frameType_spec hf
        simp only [walkFrame, frameLayout_eq, hf, Option.bind_some, hl, Option.map_some] at h
        rw [decodeRun_typed env out hf]
        exact decodeFields_traps state k id t ht layout hl mem _ _ h

end Frames

/-- The heap of a call keeps to the rules: what is released was allocated before by the same
call, once; nothing is used after its release; the packet of the caller is not released; and
a call that fails has released all that it allocated. -/
structure HeapClean (failed : Prop) (heap : List HeapEvent) : Prop where
  owned : ∀ i k, heap[i]? = some (.free k) → HeapEvent.alloc k ∈ heap.take i
  once : ∀ i k, heap[i]? = some (.free k) → HeapEvent.free k ∉ heap.take i
  used : ∀ i, heap[i]? = some .readOut → HeapEvent.freeOut ∉ heap.take i
  caller : HeapEvent.freeOut ∉ heap
  released : failed → ∀ k, HeapEvent.alloc k ∈ heap → HeapEvent.free k ∈ heap

theorem allocations_clean (k n : ℕ) {failed : Prop} (h : ¬ failed) :
    HeapClean failed (allocations k n) := by
  have hmem (e : HeapEvent) (he : e ∈ allocations k n) : ∃ i, e = .alloc i := by
    obtain ⟨i, -, rfl⟩ := List.mem_map.mp he
    exact ⟨i, rfl⟩
  have hat (i : ℕ) (e : HeapEvent) (he : (allocations k n)[i]? = some e) : ∃ j, e = .alloc j :=
    hmem e (List.mem_of_getElem? he)
  refine ⟨fun i j hi => ?_, fun i j hi => ?_, fun i hi => ?_, fun he => ?_, fun hf => absurd hf h⟩
  · obtain ⟨_, hj⟩ := hat i _ hi
    contradiction
  · obtain ⟨_, hj⟩ := hat i _ hi
    contradiction
  · obtain ⟨_, hj⟩ := hat i _ hi
    contradiction
  · obtain ⟨_, hj⟩ := hmem _ he
    contradiction

/-- A call that decodes keeps to the rules of the heap. -/
def DecodesClean (env : DecodeEnv) (out : McprPacket) (mem : Mem) (state : McprState)
    (maxlen : UInt64) : Prop :=
  HeapClean (∃ n, (decodeRun env out mem state maxlen).1 = .error (.ret n))
    (decodeRun env out mem state maxlen).2.objects.heap

/-- The rules are kept if and only if the type of the packet is not found or not implemented,
a length overflows, or every field is accepted and every allocation succeeds. -/
theorem mcprDecodePacket_clean_iff (env : DecodeEnv) (out : McprPacket) (mem : Mem)
    (state : McprState) (maxlen : UInt64) :
    DecodesClean env out mem state maxlen ↔
      frameLayout mem state maxlen = none ∨ (walkFrame mem state maxlen).1 = .error .trap ∨
        FrameAccepted env mem state maxlen := by
  rw [← decodeRun_ok_iff env out, ← decodeRun_trap_iff env out]
  by_cases hf : frameLayout mem state maxlen = none
  · obtain ⟨o, hr, hheap⟩ := decodeRun_unknown env out hf
    refine iff_of_true ?_ (.inl hf)
    simp only [DecodesClean, hr, hheap]
    exact ⟨by simp, by simp, by simp, by simp, by simp⟩
  · have hledger := decodeRun_ledger env out hf
    simp only [DecodesClean, hf, false_or]
    rcases hr : decodeRun env out mem state maxlen with ⟨(n | _) | n, o⟩ <;> rw [hr] at hledger
    · -- given up: the packet was released
      refine iff_of_false (fun h => h.caller hledger.2) ?_
      simp
    · obtain ⟨k, hk⟩ := hledger
      rw [hk]
      exact iff_of_true (allocations_clean 0 k (by simp)) (.inl rfl)
    · rw [hledger.2]
      exact iff_of_true (allocations_clean 0 _ (by simp)) (.inr ⟨n, rfl⟩)

/-- A Login Start of a name with a negative length: the packet of the caller is released. -/
theorem login_start_releases_caller : ∃ env out, ¬ DecodesClean env out
    (ofList [0x00, 0xFF, 0xFF, 0xFF, 0xFF, 0x0F]) .login 6 := by
  refine ⟨spare .little, default, fun h => h.caller ?_⟩
  decide

end Stronk.Mcpr
