import Stronk.DecodeConfined

/-! Where the fields of a decoded packet come from. The packet is the caller's, and holds an
earlier one: a field that the decoder leaves out keeps the value it had. -/
namespace Stronk.Mcpr
open ByteMemory BoundedReader

/-- Two packets agree in every field that is declared for a serverbound type. -/
def SameFields (t : McprPacketType) (a b : McprPacketData) : Prop :=
  match t with
  | .hsSbHandshake => a.handshake = b.handshake
  | .stSbPing => a.ping = b.ping
  | .lgSbLoginStart => a.loginServerbound.loginStart = b.loginServerbound.loginStart
  | .lgSbEncryptionResponse =>
    a.loginServerbound.encryptionResponse = b.loginServerbound.encryptionResponse
  | .plSbChatMessage => a.playServerbound.chatMessage = b.playServerbound.chatMessage
  | .plSbClientSettings => a.playServerbound.clientSettings = b.playServerbound.clientSettings
  | .plSbPluginMessage => a.playServerbound.pluginMessage = b.playServerbound.pluginMessage
  | .plSbKeepAlive => a.playServerbound.keepAlive = b.playServerbound.keepAlive
  | .plSbPlayerPosition => a.playServerbound.playerPosition = b.playServerbound.playerPosition
  | .plSbPlayerPositionAndLook =>
    a.playServerbound.playerPositionAndLook = b.playServerbound.playerPositionAndLook
  | .plSbTeleportConfirm => a.playServerbound.teleportConfirm = b.playServerbound.teleportConfirm
  | .plSbPlayerLook => a.playServerbound.playerLook = b.playServerbound.playerLook
  | .plSbHeldItemChange => a.playServerbound.heldItemChange = b.playServerbound.heldItemChange
  | _ => True

/-- A byte that `mcpr_decode_bool` takes for a value. -/
def IsBool (b : UInt8) : Prop := b = 0x00 ∨ b = 0x01

instance (b : UInt8) : Decidable (IsBool b) := inferInstanceAs (Decidable (_ ∨ _))

/-- Where the flag of client settings is that start at `off`: behind the locale, the view
distance and the chat mode. -/
def chatColorsOffset (mem : Mem) (off : ℕ) (left : UInt64) : ℕ :=
  match mcprDecodeVarint (shift mem off) left with
  | .error _ => off
  | .ok (len, k) =>
    match mcprDecodeVarint (shift mem (off+(k+len.toNat)+mcprByteSize))
      (left-UInt64.ofNat (k+len.toNat)-UInt64.ofNat mcprByteSize) with
    | .error _ => off
    | .ok (_, k') => off+(k+len.toNat)+mcprByteSize+k'

/-- Every field of a packet whose fields start at `off` gets its value from there. The length
of a plugin message and the flag of a player position never do. -/
def fieldsFresh (mem : Mem) (off : ℕ) (left : UInt64) : McprPacketType → Prop
  | .plSbPluginMessage => False
  | .plSbPlayerPosition => False
  | .plSbClientSettings => IsBool (mem (chatColorsOffset mem off left))
  | .plSbPlayerPositionAndLook => IsBool (mem (off+8+8+8+4+4))
  | .plSbPlayerLook => IsBool (mem (off+4+4))
  | _ => True

def frameFresh (mem : Mem) (state : McprState) (maxlen : UInt64) : Prop :=
  match mcprDecodeVarint mem maxlen with
  | .error _ => True
  | .ok (id, k) =>
    match mcprGetPacketType (UInt8.ofBitVec (id.setWidth 8)) state with
    | none => True
    | some t => fieldsFresh mem k (maxlen-UInt64.ofNat k) t

/-- The same cursor with another packet to fill. -/
def withPacket (s : Cursor DecodeObjects) (out : McprPacket) : Cursor DecodeObjects :=
  { s with objects := { s.objects with out := out } }

/-- Whatever packet a decoder is given to fill, it comes to the same end. What it makes of the
packet is one function, which satisfies `P` unless the decoder gives up. -/
def Fills (mem : Mem) (s : Cursor DecodeObjects) (m : Decoder ℤ)
    (P : (McprPacket → McprPacket) → Prop) : Prop :=
  ∃ r s' f, (∀ out, m.run mem (withPacket s out) = (r, withPacket s' (f out))) ∧
    ((∃ n, r = .ok n) → P f)

/-- A failure exit, whatever the packet. -/
def Stops {α : Type} (m : Decoder α) : Prop :=
  ∀ mem s, ∃ e s', ∀ out, m.run mem (withPacket s out) = (.error e, withPacket s' out)

section Rules
variable {mem : Mem} {s : Cursor DecodeObjects} {env : DecodeEnv} {α : Type}
variable {P : (McprPacket → McprPacket) → Prop}

theorem Fills.mono {Q : (McprPacket → McprPacket) → Prop} {m : Decoder ℤ} (h : Fills mem s m P)
    (hpq : ∀ f, P f → Q f) : Fills mem s m Q := by
  obtain ⟨r, s', f, hr, hp⟩ := h
  exact ⟨r, s', f, hr, fun hok => hpq f (hp hok)⟩

theorem Fills.goes {m : Decoder α} {K : α → Decoder ℤ} {a : α} {s' : Cursor DecodeObjects}
    (hm : ∀ out, m.run mem (withPacket s out) = (.ok a, withPacket s' out))
    (h : Fills mem s' (K a) P) : Fills mem s (m >>= K) P := by
  obtain ⟨r, t, f, hr, hp⟩ := h
  refine ⟨r, t, f, fun out => ?_, hp⟩
  rw [bind_ok (hm out), hr]

theorem Fills.ends {m : Decoder α} {K : α → Decoder ℤ} {e : DecodeExit}
    {s' : Cursor DecodeObjects}
    (hm : ∀ out, m.run mem (withPacket s out) = (.error e, withPacket s' out)) :
    Fills mem s (m >>= K) P := by
  refine ⟨.error e, s', id, fun out => bind_error (hm out), ?_⟩
  rintro ⟨n, hn⟩
  cases hn

theorem failWith_stops (err : Ninerr) (events : List HeapEvent) (n : ℤ) :
    Stops (failWith err events n : Decoder α) :=
  fun _ s => ⟨.ret n, { s with objects := { s.objects with
    ninerr := some err, heap := s.objects.heap ++ events } }, fun _ => rfl⟩

theorem Fills.stopped {m : Decoder α} {K : α → Decoder ℤ} (h : Stops m) :
    Fills mem s (m >>= K) P := by
  obtain ⟨e, s', hm⟩ := h mem s
  exact Fills.ends hm

theorem Fills.setOut {K : Unit → Decoder ℤ} (g : McprPacket → McprPacket)
    (h : Fills mem s (K ()) fun f => P (f ∘ g)) : Fills mem s (setOut g >>= K) P := by
  obtain ⟨r, t, f, hr, hp⟩ := h
  exact ⟨r, t, f ∘ g, fun out => hr (g out), hp⟩

theorem Fills.skip {K : Unit → Decoder ℤ} {n : ℕ}
    (h : Fills mem { s with off := s.off+n, left := s.left-UInt64.ofNat n
                            wrapped := s.wrapped || decide (s.left.toNat < n) } (K ()) P) :
    Fills mem s (skip n >>= K) P := Fills.goes (fun _ => rfl) h

theorem Fills.load {K : α → Decoder ℤ} {n : ℕ} {g : Mem → α}
    (h : Fills mem { s with overread := s.overread || decide (s.left.toNat < n) }
      (K (g (shift mem s.off))) P) : Fills mem s (load n g >>= K) P :=
  Fills.goes (fun _ => rfl) h

theorem Fills.left {K : UInt64 → Decoder ℤ} (h : Fills mem s (K s.left) P) :
    Fills mem s (left >>= K) P := Fills.goes (fun _ => rfl) h

theorem Fills.offset {K : ℕ → Decoder ℤ} (h : Fills mem s (K s.off) P) :
    Fills mem s (offset >>= K) P := Fills.goes (fun _ => rfl) h

theorem Fills.return {v : ℤ} (h : P id) : Fills mem s (pure v) P :=
  ⟨.ok v, s, id, fun _ => rfl, fun _ => h⟩

theorem Fills.varint {events : List HeapEvent} {K : BitVec 32 × ℕ → Decoder ℤ}
    (h : ∀ v k, mcprDecodeVarint (shift mem s.off) s.left = .ok (v, k) →
      Fills mem s (K (v, k)) P) : Fills mem s (varint events >>= K) P := by
  rcases hd : mcprDecodeVarint (shift mem s.off) s.left with message | ⟨v, k⟩
  · have hstop (out : McprPacket) : (Mcpr.varint events).run mem (withPacket s out) =
        (.error (.ret (-1)), withPacket { s with objects := { s.objects with
          ninerr := some (.new message), heap := s.objects.heap ++ events } } out) := by
      simp [Mcpr.varint, withPacket, hd, failWith, fail, release, ninerrSetErr]
    exact Fills.ends hstop
  · have hvalue (out : McprPacket) : (Mcpr.varint events).run mem (withPacket s out) =
        (.ok (v, k), withPacket s out) := by
      simp [Mcpr.varint, withPacket, hd]
    exact Fills.goes hvalue (h v k hd)

theorem Fills.refuse {c : Prop} [Decidable c] {failure : Decoder Unit} {K : Unit → Decoder ℤ}
    (hf : Stops failure) (h : Fills mem s (K ()) P) :
    Fills mem s (refuse c failure >>= K) P := by
  by_cases hc : c
  · simp only [Mcpr.refuse, hc, ↓reduceIte]
    exact Fills.stopped hf
  · simp only [Mcpr.refuse, hc, ↓reduceIte]
    exact Fills.goes (fun _ => rfl) h

theorem Fills.orElse {o : Option α} {failure : Decoder α} {K : α → Decoder ℤ}
    (hf : Stops failure) (h : ∀ a, o = some a → Fills mem s (K a) P) :
    Fills mem s (orElse o failure >>= K) P := by
  rcases o with _ | a
  · exact Fills.stopped hf
  · exact Fills.goes (fun _ => rfl) (h a rfl)

theorem Fills.field {n : ℕ} {exceeded : Decoder Unit} {decode : Mem → α} {K : α → Decoder ℤ}
    (hf : Stops exceeded)
    (h : Fills mem { s with overread := s.overread || decide (s.left.toNat < n) }
      (K (decode (shift mem s.off))) P) : Fills mem s (field n exceeded decode >>= K) P := by
  by_cases hn : s.left.toNat < n
  · obtain ⟨e, s', he⟩ := hf mem s
    have hstop (out : McprPacket) : (Mcpr.field n exceeded decode).run mem (withPacket s out) =
        (.error e, withPacket s' out) := by
      apply bind_error
      have hr := he out
      simpa [require, Mcpr.refuse, withPacket, hn] using hr
    exact Fills.ends hstop
  · apply Fills.goes _ h
    intro out
    simp [Mcpr.field, require, Mcpr.refuse, withPacket, hn]

/-- An allocation leaves nothing but the objects of the decoder changed. -/
theorem malloc_fills (mem : Mem) (env : DecodeEnv) (size : ℕ) (s : Cursor DecodeObjects) :
    ∃ a o, ∀ out, (malloc env size).run mem (withPacket s out) =
      (.ok a, withPacket { s with objects := o } out) := by
  by_cases hc : size ≤ ptrdiffMax ∧ env.malloc s.objects.mallocs = true
  · exact ⟨_, { s.objects with
      mallocs := s.objects.mallocs+1, heap := s.objects.heap ++ [.alloc s.objects.mallocs] },
      fun out => by simp [malloc, withPacket, hc]; rfl⟩
  · refine ⟨none, { s.objects with mallocs := s.objects.mallocs+1 }, fun out => ?_⟩
    have hc' : ¬ (size ≤ ptrdiffMax ∧ env.malloc (withPacket s out).objects.mallocs = true) := hc
    simp only [malloc, bind_run, objects_run, hc', ↓reduceIte]
    rfl

theorem Fills.mallocOr {size : ℕ} {events : List HeapEvent} {K : ℕ → Decoder ℤ}
    (h : ∀ b o, Fills mem { s with objects := o } (K b) P) :
    Fills mem s (mallocOr env size events >>= K) P := by
  obtain ⟨a, o, ha⟩ := malloc_fills mem env size s
  rcases a with _ | b
  · have hstop (out : McprPacket) : (Mcpr.mallocOr env size events).run mem (withPacket s out) =
        (.error (.ret (-1)), withPacket { s with objects := { o with
          ninerr := some .fromErrno, heap := o.heap ++ events } } out) := by
      rw [Mcpr.mallocOr, bind_ok (ha out)]
      rfl
    exact Fills.ends hstop
  · apply Fills.goes _ (h b o)
    intro out
    rw [Mcpr.mallocOr, bind_ok (ha out)]
    rfl

/-- The length prefix of a string says where the decoder goes on. -/
theorem Fills.string {K : DecodedString → Decoder ℤ}
    (h : ∀ d len k overread o, mcprDecodeVarint (shift mem s.off) s.left = .ok (len, k) →
      d.bytesRead = k+len.toNat →
      Fills mem { s with overread := overread, objects := o } (K d) P) :
    Fills mem s (string env >>= K) P := by
  have hrun (out : McprPacket) : (Mcpr.string env).run mem (withPacket s out) =
      (stringRest env (stringHead (shift mem s.off) s.left)).run mem (withPacket s out) :=
    string_run env mem (withPacket s out)
  have hrest : Fills mem s (stringRest env (stringHead (shift mem s.off) s.left) >>= K) P := by
    rcases hd : stringHead (shift mem s.off) s.left with err | _ | ⟨n, k⟩
    · exact Fills.stopped (failWith_stops err [.freeOut] (-1))
    · exact Fills.ends (fun out => rfl)
    · obtain ⟨len, hlen, rfl⟩ := stringHead_content hd
      simp only [stringRest, bind_bind]
      apply Fills.mallocOr
      intro block o
      apply Fills.load
      exact h ⟨_, k+len.toNat, block⟩ len k _ o hlen rfl
  obtain ⟨r, t, f, hr, hp⟩ := hrest
  refine ⟨r, t, f, fun out => ?_, hp⟩
  rw [bind_congr_run (hrun out) K, hr]

end Rules

section Packets
variable {mem : Mem} {s : Cursor DecodeObjects} {env : DecodeEnv}

theorem exceeded_stops : Stops exceeded := failWith_stops _ _ _

/-- `f` writes the fields of a packet, and looks at none of the rest. -/
def WritesData (f : McprPacket → McprPacket) : Prop :=
  ∀ p id, f { p with id := id } = { f p with id := id } ∧ (f p).state = p.state

/-- `f` gives a packet of type `t` the same fields whatever it held, provided that `fresh`. -/
structure Determines (t : McprPacketType) (fresh : Prop) (f : McprPacket → McprPacket) : Prop where
  data : WritesData f
  fields : (∀ p q, SameFields t (f p).data (f q).data) ↔ fresh

theorem Determines.always {t : McprPacketType} {f : McprPacket → McprPacket}
    (hd : WritesData f)
    (h : ∀ p q, SameFields t (f p).data (f q).data) : Determines t True f :=
  ⟨hd, iff_of_true h trivial⟩

theorem mcprDecodeBool_fresh_iff (m : Mem) :
    (∀ x y, mcprDecodeBool x m = mcprDecodeBool y m) ↔ IsBool (m 0) := by
  constructor
  · intro h
    by_contra hn
    simp only [IsBool, not_or] at hn
    have := h true false
    simp [mcprDecodeBool, hn] at this
  · rintro (h | h) x y <;> simp [mcprDecodeBool, h]

/-- A packet whose last doubt is one flag. -/
theorem Determines.flag {t : McprPacketType} {f : McprPacket → McprPacket} {m : Mem}
    (hd : WritesData f)
    (old : McprPacket → Bool) (hold : ∀ b, ∃ p, old p = b)
    (h : ∀ p q, SameFields t (f p).data (f q).data ↔
      mcprDecodeBool (old p) m = mcprDecodeBool (old q) m) : Determines t (IsBool (m 0)) f := by
  refine ⟨hd, ?_⟩
  rw [← mcprDecodeBool_fresh_iff m]
  constructor
  · intro hf x y
    obtain ⟨p, rfl⟩ := hold x
    obtain ⟨q, rfl⟩ := hold y
    exact (h p q).mp (hf p q)
  · intro hb p q
    exact (h p q).mpr (hb _ _)

/-- A decoded Handshake asks for STATUS or LOGIN. -/
theorem decodeHandshake_fills : Fills mem s (decodeHandshake env) fun f =>
    Determines .hsSbHandshake True f ∧ ∀ p, (f p).data.handshake.nextState = .status ∨
      (f p).data.handshake.nextState = .login := by
  apply Fills.varint
  intro protocolVersion k _
  apply Fills.setOut
  apply Fills.skip
  apply Fills.string
  intro serverAddress _ _ _ _ _ _
  apply Fills.setOut
  apply Fills.skip
  apply Fills.field (failWith_stops _ _ _)
  apply Fills.setOut
  apply Fills.skip
  apply Fills.varint
  intro nextState k' _
  apply Fills.orElse (failWith_stops _ _ _)
  intro state hstate
  apply Fills.setOut
  apply Fills.offset
  refine Fills.return ⟨Determines.always (fun _ _ => ⟨rfl, rfl⟩) fun _ _ => rfl, fun _ => ?_⟩
  show state = .status ∨ state = .login
  split_ifs at hstate
  · exact .inl (Option.some.inj hstate).symm
  · exact .inr (Option.some.inj hstate).symm

theorem decodeLoginStart_fills (bytesRead1 : ℕ) :
    Fills mem s (decodeLoginStart env bytesRead1) (Determines .lgSbLoginStart True) := by
  apply Fills.string
  intro name _ _ _ _ _ _
  apply Fills.setOut
  exact Fills.return (Determines.always (fun _ _ => ⟨rfl, rfl⟩) fun _ _ => rfl)

theorem decodeEncryptionResponse_fills : Fills mem s (decodeEncryptionResponse env)
    (Determines .lgSbEncryptionResponse True) := by
  apply Fills.varint
  intro sharedSecretLength k _
  apply Fills.refuse (failWith_stops _ _ _)
  apply Fills.setOut
  apply Fills.skip
  apply Fills.mallocOr
  intro _ _
  apply Fills.load
  apply Fills.setOut
  apply Fills.skip
  apply Fills.varint
  intro verifyTokenLength k' _
  apply Fills.refuse (failWith_stops _ _ _)
  apply Fills.setOut
  apply Fills.skip
  apply Fills.mallocOr
  intro _ _
  apply Fills.load
  apply Fills.setOut
  apply Fills.skip
  apply Fills.offset
  exact Fills.return (Determines.always (fun _ _ => ⟨rfl, rfl⟩) fun _ _ => rfl)

theorem decodePing_fills (bytesRead1 : ℕ) :
    Fills mem s (decodePing env bytesRead1) (Determines .stSbPing True) := by
  apply Fills.field exceeded_stops
  apply Fills.setOut
  exact Fills.return (Determines.always (fun _ _ => ⟨rfl, rfl⟩) fun _ _ => rfl)

theorem decodeChatMessage_fills :
    Fills mem s (decodeChatMessage env) (Determines .plSbChatMessage True) := by
  apply Fills.string
  intro message _ _ _ _ _ _
  apply Fills.setOut
  apply Fills.skip
  apply Fills.offset
  exact Fills.return (Determines.always (fun _ _ => ⟨rfl, rfl⟩) fun _ _ => rfl)

theorem decodeClientSettings_fills : Fills mem s (decodeClientSettings env)
    (Determines .plSbClientSettings (IsBool (mem (chatColorsOffset mem s.off s.left)))) := by
  apply Fills.string
  intro locale len k overread o hlen hread
  apply Fills.setOut
  apply Fills.skip
  apply Fills.field (failWith_stops _ _ _)
  apply Fills.setOut
  apply Fills.skip
  apply Fills.varint
  intro chatModeInt k' hmode
  apply Fills.orElse (failWith_stops _ _ _)
  intro chatMode _
  apply Fills.setOut
  apply Fills.skip
  apply Fills.field (failWith_stops _ _ _)
  apply Fills.setOut
  apply Fills.skip
  apply Fills.field (failWith_stops _ _ _)
  apply Fills.setOut
  apply Fills.skip
  apply Fills.varint
  intro mainHandInt _ _
  apply Fills.orElse (failWith_stops _ _ _)
  intro mainHand _
  apply Fills.setOut
  apply Fills.skip
  apply Fills.offset
  apply Fills.return
  have hoff : chatColorsOffset mem s.off s.left = s.off+locale.bytesRead+mcprByteSize+k' := by
    rw [hread] at hmode
    simp only [chatColorsOffset, hlen, hmode, hread]
  rw [hoff]
  refine Determines.flag (m := shift mem (s.off+locale.bytesRead+mcprByteSize+k'))
    (fun _ _ => ⟨rfl, rfl⟩) (fun p => p.data.playServerbound.clientSettings.chatColors) (fun b => ?_) fun p q => ?_
  · exact ⟨{ (default : McprPacket) with data.playServerbound.clientSettings.chatColors := b }, rfl⟩
  · exact ⟨congrArg ClientSettings.chatColors, congrArg (ClientSettings.mk _ _ _ · _ _)⟩

/-- The length of the message stays what it was. -/
theorem decodePluginMessage_fills : Fills mem s (decodePluginMessage env)
    (Determines .plSbPluginMessage False) := by
  apply Fills.string
  intro channel _ _ _ _ _ _
  apply Fills.setOut
  apply Fills.skip
  apply Fills.left
  apply Fills.mallocOr
  intro _ _
  apply Fills.load
  apply Fills.setOut
  apply Fills.offset
  apply Fills.return
  refine ⟨fun _ _ => ⟨rfl, rfl⟩, fun h => ?_, False.elim⟩
  have hlen : (0 : UInt64) = 1 := congrArg PluginMessage.dataLength (h default
    { (default : McprPacket) with data.playServerbound.pluginMessage.dataLength := 1 })
  exact absurd hlen (by decide)

theorem decodeKeepAlive_fills : Fills mem s decodeKeepAlive (Determines .plSbKeepAlive True) := by
  apply Fills.varint
  intro keepAliveId k _
  apply Fills.setOut
  apply Fills.offset
  exact Fills.return (Determines.always (fun _ _ => ⟨rfl, rfl⟩) fun _ _ => rfl)

theorem decodeTeleportConfirm_fills :
    Fills mem s decodeTeleportConfirm (Determines .plSbTeleportConfirm True) := by
  apply Fills.varint
  intro teleportId k _
  apply Fills.setOut
  apply Fills.offset
  exact Fills.return (Determines.always (fun _ _ => ⟨rfl, rfl⟩) fun _ _ => rfl)

/-- The flag stays what it was. -/
theorem decodePlayerPosition_fills : Fills mem s (decodePlayerPosition env)
    (Determines .plSbPlayerPosition False) := by
  apply Fills.field exceeded_stops
  apply Fills.setOut
  apply Fills.skip
  apply Fills.field exceeded_stops
  apply Fills.setOut
  apply Fills.skip
  apply Fills.field exceeded_stops
  apply Fills.setOut
  apply Fills.skip
  apply Fills.field exceeded_stops
  apply Fills.setOut
  apply Fills.offset
  apply Fills.return
  refine ⟨fun _ _ => ⟨rfl, rfl⟩, fun h => ?_, False.elim⟩
  have hflag : false = true := congrArg PlayerPosition.onGround (h default
    { (default : McprPacket) with data.playServerbound.playerPosition.onGround := true })
  exact absurd hflag (by decide)

theorem decodePlayerPositionAndLook_fills : Fills mem s (decodePlayerPositionAndLook env)
    (Determines .plSbPlayerPositionAndLook (IsBool (mem (s.off+8+8+8+4+4)))) := by
  apply Fills.field exceeded_stops
  apply Fills.setOut
  apply Fills.skip
  apply Fills.field exceeded_stops
  apply Fills.setOut
  apply Fills.skip
  apply Fills.field exceeded_stops
  apply Fills.setOut
  apply Fills.skip
  apply Fills.field exceeded_stops
  apply Fills.setOut
  apply Fills.skip
  apply Fills.field exceeded_stops
  apply Fills.setOut
  apply Fills.skip
  apply Fills.field exceeded_stops
  apply Fills.setOut
  apply Fills.offset
  apply Fills.return
  refine Determines.flag (m := shift mem (s.off+8+8+8+4+4))
    (fun _ _ => ⟨rfl, rfl⟩) (fun p => p.data.playServerbound.playerPositionAndLook.onGround) (fun b => ?_) fun p q => ?_
  · exact ⟨{ (default : McprPacket) with
      data.playServerbound.playerPositionAndLook.onGround := b }, rfl⟩
  · exact ⟨congrArg ServerboundPlayerPositionAndLook.onGround,
      congrArg (ServerboundPlayerPositionAndLook.mk _ _ _ _ _ ·)⟩

theorem decodePlayerLook_fills : Fills mem s (decodePlayerLook env)
    (Determines .plSbPlayerLook (IsBool (mem (s.off+4+4)))) := by
  apply Fills.field exceeded_stops
  apply Fills.setOut
  apply Fills.skip
  apply Fills.field exceeded_stops
  apply Fills.setOut
  apply Fills.skip
  apply Fills.field exceeded_stops
  apply Fills.setOut
  apply Fills.offset
  apply Fills.return
  refine Determines.flag (m := shift mem (s.off+4+4))
    (fun _ _ => ⟨rfl, rfl⟩) (fun p => p.data.playServerbound.playerLook.onGround) (fun b => ?_) fun p q => ?_
  · exact ⟨{ (default : McprPacket) with data.playServerbound.playerLook.onGround := b }, rfl⟩
  · exact ⟨congrArg PlayerLook.onGround, congrArg (PlayerLook.mk _ _ ·)⟩

theorem decodeHeldItemChange_fills : Fills mem s (decodeHeldItemChange env)
    (Determines .plSbHeldItemChange True) := by
  apply Fills.field exceeded_stops
  apply Fills.setOut
  apply Fills.skip
  apply Fills.offset
  exact Fills.return (Determines.always (fun _ _ => ⟨rfl, rfl⟩) fun _ _ => rfl)

theorem Fills.none (events : List HeapEvent) (n : ℤ) {P : (McprPacket → McprPacket) → Prop} :
    Fills mem s (fail events n) P := by
  refine ⟨.error (.ret n), { s with objects := { s.objects with
    heap := s.objects.heap ++ events } }, id, fun _ => rfl, ?_⟩
  rintro ⟨m, hm⟩
  cases hm

/-- Whatever the packet held, the fields of a decoded type are those of the frame as far as
they are written. -/
theorem decodeFields_fills (state : McprState) (bytesRead1 : ℕ) (id : UInt8) (t : McprPacketType)
    (ht : mcprGetPacketType id state = some t) :
    Fills mem s (decodeFields env state bytesRead1 t)
      (Determines t (fieldsFresh mem s.off s.left t)) := by
  cases state with
  | handshake =>
    cases ht
    exact decodeHandshake_fills.mono fun _ h => h.1
  | login =>
    simp only [mcprGetPacketType] at ht
    split at ht
    · cases ht
      exact decodeLoginStart_fills bytesRead1
    · cases ht
      exact decodeEncryptionResponse_fills
    · contradiction
  | status =>
    simp only [mcprGetPacketType] at ht
    split at ht
    · cases ht
      exact Fills.return (Determines.always (fun _ _ => ⟨rfl, rfl⟩) fun _ _ => trivial)
    · cases ht
      exact decodePing_fills bytesRead1
    · contradiction
  | play =>
    cases t
    case plSbTeleportConfirm => exact decodeTeleportConfirm_fills
    case plSbChatMessage => exact decodeChatMessage_fills
    case plSbClientSettings => exact decodeClientSettings_fills
    case plSbPluginMessage => exact decodePluginMessage_fills
    case plSbKeepAlive => exact decodeKeepAlive_fills
    case plSbPlayerPosition => exact decodePlayerPosition_fills
    case plSbPlayerPositionAndLook => exact decodePlayerPositionAndLook_fills
    case plSbPlayerLook => exact decodePlayerLook_fills
    case plSbHeldItemChange => exact decodeHeldItemChange_fills
    all_goals exact Fills.none _ _

end Packets

section Frames
variable (env : DecodeEnv) (mem : Mem) (state : McprState) (maxlen : UInt64)

/-- Where decoding starts, for whatever packet. -/
def decodeStart (maxlen : UInt64) : Cursor DecodeObjects :=
  { off := 0, left := maxlen, wrapped := false, overread := false
    objects := { out := default, ninerr := none, mallocs := 0, heap := [] } }

/-- The type of a decoded packet is that of the frame, and its fields are determined unless
the frame leaves one of them out. -/
theorem decodeBody_fills : Fills mem (decodeStart maxlen) (decodeBody env state) fun f =>
    ∃ t, (∀ p, (f p).id = t ∧ (f p).state = p.state) ∧
      ((∀ p q, SameFields t (f p).data (f q).data) ↔ frameFresh mem state maxlen) := by
  apply Fills.varint
  intro v k hv
  apply Fills.skip
  rcases ht : mcprGetPacketType (UInt8.ofBitVec (v.setWidth 8)) state with _ | t
  · exact Fills.stopped (failWith_stops _ _ _)
  · apply Fills.goes (a := t) (fun _ => rfl)
    apply Fills.setOut
    have hfresh : frameFresh mem state maxlen = fieldsFresh mem k (maxlen-UInt64.ofNat k) t := by
      have hd : mcprDecodeVarint mem maxlen = .ok (v, k) := hv
      simp only [frameFresh, hd, ht]
    have hfields : Fills mem { decodeStart maxlen with
        off := 0+k, left := maxlen-UInt64.ofNat k
        wrapped := false || decide (maxlen.toNat < k) } (decodeFields env state k t)
        (Determines t (fieldsFresh mem (0+k) (maxlen-UInt64.ofNat k) t)) :=
      decodeFields_fills state k _ t ht
    obtain ⟨r, s', f, hr, hf⟩ := hfields
    refine ⟨r, s', f, hr, fun hok => ?_⟩
    obtain ⟨hdata, hsame⟩ := hf hok
    -- the type is set before the fields are
    have hid (p : McprPacket) : (f { p with id := t }).id = t ∧
        (f { p with id := t }).state = p.state ∧ (f { p with id := t }).data = (f p).data := by
      rw [(hdata p t).1]
      exact ⟨rfl, (hdata p t).2, rfl⟩
    refine ⟨t, fun p => ⟨(hid p).1, (hid p).2.1⟩, ?_⟩
    simp only [Function.comp_apply, (hid _).2.2, hfresh]
    simpa only [Nat.zero_add] using hsame

/-- What decoding comes to does not depend on the packet that it fills. -/
theorem mcprDecodePacket_fills : ∃ (r : Except DecodeExit ℤ) (f : McprPacket → McprPacket),
    (∀ out, (decodeRun env out mem state maxlen).1 = r ∧
      (mcprDecodePacket env out mem state maxlen).exit = exitOf r ∧
      (mcprDecodePacket env out mem state maxlen).out = f out) ∧
    ((∃ n, r = .ok n) → ∃ t, (∀ p, (f p).id = t ∧ (f p).state = p.state) ∧
      ((∀ p q, SameFields t (f p).data (f q).data) ↔ frameFresh mem state maxlen)) := by
  obtain ⟨r, s', f, hr, hf⟩ := decodeBody_fills env mem state maxlen
  refine ⟨r, f, fun out => ?_, hf⟩
  have hrun : decodeRun env out mem state maxlen = (r, withPacket s' (f out)) := hr out
  simp only [mcprDecodePacket, hrun, DecodeResult.out, withPacket, and_self]

variable {env mem state maxlen}

/-- A positive count comes from a decoder that got to its end. -/
theorem decodeRun_of_count {out : McprPacket} {n : ℤ} (hn : 0 < n)
    (h : (mcprDecodePacket env out mem state maxlen).exit = .ret n) :
    ∃ k : ℕ, n = k ∧ (walkFrame mem state maxlen).1 = .ok k ∧
      (decodeRun env out mem state maxlen).1 = .ok n := by
  obtain ⟨k, rfl, hk⟩ := mcprDecodePacket_count env out mem state maxlen n hn h
  refine ⟨k, rfl, hk, ?_⟩
  rcases (decodeRun_agrees env out mem state maxlen).outcome with ⟨-, hr⟩ | ⟨hr, -⟩
  · simp only [mcprDecodePacket, hr, exitOf, DecodeExit.ret.injEq] at h
    omega
  · rw [hr, hk]
    rfl

/-- A Handshake that was decoded to its end asks for STATUS or LOGIN. -/
theorem mcprDecodePacket_next {out : McprPacket} {n : ℤ} (hn : 0 < n)
    (h : (mcprDecodePacket env out mem .handshake maxlen).exit = .ret n) :
    (mcprDecodePacket env out mem .handshake maxlen).out.data.handshake.nextState = .status ∨
      (mcprDecodePacket env out mem .handshake maxlen).out.data.handshake.nextState = .login := by
  have hbody : Fills mem (decodeStart maxlen) (decodeBody env .handshake) fun f =>
      ∀ p, (f p).data.handshake.nextState = .status ∨ (f p).data.handshake.nextState = .login := by
    apply Fills.varint
    intro v k _
    apply Fills.skip
    apply Fills.orElse (failWith_stops _ _ _)
    intro t _
    apply Fills.setOut
    exact decodeHandshake_fills.mono fun _ hf p => hf.2 _
  obtain ⟨k, -, -, hok⟩ := decodeRun_of_count hn h
  obtain ⟨r, s', f, hr, hf⟩ := hbody
  have hrun : decodeRun env out mem .handshake maxlen = (r, withPacket s' (f out)) := hr out
  rw [hrun] at hok
  simp only [mcprDecodePacket, DecodeResult.out, hrun]
  exact hf ⟨n, hok⟩ out

end Frames

/-- Whatever the packet held that is to be filled, a frame is decoded with the same count, to a
packet of the same type with the same fields. -/
def DecodesAlike (state : McprState) (mem : Mem) (maxlen : UInt64) : Prop :=
  ∀ env out out' n, 0 < n → (mcprDecodePacket env out mem state maxlen).exit = .ret n →
    (mcprDecodePacket env out' mem state maxlen).exit = .ret n ∧
    (mcprDecodePacket env out mem state maxlen).out.id =
      (mcprDecodePacket env out' mem state maxlen).out.id ∧
    SameFields (mcprDecodePacket env out mem state maxlen).out.id
      (mcprDecodePacket env out mem state maxlen).out.data
      (mcprDecodePacket env out' mem state maxlen).out.data

/-- A decoded packet is a function of its frame if and only if the frame is refused, or none of
its fields is left out. -/
theorem mcprDecodePacket_alike_iff (state : McprState) (mem : Mem) (maxlen : UInt64) :
    DecodesAlike state mem maxlen ↔
      ((∃ n, (walkFrame mem state maxlen).1 = .ok n) → frameFresh mem state maxlen) := by
  constructor
  · rintro h ⟨n, hn⟩
    -- with memory to spare, the decoder gets to the end of the walk
    have hn0 := walkFrame_pos mem state maxlen n hn
    obtain ⟨r, f, hr, hf⟩ := mcprDecodePacket_fills (spare .little) mem state maxlen
    have hrun : r = .ok (n : ℤ) := by
      rw [← (hr default).1, decodeRun_spare, hn]
      rfl
    obtain ⟨t, hid, hsame⟩ := hf ⟨n, hrun⟩
    apply hsame.mp
    intro p q
    obtain ⟨-, he, hp⟩ := hr p
    rw [hrun] at he
    have hpq := (h (spare .little) p q n (by omega) he).2.2
    rwa [hp, (hr q).2.2, (hid p).1] at hpq
  · intro h env out out' n hn hexit
    obtain ⟨k, rfl, hk, hok⟩ := decodeRun_of_count hn hexit
    obtain ⟨r, f, hr, hf⟩ := mcprDecodePacket_fills env mem state maxlen
    obtain ⟨hrun, he, hout⟩ := hr out
    obtain ⟨-, he', hout'⟩ := hr out'
    obtain ⟨t, hid, hsame⟩ := hf ⟨_, hrun.symm.trans hok⟩
    refine ⟨he'.trans (he.symm.trans hexit), ?_, ?_⟩
    · rw [hout, hout', (hid out).1, (hid out').1]
    · rw [hout, hout', (hid out).1]
      exact hsame.mpr (h ⟨k, hk⟩) out out'

/-- A plugin message on channel `a`: its length is whatever the packet held before. -/
theorem plugin_message_length_stale :
    ¬ DecodesAlike .play (ofList [0x09, 0x01, 0x61]) 3 := by
  intro h
  have hsame := (h (spare .little) default
    { (default : McprPacket) with data.playServerbound.pluginMessage.dataLength := 1 } 3
    (by decide) (by rfl)).2.2
  have hlen : (0 : UInt64) = 1 := congrArg PluginMessage.dataLength hsame
  exact absurd hlen (by decide)

end Stronk.Mcpr
