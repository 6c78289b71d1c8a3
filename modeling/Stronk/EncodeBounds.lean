import Stronk.McprEncode

/-! Whether a packet fits the buffer that is allocated for it: the number of bytes
`mcpr_encode_packet` writes, against what `mcpr_encode_packet_bounds` promised. -/
namespace Stronk.Mcpr
open ByteMemory EarlyExit

/-- An encoder does not overrun a buffer of the size promised to it. Where it halts the
program, what it has written until then counts. -/
def StaysInside (promised : EncodeExit) (m : Encoder Unit) : Prop :=
  ∀ bound, promised = .ret bound → encodeExit (m.run encodeStart) ≠ .undefined →
    (m.run encodeStart).2.written.length ≤ bound.toNat

def BoundHolds (envBounds envEncode : EncodeEnv) (pkt : McprPacket) : Prop :=
  ∀ bound, mcprEncodePacketBounds envBounds pkt = .ret bound →
    (mcprEncodePacket envEncode pkt).exit ≠ .undefined →
      (mcprEncodePacket envEncode pkt).objects.written.length ≤ bound.toNat

section Writes
variable {α β : Type} {n N : ℕ}

/-- Whatever a program does, it writes at most `n` bytes. -/
def Writes (m : Encoder α) (n : ℕ) : Prop :=
  ∀ o, (m.run o).2.written.length ≤ o.written.length+n

theorem Writes.mono {m : Encoder α} (h : Writes m n) (hn : n ≤ N) : Writes m N :=
  fun o => le_trans (h o) (Nat.add_le_add_left hn _)

theorem Writes.pure (a : α) : Writes (pure a : Encoder α) N := fun _ => Nat.le_add_right _ _

theorem Writes.exit (e : EncodeExit) : Writes (exit e : Encoder α) N :=
  fun _ => Nat.le_add_right _ _

/-- What the first part does not use up is left for the second. -/
theorem Writes.bind {m : Encoder α} {f : α → Encoder β} (hm : Writes m n) (hn : n ≤ N)
    (hf : ∀ a, Writes (f a) (N-n)) : Writes (m >>= f) N := by
  intro o
  have h := hm o
  rw [bind_run]
  rcases hr : m.run o with ⟨e | a, o'⟩ <;> rw [hr] at h <;> dsimp only at h ⊢
  · omega
  · have := hf a o'
    omega

theorem Writes.ite {c : Prop} [Decidable c] {m k : Encoder α} (hm : Writes m N)
    (hk : Writes k N) : Writes (if c then m else k) N := by
  split
  · exact hm
  · exact hk

theorem writes_emit (bs : List UInt8) : Writes (emit bs) bs.length := by
  intro o
  simp [emit]

theorem writes_varint (v : BitVec 32) : Writes (emit (mcprEncodeVarint v)) 5 :=
  (writes_emit _).mono (by rw [mcprEncodeVarint_length]; exact mcprVarintBounds_le v)

theorem writes_packetNumber (id : McprPacketType) : Writes (packetNumber id) 5 := by
  unfold packetNumber
  split
  · exact writes_varint _
  · exact Writes.exit _

theorem writes_memcpyOut (len : ℤ) (bs : List UInt8) : Writes (memcpyOut len bs) len.toNat :=
  Writes.ite (Writes.exit _) ((writes_emit _).mono (by simp))

theorem writes_modify (f : EncodeObjects → EncodeObjects) (hf : ∀ o, (f o).written = o.written) :
    Writes (modify f) 0 := by
  intro o
  simp [hf]

theorem writes_encodeMalloc (env : EncodeEnv) (size : ℕ) : Writes (encodeMalloc env size) 0 :=
  fun _ => le_refl _

theorem writes_mcprEncodeString (env : EncodeEnv) (s : List UInt8) :
    Writes (mcprEncodeString env s) (5+strlen s) := by
  refine (writes_encodeMalloc env _).bind (Nat.zero_le _) fun ok => ?_
  dsimp only
  split_ifs
  · exact Writes.bind (writes_modify _ fun _ => rfl) (Nat.zero_le _) fun _ => Writes.pure _
  · exact Writes.bind (writes_modify _ fun _ => rfl) (Nat.zero_le _) fun _ => Writes.pure _
  · refine (writes_varint _).bind (by omega) fun _ => ?_
    exact (writes_emit _).bind (by rw [cString_length]; omega) fun _ => Writes.pure _

theorem writes_encodeStringField (env : EncodeEnv) (s : List UInt8) :
    Writes (encodeStringField env s) (5+strlen s) :=
  (writes_mcprEncodeString env s).bind (le_refl _) fun _ =>
    Writes.ite (Writes.exit _) (Writes.pure _)

end Writes

section Fixed
variable (env : EncodeEnv)

theorem writes_encodePong (p : Pong) : Writes (encodePong env p) 13 := by
  refine (writes_packetNumber _).bind (by omega) fun _ => (writes_emit _).mono ?_
  simp [mcprEncodeLong, mcprLongSize]

theorem writes_encodeLoginDisconnect (p : Disconnect) :
    Writes (encodeLoginDisconnect env p) (10+strlen p.reason) := by
  refine (writes_packetNumber _).bind (by omega) fun _ => ?_
  exact (writes_encodeStringField env _).mono (by omega)

theorem writes_encodeEncryptionRequest (p : EncryptionRequest) :
    Writes (encodeEncryptionRequest env p) (20+strlen p.serverId+
      p.publicKeyLength.toInt.toNat+p.verifyTokenLength.toInt.toNat) := by
  refine (writes_packetNumber _).bind (by omega) fun _ => ?_
  refine (writes_encodeStringField env _).bind (by omega) fun _ => ?_
  refine (writes_varint _).bind (by omega) fun _ => ?_
  refine (writes_memcpyOut _ _).bind (by omega) fun _ => ?_
  refine (writes_varint _).bind (by omega) fun _ => ?_
  exact (writes_memcpyOut _ _).mono (by omega)

theorem hexByte_length_le (b : UInt8) : (hexByte b).length ≤ 2 := by
  unfold hexByte
  split <;> simp

theorem flatMap_hexByte_length_le (bs : List UInt8) :
    (bs.flatMap hexByte).length ≤ 2*bs.length := by
  induction bs with
  | nil => simp
  | cons b bs ih =>
    have := hexByte_length_le b
    simp only [List.flatMap_cons, List.length_append, List.length_cons]
    omega

theorem ninuuidToString_length_le (u : Ninuuid) : (ninuuidToString u).length ≤ 36 := by
  have hg (k n : ℕ) : (((u.bytes.toList.drop k).take n).flatMap hexByte).length ≤ 2*n := by
    have h1 := flatMap_hexByte_length_le ((u.bytes.toList.drop k).take n)
    have h2 : ((u.bytes.toList.drop k).take n).length ≤ n := List.length_take_le _ _
    omega
  have h0 := hg 0 4
  have h4 := hg 4 2
  have h6 := hg 6 2
  have h8 := hg 8 2
  have h10 := hg 10 6
  have hd : (ascii "-").length = 1 := rfl
  simp only [ninuuidToString, List.length_append, hd]
  omega

theorem strlen_le (s : List UInt8) : strlen s ≤ s.length :=
  (List.takeWhile_sublist _).length_le

theorem writes_encodeLoginSuccess (p : LoginSuccess) :
    Writes (encodeLoginSuccess env p) (51+strlen p.username) := by
  have hu := le_trans (strlen_le _) (ninuuidToString_length_le p.uuid)
  refine (writes_packetNumber _).bind (by omega) fun _ => ?_
  refine (writes_encodeStringField env _).bind (by omega) fun _ => ?_
  exact (writes_encodeStringField env _).mono (by omega)

theorem writes_encodeSetCompression (p : SetCompression) :
    Writes (encodeSetCompression p) 10 := by
  exact (writes_packetNumber _).bind (by omega) fun _ => writes_varint _

theorem writes_encodeDisconnect (p : Disconnect) :
    Writes (encodeDisconnect env p) (10+strlen p.reason) := by
  refine (writes_packetNumber _).bind (by omega) fun _ => ?_
  exact (writes_encodeStringField env _).mono (by omega)

theorem writes_encodeKeepAlive (p : KeepAlive) : Writes (encodeKeepAlive p) 10 := by
  exact (writes_packetNumber _).bind (by omega) fun _ => writes_varint _

theorem levelType_length_le (l : McprLevel) : strlen (levelType l) ≤ 11 := by
  cases l <;> decide

theorem writes_encodeJoinGame (p : JoinGame) : Writes (encodeJoinGame env p) 33 := by
  have hl := levelType_length_le p.levelType
  have hint (v : BitVec 32) : Writes (emit (mcprEncodeInt env.host v)) 4 :=
    (writes_emit _).mono (by simp [mcprEncodeInt, mcprIntSize])
  have hbyte (b : UInt8) : Writes (emit (mcprEncodeUbyte b)) 1 := writes_emit _
  refine (writes_packetNumber _).bind (by omega) fun _ => ?_
  refine (hint _).bind (by omega) fun _ => (hbyte _).bind (by omega) fun _ => ?_
  refine (hint _).bind (by omega) fun _ => (hbyte _).bind (by omega) fun _ => ?_
  refine (hbyte _).bind (by omega) fun _ => ?_
  refine (writes_encodeStringField env _).bind (by omega) fun _ => ?_
  exact (writes_emit _).mono (by simp only [mcprEncodeBool, List.length_singleton]; omega)

theorem writes_encodePluginMessage (p : PluginMessage) :
    Writes (encodePluginMessage env p) (10+strlen p.channel+p.dataLength.toNat) := by
  refine Writes.ite (Writes.exit _) ?_
  refine (writes_packetNumber _).bind (by omega) fun _ => ?_
  refine (writes_encodeStringField env _).bind (by omega) fun _ => ?_
  exact (writes_emit _).mono (by rw [read_length]; omega)

theorem writes_encodeSpawnPosition (p : SpawnPosition) :
    Writes (encodeSpawnPosition env p) 13 := by
  refine (writes_packetNumber _).bind (by omega) fun _ => (writes_emit _).mono ?_
  simp [mcprEncodePosition, mcprEncodeLong, mcprLongSize]

theorem writes_encodePlayerAbilities (p : PlayerAbilities) :
    Writes (encodePlayerAbilities env p) 14 := by
  have hfloat (v : BitVec 32) : Writes (emit (mcprEncodeFloat env.host env.shiftOut v)) 4 :=
    (writes_emit _).mono (by simp [mcprEncodeFloat, mcprFloatSize])
  refine (writes_packetNumber _).bind (by omega) fun _ => ?_
  refine (writes_emit _).bind (by simp [mcprEncodeByte]) fun _ => ?_
  refine (hfloat _).bind (by simp [mcprEncodeByte]) fun _ => (hfloat _).mono ?_
  simp [mcprEncodeByte]

theorem writes_encodePlayerPositionAndLook (p : ClientboundPlayerPositionAndLook) :
    Writes (encodePlayerPositionAndLook env p) 43 := by
  have hfloat (v : BitVec 32) : Writes (emit (mcprEncodeFloat env.host env.shiftOut v)) 4 :=
    (writes_emit _).mono (by simp [mcprEncodeFloat, mcprFloatSize])
  have hdouble (v : BitVec 64) : Writes (emit (mcprEncodeDouble env.host v)) 8 :=
    (writes_emit _).mono (by simp [mcprEncodeDouble, mcprDoubleSize])
  have hbyte (b : BitVec 8) : Writes (emit (mcprEncodeByte b)) 1 := writes_emit _
  refine (writes_packetNumber _).bind (by omega) fun _ => ?_
  refine (hdouble _).bind (by omega) fun _ => (hdouble _).bind (by omega) fun _ => ?_
  refine (hdouble _).bind (by omega) fun _ => (hfloat _).bind (by omega) fun _ => ?_
  refine (hfloat _).bind (by omega) fun _ => (hbyte _).bind (by omega) fun _ => ?_
  exact (writes_varint _).mono (by omega)

end Fixed

section Exact
variable (env : EncodeEnv) (o : EncodeObjects)

/-- The temporary copy of a string can be had, and the length is an `int32_t`. -/
def StringEncodes (env : EncodeEnv) (k : ℕ) (s : List UInt8) : Prop :=
  env.malloc k = true ∧ strlen s ≤ int32Max

@[simp] theorem emit_run (bs : List UInt8) :
    (emit bs).run o = (.ok (), { o with written := o.written ++ bs }) := rfl

theorem memcpyOut_run (len : ℤ) (bs : List UInt8) (h : 0 ≤ len) : (memcpyOut len bs).run o =
    (.ok (), { o with written := o.written ++ read (ofList bs) len.toNat }) := by
  simp [memcpyOut, not_lt.mpr h]

theorem mcprEncodeString_run (s : List UInt8) (h : StringEncodes env o.mallocs s) :
    (mcprEncodeString env s).run o =
      (.ok (toInt32 ((mcprEncodeVarint (BitVec.ofNat 32 (strlen s))).length+strlen s)),
        { o with written := o.written ++ mcprEncodeVarint (BitVec.ofNat 32 (strlen s)) ++ cString s
                 mallocs := o.mallocs+1 }) := by
  have hsize : strlen s+1 ≤ ptrdiffMax := by
    have := h.2
    simp only [int32Max, ptrdiffMax] at this ⊢
    omega
  simp [mcprEncodeString, encodeMalloc, emit, hsize, h.1, not_lt.mpr h.2]

theorem mcprEncodeString_run_fails (s : List UInt8) (h : ¬ StringEncodes env o.mallocs s) :
    ∃ o', (mcprEncodeString env s).run o = (.ok (-1), o') ∧ o'.written = o.written := by
  by_cases hm : strlen s+1 ≤ ptrdiffMax ∧ env.malloc o.mallocs = true
  · have hlen : strlen s > int32Max := by
      by_contra hlen
      exact h ⟨hm.2, by omega⟩
    exact ⟨{ o with mallocs := o.mallocs+1, ninerr := some .arithmetic },
      by simp [mcprEncodeString, encodeMalloc, hm.1, hm.2, hlen], rfl⟩
  · have hok : strlen s < ptrdiffMax → env.malloc o.mallocs = false := by
      intro hlt
      by_contra hm'
      exact hm ⟨hlt, by simpa using hm'⟩
    exact ⟨{ o with mallocs := o.mallocs+1, ninerr := some .fromErrno },
      by simp [mcprEncodeString, encodeMalloc, if_pos hok], rfl⟩

end Exact

section ChatMessage

/-- The bound of a Chat Message is six short of its text, where the text has six bytes. -/
def ChatMessageFits (envBounds envEncode : EncodeEnv) (p : ClientboundChatMessage) : Prop :=
  ¬ StringEncodes envEncode 0 p.jsonData ∨
    (strlen p.jsonData < 6 ∧ strlen p.jsonData+2 ≤ envBounds.behind.toNat)

theorem mcprVarintBounds_small (n : ℕ) (h : n < 128) : mcprVarintBounds (BitVec.ofNat 32 n) = 1 := by
  have hz : BitVec.ofNat 32 n >>> 7 = 0#32 := by
    apply BitVec.eq_of_toNat_eq
    simp only [BitVec.toNat_ushiftRight, BitVec.toNat_ofNat, Nat.shiftRight_eq_div_pow]
    omega
  simp only [mcprVarintBounds, mcprVarintBoundsLoop, hz]
  decide

theorem encodeChatMessage_fails (env : EncodeEnv) (p : ClientboundChatMessage) (o : EncodeObjects)
    (h : ¬ StringEncodes env o.mallocs p.jsonData) :
    ((encodeChatMessage env p).run o).2.written = o.written := by
  obtain ⟨o', hr, ho⟩ := mcprEncodeString_run_fails env o p.jsonData h
  simp [encodeChatMessage, encodeStringField, hr, ho]

/-- Once the text has been copied, it has been written. -/
theorem encodeChatMessage_length (env : EncodeEnv) (p : ClientboundChatMessage) (o : EncodeObjects)
    (h : StringEncodes env o.mallocs p.jsonData) :
    o.written.length+strlen p.jsonData+1 ≤ ((encodeChatMessage env p).run o).2.written.length := by
  have hv := mcprVarintBounds_pos (BitVec.ofNat 32 (strlen p.jsonData))
  simp only [encodeChatMessage, encodeStringField, bind_run, mcprEncodeString_run env o _ h]
  split_ifs <;> simp [mcprEncodeVarint_length] <;> omega

theorem encodeChatMessage_short (env : EncodeEnv) (p : ClientboundChatMessage) (o : EncodeObjects)
    (h : StringEncodes env o.mallocs p.jsonData) (hs : strlen p.jsonData < 6) :
    ∃ o', (encodeChatMessage env p).run o = (.ok (), o') ∧
      o'.written.length = o.written.length+strlen p.jsonData+2 := by
  have hv := mcprVarintBounds_small (strlen p.jsonData) (by omega)
  have hn : ¬ toInt32 (((mcprEncodeVarint (BitVec.ofNat 32 (strlen p.jsonData))).length : ℤ)+
      strlen p.jsonData) < 0 := by
    rw [mcprEncodeVarint_length, hv]
    generalize strlen p.jsonData = n at hs
    interval_cases n <;> decide
  refine ⟨_, by simp [encodeChatMessage, encodeStringField, mcprEncodeString_run env o _ h, hn]; rfl,
    ?_⟩
  simp [mcprEncodeVarint_length, hv, mcprEncodeByte]
  omega

theorem chatMessage_stays_inside_iff (envBounds envEncode : EncodeEnv)
    (p : ClientboundChatMessage) (hp : strlen p.jsonData ≤ ptrdiffMax) :
    StaysInside (.ret (chatMessageBounds envBounds p.jsonData)) (encodeChatMessage envEncode p) ↔
      ChatMessageFits envBounds envEncode p := by
  by_cases hs : StringEncodes envEncode 0 p.jsonData
  · by_cases h6 : strlen p.jsonData < 6
    · obtain ⟨o', hr, ho⟩ := encodeChatMessage_short envEncode p encodeStart hs h6
      have hb : chatMessageBounds envBounds p.jsonData = envBounds.behind := by
        simp [chatMessageBounds, mcprVarintSizeMax, mcprByteSize, not_le.mpr h6]
      rw [encodeStart, List.length_nil, Nat.zero_add] at ho
      simp only [StaysInside, ChatMessageFits, hb, EncodeExit.ret.injEq, forall_eq', hr, encodeExit,
        ne_eq, reduceCtorEq, not_false_eq_true, forall_const, ho, hs, h6, not_true_eq_false,
        true_and, false_or]
    · -- the bound is six less than the text, which is written whole
      have hw := encodeChatMessage_length envEncode p encodeStart hs
      have hb : (chatMessageBounds envBounds p.jsonData).toNat = strlen p.jsonData-6 := by
        simp only [ptrdiffMax] at hp
        simp only [chatMessageBounds, mcprVarintSizeMax, mcprByteSize, not_lt.mp h6, ↓reduceIte,
          sizeOfNat_toNat]
        omega
      have hu : encodeExit ((encodeChatMessage envEncode p).run encodeStart) ≠ .undefined := by
        simp only [encodeChatMessage, encodeStringField, bind_run,
          mcprEncodeString_run envEncode encodeStart _ hs]
        split_ifs <;> simp [encodeExit]
      simp only [ChatMessageFits, hs, h6, not_true_eq_false, false_and, or_self, iff_false]
      intro h
      have := h _ rfl hu
      omega
  · refine ⟨fun _ => .inl hs, fun _ bound _ _ => ?_⟩
    rw [encodeChatMessage_fails envEncode p encodeStart hs]
    exact Nat.zero_le _

end ChatMessage

section Response

/-- The text of a response fits unless memory runs out for the bound and not for the packet. -/
def ResponseFits (envBounds envEncode : EncodeEnv) (r : Response) : Prop :=
  r.playerSample.isSome = true ∨ int32Max ≤ (responseText r).length ∨
    envBounds.malloc 0 = true ∨ envEncode.malloc 0 = false

theorem serverListResponseToJson_sample (env : EncodeEnv) (r : Response) (o : EncodeObjects)
    (h : r.playerSample.isSome = true) :
    (serverListResponseToJson env r).run o = (.error .undefined, o) := by
  simp [serverListResponseToJson, h]

theorem serverListResponseToJson_none (env : EncodeEnv) (r : Response) (o : EncodeObjects)
    (hs : r.playerSample.isSome = false)
    (h : int32Max < (responseText r).length ∨
      ((responseText r).length < int32Max ∧ env.malloc o.mallocs = false)) :
    ∃ o', (serverListResponseToJson env r).run o = (.ok none, o') ∧ o'.written = o.written := by
  rcases h with h | ⟨hlt, hm⟩
  · exact ⟨{ o with ninerr := some (.new "sprintf failed.") },
      by simp [serverListResponseToJson, hs, h], rfl⟩
  · exact ⟨{ o with mallocs := o.mallocs+1, ninerr := some .fromErrno },
      by simp [serverListResponseToJson, hs, not_lt.mpr hlt.le, hlt.ne, encodeMalloc, hm], rfl⟩

theorem serverListResponseToJson_some (env : EncodeEnv) (r : Response) (o : EncodeObjects)
    (hs : r.playerSample.isSome = false) (hlt : (responseText r).length < int32Max)
    (hm : env.malloc o.mallocs = true) :
    (serverListResponseToJson env r).run o =
      (.ok (some (responseText r)), { o with mallocs := o.mallocs+1 }) := by
  have hsize : (responseText r).length+1 ≤ ptrdiffMax := by
    simp only [int32Max, ptrdiffMax] at hlt ⊢
    omega
  simp [serverListResponseToJson, hs, not_lt.mpr hlt.le, hlt.ne, encodeMalloc, hm, hsize]

theorem encodeResponse_some (env : EncodeEnv) (r : Response) (o : EncodeObjects)
    (hs : r.playerSample.isSome = false) (hlt : (responseText r).length < int32Max)
    (hm : env.malloc o.mallocs = true) :
    (encodeResponse env r).run o = (.ok (), { o with
      written := o.written ++ mcprEncodeVarint 0#32 ++
        mcprEncodeVarint (BitVec.ofNat 32 (strlen (responseText r))) ++ cString (responseText r)
      mallocs := o.mallocs+1 }) := by
  simp [encodeResponse, serverListResponseToJson_some env r o hs hlt hm, packetNumber,
    mcprPacketTypeToByte]

theorem encodeResponse_none (env : EncodeEnv) (r : Response) (o : EncodeObjects)
    (hs : r.playerSample.isSome = false)
    (h : int32Max < (responseText r).length ∨
      ((responseText r).length < int32Max ∧ env.malloc o.mallocs = false)) :
    ((encodeResponse env r).run o).2.written = o.written := by
  obtain ⟨o', hr, ho⟩ := serverListResponseToJson_none env r o hs h
  simp [encodeResponse, hr, ho]

theorem response_stays_inside_iff (envBounds envEncode : EncodeEnv) (r : Response) :
    StaysInside (responseBounds envBounds r) (encodeResponse envEncode r) ↔
      ResponseFits envBounds envEncode r := by
  cases hs : r.playerSample.isSome with
  | true =>
    have hu : responseBounds envBounds r = .undefined := by
      simp [responseBounds, serverListResponseToJson_sample _ r _ hs]
    exact ⟨fun _ => .inl hs, fun _ bound hb => by simp [hu] at hb⟩
  | false =>
    simp only [ResponseFits, hs, Bool.false_eq_true, false_or]
    rcases lt_trichotomy (int32Max : ℤ) (responseText r).length with hlt | heq | hlt
    · refine ⟨fun _ => .inl hlt.le, fun _ bound _ _ => ?_⟩
      rw [encodeResponse_none envEncode r _ hs (.inl hlt)]
      exact Nat.zero_le _
    · have ha : responseBounds envBounds r = .abort := by
        simp [responseBounds, serverListResponseToJson, hs, ← heq]
      exact ⟨fun _ => .inl heq.le, fun _ bound hb => by simp [ha] at hb⟩
    · cases hm : envEncode.malloc 0 with
      | false =>
        refine ⟨fun _ => .inr (.inr rfl), fun _ bound _ _ => ?_⟩
        rw [encodeResponse_none envEncode r _ hs (.inr ⟨hlt, hm⟩)]
        exact Nat.zero_le _
      | true =>
        have hw := encodeResponse_some envEncode r encodeStart hs hlt hm
        cases hb : envBounds.malloc 0 with
        | false =>
          -- the bound is 0, and the packet is written all the same
          obtain ⟨o', hr, -⟩ := serverListResponseToJson_none envBounds r encodeStart hs
            (.inr ⟨hlt, hb⟩)
          have h0 : responseBounds envBounds r = .ret 0 := by simp [responseBounds, hr]
          refine ⟨fun h => ?_, fun h => ?_⟩
          · have hle := h 0 h0 (by rw [hw]; simp [encodeExit])
            rw [hw] at hle
            have hv := mcprVarintBounds_pos 0#32
            simp [mcprEncodeVarint_length, encodeStart] at hle
            omega
          · simp only [not_le.mpr hlt, Bool.false_eq_true, Bool.true_eq_false, or_self] at h
        | true =>
          refine ⟨fun _ => .inr (.inl rfl), fun _ bound hbound _ => ?_⟩
          have hlen := strlen_le (responseText r)
          simp only [responseBounds, serverListResponseToJson_some envBounds r encodeStart hs hlt hb,
            EncodeExit.ret.injEq] at hbound
          have h0 := mcprVarintBounds_le 0#32
          have h1 := mcprVarintBounds_le (BitVec.ofNat 32 (strlen (responseText r)))
          have hsum : bound.toNat = 10+strlen (responseText r) := by
            rw [← hbound]
            simp only [int32Max] at hlt
            simp only [mcprVarintSizeMax, UInt64.toNat_add, sizeOfNat_toNat]
            omega
          rw [hw, hsum]
          simp [mcprEncodeVarint_length, encodeStart]
          omega

end Response

section ChunkData

def lightLength (s : McprChunkSection) : ℕ := if s.skyLight.isSome then 4096 else 2048

/-- What a section takes, and what `data_size` is to count for it. -/
def sectionLength (s : McprChunkSection) : ℕ :=
  1+mcprVarintBounds s.paletteLength+(paletteBytes s).length+mcprVarintBounds s.blockArrayLength+
    8*s.blockArrayLength.toNat+lightLength s

def sectionEstimate (s : McprChunkSection) : ℕ :=
  1+mcprVarintBounds s.paletteLength+5*s.paletteLength.toNat+mcprVarintBounds s.blockArrayLength+
    8*s.blockArrayLength.toNat+lightLength s

def NonNegative (n : BitVec 32) : Prop := 0 ≤ n.toInt

theorem NonNegative.toInt {n : BitVec 32} (h : NonNegative n) : n.toInt = n.toNat := by
  simp only [NonNegative, BitVec.toInt_eq_toNat_cond] at h ⊢
  split_ifs at h ⊢ <;> omega

instance (n : BitVec 32) : Decidable (NonNegative n) := inferInstanceAs (Decidable (0 ≤ n.toInt))

def SectionNonNegative (s : McprChunkSection) : Prop :=
  NonNegative s.paletteLength ∧ NonNegative s.blockArrayLength

instance (s : McprChunkSection) : Decidable (SectionNonNegative s) :=
  inferInstanceAs (Decidable (_ ∧ _))

theorem encodePalette_length_le (n : ℕ) (palette : List (BitVec 32)) :
    (encodePalette n palette).length ≤ 5*n := by
  induction n generalizing palette with
  | zero => simp [encodePalette]
  | succ n ih =>
    have h1 := mcprVarintBounds_le (palette.headD 0#32)
    have h2 := ih palette.tail
    simp only [encodePalette, List.length_append, mcprEncodeVarint_length]
    omega

theorem paletteBytes_length_le (s : McprChunkSection) :
    (paletteBytes s).length ≤ 5*s.paletteLength.toNat := by
  unfold paletteBytes
  split_ifs
  · exact encodePalette_length_le _ _
  · exact Nat.zero_le _

theorem encodeSection_run (s : McprChunkSection) (h : SectionNonNegative s) (o : EncodeObjects) :
    ∃ o', (encodeSection s).run o = (.ok (), o') ∧
      o'.written.length = o.written.length+sectionLength s := by
  have hb : (0 : ℤ) ≤ s.blockArrayLength.toInt*8 := by
    have := h.2
    simp only [NonNegative] at this
    omega
  have hn : (s.blockArrayLength.toInt*8).toNat = 8*s.blockArrayLength.toNat := by
    rw [h.2.toInt]
    omega
  have hsky : (0 : ℤ) ≤ if s.skyLight.isSome then 2048 else 0 := by
    split_ifs <;> omega
  refine ⟨_, by simp [encodeSection, memcpyOut_run, hb, hsky]; rfl, ?_⟩
  simp only [List.length_append, mcprEncodeUbyte, mcprEncodeVarint_length, read_length,
    List.length_singleton, hn, sectionLength, lightLength]
  split_ifs <;> simp <;> omega

theorem encodeSections_run (sections : List McprChunkSection)
    (h : ∀ s ∈ sections, SectionNonNegative s) (o : EncodeObjects) :
    ∃ o', (encodeSections sections).run o = (.ok (), o') ∧
      o'.written.length = o.written.length+(sections.map sectionLength).sum := by
  induction sections generalizing o with
  | nil => exact ⟨o, rfl, by simp⟩
  | cons s sections ih =>
    obtain ⟨o1, h1, hl1⟩ := encodeSection_run s (h s (by simp)) o
    obtain ⟨o2, h2, hl2⟩ := ih (fun t ht => h t (by simp [ht])) o1
    refine ⟨o2, by simp [encodeSections, h1, h2], ?_⟩
    rw [hl2, hl1, List.map_cons, List.sum_cons, Nat.add_assoc]

/-- What is added for a section before the block array, whose bytes are added to an `int`. -/
def paletteEstimate (s : McprChunkSection) : ℕ :=
  1+mcprVarintBounds s.paletteLength+5*s.paletteLength.toNat+mcprVarintBounds s.blockArrayLength

theorem toInt_ofNat_32 (n : ℕ) :
    (BitVec.ofNat 32 n).toInt = n-4294967296*((n+2147483648)/4294967296 : ℕ) := by
  rw [BitVec.toInt_eq_toNat_cond, BitVec.toNat_ofNat]
  split_ifs <;> omega

theorem sectionEstimate_eq (n : ℕ) (s : McprChunkSection) : n+sectionEstimate s =
    n+paletteEstimate s+(8*s.blockArrayLength.toNat+lightLength s) := by
  simp only [sectionEstimate, paletteEstimate, Nat.add_assoc]

theorem addSize_ofNat (n k : ℕ) : addSize (BitVec.ofNat 32 n) k = BitVec.ofNat 32 (n+k) := by
  rw [addSize, BitVec.ofInt_add, BitVec.ofInt_toInt, BitVec.ofInt_natCast, BitVec.ofNat_add]

theorem addInt_ofNat (n k : ℕ) : addInt (BitVec.ofNat 32 n) k =
    if (n+2147483648)%4294967296+k < 4294967296 then some (BitVec.ofNat 32 (n+k)) else none := by
  have hsum : BitVec.ofInt 32 ((BitVec.ofNat 32 n).toInt+k) = BitVec.ofNat 32 (n+k) :=
    addSize_ofNat n k
  have hint := toInt_ofNat_32 n
  have hfits : fitsInt ((BitVec.ofNat 32 n).toInt+k) =
      decide ((n+2147483648)%4294967296+k < 4294967296) := by
    rw [fitsInt, decide_eq_decide, hint]
    simp only [int32Max]
    omega
  rw [addInt, hfits, hsum]
  simp only [decide_eq_true_eq]

/-- Of two additions the second one overflows if and only if both at once would. -/
theorem addInt_ofNat_bind (n j k : ℕ) :
    ((addInt (BitVec.ofNat 32 n) j).bind fun d => addInt d k) =
      addInt (BitVec.ofNat 32 n) (j+k : ℕ) := by
  rw [addInt_ofNat, addInt_ofNat]
  by_cases hj : (n+2147483648)%4294967296+j < 4294967296
  · have hmod : (n+j+2147483648)%4294967296 = (n+2147483648)%4294967296+j := by omega
    rw [if_pos hj, Option.bind_some, addInt_ofNat, hmod, Nat.add_assoc, Nat.add_assoc]
  · rw [if_neg hj, Option.bind_none, if_neg (by omega)]

/-- One turn of the loop, from the residue of what has been added so far. -/
theorem sectionDataSize_ofNat (n : ℕ) (s : McprChunkSection) (hs : SectionNonNegative s)
    (hfit : 8*s.blockArrayLength.toNat ≤ int32Max) : sectionDataSize (BitVec.ofNat 32 n) s =
      addInt (BitVec.ofNat 32 (n+paletteEstimate s))
        (8*s.blockArrayLength.toNat+lightLength s : ℕ) := by
  have hproduct : s.blockArrayLength.toInt*8 = (8*s.blockArrayLength.toNat : ℕ) := by
    rw [hs.2.toInt]
    push_cast
    ring
  have hpalette : s.paletteLength.toInt*mcprVarintSizeMax = (5*s.paletteLength.toNat : ℕ) := by
    rw [hs.1.toInt, mcprVarintSizeMax]
    push_cast
    ring
  have hfits : fitsInt (8*s.blockArrayLength.toNat : ℕ) = true := by
    apply decide_eq_true
    simp only [int32Max] at hfit ⊢
    omega
  have hsum : n+mcprUbyteSize+mcprVarintBounds s.paletteLength+5*s.paletteLength.toNat+
      mcprVarintBounds s.blockArrayLength = n+paletteEstimate s := by
    simp only [mcprUbyteSize, paletteEstimate]
    omega
  have hlight (d : BitVec 32) : addInt d 2048 = addInt d (2048 : ℕ) := rfl
  simp only [sectionDataSize, hproduct, hpalette, addSize_ofNat, hsum, hfits, if_true, lightLength,
    Option.bind_eq_bind, hlight]
  -- the sky light is a third addition
  cases s.skyLight.isSome
  · simp only [Bool.false_eq_true, if_false, Option.bind_fun_some, addInt_ofNat_bind]
  · simp only [if_true, ← Option.bind_assoc, addInt_ofNat_bind, Nat.add_assoc, Nat.reduceAdd]

/-- The sum of a section is right modulo 2^32. -/
theorem sectionDataSize_eq (d d' : BitVec 32) (s : McprChunkSection) (hs : SectionNonNegative s)
    (h : sectionDataSize d s = some d') : d' = d+BitVec.ofNat 32 (sectionEstimate s) := by
  have hfit : 8*s.blockArrayLength.toNat ≤ int32Max := by
    simp only [sectionDataSize, Option.ite_none_right_eq_some] at h
    have hproduct := of_decide_eq_true h.1
    rw [hs.2.toInt] at hproduct
    omega
  have hd : d = BitVec.ofNat 32 d.toNat := by
    rw [BitVec.ofNat_toNat, BitVec.setWidth_eq]
  rw [hd, sectionDataSize_ofNat _ s hs hfit, addInt_ofNat, ← sectionEstimate_eq,
    Option.ite_none_right_eq_some, Option.some.injEq] at h
  rw [← h.2, BitVec.ofNat_add, ← hd]

theorem sectionsDataSize_eq (sections : List McprChunkSection)
    (hs : ∀ s ∈ sections, SectionNonNegative s) (d d' : BitVec 32)
    (h : sectionsDataSize d sections = some d') :
    d' = d+BitVec.ofNat 32 (sections.map sectionEstimate).sum := by
  induction sections generalizing d with
  | nil => simpa [sectionsDataSize] using h.symm
  | cons s sections ih =>
    simp only [sectionsDataSize, Option.bind_eq_some_iff] at h
    obtain ⟨e, he, h⟩ := h
    rw [ih (fun t ht => hs t (by simp [ht])) e h, sectionDataSize_eq d e s (hs s (by simp)) he,
      List.map_cons, List.sum_cons, BitVec.ofNat_add, BitVec.add_assoc]

def biomesLength (c : ChunkData) : ℕ := if c.groundUpContinuous then 256 else 0

/-- What `data_size` would be in unbounded arithmetic. -/
def chunkEstimate (c : ChunkData) : ℕ := biomesLength c+(c.chunkSections.map sectionEstimate).sum

def chunkLength (c : ChunkData) : ℕ := biomesLength c+(c.chunkSections.map sectionLength).sum

theorem chunkDataSize_eq (c : ChunkData) (hs : ∀ s ∈ c.chunkSections, SectionNonNegative s)
    (d : BitVec 32) (h : chunkDataSize c = some d) : d = BitVec.ofNat 32 (chunkEstimate c) := by
  rw [sectionsDataSize_eq _ hs _ d h, chunkEstimate, BitVec.ofNat_add, biomesLength]
  congr 1
  split_ifs <;> rfl

theorem chunkLength_le (c : ChunkData) : chunkLength c ≤ chunkEstimate c := by
  have hs (s : McprChunkSection) : sectionLength s ≤ sectionEstimate s := by
    have := paletteBytes_length_le s
    simp only [sectionLength, sectionEstimate]
    omega
  have := List.sum_le_sum fun s (_ : s ∈ c.chunkSections) => hs s
  simp only [chunkLength, chunkEstimate]
  omega

/-- How often `data_size` wraps around. -/
def chunkWraps (c : ChunkData) : ℕ := (chunkEstimate c+2147483648)/4294967296

def writtenEntities (env : EncodeEnv) (c : ChunkData) : ℕ :=
  if 0 < c.blockEntityCount.toInt then (rawBlockEntities env c).length else 0

/-- The number of the packet type is not in the bound, but 15 bytes are for the three VarInts
and five for every entry of a palette: that has to make up for it, for the wraps of
`data_size` and for what the block entities have grown by. A bound that wraps below zero is
no limit any more. -/
def ChunkDataFits (envBounds envEncode : EncodeEnv) (c : ChunkData) : Prop :=
  chunkDataSize c = none ∨ (0 < c.blockEntityCount.toInt ∧ c.blockEntities = none) ∨
    mcprVarintBounds c.primaryBitMask+mcprVarintBounds (BitVec.ofNat 32 (chunkEstimate c))+
        mcprVarintBounds c.blockEntityCount+writtenEntities envEncode c+4294967296*chunkWraps c ≤
      14+(chunkEstimate c-chunkLength c)+(rawBlockEntities envBounds c).length+
        (if 24+chunkEstimate c+(rawBlockEntities envBounds c).length < 4294967296*chunkWraps c
          then 2^64 else 0)

theorem sizeOfInt_toNat (n : BitVec 32) :
    ((sizeOfInt n).toNat : ℤ) = if n.toInt < 0 then n.toInt+2^64 else n.toInt := by
  have hz : (n.signExtend 64).toInt = n.toInt := BitVec.toInt_signExtend_of_le (by omega)
  have hn : (sizeOfInt n).toNat = (n.signExtend 64).toNat := rfl
  rw [hn, ← hz, BitVec.toInt_eq_toNat_cond]
  have := (n.signExtend 64).isLt
  split_ifs <;> omega

theorem rawBlockEntities_length (env : EncodeEnv) (c : ChunkData) :
    (rawBlockEntities env c).length ≤ ptrdiffMax := by
  unfold rawBlockEntities
  split
  · exact (env.nbtDumpBinary _).2
  · exact Nat.zero_le _

theorem chunkDataBounds_toNat (env : EncodeEnv) (c : ChunkData) (bound : UInt64)
    (hs : ∀ s ∈ c.chunkSections, SectionNonNegative s) (h : chunkDataBounds env c = .ret bound) :
    bound.toNat+4294967296*chunkWraps c = 24+chunkEstimate c+(rawBlockEntities env c).length+
      (if 24+chunkEstimate c+(rawBlockEntities env c).length < 4294967296*chunkWraps c
        then 2^64 else 0) := by
  simp only [chunkDataBounds] at h
  split at h
  · contradiction
  · rename_i d hd
    simp only [EncodeExit.ret.injEq] at h
    have hraw := rawBlockEntities_length env c
    have hsize := sizeOfInt_toNat d
    have hint : d.toInt = chunkEstimate c-4294967296*chunkWraps c := by
      rw [chunkDataSize_eq c hs d hd]
      exact toInt_ofNat_32 _
    have hlt := BitVec.toInt_lt (x := d)
    have hge := BitVec.le_toInt (x := d)
    rw [hint] at hsize hlt hge
    rw [← h]
    simp only [mcprIntSize, mcprBoolSize, mcprVarintSizeMax, UInt64.toNat_add, sizeOfNat_toNat]
    simp only [ptrdiffMax] at hraw
    split_ifs at hsize ⊢ <;> omega

theorem encodeBlockEntities_run (env : EncodeEnv) (c : ChunkData) (o : EncodeObjects)
    (h : ¬ (0 < c.blockEntityCount.toInt ∧ c.blockEntities = none)) :
    ∃ o', (encodeBlockEntities env c).run o = (.ok (), o') ∧
      o'.written.length = o.written.length+writtenEntities env c := by
  by_cases hc : 0 < c.blockEntityCount.toInt
  · rcases hb : c.blockEntities with _ | node
    · exact absurd ⟨hc, hb⟩ h
    · exact ⟨_, by simp [encodeBlockEntities, hc, hb]; rfl, by simp [writtenEntities, hc]⟩
  · exact ⟨o, by simp [encodeBlockEntities, hc], by simp [writtenEntities, hc]⟩

/-- All of a chunk is written before its block entities are looked at. -/
theorem encodeChunkData_run (env : EncodeEnv) (c : ChunkData) (d : BitVec 32)
    (hs : ∀ s ∈ c.chunkSections, SectionNonNegative s) (hd : chunkDataSize c = some d) :
    ∃ o, (encodeChunkData env c).run encodeStart = (encodeBlockEntities env c).run o ∧
      o.written.length = 10+mcprVarintBounds c.primaryBitMask+mcprVarintBounds d+chunkLength c+
        mcprVarintBounds c.blockEntityCount := by
  have hnum (o : EncodeObjects) : (packetNumber .plCbChunkData).run o =
      (.ok (), { o with written := o.written ++ mcprEncodeVarint 0x20#32 }) := rfl
  have hbio : (0 : ℤ) ≤ if c.groundUpContinuous then 256 else 0 := by
    split_ifs <;> omega
  have hbl : (if c.groundUpContinuous then 256 else 0 : ℤ).toNat = biomesLength c := by
    simp only [biomesLength]
    split_ifs <;> rfl
  obtain ⟨o, h, hl⟩ := encodeSections_run c.chunkSections hs { encodeStart with
    written := mcprEncodeVarint 0x20#32 ++ mcprEncodeInt env.host c.chunkX ++
      mcprEncodeInt env.host c.chunkZ ++ mcprEncodeBool c.groundUpContinuous ++
      mcprEncodeVarint c.primaryBitMask ++ mcprEncodeVarint d }
  refine ⟨{ o with written := o.written ++ read (ofList c.biomes) (biomesLength c) ++
    mcprEncodeVarint c.blockEntityCount }, ?_, ?_⟩
  · simp only [encodeStart, List.append_assoc] at h
    simp [encodeChunkData, hd, hnum, encodeStart, h, memcpyOut_run, hbio, hbl]
  · have hid : mcprVarintBounds 0x20#32 = 1 := by decide
    simp only [List.length_append, read_length, mcprEncodeVarint_length, hl, mcprEncodeInt,
      hostBytes_length, mcprEncodeBool, List.length_singleton, mcprIntSize, hid, chunkLength]
    omega

theorem chunkData_stays_inside_iff (envBounds envEncode : EncodeEnv) (c : ChunkData)
    (hs : ∀ s ∈ c.chunkSections, SectionNonNegative s) :
    StaysInside (chunkDataBounds envBounds c) (encodeChunkData envEncode c) ↔
      ChunkDataFits envBounds envEncode c := by
  rcases hd : chunkDataSize c with _ | d
  · have hb : chunkDataBounds envBounds c = .abort := by simp [chunkDataBounds, hd]
    exact ⟨fun _ => .inl hd, fun _ bound h => by simp [hb] at h⟩
  · obtain ⟨o, hr, hl⟩ := encodeChunkData_run envEncode c d hs hd
    by_cases hn : 0 < c.blockEntityCount.toInt ∧ c.blockEntities = none
    · refine ⟨fun _ => .inr (.inl hn), fun _ bound _ hu => absurd ?_ hu⟩
      simp [hr, encodeBlockEntities, hn.1, hn.2, encodeExit]
    · obtain ⟨o', hr', hl'⟩ := encodeBlockEntities_run envEncode c o hn
      obtain ⟨bound, hb⟩ : ∃ bound, chunkDataBounds envBounds c = .ret bound :=
        ⟨_, by simp [chunkDataBounds, hd]; rfl⟩
      have hbn := chunkDataBounds_toNat envBounds c bound hs hb
      have hle := chunkLength_le c
      rw [chunkDataSize_eq c hs d hd] at hl
      simp only [StaysInside, hb, EncodeExit.ret.injEq, forall_eq', hr, hr', encodeExit, ne_eq,
        reduceCtorEq, not_false_eq_true, forall_const, hl', hl, ChunkDataFits, hd, hn, false_or]
      constructor <;> intro h <;> omega

end ChunkData

/-- What a packet that exists in memory satisfies: no string is larger than an object can be,
and no length field is negative. -/
structure Storable (pkt : McprPacket) : Prop where
  loginReason : strlen pkt.data.loginClientbound.disconnect.reason ≤ ptrdiffMax
  serverId : strlen pkt.data.loginClientbound.encryptionRequest.serverId ≤ ptrdiffMax
  publicKey : NonNegative pkt.data.loginClientbound.encryptionRequest.publicKeyLength
  verifyToken : NonNegative pkt.data.loginClientbound.encryptionRequest.verifyTokenLength
  username : strlen pkt.data.loginClientbound.loginSuccess.username ≤ ptrdiffMax
  jsonData : strlen pkt.data.playClientbound.chatMessage.jsonData ≤ ptrdiffMax
  reason : strlen pkt.data.playClientbound.disconnect.reason ≤ ptrdiffMax
  channel : strlen pkt.data.playClientbound.pluginMessage.channel ≤ ptrdiffMax
  data : pkt.data.playClientbound.pluginMessage.dataLength.toNat ≤ ptrdiffMax
  sections : ∀ s ∈ pkt.data.playClientbound.chunkData.chunkSections, SectionNonNegative s

/-- When a packet fits the buffer that is made for it. -/
def FitsBounds (envBounds envEncode : EncodeEnv) (pkt : McprPacket) : Prop :=
  match pkt.id with
  | .plCbChatMessage =>
    ChatMessageFits envBounds envEncode pkt.data.playClientbound.chatMessage
  | .plCbChunkData => ChunkDataFits envBounds envEncode pkt.data.playClientbound.chunkData
  | .stCbResponse => pkt.state = .handshake ∨ pkt.state = .status →
    ResponseFits envBounds envEncode pkt.data.status.response
  | _ => True

theorem Writes.stays_inside (promised : EncodeExit) {m : Encoder Unit} {n : ℕ} (h : Writes m n)
    (hn : ∀ bound, promised = .ret bound → n ≤ bound.toNat) : StaysInside promised m := by
  intro bound hb _
  have := h encodeStart
  have := hn bound hb
  simp only [encodeStart, List.length_nil] at *
  omega

theorem stays_inside_of_abort (m : Encoder Unit) : StaysInside .abort m :=
  fun _ h => nomatch h

/-- Nothing is written of a packet whose type has no number. -/
theorem abort_stays_inside (promised : EncodeExit) : StaysInside promised (exit .abort) :=
  fun _ _ _ => Nat.zero_le _

/-- A bound that is a number and the length of a string. -/
theorem stays_inside_string {m : Encoder Unit} (k : ℕ) (hk : k < 2^32) (s : List UInt8)
    (hs : strlen s ≤ ptrdiffMax) (h : Writes m (k+strlen s)) :
    StaysInside (.ret (sizeOfNat k+sizeOfNat (strlen s))) m := by
  refine h.stays_inside _ fun bound hb => ?_
  simp only [EncodeExit.ret.injEq] at hb
  simp only [ptrdiffMax] at hs
  simp only [← hb, UInt64.toNat_add, sizeOfNat_toNat]
  omega

theorem encryptionRequest_stays_inside (env : EncodeEnv) (p : EncryptionRequest)
    (hs : strlen p.serverId ≤ ptrdiffMax) (hk : NonNegative p.publicKeyLength)
    (hv : NonNegative p.verifyTokenLength) :
    StaysInside (.ret (20+sizeOfNat (strlen p.serverId)+sizeOfInt p.publicKeyLength+
      sizeOfInt p.verifyTokenLength)) (encodeEncryptionRequest env p) := by
  refine (writes_encodeEncryptionRequest env p).stays_inside _ fun bound hb => ?_
  simp only [EncodeExit.ret.injEq] at hb
  have hkn := sizeOfInt_toNat p.publicKeyLength
  have hvn := sizeOfInt_toNat p.verifyTokenLength
  have hk1 := p.publicKeyLength.isLt
  have hv1 := p.verifyTokenLength.isLt
  rw [hk.toInt] at hkn ⊢
  rw [hv.toInt] at hvn ⊢
  simp only [ptrdiffMax] at hs
  simp only [← hb, UInt64.toNat_add, sizeOfNat_toNat, UInt64.toNat_ofNat, Int.toNat_natCast]
  split_ifs at hkn hvn <;> omega

theorem pluginMessage_stays_inside (env : EncodeEnv) (p : PluginMessage)
    (hs : strlen p.channel ≤ ptrdiffMax) (hd : p.dataLength.toNat ≤ ptrdiffMax) :
    StaysInside (.ret (10+sizeOfNat (strlen p.channel)+p.dataLength))
      (encodePluginMessage env p) := by
  intro bound hb _
  simp only [EncodeExit.ret.injEq] at hb
  simp only [ptrdiffMax] at hs hd
  by_cases h20 : strlen p.channel > 20
  · simp [encodePluginMessage, h20, encodeStart]
  · have hw := writes_encodePluginMessage env p encodeStart
    simp only [encodeStart, List.length_nil] at hw ⊢
    simp only [← hb, UInt64.toNat_add, sizeOfNat_toNat, UInt64.toNat_ofNat]
    omega

/-- A packet stays inside the buffer that is allocated from its bound if and only if it
fits: every type does but three. -/
theorem mcprEncodePacket_bound_iff (envBounds envEncode : EncodeEnv) (pkt : McprPacket)
    (hp : Storable pkt) : BoundHolds envBounds envEncode pkt ↔ FitsBounds envBounds envEncode pkt := by
  rcases pkt with ⟨id, state, data⟩
  change StaysInside (mcprEncodePacketBounds envBounds ⟨id, state, data⟩)
    (encodeBody envEncode ⟨id, state, data⟩) ↔ _
  cases id
  case stCbResponse =>
    have hr := response_stays_inside_iff envBounds envEncode data.status.response
    cases state
    case handshake => exact hr.trans ⟨fun h _ => h, fun h => h (.inl rfl)⟩
    case status => exact hr.trans ⟨fun h _ => h, fun h => h (.inr rfl)⟩
    all_goals exact iff_of_true (stays_inside_of_abort _) fun h => by simp at h
  case stCbPong =>
    refine iff_of_true ?_ trivial
    have hw := (writes_encodePong envEncode data.status.pong).stays_inside
      (.ret 13) (by rintro _ ⟨⟩; decide)
    cases state
    case handshake => exact hw
    case status => exact hw
    all_goals exact stays_inside_of_abort _
  case lgCbDisconnect =>
    refine iff_of_true ?_ trivial
    have hw := stays_inside_string 10 (by decide) _ hp.loginReason
      (writes_encodeLoginDisconnect envEncode data.loginClientbound.disconnect)
    cases state
    case play => exact stays_inside_of_abort _
    all_goals exact hw
  case lgCbEncryptionRequest =>
    refine iff_of_true ?_ trivial
    have hw := encryptionRequest_stays_inside envEncode data.loginClientbound.encryptionRequest
      hp.serverId hp.publicKey hp.verifyToken
    cases state
    case play => exact stays_inside_of_abort _
    all_goals exact hw
  case lgCbLoginSuccess =>
    refine iff_of_true ?_ trivial
    have hw := stays_inside_string 51 (by decide) _ hp.username
      (writes_encodeLoginSuccess envEncode data.loginClientbound.loginSuccess)
    cases state
    case play => exact stays_inside_of_abort _
    all_goals exact hw
  case lgCbSetCompression =>
    refine iff_of_true ?_ trivial
    have hw := (writes_encodeSetCompression data.loginClientbound.setCompression).stays_inside
      (.ret 10) (by rintro _ ⟨⟩; decide)
    cases state
    case play => exact stays_inside_of_abort _
    all_goals exact hw
  case plCbChatMessage =>
    have hc := chatMessage_stays_inside_iff envBounds envEncode data.playClientbound.chatMessage
      hp.jsonData
    cases state <;> exact hc
  case plCbChunkData =>
    have hc := chunkData_stays_inside_iff envBounds envEncode data.playClientbound.chunkData
      hp.sections
    cases state <;> exact hc
  case plCbDisconnect =>
    refine iff_of_true ?_ trivial
    have hw := stays_inside_string 10 (by decide) _ hp.reason
      (writes_encodeDisconnect envEncode data.playClientbound.disconnect)
    cases state <;> exact hw
  case plCbKeepAlive =>
    refine iff_of_true ?_ trivial
    have hw := (writes_encodeKeepAlive data.playClientbound.keepAlive).stays_inside
      (.ret 10) (by rintro _ ⟨⟩; decide)
    cases state <;> exact hw
  case plCbJoinGame =>
    refine iff_of_true ?_ trivial
    have hw := (writes_encodeJoinGame envEncode data.playClientbound.joinGame).stays_inside
      (.ret 33) (by rintro _ ⟨⟩; decide)
    cases state <;> exact hw
  case plCbPluginMessage =>
    refine iff_of_true ?_ trivial
    have hw := pluginMessage_stays_inside envEncode data.playClientbound.pluginMessage hp.channel
      hp.data
    cases state <;> exact hw
  case plCbSpawnPosition =>
    refine iff_of_true ?_ trivial
    have hw := (writes_encodeSpawnPosition envEncode data.playClientbound.spawnPosition).stays_inside
      (.ret 13) (by rintro _ ⟨⟩; decide)
    cases state <;> exact hw
  case plCbPlayerAbilities =>
    refine iff_of_true ?_ trivial
    have hw := (writes_encodePlayerAbilities envEncode
      data.playClientbound.playerAbilities).stays_inside (.ret 14)
      (by rintro _ ⟨⟩; decide)
    cases state <;> exact hw
  case plCbPlayerPositionAndLook =>
    refine iff_of_true ?_ trivial
    have hw := (writes_encodePlayerPositionAndLook envEncode
      data.playClientbound.playerPositionAndLook).stays_inside (.ret 43)
      (by rintro _ ⟨⟩; decide)
    cases state <;> exact hw
  -- what is left are the serverbound types
  all_goals exact iff_of_true (abort_stays_inside _) trivial

theorem keep_alive_bounded : BoundHolds default default
    { (default : McprPacket) with id := .plCbKeepAlive, state := .play } :=
  (mcprEncodePacket_bound_iff _ _ _ (by constructor <;> decide)).mpr trivial

def chatMessageExample (jsonData : List UInt8) : McprPacket :=
  { (default : McprPacket) with
    id := .plCbChatMessage
    state := .play
    data := { (default : McprPacketData) with
      playClientbound := { (default : PlayClientbound) with
        chatMessage := { jsonData, position := .chat } } } }

/-- For `[true]` a buffer of no bytes is allocated, and eight are written. -/
theorem chat_message_not_bounded :
    ¬ BoundHolds default default (chatMessageExample (ascii "[true]")) := by
  intro h
  have := h 0 (by decide) (by decide)
  exact absurd this (by decide)

end Stronk.Mcpr
