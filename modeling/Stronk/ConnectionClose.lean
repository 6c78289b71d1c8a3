import Stronk.McprConnection

/-! What writing on a connection changes, and when `mcpr_connection_close` comes to an end: the
packet stream calls it back from `fclose`. -/
namespace Stronk.Mcpr
open ByteMemory EarlyExit
variable {κ : Type}

section Frame

/-- From `o` to `o'` nothing but writing happened, encrypted as `encrypted` says. -/
structure OnlySends (encrypted : Bool) (o o' : ConnObjects κ) : Prop where
  conn : { o'.conn with ctxEncrypt := o.conn.ctxEncrypt } = o.conn
  input : o'.input = o.input
  log : ∃ events, o'.log = o.log ++ events ∧ ∀ e ∈ events,
    (∃ bytes, e = .send bytes encrypted) ∨ ∃ id, e = .writePacket id

variable {encrypted : Bool}

theorem OnlySends.refl (o : ConnObjects κ) : OnlySends encrypted o o :=
  ⟨rfl, rfl, [], by simp, by simp⟩

theorem OnlySends.trans {o o' o'' : ConnObjects κ} (h : OnlySends encrypted o o')
    (h' : OnlySends encrypted o' o'') : OnlySends encrypted o o'' := by
  obtain ⟨es, hes, hall⟩ := h.log
  obtain ⟨es', hes', hall'⟩ := h'.log
  refine ⟨?_, h'.input.trans h.input, es ++ es', by rw [hes', hes, List.append_assoc], ?_⟩
  · rw [← h.conn, ← h'.conn]
  · intro e he
    rcases List.mem_append.mp he with he | he
    · exact hall e he
    · exact hall' e he

instance : IsPreorder (ConnObjects κ) (OnlySends encrypted) where
  refl := OnlySends.refl
  trans _ _ _ := OnlySends.trans

theorem moves_setNinerr (err : Ninerr) :
    Moves (OnlySends encrypted) (setNinerr err : ConnProg κ Unit) :=
  Moves.modify fun _ => ⟨rfl, rfl, [], by simp, by simp⟩

theorem moves_fail (err : Ninerr) {α : Type} (a : α) :
    Moves (OnlySends encrypted) (do setNinerr err; return a : ConnProg κ α) :=
  (moves_setNinerr err).bind fun _ => Moves.pure a

variable (cipher : Cipher κ) (env : WriteEnv)

theorem moves_mcprCryptoEncrypt (data : List UInt8) :
    Moves (OnlySends encrypted) (mcprCryptoEncrypt cipher env data) := by
  refine Moves.get.bind fun o => Moves.ite (moves_fail _ _) ?_
  rcases o.conn.ctxEncrypt with _ | ctx
  · exact Moves.exit _
  · refine Moves.ite (Moves.bind ?_ fun _ => Moves.pure _) (moves_fail _ _)
    exact Moves.modify fun _ => ⟨rfl, rfl, [], by simp, by simp⟩

theorem moves_mcprCompress (bytes : List UInt8) :
    Moves (OnlySends encrypted) (mcprCompress env bytes : ConnProg κ _) := by
  unfold mcprCompress
  split
  · exact Moves.pure _
  · exact moves_fail _ _
  · exact (Moves.modify fun _ => ⟨rfl, rfl, [], by simp, by simp⟩).bind fun _ => Moves.pure _

theorem moves_fwriteStream (bytes : List UInt8) :
    Moves (OnlySends encrypted) (fwriteStream env bytes encrypted : ConnProg κ _) :=
  (Moves.modify fun _ => ⟨rfl, rfl, [.send bytes encrypted], rfl, by simp⟩).bind fun _ =>
    Moves.pure _

theorem moves_writeCompressed (bytes : List UInt8) :
    Moves (OnlySends encrypted) (writeCompressed env bytes encrypted : ConnProg κ _) := by
  refine Moves.ite (moves_fail _ _) ((moves_mcprCompress env bytes).bind fun compressed => ?_)
  rcases compressed with _ | compressed
  · exact Moves.pure _
  · exact (moves_fwriteStream env compressed).bind fun _ => Moves.ite (Moves.pure _) (Moves.pure _)

/-- Nothing but writing happened, encrypted if the connection is. -/
def Sends (o o' : ConnObjects κ) : Prop := OnlySends o.conn.useEncryption o o'

section Sends
variable {o o' o'' : ConnObjects κ}

theorem Sends.useEncryption (h : Sends o o') : o'.conn.useEncryption = o.conn.useEncryption := by
  rw [← h.conn]

theorem Sends.state (h : Sends o o') : o'.conn.state = o.conn.state := by
  rw [← h.conn]

theorem Sends.isClosed (h : Sends o o') : o'.conn.isClosed = o.conn.isClosed := by
  rw [← h.conn]

theorem Sends.trans (h : Sends o o') (h' : Sends o' o'') : Sends o o'' := by
  rw [Sends, h.useEncryption] at h'
  exact OnlySends.trans h h'

end Sends

instance : IsPreorder (ConnObjects κ) Sends where
  refl := fun o => OnlySends.refl o
  trans _ _ _ := Sends.trans

theorem sends_fail (err : Ninerr) {α : Type} (a : α) :
    Moves Sends (do setNinerr err; return a : ConnProg κ α) := fun o => moves_fail err a o

/-- Everything goes out encrypted, or everything plain, as the flag of the connection says. -/
theorem mcprConnectionWrite_sends (bytes : List UInt8) :
    Moves Sends (mcprConnectionWrite cipher env bytes) := by
  intro o
  simp only [Sends, mcprConnectionWrite, bind_run, get_run]
  cases o.conn.useEncryption with
  | true =>
    refine (Moves.ite (moves_fail _ _) ((moves_mcprCryptoEncrypt cipher env bytes).bind
      fun encrypted => ?_)) o
    rcases encrypted with _ | encrypted
    · exact Moves.pure _
    · exact Moves.ite (moves_writeCompressed env encrypted)
        ((moves_fwriteStream env encrypted).bind fun _ => Moves.pure _)
  | false =>
    exact Moves.ite (moves_writeCompressed env bytes)
      ((moves_fwriteStream env bytes).bind fun _ => Moves.pure _) o

theorem writeEncoded_sends (id : McprPacketType) (pktlen : UInt64) (encoded : List UInt8) :
    Moves Sends (writeEncoded cipher env id pktlen encoded) := by
  refine Moves.ite (Moves.pure _) (Moves.ite (sends_fail _ _) ?_)
  refine (mcprConnectionWrite_sends cipher env _).bind fun ok => Moves.ite ?_ (Moves.pure _)
  exact (Moves.modify fun _ => ⟨rfl, rfl, [.writePacket id], rfl, by simp⟩).bind fun _ =>
    Moves.pure _

theorem mcprConnectionWritePacket_sends (pkt : McprPacket) :
    Moves Sends (mcprConnectionWritePacket cipher env pkt) := by
  unfold mcprConnectionWritePacket
  split
  · exact Moves.exit _
  · exact Moves.exit _
  · exact Moves.exit _
  · refine Moves.ite (sends_fail _ _) (Moves.ite (Moves.exit _) ?_)
    refine (Moves.modify fun _ => ⟨rfl, rfl, [], by simp, by simp⟩).bind fun _ => ?_
    split
    · exact Moves.exit _
    · exact Moves.exit _
    · exact writeEncoded_sends cipher env _ _ _

theorem mcprConnectionStreamWrite_sends (size : PacketSize) (pkt : McprPacket) (n : ℕ) :
    Moves Sends (mcprConnectionStreamWrite cipher env size pkt n) :=
  Moves.ite (Moves.exit _) ((mcprConnectionWritePacket_sends cipher env pkt).bind fun _ =>
    Moves.pure _)

end Frame

section Close
variable (cipher : Cipher κ) (closing : ℕ → WriteEnv)

/-- The states in which closing tells the other side. -/
def Conn.talks (c : Conn κ) : Prop := c.state = .login ∨ c.state = .play

instance (c : Conn κ) : Decidable c.talks := inferInstanceAs (Decidable (_ ∨ _))

/-- Nothing happened that concerns receiving: no byte arrived, was stored or was taken off. -/
structure KeepsStream (o o' : ConnObjects κ) : Prop where
  conn : { o'.conn with ctxEncrypt := o.conn.ctxEncrypt, isClosed := o.conn.isClosed } = o.conn
  input : o'.input = o.input
  log : ∃ events, o'.log = o.log ++ events ∧ ∀ e ∈ events,
    (∃ bytes encrypted, e = .send bytes encrypted) ∨ (∃ id, e = .writePacket id) ∨ e = .fclose

theorem KeepsStream.of_conn {o o' : ConnObjects κ} (h : { o'.conn with
    ctxEncrypt := o.conn.ctxEncrypt, isClosed := o.conn.isClosed } = o.conn)
    (hi : o'.input = o.input) (hl : o'.log = o.log) : KeepsStream o o' :=
  ⟨h, hi, [], by simp [hl], by simp⟩

theorem KeepsStream.trans {o o' o'' : ConnObjects κ} (h : KeepsStream o o')
    (h' : KeepsStream o' o'') : KeepsStream o o'' := by
  obtain ⟨es, hes, hall⟩ := h.log
  obtain ⟨es', hes', hall'⟩ := h'.log
  refine ⟨?_, h'.input.trans h.input, es ++ es', by rw [hes', hes, List.append_assoc], ?_⟩
  · rw [← h.conn, ← h'.conn]
  · intro e he
    rcases List.mem_append.mp he with he | he
    · exact hall e he
    · exact hall' e he

instance : IsPreorder (ConnObjects κ) KeepsStream where
  refl _ := KeepsStream.of_conn rfl rfl rfl
  trans _ _ _ := KeepsStream.trans

theorem Sends.keepsStream {o o' : ConnObjects κ} (h : Sends o o') : KeepsStream o o' := by
  obtain ⟨es, hes, hall⟩ := h.log
  refine ⟨?_, h.input, es, hes, fun e he => ?_⟩
  · rw [← h.conn]
  · rcases hall e he with ⟨bytes, rfl⟩ | ⟨id, rfl⟩
    · exact .inl ⟨_, _, rfl⟩
    · exact .inr (.inl ⟨_, rfl⟩)

/-- Closing leaves what was received alone, however deep it gets. -/
theorem mcprConnectionClose_keeps (fuel : ℕ) (reason : Option (List UInt8)) :
    Moves KeepsStream (mcprConnectionClose cipher closing fuel reason) := by
  have hmark (e : ConnEvent) (he : e = .fclose) : Moves KeepsStream (record e : ConnProg κ Unit) :=
    Moves.modify fun _ => ⟨rfl, rfl, [e], rfl, by simp [he]⟩
  have hend : Moves KeepsStream (setConn fun c => { c with isClosed := true } : ConnProg κ Unit) :=
    Moves.modify fun _ => KeepsStream.of_conn rfl rfl rfl
  induction fuel using Nat.strongRecOn generalizing reason with
  | ind fuel ih =>
    rcases fuel with _ | fuel
    · exact Moves.exit _
    · refine Moves.get.bind fun o => Moves.ite (Moves.pure _) ?_
      refine (Moves.ite ?_ (Moves.pure _)).bind fun _ => hend
      refine Moves.bind (fun p => (mcprConnectionWritePacket_sends cipher _ _ p).keepsStream)
        fun _ => (hmark _ rfl).bind fun _ => ?_
      rcases fuel with _ | fuel
      · exact Moves.exit _
      · exact ih fuel (by omega) none

/-- Closing is over at once for a connection that is closed already or that has nobody to tell. -/
theorem mcprConnectionClose_quiet (fuel : ℕ) (reason : Option (List UInt8)) (o : ConnObjects κ)
    (h : o.conn.isClosed = true ∨ ¬ o.conn.talks) :
    (mcprConnectionClose cipher closing (fuel+1) reason).run o =
      (.ok (), { o with conn := { o.conn with isClosed := true } }) := by
  rcases o with ⟨conn, input, log, ninerr⟩
  rcases hc : conn.isClosed with _ | _
  · have ht : ¬ (conn.state = .login ∨ conn.state = .play) := by
      simpa [hc, Conn.talks] using h
    simp [mcprConnectionClose, hc, ht, setConn]
  · rcases conn
    cases hc
    simp [mcprConnectionClose]

/-- On an open connection with somebody to tell, closing never returns: the close function of
the packet stream finds the connection open, and closes it again. -/
theorem mcprConnectionClose_never (fuel : ℕ) (reason : Option (List UInt8)) (o : ConnObjects κ)
    (hopen : o.conn.isClosed = false) (ht : o.conn.talks) :
    ((mcprConnectionClose cipher closing fuel reason).run o).1 ≠ .ok () := by
  induction fuel using Nat.strongRecOn generalizing reason o with
  | ind fuel ih =>
    rcases fuel with _ | fuel
    · simp [mcprConnectionClose]
    · have hw := mcprConnectionWritePacket_sends cipher (closing fuel) (disconnectPacket o.conn.state
        (reason.getD (ascii "\x7b\"text\":\"Disconnected by server.\"\x7d"))) o
      have ht' : o.conn.state = .login ∨ o.conn.state = .play := ht
      simp only [mcprConnectionClose, bind_run, get_run, hopen, ht', Bool.false_eq_true, ↓reduceIte]
      rcases hr : (mcprConnectionWritePacket cipher (closing fuel) _).run o with ⟨e | ok, o'⟩
      · simp
      · rw [hr] at hw
        have hstate : o'.conn.state = o.conn.state := hw.state
        -- the write leaves the connection open and in the same state
        rcases fuel with _ | fuel
        · simp [record, mcprConnectionStreamClose]
        · have hnever := ih fuel (by omega) none { o' with log := o'.log ++ [.fclose] }
            (hw.isClosed.trans hopen) (by simpa only [Conn.talks, hstate] using ht')
          simp only [record, modify_run, mcprConnectionStreamClose]
          rcases hs : (mcprConnectionClose cipher closing fuel none).run _ with ⟨e | ⟨⟩, o''⟩
          · simp
          · rw [hs] at hnever
            exact absurd rfl hnever

/-- How often `e` is logged from `o` to `o'`. -/
def timesLogged (e : ConnEvent) (o o' : ConnObjects κ) : ℕ := o'.log.count e-o.log.count e

/-- Closing comes to an end, tells the other side at most once, closes the packet stream at
most once and leaves the connection closed. -/
def ClosesOnce (reason : Option (List UInt8)) (o : ConnObjects κ) : Prop :=
  ∃ enough, ∀ fuel ≥ enough, ∃ o',
    (mcprConnectionClose cipher closing fuel reason).run o = (.ok (), o') ∧
      timesLogged (.writePacket .plCbDisconnect) o o' ≤ 1 ∧ timesLogged .fclose o o' ≤ 1 ∧
        o'.conn.isClosed = true

/-- Closing ends as it should if and only if the connection is closed already or is not in a
state in which the other side is told. -/
theorem mcprConnectionClose_once_iff (reason : Option (List UInt8)) (o : ConnObjects κ) :
    ClosesOnce cipher closing reason o ↔
      o.conn.isClosed = true ∨ o.conn.state = .handshake ∨ o.conn.state = .status := by
  constructor
  · rintro ⟨enough, h⟩
    obtain ⟨o', hrun, -⟩ := h enough (le_refl _)
    by_contra hn
    simp only [not_or, Bool.not_eq_true] at hn
    obtain ⟨hopen, hh, hs⟩ := hn
    have ht : o.conn.talks := by
      unfold Conn.talks
      cases hst : o.conn.state <;> simp [hst] at hh hs ⊢
    exact mcprConnectionClose_never cipher closing enough reason o hopen ht (by rw [hrun])
  · intro h
    have hq : o.conn.isClosed = true ∨ ¬ o.conn.talks := by
      refine h.imp_right fun h => ?_
      rintro (ht | ht) <;> simp [ht] at h
    refine ⟨1, fun fuel hf => ?_⟩
    obtain ⟨fuel, rfl⟩ := Nat.exists_eq_add_of_le' hf
    exact ⟨_, mcprConnectionClose_quiet cipher closing fuel reason o hq, by simp [timesLogged],
      by simp [timesLogged], rfl⟩

end Close

section Example

/-- Every byte is its own encryption. -/
def cipherExample : Cipher Unit := { encrypt := fun _ b => (b, ()), decrypt := fun _ b => (b, ()) }

def loginExample : ConnObjects Unit :=
  let o := mcprConnectionNew (fun _ => 0) []
  { o with conn := { o.conn with state := .login } }

/-- Once a client has asked to log in, its connection cannot be closed. -/
theorem login_close_never_ends :
    ¬ ClosesOnce cipherExample default none loginExample := by
  rintro ⟨enough, h⟩
  obtain ⟨o', hrun, -⟩ := h enough (le_refl _)
  exact mcprConnectionClose_never cipherExample _ enough none loginExample rfl (.inl rfl)
    (by rw [hrun])

end Example

end Stronk.Mcpr
