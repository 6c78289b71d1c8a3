import Stronk.DecodeHeap
import Stronk.Reassembly

/-! Which contents of the receive buffer a connection can get over. A length prefix that cannot
be read leaves the buffer as it is, and so does every later call. -/
namespace Stronk.Mcpr
open ByteMemory EarlyExit
variable {κ : Type}

section Buffer

/-- What the reader would see if every byte from now on said that a VarInt goes on. -/
def NinioBuffer.fill (buf : NinioBuffer) : Mem := fun i =>
  if i < buf.size.toNat then buf.content i else 0xFF

/-- Nothing that can follow makes a packet of the front of a buffer: its length prefix is too
long or not positive, or a length that is buffered already overflows. -/
def Hopeless (buf : NinioBuffer) (state : McprState) : Prop :=
  match mcprDecodeVarint buf.content buf.size with
  | .error _ => mcprVarintSizeMax ≤ buf.size.toNat
  | .ok (pktlen, headerSize) => pktlen.toInt ≤ 0 ∨
      (walkFrame (shift buf.fill headerSize) state (UInt64.ofNat pktlen.toNat)).1 = .error .trap

/-- A buffer holds what another one holds, and maybe more. -/
structure Holds (buf buf' : NinioBuffer) : Prop where
  size : buf.size.toNat ≤ buf'.size.toNat
  content : AgreeOn buf.size.toNat buf.content buf'.content

theorem Holds.refl (buf : NinioBuffer) : Holds buf buf := ⟨le_refl _, agreeOn_refl _ _⟩

theorem Holds.trans {a b c : NinioBuffer} (h : Holds a b) (h' : Holds b c) : Holds a c :=
  ⟨h.size.trans h'.size, fun i hi => (h.content i hi).trans (h'.content i (by
    have := h.size
    omega))⟩

theorem NinioBuffer.fill_ff (buf : NinioBuffer) (i : ℕ) (hi : i ≥ buf.size.toNat) :
    buf.fill i = 0xFF := by
  simp [fill, not_lt.mpr hi]

theorem NinioBuffer.fill_content (buf : NinioBuffer) :
    AgreeOn buf.size.toNat buf.fill buf.content := by
  intro i hi
  simp only [fill, hi, ↓reduceIte]

theorem Holds.fill {buf buf' : NinioBuffer} (h : Holds buf buf') :
    AgreeOn buf.size.toNat buf.fill buf'.fill := by
  intro i hi
  have hi' : i < buf'.size.toNat := lt_of_lt_of_le hi h.size
  simp only [NinioBuffer.fill, hi, hi', ↓reduceIte]
  exact h.content i hi

/-- What is hopeless stays so. -/
theorem Hopeless.holds {buf buf' : NinioBuffer} {state : McprState} (h : Hopeless buf state)
    (hb : Holds buf buf') : Hopeless buf' state := by
  unfold Hopeless at h ⊢
  rcases hd : mcprDecodeVarint buf.content buf.size with message | ⟨pktlen, headerSize⟩ <;>
    rw [hd] at h <;> dsimp only at h
  · rcases hd' : mcprDecodeVarint buf'.content buf'.size with message' | ⟨pktlen, headerSize⟩
    · exact h.trans hb.size
    · -- five bytes do not end the prefix, whatever follows
      have hk := mcprDecodeVarint_size _ _ _ _ hd'
      have hback := mcprDecodeVarint_known buf'.content buf.content _ buf.size pktlen headerSize
        (fun i hi => (hb.content i (by omega)).symm) (by omega) hd'
      rw [hd] at hback
      contradiction
  · have hk := mcprDecodeVarint_size _ _ _ _ hd
    have hd' := mcprDecodeVarint_known buf.content buf'.content _ buf'.size pktlen headerSize
      (agreeOn_mono hb.content hk.2.2) (hk.2.2.trans hb.size) hd
    rw [hd']
    refine h.imp_right fun htrap => ?_
    refine walkFrame_trap_within _ _ (buf.size.toNat-headerSize) (fun i hi => ?_) ?_ _ _ htrap
    · exact buf.fill_ff _ (by omega)
    · exact agreeOn_shift hb.fill (by omega)

end Buffer

section Update
variable (cipher : Cipher κ) (env : ReadEnv) (step : ReadStep)

/-- An `fread` stores its bytes at an address that exists. -/
def ConnEvent.addressable : ConnEvent → Prop
  | .store off len _ => off+len ≤ ptrdiffMax
  | _ => True

/-- What was buffered stays buffered, and the connection is not closed. -/
structure Grows (o o' : ConnObjects κ) : Prop where
  buffer : Holds o.conn.receivingBuf o'.conn.receivingBuf
  state : o'.conn.state = o.conn.state
  isClosed : o'.conn.isClosed = o.conn.isClosed

/-- A part of a call, which grows the buffer where its stores are addressable. -/
def GrowsIf (o o' : ConnObjects κ) : Prop :=
  ∃ es, o'.log = o.log ++ es ∧ .fclose ∉ es ∧ ((∀ e ∈ es, e.addressable) → Grows o o')

theorem GrowsIf.of_conn {o o' : ConnObjects κ} (hlog : o'.log = o.log)
    (hbuf : Holds o.conn.receivingBuf o'.conn.receivingBuf) (hstate : o'.conn.state = o.conn.state)
    (hclosed : o'.conn.isClosed = o.conn.isClosed) : GrowsIf o o' :=
  ⟨[], by simp [hlog], by simp, fun _ => ⟨hbuf, hstate, hclosed⟩⟩

theorem GrowsIf.trans {o o' o'' : ConnObjects κ} (h : GrowsIf o o') (h' : GrowsIf o' o'') :
    GrowsIf o o'' := by
  obtain ⟨es, hes, hf, hg⟩ := h
  obtain ⟨es', hes', hf', hg'⟩ := h'
  refine ⟨es ++ es', by rw [hes', hes, List.append_assoc], by simp [hf, hf'], fun hall => ?_⟩
  have h1 := hg fun e he => hall e (List.mem_append_left _ he)
  have h2 := hg' fun e he => hall e (List.mem_append_right _ he)
  exact ⟨h1.buffer.trans h2.buffer, h2.state.trans h1.state, h2.isClosed.trans h1.isClosed⟩

instance : IsPreorder (ConnObjects κ) GrowsIf where
  refl _ := .of_conn rfl (.refl _) rfl rfl
  trans _ _ _ := GrowsIf.trans

theorem growBuffer_grows : Moves GrowsIf (growBuffer step : ConnProg κ Bool) := by
  refine Moves.get.bind fun o => Moves.ite (Moves.ite ?_ ?_) (Moves.pure _)
  · exact (Moves.modify fun o => .of_conn rfl (.refl _) rfl rfl).bind fun _ => Moves.pure _
  · exact (Moves.modify fun o => .of_conn rfl ⟨le_refl _, agreeOn_refl _ _⟩ rfl rfl).bind fun _ =>
      Moves.pure _

/-- Storing at the end of a buffer changes nothing before it. -/
theorem Holds.store (buf : NinioBuffer) (bytes : List UInt8) (n : ℕ)
    (hn : buf.size.toNat+n < 2^64) : Holds buf { buf with
      content := write buf.content buf.size.toNat bytes
      size := buf.size+sizeOfNat n } := by
  constructor
  · simp only [UInt64.toNat_add, sizeOfNat_toNat]
    omega
  · intro i hi
    simp [write, not_le.mpr hi]

theorem readBlock_grows (herr : step.ferror = false) :
    Moves GrowsIf (readBlock cipher env step) := by
  intro o
  cases hm : step.malloc with
  | false =>
    refine GrowsIf.of_conn ?_ ?_ ?_ ?_ <;> simp [readBlock, hm, setNinerr]
    exact .refl _
  | true =>
    simp only [readBlock, hm, bind_run, get_run, record, modify_run, freadStream, pure_run,
      Bool.true_eq_false, ↓reduceIte, herr, false_and, Bool.false_eq_true]
    rcases o.input.take (min blockSize step.ready) with _ | ⟨byte, rest⟩
    · exact ⟨[.store _ _ _], rfl, by simp, fun _ => ⟨.refl _, rfl, rfl⟩⟩
    · simp only [mcprCryptoDecrypt, bind_run, get_run]
      rcases hctx : o.conn.ctxDecrypt with _ | ctx
      · exact ⟨[.store _ _ _], rfl, by simp, fun _ => ⟨.refl _, rfl, rfl⟩⟩
      · cases hd : step.decryptUpdate with
        | false => exact ⟨[.store _ _ _], rfl, by simp, fun _ => ⟨.refl _, rfl, rfl⟩⟩
        | true =>
          refine ⟨[.store o.conn.receivingBuf.size.toNat blockSize o.conn.receivingBuf.maxSize.toNat,
            .receive [(cipher.decrypt ctx byte).1] true], ?_, by simp, fun hall => ⟨?_, rfl, rfl⟩⟩
          · simp [storeBytes, setBuf, setConn, record]
          · have haddr : o.conn.receivingBuf.size.toNat+1 ≤ ptrdiffMax := hall _ List.mem_cons_self
            simp only [ptrdiffMax] at haddr
            exact Holds.store _ [(cipher.decrypt ctx byte).1] 1 (by omega)

theorem readPlain_grows (herr : step.ferror = false) :
    Moves GrowsIf (readPlain cipher env step) := by
  intro o
  simp only [readPlain, bind_run, get_run, record, modify_run, freadStream, pure_run, herr,
    Bool.false_eq_true, false_and, ↓reduceIte]
  have hlen : (o.input.take (min 256 step.ready)).length ≤ 256 := by
    rw [List.length_take]
    omega
  split_ifs with hnil
  · exact ⟨[.store _ _ _], rfl, by simp, fun _ => ⟨.refl _, rfl, rfl⟩⟩
  · refine ⟨[.store o.conn.receivingBuf.size.toNat 256 o.conn.receivingBuf.maxSize.toNat,
      .receive (o.input.take (min 256 step.ready)) false], ?_, by simp, fun hall => ⟨?_, rfl, rfl⟩⟩
    · simp [storeBytes, setBuf, setConn, record]
    · have haddr : o.conn.receivingBuf.size.toNat+256 ≤ ptrdiffMax := hall _ List.mem_cons_self
      simp only [ptrdiffMax] at haddr
      exact Holds.store _ _ _ (by omega)

theorem updateTurn_grows (herr : step.ferror = false) :
    Moves GrowsIf (updateTurn cipher env step) := by
  refine (growBuffer_grows step).bind fun ok => Moves.ite (Moves.pure _) ?_
  exact Moves.get.bind fun o => Moves.ite (readBlock_grows cipher env step herr)
    (readPlain_grows cipher env step herr)

/-- The iostream does not fail. -/
def Errorless (env : ReadEnv) : Prop := ∀ step ∈ env.steps, step.ferror = false

theorem updateReceivingBuffer_grows (herr : Errorless env) :
    Moves GrowsIf (updateReceivingBuffer cipher env) :=
  updateLoop_moves cipher env (updateTurn_grows cipher env .quiet rfl) env.steps
    fun step hs => updateTurn_grows cipher env step (herr step hs)

end Update

section Calls
variable (cipher : Cipher κ)

/-- From now on, calls of `mcpr_connection_read_packet` return false. -/
inductive Later : ConnObjects κ → ConnObjects κ → Prop
  | refl (o : ConnObjects κ) : Later o o
  | step {o o' o'' : ConnObjects κ} {env : ReadEnv} {out out' : McprPacket} : Errorless env →
      (mcprConnectionReadPacket cipher env out).run o = (.ok ⟨false, out'⟩, o') →
      (∀ e ∈ newEvents o o', e.addressable) → Later o' o'' → Later o o''

/-- A call delivers a packet, or it closes the connection (in LOGIN and PLAY it begins to). -/
def Settles (o : ConnObjects κ) (r : Except Halt ReadResult × ConnObjects κ) : Prop :=
  (∃ out', r.1 = .ok ⟨true, out'⟩) ∨ r.2.conn.isClosed = true ∨ .fclose ∈ newEvents o r.2

/-- There are bytes that can arrive next, so that a later call settles the matter. -/
def Recoverable (o : ConnObjects κ) : Prop :=
  ∃ input o1 env out, Later cipher { o with input := input } o1 ∧ Errorless env ∧
    (∀ e ∈ newEvents o1 ((mcprConnectionReadPacket cipher env out).run o1).2, e.addressable) ∧
    Settles o1 ((mcprConnectionReadPacket cipher env out).run o1)

variable {cipher} {o o' : ConnObjects κ} {env : ReadEnv} {out : McprPacket}

theorem not_settles {r : Except Halt ReadResult × ConnObjects κ}
    (hnone : ∀ out', r.1 ≠ .ok ⟨true, out'⟩) (hopen : r.2.conn.isClosed = false)
    (hf : .fclose ∉ newEvents o r.2) : ¬ Settles o r := by
  intro hs
  rcases hs with ⟨out', hd⟩ | hc | hc
  · exact hnone out' hd
  · rw [hopen] at hc
    contradiction
  · exact hf hc

/-- A condition that calls keep without settling anything holds for ever. -/
def Traps (cipher : Cipher κ) (I : ConnObjects κ → Prop) : Prop :=
  ∀ o env out, I o → Errorless env →
    (∀ e ∈ newEvents o ((mcprConnectionReadPacket cipher env out).run o).2, e.addressable) →
    I ((mcprConnectionReadPacket cipher env out).run o).2 ∧
      ¬ Settles o ((mcprConnectionReadPacket cipher env out).run o)

/-- By induction on the calls: a connection in a trap is not recoverable, whatever arrives. -/
theorem Traps.not_recoverable {I : ConnObjects κ → Prop} (ht : Traps cipher I)
    (hinput : ∀ input, I { o with input := input }) : ¬ Recoverable cipher o := by
  have hlater (o1 o2 : ConnObjects κ) (hl : Later cipher o1 o2) (h : I o1) : I o2 := by
    induction hl with
    | refl => exact h
    | @step o1 o2 _ env out out' herr hr haddr _ ih =>
      have hcall := ht o1 env out h herr
      rw [hr] at hcall
      exact ih (hcall haddr).1
  rintro ⟨input, o1, env, out, hl, herr, haddr, hs⟩
  have h1 : I o1 := hlater _ _ hl (hinput input)
  exact (ht o1 env out h1 herr haddr).2 hs

/-- Nothing comes of a hopeless buffer. -/
theorem readFrame_hopeless (cipher : Cipher κ) (env : ReadEnv) (out : McprPacket) (h : Hopeless o.conn.receivingBuf o.conn.state) :
    (∀ out', ((readFrame cipher env out).run o).1 ≠ .ok ⟨true, out'⟩) ∧
      ((readFrame cipher env out).run o).2.conn = o.conn ∧
      ((readFrame cipher env out).run o).2.log = o.log := by
  by_cases hhead : ∃ headerSize pktlen, HeadFrame o.conn.receivingBuf headerSize pktlen
  · obtain ⟨headerSize, pktlen, hhead⟩ := hhead
    rw [readFrame_run cipher env out o hhead]
    split_ifs with hc
    · have htrap : (walkFrame (shift o.conn.receivingBuf.content headerSize) o.conn.state
          (UInt64.ofNat pktlen)).1 = .error .trap := by
        obtain ⟨v, hd, hv, rfl⟩ := hhead
        unfold Hopeless at h
        rw [hd] at h
        have hfill := h.resolve_left (not_le.mpr hv)
        have hin : headerSize+(o.conn.receivingBuf.size.toNat-headerSize) ≤
            o.conn.receivingBuf.size.toNat := by omega
        refine walkFrame_trap_within _ _ (o.conn.receivingBuf.size.toNat-headerSize) (fun i hi => ?_)
          (agreeOn_shift o.conn.receivingBuf.fill_content hin) _ _ hfill
        exact o.conn.receivingBuf.fill_ff _ (by omega)
      have hexit : (mcprDecodePacket env.decode out (shift o.conn.receivingBuf.content headerSize)
          o.conn.state (UInt64.ofNat pktlen)).exit = .trap := by
        have hrun := (decodeRun_trap_iff env.decode out).mpr htrap
        simp only [mcprDecodePacket, hrun, exitOf]
      rw [decodeFrame_trap cipher env out o _ _ rfl hexit]
      exact ⟨by simp, rfl, rfl⟩
    · exact ⟨by simp, rfl, rfl⟩
  · push Not at hhead
    obtain ⟨err, hr⟩ := readFrame_headless cipher env out o hhead
    rw [hr]
    exact ⟨by simp, rfl, rfl⟩

/-- A connection that is open and whose buffer is hopeless. -/
structure Wedged (o : ConnObjects κ) : Prop where
  hopeless : Hopeless o.conn.receivingBuf o.conn.state
  isOpen : o.conn.isClosed = false

theorem Wedged.grows (h : Wedged o) (hg : Grows o o') : Wedged o' := by
  refine ⟨?_, hg.isClosed.trans h.isOpen⟩
  rw [hg.state]
  exact h.hopeless.holds hg.buffer

/-- The log is only ever added to. -/
def LogGrows (o o' : ConnObjects κ) : Prop := ∃ es, o'.log = o.log ++ es

instance : IsPreorder (ConnObjects κ) LogGrows where
  refl _ := ⟨[], by simp⟩
  trans _ _ _ h h' := by
    obtain ⟨es, hes⟩ := h
    obtain ⟨es', hes'⟩ := h'
    exact ⟨es ++ es', by rw [hes', hes, List.append_assoc]⟩

theorem readFrame_logs (env : ReadEnv) (out : McprPacket) :
    Moves LogGrows (readFrame cipher env out) := by
  have hfail (err : Ninerr) : Moves LogGrows (do
      setNinerr err
      return ⟨false, out⟩ : ConnProg κ ReadResult) :=
    Moves.bind (Moves.modify fun o => ⟨[], by simp⟩) fun _ => Moves.pure _
  refine Moves.get.bind fun o => Moves.ite (Moves.pure _) ?_
  split
  · exact hfail _
  · refine Moves.ite (hfail _) (Moves.ite ?_ (Moves.pure _))
    refine Moves.get.bind fun o => ?_
    dsimp only
    refine Moves.bind (Moves.modify fun o => ⟨[], by simp⟩) fun _ => ?_
    split
    · exact Moves.exit _
    · refine Moves.ite (Moves.bind ?_ fun _ => Moves.pure _) (Moves.bind ?_ fun _ => Moves.pure _)
      · intro o1
        obtain ⟨es, hes, -⟩ := (mcprConnectionClose_keeps cipher env.closing env.fuel none o1).log
        exact ⟨es, hes⟩
      · refine Moves.get.bind fun o1 => Moves.bind (Moves.modify fun o2 => ⟨[_], rfl⟩) fun _ => ?_
        exact Moves.ite (Moves.exit _) (Moves.modify fun o => ⟨[], by simp⟩)

/-- What a call does that leaves the buffer to `readFrame` after an update. -/
theorem readPacket_events (out : McprPacket) {es : List ConnEvent} {ok : Bool} {o1 : ConnObjects κ}
    (hr : (updateReceivingBuffer cipher env).run o = (.ok ok, o1)) (hes : o1.log = o.log ++ es) :
    (mcprConnectionReadPacket cipher env out).run o = (readFrame cipher env out).run o1 ∧
      newEvents o ((readFrame cipher env out).run o1).2 =
        es ++ newEvents o1 ((readFrame cipher env out).run o1).2 := by
  constructor
  · simp only [mcprConnectionReadPacket, bind_run, hr]
  · obtain ⟨es', hes'⟩ := readFrame_logs env out o1
    rw [newEvents_append o1 _ es' hes', newEvents_append o _ (es ++ es')]
    rw [hes', hes, List.append_assoc]

/-- A call on a wedged connection does not settle anything, and leaves it wedged. -/
theorem wedged_traps (cipher : Cipher κ) : Traps cipher Wedged := by
  intro o env out h herr haddr
  have hupdate := updateReceivingBuffer_grows cipher env herr o
  rcases hr : (updateReceivingBuffer cipher env).run o with ⟨e | ok, o1⟩ <;>
    rw [hr] at hupdate <;> obtain ⟨es, hes, hf, hg⟩ := hupdate
  · simp only [mcprConnectionReadPacket, bind_run, hr] at haddr ⊢
    rw [newEvents_append _ _ es hes] at haddr
    have h1 := h.grows (hg haddr)
    refine ⟨h1, not_settles (by simp) h1.isOpen ?_⟩
    rw [newEvents_append _ _ es hes]
    exact hf
  · obtain ⟨hcall, hnew⟩ := readPacket_events out hr hes
    rw [hcall] at haddr ⊢
    rw [hnew] at haddr
    have h1 := h.grows (hg fun e he => haddr e (List.mem_append_left _ he))
    obtain ⟨hfalse, hconn, hlog⟩ := readFrame_hopeless cipher env out h1.hopeless
    have h2 : Wedged ((readFrame cipher env out).run o1).2 := by
      constructor
      · rw [hconn]
        exact h1.hopeless
      · rw [hconn]
        exact h1.isOpen
    refine ⟨h2, not_settles hfalse h2.isOpen ?_⟩
    rw [hnew, newEvents_append _ _ [] (by simp [hlog]), List.append_nil]
    exact hf

theorem Wedged.not_recoverable (h : Wedged o) : ¬ Recoverable cipher o :=
  (wedged_traps cipher).not_recoverable fun _ => ⟨h.hopeless, h.isOpen⟩

end Calls

end Stronk.Mcpr
