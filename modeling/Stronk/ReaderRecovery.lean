import Stronk.RejectedFrames
import Stronk.WedgedReader

/-! How a connection gets over what is in its receive buffer: bytes can follow that complete the
length prefix, and the frame behind it. -/
namespace Stronk.Mcpr
open ByteMemory EarlyExit
variable {κ : Type}

section Feed

/-- From `o` to `o'` the end of the buffer moved by `n`, and the bytes right after the old end are
those of `want`. -/
structure Fed (want : Mem) (n : ℕ) (o o' : ConnObjects κ) : Prop where
  size : o'.conn.receivingBuf.size.toNat = o.conn.receivingBuf.size.toNat+n
  held : AgreeOn o.conn.receivingBuf.size.toNat o.conn.receivingBuf.content
    o'.conn.receivingBuf.content
  fresh : ∀ i, o.conn.receivingBuf.size.toNat ≤ i → i < o.conn.receivingBuf.size.toNat+256 →
    i < o'.conn.receivingBuf.size.toNat → o'.conn.receivingBuf.content i = want i
  state : o'.conn.state = o.conn.state
  isClosed : o'.conn.isClosed = o.conn.isClosed
  encryption : o'.conn.useEncryption = o.conn.useEncryption
  context : o'.conn.ctxDecrypt.isSome = o.conn.ctxDecrypt.isSome
  log : ∃ es, o'.log = o.log ++ es ∧ ∀ e ∈ es, e.addressable

variable {want : Mem} {n k : ℕ} {o o' o'' : ConnObjects κ}

theorem Fed.trans (h : Fed want n o o') (h' : Fed want k o' o'') : Fed want (n+k) o o'' := by
  have hsize := h.size
  have hsize' := h'.size
  obtain ⟨es, hes, hall⟩ := h.log
  obtain ⟨es', hes', hall'⟩ := h'.log
  refine ⟨by omega, fun i hi => ?_, fun i hlo hhi hi => ?_, h'.state.trans h.state,
    h'.isClosed.trans h.isClosed, h'.encryption.trans h.encryption, h'.context.trans h.context,
    es ++ es', by rw [hes', hes, List.append_assoc], fun e he => ?_⟩
  · exact (h.held i hi).trans (h'.held i (by omega))
  · by_cases hold : i < o'.conn.receivingBuf.size.toNat
    · rw [← h'.held i hold]
      exact h.fresh i hlo hhi hold
    · exact h'.fresh i (by omega) (by omega) hi
  · exact (List.mem_append.mp he).elim (hall e) (hall' e)

/-- A turn in which as much has arrived as is read at once. -/
def fullTurn : ReadStep := { ReadStep.quiet with ready := 256 }

/-- How far a turn moves the end of the buffer. -/
def Conn.stride (c : Conn κ) : ℕ := if c.useEncryption then 1 else 65536

/-- A connection that encrypts has a context to decrypt with. -/
def Decryptable (o : ConnObjects κ) : Prop :=
  o.conn.useEncryption = true → o.conn.ctxDecrypt.isSome = true

/-- The connection with room for a block more. -/
def roomy (o : ConnObjects κ) : ConnObjects κ :=
  { o with conn := { o.conn with receivingBuf := { o.conn.receivingBuf with
    maxSize := if o.conn.receivingBuf.maxSize < o.conn.receivingBuf.size+sizeOfNat blockSize
      then o.conn.receivingBuf.maxSize+sizeOfNat (blockSize*256)
      else o.conn.receivingBuf.maxSize } } }

theorem fed_roomy (want : Mem) (o : ConnObjects κ) : Fed want 0 o (roomy o) :=
  ⟨rfl, agreeOn_refl _ _, fun i hlo _ hi => absurd hi (not_lt.mpr hlo), rfl, rfl, rfl, rfl,
    [], by simp [roomy], by simp⟩

theorem growBuffer_roomy (step : ReadStep) (hstep : step.realloc = true) (o : ConnObjects κ)
    (hsize : o.conn.receivingBuf.size.toNat < 2^61) :
    (growBuffer step).run o = (.ok true, roomy o) := by
  have h1 : (sizeOfNat blockSize).toNat = 1 := by decide
  have h256 : (sizeOfNat (blockSize*256)).toNat = 256 := by decide
  simp only [growBuffer, bind_run, get_run, roomy]
  split_ifs with hlt hfail
  · exfalso
    rw [UInt64.lt_iff_toNat_lt, UInt64.toNat_add, h1] at hlt
    rcases hfail with hfail | hfail
    · rw [UInt64.toNat_add, h256, ptrdiffMax] at hfail
      omega
    · rw [hstep] at hfail
      contradiction
  · rfl
  · rfl

variable (cipher : Cipher κ) (env : ReadEnv)

/-- A program takes some block off the front of the input, and feeds the buffer with it. -/
def Feeds (m : ConnProg κ (Option Bool)) (want : Mem) (n : ℕ) (o : ConnObjects κ) : Prop :=
  ∃ block o', (∀ rest, m.run { o with input := block ++ rest } = (.ok none, { o' with input := rest })) ∧
    Fed want n o o'

/-- Every plain byte is what some byte decrypts to. -/
def Cipher.Onto (cipher : Cipher κ) : Prop := ∀ ctx p, ∃ c, (cipher.decrypt ctx c).1 = p

/-- The connection once `bytes` were stored at the end of its buffer and the end moved by `n`. -/
def received (o : ConnObjects κ) (bytes : List UInt8) (n : ℕ) (ctx : Option κ)
    (es : List ConnEvent) : ConnObjects κ :=
  { o with
    conn := { o.conn with
      ctxDecrypt := ctx
      receivingBuf := { o.conn.receivingBuf with
        content := write o.conn.receivingBuf.content o.conn.receivingBuf.size.toNat bytes
        size := o.conn.receivingBuf.size+sizeOfNat n } }
    log := o.log ++ es }

theorem fed_received (want : Mem) (o : ConnObjects κ) (len n : ℕ) (ctx : Option κ)
    (es : List ConnEvent) (hctx : ctx.isSome = o.conn.ctxDecrypt.isSome)
    (hes : ∀ e ∈ es, e.addressable) (hlen : len = min n 256)
    (hsize : o.conn.receivingBuf.size.toNat+n < 2^64) :
    Fed want n o (received o (read (shift want o.conn.receivingBuf.size.toNat) len) n ctx es) := by
  have hn : (received o (read (shift want o.conn.receivingBuf.size.toNat) len) n ctx
      es).conn.receivingBuf.size.toNat = o.conn.receivingBuf.size.toNat+n := by
    simp only [received, UInt64.toNat_add, sizeOfNat_toNat]
    omega
  have hholds := Holds.store o.conn.receivingBuf
    (read (shift want o.conn.receivingBuf.size.toNat) len) n hsize
  refine ⟨hn, hholds.content, fun i hlo hhi hi => ?_, rfl, rfl, rfl, hctx, es, rfl, hes⟩
  rw [hn] at hi
  have hin : i-o.conn.receivingBuf.size.toNat < len := by omega
  have hlt : i < o.conn.receivingBuf.size.toNat+len := by omega
  simp [received, write, hlo, hlt, List.getD_eq_getElem?_getD, hin, Nat.add_sub_of_le hlo]

theorem readBlock_feeds (hcipher : cipher.Onto) (want : Mem) (o : ConnObjects κ)
    (hctx : o.conn.ctxDecrypt.isSome = true) (hsize : o.conn.receivingBuf.size.toNat < 2^61) :
    Feeds (readBlock cipher env fullTurn) want 1 o := by
  obtain ⟨ctx, hctx⟩ := Option.isSome_iff_exists.mp hctx
  obtain ⟨c, hc⟩ := hcipher ctx (want o.conn.receivingBuf.size.toNat)
  have hone : read (shift want o.conn.receivingBuf.size.toNat) 1 =
      [want o.conn.receivingBuf.size.toNat] := by
    simp [ByteMemory.read]
  refine ⟨[c], received o (read (shift want o.conn.receivingBuf.size.toNat) 1) 1
    (some (cipher.decrypt ctx c).2)
    [.store o.conn.receivingBuf.size.toNat blockSize o.conn.receivingBuf.maxSize.toNat,
      .receive (read (shift want o.conn.receivingBuf.size.toNat) 1) true], fun rest => ?_, ?_⟩
  · simp [readBlock, fullTurn, ReadStep.quiet, record, freadStream, blockSize, mcprCryptoDecrypt,
      hctx, hc, setConn, storeBytes, setBuf, received, hone]
  · refine fed_received want o 1 1 _ _ (by simp [hctx]) (fun e he => ?_) (by decide) (by omega)
    simp only [List.mem_cons, List.not_mem_nil, or_false] at he
    rcases he with rfl | rfl
    · simp only [ConnEvent.addressable, blockSize, ptrdiffMax]
      omega
    · trivial

theorem readPlain_feeds (want : Mem) (o : ConnObjects κ)
    (hsize : o.conn.receivingBuf.size.toNat < 2^61) :
    Feeds (readPlain cipher env fullTurn) want 65536 o := by
  obtain ⟨block, hblock⟩ : ∃ block, read (shift want o.conn.receivingBuf.size.toNat) 256 = block :=
    ⟨_, rfl⟩
  have hlen : block.length = 256 := by
    rw [← hblock, read_length]
  have hne : block ≠ [] := by
    intro hnil
    simp [hnil] at hlen
  refine ⟨block, received o block 65536 o.conn.ctxDecrypt
    [.store o.conn.receivingBuf.size.toNat 256 o.conn.receivingBuf.maxSize.toNat,
      .receive block false], fun rest => ?_, ?_⟩
  · have htake : (block ++ rest).take 256 = block := by rw [← hlen, List.take_left]
    have hdrop : (block ++ rest).drop 256 = rest := by rw [← hlen, List.drop_left]
    simp [readPlain, fullTurn, ReadStep.quiet, record, freadStream, htake, hdrop, hne, hlen, setConn,
      storeBytes, setBuf, received]
  · rw [← hblock]
    refine fed_received want o 256 65536 _ _ rfl (fun e he => ?_) (by decide) (by omega)
    simp only [List.mem_cons, List.not_mem_nil, or_false] at he
    rcases he with rfl | rfl
    · simp only [ConnEvent.addressable, ptrdiffMax]
      omega
    · trivial

theorem updateTurn_feeds (hcipher : cipher.Onto) (want : Mem) (o : ConnObjects κ)
    (hctx : Decryptable o) (hsize : o.conn.receivingBuf.size.toNat < 2^61) :
    Feeds (updateTurn cipher env fullTurn) want o.conn.stride o := by
  have hread : Feeds (if o.conn.useEncryption then readBlock cipher env fullTurn
      else readPlain cipher env fullTurn) want o.conn.stride (roomy o) := by
    unfold Conn.stride
    split
    · exact readBlock_feeds cipher env hcipher want (roomy o) (hctx ‹_›) hsize
    · exact readPlain_feeds cipher env want (roomy o) hsize
  obtain ⟨block, o', hrun, hf⟩ := hread
  refine ⟨block, o', fun rest => ?_, ?_⟩
  · rw [← hrun rest]
    simp only [updateTurn, bind_run, growBuffer_roomy fullTurn rfl { o with input := block ++ rest }
      hsize, Bool.true_eq_false, ↓reduceIte, get_run]
    rfl
  · have := (fed_roomy want o).trans hf
    rwa [Nat.zero_add] at this

/-- A turn in which nothing has arrived ends the loop. -/
theorem updateTurn_idle (want : Mem) (o : ConnObjects κ)
    (hsize : o.conn.receivingBuf.size.toNat < 2^61) :
    ∃ ok o', (updateTurn cipher env .quiet).run { o with input := [] } = (.ok (some ok), o') ∧
      Fed want 0 o o' := by
  have hgrow := growBuffer_roomy .quiet rfl { o with input := [] } hsize
  obtain ⟨r, hr⟩ : ∃ r, roomy { o with input := [] } = r := ⟨_, rfl⟩
  rw [hr] at hgrow
  have hin : r.input = [] := by rw [← hr]; rfl
  have hfed (len : ℕ) (hlen : len ≤ 256) : Fed want 0 (roomy o) { r with log := r.log ++
      [.store r.conn.receivingBuf.size.toNat len r.conn.receivingBuf.maxSize.toNat] } := by
    rw [← hr]
    refine ⟨rfl, agreeOn_refl _ _, fun i hlo _ hi => absurd hi (not_lt.mpr hlo), rfl, rfl, rfl, rfl,
      _, rfl, fun e he => ?_⟩
    rw [List.mem_singleton.mp he]
    simp only [ConnEvent.addressable, ptrdiffMax, roomy]
    omega
  cases henc : r.conn.useEncryption with
  | true =>
    refine ⟨true, _, ?_, (fed_roomy want o).trans (hfed blockSize (by decide))⟩
    simp only [updateTurn, bind_run, hgrow, Bool.true_eq_false, ↓reduceIte, get_run, henc]
    simp [readBlock, ReadStep.quiet, record, freadStream, hin]
  | false =>
    refine ⟨false, _, ?_, (fed_roomy want o).trans (hfed 256 (by decide))⟩
    simp only [updateTurn, bind_run, hgrow, Bool.true_eq_false, ↓reduceIte, get_run, henc]
    simp [readPlain, ReadStep.quiet, record, freadStream, hin]

/-- By induction on the turns: the input can be such that the buffer goes on as wanted. -/
theorem updateLoop_feeds (hcipher : cipher.Onto) (want : Mem) (n : ℕ) (o : ConnObjects κ)
    (hctx : Decryptable o) (hsize : o.conn.receivingBuf.size.toNat+n*o.conn.stride < 2^61) :
    ∃ input ok o', (updateLoop cipher env (List.replicate n fullTurn)).run { o with input := input } =
      (.ok ok, o') ∧ Fed want (n*o.conn.stride) o o' := by
  induction n generalizing o with
  | zero =>
    obtain ⟨ok, o', hrun, hf⟩ := updateTurn_idle cipher env want o (by
      rwa [Nat.zero_mul, Nat.add_zero] at hsize)
    refine ⟨[], ok, o', ?_, by rwa [Nat.zero_mul]⟩
    simp only [List.replicate_zero, updateLoop, bind_run, hrun, pure_run, Option.getD_some]
  | succ n ih =>
    rw [Nat.succ_mul] at hsize ⊢
    obtain ⟨block, o1, hturn, hf⟩ := updateTurn_feeds cipher env hcipher want o hctx (by omega)
    have hstride : o1.conn.stride = o.conn.stride := by rw [Conn.stride, hf.encryption, Conn.stride]
    have hctx1 : Decryptable o1 := by rwa [Decryptable, hf.encryption, hf.context]
    obtain ⟨input, ok, o2, hrun, hf2⟩ := ih o1 hctx1 (by
      have := hf.size
      rw [hstride]
      omega)
    refine ⟨block ++ input, ok, o2, ?_, ?_⟩
    · simp only [List.replicate_succ, updateLoop, bind_run, hturn input, hrun]
    · rw [Nat.add_comm, ← hstride]
      rw [← hstride] at hf
      exact hf.trans hf2

end Feed

section Settle
variable (cipher : Cipher κ)

/-- A call in which `n` times as much has arrived as is read at once, and in which there is no
memory for a packet to send. -/
def burst (n : ℕ) : ReadEnv :=
  { fuel := 1, closing := fun _ => { (default : WriteEnv) with mallocPacket := false }
    steps := List.replicate n fullTurn, decode := spare .little }

theorem burst_errorless (n : ℕ) : Errorless (burst n) := by
  intro step hs
  rw [List.eq_of_mem_replicate hs]
  rfl

/-- Closing ends, or it is under way. -/
theorem closeOnError_begins (n : ℕ) (o : ConnObjects κ) :
    ((closeOnError cipher (burst n)).run o).2.conn.isClosed = true ∨
      .fclose ∈ newEvents o ((closeOnError cipher (burst n)).run o).2 := by
  by_cases hq : o.conn.isClosed = true ∨ ¬ o.conn.talks
  · have hrun := mcprConnectionClose_quiet cipher (burst n).closing 0 none o hq
    left
    rw [closeOnError, show (burst n).fuel = 0+1 from rfl, hrun]
  · simp only [not_or, not_not, Bool.not_eq_true] at hq
    obtain ⟨hopen, ht⟩ := hq
    have ht' : o.conn.state = .login ∨ o.conn.state = .play := ht
    right
    have hwrite (state : McprState) (hs : state = .login ∨ state = .play) (reason : List UInt8) :
        ∃ err, (mcprConnectionWritePacket cipher { (default : WriteEnv) with mallocPacket := false }
          (disconnectPacket state reason)).run o = (.ok false, { o with ninerr := err }) := by
      rcases hs with rfl | rfl
      · simp [mcprConnectionWritePacket, disconnectPacket, mcprPacketTypeToByte, mcprEncodePacketBounds, boundsLogin, boundsPlay, setNinerr]
      · simp [mcprConnectionWritePacket, disconnectPacket, mcprPacketTypeToByte, mcprEncodePacketBounds, boundsPlay, setNinerr]
    obtain ⟨err, hw⟩ := hwrite o.conn.state ht' (ascii "\x7b\"text\":\"Disconnected by server.\"\x7d")
    have hrun : (closeOnError cipher (burst n)).run o =
        (.error .outOfFuel, { o with ninerr := err, log := o.log ++ [.fclose] }) := by
      simp [closeOnError, burst, mcprConnectionClose, hopen, ht', hw, record,
        mcprConnectionStreamClose]
    rw [hrun, newEvents_append _ _ [.fclose] rfl]
    exact List.mem_singleton_self _

theorem decodeFrame_closes (env : ReadEnv) (out : McprPacket) (o : ConnObjects κ) {headerSize : ℕ}
    {maxlen : UInt64} (hd : (mcprDecodePacket env.decode out
      (shift o.conn.receivingBuf.content headerSize) o.conn.state maxlen).exit = .ret (-1)) :
    ∃ err, ((decodeFrame cipher env out headerSize maxlen).run o).2 =
      ((closeOnError cipher env).run { o with ninerr := err }).2 := by
  simp only [decodeFrame, bind_run, get_run, modify_run, hd, ↓reduceIte]
  generalize Option.or _ _ = err
  refine ⟨err, ?_⟩
  rcases (closeOnError cipher env).run { o with ninerr := err } with ⟨_ | _, _⟩ <;> rfl

theorem readFrame_settles (n : ℕ) (o : ConnObjects κ) {headerSize pktlen : ℕ}
    (hframe : CompleteFrame o headerSize pktlen)
    (htrap : (walkFrame (shift o.conn.receivingBuf.content headerSize) o.conn.state
      (UInt64.ofNat pktlen)).1 ≠ .error .trap)
    (hsize : 2^38 ≤ o.conn.receivingBuf.size.toNat) :
    Settles o ((readFrame cipher (burst n) default).run o) ∧
      ∀ e ∈ newEvents o ((readFrame cipher (burst n) default).run o).2, e.addressable := by
  obtain ⟨hhead, hc⟩ := hframe
  rw [readFrame_run cipher (burst n) default o hhead, if_pos hc]
  have hrun := decodeRun_spare .little default (shift o.conn.receivingBuf.content headerSize)
    o.conn.state (UInt64.ofNat pktlen)
  have hexit : (mcprDecodePacket (burst n).decode default
      (shift o.conn.receivingBuf.content headerSize) o.conn.state (UInt64.ofNat pktlen)).exit =
      exitOf ((walkFrame (shift o.conn.receivingBuf.content headerSize) o.conn.state
        (UInt64.ofNat pktlen)).1.map Int.ofNat) := by
    rw [← hrun]
    rfl
  have hconsumes (m : ℤ) (hm : m ≠ -1) (hle : (m+headerSize).toNat ≤ o.conn.receivingBuf.size.toNat)
      (he : (mcprDecodePacket (burst n).decode default
        (shift o.conn.receivingBuf.content headerSize) o.conn.state (UInt64.ofNat pktlen)).exit =
          .ret m) : Settles o ((decodeFrame cipher (burst n) default headerSize
            (UInt64.ofNat pktlen)).run o) ∧
        ∀ e ∈ newEvents o ((decodeFrame cipher (burst n) default headerSize
            (UInt64.ofNat pktlen)).run o).2, e.addressable := by
    rw [decodeFrame_consumes cipher (burst n) default o m hm _ rfl hle _ _ rfl he]
    refine ⟨.inl ⟨_, rfl⟩, fun e hm => ?_⟩
    rw [newEvents_append _ _ _ rfl] at hm
    rw [List.mem_singleton.mp hm]
    trivial
  rcases hw : (walkFrame (shift o.conn.receivingBuf.content headerSize) o.conn.state
    (UInt64.ofNat pktlen)).1 with (m | _) | m <;> rw [hw] at hexit
  · rcases walkFrame_refusal _ _ _ m hw with rfl | rfl
    · have hle := hhead.header_le
      exact hconsumes 0 (by decide) (by omega) hexit
    · obtain ⟨hkeeps, -⟩ := decodeFrame_rejected cipher (burst n) default o _ _ rfl hexit
      refine ⟨.inr ?_, fun e he => ?_⟩
      · obtain ⟨err, hend⟩ := decodeFrame_closes cipher (burst n) default o hexit
        rw [hend]
        exact closeOnError_begins cipher n { o with ninerr := err }
      · obtain ⟨es, hes, hall⟩ := hkeeps.log
        rw [newEvents_append _ _ es hes] at he
        rcases hall e he with ⟨_, _, rfl⟩ | ⟨_, rfl⟩ | rfl <;> trivial
  · contradiction
  · have hnat : (UInt64.ofNat pktlen).toNat < 2^32 := by
      have := hhead.lt
      rw [UInt64.toNat_ofNat']
      omega
    have hm := walkFrame_short _ _ _ hnat m hw
    have hk : headerSize ≤ 5 := by
      obtain ⟨v, hd, -⟩ := hhead
      exact (mcprDecodeVarint_size _ _ _ _ hd).2.1
    exact hconsumes m (by omega) (by omega) hexit

end Settle

section Recovery
variable {cipher : Cipher κ} {o : ConnObjects κ}

/-- Bytes that all say that a VarInt goes on are no packet, and no overflow either. -/
theorem walkFrame_unending (mem : Mem) (state : McprState) (maxlen : UInt64)
    (hff : ∀ i < mcprVarintSizeMax, mem i = 0xFF) :
    (walkFrame mem state maxlen).1 ≠ .error .trap := by
  have hnone : frameLayout mem state maxlen = none := by
    rcases hd : mcprDecodeVarint mem maxlen with message | ⟨v, k⟩
    · simp only [frameLayout, hd]
    · have hk := mcprDecodeVarint_size _ _ _ _ hd
      have hend := mcprDecodeVarintLoop_end mem maxlen 6 0 0#32 v k hd
      rw [hff (k-1) (by omega)] at hend
      exact absurd hend (by decide)
  simp [walkFrame, hnone]

/-- A connection waits: there is no complete frame in its buffer. -/
def Waits (o : ConnObjects κ) : Prop := ∀ headerSize pktlen, ¬ CompleteFrame o headerSize pktlen

/-- There is something to follow that makes a frame of the front of the buffer. -/
theorem exists_frame (hwait : Waits o) (h : ¬ Hopeless o.conn.receivingBuf o.conn.state) :
    o.conn.receivingBuf.size.toNat < 2^33 ∧ ∃ want, ∀ n o', Fed want n o o' →
      2^38 ≤ o'.conn.receivingBuf.size.toNat → ∃ headerSize pktlen,
        CompleteFrame o' headerSize pktlen ∧
          (walkFrame (shift o'.conn.receivingBuf.content headerSize) o'.conn.state
            (UInt64.ofNat pktlen)).1 ≠ .error .trap := by
  unfold Hopeless at h
  rcases hd : mcprDecodeVarint o.conn.receivingBuf.content o.conn.receivingBuf.size with
    message | ⟨v, headerSize⟩ <;> rw [hd] at h <;> dsimp only at h
  · -- the prefix is not over: it ends with the next byte
    simp only [not_le, mcprVarintSizeMax] at h
    refine ⟨by omega, fun i => if i = o.conn.receivingBuf.size.toNat then 1 else 0xFF,
      fun n o' hf hsize => ?_⟩
    have hlast : o'.conn.receivingBuf.content o.conn.receivingBuf.size.toNat = 1 := by
      rw [hf.fresh _ (le_refl _) (by omega) (by omega)]
      simp
    obtain ⟨v, hd', hv⟩ := mcprDecodeVarint_completed _ o'.conn.receivingBuf.content _
      o'.conn.receivingBuf.size message hf.held hlast h (by omega) hd
    refine ⟨_, v.toNat, ⟨⟨v, hd', hv, rfl⟩, ?_⟩, walkFrame_unending _ _ _ fun i hi => ?_⟩
    · have := v.isLt
      omega
    · simp only [mcprVarintSizeMax] at hi
      rw [shift_apply, hf.fresh _ (by omega) (by omega) (by omega)]
      simp only [ite_eq_right_iff]
      omega
  · rw [not_or, not_le] at h
    have hhead : HeadFrame o.conn.receivingBuf headerSize v.toNat := ⟨v, hd, h.1, rfl⟩
    have hk := mcprDecodeVarint_size _ _ _ _ hd
    simp only [mcprVarintSizeMax] at hk
    have hlt := hhead.lt
    have hshort : o.conn.receivingBuf.size.toNat < headerSize+v.toNat := by
      by_contra hc
      exact hwait _ _ ⟨hhead, not_lt.mp hc⟩
    refine ⟨by omega, fun _ => 0xFF, fun n o' hf hsize => ?_⟩
    have hd' := mcprDecodeVarint_known _ o'.conn.receivingBuf.content _ o'.conn.receivingBuf.size v
      headerSize (agreeOn_mono hf.held hk.2.2) (by omega) hd
    refine ⟨headerSize, v.toNat, ⟨⟨v, hd', h.1, rfl⟩, by omega⟩, ?_⟩
    have hfront : AgreeOn 15 (shift o'.conn.receivingBuf.content headerSize)
        (shift o.conn.receivingBuf.fill headerSize) := by
      intro i hi
      simp only [shift_apply]
      by_cases hold : headerSize+i < o.conn.receivingBuf.size.toNat
      · rw [o.conn.receivingBuf.fill_content _ hold, hf.held _ hold]
      · rw [o.conn.receivingBuf.fill_ff _ (not_lt.mp hold), hf.fresh _ (by omega) (by omega)
          (by omega)]
    rw [hf.state, ne_eq, walkFrame_trap_front _ _ _ _ hfront]
    exact h.2

theorem recoverable_of_waits (hcipher : cipher.Onto) (hctx : Decryptable o) (hwait : Waits o)
    (h : ¬ Hopeless o.conn.receivingBuf o.conn.state) : Recoverable cipher o := by
  obtain ⟨hsize, want, hframe⟩ := exists_frame hwait h
  obtain ⟨n, hn⟩ : ∃ n, n = 2^38 := ⟨_, rfl⟩
  have hstride : 1 ≤ o.conn.stride ∧ o.conn.stride ≤ 2^16 := by
    unfold Conn.stride
    split <;> decide
  have hmost : n*o.conn.stride ≤ 2^54 := by
    calc n*o.conn.stride ≤ 2^38*2^16 := Nat.mul_le_mul hn.le hstride.2
      _ = 2^54 := by decide
  have hleast : n ≤ n*o.conn.stride := Nat.le_mul_of_pos_right n hstride.1
  obtain ⟨input, ok, o1, hrun, hf⟩ := updateLoop_feeds cipher (burst n) hcipher want n o hctx
    (by omega)
  have hsize1 := hf.size
  obtain ⟨headerSize, pktlen, hcomplete, htrap⟩ := hframe _ o1 hf (by omega)
  obtain ⟨hsettles, haddr⟩ := readFrame_settles cipher n o1 hcomplete htrap (by omega)
  obtain ⟨es, hes, hall⟩ := hf.log
  obtain ⟨hcall, hnew⟩ := readPacket_events (o := { o with input := input }) default hrun hes
  refine ⟨input, _, burst n, default, .refl _, burst_errorless n, fun e he => ?_, ?_⟩
  · rw [hcall, hnew] at he
    exact (List.mem_append.mp he).elim (hall e) (haddr e)
  · rw [hcall]
    refine hsettles.imp_right fun hc => hc.imp_right fun hc => ?_
    rw [hnew]
    exact List.mem_append_right _ hc

theorem readFrame_waits (cipher : Cipher κ) (env : ReadEnv) (out : McprPacket) (hwait : Waits o) :
    ∃ err, (readFrame cipher env out).run o = (.ok ⟨false, out⟩, { o with ninerr := err }) := by
  by_cases hhead : ∃ headerSize pktlen, HeadFrame o.conn.receivingBuf headerSize pktlen
  · obtain ⟨headerSize, pktlen, hhead⟩ := hhead
    have hc : ¬ headerSize+pktlen ≤ o.conn.receivingBuf.size.toNat := fun hc =>
      hwait _ _ ⟨hhead, hc⟩
    refine ⟨o.ninerr, ?_⟩
    rw [readFrame_run cipher env out o hhead, if_neg hc]
  · push Not at hhead
    exact readFrame_headless cipher env out o hhead

theorem mcprConnectionClose_closed (cipher : Cipher κ) (closing : ℕ → WriteEnv) (fuel : ℕ)
    (reason : Option (List UInt8)) (o o' : ConnObjects κ)
    (h : (mcprConnectionClose cipher closing fuel reason).run o = (.ok (), o')) :
    o'.conn.isClosed = true := by
  rcases fuel with _ | fuel
  · simp [mcprConnectionClose] at h
  · by_cases hq : o.conn.isClosed = true ∨ ¬ o.conn.talks
    · rw [mcprConnectionClose_quiet cipher closing fuel reason o hq] at h
      cases h
      rfl
    · simp only [not_or, not_not, Bool.not_eq_true] at hq
      exact absurd (by rw [h]) (mcprConnectionClose_never cipher closing _ reason o hq.1 hq.2)

/-- A call that delivers nothing and leaves the connection open leaves it waiting. -/
theorem readFrame_leaves_waiting {env : ReadEnv} {out out' : McprPacket} {o' : ConnObjects κ}
    (h : (readFrame cipher env out).run o = (.ok ⟨false, out'⟩, o'))
    (hopen : o'.conn.isClosed = false) : Waits o' := by
  by_cases hwait : Waits o
  · obtain ⟨err, hr⟩ := readFrame_waits cipher env out hwait
    rw [hr] at h
    cases h
    exact hwait
  · simp only [Waits, not_forall, not_not] at hwait
    obtain ⟨headerSize, pktlen, hhead, hc⟩ := hwait
    rw [readFrame_run cipher env out o hhead, if_pos hc] at h
    simp only [decodeFrame, bind_run, get_run, modify_run] at h
    split at h
    · simp at h
    · split_ifs at h
      · -- the frame was rejected, so the connection is closed
        simp only [closeOnError, bind_run] at h
        split at h
        · rename_i hclose
          have := mcprConnectionClose_closed _ _ _ _ _ _ hclose
          simp only [pure_run, Prod.mk.injEq] at h
          rw [← h.2, this] at hopen
          contradiction
        · simp at h
      · simp only [bind_run] at h
        split at h <;> simp at h

/-- Encrypted bytes cannot be received without a context, and no frame is complete. -/
structure Starved (o : ConnObjects κ) : Prop where
  waits : Waits o
  isOpen : o.conn.isClosed = false
  encrypted : o.conn.useEncryption = true
  context : o.conn.ctxDecrypt = none

/-- Where there is no context to decrypt with, the buffer changes in its capacity at most. -/
def Stalls (o o' : ConnObjects κ) : Prop := o.conn.useEncryption = true → o.conn.ctxDecrypt = none →
  { o'.conn with receivingBuf := { o'.conn.receivingBuf with
    maxSize := o.conn.receivingBuf.maxSize } } = o.conn ∧ ∃ es, o'.log = o.log ++ es ∧ .fclose ∉ es

instance : IsPreorder (ConnObjects κ) Stalls where
  refl _ _ _ := ⟨rfl, [], by simp, by simp⟩
  trans o o' o'' h h' henc hctx := by
    obtain ⟨hconn, es, hes, hf⟩ := h henc hctx
    have henc' : o'.conn.useEncryption = true := by
      rw [← hconn] at henc
      exact henc
    have hctx' : o'.conn.ctxDecrypt = none := by
      rw [← hconn] at hctx
      exact hctx
    obtain ⟨hconn', es', hes', hf'⟩ := h' henc' hctx'
    refine ⟨?_, es ++ es', by rw [hes', hes, List.append_assoc], by simp [hf, hf']⟩
    rw [← hconn, ← hconn']

theorem updateTurn_stalls (cipher : Cipher κ) (env : ReadEnv) (step : ReadStep) (herr : step.ferror = false) :
    Moves Stalls (updateTurn cipher env step) := by
  have hgrow : Moves Stalls (growBuffer step : ConnProg κ Bool) := by
    refine Moves.get.bind fun o => Moves.ite (Moves.ite ?_ ?_) (Moves.pure _)
    · exact (Moves.modify fun o _ _ => ⟨rfl, [], by simp, by simp⟩).bind fun _ => Moves.pure _
    · exact (Moves.modify fun o _ _ => ⟨rfl, [], by simp, by simp⟩).bind fun _ => Moves.pure _
  refine hgrow.bind fun ok => Moves.ite (Moves.pure _) ?_
  intro o henc hctx
  simp only [bind_run, get_run, henc, ↓reduceIte]
  cases hm : step.malloc with
  | false =>
    simp only [readBlock, hm, ↓reduceIte, setNinerr, bind_run, modify_run, pure_run]
    exact ⟨trivial, [], by simp, by simp⟩
  | true =>
    simp only [readBlock, hm, bind_run, get_run, record, modify_run, freadStream, pure_run,
      Bool.true_eq_false, ↓reduceIte, herr, false_and, Bool.false_eq_true]
    rcases o.input.take (min blockSize step.ready) with _ | ⟨byte, rest⟩
    · exact ⟨rfl, [.store _ _ _], rfl, by simp⟩
    · simp only [mcprCryptoDecrypt, bind_run, get_run, hctx, exit_run]
      refine ⟨?_, [.store _ _ _], rfl, by simp⟩
      rw [← hctx]

theorem updateReceivingBuffer_stalls (cipher : Cipher κ) (env : ReadEnv) (herr : Errorless env) :
    Moves Stalls (updateReceivingBuffer cipher env) :=
  updateLoop_moves cipher env (updateTurn_stalls cipher env .quiet rfl) env.steps
    fun step hs => updateTurn_stalls cipher env step (herr step hs)

theorem Starved.stalls {o' : ConnObjects κ} (h : Starved o) (hs : Stalls o o') : Starved o' := by
  obtain ⟨hconn, -⟩ := hs h.encrypted h.context
  obtain ⟨hwait, hopen, henc, hctx⟩ := h
  have hwait' : Waits o' := by
    intro headerSize pktlen hc
    refine hwait headerSize pktlen ?_
    rw [CompleteFrame, ← hconn]
    exact hc
  rw [← hconn] at hopen henc hctx
  exact ⟨hwait', hopen, henc, hctx⟩

theorem starved_traps (cipher : Cipher κ) : Traps cipher Starved := by
  intro o env out h herr _
  have hupdate := updateReceivingBuffer_stalls cipher env herr o
  rcases hr : (updateReceivingBuffer cipher env).run o with ⟨e | ok, o1⟩ <;> rw [hr] at hupdate <;>
    have h1 := h.stalls hupdate <;> obtain ⟨-, es, hes, hf⟩ := hupdate h.encrypted h.context
  · simp only [mcprConnectionReadPacket, bind_run, hr]
    refine ⟨h1, not_settles (by simp) h1.isOpen ?_⟩
    rw [newEvents_append _ _ es hes]
    exact hf
  · obtain ⟨hcall, -⟩ := readPacket_events out hr hes
    obtain ⟨err, hwait⟩ := readFrame_waits cipher env out h1.waits
    rw [hcall, hwait]
    refine ⟨⟨h1.waits, h1.isOpen, h1.encrypted, h1.context⟩, not_settles (by simp) h1.isOpen ?_⟩
    rw [newEvents_append o { o1 with ninerr := err } es hes]
    exact hf

theorem Starved.not_recoverable (h : Starved o) : ¬ Recoverable cipher o :=
  (starved_traps cipher).not_recoverable fun _ => ⟨h.waits, h.isOpen, h.encrypted, h.context⟩

end Recovery

section Main
variable {cipher : Cipher κ} {o o' : ConnObjects κ} {env : ReadEnv} {out out' : McprPacket}

/-- After a call that delivered nothing and left the connection open, there is a continuation of
the stream that delivers a packet or closes the connection if and only if the buffer is not
hopeless, and what arrives can be decrypted. -/
theorem read_packet_recoverable_iff (hcipher : cipher.Onto)
    (hcall : (mcprConnectionReadPacket cipher env out).run o = (.ok ⟨false, out'⟩, o'))
    (hopen : o'.conn.isClosed = false) : Recoverable cipher o' ↔
      ¬ Hopeless o'.conn.receivingBuf o'.conn.state ∧ Decryptable o' := by
  have hwait : Waits o' := by
    simp only [mcprConnectionReadPacket, bind_run] at hcall
    split at hcall
    · exact readFrame_leaves_waiting hcall hopen
    · simp at hcall
  constructor
  · intro hr
    refine ⟨fun h => Wedged.not_recoverable ⟨h, hopen⟩ hr, fun henc => ?_⟩
    by_contra hctx
    have hnone := Option.not_isSome_iff_eq_none.mp hctx
    exact Starved.not_recoverable ⟨hwait, hopen, henc, hnone⟩ hr
  · rintro ⟨h, hctx⟩
    exact recoverable_of_waits hcipher hctx hwait h

/-- A connection with the first bytes of a frame of 16383 bytes in its buffer. -/
def frameBegun : ConnObjects Unit :=
  ((mcprConnectionReadPacket cipherExample (arrivals [3]) default).run
    (mcprConnectionNew (fun _ => 0) [0xFF, 0x7F, 0x00])).2

/-- The rest of it may come. -/
theorem begun_frame_recoverable : (∃ out', (mcprConnectionReadPacket cipherExample
    (arrivals [3]) default).run (mcprConnectionNew (fun _ => 0) [0xFF, 0x7F, 0x00]) =
      (.ok ⟨false, out'⟩, frameBegun)) ∧
        headFrame frameBegun.conn.receivingBuf.bytes = some (2, 16383) ∧
          Recoverable cipherExample frameBegun := by
  have hcall : (mcprConnectionReadPacket cipherExample (arrivals [3]) default).run
      (mcprConnectionNew (fun _ => 0) [0xFF, 0x7F, 0x00]) = (.ok ⟨false, default⟩, frameBegun) := by rfl
  have hprefix : mcprDecodeVarint frameBegun.conn.receivingBuf.content
      frameBegun.conn.receivingBuf.size = .ok (16383, 2) := by decide +kernel
  have hwalk : (walkFrame (shift frameBegun.conn.receivingBuf.fill 2) frameBegun.conn.state
      (UInt64.ofNat 16383)).1 ≠ .error .trap := by decide +kernel
  refine ⟨⟨default, hcall⟩, by decide +kernel, ?_⟩
  refine (read_packet_recoverable_iff (fun _ p => ⟨p, rfl⟩) hcall (by rfl)).mpr ⟨?_, ?_⟩
  · rw [Hopeless, hprefix]
    exact not_or.mpr ⟨by decide, hwalk⟩
  · intro h
    cases h

/-- A single zero byte: a length that is not positive is never taken off the buffer. -/
theorem zero_length_wedges : ∃ out' o', (mcprConnectionReadPacket cipherExample
    (arrivals [1]) default).run (mcprConnectionNew (fun _ => 0) [0x00]) = (.ok ⟨false, out'⟩, o') ∧
      o'.conn.isClosed = false ∧ ¬ Recoverable cipherExample o' := by
  refine ⟨default, _, by rfl, by rfl, Wedged.not_recoverable ⟨?_, by rfl⟩⟩
  exact .inl (by decide)

end Main

end Stronk.Mcpr
