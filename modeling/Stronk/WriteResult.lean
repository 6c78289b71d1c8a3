import Stronk.ConnectionClose
import Stronk.Transport

/-! Whether the result of a write can be trusted. `mcpr_connection_write` encrypts, compresses,
does both or neither, and each of its four branches makes a result of what `fwrite` returns. -/
namespace Stronk.Mcpr
open EarlyExit
variable {κ : Type}

section Transformed
variable (cipher : Cipher κ) (env : WriteEnv) (c : Conn κ) (bytes : List UInt8)

/-- What a connection that encrypts makes of some bytes, if it gets that far. -/
def encryptedBytes : Option (List UInt8) :=
  if env.mallocEncrypted = true ∧ bytes.length ≤ int32Max ∧ env.encryptUpdate = true then
    c.ctxEncrypt.map fun ctx => (cipher.encryptAll ctx bytes).1
  else none

def compressedBytes : Option (List UInt8) :=
  if env.mallocCompressed then
    match env.compress bytes with
    | .ok compressed => some compressed
    | .memError | .bufError => none
  else none

/-- The bytes that are to go to the iostream: encrypted first, and then compressed. -/
def transformedBytes : Option (List UInt8) :=
  (if c.useEncryption then encryptedBytes cipher env c bytes else some bytes).bind fun encrypted =>
    if c.useCompression then compressedBytes env encrypted else some encrypted

/-- The transformed bytes were given to `fwrite`, and none of them was left over. -/
def WholeAccepted (o o' : ConnObjects κ) : Prop :=
  ∃ sent, transformedBytes cipher env o.conn bytes = some sent ∧
    o'.log = o.log ++ [.send sent o.conn.useEncryption] ∧ (sent = [] ∨ env.fwrite = true)

/-- The result says whether everything was accepted, and who writes a frame passes it on. -/
structure WriteTruthful (o : ConnObjects κ) : Prop where
  result : ((mcprConnectionWrite cipher env bytes).run o).1 = .ok true ↔
    WholeAccepted cipher env bytes o ((mcprConnectionWrite cipher env bytes).run o).2
  caller : ∀ id body sent, 0 < body.length → body.length ≤ int32Max → frameOf body = bytes →
    (((writeEncoded cipher env id (sizeOfNat body.length) body).run o).1 = .ok sent ↔
      ((mcprConnectionWrite cipher env bytes).run o).1 = .ok sent)

/-- What `fwrite` returns: one item is written, or none, of an empty one none. -/
def itemsWritten (sent : List UInt8) : ℕ := if sent ≠ [] ∧ env.fwrite = true then 1 else 0

/-- What that is compared with: the branch that only compresses takes it for bytes. -/
def itemsExpected (sent : List UInt8) : ℕ :=
  if c.useCompression = true ∧ c.useEncryption = false then sent.length else 1

end Transformed

section Run
variable (cipher : Cipher κ) (env : WriteEnv) (bytes : List UInt8) (o : ConnObjects κ)

/-- What a write does, given what there is to send: it sends all of it and reports what it makes
of that, or it sends nothing and does not say that it did. -/
def PutsOut (log : List ConnEvent) (encrypted : Bool) (report : List UInt8 → Bool) :
    Option (List UInt8) → Except Halt Bool × ConnObjects κ → Prop
  | some sent, r => r.1 = .ok (report sent) ∧ r.2.log = log ++ [.send sent encrypted]
  | none, r => r.1 ≠ .ok true ∧ r.2.log = log

theorem fwriteStream_run (sent : List UInt8) (encrypted : Bool) :
    (fwriteStream env sent encrypted).run o =
      (.ok (itemsWritten env sent), { o with log := o.log ++ [.send sent encrypted] }) := rfl

theorem putsOut_writeCompressed (encrypted : Bool) :
    PutsOut o.log encrypted
      (fun sent => decide (itemsWritten env sent = if encrypted then 1 else sent.length))
      (compressedBytes env bytes) ((writeCompressed env bytes encrypted).run o) := by
  cases hmalloc : env.mallocCompressed with
  | false => simp [compressedBytes, writeCompressed, hmalloc, PutsOut, setNinerr]
  | true =>
    cases hcompress : env.compress bytes with
    | ok sent =>
      cases encrypted
      · simp [compressedBytes, writeCompressed, mcprCompress, hmalloc, hcompress, PutsOut,
          fwriteStream_run]
      · simp [compressedBytes, writeCompressed, mcprCompress, hmalloc, hcompress, PutsOut,
          fwriteStream_run]
    | memError =>
      simp [compressedBytes, writeCompressed, mcprCompress, hmalloc, hcompress, PutsOut, setNinerr]
    | bufError =>
      simp [compressedBytes, writeCompressed, mcprCompress, hmalloc, hcompress, PutsOut]

theorem mcprCryptoEncrypt_of_some {encrypted : List UInt8}
    (h : encryptedBytes cipher env o.conn bytes = some encrypted) :
    ∃ o', (mcprCryptoEncrypt cipher env bytes).run o = (.ok (some encrypted), o') ∧
      o'.log = o.log := by
  simp only [encryptedBytes, Option.ite_none_right_eq_some, Option.map_eq_some_iff] at h
  obtain ⟨⟨-, hlen, hupdate⟩, ctx, hctx, rfl⟩ := h
  exact ⟨_, mcprCryptoEncrypt_run cipher env bytes hctx hlen hupdate, rfl⟩

theorem mcprCryptoEncrypt_of_none (hmalloc : env.mallocEncrypted = true)
    (h : encryptedBytes cipher env o.conn bytes = none) :
    ∃ o', ((mcprCryptoEncrypt cipher env bytes).run o = (.ok none, o') ∨
      (mcprCryptoEncrypt cipher env bytes).run o = (.error .undefined, o')) ∧ o'.log = o.log := by
  by_cases hlen : bytes.length ≤ int32Max
  · rcases hctx : o.conn.ctxEncrypt with _ | ctx
    · -- the cipher library dereferences a null pointer
      exact ⟨o, .inr (by simp [mcprCryptoEncrypt, not_lt.mpr hlen, hctx]), rfl⟩
    · have hupdate : env.encryptUpdate = false := by
        by_contra hne
        rw [Bool.not_eq_false] at hne
        simp [encryptedBytes, hmalloc, hlen, hne, hctx] at h
      refine ⟨{ o with ninerr := some (.new "EVP_EncryptUpdate failed.") }, .inl ?_, rfl⟩
      simp [mcprCryptoEncrypt, not_lt.mpr hlen, hctx, hupdate, setNinerr]
  · refine ⟨{ o with ninerr := some .arithmetic }, .inl ?_, rfl⟩
    simp [mcprCryptoEncrypt, not_le.mp hlen, setNinerr]

theorem putsOut_mcprConnectionWrite : PutsOut o.log o.conn.useEncryption
    (fun sent => decide (itemsWritten env sent = itemsExpected o.conn sent))
    (transformedBytes cipher env o.conn bytes) ((mcprConnectionWrite cipher env bytes).run o) := by
  have hplain (sent : List UInt8) (o' : ConnObjects κ) (encrypted : Bool) (hlog : o'.log = o.log) :
      PutsOut o.log encrypted (fun sent => decide (itemsWritten env sent = 1)) (some sent)
        ((do
          let written ← fwriteStream env sent encrypted
          return written = 1 : ConnProg κ Bool).run o') := by
    rw [← hlog]
    exact ⟨rfl, rfl⟩
  cases he : o.conn.useEncryption with
  | false =>
    cases hc : o.conn.useCompression with
    | false =>
      have h := hplain bytes o false rfl
      simpa [mcprConnectionWrite, transformedBytes, itemsExpected, he, hc] using h
    | true =>
      have h := putsOut_writeCompressed env bytes o false
      simpa [mcprConnectionWrite, transformedBytes, itemsExpected, he, hc] using h
  | true =>
    cases hmalloc : env.mallocEncrypted with
    | false =>
      -- there is no buffer to encrypt into
      simp [mcprConnectionWrite, transformedBytes, encryptedBytes, he, hmalloc, PutsOut, setNinerr]
    | true =>
      cases hencrypted : encryptedBytes cipher env o.conn bytes with
      | none =>
        obtain ⟨o', hr | hr, hlog⟩ :=
          mcprCryptoEncrypt_of_none cipher env bytes o hmalloc hencrypted
        · simp [mcprConnectionWrite, transformedBytes, he, hmalloc, hencrypted, hr, hlog, PutsOut]
        · simp [mcprConnectionWrite, transformedBytes, he, hmalloc, hencrypted, hr, hlog, PutsOut]
      | some encrypted =>
        obtain ⟨o', hr, hlog⟩ := mcprCryptoEncrypt_of_some cipher env bytes o hencrypted
        -- what is encrypted goes on as what is not did
        cases hc : o.conn.useCompression with
        | false =>
          have h := hplain encrypted o' true hlog
          simpa [mcprConnectionWrite, transformedBytes, itemsExpected, he, hc, hmalloc,
            hencrypted, hr] using h
        | true =>
          have h := putsOut_writeCompressed env encrypted o' true
          rw [hlog] at h
          simpa [mcprConnectionWrite, transformedBytes, itemsExpected, he, hc, hmalloc,
            hencrypted, hr] using h

end Run

section Result
variable (cipher : Cipher κ) (env : WriteEnv) (bytes : List UInt8) (o : ConnObjects κ)

/-- What there is to send makes the branch of the connection lie: two bytes or more that were
compressed only and are accepted, or nothing, if the cipher went first. -/
def Misreported (sent : List UInt8) : Prop :=
  o.conn.useCompression = true ∧
    if o.conn.useEncryption then sent = [] else 2 ≤ sent.length ∧ env.fwrite = true

theorem encryptAll_length (ctx : κ) : (cipher.encryptAll ctx bytes).1.length = bytes.length := by
  induction bytes generalizing ctx with
  | nil => rfl
  | cons b bs ih => simp only [Cipher.encryptAll, List.length_cons, ih]

theorem transformedBytes_ne_nil (h : bytes ≠ []) (hc : o.conn.useCompression = false)
    {sent : List UInt8} (hsent : transformedBytes cipher env o.conn bytes = some sent) :
    sent ≠ [] := by
  cases he : o.conn.useEncryption with
  | false =>
    simp only [transformedBytes, he, hc, Bool.false_eq_true, if_false, Option.bind_some,
      Option.some.injEq] at hsent
    rwa [← hsent]
  | true =>
    simp only [transformedBytes, he, hc, Bool.false_eq_true, if_true, if_false, encryptedBytes,
      Option.bind_fun_some, Option.ite_none_right_eq_some, Option.map_eq_some_iff] at hsent
    obtain ⟨-, ctx, -, rfl⟩ := hsent
    rw [← List.length_pos_iff, encryptAll_length, List.length_pos_iff]
    exact h

/-- The comparison of each branch, against what was accepted. -/
theorem itemsWritten_iff (sent : List UInt8) (hne : o.conn.useCompression = false → sent ≠ []) :
    (itemsWritten env sent = itemsExpected o.conn sent ↔ sent = [] ∨ env.fwrite = true) ↔
      ¬ Misreported env o sent := by
  cases hc : o.conn.useCompression with
  | false => simp [Misreported, itemsWritten, itemsExpected, hc, hne hc]
  | true =>
    cases he : o.conn.useEncryption with
    | true =>
      cases sent with
      | nil => simp [Misreported, itemsWritten, itemsExpected, hc, he]
      | cons b bs => simp [Misreported, itemsWritten, itemsExpected, hc, he]
    | false =>
      cases sent with
      | nil => simp [Misreported, itemsWritten, itemsExpected, hc, he]
      | cons b bs =>
        -- the one item is taken for as many bytes
        cases hf : env.fwrite with
        | false => simp [Misreported, itemsWritten, itemsExpected, hc, he, hf]
        | true => simp [Misreported, itemsWritten, itemsExpected, hc, he, hf]

/-- Whoever writes a frame reports what the connection reported. -/
theorem writeEncoded_passes (id : McprPacketType) (body : List UInt8) (sent : Bool)
    (hpos : 0 < body.length) (hmax : body.length ≤ int32Max) :
    ((writeEncoded cipher env id (sizeOfNat body.length) body).run o).1 = .ok sent ↔
      ((mcprConnectionWrite cipher env (frameOf body)).run o).1 = .ok sent := by
  rw [writeEncoded_run cipher env id body o hpos hmax, bind_run]
  rcases (mcprConnectionWrite cipher env (frameOf body)).run o with ⟨e | _ | _, o'⟩
  · simp
  · simp
  · simp [record]

/-- The result is that of `fwrite` if and only if the branch that only compresses is not taken
with two bytes or more that are accepted, nor the one that does both with none to be sent. -/
theorem write_truthful_iff (h : bytes ≠ []) : WriteTruthful cipher env bytes o ↔
    ∀ sent, transformedBytes cipher env o.conn bytes = some sent → ¬ Misreported env o sent := by
  have hputs := putsOut_mcprConnectionWrite cipher env bytes o
  have hresult : WriteTruthful cipher env bytes o ↔
      (((mcprConnectionWrite cipher env bytes).run o).1 = .ok true ↔
        WholeAccepted cipher env bytes o ((mcprConnectionWrite cipher env bytes).run o).2) := by
    refine ⟨WriteTruthful.result, fun hr => ⟨hr, ?_⟩⟩
    intro id body sent hpos hmax hframe
    rw [← hframe]
    exact writeEncoded_passes cipher env o id body sent hpos hmax
  rw [hresult]
  cases ht : transformedBytes cipher env o.conn bytes with
  | none =>
    -- a stage failed: nothing is sent, and `true` is not returned
    rw [ht] at hputs
    simp only [WholeAccepted, ht, hputs.1, reduceCtorEq, false_and, exists_false, false_implies,
      implies_true]
  | some sent =>
    rw [ht] at hputs
    have hiff := itemsWritten_iff env o sent fun hc =>
      transformedBytes_ne_nil cipher env bytes o h hc ht
    simp only [Option.some.injEq, forall_eq', ← hiff, WholeAccepted, ht, hputs.1, hputs.2,
      Except.ok.injEq, decide_eq_true_eq, exists_eq_left', true_and]

/-- What zlib makes of the two bytes 01 00. -/
def writeExample : WriteEnv :=
  { (default : WriteEnv) with
    compress := fun _ => .ok [0x78, 0x9C, 0x63, 0x64, 0x00, 0x00, 0x00, 0x04, 0x00, 0x02] }

/-- A new connection that compresses, and encrypts if asked to. -/
def compressingExample (encrypts : Bool) : ConnObjects Unit :=
  let o := mcprConnectionNew (fun _ => 0) []
  { o with conn := { o.conn with
      useCompression := true
      useEncryption := encrypts
      ctxEncrypt := some () } }

theorem encrypted_write_truthful :
    WriteTruthful cipherExample writeExample [0x01, 0x00] (compressingExample true) := by
  refine (write_truthful_iff cipherExample writeExample _ _ (by decide)).mpr ?_
  intro sent hsent hmis
  have hnil : sent = [] := hmis.2
  rw [hnil] at hsent
  exact absurd hsent (by decide)

/-- The ten bytes are accepted, and the result is `false`. -/
theorem compressed_write_denied :
    ¬ WriteTruthful cipherExample writeExample [0x01, 0x00] (compressingExample false) := by
  intro h
  have hresult := h.result.mpr ⟨_, rfl, rfl, .inr rfl⟩
  exact absurd hresult (by decide)

end Result

end Stronk.Mcpr
