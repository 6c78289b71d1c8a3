import Stronk.HandlerMoves

/-! What the two handlers of a login do, run by run. A Login Start leaves a name, a key and a token
behind or has the connection closed; an Encryption Response that is awaited comes to Login Success
or has it closed. -/
namespace Stronk.Mcpr
open ByteMemory EarlyExit
variable {κ ρ : Type}

section Stays

/-- Neither the state nor the address changed, and what was noted satisfies `P`. -/
structure Stays (P : ServerEvent ρ → Prop) (c c' : Connection κ ρ) : Prop where
  state : c'.state = c.state
  serverAddressUsed : c'.serverAddressUsed = c.serverAddressUsed
  history : ∃ es, c'.history = c.history ++ es ∧ ∀ e ∈ es, P e

/-- An event that a login does not go by. -/
def ServerEvent.Minor : ServerEvent ρ → Prop
  | .handshake _ => False
  | .setState _ => False
  | .loginStart _ => False
  | .issueToken _ _ => False
  | .encryptionResponse _ => False
  | .useTmp live => live = true
  | _ => True

variable {P Q : ServerEvent ρ → Prop} {ids : McprPacketType → Prop} {c c' c'' : Connection κ ρ}

theorem Stays.trans (h : Stays P c c') (h' : Stays P c' c'') : Stays P c c'' := by
  obtain ⟨es, hes, hall⟩ := h.history
  obtain ⟨es', hes', hall'⟩ := h'.history
  refine ⟨h'.state.trans h.state, h'.serverAddressUsed.trans h.serverAddressUsed, es ++ es',
    by rw [hes', hes, List.append_assoc], fun e he => ?_⟩
  rcases List.mem_append.mp he with he | he
  · exact hall e he
  · exact hall' e he

instance : IsPreorder (Connection κ ρ) (Stays P) where
  refl _ := ⟨rfl, rfl, [], by simp, by simp⟩
  trans _ _ _ := Stays.trans

theorem Stays.mono (h : Stays P c c') (hp : ∀ e, P e → Q e) : Stays Q c c' := by
  obtain ⟨es, hes, hall⟩ := h.history
  exact ⟨h.state, h.serverAddressUsed, es, hes, fun e he => hp e (hall e he)⟩

theorem ServerEvent.Sent.minor {state : McprState} {e : ServerEvent ρ} (h : e.Sent ids state) :
    e.Minor := by
  cases e <;> first
    | exact h.elim
    | exact trivial

/-- A login does not go by what is done with the things that are kept for it. -/
theorem Stays.minor (h : Stays (fun e => e = .useTmp true) c c') : Stays ServerEvent.Minor c c' := by
  apply h.mono
  intro e he
  rw [he]
  exact rfl

theorem Talks.stays (h : Talks ids c c') : Stays ServerEvent.Minor c c' := by
  obtain ⟨es, hes, hall⟩ := h.history
  refine ⟨h.state, h.serverAddressUsed, es, hes, fun e he => ?_⟩
  rcases hall e he with rfl | hsent
  · exact trivial
  · exact hsent.minor

/-- What a function of the events says of the last one that it says something of. -/
def lastOf {α : Type} (f : ServerEvent ρ → Option α) (history : List (ServerEvent ρ)) : Option α :=
  (history.filterMap f).getLast?

variable {α : Type} {f : ServerEvent ρ → Option α} {h es : List (ServerEvent ρ)}

theorem lastOf_append (hes : ∀ e ∈ es, f e = none) : lastOf f (h ++ es) = lastOf f h := by
  have hnil : es.filterMap f = [] := List.filterMap_eq_nil_iff.mpr hes
  rw [lastOf, List.filterMap_append, hnil, List.append_nil, lastOf]

theorem lastOf_snoc {e : ServerEvent ρ} {a : α} (he : f e = some a) :
    lastOf f (h ++ [e]) = some a := by
  simp [lastOf, List.filterMap_append, he]

theorem Stays.lastOf (hs : Stays P c c') (hf : ∀ e, P e → f e = none) :
    lastOf f c'.history = lastOf f c.history := by
  obtain ⟨es, hes, hall⟩ := hs.history
  rw [hes]
  exact lastOf_append fun e he => hf e (hall e he)

end Stays

section Start
variable (crypto : Crypto κ ρ)

/-- A Handshake asks for PLAY, which none does that was decoded to its end. -/
def AsksForPlay (pkt : McprPacket) (c : Connection κ ρ) : Prop :=
  c.state = .handshake ∧ pkt.id = .hsSbHandshake ∧ pkt.data.handshake.nextState = .play

/-- A Login Start came, and its name is kept. -/
def Connection.named (c : Connection κ ρ) (name : List UInt8) : Connection κ ρ :=
  { c with
    tmp := { c.tmp with username := .live name }
    history := c.history ++ [.loginStart name] }

/-- An Encryption Request went out, and an answer to it is waited for. -/
def Connection.challenged (c : Connection κ ρ) (rsa : Option ρ) (token name : List UInt8) :
    Connection κ ρ :=
  { c with
    tmpPresent := true
    tmp := { verifyToken := .live token, rsa := .live rsa, username := .live name }
    history := c.history ++ [.issueToken rsa token] }

def RequestType (id : McprPacketType) : Prop := id = .lgCbEncryptionRequest

/-- A Login Start has the connection closed, or its request goes out. -/
theorem requestEncryption_cases (env : LoginStartEnv ρ) (name : List UInt8) (c : Connection κ ρ) :
    ∃ c1, Talks RequestType c c1 ∧
      (((requestEncryption crypto env name).run c).2 = c1 ∧
          (∀ r, ((requestEncryption crypto env name).run c).1 = .ok r → r.Closes) ∨
        ∃ token, (requestEncryption crypto env name).run c =
          (.ok (.of .ok), c1.challenged env.rsa token name)) := by
  have hfail (r : HpResult) (hr : r.Closes) : ∀ r', (Except.ok r : Except Halt _) = .ok r' →
      r'.Closes := by
    intro r' he
    cases he
    exact hr
  unfold requestEncryption
  split
  · exact ⟨c, Talks.refl c, .inl ⟨rfl, hfail _ (.inl rfl)⟩⟩
  · rename_i publicKey _
    split
    · exact ⟨c, Talks.refl c, .inl ⟨rfl, hfail _ (.inl rfl)⟩⟩
    · split
      · exact ⟨c, Talks.refl c, .inl ⟨rfl, hfail _ (.inl rfl)⟩⟩
      · rename_i token _
        have hsend : Moves (Talks RequestType) (fwritePacket crypto.cipher env.request
            (encryptionRequestPacket publicKey token) : ConnectionProg κ ρ Bool) :=
          fwritePacket_talks _ _ _ rfl
        have ht := hsend c
        simp only [bind_run]
        rcases hr : (fwritePacket crypto.cipher env.request
          (encryptionRequestPacket publicKey token)).run c with ⟨e | sent, c1⟩ <;> rw [hr] at ht
        · exact ⟨c1, ht, .inl ⟨rfl, fun _ he => by cases he⟩⟩
        · refine ⟨c1, ht, ?_⟩
          simp only [ite_run]
          split_ifs
          · exact .inl ⟨rfl, hfail _ (.inr rfl)⟩
          · exact .inl ⟨rfl, hfail _ (.inl rfl)⟩
          · exact .inl ⟨rfl, hfail _ (.inl rfl)⟩
          · exact .inr ⟨token.toList, rfl⟩

theorem handleLgLoginStart_run (env : LoginStartEnv ρ) (pkt : McprPacket) (c : Connection κ ρ) :
    (handleLgLoginStart crypto env pkt).run c =
      (requestEncryption crypto env (cString pkt.data.loginServerbound.loginStart.name)).run
        (c.named (cString pkt.data.loginServerbound.loginStart.name)) := rfl

end Start

section Response
variable (crypto : Crypto κ ρ)

/-- A key, a token and a name are kept for an answer to the request. -/
structure Awaits (key : Option ρ) (token name : List UInt8) (c : Connection κ ρ) : Prop where
  present : c.tmpPresent = true
  tmp : c.tmp = { verifyToken := .live token, rsa := .live key, username := .live name }

variable {key : Option ρ} {token name : List UInt8} {ids : McprPacketType → Prop}
  {c c' : Connection κ ρ}

theorem Awaits.of_tmp (h : Awaits key token name c) (hpresent : c'.tmpPresent = c.tmpPresent)
    (htmp : c'.tmp = c.tmp) : Awaits key token name c' :=
  ⟨hpresent.trans h.present, htmp.trans h.tmp⟩

theorem Awaits.talks (h : Awaits key token name c) (ht : Talks ids c c') :
    Awaits key token name c' := h.of_tmp ht.tmpPresent ht.tmp

/-- More was noted of a connection. -/
def Connection.noted (c : Connection κ ρ) (es : List (ServerEvent ρ)) : Connection κ ρ :=
  { c with history := c.history ++ es }

theorem used_stays (c : Connection κ ρ) :
    Stays (fun e => e = .useTmp true) c (c.noted [.useTmp true]) := by
  refine ⟨rfl, rfl, _, rfl, fun e he => ?_⟩
  exact List.mem_singleton.mp he

theorem Awaits.noted (h : Awaits key token name c) (es : List (ServerEvent ρ)) :
    Awaits key token name (c.noted es) := ⟨h.present, h.tmp⟩

theorem useTmp_live {α : Type} {member : Tmp ρ → Slot α} {a : α} (h : member c.tmp = .live a) :
    (useTmp member).run c = (.ok a, c.noted [.useTmp true]) := by
  simp only [useTmp, bind_run, get_run, h, note_run, pure_run]
  rfl

/-- The name, the key and the token are given up. -/
def Connection.forgotten (c : Connection κ ρ) : Connection κ ρ :=
  { c with
    tmpPresent := false
    tmp := { verifyToken := .released, rsa := .released, username := .released }
    history := c.history ++ [.useTmp true, .useTmp true, .useTmp true] }

/-- The key and the token are given up, and the name goes to the player. -/
def Connection.loggedIn (c : Connection κ ρ) : Connection κ ρ :=
  { c with
    tmpPresent := false
    tmp := { c.tmp with verifyToken := .released, rsa := .released }
    history := c.history ++ [.useTmp true, .useTmp true] }

theorem forgotten_stays (c : Connection κ ρ) : Stays (fun e => e = .useTmp true) c c.forgotten :=
  ⟨rfl, rfl, _, rfl, by simp⟩

theorem loggedIn_stays (c : Connection κ ρ) : Stays (fun e => e = .useTmp true) c c.loggedIn :=
  ⟨rfl, rfl, _, rfl, by simp⟩

theorem responseError_run (env : EncryptionResponseEnv) (h : Awaits key token name c) :
    (responseError env).run c = (.ok (loginError env.asChat), c.forgotten) := by
  simp [responseError, releaseLogin, releaseUsername, clearTmpPresent, releaseTmp, useTmp, h.tmp,
    Connection.forgotten]

theorem responseClosed_run (h : Awaits key token name c) :
    responseClosed.run c = (.ok (.of .closed), c.forgotten) := by
  simp [responseClosed, releaseLogin, releaseUsername, clearTmpPresent, releaseTmp, useTmp, h.tmp,
    Connection.forgotten]

theorem responseDone_run (h : Awaits key token name c) :
    responseDone.run c = (.ok (.of .ok), c.loggedIn) := by
  simp [responseDone, releaseLogin, clearTmpPresent, releaseTmp, useTmp, h.tmp, Connection.loggedIn]

/-- The shared secret of a response under a key. -/
def sharedSecret (env : EncryptionResponseEnv) (response : EncryptionResponse) (key : ρ) :
    Option (List UInt8) :=
  if env.mallocSecret = false then none
  else if response.sharedSecretLength.toInt > crypto.rsaSize key then none
  else crypto.rsaPrivateDecrypt key (response.sharedSecret.take response.sharedSecretLength.toNat)

theorem decryptSharedSecret_run (env : EncryptionResponseEnv) (response : EncryptionResponse)
    (key : ρ) (h : c.tmp.rsa = .live (some key)) : (decryptSharedSecret crypto env response).run c =
      (.ok (sharedSecret crypto env response key), c.noted [.useTmp true]) := by
  simp only [decryptSharedSecret, bind_run, useTmp_live h, sharedSecret, ite_run, pure_run]
  split_ifs <;> rfl

theorem decryptSharedSecret_null (env : EncryptionResponseEnv) (response : EncryptionResponse)
    (h : c.tmp.rsa = .live none) : (decryptSharedSecret crypto env response).run c =
      (.error .undefined, c.noted [.useTmp true]) := by
  simp only [decryptSharedSecret, bind_run, useTmp_live h, exit_run]

/-- The id under which the session server is asked. -/
def serverIdHash (env : EncryptionResponseEnv) (key : Option ρ) (secret : List UInt8) : List UInt8 :=
  mcprCryptoStringifySha1
    (crypto.sha1 (secret ++ (encodePublicKey crypto key env.encodeKey).getD []))

/-- The session server knows the client, by an id. -/
def EncryptionResponseEnv.Joins (env : EncryptionResponseEnv) (id : Ninuuid) : Prop :=
  env.encodeKey = true ∧ env.hashes = true ∧ env.hasJoined = some id

theorem joinSession_cases (env : EncryptionResponseEnv) (secret : List UInt8)
    (h : Awaits key token name c) :
    (∃ c1, Stays (fun e => e = .useTmp true) c c1 ∧ Awaits key token name c1 ∧
      (joinSession crypto env secret).run c = (.ok none, c1)) ∨
    ∃ id, env.Joins id ∧ (joinSession crypto env secret).run c = (.ok (some id), c.noted
      [.useTmp true, .useTmp true,
        .hasJoined name (serverIdHash crypto env key secret) c.serverAddressUsed id]) := by
  have hrsa : c.tmp.rsa = .live key := by rw [h.tmp]
  simp only [joinSession, bind_run, useTmp_live hrsa]
  rcases hencode : env.encodeKey with _ | _
  · exact .inl ⟨_, used_stays c, h.noted _, by simp [encodePublicKey]⟩
  · simp only [encodePublicKey, ↓reduceIte, ite_run]
    rcases hhash : env.hashes with _ | _
    · exact .inl ⟨_, used_stays c, h.noted _, rfl⟩
    · have hname : (c.noted [.useTmp true]).tmp.username = .live name := (h.noted _).tmp ▸ rfl
      simp only [Bool.true_eq_false, ↓reduceIte, bind_run, useTmp_live hname, get_run]
      rcases hjoined : env.hasJoined with _ | id
      · have hstays := (used_stays c).trans (used_stays (c.noted [.useTmp true]))
        exact .inl ⟨_, hstays, (h.noted _).noted _, rfl⟩
      · refine .inr ⟨id, ⟨hencode, hhash, hjoined⟩, ?_⟩
        simp [Connection.noted, serverIdHash, encodePublicKey, hencode]

/-- The ciphers are set. -/
def Connection.ciphered (c : Connection κ ρ) (ctx : κ) : Connection κ ρ :=
  { c with objects := { c.objects with
      conn := { c.objects.conn with ctxEncrypt := some ctx, ctxDecrypt := some ctx }
      log := c.objects.log ++ [.setCrypto] } }

theorem setCrypto_run (ctx : κ) (c : Connection κ ρ) :
    (onObjects (mcprConnectionSetCrypto ctx ctx)).run c = (.ok (), c.ciphered ctx) := by
  simp [wroteEvents, mcprConnectionSetCrypto, setConn, record, Connection.ciphered]

/-- The secret was decrypted, the ciphers are set, and the session server answered with an id. -/
def Connection.joined (c : Connection κ ρ) (ctx : κ) (name hash : List UInt8) (id : Ninuuid) :
    Connection κ ρ :=
  ((c.noted [.useTmp true]).ciphered ctx).noted [.useTmp true, .useTmp true,
    .hasJoined name hash c.serverAddressUsed id]

theorem joined_stays (c : Connection κ ρ) (ctx : κ) (name hash : List UInt8) (id : Ninuuid) :
    Stays ServerEvent.Minor c (c.joined ctx name hash id) := by
  refine ⟨rfl, rfl, _, List.append_assoc _ _ _, fun e he => ?_⟩
  simp only [List.mem_append, List.mem_cons, List.not_mem_nil, or_false] at he
  rcases he with rfl | rfl | rfl | rfl
  all_goals simp [ServerEvent.Minor]

theorem Awaits.joined (h : Awaits key token name c) (ctx : κ) (hash : List UInt8) (id : Ninuuid) :
    Awaits key token name (c.joined ctx name hash id) := ⟨h.present, h.tmp⟩

/-- What `handle_lg_encryption_response` does with a response that is awaited. -/
def answerEncryption (env : EncryptionResponseEnv) (response : EncryptionResponse) :
    ConnectionProg κ ρ HpResult := do
  let secret ← decryptSharedSecret crypto env response
  match secret with
  | none => responseError env
  | some secret =>
    if env.ciphers = false then responseError env
    else do
      onObjects (mcprConnectionSetCrypto (crypto.initCipher secret) (crypto.initCipher secret))
      let joined ← joinSession crypto env secret
      match joined with
      | none => responseError env
      | some id => enterPlay crypto env id

theorem handleLgEncryptionResponse_run (env : EncryptionResponseEnv) (pkt : McprPacket)
    (c : Connection κ ρ) : (handleLgEncryptionResponse crypto env pkt).run c =
      let response := pkt.data.loginServerbound.encryptionResponse
      let c' := c.noted [.encryptionResponse response.verifyToken]
      if c.tmpPresent = false then (.ok (loginError env.asChat), c')
      else (answerEncryption crypto env response).run c' := by
  simp only [handleLgEncryptionResponse, bind_run, note_run, get_run, ite_run]
  rfl

/-- A response is answered in the end with Login Success. -/
def Admits (env : EncryptionResponseEnv) (response : EncryptionResponse) (key : Option ρ)
    (id : Ninuuid) : Prop :=
  ∃ k secret, key = some k ∧ sharedSecret crypto env response k = some secret ∧
    env.ciphers = true ∧ env.Joins id

/-- A response that is awaited has the connection closed, or it is admitted. -/
theorem answerEncryption_cases (env : EncryptionResponseEnv) (response : EncryptionResponse)
    (h : Awaits key token name c) :
    (Stays (fun e => e = .useTmp true) c ((answerEncryption crypto env response).run c).2 ∧
      ∀ r, ((answerEncryption crypto env response).run c).1 = .ok r → r.Closes ∧
        ((answerEncryption crypto env response).run c).2.tmpPresent = false) ∨
    ∃ id ctx hash, Admits crypto env response key id ∧
      (answerEncryption crypto env response).run c =
        (enterPlay crypto env id).run (c.joined ctx name hash id) := by
  have herror (c1 : Connection κ ρ) (h1 : Awaits key token name c1)
      (hs : Stays (fun e => e = .useTmp true) c c1) :
      Stays (fun e => e = .useTmp true) c ((responseError env).run c1).2 ∧
        ∀ r, ((responseError env).run c1).1 = .ok r → r.Closes ∧
          ((responseError env).run c1).2.tmpPresent = false := by
    rw [responseError_run env h1]
    refine ⟨hs.trans (forgotten_stays c1), fun r hr => ?_⟩
    cases hr
    exact ⟨.inl rfl, rfl⟩
  have hawaits := h.noted [.useTmp true]
  simp only [answerEncryption, bind_run]
  rcases key with _ | k
  · -- a key that could not be made is used all the same
    have hnull : c.tmp.rsa = .live none := by rw [h.tmp]
    simp only [decryptSharedSecret_null crypto env response hnull]
    exact .inl ⟨used_stays c, fun r hr => by cases hr⟩
  · have hkey : c.tmp.rsa = .live (some k) := by rw [h.tmp]
    simp only [decryptSharedSecret_run crypto env response k hkey]
    rcases hsecret : sharedSecret crypto env response k with _ | secret
    · exact .inl (herror _ hawaits (used_stays c))
    · rcases hciphers : env.ciphers with _ | _
      · exact .inl (herror _ hawaits (used_stays c))
      · have hset : Awaits (some k) token name
            ((c.noted [.useTmp true]).ciphered (crypto.initCipher secret)) :=
          ⟨hawaits.present, hawaits.tmp⟩
        have hstays : Stays (fun e => e = .useTmp true) c
            ((c.noted [.useTmp true]).ciphered (crypto.initCipher secret)) :=
          ⟨rfl, rfl, (used_stays c).history⟩
        -- the ciphers are set before the session server is asked
        simp only [Bool.true_eq_false, ↓reduceIte, bind_run, setCrypto_run]
        rcases joinSession_cases crypto env secret hset with ⟨c1, hs, h1, hr⟩ | ⟨id, hjoins, hr⟩
        · simp only [hr]
          exact .inl (herror c1 h1 (hstays.trans hs))
        · simp only [hr]
          exact .inr ⟨id, _, _, ⟨k, secret, rfl, hsecret, hciphers, hjoins⟩, rfl⟩

/-- The state is PLAY from now on. -/
def Connection.entered (c : Connection κ ρ) : Connection κ ρ :=
  { c with
    objects := { c.objects with conn := { c.objects.conn with state := .play } }
    history := c.history ++ [.setState .play] }

/-- A login that comes to an end in `c'`: unless the connection is to be closed, the state is PLAY
and the player is the one who logged in. -/
def LoginEnds (name : List UInt8) (id : Ninuuid) (c' : Connection κ ρ) (r : HpResult) : Prop :=
  c'.tmpPresent = false ∧ (r.Closes ∨ c'.state = .play ∧
    c'.player.map Player.identity = some (name, id))

/-- There is a player. -/
def Connection.playing (c : Connection κ ρ) (player : Player) : Connection κ ρ :=
  { c with player := some player, history := c.history ++ [.useTmp true] }

/-- What `enterPlay` does once the state is PLAY. -/
def joinGame (env : EncryptionResponseEnv) (id : Ninuuid) : ConnectionProg κ ρ HpResult := do
  let created ← createPlayer env.player id
  if created = false then responseError env
  else do
    let result ← sendPostLoginSequence crypto env.sequence
    if result.result = .fatal then responseError env
    else if result.result = .closed then responseClosed
    else responseDone

theorem joinGame_ends (env : EncryptionResponseEnv) (id : Ninuuid) (h : Awaits key token name c)
    (hstate : c.state = .play) :
    Stays ServerEvent.Minor c ((joinGame crypto env id).run c).2 ∧
      ∀ r, ((joinGame crypto env id).run c).1 = .ok r →
        LoginEnds name id ((joinGame crypto env id).run c).2 r := by
  have hname : c.tmp.username = .live name := by rw [h.tmp]
  rcases hmalloc : env.player.malloc with _ | garbage
  · -- the state is PLAY by now, but there is no player
    simp only [joinGame, createPlayer, hmalloc, bind_run, pure_run, ↓reduceIte,
      responseError_run env h]
    refine ⟨(forgotten_stays c).minor, fun r he => ?_⟩
    cases he
    exact ⟨rfl, .inl (.inl rfl)⟩
  · set player := newPlayer env.player garbage name id with hplayer
    have h2 : Awaits key token name (c.playing player) := ⟨h.present, h.tmp⟩
    have hs2 : Stays ServerEvent.Minor c (c.playing player) :=
      Stays.minor ⟨rfl, rfl, (used_stays c).history⟩
    have hrun : (joinGame crypto env id).run c = (do
        let result ← sendPostLoginSequence crypto env.sequence
        if result.result = .fatal then responseError env
        else if result.result = .closed then responseClosed
        else responseDone : ConnectionProg κ ρ HpResult).run (c.playing player) := by
      simp only [joinGame, createPlayer, hmalloc, bind_run, useTmp_live hname, modify_run, pure_run,
        Bool.true_eq_false, ↓reduceIte]
      rfl
    have ht := sendPostLoginSequence_talks crypto env.sequence (c.playing player)
    rw [hrun, bind_run]
    rcases hr : (sendPostLoginSequence crypto env.sequence).run (c.playing player) with
      ⟨e | result, c3⟩ <;> rw [hr] at ht
    · exact ⟨hs2.trans ht.stays, fun r he => by cases he⟩
    · have h3 : Awaits key token name c3 := h2.talks ht
      have hs3 : Stays ServerEvent.Minor c c3 := hs2.trans ht.stays
      -- a player is left behind however the sequence ends
      simp only [ite_run, responseError_run env h3, responseClosed_run h3, responseDone_run h3]
      split_ifs
      · refine ⟨hs3.trans (forgotten_stays c3).minor, fun r he => ?_⟩
        cases he
        exact ⟨rfl, .inl (.inl rfl)⟩
      · refine ⟨hs3.trans (forgotten_stays c3).minor, fun r he => ?_⟩
        cases he
        exact ⟨rfl, .inl (.inr rfl)⟩
      · refine ⟨hs3.trans (loggedIn_stays c3).minor, fun r he => ?_⟩
        exact ⟨rfl, .inr ⟨(ht.state.trans hstate : c3.state = .play), ht.player⟩⟩

/-- What an admitted response comes to: it fails before the state changes, or the state changes
once. -/
theorem enterPlay_cases (env : EncryptionResponseEnv) (id : Ninuuid) (h : Awaits key token name c) :
    (Stays ServerEvent.Minor c ((enterPlay crypto env id).run c).2 ∧
      ∀ r, ((enterPlay crypto env id).run c).1 = .ok r → r.Closes ∧
        ((enterPlay crypto env id).run c).2.tmpPresent = false) ∨
    ∃ c1, Stays ServerEvent.Minor c c1 ∧
      Stays ServerEvent.Minor c1.entered ((enterPlay crypto env id).run c).2 ∧
        ∀ r, ((enterPlay crypto env id).run c).1 = .ok r →
          LoginEnds name id ((enterPlay crypto env id).run c).2 r := by
  have hname : c.tmp.username = .live name := by rw [h.tmp]
  have hused : Stays ServerEvent.Minor c (c.noted [.useTmp true]) := (used_stays c).minor
  have hsend : Moves (Talks fun id => id = .lgCbLoginSuccess) (fwritePacket crypto.cipher env.success
      (loginSuccessPacket id name) : ConnectionProg κ ρ Bool) := fwritePacket_talks _ _ _ rfl
  have ht := hsend (c.noted [.useTmp true])
  rcases hr : (fwritePacket crypto.cipher env.success (loginSuccessPacket id name)).run
    (c.noted [.useTmp true]) with ⟨e | sent, c1⟩ <;> rw [hr] at ht
  · have hrun : (enterPlay crypto env id).run c = (.error e, c1) := by
      simp only [enterPlay, bind_run, useTmp_live hname, hr]
    rw [hrun]
    exact .inl ⟨hused.trans ht.stays, fun r he => by cases he⟩
  · have h1 : Awaits key token name c1 := (h.noted _).talks ht
    have hs1 : Stays ServerEvent.Minor c c1 := hused.trans ht.stays
    rcases sent with _ | _
    · -- Login Success could not be sent, and the state is LOGIN still
      have hrun : (enterPlay crypto env id).run c = if env.success.ninerr = none then
          (.error .undefined, c1) else if env.success.closed then (.ok (.of .closed), c1.forgotten)
          else (.ok (loginError env.asChat), c1.forgotten) := by
        simp only [enterPlay, bind_run, useTmp_live hname, hr, ↓reduceIte, ite_run, exit_run,
          responseClosed_run h1, responseError_run env h1]
      rw [hrun]
      split_ifs
      · exact .inl ⟨hs1, fun r he => by cases he⟩
      · refine .inl ⟨hs1.trans (forgotten_stays c1).minor, fun r he => ?_⟩
        cases he
        exact ⟨.inr rfl, rfl⟩
      · refine .inl ⟨hs1.trans (forgotten_stays c1).minor, fun r he => ?_⟩
        cases he
        exact ⟨.inl rfl, rfl⟩
    · have hrun : (enterPlay crypto env id).run c = (joinGame crypto env id).run c1.entered := by
        simp only [enterPlay, bind_run, useTmp_live hname, hr, Bool.true_eq_false, ↓reduceIte,
          setState_run]
        rfl
      rw [hrun]
      exact .inr ⟨c1, hs1, joinGame_ends crypto env id ⟨h1.present, h1.tmp⟩ rfl⟩

end Response

end Stronk.Mcpr
