import Stronk.PacketLayout

/-! The decoder follows the layout of the packet it decodes: unless an allocation fails, it
ends where the walk over the layout ends, and it strays only where the walk does. -/
namespace Stronk.Mcpr
open ByteMemory BoundedReader

/-- A position in a frame, without the objects of the decoder that stands there. -/
abbrev Position := Cursor Unit

def Position.at (p : Position) (o : DecodeObjects) : Cursor DecodeObjects :=
  { off := p.off, left := p.left, wrapped := p.wrapped, overread := p.overread, objects := o }

def Position.skip (p : Position) (n : ℕ) : Position :=
  { p with off := p.off+n, left := p.left-UInt64.ofNat n
           wrapped := p.wrapped || decide (p.left.toNat < n) }

def Position.load (p : Position) (n : ℕ) : Position :=
  { p with overread := p.overread || decide (p.left.toNat < n) }

abbrev Run := Except DecodeExit ℤ × Cursor DecodeObjects

/-- A run went wrong in a way its caller can see: the count of what is left wrapped, or the
number returned is larger than the frame. -/
def Escapes (bound : ℕ) (r : Run) : Prop :=
  r.2.wrapped = true ∨ ∃ n : ℤ, r.1 = .ok n ∧ (bound : ℤ) < n

/-- An allocation that was asked for failed. -/
def Lacks (env : DecodeEnv) (o : DecodeObjects) : Prop := ∃ k < o.mallocs, env.malloc k = false

/-- A run agrees with a walk over a frame that ends at `bound`. -/
structure Agrees (env : DecodeEnv) (bound : ℕ) (r : Run) (w : Except DecodeExit ℕ × Bool) :
    Prop where
  strayed : r.2.strayed = true → w.2 = true
  outcome : (Lacks env r.2.objects ∧ r.1 = .error (.ret (-1))) ∨
    (r.1 = w.1.map Int.ofNat ∧ (w.2 = true → Escapes bound r))

/-- From position `p`, `k` bytes before the walk, the decoder follows the layout. Bytes past
the frame may have been loaded only if the count wrapped or is about to. -/
def Follows (env : DecodeEnv) (mem : Mem) (p : Position) (k : ℕ) (m : Decoder ℤ)
    (layout : Layout) : Prop :=
  ∀ o, (p.overread = true → p.wrapped = true ∨ p.left.toNat < k) →
    Agrees env p.bound (m.run mem (p.at o)) (layout.walk mem (p.off+k) (p.left-UInt64.ofNat k)
      (p.strayed || decide (p.left.toNat < k)))

/-- A failure exit touches nothing but the objects. -/
def Refuses {α : Type} (m : Decoder α) (n : ℤ) : Prop :=
  ∀ mem (p : Position) o, ∃ o', m.run mem (p.at o) = (.error (.ret n), p.at o')

variable {env : DecodeEnv} {mem : Mem} {p : Position} {k n : ℕ} {α : Type}

theorem fail_refuses (events : List HeapEvent) (n : ℤ) : Refuses (fail events n : Decoder α) n :=
  fun _ _ _ => ⟨_, rfl⟩

theorem failWith_refuses (err : Ninerr) (events : List HeapEvent) (n : ℤ) :
    Refuses (failWith err events n : Decoder α) n :=
  fun _ _ _ => ⟨_, rfl⟩

theorem Refuses.bind {m : Decoder α} {n : ℤ} (h : Refuses m n) {β : Type} (f : α → Decoder β) :
    Refuses (m >>= f) n := by
  intro mem p o
  obtain ⟨o', ho⟩ := h mem p o
  exact ⟨o', bind_error ho⟩

theorem Refuses.orElse {o : Option α} {failure : Decoder α} {n : ℤ} (h : Refuses failure n)
    (ho : o = none) : Refuses (orElse o failure) n := by
  subst ho
  exact h

theorem Refuses.refuse {c : Prop} [Decidable c] {failure : Decoder Unit} {n : ℤ}
    (h : Refuses failure n) (hc : c) : Refuses (refuse c failure) n := by
  simp only [Mcpr.refuse, hc, ↓reduceIte]
  exact h

/-- Stepping never moves the end of the frame towards the start. -/
theorem Position.bound_skip_le (p : Position) (k : ℕ) : p.bound ≤ (p.skip k).bound := by
  simp only [Cursor.bound, Position.skip]
  by_cases hk : k ≤ p.left.toNat
  · rw [toNat_sub_ofNat p.left k hk]
    omega
  · omega

theorem Escapes.mono {bound bound' : ℕ} {r : Run} (h : bound ≤ bound') (hr : Escapes bound' r) :
    Escapes bound r := by
  rcases hr with hw | ⟨n, hn, hlt⟩
  · exact .inl hw
  · exact .inr ⟨n, hn, by omega⟩

/-- A failure exit where the walk fails in the same way. -/
theorem Agrees.failed {bound : ℕ} {o : DecodeObjects} {e : DecodeExit}
    (hw : p.strayed = true → p.wrapped = true) :
    Agrees env bound (.error e, p.at o) (.error e, p.strayed) where
  strayed h := h
  outcome := .inr ⟨rfl, fun h => .inl (hw h)⟩

/-- An allocation that failed ends the run, whatever the walk does. -/
theorem Agrees.noMemory {bound : ℕ} {o : DecodeObjects} {w : Except DecodeExit ℕ × Bool}
    (hm : Lacks env o) (hs : p.strayed = true → w.2 = true) :
    Agrees env bound (.error (.ret (-1)), p.at o) w where
  strayed h := hs h
  outcome := .inl ⟨hm, rfl⟩

section Rules
variable {layout : Layout}

theorem Follows.setOut {K : Unit → Decoder ℤ} (f : McprPacket → McprPacket)
    (h : Follows env mem p k (K ()) layout) : Follows env mem p k (setOut f >>= K) layout :=
  fun o ho => h { o with out := f o.out } ho

/-- Decoder and walk stand at the same place. -/
theorem follows_zero {m : Decoder ℤ} : Follows env mem p 0 m layout ↔
    (p.overread = true → p.wrapped = true) →
      ∀ o, Agrees env p.bound (m.run mem (p.at o)) (layout.walk mem p.off p.left p.strayed) := by
  simp only [Follows, Nat.add_zero, sub_ofNat_zero, Nat.not_lt_zero, or_false, decide_false,
    Bool.or_false]
  exact ⟨fun h hp o => h o hp, fun h o hp => h hp o⟩

theorem strayed_of_overread (hp : p.overread = true → p.wrapped = true) :
    p.strayed = true → p.wrapped = true := by
  simp only [Cursor.strayed, Bool.or_eq_true]
  exact fun h => h.elim id hp

/-- The decoder catches up with the walk. -/
theorem Follows.skip {K : Unit → Decoder ℤ} (h : Follows env mem (p.skip k) 0 (K ()) layout) :
    Follows env mem p k (skip k >>= K) layout := by
  intro o ho
  have ha := follows_zero.mp h (by simpa [Position.skip] using ho) o
  have hw : (p.skip k).strayed = (p.strayed || decide (p.left.toNat < k)) := by
    simp only [Position.skip, Cursor.strayed]
    cases p.wrapped <;> cases p.overread <;> simp
  rw [hw] at ha
  exact ⟨ha.strayed, ha.outcome.imp_right fun hr =>
    ⟨hr.1, fun hs => (hr.2 hs).mono (p.bound_skip_le k)⟩⟩

theorem Follows.varint {events : List HeapEvent} {K : BitVec 32 × ℕ → Decoder ℤ}
    {accepted : ℤ → Bool} {refusal : ℤ} {width : ℕ → ℕ} {next : ℕ → ℕ → Layout}
    (hno : ∀ r, accepted r.1.toInt = false → Refuses (K r) refusal)
    (hok : ∀ r, accepted r.1.toInt = true → r.2 ≤ p.left.toNat →
      Follows env mem p (width r.2) (K r) (next r.1.toNat r.2)) :
    Follows env mem p 0 (varint events >>= K) (.varint accepted refusal width next) := by
  refine follows_zero.mpr fun hp o => ?_
  have hs := strayed_of_overread hp
  simp only [Layout.walk]
  rcases hd : mcprDecodeVarint (shift mem p.off) p.left with message | ⟨v, k⟩
  · have hr : (Mcpr.varint events >>= K).run mem (p.at o) = (.error (.ret (-1)),
        p.at { o with ninerr := some (.new message), heap := o.heap ++ events }) := by
      apply bind_error
      simp [Mcpr.varint, Position.at, hd, failWith, fail, release, ninerrSetErr]
    rw [hr]
    exact Agrees.failed hs
  · have hr : (Mcpr.varint events >>= K).run mem (p.at o) = (K (v, k)).run mem (p.at o) := by
      apply bind_ok
      simp [Mcpr.varint, Position.at, hd]
    rw [hr]
    cases hacc : accepted v.toInt with
    | false =>
      obtain ⟨o', ho'⟩ := hno (v, k) hacc mem p o
      simp only [ho', hacc, Bool.false_eq_true, ↓reduceIte]
      exact Agrees.failed hs
    | true =>
      have hk := (mcprDecodeVarint_size _ _ _ _ hd).2.2
      simp only [hacc, ↓reduceIte]
      exact hok (v, k) hacc hk o fun h => .inl (hp h)

/-- A VarInt whose value the walk accepts whatever it is. -/
theorem Follows.number {events : List HeapEvent} {K : BitVec 32 × ℕ → Decoder ℤ}
    (hok : ∀ r, r.2 ≤ p.left.toNat → Follows env mem p r.2 (K r) layout) :
    Follows env mem p 0 (Mcpr.varint events >>= K) (.number layout) :=
  Follows.varint (fun _ h => by simp [anyInt] at h) fun r _ hr => hok r hr

theorem Follows.orElse {o : Option α} {failure : Decoder α} {K : α → Decoder ℤ}
    (ho : o ≠ none) (h : ∀ a, o = some a → Follows env mem p k (K a) layout) :
    Follows env mem p k (orElse o failure >>= K) layout := by
  obtain ⟨a, rfl⟩ := Option.ne_none_iff_exists'.mp ho
  exact h a rfl

theorem Follows.refuse {c : Prop} [Decidable c] {failure : Decoder Unit} {K : Unit → Decoder ℤ}
    (hc : ¬ c) (h : Follows env mem p k (K ()) layout) :
    Follows env mem p k (refuse c failure >>= K) layout := by
  simp only [Mcpr.refuse, hc, ↓reduceIte]
  exact h

theorem Follows.field {exceeded : Decoder Unit} {decode : Mem → α} {K : α → Decoder ℤ}
    {refusal : ℤ} (he : Refuses exceeded refusal)
    (h : ∀ x, Follows env mem p n (K x) layout) :
    Follows env mem p 0 (field n exceeded decode >>= K) (.fixed n refusal layout) := by
  refine follows_zero.mpr fun hp o => ?_
  have hs := strayed_of_overread hp
  simp only [Layout.walk]
  by_cases hn : p.left.toNat < n
  · obtain ⟨o', ho'⟩ := he mem p o
    have hr : (Mcpr.field n exceeded decode >>= K).run mem (p.at o) =
        (.error (.ret refusal), p.at o') := by
      apply bind_error
      apply bind_error
      simpa [require, Mcpr.refuse, Position.at, hn] using ho'
    rw [hr, if_pos hn]
    exact Agrees.failed hs
  · have hr : (Mcpr.field n exceeded decode >>= K).run mem (p.at o) =
        (K (decode (shift mem p.off))).run mem (p.at o) := by
      apply bind_ok
      simp [Mcpr.field, require, Mcpr.refuse, Position.at, hn]
    have ha := h (decode (shift mem p.off)) o fun h => .inl (hp h)
    rw [hr, if_neg hn]
    simpa only [hn, decide_false, Bool.or_false] using ha

theorem malloc_run (size : ℕ) (hsize : size ≤ ptrdiffMax) (o : DecodeObjects) :
    ∃ o', (malloc env size).run mem (p.at o) = (.ok (some o.mallocs), p.at o') ∨
      (Lacks env o' ∧ (malloc env size).run mem (p.at o) = (.ok none, p.at o')) := by
  cases hm : env.malloc o.mallocs with
  | true => exact ⟨_, .inl (by simp [malloc, Position.at, hsize, hm]; rfl)⟩
  | false =>
    exact ⟨{ o with mallocs := o.mallocs+1 }, .inr ⟨⟨o.mallocs, Nat.lt_succ_self _, hm⟩,
      by simp [malloc, Position.at, hm]⟩⟩

theorem Follows.mallocOr {size : ℕ} {events : List HeapEvent} {K : ℕ → Decoder ℤ}
    (hsize : size ≤ ptrdiffMax) (h : ∀ b, Follows env mem p k (K b) layout) :
    Follows env mem p k (mallocOr env size events >>= K) layout := by
  intro o ho
  obtain ⟨o', hm | ⟨hk, hm⟩⟩ := @malloc_run env mem p size hsize o
  · have hr : (Mcpr.mallocOr env size events >>= K).run mem (p.at o) =
        (K o.mallocs).run mem (p.at o') := by
      apply bind_ok
      rw [Mcpr.mallocOr, bind_ok hm]
      rfl
    rw [hr]
    exact h o.mallocs o' ho
  · have hr : (Mcpr.mallocOr env size events >>= K).run mem (p.at o) = (.error (.ret (-1)),
        p.at { o' with ninerr := some .fromErrno, heap := o'.heap ++ events }) := by
      apply bind_error
      rw [Mcpr.mallocOr, bind_ok hm]
      rfl
    rw [hr]
    refine Agrees.noMemory hk fun hs => ?_
    rw [hs, Bool.true_or]
    exact Layout.walk_wrapped mem layout _ _

/-- Bytes loaded past the frame set the ghost of the walk too, since the walk steps over
them at once. -/
theorem follows_load {m : Decoder ℤ} (hp : p.overread = true → p.wrapped = true)
    (h : Follows env mem (p.load n) n m layout) (o : DecodeObjects) :
    Agrees env p.bound (m.run mem ((p.load n).at o)) (layout.walk mem (p.off+n)
      (p.left-UInt64.ofNat n) (p.strayed || decide (p.left.toNat < n))) := by
  have hn : (p.load n).overread = true → (p.load n).wrapped = true ∨ (p.load n).left.toNat < n := by
    simp only [Position.load, Bool.or_eq_true, decide_eq_true_eq]
    exact fun h => h.imp_left hp
  have hw : ((p.load n).strayed || decide ((p.load n).left.toNat < n)) =
      (p.strayed || decide (p.left.toNat < n)) := by
    change (p.wrapped || (p.overread || decide (p.left.toNat < n)) ||
      decide (p.left.toNat < n)) = _
    simp only [Cursor.strayed, Bool.or_assoc, Bool.or_self]
  rw [← hw]
  exact h o hn

theorem Follows.bytes {f : Mem → α} {K : α → Decoder ℤ}
    (h : ∀ x, Follows env mem (p.load n) n (K x) layout) :
    Follows env mem p 0 (load n f >>= K) (.bytes n layout) :=
  follows_zero.mpr fun hp o => follows_load hp (h (f (shift mem p.off))) o

theorem Follows.string {K : DecodedString → Decoder ℤ}
    (h : ∀ d, Follows env mem (p.load d.bytesRead) d.bytesRead (K d) layout) :
    Follows env mem p 0 (string env >>= K) (.string layout) := by
  apply follows_zero.mpr
  intro hp o
  have hs := strayed_of_overread hp
  have hrun : (Mcpr.string env >>= K).run mem (p.at o) =
      (stringRest env (stringHead (shift mem p.off) p.left) >>= K).run mem (p.at o) :=
    bind_congr_run (string_run env mem (p.at o)) K
  rw [hrun, Layout.walk_string]
  rcases hd : stringHead (shift mem p.off) p.left with err | _ | ⟨len, k⟩
  · exact Agrees.failed hs
  · exact Agrees.failed hs
  · -- the copy goes ahead, whether or not so much is left
    have hcopy (block : ℕ) : Follows env mem p 0 (load (k+len) (fun m => read (shift m k) len) >>=
        fun content => K ⟨content, k+len, block⟩) (.bytes (k+len) layout) :=
      Follows.bytes fun content => h ⟨content, k+len, block⟩
    have hrest : stringRest env (.content len k) >>= K = Mcpr.mallocOr env (len+1) [.freeOut] >>=
        fun block => load (k+len) (fun m => read (shift m k) len) >>=
          fun content => K ⟨content, k+len, block⟩ := by
      simp only [stringRest, bind_bind]
      rfl
    rw [hrest]
    exact follows_zero.mp (Follows.mallocOr (stringHead_content_le hd) hcopy) hp o

theorem Follows.left {K : UInt64 → Decoder ℤ} (h : Follows env mem p k (K p.left) layout) :
    Follows env mem p k (left >>= K) layout := h

theorem Follows.offset {K : ℕ → Decoder ℤ} (h : Follows env mem p k (K p.off) layout) :
    Follows env mem p k (offset >>= K) layout := h

/-- The number returned is where the walk ends. -/
theorem Follows.return {v : ℤ} (hv : v = p.off+k) : Follows env mem p k (pure v) .done := by
  intro o ho
  refine ⟨fun hs => ?_, .inr ⟨?_, fun hs => ?_⟩⟩
  · simp only [Layout.walk, Bool.or_eq_true]
    exact .inl hs
  · simp [Layout.walk, Except.map, hv]
  · simp only [Layout.walk, Bool.or_eq_true, decide_eq_true_eq, Cursor.strayed] at hs
    have hlate (h : p.left.toNat < k) : Escapes p.bound ((pure v : Decoder ℤ).run mem (p.at o)) := by
      refine .inr ⟨v, rfl, ?_⟩
      simp only [Cursor.bound, hv]
      omega
    rcases hs with (hw | hr) | hk
    · exact .inl hw
    · exact (ho hr).elim .inl hlate
    · exact hlate hk

theorem Follows.rest {events : List HeapEvent} {f : UInt64 → Mem → α} {K : UInt64 → α → Decoder ℤ}
    (h : ∀ x, Follows env mem (p.load p.left.toNat) p.left.toNat (K p.left x) .done) :
    Follows env mem p 0 (BoundedReader.left >>= fun l => Mcpr.mallocOr env l.toNat events >>= fun _ =>
      load l.toNat (f l) >>= fun x => K l x) .rest := by
  refine Follows.left (follows_zero.mpr fun hp o => ?_)
  simp only [Layout.walk]
  by_cases hmax : p.left.toNat ≤ ptrdiffMax
  · have ha : Follows env mem p 0 (Mcpr.mallocOr env p.left.toNat events >>= fun _ =>
        load p.left.toNat (f p.left) >>= fun x => K p.left x) (.bytes p.left.toNat .done) :=
      Follows.mallocOr hmax fun _ => Follows.bytes h
    have ha := follows_zero.mp ha hp o
    simpa only [Layout.walk, lt_irrefl, decide_false, Bool.or_false, hmax, ↓reduceIte] using ha
  · have hr : (Mcpr.mallocOr env p.left.toNat events >>= fun _ =>
        load p.left.toNat (f p.left) >>= fun x => K p.left x).run mem (p.at o) =
        (.error (.ret (-1)), p.at { o with ninerr := some .fromErrno, mallocs := o.mallocs+1
                                           heap := o.heap ++ events }) := by
      apply bind_error
      simp [Mcpr.mallocOr, malloc, Position.at, hmax, Mcpr.orElse, failWith, fail, release,
        ninerrSetErr]
    simp only [hr, hmax, ↓reduceIte]
    exact Agrees.failed (strayed_of_overread hp)

end Rules

section Packets

theorem exceeded_refuses : Refuses exceeded (-1) := failWith_refuses _ _ _

theorem decodeHandshake_follows : Follows env mem p 0 (decodeHandshake env)
    (.number (.string (.fixed mcprUshortSize 0
      (.varint (fun n => n = 1 ∨ n = 2) 0 id fun _ _ => .done)))) := by
  refine Follows.number fun protocolVersion _ => Follows.setOut _ (Follows.skip ?_)
  refine Follows.string fun serverAddress => Follows.setOut _ (Follows.skip ?_)
  refine Follows.field (failWith_refuses _ _ _) fun serverPort =>
    Follows.setOut _ (Follows.skip ?_)
  refine Follows.varint (fun r hr => ?_) fun nextState hr _ => ?_
  · simp only [decide_eq_false_iff_not, not_or] at hr
    exact ((failWith_refuses _ _ _).orElse (by simp [hr])).bind _
  · simp only [decide_eq_true_eq] at hr
    refine Follows.orElse (by rcases hr with hr | hr <;> simp [hr]) fun state _ => ?_
    exact Follows.setOut _ (Follows.offset (Follows.return rfl))

theorem decodeLoginStart_follows : Follows env mem p 0 (decodeLoginStart env p.off)
    (.string .done) := by
  refine Follows.string fun name => Follows.setOut _ (Follows.return ?_)
  exact add_comm _ _

theorem decodeEncryptionResponse_follows : Follows env mem p 0 (decodeEncryptionResponse env)
    (.varint nonNegative (-1) id fun sharedSecretLength k =>
      .bytes sharedSecretLength (.varint nonNegative (-1) (fun _ => k) fun verifyTokenLength _ =>
        .bytes verifyTokenLength .done)) := by
  have hsize (v : BitVec 32) : v.toNat ≤ ptrdiffMax := by
    have := v.isLt
    simp only [ptrdiffMax]
    omega
  have hneg (r : BitVec 32 × ℕ) (hr : nonNegative r.1.toInt = false) : r.1.toInt < 0 := by
    simpa [nonNegative] using hr
  have hnot (r : BitVec 32 × ℕ) (hr : nonNegative r.1.toInt = true) : ¬ r.1.toInt < 0 := by
    simpa [nonNegative] using hr
  refine Follows.varint (fun r hr => ?_) fun sharedSecretLength hss _ => ?_
  · exact ((failWith_refuses _ _ _).refuse (hneg r hr)).bind _
  refine Follows.refuse (hnot _ hss) (Follows.setOut _ (Follows.skip ?_))
  refine Follows.mallocOr (hsize _) fun _ => Follows.bytes fun sharedSecret => ?_
  refine Follows.setOut _ (Follows.skip ?_)
  refine Follows.varint (fun r hr => ?_) fun verifyTokenLength hvt _ => ?_
  · exact ((failWith_refuses _ _ _).refuse (hneg r hr)).bind _
  refine Follows.refuse (hnot _ hvt) (Follows.setOut _ (Follows.skip ?_))
  refine Follows.mallocOr (hsize _) fun _ => Follows.bytes fun verifyToken => ?_
  exact Follows.setOut _ (Follows.skip (Follows.offset (Follows.return (by simp))))

theorem decodePing_follows : Follows env mem p 0 (decodePing env p.off)
    (.fixed mcprLongSize (-1) .done) := by
  refine Follows.field exceeded_refuses fun payload => Follows.setOut _ (Follows.return ?_)
  exact add_comm _ _

theorem decodeRequest_follows : Follows env mem p 0 (pure (p.off : ℤ)) .done :=
  Follows.return (by simp)

theorem decodeChatMessage_follows : Follows env mem p 0 (decodeChatMessage env) (.string .done) := by
  refine Follows.string fun message => Follows.setOut _ (Follows.skip (Follows.offset ?_))
  exact Follows.return (by simp)

theorem decodeClientSettings_follows : Follows env mem p 0 (decodeClientSettings env)
    (.string (.fixed mcprByteSize (-1) (.varint (fun n => n = 0 ∨ n = 1 ∨ n = 2) (-1) id
      fun _ _ => .fixed mcprBoolSize (-1) (.fixed mcprUbyteSize (-1)
        (.varint (fun n => n = 0 ∨ n = 1) (-1) id fun _ _ => .done))))) := by
  refine Follows.string fun locale => Follows.setOut _ (Follows.skip ?_)
  refine Follows.field (failWith_refuses _ _ _) fun viewDistance =>
    Follows.setOut _ (Follows.skip ?_)
  refine Follows.varint (fun r hr => ?_) fun chatModeInt hr _ => ?_
  · simp only [decide_eq_false_iff_not, not_or] at hr
    exact ((failWith_refuses _ _ _).orElse (by simp [mcprChatModeOf, hr])).bind _
  simp only [decide_eq_true_eq] at hr
  refine Follows.orElse (by rcases hr with hr | hr | hr <;> simp [mcprChatModeOf, hr])
    fun chatMode _ => Follows.setOut _ (Follows.skip ?_)
  refine Follows.field (failWith_refuses _ _ _) fun chatColors =>
    Follows.setOut _ (Follows.skip ?_)
  refine Follows.field (failWith_refuses _ _ _) fun displayedSkinParts =>
    Follows.setOut _ (Follows.skip ?_)
  refine Follows.varint (fun r hr => ?_) fun mainHandInt hr _ => ?_
  · simp only [decide_eq_false_iff_not, not_or] at hr
    exact ((failWith_refuses _ _ _).orElse (by simp [mcprHandOf, hr])).bind _
  simp only [decide_eq_true_eq] at hr
  refine Follows.orElse (by rcases hr with hr | hr <;> simp [mcprHandOf, hr])
    fun mainHand _ => Follows.setOut _ (Follows.skip ?_)
  exact Follows.offset (Follows.return (by simp))

theorem decodePluginMessage_follows : Follows env mem p 0 (decodePluginMessage env)
    (.string .rest) := by
  refine Follows.string fun channel => Follows.setOut _ (Follows.skip ?_)
  exact Follows.rest fun data => Follows.setOut _ (Follows.offset (Follows.return rfl))

theorem decodeKeepAlive_follows : Follows env mem p 0 decodeKeepAlive (.number .done) := by
  refine Follows.number fun keepAliveId _ => Follows.setOut _ (Follows.offset ?_)
  exact Follows.return rfl

theorem decodeTeleportConfirm_follows :
    Follows env mem p 0 decodeTeleportConfirm (.number .done) := by
  refine Follows.number fun teleportId _ => Follows.setOut _ (Follows.offset ?_)
  exact Follows.return rfl

theorem decodePlayerPosition_follows : Follows env mem p 0 (decodePlayerPosition env)
    (.fixed mcprDoubleSize (-1) (.fixed mcprDoubleSize (-1) (.fixed mcprDoubleSize (-1)
      (.fixed mcprBoolSize (-1) .done)))) := by
  refine Follows.field exceeded_refuses fun x => Follows.setOut _ (Follows.skip ?_)
  refine Follows.field exceeded_refuses fun feetY => Follows.setOut _ (Follows.skip ?_)
  refine Follows.field exceeded_refuses fun z => Follows.setOut _ (Follows.skip ?_)
  refine Follows.field exceeded_refuses fun onGround => Follows.setOut _ (Follows.offset ?_)
  exact Follows.return rfl

theorem decodePlayerPositionAndLook_follows : Follows env mem p 0 (decodePlayerPositionAndLook env)
    (.fixed mcprDoubleSize (-1) (.fixed mcprDoubleSize (-1) (.fixed mcprDoubleSize (-1)
      (.fixed mcprFloatSize (-1) (.fixed mcprFloatSize (-1) (.fixed mcprBoolSize (-1)
        .done)))))) := by
  refine Follows.field exceeded_refuses fun x => Follows.setOut _ (Follows.skip ?_)
  refine Follows.field exceeded_refuses fun feetY => Follows.setOut _ (Follows.skip ?_)
  refine Follows.field exceeded_refuses fun z => Follows.setOut _ (Follows.skip ?_)
  refine Follows.field exceeded_refuses fun yaw => Follows.setOut _ (Follows.skip ?_)
  refine Follows.field exceeded_refuses fun pitch => Follows.setOut _ (Follows.skip ?_)
  refine Follows.field exceeded_refuses fun onGround => Follows.setOut _ (Follows.offset ?_)
  exact Follows.return rfl

theorem decodePlayerLook_follows : Follows env mem p 0 (decodePlayerLook env)
    (.fixed mcprFloatSize (-1) (.fixed mcprFloatSize (-1) (.fixed mcprBoolSize (-1) .done))) := by
  refine Follows.field exceeded_refuses fun yaw => Follows.setOut _ (Follows.skip ?_)
  refine Follows.field exceeded_refuses fun pitch => Follows.setOut _ (Follows.skip ?_)
  refine Follows.field exceeded_refuses fun onGround => Follows.setOut _ (Follows.offset ?_)
  exact Follows.return rfl

theorem decodeHeldItemChange_follows : Follows env mem p 0 (decodeHeldItemChange env)
    (.fixed mcprShortSize (-1) .done) := by
  refine Follows.field exceeded_refuses fun slot => Follows.setOut _ (Follows.skip ?_)
  exact Follows.offset (Follows.return (by simp))

/-- Behind its number, a packet is decoded along the layout of its type; a type without a
layout is refused. -/
theorem decodeFields_follows (state : McprState) (id : UInt8) (t : McprPacketType)
    (ht : mcprGetPacketType id state = some t) : match packetLayout t with
      | some layout => Follows env mem p 0 (decodeFields env state p.off t) layout
      | none => Refuses (decodeFields env state p.off t) (-1) := by
  cases state with
  | handshake =>
    cases ht
    exact decodeHandshake_follows
  | login =>
    simp only [mcprGetPacketType] at ht
    split at ht
    · cases ht
      exact decodeLoginStart_follows
    · cases ht
      exact decodeEncryptionResponse_follows
    · contradiction
  | status =>
    simp only [mcprGetPacketType] at ht
    split at ht
    · cases ht
      exact decodeRequest_follows
    · cases ht
      exact decodePing_follows
    · contradiction
  | play =>
    cases t
    case plSbTeleportConfirm => exact decodeTeleportConfirm_follows
    case plSbChatMessage => exact decodeChatMessage_follows
    case plSbClientSettings => exact decodeClientSettings_follows
    case plSbPluginMessage => exact decodePluginMessage_follows
    case plSbKeepAlive => exact decodeKeepAlive_follows
    case plSbPlayerPosition => exact decodePlayerPosition_follows
    case plSbPlayerPositionAndLook => exact decodePlayerPositionAndLook_follows
    case plSbPlayerLook => exact decodePlayerLook_follows
    case plSbHeldItemChange => exact decodeHeldItemChange_follows
    all_goals first
      | exact fail_refuses _ _
      | (simp only [mcprGetPacketType] at ht; split at ht <;> simp at ht)

end Packets

/-- Where decoding starts. -/
def start (maxlen : UInt64) : Position :=
  { off := 0, left := maxlen, wrapped := false, overread := false, objects := () }

theorem Refuses.agrees {bound : ℕ} {m : Decoder ℤ} (h : Refuses m (-1)) (o : DecodeObjects)
    (hp : p.strayed = false) :
    Agrees env bound (m.run mem (p.at o)) (.error (.ret (-1)), false) := by
  obtain ⟨o', ho⟩ := h mem p o
  rw [ho, ← hp]
  exact Agrees.failed fun hs => absurd hs (by simp [hp])

/-- Decoding a frame follows the walk over it. -/
theorem decodeRun_agrees (env : DecodeEnv) (out : McprPacket) (mem : Mem) (state : McprState)
    (maxlen : UInt64) : Agrees env maxlen.toNat (decodeRun env out mem state maxlen)
      (walkFrame mem state maxlen) := by
  let o : DecodeObjects := { out := out, ninerr := none, mallocs := 0, heap := [] }
  change Agrees env _ ((decodeBody env state).run mem ((start maxlen).at o)) _
  rcases hd : mcprDecodeVarint mem maxlen with message | ⟨id, k⟩
  · have hr : (decodeBody env state).run mem ((start maxlen).at o) = (.error (.ret (-1)),
        (start maxlen).at { o with ninerr := some (.new message), heap := o.heap ++ [] }) := by
      apply bind_error
      simp [varint, Position.at, start, hd, failWith, fail, release, ninerrSetErr]
    rw [hr]
    simp only [walkFrame, frameLayout, hd]
    exact Agrees.failed fun hs => hs
  · -- the number of the packet type never reaches past the frame
    have hk := (mcprDecodeVarint_size _ _ _ _ hd).2.2
    let p : Position := { start maxlen with off := k, left := maxlen-UInt64.ofNat k }
    have hr : (decodeBody env state).run mem ((start maxlen).at o) =
        (orElse (mcprGetPacketType (UInt8.ofBitVec (id.setWidth 8)) state)
          (failWith (.new s!"Invalid packet id {id.toInt}") [] (-1)) >>= fun t =>
          setOut (fun p => { p with id := t }) >>= fun _ => decodeFields env state k t).run mem
          (p.at o) := by
      have hv : (varint []).run mem ((start maxlen).at o) = (.ok (id, k), (start maxlen).at o) := by
        simp [varint, Position.at, start, hd]
      have hs : (skip k : Decoder Unit).run mem ((start maxlen).at o) = (.ok (), p.at o) := by
        simp [Position.at, start, p, not_lt.mpr hk]
      rw [decodeBody, bind_ok hv, bind_ok hs]
    have hb : p.bound = maxlen.toNat := by
      simp only [p, Cursor.bound, toNat_sub_ofNat maxlen k hk]
      omega
    rw [hr]
    simp only [walkFrame, frameLayout, hd]
    rcases ht : mcprGetPacketType (UInt8.ofBitVec (id.setWidth 8)) state with _ | t
    · exact (((failWith_refuses _ _ _).orElse rfl).bind _).agrees o rfl
    · have hf := @decodeFields_follows env mem p state _ t ht
      simp only [Option.bind_some]
      rcases hl : packetLayout t with _ | layout <;> rw [hl] at hf
      · exact hf.agrees (p := p) { o with out := { out with id := t } } rfl
      · rw [← hb]
        exact follows_zero.mp hf (fun h => h) { o with out := { out with id := t } }

/-- A call ends where the walk does, or for lack of memory. -/
theorem mcprDecodePacket_exit (env : DecodeEnv) (out : McprPacket) (mem : Mem) (state : McprState)
    (maxlen : UInt64) :
    ((∃ k, env.malloc k = false) ∧ (mcprDecodePacket env out mem state maxlen).exit = .ret (-1)) ∨
      (mcprDecodePacket env out mem state maxlen).exit =
        exitOf ((walkFrame mem state maxlen).1.map Int.ofNat) := by
  rcases (decodeRun_agrees env out mem state maxlen).outcome with ⟨⟨k, -, hk⟩, hr⟩ | ⟨hr, -⟩
  · exact .inl ⟨⟨k, hk⟩, by simp only [mcprDecodePacket, hr, exitOf]⟩
  · exact .inr (by simp only [mcprDecodePacket, hr])

/-- With memory to spare, a run ends where the walk does. -/
theorem decodeRun_spare (host : Endian) (out : McprPacket) (mem : Mem) (state : McprState)
    (maxlen : UInt64) : (decodeRun (spare host) out mem state maxlen).1 =
      (walkFrame mem state maxlen).1.map Int.ofNat := by
  rcases (decodeRun_agrees (spare host) out mem state maxlen).outcome with ⟨⟨k, -, hk⟩, -⟩ | ⟨hr, -⟩
  · simp [spare] at hk
  · exact hr

end Stronk.Mcpr
