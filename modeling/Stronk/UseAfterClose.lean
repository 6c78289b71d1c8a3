import Stronk.UpdateClient

/-! Whether the server lets go of a connection that is closed: the loop of `update_client` does not
look at what closes it. -/
namespace Stronk.Mcpr
open ByteMemory EarlyExit
variable {κ ρ : Type}

section Property

def ServerEvent.closes : ServerEvent ρ → Bool
  | .connectionClose => true
  | _ => false

/-- In the run so far, nothing was done with the connection after it was closed, and it was closed
at most once. -/
structure UsedWell (c : Connection κ ρ) : Prop where
  unused : .touch true ∉ c.history
  once : c.history.countP ServerEvent.closes ≤ 1

/-- So it was, and a connection that is closed when a tick is over is off the list of clients. -/
structure ClosedWell (r : Except Halt Unit) (c : Connection κ ρ) : Prop where
  used : UsedWell c
  delisted : r = .ok () → c.objects.conn.isClosed = true → c.listed = false

variable (crypto : Crypto κ ρ)

/-- The handler of a packet does not ask for its connection to be closed, but perhaps in LOGIN or
PLAY, where closing does not come to an end. -/
def StaysOpen (env : HandlerEnv ρ) (pkt : McprPacket) (c : Connection κ ρ) : Prop :=
  ∀ result c', (do touch; handlePacket crypto env pkt c.state : ConnectionProg κ ρ HpResult).run c =
      (.ok result, c') →
    result.result = .fatal ∨ result.result = .closed → c'.objects.conn.talks

/-- In a turn of the loop, neither the reader closes the connection nor the handler asks for it. -/
def LeavesOpen (turn : Turn ρ) (pkt : McprPacket) (c : Connection κ ρ) : Prop :=
  ((receivePacket crypto turn pkt).run c).2.objects.conn.isClosed = false ∧
    Dispatches crypto (StaysOpen crypto) turn pkt c

end Property

section Open
variable (crypto : Crypto κ ρ)

/-- A connection that is in use. -/
structure InUse (c : Connection κ ρ) : Prop where
  listed : c.listed = true
  freed : c.freed = false
  isOpen : c.objects.conn.isClosed = false
  unused : .touch true ∉ c.history
  never : c.history.countP ServerEvent.closes = 0

/-- In use, or given up in good order. -/
def Settled (c : Connection κ ρ) : Prop := InUse c ∨ c.listed = false ∧ UsedWell c

variable {crypto} {c c' : Connection κ ρ}

theorem InUse.usedWell (h : InUse c) : UsedWell c := ⟨h.unused, by rw [h.never]; exact Nat.zero_le 1⟩

theorem InUse.closed (h : InUse c) : c.isClosed = false := by
  rw [Connection.isClosed, h.freed, h.isOpen]
  rfl

/-- What a connection in use may be noted for without being given up. -/
theorem InUse.of_events {es : List (ServerEvent ρ)} (h : InUse c)
    (hes : c'.history = c.history ++ es)
    (hall : ∀ e ∈ es, e ≠ .connectionClose ∧ ∀ closed, e = .touch closed → closed = c.isClosed)
    (hlisted : c'.listed = c.listed) (hfreed : c'.freed = c.freed)
    (hclosed : c'.objects.conn.isClosed = false) : InUse c' := by
  refine ⟨hlisted.trans h.listed, hfreed.trans h.freed, hclosed, fun ht => ?_, ?_⟩
  · rw [hes] at ht
    rcases List.mem_append.mp ht with ht | ht
    · exact h.unused ht
    · have := (hall _ ht).2 true rfl
      rw [h.closed] at this
      cases this
  · rw [hes, List.countP_append, h.never, Nat.zero_add, List.countP_eq_zero]
    intro e he hclose
    cases e <;> first
      | exact (hall _ he).1 rfl
      | cases hclose

theorem InUse.handles (h : InUse c) (hh : Handles c c') : InUse c' := by
  obtain ⟨es, hes, hall⟩ := hh.history
  exact h.of_events hes hall hh.listed hh.freed (hh.isClosed.trans h.isOpen)

theorem inUse_of_handles {α : Type} {m : ConnectionProg κ ρ α} (h : Moves Handles m) :
    Ensures InUse m (fun _ => InUse) UsedWell :=
  Ensures.of_moves h fun _ _ hc hh => ⟨fun _ => hc.handles hh, (hc.handles hh).usedWell⟩

theorem inUse_of_talks {α : Type} {m : ConnectionProg κ ρ α} (h : Moves (Talks fun _ => True) m) :
    Ensures InUse m (fun _ => InUse) UsedWell := inUse_of_handles (handles_of_talks h)

theorem touch_handles : Moves Handles (touch : ConnectionProg κ ρ Unit) := fun c =>
  Talks.handles (touch_talks c : Talks (fun _ => True) c _)

end Open

section Close
variable (cipher : Cipher κ) (env : CloseEnv) (message : Option (List UInt8))
variable {c : Connection κ ρ}

/-- Closing a connection in use: what is noted, and how it ends. -/
theorem connectionClose_run (h : InUse c) : ∃ es : List (ServerEvent ρ),
    (∀ e ∈ es, ∃ s id, e = .wrote s id) ∧
    ((connectionClose cipher env message).run c).1 =
      ((mcprConnectionClose cipher env.closing env.fuel message).run c.objects).1 ∧
    ((connectionClose cipher env message).run c).2.listed = false ∧
    ((connectionClose cipher env message).run c).2.history =
      c.history ++ ([.touch false, .connectionClose] ++ es) := by
  have hreads := mcprConnectionClose_reads cipher env.closing env.fuel message c.objects
  simp only [connectionClose, bind_run, touch_run, h.freed, get_run, note_run, modify_run,
    onObjects_run, h.listed, h.closed, Bool.false_eq_true, Bool.true_eq_false, ↓reduceIte]
  rcases hr : (mcprConnectionClose cipher env.closing env.fuel message).run c.objects with
    ⟨e | ⟨⟩, o⟩
  all_goals
    rw [hr] at hreads
    refine ⟨wroteEvents ρ c.objects o, fun e he => ?_, rfl, rfl, by simp⟩
    obtain ⟨rfl, -⟩ := hreads.wroteEvents e he
    exact ⟨_, _, rfl⟩

/-- A connection in use can be closed once. -/
theorem connectionClose_ensures : Ensures InUse (connectionClose cipher env message :
    ConnectionProg κ ρ Unit) (fun _ c => c.listed = false ∧ UsedWell c) UsedWell := by
  intro c h
  obtain ⟨es, hall, -, hlisted, hes⟩ := connectionClose_run cipher env message h
  have hused : UsedWell ((connectionClose cipher env message : ConnectionProg κ ρ Unit).run c).2 := by
    constructor
    · rw [hes]
      intro ht
      rcases List.mem_append.mp ht with ht | ht
      · exact h.unused ht
      · rcases List.mem_append.mp ht with ht | ht
        · simp at ht
        · obtain ⟨s, id, he⟩ := hall _ ht
          cases he
    · have hnone : es.countP ServerEvent.closes = 0 := by
        rw [List.countP_eq_zero]
        intro e he hclose
        obtain ⟨s, id, rfl⟩ := hall e he
        cases hclose
      rw [hes, List.countP_append, List.countP_append, h.never, hnone]
      exact le_refl 1
  exact ⟨fun _ _ => ⟨hlisted, hused⟩, fun _ _ => hused⟩

/-- In LOGIN and PLAY closing does not come to an end. -/
theorem connectionClose_never : Ensures (fun c => InUse c ∧ c.objects.conn.talks)
    (connectionClose cipher env message : ConnectionProg κ ρ Unit) (fun _ _ => False) UsedWell := by
  rintro c ⟨h, ht⟩
  obtain ⟨es, -, hrun, -⟩ := connectionClose_run cipher env message h
  refine ⟨fun _ hok => ?_, (connectionClose_ensures cipher env message c h).2⟩
  rw [hrun] at hok
  exact mcprConnectionClose_never cipher env.closing env.fuel message c.objects h.isOpen ht hok

end Close

section Runs
variable (crypto : Crypto κ ρ)

theorem packetHandler_inUse (env : HandlerEnv ρ) (pkt : McprPacket) :
    Ensures (fun c => StaysOpen crypto env pkt c ∧ InUse c) (packetHandler crypto env pkt)
      (fun _ => InUse) UsedWell := by
  rintro c ⟨hstays, h⟩
  have hrun : (packetHandler crypto env pkt).run c = (do
      let result ← (do touch; handlePacket crypto env pkt c.state)
      finishPacket crypto env.close result : ConnectionProg κ ρ Bool).run c := by
    simp only [packetHandler, bind_run, touch_run, h.freed, get_run, Bool.false_eq_true, ↓reduceIte]
    rfl
  have hh : Moves Handles (do touch; handlePacket crypto env pkt c.state :
      ConnectionProg κ ρ HpResult) :=
    touch_handles.bind fun _ => handlePacket_handles crypto env pkt c.state
  have hone := inUse_of_handles hh c h
  rw [hrun, bind_run]
  rcases hr : (do touch; handlePacket crypto env pkt c.state : ConnectionProg κ ρ HpResult).run c with
    ⟨e | result, c1⟩ <;> rw [hr] at hone
  · exact ⟨fun _ he => (by cases he), fun _ _ => hone.2 e rfl⟩
  · have hin := hone.1 result rfl
    have hfinish : Ensures (fun c' => c' = c1) (finishPacket crypto env.close result)
        (fun _ => InUse) UsedWell := by
      refine Ensures.ite (fun hclose => ?_) fun _ => Ensures.pure fun _ he => he ▸ hin
      have ht := hstays result c1 hr hclose
      refine Ensures.bind ((connectionClose_never _ _ _).mono (fun _ he => he ▸ ⟨hin, ht⟩)
        (fun _ _ h => h) fun _ h => h) fun _ => Ensures.pure fun _ hf => hf.elim
    exact hfinish c1 rfl

theorem readTurn_inUse (turn : Turn ρ) (pkt : McprPacket) :
    Ensures (fun c => LeavesOpen crypto turn pkt c ∧ InUse c) (readTurn crypto turn pkt)
      (fun next c => if next.isSome then InUse c else InUse c) UsedWell := by
  have hread : Ensures (fun c =>
      ((receivePacket crypto turn pkt).run c).2.objects.conn.isClosed = false ∧ InUse c)
      (receivePacket crypto turn pkt) (fun _ => InUse) UsedWell := by
    rintro c ⟨hclosed, h⟩
    have hin : InUse ((receivePacket crypto turn pkt).run c).2 := by
      simp only [receivePacket, bind_run, touch_run, h.freed, onObjects_run, Bool.false_eq_true,
        ↓reduceIte] at hclosed ⊢
      refine h.of_events (List.append_assoc _ _ _) (fun e he => ?_) rfl h.freed.symm hclosed
      rcases List.mem_append.mp he with he | he
      · rw [List.mem_singleton] at he
        subst he
        refine ⟨by rintro ⟨⟩, fun closed he => ?_⟩
        cases he
        rfl
      · obtain ⟨rfl, -⟩ := (mcprConnectionReadPacket_reads crypto.cipher turn.read pkt
          c.objects).wroteEvents e he
        exact ⟨by rintro ⟨⟩, by rintro _ ⟨⟩⟩
    exact ⟨fun _ _ => hin, fun _ _ => hin.usedWell⟩
  refine (readTurn_ensures hread (packetHandler_inUse crypto turn.handler)
    (inUse_of_handles touch_handles)).mono ?_ (fun _ _ h => h) fun _ h => h
  exact fun c hc => ⟨hc.1.2, hc.1.1, hc.2⟩

theorem tickStart_settled (tick : Tick ρ) : Ensures InUse (tickStart crypto tick)
    (fun start c => if start.1 then InUse c else Settled c) UsedWell := by
  apply tickStart_ensures tick (L := InUse)
  · exact inUse_of_handles touch_handles
  · intro c hc _
    exact hc
  · intro c hc
    exact hc
  · intro α m hm
    exact inUse_of_handles (handles_of_talks hm)
  · exact (connectionClose_ensures crypto.cipher tick.keepAlive.close none).mono (fun _ h => h)
      (fun _ _ h => .inr h) fun _ h => h
  · intro c hc
    exact hc.usedWell

theorem checkTimeout_settled (env : TimeoutEnv) (hadPlayer : Bool) :
    Ensures InUse (checkTimeout crypto env hadPlayer) (fun _ => Settled) UsedWell := by
  have htimeout : Ensures InUse (doTimeout crypto env) (fun _ => Settled) UsedWell :=
    (inUse_of_handles touch_handles).bind fun _ =>
      (connectionClose_ensures _ _ _).mono (fun _ h => h) (fun _ _ h => .inr h) fun _ h => h
  have hdone : Ensures InUse (pure () : ConnectionProg κ ρ Unit) (fun _ => Settled) UsedWell :=
    Ensures.pure fun _ h => .inl h
  refine Ensures.ite (fun _ => ?_) fun _ => ?_
  · exact (inUse_of_talks requirePlayer_talks).bind fun player =>
      Ensures.ite (fun _ => htimeout) fun _ => hdone
  · refine (inUse_of_handles touch_handles).bind fun _ => Ensures.bind
      (Ensures.get (Q := fun _ => InUse) fun _ h => h) fun c => ?_
    exact Ensures.ite (fun _ => htimeout) fun _ => hdone

/-- In a run in which neither reading closes a connection nor a handler asks for it, a connection
is closed at most once, is not used afterwards and is off the list then. -/
theorem no_use_after_close (garbage : Mem) (input : List UInt8) (now : ℤ)
    (r : Except Halt Unit) (c : Connection κ ρ)
    (h : Served crypto (LeavesOpen crypto) (acceptConnection ρ garbage input now) r c) :
    ClosedWell r c := by
  have hstart : Settled (acceptConnection (κ := κ) ρ garbage input now) :=
    .inl ⟨rfl, rfl, rfl, by simp [acceptConnection], by simp [acceptConnection]⟩
  have hrun := h.ensures (P := Settled) (E := UsedWell) hstart fun tick => ?_
  · cases r with
    | ok a =>
      refine ⟨?_, fun _ hclosed => ?_⟩
      · rcases hrun.1 rfl with hc | ⟨-, hc⟩
        · exact hc.usedWell
        · exact hc
      · rcases hrun.1 rfl with hc | ⟨hc, -⟩
        · rw [hc.isOpen] at hclosed
          cases hclosed
        · exact hc
    | error e => exact ⟨hrun.2 e rfl, fun he => by cases he⟩
  · refine (updateClient_ensures (I := InUse) (K := InUse) (J := Settled) tick
      (tickStart_settled crypto tick) (readTurn_inUse crypto) (fun _ h => h.usedWell)
      (checkTimeout_settled crypto tick.timeout)).mono ?_ (fun _ _ h => h) fun _ h => h
    rintro u ⟨⟨hlisted, hmeets⟩, hu⟩
    refine ⟨hmeets, ?_⟩
    rcases hu with hu | ⟨hu, -⟩
    · exact hu
    · rw [hu] at hlisted
      cases hlisted

end Runs

section Example

/-- A client that asks for STATUS, and then nothing. -/
def statusInput : Connection Unit Unit := acceptExample 7 [0, 0xd4, 2, 0, 0, 0, 1]

/-- Its Handshake comes, and a minute is over. -/
def statusTick : Tick Unit :=
  { tickExample [1, 0] with
    timeout := { clock := default, time := 61, asChat := false, close := closeExample } }

/-- What the decoder makes of its Handshake. -/
def statusPacket : McprPacket :=
  (mcprDecodePacket (spare .little) default (ofList [0, 0xd4, 2, 0, 0, 0, 1]) .handshake 7).out

theorem status_meets : TickMeets cryptoExample (LeavesOpen cryptoExample) statusTick statusInput := by
  intro hadPlayer _
  refine ⟨⟨by rfl, fun r hr _ => ?_⟩, fun next _ => ⟨⟨by rfl, fun r hr hok => ?_⟩, fun _ _ => trivial⟩⟩
  · -- the handler is content with the Handshake
    cases (by rfl : ((receivePacket cryptoExample { read := readExample 1, handler := handlerExample }
      default).run statusInput).1 = .ok ⟨true, statusPacket⟩).symm.trans hr
    intro result c' hrun hcloses
    cases (by rfl : _ = Except.ok (HpResult.of .ok)).symm.trans (congrArg Prod.fst hrun)
    rcases hcloses with hcloses | hcloses <;> cases hcloses
  · cases (by rfl : _ = Except.ok (ReadResult.mk false next)).symm.trans hr
    cases hok

/-- The client is timed out once its Handshake was handled. -/
theorem status_client_closed_well : ∃ r c,
    Served cryptoExample (LeavesOpen cryptoExample) statusInput r c ∧
      .handshake [] ∈ c.history ∧ .connectionClose ∈ c.history ∧ ClosedWell r c := by
  obtain ⟨r, h⟩ := served_tick statusInput statusTick rfl status_meets
  exact ⟨r, _, h, by decide +kernel, by decide +kernel,
    no_use_after_close cryptoExample _ _ 0 r _ h⟩

/-- A client that begins with a packet whose number is cut off. -/
def brokenExample : Connection Unit Unit := acceptConnection Unit (fun _ => 0) [1, 0x80] 0

/-- The reader closes the connection of the broken client, but the server keeps it on its list and
goes on to use it. -/
theorem broken_client_used_after_close : ∃ r c,
    Served cryptoExample (fun _ _ _ => True) brokenExample r c ∧ r = .ok () ∧
      ServerEvent.touch true ∈ c.history ∧ c.objects.conn.isClosed = true ∧ c.listed = true ∧
        ¬ ClosedWell r c := by
  have hrun : ((updateClient cryptoExample (tickExample [2])).run brokenExample).1 = .ok () ∧
      ServerEvent.touch true ∈
        ((updateClient cryptoExample (tickExample [2])).run brokenExample).2.history ∧
      ((updateClient cryptoExample (tickExample [2])).run brokenExample).2.objects.conn.isClosed =
        true ∧
      ((updateClient cryptoExample (tickExample [2])).run brokenExample).2.listed = true := by
    decide +kernel
  obtain ⟨hr, hused, hclosed, hlisted⟩ := hrun
  refine ⟨_, _, Reaches.call (tickExample [2]) .start ⟨rfl, fun _ _ => ?_⟩, by rw [hr]; rfl, hused,
    hclosed, hlisted, fun h => h.used.unused hused⟩
  exact turnsMeet_of_forall (fun _ _ _ => trivial) _ _ _

end Example

end Stronk.Mcpr
