import Stronk.ClientList

/-! The loop of `accept_incoming_connections`: one call of `accept` in every turn, until there are no
connections left in the queue. -/
namespace Stronk.Network

section Model

abbrev Descriptor := Fin (2^31)

inductive Accepted
  | descriptor (fd : Descriptor)
  /-- `EAGAIN` or `EWOULDBLOCK`. -/
  | again
  /-- `ECONNABORTED`. -/
  | aborted
  /-- Any other error. -/
  | failed
  deriving DecidableEq, Repr

/-- What `accept` returns in a turn, and whether each of the calls behind it succeeds if it is made. -/
structure Turn where
  accepted : Accepted
  fcntl : Bool
  fdopen : Bool
  setvbuf : Bool
  connectionNew : Bool
  malloc : Bool
  slistAppend : Bool
  deriving DecidableEq, Repr

/-- A call with a descriptor, which is none for -1, or that the list is given an entry for it. -/
inductive Touch
  | fcntl (fd : Option Descriptor)
  | close (fd : Option Descriptor)
  | fdopen (fd : Option Descriptor)
  | fclose (fd : Option Descriptor)
  | entry (fd : Option Descriptor)
  deriving DecidableEq, Repr

def Touch.fd : Touch → Option Descriptor
  | .fcntl fd | .close fd | .fdopen fd | .fclose fd | .entry fd => fd

def Touch.entry? : Touch → Option (Option Descriptor)
  | .entry fd => some fd
  | _ => none

/-- The descriptors of the clients in their list, and how many there are said to be. -/
structure Clients where
  fds : List (Option Descriptor)
  clientCount : UInt64
  deriving DecidableEq, Repr

def Clients.add (s : Clients) (fd : Option Descriptor) : Clients where
  fds := s.fds ++ [fd]
  clientCount := s.clientCount+1

/-- The turn from behind the call of `accept` on. `fcntl` fails on -1 with `EBADF`. -/
def acceptTurn (t : Turn) (newfd : Option Descriptor) (s : Clients) : Clients × List Touch :=
  if (newfd.isSome && t.fcntl) = false then (s, [.fcntl newfd, .close newfd])
  -- the next two leave the descriptor open
  else if t.fdopen = false then (s, [.fcntl newfd, .fdopen newfd])
  else if t.setvbuf = false then (s, [.fcntl newfd, .fdopen newfd])
  else if t.connectionNew = false then (s, [.fcntl newfd, .fdopen newfd, .fclose newfd])
  else if t.malloc = false then (s, [.fcntl newfd, .fdopen newfd, .close newfd, .fclose newfd])
  else if t.slistAppend = false then
    (s, [.fcntl newfd, .fdopen newfd, .close newfd, .fclose newfd])
  else (s.add newfd, [.fcntl newfd, .fdopen newfd, .entry newfd])

/-- The loop from turn `i` on, with what every turn did. -/
def acceptIncomingConnections (turns : ℕ → Turn) :
    ℕ → ℕ → Clients → Option (Clients × List (Turn × List Touch))
  | 0, _, _ => none
  | fuel+1, i, s =>
    match (turns i).accepted with
    | .again => some (s, [])
    | .failed => do
      -- logged, and `accept` is called again
      let (s, log) ← acceptIncomingConnections turns fuel (i+1) s
      some (s, (turns i, []) :: log)
    | .aborted => do
      -- no `continue` here
      let (s, touches) := acceptTurn (turns i) none s
      let (s, log) ← acceptIncomingConnections turns fuel (i+1) s
      some (s, (turns i, touches) :: log)
    | .descriptor newfd => do
      let (s, touches) := acceptTurn (turns i) (some newfd) s
      let (s, log) ← acceptIncomingConnections turns fuel (i+1) s
      some (s, (turns i, touches) :: log)

end Model

section Property

/-- A descriptor that is in the list once and is not closed. -/
structure Listed (fd : Descriptor) (touches : List Touch) : Prop where
  once : touches.count (.entry (some fd)) = 1
  opened : .close (some fd) ∉ touches ∧ .fclose (some fd) ∉ touches

structure Closed (fd : Descriptor) (touches : List Touch) : Prop where
  unlisted : .entry (some fd) ∉ touches
  closed : .close (some fd) ∈ touches ∨ .fclose (some fd) ∈ touches

/-- A turn touches only what `accept` returned in it, and that is listed or closed. -/
structure TurnRight (t : Turn) (touches : List Touch) : Prop where
  returned : ∀ touch ∈ touches, ∃ fd, t.accepted = .descriptor fd ∧ touch.fd = some fd
  fate : ∀ fd, t.accepted = .descriptor fd → Listed fd touches ∨ Closed fd touches

/-- The descriptors that the list was given entries for. -/
def entries (touches : List Touch) : List (Option Descriptor) := touches.filterMap Touch.entry?

def Clients.addAll (s : Clients) (fds : List (Option Descriptor)) : Clients where
  fds := s.fds ++ fds
  clientCount := s.clientCount+.ofNat fds.length

/-- The loop ends, all of its turns are right, and the list and the count have grown by the entries
and by nothing else. -/
def AcceptRight (turns : ℕ → Turn) (s : Clients) : Prop :=
  ∃ fuel s' log, acceptIncomingConnections turns fuel 0 s = some (s', log) ∧
    (∀ p ∈ log, TurnRight p.1 p.2) ∧ s' = s.addAll (entries (log.flatMap Prod.snd))

/-- A turn that neither goes on with an aborted connection nor leaves a descriptor open. -/
structure Turn.Sound (t : Turn) : Prop where
  notAborted : t.accepted ≠ .aborted
  notLost : ∀ fd, t.accepted = .descriptor fd → t.fcntl = true → t.fdopen = true ∧ t.setvbuf = true

end Property

section Turns

theorem acceptTurn_touches (t : Turn) (newfd : Option Descriptor) (s s' : Clients) :
    (acceptTurn t newfd s).2 = (acceptTurn t newfd s').2 := by
  unfold acceptTurn
  split_ifs <;> rfl

theorem Clients.addAll_nil (s : Clients) : s.addAll [] = s := by
  simp [addAll]

theorem Clients.addAll_append (s : Clients) (fds fds' : List (Option Descriptor)) :
    (s.addAll fds).addAll fds' = s.addAll (fds ++ fds') := by
  simp only [addAll, List.append_assoc, List.length_append, UInt64.ofNat_add, UInt64.add_assoc]

theorem acceptTurn_clients (t : Turn) (newfd : Option Descriptor) (s : Clients) :
    (acceptTurn t newfd s).1 = s.addAll (entries (acceptTurn t newfd s).2) := by
  unfold acceptTurn
  split_ifs
  · exact s.addAll_nil.symm
  · exact s.addAll_nil.symm
  · exact s.addAll_nil.symm
  · exact s.addAll_nil.symm
  · exact s.addAll_nil.symm
  · exact s.addAll_nil.symm
  · -- the only way out with an entry
    rfl

theorem acceptTurn_fd {t : Turn} {newfd : Option Descriptor} {s : Clients} {touch : Touch}
    (h : touch ∈ (acceptTurn t newfd s).2) : touch.fd = newfd := by
  have hall : ∀ touch ∈ (acceptTurn t newfd s).2, touch.fd = newfd := by
    unfold acceptTurn
    split_ifs <;> simp [Touch.fd]
  exact hall touch h

/-- A descriptor is lost in a turn only where its stream cannot be made or set up. -/
theorem acceptTurn_fate_iff (t : Turn) (fd : Descriptor) (s : Clients) :
    Listed fd (acceptTurn t (some fd) s).2 ∨ Closed fd (acceptTurn t (some fd) s).2 ↔
      (t.fcntl = true → t.fdopen = true ∧ t.setvbuf = true) := by
  have hclosed {touches : List Touch} (h : .entry (some fd) ∉ touches)
      (h' : .close (some fd) ∈ touches ∨ .fclose (some fd) ∈ touches) :
      Listed fd touches ∨ Closed fd touches := .inr ⟨h, h'⟩
  have hlost : ¬ (Listed fd [.fcntl (some fd), .fdopen (some fd)] ∨
      Closed fd [.fcntl (some fd), .fdopen (some fd)]) := by
    rintro (h | h)
    · exact absurd h.once (by simp)
    · simpa using h.closed
  have hfcntl : ((some fd).isSome && t.fcntl) = t.fcntl := Bool.true_and _
  unfold acceptTurn
  rw [hfcntl]
  split_ifs with h1 h2 h3 h4 h5 h6
  · exact iff_of_true (hclosed (by simp) (by simp)) (by simp [h1])
  · exact iff_of_false hlost (by simp [h1, h2])
  · exact iff_of_false hlost (by simp [h1, h3])
  · exact iff_of_true (hclosed (by simp) (by simp)) (by simp [h2, h3])
  · exact iff_of_true (hclosed (by simp) (by simp)) (by simp [h2, h3])
  · exact iff_of_true (hclosed (by simp) (by simp)) (by simp [h2, h3])
  · exact iff_of_true (.inl ⟨by simp, by simp⟩) (by simp [h2, h3])

/-- What a turn does with descriptors. -/
def touchesOf (t : Turn) : List Touch :=
  match t.accepted with
  | .again | .failed => []
  | .aborted => (acceptTurn t none ⟨[], 0⟩).2
  | .descriptor newfd => (acceptTurn t (some newfd) ⟨[], 0⟩).2

theorem turnRight_iff {t : Turn} (h : t.accepted ≠ .again) :
    TurnRight t (touchesOf t) ↔ t.Sound := by
  cases ha : t.accepted with
  | again => exact absurd ha h
  | failed =>
    rw [touchesOf, ha]
    refine iff_of_true ⟨by simp, fun fd hfd => ?_⟩ ⟨by simp [ha], fun fd hfd => ?_⟩
    · rw [ha] at hfd
      cases hfd
    · rw [ha] at hfd
      cases hfd
  | aborted =>
    refine iff_of_false (fun hright => ?_) (fun hsound => hsound.notAborted ha)
    have hmem : .fcntl none ∈ touchesOf t := by
      rw [touchesOf, ha]
      simp [acceptTurn]
    obtain ⟨fd, -, hfd⟩ := hright.returned _ hmem
    cases hfd
  | descriptor newfd =>
    have hfate := acceptTurn_fate_iff t newfd ⟨[], 0⟩
    rw [touchesOf, ha]
    constructor
    · rintro ⟨-, h'⟩
      refine ⟨by simp [ha], fun fd hfd => ?_⟩
      exact hfate.mp (h' newfd ha)
    · rintro ⟨-, h'⟩
      refine ⟨fun touch ht => ⟨newfd, ha, acceptTurn_fd ht⟩, fun fd hfd => ?_⟩
      rw [ha] at hfd
      cases hfd
      exact hfate.mpr (h' newfd ha)

end Turns

section Loop

variable {turns : ℕ → Turn}

/-- The loop stops at the first turn in which the queue is empty. -/
theorem accept_stops {i : ℕ} (h : (turns i).accepted = .again) (fuel : ℕ) (s : Clients) :
    acceptIncomingConnections turns (fuel+1) i s = some (s, []) := by
  rw [acceptIncomingConnections, h]

theorem accept_step {i : ℕ} (h : (turns i).accepted ≠ .again) (fuel : ℕ) (s : Clients) :
    acceptIncomingConnections turns (fuel+1) i s =
      (acceptIncomingConnections turns fuel (i+1) (s.addAll (entries (touchesOf (turns i))))).map
        fun r => (r.1, (turns i, touchesOf (turns i)) :: r.2) := by
  rw [acceptIncomingConnections, touchesOf]
  cases ha : (turns i).accepted with
  | again => exact absurd ha h
  | failed =>
    dsimp only
    rw [show entries [] = [] from rfl, Clients.addAll_nil]
    cases acceptIncomingConnections turns fuel (i+1) s <;> rfl
  | aborted =>
    dsimp only
    rw [acceptTurn_touches (turns i) none ⟨[], 0⟩ s, ← acceptTurn_clients]
    cases acceptIncomingConnections turns fuel (i+1) (acceptTurn (turns i) none s).1 <;> rfl
  | descriptor newfd =>
    dsimp only
    rw [acceptTurn_touches (turns i) (some newfd) ⟨[], 0⟩ s, ← acceptTurn_clients]
    cases acceptIncomingConnections turns fuel (i+1) (acceptTurn (turns i) (some newfd) s).1 <;> rfl

/-- A run of the loop from turn `i` to turn `n`. -/
structure EndsAt (turns : ℕ → Turn) (i n : ℕ) : Prop where
  le : i ≤ n
  again : (turns n).accepted = .again
  first : ∀ j, i ≤ j → j < n → (turns j).accepted ≠ .again

theorem accept_ends {i n : ℕ} (h : EndsAt turns i n) {fuel : ℕ} (hfuel : n-i < fuel) (s : Clients) :
    ∃ log, acceptIncomingConnections turns fuel i s =
        some (s.addAll (entries (log.flatMap Prod.snd)), log) ∧
      ∀ p, p ∈ log ↔ ∃ j, i ≤ j ∧ j < n ∧ p = (turns j, touchesOf (turns j)) := by
  obtain ⟨fuel, rfl⟩ := Nat.exists_eq_succ_of_ne_zero (Nat.ne_zero_of_lt hfuel)
  -- by the number of turns that are left
  induction hd : n-i generalizing i fuel s with
  | zero =>
    have hin : i = n := by
      have := h.le
      omega
    refine ⟨[], ?_, fun p => ?_⟩
    · rw [accept_stops (hin ▸ h.again)]
      exact congrArg some (Prod.ext (s.addAll_nil).symm rfl)
    · refine iff_of_false (by simp) ?_
      rintro ⟨j, hj, hjn, -⟩
      omega
  | succ d ih =>
    have hlt : i < n := by omega
    obtain ⟨fuel, rfl⟩ := Nat.exists_eq_succ_of_ne_zero (show fuel ≠ 0 by omega)
    obtain ⟨log, hlog, hmem⟩ := ih ⟨hlt, h.again, fun j hj => h.first j (by omega)⟩
      (s.addAll (entries (touchesOf (turns i)))) fuel (by omega) (by omega)
    refine ⟨(turns i, touchesOf (turns i)) :: log, ?_, fun p => ?_⟩
    · rw [accept_step (h.first i le_rfl hlt), hlog, Option.map_some, Clients.addAll_append,
        List.flatMap_cons]
      simp only [entries, List.filterMap_append]
    · rw [List.mem_cons, hmem]
      constructor
      · rintro (rfl | ⟨j, hj, hjn, rfl⟩)
        · exact ⟨i, le_rfl, hlt, rfl⟩
        · exact ⟨j, by omega, hjn, rfl⟩
      · rintro ⟨j, hj, hjn, rfl⟩
        rcases Nat.eq_or_lt_of_le hj with rfl | hj
        · exact .inl rfl
        · exact .inr ⟨j, hj, hjn, rfl⟩

/-- Without an empty queue there is no end. -/
theorem accept_unfinished {i fuel : ℕ} (h : ∀ j, i ≤ j → j < i+fuel → (turns j).accepted ≠ .again)
    (s : Clients) : acceptIncomingConnections turns fuel i s = none := by
  induction fuel generalizing i s with
  | zero => rfl
  | succ fuel ih =>
    rw [accept_step (h i le_rfl (by omega)), ih fun j hj hlt => h j (by omega) (by omega)]
    rfl

/-- For every sequence of outcomes the loop is right if and only if `accept` comes to tell of an empty
queue, and until then no connection is aborted and the stream of none fails. -/
theorem accept_right_iff (turns : ℕ → Turn) (s : Clients) :
    AcceptRight turns s ↔ ∃ n, (turns n).accepted = .again ∧ ∀ i < n, (turns i).Sound := by
  have hends (h : ∃ n, (turns n).accepted = .again) : EndsAt turns 0 (Nat.find h) :=
    ⟨Nat.zero_le _, Nat.find_spec h, fun j _ hj => Nat.find_min h hj⟩
  constructor
  · rintro ⟨fuel, s', log, hrun, hright, -⟩
    have hagain : ∃ n, (turns n).accepted = .again := by
      by_contra hnone
      rw [accept_unfinished fun j _ _ => not_exists.mp hnone j] at hrun
      cases hrun
    refine ⟨Nat.find hagain, Nat.find_spec hagain, fun i hi => ?_⟩
    -- a run that ends has come to the first empty queue
    have hfuel : Nat.find hagain < fuel := by
      by_contra hle
      rw [accept_unfinished fun j _ hj => Nat.find_min hagain (by omega)] at hrun
      cases hrun
    obtain ⟨log', hlog', hmem⟩ := accept_ends (hends hagain) hfuel s
    have hsame : log' = log := (Prod.mk.inj (Option.some.inj (hlog'.symm.trans hrun))).2
    have hturn := hright _ (hsame ▸ (hmem _).mpr ⟨i, Nat.zero_le i, hi, rfl⟩)
    exact (turnRight_iff (Nat.find_min hagain hi)).mp hturn
  · rintro ⟨n, hn, hsound⟩
    have hagain : ∃ n, (turns n).accepted = .again := ⟨n, hn⟩
    obtain ⟨log, hlog, hmem⟩ := accept_ends (hends hagain) (Nat.lt_succ_self _) s
    refine ⟨_, _, log, hlog, fun p hp => ?_, rfl⟩
    obtain ⟨j, -, hj, rfl⟩ := (hmem p).mp hp
    exact (turnRight_iff (Nat.find_min hagain hj)).mpr
      (hsound j (lt_of_lt_of_le hj (Nat.find_min' hagain hn)))

/-- Out of descriptors the loop asks for one over and over. -/
theorem out_of_descriptors_endless : ¬ ∀ turns : ℕ → Turn,
    {i | ∃ fd, (turns i).accepted = .descriptor fd}.Finite → ∀ s, AcceptRight turns s := by
  intro hall
  let failing : Turn := ⟨.failed, true, true, true, true, true, true⟩
  have hnone : {i : ℕ | ∃ fd, ((fun _ => failing) i).accepted = .descriptor fd} = ∅ := by
    ext i
    simp [failing]
  obtain ⟨fuel, s', log, hrun, -⟩ := hall (fun _ => failing) (hnone ▸ Set.finite_empty) ⟨[], 0⟩
  rw [accept_unfinished (by simp [failing])] at hrun
  cases hrun

end Loop

section List

open Mcpr (Halt)

/-- The descriptors of the clients and their count. -/
def NetState.fds (s : NetState) : Clients where
  fds := s.connections.map fun client => some client.fd
  clientCount := s.clientCount

/-- An entry is what `slist_append` makes of it. -/
theorem entry_appended {s : NetState} {l : List (ℕ × Client)} (h : NetSound s l) (client : Client)
    (a : ℕ) (ha : NetCall.Admissible s (.acceptIncomingConnection client (some a))) :
    ∃ s', (acceptIncomingConnection client (some a)).run s = (.ok (), s') ∧
      s'.fds = s.fds.add (some client.fd) := by
  obtain ⟨entries, clients, hrun, hlists⟩ := acceptIncomingConnection_appends h client a ha
  refine ⟨_, hrun, ?_⟩
  simp only [NetState.fds, Clients.add, hlists.connections, h.lists.connections, List.map_append,
    List.map_singleton]

end List

end Stronk.Network
