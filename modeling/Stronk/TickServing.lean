import Stronk.ClientList
import Stronk.PoolProgress

/-! The ticks of the server over its thread pool (`network/network.c` and `thpool.c`): the main thread
accepts connections, deals the clients out to jobs, adds these to the pool and waits for it, while the
threads of the pool take the jobs and serve the clients. -/
namespace Stronk.Network
open EarlyExit Interleaving Thpool
open Mcpr (Halt)

section Model

/-- Where the main thread is in `net_tick`. -/
inductive Main
  /-- It is in `accept_incoming_connections`, or between two ticks. -/
  | accepting
  /-- It is in `serve_clients`, and has added the jobs before `next`. -/
  | adding (next : ℕ)
  /-- It is in `thpool_wait`. -/
  | waiting
  deriving DecidableEq, Repr

/-- The clients and the thread pool; a job of the pool is the number of a job of the tick. -/
structure Server where
  net : NetState
  pool : ThreadPool ℕ
  main : Main

/-- The number of jobs of the tick. -/
def NetState.jobCount (s : NetState) : ℕ := (s.serving.map fun t => t.jobs.length).getD 0

def Server.call (s : Server) (call : NetCall) : Server := { s with net := (call.run.run s.net).2 }

/-- Thread `i` runs the job `k` of the tick. -/
def Server.Runs (s : Server) (i k : ℕ) : Prop :=
  ∃ a, s.pool.threads[i]? = some (.running a) ∧ jobAt s.pool a = some k

def NetState.Taken (s : NetState) (k : ℕ) : Prop := ∃ clients left, s.job? k = some (.taken clients left)

/-- The steps of the threads of the pool and of the main thread. There is memory for every job: no
`malloc` fails in `serve_clients`, and none in `thpool_add_work`. -/
inductive ServerStep (s : Server) : Server → Prop
  | accept (client : Client) (entry : Option ℕ) : s.main = .accepting →
      (NetCall.acceptIncomingConnection client entry).Admissible s.net →
      ServerStep s (s.call (.acceptIncomingConnection client entry))
  | serve (threadcount : UInt32) : s.main = .accepting → threadcount ≠ 0 →
      ServerStep s { s.call (.serveClients threadcount) with main := .adding 0 }
  | addWork (next newjob : ℕ) (wake : Option ℕ) (pool : ThreadPool ℕ) : s.main = .adding next →
      next < s.net.jobCount → Steps s.pool (.addWork (some newjob) next wake) pool →
      ServerStep s { s with pool, main := .adding (next+1) }
  | callWait (pool : ThreadPool ℕ) : s.main = .adding s.net.jobCount →
      Steps s.pool .callWait pool → ServerStep s { s with pool, main := .waiting }
  | takeClients (i k first : ℕ) (amount : UInt32) : s.Runs i k →
      s.net.job? k = some (.pending first amount) → ServerStep s (s.call (.serveClientBatch k))
  | closeClient (i k : ℕ) (client : Client) (clients left : List Client) : s.Runs i k →
      s.net.job? k = some (.taken clients left) → client ∈ left →
      ServerStep s (s.call (.closeClient k client))
  | thread (i : ℕ) (wake : Option ℕ) (pool : ThreadPool ℕ) : (∀ k, s.Runs i k → s.net.Taken k) →
      Steps s.pool (.thread i wake) pool → ServerStep s { s with pool }
  | threadWakes (i : ℕ) (pool : ThreadPool ℕ) : Steps s.pool (.threadWakes i) pool →
      ServerStep s { s with pool }
  | waits (pool : ThreadPool ℕ) : s.main = .waiting → Steps s.pool .wait pool →
      pool.waiter ≠ .outside → ServerStep s { s with pool }
  | waitWakes (pool : ThreadPool ℕ) : s.main = .waiting → Steps s.pool .waitWakes pool →
      ServerStep s { s with pool }
  | waitReturns (pool : ThreadPool ℕ) : s.main = .waiting → Steps s.pool .wait pool →
      pool.waiter = .outside →
      ServerStep s { s.call .thpoolWait with pool, main := .accepting }

/-- The list of clients stays as it is, or a job that runs closes a client that it took. -/
def Server.OnlyCloses (s s' : Server) : Prop :=
  s'.net.connections = s.net.connections ∨ ∃ i k clients left client, s.Runs i k ∧
    s.net.job? k = some (.taken clients left) ∧ client ∈ left ∧
      s'.net.connections = s.net.connections.erase client

/-- The server after `net_init`, with a pool that has been given no job. -/
structure Starts (serverSocket : Fin (2^31)) (numThreads : ℤ) (s : Server) : Prop where
  net : s.net = netInit serverSocket
  main : s.main = .accepting
  pool : ∃ trace, Run Steps (thpoolInit ℕ numThreads) trace s.pool ∧ adds trace = []
  phase : s.pool.phase = .serving
  waiter : s.pool.waiter = .outside

end Model

section Calls
variable {s t : NetState}

/-- What a job does to the tick: no job of it is lost, and those that have taken their clients stay
so. -/
structure TickKept (s t : NetState) : Prop where
  jobCount : t.jobCount = s.jobCount
  taken : ∀ k, s.Taken k → t.Taken k
  serving : t.serving = none ↔ s.serving = none

instance : IsPreorder NetState TickKept where
  refl _ := ⟨rfl, fun _ h => h, Iff.rfl⟩
  trans _ _ _ h h' := ⟨h'.jobCount.trans h.jobCount, fun k hk => h'.taken k (h.taken k hk),
    h'.serving.trans h.serving⟩

theorem TickKept.of_serving (h : t.serving = s.serving) : TickKept s t := by
  refine ⟨by rw [NetState.jobCount, NetState.jobCount, h], fun k hk => ?_, by rw [h]⟩
  rwa [NetState.Taken, NetState.job?, h]

theorem onList_kept {α : Type} (r : Except SList.Fault α) : Moves TickKept (onList r) := by
  cases r with
  | error f => exact Moves.exit _
  | ok a => exact Moves.pure a

theorem takeClients_kept (first amount : ℕ) (i : UInt32) :
    Moves TickKept (takeClients first amount i) := by
  induction amount generalizing i with
  | zero => exact Moves.pure _
  | succ amount ih =>
    refine Moves.bind Moves.get fun s => Moves.bind (onList_kept _) fun client => ?_
    cases client with
    | none => exact Moves.exit _
    | some client => exact Moves.bind (ih _) fun clients => Moves.pure _

theorem setJob_kept (k : ℕ) (clients left : List Client) :
    Moves TickKept (setJob k (.taken clients left)) := by
  refine Moves.modify fun s => ?_
  rcases hs : s.serving with _ | tick
  · exact TickKept.of_serving (by rw [hs]; rfl)
  · refine ⟨?_, fun j hj => ?_, ?_⟩
    · simp [NetState.jobCount, hs]
    · obtain ⟨clients', left', hjob⟩ := hj
      have hget : tick.jobs[j]? = some (.taken clients' left') := by
        simpa [NetState.job?, hs] using hjob
      by_cases hkj : k = j
      · subst hkj
        have hlt := (List.getElem?_eq_some_iff.mp hget).1
        refine ⟨clients, left, ?_⟩
        simp [NetState.job?, hlt]
      · refine ⟨clients', left', ?_⟩
        simp [NetState.job?, List.getElem?_set_ne hkj, hget]
    · simp [hs]

theorem serveClientBatch_kept (k : ℕ) : Moves TickKept (serveClientBatch k) := by
  refine Moves.bind Moves.get fun s => ?_
  split
  · exact Moves.bind (takeClients_kept _ _ _) fun clients => setJob_kept k _ _
  · exact Moves.pure ()

theorem findClient_kept (conn fuel i : ℕ) : Moves TickKept (findClient conn fuel i) := by
  induction fuel generalizing i with
  | zero => exact Moves.exit _
  | succ fuel ih =>
    refine Moves.bind Moves.get fun s => Moves.bind (onList_kept _) fun length => ?_
    refine Moves.ite (Moves.bind (onList_kept _) fun client => ?_) (Moves.pure none)
    exact Moves.ite (Moves.pure _) (ih _)

theorem connectionClose_kept (conn : ℕ) : Moves TickKept (connectionClose conn) := by
  refine Moves.bind Moves.get fun s => Moves.bind (findClient_kept _ _ _) fun i => ?_
  cases i with
  | none => exact Moves.exit _
  | some i =>
    refine Moves.bind (onList_kept _) fun entry => Moves.ite (Moves.exit _) ?_
    exact Moves.bind (onList_kept _) fun r => Moves.modify fun s => TickKept.of_serving rfl

theorem closeClient_kept (k : ℕ) (client : Client) : Moves TickKept (closeClient k client) := by
  refine Moves.bind (connectionClose_kept _) fun _ => Moves.bind Moves.get fun s => ?_
  split
  · exact setJob_kept k _ _
  · exact Moves.pure ()

theorem acceptIncomingConnection_kept (client : Client) (entry : Option ℕ) :
    Moves TickKept (acceptIncomingConnection client entry) := by
  refine Moves.bind Moves.get fun s => Moves.bind (onList_kept _) fun r => ?_
  exact Moves.ite (Moves.pure ()) (Moves.modify fun s => TickKept.of_serving rfl)

/-- The list of clients is left alone. -/
structure ListKept (s t : NetState) : Prop where
  entries : t.entries = s.entries
  clients : t.clients = s.clients

instance : IsPreorder NetState ListKept where
  refl _ := ⟨rfl, rfl⟩
  trans _ _ _ h h' := ⟨h'.entries.trans h.entries, h'.clients.trans h.clients⟩

theorem ListKept.connections (h : ListKept s t) : t.connections = s.connections := by
  rw [NetState.connections, NetState.connections, h.entries, h.clients]

theorem onList_list {α : Type} (r : Except SList.Fault α) : Moves ListKept (onList r) := by
  cases r with
  | error f => exact Moves.exit _
  | ok a => exact Moves.pure a

theorem takeClients_list (first amount : ℕ) (i : UInt32) :
    Moves ListKept (takeClients first amount i) := by
  induction amount generalizing i with
  | zero => exact Moves.pure _
  | succ amount ih =>
    refine Moves.bind Moves.get fun s => Moves.bind (onList_list _) fun client => ?_
    cases client with
    | none => exact Moves.exit _
    | some client => exact Moves.bind (ih _) fun clients => Moves.pure _

theorem setJob_list (k : ℕ) (job : Job) : Moves ListKept (setJob k job) :=
  Moves.modify fun _ => ⟨rfl, rfl⟩

/-- Taking the clients from the list leaves them in it. -/
theorem serveClientBatch_list (k : ℕ) : Moves ListKept (serveClientBatch k) := by
  refine Moves.bind Moves.get fun s => ?_
  split
  · exact Moves.bind (takeClients_list _ _ _) fun clients => setJob_list k _
  · exact Moves.pure ()

/-- What a job has left to close is in the list. -/
theorem NetSound.mem_left {l : List (ℕ × Client)} (h : NetSound s l) {k : ℕ}
    {clients left : List Client} {client : Client} (hjob : s.job? k = some (.taken clients left))
    (hmem : client ∈ left) : client ∈ l.map Prod.snd := by
  obtain ⟨t, before, b, after, -, -, hdeals, -, hb⟩ := h.job hjob
  have hsound := hdeals.sound b (by simp)
  cases hsound with
  | pending => cases hb
  | taken clients' left' entries hleft =>
    cases hb
    subst hleft
    rw [hdeals.entries]
    simp only [List.flatMap_append, List.flatMap_cons, List.map_append, List.mem_append]
    exact Or.inr (Or.inl hmem)

/-- Closing a client takes it off the list, and nothing else. -/
theorem closeClient_erases {l : List (ℕ × Client)} (h : NetSound s l) {k : ℕ}
    {clients left : List Client} {client : Client} (hjob : s.job? k = some (.taken clients left))
    (hmem : client ∈ left) :
    ((closeClient k client).run s).2.connections = s.connections.erase client := by
  obtain ⟨⟨a, c⟩, hin, rfl⟩ := List.mem_map.mp (h.mem_left hjob hmem)
  obtain ⟨pre, post, rfl⟩ := List.append_of_mem hin
  obtain ⟨entries, list, hrun, hlists⟩ := connectionClose_run h.lists
  set closed : NetState := { s with entries, clients := list, clientCount := s.clientCount-1 }
    with hclosed
  have hset : ListKept closed ((closeClient k c).run s).2 := by
    have hjob' : closed.job? k = some (.taken clients left) := hjob
    have hmove := setJob_list k (.taken clients (left.erase c)) closed
    simp only [closeClient, bind_run, hrun, get_run, hjob']
    exact hmove
  rw [hset.connections, hlists.connections, h.lists.connections, erase_client h.lists.addresses]

theorem runs_sound {serverSocket : Fin (2^31)} {r : Except Halt Unit}
    (h : Runs (netInit serverSocket) r s) : r = .ok () ∧ ∃ l, NetSound s l := by
  have hstart : ∃ l, NetSound (netInit serverSocket) l :=
    ⟨[], ⟨rfl, List.nodup_nil, List.nodup_nil, List.nodup_singleton _, rfl⟩, fun _ hne => by cases hne⟩
  have hends := Reaches.ensures (P := fun s => ∃ l, NetSound s l) hstart call_sound h
  cases r with
  | error e => exact (hends.2 e rfl).elim
  | ok u => exact ⟨rfl, hends.1 rfl⟩

/-- A call that can be made returns, so that the server goes on. -/
theorem runs_call {serverSocket : Fin (2^31)} {call : NetCall}
    (h : Runs (netInit serverSocket) (.ok ()) s) (ha : call.Admissible s) :
    (call.run.run s).1 = .ok () ∧ Runs (netInit serverSocket) (.ok ()) (call.run.run s).2 := by
  have hnext := Reaches.call call h ha
  have hends := (runs_sound hnext).1
  rcases hr : (call.run.run s).1 with e | u
  · rw [hr] at hends
    cases hends
  · rw [hr] at hnext
    exact ⟨rfl, hnext⟩

theorem serveClients_serving {threadcount : UInt32}
    (h : ((serveClients threadcount).run s).1 = .ok ()) :
    ((serveClients threadcount).run s).2.serving ≠ none := by
  rw [serveClients, bind_run, get_run] at h ⊢
  split_ifs at h ⊢ with hzero
  · cases h
  · simp only [bind_run, modify_run] at h ⊢
    generalize (queueBatches (s.clientCount/threadcount.toUInt64).toUInt32
      (s.clientCount%threadcount.toUInt64).toUInt32 threadcount.toNat 0).run s = r at h ⊢
    obtain ⟨e | jobs, s'⟩ := r
    · cases h
    · exact Option.some_ne_none _

end Calls

section Invariant
variable {s s' : Server} {l : List (ℕ × ℕ)}

/-- The jobs that have been added so far. -/
def Server.added (s : Server) : ℕ :=
  match s.main with
  | .accepting => 0
  | .adding next => next
  | .waiting => s.net.jobCount

/-- What holds between two steps: every job of the tick that has been added and has not taken its
clients is in the queue or runs, once. -/
structure ServerSound (serverSocket : Fin (2^31)) (s : Server) (l : List (ℕ × ℕ)) : Prop where
  runs : Runs (netInit serverSocket) (.ok ()) s.net
  counts : Counts s.pool
  nodes : Nodes s.pool l
  phase : s.pool.phase = .serving
  nodup : (l.map Prod.snd ++ s.pool.running).Nodup
  below : ∀ k ∈ l.map Prod.snd ++ s.pool.running, k < s.added
  taken : ∀ k, k < s.added → s.net.Taken k ∨ k ∈ l.map Prod.snd ++ s.pool.running
  added_le : s.added ≤ s.net.jobCount
  waiter : s.main ≠ .waiting → s.pool.waiter = .outside
  serving : s.main = .accepting ↔ s.net.serving = none
  empty : s.pool.waiter = .readingWorking → l = []

/-- Nothing is queued or runs between two ticks. -/
theorem ServerSound.idle {serverSocket : Fin (2^31)} (h : ServerSound serverSocket s l)
    (hmain : s.main = .accepting) : l.map Prod.snd ++ s.pool.running = [] := by
  rw [List.eq_nil_iff_forall_not_mem]
  intro k hk
  have hlt := h.below k hk
  rw [Server.added, hmain] at hlt
  exact absurd hlt (Nat.not_lt_zero k)

/-- A job does something to the clients. -/
theorem ServerSound.call {serverSocket : Fin (2^31)} (h : ServerSound serverSocket s l) (call : NetCall)
    (ha : call.Admissible s.net) (hkept : Moves TickKept call.run) :
    ServerSound serverSocket (s.call call) l := by
  have hmoved := hkept s.net
  have hadded : (s.call call).added = s.added := by
    simp only [Server.added, Server.call]
    split
    · rfl
    · rfl
    · exact hmoved.jobCount
  refine ⟨(runs_call h.runs ha).2, h.counts, h.nodes, h.phase, h.nodup, fun k hk => ?_, fun k hk => ?_,
    ?_, h.waiter, h.serving.trans hmoved.serving.symm, h.empty⟩
  · rw [hadded]
    exact h.below k hk
  · rw [hadded] at hk
    exact (h.taken k hk).imp_left (hmoved.taken k)
  · rw [hadded]
    exact h.added_le.trans hmoved.jobCount.ge

end Invariant

section Pool
variable {serverSocket : Fin (2^31)} {s : Server} {l : List (ℕ × ℕ)} {pool : ThreadPool ℕ}
  {e : Event ℕ}

/-- What the pool does on its own: a job that ends has taken its clients. -/
theorem ServerSound.poolStep (h : ServerSound serverSocket s l) (hs : Steps s.pool e pool)
    (hphase : pool.phase = s.pool.phase) (hadded : added? (s.pool, e) = none)
    (hended : ∀ k, finished? (s.pool, e) = some k → s.net.Taken k)
    (hwaiter : s.main ≠ .waiting → pool.waiter = .outside) :
    ∃ l', ServerSound serverSocket { s with pool } l' := by
  obtain ⟨l', hnodes, heffect⟩ := step_nodes h.nodes hs
  have hheld := heffect.held (by rw [hphase, h.phase]; exact Phase.noConfusion)
  rw [hadded, Option.toList_none, List.nil_append] at hheld
  have hmem (k : ℕ) : k ∈ l.map Prod.snd ++ s.pool.running ↔
      finished? (s.pool, e) = some k ∨ k ∈ l'.map Prod.snd ++ pool.running := by
    rw [← hheld.mem_iff, List.mem_append, Option.mem_toList]
  refine ⟨l', h.runs, step_counts h.counts hs, hnodes, hphase.trans h.phase, ?_, fun k hk => ?_,
    fun k hk => ?_, h.added_le, hwaiter, h.serving, fun hw => ?_⟩
  · exact (List.nodup_append.mp (hheld.nodup_iff.mpr h.nodup)).2.1
  · exact h.below k ((hmem k).mpr (Or.inr hk))
  · rcases h.taken k hk with htaken | hheld
    · exact Or.inl htaken
    · exact ((hmem k).mp hheld).imp_left (hended k)
  · -- the queue was empty when the main thread saw it, and nobody has added a job since
    have hl : l = [] := by
      rcases hs.readingWorking hw with hbefore | ⟨-, hlen⟩
      · exact h.empty hbefore
      · rw [h.nodes.queue.len] at hlen
        exact List.length_eq_zero_iff.mp hlen
    exact heffect.nil hl hadded

/-- When `thpool_wait` returns, all jobs of the tick have taken their clients, and none is left. -/
theorem ServerSound.waitReturns (h : ServerSound serverSocket s l) (hmain : s.main = .waiting)
    (hs : Steps s.pool .wait pool) (hout : pool.waiter = .outside) :
    ∃ l', ServerSound serverSocket { s.call .thpoolWait with pool, main := .accepting } l' := by
  obtain ⟨-, hcases⟩ := hs.wait
  have hlast : s.pool.waiter = .readingWorking ∧ s.pool.numThreadsWorking = 0 ∧
      pool = { s.pool with waiter := .outside, thcountLocked := false } := by
    rcases hcases with ⟨-, -, rfl⟩ | ⟨-, -, rfl⟩ | ⟨-, -, rfl⟩ | hlast | ⟨-, -, rfl⟩
    · cases hout
    · cases hout
    · cases hout
    · exact hlast
    · cases hout
  obtain ⟨hw, hworking, rfl⟩ := hlast
  have hl := h.empty hw
  subst hl
  have hrunning := h.counts.running_nil hworking
  have hserving : s.net.serving ≠ none := by
    intro hnone
    have hacc := h.serving.mpr hnone
    rw [hmain] at hacc
    cases hacc
  obtain ⟨t, ht⟩ := Option.ne_none_iff_exists'.mp hserving
  -- every job has been added, and none that is queued or runs is left
  have htaken : ∀ job ∈ t.jobs, job.isTaken = true := by
    intro job hjob
    obtain ⟨k, hk⟩ := List.mem_iff_getElem?.mp hjob
    have hlt : k < s.added := by
      rw [Server.added, hmain]
      simpa [NetState.jobCount, ht] using (List.getElem?_eq_some_iff.mp hk).1
    obtain ⟨clients, left, hjob⟩ := (h.taken k hlt).resolve_right (by rw [hrunning]; simp)
    have hsame : t.jobs[k]? = some (.taken clients left) := by simpa [NetState.job?, ht] using hjob
    rw [hk] at hsame
    cases hsame
    rfl
  obtain ⟨l', hnodes, heffect⟩ := step_nodes h.nodes hs
  have hl' := heffect.nil rfl rfl
  subst hl'
  refine ⟨[], (runs_call h.runs (show NetCall.thpoolWait.Admissible s.net from ⟨t, ht, htaken⟩)).2,
    step_counts h.counts hs, hnodes, h.phase, ?_, fun k hk => ?_,
    fun k hk => absurd hk (Nat.not_lt_zero k), Nat.zero_le _, fun _ => rfl, iff_of_true rfl rfl,
    (by simp)⟩
  · change s.pool.running.Nodup
    rw [hrunning]
    exact List.nodup_nil
  · change k ∈ s.pool.running at hk
    rw [hrunning] at hk
    cases hk

/-- A job is added to the pool. -/
theorem ServerSound.addWork (h : ServerSound serverSocket s l) {next newjob : ℕ} {wake : Option ℕ}
    (hmain : s.main = .adding next) (hnext : next < s.net.jobCount)
    (hs : Steps s.pool (.addWork (some newjob) next wake) pool) :
    ∃ l', ServerSound serverSocket { s with pool, main := .adding (next+1) } l' := by
  have hadded : s.added = next := by rw [Server.added, hmain]
  obtain ⟨hphase, hwaiter⟩ := hs.addWork_kept
  obtain ⟨l', hnodes, heffect⟩ := step_nodes h.nodes hs
  have hheld : (l'.map Prod.snd ++ pool.running).Perm (next :: (l.map Prod.snd ++ s.pool.running)) :=
    heffect.held (by rw [hphase, h.phase]; exact Phase.noConfusion)
  have hout : s.pool.waiter = .outside := h.waiter (by rw [hmain]; intro hne; cases hne)
  refine ⟨l', h.runs, step_counts h.counts hs, hnodes, hphase.trans h.phase, ?_, fun k hk => ?_,
    fun k hk => ?_, hnext, fun _ => hwaiter.trans hout, ?_, fun hw => ?_⟩
  · rw [hheld.nodup_iff, List.nodup_cons]
    refine ⟨fun hin => ?_, h.nodup⟩
    have hlt := h.below next hin
    omega
  · change k < next+1
    rcases List.mem_cons.mp (hheld.mem_iff.mp hk) with rfl | hin
    · exact Nat.lt_succ_self k
    · have hlt := h.below k hin
      omega
  · change k < next+1 at hk
    by_cases hkn : k = next
    · exact Or.inr (hheld.mem_iff.mpr (hkn ▸ List.mem_cons_self))
    · have hlt : k < s.added := by omega
      exact (h.taken k hlt).imp_right fun hin => hheld.mem_iff.mpr (List.mem_cons_of_mem _ hin)
  · refine iff_of_false (by simp) fun hnone => ?_
    have hacc := h.serving.mpr hnone
    rw [hmain] at hacc
    cases hacc
  · change pool.waiter = .readingWorking at hw
    rw [hwaiter, hout] at hw
    cases hw

theorem ServerSound.callWait (h : ServerSound serverSocket s l) (hmain : s.main = .adding s.net.jobCount)
    (hs : Steps s.pool .callWait pool) :
    ∃ l', ServerSound serverSocket { s with pool, main := .waiting } l' := by
  have hadded : s.added = s.net.jobCount := by rw [Server.added, hmain]
  obtain ⟨l', hnodes, heffect⟩ := step_nodes h.nodes hs
  have hcounts := step_counts h.counts hs
  obtain ⟨-, hrun⟩ := hs
  cases hrun
  have hheld : (l'.map Prod.snd ++ s.pool.running).Perm (l.map Prod.snd ++ s.pool.running) :=
    heffect.held (by change s.pool.phase ≠ .freed; rw [h.phase]; exact Phase.noConfusion)
  refine ⟨l', h.runs, hcounts, hnodes, h.phase, hheld.nodup_iff.mpr h.nodup, fun k hk => ?_,
    fun k hk => ?_, le_rfl, fun hw => absurd rfl hw, ?_, (by simp)⟩
  · have hlt := h.below k (hheld.mem_iff.mp hk)
    rw [hadded] at hlt
    exact hlt
  · exact (h.taken k (hadded ▸ hk)).imp_right hheld.mem_iff.mpr
  · refine iff_of_false (by simp) fun hnone => ?_
    have hacc := h.serving.mpr hnone
    rw [hmain] at hacc
    cases hacc

end Pool

section Steps
variable {serverSocket : Fin (2^31)} {s s' : Server} {l : List (ℕ × ℕ)}

theorem step_sound (h : ServerSound serverSocket s l) (hs : ServerStep s s') :
    ∃ l', ServerSound serverSocket s' l' := by
  cases hs with
  | accept client entry hmain ha => exact ⟨l, h.call _ ha (acceptIncomingConnection_kept client entry)⟩
  | serve threadcount hmain ht =>
    have ha : (NetCall.serveClients threadcount).Admissible s.net := ⟨h.serving.mp hmain, ht⟩
    obtain ⟨hok, hruns⟩ := runs_call h.runs ha
    have hidle := h.idle hmain
    refine ⟨l, hruns, h.counts, h.nodes, h.phase, h.nodup, fun k hk => ?_,
      fun k hk => absurd hk (Nat.not_lt_zero k), Nat.zero_le _,
      fun _ => h.waiter (by simp [hmain]), iff_of_false (by simp) (serveClients_serving hok), h.empty⟩
    change k ∈ l.map Prod.snd ++ s.pool.running at hk
    rw [hidle] at hk
    cases hk
  | addWork next newjob wake pool hmain hnext hs => exact h.addWork hmain hnext hs
  | callWait pool hmain hs => exact h.callWait hmain hs
  | takeClients i k first amount _ hjob =>
    exact ⟨l, h.call (.serveClientBatch k) ⟨first, amount, hjob⟩ (serveClientBatch_kept k)⟩
  | closeClient i k client clients left _ hjob hmem =>
    exact ⟨l, h.call (.closeClient k client) ⟨clients, left, hjob, hmem⟩ (closeClient_kept k client)⟩
  | thread i wake pool hended hs =>
    obtain ⟨-, place, -, -, hdo⟩ := hs.thread
    refine h.poolStep hs (threadDo_kept hdo).1 rfl (fun k hk => ?_) fun hmain => ?_
    · refine hended k ?_
      rw [finished?] at hk
      split at hk
      · rename_i a hi
        exact ⟨a, hi, hk⟩
      · cases hk
    · have hout := h.waiter hmain
      rcases threadDo_waiter hdo with hw | hw
      · rw [hw, hout]
      · rw [hw, hout]
        rfl
  | threadWakes i pool hs =>
    have hrun := hs.2
    cases hrun
    exact h.poolStep hs rfl rfl (fun _ hne => by cases hne) h.waiter
  | waits pool hmain hs hout =>
    refine h.poolStep hs (hs.phase_own trivial) rfl (fun _ hne => by cases hne) fun hw => absurd hmain hw
  | waitWakes pool hmain hs =>
    have hrun := hs.2
    cases hrun
    exact h.poolStep hs rfl rfl (fun _ hne => by cases hne) fun hw => absurd hmain hw
  | waitReturns pool hmain hs hout => exact h.waitReturns hmain hs hout

/-- While a job is queued or runs, the list of clients loses what the jobs close, and changes in no
other way. -/
theorem step_onlyCloses (h : ServerSound serverSocket s l) (hs : ServerStep s s')
    (hbusy : l.map Prod.snd ++ s.pool.running ≠ []) : s.OnlyCloses s' := by
  cases hs with
  | accept client entry hmain => exact absurd (h.idle hmain) hbusy
  | serve threadcount hmain => exact absurd (h.idle hmain) hbusy
  | takeClients i k first amount _ _ => exact Or.inl (serveClientBatch_list k s.net).connections
  | closeClient i k client clients left hruns hjob hmem =>
    obtain ⟨-, entries, hsound⟩ := runs_sound h.runs
    exact Or.inr ⟨i, k, clients, left, client, hruns, hjob, hmem,
      closeClient_erases hsound hjob hmem⟩
  | addWork | callWait | thread | threadWakes | waits | waitWakes | waitReturns => exact Or.inl rfl

theorem Starts.sound {numThreads : ℤ} (h : Starts serverSocket numThreads s) :
    ∃ l, ServerSound serverSocket s l := by
  obtain ⟨trace, hrun, hadds⟩ := h.pool
  obtain ⟨hcounts, l, hnodes, hhistory⟩ := run_sound hrun
  -- no job was added, so that none is queued or runs
  have hqueued := hhistory.queued (by rw [h.phase]; exact Phase.noConfusion)
  rw [hadds, eq_comm, List.append_eq_nil_iff] at hqueued
  have hended := hhistory.ended
  rw [hqueued.1] at hended
  have hrunning := (List.append_eq_nil_iff.mp hended.nil_eq.symm).2
  have hheld : l.map Prod.snd ++ s.pool.running = [] := by rw [hqueued.2, hrunning, List.append_nil]
  refine ⟨l, h.net ▸ .start, hcounts, hnodes, h.phase, hheld ▸ List.nodup_nil, fun k hk => ?_,
    fun k hk => ?_, ?_, fun _ => h.waiter, iff_of_true h.main (by rw [h.net]; rfl), fun hw => ?_⟩
  · rw [hheld] at hk
    cases hk
  · rw [Server.added, h.main] at hk
    exact absurd hk (Nat.not_lt_zero k)
  · rw [Server.added, h.main]
    exact Nat.zero_le _
  · rw [h.waiter] at hw
    cases hw

/-- The server over its thread pool does what the list of clients allows: `thpool_wait` returns when
all jobs of the tick have taken their clients, no job runs in two threads, and none is queued or runs
while the main thread accepts connections. So the list grows under no job; what it loses then is what
the jobs close. -/
theorem ticks_keep_client_list (serverSocket : Fin (2^31)) (numThreads : ℤ) (s t : Server)
    (h : Starts serverSocket numThreads s) (hsteps : Relation.ReflTransGen ServerStep s t) :
    Runs (netInit serverSocket) (.ok ()) t.net ∧ (t.pool.queued ++ t.pool.running).Nodup ∧
      (t.main = .accepting → t.pool.queued = [] ∧ t.pool.running = []) ∧
      ∀ u, ServerStep t u → t.pool.queued ++ t.pool.running ≠ [] → t.OnlyCloses u := by
  have hsound : ∃ l, ServerSound serverSocket t l := by
    induction hsteps with
    | refl => exact h.sound
    | tail _ hs ih =>
      obtain ⟨l, hl⟩ := ih
      exact step_sound hl hs
  obtain ⟨l, hsound⟩ := hsound
  rw [hsound.nodes.queued]
  exact ⟨hsound.runs, hsound.nodup, fun hmain => List.append_eq_nil_iff.mp (hsound.idle hmain),
    fun u hu => step_onlyCloses hsound hu⟩

/-- One thread, and a server without clients. -/
def oneThread : Server where
  net := netInit ⟨3, by decide⟩
  pool := (after (thpoolInit ℕ 1) [.thread 0 none, .initReturns]).2
  main := .accepting

/-- Thread 0 of the pool takes a step. -/
def Server.turn (s : Server) : Server := { s with pool := (after s.pool [.thread 0 none]).2 }

theorem turn_step (s : Server) (hidle : s.pool.threads[0]?.bind Place.node? = none)
    (hexec : (exec s.pool [.thread 0 none]).isSome = true) : ServerStep s s.turn := by
  refine .thread 0 none _ (fun k hruns => ?_) (step_after hexec)
  obtain ⟨a, hi, -⟩ := hruns
  rw [hi] at hidle
  cases hidle

def firstClient : Client where
  address := 10
  fd := ⟨4, by decide⟩

def clientAccepted : Server := oneThread.call (.acceptIncomingConnection firstClient (some 100))

def clientDealt : Server := { clientAccepted.call (.serveClients 1) with main := .adding 0 }

def jobQueued : Server :=
  { clientDealt with
    pool := (after clientDealt.pool [.addWork (some 10) 0 none]).2, main := .adding 1 }

def jobRuns : Server := jobQueued.turn.turn.turn.turn.turn

def clientTaken : Server := jobRuns.call (.serveClientBatch 0)

theorem client_taken_reached : Relation.ReflTransGen ServerStep oneThread clientTaken := by
  have haccept : ServerStep oneThread clientAccepted :=
    .accept firstClient (some 100) rfl
      ⟨by decide +kernel, by decide, by decide +kernel, by decide +kernel⟩
  have hserve : ServerStep clientAccepted clientDealt := .serve 1 rfl (by decide)
  have hpool : Steps clientDealt.pool (.addWork (some 10) 0 none) jobQueued.pool :=
    step_after (by decide +kernel)
  have hadd : ServerStep clientDealt jobQueued :=
    .addWork 0 10 none _ (show clientDealt.main = .adding 0 from rfl) (by decide +kernel) hpool
  have hturns := ((((Relation.ReflTransGen.single
    (turn_step jobQueued (by decide +kernel) (by decide +kernel))).tail
    (turn_step _ (by decide +kernel) (by decide +kernel))).tail
    (turn_step _ (by decide +kernel) (by decide +kernel))).tail
    (turn_step _ (by decide +kernel) (by decide +kernel))).tail
    (turn_step _ (by decide +kernel) (by decide +kernel))
  have htake : ServerStep jobRuns clientTaken :=
    .takeClients 0 0 100 1 ⟨10, by decide +kernel, by decide +kernel⟩ (by decide +kernel)
  exact ((((Relation.ReflTransGen.single haccept).tail hserve).tail hadd).trans hturns).tail htake

/-- A client is accepted, a thread takes the job that is to serve it, and the job closes it. -/
theorem running_job_closes : ∃ u, ServerStep clientTaken u ∧
    clientTaken.net.connections = [firstClient] ∧ clientTaken.pool.running = [0] ∧
      u.net.connections = [] ∧ clientTaken.OnlyCloses u := by
  have hstart : Starts 3 1 oneThread :=
    ⟨rfl, rfl, ⟨_, run_after _ _ (by decide +kernel), by decide +kernel⟩, by decide +kernel,
      by decide +kernel⟩
  have hclose : ServerStep clientTaken (clientTaken.call (.closeClient 0 firstClient)) :=
    .closeClient 0 0 firstClient [firstClient] [firstClient] ⟨10, by decide +kernel, by decide +kernel⟩
      (by decide +kernel) (by decide)
  have honly := (ticks_keep_client_list 3 1 _ _ hstart client_taken_reached).2.2.2 _ hclose
    (by decide +kernel)
  exact ⟨_, hclose, by decide +kernel, by decide +kernel, by decide +kernel, honly⟩

end Steps

end Stronk.Network
