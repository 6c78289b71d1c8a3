import Stronk.McprConnection
import Stronk.SList

/-! The list of clients (`network/network.c`): new ones are put at its end, and in every tick it is
dealt out to the jobs of the thread pool, which take their clients from it and close some of them.
The lock of the list is held while the jobs are queued, while a job takes its clients and while a
client is taken off, so that each of these is one step. -/
namespace Stronk.Network
open EarlyExit SList
open Mcpr (Halt)

section Model

/-- A connection by its address, with the descriptor of its socket. -/
structure Client where
  address : ℕ
  fd : Fin (2^31)
  deriving DecidableEq, Repr

/-- A job that is queued with the first entry and the number of its clients, or one that took
them; `left` are those that it has not closed. -/
inductive Job
  | pending (first : ℕ) (amount : UInt32)
  | taken (clients left : List Client)
  deriving DecidableEq, Repr

def Job.isTaken : Job → Bool
  | .pending _ _ => false
  | .taken _ _ => true

/-- The clients that a job took. -/
def Job.clients? : Job → Option (List Client)
  | .pending _ _ => none
  | .taken clients _ => some clients

/-- A tick from `serve_clients` on; `present` are the clients at its start. -/
structure Serving where
  present : List Client
  jobs : List Job
  deriving DecidableEq, Repr

structure NetState where
  serverSocket : Fin (2^31)
  entries : Heap ℕ Client
  clients : Option ℕ
  clientCount : UInt64
  serving : Option Serving

/-- The clients of the list. -/
def NetState.connections (s : NetState) : List Client := listData s.entries s.clients

/-- What `net_init` leaves. -/
def netInit (serverSocket : Fin (2^31)) : NetState where
  serverSocket := serverSocket
  entries := ∅
  clients := none
  clientCount := 0
  serving := none

abbrev NetProg := Prog NetState Halt

def haltOf : Fault → Halt
  | .dangling => .undefined
  | .endless => .outOfFuel
  | .overflow => .trap

/-- A call of `algo/slist.c`. -/
def onList {α : Type} (r : Except Fault α) : NetProg α :=
  match r with
  | .ok a => return a
  | .error f => exit (haltOf f)

/-- `accept_incoming_connections` for one connection; `entry` is the memory for the entry. -/
def acceptIncomingConnection (client : Client) (entry : Option ℕ) : NetProg Unit := do
  let s ← get
  let r ← onList (slistAppend s.entries s.clients entry client)
  if entry = none then pure ()
  else modify fun s => { s with entries := r.1, clients := r.2, clientCount := s.clientCount+1 }

/-- The loop of `serve_clients`, with the number of threads that are to come. -/
def queueBatches (connsPerThread rest : UInt32) : ℕ → UInt32 → NetProg (List Job)
  | 0, _ => return []
  | threads+1, index => do
    let amount := if threads = 0 then connsPerThread+rest else connsPerThread
    let s ← get
    let arg1 ← onList (slistNthEntry s.entries s.clients index.toBitVec.toInt)
    match arg1 with
    | none => queueBatches connsPerThread rest threads index
    | some first => do
      let jobs ← queueBatches connsPerThread rest threads (index+amount)
      return .pending first amount :: jobs

def serveClients (threadcount : UInt32) : NetProg Unit := do
  let s ← get
  if threadcount = 0 then exit .trap
  else do
    let jobs ← queueBatches (s.clientCount/threadcount.toUInt64).toUInt32
      (s.clientCount%threadcount.toUInt64).toUInt32 threadcount.toNat 0
    modify fun s => { s with serving := some { present := s.connections, jobs } }

/-- The first loop of `serve_client_batch`. A client that is NULL is used all the same. -/
def takeClients (first : ℕ) : ℕ → UInt32 → NetProg (List Client)
  | 0, _ => return []
  | amount+1, i => do
    let s ← get
    let client ← onList (slistNthData s.entries (some first) i.toBitVec.toInt)
    match client with
    | none => exit .undefined
    | some client => do
      let clients ← takeClients first amount (i+1)
      return client :: clients

def setJob (i : ℕ) (job : Job) : NetProg Unit :=
  modify fun s => { s with serving := s.serving.map fun t => { t with jobs := t.jobs.set i job } }

def NetState.job? (s : NetState) (i : ℕ) : Option Job := s.serving.bind fun t => t.jobs[i]?

/-- `serve_client_batch` up to its second loop. -/
def serveClientBatch (i : ℕ) : NetProg Unit := do
  let s ← get
  match s.job? i with
  | some (.pending first amount) => do
    let clients ← takeClients first amount.toNat 0
    setJob i (.taken clients clients)
  | _ => pure ()

/-- The loop of `connection_close`: where is the client? -/
def findClient (conn : ℕ) : ℕ → ℕ → NetProg (Option ℕ)
  | 0, _ => exit .outOfFuel
  | fuel+1, i => do
    let s ← get
    let length ← onList (slistLength s.entries s.clients)
    if i < length then do
      let client ← onList (slistNthData s.entries s.clients i)
      if client.map Client.address = some conn then return some i
      else findClient conn fuel (i+1)
    else return none

/-- What `connection_close` does to the list. -/
def connectionClose (conn : ℕ) : NetProg Unit := do
  let s ← get
  let i ← findClient conn (s.entries.keys.length+1) 0
  match i with
  | none => exit .exitFailure
  | some i => do
    let entry ← onList (slistNthEntry s.entries s.clients i)
    if entry = none then exit .exitFailure
    else do
      let r ← onList (slistRemoveEntry s.entries s.clients entry)
      modify fun s => { s with entries := r.2.1, clients := r.2.2, clientCount := s.clientCount-1 }

/-- A job closes one of its clients. -/
def closeClient (i : ℕ) (client : Client) : NetProg Unit := do
  connectionClose client.address
  let s ← get
  match s.job? i with
  | some (.taken clients left) => setJob i (.taken clients (left.erase client))
  | _ => pure ()

/-- `thpool_wait` returns. -/
def thpoolWait : NetProg Unit := modify fun s => { s with serving := none }

inductive NetCall
  | acceptIncomingConnection (client : Client) (entry : Option ℕ)
  | serveClients (threadcount : UInt32)
  | serveClientBatch (i : ℕ)
  | closeClient (i : ℕ) (client : Client)
  | thpoolWait

def NetCall.run : NetCall → NetProg Unit
  | .acceptIncomingConnection client entry => Network.acceptIncomingConnection client entry
  | .serveClients threadcount => Network.serveClients threadcount
  | .serveClientBatch i => Network.serveClientBatch i
  | .closeClient i client => Network.closeClient i client
  | .thpoolWait => Network.thpoolWait

end Model

section Property

/-- When a call can be made. A new connection has an address, a descriptor and an entry that are
not in use; a job closes only what it took, and nothing twice; the pool waits for all jobs. -/
def NetCall.Admissible (s : NetState) : NetCall → Prop
  | .acceptIncomingConnection client entry => s.serving = none ∧ client.fd ≠ s.serverSocket ∧
    (∀ c ∈ s.connections, c.fd ≠ client.fd ∧ c.address ≠ client.address) ∧
      ∀ a, entry = some a → a ∉ s.entries
  | .serveClients threadcount => s.serving = none ∧ threadcount ≠ 0
  | .serveClientBatch i => ∃ first amount, s.job? i = some (.pending first amount)
  | .closeClient i client => ∃ clients left, s.job? i = some (.taken clients left) ∧ client ∈ left
  | .thpoolWait => ∃ t, s.serving = some t ∧ ∀ job ∈ t.jobs, job.isTaken = true

/-- Accepts, ticks and closes, in any order that is possible. -/
abbrev Runs : NetState → Except Halt Unit → NetState → Prop :=
  Reaches NetCall.run NetCall.Admissible

/-- In a tick the jobs take each client once: no two take the same, and when all have taken theirs,
these are the clients that were present, in order. -/
structure DealtOut (t : Serving) : Prop where
  disjoint : (t.jobs.filterMap Job.clients?).Pairwise List.Disjoint
  complete : (∀ job ∈ t.jobs, job.isTaken = true) →
    (t.jobs.filterMap Job.clients?).flatten = t.present

/-- Nothing was read that is not in memory, the clients are counted right and dealt out once. -/
structure ServedOnce (r : Except Halt Unit) (s : NetState) : Prop where
  ok : r = .ok ()
  distinct : s.connections.Nodup
  counted : slistLength s.entries s.clients = .ok s.clientCount.toNat
  dealt : ∀ t, s.serving = some t → DealtOut t

end Property

section Invariant

/-- A job, the entries that are still its own, and the clients that it takes or took. -/
structure Batch where
  job : Job
  entries : List (ℕ × Client)
  clients : List Client

/-- The entries of a job that has not taken its clients lie behind its first one. -/
inductive Batch.Sound : Batch → Prop
  | pending (first : ℕ) (amount : UInt32) (entries : List (ℕ × Client)) :
      entries.length = amount.toNat → (∀ x ∈ entries.head?, x.1 = first) →
      Batch.Sound ⟨.pending first amount, entries, entries.map Prod.snd⟩
  | taken (clients left : List Client) (entries : List (ℕ × Client)) :
      entries.map Prod.snd = left → Batch.Sound ⟨.taken clients left, entries, clients⟩

/-- The list is dealt out to the jobs. -/
structure Deals (t : Serving) (l : List (ℕ × Client)) (batches : List Batch) : Prop where
  jobs : t.jobs = batches.map Batch.job
  entries : l = batches.flatMap Batch.entries
  present : t.present = batches.flatMap Batch.clients
  sound : ∀ b ∈ batches, b.Sound

/-- The entries `l` are in the list, and no two of them are of one connection. -/
structure Lists (s : NetState) (l : List (ℕ × Client)) : Prop where
  linked : Linked s.entries s.clients l
  entries : (l.map Prod.fst).Nodup
  addresses : (l.map fun x => x.2.address).Nodup
  fds : (s.serverSocket :: l.map fun x => x.2.fd).Nodup
  count : s.clientCount.toNat = l.length

/-- What holds between two calls. -/
structure NetSound (s : NetState) (l : List (ℕ × Client)) : Prop where
  lists : Lists s l
  serving : ∀ t, s.serving = some t →
    (t.present.map Client.address).Nodup ∧ ∃ batches, Deals t l batches

variable {s : NetState} {l : List (ℕ × Client)}

/-- There are not more clients than descriptors. -/
theorem Lists.length_le (h : Lists s l) : l.length ≤ intMax := by
  have hcard := h.fds.length_le_card
  rw [List.length_cons, List.length_map, Fintype.card_fin] at hcard
  rw [intMax]
  omega

theorem Lists.serving (h : Lists s l) (serving : Option Serving) : Lists { s with serving } l :=
  ⟨h.linked, h.entries, h.addresses, h.fds, h.count⟩

theorem Lists.connections (h : Lists s l) : s.connections = l.map Prod.snd :=
  h.linked.listData h.entries

theorem Batch.Sound.clients {b : Batch} (h : b.Sound) (ht : b.job.isTaken = true) :
    b.job.clients? = some b.clients := by
  cases h with
  | pending => cases ht
  | taken => rfl

theorem takenClients_sublist {batches : List Batch} (hsound : ∀ b ∈ batches, b.Sound) :
    ((batches.map Batch.job).filterMap Job.clients?).Sublist (batches.map Batch.clients) := by
  induction batches with
  | nil => exact List.Sublist.slnil
  | cons b batches ih =>
    have ih := ih fun b' hb => hsound b' (List.mem_cons_of_mem _ hb)
    have hb := hsound b List.mem_cons_self
    rw [List.map_cons, List.map_cons]
    cases hb with
    | pending => exact ih.cons _
    | taken => exact ih.cons_cons _

theorem Deals.dealtOut {t : Serving} {batches : List Batch} (h : Deals t l batches)
    (hn : (t.present.map Client.address).Nodup) : DealtOut t := by
  have hnodup : t.present.Nodup := hn.of_map _
  rw [h.present, List.flatMap_def, List.nodup_flatten] at hnodup
  refine ⟨?_, fun htaken => ?_⟩
  · rw [h.jobs]
    exact hnodup.2.sublist (takenClients_sublist h.sound)
  · have hall : (batches.map Batch.job).filterMap Job.clients? = batches.map Batch.clients := by
      rw [List.filterMap_map, ← List.filterMap_eq_map]
      apply List.filterMap_congr
      intro b hb
      apply (h.sound b hb).clients
      apply htaken
      rw [h.jobs]
      exact List.mem_map_of_mem hb
    rw [h.jobs, hall, h.present, List.flatMap_def]

end Invariant

section Queue
variable {s : NetState} {l : List (ℕ × Client)}

@[simp] theorem onList_ok {α : Type} (a : α) : onList (.ok a) = return a := rfl

theorem toInt_index {i : UInt32} (h : i.toNat ≤ intMax) : i.toBitVec.toInt = (i.toNat : ℤ) := by
  rw [intMax] at h
  rw [BitVec.toInt_eq_toNat_of_lt (by simp only [UInt32.toNat_toBitVec]; omega),
    UInt32.toNat_toBitVec]

/-- What is left of the list is dealt out to the threads that are left. -/
theorem queueBatches_deals (h : Lists s l) (q rest : UInt32) (threads : ℕ) (index : UInt32)
    (hsum : index.toNat+threads*q.toNat+(if threads = 0 then 0 else rest.toNat) = l.length) :
    ∃ batches : List Batch, (queueBatches q rest threads index).run s = (.ok (batches.map Batch.job), s) ∧
      l.drop index.toNat = batches.flatMap Batch.entries ∧
        ∀ b ∈ batches, b.Sound ∧ b.clients = b.entries.map Prod.snd := by
  have hmax := h.length_le
  rw [intMax] at hmax
  -- by induction on the threads that are to come; what is left of the list begins at `index`
  induction threads generalizing index with
  | zero =>
    refine ⟨[], rfl, ?_, nofun⟩
    simp only [Nat.zero_mul, Nat.add_zero, ↓reduceIte] at hsum
    rw [List.flatMap_nil, hsum, List.drop_length]
  | succ threads ih =>
    set amount := if threads = 0 then q+rest else q with hamount
    have hq : q.toNat < 2^32 := q.toNat_lt
    rw [if_neg (Nat.succ_ne_zero threads), Nat.succ_mul] at hsum
    have hindex : index.toNat ≤ intMax := by rw [intMax]; omega
    have hthreads : amount.toNat+threads*q.toNat+(if threads = 0 then 0 else rest.toNat) =
        threads*q.toNat+q.toNat+rest.toNat := by
      rw [hamount]
      split_ifs with hzero
      · rw [hzero, UInt32.toNat_add, Nat.mod_eq_of_lt (by omega)]
        omega
      · omega
    simp only [queueBatches, bind_run, get_run, toInt_index hindex, h.linked.slistNthEntry, onList_ok,
      pure_run]
    rcases hx : l[index.toNat]? with _ | ⟨first, client⟩
    · -- there is no client left: the thread gets no job, and `index` stays where it is
      have hlen : l.length ≤ index.toNat := List.getElem?_eq_none_iff.mp hx
      obtain ⟨batches, hrun, hbatches⟩ := ih index (by split_ifs <;> omega)
      exact ⟨batches, hrun, hbatches⟩
    · obtain ⟨hlt, hget⟩ := List.getElem?_eq_some_iff.mp hx
      have hnext : (index+amount).toNat = index.toNat+amount.toNat := by
        rw [UInt32.toNat_add, Nat.mod_eq_of_lt (by omega)]
      obtain ⟨batches, hrun, hdrop, hsound⟩ := ih (index+amount) (by rw [hnext]; omega)
      set entries := (l.drop index.toNat).take amount.toNat with hentries
      refine ⟨⟨.pending first amount, entries, entries.map Prod.snd⟩ :: batches, ?_, ?_, ?_⟩
      · simp only [Option.map_some, bind_run, ← hamount, hrun, pure_run, List.map_cons]
      · rw [List.flatMap_cons, ← hdrop, hnext, ← List.drop_drop, hentries, List.take_append_drop]
      · intro b hb
        rcases List.mem_cons.mp hb with rfl | hb
        · refine ⟨.pending first amount entries ?_ fun x hx => ?_, rfl⟩
          · rw [hentries, List.length_take, List.length_drop]
            omega
          · rw [hentries, List.drop_eq_getElem_cons hlt, hget] at hx
            rcases hn : amount.toNat with _ | n
            · simp [hn] at hx
            · rw [hn, List.take_succ_cons, List.head?_cons, Option.mem_some_iff] at hx
              rw [← hx]
        · exact hsound b hb

theorem serveClients_sound (h : NetSound s l) (threadcount : UInt32) (ht : threadcount ≠ 0) :
    Returns (serveClients threadcount) s fun _ s' => ∃ l', NetSound s' l' := by
  have hcount := h.lists.count
  have hmax := h.lists.length_le
  have hpos : 0 < threadcount.toNat := by
    rcases Nat.eq_zero_or_pos threadcount.toNat with hzero | hpos
    · exact absurd (UInt32.toNat_inj.mp hzero) ht
    · exact hpos
  rw [intMax] at hmax
  have hq : (s.clientCount/threadcount.toUInt64).toUInt32.toNat = l.length/threadcount.toNat := by
    have hle := Nat.div_le_self l.length threadcount.toNat
    rw [UInt64.toNat_toUInt32, UInt64.toNat_div, UInt32.toNat_toUInt64, hcount]
    exact Nat.mod_eq_of_lt (by omega)
  have hr : (s.clientCount%threadcount.toUInt64).toUInt32.toNat = l.length%threadcount.toNat := by
    have hle := Nat.mod_le l.length threadcount.toNat
    rw [UInt64.toNat_toUInt32, UInt64.toNat_mod, UInt32.toNat_toUInt64, hcount]
    exact Nat.mod_eq_of_lt (by omega)
  obtain ⟨batches, hrun, hentries, hsound⟩ := queueBatches_deals h.lists
    (s.clientCount/threadcount.toUInt64).toUInt32 (s.clientCount%threadcount.toUInt64).toUInt32
    threadcount.toNat 0 (by
      rw [hq, hr, if_neg hpos.ne']
      have := Nat.div_add_mod l.length threadcount.toNat
      simpa using this)
  have hl : l = batches.flatMap Batch.entries := by simpa using hentries
  have hpresent : s.connections = batches.flatMap Batch.clients := by
    rw [h.lists.connections, hl, List.map_flatMap, List.flatMap_def, List.flatMap_def]
    congr 1
    exact List.map_congr_left fun b hb => (hsound b hb).2.symm
  refine ⟨(), { s with serving := some ⟨s.connections, batches.map Batch.job⟩ }, ?_, l,
    h.lists.serving _, fun t hserving => ?_⟩
  · simp only [serveClients, bind_run, get_run, if_neg ht, hrun, modify_run]
  · cases hserving
    refine ⟨?_, batches, rfl, hl, hpresent, fun b hb => (hsound b hb).1⟩
    rw [h.lists.connections, List.map_map]
    exact h.lists.addresses

end Queue

section Jobs
variable {s : NetState} {l : List (ℕ × Client)}

theorem split_of_getElem? {α : Type} {xs : List α} {i : ℕ} {x : α} (h : xs[i]? = some x) :
    ∃ before after, xs = before ++ x :: after ∧ before.length = i := by
  obtain ⟨hi, rfl⟩ := List.getElem?_eq_some_iff.mp h
  refine ⟨xs.take i, xs.drop (i+1), ?_, by rw [List.length_take]; omega⟩
  rw [← List.drop_eq_getElem_cons hi, List.take_append_drop]

/-- The job at `i` is one of the batches that the list is dealt out to. -/
theorem NetSound.job (h : NetSound s l) {i : ℕ} {job : Job} (hj : s.job? i = some job) :
    ∃ t before b after, s.serving = some t ∧ (t.present.map Client.address).Nodup ∧
      Deals t l (before ++ b :: after) ∧ before.length = i ∧ b.job = job := by
  rcases hserving : s.serving with _ | t
  · simp [NetState.job?, hserving] at hj
  · obtain ⟨hn, batches, hdeals⟩ := h.serving t hserving
    have hget : t.jobs[i]? = some job := by simpa [NetState.job?, hserving] using hj
    rw [hdeals.jobs, List.getElem?_map, Option.map_eq_some_iff] at hget
    obtain ⟨b, hb, hjob⟩ := hget
    obtain ⟨before, after, rfl, hlen⟩ := split_of_getElem? hb
    exact ⟨t, before, b, after, rfl, hn, hdeals, hlen, hjob⟩

theorem Deals.set {t : Serving} {before after : List Batch} {b b' : Batch}
    (h : Deals t l (before ++ b :: after)) (hb : b'.Sound) (hclients : b'.clients = b.clients) :
    Deals { t with jobs := t.jobs.set before.length b'.job }
      (before.flatMap Batch.entries ++ b'.entries ++ after.flatMap Batch.entries)
      (before ++ b' :: after) := by
  refine ⟨?_, ?_, ?_, fun x hx => ?_⟩
  · rw [h.jobs]
    simp
  · simp
  · rw [h.present]
    simp [hclients]
  · rcases List.mem_append.mp hx with hx | hx
    · exact h.sound x (List.mem_append_left _ hx)
    · rcases List.mem_cons.mp hx with rfl | hx
      · exact hb
      · exact h.sound x (List.mem_append_right _ (List.mem_cons_of_mem _ hx))

theorem takeClients_run {first : ℕ} {own others : List (ℕ × Client)} (amount : ℕ) (i : UInt32)
    (hl : own ≠ [] → Linked s.entries (some first) (own ++ others))
    (hi : i.toNat+amount = own.length) (hmax : own.length ≤ intMax) :
    (takeClients first amount i).run s = (.ok ((own.drop i.toNat).map Prod.snd), s) := by
  have hmax' := hmax
  rw [intMax] at hmax'
  induction amount generalizing i with
  | zero =>
    rw [List.drop_of_length_le (by omega)]
    rfl
  | succ amount ih =>
    have hlt : i.toNat < own.length := by omega
    have hlinked := hl (by intro hnil; simp [hnil] at hlt)
    have hnext : (i+1).toNat = i.toNat+1 := by
      have hone : (1 : UInt32).toNat = 1 := rfl
      rw [UInt32.toNat_add, hone, Nat.mod_eq_of_lt (by omega)]
    have hget : (own ++ others)[i.toNat]? = some own[i.toNat] := by
      rw [List.getElem?_append_left hlt, List.getElem?_eq_getElem hlt]
    -- the next client is one of the job's own, however long the list goes on
    simp only [takeClients, bind_run, get_run, toInt_index (show i.toNat ≤ intMax by omega),
      hlinked.slistNthData, hget, onList_ok, pure_run, Option.map_some]
    rw [ih (i+1) (by omega), List.drop_eq_getElem_cons hlt, hnext]
    rfl

theorem serveClientBatch_sound (h : NetSound s l) {i first : ℕ} {amount : UInt32}
    (hj : s.job? i = some (.pending first amount)) :
    Returns (serveClientBatch i) s fun _ s' => ∃ l', NetSound s' l' := by
  obtain ⟨t, before, b, after, hserving, hn, hdeals, rfl, hjob⟩ := h.job hj
  have hb := hdeals.sound b (by simp)
  cases hb with
  | taken => cases hjob
  | pending first' amount' entries hlen hfirst =>
    cases hjob
    have hl : l = before.flatMap Batch.entries ++ (entries ++ after.flatMap Batch.entries) := by
      rw [hdeals.entries]
      simp
    have hmax : entries.length ≤ intMax := by
      have hle := h.lists.length_le
      rw [hl, List.length_append, List.length_append] at hle
      omega
    have hlinked (hne : entries ≠ []) :
        Linked s.entries (some first) (entries ++ after.flatMap Batch.entries) := by
      have hdrop := (hl ▸ h.lists.linked).drop
      obtain ⟨x, rest, rfl⟩ := List.exists_cons_of_ne_nil hne
      have hx : x.1 = first := hfirst x rfl
      rw [← hx]
      exact hdrop
    -- the jobs before may have closed clients, but these are linked as they were
    have htake := takeClients_run amount.toNat 0 hlinked (by simpa using hlen.symm) hmax
    set clients := entries.map Prod.snd with hclients
    have hset := hdeals.set (.taken clients clients entries rfl) rfl
    rw [List.append_assoc, ← hl] at hset
    have hrun : (serveClientBatch before.length).run s = (.ok (), { s with
        serving := some { t with jobs := t.jobs.set before.length (.taken clients clients) } }) := by
      simp only [serveClientBatch, bind_run, get_run, hj, htake, setJob, modify_run, hserving,
        Option.map_some, hclients]
      rfl
    refine ⟨(), _, hrun, l, h.lists.serving _, fun t' ht => ?_⟩
    cases ht
    exact ⟨hn, _, hset⟩

end Jobs

section Close
variable {s : NetState} {pre post : List (ℕ × Client)} {a : ℕ} {c : Client}

theorem findClient_run (h : Lists s (pre ++ (a, c) :: post)) (fuel i : ℕ) (hi : i ≤ pre.length)
    (hfuel : pre.length < fuel+i) :
    (findClient c.address fuel i).run s = (.ok (some pre.length), s) := by
  induction fuel generalizing i with
  | zero => omega
  | succ fuel ih =>
    have hlength := h.linked.slistLength h.entries h.length_le
    have hlt : i < (pre ++ (a, c) :: post).length := by
      rw [List.length_append, List.length_cons]
      omega
    simp only [findClient, bind_run, get_run, hlength, onList_ok, pure_run, ite_run, if_pos hlt,
      h.linked.slistNthData]
    rcases Nat.lt_or_eq_of_le hi with hbefore | rfl
    · -- a client further ahead has another address
      have hget : (pre ++ (a, c) :: post)[i]? = some pre[i] := by
        rw [List.getElem?_append_left hbefore, List.getElem?_eq_getElem hbefore]
      have hother : pre[i].2.address ≠ c.address := by
        have hn := h.addresses
        rw [List.map_append, List.nodup_append] at hn
        exact hn.2.2 _ (List.mem_map_of_mem (List.getElem_mem hbefore)) _ (by simp)
      have hne : ¬ some pre[i].2.address = some c.address := fun he => hother (Option.some.inj he)
      simp only [hget, Option.map_some, if_neg hne]
      exact ih (i+1) hbefore (by omega)
    · have hget : (pre ++ (a, c) :: post)[pre.length]? = some (a, c) := by simp
      simp only [hget, Option.map_some, ↓reduceIte]

theorem connectionClose_run (h : Lists s (pre ++ (a, c) :: post)) :
    ∃ entries clients, (connectionClose c.address).run s =
        (.ok (), { s with entries, clients, clientCount := s.clientCount-1 }) ∧
      Lists { s with entries, clients, clientCount := s.clientCount-1 } (pre ++ post) := by
  obtain ⟨entries, clients, hremove, hlinked⟩ := h.linked.slistRemoveEntry h.entries
  have hfind := findClient_run h (s.entries.keys.length+1) 0 (Nat.zero_le _) (by
    have hle := h.linked.length_le h.entries
    rw [List.length_append, List.length_cons] at hle
    omega)
  have hget : (pre ++ (a, c) :: post)[pre.length]? = some (a, c) := by simp
  have hsub : (pre ++ post).Sublist (pre ++ (a, c) :: post) :=
    (List.Sublist.refl pre).append (List.sublist_cons_self _ _)
  refine ⟨entries, clients, ?_, hlinked, h.entries.sublist (hsub.map _),
    h.addresses.sublist (hsub.map _), h.fds.sublist ((hsub.map _).cons_cons _), ?_⟩
  · simp only [connectionClose, bind_run, get_run, hfind, h.linked.slistNthEntry, hget,
      Option.map_some, onList_ok, pure_run, reduceCtorEq, ↓reduceIte, hremove, modify_run]
  · have hcount := h.count
    rw [List.length_append, List.length_cons] at hcount
    have hone : (1 : UInt64).toNat = 1 := rfl
    have hle : (1 : UInt64) ≤ s.clientCount := by
      rw [UInt64.le_iff_toNat_le, hone]
      omega
    rw [UInt64.toNat_sub_of_le _ _ hle, hone, hcount, List.length_append]
    omega

/-- Clients that differ in their addresses: one of them is taken off. -/
theorem erase_client {a : ℕ} {c : Client}
    (hn : ((pre ++ (a, c) :: post).map fun x => x.2.address).Nodup) :
    ((pre ++ (a, c) :: post).map Prod.snd).erase c = (pre ++ post).map Prod.snd := by
  have hnot : c ∉ pre.map Prod.snd := by
    intro hin
    obtain ⟨x, hx, rfl⟩ := List.mem_map.mp hin
    rw [List.map_append, List.nodup_append] at hn
    exact hn.2.2 _ (List.mem_map_of_mem hx) _ (by simp) rfl
  rw [List.map_append, List.map_cons, List.erase_append_right _ hnot, List.erase_cons_head,
    List.map_append]

theorem closeClient_sound {l : List (ℕ × Client)} (h : NetSound s l) {i : ℕ}
    {clients left : List Client} (hj : s.job? i = some (.taken clients left)) (hc : c ∈ left) :
    Returns (closeClient i c) s fun _ s' => ∃ l', NetSound s' l' := by
  obtain ⟨t, before, b, after, hserving, hn, hdeals, rfl, hjob⟩ := h.job hj
  have hb := hdeals.sound b (by simp)
  cases hb with
  | pending => cases hjob
  | taken clients' left' entries hleft =>
    cases hjob
    -- the entry of the client among those of the job
    subst hleft
    obtain ⟨⟨a, c'⟩, hmem, rfl⟩ := List.mem_map.mp hc
    obtain ⟨front, back, rfl⟩ := List.append_of_mem hmem
    set pre := before.flatMap Batch.entries ++ front with hpre
    set post := back ++ after.flatMap Batch.entries with hpost
    have hl : l = pre ++ (a, c') :: post := by
      rw [hdeals.entries, hpre, hpost]
      simp
    subst hl
    obtain ⟨entries, list, hrun, hlists⟩ := connectionClose_run h.lists
    have hown : (front ++ (a, c') :: back).Sublist (pre ++ (a, c') :: post) := by
      rw [hpre, hpost, List.append_assoc]
      exact ((List.Sublist.refl front).append
        ((List.sublist_append_left back _).cons_cons _)).trans (List.sublist_append_right _ _)
    have herase := erase_client (h.lists.addresses.sublist (hown.map _))
    set left := (front ++ back).map Prod.snd with hleft
    -- the list loses the client, and so does the job that had it
    have hset := hdeals.set (.taken clients left (front ++ back) rfl) rfl
    have hsplit : before.flatMap Batch.entries ++ (front ++ back) ++ after.flatMap Batch.entries =
        pre ++ post := by simp [hpre, hpost]
    rw [hsplit] at hset
    set serving : Serving := { t with jobs := t.jobs.set before.length (.taken clients left) }
    refine ⟨(), { s with
      entries, clients := list, clientCount := s.clientCount-1, serving := some serving }, ?_,
      pre ++ post, hlists.serving _, fun t' ht => ?_⟩
    · have hj' : NetState.job? { s with entries, clients := list, clientCount := s.clientCount-1 }
          before.length = some (.taken clients ((front ++ (a, c') :: back).map Prod.snd)) := hj
      simp only [closeClient, bind_run, hrun, get_run, hj']
      simp only [setJob, modify_run, hserving, Option.map_some, herase, serving]
    · cases ht
      exact ⟨hn, _, hset⟩

end Close

section Accept
variable {s : NetState} {l : List (ℕ × Client)}

/-- A new connection is the last one of the list. -/
theorem acceptIncomingConnection_appends (h : NetSound s l) (client : Client) (a : ℕ)
    (ha : NetCall.Admissible s (.acceptIncomingConnection client (some a))) :
    ∃ entries clients, (acceptIncomingConnection client (some a)).run s =
        (.ok (), { s with entries, clients, clientCount := s.clientCount+1 }) ∧
      Lists { s with entries, clients, clientCount := s.clientCount+1 } (l ++ [(a, client)]) := by
  obtain ⟨hserving, hsocket, hfresh, hentry⟩ := ha
  obtain ⟨entries, clients, happend, hlinked⟩ :=
    h.lists.linked.slistAppend h.lists.entries (hentry a rfl) client
  refine ⟨entries, clients, ?_, ?_⟩
  · simp only [acceptIncomingConnection, bind_run, get_run, happend, onList_ok, pure_run,
      reduceCtorEq, ↓reduceIte, modify_run]
  have hnew (x : ℕ × Client) (hx : x ∈ l) : x.2.fd ≠ client.fd ∧ x.2.address ≠ client.address := by
    apply hfresh
    rw [h.lists.connections]
    exact List.mem_map_of_mem hx
  have hsnoc {α : Type} (f : ℕ × Client → α) (hn : (l.map f).Nodup)
      (hf : ∀ x ∈ l, f x ≠ f (a, client)) : ((l ++ [(a, client)]).map f).Nodup := by
    rw [List.map_append, List.nodup_append]
    refine ⟨hn, List.nodup_singleton _, fun y hy z hz => ?_⟩
    obtain ⟨x, hx, rfl⟩ := List.mem_map.mp hy
    rw [List.map_singleton, List.mem_singleton] at hz
    exact hz ▸ hf x hx
  have hfds := List.nodup_cons.mp h.lists.fds
  refine ⟨hlinked, hsnoc _ h.lists.entries fun x hx he => ?_,
    hsnoc _ h.lists.addresses fun x hx => (hnew x hx).2,
    List.nodup_cons.mpr ⟨fun hin => ?_, hsnoc _ hfds.2 fun x hx => (hnew x hx).1⟩, ?_⟩
  · have hin := h.lists.linked.mem x hx
    rw [show x.1 = a from he] at hin
    exact hentry a rfl hin
  · rw [List.map_append, List.mem_append, List.map_singleton, List.mem_singleton] at hin
    rcases hin with hin | hin
    · exact hfds.1 hin
    · exact hsocket hin.symm
  · have hmax := h.lists.length_le
    have hone : (1 : UInt64).toNat = 1 := rfl
    rw [intMax] at hmax
    rw [UInt64.toNat_add, hone, h.lists.count, List.length_append, List.length_singleton]
    exact Nat.mod_eq_of_lt (by omega)

theorem acceptIncomingConnection_sound (h : NetSound s l) (client : Client) (entry : Option ℕ)
    (ha : NetCall.Admissible s (.acceptIncomingConnection client entry)) :
    Returns (acceptIncomingConnection client entry) s fun _ s' => ∃ l', NetSound s' l' := by
  rcases entry with _ | a
  · exact ⟨(), s, rfl, l, h⟩
  · obtain ⟨entries, clients, hrun, hlists⟩ := acceptIncomingConnection_appends h client a ha
    refine ⟨(), _, hrun, _, hlists, fun t ht => ?_⟩
    rw [show _ = s.serving from rfl, ha.1] at ht
    cases ht

end Accept

section Runs

theorem call_sound (call : NetCall) :
    Ensures (fun s => call.Admissible s ∧ ∃ l, NetSound s l) call.run
      (fun _ s => ∃ l, NetSound s l) fun _ => False := by
  apply Ensures.of_returns
  rintro s ⟨ha, l, h⟩
  cases call with
  | acceptIncomingConnection client entry => exact acceptIncomingConnection_sound h client entry ha
  | serveClients threadcount => exact serveClients_sound h threadcount ha.2
  | serveClientBatch i =>
    obtain ⟨first, amount, hj⟩ := ha
    exact serveClientBatch_sound h hj
  | closeClient i client =>
    obtain ⟨clients, left, hj, hc⟩ := ha
    exact closeClient_sound h hj hc
  | thpoolWait => exact ⟨(), _, rfl, l, h.lists.serving none, nofun⟩

/-- Over any sequence of accepts, ticks and closes, with the jobs of a tick in any order, every
client is served once in every tick. -/
theorem clients_served_once (serverSocket : Fin (2^31)) (r : Except Halt Unit) (s : NetState)
    (h : Runs (netInit serverSocket) r s) : ServedOnce r s := by
  have hstart : ∃ l, NetSound (netInit serverSocket) l :=
    ⟨[], ⟨rfl, List.nodup_nil, List.nodup_nil, List.nodup_singleton _, rfl⟩, nofun⟩
  have hrun := Reaches.ensures (P := fun s => ∃ l, NetSound s l) hstart call_sound h
  cases r with
  | error e => exact (hrun.2 e rfl).elim
  | ok u =>
    obtain ⟨l, hs⟩ := hrun.1 rfl
    refine ⟨rfl, ?_, ?_, fun t ht => ?_⟩
    · rw [hs.lists.connections]
      refine List.Nodup.of_map Client.address ?_
      rw [List.map_map]
      exact hs.lists.addresses
    · rw [hs.lists.count]
      exact hs.lists.linked.slistLength hs.lists.entries hs.lists.length_le
    · obtain ⟨hn, batches, hdeals⟩ := hs.serving t ht
      exact hdeals.dealtOut hn

end Runs

section Example

/-- A server whose socket has the descriptor 3, after some calls. -/
def afterCalls (calls : List NetCall) : NetState :=
  calls.foldl (fun s call => (call.run.run s).2) (netInit 3)

theorem runs_snoc {calls : List NetCall} (call : NetCall)
    (h : Runs (netInit 3) (.ok ()) (afterCalls calls)) (ha : call.Admissible (afterCalls calls))
    (hr : (call.run.run (afterCalls calls)).1 = .ok ()) :
    Runs (netInit 3) (.ok ()) (afterCalls (calls ++ [call])) := by
  have hcall := Reaches.call call h ha
  rw [hr] at hcall
  rw [afterCalls, List.foldl_append]
  exact hcall

/-- Two threads are given three clients. The second job closes one of its own before the first one
takes what it was given. -/
theorem three_clients_served : ∃ s, Runs (netInit 3) (.ok ()) s ∧
    s.serving.map Serving.jobs = some [.taken [⟨10, 4⟩] [⟨10, 4⟩],
      .taken [⟨11, 5⟩, ⟨12, 6⟩] [⟨12, 6⟩]] ∧ ServedOnce (.ok ()) s := by
  have h0 : Runs (netInit 3) (.ok ()) (afterCalls []) := .start
  have h1 := runs_snoc (.acceptIncomingConnection ⟨10, 4⟩ (some 100)) h0
    ⟨by decide +kernel, by decide, by decide +kernel, by decide +kernel⟩ (by decide +kernel)
  have h2 := runs_snoc (.acceptIncomingConnection ⟨11, 5⟩ (some 101)) h1
    ⟨by decide +kernel, by decide, by decide +kernel, by decide +kernel⟩ (by decide +kernel)
  have h3 := runs_snoc (.acceptIncomingConnection ⟨12, 6⟩ (some 102)) h2
    ⟨by decide +kernel, by decide, by decide +kernel, by decide +kernel⟩ (by decide +kernel)
  have h4 := runs_snoc (.serveClients 2) h3 ⟨by decide +kernel, by decide⟩ (by decide +kernel)
  have h5 := runs_snoc (.serveClientBatch 1) h4 ⟨101, 2, by decide +kernel⟩ (by decide +kernel)
  have h6 := runs_snoc (.closeClient 1 ⟨11, 5⟩) h5
    ⟨[⟨11, 5⟩, ⟨12, 6⟩], [⟨11, 5⟩, ⟨12, 6⟩], by decide +kernel, by decide⟩ (by decide +kernel)
  have h7 := runs_snoc (.serveClientBatch 0) h6 ⟨100, 1, by decide +kernel⟩ (by decide +kernel)
  exact ⟨_, h7, by decide +kernel, clients_served_once 3 _ _ h7⟩

end Example

end Stronk.Network
