import Stronk.SList

/-! The queue of jobs of a thread pool (`thpool.c`). The pointer `prev` of a job leads to the job
that was added after it, so that from the front of the queue the jobs are a linked list. -/
namespace Stronk.Thpool
open SList

section Model
variable {J : Type}

/-- `struct job` of the jobs that are allocated: function and argument, and the pointer `prev`. -/
abbrev Jobs (J : Type) := Heap ℕ J

/-- `struct jobqueue`, without its semaphore. -/
structure JobQueue where
  front : Option ℕ
  rear : Option ℕ
  len : ℕ
  deriving DecidableEq, Repr

def jobqueueInit : JobQueue := { front := none, rear := none, len := 0 }

/-- `jobqueue_push` up to its last line. -/
def jobqueuePush (jobs : Jobs J) (q : JobQueue) (newjob : ℕ) (job : J) :
    Except Fault (Jobs J × JobQueue) :=
  let jobs := jobs.insert newjob { data := job, next := none }
  match q.len with
  | 0 => .ok (jobs, { front := some newjob, rear := some newjob, len := 1 })
  | len+1 =>
    match q.rear with
    | none => .error .dangling
    | some rear =>
      match setNext jobs rear (some newjob) with
      | .error f => .error f
      | .ok jobs => .ok (jobs, { q with rear := some newjob, len := len+2 })

/-- `jobqueue_pull`: the job, the queue without it, and whether the semaphore is posted. -/
def jobqueuePull (jobs : Jobs J) (q : JobQueue) : Except Fault (Option ℕ × JobQueue × Bool) :=
  match q.len with
  | 0 => .ok (q.front, q, false)
  | 1 => .ok (q.front, { front := none, rear := none, len := 0 }, false)
  | len+2 =>
    match q.front with
    | none => .error .dangling
    | some front =>
      match entryAt jobs front with
      | .error f => .error f
      | .ok node => .ok (some front, { q with front := node.next, len := len+1 }, true)

/-- `free` of a job. -/
def freeJob (jobs : Jobs J) : Option ℕ → Except Fault (Jobs J)
  | none => .ok jobs
  | some a => if a ∈ jobs then .ok (jobs.erase a) else .error .dangling

/-- The loop of `jobqueue_clear`. -/
def clearLoop (jobs : Jobs J) (q : JobQueue) : ℕ → Except Fault (Jobs J)
  | 0 => if q.len = 0 then .ok jobs else .error .endless
  | fuel+1 =>
    if q.len = 0 then .ok jobs
    else match jobqueuePull jobs q with
      | .error f => .error f
      | .ok (job, q, _) =>
        match freeJob jobs job with
        | .error f => .error f
        | .ok jobs => clearLoop jobs q fuel

def jobqueueClear (jobs : Jobs J) (q : JobQueue) : Except Fault (Jobs J × JobQueue) :=
  match clearLoop jobs q q.len with
  | .error f => .error f
  | .ok jobs => .ok (jobs, jobqueueInit)

end Model

section Queues
variable {J : Type}

/-- The queue is made of the jobs `l`, the front one first. -/
structure Queues (jobs : Jobs J) (q : JobQueue) (l : List (ℕ × J)) : Prop where
  linked : Linked jobs q.front l
  nodes : (l.map Prod.fst).Nodup
  rear : q.rear = l.getLast?.map Prod.fst
  len : q.len = l.length

variable {jobs jobs' : Jobs J} {q : JobQueue} {l : List (ℕ × J)} {a : ℕ} {job : J}

theorem queues_init : Queues (∅ : Jobs J) jobqueueInit [] := ⟨rfl, List.nodup_nil, rfl, rfl⟩

theorem Queues.mem (h : Queues jobs q l) (ha : a ∈ l.map Prod.fst) : a ∈ jobs := by
  obtain ⟨x, hx, rfl⟩ := List.mem_map.mp ha
  exact h.linked.mem x hx

/-- What happens to other jobs does not affect the queue. -/
theorem Queues.congr (h : Queues jobs q l) (hsame : ∀ x ∈ l, jobs'.lookup x.1 = jobs.lookup x.1) :
    Queues jobs' q l :=
  ⟨h.linked.congr hsame, h.nodes, h.rear, h.len⟩

/-- A job is put behind the others, and those that are not in the queue stay as they are. -/
theorem Queues.push (h : Queues jobs q l) (ha : a ∉ jobs) (job : J) :
    ∃ jobs' q', jobqueuePush jobs q a job = .ok (jobs', q') ∧ Queues jobs' q' (l ++ [(a, job)]) ∧
      jobs'.lookup a = some ⟨job, none⟩ ∧
      (∀ b, b ∉ l.map Prod.fst → b ≠ a → jobs'.lookup b = jobs.lookup b) ∧
      ∀ b, b ∈ jobs' ↔ b = a ∨ b ∈ jobs := by
  have hfresh : a ∉ l.map Prod.fst := fun hin => ha (h.mem hin)
  have hnodes : ((l ++ [(a, job)]).map Prod.fst).Nodup := by
    rw [List.map_append, List.nodup_append]
    refine ⟨h.nodes, List.nodup_singleton _, fun b hb c hc he => ?_⟩
    have hca : c = a := by simpa using hc
    exact hfresh (hca ▸ he ▸ hb)
  rcases l.eq_nil_or_concat' with rfl | ⟨pre, ⟨y, dy⟩, rfl⟩
  · have hlen : q.len = 0 := h.len
    refine ⟨_, _, by simp only [jobqueuePush, hlen]; rfl, ⟨⟨rfl, none, AList.lookup_insert _, rfl⟩,
      hnodes, rfl, rfl⟩, AList.lookup_insert _, fun b _ hb => AList.lookup_insert_ne hb,
      fun b => AList.mem_insert _⟩
  · have hlen : q.len = pre.length+1 := by rw [h.len, List.length_append, List.length_singleton]
    have hrear : q.rear = some y := by rw [h.rear, List.getLast?_concat]; rfl
    have hya : y ≠ a := by
      intro he
      apply hfresh
      rw [← he]
      simp
    have hpre : y ∉ pre.map Prod.fst := by
      have hn := h.nodes
      rw [List.map_append, List.nodup_append] at hn
      exact fun hin => hn.2.2 y hin y (by simp) rfl
    -- the last of the jobs is linked to the new one
    have hins : Linked (jobs.insert a ⟨job, none⟩) q.front (pre ++ [(y, dy)]) :=
      h.linked.insert _ hfresh
    obtain ⟨-, next, hy, -⟩ := hins.drop
    have hset : setNext (jobs.insert a ⟨job, none⟩) y (some a) =
        .ok ((jobs.insert a ⟨job, none⟩).insert y ⟨dy, some a⟩) := by
      simp only [setNext, entryAt_of_lookup hy]
    obtain ⟨jobs'', hset', hlinked⟩ := hins.relink (l := [(a, job)]) (q := some a)
      ⟨rfl, none, AList.lookup_insert _, rfl⟩ hpre (by simpa using hya)
    rw [hset] at hset'
    cases hset'
    refine ⟨_, _, by simp only [jobqueuePush, hlen, hrear, hset]; rfl, ⟨?_, hnodes, ?_, ?_⟩, ?_, ?_, ?_⟩
    · rw [List.append_assoc]
      exact hlinked
    · rw [List.getLast?_concat]
      rfl
    · simp
    · rw [AList.lookup_insert_ne hya.symm, AList.lookup_insert]
    · intro b hb hba
      have hby : b ≠ y := fun he => hb (by rw [he]; simp)
      rw [AList.lookup_insert_ne hby, AList.lookup_insert_ne hba]
    · intro b
      have hyin : y ∈ jobs := h.mem (by simp)
      rw [AList.mem_insert, AList.mem_insert]
      refine ⟨fun hb => ?_, Or.inr⟩
      rcases hb with rfl | hb
      · exact Or.inr hyin
      · exact hb

theorem Queues.pull_nil (h : Queues jobs q []) : jobqueuePull jobs q = .ok (none, q, false) := by
  have hlen : q.len = 0 := h.len
  have hfront : q.front = none := h.linked
  simp only [jobqueuePull, hlen, hfront]

/-- The front job is taken, and the semaphore is posted if others are left. -/
theorem Queues.pull_cons (h : Queues jobs q ((a, job) :: l)) :
    ∃ q', jobqueuePull jobs q = .ok (some a, q', !l.isEmpty) ∧ Queues jobs q' l := by
  obtain ⟨hfront, next, ha, hlinked⟩ := h.linked
  have hnodes := (List.nodup_cons.mp h.nodes).2
  have hlen := h.len
  cases l with
  | nil =>
    refine ⟨jobqueueInit, ?_, ⟨rfl, List.nodup_nil, rfl, rfl⟩⟩
    simp only [jobqueuePull, hlen, List.length_singleton, hfront]
    rfl
  | cons x l =>
    refine ⟨{ q with front := next, len := l.length+1 }, ?_, ⟨hlinked, hnodes, ?_, rfl⟩⟩
    · simp only [jobqueuePull, hlen, List.length_cons, hfront, entryAt_of_lookup ha]
      rfl
    · rw [h.rear, List.getLast?_cons_cons]

theorem freeJob_mem (ha : a ∈ jobs) : freeJob jobs (some a) = .ok (jobs.erase a) := if_pos ha

/-- A job that is not in the queue can be freed. -/
theorem Queues.erase (h : Queues jobs q l) (ha : a ∉ l.map Prod.fst) : Queues (jobs.erase a) q l := by
  apply h.congr
  intro x hx
  have hne : x.1 ≠ a := fun he => ha (he ▸ List.mem_map_of_mem hx)
  exact AList.lookup_erase_ne hne

theorem Queues.clearLoop (h : Queues jobs q l) (fuel : ℕ) (hfuel : l.length ≤ fuel) :
    ∃ jobs', clearLoop jobs q fuel = .ok jobs' ∧
      ∀ b, jobs'.lookup b = if b ∈ l.map Prod.fst then none else jobs.lookup b := by
  -- by induction on the jobs; the queue never holds one that is freed
  induction l generalizing jobs q fuel with
  | nil =>
    have hlen : q.len = 0 := h.len
    refine ⟨jobs, ?_, fun b => by simp⟩
    cases fuel <;> simp only [Thpool.clearLoop, hlen, ↓reduceIte]
  | cons x l ih =>
    obtain ⟨a, job⟩ := x
    rw [List.length_cons] at hfuel
    obtain ⟨fuel, rfl⟩ : ∃ k, fuel = k+1 := ⟨fuel-1, by omega⟩
    have hlen : q.len ≠ 0 := by rw [h.len]; exact Nat.succ_ne_zero _
    have ha : a ∉ l.map Prod.fst := (List.nodup_cons.mp h.nodes).1
    have hin : a ∈ jobs := h.mem List.mem_cons_self
    obtain ⟨q', hpull, hq'⟩ := h.pull_cons
    obtain ⟨jobs', hclear, hlookup⟩ := ih (hq'.erase ha) fuel (by omega)
    refine ⟨jobs', ?_, fun b => ?_⟩
    · simp only [Thpool.clearLoop, if_neg hlen, hpull, freeJob_mem hin, hclear]
    · rw [hlookup, List.map_cons]
      by_cases hba : b = a
      · rw [hba, if_neg ha, AList.lookup_erase, if_pos List.mem_cons_self]
      · rw [AList.lookup_erase_ne hba]
        simp only [List.mem_cons, hba, false_or]

/-- `jobqueue_clear` frees the jobs of the queue and no others. -/
theorem Queues.clear (h : Queues jobs q l) :
    ∃ jobs', jobqueueClear jobs q = .ok (jobs', jobqueueInit) ∧
      ∀ b, jobs'.lookup b = if b ∈ l.map Prod.fst then none else jobs.lookup b := by
  obtain ⟨jobs', hclear, hlookup⟩ := h.clearLoop q.len h.len.ge
  exact ⟨jobs', by simp only [jobqueueClear, hclear], hlookup⟩

end Queues

end Stronk.Thpool
