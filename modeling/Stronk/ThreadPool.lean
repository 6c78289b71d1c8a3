import Stronk.Interleaving
import Stronk.JobQueue

/-! The thread pool (`thpool.c`): its threads, the callers of `thpool_add_work`, the main thread in
`thpool_wait` and the one in `thpool_destroy`, in any order of their steps. What is done under a lock
is one step, except that `thpool_wait` keeps the lock of the counters while it reads two of them, and
that a thread that is about to end still has to unlock it. -/
namespace Stronk.Thpool
open SList Interleaving

section Model
variable {J : Type}

/-- Where a thread is in `thread_do`. -/
inductive Place
  /-- It is not counted as alive yet. -/
  | created
  /-- It is at the head of its loop. -/
  | loop
  /-- It is in `bsem_wait`, about to look at the semaphore. -/
  | semaphore
  /-- It sleeps in `bsem_wait`. -/
  | asleep
  /-- It has taken the semaphore. -/
  | woken
  /-- It is about to be counted as working. -/
  | counting
  /-- It is about to pull a job. -/
  | pulling
  | running (job : ℕ)
  /-- It is about to be no longer counted as working. -/
  | finishing
  /-- It has left its loop. -/
  | leaving
  /-- It is no longer counted as alive, and has the lock of the counters. -/
  | unlocking
  | done
  deriving DecidableEq, Repr

/-- Where the main thread is in `thpool_wait`. -/
inductive Waiter
  | outside
  /-- It is about to take the lock of the counters. -/
  | locking
  | readingLen
  | readingWorking
  /-- It sleeps until all threads are idle. -/
  | asleep
  deriving DecidableEq, Repr

/-- How far the pool is from `thpool_init` to `thpool_destroy`. -/
inductive Phase
  | starting
  | serving
  /-- `thpool_destroy` waits for the threads, and is about to look whether any is alive. -/
  | ending
  /-- It has seen one alive, and is about to post. -/
  | posting
  | freed
  deriving DecidableEq, Repr

/-- `struct thpool_`, with what is behind its pointers and with `threads_keepalive`. -/
structure ThreadPool (J : Type) where
  threads : List Place
  numThreadsAlive : ℤ
  numThreadsWorking : ℤ
  thcountLocked : Bool
  jobs : Jobs J
  jobqueue : JobQueue
  /-- `v` of the semaphore `has_jobs`. -/
  hasJobs : Bool
  keepalive : Bool
  waiter : Waiter
  phase : Phase

/-- What `thpool_init` makes, before the first of its threads has run. -/
def thpoolInit (J : Type) (numThreads : ℤ) : ThreadPool J where
  threads := List.replicate numThreads.toNat .created
  numThreadsAlive := 0
  numThreadsWorking := 0
  thcountLocked := false
  jobs := ∅
  jobqueue := jobqueueInit
  hasJobs := false
  keepalive := true
  waiter := .outside
  phase := .starting

def ThreadPool.move (p : ThreadPool J) (i : ℕ) (place : Place) : ThreadPool J :=
  { p with threads := p.threads.set i place }

/-- A signal wakes one of the threads that sleep, if there is one. -/
def ThreadPool.Wakes (p : ThreadPool J) : Option ℕ → Prop
  | none => ∀ place ∈ p.threads, place ≠ .asleep
  | some i => p.threads[i]? = some .asleep

def wakeThread (threads : List Place) : Option ℕ → List Place
  | none => threads
  | some i => threads.set i .semaphore

/-- `bsem_post` -/
def bsemPost (p : ThreadPool J) (wake : Option ℕ) : ThreadPool J :=
  { p with hasJobs := true, threads := wakeThread p.threads wake }

/-- `pthread_cond_signal` on `threads_all_idle`. -/
def Waiter.signal : Waiter → Waiter
  | .asleep => .locking
  | waiter => waiter

/-- One step of `thread_do`. -/
def threadDo (p : ThreadPool J) (i : ℕ) (wake : Option ℕ) : Place → Except Fault (ThreadPool J)
  | .created => .ok { p.move i .loop with numThreadsAlive := p.numThreadsAlive+1 }
  | .loop => .ok (p.move i (if p.keepalive then .semaphore else .leaving))
  | .semaphore =>
    .ok (if p.hasJobs then { p.move i .woken with hasJobs := false } else p.move i .asleep)
  | .woken => .ok (p.move i (if p.keepalive then .counting else .loop))
  | .counting => .ok { p.move i .pulling with numThreadsWorking := p.numThreadsWorking+1 }
  | .pulling =>
    match jobqueuePull p.jobs p.jobqueue with
    | .error f => .error f
    | .ok (job, jobqueue, post) =>
      let q := { p.move i (match job with | none => .finishing | some a => .running a) with jobqueue }
      .ok (if post then bsemPost q wake else q)
  | .running a =>
    match freeJob p.jobs (some a) with
    | .error f => .error f
    | .ok jobs => .ok { p.move i .finishing with jobs }
  | .finishing => .ok { p.move i .loop with
      numThreadsWorking := p.numThreadsWorking-1
      waiter := if p.numThreadsWorking-1 = 0 then p.waiter.signal else p.waiter }
  | .leaving => .ok { p.move i .unlocking with
      numThreadsAlive := p.numThreadsAlive-1, thcountLocked := true }
  | .unlocking => .ok { p.move i .done with thcountLocked := false }
  | .asleep => .ok p
  | .done => .ok p

/-- `thpool_add_work`; `newjob` is what `malloc` returns. -/
def thpoolAddWork (p : ThreadPool J) (newjob : Option ℕ) (job : J) (wake : Option ℕ) :
    Except Fault (ThreadPool J) :=
  match newjob with
  | none => .ok p
  | some a =>
    match jobqueuePush p.jobs p.jobqueue a job with
    | .error f => .error f
    | .ok (jobs, jobqueue) => .ok (bsemPost { p with jobs, jobqueue } wake)

/-- One step of `thpool_wait`. -/
def thpoolWait (p : ThreadPool J) : ThreadPool J :=
  match p.waiter with
  | .locking => { p with waiter := .readingLen, thcountLocked := true }
  | .readingLen =>
    if p.jobqueue.len = 0 then { p with waiter := .readingWorking }
    else { p with waiter := .asleep, thcountLocked := false }
  | .readingWorking =>
    { p with
      waiter := if p.numThreadsWorking = 0 then .outside else .asleep
      thcountLocked := false }
  | .outside => p
  | .asleep => p

/-- `bsem_post_all`, in the loops of `thpool_destroy`. -/
def bsemPostAll (p : ThreadPool J) : ThreadPool J :=
  { p with
    phase := .ending
    hasJobs := true
    threads := p.threads.map fun place => if place = .asleep then .semaphore else place }

/-- `thpool_destroy` behind its loops. -/
def thpoolFree (p : ThreadPool J) : Except Fault (ThreadPool J) :=
  match jobqueueClear p.jobs p.jobqueue with
  | .error f => .error f
  | .ok (jobs, jobqueue) => .ok { p with jobs, jobqueue, hasJobs := false, phase := .freed }

end Model

section Events
variable {J : Type}

/-- What can happen next. A thread or a caller that signals the semaphore comes with the thread that
is woken, and a thread that sleeps may wake up without a signal. -/
inductive Event (J : Type)
  | thread (i : ℕ) (wake : Option ℕ)
  | threadWakes (i : ℕ)
  | initReturns
  | addWork (newjob : Option ℕ) (job : J) (wake : Option ℕ)
  | callWait
  | wait
  | waitWakes
  | callDestroy
  | seesAlive
  | postAll
  | free
  deriving DecidableEq, Repr

/-- The pool can be used. -/
def Phase.Usable (phase : Phase) : Prop := phase = .serving ∨ phase = .ending ∨ phase = .posting

def Place.Enabled (p : ThreadPool J) (wake : Option ℕ) : Place → Prop
  | .created | .counting | .finishing | .leaving => p.thcountLocked = false ∧ wake = none
  | .loop | .semaphore | .woken | .running _ | .unlocking => wake = none
  | .pulling => if 1 < p.jobqueue.len then p.Wakes wake else wake = none
  | .asleep | .done => False

def Waiter.Enabled (thcountLocked : Bool) : Waiter → Prop
  | .locking => thcountLocked = false
  | .readingLen | .readingWorking => True
  | .outside | .asleep => False

def Event.Enabled (p : ThreadPool J) : Event J → Prop
  | .thread i wake => ∃ place, p.threads[i]? = some place ∧ place.Enabled p wake
  | .threadWakes i => p.threads[i]? = some .asleep
  | .initReturns => p.phase = .starting ∧ p.numThreadsAlive = p.threads.length
  | .addWork none _ wake => p.phase.Usable ∧ wake = none
  | .addWork (some a) _ wake => p.phase.Usable ∧ a ∉ p.jobs ∧ p.Wakes wake
  | .callWait => p.phase.Usable ∧ p.waiter = .outside
  | .wait => p.waiter.Enabled p.thcountLocked
  | .waitWakes => p.waiter = .asleep
  | .callDestroy => p.phase = .serving
  | .seesAlive => p.phase = .ending ∧ p.numThreadsAlive ≠ 0
  | .postAll => p.phase = .posting
  | .free => p.phase = .ending ∧ p.numThreadsAlive = 0

instance (p : ThreadPool J) (wake : Option ℕ) : Decidable (p.Wakes wake) :=
  match wake with
  | none => inferInstanceAs (Decidable (∀ place ∈ p.threads, place ≠ .asleep))
  | some i => inferInstanceAs (Decidable (p.threads[i]? = some .asleep))

instance (phase : Phase) : Decidable phase.Usable :=
  inferInstanceAs (Decidable (phase = .serving ∨ phase = .ending ∨ phase = .posting))

instance (p : ThreadPool J) (wake : Option ℕ) (place : Place) : Decidable (place.Enabled p wake) := by
  cases place <;> unfold Place.Enabled <;> infer_instance

instance (waiter : Waiter) (locked : Bool) : Decidable (waiter.Enabled locked) := by
  cases waiter <;> unfold Waiter.Enabled <;> infer_instance

instance (p : ThreadPool J) (e : Event J) : Decidable (e.Enabled p) :=
  match e with
  | .thread i wake =>
    match hi : p.threads[i]? with
    | none => isFalse fun ⟨place, hplace, _⟩ => by rw [hi] at hplace; cases hplace
    | some place =>
      decidable_of_iff (place.Enabled p wake)
        ⟨fun he => ⟨place, hi, he⟩, fun ⟨place', hplace, he⟩ => by
          rw [hi] at hplace
          cases hplace
          exact he⟩
  | .threadWakes i => inferInstanceAs (Decidable (p.threads[i]? = some .asleep))
  | .initReturns =>
    inferInstanceAs (Decidable (p.phase = .starting ∧ p.numThreadsAlive = p.threads.length))
  | .addWork none _ wake => inferInstanceAs (Decidable (p.phase.Usable ∧ wake = none))
  | .addWork (some a) _ wake =>
    inferInstanceAs (Decidable (p.phase.Usable ∧ a ∉ p.jobs ∧ p.Wakes wake))
  | .callWait => inferInstanceAs (Decidable (p.phase.Usable ∧ p.waiter = .outside))
  | .wait => inferInstanceAs (Decidable (p.waiter.Enabled p.thcountLocked))
  | .waitWakes => inferInstanceAs (Decidable (p.waiter = .asleep))
  | .callDestroy => inferInstanceAs (Decidable (p.phase = .serving))
  | .seesAlive => inferInstanceAs (Decidable (p.phase = .ending ∧ p.numThreadsAlive ≠ 0))
  | .postAll => inferInstanceAs (Decidable (p.phase = .posting))
  | .free => inferInstanceAs (Decidable (p.phase = .ending ∧ p.numThreadsAlive = 0))

/-- An event; what a thread does with a pool that is freed is not defined. -/
def Event.run (p : ThreadPool J) : Event J → Except Fault (ThreadPool J)
  | .thread i wake =>
    if p.phase = .freed then .error .dangling
    else match p.threads[i]? with
      | none => .ok p
      | some place => threadDo p i wake place
  | .threadWakes i => .ok (p.move i .semaphore)
  | .initReturns => .ok { p with phase := .serving }
  | .addWork newjob job wake => thpoolAddWork p newjob job wake
  | .callWait => .ok { p with waiter := .locking }
  | .wait => if p.phase = .freed then .error .dangling else .ok (thpoolWait p)
  | .waitWakes => .ok { p with waiter := .locking }
  | .callDestroy => .ok { p with keepalive := false, phase := .ending }
  | .seesAlive => .ok { p with phase := .posting }
  | .postAll => .ok (bsemPostAll p)
  | .free => thpoolFree p

def Steps (p : ThreadPool J) (e : Event J) (q : ThreadPool J) : Prop :=
  e.Enabled p ∧ e.run p = .ok q

/-- What happened to a pool, each event with the pool it happened to. -/
abbrev Trace (J : Type) := List (ThreadPool J × Event J)

/-- The events, one after another, if they can happen. -/
def exec (p : ThreadPool J) : List (Event J) → Option (Trace J × ThreadPool J)
  | [] => some ([], p)
  | e :: events =>
    if e.Enabled p then
      match e.run p with
      | .error _ => none
      | .ok q => (exec q events).map fun r => ((p, e) :: r.1, r.2)
    else none

theorem exec_run_of {P : Event J → Prop} {p q : ThreadPool J} {events : List (Event J)}
    {trace : Trace J} (hP : ∀ e ∈ events, P e) (h : exec p events = some (trace, q)) :
    Run (fun p e q => P e ∧ Steps p e q) p trace q := by
  induction events generalizing p trace with
  | nil =>
    cases h
    exact .start
  | cons e events ih =>
    rw [exec] at h
    split_ifs at h with he
    split at h
    · cases h
    · rename_i r hr
      obtain ⟨⟨trace', q'⟩, hexec, hmap⟩ := Option.map_eq_some_iff.mp h
      cases hmap
      have hrest := ih (fun e he => hP e (List.mem_cons_of_mem _ he)) hexec
      exact (Run.single ⟨hP e List.mem_cons_self, he, hr⟩).append hrest

theorem exec_run {p q : ThreadPool J} {events : List (Event J)} {trace : Trace J}
    (h : exec p events = some (trace, q)) : Run Steps p trace q :=
  (exec_run_of (P := fun _ => True) (fun _ _ => trivial) h).mono fun _ _ _ hs => hs.2

/-- The trace of events that can happen, and the pool after them. -/
def after (p : ThreadPool J) (events : List (Event J)) : Trace J × ThreadPool J :=
  (exec p events).getD ([], p)

theorem exec_after {p : ThreadPool J} {events : List (Event J)} (h : (exec p events).isSome = true) :
    exec p events = some (after p events) := by
  obtain ⟨r, hr⟩ := Option.isSome_iff_exists.mp h
  rw [after, hr]
  rfl

theorem run_after (p : ThreadPool J) (events : List (Event J)) (h : (exec p events).isSome = true) :
    Run Steps p (after p events).1 (after p events).2 := exec_run (exec_after h)

theorem step_after {p : ThreadPool J} {e : Event J} (h : (exec p [e]).isSome = true) :
    Steps p e (after p [e]).2 := by
  have hexec := exec_after h
  rw [exec] at hexec
  split_ifs at hexec with he
  split at hexec
  · cases hexec
  · rename_i q hq
    rw [exec] at hexec
    rw [← Option.some.inj hexec]
    exact ⟨he, hq⟩

def jobAt (p : ThreadPool J) (a : ℕ) : Option J := (p.jobs.lookup a).map Entry.data

/-- The job that an event adds. -/
def added? : ThreadPool J × Event J → Option J
  | (_, .addWork (some _) job _) => some job
  | _ => none

/-- The job that an event starts. -/
def started? : ThreadPool J × Event J → Option J
  | (p, .thread i _) =>
    match p.threads[i]?, jobqueuePull p.jobs p.jobqueue with
    | some .pulling, .ok (some a, _, _) => jobAt p a
    | _, _ => none
  | _ => none

/-- The job that an event ends. -/
def finished? : ThreadPool J × Event J → Option J
  | (p, .thread i _) =>
    match p.threads[i]? with
    | some (.running a) => jobAt p a
    | _ => none
  | _ => none

def Place.node? : Place → Option ℕ
  | .running a => some a
  | _ => none

/-- The jobs that threads run, by their pointers. -/
def ThreadPool.nodes (p : ThreadPool J) : List ℕ := p.threads.filterMap Place.node?

/-- The jobs that threads run. -/
def ThreadPool.running (p : ThreadPool J) : List J := p.nodes.filterMap (jobAt p)

end Events

end Stronk.Thpool
