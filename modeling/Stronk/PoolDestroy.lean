import Stronk.PoolProgress

/-! The end of a thread pool: `thpool_destroy` waits for the jobs that run, drops those that are
queued, and comes to an end if the threads get the time to leave. -/
namespace Stronk.Thpool
open SList Interleaving

section Destroy
variable {J : Type} {p q : ThreadPool J} {i : ℕ} {place : Place} {wake : Option ℕ} {e : Event J}
  {trace : Trace J}

/-- A pool that is about to be freed: its threads have left or are about to unlock. -/
theorem Counts.left_of_alive (h : Counts p) (hp : p.phase ≠ .starting) (hzero : p.numThreadsAlive = 0) :
    (∀ place ∈ p.threads, place = .unlocking ∨ place = .done) ∧
      p.threads.countP Place.isUnlocking ≤ 1 := by
  have hcount : p.threads.countP Place.isAlive = 0 := by
    have halive := h.alive
    rw [hzero] at halive
    exact_mod_cast halive.symm
  refine ⟨fun place hplace => ?_, ?_⟩
  · have halive := List.countP_eq_zero.mp hcount place hplace
    have hcreated := List.countP_eq_zero.mp (h.created hp) place hplace
    cases place with
    | unlocking => exact Or.inl rfl
    | done => exact Or.inr rfl
    | created => exact absurd rfl hcreated
    | _ => exact absurd rfl halive
  · have hlocked := h.locked
    have hle := p.thcountLocked.toNat_le
    omega

/-- When `thpool_destroy` frees a pool, no job runs, the jobs that were started have ended, the
others are dropped, and no job is left in memory. The threads have ended; at most one of them will
touch the pool again, to unlock what it has just freed. -/
theorem destroy_waits_for_jobs (numThreads : ℤ) (trace : Trace J) (p q : ThreadPool J)
    (h : Run Steps (thpoolInit J numThreads) trace p) (hfree : Steps p .free q) :
    (starts trace).Perm (finishes trace) ∧ adds trace = starts trace ++ p.queued ∧ q.jobs.keys = [] ∧
      (∀ place ∈ q.threads, place = .unlocking ∨ place = .done) ∧
        q.threads.countP Place.isUnlocking ≤ 1 := by
  obtain ⟨hcounts, l, hnodes, hhistory⟩ := run_sound h
  obtain ⟨⟨hphase, hzero⟩, hrun⟩ := hfree
  have hfreed : p.phase ≠ .freed := by
    rw [hphase]
    exact Phase.noConfusion
  obtain ⟨hleft, hlast⟩ := hcounts.left_of_alive (by rw [hphase]; exact Phase.noConfusion) hzero
  have hnone : p.nodes = [] := by
    rw [ThreadPool.nodes, List.filterMap_eq_nil_iff]
    intro place hplace
    rcases hleft place hplace with rfl | rfl <;> rfl
  obtain ⟨jobs, hclear, hlookup⟩ := hnodes.queue.clear
  rw [Event.run, thpoolFree, hclear] at hrun
  cases hrun
  refine ⟨?_, ?_, ?_, hleft, hlast⟩
  · have hended := hhistory.ended
    rwa [ThreadPool.running, hnone, List.filterMap_nil, List.append_nil] at hended
  · rw [hnodes.queued]
    exact hhistory.queued hfreed
  · rw [List.eq_nil_iff_forall_not_mem]
    intro a ha
    -- what is allocated was in the queue, and that is cleared
    have hin := AList.lookup_isSome.mpr (AList.mem_keys.mpr ha)
    change (jobs.lookup a).isSome = true at hin
    rw [hlookup] at hin
    split_ifs at hin with hqueue
    · cases hin
    · rcases (hnodes.allocated a).mp (AList.lookup_isSome.mp hin) with hqueued | hnode
      · exact hqueue hqueued
      · rw [hnone] at hnode
        cases hnode

/-- A job runs and another one is queued when the pool is destroyed. -/
def destroyed : List (Event ℕ) :=
  [.thread 0 none, .initReturns, .addWork (some 10) 7 none, .thread 0 none, .thread 0 none,
    .thread 0 none, .thread 0 none, .thread 0 none, .addWork (some 11) 8 none, .callDestroy,
    .thread 0 none, .thread 0 none, .thread 0 none, .thread 0 none]

/-- The thread still has to unlock the counters of the pool, which is freed. -/
theorem one_job_dropped : ∃ (p q : ThreadPool ℕ) (trace : Trace ℕ), Steps p .free q ∧
    adds trace = starts trace ++ [8] ∧ q.jobs.keys = [] ∧
      (Event.thread 0 none).Enabled q ∧ (Event.thread 0 none).run q = .error .dangling := by
  set p := (after (thpoolInit ℕ 1) destroyed).2 with hp
  have hrun := run_after (thpoolInit ℕ 1) destroyed (by decide +kernel)
  have hfree := step_after (p := p) (e := .free) (by decide +kernel)
  obtain ⟨-, hadds, hjobs, -⟩ := destroy_waits_for_jobs 1 _ p _ hrun hfree
  have hqueued : p.queued = [8] := by decide +kernel
  have hphase : (after p [.free]).2.phase = .freed := by decide +kernel
  rw [hqueued] at hadds
  exact ⟨p, (after p [.free]).2, _, hfree, hadds, hjobs, by decide +kernel,
    by rw [Event.run, if_pos hphase]⟩

theorem getElem?_wakeThread {threads : List Place} (hi : threads[i]? = some place)
    (hplace : place ≠ .asleep) (hw : ∀ k, wake = some k → threads[k]? = some .asleep) :
    (wakeThread threads wake)[i]? = some place := by
  cases wake with
  | none => exact hi
  | some k =>
    have hne : k ≠ i := by
      rintro rfl
      rw [hw k rfl] at hi
      exact hplace (Option.some.inj hi).symm
    exact (List.getElem?_set_ne hne).trans hi

/-- A thread that does not sleep stays where it is until it takes a step. -/
theorem Steps.stays (hs : Steps p e q) (hi : p.threads[i]? = some place) (hplace : place ≠ .asleep)
    (he : ∀ wake, e ≠ .thread i wake) : q.threads[i]? = some place := by
  have hset {k : ℕ} (hne : k ≠ i) (b : Place) : (p.threads.set k b)[i]? = some place :=
    (List.getElem?_set_ne hne).trans hi
  cases e with
  | thread k wake =>
    have hne : k ≠ i := by
      rintro rfl
      exact he wake rfl
    obtain ⟨-, a, hk, henabled, hdo⟩ := hs.thread
    cases a with
    | created | loop | woken | counting | finishing | leaving | unlocking =>
      cases hdo
      exact hset hne _
    | semaphore =>
      cases hdo
      split_ifs <;> exact hset hne _
    | asleep | done => exact henabled.elim
    | running a =>
      rw [threadDo] at hdo
      split at hdo
      · cases hdo
      · cases hdo
        exact hset hne _
    | pulling =>
      obtain ⟨job, jobqueue, post, b, -, hb, hwakes, rfl⟩ := pulling_cases hdo henabled
      have hbne : b ≠ .asleep := by cases job <;> subst hb <;> exact Place.noConfusion
      cases post with
      | false => exact hset hne b
      | true =>
        have hw := (hwakes rfl).move hk Place.noConfusion hbne
        exact getElem?_wakeThread (hset hne b) hplace hw.asleep
  | threadWakes k =>
    obtain ⟨hk, hrun⟩ := hs
    cases hrun
    have hk : p.threads[k]? = some .asleep := hk
    have hne : k ≠ i := by
      rintro rfl
      rw [hi] at hk
      exact hplace (Option.some.inj hk)
    exact hset hne _
  | addWork newjob job wake =>
    cases newjob with
    | none =>
      obtain ⟨-, hrun⟩ := hs
      cases hrun
      exact hi
    | some a =>
      obtain ⟨⟨-, -, hw⟩, hrun⟩ := hs
      simp only [Event.run, thpoolAddWork] at hrun
      split at hrun
      · cases hrun
      · cases hrun
        exact getElem?_wakeThread hi hplace hw.asleep
  | wait =>
    obtain ⟨-, ⟨-, -, rfl⟩ | ⟨-, -, rfl⟩ | ⟨-, -, rfl⟩ | ⟨-, -, rfl⟩ | ⟨-, -, rfl⟩⟩ := hs.wait <;>
      exact hi
  | postAll =>
    obtain ⟨-, hrun⟩ := hs
    cases hrun
    change (p.threads.map _)[i]? = some place
    rw [List.getElem?_map, hi, Option.map_some, if_neg hplace]
  | free =>
    obtain ⟨-, hrun⟩ := hs
    simp only [Event.run, thpoolFree] at hrun
    split at hrun
    · cases hrun
    · cases hrun
      exact hi
  | initReturns | callWait | waitWakes | callDestroy | seesAlive =>
    obtain ⟨-, hrun⟩ := hs
    cases hrun
    exact hi

/-- While a job does not return, `thpool_destroy` does not either. In particular it never does when
it is called by a job, which is what happens when a packet handler ends the program. -/
theorem destroy_never_returns_in_job (numThreads : ℤ) (trace after : Trace J) (p q : ThreadPool J)
    (i a : ℕ) (h : Run Steps (thpoolInit J numThreads) trace p)
    (hi : p.threads[i]? = some (.running a)) (hrun : Run Steps p after q)
    (hstays : ∀ x ∈ after, ∀ wake, x.2 ≠ .thread i wake) :
    q.phase ≠ .freed ∧ 0 < q.numThreadsAlive := by
  have hkept : Counts q ∧ ((∀ x ∈ after, ∀ wake, x.2 ≠ .thread i wake) →
      q.threads[i]? = some (.running a)) := by
    refine hrun.invariant (P := fun after r => Counts r ∧
      ((∀ x ∈ after, ∀ wake, x.2 ≠ .thread i wake) → r.threads[i]? = some (.running a)))
      ⟨(run_sound h).1, fun _ => hi⟩ ?_
    rintro after r e s ⟨hcounts, hr⟩ hs
    refine ⟨step_counts hcounts hs, fun hall => ?_⟩
    have hbefore := hr fun x hx => hall x (List.mem_append_left _ hx)
    exact hs.stays hbefore Place.noConfusion (hall (r, e) (by simp))
  obtain ⟨hcounts, hq⟩ := hkept
  have hpos : 0 < q.threads.countP Place.isAlive :=
    List.countP_pos_iff.mpr ⟨_, List.mem_of_getElem? (hq hstays), rfl⟩
  refine ⟨fun hfreed => ?_, ?_⟩
  · rw [hcounts.freed hfreed] at hpos
    exact absurd hpos (Nat.lt_irrefl 0)
  · rw [hcounts.alive]
    exact_mod_cast hpos

/-- A job that runs calls `thpool_destroy`. -/
def destroyedByJob : List (Event ℕ) :=
  [.thread 0 none, .thread 1 none, .initReturns, .addWork (some 10) 7 none, .thread 0 none,
    .thread 0 none, .thread 0 none, .thread 0 none, .thread 0 none]

theorem job_waits_for_itself : ∃ (p q : ThreadPool ℕ) (after : Trace ℕ), Run Steps p after q ∧
    p.running = [7] ∧ q.phase = .ending ∧ 0 < q.numThreadsAlive := by
  set p := (after (thpoolInit ℕ 2) destroyedByJob).2 with hp
  have hrun := run_after (thpoolInit ℕ 2) destroyedByJob (by decide +kernel)
  have hafter := run_after p [.callDestroy, .thread 1 none, .thread 1 none, .seesAlive, .postAll]
    (by decide +kernel)
  have hstays : ∀ x ∈ (after p [.callDestroy, .thread 1 none, .thread 1 none, .seesAlive, .postAll]).1,
      ∀ wake, x.2 ≠ .thread 0 wake := by
    have hevents : (after p [.callDestroy, .thread 1 none, .thread 1 none, .seesAlive, .postAll]).1.map Prod.snd =
        [.callDestroy, .thread 1 none, .thread 1 none, .seesAlive, .postAll] := by decide +kernel
    intro x hx wake he
    have hmem : x.2 ∈ [Event.callDestroy, .thread 1 none, .thread 1 none, .seesAlive,
        .postAll (J := ℕ)] := by
      rw [← hevents]
      exact List.mem_map_of_mem hx
    rw [he] at hmem
    simp at hmem
  exact ⟨p, _, _, hafter, by decide +kernel, by decide +kernel,
    (destroy_never_returns_in_job 2 _ _ p _ 0 10 hrun (by decide +kernel) hafter hstays).2⟩

end Destroy

section Rounds
variable {J : Type} {p q : ThreadPool J} {i : ℕ} {place : Place} {wake : Option ℕ} {e : Event J}
  {trace : Trace J}

/-- It will leave when the pool is ending. -/
def Place.isDoomed : Place → Bool
  | .woken | .loop | .leaving => true
  | _ => false

def Place.isAsleep : Place → Bool
  | .asleep => true
  | _ => false

/-- After `bsem_post_all`, with `n` threads alive then: nobody sleeps while the semaphore is set, and
whoever takes it leaves. -/
structure Round (n : ℕ) (p : ThreadPool J) : Prop where
  ending : p.phase = .ending
  alive : p.threads.countP Place.isAlive ≤ n
  awake : (p.hasJobs = true ∧ p.threads.countP Place.isAsleep = 0) ∨
    0 < p.threads.countP Place.isDoomed ∨ p.threads.countP Place.isAlive < n

/-- A thread goes from `a` to `b`, where it is not counted as alive again. -/
theorem Round.move {n : ℕ} {a : Place} (h : Round n p) (hi : p.threads[i]? = some a) (b : Place)
    (hphase : q.phase = p.phase) (hthreads : q.threads = p.threads.set i b)
    (halive : b.isAlive = true → a.isAlive = true)
    (hv : (q.hasJobs = p.hasJobs ∧ b.isAsleep = false) ∨ p.hasJobs = false ∨ b.isDoomed = true)
    (hdoomed : a.isDoomed = true → b.isDoomed = true ∨ (a.isAlive = true ∧ b.isAlive = false)) :
    Round n q := by
  have hmove (f : Place → Bool) : q.threads.countP f+(f a).toNat = p.threads.countP f+(f b).toNat := by
    rw [hthreads]
    exact countP_move hi b f
  have hcount := hmove Place.isAlive
  have hle := Bool.toNat_le_toNat halive
  have hold := h.alive
  refine ⟨hphase.trans h.ending, by omega, ?_⟩
  by_cases hb : b.isDoomed = true
  · have hnew := hmove Place.isDoomed
    have hpos : 0 < q.threads.countP Place.isDoomed := by
      rw [hthreads]
      have hlt := (List.getElem?_eq_some_iff.mp hi).1
      exact List.countP_pos_iff.mpr ⟨b, List.mem_of_getElem? (List.getElem?_set_self hlt), hb⟩
    exact Or.inr (Or.inl hpos)
  · rcases h.awake with ⟨hset, hnone⟩ | hpos | hfewer
    · rcases hv with ⟨hsame, hawake⟩ | hunset | hb'
      · have hasleep := hmove Place.isAsleep
        rw [hawake, Bool.toNat_false] at hasleep
        exact Or.inl ⟨hsame.trans hset, by omega⟩
      · rw [hset] at hunset
        cases hunset
      · exact absurd hb' hb
    · right
      by_cases ha : a.isDoomed = true
      · obtain ⟨hlive, hgone⟩ := (hdoomed ha).resolve_left hb
        rw [hlive, hgone, Bool.toNat_true, Bool.toNat_false] at hcount
        exact Or.inr (by omega)
      · have hsame := hmove Place.isDoomed
        rw [Bool.eq_false_iff.mpr ha, Bool.eq_false_iff.mpr hb] at hsame
        exact Or.inl (by omega)
    · exact Or.inr (Or.inr (by omega))

theorem threadDo_round {n : ℕ} (hcounts : Counts p) (h : Round n p) (hi : p.threads[i]? = some place)
    (he : place.Enabled p wake) (hdo : threadDo p i wake place = .ok q) : Round n q := by
  have hkeep : p.keepalive = false := by
    rw [← Bool.not_eq_true, hcounts.keepalive, h.ending]
    simp
  cases place with
  | created =>
    have hzero := hcounts.created (by rw [h.ending]; exact Phase.noConfusion)
    exact absurd rfl (List.countP_eq_zero.mp hzero _ (List.mem_of_getElem? hi))
  | loop =>
    cases hdo
    refine h.move hi .leaving rfl ?_ (fun _ => rfl) (Or.inr (Or.inr rfl)) fun _ => Or.inl rfl
    rw [hkeep]
    rfl
  | semaphore =>
    cases hdo
    rcases hv : p.hasJobs with _ | _
    · exact h.move hi .asleep rfl rfl (fun _ => rfl) (Or.inr (Or.inl hv)) (fun h => by cases h)
    · exact h.move hi .woken rfl rfl (fun _ => rfl) (Or.inr (Or.inr rfl)) (fun h => by cases h)
  | asleep => exact he.elim
  | woken =>
    cases hdo
    refine h.move hi .loop rfl ?_ (fun _ => rfl) (Or.inr (Or.inr rfl)) fun _ => Or.inl rfl
    rw [hkeep]
    rfl
  | counting =>
    cases hdo
    exact h.move hi .pulling rfl rfl (fun _ => rfl) (Or.inl ⟨rfl, rfl⟩) (fun h => by cases h)
  | pulling =>
    obtain ⟨job, jobqueue, post, b, -, hb, hwakes, rfl⟩ := pulling_cases hdo he
    have hclass : b.isAsleep = false ∧ b ≠ .asleep := by
      cases job <;> subst hb <;> exact ⟨rfl, Place.noConfusion⟩
    have hmoved : Round n (p.move i b) :=
      h.move hi b rfl rfl (fun _ => rfl) (Or.inl ⟨rfl, hclass.1⟩) (fun h => by cases h)
    cases post with
    | false => exact ⟨hmoved.ending, hmoved.alive, hmoved.awake⟩
    | true =>
      -- a thread that is woken does not sleep, and is counted where it was otherwise
      have hw := ((hwakes rfl).move hi Place.noConfusion hclass.2).asleep
      have hsame (f : Place → Bool) (hf : f .asleep = f .semaphore) :
          (wakeThread (p.threads.set i b) wake).countP f = (p.threads.set i b).countP f :=
        countP_wakeThread hw hf
      have hfewer : (wakeThread (p.threads.set i b) wake).countP Place.isAsleep ≤
          (p.threads.set i b).countP Place.isAsleep := by
        cases wake with
        | none => exact le_rfl
        | some k =>
          have hmove := countP_move (hw k rfl) .semaphore Place.isAsleep
          exact Nat.le_of_add_right_le hmove.le
      refine ⟨hmoved.ending, (hsame Place.isAlive rfl).trans_le hmoved.alive, ?_⟩
      rcases hmoved.awake with ⟨-, hnone⟩ | hpos | hless
      · exact Or.inl ⟨rfl, Nat.le_zero.mp (hfewer.trans hnone.le)⟩
      · exact Or.inr (Or.inl (hpos.trans_eq (hsame Place.isDoomed rfl).symm))
      · exact Or.inr (Or.inr ((hsame Place.isAlive rfl).trans_lt hless))
  | running a =>
    rw [threadDo] at hdo
    split at hdo
    · cases hdo
    · cases hdo
      exact h.move hi .finishing rfl rfl (fun _ => rfl) (Or.inl ⟨rfl, rfl⟩) (fun h => by cases h)
  | finishing =>
    cases hdo
    exact h.move hi .loop rfl rfl (fun _ => rfl) (Or.inr (Or.inr rfl)) (fun h => by cases h)
  | leaving =>
    cases hdo
    exact h.move hi .unlocking rfl rfl (fun h => by cases h) (Or.inl ⟨rfl, rfl⟩)
      fun _ => Or.inr ⟨rfl, rfl⟩
  | unlocking =>
    cases hdo
    exact h.move hi .done rfl rfl (fun h => by cases h) (Or.inl ⟨rfl, rfl⟩) (fun h => by cases h)
  | done => exact he.elim

theorem step_round {n : ℕ} (hcounts : Counts p) (h : Round n p) (hs : OwnSteps p e q) : Round n q := by
  obtain ⟨hown, hs⟩ := hs
  cases e with
  | thread i wake =>
    obtain ⟨-, place, hi, he, hdo⟩ := hs.thread
    exact threadDo_round hcounts h hi he hdo
  | wait =>
    obtain ⟨-, ⟨-, -, rfl⟩ | ⟨-, -, rfl⟩ | ⟨-, -, rfl⟩ | ⟨-, -, rfl⟩ | ⟨-, -, rfl⟩⟩ := hs.wait <;>
      exact ⟨h.ending, h.alive, h.awake⟩
  | _ => exact hown.elim

/-- A round begins when everybody who sleeps is woken. -/
theorem round_postAll (p : ThreadPool J) :
    Round (p.threads.countP Place.isAlive) (bsemPostAll p) := by
  refine ⟨rfl, (countP_postAll rfl).le, Or.inl ⟨rfl, ?_⟩⟩
  refine List.countP_eq_zero.mpr fun place hplace => ?_
  obtain ⟨place, -, rfl⟩ := List.mem_map.mp hplace
  split_ifs with ha
  · exact Bool.false_ne_true
  · cases place <;> first | exact absurd rfl ha | exact Bool.false_ne_true

/-- It ends with somebody gone, if there was anybody. -/
theorem Round.fewer {n : ℕ} (h : Round n p) (hpos : 0 < n)
    (hplaces : ∀ place ∈ p.threads, place = .asleep ∨ place = .done) :
    p.threads.countP Place.isAlive < n := by
  rcases h.awake with ⟨-, hnone⟩ | hdoomed | hfewer
  · -- nobody sleeps, so that everybody has ended
    have hzero : p.threads.countP Place.isAlive = 0 := by
      refine List.countP_eq_zero.mpr fun place hplace => ?_
      rcases hplaces place hplace with rfl | rfl
      · exact absurd rfl (List.countP_eq_zero.mp hnone _ hplace)
      · exact Bool.false_ne_true
    omega
  · obtain ⟨place, hplace, hd⟩ := List.countP_pos_iff.mp hdoomed
    rcases hplaces place hplace with rfl | rfl <;> cases hd
  · exact hfewer

/-- While `thpool_destroy` waits, nobody comes to life. -/
theorem OwnSteps.alive_le (hs : OwnSteps p e q) (hcounts : Counts p) (hp : p.phase ≠ .starting) :
    q.numThreadsAlive ≤ p.numThreadsAlive := by
  obtain ⟨hown, hs⟩ := hs
  cases e with
  | thread i wake =>
    obtain ⟨-, place, hi, he, hdo⟩ := hs.thread
    cases place with
    | created =>
      have hzero := hcounts.created hp
      exact absurd rfl (List.countP_eq_zero.mp hzero _ (List.mem_of_getElem? hi))
    | loop | woken | counting | finishing | unlocking | asleep | done =>
      cases hdo
      exact le_rfl
    | semaphore =>
      cases hdo
      split_ifs <;> exact le_rfl
    | leaving =>
      cases hdo
      exact Int.sub_le_self _ (by decide)
    | running a =>
      rw [threadDo] at hdo
      split at hdo
      · cases hdo
      · cases hdo
        exact le_rfl
    | pulling =>
      obtain ⟨job, jobqueue, post, b, -, -, -, rfl⟩ := pulling_cases hdo he
      exact le_rfl
  | wait =>
    obtain ⟨-, ⟨-, -, rfl⟩ | ⟨-, -, rfl⟩ | ⟨-, -, rfl⟩ | ⟨-, -, rfl⟩ | ⟨-, -, rfl⟩⟩ := hs.wait <;>
      exact le_rfl
  | _ => exact hown.elim

/-- The pool on its own: what its steps keep. -/
theorem own_run_kept (hrun : Run OwnSteps p trace q) (hcounts : Counts p) (hp : p.phase ≠ .starting) :
    Counts q ∧ q.phase = p.phase ∧ q.numThreadsAlive ≤ p.numThreadsAlive :=
  hrun.invariant (P := fun _ t => Counts t ∧ t.phase = p.phase ∧
    t.numThreadsAlive ≤ p.numThreadsAlive) ⟨hcounts, rfl, le_rfl⟩
    fun _ _ _ _ ⟨ht, hphase, hle⟩ hs => ⟨step_counts ht hs.2, (hs.2.phase_own hs.1).trans hphase,
      (hs.alive_le ht (hphase ▸ hp)).trans hle⟩

/-- Neither the threads nor the main thread can go on. -/
def AtRest (p : ThreadPool J) : Prop := ∀ e q, ¬ OwnSteps p e q

/-- One round of the loops of `thpool_destroy`: it sees a thread alive and posts, and the threads
come to rest before it looks again. -/
inductive DestroyRound (p : ThreadPool J) : Trace J → ThreadPool J → Prop
  | round {seen posting posted r : ThreadPool J} {before after : Trace J} :
      Steps p .seesAlive seen → Run OwnSteps seen before posting → Steps posting .postAll posted →
      Run OwnSteps posted after r → AtRest r →
      DestroyRound p ((p, .seesAlive) :: before ++ (posting, .postAll) :: after) r

theorem DestroyRound.run (h : DestroyRound p trace q) : Run Steps p trace q := by
  obtain ⟨hsees, hbefore, hpost, hafter, -⟩ := h
  have hown {s t : ThreadPool J} {own : Trace J} (hrun : Run OwnSteps s own t) : Run Steps s own t :=
    hrun.mono fun _ _ _ hs => hs.2
  exact ((Run.single hsees).append (hown hbefore)).append ((Run.single hpost).append (hown hafter))

theorem DestroyRound.phase (h : DestroyRound p trace q) : q.phase = .ending := by
  obtain ⟨-, -, hpost, hafter, -⟩ := h
  have hdone := hpost.2
  cases hdone
  exact hafter.invariant (P := fun _ t => t.phase = .ending) rfl
    fun _ _ _ _ ht hs => (hs.2.phase_own hs.1).trans ht

/-- Every round ends a thread at least: one that was alive when it was looked at. -/
theorem DestroyRound.ends_thread {numThreads : ℤ} {start : Trace J}
    (h : Run Steps (thpoolInit J numThreads) start p) (hround : DestroyRound p trace q) :
    q.numThreadsAlive < p.numThreadsAlive := by
  have hall := run_sound (h.append hround.run)
  have hp := (run_sound h).1
  obtain ⟨hsees, hbefore, hpost, hafter, hrest⟩ := hround
  rename_i seen posting posted before after
  have hseen : Counts seen := step_counts hp hsees
  obtain ⟨⟨-, halive⟩, hdone⟩ := hsees
  cases hdone
  obtain ⟨hposting, -, hle⟩ := own_run_kept hbefore hseen Phase.noConfusion
  have hposted : Counts posted := step_counts hposting hpost
  obtain ⟨-, hdone⟩ := hpost
  cases hdone
  set n := posting.threads.countP Place.isAlive with hn
  obtain ⟨hq, hround⟩ : Counts q ∧ Round n q :=
    hafter.invariant (P := fun _ t => Counts t ∧ Round n t) ⟨hposted, round_postAll posting⟩
      fun _ _ _ _ ht hs => ⟨step_counts ht.1 hs.2, step_round ht.1 ht.2 hs⟩
  obtain ⟨-, -, hplaces⟩ := places_of_stuck hall (Or.inr (Or.inl hround.ending))
    fun e s hown hs => hrest e s ⟨hown, hs⟩
  -- those that are alive at the post were seen alive
  have hbound : (n : ℤ) ≤ p.numThreadsAlive := by
    rw [hn, ← hposting.alive]
    exact hle
  rw [hq.alive]
  rcases Nat.eq_zero_or_pos n with hzero | hpos
  · have hmost := hround.alive
    have hseen := hp.alive
    omega
  · have hfewer := hround.fewer hpos hplaces
    omega

/-- The threads come to rest, in as many steps as the rank allows. -/
theorem exists_rest (p : ThreadPool J) : ∃ trace q, Run OwnSteps p trace q ∧ AtRest q := by
  induction hn : p.rank using Nat.strong_induction_on generalizing p with
  | _ n ih =>
    by_cases hrest : AtRest p
    · exact ⟨[], p, .start, hrest⟩
    · simp only [AtRest, not_forall, not_not] at hrest
      obtain ⟨e, q, hs⟩ := hrest
      obtain ⟨trace, r, hrun, hr⟩ := ih q.rank (hn ▸ hs.2.rank_lt hs.1) q rfl
      exact ⟨_, r, (Run.single hs).append hrun, hr⟩

/-- Where a thread is alive there is a next round. -/
theorem exists_round (hp : p.phase = .ending) (halive : p.numThreadsAlive ≠ 0) :
    ∃ trace q, DestroyRound p trace q := by
  set seen : ThreadPool J := { p with phase := .posting } with hseen
  obtain ⟨after, q, hafter, hrest⟩ := exists_rest (bsemPostAll seen)
  have hsees : Steps p .seesAlive seen := ⟨⟨hp, halive⟩, rfl⟩
  exact ⟨_, q, .round hsees .start ⟨rfl, rfl⟩ hafter hrest⟩

/-- The rounds of `thpool_destroy`, one after another. -/
theorem destroyRounds_sound {numThreads : ℤ} {start : Trace J}
    {rounds : List (ThreadPool J × Trace J)} (h : Run Steps (thpoolInit J numThreads) start p)
    (hp : p.phase = .ending) (hrounds : Run DestroyRound p rounds q) :
    (∃ trace, Run Steps (thpoolInit J numThreads) trace q) ∧ q.phase = .ending ∧
      rounds.length+q.numThreadsAlive ≤ p.numThreadsAlive := by
  refine hrounds.invariant (P := fun rounds t =>
    (∃ trace, Run Steps (thpoolInit J numThreads) trace t) ∧ t.phase = .ending ∧
      rounds.length+t.numThreadsAlive ≤ p.numThreadsAlive) ⟨⟨start, h⟩, hp, by simp⟩ ?_
  rintro rounds s round t ⟨⟨trace, hs⟩, -, hle⟩ hround
  have hlt := hround.ends_thread hs
  refine ⟨⟨_, hs.append hround.run⟩, hround.phase, ?_⟩
  rw [List.length_append, List.length_singleton, Nat.cast_add, Nat.cast_one]
  omega

/-- Every round of `thpool_destroy` ends a thread at least, if the threads come to rest before the
next one, which they do after a bounded number of steps. So as many rounds as there are threads are
enough: there is a next round as long as a thread is alive, and then the pool can be freed. -/
theorem destroy_rounds_enough (numThreads : ℤ) (trace : Trace J) (p q : ThreadPool J)
    (rounds : List (ThreadPool J × Trace J)) (h : Run Steps (thpoolInit J numThreads) trace p)
    (hp : p.phase = .ending) (hrounds : Run DestroyRound p rounds q) :
    rounds.length+q.numThreadsAlive ≤ p.numThreadsAlive ∧ p.numThreadsAlive ≤ numThreads.toNat ∧
      (q.numThreadsAlive ≠ 0 → ∃ round r, DestroyRound q round r) ∧
      (q.numThreadsAlive = 0 → ∃ r, Steps q .free r) ∧
      ∀ s after r, Run (OwnSteps (J := J)) s after r → after.length ≤ s.rank := by
  obtain ⟨⟨trace', hq⟩, hphase, hlength⟩ := destroyRounds_sound h hp hrounds
  refine ⟨hlength, ?_, exists_round hphase, fun hzero => ?_, fun s after r => own_length_le⟩
  · rw [(run_sound h).1.alive, ← length_threads h]
    exact_mod_cast List.countP_le_length
  · exact (run_sound hq).defined (e := .free) ⟨hphase, hzero⟩
      (by rw [hphase]; exact Phase.noConfusion)

/-- Both threads sleep when the pool is destroyed. -/
def asleepAtEnd : List (Event ℕ) :=
  [.thread 0 none, .thread 1 none, .initReturns, .thread 0 none, .thread 0 none, .thread 1 none,
    .thread 1 none, .callDestroy]

/-- The first of them takes the semaphore and leaves, the other one sleeps again. -/
def firstLeaves : List (Event ℕ) :=
  [.thread 0 none, .thread 1 none, .thread 0 none, .thread 0 none, .thread 0 none, .thread 0 none]

def secondLeaves : List (Event ℕ) :=
  [.thread 1 none, .thread 1 none, .thread 1 none, .thread 1 none, .thread 1 none]

theorem round_after (p : ThreadPool ℕ) (own : List (Event ℕ)) (hp : p.phase = .ending)
    (halive : p.numThreadsAlive ≠ 0) (hown : ∀ e ∈ own, e.IsOwn)
    (hexec : (exec (bsemPostAll p) own).isSome = true)
    (hrest : AtRest (after (bsemPostAll p) own).2) :
    ∃ trace, DestroyRound p trace (after (bsemPostAll p) own).2 := by
  set seen : ThreadPool ℕ := { p with phase := .posting } with hseen
  have hsees : Steps p .seesAlive seen := ⟨⟨hp, halive⟩, rfl⟩
  exact ⟨_, .round hsees .start ⟨rfl, rfl⟩ (own_run_after _ own hown hexec) hrest⟩

theorem sleeping_threads_leave : ∃ (p q r : ThreadPool ℕ) (rounds : List (ThreadPool ℕ × Trace ℕ)),
    p.threads = [.asleep, .asleep] ∧ Run DestroyRound p rounds q ∧ rounds.length = 2 ∧
      Steps q .free r := by
  set p := (after (thpoolInit ℕ 2) asleepAtEnd).2 with hp
  set q := (after (bsemPostAll p) firstLeaves).2 with hq
  have hrun := run_after (thpoolInit ℕ 2) asleepAtEnd (by decide +kernel)
  obtain ⟨first, hfirst⟩ := round_after p firstLeaves (by decide +kernel) (by decide +kernel)
    (by decide) (by decide +kernel)
    (ThreadPool.stuck_of_places _ (by decide +kernel) (by decide +kernel))
  obtain ⟨second, hsecond⟩ := round_after q secondLeaves (by decide +kernel) (by decide +kernel)
    (by decide) (by decide +kernel)
    (ThreadPool.stuck_of_places _ (by decide +kernel) (by decide +kernel))
  have hrounds := (Run.single hfirst).next second hsecond
  obtain ⟨-, -, -, hfree, -⟩ :=
    destroy_rounds_enough 2 _ p _ _ hrun (by decide +kernel) hrounds
  obtain ⟨r, hr⟩ := hfree (by decide +kernel)
  exact ⟨p, _, r, _, by decide +kernel, hrounds, rfl, hr⟩

end Rounds

end Stronk.Thpool
