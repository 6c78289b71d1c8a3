import Stronk.ThreadPool

/-! What a thread pool never does: lose a job, run it twice or out of order, leave a counter wrong,
or follow a pointer that leads nowhere. -/
namespace Stronk.Thpool
open SList Interleaving

section Classes

def Place.isAlive : Place → Bool
  | .created | .unlocking | .done => false
  | _ => true

/-- It is counted as working. -/
def Place.isCounted : Place → Bool
  | .pulling | .running _ | .finishing => true
  | _ => false

def Place.isUnlocking : Place → Bool
  | .unlocking => true
  | _ => false

def Place.isCreated : Place → Bool
  | .created => true
  | _ => false

/-- It has left its loop. -/
def Place.hasLeft : Place → Bool
  | .leaving | .unlocking | .done => true
  | _ => false

/-- It has taken the semaphore and has not pulled a job for it. -/
def Place.hasToken : Place → Bool
  | .woken | .counting | .pulling => true
  | _ => false

/-- The lock of the counters is with the main thread. -/
def Waiter.holds : Waiter → Bool
  | .readingLen | .readingWorking => true
  | _ => false

end Classes

section Moves
variable {J : Type} {p q : ThreadPool J} {threads : List Place} {i : ℕ} {a b : Place}
  {wake : Option ℕ}

/-- A thread goes from `a` to `b`: what is counted at `b` is counted more often. -/
theorem countP_move (hi : threads[i]? = some a) (b : Place) (f : Place → Bool) :
    (threads.set i b).countP f+(f a).toNat = threads.countP f+(f b).toNat := by
  obtain ⟨others, hperm, hset⟩ := exists_others hi
  have hcons (c : Place) : (c :: others).countP f = others.countP f+(f c).toNat := by
    rw [List.countP_cons]
    cases f c <;> rfl
  rw [hperm.countP_eq, (hset b).countP_eq, hcons, hcons]
  omega

theorem nodes_move (hi : threads[i]? = some a) (b : Place) :
    ((a.node?).toList ++ (threads.set i b).filterMap Place.node?).Perm
      ((b.node?).toList ++ threads.filterMap Place.node?) := by
  obtain ⟨others, hperm, hset⟩ := exists_others hi
  have hcons (c : Place) : (c :: others).filterMap Place.node? =
      (c.node?).toList ++ others.filterMap Place.node? := by
    rw [List.filterMap_cons]
    cases c.node? <;> rfl
  have hleft := (hset b).filterMap Place.node?
  have hright := hperm.filterMap Place.node?
  rw [hcons] at hleft hright
  have hswap : ((a.node?).toList ++ ((b.node?).toList ++ others.filterMap Place.node?)).Perm
      ((b.node?).toList ++ ((a.node?).toList ++ others.filterMap Place.node?)) := by
    rw [← List.append_assoc, ← List.append_assoc]
    exact List.perm_append_comm.append_right _
  exact ((hleft.append_left _).trans hswap).trans (hright.symm.append_left _)

/-- Threads that wake up are counted where they were. -/
theorem countP_wakeThread {f : Place → Bool} (hw : ∀ k, wake = some k → threads[k]? = some .asleep)
    (hf : f .asleep = f .semaphore) : (wakeThread threads wake).countP f = threads.countP f := by
  cases wake with
  | none => rfl
  | some k =>
    have hmove := countP_move (hw k rfl) .semaphore f
    rw [hf] at hmove
    exact Nat.add_right_cancel hmove

theorem nodes_wakeThread (hw : ∀ k, wake = some k → threads[k]? = some .asleep) :
    ((wakeThread threads wake).filterMap Place.node?).Perm (threads.filterMap Place.node?) := by
  cases wake with
  | none => rfl
  | some k => exact nodes_move (hw k rfl) .semaphore

theorem ThreadPool.Wakes.asleep (h : p.Wakes wake) (k : ℕ) (hk : wake = some k) :
    p.threads[k]? = some .asleep := by
  subst hk
  exact h

/-- The thread that posts the semaphore does not sleep. -/
theorem ThreadPool.Wakes.move (h : p.Wakes wake) (hi : p.threads[i]? = some a) (ha : a ≠ .asleep)
    (hb : b ≠ .asleep) : (p.move i b).Wakes wake := by
  cases wake with
  | none =>
    intro place hplace
    rcases List.mem_or_eq_of_mem_set hplace with hplace | rfl
    · exact h place hplace
    · exact hb
  | some k =>
    have hk : p.threads[k]? = some .asleep := h
    have hne : i ≠ k := by
      intro he
      rw [← he, hi] at hk
      exact ha (Option.some.inj hk)
    change (p.threads.set i b)[k]? = some .asleep
    rw [List.getElem?_set_ne hne, hk]

end Moves

section Steps
variable {J : Type} {p q : ThreadPool J} {i : ℕ} {wake : Option ℕ}

theorem Steps.thread (h : Steps p (.thread i wake) q) : p.phase ≠ .freed ∧
    ∃ place, p.threads[i]? = some place ∧ place.Enabled p wake ∧ threadDo p i wake place = .ok q := by
  obtain ⟨⟨place, hi, henabled⟩, hrun⟩ := h
  rw [Event.run] at hrun
  split_ifs at hrun with hfreed
  rw [hi] at hrun
  exact ⟨hfreed, place, hi, henabled, hrun⟩

theorem jobqueuePull_post {jobs : Jobs J} {jobqueue jobqueue' : JobQueue} {job : Option ℕ}
    {post : Bool} (h : jobqueuePull jobs jobqueue = .ok (job, jobqueue', post)) :
    post = decide (1 < jobqueue.len) := by
  rw [jobqueuePull] at h
  rcases hlen : jobqueue.len with _ | _ | len <;> simp only [hlen] at h
  · cases h
    rfl
  · cases h
    rfl
  · split at h
    · cases h
    · split at h
      · cases h
      · cases h
        simp

/-- What the main thread does next in `thpool_wait`. -/
theorem Steps.wait (h : Steps p .wait q) : p.phase ≠ .freed ∧
    ((p.waiter = .locking ∧ p.thcountLocked = false ∧
        q = { p with waiter := .readingLen, thcountLocked := true }) ∨
      (p.waiter = .readingLen ∧ p.jobqueue.len = 0 ∧
        q = { p with waiter := .readingWorking, thcountLocked := p.thcountLocked }) ∨
      (p.waiter = .readingLen ∧ p.jobqueue.len ≠ 0 ∧
        q = { p with waiter := .asleep, thcountLocked := false }) ∨
      (p.waiter = .readingWorking ∧ p.numThreadsWorking = 0 ∧
        q = { p with waiter := .outside, thcountLocked := false }) ∨
      (p.waiter = .readingWorking ∧ p.numThreadsWorking ≠ 0 ∧
        q = { p with waiter := .asleep, thcountLocked := false })) := by
  obtain ⟨he, hrun⟩ := h
  rw [Event.run] at hrun
  split_ifs at hrun with hfreed
  have hq := Except.ok.inj hrun
  refine ⟨hfreed, ?_⟩
  change p.waiter.Enabled p.thcountLocked at he
  rw [thpoolWait] at hq
  rcases hw : p.waiter with _ | _ | _ | _ | _ <;> rw [hw] at he <;> simp only [hw] at hq
  · exact he.elim
  · exact Or.inl ⟨rfl, he, hq.symm⟩
  · split_ifs at hq with hlen
    · exact Or.inr (Or.inl ⟨rfl, hlen, hq.symm⟩)
    · exact Or.inr (Or.inr (Or.inl ⟨rfl, hlen, hq.symm⟩))
  · split_ifs at hq with hworking
    · exact Or.inr (Or.inr (Or.inr (Or.inl ⟨rfl, hworking, hq.symm⟩)))
    · exact Or.inr (Or.inr (Or.inr (Or.inr ⟨rfl, hworking, hq.symm⟩)))
  · exact he.elim

/-- A thread that pulls: it has a job or not, and wakes another one if more jobs are left. -/
theorem pulling_cases (h : threadDo p i wake .pulling = .ok q) (he : Place.pulling.Enabled p wake) :
    ∃ job jobqueue post place, jobqueuePull p.jobs p.jobqueue = .ok (job, jobqueue, post) ∧
      place = (match job with | none => .finishing | some a => .running a) ∧
      (post = true → p.Wakes wake) ∧
      q = { p with
        threads := if post then wakeThread (p.threads.set i place) wake else p.threads.set i place
        jobqueue
        hasJobs := post || p.hasJobs } := by
  rw [threadDo] at h
  split at h
  · cases h
  · rename_i job jobqueue post hpull
    refine ⟨job, jobqueue, post, _, hpull, rfl, fun hpost => ?_, ?_⟩
    · rw [jobqueuePull_post hpull, decide_eq_true_iff] at hpost
      rw [Place.Enabled, if_pos hpost] at he
      exact he
    · cases h
      cases post <;> rfl

end Steps

section Counts
variable {J : Type} {p q : ThreadPool J} {i : ℕ} {a b : Place} {e : Event J}

/-- The counters and the lock say where the threads are. -/
structure Counts (p : ThreadPool J) : Prop where
  alive : p.numThreadsAlive = p.threads.countP Place.isAlive
  working : p.numThreadsWorking = p.threads.countP Place.isCounted
  locked : p.threads.countP Place.isUnlocking+p.waiter.holds.toNat = p.thcountLocked.toNat
  left : p.keepalive = true → p.threads.countP Place.hasLeft = 0
  created : p.phase ≠ .starting → p.threads.countP Place.isCreated = 0
  keepalive : p.keepalive = true ↔ p.phase = .starting ∨ p.phase = .serving
  starting : p.phase = .starting → p.waiter = .outside
  freed : p.phase = .freed → p.threads.countP Place.isAlive = 0

/-- A thread goes from `a` to `b`, and the counters and the lock are changed accordingly. -/
theorem Counts.move (h : Counts p) (hi : p.threads[i]? = some a) (b : Place)
    {alive working : ℤ} {locked : Bool} {waiter : Waiter} {jobs : Jobs J} {hasJobs : Bool}
    (halive : alive+a.isAlive.toNat = p.numThreadsAlive+b.isAlive.toNat)
    (hworking : working+a.isCounted.toNat = p.numThreadsWorking+b.isCounted.toNat)
    (hlocked : locked.toNat+a.isUnlocking.toNat = p.thcountLocked.toNat+b.isUnlocking.toNat)
    (hleft : p.keepalive = true → b.hasLeft = false) (hcreated : b.isCreated = false)
    (hfreed : p.phase ≠ .freed) (hholds : waiter.holds = p.waiter.holds)
    (hstarting : p.waiter = .outside → waiter = .outside) :
    Counts { p with
      threads := p.threads.set i b, numThreadsAlive := alive, numThreadsWorking := working
      thcountLocked := locked, waiter := waiter, jobs := jobs, hasJobs := hasJobs } := by
  have hmove := countP_move hi b
  refine ⟨?_, ?_, ?_, fun hk => ?_, fun hphase => ?_, h.keepalive,
    fun hphase => hstarting (h.starting hphase), fun hphase => absurd hphase hfreed⟩
  · have hcount := hmove Place.isAlive
    have hold := h.alive
    change alive = (p.threads.set i b).countP Place.isAlive
    omega
  · have hcount := hmove Place.isCounted
    have hold := h.working
    change working = (p.threads.set i b).countP Place.isCounted
    omega
  · have hcount := hmove Place.isUnlocking
    have hold := h.locked
    change (p.threads.set i b).countP Place.isUnlocking+waiter.holds.toNat = locked.toNat
    rw [hholds]
    omega
  · have hcount := hmove Place.hasLeft
    have hold := h.left hk
    rw [hleft hk, Bool.toNat_false] at hcount
    change (p.threads.set i b).countP Place.hasLeft = 0
    omega
  · have hcount := hmove Place.isCreated
    have hold := h.created hphase
    rw [hcreated, Bool.toNat_false] at hcount
    change (p.threads.set i b).countP Place.isCreated = 0
    omega

/-- What is counted stays the same when the threads that wake up are counted where they were. -/
theorem Counts.congr (h : Counts p) {threads : List Place} {jobs : Jobs J} {jobqueue : JobQueue}
    {hasJobs : Bool} (hsame : ∀ f : Place → Bool, f .asleep = f .semaphore →
      threads.countP f = p.threads.countP f) :
    Counts { p with threads, jobs, jobqueue, hasJobs } := by
  refine ⟨?_, ?_, ?_, fun hk => ?_, fun hphase => ?_, h.keepalive, h.starting, fun hphase => ?_⟩
  · exact h.alive.trans (congrArg _ (hsame _ rfl).symm)
  · exact h.working.trans (congrArg _ (hsame _ rfl).symm)
  · exact (congrArg (· + _) (hsame _ rfl)).trans h.locked
  · exact (hsame _ rfl).trans (h.left hk)
  · exact (hsame _ rfl).trans (h.created hphase)
  · exact (hsame _ rfl).trans (h.freed hphase)

/-- `thpool_destroy` goes on in its loops. -/
theorem Counts.destroying (h : Counts p) {phase : Phase} (hin : p.phase ≠ .starting)
    (hbefore : p.phase ≠ .serving) (hphase : ¬ (phase = .starting ∨ phase = .serving))
    (hfreed : phase ≠ .freed) : Counts { p with phase } := by
  refine ⟨h.alive, h.working, h.locked, h.left, fun _ => h.created hin, ?_,
    fun hstarting => absurd (Or.inl hstarting) hphase, fun hdone => absurd hdone hfreed⟩
  rw [h.keepalive]
  exact iff_of_false (not_or.mpr ⟨hin, hbefore⟩) hphase

/-- The main thread goes on in `thpool_wait`. -/
theorem Counts.waiting (h : Counts p) {waiter : Waiter} {locked : Bool} (hin : p.waiter ≠ .outside)
    (hlocked : locked.toNat+p.waiter.holds.toNat = p.thcountLocked.toNat+waiter.holds.toNat) :
    Counts { p with waiter, thcountLocked := locked } := by
  refine ⟨h.alive, h.working, ?_, h.left, h.created, h.keepalive,
    fun hphase => absurd (h.starting hphase) hin, h.freed⟩
  have hold := h.locked
  change p.threads.countP Place.isUnlocking+waiter.holds.toNat = locked.toNat
  omega

theorem Waiter.holds_signal (w : Waiter) : w.signal.holds = w.holds := by cases w <;> rfl

theorem threadDo_counts (h : Counts p) (hfreed : p.phase ≠ .freed) {place : Place}
    {wake : Option ℕ} (hi : p.threads[i]? = some place) (he : place.Enabled p wake)
    (hdo : threadDo p i wake place = .ok q) : Counts q := by
  cases place with
  | created =>
    cases hdo
    exact h.move hi .loop (by simp [Place.isAlive]) rfl rfl (fun _ => rfl) rfl hfreed rfl id
  | loop =>
    cases hdo
    rcases hk : p.keepalive with _ | _
    · exact h.move hi .leaving rfl rfl rfl (fun hk' => by simp [hk] at hk') rfl hfreed rfl id
    · exact h.move hi .semaphore rfl rfl rfl (fun _ => rfl) rfl hfreed rfl id
  | semaphore =>
    cases hdo
    rcases hv : p.hasJobs with _ | _
    · exact h.move hi .asleep rfl rfl rfl (fun _ => rfl) rfl hfreed rfl id
    · exact h.move hi .woken rfl rfl rfl (fun _ => rfl) rfl hfreed rfl id
  | asleep => exact he.elim
  | woken =>
    cases hdo
    rcases hk : p.keepalive with _ | _
    · exact h.move hi .loop rfl rfl rfl (fun _ => rfl) rfl hfreed rfl id
    · exact h.move hi .counting rfl rfl rfl (fun _ => rfl) rfl hfreed rfl id
  | counting =>
    cases hdo
    exact h.move hi .pulling rfl (by simp [Place.isCounted]) rfl (fun _ => rfl) rfl hfreed rfl id
  | pulling =>
    obtain ⟨job, jobqueue, post, place, -, hplace, hwakes, rfl⟩ := pulling_cases hdo he
    have hmoved : Counts (p.move i place) := by
      cases job with
      | none =>
        subst hplace
        exact h.move hi .finishing rfl rfl rfl (fun _ => rfl) rfl hfreed rfl id
      | some a =>
        subst hplace
        exact h.move hi (.running a) rfl rfl rfl (fun _ => rfl) rfl hfreed rfl id
    have hne : place ≠ .asleep := by cases job <;> subst hplace <;> exact Place.noConfusion
    cases post with
    | false => exact hmoved.congr fun f _ => rfl
    | true =>
      have hw := (hwakes rfl).move hi Place.noConfusion hne
      exact hmoved.congr fun f hf => countP_wakeThread hw.asleep hf
  | running a =>
    rw [threadDo] at hdo
    split at hdo
    · cases hdo
    · cases hdo
      exact h.move hi .finishing rfl rfl rfl (fun _ => rfl) rfl hfreed rfl id
  | finishing =>
    cases hdo
    refine h.move hi .loop rfl ?_ rfl (fun _ => rfl) rfl hfreed ?_ fun hw => ?_
    · simp [Place.isCounted]
    · split_ifs
      · exact p.waiter.holds_signal
      · rfl
    · rw [hw]
      split_ifs <;> rfl
  | leaving =>
    cases hdo
    obtain ⟨hunlocked, -⟩ := he
    have hk : p.keepalive ≠ true := by
      intro hk
      have hzero := List.countP_eq_zero.mp (h.left hk) _ (List.mem_of_getElem? hi)
      exact hzero rfl
    refine h.move hi .unlocking ?_ rfl ?_ (fun hk' => absurd hk' hk) rfl hfreed rfl id
    · simp [Place.isAlive]
    · rw [hunlocked]
      rfl
  | unlocking =>
    cases hdo
    have hk : p.keepalive ≠ true := by
      intro hk
      have hzero := List.countP_eq_zero.mp (h.left hk) _ (List.mem_of_getElem? hi)
      exact hzero rfl
    refine h.move hi .done rfl rfl ?_ (fun hk' => absurd hk' hk) rfl hfreed rfl id
    -- it is this thread that has the lock
    have hpos : 0 < p.threads.countP Place.isUnlocking :=
      List.countP_pos_iff.mpr ⟨_, List.mem_of_getElem? hi, rfl⟩
    have hlocked := h.locked
    have hle := p.thcountLocked.toNat_le
    change false.toNat+true.toNat = p.thcountLocked.toNat+false.toNat
    rw [Bool.toNat_false, Bool.toNat_true]
    omega
  | done => exact he.elim

theorem countP_postAll {threads : List Place} {f : Place → Bool} (hf : f .asleep = f .semaphore) :
    (threads.map fun place => if place = .asleep then .semaphore else place).countP f =
      threads.countP f := by
  rw [List.countP_map]
  apply List.countP_congr
  intro place _
  rw [Function.comp_apply]
  split_ifs with ha
  · rw [ha, hf]
  · rfl

theorem step_counts (h : Counts p) (hs : Steps p e q) : Counts q := by
  cases e with
  | thread i wake =>
    obtain ⟨hfreed, place, hi, he, hdo⟩ := hs.thread
    exact threadDo_counts h hfreed hi he hdo
  | threadWakes i =>
    obtain ⟨hi, hrun⟩ := hs
    cases hrun
    have hasleep (k : ℕ) (hk : some i = some k) : p.threads[k]? = some .asleep :=
      Option.some.inj hk ▸ hi
    exact h.congr fun f hf => countP_wakeThread hasleep hf
  | initReturns =>
    obtain ⟨⟨hphase, hall⟩, hrun⟩ := hs
    cases hrun
    refine ⟨h.alive, h.working, h.locked, h.left, fun _ => ?_, ?_, (by simp), (by simp)⟩
    · -- every thread is alive, so that none is at its beginning
      have hcount := h.alive
      rw [hall, Nat.cast_inj, eq_comm, List.countP_eq_length] at hcount
      refine List.countP_eq_zero.mpr fun place hplace hc => ?_
      have hplace := hcount place hplace
      cases place <;> simp_all [Place.isAlive, Place.isCreated]
    · have hk := h.keepalive.mpr (Or.inl hphase)
      exact iff_of_true hk (Or.inr rfl)
  | addWork newjob job wake =>
    cases newjob with
    | none =>
      obtain ⟨-, hrun⟩ := hs
      cases hrun
      exact h
    | some a =>
      obtain ⟨⟨-, -, hw⟩, hrun⟩ := hs
      simp only [Event.run, thpoolAddWork] at hrun
      split at hrun
      · cases hrun
      · cases hrun
        exact h.congr fun f hf => countP_wakeThread hw.asleep hf
  | callWait =>
    obtain ⟨⟨husable, hout⟩, hrun⟩ := hs
    cases hrun
    have hlocked := h.locked
    rw [hout] at hlocked
    refine ⟨h.alive, h.working, hlocked, h.left, h.created, h.keepalive, fun hphase => ?_, h.freed⟩
    change p.phase = .starting at hphase
    rcases husable with hu | hu | hu <;> rw [hphase] at hu <;> cases hu
  | wait =>
    have hlocked := h.locked
    have hle := p.thcountLocked.toNat_le
    obtain ⟨-, ⟨hw, hfree, rfl⟩ | ⟨hw, -, rfl⟩ | ⟨hw, -, rfl⟩ | ⟨hw, -, rfl⟩ | ⟨hw, -, rfl⟩⟩ :=
      hs.wait <;> rw [hw] at hlocked
    · refine h.waiting (by rw [hw]; intro hne; cases hne) ?_
      rw [hw, hfree]
      rfl
    · exact h.waiting (by rw [hw]; intro hne; cases hne) (by rw [hw]; rfl)
    all_goals
      -- the lock was with the main thread, which gives it up
      refine h.waiting (by rw [hw]; intro hne; cases hne) ?_
      rw [hw]
      simp only [Waiter.holds, Bool.toNat_true, Bool.toNat_false] at hlocked ⊢
      omega
  | waitWakes =>
    obtain ⟨hw, hrun⟩ := hs
    cases hrun
    have hw : p.waiter = .asleep := hw
    have hlocked := h.locked
    rw [hw] at hlocked
    refine ⟨h.alive, h.working, hlocked, h.left, h.created, h.keepalive, fun hphase => ?_, h.freed⟩
    rw [h.starting hphase] at hw
    cases hw
  | callDestroy =>
    obtain ⟨hphase, hrun⟩ := hs
    cases hrun
    have hphase : p.phase = .serving := hphase
    exact ⟨h.alive, h.working, h.locked, (by simp), fun _ => h.created (by simp [hphase]),
      by simp, (by simp), (by simp)⟩
  | seesAlive =>
    obtain ⟨⟨hphase, -⟩, hrun⟩ := hs
    cases hrun
    exact h.destroying (by simp [hphase]) (by simp [hphase]) (by simp) (by simp)
  | postAll =>
    obtain ⟨hphase, hrun⟩ := hs
    cases hrun
    have hphase : p.phase = .posting := hphase
    have hposted : Counts { p with phase := .ending } :=
      h.destroying (by simp [hphase]) (by simp [hphase]) (by simp) (by simp)
    exact hposted.congr fun f hf => countP_postAll hf
  | free =>
    obtain ⟨⟨hphase, hzero⟩, hrun⟩ := hs
    simp only [Event.run, thpoolFree] at hrun
    split at hrun
    · cases hrun
    · cases hrun
      have hk : p.keepalive ≠ true := by
        rw [Ne, h.keepalive, hphase]
        simp
      refine ⟨h.alive, h.working, h.locked, h.left, fun _ => h.created (by simp [hphase]),
        iff_of_false hk (by simp), (by simp), fun _ => ?_⟩
      have halive := h.alive
      rw [hzero] at halive
      exact_mod_cast halive.symm

end Counts

end Stronk.Thpool
