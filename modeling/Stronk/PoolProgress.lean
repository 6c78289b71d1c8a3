import Stronk.PoolJobs

/-! No signal of a thread pool is lost: while a job is queued some thread comes for it, and the main
thread does not sleep when all threads are idle. A pool that gets no more jobs comes to rest with all
of them done, whatever the order of the steps of its threads. -/
namespace Stronk.Thpool
open SList Interleaving

section Signals
variable {J : Type} {p q : ThreadPool J} {i : ℕ} {a b : Place} {wake : Option ℕ} {e : Event J}

/-- Whoever sleeps has no reason to wake up, or will be woken. -/
structure Signals (p : ThreadPool J) : Prop where
  token : p.keepalive = true → p.jobqueue.len ≠ 0 →
    p.hasJobs = true ∨ 0 < p.threads.countP Place.hasToken
  heard : p.hasJobs = true → Place.asleep ∈ p.threads → Place.semaphore ∈ p.threads
  waiting : p.phase ≠ .freed → p.waiter = .asleep →
    p.jobqueue.len ≠ 0 ∨ 0 < p.threads.countP Place.isCounted

theorem jobqueuePush_len {J : Type} {jobs jobs' : Jobs J} {jobqueue jobqueue' : JobQueue} {a : ℕ}
    {job : J} (h : jobqueuePush jobs jobqueue a job = .ok (jobs', jobqueue')) :
    jobqueue'.len = jobqueue.len+1 := by
  rw [jobqueuePush] at h
  rcases hlen : jobqueue.len with _ | len <;> simp only [hlen] at h
  · cases h
    rfl
  · split at h
    · cases h
    · split at h
      · cases h
      · cases h
        rfl

theorem jobqueuePull_len {J : Type} {jobs : Jobs J} {jobqueue jobqueue' : JobQueue}
    {job : Option ℕ} {post : Bool} (h : jobqueuePull jobs jobqueue = .ok (job, jobqueue', post)) :
    jobqueue'.len = jobqueue.len-1 := by
  rw [jobqueuePull] at h
  rcases hlen : jobqueue.len with _ | _ | len <;> simp only [hlen] at h
  · cases h
    exact hlen
  · cases h
    rfl
  · split at h
    · cases h
    · split at h
      · cases h
      · cases h
        rfl

theorem asleep_of_move {threads : List Place} (h : Place.asleep ∈ threads.set i b)
    (hb : b ≠ .asleep) : Place.asleep ∈ threads :=
  (List.mem_or_eq_of_mem_set h).resolve_right hb.symm

theorem semaphore_of_move {threads : List Place} (hi : threads[i]? = some a) (ha : a ≠ .semaphore)
    (h : Place.semaphore ∈ threads) (b : Place) : Place.semaphore ∈ threads.set i b := by
  obtain ⟨others, hperm, hset⟩ := exists_others hi
  rw [(hset b).mem_iff]
  rw [hperm.mem_iff, List.mem_cons] at h
  exact List.mem_cons_of_mem _ (h.resolve_left ha.symm)

/-- A thread goes on to a place where it does not sleep, and leaves the semaphore, the queue and the
main thread as they are. -/
theorem Signals.move (h : Signals p) (hi : p.threads[i]? = some a) (b : Place)
    {alive working : ℤ} {locked : Bool} {jobs : Jobs J} (ha : a ≠ .semaphore) (hb : b ≠ .asleep)
    (htoken : p.keepalive = true → a.hasToken = true → b.hasToken = true)
    (hcounted : a.isCounted = true → b.isCounted = true) :
    Signals { p with
      threads := p.threads.set i b, numThreadsAlive := alive, numThreadsWorking := working
      thcountLocked := locked, jobs := jobs } := by
  have hmore (f : Place → Bool) (hf : f a = true → f b = true) (hpos : 0 < p.threads.countP f) :
      0 < (p.threads.set i b).countP f := by
    have hmove := countP_move hi b f
    have hle : (f a).toNat ≤ (f b).toNat := Bool.toNat_le_toNat hf
    omega
  refine ⟨fun hk hlen => ?_, fun hv hsleep => ?_, fun hp hw => ?_⟩
  · exact (h.token hk hlen).imp_right (hmore _ (htoken hk))
  · exact semaphore_of_move hi ha (h.heard hv (asleep_of_move hsleep hb)) b
  · exact (h.waiting hp hw).imp_right (hmore _ hcounted)

theorem heard_wakeThread {threads : List Place} (hw : p.Wakes wake) (ht : p.threads = threads)
    (h : Place.asleep ∈ wakeThread threads wake) : Place.semaphore ∈ wakeThread threads wake := by
  subst ht
  cases wake with
  | none => exact absurd rfl (hw _ h)
  | some k =>
    have hk : p.threads[k]? = some .asleep := hw
    have hlt := (List.getElem?_eq_some_iff.mp hk).1
    exact List.mem_of_getElem? (List.getElem?_set_self hlt)

theorem pulling_signals (hi : p.threads[i]? = some .pulling) (h : Signals p)
    (he : Place.pulling.Enabled p wake) (hdo : threadDo p i wake .pulling = .ok q) : Signals q := by
  obtain ⟨job, jobqueue, post, place, hpull, hplace, hwakes, rfl⟩ := pulling_cases hdo he
  have hpost := jobqueuePull_post hpull
  have hlen := jobqueuePull_len hpull
  have hcounted : place.isCounted = true := by cases job <;> subst hplace <;> rfl
  have hne : place ≠ .asleep := by cases job <;> subst hplace <;> exact Place.noConfusion
  refine ⟨fun _ hleft => Or.inl ?_, ?_, fun _ _ => Or.inr ?_⟩
  · -- a job is left, so that the semaphore is posted
    change jobqueue.len ≠ 0 at hleft
    have hmore : 1 < p.jobqueue.len := by omega
    change (post || p.hasJobs) = true
    rw [hpost, decide_eq_true hmore]
    rfl
  · cases post with
    | false =>
      intro hv hsleep
      exact semaphore_of_move hi Place.noConfusion (h.heard hv (asleep_of_move hsleep hne)) place
    | true =>
      intro _ hsleep
      exact heard_wakeThread ((hwakes rfl).move hi Place.noConfusion hne) rfl hsleep
  · have hpos : 0 < (p.threads.set i place).countP Place.isCounted := by
      have hmove := countP_move hi place Place.isCounted
      rw [hcounted] at hmove
      change _+1 = _+1 at hmove
      have hin : 0 < p.threads.countP Place.isCounted :=
        List.countP_pos_iff.mpr ⟨_, List.mem_of_getElem? hi, rfl⟩
      omega
    cases post with
    | false => exact hpos
    | true =>
      have hw := (hwakes rfl).move hi Place.noConfusion hne
      have hsame : (wakeThread (p.threads.set i place) wake).countP Place.isCounted =
          (p.threads.set i place).countP Place.isCounted := countP_wakeThread hw.asleep rfl
      exact hsame.symm ▸ hpos

theorem threadDo_signals (hc' : Counts q) (h : Signals p)
    (hi : p.threads[i]? = some a) (he : a.Enabled p wake) (hdo : threadDo p i wake a = .ok q) :
    Signals q := by
  cases a with
  | created =>
    cases hdo
    exact h.move hi .loop (by simp) (by simp) (fun _ ht => by cases ht)
      fun hc => by cases hc
  | loop =>
    cases hdo
    cases p.keepalive with
    | false =>
      exact h.move hi .leaving (by simp) (by simp) (fun _ ht => by cases ht)
        fun hc => by cases hc
    | true =>
      exact h.move hi .semaphore (by simp) (by simp) (fun _ ht => by cases ht)
        fun hc => by cases hc
  | semaphore =>
    cases hdo
    have hcount (b : Place) (hb : b.isCounted = false) :
        (p.threads.set i b).countP Place.isCounted = p.threads.countP Place.isCounted := by
      have hmove := countP_move hi b Place.isCounted
      rw [hb] at hmove
      exact Nat.add_right_cancel hmove
    rcases hv : p.hasJobs with _ | _
    · -- the thread goes to sleep, and the semaphore is not set
      refine ⟨fun hk hlen => Or.inr ?_, fun hv' => ?_, fun hp hw => ?_⟩
      · have htoken := (h.token hk hlen).resolve_left (by rw [hv]; exact Bool.false_ne_true)
        have hmove := countP_move hi .asleep Place.hasToken
        change 0 < (p.threads.set i .asleep).countP Place.hasToken
        change _+0 = _+0 at hmove
        omega
      · change p.hasJobs = true at hv'
        rw [hv] at hv'
        cases hv'
      · exact (h.waiting hp hw).imp_right fun hpos => (hcount .asleep rfl).symm ▸ hpos
    · refine ⟨fun _ _ => Or.inr ?_, (by simp), fun hp hw => ?_⟩
      · have hmove := countP_move hi .woken Place.hasToken
        change 0 < (p.threads.set i .woken).countP Place.hasToken
        change _+0 = _+1 at hmove
        omega
      · exact (h.waiting hp hw).imp_right fun hpos => (hcount .woken rfl).symm ▸ hpos
  | asleep => exact he.elim
  | woken =>
    cases hdo
    rcases hk : p.keepalive with _ | _
    · exact h.move hi .loop (by simp) (by simp) (fun hk' => by simp [hk] at hk')
        fun hc => by cases hc
    · exact h.move hi .counting (by simp) (by simp) (fun _ _ => rfl) fun hc => by cases hc
  | counting =>
    cases hdo
    exact h.move hi .pulling (by simp) (by simp) (fun _ _ => rfl) fun _ => rfl
  | pulling => exact pulling_signals hi h he hdo
  | running job =>
    rw [threadDo] at hdo
    split at hdo
    · cases hdo
    · cases hdo
      exact h.move hi .finishing (fun ha => by cases ha) (fun hb => by cases hb)
        (fun _ ht => by cases ht) fun _ => rfl
  | finishing =>
    cases hdo
    refine ⟨fun hk hlen => ?_, fun hv hsleep => ?_, fun _ hw => Or.inr ?_⟩
    · refine (h.token hk hlen).imp_right fun hpos => ?_
      have hmove := countP_move hi .loop Place.hasToken
      change 0 < (p.threads.set i .loop).countP Place.hasToken
      change _+0 = _+0 at hmove
      omega
    · exact semaphore_of_move hi (by simp) (h.heard hv (asleep_of_move hsleep (by simp))) .loop
    · -- the main thread was not signalled, so that another thread is working
      have hworking := hc'.working
      change (if p.numThreadsWorking-1 = 0 then p.waiter.signal else p.waiter) = .asleep at hw
      change p.numThreadsWorking-1 = _ at hworking
      split_ifs at hw with hzero
      · cases hwaiter : p.waiter <;> rw [hwaiter] at hw <;> cases hw
      · omega
  | leaving =>
    cases hdo
    exact h.move hi .unlocking (by simp) (by simp) (fun _ ht => by cases ht)
      fun hc => by cases hc
  | unlocking =>
    cases hdo
    exact h.move hi .done (by simp) (by simp) (fun _ ht => by cases ht)
      fun hc => by cases hc
  | done => exact he.elim

theorem step_signals (hc : Counts p) (h : Signals p) (hs : Steps p e q) : Signals q := by
  have hc' := step_counts hc hs
  cases e with
  | thread i wake =>
    obtain ⟨-, place, hi, he, hdo⟩ := hs.thread
    exact threadDo_signals hc' h hi he hdo
  | threadWakes i =>
    obtain ⟨hi, hrun⟩ := hs
    cases hrun
    have hi : p.threads[i]? = some .asleep := hi
    have hsame (f : Place → Bool) (hf : f .asleep = f .semaphore) :
        (p.threads.set i .semaphore).countP f = p.threads.countP f := by
      have hmove := countP_move hi .semaphore f
      rw [hf] at hmove
      exact Nat.add_right_cancel hmove
    refine ⟨fun hk hlen => ?_, fun _ _ => ?_, fun hp hw => ?_⟩
    · exact (h.token hk hlen).imp_right fun hpos => (hsame Place.hasToken rfl).symm ▸ hpos
    · exact List.mem_of_getElem? (List.getElem?_set_self (List.getElem?_eq_some_iff.mp hi).1)
    · exact (h.waiting hp hw).imp_right fun hpos => (hsame Place.isCounted rfl).symm ▸ hpos
  | addWork newjob job wake =>
    cases newjob with
    | none =>
      obtain ⟨-, hrun⟩ := hs
      cases hrun
      exact h
    | some a =>
      obtain ⟨⟨-, -, hw⟩, hrun⟩ := hs
      simp only [Event.run, thpoolAddWork] at hrun
      split at hrun
      · cases hrun
      · rename_i jobs jobqueue hpush
        cases hrun
        have hlen := jobqueuePush_len hpush
        refine ⟨fun _ _ => Or.inl rfl, fun _ hsleep => heard_wakeThread hw rfl hsleep,
          fun _ _ => Or.inl ?_⟩
        change jobqueue.len ≠ 0
        omega
  | wait =>
    obtain ⟨-, ⟨-, -, rfl⟩ | ⟨-, -, rfl⟩ | ⟨-, hlen, rfl⟩ | ⟨-, -, rfl⟩ | ⟨-, hworking, rfl⟩⟩ := hs.wait
    · exact ⟨h.token, h.heard, fun _ hw => by cases hw⟩
    · exact ⟨h.token, h.heard, fun _ hw => by cases hw⟩
    · exact ⟨h.token, h.heard, fun _ _ => Or.inl hlen⟩
    · exact ⟨h.token, h.heard, fun _ hw => by cases hw⟩
    · refine ⟨h.token, h.heard, fun _ _ => Or.inr ?_⟩
      have hcount := hc.working
      change 0 < p.threads.countP Place.isCounted
      omega
  | seesAlive =>
    obtain ⟨⟨hphase, -⟩, hrun⟩ := hs
    cases hrun
    exact ⟨h.token, h.heard, fun _ => h.waiting (by simp [hphase])⟩
  | postAll =>
    obtain ⟨hphase, hrun⟩ := hs
    cases hrun
    have hphase : p.phase = .posting := hphase
    refine ⟨fun _ _ => Or.inl rfl, fun _ hsleep => ?_, fun _ hw => ?_⟩
    · obtain ⟨place, -, hplace⟩ := List.mem_map.mp hsleep
      split_ifs at hplace with ha
      exact absurd hplace ha
    · have hsame : (bsemPostAll p).threads.countP Place.isCounted =
          p.threads.countP Place.isCounted := countP_postAll rfl
      exact (h.waiting (by simp [hphase]) hw).imp_right fun hpos => hsame.symm ▸ hpos
  | free =>
    obtain ⟨⟨hphase, -⟩, hrun⟩ := hs
    simp only [Event.run, thpoolFree] at hrun
    split at hrun
    · cases hrun
    · cases hrun
      have hk : p.keepalive ≠ true := by
        rw [Ne, hc.keepalive, hphase]
        simp
      exact ⟨fun hk' => absurd hk' hk, (by simp), fun hp => absurd rfl hp⟩
  | callDestroy =>
    obtain ⟨hphase, hrun⟩ := hs
    cases hrun
    have hphase : p.phase = .serving := hphase
    exact ⟨(by simp), h.heard, fun _ => h.waiting (by simp [hphase])⟩
  | callWait | waitWakes =>
    obtain ⟨-, hrun⟩ := hs
    cases hrun
    exact ⟨h.token, h.heard, fun _ hw => by cases hw⟩
  | initReturns =>
    obtain ⟨⟨hphase, -⟩, hrun⟩ := hs
    cases hrun
    exact ⟨h.token, h.heard, fun _ => h.waiting (by simp [hphase])⟩

theorem init_signals (J : Type) (numThreads : ℤ) : Signals (thpoolInit J numThreads) :=
  ⟨fun _ hlen => absurd rfl hlen, fun hv => (by cases hv), fun _ hw => by cases hw⟩

end Signals

section Rank
variable {J : Type} {p q : ThreadPool J} {i : ℕ} {place : Place} {wake : Option ℕ} {e : Event J}

/-- A bound for the steps that a thread takes before it sleeps. -/
def Place.rank : Place → ℕ
  | .done => 0
  | .asleep => 0
  | .unlocking => 1
  | .semaphore => 1
  | .leaving => 2
  | .loop => 3
  | .created => 4
  | .finishing => 7
  | .running _ => 8
  | .pulling => 9
  | .counting => 10
  | .woken => 11

def Waiter.rank : Waiter → ℕ
  | .outside => 0
  | .asleep => 0
  | .readingWorking => 1
  | .readingLen => 2
  | .locking => 3

/-- A bound for the steps that the threads and the main thread take on their own. -/
def ThreadPool.rank (p : ThreadPool J) : ℕ :=
  (p.threads.map Place.rank).sum+p.waiter.rank+11*p.hasJobs.toNat+12*p.jobqueue.len

/-- The steps of the threads, and those of the main thread in `thpool_wait`. -/
def Event.IsOwn : Event J → Prop
  | .thread _ _ => True
  | .wait => True
  | _ => False

theorem rank_wakeThread {threads : List Place} (hw : ∀ k, wake = some k → threads[k]? = some .asleep) :
    ((wakeThread threads wake).map Place.rank).sum ≤ (threads.map Place.rank).sum+1 := by
  cases wake with
  | none => exact Nat.le_succ _
  | some k =>
    have hsum := sum_move (hw k rfl) .semaphore Place.rank
    exact hsum.le

theorem Waiter.rank_signal (w : Waiter) : w.signal.rank ≤ w.rank+3 := by
  cases w <;> simp [Waiter.signal, Waiter.rank]

theorem pulling_rank (hi : p.threads[i]? = some .pulling) (he : Place.pulling.Enabled p wake)
    (hdo : threadDo p i wake .pulling = .ok q) : q.rank < p.rank := by
  obtain ⟨job, jobqueue, post, place, hpull, hplace, hwakes, rfl⟩ := pulling_cases hdo he
  have hpost := jobqueuePull_post hpull
  have hlen := jobqueuePull_len hpull
  have hrank : place.rank ≤ 8 := by cases job <;> subst hplace <;> simp [Place.rank]
  have hne : place ≠ .asleep := by cases job <;> subst hplace <;> exact Place.noConfusion
  have hsum := sum_move hi place Place.rank
  change _+9 = _ at hsum
  simp only [ThreadPool.rank]
  cases post with
  | false =>
    change ((p.threads.set i place).map Place.rank).sum+p.waiter.rank+11*p.hasJobs.toNat+
      12*jobqueue.len < _
    omega
  | true =>
    -- what the post costs is paid by the job that was pulled
    have hmore : 1 < p.jobqueue.len := of_decide_eq_true hpost.symm
    have hw := rank_wakeThread ((hwakes rfl).move hi Place.noConfusion hne).asleep
    change ((wakeThread (p.threads.set i place) wake).map Place.rank).sum+p.waiter.rank+11*1+
      12*jobqueue.len < _
    change ((wakeThread (p.threads.set i place) wake).map Place.rank).sum ≤ _ at hw
    change _ ≤ ((p.threads.set i place).map Place.rank).sum+1 at hw
    omega

/-- A thread that goes to a place of lower rank, and changes nothing that counts for the rank. -/
theorem rank_move (hi : p.threads[i]? = some place) {b : Place} (hrank : b.rank < place.rank)
    (hthreads : q.threads = p.threads.set i b) (hwaiter : q.waiter = p.waiter)
    (hv : q.hasJobs = p.hasJobs) (hqueue : q.jobqueue = p.jobqueue) : q.rank < p.rank := by
  have hsum := sum_move hi b Place.rank
  rw [ThreadPool.rank, ThreadPool.rank, hthreads, hwaiter, hv, hqueue]
  omega

theorem threadDo_rank (hi : p.threads[i]? = some place) (he : place.Enabled p wake)
    (hdo : threadDo p i wake place = .ok q) : q.rank < p.rank := by
  cases place with
  | created =>
    cases hdo
    exact rank_move hi (b := .loop) (by decide) rfl rfl rfl rfl
  | loop =>
    cases hdo
    cases p.keepalive with
    | false => exact rank_move hi (b := .leaving) (by decide) rfl rfl rfl rfl
    | true => exact rank_move hi (b := .semaphore) (by decide) rfl rfl rfl rfl
  | semaphore =>
    cases hdo
    rcases hv : p.hasJobs with _ | _
    · exact rank_move hi (b := .asleep) (by decide) rfl rfl rfl rfl
    · have hsum := sum_move hi .woken Place.rank
      change _+1 = _+11 at hsum
      rw [ThreadPool.rank, ThreadPool.rank, hv]
      change ((p.threads.set i .woken).map Place.rank).sum+p.waiter.rank+11*0+
        12*p.jobqueue.len < _+_+11*1+_
      omega
  | asleep => exact he.elim
  | woken =>
    cases hdo
    cases p.keepalive with
    | false => exact rank_move hi (b := .loop) (by decide) rfl rfl rfl rfl
    | true => exact rank_move hi (b := .counting) (by decide) rfl rfl rfl rfl
  | counting =>
    cases hdo
    exact rank_move hi (b := .pulling) (by decide) rfl rfl rfl rfl
  | pulling => exact pulling_rank hi he hdo
  | running a =>
    rw [threadDo] at hdo
    split at hdo
    · cases hdo
    · cases hdo
      exact rank_move hi (b := .finishing) (by simp [Place.rank]) rfl rfl rfl rfl
  | finishing =>
    cases hdo
    have hsum := sum_move hi .loop Place.rank
    have hsignal := p.waiter.rank_signal
    have hwaiter : (if p.numThreadsWorking-1 = 0 then p.waiter.signal else p.waiter).rank ≤
        p.waiter.rank+3 := by
      split_ifs
      · exact hsignal
      · omega
    change _+7 = _+3 at hsum
    change ((p.threads.set i .loop).map Place.rank).sum+
      (if p.numThreadsWorking-1 = 0 then p.waiter.signal else p.waiter).rank+
        11*p.hasJobs.toNat+12*p.jobqueue.len < p.rank
    rw [ThreadPool.rank]
    omega
  | leaving =>
    cases hdo
    exact rank_move hi (b := .unlocking) (by decide) rfl rfl rfl rfl
  | unlocking =>
    cases hdo
    exact rank_move hi (b := .done) (by decide) rfl rfl rfl rfl
  | done => exact he.elim

/-- Every step that the threads and the main thread take on their own brings the pool nearer to rest. -/
theorem Steps.rank_lt (hs : Steps p e q) (he : e.IsOwn) : q.rank < p.rank := by
  cases e with
  | thread i wake =>
    obtain ⟨-, place, hi, henabled, hdo⟩ := hs.thread
    exact threadDo_rank hi henabled hdo
  | wait =>
    have hlower {waiter : Waiter} {locked : Bool} (hlt : waiter.rank < p.waiter.rank) :
        ThreadPool.rank { p with waiter, thcountLocked := locked } < p.rank := by
      rw [ThreadPool.rank, ThreadPool.rank]
      change (p.threads.map Place.rank).sum+waiter.rank+11*p.hasJobs.toNat+12*p.jobqueue.len < _
      omega
    obtain ⟨-, ⟨hw, -, rfl⟩ | ⟨hw, -, rfl⟩ | ⟨hw, -, rfl⟩ | ⟨hw, -, rfl⟩ | ⟨hw, -, rfl⟩⟩ := hs.wait <;>
      exact hlower (by rw [hw]; decide)
  | _ => exact he.elim

end Rank

section Rest
variable {J : Type} {p q : ThreadPool J} {e : Event J} {trace : Trace J}

theorem threadDo_kept {i : ℕ} {place : Place} {wake : Option ℕ} (h : threadDo p i wake place = .ok q) :
    q.phase = p.phase ∧ q.threads.length = p.threads.length := by
  have hwake (threads : List Place) : (wakeThread threads wake).length = threads.length := by
    cases wake with
    | none => rfl
    | some k => exact List.length_set
  cases place with
  | created | counting | leaving | unlocking | loop | woken | finishing =>
    cases h
    exact ⟨rfl, List.length_set⟩
  | asleep | done =>
    cases h
    exact ⟨rfl, rfl⟩
  | semaphore =>
    cases h
    split_ifs
    · exact ⟨rfl, List.length_set⟩
    · exact ⟨rfl, List.length_set⟩
  | pulling =>
    rw [threadDo] at h
    split at h
    · cases h
    · cases h
      split_ifs
      · exact ⟨rfl, (hwake _).trans List.length_set⟩
      · exact ⟨rfl, List.length_set⟩
  | running a =>
    rw [threadDo] at h
    split at h
    · cases h
    · cases h
      exact ⟨rfl, List.length_set⟩

theorem Steps.length_threads (hs : Steps p e q) : q.threads.length = p.threads.length := by
  cases e with
  | thread i wake =>
    obtain ⟨-, place, -, -, hdo⟩ := hs.thread
    exact (threadDo_kept hdo).2
  | addWork newjob job wake =>
    obtain ⟨-, hrun⟩ := hs
    cases newjob with
    | none =>
      cases hrun
      rfl
    | some a =>
      simp only [Event.run, thpoolAddWork] at hrun
      split at hrun
      · cases hrun
      · cases hrun
        cases wake with
        | none => rfl
        | some k => exact List.length_set
  | wait =>
    obtain ⟨-, ⟨-, -, rfl⟩ | ⟨-, -, rfl⟩ | ⟨-, -, rfl⟩ | ⟨-, -, rfl⟩ | ⟨-, -, rfl⟩⟩ := hs.wait <;> rfl
  | free =>
    obtain ⟨-, hrun⟩ := hs
    simp only [Event.run, thpoolFree] at hrun
    split at hrun
    · cases hrun
    · cases hrun
      rfl
  | threadWakes i =>
    obtain ⟨-, hrun⟩ := hs
    cases hrun
    exact List.length_set
  | postAll =>
    obtain ⟨-, hrun⟩ := hs
    cases hrun
    exact List.length_map _
  | initReturns | callWait | waitWakes | callDestroy | seesAlive =>
    obtain ⟨-, hrun⟩ := hs
    cases hrun
    rfl

theorem Steps.phase_own (hs : Steps p e q) (he : e.IsOwn) : q.phase = p.phase := by
  cases e with
  | thread i wake =>
    obtain ⟨-, place, -, -, hdo⟩ := hs.thread
    exact (threadDo_kept hdo).1
  | wait =>
    obtain ⟨-, ⟨-, -, rfl⟩ | ⟨-, -, rfl⟩ | ⟨-, -, rfl⟩ | ⟨-, -, rfl⟩ | ⟨-, -, rfl⟩⟩ := hs.wait <;> rfl
  | _ => exact he.elim

theorem Steps.addWork_kept {newjob : Option ℕ} {job : J} {wake : Option ℕ}
    (hs : Steps p (.addWork newjob job wake) q) : q.phase = p.phase ∧ q.waiter = p.waiter := by
  obtain ⟨-, hrun⟩ := hs
  cases newjob with
  | none =>
    cases hrun
    exact ⟨rfl, rfl⟩
  | some a =>
    simp only [Event.run, thpoolAddWork] at hrun
    split at hrun
    · cases hrun
    · cases hrun
      exact ⟨rfl, rfl⟩

theorem exists_wakes (p : ThreadPool J) : ∃ wake, p.Wakes wake := by
  by_cases h : Place.asleep ∈ p.threads
  · obtain ⟨k, hk⟩ := List.mem_iff_getElem?.mp h
    exact ⟨some k, hk⟩
  · exact ⟨none, fun place hplace ha => h (ha ▸ hplace)⟩

/-- When nobody can go on, every thread sleeps or has ended, and the lock of the counters is free. -/
theorem places_of_stuck (h : Sound trace p) (hp : p.phase.Usable)
    (hstuck : ∀ e q, e.IsOwn → ¬ Steps p e q) : p.thcountLocked = false ∧ p.waiter.holds = false ∧
      ∀ place ∈ p.threads, place = .asleep ∨ place = .done := by
  have hno (e : Event J) (he : e.IsOwn) : ¬ e.Enabled p := by
    intro henabled
    obtain ⟨q, hq⟩ := h.defined henabled hp.ne_freed
    exact hstuck e q he hq
  have hnot {place : Place} (hplace : place ∈ p.threads) (wake : Option ℕ) :
      ¬ place.Enabled p wake := by
    obtain ⟨i, hi⟩ := List.mem_iff_getElem?.mp hplace
    exact fun he => hno (.thread i wake) trivial ⟨place, hi, he⟩
  obtain ⟨hcounts, -⟩ := h
  have hholds : p.waiter.holds = false := by
    cases hw : p.waiter with
    | readingLen => exact (hno .wait trivial (show p.waiter.Enabled _ by rw [hw]; trivial)).elim
    | readingWorking => exact (hno .wait trivial (show p.waiter.Enabled _ by rw [hw]; trivial)).elim
    | outside | locking | asleep => rfl
  have hunlocked : p.thcountLocked = false := by
    have hlocked := hcounts.locked
    have hzero : p.threads.countP Place.isUnlocking = 0 := by
      refine List.countP_eq_zero.mpr fun place hplace hu => ?_
      cases place with
      | unlocking => exact hnot hplace none rfl
      | _ => cases hu
    rw [hzero, hholds] at hlocked
    cases hb : p.thcountLocked
    · rfl
    · rw [hb] at hlocked
      cases hlocked
  refine ⟨hunlocked, hholds, fun place hplace => ?_⟩
  have hnone := hnot hplace none
  cases place with
  | asleep => exact Or.inl rfl
  | done => exact Or.inr rfl
  | created | counting | finishing | leaving => exact absurd ⟨hunlocked, rfl⟩ hnone
  | loop | semaphore | woken | running a | unlocking => exact absurd rfl hnone
  | pulling =>
    exfalso
    obtain ⟨wake, hwake⟩ := exists_wakes p
    by_cases hlen : 1 < p.jobqueue.len
    · exact hnot hplace wake ((if_pos hlen).mpr hwake)
    · exact hnone ((if_neg hlen).mpr rfl)

/-- When nobody can go on before the pool is destroyed, all threads sleep and all jobs are done. -/
theorem rest_of_stuck (h : Sound trace p) (hsignals : Signals p) (hp : p.phase = .serving)
    (hthreads : p.threads ≠ []) (hstuck : ∀ e q, e.IsOwn → ¬ Steps p e q) :
    p.jobqueue.len = 0 ∧ p.waiter = .outside ∧ ∀ place ∈ p.threads, place = .asleep := by
  have hfreed : p.phase ≠ .freed := by
    rw [hp]
    exact Phase.noConfusion
  obtain ⟨hunlocked, hholds, hplaces⟩ := places_of_stuck h (Or.inl hp) hstuck
  have hlocking : p.waiter ≠ .locking := by
    intro hw
    have he : Event.wait.Enabled p := by
      change p.waiter.Enabled p.thcountLocked
      rw [hw]
      exact hunlocked
    obtain ⟨q, hq⟩ := h.defined he hfreed
    exact hstuck .wait q trivial hq
  obtain ⟨hcounts, -⟩ := h
  have hkeep : p.keepalive = true := hcounts.keepalive.mpr (Or.inr hp)
  have hasleep : ∀ place ∈ p.threads, place = .asleep := by
    intro place hplace
    refine (hplaces place hplace).resolve_right fun hdone => ?_
    exact List.countP_eq_zero.mp (hcounts.left hkeep) place hplace (by rw [hdone]; rfl)
  have hcount (f : Place → Bool) (hf : f .asleep = false) : p.threads.countP f = 0 := by
    refine List.countP_eq_zero.mpr fun place hplace => ?_
    rw [hasleep place hplace, hf]
    exact Bool.false_ne_true
  have hempty : p.jobqueue.len = 0 := by
    by_contra hlen
    rcases hsignals.token hkeep hlen with hv | htoken
    · obtain ⟨place, hplace⟩ := List.exists_mem_of_ne_nil _ hthreads
      have hsemaphore := hsignals.heard hv (hasleep place hplace ▸ hplace)
      cases hasleep _ hsemaphore
    · rw [hcount Place.hasToken rfl] at htoken
      exact absurd htoken (Nat.lt_irrefl 0)
  refine ⟨hempty, ?_, hasleep⟩
  cases hw : p.waiter with
  | outside => rfl
  | locking => exact absurd hw hlocking
  | readingLen =>
    rw [hw] at hholds
    cases hholds
  | readingWorking =>
    rw [hw] at hholds
    cases hholds
  | asleep =>
    exfalso
    rcases hsignals.waiting hfreed hw with hlen | hworking
    · exact hlen hempty
    · rw [hcount Place.isCounted rfl] at hworking
      exact absurd hworking (Nat.lt_irrefl 0)

/-- The threads and the main thread on their own. -/
def OwnSteps (p : ThreadPool J) (e : Event J) (q : ThreadPool J) : Prop := e.IsOwn ∧ Steps p e q

theorem own_length_le {after : Trace J} (hrun : Run OwnSteps p after q) : after.length ≤ p.rank := by
  have hlength := hrun.length_le (fun _ => True) ThreadPool.rank trivial
    fun a e b _ hs => ⟨trivial, hs.2.rank_lt hs.1⟩
  omega

theorem length_threads {numThreads : ℤ} (h : Run Steps (thpoolInit J numThreads) trace p) :
    p.threads.length = numThreads.toNat :=
  h.invariant (P := fun _ r => r.threads.length = numThreads.toNat) List.length_replicate
    fun _ _ _ _ hr hs => hs.length_threads.trans hr

/-- If no more jobs are added to a pool, it comes to rest after a bounded number of steps, whoever
takes them. All jobs that were ever added have ended then, and `thpool_wait` has returned. -/
theorem pool_comes_to_rest (numThreads : ℤ) (hpos : 0 < numThreads) (trace after : Trace J)
    (p q : ThreadPool J) (h : Run Steps (thpoolInit J numThreads) trace p) (hp : p.phase = .serving)
    (hrun : Run OwnSteps p after q) :
    after.length ≤ p.rank ∧ ((∀ e r, ¬ OwnSteps q e r) →
      (finishes (trace ++ after)).Perm (adds (trace ++ after)) ∧ q.running = [] ∧
        q.waiter = .outside) := by
  refine ⟨own_length_le hrun, fun hstuck => ?_⟩
  have hall : Run Steps (thpoolInit J numThreads) (trace ++ after) q :=
    h.append (hrun.mono fun _ _ _ hs => hs.2)
  have hphase : q.phase = .serving :=
    hrun.invariant (P := fun _ r => r.phase = .serving) hp fun _ _ _ _ hr hs =>
      (hs.2.phase_own hs.1).trans hr
  have hthreads := length_threads hall
  have hsignals : Counts q ∧ Signals q :=
    hall.invariant (P := fun _ r => Counts r ∧ Signals r)
      ⟨init_counts J numThreads, init_signals J numThreads⟩
      fun _ _ _ _ hr hs => ⟨step_counts hr.1 hs, step_signals hr.1 hr.2 hs⟩
  have hsound := run_sound hall
  obtain ⟨hempty, hout, hasleep⟩ := rest_of_stuck hsound hsignals.2 hphase
    (by intro hnil; rw [hnil] at hthreads; simp at hthreads; omega)
    fun e r he hs => hstuck e r ⟨he, hs⟩
  obtain ⟨-, l, hnodes, hhistory⟩ := hsound
  have hl : l = [] := by
    rw [hnodes.queue.len] at hempty
    exact List.length_eq_zero_iff.mp hempty
  have hrunning : q.running = [] := by
    have hnone : q.nodes = [] := by
      rw [ThreadPool.nodes, List.filterMap_eq_nil_iff]
      intro place hplace
      rw [hasleep place hplace]
      rfl
    rw [ThreadPool.running, hnone]
    rfl
  have hadded := hhistory.queued (by rw [hphase]; exact Phase.noConfusion)
  have hended := hhistory.ended
  rw [hl, List.map_nil, List.append_nil] at hadded
  rw [hrunning, List.append_nil] at hended
  refine ⟨?_, hrunning, hout⟩
  rw [hadded]
  exact hended.symm

/-- Nobody can go on when the threads sleep or have ended and the main thread does not wait. -/
theorem ThreadPool.stuck_of_places (p : ThreadPool J) (hw : p.waiter = .outside)
    (hplaces : ∀ place ∈ p.threads, place = .asleep ∨ place = .done) (e : Event J)
    (q : ThreadPool J) : ¬ OwnSteps p e q := by
  rintro ⟨hown, henabled, -⟩
  cases e with
  | thread i wake =>
    obtain ⟨place, hi, he⟩ := henabled
    rcases hplaces place (List.mem_of_getElem? hi) with rfl | rfl <;> exact he
  | wait =>
    change p.waiter.Enabled p.thcountLocked at henabled
    rw [hw] at henabled
    exact henabled
  | _ => exact hown

instance (e : Event J) : Decidable e.IsOwn := by
  cases e <;> unfold Event.IsOwn <;> infer_instance

theorem own_run_after (p : ThreadPool J) (events : List (Event J)) (hown : ∀ e ∈ events, e.IsOwn)
    (h : (exec p events).isSome = true) : Run OwnSteps p (after p events).1 (after p events).2 :=
  exec_run_of hown (exec_after h)

/-- The only thread runs the job, and goes to sleep. -/
def runJob : List (Event ℕ) :=
  [.thread 0 none, .thread 0 none, .thread 0 none, .thread 0 none, .thread 0 none, .thread 0 none,
    .thread 0 none, .thread 0 none, .thread 0 none]

theorem one_job_comes_to_rest : ∃ (p q : ThreadPool ℕ) (trace after : Trace ℕ),
    Run OwnSteps p after q ∧ after.length ≤ p.rank ∧ (∀ e r, ¬ OwnSteps q e r) ∧
      adds (trace ++ after) = [7] ∧ (finishes (trace ++ after)).Perm [7] ∧ q.running = [] := by
  set p := (Thpool.after (thpoolInit ℕ 1) oneJob).2 with hp
  have hbefore := run_after (thpoolInit ℕ 1) oneJob (by decide +kernel)
  have hrun := own_run_after p runJob (by decide) (by decide +kernel)
  have hstuck := (Thpool.after p runJob).2.stuck_of_places (by decide +kernel) (by decide +kernel)
  have hadds : adds ((Thpool.after (thpoolInit ℕ 1) oneJob).1 ++ (Thpool.after p runJob).1) = [7] := by
    decide +kernel
  obtain ⟨hlength, hrest⟩ :=
    pool_comes_to_rest 1 (by decide) _ _ p _ hbefore (by decide +kernel) hrun
  obtain ⟨hfinishes, hrunning, -⟩ := hrest hstuck
  exact ⟨p, _, _, _, hrun, hlength, hstuck, hadds, hadds ▸ hfinishes, hrunning⟩

end Rest

end Stronk.Thpool
