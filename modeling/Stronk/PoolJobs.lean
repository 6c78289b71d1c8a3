import Stronk.PoolSafety

/-! The jobs of a thread pool: they are started in the order in which they are added, each of them
once, and `thpool_wait` returns when all that were added before have ended. -/
namespace Stronk.Thpool
open SList Interleaving

section Effect
variable {J : Type} {p q : ThreadPool J} {l l' : List (ℕ × J)} {e : Event J}

/-- The queue is made of the jobs `l`, and what is allocated are these and the jobs that run. -/
structure Nodes (p : ThreadPool J) (l : List (ℕ × J)) : Prop where
  queue : Queues p.jobs p.jobqueue l
  nodup : (l.map Prod.fst ++ p.nodes).Nodup
  allocated : ∀ a, a ∈ p.jobs ↔ a ∈ l.map Prod.fst ∨ a ∈ p.nodes

/-- What can be seen of an event: the job that it adds, starts or ends. -/
structure Observed (p : ThreadPool J) (e : Event J) (q : ThreadPool J)
    (adds starts finishes : Option J) : Prop where
  added : added? (p, e) = adds
  started : started? (p, e) = starts
  finished : finished? (p, e) = finishes
  running : (finishes.toList ++ q.running).Perm (starts.toList ++ p.running)

/-- What an event does to the jobs in the queue. -/
inductive Effect (p : ThreadPool J) (e : Event J) (q : ThreadPool J) :
    List (ℕ × J) → List (ℕ × J) → Prop
  | silent (l : List (ℕ × J)) : Observed p e q none none none → Effect p e q l l
  | adds (l : List (ℕ × J)) (a : ℕ) (job : J) : p.phase ≠ .freed →
      Observed p e q (some job) none none → Effect p e q l (l ++ [(a, job)])
  | starts (l : List (ℕ × J)) (a : ℕ) (job : J) : Observed p e q none (some job) none →
      Effect p e q ((a, job) :: l) l
  | finishes (l : List (ℕ × J)) (job : J) : Observed p e q none none (some job) → Effect p e q l l
  | frees (l : List (ℕ × J)) : q.phase = .freed → Observed p e q none none none → Effect p e q l []

theorem running_perm (hnodes : q.nodes.Perm p.nodes) (hsame : ∀ b ∈ p.nodes, jobAt q b = jobAt p b) :
    q.running.Perm p.running := by
  have hperm : q.running.Perm (p.nodes.filterMap (jobAt q)) := hnodes.filterMap _
  rwa [List.filterMap_congr hsame] at hperm

/-- The jobs that are queued or run change by the one that an event adds or ends. -/
theorem Effect.held (h : Effect p e q l l') (hq : q.phase ≠ .freed) :
    ((finished? (p, e)).toList ++ (l'.map Prod.snd ++ q.running)).Perm
      ((added? (p, e)).toList ++ (l.map Prod.snd ++ p.running)) := by
  cases h with
  | silent _ ho =>
    rw [ho.finished, ho.added]
    exact ho.running.append_left _
  | adds _ a job _ ho =>
    rw [ho.finished, ho.added, List.map_append, List.map_singleton, List.append_assoc]
    exact List.perm_middle.trans ((ho.running.append_left _).cons job)
  | starts _ a job ho =>
    rw [ho.finished, ho.added]
    exact (ho.running.append_left _).trans List.perm_middle
  | finishes _ job ho =>
    rw [ho.finished, ho.added]
    have hmiddle : (job :: (l.map Prod.snd ++ q.running)).Perm (l.map Prod.snd ++ job :: q.running) :=
      List.perm_middle.symm
    exact hmiddle.trans (ho.running.append_left _)
  | frees _ hfreed _ => exact absurd hfreed hq

theorem Effect.nil (h : Effect p e q l l') (hl : l = []) (hadded : added? (p, e) = none) : l' = [] := by
  cases h with
  | silent => exact hl
  | adds _ a job _ ho =>
    rw [ho.added] at hadded
    cases hadded
  | starts => cases hl
  | finishes => exact hl
  | frees => rfl

/-- An event that leaves the queue and the jobs that run alone. -/
theorem Nodes.silent (h : Nodes p l) (hnodes : q.nodes.Perm p.nodes) (hjobs : q.jobs = p.jobs)
    (hqueue : q.jobqueue = p.jobqueue) (hadded : added? (p, e) = none)
    (hstarted : started? (p, e) = none) (hfinished : finished? (p, e) = none) :
    ∃ l', Nodes q l' ∧ Effect p e q l l' := by
  refine ⟨l, ⟨?_, ?_, fun a => ?_⟩, .silent l ⟨hadded, hstarted, hfinished, ?_⟩⟩
  · rw [hjobs, hqueue]
    exact h.queue
  · exact (hnodes.append_left _).nodup_iff.mpr h.nodup
  · rw [hjobs, h.allocated, hnodes.mem_iff]
  · exact running_perm hnodes fun b _ => by rw [jobAt, jobAt, hjobs]

theorem Nodes.jobAt_front {a : ℕ} {job : J} (h : Nodes p ((a, job) :: l)) :
    jobAt p a = some job := by
  obtain ⟨-, next, ha, -⟩ := h.queue.linked
  rw [jobAt, ha]
  rfl

theorem pulling_nodes (h : Nodes p l) {i : ℕ} {wake : Option ℕ} (hi : p.threads[i]? = some .pulling)
    (he : Place.pulling.Enabled p wake) (hdo : threadDo p i wake .pulling = .ok q) :
    ∃ l', Nodes q l' ∧ Effect p (.thread i wake) q l l' := by
  obtain ⟨job, jobqueue, post, place, hpull, hplace, hwakes, hq⟩ := pulling_cases hdo he
  have hstarted : started? (p, .thread i wake) = job.bind (jobAt p) := by
    rw [started?, hi, hpull]
    cases job <;> rfl
  have hfinished : finished? (p, .thread i wake) = none := by rw [finished?, hi]
  have hjobs : q.jobs = p.jobs := by rw [hq]
  have hjobqueue : q.jobqueue = jobqueue := by rw [hq]
  -- whether a thread is woken does not matter to the jobs that run
  have hnodes : q.nodes.Perm ((place.node?).toList ++ p.nodes) := by
    have hne : place ≠ .asleep := by cases job <;> subst hplace <;> exact Place.noConfusion
    have hmove : ((p.threads.set i place).filterMap Place.node?).Perm
        ((place.node?).toList ++ p.nodes) := nodes_move hi place
    rw [hq]
    cases post with
    | false => exact hmove
    | true =>
      have hw := (hwakes rfl).move hi Place.noConfusion hne
      exact (nodes_wakeThread hw.asleep).trans hmove
  clear hq
  cases l with
  | nil =>
    rw [h.queue.pull_nil] at hpull
    cases hpull
    subst hplace
    exact h.silent hnodes hjobs hjobqueue rfl hstarted hfinished
  | cons x l =>
    obtain ⟨a, job'⟩ := x
    obtain ⟨jobqueue', hpull', hqueue⟩ := h.queue.pull_cons
    rw [hpull'] at hpull
    cases hpull
    subst hplace
    have hjob := h.jobAt_front
    refine ⟨l, ⟨?_, ?_, fun b => ?_⟩, .starts l a job' ⟨rfl, ?_, hfinished, ?_⟩⟩
    · rw [hjobs, hjobqueue]
      exact hqueue
    · rw [(hnodes.append_left (l.map Prod.fst)).nodup_iff]
      exact List.perm_middle.nodup_iff.mpr h.nodup
    · rw [hjobs, h.allocated, List.map_cons, List.mem_cons, hnodes.mem_iff]
      simp only [Place.node?, Option.toList_some, List.cons_append, List.nil_append, List.mem_cons]
      tauto
    · rw [hstarted, Option.bind_some, hjob]
    · have hrun := hnodes.filterMap (jobAt p)
      have hsame : jobAt q = jobAt p := by
        funext b
        rw [jobAt, jobAt, hjobs]
      change (q.nodes.filterMap (jobAt q)).Perm (job' :: p.nodes.filterMap (jobAt p))
      rw [hsame, ← List.filterMap_cons_some hjob]
      exact hrun

theorem running_nodes (h : Nodes p l) {i a : ℕ} {wake : Option ℕ}
    (hi : p.threads[i]? = some (.running a)) (hdo : threadDo p i wake (.running a) = .ok q) :
    ∃ l', Nodes q l' ∧ Effect p (.thread i wake) q l l' := by
  have hmem : a ∈ p.nodes := List.mem_filterMap.mpr ⟨_, List.mem_of_getElem? hi, rfl⟩
  have hin : a ∈ p.jobs := (h.allocated a).mpr (Or.inr hmem)
  rw [threadDo, freeJob_mem hin] at hdo
  cases hdo
  have hmove : (a :: (p.threads.set i .finishing).filterMap Place.node?).Perm p.nodes :=
    nodes_move hi .finishing
  have hnodup := (hmove.append_left (l.map Prod.fst)).nodup_iff.mpr h.nodup
  rw [List.perm_middle.nodup_iff, List.nodup_cons, List.mem_append, not_or] at hnodup
  obtain ⟨⟨hl, hothers⟩, hnodup⟩ := hnodup
  obtain ⟨node, hnode⟩ := Option.isSome_iff_exists.mp (AList.lookup_isSome.mpr hin)
  have hjob : jobAt p a = some node.data := by rw [jobAt, hnode]; rfl
  refine ⟨l, ⟨h.queue.erase hl, hnodup, fun b => ?_⟩, .finishes l node.data ⟨rfl, ?_, ?_, ?_⟩⟩
  · rw [AList.mem_erase, h.allocated, ← hmove.mem_iff, List.mem_cons]
    change _ ↔ b ∈ l.map Prod.fst ∨ b ∈ (p.threads.set i .finishing).filterMap Place.node?
    refine ⟨fun hb => ?_, fun hb => ⟨?_, ?_⟩⟩
    · tauto
    · rintro rfl
      exact hb.elim hl hothers
    · tauto
  · rw [started?, hi]
  · rw [finished?, hi]
    exact hjob
  · have hrun := hmove.filterMap (jobAt p)
    rw [List.filterMap_cons_some hjob] at hrun
    refine List.Perm.trans (List.Perm.of_eq ?_) hrun
    change node.data :: _ = node.data :: _
    congr 1
    apply List.filterMap_congr
    intro b hb
    have hne : b ≠ a := fun hba => hothers (hba ▸ hb)
    rw [jobAt, jobAt]
    exact congrArg _ (AList.lookup_erase_ne hne)

theorem threadDo_nodes (h : Nodes p l) {i : ℕ} {place : Place} {wake : Option ℕ}
    (hi : p.threads[i]? = some place) (he : place.Enabled p wake)
    (hdo : threadDo p i wake place = .ok q) : ∃ l', Nodes q l' ∧ Effect p (.thread i wake) q l l' := by
  have hstarted (hp : place ≠ .pulling) : started? (p, .thread i wake) = none := by
    rw [started?, hi]
    cases place <;> first | exact absurd rfl hp | rfl
  have hfinished (hp : ∀ a, place ≠ .running a) : finished? (p, .thread i wake) = none := by
    rw [finished?, hi]
    cases place <;> first | exact absurd rfl (hp _) | rfl
  have hmove (b : Place) (ha : place.node? = none) (hb : b.node? = none) :
      ((p.threads.set i b).filterMap Place.node?).Perm p.nodes := by
    have hperm := nodes_move hi b
    rw [ha, hb] at hperm
    exact hperm
  cases place with
  | created =>
    cases hdo
    exact h.silent (hmove .loop rfl rfl) rfl rfl rfl (hstarted (by simp)) (hfinished (by simp))
  | loop =>
    cases hdo
    cases p.keepalive with
    | false =>
      exact h.silent (hmove .leaving rfl rfl) rfl rfl rfl (hstarted (by simp)) (hfinished (by simp))
    | true =>
      exact h.silent (hmove .semaphore rfl rfl) rfl rfl rfl (hstarted (by simp)) (hfinished (by simp))
  | semaphore =>
    cases hdo
    cases p.hasJobs with
    | false =>
      exact h.silent (hmove .asleep rfl rfl) rfl rfl rfl (hstarted (by simp)) (hfinished (by simp))
    | true =>
      exact h.silent (hmove .woken rfl rfl) rfl rfl rfl (hstarted (by simp)) (hfinished (by simp))
  | asleep => exact he.elim
  | woken =>
    cases hdo
    cases p.keepalive with
    | false =>
      exact h.silent (hmove .loop rfl rfl) rfl rfl rfl (hstarted (by simp)) (hfinished (by simp))
    | true =>
      exact h.silent (hmove .counting rfl rfl) rfl rfl rfl (hstarted (by simp)) (hfinished (by simp))
  | counting =>
    cases hdo
    exact h.silent (hmove .pulling rfl rfl) rfl rfl rfl (hstarted (by simp)) (hfinished (by simp))
  | pulling => exact pulling_nodes h hi he hdo
  | running a => exact running_nodes h hi hdo
  | finishing =>
    cases hdo
    exact h.silent (hmove .loop rfl rfl) rfl rfl rfl (hstarted (by simp)) (hfinished (by simp))
  | leaving =>
    cases hdo
    exact h.silent (hmove .unlocking rfl rfl) rfl rfl rfl (hstarted (by simp)) (hfinished (by simp))
  | unlocking =>
    cases hdo
    exact h.silent (hmove .done rfl rfl) rfl rfl rfl (hstarted (by simp)) (hfinished (by simp))
  | done => exact he.elim

theorem addWork_nodes (h : Nodes p l) {a : ℕ} (ha : a ∉ p.jobs) (job : J) {wake : Option ℕ}
    (hw : p.Wakes wake) : ∃ q, thpoolAddWork p (some a) job wake = .ok q ∧ Nodes q (l ++ [(a, job)]) ∧
      Observed p (.addWork (some a) job wake) q (some job) none none := by
  obtain ⟨jobs, jobqueue, hpush, hqueue, hnew, hsame, hmem⟩ := h.queue.push ha job
  set q := bsemPost { p with jobs, jobqueue } wake with hq
  have hnodes : q.nodes.Perm p.nodes := nodes_wakeThread hw.asleep
  have hjobs : q.jobs = jobs := rfl
  refine ⟨q, by simp only [thpoolAddWork, hpush, hq], ?_, rfl, rfl, rfl, ?_⟩
  · refine ⟨hqueue, ?_, fun b => ?_⟩
    · have hfresh : a ∉ l.map Prod.fst ++ p.nodes := by
        rw [List.mem_append, ← h.allocated]
        exact ha
      rw [List.map_append, List.map_singleton, List.append_assoc, List.singleton_append,
        List.perm_middle.nodup_iff, List.nodup_cons]
      refine ⟨fun hin => hfresh ?_, (hnodes.append_left _).nodup_iff.mpr h.nodup⟩
      rwa [(hnodes.append_left _).mem_iff] at hin
    · rw [hjobs, hmem, h.allocated, hnodes.mem_iff]
      simp only [List.map_append, List.map_singleton, List.mem_append, List.mem_singleton]
      tauto
  · refine running_perm hnodes fun b hb => ?_
    -- a job that runs is neither in the queue nor new
    have hout : b ∉ l.map Prod.fst := by
      intro hin
      have hdisjoint := (List.nodup_append.mp h.nodup).2.2
      exact hdisjoint b hin b hb rfl
    have hne : b ≠ a := fun hba => ha ((h.allocated a).mpr (Or.inr (hba ▸ hb)))
    exact congrArg _ (hsame b hout hne)

theorem nodes_postAll (threads : List Place) :
    (threads.map fun place => if place = .asleep then .semaphore else place).filterMap Place.node? =
      threads.filterMap Place.node? := by
  rw [List.filterMap_map]
  apply List.filterMap_congr
  intro place _
  rw [Function.comp_apply]
  split_ifs with ha
  · rw [ha]
    rfl
  · rfl

theorem Phase.Usable.ne_freed {phase : Phase} (h : phase.Usable) : phase ≠ .freed := by
  rcases h with rfl | rfl | rfl <;> exact Phase.noConfusion

theorem step_nodes (h : Nodes p l) (hs : Steps p e q) : ∃ l', Nodes q l' ∧ Effect p e q l l' := by
  cases e with
  | thread i wake =>
    obtain ⟨-, place, hi, he, hdo⟩ := hs.thread
    exact threadDo_nodes h hi he hdo
  | threadWakes i =>
    obtain ⟨hi, hrun⟩ := hs
    cases hrun
    exact h.silent (nodes_move (show p.threads[i]? = some .asleep from hi) .semaphore) rfl rfl rfl rfl rfl
  | addWork newjob job wake =>
    cases newjob with
    | none =>
      obtain ⟨-, hrun⟩ := hs
      cases hrun
      exact h.silent (List.Perm.refl _) rfl rfl rfl rfl rfl
    | some a =>
      obtain ⟨⟨husable, ha, hw⟩, hrun⟩ := hs
      obtain ⟨q', hadd, hnodes, hobserved⟩ := addWork_nodes h ha job hw
      rw [Event.run, hadd] at hrun
      cases hrun
      exact ⟨_, hnodes, .adds l a job husable.ne_freed hobserved⟩
  | wait =>
    obtain ⟨-, ⟨-, -, rfl⟩ | ⟨-, -, rfl⟩ | ⟨-, -, rfl⟩ | ⟨-, -, rfl⟩ | ⟨-, -, rfl⟩⟩ := hs.wait <;>
      exact h.silent (List.Perm.refl _) rfl rfl rfl rfl rfl
  | postAll =>
    obtain ⟨-, hrun⟩ := hs
    cases hrun
    exact h.silent (List.Perm.of_eq (nodes_postAll p.threads)) rfl rfl rfl rfl rfl
  | free =>
    obtain ⟨-, hrun⟩ := hs
    obtain ⟨jobs, hclear, hlookup⟩ := h.queue.clear
    rw [Event.run, thpoolFree, hclear] at hrun
    cases hrun
    have hout (b : ℕ) (hb : b ∈ p.nodes) : b ∉ l.map Prod.fst := by
      intro hin
      have hdisjoint := (List.nodup_append.mp h.nodup).2.2
      exact hdisjoint b hin b hb rfl
    refine ⟨[], ⟨⟨rfl, List.nodup_nil, rfl, rfl⟩, (List.nodup_append.mp h.nodup).2.1, fun b => ?_⟩,
      .frees l rfl ⟨rfl, rfl, rfl, running_perm (List.Perm.refl _) fun b hb => ?_⟩⟩
    · have hb := h.allocated b
      have hnode := hout b
      change b ∈ jobs ↔ b ∈ [] ∨ b ∈ p.nodes
      rw [← AList.lookup_isSome, hlookup]
      split_ifs with hin
      · simp only [Option.isSome_none, Bool.false_eq_true, List.not_mem_nil, false_or, false_iff]
        exact fun hb => hnode hb hin
      · rw [AList.lookup_isSome, hb]
        simp [hin]
    · rw [jobAt, jobAt, hlookup, if_neg (hout b hb)]
  | initReturns | callWait | waitWakes | callDestroy | seesAlive =>
    obtain ⟨-, hrun⟩ := hs
    cases hrun
    exact h.silent (List.Perm.refl _) rfl rfl rfl rfl rfl

end Effect

section Runs
variable {J : Type} {p q : ThreadPool J} {l l' : List (ℕ × J)} {e : Event J} {trace : Trace J}

def adds (trace : Trace J) : List J := trace.filterMap added?

def starts (trace : Trace J) : List J := trace.filterMap started?

def finishes (trace : Trace J) : List J := trace.filterMap finished?

/-- The jobs in the queue, the front one first. -/
def ThreadPool.queued (p : ThreadPool J) : List J := listData p.jobs p.jobqueue.front

theorem Nodes.queued (h : Nodes p l) : p.queued = l.map Prod.snd :=
  h.queue.linked.listData h.queue.nodes

/-- What was added has been started, in order, or is still in the queue, unless the queue is freed;
and what was started has ended or runs. -/
structure History (trace : Trace J) (p : ThreadPool J) (l : List (ℕ × J)) : Prop where
  order : starts trace ++ l.map Prod.snd <+: adds trace
  queued : p.phase ≠ .freed → adds trace = starts trace ++ l.map Prod.snd
  ended : (starts trace).Perm (finishes trace ++ p.running)

theorem filterMap_snoc {α β : Type} (f : α → Option β) (xs : List α) (x : α) :
    (xs ++ [x]).filterMap f = xs.filterMap f ++ (f x).toList := by
  rw [List.filterMap_append, List.filterMap_cons]
  cases f x <;> rfl

theorem Observed.adds {a b c : Option J} (h : Observed p e q a b c) :
    adds (trace ++ [(p, e)]) = adds trace ++ a.toList := by
  rw [Thpool.adds, filterMap_snoc, h.added]
  rfl

theorem Observed.starts {a b c : Option J} (h : Observed p e q a b c) :
    starts (trace ++ [(p, e)]) = starts trace ++ b.toList := by
  rw [Thpool.starts, filterMap_snoc, h.started]
  rfl

theorem Observed.finishes {a b c : Option J} (h : Observed p e q a b c) :
    finishes (trace ++ [(p, e)]) = finishes trace ++ c.toList := by
  rw [Thpool.finishes, filterMap_snoc, h.finished]
  rfl

theorem Observed.ended {a b c : Option J} (h : Observed p e q a b c)
    (ho : (Thpool.starts trace).Perm (Thpool.finishes trace ++ p.running)) :
    (Thpool.starts (trace ++ [(p, e)])).Perm (Thpool.finishes (trace ++ [(p, e)]) ++ q.running) := by
  have hstart : (Thpool.starts trace ++ b.toList).Perm
      (Thpool.finishes trace ++ (b.toList ++ p.running)) := by
    refine (ho.append_right _).trans ?_
    rw [List.append_assoc]
    exact List.perm_append_comm.append_left _
  rw [h.starts, h.finishes, List.append_assoc]
  exact hstart.trans (h.running.symm.append_left _)

/-- A pool that is freed stays so. -/
theorem Steps.freed (hs : Steps p e q) (hp : p.phase = .freed) : q.phase = .freed := by
  cases e with
  | thread i wake => exact absurd hp hs.thread.1
  | wait => exact absurd hp hs.wait.1
  | threadWakes i | waitWakes =>
    obtain ⟨-, hrun⟩ := hs
    cases hrun
    exact hp
  | addWork newjob job wake =>
    cases newjob with
    | none => exact absurd hp (show p.phase.Usable from hs.1.1).ne_freed
    | some a => exact absurd hp (show p.phase.Usable from hs.1.1).ne_freed
  | callWait => exact absurd hp (show p.phase.Usable from hs.1.1).ne_freed
  | initReturns =>
    have hphase : p.phase = .starting := hs.1.1
    rw [hp] at hphase
    cases hphase
  | callDestroy =>
    have hphase : p.phase = .serving := hs.1
    rw [hp] at hphase
    cases hphase
  | seesAlive | free =>
    have hphase : p.phase = .ending := hs.1.1
    rw [hp] at hphase
    cases hphase
  | postAll =>
    have hphase : p.phase = .posting := hs.1
    rw [hp] at hphase
    cases hphase

theorem step_history (h : History trace p l) (hs : Steps p e q) (he : Effect p e q l l') :
    History (trace ++ [(p, e)]) q l' := by
  have hphase (hq : q.phase ≠ .freed) : p.phase ≠ .freed := fun hp => hq (hs.freed hp)
  cases he with
  | silent _ ho =>
    refine ⟨?_, fun hq => ?_, ho.ended h.ended⟩ <;> rw [ho.adds, ho.starts] <;>
      simp only [Option.toList_none, List.append_nil]
    · exact h.order
    · exact h.queued (hphase hq)
  | adds _ a job hp ho =>
    refine ⟨?_, fun hq => ?_, ho.ended h.ended⟩ <;>
      simp only [ho.adds, ho.starts, Option.toList_none, Option.toList_some, List.append_nil,
        List.map_append, List.map_singleton, ← List.append_assoc]
    · rw [h.queued hp]
    · rw [h.queued hp]
  | starts _ a job ho =>
    have hsnoc : starts trace ++ [job] ++ l'.map Prod.snd = starts trace ++ (job :: l'.map Prod.snd) := by
      rw [List.append_assoc]
      rfl
    refine ⟨?_, fun hq => ?_, ho.ended h.ended⟩ <;>
      simp only [ho.adds, ho.starts, Option.toList_none, Option.toList_some, List.append_nil, hsnoc]
    · exact h.order
    · exact h.queued (hphase hq)
  | finishes _ job ho =>
    refine ⟨?_, fun hq => ?_, ho.ended h.ended⟩ <;> rw [ho.adds, ho.starts] <;>
      simp only [Option.toList_none, List.append_nil]
    · exact h.order
    · exact h.queued (hphase hq)
  | frees _ hq ho =>
    refine ⟨?_, fun hq' => absurd hq hq', ho.ended h.ended⟩
    rw [ho.adds, ho.starts]
    simp only [Option.toList_none, List.append_nil, List.map_nil]
    exact (List.prefix_append _ _).trans h.order

theorem init_counts (J : Type) (numThreads : ℤ) : Counts (thpoolInit J numThreads) := by
  have hcount (f : Place → Bool) (hf : f .created = false) :
      (thpoolInit J numThreads).threads.countP f = 0 := by
    rw [thpoolInit, List.countP_replicate, hf]
    rfl
  refine ⟨?_, ?_, ?_, fun _ => hcount _ rfl, fun hphase => absurd rfl hphase, by simp [thpoolInit],
    fun _ => rfl, fun hphase => by cases hphase⟩
  · rw [hcount _ rfl]
    rfl
  · rw [hcount _ rfl]
    rfl
  · rw [hcount _ rfl]
    rfl

theorem init_nodes (J : Type) (numThreads : ℤ) : Nodes (thpoolInit J numThreads) [] := by
  have hnodes : (thpoolInit J numThreads).nodes = [] := by
    rw [ThreadPool.nodes, List.filterMap_eq_nil_iff]
    intro place hplace
    rw [List.eq_of_mem_replicate hplace]
    rfl
  refine ⟨queues_init, ?_, fun a => ?_⟩ <;> rw [hnodes]
  · exact List.nodup_nil
  · simp [thpoolInit]

theorem init_history (J : Type) (numThreads : ℤ) : History [] (thpoolInit J numThreads) [] := by
  refine ⟨List.prefix_refl _, fun _ => rfl, ?_⟩
  have hqueue := init_nodes J numThreads
  have hnodes : (thpoolInit J numThreads).nodes = [] := by
    rw [List.eq_nil_iff_forall_not_mem]
    intro a ha
    exact AList.notMem_empty a ((hqueue.allocated a).mpr (Or.inr ha))
  rw [ThreadPool.running, hnodes]
  exact List.Perm.refl _

/-- What holds of a pool after any run. -/
def Sound (trace : Trace J) (p : ThreadPool J) : Prop :=
  Counts p ∧ ∃ l, Nodes p l ∧ History trace p l

theorem step_sound (h : Sound trace p) (hs : Steps p e q) : Sound (trace ++ [(p, e)]) q := by
  obtain ⟨hcounts, l, hnodes, hhistory⟩ := h
  obtain ⟨l', hnodes', heffect⟩ := step_nodes hnodes hs
  exact ⟨step_counts hcounts hs, l', hnodes', step_history hhistory hs heffect⟩

theorem run_sound {numThreads : ℤ} (h : Run Steps (thpoolInit J numThreads) trace p) :
    Sound trace p :=
  h.invariant ⟨init_counts J numThreads, [], init_nodes J numThreads, init_history J numThreads⟩
    fun _ _ _ _ hsound hs => step_sound hsound hs

/-- In whatever order the threads of a pool and its callers take their steps, the jobs are started in
the order in which they were added, each of them once; those that were started have ended or run. -/
theorem jobs_run_once_in_order (numThreads : ℤ) (trace : Trace J) (p : ThreadPool J)
    (h : Run Steps (thpoolInit J numThreads) trace p) :
    starts trace <+: adds trace ∧ (starts trace).Perm (finishes trace ++ p.running) ∧
      (p.phase ≠ .freed → adds trace = starts trace ++ p.queued) := by
  obtain ⟨-, l, hnodes, hhistory⟩ := run_sound h
  refine ⟨(List.prefix_append _ _).trans hhistory.order, hhistory.ended, fun hp => ?_⟩
  rw [hnodes.queued]
  exact hhistory.queued hp

/-- Two threads, two jobs; the second is added while the first is pulled. -/
def twoJobs : List (Event ℕ) :=
  [.thread 0 none, .thread 1 none, .initReturns, .thread 0 none, .thread 0 none,
    .addWork (some 10) 7 (some 0), .thread 0 none, .addWork (some 11) 8 none, .thread 0 none,
    .thread 0 none, .thread 0 none]

theorem two_jobs_in_order : starts (after (thpoolInit ℕ 2) twoJobs).1 = [7] ∧
    (after (thpoolInit ℕ 2) twoJobs).2.queued = [8] ∧
      starts (after (thpoolInit ℕ 2) twoJobs).1 <+: adds (after (thpoolInit ℕ 2) twoJobs).1 := by
  have hrun := run_after (thpoolInit ℕ 2) twoJobs (by decide +kernel)
  exact ⟨by decide +kernel, by decide +kernel, (jobs_run_once_in_order 2 _ _ hrun).1⟩

/-- Whatever can happen to a pool that is not freed is defined. -/
theorem Sound.defined (h : Sound trace p) (he : e.Enabled p) (hp : p.phase ≠ .freed) :
    ∃ q, Steps p e q := by
  suffices hrun : ∃ q, e.run p = .ok q by
    obtain ⟨q, hq⟩ := hrun
    exact ⟨q, he, hq⟩
  obtain ⟨-, l, hnodes, -⟩ := h
  cases e with
  | thread i wake =>
    obtain ⟨place, hi, -⟩ := he
    rw [Event.run, if_neg hp, hi]
    cases place with
    | pulling =>
      cases l with
      | nil => exact ⟨_, by simp only [threadDo, hnodes.queue.pull_nil]; rfl⟩
      | cons x l =>
        obtain ⟨jobqueue, hpull, -⟩ := hnodes.queue.pull_cons
        exact ⟨_, by simp only [threadDo, hpull]; rfl⟩
    | running a =>
      have hmem : a ∈ p.nodes := List.mem_filterMap.mpr ⟨_, List.mem_of_getElem? hi, rfl⟩
      have hin : a ∈ p.jobs := (hnodes.allocated a).mpr (Or.inr hmem)
      exact ⟨_, by simp only [threadDo, freeJob_mem hin]; rfl⟩
    | created | loop | semaphore | asleep | woken | counting | finishing | leaving | unlocking | done =>
      exact ⟨_, rfl⟩
  | addWork newjob job wake =>
    cases newjob with
    | none => exact ⟨p, rfl⟩
    | some a =>
      obtain ⟨q, hadd, -⟩ := addWork_nodes hnodes he.2.1 job he.2.2
      exact ⟨q, hadd⟩
  | wait =>
    rw [Event.run, if_neg hp]
    exact ⟨_, rfl⟩
  | free =>
    obtain ⟨jobs, hclear, -⟩ := hnodes.queue.clear
    exact ⟨_, by simp only [Event.run, thpoolFree, hclear]; rfl⟩
  | threadWakes | initReturns | callWait | waitWakes | callDestroy | seesAlive | postAll =>
    exact ⟨_, rfl⟩

/-- No pointer of a pool that is not freed leads nowhere, and the jobs that are allocated are those
in the queue `l` and those that run. -/
theorem pool_never_dangles (numThreads : ℤ) (trace : Trace J) (p : ThreadPool J)
    (h : Run Steps (thpoolInit J numThreads) trace p) (hp : p.phase ≠ .freed) :
    (∀ e : Event J, e.Enabled p → ∃ q, e.run p = .ok q) ∧
      p.jobs.keys.length = p.queued.length+p.running.length ∧
        ∃ l, Queues p.jobs p.jobqueue l ∧ p.jobs.keys.Perm (l.map Prod.fst ++ p.nodes) := by
  have hsound := run_sound h
  constructor
  · intro e he
    obtain ⟨q, -, hq⟩ := hsound.defined he hp
    exact ⟨q, hq⟩
  · obtain ⟨-, l, hnodes, -⟩ := hsound
    have hkeys : p.jobs.keys.Perm (l.map Prod.fst ++ p.nodes) := by
      rw [List.perm_ext_iff_of_nodup p.jobs.keys_nodup hnodes.nodup]
      intro a
      rw [← AList.mem_keys, hnodes.allocated, List.mem_append]
    refine ⟨?_, l, hnodes.queue, hkeys⟩
    have hrunning : p.running.length = p.nodes.length := by
      refine List.filterMap_length_eq_length.mpr fun a ha => ?_
      rw [jobAt, Option.isSome_map, AList.lookup_isSome]
      exact (hnodes.allocated a).mpr (Or.inr ha)
    rw [hkeys.length_eq, hnodes.queued, hrunning, List.length_append, List.length_map, List.length_map]

theorem two_jobs_allocated : (after (thpoolInit ℕ 2) twoJobs).2.jobs.keys.length =
    (after (thpoolInit ℕ 2) twoJobs).2.queued.length+
      (after (thpoolInit ℕ 2) twoJobs).2.running.length := by
  have hrun := run_after (thpoolInit ℕ 2) twoJobs (by decide +kernel)
  exact (pool_never_dangles 2 _ _ hrun (by decide +kernel)).2.1

end Runs

section Wait
variable {J : Type} {p q : ThreadPool J} {i : ℕ} {wake : Option ℕ} {place : Place} {e : Event J}
  {trace : Trace J}

/-- A thread does nothing to the main thread but to wake it. -/
theorem threadDo_waiter (h : threadDo p i wake place = .ok q) :
    q.waiter = p.waiter ∨ q.waiter = p.waiter.signal := by
  cases place with
  | created | counting | leaving | unlocking | asleep | done =>
    cases h
    exact Or.inl rfl
  | loop | woken =>
    cases h
    exact Or.inl rfl
  | semaphore =>
    cases h
    left
    split_ifs <;> rfl
  | pulling =>
    rw [threadDo] at h
    split at h
    · cases h
    · cases h
      left
      split_ifs <;> rfl
  | running a =>
    rw [threadDo] at h
    split at h
    · cases h
    · cases h
      exact Or.inl rfl
  | finishing =>
    cases h
    change (if p.numThreadsWorking-1 = 0 then p.waiter.signal else p.waiter) = p.waiter ∨
      (if p.numThreadsWorking-1 = 0 then p.waiter.signal else p.waiter) = p.waiter.signal
    split_ifs
    · exact Or.inr rfl
    · exact Or.inl rfl

/-- The main thread gets to read the number of working threads when it has found the queue empty. -/
theorem Steps.readingWorking (h : Steps p e q) (hq : q.waiter = .readingWorking) :
    p.waiter = .readingWorking ∨ (p.phase ≠ .freed ∧ p.jobqueue.len = 0) := by
  cases e with
  | thread i wake =>
    obtain ⟨-, place, -, -, hdo⟩ := h.thread
    left
    rcases threadDo_waiter hdo with hw | hw
    · rw [← hw, hq]
    · rw [hq] at hw
      cases hwaiter : p.waiter <;> rw [hwaiter] at hw <;> cases hw
  | wait =>
    obtain ⟨hp, ⟨-, -, rfl⟩ | ⟨-, hlen, -⟩ | ⟨-, -, rfl⟩ | ⟨-, -, rfl⟩ | ⟨-, -, rfl⟩⟩ := h.wait
    · cases hq
    · exact Or.inr ⟨hp, hlen⟩
    all_goals cases hq
  | addWork newjob job wake =>
    obtain ⟨-, hrun⟩ := h
    left
    cases newjob with
    | none =>
      cases hrun
      exact hq
    | some a =>
      simp only [Event.run, thpoolAddWork] at hrun
      split at hrun
      · cases hrun
      · cases hrun
        exact hq
  | free =>
    obtain ⟨-, hrun⟩ := h
    simp only [Event.run, thpoolFree] at hrun
    split at hrun
    · cases hrun
    · cases hrun
      exact Or.inl hq
  | callWait | waitWakes =>
    obtain ⟨-, hrun⟩ := h
    cases hrun
    cases hq
  | threadWakes | initReturns | callDestroy | seesAlive | postAll =>
    obtain ⟨-, hrun⟩ := h
    cases hrun
    exact Or.inl hq

theorem starts_first (trace trace' : Trace J) : starts trace <+: starts (trace ++ trace') := by
  rw [starts, starts, List.filterMap_append]
  exact List.prefix_append _ _

theorem adds_prefix (trace trace' : Trace J) : adds trace <+: adds (trace ++ trace') := by
  rw [adds, adds, List.filterMap_append]
  exact List.prefix_append _ _

/-- No job runs when no thread is counted as working. -/
theorem Counts.running_nil (h : Counts p) (hworking : p.numThreadsWorking = 0) : p.running = [] := by
  have hzero : p.threads.countP Place.isCounted = 0 := by
    have hcount := h.working
    rw [hworking] at hcount
    exact_mod_cast hcount.symm
  have hnodes : p.nodes = [] := by
    rw [ThreadPool.nodes, List.filterMap_eq_nil_iff]
    intro place hplace
    have hnot := List.countP_eq_zero.mp hzero place hplace
    cases place <;> first | rfl | exact absurd rfl hnot
  rw [ThreadPool.running, hnodes]
  rfl

/-- When `thpool_wait` returns, all jobs that were added before its call have been started, and every
job that was started has ended. -/
theorem wait_returns_when_done (numThreads : ℤ) (before after : Trace J) (p q r s : ThreadPool J)
    (h : Run Steps (thpoolInit J numThreads) before p) (hcall : Steps p .callWait q)
    (hrun : Run Steps q after r) (hreturn : Steps r .wait s) (hout : s.waiter = .outside) :
    adds before <+: starts (before ++ (p, .callWait) :: after) ∧
      (starts (before ++ (p, .callWait) :: after)).Perm
        (finishes (before ++ (p, .callWait) :: after)) := by
  set called := before ++ [(p, Event.callWait)] with hcalled
  have htrace : before ++ (p, .callWait) :: after = called ++ after := by
    rw [hcalled, List.append_assoc]
    rfl
  -- what the main thread knows when it has found the queue empty
  have hinvariant : Sound (called ++ after) r ∧
      (r.waiter = .readingWorking → adds before <+: starts (called ++ after)) := by
    refine hrun.invariant (P := fun after r => Sound (called ++ after) r ∧
      (r.waiter = .readingWorking → adds before <+: starts (called ++ after))) ⟨?_, fun hw => ?_⟩ ?_
    · rw [List.append_nil]
      exact step_sound (run_sound h) hcall
    · obtain ⟨-, hq⟩ := hcall
      cases hq
      cases hw
    · rintro after t e u ⟨hsound, hknown⟩ hs
      rw [← List.append_assoc]
      refine ⟨step_sound hsound hs, fun hu => ?_⟩
      refine List.IsPrefix.trans ?_ (starts_first (called ++ after) [(t, e)])
      rcases hs.readingWorking hu with ht | ⟨hphase, hlen⟩
      · exact hknown ht
      · obtain ⟨-, l, hnodes, hhistory⟩ := hsound
        have hl : l = [] := by
          rw [hnodes.queue.len] at hlen
          exact List.length_eq_zero_iff.mp hlen
        have hall := hhistory.queued hphase
        rw [hl, List.map_nil, List.append_nil] at hall
        rw [← hall, hcalled, List.append_assoc]
        exact adds_prefix _ _
  obtain ⟨hsound, hknown⟩ := hinvariant
  rw [htrace]
  obtain ⟨hfreed, hcases⟩ := hreturn.wait
  have hlast : r.waiter = .readingWorking ∧ r.numThreadsWorking = 0 := by
    rcases hcases with ⟨-, -, rfl⟩ | ⟨-, -, rfl⟩ | ⟨-, -, rfl⟩ | ⟨hw, hzero, -⟩ | ⟨-, -, rfl⟩
    · cases hout
    · cases hout
    · cases hout
    · exact ⟨hw, hzero⟩
    · cases hout
  refine ⟨hknown hlast.1, ?_⟩
  obtain ⟨hcounts, l, -, hhistory⟩ := hsound
  have hended := hhistory.ended
  rwa [hcounts.running_nil hlast.2, List.append_nil] at hended

/-- A thread and a job in the queue. -/
def oneJob : List (Event ℕ) := [.thread 0 none, .initReturns, .addWork (some 10) 7 none]

/-- The main thread sleeps until the job is done. -/
def waitForJob : List (Event ℕ) :=
  [.wait, .wait, .thread 0 none, .thread 0 none, .thread 0 none, .thread 0 none, .thread 0 none,
    .thread 0 none, .thread 0 none, .wait, .wait]

theorem wait_for_one_job : ∃ (before : Trace ℕ) (p : ThreadPool ℕ) (after : Trace ℕ),
    adds before = [7] ∧ adds before <+: starts (before ++ (p, .callWait) :: after) ∧
      (starts (before ++ (p, .callWait) :: after)).Perm
        (finishes (before ++ (p, .callWait) :: after)) := by
  set p := (Thpool.after (thpoolInit ℕ 1) oneJob).2 with hp
  set q : ThreadPool ℕ := { p with waiter := .locking } with hq
  set r := (Thpool.after q waitForJob).2 with hr
  have hbefore := run_after (thpoolInit ℕ 1) oneJob (by decide +kernel)
  have hcall : Steps p .callWait q := ⟨by decide +kernel, rfl⟩
  have hrun := run_after q waitForJob (by decide +kernel)
  have hphase : ¬ r.phase = .freed := by decide +kernel
  have hreturn : Steps r .wait (thpoolWait r) := ⟨by decide +kernel, by rw [Event.run, if_neg hphase]⟩
  obtain ⟨hstarted, hended⟩ := wait_returns_when_done 1 _ _ p q r _ hbefore hcall hrun hreturn
    (by decide +kernel)
  exact ⟨_, p, _, by decide +kernel, hstarted, hended⟩

end Wait

end Stronk.Thpool
