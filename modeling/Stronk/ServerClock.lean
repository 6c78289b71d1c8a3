import Stronk.ServerConnection

/-! Time (`util.c`), and the clock that the main loop of the server keeps by it (`server.c`). The
seconds are unbounded here. -/
namespace Stronk.Mcpr
open EarlyExit

section Model
variable {α : Type} [DecidableEq α]

/-- Timespecs by the places that they are kept at. -/
abbrev TimeStore (α : Type) := α → Timespec

def setSec (mem : TimeStore α) (place : α) (sec : ℤ) : TimeStore α :=
  Function.update mem place { mem place with tvSec := sec }

def setNsec (mem : TimeStore α) (place : α) (nsec : ℤ) : TimeStore α :=
  Function.update mem place { mem place with tvNsec := nsec }

/-- What `timespec_add` and `timespec_addraw` both end with. -/
def carryNsec (mem : TimeStore α) (result : α) : TimeStore α :=
  if (mem result).tvNsec ≥ 1000000000 then
    let mem := setNsec mem result ((mem result).tvNsec-1000000000)
    setSec mem result ((mem result).tvSec+1)
  else mem

def timespecAdd (mem : TimeStore α) (result t1 t2 : α) : TimeStore α :=
  let mem := setSec mem result ((mem t2).tvSec+(mem t1).tvSec)
  let mem := setNsec mem result ((mem t2).tvNsec+(mem t1).tvNsec)
  carryNsec mem result

def timespecAddraw (mem : TimeStore α) (result t : α) (sec nsec : ℤ) : TimeStore α :=
  let mem := setSec mem result (sec+(mem t).tvSec)
  let mem := setNsec mem result (nsec+(mem t).tvNsec)
  carryNsec mem result

def timespecCmp (t1 t2 : Timespec) : ℤ :=
  if t1.tvSec > t2.tvSec ∨ t1.tvSec = t2.tvSec ∧ t1.tvNsec > t2.tvNsec then 1
  else if t1.tvSec = t2.tvSec ∧ t1.tvNsec = t2.tvNsec then 0
  else if t1.tvSec < t2.tvSec ∨ t1.tvSec = t2.tvSec ∧ t1.tvNsec < t2.tvNsec then -1
  else -1

def msToTimespec (ms : UInt64) : Timespec where
  tvSec := (ms/1000).toNat
  tvNsec := (ms%1000).toNat*1000000

/-- The internal clock, and the locals of `server_tick` and of the main loop. -/
inductive ServerTime
  | internalClock
  | addend
  | start
  | shouldStopAt
  | stop
  | diff
  deriving DecidableEq, Repr

/-- `sleeps` are the times that `nanosleep` is asked for. -/
structure ServerClock where
  mem : TimeStore ServerTime
  sleeps : List Timespec

abbrev ClockProg := Prog ServerClock Halt

def tickDurationNs : ℤ := 50000000

def setTimes (f : TimeStore ServerTime → TimeStore ServerTime) : ClockProg Unit :=
  modify fun s => { s with mem := f s.mem }

/-- `server_tick` behind `net_tick`, which cannot reach the clock. -/
def serverTick : ClockProg Unit := do
  setTimes fun mem => setSec mem .addend 0
  setTimes fun mem => setNsec mem .addend tickDurationNs
  setTimes fun mem => timespecAdd mem .internalClock .internalClock .addend

/-- `timespec_get`; without a time the server crashes. -/
def timespecGet (place : ServerTime) (time : Option Timespec) : ClockProg Unit :=
  match time with
  | none => exit .exitFailure
  | some time => setTimes fun mem => Function.update mem place time

/-- What `timespec_get` says in one turn of the main loop. -/
structure LoopTurn where
  start : Option Timespec
  stop : Option Timespec

/-- One turn of the main loop of `server_start`. -/
def serverTurn (turn : LoopTurn) : ClockProg Unit := do
  timespecGet .start turn.start
  serverTick
  setTimes fun mem => timespecAddraw mem .shouldStopAt .start 0 tickDurationNs
  timespecGet .stop turn.stop
  let s ← get
  if timespecCmp (s.mem .shouldStopAt) (s.mem .stop) > 0 then do
    setTimes fun mem =>
      Function.update mem .diff (timespecDiff (mem .stop) (mem .shouldStopAt))
    modify fun s => { s with sleeps := s.sleeps ++ [s.mem .diff] }
  else pure ()

/-- The main loop, for as many turns as there are times for. -/
def serverLoop : List LoopTurn → ClockProg Unit
  | [] => pure ()
  | turn :: turns => do
    serverTurn turn
    serverLoop turns

end Model

section Arithmetic

/-- The nanoseconds of a timespec. -/
def Timespec.ns (t : Timespec) : ℤ := t.tvSec*1000000000+t.tvNsec

def Timespec.Normal (t : Timespec) : Prop := 0 ≤ t.tvNsec ∧ t.tvNsec < 1000000000

instance (t : Timespec) : Decidable t.Normal := inferInstanceAs (Decidable (_ ∧ _))

/-- What a helper is to give: `ns` nanoseconds, in the one way to write them. -/
structure Timespec.Is (t : Timespec) (ns : ℤ) : Prop where
  normal : t.Normal
  ns_eq : t.ns = ns

theorem Timespec.is_mk {sec nsec ns : ℤ} (h0 : 0 ≤ nsec) (h1 : nsec < 1000000000)
    (hns : sec*1000000000+nsec = ns) : Timespec.Is { tvSec := sec, tvNsec := nsec } ns :=
  ⟨⟨h0, h1⟩, hns⟩

/-- The seconds of a normalised timespec are the whole ones. -/
theorem Timespec.Is.tvSec {t : Timespec} {ns : ℤ} (h : t.Is ns) : t.tvSec = ns/1000000000 := by
  obtain ⟨⟨h0, h1⟩, hns⟩ := h
  rw [Timespec.ns] at hns
  omega

variable {t1 t2 start stop : Timespec}

theorem timespecDiff_is (h1 : start.Normal) (h2 : stop.Normal) :
    (timespecDiff start stop).Is (stop.ns-start.ns) := by
  obtain ⟨hstart0, hstart1⟩ := h1
  obtain ⟨hstop0, hstop1⟩ := h2
  simp only [Timespec.ns]
  unfold timespecDiff
  split
  · -- a second is borrowed for the nanoseconds
    apply Timespec.is_mk
    · omega
    · omega
    · ring
  · apply Timespec.is_mk
    · omega
    · omega
    · ring

theorem msToTimespec_is (ms : UInt64) : (msToTimespec ms).Is (ms.toNat*1000000) := by
  have hlt : ms.toNat%1000 < 1000 := Nat.mod_lt _ (by decide)
  have hsplit := Nat.div_add_mod ms.toNat 1000
  have hdiv : (ms/1000).toNat = ms.toNat/1000 := UInt64.toNat_div _ _
  have hmod : (ms%1000).toNat = ms.toNat%1000 := UInt64.toNat_mod _ _
  constructor
  · simp only [Timespec.Normal, msToTimespec, hmod]
    omega
  · simp only [Timespec.ns, msToTimespec, hdiv, hmod]
    omega

/-- On normalised timespecs the order of the seconds comes first. -/
theorem timespecCmp_eq (h1 : t1.Normal) (h2 : t2.Normal) :
    timespecCmp t1 t2 = (t1.ns-t2.ns).sign := by
  obtain ⟨h10, h11⟩ := h1
  obtain ⟨h20, h21⟩ := h2
  simp only [Timespec.ns]
  unfold timespecCmp
  split_ifs with hgt heq hlt
  · rw [Int.sign_eq_one_of_pos (by omega)]
  · rw [heq.1, heq.2, sub_self, Int.sign_zero]
  · rw [Int.sign_eq_neg_one_of_neg (by omega)]
  · rw [Int.sign_eq_neg_one_of_neg (by omega)]

variable {α : Type} [DecidableEq α] (mem : TimeStore α) (result : α)

@[simp] theorem setSec_self (sec : ℤ) :
    setSec mem result sec result = { mem result with tvSec := sec } := Function.update_self ..

@[simp] theorem setNsec_self (nsec : ℤ) :
    setNsec mem result nsec result = { mem result with tvNsec := nsec } := Function.update_self ..

theorem setSec_of_ne {p : α} (h : p ≠ result) (sec : ℤ) : setSec mem result sec p = mem p :=
  Function.update_of_ne h _ _

theorem setNsec_of_ne {p : α} (h : p ≠ result) (nsec : ℤ) : setNsec mem result nsec p = mem p :=
  Function.update_of_ne h _ _

/-- Setting the seconds of a place leaves the nanoseconds of every place, that one included. -/
@[simp] theorem setSec_tvNsec (sec : ℤ) (p : α) :
    (setSec mem result sec p).tvNsec = (mem p).tvNsec := by
  by_cases h : p = result
  · subst h
    rw [setSec_self]
  · rw [setSec_of_ne mem result h]

theorem carryNsec_self : carryNsec mem result result =
    if (mem result).tvNsec ≥ 1000000000 then
      { tvSec := (mem result).tvSec+1, tvNsec := (mem result).tvNsec-1000000000 }
    else mem result := by
  unfold carryNsec
  split
  · simp
  · rfl

theorem carryNsec_of_ne {p : α} (h : p ≠ result) : carryNsec mem result p = mem p := by
  unfold carryNsec
  split
  · rw [setSec_of_ne _ _ h, setNsec_of_ne _ _ h]
  · rfl

/-- The carry makes up for what two normalised summands can exceed a second by. -/
theorem carryNsec_is {sec nsec : ℤ} (hsec : (mem result).tvSec = sec)
    (hnsec : (mem result).tvNsec = nsec) (h0 : 0 ≤ nsec) (h1 : nsec < 2000000000) :
    (carryNsec mem result result).Is (sec*1000000000+nsec) := by
  subst hsec hnsec
  rw [carryNsec_self]
  split_ifs with hcarry
  · apply Timespec.is_mk
    · omega
    · omega
    · ring
  · exact ⟨⟨h0, by omega⟩, rfl⟩

/-- The sum is right wherever the result is put, at one of the summands or at both. -/
theorem timespecAdd_is {p1 p2 : α} (h1 : (mem p1).Normal) (h2 : (mem p2).Normal) :
    (timespecAdd mem result p1 p2 result).Is ((mem p1).ns+(mem p2).ns) := by
  obtain ⟨h10, h11⟩ := h1
  obtain ⟨h20, h21⟩ := h2
  have hsum : (mem p1).ns+(mem p2).ns = ((mem p2).tvSec+(mem p1).tvSec)*1000000000+
      ((mem p2).tvNsec+(mem p1).tvNsec) := by
    simp only [Timespec.ns]
    ring
  rw [hsum]
  apply carryNsec_is
  · simp
  · -- the seconds are written first, which the nanoseconds do not see
    simp
  · omega
  · omega

theorem timespecAddraw_is {p : α} {sec nsec : ℤ} (h : (mem p).Normal) (h0 : 0 ≤ nsec)
    (h1 : nsec < 1000000000) :
    (timespecAddraw mem result p sec nsec result).Is ((mem p).ns+(sec*1000000000+nsec)) := by
  obtain ⟨hp0, hp1⟩ := h
  have hsum : (mem p).ns+(sec*1000000000+nsec) = (sec+(mem p).tvSec)*1000000000+
      (nsec+(mem p).tvNsec) := by
    simp only [Timespec.ns]
    ring
  rw [hsum]
  apply carryNsec_is
  · simp
  · simp
  · omega
  · omega

theorem timespecAdd_of_ne {p p1 p2 : α} (h : p ≠ result) :
    timespecAdd mem result p1 p2 p = mem p := by
  unfold timespecAdd
  rw [carryNsec_of_ne _ _ h, setNsec_of_ne _ _ h, setSec_of_ne _ _ h]

theorem timespecAddraw_of_ne {p p1 : α} {sec nsec : ℤ} (h : p ≠ result) :
    timespecAddraw mem result p1 sec nsec p = mem p := by
  unfold timespecAddraw
  rw [carryNsec_of_ne _ _ h, setNsec_of_ne _ _ h, setSec_of_ne _ _ h]

end Arithmetic

section Clock
variable {s s' : ServerClock}

def ServerClock.internalClock (s : ServerClock) : Timespec := s.mem .internalClock

theorem serverTick_run : serverTick.run s = (.ok (), { s with
    mem := timespecAdd (setNsec (setSec s.mem .addend 0) .addend tickDurationNs)
      .internalClock .internalClock .addend }) := rfl

/-- A tick moves the clock by 50 ms. -/
theorem serverTick_adds (h : s.internalClock.Normal) :
    (serverTick.run s).2.internalClock.Is (s.internalClock.ns+50000000) := by
  set mem := setNsec (setSec s.mem .addend 0) .addend tickDurationNs with hmem
  have hclock : mem .internalClock = s.internalClock := by
    rw [hmem, setNsec_of_ne _ _ (by decide), setSec_of_ne _ _ (by decide)]
    rfl
  have haddend : mem .addend = { tvSec := 0, tvNsec := tickDurationNs } := by simp [hmem]
  have hadd : (timespecAdd mem .internalClock .internalClock .addend .internalClock).Is
      ((mem .internalClock).ns+(mem .addend).ns) := by
    apply timespecAdd_is
    · rw [hclock]
      exact h
    · rw [haddend]
      decide
  rw [hclock, haddend] at hadd
  rw [serverTick_run]
  exact hadd

theorem serverTicks_add (k : ℕ) (h : s.internalClock.Normal) :
    ((fun s => (serverTick.run s).2)^[k] s).internalClock.Is (s.internalClock.ns+k*50000000) := by
  induction k with
  | zero => exact ⟨h, by simp⟩
  | succ k ih =>
    rw [Function.iterate_succ_apply']
    have hadd := serverTick_adds ih.normal
    rw [ih.ns_eq] at hadd
    convert hadd using 1
    push_cast
    ring

/-- The clock stands where `s` has it, and another time is set. -/
theorem setTimes_returns {t : Timespec} {f : TimeStore ServerTime → TimeStore ServerTime}
    (hf : ∀ mem, f mem .internalClock = mem .internalClock) (hs : s.internalClock = t) :
    Returns (setTimes f) s fun _ s' => s'.internalClock = t :=
  ⟨(), _, rfl, (hf s.mem).trans hs⟩

theorem timespecGet_returns {t time : Timespec} {place : ServerTime} (hplace : place ≠ .internalClock)
    (hs : s.internalClock = t) :
    Returns (timespecGet place (some time)) s fun _ s' => s'.internalClock = t :=
  setTimes_returns (fun _ => Function.update_of_ne hplace.symm _ _) hs

/-- The times of a turn can be had. -/
def LoopTurn.Timed (turn : LoopTurn) : Prop := turn.start.isSome = true ∧ turn.stop.isSome = true

/-- A turn of the main loop moves the clock by 50 ms. -/
theorem serverTurn_adds {turn : LoopTurn} (hturn : turn.Timed) (h : s.internalClock.Normal) :
    Returns (serverTurn turn) s fun _ s' =>
      s'.internalClock.Is (s.internalClock.ns+50000000) := by
  obtain ⟨hstart, hstop⟩ := hturn
  obtain ⟨start, hstart⟩ := Option.isSome_iff_exists.mp hstart
  obtain ⟨stop, hstop⟩ := Option.isSome_iff_exists.mp hstop
  rw [serverTurn, hstart, hstop]
  refine (timespecGet_returns (t := s.internalClock) (by decide) rfl).bind fun _ s1 h1 => ?_
  have htick : (serverTick.run s1).2.internalClock.Is (s.internalClock.ns+50000000) := by
    rw [← h1]
    exact serverTick_adds (h1 ▸ h)
  refine Returns.bind (P := fun _ s2 => s2 = (serverTick.run s1).2) ⟨(), _, rfl, rfl⟩ fun _ s2 h2 => ?_
  subst h2
  refine (setTimes_returns (fun mem => timespecAddraw_of_ne mem _ (by decide)) rfl).bind
    fun _ s3 h3 => ?_
  refine (timespecGet_returns (by decide) h3).bind fun _ s4 h4 => ?_
  refine Returns.bind (P := fun s5 s6 => s6 = s4 ∧ s5 = s4) ⟨_, _, rfl, rfl, rfl⟩ fun _ _ h5 => ?_
  obtain ⟨rfl, rfl⟩ := h5
  -- neither branch of the comparison sets the clock
  split
  · refine (setTimes_returns (fun _ => Function.update_of_ne (by decide) _ _) h4).bind
      fun _ s7 h7 => ?_
    rw [← h7] at htick
    exact ⟨(), _, rfl, htick⟩
  · rw [← h4] at htick
    exact ⟨(), _, rfl, htick⟩

/-- The main loop keeps the clock in step, for any number of turns. -/
theorem serverLoop_adds {turns : List LoopTurn} (hturns : ∀ turn ∈ turns, turn.Timed)
    (h : s.internalClock.Normal) : Returns (serverLoop turns) s fun _ s' =>
      s'.internalClock.Is (s.internalClock.ns+turns.length*50000000) := by
  induction turns generalizing s with
  | nil => exact Returns.pure ⟨h, by simp⟩
  | cons turn turns ih =>
    rw [List.forall_mem_cons] at hturns
    refine (serverTurn_adds hturns.1 h).bind fun _ s' hs' => (ih hturns.2 hs'.normal).mono ?_
    intro _ t ht
    rw [hs'.ns_eq] at ht
    convert ht using 1
    rw [List.length_cons]
    push_cast
    ring

/-- A turn that took less than a tick sleeps for what is left of it. -/
theorem serverTurn_sleeps {start stop : Timespec} (hstart : start.Normal) (hstop : stop.Normal)
    (hlt : stop.ns < start.ns+50000000) (s : ServerClock) :
    Returns (serverTurn { start := some start, stop := some stop }) s fun _ s' =>
      ∃ d : Timespec, s'.sleeps = s.sleeps ++ [d] ∧ d.Is (start.ns+50000000-stop.ns) := by
  set mem1 := Function.update s.mem .start start with hmem1
  set mem2 := timespecAdd (setNsec (setSec mem1 .addend 0) .addend tickDurationNs)
    .internalClock .internalClock .addend with hmem2
  set mem3 := timespecAddraw mem2 .shouldStopAt .start 0 tickDurationNs with hmem3
  -- neither the tick nor the sum touches the start
  have hkept : mem2 .start = start := by
    rw [hmem2, timespecAdd_of_ne _ _ (by decide), setNsec_of_ne _ _ (by decide),
      setSec_of_ne _ _ (by decide), hmem1, Function.update_self]
  have hshould : (mem3 .shouldStopAt).Is (start.ns+50000000) := by
    have hadd : (mem3 .shouldStopAt).Is ((mem2 .start).ns+(0*1000000000+tickDurationNs)) := by
      apply timespecAddraw_is
      · rw [hkept]
        exact hstart
      · decide
      · decide
    rwa [hkept] at hadd
  set mem4 := Function.update mem3 .stop stop with hmem4
  have hshould4 : mem4 .shouldStopAt = mem3 .shouldStopAt := Function.update_of_ne (by decide) _ _
  have hstop4 : mem4 .stop = stop := Function.update_self ..
  have hcmp : timespecCmp (mem4 .shouldStopAt) (mem4 .stop) > 0 := by
    rw [hshould4, hstop4, timespecCmp_eq hshould.normal hstop, hshould.ns_eq,
      Int.sign_eq_one_of_pos (by omega)]
    exact Int.one_pos
  have hdiff : (timespecDiff (mem4 .stop) (mem4 .shouldStopAt)).Is (start.ns+50000000-stop.ns) := by
    rw [hshould4, hstop4, ← hshould.ns_eq]
    exact timespecDiff_is hstop hshould.normal
  have hrun : (serverTurn { start := some start, stop := some stop }).run s = (.ok (), {
      mem := Function.update mem4 .diff (timespecDiff (mem4 .stop) (mem4 .shouldStopAt))
      sleeps := s.sleeps ++ [timespecDiff (mem4 .stop) (mem4 .shouldStopAt)] }) := by
    simp only [serverTurn, timespecGet, setTimes, bind_run, modify_run, get_run, ite_run,
      serverTick_run]
    rw [if_pos hcmp]
    rfl
  exact ⟨(), _, hrun, _, rfl, hdiff⟩

end Clock

section Exact

/-- The helpers are exact, the clock keeps in step over any number of ticks and of turns of the main
loop, and a turn that ends early is filled up to 50 ms. -/
structure TimeExact : Prop where
  add : ∀ {α : Type} [DecidableEq α] (mem : TimeStore α) (result p1 p2 : α), (mem p1).Normal →
    (mem p2).Normal → (timespecAdd mem result p1 p2 result).Is ((mem p1).ns+(mem p2).ns)
  diff : ∀ start stop : Timespec, start.Normal → stop.Normal →
    (timespecDiff start stop).Is (stop.ns-start.ns)
  addraw : ∀ {α : Type} [DecidableEq α] (mem : TimeStore α) (result p : α) (sec nsec : ℤ),
    (mem p).Normal → 0 ≤ nsec → nsec < 1000000000 →
      (timespecAddraw mem result p sec nsec result).Is ((mem p).ns+(sec*1000000000+nsec))
  ms : ∀ ms : UInt64, (msToTimespec ms).Is (ms.toNat*1000000)
  cmp : ∀ t1 t2 : Timespec, t1.Normal → t2.Normal → timespecCmp t1 t2 = (t1.ns-t2.ns).sign
  ticks : ∀ (k : ℕ) (s : ServerClock), s.internalClock.Normal →
    ((fun s => (serverTick.run s).2)^[k] s).internalClock.Is (s.internalClock.ns+k*50000000)
  clock : ∀ (turns : List LoopTurn) (s : ServerClock), (∀ turn ∈ turns, turn.Timed) →
    s.internalClock.Normal → ∃ s', (serverLoop turns).run s = (.ok (), s') ∧
      s'.internalClock.Is (s.internalClock.ns+turns.length*50000000)
  sleep : ∀ (start stop : Timespec) (s : ServerClock), start.Normal → stop.Normal →
    start.ns ≤ stop.ns → stop.ns < start.ns+50000000 →
      ∃ s' d, (serverTurn { start := some start, stop := some stop }).run s = (.ok (), s') ∧
        s'.sleeps = s.sleeps ++ [d] ∧ d.Normal ∧ 0 < d.ns ∧ d.ns ≤ 50000000 ∧
          stop.ns+d.ns = start.ns+50000000

theorem time_exact : TimeExact where
  add := fun mem result _ _ h1 h2 => timespecAdd_is mem result h1 h2
  diff := fun _ _ h1 h2 => timespecDiff_is h1 h2
  addraw := fun mem result _ _ _ h h0 h1 => timespecAddraw_is mem result h h0 h1
  ms := msToTimespec_is
  cmp := fun _ _ h1 h2 => timespecCmp_eq h1 h2
  ticks := fun k _ h => serverTicks_add k h
  clock := by
    intro turns s hturns h
    obtain ⟨_, s', hrun, hclock⟩ := serverLoop_adds hturns h
    exact ⟨s', hrun, hclock⟩
  sleep := by
    intro start stop s hstart hstop hle hlt
    obtain ⟨_, s', hrun, d, hsleeps, hd⟩ := serverTurn_sleeps hstart hstop hlt s
    have hns := hd.ns_eq
    exact ⟨s', d, hrun, hsleeps, hd.normal, by omega, by omega, by omega⟩

/-- A second that is filled up: the sum is put where one of its summands was. -/
example : (timespecAdd (fun _ : Unit => { tvSec := 3, tvNsec := 600000000 }) () () ()) () =
    { tvSec := 7, tvNsec := 200000000 } := by decide

/-- Three turns of the main loop move the clock into the next second. -/
example : ((serverLoop (List.replicate 3 { start := some default, stop := some default })).run
    { mem := fun _ => { tvSec := 4, tvNsec := 900000000 }, sleeps := [] }).2.internalClock =
      { tvSec := 5, tvNsec := 50000000 } := by decide

end Exact

end Stronk.Mcpr
