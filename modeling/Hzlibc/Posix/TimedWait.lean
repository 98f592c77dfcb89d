import Hzlibc.Internal.Cond
import Hzlibc.Posix.Semaphore

/-!
The timeouts of `sem_timedwait`, `thread_cond_timedwait` and `pthread_cond_clockwait`.

All three are given a point in time, read a clock, and pass the difference on to a futex
wait. Seconds and nanoseconds are subtracted on their own: nothing is carried from the
one to the other.

What a call meets on its way is given by an environment: what the clocks show, how the
waits end, and which exchanges of the semaphore's word fail. A call is followed for a
number of rounds, and leaves a row of events.
-/

namespace Hzlibc.Posix.TimedWait

open Concurrency
open Internal.Cond (relativeTimeout timedwaitClock afterLock)
open Semaphore (semTimedwaitLoop afterFutex semaphoreCountMask)

/-- What happens in each round. An exchange that fails gives the word it found. -/
structure Env where
  clock : ℤ → ℕ → ClockResult
  futex : ℕ → WaitResult
  found : ℕ → Option (BitVec 32)

inductive Event
  /-- The clock showed `current`, and `timeout` was passed to the futex wait. -/
  | waits (current timeout : Timespec)
  /-- A futex wait without a timeout. -/
  | waitsForever
  /-- The clock showed `current`, and the call returned `ETIMEDOUT`. -/
  | expired (current : Timespec)
  deriving DecidableEq

def clockRealtime : ℤ := 0

/-- The test of all three functions. -/
def IsExpired (timeout : Timespec) : Prop :=
  timeout.tvSec < 0 ∨ timeout.tvSec = 0 ∧ timeout.tvNsec < 0

instance (timeout : Timespec) : Decidable (IsExpired timeout) :=
  inferInstanceAs (Decidable (_ ∨ _))

/-- The loop of `thread_cond_timedwait` and `pthread_cond_clockwait`, from round `i` on. -/
def condLoop (env : Env) (clockId : ℤ) (absTimeout : Timespec) : ℕ → ℕ → List Event
  | 0, _ => []
  | n + 1, i =>
    match env.clock clockId i with
    | .fails _ => []
    | .now current =>
      let timeout := relativeTimeout absTimeout current
      if IsExpired timeout then [.expired current]
      else
        .waits current timeout ::
          match env.futex i with
          | .intr => condLoop env clockId absTimeout n (i + 1)
          | .ok | .again | .timedOut | .inval => []

/-- The clock is the one the condition variable was made with. -/
def threadCondTimedwait (env : Env) (clock : ℤ) (absTimeout : Option Timespec) (rounds : ℕ) :
    List Event :=
  match absTimeout with
  | none => [.waitsForever]
  | some absTimeout => condLoop env clock absTimeout rounds 0

def pthreadCondClockwait (env : Env) (clockId : ℤ) (absTimeout : Option Timespec) (rounds : ℕ) :
    List Event :=
  match absTimeout with
  | none => [.waitsForever]
  | some absTimeout => condLoop env clockId absTimeout rounds 0

/-- The loop of `sem_timedwait`, from round `i` on. -/
def semLoop (env : Env) (absTimeout : Option Timespec) : ℕ → ℕ → BitVec 32 → List Event
  | 0, _, _ => []
  | n + 1, i, state =>
    match env.found i with
    | some found => semLoop env absTimeout n (i + 1) found
    | none =>
      if state &&& semaphoreCountMask = 0#32 then
        match absTimeout with
        | none =>
          .waitsForever ::
            match env.futex i with
            | .ok | .again => semLoop env absTimeout n (i + 1) state
            | .intr | .timedOut | .inval => []
        | some ts =>
          match env.clock clockRealtime i with
          | .fails _ => []
          | .now current =>
            let timeout := relativeTimeout ts current
            if IsExpired timeout then [.expired current]
            else
              .waits current timeout ::
                match env.futex i with
                | .ok | .again => semLoop env absTimeout n (i + 1) state
                | .intr | .timedOut | .inval => []
      else []

def semTimedwait (env : Env) (absTimeout : Option Timespec) (rounds : ℕ) : List Event :=
  semLoop env absTimeout rounds 0 0#32

/-! ### The programs

The loops are those of the programs: from one reading of the clock to the next, a thread goes
on where the loop goes on, and its call ends where the loop ends. -/

section Programs

variable {ι : Type*} [DecidableEq ι] (t : ι) (env : Env) (absTimeout : Timespec) (n i : ℕ)

theorem condLoop_program (ids : Internal.Mutex.ThreadIds ι) (clockId : ℤ) (value : BitVec 32)
    (signals : ℕ) (s : Internal.Cond.Shared ι) {l : Internal.Cond.Local}
    (hpc : l.pc = .waitClock absTimeout) :
    ∃ pc, Internal.Cond.program ids t (.clock (env.clock clockId i)) s l = some (s, l.at pc) ∧
      ((∃ e, pc = .idle (some (.clock e)) ∧ condLoop env clockId absTimeout (n + 1) i = []) ∨
        (∃ current, pc = .idle (some .timedOut) ∧
          condLoop env clockId absTimeout (n + 1) i = [.expired current]) ∨
        ∃ current timeout, pc = .waitLoad (some (absTimeout, timeout)) ∧
          condLoop env clockId absTimeout (n + 1) i = .waits current timeout ::
            if afterLock ⟨value, signals, some (absTimeout, timeout)⟩ (env.futex i) =
              .waitClock absTimeout then condLoop env clockId absTimeout n (i + 1) else []) := by
  refine ⟨timedwaitClock absTimeout (env.clock clockId i),
    by simp [Internal.Cond.program, hpc, Act.onClock], ?_⟩
  cases hclock : env.clock clockId i with
  | fails e => exact .inl ⟨e, rfl, by simp [condLoop, hclock]⟩
  | now current =>
    by_cases hexpired : IsExpired (relativeTimeout absTimeout current)
    · exact .inr (.inl ⟨current, if_pos hexpired, by simp [condLoop, hclock, hexpired]⟩)
    · refine .inr (.inr ⟨current, _, if_neg hexpired, ?_⟩)
      simp only [condLoop, hclock, if_neg hexpired]
      cases env.futex i <;> simp [afterLock]

theorem semLoop_program {s : Semaphore.Shared ι} (hfound : env.found i = none) :
    (∃ s', Semaphore.program t .run s (.waitLoop (some absTimeout) s.state) =
        some (s', .idle (some .ok)) ∧ semLoop env (some absTimeout) (n + 1) i s.state = []) ∨
      ∃ s' pc, Semaphore.program t .run s (.waitLoop (some absTimeout) s.state) =
          some (s', .waitClock absTimeout s.state) ∧
        Semaphore.program t (.clock (env.clock clockRealtime i)) s'
          (.waitClock absTimeout s.state) = some (s', pc) ∧
        ((∃ e, pc = .idle (some (.fail e)) ∧
            semLoop env (some absTimeout) (n + 1) i s.state = []) ∨
          (∃ current, pc = .idle (some (.fail .etimedout)) ∧
            semLoop env (some absTimeout) (n + 1) i s.state = [.expired current]) ∨
          ∃ current, pc = .waitFutex (some absTimeout) s.state ∧
            semLoop env (some absTimeout) (n + 1) i s.state =
              .waits current (relativeTimeout absTimeout current) ::
                if afterFutex (some absTimeout) s.state (env.futex i) =
                  .waitLoop (some absTimeout) s.state
                then semLoop env (some absTimeout) n (i + 1) s.state else []) := by
  by_cases hzero : s.state &&& semaphoreCountMask = 0#32
  · refine .inr ⟨{ s with state := Semaphore.semaphoreWaiters }, _, ?_, rfl, ?_⟩
    · simp [Semaphore.program, semTimedwaitLoop, hzero, compareExchangeWeak]
    · cases hclock : env.clock clockRealtime i with
      | fails e => exact .inl ⟨e, rfl, by simp [semLoop, hfound, hzero, hclock]⟩
      | now current =>
        by_cases hexpired : IsExpired (relativeTimeout absTimeout current)
        · exact .inr (.inl ⟨current, if_pos hexpired, by
            simp [semLoop, hfound, hzero, hclock, hexpired]⟩)
        · refine .inr (.inr ⟨current, if_neg hexpired, ?_⟩)
          simp only [semLoop, hfound, hzero, hclock, if_neg hexpired]
          cases env.futex i <;> simp [afterFutex]
  · refine .inl ⟨s.take (s.state - 1), ?_, by simp [semLoop, hfound, hzero]⟩
    simp [Semaphore.program, semTimedwaitLoop, hzero, compareExchangeStrong]

end Programs

/-! ### Points in time -/

def nanos : ℤ := 1000000000

/-- The time in nanoseconds. -/
def total (ts : Timespec) : ℤ := ts.tvSec * nanos + ts.tvNsec

def Normal (ts : Timespec) : Prop := 0 ≤ ts.tvNsec ∧ ts.tvNsec < nanos

/-- A timeout that the kernel accepts, for the time that is left. -/
def Exact (absTimeout current timeout : Timespec) : Prop :=
  Normal timeout ∧ 0 ≤ timeout.tvSec ∧ total timeout = total absTimeout - total current

/-- A second has to be carried over to the nanoseconds. -/
def Carry (absTimeout current : Timespec) : Prop :=
  current.tvSec < absTimeout.tvSec ∧ absTimeout.tvNsec < current.tvNsec

/-- What an event has to be like: a wait is for the time that is left, and there is none
when the time is over. -/
def Event.Right (absTimeout : Timespec) : Event → Prop
  | .waits current timeout => Exact absTimeout current timeout
  | .waitsForever => True
  | .expired current => total absTimeout < total current

def Event.current : Event → Option Timespec
  | .waits current _ | .expired current => some current
  | .waitsForever => none

section

variable {absTimeout current : Timespec} (habs : Normal absTimeout) (hcur : Normal current)

include habs hcur

theorem isExpired_iff :
    IsExpired (relativeTimeout absTimeout current) ↔ total absTimeout < total current := by
  simp only [IsExpired, Normal, relativeTimeout, total, nanos] at *
  omega

theorem exact_iff (h : ¬IsExpired (relativeTimeout absTimeout current)) :
    Exact absTimeout current (relativeTimeout absTimeout current) ↔ ¬Carry absTimeout current := by
  simp only [IsExpired, Exact, Normal, Carry, relativeTimeout, total, nanos] at *
  omega

omit habs hcur in
theorem not_carry_of_isExpired (h : IsExpired (relativeTimeout absTimeout current)) :
    ¬Carry absTimeout current := by
  simp only [IsExpired, Carry, relativeTimeout] at *
  omega

end

/-! ### The events of a call -/

/-- The clocks show points in time. -/
def Env.Normal (env : Env) : Prop := ∀ id i current, env.clock id i = .now current →
  TimedWait.Normal current

/-- What one round of any of the loops can leave. -/
inductive Round (absTimeout : Timespec) : Event → Prop
  | waits {current : Timespec} (hcur : Normal current)
      (h : ¬IsExpired (relativeTimeout absTimeout current)) :
      Round absTimeout (.waits current (relativeTimeout absTimeout current))
  | expired {current : Timespec} (hcur : Normal current)
      (h : IsExpired (relativeTimeout absTimeout current)) : Round absTimeout (.expired current)

theorem Round.right_iff_not_carry {absTimeout : Timespec} {e : Event} (h : Round absTimeout e)
    (habs : Normal absTimeout) :
    e.Right absTimeout ↔ ∀ current ∈ e.current, ¬Carry absTimeout current := by
  cases h with
  | waits hcur hexpired =>
    simp [Event.Right, Event.current, exact_iff habs hcur hexpired]
  | expired hcur hexpired =>
    have hnot := not_carry_of_isExpired hexpired
    simp [Event.Right, Event.current, ← isExpired_iff habs hcur, hexpired, hnot]

variable {env : Env} {absTimeout : Timespec}

/-- One reading of the clock, and the rounds behind the wait that follows it. -/
theorem rounds_of_now {current : Timespec} {events : List Event} (hcur : Normal current)
    (hevents : ∀ e ∈ events, Round absTimeout e) :
    ∀ e ∈ if IsExpired (relativeTimeout absTimeout current) then [.expired current]
      else .waits current (relativeTimeout absTimeout current) :: events, Round absTimeout e := by
  by_cases hexpired : IsExpired (relativeTimeout absTimeout current)
  · simp [if_pos hexpired]
    exact .expired hcur hexpired
  · simp [if_neg hexpired]
    exact ⟨.waits hcur hexpired, hevents⟩

theorem condLoop_rounds (henv : env.Normal) (clockId : ℤ) (n i : ℕ) :
    ∀ e ∈ condLoop env clockId absTimeout n i, Round absTimeout e := by
  induction n generalizing i with
  | zero => exact nofun
  | succ n ih =>
    rw [condLoop]
    cases hclock : env.clock clockId i with
    | fails err => exact nofun
    | now current =>
      refine rounds_of_now (henv clockId i current hclock) ?_
      cases env.futex i with
      | intr => exact ih (i + 1)
      | ok | again | timedOut | inval => exact nofun

theorem semLoop_rounds (henv : env.Normal) (n i : ℕ) (state : BitVec 32) :
    ∀ e ∈ semLoop env (some absTimeout) n i state, Round absTimeout e := by
  induction n generalizing i state with
  | zero => exact nofun
  | succ n ih =>
    rw [semLoop]
    cases env.found i with
    | some found => exact ih (i + 1) found
    | none =>
      by_cases hzero : state &&& semaphoreCountMask = 0#32
      · simp only [if_pos hzero]
        cases hclock : env.clock clockRealtime i with
        | fails err => exact nofun
        | now current =>
          refine rounds_of_now (henv clockRealtime i current hclock) ?_
          cases env.futex i with
          | ok | again => exact ih (i + 1) state
          | intr | timedOut | inval => exact nofun
      · simp only [if_neg hzero]
        exact nofun

def Right (absTimeout : Timespec) (events : List Event) : Prop :=
  ∀ e ∈ events, e.Right absTimeout

/-- No reading of the clock asks for a carry. -/
def NoCarry (absTimeout : Timespec) (events : List Event) : Prop :=
  ∀ e ∈ events, ∀ current ∈ e.current, ¬Carry absTimeout current

theorem right_iff_of_rounds {events : List Event} (h : ∀ e ∈ events, Round absTimeout e)
    (habs : Normal absTimeout) : Right absTimeout events ↔ NoCarry absTimeout events :=
  forall₂_congr fun e he => (h e he).right_iff_not_carry habs

/-- The timeouts are right as long as no reading of the clock has more nanoseconds in an
earlier second. -/
theorem timedWaits_right_iff (henv : env.Normal) (habs : Normal absTimeout) (clockId : ℤ)
    (rounds : ℕ) :
    (Right absTimeout (semTimedwait env (some absTimeout) rounds) ↔
      NoCarry absTimeout (semTimedwait env (some absTimeout) rounds)) ∧
    (Right absTimeout (threadCondTimedwait env clockId (some absTimeout) rounds) ↔
      NoCarry absTimeout (threadCondTimedwait env clockId (some absTimeout) rounds)) ∧
    (Right absTimeout (pthreadCondClockwait env clockId (some absTimeout) rounds) ↔
      NoCarry absTimeout (pthreadCondClockwait env clockId (some absTimeout) rounds)) :=
  ⟨right_iff_of_rounds (semLoop_rounds henv rounds 0 0#32) habs,
    right_iff_of_rounds (condLoop_rounds henv clockId rounds 0) habs,
    right_iff_of_rounds (condLoop_rounds henv clockId rounds 0) habs⟩

/-- A clock that stands still, and waits that end with the time. -/
def standing (current : Timespec) : Env :=
  ⟨fun _ _ => .now current, fun _ => .timedOut, fun _ => none⟩

theorem standing_normal {current : Timespec} (h : Normal current) : (standing current).Normal := by
  rintro id i _ ⟨rfl⟩
  exact h

theorem timedWaits_right_half :
    (standing ⟨1, 0⟩).Normal ∧ Normal ⟨1, 500000000⟩ ∧
      Right ⟨1, 500000000⟩ (semTimedwait (standing ⟨1, 0⟩) (some ⟨1, 500000000⟩) 1) := by
  have henv : (standing ⟨1, 0⟩).Normal := standing_normal ⟨by decide, by decide⟩
  have habs : Normal ⟨1, 500000000⟩ := ⟨by decide, by decide⟩
  refine ⟨henv, habs, (timedWaits_right_iff henv habs 0 1).1.mpr ?_⟩
  rintro e he current hcurrent
  obtain rfl := List.mem_singleton.mp he
  obtain rfl := Option.mem_some_iff.mp hcurrent
  exact fun hcarry => absurd hcarry.1 (by decide)

/-- With 0.9 s to go, all three pass a second and minus 100000000 ns. -/
theorem timedWaits_not_right :
    (standing ⟨1, 600000000⟩).Normal ∧ Normal ⟨2, 500000000⟩ ∧
      semTimedwait (standing ⟨1, 600000000⟩) (some ⟨2, 500000000⟩) 1
        = [.waits ⟨1, 600000000⟩ ⟨1, -100000000⟩] ∧
      threadCondTimedwait (standing ⟨1, 600000000⟩) 0 (some ⟨2, 500000000⟩) 1
        = [.waits ⟨1, 600000000⟩ ⟨1, -100000000⟩] ∧
      pthreadCondClockwait (standing ⟨1, 600000000⟩) 0 (some ⟨2, 500000000⟩) 1
        = [.waits ⟨1, 600000000⟩ ⟨1, -100000000⟩] ∧
      ¬Right ⟨2, 500000000⟩ [.waits ⟨1, 600000000⟩ ⟨1, -100000000⟩] := by
  refine ⟨standing_normal ⟨by decide, by decide⟩, ⟨by decide, by decide⟩, by decide, by decide,
    by decide, fun h => ?_⟩
  exact absurd (h _ List.mem_cons_self).1.1 (by decide)

end Hzlibc.Posix.TimedWait
