import Mathlib.Data.Int.Notation
import Mathlib.Data.List.Basic

/-!
Atomic operations and waiting on a word.

A futex wait compares the word with the value the caller expects and puts the
caller to sleep when they agree; comparison and sleep are one step. The threads
asleep on a word stand in a list, longest sleeper first. A wake takes threads
off the list, and a thread that is off the list goes on the next time it is
scheduled. A sleeping thread may also be interrupted: a signal, a timeout or a
wakeup nobody asked for takes it off the list itself.

`Act` is what can happen to a thread at one step. `run` is the next operation
of the code, everything else is what the code has no say in.
-/

namespace Hzlibc.Concurrency

open Option

/-- The error codes the modelled calls hand out. -/
inductive Errno
  | eperm | eintr | eagain | ebusy | einval | edeadlk | eoverflow | etimedout
  deriving DecidableEq, Repr

/-- How a futex wait ends. -/
inductive WaitResult
  | ok | again | intr | timedOut | inval
  deriving DecidableEq, Repr

/-- How a futex wait without a timeout can end. -/
def WaitResult.untimed : WaitResult → Bool
  | .ok | .again | .intr => true
  | .timedOut | .inval => false

/-- A point in time, or a distance between two. -/
structure Timespec where
  tvSec : ℤ
  tvNsec : ℤ
  deriving DecidableEq, Repr

inductive ClockResult
  | now (ts : Timespec)
  | fails (e : Errno)
  deriving DecidableEq, Repr

/-- What happens to a thread at one step. -/
inductive Act (C : Type*)
  /-- The thread's client makes a call. -/
  | call (f : C)
  /-- The next operation of the code. -/
  | run
  /-- The next operation, a weak compare-exchange that fails on its own. -/
  | spurious
  /-- A futex wait ends with this result whatever the word holds. -/
  | interrupt (r : WaitResult)
  /-- A clock is read. -/
  | clock (r : ClockResult)
  deriving DecidableEq, Repr

/-! ### Schedules -/

/-- Thread `t` runs its next `k` operations. -/
def steps {ι C : Type*} (t : ι) (k : ℕ) : List (ι × Act C) := List.replicate k (t, .run)

namespace Act

variable {C β : Type*}

def onCall (a : Act C) (k : C → β) : Option β :=
  match a with
  | .call f => some (k f)
  | _ => none

def onRun (a : Act C) (r : Option β) : Option β :=
  match a with
  | .run => r
  | _ => none

def onClock (a : Act C) (k : ClockResult → β) : Option β :=
  match a with
  | .clock r => some (k r)
  | _ => none

/-- A step of a futex wait: what the wait does by itself, and what it does
when it is interrupted. -/
def onWait (a : Act C) (r : Option β) (k : WaitResult → β) : Option β :=
  match a with
  | .run => r
  | .interrupt e => some (k e)
  | _ => none

/-- A step of a futex wait that was given no timeout. -/
def onUntimedWait (a : Act C) (r : Option β) (k : WaitResult → β) : Option β :=
  match a with
  | .run => r
  | .interrupt e => if e.untimed then some (k e) else none
  | _ => none

/-- The action as one of a component the thread is inside of: calls and clocks
are not passed on. -/
def inner {D : Type*} : Act C → Option (Act D)
  | .run => some .run
  | .spurious => some .spurious
  | .interrupt r => some (.interrupt r)
  | .call _ | .clock _ => none

variable {a : Act C} {r : Option β} {x : β}

theorem onCall_eq_some {k : C → β} : a.onCall k = some x ↔ ∃ f, a = .call f ∧ k f = x := by
  cases a <;> simp [onCall]

theorem onRun_eq_some : a.onRun r = some x ↔ a = .run ∧ r = some x := by
  cases a <;> simp [onRun]

/-- A step that leads to a given state whenever it is made. -/
theorem onRun_some {S L : Type*} {s s' : S} {l l' : L}
    (h : a.onRun (some (s, l)) = some (s', l')) : s = s' ∧ l = l' :=
  Prod.mk.inj (some.inj (onRun_eq_some.mp h).2)

theorem onClock_eq_some {k : ClockResult → β} :
    a.onClock k = some x ↔ ∃ e, a = .clock e ∧ k e = x := by
  cases a <;> simp [onClock]

theorem onWait_eq_some {k : WaitResult → β} :
    a.onWait r k = some x ↔ a = .run ∧ r = some x ∨ ∃ e, a = .interrupt e ∧ k e = x := by
  cases a <;> simp [onWait]

theorem onUntimedWait_eq_some {k : WaitResult → β} :
    a.onUntimedWait r k = some x ↔
      a = .run ∧ r = some x ∨ ∃ e, a = .interrupt e ∧ e.untimed ∧ k e = x := by
  cases a <;> simp [onUntimedWait]

variable {P : Prop} [Decidable P] {y z : β} {k : WaitResult → β}

/-- A wait that sleeps if the word is as expected, and ends otherwise. -/
theorem onWait_sleep (h : a.onWait (if P then some y else some z) k = some x) (hz : k .again = z) :
    a = .run ∧ P ∧ y = x ∨ ∃ e, k e = x := by
  obtain ⟨ha, hr⟩ | ⟨e, -, he⟩ := onWait_eq_some.mp h
  · split at hr
    next hP => exact .inl ⟨ha, hP, some.inj hr⟩
    · exact .inr ⟨.again, hz.trans (some.inj hr)⟩
  · exact .inr ⟨e, he⟩

/-- A sleeper that goes on when it is off the list, or interrupted. -/
theorem onWait_asleep (h : a.onWait (if P then none else some y) k = some x) :
    ¬P ∧ y = x ∨ ∃ e, k e = x := by
  obtain ⟨-, hr⟩ | ⟨e, -, he⟩ := onWait_eq_some.mp h
  · exact .inl ((ite_none_left_eq_some.mp hr).imp_right some.inj)
  · exact .inr ⟨e, he⟩

theorem onUntimedWait_sleep (h : a.onUntimedWait (if P then some y else some z) k = some x)
    (hz : k .again = z) : P ∧ y = x ∨ ∃ e, e.untimed ∧ k e = x := by
  obtain ⟨-, hr⟩ | ⟨e, -, he⟩ := onUntimedWait_eq_some.mp h
  · split at hr
    next hP => exact .inl ⟨hP, some.inj hr⟩
    · exact .inr ⟨.again, rfl, hz.trans (some.inj hr)⟩
  · exact .inr ⟨e, he⟩

theorem onUntimedWait_asleep (h : a.onUntimedWait (if P then none else some y) k = some x) :
    ¬P ∧ y = x ∨ ∃ e, e.untimed ∧ k e = x := by
  obtain ⟨-, hr⟩ | ⟨e, -, he⟩ := onUntimedWait_eq_some.mp h
  · exact .inl ((ite_none_left_eq_some.mp hr).imp_right some.inj)
  · exact .inr ⟨e, he⟩

end Act

/-! ### Compare-exchange

Both forms report whether the word was exchanged; a caller that is told `false`
goes on with the word's current value as its new expectation. -/

section CompareExchange

variable {C : Type*} {w : ℕ}

def compareExchangeStrong (a : Act C) (word expected : BitVec w) : Option Bool :=
  match a with
  | .run => some (decide (word = expected))
  | _ => none

def compareExchangeWeak (a : Act C) (word expected : BitVec w) : Option Bool :=
  match a with
  | .run => some (decide (word = expected))
  | .spurious => some false
  | _ => none

variable {a : Act C} {word expected : BitVec w}

/-- A compare-exchange and what follows it. -/
theorem compareExchangeStrong_map {β : Type*} {k : Bool → β} {x : β}
    (h : (compareExchangeStrong a word expected).map k = some x) :
    a = .run ∧ word = expected ∧ k true = x ∨ k false = x := by
  cases a with
  | run => by_cases hword : word = expected <;> simp_all [compareExchangeStrong]
  | call | spurious | interrupt | clock => cases h

theorem compareExchangeWeak_map {β : Type*} {k : Bool → β} {x : β}
    (h : (compareExchangeWeak a word expected).map k = some x) :
    a = .run ∧ word = expected ∧ k true = x ∨ k false = x := by
  cases a with
  | spurious => exact .inr (some.inj h)
  | run => by_cases hword : word = expected <;> simp_all [compareExchangeWeak]
  | call | interrupt | clock => cases h

end CompareExchange

/-! ### The list of sleepers -/

section Sleepers

variable {ι : Type*} [DecidableEq ι]

/-- Thread `t` leaves the list of sleepers, if it stands there. -/
def leave (t : ι) (sleepers : List ι) : List ι := sleepers.filter (· ≠ t)

@[simp] theorem mem_leave {t u : ι} {sleepers : List ι} :
    u ∈ leave t sleepers ↔ u ∈ sleepers ∧ u ≠ t := by
  simp [leave]

end Sleepers

end Hzlibc.Concurrency
