import Hzlibc.Concurrency.Futex
import Hzlibc.Search.Loop

/-!
Who releases the control block of a thread.

`hzlibc_thread_exit` releases the block of a detached thread, and then still writes the exit
status and the flag into it. `thread_join` releases the block of any other thread, after it has
seen the flag. `pthread_detach` only sets `detached`, which the exit reads once.

The log has the accesses to the block and its releases, newest first. A futex wake is given the
address of the flag and does not look at the flag itself.
-/

namespace Hzlibc.Internal.ThreadExit

open Concurrency Act

abbrev Ptr := BitVec 64

/-- The thread that exits, and the one that joins or detaches it. -/
inductive Party
  | thread | caller
  deriving DecidableEq, Repr

/-- `thread_join` with or without a place for the exit status. -/
inductive Call
  | join (ret : Bool)
  | detach
  deriving DecidableEq, Repr

inductive Ret
  | einval
  | joined (status : Option Ptr)
  | detached
  deriving DecidableEq, Repr

/-- Where the thread is in `hzlibc_thread_exit`, before the operation the constructor names. The
destructors make some more accesses to the block. -/
inductive ThreadPc
  | destructors (accesses : ℕ)
  | checkDetached | destroyTcb | writeStatus | storeExited | futexWake | exitThread | exited
  deriving DecidableEq, Repr

/-- Where the caller is; `none` has no call to make. -/
inductive CallerPc
  | none
  | enter (f : Call)
  | joinLoad (ret : Bool)
  | joinFutex (ret : Bool)
  | joinAsleep (ret : Bool)
  | joinStatus
  | joinDestroy (status : Option Ptr)
  | returned (r : Ret)
  deriving DecidableEq, Repr

inductive Event
  | access | destroyed
  deriving DecidableEq, Repr

structure State where
  detached : Bool
  exited : Bool
  exitStatus : Ptr
  asleep : Bool
  log : List Event
  thread : ThreadPc
  caller : CallerPc
  deriving DecidableEq, Repr

def State.logs (s : State) (e : Event) : State := { s with log := e :: s.log }

/-- A step of `hzlibc_thread_exit(ret)`. -/
def threadStep (ret : Ptr) (s : State) : Option State :=
  match s.thread with
  | .destructors 0 => some { s with thread := .checkDetached }
  | .destructors (n + 1) => some ({ s with thread := .destructors n }.logs .access)
  | .checkDetached =>
    some ({ s with thread := if s.detached then .destroyTcb else .writeStatus }.logs .access)
  | .destroyTcb => some ({ s with thread := .writeStatus }.logs .destroyed)
  | .writeStatus => some ({ s with thread := .storeExited, exitStatus := ret }.logs .access)
  | .storeExited => some ({ s with thread := .futexWake, exited := true }.logs .access)
  | .futexWake => some { s with thread := .exitThread, asleep := false }
  | .exitThread => some { s with thread := .exited }
  | .exited => none

/-- Where `thread_join` goes on with the flag it has loaded. -/
def joinLoaded (ret exited : Bool) : CallerPc :=
  if exited then (if ret then .joinStatus else .joinDestroy none) else .joinFutex ret

/-- A step of `thread_join` or `pthread_detach`. -/
def callerStep (a : Act Empty) (s : State) : Option State :=
  match s.caller with
  | .none | .returned _ => none
  | .enter (.join ret) =>
    a.onRun (some ({ s with
      caller := if s.detached then .returned .einval else .joinLoad ret }.logs .access))
  | .enter .detach =>
    a.onRun (some ({ s with detached := true, caller := .returned .detached }.logs .access))
  | .joinLoad ret =>
    a.onRun (some ({ s with caller := joinLoaded ret s.exited }.logs .access))
  | .joinFutex ret =>
    a.onUntimedWait
      (some ({ s with
        asleep := !s.exited
        caller := if s.exited then .joinLoad ret else .joinAsleep ret }.logs .access))
      fun _ => { s with caller := .joinLoad ret }.logs .access
  | .joinAsleep ret =>
    a.onUntimedWait (if s.asleep then none else some { s with caller := .joinLoad ret })
      fun _ => { s with asleep := false, caller := .joinLoad ret }
  | .joinStatus =>
    a.onRun (some ({ s with caller := .joinDestroy (some s.exitStatus) }.logs .access))
  | .joinDestroy status =>
    a.onRun (some ({ s with caller := .returned (.joined status) }.logs .destroyed))

def step (ret : Ptr) (s : State) (x : Party × Act Empty) : Option State :=
  match x.1 with
  | .thread => x.2.onRun (threadStep ret s)
  | .caller => callerStep x.2 s

/-- The thread is about to exit; `detached` is what its attributes said. -/
def start (detached : Bool) (accesses : ℕ) (call : Option Call) : State where
  detached := detached
  exited := false
  exitStatus := 0
  asleep := false
  log := []
  thread := .destructors accesses
  caller := call.elim .none .enter

/-- The thread has exited, and the call has returned. A thread that nobody joins or detaches keeps
its block, unless it was created detached. -/
def State.finished (detached : Bool) (s : State) : Prop :=
  s.thread = .exited ∧ ((∃ r, s.caller = .returned r) ∨ s.caller = .none ∧ detached = true)

/-- The block was released once, and no access came after. -/
def ReleasedOnce (log : List Event) : Prop :=
  ∃ before, log = .destroyed :: before ∧ .destroyed ∉ before

/-! ### A joined thread -/

/-- The flag is set. -/
def ThreadPc.published : ThreadPc → Bool
  | .futexWake | .exitThread | .exited => true
  | .destructors _ | .checkDetached | .destroyTcb | .writeStatus | .storeExited => false

/-- What holds while the thread is being joined. -/
def CallerPc.Joining (exited : Bool) (log : List Event) : CallerPc → Prop
  | .enter (.join _) | .joinLoad _ | .joinFutex _ | .joinAsleep _ => .destroyed ∉ log
  | .joinStatus | .joinDestroy _ => exited = true ∧ .destroyed ∉ log
  | .returned _ => exited = true ∧ ReleasedOnce log
  | .none | .enter .detach => False

structure Joined (s : State) : Prop where
  detached : s.detached = false
  exited : s.exited = s.thread.published
  thread : s.thread ≠ .destroyTcb
  caller : s.caller.Joining s.exited s.log

variable {log : List Event} {ret : Ptr} {s s' : State}

theorem not_mem_access (h : .destroyed ∉ log) : .destroyed ∉ .access :: log := by
  simpa using h

/-- Before the flag is set, the thread may access the block. -/
theorem CallerPc.Joining.access {pc : CallerPc} (h : pc.Joining false log) (exited : Bool) :
    pc.Joining exited (.access :: log) := by
  cases pc with
  | none => cases h
  | enter f =>
    cases f with
    | join ret => exact not_mem_access h
    | detach => cases h
  | joinLoad | joinFutex | joinAsleep => exact not_mem_access h
  | joinStatus | joinDestroy | returned => cases h.1

theorem joined_threadStep (hs : Joined s) (h : threadStep ret s = some s') : Joined s' := by
  obtain ⟨detached, exited, exitStatus, asleep, log, thread, caller⟩ := s
  obtain ⟨rfl, hexited, hthread, hcaller⟩ := hs
  obtain rfl : exited = thread.published := hexited
  cases thread with
  | destructors n =>
    cases n with
    | zero =>
      cases h
      exact ⟨rfl, rfl, nofun, hcaller⟩
    | succ n =>
      cases h
      exact ⟨rfl, rfl, nofun, CallerPc.Joining.access hcaller _⟩
  | checkDetached | writeStatus | storeExited =>
    cases h
    exact ⟨rfl, rfl, nofun, CallerPc.Joining.access hcaller _⟩
  | destroyTcb => exact absurd rfl hthread
  | futexWake | exitThread =>
    cases h
    exact ⟨rfl, rfl, nofun, hcaller⟩
  | exited => cases h

theorem joinLoaded_joining {ret exited : Bool} (h : .destroyed ∉ log) :
    (joinLoaded ret exited).Joining exited log := by
  cases exited with
  | true => cases ret <;> exact ⟨rfl, h⟩
  | false => exact h

theorem joined_callerStep {a : Act Empty} (hs : Joined s) (h : callerStep a s = some s') :
    Joined s' := by
  obtain ⟨detached, exited, exitStatus, asleep, log, thread, caller⟩ := s
  obtain ⟨rfl, hexited, hthread, hcaller⟩ := hs
  cases caller with
  | none | returned r => cases h
  | enter f =>
    cases f with
    | join ret =>
      obtain ⟨-, h⟩ := onRun_eq_some.mp h
      cases h
      exact ⟨rfl, hexited, hthread, not_mem_access hcaller⟩
    | detach => cases hcaller
  | joinLoad ret =>
    obtain ⟨-, h⟩ := onRun_eq_some.mp h
    cases h
    exact ⟨rfl, hexited, hthread, joinLoaded_joining (not_mem_access hcaller)⟩
  | joinFutex ret =>
    obtain ⟨-, h⟩ | ⟨r, -, -, h⟩ := onUntimedWait_eq_some.mp h
    · cases h
      refine ⟨rfl, hexited, hthread, ?_⟩
      cases exited <;> exact not_mem_access hcaller
    · cases h
      exact ⟨rfl, hexited, hthread, not_mem_access hcaller⟩
  | joinAsleep ret =>
    obtain ⟨-, h⟩ | ⟨r, -, -, h⟩ := onUntimedWait_eq_some.mp h
    · cases asleep with
      | true => cases h
      | false =>
        cases h
        exact ⟨rfl, hexited, hthread, hcaller⟩
    · cases h
      exact ⟨rfl, hexited, hthread, hcaller⟩
  | joinStatus =>
    obtain ⟨-, h⟩ := onRun_eq_some.mp h
    cases h
    exact ⟨rfl, hexited, hthread, hcaller.1, not_mem_access hcaller.2⟩
  | joinDestroy status =>
    obtain ⟨-, h⟩ := onRun_eq_some.mp h
    cases h
    exact ⟨rfl, hexited, hthread, hcaller.1, log, rfl, hcaller.2⟩

/-! ### Any other thread -/

/-- An access came after a release. -/
def Spoiled (log : List Event) : Prop := ∃ after before, log = after ++ .access :: before ∧
  .destroyed ∈ before

theorem Spoiled.cons (h : Spoiled log) (e : Event) : Spoiled (e :: log) := by
  obtain ⟨after, before, rfl, hmem⟩ := h
  exact ⟨e :: after, before, rfl, hmem⟩

theorem Spoiled.access (h : .destroyed ∈ log) : Spoiled (.access :: log) :=
  ⟨[], log, rfl, h⟩

theorem Spoiled.not_releasedOnce (h : Spoiled log) : ¬ReleasedOnce log := by
  rintro ⟨before, rfl, hnot⟩
  obtain ⟨after, earlier, heq, hmem⟩ := h
  cases after with
  | nil => cases heq
  | cons e after =>
    obtain ⟨-, rfl⟩ := List.cons.inj heq
    exact hnot (List.mem_append_right after (List.mem_cons_of_mem _ hmem))

/-- The caller does not release the block. -/
def CallerPc.Passive (detached : Bool) : CallerPc → Prop
  | .none | .enter .detach | .returned _ => True
  | .enter (.join _) => detached = true
  | .joinLoad _ | .joinFutex _ | .joinAsleep _ | .joinStatus | .joinDestroy _ => False

/-- The thread has released its block or not, and comes to write the exit status. -/
def ThreadPc.Releasing (log : List Event) : ThreadPc → Prop
  | .destructors _ | .checkDetached | .destroyTcb => .destroyed ∉ log
  | .writeStatus => True
  | .storeExited | .futexWake | .exitThread | .exited => .destroyed ∉ log ∨ Spoiled log

structure Unjoined (s : State) : Prop where
  caller : s.caller.Passive s.detached
  thread : s.thread.Releasing s.log

theorem ThreadPc.Releasing.access {pc : ThreadPc} (h : pc.Releasing log) :
    pc.Releasing (.access :: log) := by
  cases pc with
  | destructors | checkDetached | destroyTcb => exact not_mem_access h
  | writeStatus => trivial
  | storeExited | futexWake | exitThread | exited => exact h.imp not_mem_access (·.cons _)

theorem unjoined_threadStep (hs : Unjoined s) (h : threadStep ret s = some s') : Unjoined s' := by
  obtain ⟨detached, exited, exitStatus, asleep, log, thread, caller⟩ := s
  obtain ⟨hcaller, hthread⟩ := hs
  cases thread with
  | destructors n =>
    cases n with
    | zero =>
      cases h
      exact ⟨hcaller, hthread⟩
    | succ n =>
      cases h
      exact ⟨hcaller, not_mem_access hthread⟩
  | checkDetached =>
    cases h
    refine ⟨hcaller, ?_⟩
    cases detached with
    | true => exact not_mem_access hthread
    | false => trivial
  | destroyTcb =>
    cases h
    exact ⟨hcaller, trivial⟩
  | writeStatus =>
    cases h
    refine ⟨hcaller, ?_⟩
    by_cases hmem : .destroyed ∈ log
    · exact .inr (.access hmem)
    · exact .inl (not_mem_access hmem)
  | storeExited =>
    cases h
    exact ⟨hcaller, hthread.imp not_mem_access (·.cons _)⟩
  | futexWake | exitThread =>
    cases h
    exact ⟨hcaller, hthread⟩
  | exited => cases h

theorem unjoined_callerStep {a : Act Empty} (hs : Unjoined s) (h : callerStep a s = some s') :
    Unjoined s' := by
  obtain ⟨detached, exited, exitStatus, asleep, log, thread, caller⟩ := s
  obtain ⟨hcaller, hthread⟩ := hs
  cases caller with
  | none | returned r => cases h
  | enter f =>
    cases f with
    | join ret =>
      obtain ⟨-, h⟩ := onRun_eq_some.mp h
      obtain rfl : detached = true := hcaller
      cases h
      exact ⟨trivial, hthread.access⟩
    | detach =>
      obtain ⟨-, h⟩ := onRun_eq_some.mp h
      cases h
      exact ⟨trivial, hthread.access⟩
  | _ => cases hcaller

theorem Unjoined.not_releasedOnce (hs : Unjoined s) (hpc : s.thread = .exited) :
    ¬ReleasedOnce s.log := by
  have hthread := hs.thread
  rw [hpc] at hthread
  obtain hnot | hspoiled := hthread
  · rintro ⟨before, heq, -⟩
    exact hnot (heq ▸ List.mem_cons_self)
  · exact hspoiled.not_releasedOnce

/-! ### Runs -/

theorem step_cases {x : Party × Act Empty} (h : step ret s x = some s') :
    threadStep ret s = some s' ∨ callerStep x.2 s = some s' := by
  obtain ⟨p, a⟩ := x
  cases p with
  | thread => exact .inl (onRun_eq_some.mp h).2
  | caller => exact .inr h

theorem joined_start (accesses : ℕ) (ret : Bool) :
    Joined (start false accesses (some (.join ret))) :=
  ⟨rfl, rfl, nofun, List.not_mem_nil⟩

theorem unjoined_start {detached : Bool} {call : Option Call} (accesses : ℕ)
    (h : ¬(detached = false ∧ ∃ r, call = some (.join r))) :
    Unjoined (start detached accesses call) := by
  refine ⟨?_, List.not_mem_nil⟩
  obtain _ | (r | _) := call
  · trivial
  · exact Bool.of_not_eq_false fun hd => h ⟨hd, r, rfl⟩
  · trivial

/-- When the thread has exited and the call has returned, the block was released once with no
access after, if and only if the thread was not created detached and the call was
`thread_join`. -/
theorem released_iff (detached : Bool) (accesses : ℕ) (call : Option Call) (ret : Ptr)
    (sched : List (Party × Act Empty)) (s : State)
    (hrun : sched.foldlM (step ret) (start detached accesses call) = some s)
    (hfinished : s.finished detached) :
    ReleasedOnce s.log ↔ detached = false ∧ ∃ r, call = some (.join r) := by
  constructor
  · intro hreleased
    by_contra hnot
    have hs : Unjoined s := Loop.foldlM_invariant (fun _ _ _ hs h =>
      (step_cases h).elim (unjoined_threadStep hs) (unjoined_callerStep hs))
      (unjoined_start accesses hnot) hrun
    exact hs.not_releasedOnce hfinished.1 hreleased
  · rintro ⟨rfl, r, rfl⟩
    have hs : Joined s := Loop.foldlM_invariant (fun _ _ _ hs h =>
      (step_cases h).elim (joined_threadStep hs) (joined_callerStep hs))
      (joined_start accesses r) hrun
    obtain ⟨r', hr'⟩ | ⟨-, hdetached⟩ := hfinished.2
    · have hcaller := hs.caller
      rw [hr'] at hcaller
      exact hcaller.2
    · cases hdetached

/-- The caller releases the block before the thread has come to its end. -/
def joining : List (Party × Act Empty) :=
  steps .thread 5 ++ steps .caller 4 ++ steps .thread 2

theorem released_joining : ∃ s,
    joining.foldlM (step 7) (start false 1 (some (.join true))) = some s ∧
    s.finished false ∧ s.caller = .returned (.joined (some 7)) ∧ ReleasedOnce s.log := by
  have hfinished : ∃ s, joining.foldlM (step 7) (start false 1 (some (.join true))) = some s ∧
      s.finished false ∧ s.caller = .returned (.joined (some 7)) :=
    ⟨_, rfl, ⟨rfl, .inl ⟨_, rfl⟩⟩, rfl⟩
  obtain ⟨s, hrun, hs, hcaller⟩ := hfinished
  exact ⟨s, hrun, hs, hcaller,
    (released_iff false 1 (some (.join true)) 7 joining s hrun hs).mpr ⟨rfl, true, rfl⟩⟩

/-- The thread is detached before it exits, and writes to the block that it has released. -/
theorem not_released_detached : ¬ ∀ (detached : Bool) (accesses : ℕ) (call : Option Call)
    (ret : Ptr) (sched : List (Party × Act Empty)) (s : State),
    sched.foldlM (step ret) (start detached accesses call) = some s → s.finished detached →
    ReleasedOnce s.log := by
  intro h
  obtain ⟨before, heq, -⟩ := h false 0 (some .detach) 0 (steps .caller 1 ++ steps .thread 7) _ rfl
    ⟨rfl, .inl ⟨_, rfl⟩⟩
  cases heq

end Hzlibc.Internal.ThreadExit
