import Hzlibc.Concurrency.FlagWord
import Hzlibc.Concurrency.Futex
import Hzlibc.Concurrency.Interleaving

/-!
`pthread_rwlock_rdlock`, `pthread_rwlock_wrlock` and `pthread_rwlock_unlock`.

The lock is a mutex, `state`, and a counter of readers, `writer_notify`. A
reader holds the mutex only while it counts itself in. A writer takes the mutex
for as long as it holds the lock, and waits for the counter to become zero.
Unlocking looks at the counter alone: at zero it is a writer that unlocks.

A waiting writer means to set the waiters bit in the counter, and sets all bits
of the count in its place.
-/

namespace Hzlibc.Posix.RwLock

open Concurrency Act

def mutexOwnerMask : BitVec 32 := 1#32 <<< 30 - 1
def mutexWaitersBit : BitVec 32 := 1#32 <<< 31
def mutexExclusiveBit : BitVec 32 := 1#32 <<< 30
def rcCountMask : BitVec 32 := 1#32 <<< 30 - 1
def rcWaitersBit : BitVec 32 := 1#32 <<< 31

inductive Call
  | rdlock | wrlock | unlock
  deriving DecidableEq, Repr

/-- Where a thread is: before the operation the constructor names. The first
five are the loop of `rwlock_mutex_lock`, for a writer or a reader. -/
inductive Pc
  | mutexLoad (exclusive : Bool)
  | mutexMark (exclusive : Bool) (expected : BitVec 32)
  | mutexFutex (exclusive : Bool) (expected : BitVec 32)
  | mutexAsleep (exclusive : Bool)
  | mutexTake (exclusive : Bool)
  | mutexUnlock
  | mutexWake
  | rdAdd
  | wrLoad
  | wrMark (rcExpected : BitVec 32)
  | wrFutex (rcExpected : BitVec 32)
  | wrAsleep
  | unlockLoad
  | unlockExchange (rcExpected : BitVec 32)
  | unlockWake
  | idle
  | panicked
  deriving DecidableEq, Repr

/-- A thread with the read locks it holds, from the increment of the counter to
the decrement, and whether it holds the write lock, from the return of
`pthread_rwlock_wrlock` until it gives the mutex away. -/
structure Local where
  pc : Pc
  reads : ℕ
  writer : Bool
  deriving DecidableEq, Repr

structure Shared (ι : Type*) where
  state : BitVec 32
  writerNotify : BitVec 32
  stateSleepers : List ι
  notifySleepers : List ι

def Local.at (l : Local) (pc : Pc) : Local := { l with pc := pc }

variable {ι : Type*}

/-- The loop of `rwlock_mutex_lock` from its head to the next operation. -/
def mutexNext (exclusive : Bool) (expected : BitVec 32) : Pc :=
  if expected ≠ 0#32 then
    if expected &&& mutexOwnerMask = 0#32 then .panicked
    else if expected &&& mutexWaitersBit = 0#32 then .mutexMark exclusive expected
    else .mutexFutex exclusive expected
  else .mutexTake exclusive

def mutexMark (exclusive : Bool) (expected : BitVec 32) (a : Act Call) (s : Shared ι)
    (l : Local) : Option (Shared ι × Local) :=
  (compareExchangeWeak a s.state expected).map fun
    | true => ({ s with state := expected ||| mutexWaitersBit },
        l.at (.mutexFutex exclusive expected))
    | false => (s, l.at (mutexNext exclusive s.state))

def mutexTake (exclusive : Bool) (a : Act Call) (s : Shared ι) (l : Local) :
    Option (Shared ι × Local) :=
  let desired := if exclusive then 1#32 ||| mutexExclusiveBit else 1#32
  (compareExchangeWeak a s.state 0#32).map fun
    | true => ({ s with state := desired }, l.at (if exclusive then .wrLoad else .rdAdd))
    | false => (s, l.at (mutexNext exclusive s.state))

/-- `rwlock_mutex_unlock`, the end of a read lock and of a writer's unlock. -/
def mutexUnlock (s : Shared ι) (l : Local) : Shared ι × Local :=
  let l' := { l with writer := false }
  if s.state &&& mutexWaitersBit ≠ 0#32 then ({ s with state := 0#32 }, l'.at .mutexWake)
  else ({ s with state := 0#32 }, l'.at .idle)

/-- The loop of `pthread_rwlock_wrlock` from its head to the next operation. -/
def wrNext (rcExpected : BitVec 32) (l : Local) : Local :=
  if rcExpected = 0#32 then { l with pc := .idle, writer := true }
  else if rcExpected &&& rcCountMask = 0#32 then l.at .panicked
  else if rcExpected &&& rcWaitersBit = 0#32 then l.at (.wrMark rcExpected)
  else l.at (.wrFutex rcExpected)

def wrMark (rcExpected : BitVec 32) (a : Act Call) (s : Shared ι) (l : Local) :
    Option (Shared ι × Local) :=
  (compareExchangeWeak a s.writerNotify rcExpected).map fun
    | true => ({ s with writerNotify := rcExpected ||| rcCountMask }, l.at (.wrFutex rcExpected))
    | false => (s, wrNext s.writerNotify l)

/-- The loop of `pthread_rwlock_unlock` from its head to the next operation. -/
def unlockNext (rcExpected : BitVec 32) : Pc :=
  if rcExpected &&& rcCountMask = 0#32 then .panicked else .unlockExchange rcExpected

def unlockLoad (s : Shared ι) : Pc :=
  if s.writerNotify = 0#32 then .mutexUnlock else unlockNext s.writerNotify

def unlockExchange (rcExpected : BitVec 32) (a : Act Call) (s : Shared ι) (l : Local) :
    Option (Shared ι × Local) :=
  let count := rcExpected &&& rcCountMask
  let l' := { l with reads := l.reads - 1 }
  (compareExchangeWeak a s.writerNotify rcExpected).map fun
    | true =>
      if count = 1#32 ∧ rcExpected &&& rcWaitersBit ≠ 0#32 then
        ({ s with writerNotify := 0#32 }, l'.at .unlockWake)
      else
        ({ s with writerNotify := rcExpected &&& ~~~ rcCountMask ||| (count - 1) }, l'.at .idle)
    | false => (s, l.at (unlockNext s.writerNotify))

/-- The result of a futex wait is not looked at. -/
def program [DecidableEq ι] : Program ι (Act Call) (Shared ι) Local := fun t a s l =>
  match l.pc with
  | .idle => a.onCall fun
      | .rdlock => (s, l.at (.mutexLoad false))
      | .wrlock => (s, l.at (.mutexLoad true))
      | .unlock => (s, l.at .unlockLoad)
  | .mutexLoad exclusive => a.onRun (some (s, l.at (mutexNext exclusive s.state)))
  | .mutexMark exclusive expected => mutexMark exclusive expected a s l
  | .mutexFutex exclusive expected =>
    a.onWait
      (if s.state = expected ||| mutexWaitersBit then
        some ({ s with stateSleepers := s.stateSleepers ++ [t] }, l.at (.mutexAsleep exclusive))
      else some (s, l.at (.mutexTake exclusive)))
      fun _ => (s, l.at (.mutexTake exclusive))
  | .mutexAsleep exclusive =>
    a.onWait
      (if t ∈ s.stateSleepers then none else some (s, l.at (.mutexTake exclusive)))
      fun _ => ({ s with stateSleepers := leave t s.stateSleepers }, l.at (.mutexTake exclusive))
  | .mutexTake exclusive => mutexTake exclusive a s l
  | .mutexUnlock => a.onRun (some (mutexUnlock s l))
  | .mutexWake => a.onRun (some ({ s with stateSleepers := [] }, l.at .idle))
  | .rdAdd =>
    a.onRun (some ({ s with writerNotify := s.writerNotify + 1 },
      { l with pc := .mutexUnlock, reads := l.reads + 1 }))
  | .wrLoad => a.onRun (some (s, wrNext s.writerNotify l))
  | .wrMark rcExpected => wrMark rcExpected a s l
  | .wrFutex rcExpected =>
    a.onWait
      (if s.writerNotify = rcExpected ||| rcWaitersBit then
        some ({ s with notifySleepers := s.notifySleepers ++ [t] }, l.at .wrAsleep)
      else some (s, l.at .wrLoad))
      fun _ => (s, l.at .wrLoad)
  | .wrAsleep =>
    a.onWait
      (if t ∈ s.notifySleepers then none else some (s, l.at .wrLoad))
      fun _ => ({ s with notifySleepers := leave t s.notifySleepers }, l.at .wrLoad)
  | .unlockLoad => a.onRun (some (s, l.at (unlockLoad s)))
  | .unlockExchange rcExpected => unlockExchange rcExpected a s l
  | .unlockWake => a.onRun (some ({ s with notifySleepers := [] }, l.at .idle))
  | .panicked => none

/-- What `pthread_rwlock_init` makes. -/
def start : Conf ι (Shared ι) Local :=
  ⟨{ state := 0#32, writerNotify := 0#32, stateSleepers := [], notifySleepers := [] },
    fun _ => { pc := .idle, reads := 0, writer := false }⟩

/-! ### What a step can do -/

/-- The loop of `rwlock_mutex_lock`. -/
def Pc.locking : Pc → Prop
  | .mutexLoad _ | .mutexMark _ _ | .mutexFutex _ _ | .mutexAsleep _ | .mutexTake _ => True
  | _ => False

/-- The loop of `pthread_rwlock_wrlock`. -/
def Pc.waitsToWrite : Pc → Prop
  | .wrLoad | .wrMark _ | .wrFutex _ | .wrAsleep => True
  | _ => False

inductive Trans (t : ι) (a : Act Call) (s : Shared ι) (l : Local) : Shared ι → Local → Prop
  | lock (exclusive) (ha : a = .call (if exclusive then .wrlock else .rdlock))
      (hpc : l.pc = .idle) : Trans t a s l s (l.at (.mutexLoad exclusive))
  | unlock (ha : a = .call .unlock) (hpc : l.pc = .idle) : Trans t a s l s (l.at .unlockLoad)
  | spin (queue pc') (hpc : l.pc.locking) (hpc' : pc'.locking ∨ pc' = .panicked) :
      Trans t a s l { s with stateSleepers := queue } (l.at pc')
  | mark (exclusive e) (hpc : l.pc = .mutexMark exclusive e) (hs : s.state = e) :
      Trans t a s l { s with state := e ||| mutexWaitersBit } (l.at (.mutexFutex exclusive e))
  | take (exclusive word) (hpc : l.pc = .mutexTake exclusive) (hs : s.state = 0#32)
      (hword : word ≠ 0#32) :
      Trans t a s l { s with state := word } (l.at (if exclusive then .wrLoad else .rdAdd))
  | release (pc') (hpc : l.pc = .mutexUnlock) (hpc' : pc' = .mutexWake ∨ pc' = .idle) :
      Trans t a s l { s with state := 0#32 } { l with pc := pc', writer := false }
  | wake (queue queue') (hpc : l.pc = .mutexWake ∨ l.pc = .unlockWake)
      (hsub : ∀ u ∈ queue', u ∈ s.notifySleepers) :
      Trans t a s l { s with stateSleepers := queue, notifySleepers := queue' } (l.at .idle)
  | add (ha : a = .run) (hpc : l.pc = .rdAdd) :
      Trans t a s l { s with writerNotify := s.writerNotify + 1 }
        { l with pc := .mutexUnlock, reads := l.reads + 1 }
  | look (hpc : l.pc = .wrLoad ∨ ∃ rc, l.pc = .wrMark rc) :
      Trans t a s l s (wrNext s.writerNotify l)
  | markReaders (rc) (ha : a = .run) (hpc : l.pc = .wrMark rc) (hs : s.writerNotify = rc) :
      Trans t a s l { s with writerNotify := rc ||| rcCountMask } (l.at (.wrFutex rc))
  | sleep (rc) (hpc : l.pc = .wrFutex rc) (hs : s.writerNotify = rc ||| rcWaitersBit) :
      Trans t a s l { s with notifySleepers := s.notifySleepers ++ [t] } (l.at .wrAsleep)
  | resume (queue) (hpc : (∃ rc, l.pc = .wrFutex rc) ∨ l.pc = .wrAsleep)
      (hsub : ∀ u ∈ queue, u ∈ s.notifySleepers) :
      Trans t a s l { s with notifySleepers := queue } (l.at .wrLoad)
  | unlockWriter (hpc : l.pc = .unlockLoad) (hs : s.writerNotify = 0#32) :
      Trans t a s l s (l.at .mutexUnlock)
  | unlockLook (hpc : l.pc = .unlockLoad ∧ s.writerNotify ≠ 0#32 ∨
      ∃ rc, l.pc = .unlockExchange rc) : Trans t a s l s (l.at (unlockNext s.writerNotify))
  | unlockLast (rc) (hpc : l.pc = .unlockExchange rc) (hs : s.writerNotify = rc)
      (hflag : rc &&& rcWaitersBit ≠ 0#32) :
      Trans t a s l { s with writerNotify := 0#32 }
        { l with pc := .unlockWake, reads := l.reads - 1 }
  | unlockOne (rc) (hpc : l.pc = .unlockExchange rc) (hs : s.writerNotify = rc) :
      Trans t a s l
        { s with writerNotify := rc &&& ~~~ rcCountMask ||| ((rc &&& rcCountMask) - 1) }
        { l with pc := .idle, reads := l.reads - 1 }

section Trans

variable {t : ι} {a : Act Call} {s s' : Shared ι} {l l' : Local}

theorem mutexNext_locking (exclusive : Bool) (e : BitVec 32) :
    (mutexNext exclusive e).locking ∨ mutexNext exclusive e = .panicked := by
  simp only [mutexNext]
  split
  · split
    · exact .inr rfl
    · split <;> exact .inl trivial
  · exact .inl trivial

theorem mutexMark_trans {exclusive : Bool} {e : BitVec 32} (hpc : l.pc = .mutexMark exclusive e)
    (h : mutexMark exclusive e a s l = some (s', l')) : Trans t a s l s' l' := by
  obtain ⟨-, hs, h⟩ | h := compareExchangeWeak_map h
  · cases h
    exact .mark exclusive e hpc hs
  · cases h
    exact .spin s.stateSleepers _ (by rw [hpc]; trivial) (mutexNext_locking exclusive _)

theorem mutexTake_trans {exclusive : Bool} (hpc : l.pc = .mutexTake exclusive)
    (h : mutexTake exclusive a s l = some (s', l')) : Trans t a s l s' l' := by
  obtain ⟨-, hs, h⟩ | h := compareExchangeWeak_map h
  · cases h
    exact .take exclusive _ hpc hs (by cases exclusive <;> decide)
  · cases h
    exact .spin s.stateSleepers _ (by rw [hpc]; trivial) (mutexNext_locking exclusive _)

theorem mutexUnlock_trans (hpc : l.pc = .mutexUnlock) (h : mutexUnlock s l = (s', l')) :
    Trans t a s l s' l' := by
  simp only [mutexUnlock] at h
  split at h
  · cases h
    exact .release _ hpc (.inl rfl)
  · cases h
    exact .release _ hpc (.inr rfl)

theorem wrMark_trans {rc : BitVec 32} (hpc : l.pc = .wrMark rc)
    (h : wrMark rc a s l = some (s', l')) : Trans t a s l s' l' := by
  obtain ⟨ha, hs, h⟩ | h := compareExchangeWeak_map h
  · cases h
    exact .markReaders rc ha hpc hs
  · cases h
    exact .look (.inr ⟨rc, hpc⟩)

theorem unlockLoad_trans (hpc : l.pc = .unlockLoad) : Trans t a s l s (l.at (unlockLoad s)) := by
  simp only [unlockLoad]
  split
  · rename_i hs
    exact .unlockWriter hpc hs
  · rename_i hs
    exact .unlockLook (.inl ⟨hpc, hs⟩)

theorem unlockExchange_trans {rc : BitVec 32} (hpc : l.pc = .unlockExchange rc)
    (h : unlockExchange rc a s l = some (s', l')) : Trans t a s l s' l' := by
  obtain ⟨-, hs, h⟩ | h := compareExchangeWeak_map h
  · simp only at h
    split at h
    · rename_i hlast
      cases h
      exact .unlockLast rc hpc hs hlast.2
    · cases h
      exact .unlockOne rc hpc hs
  · cases h
    exact .unlockLook (.inr ⟨rc, hpc⟩)

theorem program_trans [DecidableEq ι] (h : program t a s l = some (s', l')) :
    Trans t a s l s' l' := by
  simp only [program] at h
  split at h
  case h_1 hpc =>
    obtain ⟨f, ha, hf⟩ := onCall_eq_some.mp h
    cases f with
    | rdlock =>
      cases hf
      exact .lock false ha hpc
    | wrlock =>
      cases hf
      exact .lock true ha hpc
    | unlock =>
      cases hf
      exact .unlock ha hpc
  case h_2 exclusive hpc =>
    obtain ⟨rfl, rfl⟩ := onRun_some h
    exact .spin s.stateSleepers _ (by rw [hpc]; trivial) (mutexNext_locking exclusive _)
  case h_3 exclusive e hpc => exact mutexMark_trans hpc h
  case h_4 exclusive e hpc =>
    obtain ⟨-, -, ⟨⟩⟩ | ⟨-, ⟨⟩⟩ := onWait_sleep h rfl
    · exact .spin _ _ (by rw [hpc]; trivial) (.inl trivial)
    · exact .spin s.stateSleepers _ (by rw [hpc]; trivial) (.inl trivial)
  case h_5 exclusive hpc =>
    obtain ⟨-, ⟨⟩⟩ | ⟨-, ⟨⟩⟩ := onWait_asleep h
    · exact .spin s.stateSleepers _ (by rw [hpc]; trivial) (.inl trivial)
    · exact .spin _ _ (by rw [hpc]; trivial) (.inl trivial)
  case h_6 exclusive hpc => exact mutexTake_trans hpc h
  case h_7 hpc =>
    obtain ⟨-, hr⟩ := onRun_eq_some.mp h
    exact mutexUnlock_trans hpc (Option.some.inj hr)
  case h_8 hpc =>
    obtain ⟨rfl, rfl⟩ := onRun_some h
    exact .wake [] s.notifySleepers (.inl hpc) fun _ => id
  case h_9 hpc =>
    obtain ⟨ha, hr⟩ := onRun_eq_some.mp h
    cases hr
    exact .add ha hpc
  case h_10 hpc =>
    obtain ⟨rfl, rfl⟩ := onRun_some h
    exact .look (.inl hpc)
  case h_11 rc hpc => exact wrMark_trans hpc h
  case h_12 rc hpc =>
    obtain ⟨-, hs, ⟨⟩⟩ | ⟨-, ⟨⟩⟩ := onWait_sleep h rfl
    · exact .sleep rc hpc hs
    · exact .resume s.notifySleepers (.inl ⟨rc, hpc⟩) fun _ => id
  case h_13 hpc =>
    obtain ⟨-, ⟨⟩⟩ | ⟨-, ⟨⟩⟩ := onWait_asleep h
    · exact .resume s.notifySleepers (.inr hpc) fun _ => id
    · exact .resume _ (.inr hpc) fun u hu => (mem_leave.mp hu).1
  case h_14 hpc =>
    obtain ⟨rfl, rfl⟩ := onRun_some h
    exact unlockLoad_trans hpc
  case h_15 rc hpc => exact unlockExchange_trans hpc h
  case h_16 hpc =>
    obtain ⟨rfl, rfl⟩ := onRun_some h
    exact .wake s.stateSleepers [] (.inr hpc) fun u hu => absurd hu (by simp)
  case h_17 hpc => contradiction

end Trans

end Hzlibc.Posix.RwLock
