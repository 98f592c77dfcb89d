import Hzlibc.Concurrency.FlagWord
import Hzlibc.Concurrency.Futex
import Hzlibc.Concurrency.Interleaving

/-!
The mutex under `pthread_mutex_t` and `mtx_t`.

One word holds the id of the owner, zero when there is none, and in its top bit
that somebody sleeps on it. Next to it stand the kind of the mutex and the
number of times its owner has locked it; they are plain memory, and only the
owner touches them.

`WordInv` is about the word alone and holds in every run: a thread inside the
code that the owner runs is the owner, and a thread sleeps only while the flag
is set or a wake is on its way.
-/

namespace Hzlibc.Internal.Mutex

open Concurrency

def flagWaiting : BitVec 32 := 1#32 <<< 31

def pthreadMutexNormal : ℤ := 0
def pthreadMutexRecursive : ℤ := 1
def pthreadMutexErrorcheck : ℤ := 2

/-- What `sys_get_thread_id` hands out: distinct positive numbers below
`2 ^ 31`. -/
structure ThreadIds (ι : Type*) where
  id : ι → BitVec 32
  injective : Function.Injective id
  ne_zero : ∀ t, id t ≠ 0#32
  lt : ∀ t, (id t).toNat < 2 ^ 31

/-- Thread `t` has the id `t + 1`. -/
def twoThreads : ThreadIds (Fin 2) where
  id t := BitVec.ofNat 32 (t.val + 1)
  injective := by decide
  ne_zero := by decide
  lt := by decide

inductive Call
  | lock | trylock | unlock
  deriving DecidableEq, Repr

inductive Ret
  | ok
  | fail (e : Errno)
  deriving DecidableEq, Repr

/-- Where a thread is: before the operation the constructor names. `lockStore`
has just put its id into the word and still has to reset the recursion count,
`lockOwned` has found its own id there. -/
inductive Pc
  | idle (last : Option Ret)
  | enter (f : Call)
  | lockExchange
  | lockStore
  | lockOwned
  | lockMark (expected : BitVec 32)
  | lockFutex (expected : BitVec 32)
  | lockAsleep
  | unlockCount
  | unlockExchange
  | unlockWake
  | panicked
  deriving DecidableEq, Repr

/-- A thread with the number of its lock, trylock and unlock calls that have
returned zero. -/
structure Local where
  pc : Pc
  locked : ℕ
  unlocked : ℕ
  deriving DecidableEq, Repr

structure Shared (ι : Type*) where
  state : BitVec 32
  recursion : BitVec 32
  kind : ℤ
  sleepers : List ι

/-- The lock calls that have not been undone yet. -/
def Local.outstanding (l : Local) : ℕ := l.locked - l.unlocked

def Local.at (l : Local) (pc : Pc) : Local := { l with pc := pc }

def Local.hasLocked (l : Local) : Local :=
  { l with pc := .idle (some .ok), locked := l.locked + 1 }

def Local.hasUnlocked (l : Local) : Local :=
  { l with pc := .idle (some .ok), unlocked := l.unlocked + 1 }

@[simp] theorem Local.at_pc (l : Local) (pc : Pc) : (l.at pc).pc = pc := rfl

/-- The loop of `manual_lock` from its head to the next operation on memory,
in thread `id`. -/
def lockNext (id expected : BitVec 32) : Pc :=
  if expected = 0#32 then .lockExchange
  else if expected &&& ~~~ flagWaiting = id then .lockOwned
  else if expected &&& flagWaiting ≠ 0#32 then .lockFutex expected
  else .lockMark expected

/-- The compare-exchange that `manual_lock` starts with. -/
def manualLock {ι : Type*} (id : BitVec 32) (a : Act Call) (s : Shared ι) (l : Local) :
    Option (Shared ι × Local) :=
  (compareExchangeStrong a s.state 0#32).map fun
    | true => ({ s with state := id }, l.at .lockStore)
    | false => (s, l.at (lockNext id s.state))

def tryManualLock {ι : Type*} (id : BitVec 32) (a : Act Call) (s : Shared ι) (l : Local) :
    Option (Shared ι × Local) :=
  (compareExchangeStrong a s.state 0#32).map fun
    | true => ({ s with state := id }, l.at .lockStore)
    | false =>
      if s.state &&& ~~~ flagWaiting = id then (s, l.at .lockOwned)
      else (s, l.at (.idle (some (.fail .ebusy))))

/-- The owner locks again; `manual_lock` and `try_manual_lock` agree here. -/
def lockOwned {ι : Type*} (s : Shared ι) (l : Local) : Shared ι × Local :=
  if s.kind = pthreadMutexRecursive then
    ({ s with recursion := s.recursion + 1 }, l.hasLocked)
  else if s.kind = pthreadMutexErrorcheck then (s, l.at (.idle (some (.fail .edeadlk))))
  else (s, l.at .panicked)

def lockMark {ι : Type*} (id expected : BitVec 32) (a : Act Call) (s : Shared ι) (l : Local) :
    Option (Shared ι × Local) :=
  (compareExchangeWeak a s.state expected).map fun
    | true => ({ s with state := expected ||| flagWaiting },
        l.at (lockNext id (expected ||| flagWaiting)))
    | false => (s, l.at (lockNext id s.state))

def afterFutex (id : BitVec 32) : WaitResult → Pc
  | .ok | .again | .intr => lockNext id 0#32
  | .timedOut | .inval => .panicked

def manualUnlock {ι : Type*} (id : BitVec 32) (s : Shared ι) : Pc :=
  let oldState := s.state
  if oldState &&& ~~~ flagWaiting ≠ id then
    if s.kind = pthreadMutexNormal then .panicked else .idle (some (.fail .eperm))
  else if oldState = 0#32 then
    if s.kind = pthreadMutexNormal then .panicked else .idle (some (.fail .eperm))
  else .unlockCount

def unlockCount {ι : Type*} (s : Shared ι) (l : Local) : Shared ι × Local :=
  if (1#32).sle s.recursion then
    let s' := { s with recursion := s.recursion - 1 }
    if (0#32).slt s'.recursion then (s', l.hasUnlocked) else (s', l.at .unlockExchange)
  else (s, l.at .panicked)

def unlockExchange {ι : Type*} (s : Shared ι) (l : Local) : Shared ι × Local :=
  let oldState := s.state
  let s' := { s with state := 0#32 }
  if oldState &&& flagWaiting ≠ 0#32 then (s', l.at .unlockWake) else (s', l.hasUnlocked)

variable {ι : Type*}

def program [DecidableEq ι] (ids : ThreadIds ι) : Program ι (Act Call) (Shared ι) Local :=
  fun t a s l =>
    match l.pc with
    | .idle _ => a.onCall fun f => (s, l.at (.enter f))
    | .enter .lock => manualLock (ids.id t) a s l
    | .enter .trylock => tryManualLock (ids.id t) a s l
    | .enter .unlock => a.onRun (some (s, l.at (manualUnlock (ids.id t) s)))
    | .lockExchange => manualLock (ids.id t) a s l
    | .lockStore => a.onRun (some ({ s with recursion := 1 }, l.hasLocked))
    | .lockOwned => a.onRun (some (lockOwned s l))
    | .lockMark expected => lockMark (ids.id t) expected a s l
    | .lockFutex expected =>
      a.onWait
        (if s.state = expected then
          some ({ s with sleepers := s.sleepers ++ [t] }, l.at .lockAsleep)
        else some (s, l.at (afterFutex (ids.id t) .again)))
        fun r => (s, l.at (afterFutex (ids.id t) r))
    | .lockAsleep =>
      a.onWait
        (if t ∈ s.sleepers then none else some (s, l.at (afterFutex (ids.id t) .ok)))
        fun r => ({ s with sleepers := leave t s.sleepers }, l.at (afterFutex (ids.id t) r))
    | .unlockCount => a.onRun (some (unlockCount s l))
    | .unlockExchange => a.onRun (some (unlockExchange s l))
    | .unlockWake => a.onRun (some ({ s with sleepers := [] }, l.hasUnlocked))
    | .panicked => none

/-- A mutex of the given kind that nobody has touched yet. -/
def start (kind : ℤ) : Conf ι (Shared ι) Local :=
  ⟨{ state := 0#32, recursion := 0#32, kind := kind, sleepers := [] },
    fun _ => { pc := .idle none, locked := 0, unlocked := 0 }⟩

/-! ### What a step can do

The steps of the program, sorted by what they do to the mutex; every invariant
below is a case analysis over this list. -/

/-- The thread may run the compare-exchange from zero. -/
def Pc.tries : Pc → Prop
  | .enter .lock | .enter .trylock | .lockExchange => True
  | _ => False

theorem Pc.tries.ne {pc : Pc} (h : pc.tries) : pc ≠ .lockAsleep ∧ pc ≠ .unlockWake := by
  constructor <;> rintro rfl <;> exact h

/-- The pc a call ends with when it has changed nothing. -/
def Pc.quits : Pc → Prop
  | .idle _ | .panicked => True
  | _ => False

inductive Trans (id : BitVec 32) (t : ι) (s : Shared ι) (l : Local) : Shared ι → Local → Prop
  | call (last f) (hpc : l.pc = .idle last) : Trans id t s l s (l.at (.enter f))
  | take (hpc : l.pc.tries) (hfree : s.state = 0#32) :
      Trans id t s l { s with state := id } (l.at .lockStore)
  | look (hpc : l.pc.tries ∨ ∃ e, l.pc = .lockMark e) :
      Trans id t s l s (l.at (lockNext id s.state))
  | found (hpc : l.pc = .enter .trylock) (hown : s.state &&& ~~~ flagWaiting = id) :
      Trans id t s l s (l.at .lockOwned)
  | quit (pc') (hpc : l.pc = .enter .trylock ∨ l.pc = .enter .unlock ∨ l.pc = .lockOwned)
      (hpc' : pc'.quits) : Trans id t s l s (l.at pc')
  | store (hpc : l.pc = .lockStore) : Trans id t s l { s with recursion := 1 } l.hasLocked
  | again (hpc : l.pc = .lockOwned) (hkind : s.kind = pthreadMutexRecursive) :
      Trans id t s l { s with recursion := s.recursion + 1 } l.hasLocked
  | mark (e) (hpc : l.pc = .lockMark e) (hstate : s.state = e) :
      Trans id t s l { s with state := e ||| flagWaiting }
        (l.at (lockNext id (e ||| flagWaiting)))
  | sleep (e) (hpc : l.pc = .lockFutex e) (hstate : s.state = e) :
      Trans id t s l { s with sleepers := s.sleepers ++ [t] } (l.at .lockAsleep)
  | resume (sleepers pc') (hpc : (∃ e, l.pc = .lockFutex e) ∨ l.pc = .lockAsleep)
      (hsub : ∀ u, u ∈ sleepers ↔ u ∈ s.sleepers ∧ (l.pc = .lockAsleep → u ≠ t))
      (hpc' : pc' = .lockExchange ∨ pc' = .panicked) :
      Trans id t s l { s with sleepers := sleepers } (l.at pc')
  | check (hpc : l.pc = .enter .unlock) (hown : s.state &&& ~~~ flagWaiting = id) :
      Trans id t s l s (l.at .unlockCount)
  | drop (hpc : l.pc = .unlockCount) (hpos : (1#32).sle s.recursion)
      (hmore : (0#32).slt (s.recursion - 1)) :
      Trans id t s l { s with recursion := s.recursion - 1 } l.hasUnlocked
  | last (hpc : l.pc = .unlockCount) (hpos : (1#32).sle s.recursion)
      (hmore : ¬ (0#32).slt (s.recursion - 1)) :
      Trans id t s l { s with recursion := s.recursion - 1 } (l.at .unlockExchange)
  | corrupt (hpc : l.pc = .unlockCount) (hpos : ¬ (1#32).sle s.recursion) :
      Trans id t s l s (l.at .panicked)
  | release (hpc : l.pc = .unlockExchange) (hflag : s.state &&& flagWaiting = 0#32) :
      Trans id t s l { s with state := 0#32 } l.hasUnlocked
  | releaseFlag (hpc : l.pc = .unlockExchange) (hflag : s.state &&& flagWaiting ≠ 0#32) :
      Trans id t s l { s with state := 0#32 } (l.at .unlockWake)
  | wake (hpc : l.pc = .unlockWake) : Trans id t s l { s with sleepers := [] } l.hasUnlocked

section Trans

variable {id : BitVec 32} {t : ι} {a : Act Call} {s s' : Shared ι} {l l' : Local}

theorem manualLock_trans (hpc : l.pc.tries) (h : manualLock id a s l = some (s', l')) :
    Trans id t s l s' l' := by
  obtain ⟨-, hfree, h⟩ | h := compareExchangeStrong_map h
  · cases h
    exact .take hpc hfree
  · cases h
    exact .look (.inl hpc)

theorem tryManualLock_trans (hpc : l.pc = .enter .trylock)
    (h : tryManualLock id a s l = some (s', l')) : Trans id t s l s' l' := by
  obtain ⟨-, hfree, h⟩ | h := compareExchangeStrong_map h
  · cases h
    exact .take (by rw [hpc]; trivial) hfree
  · simp only at h
    split at h
    · rename_i hown
      cases h
      exact .found hpc hown
    · cases h
      exact .quit _ (.inl hpc) trivial

theorem lockOwned_trans (hpc : l.pc = .lockOwned) (h : lockOwned s l = (s', l')) :
    Trans id t s l s' l' := by
  simp only [lockOwned] at h
  split at h
  · rename_i hkind
    cases h
    exact .again hpc hkind
  · split at h
    all_goals
      cases h
      exact .quit _ (.inr (.inr hpc)) trivial

theorem lockMark_trans {e : BitVec 32} (hpc : l.pc = .lockMark e)
    (h : lockMark id e a s l = some (s', l')) : Trans id t s l s' l' := by
  obtain ⟨-, hstate, h⟩ | h := compareExchangeWeak_map h
  · cases h
    exact .mark e hpc hstate
  · cases h
    exact .look (.inr ⟨e, hpc⟩)

theorem manualUnlock_trans (hpc : l.pc = .enter .unlock) :
    Trans id t s l s (l.at (manualUnlock id s)) := by
  simp only [manualUnlock]
  split
  · split
    all_goals exact .quit _ (.inr (.inl hpc)) trivial
  · rename_i hown
    split
    · split
      all_goals exact .quit _ (.inr (.inl hpc)) trivial
    · exact .check hpc (not_not.mp hown)

theorem unlockCount_trans (hpc : l.pc = .unlockCount) (h : unlockCount s l = (s', l')) :
    Trans id t s l s' l' := by
  simp only [unlockCount] at h
  split at h
  · rename_i hpos
    split at h
    · rename_i hmore
      cases h
      exact .drop hpc hpos hmore
    · rename_i hmore
      cases h
      exact .last hpc hpos hmore
  · rename_i hpos
    cases h
    exact .corrupt hpc hpos

theorem unlockExchange_trans (hpc : l.pc = .unlockExchange)
    (h : unlockExchange s l = (s', l')) : Trans id t s l s' l' := by
  simp only [unlockExchange] at h
  split at h
  · rename_i hflag
    cases h
    exact .releaseFlag hpc hflag
  · rename_i hflag
    cases h
    exact .release hpc (not_not.mp hflag)

theorem afterFutex_cases (r : WaitResult) :
    afterFutex id r = .lockExchange ∨ afterFutex id r = .panicked := by
  cases r <;> simp [afterFutex, lockNext]

theorem program_trans [DecidableEq ι] {ids : ThreadIds ι}
    (h : program ids t a s l = some (s', l')) : Trans (ids.id t) t s l s' l' := by
  simp only [program] at h
  split at h
  case h_1 last hpc =>
    obtain ⟨f, -, hf⟩ := Act.onCall_eq_some.mp h
    cases hf
    exact .call last f hpc
  case h_2 hpc => exact manualLock_trans (by rw [hpc]; trivial) h
  case h_3 hpc => exact tryManualLock_trans hpc h
  case h_4 hpc =>
    obtain ⟨rfl, rfl⟩ := Act.onRun_some h
    exact manualUnlock_trans hpc
  case h_5 hpc => exact manualLock_trans (by rw [hpc]; trivial) h
  case h_6 hpc =>
    obtain ⟨rfl, rfl⟩ := Act.onRun_some h
    exact .store hpc
  case h_7 hpc =>
    obtain ⟨-, hr⟩ := Act.onRun_eq_some.mp h
    exact lockOwned_trans hpc (Option.some.inj hr)
  case h_8 e hpc => exact lockMark_trans hpc h
  case h_9 e hpc =>
    have hawake (u : ι) : u ∈ s.sleepers ↔ u ∈ s.sleepers ∧ (l.pc = .lockAsleep → u ≠ t) := by
      simp [hpc]
    obtain ⟨-, hstate, ⟨⟩⟩ | ⟨r, ⟨⟩⟩ := Act.onWait_sleep h rfl
    · exact .sleep e hpc hstate
    · exact .resume _ _ (.inl ⟨e, hpc⟩) hawake (afterFutex_cases r)
  case h_10 hpc =>
    obtain ⟨hout, ⟨⟩⟩ | ⟨r, ⟨⟩⟩ := Act.onWait_asleep h
    · refine .resume _ _ (.inr hpc) (fun u => ?_) (afterFutex_cases .ok)
      constructor
      · intro hu
        exact ⟨hu, fun _ he => hout (he ▸ hu)⟩
      · exact And.left
    · refine .resume _ _ (.inr hpc) (fun u => ?_) (afterFutex_cases r)
      simp [hpc]
  case h_11 hpc =>
    obtain ⟨-, hr⟩ := Act.onRun_eq_some.mp h
    exact unlockCount_trans hpc (Option.some.inj hr)
  case h_12 hpc =>
    obtain ⟨-, hr⟩ := Act.onRun_eq_some.mp h
    exact unlockExchange_trans hpc (Option.some.inj hr)
  case h_13 hpc =>
    obtain ⟨rfl, rfl⟩ := Act.onRun_some h
    exact .wake hpc
  case h_14 hpc => contradiction

end Trans

/-! ### The word -/

/-- The code that only the owner of the word runs. -/
def Pc.owning : Pc → Prop
  | .lockStore | .lockOwned | .unlockCount | .unlockExchange => True
  | _ => False

structure WordInv (ids : ThreadIds ι) (c : Conf ι (Shared ι) Local) : Prop where
  owner : ∀ t, (c.locals t).pc.owning → c.shared.state &&& ~~~ flagWaiting = ids.id t
  marked : ∀ t e, (c.locals t).pc = .lockFutex e → e &&& flagWaiting ≠ 0#32
  asleep : ∀ t ∈ c.shared.sleepers, (c.locals t).pc = .lockAsleep
  awake : c.shared.sleepers ≠ [] →
    c.shared.state &&& flagWaiting ≠ 0#32 ∨ ∃ u, (c.locals u).pc = .unlockWake

theorem flagWaiting_eq : flagWaiting = topFlag 31 := rfl

theorem id_and_not_flag (ids : ThreadIds ι) (t : ι) : ids.id t &&& ~~~ flagWaiting = ids.id t := by
  rw [flagWaiting_eq, and_not_topFlag_of_lt (ids.lt t)]

theorem zero_and_not_flag : 0#32 &&& ~~~ flagWaiting = 0#32 := by decide

theorem lockNext_owning {id e : BitVec 32} (h : (lockNext id e).owning) :
    e &&& ~~~ flagWaiting = id := by
  simp only [lockNext] at h
  split at h
  · exact h.elim
  · split at h
    · assumption
    · split at h <;> exact h.elim

theorem lockNext_futex {id e e' : BitVec 32} (h : lockNext id e = .lockFutex e') :
    e' = e ∧ e &&& flagWaiting ≠ 0#32 := by
  simp only [lockNext] at h
  split at h
  · contradiction
  split at h
  · contradiction
  split at h
  · rename_i hflag
    injection h with he
    exact ⟨he.symm, hflag⟩
  · contradiction

/-- The pcs of `manual_lock`. -/
def Pc.locks : Pc → Prop
  | .enter .lock | .lockExchange | .lockStore | .lockOwned | .lockMark _ | .lockFutex _
  | .lockAsleep | .panicked => True
  | _ => False

theorem lockNext_locks (id e : BitVec 32) : (lockNext id e).locks := by
  simp only [lockNext]
  split
  · trivial
  · split
    · trivial
    · split <;> trivial

/-- A lock returns from the owner's code, and leaves the word as it is. -/
theorem Trans.locks {id : BitVec 32} {t : ι} {s s' : Shared ι} {l l' : Local}
    (h : Trans id t s l s' l') (hpc : l.pc.locks) :
    l'.pc.locks ∨ (∃ last, l'.pc = .idle last) ∧ l.pc.owning ∧ s'.state = s.state := by
  cases h with
  | take | sleep => exact .inl trivial
  | look | mark => exact .inl (lockNext_locks _ _)
  | resume sleepers pc' hk hsub hpc' => rcases hpc' with rfl | rfl <;> exact .inl trivial
  | store hk | again hk =>
    rw [hk]
    exact .inr ⟨⟨_, rfl⟩, trivial, rfl⟩
  | quit pc' hk hpc' =>
    rcases hk with hk | hk | hk <;> rw [hk] at hpc ⊢
    · exact hpc.elim
    · exact hpc.elim
    cases pc' with
    | idle last => exact .inr ⟨⟨last, rfl⟩, trivial, rfl⟩
    | panicked => exact .inl trivial
    | _ => exact hpc'.elim
  | call _ _ hk | found hk | check hk | drop hk | last hk | corrupt hk | release hk
  | releaseFlag hk | wake hk =>
    rw [hk] at hpc
    exact hpc.elim

section WordStep

variable {ids : ThreadIds ι} {t : ι} {s s' : Shared ι} {l l' : Local}

section

variable (h : Trans (ids.id t) t s l s' l')
include h

section

variable (hown : l.pc.owning → s.state &&& ~~~ flagWaiting = ids.id t)
include hown

/-- The scheduled thread is in the owner's code only with its id in the word. -/
theorem Trans.owner_self (hown' : l'.pc.owning) :
    s'.state &&& ~~~ flagWaiting = ids.id t := by
  cases h with
  | take hpc hfree => exact id_and_not_flag ids t
  | look hpc | mark e hpc hstate => exact lockNext_owning hown'
  | found hpc h | check hpc h => exact h
  | last hpc hpos hmore => exact hown (by rw [hpc]; trivial)
  | resume sleepers pc' hpc hsub hpc' =>
    rcases hpc' with rfl | rfl <;> exact hown'.elim
  | quit pc' hpc hpc' => cases pc' <;> first | exact hown'.elim | exact hpc'.elim
  | _ => exact hown'.elim

/-- A step of thread `t` leaves the word to the thread whose id is in it. -/
theorem Trans.owner_other {u : ι} (hu : u ≠ t)
    (hs : s.state &&& ~~~ flagWaiting = ids.id u) : s'.state &&& ~~~ flagWaiting = ids.id u := by
  have hclash : ¬ l.pc.owning := fun hpc => hu (ids.injective (hs.symm.trans (hown hpc)))
  cases h with
  | take hpc hfree =>
    rw [hfree] at hs
    exact absurd hs.symm (ids.ne_zero u)
  | mark e hpc hstate =>
    rw [flagWaiting_eq, or_topFlag_and_not_topFlag, ← hstate]
    exact hs
  | release hpc hflag | releaseFlag hpc hflag => exact absurd (by rw [hpc]; trivial) hclash
  | _ => exact hs

end

theorem Trans.marked {e : BitVec 32} (he : l'.pc = .lockFutex e) : e &&& flagWaiting ≠ 0#32 := by
  cases h with
  | look hpc | mark e' hpc hstate =>
    obtain ⟨rfl, hflag⟩ := lockNext_futex he
    exact hflag
  | quit pc' hpc hpc' =>
    change pc' = _ at he
    rw [he] at hpc'
    exact hpc'.elim
  | resume sleepers pc' hpc hsub hpc' =>
    rcases hpc' with rfl | rfl <;> contradiction
  | _ => contradiction

/-- A step keeps the sleepers among the threads in their futex wait. -/
theorem Trans.asleep (hself : t ∈ s.sleepers → l.pc = .lockAsleep) {u : ι} (hu : u ∈ s'.sleepers) :
    u = t ∧ l'.pc = .lockAsleep ∨ u ≠ t ∧ u ∈ s.sleepers := by
  have hne (hpc : l.pc ≠ .lockAsleep) (hin : u ∈ s.sleepers) : u ≠ t := fun hut =>
    hpc (hself (hut ▸ hin))
  cases h with
  | sleep e hpc hstate =>
    rcases List.mem_append.mp hu with hu | hu
    · exact .inr ⟨hne (by simp [hpc]) hu, hu⟩
    · exact .inl ⟨List.mem_singleton.mp hu, rfl⟩
  | resume sleepers pc' hpc hsub hpc' =>
    obtain ⟨hin, hout⟩ := (hsub u).mp hu
    refine .inr ⟨?_, hin⟩
    rcases hpc with ⟨e, hpc⟩ | hpc
    · exact hne (by simp [hpc]) hin
    · exact hout hpc
  | wake hpc => cases hu
  | take hpc hfree => exact .inr ⟨hne hpc.ne.1 hu, hu⟩
  | look hpc =>
    refine .inr ⟨hne ?_ hu, hu⟩
    rcases hpc with hpc | ⟨e, hpc⟩
    · exact hpc.ne.1
    · simp [hpc]
  | quit pc' hpc hpc' =>
    refine .inr ⟨hne ?_ hu, hu⟩
    rcases hpc with hpc | hpc | hpc <;> simp [hpc]
  | call _ _ hpc | found hpc | store hpc | again hpc | mark _ hpc | check hpc | drop hpc
  | last hpc | corrupt hpc | release hpc | releaseFlag hpc =>
    exact .inr ⟨hne (by simp [hpc]) hu, hu⟩

/-- Whoever takes the flag off the word under a sleeper has its wake ahead of
it; `others` stands for such a thread other than the scheduled one. -/
theorem Trans.awake (hmarked : ∀ e, l.pc = .lockFutex e → e &&& flagWaiting ≠ 0#32) {others : Prop}
    (hs : s.sleepers ≠ [] → s.state &&& flagWaiting ≠ 0#32 ∨ l.pc = .unlockWake ∨ others)
    (hs' : s'.sleepers ≠ []) : s'.state &&& flagWaiting ≠ 0#32 ∨ l'.pc = .unlockWake ∨ others := by
  have hold (hpc : l.pc ≠ .unlockWake) (hne : s.sleepers ≠ []) :
      s.state &&& flagWaiting ≠ 0#32 ∨ others :=
    (hs hne).imp_right fun h => h.resolve_left hpc
  cases h with
  | take hpc hfree =>
    exact .inr (.inr ((hold hpc.ne.2 hs').resolve_left (by rw [hfree]; decide)))
  | mark e hpc hstate =>
    refine .inl ?_
    rw [flagWaiting_eq, or_topFlag_and_topFlag]
    exact topFlag_ne_zero
  | sleep e hpc hstate =>
    refine .inl ?_
    rw [hstate]
    exact hmarked e hpc
  | resume sleepers pc' hpc hsub hpc' =>
    obtain ⟨u, hu⟩ := List.exists_mem_of_ne_nil _ hs'
    refine (hold ?_ (List.ne_nil_of_mem ((hsub u).mp hu).1)).imp_right .inr
    rcases hpc with ⟨e, hpc⟩ | hpc <;> simp [hpc]
  | release hpc hflag =>
    exact .inr (.inr ((hold (by simp [hpc]) hs').resolve_left (not_not.mpr hflag)))
  | releaseFlag hpc hflag => exact .inr (.inl rfl)
  | wake hpc => exact absurd rfl hs'
  | look hpc =>
    refine (hold ?_ hs').imp_right .inr
    rcases hpc with hpc | ⟨e, hpc⟩
    · exact hpc.ne.2
    · simp [hpc]
  | quit pc' hpc hpc' =>
    refine (hold ?_ hs').imp_right .inr
    rcases hpc with hpc | hpc | hpc <;> simp [hpc]
  | call _ _ hpc | found hpc | store hpc | again hpc | check hpc | drop hpc | last hpc
  | corrupt hpc =>
    exact (hold (by simp [hpc]) hs').imp_right .inr

end

end WordStep

theorem wordInv_start (ids : ThreadIds ι) (kind : ℤ) : WordInv ids (start kind) where
  owner _ h := h.elim
  marked _ _ h := by simp [start] at h
  asleep _ h := by simp [start] at h
  awake h := absurd rfl h

section WordRun

variable [DecidableEq ι]

theorem WordInv.of_trans {ids : ThreadIds ι} {c : Conf ι (Shared ι) Local} {t : ι}
    {s' : Shared ι} {l' : Local} (hc : WordInv ids c)
    (h : Trans (ids.id t) t c.shared (c.locals t) s' l') :
    WordInv ids ⟨s', Function.update c.locals t l'⟩ := by
  refine ⟨?_, ?_, ?_, ?_⟩
  · exact (Function.forall_update_iff c.locals
      fun u l => l.pc.owning → s'.state &&& ~~~ flagWaiting = ids.id u).mpr
      ⟨h.owner_self (hc.owner t), fun u hut hu => h.owner_other (hc.owner t) hut (hc.owner u hu)⟩
  · exact (Function.forall_update_iff c.locals
      fun _ l => ∀ e, l.pc = .lockFutex e → e &&& flagWaiting ≠ 0#32).mpr
      ⟨fun _ => h.marked, fun u _ => hc.marked u⟩
  · intro u hu
    rcases h.asleep (hc.asleep t) hu with ⟨rfl, hpc⟩ | ⟨hut, hin⟩
    · simpa using hpc
    · simpa [Function.update_of_ne hut] using hc.asleep u hin
  · intro hne
    have hold := fun hs => (hc.awake hs).imp_right (exists_self_or t)
    exact (h.awake (hc.marked t) hold hne).imp_right
      (Function.exists_update_iff c.locals fun _ l => l.pc = .unlockWake).mpr

theorem wordInv_step {ids : ThreadIds ι} {t : ι} {a : Act Call}
    {c c' : Conf ι (Shared ι) Local} (hc : WordInv ids c)
    (h : (program ids).step t a c = some c') : WordInv ids c' := by
  obtain ⟨s', l', hp, rfl⟩ := Program.step_eq_some.mp h
  exact hc.of_trans (program_trans hp)

end WordRun

end Hzlibc.Internal.Mutex
