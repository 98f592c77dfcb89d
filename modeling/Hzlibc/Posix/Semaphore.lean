import Hzlibc.Concurrency.FlagWord
import Hzlibc.Concurrency.Futex
import Hzlibc.Concurrency.Interleaving

/-!
POSIX semaphores.

The count lives in the low 31 bits of one word, the top bit says that somebody
sleeps on it. `sem_wait`, `sem_trywait` and `sem_timedwait` take a unit by
compare-exchange. `sem_post` does not: it loads the count and later exchanges
the word for the count plus one, so whatever happens to the word in between is
overwritten. The count is conserved exactly as long as nothing does.
-/

namespace Hzlibc.Posix.Semaphore

open Concurrency

def semValueMax : BitVec 32 := 2147483647#32

def semaphoreCountMask : BitVec 32 := semValueMax

def semaphoreWaiters : BitVec 32 := 1#32 <<< 31

inductive Call
  | post | wait | trywait
  | timedwait (absTimeout : Option Timespec)
  deriving DecidableEq, Repr

/-- What a call returns: zero, or minus one with `errno` set. -/
inductive Ret
  | ok
  | fail (e : Errno)
  deriving DecidableEq, Repr

/-- Where a thread is: before the operation the constructor names, with the
local variables that are still needed. An idle thread remembers what its last
call returned; `enter` is a call before its first operation. -/
inductive Pc
  | idle (last : Option Ret)
  | enter (f : Call)
  | postExchange (count : BitVec 32)
  | postWake
  | waitLoop (absTimeout : Option Timespec) (state : BitVec 32)
  | waitClock (absTimeout : Timespec) (state : BitVec 32)
  | waitFutex (absTimeout : Option Timespec) (state : BitVec 32)
  | waitAsleep (absTimeout : Option Timespec) (state : BitVec 32)
  | tryLoad
  | tryExchange (state : BitVec 32)
  | panicked
  deriving DecidableEq, Repr

/-- The semaphore, and how many calls have returned zero so far: posts in
`posted`, waits of all three kinds in `taken`. -/
structure Shared (ι : Type*) where
  state : BitVec 32
  sleepers : List ι
  posted : ℕ
  taken : ℕ

variable {ι : Type*}

def semInit (value : BitVec 32) : Except Errno (Shared ι) :=
  if semValueMax < value then .error .einval
  else .ok { state := value, sleepers := [], posted := 0, taken := 0 }

def semGetvalue (s : Shared ι) : BitVec 32 := s.state &&& ~~~ semaphoreWaiters

def Shared.take (s : Shared ι) (state : BitVec 32) : Shared ι :=
  { s with state := state, taken := s.taken + 1 }

def semPostLoad (s : Shared ι) : Pc :=
  let count := s.state &&& semaphoreCountMask
  if count = semValueMax then .idle (some (.fail .eoverflow)) else .postExchange count

def semPostExchange (count : BitVec 32) (s : Shared ι) : Shared ι × Pc :=
  let state := s.state
  let s' := { s with state := count + 1 }
  if state &&& semaphoreWaiters ≠ 0#32 then (s', .postWake)
  else ({ s' with posted := s.posted + 1 }, .idle (some .ok))

def afterFutex (absTimeout : Option Timespec) (state : BitVec 32) : WaitResult → Pc
  | .timedOut => .idle (some (.fail .etimedout))
  | .intr => .idle (some (.fail .eintr))
  | .ok | .again => .waitLoop absTimeout state
  | .inval => .panicked

def semTimedwaitLoop (absTimeout : Option Timespec) (state : BitVec 32) (a : Act Call)
    (s : Shared ι) : Option (Shared ι × Pc) :=
  if state &&& semaphoreCountMask = 0#32 then
    (compareExchangeWeak a s.state state).map fun
      | true => ({ s with state := semaphoreWaiters },
          match absTimeout with
          | some ts => .waitClock ts state
          | none => .waitFutex none state)
      | false => (s, .waitLoop absTimeout s.state)
  else
    (compareExchangeStrong a s.state state).map fun
      | true => (s.take (state - 1), .idle (some .ok))
      | false => (s, .waitLoop absTimeout s.state)

-- `sem_wait` is the same loop with no timeout to look at.
def semWaitLoop (state : BitVec 32) (a : Act Call) (s : Shared ι) :
    Option (Shared ι × Pc) :=
  semTimedwaitLoop none state a s

def semTimedwaitClock (absTimeout : Timespec) (state : BitVec 32) : ClockResult → Pc
  | .fails e => .idle (some (.fail e))
  | .now current =>
    let timeout : Timespec :=
      ⟨absTimeout.tvSec - current.tvSec, absTimeout.tvNsec - current.tvNsec⟩
    if timeout.tvSec < 0 ∨ timeout.tvSec = 0 ∧ timeout.tvNsec < 0 then
      .idle (some (.fail .etimedout))
    else .waitFutex (some absTimeout) state

def semTrywaitLoad (s : Shared ι) : Pc :=
  if s.state &&& semaphoreWaiters ≠ 0#32 ∨ s.state = 0#32 then
    .idle (some (.fail .eagain))
  else .tryExchange s.state

def semTrywaitExchange (state : BitVec 32) (a : Act Call) (s : Shared ι) :
    Option (Shared ι × Pc) :=
  (compareExchangeWeak a s.state state).map fun
    | true => (s.take (state - 1), .idle (some .ok))
    | false => (s, .tryLoad)

def program [DecidableEq ι] : Program ι (Act Call) (Shared ι) Pc := fun t a s pc =>
  match pc with
  | .idle _ => a.onCall fun f => (s, .enter f)
  | .enter .post => a.onRun (some (s, semPostLoad s))
  | .enter .wait => semWaitLoop 0 a s
  | .enter (.timedwait absTimeout) => semTimedwaitLoop absTimeout 0 a s
  | .enter .trywait => a.onRun (some (s, semTrywaitLoad s))
  | .postExchange count => a.onRun (some (semPostExchange count s))
  | .postWake =>
    a.onRun (some ({ s with sleepers := [], posted := s.posted + 1 }, .idle (some .ok)))
  | .waitLoop absTimeout state => semTimedwaitLoop absTimeout state a s
  | .waitClock absTimeout state => a.onClock fun r => (s, semTimedwaitClock absTimeout state r)
  | .waitFutex absTimeout state =>
    a.onWait
      (if s.state = state then
        some ({ s with sleepers := s.sleepers ++ [t] }, .waitAsleep absTimeout state)
      else some (s, afterFutex absTimeout state .again))
      fun r => (s, afterFutex absTimeout state r)
  | .waitAsleep absTimeout state =>
    a.onWait
      (if t ∈ s.sleepers then none else some (s, afterFutex absTimeout state .ok))
      fun r => ({ s with sleepers := leave t s.sleepers }, afterFutex absTimeout state r)
  | .tryLoad => a.onRun (some (s, semTrywaitLoad s))
  | .tryExchange state => semTrywaitExchange state a s
  | .panicked => none

def start (s : Shared ι) : Conf ι (Shared ι) Pc := ⟨s, fun _ => .idle none⟩

/-- No call is between two of its steps. -/
def Pc.resting : Pc → Bool
  | .idle _ | .enter _ => true
  | _ => false

def Quiescent (c : Conf ι (Shared ι) Pc) : Prop := ∀ t, (c.locals t).resting = true

instance [Fintype ι] (c : Conf ι (Shared ι) Pc) : Decidable (Quiescent c) :=
  inferInstanceAs (Decidable (∀ t, (c.locals t).resting = true))

/-! ### The balance of one step

`Shared.count` is the count as a number. A post that has exchanged the word but
still has to wake the sleepers has raised the count without having returned; it
is the only place where the count and the number of returned calls disagree. -/

def Shared.count (s : Shared ι) : ℕ := s.state.toNat % 2 ^ 31

def Pc.unreturned : Pc → ℕ
  | .postWake => 1
  | _ => 0

theorem semaphoreCountMask_eq : semaphoreCountMask = lowMask 32 31 := rfl

theorem semaphoreWaiters_eq : semaphoreWaiters = topFlag 31 := rfl

@[simp] theorem and_semaphoreCountMask_toNat (x : BitVec 32) :
    (x &&& semaphoreCountMask).toNat = x.toNat % 2 ^ 31 := by
  rw [semaphoreCountMask_eq, and_lowMask_toNat x (by omega)]

theorem and_semaphoreCountMask_eq_zero (x : BitVec 32) :
    x &&& semaphoreCountMask = 0#32 ↔ x.toNat % 2 ^ 31 = 0 := by
  rw [← and_semaphoreCountMask_toNat, ← BitVec.toNat_inj, BitVec.toNat_ofNat]

@[simp] theorem semGetvalue_toNat (s : Shared ι) : (semGetvalue s).toNat = s.count := by
  rw [semGetvalue, semaphoreWaiters_eq, and_not_topFlag_toNat, Shared.count]

/-- Taking a unit off a word whose count is not zero lowers the count by one,
whether or not the waiters bit is set. -/
theorem sub_one_toNat_mod {x : BitVec 32} (hx : x.toNat % 2 ^ 31 ≠ 0) :
    (x - 1#32).toNat % 2 ^ 31 + 1 = x.toNat % 2 ^ 31 := by
  have hone : (1#32).toNat = 1 := rfl
  rw [BitVec.toNat_sub]
  omega

/-- What the local variables have passed: a post has loaded a count with room
for one more, a `sem_trywait` a word with a unit in it. -/
def Pc.Checked : Pc → Prop
  | .postExchange count => count.toNat < 2147483647
  | .tryExchange state => state.toNat % 2 ^ 31 ≠ 0
  | _ => True

/-- From `(s, pc)` to `(s', pc')` the count moves with the calls that return. -/
def Balanced (s : Shared ι) (pc : Pc) (s' : Shared ι) (pc' : Pc) : Prop :=
  s'.count + s'.taken + s.posted + pc.unreturned =
    s.count + s.taken + s'.posted + pc'.unreturned

theorem Pc.unreturned_of_ne {pc : Pc} (h : pc ≠ .postWake) : pc.unreturned = 0 := by
  cases pc <;> first | rfl | exact absurd rfl h

/-- What a step does: it leaves the word alone, announces a sleeper, takes a
unit, posts one, or wakes. -/
inductive Trans (t : ι) (a : Act Call) (s : Shared ι) (pc : Pc) : Shared ι → Pc → Prop
  | stay {sleepers : List ι} {pc' : Pc} (hpc : pc ≠ .postWake) (hpc' : pc' ≠ .postWake)
      (hchecked : pc'.Checked) (hne : sleepers ≠ [] → s.sleepers ≠ []) :
      Trans t a s pc { s with sleepers } pc'
  | sleep (absTimeout : Option Timespec) (state : BitVec 32)
      (hpc : pc = .waitFutex absTimeout state) (ha : a = .run) (hstate : s.state = state) :
      Trans t a s pc { s with sleepers := s.sleepers ++ [t] } (.waitAsleep absTimeout state)
  | announce {pc' : Pc} (hpc : pc ≠ .postWake) (hpc' : pc' ≠ .postWake) (hchecked : pc'.Checked)
      (hzero : s.state.toNat % 2 ^ 31 = 0) : Trans t a s pc { s with state := semaphoreWaiters } pc'
  | take (hpc : pc ≠ .postWake) (hne : s.state.toNat % 2 ^ 31 ≠ 0) (r : Option Ret) :
      Trans t a s pc (s.take (s.state - 1)) (.idle r)
  | post (count : BitVec 32) (hpc : pc = .postExchange count)
      (hflag : s.state &&& semaphoreWaiters = 0#32) :
      Trans t a s pc { s with state := count + 1, posted := s.posted + 1 } (.idle (some .ok))
  | postFlagged (count : BitVec 32) (hpc : pc = .postExchange count) :
      Trans t a s pc { s with state := count + 1 } .postWake
  | wake (hpc : pc = .postWake) :
      Trans t a s pc { s with sleepers := [], posted := s.posted + 1 } (.idle (some .ok))

theorem semPostLoad_checked (s : Shared ι) :
    semPostLoad s ≠ .postWake ∧ (semPostLoad s).Checked := by
  simp only [semPostLoad]
  split
  · exact ⟨nofun, trivial⟩
  · rename_i hne
    have hlt : (s.state &&& semaphoreCountMask).toNat < 2 ^ 31 := by
      rw [and_semaphoreCountMask_toNat]
      exact Nat.mod_lt _ (Nat.two_pow_pos 31)
    have hmax : semValueMax.toNat = 2147483647 := rfl
    rw [← BitVec.toNat_inj] at hne
    refine ⟨nofun, ?_⟩
    change (s.state &&& semaphoreCountMask).toNat < 2147483647
    omega

theorem semTrywaitLoad_checked (s : Shared ι) :
    semTrywaitLoad s ≠ .postWake ∧ (semTrywaitLoad s).Checked := by
  simp only [semTrywaitLoad]
  split
  · exact ⟨nofun, trivial⟩
  · rename_i h
    simp at h
    obtain ⟨hflag, hne⟩ := h
    rw [semaphoreWaiters_eq, and_topFlag_eq_zero_iff] at hflag
    rw [← BitVec.toNat_inj] at hne
    refine ⟨nofun, ?_⟩
    change s.state.toNat % 2 ^ 31 ≠ 0
    rwa [Nat.mod_eq_of_lt hflag]

theorem semTimedwaitClock_checked (absTimeout : Timespec) (state : BitVec 32) (r : ClockResult) :
    semTimedwaitClock absTimeout state r ≠ .postWake ∧
      (semTimedwaitClock absTimeout state r).Checked := by
  cases r with
  | fails e => exact ⟨nofun, trivial⟩
  | now current =>
    simp only [semTimedwaitClock]
    split <;> exact ⟨nofun, trivial⟩

theorem afterFutex_checked (absTimeout : Option Timespec) (state : BitVec 32) (r : WaitResult) :
    afterFutex absTimeout state r ≠ .postWake ∧ (afterFutex absTimeout state r).Checked := by
  cases r <;> exact ⟨nofun, trivial⟩

section Program

variable {t : ι} {a : Act Call} {s s' : Shared ι} {pc pc' : Pc}

theorem Trans.same (hpc : pc ≠ .postWake) (h : pc' ≠ .postWake ∧ pc'.Checked) :
    Trans t a s pc s pc' := .stay hpc h.1 h.2 id

theorem semTimedwaitLoop_trans {absTimeout : Option Timespec} {state : BitVec 32}
    (hpc : pc ≠ .postWake) (h : semTimedwaitLoop absTimeout state a s = some (s', pc')) :
    Trans t a s pc s' pc' := by
  simp only [semTimedwaitLoop] at h
  split at h
  · rename_i hzero
    rw [and_semaphoreCountMask_eq_zero] at hzero
    obtain ⟨-, rfl, h⟩ | h := compareExchangeWeak_map h
    · cases h
      cases absTimeout <;> exact .announce hpc nofun trivial hzero
    · cases h
      exact .same hpc ⟨nofun, trivial⟩
  · rename_i hne
    rw [and_semaphoreCountMask_eq_zero] at hne
    obtain ⟨-, rfl, h⟩ | h := compareExchangeStrong_map h
    · cases h
      exact .take hpc hne _
    · cases h
      exact .same hpc ⟨nofun, trivial⟩

theorem program_trans [DecidableEq ι] (hchecked : pc.Checked)
    (h : program t a s pc = some (s', pc')) : Trans t a s pc s' pc' := by
  cases pc with
  | idle last =>
    obtain ⟨f, -, hf⟩ := Act.onCall_eq_some.mp h
    cases hf
    exact .same nofun ⟨nofun, trivial⟩
  | enter f =>
    cases f with
    | post =>
      obtain ⟨rfl, rfl⟩ := Act.onRun_some h
      exact .same nofun (semPostLoad_checked s)
    | wait =>
      change semTimedwaitLoop none 0 a s = some (s', pc') at h
      exact semTimedwaitLoop_trans nofun h
    | timedwait absTimeout => exact semTimedwaitLoop_trans nofun h
    | trywait =>
      obtain ⟨rfl, rfl⟩ := Act.onRun_some h
      exact .same nofun (semTrywaitLoad_checked s)
  | postExchange count =>
    obtain ⟨-, hr⟩ := Act.onRun_eq_some.mp h
    simp only [semPostExchange, Option.some.injEq] at hr
    split at hr
    · cases hr
      exact .postFlagged count rfl
    · rename_i hflag
      cases hr
      exact .post count rfl (not_not.mp hflag)
  | postWake =>
    obtain ⟨rfl, rfl⟩ := Act.onRun_some h
    exact .wake rfl
  | waitLoop absTimeout state => exact semTimedwaitLoop_trans nofun h
  | waitClock absTimeout state =>
    obtain ⟨r, -, hr⟩ := Act.onClock_eq_some.mp h
    cases hr
    exact .same nofun (semTimedwaitClock_checked absTimeout state r)
  | waitFutex absTimeout state =>
    obtain ⟨ha, hstate, ⟨⟩⟩ | ⟨r, ⟨⟩⟩ := Act.onWait_sleep h rfl
    · exact .sleep absTimeout state rfl ha hstate
    · exact .same nofun (afterFutex_checked absTimeout state r)
  | waitAsleep absTimeout state =>
    obtain ⟨-, ⟨⟩⟩ | ⟨r, ⟨⟩⟩ := Act.onWait_asleep h
    · exact .same nofun ⟨nofun, trivial⟩
    · have hpc' := afterFutex_checked absTimeout state r
      refine .stay nofun hpc'.1 hpc'.2 fun hne hnil => hne ?_
      rw [hnil]
      rfl
  | tryLoad =>
    obtain ⟨rfl, rfl⟩ := Act.onRun_some h
    exact .same nofun (semTrywaitLoad_checked s)
  | tryExchange state =>
    obtain ⟨-, rfl, h⟩ | h := compareExchangeWeak_map h
    · cases h
      exact .take (by nofun) hchecked _
    · cases h
      exact .same nofun ⟨nofun, trivial⟩
  | panicked => contradiction

theorem Trans.checked (h : Trans t a s pc s' pc') : pc'.Checked := by
  cases h with
  | stay _ _ hchecked | announce _ _ hchecked => exact hchecked
  | _ => trivial

/-- A post that still has to wake has raised the count without having returned. -/
theorem Trans.balanced (h : Trans t a s pc s' pc') (hpc : pc.Checked)
    (hcur : ∀ count, pc = .postExchange count → count = s.state &&& semaphoreCountMask) :
    Balanced s pc s' pc' := by
  have hposted (count : BitVec 32) (hcount : pc = .postExchange count) :
      (count + 1#32).toNat % 2 ^ 31 = s.count + 1 := by
    have hone : (1#32).toNat = 1 := rfl
    have hstate : s.count = count.toNat := by
      rw [hcur count hcount, and_semaphoreCountMask_toNat, Shared.count]
    rw [hcount] at hpc
    have hroom : count.toNat < 2147483647 := hpc
    rw [BitVec.toNat_add]
    omega
  cases h with
  | stay hpc hpc' => rw [Balanced, Pc.unreturned_of_ne hpc, Pc.unreturned_of_ne hpc']; rfl
  | sleep absTimeout state hpc => rw [hpc]; rfl
  | announce hpc hpc' _ hzero =>
    have hflag : semaphoreWaiters.toNat % 2 ^ 31 = 0 := rfl
    rw [Balanced, Pc.unreturned_of_ne hpc, Pc.unreturned_of_ne hpc', Shared.count, Shared.count,
      hzero, hflag]
  | take hpc hne r =>
    have hsub := sub_one_toNat_mod hne
    rw [Balanced, Pc.unreturned_of_ne hpc]
    change (s.state - 1#32).toNat % 2 ^ 31 + (s.taken + 1) + s.posted + 0 =
      s.state.toNat % 2 ^ 31 + s.taken + s.posted + 0
    omega
  | post count hpc =>
    have hcount := hposted count hpc
    rw [hpc]
    change (count + 1#32).toNat % 2 ^ 31 + s.taken + s.posted + 0 =
      s.count + s.taken + (s.posted + 1) + 0
    omega
  | postFlagged count hpc =>
    have hcount := hposted count hpc
    rw [hpc]
    change (count + 1#32).toNat % 2 ^ 31 + s.taken + s.posted + 0 =
      s.count + s.taken + s.posted + 1
    omega
  | wake hpc =>
    rw [hpc]
    change s.count + s.taken + s.posted + 1 = s.count + s.taken + (s.posted + 1) + 0
    omega

end Program

/-! ### Conservation

The balance of one step, summed over the threads, is the invariant of a run in
which no post exchanges a count that is no longer current. -/

/-- The step is not a post's exchange, or the post loaded the count that the
word still holds. -/
def PostCurrent (t : ι) (_ : Act Call) (c : Conf ι (Shared ι) Pc) : Prop :=
  match c.locals t with
  | .postExchange count => count = c.shared.state &&& semaphoreCountMask
  | _ => True

instance (t : ι) (a : Act Call) (c : Conf ι (Shared ι) Pc) : Decidable (PostCurrent t a c) := by
  unfold PostCurrent
  split <;> infer_instance

structure Conserved [Fintype ι] (value : BitVec 32) (c : Conf ι (Shared ι) Pc) : Prop where
  checked : ∀ t, (c.locals t).Checked
  balance : c.shared.count + c.shared.taken =
    value.toNat + c.shared.posted + ∑ t, (c.locals t).unreturned

variable [Fintype ι]

theorem conserved_start {value : BitVec 32} {s : Shared ι} (hs : semInit value = .ok s) :
    Conserved value (start s) := by
  simp only [semInit] at hs
  split at hs
  · contradiction
  rename_i hle
  have hmax : semValueMax.toNat = 2147483647 := rfl
  rw [BitVec.lt_def] at hle
  cases hs
  refine ⟨fun _ => trivial, ?_⟩
  change value.toNat % 2 ^ 31 + 0 = value.toNat + 0 + ∑ _t : ι, 0
  rw [Finset.sum_const_zero]
  omega

variable [DecidableEq ι]

theorem conserved_step {value : BitVec 32} {t : ι} {a : Act Call}
    {c c' : Conf ι (Shared ι) Pc} (hc : Conserved value c) (hcur : PostCurrent t a c)
    (h : program.step t a c = some c') : Conserved value c' := by
  obtain ⟨s', pc', hp, rfl⟩ := Program.step_eq_some.mp h
  refine ⟨?_, ?_⟩
  · exact (Function.forall_update_iff c.locals fun _ pc => pc.Checked).mpr
      ⟨(program_trans (hc.checked t) hp).checked, fun u _ => hc.checked u⟩
  · have hcount (count : BitVec 32) (hpc : c.locals t = .postExchange count) :
        count = c.shared.state &&& semaphoreCountMask := by
      simpa [PostCurrent, hpc] using hcur
    have hbal := (program_trans (hc.checked t) hp).balanced (hc.checked t) hcount
    have hsum := sum_threads_update Pc.unreturned c.locals t pc'
    have hinv := hc.balance
    simp only [Balanced] at hbal
    change s'.count + s'.taken = value.toNat + s'.posted +
      ∑ u, (Function.update c.locals t pc' u).unreturned
    omega

/-- In every run whose posts all exchange a count that is still current, the
count between calls is the initial value plus the posts minus the waits. -/
theorem semGetvalue_of_posts_current {value : BitVec 32} {s : Shared ι}
    (hs : semInit value = .ok s) {sched : List (ι × Act Call)} {c : Conf ι (Shared ι) Pc}
    (hcur : program.AllSteps PostCurrent sched (start s))
    (hrun : program.exec sched (start s) = some c) (hq : Quiescent c) :
    ((semGetvalue c.shared).toNat : ℤ) = value.toNat + c.shared.posted - c.shared.taken := by
  have hinv : Conserved value c :=
    hcur.invariant (fun _ _ _ _ hc hg h => conserved_step hc hg h) (conserved_start hs) hrun
  have hzero : ∑ t, (c.locals t).unreturned = 0 := by
    refine Finset.sum_eq_zero fun t _ => ?_
    have ht := hq t
    cases hpc : c.locals t <;> simp_all [Pc.resting, Pc.unreturned]
  have hbal := hinv.balance
  rw [semGetvalue_toNat]
  omega

/-- A thread goes to sleep between the two steps of a post of another one, which wakes it,
and takes the unit. -/
def postWakesWait (t u : Fin 2) : List (Fin 2 × Act Call) :=
  (u, .call .wait) :: steps u 2 ++ (t, .call .post) :: steps u 1 ++ steps t 1 ++ steps u 2 ++
    steps t 2 ++ steps u 3

theorem semGetvalue_of_posts_current_postWakesWait :
    ∃ c ∈ program.exec (postWakesWait 0 1) (start ⟨0#32, [], 0, 0⟩), Quiescent c ∧
      c.shared.posted = 1 ∧ c.shared.taken = 1 ∧
      ((semGetvalue c.shared).toNat : ℤ) =
        (0#32).toNat + c.shared.posted - c.shared.taken := by
  have hrun : program.exec (postWakesWait 0 1) (start ⟨0#32, [], 0, 0⟩) = some _ := rfl
  exact ⟨_, hrun, by decide, rfl, rfl,
    semGetvalue_of_posts_current rfl (by decide) hrun (by decide)⟩

/-- Both posts load the count zero before either of them exchanges the word. -/
def racingPosts (t u : Fin 2) : List (Fin 2 × Act Call) :=
  [(t, .call .post), (u, .call .post), (t, .run), (u, .run), (t, .run), (u, .run)]

theorem semGetvalue_not_conserved :
    ¬ ∀ (value : BitVec 32) (s : Shared (Fin 2)) (sched : List (Fin 2 × Act Call))
      (c : Conf (Fin 2) (Shared (Fin 2)) Pc), semInit value = .ok s →
      program.exec sched (start s) = some c → Quiescent c →
      ((semGetvalue c.shared).toNat : ℤ) =
        value.toNat + c.shared.posted - c.shared.taken := by
  intro h
  obtain ⟨c, hrun, hq, hne⟩ : ∃ c ∈ program.exec (racingPosts 0 1) (start ⟨0#32, [], 0, 0⟩),
      Quiescent c ∧ ((semGetvalue c.shared).toNat : ℤ) ≠
        (0#32).toNat + c.shared.posted - c.shared.taken := by decide
  exact hne (h 0#32 _ (racingPosts 0 1) c rfl hrun hq)

end Hzlibc.Posix.Semaphore
