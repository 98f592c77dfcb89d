import Hzlibc.Concurrency.Futex
import Hzlibc.Concurrency.Interleaving

/-!
`pthread_barrier_wait` and `pthread_barrier_destroy`.

A call counts itself into `waiting`. The call that completes the count starts
the next round in three separate steps: it advances `sequence`, takes `waiting`
back to zero and wakes the others, which wait for `sequence` to pass the value
they loaded on entry.

The increments of `waiting` are numbered from zero, and a call carries the
number of its increment, its ticket, from then on.
-/

namespace Hzlibc.Posix.Barrier

open Concurrency Act

inductive Call
  | wait | destroy
  deriving DecidableEq, Repr

inductive Ret
  | zero
  | serialThread
  deriving DecidableEq, Repr

/-- Where a thread is: before the operation the constructor names. From its
increment on a thread in `pthread_barrier_wait` carries its ticket. -/
inductive Pc
  | idle (last : Option Ret)
  | enter
  | loadSequence
  | loadWaiting (sequence : BitVec 32)
  | exchange (sequence expected : BitVec 32)
  | bumpSequence (ticket : ℕ)
  | resetWaiting (ticket : ℕ)
  | wakeSequence (ticket : ℕ)
  | futex (sequence : BitVec 32) (ticket : ℕ)
  | asleep (sequence : BitVec 32) (ticket : ℕ)
  | reload (sequence : BitVec 32) (ticket : ℕ)
  | leaveSub (ticket : ℕ) (ret : Ret)
  | leaveWake (ticket : ℕ) (ret : Ret)
  | destroyLoad
  | destroyFutex (expected : BitVec 32)
  | destroyAsleep
  | panicked
  deriving DecidableEq, Repr

/-- The barrier with the threads asleep on its two words, the number of calls
and of increments of `waiting` so far, and the tickets that have returned. -/
structure Shared (ι : Type*) where
  waiting : BitVec 32
  inside : BitVec 32
  sequence : BitVec 32
  count : BitVec 32
  sequenceSleepers : List ι
  insideSleepers : List ι
  calls : ℕ
  arrivals : ℕ
  returned : List (ℕ × Ret)

variable {ι : Type*}

def pthreadBarrierInit (count : BitVec 32) : Shared ι where
  waiting := 0#32
  inside := 0#32
  sequence := 0#32
  count := count
  sequenceSleepers := []
  insideSleepers := []
  calls := 0
  arrivals := 0
  returned := []

/-- The compare-exchange of `pthread_barrier_wait`; a failed one goes back to
the load before it. -/
def waitExchange (sequence expected : BitVec 32) (a : Act Call) (s : Shared ι) :
    Option (Shared ι × Pc) :=
  (compareExchangeWeak a s.waiting expected).map fun
    | true =>
      let s' := { s with waiting := expected + 1, arrivals := s.arrivals + 1 }
      if expected + 1 = s.count then (s', .bumpSequence s.arrivals)
      else (s', .futex sequence s.arrivals)
    | false => (s, .loadWaiting sequence)

def afterFutex (sequence : BitVec 32) (ticket : ℕ) : WaitResult → Pc
  | .ok | .again | .intr => .reload sequence ticket
  | .timedOut | .inval => .panicked

/-- The test after a futex wait; the sequence numbers are compared as signed
numbers. -/
def waitReload (sequence : BitVec 32) (ticket : ℕ) (s : Shared ι) : Pc :=
  if sequence.slt s.sequence then .leaveSub ticket .zero else .futex sequence ticket

def Shared.returns (s : Shared ι) (ticket : ℕ) (ret : Ret) : Shared ι :=
  { s with returned := (ticket, ret) :: s.returned }

def leaveSub (ticket : ℕ) (ret : Ret) (s : Shared ι) : Shared ι × Pc :=
  let s' := { s with inside := s.inside - 1 }
  if s'.inside = 0#32 then (s', .leaveWake ticket ret)
  else (s'.returns ticket ret, .idle (some ret))

/-- The loop of `pthread_barrier_destroy` is left after its first wait, since
its condition reads a local variable that is never assigned. -/
def afterDestroyFutex : WaitResult → Pc
  | .ok | .again | .intr => .idle (some .zero)
  | .timedOut | .inval => .panicked

def program [DecidableEq ι] : Program ι (Act Call) (Shared ι) Pc := fun t a s pc =>
  match pc with
  | .idle _ => a.onCall fun
      | .wait => ({ s with calls := s.calls + 1 }, .enter)
      | .destroy => (s, .destroyLoad)
  | .enter => a.onRun (some ({ s with inside := s.inside + 1 }, .loadSequence))
  | .loadSequence => a.onRun (some (s, .loadWaiting s.sequence))
  | .loadWaiting sequence => a.onRun (some (s, .exchange sequence s.waiting))
  | .exchange sequence expected => waitExchange sequence expected a s
  | .bumpSequence ticket =>
    a.onRun (some ({ s with sequence := s.sequence + 1 }, .resetWaiting ticket))
  | .resetWaiting ticket => a.onRun (some ({ s with waiting := 0#32 }, .wakeSequence ticket))
  | .wakeSequence ticket =>
    a.onRun (some ({ s with sequenceSleepers := [] }, .leaveSub ticket .serialThread))
  | .futex sequence ticket =>
    a.onUntimedWait
      (if s.sequence = sequence then
        some ({ s with sequenceSleepers := s.sequenceSleepers ++ [t] }, .asleep sequence ticket)
      else some (s, afterFutex sequence ticket .again))
      fun r => (s, afterFutex sequence ticket r)
  | .asleep sequence ticket =>
    a.onUntimedWait
      (if t ∈ s.sequenceSleepers then none else some (s, afterFutex sequence ticket .ok))
      fun r => ({ s with sequenceSleepers := leave t s.sequenceSleepers },
        afterFutex sequence ticket r)
  | .reload sequence ticket => a.onRun (some (s, waitReload sequence ticket s))
  | .leaveSub ticket ret => a.onRun (some (leaveSub ticket ret s))
  | .leaveWake ticket ret =>
    a.onRun (some (({ s with insideSleepers := [] }).returns ticket ret, .idle (some ret)))
  | .destroyLoad =>
    a.onRun (some (s, if s.inside = 0#32 then .idle (some .zero) else .destroyFutex s.inside))
  | .destroyFutex expected =>
    a.onUntimedWait
      (if s.inside = expected then
        some ({ s with insideSleepers := s.insideSleepers ++ [t] }, .destroyAsleep)
      else some (s, afterDestroyFutex .again))
      fun r => (s, afterDestroyFutex r)
  | .destroyAsleep =>
    a.onUntimedWait
      (if t ∈ s.insideSleepers then none else some (s, afterDestroyFutex .ok))
      fun r => ({ s with insideSleepers := leave t s.insideSleepers }, afterDestroyFutex r)
  | .panicked => none

def start (count : BitVec 32) : Conf ι (Shared ι) Pc :=
  ⟨pthreadBarrierInit count, fun _ => .idle none⟩

/-! ### What a step can do -/

/-- The thread has called `pthread_barrier_wait` and not counted itself yet. -/
def Pc.pending : Pc → Bool
  | .enter | .loadSequence | .loadWaiting _ | .exchange _ _ => true
  | _ => false

/-- The ticket a thread carries. -/
def Pc.ticket : Pc → Option ℕ
  | .bumpSequence k | .resetWaiting k | .wakeSequence k | .futex _ k | .asleep _ k | .reload _ k
  | .leaveSub k _ | .leaveWake k _ => some k
  | _ => none

/-- The thread is not in `pthread_barrier_wait`. -/
def Pc.outside (pc : Pc) : Prop := pc.pending = false ∧ pc.ticket = none

inductive Trans (t : ι) (a : Act Call) (s : Shared ι) (pc : Pc) : Shared ι → Pc → Prop
  | call (last) (hpc : pc = .idle last) : Trans t a s pc { s with calls := s.calls + 1 } .enter
  | other (queue pc') (hpc : pc.outside) (hpc' : pc'.outside) :
      Trans t a s pc { s with insideSleepers := queue } pc'
  | approach (i pc') (hpc : pc.pending) (hpc' : pc'.pending) :
      Trans t a s pc { s with inside := i } pc'
  | arrive (q e) (ha : a = .run) (hpc : pc = .exchange q e) (hw : s.waiting = e)
      (hlast : e + 1 ≠ s.count) :
      Trans t a s pc { s with waiting := e + 1, arrivals := s.arrivals + 1 } (.futex q s.arrivals)
  | complete (q e) (ha : a = .run) (hpc : pc = .exchange q e) (hw : s.waiting = e)
      (hlast : e + 1 = s.count) :
      Trans t a s pc { s with waiting := e + 1, arrivals := s.arrivals + 1 }
        (.bumpSequence s.arrivals)
  | bump (k) (hpc : pc = .bumpSequence k) :
      Trans t a s pc { s with sequence := s.sequence + 1 } (.resetWaiting k)
  | reset (k) (hpc : pc = .resetWaiting k) :
      Trans t a s pc { s with waiting := 0#32 } (.wakeSequence k)
  | wake (k) (hpc : pc = .wakeSequence k) :
      Trans t a s pc { s with sequenceSleepers := [] } (.leaveSub k .serialThread)
  | sleep (q k) (hpc : pc = .futex q k) (hq : s.sequence = q) :
      Trans t a s pc { s with sequenceSleepers := s.sequenceSleepers ++ [t] } (.asleep q k)
  | resume (queue q k) (hpc : pc = .futex q k ∨ pc = .asleep q k)
      (hsub : ∀ u, u ∈ queue ↔ u ∈ s.sequenceSleepers ∧ (pc = .asleep q k → u ≠ t)) :
      Trans t a s pc { s with sequenceSleepers := queue } (.reload q k)
  | again (q k) (hpc : pc = .reload q k) : Trans t a s pc s (.futex q k)
  | released (q k) (hpc : pc = .reload q k) (hlt : q.slt s.sequence) :
      Trans t a s pc s (.leaveSub k .zero)
  | leave (i k r) (hpc : pc = .leaveSub k r) :
      Trans t a s pc { s with inside := i } (.leaveWake k r)
  | done (i queue k r) (hpc : pc = .leaveSub k r ∨ pc = .leaveWake k r) :
      Trans t a s pc (({ s with inside := i, insideSleepers := queue }).returns k r)
        (.idle (some r))

section Trans

variable {t : ι} {a : Act Call} {s s' : Shared ι} {pc pc' : Pc}

theorem waitExchange_trans {q e : BitVec 32} (h : waitExchange q e a s = some (s', pc')) :
    Trans t a s (.exchange q e) s' pc' := by
  obtain ⟨ha, hw, h⟩ | h := compareExchangeWeak_map h
  · simp only at h
    split at h
    · rename_i hlast
      cases h
      exact .complete q e ha rfl hw hlast
    · rename_i hlast
      cases h
      exact .arrive q e ha rfl hw hlast
  · cases h
    exact .approach s.inside _ rfl rfl

theorem waitReload_trans {q : BitVec 32} {k : ℕ} :
    Trans t a s (.reload q k) s (waitReload q k s) := by
  simp only [waitReload]
  split
  · rename_i hlt
    exact .released q k rfl hlt
  · exact .again q k rfl

theorem leaveSub_trans {k : ℕ} {r : Ret} (h : leaveSub k r s = (s', pc')) :
    Trans t a s (.leaveSub k r) s' pc' := by
  simp only [leaveSub] at h
  split at h
  · cases h
    exact .leave _ k r rfl
  · cases h
    exact .done _ s.insideSleepers k r (.inl rfl)

theorem afterFutex_untimed {q : BitVec 32} {k : ℕ} {r : WaitResult} (h : r.untimed) :
    afterFutex q k r = .reload q k := by
  cases r <;> first | rfl | contradiction

theorem afterDestroyFutex_outside (r : WaitResult) : (afterDestroyFutex r).outside := by
  cases r <;> exact ⟨rfl, rfl⟩

theorem program_trans [DecidableEq ι] (h : program t a s pc = some (s', pc')) :
    Trans t a s pc s' pc' := by
  cases pc with
  | idle last =>
    obtain ⟨f, -, hf⟩ := onCall_eq_some.mp h
    cases f with
    | wait =>
      cases hf
      exact .call last rfl
    | destroy =>
      cases hf
      exact .other s.insideSleepers _ ⟨rfl, rfl⟩ ⟨rfl, rfl⟩
  | enter =>
    obtain ⟨rfl, rfl⟩ := onRun_some h
    exact .approach _ _ rfl rfl
  | loadSequence | loadWaiting q =>
    obtain ⟨rfl, rfl⟩ := onRun_some h
    exact .approach s.inside _ rfl rfl
  | exchange q e => exact waitExchange_trans h
  | bumpSequence k =>
    obtain ⟨rfl, rfl⟩ := onRun_some h
    exact .bump k rfl
  | resetWaiting k =>
    obtain ⟨rfl, rfl⟩ := onRun_some h
    exact .reset k rfl
  | wakeSequence k =>
    obtain ⟨rfl, rfl⟩ := onRun_some h
    exact .wake k rfl
  | futex q k =>
    have hawake (u : ι) : u ∈ s.sequenceSleepers ↔
        u ∈ s.sequenceSleepers ∧ (Pc.futex q k = .asleep q k → u ≠ t) := by simp
    obtain ⟨hq, ⟨⟩⟩ | ⟨r, hr, hk⟩ := onUntimedWait_sleep h rfl
    · exact .sleep q k rfl hq
    · rw [afterFutex_untimed hr] at hk
      cases hk
      exact .resume _ q k (.inl rfl) hawake
  | asleep q k =>
    obtain ⟨hout, ⟨⟩⟩ | ⟨r, hr, hk⟩ := onUntimedWait_asleep h
    · refine .resume _ q k (.inr rfl) fun u => ⟨fun hu => ⟨hu, ?_⟩, And.left⟩
      exact fun _ hut => hout (hut ▸ hu)
    · rw [afterFutex_untimed hr] at hk
      cases hk
      exact .resume _ q k (.inr rfl) fun u => by simp
  | reload q k =>
    obtain ⟨rfl, rfl⟩ := onRun_some h
    exact waitReload_trans
  | leaveSub k r =>
    obtain ⟨-, hr⟩ := onRun_eq_some.mp h
    exact leaveSub_trans (Option.some.inj hr)
  | leaveWake k r =>
    obtain ⟨rfl, rfl⟩ := onRun_some h
    exact .done s.inside _ k r (.inr rfl)
  | destroyLoad =>
    obtain ⟨rfl, rfl⟩ := onRun_some h
    refine .other s.insideSleepers _ ⟨rfl, rfl⟩ ?_
    split <;> exact ⟨rfl, rfl⟩
  | destroyFutex e =>
    obtain ⟨-, ⟨⟩⟩ | ⟨r, -, ⟨⟩⟩ := onUntimedWait_sleep h rfl
    · exact .other _ _ ⟨rfl, rfl⟩ ⟨rfl, rfl⟩
    · exact .other s.insideSleepers _ ⟨rfl, rfl⟩ (afterDestroyFutex_outside r)
  | destroyAsleep =>
    obtain ⟨-, ⟨⟩⟩ | ⟨r, -, ⟨⟩⟩ := onUntimedWait_asleep h
    · exact .other s.insideSleepers _ ⟨rfl, rfl⟩ (afterDestroyFutex_outside _)
    · exact .other _ _ ⟨rfl, rfl⟩ (afterDestroyFutex_outside r)
  | panicked => contradiction

end Trans

end Hzlibc.Posix.Barrier
