import Hzlibc.Internal.Mutex

/-!
`thread_cond_wait`, `thread_cond_timedwait`, `thread_cond_broadcast` and
`thread_cond_signal`, with the mutex they are used with.

A signal increments the word of the condition variable and wakes. A wait loads
the word, unlocks the mutex, and sleeps only if the word is still what it has
loaded; then it locks the mutex again. The mutex is the program of
`Hzlibc.Internal.Mutex`, run inside this one: a step here makes at most one step
there.

The word is a counter modulo `2 ^ 32`. Beside it the signals are counted in
full, and a wait remembers how many there had been at its load.
-/

namespace Hzlibc.Internal.Cond

open Concurrency List

inductive Call
  | mutex (f : Mutex.Call)
  | wait
  | timedwait (absTimeout : Option Timespec)
  | broadcast
  | signal
  deriving DecidableEq, Repr

inductive Ret
  | ok
  | timedOut
  | clock (e : Errno)
  deriving DecidableEq, Repr

/-- A wait from its load on: the value it has loaded, the number of signals so
far, and for a timed wait the deadline and the timeout made from it. -/
structure Wait where
  value : BitVec 32
  signals : ℕ
  deadline : Option (Timespec × Timespec)
  deriving DecidableEq, Repr

/-- Where a thread is: before the operation the constructor names, or inside
the mutex. -/
inductive Pc
  | idle (last : Option Ret)
  | inMutex
  | waitClock (absTimeout : Timespec)
  | waitLoad (deadline : Option (Timespec × Timespec))
  | waitUnlock (w : Wait)
  | waitFutex (w : Wait)
  | waitAsleep (w : Wait)
  | waitLock (w : Wait) (result : WaitResult)
  | signalAdd (all : Bool)
  | signalWake (all : Bool)
  deriving DecidableEq, Repr

structure Local where
  pc : Pc
  mutex : Mutex.Local
  deriving DecidableEq, Repr

/-- The mutex, the word of the condition variable, the threads asleep on it
with the waits they are in, and the number of signals. -/
structure Shared (ι : Type*) where
  mutex : Mutex.Shared ι
  futex : BitVec 32
  sleepers : List (ι × Wait)
  signals : ℕ

def Local.at (l : Local) (pc : Pc) : Local := { l with pc := pc }

/-- The thread goes into the mutex, which it leaves at `pc`'s next step. -/
def Local.calls (l : Local) (pc : Pc) (f : Mutex.Call) : Local :=
  { pc := pc, mutex := l.mutex.at (.enter f) }

def relativeTimeout (absTimeout current : Timespec) : Timespec :=
  ⟨absTimeout.tvSec - current.tvSec, absTimeout.tvNsec - current.tvNsec⟩

/-- `thread_cond_timedwait` up to its load. -/
def timedwaitClock (absTimeout : Timespec) : ClockResult → Pc
  | .fails e => .idle (some (.clock e))
  | .now current =>
    let timeout := relativeTimeout absTimeout current
    if timeout.tvSec < 0 ∨ timeout.tvSec = 0 ∧ timeout.tvNsec < 0 then .idle (some .timedOut)
    else .waitLoad (some (absTimeout, timeout))

/-- What a wait does with the mutex locked again; `thread_cond_wait` does not
look at the result of its futex wait. -/
def afterLock (w : Wait) (result : WaitResult) : Pc :=
  match w.deadline, result with
  | none, _ => .idle (some .ok)
  | some _, .timedOut => .idle (some .timedOut)
  | some (absTimeout, _), .intr => .waitClock absTimeout
  | some _, _ => .idle (some .ok)

variable {ι : Type*}

/-- A step of the mutex the thread is inside of; it goes on at `pc` when the
mutex has returned. -/
def stepMutex [DecidableEq ι] (ids : Mutex.ThreadIds ι) (t : ι) (a : Act Call) (s : Shared ι)
    (l : Local) (pc : Pc) : Option (Shared ι × Local) :=
  a.inner.bind fun a' =>
    (Mutex.program ids t a' s.mutex l.mutex).map fun r =>
      ({ s with mutex := r.1 },
        { pc := match r.2.pc with
            | .idle _ => pc
            | _ => l.pc
          mutex := r.2 })

def program [DecidableEq ι] (ids : Mutex.ThreadIds ι) : Program ι (Act Call) (Shared ι) Local :=
  fun t a s l =>
    match l.pc with
    | .idle _ => a.onCall fun
        | .mutex f => (s, l.calls .inMutex f)
        | .wait => (s, l.at (.waitLoad none))
        | .timedwait none => (s, l.at (.waitLoad none))
        | .timedwait (some absTimeout) => (s, l.at (.waitClock absTimeout))
        | .broadcast => (s, l.at (.signalAdd true))
        | .signal => (s, l.at (.signalAdd false))
    | .inMutex => stepMutex ids t a s l (.idle none)
    | .waitClock absTimeout => a.onClock fun r => (s, l.at (timedwaitClock absTimeout r))
    | .waitLoad deadline =>
      a.onRun (some (s, l.calls (.waitUnlock ⟨s.futex, s.signals, deadline⟩) .unlock))
    | .waitUnlock w => stepMutex ids t a s l (.waitFutex w)
    | .waitFutex w =>
      a.onWait
        (if s.futex = w.value then
          some ({ s with sleepers := s.sleepers ++ [(t, w)] }, l.at (.waitAsleep w))
        else some (s, l.calls (.waitLock w .again) .lock))
        fun r => (s, l.calls (.waitLock w r) .lock)
    | .waitAsleep w =>
      a.onWait
        (if t ∈ s.sleepers.map Prod.fst then none
        else some (s, l.calls (.waitLock w .ok) .lock))
        fun r => ({ s with sleepers := s.sleepers.filter (·.1 ≠ t) }, l.calls (.waitLock w r) .lock)
    | .waitLock w result => stepMutex ids t a s l (afterLock w result)
    | .signalAdd all =>
      a.onRun (some ({ s with futex := s.futex + 1, signals := s.signals + 1 },
        l.at (.signalWake all)))
    | .signalWake all =>
      a.onRun (some ({ s with sleepers := if all then [] else s.sleepers.tail },
        l.at (.idle (some .ok))))

def start (kind : ℤ) : Conf ι (Shared ι) Local :=
  ⟨{ mutex := (Mutex.start kind : Conf ι (Mutex.Shared ι) Mutex.Local).shared, futex := 0#32,
     sleepers := [], signals := 0 },
    fun t => { pc := .idle none, mutex := (Mutex.start kind).locals t }⟩

/-! ### What a step can do -/

def Call.waits : Call → Bool
  | .wait | .timedwait _ => true
  | .mutex _ | .broadcast | .signal => false

/-- Where a thread inside the mutex goes on. -/
def Pc.returnsTo : Pc → Option Pc
  | .inMutex => some (.idle none)
  | .waitUnlock w => some (.waitFutex w)
  | .waitLock w r => some (afterLock w r)
  | _ => none

inductive Trans (ids : Mutex.ThreadIds ι) (t : ι) (a : Act Call) (s : Shared ι) (l : Local) :
    Shared ι → Local → Prop
  | mutex (m x pc') (target) (hpc : l.pc.returnsTo = some target)
      (hstep : Mutex.Trans (ids.id t) t s.mutex l.mutex m x)
      (hpc' : pc' = l.pc ∧ (∀ last, x.pc ≠ .idle last) ∨ pc' = target ∧ ∃ last, x.pc = .idle last) :
      Trans ids t a s l { s with mutex := m } ⟨pc', x⟩
  | call (f last) (hpc : l.pc = .idle last) : Trans ids t a s l s (l.calls .inMutex f)
  | wait (pc' last f) (ha : a = .call f) (hf : f.waits) (hpc : l.pc = .idle last)
      (hpc' : pc' = .waitLoad none ∨ ∃ x, pc' = .waitClock x) : Trans ids t a s l s (l.at pc')
  | signal (all last) (hpc : l.pc = .idle last) : Trans ids t a s l s (l.at (.signalAdd all))
  | clock (x r) (hpc : l.pc = .waitClock x) : Trans ids t a s l s (l.at (timedwaitClock x r))
  | load (deadline) (hpc : l.pc = .waitLoad deadline) :
      Trans ids t a s l s (l.calls (.waitUnlock ⟨s.futex, s.signals, deadline⟩) .unlock)
  | sleep (w) (ha : a = .run) (hpc : l.pc = .waitFutex w) (hw : s.futex = w.value) :
      Trans ids t a s l { s with sleepers := s.sleepers ++ [(t, w)] } (l.at (.waitAsleep w))
  | skip (w r) (hpc : l.pc = .waitFutex w) : Trans ids t a s l s (l.calls (.waitLock w r) .lock)
  | resume (w r queue) (hpc : l.pc = .waitAsleep w) (hsub : queue.Sublist s.sleepers)
      (hout : ∀ x ∈ queue, x.1 ≠ t) :
      Trans ids t a s l { s with sleepers := queue } (l.calls (.waitLock w r) .lock)
  | add (all) (hpc : l.pc = .signalAdd all) :
      Trans ids t a s l { s with futex := s.futex + 1, signals := s.signals + 1 }
        (l.at (.signalWake all))
  | wake (all) (hpc : l.pc = .signalWake all) :
      Trans ids t a s l { s with sleepers := if all then [] else s.sleepers.tail }
        (l.at (.idle (some .ok)))

section Trans

variable [DecidableEq ι] {ids : Mutex.ThreadIds ι} {t : ι} {a : Act Call} {s s' : Shared ι}
  {l l' : Local}

theorem stepMutex_trans {target : Pc} (hpc : l.pc.returnsTo = some target)
    (h : stepMutex ids t a s l target = some (s', l')) : Trans ids t a s l s' l' := by
  obtain ⟨a', -, h⟩ := Option.bind_eq_some_iff.mp h
  obtain ⟨⟨m, x⟩, hm, h⟩ := Option.map_eq_some_iff.mp h
  cases h
  refine .mutex m x _ target hpc (Mutex.program_trans hm) ?_
  cases hx : x.pc with
  | idle last => exact .inr ⟨by simp, last, rfl⟩
  | _ => exact .inl ⟨by simp, by simp⟩

theorem program_trans (h : program ids t a s l = some (s', l')) : Trans ids t a s l s' l' := by
  simp only [program] at h
  split at h
  case h_1 last hpc =>
    obtain ⟨f, ha, hf⟩ := Act.onCall_eq_some.mp h
    cases f with
    | mutex f =>
      cases hf
      exact .call f last hpc
    | wait =>
      cases hf
      exact .wait _ last _ ha rfl hpc (.inl rfl)
    | timedwait x =>
      cases x with
      | none =>
        cases hf
        exact .wait _ last _ ha rfl hpc (.inl rfl)
      | some x =>
        cases hf
        exact .wait _ last _ ha rfl hpc (.inr ⟨x, rfl⟩)
    | broadcast =>
      cases hf
      exact .signal true last hpc
    | signal =>
      cases hf
      exact .signal false last hpc
  case h_2 hpc => exact stepMutex_trans (by rw [hpc]; rfl) h
  case h_3 x hpc =>
    obtain ⟨r, -, hr⟩ := Act.onClock_eq_some.mp h
    cases hr
    exact .clock x r hpc
  case h_4 deadline hpc =>
    obtain ⟨rfl, rfl⟩ := Act.onRun_some h
    exact .load deadline hpc
  case h_5 w hpc => exact stepMutex_trans (by rw [hpc]; rfl) h
  case h_6 w hpc =>
    obtain ⟨ha, hw, ⟨⟩⟩ | ⟨r, ⟨⟩⟩ := Act.onWait_sleep h rfl
    · exact .sleep w ha hpc hw
    · exact .skip w r hpc
  case h_7 w hpc =>
    obtain ⟨hout, ⟨⟩⟩ | ⟨r, ⟨⟩⟩ := Act.onWait_asleep h
    · refine .resume w .ok _ hpc (List.Sublist.refl _) fun x hx hxt => hout ?_
      exact hxt ▸ mem_map_of_mem hx
    · refine .resume w r _ hpc filter_sublist fun x hx => ?_
      simpa using (mem_filter.mp hx).2
  case h_8 w r hpc => exact stepMutex_trans (by rw [hpc]; rfl) h
  case h_9 all hpc =>
    obtain ⟨rfl, rfl⟩ := Act.onRun_some h
    exact .add all hpc
  case h_10 all hpc =>
    obtain ⟨rfl, rfl⟩ := Act.onRun_some h
    exact .wake all hpc

end Trans

/-! ### Signals and waits

A sleeper has loaded the word after the last signal before it went to sleep, so
the list of sleepers is in the order of their loads. -/

/-- The wait a thread has loaded the word for and not left yet. -/
def Pc.wait? : Pc → Option Wait
  | .waitUnlock w | .waitFutex w | .waitAsleep w => some w
  | _ => none

/-- Fewer than `2 ^ 32` signals between the load of a wait and its futex
wait. -/
def Fits (t : ι) (_ : Act Call) (c : Conf ι (Shared ι) Local) : Prop :=
  match (c.locals t).pc with
  | .waitFutex w => c.shared.signals < w.signals + 2 ^ 32
  | _ => True

instance (t : ι) (a : Act Call) (c : Conf ι (Shared ι) Local) : Decidable (Fits t a c) := by
  unfold Fits
  split <;> infer_instance

structure SignalInv (c : Conf ι (Shared ι) Local) : Prop where
  futex : c.shared.futex = BitVec.ofNat 32 c.shared.signals
  value : ∀ t w, (c.locals t).pc.wait? = some w →
    w.value = BitVec.ofNat 32 w.signals ∧ w.signals ≤ c.shared.signals
  asleep : ∀ x ∈ c.shared.sleepers, (c.locals x.1).pc = .waitAsleep x.2
  sorted : c.shared.sleepers.Pairwise fun x y => x.2.signals ≤ y.2.signals
  nodup : (c.shared.sleepers.map Prod.fst).Nodup

theorem ofNat_signals_inj {m n : ℕ} (hle : m ≤ n) (hlt : n < m + 2 ^ 32)
    (h : BitVec.ofNat 32 n = BitVec.ofNat 32 m) : n = m := by
  have hmod : n % 2 ^ 32 = m % 2 ^ 32 := by
    simpa using congrArg BitVec.toNat h
  omega

theorem signalInv_start (kind : ℤ) : SignalInv (start kind : Conf ι (Shared ι) Local) where
  futex := rfl
  value _ _ h := by contradiction
  asleep _ h := absurd h (by simp [start])
  sorted := .nil
  nodup := .nil

section SignalStep

variable {ids : Mutex.ThreadIds ι} {t : ι} {a : Act Call} {c : Conf ι (Shared ι) Local}
  {s s' : Shared ι} {l l' : Local}

theorem SignalInv.awake (hc : SignalInv c) (hpc : ∀ w, (c.locals t).pc ≠ .waitAsleep w)
    (x : ι × Wait) (hx : x ∈ c.shared.sleepers) : x.1 ≠ t := by
  rintro rfl
  exact hpc x.2 (hc.asleep x hx)

theorem Pc.returnsTo_ne_asleep {pc target : Pc} (h : pc.returnsTo = some target) (w : Wait) :
    pc ≠ .waitAsleep w := by
  rintro rfl
  contradiction

theorem afterLock_wait? (w : Wait) (r : WaitResult) : (afterLock w r).wait? = none := by
  obtain ⟨value, signals, deadline⟩ := w
  cases deadline <;> cases r <;> rfl

theorem timedwaitClock_away (x : Timespec) (r : ClockResult) :
    (timedwaitClock x r).wait? = none ∧ (timedwaitClock x r).returnsTo = none := by
  cases r with
  | fails e => exact ⟨rfl, rfl⟩
  | now current =>
    simp only [timedwaitClock]
    split <;> exact ⟨rfl, rfl⟩

theorem Pc.wait?_of_returnsTo {pc target : Pc} (h : pc.returnsTo = some target) {w : Wait}
    (hw : target.wait? = some w) : pc.wait? = some w := by
  cases pc with
  | inMutex | waitUnlock w' =>
    cases h
    exact hw
  | waitLock w' r =>
    cases h
    rw [afterLock_wait?] at hw
    contradiction
  | _ => contradiction

/-- A wait after the step was there before, or has just loaded the word. -/
theorem Trans.wait? (h : Trans ids t a s l s' l') {w : Wait} (hw : l'.pc.wait? = some w) :
    l.pc.wait? = some w ∨ w.value = s.futex ∧ w.signals = s.signals := by
  cases h with
  | mutex m x pc' target hpc hstep hpc' =>
    refine .inl ?_
    rcases hpc' with ⟨rfl, -⟩ | ⟨rfl, -⟩
    · exact hw
    · exact Pc.wait?_of_returnsTo hpc hw
  | load deadline hpc =>
    cases hw
    exact .inr ⟨rfl, rfl⟩
  | sleep w' ha hpc =>
    rw [hpc]
    exact .inl hw
  | wait pc' last f ha hf hpc hpc' => rcases hpc' with rfl | ⟨x, rfl⟩ <;> contradiction
  | clock x r hpc =>
    change (timedwaitClock x r).wait? = _ at hw
    rw [(timedwaitClock_away _ _).1] at hw
    contradiction
  | _ => contradiction

theorem Trans.signals_le (h : Trans ids t a s l s' l') : s.signals ≤ s'.signals := by
  cases h <;> first | exact le_rfl | exact Nat.le_succ _

theorem Trans.futex_eq (h : Trans ids t a s l s' l')
    (hs : s.futex = BitVec.ofNat 32 s.signals) : s'.futex = BitVec.ofNat 32 s'.signals := by
  cases h with
  | add all hpc =>
    rw [hs, BitVec.ofNat_add]
    rfl
  | _ => exact hs

/-- The sleepers after a step: some of those before, all but the scheduled
thread, or those before and the scheduled thread, which has loaded the word
after the last signal. -/
theorem Trans.sleepers (h : Trans ids t a c.shared (c.locals t) s' l') (hc : SignalInv c)
    (hfits : Fits t a c) :
    (s'.sleepers.Sublist c.shared.sleepers ∧ ∀ x ∈ s'.sleepers, x.1 ≠ t) ∨
    ∃ w, s'.sleepers = c.shared.sleepers ++ [(t, w)] ∧ (c.locals t).pc = .waitFutex w ∧
      l'.pc = .waitAsleep w ∧ w.signals = c.shared.signals := by
  have hsame (hs : s'.sleepers = c.shared.sleepers)
      (hpc : ∀ w, (c.locals t).pc ≠ .waitAsleep w) :
      s'.sleepers.Sublist c.shared.sleepers ∧ ∀ x ∈ s'.sleepers, x.1 ≠ t :=
    ⟨hs ▸ List.Sublist.refl _, fun x hx => hc.awake hpc x (hs ▸ hx)⟩
  cases h with
  | sleep w ha hpc hw =>
    obtain ⟨hvalue, hle⟩ := hc.value t w (by rw [hpc]; rfl)
    have hlt : c.shared.signals < w.signals + 2 ^ 32 := by
      simpa [Fits, hpc] using hfits
    have heq : BitVec.ofNat 32 c.shared.signals = BitVec.ofNat 32 w.signals := by
      rw [← hc.futex, hw, hvalue]
    exact .inr ⟨w, rfl, hpc, rfl, (ofNat_signals_inj hle hlt heq).symm⟩
  | resume w r queue hpc hsub hout => exact .inl ⟨hsub, hout⟩
  | wake all hpc =>
    have hsub : (if all then [] else c.shared.sleepers.tail).Sublist c.shared.sleepers := by
      cases all
      · exact tail_sublist _
      · exact nil_sublist _
    exact .inl ⟨hsub, fun x hx => hc.awake (by simp [hpc]) x (hsub.subset hx)⟩
  | mutex m x pc' target hpc hstep hpc' => exact .inl (hsame rfl (Pc.returnsTo_ne_asleep hpc))
  | call _ _ hpc | wait _ _ _ _ _ hpc | signal _ _ hpc | clock _ _ hpc | load _ hpc
  | skip _ _ hpc | add _ hpc => exact .inl (hsame rfl (by simp [hpc]))

variable [DecidableEq ι]

theorem SignalInv.step (hc : SignalInv c) (hfits : Fits t a c)
    (h : Trans ids t a c.shared (c.locals t) s' l') :
    SignalInv ⟨s', Function.update c.locals t l'⟩ := by
  have hsleepers := h.sleepers hc hfits
  constructor
  case futex => exact h.futex_eq hc.futex
  case value =>
    refine (Function.forall_update_iff c.locals fun _ l => ∀ w, l.pc.wait? = some w →
      w.value = BitVec.ofNat 32 w.signals ∧ w.signals ≤ s'.signals).mpr ⟨?_, ?_⟩
    · intro w hw
      rcases h.wait? hw with hw | ⟨hvalue, hsignals⟩
      · obtain ⟨hvalue, hle⟩ := hc.value t w hw
        exact ⟨hvalue, hle.trans h.signals_le⟩
      · exact ⟨by rw [hvalue, hsignals, hc.futex], hsignals ▸ h.signals_le⟩
    · intro u _ w hw
      obtain ⟨hvalue, hle⟩ := hc.value u w hw
      exact ⟨hvalue, hle.trans h.signals_le⟩
  case asleep =>
    intro x hx
    rcases hsleepers with ⟨hsub, hout⟩ | ⟨w, hs, hpc, hpc', -⟩
    · simpa [Function.update_of_ne (hout x hx)] using hc.asleep x (hsub.subset hx)
    · rw [hs] at hx
      by_cases hxt : x.1 = t
      · rcases mem_append.mp hx with hx | hx
        · exact absurd hxt (hc.awake (by simp [hpc]) x hx)
        · obtain rfl := mem_singleton.mp hx
          simpa using hpc'
      · rcases mem_append.mp hx with hx | hx
        · simpa [Function.update_of_ne hxt] using hc.asleep x hx
        · obtain rfl := mem_singleton.mp hx
          exact absurd rfl hxt
  case sorted =>
    -- a new sleeper has loaded the word last, so it comes after all the others
    rcases hsleepers with ⟨hsub, -⟩ | ⟨w, hs, -, -, hw⟩
    · exact hc.sorted.sublist hsub
    · rw [hs]
      refine pairwise_append.mpr ⟨hc.sorted, pairwise_singleton _ _, ?_⟩
      intro x hx y hy
      obtain rfl := mem_singleton.mp hy
      rw [hw]
      exact (hc.value x.1 x.2 (by rw [hc.asleep x hx]; rfl)).2
  case nodup =>
    rcases hsleepers with ⟨hsub, -⟩ | ⟨w, hs, hpc, -, -⟩
    · exact hc.nodup.sublist (hsub.map _)
    · rw [hs, map_append]
      refine nodup_append.mpr ⟨hc.nodup, nodup_singleton _, ?_⟩
      rintro u hu v hv rfl
      obtain ⟨x, hx, rfl⟩ := mem_map.mp hu
      have hxt : x.1 = t := by simpa using hv
      exact hc.awake (by simp [hpc]) x hx hxt

end SignalStep

end Hzlibc.Internal.Cond
