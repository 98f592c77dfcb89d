import Hzlibc.Concurrency.Futex
import Hzlibc.Concurrency.Interleaving

/-!
`thread_once`.

The control word goes from incomplete to running, perhaps on to queued, and
from either to complete. The thread that makes the first of these steps runs
the function, and it is the one that makes the last. A thread that queues has
seen the function running, so the exchange that completes the word finds the
queue and wakes it.
-/

namespace Hzlibc.Internal.Once

open Concurrency Function

def onceIncomplete : BitVec 32 := 0#32
def onceQueued : BitVec 32 := 1#32
def onceRunning : BitVec 32 := 2#32
def onceComplete : BitVec 32 := 3#32

/-- Where a thread is: before the operation the constructor names. `initStart`
is about to call the function and `initBody` is inside it. -/
inductive Pc
  | idle
  | load
  | exchangeRunning
  | initStart
  | initBody
  | exchangeComplete
  | wake
  | exchangeQueued
  | futex
  | asleep
  deriving DecidableEq, Repr

/-- The control word with its sleepers, how often a function has been started
and has returned, and how many calls of `thread_once` have returned. -/
structure Shared (ι : Type*) where
  word : BitVec 32
  sleepers : List ι
  started : ℕ
  finished : ℕ
  returned : ℕ

variable {ι : Type*}

def Shared.returns (s : Shared ι) : Shared ι × Pc := ({ s with returned := s.returned + 1 }, .idle)

/-- The loop of `thread_once` from its head to the next operation. -/
def onceNext (state : BitVec 32) (s : Shared ι) : Shared ι × Pc :=
  if state = onceIncomplete then (s, .exchangeRunning)
  else if state = onceRunning ∨ state = onceQueued then
    if state = onceRunning then (s, .exchangeQueued) else (s, .futex)
  else s.returns

def exchangeRunning (a : Act Unit) (s : Shared ι) : Option (Shared ι × Pc) :=
  (compareExchangeWeak a s.word onceIncomplete).map fun
    | true => ({ s with word := onceRunning }, .initStart)
    | false => onceNext s.word s

def exchangeQueued (a : Act Unit) (s : Shared ι) : Option (Shared ι × Pc) :=
  (compareExchangeWeak a s.word onceRunning).map fun
    | true => ({ s with word := onceQueued }, .futex)
    | false => onceNext s.word s

def exchangeComplete (s : Shared ι) : Shared ι × Pc :=
  let s' := { s with word := onceComplete }
  if s.word = onceQueued then (s', .wake) else s'.returns

def program [DecidableEq ι] : Program ι (Act Unit) (Shared ι) Pc := fun t a s pc =>
  match pc with
  | .idle => a.onCall fun _ => (s, .load)
  | .load => a.onRun (some (onceNext s.word s))
  | .exchangeRunning => exchangeRunning a s
  | .initStart => a.onRun (some ({ s with started := s.started + 1 }, .initBody))
  | .initBody => a.onRun (some ({ s with finished := s.finished + 1 }, .exchangeComplete))
  | .exchangeComplete => a.onRun (some (exchangeComplete s))
  | .wake => a.onRun (some ({ s with sleepers := [] }).returns)
  | .exchangeQueued => exchangeQueued a s
  | .futex =>
    a.onWait
      (if s.word = onceQueued then some ({ s with sleepers := s.sleepers ++ [t] }, .asleep)
      else some (s, .load))
      fun _ => (s, .load)
  | .asleep =>
    a.onWait
      (if t ∈ s.sleepers then none else some (s, .load))
      fun _ => ({ s with sleepers := leave t s.sleepers }, .load)

def start : Conf ι (Shared ι) Pc :=
  ⟨{ word := onceIncomplete, sleepers := [], started := 0, finished := 0, returned := 0 },
    fun _ => .idle⟩

/-! ### What a step can do -/

/-- The thread neither runs the function nor wakes anybody. -/
def Pc.plain : Pc → Prop
  | .initStart | .initBody | .exchangeComplete | .wake => False
  | _ => True

inductive Trans (t : ι) (s : Shared ι) (pc : Pc) : Shared ι → Pc → Prop
  | move (pc') (hpc : pc.plain) (hasleep : pc ≠ .asleep) (hpc' : pc'.plain)
      (hasleep' : pc' ≠ .asleep) : Trans t s pc s pc'
  | skip (hpc : pc.plain) (hasleep : pc ≠ .asleep) (hword : s.word ≠ onceIncomplete)
      (hrunning : s.word ≠ onceRunning) (hqueued : s.word ≠ onceQueued) :
      Trans t s pc { s with returned := s.returned + 1 } .idle
  | take (hpc : pc = .exchangeRunning) (hword : s.word = onceIncomplete) :
      Trans t s pc { s with word := onceRunning } .initStart
  | queue (hpc : pc = .exchangeQueued) (hword : s.word = onceRunning) :
      Trans t s pc { s with word := onceQueued } .futex
  | sleep (hpc : pc = .futex) (hword : s.word = onceQueued) :
      Trans t s pc { s with sleepers := s.sleepers ++ [t] } .asleep
  | resume (queue) (hpc : pc = .asleep) (hsub : ∀ u ∈ queue, u ∈ s.sleepers ∧ u ≠ t) :
      Trans t s pc { s with sleepers := queue } .load
  | begin (hpc : pc = .initStart) :
      Trans t s pc { s with started := s.started + 1 } .initBody
  | finish (hpc : pc = .initBody) :
      Trans t s pc { s with finished := s.finished + 1 } .exchangeComplete
  | complete (hpc : pc = .exchangeComplete) (hword : s.word ≠ onceQueued) :
      Trans t s pc { s with word := onceComplete, returned := s.returned + 1 } .idle
  | completeQueued (hpc : pc = .exchangeComplete) (hword : s.word = onceQueued) :
      Trans t s pc { s with word := onceComplete } .wake
  | wake (hpc : pc = .wake) :
      Trans t s pc { s with sleepers := [], returned := s.returned + 1 } .idle

section Trans

variable {t : ι} {a : Act Unit} {s s' : Shared ι} {pc pc' : Pc}

theorem onceNext_trans (hpc : pc.plain) (hasleep : pc ≠ .asleep)
    (h : onceNext s.word s = (s', pc')) : Trans t s pc s' pc' := by
  simp only [onceNext] at h
  split at h
  · cases h
    exact .move _ hpc hasleep trivial (by simp)
  · rename_i hword
    split at h
    · split at h
      all_goals
        cases h
        exact .move _ hpc hasleep trivial (by simp)
    · rename_i hrest
      obtain ⟨hrunning, hqueued⟩ := not_or.mp hrest
      cases h
      exact .skip hpc hasleep hword hrunning hqueued

theorem program_trans [DecidableEq ι] (h : program t a s pc = some (s', pc')) :
    Trans t s pc s' pc' := by
  cases pc with
  | idle =>
    obtain ⟨f, -, hf⟩ := Act.onCall_eq_some.mp h
    cases hf
    exact .move _ trivial (by simp) trivial (by simp)
  | load =>
    obtain ⟨-, hr⟩ := Act.onRun_eq_some.mp h
    exact onceNext_trans trivial (by simp) (Option.some.inj hr)
  | exchangeRunning =>
    obtain ⟨-, hword, h⟩ | h := compareExchangeWeak_map h
    · cases h
      exact .take rfl hword
    · exact onceNext_trans trivial (by simp) h
  | initStart =>
    obtain ⟨rfl, rfl⟩ := Act.onRun_some h
    exact .begin rfl
  | initBody =>
    obtain ⟨rfl, rfl⟩ := Act.onRun_some h
    exact .finish rfl
  | exchangeComplete =>
    obtain ⟨-, hr⟩ := Act.onRun_eq_some.mp h
    simp only [exchangeComplete] at hr
    split at hr
    · rename_i hword
      cases hr
      exact .completeQueued rfl hword
    · rename_i hword
      cases hr
      exact .complete rfl hword
  | wake =>
    obtain ⟨rfl, rfl⟩ := Act.onRun_some h
    exact .wake rfl
  | exchangeQueued =>
    obtain ⟨-, hword, h⟩ | h := compareExchangeWeak_map h
    · cases h
      exact .queue rfl hword
    · exact onceNext_trans trivial (by simp) h
  | futex =>
    obtain ⟨-, hword, ⟨⟩⟩ | ⟨-, ⟨⟩⟩ := Act.onWait_sleep h rfl
    · exact .sleep rfl hword
    · exact .move _ trivial (by simp) trivial (by simp)
  | asleep =>
    obtain ⟨hout, ⟨⟩⟩ | ⟨-, ⟨⟩⟩ := Act.onWait_asleep h
    · exact .resume _ rfl fun u hu => ⟨hu, fun hut => hout (hut ▸ hu)⟩
    · exact .resume _ rfl fun u hu => mem_leave.mp hu

end Trans

/-! ### The life of the word -/

/-- How far the function has come when the thread that runs it is at `pc`. -/
def Pc.progress : Pc → Option (ℕ × ℕ)
  | .initStart => some (0, 0)
  | .initBody => some (1, 0)
  | .exchangeComplete => some (1, 1)
  | _ => none

inductive Phase (c : Conf ι (Shared ι) Pc) : Prop
  | incomplete (hword : c.shared.word = onceIncomplete)
      (hno : ∀ t, (c.locals t).progress = none) (hstarted : c.shared.started = 0)
      (hfinished : c.shared.finished = 0) (hreturned : c.shared.returned = 0)
  | running (u) (hword : c.shared.word = onceRunning ∨ c.shared.word = onceQueued)
      (hu : (c.locals u).progress = some (c.shared.started, c.shared.finished))
      (hno : ∀ t, t ≠ u → (c.locals t).progress = none) (hreturned : c.shared.returned = 0)
  | complete (hword : c.shared.word = onceComplete)
      (hno : ∀ t, (c.locals t).progress = none) (hstarted : c.shared.started = 1)
      (hfinished : c.shared.finished = 1)

structure Inv (c : Conf ι (Shared ι) Pc) : Prop where
  phase : Phase c
  waker : ∀ t, c.locals t = .wake → c.shared.word = onceComplete
  asleep : ∀ t ∈ c.shared.sleepers, c.locals t = .asleep
  awake : c.shared.sleepers ≠ [] →
    c.shared.word = onceQueued ∨ ∃ u, c.locals u = .wake

theorem inv_start : Inv (start : Conf ι (Shared ι) Pc) where
  phase := .incomplete rfl (fun _ => rfl) rfl rfl rfl
  waker _ h := by contradiction
  asleep _ h := absurd h (by simp [start])
  awake h := absurd rfl h

section Step

variable {t : ι} {c : Conf ι (Shared ι) Pc} {s s' : Shared ι} {pc pc' : Pc}

theorem Pc.plain.progress_eq (h : pc.plain) : pc.progress = none := by
  cases pc <;> first | rfl | exact h.elim

/-- The thread of the running phase is the one that is running. -/
theorem Phase.runner (h : Phase c) {p : ℕ × ℕ} (hpc : (c.locals t).progress = some p) :
    (c.shared.word = onceRunning ∨ c.shared.word = onceQueued) ∧
      p = (c.shared.started, c.shared.finished) ∧
      (∀ u, u ≠ t → (c.locals u).progress = none) ∧ c.shared.returned = 0 := by
  cases h with
  | incomplete _ hno | complete _ hno =>
    rw [hno t] at hpc
    contradiction
  | running u hword hu hno hreturned =>
    obtain rfl : t = u := by
      by_contra hne
      rw [hno t hne] at hpc
      contradiction
    exact ⟨hword, Option.some.inj (hpc.symm.trans hu), hno, hreturned⟩

theorem Phase.of_complete (h : Phase c) (hword : c.shared.word = onceComplete) :
    (∀ u, (c.locals u).progress = none) ∧ c.shared.started = 1 ∧ c.shared.finished = 1 := by
  cases h with
  | incomplete hw =>
    rw [hw] at hword
    contradiction
  | running u hw =>
    rw [hword] at hw
    rcases hw with hw | hw <;> contradiction
  | complete _ hno hstarted hfinished => exact ⟨hno, hstarted, hfinished⟩

theorem Phase.complete_of_ne (h : Phase c) (hincomplete : c.shared.word ≠ onceIncomplete)
    (hrunning : c.shared.word ≠ onceRunning) (hqueued : c.shared.word ≠ onceQueued) :
    c.shared.word = onceComplete := by
  cases h with
  | incomplete hw => exact absurd hw hincomplete
  | running u hw => exact (hw.elim hrunning hqueued).elim
  | complete hw => exact hw

section

variable (h : Trans t s pc s' pc')
include h

theorem Trans.word_complete (hword : s.word = onceComplete) : s'.word = onceComplete := by
  cases h with
  | take hpc hw | queue hpc hw =>
    rw [hword] at hw
    contradiction
  | complete | completeQueued => rfl
  | _ => exact hword

theorem Trans.word_of_wake (hpc' : pc' = .wake) : s'.word = onceComplete := by
  cases h with
  | completeQueued => rfl
  | move pc' _ _ hplain =>
    rw [hpc'] at hplain
    exact hplain.elim
  | _ => contradiction

theorem Trans.asleep (hself : t ∈ s.sleepers → pc = .asleep) {u : ι}
    (hu : u ∈ s'.sleepers) : u = t ∧ pc' = .asleep ∨ u ≠ t ∧ u ∈ s.sleepers := by
  have hne (hpc : pc ≠ .asleep) (hin : u ∈ s.sleepers) : u ≠ t := fun hut =>
    hpc (hself (hut ▸ hin))
  cases h with
  | sleep hpc hword =>
    rcases List.mem_append.mp hu with hu | hu
    · exact .inr ⟨hne (by simp [hpc]) hu, hu⟩
    · exact .inl ⟨List.mem_singleton.mp hu, rfl⟩
  | resume queue hpc hsub => exact .inr (hsub u hu).symm
  | wake hpc => cases hu
  | move pc' hpc hasleep | skip hpc hasleep => exact .inr ⟨hne hasleep hu, hu⟩
  | take hpc | queue hpc | begin hpc | finish hpc | complete hpc | completeQueued hpc =>
    exact .inr ⟨hne (by simp [hpc]) hu, hu⟩

/-- Whoever takes the word on from queued has its wake ahead of it; `others`
stands for such a thread other than the scheduled one. -/
theorem Trans.awake {others : Prop}
    (hs : s.sleepers ≠ [] → s.word = onceQueued ∨ pc = .wake ∨ others) (hs' : s'.sleepers ≠ []) :
    s'.word = onceQueued ∨ pc' = .wake ∨ others := by
  have hold (hpc : pc ≠ .wake) (hne : s.sleepers ≠ []) : s.word = onceQueued ∨ others :=
    (hs hne).imp_right fun h => h.resolve_left hpc
  cases h with
  | queue hpc hword => exact .inl rfl
  | sleep hpc hword => exact .inl hword
  | completeQueued hpc hword => exact .inr (.inl rfl)
  | wake hpc => exact absurd rfl hs'
  | take hpc hword =>
    exact .inr (.inr ((hold (by simp [hpc]) hs').resolve_left (by rw [hword]; decide)))
  | complete hpc hword => exact .inr (.inr ((hold (by simp [hpc]) hs').resolve_left hword))
  | resume queue hpc hsub =>
    obtain ⟨u, hu⟩ := List.exists_mem_of_ne_nil _ hs'
    exact (hold (by simp [hpc]) (List.ne_nil_of_mem (hsub u hu).1)).imp_right .inr
  | begin hpc | finish hpc => exact (hold (by simp [hpc]) hs').imp_right .inr
  | move pc' hpc | skip hpc =>
    refine (hold ?_ hs').imp_right .inr
    rintro rfl
    exact hpc

end

variable [DecidableEq ι]

theorem progress_update (hno : ∀ u, u ≠ t → (c.locals u).progress = none)
    (hpc' : pc'.progress = none) (u : ι) : (update c.locals t pc' u).progress = none :=
  (forall_update_iff c.locals fun _ pc => pc.progress = none).mpr ⟨hpc', hno⟩ u

theorem progress_update_of_ne (hno : ∀ u, u ≠ t → (c.locals u).progress = none) (u : ι)
    (hu : u ≠ t) : (update c.locals t pc' u).progress = none := by
  rw [update_of_ne hu]
  exact hno u hu

/-- A step outside the function that leaves the word, or queues on it. -/
theorem Phase.keep (h : Phase c) (hpc : (c.locals t).progress = none) (hpc' : pc'.progress = none)
    (hword : s'.word = c.shared.word ∨ c.shared.word = onceRunning ∧ s'.word = onceQueued)
    (hstarted : s'.started = c.shared.started) (hfinished : s'.finished = c.shared.finished)
    (hreturned : s'.returned = c.shared.returned) : Phase ⟨s', update c.locals t pc'⟩ := by
  have hkept (hne : c.shared.word ≠ onceRunning) : s'.word = c.shared.word :=
    hword.resolve_right fun h => hne h.1
  cases h with
  | incomplete hw hno hst hfi hre =>
    have hw' := hkept (by rw [hw]; decide)
    exact .incomplete (hw'.trans hw) (progress_update (fun u _ => hno u) hpc')
      (hstarted.trans hst) (hfinished.trans hfi) (hreturned.trans hre)
  | running u hw hu hno hre =>
    have hut : u ≠ t := by
      rintro rfl
      rw [hpc] at hu
      contradiction
    refine .running u ?_ ?_ ?_ (hreturned.trans hre)
    · rcases hword with hword | ⟨-, hword⟩
      · exact hw.imp hword.trans hword.trans
      · exact .inr hword
    · change (update c.locals t pc' u).progress = some (s'.started, s'.finished)
      rw [update_of_ne hut, hu, hstarted, hfinished]
    · exact (forall_update_iff c.locals
        fun v pc => v ≠ u → pc.progress = none).mpr ⟨fun _ => hpc', fun v _ => hno v⟩
  | complete hw hno hst hfi =>
    have hw' := hkept (by rw [hw]; decide)
    exact .complete (hw'.trans hw) (progress_update (fun u _ => hno u) hpc')
      (hstarted.trans hst) (hfinished.trans hfi)

theorem Phase.step (h : Phase c) (hwaker : c.locals t = .wake → c.shared.word = onceComplete)
    (htrans : Trans t c.shared (c.locals t) s' pc') : Phase ⟨s', update c.locals t pc'⟩ := by
  -- a call that returns without having run the function finds it complete
  have hreturn (hword : c.shared.word = onceComplete) {s₁ : Shared ι}
      (hw : s₁.word = c.shared.word) (hst : s₁.started = c.shared.started)
      (hfi : s₁.finished = c.shared.finished) :
      Phase ⟨s₁, update c.locals t .idle⟩ := by
    obtain ⟨hno, hstarted, hfinished⟩ := h.of_complete hword
    exact .complete (hw.trans hword) (progress_update (fun u _ => hno u) rfl)
      (hst.trans hstarted) (hfi.trans hfinished)
  cases htrans with
  | move pc' hpc hasleep hpc' hasleep' =>
    exact h.keep hpc.progress_eq hpc'.progress_eq (.inl rfl) rfl rfl rfl
  | skip hpc hasleep hword hrunning hqueued =>
    exact hreturn (h.complete_of_ne hword hrunning hqueued) rfl rfl rfl
  | take hpc hword =>
    cases h with
    | incomplete hw hno hst hfi hre =>
      refine .running t (.inl rfl) ?_ (progress_update_of_ne fun u _ => hno u) hre
      change (update c.locals t .initStart t).progress = _
      rw [update_self, hst, hfi]
      rfl
    | running u hw =>
      rw [hword] at hw
      rcases hw with hw | hw <;> contradiction
    | complete hw =>
      rw [hword] at hw
      contradiction
  | queue hpc hword => exact h.keep (by rw [hpc]; rfl) rfl (.inr ⟨hword, rfl⟩) rfl rfl rfl
  | sleep hpc hword | resume queue hpc hsub =>
    exact h.keep (by rw [hpc]; rfl) rfl (.inl rfl) rfl rfl rfl
  | begin hpc | finish hpc =>
    obtain ⟨hword, hp, hno, hre⟩ := h.runner (t := t) (by rw [hpc]; rfl)
    obtain ⟨hst, hfi⟩ := Prod.mk.inj hp
    refine .running t hword ?_ (progress_update_of_ne hno) hre
    dsimp only
    rw [update_self, ← hst, ← hfi]
    rfl
  | complete hpc hword | completeQueued hpc hword =>
    obtain ⟨-, hp, hno, -⟩ := h.runner (t := t) (by rw [hpc]; rfl)
    obtain ⟨hst, hfi⟩ := Prod.mk.inj hp
    exact .complete rfl (progress_update hno rfl) hst.symm hfi.symm
  | wake hpc => exact hreturn (hwaker hpc) rfl rfl rfl

theorem Inv.step (hc : Inv c) (h : Trans t c.shared (c.locals t) s' pc') :
    Inv ⟨s', update c.locals t pc'⟩ := by
  constructor
  case phase => exact hc.phase.step (hc.waker t) h
  case waker =>
    exact (forall_update_iff c.locals
      fun _ pc => pc = .wake → s'.word = onceComplete).mpr
      ⟨h.word_of_wake, fun u _ hu => h.word_complete (hc.waker u hu)⟩
  case asleep =>
    intro u hu
    rcases h.asleep (hc.asleep t) hu with ⟨rfl, hpc⟩ | ⟨hut, hin⟩
    · simpa using hpc
    · simpa [update_of_ne hut] using hc.asleep u hin
  case awake =>
    -- the one that will wake the sleepers may be the thread that makes the step
    intro hne
    have hold := fun hs => (hc.awake hs).imp_right (exists_self_or t)
    exact (h.awake hold hne).imp_right
      (exists_update_iff c.locals fun _ pc => pc = .wake).mpr

end Step

/-! ### Runs -/

/-- What `thread_once` promises in every state. -/
structure Correct (c : Conf ι (Shared ι) Pc) : Prop where
  started : c.shared.started ≤ 1
  returned : 0 < c.shared.returned → c.shared.started = 1 ∧ c.shared.finished = 1
  wakeup : ∀ t ∈ c.shared.sleepers, c.shared.word = onceQueued ∨ ∃ u, c.locals u = .wake

theorem Inv.correct {c : Conf ι (Shared ι) Pc} (hc : Inv c) : Correct c := by
  refine ⟨?_, ?_, fun t ht => hc.awake (List.ne_nil_of_mem ht)⟩
  · cases hc.phase with
    | incomplete _ _ hstarted | complete _ _ hstarted => omega
    | running u _ hu =>
      cases hpc : c.locals u <;> rw [hpc] at hu <;> first | contradiction | skip
      all_goals
        obtain ⟨hstarted, -⟩ := Prod.mk.inj (Option.some.inj hu)
        omega
  · intro hpos
    cases hc.phase with
    | incomplete _ _ _ _ hreturned | running _ _ _ _ hreturned => omega
    | complete _ _ hstarted hfinished => exact ⟨hstarted, hfinished⟩

theorem inv_of_exec [DecidableEq ι] {sched : List (ι × Act Unit)} {c : Conf ι (Shared ι) Pc}
    (hrun : program.exec sched start = some c) : Inv c := by
  refine Program.exec_invariant (I := Inv) (fun t a c c' hc h => ?_) inv_start hrun
  obtain ⟨s', pc', hp, rfl⟩ := Program.step_eq_some.mp h
  exact hc.step (program_trans hp)

theorem correct_of_exec [DecidableEq ι] {sched : List (ι × Act Unit)} {c : Conf ι (Shared ι) Pc}
    (hrun : program.exec sched start = some c) : Correct c :=
  (inv_of_exec hrun).correct

/-- The second thread queues behind the first, which completes the word and has
yet to wake it. -/
def queueThenComplete (t u : Fin 2) : List (Fin 2 × Act Unit) :=
  (t, .call ()) :: steps t 3 ++ (u, .call ()) :: steps u 3 ++ steps t 2

theorem correct_of_exec_queueThenComplete :
    ∃ c ∈ program.exec (queueThenComplete 0 1) start, 1 ∈ c.shared.sleepers ∧
      c.shared.word = onceComplete ∧ Correct c := by
  have hrun : program.exec (queueThenComplete 0 1) start = some _ := rfl
  exact ⟨_, hrun, by decide, rfl, correct_of_exec hrun⟩

/-! ### Progress -/

/-- Only a sleeper on the list has to wait for another thread. -/
theorem program_run [DecidableEq ι] {t : ι} {s : Shared ι} {pc : Pc} (hpc : pc ≠ .idle)
    (hawake : pc = .asleep → t ∉ s.sleepers) : ∃ r, program t .run s pc = some r := by
  cases pc with
  | idle => contradiction
  | asleep => exact ⟨_, if_neg (hawake rfl)⟩
  | futex =>
    simp only [program, Act.onWait]
    split <;> exact ⟨_, rfl⟩
  | _ => exact ⟨_, rfl⟩

/-- As long as a call has not returned, some thread inside a call can go on. -/
theorem never_stuck [DecidableEq ι] {sched : List (ι × Act Unit)} {c : Conf ι (Shared ι) Pc}
    (hrun : program.exec sched start = some c) {t : ι} (ht : c.locals t ≠ .idle) :
    ∃ u r, program u .run c.shared (c.locals u) = some r := by
  have hinv := inv_of_exec hrun
  by_cases hsleeps : t ∈ c.shared.sleepers
  · rcases hinv.awake (List.ne_nil_of_mem hsleeps) with hword | ⟨u, hu⟩
    · cases hinv.phase with
      | running u _ hu =>
        -- the thread that runs the function does not sleep
        refine ⟨u, program_run ?_ ?_⟩
        all_goals
          intro h
          rw [h] at hu
          cases hu
      | incomplete hw | complete hw => cases hword.symm.trans hw
    · exact ⟨u, program_run (hu ▸ nofun) (hu ▸ nofun)⟩
  · exact ⟨t, program_run ht fun _ => hsleeps⟩

theorem never_stuck_queueThenComplete : ∃ c ∈ program.exec (queueThenComplete 0 1) start,
    1 ∈ c.shared.sleepers ∧ ∃ u r, program u .run c.shared (c.locals u) = some r := by
  have hrun : program.exec (queueThenComplete 0 1) start = some _ := rfl
  exact ⟨_, hrun, by decide, never_stuck hrun (t := 1) (by decide)⟩

end Hzlibc.Internal.Once
