import Hzlibc.Internal.Cond

/-!
Condition variables lose no wakeup, and a wait returns with the mutex.

A wait that has loaded the word before a signal can never go to sleep after it:
its number of signals is behind for good. What is left is who is asleep when
the wake comes. A broadcast wakes all of them, and a signal wakes the one that
has slept longest, which is also the one that has loaded first.
-/

namespace Hzlibc.Internal.Cond

open Concurrency List Function

variable {ι : Type*}

/-- Thread `x.1` is not asleep in the wait `x.2` and has missed its chance. -/
structure Gone (x : ι × Wait) (c : Conf ι (Shared ι) Local) : Prop where
  awake : x ∉ c.shared.sleepers
  behind : x.2.signals < c.shared.signals

/-- Thread `t` has loaded the word for the wait `w` and has neither left the
wait nor been woken. -/
def Waiting (c : Conf ι (Shared ι) Local) (t : ι) (w : Wait) : Prop :=
  (c.locals t).pc.wait? = some w ∧
    ((c.locals t).pc = .waitAsleep w → (t, w) ∈ c.shared.sleepers)

variable [DecidableEq ι] {ids : Mutex.ThreadIds ι} {t : ι} {a : Act Call}
  {c c' : Conf ι (Shared ι) Local}

theorem signalInv_step (hc : SignalInv c) (hfits : Fits t a c)
    (h : (program ids).step t a c = some c') : SignalInv c' := by
  obtain ⟨s', l', hp, rfl⟩ := Program.step_eq_some.mp h
  exact hc.step hfits (program_trans hp)

theorem Gone.step {x : ι × Wait} (hx : Gone x c) (hc : SignalInv c) (hfits : Fits t a c)
    (h : (program ids).step t a c = some c') : Gone x c' := by
  obtain ⟨s', l', hp, rfl⟩ := Program.step_eq_some.mp h
  have htrans := program_trans hp
  refine ⟨fun hin => ?_, hx.behind.trans_le htrans.signals_le⟩
  rcases htrans.sleepers hc hfits with ⟨hsub, -⟩ | ⟨w, hs, -, -, hw⟩
  · exact hx.awake (hsub.subset hin)
  · rw [hs] at hin
    rcases mem_append.mp hin with hin | hin
    · exact hx.awake hin
    · obtain rfl := mem_singleton.mp hin
      exact absurd hw hx.behind.ne

variable {sched : List (ι × Act Call)} {w : Wait}

theorem Gone.later {x : ι × Wait} (hx : Gone x c) (hc : SignalInv c)
    (hfits : (program ids).AllSteps Fits sched c) (hrun : (program ids).exec sched c = some c') :
    Gone x c' := by
  have hboth : SignalInv c' ∧ Gone x c' :=
    hfits.invariant (I := fun c => SignalInv c ∧ Gone x c)
      (fun _ _ _ _ hi hg h => ⟨signalInv_step hi.1 hg h, hi.2.step hi.1 hg h⟩) ⟨hc, hx⟩ hrun
  exact hboth.2

/-- A thread that waits after a step waited before it, or has just loaded the
word. -/
theorem Waiting.of_step (hc : SignalInv c) (hfits : Fits t a c)
    (h : (program ids).step t a c = some c') {u : ι} (hu : Waiting c' u w) :
    Waiting c u w ∨ w.signals = c.shared.signals := by
  obtain ⟨s', l', hp, rfl⟩ := Program.step_eq_some.mp h
  have htrans := program_trans hp
  have hsleepers := htrans.sleepers hc hfits
  obtain ⟨hwait, hasleep⟩ := hu
  by_cases hut : u = t
  · subst u
    simp at hwait hasleep
    rcases htrans.wait? hwait with hold | ⟨-, hsignals⟩
    · refine .inl ⟨hold, fun hpc => ?_⟩
      -- a thread that was asleep has left the wait, or has not moved
      cases htrans with
      | mutex m x pc' target hpc' => exact absurd hpc (Pc.returnsTo_ne_asleep hpc' w)
      | resume w' r queue hpc' => contradiction
      | call _ _ hk | wait _ _ _ _ _ hk | signal _ _ hk | clock _ _ hk | load _ hk | sleep _ _ hk
      | skip _ _ hk | add _ hk | wake _ hk =>
        rw [hk] at hpc
        contradiction
    · exact .inr hsignals
  · simp only [update_of_ne hut] at hwait hasleep
    refine .inl ⟨hwait, fun hpc => ?_⟩
    have hin := hasleep hpc
    rcases hsleepers with ⟨hsub, -⟩ | ⟨w', hs, -, -, -⟩
    · exact hsub.subset hin
    · rw [hs] at hin
      refine (mem_append.mp hin).resolve_right fun h => hut ?_
      exact congrArg Prod.fst (mem_singleton.mp h)

variable {c₁ : Conf ι (Shared ι) Local}

/-- A thread that waits now, with a load from before the signal, was waiting
when the signal came. -/
theorem Waiting.since (hc : SignalInv c) (hlt : c₁.shared.signals < c.shared.signals)
    (hsince : ∀ u w, Waiting c u w → w.signals ≤ c₁.shared.signals → Waiting c₁ u w)
    (hfits : (program ids).AllSteps Fits sched c) (hrun : (program ids).exec sched c = some c') :
    ∀ u w, Waiting c' u w → w.signals ≤ c₁.shared.signals → Waiting c₁ u w := by
  have hall : SignalInv c' ∧ c₁.shared.signals < c'.shared.signals ∧
      ∀ u w, Waiting c' u w → w.signals ≤ c₁.shared.signals → Waiting c₁ u w := by
    refine hfits.invariant (I := fun c => SignalInv c ∧ c₁.shared.signals < c.shared.signals ∧
      ∀ u w, Waiting c u w → w.signals ≤ c₁.shared.signals → Waiting c₁ u w) ?_
      ⟨hc, hlt, hsince⟩ hrun
    rintro t a c c' ⟨hc, hlt, hsince⟩ hg h
    refine ⟨signalInv_step hc hg h, ?_, fun u w hu hle => ?_⟩
    · obtain ⟨s', l', hp, rfl⟩ := Program.step_eq_some.mp h
      exact hlt.trans_le (program_trans hp).signals_le
    · rcases hu.of_step hc hg h with hu | hw
      · exact hsince u w hu hle
      · omega
  exact hall.2.2

/-! ### Signals -/

/-- Thread `b` makes the increment of its signal or broadcast in `c₁` and
completes the call with the step to `c₄`. -/
def Completes (ids : Mutex.ThreadIds ι) (all : Bool) (b : ι) (c₁ c₄ : Conf ι (Shared ι) Local) :
    Prop :=
  (c₁.locals b).pc = .signalAdd all ∧ ∃ c₂ sched c₃, (program ids).step b .run c₁ = some c₂ ∧
    (∀ x ∈ sched, x.1 ≠ b) ∧ (program ids).AllSteps Fits sched c₂ ∧
    (program ids).exec sched c₂ = some c₃ ∧ (program ids).step b .run c₃ = some c₄

/-- State `c'` is reached from `c`. -/
def Later (ids : Mutex.ThreadIds ι) (c c' : Conf ι (Shared ι) Local) : Prop :=
  ∃ sched, (program ids).AllSteps Fits sched c ∧ (program ids).exec sched c = some c'

/-- Thread `t` is asleep in the futex wait of `w`. -/
def Asleep (c : Conf ι (Shared ι) Local) (t : ι) (w : Wait) : Prop := (t, w) ∈ c.shared.sleepers

variable {b : ι} {all : Bool} {c₄ : Conf ι (Shared ι) Local}

theorem locals_of_exec (hb : ∀ x ∈ sched, x.1 ≠ b) (hrun : (program ids).exec sched c = some c') :
    c'.locals b = c.locals b := by
  induction sched generalizing c with
  | nil =>
    simp at hrun
    rw [hrun]
  | cons x sched ih =>
    obtain ⟨m, hm, hrest⟩ := Program.exec_cons_eq_some.mp hrun
    obtain ⟨s', l', -, rfl⟩ := Program.step_eq_some.mp hm
    have hx : b ≠ x.1 := (hb x mem_cons_self).symm
    rw [ih (fun y hy => hb y (mem_cons_of_mem _ hy)) hrest]
    exact update_of_ne hx ..

omit [DecidableEq ι] in
theorem fits_of_ne (hpc : ∀ w, (c.locals b).pc ≠ .waitFutex w) : Fits b a c := by
  unfold Fits
  split
  · rename_i w hw
    exact absurd hw (hpc w)
  · trivial

/-- The moment of the wake: whoever waits there with a load from before the
signal was waiting when the signal came. -/
theorem Completes.spec (h : Completes ids all b c₁ c₄) (hc₁ : SignalInv c₁) :
    ∃ c₃ : Conf ι (Shared ι) Local, SignalInv c₃ ∧ c₁.shared.signals < c₃.shared.signals ∧
      (∀ u w, Waiting c₃ u w → w.signals ≤ c₁.shared.signals → Waiting c₁ u w) ∧
      SignalInv c₄ ∧ c₄.shared.signals = c₃.shared.signals ∧
      c₄.shared.sleepers = if all then [] else c₃.shared.sleepers.tail := by
  obtain ⟨hpc, c₂, sched, c₃, hadd, hb, hfits, hrun, hwake⟩ := h
  have hc₂ := signalInv_step hc₁ (fits_of_ne (by simp [hpc])) hadd
  have hc₃ : SignalInv c₃ :=
    hfits.invariant (fun _ _ _ _ hc hg h => signalInv_step hc hg h) hc₂ hrun
  simp [Program.step, program, hpc, Act.onRun] at hadd
  subst hadd
  have hpc₃ : (c₃.locals b).pc = .signalWake all := by
    rw [locals_of_exec hb hrun]
    simp [Local.at]
  have hc₄ := signalInv_step hc₃ (fits_of_ne (by simp [hpc₃])) hwake
  simp [Program.step, program, hpc₃, Act.onRun] at hwake
  subst hwake
  have hlt : c₁.shared.signals < c₃.shared.signals := by
    refine hfits.invariant (I := fun c => c₁.shared.signals < c.shared.signals) ?_
      (Nat.lt_succ_self _) hrun
    intro t a c c' hlt _ h
    obtain ⟨s', l', hp, rfl⟩ := Program.step_eq_some.mp h
    exact hlt.trans_le (program_trans hp).signals_le
  refine ⟨c₃, hc₃, hlt, ?_, hc₄, rfl, rfl⟩
  refine Waiting.since hc₂ (Nat.lt_succ_self _) (fun u w hu _ => ?_) hfits hrun
  by_cases hub : u = b
  · subst u
    obtain ⟨hwait, -⟩ := hu
    simp at hwait
    contradiction
  · simpa [Waiting, update_of_ne hub] using hu

theorem Completes.broadcast (h : Completes ids true b c₁ c₄)
    (hc₁ : SignalInv c₁) {t : ι} (ht : (c₁.locals t).pc.wait? = some w) :
    SignalInv c₄ ∧ Gone (t, w) c₄ := by
  obtain ⟨c₃, -, hlt, -, hc₄, hsignals, hsleepers⟩ := h.spec hc₁
  have hle := (hc₁.value t w ht).2
  refine ⟨hc₄, ?_, ?_⟩
  · rw [hsleepers]
    exact not_mem_nil
  · change w.signals < c₄.shared.signals
    omega

theorem Completes.signal (h : Completes ids false b c₁ c₄)
    (hc₁ : SignalInv c₁) (hsome : ∃ t w, Waiting c₁ t w) :
    SignalInv c₄ ∧ ∃ t w, Waiting c₁ t w ∧ Gone (t, w) c₄ := by
  obtain ⟨c₃, hc₃, hlt, hsince, hc₄, hsignals, hsleepers⟩ := h.spec hc₁
  have hbehind {t : ι} {w : Wait} (ht : Waiting c₁ t w) : w.signals < c₄.shared.signals := by
    have := (hc₁.value t w ht.1).2
    omega
  refine ⟨hc₄, ?_⟩
  by_cases hasleep : ∃ t w, Waiting c₁ t w ∧ (t, w) ∈ c₃.shared.sleepers
  · -- the head of the list has loaded no later than this sleeper
    obtain ⟨t, w, ht, hin⟩ := hasleep
    have hle := (hc₁.value t w ht.1).2
    cases hlist : c₃.shared.sleepers with
    | nil => simp [hlist] at hin
    | cons x rest =>
      have hx : x ∈ c₃.shared.sleepers := by simp [hlist]
      have hfirst : x.2.signals ≤ w.signals := by
        have hsorted := hc₃.sorted
        rw [hlist] at hin hsorted
        rcases mem_cons.mp hin with rfl | hin
        · exact le_rfl
        · exact (pairwise_cons.mp hsorted).1 _ hin
      have hpc := hc₃.asleep x hx
      have hwaiting : Waiting c₁ x.1 x.2 :=
        hsince x.1 x.2 ⟨by rw [hpc]; rfl, fun _ => hx⟩ (hfirst.trans hle)
      refine ⟨x.1, x.2, hwaiting, fun hin' => ?_, hbehind hwaiting⟩
      have hnodup := hc₃.nodup
      rw [hlist, map_cons, nodup_cons] at hnodup
      rw [hsleepers, hlist] at hin'
      exact hnodup.1 (mem_map_of_mem hin')
  · obtain ⟨t, w, ht⟩ := hsome
    refine ⟨t, w, ht, fun hin => hasleep ⟨t, w, ht, ?_⟩, hbehind ht⟩
    rw [hsleepers] at hin
    exact mem_of_mem_tail hin

/-! ### The mutex -/

def mutexConf {ι : Type*} (c : Conf ι (Shared ι) Local) : Conf ι (Mutex.Shared ι) Mutex.Local :=
  ⟨c.shared.mutex, fun t => (c.locals t).mutex⟩

def Held {ι : Type*} (ids : Mutex.ThreadIds ι) (c : Conf ι (Shared ι) Local) (t : ι) : Prop :=
  c.shared.mutex.state &&& ~~~ Mutex.flagWaiting = ids.id t

/-- A wait is called with the mutex held. -/
def CallsHolding {ι : Type*} (ids : Mutex.ThreadIds ι) (t : ι) (a : Act Call)
    (c : Conf ι (Shared ι) Local) : Prop :=
  match a with
  | .call f => f.waits = true → Held ids c t
  | _ => True

instance {ι : Type*} (ids : Mutex.ThreadIds ι) (t : ι) (a : Act Call)
    (c : Conf ι (Shared ι) Local) : Decidable (CallsHolding ids t a c) := by
  unfold CallsHolding Held
  split <;> infer_instance

/-- The parts of a wait that run with the mutex. -/
def Pc.holding : Pc → Prop
  | .waitClock _ | .waitLoad _ => True
  | _ => False

def Pc.inWait : Pc → Prop
  | .waitClock _ | .waitLoad _ | .waitUnlock _ | .waitFutex _ | .waitAsleep _
  | .waitLock _ _ => True
  | _ => False

structure MutexInv {ι : Type*} (ids : Mutex.ThreadIds ι) (c : Conf ι (Shared ι) Local) : Prop where
  word : Mutex.WordInv ids (mutexConf c)
  outside : ∀ t, (c.locals t).pc.returnsTo = none → ∃ last, (c.locals t).mutex.pc = .idle last
  locking : ∀ t w r, (c.locals t).pc = .waitLock w r → (c.locals t).mutex.pc.locks
  held : ∀ t, (c.locals t).pc.holding → Held ids c t

section MutexStep

variable {ι : Type*} {ids : Mutex.ThreadIds ι} {t : ι} {a : Act Call}
  {c c' : Conf ι (Shared ι) Local} {s s' : Shared ι} {l l' : Local}

/-- A step makes at most one step of the mutex. -/
theorem Trans.mutex_trans (h : Trans ids t a s l s' l')
    (hout : l.pc.returnsTo = none → ∃ last, l.mutex.pc = .idle last) :
    s'.mutex = s.mutex ∧ l'.mutex = l.mutex ∨
      Mutex.Trans (ids.id t) t s.mutex l.mutex s'.mutex l'.mutex := by
  have hcall (f : Mutex.Call) (hpc : l.pc.returnsTo = none) :
      Mutex.Trans (ids.id t) t s.mutex l.mutex s.mutex (l.mutex.at (.enter f)) := by
    obtain ⟨last, hlast⟩ := hout hpc
    exact .call last f hlast
  cases h with
  | mutex m x pc' target hpc hstep hpc' => exact .inr hstep
  | call f last hpc => exact .inr (hcall f (by rw [hpc]; rfl))
  | load deadline hpc => exact .inr (hcall .unlock (by rw [hpc]; rfl))
  | skip w r hpc | resume w r queue hpc => exact .inr (hcall .lock (by rw [hpc]; rfl))
  | _ => exact .inl ⟨rfl, rfl⟩

theorem afterLock_ne_waitLock (w w' : Wait) (r r' : WaitResult) :
    afterLock w r ≠ .waitLock w' r' := by
  obtain ⟨value, signals, deadline⟩ := w
  cases deadline <;> cases r <;> simp [afterLock]

/-- A thread that locks the mutex for its wait has it when the lock returns. -/
theorem MutexInv.held_of_lock (hc : MutexInv ids c) {r : WaitResult}
    (hpc : (c.locals t).pc = .waitLock w r) {m : Mutex.Shared ι} {x : Mutex.Local}
    (hstep : Mutex.Trans (ids.id t) t c.shared.mutex (c.locals t).mutex m x)
    (hidle : ∃ last, x.pc = .idle last) : m.state &&& ~~~ Mutex.flagWaiting = ids.id t := by
  rcases hstep.locks (hc.locking t w r hpc) with hlocks | ⟨-, howning, hstate⟩
  · obtain ⟨last, hlast⟩ := hidle
    rw [hlast] at hlocks
    exact hlocks.elim
  · rw [hstate]
    exact hc.word.owner t howning

theorem Trans.outside (h : Trans ids t a s l s' l')
    (hout : l.pc.returnsTo = none → ∃ last, l.mutex.pc = .idle last)
    (hpc' : l'.pc.returnsTo = none) : ∃ last, l'.mutex.pc = .idle last := by
  cases h with
  | mutex m x pc' target hpc hstep hor =>
    rcases hor with ⟨rfl, -⟩ | ⟨-, hidle⟩
    · rw [hpc] at hpc'
      contradiction
    · exact hidle
  | call | load | skip | resume => contradiction
  | wait _ _ _ _ _ hpc | signal _ _ hpc | clock _ _ hpc | sleep _ _ hpc | add _ hpc | wake _ hpc =>
    exact hout (by rw [hpc]; rfl)

theorem Trans.locking (h : Trans ids t a s l s' l')
    (hlocking : ∀ w r, l.pc = .waitLock w r → l.mutex.pc.locks) {r : WaitResult}
    (hpc' : l'.pc = .waitLock w r) : l'.mutex.pc.locks := by
  cases h with
  | mutex m x pc' target hpc hstep hor =>
    rcases hor with ⟨rfl, hrun⟩ | ⟨rfl, -⟩
    · rcases hstep.locks (hlocking w r hpc') with hlocks | ⟨⟨last, hlast⟩, -⟩
      · exact hlocks
      · exact absurd hlast (hrun last)
    · subst hpc'
      cases hk : l.pc with
      | inMutex | waitUnlock w' =>
        rw [hk] at hpc
        simp [Pc.returnsTo] at hpc
      | waitLock w' r' =>
        rw [hk] at hpc
        exact absurd (Option.some.inj hpc) (afterLock_ne_waitLock w' w r' r)
      | _ =>
        rw [hk] at hpc
        contradiction
  | skip | resume => trivial
  | wait pc'' last f ha hf hpc hor => rcases hor with rfl | ⟨x, rfl⟩ <;> contradiction
  | clock x r' hpc =>
    have hnone := (timedwaitClock_away x r').2
    change timedwaitClock x r' = _ at hpc'
    rw [hpc'] at hnone
    contradiction
  | _ => contradiction

theorem MutexInv.held_self (hc : MutexInv ids c) (hcalls : CallsHolding ids t a c)
    (h : Trans ids t a c.shared (c.locals t) s' l') (hpc' : l'.pc.holding) :
    s'.mutex.state &&& ~~~ Mutex.flagWaiting = ids.id t := by
  cases h with
  | mutex m x pc' target hpc hstep hor =>
    rcases hor with ⟨rfl, -⟩ | ⟨rfl, hidle⟩
    · cases hk : (c.locals t).pc <;> rw [hk] at hpc hpc' <;> contradiction
    cases hk : (c.locals t).pc with
    | inMutex | waitUnlock w =>
      rw [hk] at hpc
      cases hpc
      exact hpc'.elim
    | waitLock w r => exact hc.held_of_lock hk hstep hidle
    | _ =>
      rw [hk] at hpc
      contradiction
  | wait pc' last f ha hf hpc hor =>
    subst ha
    exact hcalls hf
  | clock x r hpc => exact hc.held t (by rw [hpc]; trivial)
  | _ => exact hpc'.elim

theorem mutexInv_start (ids : Mutex.ThreadIds ι) (kind : ℤ) : MutexInv ids (start kind) where
  word := Mutex.wordInv_start ids kind
  outside _ _ := ⟨none, rfl⟩
  locking _ _ _ h := by contradiction
  held _ h := h.elim

variable [DecidableEq ι]

theorem mutexConf_update (c : Conf ι (Shared ι) Local) (t : ι) (s' : Shared ι) (l' : Local) :
    mutexConf ⟨s', update c.locals t l'⟩ =
      ⟨s'.mutex, update (mutexConf c).locals t l'.mutex⟩ := by
  simp [mutexConf]
  ext1 u
  by_cases hut : u = t
  · rw [hut, update_self, update_self]
  · rw [update_of_ne hut, update_of_ne hut]

theorem MutexInv.step (hc : MutexInv ids c) (hcalls : CallsHolding ids t a c)
    (h : Trans ids t a c.shared (c.locals t) s' l') : MutexInv ids ⟨s', update c.locals t l'⟩ := by
  have hmutex := h.mutex_trans (hc.outside t)
  constructor
  case word =>
    rw [mutexConf_update]
    rcases hmutex with ⟨hs, hl⟩ | hstep
    · have hsame : update (mutexConf c).locals t l'.mutex = (mutexConf c).locals := by
        rw [hl]
        exact update_eq_self ..
      rw [hsame, hs]
      exact hc.word
    · exact hc.word.of_trans hstep
  case outside =>
    exact (forall_update_iff c.locals fun _ l =>
      l.pc.returnsTo = none → ∃ last, l.mutex.pc = .idle last).mpr
      ⟨h.outside (hc.outside t), fun u _ => hc.outside u⟩
  case locking =>
    exact (forall_update_iff c.locals fun _ l =>
      ∀ w r, l.pc = .waitLock w r → l.mutex.pc.locks).mpr
      ⟨fun _ _ => h.locking (hc.locking t), fun u _ => hc.locking u⟩
  case held =>
    -- the mutex stays with a thread that holds it, whatever another one does
    refine (forall_update_iff c.locals fun u l => l.pc.holding →
      s'.mutex.state &&& ~~~ Mutex.flagWaiting = ids.id u).mpr
      ⟨hc.held_self hcalls h, fun u hu hpc => ?_⟩
    have hheld : c.shared.mutex.state &&& ~~~ Mutex.flagWaiting = ids.id u := hc.held u hpc
    rcases hmutex with ⟨hs, -⟩ | hstep
    · rw [hs]
      exact hheld
    · exact hstep.owner_other (hc.word.owner t) hu hheld

end MutexStep

/-! ### Runs -/

/-- What a condition variable promises from a state on. After a broadcast no
wait that had loaded the word before it is asleep, after a signal one of the
waits of that time is not, and a wait that returns has the mutex, even one that
returns because a clock has failed. -/
structure Correct {ι : Type*} [DecidableEq ι] (ids : Mutex.ThreadIds ι)
    (c : Conf ι (Shared ι) Local) : Prop where
  broadcast : ∀ b c₁, Completes ids true b c c₁ → ∀ t w, (c.locals t).pc.wait? = some w →
    ∀ c₂, Later ids c₁ c₂ → ¬ Asleep c₂ t w
  signal : ∀ b c₁, Completes ids false b c c₁ → (∃ t w, Waiting c t w) →
    ∃ t w, Waiting c t w ∧ ∀ c₂, Later ids c₁ c₂ → ¬ Asleep c₂ t w
  returns : ∀ t a c₁ ret, (program ids).step t a c = some c₁ → (c.locals t).pc.inWait →
    (c₁.locals t).pc = .idle (some ret) → Held ids c₁ t

theorem MutexInv.returns {ι : Type*} [DecidableEq ι] {ids : Mutex.ThreadIds ι} {t : ι}
    {a : Act Call} {c c₁ : Conf ι (Shared ι) Local} {ret : Ret} (hc : MutexInv ids c)
    (h : (program ids).step t a c = some c₁) (hpc : (c.locals t).pc.inWait)
    (hret : (c₁.locals t).pc = .idle (some ret)) : Held ids c₁ t := by
  obtain ⟨s', l', hp, rfl⟩ := Program.step_eq_some.mp h
  simp at hret
  cases program_trans hp with
  | mutex m x pc' target hk hstep hor =>
    subst hret
    rcases hor with ⟨heq, -⟩ | ⟨rfl, hidle⟩
    · rw [← heq] at hpc
      exact hpc.elim
    · cases hk' : (c.locals t).pc with
      | waitLock w r => exact hc.held_of_lock hk' hstep hidle
      | inMutex =>
        rw [hk'] at hpc
        exact hpc.elim
      | waitUnlock w =>
        rw [hk'] at hk
        simp [Pc.returnsTo] at hk
      | _ =>
        rw [hk'] at hk
        contradiction
  | clock x r hk => exact hc.held t (by rw [hk]; trivial)
  | wait pc' last f ha hf hk | wake all hk =>
    rw [hk] at hpc
    exact hpc.elim
  | _ => contradiction

theorem correct_of_holding {ι : Type*} [DecidableEq ι] (ids : Mutex.ThreadIds ι) {kind : ℤ}
    {sched : List (ι × Act Call)} {c : Conf ι (Shared ι) Local}
    (hfits : (program ids).AllSteps Fits sched (start kind))
    (hholding : (program ids).AllSteps (CallsHolding ids) sched (start kind))
    (hrun : (program ids).exec sched (start kind) = some c) : Correct ids c := by
  have hsignal : SignalInv c := hfits.invariant
    (fun _ _ _ _ hc hg h => signalInv_step hc hg h) (signalInv_start kind) hrun
  have hmutex : MutexInv ids c := by
    refine hholding.invariant (fun t a c c' hc hg h => ?_) (mutexInv_start ids kind) hrun
    obtain ⟨s', l', hp, rfl⟩ := Program.step_eq_some.mp h
    exact hc.step hg (program_trans hp)
  refine ⟨?_, ?_, fun t a c₁ ret h => hmutex.returns h⟩
  · rintro b c₁ hcomplete t w ht c₂ ⟨sched', hfits', hrun'⟩
    obtain ⟨hc₁, hgone⟩ := hcomplete.broadcast hsignal ht
    exact (hgone.later hc₁ hfits' hrun').awake
  · intro b c₁ hcomplete hsome
    obtain ⟨hc₁, t, w, ht, hgone⟩ := hcomplete.signal hsignal hsome
    refine ⟨t, w, ht, ?_⟩
    rintro c₂ ⟨sched', hfits', hrun'⟩
    exact (hgone.later hc₁ hfits' hrun').awake

/-- The first thread locks the mutex and goes to sleep in a wait, and the second
one is about to broadcast. -/
def sleepThenBroadcast (t u : Fin 2) : List (Fin 2 × Act Call) :=
  (t, .call (.mutex .lock)) :: steps t 2 ++ (t, .call .wait) :: steps t 5 ++
    [(u, .call .broadcast)]

theorem correct_of_holding_sleepThenBroadcast :
    ∃ c ∈ (program Mutex.twoThreads).exec (sleepThenBroadcast 0 1) (start Mutex.pthreadMutexNormal),
      c.shared.sleepers = [(0, ⟨0#32, 0, none⟩)] ∧ (c.locals 1).pc = .signalAdd true ∧
      Correct Mutex.twoThreads c := by
  have hrun : (program Mutex.twoThreads).exec (sleepThenBroadcast 0 1) (start 0) = some _ := rfl
  exact ⟨_, hrun, rfl, rfl, correct_of_holding Mutex.twoThreads (by decide) (by decide) hrun⟩

end Hzlibc.Internal.Cond
