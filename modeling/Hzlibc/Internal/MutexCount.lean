import Hzlibc.Internal.Mutex

/-!
The recursion count of the mutex, and with it what a mutex promises.

`CountInv` ties the word and the count to the calls that have returned. The
count is a machine integer that is incremented without a check, so it holds in
the runs that do not overflow it, and the last section runs into the overflow.
-/

namespace Hzlibc.Internal.Mutex

open Concurrency

variable {ι : Type*}

/-- The thread owns the mutex: it has locked it more often than unlocked it,
and its final unlock has not given the word away yet. -/
def Local.owns (l : Local) : Prop := 0 < l.outstanding ∧ l.pc ≠ .unlockWake

/-- The pcs at which the recursion count is not being changed over. -/
def Pc.settled : Pc → Prop
  | .lockStore | .unlockExchange | .unlockWake => False
  | _ => True

/-- What the word and the count say about a thread. -/
structure ThreadInv (s : Shared ι) (id : BitVec 32) (l : Local) : Prop where
  balanced : l.unlocked ≤ l.locked
  holds : l.pc = .lockStore ∨ l.owns ↔ s.state &&& ~~~ flagWaiting = id
  fresh : l.pc = .lockStore → l.outstanding = 0
  final : l.pc = .unlockExchange ∨ l.pc = .unlockWake → l.outstanding = 1
  count : l.pc.settled → 0 < l.outstanding →
    s.recursion.toNat = l.outstanding ∧ l.outstanding < 2 ^ 31

section CountStep

variable {ids : ThreadIds ι} {t : ι} {s s' : Shared ι} {l l' : Local} {pc : Pc}

theorem Pc.settled_of_quits (h : pc.quits) : pc.settled := by
  cases pc <;> first | exact h.elim | trivial

theorem Pc.settled_of_tries (h : pc.tries) : pc.settled := by
  cases pc <;> first | exact h.elim | trivial

theorem lockNext_settled (id e : BitVec 32) : (lockNext id e).settled := by
  simp only [lockNext]
  split
  · trivial
  · split
    · trivial
    · split <;> trivial

theorem Pc.settled.ne (h : pc.settled) :
    pc ≠ .lockStore ∧ pc ≠ .unlockExchange ∧ pc ≠ .unlockWake := by
  refine ⟨?_, ?_, ?_⟩ <;> rintro rfl <;> exact h

theorem Local.owns_iff_of_settled (hpc : l.pc.settled) :
    l.pc = .lockStore ∨ l.owns ↔ 0 < l.outstanding := by
  constructor
  · rintro (hstore | hown)
    · exact absurd hstore hpc.ne.1
    · exact hown.1
  · exact fun hpos => .inr ⟨hpos, hpc.ne.2.2⟩

variable {id : BitVec 32}

/-- Between calls, and wherever the count is settled, the thread with its id in
the word is the one with locks outstanding. -/
theorem ThreadInv.outstanding_pos_iff (h : ThreadInv s id l)
    (hpc : l.pc.settled) : 0 < l.outstanding ↔ s.state &&& ~~~ flagWaiting = id :=
  (Local.owns_iff_of_settled hpc).symm.trans h.holds

theorem ThreadInv.of_settled (hbal : l.unlocked ≤ l.locked) (hpc : l.pc.settled)
    (hid : 0 < l.outstanding ↔ s.state &&& ~~~ flagWaiting = id)
    (hcount : 0 < l.outstanding → s.recursion.toNat = l.outstanding ∧ l.outstanding < 2 ^ 31) :
    ThreadInv s id l where
  balanced := hbal
  holds := (Local.owns_iff_of_settled hpc).trans hid
  fresh h := absurd h hpc.ne.1
  final h := h.elim (absurd · hpc.ne.2.1) (absurd · hpc.ne.2.2)
  count _ := hcount

/-- A step that only moves the thread, and at most flags the word. -/
theorem ThreadInv.move (h : ThreadInv s id l) (hpc : l.pc.settled) {pc' : Pc}
    (hpc' : pc'.settled) (hstate : s'.state &&& ~~~ flagWaiting = s.state &&& ~~~ flagWaiting)
    (hrec : s'.recursion = s.recursion) : ThreadInv s' id (l.at pc') := by
  refine .of_settled h.balanced hpc' ?_ ?_
  · rw [hstate]
    exact h.outstanding_pos_iff hpc
  · rw [hrec]
    exact h.count hpc

theorem recursion_toInt {r : BitVec 32} (h : r.toNat < 2 ^ 31) : r.toInt = r.toNat :=
  BitVec.toInt_eq_toNat_of_lt (by omega)

/-- The test of `manual_unlock` after its decrement, on a count in range. -/
theorem slt_pred_iff {r : BitVec 32} (hpos : 0 < r.toNat) (hlt : r.toNat < 2 ^ 31) :
    (0#32).slt (r - 1) ↔ 1 < r.toNat := by
  have hsub : (r - 1).toNat = r.toNat - 1 := by bv_omega
  have hint : (r - 1).toInt = (r - 1).toNat := recursion_toInt (by omega)
  rw [BitVec.slt_iff_toInt_lt, hint, BitVec.toInt_zero]
  omega

/-- A thread that has locked the mutex and counted it. -/
theorem ThreadInv.of_count (hbal : l.unlocked ≤ l.locked) (hpc : l.pc.settled)
    (hid : s.state &&& ~~~ flagWaiting = id) (hpos : 0 < l.outstanding)
    (hrec : s.recursion.toNat = l.outstanding) (hlt : l.outstanding < 2 ^ 31) :
    ThreadInv s id l :=
  .of_settled hbal hpc ⟨fun _ => hid, fun _ => hpos⟩ fun _ => ⟨hrec, hlt⟩

/-- A thread that has undone all its locks. -/
theorem ThreadInv.of_none (hbal : l.unlocked ≤ l.locked) (hpc : l.pc.settled)
    (hid : s.state &&& ~~~ flagWaiting ≠ id) (hzero : l.outstanding = 0) : ThreadInv s id l :=
  .of_settled hbal hpc ⟨fun hpos => by omega, fun h => absurd h hid⟩ fun hpos => by omega

/-- What the owner's code finds in the count. -/
theorem ThreadInv.count_of_owning (h : ThreadInv s id l)
    (hpc : l.pc = .lockOwned ∨ l.pc = .unlockCount)
    (hown : l.pc.owning → s.state &&& ~~~ flagWaiting = id) :
    s.state &&& ~~~ flagWaiting = id ∧ 0 < l.outstanding ∧
      s.recursion.toNat = l.outstanding ∧ l.outstanding < 2 ^ 31 := by
  have hset : l.pc.settled := by rcases hpc with hpc | hpc <;> rw [hpc] <;> trivial
  have hid := hown (by rcases hpc with hpc | hpc <;> rw [hpc] <;> trivial)
  have hpos := (h.outstanding_pos_iff hset).mpr hid
  exact ⟨hid, hpos, h.count hset hpos⟩

theorem Local.hasLocked_outstanding (h : l.unlocked ≤ l.locked) :
    l.hasLocked.outstanding = l.outstanding + 1 := by
  simp only [Local.outstanding, Local.hasLocked]
  omega

theorem Local.hasUnlocked_outstanding : l.hasUnlocked.outstanding = l.outstanding - 1 := by
  simp only [Local.outstanding, Local.hasUnlocked]
  omega

theorem Local.hasUnlocked_balanced (h : 0 < l.outstanding) :
    l.hasUnlocked.unlocked ≤ l.hasUnlocked.locked := by
  simp only [Local.outstanding, Local.hasUnlocked] at h ⊢
  omega

section

variable (h : Trans (ids.id t) t s l s' l')
include h

/-- The scheduled thread, when a recursive lock does not overflow the count. -/
theorem Trans.thread_self (hl : ThreadInv s (ids.id t) l)
    (hown : l.pc.owning → s.state &&& ~~~ flagWaiting = ids.id t)
    (hroom : l.pc = .lockOwned → s.kind = pthreadMutexRecursive →
      s.recursion ≠ 0x7fffffff#32) : ThreadInv s' (ids.id t) l' := by
  have hbal := hl.balanced
  have hzeroId : 0#32 &&& ~~~ flagWaiting ≠ ids.id t := (ids.ne_zero t).symm
  cases h with
  | call last f hpc | found hpc hid | check hpc hid | corrupt hpc hpos | sleep e hpc hstate =>
    exact hl.move (by rw [hpc]; trivial) trivial rfl rfl
  | look hpc =>
    refine hl.move ?_ (lockNext_settled _ _) rfl rfl
    rcases hpc with hpc | ⟨e, hpc⟩
    · exact Pc.settled_of_tries hpc
    · rw [hpc]
      trivial
  | quit pc' hpc hpc' =>
    refine hl.move ?_ (Pc.settled_of_quits hpc') rfl rfl
    rcases hpc with hpc | hpc | hpc <;> rw [hpc] <;> trivial
  | mark e hpc hstate =>
    refine hl.move (by rw [hpc]; trivial) (lockNext_settled _ _) ?_ rfl
    rw [flagWaiting_eq, or_topFlag_and_not_topFlag, hstate]
  | resume sleepers pc' hpc hsub hpc' =>
    refine hl.move ?_ ?_ rfl rfl
    · rcases hpc with ⟨e, hpc⟩ | hpc <;> rw [hpc] <;> trivial
    · rcases hpc' with rfl | rfl <;> trivial
  | take hpc hfree =>
    -- the word was zero, so the thread had nothing outstanding
    have hnone : ¬ 0 < l.outstanding := by
      rw [hl.outstanding_pos_iff (Pc.settled_of_tries hpc), hfree]
      exact hzeroId
    refine ⟨hbal, ?_, fun _ => Nat.eq_zero_of_not_pos hnone, ?_, fun h => h.elim⟩
    · exact ⟨fun _ => id_and_not_flag ids t, fun _ => .inl rfl⟩
    · rintro (h | h) <;> contradiction
  | store hpc =>
    have hone : l.hasLocked.outstanding = 1 := by
      rw [Local.hasLocked_outstanding hbal, hl.fresh hpc]
    refine .of_count (Nat.le_succ_of_le hbal) trivial (hl.holds.mp (.inl hpc)) ?_ ?_ ?_
    · omega
    · exact hone.symm
    · omega
  | again hpc hkind =>
    -- below its largest value the count does not wrap
    obtain ⟨hid, hpos, hrec, hlt⟩ := hl.count_of_owning (.inl hpc) hown
    have hmax := hroom hpc hkind
    have hmore := Local.hasLocked_outstanding hbal
    have hinc : (s.recursion + 1).toNat = s.recursion.toNat + 1 := by bv_omega
    have hroom' : s.recursion.toNat ≠ 2147483647 := fun h => hmax (BitVec.eq_of_toNat_eq h)
    refine .of_count (Nat.le_succ_of_le hbal) trivial hid ?_ ?_ ?_
    · omega
    · exact hinc.trans (by omega)
    · omega
  | drop hpc hpos hmore =>
    obtain ⟨hid, hout, hrec, hlt⟩ := hl.count_of_owning (.inr hpc) hown
    have htwo := (slt_pred_iff (by omega) (by omega)).mp hmore
    have hdec : (s.recursion - 1).toNat = s.recursion.toNat - 1 := by bv_omega
    have hless := Local.hasUnlocked_outstanding (l := l)
    refine .of_count (Local.hasUnlocked_balanced hout) trivial hid ?_ ?_ ?_
    · omega
    · exact hdec.trans (by omega)
    · omega
  | last hpc hpos hmore =>
    -- the count is at zero, and the word still has the id
    obtain ⟨hid, hout, hrec, hlt⟩ := hl.count_of_owning (.inr hpc) hown
    have hone : l.outstanding = 1 := by
      have := mt (slt_pred_iff (by omega) (by omega)).mpr hmore
      omega
    refine ⟨hbal, ?_, fun h => by contradiction, fun _ => hone, fun h => h.elim⟩
    exact ⟨fun _ => hid, fun _ => .inr ⟨hout, by simp⟩⟩
  | release hpc hflag =>
    have hone := hl.final (.inl hpc)
    refine .of_none (Local.hasUnlocked_balanced (by omega)) trivial hzeroId ?_
    rw [Local.hasUnlocked_outstanding, hone]
  | releaseFlag hpc hflag =>
    refine ⟨hbal, ?_, fun h => by contradiction, fun _ => hl.final (.inl hpc), fun h => h.elim⟩
    refine ⟨?_, fun h => absurd h hzeroId⟩
    rintro (h | ⟨-, h⟩)
    · contradiction
    · exact absurd rfl h
  | wake hpc =>
    have hone := hl.final (.inr hpc)
    refine .of_none (Local.hasUnlocked_balanced (by omega)) trivial (fun h => ?_) ?_
    · rcases hl.holds.mpr h with hstore | ⟨-, hne⟩
      · rw [hpc] at hstore
        contradiction
      · exact hne hpc
    · rw [Local.hasUnlocked_outstanding, hone]

/-- Only the thread whose id is in the word touches the count. -/
theorem Trans.recursion_eq (hpc : ¬ l.pc.owning) : s'.recursion = s.recursion := by
  cases h with
  | store h | again h | drop h | last h => exact absurd (by rw [h]; trivial) hpc
  | _ => rfl

/-- A thread never puts the id of another one into the word. -/
theorem Trans.id_other {u : ι} (hu : u ≠ t) (hs' : s'.state &&& ~~~ flagWaiting = ids.id u) :
    s.state &&& ~~~ flagWaiting = ids.id u := by
  cases h with
  | take hpc hfree =>
    have hid : ids.id t = ids.id u := (id_and_not_flag ids t).symm.trans hs'
    exact absurd (ids.injective hid).symm hu
  | mark e hpc hstate =>
    rw [flagWaiting_eq, or_topFlag_and_not_topFlag] at hs'
    rw [hstate]
    exact hs'
  | release | releaseFlag => exact absurd (zero_and_not_flag.symm.trans hs').symm (ids.ne_zero u)
  | _ => exact hs'

/-- The threads that are not scheduled. -/
theorem Trans.thread_other
    (hown : l.pc.owning → s.state &&& ~~~ flagWaiting = ids.id t) {u : ι} (hu : u ≠ t)
    {lu : Local} (hlu : ThreadInv s (ids.id u) lu) : ThreadInv s' (ids.id u) lu where
  balanced := hlu.balanced
  holds := hlu.holds.trans ⟨h.owner_other hown hu, h.id_other hu⟩
  fresh := hlu.fresh
  final := hlu.final
  count hpc hpos := by
    -- the count belongs to `u`, so the scheduled thread is not in the owner's code
    have hid := (hlu.outstanding_pos_iff hpc).mp hpos
    rw [h.recursion_eq fun howning => hu (ids.injective (hid.symm.trans (hown howning)))]
    exact hlu.count hpc hpos

end

end CountStep

/-! ### Runs -/

/-- The step is not a recursive lock, or the count has room for it. -/
def RelockFits (t : ι) (_ : Act Call) (c : Conf ι (Shared ι) Local) : Prop :=
  (c.locals t).pc = .lockOwned → c.shared.kind = pthreadMutexRecursive →
    c.shared.recursion ≠ 0x7fffffff#32

instance (t : ι) (a : Act Call) (c : Conf ι (Shared ι) Local) : Decidable (RelockFits t a c) :=
  inferInstanceAs (Decidable (_ → _ → _))

structure CountInv (ids : ThreadIds ι) (c : Conf ι (Shared ι) Local) : Prop where
  word : WordInv ids c
  thread : ∀ t, ThreadInv c.shared (ids.id t) (c.locals t)

theorem countInv_start (ids : ThreadIds ι) (kind : ℤ) : CountInv ids (start kind) where
  word := wordInv_start ids kind
  thread t := by
    refine .of_none le_rfl trivial ?_ rfl
    change 0#32 &&& ~~~ flagWaiting ≠ ids.id t
    exact (ids.ne_zero t).symm

variable [DecidableEq ι]

theorem countInv_step {ids : ThreadIds ι} {t : ι} {a : Act Call}
    {c c' : Conf ι (Shared ι) Local} (hc : CountInv ids c) (hfit : RelockFits t a c)
    (h : (program ids).step t a c = some c') : CountInv ids c' := by
  refine ⟨wordInv_step hc.word h, ?_⟩
  obtain ⟨s', l', hp, rfl⟩ := Program.step_eq_some.mp h
  have htrans := program_trans hp
  have hown := hc.word.owner t
  exact (Function.forall_update_iff c.locals fun u l => ThreadInv s' (ids.id u) l).mpr
    ⟨htrans.thread_self (hc.thread t) hown hfit,
      fun u hu => htrans.thread_other hown hu (hc.thread u)⟩

/-- What a mutex promises in every state: one owner, whose id is in the word,
a count of the owner's locks, and no sleeper whose wake has been lost. -/
structure Correct (ids : ThreadIds ι) (c : Conf ι (Shared ι) Local) : Prop where
  exclusive : ∀ t u, (c.locals t).owns → (c.locals u).owns → t = u
  word : ∀ t, (c.locals t).owns → c.shared.state &&& ~~~ flagWaiting = ids.id t
  recursion : c.shared.kind = pthreadMutexRecursive → ∀ t last,
    (c.locals t).pc = .idle last → 0 < (c.locals t).outstanding →
      c.shared.recursion.toInt = (c.locals t).outstanding
  wakeup : ∀ t ∈ c.shared.sleepers,
    c.shared.state &&& flagWaiting ≠ 0#32 ∨ ∃ u, (c.locals u).pc = .unlockWake

omit [DecidableEq ι] in
theorem CountInv.correct {ids : ThreadIds ι} {c : Conf ι (Shared ι) Local}
    (hc : CountInv ids c) : Correct ids c := by
  have hword (t : ι) (ht : (c.locals t).owns) : c.shared.state &&& ~~~ flagWaiting = ids.id t :=
    (hc.thread t).holds.mp (.inr ht)
  refine ⟨?_, hword, ?_, ?_⟩
  · intro t u ht hu
    exact ids.injective ((hword t ht).symm.trans (hword u hu))
  · intro _ t last hpc hpos
    obtain ⟨hrec, hlt⟩ := (hc.thread t).count (by rw [hpc]; trivial) hpos
    rw [recursion_toInt (by omega), hrec]
  · intro t ht
    exact hc.word.awake (List.ne_nil_of_mem ht)

theorem correct_of_relocks_fit (ids : ThreadIds ι) {kind : ℤ} {sched : List (ι × Act Call)}
    {c : Conf ι (Shared ι) Local} (hfit : (program ids).AllSteps RelockFits sched (start kind))
    (hrun : (program ids).exec sched (start kind) = some c) : Correct ids c :=
  (hfit.invariant (fun _ _ _ _ hc hg h => countInv_step hc hg h)
    (countInv_start ids kind) hrun).correct

/-- The first thread locks twice, the second one goes to sleep. -/
def relockThenSleep (t u : Fin 2) : List (Fin 2 × Act Call) :=
  (t, .call .lock) :: steps t 2 ++ (t, .call .lock) :: steps t 2 ++ (u, .call .lock) :: steps u 3

theorem correct_of_relocks_fit_relockThenSleep :
    ∃ c ∈ (program twoThreads).exec (relockThenSleep 0 1) (start pthreadMutexRecursive),
      (c.locals 0).outstanding = 2 ∧ 1 ∈ c.shared.sleepers ∧ Correct twoThreads c := by
  have hrun : (program twoThreads).exec (relockThenSleep 0 1) (start 1) = some _ := rfl
  exact ⟨_, hrun, rfl, by decide, correct_of_relocks_fit twoThreads (by decide) hrun⟩

/-! ### Overflow of the count

One thread that keeps locking a recursive mutex is never refused, and the count
wraps around to a negative number. -/

def oneThread : ThreadIds (Fin 1) where
  id _ := 1#32
  injective := by decide
  ne_zero := by decide
  lt := by decide

/-- The thread has locked the mutex `n + 1` times. -/
def relocked (n : ℕ) : Conf (Fin 1) (Shared (Fin 1)) Local :=
  ⟨⟨1#32, BitVec.ofNat 32 (n + 1), pthreadMutexRecursive, []⟩,
    fun _ => { pc := .idle (some .ok), locked := n + 1, unlocked := 0 }⟩

def lockOnce : List (Fin 1 × Act Call) := [(0, .call .lock), (0, .run), (0, .run)]

theorem lockOnce_start :
    (program oneThread).exec lockOnce (start pthreadMutexRecursive) = some (relocked 0) := by
  refine congrArg some ?_
  change Conf.mk _ _ = Conf.mk _ _
  congr 1
  funext t
  rw [Subsingleton.elim t 0]
  rfl

theorem lockOnce_relocked (n : ℕ) :
    (program oneThread).exec lockOnce (relocked n) = some (relocked (n + 1)) := by
  have hnext : lockNext 1#32 1#32 = .lockOwned := by decide
  have hinc : BitVec.ofNat 32 (n + 1) + 1#32 = BitVec.ofNat 32 (n + 1 + 1) :=
    (BitVec.ofNat_add (n + 1) 1).symm
  have hlocals (f : Fin 1 → Local) (l : Local) : Function.update f 0 l = fun _ => l := by
    funext t
    rw [Subsingleton.elim t 0, Function.update_self]
  simp [lockOnce, relocked, Program.exec, Program.step, program, Act.onCall, Act.onRun, manualLock,
    compareExchangeStrong, oneThread, hnext, hinc, hlocals, lockOwned, Local.at, Local.hasLocked]

theorem exists_relocked (n : ℕ) :
    ∃ sched, (program oneThread).exec sched (start pthreadMutexRecursive) =
      some (relocked n) := by
  induction n with
  | zero => exact ⟨lockOnce, lockOnce_start⟩
  | succ n ih =>
    obtain ⟨sched, hrun⟩ := ih
    exact ⟨sched ++ lockOnce, Program.exec_trans hrun (lockOnce_relocked n)⟩

theorem not_correct_of_overflow :
    ¬ ∀ (sched : List (Fin 1 × Act Call)) (c : Conf (Fin 1) (Shared (Fin 1)) Local),
      (program oneThread).exec sched (start pthreadMutexRecursive) = some c →
      Correct oneThread c := by
  intro h
  obtain ⟨sched, hrun⟩ := exists_relocked (2 ^ 31 - 1)
  have hrec := (h sched _ hrun).recursion rfl 0 (some .ok) rfl (by decide)
  exact absurd hrec (by decide)

end Hzlibc.Internal.Mutex
