import Hzlibc.Posix.RwLockInv

/-!
Runs of a reader-writer lock.

Exclusion holds in every run of threads that keep to the rules. The counter
counts the readers only in the runs in which it does not overflow and no writer
marks it: the mark sets the count, and the readers that leave never bring it
back to zero.
-/

namespace Hzlibc.Posix.RwLock

open Concurrency

variable {ι : Type*}

/-- A thread unlocks only what it holds. -/
def UnlocksHeld (t : ι) (a : Act Call) (c : Conf ι (Shared ι) Local) : Prop :=
  a = .call .unlock → 0 < (c.locals t).reads ∨ (c.locals t).writer = true

instance (t : ι) (a : Act Call) (c : Conf ι (Shared ι) Local) : Decidable (UnlocksHeld t a c) :=
  inferInstanceAs (Decidable (_ → _))

/-! ### Counting the readers -/

/-- The count has room for the reader, and the mark of a writer changes
nothing. -/
def CountKept (t : ι) (a : Act Call) (c : Conf ι (Shared ι) Local) : Prop :=
  match (c.locals t).pc with
  | .rdAdd => a = .run → c.shared.writerNotify &&& rcCountMask ≠ rcCountMask
  | .wrMark rc => a = .run → c.shared.writerNotify = rc → rc ||| rcCountMask = rc
  | _ => True

instance (t : ι) (a : Act Call) (c : Conf ι (Shared ι) Local) : Decidable (CountKept t a c) := by
  unfold CountKept
  split <;> infer_instance

theorem CountKept.room {t : ι} {a : Act Call} {c : Conf ι (Shared ι) Local} (h : CountKept t a c)
    (hlow : c.shared.writerNotify.toNat < 2 ^ 30) (hpc : (c.locals t).pc = .rdAdd)
    (ha : a = .run) : c.shared.writerNotify.toNat + 1 < 2 ^ 30 := by
  simp only [CountKept, hpc] at h
  have hne := h ha
  rw [and_rcCountMask hlow] at hne
  have hmax : c.shared.writerNotify.toNat ≠ 2 ^ 30 - 1 := fun heq =>
    hne (BitVec.eq_of_toNat_eq heq)
  omega

variable [DecidableEq ι]

@[simp] theorem wrNext_zero (l : Local) : wrNext 0#32 l = { l with pc := .idle, writer := true } :=
  rfl

/-- A writer that looks at a counter of zero has the lock. -/
theorem exec_wrLoad {c : Conf ι (Shared ι) Local} {t : ι} (hzero : c.shared.writerNotify = 0#32)
    (hpc : (c.locals t).pc = .wrLoad) :
    ∃ c', program.exec [(t, .run)] c = some c' ∧ (c'.locals t).pc = .idle ∧
      (c'.locals t).writer = true := by
  have hrun : program t .run c.shared (c.locals t) =
      some (c.shared, { c.locals t with pc := .idle, writer := true }) := by
    simp [program, hpc, Act.onRun, hzero]
  refine ⟨_, Program.exec_single (Program.step_eq_some.mpr ⟨_, _, hrun, rfl⟩), ?_, ?_⟩
  · simp
  · simp

variable [Fintype ι]

/-- The count is the number of read locks, and without readers every waiting
writer can leave its loop by its own steps. -/
structure ReadersCounted (c : Conf ι (Shared ι) Local) : Prop where
  count : (c.shared.writerNotify &&& rcCountMask).toNat = readers c
  finish : readers c = 0 → c.shared.writerNotify = 0#32 ∧
    ∀ t, (c.locals t).pc.waitsToWrite → ∃ sched c', (∀ x ∈ sched, x = (t, .run)) ∧
      program.exec sched c = some c' ∧ (c'.locals t).pc = .idle ∧ (c'.locals t).writer = true

theorem Inv.leaves_loop {c : Conf ι (Shared ι) Local} (hc : Inv c)
    (hzero : c.shared.writerNotify = 0#32) {t : ι} (hpc : (c.locals t).pc.waitsToWrite) :
    ∃ sched c', (∀ x ∈ sched, x = (t, Act.run)) ∧ program.exec sched c = some c' ∧
      (c'.locals t).pc = .idle ∧ (c'.locals t).writer = true := by
  have htwo (hrun : program t .run c.shared (c.locals t) =
      some (c.shared, (c.locals t).at .wrLoad)) :
      ∃ sched c', (∀ x ∈ sched, x = (t, Act.run)) ∧ program.exec sched c = some c' ∧
        (c'.locals t).pc = .idle ∧ (c'.locals t).writer = true := by
    have hstep : program.step t .run c =
        some ⟨c.shared, Function.update c.locals t ((c.locals t).at .wrLoad)⟩ :=
      Program.step_eq_some.mpr ⟨_, _, hrun, rfl⟩
    obtain ⟨c', hexec, hc'⟩ := exec_wrLoad (t := t)
      (c := ⟨c.shared, Function.update c.locals t ((c.locals t).at .wrLoad)⟩) hzero
      (by simp [Local.at])
    refine ⟨[(t, .run), (t, .run)], c', by simp, ?_, hc'⟩
    exact Program.exec_cons_eq_some.mpr ⟨_, hstep, hexec⟩
  cases hk : (c.locals t).pc with
  | wrLoad =>
    obtain ⟨c', hexec, hc'⟩ := exec_wrLoad hzero hk
    exact ⟨[(t, .run)], c', by simp, hexec, hc'⟩
  | wrMark rc =>
    have hsound := hc.sound t
    simp only [Local.Sound, hk] at hsound
    have hrun : program t .run c.shared (c.locals t) =
        some (c.shared, { c.locals t with pc := .idle, writer := true }) := by
      simp [program, hk, wrMark, compareExchangeWeak, hzero, hsound.2.symm]
    refine ⟨[(t, .run)], _, by simp,
      Program.exec_single (Program.step_eq_some.mpr ⟨_, _, hrun, rfl⟩), ?_, ?_⟩
    · simp
    · simp
  | wrFutex rc =>
    refine htwo ?_
    have hne : c.shared.writerNotify ≠ rc ||| rcWaitersBit := ne_or_rcWaitersBit hc.low rc
    simp [program, hk, Act.onWait, hne]
  | wrAsleep =>
    refine htwo ?_
    simp [program, hk, Act.onWait, hc.awake]
  | _ =>
    rw [hk] at hpc
    exact hpc.elim

structure Counted (c : Conf ι (Shared ι) Local) : Prop where
  inv : Inv c
  eq : c.shared.writerNotify.toNat = readers c

theorem counted_step {t : ι} {a : Act Call} {c c' : Conf ι (Shared ι) Local} (hc : Counted c)
    (hheld : UnlocksHeld t a c) (hkept : CountKept t a c)
    (h : program.step t a c = some c') : Counted c' := by
  obtain ⟨s', l', hp, rfl⟩ := Program.step_eq_some.mp h
  have htrans := program_trans hp
  have hroom := hkept.room hc.inv.low
  refine ⟨hc.inv.step htrans hheld hroom, ?_⟩
  have hsum := readers_update c t s' l'
  have heq := hc.eq
  change s'.writerNotify.toNat = _
  rcases htrans.account hc.inv.low (hc.inv.sound t) hroom with
    ⟨hn, hr⟩ | ⟨-, hn, -, hr⟩ | ⟨hn, hr⟩ | ⟨rc, hpc, ha, hs, hn, -, -, hr⟩
  · rw [hn]
    omega
  · omega
  · omega
  · simp only [CountKept, hpc] at hkept
    rw [hn, hkept ha hs, ← hs]
    omega

/-- In every run that never overflows the count and in which the marks of the
writers change nothing, the counter counts the readers. -/
theorem readersCounted_of_countKept {sched : List (ι × Act Call)} {c : Conf ι (Shared ι) Local}
    (hheld : program.AllSteps UnlocksHeld sched start)
    (hkept : program.AllSteps CountKept sched start)
    (hrun : program.exec sched start = some c) : ReadersCounted c := by
  have hboth : program.AllSteps (fun t a c => UnlocksHeld t a c ∧ CountKept t a c) sched start :=
    hheld.and hkept
  have hc : Counted c := hboth.invariant
    (fun _ _ _ _ hc hg h => counted_step hc hg.1 hg.2 h)
    ⟨inv_start, by simp [start, readers]⟩ hrun
  refine ⟨?_, fun hzero => ?_⟩
  · rw [and_rcCountMask hc.inv.low, hc.eq]
  · have hnotify : c.shared.writerNotify = 0#32 := BitVec.eq_of_toNat_eq (hc.eq.trans hzero)
    exact ⟨hnotify, fun t ht => hc.inv.leaves_loop hnotify ht⟩

/-- The reader unlocks while the writer has yet to mark the counter. -/
def readerLeavesFirst (t u : Fin 2) : List (Fin 2 × Act Call) :=
  (t, .call .rdlock) :: steps t 4 ++ (u, .call .wrlock) :: steps u 3 ++
    (t, .call .unlock) :: steps t 2

theorem readersCounted_of_countKept_readerLeavesFirst :
    ∃ c ∈ program.exec (readerLeavesFirst 0 1) start, (c.locals 1).pc = .wrMark 1#32 ∧
      readers c = 0 ∧ ReadersCounted c := by
  have hrun : program.exec (readerLeavesFirst 0 1) start = some _ := rfl
  exact ⟨_, hrun, rfl, by decide, readersCounted_of_countKept (by decide) (by decide) hrun⟩

/-- The writer marks the counter while the reader is there. -/
def writerMarks (t u : Fin 2) : List (Fin 2 × Act Call) :=
  (t, .call .rdlock) :: steps t 4 ++ (u, .call .wrlock) :: steps u 4 ++
    (t, .call .unlock) :: steps t 2

theorem not_readersCounted_writerMarks :
    ¬ ∀ (sched : List (Fin 2 × Act Call)) (c : Conf (Fin 2) (Shared (Fin 2)) Local),
      program.AllSteps UnlocksHeld sched start → program.exec sched start = some c →
      ReadersCounted c := by
  intro h
  obtain ⟨c, hrun, hzero, hnotify⟩ : ∃ c ∈ program.exec (writerMarks 0 1) start,
      readers c = 0 ∧ c.shared.writerNotify = 0x3ffffffe#32 := by decide
  obtain ⟨hfree, -⟩ := (h (writerMarks 0 1) c (by decide) hrun).finish hzero
  rw [hnotify] at hfree
  exact absurd hfree (by decide)

/-! ### Exclusion -/

/-- A thread unlocks only what it holds, and does not lock while it holds
anything. -/
def Disciplined {ι : Type*} (t : ι) (a : Act Call) (c : Conf ι (Shared ι) Local) : Prop :=
  UnlocksHeld t a c ∧
    (a = .call .rdlock ∨ a = .call .wrlock → (c.locals t).reads = 0 ∧ (c.locals t).writer = false)

instance {ι : Type*} (t : ι) (a : Act Call) (c : Conf ι (Shared ι) Local) :
    Decidable (Disciplined t a c) :=
  inferInstanceAs (Decidable (_ ∧ (_ → _)))

/-- A disciplined thread has at most one read lock, and none while it is
locking. -/
def Local.Single (l : Local) : Prop :=
  l.reads ≤ 1 ∧ (l.pc.locking ∨ l.pc = .rdAdd → l.reads = 0)

section Single

variable {ι : Type*} {t : ι} {a : Act Call} {s s' : Shared ι} {l l' : Local}

theorem Local.Single.of_reads {pc : Pc} {w : Bool} (hle : l.reads ≤ 1)
    (hpc : ¬ pc.locking ∧ pc ≠ .rdAdd) : Local.Single ⟨pc, l.reads, w⟩ :=
  ⟨hle, fun h => (h.elim hpc.1 hpc.2).elim⟩

theorem wrNext_single (rc : BitVec 32) (h : l.reads ≤ 1) : (wrNext rc l).Single := by
  simp only [wrNext]
  split
  · exact .of_reads h ⟨id, by simp⟩
  · split
    · exact .of_reads h ⟨id, by simp⟩
    · split <;> exact .of_reads h ⟨id, by simp⟩

theorem Trans.single (h : Trans t a s l s' l') (hl : l.Single)
    (hlock : a = .call .rdlock ∨ a = .call .wrlock → l.reads = 0) : l'.Single := by
  obtain ⟨hle, hzero⟩ := hl
  cases h with
  | lock exclusive ha hpc =>
    have hreads : l.reads = 0 := hlock (by cases exclusive <;> simp_all)
    exact ⟨hle, fun _ => hreads⟩
  | spin queue pc' hpc hpc' => exact ⟨hle, fun _ => hzero (.inl hpc)⟩
  | mark exclusive e hpc hs => exact ⟨hle, fun _ => hzero (.inl (by rw [hpc]; trivial))⟩
  | take exclusive word hpc hs hword =>
    exact ⟨hle, fun _ => hzero (.inl (by rw [hpc]; trivial))⟩
  | add ha hpc =>
    have hreads := hzero (.inr hpc)
    refine ⟨?_, fun h => ?_⟩
    · change l.reads + 1 ≤ 1
      omega
    · rcases h with h | h <;> contradiction
  | look hpc => exact wrNext_single _ hle
  | release pc' hpc hpc' => rcases hpc' with rfl | rfl <;> exact .of_reads hle ⟨id, by simp⟩
  | unlockLook hpc =>
    refine .of_reads hle ?_
    simp only [unlockNext]
    split <;> exact ⟨id, by simp⟩
  | unlockLast rc hpc hs | unlockOne rc hpc hs =>
    refine ⟨(Nat.sub_le _ _).trans hle, fun h => ?_⟩
    rcases h with h | h <;> contradiction
  | _ => exact .of_reads hle ⟨id, by simp⟩

end Single

structure Exclusive {ι : Type*} [Fintype ι] (c : Conf ι (Shared ι) Local) : Prop where
  inv : Inv c
  single : ∀ t, (c.locals t).Single

theorem readers_lt_card {ι : Type*} [Fintype ι] [DecidableEq ι] {c : Conf ι (Shared ι) Local}
    {t : ι} (hone : ∀ u, (c.locals u).reads ≤ 1) (hzero : (c.locals t).reads = 0) :
    readers c < Fintype.card ι := by
  have hlt : ∑ u, (c.locals u).reads < ∑ _u : ι, 1 :=
    Finset.sum_lt_sum (fun u _ => hone u) ⟨t, Finset.mem_univ t, by omega⟩
  simpa [readers] using hlt

/-- A reader about to count itself in finds no mark in the counter, which has
room for every thread. -/
theorem Exclusive.room {ι : Type*} [Fintype ι] [DecidableEq ι] {c : Conf ι (Shared ι) Local}
    (hc : Exclusive c) (hcard : Fintype.card ι < 2 ^ 30) {t : ι}
    (hpc : (c.locals t).pc = .rdAdd) : c.shared.writerNotify.toNat + 1 < 2 ^ 30 := by
  have heq : ¬ readers c < c.shared.writerNotify.toNat := by
    intro hexcess
    obtain ⟨u, hu⟩ := hc.inv.excess hexcess
    have hin : (c.locals u).pc.hasMutex := by
      cases h : (c.locals u).pc <;> rw [h] at hu <;> trivial
    obtain rfl := hc.inv.unique u t (.inr hin) (.inr (by rw [hpc]; trivial))
    rw [hpc] at hu
    exact hu
  have hlt := readers_lt_card (fun u => (hc.single u).1) ((hc.single t).2 (.inr hpc))
  omega

theorem exclusive_step {ι : Type*} [Fintype ι] [DecidableEq ι] (hcard : Fintype.card ι < 2 ^ 30)
    {t : ι} {a : Act Call} {c c' : Conf ι (Shared ι) Local} (hc : Exclusive c)
    (hdis : Disciplined t a c) (h : program.step t a c = some c') : Exclusive c' := by
  obtain ⟨s', l', hp, rfl⟩ := Program.step_eq_some.mp h
  have htrans := program_trans hp
  refine ⟨hc.inv.step htrans hdis.1 fun hpc _ => hc.room hcard hpc, ?_⟩
  exact (Function.forall_update_iff c.locals fun _ l => l.Single).mpr
    ⟨htrans.single (hc.single t) fun ha => (hdis.2 ha).1, fun u _ => hc.single u⟩

/-- The write lock is held: `pthread_rwlock_wrlock` has returned and no unlock
has started. -/
def Local.holdsWrite (l : Local) : Prop := l.pc = .idle ∧ l.writer = true

/-- Beside a thread that holds the write lock no other thread holds the lock,
not even a reader that has not returned from locking or unlocking yet. -/
theorem exclusion {ι : Type*} [Fintype ι] [DecidableEq ι] (hcard : Fintype.card ι < 2 ^ 30)
    {sched : List (ι × Act Call)} {c : Conf ι (Shared ι) Local}
    (hdis : program.AllSteps Disciplined sched start)
    (hrun : program.exec sched start = some c) {t u : ι} (htu : t ≠ u)
    (ht : (c.locals t).holdsWrite) : ¬ (c.locals u).holdsWrite ∧ (c.locals u).reads = 0 := by
  have hc : Exclusive c := hdis.invariant
    (fun _ _ _ _ hc hg h => exclusive_step hcard hc hg h)
    ⟨inv_start, fun _ => ⟨Nat.zero_le 1, fun _ => rfl⟩⟩ hrun
  refine ⟨fun hu => htu (hc.inv.unique t u (.inl ht.2) (.inl hu.2)), ?_⟩
  have hzero := hc.inv.writer t ht.2
  have hle := hc.inv.le
  have hread := reads_le_readers c u
  rw [hzero, BitVec.toNat_zero] at hle
  omega

/-- A reader comes and goes, then a writer takes the lock, and a second reader
has to wait. -/
def readerThenWriter (t u : Fin 2) : List (Fin 2 × Act Call) :=
  (t, .call .rdlock) :: steps t 4 ++ (t, .call .unlock) :: steps t 2 ++
    (u, .call .wrlock) :: steps u 3 ++ (t, .call .rdlock) :: steps t 3

theorem exclusion_readerThenWriter :
    ∃ c ∈ program.exec (readerThenWriter 0 1) start, (c.locals 1).holdsWrite ∧
      ¬ (c.locals 0).holdsWrite ∧ (c.locals 0).reads = 0 := by
  have hcard : Fintype.card (Fin 2) < 2 ^ 30 := by simp
  have hrun : program.exec (readerThenWriter 0 1) start = some _ := rfl
  have hne : (1 : Fin 2) ≠ 0 := by decide
  exact ⟨_, hrun, ⟨rfl, rfl⟩, exclusion hcard (by decide) hrun hne ⟨rfl, rfl⟩⟩

/-- A writer never sets the waiters bit of the count, so none sleeps until the last reader
leaves: it looks at the count again and again. -/
theorem writers_never_sleep {ι : Type*} [Fintype ι] [DecidableEq ι]
    (hcard : Fintype.card ι < 2 ^ 30) {sched : List (ι × Act Call)} {c : Conf ι (Shared ι) Local}
    (hdis : program.AllSteps Disciplined sched start)
    (hrun : program.exec sched start = some c) :
    c.shared.writerNotify &&& rcWaitersBit = 0#32 ∧ c.shared.notifySleepers = [] := by
  have hc : Exclusive c := hdis.invariant
    (fun _ _ _ _ hc hg h => exclusive_step hcard hc hg h)
    ⟨inv_start, fun _ => ⟨Nat.zero_le 1, fun _ => rfl⟩⟩ hrun
  exact ⟨and_rcWaitersBit hc.inv.low, hc.inv.awake⟩

theorem writers_never_sleep_writerMarks : ∃ c ∈ program.exec (writerMarks 0 1) start,
    (c.locals 1).pc.waitsToWrite ∧ c.shared.notifySleepers = [] := by
  have hrun : program.exec (writerMarks 0 1) start = some _ := rfl
  exact ⟨_, hrun, trivial, (writers_never_sleep (by simp) (by decide) hrun).2⟩

end Hzlibc.Posix.RwLock
