import Hzlibc.Posix.RwLock
import Mathlib.Algebra.Order.BigOperators.Group.Finset

/-!
What the two words of a reader-writer lock say about its threads.

The mutex has at most one thread inside, where a writer stays until it unlocks.
The counter never falls below the number of read locks, and it exceeds it only
while a writer waits, whose mark it then carries. So a writer that finds the
counter at zero has no readers beside it, and none can come.
-/

namespace Hzlibc.Posix.RwLock

open Concurrency Function

variable {ι : Type*}

/-- The pcs at which a thread has the mutex. -/
def Pc.hasMutex : Pc → Prop
  | .rdAdd | .mutexUnlock | .wrLoad | .wrMark _ | .wrFutex _ | .wrAsleep => True
  | _ => False

def Local.inside (l : Local) : Prop := l.writer = true ∨ l.pc.hasMutex

/-- What a thread knows by its pc: an unlock is by a holder, and whoever is
taking the lock does not have it for writing. -/
def Local.Sound (l : Local) : Prop :=
  match l.pc with
  | .unlockLoad => 0 < l.reads ∨ l.writer = true
  | .unlockExchange rc => 0 < l.reads ∧ rc &&& rcCountMask ≠ 0#32
  | .wrMark rc => l.writer = false ∧ rc ≠ 0#32
  | .rdAdd | .wrLoad | .wrFutex _ | .wrAsleep => l.writer = false
  | _ => True

def readers [Fintype ι] (c : Conf ι (Shared ι) Local) : ℕ := ∑ t, (c.locals t).reads

structure Inv [Fintype ι] (c : Conf ι (Shared ι) Local) : Prop where
  unique : ∀ t u, (c.locals t).inside → (c.locals u).inside → t = u
  free : c.shared.state = 0#32 → ∀ t, ¬ (c.locals t).inside
  sound : ∀ t, (c.locals t).Sound
  low : c.shared.writerNotify.toNat < 2 ^ 30
  le : readers c ≤ c.shared.writerNotify.toNat
  excess : readers c < c.shared.writerNotify.toNat → ∃ t, (c.locals t).pc.waitsToWrite
  writer : ∀ t, (c.locals t).writer = true → c.shared.writerNotify = 0#32
  awake : c.shared.notifySleepers = []

/-! ### The counter -/

theorem rcCountMask_eq : rcCountMask = lowMask 32 30 := rfl

theorem rcWaitersBit_eq : rcWaitersBit = topFlag 31 := rfl

section Counter

variable {x : BitVec 32}

section

variable (hx : x.toNat < 2 ^ 30)
include hx

theorem and_rcCountMask : x &&& rcCountMask = x :=
  and_lowMask_of_lt (by decide) hx

theorem and_rcWaitersBit : x &&& rcWaitersBit = 0#32 :=
  (and_topFlag_eq_zero_iff x).mpr (by omega)

theorem or_rcCountMask_toNat : (x ||| rcCountMask).toNat = 2 ^ 30 - 1 := by
  rw [rcCountMask_eq, or_lowMask_of_lt (by decide) hx]
  rfl

theorem ne_or_rcWaitersBit (y : BitVec 32) : x ≠ y ||| rcWaitersBit := by
  intro h
  have hflag : x &&& rcWaitersBit = rcWaitersBit := by
    rw [h, rcWaitersBit_eq, or_topFlag_and_topFlag]
  rw [and_rcWaitersBit hx] at hflag
  exact absurd hflag (by decide)

/-- One reader less. -/
theorem rcPred_toNat (hne : x &&& rcCountMask ≠ 0#32) :
    (x &&& ~~~ rcCountMask ||| ((x &&& rcCountMask) - 1)).toNat + 1 = x.toNat := by
  rw [and_rcCountMask hx] at hne ⊢
  rw [rcCountMask_eq, and_not_lowMask_of_lt (by decide) hx, BitVec.zero_or]
  bv_omega

end

end Counter

section Step

variable {t : ι} {a : Act Call} {s s' : Shared ι} {l l' : Local}

@[simp] theorem wrNext_reads (rc : BitVec 32) (l : Local) : (wrNext rc l).reads = l.reads := by
  simp only [wrNext]
  split
  · rfl
  · split
    · rfl
    · split <;> rfl

theorem Pc.not_hasMutex_of_locking {pc : Pc} (h : pc.locking) : ¬ pc.hasMutex := by
  cases pc <;> first | exact id | exact h.elim

theorem or_mutexWaitersBit_ne_zero (e : BitVec 32) : e ||| mutexWaitersBit ≠ 0#32 := by
  intro h
  have hflag : (e ||| topFlag 31) &&& topFlag 31 = topFlag 31 := or_topFlag_and_topFlag e
  rw [show e ||| topFlag 31 = 0#32 from h] at hflag
  exact absurd hflag (by decide)

theorem Local.sound_of_locking {l : Local} (h : l.pc.locking ∨ l.pc = .panicked) : l.Sound := by
  obtain ⟨pc, reads, writer⟩ := l
  rcases h with h | h
  · cases pc <;> first | exact h.elim | trivial
  · obtain rfl : pc = .panicked := h
    trivial

theorem wrNext_sound {rc : BitVec 32} (hw : l.writer = false) : (wrNext rc l).Sound := by
  simp only [wrNext]
  split
  · trivial
  · rename_i hrc
    split
    · trivial
    · split
      · exact ⟨hw, hrc⟩
      · exact hw

section

variable (h : Trans t a s l s' l')
include h

/-- What a step does to the counter: nothing, one reader more, one reader less,
or the mark of a writer. -/
theorem Trans.account (hlow : s.writerNotify.toNat < 2 ^ 30) (hsound : l.Sound)
    (hroom : l.pc = .rdAdd → a = .run → s.writerNotify.toNat + 1 < 2 ^ 30) :
    (s'.writerNotify = s.writerNotify ∧ l'.reads = l.reads) ∨
    (l.pc = .rdAdd ∧ s'.writerNotify.toNat = s.writerNotify.toNat + 1 ∧
      s'.writerNotify.toNat < 2 ^ 30 ∧ l'.reads = l.reads + 1) ∨
    (s'.writerNotify.toNat + 1 = s.writerNotify.toNat ∧ l'.reads + 1 = l.reads) ∨
    (∃ rc, l.pc = .wrMark rc ∧ a = .run ∧ s.writerNotify = rc ∧
      s'.writerNotify = rc ||| rcCountMask ∧ s'.writerNotify.toNat = 2 ^ 30 - 1 ∧
      l'.pc.waitsToWrite ∧ l'.reads = l.reads) := by
  cases h with
  | add ha hpc =>
    have hroom' := hroom hpc ha
    have hsucc : (s.writerNotify + 1).toNat = s.writerNotify.toNat + 1 := by bv_omega
    exact .inr (.inl ⟨hpc, hsucc, hsucc.trans_lt hroom', rfl⟩)
  | markReaders rc ha hpc hs =>
    refine .inr (.inr (.inr ⟨rc, hpc, ha, hs, rfl, ?_, trivial, rfl⟩))
    exact or_rcCountMask_toNat (hs ▸ hlow)
  | unlockOne rc hpc hs =>
    simp only [Local.Sound, hpc] at hsound
    subst hs
    refine .inr (.inr (.inl ⟨rcPred_toNat hlow hsound.2, ?_⟩))
    exact Nat.sub_add_cancel hsound.1
  | unlockLast rc hpc hs hflag => exact absurd (and_rcWaitersBit (hs ▸ hlow)) hflag
  | look hpc => exact .inl ⟨rfl, wrNext_reads _ l⟩
  | _ => exact .inl ⟨rfl, rfl⟩

/-- A thread gets inside only from a free mutex. -/
theorem Trans.inside (hunlock : l.pc = .unlockLoad → s.writerNotify = 0#32 → l.writer = true)
    (hin : l'.inside) : l.inside ∨ s.state = 0#32 ∧ s'.state ≠ 0#32 := by
  have hkeep (hpc' : ¬ l'.pc.hasMutex) (hw : l'.writer = l.writer) :
      l.inside ∨ s.state = 0#32 ∧ s'.state ≠ 0#32 :=
    .inl (.inl (hw ▸ hin.resolve_right hpc'))
  cases h with
  | take exclusive word hpc hs hword => exact .inr ⟨hs, hword⟩
  | release pc' hpc hpc' | add ha hpc | markReaders rc ha hpc hs | sleep rc hpc hs =>
    exact .inl (.inr (by rw [hpc]; trivial))
  | look hpc =>
    refine .inl (.inr ?_)
    rcases hpc with hpc | ⟨rc, hpc⟩ <;> rw [hpc] <;> trivial
  | resume queue hpc hsub =>
    refine .inl (.inr ?_)
    rcases hpc with ⟨rc, hpc⟩ | hpc <;> rw [hpc] <;> trivial
  | unlockWriter hpc hs => exact .inl (.inl (hunlock hpc hs))
  | spin queue pc' hpc hpc' =>
    refine hkeep ?_ rfl
    rcases hpc' with hpc' | rfl
    · exact Pc.not_hasMutex_of_locking hpc'
    · exact id
  | unlockLook hpc =>
    refine hkeep ?_ rfl
    simp only [Local.at, unlockNext]
    split <;> exact id
  | _ => exact hkeep id rfl

/-- A free mutex was free before, or the scheduled thread has just left it. -/
theorem Trans.state_zero (hs' : s'.state = 0#32) : s.state = 0#32 ∨ l.inside ∧ ¬ l'.inside := by
  cases h with
  | take exclusive word hpc hs hword => exact .inl hs
  | mark exclusive e hpc hs => exact absurd hs' (or_mutexWaitersBit_ne_zero e)
  | release pc' hpc hpc' =>
    refine .inr ⟨.inr (by rw [hpc]; trivial), ?_⟩
    rcases hpc' with rfl | rfl <;> rintro (h | h) <;> contradiction
  | _ => exact .inl hs'

/-- The write lock is new only with the counter at zero. -/
theorem Trans.writer (hw : l'.writer = true) : l.writer = true ∨ s'.writerNotify = 0#32 := by
  cases h with
  | look hpc =>
    simp only [wrNext] at hw
    split at hw
    · rename_i hs
      exact .inr hs
    · split at hw
      · exact .inl hw
      · split at hw <;> exact .inl hw
  | release => contradiction
  | _ => exact .inl hw

/-- A writer leaves its loop only with the counter at zero. -/
theorem Trans.waitsToWrite (hlow : s.writerNotify.toNat < 2 ^ 30)
    (hpc : l.pc.waitsToWrite) : l'.pc.waitsToWrite ∨ s'.writerNotify = 0#32 := by
  cases h with
  | look hk =>
    simp only [wrNext]
    split
    · rename_i hs
      exact .inr hs
    · rename_i hs
      rw [and_rcCountMask hlow, if_neg hs]
      split <;> exact .inl trivial
  | markReaders | sleep | resume => exact .inl trivial
  | spin queue pc' hk =>
    exfalso
    cases h : l.pc <;> rw [h] at hk hpc <;> first | exact hk | exact hpc
  | wake queue queue' hk =>
    rcases hk with hk | hk <;> rw [hk] at hpc <;> exact hpc.elim
  | unlockLook hk =>
    rcases hk with ⟨hk, -⟩ | ⟨rc, hk⟩ <;> rw [hk] at hpc <;> exact hpc.elim
  | lock _ _ hk | unlock _ hk | mark _ _ hk | take _ _ hk | release _ hk | add _ hk
  | unlockWriter hk | unlockLast _ hk | unlockOne _ hk =>
    rw [hk] at hpc
    exact hpc.elim

/-- Nobody sleeps on a counter that never has the waiters bit. -/
theorem Trans.awake (hlow : s.writerNotify.toNat < 2 ^ 30)
    (hs : s.notifySleepers = []) : s'.notifySleepers = [] := by
  cases h with
  | sleep rc hpc hrc => exact absurd hrc (ne_or_rcWaitersBit hlow rc)
  | wake queue queue' hpc hsub | resume queue hpc hsub =>
    exact List.eq_nil_iff_forall_not_mem.mpr fun u hu => by simpa [hs] using hsub u hu
  | _ => exact hs

theorem Trans.sound (hsound : l.Sound) (hheld : a = .call .unlock → 0 < l.reads ∨ l.writer = true)
    (hfree : s.state = 0#32 → ¬ l.inside)
    (hwriter : l.writer = true → s.writerNotify = 0#32) : l'.Sound := by
  cases h with
  | lock exclusive ha hpc | mark | wake | add | unlockWriter | unlockLast | unlockOne => trivial
  | unlock ha hpc => exact hheld ha
  | spin queue pc' hpc hpc' => exact Local.sound_of_locking hpc'
  | take exclusive word hpc hs hword =>
    have hw : l.writer = false := by
      cases hlw : l.writer with
      | false => rfl
      | true => exact absurd (.inl hlw) (hfree hs)
    cases exclusive <;> exact hw
  | release pc' hpc hpc' => rcases hpc' with rfl | rfl <;> trivial
  | look hpc =>
    refine wrNext_sound ?_
    rcases hpc with hpc | ⟨rc, hpc⟩ <;> simp only [Local.Sound, hpc] at hsound
    · exact hsound
    · exact hsound.1
  | markReaders rc ha hpc hs =>
    simp only [Local.Sound, hpc] at hsound
    exact hsound.1
  | sleep rc hpc hs =>
    simp only [Local.Sound, hpc] at hsound
    exact hsound
  | resume queue hpc hsub =>
    rcases hpc with ⟨rc, hpc⟩ | hpc <;> simp only [Local.Sound, hpc] at hsound <;> exact hsound
  | unlockLook hpc =>
    have hreads : 0 < l.reads := by
      rcases hpc with ⟨hpc, hne⟩ | ⟨rc, hpc⟩ <;> simp only [Local.Sound, hpc] at hsound
      · exact hsound.resolve_right fun hw => hne (hwriter hw)
      · exact hsound.1
    simp only [unlockNext]
    split
    · trivial
    · rename_i hrc
      exact ⟨hreads, hrc⟩

end

end Step

section InvStep

variable [Fintype ι] [DecidableEq ι] {t : ι} {a : Act Call} {c : Conf ι (Shared ι) Local}
  {s' : Shared ι} {l' : Local}

omit [DecidableEq ι] in
theorem reads_le_readers (c : Conf ι (Shared ι) Local) (t : ι) : (c.locals t).reads ≤ readers c :=
  Finset.single_le_sum (f := fun u => (c.locals u).reads) (fun _ _ => Nat.zero_le _)
    (Finset.mem_univ t)

omit [DecidableEq ι] in
/-- A thread that unlocks with the counter at zero is the writer. -/
theorem Inv.writer_of_unlock (hc : Inv c) (hpc : (c.locals t).pc = .unlockLoad)
    (hzero : c.shared.writerNotify = 0#32) : (c.locals t).writer = true := by
  have hsound := hc.sound t
  simp only [Local.Sound, hpc] at hsound
  refine hsound.resolve_left fun hpos => ?_
  have hle := hc.le
  have hread := reads_le_readers c t
  rw [hzero, BitVec.toNat_zero] at hle
  omega

theorem readers_update (c : Conf ι (Shared ι) Local) (t : ι) (s' : Shared ι) (l' : Local) :
    readers ⟨s', update c.locals t l'⟩ + (c.locals t).reads =
      readers c + l'.reads :=
  sum_threads_update Local.reads c.locals t l'

theorem Inv.step (hc : Inv c) (h : Trans t a c.shared (c.locals t) s' l')
    (hheld : a = .call .unlock → 0 < (c.locals t).reads ∨ (c.locals t).writer = true)
    (hroom : (c.locals t).pc = .rdAdd → a = .run → c.shared.writerNotify.toNat + 1 < 2 ^ 30) :
    Inv ⟨s', update c.locals t l'⟩ := by
  have hsum := readers_update c t s' l'
  have hle := hc.le
  have hlow := hc.low
  have hunlock := hc.writer_of_unlock (t := t)
  have haccount := h.account hlow (hc.sound t) hroom
  have hcount : s'.writerNotify.toNat < 2 ^ 30 ∧
      readers ⟨s', update c.locals t l'⟩ ≤ s'.writerNotify.toNat := by
    rcases haccount with ⟨hn, hr⟩ | ⟨-, hn, hlt, hr⟩ | ⟨hn, hr⟩ | ⟨rc, -, -, -, -, hn, -, hr⟩
    · rw [hn]
      omega
    all_goals omega
  constructor
  case unique =>
    -- only one thread at a time gets inside, and only when nobody is
    have hother (u : ι) (hu : u ≠ t) (hin : (c.locals u).inside) (hin' : l'.inside) : False := by
      rcases h.inside hunlock hin' with hin₀ | ⟨hfree, -⟩
      · exact hu (hc.unique u t hin hin₀)
      · exact hc.free hfree u hin
    intro u v hu hv
    by_cases hut : u = t <;> by_cases hvt : v = t
    · rw [hut, hvt]
    · subst u
      simp only [update_self, update_of_ne hvt] at hu hv
      exact (hother v hvt hv hu).elim
    · subst v
      simp only [update_self, update_of_ne hut] at hu hv
      exact (hother u hut hu hv).elim
    · simp only [update_of_ne hut, update_of_ne hvt] at hu hv
      exact hc.unique u v hu hv
  case free =>
    -- the word is zero before the step too, or the step is the one that leaves
    intro hs'
    refine (forall_update_iff c.locals fun _ l => ¬ l.inside).mpr ?_
    rcases h.state_zero hs' with hs | ⟨hin, hout⟩
    · refine ⟨fun hin' => ?_, fun u _ => hc.free hs u⟩
      rcases h.inside hunlock hin' with hin | ⟨-, hne⟩
      · exact hc.free hs t hin
      · exact hne hs'
    · exact ⟨hout, fun u hu hin' => hu (hc.unique u t hin' hin)⟩
  case sound =>
    exact (forall_update_iff c.locals fun _ l => l.Sound).mpr
      ⟨h.sound (hc.sound t) hheld (fun hs => hc.free hs t) (hc.writer t), fun u _ => hc.sound u⟩
  case low => exact hcount.1
  case le => exact hcount.2
  case excess =>
    -- a count above the readers is that of a writer that waits, or was one before
    intro hexcess
    change _ < s'.writerNotify.toNat at hexcess
    refine (exists_update_iff c.locals fun _ l => l.pc.waitsToWrite).mpr ?_
    have hold (h₀ : readers c < c.shared.writerNotify.toNat) :
        l'.pc.waitsToWrite ∨ ∃ u ≠ t, (c.locals u).pc.waitsToWrite := by
      refine (exists_self_or t (hc.excess h₀)).imp_left fun hu => ?_
      rcases h.waitsToWrite hlow hu with hpc' | hzero
      · exact hpc'
      · rw [hzero, BitVec.toNat_zero] at hexcess
        omega
    rcases haccount with ⟨hn, hr⟩ | ⟨-, hn, -, hr⟩ | ⟨hn, hr⟩ | ⟨rc, -, -, -, -, -, hpc', -⟩
    · rw [hn] at hexcess
      exact hold (by omega)
    · exact hold (by omega)
    · exact hold (by omega)
    · exact .inl hpc'
  case writer =>
    -- the counter stays at zero under a writer, who keeps the others out
    have hstay (u : ι) (hw : (c.locals u).writer = true)
        (hself : u = t → (c.locals t).pc ≠ .rdAdd ∧ ∀ rc, (c.locals t).pc ≠ .wrMark rc) :
        s'.writerNotify = 0#32 := by
      have hzero := hc.writer u hw
      have hnot (hpc : (c.locals t).pc.hasMutex) : u = t := hc.unique u t (.inl hw) (.inr hpc)
      rcases haccount with ⟨hn, -⟩ | ⟨hpc, -⟩ | ⟨hn, -⟩ | ⟨rc, hpc, -⟩
      · rw [hn, hzero]
      · exact absurd hpc (hself (hnot (by rw [hpc]; trivial))).1
      · rw [hzero, BitVec.toNat_zero] at hn
        omega
      · exact absurd hpc ((hself (hnot (by rw [hpc]; trivial))).2 rc)
    refine (forall_update_iff c.locals
      fun _ l => l.writer = true → s'.writerNotify = 0#32).mpr ⟨fun hw => ?_, fun u hu hw => ?_⟩
    · rcases h.writer hw with hw₀ | hzero
      · have hsound := hc.sound t
        refine hstay t hw₀ fun _ => ⟨fun hpc => ?_, fun rc hpc => ?_⟩ <;>
          simp [Local.Sound, hpc, hw₀] at hsound
      · exact hzero
    · exact hstay u hw fun hut => absurd hut hu
  case awake => exact h.awake hlow hc.awake

end InvStep

theorem inv_start [Fintype ι] : Inv (start : Conf ι (Shared ι) Local) where
  unique _ _ h := by rcases h with h | h <;> contradiction
  free _ _ h := by rcases h with h | h <;> contradiction
  sound _ := trivial
  low := Nat.two_pow_pos 30
  le := by simp [readers, start]
  excess h := absurd h (Nat.not_lt_zero _)
  writer _ h := by contradiction
  awake := rfl

end Hzlibc.Posix.RwLock
