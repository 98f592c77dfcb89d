import Hzlibc.Posix.Barrier

/-!
What `pthread_barrier_destroy` waits for.

`inside` counts the threads between their entry and their leave. The destroyer loads it
and waits once for it to change; what it has become is not looked at any more. So it is
only right to call the function when nobody is inside.
-/

namespace Hzlibc.Posix.Barrier

open Concurrency Function Act

variable {ι : Type*}

/-- The thread is between its entry increment and its leave decrement. -/
def Pc.within : Pc → Bool
  | .loadSequence | .loadWaiting _ | .exchange _ _ | .bumpSequence _ | .resetWaiting _
  | .wakeSequence _ | .futex _ _ | .asleep _ _ | .reload _ _ | .leaveSub _ _ => true
  | .idle _ | .enter | .leaveWake _ _ | .destroyLoad | .destroyFutex _ | .destroyAsleep
  | .panicked => false

/-- The thread is not before the end of its round, and does not destroy the barrier. -/
def Pc.completed (sequence : BitVec 32) : Pc → Bool
  | .enter | .loadSequence | .loadWaiting _ | .exchange _ _ | .bumpSequence _ => false
  | .futex q _ | .asleep q _ | .reload q _ => q.slt sequence
  | .destroyLoad | .destroyFutex _ | .destroyAsleep => false
  | .idle _ | .resetWaiting _ | .wakeSequence _ | .leaveSub _ _ | .leaveWake _ _
  | .panicked => true

/-- Every round that was begun is over. -/
def Completed (c : Conf ι (Shared ι) Pc) : Prop :=
  ∀ t, (c.locals t).completed c.shared.sequence = true

instance [Fintype ι] (c : Conf ι (Shared ι) Pc) : Decidable (Completed c) :=
  inferInstanceAs (Decidable (∀ t, (c.locals t).completed c.shared.sequence = true))

/-- Nobody is inside. -/
def Left (c : Conf ι (Shared ι) Pc) : Prop :=
  c.shared.inside = 0#32 ∧ ∀ t, (c.locals t).within = false

instance [Fintype ι] (c : Conf ι (Shared ι) Pc) : Decidable (Left c) :=
  inferInstanceAs (Decidable (c.shared.inside = 0#32 ∧ ∀ t, (c.locals t).within = false))

/-- The action is not the begin of a call. -/
def NoCall (a : Act Call) : Prop := ∀ f, a ≠ .call f

variable [DecidableEq ι]

/-- A call of `pthread_barrier_destroy` by thread `d` in state `c`, with no call after it,
returns only when nobody is inside. -/
def DestroyWaits (d : ι) (c : Conf ι (Shared ι) Pc) : Prop :=
  ∀ sched c', (∀ x ∈ sched, NoCall x.2) →
    program.exec ((d, .call .destroy) :: sched) c = some c' →
    c'.locals d = .idle (some .zero) → Left c'

/-! ### The count of the threads inside -/

section Count

variable {t : ι} {a : Act Call} {s s' : Shared ι} {pc pc' : Pc}

/-- What a thread adds to `inside`. -/
def Pc.weight (pc : Pc) : ℕ := pc.within.toNat

theorem afterDestroyFutex_weight (r : WaitResult) : (afterDestroyFutex r).weight = 0 := by
  cases r <;> rfl

theorem program_inside (h : program t a s pc = some (s', pc')) :
    s'.inside + BitVec.ofNat 32 pc.weight = s.inside + BitVec.ofNat 32 pc'.weight := by
  cases pc with
  | idle last =>
    obtain ⟨f, -, hf⟩ := onCall_eq_some.mp h
    cases f <;> cases hf <;> rfl
  | enter =>
    obtain ⟨rfl, rfl⟩ := onRun_some h
    exact BitVec.add_zero _
  | exchange q e =>
    obtain ⟨b, -, h⟩ := Option.map_eq_some_iff.mp h
    cases b with
    | true =>
      simp only at h
      split at h <;> cases h <;> rfl
    | false =>
      cases h
      rfl
  | futex q k =>
    obtain ⟨-, ⟨⟩⟩ | ⟨r, hr, hk⟩ := onUntimedWait_sleep h rfl
    · rfl
    · rw [afterFutex_untimed hr] at hk
      cases hk
      rfl
  | asleep q k =>
    obtain ⟨-, ⟨⟩⟩ | ⟨r, hr, hk⟩ := onUntimedWait_asleep h
    · rfl
    · rw [afterFutex_untimed hr] at hk
      cases hk
      rfl
  | reload q k =>
    obtain ⟨rfl, rfl⟩ := onRun_some h
    rw [waitReload]
    split <;> rfl
  | leaveSub k r =>
    obtain ⟨-, hr⟩ := onRun_eq_some.mp h
    have hsub : s.inside - 1#32 + 1#32 = s.inside + 0#32 := by
      rw [BitVec.sub_add_cancel, BitVec.add_zero]
    simp [leaveSub] at hr
    split at hr <;> cases hr <;> exact hsub
  | leaveWake k r =>
    obtain ⟨rfl, rfl⟩ := onRun_some h
    rfl
  | destroyLoad =>
    obtain ⟨rfl, rfl⟩ := onRun_some h
    split <;> rfl
  | destroyFutex e =>
    obtain ⟨-, ⟨⟩⟩ | ⟨r, -, ⟨⟩⟩ := onUntimedWait_sleep h rfl
    · rfl
    · rw [afterDestroyFutex_weight]
      rfl
  | destroyAsleep =>
    obtain ⟨-, ⟨⟩⟩ | ⟨r, -, ⟨⟩⟩ := onUntimedWait_asleep h
    · rfl
    · rw [afterDestroyFutex_weight]
      rfl
  | panicked => contradiction
  | _ =>
    obtain ⟨rfl, rfl⟩ := onRun_some h
    rfl

end Count

/-- `inside` counts the threads inside. -/
def Counted [Fintype ι] (c : Conf ι (Shared ι) Pc) : Prop :=
  c.shared.inside = BitVec.ofNat 32 (∑ t, (c.locals t).weight)

theorem counted_step [Fintype ι] {t : ι} {a : Act Call} {c c' : Conf ι (Shared ι) Pc}
    (hc : Counted c) (h : program.step t a c = some c') : Counted c' := by
  obtain ⟨s', pc', hp, rfl⟩ := Program.step_eq_some.mp h
  have hsum := sum_threads_update Pc.weight c.locals t pc'
  have hinside := program_inside hp
  rw [hc, ← BitVec.ofNat_add, ← hsum, BitVec.ofNat_add] at hinside
  exact (BitVec.add_left_inj _).mp hinside

omit [DecidableEq ι] in
theorem counted_start [Fintype ι] (count : BitVec 32) : Counted (start (ι := ι) count) := by
  change 0#32 = BitVec.ofNat 32 (∑ _t : ι, 0)
  rw [Finset.sum_const_zero]

variable {c : Conf ι (Shared ι) Pc}

omit [DecidableEq ι] in
theorem Counted.left [Fintype ι] (hc : Counted c)
    (h : ∀ t, (c.locals t).within = false) : Left c := by
  refine ⟨?_, h⟩
  rw [hc, Finset.sum_eq_zero fun t _ => by rw [Pc.weight, h t]; rfl]

/-! ### The destroyer -/

/-- The thread is neither inside nor about to enter. -/
def Pc.away (pc : Pc) : Prop := pc.within = false ∧ pc ≠ .enter

theorem afterDestroyFutex_away (r : WaitResult) : (afterDestroyFutex r).away := by
  cases r <;> exact ⟨rfl, nofun⟩

/-- A thread that makes no call stays away. -/
theorem program_away {t : ι} {a : Act Call} {s s' : Shared ι} {pc pc' : Pc} (ha : NoCall a)
    (hpc : pc.away) (h : program t a s pc = some (s', pc')) : pc'.away := by
  obtain ⟨hin, henter⟩ := hpc
  cases pc with
  | idle last =>
    obtain ⟨f, hf, -⟩ := onCall_eq_some.mp h
    exact absurd hf (ha f)
  | enter => exact absurd rfl henter
  | leaveWake k r =>
    obtain ⟨rfl, rfl⟩ := onRun_some h
    exact ⟨rfl, nofun⟩
  | destroyLoad =>
    obtain ⟨rfl, rfl⟩ := onRun_some h
    split <;> exact ⟨rfl, nofun⟩
  | destroyFutex e =>
    obtain ⟨-, ⟨⟩⟩ | ⟨r, -, ⟨⟩⟩ := onUntimedWait_sleep h rfl
    · exact ⟨rfl, nofun⟩
    · exact afterDestroyFutex_away r
  | destroyAsleep =>
    obtain ⟨-, ⟨⟩⟩ | ⟨r, -, ⟨⟩⟩ := onUntimedWait_asleep h
    · exact afterDestroyFutex_away _
    · exact afterDestroyFutex_away r
  | panicked => contradiction
  | _ => cases hin

theorem exec_away {sched : List (ι × Act Call)} {c c' : Conf ι (Shared ι) Pc}
    (hsched : ∀ x ∈ sched, NoCall x.2) (hc : ∀ t, (c.locals t).away)
    (h : program.exec sched c = some c') : ∀ t, (c'.locals t).away := by
  induction sched generalizing c with
  | nil =>
    cases h
    exact hc
  | cons x sched ih =>
    obtain ⟨m, hm, hrest⟩ := Program.exec_cons_eq_some.mp h
    obtain ⟨s', pc', hp, rfl⟩ := Program.step_eq_some.mp hm
    refine ih (fun y hy => hsched y (List.mem_cons_of_mem x hy)) ?_ hrest
    exact (forall_update_iff c.locals fun _ pc => pc.away).mpr
      ⟨program_away (hsched x List.mem_cons_self) (hc x.1) hp, fun u _ => hc u⟩

theorem step_destroy {d : ι} {last : Option Ret}
    (hd : c.locals d = .idle last) : program.step d (.call .destroy) c =
      some ⟨c.shared, update c.locals d .destroyLoad⟩ := by
  refine Program.step_eq_some.mpr ⟨_, _, ?_, rfl⟩
  rw [hd]
  rfl

/-- The destroyer loads `inside`, and is interrupted if it has to wait. -/
def interrupted (d : ι) (inside : BitVec 32) : List (ι × Act Call) :=
  if inside = 0#32 then [(d, .run)] else [(d, .run), (d, .interrupt .intr)]

omit [DecidableEq ι] in
theorem interrupted_noCall (d : ι) (inside : BitVec 32) :
    ∀ x ∈ interrupted d inside, NoCall x.2 := by
  rw [interrupted]
  split <;> simp [NoCall]

/-- It then returns, and nobody else has moved. -/
theorem exec_interrupted {d : ι} {last : Option Ret} (hd : c.locals d = .idle last) :
    program.exec ((d, .call .destroy) :: interrupted d c.shared.inside) c =
      some ⟨c.shared, update c.locals d (.idle (some .zero))⟩ := by
  refine Program.exec_cons_eq_some.mpr ⟨_, step_destroy hd, ?_⟩
  rw [interrupted]
  split
  · rename_i hzero
    refine Program.exec_single (Program.step_eq_some.mpr ⟨c.shared, .idle (some .zero), ?_, ?_⟩)
    · simp [program, onRun, if_pos hzero]
    · simp
  · rename_i hne
    refine Program.exec_cons_eq_some.mpr
      ⟨⟨c.shared, update c.locals d (.destroyFutex c.shared.inside)⟩, ?_,
        Program.exec_single ?_⟩
    · refine Program.step_eq_some.mpr ⟨c.shared, .destroyFutex c.shared.inside, ?_, ?_⟩
      · simp [program, onRun, if_neg hne]
      · simp
    · refine Program.step_eq_some.mpr ⟨c.shared, .idle (some .zero), ?_, ?_⟩
      · simp [program]
        rfl
      · simp

/-- If a call of the function started after the last round returns only when nobody is inside,
whatever the others and the kernel do, then nobody is inside when it starts. -/
theorem destroyWaits_iff [Fintype ι] (count : BitVec 32) (before : List (ι × Act Call))
    (c : Conf ι (Shared ι) Pc) (hrun : program.exec before (start count) = some c)
    (hcompleted : Completed c) (d : ι) (last : Option Ret) (hd : c.locals d = .idle last) :
    DestroyWaits d c ↔ ∀ t, (c.locals t).within = false := by
  have hcounted : Counted c :=
    Program.exec_invariant (fun _ _ _ _ => counted_step) (counted_start count) hrun
  constructor
  · intro h t
    have hleft := h _ _ (interrupted_noCall d _) (exec_interrupted hd) (update_self ..)
    by_cases htd : t = d
    · rw [htd, hd]
      rfl
    · simpa [update_of_ne htd] using hleft.2 t
  · intro hwithin sched c' hsched hexec _
    have haway (t : ι) : (c.locals t).away := by
      refine ⟨hwithin t, fun henter => ?_⟩
      have ht := hcompleted t
      rw [henter] at ht
      cases ht
    obtain ⟨m, hm, hrest⟩ := Program.exec_cons_eq_some.mp hexec
    have hcounted' : Counted c' :=
      Program.exec_invariant (fun _ _ _ _ => counted_step) (counted_step hcounted hm) hrest
    rw [step_destroy hd] at hm
    cases hm
    have hload : ∀ t, (update c.locals d .destroyLoad t).away :=
      (forall_update_iff c.locals fun _ pc => pc.away).mpr
        ⟨⟨rfl, nofun⟩, fun u _ => haway u⟩
    exact hcounted'.left fun t => (exec_away hsched hload hrest t).1

/-- A thread alone in a round of one, up to its return. -/
def roundOfOne (t : Fin 2) : List (Fin 2 × Act Call) := (t, .call .wait) :: steps t 9

theorem destroyWaits_roundOfOne : ∃ c, program.exec (roundOfOne 0) (start 1#32) = some c ∧
    Completed c ∧ DestroyWaits 1 c := by
  refine ⟨_, rfl, by decide, ?_⟩
  exact (destroyWaits_iff 1#32 (roundOfOne 0) _ rfl (by decide) 1 none rfl).mpr (by decide)

theorem destroy_not_waits :
    ¬ ∀ (count : BitVec 32) (before : List (Fin 2 × Act Call))
      (c : Conf (Fin 2) (Shared (Fin 2)) Pc) (d : Fin 2) (last : Option Ret),
      program.exec before (start count) = some c → Completed c → c.locals d = .idle last →
      DestroyWaits d c := by
  intro h
  -- the thread has not left yet
  obtain ⟨c, hrun, hcompleted, hd, c', hexec, hret, hleft⟩ :
      ∃ c ∈ program.exec ((roundOfOne 0).take 8) (start 1#32), Completed c ∧
        c.locals 1 = .idle none ∧
        ∃ c' ∈ program.exec ((1, .call .destroy) :: [(1, .run), (1, .interrupt .intr)]) c,
          c'.locals 1 = .idle (some .zero) ∧ ¬Left c' := by decide
  exact hleft (h 1#32 _ c 1 none hrun hcompleted hd _ c' (by simp [NoCall]) hexec hret)

end Hzlibc.Posix.Barrier
