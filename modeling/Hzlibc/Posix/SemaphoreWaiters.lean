import Hzlibc.Posix.Semaphore

/-!
The sleepers of a semaphore.

A thread goes to sleep with the value that it has just exchanged away as the expected one.
If that is the waiters bit, the sleeper is remembered by the word, until a post exchanges
the word and then wakes. If it is zero, the thread sleeps only if the word has become zero
again after another post and another wait, and then nothing remembers it.
-/

namespace Hzlibc.Posix.Semaphore

open Concurrency

variable {ι : Type*}

/-- If there is a sleeper, the word is the waiters bit alone or a post is about to wake. -/
def Remembered (c : Conf ι (Shared ι) Pc) : Prop :=
  c.shared.sleepers ≠ [] → c.shared.state = semaphoreWaiters ∨ ∃ t, c.locals t = .postWake

/-- The step puts no thread to sleep, or the word is the waiters bit alone, or a post is about
to wake. -/
def SleepsRemembered (t : ι) (a : Act Call) (c : Conf ι (Shared ι) Pc) : Prop :=
  match c.locals t with
  | .waitFutex _ state =>
    a = .run → c.shared.state = state →
      state = semaphoreWaiters ∨ ∃ u, c.locals u = .postWake
  | _ => True

def decidableSleeps [Fintype ι] (a : Act Call) (c : Conf ι (Shared ι) Pc) : (pc : Pc) →
    Decidable (match pc with
      | .waitFutex _ state =>
        a = .run → c.shared.state = state →
          state = semaphoreWaiters ∨ ∃ u, c.locals u = .postWake
      | _ => True)
  | .waitFutex _ _ => inferInstanceAs (Decidable (_ → _ → _ ∨ _))
  | .idle _ | .enter _ | .postExchange _ | .postWake | .waitLoop _ _ | .waitClock _ _
  | .waitAsleep _ _ | .tryLoad | .tryExchange _ | .panicked => isTrue trivial

instance [Fintype ι] (t : ι) (a : Act Call) (c : Conf ι (Shared ι) Pc) :
    Decidable (SleepsRemembered t a c) :=
  decidableSleeps a c (c.locals t)

theorem and_semaphoreWaiters : semaphoreWaiters &&& semaphoreWaiters ≠ 0#32 := by decide

theorem toNat_semaphoreWaiters_mod : semaphoreWaiters.toNat % 2 ^ 31 = 0 := rfl

/-! ### One step -/

section Step

variable {t : ι} {a : Act Call} {s s' : Shared ι} {pc pc' : Pc} {others : Prop}

/-- The same as one thread sees it: `others` says that another is about to wake. -/
def Known (s : Shared ι) (pc : Pc) (others : Prop) : Prop :=
  s.sleepers ≠ [] → s.state = semaphoreWaiters ∨ pc = .postWake ∨ others

theorem Trans.remembers (h : Trans t a s pc s' pc') (hi : Known s pc others)
    (hsleep : ∀ absTimeout, pc = .waitFutex absTimeout s.state → a = .run →
      s.state = semaphoreWaiters ∨ others) : Known s' pc' others := by
  intro hne
  cases h with
  | stay hpc _ _ hsub =>
    obtain h | h | h := hi (hsub hne)
    · exact .inl h
    · exact absurd h hpc
    · exact .inr (.inr h)
  | sleep absTimeout state hpc ha hstate =>
    exact (hsleep absTimeout (hstate ▸ hpc) ha).imp_right .inr
  | announce => exact .inl rfl
  | take hpc hcount =>
    -- a unit is only taken from a word that is not the waiters bit alone
    obtain h | h | h := hi hne
    · rw [h] at hcount
      exact absurd toNat_semaphoreWaiters_mod hcount
    · exact absurd h hpc
    · exact .inr (.inr h)
  | post count hpc hflag =>
    -- the waiters bit was not set, so it is another post that remembers
    obtain hstate | hwake | hothers := hi hne
    · rw [hstate] at hflag
      exact absurd hflag and_semaphoreWaiters
    · rw [hpc] at hwake
      cases hwake
    · exact .inr (.inr hothers)
  | postFlagged => exact .inr (.inl rfl)
  | wake => exact absurd rfl hne

end Step

/-! ### Runs -/

variable [DecidableEq ι]

theorem remembered_update (s : Shared ι) (locals : ι → Pc) (t : ι) (pc' : Pc) :
    Remembered ⟨s, Function.update locals t pc'⟩ ↔
      Known s pc' (∃ u ≠ t, locals u = .postWake) :=
  imp_congr_right fun _ => or_congr_right
    (Function.exists_update_iff locals fun _ pc => pc = .postWake)

theorem remembered_iff (c : Conf ι (Shared ι) Pc) (t : ι) :
    Remembered c ↔ Known c.shared (c.locals t) (∃ u ≠ t, c.locals u = .postWake) := by
  rw [← remembered_update, Function.update_eq_self]

theorem remembered_step {t : ι} {a : Act Call} {c c' : Conf ι (Shared ι) Pc}
    (hi : (∀ u, (c.locals u).Checked) ∧ Remembered c) (hsleep : SleepsRemembered t a c)
    (h : program.step t a c = some c') : (∀ u, (c'.locals u).Checked) ∧ Remembered c' := by
  obtain ⟨s', pc', hp, rfl⟩ := Program.step_eq_some.mp h
  refine ⟨?_, ?_⟩
  · exact (Function.forall_update_iff c.locals fun _ pc => pc.Checked).mpr
      ⟨(program_trans (hi.1 t) hp).checked, fun u _ => hi.1 u⟩
  · rw [remembered_update]
    refine (program_trans (hi.1 t) hp).remembers ((remembered_iff c t).mp hi.2)
      fun absTimeout hpc ha => ?_
    simp only [SleepsRemembered, hpc] at hsleep
    obtain hword | ⟨u, hu⟩ := hsleep ha trivial
    · exact .inl hword
    · refine .inr ⟨u, ?_, hu⟩
      rintro rfl
      exact absurd (hpc.symm.trans hu) nofun

/-- A thread that has gone to sleep was remembered before. -/
theorem sleepsRemembered_of_step {t : ι} {a : Act Call} {c : Conf ι (Shared ι) Pc}
    (h : ∀ c', program.step t a c = some c' → Remembered c') : SleepsRemembered t a c := by
  rw [SleepsRemembered]
  split
  · rename_i absTimeout state hpc
    rintro rfl hstate
    have hstep : program.step t .run c = some
        ⟨{ c.shared with sleepers := c.shared.sleepers ++ [t] },
          Function.update c.locals t (.waitAsleep absTimeout state)⟩ := by
      refine Program.step_eq_some.mpr ⟨_, _, ?_, rfl⟩
      rw [hpc]
      exact if_pos hstate
    have hknown := (remembered_update _ _ t _).mp (h _ hstep)
    obtain hword | hwake | ⟨u, -, hu⟩ := hknown (List.append_ne_nil_of_right_ne_nil _ nofun)
    · exact .inl (hstate.symm.trans hword)
    · cases hwake
    · exact .inr ⟨u, hu⟩
  · trivial

omit [DecidableEq ι] in
theorem remembered_start {value : BitVec 32} {s : Shared ι} (hs : semInit value = .ok s) :
    (∀ u, ((start s).locals u).Checked) ∧ Remembered (start s) := by
  refine ⟨fun _ => trivial, fun hne => absurd ?_ hne⟩
  rw [semInit] at hs
  split at hs
  · cases hs
  · cases hs
    rfl

/-- The sleepers are remembered in every state of a run if and only if no thread goes to
sleep on a word that is not the waiters bit, unless a post is about to wake. -/
theorem waiters_remembered_iff (value : BitVec 32) (s : Shared ι) (hs : semInit value = .ok s)
    (sched : List (ι × Act Call)) :
    (∀ xs ys c, sched = xs ++ ys → program.exec xs (start s) = some c → Remembered c) ↔
      program.AllSteps SleepsRemembered sched (start s) := by
  constructor
  · intro h
    refine Program.allSteps_of_reached fun xs x ys m hsched hm => ?_
    refine sleepsRemembered_of_step fun c' hc' => h (xs ++ [x]) ys c' ?_ ?_
    · rw [hsched, List.append_assoc, List.singleton_append]
    · exact Program.exec_trans hm (Program.exec_single hc')
  · rintro h xs ys c rfl hrun
    have hinv : (∀ u, (c.locals u).Checked) ∧ Remembered c :=
      h.of_append.invariant (I := fun c => (∀ u, (c.locals u).Checked) ∧ Remembered c)
        (fun _ _ _ _ => remembered_step) (remembered_start hs) hrun
    exact hinv.2

/-- A thread goes to sleep after its second look at the word, and a post wakes it. -/
def sleepAndPost (t u : Fin 2) : List (Fin 2 × Act Call) :=
  [(t, .call .wait)] ++ steps t 5 ++ [(u, .call .post)] ++ steps u 3 ++ steps t 4

theorem waiters_remembered_sleepAndPost :
    program.AllSteps SleepsRemembered (sleepAndPost 0 1) (start ⟨0#32, [], 0, 0⟩) ∧
      ∀ xs ys c, sleepAndPost 0 1 = xs ++ ys →
        program.exec xs (start ⟨0#32, [], 0, 0⟩) = some c → Remembered c := by
  have h : program.AllSteps SleepsRemembered (sleepAndPost 0 1) (start ⟨0#32, [], 0, 0⟩) := by
    decide
  exact ⟨h, (waiters_remembered_iff 0#32 _ rfl (sleepAndPost 0 1)).mpr h⟩

/-- Between the exchange of the first thread and its futex wait the other posts, and takes
what it has posted. The next post does not wake the first thread. -/
def forgotten (t u : Fin 2) : List (Fin 2 × Act Call) :=
  [(t, .call .wait)] ++ steps t 1 ++ [(u, .call .post)] ++ steps u 3 ++ [(u, .call .wait)] ++
    steps u 2 ++ steps t 1 ++ [(u, .call .post)] ++ steps u 2

theorem waiters_not_remembered :
    ¬ ∀ (value : BitVec 32) (s : Shared (Fin 2)) (sched : List (Fin 2 × Act Call))
      (c : Conf (Fin 2) (Shared (Fin 2)) Pc), semInit value = .ok s →
      (∀ x ∈ sched, x.2 ≠ .call .trywait) → program.exec sched (start s) = some c →
      Remembered c := by
  intro h
  obtain ⟨c, hrun, hsleeps, hword, hwake⟩ :
      ∃ c ∈ program.exec (forgotten 0 1) (start ⟨0#32, [], 0, 0⟩), c.shared.sleepers ≠ [] ∧
        c.shared.state ≠ semaphoreWaiters ∧ ¬∃ t, c.locals t = .postWake := by decide
  have hremembered : Remembered c :=
    h 0#32 ⟨0#32, [], 0, 0⟩ (forgotten 0 1) c rfl (by decide) (Option.mem_def.mp hrun)
  exact (hremembered hsleeps).elim hword hwake

end Hzlibc.Posix.Semaphore
