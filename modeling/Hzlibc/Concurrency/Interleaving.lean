import Mathlib.Data.Fintype.BigOperators

/-!
Threads over shared memory, one step at a time.

A program is given by what one thread does when it is scheduled: from the
shared state and its own local state it computes both anew, or it is not able
to move. Everything the thread cannot decide by itself (which function its
client calls next, whether a weak compare-exchange fails for no reason, how a
system call ends) is an explicit action, so that the step is a function and a
schedule can be evaluated.

Only the scheduled thread changes its local state. A thread that wakes another
one does it through the shared state; this is what makes an invariant over all
threads a statement about one thread at a time.
-/

namespace Hzlibc.Concurrency

open Function

/-- What thread `t` does on action `a` in shared state `s` and local state
`l`; `none` when the action is not possible there. -/
abbrev Program (ι α σ κ : Type*) := ι → α → σ → κ → Option (σ × κ)

/-- A state of the whole system. -/
structure Conf (ι σ κ : Type*) where
  shared : σ
  locals : ι → κ

namespace Program

variable {ι α σ κ : Type*} [DecidableEq ι] (P : Program ι α σ κ)

/-- One step of thread `t`. -/
def step (t : ι) (a : α) (c : Conf ι σ κ) : Option (Conf ι σ κ) :=
  (P t a c.shared (c.locals t)).map fun r => ⟨r.1, Function.update c.locals t r.2⟩

/-- The state after a whole schedule, if every step of it was possible. -/
def exec : List (ι × α) → Conf ι σ κ → Option (Conf ι σ κ)
  | [], c => some c
  | x :: sched, c => (P.step x.1 x.2 c).bind (exec sched)

/-- Every step of the schedule is taken in a state that meets `G`. -/
def AllSteps (G : ι → α → Conf ι σ κ → Prop) : List (ι × α) → Conf ι σ κ → Prop
  | [], _ => True
  | x :: sched, c => G x.1 x.2 c ∧ ∀ c' ∈ P.step x.1 x.2 c, AllSteps G sched c'

/-- A condition that can be decided in a state can be decided along a
schedule. -/
instance AllSteps.instDecidable {G : ι → α → Conf ι σ κ → Prop}
    [∀ t a c, Decidable (G t a c)] :
    (sched : List (ι × α)) → (c : Conf ι σ κ) → Decidable (P.AllSteps G sched c)
  | [], _ => inferInstanceAs (Decidable True)
  | x :: sched, c =>
    have (c' : Conf ι σ κ) : Decidable (P.AllSteps G sched c') := AllSteps.instDecidable sched c'
    inferInstanceAs (Decidable (G x.1 x.2 c ∧ ∀ c' ∈ P.step x.1 x.2 c, P.AllSteps G sched c'))

variable {P} {c c' : Conf ι σ κ}

theorem step_eq_some {t : ι} {a : α} :
    P.step t a c = some c' ↔
      ∃ s' l', P t a c.shared (c.locals t) = some (s', l') ∧
        c' = ⟨s', update c.locals t l'⟩ := by
  simp [step]
  constructor
  all_goals
    rintro ⟨s', l', h, rfl⟩
    exact ⟨s', l', h, rfl⟩

@[simp] theorem exec_nil (c : Conf ι σ κ) : P.exec [] c = some c := rfl

variable {sched : List (ι × α)}

theorem exec_cons_eq_some {x : ι × α} :
    P.exec (x :: sched) c = some c' ↔
      ∃ m, P.step x.1 x.2 c = some m ∧ P.exec sched m = some c' := by
  simp [exec, Option.bind_eq_some_iff]

@[simp] theorem exec_append (xs ys : List (ι × α)) (c : Conf ι σ κ) :
    P.exec (xs ++ ys) c = (P.exec xs c).bind (P.exec ys) := by
  induction xs generalizing c with
  | nil => rfl
  | cons x xs ih => simp [exec, ih, Option.bind_assoc]

theorem exec_trans {xs ys : List (ι × α)} {c m c' : Conf ι σ κ}
    (hx : P.exec xs c = some m) (hy : P.exec ys m = some c') : P.exec (xs ++ ys) c = some c' := by
  rw [exec_append, hx, Option.bind_some, hy]

theorem exec_single {x : ι × α} (h : P.step x.1 x.2 c = some c') : P.exec [x] c = some c' :=
  exec_cons_eq_some.mpr ⟨c', h, rfl⟩

theorem AllSteps.and {G H : ι → α → Conf ι σ κ → Prop}
    {c : Conf ι σ κ} (hG : P.AllSteps G sched c) (hH : P.AllSteps H sched c) :
    P.AllSteps (fun t a c => G t a c ∧ H t a c) sched c := by
  induction sched generalizing c with
  | nil => trivial
  | cons x sched ih => exact ⟨⟨hG.1, hH.1⟩, fun c' hc' => ih (hG.2 c' hc') (hH.2 c' hc')⟩

variable {G : ι → α → Conf ι σ κ → Prop}

theorem AllSteps.of_append {xs ys : List (ι × α)}
    {c : Conf ι σ κ} (h : P.AllSteps G (xs ++ ys) c) : P.AllSteps G xs c := by
  induction xs generalizing c with
  | nil => trivial
  | cons x xs ih => exact ⟨h.1, fun c' hc' => ih (h.2 c' hc')⟩

/-- What holds before every step that a part of the schedule leads to. -/
theorem allSteps_of_reached {c : Conf ι σ κ}
    (h : ∀ xs x ys m, sched = xs ++ x :: ys → P.exec xs c = some m → G x.1 x.2 m) :
    P.AllSteps G sched c := by
  induction sched generalizing c with
  | nil => trivial
  | cons x sched ih =>
    refine ⟨h [] x sched c rfl rfl, fun c' hc' => ih fun xs y ys m hsched hm => ?_⟩
    refine h (x :: xs) y ys m (by rw [hsched, List.cons_append]) ?_
    exact exec_cons_eq_some.mpr ⟨c', hc', hm⟩

/-- The invariant rule: what every step keeps under the step condition `G`
holds at the end of every schedule all of whose steps meet `G`. -/
theorem AllSteps.invariant {I : Conf ι σ κ → Prop}
    (hstep : ∀ t a c c', I c → G t a c → P.step t a c = some c' → I c') (hI : I c)
    (hG : P.AllSteps G sched c) (hrun : P.exec sched c = some c') : I c' := by
  induction sched generalizing c with
  | nil =>
    simp at hrun
    exact hrun ▸ hI
  | cons x sched ih =>
    obtain ⟨m, hm, hrest⟩ := exec_cons_eq_some.mp hrun
    exact ih (hstep x.1 x.2 c m hI hG.1 hm) (hG.2 m hm) hrest

/-- The invariant rule for runs without a condition. -/
theorem exec_invariant {I : Conf ι σ κ → Prop}
    (hstep : ∀ t a c c', I c → P.step t a c = some c' → I c') (hI : I c)
    (hrun : P.exec sched c = some c') : I c' :=
  AllSteps.invariant (G := fun _ _ _ => True) (fun t a c c' hI _ => hstep t a c c' hI) hI
    (allSteps_of_reached fun _ _ _ _ _ _ => trivial) hrun

end Program

/-- One of the threads is the thread `t`, or another. -/
theorem exists_self_or {ι : Type*} {p : ι → Prop} (t : ι) (h : ∃ u, p u) : p t ∨ ∃ u ≠ t, p u := by
  obtain ⟨u, hu⟩ := h
  rcases eq_or_ne u t with rfl | hut
  · exact .inl hu
  · exact .inr ⟨u, hut, hu⟩

/-! ### Counting over all threads

A quantity that every thread contributes to changes, at one step, by what the
scheduled thread contributes. -/

theorem sum_threads_update {ι κ : Type*} [Fintype ι] [DecidableEq ι] (f : κ → ℕ) (l : ι → κ)
    (t : ι) (x : κ) : ∑ u, f (update l t x u) + f (l t) = ∑ u, f (l u) + f x := by
  have hsplit := Finset.add_sum_erase Finset.univ (fun u => f (l u)) (Finset.mem_univ t)
  have hsplit' := Finset.add_sum_erase Finset.univ (fun u => f (update l t x u))
    (Finset.mem_univ t)
  have hrest : ∑ u ∈ Finset.univ.erase t, f (update l t x u) =
      ∑ u ∈ Finset.univ.erase t, f (l u) := by
    refine Finset.sum_congr rfl fun u hu => ?_
    rw [Function.update_of_ne (Finset.ne_of_mem_erase hu)]
  simp at hsplit'
  omega

end Hzlibc.Concurrency
