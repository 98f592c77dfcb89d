import Mathlib.Tactic.Common

/-!
Programs with a state that can be left early.

A program changes a state and ends with a value, or it leaves with a reason
why; the state is kept in both cases, so that what happened before an early
return can be seen after it. The monad gives the code modelled on top its
statement order and its `return`s.

`Sim R m n` relates two programs over different states: started in states
related by `R` they end in the same way, with the same value, in states
related by `R`. Every construct has a rule, so a relation that the basic
operations respect is respected by everything built from them. An invariant
is the special case of one program over one state.
-/

namespace Hzlibc.Effect

variable {σ τ ε α β : Type}

/-- A program over the state `σ` that can be left with an `ε`. -/
def Prog (σ ε α : Type) : Type := σ → Except ε α × σ

variable {m : Prog σ ε α} {f : α → Prog σ ε β} {s s' : σ} {n : Prog τ ε α}

namespace Prog

def run (m : Prog σ ε α) (s : σ) : Except ε α × σ := m s

protected def pure (a : α) : Prog σ ε α := fun s => (.ok a, s)

protected def bind (m : Prog σ ε α) (f : α → Prog σ ε β) : Prog σ ε β := fun s =>
  match m s with
  | (.ok a, s') => f a s'
  | (.error e, s') => (.error e, s')

instance : Monad (Prog σ ε) where
  pure := Prog.pure
  bind := Prog.bind

def leave (e : ε) : Prog σ ε α := fun s => (.error e, s)

/-- A part of the state. -/
def gets (f : σ → α) : Prog σ ε α := fun s => (.ok (f s), s)

def modify (f : σ → σ) : Prog σ ε Unit := fun s => (.ok (), f s)

/-- A computation that does not use the state. -/
def lift (r : Except ε α) : Prog σ ε α := fun s => (r, s)

/-- A program over a part of the state. -/
def zoom (get : τ → σ) (set : σ → τ → τ) (m : Prog σ ε α) : Prog τ ε α := fun t =>
  ((m (get t)).1, set (m (get t)).2 t)

/-- A program whose reason for leaving is read as another one. -/
def mapError {δ : Type} (f : δ → ε) (m : Prog σ δ α) : Prog σ ε α := fun s =>
  ((m s).1.mapError f, (m s).2)

/-- The programs of a list, one after the other. -/
def each (f : α → Prog σ ε Unit) : List α → Prog σ ε Unit
  | [] => pure ()
  | a :: as => do
      f a
      each f as

@[simp] theorem run_pure (a : α) (s : σ) : (pure a : Prog σ ε α).run s = (.ok a, s) := rfl

@[simp] theorem run_bind (m : Prog σ ε α) (f : α → Prog σ ε β) (s : σ) :
    (m >>= f).run s =
      match m.run s with
      | (.ok a, s') => (f a).run s'
      | (.error e, s') => (.error e, s') := rfl

@[simp] theorem run_gets (f : σ → α) (s : σ) : (gets f : Prog σ ε α).run s = (.ok (f s), s) := rfl

@[simp] theorem run_modify (f : σ → σ) (s : σ) :
    (modify f : Prog σ ε Unit).run s = (.ok (), f s) := rfl

@[simp] theorem run_zoom (get : τ → σ) (set : σ → τ → τ) (m : Prog σ ε α) (t : τ) :
    (zoom get set m).run t = ((m.run (get t)).1, set (m.run (get t)).2 t) := rfl

@[simp] theorem run_mapError {δ : Type} (f : δ → ε) (m : Prog σ δ α) (s : σ) :
    (mapError f m).run s = ((m.run s).1.mapError f, (m.run s).2) := rfl

@[simp] theorem run_ite (c : Prop) [Decidable c] (m n : Prog σ ε α) (s : σ) :
    (if c then m else n).run s = if c then m.run s else n.run s := by
  split <;> rfl

/-- The bind rule for a first part that ends with a value. -/
theorem run_bind_of_ok {a : α} (h : m.run s = (.ok a, s')) : (m >>= f).run s = (f a).run s' := by
  rw [run_bind, h]

/-- The bind rule for a first part that is left. -/
theorem run_bind_of_error {e : ε} (h : m.run s = (.error e, s')) :
    (m >>= f).run s = (.error e, s') := by
  rw [run_bind, h]

/-- What every program of a list keeps when it ends with a value is kept by the
list. -/
theorem each_keeps {f : α → Prog σ ε Unit} {I : σ → Prop}
    (h : ∀ a s s', (f a).run s = (.ok (), s') → I s → I s') (as : List α) :
    ∀ s s', (each f as).run s = (.ok (), s') → I s → I s' := by
  induction as with
  | nil =>
    rintro s _ ⟨⟩ hI
    exact hI
  | cons a as ih =>
    intro s s' hrun hI
    rw [each, run_bind] at hrun
    rcases ha : (f a).run s with ⟨_ | _, t⟩
    · rw [ha] at hrun
      cases hrun
    · rw [ha] at hrun
      exact ih t s' hrun (h a s t ha hI)

/-! ### Relating programs -/

/-- From related states the two programs end alike, in related states. -/
def Sim (R : σ → τ → Prop) (m : Prog σ ε α) (n : Prog τ ε α) : Prop :=
  ∀ ⦃s t⦄, R s t → (m.run s).1 = (n.run t).1 ∧ R (m.run s).2 (n.run t).2

namespace Sim

variable {R : σ → τ → Prop}

theorem pure (a : α) : Sim R (pure a : Prog σ ε α) (pure a) := fun _ _ h => ⟨rfl, h⟩

theorem leave (e : ε) : Sim R (leave e : Prog σ ε α) (leave e) := fun _ _ h => ⟨rfl, h⟩

theorem gets {f : σ → α} {g : τ → α} (h : ∀ s t, R s t → f s = g t) :
    Sim R (gets f : Prog σ ε α) (gets g) := fun s t hR => ⟨congrArg Except.ok (h s t hR), hR⟩

theorem modify {f : σ → σ} {g : τ → τ} (h : ∀ s t, R s t → R (f s) (g t)) :
    Sim R (modify f : Prog σ ε Unit) (modify g) := fun s t hR => ⟨rfl, h s t hR⟩

/-- The bind rule for one run. -/
theorem bind_run {g : α → Prog τ ε β} {t : τ}
    (h : (m.run s).1 = (n.run t).1 ∧ R (m.run s).2 (n.run t).2) (hf : ∀ a, Sim R (f a) (g a)) :
    ((m >>= f).run s).1 = ((n >>= g).run t).1 ∧
      R ((m >>= f).run s).2 ((n >>= g).run t).2 := by
  obtain ⟨hval, hstate⟩ := h
  rw [run_bind, run_bind]
  rcases hm : m.run s with ⟨r, s'⟩
  rcases hn : n.run t with ⟨r', t'⟩
  rw [hm, hn] at hval hstate
  subst hval
  cases r with
  | ok a => exact hf a hstate
  | error e => exact ⟨rfl, hstate⟩

theorem bind {g : α → Prog τ ε β} (h : Sim R m n) (hf : ∀ a, Sim R (f a) (g a)) :
    Sim R (m >>= f) (n >>= g) := fun _ _ hR => bind_run (h hR) hf

theorem ite {c : Prop} [Decidable c] {m' : Prog σ ε α} {n' : Prog τ ε α} (h : Sim R m n)
    (h' : Sim R m' n') : Sim R (if c then m else m') (if c then n else n') := by
  split
  · exact h
  · exact h'

theorem each {f : α → Prog σ ε Unit} {g : α → Prog τ ε Unit} (h : ∀ a, Sim R (f a) (g a))
    (as : List α) : Sim R (each f as) (each g as) := by
  induction as with
  | nil => exact Sim.pure ()
  | cons a as ih => exact (h a).bind fun _ => ih

theorem mapError {δ : Type} (f : δ → ε) {m : Prog σ δ α} {n : Prog τ δ α} (h : Sim R m n) :
    Sim R (mapError f m) (mapError f n) := by
  intro s t hR
  obtain ⟨hval, hstate⟩ := h hR
  exact ⟨by rw [run_mapError, run_mapError, hval], hstate⟩

/-- Programs over parts of the state that are related. -/
theorem zoom {σ' τ' : Type} {Q : σ' → τ' → Prop} {get : σ' → σ} {set : σ → σ' → σ'} {get' : τ' → τ}
    {set' : τ → τ' → τ'} (h : Sim R m n) (hget : ∀ s t, Q s t → R (get s) (get' t))
    (hset : ∀ s t a b, Q s t → R a b → Q (set a s) (set' b t)) :
    Sim Q (zoom get set m) (zoom get' set' n) := by
  intro s t hQ
  obtain ⟨hval, hstate⟩ := h (hget s t hQ)
  exact ⟨hval, hset s t _ _ hQ hstate⟩

theorem refl (m : Prog σ ε α) : Sim Eq m m := by
  rintro s _ rfl
  exact ⟨rfl, rfl⟩

end Sim

end Prog

end Hzlibc.Effect
