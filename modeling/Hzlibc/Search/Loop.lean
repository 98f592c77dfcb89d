import Mathlib.Tactic.Common

/-!
Loops that leave from several places.

A loop is given by its body: from a state it either goes round once more or
leaves with a result. `run` is the loop under a bound on the number of rounds;
a bound that is too small gives no result at all, so a statement about a
result is never a statement about the bound.

`Along G` says that every round starts in a state that meets `G`. The rules
below are the ways a loop is reasoned about here: an invariant carried to the
round that leaves, a fact that cannot be undone once a round has missed `G`, and
termination one round at a time, for loops whose recursion is that of the data
they work on.
-/

namespace Hzlibc.Loop

variable {σ ρ : Type*} (body : σ → σ ⊕ ρ)

/-- The result of the loop, if it leaves within the given number of rounds. -/
def run : ℕ → σ → Option ρ
  | 0, _ => none
  | n + 1, c =>
    match body c with
    | .inl c' => run n c'
    | .inr r => some r

/-- Every round the loop makes within the bound starts in a state that meets
`G`. -/
def Along (G : σ → Prop) : ℕ → σ → Prop
  | 0, _ => True
  | n + 1, c =>
    G c ∧
      match body c with
      | .inl c' => Along G n c'
      | .inr _ => True

instance Along.instDecidable {G : σ → Prop} [DecidablePred G] :
    (n : ℕ) → (c : σ) → Decidable (Along body G n c)
  | 0, _ => inferInstanceAs (Decidable True)
  | n + 1, c =>
    @instDecidableAnd _ _ _ <|
      match body c with
      | .inl c' => Along.instDecidable n c'
      | .inr _ => inferInstanceAs (Decidable True)

variable {body} {G I : σ → Prop} {n : ℕ} {c : σ} {r : ρ}

theorem run_of_inl {c' : σ} (h : body c = .inl c') : run body (n + 1) c = run body n c' := by
  simp [run, h]

theorem run_of_inr (h : body c = .inr r) : run body (n + 1) c = some r := by
  simp [run, h]

theorem along_of_inl {c' : σ} (h : body c = .inl c') :
    Along body G (n + 1) c ↔ G c ∧ Along body G n c' := by
  simp [Along, h]

theorem along_of_inr (h : body c = .inr r) : Along body G (n + 1) c ↔ G c := by
  simp [Along, h]

/-- A loop that has left made its last round in a state that meets `G` and
the invariant, if all its rounds met `G` and kept the invariant. -/
theorem Along.invariant (hbody : ∀ c c', I c → G c → body c = .inl c' → I c') (hI : I c)
    (hG : Along body G n c) (hrun : run body n c = some r) :
    ∃ last, I last ∧ G last ∧ body last = .inr r := by
  induction n generalizing c with
  | zero => cases hrun
  | succ n ih =>
    cases h : body c with
    | inl c' =>
      rw [run_of_inl h] at hrun
      obtain ⟨hc, hrest⟩ := (along_of_inl h).mp hG
      exact ih (hbody c c' hI hc h) hrest hrun
    | inr r' =>
      rw [run_of_inr h, Option.some.injEq] at hrun
      exact ⟨c, hI, (along_of_inr h).mp hG, by rw [h, hrun]⟩

theorem along_true : Along body (fun _ => True) n c := by
  induction n generalizing c with
  | zero => trivial
  | succ n ih =>
    cases h : body c with
    | inl c' => exact (along_of_inl h).mpr ⟨trivial, ih⟩
    | inr r => exact (along_of_inr h).mpr trivial

/-- The invariant rule for a loop without a condition on its rounds. -/
theorem run_invariant (hbody : ∀ c c', I c → body c = .inl c' → I c') (hI : I c)
    (hrun : run body n c = some r) : ∃ last, I last ∧ body last = .inr r := by
  obtain ⟨last, hlast, -, h⟩ := along_true.invariant (fun c c' hc _ => hbody c c' hc) hI hrun
  exact ⟨last, hlast, h⟩

/-- A round that misses `G` goes on and leaves the mark `B`, and no later
round removes it: the loop ends with the mark unless every round met `G`. -/
theorem run_marked {B : σ → Prop} (hbody : ∀ c c', I c → body c = .inl c' → I c')
    (hmiss : ∀ c, I c → ¬ G c → ∃ c', body c = .inl c' ∧ B c')
    (hkeep : ∀ c c', I c → B c → body c = .inl c' → B c') (hI : I c)
    (hG : ¬ Along body G n c) (hrun : run body n c = some r) :
    ∃ last, I last ∧ B last ∧ body last = .inr r := by
  induction n generalizing c with
  | zero => cases hrun
  | succ n ih =>
    by_cases hc : G c
    · cases h : body c with
      | inl c' =>
        rw [run_of_inl h] at hrun
        exact ih (hbody c c' hI h) (fun hrest => hG ((along_of_inl h).mpr ⟨hc, hrest⟩)) hrun
      | inr r' => exact absurd ((along_of_inr h).mpr hc) hG
    · obtain ⟨c', h, hB⟩ := hmiss c hI hc
      rw [run_of_inl h] at hrun
      have hboth : ∀ c c', I c ∧ B c → body c = .inl c' → I c' ∧ B c' :=
        fun c c' hc h => ⟨hbody c c' hc.1 h, hkeep c c' hc.1 hc.2 h⟩
      obtain ⟨last, ⟨hI', hB'⟩, hlast⟩ := run_invariant hboth ⟨hbody c c' hI h, hB⟩ hrun
      exact ⟨last, hI', hB', hlast⟩

/-- The loop leaves, whatever it takes. -/
def Stops (body : σ → σ ⊕ ρ) (c : σ) : Prop := ∃ n r, run body n c = some r

/-- A loop stops if it does after one more round. -/
theorem Stops.of_round (h : ∀ c', body c = .inl c' → Stops body c') : Stops body c := by
  cases hc : body c with
  | inl c' =>
    obtain ⟨n, r, hrun⟩ := h c' hc
    exact ⟨n + 1, r, (run_of_inl hc).trans hrun⟩
  | inr r => exact ⟨1, r, run_of_inr hc⟩

/-- The invariant rule for steps that may fail, one for each item of a list. -/
theorem foldlM_invariant {α : Type*} {f : σ → α → Option σ}
    (hstep : ∀ s x s', I s → f s x = some s' → I s') {items : List α} {s s' : σ} (hI : I s)
    (hrun : items.foldlM f s = some s') : I s' := by
  induction items generalizing s with
  | nil =>
    cases hrun
    exact hI
  | cons x items ih =>
    obtain ⟨m, hm, hrest⟩ := Option.bind_eq_some_iff.mp hrun
    exact ih (hstep s x m hI hm) hrest

end Hzlibc.Loop
