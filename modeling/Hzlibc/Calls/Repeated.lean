import Mathlib.Tactic.Common

/-!
A function with a state, called again and again until it returns a last result.

A call may also not return at all. `Series` are calls that return without the
last result among them, `Until` adds the call with the last result; both list
the results together with the states after them.
-/

namespace Hzlibc.Calls

variable {σ ρ : Type} {call : σ → Option (ρ × σ)} {last : ρ → Prop}

inductive Series (call : σ → Option (ρ × σ)) (last : ρ → Prop) : σ → List (ρ × σ) → σ → Prop
  | nil (s : σ) : Series call last s [] s
  | cons {s s₁ s' : σ} {r : ρ} {trace : List (ρ × σ)} (hcall : call s = some (r, s₁))
      (hlast : ¬last r) (hrest : Series call last s₁ trace s') :
      Series call last s ((r, s₁) :: trace) s'

inductive Until (call : σ → Option (ρ × σ)) (last : ρ → Prop) : σ → List (ρ × σ) → σ → Prop
  | last {s s' : σ} {r : ρ} (hcall : call s = some (r, s')) (hlast : last r) :
      Until call last s [] s'
  | more {s s₁ s' : σ} {r : ρ} {trace : List (ρ × σ)} (hcall : call s = some (r, s₁))
      (hlast : ¬last r) (hrest : Until call last s₁ trace s') :
      Until call last s ((r, s₁) :: trace) s'

theorem Series.until {s s₁ s' : σ} {trace trace' : List (ρ × σ)}
    (h : Series call last s trace s₁) (h' : Until call last s₁ trace' s') :
    Until call last s (trace ++ trace') s' := by
  induction h with
  | nil => exact h'
  | cons hcall hlast _ ih => exact .more hcall hlast (ih h')

theorem Until.unique {s s₁ s₂ : σ} {trace₁ trace₂ : List (ρ × σ)}
    (h₁ : Until call last s trace₁ s₁) (h₂ : Until call last s trace₂ s₂) :
    trace₁ = trace₂ ∧ s₁ = s₂ := by
  induction h₁ generalizing trace₂ with
  | last hcall hlast =>
    cases h₂ with
    | last hcall' =>
      rw [hcall] at hcall'
      cases hcall'
      exact ⟨rfl, rfl⟩
    | more hcall' hlast' =>
      rw [hcall] at hcall'
      cases hcall'
      exact absurd hlast hlast'
  | more hcall hlast _ ih =>
    cases h₂ with
    | last hcall' hlast' =>
      rw [hcall] at hcall'
      cases hcall'
      exact absurd hlast' hlast
    | more hcall' _ hrest' =>
      rw [hcall] at hcall'
      cases hcall'
      obtain ⟨rfl, rfl⟩ := ih hrest'
      exact ⟨rfl, rfl⟩

/-- Only the result of the first call depends on the state. -/
theorem Until.of_call_eq {s s₁ s' : σ} {trace : List (ρ × σ)} (h : Until call last s₁ trace s')
    (hcall : call s = call s₁) : Until call last s trace s' := by
  cases h with
  | last hcall' hlast => exact .last (hcall.trans hcall') hlast
  | more hcall' hlast hrest => exact .more (hcall.trans hcall') hlast hrest

/-- What every call keeps holds after each of them. -/
theorem Until.invariant {P : σ → Prop}
    (hkeeps : ∀ s r s', call s = some (r, s') → P s → P s') {s s' : σ} {trace : List (ρ × σ)}
    (h : Until call last s trace s') (hs : P s) : (∀ entry ∈ trace, P entry.2) ∧ P s' := by
  induction h with
  | last hcall => exact ⟨by simp, hkeeps _ _ _ hcall hs⟩
  | more hcall _ _ ih =>
    have hnext := hkeeps _ _ _ hcall hs
    obtain ⟨htrace, hfinal⟩ := ih hnext
    refine ⟨?_, hfinal⟩
    intro entry hentry
    rcases List.mem_cons.mp hentry with rfl | hmem
    · exact hnext
    · exact htrace entry hmem

end Hzlibc.Calls
