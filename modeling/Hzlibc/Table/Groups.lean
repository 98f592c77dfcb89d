import Mathlib.Data.Nat.Find
import Mathlib.Order.Bounds.Basic
import Mathlib.Tactic.Common

/-!
Positions that stand in groups.

The positions from `lo` to `hi` carry a group each, and those of one group stand together.
Whoever knows the first position of a group and can tell its last sees the whole group by going
forward. Nothing of a group comes after its last position, so a search that ends there has missed
nothing.
-/

namespace Hzlibc.Groups

variable {β : Type*} {g : ℕ → β} {lo hi i j : ℕ}

/-- The positions of a group stand together. -/
def Contiguous (g : ℕ → β) (lo hi : ℕ) : Prop :=
  ∀ i j k, lo ≤ i → i ≤ j → j ≤ k → k < hi → g i = g k → g j = g i

/-- No position before is in the same group. -/
def IsFirst (g : ℕ → β) (lo i : ℕ) : Prop := ∀ j, lo ≤ j → j < i → g j ≠ g i

/-- The next position is not in the same group. -/
def IsLast (g : ℕ → β) (hi i : ℕ) : Prop := i + 1 < hi → g (i + 1) ≠ g i

instance [DecidableEq β] : Decidable (IsLast g hi i) :=
  inferInstanceAs (Decidable (i + 1 < hi → g (i + 1) ≠ g i))

theorem exists_first (hlo : lo ≤ i) : ∃ f, lo ≤ f ∧ f ≤ i ∧ g f = g i ∧ IsFirst g lo f := by
  classical
  have hex : ∃ f, lo ≤ f ∧ g f = g i := ⟨i, hlo, rfl⟩
  obtain ⟨hle, heq⟩ := Nat.find_spec hex
  refine ⟨Nat.find hex, hle, Nat.find_min' hex ⟨hlo, rfl⟩, heq, fun j hj hlt hgj => ?_⟩
  exact Nat.find_min hex hlt ⟨hj, hgj.trans heq⟩

/-- After the last position of a group there is nothing more of it. -/
theorem IsLast.ne (hlast : IsLast g hi i) (hc : Contiguous g lo hi) (hlo : lo ≤ i) (hlt : i < j)
    (hhi : j < hi) : g j ≠ g i := by
  intro hg
  exact hlast (by omega) (hc i (i + 1) j hlo (by omega) hlt hhi hg.symm)

/-- The group that ends with the last position of all begins after all others. -/
theorem first_le_first (hc : Contiguous g lo hi) (hi' : hi = i + 1) (hj : IsFirst g lo j)
    (hjhi : j < hi) {f : ℕ} (hlo : lo ≤ f) (hf : g f = g i) : j ≤ f := by
  by_contra hlt
  exact hj f hlo (by omega) (hc f j i hlo (by omega) (by omega) (by omega) hf).symm

/-- `r` is the first position from `lo` on with the property, if there is one. -/
def FirstFrom (p : ℕ → Prop) (lo hi : ℕ) (r : Option ℕ) : Prop :=
  ∀ i, r = some i ↔ IsLeast {k | lo ≤ k ∧ k < hi ∧ p k} i

namespace FirstFrom

variable {p : ℕ → Prop} {r : Option ℕ}

theorem here (hlt : lo < hi) (hp : p lo) : FirstFrom p lo hi (some lo) := by
  intro i
  constructor
  · rintro ⟨⟩
    exact ⟨⟨le_rfl, hlt, hp⟩, fun k hk => hk.1⟩
  · intro h
    rw [le_antisymm (h.2 ⟨le_rfl, hlt, hp⟩) h.1.1]

theorem nowhere (h : ∀ k, lo ≤ k → k < hi → ¬p k) : FirstFrom p lo hi none := by
  intro i
  constructor
  · nofun
  · intro hi
    exact absurd hi.1.2.2 (h i hi.1.1 hi.1.2.1)

/-- Positions before `j` do not matter if none of them has the property. -/
theorem later (hr : FirstFrom p j hi r) (hle : lo ≤ j) (h : ∀ k, lo ≤ k → k < j → ¬p k) :
    FirstFrom p lo hi r := by
  intro i
  have hset : {k | lo ≤ k ∧ k < hi ∧ p k} = {k | j ≤ k ∧ k < hi ∧ p k} := by
    ext k
    constructor
    · intro hk
      exact ⟨not_lt.mp fun hlt => h k hk.1 hlt hk.2.2, hk.2⟩
    · intro hk
      exact ⟨hle.trans hk.1, hk.2⟩
  rw [hset]
  exact hr i

theorem isSome_iff (hr : FirstFrom p lo hi r) : r.isSome ↔ ∃ k, lo ≤ k ∧ k < hi ∧ p k := by
  classical
  constructor
  · intro hsome
    obtain ⟨i, hi⟩ := Option.isSome_iff_exists.mp hsome
    exact ⟨i, ((hr i).mp hi).1⟩
  · intro hex
    refine Option.isSome_iff_exists.mpr ⟨Nat.find hex, (hr _).mpr ⟨Nat.find_spec hex, ?_⟩⟩
    exact fun k hk => Nat.find_min' hex hk

end FirstFrom

end Hzlibc.Groups
