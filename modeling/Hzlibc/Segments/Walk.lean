import Mathlib.Data.Int.Notation
import Mathlib.Logic.Relation
import Mathlib.Tactic.Common

/-!
A loop that finds a place in a row of segments.

The row is given by a successor function, which may fail, and the lengths of the
segments. A distance from the start of one segment is turned into a segment and
a distance in it, by going on to the next segment as long as the distance covers
the one at hand. Days are turned into years and months in this way, and with
segments of one length it is the loop that carries from one unit to the next.

If every segment has a place, which is where the one before it ends, then the
sum of the place and the distance stays the same.
-/

namespace Hzlibc.Segments

variable {α ε : Type} {next : α → Except ε α} {len : α → ℤ}

/-- The segment and the distance in it. -/
def walk (next : α → Except ε α) (len : α → ℤ) (hpos : ∀ a, 0 < len a) (a : α)
    (distance : ℤ) : Except ε (α × ℤ) :=
  if len a ≤ distance then
    match next a with
    | .error e => .error e
    | .ok b => walk next len hpos b (distance - len a)
  else .ok (a, distance)
termination_by distance.toNat
decreasing_by
  have := hpos a
  omega

variable (hpos : ∀ a, 0 < len a) {a b : α} {distance rest : ℤ}

theorem walk_of_lt (h : distance < len a) : walk next len hpos a distance = .ok (a, distance) := by
  rw [walk, if_neg (by omega)]

theorem walk_of_le (h : len a ≤ distance) (hnext : next a = .ok b) :
    walk next len hpos a distance = walk next len hpos b (distance - len a) := by
  rw [walk, if_pos h, hnext]

/-- What the successor keeps holds where the walk ends. -/
theorem walk_keeps {P : α → Prop} (hkeeps : ∀ a b, next a = .ok b → P a → P b)
    (h : walk next len hpos a distance = .ok (b, rest)) (ha : P a) : P b := by
  fun_induction walk next len hpos a distance with
  | case1 => cases h
  | case2 a distance _ c hc ih => exact ih h (hkeeps a c hc ha)
  | case3 =>
    cases h
    exact ha

/-- The walk ends in a segment that the distance does not cover. -/
theorem walk_lt (h : walk next len hpos a distance = .ok (b, rest)) :
    rest < len b ∧ (0 ≤ distance → 0 ≤ rest) := by
  fun_induction walk next len hpos a distance with
  | case1 => cases h
  | case2 a distance hle c hc ih =>
    obtain ⟨hlt, hnonneg⟩ := ih h
    exact ⟨hlt, fun _ => hnonneg (by omega)⟩
  | case3 a distance hlt =>
    cases h
    exact ⟨by omega, id⟩

/-- A negative distance stays as it is. -/
theorem nonneg_of_walk (h : walk next len hpos a distance = .ok (b, rest)) (hrest : 0 ≤ rest) :
    0 ≤ distance := by
  by_contra hneg
  have hlen := hpos a
  rw [walk_of_lt hpos (by omega)] at h
  cases h
  exact hneg hrest

/-! ### Places -/

/-- Every segment is placed where the one before it ends. -/
def IsPlace (next : α → Except ε α) (len place : α → ℤ) : Prop :=
  ∀ a b, next a = .ok b → place b = place a + len a

variable {place : α → ℤ}

theorem walk_place (hplace : IsPlace next len place)
    (h : walk next len hpos a distance = .ok (b, rest)) : place b + rest = place a + distance := by
  fun_induction walk next len hpos a distance with
  | case1 => cases h
  | case2 a distance hle c hc ih =>
    have hrest := ih h
    have hstep := hplace a c hc
    omega
  | case3 =>
    cases h
    rfl

/-- The walk does not fail if there is a next segment after each that ends before the bound. -/
theorem walk_ok (bound : ℤ) (hplace : IsPlace next len place)
    (hnext : ∀ a, place a + len a ≤ bound → ∃ b, next a = .ok b)
    (h : place a + distance ≤ bound) : ∃ r, walk next len hpos a distance = .ok r := by
  fun_induction walk next len hpos a distance with
  | case1 a distance hle e he =>
    obtain ⟨b, hb⟩ := hnext a (by omega)
    cases he.symm.trans hb
  | case2 a distance hle c hc ih =>
    have hstep := hplace a c hc
    exact ih (by omega)
  | case3 => exact ⟨_, rfl⟩

/-- The segment comes after the other one, or is the same. -/
abbrev Reaches (next : α → Except ε α) : α → α → Prop :=
  Relation.ReflTransGen fun a b => next a = .ok b

theorem place_le_of_reaches (hpos : ∀ a, 0 < len a) (hplace : IsPlace next len place)
    (h : Reaches next a b) : place a ≤ place b := by
  induction h with
  | refl => exact Int.le_refl _
  | @tail b c _ hstep ih =>
    have hplace' := hplace b c hstep
    have hlen := hpos b
    omega

/-- Every distance in every later segment is found. -/
theorem walk_of_reaches (hplace : IsPlace next len place) (h : Reaches next a b)
    (hnonneg : 0 ≤ rest) (hlt : rest < len b) :
    walk next len hpos a (place b - place a + rest) = .ok (b, rest) := by
  induction h using Relation.ReflTransGen.head_induction_on with
  | refl => rw [Int.sub_self, Int.zero_add, walk_of_lt hpos hlt]
  | @head a c hstep hreach ih =>
    have hplace' := hplace a c hstep
    have hle := place_le_of_reaches hpos hplace hreach
    rw [walk_of_le hpos (by omega) hstep, ← ih]
    congr 1
    omega

end Hzlibc.Segments
