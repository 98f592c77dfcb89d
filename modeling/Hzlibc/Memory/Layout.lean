import Mathlib.Algebra.Order.Ring.Int
import Mathlib.Data.List.Pairwise

/-!
Blocks laid out one behind the other.

`alignUp` is the usual rounding of a machine word to a multiple of a power of two. It is
what it is meant to be unless the addition in it overflows (`Fits`).

A layout has a running total. A block is placed by giving it an offset that leaves at
least its size behind the total, and the offset is the new total: `Stacked` is what holds
of all blocks that have been placed so.
-/

namespace Hzlibc.Memory

open List BitVec

/-! ### Alignment -/

section Alignment

variable {w : ℕ} {x a : BitVec w}

def IsPowerOfTwo (a : BitVec w) : Prop := ∃ k < w, a.toNat = 2 ^ k

instance (a : BitVec w) : Decidable (IsPowerOfTwo a) :=
  inferInstanceAs (Decidable (∃ k < w, a.toNat = 2 ^ k))

def alignUp (x a : BitVec w) : BitVec w := (x + (a - 1)) &&& ~~~(a - 1)

/-- The addition in `alignUp` does not overflow. -/
def Fits (x a : BitVec w) : Prop := x.toNat + (a.toNat - 1) < 2 ^ w

instance (x a : BitVec w) : Decidable (Fits x a) :=
  inferInstanceAs (Decidable (x.toNat + (a.toNat - 1) < 2 ^ w))

section

variable (h : IsPowerOfTwo a)
include h

theorem IsPowerOfTwo.toNat_sub_one : (a - 1).toNat = a.toNat - 1 := by
  obtain ⟨k, hk, ha⟩ := h
  have hone : (1 : BitVec w).toNat = 1 :=
    Nat.mod_eq_of_lt (Nat.one_lt_two_pow (Nat.ne_of_gt (Nat.zero_lt_of_lt hk)))
  have hpos : 1 ≤ a.toNat := ha ▸ Nat.one_le_two_pow
  rw [toNat_sub_of_le (by rw [le_def, hone]; exact hpos), hone]

/-- The mask clears the bits below the power. -/
theorem IsPowerOfTwo.toNat_and_not (y : BitVec w) :
    (y &&& ~~~(a - 1)).toNat = y.toNat / a.toNat * a.toNat := by
  obtain ⟨k, hk, ha⟩ := id h
  have hbits : y &&& ~~~(a - 1) = y >>> k <<< k := by
    refine eq_of_getLsbD_eq fun i hi => ?_
    have hmask : (a - 1).getLsbD i = decide (i < k) := by
      rw [← testBit_toNat, h.toNat_sub_one, ha, Nat.testBit_two_pow_sub_one]
    rw [getLsbD_and, getLsbD_not, hmask, getLsbD_shiftLeft]
    by_cases hik : i < k
    · simp [hi, hik]
    · simp [hi, hik, Nat.add_sub_of_le (Nat.le_of_not_lt hik)]
  rw [hbits, ha, toNat_shiftLeft, toNat_ushiftRight, Nat.shiftRight_eq_div_pow,
    Nat.shiftLeft_eq, Nat.mod_eq_of_lt]
  exact (Nat.div_mul_le_self _ _).trans_lt y.isLt

theorem IsPowerOfTwo.dvd_alignUp (x : BitVec w) : a.toNat ∣ (alignUp x a).toNat := by
  rw [alignUp, h.toNat_and_not]
  exact Nat.dvd_mul_left _ _

theorem IsPowerOfTwo.toNat_alignUp (hfit : Fits x a) :
    (alignUp x a).toNat = (x.toNat + (a.toNat - 1)) / a.toNat * a.toNat := by
  rw [alignUp, h.toNat_and_not, toNat_add, h.toNat_sub_one, Nat.mod_eq_of_lt hfit]

theorem IsPowerOfTwo.pos : 0 < a.toNat := by
  obtain ⟨k, -, ha⟩ := h
  exact ha ▸ Nat.two_pow_pos k

theorem IsPowerOfTwo.le_alignUp (hfit : Fits x a) : x.toNat ≤ (alignUp x a).toNat := by
  rw [h.toNat_alignUp hfit]
  have hmod := Nat.div_add_mod (x.toNat + (a.toNat - 1)) a.toNat
  have hlt := Nat.mod_lt (x.toNat + (a.toNat - 1)) h.pos
  rw [Nat.mul_comm] at hmod
  omega

theorem IsPowerOfTwo.alignUp_le (hfit : Fits x a) :
    (alignUp x a).toNat ≤ x.toNat + (a.toNat - 1) := by
  rw [h.toNat_alignUp hfit]
  exact Nat.div_mul_le_self _ _

/-- An overflow leaves less than one step, which is rounded off. -/
theorem IsPowerOfTwo.alignUp_eq_zero (hfit : ¬ Fits x a) : alignUp x a = 0 := by
  rw [Fits, Nat.not_lt] at hfit
  have hsum : (x + (a - 1)).toNat < a.toNat := by
    rw [toNat_add, h.toNat_sub_one, Nat.mod_eq_sub_mod hfit]
    refine (Nat.mod_le _ _).trans_lt ?_
    omega
  refine eq_of_toNat_eq ?_
  rw [alignUp, h.toNat_and_not, Nat.div_eq_of_lt hsum, Nat.zero_mul]
  rfl

end

@[simp] theorem alignUp_zero (a : BitVec w) : alignUp 0 a = 0 := by
  have hzero : (0 : BitVec w) + (a - 1) = a - 1 := BitVec.zero_add _
  rw [alignUp, hzero]
  exact and_not_self _

end Alignment

/-! ### Placing -/

section Placing

variable {ι : Type*} {off size : ι → ℕ} {total : ℕ} {placed : List ι}

/-- The blocks that have been placed, in that order. -/
structure Stacked (off size : ι → ℕ) (total : ℕ) (placed : List ι) : Prop where
  size_le : ∀ i ∈ placed, size i ≤ off i
  le_total : ∀ i ∈ placed, off i ≤ total
  apart : placed.Pairwise fun i j => off i + size j ≤ off j

theorem stacked_nil (off size : ι → ℕ) (total : ℕ) : Stacked off size total [] :=
  ⟨forall_mem_nil _, forall_mem_nil _, .nil⟩

section

variable (h : Stacked off size total placed)
include h

theorem Stacked.congr {off' size' : ι → ℕ}
    (hoff : ∀ i ∈ placed, off' i = off i) (hsize : ∀ i ∈ placed, size' i = size i) :
    Stacked off' size' total placed where
  size_le i hi := by
    rw [hoff i hi, hsize i hi]
    exact h.size_le i hi
  le_total i hi := by
    rw [hoff i hi]
    exact h.le_total i hi
  apart := h.apart.imp_of_mem fun {i j} hi hj hij => by
    rw [hoff i hi, hoff j hj, hsize j hj]
    exact hij

/-- A block is placed behind the total. -/
theorem Stacked.push {i : ι}
    (hi : total + size i ≤ off i) : Stacked off size (off i) (placed ++ [i]) where
  size_le j hj := by
    rcases mem_append.mp hj with hj | hj
    · exact h.size_le j hj
    · rw [mem_singleton.mp hj]
      omega
  le_total j hj := by
    rcases mem_append.mp hj with hj | hj
    · exact (h.le_total j hj).trans (by omega)
    · rw [mem_singleton.mp hj]
  apart := by
    refine pairwise_append.mpr ⟨h.apart, pairwise_singleton _ _, fun j hj k hk => ?_⟩
    rw [mem_singleton.mp hk]
    exact (Nat.add_le_add_right (h.le_total j hj) _).trans hi

/-- Of two blocks one lies behind the other. -/
theorem Stacked.disjoint {i j : ι} (hi : i ∈ placed)
    (hj : j ∈ placed) (hne : i ≠ j) : off i + size j ≤ off j ∨ off j + size i ≤ off i := by
  have hpair : placed.Pairwise fun i j => off i + size j ≤ off j ∨ off j + size i ≤ off i :=
    h.apart.imp Or.inl
  have hsymm : Std.Symm fun i j => off i + size j ≤ off j ∨ off j + size i ≤ off i :=
    ⟨fun _ _ => Or.symm⟩
  exact hpair.forall hi hj hne

end

end Placing

end Hzlibc.Memory
