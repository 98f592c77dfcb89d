import Mathlib.Data.Nat.Digits.Defs

/-!
Numbers read digit by digit into a machine word.

The number is the one the digits write, however many there are; the word can
only hold a part of it. Two tests that look at the word alone notice that it
has wrapped around: a product that does not divide back to what was
multiplied, and a sum that is smaller than what was added to.
-/

namespace Hzlibc.Numeral

/-- The number written by the digits, the most significant one first. -/
def numeral (base : ℕ) (digits : List ℕ) : ℕ := Nat.ofDigits base digits.reverse

theorem numeral_eq_foldl (base : ℕ) (digits : List ℕ) :
    numeral base digits = digits.foldl (fun n d => base * n + d) 0 := by
  rw [numeral, Nat.ofDigits_eq_foldr]
  simp [Nat.add_comm]

@[simp] theorem numeral_zero_cons (base : ℕ) (digits : List ℕ) :
    numeral base (0 :: digits) = numeral base digits := by
  rw [numeral_eq_foldl, numeral_eq_foldl, List.foldl_cons, Nat.mul_zero]

section Words

variable {w : ℕ}

theorem mul_div_ne_iff (v b : BitVec w) (hb : 0 < b.toNat) :
    v * b / b ≠ v ↔ 2 ^ w ≤ v.toNat * b.toNat := by
  rw [ne_eq, ← BitVec.toNat_inj, BitVec.toNat_udiv, BitVec.toNat_mul]
  constructor
  · intro hne
    by_contra hlt
    rw [Nat.mod_eq_of_lt (by omega), Nat.mul_div_cancel _ hb] at hne
    exact hne rfl
  · intro hle heq
    -- what is left of the product is below the word size, so it divides to less
    rw [Nat.div_eq_iff hb] at heq
    omega

theorem add_lt_iff (v d : BitVec w) : v + d < v ↔ 2 ^ w ≤ v.toNat + d.toNat := by
  rw [BitVec.lt_def, BitVec.toNat_add]
  constructor
  · intro hlt
    by_contra hsmall
    rw [Nat.mod_eq_of_lt (by omega)] at hlt
    omega
  · intro hle
    rw [Nat.mod_eq_sub_mod hle, Nat.mod_eq_of_lt (by omega)]
    omega

/-- The word and its flag stand for the number `n`: the flag tells whether it
is beyond the bound, and without the flag the word is the number itself. -/
structure Tracks (bound n : ℕ) (v : BitVec w) (overflow : Bool) : Prop where
  flag : overflow = true ↔ bound < n
  value : overflow = false → v.toNat = n

theorem Tracks.zero (bound : ℕ) : Tracks bound 0 (0 : BitVec w) false :=
  ⟨by simp, fun _ => by simp⟩

/-- One more digit, with both tests and the comparisons with the largest
value made after each operation. -/
theorem Tracks.push {n : ℕ} {v b d most : BitVec w} {overflow : Bool}
    (h : Tracks most.toNat n v overflow) (hb : 0 < b.toNat) :
    Tracks most.toNat (b.toNat * n + d.toNat) (v * b + d)
      (overflow || (v * b / b ≠ v || v * b > most) ||
        (v * b + d < v * b || v * b + d > most)) := by
  have hgrow : n ≤ b.toNat * n := Nat.le_mul_of_pos_left n hb
  by_cases hflag : overflow = true
  · have hn := h.flag.mp hflag
    subst hflag
    exact ⟨by simp; omega, by simp⟩
  have hv := h.value (by simpa using hflag)
  by_cases hmul : 2 ^ w ≤ v.toNat * b.toNat
  · have htest := (mul_div_ne_iff v b hb).mpr hmul
    rw [hv, Nat.mul_comm] at hmul
    exact ⟨by simp [htest]; omega, by simp [htest]⟩
  have htest : v * b / b = v := by
    by_contra hne
    exact hmul ((mul_div_ne_iff v b hb).mp hne)
  have hprod : (v * b).toNat = b.toNat * n := by
    rw [BitVec.toNat_mul, Nat.mod_eq_of_lt (by omega), hv, Nat.mul_comm]
  by_cases hadd : 2 ^ w ≤ (v * b).toNat + d.toNat
  · have hwrap := (add_lt_iff (v * b) d).mpr hadd
    exact ⟨by simp [hwrap]; omega, by simp [hwrap]⟩
  have hsum : (v * b + d).toNat = b.toNat * n + d.toNat := by
    rw [BitVec.toNat_add, Nat.mod_eq_of_lt (by omega), hprod]
  have hwrap : ¬ v * b + d < v * b := fun hlt => hadd ((add_lt_iff _ _).mp hlt)
  have hfalse : overflow = false := by simpa using hflag
  subst hfalse
  refine ⟨?_, fun _ => hsum⟩
  simp only [htest, hwrap, Bool.false_or, Bool.or_eq_true, decide_eq_true_eq, ne_eq,
    not_true_eq_false, decide_false, gt_iff_lt, BitVec.lt_def, hsum, hprod]
  omega

end Words

end Hzlibc.Numeral
