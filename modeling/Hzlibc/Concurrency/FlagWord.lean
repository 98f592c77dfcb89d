import Mathlib.Data.Nat.Bitwise

/-!
Machine words that pack a counter and a flag.

A lock keeps its owner or its count in the low bits of one word and says in
the top bit that somebody waits. The lemmas read masks and flags off as
arithmetic on the word's value: the low `k` bits are the value modulo `2 ^ k`,
and setting or clearing the top bit never touches the rest.
-/

namespace Hzlibc.Concurrency

open BitVec

variable {w k : ℕ}

/-- The word whose low `k` bits are set. -/
def lowMask (w k : ℕ) : BitVec w := BitVec.ofNat w (2 ^ k - 1)

/-- The word whose top bit alone is set. -/
def topFlag (w : ℕ) : BitVec (w + 1) := BitVec.twoPow (w + 1) w

theorem lowMask_toNat (hk : k ≤ w) : (lowMask w k).toNat = 2 ^ k - 1 := by
  have hpow : 2 ^ k ≤ 2 ^ w := Nat.pow_le_pow_right (by omega) hk
  have hpos : 0 < 2 ^ k := Nat.two_pow_pos k
  rw [lowMask, toNat_ofNat, Nat.mod_eq_of_lt (by omega)]

theorem and_lowMask_toNat (x : BitVec w) (hk : k ≤ w) :
    (x &&& lowMask w k).toNat = x.toNat % 2 ^ k := by
  rw [toNat_and, lowMask_toNat hk, Nat.and_two_pow_sub_one_eq_mod]

/-- A word that fits into the low bits is its own low part, has no other part,
and is absorbed by the mask. -/
theorem and_lowMask_of_lt {x : BitVec w} (hk : k ≤ w) (hx : x.toNat < 2 ^ k) :
    x &&& lowMask w k = x := by
  apply eq_of_toNat_eq
  rw [and_lowMask_toNat x hk, Nat.mod_eq_of_lt hx]

theorem and_not_lowMask_of_lt {x : BitVec w} (hk : k ≤ w) (hx : x.toNat < 2 ^ k) :
    x &&& ~~~ lowMask w k = 0#w := by
  calc
    x &&& ~~~ lowMask w k = x &&& lowMask w k &&& ~~~ lowMask w k := by
      rw [and_lowMask_of_lt hk hx]
    _ = 0#w := by
      apply eq_of_getLsbD_eq
      intro i hi
      simp
      cases (lowMask w k).getLsbD i <;> simp

theorem or_lowMask_of_lt {x : BitVec w} (hk : k ≤ w) (hx : x.toNat < 2 ^ k) :
    x ||| lowMask w k = lowMask w k := by
  nth_rewrite 1 [← and_lowMask_of_lt hk hx]
  apply eq_of_getLsbD_eq
  intro i hi
  simp only [getLsbD_or, getLsbD_and]
  cases x.getLsbD i <;> cases (lowMask w k).getLsbD i <;> rfl

/-- Clearing the top bit is masking the others. -/
theorem not_topFlag : ~~~ topFlag w = lowMask (w + 1) w := by
  apply eq_of_getLsbD_eq
  intro i hi
  have hmask : (lowMask (w + 1) w).getLsbD i = decide (i < w) := by
    rw [BitVec.getLsbD, lowMask_toNat (by omega), Nat.testBit_two_pow_sub_one]
  rw [hmask, getLsbD_not, topFlag, getLsbD_twoPow]
  by_cases h : i = w
  · simp [h]
  · simp [hi, Ne.symm h]
    omega

variable (x : BitVec (w + 1))

@[simp] theorem and_not_topFlag_toNat : (x &&& ~~~ topFlag w).toNat = x.toNat % 2 ^ w := by
  rw [not_topFlag, and_lowMask_toNat x (by omega)]

theorem and_topFlag_eq :
    x &&& topFlag w = if x.getLsbD w then topFlag w else 0#(w + 1) := by
  rw [topFlag, and_twoPow]

theorem topFlag_ne_zero : topFlag w ≠ 0#(w + 1) := by
  intro h
  have hbit : (topFlag w).getLsbD w = true := by simp [topFlag]
  rw [h] at hbit
  simp at hbit

@[simp] theorem or_topFlag_and_topFlag : (x ||| topFlag w) &&& topFlag w = topFlag w := by
  rw [and_topFlag_eq]
  simp [topFlag]

@[simp] theorem or_topFlag_and_not_topFlag :
    (x ||| topFlag w) &&& ~~~ topFlag w = x &&& ~~~ topFlag w := by
  apply eq_of_getLsbD_eq
  intro i hi
  simp only [getLsbD_and, getLsbD_or, getLsbD_not]
  cases x.getLsbD i <;> cases (topFlag w).getLsbD i <;> simp

/-- A word without the top bit is its own low part. -/
theorem and_not_topFlag_of_lt {x : BitVec (w + 1)} (hx : x.toNat < 2 ^ w) :
    x &&& ~~~ topFlag w = x := by
  apply eq_of_toNat_eq
  rw [and_not_topFlag_toNat, Nat.mod_eq_of_lt hx]

theorem and_topFlag_eq_zero_iff : x &&& topFlag w = 0#(w + 1) ↔ x.toNat < 2 ^ w := by
  rw [and_topFlag_eq, BitVec.getLsbD, Nat.testBit_eq_decide_div_mod_eq]
  have hdiv : x.toNat / 2 ^ w < 2 := Nat.div_lt_of_lt_mul (by omega)
  by_cases hlt : x.toNat < 2 ^ w
  · simp [hlt, Nat.div_eq_of_lt hlt]
  · have hone : x.toNat / 2 ^ w = 1 := by
      have := Nat.div_pos (Nat.le_of_not_lt hlt) (Nat.two_pow_pos w)
      omega
    simp [hone, topFlag_ne_zero, hlt]

end Hzlibc.Concurrency
