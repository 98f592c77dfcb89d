import Mathlib.Algebra.Order.Ring.Int
import Mathlib.Data.Nat.Size

/-!
The division helpers that the compiler calls where the machine has no 64-bit division.

`udivdi3` is long division in base two: a round takes the next bit of the numerator, from
its highest set one down, into the partial remainder. The quotient and the remainder are
always those of the part of the numerator that has been taken (`rounds_upto`), so the
shift in a round loses no bit, not even for a denominator with its top bit set.
-/

namespace Hzlibc.Gcc

open BitVec Option

structure Division where
  quot : BitVec 64
  rem : BitVec 64
deriving DecidableEq, Repr

section

variable (numerator denominator : BitVec 64)

/-- The body of the loop, with `i` for the source's `i - 1`. -/
def divRound (i : ℕ) (s : Division) : Division :=
  let rem := s.rem <<< 1 ||| (numerator >>> i &&& 1#64)
  if rem ≥ denominator then ⟨s.quot ||| 1#64 <<< i, rem - denominator⟩ else ⟨s.quot, rem⟩

def bitWidth : ℕ := numerator.toNat.size

/-- The state behind `k` rounds of the loop. -/
def rounds : ℕ → Division
  | 0 => ⟨0, 0⟩
  | k + 1 => divRound numerator denominator (bitWidth numerator - (k + 1)) (rounds k)

/-- The quotient, and the remainder it leaves at `rem_ptr`; a division by zero traps. -/
def udivdi3 : Option Division :=
  if denominator = 0 then none else some (rounds numerator denominator (bitWidth numerator))

def Abi.udivdi3 : Option (BitVec 64) := (Gcc.udivdi3 numerator denominator).map Division.quot

def Abi.umoddi3 : Option (BitVec 64) := (Gcc.udivdi3 numerator denominator).map Division.rem

def abs (x : BitVec 64) : BitVec 64 := if x.slt 0#64 then x * -1#64 else x

def Abi.divdi3 : Option (BitVec 64) :=
  (Gcc.udivdi3 (abs numerator) (abs denominator)).map fun r =>
    if (numerator ^^^ denominator).slt 0#64 then (r.quot ^^^ -1#64) + 1#64 else r.quot

def Abi.moddi3 : Option (BitVec 64) :=
  (Gcc.udivdi3 (abs numerator) (abs denominator)).map fun r =>
    if numerator.slt 0#64 then (r.rem ^^^ -1#64) + 1#64 else r.rem

end

/-- Long division takes one more bit `b`. -/
theorem div_mod_take {b d : ℕ} (hb : b < 2) (hd : 0 < d) (p : ℕ) :
    (2 * p + b) / d = 2 * (p / d) + (if d ≤ 2 * (p % d) + b then 1 else 0) ∧
      (2 * p + b) % d
        = if d ≤ 2 * (p % d) + b then 2 * (p % d) + b - d else 2 * (p % d) + b := by
  have hp := Nat.div_add_mod p d
  have hlt := Nat.mod_lt p hd
  rw [Nat.div_mod_unique hd, Nat.mul_add, Nat.mul_left_comm]
  split <;> omega

variable {n d : BitVec 64} {s : Division} {i k : ℕ}

/-- The quotient and the remainder of `n` without its `i` lowest bits. -/
structure Division.Upto (n d : BitVec 64) (i : ℕ) (s : Division) : Prop where
  quot : s.quot.toNat = (n.toNat >>> i / d.toNat) <<< i
  rem : s.rem.toNat = n.toNat >>> i % d.toNat

section

variable (h : s.Upto n d (i + 1))

include h

theorem Division.Upto.shifted_lt : 2 * s.rem.toNat + 1 < 2 ^ 64 := by
  have hle := Nat.mod_le (n.toNat >>> i / 2) d.toNat
  have hi := Nat.shiftRight_le n.toNat i
  rw [h.rem, Nat.shiftRight_succ]
  omega

theorem Division.Upto.toNat_shifted :
    (s.rem <<< 1 ||| (n >>> i &&& 1#64)).toNat
      = 2 * (n.toNat >>> i / 2 % d.toNat) + n.toNat >>> i % 2 := by
  have hlt := h.shifted_lt
  have hbit : (n >>> i &&& 1#64).toNat = n.toNat >>> i % 2 := by simp
  rw [toNat_or, toNat_shiftLeft, hbit, Nat.mod_eq_of_lt (by rw [Nat.shiftLeft_eq]; omega),
    ← Nat.shiftLeft_add_eq_or_of_lt (Nat.mod_lt _ Nat.two_pos), Nat.shiftLeft_eq, h.rem, mul_comm,
    Nat.shiftRight_succ]

theorem Division.Upto.divRound (hd : d ≠ 0) (hi : i < 64) : (divRound n d i s).Upto n d i := by
  have hpos : 0 < d.toNat := Nat.pos_of_ne_zero fun h => hd (eq_of_toNat_eq h)
  obtain ⟨hdiv, hmod⟩ := div_mod_take (Nat.mod_lt (n.toNat >>> i) Nat.two_pos) hpos
    (n.toNat >>> i / 2)
  rw [← h.toNat_shifted, Nat.div_add_mod] at hdiv hmod
  have hquot := h.quot
  rw [Nat.shiftRight_succ, Nat.shiftLeft_succ_inside] at hquot
  unfold Gcc.divRound
  simp only [ge_iff_le, le_def]
  split
  · rename_i hle
    rw [if_pos hle] at hdiv hmod
    refine ⟨?_, (toNat_sub_of_le hle).trans hmod.symm⟩
    rw [toNat_or, h.quot, ← twoPow_eq, toNat_twoPow_of_lt hi, ← Nat.shiftLeft_add_eq_or_of_lt
      (Nat.pow_lt_pow_succ Nat.one_lt_two), ← h.quot, hquot, hdiv]
    simp only [Nat.shiftLeft_eq, Nat.add_mul, Nat.one_mul]
  · rename_i hlt
    rw [if_neg hlt] at hdiv hmod
    exact ⟨hdiv ▸ hquot, hmod.symm⟩

end

theorem rounds_upto (hd : d ≠ 0) (hk : k ≤ bitWidth n) :
    (rounds n d k).Upto n d (bitWidth n - k) := by
  induction k with
  | zero =>
    have hzero := Nat.shiftRight_eq_zero n.toNat _ (Nat.lt_size_self n.toNat)
    constructor <;> simp [rounds, bitWidth, hzero]
  | succ k ih =>
    have hle : bitWidth n ≤ 64 := Nat.size_le.mpr n.isLt
    have ih := ih (by omega)
    rw [← Nat.sub_add_cancel (Nat.sub_pos_of_lt hk), Nat.sub_sub] at ih
    exact ih.divRound hd (by omega)

theorem udivdi3_eq (hd : d ≠ 0) : udivdi3 n d = some ⟨n / d, n % d⟩ := by
  obtain ⟨hquot, hrem⟩ := rounds_upto (k := bitWidth n) hd le_rfl
  rw [Nat.sub_self, Nat.shiftRight_zero] at hquot hrem
  rw [udivdi3, if_neg hd, some_inj, Division.mk.injEq]
  exact ⟨eq_of_toNat_eq hquot, eq_of_toNat_eq hrem⟩

theorem udivdi3_abs (hd : d ≠ 0) : udivdi3 (abs n) (abs d) = some
    ⟨(if n.msb then -n else n) / (if d.msb then -d else d),
      (if n.msb then -n else n) % (if d.msb then -d else d)⟩ := by
  have habs (x : BitVec 64) : abs x = if x.msb then -x else x := by
    rw [abs, slt_zero_eq_msb, BitVec.mul_neg, BitVec.mul_one]
  rw [udivdi3_eq, habs, habs]
  rw [habs]
  split <;> simpa

theorem xor_add_one (x : BitVec 64) : (x ^^^ -1#64) + 1#64 = -x := by
  rw [neg_one_eq_allOnes, xor_allOnes, neg_eq_not_add]

theorem divdi3_eq (hd : d ≠ 0) : Abi.divdi3 n d = some (n.sdiv d) := by
  rw [Abi.divdi3, udivdi3_abs hd]
  simp only [map_some, xor_add_one, sdiv_eq, slt_zero_eq_msb, msb_xor]
  cases n.msb <;> cases d.msb <;> simp

theorem moddi3_eq (hd : d ≠ 0) : Abi.moddi3 n d = some (n.srem d) := by
  rw [Abi.moddi3, udivdi3_abs hd]
  simp only [map_some, xor_add_one, srem_eq, slt_zero_eq_msb]
  cases n.msb <;> cases d.msb <;> simp

theorem division_helpers (n d : BitVec 64) (hd : d ≠ 0) :
    Abi.udivdi3 n d = some (n / d) ∧ Abi.umoddi3 n d = some (n % d) ∧
      (n ≠ intMin 64 ∨ d ≠ -1#64 →
        (Abi.divdi3 n d).map BitVec.toInt = some (n.toInt.tdiv d.toInt)) ∧
      (Abi.moddi3 n d).map BitVec.toInt = some (n.toInt.tmod d.toInt) ∧
      ∀ k < bitWidth n, 2 * (rounds n d k).rem.toNat + 1 < 2 ^ 64 := by
  refine ⟨by rw [Abi.udivdi3, udivdi3_eq hd]; rfl, by rw [Abi.umoddi3, udivdi3_eq hd]; rfl,
    fun h => ?_, ?_, fun k hk => ?_⟩
  · rw [divdi3_eq hd, map_some, toInt_sdiv_of_ne_or_ne _ _ h]
  · rw [moddi3_eq hd, map_some, toInt_srem]
  · have h := rounds_upto hd hk.le
    rw [← Nat.sub_add_cancel (Nat.sub_pos_of_lt hk)] at h
    exact h.shifted_lt

theorem division_helpers_of_neg : (Abi.divdi3 (-7) 2).map BitVec.toInt = some (-3) ∧
    (Abi.moddi3 (-7) 2).map BitVec.toInt = some (-1) := by
  obtain ⟨-, -, hdiv, hmod, -⟩ := division_helpers (-7) 2 (by decide)
  exact ⟨hdiv (.inl (by decide)), hmod⟩

end Hzlibc.Gcc
