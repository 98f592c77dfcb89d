import Hzlibc.Concurrency.FlagWord
import Hzlibc.Text.CString

/-!
The two hash functions of symbol names.

Each is written as the loader computes it and as its specification says. The loader's `elf_hash`
does not clear the top bits in every round, which makes no difference: the next shift loses them,
and the last ones are masked.
-/

namespace Hzlibc.Rtld

open Concurrency Stdio BitVec

abbrev Word := BitVec 32

def elfRound (hash : Word) (c : Byte) : Word :=
  let hash := (hash <<< 4) + c.setWidth 32
  hash ^^^ ((hash >>> 24) &&& 0xF0#32)

def elfHash (name : CString) : Word := name.foldl elfRound 0#32 &&& 0xFFFFFFF#32

def gnuRound (hash : Word) (c : Byte) : Word := (hash <<< 5) + hash + c.setWidth 32

def gnuHash (name : CString) : Word := name.foldl gnuRound 5381#32

/-- One round of the hash function of the System V ABI. -/
def sysvRound (h : Word) (c : Byte) : Word :=
  let h := (h <<< 4) + c.setWidth 32
  let g := h &&& 0xF0000000#32
  if g ≠ 0#32 then (h ^^^ (g >>> 24)) &&& ~~~g else h &&& ~~~g

def sysvHash (name : CString) : Word := name.foldl sysvRound 0#32

/-- The hash function of the GNU hash section. -/
def gnuHashSpec (name : CString) : ℕ :=
  name.foldl (fun h c => (h * 33 + c.toNat) % 2 ^ 32) 5381

/-! ### The GNU hash -/

@[simp] theorem gnuRound_toNat (hash : Word) (c : Byte) :
    (gnuRound hash c).toNat = (hash.toNat * 33 + c.toNat) % 2 ^ 32 := by
  simp [gnuRound, toNat_add]
  omega

theorem gnuHash_toNat (name : CString) : (gnuHash name).toNat = gnuHashSpec name := by
  have hfold (hash : Word) : (name.foldl gnuRound hash).toNat =
      name.foldl (fun h c => (h * 33 + c.toNat) % 2 ^ 32) hash.toNat := by
    induction name generalizing hash with
    | nil => rfl
    | cons c name ih => rw [List.foldl_cons, List.foldl_cons, ih, gnuRound_toNat]
  exact hfold 5381#32

/-! ### The System V hash -/

theorem mask_eq_lowMask : 0xFFFFFFF#32 = lowMask 32 28 := rfl

/-- The shift loses the top bits. -/
theorem shiftLeft_and_mask (x : Word) : (x &&& 0xFFFFFFF#32) <<< 4 = x <<< 4 := by
  apply eq_of_toNat_eq
  rw [toNat_shiftLeft, toNat_shiftLeft, mask_eq_lowMask, and_lowMask_toNat x (by omega)]
  omega

theorem getLsbD_mask : ∀ i : Fin 32, (0xFFFFFFF#32).getLsbD i = decide (i.val < 28) := by decide

theorem getLsbD_top : ∀ i : Fin 32, (0xF0000000#32).getLsbD i = decide (28 ≤ i.val) := by decide

theorem getLsbD_fold : ∀ i : Fin 32,
    (0xF0#32).getLsbD i = (0xF0000000#32).getLsbD (24 + i.val) := by decide

/-- The bits that are folded into the word are its top bits. -/
theorem fold_top (x : Word) :
    (x ^^^ ((x >>> 24) &&& 0xF0#32)) &&& 0xFFFFFFF#32 =
      (x ^^^ ((x &&& 0xF0000000#32) >>> 24)) &&& ~~~(x &&& 0xF0000000#32) := by
  apply eq_of_getLsbD_eq
  intro i hi
  have hmask : (0xFFFFFFF#32).getLsbD i = decide (i < 28) := getLsbD_mask ⟨i, hi⟩
  have hfold : (0xF0#32).getLsbD i = (0xF0000000#32).getLsbD (24 + i) := getLsbD_fold ⟨i, hi⟩
  have htop : (0xF0000000#32).getLsbD i = decide (28 ≤ i) := getLsbD_top ⟨i, hi⟩
  simp only [getLsbD_and, getLsbD_xor, getLsbD_not, getLsbD_ushiftRight,
    hmask, hfold, htop, hi, decide_true, Bool.true_and]
  by_cases hlt : i < 28
  · simp [hlt]
  · -- the top bits are cleared on both sides, and nothing is folded into them
    have hnone : (0xF0000000#32).getLsbD (24 + i) = false := getLsbD_of_ge _ _ (by omega)
    simp [hlt, hnone, not_lt.mp hlt]

theorem sysvRound_eq (h : Word) (c : Byte) : sysvRound (h &&& 0xFFFFFFF#32) c =
    elfRound h c &&& 0xFFFFFFF#32 := by
  simp only [sysvRound, elfRound, shiftLeft_and_mask]
  rw [fold_top]
  split
  · rfl
  · rename_i hzero
    rw [not_not.mp hzero]
    simp

theorem elfHash_eq (name : CString) : elfHash name = sysvHash name := by
  have hfold (h : Word) : name.foldl sysvRound (h &&& 0xFFFFFFF#32) =
      name.foldl elfRound h &&& 0xFFFFFFF#32 := by
    induction name generalizing h with
    | nil => rfl
    | cons c name ih => rw [List.foldl_cons, List.foldl_cons, sysvRound_eq, ih]
  exact (hfold 0#32).symm

end Hzlibc.Rtld
