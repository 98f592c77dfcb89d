import Mathlib.Data.List.Basic
import Mathlib.Tactic.Common

/-!
`makecontext` on x86-64 and i386.

The stack of the new context gets a row of words: the address of the trampoline, to
which `func` returns, the arguments passed on the stack, and `uc_link`. On i386 these
are all arguments, but room is made only for those behind the sixth, as on x86-64,
where six are in registers.
-/

namespace Hzlibc.Posix.Ucontext

open List

/-- The words written to the stack, with their addresses, and the registers. -/
structure Context (V : Type) where
  writes : List (ℕ × V)
  sp : ℕ
  /-- Those for arguments. -/
  regs : List V
  /-- What the trampoline finds `uc_link` with. -/
  bx : ℕ

variable {V : Type} (ssSp ssSize : ℕ) (trampoline ucLink : V) (args : List V)

def linkIndex (argc : ℕ) : ℕ := (if argc > 6 then argc - 6 else 0) + 1

/-- The stack pointer, for words of `w` bytes. -/
def stackPointer (w argc : ℕ) : ℕ := (ssSp + ssSize - w * linkIndex argc) / 16 * 16 - 8

/-- Words at consecutive addresses. -/
def row (w a : ℕ) (vs : List V) : List (ℕ × V) := vs.mapIdx fun i v => (a + w * i, v)

def X86.makecontext : Context V :=
  let link := linkIndex args.length
  let sp := stackPointer ssSp ssSize 8 args.length
  -- behind the sixth, argument `i` is at `sp[1 + i - 6]`
  ⟨(sp, trampoline) :: (sp + 8 * link, ucLink) :: row 8 (sp + 8) (args.drop 6), sp, args.take 6,
    sp + 8 * link⟩

def I386.makecontext : Context V :=
  let sp := stackPointer ssSp ssSize 4 args.length
  ⟨row 4 sp (trampoline :: (args ++ [ucLink])), sp, [], args.length⟩

/-- What `makecontext` has to do, with words of `w` bytes, `n` arguments in registers,
and a trampoline that reads the word at `linkAt`. -/
structure Context.Right (w n : ℕ) (ctx : Context V) (linkAt : ℕ) : Prop where
  inside : ∀ x ∈ ctx.writes, ssSp ≤ x.1 ∧ x.1 + w ≤ ssSp + ssSize
  apart : ctx.writes.Pairwise fun x y => x.1 + w ≤ y.1 ∨ y.1 + w ≤ x.1
  returns : (ctx.sp, trampoline) ∈ ctx.writes
  regs : ctx.regs = args.take n
  stack : ∀ i a, args[n + i]? = some a → (ctx.sp + w * (i + 1), a) ∈ ctx.writes
  link : (linkAt, ucLink) ∈ ctx.writes

section

variable {w a : ℕ} {vs : List V}

theorem row_cons (v : V) : row w a (v :: vs) = (a, v) :: row w (a + w) vs := by
  simp [row, mapIdx_cons, Nat.mul_succ, Nat.add_assoc, Nat.add_comm w]

theorem row_apart : (row w a vs).Pairwise fun x y => x.1 + w ≤ y.1 ∨ y.1 + w ≤ x.1 := by
  refine pairwise_iff_getElem.mpr fun i j hi hj hij => .inl ?_
  have hle := Nat.mul_le_mul_left w hij
  simp only [row, getElem_mapIdx]
  rw [Nat.mul_succ] at hle
  omega

end

variable {ssSp ssSize trampoline ucLink args}

theorem Context.right_iff_le {w n linkAt : ℕ} {ctx : Context V} (hregs : ctx.regs = args.take n)
    (hwrites : ctx.writes ~ row w ctx.sp (trampoline :: (args.drop n ++ [ucLink])))
    (hlink : linkAt = ctx.sp + w * (args.length - n + 1)) :
    ctx.Right ssSp ssSize trampoline ucLink args w n linkAt ↔
      ssSp ≤ ctx.sp ∧ linkAt + w ≤ ssSp + ssSize := by
  have hmem (x : ℕ × V) := (hwrites.mem_iff (a := x)).trans mem_mapIdx
  have hfirst : (ctx.sp, trampoline) ∈ ctx.writes := (hmem _).mpr ⟨0, by simp, rfl⟩
  have hlast : (linkAt, ucLink) ∈ ctx.writes :=
    (hmem _).mpr ⟨args.length - n + 1, by simp, by simp [hlink]⟩
  constructor
  · intro h
    exact ⟨(h.inside _ hfirst).1, (h.inside _ hlast).2⟩
  · rintro ⟨hlow, hhigh⟩
    refine ⟨fun x hx => ?_, ?_, hfirst, hregs, fun i a hi => ?_, hlast⟩
    · obtain ⟨i, hi, rfl⟩ := (hmem x).mp hx
      have hle : i ≤ args.length - n + 1 := by simpa using Nat.le_of_lt_succ hi
      have := Nat.mul_le_mul_left w hle
      omega
    · exact (hwrites.pairwise_iff fun h => h.symm).mpr row_apart
    · obtain ⟨hlt, rfl⟩ := List.getElem?_eq_some_iff.mp hi
      have hdrop : i < (args.drop n).length := by
        rw [length_drop]
        omega
      have hlength : i + 1 < (trampoline :: (args.drop n ++ [ucLink])).length := by
        rw [length_cons, length_append]
        omega
      exact (hmem _).mpr ⟨i + 1, hlength, by simp [getElem_append_left hdrop]⟩

variable (ssSp ssSize trampoline ucLink args)

end Hzlibc.Posix.Ucontext
