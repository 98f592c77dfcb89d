import Hzlibc.Sort.Bubble
import Hzlibc.Stdio.Basic

/-!
`qsort` and `qsort_r`.

The array is a row of bytes, and the elements are blocks of it. A comparison gets two
blocks, and a state of its own beside them, so that it can be any function. Two elements
are exchanged byte by byte. An access outside of the array is no result.
-/

namespace Hzlibc.Qsort

open List

open Stdio (Byte)

/-- An element of the given size. -/
def Block (size : ℕ) := { b : List Byte // b.length = size }

variable {σ : Type} {size : ℕ}

/-- What `comp` returns for two elements. -/
abbrev Comparison (σ : Type) (size : ℕ) := Block size → Block size → σ → ℤ × σ

theorem length_take_drop {bytes : List Byte} {offset size : ℕ}
    (h : offset + size ≤ bytes.length) : ((bytes.drop offset).take size).length = size := by
  rw [length_take_of_le]
  rw [length_drop]
  omega

/-- The element that starts at an offset. -/
def load (size : ℕ) (bytes : List Byte) (offset : ℕ) : Option (Block size) :=
  if h : offset + size ≤ bytes.length then
    some ⟨(bytes.drop offset).take size, length_take_drop h⟩
  else none

/-- The loop over `k`, with the number of bytes that are left. -/
def swapLoop (a b : ℕ) : ℕ → ℕ → List Byte → Option (List Byte)
  | 0, _, bytes => some bytes
  | n + 1, k, bytes => do
      let tmp ← bytes[a + k]?
      let other ← bytes[b + k]?
      swapLoop a b n (k + 1) ((bytes.set (a + k) other).set (b + k) tmp)

def innerLoop (comp : Comparison σ size) :
    ℕ → ℕ → List Byte → Bool → σ → Option (List Byte × Bool × σ)
  | 0, _, bytes, changed, s => some (bytes, changed, s)
  | n + 1, j, bytes, changed, s => do
      let a ← load size bytes (j * size)
      let b ← load size bytes ((j + 1) * size)
      if 0 < (comp a b s).1 then
        let bytes ← swapLoop (j * size) ((j + 1) * size) size 0 bytes
        innerLoop comp n (j + 1) bytes true (comp a b s).2
      else innerLoop comp n (j + 1) bytes changed (comp a b s).2

/-- The loop over `i`, which is left when a round has changed nothing. -/
def outerLoop (comp : Comparison σ size) (count : ℕ) :
    ℕ → List Byte → σ → Option (List Byte × σ)
  | 0, bytes, s => some (bytes, s)
  | n + 1, bytes, s => do
      let (bytes, changed, s) ← innerLoop comp (count - 1) 0 bytes false s
      if changed then outerLoop comp count n bytes s else some (bytes, s)

def qsort (comp : Comparison σ size) (bytes : List Byte) (count : ℕ) (s : σ) :
    Option (List Byte × σ) :=
  outerLoop comp count count bytes s

/-- The loops are those of `qsort`; the comparison gets `arg` as well. -/
def qsortR {β : Type} (comp : Block size → Block size → β → σ → ℤ × σ) (arg : β)
    (bytes : List Byte) (count : ℕ) (s : σ) : Option (List Byte × σ) :=
  outerLoop (fun a b => comp a b arg) count count bytes s

/-! ### The array as a row of elements -/

def flat (blocks : List (Block size)) : List Byte := blocks.flatMap Subtype.val

@[simp] theorem flat_append (as bs : List (Block size)) : flat (as ++ bs) = flat as ++ flat bs :=
  flatMap_append

@[simp] theorem length_flat (blocks : List (Block size)) :
    (flat blocks).length = blocks.length * size := by
  induction blocks with
  | nil => exact (Nat.zero_mul size).symm
  | cons b blocks ih =>
    change (b.1 ++ flat blocks).length = (blocks.length + 1) * size
    rw [length_append, b.2, ih, Nat.add_one_mul, Nat.add_comm]

theorem load_flat (front : List (Block size)) (x : Block size) (back : List (Block size)) :
    load size (flat (front ++ x :: back)) (front.length * size) = some x := by
  have hflat : flat (front ++ x :: back) = flat front ++ (x.1 ++ flat back) := flat_append _ _
  have hlength : front.length * size + size ≤ (flat (front ++ x :: back)).length := by
    rw [hflat, length_append, length_append, length_flat, x.2]
    omega
  have htake : ((flat (front ++ x :: back)).drop (front.length * size)).take size = x.1 := by
    rw [hflat, ← length_flat, drop_left, take_left' x.2]
  rw [load, dif_pos hlength]
  exact congrArg some (Subtype.ext htake)

@[simp] theorem getElem?_append_cons (front : List Byte) (x : Byte) (back : List Byte) :
    (front ++ x :: back)[front.length]? = some x := by
  rw [List.getElem?_append_right (Nat.le_refl _), Nat.sub_self, List.getElem?_cons_zero]

@[simp] theorem set_append_cons (front : List Byte) (x y : Byte) (back : List Byte) :
    (front ++ x :: back).set front.length y = front ++ y :: back := by
  rw [set_append_right _ _ (Nat.le_refl _), Nat.sub_self, set_cons_zero]

/-- One round exchanges the two bytes it is at. -/
theorem swapLoop_succ {a b n k : ℕ} {front mid back : List Byte} {x y : Byte}
    (ha : front.length = a + k) (hb : front.length + 1 + mid.length = b + k) :
    swapLoop a b (n + 1) k (front ++ x :: (mid ++ y :: back))
      = swapLoop a b n (k + 1) (front ++ y :: (mid ++ x :: back)) := by
  have hsplit : ∀ z z', front ++ z :: (mid ++ z' :: back) = (front ++ z :: mid) ++ z' :: back := by
    simp
  have hlength : ∀ z, (front ++ z :: mid).length = b + k := by
    intro z
    rw [length_append, length_cons]
    omega
  have hx : (front ++ x :: (mid ++ y :: back))[a + k]? = some x := by
    rw [← ha, getElem?_append_cons]
  have hy : (front ++ x :: (mid ++ y :: back))[b + k]? = some y := by
    rw [hsplit, ← hlength x, getElem?_append_cons]
  have hset : ((front ++ x :: (mid ++ y :: back)).set (a + k) y).set (b + k) x
      = front ++ y :: (mid ++ x :: back) := by
    rw [← ha, set_append_cons, hsplit, ← hlength y, set_append_cons, hsplit]
  rw [swapLoop, hx, hy, ← hset]
  rfl

/-- After `k` rounds the first `k` bytes of the two blocks have changed places. -/
theorem swapLoop_eq {a b k : ℕ} {front xs ys xs' ys' back : List Byte} (ha : front.length = a)
    (hb : b = a + k + xs.length) (hxs : xs'.length = k) (hys : ys'.length = k)
    (hlength : xs.length = ys.length) :
    swapLoop a b xs.length k (front ++ ys' ++ xs ++ xs' ++ ys ++ back)
      = some (front ++ ys' ++ ys ++ xs' ++ xs ++ back) := by
  induction xs generalizing k ys xs' ys' with
  | nil =>
    obtain rfl := length_eq_zero_iff.mp hlength.symm
    rfl
  | cons x xs ih =>
    obtain ⟨y, ys, rfl⟩ := exists_cons_of_length_eq_add_one hlength.symm
    rw [length_cons] at hb hlength ⊢
    rw [length_cons, Nat.add_right_cancel_iff] at hlength
    have hbytes : front ++ ys' ++ x :: xs ++ xs' ++ y :: ys ++ back
        = (front ++ ys') ++ x :: ((xs ++ xs') ++ y :: (ys ++ back)) := by simp
    have hround : (front ++ ys') ++ y :: ((xs ++ xs') ++ x :: (ys ++ back))
        = front ++ (ys' ++ [y]) ++ xs ++ (xs' ++ [x]) ++ ys ++ back := by simp
    have hfront : (front ++ ys').length = a + k := by rw [length_append, ha, hys]
    rw [hbytes, swapLoop_succ hfront (by rw [hfront, length_append]; omega), hround,
      ih (by omega) (by simp [hxs]) (by simp [hys]) hlength]
    simp

theorem swapLoop_flat (front : List (Block size)) (x y : Block size) (back : List (Block size)) :
    swapLoop (front.length * size) ((front.length + 1) * size) size 0
        (flat (front ++ x :: y :: back))
      = some (flat (front ++ y :: x :: back)) := by
  have hflat : ∀ u v : Block size, flat (front ++ u :: v :: back)
      = flat front ++ [] ++ u.1 ++ [] ++ v.1 ++ flat back := by
    intro u v
    rw [flat_append]
    change flat front ++ (u.1 ++ (v.1 ++ flat back)) = _
    simp
  have hb : (front.length + 1) * size = front.length * size + 0 + x.1.length := by
    rw [x.2, Nat.add_one_mul, Nat.add_zero]
  have hswap : swapLoop (front.length * size) ((front.length + 1) * size) x.1.length 0
      (flat front ++ [] ++ x.1 ++ [] ++ y.1 ++ flat back)
      = some (flat front ++ [] ++ y.1 ++ [] ++ x.1 ++ flat back) :=
    swapLoop_eq (length_flat front) hb rfl rfl (x.2.trans y.2.symm)
  rw [x.2] at hswap
  rw [hflat, hflat, hswap]

/-! ### The loops are passes over the elements -/

/-- The elements are in the wrong order for the comparison. -/
def greater (comp : Comparison σ size) (a b : Block size) (s : σ) : Bool × σ :=
  (decide (0 < (comp a b s).1), (comp a b s).2)

variable (comp : Comparison σ size)

theorem innerLoop_eq (front : List (Block size)) (x : Block size) (l : List (Block size))
    (changed : Bool) (s : σ) :
    innerLoop comp l.length front.length (flat (front ++ x :: l)) changed s
      = some (flat (front ++ (Bubble.bubble (greater comp) x l s).1),
          changed || (Bubble.bubble (greater comp) x l s).2.1,
          (Bubble.bubble (greater comp) x l s).2.2) := by
  induction l generalizing front x changed s with
  | nil =>
    rw [Bubble.bubble, Bool.or_false]
    rfl
  | cons y l ih =>
    have hb : load size (flat (front ++ x :: y :: l)) ((front.length + 1) * size) = some y := by
      have hload := load_flat (front ++ [x]) y l
      rwa [length_append, append_assoc] at hload
    have hmove : ∀ u v : Block size, front ++ u :: v :: l = (front ++ [u]) ++ v :: l := by simp
    have hlength : ∀ u : Block size, front.length + 1 = (front ++ [u]).length := by simp
    rw [length_cons, innerLoop, load_flat, hb]
    change (if 0 < (comp x y s).1 then _ else _) = _
    by_cases hgt : 0 < (comp x y s).1
    · have hgreater : (greater comp x y s).1 = true := decide_eq_true hgt
      rw [if_pos hgt, swapLoop_flat, Bubble.bubble, if_pos hgreater]
      change innerLoop comp l.length (front.length + 1) (flat (front ++ y :: x :: l)) true _ = _
      rw [hmove, hlength y, ih]
      simp [greater]
    · have hgreater : ¬(greater comp x y s).1 = true := fun h => hgt (of_decide_eq_true h)
      rw [if_neg hgt, Bubble.bubble, if_neg hgreater, hmove, hlength x, ih]
      simp [greater]

theorem innerLoop_pass (blocks : List (Block size)) (s : σ) :
    innerLoop comp (blocks.length - 1) 0 (flat blocks) false s
      = some (flat (Bubble.pass (greater comp) blocks s).1,
          (Bubble.pass (greater comp) blocks s).2) := by
  cases blocks with
  | nil => rfl
  | cons x l => exact innerLoop_eq comp [] x l false s

theorem outerLoop_eq (n : ℕ) {blocks : List (Block size)} {count : ℕ}
    (hcount : blocks.length = count) (s : σ) :
    outerLoop comp count n (flat blocks) s
      = some (flat (Bubble.sort (greater comp) n blocks s).1,
          (Bubble.sort (greater comp) n blocks s).2) := by
  induction n generalizing blocks s with
  | zero => rfl
  | succ n ih =>
    have hlength : (Bubble.pass (greater comp) blocks s).1.length = count :=
      (Bubble.pass_perm blocks s).length_eq.trans hcount
    rw [outerLoop, ← hcount, innerLoop_pass, hcount, Bubble.sort]
    change (if (Bubble.pass (greater comp) blocks s).2.1 = true then _ else _) = _
    split
    · exact ih hlength _
    · rfl

/-! ### What the caller gets -/

structure TotalPreorder (cmp : Block size → Block size → ℤ) : Prop where
  total : ∀ a b, cmp a b ≤ 0 ∨ cmp b a ≤ 0
  trans : ∀ a b c, cmp a b ≤ 0 → cmp b c ≤ 0 → cmp a c ≤ 0

/-- Two elements compare equal. -/
def Equal (cmp : Block size → Block size → ℤ) (a b : Block size) : Prop :=
  cmp a b ≤ 0 ∧ cmp b a ≤ 0

instance (cmp : Block size → Block size → ℤ) (a : Block size) : DecidablePred (Equal cmp a) :=
  inferInstanceAs (DecidablePred (Bubble.Same (fun x y => cmp x y ≤ 0) a))

/-- The elements are those of the array. If the answers are those of a total preorder,
then they are in ascending order, and equal ones in the order they had. -/
def Sorted (blocks result : List (Block size)) : Prop :=
  result.Perm blocks ∧ ∀ cmp, (∀ a b s, (comp a b s).1 = cmp a b) → TotalPreorder cmp →
    result.Pairwise (fun a b => cmp a b ≤ 0) ∧
      ∀ a, result.filter (Equal cmp a) = blocks.filter (Equal cmp a)

variable {comp} in
theorem greater_decides {cmp : Block size → Block size → ℤ}
    (hcomp : ∀ a b s, (comp a b s).1 = cmp a b) (hcmp : TotalPreorder cmp) :
    Bubble.Decides (greater comp) (fun a b => cmp a b ≤ 0) where
  answer a b s := by
    change decide (0 < (comp a b s).1) = true ↔ _
    rw [decide_eq_true_iff, hcomp, Int.not_le]
  total := hcmp.total
  trans := hcmp.trans

theorem outerLoop_sorted (blocks : List (Block size)) (s : σ) :
    ∃ result s',
      outerLoop comp blocks.length blocks.length (flat blocks) s = some (flat result, s') ∧
      Sorted comp blocks result := by
  refine ⟨_, _, outerLoop_eq comp _ rfl s, Bubble.sort_perm _ _ _, fun cmp hcomp hcmp => ?_⟩
  have hdecides := greater_decides hcomp hcmp
  exact ⟨Bubble.sort_pairwise hdecides blocks s,
    fun a => Bubble.sort_filter_same hdecides a blocks.length blocks s⟩

/-- Both functions sort every array, whatever the size of its elements; and no access is
outside of the array, whatever the comparison answers. -/
theorem qsort_sorted {β : Type} (compR : Block size → Block size → β → σ → ℤ × σ) (arg : β)
    (blocks : List (Block size)) (s : σ) :
    (∃ result s', qsort comp (flat blocks) blocks.length s = some (flat result, s') ∧
      Sorted comp blocks result) ∧
    ∃ result s', qsortR compR arg (flat blocks) blocks.length s = some (flat result, s') ∧
      Sorted (fun a b => compR a b arg) blocks result :=
  ⟨outerLoop_sorted comp blocks s, outerLoop_sorted (fun a b => compR a b arg) blocks s⟩

end Hzlibc.Qsort
