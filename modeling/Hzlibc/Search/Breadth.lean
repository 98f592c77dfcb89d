import Mathlib.Data.List.Nodup
import Mathlib.Data.List.Perm.Subperm

/-!
Breadth-first walks.

A walk keeps one vector: the nodes seen so far, in the order they were seen. It
reads the vector from the front and appends the successors of the node it reads
that are not in the vector yet. Marking happens when a node is appended, not
when it is read, so the vector is its own set of visited nodes.

A program that looks for something does not first walk and then look: it looks
at each node as it reads it and stops when it is satisfied. `foldWalk` is that
loop, and `foldWalk_eq` says that it does what folding over the finished walk
does. Both take a bound on the number of nodes read; `length_walk_le` gives one
that is large enough.
-/

namespace Hzlibc.Search

open List

variable {α β ε : Type*} [DecidableEq α]

/-- The vector with those of the nodes appended that it does not hold yet. -/
def pushNew (stack : List α) : List α → List α
  | [] => stack
  | x :: xs => pushNew (if x ∈ stack then stack else stack ++ [x]) xs

variable (next : α → List α)

/-- The nodes seen once at most `n` nodes have been read from position `i`. -/
def walk : ℕ → ℕ → List α → List α
  | 0, _, stack => stack
  | n + 1, i, stack =>
    match stack[i]? with
    | none => stack
    | some x => walk n (i + 1) (pushNew stack (next x))

/-- Look at every node as it is read. -/
def foldWalk (f : β → α → Except ε β) : ℕ → ℕ → List α → β → Except ε β
  | 0, _, _, b => .ok b
  | n + 1, i, stack, b =>
    match stack[i]? with
    | none => .ok b
    | some x => (f b x).bind (foldWalk f n (i + 1) (pushNew stack (next x)))

theorem pushNew_extends (stack xs : List α) : stack <+: pushNew stack xs := by
  induction xs generalizing stack with
  | nil => exact prefix_rfl
  | cons x xs ih =>
    refine List.IsPrefix.trans ?_ (ih _)
    split
    · exact prefix_rfl
    · exact prefix_append _ _

variable {stack : List α}

theorem pushNew_nodup (h : stack.Nodup) (xs : List α) : (pushNew stack xs).Nodup := by
  induction xs generalizing stack with
  | nil => exact h
  | cons x xs ih =>
    apply ih
    split
    · exact h
    next hx => exact List.Nodup.append h (nodup_singleton x) (by simpa using hx)

theorem pushNew_subset {stack xs all : List α} (hstack : stack ⊆ all) (hxs : xs ⊆ all) :
    pushNew stack xs ⊆ all := by
  induction xs generalizing stack with
  | nil => exact hstack
  | cons x xs ih =>
    obtain ⟨hx, hxs⟩ := cons_subset.mp hxs
    apply ih _ hxs
    split
    · exact hstack
    · exact append_subset.mpr ⟨hstack, by simpa using hx⟩

variable {next}

theorem walk_of_some {n i : ℕ} {x : α} (hx : stack[i]? = some x) :
    walk next (n + 1) i stack = walk next n (i + 1) (pushNew stack (next x)) := by
  simp [walk, hx]

/-- The invariant rule for walks. -/
theorem walk_invariant {I : List α → Prop} (hpush : ∀ stack x, I stack → I (pushNew stack (next x)))
    (n i : ℕ) (hs : I stack) : I (walk next n i stack) := by
  induction n generalizing i stack with
  | zero => exact hs
  | succ n ih =>
    cases hx : stack[i]? with
    | none => simpa [walk, hx] using hs
    | some x =>
      rw [walk_of_some hx]
      exact ih _ (hpush stack x hs)

theorem walk_extends (n i : ℕ) (stack : List α) : stack <+: walk next n i stack :=
  walk_invariant (fun _ x h => h.trans (pushNew_extends _ (next x))) n i prefix_rfl

theorem walk_nodup (n i : ℕ) (hs : stack.Nodup) : (walk next n i stack).Nodup :=
  walk_invariant (I := List.Nodup) (fun _ x h => pushNew_nodup h (next x)) n i hs

theorem walk_subset {all : List α} (hnext : ∀ x, next x ⊆ all) (n i : ℕ)
    (hs : stack ⊆ all) : walk next n i stack ⊆ all :=
  walk_invariant (I := (· ⊆ all)) (fun _ x h => pushNew_subset h (hnext x)) n i hs

/-- A walk sees no node twice, so it reads no more nodes than there are. -/
theorem length_walk_le {all : List α} (hnext : ∀ x, next x ⊆ all) (n i : ℕ)
    (hnodup : stack.Nodup) (hs : stack ⊆ all) : (walk next n i stack).length ≤ all.length :=
  (subperm_of_subset (walk_nodup n i hnodup) (walk_subset hnext n i hs)).length_le

/-- Looking at the nodes while walking is looking at them afterwards, when the
bound does not cut the walk short. -/
theorem foldWalk_eq (f : β → α → Except ε β) (n i : ℕ) (stack : List α) (b : β)
    (h : (walk next n i stack).length ≤ i + n) :
    foldWalk next f n i stack b = ((walk next n i stack).drop i).foldlM f b := by
  induction n generalizing i stack b with
  | zero =>
    rw [Nat.add_zero] at h
    rw [drop_eq_nil_of_le h]
    rfl
  | succ n ih =>
    cases hx : stack[i]? with
    | none =>
      have hi : stack.length ≤ i := List.getElem?_eq_none_iff.mp hx
      simp only [foldWalk, walk, hx, drop_eq_nil_of_le hi]
      rfl
    | some x =>
      rw [walk_of_some hx] at h ⊢
      have hget : (walk next n (i + 1) (pushNew stack (next x)))[i]? = some x := by
        obtain ⟨hi, -⟩ := List.getElem?_eq_some_iff.mp hx
        obtain ⟨rest, hrest⟩ := (pushNew_extends stack (next x)).trans (walk_extends n (i + 1) _)
        rw [← hrest, List.getElem?_append_left hi, hx]
      obtain ⟨hi, hxi⟩ := List.getElem?_eq_some_iff.mp hget
      rw [drop_eq_getElem_cons hi, hxi]
      simp [foldWalk, hx]
      refine congrArg (f b x).bind (funext fun b' => ?_)
      exact ih (i + 1) _ b' (by omega)

end Hzlibc.Search
