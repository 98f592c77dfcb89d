import Hzlibc.Search.Breadth

/-!
Breadth-first order, by distance.

`within next root k` lists the nodes that are at most `k` steps from the root: the root
first, then the successors of the nodes that are at most `k - 1` steps away, list after
list, each node where it comes first. Nearer nodes therefore stand before farther ones,
and nodes of the same distance in the order of the lists that name them.

A walk that has come to its end has found this list for every large enough `k`
(`walk_eq_within`), and it holds what can be reached (`mem_walk_iff`). `Ends` is the loop
of `foldWalk` without a bound on its rounds.
-/

namespace Hzlibc.Search

open List hiding beq_eq_decide

variable {α β ε : Type*} [DecidableEq α] {next : α → List α}

def within (next : α → List α) (root : α) : ℕ → List α
  | 0 => [root]
  | k + 1 => (root :: (within next root k).flatMap next).eraseDups

/-- One node can be reached from another. -/
abbrev Reaches (next : α → List α) : α → α → Prop :=
  Relation.ReflTransGen fun a b => b ∈ next a

/-- The loop comes to its end, with this result. -/
inductive Ends (next : α → List α) (f : β → α → Except ε β) :
    ℕ → List α → β → Except ε β → Prop
  | stop {i : ℕ} {stack : List α} {b : β} (hread : stack[i]? = none) :
      Ends next f i stack b (.ok b)
  | exit {i : ℕ} {stack : List α} {b : β} {x : α} {e : ε} (hread : stack[i]? = some x)
      (hf : f b x = .error e) : Ends next f i stack b (.error e)
  | go {i : ℕ} {stack : List α} {b b' : β} {x : α} {r : Except ε β} (hread : stack[i]? = some x)
      (hf : f b x = .ok b') (hrest : Ends next f (i + 1) (pushNew stack (next x)) b' r) :
      Ends next f i stack b r

/-- A bound that does not cut the walk short is none. -/
theorem ends_foldWalk (f : β → α → Except ε β) (n i : ℕ) (stack : List α) (b : β)
    (h : (walk next n i stack).length ≤ i + n) :
    Ends next f i stack b (foldWalk next f n i stack b) := by
  induction n generalizing i stack b with
  | zero => exact .stop (getElem?_eq_none h)
  | succ n ih =>
    cases hx : stack[i]? with
    | none =>
      simp only [foldWalk, hx]
      exact .stop hx
    | some x =>
      simp only [walk, hx] at h
      simp only [foldWalk, hx]
      cases hf : f b x with
      | error e => exact .exit hx hf
      | ok b' => exact .go hx hf (ih (i + 1) _ b' (by omega))

/-! ### Pushing -/

@[simp] theorem pushNew_append (stack xs ys : List α) :
    pushNew stack (xs ++ ys) = pushNew (pushNew stack xs) ys := by
  induction xs generalizing stack with
  | nil => rfl
  | cons x xs ih => exact ih _

@[simp] theorem mem_pushNew {stack xs : List α} {y : α} :
    y ∈ pushNew stack xs ↔ y ∈ stack ∨ y ∈ xs := by
  induction xs generalizing stack with
  | nil => simp [pushNew]
  | cons x xs ih =>
    rw [pushNew, ih]
    split
    next hx =>
      grind
    · rw [mem_append, mem_singleton, mem_cons, or_assoc]

/-- What is pushed is what is new, each node once. -/
theorem pushNew_eq (stack xs : List α) :
    pushNew stack xs = stack ++ (xs.filter (· ∉ stack)).eraseDups := by
  induction xs generalizing stack with
  | nil => simp [pushNew]
  | cons x xs ih =>
    rw [pushNew]
    split
    next hx => rw [ih, filter_cons_of_neg (by simpa using hx)]
    next hx =>
      have hfilter : xs.filter (· ∉ stack ++ [x])
          = (xs.filter (· ∉ stack)).filter fun y => !y == x := by
        rw [filter_filter]
        exact filter_congr fun y _ => by simp [and_comm, beq_eq_decide]
      rw [ih, hfilter, filter_cons_of_pos (by simpa using hx), eraseDups_cons,
        append_assoc]
      rfl

theorem within_succ (root : α) (k : ℕ) :
    within next root (k + 1) = pushNew [root] ((within next root k).flatMap next) := by
  have hfilter (xs : List α) : (xs.filter fun y => !y == root) = xs.filter (· ∉ [root]) :=
    filter_congr fun y _ => by simp [beq_eq_decide]
  rw [within, pushNew_eq, eraseDups_cons, hfilter]
  rfl

theorem reaches_of_mem_within {root : α} {k : ℕ} {x : α} (h : x ∈ within next root k) :
    Reaches next root x := by
  induction k generalizing x with
  | zero =>
    rw [within, mem_singleton] at h
    rw [h]
  | succ k ih =>
    rw [within, mem_eraseDups, mem_cons, mem_flatMap] at h
    rcases h with rfl | ⟨y, hy, hx⟩
    · exact .refl
    · exact (ih hy).tail hx

/-! ### The nodes that have been read -/

/-- The vector of the walk when the nodes before position `i` have been read. -/
structure Stage (next : α → List α) (root : α) (i : ℕ) (stack : List α) : Prop where
  le : i ≤ stack.length
  eq : stack = pushNew [root] ((stack.take i).flatMap next)

theorem Stage.start (root : α) : Stage next root 0 [root] := ⟨Nat.zero_le _, rfl⟩

variable {stack : List α}

theorem Stage.read {root x : α} {i : ℕ} (h : Stage next root i stack)
    (hx : stack[i]? = some x) : Stage next root (i + 1) (pushNew stack (next x)) := by
  obtain ⟨hi, hxi⟩ := List.getElem?_eq_some_iff.mp hx
  obtain ⟨rest, hrest⟩ := pushNew_extends stack (next x)
  refine ⟨?_, ?_⟩
  · rw [← hrest, length_append]
    omega
  · have htake : (pushNew stack (next x)).take (i + 1) = stack.take i ++ [x] := by
      rw [← hrest, take_append_of_le_length hi, take_succ_eq_append_getElem hi, hxi]
    rw [htake, flatMap_append, pushNew_append, ← h.eq]
    simp

/-- The stages that a finished walk has gone through: every node was in the vector before
it was read. -/
theorem length_stage {root : α} (n i : ℕ) (h : Stage next root i stack)
    (hend : (walk next n i stack).length ≤ i + n) {m : ℕ} (hm : i ≤ m)
    (hlt : m < (walk next n i stack).length) :
    m < (pushNew [root] (((walk next n i stack).take m).flatMap next)).length := by
  induction n generalizing i stack with
  | zero => omega
  | succ n ih =>
    cases hx : stack[i]? with
    | none =>
      have hi := getElem?_eq_none_iff.mp hx
      simp only [walk, hx] at hlt
      omega
    | some x =>
      rw [walk_of_some hx] at hend hlt ⊢
      rcases Nat.eq_or_lt_of_le hm with rfl | hm
      · obtain ⟨hi, -⟩ := List.getElem?_eq_some_iff.mp hx
        obtain ⟨rest, hrest⟩ := (pushNew_extends stack (next x)).trans (walk_extends n (i + 1) _)
        rw [← hrest, List.take_append_of_le_length h.le, ← h.eq]
        exact hi
      · exact ih (i + 1) (h.read hx) (by omega) hm hlt

/-- A finished walk has read all its nodes. -/
theorem stage_walk {root : α} (n i : ℕ) (h : Stage next root i stack)
    (hend : (walk next n i stack).length ≤ i + n) :
    walk next n i stack = pushNew [root] ((walk next n i stack).flatMap next) := by
  induction n generalizing i stack with
  | zero =>
    have heq := h.eq
    rw [take_of_length_le (show stack.length ≤ i from hend)] at heq
    exact heq
  | succ n ih =>
    cases hx : stack[i]? with
    | none =>
      have heq := h.eq
      rw [take_of_length_le (getElem?_eq_none_iff.mp hx)] at heq
      simpa [walk, hx] using heq
    | some x =>
      simp only [walk, hx] at hend ⊢
      exact ih (i + 1) (h.read hx) (by omega)

/-! ### The finished walk -/

section

variable {root : α} {n : ℕ} (hend : (walk next n 0 [root]).length ≤ n)
include hend

theorem within_eq_take (k : ℕ) :
    ∃ m, within next root k = (walk next n 0 [root]).take m ∧
      (k < m ∨ (walk next n 0 [root]).length ≤ m) := by
  have hend' : (walk next n 0 [root]).length ≤ 0 + n := by omega
  have hwalk := stage_walk n 0 (Stage.start root) hend'
  induction k with
  | zero =>
    have hroot : [root] <+: walk next n 0 [root] := walk_extends n 0 [root]
    exact ⟨1, prefix_iff_eq_take.mp hroot, .inl Nat.one_pos⟩
  | succ k ih =>
    obtain ⟨m, hm, hlong⟩ := ih
    have hnext : within next root (k + 1)
        = pushNew [root] (((walk next n 0 [root]).take m).flatMap next) := by
      rw [within_succ, hm]
    by_cases hdone : (walk next n 0 [root]).length ≤ m
    · rw [take_of_length_le hdone, ← hwalk] at hnext
      exact ⟨m, by rw [hnext, take_of_length_le hdone], .inr hdone⟩
    · -- The rest of the walk comes behind what the first `m` nodes push.
      have hpre : within next root (k + 1) <+: walk next n 0 [root] := by
        rw [hwalk, ← take_append_drop m (walk next n 0 [root]), flatMap_append,
          pushNew_append, hnext]
        exact pushNew_extends _ _
      refine ⟨_, prefix_iff_eq_take.mp hpre, .inl ?_⟩
      have hm' := length_stage n 0 (Stage.start root) hend' (Nat.zero_le m)
      rw [← hnext] at hm'
      omega

/-- The walk lists the nodes in breadth-first order. -/
theorem walk_eq_within {k : ℕ} (hk : (walk next n 0 [root]).length ≤ k + 1) :
    walk next n 0 [root] = within next root k := by
  obtain ⟨m, hm, hlen⟩ := within_eq_take hend k
  rw [hm, take_of_length_le (by omega)]

theorem mem_walk_iff {x : α} : x ∈ walk next n 0 [root] ↔ Reaches next root x := by
  constructor
  · rw [walk_eq_within hend (Nat.le_succ _)]
    exact reaches_of_mem_within
  · intro h
    have hend' : (walk next n 0 [root]).length ≤ 0 + n := by omega
    have hwalk := stage_walk n 0 (Stage.start root) hend'
    induction h with
    | refl =>
      rw [hwalk]
      exact mem_pushNew.mpr (.inl (mem_singleton_self root))
    | tail _ hstep ih =>
      rw [hwalk]
      exact mem_pushNew.mpr (.inr (mem_flatMap.mpr ⟨_, ih, hstep⟩))

end

end Hzlibc.Search
