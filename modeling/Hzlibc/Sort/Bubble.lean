import Mathlib.Data.List.Chain

/-!
Sorting by passes over neighbours.

A pass carries the greater element of each pair on to the next one. The test is asked
with a state, so that nothing is assumed of it: it may count its calls, or give
another answer to the same question. What a pass does to the multiset of the elements
does not depend on the answers. That passes come to an end with a sorted list does; the
second part is about tests whose answers are those of a total preorder.
-/

namespace Hzlibc.Bubble

open List

variable {α σ : Type} (gt : α → α → σ → Bool × σ)

/-- A pass over `x :: l`: the elements afterwards, and whether any two changed places. -/
def bubble (x : α) : List α → σ → List α × Bool × σ
  | [], s => ([x], false, s)
  | y :: l, s =>
    if (gt x y s).1 then
      let r := bubble x l (gt x y s).2
      (y :: r.1, true, r.2.2)
    else
      let r := bubble y l (gt x y s).2
      (x :: r.1, r.2)

def pass : List α → σ → List α × Bool × σ
  | [], s => ([], false, s)
  | x :: l, s => bubble gt x l s

/-- Up to `n` passes, and no more after one in which nothing changed. -/
def sort : ℕ → List α → σ → List α × σ
  | 0, l, s => (l, s)
  | n + 1, l, s =>
    let r := pass gt l s
    if r.2.1 then sort n r.1 r.2.2 else (r.1, r.2.2)

variable {gt}

theorem bubble_perm (x : α) (l : List α) (s : σ) : (bubble gt x l s).1.Perm (x :: l) := by
  induction l generalizing x s with
  | nil => exact .refl _
  | cons y l ih =>
    rw [bubble]
    split
    · exact ((ih x _).cons y).trans (.swap x y l)
    · exact (ih y _).cons x

theorem pass_perm (l : List α) (s : σ) : (pass gt l s).1.Perm l := by
  cases l with
  | nil => exact .refl _
  | cons x l => exact bubble_perm x l s

theorem sort_perm (n : ℕ) (l : List α) (s : σ) : (sort gt n l s).1.Perm l := by
  induction n generalizing l s with
  | zero => exact .refl _
  | succ n ih =>
    rw [sort]
    split
    · exact (ih _ _).trans (pass_perm l s)
    · exact pass_perm l s

/-! ### Tests that answer for a preorder -/

variable {x y : α} {s : σ} {l : List α}

section Preorder

variable {le : α → α → Prop}

/-- The test says of two elements whether they are in the wrong order, and that order is
a total preorder. -/
structure Decides (gt : α → α → σ → Bool × σ) (le : α → α → Prop) : Prop where
  answer : ∀ x y s, (gt x y s).1 = true ↔ ¬le x y
  total : ∀ x y, le x y ∨ le y x
  trans : ∀ x y z, le x y → le y z → le x z

variable (h : Decides gt le)

include h

theorem Decides.of_gt (hgt : (gt x y s).1 = true) : le y x :=
  (h.total x y).resolve_left ((h.answer x y s).mp hgt)

theorem Decides.of_not_gt (hgt : ¬(gt x y s).1 = true) : le x y :=
  not_not.mp fun hle => hgt ((h.answer x y s).mpr hle)

theorem Decides.not_gt (hle : le x y) (s : σ) : ¬(gt x y s).1 = true :=
  fun hgt => (h.answer x y s).mp hgt hle

theorem bubble_of_pairwise (hl : (x :: l).Pairwise le) (s : σ) : (bubble gt x l s).1 = x :: l := by
  induction l generalizing x s with
  | nil => rfl
  | cons y l ih =>
    obtain ⟨hx, hy⟩ := pairwise_cons.mp hl
    rw [bubble, if_neg (h.not_gt (hx y mem_cons_self) s)]
    exact congrArg (x :: ·) (ih hy _)

/-- The greatest element of the front comes to stand right before the elements that are
in their places already, and these stay there. -/
theorem bubble_append {front back : List α} (hback : back.Pairwise le)
    (hle : ∀ a ∈ x :: front, ∀ b ∈ back, le a b) (s : σ) :
    ∃ rest top, (bubble gt x (front ++ back) s).1 = rest ++ top :: back ∧
      (rest ++ [top]).Perm (x :: front) ∧ ∀ a ∈ x :: front, le a top := by
  induction front generalizing x s with
  | nil =>
    have hx : le x x := (h.total x x).elim id id
    refine ⟨[], x, ?_, .refl _, by simpa using hx⟩
    exact bubble_of_pairwise h (pairwise_cons.mpr ⟨hle x mem_cons_self, hback⟩) s
  | cons y front ih =>
    obtain ⟨hx, hy, hfront⟩ : (∀ b ∈ back, le x b) ∧ (∀ b ∈ back, le y b) ∧
        ∀ a ∈ front, ∀ b ∈ back, le a b := by simpa [or_imp, forall_and] using hle
    rw [cons_append, bubble]
    split
    · rename_i hgt
      obtain ⟨rest, top, hrest, hperm, htop⟩ :=
        ih (x := x) (forall_mem_cons.mpr ⟨hx, hfront⟩) (gt x y s).2
      obtain ⟨hxtop, hfronttop⟩ := forall_mem_cons.mp htop
      refine ⟨y :: rest, top, congrArg (y :: ·) hrest, (hperm.cons y).trans (.swap x y front), ?_⟩
      have hytop : le y top := h.trans y x top (h.of_gt hgt) hxtop
      exact forall_mem_cons.mpr ⟨hxtop, forall_mem_cons.mpr ⟨hytop, hfronttop⟩⟩
    · rename_i hgt
      obtain ⟨rest, top, hrest, hperm, htop⟩ :=
        ih (x := y) (forall_mem_cons.mpr ⟨hy, hfront⟩) (gt x y s).2
      refine ⟨x :: rest, top, congrArg (x :: ·) hrest, hperm.cons x, ?_⟩
      have hxtop : le x top := h.trans x y top (h.of_not_gt hgt) (htop y mem_cons_self)
      exact forall_mem_cons.mpr ⟨hxtop, htop⟩

/-- The last `k` elements are in their places. -/
def Settled (le : α → α → Prop) (k : ℕ) (l : List α) : Prop :=
  ∃ front back, l = front ++ back ∧ min k l.length ≤ back.length ∧ back.Pairwise le ∧
    ∀ a ∈ front, ∀ b ∈ back, le a b

theorem pass_settled {k : ℕ} (hl : Settled le k l) (s : σ) :
    Settled le (k + 1) (pass gt l s).1 := by
  obtain ⟨front, back, rfl, hk, hback, hle⟩ := hl
  cases front with
  | nil =>
    cases back with
    | nil => exact ⟨[], [], rfl, Nat.min_le_right _ _, .nil, by simp⟩
    | cons x l =>
      have hpass : (pass gt (x :: l) s).1 = x :: l := bubble_of_pairwise h hback s
      rw [nil_append, hpass]
      exact ⟨[], x :: l, rfl, Nat.min_le_right _ _, hback, by simp⟩
  | cons x front =>
    obtain ⟨rest, top, hrest, hperm, htop⟩ := bubble_append h hback hle s
    refine ⟨rest, top :: back, hrest, ?_, ?_, ?_⟩
    · have hlength := hperm.length_eq
      simp at hk hlength ⊢
      omega
    · refine pairwise_cons.mpr ⟨hle top ?_, hback⟩
      exact hperm.subset (mem_append_right rest mem_cons_self)
    · intro a ha
      have ha' : a ∈ x :: front := hperm.subset (mem_append_left [top] ha)
      exact forall_mem_cons.mpr ⟨htop a ha', hle a ha'⟩

omit h in
theorem bubble_unchanged (hchanged : (bubble gt x l s).2.1 = false) (h : Decides gt le) :
    (bubble gt x l s).1 = x :: l ∧ (x :: l).IsChain le := by
  induction l generalizing x s with
  | nil => exact ⟨rfl, .singleton x⟩
  | cons y l ih =>
    rw [bubble] at hchanged ⊢
    split at hchanged
    · cases hchanged
    rename_i hgt
    obtain ⟨heq, hchain⟩ := ih hchanged
    rw [if_neg hgt]
    exact ⟨congrArg (x :: ·) heq, .cons_cons (h.of_not_gt hgt) hchain⟩

theorem pass_unchanged (hchanged : (pass gt l s).2.1 = false) : (pass gt l s).1.Pairwise le := by
  cases l with
  | nil => exact .nil
  | cons x l =>
    have : IsTrans α le := ⟨h.trans⟩
    obtain ⟨heq, hchain⟩ := bubble_unchanged hchanged h
    rw [pass, heq]
    exact hchain.pairwise

theorem sort_settled {n k : ℕ} (hl : Settled le k l) (hn : l.length ≤ k + n) (s : σ) :
    (sort gt n l s).1.Pairwise le := by
  induction n generalizing k l s with
  | zero =>
    obtain ⟨front, back, rfl, hk, hback, -⟩ := hl
    rw [length_append] at hn hk
    have hfront : front = [] := length_eq_zero_iff.mp (by omega)
    rw [hfront]
    exact hback
  | succ n ih =>
    rw [sort]
    split
    · have hlength : (pass gt l s).1.length = l.length := (pass_perm l s).length_eq
      exact ih (pass_settled h hl s) (by omega) _
    · rename_i hchanged
      exact pass_unchanged h (Bool.eq_false_iff.mpr hchanged)

/-- As many passes as there are elements are enough. -/
theorem sort_pairwise (l : List α) (s : σ) : (sort gt l.length l s).1.Pairwise le :=
  sort_settled h ⟨l, [], by simp, by simp, .nil, by simp⟩ (Nat.le_add_left _ 0) s

/-! ### Elements that are neither before nor behind one another -/

/-- The elements as great as `a`. -/
def Same (le : α → α → Prop) (a x : α) : Prop := le a x ∧ le x a

omit h in
instance [DecidableRel le] (a : α) : DecidablePred (Same le a) :=
  fun x => inferInstanceAs (Decidable (le a x ∧ le x a))

theorem Decides.not_same {a : α} (hgt : (gt x y s).1 = true) (hx : Same le a x) :
    ¬Same le a y := fun hy => (h.answer x y s).mp hgt (h.trans x a y hx.2 hy.1)

variable (a : α) [DecidableRel le]

theorem bubble_filter_same (x : α) (l : List α) (s : σ) :
    (bubble gt x l s).1.filter (Same le a) = (x :: l).filter (Same le a) := by
  induction l generalizing x s with
  | nil => rfl
  | cons y l ih =>
    rw [bubble]
    split
    · rename_i hgt
      rw [filter_cons, ih x, filter_cons, filter_cons, filter_cons]
      by_cases hx : Same le a x
      · have hy : ¬Same le a y := h.not_same hgt hx
        simp [hx, hy]
      · simp [hx]
    · simp [filter_cons, ih y]

theorem pass_filter_same (l : List α) (s : σ) :
    (pass gt l s).1.filter (Same le a) = l.filter (Same le a) := by
  cases l with
  | nil => rfl
  | cons x l => exact bubble_filter_same h a x l s

theorem sort_filter_same (n : ℕ) (l : List α) (s : σ) :
    (sort gt n l s).1.filter (Same le a) = l.filter (Same le a) := by
  induction n generalizing l s with
  | zero => rfl
  | succ n ih =>
    rw [sort]
    split
    · exact (ih _ _).trans (pass_filter_same h a l s)
    · exact pass_filter_same h a l s

end Preorder

end Hzlibc.Bubble
