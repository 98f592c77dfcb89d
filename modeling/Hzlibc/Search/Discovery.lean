import Mathlib.Data.List.Nodup

/-!
The order in which a worklist takes the nodes of a graph.

A traversal takes pending nodes one at a time. While a node is the last one
taken, its edges are read one by one: an edge to a node that is not known yet
makes that node pending, an edge to a known node changes nothing else. Nodes
are marked as known when they become pending.

The traversal does not sort. Whether every edge points to a node that was taken
later is decided by the edges to known nodes alone: such an edge is harmless
while its target is pending and fatal once its target has been taken.
-/

namespace Hzlibc.Search

open List

open scoped List

variable {α : Type*}

structure Discovery (α : Type*) where
  taken : List α
  pending : List α
  edge : α → α → Prop

namespace Discovery

def addEdge (edge : α → α → Prop) (a b : α) : α → α → Prop :=
  fun x y => edge x y ∨ x = a ∧ y = b

inductive Step : Discovery α → Discovery α → Prop
  | take {taken rest : List α} {edge : α → α → Prop} {x : α} :
      Step ⟨taken, x :: rest, edge⟩ ⟨taken ++ [x], rest, edge⟩
  | discover {taken pending : List α} {edge : α → α → Prop} {a b : α}
      (h : b ∉ (taken ++ [a]) ++ pending) :
      Step ⟨taken ++ [a], pending, edge⟩ ⟨taken ++ [a], b :: pending, addEdge edge a b⟩
  | link {taken pending : List α} {edge : α → α → Prop} {a b : α}
      (h : b ∈ pending) :
      Step ⟨taken ++ [a], pending, edge⟩ ⟨taken ++ [a], pending, addEdge edge a b⟩

/-- The step that a traversal must not make to take the nodes in order. -/
inductive Back : Discovery α → Discovery α → Prop
  | back {taken pending : List α} {edge : α → α → Prop} {a b : α}
      (h : b ∈ taken ++ [a]) :
      Back ⟨taken ++ [a], pending, edge⟩ ⟨taken ++ [a], pending, addEdge edge a b⟩

/-- Every edge points to a node taken after the one it starts from. -/
def Ordered (d : Discovery α) : Prop := ∀ a b, d.edge a b → [a, b] <+ d.taken

structure WellFormed (d : Discovery α) : Prop where
  nodup : (d.taken ++ d.pending).Nodup
  source : ∀ a b, d.edge a b → a ∈ d.taken
  target : ∀ a b, d.edge a b → b ∈ d.taken ++ d.pending

/-- No edge points to a node taken before. -/
def Forward (d : Discovery α) : Prop :=
  ∀ a b, d.edge a b → b ∈ d.pending ∨ [a, b] <+ d.taken

/-- Some edge points to a node taken before, or to its own start. -/
def Backward (d : Discovery α) : Prop :=
  ∃ a b, d.edge a b ∧ b ∈ d.taken ∧ ¬ [a, b] <+ d.taken

variable {d d' : Discovery α} {a b x : α} {l : List α}

/-! ### Two elements in order -/

theorem pair_sublist_append (ha : a ∈ l) : [a, b] <+ l ++ [b] :=
  (singleton_sublist.mpr ha).append (List.Sublist.refl [b])

theorem pair_sublist_of_append (h : [a, b] <+ l ++ [x]) (hb : b ≠ x) : [a, b] <+ l := by
  obtain ⟨l₁, l₂, heq, h₁, h₂⟩ := sublist_append_iff.mp h
  rcases sublist_singleton.mp h₂ with rfl | rfl
  · rw [heq, append_nil]
    exact h₁
  · have hlast := congrArg List.getLast? heq
    exact absurd (by simpa using hlast) hb

theorem not_pair_sublist_last (hl : (l ++ [a]).Nodup) : ¬ [a, b] <+ l ++ [a] := by
  intro h
  have ha : a ∉ l := fun hmem =>
    (nodup_append.mp hl).2.2 a hmem a (mem_singleton_self a) rfl
  by_cases hb : b = a
  · subst hb
    exact absurd (hl.sublist h) (by simp)
  · exact ha ((pair_sublist_of_append h hb).subset (mem_cons_self ..))

/-! ### Along a traversal -/

/-- An edge from the last node taken to a known one. -/
theorem WellFormed.addEdge {taken pending : List α} {edge : α → α → Prop}
    (hd : WellFormed ⟨taken ++ [a], pending, edge⟩) (hb : b ∈ (taken ++ [a]) ++ pending) :
    WellFormed ⟨taken ++ [a], pending, addEdge edge a b⟩ where
  nodup := hd.nodup
  source := by
    rintro x y (hxy | ⟨rfl, rfl⟩)
    · exact hd.source x y hxy
    · simp
  target := by
    rintro x y (hxy | ⟨rfl, rfl⟩)
    · exact hd.target x y hxy
    · exact hb

section

variable (hd : WellFormed d)
include hd

theorem WellFormed.step (h : Step d d') : WellFormed d' := by
  cases h with
  | take =>
    refine ⟨by simpa using hd.nodup, fun a b hab => ?_, fun a b hab => ?_⟩
    · exact mem_append_left _ (hd.source a b hab)
    · simpa using hd.target a b hab
  | @discover taken pending edge a b hb =>
    have hpush : WellFormed ⟨taken ++ [a], b :: pending, edge⟩ := by
      refine ⟨?_, hd.source, fun x y hxy => ?_⟩
      · exact nodup_middle.mpr (nodup_cons.mpr ⟨hb, hd.nodup⟩)
      · exact append_subset.mpr
          ⟨subset_append_left _ _, subset_append_of_subset_right _
            (subset_cons_self b pending)⟩ (hd.target x y hxy)
    exact hpush.addEdge (by simp)
  | link hb => exact hd.addEdge (mem_append_right _ hb)

theorem WellFormed.back (h : Back d d') : WellFormed d' := by
  cases h with
  | back hb => exact hd.addEdge (mem_append_left _ hb)

theorem Forward.step (hf : Forward d) (h : Step d d') : Forward d' := by
  cases h with
  | @take taken rest edge x =>
    intro a b hab
    rcases hf a b hab with hb | hb
    · rcases mem_cons.mp hb with rfl | hb
      · exact .inr (pair_sublist_append (hd.source a b hab))
      · exact .inl hb
    · exact .inr (hb.trans (sublist_append_left _ _))
  | discover hb =>
    rintro x y (hxy | ⟨rfl, rfl⟩)
    · exact (hf x y hxy).imp_left (mem_cons_of_mem _)
    · exact .inl (mem_cons_self ..)
  | link hb =>
    rintro x y (hxy | ⟨rfl, rfl⟩)
    · exact hf x y hxy
    · exact .inl hb

/-- The last node taken comes after every node taken, itself included. -/
theorem Backward.of_back (h : Back d d') : Backward d' := by
  cases h with
  | @back taken pending edge a b hb =>
    exact ⟨a, b, .inr ⟨rfl, rfl⟩, hb, not_pair_sublist_last hd.nodup.of_append_left⟩

/-- What is taken later does not change the order of what was taken before. -/
theorem Backward.step (hb : Backward d) (h : Step d d') : Backward d' := by
  obtain ⟨a, b, hab, hmem, hpair⟩ := hb
  cases h with
  | @take taken rest edge x =>
    refine ⟨a, b, hab, mem_append_left _ hmem, fun hsub => hpair ?_⟩
    refine pair_sublist_of_append hsub ?_
    rintro rfl
    exact (nodup_append.mp hd.nodup).2.2 b hmem b (mem_cons_self ..) rfl
  | discover | link => exact ⟨a, b, .inl hab, hmem, hpair⟩

/-! ### At the end -/

end

theorem Forward.ordered (hf : Forward d) (hp : d.pending = []) : Ordered d := by
  intro a b hab
  rcases hf a b hab with hb | hb
  · rw [hp] at hb
    cases hb
  · exact hb

theorem Backward.not_ordered (hb : Backward d) : ¬ Ordered d := by
  obtain ⟨a, b, hab, -, hpair⟩ := hb
  exact fun h => hpair (h a b hab)

end Discovery

end Hzlibc.Search
