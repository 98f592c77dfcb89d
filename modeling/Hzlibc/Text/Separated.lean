import Mathlib.Data.List.Basic

/-!
Rows of parts with a separator between them.

An empty text has no parts here, other than for `List.splitOn`, which makes one empty
part of it.
-/

namespace Hzlibc.Separated

open List

variable {α : Type}

def joined (sep : α) (ps : List (List α)) : List α := [sep].intercalate ps

def parts [DecidableEq α] (sep : α) (s : List α) : List (List α) :=
  if s = [] then [] else s.splitOn sep

variable {sep : α}

theorem joined_singleton (p : List α) : joined sep [p] = p := by
  simp [joined, List.intercalate]

variable {ps : List (List α)}

theorem joined_cons {p : List α} (h : ps ≠ []) :
    joined sep (p :: ps) = p ++ sep :: joined sep ps := by
  obtain ⟨q, ps, rfl⟩ := exists_cons_of_ne_nil h
  simp [joined, List.intercalate]

theorem joined_ne_nil (hne : ps ≠ []) (hps : ∀ p ∈ ps, p ≠ []) : joined sep ps ≠ [] := by
  obtain ⟨p, ps, rfl⟩ := exists_cons_of_ne_nil hne
  have hp : p ≠ [] := hps p mem_cons_self
  by_cases h : ps = []
  · rwa [h, joined_singleton]
  · rw [joined_cons h]
    simp [hp]

section DecidableEq

variable [DecidableEq α]

/-- The separator is in none of the parts. -/
theorem not_mem_of_mem_splitOn {s part : List α} (h : part ∈ s.splitOn sep) : sep ∉ part := by
  induction s generalizing part with
  | nil =>
    rw [splitOn_nil, mem_singleton] at h
    rw [h]
    exact not_mem_nil
  | cons c s ih =>
    rw [splitOn_cons_eq_if_modifyHead] at h
    split at h
    · rcases mem_cons.mp h with rfl | h
      · exact not_mem_nil
      · exact ih h
    next hne =>
      obtain ⟨first, rest, hsplit⟩ := exists_cons_of_ne_nil (splitOn_ne_nil sep s)
      rw [hsplit] at h ih
      rcases mem_cons.mp h with rfl | h
      · rw [mem_cons, not_or]
        refine ⟨?_, ih mem_cons_self⟩
        rintro rfl
        exact hne (by simp)
      · exact ih (mem_cons_of_mem _ h)

theorem parts_eq_nil {s : List α} : parts sep s = [] ↔ s = [] := by
  rw [parts]
  split
  next hs => exact iff_of_true rfl hs
  next hs => exact iff_of_false (splitOn_ne_nil sep s) hs

theorem joined_parts (s : List α) : joined sep (parts sep s) = s := by
  rw [parts]
  split
  next hs => rw [hs]; rfl
  · exact intercalate_splitOn sep

theorem parts_joined (hne : ∀ p ∈ ps, p ≠ []) (hps : ∀ p ∈ ps, sep ∉ p) :
    parts sep (joined sep ps) = ps := by
  rw [parts]
  by_cases h : ps = []
  · rw [h]
    rfl
  · rw [if_neg (joined_ne_nil h hne)]
    exact splitOn_intercalate sep hps h

theorem length_splitOn (s : List α) : (s.splitOn sep).length = s.count sep + 1 := by
  induction s with
  | nil => rfl
  | cons c s ih =>
    rw [splitOn_cons_eq_if_modifyHead]
    by_cases hc : c = sep
    · rw [if_pos (by simp [hc]), length_cons, ih, hc, count_cons_self]
    · rw [if_neg (by simp [hc]), length_modifyHead, ih, count_cons_of_ne hc]

/-- A separated text that is not empty has one part more than separators. -/
theorem length_parts {s : List α} (h : s ≠ []) : (parts sep s).length = s.count sep + 1 := by
  rw [parts, if_neg h, length_splitOn]

end DecidableEq

end Hzlibc.Separated
