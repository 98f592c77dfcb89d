import Mathlib.Data.List.Nodup
import Mathlib.Data.List.Perm.Basic

/-!
Tables whose rows have distinct keys.

A table is a list of rows, and every row has a key. As long as the keys are
distinct it stands for a map from keys to rows, and the three ways to change it
in place change one value of this map: a row is put in the place of one with the
same key, a row with a new key is added at the end, and a row is removed by
moving the last one to its place.
-/

namespace Hzlibc.Table

open List Function

variable {α κ : Type} {key : α → κ} {table : List α} {a b : α} {i : ℕ}

def row [DecidableEq κ] (key : α → κ) (table : List α) (k : κ) : Option α :=
  table.find? fun a => key a = k

section Row

variable [DecidableEq κ]

theorem row_eq_none_iff {k : κ} : row key table k = none ↔ k ∉ table.map key := by
  rw [row]
  simp

theorem row_eq_some_iff (hdistinct : (table.map key).Nodup) {k : κ} :
    row key table k = some a ↔ a ∈ table ∧ key a = k := by
  constructor
  · intro h
    exact ⟨mem_of_find?_eq_some h, by simpa using List.find?_some h⟩
  · rintro ⟨hmem, hkey⟩
    rcases hrow : row key table k with _ | b
    · rw [row_eq_none_iff] at hrow
      exact absurd (hkey ▸ mem_map_of_mem hmem) hrow
    · have hb : key b = k := by simpa using List.find?_some hrow
      rw [inj_on_of_nodup_map hdistinct hmem (mem_of_find?_eq_some hrow) (hkey.trans hb.symm)]

/-- The order of the rows does not matter. -/
theorem row_perm {table' : List α} (hperm : table.Perm table')
    (hdistinct : (table.map key).Nodup) : row key table = row key table' := by
  have hdistinct' := (hperm.map key).nodup_iff.1 hdistinct
  funext k
  apply Option.ext
  intro a
  rw [row_eq_some_iff hdistinct, row_eq_some_iff hdistinct', hperm.mem_iff]

theorem row_cons : row key (a :: table) = update (row key table) (key a) (some a) := by
  funext k
  rw [row, List.find?_cons, Function.update_apply]
  by_cases h : k = key a
  · rw [if_pos h, decide_eq_true h.symm]
  · rw [if_neg h, decide_eq_false (Ne.symm h)]
    rfl

/-- Without its first row a table has no value at the key. -/
theorem row_of_cons (hdistinct : ((a :: table).map key).Nodup) :
    row key table = update (row key (a :: table)) (key a) none := by
  obtain ⟨hnew, -⟩ := nodup_cons.1 hdistinct
  rw [row_cons, Function.update_idem, ← row_eq_none_iff.2 hnew, Function.update_eq_self]

end Row

/-! ### A new row -/

theorem nodup_append (hdistinct : (table.map key).Nodup) (hnew : key a ∉ table.map key) :
    ((table ++ [a]).map key).Nodup := by
  have hperm := (perm_append_singleton a table).map key
  exact hperm.nodup_iff.2 (nodup_cons.2 ⟨hnew, hdistinct⟩)

theorem row_append [DecidableEq κ] (hdistinct : (table.map key).Nodup)
    (hnew : key a ∉ table.map key) :
    row key (table ++ [a]) = update (row key table) (key a) (some a) := by
  rw [row_perm (perm_append_singleton a table) (nodup_append hdistinct hnew), row_cons]

/-! ### A row in the place of another one -/

section Set

variable (hdistinct : (table.map key).Nodup) (hi : i < table.length)
include hdistinct

theorem nodup_cons_eraseIdx : ((table[i] :: table.eraseIdx i).map key).Nodup :=
  ((getElem_cons_eraseIdx_perm hi).map key).nodup_iff.2 hdistinct

theorem row_eraseIdx [DecidableEq κ] :
    row key (table.eraseIdx i) = update (row key table) (key table[i]) none := by
  have hdistinct' := nodup_cons_eraseIdx hdistinct hi
  rw [row_of_cons hdistinct', row_perm (getElem_cons_eraseIdx_perm hi) hdistinct']

theorem nodup_set (hkey : key a = key table[i]) : ((table.set i a).map key).Nodup := by
  rw [((set_perm_cons_eraseIdx hi a).map key).nodup_iff, map_cons, hkey]
  exact nodup_cons_eraseIdx hdistinct hi

theorem row_set [DecidableEq κ] (hkey : key a = key table[i]) :
    row key (table.set i a) = update (row key table) (key a) (some a) := by
  rw [row_perm (set_perm_cons_eraseIdx hi a) (nodup_set hdistinct hi hkey), row_cons,
    row_eraseIdx hdistinct hi, hkey, Function.update_idem]

end Set

/-! ### Removing a row -/

/-- Moves the last row to the index. -/
def swapRemove (table : List α) (i : ℕ) : List α :=
  match table.getLast? with
  | none => []
  | some last => (table.set i last).dropLast

theorem swapRemove_append (front : List α) (last : α) (i : ℕ) :
    swapRemove (front ++ [last]) i = ((front ++ [last]).set i last).dropLast := by
  rw [swapRemove, List.getLast?_concat]

theorem swapRemove_perm (hi : i < table.length) : (swapRemove table i).Perm (table.eraseIdx i) := by
  rcases eq_nil_or_concat table with rfl | ⟨front, last, rfl⟩
  · exact absurd hi (Nat.not_lt_zero i)
  rw [concat_eq_append] at hi ⊢
  rw [swapRemove_append]
  rcases Nat.lt_or_ge i front.length with hlt | hge
  · rw [set_append_left _ _ hlt, dropLast_concat, eraseIdx_append_of_lt_length hlt]
    exact (set_perm_cons_eraseIdx hlt last).trans (perm_append_singleton ..).symm
  · obtain rfl : i = front.length := by
      rw [length_append, length_singleton] at hi
      omega
    rw [set_append_right _ _ hge, Nat.sub_self, set_cons_zero, dropLast_concat,
      eraseIdx_append_of_length_le hge, Nat.sub_self, eraseIdx_cons_zero, append_nil]

section SwapRemove

variable (hdistinct : (table.map key).Nodup) (hi : i < table.length)
include hdistinct hi

theorem nodup_swapRemove : ((swapRemove table i).map key).Nodup := by
  rw [((swapRemove_perm hi).map key).nodup_iff]
  exact (nodup_cons.1 (nodup_cons_eraseIdx hdistinct hi)).2

theorem row_swapRemove [DecidableEq κ] :
    row key (swapRemove table i) = update (row key table) (key table[i]) none := by
  rw [row_perm (swapRemove_perm hi) (nodup_swapRemove hdistinct hi), row_eraseIdx hdistinct hi]

end SwapRemove

end Hzlibc.Table
