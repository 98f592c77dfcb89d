import Mathlib.Data.List.Basic

/-!
Choosing from a list: the first member that has a property, or else the first
member.

A search that goes through several lists and prefers such members makes this
choice from the lists appended. The results below say when one of the lists
decides it alone, and when members may be left out of one list because a later
one begins with them.
-/

namespace Hzlibc.Search

open List

variable {α : Type*} {p q : α → Bool} {l l' : List α}

def prefer (p : α → Bool) (l : List α) : Option α := (l.find? p).or l.head?

theorem prefer_append :
    prefer p (l ++ l') = ((l.find? p).or (l'.find? p)).or (l.head?.or l'.head?) := by
  rw [prefer, find?_append, head?_append]

theorem prefer_of_find? {a : α} (h : l.find? p = some a) : prefer p l = some a := by
  rw [prefer, h, Option.some_or]

/-- Whatever comes after a list, the list decides when it has a preferred
member, or any member and there is no preferred one after it. -/
theorem prefer_append_left
    (h : (∃ a ∈ l, p a) ∨ l ≠ [] ∧ ∀ a ∈ l', ¬ p a) : prefer p (l ++ l') = prefer p l := by
  rw [prefer_append, prefer]
  rcases h with hfirst | ⟨hne, hnot⟩
  · obtain ⟨a, ha⟩ := Option.isSome_iff_exists.mp (find?_isSome.mpr hfirst)
    simp [ha]
  · obtain ⟨a, ha⟩ := Option.isSome_iff_exists.mp (isSome_head?.mpr hne)
    rw [find?_eq_none.mpr hnot, Option.or_none, ha, Option.some_or]

theorem find?_filter_of_find? {a : α} (h : l.find? p = some a) (ha : q a) :
    (l.filter q).find? p = some a := by
  obtain ⟨hp, l₁, l₂, rfl, hnot⟩ := find?_eq_some_iff_append.mp h
  rw [find?_filter]
  refine find?_eq_some_iff_append.mpr ⟨by simp [hp, ha], l₁, l₂, rfl, fun x hx => ?_⟩
  have hx : p x = false := by simpa using hnot x hx
  simp [hx]

/-- A list may leave out what the next one begins with, unless it would have
chosen it over another member of the same kind. -/
theorem prefer_filter_append (hdrop : ∀ a ∈ l, q a = false → l'.head? = some a)
    (hfree : ∀ a, prefer p l = some a → q a = false → ∀ b ∈ l, q b → p b ≠ p a) :
    prefer p (l.filter q ++ l') = prefer p (l ++ l') := by
  rw [prefer_append, prefer_append]
  cases hl : l.find? p with
  | some a =>
    have hmem : a ∈ l := mem_of_find?_eq_some hl
    have hp : p a = true := find?_some hl
    cases hq : q a with
    | true => simp [find?_filter_of_find? hl hq]
    | false =>
      have hnone : (l.filter q).find? p = none := by
        refine find?_eq_none.mpr fun b hb hpb => ?_
        obtain ⟨hb, hqb⟩ := mem_filter.mp hb
        exact hfree a (prefer_of_find? hl) hq b hb hqb (hpb.trans hp.symm)
      have hl' : l'.find? p = some a := by
        obtain ⟨rest, rfl⟩ := head?_eq_some_iff.mp (hdrop a hmem hq)
        exact find?_cons_of_pos hp
      simp [hnone, hl']
  | none =>
    have hnot : ∀ a ∈ l, p a = false := fun a ha => by
      simpa using find?_eq_none.mp hl a ha
    have hnone : (l.filter q).find? p = none :=
      find?_eq_none.mpr fun b hb => by simp [hnot b (mem_filter.mp hb).1]
    have hhead : (l.filter q).head?.or l'.head? = l.head?.or l'.head? := by
      cases l with
      | nil => rfl
      | cons a l =>
        cases hq : q a with
        | true => rw [filter_cons_of_pos hq]; rfl
        | false =>
          have hprefer : prefer p (a :: l) = some a := by
            rw [prefer, hl, Option.none_or, head?_cons]
          have hempty : (a :: l).filter q = [] := by
            refine filter_eq_nil_iff.mpr fun b hb hqb => ?_
            refine hfree a hprefer hq b hb hqb ?_
            rw [hnot b hb, hnot a (mem_cons_self ..)]
          rw [hempty, hdrop a (mem_cons_self ..) hq]
          rfl
    rw [hnone, hhead]

end Hzlibc.Search
