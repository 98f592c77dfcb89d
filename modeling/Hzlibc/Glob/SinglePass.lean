import Mathlib.Tactic.Common

/-!
Patterns of single characters and stars, and a matcher that goes over the string
once.

A pattern is a row of items; what a single item does with a character is a
parameter. The matcher keeps no alternatives: behind a star it takes the first
character that the next item takes, and it does not come back to a choice. It also
takes a string that ends while a star is being matched, whatever is left of the
pattern.

`Leads` describes the choices of the matcher. Its answer is the right one unless
the string runs out behind a star, or it belongs to the pattern only by another
choice.
-/

namespace Hzlibc.Glob

open List

inductive Item (β : Type)
  | one (b : β)
  | star

/-- What an item does with a character: it takes it, leaves it to the star before,
or ends the match. -/
inductive Verdict
  | takes
  | leaves
  | ends
  deriving DecidableEq

variable {α β : Type} (judge : β → α → Verdict)

/-- The string belongs to the language of the pattern. -/
inductive Matches : List (Item β) → List α → Prop
  | nil : Matches [] []
  | one {b : β} {c : α} {rest : List (Item β)} {s : List α} (hc : judge b c = .takes)
      (h : Matches rest s) : Matches (.one b :: rest) (c :: s)
  | star {rest : List (Item β)} {s : List α} (u : List α) (h : Matches rest s) :
      Matches (.star :: rest) (u ++ s)

/-- The matcher; the flag says whether a star has just been read. -/
def pass : Bool → List (Item β) → List α → Bool
  | false, [], s => s.isEmpty
  | true, [], _ => true
  | _, .star :: _, [] => true
  | _, .star :: rest, c :: s => pass true rest (c :: s)
  | inStar, .one _ :: _, [] => inStar
  | inStar, .one b :: rest, c :: s =>
    match judge b c with
    | .takes => pass false rest s
    | .leaves => inStar && pass true (.one b :: rest) s
    | .ends => false
termination_by _ items s => (s.length, items.length)

/-- Every item up to here has taken a character, behind a star the first one that
it does not leave. -/
inductive Leads : List (Item β) → List α → List (Item β) → List α → Prop
  | refl (p : List (Item β)) (s : List α) : Leads p s p s
  | one {b : β} {c : α} {rest p' : List (Item β)} {s s' : List α} (hc : judge b c = .takes)
      (h : Leads rest s p' s') : Leads (.one b :: rest) (c :: s) p' s'
  | stars {rest p' : List (Item β)} {s s' : List α} (h : Leads (.star :: rest) s p' s') :
      Leads (.star :: .star :: rest) s p' s'
  | star {b : β} {c : α} {rest p' : List (Item β)} {s s' : List α} (u : List α)
      (hu : ∀ d ∈ u, judge b d = .leaves) (hc : judge b c = .takes) (h : Leads rest s p' s') :
      Leads (.star :: .one b :: rest) (u ++ c :: s) p' s'

/-- The pattern and the string lead to a place with the property. -/
def LeadsTo (T : List (Item β) → List α → Prop) (p : List (Item β)) (s : List α) : Prop :=
  ∃ p' s', Leads judge p s p' s' ∧ T p' s'

def IsEnd (p : List (Item β)) (s : List α) : Prop := p = [] ∧ s = [] ∨ p = [.star]

/-- Behind a star, and the next item leaves all the characters. -/
def IsShort (p : List (Item β)) (s : List α) : Prop :=
  ∃ b rest, p = .star :: .one b :: rest ∧ ∀ d ∈ s, judge b d = .leaves

/-- The turn of an item and a character without the property; behind a star the
characters before have been left. -/
def IsTurn (clear : β → α → Bool) (p : List (Item β)) (s : List α) : Prop :=
  ∃ b rest u c s', s = u ++ c :: s' ∧ clear b c = false ∧
    (p = .one b :: rest ∧ u = [] ∨
      p = .star :: .one b :: rest ∧ ∀ d ∈ u, judge b d = .leaves)

/-- The string is matched with every item behind a star taking the first
character that it does not leave. -/
def MatchesFirst : List (Item β) → List α → Prop := LeadsTo judge IsEnd

/-- The string ends behind a star, and the next item has left all of it. -/
def RunsOut : List (Item β) → List α → Prop := LeadsTo judge (IsShort judge)

/-- An item and a character without the property come to their turn. -/
def Meets (clear : β → α → Bool) : List (Item β) → List α → Prop :=
  LeadsTo judge (IsTurn judge clear)

variable {judge} {T : List (Item β) → List α → Prop}

/-! ### Where a pattern leads -/

variable {s : List α} {rest p : List (Item β)} {b : β} {c : α}

theorem leadsTo_of_last (h : ∀ p' s', Leads judge p s p' s' → p' = p ∧ s' = s) :
    LeadsTo judge T p s ↔ T p s := by
  constructor
  · rintro ⟨p', s', hleads, hT⟩
    obtain ⟨rfl, rfl⟩ := h p' s' hleads
    exact hT
  · exact fun hT => ⟨p, s, .refl _ _, hT⟩

@[simp] theorem leadsTo_nil : LeadsTo judge T [] s ↔ T [] s := by
  refine leadsTo_of_last fun p' s' h => ?_
  cases h
  exact ⟨rfl, rfl⟩

theorem leadsTo_star : LeadsTo judge T [.star] s ↔ T [.star] s := by
  refine leadsTo_of_last fun p' s' h => ?_
  cases h
  exact ⟨rfl, rfl⟩

@[simp] theorem leadsTo_one_nil : LeadsTo judge T (.one b :: rest) [] ↔ T (.one b :: rest) [] := by
  refine leadsTo_of_last fun p' s' h => ?_
  cases h
  exact ⟨rfl, rfl⟩

theorem leadsTo_one :
    LeadsTo judge T (.one b :: rest) (c :: s) ↔
      T (.one b :: rest) (c :: s) ∨ judge b c = .takes ∧ LeadsTo judge T rest s := by
  constructor
  · rintro ⟨p', s', h, hT⟩
    cases h with
    | refl => exact .inl hT
    | one hc h => exact .inr ⟨hc, p', s', h, hT⟩
  · rintro (hT | ⟨hc, p', s', h, hT⟩)
    · exact ⟨_, _, .refl _ _, hT⟩
    · exact ⟨p', s', .one hc h, hT⟩

theorem leadsTo_stars :
    LeadsTo judge T (.star :: .star :: rest) s ↔
      T (.star :: .star :: rest) s ∨ LeadsTo judge T (.star :: rest) s := by
  constructor
  · rintro ⟨p', s', h, hT⟩
    cases h with
    | refl => exact .inl hT
    | stars h => exact .inr ⟨p', s', h, hT⟩
  · rintro (hT | ⟨p', s', h, hT⟩)
    · exact ⟨_, _, .refl _ _, hT⟩
    · exact ⟨p', s', .stars h, hT⟩

@[simp] theorem leadsTo_star_nil :
    LeadsTo judge T (.star :: .one b :: rest) [] ↔ T (.star :: .one b :: rest) [] := by
  refine leadsTo_of_last fun p' s' h => ?_
  generalize hs : ([] : List α) = s at h
  cases h with
  | refl => exact ⟨rfl, rfl⟩
  | star u => cases u <;> cases hs

/-- The first character behind a star belongs to the next item, or to the star. -/
theorem Leads.of_star_cons {p' : List (Item β)} {s' : List α}
    (h : Leads judge (.star :: .one b :: rest) (c :: s) p' s') :
    (p' = .star :: .one b :: rest ∧ s' = c :: s) ∨ judge b c = .takes ∧ Leads judge rest s p' s' ∨
      judge b c = .leaves ∧ Leads judge (.star :: .one b :: rest) s p' s' := by
  generalize hs : c :: s = t at h
  cases h with
  | refl => exact .inl ⟨rfl, rfl⟩
  | star u hu hc h =>
    cases u with
    | nil =>
      cases hs
      exact .inr (.inl ⟨hc, h⟩)
    | cons d u =>
      cases hs
      obtain ⟨hd, hu⟩ := forall_mem_cons.mp hu
      exact .inr (.inr ⟨hd, .star u hu hc h⟩)

/-- The first character is the one that the item behind the star takes. -/
theorem leadsTo_star_of_takes (hc : judge b c = .takes) :
    LeadsTo judge T (.star :: .one b :: rest) (c :: s) ↔
      T (.star :: .one b :: rest) (c :: s) ∨ LeadsTo judge T rest s := by
  constructor
  · rintro ⟨p', s', h, hT⟩
    rcases h.of_star_cons with ⟨rfl, rfl⟩ | ⟨-, h⟩ | ⟨hleaves, -⟩
    · exact .inl hT
    · exact .inr ⟨p', s', h, hT⟩
    · cases hc.symm.trans hleaves
  · rintro (hT | ⟨p', s', h, hT⟩)
    · exact ⟨_, _, .refl _ _, hT⟩
    · exact ⟨p', s', .star [] (by simp) hc h, hT⟩

/-- A character that the item does not accept belongs to the star. -/
theorem leadsTo_star_of_leaves (hc : judge b c = .leaves)
    (hT : T (.star :: .one b :: rest) (c :: s) ↔ T (.star :: .one b :: rest) s) :
    LeadsTo judge T (.star :: .one b :: rest) (c :: s) ↔
      LeadsTo judge T (.star :: .one b :: rest) s := by
  constructor
  · rintro ⟨p', s', h, hend⟩
    rcases h.of_star_cons with ⟨rfl, rfl⟩ | ⟨htakes, -⟩ | ⟨-, h⟩
    · exact ⟨_, _, .refl _ _, hT.mp hend⟩
    · cases hc.symm.trans htakes
    · exact ⟨p', s', h, hend⟩
  · rintro ⟨p', s', h, hend⟩
    cases h with
    | refl => exact ⟨_, _, .refl _ _, hT.mpr hend⟩
    | star u hu hc' h =>
      exact ⟨p', s', .star (c :: u) (forall_mem_cons.mpr ⟨hc, hu⟩) hc' h, hend⟩

theorem leadsTo_or {T' : List (Item β) → List α → Prop} :
    LeadsTo judge (fun p s => T p s ∨ T' p s) p s ↔
      LeadsTo judge T p s ∨ LeadsTo judge T' p s := by
  constructor
  · rintro ⟨p', s', h, hT | hT⟩
    · exact .inl ⟨p', s', h, hT⟩
    · exact .inr ⟨p', s', h, hT⟩
  · rintro (⟨p', s', h, hT⟩ | ⟨p', s', h, hT⟩)
    · exact ⟨p', s', h, .inl hT⟩
    · exact ⟨p', s', h, .inr hT⟩

/-! ### What the matcher answers -/

/-- The pattern with the star that has just been read. -/
def withStar (inStar : Bool) (p : List (Item β)) : List (Item β) :=
  if inStar then .star :: p else p

variable (judge) in
/-- Where the matcher says yes. -/
def IsYes (p : List (Item β)) (s : List α) : Prop := IsEnd p s ∨ IsShort judge p s

theorem not_isYes_one : ¬IsYes judge (.one b :: rest) s := by
  rintro ((⟨h, -⟩ | h) | ⟨b', rest', h, -⟩) <;> cases h

theorem not_isYes_stars : ¬IsYes judge (.star :: .star :: rest) s := by
  rintro ((⟨h, -⟩ | h) | ⟨b', rest', h, -⟩) <;> cases h

theorem isYes_star_one :
    IsYes judge (.star :: .one b :: rest) s ↔ ∀ d ∈ s, judge b d = .leaves := by
  constructor
  · rintro ((⟨h, -⟩ | h) | ⟨b', rest', h, hs⟩)
    · cases h
    · cases h
    · cases h
      exact hs
  · exact fun hs => .inr ⟨b, rest, rfl, hs⟩

theorem leadsTo_isYes_star_nil (rest : List (Item β)) :
    LeadsTo judge (IsYes judge) (.star :: rest) [] := by
  induction rest with
  | nil => exact leadsTo_star.mpr (.inl (.inr rfl))
  | cons item rest ih =>
    cases item with
    | one b => exact leadsTo_star_nil.mpr (isYes_star_one.mpr (by simp))
    | star => exact leadsTo_stars.mpr (.inr ih)

theorem not_leadsTo_isYes_of_ends (hc : judge b c = .ends) :
    ¬LeadsTo judge (IsYes judge) (.star :: .one b :: rest) (c :: s) := by
  rintro ⟨p', s', h, hyes⟩
  rcases h.of_star_cons with ⟨rfl, rfl⟩ | ⟨htakes, -⟩ | ⟨hleaves, -⟩
  · cases hc.symm.trans (isYes_star_one.mp hyes c mem_cons_self)
  · cases hc.symm.trans htakes
  · cases hc.symm.trans hleaves

theorem pass_iff (inStar : Bool) (p : List (Item β)) (s : List α) :
    pass judge inStar p s = true ↔ LeadsTo judge (IsYes judge) (withStar inStar p) s := by
  fun_induction pass judge inStar p s with
  | case1 s =>
    rw [withStar, if_neg (by simp), leadsTo_nil, List.isEmpty_iff]
    constructor
    · exact fun hs => .inl (.inl ⟨rfl, hs⟩)
    · rintro ((⟨-, hs⟩ | h) | ⟨b, rest, h, -⟩)
      · exact hs
      · cases h
      · cases h
  | case2 s =>
    rw [withStar, if_pos rfl, leadsTo_star]
    exact iff_of_true rfl (.inl (.inr rfl))
  | case3 inStar rest =>
    refine iff_of_true rfl ?_
    cases inStar with
    | false => exact leadsTo_isYes_star_nil rest
    | true => exact leadsTo_isYes_star_nil (.star :: rest)
  | case4 inStar rest c s ih =>
    rw [ih]
    cases inStar with
    | false => rfl
    | true =>
      rw [withStar, withStar, if_pos rfl, if_pos rfl, leadsTo_stars, or_iff_right not_isYes_stars]
  | case5 inStar b rest =>
    cases inStar with
    | false =>
      rw [withStar, if_neg (by simp), leadsTo_one_nil]
      exact iff_of_false (by simp) not_isYes_one
    | true =>
      rw [withStar, if_pos rfl, leadsTo_star_nil, isYes_star_one]
      exact iff_of_true rfl (by simp)
  | case6 inStar b rest c s hc ih =>
    rw [ih, withStar, if_neg (by simp)]
    cases inStar with
    | false =>
      rw [withStar, if_neg (by simp), leadsTo_one, or_iff_right not_isYes_one, and_iff_right hc]
    | true =>
      have hno : ¬IsYes judge (.star :: .one b :: rest) (c :: s) := by
        rw [isYes_star_one]
        intro h
        cases hc.symm.trans (h c mem_cons_self)
      rw [withStar, if_pos rfl, leadsTo_star_of_takes hc, or_iff_right hno]
  | case7 inStar b rest c s hc ih =>
    cases inStar with
    | false =>
      rw [withStar, if_neg (by simp), leadsTo_one, or_iff_right not_isYes_one]
      exact iff_of_false (by simp) fun h => by simp [hc] at h
    | true =>
      rw [Bool.true_and, ih, withStar, if_pos rfl, leadsTo_star_of_leaves hc]
      rw [isYes_star_one, isYes_star_one]
      simp [hc]
  | case8 inStar b rest c s hc =>
    refine iff_of_false (by simp) ?_
    cases inStar with
    | false =>
      rw [withStar, if_neg (by simp), leadsTo_one, or_iff_right not_isYes_one]
      exact fun h => by simp [hc] at h
    | true => exact not_leadsTo_isYes_of_ends hc

/-! ### The language -/

variable {p' : List (Item β)} {s' : List α}

theorem Leads.matches (h : Leads judge p s p' s') (h' : Matches judge p' s') :
    Matches judge p s := by
  induction h with
  | refl => exact h'
  | one hc _ ih => exact .one hc (ih h')
  | stars _ ih => exact .star [] (ih h')
  | star u _ hc _ ih => exact .star u (.one hc (ih h'))

theorem MatchesFirst.matches (h : MatchesFirst judge p s) : Matches judge p s := by
  obtain ⟨p', s', hleads, ⟨rfl, rfl⟩ | rfl⟩ := h
  · exact hleads.matches .nil
  · have hstar : Matches judge [.star] (s' ++ []) := .star s' .nil
    rw [append_nil] at hstar
    exact hleads.matches hstar

/-- An item behind a star takes a character, and the rest of the pattern
matches what follows it. -/
theorem Matches.of_star_one (h : Matches judge (.star :: .one b :: rest) s) :
    ∃ u c s', s = u ++ c :: s' ∧ judge b c = .takes ∧ Matches judge rest s' := by
  cases h with
  | star u h =>
    cases h with
    | one hc h => exact ⟨u, _, _, rfl, hc, h⟩

theorem suffix_of_cons_suffix_cons {d : α} {t : List α} (h : c :: t <:+ d :: s) : t <:+ s := by
  rcases suffix_cons_iff.mp h with heq | hsuffix
  · cases heq
    exact suffix_rfl
  · exact (suffix_cons _ _).trans hsuffix

/-- A suffix that starts with an accepted character starts behind those that are
not accepted. -/
theorem suffix_of_takes {d : α} {u t : List α} (hu : ∀ e ∈ u, judge b e = .leaves)
    (hd : judge b d = .takes) (h : d :: t <:+ u ++ c :: s) : t <:+ s := by
  induction u with
  | nil => exact suffix_of_cons_suffix_cons h
  | cons e u ih =>
    rcases suffix_cons_iff.mp h with heq | hsuffix
    · cases heq
      cases hd.symm.trans (hu d mem_cons_self)
    · exact ih (fun e' he' => hu e' (mem_cons_of_mem _ he')) hsuffix

/-- The choices of the matcher leave as much of the string as any others. -/
theorem Leads.not_matches (h : Leads judge p s p' s')
    (hno : ∀ t, t <:+ s' → ¬Matches judge p' t) : ∀ t, t <:+ s → ¬Matches judge p t := by
  induction h with
  | refl => exact hno
  | one _ _ ih =>
    intro t ht hmatches
    cases hmatches with
    | one _ h => exact ih hno _ (suffix_of_cons_suffix_cons ht) h
  | stars _ ih =>
    intro t ht hmatches
    cases hmatches with
    | star u h => exact ih hno _ ((suffix_append _ _).trans ht) h
  | star u hu hc _ ih =>
    intro t ht hmatches
    obtain ⟨v, d, t', rfl, hd, h⟩ := hmatches.of_star_one
    exact ih hno _ (suffix_of_takes hu hd ((suffix_append _ _).trans ht)) h

theorem RunsOut.not_matches (h : RunsOut judge p s) : ¬Matches judge p s := by
  obtain ⟨p', s', hleads, b, rest, rfl, hs⟩ := h
  refine hleads.not_matches ?_ s suffix_rfl
  intro t ht hmatches
  obtain ⟨u, c, t', rfl, hc, -⟩ := hmatches.of_star_one
  cases hc.symm.trans (hs c (ht.subset (by simp)))

theorem pass_iff_taken (p : List (Item β)) (s : List α) :
    pass judge false p s = true ↔ MatchesFirst judge p s ∨ RunsOut judge p s := by
  rw [pass_iff]
  exact leadsTo_or

/-- The matcher decides the language on a string if and only if the string does
not run out behind a star, and is matched by first choices if at all. -/
theorem pass_decides_iff (p : List (Item β)) (s : List α) :
    (pass judge false p s = true ↔ Matches judge p s) ↔
      ¬RunsOut judge p s ∧ (Matches judge p s → MatchesFirst judge p s) := by
  rw [pass_iff_taken]
  constructor
  · intro h
    have hshort : ¬RunsOut judge p s := fun hshort => hshort.not_matches (h.mp (.inr hshort))
    exact ⟨hshort, fun hmatches => (h.mpr hmatches).resolve_right hshort⟩
  · rintro ⟨hshort, hfirst⟩
    constructor
    · rintro (h | h)
      · exact h.matches
      · exact absurd h hshort
    · exact fun h => .inl (hfirst h)

/-! ### Items that do not come to their turn -/

variable {clear : β → α → Bool}

theorem not_meets_one (h : ¬Meets judge clear (.one b :: rest) (c :: s)) :
    clear b c = true ∧ (judge b c = .takes → ¬Meets judge clear rest s) := by
  rw [Meets, leadsTo_one, not_or] at h
  refine ⟨?_, fun hc hmeets => h.2 ⟨hc, hmeets⟩⟩
  by_contra hb
  exact h.1 ⟨b, rest, [], c, s, rfl, by simpa using hb, .inl ⟨rfl, rfl⟩⟩

theorem not_meets_stars (h : ¬Meets judge clear (.star :: .star :: rest) s) :
    ¬Meets judge clear (.star :: rest) s := by
  rw [Meets, leadsTo_stars, not_or] at h
  exact h.2

theorem isTurn_star_one :
    IsTurn judge clear (.star :: .one b :: rest) s ↔
      ∃ u c s', s = u ++ c :: s' ∧ clear b c = false ∧ ∀ d ∈ u, judge b d = .leaves := by
  constructor
  · rintro ⟨b', rest', u, c, s', hs, hc, ⟨h, -⟩ | ⟨h, hu⟩⟩
    · cases h
    · cases h
      exact ⟨u, c, s', hs, hc, hu⟩
  · rintro ⟨u, c, s', hs, hc, hu⟩
    exact ⟨b, rest, u, c, s', hs, hc, .inr ⟨rfl, hu⟩⟩

theorem not_meets_star_one (h : ¬Meets judge clear (.star :: .one b :: rest) (c :: s)) :
    clear b c = true ∧ (judge b c = .takes → ¬Meets judge clear rest s) ∧
      (judge b c = .leaves → ¬Meets judge clear (.star :: .one b :: rest) s) := by
  have hb : clear b c = true := by
    by_contra hb
    refine h ⟨_, _, .refl _ _, isTurn_star_one.mpr ⟨[], c, s, rfl, by simpa using hb, by simp⟩⟩
  refine ⟨hb, fun hc hmeets => h ?_, fun hc hmeets => h ?_⟩
  · exact (leadsTo_star_of_takes hc).mpr (.inr hmeets)
  · refine (leadsTo_star_of_leaves hc ?_).mpr hmeets
    rw [isTurn_star_one, isTurn_star_one]
    constructor
    · rintro ⟨u, d, s', hs, hd, hu⟩
      cases u with
      | nil =>
        cases hs
        cases hb.symm.trans hd
      | cons e u =>
        cases hs
        exact ⟨u, d, s', rfl, hd, fun d' hd' => hu d' (mem_cons_of_mem _ hd')⟩
    · rintro ⟨u, d, s', rfl, hd, hu⟩
      exact ⟨c :: u, d, s', rfl, hd, forall_mem_cons.mpr ⟨hc, hu⟩⟩

theorem Leads.subset (h : Leads judge p s p' s') : p' ⊆ p := by
  induction h with
  | refl => exact List.Subset.refl _
  | one _ _ ih | stars _ ih => exact subset_cons_of_subset _ ih
  | star _ _ _ _ ih => exact subset_cons_of_subset _ (subset_cons_of_subset _ ih)

theorem not_meets_of_clear (h : ∀ b, .one b ∈ p → ∀ c, clear b c = true) (s : List α) :
    ¬Meets judge clear p s := by
  rintro ⟨p', s', hleads, b, rest, u, c, t, -, hc, ⟨rfl, -⟩ | ⟨rfl, -⟩⟩
  · cases hc.symm.trans (h b (hleads.subset mem_cons_self) c)
  · cases hc.symm.trans (h b (hleads.subset (mem_cons_of_mem _ mem_cons_self)) c)

end Hzlibc.Glob
