import Hzlibc.Glob.SinglePass
import Hzlibc.Posix.Fnmatch

/-!
How `fnmatch` reads a pattern, and what it does with it.

Without flags a pattern is a row of items for the function: stars, and bracket
expressions whose members are tests of a character. Any other character, and `?`, is
an item with a test or none. An expression without its closing bracket goes on to the
end of the pattern, and ends the match. On the items the function is the matcher that
goes over the string once.
-/

namespace Hzlibc.Fnmatch

open Stdio (Byte signed)
open Glob List

/-! ### How a pattern is read -/

def plain : Flags := ⟨false, false, false⟩

def isChar (c d : Byte) : Bool := c = d

def inRange (first last d : Byte) : Bool := signed first ≤ signed d ∧ signed d ≤ signed last

/-- The members of a bracket expression as tests of a character, and the pattern behind
the closing bracket unless that is missing or a class has no end. -/
def readMembers : Bool → CString → List (Byte → Bool) × Option CString
  | _, [] => ([], none)
  | first, c :: rest =>
    if c = closeBracket ∧ first = false then ([], some rest)
    else if c = openBracket ∧ rest.head? = some colon then
      match classEnd (c :: rest) with
      | none => ([], none)
      | some n =>
        if n = 2 then ([], none)
        else
          let behind := readMembers false (rest.drop (n + 1))
          (inClass ((rest.drop 1).take (n - 2)) :: behind.1, behind.2)
    else if isRange rest then
      let behind := readMembers false (rest.drop 2)
      (inRange c (rest.getD 1 0) :: behind.1, behind.2)
    else
      let behind := readMembers false rest
      (isChar c :: behind.1, behind.2)
termination_by _ pattern => pattern.length
decreasing_by
  all_goals simp only [length_drop, length_cons]
  all_goals omega

/-- An item as it is read. -/
structure Seen where
  negated : Bool
  tests : List (Byte → Bool)
  closed : Bool

def Seen.judge (a : Seen) (c : Byte) : Verdict :=
  let found := a.tests.any (· c)
  if a.negated && found then .leaves
  else if a.closed = false then .ends
  else if a.negated || found then .takes
  else .leaves

/-- A bracket expression behind its opening bracket. -/
def readBracket (pattern : CString) : Seen × Option CString :=
  let negated : Bool := pattern.head? = some bang ∨ pattern.head? = some caret
  let members := readMembers true (if negated then pattern.tail else pattern)
  (⟨negated, members.1, members.2.isSome⟩, members.2)

theorem length_readMembers {first : Bool} {t rest : CString}
    (h : (readMembers first t).2 = some rest) : rest.length < t.length := by
  fun_induction readMembers first t with
  | case1 | case3 | case4 => cases h
  | case2 => cases h; exact Nat.lt_succ_self _
  | case5 _ _ _ _ _ _ _ _ _ ih | case6 _ _ _ _ _ _ _ ih | case7 _ _ _ _ _ _ _ ih =>
    have hlt := ih h
    simp only [length_drop, length_cons] at hlt ⊢
    omega

theorem length_readBracket {t rest : CString} (h : (readBracket t).2 = some rest) :
    rest.length < t.length := by
  have hlt := length_readMembers h
  split_ifs at hlt
  · rw [length_tail] at hlt
    omega
  · exact hlt

def reading : CString → List (Item Seen)
  | [] => []
  | c :: t =>
    if c = anyChar then .one ⟨true, [], true⟩ :: reading t
    else if c = anySequence then .star :: reading t
    else if c = openBracket then
      match _h : (readBracket t).2 with
      | some rest => .one (readBracket t).1 :: reading rest
      | none => [.one (readBracket t).1]
    else .one ⟨false, [isChar c], true⟩ :: reading t
termination_by pattern => pattern.length
decreasing_by
  all_goals simp only [length_cons]
  all_goals try exact Nat.lt_succ_self _
  exact Nat.lt_succ_of_lt (length_readBracket _h)

/-! ### The members of a bracket expression -/

/-- What becomes of an expression, and the pattern behind it. -/
def Group.verdict : Group → Verdict × CString
  | .excluded => (.leaves, [])
  | .invalid | .read _ [] => (.ends, [])
  | .read found (_ :: rest) => (if found then .takes else .leaves, rest)

/-- What the loop over the members comes to with these tests and this rest. -/
def outcome (exclude found any : Bool) (behind : Option CString) : Verdict × CString :=
  if exclude && any then (.leaves, [])
  else behind.elim (.ends, []) fun rest => (if found || any then .takes else .leaves, rest)

theorem outcome_step {exclude found any : Bool} {behind : Option CString} {next : Bool → Group}
    (h : ∀ found, (next found).verdict = outcome exclude found any behind) (test : Prop)
    [Decidable test] :
    (if test then if exclude then .excluded else next true else next found).verdict =
      outcome exclude found (decide test || any) behind := by
  by_cases htest : test
  · rw [if_pos htest, decide_eq_true htest]
    cases exclude with
    | false => simpa [outcome] using h true
    | true => rfl
  · rw [if_neg htest, decide_eq_false htest]
    exact h found

/-- The loop over the members looks for a test that holds. -/
theorem group_verdict (exclude : Bool) (strC : Byte) (first found : Bool) (t : CString) :
    (group plain exclude strC first found t).verdict =
      outcome exclude found ((readMembers first t).1.any (· strC)) (readMembers first t).2 := by
  fun_induction readMembers first t generalizing found with
  | case1 =>
    rw [group]
    simp [outcome, Group.verdict]
  | case2 first c rest h =>
    rw [group, if_pos h]
    simp [outcome, Group.verdict]
  | case3 first c rest h hclass hend =>
    rw [group, if_neg h, if_pos hclass, hend]
    simp [outcome, Group.verdict]
  | case4 first c rest h hclass hend =>
    rw [group, if_neg h, if_pos hclass, hend]
    simp [outcome, Group.verdict]
  | case5 first c rest h hclass n hend hn _ ih =>
    rw [group, if_neg h, if_pos hclass, hend]
    simp only [if_neg hn, any_cons]
    refine (outcome_step ih _).trans ?_
    rw [Bool.decide_eq_true]
  | case6 first c rest h hclass hrange _ ih =>
    rw [group, if_neg h, if_neg hclass]
    simp only [hrange, if_true, any_cons]
    exact outcome_step ih _
  | case7 first c rest h hclass hrange _ ih =>
    have hsame : (if plain.fold = true then Stdio.tolower c else c) = strC ∧
        (plain.path = false ∨ strC ≠ slash) ↔ c = strC := and_iff_left (.inl rfl)
    rw [group, if_neg h, if_neg hclass]
    simp only [hrange, any_cons, Bool.false_eq_true, if_false]
    refine (outcome_step ih _).trans ?_
    rw [decide_eq_decide.mpr hsame]
    rfl

theorem bracket_verdict (strC : Byte) (t : CString) :
    (bracket plain strC t).verdict.1 = (readBracket t).1.judge strC ∧
      ((readBracket t).1.judge strC = .takes →
        (readBracket t).2 = some (bracket plain strC t).verdict.2) := by
  have hbracket : (bracket plain strC t).verdict = outcome (readBracket t).1.negated
      (readBracket t).1.negated ((readBracket t).1.tests.any (· strC)) (readBracket t).2 := by
    rw [bracket]
    split_ifs with h
    · rw [group_verdict]
      simp [readBracket, h]
    · rw [group_verdict]
      simp [readBracket, h]
  have hclosed : (readBracket t).1.closed = (readBracket t).2.isSome := rfl
  rw [hbracket, outcome, Seen.judge, hclosed]
  cases (readBracket t).2 <;> grind

/-! ### The loop -/

/-- Where an item does not match: the pattern behind the star is tried again on
what follows. -/
def retry (star : Option CString) (rest : CString) : ℤ :=
  match star with
  | some p => loop plain star p rest
  | none => FNM_NOMATCH

/-- Behind the last item of the pattern there is a star. -/
theorem loop_some_nil {str : CString} (h : 0 ∉ str) : loop plain (some []) [] str = 0 := by
  induction str with
  | nil =>
    rw [loop.eq_def]
    rfl
  | cons c str ih =>
    rw [mem_cons, not_or] at h
    rw [loop.eq_def, if_neg (by simp)]
    simp only [plain, Bool.false_eq_true, if_false, headD_nil, tail_nil]
    rw [if_neg (by decide), if_neg (by decide), if_neg (by decide), if_pos (Ne.symm h.1)]
    exact ih h.2

section

variable (star : Option CString)
include star

theorem loop_cons (c : Byte) (t : CString) (strC : Byte) (rest : CString) :
    loop plain star (c :: t) (strC :: rest) =
      if c = anyChar then loop plain none t rest
      else if c = anySequence then loop plain (some t) t (strC :: rest)
      else if c = openBracket then
        match bracket plain strC t with
        | .invalid => FNM_NOMATCH
        | .excluded => retry star rest
        | .read _ [] => FNM_NOMATCH
        | .read found (_ :: pattern') =>
          if found then loop plain none pattern' rest else retry star rest
      else if strC ≠ c then retry star rest
      else loop plain none t rest := by
  rw [loop.eq_def plain star]
  cases star <;> rfl

theorem loop_nil (c : Byte) (t : CString) :
    loop plain star (c :: t) [] =
      if star ≠ none ∨ c = anySequence then 0 else FNM_NOMATCH := by
  rw [loop.eq_def plain star, if_neg (by simp)]
  rfl

@[simp] theorem loop_star_nil (t : CString) : loop plain star (anySequence :: t) [] = 0 := by
  rw [loop_nil, if_pos (.inr rfl)]

@[simp] theorem loop_star_cons (t : CString) (strC : Byte) (rest : CString) :
    loop plain star (anySequence :: t) (strC :: rest) = loop plain (some t) t (strC :: rest) := by
  rw [loop_cons, if_neg (by decide), if_pos rfl]

theorem loop_bracket (t : CString) (strC : Byte) (rest : CString) :
    loop plain star (openBracket :: t) (strC :: rest) =
      match (bracket plain strC t).verdict with
      | (.takes, pattern) => loop plain none pattern rest
      | (.leaves, _) => retry star rest
      | (.ends, _) => FNM_NOMATCH := by
  rw [loop_cons, if_neg (by decide), if_neg (by decide), if_pos rfl]
  cases bracket plain strC t with
  | excluded | invalid => rfl
  | read found pattern =>
    cases pattern with
    | nil => rfl
    | cons => cases found <;> rfl

end

/-- The answer for a pattern as it is read. -/
def answer (inStar : Bool) (p : List (Item Seen)) (s : CString) : ℤ :=
  if Glob.pass Seen.judge inStar p s then 0 else FNM_NOMATCH

theorem answer_one_cons (inStar : Bool) (a : Seen) (p : List (Item Seen)) (c : Byte)
    (s : CString) :
    answer inStar (.one a :: p) (c :: s) =
      match a.judge c with
      | .takes => answer false p s
      | .leaves => if inStar then answer true (.one a :: p) s else FNM_NOMATCH
      | .ends => FNM_NOMATCH := by
  rw [answer, Glob.pass]
  cases a.judge c with
  | takes => rfl
  | leaves => cases inStar <;> simp [answer]
  | ends => rfl

theorem reading_bracket (t : CString) :
    ∃ p, reading (openBracket :: t) = .one (readBracket t).1 :: p ∧
      ∀ rest, (readBracket t).2 = some rest → reading rest = p := by
  rw [reading, if_neg (by decide), if_neg (by decide), if_pos rfl]
  split
  next rest hrest => exact ⟨_, rfl, fun _ heq => by rw [Option.some.inj (hrest.symm.trans heq)]⟩
  next hnone => exact ⟨_, rfl, fun _ heq => absurd (hnone.symm.trans heq) (by simp)⟩

theorem exists_reading {c : Byte} (hc : c ≠ anySequence) (t : CString) :
    ∃ a p, reading (c :: t) = .one a :: p := by
  by_cases hopen : c = openBracket
  · obtain ⟨p, hreading, -⟩ := reading_bracket t
    exact ⟨_, p, hopen ▸ hreading⟩
  · rw [reading]
    split_ifs <;> exact ⟨_, _, rfl⟩

/-- The pattern has been read to its end. -/
theorem loop_eq_answer_end (inStar : Bool) {s : CString} (hs : 0 ∉ s) :
    loop plain (if inStar then some [] else none) [] s = answer inStar (reading []) s := by
  rw [reading, answer]
  cases inStar with
  | true => exact (loop_some_nil hs).trans (by cases s <;> rw [Glob.pass] <;> rfl)
  | false =>
    rw [loop.eq_def]
    cases s <;> rw [Glob.pass] <;> rfl

theorem loop_eq_answer_nil (inStar : Bool) (text : CString) :
    loop plain (if inStar then some text else none) text [] = answer inStar (reading text) [] := by
  cases text with
  | nil => exact loop_eq_answer_end inStar not_mem_nil
  | cons c t =>
    by_cases hstar : c = anySequence
    · subst hstar
      rw [loop_star_nil, reading, if_neg (by decide), if_pos rfl, answer, Glob.pass]
      rfl
    · obtain ⟨a, p, hreading⟩ := exists_reading hstar t
      rw [hreading, loop_nil, answer, Glob.pass]
      cases inStar <;> simp [hstar]

/-- The function is the matcher that goes over the string once, on the pattern as it
is read. -/
theorem loop_eq_answer (inStar : Bool) (text s : CString) (hs : 0 ∉ s) :
    loop plain (if inStar then some text else none) text s = answer inStar (reading text) s := by
  induction s generalizing inStar text with
  | nil => exact loop_eq_answer_nil inStar text
  | cons strC s ih =>
    have hrest : 0 ∉ s := fun hmem => hs (mem_cons_of_mem _ hmem)
    have hretry (text : CString) : retry (if inStar then some text else none) s =
        if inStar then answer true (reading text) s else FNM_NOMATCH := by
      cases inStar with
      | false => rfl
      | true => exact ih true text hrest
    induction text generalizing inStar with
    | nil => exact loop_eq_answer_end inStar hs
    | cons c t iht =>
      by_cases hstar : c = anySequence
      · subst hstar
        rw [loop_star_cons, reading, if_neg (by decide), if_pos rfl, answer, Glob.pass]
        exact iht true fun text => ih true text hrest
      obtain ⟨a, p, hreading⟩ := exists_reading hstar t
      rw [hreading, answer_one_cons, ← hreading, ← hretry]
      by_cases hopen : c = openBracket
      · subst hopen
        obtain ⟨_, hbracket, hp⟩ := reading_bracket t
        obtain ⟨⟨⟩, rfl⟩ := cons.inj (hreading.symm.trans hbracket)
        obtain ⟨hverdict, hbehind⟩ := bracket_verdict strC t
        rw [loop_bracket]
        generalize (bracket plain strC t).verdict = verdict at hverdict hbehind ⊢
        obtain ⟨verdict, pattern⟩ := verdict
        obtain rfl : verdict = _ := hverdict
        cases hjudge : (readBracket t).1.judge strC with
        | leaves | ends => rfl
        | takes => exact (ih false pattern hrest).trans (by rw [hp _ (hbehind hjudge)])
      rw [reading] at hreading
      split_ifs at hreading with hany
      · obtain ⟨⟨⟩, rfl⟩ := cons.inj hreading
        rw [loop_cons, if_pos hany]
        exact ih false t hrest
      · obtain ⟨⟨⟩, rfl⟩ := cons.inj hreading
        rw [loop_cons, if_neg hany, if_neg hstar, if_neg hopen]
        by_cases hc : strC = c
        · rw [if_neg (not_not_intro hc)]
          refine (ih false t hrest).trans ?_
          simp [Seen.judge, isChar, hc]
        · rw [if_pos hc]
          simp [Seen.judge, isChar, Ne.symm hc]

end Hzlibc.Fnmatch
