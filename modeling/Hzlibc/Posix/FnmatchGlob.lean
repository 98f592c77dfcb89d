import Hzlibc.Posix.FnmatchReading
import Mathlib.Data.List.Chain

/-!
`fnmatch` without flags on the patterns of ordinary characters, `?`, `*` and
bracket expressions.

A bracket expression lists single characters and ranges that ascend in the order
of `char`. A closing bracket is a member only in the first place, a hyphen only in
the first or, by itself, in the last place. These patterns are read as they are
meant, unless a single character stands before a hyphen in the last place of an
expression: the function takes the three characters up to the closing bracket for a
range, and what follows for more members.
-/

namespace Hzlibc.Fnmatch

open Stdio (Byte signed)
open Glob List

/-! ### Patterns -/

inductive Member
  | single (c : Byte)
  | range (first last : Byte)
  deriving DecidableEq

def Member.text : Member → CString
  | .single c => [c]
  | .range first last => [first, dash, last]

def Member.first : Member → Byte
  | .single c => c
  | .range first _ => first

def Member.accepts : Member → Byte → Bool
  | .single c => isChar c
  | .range first last => inRange first last

/-- The characters of a member can be written in a pattern. -/
def Member.Valid : Member → Prop
  | .single c => c ≠ 0
  | .range first last =>
    first ≠ 0 ∧ last ≠ 0 ∧ last ≠ closeBracket ∧ signed first ≤ signed last

structure Bracket where
  negated : Bool
  head : Member
  tail : List Member
  valid : ∀ m ∈ head :: tail, m.Valid
  /-- Otherwise it would be negated. -/
  start : negated = false → head.first ≠ bang ∧ head.first ≠ caret
  close : ∀ m ∈ tail, m.first ≠ closeBracket
  hyphen : (∀ m ∈ tail.dropLast, m.first ≠ dash) ∧ ∀ last, .range dash last ∉ tail
  /-- Otherwise a class would begin. -/
  noClass : (head :: tail).IsChain fun m m' => m = .single openBracket → m'.first ≠ colon

def Bracket.members (b : Bracket) : List Member := b.head :: b.tail

def membersText (ms : List Member) : CString := ms.flatMap Member.text

def Bracket.text (b : Bracket) : CString :=
  openBracket :: (if b.negated then [bang] else []) ++ membersText b.members ++ [closeBracket]

def Bracket.accepts (b : Bracket) (c : Byte) : Bool := b.members.any (·.accepts c) != b.negated

/-- A single character, and then a hyphen in the last place. -/
def endsInDash : List Member → Bool
  | [] => false
  | .single _ :: ms => ms = [.single dash] || endsInDash ms
  | .range _ _ :: ms => endsInDash ms

/-- The members as they are read: with such an end the last one is a range up to the
closing bracket. -/
def readAs : List Member → List Member
  | [] => []
  | .single c :: ms =>
    if ms = [.single dash] then [.range c closeBracket] else .single c :: readAs ms
  | .range first last :: ms => .range first last :: readAs ms

/-- The characters that stand for something else. -/
def special : List Byte := [0, anyChar, anySequence, openBracket]

inductive Atom
  | char (c : Byte) (h : c ∉ special)
  | any
  | bracket (b : Bracket)

def Atom.text : Atom → CString
  | .char c _ => [c]
  | .any => [anyChar]
  | .bracket b => b.text

def Atom.accepts : Atom → Byte → Bool
  | .char c _, d => c = d
  | .any, _ => true
  | .bracket b, d => b.accepts d

def Atom.judge (a : Atom) (c : Byte) : Verdict := if a.accepts c then .takes else .leaves

/-- The expression is read right, or it is negated and the character is found among
the members before the end. -/
def Atom.clear : Atom → Byte → Bool
  | .bracket b, c => !endsInDash b.members ||
      b.negated && !b.accepts c && (readAs b.members).any (·.accepts c)
  | _, _ => true

abbrev Pattern := List (Item Atom)

def itemText : Item Atom → CString
  | .one a => a.text
  | .star => [anySequence]

def patternText (p : Pattern) : CString := p.flatMap itemText

/-! ### How the expressions of a pattern are read -/

/-- The member is not taken for the start of a range or of a class with this text
behind it. -/
structure Apart (m : Member) (t : CString) : Prop where
  range : ∀ c, m = .single c → isRange t = false
  noClass : m = .single openBracket → t.head? ≠ some colon

theorem readMembers_member {m : Member} {first : Bool} {t : CString} (hapart : Apart m t)
    (hclose : first = false → m.first ≠ closeBracket) :
    readMembers first (m.text ++ t) =
      (m.accepts :: (readMembers false t).1, (readMembers false t).2) := by
  cases m with
  | single c =>
    have hopen : ¬(c = closeBracket ∧ first = false) := fun h => hclose h.2 h.1
    have hclass : ¬(c = openBracket ∧ t.head? = some colon) := by
      rintro ⟨rfl, hcolon⟩
      exact hapart.noClass rfl hcolon
    rw [Member.text, singleton_append, readMembers, if_neg hopen, if_neg hclass,
      hapart.range c rfl]
    rfl
  | range a b =>
    have hopen : ¬(a = closeBracket ∧ first = false) := fun h => hclose h.2 h.1
    have hclass : ¬(a = openBracket ∧ (dash :: b :: t).head? = some colon) := by
      rintro ⟨-, hcolon⟩
      exact absurd (Option.some.inj hcolon) (by decide)
    have hrange : isRange (dash :: b :: t) = true := by simp [isRange]
    rw [Member.text, cons_append, cons_append, cons_append, nil_append, readMembers, if_neg hopen,
      if_neg hclass, if_pos hrange]
    rfl

/-- Every member is told apart from what is behind it. -/
def AllApart : List Member → CString → Prop
  | [], _ => True
  | m :: ms, t => Apart m (membersText ms ++ t) ∧ AllApart ms t

theorem membersText_cons (m : Member) (ms : List Member) (t : CString) :
    membersText (m :: ms) ++ t = m.text ++ (membersText ms ++ t) := append_assoc ..

variable {ms : List Member}

theorem readMembers_append {t : CString} (hapart : AllApart ms t)
    (hclose : ∀ m ∈ ms, m.first ≠ closeBracket) :
    readMembers false (membersText ms ++ t) =
      (ms.map Member.accepts ++ (readMembers false t).1, (readMembers false t).2) := by
  induction ms with
  | nil => rfl
  | cons m ms ih =>
    obtain ⟨hm, hms⟩ := forall_mem_cons.mp hclose
    rw [membersText_cons, readMembers_member hapart.1 fun _ => hm, ih hapart.2 hms]
    rfl

/-- What the function takes for the text behind the members. -/
def behindMembers (ms : List Member) (t : CString) : CString :=
  if endsInDash ms then t else closeBracket :: t

theorem readAs_cons {m : Member} (h : ∀ c, m = .single c → ms ≠ [.single dash]) :
    readAs (m :: ms) = m :: readAs ms ∧ endsInDash (m :: ms) = endsInDash ms := by
  cases m with
  | range => exact ⟨rfl, rfl⟩
  | single c => simp [readAs, endsInDash, h c rfl]

theorem membersText_readAs (ms : List Member) (t : CString) :
    membersText (readAs ms) ++ behindMembers ms t = membersText ms ++ closeBracket :: t := by
  induction ms with
  | nil => rfl
  | cons m ms ih =>
    by_cases h : ∀ c, m = .single c → ms ≠ [.single dash]
    · obtain ⟨hread, hend⟩ := readAs_cons h
      rw [hread, behindMembers, hend, ← behindMembers, membersText_cons, ih, membersText_cons]
    · push Not at h
      obtain ⟨c, rfl, rfl⟩ := h
      simp [readAs, behindMembers, endsInDash, membersText, Member.text]

theorem readAs_eq_self (h : endsInDash ms = false) : readAs ms = ms := by
  induction ms with
  | nil => rfl
  | cons m ms ih =>
    have hcons : ∀ c, m = .single c → ms ≠ [.single dash] := by
      rintro c rfl rfl
      simp [endsInDash] at h
    obtain ⟨hread, hend⟩ := readAs_cons hcons
    rw [hread, ih (hend ▸ h)]

theorem exists_readAs (m : Member) (ms : List Member) :
    ∃ m' ms', readAs (m :: ms) = m' :: ms' ∧ m'.first = m.first ∧ ms' ⊆ readAs ms := by
  cases m with
  | range a b => exact ⟨_, _, rfl, rfl, List.Subset.refl _⟩
  | single c =>
    rw [readAs]
    split_ifs
    · exact ⟨_, _, rfl, rfl, nil_subset _⟩
    · exact ⟨_, _, rfl, rfl, List.Subset.refl _⟩

theorem first_of_mem_readAs {r : Member} (h : r ∈ readAs ms) : ∃ m ∈ ms, r.first = m.first := by
  induction ms with
  | nil => cases h
  | cons m ms ih =>
    obtain ⟨m', ms', hread, hfirst, hsub⟩ := exists_readAs m ms
    rw [hread] at h
    rcases mem_cons.mp h with rfl | hmem
    · exact ⟨m, mem_cons_self, hfirst⟩
    · obtain ⟨n, hn, heq⟩ := ih (hsub hmem)
      exact ⟨n, mem_cons_of_mem _ hn, heq⟩

theorem head?_membersText (m : Member) (ms : List Member) (t : CString) :
    (membersText (m :: ms) ++ t).head? = some m.first := by
  cases m <;> rfl

theorem apart_of_head? {m : Member} {t : CString} {c : Byte} (h : t.head? = some c)
    (hdash : ∀ d, m = .single d → c ≠ dash) (hcolon : m = .single openBracket → c ≠ colon) :
    Apart m t where
  range d hd := by simp [isRange, h, hdash d hd]
  noClass hm := by simpa [h] using hcolon hm

theorem allApart_readAs {m : Member} (t : CString) (hclose : ∀ m' ∈ ms, m'.first ≠ closeBracket)
    (hhyphen : ∀ m' ∈ ms.dropLast, m'.first ≠ dash) (hrange : ∀ last, .range dash last ∉ ms)
    (hclass : (m :: ms).IsChain fun m m' => m = .single openBracket → m'.first ≠ colon) :
    AllApart (readAs (m :: ms)) (behindMembers (m :: ms) t) := by
  induction ms generalizing m with
  | nil =>
    obtain ⟨hread, hend⟩ : readAs [m] = [m] ∧ endsInDash [m] = false := readAs_cons (by simp)
    rw [hread, behindMembers, hend]
    exact ⟨apart_of_head? (c := closeBracket) rfl (fun _ _ => by decide) fun _ => by decide,
      trivial⟩
  | cons m' ms ih =>
    obtain ⟨hclass', hclasses⟩ := isChain_cons_cons.mp hclass
    by_cases h : ∀ c, m = .single c → m' :: ms ≠ [.single dash]
    · obtain ⟨hread, hend⟩ := readAs_cons h
      obtain ⟨r, rs, hr, hfirst, -⟩ := exists_readAs m' ms
      rw [hread, behindMembers, hend, ← behindMembers]
      refine ⟨apart_of_head? (c := m'.first) ?_ ?_ hclass', ?_⟩
      · rw [hr, head?_membersText, hfirst]
      · rintro c rfl
        cases ms with
        | cons m'' ms => exact hhyphen m' (by simp)
        | nil =>
          -- a hyphen in the last place is a member by itself
          cases m' with
          | single d => simpa [Member.first] using h c rfl
          | range first last =>
            rintro rfl
            exact hrange last mem_cons_self
      · refine ih (fun m'' hm'' => hclose m'' (mem_cons_of_mem _ hm'')) ?_
          (fun last hlast => hrange last (mem_cons_of_mem _ hlast)) hclasses
        intro m'' hm''
        cases ms with
        | nil => cases hm''
        | cons => exact hhyphen m'' (mem_cons_of_mem _ hm'')
    · push Not at h
      obtain ⟨c, rfl, heq⟩ := h
      rw [readAs, if_pos heq]
      exact ⟨⟨nofun, nofun⟩, trivial⟩

theorem readMembers_bracket (b : Bracket) (t : CString) :
    readMembers true (membersText b.members ++ closeBracket :: t) =
      let behind := readMembers false (behindMembers b.members t)
      ((readAs b.members).map Member.accepts ++ behind.1, behind.2) := by
  have hapart := allApart_readAs t b.close b.hyphen.1 b.hyphen.2 b.noClass
  obtain ⟨r, rs, hread, -, hsub⟩ := exists_readAs b.head b.tail
  have hclose : ∀ r' ∈ rs, r'.first ≠ closeBracket := by
    intro r' hr'
    obtain ⟨m, hm, hfirst⟩ := first_of_mem_readAs (hsub hr')
    rw [hfirst]
    exact b.close m hm
  rw [hread] at hapart
  rw [← membersText_readAs, Bracket.members, hread, membersText_cons,
    readMembers_member hapart.1 (by simp), readMembers_append hapart.2 hclose]
  rfl

theorem readBracket_text (b : Bracket) (t : CString) :
    readBracket ((if b.negated then [bang] else []) ++ membersText b.members ++ closeBracket :: t) =
      let behind := readMembers false (behindMembers b.members t)
      (⟨b.negated, (readAs b.members).map Member.accepts ++ behind.1, behind.2.isSome⟩,
        behind.2) := by
  have hmembers := readMembers_bracket b t
  have hhead : (membersText b.members ++ closeBracket :: t).head? = some b.head.first :=
    head?_membersText _ _ _
  cases hneg : b.negated with
  | true => simp [readBracket, hmembers]
  | false =>
    have hstart : ¬(some b.head.first = some bang ∨ some b.head.first = some caret) := by
      simpa using b.start hneg
    simp only [Bool.false_eq_true, if_false, nil_append, readBracket, hhead, hstart, decide_false,
      hmembers]

theorem any_map_accepts (ms : List Member) (c : Byte) :
    (ms.map Member.accepts).any (· c) = ms.any (·.accepts c) :=
  any_map

/-- An item is read as it is meant to be, as long as the characters are clear. -/
theorem reading_atom (a : Atom) (t : CString) :
    ∃ seen p, reading (a.text ++ t) = .one seen :: p ∧ ∀ c, a.clear c = true →
      seen.judge c = a.judge c ∧ (a.judge c = .takes → p = reading t) := by
  cases a with
  | char c hc =>
    simp only [special, mem_cons, not_or] at hc
    obtain ⟨-, hany, hstar, hopen, -⟩ := hc
    refine ⟨⟨false, [isChar c], true⟩, reading t, ?_, fun d _ => ⟨?_, fun _ => rfl⟩⟩
    · rw [Atom.text, singleton_append, reading, if_neg hany, if_neg hstar, if_neg hopen]
    · simp [Seen.judge, Atom.judge, Atom.accepts, isChar]
  | any =>
    refine ⟨⟨true, [], true⟩, reading t, ?_, fun d _ => ⟨?_, fun _ => rfl⟩⟩
    · rw [Atom.text, singleton_append, reading, if_pos rfl]
    · simp [Seen.judge, Atom.judge, Atom.accepts]
  | bracket b =>
    have htext : (Atom.bracket b).text ++ t = openBracket ::
        ((if b.negated then [bang] else []) ++ membersText b.members ++ closeBracket :: t) := by
      simp [Atom.text, Bracket.text]
    obtain ⟨p, hreading, hp⟩ := reading_bracket
      ((if b.negated then [bang] else []) ++ membersText b.members ++ closeBracket :: t)
    rw [← htext, readBracket_text] at hreading
    rw [readBracket_text] at hp
    refine ⟨_, p, hreading, fun c hclear => ?_⟩
    cases hend : endsInDash b.members with
    | false =>
      have hbehind : readMembers false (behindMembers b.members t) = ([], some t) := by
        rw [behindMembers, hend, if_neg (by simp), readMembers, if_pos ⟨rfl, rfl⟩]
      simp only [hbehind, readAs_eq_self hend, append_nil, Option.isSome_some] at hp ⊢
      refine ⟨?_, fun _ => (hp t rfl).symm⟩
      simp only [Seen.judge, Atom.judge, Atom.accepts, Bracket.accepts, any_map_accepts]
      by_cases hneg : b.negated = true <;> by_cases hany : b.members.any (·.accepts c) = true <;>
        simp [hneg, hany]
    | true =>
      simp only [Atom.clear, hend, Bool.not_true, Bool.false_or, Bool.and_eq_true,
        Bool.not_eq_true'] at hclear
      obtain ⟨⟨hneg, hno⟩, hfound⟩ := hclear
      rw [← any_map_accepts] at hfound
      simp [Seen.judge, Atom.judge, Atom.accepts, hno, hneg, any_append, hfound]

theorem patternText_one (a : Atom) (p : Pattern) :
    patternText (.one a :: p) = a.text ++ patternText p := rfl

theorem patternText_star (p : Pattern) : patternText (.star :: p) = anySequence :: patternText p :=
  rfl

theorem reading_star (t : CString) : reading (anySequence :: t) = .star :: reading t := by
  rw [reading, if_neg (by decide), if_pos rfl]

/-- Without an expression that is misread the pattern is read as it is meant. -/
theorem pass_reading (inStar : Bool) (p : Pattern) (s : CString)
    (hmeets : ¬Meets Atom.judge Atom.clear (withStar inStar p) s) :
    Glob.pass Seen.judge inStar (reading (patternText p)) s = Glob.pass Atom.judge inStar p s := by
  fun_induction Glob.pass Atom.judge inStar p s with
  | case1 s => rw [patternText, flatMap_nil, reading, Glob.pass]
  | case2 s => rw [patternText, flatMap_nil, reading, Glob.pass]
  | case3 inStar rest => rw [patternText_star, reading_star, Glob.pass]
  | case4 inStar rest c s ih =>
    rw [patternText_star, reading_star, Glob.pass]
    refine ih ?_
    cases inStar with
    | false => exact hmeets
    | true => exact not_meets_stars hmeets
  | case5 inStar a rest =>
    obtain ⟨seen, p, hreading, -⟩ := reading_atom a (patternText rest)
    rw [patternText_one, hreading, Glob.pass]
  | case6 inStar a rest c s hc ih =>
    obtain ⟨seen, p, hreading, hseen⟩ := reading_atom a (patternText rest)
    have hturn : a.clear c = true ∧ ¬Meets Atom.judge Atom.clear rest s := by
      cases inStar with
      | false =>
        obtain ⟨hclear, hrest⟩ := not_meets_one hmeets
        exact ⟨hclear, hrest hc⟩
      | true =>
        obtain ⟨hclear, hrest, -⟩ := not_meets_star_one hmeets
        exact ⟨hclear, hrest hc⟩
    obtain ⟨hjudge, hp⟩ := hseen c hturn.1
    rw [patternText_one, hreading, Glob.pass, hjudge, hc, hp hc]
    exact ih hturn.2
  | case7 inStar a rest c s hc ih =>
    obtain ⟨seen, p, hreading, hseen⟩ := reading_atom a (patternText rest)
    rw [patternText_one, hreading] at ih ⊢
    cases inStar with
    | false =>
      rw [Glob.pass, (hseen c (not_meets_one hmeets).1).1, hc]
      rfl
    | true =>
      obtain ⟨hclear, -, hrest⟩ := not_meets_star_one hmeets
      rw [Glob.pass, (hseen c hclear).1, hc]
      exact ih (hrest hc)
  | case8 inStar a rest c s hc =>
    rw [Atom.judge] at hc
    split_ifs at hc

/-! ### The language -/

/-- The answer is the right one: 0 for the strings of the language, and otherwise
`FNM_NOMATCH`. -/
def Decides (p : Pattern) (s : CString) : Prop :=
  (fnmatch (patternText p) s 0 = 0 ↔ Matches Atom.judge p s) ∧
    (¬Matches Atom.judge p s → fnmatch (patternText p) s 0 = FNM_NOMATCH)

/-- The string is matched by first choices, or it ends behind a star. -/
def Taken (p : List (Item Seen)) (s : CString) : Prop :=
  MatchesFirst Seen.judge p s ∨ RunsOut Seen.judge p s

/-- The string does not end behind a star whose next item is still to come, and if it
can be matched at all then also by taking the first character that fits behind every
star. -/
structure Regular (p : Pattern) (s : CString) : Prop where
  enough : ¬RunsOut Atom.judge p s
  first : Matches Atom.judge p s → MatchesFirst Atom.judge p s

variable {p : Pattern} {s : CString}

theorem decides_iff_pass (hs : 0 ∉ s) :
    Decides p s ↔
      (Glob.pass Seen.judge false (reading (patternText p)) s = true ↔ Matches Atom.judge p s) := by
  have hpass : fnmatch (patternText p) s 0 = _ := loop_eq_answer false (patternText p) s hs
  rw [Decides, hpass, answer]
  cases Glob.pass Seen.judge false (reading (patternText p)) s <;> simp [FNM_NOMATCH]

def letterB : Atom := .char 98 (by decide)

def starB : Pattern := [.star, .one letterB]

theorem not_meets_starB (s : CString) : ¬Meets Atom.judge Atom.clear starB s := by
  refine not_meets_of_clear ?_ s
  intro a ha c
  obtain rfl : a = letterB := by simpa [starB] using ha
  rfl

end Hzlibc.Fnmatch
