import Hzlibc.Text.CString

/-!
`fnmatch`.

The function goes over the pattern and the string once. When it has read a star
it remembers the pattern behind it, and goes back to that as long as the first
item there does not match; `pattern_at_star` is read only while `in_star` is set,
so that the two are one optional pattern here.
-/

namespace Hzlibc.Fnmatch

open Stdio (Byte signed isdigit isspace isxdigit tolower)

def FNM_NOMATCH : ℤ := 1

structure Flags where
  path : Bool
  leadingDir : Bool
  fold : Bool

/-- The bits of `flags` that the function looks at. -/
def Flags.ofBits (flags : BitVec 32) : Flags :=
  ⟨flags.getLsbD 0, flags.getLsbD 3, flags.getLsbD 4⟩

/-! ### Character classes -/

def isupper (c : Byte) : Bool := 65 ≤ c.toNat && c.toNat ≤ 90

def islower (c : Byte) : Bool := 97 ≤ c.toNat && c.toNat ≤ 122

def isalpha (c : Byte) : Bool := isupper c || islower c

def isalnum (c : Byte) : Bool := isalpha c || isdigit c

def isblank (c : Byte) : Bool := c = 9 || c = 32

def iscntrl (c : Byte) : Bool := c.toNat ≤ 31 || c = 127

def isprint (c : Byte) : Bool := 32 ≤ c.toNat && c.toNat ≤ 126

def isgraph (c : Byte) : Bool := 33 ≤ c.toNat && c.toNat ≤ 126

def ispunct (c : Byte) : Bool := isgraph c && !isalnum c

/-- Whether the character is in the class with the name. -/
def inClass (name : CString) (c : Byte) : Bool :=
  if name = literal "alnum" then isalnum c
  else if name = literal "alpha" then isalpha c
  else if name = literal "blank" then isblank c
  else if name = literal "cntrl" then iscntrl c
  else if name = literal "digit" then isdigit c
  else if name = literal "graph" then isgraph c
  else if name = literal "lower" then islower c
  else if name = literal "print" then isprint c
  else if name = literal "punct" then ispunct c
  else if name = literal "space" then isspace c
  else if name = literal "upper" then isupper c
  else if name = literal "xdigit" then isxdigit c
  else false

/-! ### Bracket expressions -/

def slash : Byte := '/'
def anyChar : Byte := '?'
def anySequence : Byte := '*'
def openBracket : Byte := '['
def closeBracket : Byte := ']'
def bang : Byte := '!'
def caret : Byte := '^'
def dash : Byte := '-'
def colon : Byte := ':'

/-- The number of characters before the next `:]`. -/
def classEnd : CString → Option ℕ
  | [] => none
  | c :: rest =>
    if c = colon ∧ rest.head? = some closeBracket then some 0 else (classEnd rest).map (· + 1)

/-- Whether a member goes on as a range. -/
def isRange (rest : CString) : Bool := rest.head? = some dash && 2 ≤ rest.length

/-- What the loop over the members of a bracket expression comes to. -/
inductive Group
  /-- The character is a member of a negated expression. -/
  | excluded
  /-- A class has no name or no end. -/
  | invalid
  /-- The pattern from the closing bracket on, or nothing if that is missing. -/
  | read (found : Bool) (rest : CString)

/-- The loop; `first` says whether it is at the start of the members. -/
def group (f : Flags) (exclude : Bool) (strC : Byte) : Bool → Bool → CString → Group
  | _, found, [] => .read found []
  | first, found, c :: rest =>
    if c = closeBracket ∧ first = false then .read found (c :: rest)
    else if c = openBracket ∧ rest.head? = some colon then
      match classEnd (c :: rest) with
      | none => .invalid
      | some n =>
        -- a class `[:]` has a name of negative length, which is none of the names
        if n = 2 then .invalid
        else if inClass ((rest.drop 1).take (n - 2)) strC then
          if exclude then .excluded else group f exclude strC false true (rest.drop (n + 1))
        else group f exclude strC false found (rest.drop (n + 1))
    else
      let current := if f.fold then tolower c else c
      if isRange rest then
        let last := if f.fold then tolower (rest.getD 1 0) else rest.getD 1 0
        if signed current ≤ signed strC ∧ signed strC ≤ signed last then
          if exclude then .excluded else group f exclude strC false true (rest.drop 2)
        else group f exclude strC false found (rest.drop 2)
      else if current = strC ∧ (f.path = false ∨ strC ≠ slash) then
        if exclude then .excluded else group f exclude strC false true rest
      else group f exclude strC false found rest
termination_by _ _ pattern => pattern.length
decreasing_by
  all_goals simp only [List.length_drop, List.length_cons]
  all_goals omega

/-- The pattern behind an opening bracket. -/
def bracket (f : Flags) (strC : Byte) (pattern : CString) : Group :=
  if pattern.head? = some bang ∨ pattern.head? = some caret then
    group f true strC true true pattern.tail
  else group f false strC true false pattern

/-! ### The loop -/

theorem fold_zero_ne (fold : Bool) : (if fold then tolower 0 else 0) ≠ anySequence := by
  cases fold <;> decide

def loop (f : Flags) (star : Option CString) (pattern str : CString) : ℤ :=
  if star = none ∧ pattern = [] then
    match str with
    | [] => 0
    | strC :: _ => if f.leadingDir ∧ strC = slash then 0 else FNM_NOMATCH
  else
    let c := pattern.headD 0
    match str with
    | [] => if star ≠ none ∨ c = anySequence then 0 else FNM_NOMATCH
    | strC :: rest =>
      let c' := if f.fold then tolower c else c
      -- the character of the string is replaced by that of the pattern here
      let strC' := if f.fold then tolower c' else strC
      let mismatch :=
        match star with
        | some p => loop f star p rest
        | none => FNM_NOMATCH
      if c' = anyChar then
        if f.path ∧ strC' = slash then
          if star = none ∧ f.leadingDir ∧ pattern.tail = [] then 0 else mismatch
        else loop f none pattern.tail rest
      else if c' = anySequence then loop f (some pattern.tail) pattern.tail (strC :: rest)
      else if c' = openBracket then
        match bracket f strC' pattern.tail with
        | .invalid => FNM_NOMATCH
        | .excluded => mismatch
        | .read _ [] => FNM_NOMATCH
        | .read found (_ :: pattern') => if found then loop f none pattern' rest else mismatch
      else if strC' ≠ c' then
        if star ≠ none ∧ (f.path = false ∨ strC' ≠ slash) then mismatch
        else if f.leadingDir ∧ pattern.tail = [] ∧ strC' = slash then 0
        else FNM_NOMATCH
      else loop f none pattern.tail rest
termination_by (str.length, pattern.length)
decreasing_by
  -- only a star leaves the string as it is
  all_goals try exact Prod.Lex.left _ _ (Nat.lt_succ_self _)
  cases pattern with
  | nil => exact absurd (by assumption) (fold_zero_ne f.fold)
  | cons => exact Prod.Lex.right _ (Nat.lt_succ_self _)

def fnmatch (pattern str : CString) (flags : BitVec 32) : ℤ :=
  loop (.ofBits flags) none pattern str

end Hzlibc.Fnmatch
