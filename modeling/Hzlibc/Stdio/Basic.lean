import Mathlib.Algebra.Order.Ring.Int

/-!
Characters, and what the standard streams take from elsewhere.

A `char` is a byte; the classification tables of the library are the ASCII
ones, also for the negative values that a signed `char` can have. Two things
the formatter and the scanner rely on are not part of the repository: the
number parser of the utility library, of which only the behaviour on a run of
decimal digits is assumed, and the arithmetic of `long double`, of which
nothing is.
-/

namespace Hzlibc.Stdio

abbrev Byte := BitVec 8

abbrev Wchar := BitVec 32

instance instCoeCharByte : Coe Char Byte := ⟨fun c => BitVec.ofNat 8 c.toNat⟩

/-! ### `ctype.h` -/

def isspace (c : Byte) : Bool := c = ' ' || (9 ≤ c.toNat && c.toNat ≤ 13)

def isdigit (c : Byte) : Bool := 48 ≤ c.toNat && c.toNat ≤ 57

def isxdigit (c : Byte) : Bool :=
  isdigit c || (65 ≤ c.toNat && c.toNat ≤ 70) || (97 ≤ c.toNat && c.toNat ≤ 102)

/-- The result for a negative `char` is the byte without its sign. -/
def tolower (c : Byte) : Byte := if 65 ≤ c.toNat ∧ c.toNat ≤ 90 then c + 32 else c

theorem isspace_of_isxdigit : ∀ c : Byte, isxdigit c = true → isspace c = false := by decide

/-- The value of a `char` as a signed number. -/
def signed (c : Byte) : ℤ := c.toInt

/-! ### Length modifiers -/

inductive State
  | none
  | hh
  | h
  | l
  | ll
  | j
  | z
  | t
  | L
  deriving DecidableEq

/-- The number of bits of an integer with the modifier; there is none for
`L`. -/
def State.bits : State → Option ℕ
  | .none => some 32
  | .hh => some 8
  | .h => some 16
  | .L => .none
  | _ => some 64

/-- The length modifier at the start of a format. -/
def scanState : List Byte → State × List Byte
  | [] => (.none, [])
  | c :: rest =>
    if c = 'h' then if rest.head? = some ('h' : Byte) then (.hh, rest.tail) else (.h, rest)
    else if c = 'l' then
      if rest.head? = some ('l' : Byte) then (.ll, rest.tail) else (.l, rest)
    else if c = 'j' then (.j, rest)
    else if c = 'z' then (.z, rest)
    else if c = 't' then (.t, rest)
    else if c = 'L' then (.L, rest)
    else (.none, c :: rest)

/-! ### C integers -/

def intMax : ℤ := 2 ^ 31 - 1

/-- A value reduced to an `int`. -/
def toInt32 (z : ℤ) : ℤ := z.bmod (2 ^ 32)

theorem toInt32_of_le {z : ℤ} (hneg : -2 ^ 31 ≤ z) (hle : z ≤ intMax) : toInt32 z = z := by
  simp only [intMax] at hle
  rw [toInt32, Int.bmod_eq_of_le (by omega) (by omega)]

def EOF : ℤ := -1

/-! ### Numbers in a format -/

/-- The number a run of decimal digits stands for. -/
def decimal (ds : List Byte) : ℕ := ds.foldl (fun n d => 10 * n + (d.toNat - 48)) 0

structure Hz where
  /-- `hz::to_integer<int>` in base 10: the number, and how many characters it
  takes up. -/
  toInteger : List Byte → ℤ × ℕ
  toInteger_digits : ∀ ds rest : List Byte, ds ≠ [] → (∀ d ∈ ds, isdigit d = true) →
    (∀ c ∈ rest.head?, isdigit c = false) → (decimal ds : ℤ) ≤ intMax →
    toInteger (ds ++ rest) = (↑(decimal ds), ds.length)

/-- A row that ends at the first character without the property. -/
theorem takeWhile_append_stop {α : Type} {p : α → Bool} {row rest : List α}
    (hrow : ∀ c ∈ row, p c = true) (hrest : ∀ c ∈ rest.head?, p c = false) :
    (row ++ rest).takeWhile p = row := by
  rw [List.takeWhile_append_of_pos hrow]
  rcases rest with _ | ⟨c, rest⟩
  · rw [List.takeWhile_nil, List.append_nil]
  · rw [List.takeWhile_cons_of_neg (by simp [hrest c rfl]), List.append_nil]

/-- A number parser with the assumed behaviour. -/
def Hz.plain : Hz where
  toInteger s := (↑(decimal (s.takeWhile isdigit)), (s.takeWhile isdigit).length)
  toInteger_digits ds rest _ hds hrest _ := by
    rw [takeWhile_append_stop hds hrest]

/-! ### `long double` -/

structure LongDouble (F : Type) where
  isfinite : F → Bool
  isinf : F → Bool
  /-- `value < 0`. -/
  isneg : F → Bool
  iszero : F → Bool
  beq : F → F → Bool
  neg : F → F
  add : F → F → F
  sub : F → F → F
  mul : F → F → F
  div : F → F → F
  ofInt : ℤ → F
  /-- Conversion to an integer, towards zero. -/
  toInt : F → ℤ
  half : F
  threeHalves : F
  /-- `frexpl`. -/
  frexpl : F → F × ℤ
  /-- `scalbn(1, n)`. -/
  scalbn : ℤ → F
  infinity : F
  nan : F

/-- Arithmetic without fractions, for programs that use none. -/
def LongDouble.integral : LongDouble ℤ where
  isfinite _ := true
  isinf _ := false
  isneg v := v < 0
  iszero v := v = 0
  beq v w := v = w
  neg v := -v
  add v w := v + w
  sub v w := v - w
  mul v w := v * w
  div v w := v / w
  ofInt n := n
  toInt v := v
  half := 0
  threeHalves := 1
  frexpl v := (v, 0)
  scalbn _ := 1
  infinity := 0
  nan := 0

end Hzlibc.Stdio
