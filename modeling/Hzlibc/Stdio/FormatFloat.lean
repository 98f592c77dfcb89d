import Hzlibc.Stdio.File

/-!
The floating-point conversions of `vfprintf`.

A conversion is a list of the pieces that it writes, in order. The digits of
`f`, `e` and `g` are computed in an array of groups of nine decimal digits;
`a` is the most significant group, `r` the one before the point and `z` is
behind the last. The arithmetic of `long double` is a parameter, so a loop that
ends when a value becomes zero has a bound on its rounds.
-/

namespace Hzlibc.Stdio

structure Flags where
  ljust : Bool
  sign : Bool
  space : Bool
  alt : Bool
  zero : Bool
  deriving DecidableEq

/-- A conversion as its directive and its arguments give it. -/
structure Spec where
  flags : Flags
  width : ℤ
  hasWidth : Bool
  precision : ℤ
  hasPrecision : Bool
  state : State
  conv : Byte

/-! ### Pieces -/

def pad (minWidth written : ℤ) (c : Byte) : List (List Byte) :=
  List.replicate (minWidth - written).toNat [c]

/-- `CHARS` and `LOWER_CHARS`. -/
def digitChar (upper : Bool) (d : ℕ) : Byte :=
  if d < 10 then BitVec.ofNat 8 (48 + d)
  else BitVec.ofNat 8 (if upper then 55 + d else 87 + d)

/-- The loop that writes digits from the last one on into a buffer. -/
def digitsLoop (upper : Bool) (base : ℕ) : ℕ → ℕ → List Byte → List Byte
  | 0, _, buf => buf
  | n + 1, value, buf =>
    if value / base = 0 then digitChar upper (value % base) :: buf
    else digitsLoop upper base n (value / base) (digitChar upper (value % base) :: buf)

/-- `write_int_to_buf`, which writes nothing for zero. -/
def writeIntToBuf (value : ℕ) : List Byte :=
  if value = 0 then [] else digitsLoop false 10 20 value []

/-- A string filled up with zeros on the left. -/
def zeroFill (size : ℕ) (str : List Byte) : List Byte :=
  List.replicate (size - str.length) ('0' : Byte) ++ str

/-- The exponent, with at least `size` digits. -/
def exponentString (marker : Byte) (size : ℕ) (exponent : ℤ) : List Byte :=
  marker :: (if exponent < 0 then ('-' : Byte) else '+') ::
    zeroFill size (writeIntToBuf exponent.natAbs)

namespace FormatFloat

variable {F : Type} (ld : LongDouble F) (rounds : ℕ)

/-! ### `a` -/

/-- The loop over the hexadecimal digits. -/
def hexLoop (specific : Byte) (point : Bool) : ℕ → F → List Byte → Except Fault (List Byte)
  | 0, _, _ => .error .rounds
  | n + 1, value, str =>
    let x := (ld.toInt value).toNat
    let value := ld.mul (ld.ofInt 16) (ld.sub value (ld.ofInt x))
    let str := str ++ [digitChar true x ||| (specific &&& 32)]
    let str := if str.length = 1 ∧ (!ld.iszero value || point) then str ++ [('.' : Byte)] else str
    if ld.iszero value then .ok str else hexLoop specific point n value str

/-- The rounding of `a` to its precision. -/
def hexRound (spec : Spec) (negative : Bool) (value : F) : F :=
  if spec.hasPrecision ∧ 0 ≤ spec.precision ∧ spec.precision < 16 then
    let round := ld.scalbn (63 - spec.precision * 4)
    if negative then ld.neg (ld.add (ld.sub (ld.neg value) round) round)
    else ld.sub (ld.add value round) round
  else value

def formatHex (spec : Spec) (negative : Bool) (value : F) (exponent : ℤ) :
    Except Fault (List (List Byte)) := do
  let upper := spec.conv &&& 32 = 0
  let value := hexRound ld spec negative value
  let eStr := exponentString (if upper then 'P' else 'p') 1 exponent
  let str ← hexLoop ld spec.conv (0 < spec.precision || spec.flags.alt) rounds value []
  let tmpLen : ℤ :=
    if spec.hasPrecision ∧ spec.precision ≠ 0 ∧ (str.length : ℤ) - 2 < spec.precision then
      spec.precision + 2 + eStr.length
    else str.length + eStr.length
  pure ((if negative then [[('-' : Byte)]] else []) ++
    [[('0' : Byte), if upper then 'X' else 'x'], str] ++
      pad (tmpLen - eStr.length - str.length) 0 '0' ++ [eStr])

/-! ### Groups of digits -/

structure Big where
  mem : ℤ → ℕ
  a : ℤ
  r : ℤ
  z : ℤ
  exponent : ℤ

/-- The index at which the digits of a number with an exponent start. -/
def bigStart (exponent : ℤ) : ℤ := if exponent < 0 then 0 else 1835 - 64 - 1

/-- The groups of the value itself. -/
def fill : ℕ → F → Big → Except Fault Big
  | 0, _, _ => .error .rounds
  | n + 1, value, big =>
    let digits := (BitVec.ofInt 32 (ld.toInt value)).toNat
    let value := ld.mul (ld.ofInt 1000000000) (ld.sub value (ld.ofInt digits))
    let big := { big with mem := Function.update big.mem big.z digits, z := big.z + 1 }
    if ld.iszero value then .ok big else fill n value big

/-- Trailing groups that are zero. -/
def trim (mem : ℤ → ℕ) (a : ℤ) : ℕ → ℤ → ℤ
  | 0, z => z
  | n + 1, z => if a < z ∧ mem (z - 1) = 0 then trim mem a n (z - 1) else z

def Big.trimmed (big : Big) : Big :=
  { big with z := trim big.mem big.a (big.z - big.a).toNat big.z }

/-- The groups multiplied by a power of two, from the last one on. -/
def shiftLeftLoop (shift : ℕ) : ℕ → ℤ → (ℤ → ℕ) → ℕ → (ℤ → ℕ) × ℕ
  | 0, _, mem, carry => (mem, carry)
  | n + 1, d, mem, carry =>
    let x := mem d * 2 ^ shift + carry
    shiftLeftLoop shift n (d - 1) (Function.update mem d (x % 1000000000)) (x / 1000000000)

/-- A positive exponent. It is applied once, up to 29. -/
def Big.shiftLeft (big : Big) : Big :=
  if 0 < big.exponent then
    let shift := min big.exponent 29
    let (mem, carry) := shiftLeftLoop shift.toNat (big.z - big.a).toNat (big.z - 1) big.mem 0
    let big := { big with mem, exponent := big.exponent - shift }
    let big := if carry ≠ 0 then
        { big with mem := Function.update big.mem (big.a - 1) carry, a := big.a - 1 }
      else big
    big.trimmed
  else big

/-- The groups divided by a power of two, from the first one on. -/
def shiftRightLoop (shift : ℕ) : ℕ → ℤ → (ℤ → ℕ) → ℕ → (ℤ → ℕ) × ℕ
  | 0, _, mem, carry => (mem, carry)
  | n + 1, d, mem, carry =>
    let rm := mem d % 2 ^ shift
    shiftRightLoop shift n (d + 1) (Function.update mem d (mem d / 2 ^ shift + carry))
      (1000000000 / 2 ^ shift * rm)

/-- A negative exponent, up to nine at a time. -/
def Big.shiftRight (isF : Bool) (precision : ℤ) : ℕ → Big → Big
  | 0, big => big
  | n + 1, big =>
    if big.exponent < 0 then
      let shift := min (-big.exponent) 9
      let need := 1 + (precision + 64 / 3 + 8).tdiv 9
      let (mem, carry) := shiftRightLoop shift.toNat (big.z - big.a).toNat big.a big.mem 0
      let big := { big with mem, exponent := big.exponent + shift }
      let big := if big.mem big.a = 0 then { big with a := big.a + 1 } else big
      let big := if carry ≠ 0 then
          { big with mem := Function.update big.mem big.z carry, z := big.z + 1 }
        else big
      let b := if isF then big.r else big.a
      Big.shiftRight isF precision n
        (if need < big.z - b then { big with z := b + need } else big)
    else big

/-- The decimal exponent of a group. -/
def countExponent (digits : ℕ) : ℕ → ℕ → ℤ → Except Fault ℤ
  | 0, _, _ => .error .rounds
  | n + 1, i, exponent =>
    if i ≤ digits then countExponent digits n (i * 10 % 2 ^ 32) (exponent + 1) else .ok exponent

def Big.decimalExponent (big : Big) : Except Fault Big := do
  let exponent ← countExponent (big.mem big.a) rounds 10 (9 * (big.r - big.a))
  pure { big with exponent }

/-- A carry into the groups before `d`. -/
def propagate : ℕ → ℤ → Big → Except Fault (Big × ℤ)
  | 0, _, _ => .error .rounds
  | n + 1, d, big =>
    if 999999999 < big.mem d then
      let big := { big with mem := Function.update big.mem d 0 }
      let d := d - 1
      let big := if d < big.a then
          { big with mem := Function.update big.mem (big.a - 1) 0, a := big.a - 1 }
        else big
      propagate n d { big with mem := Function.update big.mem d (big.mem d + 1) }
    else .ok (big, d)

/-- Whether the digits that are cut off, `x` of the group `d` modulo `i` and
the groups behind it, round the number up. -/
def roundsUp (negative : Bool) (big : Big) (d : ℤ) (i x : ℕ) : Bool :=
  let round := ld.ofInt (2 ^ 64)
  let odd := big.mem d / i % 2 = 1 ∨
    i = 1000000000 ∧ big.a < d ∧ big.mem (d - 1) % 2 = 1
  let round := if odd then ld.add round (ld.ofInt 2) else round
  let small := if x < i / 2 then ld.half
    else if x = i / 2 ∧ d + 1 = big.z then ld.ofInt 1
    else ld.threeHalves
  let round := if negative then ld.mul round (ld.ofInt (-1)) else round
  let small := if negative then ld.mul small (ld.ofInt (-1)) else small
  !ld.beq (ld.add round small) round

/-- The digits cut off behind the `j`-th after the point. -/
def Big.round (negative : Bool) (j : ℤ) (big : Big) : Except Fault Big := do
  if j < 9 * (big.z - big.r - 1) then
    let d := big.r + 1 + ((j + 9 * 16384).tdiv 9 - 16384)
    let i := 10 * 10 ^ (9 - ((j + 9 * 16384).tmod 9 + 1)).toNat
    let x := big.mem d % i
    let (big, d) ←
      if x ≠ 0 ∨ d + 1 ≠ big.z then
        let up := roundsUp ld negative big d i x
        let big := { big with mem := Function.update big.mem d (big.mem d - x) }
        if up then do
          let (big, d) ← propagate rounds d
            { big with mem := Function.update big.mem d (big.mem d + i) }
          pure (← big.decimalExponent rounds, d)
        else pure (big, d)
      else pure (big, d)
    pure (if d + 1 < big.z then { big with z := d + 1 } else big)
  else pure big

/-- The zeros at the end of a group. -/
def countZeros (digits : ℕ) : ℕ → ℕ → ℤ → Except Fault ℤ
  | 0, _, _ => .error .rounds
  | n + 1, i, j => if digits % i = 0 then countZeros digits n (i * 10) (j + 1) else .ok j

/-- What `g` turns into: the conversion and its precision. -/
def general (alt : Bool) (specific : Byte) (precision : ℤ) (big : Big) :
    Except Fault (Byte × ℤ) := do
  let precision := if precision = 0 then 1 else precision
  let fixed := big.exponent < precision ∧ -4 ≤ big.exponent
  let specific := if fixed then specific - 1 else specific - 2
  let precision := if fixed then precision - (big.exponent + 1) else precision - 1
  if alt then pure (specific, precision)
  else
    let j ← if big.a < big.z ∧ big.mem (big.z - 1) ≠ 0 then
        countZeros (big.mem (big.z - 1)) rounds 10 0
      else pure 9
    let digits := 9 * (big.z - big.r - 1) - j
    pure (specific, min precision (max (if fixed then digits else digits + big.exponent) 0))

/-! ### Writing the groups -/

/-- The groups up to the point. -/
def wholeGroups (mem : ℤ → ℕ) (a : ℤ) : ℕ → ℤ → List (List Byte)
  | 0, _ => []
  | n + 1, d =>
    zeroFill (if d = a then 1 else 9) (writeIntToBuf (mem d)) :: wholeGroups mem a n (d + 1)

/-- The groups behind the point, and the digits still missing after them. -/
def fractionGroups (mem : ℤ → ℕ) (precision : ℤ) : ℕ → ℤ → List (List Byte)
  | 0, _ => pad (precision + 9) 9 '0'
  | n + 1, d =>
    if 0 < precision then
      (zeroFill 9 (writeIntToBuf (mem d))).take (min precision 9).toNat ::
        fractionGroups mem (precision - 9) n (d + 1)
    else pad (precision + 9) 9 '0'

/-- `f`. -/
def fixedPieces (alt : Bool) (precision : ℤ) (big : Big) : List (List Byte) :=
  let a := if big.r < big.a then big.r else big.a
  wholeGroups big.mem a (big.r + 1 - a).toNat a ++
    (if precision ≠ 0 ∨ alt then [[('.' : Byte)]] else []) ++
      fractionGroups big.mem precision (big.z - (big.r + 1)).toNat (big.r + 1)

/-- The groups of `e`, of which the first has the point after its first
digit. -/
def scientificGroups (alt : Bool) (mem : ℤ → ℕ) (a : ℤ) (precision : ℤ) :
    ℕ → ℤ → List (List Byte)
  | 0, _ => pad (precision + 18) 18 '0'
  | n + 1, d =>
    if 0 ≤ precision then
      let str := zeroFill (if d = a then 1 else 9) (writeIntToBuf (mem d))
      let point := if 0 < precision ∨ alt then [[('.' : Byte)]] else []
      let lead := if d = a then str.take 1 :: point else []
      let str := if d = a then str.drop 1 else str
      lead ++ str.take (min (str.length : ℤ) precision).toNat ::
        scientificGroups alt mem a (precision - str.length) n (d + 1)
    else pad (precision + 18) 18 '0'

/-- `e`. -/
def scientificPieces (alt : Bool) (specific : Byte) (precision : ℤ) (big : Big) :
    List (List Byte) :=
  let z := if big.z ≤ big.a then big.a + 1 else big.z
  scientificGroups alt big.mem big.a precision (z - big.a).toNat big.a ++
    [exponentString specific 2 big.exponent]

/-- `f`, `e` and `g`. -/
def formatDecimal (spec : Spec) (negative : Bool) (value : F) (exponent : ℤ) :
    Except Fault (List (List Byte)) := do
  let lower := spec.conv ||| 32
  let scaled := if ld.iszero value then value else ld.mul value (ld.ofInt (2 ^ 28))
  let exponent := if ld.iszero value then exponent else exponent - 28
  let start := bigStart exponent
  let precision := if spec.hasPrecision then spec.precision else 6
  let big ← fill ld rounds scaled ⟨fun _ => 0, start, start, start, exponent⟩
  let big := big.shiftLeft
  let big := big.shiftRight (lower = 'f') precision big.exponent.natAbs
  let big ← if big.a < big.z then big.decimalExponent rounds else pure { big with exponent := 0 }
  -- the number of digits after the point, which may be negative
  let j := precision - (if lower ≠ 'f' then big.exponent else 0) -
    (if lower = 'g' ∧ precision ≠ 0 then 1 else 0)
  let big ← big.round ld rounds negative j
  let big := big.trimmed
  let (specific, precision) ←
    if lower = 'g' then general rounds spec.flags.alt spec.conv precision big
    else pure (spec.conv, precision)
  let sign : List (List Byte) :=
    if negative then [['-']] else if spec.flags.sign then [['+']] else []
  pure (sign ++
    if specific ||| 32 = 'f' then fixedPieces spec.flags.alt precision big
    else scientificPieces spec.flags.alt specific precision big)

/-- The pieces of a floating-point conversion. The width is used only for a
value that is not finite. -/
def formatFloat (spec : Spec) (value : F) : Except Fault (List (List Byte)) :=
  let upper := spec.conv &&& 32 = 0
  if ld.isfinite value then
    let negative := ld.isneg value
    let value := if negative then ld.neg value else value
    let (fraction, exponent) := ld.frexpl value
    let value := ld.mul fraction (ld.ofInt 2)
    let exponent := if ld.iszero value then exponent else exponent - 1
    if spec.conv ||| 32 = 'a' then formatHex ld rounds spec negative value exponent
    else formatDecimal ld rounds spec negative value exponent
  else
    let str : List Byte :=
      if ld.isinf value then if upper then ['I', 'N', 'F'] else ['i', 'n', 'f']
      else if upper then ['N', 'A', 'N'] else ['n', 'a', 'n']
    .ok (if spec.flags.ljust then str :: pad spec.width 3 ' ' else pad spec.width 3 ' ' ++ [str])

end FormatFloat

end Hzlibc.Stdio
