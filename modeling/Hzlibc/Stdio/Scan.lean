import Hzlibc.Stdio.File

/-!
`vfscanf`.

The scanner looks at a format directive by directive. It reads its input one
character at a time, through `look_ahead` and `consume`; where the source
looks twice, so does the model, because every look is a call of the stream.
What the scanner keeps between directives is a `Scan`: the number of
conversions stored, the number of characters consumed, and a log of every
store through an argument.

A directive is read off the format apart from its execution, which is possible
because the format is never read differently for a different input. The
whitespace loop has no bound of its own and takes one.
-/

namespace Hzlibc.Stdio

open Effect

/-! ### Directives -/

/-- What follows the length modifier of a conversion. -/
inductive Conversion
  | char
  | string
  | set (invert : Bool) (set : List Byte)
  /-- A set without its closing bracket. -/
  | openSet
  /-- `u` and `d`. -/
  | decimal
  /-- `i`. -/
  | integer
  | octal
  /-- `x` and `X`. -/
  | hex
  | pointer
  /-- `n`. -/
  | count
  | float
  | unknown (c : Byte)
  deriving DecidableEq

/-- Whether a conversion skips whitespace first. -/
def Conversion.skips : Conversion → Bool
  | .char | .set _ _ | .openSet | .count => false
  | _ => true

inductive Directive
  | space
  | literal (c : Byte)
  | percent
  | conversion (assign : Bool) (width : Option ℤ) (state : State) (conv : Conversion)
  /-- The format ends inside a conversion. -/
  | truncated
  deriving DecidableEq

/-- A set, from the character after its opening bracket. A bracket that is the
first character of the set is a member of it. -/
def scanSet (fmt : List Byte) : Conversion × List Byte :=
  let invert := fmt.head? = some ('^' : Byte)
  match if invert then fmt.tail else fmt with
  | [] => (.openSet, [])
  | c :: rest =>
    match rest.dropWhile (· ≠ (']' : Byte)) with
    | [] => (.openSet, [])
    | _ :: rest' => (.set invert (c :: rest.takeWhile (· ≠ (']' : Byte))), rest')

def scanConversion (c : Byte) (rest : List Byte) : Conversion × List Byte :=
  if c = 'c' then (.char, rest)
  else if c = 's' then (.string, rest)
  else if c = '[' then scanSet rest
  else if c = 'u' ∨ c = 'd' then (.decimal, rest)
  else if c = 'i' then (.integer, rest)
  else if c = 'o' then (.octal, rest)
  else if c = 'x' ∨ c = 'X' then (.hex, rest)
  else if c = 'p' then (.pointer, rest)
  else if c = 'n' then (.count, rest)
  else if c = 'a' ∨ c = 'A' ∨ c = 'e' ∨ c = 'E' ∨ c = 'f' ∨ c = 'F' ∨ c = 'g' ∨ c = 'G' then
    (.float, rest)
  else (.unknown c, rest)

/-- A conversion, from the character after its percent sign. -/
def scanSpec (hz : Hz) (fmt : List Byte) : Directive × List Byte :=
  let assign := fmt.head? ≠ some ('*' : Byte)
  let fmt := if assign then fmt else fmt.tail
  let hasWidth := fmt.head?.any isdigit
  let width := if hasWidth then some (hz.toInteger fmt).1 else none
  let fmt := if hasWidth then fmt.drop (hz.toInteger fmt).2 else fmt
  match (scanState fmt).2 with
  | [] => (.truncated, [])
  | c :: rest =>
    let conv := scanConversion c rest
    (.conversion assign width (scanState fmt).1 conv.1, conv.2)

/-- The first directive of a format that does not end with `c`. -/
def scanDirective (hz : Hz) (c : Byte) (rest : List Byte) : Directive × List Byte :=
  if isspace c then (.space, rest.dropWhile isspace)
  else if c ≠ '%' then (.literal c, rest)
  else if rest.head? = some ('%' : Byte) then (.percent, rest.tail)
  else scanSpec hz rest

/-- The directives of a format, with a bound on their number. -/
def scanDirectives (hz : Hz) : ℕ → List Byte → List Directive
  | _, [] => []
  | 0, _ => []
  | n + 1, c :: rest =>
    (scanDirective hz c rest).1 :: scanDirectives hz n (scanDirective hz c rest).2

/-! ### Reading characters -/

/-- The ways the scanner reads. -/
structure Source (S : Type) where
  lookAhead : Prog S Fault Byte
  consume : Prog S Fault Unit
  consumeIfStrEqual : List Byte → Prog S Fault Bool

namespace Reader

variable {S : Type} (r : Reader S)

def lookAhead : Prog S Fault Byte := do
  let got ← r.read 1
  if got.ret ≠ 1 then pure 0
  else
    let c := got.data.headD 0
    let _ ← r.ungetc (signed c)
    pure c

/-- `consume`, without its count. -/
def consume : Prog S Fault Unit := do
  let _ ← r.read 1
  pure ()

/-- Characters given back, the last one read first. -/
def giveBack : List Byte → Prog S Fault Unit
  | [] => pure ()
  | c :: buf => do
      let got ← r.ungetc (signed c)
      if got = signed c then giveBack buf else .leave .abort

def equalLoop : List Byte → List Byte → Prog S Fault Bool
  | [], _ => pure true
  | c :: str, buf => do
      let actual ← r.lookAhead
      if tolower actual = c then
        r.consume
        equalLoop str (actual :: buf)
      else
        r.giveBack buf
        pure false

/-- What the scanner does to a stream. -/
def source : Source S := ⟨r.lookAhead, r.consume, fun str => r.equalLoop str []⟩

end Reader

/-! ### The state of a scan -/

/-- A store through an argument, given by its position. -/
inductive Store (F : Type)
  | char (arg : ℕ) (c : Byte)
  | wchar (arg : ℕ) (c : ℤ)
  /-- An integer of `width` bits. -/
  | int (arg width value : ℕ)
  | float (arg : ℕ) (state : State) (value : F)
  deriving DecidableEq

structure Scan (S F : Type) where
  io : S
  consumed : ℤ
  consumedChars : ℕ
  nextArg : ℕ
  stores : List (Store F)

/-- Why the scanner leaves its loop. -/
inductive Stop
  | ret (value : ℤ)
  | fault (e : Fault)
  deriving DecidableEq

namespace Scan

variable {S F : Type} (src : Source S)

abbrev M (S F α : Type) := Prog (Scan S F) Stop α

def lift {α : Type} (m : Prog S Fault α) : M S F α :=
  .mapError .fault (.zoom Scan.io (fun io s => { s with io }) m)

def lookAhead : M S F Byte := lift src.lookAhead

def consume : M S F Unit := do
  lift src.consume
  .modify fun s => { s with consumedChars := s.consumedChars + 1 }

def consumeIfStrEqual (str : List Byte) : M S F Bool := do
  let equal ← lift (src.consumeIfStrEqual str)
  .modify fun s => { s with
    consumedChars := if equal then s.consumedChars + str.length else s.consumedChars }
  pure equal

def skipSpace : ℕ → M S F Unit
  | 0 => .leave (.fault .rounds)
  | n + 1 => do
      if isspace (← lookAhead src) then
        consume src
        skipSpace n
      else pure ()

/-- `va_arg(ap, char*)`, for a conversion that is not suppressed. -/
def popDest (assign : Bool) : M S F (Option ℕ) := do
  let arg ← .gets fun s => s.nextArg
  if assign then
    .modify fun s => { s with nextArg := s.nextArg + 1 }
    pure (some arg)
  else pure none

def store (x : Store F) : M S F Unit := .modify fun s => { s with stores := s.stores ++ [x] }

def countConsumed : M S F Unit := .modify fun s => { s with consumed := s.consumed + 1 }

def ret {α : Type} (value : ℤ) : M S F α := .leave (.ret value)

def retConsumed {α : Type} : M S F α := do ret (← .gets fun s => s.consumed)

/-- `RETURN`. -/
def retConsumedOrEof {α : Type} : M S F α := do
  let consumed ← .gets fun s => s.consumed
  ret (if consumed ≠ 0 then consumed else EOF)

def writeToDest (wide : Bool) (dest : Option ℕ) (c : Byte) : M S F Unit :=
  match dest with
  | none => pure ()
  | some arg => store (if wide then .wchar arg (signed c) else .char arg c)

def writeIntToDest (dest : Option ℕ) (state : State) (value : BitVec 64) : M S F Unit :=
  match dest with
  | none => pure ()
  | some arg =>
    match state.bits with
    | none => .leave (.fault .abort)
    | some width => store (.int arg width (value.toNat % 2 ^ width))

/-! ### Characters and strings -/

def charLoop (wide : Bool) (dest : Option ℕ) : ℕ → M S F Unit
  | 0 => pure ()
  | n + 1 => do
      let c ← lookAhead src
      if c = 0 then retConsumedOrEof
      else
        consume src
        writeToDest wide dest c
        charLoop wide dest n

/-- The loop of `s` and of a set: characters up to one that is refused. The
result is `used_chars`. -/
def stringLoop (refuses : Byte → Bool) (wide : Bool) (dest : Option ℕ) : ℕ → ℕ → M S F ℕ
  | 0, used => pure used
  | n + 1, used => do
      let c ← lookAhead src
      if c = 0 ∨ refuses c then pure used
      else
        consume src
        writeToDest wide dest c
        stringLoop refuses wide dest n (used + 1)

/-- The state that `c`, `s` and a set allow, and whether it is a wide one. -/
def isWide (state : State) : M S F Bool :=
  if state = .none then pure false
  else if state = .l then pure true
  else .leave (.fault .abort)

def scanChar (dest : Option ℕ) (state : State) (width : Option ℤ) : M S F Unit := do
  let wide ← isWide state
  charLoop src wide dest (width.getD 1).toNat
  if dest.isSome then countConsumed else pure ()

def scanString (refuses : Byte → Bool) (dest : Option ℕ) (state : State) (width : Option ℤ) :
    M S F Unit := do
  let wide ← isWide state
  let used ← stringLoop src refuses wide dest (width.getD intMax).toNat 0
  -- the terminator is stored also when nothing has matched
  writeToDest wide dest 0
  if dest.isSome ∧ used ≠ 0 then countConsumed
  else if used = 0 then
    if (← .gets fun s => s.consumed) = 0 then
      if (← lookAhead src) = 0 then ret EOF else pure ()
    else pure ()
  else pure ()

/-- `set_matches` without the inversion. A range runs from the hyphen itself;
`first` at the first character of the set. -/
def setMember (c : Byte) : Bool → List Byte → Bool
  | _, [] => false
  | first, s :: rest =>
    if s = '-' ∧ first = false then
      match rest with
      | [] => c = s
      | last :: rest' =>
        if signed s ≤ signed c ∧ signed c ≤ signed last then true
        else setMember c false rest'
    else if c = s then true
    else setMember c false rest

def setMatches (invert : Bool) (set : List Byte) (c : Byte) : Bool :=
  setMember c true set != invert

/-! ### Integers -/

/-- What a sign and a base marker leave: the sign, the width, and the counts
of used characters. -/
structure Lead where
  negative : Bool
  maxWidth : ℤ
  used : ℤ
  extra : ℤ
  base : ℕ
  deriving DecidableEq

/-- The sign at the start of a number. -/
def scanSign (maxWidth : ℤ) (base : ℕ) : M S F Lead := do
  if maxWidth ≠ 0 then
    if (← lookAhead src) = '-' then
      consume src
      pure ⟨true, maxWidth - 1, 0, 1, base⟩
    else if (← lookAhead src) = '+' then
      consume src
      pure ⟨false, maxWidth - 1, 0, 1, base⟩
    else pure ⟨false, maxWidth, 0, 0, base⟩
  else pure ⟨false, maxWidth, 0, 0, base⟩

/-- Whether the next character is one of two. -/
def lookAheadIsEither (a b : Byte) : M S F Bool := do
  if (← lookAhead src) = a then pure true
  else pure ((← lookAhead src) = b)

/-- The character of a base marker after its zero. -/
def consumeMarker (lead : Lead) (base : ℕ) : M S F Lead := do
  consume src
  pure { lead with
    maxWidth := lead.maxWidth - 1, used := lead.used - 1, extra := lead.extra + 2, base }

/-- The zero a number may start with, and what `after` makes of the characters
after it. -/
def scanZero (lead : Lead) (after : Lead → M S F Lead) : M S F Lead := do
  if lead.maxWidth ≠ 0 then
    if (← lookAhead src) = '0' then
      consume src
      after { lead with maxWidth := lead.maxWidth - 1, used := lead.used + 1 }
    else pure lead
  else pure lead

/-- The base marker of `i`. -/
def integerMarker (lead : Lead) : M S F Lead := do
  if ← lookAheadIsEither src 'x' 'X' then consumeMarker src lead 16
  else if ← lookAheadIsEither src 'b' 'B' then consumeMarker src lead 2
  else pure { lead with base := 8 }

/-- The base marker of `x`, `X`, `p` and the floating-point conversions. -/
def hexMarker (lead : Lead) : M S F Lead := do
  if ← lookAheadIsEither src 'x' 'X' then consumeMarker src lead 16 else pure lead

/-- `is_proper_digit`, on a character in lower case. In a base other than 8 all
decimal digits are taken. -/
def isProperDigit (base : ℕ) (c : Byte) : Bool :=
  if base = 8 then 48 ≤ c.toNat && c.toNat ≤ 55
  else isdigit c || (97 ≤ c.toNat && (c.toNat : ℤ) ≤ 97 + (base - 11 : ℤ))

/-- The value of a digit in lower case. -/
def digitValue (c : Byte) : ℕ := if c.toNat ≤ 57 then c.toNat - 48 else c.toNat - 97 + 10

/-- The loop over the digits of an integer: its value and the number of
characters used. -/
def digitLoop (base : ℕ) (accepts : Byte → Bool) : ℕ → BitVec 64 → ℤ → M S F (BitVec 64 × ℤ)
  | 0, value, used => pure (value, used)
  | n + 1, value, used => do
      let c ← lookAhead src
      if accepts c then
        consume src
        digitLoop base accepts n
          (value * BitVec.ofNat 64 base + BitVec.ofNat 64 (digitValue (tolower c))) (used + 1)
      else pure (value, used)

/-- Where every number conversion ends that has used no digit. -/
def noDigits {α : Type} (extra : ℤ) : M S F α := do
  if extra = 0 then
    if (← lookAhead src) = 0 then ret EOF else retConsumed
  else retConsumed

def finishInt (dest : Option ℕ) (state : State) (lead : Lead) (value : BitVec 64) (used : ℤ) :
    M S F Unit := do
  let value := if lead.negative then -value else value
  if dest.isSome ∧ used ≠ 0 then
    writeIntToDest dest state value
    countConsumed
  else if used = 0 then noDigits src lead.extra
  else pure ()

/-- An integer: its sign, its marker, its digits. -/
def scanInt (marker : Lead → M S F Lead) (base : ℕ) (accepts : ℕ → Byte → Bool)
    (dest : Option ℕ) (state : State) (width : Option ℤ) : M S F Unit := do
  let lead ← scanSign src (width.getD intMax) base
  let lead ← marker lead
  let (value, used) ← digitLoop src lead.base (accepts lead.base) lead.maxWidth.toNat 0 lead.used
  finishInt src dest state lead value used

/-- `u` and `d`. -/
def scanDecimal : Option ℕ → State → Option ℤ → M S F Unit :=
  scanInt src pure 10 fun _ => isdigit

/-- `i`. -/
def scanInteger : Option ℕ → State → Option ℤ → M S F Unit :=
  scanInt src (fun lead => scanZero src lead (integerMarker src)) 10
    fun base c => isProperDigit base (tolower c)

/-- `o`. -/
def scanOctal : Option ℕ → State → Option ℤ → M S F Unit :=
  scanInt src (fun lead => scanZero src lead pure) 8
    fun _ c => 48 ≤ c.toNat && c.toNat ≤ 55

/-- `x`, `X` and `p`. -/
def scanHex : Option ℕ → State → Option ℤ → M S F Unit :=
  scanInt src (fun lead => scanZero src lead (hexMarker src)) 16 fun _ => isxdigit

/-! ### Floating-point numbers -/

variable (ld : LongDouble F)

def writeFloatToDest (dest : Option ℕ) (state : State) (value : F) : M S F Unit :=
  match dest with
  | none => pure ()
  | some arg =>
    if state = .none ∨ state = .l ∨ state = .L then store (.float arg state value)
    else .leave (.fault .abort)

/-- The digits before the point: the value and the number of digits. -/
def wholeLoop (base : ℕ) : ℕ → F → ℕ → M S F (F × ℕ)
  | 0, value, index => pure (value, index)
  | n + 1, value, index => do
      let c := tolower (← lookAhead src)
      if isProperDigit base c then
        consume src
        wholeLoop base n
          (ld.add (ld.mul value (ld.ofInt base)) (ld.ofInt (digitValue c))) (index + 1)
      else pure (value, index)

/-- The digits after the point; `decimal` is the weight of the last one. -/
def fractionLoop (base : ℕ) : ℕ → F → F → ℕ → M S F (F × ℕ)
  | 0, value, _, index => pure (value, index)
  | n + 1, value, decimal, index => do
      let c := tolower (← lookAhead src)
      if isProperDigit base c then
        consume src
        let decimal := ld.div decimal (ld.ofInt base)
        fractionLoop base n (ld.add value (ld.mul decimal (ld.ofInt (digitValue c)))) decimal
          (index + 1)
      else pure (value, index)

def exponentLoop : ℕ → ℤ → M S F ℤ
  | 0, exponent => pure exponent
  | n + 1, exponent => do
      let c ← lookAhead src
      if isdigit c then
        consume src
        exponentLoop n (toInt32 (toInt32 (exponent * 10) + (c.toNat - 48)))
      else pure exponent

/-- The fraction of a number, if there is one: the value, the width left and
the number of digits. -/
def scanFraction (base : ℕ) (maxWidth : ℤ) (value : F) : M S F (F × ℤ × ℕ) := do
  if maxWidth ≠ 0 then
    if (← lookAhead src) = '.' then
      consume src
      let (value, index) ← fractionLoop src ld base (maxWidth - 1).toNat value (ld.ofInt 1) 0
      pure (value, maxWidth - 1 - index, index)
    else pure (value, maxWidth, 0)
  else pure (value, maxWidth, 0)

/-- The exponent of a number, if there is one, applied to its value. -/
def scanExponent (base : ℕ) (maxWidth : ℤ) (value : F) : M S F F := do
  if maxWidth ≠ 0 then
    if tolower (← lookAhead src) = if base = 10 then ('e' : Byte) else 'p' then
      consume src
      let lead ← scanSign src (maxWidth - 1) base
      let exponent ← exponentLoop src lead.maxWidth.toNat 0
      let step := ld.ofInt (if base = 10 then 10 else 2)
      pure (Nat.repeat (fun v => if lead.negative then ld.div v step else ld.mul v step)
        exponent.toNat value)
    else pure value
  else pure value

/-- A number that is not written as a word. -/
def scanFloatDigits (dest : Option ℕ) (state : State) (lead : Lead) : M S F Unit := do
  let lead ← scanZero src lead (hexMarker src)
  let (value, index) ← wholeLoop src ld lead.base lead.maxWidth.toNat (ld.ofInt 0) 0
  let (value, maxWidth, index') ← scanFraction src ld lead.base (lead.maxWidth - index) value
  let value ← scanExponent src ld lead.base maxWidth value
  let value := if lead.negative then ld.mul value (ld.ofInt (-1)) else value
  let used := lead.used + index + index'
  if dest.isSome ∧ used ≠ 0 then
    writeFloatToDest dest state value
    countConsumed
  else if used = 0 then noDigits src lead.extra
  else pure ()

/-- A word that stands for a number. -/
def finishWord (dest : Option ℕ) (state : State) (value : F) : M S F Unit := do
  if dest.isSome then
    writeFloatToDest dest state value
    countConsumed
  else pure ()

/-- `a`, `e`, `f` and `g` in both cases. The width does not bound a word. -/
def scanFloat (dest : Option ℕ) (state : State) (width : Option ℤ) : M S F Unit := do
  let lead ← scanSign src (width.getD intMax) 10
  if ← consumeIfStrEqual src ['i', 'n', 'f', 'i', 'n', 'i', 't', 'y'] then
    finishWord dest state ld.infinity
  else if ← consumeIfStrEqual src ['i', 'n', 'f'] then finishWord dest state ld.infinity
  else if ← consumeIfStrEqual src ['n', 'a', 'n'] then finishWord dest state ld.nan
  else scanFloatDigits src ld dest state lead

/-! ### The loop over the format -/

/-- The switch over the conversion character. -/
def convert (dest : Option ℕ) (width : Option ℤ) (state : State) : Conversion → M S F Unit
  | .char => scanChar src dest state width
  | .string => scanString src isspace dest state width
  | .set invert set => scanString src (fun c => !setMatches invert set c) dest state width
  | .openSet => ret (-1)
  | .decimal => scanDecimal src dest state width
  | .integer => scanInteger src dest state width
  | .octal => scanOctal src dest state width
  | .hex => scanHex src dest state width
  | .pointer => scanHex src dest .l width
  | .count => do
      let consumedChars ← .gets fun s => s.consumedChars
      writeIntToDest dest state (BitVec.ofNat 64 consumedChars)
  | .float => scanFloat src ld dest state width
  -- a message is printed
  | .unknown _ => pure ()

/-- One round of the loop. -/
def execute (rounds : ℕ) : Directive → M S F Unit
  | .space => skipSpace src rounds
  | .literal c => do
      if (← lookAhead src) = c then consume src
      else if (← lookAhead src) = 0 then retConsumedOrEof
      else retConsumed
  | .percent => do
      if (← lookAhead src) = '%' then consume src else retConsumedOrEof
  | .conversion assign width state conv => do
      if conv.skips then skipSpace src rounds else pure ()
      let dest ← popDest assign
      convert src ld dest width state conv
  | .truncated => ret EOF

/-- The whole scan: the value returned. -/
def scan (rounds : ℕ) (directives : List Directive) : M S F ℤ := do
  .each (execute src ld rounds) directives
  .gets fun s => s.consumed

end Scan

/-- The number that a row of digits stands for. -/
def readDigits (base : ℕ) (s : List Byte) : ℕ :=
  s.foldl (fun n c => base * n + Scan.digitValue (tolower c)) 0

/-- What a call of the scanner returns, and what it has stored. -/
structure Scanned (F : Type) where
  ret : ℤ
  stores : List (Store F)
  deriving DecidableEq

variable {S F : Type}

/-- The scan as seen by its caller. -/
def Scan.finish : Except Stop ℤ × Scan S F → Except Fault (Scanned F) × S
  | (.ok value, s) => (.ok ⟨value, s.stores⟩, s.io)
  | (.error (.ret value), s) => (.ok ⟨value, s.stores⟩, s.io)
  | (.error (.fault e), s) => (.error e, s.io)

def Scan.start (io : S) : Scan S F := ⟨io, 0, 0, 0, []⟩

def formatDirectives (hz : Hz) (fmt : List Byte) : List Directive :=
  scanDirectives hz fmt.length fmt

def vfscanf (hz : Hz) (ld : LongDouble F) (src : Source S) (rounds : ℕ) (fmt : List Byte) :
    Prog S Fault (Scanned F) := fun s =>
  Scan.finish ((Scan.scan src ld rounds (formatDirectives hz fmt)).run (.start s))

theorem run_vfscanf (hz : Hz) (ld : LongDouble F) (src : Source S) (rounds : ℕ) (fmt : List Byte)
    (s : S) :
    (vfscanf hz ld src rounds fmt).run s =
      Scan.finish ((Scan.scan src ld rounds (formatDirectives hz fmt)).run (.start s)) := rfl

/-- A kernel that is never asked. -/
def Kernel.absent : Kernel Unit where
  sysRead _ _ _ := (.ok [], ())
  sysRead_le := by
    rintro _ _ _ size _ ⟨⟩
    exact Nat.zero_le size
  sysLseek _ _ _ _ := (.ok 0, ())

/-- `vsscanf`. Whitespace ends with the string. -/
def vsscanf (hz : Hz) (ld : LongDouble F) (str fmt : List Byte) : Except Fault (Scanned F) :=
  ((vfscanf hz ld (Stream.reader Kernel.absent).source (str.length + 1) fmt).run
    ⟨createStrFile str, (), 0⟩).1

end Hzlibc.Stdio
