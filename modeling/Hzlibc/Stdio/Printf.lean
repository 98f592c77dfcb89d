import Hzlibc.Stdio.FormatFloat

/-!
`vfprintf`.

The formatter goes through the format directive by directive. A conversion is
turned into the pieces that it writes, and every piece is one call of the
stream; only `n` needs to know what was written before. The stream is a `Sink`,
which may take less than it is given or fail.

As in the scanner a directive is read off the format apart from its execution:
the arguments decide what is written, not how the format is read.
-/

namespace Hzlibc.Stdio

open Effect

/-! ### Directives -/

/-- A width or a precision in a format. -/
inductive Amount
  | absent
  /-- A point with nothing after it. -/
  | bare
  | number (value : ℤ)
  | star
  deriving DecidableEq

inductive PrintDirective
  | text (str : List Byte)
  | conversion (flags : Flags) (width precision : Amount) (state : State) (conv : Byte)
  /-- The format ends inside a conversion. -/
  | truncated
  /-- A part of a format that is not supported. -/
  | panic
  deriving DecidableEq

/-- The pairs of percent signs at the start of a format, and what follows. -/
def printPercents : List Byte → ℕ × List Byte
  | c :: d :: rest =>
    if c = '%' ∧ d = '%' then ((printPercents rest).1 + 1, (printPercents rest).2)
    else (0, c :: d :: rest)
  | rest => (0, rest)

def Flags.set (flags : Flags) (c : Byte) : Option Flags :=
  if c = '-' then some { flags with ljust := true }
  else if c = '+' then some { flags with sign := true }
  else if c = ' ' then some { flags with space := flags.space || !flags.sign }
  else if c = '#' then some { flags with alt := true }
  else if c = '0' then some { flags with zero := flags.zero || !flags.ljust }
  else none

def printFlags (flags : Flags) : List Byte → Flags × List Byte
  | [] => (flags, [])
  | c :: rest =>
    match flags.set c with
    | some flags => printFlags flags rest
    | none => (flags, c :: rest)

def isPositional (fmt : List Byte) : Bool :=
  fmt.head?.any isdigit && fmt.tail.head? = some ('$' : Byte)

/-- A number or a star, if there is one. The star of an argument by its
position is not supported. -/
def printAmount (hz : Hz) (otherwise : Amount) (fmt : List Byte) : Option (Amount × List Byte) :=
  if fmt.head?.any isdigit then
    some (.number (hz.toInteger fmt).1, fmt.drop (hz.toInteger fmt).2)
  else if fmt.head? = some ('*' : Byte) then
    if isPositional fmt.tail then none else some (.star, fmt.tail)
  else some (otherwise, fmt)

def printPrecision (hz : Hz) (fmt : List Byte) : Option (Amount × List Byte) :=
  if fmt.head? = some ('.' : Byte) then printAmount hz .bare fmt.tail else some (.absent, fmt)

/-- A conversion, from the character after its percent sign. -/
def printSpec (hz : Hz) (fmt : List Byte) : PrintDirective × List Byte :=
  if isPositional fmt then (.panic, [])
  else
    let (flags, fmt) := printFlags ⟨false, false, false, false, false⟩ fmt
    -- an apostrophe
    if fmt.head? = some (39 : Byte) then (.panic, [])
    else
      match printAmount hz .absent fmt with
      | none => (.panic, [])
      | some (width, fmt) =>
        match printPrecision hz fmt with
        | none => (.panic, [])
        | some (precision, fmt) =>
          match (scanState fmt).2 with
          | [] => (.truncated, [])
          | c :: rest => (.conversion flags width precision (scanState fmt).1 c, rest)

/-- The first directive of a format that is not at its end. -/
def printDirective (hz : Hz) (fmt : List Byte) : PrintDirective × List Byte :=
  let text := fmt.takeWhile (· ≠ ('%' : Byte))
  let (pairs, rest) := printPercents (fmt.dropWhile (· ≠ ('%' : Byte)))
  if text.length + pairs ≠ 0 then (.text (fmt.take (text.length + pairs)), rest)
  else printSpec hz rest.tail

/-- The directives of a format, with a bound on their number. -/
def printDirectives (hz : Hz) : ℕ → List Byte → List PrintDirective
  | _, [] => []
  | 0, _ => []
  | n + 1, fmt => (printDirective hz fmt).1 :: printDirectives hz n (printDirective hz fmt).2

/-! ### The state of the formatter -/

/-- An argument of a call. Every integer type is 32 or 64 bits wide. -/
inductive Arg (F : Type)
  | int (value : BitVec 32)
  | long (value : BitVec 64)
  | ptr (value : BitVec 64)
  | double (value : F)
  | longDouble (value : F)
  | str (s : List Byte)
  | wstr (s : List (BitVec 32))
  /-- Where `n` stores. -/
  | dest

/-- A store of `n`. -/
structure Count where
  state : State
  value : ℤ
  deriving DecidableEq

/-- What the conversions of a call change. -/
structure Printer (F : Type) where
  args : List (Arg F)
  counts : List Count
  errno : Option ℤ

namespace Printer

variable {F : Type}

abbrev M (F α : Type) := Prog (Printer F) Fault α

def popArg : M F (Arg F) := do
  match ← .gets fun s => s.args with
  | [] => .leave .argument
  | arg :: args =>
    .modify fun s => { s with args }
    pure arg

def popInt : M F (BitVec 32) := do
  match ← popArg with
  | .int value => pure value
  | _ => .leave .argument

def popLong : M F (BitVec 64) := do
  match ← popArg with
  | .long value => pure value
  | _ => .leave .argument

def popSignedInt (state : State) : M F (BitVec 64) :=
  match state with
  | .none | .hh | .h => do return (← popInt).signExtend 64
  | .L => .leave .abort
  | _ => popLong

def popUnsignedInt (state : State) : M F (BitVec 64) :=
  match state with
  | .none | .hh | .h => do return (← popInt).setWidth 64
  | .L => .leave .abort
  | _ => popLong

/-- The width of a conversion. A negative argument stands for a flag. -/
def popWidth (flags : Flags) : Amount → M F (Flags × ℤ × Bool)
  | .number value => pure (flags, value, true)
  | .star => do
      let width := (← popInt).toInt
      if width < 0 then pure ({ flags with ljust := true }, toInt32 (width * -1), true)
      else pure (flags, width, true)
  | _ => pure (flags, 0, false)

/-- The precision of a conversion. A negative argument is none. -/
def popPrecision (flags : Flags) : Amount → M F (Flags × ℤ × Bool)
  | .absent => pure (flags, 0, false)
  | .bare => pure ({ flags with zero := false }, 0, true)
  | .number value => pure ({ flags with zero := false }, value, true)
  | .star => do
      let precision := (← popInt).toInt
      if 0 ≤ precision then pure ({ flags with zero := false }, precision, true)
      else pure (flags, precision, false)

end Printer

/-! ### Integers -/

structure IntOpts where
  minWidth : ℤ
  precision : ℤ
  negative : Bool
  alwaysWriteSign : Bool
  plusAsSpace : Bool
  padWithZero : Bool
  rightPad : Bool
  upper : Bool
  writePrefix : Bool

def basePrefix (upper : Bool) (base : ℕ) : List Byte :=
  if base = 2 then ['0', if upper then 'B' else 'b']
  else if base = 8 then ['0']
  else if base = 16 then ['0', if upper then 'X' else 'x']
  else []

def IntOpts.actualWidth (opts : IntOpts) (base : ℕ) (len : ℕ) : ℤ :=
  let sign : ℤ := if opts.negative || opts.alwaysWriteSign then 1 else 0
  let marker : ℤ :=
    if opts.writePrefix ∧ len ≠ 0 then if base = 2 ∨ base = 16 then 2 else if base = 8 then 1 else 0
    else 0
  toInt32 (max (len : ℤ) opts.precision + sign + marker)

/-- The digits of a value; none for zero with precision zero. -/
def intDigits (value : BitVec 64) (base : ℕ) (opts : IntOpts) : List Byte :=
  if value = 0 ∧ opts.precision = 0 then []
  else digitsLoop opts.upper base 64 value.toNat []

/-- The padding of a field, as the loops that write it count. -/
def IntOpts.padding (opts : IntOpts) (actualWidth : ℤ) : List (List Byte) :=
  if actualWidth < opts.minWidth then
    List.replicate (toInt32 (opts.minWidth - actualWidth)).toNat
      [if opts.padWithZero then ('0' : Byte) else ' ']
  else []

def writeInt (value : BitVec 64) (base : ℕ) (opts : IntOpts) : List (List Byte) :=
  let digits := intDigits value base opts
  let padding := opts.padding (opts.actualWidth base digits.length)
  let sign : List (List Byte) :=
    if opts.negative then [['-']]
    else if opts.alwaysWriteSign then [['+']]
    else if opts.plusAsSpace then [[' ']]
    else []
  let marker :=
    if opts.writePrefix ∧ digits.length ≠ 0 ∧ basePrefix opts.upper base ≠ [] then
      [basePrefix opts.upper base]
    else []
  let zeros := List.replicate (opts.precision - digits.length).toNat [('0' : Byte)]
  (if opts.rightPad then [] else padding) ++ sign ++ marker ++ zeros ++ [digits] ++
    if opts.rightPad then padding else []

/-- The options that the integer conversions share. -/
def Spec.intOpts (spec : Spec) (negative upper writePrefix : Bool) : IntOpts where
  minWidth := if spec.hasWidth then spec.width else 0
  precision := if spec.hasPrecision then spec.precision else 1
  negative
  alwaysWriteSign := spec.flags.sign
  plusAsSpace := spec.flags.space
  padWithZero := spec.flags.zero
  rightPad := spec.flags.ljust
  upper
  writePrefix

/-- The options of `p`. -/
def pointerOpts : IntOpts := ⟨0, 1, false, false, false, false, false, false, true⟩

/-! ### Characters and strings -/

/-- `wcrtomb`; a `wchar_t` is signed. -/
def wcrtomb (wc : BitVec 32) : Option (List Byte) :=
  let byte (marker shift : ℕ) : Byte :=
    BitVec.ofNat 8 marker ||| ((wc >>> shift) &&& 0x3F).setWidth 8
  if wc.toInt ≤ 0x7F then some [wc.setWidth 8]
  else if wc.toInt ≤ 0x7FF then
    some [BitVec.ofNat 8 0xC0 ||| (wc >>> 6).setWidth 8, byte 0x80 0]
  else if wc.toInt ≤ 0xFFFF then
    some [BitVec.ofNat 8 0xE0 ||| (wc >>> 12).setWidth 8, byte 0x80 6, byte 0x80 0]
  else if wc.toInt ≤ 0x10FFFF then
    some [BitVec.ofNat 8 0xF0 ||| (wc >>> 18).setWidth 8, byte 0x80 12, byte 0x80 6, byte 0x80 0]
  else none

/-- A wide character in a formatted output. -/
def wideBytes (wc : BitVec 32) : List Byte := (wcrtomb wc).getD ['?']

/-- The part of a string that `s` takes: up to the terminator, and up to the
precision if there is one. -/
def Spec.cut {α : Type} [DecidableEq α] [OfNat α 0] (spec : Spec) (s : List α) : List α :=
  let s := s.takeWhile (· ≠ 0)
  if spec.hasPrecision then s.take (BitVec.ofInt 64 spec.precision).toNat else s

namespace Printer

variable {F : Type} (ld : LongDouble F) (rounds : ℕ)

/-- `c`. -/
def printChar (spec : Spec) : M F (List (List Byte)) := do
  if spec.flags ≠ ⟨false, false, false, false, false⟩ then .leave .abort
  else if spec.state = .l then pure [wideBytes (← popInt)]
  else if spec.state = .none then pure [[(← popInt).setWidth 8]]
  else .leave .abort

/-- `s`. The width and the flags are not looked at. -/
def printString (spec : Spec) : M F (List (List Byte)) := do
  if spec.state = .l then
    match ← popArg with
    | .wstr s => pure ((spec.cut s).map wideBytes)
    | _ => .leave .argument
  else if spec.state = .none then
    match ← popArg with
    | .str s => pure (if spec.cut s = [] then [] else [spec.cut s])
    | _ => .leave .argument
  else .leave .abort

/-- `d` and `i`. -/
def printSigned (spec : Spec) : M F (List (List Byte)) := do
  let value ← popSignedInt spec.state
  let negative := value.toInt < 0
  pure (writeInt (if negative then -value else value) 10 (spec.intOpts negative false false))

/-- `u`, `x`, `X`, `o`, `b` and `B`. -/
def printUnsigned (spec : Spec) (base : ℕ) (upper writePrefix : Bool) :
    M F (List (List Byte)) := do
  let value ← popUnsignedInt spec.state
  pure (writeInt value base (spec.intOpts false upper writePrefix))

/-- `p`. -/
def printPointer : M F (List (List Byte)) := do
  match ← popArg with
  | .ptr value => pure (writeInt value 16 pointerOpts)
  | _ => .leave .argument

/-- The floating-point conversions. -/
def printFloat (spec : Spec) : M F (List (List Byte)) := do
  if spec.state = .L then
    match ← popArg with
    | .longDouble value => .lift (FormatFloat.formatFloat ld rounds spec value)
    | _ => .leave .argument
  else if spec.state = .none ∨ spec.state = .l then
    match ← popArg with
    | .double value => .lift (FormatFloat.formatFloat ld rounds spec value)
    | _ => .leave .argument
  else .leave .abort

/-- `n`. -/
def printCount (written : ℕ) (spec : Spec) : M F (List (List Byte)) := do
  match spec.state.bits with
  | none => pure []
  | some bits =>
    match ← popArg with
    | .dest =>
      .modify fun s => { s with
        counts := s.counts ++ [⟨spec.state, (BitVec.ofNat bits written).toInt⟩] }
      pure []
    | _ => .leave .argument

/-- The switch over the conversion character: the pieces to write. -/
def pieces (written : ℕ) (spec : Spec) : M F (List (List Byte)) :=
  let c := spec.conv
  if c = 'd' ∨ c = 'i' then printSigned spec
  else if c = 'f' ∨ c = 'F' ∨ c = 'e' ∨ c = 'E' ∨ c = 'g' ∨ c = 'G' ∨ c = 'a' ∨ c = 'A' then
    printFloat ld rounds spec
  else if c = 'u' then printUnsigned spec 10 false false
  else if c = 'x' ∨ c = 'X' then printUnsigned spec 16 (c = 'X') spec.flags.alt
  else if c = 'o' then printUnsigned spec 8 false spec.flags.alt
  else if c = 'b' ∨ c = 'B' then printUnsigned spec 2 (c = 'B') spec.flags.alt
  else if c = 'p' then printPointer
  else if c = 'c' then printChar spec
  else if c = 's' then printString spec
  else if c = 'n' then printCount written spec
  -- an unknown character is written, and a message is printed
  else pure [[c]]

/-- A conversion with what its arguments add to it. -/
def popSpec (flags : Flags) (width precision : Amount) (state : State) (conv : Byte) :
    M F Spec := do
  let (flags, width, hasWidth) ← popWidth flags width
  let (flags, precision, hasPrecision) ← popPrecision flags precision
  pure ⟨flags, width, hasWidth, precision, hasPrecision, state, conv⟩

end Printer

/-! ### The loop over the format -/

/-- A stream to write to: the value that its callback returns. -/
structure Sink (S : Type) where
  write : List Byte → Prog S Fault ℤ

/-- Why the formatter leaves its loop; `failed` is its `return -1`. -/
inductive PrintStop
  | failed
  | fault (e : Fault)
  deriving DecidableEq

structure Printing (S F : Type) where
  io : S
  written : ℕ
  printer : Printer F

namespace Printing

variable {S F : Type} (sink : Sink S) (ld : LongDouble F) (rounds : ℕ)

abbrev M (S F α : Type) := Prog (Printing S F) PrintStop α

def onIo {α : Type} (m : Prog S Fault α) : M S F α :=
  .mapError .fault (.zoom Printing.io (fun io s => { s with io }) m)

def onPrinter {α : Type} (m : Printer.M F α) : M S F α :=
  .mapError .fault (.zoom Printing.printer (fun printer s => { s with printer }) m)

/-- An error number, and `return -1`. -/
def fail (err : ℤ) : M S F Unit := do
  onPrinter (.modify fun s => { s with errno := some err })
  .leave .failed

def einval : ℤ := 22

/-- `write`. The total is checked after the stream was called. -/
def write (str : List Byte) : M S F Unit := do
  let tmp ← onIo (sink.write str)
  if tmp < 0 then .leave .failed
  else
    .modify fun s => { s with written := s.written + tmp.toNat }
    let written ← .gets fun s => s.written
    if intMax < written then fail Stream.eoverflow else pure ()

/-- One round of the loop. -/
def execute : PrintDirective → M S F Unit
  | .text str => write sink str
  | .conversion flags width precision state conv => do
      let written ← .gets fun s => s.written
      let pieces ← onPrinter do
        Printer.pieces ld rounds written (← Printer.popSpec flags width precision state conv)
      .each (write sink) pieces
  | .truncated => fail einval
  | .panic => .leave (.fault .abort)

/-- The whole loop: the value returned. -/
def print (directives : List PrintDirective) : M S F ℤ := do
  .each (execute sink ld rounds) directives
  .gets fun s => s.written

end Printing

/-- What a call of the formatter returns and stores. -/
structure Printed where
  ret : ℤ
  counts : List Count
  errno : Option ℤ
  deriving DecidableEq

variable {S F : Type}

def Printer.printed (s : Printer F) (ret : ℤ) : Printed := ⟨ret, s.counts, s.errno⟩

/-- The formatter as seen by its caller. -/
def Printing.finish : Except PrintStop ℤ × Printing S F → Except Fault Printed × S
  | (.ok value, s) => (.ok (s.printer.printed value), s.io)
  | (.error .failed, s) => (.ok (s.printer.printed (-1)), s.io)
  | (.error (.fault e), s) => (.error e, s.io)

def Printing.start (io : S) (args : List (Arg F)) : Printing S F := ⟨io, 0, args, [], none⟩

def vfprintf (hz : Hz) (ld : LongDouble F) (sink : Sink S) (rounds : ℕ) (fmt : List Byte)
    (args : List (Arg F)) : Prog S Fault Printed := fun s =>
  Printing.finish ((Printing.print sink ld rounds (printDirectives hz fmt.length fmt)).run
    (.start s args))

theorem run_vfprintf (hz : Hz) (ld : LongDouble F) (sink : Sink S) (rounds : ℕ) (fmt : List Byte)
    (args : List (Arg F)) (s : S) :
    (vfprintf hz ld sink rounds fmt args).run s =
      Printing.finish ((Printing.print sink ld rounds (printDirectives hz fmt.length fmt)).run
        (.start s args)) := rfl

end Hzlibc.Stdio
