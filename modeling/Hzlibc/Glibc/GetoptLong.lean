import Hzlibc.Posix.Getopt

/-!
`getopt_long`.

The position between the calls is `optind` and, within an element with short
options, the number of its letters that have been reported, a 32-bit `next_char`.
Elements that are no options are copied to the front of `argv` as they are met,
over what is there; `COPY_NON_OPTION_PTR` is where the next of them goes.

A call does not return where an assertion fails, or where it would follow a null
pointer in `argv`.
-/

namespace Hzlibc.GetoptLong

open Stdio (Byte signed)
open Getopt (hyphen colon question dashes)

/-- `struct option`. The `flag` is the address of an `int`. -/
structure LongOption where
  name : CString
  hasArg : ℤ
  flag : Option ℕ
  val : ℤ

def noArgument : ℤ := 0
def requiredArgument : ℤ := 1
def optionalArgument : ℤ := 2

/-- What is the same in all calls. -/
structure Args where
  argc : ℕ
  optStr : CString
  /-- The entries before the one without a name. -/
  longOpts : List LongOption
  /-- Whether `long_index` is given. -/
  wantsIndex : Bool
  /-- Whether `POSIXLY_CORRECT` is in the environment. -/
  posixlyCorrect : Bool

structure State where
  optarg : Option CString
  optind : ℕ
  opterr : ℤ
  optopt : Byte
  nextChar : ℕ
  copyNonOptionPtr : ℕ
  /-- With the null pointer at its end. -/
  argv : List (Option CString)
  /-- What was last stored at `long_index`. -/
  longIndex : Option ℕ
  /-- The stores to the `flag` pointers. -/
  flags : List (ℕ × ℤ)
  stderr : CString

def isOption (str : CString) : Bool :=
  str.head? = some hyphen && str.tail ≠ [] && str ≠ dashes

def plus : Byte := '+'
def equals : Byte := '='

/-- Whether the options end at the first element that is none. -/
def Args.stopOnNonOption (a : Args) : Bool := a.optStr.head? = some plus || a.posixlyCorrect

def Args.shortOpts (a : Args) : CString :=
  if a.optStr.head? = some plus then a.optStr.tail else a.optStr

def Args.colon (a : Args) : Bool := a.shortOpts.head? = some Getopt.colon

def Args.missing (a : Args) : ℤ := if a.colon then signed Getopt.colon else signed question

/-! ### Long options -/

/-- The first entry with the name, and its index. -/
def findLong (name : CString) : List LongOption → ℕ → Option (ℕ × LongOption)
  | [], _ => none
  | opt :: opts, i => if name = opt.name then some (i, opt) else findLong name opts (i + 1)

/-- The part behind the first `=`. -/
def valueOf (arg : CString) : Option CString := (strchr arg equals).map List.tail

def nameOf (arg : CString) : CString := arg.takeWhile (· != equals)

/-- The store to `long_index`, and the value that is returned or stored. -/
def reportLong (a : Args) (s : State) (i : ℕ) (opt : LongOption) : ℤ × State :=
  let s := if a.wantsIndex then { s with longIndex := some i } else s
  match opt.flag with
  | none => (opt.val, s)
  | some flag => (0, { s with flags := s.flags ++ [(flag, opt.val)] })

/-- `arg` is the element without its two hyphens. -/
def longOption (a : Args) (s : State) (arg : CString) : Option (ℤ × State) :=
  match findLong (nameOf arg) a.longOpts 0 with
  | none =>
    some (signed question,
      if s.opterr ≠ 0 then
        { s with stderr := s.stderr ++ literal "--" ++ arg ++ literal " is not a valid option\n" }
      else s)
  | some (i, opt) =>
    if opt.hasArg = noArgument then
      some (reportLong a { s with optind := s.optind + 1, optarg := none } i opt)
    else if opt.hasArg = requiredArgument then
      match valueOf arg with
      | some value =>
        some (reportLong a { s with optind := s.optind + 1, optarg := some value } i opt)
      | none =>
        if s.optind + 1 < a.argc then
          some (reportLong a { s with
            optarg := s.argv[s.optind + 1]?.join, optind := s.optind + 2 } i opt)
        else
          some (a.missing,
            if !a.colon ∧ s.opterr ≠ 0 then
              { s with stderr := s.stderr ++ arg ++ literal " requires an argument\n" }
            else s)
    else if opt.hasArg = optionalArgument then
      some (reportLong a { s with optind := s.optind + 1, optarg := valueOf arg } i opt)
    else none

/-! ### Short options -/

/-- What the option string says about a letter. -/
inductive Kind
  | plain
  | required
  | optional
  deriving DecidableEq

def Args.kind (a : Args) (c : Byte) : Option Kind :=
  match strchr a.shortOpts c with
  | none => none
  | some pos =>
    if pos.tail.head? = some Getopt.colon then
      if pos.tail.tail.head? = some Getopt.colon then some .optional else some .required
    else some .plain

/-- The values of a 32-bit counter. -/
def wrap : ℕ := 2 ^ 32

/-- Whether `arg[next_char + 1]` is a character. -/
def follows (arg : CString) (i : ℕ) : Bool := (i + 1) % wrap < arg.length

/-- `arg` is the element without its hyphen. -/
def shortOption (a : Args) (s : State) (arg : CString) : Option (ℤ × State) :=
  match arg[s.nextChar]? with
  | none => none
  | some c =>
    match a.kind c with
    | none =>
      some (signed question,
        { s with
          optopt := c
          stderr :=
            if s.opterr ≠ 0 then
              s.stderr ++ literal "-" ++ [c] ++ literal " is not a valid option\n"
            else s.stderr })
    | some kind =>
      if kind = .plain then
        if follows arg s.nextChar then
          some (signed c, { s with nextChar := (s.nextChar + 1) % wrap })
        else some (signed c, { s with nextChar := 0, optind := s.optind + 1 })
      else if follows arg s.nextChar then
        some (signed c,
          { s with
            optarg := some (arg.drop (s.nextChar + 1)), nextChar := 0
            optind := s.optind + 1 })
      else if kind = .optional then
        some (signed c, { s with optarg := none, nextChar := 0, optind := s.optind + 1 })
      else if s.optind + 1 < a.argc then
        match s.argv[s.optind + 1]?.join with
        | none => none
        | some value =>
          if isOption value then some (a.missing, { s with optopt := c, nextChar := 0 })
          else
            some (signed c, { s with optarg := some value, nextChar := 0, optind := s.optind + 2 })
      else some (a.missing, { s with optopt := c, nextChar := 0 })

/-! ### The loop -/

/-- How many elements there are before the next option. -/
def countNonOptions : List (Option CString) → Option ℕ
  | [] => some 0
  | none :: _ => none
  | some arg :: rest => if isOption arg then some 0 else (countNonOptions rest).map (· + 1)

/-- Copies `n` elements, from index `i` on. -/
def copyNonOptions : ℕ → ℕ → State → State
  | 0, _, s => s
  | n + 1, i, s =>
    copyNonOptions n (i + 1)
      { s with
        argv := s.argv.set s.copyNonOptionPtr s.argv[i]?.join
        copyNonOptionPtr := s.copyNonOptionPtr + 1 }

def loop (a : Args) (s : State) : Option (ℤ × State) :=
  if s.optind < a.argc then
    match s.argv[s.optind]?.join with
    | none => none
    | some arg =>
      if isOption arg then
        if arg.tail.head? = some hyphen then longOption a s (arg.drop 2)
        else shortOption a s arg.tail
      else if a.stopOnNonOption then some (-1, s)
      else
        match countNonOptions ((s.argv.take a.argc).drop (s.optind + 1)) with
        | none => none
        | some n =>
          let s' := { copyNonOptions (n + 1) s.optind s with optind := s.optind + (n + 1) }
          if s'.optind = a.argc then
            some (-1, { s' with optind := 1, argv := s'.argv.set s'.copyNonOptionPtr none })
          else loop a s'
  else some (-1, s)
termination_by a.argc - s.optind
decreasing_by omega

def State.reset (s : State) : State :=
  { s with
    optarg := none
    optind := 1
    opterr := 1
    optopt := 0
    nextChar := 0
    copyNonOptionPtr := 1 }

def getoptLong (a : Args) (s : State) : Option (ℤ × State) :=
  loop a (if s.optind = 0 then s.reset else s)

end Hzlibc.GetoptLong
