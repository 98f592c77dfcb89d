import Hzlibc.Stdio.Snprintf

/-!
Formats that are one conversion.

A directive is given by what the manual of `printf` says it consists of, and
is written out as the format that a caller would write. The formatter reads it
back; what it makes of the flags and of the arguments for the stars is its
`Spec`. With a stream that keeps everything, the call then writes the pieces of
the conversion, unless they are more than an `int` can count.
-/

namespace Hzlibc.Stdio

open Effect List Prog

/-! ### Directives -/

inductive Flag
  | minus
  | plus
  | space
  | alt
  | zero
  deriving DecidableEq

def Flag.char : Flag → Byte
  | .minus => '-'
  | .plus => '+'
  | .space => ' '
  | .alt => '#'
  | .zero => '0'

/-- What the formatter makes of a flag. -/
def Flag.apply (flags : Flags) : Flag → Flags
  | .minus => { flags with ljust := true }
  | .plus => { flags with sign := true }
  | .space => { flags with space := flags.space || !flags.sign }
  | .alt => { flags with alt := true }
  | .zero => { flags with zero := flags.zero || !flags.ljust }

/-- A number in decimal notation. -/
structure Numeral where
  digits : List Byte
  ne : digits ≠ []
  isdigit : ∀ d ∈ digits, isdigit d = true

def Numeral.value (n : Numeral) : ℕ := decimal n.digits

/-- A width; digits that start with a zero would be a flag. -/
inductive WidthText
  | absent
  | digits (n : Numeral) (lead : n.digits.head? ≠ some ('0' : Byte))
  | star (arg : BitVec 32)

/-- A width of one digit. -/
def WidthText.single (d : Byte) : WidthText :=
  if h : isdigit d = true ∧ d ≠ ('0' : Byte) then
    .digits ⟨[d], List.cons_ne_nil d [], List.forall_mem_singleton.mpr h.1⟩
      fun hzero => h.2 (Option.some.inj hzero)
  else .absent

inductive PrecisionText
  | absent
  | bare
  | digits (n : Numeral)
  | star (arg : BitVec 32)

inductive IntConv
  | d
  | i
  | u
  | o
  | x
  | X
  deriving DecidableEq

/-- The conversions considered here. -/
inductive PrintConv
  | int (conv : IntConv)
  | s
  deriving DecidableEq

def PrintConv.char : PrintConv → Byte
  | .int .d => 'd'
  | .int .i => 'i'
  | .int .u => 'u'
  | .int .o => 'o'
  | .int .x => 'x'
  | .int .X => 'X'
  | .s => 's'

def State.chars : State → List Byte
  | .none => []
  | .hh => ['h', 'h']
  | .h => ['h']
  | .l => ['l']
  | .ll => ['l', 'l']
  | .j => ['j']
  | .z => ['z']
  | .t => ['t']
  | .L => ['L']

def WidthText.chars : WidthText → List Byte
  | .absent => []
  | .digits n _ => n.digits
  | .star _ => ['*']

def PrecisionText.chars : PrecisionText → List Byte
  | .absent => []
  | .bare => ['.']
  | .digits n => ('.' : Byte) :: n.digits
  | .star _ => ['.', '*']

/-! What a width and a precision stand for. A negative argument for the width is
a minus flag and a width; one for the precision is as good as none. -/

def WidthText.number : WidthText → ℕ
  | .absent => 0
  | .digits n _ => n.value
  | .star arg => arg.toInt.natAbs

def WidthText.negative : WidthText → Bool
  | .star arg => arg.toInt < 0
  | _ => false

def PrecisionText.number : PrecisionText → Option ℕ
  | .absent => none
  | .bare => some 0
  | .digits n => some n.value
  | .star arg => if 0 ≤ arg.toInt then some arg.toInt.toNat else none

/-- A conversion as it is written, with the arguments for its stars. -/
structure Written where
  flags : List Flag
  width : WidthText
  precision : PrecisionText
  state : State
  conv : PrintConv

namespace Written

variable (w : Written)

/-- What follows the flags. -/
def tail : List Byte :=
  w.width.chars ++ (w.precision.chars ++ (w.state.chars ++ [w.conv.char]))

def render : List Byte := ('%' : Byte) :: (w.flags.map Flag.char ++ w.tail)

def widthArgs {F : Type} : List (Arg F) :=
  match w.width with
  | .star arg => [.int arg]
  | _ => []

def precisionArgs {F : Type} : List (Arg F) :=
  match w.precision with
  | .star arg => [.int arg]
  | _ => []

/-- The flags after the characters were read. -/
def readFlags : Flags := w.flags.foldl Flag.apply ⟨false, false, false, false, false⟩

def widthAmount : Amount :=
  match w.width with
  | .absent => .absent
  | .digits n _ => .number n.value
  | .star _ => .star

def precisionAmount : Amount :=
  match w.precision with
  | .absent => .absent
  | .bare => .bare
  | .digits n => .number n.value
  | .star _ => .star

/-- The numerals are within the range of `int`. -/
structure Fits : Prop where
  width : ∀ n lead, w.width = .digits n lead → (n.value : ℤ) ≤ intMax
  precision : ∀ n, w.precision = .digits n → (n.value : ℤ) ≤ intMax

end Written

/-! ### Reading a directive -/

variable (flags : Flags)

theorem Flags.set_char (f : Flag) : flags.set f.char = some (f.apply flags) := by
  cases f <;> rfl

theorem printFlags_append (fs : List Flag) (rest : List Byte) :
    printFlags flags (fs.map Flag.char ++ rest) = printFlags (fs.foldl Flag.apply flags) rest := by
  induction fs generalizing flags with
  | nil => rfl
  | cons f fs ih =>
    simp [printFlags, Flags.set_char]
    exact ih _

/-- A character that is not a flag. -/
def endsFlags (c : Byte) : Bool := !(['-', '+', ' ', '#', '0'] : List Byte).contains c

variable {c : Byte}

theorem printFlags_stop {flags : Flags} {rest : List Byte} (h : endsFlags c = true) :
    printFlags flags (c :: rest) = (flags, c :: rest) := by
  have hnone : flags.set c = none := by
    simp only [endsFlags, contains_eq_mem, mem_cons, not_mem_nil, or_false, Bool.not_eq_true',
      decide_eq_false_iff_not, not_or] at h
    obtain ⟨hminus, hplus, hspace, halt, hzero⟩ := h
    rw [Flags.set, if_neg hminus, if_neg hplus, if_neg hspace, if_neg halt, if_neg hzero]
  rw [printFlags, hnone]

/-- A character that starts neither a number nor a star. -/
def endsAmount (c : Byte) : Bool := !isdigit c && c ≠ '*'

theorem printAmount_stop (hz : Hz) (otherwise : Amount) {rest : List Byte}
    (h : endsAmount c = true) :
    printAmount hz otherwise (c :: rest) = some (otherwise, c :: rest) := by
  simp [endsAmount] at h
  have hstar : some c ≠ some ('*' : Byte) := fun heq => h.2 (Option.some.inj heq)
  rw [printAmount, List.head?_cons, Option.any_some, h.1, if_neg Bool.false_ne_true, if_neg hstar]

theorem printAmount_digits (hz : Hz) (otherwise : Amount) (n : Numeral)
    (hn : (n.value : ℤ) ≤ intMax) {rest : List Byte} (hc : isdigit c = false) :
    printAmount hz otherwise (n.digits ++ c :: rest) = some (.number n.value, c :: rest) := by
  have hlaw := hz.toInteger_digits n.digits (c :: rest) n.ne n.isdigit (by simpa using hc) hn
  have hhead : (n.digits ++ c :: rest).head?.any isdigit = true := by
    obtain ⟨d, ds, hds⟩ := exists_cons_of_ne_nil n.ne
    have hd := n.isdigit d (by simp [hds])
    simp [hds, hd]
  rw [printAmount, if_pos hhead, hlaw]
  simp [Numeral.value]

variable {fmt : List Byte}

theorem isPositional_of_not_mem (h : ('$' : Byte) ∉ fmt) : isPositional fmt = false := by
  rcases fmt with _ | ⟨c, _ | ⟨d, rest⟩⟩
  · rfl
  · simp [isPositional]
  · have hd : (c :: d :: rest).tail.head? ≠ some ('$' : Byte) := by
      intro heq
      cases heq
      exact h (by simp)
    rw [isPositional, decide_eq_false hd, Bool.and_false]

theorem printAmount_star (hz : Hz) (otherwise : Amount) {rest : List Byte}
    (h : ('$' : Byte) ∉ rest) :
    printAmount hz otherwise (('*' : Byte) :: rest) = some (.star, rest) := by
  have hdigit : isdigit ('*' : Byte) = false := by decide
  rw [printAmount, List.head?_cons, Option.any_some, hdigit, if_neg Bool.false_ne_true,
    if_pos rfl, tail_cons, isPositional_of_not_mem h, if_neg Bool.false_ne_true]

theorem scanState_chars (state : State) (conv : PrintConv) :
    scanState (state.chars ++ [conv.char]) = (state, [conv.char]) := by
  rcases conv with conv | _
  · cases state <;> cases conv <;> rfl
  · cases state <;> rfl

namespace Written

variable (w : Written)

/-- A character that a directive has after its percent sign. -/
def ordinary (c : Byte) : Bool := c ≠ '%' && c ≠ '$' && c ≠ 39

theorem ordinary_of_isdigit : ∀ c : Byte, isdigit c = true → ordinary c = true := by decide

theorem ordinary_flag (f : Flag) : ordinary f.char = true := by
  cases f <;> decide

def ending : List Byte := w.state.chars ++ [w.conv.char]

/-- The modifiers and the conversions are letters. -/
def isLetter (c : Byte) : Bool := 65 ≤ c.toNat && c.toNat ≤ 122

theorem isLetter_chars (state : State) : ∀ c ∈ state.chars, isLetter c = true := by
  cases state <;> decide

theorem isLetter_ending : ∀ c ∈ w.ending, isLetter c = true := by
  intro c hc
  rcases mem_append.mp hc with hc | hc
  · exact isLetter_chars w.state c hc
  · rw [mem_singleton.mp hc]
    rcases w.conv with conv | _
    · cases conv <;> decide
    · decide

theorem ordinary_of_isLetter : ∀ c : Byte, isLetter c = true → ordinary c = true := by decide

theorem ordinary_ending : ∀ c ∈ w.ending, ordinary c = true := fun c hc =>
  ordinary_of_isLetter c (w.isLetter_ending c hc)

theorem ordinary_precision : ∀ c ∈ w.precision.chars, ordinary c = true := by
  cases w.precision with
  | absent => exact fun c hc => absurd hc (not_mem_nil)
  | bare => decide
  | digits n =>
    intro c hc
    rcases mem_cons.mp hc with rfl | hc
    · decide
    · exact ordinary_of_isdigit c (n.isdigit c hc)
  | star arg =>
    have h : ∀ c ∈ (['.', '*'] : List Byte), ordinary c = true := by decide
    exact h

theorem ordinary_width : ∀ c ∈ w.width.chars, ordinary c = true := by
  cases w.width with
  | absent => exact fun c hc => absurd hc (not_mem_nil)
  | digits n lead => exact fun c hc => ordinary_of_isdigit c (n.isdigit c hc)
  | star arg =>
    have h : ∀ c ∈ (['*'] : List Byte), ordinary c = true := by decide
    exact h

theorem ordinary_tail (hc : c ∈ w.flags.map Flag.char ++ w.tail) : ordinary c = true := by
  rcases mem_append.mp hc with hc | hc
  · obtain ⟨f, _, rfl⟩ := mem_map.mp hc
    exact ordinary_flag f
  · rcases mem_append.mp hc with hc | hc
    · exact w.ordinary_width c hc
    · rcases mem_append.mp hc with hc | hc
      · exact w.ordinary_precision c hc
      · exact w.ordinary_ending c hc

theorem not_mem_of_not_ordinary (h : ordinary c = false) : c ∉ w.flags.map Flag.char ++ w.tail := by
  intro hc
  rw [w.ordinary_tail hc] at h
  exact Bool.noConfusion h

/-- The end of a directive starts with a letter. -/
theorem ending_cons : ∃ c rest, w.ending = c :: rest ∧ endsFlags c = true ∧
    endsAmount c = true ∧ c ≠ '.' := by
  have hletter : ∀ c : Byte, isLetter c = true →
      endsFlags c = true ∧ endsAmount c = true ∧ c ≠ '.' := by decide
  have hne : w.ending ≠ [] := append_ne_nil_of_right_ne_nil _ (cons_ne_nil _ _)
  obtain ⟨c, rest, heq⟩ := exists_cons_of_ne_nil hne
  exact ⟨c, rest, heq, hletter c (w.isLetter_ending c (heq ▸ mem_cons_self))⟩

/-- After the width there is neither a digit nor a star, and no flag. -/
theorem precision_cons : ∃ c rest, w.precision.chars ++ w.ending = c :: rest ∧
    endsFlags c = true ∧ endsAmount c = true := by
  cases w.precision with
  | absent =>
    obtain ⟨c, rest, heq, hflags, hamount, _⟩ := w.ending_cons
    exact ⟨c, rest, heq, hflags, hamount⟩
  | bare | digits n | star arg => exact ⟨'.', _, rfl, by decide⟩

theorem tail_cons : ∃ c rest, w.tail = c :: rest ∧ endsFlags c = true := by
  rw [tail]
  cases w.width with
  | absent =>
    obtain ⟨c, rest, heq, hflags, _⟩ := w.precision_cons
    exact ⟨c, rest, heq, hflags⟩
  | digits n lead =>
    obtain ⟨d, ds, hds⟩ := exists_cons_of_ne_nil n.ne
    refine ⟨d, _, by rw [WidthText.chars, hds, cons_append], ?_⟩
    have hend : ∀ d : Byte, isdigit d = true → d ≠ '0' → endsFlags d = true := by decide
    refine hend d (n.isdigit d (by simp [hds])) ?_
    rintro rfl
    exact lead (by rw [hds, List.head?_cons])
  | star arg => exact ⟨'*', _, rfl, by decide⟩

theorem isdigit_of_endsAmount (h : endsAmount c = true) : isdigit c = false := by
  simp [endsAmount] at h
  exact h.1

theorem printPrecision_chars (hz : Hz) (hfits : w.Fits) :
    printPrecision hz (w.precision.chars ++ w.ending) = some (w.precisionAmount, w.ending) := by
  obtain ⟨c, rest, heq, _, hamount, hpoint⟩ := w.ending_cons
  have hdollar : ('$' : Byte) ∉ w.ending := fun hc => absurd (w.ordinary_ending _ hc) (by decide)
  rw [precisionAmount]
  cases hp : w.precision with
  | absent =>
    have hne : some c ≠ some ('.' : Byte) := fun h => hpoint (Option.some.inj h)
    rw [PrecisionText.chars, nil_append, heq, printPrecision, List.head?_cons, if_neg hne]
  | bare => exact (congrArg _ heq).trans ((printAmount_stop hz .bare hamount).trans (by rw [heq]))
  | digits n =>
    rw [heq]
    exact printAmount_digits hz .bare n (hfits.precision n hp) (isdigit_of_endsAmount hamount)
  | star arg => exact printAmount_star hz .bare hdollar

theorem printAmount_width (hz : Hz) (hfits : w.Fits) :
    printAmount hz .absent w.tail = some (w.widthAmount, w.precision.chars ++ w.ending) := by
  obtain ⟨c, rest, heq, _, hamount⟩ := w.precision_cons
  have hdollar : ('$' : Byte) ∉ w.precision.chars ++ w.ending := by
    intro hc
    rcases mem_append.mp hc with hc | hc
    · exact absurd (w.ordinary_precision _ hc) (by decide)
    · exact absurd (w.ordinary_ending _ hc) (by decide)
  rw [tail, widthAmount, ← ending]
  cases hw : w.width with
  | absent => rw [heq]; exact printAmount_stop hz .absent hamount
  | digits n lead =>
    rw [heq]
    exact printAmount_digits hz .absent n (hfits.width n lead hw) (isdigit_of_endsAmount hamount)
  | star arg => exact printAmount_star hz .absent hdollar

theorem printFlags_render :
    printFlags ⟨false, false, false, false, false⟩ (w.flags.map Flag.char ++ w.tail) =
      (w.readFlags, w.tail) := by
  obtain ⟨c, rest, heq, hflags⟩ := w.tail_cons
  rw [printFlags_append, heq, printFlags_stop hflags, readFlags]

theorem printSpec_render (hz : Hz) (hfits : w.Fits) :
    printSpec hz (w.flags.map Flag.char ++ w.tail) =
      (.conversion w.readFlags w.widthAmount w.precisionAmount w.state w.conv.char, []) := by
  have hpositional := isPositional_of_not_mem (w.not_mem_of_not_ordinary (c := '$') (by decide))
  have hquote : ¬ w.tail.head? = some (39 : Byte) := by
    intro heq
    refine w.not_mem_of_not_ordinary (c := 39) (by decide) (mem_append_right _ ?_)
    exact mem_of_mem_head? heq
  have hstate : scanState w.ending = (w.state, [w.conv.char]) := scanState_chars _ _
  simp only [printSpec, hpositional, Bool.false_eq_true, if_false, w.printFlags_render, hquote,
    w.printAmount_width hz hfits, w.printPrecision_chars hz hfits, hstate]

theorem printPercents_render : printPercents w.render = (0, w.render) := by
  have hnone : (w.flags.map Flag.char ++ w.tail).head? ≠ some ('%' : Byte) := fun heq =>
    w.not_mem_of_not_ordinary (c := '%') (by decide) (mem_of_mem_head? heq)
  rw [render]
  rcases hrest : w.flags.map Flag.char ++ w.tail with _ | ⟨c, rest⟩
  · rfl
  · rw [hrest] at hnone
    rw [printPercents, if_neg fun h => hnone (congrArg some h.2)]

/-- The format that was written is read as its one directive. -/
theorem printDirectives_render (hz : Hz) (hfits : w.Fits) :
    printDirectives hz w.render.length w.render =
      [.conversion w.readFlags w.widthAmount w.precisionAmount w.state w.conv.char] := by
  have hfirst : printDirective hz w.render =
      (.conversion w.readFlags w.widthAmount w.precisionAmount w.state w.conv.char, []) := by
    have hrest : w.render.dropWhile (· ≠ ('%' : Byte)) = w.render := by simp [render]
    rw [printDirective, hrest, w.printPercents_render]
    exact w.printSpec_render hz hfits
  rw [render] at hfirst ⊢
  rw [length_cons, printDirectives, hfirst, printDirectives]
  exact cons_ne_nil _ _

/-- A character in front of the directive is printed as it is. -/
theorem printDirectives_cons (hc : c ≠ ('%' : Byte)) (hz : Hz) :
    printDirectives hz (c :: w.render).length (c :: w.render) =
      .text [c] :: printDirectives hz w.render.length w.render := by
  have htext : (c :: w.render).takeWhile (· ≠ ('%' : Byte)) = [c] := by
    rw [takeWhile_cons, if_pos (decide_eq_true hc)]
    simp [render]
  have hrest : (c :: w.render).dropWhile (· ≠ ('%' : Byte)) = w.render := by
    rw [dropWhile_cons, if_pos (decide_eq_true hc)]
    simp [render]
  have hfirst : printDirective hz (c :: w.render) = (.text [c], w.render) := by
    rw [printDirective, htext, hrest, w.printPercents_render]
    rfl
  rw [length_cons, printDirectives, hfirst]
  exact cons_ne_nil _ _

/-! ### The arguments of a directive -/

/-- The width, and the flags with what a star adds to them. -/
def readWidth (flags : Flags) : Flags × ℤ × Bool :=
  match w.width with
  | .absent => (flags, 0, false)
  | .digits n _ => (flags, n.value, true)
  | .star arg =>
    if arg.toInt < 0 then ({ flags with ljust := true }, toInt32 (arg.toInt * -1), true)
    else (flags, arg.toInt, true)

def readPrecision (flags : Flags) : Flags × ℤ × Bool :=
  match w.precision with
  | .absent => (flags, 0, false)
  | .bare => ({ flags with zero := false }, 0, true)
  | .digits n => ({ flags with zero := false }, n.value, true)
  | .star arg =>
    if 0 ≤ arg.toInt then ({ flags with zero := false }, arg.toInt, true)
    else (flags, arg.toInt, false)

/-- What the formatter makes of the directive. -/
def spec : Spec :=
  let (flags, width, hasWidth) := w.readWidth w.readFlags
  let (flags, precision, hasPrecision) := w.readPrecision flags
  ⟨flags, width, hasWidth, precision, hasPrecision, w.state, w.conv.char⟩

variable {F : Type}

@[simp] theorem run_popInt (value : BitVec 32) (args : List (Arg F)) (counts : List Count)
    (errno : Option ℤ) :
    Printer.popInt.run ⟨.int value :: args, counts, errno⟩ =
      (.ok value, ⟨args, counts, errno⟩) := rfl

theorem run_popWidth (args : List (Arg F)) (counts : List Count) (errno : Option ℤ) :
    (Printer.popWidth flags w.widthAmount).run ⟨w.widthArgs ++ args, counts, errno⟩ =
      (.ok (w.readWidth flags), ⟨args, counts, errno⟩) := by
  rw [widthAmount, widthArgs, readWidth]
  cases w.width with
  | absent | digits n lead => rfl
  | star arg =>
    refine (run_bind_of_ok (run_popInt arg args counts errno)).trans ?_
    dsimp only
    split <;> rfl

theorem run_popPrecision (args : List (Arg F)) (counts : List Count) (errno : Option ℤ) :
    (Printer.popPrecision flags w.precisionAmount).run ⟨w.precisionArgs ++ args, counts, errno⟩ =
      (.ok (w.readPrecision flags), ⟨args, counts, errno⟩) := by
  rw [precisionAmount, precisionArgs, readPrecision]
  cases w.precision with
  | absent | bare | digits n => rfl
  | star arg =>
    refine (run_bind_of_ok (run_popInt arg args counts errno)).trans ?_
    dsimp only
    split <;> rfl

theorem run_popSpec (args : List (Arg F)) (counts : List Count) (errno : Option ℤ) :
    (Printer.popSpec w.readFlags w.widthAmount w.precisionAmount w.state w.conv.char).run
        ⟨w.widthArgs ++ (w.precisionArgs ++ args), counts, errno⟩ =
      (.ok w.spec, ⟨args, counts, errno⟩) := by
  rw [Printer.popSpec, run_bind_of_ok (w.run_popWidth _ _ _ _),
    run_bind_of_ok (w.run_popPrecision _ _ _ _)]
  rfl

end Written

/-! ### What a call writes -/

namespace Printing

variable {F : Type}

theorem run_each_write_collect (pieces : List (List Byte)) (s : Printing (List Byte) F)
    (h : (s.written + pieces.flatten.length : ℕ) ≤ intMax) :
    (Prog.each (write .collect) pieces).run s =
      (.ok (), ⟨s.io ++ pieces.flatten, s.written + pieces.flatten.length, s.printer⟩) := by
  induction pieces generalizing s with
  | nil =>
    rw [flatten_nil, append_nil]
    rfl
  | cons str pieces ih =>
    rw [flatten_cons, length_append] at h
    have hfirst := run_write_collect str s
    rw [if_neg (by omega)] at hfirst
    rw [Prog.each, run_bind_of_ok hfirst, ih _ (by simp only; omega), flatten_cons,
      append_assoc, length_append, Nat.add_assoc]

/-- The pieces up to the first with which there are more bytes than an `int`
can count. -/
theorem run_each_write_collect_failed (pieces : List (List Byte)) (s : Printing (List Byte) F)
    (hs : s.written ≤ intMax) (h : intMax < (s.written + pieces.flatten.length : ℕ)) :
    ∃ k s', (Prog.each (write .collect) pieces).run s = (.error .failed, s') ∧
      s'.io = s.io ++ (pieces.take k).flatten ∧
      intMax < (s.written + (pieces.take k).flatten.length : ℕ) := by
  induction pieces generalizing s with
  | nil =>
    rw [flatten_nil, length_nil] at h
    omega
  | cons str pieces ih =>
    rw [flatten_cons, length_append] at h
    have hfirst := run_write_collect str s
    by_cases hover : intMax < (s.written + str.length : ℕ)
    · rw [if_pos hover] at hfirst
      refine ⟨1, _, by rw [Prog.each, run_bind_of_error hfirst], ?_⟩
      simpa using hover
    · rw [if_neg hover] at hfirst
      obtain ⟨k, s', hrun, hio, hlt⟩ := ih ⟨s.io ++ str, s.written + str.length, s.printer⟩
        (Int.not_lt.mp hover) (by simp only; omega)
      refine ⟨k + 1, s', by rw [Prog.each, run_bind_of_ok hfirst, hrun], ?_, ?_⟩
      · rw [hio, take_succ_cons, flatten_cons, append_assoc]
      · rw [take_succ_cons, flatten_cons, length_append]
        simp only at hlt
        omega

/-- What has been written can be counted by an `int`. -/
def Bounded (s : Printing (List Byte) F) : Prop := (s.written : ℤ) ≤ intMax

theorem write_bounded (str : List Byte) (s s' : Printing (List Byte) F)
    (h : (write .collect str).run s = (.ok (), s')) (_ : s.Bounded) : s'.Bounded := by
  rw [run_write_collect] at h
  split at h
  · cases h
  · cases h
    exact Int.not_lt.mp ‹_›

theorem onPrinter_written {α : Type} {m : Printer.M F α} {s s' : Printing (List Byte) F}
    {a : Except PrintStop α} (h : (onPrinter m).run s = (a, s')) : s'.written = s.written := by
  cases h
  rfl

theorem execute_bounded {ld : LongDouble F} {rounds : ℕ} (d : PrintDirective)
    (s s' : Printing (List Byte) F) (h : (execute .collect ld rounds d).run s = (.ok (), s'))
    (hs : s.Bounded) : s'.Bounded := by
  cases d with
  | text str => exact write_bounded str s s' h hs
  | conversion flags width precision state conv =>
    simp [execute] at h
    split at h
    next pieces t ht =>
      have hsame := onPrinter_written ht
      exact each_keeps write_bounded pieces t s' h (by rwa [Bounded, hsame])
    · cases h
  | truncated | panic => cases h

end Printing

section Calls

variable {F : Type} (hz : Hz) (ld : LongDouble F) (rounds : ℕ)

theorem vfprintf_collect_le {args : List (Arg F)} {printed : Printed}
    {out : List Byte} (h : (vfprintf hz ld .collect rounds fmt args).run [] = (.ok printed, out)) :
    printed.ret ≤ intMax := by
  rw [run_vfprintf, Printing.print, run_bind] at h
  rcases hrun : (Prog.each (Printing.execute .collect ld rounds)
    (printDirectives hz fmt.length fmt)).run (.start [] args) with ⟨(_ | _) | _, s⟩
  · rw [hrun] at h
    cases h
    exact (by decide : (-1 : ℤ) ≤ intMax)
  · rw [hrun] at h
    cases h
  · have hstart : (Printing.start [] args : Printing (List Byte) F).Bounded :=
      (by decide : ((0 : ℕ) : ℤ) ≤ intMax)
    have hbound := each_keeps Printing.execute_bounded _ _ _ hrun hstart
    rw [hrun] at h
    cases h
    exact hbound

/-- The call writes exactly the field, and returns its length. -/
def Emits (fmt : List Byte) (args : List (Arg F)) (field : List Byte) : Prop :=
  ∃ printed, (vfprintf hz ld .collect rounds fmt args).run [] = (.ok printed, field) ∧
    printed.ret = field.length

variable {hz ld rounds}

theorem Emits.length_le {args : List (Arg F)} {field : List Byte}
    (h : Emits hz ld rounds fmt args field) : (field.length : ℤ) ≤ intMax := by
  obtain ⟨printed, hrun, hret⟩ := h
  rw [← hret]
  exact vfprintf_collect_le hz ld rounds hrun

namespace Written

variable {w : Written} {args rest : List (Arg F)} {pieces : List (List Byte)}

theorem run_execute (io : List Byte) (written : ℕ)
    (hpieces : (Printer.pieces ld rounds written w.spec).run ⟨args, [], none⟩ =
      (.ok pieces, ⟨rest, [], none⟩)) :
    (Printing.execute .collect ld rounds
        (.conversion w.readFlags w.widthAmount w.precisionAmount w.state w.conv.char)).run
          ⟨io, written, ⟨w.widthArgs ++ (w.precisionArgs ++ args), [], none⟩⟩ =
      (Prog.each (Printing.write .collect) pieces).run ⟨io, written, ⟨rest, [], none⟩⟩ := by
  have hspec := run_bind_of_ok (f := Printer.pieces ld rounds written)
    (w.run_popSpec args [] none)
  rw [Printing.execute, run_bind_of_ok (run_gets _ _)]
  refine run_bind_of_ok ?_
  rw [Printing.onPrinter, run_mapError, run_zoom, hspec, hpieces]
  rfl

section Pieces

variable (hfits : w.Fits) (hpieces : (Printer.pieces ld rounds 0 w.spec).run ⟨args, [], none⟩ =
  (.ok pieces, ⟨rest, [], none⟩))

include hfits hpieces

/-- A conversion writes its pieces, unless they are too many for an `int`. -/
theorem run_vfprintf_render (hle : (pieces.flatten.length : ℤ) ≤ intMax) :
    (vfprintf hz ld .collect rounds w.render (w.widthArgs ++ (w.precisionArgs ++ args))).run [] =
      (.ok ⟨pieces.flatten.length, [], none⟩, pieces.flatten) := by
  have heach := Printing.run_each_write_collect pieces (.start [] rest)
    (by rwa [Printing.start, Nat.zero_add])
  have hexecute := (run_execute [] 0 hpieces).trans heach
  rw [run_vfprintf, w.printDirectives_render hz hfits, Printing.print, run_bind, Prog.each,
    Printing.start, run_bind_of_ok hexecute]
  simp [Prog.each, Printing.finish, Printing.start, Printer.printed]

variable (hz) in
theorem run_vfprintf_render_failed (hlt : intMax < pieces.flatten.length) :
    ∃ printed k, (vfprintf hz ld .collect rounds w.render
        (w.widthArgs ++ (w.precisionArgs ++ args))).run [] =
          (.ok printed, (pieces.take k).flatten) ∧
      printed.ret = -1 ∧ intMax < (pieces.take k).flatten.length := by
  obtain ⟨k, s', heach, hio, hk⟩ := Printing.run_each_write_collect_failed pieces (.start [] rest)
    (by decide : ((0 : ℕ) : ℤ) ≤ intMax) (by rwa [Printing.start, Nat.zero_add])
  rw [Printing.start, Nat.zero_add] at hk
  have hexecute := (run_execute [] 0 hpieces).trans heach
  rw [run_vfprintf, w.printDirectives_render hz hfits, Printing.print, run_bind, Prog.each,
    Printing.start, run_bind_of_error hexecute]
  exact ⟨s'.printer.printed (-1), k, Prod.ext rfl hio, rfl, hk⟩

theorem emits_iff {field : List Byte} :
    Emits hz ld rounds w.render (w.widthArgs ++ (w.precisionArgs ++ args)) field ↔
      pieces.flatten = field ∧ (field.length : ℤ) ≤ intMax := by
  constructor
  · intro h
    refine ⟨?_, h.length_le⟩
    obtain ⟨printed, hrun, hret⟩ := h
    by_cases hle : (pieces.flatten.length : ℤ) ≤ intMax
    · rw [run_vfprintf_render hfits hpieces hle] at hrun
      exact congrArg Prod.snd hrun
    · obtain ⟨printed', k, hrun', hret', _⟩ :=
        run_vfprintf_render_failed hz hfits hpieces (Int.not_le.mp hle)
      rw [hrun'] at hrun
      cases hrun
      omega
  · rintro ⟨rfl, hle⟩
    exact ⟨_, run_vfprintf_render hfits hpieces hle, rfl⟩

end Pieces

/-- The same with a character in front. -/
theorem emits_cons (hc : c ≠ ('%' : Byte)) (hfits : w.Fits)
    (hpieces : (Printer.pieces ld rounds 1 w.spec).run ⟨args, [], none⟩ =
      (.ok pieces, ⟨rest, [], none⟩)) (hle : ((c :: pieces.flatten).length : ℤ) ≤ intMax) :
    Emits hz ld rounds (c :: w.render) (w.widthArgs ++ (w.precisionArgs ++ args))
      (c :: pieces.flatten) := by
  rw [length_cons] at hle
  have hfirst : (Printing.write .collect [c]).run
      (.start [] (w.widthArgs ++ (w.precisionArgs ++ args)) : Printing (List Byte) F) =
      (.ok (), ⟨[c], 1, ⟨w.widthArgs ++ (w.precisionArgs ++ args), [], none⟩⟩) := by
    rfl
  have heach := Printing.run_each_write_collect pieces
    (⟨[c], 1, ⟨rest, [], none⟩⟩ : Printing (List Byte) F) (by simp only; omega)
  have hexecute := (run_execute [c] 1 hpieces).trans heach
  refine ⟨⟨(c :: pieces.flatten).length, [], none⟩, ?_, rfl⟩
  rw [run_vfprintf, w.printDirectives_cons hc, w.printDirectives_render hz hfits, Printing.print,
    run_bind, Prog.each, Printing.execute, run_bind_of_ok hfirst, Prog.each,
    run_bind_of_ok hexecute]
  simp [Prog.each, Printing.finish, Printer.printed, Nat.add_comm]

end Written

end Calls

end Hzlibc.Stdio
