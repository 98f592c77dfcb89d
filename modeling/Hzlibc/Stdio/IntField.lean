import Hzlibc.Stdio.FieldText
import Mathlib.Data.List.TakeWhile

/-!
The field of an integer conversion.

The C standard says what an integer conversion writes: the value in the type of
the length modifier, with a sign, a marker and leading zeros, padded to the
width. The text of the formatter has the same parts, but it counts, orders and
chooses some of them differently.
-/

namespace Hzlibc.Stdio

open Effect List

/-! ### The field of the standard -/

namespace IntDirective

variable (d : IntDirective)

/-- The flag, or a negative argument for the width. -/
def leftJustified : Bool := .minus ∈ d.flags || d.width.negative

def fieldWidth : ℕ := d.width.number

/-- The precision. -/
def digitCount : Option ℕ := d.precision.number

/-- The argument converted to the type of the length modifier. -/
def value : ℤ :=
  let bits := d.state.bits.getD 64
  if d.conv.signed then (d.raw.setWidth bits).toInt else (d.raw.setWidth bits).toNat

def fieldSign : List Byte :=
  if d.value < 0 then ['-']
  else if d.conv.signed ∧ .plus ∈ d.flags then ['+']
  else if d.conv.signed ∧ .space ∈ d.flags then [' ']
  else []

def fieldDigits : List Byte :=
  if d.value = 0 ∧ d.digitCount = some 0 then []
  else spelled d.conv.upper d.conv.base d.value.natAbs

/-- The marker of a hexadecimal number that is not zero. -/
def fieldMarker : List Byte :=
  if .alt ∈ d.flags ∧ d.conv.base = 16 ∧ d.value ≠ 0 then basePrefix d.conv.upper 16 else []

/-- The zeros up to the precision. The alternative form of an octal number has
one more if it would not start with a zero. -/
def fieldZeros : ℕ :=
  let zeros := d.digitCount.getD 1 - d.fieldDigits.length
  if .alt ∈ d.flags ∧ d.conv.base = 8 ∧ zeros = 0 ∧ d.fieldDigits.head? ≠ some ('0' : Byte) then 1
  else zeros

/-- The field without its padding. -/
def fieldCore : List Byte := layout d.fieldSign d.fieldMarker d.fieldZeros d.fieldDigits

/-- The field of the C standard. A zero has no effect beside a precision. -/
def field : List Byte :=
  standardText d.fieldSign d.fieldMarker d.fieldZeros d.fieldDigits d.fieldWidth d.leftJustified
    (.zero ∈ d.flags && d.digitCount.isNone)

end IntDirective

/-! ### The options of the formatter -/

/-- The flags read one after the other. -/
theorem foldl_apply (fs : List Flag) (flags : Flags) :
    fs.foldl Flag.apply flags =
      { ljust := flags.ljust || .minus ∈ fs
        sign := flags.sign || .plus ∈ fs
        space := flags.space || !flags.sign && .space ∈ fs.takeWhile (· ≠ .plus)
        alt := flags.alt || .alt ∈ fs
        zero := flags.zero || !flags.ljust && .zero ∈ fs.takeWhile (· ≠ .minus) } := by
  induction fs generalizing flags with
  | nil => simp
  | cons f fs ih =>
    rw [foldl_cons, ih]
    obtain ⟨ljust, sign, space, alt, zero⟩ := flags
    cases f <;> cases ljust <;> cases sign <;> simp [Flag.apply]

namespace IntDirective

variable (d : IntDirective)

/-- A zero that no minus stands in front of. -/
def zeroFirst : Bool := .zero ∈ d.flags.takeWhile (· ≠ .minus)

theorem readFlags_eq :
    d.written.readFlags =
      { ljust := .minus ∈ d.flags
        sign := .plus ∈ d.flags
        space := .space ∈ d.flags.takeWhile (· ≠ .plus)
        alt := .alt ∈ d.flags
        zero := d.zeroFirst } := by
  rw [Written.readFlags, foldl_apply]
  rfl

theorem readWidth_flags :
    (d.written.readWidth d.written.readFlags).1 =
      { d.written.readFlags with ljust := d.leftJustified } := by
  rw [readFlags_eq, leftJustified, Written.readWidth, written]
  cases d.width with
  | absent | digits n lead => simp [WidthText.negative]
  | star arg => by_cases h : arg.toInt < 0 <;> simp [WidthText.negative, h]

theorem readPrecision_flags (flags : Flags) :
    (d.written.readPrecision flags).1 =
      { flags with zero := flags.zero && d.digitCount.isNone } := by
  rw [digitCount, Written.readPrecision, written]
  cases d.precision with
  | absent | bare | digits n => simp [PrecisionText.number]
  | star arg => by_cases h : 0 ≤ arg.toInt <;> simp [PrecisionText.number, h]

theorem spec_flags :
    d.written.spec.flags =
      { ljust := d.leftJustified
        sign := .plus ∈ d.flags
        space := .space ∈ d.flags.takeWhile (· ≠ .plus)
        alt := .alt ∈ d.flags
        zero := d.zeroFirst && d.digitCount.isNone } := by
  change (d.written.readPrecision (d.written.readWidth d.written.readFlags).1).1 = _
  rw [readPrecision_flags, readWidth_flags, readFlags_eq]

theorem opts_precision : d.opts.precision = (d.digitCount.getD 1 : ℕ) := by
  change (if (d.written.readPrecision _).2.2 then (d.written.readPrecision _).2.1 else 1) = _
  rw [digitCount, Written.readPrecision, written]
  cases d.precision with
  | absent | bare | digits n => rfl
  | star arg => by_cases h : 0 ≤ arg.toInt <;> simp [PrecisionText.number, h]

/-- A width within the range of `int` is taken as it is. -/
theorem opts_minWidth (h : (d.fieldWidth : ℤ) ≤ intMax) : d.opts.minWidth = d.fieldWidth := by
  change (if (d.written.readWidth _).2.2 then (d.written.readWidth _).2.1 else 0) = _
  rw [fieldWidth] at h ⊢
  rw [Written.readWidth, written]
  cases hwidth : d.width with
  | absent | digits n lead => rfl
  | star arg =>
    rw [hwidth] at h
    simp only [WidthText.number] at h ⊢
    by_cases hneg : arg.toInt < 0
    · have hrange : toInt32 (arg.toInt * -1) = arg.toInt * -1 := toInt32_of_le (by omega) (by omega)
      simp only [hneg, hrange, if_true]
      omega
    · simp only [hneg, if_false, if_true]
      omega

theorem signText_eq :
    d.opts.signText =
      if d.passed < 0 then [('-' : Byte)]
      else if .plus ∈ d.flags then [('+' : Byte)]
      else if .space ∈ d.flags then [(' ' : Byte)]
      else [] := by
  rw [IntOpts.signText, opts, Spec.intOpts, spec_flags]
  by_cases hplus : Flag.plus ∈ d.flags
  · simp [hplus]
  · have hall : d.flags.takeWhile (· ≠ .plus) = d.flags :=
      takeWhile_eq_self_iff.mpr fun f hf => decide_eq_true fun heq => hplus (heq ▸ hf)
    rw [hall]
    simp [hplus]

end IntDirective

/-! ### The parts of the two texts -/

namespace IntDirective

variable (d : IntDirective)

def text : List Byte := d.opts.text d.conv.base d.passed.natAbs

/-- The zero that marks an octal number. -/
def octalMark : ℕ :=
  if .alt ∈ d.flags ∧ d.conv.base = 8 ∧ d.fieldDigits ≠ [] then 1 else 0

/-- The padding of the formatter is zeros. -/
def zeroActive : Bool := d.zeroFirst && d.digitCount.isNone

theorem uncounted_eq : d.opts.uncounted = if d.opts.signText = [(' ' : Byte)] then 1 else 0 := by
  rw [IntOpts.uncounted, IntOpts.signText]
  cases d.opts.negative <;> cases d.opts.alwaysWriteSign <;> cases d.opts.plusAsSpace <;> decide

theorem text_eq (hwidth : (d.fieldWidth : ℤ) ≤ intMax) :
    d.text = codeText d.opts.signText (d.opts.marker d.conv.base d.passed.natAbs)
      (d.opts.zeros d.conv.base d.passed.natAbs) (d.opts.digits d.conv.base d.passed.natAbs)
      d.fieldWidth d.leftJustified d.zeroActive := by
  have hright : d.opts.rightPad = d.leftJustified := congrArg Flags.ljust d.spec_flags
  have hzero : d.opts.padWithZero = d.zeroActive := congrArg Flags.zero d.spec_flags
  have hlen := d.opts.length_core d.conv.base d.passed.natAbs
  have hfill : (d.opts.minWidth - d.opts.counted d.conv.base d.passed.natAbs).toNat =
      d.fieldWidth - ((d.opts.core d.conv.base d.passed.natAbs).length -
        if d.opts.signText = [(' ' : Byte)] then 1 else 0) := by
    have hnonneg := d.opts.counted_nonneg d.conv.base d.passed.natAbs
    rw [uncounted_eq] at hlen
    rw [d.opts_minWidth hwidth]
    by_cases hspace : d.opts.signText = [(' ' : Byte)]
    · rw [if_pos hspace] at hlen ⊢
      omega
    · rw [if_neg hspace] at hlen ⊢
      omega
  rw [text, IntOpts.text, IntOpts.fill, hright, hzero, hfill]
  rfl

/-- Without a minus every zero is the first of the two. -/
theorem field_eq :
    d.field = standardText d.fieldSign d.fieldMarker d.fieldZeros d.fieldDigits d.fieldWidth
      d.leftJustified d.zeroActive := by
  have hactive : ((Flag.zero ∈ d.flags && d.digitCount.isNone) && !d.leftJustified) =
      (d.zeroActive && !d.leftJustified) := by
    by_cases hminus : Flag.minus ∈ d.flags
    · have hleft : d.leftJustified = true := by simp [leftJustified, hminus]
      rw [hleft, Bool.not_true, Bool.and_false, Bool.and_false]
    · have hall : d.flags.takeWhile (· ≠ .minus) = d.flags :=
        takeWhile_eq_self_iff.mpr fun f hf => decide_eq_true fun heq => hminus (heq ▸ hf)
      rw [zeroActive, zeroFirst, hall]
  rw [field, standardText, standardText, hactive]

/-- The digits of the field are those of the same options. -/
theorem fieldDigits_eq : d.fieldDigits = d.opts.digits d.conv.base d.value.natAbs := by
  have hprecision : d.opts.precision = 0 ↔ d.digitCount = some 0 := by
    rw [opts_precision]
    cases d.digitCount <;> simp
  simp [fieldDigits, IntOpts.digits, hprecision]
  rfl

theorem isxdigit_digits (n : ℕ) : ∀ c ∈ d.opts.digits d.conv.base n, isxdigit c = true := by
  rw [IntOpts.digits]
  split
  · exact fun c hc => absurd hc not_mem_nil
  · exact isxdigit_spelled _ d.conv.isBase n

theorem isxdigit_fieldDigits : ∀ c ∈ d.fieldDigits, isxdigit c = true := by
  rw [fieldDigits_eq]
  exact d.isxdigit_digits _

theorem readDigits_digits (n : ℕ) : readDigits d.conv.base (d.opts.digits d.conv.base n) = n := by
  rw [IntOpts.digits]
  split
  next h => exact h.1.symm
  · exact readDigits_spelled _ d.conv.isBase.two_le d.conv.isBase.le n

theorem basePrefix_mem (upper : Bool) (conv : IntConv) : basePrefix upper conv.base ∈ markers := by
  cases upper <;> cases conv <;> decide

theorem marker_mem (n : ℕ) : d.opts.marker d.conv.base n ∈ markers := by
  rw [IntOpts.marker]
  split
  · exact basePrefix_mem _ _
  · exact mem_cons_self

theorem fieldMarker_mem : d.fieldMarker ∈ markers := by
  rw [fieldMarker]
  split
  next h =>
    rw [← h.2.1]
    exact basePrefix_mem _ _
  · exact mem_cons_self

theorem signText_mem : d.opts.signText ∈ signs := by
  rw [signText_eq]
  split_ifs <;> decide

theorem fieldSign_mem : d.fieldSign ∈ signs := by
  rw [fieldSign]
  split_ifs <;> decide

theorem fieldDigits_ne_nil (h : ¬ (d.value = 0 ∧ d.digitCount = some 0)) : d.fieldDigits ≠ [] := by
  rw [fieldDigits, if_neg h]
  exact spelled_ne_nil _ _ _

theorem opts_writePrefix :
    d.opts.writePrefix = decide ((d.conv.base = 8 ∨ d.conv.base = 16) ∧ .alt ∈ d.flags) := by
  have halt : d.written.spec.flags.alt = decide (Flag.alt ∈ d.flags) :=
    congrArg Flags.alt d.spec_flags
  have hmarked : d.conv.marked = decide (d.conv.base = 8 ∨ d.conv.base = 16) := by
    cases d.conv <;> decide
  rw [opts, Spec.intOpts, halt, hmarked, Bool.decide_and]

section Same

variable {d} (hvalue : d.passed = d.value)
include hvalue

theorem signText_eq_fieldSign
    (hflags : d.conv.signed = false → Flag.plus ∉ d.flags ∧ Flag.space ∉ d.flags) :
    d.opts.signText = d.fieldSign := by
  rw [signText_eq, fieldSign, hvalue]
  cases hsigned : d.conv.signed with
  | true => simp
  | false =>
    obtain ⟨hplus, hspace⟩ := hflags hsigned
    simp [hplus, hspace]

/-- The marker of an octal number counts as one more zero. -/
theorem marker_eq (hhex : Flag.alt ∈ d.flags → d.conv.base = 16 → d.value = 0 →
      d.digitCount = some 0) :
    d.opts.marker d.conv.base d.passed.natAbs =
      d.fieldMarker ++ List.replicate d.octalMark ('0' : Byte) := by
  rw [IntOpts.marker, hvalue, ← fieldDigits_eq, opts_writePrefix, fieldMarker, octalMark]
  by_cases halt : Flag.alt ∈ d.flags
  · rcases d.conv.isBase with hbase | hbase | hbase
    · by_cases hnil : d.fieldDigits = []
      · simp [hbase, hnil]
      · simp [hbase, hnil, halt, basePrefix]
    · simp [hbase]
    · by_cases hzero : d.value = 0
      · have hnil : d.fieldDigits = [] := by
          rw [fieldDigits, if_pos ⟨hzero, hhex halt hbase hzero⟩]
        simp [hbase, hzero, hnil]
      · have hne := d.fieldDigits_ne_nil fun hboth => hzero hboth.1
        have hupper : d.opts.upper = d.conv.upper := rfl
        simp [hbase, hzero, hne, halt, hupper]
  · simp [halt]

end Same

/-! ### The value and the sign -/

/-- Conversion to a shorter type does not make a number larger. -/
theorem natAbs_value_le : d.value.natAbs ≤ d.passed.natAbs := by
  have hextend : ((d.raw.setWidth 32).signExtend 64).toInt = (d.raw.setWidth 32).toInt :=
    BitVec.toInt_signExtend_of_le (by omega)
  rw [value, passed, popped]
  cases d.conv.signed with
  | false =>
    cases d.state <;>
      simp [State.bits] <;> omega
  | true =>
    cases d.state <;>
      simp only [State.bits, Option.getD_some, Option.getD_none, hextend,
        BitVec.toInt_eq_toNat_cond, BitVec.toNat_setWidth, if_true] <;> omega

variable {d} (hwidth : (d.fieldWidth : ℤ) ≤ intMax) (h : d.text = d.field)
include hwidth h

/-- Equal texts have the same characters that are neither digits nor spaces. -/
theorem mark_mem_iff {c : Byte} (hc : isMark c = true) :
    (c ∈ d.opts.signText ∨ c ∈ d.opts.marker d.conv.base d.passed.natAbs) ↔
      (c ∈ d.fieldSign ∨ c ∈ d.fieldMarker) := by
  rw [d.text_eq hwidth, field_eq] at h
  rw [← mem_codeText (d.isxdigit_digits _) hc, ← mem_standardText d.isxdigit_fieldDigits hc, h]

/-- A sign of equal texts is in the sign of both. -/
theorem sign_mem_iff {c : Byte} (hc : isMark c = true) (hne : ∀ marker ∈ markers, c ∉ marker) :
    c ∈ d.opts.signText ↔ c ∈ d.fieldSign := by
  have hmark := mark_mem_iff hwidth h hc
  rwa [or_iff_left (hne _ (d.marker_mem _)), or_iff_left (hne _ d.fieldMarker_mem)] at hmark

/-- Equal texts stand for the same value. -/
theorem passed_eq_value : d.passed = d.value := by
  have heq := h
  rw [d.text_eq hwidth, field_eq] at heq
  obtain ⟨k, hk⟩ := fieldValue_codeText d.conv.base
    (d.opts.zeros d.conv.base d.passed.natAbs) d.signText_mem (d.marker_mem _)
    (d.isxdigit_digits _) d.fieldWidth d.leftJustified d.zeroActive
  rw [heq, fieldValue_standardText d.fieldSign_mem d.fieldMarker_mem d.isxdigit_fieldDigits,
    fieldDigits_eq, readDigits_digits, readDigits_digits] at hk
  have hbase := d.conv.isBase.two_le
  have hpow : 0 < d.conv.base ^ k := Nat.pow_pos (by omega)
  have habs : d.passed.natAbs = d.value.natAbs := by
    refine Nat.le_antisymm ?_ d.natAbs_value_le
    rw [hk]
    exact Nat.le_mul_of_pos_right _ hpow
  have hminus := sign_mem_iff (c := '-') hwidth h (by decide) (by decide)
  rw [signText_eq, fieldSign, minus_mem_iff, minus_mem_iff] at hminus
  omega

/-- Equal texts of an unsigned conversion are those without the flags for a
sign. -/
theorem no_sign_flags (hsigned : d.conv.signed = false) :
    Flag.plus ∉ d.flags ∧ Flag.space ∉ d.flags := by
  have hpassed : ¬ d.passed < 0 := by
    rw [passed, hsigned, if_neg Bool.false_ne_true]
    omega
  have hplus : Flag.plus ∉ d.flags := by
    have hmem := sign_mem_iff (c := '+') hwidth h (by decide) (by decide)
    rw [signText_eq, fieldSign, plus_mem_iff, plus_mem_iff, hsigned] at hmem
    exact fun hflag => Bool.false_ne_true (hmem.mp ⟨hpassed, hflag⟩).2.1
  refine ⟨hplus, fun hspace => ?_⟩
  have hvalue : ¬ d.value < 0 := by rwa [← passed_eq_value hwidth h]
  have htext : d.opts.signText = [(' ' : Byte)] := by
    rw [signText_eq, if_neg hpassed, if_neg hplus, if_pos hspace]
  have hfield : d.fieldSign = [] := by
    rw [fieldSign, if_neg hvalue, hsigned]
    simp
  have hmarkers : ∀ marker ∈ markers, marker.count (' ' : Byte) = 0 := by decide
  rw [d.text_eq hwidth, field_eq, htext, hfield] at h
  refine codeText_space_ne (hmarkers _ (d.marker_mem _)) ?_ (hmarkers _ d.fieldMarker_mem) ?_ h
  · exact count_eq_zero.mpr fun hmem => absurd (d.isxdigit_digits _ _ hmem) (by decide)
  · exact count_eq_zero.mpr fun hmem => absurd (d.isxdigit_fieldDigits _ hmem) (by decide)

/-- Zero has no marker, which shows if it has digits. -/
theorem hex_zero (halt : Flag.alt ∈ d.flags) (hbase : d.conv.base = 16) (hzero : d.value = 0) :
    d.digitCount = some 0 := by
  by_contra hcount
  have hdigits : d.opts.digits d.conv.base d.passed.natAbs ≠ [] := by
    rw [passed_eq_value hwidth h, ← fieldDigits_eq]
    exact d.fieldDigits_ne_nil fun hboth => hcount hboth.2
  have hmarker : d.opts.marker d.conv.base d.passed.natAbs = basePrefix d.conv.upper 16 := by
    rw [IntOpts.marker, if_pos ⟨by rw [d.opts_writePrefix]; simp [halt, hbase], hdigits⟩, hbase]
    rfl
  have hnone : d.fieldMarker = [] := by
    rw [fieldMarker, if_neg fun hall => hall.2.2 hzero]
  have hletter : ∀ upper : Bool, ∃ c : Byte, isMark c = true ∧ c ∈ basePrefix upper 16 ∧
      ∀ sign ∈ signs, c ∉ sign := by
    intro upper
    cases upper
    · exact ⟨'x', by decide⟩
    · exact ⟨'X', by decide⟩
  obtain ⟨c, hc, hmem, hsigns⟩ := hletter d.conv.upper
  rcases (mark_mem_iff hwidth h hc).mp (.inr (hmarker ▸ hmem)) with hsign | hfield
  · exact hsigns _ d.fieldSign_mem hsign
  · rw [hnone] at hfield
    exact absurd hfield not_mem_nil

omit hwidth h

/-! ### Octal numbers -/

variable (d)

/-- The zeros in front of the digits, with the one that marks an octal number. -/
def ownZeros : ℕ := d.octalMark + (d.digitCount.getD 1 - d.fieldDigits.length)

theorem ownZeros_eq_of_not_octal (hoctal : ¬ (Flag.alt ∈ d.flags ∧ d.conv.base = 8)) :
    d.ownZeros = d.fieldZeros := by
  have hmark : ¬ (Flag.alt ∈ d.flags ∧ d.conv.base = 8 ∧ d.fieldDigits ≠ []) :=
    fun hall => hoctal ⟨hall.1, hall.2.1⟩
  have hzeros : ¬ (Flag.alt ∈ d.flags ∧ d.conv.base = 8 ∧
      d.digitCount.getD 1 - d.fieldDigits.length = 0 ∧
        d.fieldDigits.head? ≠ some ('0' : Byte)) := fun hall => hoctal ⟨hall.1, hall.2.1⟩
  rw [ownZeros, octalMark, fieldZeros, if_neg hmark, if_neg hzeros, Nat.zero_add]

theorem digitCount_eq_none (h : d.zeroActive = true) : d.digitCount = none := by
  rw [zeroActive, Bool.and_eq_true] at h
  exact Option.isNone_iff_eq_none.mp h.2

/-- An octal number has no sign. -/
theorem fieldSign_eq_nil (hbase : d.conv.base = 8) : d.fieldSign = [] := by
  have hsigned : d.conv.signed = false := by
    revert hbase
    cases d.conv <;> decide
  have hvalue : ¬ d.value < 0 := by
    rw [value, hsigned]
    simp
    omega
  rw [fieldSign, if_neg hvalue, hsigned]
  simp

theorem fieldMarker_eq_nil (hbase : d.conv.base = 8) : d.fieldMarker = [] := by
  rw [fieldMarker, if_neg]
  omega

theorem fieldMarker_cases :
    d.fieldMarker = [] ∨ ∃ x : Byte, x ≠ '0' ∧ d.fieldMarker = [('0' : Byte), x] := by
  rw [fieldMarker]
  split
  · cases d.conv.upper
    · exact .inr ⟨'x', by decide, rfl⟩
    · exact .inr ⟨'X', by decide, rfl⟩
  · exact .inl rfl

section Octal

variable {d} (halt : Flag.alt ∈ d.flags) (hbase : d.conv.base = 8)
include halt hbase

/-- A number that is not zero needs the mark if the precision adds no zero. -/
theorem ownZeros_eq_iff (hvalue : d.value ≠ 0) :
    d.ownZeros = d.fieldZeros ↔ d.digitCount.getD 1 ≤ d.fieldDigits.length := by
  have hne := d.fieldDigits_ne_nil fun hboth => hvalue hboth.1
  have hhead : d.fieldDigits.head? ≠ some ('0' : Byte) := by
    rw [fieldDigits, if_neg fun hboth => hvalue hboth.1]
    exact head_spelled _ d.conv.isBase (Int.natAbs_ne_zero.mpr hvalue)
  rw [ownZeros, octalMark, fieldZeros, if_pos ⟨halt, hbase, hne⟩]
  simp only [halt, hbase, hhead, true_and, and_true, ne_eq, not_false_eq_true]
  split <;> omega

/-- Zero is one zero too long, or it is missing. -/
theorem zeros_of_value_eq_zero (hvalue : d.value = 0) :
    if d.digitCount = some 0 then d.ownZeros = 0 ∧ d.fieldZeros = 1
    else d.ownZeros = d.fieldZeros + 1 ∧ d.fieldDigits.length = 1 ∧
      (d.digitCount = none → d.fieldZeros = 0) := by
  by_cases hcount : d.digitCount = some 0
  · have hnil : d.fieldDigits = [] := by rw [fieldDigits, if_pos ⟨hvalue, hcount⟩]
    rw [ownZeros, octalMark, fieldZeros, hnil, hcount]
    simp [halt, hbase]
  · have hdigits : d.fieldDigits = [('0' : Byte)] := by
      rw [fieldDigits, if_neg fun hboth => hcount hboth.2, hvalue]
      rfl
    rw [if_neg hcount, ownZeros, octalMark, fieldZeros, hdigits]
    simp [halt, hbase]
    refine ⟨Nat.add_comm _ _, ?_⟩
    intro hnone
    rw [hnone]
    rfl

end Octal

theorem fieldZeros_le (h : d.zeroActive = true) : d.fieldZeros ≤ d.ownZeros := by
  by_cases hoctal : Flag.alt ∈ d.flags ∧ d.conv.base = 8
  · have hcount := d.digitCount_eq_none h
    have hne := d.fieldDigits_ne_nil fun hboth => by
      rw [hcount] at hboth
      exact Option.some_ne_none 0 hboth.2.symm
    have hmark : d.octalMark = 1 := if_pos ⟨hoctal.1, hoctal.2, hne⟩
    rw [ownZeros, fieldZeros]
    split <;> omega
  · exact (d.ownZeros_eq_of_not_octal hoctal).ge

theorem octal_of_zeros_ne (h : d.ownZeros ≠ d.fieldZeros) :
    Flag.alt ∈ d.flags ∧ d.conv.base = 8 := by
  by_contra hoctal
  exact h (d.ownZeros_eq_of_not_octal hoctal)

/-! ### The law of the field -/

/-- The directives on which the formatter keeps to the standard. -/
structure Plain : Prop where
  /-- The conversion to the type of the length modifier changes nothing. -/
  value : d.passed = d.value
  /-- A conversion that has no sign has no flag for one. -/
  unsigned : d.conv.signed = false → Flag.plus ∉ d.flags ∧ Flag.space ∉ d.flags
  /-- There is no padding beside a space in place of a sign. -/
  space : d.fieldSign = [(' ' : Byte)] → d.fieldWidth < d.fieldCore.length
  /-- There are no padding zeros behind the number, or beside a sign or a marker. -/
  zero : d.zeroActive = true → d.leftJustified = true ∨ d.fieldSign ≠ [] ∨ d.fieldMarker ≠ [] →
    d.fieldWidth ≤ d.fieldCore.length
  /-- A marked octal number has no zeros from its precision. -/
  octal : Flag.alt ∈ d.flags → d.conv.base = 8 → d.value ≠ 0 →
    d.digitCount.getD 1 ≤ d.fieldDigits.length
  /-- Marked zero has no precision and is padded with zeros. -/
  octalZero : Flag.alt ∈ d.flags → d.conv.base = 8 → d.value = 0 →
    d.zeroActive = true ∧ d.leftJustified = false ∧ 2 ≤ d.fieldWidth
  /-- A marked hexadecimal number is not zero, or has no digits. -/
  hex : Flag.alt ∈ d.flags → d.conv.base = 16 → d.value = 0 → d.digitCount = some 0

variable {d}

section

variable (hwidth : (d.fieldWidth : ℤ) ≤ intMax)
include hwidth

/-- With the same value and the same sign the two texts differ in their zeros
and their padding only. -/
theorem text_eq_codeText (hvalue : d.passed = d.value)
    (hflags : d.conv.signed = false → Flag.plus ∉ d.flags ∧ Flag.space ∉ d.flags)
    (hhex : Flag.alt ∈ d.flags → d.conv.base = 16 → d.value = 0 → d.digitCount = some 0) :
    d.text = codeText d.fieldSign d.fieldMarker d.ownZeros d.fieldDigits d.fieldWidth
      d.leftJustified d.zeroActive := by
  have hzeros : d.opts.zeros d.conv.base d.passed.natAbs =
      d.digitCount.getD 1 - d.fieldDigits.length := by
    rw [IntOpts.zeros, hvalue, ← fieldDigits_eq, opts_precision]
    omega
  rw [d.text_eq hwidth, signText_eq_fieldSign hvalue hflags, marker_eq hvalue hhex, hzeros, hvalue,
    ← fieldDigits_eq, codeText_marker]
  rfl

theorem Plain.of_text_eq_field (h : d.text = d.field) : d.Plain := by
  have hvalue := passed_eq_value hwidth h
  have hflags := no_sign_flags hwidth h
  have hhex := hex_zero hwidth h
  rw [text_eq_codeText hwidth hvalue hflags hhex, field_eq] at h
  have hzeros := zeros_eq_or h d.fieldZeros_le
  have hsame (hlead : d.leftJustified = true ∨ d.fieldSign ≠ [] ∨ d.fieldMarker ≠ []) :
      d.ownZeros = d.fieldZeros := by
    by_contra hne
    have hbase := (d.octal_of_zeros_ne hne).2
    obtain ⟨_, hleft, _⟩ := hzeros.resolve_left hne
    rcases hlead with hl | hs | hm
    · exact Bool.false_ne_true (hleft.symm.trans hl)
    · exact hs (d.fieldSign_eq_nil hbase)
    · exact hm (d.fieldMarker_eq_nil hbase)
  refine ⟨hvalue, hflags, ?_, ?_, ?_, ?_, hhex⟩
  · intro hspace
    have hne : d.fieldSign ≠ [] := hspace ▸ cons_ne_nil _ _
    exact width_lt_of_space h (hsame (.inr (.inl hne))) hspace
  · intro hzero hlead
    have heq := hsame hlead
    cases hleft : d.leftJustified with
    | true => exact width_le_of_left h heq hzero hleft
    | false =>
      rw [hleft] at hlead
      have hle := width_le_of_lead h hzero hleft d.fieldSign_mem d.fieldMarker_cases
        (hlead.resolve_left Bool.false_ne_true)
      rwa [heq] at hle
  · intro halt hbase hne
    rcases hzeros with heq | ⟨hzero, _⟩
    · exact (ownZeros_eq_iff halt hbase hne).mp heq
    · rw [d.digitCount_eq_none hzero]
      exact length_pos_iff.mpr (d.fieldDigits_ne_nil fun hboth => hne hboth.1)
  · intro halt hbase hzero
    have hcount := zeros_of_value_eq_zero halt hbase hzero
    split at hcount
    next hsome =>
      obtain ⟨hactive, _⟩ := hzeros.resolve_left (by omega)
      rw [d.digitCount_eq_none hactive] at hsome
      cases hsome
    · obtain ⟨hactive, hleft, hle⟩ := hzeros.resolve_left (by omega)
      refine ⟨hactive, hleft, ?_⟩
      omega

theorem Plain.text_eq_field (h : d.Plain) : d.text = d.field := by
  rw [text_eq_codeText hwidth h.value h.unsigned h.hex, field_eq]
  refine codeText_eq_standardText h.space h.zero ?_
  by_cases hoctal : Flag.alt ∈ d.flags ∧ d.conv.base = 8
  · obtain ⟨halt, hbase⟩ := hoctal
    by_cases hzero : d.value = 0
    · obtain ⟨hactive, hleft, hle⟩ := h.octalZero halt hbase hzero
      have hnone := d.digitCount_eq_none hactive
      have hcount := zeros_of_value_eq_zero halt hbase hzero
      rw [if_neg (by simp [hnone])] at hcount
      have hnothing := hcount.2.2 hnone
      exact .inr ⟨hactive, hleft, d.fieldSign_eq_nil hbase, d.fieldMarker_eq_nil hbase, by omega⟩
    · exact .inl ((ownZeros_eq_iff halt hbase hzero).mpr (h.octal halt hbase hzero))
  · exact .inl (d.ownZeros_eq_of_not_octal hoctal)

/-! ### The call -/

end

theorem fieldWidth_le : d.fieldWidth ≤ d.field.length := by
  rw [field, length_standardText]
  omega

theorem digitCount_le : d.digitCount.getD 0 ≤ d.field.length := by
  have hzeros : d.digitCount.getD 1 - d.fieldDigits.length ≤ d.fieldZeros := by
    rw [fieldZeros]
    split <;> omega
  have hcount : d.digitCount.getD 0 ≤ d.digitCount.getD 1 := by
    cases d.digitCount <;> simp
  rw [field, length_standardText, length_layout]
  omega

/-- A field that an `int` can count has its numbers in the range of `int`. -/
theorem fits (h : (d.field.length : ℤ) ≤ intMax) : d.written.Fits where
  width n lead hn := by
    have hwidth : d.fieldWidth = n.value := by
      rw [fieldWidth, show d.width = .digits n lead from hn, WidthText.number]
    have hle := d.fieldWidth_le
    omega
  precision n hn := by
    have hcount : d.digitCount = some n.value := by
      rw [digitCount, show d.precision = .digits n from hn, PrecisionText.number]
    have hle := d.digitCount_le
    rw [hcount, Option.getD_some] at hle
    omega

theorem counted_le : d.opts.counted d.conv.base d.passed.natAbs ≤ d.text.length := by
  have hlen := d.opts.length_core d.conv.base d.passed.natAbs
  have hone : 0 ≤ d.opts.uncounted := by
    rw [IntOpts.uncounted]
    split <;> omega
  rw [text, IntOpts.text]
  split <;> rw [length_append] <;> omega

section Emits

variable {F : Type} (hz : Hz) (ld : LongDouble F) (rounds : ℕ)

/-- The call writes the text, as long as an `int` can count it. -/
theorem emits_iff_text (d : IntDirective) (hfits : d.written.Fits)
    (hwidth : (d.fieldWidth : ℤ) ≤ intMax) {out : List Byte} :
    Emits hz ld rounds d.written.render d.args out ↔
      d.text = out ∧ (out.length : ℤ) ≤ intMax := by
  have hwriteInt (hcounted : d.opts.counted d.conv.base d.absolute.toNat ≤ intMax) :
      (writeInt d.absolute d.conv.base d.opts).flatten = d.text := by
    have hmin := d.opts_minWidth hwidth
    rw [writeInt_flatten d.conv.isBase hcounted (by omega), toNat_absolute, text]
  rw [args, Written.emits_iff hfits (d.run_pieces ld rounds 0 [] none)]
  refine and_congr_left fun hlen => ?_
  constructor
  · intro heq
    have hcounted := counted_le_length_writeInt d.absolute d.opts d.conv.isBase
    rw [heq] at hcounted
    exact (hwriteInt (hcounted.trans hlen)).symm.trans heq
  · intro heq
    have hcounted := d.counted_le
    rw [heq, ← toNat_absolute] at hcounted
    exact (hwriteInt (hcounted.trans hlen)).trans heq

/-- The law of the integer field: it holds for the plain directives. -/
theorem emits_field_iff_plain (d : IntDirective) :
    Emits hz ld rounds d.written.render d.args d.field ↔
      d.Plain ∧ (d.field.length : ℤ) ≤ intMax := by
  have hwidth (hlen : (d.field.length : ℤ) ≤ intMax) : (d.fieldWidth : ℤ) ≤ intMax := by
    have hle := d.fieldWidth_le
    omega
  constructor
  · intro h
    have hlen := h.length_le
    rw [emits_iff_text hz ld rounds d (d.fits hlen) (hwidth hlen)] at h
    exact ⟨Plain.of_text_eq_field (hwidth hlen) h.1, hlen⟩
  · rintro ⟨hplain, hlen⟩
    rw [emits_iff_text hz ld rounds d (d.fits hlen) (hwidth hlen)]
    exact ⟨Plain.text_eq_field (hwidth hlen) hplain, hlen⟩

end Emits

/-- The format `%05d` with the argument -7. -/
def minusSeven : IntDirective where
  flags := [.zero]
  width := .single '5'
  precision := .absent
  state := .none
  isInt := by decide
  conv := .d
  raw := -7

/-- The zeros stand in front of the sign. -/
theorem minusSeven_not_emits :
    (vfprintf Hz.plain LongDouble.integral .collect 0 minusSeven.written.render
        minusSeven.args).run [] = (.ok ⟨5, [], none⟩, (['0', '0', '0', '-', '7'] : List Byte)) ∧
      minusSeven.field = (['-', '0', '0', '0', '7'] : List Byte) ∧
      ¬ Emits Hz.plain LongDouble.integral 0 minusSeven.written.render minusSeven.args
        minusSeven.field := by
  have hne : (['0', '0', '0', '-', '7'] : List Byte) ≠ ['-', '0', '0', '0', '7'] := by decide
  refine ⟨rfl, rfl, ?_⟩
  rintro ⟨printed, hemit, _⟩
  exact hne (congrArg Prod.snd hemit)

end IntDirective

end Hzlibc.Stdio
