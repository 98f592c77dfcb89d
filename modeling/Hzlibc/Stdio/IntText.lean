import Hzlibc.Stdio.PrintSyntax
import Hzlibc.Stdio.Scan
import Mathlib.Data.Nat.Digits.Lemmas

/-!
The text of an integer.

`write_int` spells a number from its last digit on; what comes out are the
digits of the number in its base. Around them stand zeros up to the precision,
the marker of the base, a sign and the padding. As long as the widths stay
within `int`, the pieces that it writes add up to that text.
-/

namespace Hzlibc.Stdio

open Effect List

/-! ### Spelling a number -/

/-- A number in a base, with at least one digit. -/
def spelled (upper : Bool) (base n : ℕ) : List Byte :=
  if n = 0 then [('0' : Byte)] else (Nat.digits base n).reverse.map (digitChar upper)

theorem digitsLoop_eq (upper : Bool) {base : ℕ} (hbase : 2 ≤ base) (fuel value : ℕ)
    (buf : List Byte) (hfuel : 0 < fuel) (hvalue : value < base ^ fuel) :
    digitsLoop upper base fuel value buf = spelled upper base value ++ buf := by
  induction fuel generalizing value buf with
  | zero => exact absurd hfuel (Nat.lt_irrefl 0)
  | succ n ih =>
    rw [digitsLoop]
    by_cases hlast : value / base = 0
    · have hlt : value < base := (Nat.div_eq_zero_iff.mp hlast).resolve_left (by omega)
      rw [if_pos hlast, Nat.mod_eq_of_lt hlt, spelled]
      split
      next hzero =>
        rw [hzero]
        rfl
      next hne =>
        rw [Nat.digits_of_lt base value hne hlt]
        rfl
    · have hne : value ≠ 0 := by
        rintro rfl
        exact hlast (Nat.zero_div base)
      have hn : 0 < n := by
        rcases Nat.eq_zero_or_pos n with rfl | hn
        · rw [Nat.pow_one] at hvalue
          exact absurd (Nat.div_eq_of_lt hvalue) hlast
        · exact hn
      have hdiv : value / base < base ^ n := by
        exact Nat.div_lt_of_lt_mul (by rwa [Nat.mul_comm])
      rw [if_neg hlast, ih _ _ hn hdiv, spelled, spelled, if_neg hlast, if_neg hne,
        Nat.digits_def' (by omega) (Nat.pos_of_ne_zero hne)]
      simp

theorem digitValue_digitChar : ∀ (upper : Bool) (d : Fin 16),
    Scan.digitValue (tolower (digitChar upper d)) = d := by decide

theorem readDigits_spelled (upper : Bool) {base : ℕ} (hbase : 2 ≤ base) (hle : base ≤ 16)
    (n : ℕ) : readDigits base (spelled upper base n) = n := by
  rw [spelled]
  split
  next hzero => rw [hzero]; rfl
  · rw [readDigits, map_reverse, foldl_reverse, foldr_map]
    have hdigits : ∀ d ∈ Nat.digits base n, d < 16 := fun d hd =>
      (Nat.digits_lt_base hbase hd).trans_le hle
    conv_rhs => rw [← Nat.ofDigits_digits base n]
    generalize Nat.digits base n = ds at hdigits
    induction ds with
    | nil => rfl
    | cons d ds ih =>
      have hd := digitValue_digitChar upper ⟨d, hdigits d mem_cons_self⟩
      rw [foldr_cons, ih fun d' hd' => hdigits d' (mem_cons_of_mem _ hd'), hd]
      exact Nat.add_comm _ _

/-! ### The parts of the text -/

namespace IntOpts

variable (opts : IntOpts) (base n : ℕ)

def signText : List Byte :=
  if opts.negative then ['-']
  else if opts.alwaysWriteSign then ['+']
  else if opts.plusAsSpace then [' ']
  else []

def digits : List Byte :=
  if n = 0 ∧ opts.precision = 0 then [] else spelled opts.upper base n

def marker : List Byte :=
  if opts.writePrefix ∧ opts.digits base n ≠ [] then basePrefix opts.upper base else []

/-- The zeros up to the precision. -/
def zeros : ℕ := (opts.precision - (opts.digits base n).length).toNat

/-- The text without its padding. -/
def core : List Byte :=
  opts.signText ++ (opts.marker base n ++
    (List.replicate (opts.zeros base n) ('0' : Byte) ++ opts.digits base n))

/-- The width of the text as it is counted: a space in place of a plus is left
out. -/
def counted : ℤ :=
  max ((opts.digits base n).length : ℤ) opts.precision +
    (if opts.negative || opts.alwaysWriteSign then 1 else 0) + (opts.marker base n).length

def fill : List Byte :=
  List.replicate (opts.minWidth - opts.counted base n).toNat
    (if opts.padWithZero then ('0' : Byte) else ' ')

def text : List Byte :=
  if opts.rightPad then opts.core base n ++ opts.fill base n
  else opts.fill base n ++ opts.core base n

end IntOpts

theorem intDigits_eq (value : BitVec 64) {base : ℕ} (hbase : 2 ≤ base) (opts : IntOpts) :
    intDigits value base opts = opts.digits base value.toNat := by
  have hzero : value = 0 ↔ value.toNat = 0 := by
    rw [← BitVec.toNat_inj]
    rfl
  have hvalue : value.toNat < base ^ 64 := value.isLt.trans_le (Nat.pow_le_pow_left hbase 64)
  simp only [intDigits, IntOpts.digits, hzero, digitsLoop_eq _ hbase 64 _ [] (by omega) hvalue,
    append_nil]

/-- The bases of the conversions. -/
def IsBase (base : ℕ) : Prop := base = 8 ∨ base = 10 ∨ base = 16

theorem IsBase.two_le {base : ℕ} (h : IsBase base) : 2 ≤ base := by
  unfold IsBase at h
  omega

theorem IsBase.le {base : ℕ} (h : IsBase base) : base ≤ 16 := by
  unfold IsBase at h
  omega

namespace IntOpts

variable (opts : IntOpts) (base n : ℕ)

/-- The sign is a space, which the width does not count. -/
def uncounted : ℤ :=
  if !opts.negative && !opts.alwaysWriteSign && opts.plusAsSpace then 1 else 0

theorem length_signText :
    (opts.signText.length : ℤ) =
      (if opts.negative || opts.alwaysWriteSign then 1 else 0) + opts.uncounted := by
  rw [signText, uncounted]
  cases opts.negative <;> cases opts.alwaysWriteSign <;> cases opts.plusAsSpace <;> rfl

theorem length_core : ((opts.core base n).length : ℤ) = opts.counted base n + opts.uncounted := by
  have hsign := opts.length_signText
  simp only [core, counted, zeros, length_append, length_replicate]
  omega

variable {base n}

theorem length_marker (hbase : IsBase base) :
    ((opts.marker base n).length : ℤ) =
      if opts.writePrefix ∧ (opts.digits base n).length ≠ 0 then
        if base = 2 ∨ base = 16 then 2 else if base = 8 then 1 else 0
      else 0 := by
  simp [marker]
  split
  · rcases hbase with rfl | rfl | rfl <;> rfl
  · rfl

theorem actualWidth_eq (hbase : IsBase base) :
    opts.actualWidth base (opts.digits base n).length = toInt32 (opts.counted base n) := by
  rw [actualWidth, counted, opts.length_marker hbase]

variable (base n)

theorem counted_nonneg : 0 ≤ opts.counted base n := by
  rw [counted]
  split <;> omega

variable {opts base n}

theorem padding_flatten (hwidth : opts.minWidth ≤ intMax) :
    (opts.padding (opts.counted base n)).flatten = opts.fill base n := by
  have hnonneg := opts.counted_nonneg base n
  rw [padding, fill]
  split
  · rw [toInt32_of_le (by omega) (by omega), flatten_replicate_singleton]
  · rw [Int.toNat_of_nonpos (by omega)]
    rfl

end IntOpts

section WriteInt

variable {value : BitVec 64} {base : ℕ} {opts : IntOpts}

theorem marker_flatten :
    (if opts.writePrefix ∧ (opts.digits base value.toNat).length ≠ 0 ∧
        basePrefix opts.upper base ≠ [] then [basePrefix opts.upper base] else []).flatten =
      opts.marker base value.toNat := by
  simp [IntOpts.marker]
  by_cases h : opts.writePrefix = true ∧ opts.digits base value.toNat ≠ []
  · by_cases hnil : basePrefix opts.upper base = []
    · simp [hnil]
    · simp [h, hnil]
  · rw [if_neg h, if_neg fun h' => h ⟨h'.1, h'.2.1⟩]
    rfl

/-- The pieces around the text without its padding. -/
theorem writeInt_eq (hbase : IsBase base) :
    (writeInt value base opts).flatten =
      let padding := (opts.padding (toInt32 (opts.counted base value.toNat))).flatten
      if opts.rightPad then opts.core base value.toNat ++ padding
      else padding ++ opts.core base value.toNat := by
  have hsign : (if opts.negative then [[('-' : Byte)]]
      else if opts.alwaysWriteSign then [['+']]
      else if opts.plusAsSpace then [[' ']]
      else []).flatten = opts.signText := by
    rw [IntOpts.signText]
    cases opts.negative <;> cases opts.alwaysWriteSign <;> cases opts.plusAsSpace <;> rfl
  simp only [writeInt, intDigits_eq value hbase.two_le, opts.actualWidth_eq hbase]
  cases opts.rightPad <;>
    simp only [flatten_append, flatten_cons, flatten_nil, hsign, marker_flatten,
      flatten_replicate_singleton, IntOpts.core, IntOpts.zeros, append_assoc,
      append_nil, nil_append, Bool.false_eq_true, if_true, if_false]

/-- With widths in the range of `int` the pieces are the text. -/
theorem writeInt_flatten (hbase : IsBase base)
    (hcounted : opts.counted base value.toNat ≤ intMax) (hwidth : opts.minWidth ≤ intMax) :
    (writeInt value base opts).flatten = opts.text base value.toNat := by
  have hnonneg := opts.counted_nonneg base value.toNat
  rw [writeInt_eq hbase, toInt32_of_le (by omega) hcounted, IntOpts.padding_flatten hwidth,
    IntOpts.text]

/-- Nothing of the text is left out whatever the widths. -/
theorem counted_le_length_writeInt (value : BitVec 64) (opts : IntOpts) (hbase : IsBase base) :
    opts.counted base value.toNat ≤ (writeInt value base opts).flatten.length := by
  have hcore := opts.length_core base value.toNat
  have hone : 0 ≤ opts.uncounted := by
    rw [IntOpts.uncounted]
    split <;> omega
  rw [writeInt_eq hbase]
  split <;> rw [length_append] <;> omega

end WriteInt

/-! ### Directives for integers -/

namespace IntConv

def signed : IntConv → Bool
  | .d | .i => true
  | _ => false

def base : IntConv → ℕ
  | .o => 8
  | .x | .X => 16
  | _ => 10

def upper : IntConv → Bool
  | .X => true
  | _ => false

/-- The base has a marker. -/
def marked : IntConv → Bool
  | .o | .x | .X => true
  | _ => false

theorem isBase (conv : IntConv) : IsBase conv.base := by
  unfold IsBase
  cases conv <;> simp [base]

end IntConv

/-- A conversion of an integer, with the register that its argument is passed
in. -/
structure IntDirective where
  flags : List Flag
  width : WidthText
  precision : PrecisionText
  state : State
  isInt : state ≠ .L
  conv : IntConv
  raw : BitVec 64

namespace IntDirective

variable (d : IntDirective)

def written : Written := ⟨d.flags, d.width, d.precision, d.state, .int d.conv⟩

/-- Types shorter than `int` are passed as one. -/
def arg {F : Type} : Arg F :=
  match d.state with
  | .none | .hh | .h => .int (d.raw.setWidth 32)
  | _ => .long d.raw

def args {F : Type} : List (Arg F) :=
  d.written.widthArgs ++ (d.written.precisionArgs ++ [d.arg])

/-- The argument as `pop_signed_int` or `pop_unsigned_int` returns it. -/
def popped : BitVec 64 :=
  match d.state with
  | .none | .hh | .h =>
    if d.conv.signed then (d.raw.setWidth 32).signExtend 64 else (d.raw.setWidth 32).setWidth 64
  | _ => d.raw

/-- The value that is passed. -/
def passed : ℤ := if d.conv.signed then d.popped.toInt else d.popped.toNat

def opts : IntOpts :=
  d.written.spec.intOpts (d.passed < 0) d.conv.upper (d.conv.marked && d.written.spec.flags.alt)

variable {F : Type}

theorem run_popSignedInt (hsigned : d.conv.signed = true) (counts : List Count) (errno : Option ℤ) :
    (Printer.popSignedInt d.state : Printer.M F _).run ⟨[d.arg], counts, errno⟩ =
      (.ok d.popped, ⟨[], counts, errno⟩) := by
  rw [popped, arg, hsigned]
  cases hstate : d.state with
  | L => exact absurd hstate d.isInt
  | _ => rfl

theorem run_popUnsignedInt (hsigned : d.conv.signed = false) (counts : List Count)
    (errno : Option ℤ) :
    (Printer.popUnsignedInt d.state : Printer.M F _).run ⟨[d.arg], counts, errno⟩ =
      (.ok d.popped, ⟨[], counts, errno⟩) := by
  rw [popped, arg, hsigned]
  cases hstate : d.state with
  | L => exact absurd hstate d.isInt
  | _ => rfl

/-- The value without its sign, as the code computes it. -/
def absolute : BitVec 64 := if d.passed < 0 then -d.popped else d.popped

theorem toNat_absolute : d.absolute.toNat = d.passed.natAbs := by
  rw [absolute, passed]
  cases d.conv.signed
  · rfl
  · rw [if_pos rfl]
    by_cases hneg : d.popped.toInt < 0
    · rw [if_pos hneg, BitVec.toNat_neg]
      rw [BitVec.toInt_eq_toNat_cond] at hneg ⊢
      split at hneg <;> omega
    · rw [if_neg hneg]
      rw [BitVec.toInt_eq_toNat_cond] at hneg ⊢
      split at hneg <;> omega

variable (ld : LongDouble F) (rounds : ℕ)

theorem pieces_eq (count : ℕ) :
    Printer.pieces ld rounds count d.written.spec =
      if d.conv.signed then Printer.printSigned d.written.spec
      else Printer.printUnsigned d.written.spec d.conv.base d.conv.upper
        (d.conv.marked && d.written.spec.flags.alt) := by
  obtain ⟨flags, width, precision, state, isInt, conv, raw⟩ := d
  cases conv <;> rfl

/-- The conversion writes its argument with its options. -/
theorem run_pieces (count : ℕ) (counts : List Count) (errno : Option ℤ) :
    (Printer.pieces ld rounds count d.written.spec).run ⟨[d.arg], counts, errno⟩ =
      (.ok (writeInt d.absolute d.conv.base d.opts), ⟨[], counts, errno⟩) := by
  have hstate : d.written.spec.state = d.state := rfl
  rw [pieces_eq]
  cases hsigned : d.conv.signed with
  | true =>
    have hpassed : d.passed = d.popped.toInt := by rw [passed, hsigned, if_pos rfl]
    have hconv : d.conv.base = 10 ∧ d.conv.upper = false ∧ d.conv.marked = false := by
      revert hsigned
      cases d.conv <;> decide
    rw [if_pos rfl, Printer.printSigned, hstate,
      Prog.run_bind_of_ok (d.run_popSignedInt hsigned counts errno), absolute, opts, hpassed,
      hconv.1, hconv.2.1, hconv.2.2]
    simp
  | false =>
    have hpassed : ¬ d.passed < 0 := by
      rw [passed, hsigned, if_neg Bool.false_ne_true]
      omega
    rw [if_neg Bool.false_ne_true, Printer.printUnsigned, hstate,
      Prog.run_bind_of_ok (d.run_popUnsignedInt hsigned counts errno), absolute, if_neg hpassed,
      opts, decide_eq_false hpassed]
    rfl

end IntDirective

end Hzlibc.Stdio
