import Hzlibc.Stdio.IntField
import Hzlibc.Stdio.StringScan

/-!
Integers printed and scanned.

What `snprintf` makes of an integer is a row of digits with a sign and a marker
in front of it, in the middle of spaces. The scanner skips the spaces in front,
takes the sign and the marker off, and stops at the first character that is not
a digit, so it reads the row and nothing else. Both sides compute modulo the
size of the type, and the value comes back also where its negation overflows.
-/

namespace Hzlibc.Stdio

open Effect List

/-! ### Rows of digits -/

namespace Scan

theorem accepted_append {accepts : Byte → Bool} {n : ℕ} {row rest : List Byte}
    (hrow : ∀ c ∈ row, accepts c = true) (hrest : ∀ c ∈ rest.head?, accepts c = false)
    (hlen : row.length ≤ n) : accepted accepts n (row ++ rest) = row := by
  have hstop : ∀ c ∈ (rest.take (n - row.length)).head?, accepts c = false := by
    intro c hc
    rw [head?_take] at hc
    split at hc
    · cases hc
    · exact hrest c hc
  rw [accepted, take_append, take_of_length_le hlen, takeWhile_append_stop hrow hstop]

@[simp] theorem readDigits_zero_cons (base : ℕ) (row : List Byte) :
    readDigits base (('0' : Byte) :: row) = readDigits base row := rfl

/-- After the marker the digits are read, up to the first character that is
none. -/
def IntShape.Recovers (shape : IntShape) (marker : List Byte) : Prop :=
  ∀ (lead : Lead) (row rest : List Byte), lead.base = shape.base → lead.used = 0 →
    ((marker ++ row).length : ℤ) ≤ lead.maxWidth → row ≠ [] →
    (∀ c ∈ row, shape.accepts shape.base c = true) →
    (∀ c ∈ rest.head?, c = (' ' : Byte)) →
    let r := shape.mark lead (marker ++ (row ++ rest))
    let ds := accepted (shape.accepts r.1.base) r.1.maxWidth.toNat
      ((marker ++ (row ++ rest)).drop r.2)
    r.1.negative = lead.negative ∧ r.1.used + ds.length ≠ 0 ∧
      readDigits r.1.base ds = readDigits shape.base row

theorem decimalShape_recovers : decimalShape.Recovers [] := by
  intro lead row rest hbase hused hlen hne hrow hrest
  have hstop : ∀ c ∈ rest.head?, isdigit c = false := fun c hc => by
    rw [hrest c hc]
    decide
  rw [nil_append] at hlen
  have hds : accepted isdigit lead.maxWidth.toNat (row ++ rest) = row :=
    accepted_append hrow hstop (by omega)
  have hpos := length_pos_iff.mpr hne
  simp only [decimalShape, noMark, nil_append, drop_zero, hds, hbase]
  exact ⟨trivial, by omega, trivial⟩

/-- A zero at the start of the row is taken for a part of a marker, and is
counted as a digit after all. -/
theorem zeroMark_recovers {after : Mark} {base : ℕ} {accepts : ℕ → Byte → Bool}
    (hspace : accepts base ' ' = false)
    (hafter : ∀ lead row rest, (∀ c ∈ row, accepts base c = true) →
      (∀ c ∈ rest.head?, c = (' ' : Byte)) → after lead (row ++ rest) = (lead, 0)) :
    (⟨zeroMark after, base, accepts⟩ : IntShape).Recovers [] := by
  intro lead row rest hbase hused hlen hne hrow hrest
  obtain ⟨c, row, rfl⟩ := exists_cons_of_ne_nil hne
  rw [nil_append, length_cons] at hlen
  have hwidth : lead.maxWidth ≠ 0 := by omega
  have hrow' : ∀ d ∈ row, accepts base d = true := fun d hd =>
    hrow d (mem_cons_of_mem _ hd)
  have hstop : ∀ d ∈ rest.head?, accepts base d = false := fun d hd => hrest d hd ▸ hspace
  rw [nil_append, cons_append]
  simp [zeroMark]
  by_cases hc : c = ('0' : Byte)
  · have hds : accepted (accepts base) (lead.maxWidth - 1).toNat (row ++ rest) = row :=
      accepted_append hrow' hstop (by omega)
    rw [if_pos ⟨hwidth, hc⟩, hafter _ row rest hrow' hrest]
    simp only [hbase, hused, Nat.add_zero, drop_one, tail_cons, hds, hc, readDigits_zero_cons]
    exact ⟨trivial, by omega, trivial⟩
  · have hds : accepted (accepts base) lead.maxWidth.toNat (c :: row ++ rest) = c :: row :=
      accepted_append hrow hstop (by rw [length_cons]; omega)
    rw [cons_append] at hds
    rw [if_neg fun h => hc h.2]
    simp only [hbase, hused, drop_zero, hds, length_cons]
    exact ⟨trivial, by omega, trivial⟩

theorem hexMark_skip (lead : Lead) {text : List Byte}
    (h : ∀ c ∈ text.head?, c = (' ' : Byte) ∨ isxdigit c = true) :
    hexMark lead text = (lead, 0) := by
  have hne : ∀ c : Byte, c = ' ' ∨ isxdigit c = true → ¬ (c = 'x' ∨ c = 'X') := by decide
  have hhead : ¬ (text.headD 0 = 'x' ∨ text.headD 0 = 'X') := by
    rcases text with _ | ⟨c, text⟩
    · exact (by decide : ¬ ((0 : Byte) = 'x' ∨ (0 : Byte) = 'X'))
    · exact hne c (h c rfl)
  rw [hexMark, if_neg hhead]

/-- After a marker the base and the count start afresh. -/
theorem hexMark_recovers {letter : Byte} (hletter : letter = 'x' ∨ letter = 'X') :
    hexShape.Recovers ['0', letter] := by
  intro lead row rest hbase hused hlen hne hrow hrest
  simp at hlen
  have hwidth : lead.maxWidth ≠ 0 := by omega
  have hpos := length_pos_iff.mpr hne
  have hstop : ∀ d ∈ rest.head?, isxdigit d = false := fun d hd => by
    rw [hrest d hd]
    decide
  have hds : accepted isxdigit (lead.maxWidth - 1 - 1).toNat (row ++ rest) = row :=
    accepted_append hrow hstop (by omega)
  simp only [hexShape, cons_append, nil_append, zeroMark, headD_cons, hwidth, ne_eq,
    not_false_eq_true, and_self, if_true, hexMark, hletter, Lead.marked, hused,
    drop_succ_cons, drop_zero, hds]
  exact ⟨trivial, by omega, trivial⟩

/-- A zero as a marker is one more digit. -/
theorem IntShape.Recovers.zero {shape : IntShape} (h : shape.Recovers [])
    (hzero : shape.accepts shape.base '0' = true) : shape.Recovers ['0'] := by
  intro lead row rest hbase hused hlen _ hrow hrest
  refine h lead (('0' : Byte) :: row) rest hbase hused hlen (cons_ne_nil _ _) ?_ hrest
  exact forall_mem_cons.mpr ⟨hzero, hrow⟩

/-- The signs that are not skipped with the spaces. -/
def ownSigns : List (List Byte) := [[], ['-'], ['+']]

theorem signCount_append {sign body : List Byte} (hsign : sign ∈ ownSigns)
    (hbody : ∀ c ∈ body.head?, c ≠ ('-' : Byte) ∧ c ≠ ('+' : Byte)) {maxWidth : ℤ}
    (hwidth : maxWidth ≠ 0) :
    signCount maxWidth (sign ++ body) = sign.length ∧
      ((sign ++ body).headD 0 = '-' ↔ sign = [('-' : Byte)]) := by
  have hhead : body.headD 0 ≠ '-' ∧ body.headD 0 ≠ '+' := by
    rcases body with _ | ⟨c, body⟩
    · exact (by decide : (0 : Byte) ≠ '-' ∧ (0 : Byte) ≠ '+')
    · exact hbody c rfl
  simp [ownSigns] at hsign
  rcases hsign with rfl | rfl | rfl
  · refine ⟨if_neg fun h => h.2.elim hhead.1 hhead.2, ?_⟩
    exact ⟨fun h => absurd h hhead.1, fun h => absurd h (cons_ne_nil _ _).symm⟩
  · exact ⟨if_pos ⟨hwidth, .inl rfl⟩, iff_of_true rfl rfl⟩
  · have hne : ('+' : Byte) ≠ '-' := by decide
    exact ⟨if_pos ⟨hwidth, .inr rfl⟩, iff_of_false hne fun h => hne (cons.inj h).1⟩

/-- A number with its sign and its marker. -/
theorem IntShape.Recovers.item {shape : IntShape} {sign marker row : List Byte}
    (h : shape.Recovers marker) (rest : List Byte) (hsign : sign ∈ ownSigns)
    (hbody : ∀ c ∈ (marker ++ (row ++ rest)).head?, c ≠ ('-' : Byte) ∧ c ≠ ('+' : Byte))
    (hlen : ((sign ++ (marker ++ row)).length : ℤ) ≤ intMax) (hne : row ≠ [])
    (hrow : ∀ c ∈ row, shape.accepts shape.base c = true)
    (hrest : ∀ c ∈ rest.head?, c = (' ' : Byte)) : let text := sign ++ (marker ++ (row ++ rest))
    (shape.lead intMax text).1.negative = decide (sign = [('-' : Byte)]) ∧
      shape.used intMax text ≠ 0 ∧
      shape.value intMax text = BitVec.ofNat 64 (readDigits shape.base row) := by
  have hwidth : intMax ≠ 0 := by decide
  obtain ⟨hcount, hminus⟩ := signCount_append hsign hbody hwidth
  have hdrop : (sign ++ (marker ++ (row ++ rest))).drop sign.length = marker ++ (row ++ rest) :=
    drop_left
  have hlead : signLead intMax shape.base (sign ++ (marker ++ (row ++ rest))) =
      ⟨decide (sign = [('-' : Byte)]), intMax - sign.length, 0, sign.length, shape.base⟩ := by
    simp only [signLead, hcount, hminus, ne_eq, hwidth, not_false_eq_true, true_and]
  rw [length_append] at hlen
  obtain ⟨hneg, hused, hvalue⟩ :=
    h ⟨decide (sign = [('-' : Byte)]), intMax - sign.length, 0, sign.length, shape.base⟩
      row rest rfl rfl (by simp only; omega) hne hrow hrest
  simp only [IntShape.lead, IntShape.used, IntShape.value, IntShape.digits, hcount, hlead, hdrop,
    ← drop_drop]
  exact ⟨hneg, hused, congrArg (BitVec.ofNat 64) hvalue⟩

end Scan

/-! ### The conversions of the scanner -/

namespace IntConv

/-- The conversion of the same letter. -/
def conversion : IntConv → Conversion
  | .d | .u => .decimal
  | .i => .integer
  | .o => .octal
  | .x | .X => .hex

def shape : IntConv → Scan.IntShape
  | .d | .u => Scan.decimalShape
  | .i => Scan.integerShape
  | .o => Scan.octalShape
  | .x | .X => Scan.hexShape

variable (conv : IntConv)

theorem skips : conv.conversion.skips = true := by
  cases conv <;> rfl

theorem intShape_eq : conv.conversion.intShape = some conv.shape := by
  cases conv <;> rfl

theorem intState_eq (state : State) : conv.conversion.intState state = state := by
  cases conv <;> rfl

theorem shape_base : conv.shape.base = conv.base := by
  cases conv <;> rfl

theorem scanSpec_chars (hz : Hz) (state : State) :
    scanSpec hz (state.chars ++ [(PrintConv.int conv).char]) =
      (.conversion true none state conv.conversion, []) := by
  cases state <;> cases conv <;> rfl

/-- The formatter writes digits that the scanner takes. -/
theorem accepts_spelled (hconv : conv ≠ .i) (n : ℕ) :
    ∀ c ∈ spelled conv.upper conv.base n, conv.shape.accepts conv.shape.base c = true := by
  refine forall_mem_spelled conv.isBase.two_le (fun d => ?_) n
  revert d
  cases conv with
  | i => exact absurd rfl hconv
  | _ => decide

theorem recovers (hconv : conv ≠ .i) : conv.shape.Recovers [] := by
  cases conv with
  | d | u => exact Scan.decimalShape_recovers
  | i => exact absurd rfl hconv
  | o => exact Scan.zeroMark_recovers (by decide) fun _ _ _ _ _ => rfl
  | x | X =>
    refine Scan.zeroMark_recovers (by decide) fun lead row rest hrow hrest => ?_
    refine Scan.hexMark_skip lead fun c hc => ?_
    rcases row with _ | ⟨_, row⟩
    · exact .inl (hrest c hc)
    · cases hc
      exact .inr (hrow _ mem_cons_self)

/-- The marker of the formatter is one for the scanner. -/
theorem recovers_basePrefix (hmarked : conv.marked = true) :
    conv.shape.Recovers (basePrefix conv.upper conv.base) := by
  cases conv with
  | d | i | u => exact absurd hmarked Bool.false_ne_true
  | o => exact (recovers .o (by decide)).zero (by decide)
  | x => exact Scan.hexMark_recovers (.inl rfl)
  | X => exact Scan.hexMark_recovers (.inr rfl)

end IntConv

/-! ### The text of the formatter -/

namespace IntDirective

variable (d : IntDirective)

/-- The sign, if it is not a space. -/
def ownSign : List Byte :=
  if d.passed < 0 then ['-'] else if .plus ∈ d.flags then ['+'] else []

def ownMarker : List Byte := d.opts.marker d.conv.base d.passed.natAbs

/-- The zeros and the digits. -/
def row : List Byte :=
  replicate (d.opts.zeros d.conv.base d.passed.natAbs) ('0' : Byte) ++
    d.opts.digits d.conv.base d.passed.natAbs

theorem ownSign_mem : d.ownSign ∈ Scan.ownSigns := by
  rw [ownSign]
  split_ifs <;> decide

theorem ownSign_eq_minus : d.ownSign = [('-' : Byte)] ↔ d.passed < 0 := by
  rw [ownSign]
  split_ifs with hneg
  · exact iff_of_true rfl hneg
  all_goals exact iff_of_false (by decide) hneg

theorem signText_eq_ownSign :
    ∃ k, d.opts.signText = replicate k (' ' : Byte) ++ d.ownSign := by
  rw [signText_eq, ownSign]
  split_ifs
  · exact ⟨0, rfl⟩
  · exact ⟨0, rfl⟩
  · exact ⟨1, rfl⟩
  · exact ⟨0, rfl⟩

/-- Without zeros for its padding, the text is the number between spaces. -/
theorem text_eq_spaces (hwidth : (d.fieldWidth : ℤ) ≤ intMax) (hzero : d.zeroActive = false) :
    ∃ i j, d.text = replicate i (' ' : Byte) ++
      (d.ownSign ++ (d.ownMarker ++ (d.row ++ replicate j (' ' : Byte)))) := by
  obtain ⟨k, hsign⟩ := d.signText_eq_ownSign
  rw [d.text_eq hwidth, codeText, padded, hzero, if_neg Bool.false_ne_true, layout]
  generalize d.fieldWidth - _ = fill
  cases d.leftJustified with
  | true =>
    refine ⟨k, fill, ?_⟩
    rw [hsign]
    simp [ownMarker, row]
  | false =>
    refine ⟨fill + k, 0, ?_⟩
    rw [if_neg Bool.false_ne_true, hsign, replicate_add, replicate_zero]
    simp only [append_assoc, append_nil, ownMarker, row]

theorem readDigits_row : readDigits d.conv.shape.base d.row = d.passed.natAbs := by
  rw [d.conv.shape_base, row, readDigits_append, readDigits_zeros, readDigits_digits]
  simp

theorem isxdigit_row : ∀ c ∈ d.row, isxdigit c = true := by
  intro c hc
  rw [row, mem_append] at hc
  rcases hc with hc | hc
  · rw [eq_of_mem_replicate hc]
    decide
  · exact d.isxdigit_digits _ c hc

/-- The number without its sign starts with a digit. -/
theorem isxdigit_head (hrow : d.row ≠ []) (rest : List Byte) :
    ∀ c ∈ (d.ownMarker ++ (d.row ++ rest)).head?, isxdigit c = true := by
  have hmarkers : ∀ marker ∈ markers, ∀ c ∈ marker.head?, isxdigit c = true := by decide
  intro c hc
  rw [head?_append, Option.mem_def, Option.or_eq_some_iff] at hc
  rcases hc with hc | ⟨_, hc⟩
  · exact hmarkers d.ownMarker (d.marker_mem _) c hc
  · rw [head?_append_of_ne_nil _ hrow] at hc
    exact d.isxdigit_row c (mem_of_mem_head? hc)

theorem isspace_head (hrow : d.row ≠ []) (rest : List Byte) :
    ∀ c ∈ (d.ownSign ++ (d.ownMarker ++ (d.row ++ rest))).head?, isspace c = false := by
  have hsigns : ∀ sign ∈ Scan.ownSigns, ∀ c ∈ sign.head?, isspace c = false := by decide
  intro c hc
  rw [head?_append, Option.mem_def, Option.or_eq_some_iff] at hc
  rcases hc with hc | ⟨_, hc⟩
  · exact hsigns d.ownSign d.ownSign_mem c hc
  · exact isspace_of_isxdigit c (d.isxdigit_head hrow rest c hc)

theorem zero_not_mem (i j : ℕ) :
    (0 : Byte) ∉ replicate i (' ' : Byte) ++
      (d.ownSign ++ (d.ownMarker ++ (d.row ++ replicate j (' ' : Byte)))) := by
  have hspaces (k : ℕ) : (0 : Byte) ∉ replicate k (' ' : Byte) := fun hmem =>
    absurd (eq_of_mem_replicate hmem) (by decide)
  have hsigns : ∀ sign ∈ Scan.ownSigns, (0 : Byte) ∉ sign := by decide
  have hmarkers : ∀ marker ∈ markers, (0 : Byte) ∉ marker := by decide
  have hrow : (0 : Byte) ∉ d.row := fun hmem => absurd (d.isxdigit_row 0 hmem) (by decide)
  simp only [mem_append, not_or]
  exact ⟨hspaces i, hsigns _ d.ownSign_mem, hmarkers _ (d.marker_mem _), hrow, hspaces j⟩

/-- Negating twice gives back also the least value. -/
theorem popped_eq :
    (if d.passed < 0 then -BitVec.ofNat 64 d.passed.natAbs
      else BitVec.ofNat 64 d.passed.natAbs) = d.popped := by
  have habsolute : BitVec.ofNat 64 d.passed.natAbs = d.absolute := by
    rw [← toNat_absolute, BitVec.ofNat_toNat, BitVec.setWidth_eq]
  rw [habsolute, absolute]
  split_ifs
  · exact BitVec.neg_neg
  · rfl

/-- The value that comes back is the one in the type of the argument. -/
theorem popped_mod {bits : ℕ} (hbits : d.state.bits = some bits) :
    d.popped.toNat % 2 ^ bits = (d.raw.setWidth bits).toNat := by
  have hpassed (hle : bits ≤ 32) :
      (if d.conv.signed then (d.raw.setWidth 32).signExtend 64
        else (d.raw.setWidth 32).setWidth 64).setWidth bits = d.raw.setWidth bits := by
    refine BitVec.eq_of_getLsbD_eq fun i hi => ?_
    have h32 : i < 32 := by omega
    have h64 : i < 64 := by omega
    cases d.conv.signed
    · simp [hi, h32, h64]
    · simp [hi, h32, h64, BitVec.getElem_signExtend]
  rw [← BitVec.toNat_setWidth, popped]
  cases hstate : d.state with
  | none | hh | h =>
    rw [hstate] at hbits
    cases hbits
    rw [hpassed (by decide)]
  | L => exact absurd hstate d.isInt
  | _ => rfl

/-- The format that reads the number back. -/
def scanFormat : List Byte := ('%' : Byte) :: (d.state.chars ++ [(PrintConv.int d.conv).char])

theorem formatDirectives_scanFormat (hz : Hz) :
    formatDirectives hz d.scanFormat = [.conversion true none d.state d.conv.conversion] := by
  have hpercent : (d.state.chars ++ [(PrintConv.int d.conv).char]).head? ≠ some ('%' : Byte) := by
    cases d.state <;> cases d.conv <;> decide
  have hdirective : scanDirective hz '%' (d.state.chars ++ [(PrintConv.int d.conv).char]) =
      (.conversion true none d.state d.conv.conversion, []) := by
    rw [scanDirective, if_neg (by decide), if_neg (by decide), if_neg hpercent,
      d.conv.scanSpec_chars hz]
  rw [formatDirectives, scanFormat, length_cons, scanDirectives, hdirective]
  exact congrArg (cons _) (by rw [scanDirectives])

/-- The directives whose text is read back. -/
structure Readable : Prop where
  conv : d.conv ≠ .i
  flags : .zero ∉ d.flags
  width : d.width.negative = false
  precision : d.digitCount ≠ some 0
  fits : d.written.Fits

namespace Readable

variable {d} (h : d.Readable)
include h

theorem fieldWidth_le : (d.fieldWidth : ℤ) ≤ intMax := by
  have hneg := h.width
  rw [fieldWidth]
  cases hwidth : d.width with
  | absent => exact (by decide : ((0 : ℕ) : ℤ) ≤ intMax)
  | digits n lead => exact h.fits.width n lead hwidth
  | star arg =>
    have hlt := arg.toInt_lt
    rw [hwidth, WidthText.negative, decide_eq_false_iff_not] at hneg
    rw [WidthText.number, intMax]
    omega

theorem zeroActive_eq : d.zeroActive = false := by
  have hfirst : d.zeroFirst = false :=
    decide_eq_false fun hmem => h.flags ((takeWhile_sublist _).subset hmem)
  rw [zeroActive, hfirst, Bool.false_and]

theorem digits_eq :
    d.opts.digits d.conv.base d.passed.natAbs =
      spelled d.conv.upper d.conv.base d.passed.natAbs := by
  have hprecision : d.opts.precision ≠ 0 := by
    rw [opts_precision]
    intro hzero
    refine h.precision ?_
    cases hcount : d.digitCount with
    | none => simp [hcount] at hzero
    | some n => simpa [hcount] using hzero
  rw [IntOpts.digits, if_neg fun hboth => hprecision hboth.2]
  rfl

theorem row_ne_nil : d.row ≠ [] := by
  rw [row, h.digits_eq]
  exact fun hnil => spelled_ne_nil _ _ _ (append_eq_nil_iff.mp hnil).2

theorem accepts_row : ∀ c ∈ d.row, d.conv.shape.accepts d.conv.shape.base c = true := by
  intro c hc
  rw [row, mem_append] at hc
  rcases hc with hc | hc
  · rw [eq_of_mem_replicate hc]
    have hconv := h.conv
    cases hcase : d.conv with
    | i => exact absurd hcase hconv
    | _ => decide
  · rw [h.digits_eq] at hc
    exact d.conv.accepts_spelled h.conv _ c hc

theorem recovers_ownMarker : d.conv.shape.Recovers d.ownMarker := by
  rw [ownMarker, IntOpts.marker]
  split_ifs with hmarker
  · have hmarked : d.conv.marked = true := (Bool.and_eq_true_iff.mp hmarker.1).1
    exact d.conv.recovers_basePrefix hmarked
  · exact d.conv.recovers h.conv

variable {F : Type} (ld : LongDouble F)

/-- One round of the scanner reads the number back. -/
theorem run_execute {bits : ℕ} (hbits : d.state.bits = some bits)
    (hlen : (d.text.length : ℤ) ≤ intMax) {rounds : ℕ} (hrounds : d.text.length < rounds) :
    ∃ s', (Scan.execute textSource ld rounds
        (.conversion true none d.state d.conv.conversion)).run (.start d.text) = (.ok (), s') ∧
      s'.consumed = 1 ∧ s'.stores = [.int 0 bits (d.popped.toNat % 2 ^ bits)] := by
  obtain ⟨i, j, htext⟩ := d.text_eq_spaces h.fieldWidth_le h.zeroActive_eq
  have hsigns : ∀ c : Byte, isxdigit c = true → c ≠ '-' ∧ c ≠ '+' := by decide
  have hspaces : ∀ c ∈ replicate i (' ' : Byte), isspace c = true := fun c hc => by
    rw [eq_of_mem_replicate hc]
    decide
  have hskip : (d.text.takeWhile isspace).length = i := by
    rw [htext, takeWhile_append_stop hspaces (d.isspace_head h.row_ne_nil _), length_replicate]
  have hrest : d.text.drop i =
      d.ownSign ++ (d.ownMarker ++ (d.row ++ replicate j (' ' : Byte))) := by
    rw [htext, drop_left' length_replicate]
  obtain ⟨hneg, hused, hvalue⟩ := h.recovers_ownMarker.item (replicate j ' ')
    d.ownSign_mem (fun c hc => hsigns c (d.isxdigit_head h.row_ne_nil _ c hc))
    (by
      rw [htext] at hlen
      simp at hlen ⊢
      omega)
    h.row_ne_nil h.accepts_row
    (fun c hc => eq_of_mem_replicate (mem_of_mem_head? hc))
  have hio : (((Scan.start d.text : Scan (List Byte) F).eat i).pop true).io =
      d.ownSign ++ (d.ownMarker ++ (d.row ++ replicate j (' ' : Byte))) := hrest
  have hconvert := Scan.run_convert_int (((Scan.start d.text).eat i).pop true) ld
    d.conv.intShape_eq (some 0) none d.state
  rw [hio, Option.getD_none, hvalue, d.conv.intState_eq,
    Scan.run_finishInt _ hbits _ _ _ hused] at hconvert
  rw [Scan.execute, d.conv.skips, if_pos rfl,
    Prog.run_bind_of_ok (Scan.run_skipSpace (.start d.text) rounds hrounds)]
  rw [show (Scan.start d.text : Scan (List Byte) F).io = d.text from rfl, hskip]
  refine ⟨_, hconvert, rfl, ?_⟩
  simp only [hneg, decide_eq_true_eq, d.ownSign_eq_minus, readDigits_row, popped_eq]
  rfl

end Readable

end IntDirective

/-! ### The round trip -/

/-- A buffer that holds a whole output is read as that output. -/
theorem takeWhile_buffer (mem : ℕ → Byte) {size : ℕ} {out : List Byte} (hzero : (0 : Byte) ∉ out)
    (hsize : out.length < size) :
    ((range size).map (overwrite mem 0 (out ++ [0]))).takeWhile (· ≠ 0) = out := by
  obtain ⟨k, rfl⟩ : ∃ k, size = out.length + (k + 1) := ⟨size - out.length - 1, by omega⟩
  have hfirst : (range out.length).map (overwrite mem 0 (out ++ [0])) = out := by
    refine ext_getElem (by simp) fun i _ hi => ?_
    simp [overwrite, getElem?_append_left hi, getElem?_eq_getElem hi]
  have hnul : overwrite mem 0 (out ++ [0]) out.length = 0 := by
    simp [overwrite]
  rw [range_add, map_append, hfirst, range_succ_eq_map, map_cons, map_cons, Nat.add_zero, hnul]
  refine takeWhile_append_stop (fun c hc => ?_) ?_
  · exact decide_eq_true fun heq => hzero (heq ▸ hc)
  · rintro c ⟨⟩
    decide

namespace IntDirective

variable {F : Type} (hz : Hz) (ld : LongDouble F) (rounds : ℕ)

/-- What `snprintf` has written into a buffer that is large enough, `sscanf`
reads back. -/
theorem vsscanf_vsnprintf {d : IntDirective} (h : d.Readable) {bits : ℕ}
    (hbits : d.state.bits = some bits) (mem : ℕ → Byte) (size : ℕ) {printed : Printed}
    (hprinted : (vsnprintf hz ld rounds mem size d.written.render d.args).1 = .ok printed)
    (hret : 0 ≤ printed.ret) (hsize : printed.ret < size) :
    vsscanf hz ld
        ((List.range size).map (vsnprintf hz ld rounds mem size d.written.render d.args).2)
        d.scanFormat =
      .ok ⟨1, [.int 0 bits (d.raw.setWidth bits).toNat]⟩ := by
  rcases hrun : (vfprintf hz ld .collect rounds d.written.render d.args).run [] with ⟨got, out⟩
  rw [vsnprintf_eq, hrun] at hprinted ⊢
  cases (hprinted : got = .ok printed)
  have hlen := vfprintf_collect_ret hrun hret
  obtain ⟨rfl, hle⟩ := (emits_iff_text hz ld rounds d h.fits h.fieldWidth_le).mp
    ⟨printed, hrun, hlen⟩
  have hzero : (0 : Byte) ∉ d.text := by
    obtain ⟨i, j, htext⟩ := d.text_eq_spaces h.fieldWidth_le h.zeroActive_eq
    rw [htext]
    exact d.zero_not_mem i j
  have hbuffer := takeWhile_buffer mem hzero (by omega : d.text.length < size)
  have htake : d.text.take (size - 1) = d.text := take_of_length_le (by omega)
  simp only [if_neg (by omega : ¬ size = 0), htake]
  obtain ⟨s', hexecute, hconsumed, hstores⟩ := h.run_execute ld hbits hle
    (by omega : d.text.length < size + 1)
  rw [vsscanf_eq, hbuffer, length_map, length_range, run_vfscanf, d.formatDirectives_scanFormat,
    Scan.scan, Prog.each, Prog.run_bind, Prog.run_bind_of_ok hexecute]
  simp [Prog.each, Scan.finish, hconsumed, hstores, d.popped_mod hbits]

/-- The format `%+-24.20ld` with the least `long`. -/
def leastLong : IntDirective where
  flags := [.plus, .minus]
  width := .digits ⟨['2', '4'], by decide, by decide⟩ (by decide)
  precision := .digits ⟨['2', '0'], by decide, by decide⟩
  state := .l
  isInt := by decide
  conv := .d
  raw := 0x8000000000000000

theorem leastLong_readable : leastLong.Readable where
  conv := by decide
  flags := by decide
  width := rfl
  precision := by decide
  fits := by
    constructor
    · rintro n lead ⟨⟩
      decide
    · rintro n ⟨⟩
      decide

theorem vsscanf_vsnprintf_leastLong :
    (vsnprintf Hz.plain LongDouble.integral 0 (fun _ => 1) 32 leastLong.written.render
        leastLong.args).1 = .ok ⟨24, [], none⟩ ∧
      vsscanf Hz.plain LongDouble.integral
          ((List.range 32).map (vsnprintf Hz.plain LongDouble.integral 0 (fun _ => 1) 32
            leastLong.written.render leastLong.args).2)
          (['%', 'l', 'd'] : List Byte) =
        .ok ⟨1, [.int 0 64 0x8000000000000000]⟩ := by
  have hprinted : (vsnprintf Hz.plain LongDouble.integral 0 (fun _ => 1) 32
      leastLong.written.render leastLong.args).1 = .ok ⟨24, [], none⟩ := rfl
  exact ⟨hprinted, vsscanf_vsnprintf Hz.plain LongDouble.integral 0 leastLong_readable rfl
    (fun _ => 1) 32 hprinted (by decide) (by decide)⟩

end IntDirective

end Hzlibc.Stdio
