import Hzlibc.Stdio.FieldText

/-!
The field of a string conversion.

For a string the formatter looks at the precision only: it cuts the string, in
bytes or in wide characters, and writes what is left. The field of the standard
is padded to the width, and the precision of wide characters counts the bytes
that they are encoded in.
-/

namespace Hzlibc.Stdio

open Effect List

/-! ### Directives for strings -/

/-- What `s` is given: bytes, or wide characters with `ls`. The string ends at
the first NUL. -/
inductive StrArg
  | narrow (s : List Byte)
  | wide (s : List (BitVec 32))

def StrArg.state : StrArg → State
  | .narrow _ => .none
  | .wide _ => .l

def StrArg.arg {F : Type} : StrArg → Arg F
  | .narrow s => .str s
  | .wide s => .wstr s

/-- The string without its NUL. -/
def content {n : ℕ} (s : List (BitVec n)) : List (BitVec n) := s.takeWhile (· ≠ 0)

/-- The beginning that a precision leaves. -/
def cutTo {α : Type} (precision : Option ℕ) (s : List α) : List α :=
  match precision with
  | none => s
  | some p => s.take p

structure StrDirective where
  minus : Bool
  width : WidthText
  precision : PrecisionText
  str : StrArg
  fits : Written.Fits ⟨if minus then [.minus] else [], width, precision, str.state, .s⟩

namespace StrDirective

variable (d : StrDirective)

def written : Written :=
  ⟨if d.minus then [.minus] else [], d.width, d.precision, d.str.state, .s⟩

def args {F : Type} : List (Arg F) :=
  d.written.widthArgs ++ (d.written.precisionArgs ++ [d.str.arg])

/-- The part of a string that is to be written. -/
def body (s : List Byte) : List Byte := cutTo d.precision.number (content s)

/-- The field of the C standard for bytes. -/
def field (s : List Byte) : List Byte :=
  padded (d.minus || d.width.negative) (d.width.number - (d.body s).length) ' ' (d.body s)

/-! ### What is written -/

theorem number_le {p : ℕ} (h : d.precision.number = some p) : (p : ℤ) ≤ intMax := by
  cases hprecision : d.precision with
  | absent =>
    rw [hprecision] at h
    cases h
  | bare =>
    rw [hprecision] at h
    cases h
    decide
  | digits n =>
    rw [hprecision] at h
    cases h
    exact d.fits.precision n hprecision
  | star arg =>
    have hlt := BitVec.toInt_lt (x := arg)
    rw [hprecision, PrecisionText.number] at h
    split at h
    · cases h
      simp only [intMax]
      omega
    · cases h

theorem cut_eq {n : ℕ} (s : List (BitVec n)) :
    d.written.spec.cut s = cutTo d.precision.number (content s) := by
  have htake (p : ℕ) (hp : d.precision.number = some p) : (BitVec.ofInt 64 (p : ℤ)).toNat = p := by
    have hle := d.number_le hp
    simp only [intMax] at hle
    rw [BitVec.toNat_ofInt]
    omega
  simp only [Spec.cut, Written.spec, Written.readPrecision]
  rw [written]
  cases hprecision : d.precision with
  | absent | bare => rfl
  | digits n =>
    simp only [if_true, PrecisionText.number, cutTo, content]
    rw [htake n.value (by rw [hprecision, PrecisionText.number])]
  | star arg =>
    by_cases hneg : 0 ≤ arg.toInt
    · have hp : d.precision.number = some arg.toInt.toNat := by
        rw [hprecision, PrecisionText.number, if_pos hneg]
      have hback : ((arg.toInt.toNat : ℕ) : ℤ) = arg.toInt := Int.toNat_of_nonneg hneg
      have hnat := htake _ hp
      rw [hback] at hnat
      simp [hneg, PrecisionText.number, cutTo, content, hnat]
    · simp [hneg, PrecisionText.number, cutTo, content]

/-- The pieces that the formatter writes. -/
def pieces : List (List Byte) :=
  match d.str with
  | .narrow s => if d.body s = [] then [] else [d.body s]
  | .wide s => (cutTo d.precision.number (content s)).map wideBytes

section Run

variable {F : Type} (hz : Hz) (ld : LongDouble F) (rounds : ℕ)

theorem run_pieces :
    (Printer.pieces ld rounds 0 d.written.spec).run ⟨[d.str.arg], [], none⟩ =
      (.ok d.pieces, ⟨[], [], none⟩) := by
  have hstring : Printer.pieces ld rounds 0 d.written.spec = Printer.printString d.written.spec :=
    rfl
  have hstate : d.written.spec.state = d.str.state := rfl
  rw [hstring, Printer.printString, hstate, pieces]
  cases hstr : d.str with
  | narrow s | wide s =>
    simp only [cut_eq]
    rfl

/-- The pieces are written, all of them or more bytes than an `int` counts. -/
theorem run_vfprintf_pieces :
    ∃ printed k, (vfprintf hz ld .collect rounds d.written.render d.args).run [] =
        (.ok printed, (d.pieces.take k).flatten) ∧
      (d.pieces.length ≤ k ∨ intMax < (d.pieces.take k).flatten.length) := by
  by_cases hle : (d.pieces.flatten.length : ℤ) ≤ intMax
  · have hrun : (vfprintf hz ld .collect rounds d.written.render d.args).run [] = _ :=
      Written.run_vfprintf_render d.fits (d.run_pieces ld rounds) hle
    rw [← take_length (l := d.pieces)] at hrun
    exact ⟨_, d.pieces.length, hrun, .inl (Nat.le_refl _)⟩
  · obtain ⟨printed, k, hrun, _, hlt⟩ := Written.run_vfprintf_render_failed hz d.fits
      (d.run_pieces ld rounds) (Int.not_le.mp hle)
    exact ⟨printed, k, hrun, .inr hlt⟩

/-- The law of the string field. For bytes what is written is the field. For
wide characters the precision bounds the bytes, and no character is cut. -/
def Law : Prop :=
  ∃ printed out, (vfprintf hz ld .collect rounds d.written.render d.args).run [] =
      (.ok printed, out) ∧
    match d.str with
    | .narrow s => out = d.field s
    | .wide s =>
      (∀ p, d.precision.number = some p → out.length ≤ p) ∧
        ∃ k, out = ((content s).take k).flatMap wideBytes

/-- The strings that need no padding, and the wide ones of which as many
characters as the precision says are no more bytes. -/
def Plain : Prop :=
  match d.str with
  | .narrow s => d.width.number ≤ (d.body s).length
  | .wide s => ∀ p, d.precision.number = some p →
      (((content s).take p).flatMap wideBytes).length ≤ p

end Run

theorem flatten_narrow {s : List Byte} (hstr : d.str = .narrow s) :
    d.pieces.flatten = d.body s := by
  rw [pieces, hstr]
  dsimp only
  split
  next hnil => rw [hnil, flatten_nil]
  · rw [flatten_singleton]

/-- Bytes are one piece, which is written in any case. -/
theorem flatten_take_narrow {s : List Byte} (hstr : d.str = .narrow s) {k : ℕ}
    (h : d.pieces.length ≤ k ∨ intMax < (d.pieces.take k).flatten.length) :
    (d.pieces.take k).flatten = d.body s := by
  have hall : d.pieces.length ≤ k := by
    rcases h with hall | hlt
    · exact hall
    · have hone : d.pieces.length ≤ 1 := by
        rw [pieces, hstr]
        dsimp only
        split <;> simp
      rcases Nat.eq_zero_or_pos k with rfl | hk
      · rw [take_zero] at hlt
        exact absurd hlt (by decide)
      · omega
  rw [take_of_length_le hall, d.flatten_narrow hstr]

theorem padded_eq_self_iff {right : Bool} {fill : ℕ} {c : Byte} {text : List Byte} :
    text = padded right fill c text ↔ fill = 0 := by
  constructor
  · intro h
    have hlen := congrArg List.length h
    rw [length_padded] at hlen
    omega
  · cases right <;> simp [padded]

theorem flatten_take_wide {s : List (BitVec 32)} (hstr : d.str = .wide s) (k : ℕ) :
    (d.pieces.take k).flatten =
      ((cutTo d.precision.number (content s)).take k).flatMap wideBytes := by
  rw [pieces, hstr, ← map_take, flatMap_def]

/-- Cut characters are the beginning of all of them. -/
theorem take_cutTo {α : Type} (precision : Option ℕ) (s : List α) (k : ℕ) :
    ∃ j, (cutTo precision s).take k = s.take j := by
  cases precision with
  | none => exact ⟨k, rfl⟩
  | some p => exact ⟨min k p, by rw [cutTo, take_take]⟩

section Law

variable {F : Type} (hz : Hz) (ld : LongDouble F) (rounds : ℕ)

/-- The law of the string field holds where its padding and the encoding of its
characters make no difference. -/
theorem law_iff_plain : d.Law hz ld rounds ↔ d.Plain := by
  obtain ⟨printed, k, hrun, hk⟩ := d.run_vfprintf_pieces hz ld rounds
  rw [Law, Plain]
  cases hstr : d.str with
  | narrow s =>
    rw [d.flatten_take_narrow hstr hk] at hrun
    have hiff : d.body s = d.field s ↔ d.width.number ≤ (d.body s).length := by
      rw [field, padded_eq_self_iff]
      omega
    dsimp only
    rw [← hiff]
    constructor
    · rintro ⟨printed', out, hrun', hout⟩
      rw [hrun] at hrun'
      cases hrun'
      exact hout
    · exact fun hout => ⟨printed, _, hrun, hout⟩
  | wide s =>
    rw [d.flatten_take_wide hstr] at hrun
    constructor
    · rintro ⟨printed', out, hrun', hle, _⟩ p hp
      rw [hrun] at hrun'
      cases hrun'
      have hout := hle p hp
      -- an output that is too long to count would be longer than the precision
      have hall : d.pieces.length ≤ k := by
        refine hk.resolve_right fun hlt => ?_
        have hmax := d.number_le hp
        rw [d.flatten_take_wide hstr] at hlt
        omega
      have hlen : (cutTo d.precision.number (content s)).length ≤ k := by
        rwa [pieces, hstr, length_map] at hall
      rwa [take_of_length_le hlen, hp] at hout
    · intro hplain
      refine ⟨printed, _, hrun, ?_, ?_⟩
      · intro p hp
        have htotal := hplain p hp
        rw [hp, cutTo]
        rw [← take_append_drop k ((content s).take p), flatMap_append, length_append] at htotal
        omega
      · obtain ⟨j, hj⟩ := take_cutTo d.precision.number (content s) k
        exact ⟨j, by rw [hj]⟩

end Law

/-- The format `%5s` with the string `ab`. -/
def fiveWide : StrDirective where
  minus := false
  width := .single '5'
  precision := .absent
  str := .narrow ['a', 'b', 0]
  fits := by
    constructor
    · rintro n lead ⟨⟩
      decide
    · rintro n ⟨⟩

/-- No padding is written. -/
theorem fiveWide_not_law :
    (vfprintf Hz.plain LongDouble.integral .collect 0 fiveWide.written.render
        fiveWide.args).run [] = (.ok ⟨2, [], none⟩, (['a', 'b'] : List Byte)) ∧
      fiveWide.field ['a', 'b', 0] = ([' ', ' ', ' ', 'a', 'b'] : List Byte) ∧
      ¬ fiveWide.Law Hz.plain LongDouble.integral 0 := by
  have hfield : fiveWide.field ['a', 'b', 0] = ([' ', ' ', ' ', 'a', 'b'] : List Byte) := rfl
  have hne : (['a', 'b'] : List Byte) ≠ [' ', ' ', ' ', 'a', 'b'] := by decide
  refine ⟨rfl, hfield, ?_⟩
  rintro ⟨printed, out, hrun', hout⟩
  cases hrun'
  exact hne (hout.trans hfield)

end StrDirective

end Hzlibc.Stdio
