import Hzlibc.Numeral.Accumulator
import Hzlibc.Stdio.Basic

/-!
`str_to_int`, behind `strtol`, `strtoll`, `strtoul`, `strtoull` and their wide
variants.

The template has the character type and the result type as parameters, and so
has the model: a character type says what number a character is and what the
classification functions answer for it, a result type how many bits it has and
whether it is signed. A string is the list of the characters from the pointer
on; what is read behind its end is the terminating null character. The pointers
of the function are offsets into the string.

The negation of the smallest value of a signed type, which the function makes
when it returns that value, wraps around.
-/

namespace Hzlibc.Stdlib

open BitVec

/-! ### Characters -/

/-- `char` or `wchar_t`. -/
class CharType (C : Type) where
  /-- The value of a character as an `int`. -/
  code : C → ℤ
  nul : C
  /-- `isspace_helper`. -/
  isspace : C → Bool
  /-- `tolower_helper`. -/
  tolower : C → C
  code_nul : code nul = 0
  isspace_iff : ∀ c, isspace c = true ↔ code c = 32 ∨ (9 ≤ code c ∧ code c ≤ 13)
  /-- Only the two cases of a letter are turned into it. -/
  tolower_letter : ∀ c (k : ℤ), 97 ≤ k → k ≤ 122 →
    (code (tolower c) = k ↔ code c = k ∨ code c = k - 32)

open CharType
open Stdio (Byte Wchar)

instance instCharTypeByte : CharType Byte where
  code := Stdio.signed
  nul := 0
  isspace := Stdio.isspace
  tolower := Stdio.tolower
  code_nul := rfl
  isspace_iff := by decide
  tolower_letter c k hlo hhi := by
    have hcode : ∀ c : Byte, 97 ≤ Stdio.signed (Stdio.tolower c) →
        Stdio.signed (Stdio.tolower c) ≤ 122 →
        Stdio.signed (Stdio.tolower c) = Stdio.signed c ∨
          Stdio.signed (Stdio.tolower c) = Stdio.signed c + 32 := by decide
    have hletter : ∀ c : Byte, 97 ≤ Stdio.signed c → Stdio.signed c ≤ 122 →
        Stdio.signed (Stdio.tolower c) = Stdio.signed c := by decide
    have hcapital : ∀ c : Byte, 65 ≤ Stdio.signed c → Stdio.signed c ≤ 90 →
        Stdio.signed (Stdio.tolower c) = Stdio.signed c + 32 := by decide
    constructor
    · intro hk
      rcases hcode c (by omega) (by omega) with h | h <;> omega
    · rintro (hk | hk)
      · rw [hletter c (by omega) (by omega), hk]
      · rw [hcapital c (by omega) (by omega), hk, Int.sub_add_cancel]

/-- The wide functions know the ASCII characters; all others are no spaces,
and are turned into the null character. -/
def iswspace (c : Wchar) : Bool := c.toNat ≤ 127 && Stdio.isspace (c.setWidth 8)

def towlower (c : Wchar) : Wchar :=
  if c.toNat ≤ 127 then (Stdio.tolower (c.setWidth 8)).setWidth 32 else 0

section Wide

variable {c : Wchar}

theorem toInt_of_ascii (hc : c.toNat ≤ 127) : c.toInt = c.toNat := by
  rw [toInt_eq_toNat_of_lt (by omega)]

theorem signed_setWidth_of_ascii (hc : c.toNat ≤ 127) : Stdio.signed (c.setWidth 8) = c.toInt := by
  have hsmall : (c.setWidth 8).toNat = c.toNat := by
    rw [toNat_setWidth, Nat.mod_eq_of_lt (by omega)]
  rw [Stdio.signed, toInt_eq_toNat_of_lt (by omega), hsmall, toInt_of_ascii hc]

theorem toInt_of_not_ascii (hc : ¬ c.toNat ≤ 127) : c.toInt < 0 ∨ 127 < c.toInt := by
  rw [toInt_eq_toNat_cond]
  split <;> omega

theorem toInt_towlower (hc : c.toNat ≤ 127) :
    (towlower c).toInt = Stdio.signed (Stdio.tolower (c.setWidth 8)) := by
  have hascii : ∀ b : Byte, b.toNat ≤ 127 →
      ((Stdio.tolower b).setWidth 32).toInt = Stdio.signed (Stdio.tolower b) := by decide
  rw [towlower, if_pos hc]
  refine hascii _ ?_
  exact Nat.le_trans (Nat.mod_le _ _) hc

end Wide

instance instCharTypeWchar : CharType Wchar where
  code := BitVec.toInt
  nul := 0
  isspace := iswspace
  tolower := towlower
  code_nul := rfl
  isspace_iff c := by
    by_cases hc : c.toNat ≤ 127
    · have hbyte := CharType.isspace_iff (c.setWidth 8)
      rw [iswspace, decide_eq_true hc, Bool.true_and, ← signed_setWidth_of_ascii hc]
      exact hbyte
    · have hcode := toInt_of_not_ascii hc
      rw [iswspace, decide_eq_false hc, Bool.false_and]
      constructor
      · exact fun h => absurd h Bool.false_ne_true
      · omega
  tolower_letter c k hlo hhi := by
    by_cases hc : c.toNat ≤ 127
    · have hbyte := CharType.tolower_letter (c.setWidth 8) k hlo hhi
      rw [toInt_towlower hc, ← signed_setWidth_of_ascii hc]
      exact hbyte
    · have hcode := toInt_of_not_ascii hc
      rw [towlower, if_neg hc]
      constructor
      · intro hk
        have hzero : (0 : Wchar).toInt = 0 := rfl
        omega
      · omega

/-! ### Result types -/

/-- `long`, `long long` and their unsigned variants; none has less than 32
bits. -/
structure IntType where
  bits : ℕ
  signed : Bool
  wide : 32 ≤ bits

def long : IntType := ⟨64, true, by decide⟩

def unsignedLong : IntType := ⟨64, false, by decide⟩

def longLong : IntType := ⟨64, true, by decide⟩

def unsignedLongLong : IntType := ⟨64, false, by decide⟩

namespace IntType

variable (T : IntType)

/-- `hz::numeric_limits<T>::min()`. -/
def min : ℤ := if T.signed then -2 ^ (T.bits - 1) else 0

/-- `hz::numeric_limits<T>::max()`. -/
def max : ℤ := if T.signed then 2 ^ (T.bits - 1) - 1 else 2 ^ T.bits - 1

/-- `static_cast<T>` from the unsigned type of the same size. -/
def cast (value : BitVec T.bits) : ℤ := if T.signed then value.toInt else value.toNat

def maxValue (sign : Bool) : BitVec T.bits :=
  if T.signed then
    if sign then BitVec.ofInt T.bits (-(T.min + 1)) + 1 else BitVec.ofInt T.bits T.max
  else BitVec.ofInt T.bits T.max

end IntType

/-! ### The function -/

section Function

variable {C : Type} [CharType C]

def validChar (c : C) (base : ℕ) : Bool :=
  if base ≤ 10 then 48 ≤ code c && code c ≤ 48 + base - 1
  else
    (48 ≤ code c && code c ≤ 57) ||
      (97 ≤ code (tolower c) && code (tolower c) ≤ 97 + (base - 10 - 1))

def digit (c : C) : ℤ := if code c ≤ 57 then code c - 48 else code (tolower c) - 97 + 10

/-- Is there a sign, and how far does it move the pointer? -/
def readSign (ptr : List C) : Bool × ℕ :=
  if code (ptr.headD nul) = 45 then (true, 1)
  else if code (ptr.headD nul) = 43 then (false, 1)
  else (false, 0)

/-- Does the text start with a zero and the letter? -/
def marked (letter : ℤ) (ptr : List C) : Bool :=
  code (ptr.getD 0 nul) = 48 && code (tolower (ptr.getD 1 nul)) = letter

/-- The base, and how far its marker moves the pointer. -/
def readBase (base : ℕ) (ptr : List C) : ℕ × ℕ :=
  if base = 0 then
    if marked 120 ptr && validChar (ptr.getD 2 nul) 16 then (16, 2)
    else if marked 98 ptr && validChar (ptr.getD 2 nul) 2 then (2, 2)
    else if code (ptr.getD 0 nul) = 48 then (8, 1)
    else (10, 0)
  else if base = 2 then
    if marked 98 ptr && code (ptr.getD 2 nul) ≠ 0 then (2, 2) else (2, 0)
  else if base = 8 then
    if code (ptr.headD nul) = 48 then (8, 1) else (8, 0)
  else if base = 16 then
    if marked 120 ptr && code (ptr.getD 2 nul) ≠ 0 then (16, 2) else (16, 0)
  else (base, 0)

/-- What the loop over the digits works on. -/
structure Digits (w : ℕ) where
  ptr : ℕ
  value : BitVec w
  overflow : Bool

/-- The body of the loop over the digits. -/
def Digits.push {w : ℕ} (base : ℕ) (maxValue : BitVec w) (c : C) (st : Digits w) : Digits w :=
  let scaled := st.value * BitVec.ofNat w base
  let value := scaled + BitVec.ofInt w (digit c)
  { ptr := st.ptr + 1
    value
    overflow := st.overflow ||
      (scaled / BitVec.ofNat w base ≠ st.value || scaled > maxValue) ||
      (value < scaled || value > maxValue) }

@[simp] theorem Digits.push_ptr {w : ℕ} (base : ℕ) (maxValue : BitVec w) (c : C)
    (st : Digits w) : (st.push base maxValue c).ptr = st.ptr + 1 := rfl

/-- The loop over the digits, with the text from the pointer on. -/
def digitLoop {w : ℕ} (base : ℕ) (maxValue : BitVec w) : List C → Digits w → Digits w
  | [], st => st
  | c :: rest, st =>
    if validChar c base then digitLoop base maxValue rest (st.push base maxValue c) else st

/-- What a call returns, what it stores through the end pointer, and whether
it sets `errno` to `ERANGE`. -/
structure Outcome where
  value : ℤ
  stored : Option ℕ
  erange : Bool
  deriving DecidableEq

/-- `str_to_int`; `endPtr` tells whether the end pointer is not null. -/
def strToInt (T : IntType) (str : List C) (endPtr : Bool) (base : ℕ) : Outcome :=
  let afterSpace := (str.takeWhile isspace).length
  let (sign, signLength) := readSign (str.drop afterSpace)
  let ptr := afterSpace + signLength
  let (base, marker) := readBase base (str.drop ptr)
  let ptr := ptr + marker
  let st : Digits T.bits := ⟨ptr, 0, false⟩
  let st := if base ≤ 36 then digitLoop base (T.maxValue sign) (str.drop ptr) st else st
  let stored := if endPtr then some (if afterSpace ≠ st.ptr then st.ptr else 0) else none
  if st.overflow then ⟨if sign then T.min else T.max, stored, true⟩
  else ⟨if sign then T.cast (-st.value) else T.cast st.value, stored, false⟩

def strtol (str : List Byte) (endPtr : Bool) (base : ℕ) : Outcome :=
  strToInt long str endPtr base

def strtoul (str : List Byte) (endPtr : Bool) (base : ℕ) : Outcome :=
  strToInt unsignedLong str endPtr base

def strtoll (str : List Byte) (endPtr : Bool) (base : ℕ) : Outcome :=
  strToInt longLong str endPtr base

def strtoull (str : List Byte) (endPtr : Bool) (base : ℕ) : Outcome :=
  strToInt unsignedLongLong str endPtr base

def wcstol (str : List Wchar) (endPtr : Bool) (base : ℕ) : Outcome :=
  strToInt long str endPtr base

def wcstoll (str : List Wchar) (endPtr : Bool) (base : ℕ) : Outcome :=
  strToInt longLong str endPtr base

def wcstoul (str : List Wchar) (endPtr : Bool) (base : ℕ) : Outcome :=
  strToInt unsignedLong str endPtr base

def wcstoull (str : List Wchar) (endPtr : Bool) (base : ℕ) : Outcome :=
  strToInt unsignedLongLong str endPtr base

/-! ### What a string says -/

/-- The offset of the number, behind the spaces and the sign. -/
def numberAt (str : List C) : ℕ :=
  let afterSpace := (str.takeWhile isspace).length
  afterSpace + (readSign (str.drop afterSpace)).2

def negative (str : List C) : Bool := (readSign (str.drop (str.takeWhile isspace).length)).1

def effectiveBase (base : ℕ) (str : List C) : ℕ := (readBase base (str.drop (numberAt str))).1

/-- The offset of the digits, behind the marker of the base. -/
def digitsAt (base : ℕ) (str : List C) : ℕ :=
  numberAt str + (readBase base (str.drop (numberAt str))).2

def digitRun (base : ℕ) (str : List C) : List C :=
  if effectiveBase base str ≤ 36 then
    (str.drop (digitsAt base str)).takeWhile (validChar · (effectiveBase base str))
  else []

/-- The number the consumed digits write, without the sign. -/
def magnitude (base : ℕ) (str : List C) : ℕ :=
  Numeral.numeral (effectiveBase base str) ((digitRun base str).map fun c => (digit c).toNat)

def number (base : ℕ) (str : List C) : ℤ :=
  if negative str then -magnitude base str else magnitude base str

theorem number_cases (base : ℕ) (str : List C) :
    (number base str = -magnitude base str ∧ negative str = true) ∨
      (number base str = magnitude base str ∧ negative str = false) := by
  unfold number
  cases negative str <;> simp

theorem ofInt_number (n base : ℕ) (str : List C) :
    BitVec.ofInt n (number base str) =
      if negative str then -BitVec.ofNat n (magnitude base str)
      else BitVec.ofNat n (magnitude base str) := by
  unfold number
  split
  · exact neg_ofNat_eq_ofInt_neg.symm
  · exact ofInt_natCast _ _

theorem readBase_pos (base : ℕ) (ptr : List C) : 0 < (readBase base ptr).1 := by
  unfold readBase
  split_ifs <;> omega

theorem digit_of_validChar {c : C} {base : ℕ} (hbase : base ≤ 36)
    (hc : validChar c base = true) : 0 ≤ digit c ∧ digit c < base := by
  unfold validChar at hc
  unfold digit
  split at hc
  · simp at hc
    split <;> omega
  · simp at hc
    rcases hc with hc | hc
    · omega
    · -- a letter is behind the digits
      have hletter := (tolower_letter c _ hc.1 (by omega)).mp rfl
      omega

theorem tracks_push {w base : ℕ} {most : BitVec w} {c : C} {st : Digits w} {n : ℕ}
    (hw : 36 < 2 ^ w) (hpos : 0 < base) (hbase : base ≤ 36) (hc : validChar c base = true)
    (h : Numeral.Tracks most.toNat n st.value st.overflow) :
    Numeral.Tracks most.toNat (base * n + (digit c).toNat) (st.push base most c).value
      (st.push base most c).overflow := by
  have hdigit := digit_of_validChar hbase hc
  have hb : (BitVec.ofNat w base).toNat = base := by
    rw [toNat_ofNat, Nat.mod_eq_of_lt (by omega)]
  have hfits : digit c < ((2 ^ w : ℕ) : ℤ) := by
    omega
  have hd : (BitVec.ofInt w (digit c)).toNat = (digit c).toNat := by
    rw [toNat_ofInt, Int.emod_eq_of_lt hdigit.1 hfits]
  have hstep := h.push (b := BitVec.ofNat w base) (d := BitVec.ofInt w (digit c)) (by omega)
  rwa [hb, hd] at hstep

/-- The loop consumes the digits, and keeps the word with its flag standing
for the number they write. -/
theorem digitLoop_tracks {w base : ℕ} (hw : 36 < 2 ^ w) (hpos : 0 < base) (hbase : base ≤ 36)
    (most : BitVec w) (text : List C) (st : Digits w) (n : ℕ)
    (h : Numeral.Tracks most.toNat n st.value st.overflow) :
    let run := text.takeWhile (validChar · base)
    let st' := digitLoop base most text st
    st'.ptr = st.ptr + run.length ∧
      Numeral.Tracks most.toNat
        ((run.map fun c => (digit c).toNat).foldl (fun n d => base * n + d) n)
        st'.value st'.overflow := by
  induction text generalizing st n with
  | nil => exact ⟨rfl, h⟩
  | cons c rest ih =>
    by_cases hc : validChar c base = true
    · obtain ⟨hptr, hrest⟩ := ih _ _ (tracks_push hw hpos hbase hc h)
      simp [digitLoop, hc]
      refine ⟨?_, hrest⟩
      rw [hptr, Digits.push_ptr]
      omega
    · simp only [digitLoop, List.takeWhile_cons, hc]
      exact ⟨rfl, h⟩

/-- The state behind the loop. -/
def scanned (T : IntType) (base : ℕ) (str : List C) : Digits T.bits :=
  let st : Digits T.bits := ⟨digitsAt base str, 0, false⟩
  if effectiveBase base str ≤ 36 then
    digitLoop (effectiveBase base str) (T.maxValue (negative str))
      (str.drop (digitsAt base str)) st
  else st

/-- What the call stores through the end pointer. -/
def storedEnd (base : ℕ) (str : List C) (endPtr : Bool) : Option ℕ :=
  let last := digitsAt base str + (digitRun base str).length
  if endPtr then some (if (str.takeWhile isspace).length ≠ last then last else 0) else none

theorem scanned_spec (T : IntType) (base : ℕ) (str : List C) :
    (scanned T base str).ptr = digitsAt base str + (digitRun base str).length ∧
      Numeral.Tracks (T.maxValue (negative str)).toNat (magnitude base str)
        (scanned T base str).value (scanned T base str).overflow := by
  have hwide : 36 < 2 ^ T.bits :=
    Nat.lt_of_lt_of_le (by decide) (Nat.pow_le_pow_right (by decide : 0 < 2) T.wide)
  have hpos : 0 < effectiveBase base str := readBase_pos _ _
  rw [magnitude, Numeral.numeral_eq_foldl, digitRun, scanned]
  by_cases hbase : effectiveBase base str ≤ 36
  · simp only [if_pos hbase]
    exact digitLoop_tracks hwide hpos hbase _ _ _ 0 (Numeral.Tracks.zero _)
  · simp only [if_neg hbase]
    exact ⟨rfl, Numeral.Tracks.zero _⟩

theorem strToInt_eq (T : IntType) (str : List C) (endPtr : Bool) (base : ℕ) :
    strToInt T str endPtr base =
      { value :=
          if (T.maxValue (negative str)).toNat < magnitude base str then
            if negative str then T.min else T.max
          else T.cast (BitVec.ofInt T.bits (number base str))
        stored := storedEnd base str endPtr
        erange := decide ((T.maxValue (negative str)).toNat < magnitude base str) } := by
  obtain ⟨hptr, htracks⟩ := scanned_spec T base str
  have hcall : strToInt T str endPtr base =
      let stored := if endPtr then
        some (if (str.takeWhile isspace).length ≠ (scanned T base str).ptr then
          (scanned T base str).ptr else 0) else none
      if (scanned T base str).overflow then
        ⟨if negative str then T.min else T.max, stored, true⟩
      else ⟨if negative str then T.cast (-(scanned T base str).value)
        else T.cast (scanned T base str).value, stored, false⟩ := rfl
  rw [hcall, hptr]
  cases hover : (scanned T base str).overflow with
  | true =>
    have hlt := htracks.flag.mp hover
    simp [hlt, storedEnd]
  | false =>
    have hlt : ¬ (T.maxValue (negative str)).toNat < magnitude base str := by
      rw [← htracks.flag, hover]
      exact Bool.false_ne_true
    have hvalue : (scanned T base str).value = BitVec.ofNat T.bits (magnitude base str) := by
      rw [← htracks.value hover, ofNat_toNat, setWidth_eq]
    simp [hlt, hvalue, storedEnd, ofInt_number, apply_ite]

/-! ### Signed results -/

namespace IntType

variable {T : IntType}

theorem two_pow_bits (T : IntType) : (2 : ℤ) ^ T.bits = 2 * 2 ^ (T.bits - 1) := by
  have hbits : T.bits = T.bits - 1 + 1 := (Nat.sub_add_cancel (by have := T.wide; omega)).symm
  rw [hbits, Int.pow_succ, Nat.add_sub_cancel, Int.mul_comm]

theorem half_pos (T : IntType) : (0 : ℤ) < 2 ^ (T.bits - 1) := Int.pow_pos (by decide)

theorem min_of_signed (hsigned : T.signed = true) : T.min = -2 ^ (T.bits - 1) :=
  if_pos hsigned

theorem max_of_signed (hsigned : T.signed = true) : T.max = 2 ^ (T.bits - 1) - 1 :=
  if_pos hsigned

theorem toNat_ofInt_of_lt {i : ℤ} (hneg : 0 ≤ i) (hlt : i < 2 ^ T.bits) :
    ((BitVec.ofInt T.bits i).toNat : ℤ) = i := by
  rw [toNat_ofInt, Int.toNat_of_nonneg (Int.emod_nonneg _ (by positivity)),
    Int.emod_eq_of_lt hneg (by exact_mod_cast hlt)]

theorem maxValue_of_signed (hsigned : T.signed = true) (sign : Bool) :
    ((T.maxValue sign).toNat : ℤ) = if sign then -T.min else T.max := by
  have hhalf := T.half_pos
  have hbits := T.two_pow_bits
  have hmin := min_of_signed hsigned
  have hmax := max_of_signed hsigned
  rw [maxValue, if_pos hsigned]
  cases sign with
  | true =>
    have hsum : BitVec.ofInt T.bits (-(T.min + 1)) + 1 = BitVec.ofInt T.bits (-T.min) := by
      rw [show -T.min = -(T.min + 1) + 1 by omega, ofInt_add]
      rfl
    rw [if_pos rfl, if_pos rfl, hsum, toNat_ofInt_of_lt (by omega) (by omega)]
  | false =>
    rw [if_neg Bool.false_ne_true, if_neg Bool.false_ne_true,
      toNat_ofInt_of_lt (by omega) (by omega)]

/-- A number in the range of the type is not changed by the conversion. -/
theorem cast_ofInt (hsigned : T.signed = true) {i : ℤ} (hmin : T.min ≤ i) (hmax : i ≤ T.max) :
    T.cast (BitVec.ofInt T.bits i) = i := by
  rw [min_of_signed hsigned] at hmin
  rw [max_of_signed hsigned] at hmax
  have hbits : ((2 ^ T.bits : ℕ) : ℤ) = 2 * 2 ^ (T.bits - 1) := by
    exact_mod_cast T.two_pow_bits
  rw [cast, if_pos hsigned, toInt_ofInt]
  apply Int.bmod_eq_of_le
  · omega
  · omega

end IntType

theorem strToInt_of_signed {T : IntType} (hsigned : T.signed = true) (str : List C) (endPtr : Bool)
    (base : ℕ) :
    strToInt T str endPtr base =
      { value := max T.min (min T.max (number base str))
        stored := storedEnd base str endPtr
        erange := decide (¬ (T.min ≤ number base str ∧ number base str ≤ T.max)) } := by
  have hmost := IntType.maxValue_of_signed hsigned (negative str)
  have hhalf := T.half_pos
  have hmin := IntType.min_of_signed hsigned
  have hmax := IntType.max_of_signed hsigned
  rw [strToInt_eq, Outcome.mk.injEq, decide_eq_decide]
  rcases number_cases base str with ⟨hnumber, hneg⟩ | ⟨hnumber, hneg⟩
  all_goals
    simp only [hneg, if_true, Bool.false_eq_true, if_false] at hmost ⊢
    refine ⟨?_, trivial, by omega⟩
    split
    · omega
    · rw [IntType.cast_ofInt hsigned] <;> omega

/-- The sign and the digits that are consumed give the number; the result is
the closest one the type has, and `ERANGE` tells that it is another one. -/
theorem strToInt_clamp (T : IntType) (hsigned : T.signed = true) (str : List C) (base : ℕ)
    (endPtr : Bool) :
    (strToInt T str endPtr base).value = max T.min (min T.max (number base str)) ∧
      ((strToInt T str endPtr base).erange = true ↔
        ¬ (T.min ≤ number base str ∧ number base str ≤ T.max)) := by
  rw [strToInt_of_signed hsigned]
  exact ⟨rfl, decide_eq_true_iff⟩

/-! ### Unsigned results -/

namespace IntType

variable {T : IntType} (hsigned : T.signed = false)

include hsigned

theorem max_of_unsigned : T.max = 2 ^ T.bits - 1 := by rw [max, hsigned]; rfl

theorem maxValue_of_unsigned (sign : Bool) : (T.maxValue sign).toNat = 2 ^ T.bits - 1 := by
  have hpos : (0 : ℤ) < 2 ^ T.bits := Int.pow_pos (by decide)
  have hmax := max_of_unsigned hsigned
  have hvalue : ((T.maxValue sign).toNat : ℤ) = T.max := by
    rw [maxValue, hsigned]
    exact toNat_ofInt_of_lt (by omega) (by omega)
  rw [hmax] at hvalue
  zify [Nat.one_le_two_pow (n := T.bits)]
  exact hvalue

theorem cast_ofInt_of_unsigned (i : ℤ) : T.cast (BitVec.ofInt T.bits i) = i % 2 ^ T.bits := by
  have hnonneg : 0 ≤ i % 2 ^ T.bits := Int.emod_nonneg _ (by positivity)
  rw [cast, hsigned]
  exact Int.toNat_of_nonneg hnonneg

end IntType

theorem strToInt_of_unsigned {T : IntType} (hsigned : T.signed = false) (str : List C)
    (endPtr : Bool) (base : ℕ) :
    strToInt T str endPtr base =
      { value :=
          if magnitude base str < 2 ^ T.bits then number base str % 2 ^ T.bits
          else if negative str then 0 else 2 ^ T.bits - 1
        stored := storedEnd base str endPtr
        erange := decide (2 ^ T.bits ≤ magnitude base str) } := by
  have hmost := IntType.maxValue_of_unsigned hsigned (negative str)
  have hmin : T.min = 0 := by rw [IntType.min, hsigned]; rfl
  rw [strToInt_eq, Outcome.mk.injEq, decide_eq_decide, IntType.cast_ofInt_of_unsigned hsigned]
  refine ⟨?_, rfl, by omega⟩
  by_cases hlt : magnitude base str < 2 ^ T.bits
  · rw [if_neg (by omega), if_pos hlt]
  · rw [if_pos (by omega), if_neg hlt, hmin, IntType.max_of_unsigned hsigned]

/-- The result is the number modulo the size of the type if its digits fit, and
the greatest value with `ERANGE` otherwise, whatever the sign. -/
def UnsignedRight (T : IntType) (base : ℕ) (str : List C) (result : Outcome) : Prop :=
  if magnitude base str ≤ T.max then
    result.value = number base str % 2 ^ T.bits ∧ result.erange = false
  else result.value = T.max ∧ result.erange = true

theorem unsignedRight_strToInt {T : IntType} (hsigned : T.signed = false) (str : List C)
    (endPtr : Bool) (base : ℕ) :
    UnsignedRight T base str (strToInt T str endPtr base) ↔
      ¬ (negative str = true ∧ 2 ^ T.bits ≤ magnitude base str) := by
  have hmax := IntType.max_of_unsigned hsigned
  have hpos : (1 : ℤ) < 2 ^ T.bits := one_lt_pow₀ (by decide) (by have := T.wide; omega)
  have hfits : magnitude base str ≤ T.max ↔ magnitude base str < 2 ^ T.bits := by
    zify
    omega
  simp only [UnsignedRight, strToInt_of_unsigned hsigned, hfits]
  by_cases hlt : magnitude base str < 2 ^ T.bits
  · have hle : ¬ 2 ^ T.bits ≤ magnitude base str := Nat.not_le.mpr hlt
    simp [hlt, hle]
  · -- behind a minus sign the smallest value is returned, not the greatest
    have hle : 2 ^ T.bits ≤ magnitude base str := Nat.not_lt.mp hlt
    cases negative str with
    | true => simpa [hlt, hle, hmax] using (by omega : (0 : ℤ) ≠ 2 ^ T.bits - 1)
    | false => simp [hlt, hle, hmax]

end Function

/-- `strtoul` and `strtoull` are right unless a number that is too large has a
minus sign. -/
theorem unsignedRight_iff (str : List Byte) (endPtr : Bool) (base : ℕ) :
    (UnsignedRight unsignedLong base str (strtoul str endPtr base) ↔
        ¬ (negative str = true ∧ 2 ^ 64 ≤ magnitude base str)) ∧
      (UnsignedRight unsignedLongLong base str (strtoull str endPtr base) ↔
        ¬ (negative str = true ∧ 2 ^ 64 ≤ magnitude base str)) := by
  exact ⟨unsignedRight_strToInt rfl str endPtr base, unsignedRight_strToInt rfl str endPtr base⟩

/-- The first number that is too large, behind a minus sign. -/
def negatedRange : List Byte := '-' :: '1' :: List.replicate 16 '0'

theorem not_unsignedRight_negatedRange :
    ¬ UnsignedRight unsignedLong 16 negatedRange (strtoul negatedRange true 16) := by
  simp only [UnsignedRight]
  decide +kernel

/-- One less than the smallest `long`. -/
def belowLong : List Byte :=
  [' ', '-', '9', '2', '2', '3', '3', '7', '2', '0', '3', '6', '8', '5', '4', '7', '7', '5', '8',
    '0', '9', '.']

theorem strToInt_clamp_belowLong :
    number 10 belowLong = -9223372036854775809 ∧
      (strtol belowLong true 10).value = -9223372036854775808 ∧
      (strtol belowLong true 10).erange = true := by
  have hnumber : number 10 belowLong = -9223372036854775809 := by decide +kernel
  obtain ⟨hvalue, herange⟩ := strToInt_clamp long rfl belowLong 10 true
  exact ⟨hnumber, hvalue.trans (by decide +kernel), herange.mpr (by decide +kernel)⟩

end Hzlibc.Stdlib
