import Hzlibc.Stdlib.Subject

/-!
`strtoimax` and `strtoumax`, which are written without `str_to_int`.

They read the number in the same way, except that a marker of a base is skipped
whatever follows it, and that they return from the loop over the digits as soon
as the value does not fit, without storing the end pointer. `intmax_t`,
`uintmax_t` and `uintptr_t` have 64 bits.
-/

namespace Hzlibc.Stdlib

open CharType BitVec
open Stdio (Byte)

def chars : List Byte :=
  (['0', '1', '2', '3', '4', '5', '6', '7', '8', '9'] ++
    ['a', 'b', 'c', 'd', 'e', 'f', 'g', 'h', 'i', 'j', 'k', 'l', 'm'] ++
    ['n', 'o', 'p', 'q', 'r', 's', 't', 'u', 'v', 'w', 'x', 'y', 'z']).map
    fun c : Char => (c : Byte)

/-- The base, and how far its marker moves the pointer. -/
def readMaxBase (base : ℕ) (ptr : List Byte) : ℕ × ℕ :=
  if base = 0 then
    if marked 120 ptr then (16, 2)
    else if marked 98 ptr then (2, 2)
    else if code (ptr.getD 0 nul) = 48 then (8, 1)
    else (10, 0)
  else if base = 2 then
    if marked 98 ptr then (2, 2) else (2, 0)
  else if base = 8 then
    if code (ptr.headD nul) = 48 then (8, 1) else (8, 0)
  else if base = 16 then
    if marked 120 ptr then (16, 2) else (16, 0)
  else (base, 0)

/-- The condition of the loop for the base. -/
def maxValid (base : ℕ) (c : Byte) : Bool :=
  if base ≤ 10 then 48 ≤ Stdio.signed c && Stdio.signed c ≤ 48 + (base - 1)
  else Stdio.isdigit c ||
    (97 ≤ (Stdio.tolower c).toNat && (Stdio.tolower c).toNat ≤ (chars.getD (base - 1) 0).toNat)

/-- The digit that the loop for the base adds. -/
def maxDigit (base : ℕ) (c : Byte) : ℤ :=
  if base ≤ 10 then Stdio.signed c - 48
  else if Stdio.signed c ≤ 57 then Stdio.signed c - 48
  else (Stdio.tolower c).toNat - 97 + 10

/-- The loops over the digits, which have the same body: the pointer and the
value behind the digits, if there was no overflow. -/
def maxLoop (base : ℕ) : List Byte → ℕ → BitVec 64 → Option (ℕ × BitVec 64)
  | [], ptr, value => some (ptr, value)
  | c :: rest, ptr, value =>
    if maxValid base c then
      let scaled := value * BitVec.ofNat 64 base
      if scaled / BitVec.ofNat 64 base ≠ value then none
      else
        let value := scaled + BitVec.ofInt 64 (maxDigit base c)
        if value < scaled then none else maxLoop base rest (ptr + 1) value
    else some (ptr, value)

/-- What both functions do up to the end of the loops. -/
def maxScan (str : List Byte) (base : ℕ) : Bool × Option (ℕ × BitVec 64) :=
  let afterSpace := (str.takeWhile Stdio.isspace).length
  let (sign, signLength) := readSign (str.drop afterSpace)
  let ptr := afterSpace + signLength
  let (base, marker) := readMaxBase base (str.drop ptr)
  let ptr := ptr + marker
  (sign, if base ≤ 36 then maxLoop base (str.drop ptr) ptr 0 else some (ptr, 0))

/-- What is stored through the end pointer. -/
def maxEnd (str : List Byte) (endPtr : Bool) (ptr : ℕ) : Option ℕ :=
  if endPtr then some (if (str.takeWhile Stdio.isspace).length ≠ ptr then ptr else 0) else none

def uintptrMax : BitVec 64 := BitVec.allOnes 64

def intmaxMax : BitVec 64 := BitVec.ofNat 64 (2 ^ 63 - 1)

def strtoumax (str : List Byte) (endPtr : Bool) (base : ℕ) : Outcome :=
  match maxScan str base with
  | (_, none) => ⟨uintptrMax.toNat, none, true⟩
  | (sign, some (ptr, value)) =>
    ⟨(if sign then -value else value).toNat, maxEnd str endPtr ptr, false⟩

def strtoimax (str : List Byte) (endPtr : Bool) (base : ℕ) : Outcome :=
  match maxScan str base with
  | (_, none) => ⟨uintptrMax.toInt, none, true⟩
  | (sign, some (ptr, value)) =>
    if value > intmaxMax then ⟨intmaxMax.toInt, none, true⟩
    else ⟨(if sign then -value else value).toInt, maxEnd str endPtr ptr, false⟩

/-! ### The digits -/

/-- As long as it is compared with characters, the result of `tolower` may be
taken for a `char`. -/
theorem toNat_tolower (c : Byte) {most : ℕ} (hmost : most < 128) :
    (97 ≤ (Stdio.tolower c).toNat ∧ (Stdio.tolower c).toNat ≤ most) ↔
      97 ≤ Stdio.signed (Stdio.tolower c) ∧ Stdio.signed (Stdio.tolower c) ≤ most := by
  rw [Stdio.signed, toInt_eq_toNat_cond]
  split <;> omega

theorem toNat_chars : ∀ base < 37, 10 < base →
    (chars.getD (base - 1) 0).toNat = 97 + (base - 11) := by decide

variable {base : ℕ}

theorem maxValid_eq (hbase : base ≤ 36) (c : Byte) : maxValid base c = validChar c base := by
  have hdigit : ∀ c : Byte, Stdio.isdigit c =
      (decide (48 ≤ Stdio.signed c) && decide (Stdio.signed c ≤ 57)) := by decide
  unfold maxValid validChar
  split
  · rw [Int.add_sub_assoc]
    rfl
  · have hlast := toNat_chars base (by omega) (by omega)
    have hletter := toNat_tolower c (show 97 + (base - 11) < 128 by omega)
    have hcast : ((97 + (base - 11) : ℕ) : ℤ) = 97 + ((base : ℤ) - 10 - 1) := by omega
    rw [hcast] at hletter
    rw [hdigit, hlast, ← Bool.decide_and, ← Bool.decide_and, decide_eq_decide.mpr hletter,
      Bool.decide_and, Bool.decide_and]
    rfl

theorem maxDigit_eq (hbase : base ≤ 36) {c : Byte} (hc : validChar c base = true) :
    maxDigit base c = digit c := by
  have hcases : Stdio.signed c ≤ 57 ∨ (¬ base ≤ 10 ∧
      97 ≤ Stdio.signed (Stdio.tolower c) ∧ Stdio.signed (Stdio.tolower c) ≤ (122 : ℕ)) := by
    unfold validChar at hc
    split at hc
    · simp at hc
      left
      change code c ≤ 57
      omega
    · simp at hc
      rcases hc with hc | hc
      · exact Or.inl hc.2
      · exact Or.inr ⟨‹_›, hc.1, Int.le_trans hc.2 (by omega)⟩
  have hcode : code c = Stdio.signed c := rfl
  unfold maxDigit digit
  rw [hcode]
  by_cases hnine : Stdio.signed c ≤ 57
  · rw [if_pos hnine, if_pos hnine, ite_self]
  · obtain ⟨hlarge, hletter⟩ := hcases.resolve_left hnine
    rw [if_neg hlarge, if_neg hnine, if_neg hnine]
    change ((Stdio.tolower c).toNat : ℤ) - 97 + 10 = Stdio.signed (Stdio.tolower c) - 97 + 10
    have hsmall := (toNat_tolower c (by decide)).mpr hletter
    rw [Stdio.signed, toInt_eq_toNat_of_lt (by omega)]

theorem overflow_digitLoop {w : ℕ} {most : BitVec w} (text : List Byte) {st : Digits w}
    (h : st.overflow = true) : (digitLoop base most text st).overflow = true := by
  induction text generalizing st with
  | nil => exact h
  | cons c rest ih =>
    rw [digitLoop]
    split
    · apply ih
      rw [Digits.push]
      rw [h]
      rfl
    · exact h

/-- Returning at once is the same as remembering the overflow, where every
value of the word is allowed. -/
theorem maxLoop_eq (hbase : base ≤ 36) (text : List Byte) (ptr : ℕ) (value : BitVec 64) :
    maxLoop base text ptr value =
      let st := digitLoop base (BitVec.allOnes 64) text ⟨ptr, value, false⟩
      if st.overflow then none else some (st.ptr, st.value) := by
  have hnone (v : BitVec 64) : ¬ v > BitVec.allOnes 64 := by
    rw [gt_iff_lt, lt_def, toNat_allOnes]
    omega
  induction text generalizing ptr value with
  | nil => rfl
  | cons c rest ih =>
    rw [maxLoop, digitLoop, maxValid_eq hbase]
    by_cases hc : validChar c base = true
    · rw [if_pos hc, if_pos hc, maxDigit_eq hbase hc, Digits.push]
      simp only [Bool.false_or, hnone, decide_false, Bool.or_false]
      by_cases hmul : value * BitVec.ofNat 64 base / BitVec.ofNat 64 base ≠ value
      · rw [if_pos hmul, if_pos]
        apply overflow_digitLoop
        simp [hmul]
      · rw [if_neg hmul, decide_eq_false hmul, Bool.false_or]
        split
        · rename_i hadd
          rw [if_pos]
          apply overflow_digitLoop
          exact decide_eq_true hadd
        · rename_i hadd
          rw [ih, decide_eq_false hadd]
    · rw [if_neg hc, if_neg hc]
      rfl

/-! ### Markers without a digit -/

/-- The marker of a base is skipped here but not by `str_to_int`: with base 0
because no digit follows it, in its own base because the string ends. -/
def Loose (base : ℕ) (text : List Byte) : Prop :=
  (base = 0 ∧ ((marked 120 text = true ∧ ¬ DigitOf 16 (text.getD 2 nul)) ∨
    (marked 98 text = true ∧ ¬ DigitOf 2 (text.getD 2 nul)))) ∨
  (((base = 16 ∧ marked 120 text = true) ∨ (base = 2 ∧ marked 98 text = true)) ∧
    code (text.getD 2 nul) = 0)

variable {text str : List Byte}

theorem readMaxBase_eq (hloose : ¬ Loose base text) :
    readMaxBase base text = readBase base text := by
  unfold Loose at hloose
  unfold readMaxBase readBase
  simp [validChar_iff (by decide : 16 ≤ 36), validChar_iff (by decide : 2 ≤ 36)]
  grind

section

variable (h : Loose base text)
include h

theorem Loose.exists_marker :
    ∃ letter b, ((letter = 120 ∧ b = 16) ∨ (letter = 98 ∧ b = 2)) ∧ marked letter text = true ∧
      (base = 0 ∨ (base = b ∧ code (text.getD 2 nul) = 0)) ∧ ¬ DigitOf b (text.getD 2 nul) := by
  have hnone {b : ℕ} (hzero : code (text.getD 2 nul) = 0) : ¬ DigitOf b (text.getD 2 nul) :=
    fun hdigit => hdigit.code_ne_zero hzero
  rcases h with ⟨hbase, ⟨hmarked, hdigit⟩ | ⟨hmarked, hdigit⟩⟩ |
    ⟨⟨hb, hmarked⟩ | ⟨hb, hmarked⟩, hzero⟩
  · exact ⟨120, 16, Or.inl ⟨rfl, rfl⟩, hmarked, Or.inl hbase, hdigit⟩
  · exact ⟨98, 2, Or.inr ⟨rfl, rfl⟩, hmarked, Or.inl hbase, hdigit⟩
  · exact ⟨120, 16, Or.inl ⟨rfl, rfl⟩, hmarked, Or.inr ⟨hb, hzero⟩, hnone hzero⟩
  · exact ⟨98, 2, Or.inr ⟨rfl, rfl⟩, hmarked, Or.inr ⟨hb, hzero⟩, hnone hzero⟩

/-- `str_to_int` reads the zero of a loose marker. -/
theorem Loose.scanLength_eq_one : scanLength base text = 1 := by
  obtain ⟨letter, b, hletter, hmarked, hbase, hdigit⟩ := h.exists_marker
  have hdangling : ¬ Dangling base text := by
    rintro ⟨hb, hthird, -⟩
    rcases hbase with rfl | ⟨-, hzero⟩
    · omega
    · exact hthird hzero
  have hmarking : marking base text = (plainBase base text, 0) := by
    have hexclusive : marked 98 text = true → ¬ marked 120 text = true := not_marked_of_marked
    unfold marking
    rcases hletter with ⟨rfl, rfl⟩ | ⟨rfl, rfl⟩
    · rw [if_neg fun h => hdigit h.2.2, if_neg fun h => hexclusive h.2.1 hmarked]
    · rw [if_neg fun h => hexclusive hmarked h.2.1, if_neg fun h => hdigit h.2.2]
  have hplain : plainBase base text ≠ 0 ∧
      ((letter = 120 ∧ plainBase base text ≤ 16) ∨ (letter = 98 ∧ plainBase base text ≤ 10)) := by
    unfold plainBase
    split_ifs <;> omega
  have hpos : 0 < rowLength (plainBase base text) text :=
    (rowLength_pos (by omega)).mpr (digitOf_zero hplain.1 (code_headD_of_marked hmarked))
  have hle := length_le_of_marked hplain.2 hmarked (isRow_take (by omega) hpos).2
  rw [scanLength_eq hdangling, numberLength, hmarking]
  change 0 + rowLength (plainBase base text) text = 1
  omega

/-- The functions here read all of a loose marker, and nothing else. -/
theorem Loose.readMaxBase_eq :
    ∃ b ≤ 36, readMaxBase base text = (b, 2) ∧ ¬ DigitOf b (text.getD 2 nul) := by
  obtain ⟨letter, b, hletter, hmarked, hbase, hdigit⟩ := h.exists_marker
  refine ⟨b, by omega, ?_, hdigit⟩
  have hexclusive : marked 98 text = true → ¬ marked 120 text = true := not_marked_of_marked
  unfold readMaxBase
  rcases hletter with ⟨rfl, rfl⟩ | ⟨rfl, rfl⟩
  · rcases hbase with rfl | ⟨rfl, -⟩ <;> simp [hmarked]
  · rcases hbase with rfl | ⟨rfl, -⟩ <;> simp [hmarked, hexclusive hmarked]

/-! ### The whole scan -/

theorem Loose.base_le : base ≤ 36 := by
  unfold Loose at h
  omega

theorem Loose.code_headD : code (text.headD nul) = 48 := by
  obtain ⟨letter, b, -, hmarked, -⟩ := h.exists_marker
  exact code_headD_of_marked hmarked

end

theorem Loose.magnitude_eq (h : Loose base (str.drop (numberAt str))) : magnitude base str = 0 := by
  have hlength := digitsAt_add_length h.base_le str
  rw [h.scanLength_eq_one, digitsAt] at hlength
  rw [magnitude]
  rcases hrun : digitRun base str with _ | ⟨c, _ | ⟨c', digits⟩⟩
  · rfl
  · -- the one digit is the zero behind the sign
    rw [hrun, List.length_singleton] at hlength
    rw [digitRun, if_pos (effectiveBase_le h.base_le str), digitsAt,
      show (readBase base (str.drop (numberAt str))).2 = 0 by omega, Nat.add_zero] at hrun
    obtain ⟨rest, hrest⟩ := List.takeWhile_prefix (l := str.drop (numberAt str))
      (validChar · (effectiveBase base str))
    rw [hrun] at hrest
    have hcode : code c = 48 := by
      have := h.code_headD
      rwa [← hrest] at this
    have hdigit : digit c = 0 := by
      rw [digit, hcode]
      rfl
    rw [List.map_singleton, hdigit]
    exact Numeral.numeral_zero_cons _ []
  · rw [hrun, List.length_cons, List.length_cons] at hlength
    omega

theorem maxScan_eq (str : List Byte) (base : ℕ) :
    maxScan str base =
      let marker := readMaxBase base (str.drop (numberAt str))
      (negative str,
        if marker.1 ≤ 36 then
          maxLoop marker.1 (str.drop (numberAt str + marker.2)) (numberAt str + marker.2) 0
        else some (numberAt str + marker.2, 0)) := rfl

theorem maxScan_of_loose (h : Loose base (str.drop (numberAt str))) :
    maxScan str base = (negative str, some (numberAt str + 2, 0)) := by
  obtain ⟨b, hb, hread, hdigit⟩ := h.readMaxBase_eq
  have hloop (text : List Byte) (ptr : ℕ) (hhead : ¬ DigitOf b (text.headD nul)) :
      maxLoop b text ptr 0 = some (ptr, 0) := by
    cases text with
    | nil => rfl
    | cons c rest =>
      rw [← validChar_iff hb, ← maxValid_eq hb] at hhead
      exact if_neg hhead
  rw [maxScan_eq, hread]
  dsimp only
  rw [if_pos hb, hloop]
  rw [← List.drop_drop, headD_drop_two]
  exact hdigit

theorem maxScan_of_not_loose (h : ¬ Loose base (str.drop (numberAt str))) :
    maxScan str base = (negative str,
      if magnitude base str < 2 ^ 64 then
        some (digitsAt base str + (digitRun base str).length, BitVec.ofNat 64 (magnitude base str))
      else none) := by
  obtain ⟨st, hscan, hptr, htracks⟩ : ∃ st : Digits 64,
      maxScan str base =
        (negative str, if st.overflow then none else some (st.ptr, st.value)) ∧
      st.ptr = digitsAt base str + (digitRun base str).length ∧
      Numeral.Tracks (2 ^ 64 - 1) (magnitude base str) st.value st.overflow := by
    obtain ⟨hptr, htracks⟩ := scanned_spec unsignedLongLong base str
    refine ⟨scanned unsignedLongLong base str, ?_, hptr, htracks⟩
    rw [maxScan_eq, readMaxBase_eq h]
    change (negative str, if effectiveBase base str ≤ 36 then
      maxLoop (effectiveBase base str) (str.drop (digitsAt base str)) (digitsAt base str) 0
      else some (digitsAt base str, 0)) = _
    rw [scanned]
    by_cases hbase : effectiveBase base str ≤ 36
    · rw [if_pos hbase, if_pos hbase]
      exact congrArg (Prod.mk _) (maxLoop_eq hbase _ _ _)
    · rw [if_neg hbase, if_neg hbase]
      rfl
  rw [hscan, hptr]
  have hflag := htracks.flag
  cases hover : st.overflow with
  | true =>
    rw [hover] at hflag
    have hlt := hflag.mp rfl
    rw [if_pos rfl, if_neg (by omega)]
  | false =>
    have hvalue : st.value = BitVec.ofNat 64 (magnitude base str) := by
      rw [← htracks.value hover, ofNat_toNat, setWidth_eq]
    rw [hover] at hflag
    have hle := mt hflag.mpr Bool.false_ne_true
    rw [if_neg Bool.false_ne_true, if_pos (by omega), hvalue]

/-! ### Agreement -/

theorem strtoll_eq (str : List Byte) (endPtr : Bool) (base : ℕ) :
    strtoll str endPtr base =
      { value := max (-2 ^ 63) (min (2 ^ 63 - 1) (number base str))
        stored := storedEnd base str endPtr
        erange := decide (¬ (-2 ^ 63 ≤ number base str ∧ number base str ≤ 2 ^ 63 - 1)) } :=
  strToInt_of_signed rfl str endPtr base

theorem toNat_ofInt_number (str : List Byte) (base : ℕ) :
    ((BitVec.ofInt 64 (number base str)).toNat : ℤ) = number base str % 2 ^ 64 := by
  rw [toNat_ofInt]
  omega

theorem strtoull_eq (str : List Byte) (endPtr : Bool) (base : ℕ) :
    strtoull str endPtr base =
      { value :=
          if magnitude base str < 2 ^ 64 then number base str % 2 ^ 64
          else if negative str then 0 else 2 ^ 64 - 1
        stored := storedEnd base str endPtr
        erange := decide (2 ^ 64 ≤ magnitude base str) } := by
  rw [strtoull, strToInt_of_unsigned rfl]
  rfl

variable (endPtr : Bool)

theorem storedEnd_eq_none {endPtr : Bool} : storedEnd base str endPtr = none ↔ endPtr = false := by
  cases endPtr <;> simp [storedEnd]

/-- A loose marker is read differently, but its value is zero all the same. -/
theorem Loose.agree_iff (h : Loose base (str.drop (numberAt str))) :
    (strtoimax str endPtr base = strtoll str endPtr base ↔ endPtr = false) ∧
      (strtoumax str endPtr base = strtoull str endPtr base ↔ endPtr = false) := by
  have hzero : number base str = 0 := by
    have := number_cases base str
    have := h.magnitude_eq
    omega
  have hspaces : (str.takeWhile isspace).length ≤ numberAt str := Nat.le_add_right _ _
  have hdiffer : maxEnd str endPtr (numberAt str + 2) = storedEnd base str endPtr ↔
      endPtr = false := by
    cases endPtr with
    | false => exact ⟨fun _ => rfl, fun _ => rfl⟩
    | true =>
      have hmax : maxEnd str true (numberAt str + 2) = some (numberAt str + 2) := by
        apply congrArg some
        apply if_pos
        change (str.takeWhile isspace).length ≠ numberAt str + 2
        omega
      have hend : storedEnd base str true = some (numberAt str + 1) := by
        rw [storedEnd_eq h.base_le, h.scanLength_eq_one]
        apply congrArg some
        apply if_pos
        omega
      rw [hmax, hend, Option.some.injEq]
      exact ⟨fun heq => absurd heq (by omega), fun heq => absurd heq (by decide)⟩
  rw [strtoll_eq, strtoull_eq, strtoimax, strtoumax, maxScan_of_loose h, hzero, h.magnitude_eq]
  have hword (sign : Bool) : (if sign then -(0 : BitVec 64) else 0) = 0 := by cases sign <;> rfl
  constructor
  · change (Outcome.mk (if negative str then -(0 : BitVec 64) else 0).toInt _ false = _) ↔ _
    rw [hword, Outcome.mk.injEq, hdiffer]
    exact ⟨fun h => h.2.1, fun h => ⟨rfl, h, rfl⟩⟩
  · change (Outcome.mk (if negative str then -(0 : BitVec 64) else 0).toNat _ false = _) ↔ _
    rw [hword, Outcome.mk.injEq, hdiffer]
    exact ⟨fun h => h.2.1, fun h => ⟨rfl, h, rfl⟩⟩

section

variable (h : ¬ Loose base (str.drop (numberAt str)))
include h

/-- Without a loose marker, the difference is in what happens to numbers that
are too large. -/
theorem strtoimax_of_not_loose :
    strtoimax str endPtr base =
      if magnitude base str < 2 ^ 63 then ⟨number base str, storedEnd base str endPtr, false⟩
      else if magnitude base str < 2 ^ 64 then ⟨2 ^ 63 - 1, none, true⟩
      else ⟨-1, none, true⟩ := by
  rw [strtoimax, maxScan_of_not_loose h]
  by_cases hfits : magnitude base str < 2 ^ 64
  · have hvalue : (BitVec.ofNat 64 (magnitude base str)).toNat = magnitude base str := by
      rw [toNat_ofNat, Nat.mod_eq_of_lt hfits]
    have hlarge : BitVec.ofNat 64 (magnitude base str) > intmaxMax ↔
        ¬ magnitude base str < 2 ^ 63 := by
      change 2 ^ 63 - 1 < _ ↔ _
      omega
    simp only [if_pos hfits, hlarge]
    by_cases hsmall : magnitude base str < 2 ^ 63
    · have hnumber : -2 ^ 63 < number base str ∧ number base str < 2 ^ 63 := by
        unfold number
        split <;> omega
      rw [if_neg (not_not_intro hsmall), if_pos hsmall, ← ofInt_number, toInt_ofInt,
        Int.bmod_eq_of_le (by omega) (by omega)]
      rfl
    · rw [if_pos hsmall, if_neg hsmall]
      rfl
  · simp only [if_neg hfits, if_neg (show ¬ magnitude base str < 2 ^ 63 by omega)]
    rfl

theorem strtoumax_of_not_loose :
    strtoumax str endPtr base =
      if magnitude base str < 2 ^ 64 then
        ⟨number base str % 2 ^ 64, storedEnd base str endPtr, false⟩
      else ⟨2 ^ 64 - 1, none, true⟩ := by
  rw [strtoumax, maxScan_of_not_loose h]
  by_cases hfits : magnitude base str < 2 ^ 64
  · simp only [if_pos hfits, ← ofInt_number, toNat_ofInt_number]
    rfl
  · simp only [if_neg hfits]
    rfl

theorem strtoimax_eq_strtoll_iff :
    strtoimax str endPtr base = strtoll str endPtr base ↔
      magnitude base str < 2 ^ 63 ∨
        endPtr = false ∧ negative str = false ∧ magnitude base str < 2 ^ 64 := by
  have hnumber := number_cases base str
  rw [strtoll_eq, strtoimax_of_not_loose endPtr h]
  split_ifs with hsmall hfits
  · rw [Outcome.mk.injEq]
    refine ⟨fun _ => Or.inl hsmall, fun _ => ⟨by omega, rfl, ?_⟩⟩
    exact (decide_eq_false (by omega)).symm
  · rw [Outcome.mk.injEq, eq_comm (a := none), storedEnd_eq_none, eq_comm (a := true),
      decide_eq_true_eq]
    constructor
    · rintro ⟨hvalue, hnull, -⟩
      exact Or.inr ⟨hnull, (hnumber.resolve_left fun h => by omega).2, hfits⟩
    · rintro (hlt | ⟨hnull, hneg, -⟩)
      · omega
      · rw [hneg] at hnumber
        simp at hnumber
        exact ⟨by omega, hnull, by omega⟩
  · rw [Outcome.mk.injEq]
    constructor
    · omega
    · omega

theorem strtoumax_eq_strtoull_iff :
    strtoumax str endPtr base = strtoull str endPtr base ↔
      magnitude base str < 2 ^ 64 ∨ endPtr = false ∧ negative str = false := by
  rw [strtoull_eq, strtoumax_of_not_loose endPtr h]
  split_ifs with hfits hneg
  · rw [Outcome.mk.injEq]
    refine ⟨fun _ => Or.inl hfits, fun _ => ⟨rfl, rfl, ?_⟩⟩
    exact (decide_eq_false (by omega)).symm
  · rw [Outcome.mk.injEq, hneg]
    constructor
    · omega
    · rintro (hlt | ⟨-, hfalse⟩)
      · exact absurd hlt hfits
      · exact absurd hfalse Bool.false_ne_true.symm
  · rw [Outcome.mk.injEq, eq_comm (a := none), storedEnd_eq_none]
    constructor
    · rintro ⟨-, hnull, -⟩
      exact Or.inr ⟨hnull, by simpa using hneg⟩
    · rintro (hlt | ⟨hnull, -⟩)
      · exact absurd hlt hfits
      · exact ⟨rfl, hnull, (decide_eq_true (by omega)).symm⟩

end

/-- For which strings the functions agree with those made from `str_to_int`. -/
theorem strtoimax_strtoumax_iff (str : List Byte) (endPtr : Bool) (base : ℕ) :
    (strtoimax str endPtr base = strtoll str endPtr base ↔
      (endPtr = true → ¬ Loose base (str.drop (numberAt str))) ∧
        (magnitude base str < 2 ^ 63 ∨
          endPtr = false ∧ negative str = false ∧ magnitude base str < 2 ^ 64)) ∧
    (strtoumax str endPtr base = strtoull str endPtr base ↔
      (endPtr = true → ¬ Loose base (str.drop (numberAt str))) ∧
        (magnitude base str < 2 ^ 64 ∨ endPtr = false ∧ negative str = false)) := by
  by_cases hloose : Loose base (str.drop (numberAt str))
  · obtain ⟨himax, humax⟩ := hloose.agree_iff endPtr
    have hzero := hloose.magnitude_eq
    rw [himax, humax]
    simp [hloose, hzero]
  · rw [strtoimax_eq_strtoll_iff endPtr hloose, strtoumax_eq_strtoull_iff endPtr hloose]
    simp [hloose]

def leastIntmax : List Byte :=
  ['-', '9', '2', '2', '3', '3', '7', '2', '0', '3', '6', '8', '5', '4', '7', '7', '5', '8', '0',
    '8']

/-- It is read as the largest one, with `ERANGE`. -/
theorem strtoimax_leastIntmax_ne : strtoimax leastIntmax true 10 ≠ strtoll leastIntmax true 10 := by
  decide +kernel

end Hzlibc.Stdlib
