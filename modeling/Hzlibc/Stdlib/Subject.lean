import Hzlibc.Stdlib.StrToInt
import Mathlib.Data.List.TakeWhile

/-!
The end pointer of `str_to_int` against the grammar of the C standard.

The standard takes the longest initial part of the string that has the form of
a number: spaces, a sign, the marker of the base if a digit of that base
follows it, and at least one digit. The end pointer is set behind it, and to the
start of the string if there is none.
-/

namespace Hzlibc.Stdlib

open CharType List Nat Option

variable {C : Type} [CharType C]

/-! ### The grammar -/

/-- The character is a digit below `base`. -/
def DigitOf (base : ℕ) (c : C) : Prop :=
  (48 ≤ code c ∧ code c < 48 + (base ⊓ 10 : ℕ)) ∨
    (97 ≤ code c ∧ code c < 97 + (base - 10 : ℕ)) ∨
    (65 ≤ code c ∧ code c < 65 + (base - 10 : ℕ))

instance decidableDigitOf (base : ℕ) (c : C) : Decidable (DigitOf base c) :=
  inferInstanceAs (Decidable (_ ∨ _ ∨ _))

/-- One or more digits. -/
def IsRow (base : ℕ) (text : List C) : Prop := text ≠ [] ∧ ∀ c ∈ text, DigitOf base c

/-- A zero, and the letter as a small or as a capital one. -/
def IsMarker (letter : ℤ) (text : List C) : Prop :=
  ∃ z x : C, text = [z, x] ∧ code z = 48 ∧ (code x = letter ∨ code x = letter - 32)

/-- A number without its sign, in the base that is asked for; with base 0 the
number itself tells. -/
inductive IsNumber : ℕ → List C → Prop
  | plain {base : ℕ} {row : List C} : base ≠ 0 → IsRow base row → IsNumber base row
  | hex {base : ℕ} {marker row : List C} : base = 0 ∨ base = 16 → IsMarker 120 marker →
      IsRow 16 row → IsNumber base (marker ++ row)
  | binary {base : ℕ} {marker row : List C} : base = 0 ∨ base = 2 → IsMarker 98 marker →
      IsRow 2 row → IsNumber base (marker ++ row)
  | octal {row : List C} : (∃ z ∈ row.head?, code z = 48) → IsRow 8 row → IsNumber 0 row
  | decimal {row : List C} : (∀ z ∈ row.head?, code z ≠ 48) → IsRow 10 row → IsNumber 0 row

def IsSign (text : List C) : Prop := text = [] ∨ ∃ c : C, text = [c] ∧ (code c = 43 ∨ code c = 45)

/-- A subject sequence with the spaces in front of it. -/
def IsSubject (base : ℕ) (text : List C) : Prop :=
  ∃ spaces sign number : List C, text = spaces ++ sign ++ number ∧
    (∀ c ∈ spaces, isspace c = true) ∧ IsSign sign ∧ IsNumber base number

/-- The offsets behind the initial parts that are subject sequences. -/
def subjectEnds (base : ℕ) (str : List C) : Set ℕ :=
  {n | n ≤ str.length ∧ IsSubject base (str.take n)}

/-- The offset the end pointer has to have. -/
def IsEnd (base : ℕ) (str : List C) (n : ℕ) : Prop :=
  IsGreatest (subjectEnds base str) n ∨ (subjectEnds base str = ∅ ∧ n = 0)

/-! ### Digits and rows -/

variable {c : C} {base m b : ℕ} {letter : ℤ}

theorem validChar_iff (hbase : base ≤ 36) : validChar c base = true ↔ DigitOf base c := by
  unfold validChar DigitOf
  split
  · simp
    omega
  · have hletter : (97 ≤ code (tolower c) ∧ code (tolower c) ≤ 97 + ((base : ℤ) - 10 - 1)) ↔
        (97 ≤ code c ∧ code c ≤ 97 + ((base : ℤ) - 10 - 1)) ∨
          (65 ≤ code c ∧ code c ≤ 65 + ((base : ℤ) - 10 - 1)) := by
      constructor
      · rintro ⟨hlo, hhi⟩
        have := (tolower_letter c _ hlo (by omega)).mp rfl
        omega
      · rintro (⟨hlo, hhi⟩ | ⟨hlo, hhi⟩)
        · rw [(tolower_letter c _ hlo (by omega)).mpr (Or.inl rfl)]
          omega
        · rw [(tolower_letter c (code c + 32) (by omega) (by omega)).mpr (Or.inr (by omega))]
          omega
    simp [hletter]
    omega

theorem digitOf_zero (hbase : base ≠ 0) (hc : code c = 48) : DigitOf base c := by
  left
  omega

/-- The digits at the start of a text. -/
def rowLength (base : ℕ) (text : List C) : ℕ := (text.takeWhile (validChar · base)).length

variable {text : List C}

theorem rowLength_le (base : ℕ) (text : List C) : rowLength base text ≤ text.length :=
  (List.takeWhile_prefix _).length_le

section

variable (hbase : base ≤ 36)
include hbase

theorem rowLength_pos :
    0 < rowLength base text ↔ DigitOf base (text.headD nul) := by
  cases text with
  | nil =>
    have hnul : ¬ DigitOf base (nul : C) := by
      unfold DigitOf
      rw [code_nul]
      omega
    exact ⟨fun h => absurd h (lt_irrefl 0), fun h => absurd h hnul⟩
  | cons c rest =>
    rw [← validChar_iff hbase, rowLength, takeWhile_cons]
    split
    · rename_i hc
      exact ⟨fun _ => hc, fun _ => succ_pos _⟩
    · rename_i hc
      exact ⟨fun h => absurd h (lt_irrefl 0), fun h => absurd h hc⟩

theorem rowLength_cons (hc : DigitOf base c) (rest : List C) :
    rowLength base (c :: rest) = rowLength base rest + 1 := by
  have hvalid := (validChar_iff hbase).mpr hc
  rw [rowLength, takeWhile_cons, if_pos hvalid]
  rfl

theorem rowLength_drop_one (hpos : 0 < rowLength base text) :
    rowLength base text = 1 + rowLength base (text.drop 1) := by
  cases text with
  | nil => exact absurd hpos (lt_irrefl 0)
  | cons c rest =>
    have hc : DigitOf base c := (rowLength_pos hbase).mp hpos
    rw [rowLength_cons hbase hc, add_comm]
    rfl

theorem le_rowLength (hm : m ≤ text.length)
    (hrow : ∀ c ∈ text.take m, DigitOf base c) : m ≤ rowLength base text := by
  induction text generalizing m with
  | nil => exact hm
  | cons c rest ih =>
    cases m with
    | zero => exact zero_le _
    | succ m =>
      rw [take_succ_cons, forall_mem_cons] at hrow
      rw [rowLength_cons hbase hrow.1]
      exact succ_le_succ (ih (le_of_succ_le_succ hm) hrow.2)

theorem isRow_take (hpos : 0 < rowLength base text) :
    IsRow base (text.take (rowLength base text)) := by
  have htake : text.take (rowLength base text) = text.takeWhile (validChar · base) :=
    (prefix_iff_eq_take.mp (List.takeWhile_prefix _)).symm
  rw [htake]
  constructor
  · exact length_pos_iff.mp hpos
  · intro c hc
    have hvalid : validChar c base = true := mem_takeWhile_imp (p := fun c => validChar c base) hc
    exact (validChar_iff hbase).mp hvalid

/-! ### The longest number -/

end

theorem marked_iff (hlo : 97 ≤ letter) (hhi : letter ≤ 122) :
    marked letter text = true ↔ ∃ marker rest, text = marker ++ rest ∧ IsMarker letter marker := by
  unfold marked
  rw [Bool.and_eq_true, decide_eq_true_eq, decide_eq_true_eq, tolower_letter _ _ hlo hhi]
  constructor
  · rintro ⟨hzero, hletter⟩
    match text with
    | [] => exact absurd (hzero.symm.trans code_nul) (by decide)
    | [_] =>
      have hnul : code (nul : C) = letter ∨ code (nul : C) = letter - 32 := hletter
      rw [code_nul] at hnul
      omega
    | z :: x :: rest => exact ⟨[z, x], rest, rfl, z, x, rfl, hzero, hletter⟩
  · rintro ⟨_, rest, rfl, z, x, rfl, hzero, hletter⟩
    exact ⟨hzero, hletter⟩

/-- The base of a number without a marker. -/
def plainBase (base : ℕ) (text : List C) : ℕ :=
  if base = 0 then if code (text.headD nul) = 48 then 8 else 10 else base

/-- The base of the number at the start of a text, and the length of its
marker: a marker only counts in front of a digit. -/
def marking (base : ℕ) (text : List C) : ℕ × ℕ :=
  if (base = 0 ∨ base = 16) ∧ marked 120 text = true ∧ DigitOf 16 (text.getD 2 nul) then (16, 2)
  else if (base = 0 ∨ base = 2) ∧ marked 98 text = true ∧ DigitOf 2 (text.getD 2 nul) then (2, 2)
  else (plainBase base text, 0)

/-- The length of the longest number at the start of a text, or 0. -/
def numberLength (base : ℕ) (text : List C) : ℕ :=
  (marking base text).2 + rowLength (marking base text).1 (text.drop (marking base text).2)

/-- The second character of a marker is no digit of its base, nor of base 8. -/
theorem length_le_of_marked (hletter : (letter = 120 ∧ b ≤ 16) ∨ (letter = 98 ∧ b ≤ 10))
    (hmarked : marked letter text = true) (hrow : ∀ c ∈ text.take m, DigitOf b c) : m ≤ 1 := by
  obtain ⟨_, rest, rfl, z, x, rfl, hz, hx⟩ := (marked_iff (by omega) (by omega)).mp hmarked
  by_contra hlong
  have hmem : x ∈ ([z, x] ++ rest).take m := by
    obtain ⟨k, rfl⟩ : ∃ k, m = k + 2 := ⟨m - 2, by omega⟩
    exact mem_cons_of_mem _ mem_cons_self
  have hdigit := hrow x hmem
  unfold DigitOf at hdigit
  omega

theorem not_marked_of_marked (h : marked 98 text = true) : ¬ marked 120 text = true := by
  intro h'
  obtain ⟨_, rest, rfl, z, x, rfl, hz, hx⟩ := (marked_iff (by decide) (by decide)).mp h
  obtain ⟨_, rest', heq, z', x', rfl, hz', hx'⟩ := (marked_iff (by decide) (by decide)).mp h'
  obtain ⟨rfl, rfl, -⟩ : z = z' ∧ x = x' ∧ rest = rest' := by simpa using heq
  omega

theorem plainBase_le (hbase : base ≤ 36) (text : List C) : plainBase base text ≤ 36 := by
  unfold plainBase
  split_ifs <;> omega

/-- A row of digits without a marker; where the text has a marker, it is a
single zero. -/
theorem le_numberLength_of_row (hbase : base ≤ 36) (hm : m ≤ text.length)
    (hrow : ∀ c ∈ text.take m, DigitOf (plainBase base text) c) : m ≤ numberLength base text := by
  unfold numberLength marking
  split_ifs with hhex hbinary
  · have hb : plainBase base text ≤ 16 := by
      unfold plainBase
      split_ifs <;> omega
    have := length_le_of_marked (Or.inl ⟨rfl, hb⟩) hhex.2.1 hrow
    omega
  · have hb : plainBase base text ≤ 10 := by
      unfold plainBase
      split_ifs <;> omega
    have := length_le_of_marked (Or.inr ⟨rfl, hb⟩) hbinary.2.1 hrow
    omega
  · rw [zero_add]
    exact le_rowLength (plainBase_le hbase text) hm hrow

theorem le_of_marker (hb : b ≤ 36) {marker row : List C} (hm : m ≤ text.length)
    (htake : text.take m = marker ++ row) (hmarker : IsMarker letter marker) (hrow : IsRow b row) :
    (∃ rest, text = marker ++ rest) ∧ DigitOf b (text.getD 2 nul) ∧
      m ≤ 2 + rowLength b (text.drop 2) := by
  obtain ⟨z, x, rfl, -, -⟩ := hmarker
  obtain ⟨hne, hdigits⟩ := hrow
  have htext : text = [z, x] ++ (row ++ text.drop m) := by
    rw [← append_assoc, ← htake, take_append_drop]
  have hlength : m = 2 + row.length := by
    have := congrArg List.length htake
    rw [length_take_of_le hm, length_append] at this
    exact this
  refine ⟨⟨_, htext⟩, ?_, ?_⟩
  · obtain ⟨d, row, rfl⟩ := exists_cons_of_ne_nil hne
    rw [htext]
    exact hdigits d mem_cons_self
  · rw [hlength]
    apply Nat.add_le_add_left
    rw [htext]
    apply le_rowLength hb
    · simp
    · intro c hc
      apply hdigits
      simpa using hc

/-- No number at the start of the text is longer. -/
theorem IsNumber.le_numberLength (hbase : base ≤ 36) (hm : m ≤ text.length)
    (h : IsNumber base (text.take m)) : m ≤ numberLength base text := by
  -- the first character of a nonempty initial part is the first of the text
  have hhead (hne : text.take m ≠ []) (z : C) (hz : z ∈ (text.take m).head?) :
      text.headD nul = z := by
    cases text with
    | nil => exact absurd take_nil hne
    | cons c rest =>
      cases m with
      | zero => exact absurd rfl hne
      | succ m => simpa using hz
  generalize htake : text.take m = number at h hhead
  cases h with
  | plain hzero hrow =>
    apply le_numberLength_of_row hbase hm
    rw [htake, plainBase, if_neg hzero]
    exact hrow.2
  | hex hb hmarker hrow | binary hb hmarker hrow =>
    obtain ⟨⟨rest, htext⟩, hdigit, hle⟩ := le_of_marker (by decide) hm htake hmarker hrow
    have hmarked := (marked_iff (by decide) (by decide)).mpr ⟨_, rest, htext, hmarker⟩
    have hother : marked 98 text = true → ¬ marked 120 text = true := not_marked_of_marked
    simpa [numberLength, marking, hb, hmarked, hdigit, hother, -getD_eq_getElem?_getD] using hle
  | octal hz hrow =>
    apply le_numberLength_of_row hbase hm
    obtain ⟨z, hmem, hz⟩ := hz
    rw [htake, plainBase, hhead hrow.1 z hmem, if_pos hz]
    exact hrow.2
  | decimal hz hrow =>
    apply le_numberLength_of_row hbase hm
    obtain ⟨z, hmem⟩ := ne_none_iff_exists'.mp (mt List.head?_eq_none_iff.mp hrow.1)
    rw [htake, plainBase, hhead hrow.1 z hmem, if_neg (hz z hmem)]
    exact hrow.2

theorem headD_drop_two (text : List C) : (text.drop 2).headD nul = text.getD 2 nul := by
  match text with
  | [] | [_] | [_, _] | _ :: _ :: _ :: _ => rfl

theorem take_marker (hlo : 97 ≤ letter) (hhi : letter ≤ 122) (hb : b ≤ 36)
    (hmarked : marked letter text = true) (hdigit : DigitOf b (text.getD 2 nul)) :
    ∃ marker row, text.take (2 + rowLength b (text.drop 2)) = marker ++ row ∧
      IsMarker letter marker ∧ IsRow b row := by
  have hpos : 0 < rowLength b (text.drop 2) := by
    rw [rowLength_pos hb, headD_drop_two]
    exact hdigit
  obtain ⟨marker, rest, rfl, hmarker⟩ := (marked_iff hlo hhi).mp hmarked
  have hrow := isRow_take hb hpos
  obtain ⟨z, x, rfl, hz⟩ := hmarker
  refine ⟨[z, x], _, ?_, ⟨z, x, rfl, hz⟩, hrow⟩
  rw [add_comm]
  rfl

/-- The longest number is one. -/
theorem isNumber_take (hbase : base ≤ 36) (hpos : 0 < numberLength base text) :
    IsNumber base (text.take (numberLength base text)) := by
  unfold numberLength marking at hpos ⊢
  split_ifs at hpos ⊢ with hhex hbinary
  · obtain ⟨marker, row, htake, hmarker, hrow⟩ :=
      take_marker (by decide) (by decide) (by decide) hhex.2.1 hhex.2.2
    rw [htake]
    exact .hex hhex.1 hmarker hrow
  · obtain ⟨marker, row, htake, hmarker, hrow⟩ :=
      take_marker (by decide) (by decide) (by decide) hbinary.2.1 hbinary.2.2
    rw [htake]
    exact .binary hbinary.1 hmarker hrow
  · rw [zero_add, drop_zero] at hpos ⊢
    have hrow := isRow_take (plainBase_le hbase text) hpos
    have hhead : (text.take (rowLength (plainBase base text) text)).head? =
        some (text.headD nul) := by
      cases text with
      | nil => exact absurd hpos (lt_irrefl 0)
      | cons c rest =>
        rw [List.head?_take, if_neg (ne_of_gt hpos)]
        rfl
    by_cases hzero : base = 0
    · subst hzero
      by_cases hz : code (text.headD nul) = 48
      · have hb : plainBase 0 text = 8 := by rw [plainBase, if_pos rfl, if_pos hz]
        rw [hb] at hrow hhead ⊢
        exact .octal ⟨_, hhead, hz⟩ hrow
      · have hb : plainBase 0 text = 10 := by rw [plainBase, if_pos rfl, if_neg hz]
        rw [hb] at hrow hhead ⊢
        refine .decimal (fun z hmem => ?_) hrow
        rw [hhead, mem_some_iff] at hmem
        rwa [← hmem]
    · have hb : plainBase base text = base := if_neg hzero
      rw [hb] at hrow ⊢
      exact .plain hzero hrow

theorem code_headD_of_marked (h : marked letter text = true) : code (text.headD nul) = 48 := by
  rw [marked, Bool.and_eq_true, decide_eq_true_eq] at h
  cases text with
  | nil | cons c rest => exact h.1

/-- A number can start with the digits of this base. -/
def firstBase (base : ℕ) : ℕ := if base = 0 then 10 else base

theorem numberLength_pos (hbase : base ≤ 36) :
    0 < numberLength base text ↔ DigitOf (firstBase base) (text.headD nul) := by
  have hb : firstBase base ≠ 0 := by
    unfold firstBase
    split_ifs <;> omega
  unfold numberLength marking
  split_ifs with hhex hbinary
  · exact ⟨fun _ => digitOf_zero hb (code_headD_of_marked hhex.2.1), fun _ => by omega⟩
  · exact ⟨fun _ => digitOf_zero hb (code_headD_of_marked hbinary.2.1), fun _ => by omega⟩
  · rw [zero_add, rowLength_pos (plainBase_le hbase text), plainBase, firstBase]
    split_ifs with hzero hz
    · exact ⟨fun _ => digitOf_zero (by decide) hz, fun _ => digitOf_zero (by decide) hz⟩
    · exact Iff.rfl
    · exact Iff.rfl

/-! ### The scan of the code -/

/-- How far the code gets behind the sign. -/
def scanLength (base : ℕ) (text : List C) : ℕ :=
  (readBase base text).2 + rowLength (readBase base text).1 (text.drop (readBase base text).2)

/-- In base 2 or 16, the marker of the base stands in front of a character
that is no digit. -/
def Dangling (base : ℕ) (text : List C) : Prop :=
  ((base = 16 ∧ marked 120 text = true) ∨ (base = 2 ∧ marked 98 text = true)) ∧
    code (text.getD 2 nul) ≠ 0 ∧ ¬ DigitOf base (text.getD 2 nul)

theorem DigitOf.code_ne_zero (hc : DigitOf base c) : code c ≠ 0 := by
  unfold DigitOf at hc
  omega

theorem rowLength_zero_first (hzero : base ≠ 0) (hbase : base ≤ 36)
    (hz : code (text.headD nul) = 48) : 1 + rowLength base (text.drop 1) = rowLength base text := by
  apply (rowLength_drop_one hbase _).symm
  rw [rowLength_pos hbase]
  exact digitOf_zero hzero hz

/-- In base 2 and 16 the code asks for a character behind the marker, not for
a digit. -/
theorem scanLength_marked (hread : readBase base text =
      if marked letter text && code (text.getD 2 nul) ≠ 0 then (base, 2) else (base, 0))
    (hmarking : marking base text =
      if marked letter text = true ∧ DigitOf base (text.getD 2 nul) then (base, 2) else (base, 0))
    (hdangling : ¬ (marked letter text = true ∧ code (text.getD 2 nul) ≠ 0 ∧
      ¬ DigitOf base (text.getD 2 nul))) : scanLength base text = numberLength base text := by
  have hsame : readBase base text = marking base text := by
    rw [hread, hmarking]
    generalize text.getD 2 nul = third at hdangling ⊢
    by_cases hmarked : marked letter text = true
    · by_cases hdigit : DigitOf base third
      · simp [hmarked, hdigit, hdigit.code_ne_zero]
      · have hzero : code third = 0 := by
          by_contra hne
          exact hdangling ⟨hmarked, hne, hdigit⟩
        simp [hmarked, hdigit, hzero]
    · simp [hmarked]
  rw [scanLength, numberLength, hsame]

/-- In base 0 the code takes a zero without a marker for the marker of base 8. -/
@[simp] theorem scanLength_zero (text : List C) : scanLength 0 text = numberLength 0 text := by
  have hhead : text.getD 0 nul = text.headD nul := by cases text <;> rfl
  unfold scanLength numberLength readBase marking
  simp only [if_true, Bool.and_eq_true, validChar_iff (by decide : 16 ≤ 36),
    validChar_iff (by decide : 2 ≤ 36), true_or, true_and, hhead]
  split_ifs with hhex hbinary hz
  · rfl
  · rfl
  · have hb : plainBase 0 text = 8 := by rw [plainBase, if_pos rfl, if_pos hz]
    rw [hb, zero_add]
    exact rowLength_zero_first (by decide) (by decide) hz
  · have hb : plainBase 0 text = 10 := by rw [plainBase, if_pos rfl, if_neg hz]
    rw [hb]

theorem scanLength_eq (hdangling : ¬ Dangling base text) :
    scanLength base text = numberLength base text := by
  by_cases h0 : base = 0
  · rw [h0]
    exact scanLength_zero text
  have hplain : plainBase base text = base := if_neg h0
  by_cases h2 : base = 2
  · subst h2
    apply scanLength_marked rfl
    · simp [marking, hplain]
    · intro h
      exact hdangling ⟨Or.inr ⟨rfl, h.1⟩, h.2⟩
  by_cases h16 : base = 16
  · subst h16
    apply scanLength_marked rfl
    · simp [marking, hplain]
    · intro h
      exact hdangling ⟨Or.inl ⟨rfl, h.1⟩, h.2⟩
  have hmarking : marking base text = (base, 0) := by
    simp [marking, h0, h2, h16, hplain]
  rw [scanLength, numberLength, hmarking, readBase, if_neg h0, if_neg h2]
  by_cases h8 : base = 8
  · subst h8
    rw [if_pos rfl]
    split
    · rename_i hz
      rw [rowLength_zero_first (by decide) (by decide) hz, zero_add]
      rfl
    · rfl
  · rw [if_neg h8, if_neg h16]

theorem scanLength_of_dangling (h : Dangling base text) :
    scanLength base text = 2 ∧ numberLength base text = 1 := by
  obtain ⟨hmarked, hthird, hdigit⟩ := h
  obtain ⟨letter, hletter, hbase, hmarked, hread, hmarking⟩ : ∃ letter : ℤ,
      ((letter = 120 ∧ base ≤ 16) ∨ (letter = 98 ∧ base ≤ 10)) ∧ (base ≠ 0 ∧ base ≤ 36) ∧
        marked letter text = true ∧ readBase base text = (base, 2) ∧
        marking base text = (base, 0) := by
    have hskip {letter : ℤ} (hm : marked letter text = true) :
        (marked letter text && code (text.getD 2 nul) ≠ 0) = true := by
      rw [hm, decide_eq_true hthird]
      rfl
    rcases hmarked with ⟨rfl, hm⟩ | ⟨rfl, hm⟩
    · refine ⟨120, by omega, by omega, hm, if_pos (hskip hm), ?_⟩
      rw [marking, if_neg fun h => hdigit h.2.2]
      rfl
    · refine ⟨98, by omega, by omega, hm, if_pos (hskip hm), ?_⟩
      rw [marking, if_neg fun h => by omega, if_neg fun h => hdigit h.2.2]
      rfl
  constructor
  · have hnone : ¬ 0 < rowLength base (text.drop 2) := by
      rw [rowLength_pos hbase.2, headD_drop_two]
      exact hdigit
    rw [scanLength, hread]
    change 2 + rowLength base (text.drop 2) = 2
    omega
  · have hpos : 0 < rowLength base text :=
      (rowLength_pos hbase.2).mpr (digitOf_zero hbase.1 (code_headD_of_marked hmarked))
    have hle := length_le_of_marked hletter hmarked (isRow_take hbase.2 hpos).2
    rw [numberLength, hmarking]
    change 0 + rowLength base text = 1
    omega

/-! ### Spaces and sign -/

theorem IsNumber.code_headD {number : List C} (h : IsNumber base number) (rest : List C) :
    48 ≤ code ((number ++ rest).headD nul) := by
  have hrow {b : ℕ} {row : List C} (h : IsRow b row) : 48 ≤ code ((row ++ rest).headD nul) := by
    obtain ⟨c, row, rfl⟩ := exists_cons_of_ne_nil h.1
    have hc := h.2 c mem_cons_self
    unfold DigitOf at hc
    change 48 ≤ code c
    omega
  have hmark {letter : ℤ} {marker row : List C} (h : IsMarker letter marker) :
      48 ≤ code ((marker ++ row ++ rest).headD nul) := by
    obtain ⟨z, x, rfl, hz, -⟩ := h
    exact hz.ge
  cases h with
  | plain _ h | octal _ h | decimal _ h => exact hrow h
  | hex _ hmarker _ | binary _ hmarker _ => exact hmark hmarker

theorem isSign_take (text : List C) : IsSign (text.take (readSign text).2) := by
  unfold readSign
  cases text with
  | nil => exact Or.inl take_nil
  | cons c rest =>
    split_ifs with hminus hplus
    · exact Or.inr ⟨c, rfl, Or.inr hminus⟩
    · exact Or.inr ⟨c, rfl, Or.inl hplus⟩
    · exact Or.inl rfl

theorem readSign_length {sign rest : List C} (hsign : IsSign sign)
    (hrest : 48 ≤ code (rest.headD nul)) : (readSign (sign ++ rest)).2 = sign.length := by
  unfold readSign
  rcases hsign with rfl | ⟨c, rfl, hc⟩
  · rw [nil_append, if_neg (by omega), if_neg (by omega)]
    rfl
  · change (if code c = 45 then (true, 1) else if code c = 43 then (false, 1) else (false, 0)).2 = 1
    rcases hc with hc | hc
    · rw [if_neg (by omega), if_pos hc]
    · rw [if_pos hc]

theorem numberAt_append {spaces sign rest : List C} (hspaces : ∀ c ∈ spaces, isspace c = true)
    (hsign : IsSign sign) (hrest : 48 ≤ code (rest.headD nul)) :
    numberAt (spaces ++ (sign ++ rest)) = (spaces ++ sign).length := by
  have hstop : ∀ c ∈ (sign ++ rest).head?, isspace c = false := by
    intro c hc
    rw [Bool.eq_false_iff, ne_eq, isspace_iff]
    rcases hsign with rfl | ⟨d, rfl, hd⟩
    · have : code (rest.headD nul) = code c := by
        cases rest with
        | nil => exact absurd hc (not_mem_none c)
        | cons d rest => exact congrArg code (mem_some_iff.mp hc)
      omega
    · obtain rfl : d = c := mem_some_iff.mp hc
      omega
  unfold numberAt
  dsimp only
  rw [Stdio.takeWhile_append_stop hspaces hstop, drop_left, readSign_length hsign hrest,
    length_append]

theorem take_numberAt (str : List C) :
    ∃ spaces sign, str.take (numberAt str) = spaces ++ sign ∧
      (∀ c ∈ spaces, isspace c = true) ∧ IsSign sign := by
  refine ⟨str.takeWhile isspace, _, ?_, fun c hc => mem_takeWhile_imp hc,
    isSign_take (str.drop (str.takeWhile isspace).length)⟩
  have htake : str.take (str.takeWhile isspace).length = str.takeWhile isspace :=
    (prefix_iff_eq_take.mp (List.takeWhile_prefix _)).symm
  unfold numberAt
  rw [take_add, htake]

theorem readSign_le (text : List C) : (readSign text).2 ≤ text.length := by
  unfold readSign
  cases text with
  | nil => simp [code_nul]
  | cons c rest => split_ifs <;> simp

theorem numberAt_le (str : List C) : numberAt str ≤ str.length := by
  have hspaces : (str.takeWhile isspace).length ≤ str.length := (List.takeWhile_prefix _).length_le
  have hsign := readSign_le (str.drop (str.takeWhile isspace).length)
  rw [length_drop] at hsign
  unfold numberAt
  dsimp only
  omega

/-- The subject sequences at the start of a string are the numbers behind its
spaces and its sign. -/
theorem mem_subjectEnds_iff {str : List C} {n : ℕ} :
    n ∈ subjectEnds base str ↔
      ∃ m ≤ (str.drop (numberAt str)).length, n = numberAt str + m ∧
        IsNumber base ((str.drop (numberAt str)).take m) := by
  constructor
  · rintro ⟨hn, spaces, sign, number, htake, hspaces, hsign, hnumber⟩
    have hstr : str = spaces ++ (sign ++ (number ++ str.drop n)) := by
      rw [← append_assoc, ← append_assoc, ← htake, take_append_drop]
    have hat : numberAt str = (spaces ++ sign).length := by
      rw [hstr]
      exact numberAt_append hspaces hsign (hnumber.code_headD _)
    have hlength : n = numberAt str + number.length := by
      have := congrArg List.length htake
      rw [length_take_of_le hn, length_append] at this
      rw [hat, this]
    have hdrop : str.drop (numberAt str) = number ++ str.drop n := by
      rw [hat]
      conv_lhs => rw [hstr, ← append_assoc]
      exact drop_left
    refine ⟨number.length, ?_, hlength, ?_⟩
    · rw [hdrop, length_append]
      exact le_add_right _ _
    · rw [hdrop, take_left]
      exact hnumber
  · rintro ⟨m, hm, rfl, hnumber⟩
    obtain ⟨spaces, sign, htake, hspaces, hsign⟩ := take_numberAt str
    refine ⟨?_, spaces, sign, _, ?_, hspaces, hsign, hnumber⟩
    · have := numberAt_le str
      rw [length_drop] at hm
      omega
    · rw [take_add, htake]

/-! ### The end pointer -/

theorem length_of_marked (hlo : 97 ≤ letter) (hhi : letter ≤ 122) (h : marked letter text = true) :
    2 ≤ text.length := by
  obtain ⟨_, rest, rfl, z, x, rfl, -, -⟩ := (marked_iff hlo hhi).mp h
  simp

theorem numberLength_le (base : ℕ) (text : List C) : numberLength base text ≤ text.length := by
  have hrow := rowLength_le (marking base text).1 (text.drop (marking base text).2)
  rw [length_drop] at hrow
  have hmarker : (marking base text).2 ≤ text.length := by
    unfold marking
    split_ifs with hhex hbinary
    · exact length_of_marked (by decide) (by decide) hhex.2.1
    · exact length_of_marked (by decide) (by decide) hbinary.2.1
    · exact zero_le _
  unfold numberLength
  omega

/-- Where the end pointer has to point. -/
def endOffset (base : ℕ) (str : List C) : ℕ :=
  let length := numberLength base (str.drop (numberAt str))
  if length = 0 then 0 else numberAt str + length

theorem isEnd_iff (hbase : base ≤ 36) {str : List C} {n : ℕ} :
    IsEnd base str n ↔ n = endOffset base str := by
  have hle {n : ℕ} (hn : n ∈ subjectEnds base str) :
      n ≤ numberAt str + numberLength base (str.drop (numberAt str)) ∧ numberAt str < n := by
    obtain ⟨m, hm, rfl, hnumber⟩ := mem_subjectEnds_iff.mp hn
    have hlong := hnumber.le_numberLength hbase hm
    have hpos : 0 < m := by
      by_contra hzero
      obtain rfl : m = 0 := by omega
      have := hnumber.code_headD []
      rw [take_zero, nil_append, headD_nil, code_nul] at this
      omega
    omega
  unfold endOffset
  by_cases hlength : numberLength base (str.drop (numberAt str)) = 0
  · have hempty : subjectEnds base str = ∅ := by
      ext n
      constructor
      · intro hn
        have := hle hn
        omega
      · exact False.elim
    rw [if_pos hlength]
    constructor
    · rintro (hgreatest | ⟨-, hn⟩)
      · rw [hempty] at hgreatest
        exact absurd hgreatest.1 id
      · exact hn
    · intro hn
      exact Or.inr ⟨hempty, hn⟩
  · have hgreatest : IsGreatest (subjectEnds base str)
        (numberAt str + numberLength base (str.drop (numberAt str))) := by
      constructor
      · apply mem_subjectEnds_iff.mpr
        exact ⟨_, numberLength_le _ _, rfl, isNumber_take hbase (pos_of_ne_zero hlength)⟩
      · intro n hn
        exact (hle hn).1
    rw [if_neg hlength]
    constructor
    · rintro (h | ⟨hempty, -⟩)
      · exact h.unique hgreatest
      · rw [hempty] at hgreatest
        exact absurd hgreatest.1 id
    · rintro rfl
      exact Or.inl hgreatest

theorem effectiveBase_le (hbase : base ≤ 36) (str : List C) : effectiveBase base str ≤ 36 := by
  unfold effectiveBase readBase
  split_ifs <;> omega

theorem digitsAt_add_length (hbase : base ≤ 36) (str : List C) :
    digitsAt base str + (digitRun base str).length =
      numberAt str + scanLength base (str.drop (numberAt str)) := by
  rw [digitRun, if_pos (effectiveBase_le hbase str), digitsAt, ← drop_drop, add_assoc]
  rfl

theorem storedEnd_eq (hbase : base ≤ 36) (str : List C) :
    storedEnd base str true =
      let last := numberAt str + scanLength base (str.drop (numberAt str))
      some (if (str.takeWhile isspace).length ≠ last then last else 0) := by
  rw [storedEnd, digitsAt_add_length hbase, if_pos rfl]

/-- There is a sign behind the spaces. -/
def HasSign (str : List C) : Prop :=
  let c := (str.drop (str.takeWhile isspace).length).headD nul
  code c = 43 ∨ code c = 45

theorem hasSign_iff (str : List C) :
    HasSign str ↔ (str.takeWhile isspace).length < numberAt str := by
  unfold HasSign numberAt readSign
  dsimp only
  split_ifs <;> omega

/-- The end pointer is where it has to be, unless a sign stands in front of
something else than a number, or in base 2 or 16 the marker in front of
something else than a digit. -/
theorem stored_isEnd_iff (T : IntType) (str : List C) (base : ℕ) (hbase : base ≤ 36) :
    (∃ n, (strToInt T str true base).stored = some n ∧ IsEnd base str n) ↔
      (HasSign str → DigitOf (firstBase base) ((str.drop (numberAt str)).headD nul)) ∧
        ¬ Dangling base (str.drop (numberAt str)) := by
  have hstored : (strToInt T str true base).stored = storedEnd base str true := by
    rw [strToInt_eq]
  rw [hstored, storedEnd_eq hbase, hasSign_iff, ← numberLength_pos hbase]
  have hspaces : (str.takeWhile isspace).length ≤ numberAt str := le_add_right _ _
  simp only [some.injEq, exists_eq_left', isEnd_iff hbase, endOffset]
  by_cases hdangling : Dangling base (str.drop (numberAt str))
  · -- the pointer is behind the marker, of which only the zero is a number
    obtain ⟨hscan, hlength⟩ := scanLength_of_dangling hdangling
    rw [hlength, if_pos (by omega), if_neg (by decide)]
    constructor
    · omega
    · exact fun h => absurd hdangling h.2
  · rw [scanLength_eq hdangling]
    simp [hdangling]
    split_ifs <;> omega

theorem stored_isEnd_iff_hex :
    ∃ n, (strtol ['-', '0', 'x', 'f', 'g'] true 16).stored = some n ∧
      IsEnd 16 (['-', '0', 'x', 'f', 'g'] : List Stdio.Byte) n := by
  apply (stored_isEnd_iff long (['-', '0', 'x', 'f', 'g'] : List Stdio.Byte) 16 (by decide)).mpr
  refine ⟨fun _ => by decide, fun h => ?_⟩
  exact h.2.2 (by decide)

/-- A sign without a number: the end pointer is behind the sign. -/
theorem minusSign_not_isEnd :
    ¬ ∃ n, (strtol ['-', 'x'] true 10).stored = some n ∧
      IsEnd 10 (['-', 'x'] : List Stdio.Byte) n := by
  rintro ⟨n, hstored, hend⟩
  have hone : (strtol ['-', 'x'] true 10).stored = some 1 := by decide +kernel
  rw [hone, some.injEq] at hstored
  rw [isEnd_iff (by decide), ← hstored] at hend
  exact absurd hend (by decide)

end Hzlibc.Stdlib
