import Hzlibc.Stdio.IntText

/-!
Padded numbers.

A number in a field has a sign, a marker of its base, leading zeros and digits,
and is filled up to a width. The C standard and the formatter put these parts
together in different ways. Two such texts are compared through what can be
seen on them: the characters that are not digits, the number that the digits
stand for, the numbers of spaces and of zeros, and the length.
-/

namespace Hzlibc.Stdio

open List Nat

/-! ### Texts -/

/-- A number with what stands in front of it. -/
def layout (sign marker : List Byte) (zeros : ℕ) (digits : List Byte) : List Byte :=
  sign ++ (marker ++ (replicate zeros ('0' : Byte) ++ digits))

/-- A text filled up on one side. -/
def padded (right : Bool) (fill : ℕ) (c : Byte) (text : List Byte) : List Byte :=
  if right then text ++ replicate fill c else replicate fill c ++ text

/-- A field: the zeros that pad it stand behind its sign and its marker, and a
minus is stronger than a zero. -/
def standardText (sign marker : List Byte) (zeros : ℕ) (digits : List Byte) (width : ℕ)
    (left zero : Bool) : List Byte :=
  let core := layout sign marker zeros digits
  let fill := width - core.length
  if zero && !left then layout sign marker (fill + zeros) digits else padded left fill ' ' core

/-- The text of the formatter: a space in place of a sign is not counted, and
the padding stands in front of everything or behind it. -/
def codeText (sign marker : List Byte) (zeros : ℕ) (digits : List Byte) (width : ℕ)
    (left zero : Bool) : List Byte :=
  let core := layout sign marker zeros digits
  padded left (width - (core.length - if sign = [(' ' : Byte)] then 1 else 0))
    (if zero then '0' else ' ') core

/-! ### What can be seen on a text -/

/-- A character that is neither a digit nor a space. -/
def isMark (c : Byte) : Bool := !isxdigit c && c ≠ ' '

/-- The number that the digits of a text stand for. -/
def fieldValue (base : ℕ) (s : List Byte) : ℕ := readDigits base (s.filter isxdigit)

theorem forall_mem_spelled {p : Byte → Prop} {upper : Bool} {base : ℕ} (hbase : 2 ≤ base)
    (hdigit : ∀ d : Fin base, p (digitChar upper d)) (n : ℕ) : ∀ c ∈ spelled upper base n, p c := by
  intro c hc
  rw [spelled] at hc
  split at hc
  · rw [mem_singleton.mp hc]
    exact hdigit ⟨0, by omega⟩
  · obtain ⟨d, hd, rfl⟩ := mem_map.mp hc
    exact hdigit ⟨d, digits_lt_base hbase (mem_reverse.mp hd)⟩

theorem isxdigit_spelled (upper : Bool) {base : ℕ} (hbase : IsBase base) (n : ℕ) :
    ∀ c ∈ spelled upper base n, isxdigit c = true := by
  have hdigit : ∀ (upper : Bool) (d : Fin 16), isxdigit (digitChar upper d) = true := by decide
  exact forall_mem_spelled hbase.two_le
    (fun d => hdigit upper ⟨d, d.isLt.trans_le hbase.le⟩) n

theorem spelled_ne_nil (upper : Bool) (base n : ℕ) : spelled upper base n ≠ [] := by
  rw [spelled]
  split
  · exact cons_ne_nil _ _
  next hn =>
    intro hnil
    rw [map_eq_nil_iff, reverse_eq_nil_iff, digits_eq_nil_iff_eq_zero] at hnil
    exact hn hnil

/-- A number does not start with a zero, unless it is one. -/
theorem head_spelled (upper : Bool) {base : ℕ} (hbase : IsBase base) {n : ℕ} (hn : n ≠ 0) :
    (spelled upper base n).head? ≠ some ('0' : Byte) := by
  have hchar : ∀ (upper : Bool) (d : Fin 16), d ≠ 0 → digitChar upper d ≠ '0' := by decide
  have hne : digits base n ≠ [] := digits_ne_nil_iff_ne_zero.mpr hn
  have hlast := getLast_digit_ne_zero base hn
  have hlt := digits_lt_base hbase.two_le (getLast_mem hne)
  rw [spelled, if_neg hn, head?_map, head?_reverse, getLast?_eq_some_getLast hne]
  intro heq
  refine hchar upper ⟨_, hlt.trans_le hbase.le⟩ ?_ (Option.some.inj heq)
  exact fun hzero => hlast (congrArg Fin.val hzero)

theorem readDigits_foldl (base a : ℕ) (s : List Byte) :
    s.foldl (fun n c => base * n + Scan.digitValue (tolower c)) a =
      a * base ^ s.length + readDigits base s := by
  induction s generalizing a with
  | nil => simp [readDigits]
  | cons c s ih =>
    rw [readDigits, foldl_cons, foldl_cons, ih, ih (base * 0 + _), length_cons]
    ring

@[simp] theorem readDigits_append (base : ℕ) (s t : List Byte) :
    readDigits base (s ++ t) = readDigits base s * base ^ t.length + readDigits base t := by
  rw [readDigits, foldl_append, readDigits_foldl]
  rfl

theorem readDigits_zeros (base k : ℕ) : readDigits base (replicate k ('0' : Byte)) = 0 := by
  induction k with
  | zero => rfl
  | succ k ih =>
    rw [replicate_succ, ← singleton_append, readDigits_append, ih]
    have hzero : readDigits base [('0' : Byte)] = 0 := rfl
    rw [hzero, zero_mul]

def signs : List (List Byte) := [[], ['-'], ['+'], [' ']]

def markers : List (List Byte) := [[], ['0'], ['0', 'x'], ['0', 'X']]

theorem isxdigit_of_mem_signs : ∀ sign ∈ signs, ∀ c ∈ sign, isxdigit c = false := by decide

theorem fieldValue_markers {base : ℕ} : ∀ marker ∈ markers, fieldValue base marker = 0 := by
  intro marker h
  simp [markers] at h
  rcases h with rfl | rfl | rfl | rfl <;> rfl

section Signs

variable {p q r : Prop} [Decidable p] [Decidable q] [Decidable r]

theorem minus_mem_iff :
    ('-' : Byte) ∈ (if p then ['-'] else if q then ['+'] else if r then [' '] else [] :
      List Byte) ↔ p := by
  by_cases hp : p
  · simp [hp]
  · refine ⟨fun h => ?_, fun h => absurd h hp⟩
    split_ifs at h <;> exact absurd h (by decide)

theorem plus_mem_iff :
    ('+' : Byte) ∈ (if p then ['-'] else if q then ['+'] else if r then [' '] else [] :
      List Byte) ↔ ¬ p ∧ q := by
  by_cases hp : p
  · rw [if_pos hp]
    exact ⟨fun h => absurd h (by decide), fun h => absurd hp h.1⟩
  · by_cases hq : q
    · simp [hp, hq]
    · refine ⟨fun h => ?_, fun h => absurd h.2 hq⟩
      split_ifs at h <;> exact absurd h (by decide)

end Signs

section Texts

variable {base : ℕ} {sign marker digits : List Byte} {zeros : ℕ}

theorem fieldValue_layout (hsign : sign ∈ signs) (hmarker : marker ∈ markers)
    (hdigits : ∀ c ∈ digits, isxdigit c = true) :
    fieldValue base (layout sign marker zeros digits) = readDigits base digits := by
  have hzero : isxdigit ('0' : Byte) = true := by decide
  have hsign' : sign.filter isxdigit = [] := by
    simpa [filter_eq_nil_iff] using isxdigit_of_mem_signs sign hsign
  have hmarker : readDigits base (marker.filter isxdigit) = 0 := fieldValue_markers marker hmarker
  rw [fieldValue, layout, filter_append, hsign', filter_append, filter_append,
    filter_replicate_of_pos hzero, filter_eq_self.mpr hdigits, nil_append,
    readDigits_append, hmarker, readDigits_append, readDigits_zeros]
  simp

variable {c : Byte}

/-- Padding does not change the number, or it shifts it. -/
theorem fieldValue_padded (base : ℕ) (right : Bool) (fill : ℕ) (hc : c = ' ' ∨ c = '0')
    (text : List Byte) :
    ∃ k, fieldValue base (padded right fill c text) = fieldValue base text * base ^ k ∧
      (c = ' ' → k = 0) := by
  rcases hc with rfl | rfl
  · have hnil : (replicate fill (' ' : Byte)).filter isxdigit = [] :=
      filter_replicate_of_neg (by decide)
    refine ⟨0, ?_, fun _ => rfl⟩
    cases right <;> simp only [padded, fieldValue, filter_append, hnil, append_nil,
      nil_append, Bool.false_eq_true, if_true, if_false, pow_zero, mul_one]
  · have hzero : isxdigit ('0' : Byte) = true := by decide
    have hall : (replicate fill ('0' : Byte)).filter isxdigit =
        replicate fill ('0' : Byte) := filter_replicate_of_pos hzero
    cases right with
    | false =>
      refine ⟨0, ?_, fun h => absurd h (by decide)⟩
      rw [padded, if_neg Bool.false_ne_true, fieldValue, filter_append, hall,
        readDigits_append, readDigits_zeros]
      simp [fieldValue]
    | true =>
      refine ⟨fill, ?_, fun h => absurd h (by decide)⟩
      rw [padded, if_pos rfl, fieldValue, filter_append, hall, readDigits_append,
        readDigits_zeros, length_replicate]
      rfl

theorem mem_padded {right : Bool} {fill : ℕ} {p : Byte} (hp : p = ' ' ∨ p = '0')
    {text : List Byte} (hc : isMark c = true) : c ∈ padded right fill p text ↔ c ∈ text := by
  have hne : c ∉ replicate fill p := by
    intro hmem
    rw [eq_of_mem_replicate hmem] at hc
    rcases hp with rfl | rfl <;> exact absurd hc (by decide)
  cases right <;> simp [padded, hne]

theorem mem_layout (hdigits : ∀ c ∈ digits, isxdigit c = true) (hc : isMark c = true) :
    c ∈ layout sign marker zeros digits ↔ c ∈ sign ∨ c ∈ marker := by
  have hzeros : c ∉ replicate zeros ('0' : Byte) := by
    intro hmem
    rw [eq_of_mem_replicate hmem] at hc
    exact absurd hc (by decide)
  have hdigits' : c ∉ digits := by
    intro hmem
    rw [isMark, hdigits c hmem] at hc
    exact absurd hc Bool.false_ne_true
  simp only [layout, mem_append, hzeros, hdigits', or_false]

theorem count_padded (right : Bool) (fill : ℕ) (p c : Byte) (text : List Byte) :
    (padded right fill p text).count c = text.count c + if p = c then fill else 0 := by
  cases right <;> simp [padded, count_replicate, add_comm]

@[simp] theorem length_padded (right : Bool) (fill : ℕ) (p : Byte) (text : List Byte) :
    (padded right fill p text).length = text.length + fill := by
  cases right <;> simp [padded, add_comm]

theorem count_layout (c : Byte) :
    (layout sign marker zeros digits).count c =
      sign.count c + marker.count c + (if ('0' : Byte) = c then zeros else 0) + digits.count c := by
  simp [layout, count_replicate]
  omega

theorem length_layout :
    (layout sign marker zeros digits).length =
      sign.length + marker.length + zeros + digits.length := by
  simp [layout]
  omega

theorem fieldValue_standardText (hsign : sign ∈ signs) (hmarker : marker ∈ markers)
    (hdigits : ∀ c ∈ digits, isxdigit c = true) (width : ℕ) (left zero : Bool) :
    fieldValue base (standardText sign marker zeros digits width left zero) =
      readDigits base digits := by
  rw [standardText]
  split
  · exact fieldValue_layout hsign hmarker hdigits
  · obtain ⟨k, hk, hzero⟩ := fieldValue_padded base left
      (width - (layout sign marker zeros digits).length) (.inl rfl)
      (layout sign marker zeros digits)
    rw [hk, hzero rfl, fieldValue_layout hsign hmarker hdigits, pow_zero, mul_one]

/-- The zeros behind a number shift it. -/
theorem fieldValue_codeText (base zeros : ℕ) (hsign : sign ∈ signs) (hmarker : marker ∈ markers)
    (hdigits : ∀ c ∈ digits, isxdigit c = true) (width : ℕ) (left zero : Bool) :
    ∃ k, fieldValue base (codeText sign marker zeros digits width left zero) =
      readDigits base digits * base ^ k := by
  have hpad : (if zero then ('0' : Byte) else ' ') = ' ' ∨
      (if zero then ('0' : Byte) else ' ') = '0' := by cases zero <;> decide
  obtain ⟨k, hk, _⟩ := fieldValue_padded base left
    (width - ((layout sign marker zeros digits).length - if sign = [(' ' : Byte)] then 1 else 0))
    hpad (layout sign marker zeros digits)
  refine ⟨k, ?_⟩
  rw [codeText, hk, fieldValue_layout hsign hmarker hdigits]

theorem mem_standardText (hdigits : ∀ c ∈ digits, isxdigit c = true) {width : ℕ}
    {left zero : Bool} (hc : isMark c = true) :
    c ∈ standardText sign marker zeros digits width left zero ↔ c ∈ sign ∨ c ∈ marker := by
  rw [standardText]
  split
  · exact mem_layout hdigits hc
  · exact (mem_padded (.inl rfl) hc).trans (mem_layout hdigits hc)

theorem mem_codeText (hdigits : ∀ c ∈ digits, isxdigit c = true) {width : ℕ}
    {left zero : Bool} (hc : isMark c = true) :
    c ∈ codeText sign marker zeros digits width left zero ↔ c ∈ sign ∨ c ∈ marker := by
  refine (mem_padded ?_ hc).trans (mem_layout hdigits hc)
  cases zero <;> decide

/-- A marker that ends with zeros, read as one without them. -/
theorem codeText_marker (k width : ℕ) (left zero : Bool) :
    codeText sign (marker ++ replicate k ('0' : Byte)) zeros digits width left zero =
      codeText sign marker (k + zeros) digits width left zero := by
  have hlayout : layout sign (marker ++ replicate k ('0' : Byte)) zeros digits =
      layout sign marker (k + zeros) digits := by
    simp only [layout, replicate_add, append_assoc]
  rw [codeText, codeText, hlayout]

end Texts

/-! ### Two texts compared -/

section Compare

variable {sign marker digits : List Byte} {mine theirs width : ℕ} {left zero : Bool}

theorem length_codeText :
    (codeText sign marker mine digits width left zero).length =
      (layout sign marker mine digits).length +
        (width - ((layout sign marker mine digits).length -
          if sign = [(' ' : Byte)] then 1 else 0)) := by
  rw [codeText, length_padded]

@[simp] theorem length_standardText :
    (standardText sign marker mine digits width left zero).length =
      (layout sign marker mine digits).length +
        (width - (layout sign marker mine digits).length) := by
  rw [standardText]
  split
  · simp only [length_layout]
    omega
  · rw [length_padded]

theorem zeros_codeText :
    (codeText sign marker mine digits width left zero).count ('0' : Byte) =
      (layout sign marker mine digits).count ('0' : Byte) +
        if zero then width - ((layout sign marker mine digits).length -
          if sign = [(' ' : Byte)] then 1 else 0) else 0 := by
  rw [codeText, count_padded]
  cases zero <;> simp

theorem zeros_standardText :
    (standardText sign marker mine digits width left zero).count ('0' : Byte) =
      (layout sign marker mine digits).count ('0' : Byte) +
        if zero && !left then width - (layout sign marker mine digits).length else 0 := by
  rw [standardText]
  split
  · simp only [count_layout, if_true]
    omega
  · rw [count_padded]
    rfl

theorem spaces_codeText :
    (codeText sign marker mine digits width left zero).count (' ' : Byte) =
      sign.count (' ' : Byte) + marker.count (' ' : Byte) + digits.count (' ' : Byte) +
        if zero then 0 else width - ((layout sign marker mine digits).length -
          if sign = [(' ' : Byte)] then 1 else 0) := by
  rw [codeText, count_padded, count_layout]
  cases zero <;> simp

theorem spaces_standardText :
    (standardText sign marker mine digits width left zero).count (' ' : Byte) =
      sign.count (' ' : Byte) + marker.count (' ' : Byte) + digits.count (' ' : Byte) +
        if zero && !left then 0 else width - (layout sign marker mine digits).length := by
  rw [standardText]
  split
  · rw [count_layout, if_neg (by decide), add_zero, add_zero]
  · rw [count_padded, count_layout]
    rfl

/-- A space in place of a sign shows if there should be none. -/
theorem codeText_space_ne {marker' digits' : List Byte}
    (hmarker : marker.count (' ' : Byte) = 0) (hdigits : digits.count (' ' : Byte) = 0)
    (hmarker' : marker'.count (' ' : Byte) = 0) (hdigits' : digits'.count (' ' : Byte) = 0) :
    codeText [' '] marker mine digits width left zero ≠
      standardText [] marker' theirs digits' width left zero := by
  intro h
  have hlen := congrArg length h
  have hspaces := congrArg (count (' ' : Byte)) h
  rw [length_codeText, length_standardText] at hlen
  rw [spaces_codeText, spaces_standardText] at hspaces
  simp only [hmarker, hdigits, hmarker', hdigits', count_nil, count_singleton_self,
    if_true] at hlen hspaces
  have hone : 1 ≤ (layout [(' ' : Byte)] marker mine digits).length := by
    rw [length_layout, length_singleton]
    omega
  cases zero <;> cases left <;>
    simp at hspaces <;> omega

section Equal

variable (h : codeText sign marker mine digits width left zero =
    standardText sign marker theirs digits width left zero)
include h

/-- Equal texts have the same zeros, but for those that pad. -/
theorem zeros_eq_or (hmore : zero = true → theirs ≤ mine) :
    mine = theirs ∨ zero = true ∧ left = false ∧
      marker.length + digits.length + max mine theirs ≤ width := by
  have hlen := congrArg length h
  have hzeros := congrArg (count ('0' : Byte)) h
  rw [length_codeText, length_standardText] at hlen
  rw [zeros_codeText, zeros_standardText] at hzeros
  simp only [count_layout, length_layout, if_true] at hlen hzeros
  by_cases hsame : mine = theirs
  · exact .inl hsame
  · refine .inr ?_
    cases zero with
    | false =>
      simp at hzeros
      omega
    | true =>
      have hmore := hmore rfl
      cases left with
      | true =>
        simp at hzeros
        omega
      | false =>
        refine ⟨rfl, rfl, ?_⟩
        omega

theorem width_lt_of_space (hsame : mine = theirs) (hsign : sign = [(' ' : Byte)]) :
    width < (layout sign marker theirs digits).length := by
  have hlen := congrArg length h
  rw [length_codeText, length_standardText, if_pos hsign] at hlen
  rw [hsame, length_layout, hsign, length_singleton] at hlen
  rw [length_layout, hsign, length_singleton]
  omega

theorem width_le_of_left (hsame : mine = theirs) (hzero : zero = true) (hleft : left = true) :
    width ≤ (layout sign marker theirs digits).length := by
  have hzeros := congrArg (count ('0' : Byte)) h
  rw [zeros_codeText, zeros_standardText, hsame, hzero, hleft] at hzeros
  simp at hzeros
  omega

theorem width_le_of_lead (hzero : zero = true) (hleft : left = false) (hsign : sign ∈ signs)
    (hmarker : marker = [] ∨ ∃ x : Byte, x ≠ '0' ∧ marker = [('0' : Byte), x])
    (hlead : sign ≠ [] ∨ marker ≠ []) : width ≤ (layout sign marker mine digits).length := by
  by_contra hlt
  obtain ⟨fill, hfill⟩ : ∃ fill, width - ((layout sign marker mine digits).length -
      if sign = [(' ' : Byte)] then 1 else 0) = fill + 1 :=
    ⟨_, (Nat.sub_add_cancel (by omega)).symm⟩
  simp only [codeText, standardText, hfill, hzero, hleft, padded, Bool.not_false, Bool.and_true,
    Bool.false_eq_true, if_true, if_false, replicate_succ, cons_append] at h
  by_cases hnil : sign = []
  · -- the second character is a zero in one text and the letter of the marker in the other
    obtain ⟨x, hx, rfl⟩ := hmarker.resolve_left (hlead.resolve_left (not_not_intro hnil))
    have hsecond := congrArg (fun s => s.tail.head?) h
    subst hnil
    cases fill with
    | zero | succ fill => exact hx (Option.some.inj hsecond.symm)
  · have hhead : ∀ sign ∈ signs, sign ≠ [] → sign.head? ≠ some ('0' : Byte) := by decide
    obtain ⟨c, rest, rfl⟩ := exists_cons_of_ne_nil hnil
    have hfirst := congrArg head? h
    exact hhead _ hsign hnil hfirst.symm

end Equal

theorem codeText_bare (mine theirs : ℕ) (h : width - (layout [] [] mine digits).length + mine =
      width - (layout [] [] theirs digits).length + theirs) :
    codeText [] [] mine digits width false true =
      standardText [] [] theirs digits width false true := by
  have hnil : ¬ ([] : List Byte) = [(' ' : Byte)] := by decide
  simp only [codeText, standardText, hnil, if_false, Nat.sub_zero, Bool.not_false, Bool.and_true,
    if_true, padded, Bool.false_eq_true, ← h]
  simp [layout]
  rw [← append_assoc, replicate_append_replicate]

theorem codeText_eq_standardText
    (hspace : sign = [(' ' : Byte)] → width < (layout sign marker theirs digits).length)
    (hlead : zero = true → left = true ∨ sign ≠ [] ∨ marker ≠ [] →
      width ≤ (layout sign marker theirs digits).length)
    (hzeros : mine = theirs ∨ zero = true ∧ left = false ∧ sign = [] ∧ marker = [] ∧
      digits.length + max mine theirs ≤ width) :
    codeText sign marker mine digits width left zero =
      standardText sign marker theirs digits width left zero := by
  rcases hzeros with rfl | ⟨rfl, rfl, rfl, rfl, hle⟩
  · have hfill : width - ((layout sign marker mine digits).length -
        if sign = [(' ' : Byte)] then 1 else 0) =
          width - (layout sign marker mine digits).length := by
      split
      next hsign =>
        have := hspace hsign
        omega
      · rfl
    cases zero with
    | false =>
      simp only [codeText, standardText, hfill, Bool.false_and, Bool.false_eq_true, if_false]
    | true =>
      by_cases hbare : left = true ∨ sign ≠ [] ∨ marker ≠ []
      · have hnone := Nat.sub_eq_zero_of_le (hlead rfl hbare)
        simp only [codeText, standardText, hfill, hnone, Nat.zero_add]
        cases left <;> simp [padded]
      · simp only [not_or, ne_eq, not_not] at hbare
        obtain ⟨hleft, rfl, rfl⟩ := hbare
        rw [Bool.not_eq_true] at hleft
        subst hleft
        exact codeText_bare mine mine rfl
  · refine codeText_bare mine theirs ?_
    simp [length_layout]
    omega

end Compare

end Hzlibc.Stdio
