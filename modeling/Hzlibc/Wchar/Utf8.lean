import Hzlibc.Stdio.Basic
import Mathlib.Data.Nat.Bits

/-!
Multibyte characters: the UTF-8 encoder and decoder of the library, and the
conversions of whole strings made from them.

A string is the list of its bytes or of its wide characters; what is read behind
the end is the terminating null. The conversion state is not used by any of the
functions.
-/

namespace Hzlibc.Utf8

open BitVec Nat

open Stdio (Byte Wchar)

/-! ### One character -/

/-- The bytes of a wide character, or nothing for `EILSEQ`. -/
def wcrtomb (wc : Wchar) : Option (List Byte) :=
  let lead (mark : Wchar) (shift : ℕ) : Byte := (mark ||| wc >>> shift).setWidth 8
  let tail (shift : ℕ) : Byte := ((0b10000000 : Wchar) ||| (wc >>> shift &&& 0x3F)).setWidth 8
  if wc.toInt ≤ 0x7F then some [wc.setWidth 8]
  else if wc.toInt ≤ 0x7FF then some [lead 0b11000000 6, tail 0]
  else if wc.toInt ≤ 0xFFFF then some [lead 0b11100000 12, tail 6, tail 0]
  else if wc.toInt ≤ 0x10FFFF then some [lead 0b11110000 18, tail 12, tail 6, tail 0]
  else none

inductive Decoded
  /-- The character, and the number that is returned. -/
  | char (c : Wchar) (used : ℕ)
  /-- `static_cast<size_t>(-2)`. -/
  | incomplete
  /-- `static_cast<size_t>(-1)`, with `EILSEQ`. -/
  | invalid
  deriving DecidableEq

def isTail (b : Byte) : Bool := b &&& 0b11000000 = 0b10000000

/-- `mbrtoc32` for a string that is not null. -/
def mbrtoc32 (str : List Byte) (n : ℕ) : Decoded :=
  if n = 0 then .incomplete
  else
    let first := str.getD 0 0
    let second := str.getD 1 0
    let third := str.getD 2 0
    let fourth := str.getD 3 0
    if first &&& 0b10000000 = 0 then .char (first.setWidth 32) (if first = 0 then 0 else 1)
    else if first &&& 0b11100000 = 0b11000000 then
      if n = 1 then .incomplete
      else if !isTail second then .invalid
      else .char ((second &&& 0x3F).setWidth 32 ||| (first &&& 0b11111).setWidth 32 <<< 6) 2
    else if first &&& 0b11110000 = 0b11100000 then
      if n = 1 then .incomplete
      else if !isTail second then .invalid
      else if n = 2 then .incomplete
      else if !isTail third then .invalid
      else
        .char ((third &&& 0x3F).setWidth 32 ||| (second &&& 0x3F).setWidth 32 <<< 6 |||
          (first &&& 0b1111).setWidth 32 <<< 12) 3
    else if first &&& 0b11111000 = 0b11110000 then
      if n = 1 then .incomplete
      else if !isTail second then .invalid
      else if n = 2 then .incomplete
      else if !isTail third then .invalid
      else if n = 3 then .incomplete
      else if !isTail fourth then .invalid
      else
        .char ((fourth &&& 0x3F).setWidth 32 ||| (third &&& 0x3F).setWidth 32 <<< 6 |||
          (second &&& 0x3F).setWidth 32 <<< 12 ||| (first &&& 0b111).setWidth 32 <<< 18) 4
    else .invalid

/-! ### The arithmetic of the encoder -/

/-- A byte with six bits of a character. -/
def tailByte (x : ℕ) : Byte := BitVec.ofNat 8 (0x80 + x % 64)

def leadByte (mark x : ℕ) : Byte := BitVec.ofNat 8 (mark + x)

/-- The bytes of a code point. -/
def encode (c : ℕ) : List Byte :=
  if c < 0x80 then [BitVec.ofNat 8 c]
  else if c < 0x800 then [leadByte 0xC0 (c / 64), tailByte c]
  else if c < 0x10000 then [leadByte 0xE0 (c / 64 ^ 2), tailByte (c / 64), tailByte c]
  else [leadByte 0xF0 (c / 64 ^ 3), tailByte (c / 64 ^ 2), tailByte (c / 64), tailByte c]

section Fields

variable {wc : Wchar}

/-- A mark above the bits of a field is added to it. -/
theorem setWidth_mark {a i : ℕ} {mark field : Wchar} (hmark : mark.toNat = a <<< i)
    (hfield : field.toNat < 2 ^ i) :
    (mark ||| field).setWidth 8 = BitVec.ofNat 8 (mark.toNat + field.toNat) := by
  rw [← ofNat_toNat, toNat_or, hmark, shiftLeft_add_eq_or_of_lt hfield]

theorem toNat_shift (wc : Wchar) (k : ℕ) : (wc >>> k).toNat = wc.toNat / 2 ^ k := by
  rw [toNat_ushiftRight, shiftRight_eq_div_pow]

theorem toNat_low (wc : Wchar) : (wc &&& 0x3F).toNat = wc.toNat % 64 := by
  exact and_two_pow_sub_one_eq_mod _ 6

theorem setWidth_tail (k : ℕ) :
    ((0b10000000 : Wchar) ||| (wc >>> k &&& 0x3F)).setWidth 8 = tailByte (wc.toNat / 2 ^ k) := by
  have hlow := toNat_low (wc >>> k)
  rw [setWidth_mark (show (0b10000000 : Wchar).toNat = 2 <<< 6 by rfl) (by omega), hlow,
    toNat_shift]
  rfl

theorem setWidth_lead {mark : Wchar} {a i : ℕ} (hmark : mark.toNat = a <<< i) (k : ℕ)
    (hfits : wc.toNat / 2 ^ k < 2 ^ i) :
    (mark ||| wc >>> k).setWidth 8 = leadByte mark.toNat (wc.toNat / 2 ^ k) := by
  rw [setWidth_mark hmark (by rwa [toNat_shift]), toNat_shift]
  rfl

theorem wcrtomb_eq_encode (hwc : wc.toNat ≤ 0x10FFFF) : wcrtomb wc = some (encode wc.toNat) := by
  have hint : wc.toInt = wc.toNat := toInt_eq_toNat_of_lt (by omega)
  unfold wcrtomb encode
  simp only [hint, setWidth_tail]
  by_cases h1 : wc.toNat < 0x80
  · rw [if_pos (by omega), if_pos h1]
    exact congrArg (fun b => some [b]) (ofNat_toNat 8 wc).symm
  rw [if_neg (by omega), if_neg h1]
  by_cases h2 : wc.toNat < 0x800
  · rw [if_pos (by omega), if_pos h2,
      setWidth_lead (show (0b11000000 : Wchar).toNat = 6 <<< 5 by rfl) 6 (by omega), Nat.pow_zero,
      Nat.div_one]
    rfl
  rw [if_neg (by omega), if_neg h2]
  by_cases h3 : wc.toNat < 0x10000
  · rw [if_pos (by omega), if_pos h3,
      setWidth_lead (show (0b11100000 : Wchar).toNat = 14 <<< 4 by rfl) 12 (by omega), Nat.pow_zero,
      Nat.div_one]
    rfl
  rw [if_neg (by omega), if_neg h3, if_pos (by omega),
    setWidth_lead (show (0b11110000 : Wchar).toNat = 30 <<< 3 by rfl) 18 (by omega), Nat.pow_zero,
    Nat.div_one]
  rfl

end Fields

/-! ### The arithmetic of the decoder -/

theorem lead_one_iff : ∀ b : Byte, b &&& 0b10000000 = 0 ↔ b.toNat < 0x80 := by decide

theorem lead_two_iff : ∀ b : Byte,
    b &&& 0b11100000 = 0b11000000 ↔ 0xC0 ≤ b.toNat ∧ b.toNat < 0xE0 := by decide

theorem lead_three_iff : ∀ b : Byte,
    b &&& 0b11110000 = 0b11100000 ↔ 0xE0 ≤ b.toNat ∧ b.toNat < 0xF0 := by decide

theorem lead_four_iff : ∀ b : Byte,
    b &&& 0b11111000 = 0b11110000 ↔ 0xF0 ≤ b.toNat ∧ b.toNat < 0xF8 := by decide

theorem isTail_iff : ∀ b : Byte, isTail b = true ↔ 0x80 ≤ b.toNat ∧ b.toNat < 0xC0 := by decide

theorem toNat_mask (b : Byte) (i : ℕ) {mask : Byte} (hmask : mask.toNat = 2 ^ i - 1) :
    ((b &&& mask).setWidth 32).toNat = b.toNat % 2 ^ i := by
  rw [toNat_setWidth, toNat_and, hmask, and_two_pow_sub_one_eq_mod, mod_eq_of_lt (by omega)]

/-- Groups of bits that do not overlap are added. -/
theorem toNat_or_field {x : Wchar} {i : ℕ} (hx : x.toNat < 2 ^ i) (b : Byte) {mask : Byte} (j : ℕ)
    (hmask : mask.toNat = 2 ^ j - 1) (hfits : i + j ≤ 32) :
    (x ||| (b &&& mask).setWidth 32 <<< i).toNat = b.toNat % 2 ^ j * 2 ^ i + x.toNat := by
  have hfield : b.toNat % 2 ^ j * 2 ^ i < 2 ^ 32 :=
    calc b.toNat % 2 ^ j * 2 ^ i
        < 2 ^ j * 2 ^ i :=
          Nat.mul_lt_mul_of_pos_right (Nat.mod_lt _ (Nat.two_pow_pos j)) (Nat.two_pow_pos i)
      _ = 2 ^ (i + j) := by rw [Nat.pow_add, Nat.mul_comm]
      _ ≤ 2 ^ 32 := Nat.pow_le_pow_right (by decide) hfits
  rw [toNat_or, toNat_shiftLeft, toNat_mask b j hmask, Nat.shiftLeft_eq, Nat.mod_eq_of_lt hfield,
    Nat.or_comm, ← Nat.shiftLeft_eq, ← Nat.shiftLeft_add_eq_or_of_lt hx]

/-- The character in the bytes at the start of a string, and how many bytes
it takes up. -/
inductive Accepted (str : List Byte) : ℕ → ℕ → Prop
  | one : 0 < (str.getD 0 0).toNat → (str.getD 0 0).toNat < 0x80 →
      Accepted str (str.getD 0 0).toNat 1
  | two : 0xC0 ≤ (str.getD 0 0).toNat → (str.getD 0 0).toNat < 0xE0 →
      isTail (str.getD 1 0) = true →
      Accepted str ((str.getD 0 0).toNat % 32 * 64 + (str.getD 1 0).toNat % 64) 2
  | three : 0xE0 ≤ (str.getD 0 0).toNat → (str.getD 0 0).toNat < 0xF0 →
      isTail (str.getD 1 0) = true → isTail (str.getD 2 0) = true →
      Accepted str ((str.getD 0 0).toNat % 16 * 64 ^ 2 + (str.getD 1 0).toNat % 64 * 64 +
        (str.getD 2 0).toNat % 64) 3
  | four : 0xF0 ≤ (str.getD 0 0).toNat → (str.getD 0 0).toNat < 0xF8 →
      isTail (str.getD 1 0) = true → isTail (str.getD 2 0) = true →
      isTail (str.getD 3 0) = true →
      Accepted str ((str.getD 0 0).toNat % 8 * 64 ^ 3 + (str.getD 1 0).toNat % 64 * 64 ^ 2 +
        (str.getD 2 0).toNat % 64 * 64 + (str.getD 3 0).toNat % 64) 4

section Groups

variable (first second third fourth : Byte)

theorem toNat_tail : ((first &&& 0x3F).setWidth 32 : Wchar).toNat = first.toNat % 64 :=
  toNat_mask first 6 rfl

theorem toNat_two :
    ((second &&& 0x3F).setWidth 32 ||| (first &&& 0b11111).setWidth 32 <<< 6 : Wchar).toNat =
      first.toNat % 32 * 64 + second.toNat % 64 := by
  have hlow := toNat_tail second
  rw [toNat_or_field (by omega) first 5 rfl (by decide), hlow]
  rfl

/-- Two tail bytes. -/
theorem toNat_tails :
    ((second &&& 0x3F).setWidth 32 ||| (first &&& 0x3F).setWidth 32 <<< 6 : Wchar).toNat =
      first.toNat % 64 * 64 + second.toNat % 64 := by
  have hlow := toNat_tail second
  rw [toNat_or_field (by omega) first 6 rfl (by decide), hlow]
  rfl

theorem toNat_three :
    ((third &&& 0x3F).setWidth 32 ||| (second &&& 0x3F).setWidth 32 <<< 6 |||
      (first &&& 0b1111).setWidth 32 <<< 12 : Wchar).toNat =
      first.toNat % 16 * 64 ^ 2 + second.toNat % 64 * 64 + third.toNat % 64 := by
  have hlow := toNat_tails second third
  rw [toNat_or_field (by omega) first 4 rfl (by decide), hlow]
  omega

theorem toNat_four :
    ((fourth &&& 0x3F).setWidth 32 ||| (third &&& 0x3F).setWidth 32 <<< 6 |||
      (second &&& 0x3F).setWidth 32 <<< 12 ||| (first &&& 0b111).setWidth 32 <<< 18 :
        Wchar).toNat =
      first.toNat % 8 * 64 ^ 3 + second.toNat % 64 * 64 ^ 2 + third.toNat % 64 * 64 +
        fourth.toNat % 64 := by
  have hlow := toNat_tails third fourth
  have hmid := toNat_or_field (hlow.trans_lt (show _ < 2 ^ 12 by omega)) second 6
    (show (0x3F : Byte).toNat = _ by rfl) (by decide)
  rw [toNat_or_field (by omega) first 3 rfl (by decide), hmid, hlow]
  omega

end Groups

/-- One more byte of a character: it has to be there, and to be a tail byte. -/
def withTail (str : List Byte) (n j : ℕ) (d : Decoded) : Decoded :=
  if n = j then .incomplete else if !isTail (str.getD j 0) then .invalid else d

section Classes

variable {str : List Byte} {n : ℕ}

theorem mbrtoc32_one (hn : n ≠ 0) (hfirst : (str.getD 0 0).toNat < 0x80) :
    mbrtoc32 str n =
      .char ((str.getD 0 0).setWidth 32) (if str.getD 0 0 = 0 then 0 else 1) := by
  unfold mbrtoc32
  rw [if_neg hn, if_pos ((lead_one_iff _).mpr hfirst)]

theorem mbrtoc32_two (hn : n ≠ 0)
    (hfirst : 0xC0 ≤ (str.getD 0 0).toNat ∧ (str.getD 0 0).toNat < 0xE0) :
    mbrtoc32 str n = withTail str n 1
      (.char ((str.getD 1 0 &&& 0x3F).setWidth 32 |||
        (str.getD 0 0 &&& 0b11111).setWidth 32 <<< 6) 2) := by
  unfold mbrtoc32
  rw [if_neg hn, if_neg (by rw [lead_one_iff]; omega), if_pos ((lead_two_iff _).mpr hfirst)]
  rfl

theorem mbrtoc32_three (hn : n ≠ 0)
    (hfirst : 0xE0 ≤ (str.getD 0 0).toNat ∧ (str.getD 0 0).toNat < 0xF0) :
    mbrtoc32 str n = withTail str n 1 (withTail str n 2
      (.char ((str.getD 2 0 &&& 0x3F).setWidth 32 ||| (str.getD 1 0 &&& 0x3F).setWidth 32 <<< 6 |||
        (str.getD 0 0 &&& 0b1111).setWidth 32 <<< 12) 3)) := by
  unfold mbrtoc32
  rw [if_neg hn, if_neg (by rw [lead_one_iff]; omega), if_neg (by rw [lead_two_iff]; omega),
    if_pos ((lead_three_iff _).mpr hfirst)]
  rfl

theorem mbrtoc32_four (hn : n ≠ 0)
    (hfirst : 0xF0 ≤ (str.getD 0 0).toNat ∧ (str.getD 0 0).toNat < 0xF8) :
    mbrtoc32 str n = withTail str n 1 (withTail str n 2 (withTail str n 3
      (.char ((str.getD 3 0 &&& 0x3F).setWidth 32 ||| (str.getD 2 0 &&& 0x3F).setWidth 32 <<< 6 |||
        (str.getD 1 0 &&& 0x3F).setWidth 32 <<< 12 |||
        (str.getD 0 0 &&& 0b111).setWidth 32 <<< 18) 4))) := by
  unfold mbrtoc32
  rw [if_neg hn, if_neg (by rw [lead_one_iff]; omega), if_neg (by rw [lead_two_iff]; omega),
    if_neg (by rw [lead_three_iff]; omega), if_pos ((lead_four_iff _).mpr hfirst)]
  rfl

theorem mbrtoc32_other (hn : n ≠ 0)
    (hfirst : 0x80 ≤ (str.getD 0 0).toNat ∧ (str.getD 0 0).toNat < 0xC0 ∨
      0xF8 ≤ (str.getD 0 0).toNat) : mbrtoc32 str n = .invalid := by
  unfold mbrtoc32
  rw [if_neg hn, if_neg (by rw [lead_one_iff]; omega), if_neg (by rw [lead_two_iff]; omega),
    if_neg (by rw [lead_three_iff]; omega), if_neg (by rw [lead_four_iff]; omega)]

theorem toNat_first : ((str.getD 0 0).setWidth 32).toNat = (str.getD 0 0).toNat := by
  rw [toNat_setWidth, mod_eq_of_lt (by omega)]

variable {c : Wchar}

variable {j k : ℕ} {d : Decoded}

theorem tail_of_char (h : withTail str n j d = .char c k) :
    n ≠ j ∧ isTail (str.getD j 0) = true ∧ d = .char c k := by
  unfold withTail at h
  split_ifs at h with hj hb
  exact ⟨hj, by simpa using hb, h⟩

theorem withTail_eq (hj : n ≠ j) (htail : isTail (str.getD j 0) = true) :
    withTail str n j d = d := by
  rw [withTail, if_neg hj, htail]
  rfl

theorem Accepted.pos {v : ℕ} (h : Accepted str v k) : 0 < k := by
  cases h <;> decide

/-- What is accepted is the null character, or a character in the first bytes,
all of them within the length. -/
theorem mbrtoc32_char_cases (h : mbrtoc32 str n = .char c k) :
    (k = 0 ∧ str.getD 0 0 = 0 ∧ c = 0) ∨ (Accepted str c.toNat k ∧ k ≤ n) := by
  by_cases hn : n = 0
  · rw [mbrtoc32, if_pos hn] at h
    cases h
  rcases lt_or_ge (str.getD 0 0).toNat 0x80 with h1 | h1
  · rw [mbrtoc32_one hn h1] at h
    obtain ⟨rfl, rfl⟩ := h
    by_cases hzero : str.getD 0 0 = 0
    · left
      rw [hzero]
      exact ⟨rfl, rfl, rfl⟩
    · right
      rw [if_neg hzero]
      refine ⟨.one ?_ h1, by omega⟩
      exact Nat.pos_of_ne_zero fun h0 => hzero (eq_of_toNat_eq h0)
  right
  rcases Nat.lt_or_ge (str.getD 0 0).toNat 0xC0 with h2 | h2
  · rw [mbrtoc32_other hn (Or.inl ⟨h1, h2⟩)] at h
    cases h
  rcases lt_or_ge (str.getD 0 0).toNat 0xE0 with h3 | h3
  · rw [mbrtoc32_two hn ⟨h2, h3⟩] at h
    obtain ⟨hn1, hsecond, h⟩ := tail_of_char h
    obtain ⟨rfl, rfl⟩ := Decoded.char.inj h
    rw [toNat_two]
    exact ⟨.two h2 h3 hsecond, by omega⟩
  rcases lt_or_ge (str.getD 0 0).toNat 0xF0 with h4 | h4
  · rw [mbrtoc32_three hn ⟨h3, h4⟩] at h
    obtain ⟨hn1, hsecond, h⟩ := tail_of_char h
    obtain ⟨hn2, hthird, h⟩ := tail_of_char h
    obtain ⟨rfl, rfl⟩ := Decoded.char.inj h
    rw [toNat_three]
    exact ⟨.three h3 h4 hsecond hthird, by omega⟩
  rcases lt_or_ge (str.getD 0 0).toNat 0xF8 with h5 | h5
  · rw [mbrtoc32_four hn ⟨h4, h5⟩] at h
    obtain ⟨hn1, hsecond, h⟩ := tail_of_char h
    obtain ⟨hn2, hthird, h⟩ := tail_of_char h
    obtain ⟨hn3, hfourth, h⟩ := tail_of_char h
    obtain ⟨rfl, rfl⟩ := Decoded.char.inj h
    rw [toNat_four]
    exact ⟨.four h4 h5 hsecond hthird hfourth, by omega⟩
  · rw [mbrtoc32_other hn (Or.inr h5)] at h
    cases h

/-- Only the null character takes up no bytes. -/
theorem used_pos (h : mbrtoc32 str n = .char c k) (hc : c ≠ 0) : 0 < k := by
  rcases mbrtoc32_char_cases h with ⟨-, -, hzero⟩ | ⟨haccepted, -⟩
  · exact absurd hzero hc
  · exact haccepted.pos

theorem mbrtoc32_of_accepted (h : Accepted str c.toNat k) (hk : k ≤ n) :
    mbrtoc32 str n = .char c k := by
  generalize hv : c.toNat = v at h
  cases h with
  | one hpos hlt =>
    have hfirst : str.getD 0 0 ≠ 0 := fun hzero => by
      rw [hzero] at hpos
      exact absurd hpos (lt_irrefl 0)
    rw [mbrtoc32_one (by omega) hlt, if_neg hfirst, Decoded.char.injEq]
    exact ⟨eq_of_toNat_eq (toNat_first.trans hv.symm), rfl⟩
  | two hlo hhi hsecond =>
    rw [mbrtoc32_two (by omega) ⟨hlo, hhi⟩, withTail_eq (by omega) hsecond]
    exact congrArg (Decoded.char · 2) (eq_of_toNat_eq ((toNat_two _ _).trans hv.symm))
  | three hlo hhi hsecond hthird =>
    rw [mbrtoc32_three (by omega) ⟨hlo, hhi⟩, withTail_eq (by omega) hsecond,
      withTail_eq (by omega) hthird]
    exact congrArg (Decoded.char · 3) (eq_of_toNat_eq ((toNat_three _ _ _).trans hv.symm))
  | four hlo hhi hsecond hthird hfourth =>
    rw [mbrtoc32_four (by omega) ⟨hlo, hhi⟩, withTail_eq (by omega) hsecond,
      withTail_eq (by omega) hthird, withTail_eq (by omega) hfourth]
    exact congrArg (Decoded.char · 4) (eq_of_toNat_eq ((toNat_four _ _ _ _).trans hv.symm))

end Classes

theorem toNat_tailByte (x : ℕ) : (tailByte x).toNat = 0x80 + x % 64 := by
  rw [tailByte, toNat_ofNat, mod_eq_of_lt (by omega)]

theorem toNat_leadByte {mark x : ℕ} (h : mark + x < 256) : (leadByte mark x).toNat = mark + x := by
  rw [leadByte, toNat_ofNat, mod_eq_of_lt h]

theorem isTail_tailByte (x : ℕ) : isTail (tailByte x) = true := by
  rw [isTail_iff, toNat_tailByte]
  omega

theorem Accepted.of_eq {str : List Byte} {v c k : ℕ} (h : Accepted str v k) (hv : v = c) :
    Accepted str c k := hv ▸ h

/-- The decoder takes what the encoder has made, whatever follows it. -/
theorem accepted_encode {c : ℕ} (hpos : 0 < c) (hc : c ≤ 0x10FFFF) (rest : List Byte) :
    Accepted (encode c ++ rest) c (encode c).length := by
  have hlast := toNat_tailByte c
  have hnext := toNat_tailByte (c / 64)
  unfold encode
  split_ifs with h1 h2 h3
  · have hfirst : (BitVec.ofNat 8 c).toNat = c := by
      rw [toNat_ofNat, mod_eq_of_lt (by omega)]
    refine Accepted.of_eq (.one ?_ ?_) hfirst
    · show 0 < (BitVec.ofNat 8 c).toNat
      omega
    · show (BitVec.ofNat 8 c).toNat < 0x80
      omega
  · have hfirst := toNat_leadByte (show 0xC0 + c / 64 < 256 by omega)
    refine Accepted.of_eq (.two ?_ ?_ (isTail_tailByte _)) ?_
    all_goals
      simp
      omega
  · have hfirst := toNat_leadByte (show 0xE0 + c / 64 ^ 2 < 256 by omega)
    refine Accepted.of_eq (.three ?_ ?_ (isTail_tailByte _) (isTail_tailByte _)) ?_
    all_goals
      simp only [List.cons_append, List.getD_cons_zero, List.getD_cons_succ]
      omega
  · have hfirst := toNat_leadByte (show 0xF0 + c / 64 ^ 3 < 256 by omega)
    have hsecond := toNat_tailByte (c / 64 ^ 2)
    refine Accepted.of_eq (.four ?_ ?_ (isTail_tailByte _) (isTail_tailByte _)
      (isTail_tailByte _)) ?_
    all_goals
      simp only [List.cons_append, List.getD_cons_zero, List.getD_cons_succ]
      omega

end Hzlibc.Utf8
