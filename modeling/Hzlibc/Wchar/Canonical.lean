import Hzlibc.Wchar.Conversion
import Mathlib.Data.List.GetD

/-!
Which byte sequences the decoder takes that the encoder does not make.

The decoder checks that a lead byte is followed by enough tail bytes, but not
that the character needs that many bytes, nor that it is a code point at all.
-/

namespace Hzlibc.Utf8

open List Nat

open Stdio (Byte Wchar)

/-- What is decoded is a code point, and its encoding is what was read; and
only a null byte is decoded to a length of zero. -/
def DecodesCanonically (str : List Byte) (n : ℕ) : Prop :=
  ∀ c k, mbrtoc32 str n = .char c k →
    (0 < k → c.toNat ≤ 0x10FFFF ∧ wcrtomb c = some (str.take k)) ∧ (k = 0 → str.getD 0 0 = 0)

/-- A lead byte, with the byte behind it, of a character that has a shorter
form or is no code point. -/
def BadLead (first second : ℕ) : Prop :=
  first = 0xC0 ∨ first = 0xC1 ∨ (first = 0xE0 ∧ second < 0xA0) ∨ (first = 0xF0 ∧ second < 0x90) ∨
    (first = 0xF4 ∧ 0x90 ≤ second) ∨ (0xF5 ≤ first ∧ first ≤ 0xF7)

/-- The number of bytes a lead byte announces. -/
def width (first : ℕ) : ℕ := if first < 0xE0 then 2 else if first < 0xF0 then 3 else 4

/-- The string starts with such a lead byte and all of its tail bytes. -/
def NonCanonical (str : List Byte) (n : ℕ) : Prop :=
  BadLead (str.getD 0 0).toNat (str.getD 1 0).toNat ∧ width (str.getD 0 0).toNat ≤ n ∧
    ∀ i, 0 < i → i < width (str.getD 0 0).toNat → isTail (str.getD i 0) = true

/-! ### Characters -/

section Characters

variable {str : List Byte} {v k n : ℕ} {b : Byte}

theorem ne_zero_of_isTail (h : isTail b = true) : b ≠ 0 := by
  rintro rfl
  exact absurd h (by decide)

theorem ne_zero_of_toNat {m : ℕ} (hpos : 0 < m) (h : m ≤ b.toNat) : b ≠ 0 := by
  rintro rfl
  exact absurd (lt_of_lt_of_le hpos h) (lt_irrefl 0)

theorem accepted_of_nonCanonical (h : NonCanonical str n) :
    ∃ v, Accepted str v (width (str.getD 0 0).toNat) := by
  obtain ⟨hbad, -, htail⟩ := h
  have hrange : 0xC0 ≤ (str.getD 0 0).toNat ∧ (str.getD 0 0).toNat < 0xF8 := by
    unfold BadLead at hbad
    omega
  unfold width at htail ⊢
  split_ifs at htail ⊢ with h2 h3
  · exact ⟨_, .two hrange.1 h2 (htail 1 (by decide) (by decide))⟩
  · exact ⟨_, .three (by omega) h3 (htail 1 (by decide) (by decide))
      (htail 2 (by decide) (by decide))⟩
  · exact ⟨_, .four (by omega) hrange.2 (htail 1 (by decide) (by decide))
      (htail 2 (by decide) (by decide)) (htail 3 (by decide) (by decide))⟩

theorem length_encode_le {c : ℕ} :
    (c < 0x80 → (encode c).length = 1) ∧ (c < 0x800 → (encode c).length ≤ 2) ∧
      (c < 0x10000 → (encode c).length ≤ 3) := by
  unfold encode
  split_ifs <;> simp <;> omega

theorem leadByte_eq {mark x : ℕ} (h : b.toNat = mark + x) : leadByte mark x = b := by
  rw [leadByte, ← h, BitVec.ofNat_toNat, BitVec.setWidth_eq]

theorem tailByte_eq {x : ℕ} (h : b.toNat = 0x80 + x % 64) : tailByte x = b :=
  leadByte_eq h

section

variable (h : Accepted str v k)
include h

theorem Accepted.isTail : ∀ i, 0 < i → i < k → Utf8.isTail (str.getD i 0) = true := by
  intro i hpos hi
  cases h with
  | one => omega
  | two _ _ hsecond =>
    match i, hi with
    | 1, _ => exact hsecond
  | three _ _ hsecond hthird =>
    match i, hi with
    | 1, _ => exact hsecond
    | 2, _ => exact hthird
  | four _ _ hsecond hthird hfourth =>
    match i, hi with
    | 1, _ => exact hsecond
    | 2, _ => exact hthird
    | 3, _ => exact hfourth

theorem Accepted.getD_ne_zero : ∀ i < k, str.getD i 0 ≠ 0 := by
  intro i hi
  cases i with
  | zero =>
    cases h with
    | one hlo | two hlo | three hlo | four hlo => exact ne_zero_of_toNat (by decide) hlo
  | succ i => exact ne_zero_of_isTail (h.isTail (i + 1) (succ_pos i) hi)

theorem Accepted.le_length : k ≤ str.length := by
  by_contra hshort
  apply h.getD_ne_zero (k - 1) (by omega)
  apply getD_eq_default
  omega

/-- A code point with a bad lead byte has a shorter encoding. -/
theorem Accepted.length_encode_lt
    (hbad : BadLead (str.getD 0 0).toNat (str.getD 1 0).toNat) (hv : v ≤ 0x10FFFF) :
    (encode v).length < k := by
  obtain ⟨hone, htwo, hthree⟩ := length_encode_le (c := v)
  unfold BadLead at hbad
  cases h with
  | one => omega
  | two hlo hhi hsecond =>
    rw [hone (by omega)]
    decide
  | three hlo hhi hsecond hthird =>
    rw [isTail_iff] at hsecond
    exact lt_succ_of_le (htwo (by omega))
  | four hlo hhi hsecond hthird hfourth =>
    rw [isTail_iff] at hsecond
    exact lt_succ_of_le (hthree (by omega))

/-- Without a bad lead byte, the bytes are those the encoder makes. -/
theorem Accepted.canonical (hgood : ¬ BadLead (str.getD 0 0).toNat (str.getD 1 0).toNat) :
    v ≤ 0x10FFFF ∧ encode v = str.take k := by
  have hlength := h.le_length
  unfold BadLead at hgood
  cases h with
  | one hpos hlt =>
    match str, hlength with
    | f :: rest, _ =>
      have hlt : f.toNat < 0x80 := hlt
      refine ⟨by omega, ?_⟩
      show encode f.toNat = [f]
      rw [encode, if_pos hlt, BitVec.ofNat_toNat, BitVec.setWidth_eq]
  | two hlo hhi hsecond =>
    match str, hlength with
    | f :: s :: rest, _ =>
      rw [isTail_iff] at hsecond
      simp only [getD_cons_zero, getD_cons_succ] at *
      refine ⟨by omega, ?_⟩
      rw [encode, if_neg (by omega), if_pos (by omega), leadByte_eq (b := f) (by omega),
        tailByte_eq (b := s) (by omega)]
      rfl
  | three hlo hhi hsecond hthird =>
    match str, hlength with
    | f :: s :: u :: rest, _ =>
      rw [isTail_iff] at hsecond hthird
      simp only [getD_cons_zero, getD_cons_succ] at *
      refine ⟨by omega, ?_⟩
      rw [encode, if_neg (by omega), if_neg (by omega), if_pos (by omega),
        leadByte_eq (b := f) (by omega), tailByte_eq (b := s) (by omega),
        tailByte_eq (b := u) (by omega)]
      rfl
  | four hlo hhi hsecond hthird hfourth =>
    match str, hlength with
    | f :: s :: u :: x :: rest, _ =>
      rw [isTail_iff] at hsecond hthird hfourth
      simp only [getD_cons_zero, getD_cons_succ] at *
      refine ⟨by omega, ?_⟩
      rw [encode, if_neg (by omega), if_neg (by omega), if_neg (by omega),
        leadByte_eq (b := f) (by omega), tailByte_eq (b := s) (by omega),
        tailByte_eq (b := u) (by omega), tailByte_eq (b := x) (by omega)]
      rfl

theorem Accepted.width_eq (hbad : BadLead (str.getD 0 0).toNat (str.getD 1 0).toNat) :
    k = width (str.getD 0 0).toNat := by
  unfold BadLead at hbad
  unfold width
  cases h with
  | one => omega
  | two hlo hhi => rw [if_pos hhi]
  | three hlo hhi => rw [if_neg (by omega), if_pos hhi]
  | four hlo hhi => rw [if_neg (by omega), if_neg (by omega)]

theorem Accepted.lt_two_pow : v < 2 ^ 32 := by
  cases h <;> omega

theorem Accepted.nonCanonical (hk : k ≤ n)
    (hbad : BadLead (str.getD 0 0).toNat (str.getD 1 0).toNat) : NonCanonical str n := by
  have hwidth := h.width_eq hbad
  refine ⟨hbad, hwidth ▸ hk, ?_⟩
  rw [← hwidth]
  exact h.isTail

end

theorem decodesCanonically_iff (str : List Byte) (n : ℕ) :
    DecodesCanonically str n ↔ ¬ NonCanonical str n := by
  constructor
  · intro h hnon
    obtain ⟨v, haccepted⟩ := accepted_of_nonCanonical hnon
    have hv : (BitVec.ofNat 32 v).toNat = v := by
      rw [BitVec.toNat_ofNat, mod_eq_of_lt haccepted.lt_two_pow]
    have hchar := mbrtoc32_of_accepted (c := BitVec.ofNat 32 v) (by rwa [hv]) hnon.2.1
    obtain ⟨hle, hencode⟩ := (h _ _ hchar).1 haccepted.pos
    rw [wcrtomb_eq_encode hle, Option.some.injEq, hv] at hencode
    rw [hv] at hle
    have hshort := haccepted.length_encode_lt hnon.1 hle
    rw [hencode, length_take_of_le haccepted.le_length] at hshort
    exact lt_irrefl _ hshort
  · intro h c k hchar
    rcases mbrtoc32_char_cases hchar with ⟨rfl, hzero, -⟩ | ⟨haccepted, hk⟩
    · exact ⟨fun hpos => absurd hpos (lt_irrefl 0), fun _ => hzero⟩
    · have hpos := haccepted.pos
      obtain ⟨hc, hencode⟩ := haccepted.canonical fun hbad => h (haccepted.nonCanonical hk hbad)
      refine ⟨fun _ => ⟨hc, ?_⟩, fun hzero => by omega⟩
      rw [wcrtomb_eq_encode hc, hencode]

theorem tail_of_incomplete {j : ℕ} {d : Decoded} (h : withTail str n j d = .incomplete) :
    n = j ∨ (Utf8.isTail (str.getD j 0) = true ∧ d = .incomplete) := by
  unfold withTail at h
  split_ifs at h with hj hb
  · exact Or.inl hj
  · exact Or.inr ⟨by simpa using hb, h⟩

/-- A character that is cut off by the length: a lead byte and some of its tail bytes. -/
theorem tails_of_incomplete (hn : n ≠ 0) (h : mbrtoc32 str n = .incomplete) :
    0xC0 ≤ (str.getD 0 0).toNat ∧ (n = 1 ∨ isTail (str.getD 1 0) = true ∧ (n = 2 ∨
      isTail (str.getD 2 0) = true ∧ n = 3)) := by
  have hlead : 0xC0 ≤ (str.getD 0 0).toNat ∧ (str.getD 0 0).toNat < 0xF8 := by
    by_contra hother
    rcases lt_or_ge (str.getD 0 0).toNat 0x80 with h1 | h1
    · rw [mbrtoc32_one hn h1] at h
      cases h
    · rw [mbrtoc32_other hn (by omega)] at h
      cases h
  refine ⟨hlead.1, ?_⟩
  rcases lt_or_ge (str.getD 0 0).toNat 0xE0 with h2 | h2
  · rw [mbrtoc32_two hn ⟨hlead.1, h2⟩] at h
    refine (tail_of_incomplete h).imp_right fun ⟨_, h⟩ => ?_
    cases h
  rcases lt_or_ge (str.getD 0 0).toNat 0xF0 with h3 | h3
  · rw [mbrtoc32_three hn ⟨h2, h3⟩] at h
    refine (tail_of_incomplete h).imp_right fun ⟨hsecond, h⟩ => ⟨hsecond, ?_⟩
    refine (tail_of_incomplete h).imp_right fun ⟨_, h⟩ => ?_
    cases h
  · rw [mbrtoc32_four hn ⟨h3, hlead.2⟩] at h
    refine (tail_of_incomplete h).imp_right fun ⟨hsecond, h⟩ => ⟨hsecond, ?_⟩
    refine (tail_of_incomplete h).imp_right fun ⟨hthird, h⟩ => ⟨hthird, ?_⟩
    exact (tail_of_incomplete h).resolve_right fun ⟨_, h⟩ => absurd h (by simp)

theorem getD_ne_zero_of_incomplete (h : mbrtoc32 str n = .incomplete) :
    ∀ i < n, str.getD i 0 ≠ 0 := by
  intro i hi
  obtain ⟨hlead, htails⟩ := tails_of_incomplete (by omega) h
  match i with
  | 0 => exact ne_zero_of_toNat (by decide) hlead
  | 1 => exact ne_zero_of_isTail (htails.resolve_left (by omega)).1
  | 2 => exact ne_zero_of_isTail ((htails.resolve_left (by omega)).2.resolve_left (by omega)).1
  | i + 3 => omega

end Characters

/-! ### Strings -/

/-- A row of complete sequences, and the characters they are taken for. -/
inductive Spells : List Byte → List Wchar → Prop
  | nil : Spells [] []
  | cons {seq s : List Byte} {c : Wchar} {ws : List Wchar}
      (haccepted : Accepted seq c.toNat seq.length) (hrest : Spells s ws) :
      Spells (seq ++ s) (c :: ws)

/-- The conversion of a string goes on to its terminating null byte: what it
has stored has been read from all of the string. -/
def EndsAtNul (s : List Byte) : Prop :=
  ∀ len r, (mbstowcs true (s ++ [0]) len).ret = some r → r < len →
    ∃ ws, Spells s ws ∧ (mbstowcs true (s ++ [0]) len).stored = ws ++ [0]

/-- The null character in more than one byte. -/
def overlongNuls : List (List Byte) :=
  [[0xC0, 0x80], [0xE0, 0x80, 0x80], [0xF0, 0x80, 0x80, 0x80]]

/-- An overlong null character comes after complete sequences of other characters. -/
def MeetsOverlongNul (s : List Byte) : Prop :=
  ∃ u ws z t, Spells u ws ∧ 0 ∉ ws ∧ z ∈ overlongNuls ∧ s = u ++ (z ++ t)

section Strings

variable {s str t u z : List Byte} {v k : ℕ} {ws : List Wchar}

/-- Only the bytes of the sequence matter. -/
theorem Accepted.congr (h : Accepted str v k) (heq : ∀ i < k, t.getD i 0 = str.getD i 0) :
    Accepted t v k := by
  cases h with
  | one hpos hlt =>
    rw [← heq 0 (by decide)] at hpos hlt ⊢
    exact .one hpos hlt
  | two hlo hhi hsecond =>
    rw [← heq 0 (by decide)] at hlo hhi ⊢
    rw [← heq 1 (by decide)] at hsecond ⊢
    exact .two hlo hhi hsecond
  | three hlo hhi hsecond hthird =>
    rw [← heq 0 (by decide)] at hlo hhi ⊢
    rw [← heq 1 (by decide)] at hsecond ⊢
    rw [← heq 2 (by decide)] at hthird ⊢
    exact .three hlo hhi hsecond hthird
  | four hlo hhi hsecond hthird hfourth =>
    rw [← heq 0 (by decide)] at hlo hhi ⊢
    rw [← heq 1 (by decide)] at hsecond ⊢
    rw [← heq 2 (by decide)] at hthird ⊢
    rw [← heq 3 (by decide)] at hfourth ⊢
    exact .four hlo hhi hsecond hthird hfourth

theorem Accepted.append (h : Accepted str v str.length) (t : List Byte) :
    Accepted (str ++ t) v str.length :=
  h.congr fun _ hi => getD_append _ _ _ _ hi

theorem getD_length_append (s : List Byte) : (s ++ [0]).getD s.length 0 = 0 := by
  rw [getD_append_right _ _ _ _ (Nat.le_refl _), Nat.sub_self]
  rfl

/-- A sequence at the start of a string is inside the string. -/
theorem Accepted.split (h : Accepted (s ++ [0]) v k) :
    ∃ seq rest, s = seq ++ rest ∧ seq.length = k ∧ Accepted seq v seq.length := by
  have hk : k ≤ s.length := by
    by_contra hlong
    exact h.getD_ne_zero s.length (by omega) (getD_length_append s)
  have hlength : (s.take k).length = k := length_take_of_le hk
  refine ⟨s.take k, s.drop k, (take_append_drop k s).symm, hlength, ?_⟩
  rw [hlength]
  refine h.congr fun i hi => ?_
  rw [← take_append_drop k s, append_assoc, take_append_drop,
    getD_append _ _ _ _ (by rwa [hlength])]

/-- The bytes say what the sequence is and where it ends. -/
theorem Accepted.unique {c c' : Wchar} {k' : ℕ} (h : Accepted str c.toNat k)
    (h' : Accepted str c'.toNat k') : c = c' ∧ k = k' := by
  have hchar := mbrtoc32_of_accepted h (Nat.le_max_left k k')
  rw [mbrtoc32_of_accepted h' (Nat.le_max_right k k')] at hchar
  exact (Decoded.char.inj hchar).imp Eq.symm Eq.symm

theorem accepted_overlongNul (h : z ∈ overlongNuls) : Accepted z (0 : Wchar).toNat z.length := by
  simp only [overlongNuls, mem_cons, not_mem_nil, or_false] at h
  obtain rfl | rfl | rfl := h
  · exact .two (by decide) (by decide) (by decide)
  · exact .three (by decide) (by decide) (by decide) (by decide)
  · exact .four (by decide) (by decide) (by decide) (by decide) (by decide)

theorem mem_overlongNuls (h : Accepted z v z.length) (hv : v = 0) : z ∈ overlongNuls := by
  have heq {b : Byte} (n : ℕ) (h : b.toNat = n) : b = BitVec.ofNat 8 n := by
    rw [← h, BitVec.ofNat_toNat, BitVec.setWidth_eq]
  generalize hlength : z.length = k at h
  cases h with
  | one => omega
  | two hlo hhi hsecond =>
    obtain ⟨f, s, rfl⟩ := length_eq_two.mp hlength
    rw [isTail_iff] at hsecond
    simp only [getD_cons_zero, getD_cons_succ] at hlo hhi hsecond hv
    rw [heq 0xC0 (b := f) (by omega), heq 0x80 (b := s) (by omega)]
    exact mem_cons_self
  | three hlo hhi hsecond hthird =>
    obtain ⟨f, s, u, rfl⟩ := length_eq_three.mp hlength
    rw [isTail_iff] at hsecond hthird
    simp only [getD_cons_zero, getD_cons_succ] at hlo hhi hsecond hthird hv
    rw [heq 0xE0 (b := f) (by omega), heq 0x80 (b := s) (by omega), heq 0x80 (b := u) (by omega)]
    exact mem_cons_of_mem _ mem_cons_self
  | four hlo hhi hsecond hthird hfourth =>
    obtain ⟨f, s, u, x, rfl⟩ := length_eq_four.mp hlength
    rw [isTail_iff] at hsecond hthird hfourth
    simp only [getD_cons_zero, getD_cons_succ] at hlo hhi hsecond hthird hfourth hv
    rw [heq 0xF0 (b := f) (by omega), heq 0x80 (b := s) (by omega), heq 0x80 (b := u) (by omega),
      heq 0x80 (b := x) (by omega)]
    exact mem_cons_of_mem _ (mem_cons_of_mem _ mem_cons_self)

theorem eq_nil_of_getD (hnul : 0 ∉ s) (h : (s ++ [0]).getD 0 0 = 0) : s = [] := by
  cases s with
  | nil => rfl
  | cons b s =>
    have hb : b = 0 := h
    exact absurd (hb ▸ mem_cons_self) hnul

variable {numChars len i written : ℕ}

/-- Without an overlong null character all of the string is read. -/
theorem mbsnrtowcsLoop_spells {r : ℕ} (hnul : 0 ∉ s) (hchars : i + s.length < numChars)
    (hmeets : ¬MeetsOverlongNul s)
    (hret : (mbsnrtowcsLoop true numChars len (s ++ [0]) i written).ret = some r)
    (hroom : r < len) :
    written ≤ r ∧ ∃ ws, Spells s ws ∧
      (mbsnrtowcsLoop true numChars len (s ++ [0]) i written).stored = ws ++ [0] := by
  induction hn : s.length using Nat.strongRecOn generalizing s i written with
  | ind n ih =>
    have hi : i < numChars := by omega
    cases hchar : mbrtoc32 (s ++ [0]) (numChars - i) with
    | invalid =>
      rw [mbsnrtowcsLoop_invalid hi hchar] at hret
      cases hret
    | incomplete =>
      exact absurd (getD_length_append s) (getD_ne_zero_of_incomplete hchar _ (by omega))
    | char buf used =>
      rw [mbsnrtowcsLoop_step hi hchar] at hret ⊢
      have hfull : ¬(true ∧ len ≤ written) := by
        intro hfull
        rw [if_pos hfull] at hret
        have : written = r := Option.some.inj hret
        omega
      rw [if_neg hfull] at hret ⊢
      rcases mbrtoc32_char_cases hchar with ⟨-, hzero, rfl⟩ | ⟨haccepted, -⟩
      · obtain rfl : written = r := Option.some.inj hret
        rw [eq_nil_of_getD hnul hzero]
        exact ⟨Nat.le_refl _, [], .nil, rfl⟩
      obtain ⟨seq, rest, rfl, rfl, hseq⟩ := haccepted.split
      have hbuf : buf ≠ 0 := by
        rintro rfl
        exact hmeets ⟨[], [], seq, rest, .nil, not_mem_nil, mem_overlongNuls hseq rfl, rfl⟩
      have hrest : ¬MeetsOverlongNul rest := by
        rintro ⟨u, ws, z, t, hu, hws, hz, rfl⟩
        refine hmeets ⟨seq ++ u, buf :: ws, z, t, .cons hseq hu, ?_, hz, (append_assoc ..).symm⟩
        simpa using ⟨hbuf.symm, hws⟩
      have hpos := haccepted.pos
      rw [length_append] at hn hchars
      rw [if_neg hbuf, append_assoc, drop_left] at hret ⊢
      obtain ⟨hle, ws, hws, hstored⟩ := ih rest.length (by omega)
        (fun hmem => hnul (mem_append_right _ hmem)) (by omega) hrest hret rfl
      exact ⟨by omega, buf :: ws, .cons hseq hws, congrArg (buf :: ·) hstored⟩

/-- An overlong null character ends the conversion. -/
theorem mbsnrtowcsLoop_overlong (hu : Spells u ws) (hws : 0 ∉ ws) (hz : z ∈ overlongNuls)
    (hchars : i + (u.length + z.length) ≤ numChars) (hroom : written + ws.length < len) :
    mbsnrtowcsLoop true numChars len (u ++ (z ++ t)) i written =
      ⟨⟨some (written + ws.length), ws ++ [0]⟩, none⟩ := by
  induction hu generalizing i written with
  | nil =>
    have haccepted := accepted_overlongNul hz
    have hpos := haccepted.pos
    rw [length_nil, Nat.zero_add] at hchars
    rw [nil_append, mbsnrtowcsLoop_step (by omega)
      (mbrtoc32_of_accepted (haccepted.append t) (by omega)),
      if_neg fun h => by have := h.2; simp at hroom; omega]
    rfl
  | @cons seq s c ws haccepted _ ih =>
    have hpos := haccepted.pos
    rw [mem_cons, not_or] at hws
    rw [length_append] at hchars
    rw [length_cons] at hroom ⊢
    rw [append_assoc, mbsnrtowcsLoop_step (by omega)
      (mbrtoc32_of_accepted (haccepted.append _) (by omega)), if_neg fun h => by have := h.2; omega,
      if_neg (Ne.symm hws.1), drop_left, ih hws.2 (by omega) (by omega)]
    rw [Nat.add_assoc, Nat.add_comm 1]
    rfl

/-- What has been read before is not all of the string. -/
theorem Spells.not_append (h : Spells u ws) (hz : z ≠ []) : ¬Spells (u ++ (z ++ t)) ws := by
  induction h with
  | nil =>
    intro hall
    rw [nil_append] at hall
    generalize hs : z ++ t = s at hall
    cases hall
    exact hz (append_eq_nil_iff.mp hs).1
  | @cons seq s c ws haccepted _ ih =>
    intro hall
    generalize hs : seq ++ s ++ (z ++ t) = all at hall
    cases hall with
    | cons haccepted' hrest =>
      rw [append_assoc] at hs
      have hsame := haccepted.append (s ++ (z ++ t))
      rw [hs] at hsame
      obtain ⟨-, hlength⟩ := hsame.unique (haccepted'.append _)
      exact ih ((append_inj hs hlength).2 ▸ hrest)

theorem endsAtNul_iff (hnul : 0 ∉ s) (hlength : s.length < sizeMax) :
    EndsAtNul s ↔ ¬MeetsOverlongNul s := by
  constructor
  · rintro h ⟨u, ws, z, t, hu, hws, hz, rfl⟩
    have hloop : mbstowcs true (u ++ (z ++ (t ++ [0]))) (ws.length + 1) =
        ⟨some (0 + ws.length), ws ++ [0]⟩ := congrArg Scanned.toConverted
      (mbsnrtowcsLoop_overlong hu hws hz (by simp at hlength; omega) (by omega))
    have hends := h (ws.length + 1) (0 + ws.length)
    rw [append_assoc, append_assoc, hloop] at hends
    obtain ⟨ws', hall, heq⟩ := hends rfl (by omega)
    obtain rfl := append_inj_left' heq rfl
    exact hu.not_append (fun hnil => by simp [hnil, overlongNuls] at hz) hall
  · intro h len r hret hroom
    exact (mbsnrtowcsLoop_spells hnul (show 0 + s.length < sizeMax by omega) h hret hroom).2

end Strings

/-- The decoder takes canonical forms only, except where a bad lead byte is
followed by all of its tail bytes; and a string is converted up to its end
unless it comes to an overlong null character. -/
theorem mbrtoc32_canonical_iff (str : List Byte) (n : ℕ) :
    (DecodesCanonically str n ↔ ¬ NonCanonical str n) ∧
      ∀ s : List Byte, 0 ∉ s → s.length < sizeMax → (EndsAtNul s ↔ ¬MeetsOverlongNul s) :=
  ⟨decodesCanonically_iff str n, fun _ => endsAtNul_iff⟩

/-- A null character of two bytes, which ends a conversion. -/
theorem overlongNul_not_decodesCanonically : ¬ DecodesCanonically [0xC0, 0x80] 2 := by
  intro h
  have hchar : mbrtoc32 [0xC0, 0x80] 2 = .char 0 2 := by decide
  have hencode := ((h 0 2 hchar).1 (by decide)).2
  exact absurd hencode (by decide)

end Hzlibc.Utf8
