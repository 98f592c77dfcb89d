import Hzlibc.Wchar.Utf8
import Mathlib.Data.BitVec

/-!
`wcstombs`, `wcsrtombs`, `mbsrtowcs` and `mbstowcs`.

The destination is what the call stores in it; `dest` tells whether it is
there at all. Sizes are those of a `size_t` with 64 bits.
-/

namespace Hzlibc.Utf8

open List

open Stdio (Byte Wchar)

def sizeMax : ℕ := 2 ^ 64 - 1

/-- What a conversion returns, nothing standing for -1, and what it stores. -/
structure Converted (α : Type) where
  ret : Option ℕ
  stored : List α
  deriving DecidableEq

/-- The same, with something stored first. -/
def Converted.after {α : Type} (first : List α) (r : Converted α) : Converted α :=
  { r with stored := first ++ r.stored }

/-! ### From wide characters -/

/-- The loop of `wcstombs`; the terminating null character is converted as
well. -/
def wcstombsLoop (dest : Bool) (src : List Wchar) (len size : ℕ) : Converted Byte :=
  match wcrtomb (src.headD 0) with
  | none => ⟨none, []⟩
  | some buf =>
    if buf.length > len then ⟨some size, []⟩
    else
      let stored := if dest then buf else []
      match src with
      | [] => ⟨some (size + buf.length - 1), stored⟩
      | wc :: rest =>
        if wc = 0 then ⟨some (size + buf.length - 1), stored⟩
        else
          (wcstombsLoop dest rest (len - buf.length) (size + buf.length)).after stored

def wcstombs (dest : Bool) (src : List Wchar) (len : ℕ) : Converted Byte :=
  wcstombsLoop dest src (if dest then len else sizeMax) 0

/-- The loop of `wcsrtombs`, with the pointer it leaves in `*src`. -/
def wcsrtombsLoop (dest : Bool) (src : List Wchar) (len size : ℕ) :
    Converted Byte × Option (List Wchar) :=
  match wcrtomb (src.headD 0) with
  | none => (⟨none, []⟩, some src)
  | some buf =>
    if buf.length > len then (⟨some size, []⟩, some src)
    else
      let stored := if dest then buf else []
      match src with
      | [] => (⟨some (size + buf.length - 1), stored⟩, none)
      | wc :: rest =>
        if wc = 0 then (⟨some (size + buf.length - 1), stored⟩, none)
        else
          let r := wcsrtombsLoop dest rest (len - buf.length) (size + buf.length)
          (r.1.after stored, r.2)

def wcsrtombs (dest : Bool) (src : List Wchar) (len : ℕ) : Converted Byte × Option (List Wchar) :=
  wcsrtombsLoop dest src (if dest then len else sizeMax) 0

theorem wcstombs_eq (dest : Bool) (src : List Wchar) (len : ℕ) :
    wcstombs dest src len = (wcsrtombs dest src len).1 := by
  have hloop : ∀ len size, wcstombsLoop dest src len size =
      (wcsrtombsLoop dest src len size).1 := by
    induction src with
    | nil | cons wc rest ih => grind [wcstombsLoop, wcsrtombsLoop]
  exact hloop _ _

/-! ### To wide characters -/

/-- What `mbsnrtowcs` returns and stores, and the pointer it leaves in `*src`. -/
structure Scanned extends Converted Wchar where
  src : Option (List Byte)

def Scanned.after (first : List Wchar) (r : Scanned) : Scanned :=
  { r with stored := first ++ r.stored }

def mbsnrtowcsLoop (dest : Bool) (numChars len : ℕ) (src : List Byte) (i written : ℕ) :
    Scanned :=
  if i < numChars then
    match hchar : mbrtoc32 src (numChars - i) with
    | .invalid => ⟨⟨none, []⟩, some src⟩
    | .incomplete => ⟨⟨some written, []⟩, some src⟩
    | .char buf used =>
      if dest && written + 1 > len then ⟨⟨some written, []⟩, some src⟩
      else
        let stored := if dest then [buf] else []
        if hbuf : buf = 0 then ⟨⟨some written, stored⟩, none⟩
        else
          have : 0 < used := used_pos hchar hbuf
          (mbsnrtowcsLoop dest numChars len (src.drop used) (i + used) (written + 1)).after stored
  else ⟨⟨some written, []⟩, some src⟩
termination_by numChars - i

def mbsnrtowcs (dest : Bool) (src : List Byte) (numChars len : ℕ) : Scanned :=
  mbsnrtowcsLoop dest numChars len src 0 0

def mbsrtowcs (dest : Bool) (src : List Byte) (len : ℕ) : Scanned :=
  mbsnrtowcs dest src sizeMax len

def mbstowcs (dest : Bool) (src : List Byte) (len : ℕ) : Converted Wchar :=
  (mbsrtowcs dest src len).toConverted

/-! ### The round trip -/

/-- The bytes of all the characters, without the terminating null. -/
def multibyte (ws : List Wchar) : List Byte := ws.flatMap fun wc => (wcrtomb wc).getD []

theorem multibyte_cons {wc : Wchar} (hwc : wc.toNat ≤ 0x10FFFF) (ws : List Wchar) :
    multibyte (wc :: ws) = encode wc.toNat ++ multibyte ws := by
  rw [multibyte, flatMap_cons, wcrtomb_eq_encode hwc]
  rfl

theorem ne_zero_of_pos {wc : Wchar} (h : 0 < wc.toNat) : wc ≠ 0 := by
  rintro rfl
  exact absurd h (Nat.lt_irrefl 0)

theorem wcsrtombsLoop_multibyte (dest : Bool) {ws : List Wchar}
    (hws : ∀ wc ∈ ws, 0 < wc.toNat ∧ wc.toNat ≤ 0x10FFFF) {len : ℕ} (size : ℕ)
    (hlen : (multibyte ws).length < len) :
    wcsrtombsLoop dest ws len size =
      (⟨some (size + (multibyte ws).length), if dest then multibyte ws ++ [0] else []⟩, none) := by
  induction ws generalizing len size with
  | nil =>
    exact if_neg (Nat.not_lt.mpr hlen)
  | cons wc ws ih =>
    obtain ⟨hpos, hwc⟩ := hws wc mem_cons_self
    rw [multibyte_cons hwc, length_append] at hlen ⊢
    rw [wcsrtombsLoop, headD_cons, wcrtomb_eq_encode hwc]
    dsimp only
    rw [if_neg (by omega), if_neg (ne_zero_of_pos hpos),
      ih (fun wc hmem => hws wc (mem_cons_of_mem _ hmem)) _ (by omega), Converted.after]
    cases dest <;> simp [Nat.add_assoc]

section Steps

variable {dest : Bool} {numChars len i written used : ℕ} {src : List Byte} {buf : Wchar}

theorem mbsnrtowcsLoop_step (hi : i < numChars)
    (hchar : mbrtoc32 src (numChars - i) = .char buf used) :
    mbsnrtowcsLoop dest numChars len src i written =
      if dest ∧ len ≤ written then ⟨⟨some written, []⟩, some src⟩
      else if buf = 0 then ⟨⟨some written, if dest then [buf] else []⟩, none⟩
      else
        (mbsnrtowcsLoop dest numChars len (src.drop used) (i + used) (written + 1)).after
          (if dest then [buf] else []) := by
  have hfull : (dest && decide (written + 1 > len)) = true ↔ dest ∧ len ≤ written := by
    rw [Bool.and_eq_true, decide_eq_true_eq, gt_iff_lt, Nat.lt_succ_iff]
  rw [mbsnrtowcsLoop, if_pos hi]
  split
  · rename_i heq
    exact absurd (heq.symm.trans hchar) (by simp)
  · rename_i heq
    exact absurd (heq.symm.trans hchar) (by simp)
  · rename_i buf' used' heq
    obtain ⟨rfl, rfl⟩ := Decoded.char.inj (heq.symm.trans hchar)
    simp only [hfull, dite_eq_ite]

theorem mbsnrtowcsLoop_invalid (hi : i < numChars)
    (hchar : mbrtoc32 src (numChars - i) = .invalid) :
    mbsnrtowcsLoop dest numChars len src i written = ⟨⟨none, []⟩, some src⟩ := by
  rw [mbsnrtowcsLoop, if_pos hi]
  split
  · rfl
  all_goals
    rename_i heq
    exact absurd (heq.symm.trans hchar) (by simp)

theorem mbrtoc32_nul {n : ℕ} (hn : n ≠ 0) (hnul : src.getD 0 0 = 0) :
    mbrtoc32 src n = .char 0 0 := by
  rw [mbrtoc32_one hn (by rw [hnul]; decide), hnul]
  rfl

end Steps

/-- The conversion of valid characters, which ends before the terminating null
if there is no room for it. -/
theorem mbsnrtowcsLoop_multibyte (dest : Bool) {ws : List Wchar}
    (hws : ∀ wc ∈ ws, 0 < wc.toNat ∧ wc.toNat ≤ 0x10FFFF) {numChars len i written : ℕ}
    (hchars : i + (multibyte ws).length < numChars) (hlen : dest → written + ws.length ≤ len) :
    mbsnrtowcsLoop dest numChars len (multibyte ws ++ [0]) i written =
      if dest ∧ len ≤ written + ws.length then ⟨⟨some (written + ws.length), ws⟩, some [0]⟩
      else ⟨⟨some (written + ws.length), if dest then ws ++ [0] else []⟩, none⟩ := by
  induction ws generalizing i written with
  | nil =>
    have hi : i < numChars := hchars
    rw [mbsnrtowcsLoop_step hi (mbrtoc32_nul (by omega) rfl)]
    rfl
  | cons wc ws ih =>
    obtain ⟨hpos, hwc⟩ := hws wc mem_cons_self
    rw [multibyte_cons hwc, length_append] at hchars
    rw [multibyte_cons hwc, append_assoc]
    rw [length_cons] at hlen ⊢
    have hchar := mbrtoc32_of_accepted (accepted_encode hpos hwc (multibyte ws ++ [0]))
      (show (encode wc.toNat).length ≤ numChars - i by omega)
    have hloop := ih (fun wc hmem => hws wc (mem_cons_of_mem _ hmem))
      (show i + (encode wc.toNat).length + (multibyte ws).length < numChars by omega)
      (fun hdest => show written + 1 + ws.length ≤ len by have := hlen hdest; omega)
    rw [Nat.add_right_comm] at hloop
    rw [mbsnrtowcsLoop_step (by omega) hchar, if_neg fun ⟨hdest, _⟩ => by have := hlen hdest; omega,
      if_neg (ne_zero_of_pos hpos), drop_left, hloop, Nat.add_assoc]
    cases dest with
    | false => rfl
    | true => exact apply_ite (Scanned.after [wc]) _ _ _

/-- Converting to bytes and back gives the same characters. -/
theorem mbstowcs_wcstombs (ws : List Wchar)
    (hws : ∀ wc ∈ ws, 0 < wc.toNat ∧ wc.toNat ≤ 0x10FFFF) (len len' : ℕ)
    (hlen : (multibyte ws).length < len) (hmax : len ≤ sizeMax) (hlen' : ws.length ≤ len') :
    let mb := wcstombs true ws len
    mb.ret = some (multibyte ws).length ∧ mb.stored = multibyte ws ++ [0] ∧
      (mbstowcs true mb.stored len').ret = some ws.length ∧
      (mbstowcs true mb.stored len').stored.take ws.length = ws := by
  have hmb : wcstombs true ws len = ⟨some (multibyte ws).length, multibyte ws ++ [0]⟩ := by
    rw [wcstombs_eq, wcsrtombs, if_pos rfl, wcsrtombsLoop_multibyte true hws 0 hlen, Nat.zero_add]
    rfl
  have hloop := mbsnrtowcsLoop_multibyte true hws
    (show 0 + (multibyte ws).length < sizeMax by omega)
    (fun _ => show 0 + ws.length ≤ len' by omega)
  dsimp only
  rw [hmb, mbstowcs, mbsrtowcs, mbsnrtowcs, hloop, Nat.zero_add]
  split
  · exact ⟨rfl, rfl, rfl, take_length⟩
  · exact ⟨rfl, rfl, rfl, take_left⟩

theorem mbstowcs_wcstombs_threeWidths : let ws : List Wchar := [0xE9, 0x20AC, 0x1F600]
    (wcstombs true ws 10).ret = some 9 ∧
      (mbstowcs true (wcstombs true ws 10).stored 3).ret = some 3 ∧
      (mbstowcs true (wcstombs true ws 10).stored 3).stored.take 3 = ws := by
  obtain ⟨hret, -, hcount, hback⟩ := mbstowcs_wcstombs [0xE9, 0x20AC, 0x1F600] (by simp) 10 3
    (by decide) (by decide) (by decide)
  exact ⟨hret.trans (by decide), hcount, hback⟩

/-! ### Asking for the length -/

/-- A call without a destination gives the number of elements and leaves
`left` in `*src`; a call with room for them all stores them. -/
def QueriesLength {α β : Type} [Zero β]
    (convert : Bool → List α → ℕ → Converted β × Option (List α)) (src : List α)
    (out : List β) (left : Option (List α)) : Prop :=
  (∀ len, convert false src len = (⟨some out.length, []⟩, left)) ∧
    convert true src (out.length + 1) = (⟨some out.length, out ++ [0]⟩, none)

/-- The call without a destination never leaves the source as it was. -/
theorem queriesLength_null (ws : List Wchar)
    (hws : ∀ wc ∈ ws, 0 < wc.toNat ∧ wc.toNat ≤ 0x10FFFF) (hmax : (multibyte ws).length < sizeMax) :
    let convert dest src len := ((mbsrtowcs dest src len).toConverted, (mbsrtowcs dest src len).src)
    let mb := multibyte ws ++ [0]
    (QueriesLength convert mb ws none ∧ ¬ QueriesLength convert mb ws (some mb)) ∧
      QueriesLength wcsrtombs ws (multibyte ws) none ∧
      ¬ QueriesLength wcsrtombs ws (multibyte ws) (some ws) := by
  intro convert mb
  have hchars : 0 + (multibyte ws).length < sizeMax := by omega
  have hmb : QueriesLength convert mb ws none := by
    refine ⟨fun len => ?_, ?_⟩
    · have hquery : mbsrtowcs false mb len = _ :=
        mbsnrtowcsLoop_multibyte false hws hchars (fun h => by cases h)
      simp only [convert, hquery, Nat.zero_add]
      rfl
    · have hstore : mbsrtowcs true mb (ws.length + 1) = _ :=
        mbsnrtowcsLoop_multibyte true hws hchars (fun _ => by omega)
      rw [if_neg (by omega), Nat.zero_add] at hstore
      simp only [convert, hstore]
      rfl
  have hwc : QueriesLength wcsrtombs ws (multibyte ws) none := by
    refine ⟨fun len => ?_, ?_⟩
    · have hquery : wcsrtombs false ws len = _ := wcsrtombsLoop_multibyte false hws 0 hmax
      rw [hquery, Nat.zero_add]
      rfl
    · have hstore : wcsrtombs true ws ((multibyte ws).length + 1) = _ :=
        wcsrtombsLoop_multibyte true hws 0 (Nat.lt_succ_self _)
      rw [hstore, Nat.zero_add]
      rfl
  exact ⟨⟨hmb, fun h => by cases (h.1 0).symm.trans (hmb.1 0)⟩,
    hwc, fun h => by cases (h.1 0).symm.trans (hwc.1 0)⟩

theorem queriesLength_null_euro : ¬ QueriesLength wcsrtombs [0x20AC] [0xE2, 0x82, 0xAC]
    (some [0x20AC]) :=
  (queriesLength_null [0x20AC] (by simp) (by decide)).2.2

theorem wcsrtombs_clears_src : (wcsrtombs false [0x61] 0) = (⟨some 1, []⟩, none) := by decide

end Hzlibc.Utf8
