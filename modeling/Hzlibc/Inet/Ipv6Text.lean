import Hzlibc.Inet.Ipv6Grammar
import Hzlibc.Stdio.IntField

/-!
What `inet_ntop` writes for an IPv6 address, and what `inet_pton` makes of it.

The leading zero groups are written as `::`, all others in hexadecimal. The
parameter `dest` moves along with the text, and it is what is returned.
-/

namespace Hzlibc.Inet

open Stdio List
open BitVec hiding append_assoc intMax not_not not_or
open Separated (joined)

/-! ### The formats -/

section Formats

variable {F : Type} {hz : Hz} {ld : LongDouble F} {rounds : ℕ}

theorem none_ne_L : State.none ≠ .L := by decide

/-- The directive `%x` with a group as its argument. -/
def hexDirective (v : Word) : IntDirective where
  flags := []
  width := .absent
  precision := .absent
  state := .none
  isInt := none_ne_L
  conv := .x
  raw := (v.setWidth 32).setWidth 64

section

variable (v : Word)
include v

theorem args_hexDirective : (hexDirective v).args = [(.int (v.setWidth 32) : Arg F)] := by
  show [Arg.int (((v.setWidth 32).setWidth 64).setWidth 32)] = _
  rw [setWidth_setWidth_of_le _ (by decide), setWidth_eq]

theorem value_hexDirective :
    (hexDirective v).value = v.toNat ∧ (hexDirective v).passed = v.toNat := by
  constructor
  · show (((((v.setWidth 32).setWidth 64).setWidth 32).toNat : ℕ) : ℤ) = _
    simp
    omega
  · show (((((v.setWidth 32).setWidth 64).setWidth 32).setWidth 64).toNat : ℤ) = _
    simp
    omega

omit v in
def hexText (v : Word) : CString := spelled false 16 v.toNat

theorem hexText_ne_nil : hexText v ≠ [] := spelled_ne_nil false 16 v.toNat

theorem length_hexText : (hexText v).length ≤ 4 := by
  rw [hexText, spelled]
  split
  · decide
  · rw [length_map, length_reverse, Nat.digits_length_le_iff (by decide)]
    exact v.isLt

theorem fieldSign_hexDirective : (hexDirective v).fieldSign = [] := by
  have hsigned : (hexDirective v).conv.signed ≠ true := nofun
  rw [IntDirective.fieldSign, (value_hexDirective v).1, if_neg (by omega),
    if_neg fun h => hsigned h.1, if_neg fun h => hsigned h.1]

theorem field_hexDirective : (hexDirective v).field = hexText v := by
  have hvalue := (value_hexDirective v).1
  have hdigits : (hexDirective v).fieldDigits = hexText v := by
    rw [IntDirective.fieldDigits, hvalue, if_neg (by simp [IntDirective.digitCount, hexDirective,
      PrecisionText.number])]
    rfl
  have hlength : 1 - (hexText v).length = 0 :=
    Nat.sub_eq_zero_of_le (length_pos_of_ne_nil (hexText_ne_nil v))
  rw [IntDirective.field, fieldSign_hexDirective, IntDirective.fieldMarker,
    IntDirective.fieldZeros, hdigits]
  have hflags : (hexDirective v).flags = [] := rfl
  have hcount : (hexDirective v).digitCount = none := rfl
  have hwidth : (hexDirective v).fieldWidth = 0 := rfl
  rw [hflags, hcount, hwidth, Option.getD_none, hlength]
  simp [standardText, padded, layout]

theorem plain_hexDirective : (hexDirective v).Plain where
  value := (value_hexDirective v).2.trans (value_hexDirective v).1.symm
  unsigned := fun _ => ⟨not_mem_nil, not_mem_nil⟩
  space := fun h => absurd ((fieldSign_hexDirective v).symm.trans h) nofun
  zero := fun h => absurd h nofun
  octal := fun h => absurd h not_mem_nil
  octalZero := fun h => absurd h not_mem_nil
  hex := fun h => absurd h not_mem_nil

theorem emits_hex : Emits hz ld rounds (literal "%x") [.int (v.setWidth 32)] (hexText v) := by
  have hfield := IntDirective.emits_field_iff_plain hz ld rounds (hexDirective v)
  rw [field_hexDirective, args_hexDirective] at hfield
  refine hfield.mpr ⟨plain_hexDirective v, ?_⟩
  have hlength := length_hexText v
  rw [intMax]
  omega

/-- The same behind a colon. -/
theorem emits_colon_hex :
    Emits hz ld rounds (literal ":%x") [.int (v.setWidth 32)] (colon :: hexText v) := by
  have hlength := length_hexText v
  have hmax : intMax = 2147483647 := by decide
  have hfits : (hexDirective v).written.Fits :=
    IntDirective.fits (by rw [field_hexDirective]; omega)
  have hemits : Emits hz ld rounds (hexDirective v).written.render (hexDirective v).args
      (hexText v) := by
    rw [args_hexDirective]
    exact emits_hex v
  have hpieces := ((Written.emits_iff hfits
    ((hexDirective v).run_pieces ld rounds 0 [] none)).mp hemits).1
  have hcons : Emits hz ld rounds (colon :: (hexDirective v).written.render)
      (hexDirective v).args (colon :: _) :=
    Written.emits_cons (by decide) hfits ((hexDirective v).run_pieces ld rounds 1 [] none)
      (by rw [hpieces, length_cons]; omega)
  rw [hpieces, args_hexDirective] at hcons
  exact hcons

end

theorem emits_double : Emits hz ld rounds (literal "::") [] [colon, colon] :=
  ⟨⟨2, [], none⟩, rfl, rfl⟩

end Formats

/-! ### The buffer -/

/-- The memory with the text and its zero; nothing is written for an empty text. -/
def held (mem : ℕ → Byte) (text : CString) : ℕ → Byte :=
  if text = [] then mem else overwrite mem 0 (text ++ [0])

variable {more text : CString} {ws : List Word}

theorem overwrite_zero (mem : ℕ → Byte) (text : CString) (hmore : more ≠ []) :
    overwrite (overwrite mem 0 (text ++ [0])) text.length more =
      overwrite mem 0 (text ++ more) := by
  obtain ⟨c, more, rfl⟩ := exists_cons_of_ne_nil hmore
  have hlast : overwrite mem 0 (text ++ [0]) =
      overwrite (overwrite mem 0 text) text.length [0] := by
    rw [← overwrite_overwrite, Nat.zero_add]
  have hfirst (m : ℕ → Byte) : overwrite m text.length (c :: more) =
      overwrite (overwrite m text.length [c]) (text.length + 1) more :=
    (overwrite_overwrite m text.length [c] more).symm
  rw [hfirst, hlast, overwrite_same, ← hfirst, ← overwrite_overwrite, Nat.zero_add]

/-- A further text behind the one that is there. -/
theorem overwrite_held (mem : ℕ → Byte) (text : CString) (hmore : more ≠ []) :
    overwrite (held mem text) text.length (more ++ [0]) = held mem (text ++ more) := by
  have hheld : held mem (text ++ more) = overwrite mem 0 (text ++ more ++ [0]) :=
    if_neg (by simp [hmore])
  rw [hheld, held]
  by_cases htext : text = []
  · rw [htext]
    rfl
  · rw [if_neg htext, overwrite_zero mem text (by simp), append_assoc]

theorem overwrite_shift (mem : ℕ → Byte) (dest : ℕ) (str : List Byte) :
    (fun i => if i < dest then mem i
      else overwrite (fun i => mem (dest + i)) 0 str (i - dest)) = overwrite mem dest str := by
  funext i
  by_cases hi : i < dest
  · simp [overwrite, hi]
  · simp [overwrite, hi]
    rw [Nat.add_sub_cancel' (Nat.le_of_not_lt hi)]

section Print

variable {F : Type} {hz : Hz} {ld : LongDouble F} {rounds : ℕ} {mem : ℕ → Byte} {size : BitVec 32}

/-- The state of the function when the text is written. -/
def afterText (mem : ℕ → Byte) (size : BitVec 32) (text : CString) : Output :=
  ⟨held mem text, text.length, size - BitVec.ofNat 32 text.length⟩

theorem toNat_sub_ofNat {n : ℕ} (h : n ≤ size.toNat) :
    (size - BitVec.ofNat 32 n).toNat = size.toNat - n := by
  rw [BitVec.toNat_sub, BitVec.toNat_ofNat]
  omega

theorem snprintfAt_emits {fmt : CString} {args : List (Arg F)}
    (h : Emits hz ld rounds fmt args more) (hmore : more ≠ [])
    (hsize : (text ++ more).length < size.toNat) :
    snprintfAt hz ld rounds (afterText mem size text) fmt args =
      .ok (more.length, held mem (text ++ more)) := by
  obtain ⟨printed, hrun, hret⟩ := h
  rw [length_append] at hsize
  have hleft : (size - BitVec.ofNat 32 text.length).toNat = size.toNat - text.length :=
    toNat_sub_ofNat (by omega)
  rw [snprintfAt, vsnprintf_eq, hrun, afterText]
  dsimp only
  rw [if_neg (by omega), take_of_length_le (by omega), overwrite_shift,
    overwrite_held mem text hmore, hret]

/-- One further text. -/
theorem printAt_emits {fmt : CString} {args : List (Arg F)} (h : Emits hz ld rounds fmt args more)
    (hmore : more ≠ []) (hsize : (text ++ more).length < size.toNat) :
    printAt hz ld rounds (afterText mem size text) fmt args =
      .ok (afterText mem size (text ++ more)) := by
  have hdest : (((text.length : ℕ) : ℤ) + (more.length : ℤ)).toNat = (text ++ more).length := by
    rw [length_append]
    omega
  have hleft : size - BitVec.ofNat 32 text.length - BitVec.ofInt 32 (more.length : ℤ) =
      size - BitVec.ofNat 32 (text ++ more).length := by
    rw [length_append] at hsize ⊢
    have hfirst : (size - BitVec.ofNat 32 text.length).toNat = size.toNat - text.length :=
      toNat_sub_ofNat (by omega)
    apply eq_of_toNat_eq
    rw [ofInt_natCast, toNat_sub_ofNat (by omega), hfirst, toNat_sub_ofNat (by omega),
      Nat.sub_sub]
  rw [printAt, snprintfAt_emits h hmore hsize]
  show Except.ok (Output.mk _ _ _) = _
  rw [afterText, afterText]
  rw [hdest, hleft]

/-- A row of groups, the first of them perhaps without a colon. -/
def rowText : Bool → List Word → CString
  | _, [] => []
  | first, w :: ws =>
    (if first then [] else [colon]) ++ hexText (toNeFromBe w) ++ rowText false ws

theorem printGroups_eq {first : Bool} (hsize : (text ++ rowText first ws).length < size.toNat) :
    printGroups hz ld rounds first ws (afterText mem size text) =
      .ok (afterText mem size (text ++ rowText first ws)) := by
  induction ws generalizing first text with
  | nil =>
    rw [rowText, append_nil]
    rfl
  | cons w ws ih =>
    rw [rowText, ← append_assoc] at hsize ⊢
    have hprint : printAt hz ld rounds (afterText mem size text)
        (if first then literal "%x" else literal ":%x")
        [.int ((toNeFromBe w).setWidth 32)] = .ok (afterText mem size
          (text ++ ((if first then [] else [colon]) ++ hexText (toNeFromBe w)))) := by
      have hlt : (text ++ ((if first then [] else [colon]) ++
          hexText (toNeFromBe w))).length < size.toNat := by
        rw [length_append] at hsize
        omega
      cases first with
      | false => exact printAt_emits (emits_colon_hex _) (by simp) hlt
      | true => exact printAt_emits (emits_hex _) (hexText_ne_nil _) hlt
    rw [printGroups, hprint]
    exact ih hsize

theorem rowText_ne_nil (first : Bool) (h : ws ≠ []) : rowText first ws ≠ [] := by
  obtain ⟨w, ws, rfl⟩ := exists_cons_of_ne_nil h
  simp [rowText, hexText_ne_nil]

theorem rowText_false (h : ws ≠ []) : rowText false ws = colon :: rowText true ws := by
  obtain ⟨w, ws, rfl⟩ := exists_cons_of_ne_nil h
  rfl

theorem rowText_eq_joined (ws : List Word) :
    rowText true ws = joined colon (ws.map fun w => hexText (toNeFromBe w)) := by
  induction ws with
  | nil => rfl
  | cons w ws ih =>
    by_cases h : ws = []
    · rw [h, map_cons, map_nil, Separated.joined_singleton]
      simp [rowText]
    · rw [map_cons, Separated.joined_cons (by simpa using h), ← ih, rowText, rowText_false h]
      simp

/-! ### The text of an address -/

/-- The way in which the text that is written is read again. -/
def reading (addr : In6Addr) : Reading :=
  let zeroCount := (addr.words.takeWhile (· = 0)).length
  let groups := (addr.words.drop zeroCount).map fun w => hexText (toNeFromBe w)
  if zeroCount = 0 then .full groups else .compressed [] groups

theorem length_rowText (first : Bool) (ws : List Word) :
    (rowText first ws).length ≤ 5 * ws.length := by
  induction ws generalizing first with
  | nil => exact Nat.le_refl 0
  | cons w ws ih =>
    have hlength := length_hexText (toNeFromBe w)
    have hcolon : (if first then [] else [colon] : CString).length ≤ 1 := by
      cases first <;> decide
    have hrest := ih false
    rw [rowText, length_append, length_append, length_cons]
    omega

theorem text_reading (addr : In6Addr) :
    (reading addr).text =
      (if (addr.words.takeWhile (· = 0)).length ≠ 0 then literal "::" else []) ++
        rowText true (addr.words.drop (addr.words.takeWhile (· = 0)).length) := by
  rw [reading, rowText_eq_joined]
  by_cases hzero : (addr.words.takeWhile (· = 0)).length = 0
  · rw [if_pos hzero, if_neg (not_not.mpr hzero)]
    rfl
  · rw [if_neg hzero, if_pos hzero]
    rfl

theorem length_text_reading (addr : In6Addr) :
    0 < (reading addr).text.length ∧ (reading addr).text.length ≤ 45 := by
  have hlength := length_rowText true
    (addr.words.drop (addr.words.takeWhile (· = 0)).length)
  rw [length_drop, addr.length_words] at hlength
  rw [text_reading, length_append]
  split
  next hzero =>
    rw [show (literal "::").length = 2 from rfl]
    omega
  next hzero =>
    rw [not_not] at hzero
    rw [hzero] at hlength ⊢
    have hne : addr.words.drop 0 ≠ [] := by
      rw [drop_zero, ← length_pos_iff_ne_nil, addr.length_words]
      decide
    have hpos := length_pos_of_ne_nil (rowText_ne_nil true hne)
    rw [length_nil]
    omega

theorem printZeros_eq (zeroCount : ℕ) (hsize : 2 < size.toNat) :
    printZeros hz ld rounds zeroCount ⟨mem, 0, size⟩ =
      .ok (afterText mem size (if zeroCount ≠ 0 then literal "::" else [])) := by
  have hstart : (⟨mem, 0, size⟩ : Output) = afterText mem size [] := by
    simp [afterText, held]
  have hfits : (([] : CString) ++ [colon, colon]).length < size.toNat := hsize
  rw [printZeros, hstart]
  split
  · rw [snprintfAt_emits emits_double (by simp) hfits]
    simp only [afterText, length_nil, BitVec.ofNat_eq_ofNat, BitVec.sub_zero]
    rfl
  · rfl

/-- What `inet_ntop` does: the text is in the buffer, and the pointer is behind it. -/
theorem inetNtop6_eq (addr : In6Addr) (hsize : INET6_ADDRSTRLEN ≤ size.toNat) :
    inetNtop6 hz ld rounds addr mem size =
      .ok (some (reading addr).text.length, held mem (reading addr).text) := by
  have hlength := (length_text_reading addr).2
  rw [INET6_ADDRSTRLEN] at hsize
  have hfits : (reading addr).text.length < size.toNat := by omega
  rw [text_reading] at hfits ⊢
  rw [inetNtop6, if_neg (by rw [INET6_ADDRSTRLEN]; omega)]
  show (printZeros hz ld rounds _ _ >>= fun _ => _) = _
  rw [printZeros_eq _ (by omega)]
  show (printGroups hz ld rounds true _ _ >>= fun _ => _) = _
  rw [printGroups_eq hfits]
  rfl

end Print

/-! ### Reading the text again -/

theorem toNeFromBe_eq_iff (w : Word) : toNeFromBe w = w ↔ highByte w = lowByte w := by
  rw [← toNat_inj, ← toNat_inj, toNeFromBe, highByte, lowByte, toNat_ofNat,
    toNat_setWidth, toNat_setWidth, toNat_ushiftRight]
  omega

theorem isGroup_hexText (v : Word) : IsGroup (hexText v) :=
  ⟨⟨hexText_ne_nil v, isxdigit_spelled false (.inr (.inr rfl)) v.toNat⟩, length_hexText v⟩

theorem value_hexText (v : Word) : value (hexText v) = v := by
  rw [value, hexText, readDigits_spelled false (by decide) (by decide), ofNat_toNat,
    setWidth_eq]

section Again

variable (addr : In6Addr)

theorem groups_reading : (reading addr).groups =
    (addr.words.drop (addr.words.takeWhile (· = 0)).length).map fun w =>
      hexText (toNeFromBe w) := by
  rw [reading]
  by_cases hzero : (addr.words.takeWhile (· = 0)).length = 0
  · rw [if_pos hzero]
    rfl
  · rw [if_neg hzero]
    rfl

theorem valid_reading : (reading addr).Valid := by
  refine ⟨?_, ?_⟩
  · rw [groups_reading, forall_mem_map]
    exact fun w _ => isGroup_hexText _
  · rw [reading]
    by_cases hzero : (addr.words.takeWhile (· = 0)).length = 0
    · rw [if_pos hzero, Reading.RightCount, length_map, hzero, drop_zero, addr.length_words]
    · rw [if_neg hzero, Reading.RightCount, length_map, length_drop, addr.length_words, length_nil]
      omega

theorem expand_reading : (reading addr).expand value 0 = addr.words.map toNeFromBe := by
  have hmap : ∀ ws : List Word,
      (ws.map fun w => hexText (toNeFromBe w)).map value = ws.map toNeFromBe := by
    intro ws
    rw [map_map]
    exact map_congr_left fun w _ => value_hexText _
  have hzeros : (addr.words.take (addr.words.takeWhile (· = 0)).length).map toNeFromBe =
      List.replicate (addr.words.takeWhile (· = 0)).length 0 := by
    rw [← prefix_iff_eq_take.mp (List.takeWhile_prefix _), eq_replicate_iff]
    refine ⟨length_map _, ?_⟩
    rw [forall_mem_map]
    intro w hw
    have hzero : w = 0 := by simpa using mem_takeWhile_imp hw
    rw [hzero]
    decide
  have hle : (addr.words.takeWhile (· = 0)).length ≤ 8 := by
    rw [← addr.length_words]
    exact (takeWhile_sublist _).length_le
  rw [reading]
  by_cases hzero : (addr.words.takeWhile (· = 0)).length = 0
  · rw [if_pos hzero, Reading.expand, hmap, hzero, drop_zero]
  · have hcount : 8 - (([] : List CString).length +
        (8 - (addr.words.takeWhile (· = 0)).length)) = (addr.words.takeWhile (· = 0)).length := by
      rw [length_nil]
      omega
    rw [if_neg hzero, Reading.expand, hmap, length_map, length_drop, addr.length_words,
      hcount, ← hzeros, map_nil, nil_append, ← map_append, take_append_drop]

theorem reading_eq_double_iff : reading addr = .compressed [] [] ↔ ∀ w ∈ addr.words, w = 0 := by
  have hall : (∀ w ∈ addr.words, w = 0) ↔ addr.words.takeWhile (· = 0) = addr.words := by
    simp [takeWhile_eq_self_iff]
  have hprefix : addr.words.takeWhile (· = 0) <+: addr.words := takeWhile_prefix _
  rw [hall, reading]
  constructor
  · intro h
    split at h
    · cases h
    have hnil : addr.words.drop (addr.words.takeWhile (· = 0)).length = [] := by
      simpa using h
    have hle := List.drop_eq_nil_iff.mp hnil
    exact hprefix.eq_of_length (Nat.le_antisymm hprefix.length_le hle)
  · intro h
    rw [h, addr.length_words, if_neg (by decide), drop_eq_nil_of_le
      (Nat.le_of_eq addr.length_words), map_nil]

/-- The text is read as the address with the bytes of all groups exchanged, except for
`::` alone. -/
theorem inetPton6_text_iff (hex : HexReader) :
    inetPton6 hex (reading addr).text = .ok (1, some addr) ↔
      (∃ w ∈ addr.words, w ≠ 0) ∧ ∀ w ∈ addr.words, highByte w = lowByte w := by
  have hvalid := valid_reading addr
  have hreads := parseIpv6_readsAs hex (reading addr).text
  rw [hvalid.readingOf_text rfl] at hreads
  by_cases hdouble : reading addr = .compressed [] []
  · have hreject := hreads.reject fun h => by
      rw [hdouble] at h
      exact absurd h.2.1 (by simp)
    rw [inetPton6, hreject]
    refine iff_of_false (by simp) ?_
    rintro ⟨⟨w, hw, hne⟩, -⟩
    exact hne ((reading_eq_double_iff addr).mp hdouble w hw)
  · obtain ⟨stored, hparse, hwords⟩ := hreads.accept hvalid.isHex
      (Reading.accepted_of_rightCount hvalid.2 hdouble)
    rw [Reading.expand_congr fun g hg => number_eq (hvalid.1 g hg), expand_reading] at hwords
    have hnonzero : ∃ w ∈ addr.words, w ≠ 0 := by
      by_contra hnot
      exact hdouble ((reading_eq_double_iff addr).mpr (by simpa using hnot))
    have hsame : stored = addr ↔ addr.words.map toNeFromBe = addr.words := by
      rw [← hwords, In6Addr.mk.injEq]
    have hmap : addr.words.map toNeFromBe = addr.words ↔
        ∀ w ∈ addr.words, highByte w = lowByte w := by
      conv_lhs => rhs; rw [← map_id addr.words]
      rw [map_inj_left]
      exact forall₂_congr fun w _ => toNeFromBe_eq_iff w
    rw [inetPton6, hparse, and_iff_right hnonzero, ← hmap, ← hsame]
    simp

end Again

/-! ### The round trip -/

/-- The string at the start of the memory. -/
def HoldsText (mem : ℕ → Byte) (text : CString) : Prop :=
  0 ∉ text ∧ ∀ i c, (text ++ [0])[i]? = some c → mem i = c

theorem mem_rowText {first : Bool} {c : Byte} (h : c ∈ rowText first ws) :
    c = colon ∨ isxdigit c = true := by
  induction ws generalizing first with
  | nil => cases h
  | cons w ws ih =>
    rw [rowText, mem_append, mem_append] at h
    rcases h with (h | h) | h
    · cases first with
      | false => exact .inl (mem_singleton.mp h)
      | true => cases h
    · exact .inr ((isGroup_hexText _).1.2 c h)
    · exact ih h

theorem zero_not_mem_text (addr : In6Addr) : 0 ∉ (reading addr).text := by
  rw [text_reading, mem_append, not_or]
  refine ⟨?_, fun h => ?_⟩
  · split <;> decide
  · rcases mem_rowText h with h | h
    all_goals exact absurd h (by decide)

theorem holdsText_held (mem : ℕ → Byte) (hzero : 0 ∉ text) (hne : text ≠ []) :
    HoldsText (held mem text) text := by
  refine ⟨hzero, fun i c hc => ?_⟩
  rw [held, if_neg hne, overwrite, if_neg (Nat.not_lt_zero i), Nat.sub_zero,
    getD_eq_getElem?_getD, hc, Option.getD_some]

section RoundTrip

variable {F : Type} (hz : Hz) (ld : LongDouble F) (rounds : ℕ) (hex : HexReader)

/-- The law of the two functions: the buffer is returned with a text of at most 45
characters in it, which stands for the address. -/
def RoundTrips (addr : In6Addr) (mem : ℕ → Byte) : Prop :=
  ∃ mem' text, inetNtop6 hz ld rounds addr mem 46 = .ok (some 0, mem') ∧ HoldsText mem' text ∧
    text.length ≤ 45 ∧ inetPton6 hex text = .ok (1, some addr)

/-- The buffer is never returned, but the end of the text. The text has room, and it is
read as the address again only if that is not zero and all its groups have two equal
bytes. -/
theorem inetNtop6_never_round_trips (addr : In6Addr) (mem : ℕ → Byte) :
    ¬ RoundTrips hz ld rounds hex addr mem ∧
      ∃ mem' text, inetNtop6 hz ld rounds addr mem 46 = .ok (some text.length, mem') ∧
        HoldsText mem' text ∧ 0 < text.length ∧ text.length ≤ 45 ∧
        (inetPton6 hex text = .ok (1, some addr) ↔
          (∃ w ∈ addr.words, w ≠ 0) ∧ ∀ w ∈ addr.words, highByte w = lowByte w) := by
  obtain ⟨hpos, hle⟩ := length_text_reading addr
  have hrun : inetNtop6 hz ld rounds addr mem 46 =
      .ok (some (reading addr).text.length, held mem (reading addr).text) :=
    inetNtop6_eq addr (by decide)
  refine ⟨?_, _, _, hrun, ?_, hpos, hle, inetPton6_text_iff addr hex⟩
  · rintro ⟨mem', text, hbuf, -⟩
    rw [hrun] at hbuf
    injection hbuf with hbuf
    have hzero : (reading addr).text.length = 0 := Option.some.inj (congrArg Prod.fst hbuf)
    omega
  · exact holdsText_held mem (zero_not_mem_text addr) (length_pos_iff_ne_nil.mp hpos)

/-- The address `::1`, of which the last word is read with its bytes exchanged. -/
def loopbackAddr : In6Addr := ⟨List.replicate 7 0 ++ [0x100], rfl⟩

/-- The pointer is behind the three characters, and they are read as `::100`. -/
theorem inetNtop6_loopback :
    loopbackAddr.bytes = List.replicate 15 0 ++ [1] ∧
      (∃ mem, inetNtop6 Hz.plain LongDouble.integral 0 loopbackAddr (fun _ => 0) 46 =
          .ok (some 3, mem) ∧ HoldsText mem (literal "::1")) ∧
      ∃ stored, inetPton6 .wrapping (literal "::1") = .ok (1, some stored) ∧
        stored.bytes = List.replicate 14 0 ++ [1, 0] := by
  have hrun : inetNtop6 Hz.plain LongDouble.integral 0 loopbackAddr (fun _ => 0) 46 =
      .ok (some (reading loopbackAddr).text.length, held _ (reading loopbackAddr).text) :=
    inetNtop6_eq loopbackAddr (by decide)
  obtain ⟨stored, hparse, hbytes⟩ := parseIpv6_loopback
  refine ⟨by decide, ⟨_, hrun, holdsText_held _ (by decide) (by decide)⟩, stored, ?_, hbytes⟩
  rw [inetPton6, hparse]

end RoundTrip

end Hzlibc.Inet
