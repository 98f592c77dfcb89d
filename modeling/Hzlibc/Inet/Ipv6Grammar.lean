import Mathlib.Data.List.TakeWhile
import Hzlibc.Inet.Ipv6
import Hzlibc.Text.Separated

/-!
Which texts `parse_ipv6` takes for addresses.

Every text is read in one way as a row of groups, or as two rows with `::` between
them. The function goes over the groups from left to right; the number of zero
groups that `::` stands for it has computed before from the number of colons, so
that in the end there are always eight.
-/

namespace Hzlibc.Inet

open List

open Stdio (Byte isxdigit readDigits)
open Separated (joined parts)

/-! ### The ways to read a text -/

inductive Reading
  | full (groups : List CString)
  | compressed (before after : List CString)

namespace Reading

def groups : Reading → List CString
  | full groups => groups
  | compressed before after => before ++ after

def text : Reading → CString
  | full groups => joined colon groups
  | compressed before after => joined colon before ++ colon :: colon :: joined colon after

end Reading

/-- At least one hexadecimal digit, and nothing else. -/
def IsHex (group : CString) : Prop := group ≠ [] ∧ ∀ c ∈ group, isxdigit c = true

theorem IsHex.not_mem {group : CString} (h : IsHex group) : colon ∉ group := fun hmem =>
  absurd (h.2 colon hmem) (by decide)

/-- The way in which the text is read. -/
def readingOf (s : CString) : Reading :=
  match findDouble s with
  | none => .full (s.splitOn colon)
  | some pos => .compressed (parts colon (s.take pos)) (parts colon (s.drop (pos + 2)))

theorem findDouble_cons (c : Byte) (s : CString) :
    findDouble (c :: s) =
      if c = colon ∧ s.head? = some colon then some 0 else (findDouble s).map (· + 1) := by
  cases s with
  | nil | cons d s => simp [findDouble]

/-- The first `::` has no colon in front of it. -/
theorem findDouble_some {s : CString} {pos : ℕ} (h : findDouble s = some pos) :
    s = s.take pos ++ colon :: colon :: s.drop (pos + 2) ∧
      (s.take pos).getLast? ≠ some colon := by
  induction s generalizing pos with
  | nil => cases h
  | cons c s ih =>
    rw [findDouble_cons] at h
    split at h
    next hdouble =>
      obtain ⟨rfl, hhead⟩ := hdouble
      obtain rfl : 0 = pos := Option.some.inj h
      obtain ⟨s, rfl⟩ := List.head?_eq_some_iff.mp hhead
      exact ⟨rfl, by simp⟩
    next hno =>
      obtain ⟨pos, hpos, rfl⟩ := Option.map_eq_some_iff.mp h
      obtain ⟨heq, hlast⟩ := ih hpos
      refine ⟨?_, ?_⟩
      · rw [take_succ_cons, cons_append, drop_succ_cons, ← heq]
      · rw [take_succ_cons]
        cases hs : s.take pos with
        | nil =>
          rw [hs] at heq
          rw [heq] at hno
          simpa using hno
        | cons d t => rwa [List.getLast?_cons_cons, ← hs]

theorem text_readingOf (s : CString) : (readingOf s).text = s := by
  rw [readingOf]
  split
  · exact intercalate_splitOn colon
  next pos hpos =>
    rw [Reading.text, Separated.joined_parts, Separated.joined_parts]
    exact (findDouble_some hpos).1.symm

variable {g : CString} {gs : List CString} {r : Reading}

theorem findDouble_append (hg : colon ∉ g) (s : CString) :
    findDouble (g ++ s) = (findDouble s).map (· + g.length) := by
  induction g with
  | nil => simp
  | cons c g ih =>
    rw [mem_cons, not_or] at hg
    rw [cons_append, findDouble_cons, if_neg fun h => hg.1 h.1.symm, ih hg.2, Option.map_map]
    rfl

/-- No colon stands at the start of a row of groups. -/
theorem head_joined (hgs : ∀ g ∈ gs, IsHex g) (hne : gs ≠ []) (s : CString) :
    (joined colon gs ++ s).head? ≠ some colon := by
  obtain ⟨g, gs, rfl⟩ := exists_cons_of_ne_nil hne
  have hg := hgs g mem_cons_self
  obtain ⟨c, g, rfl⟩ := exists_cons_of_ne_nil hg.1
  have hhead : (joined colon ((c :: g) :: gs) ++ s).head? = some c := by
    by_cases h : gs = []
    · rw [h]
      rfl
    · rw [Separated.joined_cons h]
      rfl
  rw [hhead]
  intro hc
  exact hg.not_mem (by rw [Option.some.inj hc]; exact mem_cons_self)

/-- There is no `::` in a row of groups. -/
theorem findDouble_joined (hgs : ∀ g ∈ gs, IsHex g) (s : CString) :
    findDouble (joined colon gs ++ s) = (findDouble s).map (· + (joined colon gs).length) := by
  induction gs with
  | nil => simp [joined]
  | cons g gs ih =>
    have hg : colon ∉ g := (hgs g mem_cons_self).not_mem
    by_cases h : gs = []
    · rw [h, Separated.joined_singleton, findDouble_append hg]
    · have hrest : ∀ g ∈ gs, IsHex g := fun other hmem => hgs other (mem_cons_of_mem g hmem)
      rw [Separated.joined_cons h, append_assoc, cons_append, findDouble_append hg,
        findDouble_cons, if_neg fun hdouble => head_joined hrest h s hdouble.2, ih hrest,
        Option.map_map, Option.map_map, length_append, length_cons]
      congr 1
      funext n
      simp
      omega

/-- Groups of digits are read as they are written. -/
theorem readingOf_text (hr : ∀ g ∈ r.groups, IsHex g) (hne : r ≠ .full []) :
    readingOf r.text = r := by
  have hparts : ∀ gs : List CString, (∀ g ∈ gs, IsHex g) → parts colon (joined colon gs) = gs :=
    fun gs hgs => Separated.parts_joined (fun g hg => (hgs g hg).1) fun g hg => (hgs g hg).not_mem
  rw [readingOf]
  cases r with
  | full gs =>
    have hgs : gs ≠ [] := fun h => hne (congrArg _ h)
    have hnone : findDouble (joined colon gs) = none := by
      have h := findDouble_joined hr []
      rwa [append_nil] at h
    rw [Reading.text, hnone]
    exact congrArg _ (splitOn_intercalate colon (fun g hg => (hr g hg).not_mem) hgs)
  | compressed before after =>
    have hbefore : ∀ g ∈ before, IsHex g := fun g hg => hr g (mem_append_left _ hg)
    have hafter : ∀ g ∈ after, IsHex g := fun g hg => hr g (mem_append_right _ hg)
    have hdrop : (joined colon before ++ colon :: colon :: joined colon after).drop
        ((joined colon before).length + 2) = joined colon after := by
      rw [← drop_drop, drop_left]
      rfl
    rw [Reading.text, findDouble_joined hbefore, findDouble_cons, if_pos ⟨rfl, rfl⟩,
      Option.map_some, Nat.zero_add]
    dsimp only
    rw [take_left, hdrop, hparts before hbefore, hparts after hafter]

/-! ### Going over the groups -/

/-- The words from a position on, with the rest as before. -/
def In6Addr.storeRow (addr : In6Addr) : ℕ → List Word → In6Addr
  | _, [] => addr
  | i, num :: nums => (addr.set i num).storeRow (i + 1) nums

theorem words_storeRow {addr : In6Addr} {i : ℕ} {nums : List Word} (h : i + nums.length ≤ 8) :
    (addr.storeRow i nums).words =
      addr.words.take i ++ nums ++ addr.words.drop (i + nums.length) := by
  induction nums generalizing addr i with
  | nil => simp [In6Addr.storeRow]
  | cons num nums ih =>
    rw [length_cons] at h
    have hi : i < addr.words.length := by
      rw [addr.length_words]
      omega
    rw [In6Addr.storeRow, ih (by omega), In6Addr.set, drop_set_of_lt (by omega),
      take_add_one, take_set_of_le (Nat.le_refl i), List.getElem?_set_self hi]
    have hlength : i + 1 + nums.length = i + (num :: nums).length := by
      rw [length_cons]
      omega
    rw [hlength]
    simp

variable {hz : HexReader}

/-- The word that a group stands for, as it is stored. -/
def number (hz : HexReader) (g : CString) : Word := (hz.toInteger g).1

theorem isHex_iff (g : CString) :
    IsHex g ↔ ¬ ((hz.toInteger g).2 ≠ g.length ∨ (hz.toInteger g).2 = 0) := by
  rw [not_or, not_not, hz.count]
  constructor
  · rintro ⟨hne, hdigits⟩
    rw [takeWhile_eq_self_iff.mpr hdigits]
    exact ⟨rfl, fun h => hne (length_eq_zero_iff.mp h)⟩
  · rintro ⟨hlength, hne⟩
    have hall : g.takeWhile isxdigit = g := (List.takeWhile_prefix isxdigit).eq_of_length hlength
    exact ⟨fun h => hne (by rw [h]; rfl), takeWhile_eq_self_iff.mp hall⟩

instance (g : CString) : Decidable (IsHex g) := inferInstanceAs (Decidable (_ ∧ _))

variable {tail : CString}

section Loop

variable {ip : CString} {compressedPos : Option ℕ} {zeros offset i : ℕ} {addr : In6Addr}

theorem segment_eq (hdrop : ip.drop offset = g ++ tail) (hg : colon ∉ g)
    (htail : ∀ c ∈ tail.head?, c = colon) : segment ip offset = g := by
  rw [segment, hdrop]
  refine Stdio.takeWhile_append_stop ?_ ?_
  · exact fun c hc => decide_eq_true fun h => hg (h ▸ hc)
  · exact fun c hc => decide_eq_false (not_not.mpr (htail c hc))

section

variable (hpos : compressedPos ≠ some offset) (hg : colon ∉ g) (hi : i < 8)
include hpos hg hi

/-- The last group. -/
theorem parseLoop_last (hdrop : ip.drop offset = g) :
    parseLoop hz ip compressedPos zeros offset i addr =
      .ok (if IsHex g ∧ i + 1 = 8 then some (addr.set i (number hz g)) else none) := by
  have hseg : segment ip offset = g := segment_eq (by rw [hdrop, append_nil]) hg (by simp)
  rw [parseLoop, if_neg hpos]
  rw [hseg]
  by_cases hhex : IsHex g
  · rw [if_neg ((isHex_iff g).mp hhex), In6Addr.store, if_pos hi, hdrop]
    dsimp only
    rw [if_pos (by simpa using hg)]
    simp only [hhex, true_and]
    split_ifs <;> first | rfl | omega
  · rw [if_pos (not_not.mp (mt (isHex_iff g).mpr hhex)), if_neg fun h => hhex h.1]

/-- A group with a colon behind it. -/
theorem parseLoop_group (hdrop : ip.drop offset = g ++ colon :: tail) :
    parseLoop hz ip compressedPos zeros offset i addr =
      if IsHex g ∧ i + 1 < 8 then
        parseLoop hz ip compressedPos zeros
          (if compressedPos = some (offset + g.length) then offset + g.length
            else offset + g.length + 1) (i + 1) (addr.set i (number hz g))
      else .ok none := by
  have hseg : segment ip offset = g := segment_eq hdrop hg (by simp)
  rw [parseLoop, if_neg hpos]
  rw [hseg]
  by_cases hhex : IsHex g
  · rw [if_neg ((isHex_iff g).mp hhex), In6Addr.store, if_pos hi, hdrop]
    dsimp only
    rw [if_neg (by simp)]
    simp only [hhex, true_and]
    split_ifs <;> first | rfl | omega
  · rw [if_pos (not_not.mp (mt (isHex_iff g).mpr hhex)), if_neg fun h => hhex h.1]

end

theorem drop_group (hdrop : ip.drop offset = g ++ colon :: tail) :
    ip.drop (offset + g.length) = colon :: tail ∧ ip.drop (offset + g.length + 1) = tail := by
  have hfirst : ip.drop (offset + g.length) = colon :: tail := by
    rw [← drop_drop, hdrop, drop_left]
  exact ⟨hfirst, by rw [← drop_drop, hfirst]; rfl⟩

/-- The groups up to the end of the text. -/
theorem parseLoop_rest (hpos : ∀ pos ∈ compressedPos, pos < offset)
    (hdrop : ip.drop offset = joined colon gs) (hne : gs ≠ []) (hgs : ∀ g ∈ gs, colon ∉ g)
    (hi : i < 8) :
    parseLoop hz ip compressedPos zeros offset i addr =
      .ok (if (∀ g ∈ gs, IsHex g) ∧ i + gs.length = 8
        then some (addr.storeRow i (gs.map (number hz))) else none) := by
  induction gs generalizing offset i addr with
  | nil => exact absurd rfl hne
  | cons g gs ih =>
    have hg : colon ∉ g := hgs g mem_cons_self
    have hoffset : compressedPos ≠ some offset := fun h => Nat.lt_irrefl _ (hpos offset h)
    by_cases hlast : gs = []
    · subst hlast
      rw [Separated.joined_singleton] at hdrop
      rw [parseLoop_last hoffset hg hi hdrop]
      simp [In6Addr.storeRow]
    · rw [Separated.joined_cons hlast] at hdrop
      have hnot : ∀ pos ∈ compressedPos, pos < offset + g.length + 1 := fun pos h =>
        (hpos pos h).trans (by omega)
      have hend : compressedPos ≠ some (offset + g.length) := fun h =>
        absurd (hpos _ h) (by omega)
      have hlength : 0 < gs.length := length_pos_of_ne_nil hlast
      rw [parseLoop_group hoffset hg hi hdrop, if_neg hend]
      simp only [forall_mem_cons, length_cons]
      split
      next hnext =>
        rw [ih hnot (drop_group hdrop).2 hlast
          (fun other hmem => hgs other (mem_cons_of_mem g hmem)) hnext.2]
        simp [hnext.1, Nat.add_assoc, Nat.add_comm 1, In6Addr.storeRow]
      next hnext =>
        rw [if_neg]
        rintro ⟨hhex, hcount⟩
        exact hnext ⟨hhex.1, by omega⟩

/-- The groups in front of `::`. -/
theorem parseLoop_before {pos : ℕ} {after : CString}
    (hdrop : ip.drop offset = joined colon gs ++ colon :: colon :: after) (hne : gs ≠ [])
    (hgs : ∀ g ∈ gs, colon ∉ g) (hlast : (joined colon gs).getLast? ≠ some colon)
    (hpos : pos = offset + (joined colon gs).length) (hlt : offset < pos) (hi : i < 8) :
    parseLoop hz ip (some pos) zeros offset i addr =
      if (∀ g ∈ gs, IsHex g) ∧ i + gs.length < 8
        then parseLoop hz ip (some pos) zeros pos (i + gs.length)
          (addr.storeRow i (gs.map (number hz)))
        else .ok none := by
  induction gs generalizing offset i addr with
  | nil => exact absurd rfl hne
  | cons g gs ih =>
    have hg : colon ∉ g := hgs g mem_cons_self
    have hoffset : some pos ≠ some offset := fun h => Nat.ne_of_gt hlt (Option.some.inj h)
    by_cases hone : gs = []
    · subst hone
      rw [Separated.joined_singleton] at hdrop hpos
      rw [parseLoop_group hoffset hg hi hdrop, if_pos (congrArg some hpos), ← hpos]
      simp [In6Addr.storeRow]
    · rw [Separated.joined_cons hone] at hdrop hpos hlast
      rw [append_assoc] at hdrop
      rw [length_append, length_cons] at hpos
      have hrest : joined colon gs ≠ [] := by
        intro h
        rw [h] at hlast
        exact hlast (by simp)
      have hlast' : (joined colon gs).getLast? ≠ some colon := by
        rw [List.getLast?_append_of_ne_nil _ (by simp)] at hlast
        rwa [List.getLast?_cons_of_ne_nil hrest] at hlast
      have hlength : 0 < (joined colon gs).length := length_pos_of_ne_nil hrest
      have hend : some pos ≠ some (offset + g.length) := fun h =>
        absurd (Option.some.inj h) (by omega)
      rw [parseLoop_group hoffset hg hi hdrop, if_neg hend]
      simp only [forall_mem_cons, length_cons]
      split
      next hnext =>
        rw [ih (drop_group hdrop).2 hone (fun other hmem => hgs other (mem_cons_of_mem g hmem))
          hlast' (by omega) (by omega) hnext.2]
        simp [hnext.1, Nat.add_assoc, Nat.add_comm 1, In6Addr.storeRow]
      next hnext =>
        rw [if_neg]
        rintro ⟨hhex, hcount⟩
        exact hnext ⟨hhex.1, by omega⟩

/-- At `::`, with the groups behind it. -/
theorem parseLoop_double {pos : ℕ} (hi : i + zeros ≤ 8) :
    parseLoop hz ip (some pos) zeros pos i addr =
      .ok (if i + zeros = 8 then some addr
        else if (∀ g ∈ (ip.drop (pos + 2)).splitOn colon, IsHex g) ∧
            i + zeros + ((ip.drop (pos + 2)).splitOn colon).length = 8
        then some (addr.storeRow (i + zeros) (((ip.drop (pos + 2)).splitOn colon).map (number hz)))
        else none) := by
  rw [parseLoop, if_pos rfl]
  by_cases hfull : i + zeros = 8
  · rw [if_pos hfull, if_pos hfull]
  · have hjoined : ip.drop (pos + 2) = joined colon ((ip.drop (pos + 2)).splitOn colon) :=
      (intercalate_splitOn colon).symm
    rw [if_neg hfull, if_neg hfull, parseLoop_rest (by simp) hjoined (splitOn_ne_nil _ _)
      (fun g hg => Separated.not_mem_of_mem_splitOn hg) (by omega)]

end Loop

/-! ### The texts that are accepted -/

namespace Reading

/-- The numbers of groups that the function is content with. -/
def Accepted : Reading → Prop
  | full gs => gs.length = 8
  | compressed before after =>
    (before ≠ [] ∨ after ≠ []) ∧ before.length + after.length ≤ 8 ∧
      (before.length + after.length = 8 → before ≠ [] ∧ after ≠ [])

/-- The eight groups, with a number for each. -/
def expand {α : Type} (number : CString → α) (zero : α) : Reading → List α
  | full gs => gs.map number
  | compressed before after =>
    before.map number ++
      (List.replicate (8 - (before.length + after.length)) zero ++ after.map number)

end Reading

/-- What the function makes of a text that is read in the given way. -/
structure ReadsAs (hz : HexReader) (r : Reading)
    (result : Except Overrun (Option In6Addr)) : Prop where
  accept : (∀ g ∈ r.groups, IsHex g) → r.Accepted →
    ∃ addr, result = .ok (some addr) ∧ addr.words = r.expand (number hz) 0
  reject : ¬ ((∀ g ∈ r.groups, IsHex g) ∧ r.Accepted) → result = .ok none

theorem words_zero_storeRow {nums : List Word} (h : nums.length ≤ 8) :
    (In6Addr.zero.storeRow 0 nums).words = nums ++ List.replicate (8 - nums.length) 0 := by
  have hzero : In6Addr.zero.words = List.replicate 8 0 := rfl
  rw [words_storeRow (by omega), hzero, take_zero, nil_append, Nat.zero_add, drop_replicate]

theorem words_two_rows (before after : List Word) (zeros : ℕ)
    (h : before.length + zeros + after.length = 8) :
    ((In6Addr.zero.storeRow 0 before).storeRow (before.length + zeros) after).words =
      before ++ (List.replicate zeros 0 ++ after) := by
  rw [words_storeRow (by omega), words_zero_storeRow (by omega), take_append,
    take_of_length_le (by omega), take_replicate, Nat.min_eq_left (by omega),
    drop_eq_nil_of_le (by simp; omega)]
  simp

theorem readsAs_full {s : CString} (h : findDouble s = none) :
    ReadsAs hz (.full (s.splitOn colon)) (parseIpv6 hz s) := by
  have hloop : parseIpv6 hz s =
      .ok (if (∀ g ∈ s.splitOn colon, IsHex g) ∧ 0 + (s.splitOn colon).length = 8
        then some (In6Addr.zero.storeRow 0 ((s.splitOn colon).map (number hz))) else none) := by
    rw [parseIpv6, h]
    exact parseLoop_rest (by simp) (by rw [drop_zero]; exact (intercalate_splitOn _).symm)
      (splitOn_ne_nil _ _) (fun g hg => Separated.not_mem_of_mem_splitOn hg) (by omega)
  rw [Nat.zero_add] at hloop
  constructor
  · intro hhex haccepted
    have hlength : (s.splitOn colon).length = 8 := haccepted
    rw [if_pos ⟨hhex, hlength⟩] at hloop
    refine ⟨_, hloop, ?_⟩
    rw [words_zero_storeRow (by rw [length_map, hlength]), length_map, hlength]
    exact append_nil _
  · intro hnot
    rw [hloop]
    exact congrArg _ (if_neg hnot)

section Compressed

variable {s : CString} {pos : ℕ} (h : findDouble s = some pos)
include h

theorem findDouble_le : pos + 2 ≤ s.length := by
  have hlength := congrArg List.length (findDouble_some h).1
  simp at hlength
  omega

/-- The groups before `::`, if there are any. -/
theorem parseLoop_start (zeros : ℕ) :
    parseLoop hz s (some pos) zeros 0 0 .zero =
      if (∀ g ∈ parts colon (s.take pos), IsHex g) ∧ (parts colon (s.take pos)).length < 8
        then parseLoop hz s (some pos) zeros pos (parts colon (s.take pos)).length
          (In6Addr.zero.storeRow 0 ((parts colon (s.take pos)).map (number hz)))
        else .ok none := by
  obtain ⟨heq, hlast⟩ := findDouble_some h
  have hle := findDouble_le h
  have hlength : (s.take pos).length = pos := length_take_of_le (by omega)
  have hjoined : joined colon (parts colon (s.take pos)) = s.take pos := Separated.joined_parts _
  by_cases hpos : pos = 0
  · subst hpos
    rfl
  · have hne : s.take pos ≠ [] := fun hnil => hpos (by rw [← hlength, hnil]; rfl)
    have hsplit : parts colon (s.take pos) = (s.take pos).splitOn colon := if_neg hne
    rw [parseLoop_before (by rw [hjoined]; exact heq)
      (by rw [hsplit]; exact splitOn_ne_nil _ _)
      (by rw [hsplit]; exact fun g hg => Separated.not_mem_of_mem_splitOn hg)
      (by rw [hjoined]; exact hlast) (by rw [hjoined, hlength, Nat.zero_add])
      (Nat.pos_of_ne_zero hpos) (by decide), Nat.zero_add]

theorem take_eq_nil_iff : s.take pos = [] ↔ pos = 0 := by
  have hle := findDouble_le h
  rw [← length_eq_zero_iff, length_take]
  omega

theorem drop_eq_nil_iff : s.drop (pos + 2) = [] ↔ pos = s.length - 2 := by
  have hle := findDouble_le h
  rw [← length_eq_zero_iff, length_drop]
  omega

section

variable (hne : s.take pos ≠ [] ∨ s.drop (pos + 2) ≠ [])
include hne

/-- The number of segments, as it comes out of the number of colons. -/
theorem count_segments :
    (if pos ≠ 0 ∧ pos ≠ s.length - 2 then s.count colon - 1 + 1 else s.count colon - 1) =
      (parts colon (s.take pos)).length + (parts colon (s.drop (pos + 2))).length := by
  have hcount : s.count colon =
      (s.take pos).count colon + ((s.drop (pos + 2)).count colon + 2) := by
    conv_lhs => rw [(findDouble_some h).1]
    simp
  by_cases hbefore : s.take pos = []
  · have hafter : s.drop (pos + 2) ≠ [] := hne.resolve_left (not_not.mpr hbefore)
    rw [if_neg fun hpos => hpos.1 ((take_eq_nil_iff h).mp hbefore),
      Separated.length_parts hafter, hcount, hbefore]
    simp [parts]
  · by_cases hafter : s.drop (pos + 2) = []
    · rw [if_neg fun hpos => hpos.2 ((drop_eq_nil_iff h).mp hafter),
        Separated.length_parts hbefore, hcount, hafter]
      simp [parts]
    · rw [if_pos ⟨mt (take_eq_nil_iff h).mpr hbefore, mt (drop_eq_nil_iff h).mpr hafter⟩,
        Separated.length_parts hbefore, Separated.length_parts hafter]
      omega

/-- More than seven segments are counted exactly when there are too many groups. -/
theorem segments_gt_iff :
    s.count colon - 1 > 7 ↔
      ¬ (Reading.compressed (parts colon (s.take pos))
          (parts colon (s.drop (pos + 2)))).Accepted := by
  have hcount := count_segments h hne
  have hboth : pos ≠ 0 ∧ pos ≠ s.length - 2 ↔
      parts colon (s.take pos) ≠ [] ∧ parts colon (s.drop (pos + 2)) ≠ [] := by
    rw [ne_eq, ne_eq, ne_eq, ne_eq, Separated.parts_eq_nil, Separated.parts_eq_nil,
      take_eq_nil_iff h, drop_eq_nil_iff h]
  have hsome : parts colon (s.take pos) ≠ [] ∨ parts colon (s.drop (pos + 2)) ≠ [] := by
    rwa [ne_eq, ne_eq, Separated.parts_eq_nil, Separated.parts_eq_nil]
  rw [Reading.Accepted, ← hboth, and_iff_right hsome]
  split at hcount
  all_goals
    next hmiddle =>
      omega

theorem parseIpv6_compressed
    {before after : List CString} (hbefore : parts colon (s.take pos) = before)
    (hafter : parts colon (s.drop (pos + 2)) = after) :
    parseIpv6 hz s =
      if s.count colon - 1 > 7 then .ok none
      else if (∀ g ∈ before, IsHex g) ∧ before.length < 8 then
        parseLoop hz s (some pos) (8 - (before.length + after.length)) pos before.length
          (In6Addr.zero.storeRow 0 (before.map (number hz)))
      else .ok none := by
  rw [parseIpv6, h]
  dsimp only
  rw [count_segments h hne, parseLoop_start h, hbefore, hafter]

end

omit h in
/-- The groups behind `::`, if there are any, when the number of zeros is right. -/
theorem parseLoop_after {zeros i : ℕ} {addr : In6Addr} {after : List CString}
    (hafter : parts colon (s.drop (pos + 2)) = after) (hsum : i + zeros + after.length = 8) :
    parseLoop hz s (some pos) zeros pos i addr =
      .ok (if ∀ g ∈ after, IsHex g
        then some (addr.storeRow (i + zeros) (after.map (number hz))) else none) := by
  rw [parseLoop_double (by omega)]
  by_cases hnil : after = []
  · subst hnil
    have hfull : i + zeros = 8 := hsum
    rw [if_pos hfull]
    rfl
  · have hsplit : (s.drop (pos + 2)).splitOn colon = after := by
      rwa [parts, if_neg (mt Separated.parts_eq_nil.mpr (hafter ▸ hnil))] at hafter
    have hpos : 0 < after.length := length_pos_of_ne_nil hnil
    rw [if_neg (by omega), hsplit]
    simp [hsum]

theorem readsAs_compressed :
    ReadsAs hz (.compressed (parts colon (s.take pos)) (parts colon (s.drop (pos + 2))))
      (parseIpv6 hz s) := by
  by_cases hne : s.take pos ≠ [] ∨ s.drop (pos + 2) ≠ []
  · have hgt := segments_gt_iff h hne
    generalize hbefore : parts colon (s.take pos) = before at hgt ⊢
    generalize hafter : parts colon (s.drop (pos + 2)) = after at hgt ⊢
    rw [parseIpv6_compressed h hne hbefore hafter]
    by_cases haccepted : (Reading.compressed before after).Accepted
    · rw [if_neg (mt hgt.mp (not_not.mpr haccepted))]
      obtain ⟨hsome, hle, height⟩ := haccepted
      have hlt : before.length < 8 := by
        by_contra hnot
        have hnil : after.length = 0 := by omega
        exact (height (by omega)).2 (length_eq_zero_iff.mp hnil)
      rw [parseLoop_after hafter (by omega)]
      constructor
      · intro hhex _
        have hfirst : ∀ g ∈ before, IsHex g := fun g hg => hhex g (mem_append_left _ hg)
        have hlast : ∀ g ∈ after, IsHex g := fun g hg => hhex g (mem_append_right _ hg)
        rw [if_pos ⟨hfirst, hlt⟩, if_pos hlast]
        refine ⟨_, rfl, ?_⟩
        have hrows := words_two_rows (before.map (number hz)) (after.map (number hz))
          (8 - (before.length + after.length)) (by rw [length_map, length_map]; omega)
        rwa [length_map] at hrows
      · intro hnot
        split
        next hfirst =>
          rw [if_neg]
          intro hlast
          refine hnot ⟨?_, hsome, hle, height⟩
          intro g hg
          rcases mem_append.mp hg with hg | hg
          · exact hfirst.1 g hg
          · exact hlast g hg
        · rfl
    · rw [if_pos (hgt.mpr haccepted)]
      exact ⟨fun _ h => absurd h haccepted, fun _ => rfl⟩
  · -- `::` alone: seven zeros are counted, and there is no eighth group
    rw [not_or, not_not, not_not] at hne
    have hs : s = [colon, colon] := by
      have heq := (findDouble_some h).1
      rwa [hne.1, hne.2] at heq
    obtain rfl : pos = 0 := (take_eq_nil_iff h).mp hne.1
    rw [hne.2]
    refine ⟨fun _ haccepted => absurd haccepted.1 (by simp [parts]), fun _ => ?_⟩
    rw [parseIpv6, h]
    dsimp only
    rw [hs, parseLoop_double (by decide)]
    rfl

end Compressed

theorem parseIpv6_readsAs (hz : HexReader) (s : CString) :
    ReadsAs hz (readingOf s) (parseIpv6 hz s) := by
  rw [readingOf]
  split
  next h => exact readsAs_full h
  next pos h => exact readsAs_compressed h

/-- Every store of `parse_ipv6` is inside of the address. -/
theorem parseIpv6_stores (hz : HexReader) (ip : CString) :
    ∃ result, parseIpv6 hz ip = .ok result := by
  have hreads := parseIpv6_readsAs hz ip
  by_cases h : (∀ g ∈ (readingOf ip).groups, IsHex g) ∧ (readingOf ip).Accepted
  · obtain ⟨addr, haddr, -⟩ := hreads.accept h.1 h.2
    exact ⟨some addr, haddr⟩
  · exact ⟨none, hreads.reject h⟩

/-! ### The grammar -/

/-- One to four hexadecimal digits. -/
def IsGroup (group : CString) : Prop := IsHex group ∧ group.length ≤ 4

def value (group : CString) : Word := BitVec.ofNat 16 (readDigits 16 group)

def networkOrder (w : Word) : List Byte := [highByte w, lowByte w]

namespace Reading

/-- `::` stands for at least one group. -/
def RightCount : Reading → Prop
  | full gs => gs.length = 8
  | compressed before after => before.length + after.length ≤ 7

/-- The reading of an address. -/
def Valid (r : Reading) : Prop := (∀ g ∈ r.groups, IsGroup g) ∧ r.RightCount

theorem Valid.isHex (h : r.Valid) : ∀ g ∈ r.groups, IsHex g :=
  fun g hg => (h.1 g hg).1

theorem Valid.ne_full (h : r.Valid) : r ≠ .full [] := by
  rintro rfl
  exact absurd h.2 (by simp [RightCount])

theorem Valid.readingOf_text {s : CString} (h : r.Valid) (htext : r.text = s) :
    readingOf s = r := by
  rw [← htext]
  exact Inet.readingOf_text h.isHex h.ne_full

theorem rightCount_of_accepted (h : r.Accepted)
    (hmiddle : ∀ before after, r = .compressed before after →
      before.length + after.length = 8 → before = [] ∨ after = []) : r.RightCount := by
  cases r with
  | full gs => exact h
  | compressed before after =>
    obtain ⟨-, hle, height⟩ := h
    show before.length + after.length ≤ 7
    by_contra hnot
    have hcount : before.length + after.length = 8 := by omega
    obtain ⟨hbefore, hafter⟩ := height hcount
    rcases hmiddle before after rfl hcount with hnil | hnil
    · exact hbefore hnil
    · exact hafter hnil

theorem accepted_of_rightCount (h : r.RightCount) (hne : r ≠ .compressed [] []) : r.Accepted := by
  cases r with
  | full gs => exact h
  | compressed before after =>
    have hle : before.length + after.length ≤ 7 := h
    refine ⟨?_, by omega, fun hcount => by omega⟩
    by_contra hnot
    rw [not_or, not_not, not_not] at hnot
    exact hne (by rw [hnot.1, hnot.2])

theorem forall_mem_expand {α : Type} {f : CString → α} {zero : α} {p : α → Prop}
    (hzero : p zero) (r : Reading) : (∀ w ∈ r.expand f zero, p w) ↔ ∀ g ∈ r.groups, p (f g) := by
  cases r with
  | full gs => simp [expand, groups]
  | compressed before after =>
    simp only [expand, groups, forall_mem_append, forall_mem_map]
    simp [hzero]

theorem expand_congr {α : Type} {f g : CString → α} {zero : α}
    (h : ∀ group ∈ r.groups, f group = g group) : r.expand f zero = r.expand g zero := by
  cases r with
  | full gs => exact map_congr_left h
  | compressed before after =>
    have hbefore : before.map f = before.map g :=
      map_congr_left fun group hmem => h group (mem_append_left _ hmem)
    have hafter : after.map f = after.map g :=
      map_congr_left fun group hmem => h group (mem_append_right _ hmem)
    rw [expand, expand, hbefore, hafter]

end Reading

theorem number_eq (h : IsGroup g) : number hz g = value g := by
  have hall : g.takeWhile isxdigit = g := takeWhile_eq_self_iff.mpr h.1.2
  have hvalue := hz.value g (by rw [hall]; exact h.2)
  rwa [hall] at hvalue

/-- The bytes of words are in both orders the same only if they are so in each. -/
theorem flatMap_networkOrder_iff (ws : List Word) :
    (ws.flatMap fun w => [lowByte w, highByte w]) = ws.flatMap networkOrder ↔
      ∀ w ∈ ws, highByte w = lowByte w := by
  induction ws with
  | nil => simp
  | cons w ws ih =>
    rw [flatMap_cons, flatMap_cons, forall_mem_cons, ← ih, networkOrder]
    constructor
    · intro h
      injection h with hlow h
      injection h with _ h
      exact ⟨hlow.symm, h⟩
    · rintro ⟨hw, h⟩
      rw [h, hw]

/-- The law of `parse_ipv6`: the addresses are accepted, and stored in network
order. -/
structure ParsesRight (hz : HexReader) (s : CString) : Prop where
  accepts_iff : (∃ addr, parseIpv6 hz s = .ok (some addr)) ↔ ∃ r : Reading, r.Valid ∧ r.text = s
  stores : ∀ (r : Reading) (addr : In6Addr), r.Valid → r.text = s →
    parseIpv6 hz s = .ok (some addr) → addr.bytes = (r.expand value 0).flatMap networkOrder

theorem accepted_of_parse {s : CString} {addr : In6Addr} (h : parseIpv6 hz s = .ok (some addr)) :
    (∀ g ∈ (readingOf s).groups, IsHex g) ∧ (readingOf s).Accepted := by
  by_contra hnot
  rw [(parseIpv6_readsAs hz s).reject hnot] at h
  cases h

/-- What is stored for an address. -/
theorem bytes_eq_iff {s : CString} {addr : In6Addr} (hr : r.Valid) (htext : r.text = s)
    (h : parseIpv6 hz s = .ok (some addr)) :
    addr.bytes = (r.expand value 0).flatMap networkOrder ↔
      ∀ g ∈ r.groups, highByte (value g) = lowByte (value g) := by
  obtain ⟨hhex, haccepted⟩ := accepted_of_parse h
  obtain ⟨addr', h', hwords⟩ := (parseIpv6_readsAs hz s).accept hhex haccepted
  obtain rfl : addr = addr' := Option.some.inj (Except.ok.inj (h.symm.trans h'))
  rw [hr.readingOf_text htext, Reading.expand_congr fun g hg => number_eq (hr.1 g hg)] at hwords
  rw [In6Addr.bytes, hwords, flatMap_networkOrder_iff]
  exact Reading.forall_mem_expand (by decide) r

/-- The function keeps to the grammar and to the order exactly on the texts that are
not `::` alone, do not have `::` between eight groups, have no group of more than four
digits in a number of groups that is accepted, and, if they are addresses, only groups
with two equal bytes. -/
theorem parseIpv6_right_iff (hz : HexReader) (s : CString) :
    ParsesRight hz s ↔
      ∀ r : Reading, (∀ g ∈ r.groups, IsHex g) → r.text = s →
        r ≠ .compressed [] [] ∧
        (∀ before after, r = .compressed before after → before.length + after.length = 8 →
          before = [] ∨ after = []) ∧
        (r.Accepted → ∀ g ∈ r.groups, g.length ≤ 4) ∧
        (r.Valid → ∀ g ∈ r.groups, highByte (value g) = lowByte (value g)) := by
  constructor
  · intro h r hhex htext
    by_cases hempty : r = .full []
    · -- the empty text is read as one empty group, and is no address
      subst hempty
      simp [Reading.groups, Reading.Accepted]
    have hreading : readingOf s = r := by
      rw [← htext]
      exact readingOf_text hhex hempty
    -- what is accepted is an address
    have hvalid : r.Accepted → r.Valid := by
      intro haccepted
      obtain ⟨addr, hparse, -⟩ := (parseIpv6_readsAs hz s).accept (hreading ▸ hhex)
        (hreading ▸ haccepted)
      obtain ⟨r', hr', htext'⟩ := h.accepts_iff.mp ⟨addr, hparse⟩
      rwa [← hreading, hr'.readingOf_text htext']
    refine ⟨?_, ?_, fun haccepted g hg => ((hvalid haccepted).1 g hg).2, ?_⟩
    · rintro rfl
      obtain ⟨addr, hparse⟩ := h.accepts_iff.mpr ⟨_, ⟨by simp [Reading.groups], by
        simp [Reading.RightCount]⟩, htext⟩
      have haccepted := (accepted_of_parse hparse).2
      rw [hreading] at haccepted
      exact absurd haccepted.1 (by simp)
    · rintro before after rfl hcount
      by_contra hnot
      rw [not_or] at hnot
      have hle : before.length + after.length ≤ 7 :=
        (hvalid ⟨.inl hnot.1, by omega, fun _ => hnot⟩).2
      omega
    · intro hr
      obtain ⟨addr, hparse⟩ := h.accepts_iff.mpr ⟨r, hr, htext⟩
      exact (bytes_eq_iff hr htext hparse).mp (h.stores r addr hr htext hparse)
  · intro h
    constructor
    · constructor
      · rintro ⟨addr, hparse⟩
        obtain ⟨hhex, haccepted⟩ := accepted_of_parse hparse
        obtain ⟨-, hmiddle, hdigits, -⟩ := h (readingOf s) hhex (text_readingOf s)
        refine ⟨readingOf s, ⟨fun g hg => ⟨hhex g hg, hdigits haccepted g hg⟩, ?_⟩,
          text_readingOf s⟩
        exact Reading.rightCount_of_accepted haccepted hmiddle
      · rintro ⟨r, hr, htext⟩
        obtain ⟨hne, -⟩ := h r hr.isHex htext
        have hreading := hr.readingOf_text htext
        obtain ⟨addr, hparse, -⟩ := (parseIpv6_readsAs hz s).accept (hreading ▸ hr.isHex)
          (hreading ▸ Reading.accepted_of_rightCount hr.2 hne)
        exact ⟨addr, hparse⟩
    · intro r addr hr htext hparse
      exact (bytes_eq_iff hr htext hparse).mpr ((h r hr.isHex htext).2.2.2 hr)

def loopback : Reading := .compressed [] [literal "1"]

theorem loopback_valid : loopback.Valid := by
  refine ⟨?_, (by decide : 0 + 1 ≤ 7)⟩
  rintro g hg
  obtain rfl : g = literal "1" := mem_singleton.mp hg
  exact ⟨by decide, by decide⟩

/-- The last group of `::1` is stored with the low byte first. -/
theorem parseIpv6_loopback : ∃ addr, parseIpv6 .wrapping (literal "::1") = .ok (some addr) ∧
    addr.bytes = List.replicate 14 0 ++ [1, 0] := by
  obtain ⟨addr, hparse, hwords⟩ := (parseIpv6_readsAs .wrapping (literal "::1")).accept
    loopback_valid.isHex (Reading.accepted_of_rightCount loopback_valid.2 nofun)
  refine ⟨addr, hparse, ?_⟩
  rw [In6Addr.bytes, hwords]
  decide

/-- The text `::` is an address, and is not accepted; `::1` is, but not in network
order. -/
theorem parseIpv6_not_right :
    (parseIpv6 .wrapping (literal "::") = .ok none ∧ ¬ ParsesRight .wrapping (literal "::")) ∧
      (∃ addr, parseIpv6 .wrapping (literal "::1") = .ok (some addr) ∧
        addr.bytes = List.replicate 14 0 ++ [1, 0]) ∧
      ¬ ParsesRight .wrapping (literal "::1") := by
  have hnone : parseIpv6 .wrapping (literal "::") = .ok none :=
    (parseIpv6_readsAs _ _).reject fun h => absurd h.2.1 (by decide)
  obtain ⟨addr, hparse, hbytes⟩ := parseIpv6_loopback
  refine ⟨⟨hnone, fun h => ?_⟩, ⟨addr, hparse, hbytes⟩, fun h => ?_⟩
  · obtain ⟨addr, hparse⟩ := h.accepts_iff.mpr ⟨.compressed [] [],
      ⟨nofun, (by decide : 0 + 0 ≤ 7)⟩, rfl⟩
    rw [hnone] at hparse
    cases hparse
  · have hstores := h.stores loopback addr loopback_valid rfl hparse
    rw [hbytes] at hstores
    exact absurd hstores (by decide)

end Hzlibc.Inet
