import Hzlibc.Rtld.Relocate

/-!
The words that a RELR table stands for.

The table is a run of addresses and bitmaps. The loop over it has a cursor: an address names the
word there and puts the cursor behind it, and bit `k` of a bitmap, which is at least 1, names the
word `k - 1` from the cursor on, which then moves on by as many words as a bitmap can name. Every
word that is named gets the base added. `relocate` and `relocate_libc` have the loop in the same
words.
-/

namespace Hzlibc.Relocation

open Memory List

variable {n : ℕ} {σ : Type*}

/-! ### The format -/

def bitmapWords (cursor entry : Addr n) : List (Addr n) :=
  ((List.range' 1 (8 * n - 1)).filter entry.getLsbD).map fun k =>
    cursor + BitVec.ofNat (8 * n) ((k - 1) * n)

def denotedFrom (base : Addr n) : Addr n → List (Addr n) → List (Addr n)
  | _, [] => []
  | cursor, entry :: table =>
    if entry.getLsbD 0 then
      bitmapWords cursor entry ++
        denotedFrom base (cursor + BitVec.ofNat (8 * n) ((8 * n - 1) * n)) table
    else (base + entry) :: denotedFrom base (base + entry + BitVec.ofNat (8 * n) n) table

/-- The words of a table. A table that begins with an address has no use for the cursor before
it. -/
def denoted (base : Addr n) (table : List (Addr n)) : List (Addr n) := denotedFrom base 0 table

/-- The base has been added to the words, once to each, and nothing else has changed. -/
structure Rebased (base : Addr n) (words : List (Addr n)) (m m' : Mem n) : Prop where
  added : ∀ a ∈ words, read m' a = read m a + base
  kept : ∀ x, (∀ a ∈ words, ¬Covers a x) → m' x = m x

/-! ### The loop as it is written -/

/-- `*relr_addr += base`. -/
def addBase (base : Addr n) (m : Mem n) (addr : Addr n) : Mem n :=
  write m addr (read m addr + base)

/-- The loop over the bits of an entry. -/
def bitmapLoop (base addr : Addr n) : ℕ → Addr n → ℕ → Mem n → Mem n
  | 0, _, _, m => m
  | rounds + 1, entry, j, m =>
    let entry := entry >>> 1
    if entry = 0 then m
    else
      bitmapLoop base addr rounds entry (j + 1)
        (if entry.getLsbD 0 then addBase base m (addr + BitVec.ofNat (8 * n) (j * n)) else m)

/-- The loop over the table. `none` is the failure of `__ensure`. -/
def tableLoop (base : Addr n) : List (Addr n) → Option (Addr n) → Mem n → Option (Mem n)
  | [], _, m => some m
  | entry :: rest, relrAddr, m =>
    if entry.getLsbD 0 = false then
      let addr := base + entry
      tableLoop base rest (some (addr + BitVec.ofNat (8 * n) n)) (addBase base m addr)
    else
      match relrAddr with
      | none => none
      | some addr =>
        tableLoop base rest (some (addr + BitVec.ofNat (8 * n) ((8 * n - 1) * n)))
          (bitmapLoop base addr (8 * n) entry 0 m)

theorem bitmapLoop_eq (base addr : Addr n) (rounds : ℕ) (entry : Addr n) (j : ℕ) (m : Mem n) :
    bitmapLoop base addr rounds entry j m
      = (relrBitmap addr rounds entry j).foldl (addBase base) m := by
  induction rounds generalizing entry j m with
  | zero => rfl
  | succ rounds ih =>
    rw [bitmapLoop, relrBitmap]
    by_cases hzero : entry >>> 1 = 0
    · rw [if_pos hzero, if_pos hzero]
      rfl
    · rw [if_neg hzero, if_neg hzero, ih]
      by_cases hbit : (entry >>> 1).getLsbD 0 = true
      · rw [if_pos hbit, if_pos hbit]
        rfl
      · rw [if_neg hbit, if_neg hbit]

variable (base : Addr n)

/-- The table can be read first and the base added afterwards. -/
theorem tableLoop_eq (table : List (Addr n)) (relrAddr : Option (Addr n)) (m : Mem n) :
    tableLoop base table relrAddr m
      = (relrPlaces base table relrAddr).map fun places => places.foldl (addBase base) m := by
  induction table generalizing relrAddr m with
  | nil => rfl
  | cons entry rest ih =>
    unfold tableLoop relrPlaces
    by_cases heven : entry.getLsbD 0 = false
    · rw [if_pos heven, if_pos heven, Option.map_map]
      exact ih _ _
    · rw [if_neg heven, if_neg heven]
      cases relrAddr with
      | none => rfl
      | some addr =>
        simp [ih, bitmapLoop_eq, Function.comp_def]

theorem foldl_relrStep (im : Image n) (places : List (Addr n)) (st : State n σ) :
    places.foldl (relrStep im) st
      = { st with mem := places.foldl (addBase im.object.base) st.mem } := by
  induction places generalizing st with
  | nil => rfl
  | cons addr places ih => exact ih _

theorem relrLoop_eq (im : Image n) (st : State n σ) :
    relrLoop im st
      = (tableLoop im.object.base im.relr none st.mem).map fun mem => { st with mem } := by
  rw [tableLoop_eq, Option.map_map]
  exact Option.map_congr fun places _ => foldl_relrStep im places st

/-! ### The loop reads the format -/

/-- Round `s` is for bit `s + 1`, and the loop ends when no bit is left. -/
theorem relrBitmap_eq (addr entry : Addr n) (rounds s : ℕ) :
    relrBitmap addr rounds (entry >>> s) s
      = ((List.range' (s + 1) rounds).filter entry.getLsbD).map fun k =>
          addr + BitVec.ofNat (8 * n) ((k - 1) * n) := by
  induction rounds generalizing s with
  | zero => rfl
  | succ rounds ih =>
    rw [relrBitmap]
    by_cases hzero : entry >>> s >>> 1 = 0
    · have hbits : ∀ k ∈ List.range' (s + 1) (rounds + 1), ¬entry.getLsbD k = true := by
        intro k hk hbit
        obtain ⟨i, rfl⟩ := Nat.exists_eq_add_of_le (mem_range'_1.mp hk).1
        have hshift : (entry >>> s >>> 1).getLsbD i = true := by
          rwa [BitVec.getLsbD_ushiftRight, BitVec.getLsbD_ushiftRight, ← Nat.add_assoc]
        rw [hzero] at hshift
        simp at hshift
      rw [if_pos hzero, filter_eq_nil_iff.mpr hbits]
      rfl
    · rw [if_neg hzero, ← BitVec.shiftRight_add, BitVec.getLsbD_ushiftRight, ih (s + 1),
        List.range'_succ, filter_cons]
      split
      · rfl
      · rfl

/-- The rounds are one more than the bits that name a word, and there is no bit for the last. -/
theorem relrBitmap_eq_bitmapWords (addr entry : Addr n) :
    relrBitmap addr (8 * n) entry 0 = bitmapWords addr entry := by
  cases hn : 8 * n with
  | zero =>
    rw [bitmapWords, show 8 * n - 1 = 0 by omega]
    rfl
  | succ bits =>
    have hlast : ¬entry.getLsbD (1 + bits) = true := by
      rw [BitVec.getLsbD_of_ge entry _ (by omega)]
      exact Bool.false_ne_true
    have h := relrBitmap_eq addr entry (bits + 1) 0
    rw [List.range'_1_concat, filter_append, filter_cons_of_neg hlast, filter_nil, append_nil] at h
    rw [bitmapWords, show 8 * n - 1 = bits by omega]
    exact h

theorem relrPlaces_some (table : List (Addr n)) (cursor : Addr n) :
    relrPlaces base table (some cursor) = some (denotedFrom base cursor table) := by
  induction table generalizing cursor with
  | nil => rfl
  | cons entry rest ih =>
    unfold relrPlaces denotedFrom
    by_cases heven : entry.getLsbD 0 = false
    · rw [if_pos heven, if_neg (ne_true_of_eq_false heven)]
      simp [ih]
    · rw [if_neg heven, if_pos (eq_true_of_ne_false heven)]
      simp [ih, relrBitmap_eq_bitmapWords]

/-- A table that begins with an address. -/
theorem relrPlaces_none {entry : Addr n} (heven : entry.getLsbD 0 = false) (rest : List (Addr n)) :
    relrPlaces base (entry :: rest) none = some (denoted base (entry :: rest)) := by
  rw [denoted, ← relrPlaces_some]
  unfold relrPlaces
  rw [if_pos heven, if_pos heven]

/-! ### The base is added once -/

theorem foldl_addBase_of_not_covers {base : Addr n} {words : List (Addr n)} {m : Mem n}
    {x : Addr n} (h : ∀ a ∈ words, ¬Covers a x) : words.foldl (addBase base) m x = m x := by
  induction words generalizing m with
  | nil => rfl
  | cons a words ih =>
    obtain ⟨hhere, hrest⟩ := forall_mem_cons.mp h
    rw [foldl_cons, ih hrest, addBase, write_of_not_covers hhere]

theorem rebased_foldl_addBase {words : List (Addr n)} (h : words.Pairwise Apart) (m : Mem n) :
    Rebased base words m (words.foldl (addBase base) m) := by
  refine ⟨?_, fun x hx => foldl_addBase_of_not_covers hx⟩
  induction words generalizing m with
  | nil => exact forall_mem_nil _
  | cons a words ih =>
    obtain ⟨hhere, hrest⟩ := pairwise_cons.mp h
    rw [foldl_cons]
    refine forall_mem_cons.mpr ⟨?_, ?_⟩
    · -- The words that follow leave this one alone.
      have hkept : read (words.foldl (addBase base) (addBase base m a)) a
          = read (addBase base m a) a :=
        read_congr fun x hx =>
          foldl_addBase_of_not_covers fun b hb => (hhere b hb).not_covers hx
      rw [hkept, addBase, read_write]
    · intro b hb
      rw [ih hrest _ b hb, addBase, read_write_of_apart (hhere b hb)]

/-- The image with no other table. -/
def Image.relrOnly (im : Image n) : Image n := { im with rela := [], rel := [], plt := .none }

/-- The loop adds the base once to each of the words that the table denotes and changes nothing
else, in `relocate` as in `relocate_libc`. -/
theorem relr_rebases {im : Image n} {entry : Addr n} {rest : List (Addr n)}
    (htable : im.relr = entry :: rest) (haddress : entry.getLsbD 0 = false)
    (hdistinct : (denoted im.object.base im.relr).Pairwise Apart) (st : State n σ)
    (lookup : Lookup n σ) (own : Rtld.Name → Option (Addr n)) :
    ∃ mem, Rebased im.object.base (denoted im.object.base im.relr) st.mem mem ∧
      tableLoop im.object.base im.relr none st.mem = some mem ∧
      relocate im.relrOnly lookup none st
        = some ({ st with mem, hasUnresolvedSymbols := false }, 0) ∧
      relocateLibc im.relrOnly own st
        = some ({ st with mem, hasUnresolvedSymbols := false }, []) := by
  have hloop : tableLoop im.object.base im.relr none st.mem
      = some ((denoted im.object.base im.relr).foldl (addBase im.object.base) st.mem) := by
    rw [tableLoop_eq, htable, relrPlaces_none _ haddress]
    rfl
  have hrelr : relrLoop im.relrOnly { st with hasUnresolvedSymbols := false }
      = some { st with
          mem := (denoted im.object.base im.relr).foldl (addBase im.object.base) st.mem
          hasUnresolvedSymbols := false } := by
    rw [relrLoop_eq]
    change (tableLoop im.object.base im.relr none st.mem).map _ = _
    rw [hloop]
    rfl
  refine ⟨_, rebased_foldl_addBase _ hdistinct st.mem, hloop, ?_, ?_⟩
  all_goals
    change (relrLoop im.relrOnly { st with hasUnresolvedSymbols := false }).bind _ = _
    rw [hrelr]
    rfl

/-- A table with an address and a bitmap for the second and the third word after it. -/
def relrImage : Image 8 where
  arch := ⟨false, 0, 0x10, 0x20⟩
  heap k := 0x9000 + 16 * BitVec.ofNat 64 k
  object := ⟨0x100, 0x1000, 0, true, 0⟩
  symtab _ := ⟨[], false⟩
  rela := []
  relr := [0x20, 0b1101]
  rel := []
  plt := .none

theorem relr_rebases_small :
    denoted relrImage.object.base relrImage.relr = [0x1020, 0x1030, 0x1038] ∧
    ∃ mem, Rebased relrImage.object.base [0x1020, 0x1030, 0x1038] (fun _ => 1) mem ∧
      relocateLibc relrImage.relrOnly (fun _ => none) ⟨fun _ => 1, [], (), true⟩
        = some (⟨mem, [], (), false⟩, []) := by
  have hwords : denoted relrImage.object.base relrImage.relr = [0x1020, 0x1030, 0x1038] := by decide
  have haligned : ∀ a ∈ denoted relrImage.object.base relrImage.relr, 8 ∣ a.toNat := by
    rw [hwords]
    simp
  have hdistinct : (denoted relrImage.object.base relrImage.relr).Pairwise Apart := by
    refine List.Pairwise.imp_of_mem ?_ (show List.Pairwise (· ≠ ·) _ by rw [hwords]; decide)
    intro a b ha hb hne
    exact apart_of_aligned (by decide) (haligned a ha) (haligned b hb) hne
  obtain ⟨mem, hmem, -, -, hlibc⟩ := relr_rebases (rfl : relrImage.relr = [0x20, 0b1101]) rfl
    hdistinct ⟨fun _ => 1, [], (), true⟩ (fun _ s => (none, s)) fun _ => none
  exact ⟨hwords, mem, hwords ▸ hmem, hlibc⟩

end Hzlibc.Relocation
