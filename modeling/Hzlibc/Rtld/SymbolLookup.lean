import Hzlibc.Rtld.SymbolHash
import Hzlibc.Table.Groups
import Mathlib.Data.List.Nodup
import Mathlib.Data.List.Perm.Subperm
import Mathlib.Data.List.Range

/-!
The search for a symbol by its name.

A GNU hash section has its symbols in groups, one for each bucket. A bucket has the index of the
first symbol of its group, and the lowest bit of a chain word says whether its symbol is the last
one. In a System V section the chain of a bucket goes from symbol to symbol until it comes to
zero. Symbols are named by their index in the table; every access to one of the arrays may fail.
-/

namespace Hzlibc.Rtld

open Groups Stdio List Option
open BitVec hiding not_not

/-- `ELF_CLASS_BITS` is the width of a word of the bloom filter. -/
inductive ElfClass
  | elf32 | elf64
  deriving DecidableEq

def ElfClass.bits : ElfClass → ℕ
  | .elf32 => 32
  | .elf64 => 64

variable {cls : ElfClass}

/-- The four words at the begin of a GNU hash section, and the arrays that follow. -/
structure GnuTab (cls : ElfClass) where
  numBuckets : Word
  symOffset : Word
  bloomSize : Word
  bloomShift : Word
  bloom : List (BitVec cls.bits)
  buckets : List Word
  chain : List Word

structure ElfTab where
  numBuckets : Word
  buckets : List Word
  chain : List Word

/-- Whether two strings are the same, up to their terminating zeros. -/
def rtldStrcmp : CString → CString → Bool
  | [], [] => true
  | a :: as, b :: bs => if a ≠ b then false else rtldStrcmp as bs
  | [], _ :: _ | _ :: _, [] => false

/-- The bits that a name sets in its word of the bloom filter. -/
def bloomMask (cls : ElfClass) (bloomShift hash : Word) : BitVec cls.bits :=
  (1 : BitVec cls.bits) <<< (hash.toNat % cls.bits) |||
    (1 : BitVec cls.bits) <<< ((hash >>> bloomShift.toNat).toNat % cls.bits)

/-- The loop of `gnu_lookup`, over the chain words from that of symbol `symIndex` on. -/
def gnuWalk (hash : Word) (symName : CString) (names : List CString) :
    List Word → ℕ → Option (Option ℕ)
  | [], _ => none
  | symHash :: chain, symIndex =>
    names[symIndex]?.bind fun current =>
      if hash ||| 1#32 = symHash ||| 1#32 ∧ rtldStrcmp symName current then some (some symIndex)
      else if symHash &&& 1#32 ≠ 0#32 then some none
      else gnuWalk hash symName names chain (symIndex + 1)

/-- `gnu_lookup` after the bloom filter. -/
def bucketLookup (tab : GnuTab cls) (names : List CString) (symName : CString) (hash : Word) :
    Option (Option ℕ) :=
  tab.buckets[hash.toNat % tab.numBuckets.toNat]?.bind fun symIndex =>
    if symIndex < tab.symOffset then some none
    else gnuWalk hash symName names (tab.chain.drop (symIndex - tab.symOffset).toNat)
      symIndex.toNat

def gnuLookup (tab : GnuTab cls) (names : List CString) (symName : CString) :
    Option (Option ℕ) :=
  let hash := gnuHash symName
  tab.bloom[hash.toNat / cls.bits % tab.bloomSize.toNat]?.bind fun word =>
    let mask := bloomMask cls tab.bloomShift hash
    if word &&& mask ≠ mask then some none else bucketLookup tab names symName hash

/-- The loop of the constructor that looks for the end of the last group. -/
def endWalk : List Word → ℕ → Option ℕ
  | [], _ => none
  | symHash :: chain, symIndex =>
    if symHash &&& 1#32 = 0#32 then endWalk chain (symIndex + 1) else some symIndex

/-- `num_symbols`, from the GNU hash section. -/
def numSymbols (tab : GnuTab cls) : Option ℕ :=
  let symIndex := (tab.buckets.map BitVec.toNat).foldl max 0
  (if symIndex = 0 then some symIndex
    else endWalk (tab.chain.drop (symIndex - tab.symOffset.toNat)) symIndex).map (· + 1)

/-- The loop of `elf_lookup`, for a number of rounds. -/
def elfWalk (symName : CString) (names : List CString) (chain : List Word) :
    ℕ → Word → Option (Option ℕ)
  | 0, _ => none
  | fuel + 1, i =>
    if i = 0#32 then some none
    else names[i.toNat]?.bind fun current =>
      if rtldStrcmp symName current then some (some i.toNat)
      else chain[i.toNat]?.bind (elfWalk symName names chain fuel)

def elfLookup (fuel : ℕ) (tab : ElfTab) (names : List CString) (symName : CString) :
    Option (Option ℕ) :=
  let hash := elfHash symName
  tab.buckets[hash.toNat % tab.numBuckets.toNat]?.bind (elfWalk symName names tab.chain fuel)

/-! ### Well-formed sections -/

def nameAt (names : List CString) (i : ℕ) : CString := names[i]?.getD []

namespace GnuTab

def hashAt (names : List CString) (i : ℕ) : Word := BitVec.ofNat 32 (gnuHashSpec (nameAt names i))

def bucketOf (tab : GnuTab cls) (names : List CString) (i : ℕ) : ℕ :=
  (hashAt names i).toNat % tab.numBuckets.toNat

/-- The chain word of a symbol: its hash, with the lowest bit for the end of the group. -/
def chainWord (hash : Word) (last : Bool) : Word :=
  if last then hash ||| 1#32 else hash &&& ~~~1#32

/-- The section is built from the symbols from `symOffset` on. -/
structure WellFormed (tab : GnuTab cls) (names : List CString) : Prop where
  offset_pos : 1 ≤ tab.symOffset.toNat
  offset_le : tab.symOffset.toNat ≤ names.length
  names_length : names.length < 2 ^ 32
  buckets_pos : 0 < tab.numBuckets.toNat
  bloom_pos : 0 < tab.bloomSize.toNat
  shift_lt : tab.bloomShift.toNat < 32
  bloom_length : tab.bloom.length = tab.bloomSize.toNat
  buckets_length : tab.buckets.length = tab.numBuckets.toNat
  chain_length : tab.chain.length = names.length - tab.symOffset.toNat
  grouped : Contiguous (tab.bucketOf names) tab.symOffset.toNat names.length
  first : ∀ i, tab.symOffset.toNat ≤ i → i < names.length →
    IsFirst (tab.bucketOf names) tab.symOffset.toNat i →
      tab.buckets[tab.bucketOf names i]? = some (BitVec.ofNat 32 i)
  empty : ∀ b < tab.numBuckets.toNat,
    (∀ i, tab.symOffset.toNat ≤ i → i < names.length → tab.bucketOf names i ≠ b) →
      tab.buckets[b]? = some 0#32
  chained : ∀ i, tab.symOffset.toNat ≤ i → i < names.length →
    tab.chain[i - tab.symOffset.toNat]? =
      some (chainWord (hashAt names i) (IsLast (tab.bucketOf names) names.length i))
  filtered : ∀ i, tab.symOffset.toNat ≤ i → i < names.length →
    ∀ word, tab.bloom[(hashAt names i).toNat / cls.bits % tab.bloomSize.toNat]? = some word →
      word &&& bloomMask cls tab.bloomShift (hashAt names i) =
        bloomMask cls tab.bloomShift (hashAt names i)

end GnuTab

namespace ElfTab

/-- Following the chain from a symbol leads through this path to zero. -/
inductive Linked (chain : List Word) : Word → List Word → Prop
  | nil : Linked chain 0#32 []
  | cons {i j : Word} {path : List Word} (hi : i ≠ 0#32) (hj : chain[i.toNat]? = some j)
      (hpath : Linked chain j path) : Linked chain i (i :: path)

/-- The chain of every bucket goes once through the symbols with its hash. -/
structure WellFormed (tab : ElfTab) (names : List CString) : Prop where
  names_length : names.length < 2 ^ 32
  buckets_pos : 0 < tab.numBuckets.toNat
  chain_length : tab.chain.length = names.length
  linked : ∀ b < tab.numBuckets.toNat, ∃ head path, tab.buckets[b]? = some head ∧
    Linked tab.chain head path ∧ path.Nodup ∧
      ∀ i : Word, i ∈ path ↔ i ≠ 0#32 ∧ i.toNat < names.length ∧
        (sysvHash (nameAt names i.toNat)).toNat % tab.numBuckets.toNat = b

end ElfTab

/-! ### Names and chain words -/

@[simp] theorem rtldStrcmp_eq_true {a b : CString} : rtldStrcmp a b = true ↔ a = b := by
  fun_induction rtldStrcmp a b <;> simp_all

theorem getElem?_eq_some_nameAt {names : List CString} {i : ℕ} (hi : i < names.length) :
    names[i]? = some (nameAt names i) := by
  rw [nameAt, List.getElem?_eq_getElem hi, getD_some]

variable {s : CString}

theorem nameAt_of_getElem? {names : List CString} {i : ℕ}
    (h : names[i]? = some s) : i < names.length ∧ nameAt names i = s := by
  obtain ⟨hi, -⟩ := List.getElem?_eq_some_iff.mp h
  exact ⟨hi, Option.some.inj ((getElem?_eq_some_nameAt hi).symm.trans h)⟩

theorem drop_eq_cons {α : Type*} {l : List α} {k : ℕ} {x : α} (h : l[k]? = some x) :
    l.drop k = x :: l.drop (k + 1) := by
  obtain ⟨hk, rfl⟩ := List.getElem?_eq_some_iff.mp h
  exact drop_eq_getElem_cons hk

theorem ofNat_gnuHashSpec (name : CString) : BitVec.ofNat 32 (gnuHashSpec name) = gnuHash name := by
  rw [← gnuHash_toNat, BitVec.ofNat_toNat, BitVec.setWidth_eq]

theorem GnuTab.hashAt_eq {names : List CString} {i : ℕ} (h : nameAt names i = s) :
    hashAt names i = gnuHash s := by
  rw [hashAt, h, ofNat_gnuHashSpec]

theorem GnuTab.chainWord_or (hash : Word) (last : Bool) :
    chainWord hash last ||| 1#32 = hash ||| 1#32 := by
  cases last with
  | true =>
    change hash ||| 1#32 ||| 1#32 = hash ||| 1#32
    rw [BitVec.or_assoc, BitVec.or_self]
  | false =>
    apply BitVec.eq_of_getLsbD_eq
    intro i hi
    change (hash &&& ~~~1#32 ||| 1#32).getLsbD i = (hash ||| 1#32).getLsbD i
    simp only [getLsbD_or, getLsbD_and, getLsbD_not, hi, decide_true,
      Bool.true_and]
    cases (1#32).getLsbD i <;> simp

theorem GnuTab.chainWord_and (hash : Word) (last : Bool) :
    chainWord hash last &&& 1#32 = if last then 1#32 else 0#32 := by
  apply eq_of_getLsbD_eq
  intro i hi
  cases last with
  | true =>
    change ((hash ||| 1#32) &&& 1#32).getLsbD i = (1#32).getLsbD i
    simp only [getLsbD_or, getLsbD_and]
    cases (1#32).getLsbD i <;> simp
  | false =>
    change (hash &&& ~~~1#32 &&& 1#32).getLsbD i = (0#32).getLsbD i
    simp only [getLsbD_and, getLsbD_not, getLsbD_zero, hi, decide_true,
      Bool.true_and]
    cases (1#32).getLsbD i <;> simp

/-- The lowest bit of a chain word is clear inside of a group. -/
theorem GnuTab.chainWord_and_eq_zero (hash : Word) (last : Bool) :
    chainWord hash last &&& 1#32 = 0#32 ↔ last = false := by
  rw [chainWord_and]
  cases last <;> simp

section Gnu

variable {tab : GnuTab cls} {names : List CString} (h : tab.WellFormed names)

include h

/-- The loop sees the whole group of a bucket from its first symbol on, so it finds the first
symbol with the name. -/
theorem gnuWalk_firstFrom {j : ℕ} (hoff : tab.symOffset.toNat ≤ j) (hj : j < names.length)
    (hbucket : tab.bucketOf names j = (gnuHash s).toNat % tab.numBuckets.toNat) :
    ∃ r, gnuWalk (gnuHash s) s names (tab.chain.drop (j - tab.symOffset.toNat)) j = some r ∧
      FirstFrom (fun k => nameAt names k = s) j names.length r := by
  obtain ⟨n, hn⟩ : ∃ n, n = names.length - j := ⟨_, rfl⟩
  -- the induction is on the number of symbols from `j` on
  induction n generalizing j with
  | zero => omega
  | succ n ih =>
    rw [drop_eq_cons (h.chained j hoff hj), gnuWalk, getElem?_eq_some_nameAt hj, bind_some,
      GnuTab.chainWord_or]
    by_cases hname : nameAt names j = s
    · rw [if_pos ⟨by rw [GnuTab.hashAt_eq hname], rtldStrcmp_eq_true.mpr hname.symm⟩]
      exact ⟨_, rfl, .here hj hname⟩
    · rw [if_neg fun hmatch => hname (rtldStrcmp_eq_true.mp hmatch.2).symm]
      have hhere (k : ℕ) (hk : j ≤ k) (hkj : k < j + 1) : ¬nameAt names k = s := by
        rwa [le_antisymm (Nat.le_of_lt_succ hkj) hk]
      by_cases hlast : IsLast (tab.bucketOf names) names.length j
      · rw [if_pos (by rw [ne_eq, GnuTab.chainWord_and_eq_zero]; simp [hlast])]
        refine ⟨_, rfl, .later (.nowhere fun k hk hklt hks => ?_) j.le_succ hhere⟩
        -- another symbol with the name would be in the same group
        refine hlast.ne h.grouped hoff hk hklt (Eq.trans ?_ hbucket.symm)
        rw [GnuTab.bucketOf, GnuTab.hashAt_eq hks]
      · rw [if_neg (by rw [not_not, GnuTab.chainWord_and_eq_zero]; simp [hlast])]
        obtain ⟨hlt, hsame⟩ := Classical.not_imp.mp hlast
        obtain ⟨r, hr, hfirst⟩ := ih (j := j + 1) (by omega) hlt
          ((not_not.mp hsame).trans hbucket) (by omega)
        refine ⟨r, ?_, hfirst.later j.le_succ hhere⟩
        rw [show j - tab.symOffset.toNat + 1 = j + 1 - tab.symOffset.toNat by omega]
        exact hr

omit h in
/-- Symbols with the name are in the bucket of its hash. -/
theorem not_named_of_bucketOf_ne {k : ℕ}
    (hk : tab.bucketOf names k ≠ (gnuHash s).toNat % tab.numBuckets.toNat) :
    ¬nameAt names k = s := by
  intro hname
  refine hk ?_
  rw [GnuTab.bucketOf, GnuTab.hashAt_eq hname]

theorem bucketLookup_firstFrom (s : CString) : ∃ r, bucketLookup tab names s (gnuHash s) = some r ∧
    FirstFrom (fun k => nameAt names k = s) tab.symOffset.toNat names.length r := by
  by_cases hex : ∃ i, tab.symOffset.toNat ≤ i ∧ i < names.length ∧
      tab.bucketOf names i = (gnuHash s).toNat % tab.numBuckets.toNat
  · obtain ⟨i, hoff, hi, hbucket⟩ := hex
    obtain ⟨f, hoff, hfi, hgroup, hfirst⟩ := exists_first (g := tab.bucketOf names) hoff
    have hf : f < names.length := by omega
    have hbucket' := hgroup.trans hbucket
    have hnat : (BitVec.ofNat 32 f).toNat = f := by
      have hlt := h.names_length
      rw [BitVec.toNat_ofNat]
      omega
    have hentry := h.first f hoff hf hfirst
    rw [hbucket'] at hentry
    have hle : tab.symOffset ≤ BitVec.ofNat 32 f := by
      rw [BitVec.le_def, hnat]
      exact hoff
    obtain ⟨r, hr, hfirstFrom⟩ := gnuWalk_firstFrom h hoff hf hbucket'
    refine ⟨r, ?_, hfirstFrom.later hoff fun k hk hkf => ?_⟩
    · rw [bucketLookup, hentry, bind_some, if_neg (BitVec.not_lt.mpr hle),
        BitVec.toNat_sub_of_le hle, hnat]
      exact hr
    · exact not_named_of_bucketOf_ne (hbucket' ▸ hfirst k hk hkf)
  · have hnone (k : ℕ) (hk : tab.symOffset.toNat ≤ k) (hlt : k < names.length) :
        tab.bucketOf names k ≠ (gnuHash s).toNat % tab.numBuckets.toNat :=
      fun heq => hex ⟨k, hk, hlt, heq⟩
    have hentry := h.empty _ (Nat.mod_lt _ h.buckets_pos) hnone
    have hpos : 0#32 < tab.symOffset := by
      exact h.offset_pos
    refine ⟨none, ?_, .nowhere fun k hk hlt => not_named_of_bucketOf_ne (hnone k hk hlt)⟩
    rw [bucketLookup, hentry, bind_some, if_pos hpos]

theorem gnuLookup_firstFrom (s : CString) : ∃ r, gnuLookup tab names s = some r ∧
    FirstFrom (fun k => nameAt names k = s) tab.symOffset.toNat names.length r := by
  obtain ⟨word, hword⟩ : ∃ word,
      tab.bloom[(gnuHash s).toNat / cls.bits % tab.bloomSize.toNat]? = some word := by
    refine ⟨_, List.getElem?_eq_getElem ?_⟩
    rw [h.bloom_length]
    exact Nat.mod_lt _ h.bloom_pos
  by_cases hmask : word &&& bloomMask cls tab.bloomShift (gnuHash s) =
      bloomMask cls tab.bloomShift (gnuHash s)
  · obtain ⟨r, hr, hfirst⟩ := bucketLookup_firstFrom h s
    refine ⟨r, ?_, hfirst⟩
    simp [gnuLookup, hword, hmask]
    exact hr
  · refine ⟨none, ?_, .nowhere fun k hk hlt hname => ?_⟩
    · simp [gnuLookup, hword, hmask]
    · have hfiltered := h.filtered k hk hlt
      rw [GnuTab.hashAt_eq hname] at hfiltered
      exact hmask (hfiltered word hword)

/-! ### The number of symbols -/

omit h in
theorem foldl_max_eq {l : List ℕ} {a m : ℕ} (hm : m = a ∨ m ∈ l) (ha : a ≤ m)
    (hl : ∀ x ∈ l, x ≤ m) : l.foldl max a = m := by
  induction l generalizing a with
  | nil => exact (hm.resolve_right not_mem_nil).symm
  | cons x l ih =>
    have hx := hl x mem_cons_self
    refine ih ?_ (max_le ha hx) fun y hy => hl y (mem_cons_of_mem x hy)
    obtain rfl | hm := hm
    · exact .inl (max_eq_left hx).symm
    · obtain rfl | hm := mem_cons.mp hm
      · exact .inl (max_eq_right ha).symm
      · exact .inr hm

/-- An entry of the buckets is zero or the first symbol of a group. -/
theorem mem_buckets {x : Word} (hx : x ∈ tab.buckets) : x = 0#32 ∨ ∃ f,
    tab.symOffset.toNat ≤ f ∧ f < names.length ∧
      IsFirst (tab.bucketOf names) tab.symOffset.toNat f ∧ x = BitVec.ofNat 32 f := by
  obtain ⟨b, hb⟩ := mem_iff_getElem?.mp hx
  have hlt : b < tab.numBuckets.toNat := by
    rw [← h.buckets_length]
    exact (List.getElem?_eq_some_iff.mp hb).1
  by_cases hex : ∃ i, tab.symOffset.toNat ≤ i ∧ i < names.length ∧ tab.bucketOf names i = b
  · obtain ⟨i, hoff, hi, rfl⟩ := hex
    obtain ⟨f, hoff, hfi, hgroup, hfirst⟩ := exists_first (g := tab.bucketOf names) hoff
    have hentry := h.first f hoff (by omega) hfirst
    rw [hgroup, hb] at hentry
    exact .inr ⟨f, hoff, by omega, hfirst, Option.some.inj hentry⟩
  · have hentry := h.empty b hlt fun i hoff hi heq => hex ⟨i, hoff, hi, heq⟩
    rw [hb] at hentry
    exact .inl (Option.some.inj hentry)

theorem endWalk_eq {j : ℕ} (hoff : tab.symOffset.toNat ≤ j) (hj : j < names.length)
    (hgroup : tab.bucketOf names j = tab.bucketOf names (names.length - 1)) :
    endWalk (tab.chain.drop (j - tab.symOffset.toNat)) j = some (names.length - 1) := by
  obtain ⟨n, hn⟩ : ∃ n, n = names.length - 1 - j := ⟨_, rfl⟩
  induction n generalizing j with
  | zero =>
    have hlast : IsLast (tab.bucketOf names) names.length j := fun hlt => by omega
    rw [drop_eq_cons (h.chained j hoff hj), endWalk,
      if_neg (by rw [GnuTab.chainWord_and_eq_zero]; simp [hlast])]
    rw [show j = names.length - 1 by omega]
  | succ n ih =>
    have hnext : tab.bucketOf names (j + 1) = tab.bucketOf names j :=
      h.grouped j (j + 1) (names.length - 1) hoff (by omega) (by omega) (by omega) hgroup
    have hlast : ¬IsLast (tab.bucketOf names) names.length j := fun hl => hl (by omega) hnext
    rw [drop_eq_cons (h.chained j hoff hj), endWalk,
      if_pos (by rw [GnuTab.chainWord_and_eq_zero]; simp [hlast]),
      show j - tab.symOffset.toNat + 1 = j + 1 - tab.symOffset.toNat by omega]
    exact ih (by omega) (by omega) (hnext.trans hgroup) (by omega)

theorem numSymbols_eq (hsome : tab.symOffset.toNat < names.length) :
    numSymbols tab = some names.length := by
  have hlen := h.names_length
  have hpos := h.offset_pos
  have hlast : tab.symOffset.toNat ≤ names.length - 1 := by omega
  obtain ⟨f, hoff, hfi, hgroup, hfirst⟩ := exists_first (g := tab.bucketOf names) hlast
  have hf : f < names.length := by omega
  have hnat (k : ℕ) (hk : k < names.length) : (BitVec.ofNat 32 k).toNat = k := by
    rw [BitVec.toNat_ofNat]
    omega
  have hmax : (tab.buckets.map BitVec.toNat).foldl max 0 = f := by
    refine foldl_max_eq (.inr ?_) (Nat.zero_le f) ?_
    · have hmem := mem_of_getElem? (h.first f hoff hf hfirst)
      exact mem_map.mpr ⟨_, hmem, hnat f hf⟩
    · intro x hx
      obtain ⟨w, hw, rfl⟩ := mem_map.mp hx
      obtain rfl | ⟨k, hk, hklt, hkfirst, rfl⟩ := mem_buckets h hw
      · exact Nat.zero_le f
      · rw [hnat k hklt]
        exact first_le_first h.grouped (by omega) hkfirst hklt hoff hgroup
  simp only [numSymbols, hmax]
  rw [if_neg (by omega), endWalk_eq h hoff hf hgroup, map_some]
  congr 1
  omega

end Gnu

section Elf

variable {tab : ElfTab} {names : List CString}

/-- The chain leads to a symbol with the name, or there is none on it. -/
theorem elfWalk_eq {head : Word} {path : List Word} {fuel : ℕ}
    (hpath : ElfTab.Linked tab.chain head path) (hlt : ∀ i ∈ path, i.toNat < names.length)
    (hfuel : path.length < fuel) :
    elfWalk s names tab.chain fuel head =
      some ((path.find? fun i => nameAt names i.toNat = s).map BitVec.toNat) := by
  induction hpath generalizing fuel with
  | nil =>
    obtain ⟨fuel, rfl⟩ := Nat.exists_eq_add_one_of_ne_zero (Nat.ne_zero_of_lt hfuel)
    rfl
  | @cons i j path hi hj _ ih =>
    obtain ⟨fuel, rfl⟩ := Nat.exists_eq_add_one_of_ne_zero (Nat.ne_zero_of_lt hfuel)
    rw [elfWalk, if_neg hi, getElem?_eq_some_nameAt (hlt i mem_cons_self), bind_some]
    by_cases hname : nameAt names i.toNat = s
    · rw [if_pos (rtldStrcmp_eq_true.mpr hname.symm),
        List.find?_cons_of_pos (by simpa using hname), map_some]
    · rw [if_neg fun heq => hname (rtldStrcmp_eq_true.mp heq).symm, hj,
        List.find?_cons_of_neg (by simpa using hname)]
      refine ih (fun k hk => hlt k (mem_cons_of_mem i hk)) ?_
      simpa using hfuel

/-- A path through the table is not longer than the table. -/
theorem path_length_le {path : List Word} (hnodup : path.Nodup)
    (hlt : ∀ i ∈ path, i.toNat < names.length) : path.length ≤ names.length := by
  have hmap : (path.map BitVec.toNat).Nodup := hnodup.map fun _ _ => BitVec.eq_of_toNat_eq
  have hsub : path.map BitVec.toNat ⊆ List.range names.length := by
    intro k hk
    obtain ⟨i, hi, rfl⟩ := mem_map.mp hk
    exact mem_range.mpr (hlt i hi)
  simpa using (subperm_of_subset hmap hsub).length_le

/-- The result has the name, and there is one if any symbol of the table has it. -/
def FindsNamed (names : List CString) (s : CString) (r : Option ℕ) : Prop :=
  (∀ i, r = some i → 1 ≤ i ∧ names[i]? = some s) ∧
    (r.isSome ↔ ∃ i, 1 ≤ i ∧ names[i]? = some s)

theorem elfLookup_finds (h : tab.WellFormed names) (s : CString) :
    ∃ r, (∀ fuel, names.length < fuel → elfLookup fuel tab names s = some r) ∧
      FindsNamed names s r := by
  obtain ⟨head, path, hhead, hlinked, hnodup, hmem⟩ :=
    h.linked ((elfHash s).toNat % tab.numBuckets.toNat) (Nat.mod_lt _ h.buckets_pos)
  have hlt (i : Word) (hi : i ∈ path) : i.toNat < names.length := ((hmem i).mp hi).2.1
  refine ⟨(path.find? fun i => nameAt names i.toNat = s).map BitVec.toNat, fun fuel hfuel => ?_, ?_⟩
  · simp [elfLookup, hhead]
    exact elfWalk_eq hlinked hlt (lt_of_le_of_lt (path_length_le hnodup hlt) hfuel)
  · have hfound (i : ℕ) (hi : (path.find? fun i => nameAt names i.toNat = s).map BitVec.toNat =
        some i) : 1 ≤ i ∧ names[i]? = some s := by
      obtain ⟨w, hw, rfl⟩ := map_eq_some_iff.mp hi
      obtain ⟨hne, hwlt, -⟩ := (hmem w).mp (mem_of_find?_eq_some hw)
      have hname : nameAt names w.toNat = s := by simpa using List.find?_some hw
      refine ⟨Nat.one_le_iff_ne_zero.mpr fun hzero => hne (eq_of_toNat_eq hzero), ?_⟩
      rw [getElem?_eq_some_nameAt hwlt, hname]
    refine ⟨hfound, fun hsome => ?_, ?_⟩
    · obtain ⟨i, hi⟩ := isSome_iff_exists.mp hsome
      exact ⟨i, hfound i hi⟩
    · rintro ⟨i, hpos, hi⟩
      obtain ⟨hilt, hname⟩ := nameAt_of_getElem? hi
      have hlen := h.names_length
      have hnat : (BitVec.ofNat 32 i).toNat = i := by
        rw [BitVec.toNat_ofNat]
        omega
      have hpath : BitVec.ofNat 32 i ∈ path := by
        refine (hmem _).mpr ⟨fun hzero => ?_, by rwa [hnat], ?_⟩
        · rw [hzero] at hnat
          exact absurd hnat.symm (Nat.one_le_iff_ne_zero.mp hpos)
        · rw [hnat, hname, elfHash_eq]
      rw [isSome_map, List.find?_isSome]
      exact ⟨_, hpath, by rw [hnat, hname]; exact decide_eq_true rfl⟩

end Elf

/-! ### The two searches -/

theorem setOf_nameAt (names : List CString) (s : CString) (lo : ℕ) :
    {k | lo ≤ k ∧ k < names.length ∧ nameAt names k = s} = {k | lo ≤ k ∧ names[k]? = some s} := by
  ext k
  refine and_congr_right fun _ => ⟨fun hk => ?_, nameAt_of_getElem?⟩
  rw [getElem?_eq_some_nameAt hk.1, hk.2]

/-- `gnu_lookup` finds the first of the hashed symbols with the name, `elf_lookup` finds a symbol
with the name, and each finds one if there is one. The number of symbols is right if any symbol
is hashed. -/
theorem symbol_lookup_right (names : List CString) (s : CString) :
    (∀ tab : GnuTab cls, tab.WellFormed names → ∃ r, gnuLookup tab names s = some r ∧
      (r.isSome ↔ ∃ k, tab.symOffset.toNat ≤ k ∧ names[k]? = some s) ∧
        ∀ i, r = some i ↔ IsLeast {k | tab.symOffset.toNat ≤ k ∧ names[k]? = some s} i) ∧
    (∀ tab : ElfTab, tab.WellFormed names →
      ∃ r, (∀ fuel, names.length < fuel → elfLookup fuel tab names s = some r) ∧
        FindsNamed names s r) ∧
    ∀ tab : GnuTab cls, tab.WellFormed names → tab.symOffset.toNat < names.length →
      numSymbols tab = some (tab.symOffset.toNat + (names.length - tab.symOffset.toNat)) := by
  refine ⟨fun tab h => ?_, fun tab h => elfLookup_finds h s, fun tab h hsome => ?_⟩
  · obtain ⟨r, hr, hfirst⟩ := gnuLookup_firstFrom h s
    have hset := setOf_nameAt names s tab.symOffset.toNat
    refine ⟨r, hr, hfirst.isSome_iff.trans ?_, fun i => ?_⟩
    · exact exists_congr fun k => Set.ext_iff.mp hset k
    · rw [← hset]
      exact hfirst i
  · rw [Nat.add_sub_cancel' hsome.le]
    exact numSymbols_eq h hsome

/-- A table with two names after the reserved symbol, and its two sections. -/
def small : List CString := [[], literal "a", literal "b"]

def smallGnu : GnuTab .elf64 where
  numBuckets := 2#32
  symOffset := 1#32
  bloomSize := 1#32
  bloomShift := 6#32
  bloom := [0x10000C0#64]
  buckets := [1#32, 2#32]
  chain := [177671#32, 177671#32]

def smallElf : ElfTab where
  numBuckets := 1#32
  buckets := [1#32]
  chain := [0#32, 2#32, 0#32]

theorem smallGnu_wellFormed : smallGnu.WellFormed small := by
  have hcases (i : ℕ) (hlo : smallGnu.symOffset.toNat ≤ i) (hhi : i < small.length) :
      i = 1 ∨ i = 2 := by
    have hone : smallGnu.symOffset.toNat = 1 := rfl
    have hthree : small.length = 3 := rfl
    omega
  constructor
  case grouped =>
    intro i j k hi hij hjk hk hg
    obtain rfl | rfl := hcases i hi (by omega) <;> obtain rfl | rfl := hcases k (by omega) hk
    · rw [le_antisymm hjk hij]
    · exact absurd hg (by decide)
    · omega
    · rw [le_antisymm hjk hij]
  case first =>
    intro i hlo hhi _
    obtain rfl | rfl := hcases i hlo hhi <;> rfl
  case filtered =>
    intro i hlo hhi word hword
    obtain rfl | rfl := hcases i hlo hhi
    · cases hword
      decide
    · cases hword
      decide
  all_goals decide

theorem smallElf_wellFormed : smallElf.WellFormed small := by
  constructor
  case linked =>
    intro b hb
    have hone : smallElf.numBuckets.toNat = 1 := rfl
    obtain rfl : b = 0 := by omega
    refine ⟨1#32, [1#32, 2#32], rfl, ?_, by decide, fun i => ?_⟩
    · exact .cons (by decide) rfl (.cons (by decide) rfl .nil)
    · constructor
      · intro hi
        obtain rfl | rfl : i = 1#32 ∨ i = 2#32 := by simpa using hi
        all_goals exact ⟨by decide, by decide, rfl⟩
      · rintro ⟨hne, hlt, -⟩
        have hthree : small.length = 3 := rfl
        have hpos : i.toNat ≠ 0 := fun hzero => hne (eq_of_toNat_eq hzero)
        obtain hi | hi : i.toNat = 1 ∨ i.toNat = 2 := by omega
        · rw [eq_of_toNat_eq (y := 1#32) hi]
          decide
        · rw [eq_of_toNat_eq (y := 2#32) hi]
          decide
  all_goals decide

theorem symbol_lookup_small :
    (smallGnu.WellFormed small ∧ smallElf.WellFormed small) ∧
      (∃ r, gnuLookup smallGnu small (literal "b") = some r ∧
        (r.isSome ↔ ∃ k, smallGnu.symOffset.toNat ≤ k ∧ small[k]? = some (literal "b"))) ∧
      (∃ r, (∀ fuel, small.length < fuel → elfLookup fuel smallElf small (literal "b") = some r) ∧
        FindsNamed small (literal "b") r) ∧
      numSymbols smallGnu = some 3 := by
  obtain ⟨hgnu, helf, hnum⟩ := @symbol_lookup_right .elf64 small (literal "b")
  obtain ⟨r, hr, hsome, -⟩ := hgnu smallGnu smallGnu_wellFormed
  exact ⟨⟨smallGnu_wellFormed, smallElf_wellFormed⟩, ⟨r, hr, hsome⟩,
    helf smallElf smallElf_wellFormed, hnum smallGnu smallGnu_wellFormed (by decide)⟩

end Hzlibc.Rtld
