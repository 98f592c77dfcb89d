import Mathlib.Algebra.Order.Ring.Int

/-!
Words in byte-addressed memory.

A word has as many bytes as an address, and can be read and written at any address, lowest byte
first. Two memories are compared on a set of addresses: a read sees only the bytes of its word,
and a write changes no others.
-/

namespace Hzlibc.Memory

variable {n : ℕ}

/-- Addresses, and words, of `n` bytes. -/
abbrev Addr (n : ℕ) := BitVec (8 * n)

abbrev Mem (n : ℕ) := Addr n → BitVec 8

/-- The address is one of the word at `a`. -/
def Covers (a x : Addr n) : Prop := (x - a).toNat < n

instance (a x : Addr n) : Decidable (Covers a x) :=
  inferInstanceAs (Decidable ((x - a).toNat < n))

def byteAt (v : Addr n) (k : ℕ) : BitVec 8 := v.extractLsb' (8 * k) 8

def write (m : Mem n) (a v : Addr n) : Mem n := fun x =>
  if Covers a x then byteAt v (x - a).toNat else m x

/-- The number that the first `k` bytes from `a` on stand for. -/
def littleEndian (m : Mem n) (a : Addr n) : ℕ → ℕ
  | 0 => 0
  | k + 1 => littleEndian m a k + (m (a + BitVec.ofNat (8 * n) k)).toNat * 256 ^ k

def read (m : Mem n) (a : Addr n) : Addr n := BitVec.ofNat (8 * n) (littleEndian m a n)

/-- Words at `a` and after it. -/
def writeWords (m : Mem n) (a : Addr n) : List (Addr n) → Mem n
  | [] => m
  | v :: vs => writeWords (write m a v) (a + BitVec.ofNat (8 * n) n) vs

/-- The address is one of `size` words from `a` on. -/
def Spans (a : Addr n) : ℕ → Addr n → Prop
  | 0, _ => False
  | size + 1, x => Covers a x ∨ Spans (a + BitVec.ofNat (8 * n) n) size x

instance Spans.instDecidable : (a : Addr n) → (size : ℕ) → (x : Addr n) →
    Decidable (Spans a size x)
  | _, 0, _ => inferInstanceAs (Decidable False)
  | a, size + 1, x =>
    have := Spans.instDecidable (a + BitVec.ofNat (8 * n) n) size x
    inferInstanceAs (Decidable (Covers a x ∨ Spans (a + BitVec.ofNat (8 * n) n) size x))

variable {m m' : Mem n} {a v x : Addr n}

theorem write_of_covers (h : Covers a x) : write m a v x = byteAt v (x - a).toNat := if_pos h

theorem write_of_not_covers (h : ¬Covers a x) : write m a v x = m x := if_neg h

theorem covers_add {k : ℕ} (hk : k < n) (a : Addr n) : Covers a (a + BitVec.ofNat (8 * n) k) := by
  rw [Covers, BitVec.add_comm, BitVec.add_sub_cancel]
  exact lt_of_le_of_lt (Nat.mod_le _ _) hk

/-- A read sees only the bytes of its word. -/
theorem read_congr (h : ∀ x, Covers a x → m x = m' x) : read m a = read m' a := by
  have hbytes (k : ℕ) (hk : k ≤ n) : littleEndian m a k = littleEndian m' a k := by
    induction k with
    | zero => rfl
    | succ k ih => rw [littleEndian, littleEndian, ih (by omega), h _ (covers_add hk a)]
  rw [read, read, hbytes n le_rfl]

theorem toNat_add_ofNat_sub {k : ℕ} (hk : k < n) (a : Addr n) :
    (a + BitVec.ofNat (8 * n) k - a).toNat = k := by
  rw [BitVec.add_comm, BitVec.add_sub_cancel]
  exact Nat.mod_eq_of_lt ((Nat.lt_two_pow_self).trans_le' (by omega))

theorem littleEndian_write {k : ℕ} (hk : k ≤ n) :
    littleEndian (write m a v) a k = v.toNat % 256 ^ k := by
  induction k with
  | zero => exact (Nat.mod_one _).symm
  | succ k ih =>
    rw [littleEndian, ih (by omega), write_of_covers (covers_add hk a), toNat_add_ofNat_sub hk,
      byteAt, BitVec.extractLsb'_toNat, Nat.shiftRight_eq_div_pow, Nat.pow_mul]
    exact (congrArg _ (Nat.mul_comm _ _)).trans Nat.mod_pow_succ.symm

theorem read_write : read (write m a v) a = v := by
  have hlt : v.toNat < 256 ^ n := lt_of_lt_of_eq v.isLt (Nat.pow_mul 2 8 n)
  rw [read, littleEndian_write le_rfl, Nat.mod_eq_of_lt hlt, BitVec.ofNat_toNat, BitVec.setWidth_eq]

/-- The words at the two addresses have no byte in common. -/
def Apart (a b : Addr n) : Prop := n ≤ (b - a).toNat ∧ n ≤ (a - b).toNat

theorem Apart.not_covers {b : Addr n} (h : Apart a b) (ha : Covers a x) : ¬Covers b x := by
  intro hb
  have hba : b - a = (x - a) - (x - b) := by grind
  have hab : a - b = (x - b) - (x - a) := by grind
  obtain ⟨hright, hleft⟩ := h
  rw [Covers] at ha hb
  -- The two distances from `x` differ by less than a word, one way round or the other.
  rcases Nat.le_total (x - b).toNat (x - a).toNat with hle | hle
  · rw [hba, BitVec.toNat_sub_of_le hle] at hright
    omega
  · rw [hab, BitVec.toNat_sub_of_le hle] at hleft
    omega

/-- Two aligned words are apart if they are not the same. -/
theorem apart_of_aligned {b : Addr n} (hn : n ∣ 2 ^ (8 * n)) (ha : n ∣ a.toNat)
    (hb : n ∣ b.toNat) (hne : a ≠ b) : Apart a b := by
  have hdistance (c d : Addr n) (hc : n ∣ c.toNat) (hd : n ∣ d.toNat) (hne : d ≠ c) :
      n ≤ (d - c).toNat := by
    refine Nat.le_of_dvd (Nat.pos_of_ne_zero fun hzero => hne ?_) ?_
    · have hsub : d - c = 0 := BitVec.eq_of_toNat_eq (by rw [hzero]; rfl)
      grind
    · rw [BitVec.toNat_sub, Nat.dvd_mod_iff hn]
      exact Nat.dvd_add (Nat.dvd_sub hn hc) hd
  exact ⟨hdistance a b ha hb hne.symm, hdistance b a hb ha hne⟩

theorem read_write_of_apart {b : Addr n} (h : Apart a b) : read (write m a v) b = read m b :=
  read_congr fun _ hx => write_of_not_covers fun ha => h.not_covers ha hx

theorem writeWords_of_not_spans {vs : List (Addr n)} (h : ¬Spans a vs.length x) :
    writeWords m a vs x = m x := by
  induction vs generalizing m a with
  | nil => rfl
  | cons v vs ih =>
    obtain ⟨hhere, hrest⟩ := not_or.mp h
    rw [writeWords, ih hrest, write_of_not_covers hhere]

/-- What is written does not depend on what was there. -/
theorem writeWords_of_spans {vs : List (Addr n)} (h : Spans a vs.length x) :
    writeWords m a vs x = writeWords m' a vs x := by
  induction vs generalizing m m' a with
  | nil => cases h
  | cons v vs ih =>
    rw [writeWords, writeWords]
    by_cases hrest : Spans (a + BitVec.ofNat (8 * n) n) vs.length x
    · exact ih hrest
    · rw [writeWords_of_not_spans hrest, writeWords_of_not_spans hrest]
      have hhere : Covers a x := h.resolve_right hrest
      rw [write_of_covers hhere, write_of_covers hhere]

end Hzlibc.Memory
