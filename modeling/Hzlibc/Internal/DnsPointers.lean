import Hzlibc.Internal.DnsName

/-!
Names that end in a pointer.

A name whose last labels stand at an earlier place of the message should be read as
the labels in front of the pointer and those behind it together. The loop behind a
pointer does not follow a second one, it starts at the last eight bits of the offset,
and the dot in front of the pointer is written even if no label comes after it.
-/

namespace Hzlibc.Dns

open List

open Stdio (Byte)

/-- Labels `pre` and a pointer at `pos`, in a message that offsets of 14 bits reach all of. -/
structure Compressed (msg : List Byte) (pos : ℕ) (pre : List Label) (o : ℕ) (suffix : List Label)
    (rest : List Byte) : Prop where
  short : msg.length < 2 ^ 14
  labels : ∀ l ∈ pre, IsLabel l
  earlier : o < pos + (encode pre).length
  stored : NameAt msg o suffix
  layout : msg.drop pos = encode pre ++ (pointer o ++ rest)

/-- Both functions give the whole name, and go on behind the pointer. -/
def ReadsWhole (msg : List Byte) (pos : ℕ) (pre suffix : List Label) (rest : List Byte) : Prop :=
  parseDnsName msg (msg.drop pos) = .ok (dotted (pre ++ suffix), rest) ∧
    ∀ size, (dotted (pre ++ suffix)).length < size →
      expandDnsName msg (msg.drop pos) size = .ok (0, rest, dotted (pre ++ suffix) ++ [0])

/-- A row of labels without a pointer that has the same text. -/
def SameText (msg : List Byte) (o : ℕ) (suffix : List Label) : Prop :=
  ∃ ls rest, (∀ l ∈ ls, Readable l) ∧ msg.drop o = encode ls ++ 0 :: rest ∧
    dotted ls = dotted suffix

/-- The labels stand there themselves, with no pointer among them. -/
def Direct (msg : List Byte) (o : ℕ) (suffix : List Label) : Prop :=
  ∃ rest, msg.drop o = encode suffix ++ 0 :: rest

section

variable {msg rest : List Byte} {pos o : ℕ} {pre suffix ls : List Label}

theorem drop_add_of_drop {n : ℕ} {l : List Byte} (h : msg.drop pos = l ++ rest)
    (hn : l.length = n) : msg.drop (pos + n) = rest := by
  rw [← drop_drop, h, ← hn, drop_left]

/-- The bytes at a place say how the name goes on, so that there is one reading of it. -/
theorem NameAt.eq_of_drop (h : NameAt msg o suffix) (hls : ∀ l ∈ ls, Readable l)
    (hdrop : msg.drop o = encode ls ++ 0 :: rest) : ls = suffix := by
  induction h generalizing ls with
  | root hmsg =>
    cases ls with
    | nil => rfl
    | cons l ls =>
      rw [hmsg, encode_cons] at hdrop
      exact absurd (List.cons.inj hdrop).1.symm (hls l mem_cons_self).ne_zero
  | @label pos l suffix tail hl hmsg hrest ih =>
    have hlen : (BitVec.ofNat 8 l.length :: l).length = l.length + 1 := length_cons
    cases ls with
    | nil =>
      rw [hmsg] at hdrop
      exact absurd (List.cons.inj hdrop).1 hl.readable.ne_zero
    | cons m ls =>
      obtain ⟨hm, hls'⟩ := forall_mem_cons.mp hls
      rw [hmsg, encode_cons, cons_append, append_assoc] at hdrop
      obtain ⟨hbyte, happend⟩ := List.cons.inj hdrop
      have hlength : l.length = m.length := by
        rw [← hl.readable.toNat, hbyte, hm.toNat]
      obtain ⟨rfl, htail⟩ := append_inj happend hlength
      rw [ih hls' ((drop_add_of_drop hmsg hlen).trans htail)]
  | pointer hfit ho hmsg htarget ih =>
    rw [hmsg] at hdrop
    have hhigh := isPointer_pointer hfit
    cases ls with
    | nil => exact absurd ((List.cons.inj hdrop).1 ▸ hhigh) (by decide)
    | cons l ls =>
      exact absurd ((List.cons.inj hdrop).1 ▸ hhigh) (hls l mem_cons_self).not_isPointer

theorem NameAt.sameText_iff (h : NameAt msg o suffix) (hdirect : ∀ l ∈ suffix, IsLabel l) :
    SameText msg o suffix ↔ Direct msg o suffix := by
  constructor
  · rintro ⟨ls, rest, hls, hdrop, -⟩
    exact ⟨rest, h.eq_of_drop hls hdrop ▸ hdrop⟩
  · rintro ⟨rest, hdrop⟩
    exact ⟨suffix, rest, fun l hl => (hdirect l hl).readable, hdrop, rfl⟩

theorem NameAt.isLabel (h : NameAt msg o suffix) : ∀ l ∈ suffix, IsLabel l := by
  induction h with
  | root => exact fun _ hl => absurd hl not_mem_nil
  | label hl _ _ ih => exact forall_mem_cons.mpr ⟨hl, ih⟩
  | pointer _ _ _ _ ih => exact ih

/-- What is read behind a pointer is the rest of the name if it has the text of the rest and
the dot in front of it belongs there. -/
theorem targetLoop_eq_dotted_iff :
    targetLoop (msg.drop o) (dots pre) = .ok (dotted (pre ++ suffix)) ↔
      (pre = [] ∨ suffix ≠ []) ∧ SameText msg o suffix := by
  rw [targetLoop_eq_ok_iff]
  by_cases hsuffix : suffix = []
  · subst hsuffix
    rw [append_nil]
    constructor
    · rintro ⟨ls, rest', hls, hdrop, hdotted⟩
      -- the last dot makes the text longer than the labels alone
      have hpre : pre = [] := by
        by_contra hne
        have hlt := length_dotted_lt hne
        rw [hdotted, length_append] at hlt
        omega
      subst hpre
      exact ⟨.inl rfl, ls, rest', hls, hdrop, hdotted.symm⟩
    · rintro ⟨hpre, ls, rest', hls, hdrop, hdotted⟩
      obtain rfl := hpre.resolve_right (fun h => h rfl)
      exact ⟨ls, rest', hls, hdrop, hdotted.symm⟩
  · rw [dotted_append pre hsuffix, and_iff_right (Or.inr hsuffix), SameText]
    simp [eq_comm]

/-- The pointer can be followed to the rest of the name. -/
def Followed (msg : List Byte) (pre : List Label) (o : ℕ) (suffix : List Label) : Prop :=
  (pre = [] ∨ suffix ≠ []) ∧
    if o < 256 then Direct msg o suffix else SameText msg (o % 256) suffix

theorem NameAt.followed_iff (h : NameAt msg o suffix) :
    targetLoop (msg.drop (o % 256)) (dots pre) = .ok (dotted (pre ++ suffix)) ↔
      Followed msg pre o suffix := by
  rw [targetLoop_eq_dotted_iff, Followed]
  split
  next hnear => rw [Nat.mod_eq_of_lt hnear, h.sameText_iff h.isLabel]
  · rfl

namespace Compressed

section

variable (h : Compressed msg pos pre o suffix rest)
include h

theorem fits : o < 2 ^ 14 := by
  have hlength := congrArg List.length h.layout
  rw [length_drop, length_append, length_append] at hlength
  have hpointer : (pointer o).length = 2 := rfl
  have hshort := h.short
  have hearlier := h.earlier
  omega

theorem parseDnsName_eq :
    parseDnsName msg (msg.drop pos)
      = (targetLoop (msg.drop (o % 256)) (dots pre)).map fun name => (name, rest) := by
  rw [h.layout, parseDnsName_pointed h.labels h.fits]

theorem readsWhole_iff :
    ReadsWhole msg pos pre suffix rest ↔
      targetLoop (msg.drop (o % 256)) (dots pre) = .ok (dotted (pre ++ suffix)) := by
  have hparse : ReadsWhole msg pos pre suffix rest ↔
      parseDnsName msg (msg.drop pos) = .ok (dotted (pre ++ suffix), rest) :=
    and_iff_left_of_imp fun hparse size hsize =>
      (if_pos hsize).mp (expandDnsName_of_parseDnsName hparse size)
  rw [hparse, h.parseDnsName_eq]
  cases targetLoop (msg.drop (o % 256)) (dots pre) with
  | error fault => exact iff_of_false nofun nofun
  | ok name => simp [Except.map]

end

end Compressed

/-- Names behind a pointer are read right if the pointer leads to one of the first 256
places and no other pointer is there, or if what stands at the last eight bits of
the offset has the same text. -/
theorem readsWhole_compressed_iff (h : Compressed msg pos pre o suffix rest) :
    ReadsWhole msg pos pre suffix rest ↔
      (pre = [] ∨ suffix ≠ []) ∧
        if o < 256 then Direct msg o suffix else SameText msg (o % 256) suffix := by
  rw [h.readsWhole_iff, h.stored.followed_iff, Followed]

end

/-- The name `b.a`, with `a` in front of it. -/
def pointed : List Byte := [1, 'a', 0, 1, 'b', 0xC0, 0]

theorem pointed_compressed : Compressed pointed 3 [['b']] 0 [['a']] [] where
  short := by decide
  labels := by simp [IsLabel]
  earlier := by decide
  stored := .label (by decide) rfl (.root rfl)
  layout := by decide

theorem readsWhole_pointed :
    Compressed pointed 3 [['b']] 0 [['a']] [] ∧ ReadsWhole pointed 3 [['b']] [['a']] [] :=
  ⟨pointed_compressed,
    (readsWhole_compressed_iff pointed_compressed).mpr ⟨.inr (by simp), ⟨_, rfl⟩⟩⟩

/-- The name `c.b.a`, with two pointers to follow. -/
def pointedTwice : List Byte := [1, 'a', 0, 1, 'b', 0xC0, 0, 1, 'c', 0xC0, 3]

theorem pointedTwice_compressed : Compressed pointedTwice 7 [['c']] 3 [['b'], ['a']] [] where
  short := by decide
  labels := by simp [IsLabel]
  earlier := by decide
  stored := .label (by decide) rfl
    (.pointer (o := 0) (by decide) (by decide) rfl (.label (by decide) rfl (.root rfl)))
  layout := by decide

/-- The second pointer ends in a panic. -/
theorem not_readsWhole_pointedTwice :
    Compressed pointedTwice 7 [['c']] 3 [['b'], ['a']] [] ∧
      parseDnsName pointedTwice (pointedTwice.drop 7) = .error .ensure ∧
      expandDnsName pointedTwice (pointedTwice.drop 7) 1025 = .error .ensure ∧
      ¬ReadsWhole pointedTwice 7 [['c']] [['b'], ['a']] [] := by
  have hparse : parseDnsName pointedTwice (pointedTwice.drop 7) = .error .ensure := by
    rw [pointedTwice_compressed.parseDnsName_eq]
    simp [pointedTwice, targetLoop, isPointer, Except.map]
  have htarget (d : Dest) : expandTarget (0xC0 :: pointedTwice.drop 6) d = .error .ensure :=
    expandTarget_labelLoop.pointer _ _ (by decide)
  have hpointer (d : Dest) : expandLoop pointedTwice [0xC0, 3] d =
      (expandTarget (pointedTwice.drop 3) d).map fun r => (r.1, [], r.2) :=
    (expandLoop_labelLoop _).pointer _ _ (by decide)
  have hloop : expandLoop pointedTwice (pointedTwice.drop 7) ⟨[], 1025⟩ = .error .ensure := by
    have hfirst : expandTarget (pointedTwice.drop 3) (room 1025 ['c', '.']) = .error .ensure :=
      (expandTarget_labelLoop.label _ _ (by decide) (by decide)).trans (htarget _)
    refine ((expandLoop_labelLoop _).label _ _ (by decide) (by decide)).trans
      ((hpointer (room 1025 ['c', '.'])).trans ?_)
    rw [hfirst]
    rfl
  refine ⟨pointedTwice_compressed, hparse, ?_, ?_⟩
  · rw [expandDnsName, hloop]
  · intro h
    rw [ReadsWhole, hparse] at h
    cases h.1

end Hzlibc.Dns
