import Hzlibc.Memory.Layout
import Hzlibc.Rtld.Tls
import Mathlib.Data.List.TakeWhile

/-!
The object at an address.

`object_from_addr` looks at the segments of each object, `_dl_find_object` at one range from
`base` to `end`. The range begins at the load base and not at the first segment, and its
length is rounded up to a page and taken to include `end` itself. So it is not the range
of an executable that is linked at an address other than 0, and it reaches into the object
behind when that begins at `end`. These are the only two ways to miss: objects that are
linked at 0 and share no page are confused at the end of one of them and nowhere else.
-/

namespace Hzlibc.Rtld

open List

/-- The end of the last segment to load. -/
def linkEnd (phdrs : List Phdr) : Addr :=
  (phdrs.filter (·.type = .load)).foldl
    (fun last p => if last < p.vaddr + p.memsz then p.vaddr + p.memsz else last) 0

def SharedObject.endAddr (o : SharedObject) : Addr :=
  (o.base + (linkEnd o.phdrs - linkBase o.phdrs) + 0x1000 - 1) &&& ~~~(0x1000 - 1)

/-- `struct dl_find_object`; the link map stands for its object. -/
structure DlFindObject where
  flags : ℕ
  mapStart : Addr
  mapEnd : Addr
  linkMap : ObjId
  deriving DecidableEq

namespace Loader

variable (s : Loader) (addr : Addr)

/-- `_dl_find_object`; no result stands for -1. -/
def dlFindObject : Option DlFindObject :=
  (s.storage.objects.find? fun id =>
      !((s.obj id).base > addr || (s.obj id).endAddr < addr)).map fun id =>
    ⟨0, (s.obj id).base, (s.obj id).endAddr, id⟩

/-- The segments of all objects. -/
def segments : List Block :=
  s.storage.objects.flatMap fun id =>
    ((s.obj id).phdrs.filter (·.type = .load)).map fun p =>
      ⟨(s.obj id).base + p.vaddr, p.memsz.toNat⟩

/-- The object that a segment shows at the address is also found by its range. -/
def FindsConsistently : Prop :=
  ∀ id, s.objectFromAddr addr = some id →
    ∃ r, s.dlFindObject addr = some r ∧ r.linkMap = id ∧ r.mapStart ≤ addr ∧ addr < r.mapEnd

/-- The range of the object holds the address, and no range before does, with its end. -/
def RangeFirst (id : ObjId) : Prop :=
  ((s.obj id).base ≤ addr ∧ addr < (s.obj id).endAddr) ∧
    ∀ other ∈ s.storage.objects.takeWhile (· ≠ id),
      ¬((s.obj other).base ≤ addr ∧ addr ≤ (s.obj other).endAddr)

end Loader

/-- The first one that meets a test. -/
theorem find?_eq_some_iff_takeWhile {α : Type*} [DecidableEq α] {test : α → Bool} {l : List α}
    {x : α} : l.find? test = some x ↔
      x ∈ l ∧ test x = true ∧ ∀ y ∈ l.takeWhile (· ≠ x), test y = false := by
  induction l with
  | nil => simp
  | cons y l ih =>
    by_cases hxy : y = x
    · subst hxy
      cases hy : test y with
      | true => simp [hy]
      | false =>
        -- what is found later meets the test, `y` does not
        refine iff_of_false (fun h => ?_) (fun h => Bool.noConfusion h.2.1)
        have hfound := find?_some h
        rw [hy] at hfound
        cases hfound
    · have hmem : x ∈ y :: l ↔ x ∈ l := mem_cons.trans (or_iff_right fun h => hxy h.symm)
      cases hy : test y with
      | true => simp [hy, hxy]
      | false =>
        rw [find?_cons_of_neg (by simp [hy]), ih, hmem]
        simp [hxy, hy]

namespace Loader

variable {s : Loader} {addr : Addr}

theorem inRange_iff {o : SharedObject} :
    (!(o.base > addr || o.endAddr < addr)) = true ↔ o.base ≤ addr ∧ addr ≤ o.endAddr := by
  simp

/-- The two ways to find an object are consistent at an address exactly when the range of the
object there is the first one that holds the address. -/
theorem findsConsistently_iff (s : Loader) (addr : Addr) :
    s.FindsConsistently addr ↔ ∀ id, s.objectFromAddr addr = some id → s.RangeFirst addr id := by
  refine forall₂_congr fun id hid => ?_
  have hmem : id ∈ s.storage.objects := mem_of_find?_eq_some hid
  constructor
  · rintro ⟨r, hr, rfl, hstart, hend⟩
    obtain ⟨id, hfind, rfl⟩ := Option.map_eq_some_iff.mp hr
    obtain ⟨-, -, hbefore⟩ := find?_eq_some_iff_takeWhile.mp hfind
    refine ⟨⟨hstart, hend⟩, fun other hother hrange => ?_⟩
    have hnot := hbefore other hother
    rw [inRange_iff.mpr hrange] at hnot
    cases hnot
  · rintro ⟨⟨hstart, hend⟩, hbefore⟩
    have hfind := find?_eq_some_iff_takeWhile.mpr ⟨hmem,
      inRange_iff.mpr ⟨hstart, BitVec.le_of_lt hend⟩, fun other hother =>
        Bool.eq_false_iff.mpr fun h => hbefore other hother (inRange_iff.mp h)⟩
    exact ⟨_, Option.map_eq_some_iff.mpr ⟨id, hfind, rfl⟩, rfl, hstart, hend⟩

end Loader

/-! ### Segments and ranges -/

/-- The object is linked at 0, and nothing overflows when its segments are placed. -/
structure SharedObject.Laid (o : SharedObject) : Prop where
  linked : linkBase o.phdrs = 0
  segment : ∀ p ∈ o.phdrs, p.type = .load → p.vaddr.toNat + p.memsz.toNat < 2 ^ 64
  placed : o.base.toNat + (linkEnd o.phdrs).toNat + 0xFFF < 2 ^ 64

/-- A fold that takes the later of two addresses ends at none before the last. -/
theorem le_foldl {f : Addr → Phdr → Addr} (hf : ∀ last p, last ≤ f last p ∧
    p.vaddr + p.memsz ≤ f last p) (phdrs : List Phdr) (last : Addr) :
    last ≤ phdrs.foldl f last ∧ ∀ p ∈ phdrs, p.vaddr + p.memsz ≤ phdrs.foldl f last := by
  induction phdrs generalizing last with
  | nil => simp
  | cons q phdrs ih =>
    obtain ⟨hlast, hmem⟩ := ih (f last q)
    obtain ⟨hbefore, hq⟩ := hf last q
    exact ⟨BitVec.le_trans hbefore hlast,
      forall_mem_cons.mpr ⟨BitVec.le_trans hq hlast, hmem⟩⟩

theorem le_linkEnd {phdrs : List Phdr} {p : Phdr} (hp : p ∈ phdrs) (hload : p.type = .load) :
    p.vaddr + p.memsz ≤ linkEnd phdrs := by
  refine (le_foldl (fun last p => ?_) _ 0).2 p (mem_filter.mpr ⟨hp, by simpa using hload⟩)
  split_ifs with h
  · exact ⟨BitVec.le_of_lt h, BitVec.le_refl _⟩
  · exact ⟨BitVec.le_refl _, BitVec.not_lt.mp h⟩

section

variable {o : SharedObject} (h : o.Laid)
include h

theorem SharedObject.Laid.toNat_endAddr :
    o.endAddr.toNat = (o.base.toNat + (linkEnd o.phdrs).toNat + 0xFFF) / 0x1000 * 0x1000 := by
  have hpage : Memory.IsPowerOfTwo (0x1000 : Addr) := ⟨12, by decide, rfl⟩
  have hplaced := h.placed
  have hsum : (o.base + (linkEnd o.phdrs - 0) + 0x1000 - 1).toNat =
      o.base.toNat + (linkEnd o.phdrs).toNat + 0xFFF := by
    bv_omega
  rw [SharedObject.endAddr, h.linked, hpage.toNat_and_not, hsum]
  rfl

/-- What is in a segment of the object is in its range. -/
theorem SharedObject.Laid.mem_range {addr : Addr} {p : Phdr} (hp : p ∈ o.phdrs)
    (hload : p.type = .load) (hlow : o.base + p.vaddr ≤ addr)
    (hhigh : addr < o.base + p.vaddr + p.memsz) : o.base ≤ addr ∧ addr < o.endAddr := by
  have hsegment := h.segment p hp hload
  have hplaced := h.placed
  have hend := le_linkEnd hp hload
  rw [BitVec.lt_def, h.toNat_endAddr]
  bv_omega

end

namespace Loader

variable {s : Loader} {addr : Addr}

/-- Objects that are linked at 0 and share no page are told apart by their ranges, but for
the one address at the end of a range. -/
theorem rangeFirst_iff (hlaid : ∀ id ∈ s.storage.objects, (s.obj id).Laid)
    (hapart : ∀ id ∈ s.storage.objects, ∀ other ∈ s.storage.objects, id ≠ other →
      (s.obj id).endAddr ≤ (s.obj other).base ∨ (s.obj other).endAddr ≤ (s.obj id).base)
    {id : ObjId} (hid : s.objectFromAddr addr = some id) :
    s.RangeFirst addr id ↔
      ∀ other ∈ s.storage.objects.takeWhile (· ≠ id), (s.obj other).endAddr ≠ addr := by
  have hmem : id ∈ s.storage.objects := mem_of_find?_eq_some hid
  have hfound := find?_some (show find? _ _ = some id from hid)
  obtain ⟨p, hp, hsegment⟩ := any_eq_true.mp hfound
  obtain ⟨hload, hlow, hhigh⟩ := of_decide_eq_true hsegment
  have hrange := (hlaid id hmem).mem_range hp hload hlow hhigh
  refine ⟨fun h other hother hend => ?_, fun h => ⟨hrange, fun other hother hin => ?_⟩⟩
  · have hbase : (s.obj other).base ≤ (s.obj other).endAddr := by
      have hlaid := hlaid other ((takeWhile_sublist _).subset hother)
      rw [BitVec.le_def, hlaid.toNat_endAddr]
      omega
    exact h.2 other hother ⟨hend ▸ hbase, hend ▸ BitVec.le_refl _⟩
  · have hne : id ≠ other := fun heq => by
      simpa [heq] using mem_takeWhile_imp hother
    have hend := h other hother
    rcases hapart id hmem other ((takeWhile_sublist _).subset hother) hne with happ | happ
    · bv_omega
    · bv_omega

end Loader

/-- An object of one page, linked at `vaddr` and loaded at `base`. -/
def Image.onePage (path : Name) (base vaddr : Addr) : Image :=
  ⟨path, base, [⟨.load, vaddr, 4096, 4096, true⟩], [], [], []⟩

/-- The libc begins where the executable ends, and its first address is taken for one of the
executable; an executable that is linked at 0x400000 is not found at all. -/
theorem not_findsConsistently :
    (∃ s, startup (Env.ofLibraries fun _ => none) 8 (.onePage ['/', 'p'] 0x10000 0)
        (.onePage ['/', 'l'] 0x11000 0) = some (.success s) ∧
      s.segments.Pairwise Block.Apart ∧ s.objectFromAddr 0x11000 = some 1 ∧
      s.dlFindObject 0x11000 = some ⟨0, 0x10000, 0x11000, 0⟩ ∧ ¬ s.FindsConsistently 0x11000) ∧
    ∃ s, startup (Env.ofLibraries fun _ => none) 8 (.onePage ['/', 'p'] 0 0x400000)
        (.onePage ['/', 'l'] 0x500000 0) = some (.success s) ∧
      s.segments.Pairwise Block.Apart ∧ s.objectFromAddr 0x400000 = some 0 ∧
      s.dlFindObject 0x400000 = none ∧ ¬ s.FindsConsistently 0x400000 := by
  refine ⟨⟨_, rfl, by decide, rfl, rfl, fun h => ?_⟩, ⟨_, rfl, by decide, rfl, rfl, fun h => ?_⟩⟩
  · obtain ⟨r, hr, hid, -⟩ := h 1 rfl
    cases hr
    cases hid
  · obtain ⟨r, hr, -⟩ := h 0 rfl
    cases hr

end Hzlibc.Rtld
