import Hzlibc.Memory.Words
import Hzlibc.Rtld.Object

/-!
Relocation.

`process_relocation` computes one or two words from an entry, its addend and the symbol that it
was resolved to, and writes them where the entry says. The addend of a REL entry is what stands
there before. The loader relocates the libc twice: `relocate_libc` takes every symbol from the libc
itself and saves the addends of the entries with a symbol, and `relocate` takes the symbols from
the global scope and the addends from there.

No entry writes into the tables, so they are lists here. The address space is that of the image;
descriptors of dynamic thread-local storage are allocated outside of it.
-/

namespace Hzlibc.Relocation

open Memory
open Rtld (RelocType Name)

variable {n : ℕ} {σ : Type*}

/-- What depends on the architecture. -/
structure Arch (n : ℕ) where
  tlsAboveTp : Bool
  tlsOffsetFromTp : Addr n
  /-- The addresses of `__tlsdesc_static` and `__tlsdesc_dynamic`. -/
  tlsdescStatic : Addr n
  tlsdescDynamic : Addr n

/-- What relocation reads of a `SharedObject`, which stands at `address`. -/
structure Object (n : ℕ) where
  address : Addr n
  base : Addr n
  tlsOffset : Addr n
  initialTlsModel : Bool
  tlsModuleIndex : Addr n

/-- An entry of the symbol table of the object that is relocated. -/
structure Sym where
  name : Name
  weak : Bool

structure ObjectSymbol (n : ℕ) where
  object : Object n
  value : Addr n

/-- A REL entry. The symbol with index 0 is no symbol. -/
structure Rel (n : ℕ) where
  offset : Addr n
  type : RelocType
  symIndex : ℕ

structure Rela (n : ℕ) extends Rel n where
  addend : Addr n

structure TlsdescData (n : ℕ) where
  index : Addr n
  addend : Addr n

/-- The entries for the procedure linkage table, if there are any. -/
inductive Plt (n : ℕ)
  | none
  | rela (entries : List (Rela n))
  | rel (entries : List (Rel n))
  /-- `DT_PLTREL` is neither of the two. -/
  | unknown

/-- The object that is relocated, with its tables. The `k`th descriptor is allocated at
`heap k`. -/
structure Image (n : ℕ) where
  arch : Arch n
  heap : ℕ → Addr n
  object : Object n
  symtab : ℕ → Sym
  rela : List (Rela n)
  relr : List (Addr n)
  rel : List (Rel n)
  plt : Plt n

/-- How an entry is processed: the loader stops, or the symbol is missing, or words are written
and a descriptor may be allocated. -/
inductive Outcome (n : ℕ)
  | panics
  | unresolved
  | writes (words : List (Addr n)) (data : Option (TlsdescData n))

@[ext]
structure State (n : ℕ) (σ : Type*) where
  mem : Mem n
  tlsDescs : List (TlsdescData n)
  storage : σ
  hasUnresolvedSymbols : Bool

/-- `OBJECT_STORAGE->lookup`, which may record something. -/
abbrev Lookup (n : ℕ) (σ : Type*) := Name → σ → Option (ObjectSymbol n) × σ

/-! ### One entry -/

def tpOffset (arch : Arch n) (tlsOffset : Addr n) : Addr n :=
  if arch.tlsAboveTp then tlsOffset + arch.tlsOffsetFromTp else -tlsOffset + arch.tlsOffsetFromTp

/-- The word for a symbol; a weak symbol may be missing. -/
def symbolWord (sym : Sym) (resolved : Option (ObjectSymbol n)) (word : ObjectSymbol n → Addr n) :
    Outcome n :=
  match resolved with
  | some r => .writes [word r] none
  | none => if sym.weak then .writes [0] none else .unresolved

/-- The words of a descriptor, and its data if the storage of the target is dynamic. -/
def tlsdescWords (im : Image n) (target : Object n) (value : Addr n) (count : ℕ) : Outcome n :=
  if target.initialTlsModel then
    .writes [im.arch.tlsdescStatic, tpOffset im.arch target.tlsOffset + value] none
  else .writes [im.arch.tlsdescDynamic, im.heap count] (some ⟨target.tlsModuleIndex, value⟩)

/-- What `process_relocation` does, when `count` descriptors have been allocated before. -/
def outcome (im : Image n) (e : Rel n) (addend : Addr n) (resolved : Option (ObjectSymbol n))
    (count : ℕ) : Outcome n :=
  match e.type with
  | .relative => .writes [im.object.base + addend] none
  | .absolute =>
    symbolWord (im.symtab e.symIndex) resolved fun r => r.object.base + r.value + addend
  | .globDat | .jumpSlot =>
    symbolWord (im.symtab e.symIndex) resolved fun r => r.object.base + r.value
  | .tpoff =>
    if e.symIndex ≠ 0 then
      match resolved with
      | none => .panics
      | some r =>
        if r.object.initialTlsModel then
          .writes [tpOffset im.arch r.object.tlsOffset + (r.value + addend)] none
        else .panics
    else if im.object.initialTlsModel then
      .writes [tpOffset im.arch im.object.tlsOffset + (0 + addend)] none
    else .panics
  | .dtpmod =>
    if e.symIndex ≠ 0 then
      match resolved with
      | none => .panics
      | some r => .writes [r.object.address] none
    else .writes [im.object.address] none
  | .dtpoff =>
    match resolved with
    | none => .panics
    | some r => .writes [r.value + addend] none
  | .tlsdesc =>
    if e.symIndex ≠ 0 then
      match resolved with
      | none => .unresolved
      | some r => tlsdescWords im r.object (r.value + addend) count
    else tlsdescWords im im.object (0 + addend) count
  | .copy | .irelative | .unsupported => .panics

/-- Where an entry writes. -/
def Image.target (im : Image n) (e : Rel n) : Addr n := im.object.base + e.offset

def processRelocation (im : Image n) (e : Rel n) (addend : Addr n)
    (resolved : Option (ObjectSymbol n)) (st : State n σ) : Option (State n σ) :=
  match outcome im e addend resolved st.tlsDescs.length with
  | .panics => none
  | .unresolved => some { st with hasUnresolvedSymbols := true }
  | .writes words data =>
    some { st with
      mem := writeWords st.mem (im.target e) words
      tlsDescs := st.tlsDescs ++ data.toList }

/-- These are left to `late_relocate`. -/
def Rel.late (e : Rel n) : Bool := e.type = .copy ∨ e.type = .irelative

/-- An entry with its symbol looked up. -/
def relocateEntry (im : Image n) (lookup : Lookup n σ) (e : Rel n) (addend : Addr n)
    (st : State n σ) : Option (State n σ) :=
  if e.symIndex ≠ 0 then
    let found := lookup (im.symtab e.symIndex).name st.storage
    processRelocation im e addend found.1 { st with storage := found.2 }
  else processRelocation im e addend none st

/-! ### The loops -/

def relaStep (im : Image n) (lookup : Lookup n σ) (st : State n σ) (e : Rela n) :
    Option (State n σ) :=
  if e.late then some st else relocateEntry im lookup e.toRel e.addend st

/-- The places that a bitmap names, for the words from `addr` on. An entry has no more bits than
rounds are given. -/
def relrBitmap (addr : Addr n) : ℕ → Addr n → ℕ → List (Addr n)
  | 0, _, _ => []
  | rounds + 1, entry, j =>
    let entry := entry >>> 1
    if entry = 0 then []
    else if entry.getLsbD 0 then
      (addr + BitVec.ofNat (8 * n) (j * n)) :: relrBitmap addr rounds entry (j + 1)
    else relrBitmap addr rounds entry (j + 1)

/-- The places that the RELR entries name, one after the other; there are none if a bitmap comes
first. -/
def relrPlaces (base : Addr n) : List (Addr n) → Option (Addr n) → Option (List (Addr n))
  | [], _ => some []
  | entry :: rest, relrAddr =>
    if entry.getLsbD 0 = false then
      let addr := base + entry
      (relrPlaces base rest (some (addr + BitVec.ofNat (8 * n) n))).map (addr :: ·)
    else
      match relrAddr with
      | none => none
      | some addr =>
        (relrPlaces base rest (some (addr + BitVec.ofNat (8 * n) ((8 * n - 1) * n)))).map
          (relrBitmap addr (8 * n) entry 0 ++ ·)

def relrStep (im : Image n) (st : State n σ) (addr : Addr n) : State n σ :=
  { st with mem := write st.mem addr (read st.mem addr + im.object.base) }

def relrLoop (im : Image n) (st : State n σ) : Option (State n σ) :=
  (relrPlaces im.object.base im.relr none).map fun places => places.foldl (relrStep im) st

/-! ### `relocate_libc` -/

def maxSavedLibcRelAddends : ℕ := 1024

/-- A symbol of the libc itself. -/
def ownLookup (im : Image n) (own : Name → Option (Addr n)) : Lookup n σ := fun name storage =>
  ((own name).map fun value => ⟨im.object, value⟩, storage)

/-- A REL entry of `relocate_libc`, with the addends saved so far. -/
def relStepLibc (im : Image n) (own : Name → Option (Addr n)) (x : State n σ × List (Addr n))
    (e : Rel n) : Option (State n σ × List (Addr n)) :=
  if e.late then some x
  else
    let addend := read x.1.mem (im.target e)
    if e.symIndex ≠ 0 then
      if x.2.length < maxSavedLibcRelAddends then
        (relocateEntry im (ownLookup im own) e addend x.1).map (·, x.2 ++ [addend])
      else none
    else (relocateEntry im (ownLookup im own) e addend x.1).map (·, x.2)

def pltLoopLibc (im : Image n) (own : Name → Option (Addr n)) (x : State n σ × List (Addr n)) :
    Option (State n σ × List (Addr n)) :=
  match im.plt with
  | .none => some x
  | .rela entries => (entries.foldlM (relaStep im (ownLookup im own)) x.1).map (·, x.2)
  | .rel entries => entries.foldlM (relStepLibc im own) x
  | .unknown => none

/-- The relocated image and the saved addends, unless the loader stops. -/
def relocateLibc (im : Image n) (own : Name → Option (Addr n)) (st : State n σ) :
    Option (State n σ × List (Addr n)) := do
  let st ← im.rela.foldlM (relaStep im (ownLookup im own)) { st with hasUnresolvedSymbols := false }
  let st ← relrLoop im st
  let x ← im.rel.foldlM (relStepLibc im own) (st, [])
  let x ← pltLoopLibc im own x
  if x.1.hasUnresolvedSymbols then none else some x

/-! ### `relocate` -/

/-- A REL entry of `relocate`, with the number of saved addends used so far. -/
def relStep (im : Image n) (lookup : Lookup n σ) (saved : Option (List (Addr n)))
    (x : State n σ × ℕ) (e : Rel n) : Option (State n σ × ℕ) :=
  if e.late then some x
  else
    match saved with
    | none => (relocateEntry im lookup e (read x.1.mem (im.target e)) x.1).map (·, x.2)
    | some addends =>
      if e.symIndex ≠ 0 then
        addends[x.2]?.bind fun addend =>
          (relocateEntry im lookup e addend x.1).map (·, x.2 + 1)
      else some x

def pltLoop (im : Image n) (lookup : Lookup n σ) (saved : Option (List (Addr n)))
    (x : State n σ × ℕ) : Option (State n σ × ℕ) :=
  match im.plt with
  | .none => some x
  | .rela entries => (entries.foldlM (relaStep im lookup) x.1).map (·, x.2)
  | .rel entries => entries.foldlM (relStep im lookup saved) x
  | .unknown => none

/-- The relocated image and the number of saved addends that were used, unless the loader stops.
`saved` is `SAVED_LIBC_REL_ADDENDS`. -/
def relocate (im : Image n) (lookup : Lookup n σ) (saved : Option (List (Addr n)))
    (st : State n σ) : Option (State n σ × ℕ) := do
  let st ← im.rela.foldlM (relaStep im lookup) { st with hasUnresolvedSymbols := false }
  let st ← if saved.isNone then relrLoop im st else some st
  let x ← im.rel.foldlM (relStep im lookup saved) (st, 0)
  let x ← pltLoop im lookup saved x
  if x.1.hasUnresolvedSymbols then none else some x

end Hzlibc.Relocation
