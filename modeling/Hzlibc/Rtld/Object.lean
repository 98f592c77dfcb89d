import Mathlib.Tactic.Common

/-!
Shared objects, as the run-time loader keeps them.

A file on disk is what the loader can learn by reading it: a header, a table of
program headers, and the parts of the dynamic section, the symbol table and
the relocation tables that later decisions depend on. `loadObject` checks the
file in the order the loader does and builds a `SharedObject`.

Objects point at each other. A pointer is an `ObjId`, a position in the list of
all objects ever built; positions are not used again, so a pointer to an object
that has been destroyed can still be told from every other one.
-/

namespace Hzlibc.Rtld

abbrev Name := List Char

abbrev Addr := BitVec 64

abbrev ObjId := ℕ

/-- `LoadError` without `Success`. -/
inductive LoadError
  | notFound
  | invalidElf
  | invalidArch
  | noMemory
  deriving DecidableEq

/-! ### What a file holds -/

inductive Binding
  | stbLocal
  | stbGlobal
  | stbWeak
  | stbGnuUnique
  deriving DecidableEq, Inhabited

/-- An entry of the symbol table. -/
structure Sym where
  name : Name
  bind : Binding
  /-- `st_shndx == SHN_UNDEF`. -/
  undef : Bool
  value : Addr
  deriving DecidableEq, Inhabited

inductive RelocType
  | relative
  | absolute
  | globDat
  | jumpSlot
  | tpoff
  | dtpmod
  | dtpoff
  | tlsdesc
  | copy
  | irelative
  | unsupported
  deriving DecidableEq, Inhabited

/-- A relocation entry. `sym` is the object's own symbol table entry it refers
to, absent for symbol index 0. -/
structure Reloc where
  type : RelocType
  sym : Option Sym
  deriving DecidableEq, Inhabited

/-- An entry of the dynamic section. -/
inductive Dyn
  | needed (name : Name)
  | soname (name : Name)
  | symbolic
  | flags (staticTls symbolic : Bool)
  | runpath (path : Name)
  | other
  deriving DecidableEq

inductive PType
  | load
  | dynamic
  | tls
  | other
  deriving DecidableEq, Inhabited

structure Phdr where
  type : PType
  vaddr : Addr
  memsz : Addr
  align : Addr
  /-- The bytes of the segment can be sought and read. -/
  readable : Bool
  deriving DecidableEq, Inhabited

/-- The checked fields of the ELF header. -/
structure Ehdr where
  mag : List (BitVec 8)
  cls : BitVec 8
  data : BitVec 8
  version : BitVec 8
  machine : BitVec 16
  deriving DecidableEq

structure File where
  /-- Absent when the file is shorter than a header. -/
  ehdr : Option Ehdr
  /-- Absent when the table cannot be sought or read. -/
  phdrs : Option (List Phdr)
  /-- Where the address space for the object was reserved, if it was. -/
  mapped : Option Addr
  dynamic : List Dyn
  symbols : List Sym
  relocs : List Reloc
  deriving DecidableEq

/-! ### The loaded object -/

structure SharedObject where
  name : Name
  path : Name
  runPaths : List Name
  base : Addr
  phdrs : List Phdr
  dynamic : List Dyn
  symbols : List Sym
  relocs : List Reloc
  tlsSize : Addr
  tlsAlign : Addr
  tlsOffset : Addr
  tlsModuleIndex : ℕ
  symbolicResolution : Bool
  initialTlsModel : Bool
  rtldLoaded : Bool
  initialized : Bool
  localScope : List ObjId
  dependencies : List ObjId
  deriving DecidableEq, Inhabited

/-- The DT_NEEDED names, in the order of the dynamic section. -/
def SharedObject.needed (o : SharedObject) : List Name :=
  o.dynamic.filterMap fun
    | .needed name => some name
    | _ => none

/-- `SharedObject::lookup`. The symbols are listed in the order in which the
object's hash table yields them. -/
def SharedObject.lookup (o : SharedObject) (name : Name) : Option Sym :=
  o.symbols.find? fun sym => sym.name = name

/-- Every `$ORIGIN` of a run path segment replaced. -/
def replaceOrigin (dir : Name) : Name → Name
  | '$' :: 'O' :: 'R' :: 'I' :: 'G' :: 'I' :: 'N' :: rest => dir ++ replaceOrigin dir rest
  | c :: rest => c :: replaceOrigin dir rest
  | [] => []

/-- The path up to its last slash, or all of it when it has none. -/
def dirOf (path : Name) : Name :=
  if '/' ∈ path then ((path.reverse.dropWhile (· ≠ '/')).drop 1).reverse else path

/-- The run path cut at its colons; the search for the next segment stops at
the end of the string, so a last empty one is not seen. -/
def runPathSegments (path : Name) : List Name :=
  let segments := path.splitOn ':'
  if segments.getLast? = some [] then segments.dropLast else segments

/-- The constructor of `SharedObject`. An object loaded on behalf of another one
takes `$ORIGIN` from that one's path. -/
def SharedObject.create (origin : Option Name) (name path : Name) (base : Addr)
    (phdrs : List Phdr) (dynamic : List Dyn) (symbols : List Sym) (relocs : List Reloc) :
    SharedObject :=
  let tls := (phdrs.filter (·.type = .tls)).getLast?
  let soname := (dynamic.filterMap fun | .soname n => some n | _ => none).getLast?
  let runpath := (dynamic.filterMap fun | .runpath p => some p | _ => none).getLast?
  { name := if name = [] then soname.getD [] else name
    path
    runPaths := (runPathSegments (runpath.getD [])).map
      (replaceOrigin (origin.getD (dirOf path)))
    base, phdrs, dynamic, symbols, relocs
    tlsSize := (tls.map (·.memsz)).getD 0
    tlsAlign := (tls.map (·.align)).getD 0
    tlsOffset := 0
    tlsModuleIndex := 0
    symbolicResolution := dynamic.any fun
      | .symbolic => true
      | .flags _ symbolic => symbolic
      | _ => false
    initialTlsModel := dynamic.any fun
      | .flags staticTls _ => staticTls
      | _ => false
    rtldLoaded := true
    initialized := false
    localScope := []
    dependencies := [] }

/-! ### Reading a file -/

def Ehdr.isElf (h : Ehdr) : Bool :=
  h.mag = [0x7f, 0x45, 0x4c, 0x46] ∧ h.data = 1 ∧ h.version = 1

/-- The file is one for this architecture, a 64-bit one whose number is `elfMachine`. -/
def Ehdr.isNative (h : Ehdr) (elfMachine : BitVec 16) : Bool :=
  h.cls = 2 ∧ h.machine = elfMachine

/-- The address of the first segment to load. -/
def linkBase (phdrs : List Phdr) : Addr :=
  ((phdrs.find? (·.type = .load)).map (·.vaddr)).getD 0

/-- `ObjectStorage::load_object`; no result when an assertion of the loader
stops the program. -/
def loadObject (elfMachine : BitVec 16) (origin : Name) (path : Name) (file : File) :
    Option (Except LoadError SharedObject) :=
  match file.ehdr with
  | none => some (.error .invalidElf)
  | some ehdr =>
    if !ehdr.isElf then some (.error .invalidElf)
    else if !ehdr.isNative elfMachine then some (.error .invalidArch)
    else
      match file.phdrs with
      | none => some (.error .invalidElf)
      | some phdrs =>
        if linkBase phdrs ≠ 0 then none
        else
          match file.mapped with
          | none => some (.error .noMemory)
          | some base =>
            if phdrs.any fun p => p.type = .load ∧ ¬ p.readable then
              some (.error .invalidElf)
            else
              some (.ok (SharedObject.create (some origin) [] path base phdrs
                file.dynamic file.symbols file.relocs))

/-- An object as the loader makes it from a file. -/
def SharedObject.FromFile (o : SharedObject) : Prop :=
  ∃ origin path base phdrs dynamic symbols relocs,
    o = SharedObject.create (some origin) [] path base phdrs dynamic symbols relocs

theorem fromFile_loadObject {elfMachine : BitVec 16} {origin path : Name} {file : File}
    {o : SharedObject} (h : loadObject elfMachine origin path file = some (.ok o)) :
    o.FromFile := by
  unfold loadObject at h
  repeat' split at h
  all_goals cases h
  exact ⟨_, _, _, _, _, _, _, rfl⟩

end Hzlibc.Rtld
