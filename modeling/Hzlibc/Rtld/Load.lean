import Hzlibc.Rtld.Lookup
import Hzlibc.Search.Loop

/-!
Loading an object with everything it needs.

`load_dependencies` is two nested loops: the outer one takes objects from the
back of the load list, the inner one reads the DT_NEEDED entries of the object
taken. Both are rounds of one loop here, whose state remembers the object being
read and the entries still to come; the load list is kept with its back first.
The two places that give up run the same clean-up, `rollback`.

`dlapiOpen` and `startup` are the two callers, with the constructors each of
them runs afterwards. A panic or a failed assertion is the outcome `abort`; no
outcome at all means that the bound on the rounds was too small.
-/

namespace Hzlibc.Rtld

/-! ### Relocation

Only what relocation needs from lookups and what it does to the unique map is
kept; the words it writes are not. -/

/-- Entries that wait until every object has been relocated. -/
def Reloc.isLate (r : Reloc) : Bool := r.type = .copy ∨ r.type = .irelative

/-- `process_late_relocation`: whether the loader goes on after the entry. -/
def processLateRelocation (r : Reloc) (resolved : Option ObjectSymbol) : Bool :=
  match r.type with
  | .copy => resolved.isSome
  | .irelative => true
  | _ => false

namespace Loader

variable (s : Loader)

/-- `process_relocation`: whether the loader goes on after the entry. -/
def processRelocation (id : ObjId) (r : Reloc) (resolved : Option ObjectSymbol) : Bool :=
  match r.type with
  | .relative => true
  | .absolute | .globDat | .jumpSlot =>
    r.sym.any (·.bind = .stbWeak) || resolved.isSome
  | .tpoff =>
    match r.sym with
    | some _ => resolved.any fun d => (s.obj d.object).initialTlsModel
    | none => (s.obj id).initialTlsModel
  | .dtpmod | .tlsdesc => r.sym.isNone || resolved.isSome
  | .dtpoff => resolved.isSome
  | .copy | .irelative | .unsupported => false

/-- The lookup made for a relocation entry, if it names a symbol. -/
def lookupReloc (id : ObjId) (r : Reloc) (policy : LookupPolicy) :
    Option ObjectSymbol × Loader :=
  match r.sym with
  | some sym => s.lookup (some id) sym.name policy
  | none => (none, s)

def relocate (id : ObjId) : Option Loader :=
  let policy := if (s.obj id).symbolicResolution then .symbolic else .none
  ((s.obj id).relocs.filter (!·.isLate)).foldlM (fun s r =>
    let found := s.lookupReloc id r policy
    if s.processRelocation id r found.1 then some found.2 else none) s

def lateRelocate (id : ObjId) : Option Loader :=
  ((s.obj id).relocs.filter (·.isLate)).foldlM (fun s r =>
    let found := s.lookupReloc id r .ignoreLocal
    if processLateRelocation r found.1 then some found.2 else none) s

/-- The end of `load_dependencies`. -/
def relocateAll (ids : List ObjId) : Option Loader := do
  let s ← ids.foldlM relocate s
  ids.foldlM lateRelocate s

/-! ### Taking an object from the load list -/

/-- Where a block for the object's thread-local data ends. -/
def tlsEnd (o : SharedObject) : Addr :=
  (s.storage.initialTlsSize + o.tlsSize + o.tlsAlign - 1) &&& ~~~(o.tlsAlign - 1)

def growInitialTls (id : ObjId) (offset : Addr) : Loader :=
  { s.modify id fun o => { o with tlsOffset := offset } with
    storage := { s.storage with initialTlsSize := offset } }

def mapTls (id : ObjId) : Loader :=
  { s.modify id fun o => { o with tlsModuleIndex := s.storage.runtimeTlsMap.length } with
    storage := { s.storage with runtimeTlsMap := s.storage.runtimeTlsMap ++ [id] } }

/-- The object's thread-local data; no result when the initial space has run
out. -/
def assignTls (id : ObjId) : Option Loader :=
  let o := s.obj id
  if o.tlsSize = 0 then some s
  else if o.initialTlsModel && o.rtldLoaded then
    let offset := s.tlsEnd o
    if s.storage.totalInitialTlsSize ≠ 0 ∧ s.storage.totalInitialTlsSize < offset then none
    else some ((s.growInitialTls id offset).mapTls id)
  else some (s.mapTls id)

/-- An object taken from the load list enters the init list. -/
def take (id : ObjId) (initial : Bool) : Loader :=
  let s := s.pushInit id
  if initial then s.modify id fun o => { o with initialTlsModel := true } else s

/-! ### Giving up -/

/-- A vector with its back popped until `x` has been. -/
def popThrough (x : ObjId) (l : List ObjId) : List ObjId :=
  ((l.reverse.dropWhile (· ≠ x)).drop 1).reverse

/-- What `load_dependencies` does before it returns an error. -/
def rollback (start : ObjId) (global : Bool) (objectsAtStart : ℕ) (tlsSizeAtStart : Addr) :
    Loader :=
  { s with
    -- the init list itself is not cut back
    destroyed := s.destroyed ++ s.storage.initList
    storage := { s.storage with
      globalScope :=
        if global then popThrough start s.storage.globalScope else s.storage.globalScope
      objects := s.storage.objects.take objectsAtStart
      initialTlsSize := tlsSizeAtStart } }

/-- The object a DT_NEEDED entry refers to, when it is loaded already. -/
def findLoaded (name : Name) : Option ObjId :=
  if '/' ∈ name then s.storage.objects.find? fun id => (s.obj id).path = name
  else s.storage.objects.find? fun id => (s.obj id).name = name

/-- An object just loaded for a DT_NEEDED entry of `id`. -/
def addNeeded (id : ObjId) (o : SharedObject) (global : Bool) : Loader :=
  let new := s.heap.length
  let s := ((s.create o).addObject new).addDependency id new
  if global then s.pushGlobal new else s

end Loader

/-- DT_NEEDED entries that stand for the loader itself: `ld-linux.so.2`,
`ld-linux-x86-64.so.2`, `libc.so` and `libc.so.6`. -/
def loaderNames : List Name :=
  [['l', 'd', '-', 'l', 'i', 'n', 'u', 'x', '.', 's', 'o', '.', '2'],
    ['l', 'd', '-', 'l', 'i', 'n', 'u', 'x', '-', 'x', '8', '6', '-', '6', '4', '.', 's', 'o',
      '.', '2'],
    ['l', 'i', 'b', 'c', '.', 's', 'o'],
    ['l', 'i', 'b', 'c', '.', 's', 'o', '.', '6']]

/-! ### `load_dependencies` -/

inductive Loaded
  | success (s : Loader)
  | failure (e : LoadError) (s : Loader)
  | abort
  deriving DecidableEq

structure Loading where
  loader : Loader
  loadList : List ObjId
  /-- The object whose dynamic section is being read, and its entries to come. -/
  reading : Option (ObjId × List Name)

/-- One round: the next DT_NEEDED entry, or else the next object. -/
def round (env : Env) (global initial : Bool) : Loading → Loading ⊕ Loaded
  | ⟨s, [], none⟩ => .inr (.success s)
  | ⟨s, id :: rest, none⟩ =>
    match (s.take id initial).assignTls id with
    -- the initial thread-local space has run out
    | none => .inr (.failure .noMemory (s.take id initial))
    | some s' => .inl ⟨s', rest, some (id, (s'.obj id).needed)⟩
  | ⟨s, list, some (_, [])⟩ => .inl ⟨s, list, none⟩
  | ⟨s, list, some (id, name :: names)⟩ =>
    if loaderNames.contains name then .inl ⟨s, list, some (id, names)⟩
    else
      match s.findLoaded name with
      | some added => .inl ⟨s.addDependency id added, list, some (id, names)⟩
      | none =>
        match env.load s.heap.length (s.obj id) name with
        | none => .inr .abort
        | some (.error e) => .inr (.failure e s)
        | some (.ok o) =>
          .inl ⟨s.addNeeded id o global, s.heap.length :: list, some (id, names)⟩

/-- The state `load_dependencies` enters its loop in. -/
def Loader.enter (s : Loader) (start : ObjId) (global : Bool) : Loading :=
  ⟨if global then s.pushGlobal start else s, [start], none⟩

def loadDependencies (env : Env) (fuel : ℕ) (start : ObjId) (global initial : Bool)
    (s : Loader) : Option Loaded :=
  (Loop.run (round env global initial) fuel (s.enter start global)).map fun
    | .success s' =>
      match s'.relocateAll s'.storage.initList with
      | some s'' => .success s''
      | none => .abort
    | .failure e s' =>
      .failure e (s'.rollback start global s.storage.objects.length s.storage.initialTlsSize)
    | .abort => .abort

/-! ### Constructors -/

namespace Loader

variable (s : Loader)

/-- `run_init`, once for each object. -/
def construct (id : ObjId) : Loader :=
  if (s.obj id).initialized then s
  else
    { s.modify id fun o => { o with initialized := true } with
      storage := { s.storage with destructList := s.storage.destructList ++ [id] }
      constructed := s.constructed ++ [id] }

def clearInit : Loader := { s with storage := { s.storage with initList := [] } }

def initObjects : Loader := (s.storage.initList.reverse.foldl construct s).clearInit

end Loader

/-! ### `__dlapi_open` -/

inductive OpenError
  | objectNotFound
  | load (e : LoadError)
  deriving DecidableEq

inductive Opened
  | handle (id : ObjId) (s : Loader)
  | null (e : OpenError) (s : Loader)
  | abort
  deriving DecidableEq

/-- The two flags that are read, `RTLD_NOLOAD` and `RTLD_GLOBAL`. -/
structure OpenFlags where
  noload : Bool
  global : Bool

/-- Names that stand for the libc: `ld-linux.so.2`, `ld-linux-x86-64.so.2`,
`libc.so.6` and `libpthread.so.0`. -/
def libcAliases : List Name :=
  [['l', 'd', '-', 'l', 'i', 'n', 'u', 'x', '.', 's', 'o', '.', '2'],
    ['l', 'd', '-', 'l', 'i', 'n', 'u', 'x', '-', 'x', '8', '6', '-', '6', '4', '.', 's', 'o',
      '.', '2'],
    ['l', 'i', 'b', 'c', '.', 's', 'o', '.', '6'],
    ['l', 'i', 'b', 'p', 't', 'h', 'r', 'e', 'a', 'd', '.', 's', 'o', '.', '0']]

def libcName : Name := ['l', 'i', 'b', 'c', '.', 's', 'o']

def openName (filename : Name) : Name :=
  if libcAliases.contains filename then libcName else filename

namespace Loader

variable (s : Loader)

def objectFromAddr (addr : Addr) : Option ObjId :=
  s.storage.objects.find? fun id =>
    (s.obj id).phdrs.any fun p =>
      p.type = .load ∧ (s.obj id).base + p.vaddr ≤ addr ∧
        addr < (s.obj id).base + p.vaddr + p.memsz

/-- The object `dlopen` returns without loading anything. -/
def findOpened (name : Name) : Option ObjId :=
  if '/' ∈ name then s.storage.objects.find? fun id => (s.obj id).path = name
  else s.storage.objects.find? fun id => (s.obj id).name = name ∨ name <:+ (s.obj id).path

/-- The root of a `dlopen`, before its dependencies. -/
def addRoot (o : SharedObject) : Loader := (s.create o).addObject s.heap.length

def popObject : Loader :=
  { s with storage := { s.storage with objects := s.storage.objects.dropLast } }

def pushLocal (id dep : ObjId) : Loader :=
  s.modify id fun o => { o with localScope := o.localScope ++ [dep] }

/-- The end of a `dlopen` that has loaded its root. The init list is moved out
before the constructors run. -/
def finishOpen (origin root : ObjId) (global : Bool) : Loader :=
  let s := if global then s else s.pushLocal origin root
  s.storage.initList.reverse.foldl construct s.clearInit

end Loader

/-- Where `__dlapi_open` stands when it has looked for the requested object:
it returns, or it has loaded a new root on behalf of `origin`. -/
inductive Root
  | given (r : Opened)
  | loaded (origin : ObjId) (o : SharedObject)

/-- `__dlapi_open` up to `load_dependencies`. -/
def openRoot (env : Env) (filename : Option Name) (flags : OpenFlags) (returnAddr : Addr)
    (s : Loader) : Root :=
  match filename with
  -- a null file name stands for the program
  | none =>
    match s.storage.objects with
    | [] => .given .abort
    | id :: _ => .given (.handle id s)
  | some filename =>
    match s.objectFromAddr returnAddr with
    | none => .given .abort
    | some origin =>
      match s.findOpened (openName filename) with
      | some id => .given (.handle id s)
      | none =>
        if flags.noload then .given (.null .objectNotFound s)
        else
          match env.load s.heap.length (s.obj origin) (openName filename) with
          | none => .given .abort
          | some (.error e) => .given (.null (.load e) s)
          | some (.ok o) => .loaded origin o

def dlapiOpen (env : Env) (fuel : ℕ) (filename : Option Name) (flags : OpenFlags)
    (returnAddr : Addr) (s : Loader) : Option Opened :=
  match openRoot env filename flags returnAddr s with
  | .given r => some r
  | .loaded origin o =>
    (loadDependencies env fuel s.heap.length flags.global false (s.addRoot o)).map fun
      | .abort => .abort
      -- the clean-up has kept the root in the object list
      | .failure e s' => .null (.load e) s'.popObject
      | .success s' => .handle s.heap.length (s'.finishOpen origin s.heap.length flags.global)

/-! ### The start of a program -/

/-- An object the kernel has mapped. -/
structure Image where
  path : Name
  base : Addr
  phdrs : List Phdr
  dynamic : List Dyn
  symbols : List Sym
  relocs : List Reloc

/-- The block of the executable's own thread-local data. -/
def exeTlsOffset (phdrs : List Phdr) : Addr :=
  match phdrs.find? (·.type = .tls) with
  | some p => (p.memsz + (p.align - 1)) &&& ~~~(p.align - 1)
  | none => 0

/-- `EXE_OBJECT`; its name is `<executable>`. -/
def exeObject (exe : Image) : SharedObject :=
  { SharedObject.create none ['<', 'e', 'x', 'e', 'c', 'u', 't', 'a', 'b', 'l', 'e', '>']
      exe.path exe.base exe.phdrs exe.dynamic exe.symbols exe.relocs with
    rtldLoaded := false
    tlsOffset := exeTlsOffset exe.phdrs
    initialTlsModel := true }

def libcObject (exe libc : Image) : SharedObject :=
  let o := SharedObject.create none libcName libc.path libc.base libc.phdrs libc.dynamic
    libc.symbols libc.relocs
  { o with
    symbolicResolution := false
    rtldLoaded := false
    tlsOffset := (exeTlsOffset exe.phdrs + o.tlsSize + (o.tlsAlign - 1)) &&& ~~~(o.tlsAlign - 1)
    initialTlsModel := true }

/-- The loader when `start` calls `load_dependencies`. -/
def Loader.initial (exe libc : Image) : Loader where
  heap := [exeObject exe, libcObject exe libc]
  storage :=
    { objects := [0, 1]
      globalScope := [0, 1]
      uniqueMap := []
      initList := []
      destructList := []
      initialTlsSize := (libcObject exe libc).tlsOffset
      totalInitialTlsSize := 0
      runtimeTlsMap := [] }
  destroyed := []
  constructed := []

/-- The rest of `start`: the libc is relocated again, and its constructors run
before those of the init list. -/
def Loader.finishStart (s : Loader) : Option Loader := do
  let s ← s.relocate 1
  let s ← s.lateRelocate 1
  return { s with
    storage := { s.storage with
      totalInitialTlsSize := s.storage.initialTlsSize + 4096
      destructList := s.storage.destructList ++ [1] }
    constructed := s.constructed ++ [1] }.initObjects

/-- `start`, up to the entry of the program. -/
def startup (env : Env) (fuel : ℕ) (exe libc : Image) : Option Loaded :=
  (loadDependencies env fuel 0 true true (Loader.initial exe libc)).map fun
    | .success s =>
      match s.finishStart with
      | some s' => .success s'
      | none => .abort
    | .failure _ _ => .abort
    | .abort => .abort

/-! ### Small programs

A system given by its libraries, for the runs on fixed inputs next to the
results they illustrate. -/

/-- A valid library of one page. -/
def File.library (soname : Name) (needed : List Name) (symbols : List Sym) : File where
  ehdr := some ⟨[0x7f, 0x45, 0x4c, 0x46], 2, 1, 1, 62⟩
  phdrs := some [⟨.load, 0, 4096, 4096, true⟩]
  mapped := some 0x10000
  dynamic := .soname soname :: needed.map .needed
  symbols
  relocs := []

/-- One directory with the given libraries in it, on x86_64. -/
def Env.ofLibraries (files : Name → Option File) : Env where
  openAt _ _ := none
  openIn _ _ := files
  libraryPaths := [['/']]
  elfMachine := 62

/-- An executable of one page at address 0. -/
def Image.program (needed : List Name) (symbols : List Sym) : Image :=
  ⟨['/', 'p'], 0, [⟨.load, 0, 4096, 4096, true⟩], needed.map .needed, symbols, []⟩

def Image.libc : Image := ⟨['/', 'l'], 4096, [⟨.load, 0, 4096, 4096, true⟩], [], [], []⟩

end Hzlibc.Rtld
