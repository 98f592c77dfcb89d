import Hzlibc.Rtld.Load
import Hzlibc.Search.Distance

/-!
`__dlapi_get_sym`.

With a handle the symbol is looked for in the object and its dependencies in breadth-first
order. The two special handles are `RTLD_DEFAULT`, for the global scope, and `RTLD_NEXT`,
which depends on the object that the caller's code is in. The list of objects is behind a
spinlock that does not know its owner: a thread that takes it twice waits for ever. That
is the outcome `deadlock`; a failed assertion is `abort`.
-/

namespace Hzlibc.Rtld

open Search

namespace Loader

variable {s : Loader}

/-! ### With a handle -/

/-- The edges that a walk over dependencies follows. -/
def dependenciesOf (s : Loader) (id : ObjId) : List ObjId := (s.obj id).dependencies

/-- The name has no definition that is unique in the whole process. -/
def NoUnique (s : Loader) (name : Name) : Prop :=
  ∀ id d, s.definition name id = some d → d.sym.bind ≠ .stbGnuUnique

theorem noUnique_of_symbols
    (h : ∀ o ∈ s.heap, ∀ sym ∈ o.symbols, sym.bind ≠ .stbGnuUnique) (name : Name) :
    s.NoUnique name := by
  intro id d hd
  rw [definition] at hd
  cases hsym : (s.obj id).lookup name with
  | none =>
    rw [hsym] at hd
    cases hd
  | some sym =>
    rw [hsym] at hd
    have hmem : sym ∈ (s.obj id).symbols := List.mem_of_find?_eq_some hsym
    rw [obj] at hmem
    cases ho : s.heap[id]? with
    | none =>
      rw [ho] at hmem
      cases hmem
    | some o =>
      rw [ho] at hmem
      obtain ⟨-, rfl⟩ : _ ∧ (⟨id, sym⟩ : ObjectSymbol) = d := by simpa using hd
      exact h o (List.mem_of_getElem? ho) sym hmem

theorem search_localAndDeps (id : ObjId) (name : Name) :
    s.search (some id) name .localAndDeps
      = (s.dependencyWalk id).foldlM (s.consider name) none := by
  rw [search, searchOwn]
  simp only [foldWalk_dependencies, if_true]
  cases (s.dependencyWalk id).foldlM (s.consider name) none with
  | error e | ok res => rfl

/-- The first strong definition, or else the first weak one. -/
def preferred (ds : List ObjectSymbol) : Option ObjectSymbol :=
  (ds.find? (·.isStrong)).or (ds.find? (!·.isStrong))

theorem head?_eq_find?_weak {ds : List ObjectSymbol} (h : ds.find? (·.isStrong) = none) :
    ds.head? = ds.find? (!·.isStrong) := by
  cases ds with
  | nil => rfl
  | cons d ds =>
    have hd := List.find?_eq_none.mp h d (List.mem_cons_self ..)
    rw [List.head?_cons, List.find?_cons_of_pos (by simpa using hd)]

theorem lookup_localAndDeps_eq {name : Name} (hunique : s.NoUnique name) (id : ObjId) :
    s.lookup (some id) name .localAndDeps
      = (preferred (s.definitions name (s.dependencyWalk id)), s) := by
  rw [lookup, search_localAndDeps, foldlM_consider, preferred]
  cases hstrong : (s.definitions name (s.dependencyWalk id)).find? (·.isStrong) with
  | none =>
    rw [← head?_eq_find?_weak hstrong]
  | some d =>
    obtain ⟨o, -, ho⟩ := List.mem_filterMap.mp (List.mem_of_find?_eq_some hstrong)
    change (some (s.settle name d).1, (s.settle name d).2) = _
    rw [settle_of_not_unique (hunique o d ho), Option.some_or]

/-- A lookup with a handle comes to its end. It goes through what can be reached from the
handle, in breadth-first order and through nothing twice, and returns the first strong
definition, or else the first weak one. -/
theorem lookup_localAndDeps {name : Name} (hunique : s.NoUnique name) (id : ObjId) :
    ∃ order : List ObjId,
      order.Nodup ∧
      (∀ o, o ∈ order ↔ Reaches s.dependenciesOf id o) ∧
      (∀ k, order.length ≤ k + 1 → within s.dependenciesOf id k = order) ∧
      Ends s.dependenciesOf (s.consider name) 0 [id] none
        (order.foldlM (s.consider name) none) ∧
      s.lookup (some id) name .localAndDeps = (preferred (s.definitions name order), s) := by
  have hlength := s.length_dependencyWalk_le id
  refine ⟨s.dependencyWalk id, walk_nodup _ _ (List.nodup_singleton id), fun o => ?_,
    fun k hk => ?_, ?_, lookup_localAndDeps_eq hunique id⟩
  · exact mem_walk_iff hlength
  · exact (walk_eq_within hlength hk).symm
  · rw [← foldWalk_dependencies]
    exact ends_foldWalk _ _ _ _ _ (by rw [Nat.zero_add]; exact hlength)

/-- Two objects that depend on each other. The first one has a weak definition, the second
one a strong one. -/
def cycle : Loader where
  heap :=
    [{ (default : SharedObject) with
        dependencies := [1], symbols := [⟨['f'], .stbWeak, false, 0x10⟩] },
      { (default : SharedObject) with
        dependencies := [0, 1], symbols := [⟨['f'], .stbGlobal, false, 0x20⟩] }]
  storage := ⟨[0, 1], [0, 1], [], [], [], 0, 0, []⟩
  destroyed := []
  constructed := []

/-- The strong definition is returned, which comes behind the weak one. -/
theorem lookup_cycle : cycle.NoUnique ['f'] ∧ ∃ order : List ObjId,
    order.Nodup ∧ (∀ o, o ∈ order ↔ Reaches cycle.dependenciesOf 0 o) ∧
      cycle.lookup (some 0) ['f'] .localAndDeps
        = (preferred (cycle.definitions ['f'] order), cycle) ∧
      preferred (cycle.definitions ['f'] order) = some ⟨1, ⟨['f'], .stbGlobal, false, 0x20⟩⟩ := by
  have hunique : cycle.NoUnique ['f'] := noUnique_of_symbols (by decide) _
  obtain ⟨order, hnodup, hmem, -, -, hlookup⟩ := lookup_localAndDeps hunique 0
  exact ⟨hunique, order, hnodup, hmem, hlookup, congrArg Prod.fst (hlookup.symm.trans rfl)⟩

end Loader

/-! ### The function -/

/-- What a thread that calls into the loader sees. -/
structure Session where
  loader : Loader
  /-- The thread holds the lock of the list of objects. -/
  objectsLocked : Bool
  lastError : Option String

inductive Handle
  | rtldDefault
  | rtldNext
  | object (id : ObjId)

inductive Got
  | address (a : Addr) (s : Session)
  | null (s : Session)
  | abort
  | deadlock

def symbolNotFound : String := "symbol not found"

namespace Session

variable (s : Session)

/-- The lock is taken for the search and given back. -/
def objectFromAddr (addr : Addr) : Option (Option ObjId) :=
  if s.objectsLocked then none else some (s.loader.objectFromAddr addr)

/-- The end of the three branches, where the lock is given back. -/
def answer : Option ObjectSymbol × Loader → Got
  | (none, loader) => .null ⟨loader, false, some symbolNotFound⟩
  | (some d, loader) =>
    .address ((loader.obj d.object).base + d.sym.value) ⟨loader, false, s.lastError⟩

/-- `__dlapi_get_sym`, called from the code at `returnAddr`. -/
def dlapiGetSym (handle : Handle) (symbol : Name) (returnAddr : Addr) : Got :=
  if s.objectsLocked then .deadlock
  else
    let s := { s with objectsLocked := true }
    match handle with
    | .rtldDefault => s.answer (s.loader.lookup none symbol .none)
    | .rtldNext =>
      match s.objectFromAddr returnAddr with
      | none => .deadlock
      | some none => .abort
      | some (some origin) => s.answer (s.loader.lookup (some origin) symbol .ignoreLocal)
    | .object id => s.answer (s.loader.lookup (some id) symbol .localAndDeps)

end Session

/-! ### `RTLD_NEXT` -/

/-- The objects after one of them in global load order. -/
def Loader.after (s : Loader) (origin : ObjId) : List ObjId :=
  (s.storage.globalScope.dropWhile (· ≠ origin)).drop 1

/-- The call returns what `suitable` chooses from the definitions in the objects after the
caller's, or null and an error if it chooses none. -/
def NextRight (suitable : List ObjectSymbol → Option ObjectSymbol) (s : Loader) (origin : ObjId)
    (symbol : Name) (returnAddr : Addr) : Prop :=
  match Session.dlapiGetSym ⟨s, false, none⟩ .rtldNext symbol returnAddr with
  | .address a _ => ∃ d, suitable (s.definitions symbol (s.after origin)) = some d ∧
      a = (s.obj d.object).base + d.sym.value
  | .null s' => suitable (s.definitions symbol (s.after origin)) = none ∧ s'.lastError.isSome
  | .abort | .deadlock => False

/-- A lookup with `RTLD_NEXT` never returns. -/
theorem not_nextRight (suitable : List ObjectSymbol → Option ObjectSymbol) (s : Loader)
    (origin : ObjId) (symbol : Name) (returnAddr : Addr) :
    ¬NextRight suitable s origin symbol returnAddr := by
  exact not_false

/-- The program asks for the next definition of one of its own symbols. -/
theorem not_nextRight_program :
    (Loader.initial (.program [] [⟨['f'], .stbGlobal, false, 0x10⟩]) .libc).objectFromAddr 0x20
      = some 0 ∧
    ¬NextRight List.head?
      (Loader.initial (.program [] [⟨['f'], .stbGlobal, false, 0x10⟩]) .libc) 0 ['f'] 0x20 := by
  refine ⟨by decide, ?_⟩
  exact not_false

end Hzlibc.Rtld
