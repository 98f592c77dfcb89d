import Hzlibc.Rtld.Object

/-!
The loader's bookkeeping.

`ObjectStorage` holds the containers the loader keeps its objects in;
`Loader` puts the objects themselves beside it, with a record of whose
destructor and whose constructors have run. The vectors of the source are
lists in the same order, except where a module says otherwise.

What the system does when the loader opens a file is an `Env`. It may depend
on how many objects have been built so far, so that the same file can be found
at one time and be missing, or not be mapped for lack of memory, at another.
-/

namespace Hzlibc.Rtld

structure ObjectSymbol where
  object : ObjId
  sym : Sym
  deriving DecidableEq

structure ObjectStorage where
  objects : List ObjId
  globalScope : List ObjId
  uniqueMap : List (Name × ObjectSymbol)
  initList : List ObjId
  destructList : List ObjId
  initialTlsSize : Addr
  totalInitialTlsSize : Addr
  runtimeTlsMap : List ObjId
  deriving DecidableEq

structure Loader where
  /-- Every object built so far; an `ObjId` is a position in it. -/
  heap : List SharedObject
  storage : ObjectStorage
  /-- The objects whose destructor has run, in that order. -/
  destroyed : List ObjId
  /-- The objects whose constructors have run, in that order. -/
  constructed : List ObjId
  deriving DecidableEq

namespace Loader

variable (s : Loader)

/-- The object a pointer refers to. -/
def obj (id : ObjId) : SharedObject := s.heap[id]?.getD default

/-- A new object; its pointer is the length of the heap before. -/
def create (o : SharedObject) : Loader := { s with heap := s.heap ++ [o] }

def modify (id : ObjId) (f : SharedObject → SharedObject) : Loader :=
  { s with heap := s.heap.modify id f }

def addObject (id : ObjId) : Loader :=
  { s with storage := { s.storage with objects := s.storage.objects ++ [id] } }

def pushGlobal (id : ObjId) : Loader :=
  { s with storage := { s.storage with globalScope := s.storage.globalScope ++ [id] } }

def pushInit (id : ObjId) : Loader :=
  { s with storage := { s.storage with initList := s.storage.initList ++ [id] } }

def addDependency (id dep : ObjId) : Loader :=
  s.modify id fun o => { o with dependencies := o.dependencies ++ [dep] }

/-- The loader with another unique map; lookups change nothing else. -/
def withUnique (u : List (Name × ObjectSymbol)) : Loader :=
  { s with storage := { s.storage with uniqueMap := u } }

@[simp] theorem heap_create (o : SharedObject) : (s.create o).heap = s.heap ++ [o] := rfl

@[simp] theorem storage_create (o : SharedObject) : (s.create o).storage = s.storage := rfl

@[simp] theorem storage_modify (id : ObjId) (f : SharedObject → SharedObject) :
    (s.modify id f).storage = s.storage := rfl

@[simp] theorem length_heap_modify (id : ObjId) (f : SharedObject → SharedObject) :
    (s.modify id f).heap.length = s.heap.length :=
  List.length_modify ..

@[simp] theorem obj_create_self (o : SharedObject) : (s.create o).obj s.heap.length = o := by
  simp [obj]

variable {id : ObjId}

@[simp] theorem obj_create_of_ne {o : SharedObject} (h : id ≠ s.heap.length) :
    (s.create o).obj id = s.obj id := by
  simp [obj]
  rcases Nat.lt_or_gt_of_ne h with h | h
  · rw [List.getElem?_append_left h]
  · rw [List.getElem?_eq_none (by simp; omega), List.getElem?_eq_none (by omega)]

theorem obj_of_le (h : s.heap.length ≤ id) : s.obj id = default := by
  simp [obj, List.getElem?_eq_none h]

@[simp] theorem obj_modify_self (h : id < s.heap.length)
    (f : SharedObject → SharedObject) : (s.modify id f).obj id = f (s.obj id) := by
  simp [obj, modify, h]

@[simp] theorem obj_modify_of_ne {id id' : ObjId} (h : id' ≠ id) (f : SharedObject → SharedObject) :
    (s.modify id f).obj id' = s.obj id' := by
  simp [obj, modify, h.symm]

/-- The objects before and after, of which at most one is changed. -/
theorem rel_modify {R : SharedObject → SharedObject → Prop} (hrefl : ∀ o, R o o)
    {f : SharedObject → SharedObject} (hf : ∀ o, R o (f o)) (id id' : ObjId) :
    R (s.obj id') ((s.modify id f).obj id') := by
  by_cases hid : id' = id
  · subst hid
    by_cases hlt : id' < s.heap.length
    · rw [obj_modify_self s hlt]
      exact hf _
    · have hle : s.heap.length ≤ id' := Nat.le_of_not_lt hlt
      rw [obj_of_le s hle, obj_of_le _ (by simpa using hle)]
      exact hrefl _
  · rw [obj_modify_of_ne s hid]
    exact hrefl _

/-- A part of the objects that `f` does not touch. -/
theorem proj_modify {β : Type} (p : SharedObject → β) {f : SharedObject → SharedObject}
    (hf : ∀ o, p (f o) = p o) (id id' : ObjId) : p ((s.modify id f).obj id') = p (s.obj id') :=
  s.rel_modify (R := fun o o' => p o' = p o) (fun _ => rfl) hf id id'

theorem initialized_addDependency (id dep id' : ObjId) :
    ((s.addDependency id dep).obj id').initialized = (s.obj id').initialized := by
  refine s.proj_modify (·.initialized) ?_ id id'
  intro o
  rfl

theorem dependencies_addDependency (h : id < s.heap.length) (dep a b : ObjId) :
    b ∈ ((s.addDependency id dep).obj a).dependencies ↔
      b ∈ (s.obj a).dependencies ∨ a = id ∧ b = dep := by
  by_cases ha : a = id
  · subst ha
    rw [addDependency, obj_modify_self s h]
    simp
  · rw [addDependency, obj_modify_of_ne s ha]
    simp [ha]

end Loader

/-! ### Finding a file -/

structure Env where
  /-- The file opened under a path. -/
  openAt : ℕ → Name → Option File
  /-- The file opened under a name in a directory, if both can be opened. -/
  openIn : ℕ → Name → Name → Option File
  libraryPaths : List Name
  /-- `ELF_MACHINE`, the number of the architecture the loader is built for. -/
  elfMachine : BitVec 16

namespace Env

variable (env : Env)

def loadObjectAtPath (built : ℕ) (origin : SharedObject) (path : Name) :
    Option (Except LoadError SharedObject) :=
  match env.openAt built path with
  | none => some (.error .notFound)
  | some file => loadObject env.elfMachine origin.path path file

def joinPath (dir name : Name) : Name :=
  (if dir.getLast? = some '/' then dir else dir ++ ['/']) ++ name

/-- One of the two loops of `load_object_with_name`: a directory whose file
cannot be loaded is passed over like one that has no such file. -/
def searchPaths (built : ℕ) (origin : SharedObject) (name : Name) :
    List Name → Option (Except LoadError SharedObject)
  | [] => some (.error .notFound)
  | dir :: dirs =>
    match env.openIn built dir name with
    | none => searchPaths built origin name dirs
    | some file =>
      match loadObject env.elfMachine origin.path (joinPath dir name) file with
      | none => none
      | some (.ok o) => some (.ok o)
      | some (.error _) => searchPaths built origin name dirs

def loadObjectWithName (built : ℕ) (origin : SharedObject) (name : Name) :
    Option (Except LoadError SharedObject) :=
  env.searchPaths built origin name (origin.runPaths ++ env.libraryPaths)

/-- A name with a slash in it is a path. -/
def load (built : ℕ) (origin : SharedObject) (name : Name) :
    Option (Except LoadError SharedObject) :=
  if '/' ∈ name then env.loadObjectAtPath built origin name
  else env.loadObjectWithName built origin name

variable {env} {built : ℕ} {origin : SharedObject} {name : Name} {o : SharedObject}

theorem fromFile_searchPaths {dirs : List Name}
    (h : env.searchPaths built origin name dirs = some (.ok o)) : o.FromFile := by
  induction dirs with
  | nil => cases h
  | cons dir dirs ih =>
    simp only [searchPaths] at h
    split at h
    · exact ih h
    · split at h
      · cases h
      next hload =>
        cases h
        exact fromFile_loadObject hload
      · exact ih h

theorem fromFile_load (h : env.load built origin name = some (.ok o)) : o.FromFile := by
  simp only [load, loadObjectAtPath, loadObjectWithName] at h
  split_ifs at h
  · split at h
    · cases h
    · exact fromFile_loadObject h
  · exact fromFile_searchPaths h

end Env

end Hzlibc.Rtld
