import Hzlibc.Rtld.Load

/-!
What one round of `load_dependencies` does.

`Round` lists the rounds that go on, `Leaves` the ones that end the loop. The
properties of a whole traversal are read off these two and not off `round`: a
round adds at the end of the containers it touches, and of the objects it only
changes the one it takes or reads.
-/

namespace Hzlibc.Rtld

/-! ### Taking an object -/

/-- The fields of an object that taking it from the load list may set. -/
def SharedObject.WithTls (o o' : SharedObject) : Prop :=
  ∃ offset index model,
    o' = { o with tlsOffset := offset, tlsModuleIndex := index, initialTlsModel := model }

theorem SharedObject.WithTls.refl (o : SharedObject) : o.WithTls o := ⟨_, _, _, rfl⟩

theorem SharedObject.WithTls.trans {o o' o'' : SharedObject} (h : o.WithTls o')
    (h' : o'.WithTls o'') : o.WithTls o'' := by
  obtain ⟨_, _, _, rfl⟩ := h
  obtain ⟨offset, index, model, rfl⟩ := h'
  exact ⟨offset, index, model, rfl⟩

/-- `s'` is `s` up to the thread-local data of `id`. -/
structure Loader.SetsTls (id : ObjId) (s s' : Loader) : Prop where
  length : s'.heap.length = s.heap.length
  self : (s.obj id).WithTls (s'.obj id)
  other : ∀ id' ≠ id, s'.obj id' = s.obj id'
  storage : ∃ size mapped,
    s'.storage = { s.storage with
      initialTlsSize := size
      runtimeTlsMap := s.storage.runtimeTlsMap ++ mapped }
  destroyed : s'.destroyed = s.destroyed
  constructed : s'.constructed = s.constructed

namespace Loader

variable {s s' s'' : Loader} {id : ObjId}

theorem SetsTls.refl (id : ObjId) (s : Loader) : SetsTls id s s where
  length := rfl
  self := .refl _
  other _ _ := rfl
  storage := ⟨s.storage.initialTlsSize, [], by simp⟩
  destroyed := rfl
  constructed := rfl

theorem SetsTls.trans (h : SetsTls id s s') (h' : SetsTls id s' s'') : SetsTls id s s'' where
  length := h'.length.trans h.length
  self := h.self.trans h'.self
  other id' hid := (h'.other id' hid).trans (h.other id' hid)
  storage := by
    obtain ⟨_, mapped, hs⟩ := h.storage
    obtain ⟨size, mapped', hs'⟩ := h'.storage
    exact ⟨size, mapped ++ mapped', by simp [hs', hs]⟩
  destroyed := h'.destroyed.trans h.destroyed
  constructed := h'.constructed.trans h.constructed

theorem SetsTls.withTls (h : SetsTls id s s') (id' : ObjId) : (s.obj id').WithTls (s'.obj id') := by
  by_cases hid : id' = id
  · exact hid ▸ h.self
  · exact h.other id' hid ▸ .refl _

theorem SetsTls.dependencies (h : SetsTls id s s') (id' : ObjId) :
    (s'.obj id').dependencies = (s.obj id').dependencies := by
  obtain ⟨_, _, _, ho⟩ := h.withTls id'
  rw [ho]

theorem SetsTls.initialized (h : SetsTls id s s') (id' : ObjId) :
    (s'.obj id').initialized = (s.obj id').initialized := by
  obtain ⟨_, _, _, ho⟩ := h.withTls id'
  rw [ho]

theorem setsTls_growInitialTls (offset : Addr) : SetsTls id s (s.growInitialTls id offset) where
  length := List.length_modify ..
  self := s.rel_modify .refl (fun o => ⟨offset, _, _, rfl⟩) id id
  other _ hid := obj_modify_of_ne s hid _
  storage := ⟨offset, [], by simp [growInitialTls]⟩
  destroyed := rfl
  constructed := rfl

theorem setsTls_mapTls : SetsTls id s (s.mapTls id) where
  length := List.length_modify ..
  self := s.rel_modify .refl (fun _ => ⟨_, s.storage.runtimeTlsMap.length, _, rfl⟩) id id
  other _ hid := obj_modify_of_ne s hid _
  storage := ⟨_, [id], rfl⟩
  destroyed := rfl
  constructed := rfl

theorem setsTls_assignTls (h : s.assignTls id = some s') : SetsTls id s s' := by
  simp only [assignTls] at h
  split_ifs at h <;> cases h
  · exact .refl id s
  · exact (setsTls_growInitialTls _).trans setsTls_mapTls
  · exact setsTls_mapTls

theorem setsTls_take (initial : Bool) : SetsTls id (s.pushInit id) (s.take id initial) := by
  cases initial with
  | false => exact .refl id _
  | true =>
    exact
      { length := List.length_modify ..
        self := (s.pushInit id).rel_modify .refl (fun o => ⟨_, _, true, rfl⟩) id id
        other := fun _ hid => obj_modify_of_ne _ hid _
        storage := ⟨s.storage.initialTlsSize, [], by simp [take, pushInit]⟩
        destroyed := rfl
        constructed := rfl }

theorem setsTls_of_assignTls {initial : Bool} (h : (s.take id initial).assignTls id = some s') :
    SetsTls id (s.pushInit id) s' :=
  (setsTls_take initial).trans (setsTls_assignTls h)

theorem SetsTls.initList_pushInit (h : SetsTls id (s.pushInit id) s') :
    s'.storage.initList = s.storage.initList ++ [id] := by
  obtain ⟨_, _, hs⟩ := h.storage
  rw [hs]
  rfl

/-! ### Loading an object -/

variable (s) (id) (o : SharedObject) (global : Bool)

@[simp] theorem storage_addNeeded :
    (s.addNeeded id o global).storage = { s.storage with
      objects := s.storage.objects ++ [s.heap.length]
      globalScope := s.storage.globalScope ++ if global then [s.heap.length] else [] } := by
  cases global <;> simp [addNeeded, addDependency, addObject, pushGlobal]

theorem initList_addNeeded : (s.addNeeded id o global).storage.initList = s.storage.initList :=
  congrArg (·.initList) (s.storage_addNeeded id o global)

theorem heap_addNeeded :
    (s.addNeeded id o global).heap = (((s.create o).addDependency id s.heap.length)).heap := by
  cases global <;> rfl

@[simp] theorem length_addNeeded : (s.addNeeded id o global).heap.length = s.heap.length + 1 := by
  simp [heap_addNeeded, addDependency]

theorem obj_addNeeded (id' : ObjId) :
    (s.addNeeded id o global).obj id' = ((s.create o).addDependency id s.heap.length).obj id' := by
  simp [obj, heap_addNeeded]

theorem destroyed_addNeeded : (s.addNeeded id o global).destroyed = s.destroyed := by
  cases global <;> rfl

end Loader

/-! ### The rounds -/

section Enter

variable (s : Loader) (start : ObjId) (global : Bool)

@[simp] theorem heap_enter : (s.enter start global).loader.heap = s.heap := by
  cases global <;> rfl

@[simp] theorem obj_enter (id : ObjId) : (s.enter start global).loader.obj id = s.obj id := by
  cases global <;> rfl

@[simp] theorem objects_enter :
    (s.enter start global).loader.storage.objects = s.storage.objects := by
  cases global <;> rfl

@[simp] theorem initList_enter :
    (s.enter start global).loader.storage.initList = s.storage.initList := by
  cases global <;> rfl

@[simp] theorem constructed_enter : (s.enter start global).loader.constructed = s.constructed := by
  cases global <;> rfl

end Enter

section Rounds

variable (env : Env) (global initial : Bool)

inductive Round : Loading → Loading → Prop
  | take {s s' : Loader} {id : ObjId} {rest : List ObjId}
      (h : (s.take id initial).assignTls id = some s') :
      Round ⟨s, id :: rest, none⟩ ⟨s', rest, some (id, (s'.obj id).needed)⟩
  | done {s : Loader} {list : List ObjId} {id : ObjId} :
      Round ⟨s, list, some (id, [])⟩ ⟨s, list, none⟩
  | skip {s : Loader} {list : List ObjId} {id : ObjId} {name : Name} {names : List Name}
      (h : name ∈ loaderNames) :
      Round ⟨s, list, some (id, name :: names)⟩ ⟨s, list, some (id, names)⟩
  | found {s : Loader} {list : List ObjId} {id added : ObjId} {name : Name} {names : List Name}
      (h : name ∉ loaderNames) (hfound : s.findLoaded name = some added) :
      Round ⟨s, list, some (id, name :: names)⟩ ⟨s.addDependency id added, list, some (id, names)⟩
  | load {s : Loader} {list : List ObjId} {id : ObjId} {name : Name} {names : List Name}
      {o : SharedObject} (h : name ∉ loaderNames) (hnot : s.findLoaded name = none)
      (hload : env.load s.heap.length (s.obj id) name = some (.ok o)) :
      Round ⟨s, list, some (id, name :: names)⟩
        ⟨s.addNeeded id o global, s.heap.length :: list, some (id, names)⟩

inductive Leaves : Loading → Loaded → Prop
  | success {s : Loader} : Leaves ⟨s, [], none⟩ (.success s)
  | noMemory {s : Loader} {id : ObjId} {rest : List ObjId}
      (h : (s.take id initial).assignTls id = none) :
      Leaves ⟨s, id :: rest, none⟩ (.failure .noMemory (s.take id initial))
  | failure {s : Loader} {list : List ObjId} {id : ObjId} {name : Name} {names : List Name}
      {e : LoadError} (hload : env.load s.heap.length (s.obj id) name = some (.error e)) :
      Leaves ⟨s, list, some (id, name :: names)⟩ (.failure e s)
  | abort {c : Loading} : Leaves c .abort

variable {env global initial}

theorem round_inl {c c' : Loading} (h : round env global initial c = .inl c') :
    Round env global initial c c' := by
  obtain ⟨s, list, reading⟩ := c
  match list, reading with
  | [], none => cases h
  | id :: rest, none =>
    simp only [round] at h
    cases ha : (s.take id initial).assignTls id with
    | none => simp [ha] at h
    | some s' =>
      simp [ha] at h
      exact h ▸ .take ha
  | list, some (id, []) =>
    simp [round] at h
    exact h ▸ .done
  | list, some (id, name :: names) =>
    simp only [round, List.contains_iff_mem] at h
    split_ifs at h with hname
    · exact Sum.inl.inj h ▸ .skip hname
    · split at h
      next added hfound => exact Sum.inl.inj h ▸ .found hname hfound
      next hnot =>
        split at h
        · cases h
        · cases h
        next o hload => exact Sum.inl.inj h ▸ .load hname hnot hload

theorem round_inr {c : Loading} {r : Loaded} (h : round env global initial c = .inr r) :
    Leaves env initial c r := by
  obtain ⟨s, list, reading⟩ := c
  match list, reading with
  | [], none =>
    simp [round] at h
    exact h ▸ .success
  | id :: rest, none =>
    simp only [round] at h
    cases ha : (s.take id initial).assignTls id with
    | none =>
      simp [ha] at h
      exact h ▸ .noMemory ha
    | some s' => simp [ha] at h
  | list, some (id, []) => simp [round] at h
  | list, some (id, name :: names) =>
    simp only [round] at h
    split_ifs at h with hname
    split at h
    · cases h
    split at h
    · exact Sum.inr.inj h ▸ .abort
    next e hload => exact Sum.inr.inj h ▸ .failure hload
    · cases h

end Rounds

/-! ### Before a traversal -/

@[simp] theorem Loader.length_addRoot (s : Loader) (o : SharedObject) :
    (s.addRoot o).heap.length = s.heap.length + 1 := by
  simp [addRoot, addObject]

@[simp] theorem Loader.obj_addRoot_self (s : Loader) (o : SharedObject) :
    (s.addRoot o).obj s.heap.length = o :=
  obj_create_self s o

/-- How `dlopen` comes to return early or to load a root. -/
inductive OpensRoot (env : Env) (flags : OpenFlags) (returnAddr : Addr) (s : Loader) :
    Option Name → Root → Prop
  | abort {filename : Option Name} : OpensRoot env flags returnAddr s filename (.given .abort)
  | handle {filename : Option Name} {id : ObjId} :
      OpensRoot env flags returnAddr s filename (.given (.handle id s))
  | noload {filename : Option Name} (h : flags.noload) :
      OpensRoot env flags returnAddr s filename (.given (.null .objectNotFound s))
  | failed {name : Name} {origin : ObjId} {e : LoadError}
      (horigin : s.objectFromAddr returnAddr = some origin)
      (h : env.load s.heap.length (s.obj origin) (openName name) = some (.error e)) :
      OpensRoot env flags returnAddr s (some name) (.given (.null (.load e) s))
  | loaded {name : Name} {origin : ObjId} {o : SharedObject} (hnoload : ¬ flags.noload)
      (horigin : s.objectFromAddr returnAddr = some origin)
      (h : env.load s.heap.length (s.obj origin) (openName name) = some (.ok o)) :
      OpensRoot env flags returnAddr s (some name) (.loaded origin o)

theorem openRoot_spec (env : Env) (filename : Option Name) (flags : OpenFlags)
    (returnAddr : Addr) (s : Loader) :
    OpensRoot env flags returnAddr s filename (openRoot env filename flags returnAddr s) := by
  cases filename with
  | none =>
    simp only [openRoot]
    split
    · exact .abort
    · exact .handle
  | some name =>
    simp only [openRoot]
    split
    · exact .abort
    next origin horigin =>
      split
      · exact .handle
      split_ifs with hnoload
      · exact .noload hnoload
      split
      · exact .abort
      next e h => exact .failed horigin h
      next o h => exact .loaded hnoload horigin h

end Hzlibc.Rtld
