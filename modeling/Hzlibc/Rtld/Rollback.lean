import Hzlibc.Rtld.Traversal

/-!
What a failed `dlopen` leaves behind.

The clean-up in `load_dependencies` cuts the object list and the global scope
back and restores the size of the initial thread-local block. It destroys the
objects in the init list, but it leaves them in the list, and it leaves the
entries made in the runtime TLS map. `Progress` says how far a traversal has
got in every container; `Progress.leftover` reads off what is left.
-/

namespace Hzlibc.Rtld

open List

/-- How a traversal for a root that was built in state `s` has changed the
loader. The root's pointer is the length of the heap of `s`. -/
structure Progress (s : Loader) (global : Bool) (c : Loading) : Prop where
  length : s.heap.length < c.loader.heap.length
  old : ∀ id < s.heap.length, c.loader.obj id = s.obj id
  pending : ∀ id ∈ c.loadList, s.heap.length ≤ id
  reading : ∀ id names, c.reading = some (id, names) → s.heap.length ≤ id
  storage : ∃ new taken size mapped,
    c.loader.storage = { s.storage with
      objects := s.storage.objects ++ s.heap.length :: new
      globalScope := s.storage.globalScope ++ if global then s.heap.length :: new else []
      initList := s.storage.initList ++ taken
      initialTlsSize := size
      runtimeTlsMap := s.storage.runtimeTlsMap ++ mapped } ∧
    (∀ id ∈ new, s.heap.length < id) ∧
    (s.heap.length ∈ taken ∨ taken = [] ∧ c.loadList = [s.heap.length] ∧ c.reading = none)
  destroyed : c.loader.destroyed = s.destroyed

variable {env : Env} {global initial : Bool} {s : Loader}

theorem progress_enter (s : Loader) (o : SharedObject) (global : Bool) :
    Progress s global ((s.addRoot o).enter s.heap.length global) where
  length := by simp
  old id hid := by
    have hne : id ≠ s.heap.length := Nat.ne_of_lt hid
    cases global <;> exact Loader.obj_create_of_ne s hne
  pending := by simp [Loader.enter]
  reading := by simp [Loader.enter]
  storage := by
    cases global <;> simp [Loader.enter, Loader.addRoot, Loader.addObject, Loader.pushGlobal]
  destroyed := by cases global <;> rfl

variable {t : Loader} {e : LoadError} {fuel : ℕ} {reading : Option (ObjId × List Name)}

/-- Taking an object adds it to the init list, whether or not there is room for
its thread-local data. -/
theorem Progress.take {t' : Loader} {id : ObjId} {rest : List ObjId}
    (hp : Progress s global ⟨t, id :: rest, none⟩) (ht : Loader.SetsTls id (t.pushInit id) t')
    (hr : ∀ id' names, reading = some (id', names) → id' = id) :
    Progress s global ⟨t', rest, reading⟩ where
  length := ht.length ▸ hp.length
  old id' hid' := by
    have hle : s.heap.length ≤ id := hp.pending id (mem_cons_self ..)
    rw [ht.other id' (Nat.ne_of_lt (Nat.lt_of_lt_of_le hid' hle))]
    exact hp.old id' hid'
  pending id' hid' := hp.pending id' (mem_cons_of_mem _ hid')
  reading id' names h := hr id' names h ▸ hp.pending id (mem_cons_self ..)
  storage := by
    obtain ⟨new, taken, _, mapped, hs, hnew, htaken⟩ := hp.storage
    obtain ⟨size, mapped', hs'⟩ := ht.storage
    refine ⟨new, taken ++ [id], size, mapped ++ mapped', ?_, hnew, .inl ?_⟩
    · simp only at hs
      simp [hs', Loader.pushInit, hs]
    · rcases htaken with h | ⟨-, h, -⟩
      · exact mem_append_left _ h
      · obtain ⟨rfl, -⟩ := List.cons.inj h
        exact mem_append_right _ (mem_singleton_self _)
  destroyed := ht.destroyed.trans hp.destroyed

/-- Reading an entry adds the objects it loads, if any, at the end of the object
list and of the global scope, and changes no old object. -/
theorem Progress.read {t' : Loader} {id : ObjId} {names : List Name} {list : List ObjId}
    (new : List ObjId) (hp : Progress s global ⟨t, list, some (id, names)⟩)
    (hlen : t.heap.length ≤ t'.heap.length)
    (hobj : ∀ id' ≠ id, id' < t.heap.length → t'.obj id' = t.obj id')
    (hnew : ∀ id' ∈ new, id' = t.heap.length) (hs : t'.storage = { t.storage with
      objects := t.storage.objects ++ new
      globalScope := t.storage.globalScope ++ if global then new else [] })
    (hd : t'.destroyed = t.destroyed) (hr : ∀ id' names', reading = some (id', names') → id' = id) :
    Progress s global ⟨t', new ++ list, reading⟩ where
  length := Nat.lt_of_lt_of_le hp.length hlen
  old id' hid' := by
    have hle : s.heap.length ≤ id := hp.reading id names rfl
    have hne : id' ≠ id := Nat.ne_of_lt (Nat.lt_of_lt_of_le hid' hle)
    rw [hobj id' hne (Nat.lt_trans hid' hp.length)]
    exact hp.old id' hid'
  pending id' hid' := by
    rcases mem_append.mp hid' with h | h
    · exact hnew id' h ▸ Nat.le_of_lt hp.length
    · exact hp.pending id' h
  reading id' names' h := hr id' names' h ▸ hp.reading id names rfl
  storage := by
    obtain ⟨new', taken, size, mapped, hst, hnew', htaken⟩ := hp.storage
    refine ⟨new' ++ new, taken, size, mapped, ?_, ?_, .inl ?_⟩
    · simp only at hst
      cases global <;> simp [hs, hst]
    · intro id' hid'
      rcases mem_append.mp hid' with h | h
      · exact hnew' id' h
      · exact hnew id' h ▸ hp.length
    · rcases htaken with h | ⟨-, -, h⟩
      · exact h
      · cases h
  destroyed := hd.trans hp.destroyed

theorem Progress.step {c c' : Loading} (hp : Progress s global c)
    (h : Round env global initial c c') : Progress s global c' := by
  cases h with
  | take h => exact hp.take (Loader.setsTls_of_assignTls h) (by simp)
  | done | skip =>
    refine hp.read [] (Nat.le_refl _) (fun _ _ _ => rfl) (by simp) (by simp) rfl ?_
    simp
  | found =>
    refine hp.read [] (Nat.le_of_eq (Loader.length_heap_modify ..).symm)
      (fun id' hid' _ => Loader.obj_modify_of_ne _ hid' _) (by simp) ?_ rfl ?_
    · simp [Loader.addDependency]
    · simp
  | @load t list id name names o h hnot hload =>
    refine hp.read [t.heap.length] ?_ ?_ (by simp) (Loader.storage_addNeeded ..)
      (Loader.destroyed_addNeeded ..) (by simp)
    · rw [Loader.length_addNeeded]
      exact Nat.le_succ _
    · intro id' hid' hlt
      rw [Loader.obj_addNeeded, Loader.addDependency, Loader.obj_modify_of_ne _ hid',
        Loader.obj_create_of_ne _ (Nat.ne_of_lt hlt)]

/-! ### The clean-up -/

theorem popThrough_append {x : ObjId} {l new : List ObjId} (h : x ∉ new) :
    Loader.popThrough x (l ++ x :: new) = l := by
  have hdrop : (new.reverse ++ x :: l.reverse).dropWhile (· ≠ x) = x :: l.reverse := by
    rw [dropWhile_append_of_pos, dropWhile_cons_of_neg (by simp)]
    intro y hy
    have hne : y ≠ x := fun heq => h (heq ▸ mem_reverse.mp hy)
    simpa using hne
  simp only [Loader.popThrough, reverse_append, reverse_cons, append_assoc,
    singleton_append, hdrop, drop_one, tail_cons, reverse_reverse]

/-- What is left of a failed traversal: the objects that were taken stay in the
init list although they have been destroyed, and those of them that have
thread-local data stay in the runtime TLS map. -/
structure Leftover (s s' : Loader) : Prop where
  storage : ∃ taken mapped,
    s'.storage = { s.storage with
      initList := s.storage.initList ++ taken
      runtimeTlsMap := s.storage.runtimeTlsMap ++ mapped } ∧
    s'.destroyed = s.destroyed ++ (s.storage.initList ++ taken) ∧
    s.heap.length ∈ taken
  old : ∀ id < s.heap.length, s'.obj id = s.obj id

/-- The clean-up, from a state in which an object has been taken. -/
theorem Progress.leftover {list : List ObjId} {read : ObjId × List Name} (o : SharedObject)
    (hp : Progress s global ⟨t, list, some read⟩) :
    Leftover s (t.rollback s.heap.length global (s.addRoot o).storage.objects.length
      (s.addRoot o).storage.initialTlsSize).popObject where
  storage := by
    obtain ⟨new, taken, size, mapped, hst, hnew, htaken⟩ := hp.storage
    refine ⟨taken, mapped, ?_, ?_, ?_⟩
    · have hroot : s.heap.length ∉ new := fun h => Nat.lt_irrefl _ (hnew _ h)
      have hcut : s.storage.objects.take (s.storage.objects.length + 1) = s.storage.objects :=
        take_of_length_le (Nat.le_succ _)
      simp only at hst
      cases global <;>
        simp [Loader.popObject, Loader.rollback, hst, Loader.addRoot, Loader.addObject,
          popThrough_append hroot, take_append, hcut]
    · have hd : t.destroyed = s.destroyed := hp.destroyed
      have hinit : t.storage.initList = s.storage.initList ++ taken := congrArg (·.initList) hst
      simp [Loader.popObject, Loader.rollback, hd, hinit]
    · rcases htaken with h | ⟨-, -, h⟩
      · exact h
      · cases h
  old := hp.old

/-- A traversal that fails has taken an object. -/
theorem Progress.of_leaves {c : Loading} (hp : Progress s global c)
    (h : Leaves env initial c (.failure e t)) :
    ∃ list read, Progress s global ⟨t, list, some read⟩ := by
  cases h with
  | @noMemory t id rest h =>
    exact ⟨rest, (id, []), hp.take (Loader.setsTls_take initial) (by simp)⟩
  | failure => exact ⟨_, _, hp⟩

variable {s' : Loader}

theorem loadDependencies_failure_run {start : ObjId}
    (h : loadDependencies env fuel start global initial s = some (.failure e s')) :
    ∃ t, Loop.run (round env global initial) fuel (s.enter start global) =
        some (.failure e t) ∧
      s' = t.rollback start global s.storage.objects.length s.storage.initialTlsSize := by
  obtain ⟨r, hrun, hr⟩ := Option.map_eq_some_iff.mp h
  cases r with
  | success t =>
    simp only at hr
    split at hr <;> cases hr
  | abort => cases hr
  | failure e' t =>
    obtain ⟨rfl, rfl⟩ := hr
    exact ⟨t, hrun, rfl⟩

/-- The last state of a traversal that fails. -/
theorem progress_of_run {o : SharedObject}
    (hrun : Loop.run (round env global initial) fuel ((s.addRoot o).enter s.heap.length global) =
      some (.failure e t)) : ∃ list read, Progress s global ⟨t, list, some read⟩ := by
  obtain ⟨c, hc, hlast⟩ := Loop.run_invariant
    (fun c c' hc h => Progress.step hc (round_inl h)) (progress_enter s o global) hrun
  exact hc.of_leaves (round_inr hlast)

/-! ### What is rolled back -/

/-- Every pointer the containers hold. -/
def ObjectStorage.refs (st : ObjectStorage) : List ObjId :=
  st.objects ++ st.globalScope ++ st.uniqueMap.map (·.2.object) ++ st.initList ++
    st.destructList ++ st.runtimeTlsMap

/-- `s'` is the loader of before, `s`: every container holds what it held, no
object of before has changed, its module index included, and none of the
containers refers to an object that was destroyed in between. -/
structure RolledBack (s s' : Loader) : Prop where
  storage : s'.storage = s.storage
  objects : ∀ id < s.heap.length, s'.obj id = s.obj id
  alive : ∀ id ∈ s'.storage.refs, id ∈ s'.destroyed → id ∈ s.destroyed

theorem RolledBack.refl (s : Loader) : RolledBack s s := ⟨rfl, fun _ _ => rfl, fun _ _ h => h⟩

theorem Leftover.not_rolledBack (h : Leftover s s') : ¬ RolledBack s s' := by
  intro hback
  obtain ⟨taken, mapped, hst, -, htaken⟩ := h.storage
  have hinit : s.storage.initList ++ taken = s.storage.initList :=
    (congrArg (·.initList) hst).symm.trans (congrArg (·.initList) hback.storage)
  rw [append_right_eq_self.mp hinit] at htaken
  cases htaken

/-- The requested object itself is not loaded: `RTLD_NOLOAD` asks for that, or
its file is not found, cannot be mapped or is not a valid object. -/
def RootNotLoaded (env : Env) (filename : Option Name) (flags : OpenFlags) (returnAddr : Addr)
    (s : Loader) : Prop :=
  flags.noload ∨
    ∃ name ∈ filename, ∃ origin ∈ s.objectFromAddr returnAddr, ∃ e,
      env.load s.heap.length (s.obj origin) (openName name) = some (.error e)

section Open

variable {filename : Option Name} {flags : OpenFlags} {returnAddr : Addr} {e : OpenError}

section

variable (h : dlapiOpen env fuel filename flags returnAddr s = some (.null e s'))
include h

/-- A `dlopen` that returns null has changed nothing or has given a traversal up. -/
theorem dlapiOpen_null_run :
    RootNotLoaded env filename flags returnAddr s ∧ s' = s ∨
      ¬ RootNotLoaded env filename flags returnAddr s ∧
        ∃ o err t, o.FromFile ∧
          Loop.run (round env flags.global false) fuel
            ((s.addRoot o).enter s.heap.length flags.global) = some (.failure err t) ∧
          s' = (t.rollback s.heap.length flags.global (s.addRoot o).storage.objects.length
            (s.addRoot o).storage.initialTlsSize).popObject := by
  simp only [dlapiOpen] at h
  have hroot := openRoot_spec env filename flags returnAddr s
  cases hr : openRoot env filename flags returnAddr s with
  | given r =>
    rw [hr] at h hroot
    cases h
    cases hroot with
    | noload hnoload => exact .inl ⟨.inl hnoload, rfl⟩
    | failed horigin hload => exact .inl ⟨.inr ⟨_, rfl, _, horigin, _, hload⟩, rfl⟩
  | loaded origin o =>
    rw [hr] at h hroot
    cases hroot with
    | loaded hnoload horigin hload =>
      refine .inr ⟨?_, ?_⟩
      · rintro (hn | ⟨_, ⟨⟩, origin', horigin', err, herr⟩)
        · exact hnoload hn
        · obtain rfl : origin = origin' := Option.some.inj (horigin.symm.trans horigin')
          rw [hload] at herr
          cases herr
      · obtain ⟨r, hdeps, hr⟩ := Option.map_eq_some_iff.mp h
        cases r with
        | abort | success t => cases hr
        | failure err t =>
          cases hr
          obtain ⟨t, hrun, rfl⟩ := loadDependencies_failure_run hdeps
          exact ⟨o, err, t, Env.fromFile_load hload, hrun, rfl⟩

/-- What `dlopen` leaves when it returns null. -/
theorem dlapiOpen_null :
    RootNotLoaded env filename flags returnAddr s ∧ s' = s ∨
      ¬ RootNotLoaded env filename flags returnAddr s ∧ Leftover s s' := by
  refine (dlapiOpen_null_run h).imp_right (And.imp_right ?_)
  rintro ⟨o, err, t, -, hrun, rfl⟩
  obtain ⟨list, read, ht⟩ := progress_of_run hrun
  exact ht.leftover o

end

end Open

/-- A failed `dlopen` is rolled back exactly when it fails before the requested
object is loaded. -/
theorem rolledBack_iff_rootNotLoaded {fuel : ℕ} {filename : Option Name} {flags : OpenFlags}
    {returnAddr : Addr} {e : OpenError} {s' : Loader}
    (h : dlapiOpen env fuel filename flags returnAddr s = some (.null e s')) :
    RolledBack s s' ↔ RootNotLoaded env filename flags returnAddr s := by
  rcases dlapiOpen_null h with ⟨hroot, rfl⟩ | ⟨hroot, hleft⟩
  · exact iff_of_true (.refl s') hroot
  · exact iff_of_false hleft.not_rolledBack hroot

/-- A library `a` that needs a library `b` which does not exist. -/
def withoutB : Env :=
  .ofLibraries fun name => if name = ['a'] then some (.library ['a'] [['b']] []) else none

theorem rolledBack_iff_rootNotLoaded_missingRoot :
    ∃ s s' e, startup withoutB 8 (.program [] []) .libc = some (.success s) ∧
      dlapiOpen withoutB 8 (some ['c']) ⟨false, false⟩ 0 s = some (.null e s') ∧
      RolledBack s s' := by
  refine ⟨_, _, .load .notFound, rfl, rfl, ?_⟩
  refine (@rolledBack_iff_rootNotLoaded withoutB _ 8 (some ['c']) ⟨false, false⟩ 0 _ _ rfl).mpr ?_
  exact .inr ⟨['c'], rfl, 0, rfl, .notFound, rfl⟩

/-- The missing dependency is found out when `a` is in the init list, where it
stays. -/
theorem not_rolledBack_missingDependency :
    ∃ s s' e, startup withoutB 8 (.program [] []) .libc = some (.success s) ∧
      dlapiOpen withoutB 8 (some ['a']) ⟨false, false⟩ 0 s = some (.null e s') ∧
      ¬ RolledBack s s' := by
  refine ⟨_, _, _, rfl, rfl, fun h => ?_⟩
  exact absurd (congrArg (·.initList) h.storage) (by decide)

end Hzlibc.Rtld
