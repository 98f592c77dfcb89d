import Hzlibc.Rtld.Traversal

/-!
Loading stops when no object needs itself.

The load list grows while it is worked off, and an object may be loaded more
than once, since loaded objects are looked up by the name they give themselves
and not by the name they were asked for. What bounds the work is that every
chain of DT_NEEDED entries ends: the objects pending above a given one are all
descendants of objects taken after it.
-/

namespace Hzlibc.Rtld

open Loop

/-- Every chain of DT_NEEDED entries that starts at the object ends. -/
inductive Acyclic (env : Env) : SharedObject → Prop
  | intro {o : SharedObject}
      (h : ∀ name ∈ o.needed, name ∉ loaderNames → ∀ built o',
        env.load built o name = some (.ok o') → Acyclic env o') : Acyclic env o

/-- The parts of an object that come from its file. -/
structure SharedObject.SameFile (o o' : SharedObject) : Prop where
  name : o'.name = o.name
  path : o'.path = o.path
  runPaths : o'.runPaths = o.runPaths
  dynamic : o'.dynamic = o.dynamic

namespace SharedObject.SameFile

variable {o o' o'' : SharedObject}

theorem refl (o : SharedObject) : o.SameFile o := ⟨rfl, rfl, rfl, rfl⟩

theorem trans (h : o.SameFile o') (h' : o'.SameFile o'') : o.SameFile o'' where
  name := h'.name.trans h.name
  path := h'.path.trans h.path
  runPaths := h'.runPaths.trans h.runPaths
  dynamic := h'.dynamic.trans h.dynamic

theorem needed (h : o.SameFile o') : o'.needed = o.needed := by
  simp [SharedObject.needed, h.dynamic]

theorem searchPaths (h : o.SameFile o') (env : Env) (built : ℕ) (name : Name) (dirs : List Name) :
    env.searchPaths built o' name dirs = env.searchPaths built o name dirs := by
  induction dirs with
  | nil => rfl
  | cons dir dirs ih => simp [Env.searchPaths, h.path, ih]

theorem load (h : o.SameFile o') (env : Env) (built : ℕ) (name : Name) :
    env.load built o' name = env.load built o name := by
  simp [Env.load, Env.loadObjectAtPath, Env.loadObjectWithName, h.path, h.runPaths, h.searchPaths]

end SharedObject.SameFile

/-- No object of `s` has got another file in `s'`. -/
structure Loader.Grows (s s' : Loader) : Prop where
  length : s.heap.length ≤ s'.heap.length
  file : ∀ id < s.heap.length, (s.obj id).SameFile (s'.obj id)

namespace Loader.Grows

variable {s s' s'' : Loader}

theorem refl (s : Loader) : Grows s s := ⟨Nat.le_refl _, fun _ _ => .refl _⟩

theorem trans (h : Grows s s') (h' : Grows s' s'') : Grows s s'' where
  length := Nat.le_trans h.length h'.length
  file id hid := (h.file id hid).trans (h'.file id (Nat.lt_of_lt_of_le hid h.length))

end Loader.Grows

variable {id : ObjId}

theorem Loader.SetsTls.grows {s s' : Loader} (h : Loader.SetsTls id s s') : Loader.Grows s s' where
  length := Nat.le_of_eq h.length.symm
  file id' _ := by
    obtain ⟨_, _, _, ho⟩ := h.withTls id'
    exact ho ▸ ⟨rfl, rfl, rfl, rfl⟩

theorem Loader.SetsTls.grows_pushInit {s s' : Loader}
    (h : Loader.SetsTls id (s.pushInit id) s') : Loader.Grows s s' :=
  ⟨h.grows.length, h.grows.file⟩

theorem Loader.grows_addDependency (s : Loader) (id dep : ObjId) :
    Loader.Grows s (s.addDependency id dep) where
  length := Nat.le_of_eq (Loader.length_heap_modify ..).symm
  file id' _ := s.rel_modify .refl (fun _ => ⟨rfl, rfl, rfl, rfl⟩) id id'

theorem Loader.grows_create (s : Loader) (o : SharedObject) : Loader.Grows s (s.create o) where
  length := by simp
  file id hid := by
    rw [obj_create_of_ne s (Nat.ne_of_lt hid)]
    exact .refl _

theorem Loader.grows_addNeeded (s : Loader) (id : ObjId) (o : SharedObject) (global : Bool) :
    Loader.Grows (s.create o) (s.addNeeded id o global) := by
  have h := (s.create o).grows_addDependency id s.heap.length
  refine ⟨?_, fun id' hid' => ?_⟩
  · rw [heap_addNeeded]
    exact h.length
  · rw [obj_addNeeded]
    exact h.file id' hid'

/-! ### Working off the load list -/

section Stops

variable (env : Env) (global initial : Bool)

/-- The traversal gets to the end of the list, however the loader has grown
since `s`. -/
def StopsAt (s : Loader) (list : List ObjId) : Prop :=
  ∀ s', Loader.Grows s s' → Stops (round env global initial) ⟨s', list, none⟩

/-- The object can be put on top of any list the traversal gets to the end of. -/
def Finishes (s : Loader) (id : ObjId) : Prop :=
  ∀ s' list, Loader.Grows s s' → StopsAt env global initial s' list →
    Stops (round env global initial) ⟨s', id :: list, none⟩

variable {env global initial} {s s' : Loader} {list : List ObjId}

theorem StopsAt.mono (h : StopsAt env global initial s list) (hg : Loader.Grows s s') :
    StopsAt env global initial s' list :=
  fun s'' hg' => h s'' (hg.trans hg')

theorem Finishes.mono (h : Finishes env global initial s id)
    (hg : Loader.Grows s s') : Finishes env global initial s' id :=
  fun s'' list hg' => h s'' list (hg.trans hg')

theorem StopsAt.append {new : List ObjId} (h : StopsAt env global initial s list)
    (hnew : ∀ id ∈ new, Finishes env global initial s id) :
    StopsAt env global initial s (new ++ list) := by
  induction new with
  | nil => exact h
  | cons id new ih =>
    have hrest := ih fun id' hid' => hnew id' (List.mem_cons_of_mem _ hid')
    intro s' hg
    exact hnew id (List.mem_cons_self ..) s' (new ++ list) hg (hrest.mono hg)

theorem stopsAt_nil (s : Loader) : StopsAt env global initial s [] :=
  fun s' _ => ⟨1, .success s', rfl⟩

/-- Reading the entries of an object, when the objects it loads finish: `new`
holds those loaded so far. -/
theorem stops_reading {o : SharedObject} {names : List Name}
    {pending : List ObjId} (new : List ObjId) (hpending : pending = new ++ list)
    (hlist : StopsAt env global initial s list) (hid : id < s.heap.length)
    (hfile : o.SameFile (s.obj id)) (hnew : ∀ x ∈ new, Finishes env global initial s x)
    (hload : ∀ name ∈ names, name ∉ loaderNames → ∀ built o',
      env.load built o name = some (.ok o') → ∀ t x, x < t.heap.length →
        o'.SameFile (t.obj x) → Finishes env global initial t x) :
    Stops (round env global initial) ⟨s, pending, some (id, names)⟩ := by
  induction names generalizing s new pending with
  | nil =>
    refine .of_round fun c' hc => ?_
    cases round_inl hc
    exact hpending ▸ hlist.append hnew s (.refl s)
  | cons name names ih =>
    have hrest := fun n hn => hload n (List.mem_cons_of_mem _ hn)
    refine .of_round fun c' hc => ?_
    cases round_inl hc with
    | skip => exact ih new hpending hlist hid hfile hnew hrest
    | @found _ _ _ added _ _ h hfound =>
      have hg := s.grows_addDependency id added
      exact ih new hpending (hlist.mono hg) (Nat.lt_of_lt_of_le hid hg.length)
        (hfile.trans (hg.file id hid)) (fun x hx => (hnew x hx).mono hg) hrest
    | @load _ _ _ _ _ o' h hnot ho' =>
      have hadd := s.grows_addNeeded id o' global
      have hg : Loader.Grows s (s.addNeeded id o' global) := (s.grows_create o').trans hadd
      have hlt : s.heap.length < (s.create o').heap.length := by simp
      have hnewest : Finishes env global initial (s.addNeeded id o' global) s.heap.length := by
        refine hload name (List.mem_cons_self ..) h s.heap.length o' ?_ _ _
          (Nat.lt_of_lt_of_le hlt hadd.length) ?_
        · rw [← hfile.load]
          exact ho'
        · simpa using hadd.file s.heap.length hlt
      refine ih (s.heap.length :: new) (congrArg _ hpending) (hlist.mono hg)
        (Nat.lt_of_lt_of_le hid hg.length) (hfile.trans (hg.file id hid)) ?_ hrest
      intro x hx
      rcases List.mem_cons.mp hx with rfl | hx
      · exact hnewest
      · exact (hnew x hx).mono hg

theorem Acyclic.finishes {o : SharedObject} (ho : Acyclic env o) :
    ∀ t x, x < t.heap.length → o.SameFile (t.obj x) → Finishes env global initial t x := by
  -- what the object needs finishes by induction on the chain of entries
  induction ho with
  | @intro o h ih =>
    intro t id hid hfile s list hg hlist
    refine .of_round fun c' hc => ?_
    cases round_inl hc with
    | @take _ s' _ _ htake =>
      have hg' := (Loader.setsTls_of_assignTls htake).grows_pushInit
      have hfile' : o.SameFile (s'.obj id) := hfile.trans ((hg.trans hg').file id hid)
      rw [hfile'.needed]
      exact stops_reading [] rfl (hlist.mono hg')
        (Nat.lt_of_lt_of_le hid (hg.trans hg').length) hfile' (by simp) ih

theorem Acyclic.stops {start : ObjId} (ho : Acyclic env (s.obj start))
    (hstart : start < s.heap.length) : Stops (round env global initial) (s.enter start global) := by
  have hg : Loader.Grows s (s.enter start global).loader :=
    ⟨by simp, fun id _ => by rw [obj_enter]; exact .refl _⟩
  exact ho.finishes s start hstart (.refl _) _ [] hg (stopsAt_nil _)

end Stops

/-! ### The two callers -/

theorem loadDependencies_of_stops {env : Env} {global initial : Bool} {s : Loader}
    {start : ObjId} (h : Stops (round env global initial) (s.enter start global)) :
    ∃ fuel r, loadDependencies env fuel start global initial s = some r := by
  obtain ⟨fuel, r, hrun⟩ := h
  exact ⟨fuel, _, Option.map_eq_some_iff.mpr ⟨r, hrun, rfl⟩⟩

theorem Acyclic.startup {env : Env} {exe : Image} (h : Acyclic env (exeObject exe))
    (libc : Image) : ∃ fuel r, startup env fuel exe libc = some r := by
  have hstops : Stops (round env true true) ((Loader.initial exe libc).enter 0 true) :=
    Acyclic.stops h (by simp [Loader.initial])
  obtain ⟨fuel, r, hload⟩ := loadDependencies_of_stops hstops
  exact ⟨fuel, _, Option.map_eq_some_iff.mpr ⟨r, hload, rfl⟩⟩

theorem Acyclic.dlapiOpen {env : Env} {s : Loader} {filename : Option Name} {flags : OpenFlags}
    {returnAddr : Addr}
    (h : ∀ origin o, openRoot env filename flags returnAddr s = .loaded origin o →
      Acyclic env o) : ∃ fuel r, dlapiOpen env fuel filename flags returnAddr s = some r := by
  cases hr : openRoot env filename flags returnAddr s with
  | given r => exact ⟨0, r, by simp [Rtld.dlapiOpen, hr]⟩
  | loaded origin o =>
    have hstops : Stops (round env flags.global false)
        ((s.addRoot o).enter s.heap.length flags.global) :=
      Acyclic.stops (by simpa using h origin o hr) (by simp)
    obtain ⟨fuel, r, hload⟩ := loadDependencies_of_stops hstops
    refine ⟨fuel, ?_⟩
    simp only [Rtld.dlapiOpen, hr, hload]
    exact ⟨_, rfl⟩

end Hzlibc.Rtld
