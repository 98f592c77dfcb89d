import Hzlibc.Rtld.Needed

/-!
The order in which constructors run.

Both callers of `load_dependencies` run the constructors of the init list from
its back to its front, so an object's constructors run before those of the
objects taken before it. Relocation comes in between; it changes nothing but the
unique map. What remains is the order of the init list itself.
-/

namespace Hzlibc.Rtld

open List Option

open scoped List

/-! ### After the traversal -/

/-- `s'` has the objects of `s`, with the same files and dependencies. -/
structure Loader.Keeps (s s' : Loader) : Prop where
  length : s'.heap.length = s.heap.length
  file : ∀ id, (s.obj id).SameFile (s'.obj id)
  dependencies : ∀ id, (s'.obj id).dependencies = (s.obj id).dependencies
  objects : s'.storage.objects = s.storage.objects

namespace Loader

variable {s s' s'' : Loader}

theorem Keeps.refl (s : Loader) : Keeps s s := ⟨rfl, fun _ => .refl _, fun _ => rfl, rfl⟩

theorem Keeps.trans (h : Keeps s s') (h' : Keeps s' s'') : Keeps s s'' where
  length := h'.length.trans h.length
  file id := (h.file id).trans (h'.file id)
  dependencies id := (h'.dependencies id).trans (h.dependencies id)
  objects := h'.objects.trans h.objects

theorem Keeps.grows (h : Keeps s s') : Grows s s' :=
  ⟨Nat.le_of_eq h.length.symm, fun id _ => h.file id⟩

theorem keeps_modify {id : ObjId} {f : SharedObject → SharedObject}
    (hfile : ∀ o : SharedObject, o.SameFile (f o))
    (hdeps : ∀ o, (f o).dependencies = o.dependencies) : Keeps s (s.modify id f) where
  length := length_heap_modify ..
  file id' := s.rel_modify .refl hfile id id'
  dependencies id' := s.proj_modify (·.dependencies) hdeps id id'
  objects := rfl

theorem keeps_pushLocal (id dep : ObjId) : Keeps s (s.pushLocal id dep) := by
  refine keeps_modify ?_ ?_
  · exact fun _ => ⟨rfl, rfl, rfl, rfl⟩
  · exact fun _ => rfl

theorem keeps_construct (id : ObjId) : Keeps s (s.construct id) := by
  simp only [construct]
  split
  · exact .refl s
  · have h : Keeps s (s.modify id fun o => { o with initialized := true }) := by
      refine keeps_modify ?_ ?_
      · exact fun _ => ⟨rfl, rfl, rfl, rfl⟩
      · exact fun _ => rfl
    exact ⟨h.length, h.file, h.dependencies, h.objects⟩

theorem keeps_foldl_construct (ids : List ObjId) : Keeps s (ids.foldl construct s) := by
  induction ids generalizing s with
  | nil => exact .refl s
  | cons id ids ih => exact (keeps_construct id).trans ih

theorem initList_construct (id : ObjId) :
    (s.construct id).storage.initList = s.storage.initList := by
  simp only [construct]
  split
  · rfl
  · rfl

theorem initList_foldl_construct (ids : List ObjId) :
    (ids.foldl construct s).storage.initList = s.storage.initList := by
  induction ids generalizing s with
  | nil => rfl
  | cons id ids ih => exact ih.trans (initList_construct id)

/-- Each object of a list without repetitions is constructed, if none has been
before. -/
theorem constructed_foldl {ids : List ObjId} (hnodup : ids.Nodup)
    (hinit : ∀ id ∈ ids, (s.obj id).initialized = false) :
    (ids.foldl construct s).constructed = s.constructed ++ ids := by
  induction ids generalizing s with
  | nil => simp
  | cons id ids ih =>
    obtain ⟨hid, hnodup⟩ := nodup_cons.mp hnodup
    have hnot : (s.obj id).initialized = false := hinit id (mem_cons_self ..)
    have hstep : (s.construct id).constructed = s.constructed ++ [id] := by
      simp [construct, hnot]
    rw [foldl_cons, ih hnodup, hstep, append_assoc, singleton_append]
    intro id' hid'
    have hne : id' ≠ id := fun heq => hid (heq ▸ hid')
    have hobj : (s.construct id).obj id' = s.obj id' := by
      simp only [construct, hnot]
      exact obj_modify_of_ne s hne _
    rw [hobj]
    exact hinit id' (mem_cons_of_mem _ hid')

/-! ### Relocation -/

theorem foldlM_onlyUnique {α : Type} {f : Loader → α → Option Loader}
    (hf : ∀ s a s', f s a = some s' → ∃ u, s' = s.withUnique u) {l : List α}
    (h : l.foldlM f s = some s') : ∃ u, s' = s.withUnique u := by
  refine Loop.foldlM_invariant (I := fun s' => ∃ u, s' = s.withUnique u) ?_ ⟨_, rfl⟩ h
  rintro _ a s' ⟨u, rfl⟩ hm
  obtain ⟨u', rfl⟩ := hf _ a s' hm
  exact ⟨u', rfl⟩

theorem lookupReloc_changes (id : ObjId) (r : Reloc) (policy : LookupPolicy) :
    ∃ u, (s.lookupReloc id r policy).2 = s.withUnique u := by
  simp only [lookupReloc]
  split
  next sym _ =>
    obtain ⟨new, hnew⟩ := lookup_changes (s := s) (some id) sym.name policy
    exact ⟨_, hnew⟩
  · exact ⟨s.storage.uniqueMap, rfl⟩

/-- A pass over relocation entries, whatever it takes for the loader to go on. -/
theorem foldlM_lookupReloc {id : ObjId} {policy : LookupPolicy}
    {g : Loader → Reloc → Option ObjectSymbol → Bool} {relocs : List Reloc}
    (h : relocs.foldlM (fun s r =>
      let found := s.lookupReloc id r policy
      if g s r found.1 then some found.2 else none) s = some s') :
    ∃ u, s' = s.withUnique u := by
  refine foldlM_onlyUnique (fun s r s' h => ?_) h
  simp only at h
  split_ifs at h
  cases h
  exact lookupReloc_changes ..

theorem relocate_changes {id : ObjId} (h : s.relocate id = some s') : ∃ u, s' = s.withUnique u :=
  foldlM_lookupReloc (g := fun s => s.processRelocation id) h

theorem lateRelocate_changes {id : ObjId} (h : s.lateRelocate id = some s') :
    ∃ u, s' = s.withUnique u :=
  foldlM_lookupReloc (g := fun _ => processLateRelocation) h

theorem relocateAll_changes {ids : List ObjId} (h : s.relocateAll ids = some s') :
    ∃ u, s' = s.withUnique u := by
  obtain ⟨m, hm, hlate⟩ := bind_eq_some_iff.mp h
  obtain ⟨u, rfl⟩ := foldlM_onlyUnique (fun _ _ _ h => relocate_changes h) hm
  obtain ⟨u', rfl⟩ := foldlM_onlyUnique (fun _ _ _ h => lateRelocate_changes h) hlate
  exact ⟨u', rfl⟩

end Loader

theorem loadDependencies_success {env : Env} {fuel : ℕ} {start : ObjId} {global initial : Bool}
    {s s' : Loader} (h : loadDependencies env fuel start global initial s = some (.success s')) :
    ∃ t u, Loop.run (round env global initial) fuel (s.enter start global) = some (.success t) ∧
      s' = t.withUnique u := by
  obtain ⟨r, hrun, hr⟩ := map_eq_some_iff.mp h
  cases r with
  | success t =>
    simp only at hr
    split at hr
    next s'' hrel =>
      cases hr
      obtain ⟨u, rfl⟩ := Loader.relocateAll_changes hrel
      exact ⟨t, u, hrun, rfl⟩
    · cases hr
  | failure e t | abort => cases hr

/-! ### In order -/

/-- Between `s` and `s'` the constructors of each new object have run once, and
those of an object have run before those of the objects that need it. -/
def ConstructedInOrder (isNew : ObjId → Prop) (s s' : Loader) : Prop :=
  ∃ ran, s'.constructed = s.constructed ++ ran ∧ (∀ id, isNew id → ran.count id = 1) ∧
    ∀ a b, isNew a → isNew b → b ∈ (s'.obj a).dependencies → [b, a] <+ ran

theorem Traversed.nodup {s t : Loader} {start : ObjId} (ht : Traversed s start ⟨t, [], none⟩) :
    t.storage.initList.Nodup := by
  simpa [Loading.discovery] using ht.wellFormed.nodup

theorem Traversed.uninitialized {s t : Loader} {start : ObjId}
    (ht : Traversed s start ⟨t, [], none⟩) :
    ∀ id ∈ t.storage.initList, (t.obj id).initialized = false := by
  intro id hid
  exact ht.known.initialized id (ht.known.isNew (mem_append_left _ hid))

theorem pair_sublist_of_append_left {α : Type*} {a b : α} {l l' : List α}
    (h : [a, b] <+ l ++ l') (ha : a ∉ l) : [a, b] <+ l' := by
  obtain ⟨x, y, heq, hx, hy⟩ := sublist_append_iff.mp h
  cases x with
  | nil => exact heq ▸ hy
  | cons c x =>
    obtain ⟨rfl, -⟩ := List.cons.inj heq
    exact absurd (hx.subset (mem_cons_self ..)) ha

variable {isNew : ObjId → Prop}

/-- Running the constructors from the back of the init list, after those of
objects that are not in it, runs them in order exactly when the list is. -/
theorem constructedInOrder_iff {s s₀ s' t : Loader} {start : ObjId} {first : List ObjId}
    (ht : Traversed s start ⟨t, [], none⟩)
    (hnew : ∀ id, isNew id ↔ id ∈ t.storage.initList) (hkeep : Loader.Keeps t s')
    (hran : s'.constructed = s₀.constructed ++ (first ++ t.storage.initList.reverse))
    (hfirst : ∀ id ∈ t.storage.initList, id ∉ first) :
    ConstructedInOrder isNew s₀ s' ↔ (s.discovered start t).Ordered := by
  have hnodup := ht.nodup
  constructor
  · -- what has run is the list from its back, so the pair turns round
    rintro ⟨ran, hran', -, hedge⟩ a b hab
    obtain rfl : first ++ t.storage.initList.reverse = ran :=
      append_cancel_left (hran.symm.trans hran')
    have ha : a ∈ t.storage.initList := ht.wellFormed.source a b hab
    have hb : b ∈ t.storage.initList := by
      simpa [Loading.discovery] using ht.wellFormed.target a b hab
    have hpair := hedge a b ((hnew a).mpr ha) ((hnew b).mpr hb)
      ((hkeep.dependencies a).symm ▸ hab.2.2)
    exact reverse_sublist.mp (pair_sublist_of_append_left hpair (hfirst b hb))
  · intro hord
    refine ⟨_, hran, fun id hid => ?_, fun a b ha hb hab => ?_⟩
    · have hmem := (hnew id).mp hid
      rw [count_append, count_eq_zero.mpr (hfirst id hmem),
        count_eq_one_of_mem (nodup_reverse.mpr hnodup) (mem_reverse.mpr hmem)]
    · have hin : ∀ id, isNew id → IsNew s start id := fun id hid =>
        ht.known.isNew (mem_append_left _ ((hnew id).mp hid))
      rw [hkeep.dependencies] at hab
      have hpair : [a, b] <+ t.storage.initList := hord a b ⟨hin a ha, hin b hb, hab⟩
      exact (reverse_sublist.mpr hpair).trans (sublist_append_right _ _)

/-! ### The two callers -/

/-- What the constructors of an init list leave. -/
structure Loader.Finished (s : Loader) (first : List ObjId) (s' : Loader) : Prop where
  keeps : Keeps s s'
  constructed : s'.constructed = s.constructed ++ (first ++ s.storage.initList.reverse)
  initList : s'.storage.initList = []

namespace Loader

variable {s s' : Loader}

theorem Finished.after {m : Loader} {first : List ObjId} (h : Finished m [] s')
    (hm : Keeps s m) (hinit : m.storage.initList = s.storage.initList)
    (hran : m.constructed = s.constructed ++ first) : Finished s first s' where
  keeps := hm.trans h.keeps
  constructed := by
    rw [h.constructed, hran, hinit, nil_append, append_assoc]
  initList := h.initList

theorem Finished.of_withUnique {u : List (Name × ObjectSymbol)} {first : List ObjId}
    (h : Finished (s.withUnique u) first s') : Finished s first s' :=
  ⟨⟨h.keeps.length, h.keeps.file, h.keeps.dependencies, h.keeps.objects⟩, h.constructed, h.initList⟩

variable (hnodup : s.storage.initList.Nodup)
  (hinit : ∀ id ∈ s.storage.initList, (s.obj id).initialized = false)
include hnodup hinit

theorem finished_initObjects : Finished s [] s.initObjects where
  keeps := by
    have h := keeps_foldl_construct (s := s) s.storage.initList.reverse
    exact ⟨h.length, h.file, h.dependencies, h.objects⟩
  constructed := constructed_foldl (nodup_reverse.mpr hnodup) fun id hid =>
    hinit id (mem_reverse.mp hid)
  initList := rfl

theorem finished_finishStart (h : s.finishStart = some s') : Finished s [1] s' := by
  obtain ⟨m, hm, h⟩ := bind_eq_some_iff.mp h
  obtain ⟨u, rfl⟩ := relocate_changes hm
  obtain ⟨m, hm, h⟩ := bind_eq_some_iff.mp h
  obtain ⟨u', rfl⟩ := lateRelocate_changes hm
  cases h
  have hm := Keeps.refl s
  exact Finished.after (finished_initObjects (by exact hnodup) (by exact hinit))
    ⟨hm.length, hm.file, hm.dependencies, hm.objects⟩ rfl rfl

/-- Here the init list is emptied first. -/
theorem finished_foldl_construct :
    Finished s [] (s.storage.initList.reverse.foldl construct s.clearInit) where
  keeps := by
    have h := keeps_foldl_construct (s := s.clearInit) s.storage.initList.reverse
    exact ⟨h.length, h.file, h.dependencies, h.objects⟩
  constructed := constructed_foldl (s := s.clearInit) (nodup_reverse.mpr hnodup)
    fun id hid => hinit id (mem_reverse.mp hid)
  initList := initList_foldl_construct _

theorem finished_finishOpen (origin root : ObjId) (global : Bool) :
    Finished s [] (s.finishOpen origin root global) := by
  cases global with
  | true => exact finished_foldl_construct hnodup hinit
  | false =>
    have hpush : ∀ id ∈ s.storage.initList,
        ((s.pushLocal origin root).obj id).initialized = false := by
      intro id hid
      rw [← hinit id hid]
      refine s.proj_modify (·.initialized) ?_ origin id
      intro o
      rfl
    have hfin := finished_foldl_construct (s := s.pushLocal origin root) hnodup hpush
    exact hfin.after (keeps_pushLocal origin root) rfl (append_nil _).symm

end Loader

section Traversal

variable {env : Env} {fuel : ℕ} {global initial : Bool} {s s₀ s' t : Loader} {start : ObjId}
  {first : List ObjId} (hs : Ready s start)
  (hrun : Loop.run (round env global initial) fuel (s.enter start global) = some (.success t))
  (hfin : Loader.Finished t first s')

include hs hrun hfin

theorem Loader.Finished.mem_initList_iff (id : ObjId) :
    id ∈ t.storage.initList ↔ id = start ∨ s.heap.length ≤ id ∧ id < s'.heap.length := by
  have hknown := (traversed_of_run hs hrun).known.known id
  rw [append_nil] at hknown
  rw [hknown, hfin.keeps.length]

theorem Loader.Finished.dependenciesNeeded
    (hnew : ∀ id, isNew id ↔ id = start ∨ s.heap.length ≤ id ∧ id < s'.heap.length) :
    DependenciesNeeded env isNew s' := by
  intro id hid
  have hmem := (hfin.mem_initList_iff hs hrun id).mpr ((hnew id).mp hid)
  rw [hfin.keeps.dependencies, (hfin.keeps.file id).needed]
  exact (dependenciesNeeded_of_run hs hrun id hmem).imp fun _ _ h => h.mono hfin.keeps.grows

/-- The constructors run in order exactly when the traversal has met no loaded
object in the init list. -/
theorem Loader.Finished.inOrder_iff (hs₀ : s₀.constructed = s.constructed)
    (hnew : ∀ id, isNew id ↔ id = start ∨ s.heap.length ≤ id ∧ id < s'.heap.length)
    (hfirst : ∀ id ∈ first, ¬ isNew id) :
    ConstructedInOrder isNew s₀ s' ↔
      Loop.Along (round env global initial) NeedsPending fuel (s.enter start global) := by
  have ht := traversed_of_run hs hrun
  have hmem : ∀ id, isNew id ↔ id ∈ t.storage.initList := fun id =>
    (hnew id).trans (hfin.mem_initList_iff hs hrun id).symm
  have hran : s'.constructed = s₀.constructed ++ (first ++ t.storage.initList.reverse) := by
    have ht' : t.constructed = s.constructed := ht.known.constructed
    rw [hfin.constructed, ht', hs₀]
  rw [constructedInOrder_iff ht hmem hfin.keeps hran
    fun id hid hin => hfirst id hin ((hmem id).mpr hid)]
  constructor
  · intro hord
    by_contra halong
    exact not_ordered_of_not_along hs hrun halong hord
  · exact ordered_of_along hs hrun

end Traversal

/-- The objects of a `dlopen` are its root and what is built after it. -/
theorem Loader.isNew_addRoot_iff (s : Loader) {s' : Loader} (o : SharedObject)
    (h : s.heap.length < s'.heap.length) (id : ObjId) :
    s.heap.length ≤ id ∧ id < s'.heap.length ↔
      id = s.heap.length ∨ (s.addRoot o).heap.length ≤ id ∧ id < s'.heap.length := by
  rw [length_addRoot, Nat.le_iff_lt_or_eq, or_and_right, or_comm]
  refine or_congr_left ⟨fun hid => hid.1.symm, ?_⟩
  rintro rfl
  exact ⟨rfl, h⟩

/-! ### Programs that run -/

/-- What holds between two calls of `dlopen`. -/
structure Loader.Quiet (s : Loader) : Prop where
  initList : s.storage.initList = []
  objects : ∀ id ∈ s.storage.objects, id < s.heap.length

theorem Loader.Finished.quiet {s s' t : Loader} {start : ObjId} {first : List ObjId}
    (hfin : Finished t first s') (ht : Traversed s start ⟨t, [], none⟩) : Quiet s' where
  initList := hfin.initList
  objects id hid := by
    rw [hfin.keeps.objects] at hid
    rw [hfin.keeps.length]
    exact ht.known.objects id hid

theorem Loader.Quiet.ready {s : Loader} {o : SharedObject} (hs : Quiet s) (ho : o.Fresh) :
    Ready (s.addRoot o) s.heap.length where
  inHeap := by simp
  fresh := by simpa using ho
  initList := hs.initList
  objects := objects_addRoot hs.objects o

theorem ready_initial (exe libc : Image) : Ready (.initial exe libc) 0 where
  inHeap := Nat.zero_lt_succ _
  fresh := ⟨rfl, rfl⟩
  initList := rfl
  objects := by simp [Loader.initial]

theorem startup_run {env : Env} {fuel : ℕ} {exe libc : Image} {s' : Loader}
    (h : startup env fuel exe libc = some (.success s')) :
    ∃ t u, Loop.run (round env true true) fuel ((Loader.initial exe libc).enter 0 true) =
        some (.success t) ∧ (t.withUnique u).finishStart = some s' := by
  obtain ⟨r, hload, hr⟩ := map_eq_some_iff.mp h
  cases r with
  | failure e t | abort => cases hr
  | success t =>
    obtain ⟨t, u, hrun, rfl⟩ := loadDependencies_success hload
    simp only at hr
    split at hr
    next s'' hfinish =>
      cases hr
      exact ⟨t, u, hrun, hfinish⟩
    · cases hr

theorem startup_success {env : Env} {fuel : ℕ} {exe libc : Image} {s' : Loader}
    (h : startup env fuel exe libc = some (.success s')) :
    ∃ t, Loop.run (round env true true) fuel ((Loader.initial exe libc).enter 0 true) =
        some (.success t) ∧ Loader.Finished t [1] s' := by
  obtain ⟨t, u, hrun, hfinish⟩ := startup_run h
  have ht := traversed_of_run (ready_initial exe libc) hrun
  exact ⟨t, hrun, (Loader.finished_finishStart (s := t.withUnique u) ht.nodup ht.uninitialized
    hfinish).of_withUnique⟩

/-- The traversal of a `dlopen`, if there is one. -/
def openTraversal (env : Env) (filename : Option Name) (flags : OpenFlags) (returnAddr : Addr)
    (s : Loader) : Option Loading :=
  match openRoot env filename flags returnAddr s with
  | .given _ => none
  | .loaded _ o => some ((s.addRoot o).enter s.heap.length flags.global)

section Open

variable {env : Env} {fuel : ℕ} {filename : Option Name} {flags : OpenFlags} {returnAddr : Addr}
  {s s' : Loader} {id : ObjId}

/-- A `dlopen` that returns a handle has changed nothing or has loaded a root. -/
theorem dlapiOpen_run (h : dlapiOpen env fuel filename flags returnAddr s = some (.handle id s')) :
    s' = s ∧ openTraversal env filename flags returnAddr s = none ∨
      ∃ origin o t u, o.FromFile ∧
        openTraversal env filename flags returnAddr s =
          some ((s.addRoot o).enter s.heap.length flags.global) ∧
        Loop.run (round env flags.global false) fuel
          ((s.addRoot o).enter s.heap.length flags.global) = some (.success t) ∧
        s' = (t.withUnique u).finishOpen origin s.heap.length flags.global := by
  simp only [dlapiOpen, openTraversal] at h ⊢
  have hroot := openRoot_spec env filename flags returnAddr s
  cases hr : openRoot env filename flags returnAddr s with
  | given r =>
    rw [hr] at h hroot
    cases h
    cases hroot
    exact .inl ⟨rfl, rfl⟩
  | loaded origin o =>
    rw [hr] at h hroot
    cases hroot with
    | loaded hnoload horigin hload =>
      obtain ⟨r, hdeps, hr⟩ := map_eq_some_iff.mp h
      cases r with
      | abort | failure e t => cases hr
      | success t =>
        cases hr
        obtain ⟨t, u, hrun, rfl⟩ := loadDependencies_success hdeps
        exact .inr ⟨origin, o, t, u, Env.fromFile_load hload, rfl, hrun, rfl⟩

/-- The same between two calls of `dlopen`, with what the constructors leave. -/
theorem dlapiOpen_handle (hs : s.Quiet)
    (h : dlapiOpen env fuel filename flags returnAddr s = some (.handle id s')) :
    s' = s ∧ openTraversal env filename flags returnAddr s = none ∨
      ∃ o t, o.Fresh ∧
        openTraversal env filename flags returnAddr s =
          some ((s.addRoot o).enter s.heap.length flags.global) ∧
        Loop.run (round env flags.global false) fuel
          ((s.addRoot o).enter s.heap.length flags.global) = some (.success t) ∧
        Loader.Finished t [] s' := by
  refine (dlapiOpen_run h).imp_right ?_
  rintro ⟨origin, o, t, u, ho, htraversal, hrun, rfl⟩
  have ht := traversed_of_run (hs.ready ho.fresh) hrun
  have hfin := Loader.finished_finishOpen (s := t.withUnique u) ht.nodup ht.uninitialized origin
    s.heap.length flags.global
  exact ⟨o, t, ho.fresh, htraversal, hrun, hfin.of_withUnique⟩

end Open

/-- A program that has been started and has opened libraries. A `dlopen` that
fails before its root is loaded changes nothing; one that fails later leaves
destroyed objects in the init list, and the next one would read them. -/
inductive Running : Loader → Prop
  | start {env : Env} {fuel : ℕ} {exe libc : Image} {s : Loader}
      (h : startup env fuel exe libc = some (.success s)) : Running s
  | opened {env : Env} {fuel : ℕ} {filename : Option Name} {flags : OpenFlags}
      {returnAddr : Addr} {s s' : Loader} {id : ObjId} (hs : Running s)
      (h : dlapiOpen env fuel filename flags returnAddr s = some (.handle id s')) : Running s'

theorem Running.quiet {s : Loader} (h : Running s) : s.Quiet := by
  induction h with
  | @start env fuel exe libc s h =>
    obtain ⟨t, hrun, hfin⟩ := startup_success h
    exact hfin.quiet (traversed_of_run (ready_initial exe libc) hrun)
  | opened hs h ih =>
    rcases dlapiOpen_handle ih h with ⟨rfl, -⟩ | ⟨o, t, ho, -, hrun, hfin⟩
    · exact ih
    · exact hfin.quiet (traversed_of_run (ih.ready ho) hrun)

/-! ### The order of the constructors -/

/-- When no object needs itself, both callers come to an end. When they succeed,
the new objects have the dependencies they need, and the constructors have run
once each and in the order of the dependencies exactly when no DT_NEEDED entry has
been found to refer to an object that was in the init list already. -/
theorem constructedInOrder_iff_needsPending (env : Env) :
    (∀ exe libc,
      (Acyclic env (exeObject exe) → ∃ fuel r, startup env fuel exe libc = some r) ∧
      ∀ fuel s', startup env fuel exe libc = some (.success s') →
        DependenciesNeeded env (fun id => id = 0 ∨ 2 ≤ id ∧ id < s'.heap.length) s' ∧
        (ConstructedInOrder (fun id => id = 0 ∨ 2 ≤ id ∧ id < s'.heap.length)
            (Loader.initial exe libc) s' ↔
          Loop.Along (round env true true) NeedsPending fuel
            ((Loader.initial exe libc).enter 0 true))) ∧
    ∀ s, Running s → ∀ filename flags returnAddr,
      ((∀ origin o, openRoot env filename flags returnAddr s = .loaded origin o →
          Acyclic env o) →
        ∃ fuel r, dlapiOpen env fuel filename flags returnAddr s = some r) ∧
      ∀ fuel root s', dlapiOpen env fuel filename flags returnAddr s = some (.handle root s') →
        DependenciesNeeded env (fun id => s.heap.length ≤ id ∧ id < s'.heap.length) s' ∧
        (ConstructedInOrder (fun id => s.heap.length ≤ id ∧ id < s'.heap.length) s s' ↔
          ∀ c ∈ openTraversal env filename flags returnAddr s,
            Loop.Along (round env flags.global false) NeedsPending fuel c) := by
  refine ⟨fun exe libc => ⟨fun h => h.startup libc, fun fuel s' h => ?_⟩,
    fun s hs filename flags returnAddr => ⟨Acyclic.dlapiOpen, fun fuel root s' h => ?_⟩⟩
  · obtain ⟨t, hrun, hfin⟩ := startup_success h
    have hready := ready_initial exe libc
    exact ⟨hfin.dependenciesNeeded hready hrun fun id => Iff.rfl,
      hfin.inOrder_iff hready hrun rfl (fun id => Iff.rfl) (by simp)⟩
  · rcases dlapiOpen_handle hs.quiet h with ⟨rfl, hnone⟩ | ⟨o, t, ho, hsome, hrun, hfin⟩
    · -- nothing is new
      have hnew : ∀ id, ¬ (s'.heap.length ≤ id ∧ id < s'.heap.length) := fun id h =>
        absurd h.2 (Nat.not_lt.mpr h.1)
      refine ⟨fun id hid => absurd hid (hnew id), iff_of_true ⟨[], by simp, ?_, ?_⟩ ?_⟩
      · exact fun id hid => absurd hid (hnew id)
      · exact fun a b ha => absurd ha (hnew a)
      · simp [hnone]
    · have hready := hs.quiet.ready ho
      have hroot : s.heap.length < s'.heap.length := by
        rw [hfin.keeps.length]
        exact Nat.lt_of_lt_of_le hready.inHeap (traversed_of_run hready hrun).known.length
      have hnew := s.isNew_addRoot_iff o hroot
      rw [hsome]
      exact ⟨hfin.dependenciesNeeded hready hrun hnew,
        (hfin.inOrder_iff hready hrun rfl hnew (by simp)).trans (by simp)⟩

/-- A library `a` that needs a library `b`. -/
def aNeedsB : Env :=
  .ofLibraries fun name =>
    if name = ['a'] then some (.library ['a'] [['b']] [])
    else if name = ['b'] then some (.library ['b'] [] []) else none

theorem constructedInOrder_iff_needsPending_chain :
    (∃ s', startup aNeedsB 16 (.program [['a']] []) .libc = some (.success s') ∧
      ConstructedInOrder (fun id => id = 0 ∨ 2 ≤ id ∧ id < s'.heap.length)
        (Loader.initial (.program [['a']] []) .libc) s') ∧
    ∃ s s' root, startup aNeedsB 16 (.program [] []) .libc = some (.success s) ∧
      dlapiOpen aNeedsB 16 (some ['a']) ⟨false, false⟩ 0 s = some (.handle root s') ∧
      ConstructedInOrder (fun id => s.heap.length ≤ id ∧ id < s'.heap.length) s s' := by
  refine ⟨⟨_, rfl, ?_⟩, _, _, _, rfl, rfl, ?_⟩
  · refine (((constructedInOrder_iff_needsPending aNeedsB).1 _ _).2 16 _ rfl).2.mpr ?_
    decide
  · have hs := @Running.start aNeedsB 16 (.program [] []) .libc _ rfl
    refine (((constructedInOrder_iff_needsPending aNeedsB).2 _ hs (some ['a'])
      ⟨false, false⟩ 0).2 16 _ _ rfl).2.mpr ?_
    decide

/-- The executable needs `a` and then `b`. The last one pending is taken first,
so `a` finds `b` in the init list, and `b` is constructed after `a`. -/
theorem not_constructedInOrder_sharedDependency :
    Acyclic aNeedsB (exeObject (.program [['a'], ['b']] [])) ∧
    ∃ s', startup aNeedsB 16 (.program [['a'], ['b']] []) .libc = some (.success s') ∧
      ¬ ConstructedInOrder (fun id => id = 0 ∨ 2 ≤ id ∧ id < s'.heap.length)
        (Loader.initial (.program [['a'], ['b']] []) .libc) s' := by
  constructor
  · -- the files are the same whenever they are opened
    refine .intro fun name hname _ built o h => ?_
    rcases mem_pair.mp hname with rfl | rfl
    · obtain rfl := Except.ok.inj (some.inj h)
      refine .intro fun name hname _ built o h => ?_
      obtain rfl := mem_singleton.mp hname
      obtain rfl := Except.ok.inj (some.inj h)
      exact .intro fun name hname => absurd hname not_mem_nil
    · obtain rfl := Except.ok.inj (some.inj h)
      exact .intro fun name hname => absurd hname not_mem_nil
  · refine ⟨_, rfl, ?_⟩
    rintro ⟨ran, hran, -, hedge⟩
    obtain rfl : [1, 2, 3, 0] = ran := hran
    exact absurd (hedge 2 3 (.inr (by decide)) (.inr (by decide)) (by decide)) (by decide)

end Hzlibc.Rtld
