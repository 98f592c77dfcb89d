import Hzlibc.Rtld.InitOrder
import Hzlibc.Rtld.Acyclic

/-!
The dependencies an object ends up with.

The edges of a traversal are the dependencies it records. They are what the
DT_NEEDED entries ask for: entry by entry, except those that stand for the
loader, an object that is loaded under that name or one that has been loaded for
the entry.
-/

namespace Hzlibc.Rtld

open List

variable {env : Env} {global initial : Bool} {s s' : Loader} {start : ObjId}

/-- `dep` is an object for a DT_NEEDED entry. -/
inductive Loader.Serves (env : Env) (s : Loader) (name : Name) (dep : ObjId) : Prop
  | loaded (hlt : dep < s.heap.length)
      (h : if '/' ∈ name then (s.obj dep).path = name else (s.obj dep).name = name)
  | opened {built : ℕ} {origin o : SharedObject} (hlt : dep < s.heap.length)
      (h : env.load built origin name = some (.ok o)) (hfile : o.SameFile (s.obj dep))

variable {name : Name} {t : Loader}

theorem Loader.Serves.mono {dep : ObjId} (h : s.Serves env name dep) (hg : Loader.Grows s s') :
    s'.Serves env name dep := by
  cases h with
  | loaded hlt h =>
    refine .loaded (Nat.lt_of_lt_of_le hlt hg.length) ?_
    rw [(hg.file dep hlt).path, (hg.file dep hlt).name]
    exact h
  | opened hlt h hfile =>
    exact .opened (Nat.lt_of_lt_of_le hlt hg.length) h (hfile.trans (hg.file dep hlt))

/-- The entries of an object that are still to be read. -/
def Loading.unread (c : Loading) (id : ObjId) : List Name :=
  match c.reading with
  | some (id', names) => if id' = id then names else []
  | none => []

/-- Every entry that has been read has its object. -/
def Resolved (env : Env) (c : Loading) : Prop :=
  ∀ id ∈ c.loader.storage.initList, ∃ read,
    (c.loader.obj id).needed = read ++ c.unread id ∧
      List.Forall₂ (c.loader.Serves env) (read.filter (· ∉ loaderNames))
        (c.loader.obj id).dependencies

variable {names : List Name} {list : List ObjId} {id : ObjId}

/-- The object taken starts with no dependencies and all its entries unread. -/
theorem Resolved.take {t' : Loader} {rest : List ObjId} (hr : Resolved env ⟨t, id :: rest, none⟩)
    (ht : Traversed s start ⟨t, id :: rest, none⟩) (hset : Loader.SetsTls id (t.pushInit id) t') :
    Resolved env ⟨t', rest, some (id, (t'.obj id).needed)⟩ := by
  have hinit := hset.initList_pushInit
  have hg := hset.grows_pushInit
  have hnodup : (t.storage.initList ++ id :: rest).Nodup := ht.wellFormed.nodup
  have hpending : id ∉ t.storage.initList := fun hmem =>
    (nodup_append.mp hnodup).2.2 id hmem id (mem_cons_self ..) rfl
  intro id' hid'
  rw [hinit, mem_append, mem_singleton] at hid'
  rw [hset.dependencies id']
  rcases hid' with hid' | rfl
  · obtain ⟨read, hneeded, hserves⟩ := hr id' hid'
    have hne : id ≠ id' := fun heq => hpending (heq ▸ hid')
    refine ⟨read, ?_, hserves.imp fun _ _ h => h.mono hg⟩
    rw [(hg.file id' (ht.known.lt_length hid')).needed, hneeded]
    simp [Loading.unread, hne]
  · have hnew : IsNew s start id' := ht.known.isNew (mem_append_right _ (mem_cons_self ..))
    have hnone : ((t.pushInit id').obj id').dependencies = [] := ht.known.fresh id' hnew hpending
    refine ⟨[], by simp [Loading.unread], ?_⟩
    rw [hnone]
    exact .nil

section

variable (hr : Resolved env ⟨t, list, some (id, name :: names)⟩)
include hr

/-- The next entry of `id` is read; what it adds to the dependencies serves it. -/
theorem Resolved.read {t' : Loader} {list' : List ObjId} (new : List ObjId)
    (hlt : ∀ id ∈ t.storage.initList, id < t.heap.length)
    (hinit : t'.storage.initList = t.storage.initList) (hg : Loader.Grows t t')
    (hother : ∀ id' ≠ id, id' < t.heap.length →
      (t'.obj id').dependencies = (t.obj id').dependencies)
    (hself : (t'.obj id).dependencies = (t.obj id).dependencies ++ new)
    (hnew : List.Forall₂ (t'.Serves env) ([name].filter (· ∉ loaderNames)) new) :
    Resolved env ⟨t', list', some (id, names)⟩ := by
  intro id' hid'
  rw [hinit] at hid'
  obtain ⟨read, hneeded, hserves⟩ := hr id' hid'
  have hserves := hserves.imp fun _ _ h => h.mono hg
  have hfile := (hg.file id' (hlt id' hid')).needed
  by_cases hid : id' = id
  · -- one entry more is read, and its object comes after those of before
    subst hid
    refine ⟨read ++ [name], ?_, ?_⟩
    · rw [hfile, hneeded]
      simp [Loading.unread]
    · rw [hself, filter_append]
      exact rel_append hserves hnew
  · refine ⟨read, ?_, ?_⟩
    · rw [hfile, hneeded]
      simp [Loading.unread, Ne.symm hid]
    · rw [hother id' hid (hlt id' hid')]
      exact hserves

section

variable (hk : Known s start ⟨t, list, some (id, name :: names)⟩)
include hk

theorem Resolved.found {added : ObjId} (hname : name ∉ loaderNames)
    (hfound : t.findLoaded name = some added) :
    Resolved env ⟨t.addDependency id added, list, some (id, names)⟩ := by
  have hlt : ∀ id ∈ t.storage.initList, id < t.heap.length := fun _ h => hk.lt_length h
  have hg := t.grows_addDependency id added
  refine hr.read [added] hlt rfl hg (fun id' hid' _ => ?_) ?_ ?_
  · rw [Loader.addDependency, Loader.obj_modify_of_ne t hid']
  · rw [Loader.addDependency, Loader.obj_modify_self t (hlt id (hk.reading_mem rfl))]
  · have hserves : t.Serves env name added := by
      refine .loaded (hk.objects added (mem_of_findLoaded hfound)) ?_
      simp only [Loader.findLoaded] at hfound
      split_ifs at hfound ⊢ with hslash
      all_goals simpa using List.find?_some hfound
    simpa [hname] using hserves.mono hg

theorem Resolved.load {o : SharedObject} (hname : name ∉ loaderNames)
    (hload : env.load t.heap.length (t.obj id) name = some (.ok o)) (global : Bool) :
    Resolved env ⟨t.addNeeded id o global, t.heap.length :: list, some (id, names)⟩ := by
  have hlt : ∀ id ∈ t.storage.initList, id < t.heap.length := fun _ h => hk.lt_length h
  have hid : id < t.heap.length := hlt id (hk.reading_mem rfl)
  have hadd := t.grows_addNeeded id o global
  have hinit := t.initList_addNeeded id o global
  have hlast : t.heap.length < (t.create o).heap.length := by simp
  refine hr.read [t.heap.length] hlt hinit ((t.grows_create o).trans hadd)
    (fun id' hid' hlt' => ?_) ?_ ?_
  · rw [Loader.obj_addNeeded, Loader.addDependency, Loader.obj_modify_of_ne _ hid',
      Loader.obj_create_of_ne t (Nat.ne_of_lt hlt')]
  · rw [Loader.obj_addNeeded, Loader.addDependency,
      Loader.obj_modify_self _ (Nat.lt_trans hid hlast),
      Loader.obj_create_of_ne t (Nat.ne_of_lt hid)]
  · have hserves : (t.addNeeded id o global).Serves env name t.heap.length := by
      refine .opened (Nat.lt_of_lt_of_le hlast hadd.length) hload ?_
      simpa using hadd.file t.heap.length hlast
    simpa [hname] using hserves

end

end

theorem Resolved.step {c c' : Loading} (hr : Resolved env c) (ht : Traversed s start c)
    (h : Round env global initial c c') : Resolved env c' := by
  cases h with
  | take h => exact hr.take ht (Loader.setsTls_of_assignTls h)
  | done =>
    intro id' hid'
    simpa [Loading.unread] using hr id' hid'
  | @skip t list id name names h =>
    refine hr.read [] (fun _ hmem => ht.known.lt_length hmem) rfl (.refl t) (fun _ _ _ => rfl)
      (by simp) ?_
    simp [h]
  | found hname hfound => exact hr.found ht.known hname hfound
  | load hname _ hload => exact hr.load ht.known hname hload global

/-- The objects `isNew` have the dependencies their DT_NEEDED entries ask for. -/
def DependenciesNeeded (env : Env) (isNew : ObjId → Prop) (s : Loader) : Prop :=
  ∀ id, isNew id → List.Forall₂ (s.Serves env) ((s.obj id).needed.filter (· ∉ loaderNames))
    (s.obj id).dependencies

theorem dependenciesNeeded_of_run {fuel : ℕ} (hs : Ready s start)
    (hrun : Loop.run (round env global initial) fuel (s.enter start global) = some (.success t)) :
    DependenciesNeeded env (· ∈ t.storage.initList) t := by
  have hstep : ∀ c c', Traversed s start c ∧ Resolved env c →
      round env global initial c = .inl c' → Traversed s start c' ∧ Resolved env c' :=
    fun c c' h hc => ⟨h.1.step hc, h.2.step h.1 (round_inl hc)⟩
  have henter : Resolved env (s.enter start global) := by
    intro id hid
    rw [initList_enter, hs.initList] at hid
    cases hid
  obtain ⟨last, ⟨-, hr⟩, hend⟩ := Loop.run_invariant hstep ⟨traversed_enter hs global, henter⟩ hrun
  rw [eq_of_round_success hend] at hr
  intro id hid
  obtain ⟨read, hneeded, hserves⟩ := hr id hid
  have hall : (t.obj id).needed = read := by simpa [Loading.unread] using hneeded
  exact hall ▸ hserves

end Hzlibc.Rtld
