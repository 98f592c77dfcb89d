import Hzlibc.Rtld.Constructors
import Hzlibc.Rtld.Rollback

/-!
The loader, as far as thread-local data goes.

`TlsState` keeps the list of objects, what each of them has in the way of thread-local
data, the load list and the three variables that offsets and module indices are taken
from. `TlsStep` is what a round of `load_dependencies` can do to it: nothing, build an
object, or take one, which may have no thread-local data, get a place in the static area or
only a module index. `tlsStep_of_round` says that a round is such a step, and results
about layouts and indices are read off the steps.
-/

namespace Hzlibc.Rtld

open List Function

/-- The thread-local data of an object. -/
structure TlsView where
  size : Addr
  align : Addr
  offset : Addr
  index : ℕ
  /-- `initial_tls_model`. -/
  model : Bool
  /-- `rtld_loaded`. -/
  loaded : Bool

def SharedObject.tls (o : SharedObject) : TlsView where
  size := o.tlsSize
  align := o.tlsAlign
  offset := o.tlsOffset
  index := o.tlsModuleIndex
  model := o.initialTlsModel
  loaded := o.rtldLoaded

@[ext]
structure TlsState where
  /-- The number of objects built so far. -/
  built : ℕ
  objects : List ObjId
  pending : List ObjId
  view : ObjId → TlsView
  initialSize : Addr
  reserve : Addr
  map : List ObjId

def Loader.tlsState (s : Loader) (pending : List ObjId) : TlsState where
  built := s.heap.length
  objects := s.storage.objects
  pending
  view id := (s.obj id).tls
  initialSize := s.storage.initialTlsSize
  reserve := s.storage.totalInitialTlsSize
  map := s.storage.runtimeTlsMap

def Loading.tlsState (c : Loading) : TlsState := c.loader.tlsState c.loadList

namespace TlsView

variable (v : TlsView)

/-- The object is taken from the load list. -/
def taken (initial : Bool) : TlsView := { v with model := v.model || initial }

/-- The object gets a place in the static area. -/
def Static : Prop := v.model = true ∧ v.loaded = true

/-- The new end of the static area. -/
def endAfter (total : Addr) : Addr := (total + v.size + v.align - 1) &&& ~~~(v.align - 1)

/-- An object as it comes from its file. -/
structure Fresh : Prop where
  offset : v.offset = 0
  index : v.index = 0
  loaded : v.loaded = true

end TlsView

/-- What a `dlopen` that fails leaves of the state before it. -/
structure TlsState.Kept (a a' : TlsState) : Prop where
  built : a.built ≤ a'.built
  objects : a'.objects = a.objects
  pending : a'.pending = a.pending
  view : ∀ id < a.built, a'.view id = a.view id
  initialSize : a'.initialSize = a.initialSize
  reserve : a'.reserve = a.reserve

theorem TlsState.Kept.refl (a : TlsState) : a.Kept a :=
  ⟨Nat.le_refl _, rfl, rfl, fun _ _ => rfl, rfl, rfl⟩

theorem SharedObject.FromFile.tls {o : SharedObject} (h : o.FromFile) : o.tls.Fresh := by
  obtain ⟨_, _, _, _, _, _, _, rfl⟩ := h
  exact ⟨rfl, rfl, rfl⟩

namespace TlsState

variable (a : TlsState)

def add (v : TlsView) : TlsState :=
  { a with
    built := a.built + 1
    objects := a.objects ++ [a.built]
    pending := a.built :: a.pending
    view := Function.update a.view a.built v }

def set (id : ObjId) (v : TlsView) : TlsState := { a with view := Function.update a.view id v }

/-- The object at the front of the load list is taken and left as `v`. -/
def takeAs (id : ObjId) (v : TlsView) : TlsState := { a.set id v with pending := a.pending.tail }

@[simp] theorem set_set (id : ObjId) (v v' : TlsView) : (a.set id v).set id v' = a.set id v' := by
  simp [set]

@[simp] theorem view_set_self (id : ObjId) (v : TlsView) : (a.set id v).view id = v :=
  update_self ..

@[simp] theorem set_view (id : ObjId) : a.set id (a.view id) = a := by
  simp [set]

@[simp] theorem view_add_self (v : TlsView) : (a.add v).view a.built = v :=
  update_self ..

@[simp] theorem view_add_of_ne {id : ObjId} (h : id ≠ a.built) (v : TlsView) :
    (a.add v).view id = a.view id :=
  update_of_ne h ..

@[simp] theorem view_set_of_ne {id id' : ObjId} (h : id' ≠ id) (v : TlsView) :
    (a.set id v).view id' = a.view id' :=
  update_of_ne h ..

/-- A part of the objects that stays as it is. -/
theorem proj_set {β : Type} (p : TlsView → β) {id : ObjId} {v : TlsView}
    (h : p v = p (a.view id)) (id' : ObjId) : p ((a.set id v).view id') = p (a.view id') := by
  by_cases hid : id' = id
  · rw [hid, view_set_self, h]
  · rw [a.view_set_of_ne hid]

end TlsState

/-- The steps, labelled with the object that is taken, if one is. -/
inductive TlsStep (initial : Bool) : Option ObjId → TlsState → TlsState → Prop
  | idle {a : TlsState} : TlsStep initial none a a
  | add {a : TlsState} {v : TlsView} (hv : v.Fresh) : TlsStep initial none a (a.add v)
  | plain {a : TlsState} {id : ObjId} (hid : a.pending.head? = some id)
      (hsize : (a.view id).size = 0) :
      TlsStep initial (some id) a (a.takeAs id ((a.view id).taken initial))
  | static {a : TlsState} {id : ObjId} (hid : a.pending.head? = some id)
      (hsize : (a.view id).size ≠ 0) (hstatic : ((a.view id).taken initial).Static)
      (hroom : a.reserve = 0 ∨ (a.view id).endAfter a.initialSize ≤ a.reserve) :
      TlsStep initial (some id) a
        { a.takeAs id { (a.view id).taken initial with
            offset := (a.view id).endAfter a.initialSize, index := a.map.length } with
          initialSize := (a.view id).endAfter a.initialSize
          map := a.map ++ [id] }
  | dynamic {a : TlsState} {id : ObjId} (hid : a.pending.head? = some id)
      (hsize : (a.view id).size ≠ 0) (hdynamic : ¬((a.view id).taken initial).Static) :
      TlsStep initial (some id) a
        { a.takeAs id { (a.view id).taken initial with index := a.map.length } with
          map := a.map ++ [id] }

/-- The object that the next round takes, if it takes one. -/
def Loading.taking (c : Loading) : Option ObjId :=
  match c.reading with
  | none => c.loadList.head?
  | some _ => none

/-! ### A round is a step -/

namespace Loader

variable {s s' : Loader} {id : ObjId} (rest : List ObjId)

theorem tlsState_modify (hid : id < s.heap.length) (f : SharedObject → SharedObject) :
    (s.modify id f).tlsState rest = (s.tlsState rest).set id (f (s.obj id)).tls := by
  refine TlsState.ext (length_modify ..) rfl rfl (funext fun id' => ?_) rfl rfl rfl
  by_cases h : id' = id
  · subst h
    rw [TlsState.view_set_self]
    exact congrArg SharedObject.tls (obj_modify_self s hid f)
  · rw [TlsState.view_set_of_ne _ h]
    exact congrArg SharedObject.tls (obj_modify_of_ne s h f)

/-- An object is changed, but not in its thread-local data. -/
theorem tlsState_modify_of_eq {f : SharedObject → SharedObject} (hf : ∀ o, (f o).tls = o.tls)
    (id : ObjId) : (s.modify id f).tlsState rest = s.tlsState rest :=
  TlsState.ext (length_modify ..) rfl rfl
    (funext fun id' => s.proj_modify SharedObject.tls hf id id') rfl rfl rfl

theorem tlsState_addDependency (id dep : ObjId) :
    (s.addDependency id dep).tlsState rest = s.tlsState rest := by
  refine tlsState_modify_of_eq rest ?_ id
  intro o
  rfl

theorem tlsState_create (o : SharedObject) :
    ((s.create o).addObject s.heap.length).tlsState (s.heap.length :: rest)
      = (s.tlsState rest).add o.tls := by
  refine TlsState.ext (length_append ..) rfl rfl (funext fun id' => ?_) rfl rfl rfl
  by_cases h : id' = s.heap.length
  · subst h
    rw [show s.heap.length = (s.tlsState rest).built from rfl, TlsState.view_add_self]
    exact congrArg SharedObject.tls (obj_create_self s o)
  · rw [TlsState.view_add_of_ne _ h]
    exact congrArg SharedObject.tls (obj_create_of_ne s h)

theorem tlsState_addNeeded (id : ObjId) (o : SharedObject) (global : Bool) :
    (s.addNeeded id o global).tlsState (s.heap.length :: rest)
      = (s.tlsState rest).add o.tls := by
  have hadd := tlsState_addDependency (s := (s.create o).addObject s.heap.length)
  rw [← tlsState_create, ← hadd]
  cases global <;> rfl

theorem static_iff (o : SharedObject) : o.tls.Static ↔ (o.initialTlsModel && o.rtldLoaded) = true :=
  Bool.and_eq_true_iff.symm

section

variable (hid : id < s.heap.length)
include hid

theorem tlsState_take (initial : Bool) :
    (s.take id initial).tlsState rest
      = (s.tlsState rest).set id ((s.obj id).tls.taken initial) := by
  cases initial with
  | false =>
    have hsame : (s.obj id).tls.taken false = (s.tlsState rest).view id := by
      simp [TlsView.taken, tlsState]
    rw [hsame, TlsState.set_view]
    rfl
  | true =>
    have hsame : (s.obj id).tls.taken true
        = ({ s.obj id with initialTlsModel := true } : SharedObject).tls := by
      simp [TlsView.taken, SharedObject.tls]
    rw [hsame]
    exact tlsState_modify rest (s := s.pushInit id) hid _

theorem tlsState_mapTls :
    (s.mapTls id).tlsState rest
      = { (s.tlsState rest).set id
            { (s.obj id).tls with index := s.storage.runtimeTlsMap.length } with
          map := s.storage.runtimeTlsMap ++ [id] } :=
  congrArg (fun a : TlsState => { a with map := s.storage.runtimeTlsMap ++ [id] })
    (tlsState_modify rest hid _)

theorem tlsState_growInitialTls (offset : Addr) :
    (s.growInitialTls id offset).tlsState rest
      = { (s.tlsState rest).set id { (s.obj id).tls with offset } with
          initialSize := offset } :=
  congrArg (fun a : TlsState => { a with initialSize := offset }) (tlsState_modify rest hid _)

theorem tls_take (initial : Bool) :
    ((s.take id initial).obj id).tls = (s.obj id).tls.taken initial :=
  (congrArg (·.view id) (tlsState_take [] hid initial)).trans (TlsState.view_set_self ..)

theorem tlsState_growInitialTls_mapTls (offset : Addr) :
    ((s.growInitialTls id offset).mapTls id).tlsState rest
      = { (s.tlsState rest).set id
            { (s.obj id).tls with offset, index := s.storage.runtimeTlsMap.length } with
          initialSize := offset
          map := s.storage.runtimeTlsMap ++ [id] } := by
  have hgrow := tlsState_growInitialTls rest hid offset
  have hlen : id < (s.growInitialTls id offset).heap.length := by
    simpa [growInitialTls] using hid
  have htls : ((s.growInitialTls id offset).obj id).tls = { (s.obj id).tls with offset } :=
    (congrArg (·.view id) hgrow).trans (TlsState.view_set_self ..)
  rw [tlsState_mapTls rest hlen, htls, hgrow]
  refine TlsState.ext rfl rfl rfl ?_ rfl rfl rfl
  exact update_idem ..

/-- Taking an object, with the three ways its thread-local data can be treated. -/
theorem tlsStep_take {initial : Bool} (h : (s.take id initial).assignTls id = some s') :
    TlsStep initial (some id) (s.tlsState (id :: rest)) (s'.tlsState rest) := by
  have hlen : id < (s.take id initial).heap.length := by
    cases initial
    · exact hid
    · simpa [take, pushInit] using hid
  have htake := tlsState_take rest hid initial
  have htls := tls_take hid initial
  have hstorage : (s.take id initial).storage
      = { s.storage with initList := s.storage.initList ++ [id] } := by
    cases initial <;> rfl
  have hsize : ((s.take id initial).obj id).tlsSize = (s.obj id).tlsSize :=
    congrArg TlsView.size htls
  have hstatic := static_iff ((s.take id initial).obj id)
  rw [htls] at hstatic
  simp only [assignTls, hsize] at h
  split_ifs at h with hzero hmodel hroom
  · cases h
    rw [htake]
    exact .plain (a := s.tlsState (id :: rest)) rfl hzero
  · cases h
    have hend : (s.take id initial).tlsEnd ((s.take id initial).obj id)
        = (s.obj id).tls.endAfter s.storage.initialTlsSize := by
      change ((s.take id initial).obj id).tls.endAfter _ = _
      rw [htls, hstorage]
      rfl
    rw [hend, not_and_or, not_not, BitVec.not_lt, hstorage] at hroom
    rw [hend, tlsState_growInitialTls_mapTls rest hlen, htake, htls, hstorage, TlsState.set_set]
    exact .static (a := s.tlsState (id :: rest)) rfl hzero (hstatic.mpr hmodel) hroom
  · cases h
    rw [tlsState_mapTls rest hlen, htake, htls, hstorage, TlsState.set_set]
    exact .dynamic (a := s.tlsState (id :: rest)) rfl hzero (hstatic.not.mpr hmodel)

end

end Loader

theorem tlsStep_of_round {env : Env} {global initial : Bool} {c c' : Loading}
    (hpending : ∀ id ∈ c.loadList, id < c.loader.heap.length) (h : Round env global initial c c') :
    TlsStep initial c.taking c.tlsState c'.tlsState := by
  cases h with
  | take h => exact Loader.tlsStep_take _ (hpending _ (mem_cons_self ..)) h
  | done | skip h => exact .idle
  | @found s list id added name names h hfound =>
    rw [Loading.tlsState, Loading.tlsState, Loader.tlsState_addDependency]
    exact .idle
  | @load s list id name names o h hnot hload =>
    rw [Loading.tlsState, Loading.tlsState, Loader.tlsState_addNeeded]
    exact .add (Env.fromFile_load hload).tls

/-! ### Traversals -/

/-- The lists hold objects that have been built, each once. -/
structure TlsState.WellFormed (a : TlsState) : Prop where
  nodup_objects : a.objects.Nodup
  nodup_pending : a.pending.Nodup
  pending_mem : ∀ id ∈ a.pending, id ∈ a.objects
  lt_built : ∀ id ∈ a.objects, id < a.built

theorem TlsState.mem_tail_pending {a : TlsState} {id i : ObjId}
    (hid : a.pending.head? = some id) (hi : i ∈ a.pending) (hne : i ≠ id) : i ∈ a.pending.tail := by
  obtain ⟨rest, hrest⟩ := List.head?_eq_some_iff.mp hid
  rw [hrest] at hi ⊢
  exact (mem_cons.mp hi).resolve_left hne

namespace TlsState.WellFormed

variable {a a' : TlsState}

section

variable (h : a.WellFormed)
include h

theorem ne_of_mem_tail {id i : ObjId} (hid : a.pending.head? = some id)
    (hi : i ∈ a.pending.tail) : i ≠ id := by
  obtain ⟨rest, hrest⟩ := List.head?_eq_some_iff.mp hid
  have hnodup := h.nodup_pending
  rw [hrest] at hi hnodup
  exact fun heq => (nodup_cons.mp hnodup).1 (heq ▸ hi)

theorem pending_lt {id : ObjId} (hid : id ∈ a.pending) : id < a.built :=
  h.lt_built id (h.pending_mem id hid)

theorem built_notMem : a.built ∉ a.objects :=
  fun hid => Nat.lt_irrefl _ (h.lt_built _ hid)

theorem add (v : TlsView) : (a.add v).WellFormed where
  nodup_objects := nodup_append.mpr
    ⟨h.nodup_objects, nodup_singleton _, fun id hid id' hid' heq =>
      h.built_notMem (mem_singleton.mp hid' ▸ heq ▸ hid)⟩
  nodup_pending := nodup_cons.mpr
    ⟨fun hid => h.built_notMem (h.pending_mem _ hid), h.nodup_pending⟩
  pending_mem id hid := by
    rcases mem_cons.mp hid with rfl | hid
    · exact mem_append_right _ (mem_singleton_self _)
    · exact mem_append_left _ (h.pending_mem id hid)
  lt_built id hid := by
    rcases mem_append.mp hid with hid | hid
    · exact Nat.lt_succ_of_lt (h.lt_built id hid)
    · rw [mem_singleton.mp hid]
      exact Nat.lt_succ_self _

theorem withReserve (reserve : Addr) : WellFormed { a with reserve } :=
  ⟨h.nodup_objects, h.nodup_pending, h.pending_mem, h.lt_built⟩

theorem taken (hobjects : a'.objects = a.objects)
    (hpending : a'.pending = a.pending.tail) (hbuilt : a'.built = a.built) : a'.WellFormed where
  nodup_objects := hobjects ▸ h.nodup_objects
  nodup_pending := hpending ▸ h.nodup_pending.tail
  pending_mem id hid := hobjects ▸ h.pending_mem id (mem_of_mem_tail (hpending ▸ hid))
  lt_built id hid := hbuilt ▸ h.lt_built id (hobjects ▸ hid)

end

end TlsState.WellFormed

theorem TlsStep.wellFormed {initial : Bool} {l : Option ObjId} {a a' : TlsState}
    (h : TlsStep initial l a a') (ha : a.WellFormed) : a'.WellFormed := by
  cases h with
  | idle => exact ha
  | add => exact ha.add _
  | plain | static | dynamic => exact ha.taken rfl rfl rfl

theorem TlsState.Kept.wellFormed {a a' : TlsState} (h : a.Kept a') (ha : a.WellFormed) :
    a'.WellFormed where
  nodup_objects := h.objects ▸ ha.nodup_objects
  nodup_pending := h.pending ▸ ha.nodup_pending
  pending_mem id hid := h.objects ▸ ha.pending_mem id (h.pending ▸ hid)
  lt_built id hid := Nat.lt_of_lt_of_le (ha.lt_built id (h.objects ▸ hid)) h.built

theorem TlsStep.reserve_eq {initial : Bool} {l : Option ObjId} {a a' : TlsState}
    (h : TlsStep initial l a a') : a'.reserve = a.reserve := by
  cases h <;> rfl

section Traversal

variable {env : Env} {global initial : Bool} {fuel : ℕ} {c : Loading}
  {P : Option ObjId → TlsState → Prop} {I : TlsState → Prop}
  (hstep : ∀ l a a', a.WellFormed → I a → P l a → TlsStep initial l a a' → I a')
  (hwf : c.tlsState.WellFormed) (hI : I c.tlsState)
  (hP : Loop.Along (round env global initial) (fun c => P c.taking c.tlsState) fuel c)

include hstep hwf hI hP

/-- What the steps keep, as long as they meet `P`, holds when the loop leaves. -/
theorem Loading.tls_along {r : Loaded}
    (hrun : Loop.run (round env global initial) fuel c = some r) :
    ∃ last : Loading, last.tlsState.WellFormed ∧ I last.tlsState ∧ Leaves env initial last r := by
  have hbody : ∀ c c' : Loading, (c.tlsState.WellFormed ∧ I c.tlsState) →
      P c.taking c.tlsState → round env global initial c = .inl c' →
      c'.tlsState.WellFormed ∧ I c'.tlsState := by
    rintro c c' ⟨hwf, hI⟩ hP hc
    have h := tlsStep_of_round (fun _ => hwf.pending_lt) (round_inl hc)
    exact ⟨h.wellFormed hwf, hstep _ _ _ hwf hI hP h⟩
  obtain ⟨last, ⟨hwf, hlast⟩, -, h⟩ := hP.invariant hbody ⟨hwf, hI⟩ hrun
  exact ⟨last, hwf, hlast, round_inr h⟩

theorem Loading.tls_success {t : Loader}
    (hrun : Loop.run (round env global initial) fuel c = some (.success t)) :
    (t.tlsState []).WellFormed ∧ I (t.tlsState []) := by
  obtain ⟨last, hwf, hlast, hleaves⟩ := Loading.tls_along hstep hwf hI hP hrun
  cases hleaves
  exact ⟨hwf, hlast⟩

end Traversal

/-! ### The callers -/

namespace Loader

variable {s s' : Loader} (rest : List ObjId)

theorem tlsState_enter (start : ObjId) (global : Bool) :
    (s.enter start global).tlsState = s.tlsState [start] := by
  cases global <;> rfl

theorem tlsState_enter_addRoot (o : SharedObject) (global : Bool) :
    ((s.addRoot o).enter s.heap.length global).tlsState = (s.tlsState []).add o.tls := by
  rw [tlsState_enter]
  exact tlsState_create [] o

theorem tlsState_construct (id : ObjId) : (s.construct id).tlsState rest = s.tlsState rest := by
  unfold construct
  split
  · rfl
  · refine tlsState_modify_of_eq (s := s) rest ?_ id
    intro o
    rfl

theorem tlsState_foldl_construct (ids : List ObjId) :
    (ids.foldl construct s).tlsState rest = s.tlsState rest := by
  induction ids generalizing s with
  | nil => rfl
  | cons id ids ih => exact ih.trans (tlsState_construct rest id)

theorem tlsState_finishOpen (origin root : ObjId) (global : Bool) :
    (s.finishOpen origin root global).tlsState rest = s.tlsState rest := by
  refine (tlsState_foldl_construct rest _).trans ?_
  cases global with
  | true => rfl
  | false =>
    refine tlsState_modify_of_eq rest ?_ origin
    intro o
    rfl

/-- The end of the start fixes the space for objects that come later. -/
theorem tlsState_finishStart (h : s.finishStart = some s') :
    s'.tlsState rest
      = { s.tlsState rest with reserve := s.storage.initialTlsSize + 4096 } := by
  obtain ⟨m, hm, h⟩ := Option.bind_eq_some_iff.mp h
  obtain ⟨u, rfl⟩ := relocate_changes hm
  obtain ⟨m, hm, h⟩ := Option.bind_eq_some_iff.mp h
  obtain ⟨u', rfl⟩ := lateRelocate_changes hm
  cases h
  exact tlsState_foldl_construct rest _

end Loader

theorem wellFormed_initial (exe libc : Image) :
    ((Loader.initial exe libc).tlsState [0]).WellFormed where
  nodup_objects := show [0, 1].Nodup by decide
  nodup_pending := nodup_singleton _
  pending_mem := show ∀ id ∈ [0], id ∈ [0, 1] by decide
  lt_built := show ∀ id ∈ [0, 1], id < 2 by decide

/-- The start, in terms of thread-local data. -/
theorem startup_tls {env : Env} {fuel : ℕ} {exe libc : Image} {s' : Loader}
    (h : startup env fuel exe libc = some (.success s')) :
    ∃ t, Loop.run (round env true true) fuel ((Loader.initial exe libc).enter 0 true) =
        some (.success t) ∧
      s'.tlsState [] = { t.tlsState [] with reserve := t.storage.initialTlsSize + 4096 } := by
  obtain ⟨t, u, hrun, hfinish⟩ := startup_run h
  exact ⟨t, hrun, Loader.tlsState_finishStart (s := t.withUnique u) [] hfinish⟩

/-- A `dlopen` that returns a handle. -/
theorem dlapiOpen_tls {env : Env} {fuel : ℕ} {filename : Option Name} {flags : OpenFlags}
    {returnAddr : Addr} {s s' : Loader} {id : ObjId}
    (h : dlapiOpen env fuel filename flags returnAddr s = some (.handle id s')) :
    s' = s ∨ ∃ (o : SharedObject) (t : Loader) (c : Loading), o.tls.Fresh ∧
      openTraversal env filename flags returnAddr s = some c ∧
      c.tlsState = (s.tlsState []).add o.tls ∧
      Loop.run (round env flags.global false) fuel c = some (.success t) ∧
      s'.tlsState [] = t.tlsState [] := by
  rcases dlapiOpen_run h with ⟨rfl, -⟩ | ⟨origin, o, t, u, ho, hopen, hrun, rfl⟩
  · exact .inl rfl
  · exact .inr ⟨o, t, _, ho.tls, hopen, Loader.tlsState_enter_addRoot .., hrun,
      Loader.tlsState_finishOpen [] ..⟩

/-- The clean-up of a traversal that fails. -/
theorem Progress.tlsState_popObject {s t : Loader} {global : Bool} {list : List ObjId}
    {read : ObjId × List Name} (o : SharedObject) (hp : Progress s global ⟨t, list, some read⟩) :
    (t.rollback s.heap.length global (s.addRoot o).storage.objects.length
      (s.addRoot o).storage.initialTlsSize).popObject.tlsState []
      = { t.tlsState [] with
          objects := s.storage.objects, initialSize := s.storage.initialTlsSize } := by
  obtain ⟨taken, mapped, hst, -⟩ := (hp.leftover o).storage
  refine TlsState.ext rfl ?_ rfl rfl rfl rfl rfl
  have hobjects := congrArg ObjectStorage.objects hst
  exact hobjects

theorem Progress.kept {s t : Loader} {global : Bool} {list : List ObjId}
    {read : ObjId × List Name} (hp : Progress s global ⟨t, list, some read⟩) :
    (s.tlsState []).Kept { t.tlsState [] with
      objects := s.storage.objects, initialSize := s.storage.initialTlsSize } where
  built := Nat.le_of_lt hp.length
  objects := rfl
  pending := rfl
  view id hid := congrArg SharedObject.tls (hp.old id hid)
  initialSize := rfl
  reserve := by
    obtain ⟨new, taken, size, mapped, hst, -⟩ := hp.storage
    have hreserve := congrArg ObjectStorage.totalInitialTlsSize hst
    exact hreserve

theorem dlapiOpen_kept {env : Env} {fuel : ℕ} {filename : Option Name} {flags : OpenFlags}
    {returnAddr : Addr} {s s' : Loader} {e : OpenError}
    (h : dlapiOpen env fuel filename flags returnAddr s = some (.null e s')) :
    (s.tlsState []).Kept (s'.tlsState []) := by
  rcases dlapiOpen_null_run h with ⟨-, rfl⟩ | ⟨-, o, err, t, -, hrun, rfl⟩
  · exact .refl _
  · obtain ⟨list, read, ht⟩ := progress_of_run hrun
    rw [ht.tlsState_popObject o]
    exact ht.kept

end Hzlibc.Rtld
