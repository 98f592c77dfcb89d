import Hzlibc.Rtld.TlsState

/-!
Module indices.

An object with thread-local data gets its module index when it is taken from the load
list: its position in the runtime TLS map. The map only grows, so the indices stay what
they are (`Since`), and an index leads back to its object (`Indexed`). The libc is the
exception. It is never on the load list, so it is not in the map and its index stays 0,
which is also the index of the first object in the map.
-/

namespace Hzlibc.Rtld

open List

variable {id : ObjId} {v : TlsView}

namespace TlsState

variable {a a' c c' : TlsState} {initial : Bool} {l : Option ObjId}

/-! ### What a traversal leaves alone -/

/-- `c` is a later state than `a`, from which a traversal was begun. -/
structure Since (a c : TlsState) : Prop where
  built : a.built ≤ c.built
  view : ∀ id < a.built, c.view id = a.view id
  pending : ∀ id ∈ c.pending, a.built ≤ id
  objects : ∃ new, c.objects = a.objects ++ new ∧ ∀ id ∈ new, a.built ≤ id
  map : ∃ new, c.map = a.map ++ new

theorem Since.refl (h : a.pending = []) : Since a a where
  built := Nat.le_refl _
  view _ _ := rfl
  pending id hid := by
    rw [h] at hid
    cases hid
  objects := ⟨[], by simp⟩
  map := ⟨[], by simp⟩

section

variable (h : Since a c)
include h

theorem Since.add (v : TlsView) : Since a (c.add v) where
  built := Nat.le_succ_of_le h.built
  view id hid := by
    rw [c.view_add_of_ne (Nat.ne_of_lt (Nat.lt_of_lt_of_le hid h.built))]
    exact h.view id hid
  pending id hid := by
    rcases mem_cons.mp hid with rfl | hid
    · exact h.built
    · exact h.pending id hid
  objects := by
    obtain ⟨new, hobjects, hnew⟩ := h.objects
    refine ⟨new ++ [c.built], ?_, fun id hid => ?_⟩
    · rw [← append_assoc, ← hobjects]
      rfl
    · rcases mem_append.mp hid with hid | hid
      · exact hnew id hid
      · exact mem_singleton.mp hid ▸ h.built
  map := h.map

theorem Since.takeAs (hid : c.pending.head? = some id) (v : TlsView)
    (initialSize : Addr) {map mapped : List ObjId} (hmap : map = c.map ++ mapped) :
    Since a { c.takeAs id v with initialSize, map } where
  built := h.built
  view i hi := by
    have hle := h.pending id (mem_of_mem_head? hid)
    have hne : i ≠ id := Nat.ne_of_lt (Nat.lt_of_lt_of_le hi hle)
    exact (c.view_set_of_ne hne v).trans (h.view i hi)
  pending i hi := h.pending i (mem_of_mem_tail hi)
  objects := h.objects
  map := by
    obtain ⟨new, hnew⟩ := h.map
    exact ⟨new ++ mapped, by rw [hmap, ← append_assoc, ← hnew]⟩

theorem Since.step (hstep : TlsStep initial l c c') : Since a c' := by
  cases hstep with
  | idle => exact h
  | add => exact h.add _
  | plain hid => exact h.takeAs hid _ c.initialSize (append_nil c.map).symm
  | static hid => exact h.takeAs hid _ _ rfl
  | dynamic hid => exact h.takeAs hid _ c.initialSize rfl

theorem Since.objects_sub (hid : id ∈ a.objects) : id ∈ c.objects := by
  obtain ⟨new, hobjects, -⟩ := h.objects
  exact hobjects ▸ mem_append_left _ hid

theorem Since.old_or_new (hid : id ∈ c.objects) : id ∈ a.objects ∨ a.built ≤ id := by
  obtain ⟨new, hobjects, hnew⟩ := h.objects
  rw [hobjects] at hid
  exact (mem_append.mp hid).imp_right (hnew id)

theorem Since.getElem?_map {k : ℕ} (hk : k < a.map.length) : c.map[k]? = a.map[k]? := by
  obtain ⟨new, hmap⟩ := h.map
  rw [hmap, List.getElem?_append_left hk]

theorem Since.length_map_le : a.map.length ≤ c.map.length := by
  obtain ⟨new, hmap⟩ := h.map
  rw [hmap, length_append]
  exact Nat.le_add_right ..

/-! ### Indices -/

end

/-- The index of an object other than the libc leads back to it. -/
structure Indexed (a : TlsState) : Prop where
  libc_mem : 1 ∈ a.objects
  libc_index : (a.view 1).index = 0
  libc_pending : 1 ∉ a.pending
  libc_map : 1 ∉ a.map
  nodup_map : a.map.Nodup
  map_lt : ∀ id ∈ a.map, id < a.built
  waiting : ∀ id ∈ a.pending, id ∉ a.map
  size_ne : ∀ id ∈ a.map, (a.view id).size ≠ 0
  slot : ∀ id ∈ a.objects, id ≠ 1 → (a.view id).size ≠ 0 →
    id ∈ a.pending ∨ a.map[(a.view id).index]? = some id

theorem Indexed.add (h : a.Indexed) (hwf : a.WellFormed) (v : TlsView) : (a.add v).Indexed := by
  have hold : ∀ id < a.built, (a.add v).view id = a.view id := fun id hid =>
    a.view_add_of_ne (Nat.ne_of_lt hid) v
  have hlibc : 1 < a.built := hwf.lt_built 1 h.libc_mem
  exact
    { libc_mem := mem_append_left _ h.libc_mem
      libc_index := by
        rw [hold 1 hlibc]
        exact h.libc_index
      libc_pending := fun hmem => by
        rcases mem_cons.mp hmem with heq | hmem
        · exact absurd heq (Nat.ne_of_lt hlibc)
        · exact h.libc_pending hmem
      libc_map := h.libc_map
      nodup_map := h.nodup_map
      map_lt := fun id hid => Nat.lt_succ_of_lt (h.map_lt id hid)
      waiting := fun id hid hmap => by
        rcases mem_cons.mp hid with rfl | hid
        · exact Nat.lt_irrefl _ (h.map_lt _ hmap)
        · exact h.waiting id hid hmap
      size_ne := fun id hid => by
        rw [hold id (h.map_lt id hid)]
        exact h.size_ne id hid
      slot := fun id hid hne hsize => by
        rcases mem_append.mp hid with hid | hid
        · rw [hold id (hwf.lt_built id hid)] at hsize ⊢
          exact (h.slot id hid hne hsize).imp_left (mem_cons_of_mem _)
        · exact .inl (mem_cons.mpr (.inl (mem_singleton.mp hid))) }

theorem Indexed.set (h : a.Indexed) (hsize : v.size = (a.view id).size)
    (hindex : v.index = (a.view id).index) : (a.set id v).Indexed where
  libc_mem := h.libc_mem
  libc_index := (a.proj_set TlsView.index hindex 1).trans h.libc_index
  libc_pending := h.libc_pending
  libc_map := h.libc_map
  nodup_map := h.nodup_map
  map_lt := h.map_lt
  waiting := h.waiting
  size_ne i hi := by
    rw [a.proj_set TlsView.size hsize i]
    exact h.size_ne i hi
  slot i hi hne := by
    rw [a.proj_set TlsView.size hsize i, a.proj_set TlsView.index hindex i]
    exact h.slot i hi hne

/-- Objects are dropped, from the list of objects or from the load list; one that leaves
the load list only has no thread-local data. -/
theorem Indexed.drop (h : a.Indexed) {objects pending : List ObjId} (initialSize : Addr)
    (hobjects : ∀ id ∈ objects, id ∈ a.objects) (hlibc : 1 ∈ objects)
    (hpending : ∀ id ∈ pending, id ∈ a.pending)
    (hleft : ∀ id ∈ objects, id ∈ a.pending → id ∈ pending ∨ (a.view id).size = 0) :
    Indexed { a with objects, pending, initialSize } where
  libc_mem := hlibc
  libc_index := h.libc_index
  libc_pending hmem := h.libc_pending (hpending 1 hmem)
  libc_map := h.libc_map
  nodup_map := h.nodup_map
  map_lt := h.map_lt
  waiting id hid := h.waiting id (hpending id hid)
  size_ne := h.size_ne
  slot id hid hne hsize := by
    rcases h.slot id (hobjects id hid) hne hsize with hmem | hslot
    · exact .inl ((hleft id hid hmem).resolve_right hsize)
    · exact .inr hslot

/-- An object with thread-local data is taken and gets the next index. -/
theorem Indexed.enter (h : a.Indexed) (hwf : a.WellFormed) (hid : a.pending.head? = some id)
    (hne : v.size ≠ 0) (hindex : v.index = a.map.length) (initialSize : Addr) :
    Indexed { a.takeAs id v with initialSize, map := a.map ++ [id] } := by
  have hmem : id ∈ a.pending := mem_of_mem_head? hid
  have hnot : id ∉ a.map := h.waiting id hmem
  have hlibc : 1 ≠ id := fun heq => h.libc_pending (heq ▸ hmem)
  have hself : (a.takeAs id v).view id = v := a.view_set_self id v
  have hother : ∀ i ≠ id, (a.takeAs id v).view i = a.view i := fun i hi => a.view_set_of_ne hi v
  exact
    { libc_mem := h.libc_mem
      libc_index := by
        rw [hother 1 hlibc]
        exact h.libc_index
      libc_pending := fun hmem => h.libc_pending (mem_of_mem_tail hmem)
      libc_map := fun hmap => by
        rcases mem_append.mp hmap with hmap | hmap
        · exact h.libc_map hmap
        · exact hlibc (mem_singleton.mp hmap)
      nodup_map := nodup_append.mpr ⟨h.nodup_map, nodup_singleton _,
        fun i hi j hj heq => hnot (mem_singleton.mp hj ▸ heq ▸ hi)⟩
      map_lt := fun i hi => by
        rcases mem_append.mp hi with hi | hi
        · exact h.map_lt i hi
        · rw [mem_singleton.mp hi]
          exact hwf.pending_lt hmem
      waiting := fun i hi hmap => by
        rcases mem_append.mp hmap with hmap | hmap
        · exact h.waiting i (mem_of_mem_tail hi) hmap
        · exact hwf.ne_of_mem_tail hid hi (mem_singleton.mp hmap)
      size_ne := fun i hi => by
        rcases mem_append.mp hi with hi | hi
        · rw [hother i fun heq => hnot (heq ▸ hi)]
          exact h.size_ne i hi
        · rw [mem_singleton.mp hi, hself]
          exact hne
      slot := fun i hi hi' hsize => by
        by_cases heq : i = id
        · subst heq
          refine .inr ?_
          rw [hself, hindex, List.getElem?_concat_length]
        · rw [hother i heq] at hsize ⊢
          refine (h.slot i hi hi' hsize).imp (mem_tail_pending hid · heq) fun hslot => ?_
          rw [List.getElem?_append_left (List.getElem?_eq_some_iff.mp hslot).1]
          exact hslot }

theorem Indexed.step (h : a.Indexed) (hwf : a.WellFormed) (hstep : TlsStep initial l a a') :
    a'.Indexed := by
  cases hstep with
  | idle => exact h
  | add => exact h.add hwf _
  | @plain _ id hid hsize =>
    have hset : (a.set id ((a.view id).taken initial)).Indexed := h.set rfl rfl
    refine hset.drop a.initialSize (fun _ hi => hi) h.libc_mem (fun _ => mem_of_mem_tail) ?_
    intro i hi hmem
    by_cases heq : i = id
    · subst heq
      exact .inr ((congrArg TlsView.size (a.view_set_self ..)).trans hsize)
    · exact .inl (mem_tail_pending hid hmem heq)
  | static hid hsize => exact h.enter hwf hid (by exact hsize) (by rfl) _
  | dynamic hid hsize => exact h.enter hwf hid (by exact hsize) (by rfl) a.initialSize

end TlsState

/-! ### The callers -/

/-- What holds between two calls of `dlopen`. -/
structure Loader.HasIndices (s : Loader) : Prop where
  wellFormed : (s.tlsState []).WellFormed
  indexed : (s.tlsState []).Indexed

theorem indexed_initial (exe libc : Image) : ((Loader.initial exe libc).tlsState [0]).Indexed where
  libc_mem := mem_pair.mpr (.inr rfl)
  libc_index := rfl
  libc_pending := show 1 ∉ [0] by decide
  libc_map := not_mem_nil
  nodup_map := nodup_nil
  map_lt := forall_mem_nil _
  waiting _ _ := not_mem_nil
  size_ne := forall_mem_nil _
  slot id hid hne _ := .inl (mem_singleton.mpr ((mem_pair.mp hid).resolve_right hne))

theorem TlsState.Indexed.withReserve {a : TlsState} (h : a.Indexed) (reserve : Addr) :
    Indexed { a with reserve } :=
  ⟨h.libc_mem, h.libc_index, h.libc_pending, h.libc_map, h.nodup_map, h.map_lt, h.waiting,
    h.size_ne, h.slot⟩

theorem hasIndices_startup {env : Env} {fuel : ℕ} {exe libc : Image} {s : Loader}
    (h : startup env fuel exe libc = some (.success s)) : s.HasIndices := by
  obtain ⟨t, hrun, hs⟩ := startup_tls h
  have henter := (Loader.initial exe libc).tlsState_enter 0 true
  obtain ⟨hwf, hindexed⟩ := Loading.tls_success (P := fun _ _ => True) (I := TlsState.Indexed)
    (fun l a a' hwf hI _ hstep => hI.step hwf hstep)
    (henter ▸ wellFormed_initial exe libc) (henter ▸ indexed_initial exe libc)
    Loop.along_true hrun
  constructor
  · rw [hs]
    exact hwf.withReserve _
  · rw [hs]
    exact hindexed.withReserve _

variable {t : Loader} {global : Bool}

/-- The object that found no room is left as it was but for its model. -/
theorem tlsState_of_leaves {env : Env} {initial : Bool} {c : Loading} {e : LoadError}
    (h : Leaves env initial c (.failure e t))
    (hpending : ∀ id ∈ c.loadList, id < c.loader.heap.length) :
    ∃ id v, v.size = (c.tlsState.view id).size ∧ v.index = (c.tlsState.view id).index ∧
      t.tlsState c.loadList = c.tlsState.set id v := by
  cases h with
  | @noMemory s id rest h =>
    exact ⟨id, (s.obj id).tls.taken initial, rfl, rfl,
      Loader.tlsState_take _ (hpending id (mem_cons_self ..)) initial⟩
  | failure => exact ⟨0, _, rfl, rfl, (TlsState.set_view _ 0).symm⟩

section Open

variable {env : Env} {fuel : ℕ} {filename : Option Name} {flags : OpenFlags}
  {returnAddr : Addr} {s s' : Loader}

/-- The traversal of a `dlopen`, up to the round that leaves. -/
theorem Loader.HasIndices.along (hs : s.HasIndices) {initial : Bool} {c : Loading} {r : Loaded}
    (hc : c.tlsState = (s.tlsState []).add v)
    (hrun : Loop.run (round env global initial) fuel c = some r) :
    ∃ last : Loading, last.tlsState.WellFormed ∧ last.tlsState.Indexed ∧
      (s.tlsState []).Since last.tlsState ∧ Leaves env initial last r := by
  have hwf := hs.wellFormed.add v
  have hindexed := hs.indexed.add hs.wellFormed v
  have hsince := (TlsState.Since.refl (a := s.tlsState []) rfl).add v
  rw [← hc] at hwf hindexed hsince
  obtain ⟨last, hwf, ⟨hindexed, hsince⟩, hleaves⟩ := Loading.tls_along (P := fun _ _ => True)
    (I := fun a => a.Indexed ∧ (s.tlsState []).Since a)
    (fun l a a' hwf hI _ hstep => ⟨hI.1.step hwf hstep, hI.2.step hstep⟩)
    hwf ⟨hindexed, hsince⟩ Loop.along_true hrun
  exact ⟨last, hwf, hindexed, hsince, hleaves⟩

theorem Loader.HasIndices.handle (hs : s.HasIndices)
    (h : dlapiOpen env fuel filename flags returnAddr s = some (.handle id s')) :
    s'.HasIndices ∧ (s.tlsState []).Since (s'.tlsState []) := by
  rcases dlapiOpen_tls h with rfl | ⟨o, t, c, ho, hopen, hc, hrun, hs'⟩
  · exact ⟨hs, .refl rfl⟩
  · obtain ⟨last, hwf, hindexed, hsince, hleaves⟩ := hs.along hc hrun
    cases hleaves
    have hlast : (⟨t, [], none⟩ : Loading).tlsState = s'.tlsState [] := hs'.symm
    rw [hlast] at hwf hindexed hsince
    exact ⟨⟨hwf, hindexed⟩, hsince⟩

/-- A traversal that is given up leaves the entries it has made in the map. -/
theorem Progress.since {list : List ObjId} {read : ObjId × List Name}
    (hp : Progress s global ⟨t, list, some read⟩) :
    (s.tlsState []).Since { t.tlsState [] with
      objects := s.storage.objects, initialSize := s.storage.initialTlsSize } where
  built := hp.kept.built
  view := hp.kept.view
  pending := forall_mem_nil _
  objects := ⟨[], (append_nil _).symm, forall_mem_nil _⟩
  map := by
    obtain ⟨new, taken, size, mapped, hst, -⟩ := hp.storage
    have hmap := congrArg ObjectStorage.runtimeTlsMap hst
    exact ⟨mapped, hmap⟩

theorem Loader.HasIndices.abandon (hs : s.HasIndices) {o : SharedObject} {e : LoadError}
    (hrun : Loop.run (round env global false) fuel ((s.addRoot o).enter s.heap.length global) =
      some (.failure e t)) :
    TlsState.Indexed { t.tlsState [] with
      objects := s.storage.objects, initialSize := s.storage.initialTlsSize } := by
  obtain ⟨last, hwf, hindexed, hsince, hleaves⟩ := hs.along (Loader.tlsState_enter_addRoot ..) hrun
  obtain ⟨id, v, hsize, hindex, hset⟩ := tlsState_of_leaves hleaves fun _ => hwf.pending_lt
  have hindexed : (last.tlsState.set id v).Indexed := hindexed.set hsize hindex
  have hobjects : t.storage.objects = last.tlsState.objects := congrArg TlsState.objects hset
  rw [← hset] at hindexed
  refine hindexed.drop s.storage.initialTlsSize (fun i hi => ?_) hs.indexed.libc_mem
    (forall_mem_nil _) fun i hi hmem => ?_
  · have hi := hsince.objects_sub hi
    rw [← hobjects] at hi
    exact hi
  · -- what waits in the load list is new
    have hnew := hsince.pending i hmem
    exact absurd (hs.wellFormed.lt_built i hi) (Nat.not_lt.mpr hnew)

theorem Loader.HasIndices.null (hs : s.HasIndices) {e : OpenError}
    (h : dlapiOpen env fuel filename flags returnAddr s = some (.null e s')) :
    s'.HasIndices ∧ (s.tlsState []).Since (s'.tlsState []) := by
  rcases dlapiOpen_null_run h with ⟨-, rfl⟩ | ⟨-, o, err, t, ho, hrun, rfl⟩
  · exact ⟨hs, .refl rfl⟩
  · obtain ⟨list, read, ht⟩ := progress_of_run hrun
    have hindexed := hs.abandon hrun
    have hwf := ht.kept.wellFormed hs.wellFormed
    have hsince := ht.since
    rw [← ht.tlsState_popObject o] at hindexed hwf hsince
    exact ⟨⟨hwf, hindexed⟩, hsince⟩

end Open

end Hzlibc.Rtld
