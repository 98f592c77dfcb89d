import Hzlibc.Rtld.Traversal
import Hzlibc.Search.Discovery

/-!
The order of the init list.

Seen from the objects it loads, a traversal of `load_dependencies` is a
discovery: the init list holds the objects taken, the load list the ones
pending, and the dependencies recorded so far are the edges. Objects that were
there before do not belong to it. `Known.simulates` is the step of this
simulation; the order of the init list then follows from what a discovery does.
-/

namespace Hzlibc.Rtld

open Search List

/-! ### Objects fresh from a file -/

structure SharedObject.Fresh (o : SharedObject) : Prop where
  dependencies : o.dependencies = []
  initialized : o.initialized = false

variable {o : SharedObject} {names : List Name}

theorem SharedObject.FromFile.fresh (h : o.FromFile) : o.Fresh := by
  obtain ⟨_, _, _, _, _, _, _, rfl⟩ := h
  exact ⟨rfl, rfl⟩

/-! ### A traversal as a discovery -/

/-- The objects of a traversal that starts from `start` in state `s`. -/
def IsNew (s : Loader) (start id : ObjId) : Prop := id = start ∨ s.heap.length ≤ id

def Loading.discovery (isNew : ObjId → Prop) (c : Loading) : Discovery ObjId where
  taken := c.loader.storage.initList
  pending := c.loadList
  edge a b := isNew a ∧ isNew b ∧ b ∈ (c.loader.obj a).dependencies

/-- The object the next DT_NEEDED entry refers to, if it is loaded already. -/
def Loading.nextLoaded (c : Loading) : Option ObjId :=
  match c.reading with
  | some (_, name :: _) => if loaderNames.contains name then none else c.loader.findLoaded name
  | _ => none

/-- An entry that refers to a loaded object does not refer to one that is in the
init list. -/
def NeedsPending (c : Loading) : Prop :=
  ∀ added ∈ c.nextLoaded, added ∉ c.loader.storage.initList

instance : DecidablePred NeedsPending := fun c =>
  inferInstanceAs (Decidable (∀ added ∈ c.nextLoaded, added ∉ c.loader.storage.initList))

/-- What `load_dependencies` can rely on when it is called for `start`. -/
structure Ready (s : Loader) (start : ObjId) : Prop where
  inHeap : start < s.heap.length
  fresh : (s.obj start).Fresh
  initList : s.storage.initList = []
  objects : ∀ id ∈ s.storage.objects, id < s.heap.length

/-- The traversal knows its objects: each one built is in exactly one of the two
lists, and only the ones taken have dependencies. -/
structure Known (s : Loader) (start : ObjId) (c : Loading) : Prop where
  inHeap : start < s.heap.length
  length : s.heap.length ≤ c.loader.heap.length
  objects : ∀ id ∈ c.loader.storage.objects, id < c.loader.heap.length
  known : ∀ id, id ∈ c.loader.storage.initList ++ c.loadList ↔
    id = start ∨ s.heap.length ≤ id ∧ id < c.loader.heap.length
  reading : ∀ id names, c.reading = some (id, names) →
    ∃ l, c.loader.storage.initList = l ++ [id]
  fresh : ∀ id, IsNew s start id → id ∉ c.loader.storage.initList →
    (c.loader.obj id).dependencies = []
  initialized : ∀ id, IsNew s start id → (c.loader.obj id).initialized = false
  constructed : c.loader.constructed = s.constructed

variable {env : Env} {global initial : Bool} {s : Loader} {start id : ObjId}

theorem Loader.fresh_of_le (s : Loader) (h : s.heap.length ≤ id) : (s.obj id).Fresh := by
  rw [obj_of_le s h]
  exact ⟨rfl, rfl⟩

theorem known_enter (h : Ready s start) (global : Bool) : Known s start (s.enter start global) where
  inHeap := h.inHeap
  length := by simp
  objects := by simpa using h.objects
  known := by
    intro id
    rw [initList_enter, h.initList, heap_enter]
    constructor
    · intro hid
      exact .inl (mem_singleton.mp hid)
    · rintro (rfl | ⟨hle, hlt⟩)
      · exact mem_singleton_self _
      · exact absurd hlt (Nat.not_lt.mpr hle)
  reading := by simp [Loader.enter]
  fresh := by
    rintro id (rfl | hid) -
    · rw [obj_enter, h.fresh.dependencies]
    · rw [obj_enter, (s.fresh_of_le hid).dependencies]
  initialized := by
    rintro id (rfl | hid)
    · rw [obj_enter, h.fresh.initialized]
    · rw [obj_enter, (s.fresh_of_le hid).initialized]
  constructed := constructed_enter ..

variable {c c' : Loading} {list : List ObjId}

theorem Known.lt_length (hk : Known s start c) (hid : id ∈ c.loader.storage.initList) :
    id < c.loader.heap.length := by
  rcases (hk.known id).mp (mem_append_left _ hid) with rfl | ⟨-, h⟩
  · exact Nat.lt_of_lt_of_le hk.inHeap hk.length
  · exact h

theorem Known.isNew (hk : Known s start c) (hid : id ∈ c.loader.storage.initList ++ c.loadList) :
    IsNew s start id :=
  ((hk.known id).mp hid).imp_right (·.1)

theorem Known.reading_mem (hk : Known s start c) (h : c.reading = some (id, names)) :
    id ∈ c.loader.storage.initList := by
  obtain ⟨l, hl⟩ := hk.reading id names h
  rw [hl]
  exact mem_append_right _ (mem_singleton_self id)

theorem Known.take {t t' : Loader} {rest : List ObjId} (hk : Known s start ⟨t, id :: rest, none⟩)
    (ht : Loader.SetsTls id (t.pushInit id) t') : Known s start ⟨t', rest, some (id, names)⟩ := by
  obtain ⟨size, mapped, hst⟩ := ht.storage
  have hinit := ht.initList_pushInit
  have hobjects : t'.storage.objects = t.storage.objects := congrArg (·.objects) hst
  have hlen : t'.heap.length = t.heap.length := ht.length
  constructor
  case inHeap => exact hk.inHeap
  case length => exact hlen ▸ hk.length
  case objects =>
    intro id' hid'
    rw [hobjects] at hid'
    exact hlen ▸ hk.objects id' hid'
  case known =>
    intro id'
    rw [hinit, hlen, append_assoc]
    exact hk.known id'
  case reading =>
    rintro id' names' ⟨⟩
    exact ⟨t.storage.initList, hinit⟩
  case fresh =>
    intro id' hnew hid'
    rw [ht.dependencies id']
    refine hk.fresh id' hnew fun hmem => hid' ?_
    rw [hinit]
    exact mem_append_left _ hmem
  case initialized =>
    intro id' hnew
    rw [ht.initialized id']
    exact hk.initialized id' hnew
  case constructed => exact ht.constructed.trans hk.constructed

/-- A dependency is recorded for the object being read. -/
theorem Known.addDependency {t : Loader} {dep : ObjId} {names' : List Name}
    (hk : Known s start ⟨t, list, some (id, names)⟩) :
    Known s start ⟨t.addDependency id dep, list, some (id, names')⟩ where
  inHeap := hk.inHeap
  length := by simpa [Loader.addDependency] using hk.length
  objects := by simpa [Loader.addDependency] using hk.objects
  known := by simpa [Loader.addDependency] using hk.known
  reading := by
    rintro id' names'' ⟨⟩
    exact hk.reading id names rfl
  fresh id' hnew hid' := by
    have hmem : id ∈ t.storage.initList := hk.reading_mem rfl
    have hne : id' ≠ id := fun heq => hid' (heq ▸ hmem)
    rw [Loader.addDependency, Loader.obj_modify_of_ne t hne]
    exact hk.fresh id' hnew hid'
  initialized id' hnew := by
    rw [Loader.initialized_addDependency]
    exact hk.initialized id' hnew
  constructed := hk.constructed

theorem Loader.objects_addRoot (h : ∀ id ∈ s.storage.objects, id < s.heap.length)
    (o : SharedObject) : ∀ id ∈ (s.addRoot o).storage.objects, id < (s.addRoot o).heap.length := by
  intro id hid
  rw [length_addRoot]
  rcases mem_append.mp hid with hid | hid
  · exact Nat.lt_succ_of_lt (h id hid)
  · rw [mem_singleton.mp hid]
    exact Nat.lt_succ_self _

/-- A new object is as fresh as what is not there. -/
theorem Loader.proj_addRoot {α : Type*} (s : Loader) (f : SharedObject → α)
    (ho : f o = f (s.obj s.heap.length)) (id : ObjId) :
    f ((s.addRoot o).obj id) = f (s.obj id) := by
  change f ((s.create o).obj id) = _
  by_cases hid : id = s.heap.length
  · rw [hid, obj_create_self, ho]
  · rw [obj_create_of_ne s hid]

theorem Loader.dependencies_addRoot (s : Loader) (ho : o.Fresh) (id : ObjId) :
    ((s.addRoot o).obj id).dependencies = (s.obj id).dependencies :=
  s.proj_addRoot (·.dependencies)
    (ho.dependencies.trans (s.fresh_of_le (Nat.le_refl _)).dependencies.symm) id

/-- A new object becomes pending. -/
theorem Known.addRoot {t : Loader} (hk : Known s start ⟨t, list, some (id, names)⟩) (ho : o.Fresh) :
    Known s start ⟨t.addRoot o, t.heap.length :: list, some (id, names)⟩ := by
  have hlen := t.length_addRoot o
  have hold : s.heap.length ≤ t.heap.length := hk.length
  constructor
  case inHeap => exact hk.inHeap
  case length => exact hlen ▸ Nat.le_succ_of_le hold
  case objects => exact Loader.objects_addRoot hk.objects o
  case known =>
    intro id'
    have hknown : id' ∈ t.storage.initList ++ list ↔
        id' = start ∨ s.heap.length ≤ id' ∧ id' < t.heap.length := hk.known id'
    have hinit : (t.addRoot o).storage.initList = t.storage.initList := rfl
    rw [hinit, hlen, mem_append, mem_cons, or_left_comm, ← mem_append, hknown,
      Nat.lt_succ_iff_lt_or_eq]
    constructor
    · rintro (rfl | h | ⟨hle, hlt⟩)
      · exact .inr ⟨hold, .inr rfl⟩
      · exact .inl h
      · exact .inr ⟨hle, .inl hlt⟩
    · rintro (h | ⟨hle, hlt | rfl⟩)
      · exact .inr (.inl h)
      · exact .inr (.inr ⟨hle, hlt⟩)
      · exact .inl rfl
  case reading => exact hk.reading
  case fresh =>
    intro id' hnew hid'
    rw [t.dependencies_addRoot ho]
    exact hk.fresh id' hnew hid'
  case initialized =>
    -- no constructor runs before the traversal has ended
    intro id' hnew
    rw [t.proj_addRoot (·.initialized)
      (ho.initialized.trans (t.fresh_of_le (Nat.le_refl _)).initialized.symm)]
    exact hk.initialized id' hnew
  case constructed => exact hk.constructed

theorem Known.addNeeded {t : Loader} {names' : List Name}
    (hk : Known s start ⟨t, list, some (id, names)⟩) (ho : o.Fresh) (global : Bool) :
    Known s start ⟨t.addNeeded id o global, t.heap.length :: list, some (id, names')⟩ := by
  have h : Known s start ⟨(t.addRoot o).addDependency id t.heap.length, t.heap.length :: list,
      some (id, names')⟩ := (hk.addRoot ho).addDependency
  cases global with
  | true => exact { h with }
  | false => exact h

theorem Known.step (hk : Known s start c) (h : Round env global initial c c') :
    Known s start c' := by
  cases h with
  | take h => exact hk.take (Loader.setsTls_of_assignTls h)
  | done => exact { hk with reading := by simp }
  | @skip t list id name names h =>
    refine { hk with reading := ?_ }
    rintro id' names' ⟨⟩
    exact hk.reading id (name :: names) rfl
  | found => exact hk.addDependency
  | load h hnot hload => exact hk.addNeeded (Env.fromFile_load hload).fresh global

/-! ### The simulation -/

theorem Loader.SetsTls.discovery_take {isNew : ObjId → Prop} {t t' : Loader} {rest : List ObjId}
    {reading : Option (ObjId × List Name)} (ht : Loader.SetsTls id (t.pushInit id) t') :
    Loading.discovery isNew ⟨t', rest, reading⟩ =
      ⟨t.storage.initList ++ [id], rest, (Loading.discovery isNew ⟨t, id :: rest, none⟩).edge⟩ := by
  obtain ⟨size, mapped, hst⟩ := ht.storage
  simp only [Loading.discovery, ht.dependencies, hst]
  rfl

theorem mem_of_findLoaded {name : Name} (h : s.findLoaded name = some id) :
    id ∈ s.storage.objects := by
  simp only [Loader.findLoaded] at h
  split_ifs at h
  all_goals exact mem_of_find?_eq_some h

/-- Recording a dependency on a known object adds an edge from the last object
taken. -/
theorem Known.discovery_found {t : Loader} {added : ObjId} (names' : List Name)
    (hk : Known s start ⟨t, list, some (id, names)⟩) (hnew : IsNew s start added) :
    ∃ l, t.storage.initList = l ++ [id] ∧
      Loading.discovery (IsNew s start) ⟨t.addDependency id added, list, some (id, names')⟩ =
        ⟨l ++ [id], list, Discovery.addEdge
          (Loading.discovery (IsNew s start) ⟨t, list, some (id, names)⟩).edge id added⟩ := by
  obtain ⟨l, hl⟩ : ∃ l, t.storage.initList = l ++ [id] := hk.reading id _ rfl
  have hmem : id ∈ t.storage.initList := hk.reading_mem rfl
  have hdeps := t.dependencies_addDependency (hk.lt_length hmem) added
  refine ⟨l, hl, Discovery.mk.injEq .. ▸ ⟨hl, rfl, ?_⟩⟩
  funext a b
  rw [hdeps]
  apply propext
  constructor
  · rintro ⟨ha, hb, h | h⟩
    · exact .inl ⟨ha, hb, h⟩
    · exact .inr h
  · rintro (⟨ha, hb, h⟩ | ⟨rfl, rfl⟩)
    · exact ⟨ha, hb, .inl h⟩
    · exact ⟨hk.isNew (mem_append_left _ hmem), hnew, .inr ⟨rfl, rfl⟩⟩

/-- An entry for an object in the init list is a step back. -/
theorem Known.back (env : Env) (global initial : Bool) (hk : Known s start c) (h : ¬ NeedsPending c)
    :
    ∃ c', round env global initial c = .inl c' ∧
      Discovery.Back (c.discovery (IsNew s start)) (c'.discovery (IsNew s start)) := by
  obtain ⟨t, list, reading⟩ := c
  simp [NeedsPending] at h
  obtain ⟨added, hnext, htaken⟩ := h
  match reading with
  | none | some (id, []) => cases hnext
  | some (id, name :: names) =>
    simp only [Loading.nextLoaded, List.contains_iff_mem] at hnext
    split_ifs at hnext with hname
    refine ⟨⟨t.addDependency id added, list, some (id, names)⟩, ?_, ?_⟩
    · simp [round, if_neg hname, hnext]
    · obtain ⟨l, hl, hd⟩ := hk.discovery_found names
        (hk.isNew (mem_append_left _ htaken))
      rw [hd]
      simp only [Loading.discovery, hl] at htaken ⊢
      exact .back htaken

/-- A dependency on an object of before is no edge. -/
theorem Known.discovery_old {t : Loader} {added : ObjId} (names' : List Name)
    (hk : Known s start ⟨t, list, some (id, names)⟩) (hold : ¬ IsNew s start added) :
    Loading.discovery (IsNew s start) ⟨t.addDependency id added, list, some (id, names')⟩ =
      Loading.discovery (IsNew s start) ⟨t, list, some (id, names)⟩ := by
  have hdeps := t.dependencies_addDependency (hk.lt_length (hk.reading_mem rfl)) added
  simp only [Loading.discovery, Discovery.mk.injEq]
  refine ⟨rfl, trivial, ?_⟩
  ext a b
  rw [hdeps]
  refine and_congr_right fun _ => and_congr_right fun hb => or_iff_left ?_
  rintro ⟨-, rfl⟩
  exact hold hb

/-- An object loaded for an entry is discovered. -/
theorem Known.discover {t : Loader} (names' : List Name)
    (hk : Known s start ⟨t, list, some (id, names)⟩) (ho : o.Fresh) (global : Bool) :
    Discovery.Step (Loading.discovery (IsNew s start) ⟨t, list, some (id, names)⟩)
      (Loading.discovery (IsNew s start)
        ⟨t.addNeeded id o global, t.heap.length :: list, some (id, names')⟩) := by
  have hold : s.heap.length ≤ t.heap.length := hk.length
  suffices h : Discovery.Step _ (Loading.discovery (IsNew s start)
      ⟨(t.addRoot o).addDependency id t.heap.length, t.heap.length :: list, some (id, names')⟩) by
    cases global <;> exact h
  obtain ⟨l, hl, hd⟩ := (hk.addRoot ho).discovery_found names' (.inr hold)
  rw [hd]
  have hunknown : t.heap.length ∉ t.storage.initList ++ list := by
    intro hknown
    rcases (hk.known _).mp hknown with heq | ⟨-, hlt⟩
    · exact Nat.lt_irrefl _ (Nat.lt_of_lt_of_le (heq ▸ hk.inHeap) hold)
    · exact Nat.lt_irrefl _ hlt
  have hl : t.storage.initList = l ++ [id] := hl
  simp only [Loading.discovery, t.dependencies_addRoot ho, hl] at hunknown ⊢
  exact .discover hunknown

/-- Each round is a step of the discovery or leaves it as it is, unless it reads
an entry for an object that is in the init list. -/
theorem Known.simulates (hk : Known s start c) (h : Round env global initial c c') :
    c'.discovery (IsNew s start) = c.discovery (IsNew s start) ∨
      Discovery.Step (c.discovery (IsNew s start)) (c'.discovery (IsNew s start)) ∨
      ¬ NeedsPending c ∧
        Discovery.Back (c.discovery (IsNew s start)) (c'.discovery (IsNew s start)) := by
  cases h with
  | take h =>
    right; left
    rw [(Loader.setsTls_of_assignTls h).discovery_take]
    exact .take
  | done | skip => exact .inl rfl
  | @found t list id added name names h hfound =>
    by_cases hnew : IsNew s start added
    · right
      have hadded : added < t.heap.length := hk.objects added (mem_of_findLoaded hfound)
      have hknown : added ∈ t.storage.initList ++ list :=
        (hk.known added).mpr (hnew.imp_right fun hle => ⟨hle, hadded⟩)
      obtain ⟨l, hl, hd⟩ := hk.discovery_found names hnew
      rw [hd]
      simp only [Loading.discovery, hl] at hknown ⊢
      -- taken already is a step back, still pending a link
      by_cases htaken : added ∈ l ++ [id]
      · refine .inr ⟨fun hpending => hpending added ?_ (hl ▸ htaken), .back htaken⟩
        simp [Loading.nextLoaded, if_neg h, hfound]
      · exact .inl (.link ((mem_append.mp hknown).resolve_left htaken))
    · exact .inl (hk.discovery_old names hnew)
  | load h hnot hload => exact .inr (.inl (hk.discover _ (Env.fromFile_load hload).fresh global))

/-! ### The order of the init list -/

/-- The traversal that has ended with the objects of `t` in the init list. -/
def Loader.discovered (s : Loader) (start : ObjId) (t : Loader) : Discovery ObjId :=
  Loading.discovery (IsNew s start) ⟨t, [], none⟩

/-- The invariant of a traversal. -/
structure Traversed (s : Loader) (start : ObjId) (c : Loading) : Prop where
  known : Known s start c
  wellFormed : (c.discovery (IsNew s start)).WellFormed

theorem traversed_enter (hs : Ready s start) (global : Bool) :
    Traversed s start (s.enter start global) := by
  have hk := known_enter hs global
  have hedge : ∀ a b, ¬ ((s.enter start global).discovery (IsNew s start)).edge a b := by
    rintro a b ⟨ha, -, hb⟩
    rw [hk.fresh a ha (by simp [hs.initList])] at hb
    cases hb
  refine ⟨hk, ?_, fun a b hab => absurd hab (hedge a b), fun a b hab => absurd hab (hedge a b)⟩
  simp [Loading.discovery, hs.initList]
  exact nodup_singleton start

theorem Traversed.step (ht : Traversed s start c) (h : round env global initial c = .inl c') :
    Traversed s start c' := by
  refine ⟨ht.known.step (round_inl h), ?_⟩
  rcases ht.known.simulates (round_inl h) with heq | hstep | ⟨-, hback⟩
  · rw [heq]
    exact ht.wellFormed
  · exact ht.wellFormed.step hstep
  · exact ht.wellFormed.back hback

theorem eq_of_round_success {t : Loader} (h : round env global initial c = .inr (.success t)) :
    c = ⟨t, [], none⟩ := by
  cases round_inr h
  rfl

section Run

variable {fuel : ℕ} {t : Loader} (hs : Ready s start)
  (hrun : Loop.run (round env global initial) fuel (s.enter start global) = some (.success t))

include hs hrun

theorem traversed_of_run : Traversed s start ⟨t, [], none⟩ := by
  obtain ⟨last, hlast, hend⟩ :=
    Loop.run_invariant (fun c c' hc h => Traversed.step hc h) (traversed_enter hs global) hrun
  exact eq_of_round_success hend ▸ hlast

theorem ordered_of_along
    (hG : Loop.Along (round env global initial) NeedsPending fuel (s.enter start global)) :
    (s.discovered start t).Ordered := by
  have hstep : ∀ c c', Traversed s start c ∧ (c.discovery (IsNew s start)).Forward →
      NeedsPending c → round env global initial c = .inl c' →
      Traversed s start c' ∧ (c'.discovery (IsNew s start)).Forward := by
    rintro c c' ⟨ht, hf⟩ hc h
    refine ⟨ht.step h, ?_⟩
    rcases ht.known.simulates (round_inl h) with heq | hstep | ⟨hn, -⟩
    · rw [heq]
      exact hf
    · exact hf.step ht.wellFormed hstep
    · exact absurd hc hn
  have henter : ((s.enter start global).discovery (IsNew s start)).Forward := by
    intro a b hab
    have ha := (traversed_enter hs global).wellFormed.source a b hab
    simp [Loading.discovery, hs.initList] at ha
  obtain ⟨last, ⟨-, hf⟩, -, hend⟩ := hG.invariant hstep ⟨traversed_enter hs global, henter⟩ hrun
  rw [eq_of_round_success hend] at hf
  exact hf.ordered rfl

theorem not_ordered_of_not_along
    (hG : ¬ Loop.Along (round env global initial) NeedsPending fuel (s.enter start global)) :
    ¬ (s.discovered start t).Ordered := by
  have hmiss : ∀ c, Traversed s start c → ¬ NeedsPending c →
      ∃ c', round env global initial c = .inl c' ∧
        (c'.discovery (IsNew s start)).Backward := by
    intro c ht hc
    obtain ⟨c', h, hback⟩ := ht.known.back env global initial hc
    exact ⟨c', h, .of_back ht.wellFormed hback⟩
  have hkeep : ∀ c c', Traversed s start c → (c.discovery (IsNew s start)).Backward →
      round env global initial c = .inl c' → (c'.discovery (IsNew s start)).Backward := by
    intro c c' ht hb h
    rcases ht.known.simulates (round_inl h) with heq | hstep | ⟨-, hback⟩
    · rw [heq]
      exact hb
    · exact hb.step ht.wellFormed hstep
    · exact .of_back ht.wellFormed hback
  obtain ⟨last, -, hb, hend⟩ := Loop.run_marked (fun c c' hc h => Traversed.step hc h) hmiss hkeep
    (traversed_enter hs global) hG hrun
  rw [eq_of_round_success hend] at hb
  exact hb.not_ordered

end Run

end Hzlibc.Rtld
