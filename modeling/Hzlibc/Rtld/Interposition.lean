import Hzlibc.Rtld.Load
import Hzlibc.Search.Preference

/-!
Interposition in the global scope.

The definitions an ordinary relocation is resolved against are one list, and a
lookup prefers the strong ones in it. Objects share the global scope, which
comes first; each has its own dependencies, and what it opened for itself, after
it. So the scope decides alone when it has a strong definition, and also when it
has a weak one that no strong definition of the object's own overrides.

The loop over the global scope passes over the object it looks something up for.
Its own definition is seen afterwards, at the head of its dependencies; that
makes a difference only where it would have been chosen and another object of
the scope has one of the same strength.
-/

namespace Hzlibc.Rtld

open Search List

variable {d : ObjectSymbol}

namespace Loader

variable {s : Loader} {name : Name} {id : ObjId}

/-! ### One lookup -/

/-- The definition that is used in place of `d`: another one, if `d` is unique
and the name has been recorded before. -/
def pinned (s : Loader) (name : Name) (d : ObjectSymbol) : ObjectSymbol := (s.settle name d).1

theorem settle_of_not_isStrong (h : d.isStrong = false) : s.settle name d = (d, s) := by
  have hweak : d.sym.bind = .stbWeak := by simpa [ObjectSymbol.isStrong] using h
  exact settle_of_not_unique (by simp [hweak])

theorem lookup_eq_prefer (id : ObjId) (name : Name) :
    s.lookup (some id) name .none =
      match prefer ObjectSymbol.isStrong (s.definitions name (s.searchOrder id)) with
      | some d => (some (s.pinned name d), (s.settle name d).2)
      | none => (none, s) := by
  rw [lookup_none, prefer]
  cases hstrong : (s.definitions name (s.searchOrder id)).find? (·.isStrong) with
  | some d => rfl
  | none =>
    cases hhead : (s.definitions name (s.searchOrder id)).head? with
    | none => rfl
    | some d =>
      have hweak : d.isStrong = false := by
        simpa using List.find?_eq_none.mp hstrong d (mem_of_head? hhead)
      simp [pinned, settle_of_not_isStrong hweak]

theorem object_of_definition (h : s.definition name id = some d) : d.object = id := by
  simp only [definition] at h
  split at h
  · cases h
  · split_ifs at h
    cases h
    rfl

theorem definition_of_mem {ids : List ObjId} (h : d ∈ s.definitions name ids) :
    s.definition name d.object = some d := by
  obtain ⟨id, -, hd⟩ := mem_filterMap.mp h
  rw [object_of_definition hd]
  exact hd

@[simp] theorem definitions_append (ids ids' : List ObjId) :
    s.definitions name (ids ++ ids') = s.definitions name ids ++ s.definitions name ids' :=
  filterMap_append

/-- Passing over an object is leaving out its definition. -/
theorem definitions_filter (ids : List ObjId) :
    s.definitions name (ids.filter (· ≠ id)) =
      (s.definitions name ids).filter (·.object ≠ id) := by
  induction ids with
  | nil => rfl
  | cons o ids ih =>
    simp only [definitions] at ih ⊢
    by_cases ho : o = id
    · rw [filter_cons_of_neg (by simpa using ho), ih]
      cases hd : s.definition name o with
      | none => rw [filterMap_cons_none hd]
      | some d =>
        have hobj := object_of_definition hd
        rw [filterMap_cons_some hd, filter_cons_of_neg (by simp [hobj, ho])]
    · rw [filter_cons_of_pos (by simpa using ho)]
      cases hd : s.definition name o with
      | none => rw [filterMap_cons_none hd, filterMap_cons_none hd, ih]
      | some d =>
        have hobj := object_of_definition hd
        rw [filterMap_cons_some hd, filterMap_cons_some hd, ih,
          filter_cons_of_pos (by simp [hobj, ho])]

/-- The object itself is the first place after the global scope. -/
theorem head?_definitions_ownScope (h : s.definition name id = some d) :
    (s.definitions name (s.ownScope id)).head? = some d := by
  obtain ⟨rest, hrest⟩ : [id] <+: s.dependencyWalk id := walk_extends ..
  rw [ownScope, ← hrest, append_assoc, singleton_append, definitions, filterMap_cons_some h]
  rfl

/-- The definition of the name that the global scope prefers is not the object's
own, or no other object of the scope has one of the same strength. -/
def Uncontested (s : Loader) (name : Name) (id : ObjId) : Prop :=
  ∀ d, prefer ObjectSymbol.isStrong (s.definitions name s.storage.globalScope) = some d →
    d.object = id →
    ∀ d' ∈ s.definitions name s.storage.globalScope, d'.object ≠ id → d'.isStrong ≠ d.isStrong

/-- The definition an object would find if it were not passed over in the global
scope. -/
def interposed (s : Loader) (name : Name) (id : ObjId) : Option ObjectSymbol :=
  prefer ObjectSymbol.isStrong (s.definitions name (s.storage.globalScope ++ s.ownScope id))

theorem Uncontested.prefer_searchOrder (h : s.Uncontested name id) :
    prefer ObjectSymbol.isStrong (s.definitions name (s.searchOrder id)) =
      s.interposed name id := by
  rw [interposed, searchOrder, definitions_append, definitions_append, definitions_filter]
  refine prefer_filter_append (fun d hd hown => ?_) fun d hd hown d' hd' hother => ?_
  · have hobj : d.object = id := by simpa using hown
    exact head?_definitions_ownScope (hobj ▸ definition_of_mem hd)
  · exact h d hd (by simpa using hown) d' hd' (by simpa using hother)

theorem Uncontested.lookup_eq (h : s.Uncontested name id) :
    s.lookup (some id) name .none =
      match s.interposed name id with
      | some d => (some (s.pinned name d), (s.settle name d).2)
      | none => (none, s) := by
  rw [lookup_eq_prefer, h.prefer_searchOrder]

theorem Uncontested.lookup_fst (h : s.Uncontested name id) :
    (s.lookup (some id) name .none).1 = (s.interposed name id).map (s.pinned name) := by
  rw [h.lookup_eq]
  cases s.interposed name id with
  | none | some d => rfl

/-- An object finds the first strong definition of the others in the global scope,
also where its own one comes before that. -/
theorem lookup_others (h : ((s.definitions name s.storage.globalScope).filter
    (·.object ≠ id)).find? (·.isStrong) = some d) :
    (s.lookup (some id) name .none).1 = some (s.pinned name d) := by
  rw [lookup_eq_prefer, searchOrder, definitions_append, definitions_filter,
    prefer_of_find? (by rw [find?_append, h]; rfl)]

section

variable (h : (s.definitions name s.storage.globalScope).find? (·.isStrong) = some d)
include h

/-- The scope takes the name from another object. -/
theorem uncontested_of_find? (hne : d.object ≠ id) : s.Uncontested name id := by
  intro d' hd' hown
  rw [prefer_of_find? h] at hd'
  exact absurd (Option.some.inj hd' ▸ hown) hne

/-! ### Lookups one after the other -/

omit h in
/-- The global scope decides about the name: it has a strong definition, or it
has one and the object has no strong one of its own. -/
def GlobalDecides (s : Loader) (name : Name) (id : ObjId) : Prop :=
  (∃ d ∈ s.definitions name s.storage.globalScope, d.isStrong) ∨
    s.definitions name s.storage.globalScope ≠ [] ∧
      ∀ d ∈ s.definitions name (s.ownScope id), ¬ d.isStrong

theorem globalDecides_of_find? :
    s.GlobalDecides name id :=
  .inl ⟨d, mem_of_find?_eq_some h, List.find?_some h⟩

end

theorem GlobalDecides.interposed_eq (h : s.GlobalDecides name id) :
    s.interposed name id =
      prefer ObjectSymbol.isStrong (s.definitions name s.storage.globalScope) := by
  rw [interposed, definitions_append]
  exact prefer_append_left h

/-- Any lookups, for whichever object, name and policy. -/
def lookups (s : Loader) (queries : List (Option ObjId × Name × LookupPolicy)) : Loader :=
  queries.foldl (fun s query => (s.lookup query.1 query.2.1 query.2.2).2) s

theorem lookups_changes (queries : List (Option ObjId × Name × LookupPolicy)) :
    ∃ new, s.lookups queries = s.withUnique (s.storage.uniqueMap ++ new) := by
  induction queries generalizing s with
  | nil => exact ⟨[], by rw [append_nil]; rfl⟩
  | cons query queries ih =>
    obtain ⟨new, hnew⟩ := lookup_changes (s := s) query.1 query.2.1 query.2.2
    obtain ⟨new', hnew'⟩ := ih (s := s.withUnique (s.storage.uniqueMap ++ new))
    refine ⟨new ++ new', ?_⟩
    rw [← append_assoc]
    exact (congrArg (lookups · queries) hnew).trans hnew'

/-- Settling a unique definition leaves a record of what it stands for. -/
theorem lookup_uniqueMap_settle (h : d.sym.bind = .stbGnuUnique) :
    (s.settle name d).2.storage.uniqueMap.lookup name = some (s.pinned name d) := by
  cases hmap : s.storage.uniqueMap.lookup name with
  | some existing => simp [pinned, settle, h, hmap]
  | none => simp [pinned, settle, h, hmap, withUnique, lookup_append]

theorem pinned_of_recorded {existing : ObjectSymbol} (h : d.sym.bind = .stbGnuUnique)
    (hmap : s.storage.uniqueMap.lookup name = some existing) : s.pinned name d = existing := by
  simp [pinned, settle, h, hmap]

/-- A definition that has been settled stands for the same one ever after. -/
theorem pinned_lookups_settle (d : ObjectSymbol)
    (queries : List (Option ObjId × Name × LookupPolicy)) :
    ((s.settle name d).2.lookups queries).pinned name d = s.pinned name d := by
  by_cases hunique : d.sym.bind = .stbGnuUnique
  · obtain ⟨new, hnew⟩ := lookups_changes (s := (s.settle name d).2) queries
    rw [hnew]
    refine pinned_of_recorded hunique ?_
    simp [withUnique, lookup_append, lookup_uniqueMap_settle hunique]
  · simp [pinned, settle_of_not_unique hunique]

/-- Two objects for which the global scope decides find the same definition. -/
theorem lookup_lookups_fst {o₁ o₂ : ObjId} (queries : List (Option ObjId × Name × LookupPolicy))
    (h₁ : s.Uncontested name o₁) (h₂ : s.Uncontested name o₂)
    (hd₁ : s.GlobalDecides name o₁) (hd₂ : s.GlobalDecides name o₂) :
    (((s.lookup (some o₁) name .none).2.lookups queries).lookup (some o₂) name .none).1 =
      (s.lookup (some o₁) name .none).1 := by
  -- the scopes are those of before, whatever has been recorded in between
  have hsame : ∃ u, (s.lookup (some o₁) name .none).2.lookups queries = s.withUnique u := by
    obtain ⟨new, hnew⟩ := lookup_changes (s := s) (some o₁) name .none
    obtain ⟨new', hnew'⟩ := lookups_changes (s := (s.lookup (some o₁) name .none).2) queries
    rw [hnew] at hnew'
    rw [hnew]
    exact ⟨_, hnew'⟩
  have hlater : (((s.lookup (some o₁) name .none).2.lookups queries).lookup (some o₂) name
        .none).1 =
      (s.interposed name o₂).map
        (((s.lookup (some o₁) name .none).2.lookups queries).pinned name) := by
    obtain ⟨u, hu⟩ := hsame
    rw [hu]
    exact Uncontested.lookup_fst (s := s.withUnique u) h₂
  rw [hlater, h₁.lookup_fst, hd₁.interposed_eq, hd₂.interposed_eq]
  cases hd : prefer ObjectSymbol.isStrong (s.definitions name s.storage.globalScope) with
  | none => rfl
  | some d =>
    have hfirst : (s.lookup (some o₁) name .none).2 = (s.settle name d).2 := by
      rw [h₁.lookup_eq, hd₁.interposed_eq, hd]
    rw [hfirst, Option.map_some, Option.map_some, pinned_lookups_settle]

end Loader

/-! ### Interposition -/

/-- What ordinary relocations of different objects are resolved to.

An object finds the first strong definition of the global scope followed by its
own scope, or else the first one, unless its own definition is contested. Where
the global scope decides, two such objects find the same definition, and any
lookups may come in between. Whether an object has a definition itself or not, it
finds that of another one which is the first strong one in the global scope. -/
theorem lookup_interposition (s : Loader) (name : Name) :
    (∀ id, s.Uncontested name id →
      (s.lookup (some id) name .none).1 = (s.interposed name id).map (s.pinned name)) ∧
    (∀ o₁ o₂ queries, s.Uncontested name o₁ → s.Uncontested name o₂ →
      s.GlobalDecides name o₁ → s.GlobalDecides name o₂ →
      let first := s.lookup (some o₁) name .none
      let second := (first.2.lookups queries).lookup (some o₂) name .none
      second.1 = first.1 ∧
        first.1 = (prefer ObjectSymbol.isStrong
          (s.definitions name s.storage.globalScope)).map (s.pinned name)) ∧
    ∀ id d, (s.definitions name s.storage.globalScope).find? (·.isStrong) = some d →
      d.object ≠ id → (s.lookup (some id) name .none).1 = some (s.pinned name d) := by
  refine ⟨fun id h => h.lookup_fst, fun o₁ o₂ queries h₁ h₂ hd₁ hd₂ => ⟨?_, ?_⟩,
    fun id d hfirst hne => ?_⟩
  · exact Loader.lookup_lookups_fst queries h₁ h₂ hd₁ hd₂
  · rw [h₁.lookup_fst, hd₁.interposed_eq]
  · rw [(Loader.uncontested_of_find? hfirst hne).lookup_fst,
      (Loader.globalDecides_of_find? hfirst).interposed_eq, prefer_of_find? hfirst, Option.map_some]

/-- Two libraries, `a` and `b`, with a definition of `f` each. -/
def bothDefineF : Env :=
  .ofLibraries fun name =>
    if name = ['a'] then some (.library ['a'] [] [⟨['f'], .stbGlobal, false, 16⟩])
    else if name = ['b'] then some (.library ['b'] [] [⟨['f'], .stbGlobal, false, 32⟩]) else none

/-- The executable and `b` find the definition of `a`, which is loaded first. Only
`a` does not: its own definition is passed over, and it finds that of `b`. -/
theorem lookup_interposition_bothDefineF :
    ∃ s d, startup bothDefineF 16 (.program [['a'], ['b']] []) .libc = some (.success s) ∧
      d.object = 2 ∧ (s.lookup (some 2) ['f'] .none).1.map (·.object) = some 3 ∧
      (s.lookup (some 0) ['f'] .none).1 = some d ∧
      (((s.lookup (some 0) ['f'] .none).2.lookups []).lookup (some 3) ['f'] .none).1 =
        (s.lookup (some 0) ['f'] .none).1 ∧
      (s.lookup (some 3) ['f'] .none).1 = some d := by
  refine ⟨_, ⟨2, ⟨['f'], .stbGlobal, false, 16⟩⟩, rfl, rfl, ?_, ?_, ?_, ?_⟩
  · rw [Loader.lookup_others (d := ⟨3, ⟨['f'], .stbGlobal, false, 32⟩⟩) rfl]
    rfl
  · exact (lookup_interposition _ ['f']).1 0 (Loader.uncontested_of_find? rfl (by decide))
  · exact ((lookup_interposition _ ['f']).2.1 0 3 [] (Loader.uncontested_of_find? rfl (by decide))
      (Loader.uncontested_of_find? rfl (by decide)) (Loader.globalDecides_of_find? rfl)
      (Loader.globalDecides_of_find? rfl)).1
  · refine (lookup_interposition _ ['f']).2.2 3 ⟨2, ⟨['f'], .stbGlobal, false, 16⟩⟩ ?_ ?_
    · rfl
    · decide

/-- A weak and an ordinary reference to `f`. -/
def weakF : Sym := ⟨['f'], .stbWeak, true, 0⟩

def needsF : Sym := ⟨['f'], .stbGlobal, true, 0⟩

/-- A library `a` with a definition of `f`, a library `b` that needs `a` and refers
to `f`, and a library `w` that refers to `f` weakly. -/
def bRefersToF : Env :=
  .ofLibraries fun name =>
    if name = ['a'] then some (.library ['a'] [] [⟨['f'], .stbGlobal, false, 16⟩])
    else if name = ['b'] then
      some { File.library ['b'] [['a']] [needsF] with relocs := [⟨.globDat, some needsF⟩] }
    else if name = ['w'] then
      some { File.library ['w'] [] [weakF] with relocs := [⟨.globDat, some weakF⟩] }
    else none

/-- When `a` has been opened locally it stays out of the global scope, also when
`b` is opened globally. Nothing in the scope defines `f`, and the reference of `w`
is resolved to nothing, but that of `b` to the definition of its dependency. -/
theorem lookup_localDependency :
    ∃ s s' s'' a b,
      startup bRefersToF 16 (.program [['w']] []) .libc = some (.success s) ∧
      dlapiOpen bRefersToF 16 (some ['a']) ⟨false, false⟩ 0 s = some (.handle a s') ∧
      dlapiOpen bRefersToF 16 (some ['b']) ⟨false, true⟩ 0 s' = some (.handle b s'') ∧
      2 ∈ s''.storage.globalScope ∧ b ∈ s''.storage.globalScope ∧
      (s''.obj 2).relocs = [⟨.globDat, some weakF⟩] ∧
      (s''.obj b).relocs = [⟨.globDat, some needsF⟩] ∧
      (s''.obj 2).symbolicResolution = false ∧ (s''.obj b).symbolicResolution = false ∧
      s''.definitions ['f'] s''.storage.globalScope = [] ∧
      (s''.lookup (some 2) ['f'] .none).1 = none ∧
      (s''.lookup (some b) ['f'] .none).1 = some ⟨a, ⟨['f'], .stbGlobal, false, 16⟩⟩ := by
  refine ⟨_, _, _, _, _, rfl, rfl, rfl, ?_⟩
  decide

end Hzlibc.Rtld
