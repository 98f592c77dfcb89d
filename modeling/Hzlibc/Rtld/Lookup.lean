import Hzlibc.Rtld.Storage
import Hzlibc.Search.Breadth

/-!
Symbol lookup.

`lookup` searches up to four places one after the other: the referencing object
itself, the global scope, the object's dependencies in breadth-first order, and
the objects it opened for itself. In each of them it treats an object the same
way (`consider`): a strong definition ends the search, a weak one is kept if it
is the first. Ending the search early is an exception that carries the answer.

`lookup_none` is the whole function for the policy ordinary relocations use:
the places are one list of definitions, and the answer is its first strong
member, or else its head.
-/

namespace Hzlibc.Rtld

open Search List

inductive LookupPolicy
  | none
  | symbolic
  | ignoreLocal
  | localAndDeps
  deriving DecidableEq

namespace Loader

variable (s : Loader)

/-- The definition of the name that an object offers to others. -/
def definition (name : Name) (id : ObjId) : Option ObjectSymbol :=
  match (s.obj id).lookup name with
  | none => none
  | some sym => if sym.undef ∨ sym.bind = .stbLocal then none else some ⟨id, sym⟩

/-- A strong definition as the search returns it. A unique one gives way to the
definition that was recorded first for the name, and is recorded if there was
none. -/
def settle (name : Name) (d : ObjectSymbol) : ObjectSymbol × Loader :=
  match d.sym.bind with
  | .stbGnuUnique =>
    match s.storage.uniqueMap.lookup name with
    | some existing => (existing, s)
    | none => (d, s.withUnique (s.storage.uniqueMap ++ [(name, d)]))
  | _ => (d, s)

/-- What `lookup` does with one object. -/
def consider (name : Name) (res : Option ObjectSymbol) (id : ObjId) :
    Except (ObjectSymbol × Loader) (Option ObjectSymbol) :=
  match s.definition name id with
  | none => .ok res
  | some d =>
    match d.sym.bind with
    -- only the first weak definition is kept, and a strong one still wins
    | .stbWeak => .ok (res.or (some d))
    | _ => .error (s.settle name d)

/-- A walk over dependencies reads no more objects than there are dependency
entries, and the one it starts with. -/
def walkBound : ℕ := (s.heap.flatMap (·.dependencies)).length + 1

/-- The object itself when it was linked to prefer its own definitions. -/
def searchSymbolic (loc : Option ObjId) (name : Name) (policy : LookupPolicy) :
    Except (ObjectSymbol × Loader) (Option ObjectSymbol) :=
  match loc with
  | none => .ok none
  | some l => if policy = .symbolic then s.consider name none l else .ok none

/-- The global scope; the object the lookup is made for is passed over. -/
def searchGlobal (loc : Option ObjId) (name : Name) (res : Option ObjectSymbol) :
    Except (ObjectSymbol × Loader) (Option ObjectSymbol) :=
  s.storage.globalScope.foldlM
    (fun res o => if some o = loc then .ok res else s.consider name res o) res

/-- The part from the label `local_and_deps` on. -/
def searchOwn (loc : Option ObjId) (name : Name) (policy : LookupPolicy)
    (res : Option ObjectSymbol) : Except (ObjectSymbol × Loader) (Option ObjectSymbol) :=
  match loc with
  | none => .ok res
  | some l =>
    foldWalk (fun o => (s.obj o).dependencies) (s.consider name) s.walkBound 0 [l] res >>=
      fun res =>
        if policy = .localAndDeps then .ok res
        else (s.obj l).localScope.foldlM (s.consider name) res

/-- The places `lookup` searches, one after the other. -/
def search (loc : Option ObjId) (name : Name) (policy : LookupPolicy) :
    Except (ObjectSymbol × Loader) (Option ObjectSymbol) :=
  if policy = .localAndDeps then s.searchOwn loc name policy none
  else
    s.searchSymbolic loc name policy >>= s.searchGlobal loc name >>=
      s.searchOwn loc name policy

def lookup (loc : Option ObjId) (name : Name) (policy : LookupPolicy) :
    Option ObjectSymbol × Loader :=
  match s.search loc name policy with
  | .error (d, s') => (some d, s')
  | .ok res => (res, s)

/-! ### The search as a list -/

/-- The definitions a list of objects offers, in its order. -/
def definitions (name : Name) (ids : List ObjId) : List ObjectSymbol :=
  ids.filterMap (s.definition name)

/-- An object and its dependencies in breadth-first order. -/
def dependencyWalk (id : ObjId) : List ObjId :=
  walk (fun o => (s.obj o).dependencies) s.walkBound 0 [id]

/-- Where an object finds definitions after the global scope. -/
def ownScope (id : ObjId) : List ObjId :=
  s.dependencyWalk id ++ (s.obj id).localScope

end Loader

def ObjectSymbol.isStrong (d : ObjectSymbol) : Bool := d.sym.bind ≠ .stbWeak

namespace Loader

variable {s : Loader}

theorem settle_of_not_unique {name : Name} {d : ObjectSymbol} (h : d.sym.bind ≠ .stbGnuUnique) :
    s.settle name d = (d, s) := by
  unfold settle
  split
  next hbind => exact absurd hbind h
  · rfl

theorem foldlM_consider (name : Name) (ids : List ObjId) (res : Option ObjectSymbol) :
    ids.foldlM (s.consider name) res =
      match (s.definitions name ids).find? (·.isStrong) with
      | some d => .error (s.settle name d)
      | none => .ok (res.or (s.definitions name ids).head?) := by
  induction ids generalizing res with
  | nil => simp [definitions]; rfl
  | cons id ids ih =>
    rw [foldlM_cons]
    cases hd : s.definition name id with
    | none =>
      have hc : s.consider name res id = .ok res := by simp [consider, hd]
      simp only [hc, definitions, filterMap_cons, hd]
      exact ih res
    | some d =>
      simp only [definitions, filterMap_cons, hd, List.find?_cons]
      by_cases hw : d.sym.bind = .stbWeak
      · have hc : s.consider name res id = .ok (res.or (some d)) := by
          simp [consider, hd, hw]
        simp only [hc, ObjectSymbol.isStrong, hw, ne_eq, not_true, decide_false]
        refine (ih _).trans ?_
        cases res <;> rfl
      · have hc : s.consider name res id = .error (s.settle name d) := by
          simp [consider, hd]
        simp [hc, ObjectSymbol.isStrong, hw]
        rfl

variable (id : ObjId)

/-- The bound of the walk does not cut it short. -/
theorem length_dependencyWalk_le : (s.dependencyWalk id).length ≤ s.walkBound := by
  have hnext : ∀ o, (s.obj o).dependencies ⊆ id :: s.heap.flatMap (·.dependencies) := by
    intro o dep hdep
    cases ho : s.heap[o]? with
    | none =>
      have hnil : (s.obj o).dependencies = [] := by
        simp only [obj, ho]
        rfl
      rw [hnil] at hdep
      cases hdep
    | some object =>
      simp [obj, ho] at hdep
      exact mem_cons_of_mem _
        (mem_flatMap.mpr ⟨object, mem_of_getElem? ho, hdep⟩)
  exact length_walk_le hnext s.walkBound 0 (nodup_singleton id) (by simp)

section

variable (f : Option ObjectSymbol → ObjId → Except (ObjectSymbol × Loader) (Option ObjectSymbol))
include f

theorem foldWalk_dependencies (res : Option ObjectSymbol) :
    foldWalk (fun o => (s.obj o).dependencies) f s.walkBound 0 [id] res =
      (s.dependencyWalk id).foldlM f res := by
  have hlen := s.length_dependencyWalk_le id
  rw [foldWalk_eq f s.walkBound 0 [id] res (by simpa [dependencyWalk] using hlen)]
  rfl

/-- Passing over the referencing object is searching the other ones. -/
theorem foldlM_others (ids : List ObjId) (res : Option ObjectSymbol) :
    ids.foldlM (fun res o => if some o = some id then .ok res else f res o) res =
      (ids.filter (· ≠ id)).foldlM f res := by
  induction ids generalizing res with
  | nil => rfl
  | cons o ids ih =>
    rw [foldlM_cons]
    by_cases ho : o = id
    · rw [filter_cons_of_neg (by simpa using ho), if_pos (congrArg some ho)]
      exact ih res
    · rw [filter_cons_of_pos (by simpa using ho), if_neg (by simpa using ho)]
      exact congrArg (f res o).bind (funext ih)

end

/-- The objects an ordinary relocation of `id` is resolved against, in order:
the global scope without the object itself comes first. -/
def searchOrder (s : Loader) (id : ObjId) : List ObjId :=
  s.storage.globalScope.filter (· ≠ id) ++ s.ownScope id

theorem searchOwn_none (name : Name) (res : Option ObjectSymbol) :
    s.searchOwn (some id) name .none res = (s.ownScope id).foldlM (s.consider name) res := by
  simp [searchOwn, foldWalk_dependencies, ownScope]

theorem search_none (name : Name) :
    s.search (some id) name .none = (s.searchOrder id).foldlM (s.consider name) none := by
  calc s.search (some id) name .none
      = s.searchGlobal (some id) name none >>= s.searchOwn (some id) name .none := rfl
    _ = (s.storage.globalScope.filter (· ≠ id)).foldlM (s.consider name) none >>=
          (s.ownScope id).foldlM (s.consider name) := by
        rw [searchGlobal, foldlM_others, funext (searchOwn_none id name)]
    _ = (s.searchOrder id).foldlM (s.consider name) none := by
        rw [searchOrder, foldlM_append]

/-- The lookup of an ordinary relocation: the first strong definition in search
order, or else the first one. -/
theorem lookup_none (name : Name) :
    s.lookup (some id) name .none =
      match (s.definitions name (s.searchOrder id)).find? (·.isStrong) with
      | some d => (some (s.settle name d).1, (s.settle name d).2)
      | none => ((s.definitions name (s.searchOrder id)).head?, s) := by
  rw [lookup, search_none, foldlM_consider]
  cases (s.definitions name (s.searchOrder id)).find? (·.isStrong) with
  | none | some d => rfl

/-! ### What a lookup changes -/

/-- A search that ends early has at most recorded a unique definition. -/
def OnlyRecords (s : Loader) {β : Type} (r : Except (ObjectSymbol × Loader) β) : Prop :=
  ∀ d s', r = .error (d, s') → ∃ new, s' = s.withUnique (s.storage.uniqueMap ++ new)

theorem onlyRecords_ok {β : Type} (b : β) : OnlyRecords s (.ok b) := by
  intro d s' h
  cases h

theorem OnlyRecords.bind {β γ : Type} {r : Except (ObjectSymbol × Loader) β}
    {f : β → Except (ObjectSymbol × Loader) γ} (hr : OnlyRecords s r)
    (hf : ∀ b, OnlyRecords s (f b)) : OnlyRecords s (r >>= f) := by
  intro d s' h
  cases r with
  | error e =>
    cases h
    exact hr d s' rfl
  | ok b => exact hf b d s' h

theorem onlyRecords_settle (name : Name) (d : ObjectSymbol) :
    ∃ new, (s.settle name d).2 = s.withUnique (s.storage.uniqueMap ++ new) := by
  have hsame : s = s.withUnique (s.storage.uniqueMap ++ []) := by
    rw [append_nil]
    rfl
  simp only [settle]
  split
  · split
    · exact ⟨[], hsame⟩
    · exact ⟨[(name, d)], rfl⟩
  · exact ⟨[], hsame⟩

theorem onlyRecords_consider (name : Name) (res : Option ObjectSymbol) (id : ObjId) :
    OnlyRecords s (s.consider name res id) := by
  simp only [consider]
  split
  · exact onlyRecords_ok _
  next d _ =>
    split
    · exact onlyRecords_ok _
    · intro d' s' h
      obtain ⟨new, hnew⟩ := onlyRecords_settle (s := s) name d
      exact ⟨new, (congrArg Prod.snd (Except.error.inj h)).symm.trans hnew⟩

theorem onlyRecords_foldlM {f : Option ObjectSymbol → ObjId →
      Except (ObjectSymbol × Loader) (Option ObjectSymbol)}
    (hf : ∀ res id, OnlyRecords s (f res id)) (ids : List ObjId) (res : Option ObjectSymbol) :
    OnlyRecords s (ids.foldlM f res) := by
  induction ids generalizing res with
  | nil => exact onlyRecords_ok res
  | cons id ids ih =>
    exact (hf res id).bind ih

variable (loc : Option ObjId)

theorem onlyRecords_searchOwn (name : Name) (policy : LookupPolicy)
    (res : Option ObjectSymbol) : OnlyRecords s (s.searchOwn loc name policy res) := by
  have hc := onlyRecords_consider (s := s) name
  simp only [searchOwn]
  split
  · exact onlyRecords_ok res
  · rw [foldWalk_dependencies]
    refine (onlyRecords_foldlM hc _ res).bind fun res => ?_
    split
    · exact onlyRecords_ok res
    · exact onlyRecords_foldlM hc _ res

theorem onlyRecords_search (name : Name) (policy : LookupPolicy) :
    OnlyRecords s (s.search loc name policy) := by
  have hsymbolic : OnlyRecords s (s.searchSymbolic loc name policy) := by
    simp only [searchSymbolic]
    split
    · exact onlyRecords_ok none
    · split
      · exact onlyRecords_consider name _ _
      · exact onlyRecords_ok none
  have hglobal : ∀ res, OnlyRecords s (s.searchGlobal loc name res) := by
    refine onlyRecords_foldlM (fun res id => ?_) _
    split
    · exact onlyRecords_ok res
    · exact onlyRecords_consider name res id
  simp only [search]
  split
  · exact onlyRecords_searchOwn loc name policy none
  · exact (hsymbolic.bind hglobal).bind (onlyRecords_searchOwn loc name policy)

theorem lookup_changes (name : Name) (policy : LookupPolicy) :
    ∃ new, (s.lookup loc name policy).2 = s.withUnique (s.storage.uniqueMap ++ new) := by
  simp only [lookup]
  split
  next d s' h => exact onlyRecords_search loc name policy d s' h
  · exact ⟨[], by rw [append_nil]; rfl⟩

end Loader

end Hzlibc.Rtld
