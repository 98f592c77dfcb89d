import Hzlibc.Rtld.Relocate

/-!
Relocation, item by item.

`relocate_libc` and `relocate` go through the same tables in the same order: an item is an entry
that is not left for later, or a place that a RELR entry names. Each of the two functions is one
loop over the items.
-/

namespace Hzlibc.Relocation

open Memory List Option
open Rtld (Name)

variable {n : ℕ} {σ : Type*}

/-- Something to relocate: an entry, or a place that a RELR entry names. -/
inductive Item (n : ℕ)
  | rela (e : Rela n)
  | relr (addr : Addr n)
  | rel (e : Rel n)

def relaItems (entries : List (Rela n)) : List (Item n) :=
  (entries.filter fun e => !e.late).map .rela

def relItems (entries : List (Rel n)) : List (Item n) :=
  (entries.filter fun e => !e.late).map .rel

def Image.pltItems (im : Image n) : Option (List (Item n)) :=
  match im.plt with
  | .none => some []
  | .rela entries => some (relaItems entries)
  | .rel entries => some (relItems entries)
  | .unknown => none

/-- What is to be relocated, unless a table is malformed. -/
def Image.items (im : Image n) : Option (List (Item n)) :=
  (relrPlaces im.object.base im.relr none).bind fun places =>
    im.pltItems.map fun plt =>
      relaItems im.rela ++ (places.map .relr ++ (relItems im.rel ++ plt))

/-- The number of words that an entry writes. -/
def Rel.size (e : Rel n) : ℕ := if e.type = .tlsdesc then 2 else 1

/-- The bytes that an item writes. -/
def Image.footprint (im : Image n) : Item n → Addr n → Prop
  | .rela e => Spans (im.target e.toRel) e.size
  | .relr addr => Spans addr 1
  | .rel e => Spans (im.target e) e.size

/-- No two items write to the same byte. -/
def Image.NoOverlap (im : Image n) (items : List (Item n)) : Prop :=
  items.Pairwise fun i j => ∀ y, im.footprint i y → ¬im.footprint j y

/-- The implicit addend of an entry with a symbol. -/
def Image.addendOf (im : Image n) (m : Mem n) : Item n → List (Addr n)
  | .rel e => if e.symIndex ≠ 0 then [read m (im.target e)] else []
  | .rela _ | .relr _ => []

variable {im : Image n} {own : Name → Option (Addr n)} {lookup : Lookup n σ}
  {items : List (Item n)}

/-! ### The loops, item by item -/

def itemStepLibc (im : Image n) (own : Name → Option (Addr n))
    (x : State n σ × List (Addr n)) : Item n → Option (State n σ × List (Addr n))
  | .rela e => (relocateEntry im (ownLookup im own) e.toRel e.addend x.1).map (·, x.2)
  | .relr addr => some (relrStep im x.1 addr, x.2)
  | .rel e =>
    if e.symIndex ≠ 0 ∧ maxSavedLibcRelAddends ≤ x.2.length then none
    else (relocateEntry im (ownLookup im own) e (read x.1.mem (im.target e)) x.1).map
      (·, x.2 ++ im.addendOf x.1.mem (.rel e))

/-- The items of `relocate` when no addends are saved. -/
def itemStep (im : Image n) (lookup : Lookup n σ) (st : State n σ) : Item n → Option (State n σ)
  | .rela e => relocateEntry im lookup e.toRel e.addend st
  | .relr addr => some (relrStep im st addr)
  | .rel e => relocateEntry im lookup e (read st.mem (im.target e)) st

/-- The items of `relocate` when addends are saved. -/
def itemStepSaved (im : Image n) (lookup : Lookup n σ) (saved : List (Addr n))
    (x : State n σ × ℕ) : Item n → Option (State n σ × ℕ)
  | .rela e => (relocateEntry im lookup e.toRel e.addend x.1).map (·, x.2)
  | .relr _ => some x
  | .rel e =>
    if e.symIndex ≠ 0 then
      saved[x.2]?.bind fun addend => (relocateEntry im lookup e addend x.1).map (·, x.2 + 1)
    else some x

/-- A loop over one part of the state. -/
theorem foldlM_part {α S κ : Type*} (f : S → α → Option S) (l : List α) (x : S × κ) :
    l.foldlM (fun x a => (f x.1 a).map (·, x.2)) x = (l.foldlM f x.1).map (·, x.2) := by
  induction l generalizing x with
  | nil => rfl
  | cons a l ih =>
    rw [foldlM_cons, foldlM_cons]
    cases hf : f x.1 a with
    | none => rfl
    | some s => exact ih (s, x.2)

theorem foldlM_relaItems {κ : Type*} {g : State n σ × κ → Item n → Option (State n σ × κ)}
    (hg : ∀ x e, g x (.rela e) = (relocateEntry im lookup e.toRel e.addend x.1).map (·, x.2))
    (entries : List (Rela n)) (x : State n σ × κ) :
    (relaItems entries).foldlM g x = (entries.foldlM (relaStep im lookup) x.1).map (·, x.2) := by
  rw [← foldlM_part, relaItems, foldlM_map, foldlM_filter]
  congr
  funext x e
  rw [hg, relaStep]
  cases e.late <;> rfl

theorem foldlM_relItems {S : Type*} {f : S → Rel n → Option S} {g : S → Item n → Option S}
    (hfg : ∀ x e, f x e = if e.late then some x else g x (.rel e)) (entries : List (Rel n))
    (x : S) : (relItems entries).foldlM g x = entries.foldlM f x := by
  rw [relItems, foldlM_map, foldlM_filter]
  congr
  funext x e
  rw [hfg]
  cases e.late <;> rfl

theorem relStepLibc_eq (x : State n σ × List (Addr n)) (e : Rel n) :
    relStepLibc im own x e = if e.late then some x else itemStepLibc im own x (.rel e) := by
  unfold relStepLibc itemStepLibc Image.addendOf
  by_cases hsym : e.symIndex = 0
  · simp [hsym]
  · rcases Nat.lt_or_ge x.2.length maxSavedLibcRelAddends with hroom | hfull
    · simp [hsym, hroom, Nat.not_le.mpr hroom]
    · simp [hsym, hfull, Nat.not_lt.mpr hfull]

theorem foldlM_relr {κ : Type*} {g : State n σ × κ → Item n → Option (State n σ × κ)}
    (hg : ∀ x addr, g x (.relr addr) = some (relrStep im x.1 addr, x.2)) (places : List (Addr n))
    (x : State n σ × κ) :
    (places.map .relr).foldlM g x = some (places.foldl (relrStep im) x.1, x.2) := by
  induction places generalizing x with
  | nil => rfl
  | cons addr places ih =>
    rw [map_cons, foldlM_cons, hg]
    exact ih _

/-- The loop over the entries for the procedure linkage table. -/
def pltPass {κ : Type*} (im : Image n) (lookup : Lookup n σ)
    (f : State n σ × κ → Rel n → Option (State n σ × κ)) (x : State n σ × κ) :
    Option (State n σ × κ) :=
  match im.plt with
  | .none => some x
  | .rela entries => (entries.foldlM (relaStep im lookup) x.1).map (·, x.2)
  | .rel entries => entries.foldlM f x
  | .unknown => none

section

variable (hitems : im.items = some items)
include hitems

/-- The items are gone through as the tables are, one table after the other. -/
theorem foldlM_items {κ : Type*} {g : State n σ × κ → Item n → Option (State n σ × κ)}
    {f : State n σ × κ → Rel n → Option (State n σ × κ)}
    (hrela : ∀ x e, g x (.rela e) = (relocateEntry im lookup e.toRel e.addend x.1).map (·, x.2))
    (hrel : ∀ x e, f x e = if e.late then some x else g x (.rel e)) (x : State n σ × κ) :
    ∃ places, relrPlaces im.object.base im.relr none = some places ∧
      items.foldlM g x = (im.rela.foldlM (relaStep im lookup) x.1).bind fun st =>
        ((places.map .relr).foldlM g (st, x.2)).bind fun y =>
          (im.rel.foldlM f y).bind (pltPass im lookup f) := by
  obtain ⟨places, hplaces, h⟩ := bind_eq_some_iff.mp hitems
  obtain ⟨plt, hplt, hitems⟩ := map_eq_some_iff.mp h
  have hpltPass : pltPass im lookup f = fun y => plt.foldlM g y := by
    funext y
    unfold Image.pltItems at hplt
    unfold pltPass
    cases hp : im.plt with
    | none => rw [hp] at hplt; cases hplt; rfl
    | rela entries => rw [hp] at hplt; cases hplt; exact (foldlM_relaItems hrela entries y).symm
    | rel entries => rw [hp] at hplt; cases hplt; exact (foldlM_relItems hrel entries y).symm
    | unknown => rw [hp] at hplt; cases hplt
  refine ⟨places, hplaces, ?_⟩
  simp [← hitems, foldlM_relaItems hrela, foldlM_relItems hrel, hpltPass, bind_map]

omit hitems in
/-- Where both functions end. -/
def finish {κ : Type*} (x : State n σ × κ) : Option (State n σ × κ) :=
  if x.1.hasUnresolvedSymbols then none else some x

theorem relocateLibc_eq (st : State n σ) :
    relocateLibc im own st =
      (items.foldlM (itemStepLibc im own) ({ st with hasUnresolvedSymbols := false }, [])).bind
        finish := by
  obtain ⟨places, hplaces, h⟩ := foldlM_items (g := itemStepLibc im own) hitems
    (fun _ _ => rfl) relStepLibc_eq ({ st with hasUnresolvedSymbols := false }, [])
  rw [h]
  simp only [relocateLibc, relrLoop, hplaces, foldlM_relr (g := itemStepLibc im own) fun _ _ => rfl,
    bind_eq_bind, bind_assoc, map_some, bind_some]
  rfl

theorem relocate_some_eq (saved : List (Addr n)) (st : State n σ) :
    relocate im lookup (some saved) st =
      (items.foldlM (itemStepSaved im lookup saved)
        ({ st with hasUnresolvedSymbols := false }, 0)).bind finish := by
  obtain ⟨places, -, h⟩ := foldlM_items (g := itemStepSaved im lookup saved) hitems
    (fun _ _ => rfl) (fun _ _ => rfl) ({ st with hasUnresolvedSymbols := false }, 0)
  have hrelr (x : State n σ × ℕ) :
      (places.map .relr).foldlM (itemStepSaved im lookup saved) x = some x := by
    clear h
    induction places with
    | nil => rfl
    | cons addr places ih => exact ih
  rw [h]
  simp only [relocate, hrelr, bind_eq_bind, bind_assoc, bind_some]
  rfl

theorem relocate_none_eq (st : State n σ) :
    relocate im lookup none st =
      (items.foldlM (itemStep im lookup) { st with hasUnresolvedSymbols := false }).bind
        fun st => finish (st, 0) := by
  let g (x : State n σ × ℕ) (i : Item n) := (itemStep im lookup x.1 i).map (·, x.2)
  obtain ⟨places, hplaces, h⟩ := foldlM_items (g := g) hitems
    (fun _ _ => rfl) (fun _ _ => rfl) ({ st with hasUnresolvedSymbols := false }, 0)
  calc relocate im lookup none st
    _ = (items.foldlM g ({ st with hasUnresolvedSymbols := false }, 0)).bind finish := by
        rw [h]
        simp only [relocate, relrLoop, hplaces, foldlM_relr (g := g) fun _ _ => rfl, isNone_none,
          if_true, bind_eq_bind, bind_assoc, map_some, bind_some]
        rfl
    _ = _ := by
        rw [foldlM_part (itemStep im lookup), bind_map]
        rfl

end

theorem exists_items {st : State n σ} {x : State n σ × List (Addr n)}
    (h : relocateLibc im own st = some x) : ∃ items, im.items = some items := by
  obtain ⟨_, -, h⟩ := bind_eq_some_iff.mp h
  obtain ⟨_, hrelr, h⟩ := bind_eq_some_iff.mp h
  obtain ⟨_, -, h⟩ := bind_eq_some_iff.mp h
  obtain ⟨_, hplt, -⟩ := bind_eq_some_iff.mp h
  obtain ⟨places, hplaces, -⟩ := map_eq_some_iff.mp hrelr
  obtain ⟨plt, hplt⟩ : ∃ plt, im.pltItems = some plt := by
    unfold pltLoopLibc at hplt
    unfold Image.pltItems
    cases hp : im.plt
    case unknown => rw [hp] at hplt; cases hplt
    all_goals exact ⟨_, rfl⟩
  rw [Image.items, hplaces, hplt]
  exact ⟨_, rfl⟩

end Hzlibc.Relocation
