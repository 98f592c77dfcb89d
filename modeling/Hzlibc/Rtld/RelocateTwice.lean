import Hzlibc.Rtld.RelocateItems

/-!
Relocating the libc twice is relocating it once.

If no two items write to the same place, what an item finds there is what was there at first,
however many came before it. The second time, an entry with a symbol or with an explicit addend is
written anew, and the others already are what they would have become.
-/

namespace Hzlibc.Relocation

open Memory List Option
open Rtld (Name)

variable {n : ℕ} {σ : Type*} {im : Image n} {own : Name → Option (Addr n)} {lookup : Lookup n σ}
  {items : List (Item n)}

/-! ### One entry -/

section Entry

variable {e : Rel n} {addend : Addr n} {resolved : Option (ObjectSymbol n)} {count : ℕ}
  {words : List (Addr n)} {data : Option (TlsdescData n)} {st st' : State n σ}

theorem outcome_length (h : outcome im e addend resolved count = .writes words data) :
    words.length = e.size := by
  unfold outcome symbolWord tlsdescWords at h
  unfold Rel.size
  grind

/-- No descriptor is allocated for the storage of the libc itself. -/
theorem outcome_data (hmodel : im.object.initialTlsModel = true)
    (hown : ∀ r ∈ resolved, r.object = im.object)
    (h : outcome im e addend resolved count = .writes words data) : data = none := by
  unfold outcome symbolWord tlsdescWords at h
  grind

theorem outcome_count (hmodel : im.object.initialTlsModel = true) (count count' : ℕ) :
    outcome im e addend none count = outcome im e addend none count' := by
  unfold outcome tlsdescWords
  simp [hmodel]

/-- The symbol of an entry, if it has one and it is found. -/
def resolve (im : Image n) (lookup : Lookup n σ) (e : Rel n) (storage : σ) :
    Option (ObjectSymbol n) × σ :=
  if e.symIndex ≠ 0 then lookup (im.symtab e.symIndex).name storage else (none, storage)

theorem relocateEntry_eq : relocateEntry im lookup e addend st =
    processRelocation im e addend (resolve im lookup e st.storage).1
      { st with storage := (resolve im lookup e st.storage).2 } := by
  unfold relocateEntry resolve
  split <;> rfl

/-- The entry writes these words, and with them it may allocate a descriptor. -/
def Writes (im : Image n) (lookup : Lookup n σ) (e : Rel n) (addend : Addr n) (st : State n σ)
    (words : List (Addr n)) (data : Option (TlsdescData n)) : Prop :=
  outcome im e addend (resolve im lookup e st.storage).1 st.tlsDescs.length = .writes words data

theorem Writes.relocateEntry (h : Writes im lookup e addend st words data) :
    relocateEntry im lookup e addend st = some { st with
      mem := writeWords st.mem (im.target e) words
      tlsDescs := st.tlsDescs ++ data.toList
      storage := (resolve im lookup e st.storage).2 } := by
  rw [relocateEntry_eq, processRelocation, h]

/-- An entry that does not fail writes its words. -/
theorem writes_of_relocateEntry (h : relocateEntry im lookup e addend st = some st')
    (hresolved : st'.hasUnresolvedSymbols = false) :
    ∃ words data, Writes im lookup e addend st words data ∧
      st' = ⟨writeWords st.mem (im.target e) words, st.tlsDescs ++ data.toList,
        (resolve im lookup e st.storage).2, false⟩ ∧ st.hasUnresolvedSymbols = false := by
  rw [relocateEntry_eq, processRelocation] at h
  cases houtcome : outcome im e addend (resolve im lookup e st.storage).1 st.tlsDescs.length with
  | panics => rw [houtcome] at h; cases h
  | unresolved => rw [houtcome] at h; cases h; cases hresolved
  | writes words data =>
    rw [houtcome] at h
    cases h
    have hbefore : st.hasUnresolvedSymbols = false := hresolved
    rw [hbefore]
    exact ⟨words, data, houtcome, rfl, rfl⟩

/-- What an entry of the libc does if its symbols are those of the libc. -/
theorem relocateEntry_own (hmodel : im.object.initialTlsModel = true)
    (h : relocateEntry im (ownLookup im own) e addend st = some st')
    (hresolved : st'.hasUnresolvedSymbols = false) :
    ∃ words, Writes im (ownLookup im own) e addend st words none ∧
      st' = { st with mem := writeWords st.mem (im.target e) words } := by
  obtain ⟨words, data, hwrites, rfl, hbefore⟩ := writes_of_relocateEntry h hresolved
  have hown : ∀ r ∈ (resolve im (ownLookup im own) e st.storage).1, r.object = im.object := by
    intro r hr
    unfold resolve ownLookup at hr
    split at hr
    · obtain ⟨value, -, rfl⟩ := map_eq_some_iff.mp hr
      rfl
    · cases hr
  obtain rfl : data = none := outcome_data hmodel hown hwrites
  refine ⟨words, hwrites, ?_⟩
  have hstorage : (resolve im (ownLookup im own) e st.storage).2 = st.storage := by
    unfold resolve ownLookup
    split <;> rfl
  rw [hstorage, toList_none, append_nil, ← hbefore]

end Entry

/-! ### The first time -/

theorem read_target {e : Rel n} {m m' : Mem n}
    (h : ∀ y, Spans (im.target e) e.size y → m y = m' y) :
    read m (im.target e) = read m' (im.target e) := by
  refine read_congr fun y hy => h y ?_
  unfold Rel.size
  split
  · exact .inl hy
  · exact .inl hy

/-- What an item without a symbol leaves in the memory `m`, if `m₀` was there before. -/
def Image.Done (im : Image n) (m₀ m : Mem n) : Item n → Prop
  | .rela _ => True
  | .relr addr => ∀ y, Spans addr 1 y → m y = writeWords m₀ addr [read m₀ addr + im.object.base] y
  | .rel e => e.symIndex = 0 → ∃ words,
      (∀ count, outcome im e (read m₀ (im.target e)) none count = .writes words none) ∧
        ∀ y, Spans (im.target e) e.size y → m y = writeWords m₀ (im.target e) words y

variable {i : Item n} {m₀ : Mem n}

theorem Image.Done.congr {m m' : Mem n} (h : im.Done m₀ m i)
    (hm : ∀ y, im.footprint i y → m' y = m y) : im.Done m₀ m' i := by
  cases i with
  | rela e => trivial
  | relr addr => exact fun y hy => (hm y hy).trans (h y hy)
  | rel e =>
    intro hsym
    obtain ⟨words, hwords, hmem⟩ := h hsym
    exact ⟨words, hwords, fun y hy => (hm y hy).trans (hmem y hy)⟩

/-- What `relocate_libc` does on its way through some items. -/
structure LibcRun (im : Image n) (m₀ : Mem n) (items : List (Item n))
    (x x' : State n σ × List (Addr n)) : Prop where
  tlsDescs : x'.1.tlsDescs = x.1.tlsDescs
  storage : x'.1.storage = x.1.storage
  saved : x'.2 = x.2 ++ items.flatMap (im.addendOf m₀)
  frame : ∀ y, (∀ i ∈ items, ¬im.footprint i y) → x'.1.mem y = x.1.mem y
  done : ∀ i ∈ items, im.Done m₀ x'.1.mem i

/-- A symbol that is missing stays missing. -/
theorem resolved_of_foldlM {κ : Type*} {g : State n σ × κ → Item n → Option (State n σ × κ)}
    (hg : ∀ x i x', g x i = some x' → x'.1.hasUnresolvedSymbols = false →
      x.1.hasUnresolvedSymbols = false) {x x' : State n σ × κ}
    (h : items.foldlM g x = some x') (hresolved : x'.1.hasUnresolvedSymbols = false) :
    x.1.hasUnresolvedSymbols = false := by
  induction items generalizing x with
  | nil => cases h; exact hresolved
  | cons i items ih =>
    obtain ⟨y, hy, h⟩ := bind_eq_some_iff.mp h
    exact hg x i y hy (ih h)

theorem resolved_of_entry {κ : Type*} {e : Rel n} {addend : Addr n} {st : State n σ} {k : κ}
    {x' : State n σ × κ} (h : (relocateEntry im lookup e addend st).map (·, k) = some x')
    (hresolved : x'.1.hasUnresolvedSymbols = false) : st.hasUnresolvedSymbols = false := by
  obtain ⟨st', hst', rfl⟩ := map_eq_some_iff.mp h
  obtain ⟨-, -, -, -, hbefore⟩ := writes_of_relocateEntry hst' hresolved
  exact hbefore

theorem resolved_of_itemStepLibc (x : State n σ × List (Addr n)) (i : Item n)
    (x' : State n σ × List (Addr n)) (h : itemStepLibc im own x i = some x')
    (hresolved : x'.1.hasUnresolvedSymbols = false) : x.1.hasUnresolvedSymbols = false := by
  cases i with
  | rela e => exact resolved_of_entry h hresolved
  | relr addr => cases h; exact hresolved
  | rel e =>
    rw [itemStepLibc] at h
    split at h
    · cases h
    · exact resolved_of_entry h hresolved

variable {x : State n σ × List (Addr n)} {saved : List (Addr n)}

theorem LibcRun.of_writeWords (addr : Addr n) (words : List (Addr n))
    (hwords : ∀ y, ¬im.footprint i y → ¬Spans addr words.length y)
    (hdone : im.Done m₀ (writeWords x.1.mem addr words) i) :
    LibcRun im m₀ [i] x
      ({ x.1 with mem := writeWords x.1.mem addr words }, x.2 ++ im.addendOf m₀ i) where
  tlsDescs := rfl
  storage := rfl
  saved := by rw [flatMap_singleton]
  frame y hy := writeWords_of_not_spans (hwords y (hy i (mem_singleton_self i)))
  done := forall_mem_singleton.mpr hdone

/-- One item, found as it was at first. -/
theorem LibcRun.of_itemStepLibc (hmodel : im.object.initialTlsModel = true)
    {x' : State n σ × List (Addr n)} (hfound : ∀ y, im.footprint i y → x.1.mem y = m₀ y)
    (h : itemStepLibc im own x i = some x') (hresolved : x'.1.hasUnresolvedSymbols = false) :
    LibcRun im m₀ [i] x x' := by
  cases i with
  | rela e =>
    obtain ⟨st, hst, rfl⟩ := map_eq_some_iff.mp h
    obtain ⟨words, hwrites, rfl⟩ := relocateEntry_own hmodel hst hresolved
    have hlength : words.length = e.size := outcome_length hwrites
    have hrun : LibcRun im m₀ [.rela e] x _ :=
      .of_writeWords (im.target e.toRel) words (fun y hy => hlength ▸ hy) trivial
    rwa [Image.addendOf, append_nil] at hrun
  | relr addr =>
    cases h
    have hread : read x.1.mem addr = read m₀ addr := read_congr fun y hy => hfound y (.inl hy)
    have hrun : LibcRun im m₀ [.relr addr] x _ :=
      .of_writeWords addr [read x.1.mem addr + im.object.base] (fun y hy => hy) fun y hy => by
        rw [hread]
        exact writeWords_of_spans hy
    rwa [Image.addendOf, append_nil] at hrun
  | rel e =>
    have hread : read x.1.mem (im.target e) = read m₀ (im.target e) := read_target hfound
    rw [itemStepLibc] at h
    split at h
    · cases h
    obtain ⟨st, hst, rfl⟩ := map_eq_some_iff.mp h
    obtain ⟨words, hwrites, rfl⟩ := relocateEntry_own hmodel hst hresolved
    have hlength : words.length = e.size := outcome_length hwrites
    have haddend : im.addendOf x.1.mem (.rel e) = im.addendOf m₀ (.rel e) := by
      rw [Image.addendOf, Image.addendOf, hread]
    rw [haddend]
    refine .of_writeWords (im.target e) words (fun y hy => hlength ▸ hy) fun hsym =>
      ⟨words, fun count => ?_, ?_⟩
    · rw [outcome_count hmodel count x.1.tlsDescs.length, ← hread]
      have hnone : (resolve im (ownLookup im own) e x.1.storage).1 = none := by
        rw [resolve, if_neg (not_not.mpr hsym)]
      rw [← hnone]
      exact hwrites
    · exact fun y hy => writeWords_of_spans (hlength.symm ▸ hy)

/-- The items are found as they were at first, since those before wrote elsewhere. -/
theorem LibcRun.of_foldlM (hmodel : im.object.initialTlsModel = true)
    {x' : State n σ × List (Addr n)} (hoverlap : im.NoOverlap items)
    (hfound : ∀ i ∈ items, ∀ y, im.footprint i y → x.1.mem y = m₀ y)
    (h : items.foldlM (itemStepLibc im own) x = some x')
    (hresolved : x'.1.hasUnresolvedSymbols = false) : LibcRun im m₀ items x x' := by
  induction items generalizing x with
  | nil =>
    cases h
    exact ⟨rfl, rfl, (append_nil _).symm, fun _ _ => rfl, nofun⟩
  | cons i items ih =>
    obtain ⟨z, hz, h⟩ := bind_eq_some_iff.mp h
    obtain ⟨hi, hoverlap⟩ := pairwise_cons.mp hoverlap
    have hfirst : LibcRun im m₀ [i] x z :=
      .of_itemStepLibc hmodel (hfound i mem_cons_self) hz
        (resolved_of_foldlM resolved_of_itemStepLibc h hresolved)
    have hrest : LibcRun im m₀ items z x' := by
      refine ih hoverlap (fun j hj y hy => ?_) h
      rw [hfirst.frame y (by simpa using fun hiy => hi j hj y hiy hy)]
      exact hfound j (mem_cons_of_mem i hj) y hy
    refine ⟨hrest.tlsDescs.trans hfirst.tlsDescs, hrest.storage.trans hfirst.storage, ?_, ?_, ?_⟩
    · rw [hrest.saved, hfirst.saved, flatMap_singleton, flatMap_cons, append_assoc]
    · intro y hy
      obtain ⟨hyi, hyitems⟩ := forall_mem_cons.mp hy
      rw [hrest.frame y hyitems, hfirst.frame y (by simpa using hyi)]
    · refine forall_mem_cons.mpr ⟨?_, hrest.done⟩
      refine (hfirst.done i mem_cons_self).congr fun y hy => ?_
      exact hrest.frame y fun j hj => hi j hj y hy

/-! ### The second time, and only once -/

theorem resolved_of_itemStepSaved (x : State n σ × ℕ) (i : Item n) (x' : State n σ × ℕ)
    (h : itemStepSaved im lookup saved x i = some x')
    (hresolved : x'.1.hasUnresolvedSymbols = false) : x.1.hasUnresolvedSymbols = false := by
  cases i with
  | rela e => exact resolved_of_entry h hresolved
  | relr addr => cases h; exact hresolved
  | rel e =>
    rw [itemStepSaved] at h
    split at h
    · obtain ⟨addend, -, h⟩ := bind_eq_some_iff.mp h
      exact resolved_of_entry h hresolved
    · cases h; exact hresolved

/-- The states `s` and `t` differ in their memories only. -/
structure SameBut (s t : State n σ) : Prop where
  tlsDescs : s.tlsDescs = t.tlsDescs
  storage : s.storage = t.storage
  resolved : s.hasUnresolvedSymbols = t.hasUnresolvedSymbols

/-- Two ways through some items, from `s` to `s'` and from `t` to `t'`, that leave the same where
the items write. -/
structure Together (im : Image n) (items : List (Item n)) (s s' t t' : State n σ) : Prop where
  rest : SameBut s' t'
  same : ∀ i ∈ items, ∀ y, im.footprint i y → s'.mem y = t'.mem y
  left : ∀ y, (∀ i ∈ items, ¬im.footprint i y) → s'.mem y = s.mem y
  right : ∀ y, (∀ i ∈ items, ¬im.footprint i y) → t'.mem y = t.mem y

variable {s t : State n σ} {x' : State n σ × ℕ}

/-- An entry that is processed both times. -/
theorem Together.of_entry {e : Rel n} {addend : Addr n} {s' : State n σ}
    (hi : im.footprint i = Spans (im.target e) e.size) (hst : SameBut s t)
    (h : relocateEntry im lookup e addend s = some s') (hresolved : s'.hasUnresolvedSymbols = false)
    : ∃ t', relocateEntry im lookup e addend t = some t' ∧ Together im [i] s s' t t' := by
  obtain ⟨words, data, hwrites, rfl, hbefore⟩ := writes_of_relocateEntry h hresolved
  have hlength : words.length = e.size := outcome_length hwrites
  have hwrites' : Writes im lookup e addend t words data := by
    rw [Writes, ← hst.storage, ← hst.tlsDescs]
    exact hwrites
  refine ⟨_, hwrites'.relocateEntry, ⟨?_, ?_, ?_⟩, ?_, ?_, ?_⟩
  · rw [hst.tlsDescs]
  · rw [hst.storage]
  · exact hbefore.symm.trans hst.resolved
  · refine forall_mem_singleton.mpr fun y hy => ?_
    rw [hi, ← hlength] at hy
    exact writeWords_of_spans hy
  all_goals
    intro y hy
    have hy := hy i (mem_singleton_self i)
    rw [hi, ← hlength] at hy
    exact writeWords_of_not_spans hy

/-- An item that is left alone the second time. -/
theorem Together.of_done (addr : Addr n) (words : List (Addr n))
    (hi : im.footprint i = Spans addr words.length) (hst : SameBut s t)
    (hdone : ∀ y, im.footprint i y → s.mem y = writeWords t.mem addr words y) :
    Together im [i] s s t { t with mem := writeWords t.mem addr words } where
  rest := ⟨hst.tlsDescs, hst.storage, hst.resolved⟩
  same := forall_mem_singleton.mpr hdone
  left _ _ := rfl
  right _ hy := writeWords_of_not_spans (hi ▸ hy i (mem_singleton_self i))

/-- A saved addend is used for every entry with a symbol, and for nothing else. -/
theorem itemStepSaved_count {x : State n σ × ℕ} (h : itemStepSaved im lookup saved x i = some x')
    (m : Mem n) : x'.2 = x.2 + (im.addendOf m i).length := by
  cases i with
  | rela e => obtain ⟨st, -, rfl⟩ := map_eq_some_iff.mp h; rfl
  | relr addr => cases h; rfl
  | rel e =>
    rw [itemStepSaved] at h
    rw [Image.addendOf]
    split at h
    next hsym =>
      obtain ⟨addend, -, h⟩ := bind_eq_some_iff.mp h
      obtain ⟨st, -, rfl⟩ := map_eq_some_iff.mp h
      rw [if_pos hsym]
      rfl
    next hsym => cases h; rw [if_neg hsym]; rfl

theorem foldlM_count {x : State n σ × ℕ}
    (h : items.foldlM (itemStepSaved im lookup saved) x = some x') (m : Mem n) :
    x'.2 = x.2 + (items.flatMap (im.addendOf m)).length := by
  induction items generalizing x with
  | nil => cases h; rfl
  | cons i items ih =>
    obtain ⟨z, hz, h⟩ := bind_eq_some_iff.mp h
    rw [ih h, itemStepSaved_count hz m, flatMap_cons, length_append, Nat.add_assoc]

/-- One item. Where it writes, the single pass finds the original image `m₀`, and the second
pass what the first has left, `m₁`; of the saved addends, its own is the next. -/
theorem Together.of_itemStepSaved {m₁ : Mem n} {used rest : List (Addr n)} (hst : SameBut s t)
    (hs : ∀ y, im.footprint i y → s.mem y = m₁ y) (ht : ∀ y, im.footprint i y → t.mem y = m₀ y)
    (hdone : im.Done m₀ m₁ i)
    (h : itemStepSaved im lookup (used ++ (im.addendOf m₀ i ++ rest)) (s, used.length) i = some x')
    (hresolved : x'.1.hasUnresolvedSymbols = false) :
    ∃ t', itemStep im lookup t i = some t' ∧ Together im [i] s x'.1 t t' := by
  cases i with
  | rela e =>
    obtain ⟨s', hs', rfl⟩ := map_eq_some_iff.mp h
    exact Together.of_entry rfl hst hs' hresolved
  | relr addr =>
    cases h
    have hread : read t.mem addr = read m₀ addr := read_congr fun y hy => ht y (.inl hy)
    refine ⟨_, rfl, .of_done addr [read t.mem addr + im.object.base] rfl hst fun y hy => ?_⟩
    rw [hs y hy, hdone y hy, hread]
    exact writeWords_of_spans hy
  | rel e =>
    have hread : read t.mem (im.target e) = read m₀ (im.target e) := read_target ht
    rw [itemStepSaved] at h
    by_cases hsym : e.symIndex = 0
    · rw [if_neg (not_not.mpr hsym)] at h
      cases h
      obtain ⟨words, hwords, hmem⟩ := hdone hsym
      have hlength : words.length = e.size := outcome_length (hwords 0)
      have hnone : resolve im lookup e t.storage = (none, t.storage) := if_neg (not_not.mpr hsym)
      have hwrites : Writes im lookup e (read t.mem (im.target e)) t words none := by
        rw [Writes, hread, hnone]
        exact hwords _
      have hstep := hwrites.relocateEntry
      rw [hnone, toList_none, append_nil] at hstep
      refine ⟨_, hstep, .of_done (im.target e) words (by rw [hlength]; rfl) hst fun y hy => ?_⟩
      rw [hs y hy, hmem y hy]
      exact writeWords_of_spans (hlength.symm ▸ hy)
    · have haddend : im.addendOf m₀ (.rel e) = [read m₀ (im.target e)] := if_pos hsym
      rw [if_pos hsym, haddend] at h
      obtain ⟨addend, hsaved, h⟩ := bind_eq_some_iff.mp h
      obtain rfl : read m₀ (im.target e) = addend := by
        simpa using hsaved
      obtain ⟨s', hs', rfl⟩ := map_eq_some_iff.mp h
      rw [← hread] at hs'
      exact Together.of_entry rfl hst hs' hresolved

/-- All items. The second pass uses the saved addends in their order. -/
theorem Together.of_foldlM {m₁ : Mem n} (used : List (Addr n)) (hoverlap : im.NoOverlap items)
    (hst : SameBut s t) (hs : ∀ i ∈ items, ∀ y, im.footprint i y → s.mem y = m₁ y)
    (ht : ∀ i ∈ items, ∀ y, im.footprint i y → t.mem y = m₀ y)
    (hdone : ∀ i ∈ items, im.Done m₀ m₁ i)
    (h : items.foldlM (itemStepSaved im lookup (used ++ items.flatMap (im.addendOf m₀)))
      (s, used.length) = some x') (hresolved : x'.1.hasUnresolvedSymbols = false) :
    ∃ t', items.foldlM (itemStep im lookup) t = some t' ∧ Together im items s x'.1 t t' := by
  induction items generalizing used s t with
  | nil =>
    cases h
    exact ⟨t, rfl, hst, nofun, fun _ _ => rfl, fun _ _ => rfl⟩
  | cons i items ih =>
    obtain ⟨⟨z, count⟩, hz, h⟩ := bind_eq_some_iff.mp h
    obtain ⟨hi, hoverlap⟩ := pairwise_cons.mp hoverlap
    obtain ⟨hsi, hs⟩ := forall_mem_cons.mp hs
    obtain ⟨hti, ht⟩ := forall_mem_cons.mp ht
    obtain ⟨hdonei, hdone⟩ := forall_mem_cons.mp hdone
    rw [flatMap_cons] at hz h
    obtain ⟨u, hu, hfirst⟩ := Together.of_itemStepSaved hst hsi hti hdonei hz
      (resolved_of_foldlM resolved_of_itemStepSaved h hresolved)
    obtain rfl : count = (used ++ im.addendOf m₀ i).length :=
      (itemStepSaved_count hz m₀).trans length_append.symm
    -- The item has not written where those after it do, on either way.
    have hout (j : Item n) (hj : j ∈ items) (y : Addr n) (hy : im.footprint j y) :
        ∀ k ∈ [i], ¬im.footprint k y :=
      forall_mem_singleton.mpr fun hiy => hi j hj y hiy hy
    rw [← append_assoc] at h
    obtain ⟨t', ht', hrest⟩ := ih _ hoverlap hfirst.rest
      (fun j hj y hy => (hfirst.left y (hout j hj y hy)).trans (hs j hj y hy))
      (fun j hj y hy => (hfirst.right y (hout j hj y hy)).trans (ht j hj y hy)) hdone h
    refine ⟨t', bind_eq_some_iff.mpr ⟨u, hu, ht'⟩, hrest.rest, ?_, ?_, ?_⟩
    · refine forall_mem_cons.mpr ⟨fun y hy => ?_, hrest.same⟩
      have houtside : ∀ j ∈ items, ¬im.footprint j y := fun j hj => hi j hj y hy
      rw [hrest.left y houtside, hrest.right y houtside]
      exact hfirst.same i (mem_singleton_self i) y hy
    · intro y hy
      obtain ⟨hyi, hyitems⟩ := forall_mem_cons.mp hy
      rw [hrest.left y hyitems, hfirst.left y (forall_mem_singleton.mpr hyi)]
    · intro y hy
      obtain ⟨hyi, hyitems⟩ := forall_mem_cons.mp hy
      rw [hrest.right y hyitems, hfirst.right y (forall_mem_singleton.mpr hyi)]

/-- When the loop with saved addends comes to an entry with a symbol, the next of them is what the
memory `m₀` has where the entry writes. -/
def OwnAddends (im : Image n) (lookup : Lookup n σ) (saved : List (Addr n)) (m₀ : Mem n)
    (items : List (Item n)) (st : State n σ) : Prop :=
  ∀ before e after x, items = before ++ .rel e :: after → e.symIndex ≠ 0 →
    before.foldlM (itemStepSaved im lookup saved) (st, 0) = some x →
      saved[x.2]? = some (read m₀ (im.target e))

theorem ownAddends (m₀ : Mem n) (st : State n σ) :
    OwnAddends im lookup (items.flatMap (im.addendOf m₀)) m₀ items st := by
  rintro before e after x rfl hsym h
  have haddend : im.addendOf m₀ (.rel e) = [read m₀ (im.target e)] := if_pos hsym
  rw [foldlM_count h m₀, Nat.zero_add, flatMap_append, flatMap_cons, haddend,
    List.getElem?_append_right (Nat.le_refl _), Nat.sub_self]
  rfl

theorem finish_eq_some {κ : Type*} {x x' : State n σ × κ} :
    finish x = some x' ↔ x = x' ∧ x'.1.hasUnresolvedSymbols = false := by
  unfold finish
  split
  next h => exact ⟨nofun, fun ⟨hx, hresolved⟩ => by rw [hx, hresolved] at h; cases h⟩
  next h =>
    constructor
    · rintro ⟨⟩
      exact ⟨rfl, Bool.not_eq_true _ ▸ h⟩
    · rintro ⟨rfl, -⟩
      rfl

/-- Relocating the libc twice is relocating it once. -/
theorem relocate_twice (im : Image n) (own : Name → Option (Addr n)) (lookup : Lookup n σ)
    (st st₁ st₂ : State n σ) (saved : List (Addr n)) (count : ℕ)
    (hoverlap : ∀ items, im.items = some items → im.NoOverlap items)
    (hmodel : im.object.initialTlsModel = true)
    (hfirst : relocateLibc im own st = some (st₁, saved))
    (hsecond : relocate im lookup (some saved) st₁ = some (st₂, count)) :
    relocate im lookup none st = some (st₂, 0) ∧ count = saved.length ∧
      ∃ items, im.items = some items ∧ OwnAddends im lookup saved st.mem items st₁ := by
  obtain ⟨items, hitems⟩ := exists_items hfirst
  have hoverlap := hoverlap items hitems
  rw [relocateLibc_eq hitems, bind_eq_some_iff] at hfirst
  obtain ⟨_, hfirst, hend⟩ := hfirst
  obtain ⟨rfl, hresolved⟩ := finish_eq_some.mp hend
  have hlibc : LibcRun im st.mem items _ (st₁, saved) :=
    .of_foldlM hmodel hoverlap (fun _ _ _ _ => rfl) hfirst hresolved
  obtain rfl : saved = items.flatMap (im.addendOf st.mem) := hlibc.saved
  rw [relocate_some_eq hitems, bind_eq_some_iff] at hsecond
  obtain ⟨_, hsecond, hend⟩ := hsecond
  obtain ⟨rfl, hresolved₂⟩ := finish_eq_some.mp hend
  have hst : SameBut { st₁ with hasUnresolvedSymbols := false }
      { st with hasUnresolvedSymbols := false } := ⟨hlibc.tlsDescs, hlibc.storage, rfl⟩
  obtain ⟨t, ht, htogether⟩ := Together.of_foldlM [] hoverlap hst (fun _ _ _ _ => rfl)
    (fun _ _ _ _ => rfl) hlibc.done hsecond hresolved₂
  -- Where no item writes, neither way has changed anything.
  have hmem : st₂.mem = t.mem := by
    funext y
    by_cases hy : ∃ i ∈ items, im.footprint i y
    · obtain ⟨i, hi, hy⟩ := hy
      exact htogether.same i hi y hy
    · have hy : ∀ i ∈ items, ¬im.footprint i y := fun i hi hiy => hy ⟨i, hi, hiy⟩
      exact (htogether.left y hy).trans ((hlibc.frame y hy).trans (htogether.right y hy).symm)
  obtain rfl : st₂ = t := State.ext hmem htogether.rest.tlsDescs htogether.rest.storage
    htogether.rest.resolved
  refine ⟨?_, ?_, items, hitems, ownAddends st.mem _⟩
  · rw [relocate_none_eq hitems, ht]
    exact finish_eq_some.mpr ⟨rfl, hresolved₂⟩
  · exact (foldlM_count hsecond st.mem).trans (Nat.zero_add _)

/-- A libc that is loaded at 0x1000, with a relative entry, an entry with a symbol that has an
addend, a RELR entry and an entry of the procedure linkage table. -/
def smallImage : Image 4 where
  arch := ⟨false, 0, 0, 0⟩
  heap _ := 0
  object := ⟨0x500, 0x1000, 0, true, 0⟩
  symtab _ := ⟨['f'], false⟩
  rela := []
  relr := [0x30]
  rel := [⟨0x10, .relative, 0⟩, ⟨0x20, .absolute, 1⟩]
  plt := .rel [⟨0x40, .jumpSlot, 1⟩]

/-- Every word is 5 before. -/
def smallState : State 4 Unit := ⟨fun y => if y.toNat % 4 = 0 then 5 else 0, [], (), false⟩

/-- Another object comes before the libc, and has the symbol too. -/
def smallLookup : Lookup 4 Unit := fun _ storage =>
  (some ⟨⟨0x600, 0x8000, 0, true, 0⟩, 0x200⟩, storage)

theorem smallImage_noOverlap (items : List (Item 4)) (h : smallImage.items = some items) :
    smallImage.NoOverlap items := by
  obtain rfl : [.relr 0x1030, .rel ⟨0x10, .relative, 0⟩, .rel ⟨0x20, .absolute, 1⟩,
    .rel ⟨0x40, .jumpSlot, 1⟩] = items := Option.some.inj h
  have happart (a b y : Addr 4) (hab : 4 ≤ (b - a).toNat) (hba : 4 ≤ (a - b).toNat)
      (ha : Spans a 1 y) : ¬Spans b 1 y := by
    simp [Spans, Covers] at ha ⊢
    bv_omega
  simp [Image.NoOverlap, Pairwise.nil]
  refine ⟨⟨?_, ?_, ?_⟩, ⟨?_, ?_⟩, ?_⟩
  all_goals exact fun y => happart _ _ y (by decide) (by decide)

theorem relocate_twice_small : ∃ st₁ st₂ : State 4 Unit,
    relocateLibc smallImage (fun _ => some 0x100) smallState = some (st₁, [5, 5]) ∧
      relocate smallImage smallLookup (some [5, 5]) st₁ = some (st₂, 2) ∧
      relocate smallImage smallLookup none smallState = some (st₂, 0) ∧
      read st₁.mem 0x1020 = 0x1105 ∧ read st₂.mem 0x1020 = 0x8205 ∧
      read st₂.mem 0x1010 = 0x1005 := by
  refine ⟨_, _, rfl, rfl, (relocate_twice smallImage (fun _ => some 0x100) smallLookup smallState
    _ _ [5, 5] 2 smallImage_noOverlap rfl rfl rfl).1, by decide, by decide, by decide⟩

end Hzlibc.Relocation
