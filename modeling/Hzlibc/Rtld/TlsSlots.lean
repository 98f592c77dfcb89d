import Hzlibc.Rtld.StaticTls
import Hzlibc.Rtld.TlsIndices

/-!
The slots of dynamic thread-local storage.

Each thread has a vector with a slot for every module index, and `access_tls_for_object`
fills the slot of an object when it is first used in the thread. A slot belongs to one
object if no other one has the same index, and then its block is as large as the object
needs and apart from all others.

The libc shares its index with the first object in the runtime TLS map. The slots are
private exactly when this does no harm: the libc has no thread-local data, or that object
is gone because the `dlopen` that loaded it has failed.
-/

namespace Hzlibc.Rtld

open List Function

/-- An allocator that hands out blocks apart from those in use. -/
structure Allocator extends Platform where
  allocate_disjoint : ∀ {live : List Block} {n : ℕ} {a : Addr}, allocate live n = some a →
    ∀ b ∈ live, b.Apart ⟨a, n⟩

variable {n t : ℕ}

namespace Block

variable {b c : Block}

theorem Apart.symm (h : b.Apart c) : c.Apart b := Or.symm h

theorem Apart.shrink (h : b.Apart c) {m : ℕ} (hm : m ≤ b.size) (hn : n ≤ c.size) :
    Apart ⟨b.base, m⟩ ⟨c.base, n⟩ := by
  unfold Apart at h ⊢
  simp only
  omega

end Block

namespace Machine

/-! ### Runs -/

/-- What a program does that concerns thread-local storage. -/
inductive Action
  | createTcb
  | access (t : ℕ) (id : ObjId)
  | heap (live : List Block)
  | dlopen (env : Env) (fuel : ℕ) (filename : Option Name) (flags : OpenFlags)
      (returnAddr : Addr)

/-- A thread holds the block. -/
def Held (m : Machine) (b : Block) : Prop :=
  ∃ th ∈ m.threads, th.block = b ∨ some b.base ∈ th.dtv

instance (m : Machine) (b : Block) : Decidable (m.Held b) :=
  inferInstanceAs (Decidable (∃ th ∈ m.threads, th.block = b ∨ some b.base ∈ th.dtv))

/-- Code refers to thread-local data of an object that is there and has some, and the rest
of the program does not free what belongs to a thread. -/
def act (p : Allocator) (m : Machine) : Action → Option Machine
  | .createTcb => m.createTcb p.toPlatform
  | .access t id =>
    if id ∈ m.loader.storage.objects ∧ (m.loader.obj id).tlsSize ≠ 0 then
      (m.accessTls p.toPlatform t id).map (·.2)
    else none
  | .heap live => if ∀ b ∈ m.live, m.Held b → b ∈ live then some { m with live } else none
  | .dlopen env fuel filename flags returnAddr =>
    match dlapiOpen env fuel filename flags returnAddr m.loader with
    | some (.handle _ s) => some { m with loader := s }
    | some (.null _ s) => some { m with loader := s }
    | _ => none

def perform (p : Allocator) (m : Machine) (actions : List Action) : Option Machine :=
  actions.foldlM (act p) m

/-! ### Private slots -/

/-- The block is part of memory in use. -/
def InUse (m : Machine) (b : Block) : Prop := ∃ n, b.size ≤ n ∧ ⟨b.base, n⟩ ∈ m.live

/-- The block of an object that is at `a`. -/
def tlsBlock (m : Machine) (id : ObjId) (a : Addr) : Block := ⟨a, (m.loader.obj id).tlsSize.toNat⟩

/-- Two objects have slots of their own: their indices differ, an access fails for lack of
memory only, and two accesses of a thread return blocks that are large enough and apart. -/
structure SlotsApart (p : Allocator) (m : Machine) (a b : ObjId) : Prop where
  index : (m.loader.obj a).tlsModuleIndex ≠ (m.loader.obj b).tlsModuleIndex
  returns : ∀ t < m.threads.length, m.accessTls p.toPlatform t a = none →
    p.allocate m.live (m.loader.obj a).tlsSize.toNat = none
  apart : ∀ t x y m' m'', m.accessTls p.toPlatform t a = some (x, m') →
    m'.accessTls p.toPlatform t b = some (y, m'') →
    m''.InUse (m.tlsBlock a x) ∧ m''.InUse (m.tlsBlock b y) ∧
      (m.tlsBlock a x).Apart (m.tlsBlock b y)

/-- Any two objects with thread-local data have slots of their own. -/
def SlotsPrivate (p : Allocator) (m : Machine) : Prop :=
  ∀ a ∈ m.loader.storage.objects, ∀ b ∈ m.loader.storage.objects, a ≠ b →
    (m.loader.obj a).tlsSize ≠ 0 → (m.loader.obj b).tlsSize ≠ 0 → m.SlotsApart p a b

end Machine

/-- Slot 0 is the libc's alone, if it needs one. -/
def Loader.SlotZeroFree (s : Loader) : Prop :=
  (s.obj 1).tlsSize = 0 ∨ ∀ id ∈ s.storage.runtimeTlsMap.head?, id ∉ s.storage.objects

instance (s : Loader) : Decidable s.SlotZeroFree :=
  inferInstanceAs (Decidable (_ ∨ ∀ id ∈ s.storage.runtimeTlsMap.head?, _))

/-! ### An index for each object -/

variable {id : ObjId}

namespace Loader

variable {s s' : Loader}

theorem HasIndices.slot (hs : s.HasIndices) (hid : id ∈ s.storage.objects) (hne : id ≠ 1)
    (hsize : (s.obj id).tlsSize ≠ 0) :
    s.storage.runtimeTlsMap[(s.obj id).tlsModuleIndex]? = some id :=
  (hs.indexed.slot id hid hne hsize).resolve_left not_mem_nil

theorem HasIndices.index_lt (hs : s.HasIndices) (hid : id ∈ s.storage.objects) (hne : id ≠ 1)
    (hsize : (s.obj id).tlsSize ≠ 0) : (s.obj id).tlsModuleIndex < s.storage.runtimeTlsMap.length :=
  (List.getElem?_eq_some_iff.mp (hs.slot hid hne hsize)).1

theorem HasIndices.index_libc (hs : s.HasIndices) : (s.obj 1).tlsModuleIndex = 0 :=
  hs.indexed.libc_index

/-- No other object has the index of the libc. -/
theorem SlotZeroFree.ne_index (hfree : s.SlotZeroFree) (hs : s.HasIndices)
    (hlibc : (s.obj 1).tlsSize ≠ 0) (hid : id ∈ s.storage.objects) (hne : id ≠ 1)
    (hsize : (s.obj id).tlsSize ≠ 0) : (s.obj id).tlsModuleIndex ≠ (s.obj 1).tlsModuleIndex := by
  intro heq
  have hslot := hs.slot hid hne hsize
  rw [heq, hs.index_libc, ← head?_eq_getElem?] at hslot
  exact hfree.resolve_left hlibc id hslot hid

theorem SlotZeroFree.index_inj (hfree : s.SlotZeroFree) (hs : s.HasIndices) {a b : ObjId}
    (ha : a ∈ s.storage.objects) (hb : b ∈ s.storage.objects) (hsa : (s.obj a).tlsSize ≠ 0)
    (hsb : (s.obj b).tlsSize ≠ 0) (h : (s.obj a).tlsModuleIndex = (s.obj b).tlsModuleIndex) :
    a = b := by
  by_cases ha1 : a = 1
  · by_cases hb1 : b = 1
    · rw [ha1, hb1]
    · subst ha1
      exact absurd h.symm (hfree.ne_index hs hsa hb hb1 hsb)
  · by_cases hb1 : b = 1
    · subst hb1
      exact absurd h (hfree.ne_index hs hsb ha ha1 hsa)
    · have hslot := hs.slot ha ha1 hsa
      rw [h, hs.slot hb hb1 hsb] at hslot
      exact (Option.some.inj hslot).symm

/-- Otherwise the first object in the map has the index of the libc. -/
theorem HasIndices.shared_of_not_slotZeroFree (hs : s.HasIndices) (h : ¬ s.SlotZeroFree) :
    (s.obj 1).tlsSize ≠ 0 ∧ ∃ id ∈ s.storage.objects, id ≠ 1 ∧ (s.obj id).tlsSize ≠ 0 ∧
      (s.obj id).tlsModuleIndex = (s.obj 1).tlsModuleIndex := by
  rw [SlotZeroFree] at h
  push Not at h
  obtain ⟨hlibc, id, hhead, hid⟩ := h
  have hmem : id ∈ s.storage.runtimeTlsMap := mem_of_mem_head? hhead
  have hne : id ≠ 1 := fun heq => hs.indexed.libc_map (heq ▸ hmem)
  have hsize : (s.obj id).tlsSize ≠ 0 := hs.indexed.size_ne id hmem
  refine ⟨hlibc, id, hid, hne, hsize, ?_⟩
  have hzero : s.storage.runtimeTlsMap[0]? = some id := by
    rw [← head?_eq_getElem?]
    exact hhead
  have hslot := hs.slot hid hne hsize
  rw [hs.index_libc]
  exact (getElem?_inj (hs.index_lt hid hne hsize) hs.indexed.nodup_map).mp
    (hslot.trans hzero.symm)

/-- Slot 0 was free if it is now. -/
theorem SlotZeroFree.of_since (hfree : s'.SlotZeroFree) (hs : s.HasIndices)
    (h : (s.tlsState []).Since (s'.tlsState [])) : s.SlotZeroFree := by
  have hlibc : (s'.obj 1).tls = (s.obj 1).tls :=
    h.view 1 (hs.wellFormed.lt_built 1 hs.indexed.libc_mem)
  refine hfree.imp (fun hzero => ?_) fun hnone id hid hmem => ?_
  · have hsize : (s'.obj 1).tlsSize = (s.obj 1).tlsSize := congrArg TlsView.size hlibc
    rw [← hsize]
    exact hzero
  · obtain ⟨new, hmap⟩ := h.map
    have hhead : s'.storage.runtimeTlsMap.head? = some id := by
      have hmap : s'.storage.runtimeTlsMap = s.storage.runtimeTlsMap ++ new := hmap
      rw [hmap, head?_append, hid]
      rfl
    exact hnone id hhead (h.objects_sub hmem)

end Loader

/-! ### The slots of a thread -/

/-- The block of each slot that is filled: it is in use, it is large enough for the object
that the slot belongs to, and the blocks are apart. -/
structure Filled (s : Loader) (live : List Block) (dtv : List (Option Addr))
    (block : ℕ → Block) : Prop where
  base : ∀ k a, dtv[k]? = some (some a) → (block k).base = a
  live : ∀ k a, dtv[k]? = some (some a) → block k ∈ live
  size : ∀ k a, dtv[k]? = some (some a) → ∀ id ∈ s.storage.objects, (s.obj id).tlsSize ≠ 0 →
    (s.obj id).tlsModuleIndex = k → (s.obj id).tlsSize.toNat ≤ (block k).size
  apart : ∀ k k' a a', k ≠ k' → dtv[k]? = some (some a) → dtv[k']? = some (some a') →
    (block k).Apart (block k')

variable {a : Addr}

namespace Filled

variable {s s' : Loader} {live live' : List Block} {dtv dtv' : List (Option Addr)}
  {block : ℕ → Block}

theorem nil (s : Loader) (live : List Block) (block : ℕ → Block) : Filled s live [] block where
  base _ _ h := by cases h
  live _ _ h := by cases h
  size _ _ h := by cases h
  apart _ _ _ _ _ h := by cases h

section

variable (h : Filled s live dtv block)
include h

theorem congr (hdtv : ∀ (k : ℕ) a, dtv'[k]? = some (some a) → dtv[k]? = some (some a)) :
    Filled s live dtv' block where
  base k a hk := h.base k a (hdtv k a hk)
  live k a hk := h.live k a (hdtv k a hk)
  size k a hk := h.size k a (hdtv k a hk)
  apart k k' a a' hne hk hk' := h.apart k k' a a' hne (hdtv k a hk) (hdtv k' a' hk')

theorem of_live
    (hlive : ∀ (k : ℕ) a, dtv[k]? = some (some a) → block k ∈ live') : Filled s live' dtv block :=
  ⟨h.base, hlive, h.size, h.apart⟩

/-- A slot is filled with a new block. -/
theorem set {k : ℕ} (hk : k < dtv.length)
    (hnew : ∀ b ∈ live, b.Apart ⟨a, n⟩) (hsize : ∀ id ∈ s.storage.objects, (s.obj id).tlsSize ≠ 0 →
      (s.obj id).tlsModuleIndex = k → (s.obj id).tlsSize.toNat ≤ n) :
    Filled s (⟨a, n⟩ :: live) (dtv.set k (some a)) (update block k ⟨a, n⟩) := by
  have hold : ∀ i x, i ≠ k → (dtv.set k (some a))[i]? = some (some x) →
      dtv[i]? = some (some x) := fun i x hi hx => by
    rwa [getElem?_set_ne hi.symm] at hx
  have hnewest : update block k ⟨a, n⟩ k = ⟨a, n⟩ := Function.update_self ..
  have hother : ∀ i ≠ k, update block k ⟨a, n⟩ i = block i := fun i hi =>
    Function.update_of_ne hi ..
  exact
    { base := fun i x hx => by
        by_cases hi : i = k
        · subst hi
          rw [getElem?_set_self hk] at hx
          rw [hnewest]
          exact Option.some.inj (Option.some.inj hx)
        · rw [hother i hi]
          exact h.base i x (hold i x hi hx)
      live := fun i x hx => by
        by_cases hi : i = k
        · rw [hi, hnewest]
          exact mem_cons_self
        · rw [hother i hi]
          exact mem_cons_of_mem _ (h.live i x (hold i x hi hx))
      size := fun i x hx => by
        by_cases hi : i = k
        · rw [hi, hnewest]
          exact hsize
        · rw [hother i hi]
          exact h.size i x (hold i x hi hx)
      apart := fun i j x y hne hx hy => by
        by_cases hi : i = k
        · have hj : j ≠ k := fun hj => hne (hi.trans hj.symm)
          rw [hi, hnewest, hother j hj]
          exact (hnew _ (h.live j y (hold j y hj hy))).symm
        · rw [hother i hi]
          by_cases hj : j = k
          · rw [hj, hnewest]
            exact hnew _ (h.live i x (hold i x hi hx))
          · rw [hother j hj]
            exact h.apart i j x y hne (hold i x hi hx) (hold j y hj hy) }

/-- New objects have indices behind the vector. -/
theorem since (hs : s.HasIndices) (hs' : s'.HasIndices)
    (hsince : (s.tlsState []).Since (s'.tlsState []))
    (hlength : dtv.length ≤ s.storage.runtimeTlsMap.length) : Filled s' live dtv block where
  base := h.base
  live := h.live
  apart := h.apart
  size k a hk id hid hsize hindex := by
    rcases hsince.old_or_new hid with hold | hnew
    · have hview : (s'.obj id).tls = (s.obj id).tls :=
        hsince.view id (hs.wellFormed.lt_built id hold)
      have hsame : (s'.obj id).tlsSize = (s.obj id).tlsSize := congrArg TlsView.size hview
      have hindex' : (s'.obj id).tlsModuleIndex = (s.obj id).tlsModuleIndex :=
        congrArg TlsView.index hview
      rw [hsame] at hsize ⊢
      exact h.size k a hk id hold hsize (hindex' ▸ hindex)
    · have hlibc := hs.wellFormed.lt_built 1 hs.indexed.libc_mem
      have hne : id ≠ 1 := (Nat.ne_of_lt (hlibc.trans_le hnew)).symm
      have hk' : k < s.storage.runtimeTlsMap.length :=
        (List.getElem?_eq_some_iff.mp hk).1.trans_le hlength
      have hslot := hs'.slot hid hne hsize
      rw [hindex] at hslot
      have hmap : s.storage.runtimeTlsMap[k]? = some id :=
        (hsince.getElem?_map hk').symm.trans hslot
      exact absurd (hs.indexed.map_lt id (mem_of_getElem? hmap)) (Nat.not_lt.mpr hnew)

end

end Filled

/-! ### What an action keeps -/

namespace Machine

section Grown

variable {m : Machine} {dtv : List (Option Addr)}
  (hlength : dtv.length ≤ m.loader.storage.runtimeTlsMap.length) (o : SharedObject)

include hlength

theorem grownDtv_eq : m.grownDtv o dtv = dtv ∨
    m.grownDtv o dtv
      = dtv ++ replicate (m.loader.storage.runtimeTlsMap.length - dtv.length) none := by
  unfold grownDtv
  split
  · rw [resize, take_of_length_le hlength]
    exact .inr rfl
  · exact .inl rfl

@[simp] theorem getElem?_grownDtv {k : ℕ} :
    (m.grownDtv o dtv)[k]? = some (some a) ↔ dtv[k]? = some (some a) := by
  rcases grownDtv_eq hlength o with h | h
  · rw [h]
  · rw [h]
    by_cases hk : k < dtv.length
    · rw [getElem?_append_left hk]
    · rw [getElem?_append_right (Nat.le_of_not_lt hk),
        getElem?_eq_none (Nat.le_of_not_lt hk)]
      refine iff_of_false (fun h => ?_) (by simp)
      have hmem := mem_of_getElem? h
      exact absurd (eq_of_mem_replicate hmem) (by simp)

theorem length_grownDtv_le : (m.grownDtv o dtv).length ≤ m.loader.storage.runtimeTlsMap.length := by
  rcases grownDtv_eq hlength o with h | h
  · rw [h]
    exact hlength
  · rw [h, length_append, length_replicate]
    omega

theorem index_lt_length_grownDtv (ho : o.tlsModuleIndex < m.loader.storage.runtimeTlsMap.length) :
    o.tlsModuleIndex < (m.grownDtv o dtv).length := by
  unfold grownDtv
  split
  · rw [resize, length_append, length_replicate, take_of_length_le hlength]
    omega
  · omega

end Grown

structure Slotted (m : Machine) : Prop where
  indices : m.loader.HasIndices
  length : ∀ th ∈ m.threads, th.dtv.length ≤ m.loader.storage.runtimeTlsMap.length
  filled : m.loader.SlotZeroFree → ∀ th ∈ m.threads, ∃ block, Filled m.loader m.live th.dtv block

variable {p : Allocator} {m m' : Machine}

theorem slotted_boot {s : Loader} (hs : s.HasIndices) (live : List Block) :
    (boot s live).Slotted where
  indices := hs
  length := forall_mem_nil _
  filled _ := forall_mem_nil _

theorem getElem?_setDtv {th : Thread} (hth : m.threads[t]? = some th) (dtv : List (Option Addr)) :
    (m.setDtv t dtv).threads[t]? = some { th with dtv } := by
  simp [setDtv, hth]

section

variable (h : m.Slotted)
include h

theorem Slotted.createTcb (hm : m.createTcb p.toPlatform = some m') : m'.Slotted := by
  obtain ⟨block, tcb, -, rfl⟩ := createTcb_spec hm
  refine ⟨h.indices, fun th hth => ?_, fun hfree th hth => ?_⟩
  · rcases mem_append.mp hth with hth | hth
    · exact h.length th hth
    · rw [mem_singleton.mp hth]
      exact Nat.zero_le _
  · rcases mem_append.mp hth with hth | hth
    · obtain ⟨blocks, hfilled⟩ := h.filled hfree th hth
      exact ⟨blocks, hfilled.of_live fun k a hk => mem_cons_of_mem _ (hfilled.live k a hk)⟩
    · rw [mem_singleton.mp hth]
      exact ⟨fun _ => block, .nil ..⟩

theorem Slotted.heap {live : List Block}
    (hlive : ∀ b ∈ m.live, m.Held b → b ∈ live) : Slotted { m with live } := by
  refine ⟨h.indices, h.length, fun hfree th hth => ?_⟩
  obtain ⟨block, hfilled⟩ := h.filled hfree th hth
  refine ⟨block, hfilled.of_live fun k a hk => hlive _ (hfilled.live k a hk) ?_⟩
  refine ⟨th, hth, .inr ?_⟩
  rw [hfilled.base k a hk]
  exact mem_of_getElem? hk

theorem Slotted.since {s : Loader} (hs : s.HasIndices)
    (hsince : (m.loader.tlsState []).Since (s.tlsState [])) : Slotted { m with loader := s } := by
  refine ⟨hs, fun th hth => (h.length th hth).trans hsince.length_map_le, fun hfree th hth => ?_⟩
  obtain ⟨block, hfilled⟩ := h.filled (hfree.of_since h.indices hsince) th hth
  exact ⟨block, hfilled.since h.indices hs hsince (h.length th hth)⟩

/-- The thread's vector after an access. -/
theorem Slotted.entry (hm : m.accessTls p.toPlatform t id = some (a, m')) :
    ∃ th th', m.threads[t]? = some th ∧ m'.threads[t]? = some th' ∧ m'.loader = m.loader ∧
      th'.dtv[(m.loader.obj id).tlsModuleIndex]? = some (some a) ∧
      ∀ (k : ℕ) x, th.dtv[k]? = some (some x) → th'.dtv[k]? = some (some x) := by
  obtain ⟨th, dtv, k, hth, rfl, rfl, hcase⟩ := accessTls_spec hm
  have hlength := h.length th (mem_of_getElem? hth)
  rcases hcase with ⟨hentry, rfl⟩ | ⟨hentry, -, rfl⟩
  · exact ⟨th, _, hth, getElem?_setDtv hth _, rfl, hentry,
      fun k x hx => (getElem?_grownDtv hlength _).mpr hx⟩
  · refine ⟨th, _, hth, getElem?_setDtv hth _, rfl, ?_, fun k x hx => ?_⟩
    · exact List.getElem?_set_self (List.getElem?_eq_some_iff.mp hentry).1
    · have hgrown := (getElem?_grownDtv hlength (m.loader.obj id)).mpr hx
      have hne : (m.loader.obj id).tlsModuleIndex ≠ k := by
        rintro rfl
        rw [hentry] at hgrown
        cases hgrown
      exact (getElem?_set_ne hne).trans hgrown

theorem Slotted.access (hid : id ∈ m.loader.storage.objects)
    (hsize : (m.loader.obj id).tlsSize ≠ 0) (hm : m.accessTls p.toPlatform t id = some (a, m')) :
    m'.Slotted := by
  obtain ⟨th, dtv, k, hth, rfl, rfl, hcase⟩ := accessTls_spec hm
  have hmem := mem_of_getElem? hth
  have hlength := h.length th hmem
  have hgrown := length_grownDtv_le hlength (m.loader.obj id)
  rcases hcase with ⟨hentry, rfl⟩ | ⟨hentry, hnew, rfl⟩
  · refine ⟨h.indices, fun th' hth' => ?_, fun hfree th' hth' => ?_⟩
    · rcases mem_setDtv hth hth' with hth' | rfl
      · exact h.length th' hth'
      · exact hgrown
    · rcases mem_setDtv hth hth' with hth' | rfl
      · exact h.filled hfree th' hth'
      · obtain ⟨block, hfilled⟩ := h.filled hfree th hmem
        exact ⟨block, hfilled.congr fun k x => (getElem?_grownDtv hlength _).mp⟩
  · refine ⟨h.indices, fun th' hth' => ?_, fun hfree th' hth' => ?_⟩
    · rcases mem_setDtv hth hth' with hth' | rfl
      · exact h.length th' hth'
      · rw [length_set]
        exact hgrown
    · rcases mem_setDtv hth hth' with hth' | rfl
      · obtain ⟨block, hfilled⟩ := h.filled hfree th' hth'
        exact ⟨block, hfilled.of_live fun k x hx =>
          mem_cons_of_mem _ (hfilled.live k x hx)⟩
      · obtain ⟨block, hfilled⟩ := h.filled hfree th hmem
        have hcongr : Filled m.loader m.live (m.grownDtv (m.loader.obj id) th.dtv) block :=
          hfilled.congr fun k x => (getElem?_grownDtv hlength _).mp
        refine ⟨_, hcongr.set (List.getElem?_eq_some_iff.mp hentry).1
          (p.allocate_disjoint hnew) fun i hi hi' hindex => ?_⟩
        -- the slot belongs to no other object
        rw [hfree.index_inj h.indices hi hid hi' hsize hindex]

theorem Slotted.act {action : Action} (hm : m.act p action = some m') : m'.Slotted := by
  cases action with
  | createTcb => exact h.createTcb hm
  | access t id =>
    simp only [Machine.act] at hm
    split_ifs at hm with hid
    obtain ⟨⟨a, m''⟩, haccess, rfl⟩ := Option.map_eq_some_iff.mp hm
    exact h.access hid.1 hid.2 haccess
  | heap live =>
    simp only [Machine.act] at hm
    split_ifs at hm with hlive
    cases hm
    exact h.heap hlive
  | dlopen env fuel filename flags returnAddr =>
    simp only [Machine.act] at hm
    cases hopen : dlapiOpen env fuel filename flags returnAddr m.loader with
    | none =>
      rw [hopen] at hm
      cases hm
    | some r =>
      rw [hopen] at hm
      cases r with
      | handle id s =>
        cases hm
        obtain ⟨hs, hsince⟩ := h.indices.handle hopen
        exact h.since hs hsince
      | null e s =>
        cases hm
        obtain ⟨hs, hsince⟩ := h.indices.null hopen
        exact h.since hs hsince
      | abort => cases hm

theorem Slotted.perform {actions : List Action} (hm : m.perform p actions = some m') : m'.Slotted :=
  Loop.foldlM_invariant (fun _ _ _ h => h.act) h hm

/-! ### When slots are private -/

/-- An access to a slot that the vector can have fails only if the allocator does. -/
theorem Slotted.allocate_eq_none (ht : t < m.threads.length)
    (hindex : (m.loader.obj id).tlsModuleIndex < m.loader.storage.runtimeTlsMap.length)
    (hm : m.accessTls p.toPlatform t id = none) :
    p.allocate m.live (m.loader.obj id).tlsSize.toNat = none := by
  have hth := getElem?_eq_getElem ht
  have hlt := index_lt_length_grownDtv (h.length _ (mem_of_getElem? hth)) _ hindex
  have hentry := getElem?_eq_getElem hlt
  simp only [accessTls, hth, hentry] at hm
  split at hm
  · simp_all
  · cases hm
  · split at hm
    · assumption
    · cases hm

/-- Two slots that are filled in a thread. -/
theorem Slotted.blocks (hfree : m.loader.SlotZeroFree) {th : Thread}
    (hth : th ∈ m.threads) {a b : ObjId} (ha : a ∈ m.loader.storage.objects)
    (hb : b ∈ m.loader.storage.objects) (hsa : (m.loader.obj a).tlsSize ≠ 0)
    (hsb : (m.loader.obj b).tlsSize ≠ 0)
    (hne : (m.loader.obj a).tlsModuleIndex ≠ (m.loader.obj b).tlsModuleIndex) {x y : Addr}
    (hx : th.dtv[(m.loader.obj a).tlsModuleIndex]? = some (some x))
    (hy : th.dtv[(m.loader.obj b).tlsModuleIndex]? = some (some y)) :
    m.InUse (m.tlsBlock a x) ∧ m.InUse (m.tlsBlock b y) ∧
      (m.tlsBlock a x).Apart (m.tlsBlock b y) := by
  obtain ⟨block, hfilled⟩ := h.filled hfree th hth
  have hlivex := hfilled.live _ _ hx
  have hlivey := hfilled.live _ _ hy
  have hsizex := hfilled.size _ _ hx a ha hsa rfl
  have hsizey := hfilled.size _ _ hy b hb hsb rfl
  have hapart := (hfilled.apart _ _ _ _ hne hx hy).shrink hsizex hsizey
  rw [hfilled.base _ _ hx, hfilled.base _ _ hy] at hapart
  refine ⟨⟨_, hsizex, ?_⟩, ⟨_, hsizey, ?_⟩, hapart⟩
  · simpa [tlsBlock, ← hfilled.base _ _ hx] using hlivex
  · simpa [tlsBlock, ← hfilled.base _ _ hy] using hlivey

theorem Slotted.slotsPrivate (hfree : m.loader.SlotZeroFree) : m.SlotsPrivate p := by
  intro a ha b hb hne hsa hsb
  have hindex : (m.loader.obj a).tlsModuleIndex ≠ (m.loader.obj b).tlsModuleIndex :=
    fun heq => hne (hfree.index_inj h.indices ha hb hsa hsb heq)
  refine ⟨hindex, fun t ht hm => h.allocate_eq_none ht ?_ hm, fun t x y m' m'' hx hy => ?_⟩
  · by_cases ha1 : a = 1
    · -- the map is not empty, the other object is in it
      have hb1 : b ≠ 1 := fun hb1 => hne (ha1.trans hb1.symm)
      rw [ha1, h.indices.index_libc]
      exact Nat.zero_lt_of_lt (h.indices.index_lt hb hb1 hsb)
    · exact h.indices.index_lt ha ha1 hsa
  · obtain ⟨-, th', -, hth', hloader, hentry, -⟩ := h.entry hx
    have h' := h.access ha hsa hx
    have h'' := h'.access (by rw [hloader]; exact hb) (by rw [hloader]; exact hsb) hy
    obtain ⟨th₁, th'', hth₁, hth'', hloader', hentry', hold⟩ := h'.entry hy
    obtain rfl : th' = th₁ := Option.some.inj (hth'.symm.trans hth₁)
    have hsame : m''.loader = m.loader := hloader'.trans hloader
    rw [hloader] at hentry'
    have hblocks := h''.blocks (a := a) (b := b) (x := x) (y := y) (by rw [hsame]; exact hfree)
      (mem_of_getElem? hth'')
    simp only [tlsBlock, hsame] at hblocks
    exact hblocks ha hb hsa hsb hindex (hold _ _ hentry) hentry'

end

/-- In every state that a program can reach, the slots of its objects are private exactly
when slot 0 is free for the libc. -/
theorem slotsPrivate_iff_slotZeroFree {env : Env} {fuel : ℕ} {exe libc : Image} {s : Loader}
    (hs : startup env fuel exe libc = some (.success s)) {live : List Block}
    {actions : List Action} (hrun : (boot s live).perform p actions = some m) :
    m.SlotsPrivate p ↔ m.loader.SlotZeroFree := by
  have h := (slotted_boot (hasIndices_startup hs) live).perform hrun
  refine ⟨fun hprivate => ?_, h.slotsPrivate⟩
  by_contra hnot
  obtain ⟨hlibc, id, hid, hne, hsize, hindex⟩ := h.indices.shared_of_not_slotZeroFree hnot
  exact (hprivate id hid 1 h.indices.indexed.libc_mem hne hsize hlibc).index hindex

end Machine

/-! ### A program with two slots -/

theorem upwards_apart {sizeofTcb : Addr} {live : List Block}
    (h : (Platform.upwards sizeofTcb).allocate live n = some a) {b : Block} (hb : b ∈ live) :
    b.Apart ⟨a, n⟩ := by
  have hle := le_foldr_max hb
  simp only [Platform.upwards] at h
  split at h
  next htop =>
    cases h
    refine .inl ?_
    rw [BitVec.toNat_ofNat, Nat.mod_eq_of_lt htop]
    exact hle
  · cases h

def Allocator.upwards (sizeofTcb : Addr) : Allocator :=
  { Platform.upwards sizeofTcb with allocate_disjoint := fun h _ => upwards_apart h }

/-- A library `t` with thread-local data of the dynamic model. -/
def withDynamicTls : Env :=
  .ofLibraries fun name =>
    if name = ['t'] then
      some { File.library ['t'] [] [] with
        phdrs := some [⟨.load, 0, 4096, 4096, true⟩, ⟨.tls, 0, 64, 16, true⟩] }
    else none

/-- The libc of this program has no thread-local data. -/
theorem slotsPrivate_tlsProgram :
    ∃ s m, startup withDynamicTls 8 .tlsProgram .libc = some (.success s) ∧
      (Machine.boot s []).perform (.upwards 512)
        [.createTcb, .dlopen withDynamicTls 8 (some ['t']) ⟨false, false⟩ 0, .access 0 2] =
          some m ∧
      m.SlotsPrivate (.upwards 512) := by
  -- the start and the run fix the loader and the machine before the theorem is applied
  have key {s : Loader} {m : Machine}
      (hs : startup withDynamicTls 8 .tlsProgram .libc = some (.success s))
      (hrun : (Machine.boot s []).perform (.upwards 512)
        [.createTcb, .dlopen withDynamicTls 8 (some ['t']) ⟨false, false⟩ 0, .access 0 2] =
          some m) (hfree : m.loader.SlotZeroFree) : m.SlotsPrivate (.upwards 512) :=
    (Machine.slotsPrivate_iff_slotZeroFree hs hrun).mpr hfree
  exact ⟨_, _, rfl, rfl, key rfl rfl (by decide)⟩

/-- The executable has slot 0, and so has the libc: it is given the eight bytes that were
allocated for the executable. -/
theorem not_slotsPrivate_libcTls :
    ∃ s m m' m'' x, startup withDynamicTls 8 .tlsProgram .libcTls = some (.success s) ∧
      (Machine.boot s []).perform (.upwards 512) [.createTcb] = some m ∧
      m.accessTls (.upwards 512) 0 0 = some (x, m') ∧
      m'.accessTls (.upwards 512) 0 1 = some (x, m'') ∧
      (m.loader.obj 0).tlsSize = 8 ∧ (m.loader.obj 1).tlsSize = 32 ∧
      ¬ m.SlotsPrivate (.upwards 512) := by
  refine ⟨_, _, _, _, _, rfl, rfl, rfl, rfl, rfl, rfl, fun h => ?_⟩
  exact (h 0 (by decide) 1 (by decide) (by decide) (by decide) (by decide)).index (by decide)

end Hzlibc.Rtld
