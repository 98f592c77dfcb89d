import Hzlibc.Rtld.Load
import Mathlib.Algebra.Order.Ring.Int

/-!
Thread-local data after the start of a program.

Every object that has thread-local data at the start gets a place below the
control block of each thread, and code compiled for the static model reaches
it by a displacement from the thread pointer that a relocation stores. Code
compiled for the dynamic model passes the object to `__tls_get_addr`, which
looks it up in the thread's own vector and allocates what is missing there.

The allocator is not part of the loader. A `Platform` is any allocator that
does not hand out memory in use; the layout is that of x86-64, where the
thread pointer is the address of the control block.
-/

namespace Hzlibc.Rtld

open List

structure Block where
  base : Addr
  size : ℕ
  deriving DecidableEq

namespace Block

variable (b : Block)

/-- The block `c` is a part of `b`. -/
def Holds (c : Block) : Prop :=
  b.base.toNat ≤ c.base.toNat ∧ c.base.toNat + c.size ≤ b.base.toNat + b.size

instance (c : Block) : Decidable (b.Holds c) :=
  inferInstanceAs (Decidable (_ ∧ _))

/-- The byte at `a` belongs to `b`. -/
def Covers (a : Addr) : Prop := b.base.toNat ≤ a.toNat ∧ a.toNat < b.base.toNat + b.size

/-- The two blocks share no byte. -/
def Apart (c : Block) : Prop :=
  b.base.toNat + b.size ≤ c.base.toNat ∨ c.base.toNat + c.size ≤ b.base.toNat

instance (c : Block) : Decidable (b.Apart c) :=
  inferInstanceAs (Decidable (_ ∨ _))

variable {b}

theorem Holds.covers {c : Block} (h : b.Holds c) (hc : 0 < c.size) : b.Covers c.base := by
  obtain ⟨hlow, hhigh⟩ := h
  constructor <;> omega

end Block

structure Platform where
  /-- `Allocator::allocate` with the given blocks in use; no result when its
  assertion fails. -/
  allocate : List Block → ℕ → Option Addr
  sizeofTcb : Addr
  allocate_apart : ∀ {live : List Block} {n : ℕ} {a : Addr}, allocate live n = some a →
    ∀ b ∈ live, ¬ b.Covers a

structure Thread where
  /-- The allocation that holds the static blocks and the control block. -/
  block : Block
  tcb : Addr
  /-- `Tcb::dtv`, with null pointers as `none`. -/
  dtv : List (Option Addr)
  deriving DecidableEq

structure Machine where
  loader : Loader
  live : List Block
  threads : List Thread
  deriving DecidableEq

namespace Loader

variable (s : Loader)

/-- `ObjectStorage::init_tls` without the check for objects initialised
before: the memory it writes. -/
def initTls (tcb : Addr) : List Block :=
  ((s.storage.objects.map s.obj).filter fun o => o.initialTlsModel && o.tlsSize ≠ 0).map
    fun o => ⟨tcb - o.tlsOffset, o.tlsSize.toNat⟩

end Loader

namespace Machine

variable (p : Platform) (m : Machine)

/-- `__dlapi_create_tcb`. There is no thread when the thread-local data would
be written outside the memory allocated for it. -/
def createTcb : Option Machine :=
  let tcbOffset := (m.loader.storage.totalInitialTlsSize + 16 - 1) &&& ~~~(16 - 1)
  let totalTlsSize := tcbOffset + p.sizeofTcb
  match p.allocate m.live totalTlsSize.toNat with
  | none => none
  | some mem =>
    let block : Block := ⟨mem, totalTlsSize.toNat⟩
    let tcb := mem + tcbOffset
    if ∀ b ∈ m.loader.initTls tcb, block.Holds b then
      some { m with live := block :: m.live, threads := m.threads ++ [⟨block, tcb, []⟩] }
    else none

/-- `hz::vector::resize` on a vector of pointers. -/
def resize (n : ℕ) (dtv : List (Option Addr)) : List (Option Addr) :=
  dtv.take n ++ List.replicate (n - dtv.length) none

/-- The vector of a thread when `access_tls_for_object` reads it. -/
def grownDtv (o : SharedObject) (dtv : List (Option Addr)) : List (Option Addr) :=
  if o.tlsModuleIndex ≥ dtv.length then resize m.loader.storage.runtimeTlsMap.length dtv
  else dtv

def setDtv (t : ℕ) (dtv : List (Option Addr)) : Machine :=
  { m with threads := m.threads.modify t fun th => { th with dtv } }

/-- `access_tls_for_object` in thread `t`. There is no result when the entry
lies outside the vector, or when there is no memory. -/
def accessTls (t : ℕ) (id : ObjId) : Option (Addr × Machine) :=
  match m.threads[t]? with
  | none => none
  | some th =>
    let o := m.loader.obj id
    let dtv := m.grownDtv o th.dtv
    match dtv[o.tlsModuleIndex]? with
    | none => none
    | some (some entry) => some (entry, m.setDtv t dtv)
    | some none =>
      match p.allocate m.live o.tlsSize.toNat with
      | none => none
      | some mem =>
        some (mem, { m.setDtv t (dtv.set o.tlsModuleIndex (some mem)) with
          live := ⟨mem, o.tlsSize.toNat⟩ :: m.live })

/-- `__tls_get_addr` in thread `t`, for the object that a module relocation
stored and an offset in its segment. -/
def tlsGetAddr (t : ℕ) (id : ObjId) (offset : Addr) : Option Addr :=
  (m.accessTls p t id).map fun r => r.1 + offset

end Machine

/-- The word that `R_TPOFF` stores for an offset in the segment of `target`; no
result when its assertion fails. -/
def SharedObject.tpoff (target : SharedObject) (offset : Addr) : Option Addr :=
  if target.initialTlsModel then some (-target.tlsOffset + 0 + offset) else none

/-- The address that code of the static model computes in thread `t`. -/
def Machine.staticAddr (m : Machine) (t : ℕ) (id : ObjId) (offset : Addr) : Option Addr :=
  match m.threads[t]?, (m.loader.obj id).tpoff offset with
  | some th, some word => some (th.tcb + word)
  | _, _ => none

/-- Both models give the same address. -/
def Machine.ModelsAgree (p : Platform) (m : Machine) (t : ℕ) (id : ObjId) (offset : Addr) :
    Prop :=
  ∃ a, m.staticAddr t id offset = some a ∧ m.tlsGetAddr p t id offset = some a

/-! ### Runs -/

inductive Machine.Event
  | createTcb
  | access (t : ℕ) (id : ObjId)
  /-- The rest of the program allocates and frees. -/
  | heap (live : List Block)

variable {a : Addr} {dtv : List (Option Addr)} {id : ObjId} {t : ℕ} {th : Thread}

namespace Machine

variable (p : Platform)

/-- A thread's own block is not freed while the thread runs. -/
def step (m : Machine) : Event → Option Machine
  | .createTcb => m.createTcb p
  | .access t id => (m.accessTls p t id).map (·.2)
  | .heap live => if ∀ th ∈ m.threads, th.block ∈ live then some { m with live } else none

def run (m : Machine) (events : List Event) : Option Machine := events.foldlM (step p) m

/-- The machine when the loader has been set up, before its first thread. -/
def boot (s : Loader) (live : List Block) : Machine := ⟨s, live, []⟩

/-! ### What a thread keeps apart -/

/-- The static blocks lie in the thread's own allocation, and nothing in its
vector does. -/
structure KeepsApart (m : Machine) (th : Thread) : Prop where
  live : th.block ∈ m.live
  static : ∀ b ∈ m.loader.initTls th.tcb, th.block.Holds b
  dynamic : ∀ a, some a ∈ th.dtv → ¬ th.block.Covers a

def Apart (m : Machine) : Prop := ∀ th ∈ m.threads, m.KeepsApart th

variable {p} {m m' : Machine}

theorem mem_resize {n : ℕ} (h : some a ∈ resize n dtv) : some a ∈ dtv := by
  rcases mem_append.mp h with h | h
  · exact mem_of_mem_take h
  · exact absurd (eq_of_mem_replicate h) (Option.some_ne_none a)

theorem mem_grownDtv {o : SharedObject} (h : some a ∈ m.grownDtv o dtv) : some a ∈ dtv := by
  unfold grownDtv at h
  split at h
  · exact mem_resize h
  · exact h

/-- The two ways an access ends: the entry was there, or it has just been
allocated. -/
theorem accessTls_spec (h : m.accessTls p t id = some (a, m')) :
    ∃ th dtv k, m.threads[t]? = some th ∧ dtv = m.grownDtv (m.loader.obj id) th.dtv ∧
      k = (m.loader.obj id).tlsModuleIndex ∧
      (dtv[k]? = some (some a) ∧ m' = m.setDtv t dtv ∨
        dtv[k]? = some none ∧ p.allocate m.live (m.loader.obj id).tlsSize.toNat = some a ∧
          m' = { m.setDtv t (dtv.set k (some a)) with
            live := ⟨a, (m.loader.obj id).tlsSize.toNat⟩ :: m.live }) := by
  unfold accessTls at h
  split at h
  · cases h
  case _ th hth =>
    refine ⟨th, _, _, hth, rfl, rfl, ?_⟩
    simp only at h
    split at h
    · cases h
    case _ entry hentry =>
      cases h
      exact .inl ⟨hentry, rfl⟩
    case _ hentry =>
      split at h
      · cases h
      case _ mem hmem =>
        cases h
        exact .inr ⟨hentry, hmem, rfl⟩

theorem accessTls_cases (h : m.accessTls p t id = some (a, m')) :
    ∃ th, m.threads[t]? = some th ∧
      ((some a ∈ th.dtv ∧ m' = m.setDtv t (m.grownDtv (m.loader.obj id) th.dtv)) ∨
        p.allocate m.live (m.loader.obj id).tlsSize.toNat = some a ∧
          m' = { m.setDtv t ((m.grownDtv (m.loader.obj id) th.dtv).set
              (m.loader.obj id).tlsModuleIndex (some a)) with
            live := ⟨a, (m.loader.obj id).tlsSize.toNat⟩ :: m.live }) := by
  obtain ⟨th, dtv, k, hth, rfl, rfl, ⟨hentry, hm⟩ | ⟨-, hmem, hm⟩⟩ := accessTls_spec h
  · exact ⟨th, hth, .inl ⟨mem_grownDtv (mem_of_getElem? hentry), hm⟩⟩
  · exact ⟨th, hth, .inr ⟨hmem, hm⟩⟩

theorem KeepsApart.of_live (h : m.KeepsApart th) (hloader : m'.loader = m.loader)
    (hlive : th.block ∈ m'.live) : m'.KeepsApart th :=
  ⟨hlive, fun b hb => h.static b (hloader ▸ hb), h.dynamic⟩

theorem mem_setDtv {th' : Thread} (hth : m.threads[t]? = some th)
    (h : th' ∈ (m.setDtv t dtv).threads) : th' ∈ m.threads ∨ th' = { th with dtv } := by
  obtain ⟨i, hi⟩ := List.getElem?_of_mem h
  simp only [Machine.setDtv, List.getElem?_modify] at hi
  split at hi
  case _ hit =>
    subst hit
    rw [hth] at hi
    cases hi
    exact .inr rfl
  · exact .inl (mem_of_getElem? (by simpa using hi))

/-- A new vector for thread `t` whose entries lie outside the thread's block. -/
theorem Apart.setDtv (h : m.Apart) (hth : m.threads[t]? = some th)
    (hdtv : ∀ a, some a ∈ dtv → ¬ th.block.Covers a) : (m.setDtv t dtv).Apart := by
  intro th' hth'
  rcases mem_setDtv hth hth' with hth' | rfl
  · have hk := h th' hth'
    exact ⟨hk.live, hk.static, hk.dynamic⟩
  · have hk := h th (mem_of_getElem? hth)
    exact ⟨hk.live, hk.static, hdtv⟩

theorem createTcb_spec (hm : m.createTcb p = some m') :
    ∃ block tcb, (∀ b ∈ m.loader.initTls tcb, block.Holds b) ∧
      m' = { m with live := block :: m.live, threads := m.threads ++ [⟨block, tcb, []⟩] } := by
  unfold Machine.createTcb at hm
  simp only at hm
  split at hm
  · cases hm
  split at hm
  · case _ hstatic =>
      cases hm
      exact ⟨_, _, hstatic, rfl⟩
  · cases hm

theorem Apart.createTcb (h : m.Apart) (hm : m.createTcb p = some m') : m'.Apart := by
  obtain ⟨block, tcb, hstatic, rfl⟩ := createTcb_spec hm
  intro th hth
  rcases mem_append.mp hth with hth | hth
  · exact (h th hth).of_live rfl (mem_cons_of_mem _ (h th hth).live)
  · rw [mem_singleton] at hth
    subst hth
    refine ⟨mem_cons_self, hstatic, ?_⟩
    intro a ha
    cases ha

theorem Apart.accessTls (h : m.Apart) (hm : m.accessTls p t id = some (a, m')) : m'.Apart := by
  obtain ⟨th, hth, ⟨-, rfl⟩ | ⟨hnew, rfl⟩⟩ := accessTls_cases hm
  · exact h.setDtv hth fun b hb =>
      (h th (mem_of_getElem? hth)).dynamic b (mem_grownDtv hb)
  · have hk := h th (mem_of_getElem? hth)
    have hdtv : ∀ b, some b ∈ (m.grownDtv (m.loader.obj id) th.dtv).set
        (m.loader.obj id).tlsModuleIndex (some a) → ¬ th.block.Covers b := by
      intro b hb
      rcases mem_or_eq_of_mem_set hb with hb | hb
      · exact hk.dynamic b (mem_grownDtv hb)
      · cases hb
        exact p.allocate_apart hnew _ hk.live
    have hset := h.setDtv hth hdtv
    intro th' hth'
    exact (hset th' hth').of_live rfl (mem_cons_of_mem _ (hset th' hth').live)

theorem Apart.step (h : m.Apart) {e : Event} (hm : m.step p e = some m') : m'.Apart := by
  cases e with
  | createTcb => exact h.createTcb hm
  | access t id =>
    obtain ⟨r, hr, rfl⟩ := Option.map_eq_some_iff.mp hm
    exact h.accessTls hr
  | heap live =>
    simp only [Machine.step] at hm
    split at hm
    · case _ hlive =>
        cases hm
        exact fun th hth => (h th hth).of_live rfl (hlive th hth)
    · cases hm

theorem Apart.run (h : m.Apart) {events : List Event} (hm : m.run p events = some m') : m'.Apart :=
  Loop.foldlM_invariant (fun _ _ _ h => h.step) h hm

theorem step_loader {e : Event} (hm : m.step p e = some m') : m'.loader = m.loader := by
  cases e with
  | createTcb =>
    obtain ⟨block, tcb, -, rfl⟩ := createTcb_spec hm
    rfl
  | access t id =>
    obtain ⟨r, hr, rfl⟩ := Option.map_eq_some_iff.mp hm
    obtain ⟨th, -, ⟨-, h⟩ | ⟨-, h⟩⟩ := accessTls_cases hr
    · rw [h]
      rfl
    · rw [h]
      rfl
  | heap live =>
    simp only [Machine.step] at hm
    split at hm
    · cases hm
      rfl
    · cases hm

theorem run_loader {events : List Event} (hm : m.run p events = some m') : m'.loader = m.loader :=
  Loop.foldlM_invariant (I := fun m' => m'.loader = m.loader)
    (fun _ _ _ h hstep => (step_loader hstep).trans h) rfl hm

/-! ### The two addresses -/

/-- What the dynamic model returns never lies in the thread's own block. -/
theorem Apart.not_covers_accessTls (h : m.Apart) (hth : m.threads[t]? = some th)
    (hm : m.accessTls p t id = some (a, m')) : ¬ th.block.Covers a := by
  have hk := h th (mem_of_getElem? hth)
  obtain ⟨th', hth', hcase⟩ := accessTls_cases hm
  obtain rfl : th = th' := by simpa [hth] using hth'
  rcases hcase with ⟨hmem, -⟩ | ⟨hnew, -⟩
  · exact hk.dynamic a hmem
  · exact p.allocate_apart hnew _ hk.live

/-- The static block of an object lies in the thread's own block. -/
theorem KeepsApart.covers_static (h : m.KeepsApart th) (hid : id ∈ m.loader.storage.objects)
    (hmodel : (m.loader.obj id).initialTlsModel = true) (hsize : (m.loader.obj id).tlsSize ≠ 0) :
    th.block.Covers (th.tcb - (m.loader.obj id).tlsOffset) := by
  have hmem : (⟨th.tcb - (m.loader.obj id).tlsOffset, (m.loader.obj id).tlsSize.toNat⟩ : Block) ∈
      m.loader.initTls th.tcb := by
    refine mem_map.mpr ⟨m.loader.obj id, mem_filter.mpr ⟨?_, ?_⟩, rfl⟩
    · exact mem_map.mpr ⟨id, hid, rfl⟩
    · simpa [hmodel] using hsize
  refine (h.static _ hmem).covers ?_
  exact Nat.pos_of_ne_zero fun hzero => hsize (BitVec.eq_of_toNat_eq hzero)

/-- The two models never give the same address: one is in the thread's own
block, the other in an allocation of its own. -/
theorem not_modelsAgree {s : Loader} {live : List Block} {events : List Event}
    (hrun : (boot s live).run p events = some m) {id : ObjId} (hid : id ∈ s.storage.objects)
    {offset : Addr} (hoffset : offset < (s.obj id).tlsSize) (t : ℕ) :
    ¬ m.ModelsAgree p t id offset := by
  have hloader : m.loader = s := run_loader hrun
  have hApart : m.Apart := Apart.run (m := boot s live) (fun th hth => nomatch hth) hrun
  have hsize : (s.obj id).tlsSize ≠ 0 := by
    intro hzero
    simp [hzero] at hoffset
  subst hloader
  rintro ⟨a, hstatic, hdynamic⟩
  obtain ⟨⟨entry, m''⟩, hentry, rfl⟩ := Option.map_eq_some_iff.mp hdynamic
  simp only [staticAddr, SharedObject.tpoff] at hstatic
  split at hstatic
  case _ th word hth hword =>
    split at hword
    case _ hmodel =>
      cases hword
      have hsame : th.tcb - (m.loader.obj id).tlsOffset = entry := by
        simp at hstatic
        refine (BitVec.add_left_inj offset).mp ?_
        rw [← hstatic]
        simp [BitVec.sub_eq_add_neg, BitVec.add_assoc]
      exact hApart.not_covers_accessTls hth hentry
        (hsame ▸ (hApart th (mem_of_getElem? hth)).covers_static hid hmodel hsize)
    · cases hword
  · cases hstatic

end Machine

/-! ### A program with thread-local data -/

theorem le_foldr_max {live : List Block} {b : Block} (hb : b ∈ live) :
    b.base.toNat + b.size ≤ live.foldr (fun b n => max (b.base.toNat + b.size) n) 4096 := by
  induction live with
  | nil => cases hb
  | cons c live ih =>
    rcases mem_cons.mp hb with rfl | hb
    · exact Nat.le_max_left _ _
    · exact Nat.le_trans (ih hb) (Nat.le_max_right _ _)

/-- Memory is handed out upwards, above every block in use. -/
def Platform.upwards (sizeofTcb : Addr) : Platform where
  allocate live _ :=
    let top := live.foldr (fun b n => max (b.base.toNat + b.size) n) 4096
    if top < 2 ^ 64 then some (BitVec.ofNat 64 top) else none
  sizeofTcb
  allocate_apart := by
    intro live n a h b hb hcovers
    have hle := le_foldr_max hb
    simp only at h
    split at h
    · cases h
      have hlt := hcovers.2
      rw [BitVec.toNat_ofNat, Nat.mod_eq_of_lt (by assumption)] at hlt
      omega
    · cases h

/-- An executable with eight bytes of thread-local data. -/
def Image.tlsProgram : Image :=
  ⟨['/', 'p'], 0, [⟨.load, 0, 4096, 4096, true⟩, ⟨.tls, 0, 8, 8, true⟩], [], [], []⟩

/-- After the start, in the first thread, the two models give two addresses. -/
theorem tlsProgram_staticAddr_ne_tlsGetAddr :
    ∃ s m, startup (Env.ofLibraries fun _ => none) 8 .tlsProgram .libc = some (.success s) ∧
      (Machine.boot s []).run (.upwards 512) [.createTcb] = some m ∧
      m.staticAddr 0 0 0 = some 8184 ∧ m.tlsGetAddr (.upwards 512) 0 0 0 = some 8704 ∧
      ¬ m.ModelsAgree (.upwards 512) 0 0 0 := by
  refine ⟨_, _, rfl, rfl, rfl, rfl, ?_⟩
  rintro ⟨a, hstatic, hdynamic⟩
  cases hstatic
  cases hdynamic

theorem tlsProgram_not_modelsAgree :
    ∃ s m, startup (Env.ofLibraries fun _ => none) 8 .tlsProgram .libc = some (.success s) ∧
      (Machine.boot s []).run (.upwards 512) [.createTcb, .access 0 0, .createTcb] = some m ∧
      m.threads.length = 2 ∧ 0 ∈ s.storage.objects ∧ (4 : Addr) < (s.obj 0).tlsSize ∧
      ¬ m.ModelsAgree (.upwards 512) 1 0 4 := by
  -- the start and the run fix the loader and the machine before the theorem is applied
  have key {s : Loader} {m : Machine}
      (_ : startup (Env.ofLibraries fun _ => none) 8 .tlsProgram .libc = some (.success s))
      (hrun : (Machine.boot s []).run (.upwards 512) [.createTcb, .access 0 0, .createTcb] =
        some m) (hid : 0 ∈ s.storage.objects) (hoffset : (4 : Addr) < (s.obj 0).tlsSize) :
      ¬ m.ModelsAgree (.upwards 512) 1 0 4 :=
    Machine.not_modelsAgree hrun hid hoffset 1
  exact ⟨_, _, rfl, rfl, rfl, by decide, by decide, key rfl rfl (by decide) (by decide)⟩

end Hzlibc.Rtld
