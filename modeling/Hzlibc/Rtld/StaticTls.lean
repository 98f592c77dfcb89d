import Hzlibc.Memory.Layout
import Hzlibc.Rtld.Tls
import Hzlibc.Rtld.TlsState

/-!
Static thread-local data below the thread pointer.

Every object of the static model has a block that ends below the control block of each
thread, and `tls_offset` is the distance of its start from there. The executable and the
libc get theirs first, then each object in the order in which it is taken; a block is put
behind all earlier ones, so the blocks are a stack (`Memory.Stacked`) whose height is
`initial_tls_size`. After the start the stack may grow into a reserve of 4096 bytes, and
an object whose block would end behind the reserve is refused.

None of the sums is checked for overflow. `Room` says that one does not overflow, and
`Laid` is what holds as long as none does.
-/

namespace Hzlibc.Rtld

open Memory List

/-! ### Room for a block -/

/-- The block fits behind the others. -/
structure TlsView.Room (v : TlsView) (total : Addr) : Prop where
  align : IsPowerOfTwo v.align
  fits : total.toNat + v.size.toNat + (v.align.toNat - 1) < 2 ^ 64

namespace TlsView

variable {v : TlsView} {total : Addr}

instance (v : TlsView) (total : Addr) : Decidable (v.Room total) :=
  decidable_of_iff
    (IsPowerOfTwo v.align ∧ total.toNat + v.size.toNat + (v.align.toNat - 1) < 2 ^ 64)
    ⟨fun h => ⟨h.1, h.2⟩, fun h => ⟨h.1, h.2⟩⟩

theorem endAfter_eq (v : TlsView) (total : Addr) :
    v.endAfter total = alignUp (total + v.size) v.align := by
  have hsum : total + v.size + v.align - 1 = total + v.size + (v.align - 1) := by grind
  rw [endAfter, alignUp, hsum]

theorem Room.toNat_add (h : v.Room total) :
    (total + v.size).toNat = total.toNat + v.size.toNat := by
  rw [BitVec.toNat_add]
  have := h.fits
  omega

theorem Room.le_endAfter (h : v.Room total) :
    total.toNat + v.size.toNat ≤ (v.endAfter total).toNat := by
  rw [endAfter_eq, ← h.toNat_add]
  refine h.align.le_alignUp ?_
  rw [Fits, h.toNat_add]
  exact h.fits

theorem Room.dvd_endAfter (h : v.Room total) : v.align.toNat ∣ (v.endAfter total).toNat := by
  rw [endAfter_eq]
  exact h.align.dvd_alignUp _

end TlsView

/-- There is room for the object if its block is placed when it is taken. -/
def TlsState.HasRoom (initial : Bool) (a : TlsState) (id : ObjId) : Prop :=
  (a.view id).size ≠ 0 → ((a.view id).taken initial).Static → (a.view id).Room a.initialSize

instance (initial : Bool) (a : TlsState) (id : ObjId) : Decidable (a.HasRoom initial id) :=
  inferInstanceAs (Decidable (_ → _ = true ∧ _ = true → _))

/-! ### The invariant -/

/-- The blocks of the objects in `placed` are a stack, and they are all the blocks there
are, up to objects that wait in the load list. -/
structure TlsState.Laid (placed : List ObjId) (a : TlsState) : Prop where
  stacked : Stacked (fun id => (a.view id).offset.toNat) (fun id => (a.view id).size.toNat)
    a.initialSize.toNat placed
  aligned : ∀ id ∈ placed, (a.view id).size ≠ 0 →
    (a.view id).align.toNat ∣ (a.view id).offset.toNat
  other : ∀ id ∈ a.objects, id ∉ placed → (a.view id).offset = 0
  static : ∀ id ∈ a.objects, (a.view id).size ≠ 0 → (a.view id).model = true →
    id ∈ placed ∨ id ∈ a.pending
  -- the executable has its block before it is taken
  waiting : ∀ id ∈ a.pending, id ∈ placed ↔ (a.view id).loaded = false
  lt_built : ∀ id ∈ placed, id < a.built
  room : a.reserve ≠ 0 → a.initialSize ≤ a.reserve

namespace TlsState.Laid

variable {placed : List ObjId} {a a' : TlsState}

section

variable (h : Laid placed a)
include h

theorem add (hwf : a.WellFormed) {v : TlsView} (hv : v.Fresh) : Laid placed (a.add v) := by
  have hview : ∀ id < a.built, (a.add v).view id = a.view id := fun id hid =>
    a.view_add_of_ne (Nat.ne_of_lt hid) v
  exact
    { stacked := h.stacked.congr (fun id hid => by rw [hview id (h.lt_built id hid)])
        (fun id hid => by rw [hview id (h.lt_built id hid)])
      aligned := fun id hid => by
        rw [hview id (h.lt_built id hid)]
        exact h.aligned id hid
      other := fun id hid hnot => by
        rcases mem_append.mp hid with hid | hid
        · rw [hview id (hwf.lt_built id hid)]
          exact h.other id hid hnot
        · rw [mem_singleton.mp hid, a.view_add_self]
          exact hv.offset
      static := fun id hid hsize hmodel => by
        rcases mem_append.mp hid with hid | hid
        · rw [hview id (hwf.lt_built id hid)] at hsize hmodel
          exact (h.static id hid hsize hmodel).imp_right (mem_cons_of_mem _)
        · exact .inr (mem_cons.mpr (.inl (mem_singleton.mp hid)))
      waiting := fun id hid => by
        rcases mem_cons.mp hid with rfl | hid
        · rw [a.view_add_self, hv.loaded]
          exact iff_of_false (fun hp => Nat.lt_irrefl _ (h.lt_built _ hp)) (by decide)
        · rw [hview id (hwf.pending_lt hid)]
          exact h.waiting id hid
      lt_built := fun id hid => Nat.lt_succ_of_lt (h.lt_built id hid)
      room := h.room }

/-- An object is taken, but gets no block. -/
theorem takeAs {id : ObjId} (hid : a.pending.head? = some id)
    {v : TlsView} (hsize : v.size = (a.view id).size) (halign : v.align = (a.view id).align)
    (hoffset : v.offset = (a.view id).offset) (hloaded : v.loaded = (a.view id).loaded)
    (hstatic : v.size ≠ 0 → v.model = true → id ∈ placed) (map : List ObjId) :
    Laid placed { a.takeAs id v with map } where
  stacked := h.stacked.congr
    (fun i _ => congrArg BitVec.toNat (a.proj_set TlsView.offset hoffset i))
    (fun i _ => congrArg BitVec.toNat (a.proj_set TlsView.size hsize i))
  aligned i hi := by
    have := h.aligned i hi
    rw [← a.proj_set TlsView.size hsize i, ← a.proj_set TlsView.align halign i,
      ← a.proj_set TlsView.offset hoffset i] at this
    exact this
  other i hi hnot := (a.proj_set TlsView.offset hoffset i).trans (h.other i hi hnot)
  static i hi hne hmodel := by
    by_cases hi' : i = id
    · subst hi'
      refine .inl (hstatic ?_ ?_)
      · simpa [TlsState.takeAs] using hne
      · simpa [TlsState.takeAs] using hmodel
    · have hview : (a.takeAs id v).view i = a.view i := a.view_set_of_ne hi' v
      rw [hview] at hne hmodel
      exact (h.static i hi hne hmodel).imp_right (mem_tail_pending hid · hi')
  waiting i hi := by
    refine (h.waiting i (mem_of_mem_tail hi)).trans ?_
    rw [← a.proj_set TlsView.loaded hloaded i]
    rfl
  lt_built := h.lt_built
  room := h.room

/-- An object is taken and gets the next block. -/
theorem place (hwf : a.WellFormed) {id : ObjId}
    (hid : a.pending.head? = some id) {v : TlsView} (hsize : v.size = (a.view id).size)
    (halign : v.align = (a.view id).align) (hloaded : (a.view id).loaded = true)
    (hroom : (a.view id).Room a.initialSize)
    (hoffset : v.offset = (a.view id).endAfter a.initialSize)
    (hreserve : a.reserve = 0 ∨ v.offset ≤ a.reserve) (map : List ObjId) :
    Laid (placed ++ [id]) { a.takeAs id v with initialSize := v.offset, map } := by
  have hmem : id ∈ a.pending := mem_of_mem_head? hid
  have hnot : id ∉ placed := fun hp => by
    have := (h.waiting id hmem).mp hp
    rw [hloaded] at this
    cases this
  have hself : (a.takeAs id v).view id = v := a.view_set_self id v
  have hview : ∀ i ≠ id, (a.takeAs id v).view i = a.view i := fun i hi => a.view_set_of_ne hi v
  have hplaced : ∀ i ∈ placed, (a.takeAs id v).view i = a.view i := fun i hi =>
    hview i fun heq => hnot (heq ▸ hi)
  exact
    { stacked := by
        have hold : Stacked (fun i => ((a.takeAs id v).view i).offset.toNat)
            (fun i => ((a.takeAs id v).view i).size.toNat) a.initialSize.toNat placed :=
          h.stacked.congr (fun i hi => by rw [hplaced i hi]) (fun i hi => by rw [hplaced i hi])
        have hpush := hold.push (i := id)
        rw [hself, hsize, hoffset] at hpush
        have hstacked := hpush hroom.le_endAfter
        rw [← hoffset] at hstacked
        exact hstacked
      aligned := fun i hi => by
        rcases mem_append.mp hi with hi | hi
        · rw [hplaced i hi]
          exact h.aligned i hi
        · rw [mem_singleton.mp hi, hself, halign, hoffset]
          exact fun _ => hroom.dvd_endAfter
      other := fun i hi hi' => by
        rw [mem_append, not_or, mem_singleton] at hi'
        rw [hview i hi'.2]
        exact h.other i hi hi'.1
      static := fun i hi hne hmodel => by
        by_cases heq : i = id
        · exact .inl (mem_append_right _ (mem_singleton.mpr heq))
        · rw [hview i heq] at hne hmodel
          exact (h.static i hi hne hmodel).imp (mem_append_left _) (mem_tail_pending hid · heq)
      waiting := fun i hi => by
        have hne := hwf.ne_of_mem_tail hid hi
        rw [hview i hne, mem_append, mem_singleton, or_iff_left hne]
        exact h.waiting i (mem_of_mem_tail hi)
      lt_built := fun i hi => by
        rcases mem_append.mp hi with hi | hi
        · exact h.lt_built i hi
        · rw [mem_singleton.mp hi]
          exact hwf.pending_lt hmem
      room := fun hr => hreserve.resolve_left hr }

theorem step {initial : Bool} {l : Option ObjId} (hwf : a.WellFormed)
    (hroom : ∀ id ∈ l, a.HasRoom initial id) (hstep : TlsStep initial l a a') :
    ∃ placed', Laid placed' a' := by
  cases hstep with
  | idle => exact ⟨placed, h⟩
  | add hv => exact ⟨placed, h.add hwf hv⟩
  | plain hid hsize =>
    exact ⟨placed, h.takeAs hid (by rfl) (by rfl) (by rfl) (by rfl) (by exact absurd hsize)
      a.map⟩
  | @static _ id hid hsize hstatic hreserve =>
    exact ⟨placed ++ [id], h.place hwf hid (by rfl) (by rfl) hstatic.2
      (hroom id rfl hsize hstatic) (by rfl) (by exact hreserve) _⟩
  | @dynamic _ id hid hsize hdynamic =>
    refine ⟨placed, h.takeAs hid (by rfl) (by rfl) (by rfl) (by rfl) (fun _ hmodel => ?_) _⟩
    have hloaded : (a.view id).loaded = false :=
      Bool.eq_false_iff.mpr fun hloaded => hdynamic ⟨hmodel, hloaded⟩
    exact (h.waiting id (mem_of_mem_head? hid)).mpr hloaded

theorem kept (hwf : a.WellFormed) (hkept : a.Kept a') : Laid placed a' where
  stacked := by
    rw [hkept.initialSize]
    exact h.stacked.congr (fun i hi => by rw [hkept.view i (h.lt_built i hi)])
      (fun i hi => by rw [hkept.view i (h.lt_built i hi)])
  aligned i hi := hkept.view i (h.lt_built i hi) ▸ h.aligned i hi
  other i hi := by
    rw [hkept.objects] at hi
    rw [hkept.view i (hwf.lt_built i hi)]
    exact h.other i hi
  static i hi := by
    rw [hkept.objects] at hi
    rw [hkept.view i (hwf.lt_built i hi), hkept.pending]
    exact h.static i hi
  waiting i hi := by
    rw [hkept.pending] at hi
    rw [hkept.view i (hwf.pending_lt hi)]
    exact h.waiting i hi
  lt_built i hi := (h.lt_built i hi).trans_le hkept.built
  room := by
    rw [hkept.reserve, hkept.initialSize]
    exact h.room

end

end TlsState.Laid

/-! ### The blocks of a thread -/

/-- The distance of the control block from the start of the allocation. -/
def Loader.tcbOffset (s : Loader) : Addr :=
  (s.storage.totalInitialTlsSize + 16 - 1) &&& ~~~(16 - 1)

/-- In every thread, wherever the memory for it is, the static blocks are aligned, apart
from each other and below the control block. -/
structure Loader.StaticTlsRight (s : Loader) : Prop where
  aligned : ∀ id ∈ s.storage.objects, (s.obj id).tlsSize ≠ 0 →
    (s.obj id).tlsAlign.toNat ∣ (s.obj id).tlsOffset.toNat
  apart : ∀ mem : Addr, mem.toNat + s.tcbOffset.toNat < 2 ^ 64 →
    (s.initTls (mem + s.tcbOffset)).Pairwise Block.Apart
  inside : ∀ mem : Addr, mem.toNat + s.tcbOffset.toNat < 2 ^ 64 →
    ∀ b ∈ s.initTls (mem + s.tcbOffset), Block.Holds ⟨mem, s.tcbOffset.toNat⟩ b

namespace TlsState.Laid

variable {placed : List ObjId} {s : Loader} (h : Laid placed (s.tlsState []))
  (hreserve : s.storage.totalInitialTlsSize ≠ 0)
  (hfits : s.storage.totalInitialTlsSize.toNat + 15 < 2 ^ 64)

include h

theorem mem_placed {id : ObjId} (hid : id ∈ s.storage.objects) (hsize : (s.obj id).tlsSize ≠ 0)
    (hmodel : (s.obj id).initialTlsModel = true) : id ∈ placed :=
  (h.static id hid hsize hmodel).resolve_right not_mem_nil

include hreserve hfits

theorem offset_le_tcbOffset {id : ObjId} (hid : id ∈ placed) :
    (s.obj id).tlsOffset.toNat ≤ s.tcbOffset.toNat := by
  have htotal : (s.obj id).tlsOffset.toNat ≤ s.storage.initialTlsSize.toNat :=
    h.stacked.le_total id hid
  have hroom : s.storage.initialTlsSize.toNat ≤ s.storage.totalInitialTlsSize.toNat :=
    h.room hreserve
  have hup : s.tcbOffset = alignUp s.storage.totalInitialTlsSize 16 := by
    have hsum : s.storage.totalInitialTlsSize + 16 - 1
        = s.storage.totalInitialTlsSize + (16 - 1) := by grind
    rw [Loader.tcbOffset, alignUp, hsum]
  have hsixteen : IsPowerOfTwo (16 : Addr) := ⟨4, by decide, rfl⟩
  have hle : s.storage.totalInitialTlsSize.toNat ≤ s.tcbOffset.toNat := by
    rw [hup]
    exact hsixteen.le_alignUp hfits
  exact htotal.trans (hroom.trans hle)

theorem toNat_block {id : ObjId} (hid : id ∈ placed) {mem : Addr}
    (hmem : mem.toNat + s.tcbOffset.toNat < 2 ^ 64) :
    (mem + s.tcbOffset - (s.obj id).tlsOffset).toNat + (s.obj id).tlsOffset.toNat
      = mem.toNat + s.tcbOffset.toNat := by
  have hle := h.offset_le_tcbOffset hreserve hfits hid
  have htcb : (mem + s.tcbOffset).toNat = mem.toNat + s.tcbOffset.toNat := by
    rw [BitVec.toNat_add, Nat.mod_eq_of_lt hmem]
  rw [BitVec.toNat_sub_of_le (by rw [BitVec.le_def]; omega)]
  omega

theorem staticTlsRight (hwf : (s.tlsState []).WellFormed) : s.StaticTlsRight where
  aligned id hid hsize := by
    by_cases hp : id ∈ placed
    · exact h.aligned id hp hsize
    · have hzero : (s.obj id).tlsOffset = 0 := h.other id hid hp
      rw [hzero]
      exact Nat.dvd_zero _
  apart mem hmem := by
    have hnodup : s.storage.objects.Nodup := hwf.nodup_objects
    refine pairwise_map.mpr (pairwise_filter.mpr (pairwise_map.mpr ?_))
    refine hnodup.imp_of_mem fun {i j} hi hj hne hi' hj' => ?_
    simp at hi' hj'
    have hpi := h.mem_placed hi hi'.2 hi'.1
    have hpj := h.mem_placed hj hj'.2 hj'.1
    have hbi := h.toNat_block hreserve hfits hpi hmem
    have hbj := h.toNat_block hreserve hfits hpj hmem
    have hstack :
        (s.obj i).tlsOffset.toNat + (s.obj j).tlsSize.toNat ≤ (s.obj j).tlsOffset.toNat ∨
          (s.obj j).tlsOffset.toNat + (s.obj i).tlsSize.toNat ≤ (s.obj i).tlsOffset.toNat :=
      h.stacked.disjoint hpi hpj hne
    -- a larger offset is a lower address
    simp only [Block.Apart]
    omega
  inside mem hmem b hb := by
    obtain ⟨o, ho, rfl⟩ := mem_map.mp hb
    obtain ⟨ho, hcond⟩ := mem_filter.mp ho
    obtain ⟨id, hid, rfl⟩ := mem_map.mp ho
    simp at hcond
    have hp := h.mem_placed hid hcond.2 hcond.1
    have hblock := h.toNat_block hreserve hfits hp hmem
    have hle := h.offset_le_tcbOffset hreserve hfits hp
    have hsize : (s.obj id).tlsSize.toNat ≤ (s.obj id).tlsOffset.toNat := h.stacked.size_le id hp
    simp only [Block.Holds]
    omega

end TlsState.Laid

/-! ### The start -/

/-- What the start needs to know of the executable and the libc: the executable has at
most one PT_TLS header, the libc has one, and there is room for both blocks. -/
structure StartsWithRoom (exe libc : Image) : Prop where
  single : (exe.phdrs.filter (·.type = .tls)).length ≤ 1
  room_exe : (exeObject exe).tlsSize ≠ 0 → (exeObject exe).tls.Room 0
  room_libc : (libcObject exe libc).tls.Room (exeObject exe).tlsOffset

theorem tlsOffset_exeObject {exe : Image} (h : (exe.phdrs.filter (·.type = .tls)).length ≤ 1) :
    (exeObject exe).tlsOffset = (exeObject exe).tls.endAfter 0 := by
  have hzero : (0 : Addr) + (exeObject exe).tls.size = (exeObject exe).tlsSize := BitVec.zero_add _
  rw [TlsView.endAfter_eq, hzero]
  simp only [exeObject, SharedObject.tls, SharedObject.create, exeTlsOffset]
  rw [← List.head?_filter]
  generalize exe.phdrs.filter (·.type = .tls) = headers at h ⊢
  -- the first header and the last one are the same
  rcases headers with _ | ⟨p, _ | ⟨q, rest⟩⟩
  · rfl
  · rfl
  · simp at h

theorem tlsOffset_libcObject (exe libc : Image) :
    (libcObject exe libc).tlsOffset
      = (libcObject exe libc).tls.endAfter (exeObject exe).tlsOffset := by
  rw [TlsView.endAfter_eq]
  rfl

theorem laid_initial {exe libc : Image} (h : StartsWithRoom exe libc) :
    ((Loader.initial exe libc).tlsState [0]).Laid [0, 1] := by
  have hexe := tlsOffset_exeObject h.single
  have hlibc := tlsOffset_libcObject exe libc
  have hsize : (exeObject exe).tlsSize.toNat ≤ (exeObject exe).tlsOffset.toNat := by
    by_cases hzero : (exeObject exe).tlsSize = 0
    · simp [hzero]
    · have hle := (h.room_exe hzero).le_endAfter
      rw [← hexe] at hle
      exact (Nat.le_add_left _ _).trans hle
  exact
    { stacked := by
        have hnil := stacked_nil (fun id => (((Loader.initial exe libc).obj id).tlsOffset).toNat)
          (fun id => (((Loader.initial exe libc).obj id).tlsSize).toNat) 0
        have hone := hnil.push (i := 0) (by rw [Nat.zero_add]; exact hsize)
        refine hone.push (i := 1) ?_
        have hle := h.room_libc.le_endAfter
        rw [← hlibc] at hle
        exact hle
      aligned := by
        intro id hid hne
        rcases mem_pair.mp hid with rfl | rfl
        · have hdvd := (h.room_exe hne).dvd_endAfter
          rw [← hexe] at hdvd
          exact hdvd
        · have hdvd := h.room_libc.dvd_endAfter
          rw [← hlibc] at hdvd
          exact hdvd
      other := fun id hid hnot => absurd hid hnot
      static := fun id hid _ _ => .inl hid
      waiting := fun id hid => by
        rw [mem_singleton.mp hid]
        exact iff_of_true (mem_cons_self ..) rfl
      lt_built := show ∀ id ∈ [0, 1], id < 2 by decide
      room := fun hr => absurd rfl hr }

/-- A program whose every block found room when it was placed. -/
inductive StaticRun : Loader → Prop
  | start {env : Env} {fuel : ℕ} {exe libc : Image} {s : Loader}
      (h : startup env fuel exe libc = some (.success s)) (hstart : StartsWithRoom exe libc)
      (hroom : Loop.Along (round env true true)
        (fun c => ∀ id ∈ c.taking, c.tlsState.HasRoom true id) fuel
        ((Loader.initial exe libc).enter 0 true))
      (hreserve : s.storage.initialTlsSize.toNat + 4096 + 15 < 2 ^ 64) : StaticRun s
  | opened {env : Env} {fuel : ℕ} {filename : Option Name} {flags : OpenFlags}
      {returnAddr : Addr} {s s' : Loader} {id : ObjId} (hs : StaticRun s)
      (h : dlapiOpen env fuel filename flags returnAddr s = some (.handle id s'))
      (hroom : ∀ c ∈ openTraversal env filename flags returnAddr s,
        Loop.Along (round env flags.global false)
          (fun c => ∀ id ∈ c.taking, c.tlsState.HasRoom false id) fuel c) : StaticRun s'
  /-- A `dlopen` that fails needs no room. -/
  | refused {env : Env} {fuel : ℕ} {filename : Option Name} {flags : OpenFlags}
      {returnAddr : Addr} {s s' : Loader} {e : OpenError} (hs : StaticRun s)
      (h : dlapiOpen env fuel filename flags returnAddr s = some (.null e s')) : StaticRun s'

/-- What holds between two calls of `dlopen`. -/
structure TlsState.LaidOut (a : TlsState) : Prop where
  wellFormed : a.WellFormed
  laid : ∃ placed, a.Laid placed
  reserve_ne : a.reserve ≠ 0
  reserve_fits : a.reserve.toNat + 15 < 2 ^ 64

namespace TlsState

variable {a a' : TlsState}

/-- The end of the start. -/
theorem Laid.laidOut {placed : List ObjId} (h : a.Laid placed) (hwf : a.WellFormed)
    (hfits : a.initialSize.toNat + 4096 + 15 < 2 ^ 64) :
    LaidOut { a with reserve := a.initialSize + 4096 } := by
  have htoNat : (a.initialSize + 4096).toNat = a.initialSize.toNat + 4096 := by
    exact Nat.mod_eq_of_lt (Nat.lt_of_le_of_lt (Nat.le_add_right _ 15) hfits)
  have hle : a.initialSize ≤ a.initialSize + 4096 := by
    rw [BitVec.le_def, htoNat]
    exact Nat.le_add_right ..
  refine ⟨hwf.withReserve _,
    ⟨placed, h.stacked, h.aligned, h.other, h.static, h.waiting, h.lt_built, fun _ => hle⟩,
    fun hzero => ?_, ?_⟩
  · have hzero : a.initialSize + 4096 = 0 := hzero
    rw [hzero] at htoNat
    exact absurd htoNat.symm (Nat.succ_ne_zero _)
  · rw [htoNat]
    exact hfits

theorem LaidOut.add (h : a.LaidOut) {v : TlsView} (hv : v.Fresh) : (a.add v).LaidOut := by
  obtain ⟨placed, hlaid⟩ := h.laid
  exact ⟨h.wellFormed.add v, ⟨placed, hlaid.add h.wellFormed hv⟩, h.reserve_ne, h.reserve_fits⟩

theorem LaidOut.step {l : Option ObjId} {initial : Bool} (h : a.LaidOut)
    (hroom : ∀ id ∈ l, a.HasRoom initial id) (hstep : TlsStep initial l a a') : a'.LaidOut := by
  obtain ⟨placed, hlaid⟩ := h.laid
  have hreserve := hstep.reserve_eq
  exact ⟨hstep.wellFormed h.wellFormed, hlaid.step h.wellFormed hroom hstep,
    hreserve ▸ h.reserve_ne, hreserve ▸ h.reserve_fits⟩

theorem LaidOut.kept (h : a.LaidOut) (hkept : a.Kept a') : a'.LaidOut := by
  obtain ⟨placed, hlaid⟩ := h.laid
  have hreserve := hkept.reserve
  exact ⟨hkept.wellFormed h.wellFormed, ⟨placed, hlaid.kept h.wellFormed hkept⟩,
    hreserve ▸ h.reserve_ne, hreserve ▸ h.reserve_fits⟩

end TlsState

theorem laidOut_startup {env : Env} {fuel : ℕ} {exe libc : Image} {s : Loader}
    (h : startup env fuel exe libc = some (.success s)) (hstart : StartsWithRoom exe libc)
    (hroom : Loop.Along (round env true true)
      (fun c => ∀ id ∈ c.taking, c.tlsState.HasRoom true id) fuel
      ((Loader.initial exe libc).enter 0 true))
    (hreserve : s.storage.initialTlsSize.toNat + 4096 + 15 < 2 ^ 64) : (s.tlsState []).LaidOut := by
  obtain ⟨t, hrun, hs⟩ := startup_tls h
  have henter := (Loader.initial exe libc).tlsState_enter 0 true
  obtain ⟨hwf, placed, hlaid⟩ := Loading.tls_success
    (P := fun l a => ∀ id ∈ l, a.HasRoom true id) (I := fun a => ∃ placed, a.Laid placed)
    (fun l a a' hwf ⟨placed, hlaid⟩ hP hstep => hlaid.step hwf hP hstep)
    (henter ▸ wellFormed_initial exe libc) (henter ▸ ⟨_, laid_initial hstart⟩) hroom hrun
  have hinitial : s.storage.initialTlsSize = t.storage.initialTlsSize :=
    congrArg TlsState.initialSize hs
  rw [hinitial] at hreserve
  rw [hs]
  exact hlaid.laidOut hwf hreserve

theorem StaticRun.laidOut {s : Loader} (h : StaticRun s) : (s.tlsState []).LaidOut := by
  induction h with
  | start h hstart hroom hreserve => exact laidOut_startup h hstart hroom hreserve
  | opened hs h hroom ih =>
    rcases dlapiOpen_tls h with rfl | ⟨o, t, c, ho, hopen, hc, hrun, hs'⟩
    · exact ih
    · have hadd := hc ▸ ih.add ho
      rw [hs']
      exact (Loading.tls_success (P := fun l a => ∀ id ∈ l, a.HasRoom false id)
        (fun l a a' hwf hI hP hstep => hI.step hP hstep) hadd.wellFormed hadd
        (hroom c hopen) hrun).2
  | refused hs h ih => exact ih.kept (dlapiOpen_kept h)

/-- The static blocks are right in every state of every run in which each block has found
room. -/
theorem staticTlsRight_of_staticRun {s : Loader} (h : StaticRun s) : s.StaticTlsRight := by
  have hs := h.laidOut
  obtain ⟨placed, hlaid⟩ := hs.laid
  exact hlaid.staticTlsRight hs.reserve_ne hs.reserve_fits hs.wellFormed

/-- A library `t` with thread-local data of the static model. -/
def withStaticTls (size : Addr) : Env :=
  .ofLibraries fun name =>
    if name = ['t'] then
      some { File.library ['t'] [] [] with
        phdrs := some [⟨.load, 0, 4096, 4096, true⟩, ⟨.tls, 0, size, 16, true⟩]
        dynamic := [.soname ['t'], .flags true false] }
    else none

/-- A libc with 32 bytes of thread-local data. -/
def Image.libcTls : Image :=
  ⟨['/', 'l'], 4096, [⟨.load, 0, 4096, 4096, true⟩, ⟨.tls, 0, 32, 16, true⟩], [], [], []⟩

theorem staticTlsRight_smallBlock :
    ∃ s s', startup (withStaticTls 64) 8 .tlsProgram .libcTls = some (.success s) ∧
      dlapiOpen (withStaticTls 64) 8 (some ['t']) ⟨false, false⟩ 0 s = some (.handle 2 s') ∧
      s'.StaticTlsRight := by
  refine ⟨_, _, rfl, rfl, staticTlsRight_of_staticRun ?_⟩
  have hstart := @StaticRun.start (withStaticTls 64) 8 .tlsProgram .libcTls _ rfl
    ⟨by decide, by decide, by decide⟩ (by decide) (by decide)
  exact @StaticRun.opened (withStaticTls 64) 8 (some ['t']) ⟨false, false⟩ 0 _ _ 2 hstart rfl
    (by decide)

/-- The block of `t` is larger than the address space below it. The sum that places it
overflows and gives an offset of 32 bytes, which the reserve has room for. -/
theorem not_staticTlsRight_hugeBlock :
    ∃ s s', startup (withStaticTls (-16)) 8 .tlsProgram .libcTls = some (.success s) ∧
      dlapiOpen (withStaticTls (-16)) 8 (some ['t']) ⟨false, false⟩ 0 s =
        some (.handle 2 s') ∧
      IsPowerOfTwo (s'.obj 2).tlsAlign ∧ ¬ s'.StaticTlsRight := by
  refine ⟨_, _, rfl, rfl, ⟨4, by decide, rfl⟩, fun h => ?_⟩
  have hinside := h.inside 0x10000 (by decide) ⟨0x11010, 2 ^ 64 - 16⟩ (by decide)
  exact absurd hinside (by decide)

end Hzlibc.Rtld
