import Hzlibc.Rtld.StaticTls

/-!
Static thread-local data above the thread pointer.

On aarch64 the control block comes first in a thread's allocation and the static blocks
come behind it. The offsets are the ones computed for the other layout: distances of the
end of a block from the far side of the control block. Here they are used as the start of
the block, and `__dlapi_destroy_tcb` still goes back from the control block by the size of
an area that now lies in front of it. The loader is the same otherwise; the machine number
it expects in a file is a part of its environment.

So the pointer that is freed is not the one that was allocated, except when the size of the
area is 0 for an overflow. Then there is a block that lies outside the area.
-/

namespace Hzlibc.Rtld

open Memory List

def sizeofTcb : Addr := 16512

namespace Loader

variable (s : Loader)

/-- The memory that `init_tls` writes. -/
def initTlsAbove (tcb : Addr) : List Block :=
  ((s.storage.objects.map s.obj).filter fun o => o.initialTlsModel && o.tlsSize ≠ 0).map
    fun o => ⟨tcb + sizeofTcb + o.tlsOffset, o.tlsSize.toNat⟩

/-- The pointer that `__dlapi_destroy_tcb` deallocates. -/
def destroyTcb (tcb : Addr) : Addr := tcb - s.tcbOffset

/-- A thread whose memory is at `mem`. The control block is at its start. -/
structure AboveRight (mem : Addr) : Prop where
  apart : (s.initTlsAbove mem).Pairwise Block.Apart
  inside : ∀ b ∈ s.initTlsAbove mem, Block.Holds ⟨mem, (s.tcbOffset + sizeofTcb).toNat⟩ b
  freed : s.destroyTcb mem = mem

end Loader

/-! ### The first block -/

/-- The block that was placed at offset 0. -/
structure TlsView.IsFirst (v : TlsView) : Prop where
  size : v.size ≠ 0
  model : v.model = true
  offset : v.offset = alignUp v.size v.align
  offset_ne : v.offset ≠ 0

variable {v : TlsView}

theorem TlsView.isFirst_of_endAfter (hmodel : v.model = true)
    (hoffset : v.offset = v.endAfter 0) (hne : v.offset ≠ 0) : v.IsFirst := by
  have hstart : (0 : Addr) + v.size = v.size := BitVec.zero_add _
  rw [endAfter_eq, hstart] at hoffset
  refine ⟨fun hsize => hne ?_, hmodel, hoffset, hne⟩
  rw [hoffset, hsize, alignUp_zero]

/-- The block lies outside the control block, which is all there is if the area for the
blocks has no size. -/
theorem TlsView.IsFirst.not_holds (h : v.IsFirst) (halign : IsPowerOfTwo v.align) (mem : Addr) :
    ¬ Block.Holds ⟨mem, sizeofTcb.toNat⟩ ⟨mem + sizeofTcb + v.offset, v.size.toNat⟩ := by
  have hfits : Fits v.size v.align := by
    by_contra hnot
    exact h.offset_ne (h.offset.trans (halign.alignUp_eq_zero hnot))
  have hle : v.offset.toNat ≤ v.size.toNat + (v.align.toNat - 1) := by
    rw [h.offset]
    exact halign.alignUp_le hfits
  have hhalf : v.align.toNat ≤ 2 ^ 63 := by
    obtain ⟨k, hk, ha⟩ := halign
    rw [ha]
    exact Nat.pow_le_pow_right (by decide) (by omega)
  have hsize : v.size.toNat ≠ 0 := fun hzero => h.size (BitVec.eq_of_toNat_eq hzero)
  have htcb : sizeofTcb.toNat = 16512 := rfl
  simp only [Block.Holds, BitVec.toNat_add, htcb]
  -- the address of the block may itself have wrapped around
  omega

/-- Either nothing has been placed or the first block is still there. -/
def TlsState.HasFirst (a : TlsState) : Prop :=
  a.initialSize = 0 ∨
    ∃ id ∈ a.objects, (a.view id).IsFirst ∧ (id ∈ a.pending → (a.view id).loaded = false)

namespace TlsState

variable {a a' : TlsState}

section

variable (h : a.HasFirst)
include h

theorem HasFirst.withReserve (reserve : Addr) : HasFirst { a with reserve } := h

/-- An object is taken, and if it is the first one its block stays. -/
theorem HasFirst.takeAs {id : ObjId}
    (hsize : v.size = (a.view id).size) (halign : v.align = (a.view id).align)
    (hoffset : v.offset = (a.view id).offset) (hloaded : v.loaded = (a.view id).loaded)
    (hmodel : (a.view id).model = true → v.model = true) (map : List ObjId) :
    HasFirst { a.takeAs id v with map } := by
  refine h.imp_right ?_
  rintro ⟨i, hi, hview, hpending⟩
  refine ⟨i, hi, ?_, fun hmem => ?_⟩
  · by_cases heq : i = id
    · subst heq
      have hself : (a.takeAs i v).view i = v := a.view_set_self i v
      rw [hself]
      exact ⟨hsize ▸ hview.size, hmodel hview.model, by rw [hoffset, hsize, halign, hview.offset],
        hoffset ▸ hview.offset_ne⟩
    · have hother : (a.takeAs id v).view i = a.view i := a.view_set_of_ne heq v
      rw [hother]
      exact hview
  · exact (a.proj_set TlsView.loaded hloaded i).trans (hpending (mem_of_mem_tail hmem))

/-- An object that is loaded is taken and gets the next block. -/
theorem HasFirst.place (hwf : a.WellFormed) {id : ObjId}
    (hid : a.pending.head? = some id) (hsize : v.size = (a.view id).size)
    (halign : v.align = (a.view id).align) (hmodel : v.model = true)
    (hloaded : (a.view id).loaded = true)
    (hoffset : v.offset = (a.view id).endAfter a.initialSize) (map : List ObjId) :
    HasFirst { a.takeAs id v with initialSize := v.offset, map } := by
  have hmem : id ∈ a.pending := mem_of_mem_head? hid
  rcases h with hzero | ⟨i, hi, hview, hpending⟩
  · by_cases hv : v.offset = 0
    · exact .inl hv
    · have hself : (a.takeAs id v).view id = v := a.view_set_self id v
      refine .inr ⟨id, hwf.pending_mem id hmem, ?_, fun htail => ?_⟩
      · rw [hself]
        refine TlsView.isFirst_of_endAfter hmodel ?_ hv
        rw [hoffset, hzero, TlsView.endAfter, TlsView.endAfter, hsize, halign]
      · exact absurd rfl (hwf.ne_of_mem_tail hid htail)
  · have hi' : i ≠ id := by
      rintro rfl
      rw [hpending hmem] at hloaded
      cases hloaded
    have hother : (a.takeAs id v).view i = a.view i := a.view_set_of_ne hi' v
    refine .inr ⟨i, hi, ?_, fun htail => ?_⟩
    · rw [hother]
      exact hview
    · rw [hother]
      exact hpending (mem_of_mem_tail htail)

theorem HasFirst.add (hwf : a.WellFormed) (v : TlsView) : (a.add v).HasFirst := by
  refine h.imp_right ?_
  rintro ⟨i, hi, hview, hpending⟩
  have hne : i ≠ a.built := Nat.ne_of_lt (hwf.lt_built i hi)
  refine ⟨i, mem_append_left _ hi, ?_, fun hmem => ?_⟩
  · rw [a.view_add_of_ne hne]
    exact hview
  · rw [a.view_add_of_ne hne]
    exact hpending ((mem_cons.mp hmem).resolve_left hne)

theorem HasFirst.step {l : Option ObjId} {initial : Bool} (hwf : a.WellFormed)
    (hstep : TlsStep initial l a a') : a'.HasFirst := by
  cases hstep with
  | idle => exact h
  | add hv => exact h.add hwf _
  | plain hid hsize =>
    exact h.takeAs (by rfl) (by rfl) (by rfl) (by rfl)
      (by exact fun hmodel => by rw [TlsView.taken, hmodel, Bool.true_or]) a.map
  | static hid hsize hstatic hreserve =>
    exact h.place hwf hid (by rfl) (by rfl) (by exact hstatic.1) hstatic.2 (by rfl) _
  | dynamic hid hsize hdynamic =>
    exact h.takeAs (by rfl) (by rfl) (by rfl) (by rfl)
      (by exact fun hmodel => by rw [TlsView.taken, hmodel, Bool.true_or]) _

end

end TlsState

theorem hasFirst_initial {exe libc : Image} (h : (exe.phdrs.filter (·.type = .tls)).length ≤ 1) :
    ((Loader.initial exe libc).tlsState [0]).HasFirst := by
  have hexe := tlsOffset_exeObject h
  have hlibc := tlsOffset_libcObject exe libc
  by_cases hzero : (libcObject exe libc).tlsOffset = 0
  · exact .inl hzero
  · by_cases hfirst : (exeObject exe).tlsOffset = 0
    · rw [hfirst] at hlibc
      exact .inr ⟨1, mem_pair.mpr (.inr rfl), TlsView.isFirst_of_endAfter rfl hlibc hzero,
        fun hmem => absurd (mem_singleton.mp hmem) (by decide)⟩
    · exact .inr ⟨0, mem_pair.mpr (.inl rfl), TlsView.isFirst_of_endAfter rfl hexe hfirst,
        fun _ => rfl⟩

/-- A start leaves the first block, if there are any. -/
theorem hasFirst_startup {env : Env} {fuel : ℕ} {exe libc : Image} {s : Loader}
    (h : startup env fuel exe libc = some (.success s))
    (hsingle : (exe.phdrs.filter (·.type = .tls)).length ≤ 1) :
    (s.tlsState []).HasFirst ∧
      s.storage.totalInitialTlsSize = s.storage.initialTlsSize + 4096 := by
  obtain ⟨t, hrun, hs⟩ := startup_tls h
  have henter := (Loader.initial exe libc).tlsState_enter 0 true
  obtain ⟨-, hfirst⟩ := Loading.tls_success (P := fun _ _ => True) (I := TlsState.HasFirst)
    (fun l a a' hwf hI _ hstep => hI.step hwf hstep)
    (henter ▸ wellFormed_initial exe libc) (henter ▸ hasFirst_initial hsingle)
    Loop.along_true hrun
  have hinitial : s.storage.initialTlsSize = t.storage.initialTlsSize :=
    congrArg TlsState.initialSize hs
  constructor
  · rw [hs]
    exact hfirst.withReserve _
  · rw [hinitial]
    exact congrArg TlsState.reserve hs

/-! ### No start is right -/

theorem Loader.AboveRight.tcbOffset_eq_zero {s : Loader} {mem : Addr} (h : s.AboveRight mem) :
    s.tcbOffset = 0 := by
  have hfreed : mem - s.tcbOffset = mem := h.freed
  grind

/-- Whatever is started, and wherever the memory for a thread is, the static blocks are not
right above its control block. -/
theorem not_aboveRight_of_startup {env : Env} {fuel : ℕ} {exe libc : Image} {s : Loader}
    (h : startup env fuel exe libc = some (.success s))
    (hsingle : (exe.phdrs.filter (·.type = .tls)).length ≤ 1)
    (halign : ∀ id ∈ s.storage.objects, (s.obj id).tlsSize ≠ 0 →
      IsPowerOfTwo (s.obj id).tlsAlign) (mem : Addr) : ¬ s.AboveRight mem := by
  obtain ⟨hfirst, htotal⟩ := hasFirst_startup h hsingle
  intro hright
  have hzero := hright.tcbOffset_eq_zero
  have hinitial : s.storage.initialTlsSize ≠ 0 := by
    intro hnone
    rw [Loader.tcbOffset, htotal, hnone] at hzero
    exact absurd hzero (by decide)
  obtain ⟨id, hid, hview, -⟩ := hfirst.resolve_left hinitial
  have hmem : ⟨mem + sizeofTcb + (s.obj id).tlsOffset, (s.obj id).tlsSize.toNat⟩
      ∈ s.initTlsAbove mem := by
    refine mem_map.mpr ⟨s.obj id, mem_filter.mpr ⟨mem_map_of_mem hid, ?_⟩, rfl⟩
    exact Bool.and_eq_true_iff.mpr ⟨hview.model, decide_eq_true hview.size⟩
  have hinside := hright.inside _ hmem
  rw [hzero] at hinside
  exact hview.not_holds (halign id hid hview.size) mem hinside

/-- No library but the libc, on aarch64. -/
def aarch64Env : Env := { Env.ofLibraries fun _ => none with elfMachine := 183 }

theorem not_aboveRight_tlsProgram :
    ∃ s, startup aarch64Env 8 .tlsProgram .libcTls = some (.success s) ∧
      ¬ s.AboveRight 0x10000 := by
  refine ⟨_, rfl, ?_⟩
  exact @not_aboveRight_of_startup aarch64Env 8 .tlsProgram .libcTls _ rfl (by decide) (by decide)
    0x10000

/-- An executable with 100 bytes of thread-local data. Its offset is 100, that of the libc
144, so the block of the libc begins inside that of the executable. -/
def Image.tlsHundred : Image :=
  { Image.tlsProgram with
    phdrs := [⟨.load, 0, 4096, 4096, true⟩, ⟨.tls, 0, 100, 4, true⟩] }

theorem not_aboveRight_tlsHundred :
    ∃ s, startup aarch64Env 8 .tlsHundred .libcTls = some (.success s) ∧
      ¬ (s.initTlsAbove 0x10000).Pairwise Block.Apart ∧ s.destroyTcb 0x10000 ≠ 0x10000 ∧
      ¬ s.AboveRight 0x10000 := by
  refine ⟨_, rfl, by decide, by decide, fun h => ?_⟩
  exact absurd h.freed (by decide)

end Hzlibc.Rtld
