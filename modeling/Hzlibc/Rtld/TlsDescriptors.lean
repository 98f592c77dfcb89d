import Hzlibc.Rtld.Relocate
import Hzlibc.Rtld.TlsSlots

/-!
Descriptors of dynamic thread-local storage.

An R_TLSDESC relocation against an object of the dynamic model stores the address of
`__tlsdesc_dynamic` and a pointer to the module index and the offset. The routine reads the
slot in the vector of the current thread and adds the offset. It does not look at the
length of the vector or whether the slot is filled, as `__tls_get_addr` does. The
relocation itself fills the slot, but only in the thread that runs `dlopen`.

The routine is that of x86-64, where the thread pointer is the address of the control block.
-/

namespace Hzlibc.Relocation

open Memory

variable {n : ℕ}

/-- The object whose storage an entry refers to, and the offset in it without the addend. -/
inductive Refers (im : Image n) (e : Rel n) : Option (ObjectSymbol n) → Object n → Addr n → Prop
  | symbol (h : e.symIndex ≠ 0) (r : ObjectSymbol n) : Refers im e (some r) r.object r.value
  /-- Without a symbol it is the object that is relocated. -/
  | own (h : e.symIndex = 0) (resolved : Option (ObjectSymbol n)) :
      Refers im e resolved im.object 0

theorem outcome_tlsdesc {im : Image n} {e : Rel n} {resolved : Option (ObjectSymbol n)}
    {target : Object n} {value : Addr n} (htype : e.type = .tlsdesc)
    (h : Refers im e resolved target value) (addend : Addr n) (count : ℕ) :
    outcome im e addend resolved count = tlsdescWords im target (value + addend) count := by
  cases h with
  | symbol h r | own h => simp [outcome, htype, h]

end Hzlibc.Relocation

namespace Hzlibc.Rtld

open Relocation (TlsdescData Refers)

/-- What relocation sees of a loaded object. -/
structure SharedObject.SeenAs (o : SharedObject) (target : Relocation.Object 8) : Prop where
  base : target.base = o.base
  tlsOffset : target.tlsOffset = o.tlsOffset
  initialTlsModel : target.initialTlsModel = o.initialTlsModel
  tlsModuleIndex : target.tlsModuleIndex.toNat = o.tlsModuleIndex

/-- A null pointer is no result. -/
def Platform.NonNull (p : Platform) : Prop :=
  ∀ live n a, p.allocate live n = some a → a ≠ 0

namespace Machine

variable (p : Platform) (m : Machine)

/-- `__tlsdesc_dynamic` in thread `t`: a distance from the thread pointer. A slot that is not
filled is a null pointer. There is no result when the routine reads outside the vector. -/
def tlsdescDynamic (t : ℕ) (d : TlsdescData 8) : Option Addr :=
  match m.threads[t]? with
  | none => none
  | some th =>
    match th.dtv[d.index.toNat]? with
    | none => none
    | some entry => some (entry.getD 0 + d.addend - th.tcb)

/-- The address that code computes with the routine. -/
def tlsdescAddr (t : ℕ) (d : TlsdescData 8) : Option Addr :=
  match m.threads[t]?, m.tlsdescDynamic t d with
  | some th, some distance => some (th.tcb + distance)
  | _, _ => none

/-- The entry leaves a descriptor of the dynamic model, from which the routine computes the
address that `__tls_get_addr` returns for the same place. -/
def TlsdescAgrees (t : ℕ) (id : ObjId) (im : Relocation.Image 8) (e : Relocation.Rel 8)
    (addend : Addr) (resolved : Option (Relocation.ObjectSymbol 8)) (count : ℕ)
    (offset : Addr) : Prop :=
  ∃ words d, Relocation.outcome im e addend resolved count = .writes words (some d) ∧
    ∃ a, m.tlsdescAddr t d = some a ∧ m.tlsGetAddr p t id offset = some a

variable {p m}

/-- The vector does not grow for a slot that it has already. -/
theorem getElem?_grownDtv_of_some {dtv : List (Option Addr)} {o : SharedObject}
    {entry : Option Addr} (h : dtv[o.tlsModuleIndex]? = some entry) :
    (m.grownDtv o dtv)[o.tlsModuleIndex]? = some entry := by
  have hlt := (List.getElem?_eq_some_iff.mp h).1
  rw [grownDtv, if_neg (Nat.not_le.mpr hlt)]
  exact h

section Thread

variable {t : ℕ} {th : Thread} (hth : m.threads[t]? = some th)

include hth

theorem tlsdescAddr_eq (d : TlsdescData 8) :
    m.tlsdescAddr t d = (th.dtv[d.index.toNat]?).map fun entry => entry.getD 0 + d.addend := by
  have hback : ∀ a : Addr, th.tcb + (a - th.tcb) = a := by grind
  simp only [tlsdescAddr, tlsdescDynamic, hth]
  cases th.dtv[d.index.toNat]? with
  | none => rfl
  | some entry => exact congrArg some (hback _)

theorem tlsGetAddr_of_filled {id : ObjId} {a : Addr}
    (hentry : th.dtv[(m.loader.obj id).tlsModuleIndex]? = some (some a)) (offset : Addr) :
    m.tlsGetAddr p t id offset = some (a + offset) := by
  simp only [tlsGetAddr, accessTls, hth, getElem?_grownDtv_of_some hentry]
  rfl

theorem tlsGetAddr_of_empty {id : ObjId}
    (hentry : th.dtv[(m.loader.obj id).tlsModuleIndex]? = some none) (offset : Addr) :
    m.tlsGetAddr p t id offset
      = (p.allocate m.live (m.loader.obj id).tlsSize.toNat).map (· + offset) := by
  simp only [tlsGetAddr, accessTls, hth, getElem?_grownDtv_of_some hentry]
  cases p.allocate m.live (m.loader.obj id).tlsSize.toNat <;> rfl

end Thread

end Machine

/-! ### A descriptor in two threads -/

theorem nonNull_upwards (sizeofTcb : Addr) : (Platform.upwards sizeofTcb).NonNull := by
  intro live n a h
  have hle : 4096 ≤ live.foldr (fun b n => max (b.base.toNat + b.size) n) 4096 := by
    clear h
    induction live with
    | nil => exact Nat.le_refl _
    | cons b live ih => exact Nat.le_trans ih (Nat.le_max_right _ _)
  simp only [Platform.upwards] at h
  split at h
  next htop =>
    cases h
    intro hzero
    have htoNat := congrArg BitVec.toNat hzero
    rw [BitVec.toNat_ofNat, Nat.mod_eq_of_lt htop] at htoNat
    exact absurd (htoNat ▸ hle) (by decide)
  · cases h

/-- The library `t`, with a descriptor for its symbol `x`. -/
def tlsdescImage : Relocation.Image 8 where
  arch := ⟨false, 0, 0x5000, 0x5010⟩
  heap _ := 0x9000
  object := ⟨0x8000, 0x10000, 0, false, 1⟩
  symtab _ := ⟨['x'], false⟩
  rela := [⟨⟨0x2000, .tlsdesc, 1⟩, 4⟩]
  relr := []
  rel := []
  plt := .none

end Hzlibc.Rtld
