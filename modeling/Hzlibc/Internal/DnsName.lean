import Hzlibc.Dns.Wire
import Hzlibc.Text.CString

/-!
Reading names from messages: `parse_dns_name` and `expand_dns_name`.

A pointer into the message is given by what is left of the message from there on. Of
what lies behind the message nothing is known, so that a read there is a fault, as
is a condition of `__ensure` that does not hold. The offset behind a pointer is kept
in a byte; the places it can lead to are the first 256 of the message.
-/

namespace Hzlibc.Dns

open List Nat

open Stdio (Byte)

inductive Fault
  | outside
  | ensure
  deriving DecidableEq

def isPointer (len : Byte) : Bool := len &&& 0xC0 = 0xC0

/-- `uint8_t str_offset`. The second byte is a `char`, and has a sign. -/
def strOffset (len low : Byte) : Byte :=
  (((len &&& 0x3F).setWidth 32 <<< 8) ||| low.signExtend 32).setWidth 8

/-! ### `parse_dns_name` -/

/-- A label is added to the name, with a dot unless a zero is behind it. -/
def addLabel (name : CString) (len : ℕ) (ptr : List Byte) : CString :=
  name ++ ptr.take len ++ if (ptr.drop len).head? = some 0 then [] else [dot]

def targetLoop : List Byte → CString → Except Fault CString
  | [], _ => .error .outside
  | len :: ptr, name =>
    if isPointer len then .error .ensure
    else if len = 0 then .ok name
    else if len.toNat < ptr.length then
      targetLoop (ptr.drop len.toNat) (addLabel name len.toNat ptr)
    else .error .outside
termination_by ptr => ptr.length
decreasing_by
  rw [List.length_drop, List.length_cons]
  omega

/-- The branch for a pointer, with its second byte at `ptr`. -/
def namePointer (base : List Byte) (len : Byte) :
    List Byte → CString → Except Fault (CString × List Byte)
  | [], _ => .error .outside
  | low :: ptr, name =>
    (targetLoop (base.drop (strOffset len low).toNat) name).map fun name => (name, ptr)

def nameLoop (base : List Byte) : List Byte → CString → Except Fault (CString × List Byte)
  | [], _ => .error .outside
  | len :: ptr, name =>
    if isPointer len then namePointer base len ptr name
    else if len = 0 then .ok (name, ptr)
    else if len.toNat < ptr.length then
      nameLoop base (ptr.drop len.toNat) (addLabel name len.toNat ptr)
    else .error .outside
termination_by ptr => ptr.length
decreasing_by
  rw [List.length_drop, List.length_cons]
  omega

/-- The name, and the pointer behind it. -/
def parseDnsName (base ptr : List Byte) : Except Fault (CString × List Byte) := nameLoop base ptr []

/-! ### `expand_dns_name` -/

def EMSGSIZE : ℤ := 90
def EOVERFLOW : ℤ := 75

/-- What was written to `dest`, and `dest_size`. -/
structure Dest where
  text : CString
  size : ℕ

def Dest.write (d : Dest) (str : List Byte) : Dest := ⟨d.text ++ str, d.size - str.length⟩

/-- A label is copied, with a dot if there is a byte other than zero behind it. -/
def copyLabel (len : ℕ) (ptr : List Byte) (d : Dest) : Except Fault (ℤ × List Byte × Dest) :=
  if ptr.length < len then .ok (EMSGSIZE, ptr, d)
  else if d.size < len then .ok (EOVERFLOW, ptr, d)
  else
    match (ptr.drop len).head? with
    | none => .error .outside
    | some next =>
      if next = 0 then .ok (0, ptr.drop len, d.write (ptr.take len))
      else if (d.write (ptr.take len)).size = 0 then
        .ok (EOVERFLOW, ptr.drop len, d.write (ptr.take len))
      else .ok (0, ptr.drop len, (d.write (ptr.take len)).write [dot])

theorem length_copyLabel {len : ℕ} {ptr ptr' : List Byte} {d d' : Dest} {err : ℤ}
    (h : copyLabel len ptr d = .ok (err, ptr', d')) : ptr'.length ≤ ptr.length := by
  have hdrop : (ptr.drop len).length ≤ ptr.length := by
    rw [length_drop]
    omega
  rw [copyLabel] at h
  split at h
  · cases h
    exact le_refl _
  · split at h
    · cases h
      exact le_refl _
    · split at h
      · cases h
      split_ifs at h
      all_goals
        cases h
        exact hdrop

def expandTarget : List Byte → Dest → Except Fault (ℤ × Dest)
  | [], d => .ok (EMSGSIZE, d)
  | len :: ptr, d =>
    if isPointer len then .error .ensure
    else if len = 0 then .ok (0, d)
    else
      match _h : copyLabel len.toNat ptr d with
      | .error fault => .error fault
      | .ok (err, ptr', d) => if err ≠ 0 then .ok (err, d) else expandTarget ptr' d
termination_by ptr => ptr.length
decreasing_by
  have hle := length_copyLabel _h
  rw [List.length_cons]
  omega

def expandPointer (base : List Byte) (len : Byte) :
    List Byte → Dest → Except Fault (ℤ × List Byte × Dest)
  | [], _ => .error .outside
  | low :: ptr, d =>
    (expandTarget (base.drop (strOffset len low).toNat) d).map fun (err, d) => (err, ptr, d)

def expandLoop (base : List Byte) : List Byte → Dest → Except Fault (ℤ × List Byte × Dest)
  | [], d => .ok (EMSGSIZE, [], d)
  | len :: ptr, d =>
    if isPointer len then expandPointer base len ptr d
    else if len = 0 then .ok (0, ptr, d)
    else
      match _h : copyLabel len.toNat ptr d with
      | .error fault => .error fault
      | .ok (err, ptr', d) => if err ≠ 0 then .ok (err, ptr', d) else expandLoop base ptr' d
termination_by ptr => ptr.length
decreasing_by
  have hle := length_copyLabel _h
  rw [List.length_cons]
  omega

/-- What is returned, the pointer afterwards, and what was written. -/
def expandDnsName (base ptr : List Byte) (size : ℕ) : Except Fault (ℤ × List Byte × CString) :=
  match expandLoop base ptr ⟨[], size⟩ with
  | .error fault => .error fault
  | .ok (err, ptr, d) =>
    if err ≠ 0 then .ok (err, ptr, d.text)
    else if d.size = 0 then .ok (EOVERFLOW, ptr, d.text)
    else .ok (0, ptr, d.text ++ [0])

/-- What the two loops have in common; `leave` is what they return. -/
structure LabelLoop {α : Type} (leave : ℤ → List Byte → Dest → α)
    (onPointer : Byte → List Byte → Dest → Except Fault α)
    (loop : List Byte → Dest → Except Fault α) : Prop where
  nil (d) : loop [] d = .ok (leave EMSGSIZE [] d)
  pointer {len} (ptr d) (h : isPointer len) : loop (len :: ptr) d = onPointer len ptr d
  zero (ptr d) : loop (0 :: ptr) d = .ok (leave 0 ptr d)
  label {len} (ptr d) (hpointer : ¬isPointer len) (hzero : len ≠ 0) :
    loop (len :: ptr) d =
      match copyLabel len.toNat ptr d with
      | .error fault => .error fault
      | .ok (err, ptr, d) => if err ≠ 0 then .ok (leave err ptr d) else loop ptr d

theorem expandTarget_labelLoop :
    LabelLoop (fun err _ d => (err, d)) (fun _ _ _ => .error .ensure) expandTarget where
  nil d := by rw [expandTarget]
  pointer ptr d h := by rw [expandTarget, if_pos h]
  zero ptr d := by rw [expandTarget, if_neg (by decide), if_pos rfl]
  label ptr d hpointer hzero := by
    rw [expandTarget, if_neg hpointer, if_neg hzero]
    split <;> simp only [*]

theorem expandLoop_labelLoop (base : List Byte) :
    LabelLoop (fun err ptr d => (err, ptr, d)) (expandPointer base) (expandLoop base) where
  nil d := by rw [expandLoop]
  pointer ptr d h := by rw [expandLoop, if_pos h]
  zero ptr d := by rw [expandLoop, if_neg (by decide), if_pos rfl]
  label ptr d hpointer hzero := by
    rw [expandLoop, if_neg hpointer, if_neg hzero]
    split <;> simp only [*]

/-! ### What the loops read -/

/-- Lengths that are not taken for pointers. -/
def Readable (l : Label) : Prop := 1 ≤ l.length ∧ l.length < 192

theorem IsLabel.readable {l : Label} (h : IsLabel l) : Readable l := ⟨h.1, by have := h.2; omega⟩

theorem isPointer_iff : ∀ len : Byte, isPointer len = true ↔ 192 ≤ len.toNat := by decide

theorem strOffset_eq (len low : Byte) : strOffset len low = low := by
  apply BitVec.eq_of_getLsbD_eq
  intro i hi
  have hi' : i < 32 := lt_trans hi (by decide)
  simp only [strOffset, BitVec.getLsbD_setWidth, BitVec.getLsbD_or, BitVec.getLsbD_shiftLeft,
    BitVec.getLsbD_signExtend, hi, hi', decide_true, Bool.not_true, Bool.and_false,
    Bool.false_and, Bool.false_or, Bool.true_and, if_true]

theorem Readable.toNat {l : Label} (h : Readable l) :
    (BitVec.ofNat 8 l.length).toNat = l.length := by
  exact mod_eq_of_lt (lt_trans h.2 (by decide))

theorem Readable.not_isPointer {l : Label} (h : Readable l) :
    ¬isPointer (BitVec.ofNat 8 l.length) = true := by
  rw [isPointer_iff, h.toNat]
  exact not_le.mpr h.2

theorem Readable.ne_zero {l : Label} (h : Readable l) : BitVec.ofNat 8 l.length ≠ 0 := by
  intro hzero
  have hlen := h.toNat
  rw [hzero] at hlen
  exact Nat.ne_of_lt h.1 hlen

theorem isPointer_pointer {o : ℕ} (ho : o < 2 ^ 14) :
    isPointer (BitVec.ofNat 8 (192 + o / 256)) = true := by
  rw [isPointer_iff, BitVec.toNat_ofNat]
  omega

/-- The dot behind a label that a byte comes after. -/
def dotBefore (b : Byte) : CString := if b = 0 then [] else [dot]

@[simp] theorem addLabel_append (name : CString) (l : Label) (b : Byte) (rest : List Byte) :
    addLabel name l.length (l ++ b :: rest) = name ++ l ++ dotBefore b := by
  simp [addLabel, dotBefore]

section Loops

variable {l : Label} {ls : List Label} {name r : CString} {base ptr rest : List Byte}

/-- The labels are read with dots behind them, but with none in front of a zero. -/
def textBefore (b : Byte) (ls : List Label) : CString := if b = 0 then dotted ls else dots ls

@[simp] theorem textBefore_nil (b : Byte) : textBefore b [] = [] := ite_self []

theorem exists_cons_encode (hls : ∀ l ∈ ls, Readable l) (b : Byte) (rest : List Byte) (l : Label) :
    ∃ c tail, encode ls ++ b :: rest = c :: tail ∧
      textBefore b (l :: ls) = l ++ dotBefore c ++ textBefore b ls := by
  cases ls with
  | nil =>
    refine ⟨b, rest, rfl, ?_⟩
    rw [textBefore_nil, textBefore, dotBefore, dotted, Separated.joined_singleton]
    split <;> simp [dots]
  | cons m ls =>
    have hne := (hls m mem_cons_self).ne_zero
    refine ⟨_, _, by rw [encode_cons, cons_append], ?_⟩
    rw [dotBefore, if_neg hne, textBefore, textBefore, dotted_cons (cons_ne_nil m ls)]
    split <;> simp [dots]

theorem nameLoop_labels (hls : ∀ l ∈ ls, Readable l) (b : Byte) :
    nameLoop base (encode ls ++ b :: rest) name
      = nameLoop base (b :: rest) (name ++ textBefore b ls) := by
  induction ls generalizing name with
  | nil => rw [textBefore_nil, append_nil]; rfl
  | cons l ls ih =>
    obtain ⟨hl, hls⟩ := forall_mem_cons.mp hls
    obtain ⟨c, tail, htail, htext⟩ := exists_cons_encode hls b rest l
    rw [encode_cons, cons_append, append_assoc, htail, nameLoop, if_neg hl.not_isPointer,
      if_neg hl.ne_zero, hl.toNat, addLabel_append, if_pos (by simp), drop_left, ← htail, ih hls,
      htext]
    simp

theorem targetLoop_labels (hls : ∀ l ∈ ls, Readable l) (b : Byte) :
    targetLoop (encode ls ++ b :: rest) name
      = targetLoop (b :: rest) (name ++ textBefore b ls) := by
  induction ls generalizing name with
  | nil => rw [textBefore_nil, append_nil]; rfl
  | cons l ls ih =>
    obtain ⟨hl, hls⟩ := forall_mem_cons.mp hls
    obtain ⟨c, tail, htail, htext⟩ := exists_cons_encode hls b rest l
    rw [encode_cons, cons_append, append_assoc, htail, targetLoop, if_neg hl.not_isPointer,
      if_neg hl.ne_zero, hl.toNat, addLabel_append, if_pos (by simp), drop_left, ← htail, ih hls,
      htext]
    simp

theorem targetLoop_encode (hls : ∀ l ∈ ls, Readable l) :
    targetLoop (encode ls ++ 0 :: rest) name = .ok (name ++ dotted ls) := by
  rw [targetLoop_labels hls, targetLoop, if_neg (by decide), if_pos rfl, textBefore, if_pos rfl]

theorem nameLoop_encode (hls : ∀ l ∈ ls, Readable l) :
    nameLoop base (encode ls ++ 0 :: rest) name = .ok (name ++ dotted ls, rest) := by
  rw [nameLoop_labels hls, nameLoop, if_neg (by decide), if_pos rfl, textBefore, if_pos rfl]

theorem nameLoop_pointer {o : ℕ} (ho : o < 2 ^ 14) :
    nameLoop base (pointer o ++ rest) name
      = (targetLoop (base.drop (o % 256)) name).map fun name => (name, rest) := by
  have hlow : (BitVec.ofNat 8 (o % 256)).toNat = o % 256 := by
    rw [BitVec.toNat_ofNat]
    omega
  change nameLoop base (_ :: _ :: rest) name = _
  rw [nameLoop, if_pos (isPointer_pointer ho), namePointer, strOffset_eq, hlow]

/-- The dots behind the labels are there already when the pointer is followed. -/
theorem parseDnsName_pointed (hls : ∀ l ∈ ls, IsLabel l) {o : ℕ} (ho : o < 2 ^ 14) :
    parseDnsName base (encode ls ++ (pointer o ++ rest))
      = (targetLoop (base.drop (o % 256)) (dots ls)).map fun name => (name, rest) := by
  have hne : BitVec.ofNat 8 (192 + o / 256) ≠ 0 := by
    intro hzero
    have hhigh := isPointer_pointer ho
    rw [hzero] at hhigh
    exact absurd hhigh (by decide)
  have htext : dots ls = [] ++ textBefore (BitVec.ofNat 8 (192 + o / 256)) ls := by
    rw [textBefore, if_neg hne, nil_append]
  rw [← nameLoop_pointer ho, htext]
  exact nameLoop_labels (fun l hl => (hls l hl).readable) _

/-- Behind a pointer, the loop reads a row of labels up to a zero, and nothing else. -/
theorem targetLoop_eq_ok_iff :
    targetLoop ptr name = .ok r ↔ ∃ ls rest, (∀ l ∈ ls, Readable l) ∧
      ptr = encode ls ++ 0 :: rest ∧ r = name ++ dotted ls := by
  constructor
  · intro h
    fun_induction targetLoop ptr name with
    | case1 | case2 | case5 => cases h
    | case3 ptr name =>
      cases h
      exact ⟨[], ptr, by simp, rfl, (append_nil r).symm⟩
    | case4 len ptr name hpointer hzero hlen ih =>
      obtain ⟨ls, rest, hls, hptr, rfl⟩ := ih h
      have hl : (ptr.take len.toNat).length = len.toNat := length_take_of_le (le_of_lt hlen)
      have hread : Readable (ptr.take len.toNat) := by
        rw [isPointer_iff, not_le] at hpointer
        refine ⟨?_, by rw [hl]; exact hpointer⟩
        rw [hl]
        exact Nat.pos_of_ne_zero fun h => hzero (BitVec.eq_of_toNat_eq h)
      refine ⟨ptr.take len.toNat :: ls, rest, forall_mem_cons.mpr ⟨hread, hls⟩, ?_, ?_⟩
      · rw [encode_cons, hl, BitVec.ofNat_toNat, cons_append, append_assoc, ← hptr,
          take_append_drop, BitVec.setWidth_eq]
      · obtain ⟨c, tail, htail, htext⟩ := exists_cons_encode hls 0 rest (ptr.take len.toNat)
        rw [textBefore, textBefore, if_pos rfl, if_pos rfl] at htext
        rw [addLabel, hptr, htail, htext, dotBefore]
        simp
  · rintro ⟨ls, rest, hls, rfl, rfl⟩
    exact targetLoop_encode hls

end Loops

/-! ### The two functions agree -/

/-- A destination of `cap` bytes that has the text in it. -/
def room (cap : ℕ) (text : CString) : Dest := ⟨text, cap - text.length⟩

section Agree

variable {cap : ℕ} {name r : CString} {base ptr rest : List Byte}

theorem write_room (name str : CString) : (room cap name).write str = room cap (name ++ str) := by
  rw [room, room, Dest.write, length_append, Nat.sub_sub]

/-- The copying has left with an error, and wrote no more than the destination holds. -/
def Overflows {α : Type} (cap : ℕ) (leave : ℤ → Dest → α) (result : Except Fault α) : Prop :=
  ∃ text, result = .ok (leave EOVERFLOW (room cap text)) ∧ text.length ≤ cap

theorem copyLabel_room {len : ℕ} (hlen : len < ptr.length) (hname : name.length ≤ cap) :
    if (addLabel name len ptr).length ≤ cap then
      copyLabel len ptr (room cap name) =
        .ok (0, ptr.drop len, room cap (addLabel name len ptr))
    else ∃ ptr', Overflows cap (·, ptr', ·) (copyLabel len ptr (room cap name)) := by
  have htake : (ptr.take len).length = len := length_take_of_le (le_of_lt hlen)
  obtain ⟨next, tail, hnext⟩ := exists_cons_of_ne_nil
    (ne_nil_of_length_pos (by rw [length_drop]; omega) : ptr.drop len ≠ [])
  have hsize : ∀ text : CString, (room cap text).size = cap - text.length := fun _ => rfl
  have hdot : (if some next = some 0 then [] else [dot]) = dotBefore next := by simp [dotBefore]
  rw [copyLabel, if_neg (not_lt.mpr (le_of_lt hlen)), write_room, write_room, addLabel, hnext,
    head?_cons, hdot]
  simp only [hsize, length_append, htake]
  by_cases hover : cap - name.length < len
  · rw [if_pos hover, if_neg (by omega)]
    exact ⟨ptr, name, rfl, hname⟩
  rw [if_neg hover]
  have hfits : (name ++ ptr.take len).length ≤ cap := by
    rw [length_append]
    omega
  by_cases hzero : next = 0
  · rw [if_pos hzero, dotBefore, if_pos hzero, append_nil, length_nil, if_pos (by omega)]
  rw [if_neg hzero, dotBefore, if_neg hzero, length_singleton]
  split_ifs
  · omega
  · rfl
  · exact ⟨_, _, rfl, hfits⟩
  · omega

theorem map_eq_ok {α β : Type} {x : Except Fault α} {f : α → β} {b : β} (h : x.map f = .ok b) :
    ∃ a, x = .ok a ∧ f a = b := by
  cases x with
  | error fault => cases h
  | ok a => exact ⟨a, rfl, Except.ok.inj h⟩

theorem length_le_targetLoop (h : targetLoop ptr name = .ok r) : name.length ≤ r.length := by
  obtain ⟨ls, rest, -, -, rfl⟩ := targetLoop_eq_ok_iff.mp h
  rw [length_append]
  omega

theorem length_le_nameLoop (h : nameLoop base ptr name = .ok (r, rest)) :
    name.length ≤ r.length := by
  fun_induction nameLoop base ptr name with
  | case1 | case5 => cases h
  | case2 len ptr name hpointer =>
    cases ptr with
    | nil => cases h
    | cons low ptr =>
      obtain ⟨name', htarget, heq⟩ := map_eq_ok h
      cases heq
      exact length_le_targetLoop htarget
  | case3 => cases h; exact le_refl _
  | case4 len ptr name _ _ _ ih =>
    have hle := ih h
    rw [addLabel, length_append, length_append] at hle
    omega

theorem LabelLoop.label_room {α : Type} {leave : ℤ → List Byte → Dest → α}
    {onPointer : Byte → List Byte → Dest → Except Fault α}
    {loop : List Byte → Dest → Except Fault α} (hloop : LabelLoop leave onPointer loop) {len : Byte}
    (hpointer : ¬isPointer len = true) (hzero : len ≠ 0) (hlen : len.toNat < ptr.length)
    (hname : name.length ≤ cap) :
    if (addLabel name len.toNat ptr).length ≤ cap then
      loop (len :: ptr) (room cap name) =
        loop (ptr.drop len.toNat) (room cap (addLabel name len.toNat ptr))
    else ∃ ptr', Overflows cap (leave · ptr' ·) (loop (len :: ptr) (room cap name)) := by
  have hcopy := copyLabel_room hlen hname
  rw [hloop.label ptr _ hpointer hzero]
  split_ifs at hcopy ⊢
  · rw [hcopy]
    rfl
  · obtain ⟨ptr', text, hcopy, htext⟩ := hcopy
    exact ⟨ptr', text, by rw [hcopy]; rfl, htext⟩

theorem expandTarget_room (h : targetLoop ptr name = .ok r) (hname : name.length ≤ cap) :
    if r.length ≤ cap then expandTarget ptr (room cap name) = .ok (0, room cap r)
    else Overflows cap Prod.mk (expandTarget ptr (room cap name)) := by
  fun_induction targetLoop ptr name with
  | case1 | case2 | case5 => cases h
  | case3 ptr name =>
    cases h
    rw [if_pos hname, expandTarget_labelLoop.zero]
  | case4 len ptr name hpointer hzero hlen ih =>
    have hlabel := expandTarget_labelLoop.label_room hpointer hzero hlen hname
    have hle := length_le_targetLoop h
    split_ifs at hlabel with hroom
    · rw [hlabel]
      exact ih h hroom
    · rw [if_neg (by omega)]
      exact hlabel.elim fun _ h => h

theorem expandLoop_room (h : nameLoop base ptr name = .ok (r, rest)) (hname : name.length ≤ cap) :
    if r.length ≤ cap then expandLoop base ptr (room cap name) = .ok (0, rest, room cap r)
    else ∃ ptr', Overflows cap (·, ptr', ·) (expandLoop base ptr (room cap name)) := by
  fun_induction nameLoop base ptr name with
  | case1 | case5 => cases h
  | case2 len ptr name hpointer =>
    rw [(expandLoop_labelLoop base).pointer _ _ hpointer]
    cases ptr with
    | nil => cases h
    | cons low ptr =>
      obtain ⟨name', htarget, heq⟩ := map_eq_ok h
      cases heq
      have htarget := expandTarget_room htarget hname
      rw [expandPointer]
      split_ifs at htarget ⊢
      · rw [htarget]
        rfl
      · obtain ⟨text, htarget, htext⟩ := htarget
        exact ⟨rest, text, by rw [htarget]; rfl, htext⟩
  | case3 ptr name =>
    cases h
    rw [if_pos hname, (expandLoop_labelLoop base).zero]
  | case4 len ptr name hpointer hzero hlen ih =>
    have hlabel := (expandLoop_labelLoop base).label_room hpointer hzero hlen hname
    have hle := length_le_nameLoop h
    split_ifs at hlabel with hroom
    · rw [hlabel]
      exact ih h hroom
    · rw [if_neg (by omega)]
      exact hlabel

/-- With room for the name and the zero, `expand_dns_name` writes what `parse_dns_name`
returns, and stops at the same place. -/
theorem expandDnsName_of_parseDnsName (h : parseDnsName base ptr = .ok (r, rest)) (size : ℕ) :
    if r.length < size then expandDnsName base ptr size = .ok (0, rest, r ++ [0])
    else ∃ ptr' text, expandDnsName base ptr size = .ok (EOVERFLOW, ptr', text) ∧
      text.length ≤ size := by
  have hloop := expandLoop_room h (Nat.zero_le size)
  change if _ then expandLoop base ptr ⟨[], size⟩ = _ else _ at hloop
  rw [expandDnsName]
  split_ifs at hloop with hroom
  · have hsize : (room size r).size = size - r.length := rfl
    simp [hloop, hsize]
    split_ifs
    · omega
    · rfl
    · exact ⟨_, _, rfl, hroom⟩
    · omega
  · obtain ⟨ptr', text, hloop, htext⟩ := hloop
    change expandLoop base ptr ⟨[], size⟩ = _ at hloop
    rw [if_neg (by omega), hloop]
    exact ⟨ptr', text, rfl, htext⟩

end Agree

end Hzlibc.Dns
