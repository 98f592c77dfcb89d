import Hzlibc.Dns.Message
import Hzlibc.Internal.DnsPointers

/-!
Names that are written with `add_segment` and read again, and `dn_expand`.
-/

namespace Hzlibc.Dns

open List

open Stdio (Byte)

/-- `Query::add_segment`. -/
def addSegment (req : List Byte) (segment : Label) : Except Fault (List Byte) :=
  if segment.length ≤ 0xFF then .ok (req ++ BitVec.ofNat 8 segment.length :: segment)
  else .error .ensure

/-- What is returned, the value of `errno` if that is set, and what was written. -/
def dnExpand (msg : List Byte) (compDn : ℕ) (length : BitVec 32) :
    Except Fault (ℤ × Option ℤ × CString) :=
  match expandDnsName msg (msg.drop compDn) (length.signExtend 64).toNat with
  | .error fault => .error fault
  | .ok (err, ptr, text) =>
    if err ≠ 0 then .ok (-1, some err, text)
    else .ok ((BitVec.ofNat 32 (msg.length - ptr.length)).toInt, none, text)

/-! ### Names without a pointer -/

theorem foldlM_addSegment {ls : List Label} (hls : ∀ l ∈ ls, IsLabel l) (req : List Byte) :
    ls.foldlM addSegment req = .ok (req ++ encode ls) := by
  induction ls generalizing req with
  | nil =>
    rw [encode, flatMap_nil, append_nil]
    rfl
  | cons l ls ih =>
    obtain ⟨hl, hls⟩ := forall_mem_cons.mp hls
    have hfits : l.length ≤ 0xFF := hl.2.trans (by decide)
    rw [foldlM_cons, addSegment, if_pos hfits]
    exact (ih hls _).trans (by rw [encode_cons, append_assoc, cons_append])

/-- What `add_segment` has written is read again by both functions, and a destination
that is too small is not left. -/
theorem addSegment_roundTrip (ls : List Label) (hls : ∀ l ∈ ls, IsLabel l)
    (req before after : List Byte) :
    ∃ name, ls.foldlM addSegment req = .ok (req ++ name) ∧
      parseDnsName (before ++ name ++ 0 :: after) (name ++ 0 :: after) = .ok (dotted ls, after) ∧
      ∀ size, if (dotted ls).length < size then
          expandDnsName (before ++ name ++ 0 :: after) (name ++ 0 :: after) size =
            .ok (0, after, dotted ls ++ [0])
        else ∃ ptr text, expandDnsName (before ++ name ++ 0 :: after) (name ++ 0 :: after) size =
            .ok (EOVERFLOW, ptr, text) ∧ text.length ≤ size := by
  have hparse (base : List Byte) : parseDnsName base (encode ls ++ 0 :: after) =
      .ok (dotted ls, after) := nameLoop_encode fun l hl => (hls l hl).readable
  exact ⟨encode ls, foldlM_addSegment hls req, hparse _, expandDnsName_of_parseDnsName (hparse _)⟩

theorem addSegment_roundTrip_ab :
    ∃ name, ([['a'], ['b']] : List Label).foldlM addSegment [] = .ok ([] ++ name) ∧
      parseDnsName ([] ++ name ++ [0]) (name ++ [0]) = .ok (['a', '.', 'b'], []) := by
  obtain ⟨name, hname, hparse, -⟩ :=
    addSegment_roundTrip [['a'], ['b']] (by decide) [] [] []
  exact ⟨name, hname, hparse⟩

/-! ### The labels of a name -/

def Dest.total (d : Dest) : ℕ := d.text.length + d.size

theorem total_write {d : Dest} (str : List Byte) (h : str.length ≤ d.size) :
    (d.write str).total = d.total := by
  simp [Dest.total, Dest.write]
  omega

/-- The copying of a label faults at the end of the message, and stops for want of bytes or
of room. -/
theorem copyLabel_spec (n : ℕ) (ptr : List Byte) (d : Dest) :
    match copyLabel n ptr d with
    | .error _ => ptr.length = n ∧ n ≤ d.size
    | .ok (err, ptr', d') => d'.total = d.total ∧
      if err ≠ 0 then ptr.length < n ∨ d.size < n ∨ n < ptr.length ∧ d.size ≤ n
      else ptr' = ptr.drop n ∧ n < ptr.length ∧
        (ptr'.head? = some 0 ∨ n < d.size ∧ d'.size = d.size - n - 1) := by
  rw [copyLabel]
  by_cases hlong : ptr.length < n
  · rw [if_pos hlong]
    exact ⟨rfl, .inl hlong⟩
  rw [if_neg hlong]
  by_cases hover : d.size < n
  · rw [if_pos hover]
    exact ⟨rfl, .inr (.inl hover)⟩
  rw [if_neg hover]
  have htake : (ptr.take n).length = n := length_take_of_le (Nat.not_lt.mp hlong)
  have htotal : (d.write (ptr.take n)).total = d.total := total_write _ (by omega)
  have hsize : (d.write (ptr.take n)).size = d.size - n := by rw [Dest.write, htake]
  have hdrop : (ptr.drop n).length = ptr.length - n := length_drop
  cases hrest : ptr.drop n with
  | nil =>
    rw [hrest, length_nil] at hdrop
    exact ⟨by omega, by omega⟩
  | cons next tail =>
    rw [hrest, length_cons] at hdrop
    simp
    split_ifs with hzero hfull
    · exact ⟨htotal, rfl, by omega, .inl (by rw [hzero]; rfl)⟩
    · exact ⟨htotal, .inr (.inr ⟨by omega, by omega⟩)⟩
    · refine ⟨?_, rfl, by omega, .inr ⟨by omega, ?_⟩⟩
      · exact (total_write [dot] (Nat.pos_of_ne_zero hfull)).trans htotal
      · rw [Dest.write, hsize, length_singleton]

/-! ### `dn_expand` -/

section

variable {msg rest : List Byte} {pos : ℕ} {name : Stored}

/-- A label is passed only if the message goes on behind it. -/
theorem LabelLoop.of_label {α : Type} {leave : ℤ → List Byte → Dest → α}
    {onPointer : Byte → List Byte → Dest → Except Fault α}
    {loop : List Byte → Dest → Except Fault α} (hloop : LabelLoop leave onPointer loop)
    {len : Byte} {ptr : List Byte} {d : Dest} {r : α} (hpointer : ¬isPointer len) (hzero : len ≠ 0)
    (h : loop (len :: ptr) d = .ok r) (hr : ∀ err ptr d, leave err ptr d = r → err = 0) :
    len.toNat < ptr.length ∧ ∃ d', loop (ptr.drop len.toNat) d' = .ok r := by
  have hcopy := copyLabel_spec len.toNat ptr d
  rw [hloop.label ptr d hpointer hzero] at h
  split at h
  · cases h
  next err _ _ heq =>
    rw [heq] at hcopy
    split_ifs at h with herr
    · exact absurd (hr _ _ _ (Except.ok.inj h)) herr
    · obtain ⟨rfl, hlt, -⟩ := (if_neg herr).mp hcopy.2
      exact ⟨hlt, _, h⟩

theorem targetLoop_of_expandTarget {ptr : List Byte} {d d' : Dest}
    (h : expandTarget ptr d = .ok (0, d')) (text : CString) : ∃ r, targetLoop ptr text = .ok r := by
  fun_induction targetLoop ptr text generalizing d with
  | case1 => cases (expandTarget_labelLoop.nil d).symm.trans h
  | case2 len ptr text hpointer =>
    cases (expandTarget_labelLoop.pointer ptr d hpointer).symm.trans h
  | case3 ptr text => exact ⟨text, rfl⟩
  | case4 len ptr text hpointer hzero hlen ih =>
    obtain ⟨-, d₁, hrest⟩ := expandTarget_labelLoop.of_label hpointer hzero h fun _ _ _ heq =>
      congrArg Prod.fst heq
    exact ih hrest
  | case5 len ptr text hpointer hzero hlen =>
    exact absurd (expandTarget_labelLoop.of_label hpointer hzero h fun _ _ _ heq =>
      congrArg Prod.fst heq).1 hlen

theorem nameLoop_of_expandLoop {base ptr rest : List Byte} {text : CString} {d d' : Dest}
    (h : expandLoop base ptr d = .ok (0, rest, d')) :
    ∃ r, nameLoop base ptr text = .ok (r, rest) := by
  fun_induction nameLoop base ptr text generalizing d with
  | case1 => cases ((expandLoop_labelLoop base).nil d).symm.trans h
  | case2 len ptr text hpointer =>
    have hpointed := ((expandLoop_labelLoop base).pointer ptr d hpointer).symm.trans h
    cases ptr with
    | nil => cases hpointed
    | cons low ptr =>
      obtain ⟨⟨err, d₁⟩, htarget, heq⟩ := map_eq_ok hpointed
      cases heq
      obtain ⟨r, hr⟩ := targetLoop_of_expandTarget htarget text
      exact ⟨r, by rw [namePointer, hr]; rfl⟩
  | case3 ptr text =>
    cases ((expandLoop_labelLoop base).zero ptr d).symm.trans h
    exact ⟨text, rfl⟩
  | case4 len ptr text hpointer hzero hlen ih =>
    obtain ⟨-, d₁, hrest⟩ := (expandLoop_labelLoop base).of_label hpointer hzero h fun _ _ _ heq =>
      congrArg Prod.fst heq
    exact ih hrest
  | case5 len ptr text hpointer hzero hlen =>
    exact absurd ((expandLoop_labelLoop base).of_label hpointer hzero h fun _ _ _ heq =>
      congrArg Prod.fst heq).1 hlen

/-- `expand_dns_name` stores what `parse_dns_name` reads if there is room for it. -/
theorem expandDnsName_eq_ok_iff {base ptr : List Byte} {size : ℕ} {text : CString} :
    expandDnsName base ptr size = .ok (0, rest, text) ↔
      ∃ r, parseDnsName base ptr = .ok (r, rest) ∧ r.length < size ∧ text = r ++ [0] := by
  constructor
  · intro h
    obtain ⟨d, hloop⟩ : ∃ d, expandLoop base ptr ⟨[], size⟩ = .ok (0, rest, d) := by
      rw [expandDnsName] at h
      split at h
      · cases h
      next hloop =>
        split_ifs at h with herr
        all_goals cases h
        · exact absurd rfl herr
        · exact ⟨_, Decidable.not_not.mp herr ▸ hloop⟩
    obtain ⟨r, hparse⟩ : ∃ r, parseDnsName base ptr = .ok (r, rest) := nameLoop_of_expandLoop hloop
    have hexpand := expandDnsName_of_parseDnsName hparse size
    rw [h] at hexpand
    split_ifs at hexpand with hfits
    · exact ⟨r, hparse, hfits, (Prod.mk.inj (Prod.mk.inj (Except.ok.inj hexpand)).2).2⟩
    · obtain ⟨_, _, heq, -⟩ := hexpand
      cases heq
  · rintro ⟨r, hparse, hfits, rfl⟩
    exact (if_pos hfits).mp (expandDnsName_of_parseDnsName hparse size)

/-- The labels that a name in a message stands for. -/
inductive Stored.Names (msg : List Byte) (pos : ℕ) : Stored → List Label → Prop
  | plain {ls : List Label} (hls : ∀ l ∈ ls, IsLabel l) : Names msg pos (.plain ls) ls
  | pointed {pre suffix : List Label} {o : ℕ} (hpre : ∀ l ∈ pre, IsLabel l) (ho : o < 2 ^ 14)
      (hearlier : o < pos + (encode pre).length) (hsuffix : NameAt msg o suffix) :
      Names msg pos (.pointed pre o) (pre ++ suffix)

/-- The name has no pointer, or one that can be followed. -/
def Stored.Reads (msg : List Byte) (ls : List Label) : Stored → Prop
  | .plain _ => True
  | .pointed pre o => Followed msg pre o (ls.drop pre.length)

theorem Stored.Names.parseDnsName {ls : List Label} (h : name.Names msg pos ls)
    (rest : List Byte) :
    ∃ read : Except Fault CString,
      parseDnsName msg (name.bytes ++ rest) = read.map (fun text => (text, rest)) ∧
        (read = .ok (dotted ls) ↔ name.Reads msg ls) := by
  cases h with
  | plain hls =>
    refine ⟨.ok (dotted ls), ?_, iff_of_true rfl trivial⟩
    rw [Stored.bytes, append_assoc]
    exact nameLoop_encode fun l hl => (hls l hl).readable
  | pointed hpre ho hearlier hsuffix =>
    refine ⟨_, ?_, hsuffix.followed_iff.trans ?_⟩
    · rw [Stored.bytes, append_assoc]
      exact parseDnsName_pointed hpre ho
    · rw [Stored.Reads, drop_left]

/-- The length that is returned is counted from the start of the message, and the name
is stored if it can be read and there is room for it. -/
theorem dnExpand_iff (name : Stored) (ls : List Label) (length : BitVec 32)
    (hmsg : msg.length < 2 ^ 16) (hname : name.Names msg pos ls)
    (hlayout : msg.drop pos = name.bytes ++ rest) :
    dnExpand msg pos length = .ok (name.bytes.length, none, dotted ls ++ [0]) ↔
      pos = 0 ∧ name.Reads msg ls ∧ (dotted ls).length < (length.signExtend 64).toNat := by
  have hlength : msg.length - rest.length = pos + name.bytes.length := by
    have := congrArg List.length hlayout
    have : 0 < name.bytes.length := by cases name <;> simp [Stored.bytes, pointer]
    rw [length_drop, length_append] at *
    omega
  have hint : (BitVec.ofNat 32 (msg.length - rest.length)).toInt = pos + name.bytes.length := by
    have hnat : (BitVec.ofNat 32 (msg.length - rest.length)).toNat = msg.length - rest.length :=
      Nat.mod_eq_of_lt (by omega)
    rw [BitVec.toInt_eq_toNat_of_lt (by omega), hnat, hlength, Nat.cast_add]
  obtain ⟨read, hparse, hread⟩ := hname.parseDnsName rest
  rw [← hlayout] at hparse
  rw [← hread, dnExpand]
  constructor
  · intro h
    split at h
    · cases h
    next err ptr text hexpand =>
      split_ifs at h with herr
      · cases h
      · obtain ⟨hn, htext⟩ := Prod.mk.inj (Except.ok.inj h)
        obtain rfl := (Prod.mk.inj htext).2
        rw [Decidable.not_not.mp herr] at hexpand
        obtain ⟨r, hr, hfits, heq⟩ := expandDnsName_eq_ok_iff.mp hexpand
        obtain rfl := (append_inj_left' heq rfl)
        obtain ⟨_, rfl, hpair⟩ := map_eq_ok (hparse.symm.trans hr)
        cases hpair
        rw [hint] at hn
        exact ⟨by omega, rfl, hfits⟩
  · rintro ⟨rfl, rfl, hfits⟩
    rw [expandDnsName_eq_ok_iff.mpr ⟨_, hparse, hfits, rfl⟩]
    simp [hint]

end

theorem expandDnsName_a (msg rest : List Byte) :
    expandDnsName msg (1 :: 'a' :: 0 :: rest) 16 = .ok (0, rest, ['a', 0]) := by
  have hparse : parseDnsName msg (encode [['a']] ++ 0 :: rest) = .ok (['a'], rest) :=
    nameLoop_encode (by simp [Readable])
  exact expandDnsName_of_parseDnsName hparse 16

theorem dnExpand_iff_start : dnExpand [1, 'a', 0] 0 16 = .ok (3, none, ['a', 0]) :=
  (dnExpand_iff (.plain [['a']]) [['a']] 16 (by decide) (.plain (by simp [IsLabel])) rfl).mpr
    ⟨rfl, trivial, by decide⟩

/-- A question for `a`. -/
def question : List Byte := [0, 0, 0, 0, 0, 1, 0, 0, 0, 0, 0, 0, 1, 'a', 0, 0, 1, 0, 1]

/-- The name has three bytes. -/
theorem dnExpand_question : dnExpand question 12 16 = .ok (15, none, ['a', 0]) := by
  have hexpand : expandDnsName question (question.drop 12) ((16 : BitVec 32).signExtend 64).toNat =
      .ok (0, [0, 1, 0, 1], ['a', 0]) := expandDnsName_a _ _
  rw [dnExpand, hexpand]
  rfl

/-! ### Reads behind the message -/

/-- How a row of labels comes to a fault: labels with room for them and their dots, and
then one that the message ends with, or a pointer. -/
@[mk_iff]
inductive Leaves (P : List Byte → ℕ → Prop) : List Byte → ℕ → Prop
  | last {len : Byte} {ptr : List Byte} {left : ℕ} (hpointer : ¬isPointer len) (hzero : len ≠ 0)
      (hend : ptr.length = len.toNat) (hfits : len.toNat ≤ left) : Leaves P (len :: ptr) left
  | label {len : Byte} {ptr : List Byte} {left : ℕ} (hpointer : ¬isPointer len) (hzero : len ≠ 0)
      (hfits : len.toNat < left) (hrest : Leaves P (ptr.drop len.toNat) (left - len.toNat - 1)) :
      Leaves P (len :: ptr) left
  | pointer {len : Byte} {ptr : List Byte} {left : ℕ} (hpointer : isPointer len) (h : P ptr left) :
      Leaves P (len :: ptr) left

/-- Half a pointer, or one that leads to another pointer or out of the message. -/
def BadPointer (msg ptr : List Byte) (left : ℕ) : Prop :=
  ∀ low ∈ ptr.head?, Leaves (fun _ _ => True) (msg.drop low.toNat) left

/-- A fault comes from the bytes alone, and without one the destination is kept to. -/
def Outcome {α : Type} (dest : α → Dest) (d : Dest) (bad : Prop) : Except Fault α → Prop
  | .error _ => bad
  | .ok r => ¬ bad ∧ (dest r).total = d.total

section

variable {P : List Byte → ℕ → Prop} {ptr : List Byte} {n : ℕ}

theorem leaves_pointer_iff {len : Byte} (hpointer : isPointer len) :
    Leaves P (len :: ptr) n ↔ P ptr n := by
  rw [leaves_iff]
  simp [hpointer]

theorem leaves_label_iff {len : Byte} (hpointer : ¬isPointer len) (hzero : len ≠ 0) :
    Leaves P (len :: ptr) n ↔ ptr.length = len.toNat ∧ len.toNat ≤ n ∨
      len.toNat < n ∧ Leaves P (ptr.drop len.toNat) (n - len.toNat - 1) := by
  rw [leaves_iff]
  simp [hpointer, show ¬len = 0#8 from hzero]

theorem not_leaves_of_head? (h : ptr.head? = some 0) : ¬ Leaves P ptr n := by
  obtain ⟨rest, rfl⟩ := head?_eq_some_iff.mp h
  rw [leaves_iff]
  simp [isPointer]

theorem LabelLoop.outcome {α : Type} {leave : ℤ → List Byte → Dest → α}
    {onPointer : Byte → List Byte → Dest → Except Fault α}
    {loop : List Byte → Dest → Except Fault α} (hloop : LabelLoop leave onPointer loop)
    (P : List Byte → ℕ → Prop) (dest : α → Dest) (hdest : ∀ err ptr d, dest (leave err ptr d) = d)
    (hP : ∀ len ptr d, Outcome dest d (P ptr d.size) (onPointer len ptr d))
    (ptr : List Byte) (d : Dest) : Outcome dest d (Leaves P ptr d.size) (loop ptr d) := by
  induction hn : ptr.length using Nat.strong_induction_on generalizing ptr d with
  | _ n ih =>
    cases ptr with
    | nil =>
      rw [hloop.nil]
      exact ⟨nofun, congrArg _ (hdest ..)⟩
    | cons len ptr =>
      by_cases hpointer : isPointer len
      · rw [hloop.pointer ptr d hpointer, leaves_pointer_iff hpointer]
        exact hP len ptr d
      by_cases hzero : len = 0
      · subst hzero
        rw [hloop.zero]
        exact ⟨not_leaves_of_head? rfl, congrArg _ (hdest ..)⟩
      rw [leaves_label_iff hpointer hzero, hloop.label ptr d hpointer hzero]
      have hcopy := copyLabel_spec len.toNat ptr d
      cases hc : copyLabel len.toNat ptr d with
      | error fault =>
        rw [hc] at hcopy
        exact .inl hcopy
      | ok copied =>
        obtain ⟨err, ptr', d'⟩ := copied
        rw [hc] at hcopy
        obtain ⟨htotal, hcopy⟩ := hcopy
        simp only
        split_ifs at hcopy ⊢ with herr
        · refine ⟨?_, (congrArg _ (hdest ..)).trans htotal⟩
          rintro (⟨hend, hfits⟩ | ⟨hfits, hrest⟩)
          · omega
          · rw [drop_eq_nil_of_le (by omega)] at hrest
            cases hrest
        · obtain ⟨rfl, hlt, hnext⟩ := hcopy
          have hshort : (ptr.drop len.toNat).length < n := by
            rw [length_drop, ← hn, length_cons]
            omega
          have hbad : Leaves P (ptr.drop len.toNat) d'.size ↔
              ptr.length = len.toNat ∧ len.toNat ≤ d.size ∨ len.toNat < d.size ∧
                Leaves P (ptr.drop len.toNat) (d.size - len.toNat - 1) := by
            rw [or_iff_right (by omega)]
            obtain hhead | ⟨hfits, hsize⟩ := hnext
            · simp [not_leaves_of_head? hhead]
            · rw [hsize, and_iff_right hfits]
          have hrest := ih _ hshort _ d' rfl
          rw [hbad] at hrest
          cases hl : loop (ptr.drop len.toNat) d' with
          | error fault => rwa [hl] at hrest
          | ok r =>
            rw [hl] at hrest
            exact ⟨hrest.1, hrest.2.trans htotal⟩

end

theorem expandPointer_outcome (msg : List Byte) (len : Byte) (ptr : List Byte) (d : Dest) :
    Outcome (·.2.2) d (BadPointer msg ptr d.size) (expandPointer msg len ptr d) := by
  cases ptr with
  | nil => simp [expandPointer, Outcome, BadPointer]
  | cons low ptr =>
    have htarget := expandTarget_labelLoop.outcome (fun _ _ => True) Prod.snd (fun _ _ _ => rfl)
      (fun _ _ _ => trivial) (msg.drop low.toNat) d
    rw [expandPointer, strOffset_eq]
    cases h : expandTarget (msg.drop low.toNat) d with
    | error fault | ok r => simpa [h, Outcome, Except.map, BadPointer] using htarget

/-- No byte outside of the message is read and none outside of the destination written,
and there is no panic, unless the labels lead to a place where the code has no check. -/
theorem expandDnsName_iff (msg : List Byte) (pos size : ℕ) :
    (∃ err ptr text, expandDnsName msg (msg.drop pos) size = .ok (err, ptr, text) ∧
      text.length ≤ size) ↔ ¬ Leaves (BadPointer msg) (msg.drop pos) size := by
  have hloop := (expandLoop_labelLoop msg).outcome (BadPointer msg) _ (fun _ _ _ => rfl)
    (expandPointer_outcome msg) (msg.drop pos) ⟨[], size⟩
  cases h : expandLoop msg (msg.drop pos) ⟨[], size⟩ with
  | error fault =>
    simpa [expandDnsName, h, Outcome] using hloop
  | ok r =>
    obtain ⟨err, ptr, d⟩ := r
    rw [h] at hloop
    obtain ⟨hnot, htotal⟩ := hloop
    have hsize : d.text.length + d.size = size := htotal.trans (Nat.zero_add size)
    refine iff_of_true ?_ hnot
    simp only [expandDnsName, h]
    split_ifs with herr hfull
    · exact ⟨_, _, _, rfl, by omega⟩
    · exact ⟨_, _, _, rfl, by omega⟩
    · refine ⟨_, _, _, rfl, ?_⟩
      rw [length_append, length_singleton]
      omega

/-- A label at the end of the message, half a pointer, and a pointer to itself. -/
theorem expandDnsName_unchecked :
    expandDnsName [1, 'a'] [1, 'a'] 16 = .error .outside ∧
      expandDnsName [0xC0] [0xC0] 16 = .error .outside ∧
      expandDnsName [0xC0, 0] [0xC0, 0] 16 = .error .ensure := by
  refine ⟨?_, ?_, ?_⟩
  · rw [expandDnsName, (expandLoop_labelLoop _).label _ _ (by decide) (by decide)]
    rfl
  · rw [expandDnsName, (expandLoop_labelLoop _).pointer _ _ (by decide)]
    rfl
  · have htarget : expandTarget [0xC0, 0] ⟨[], 16⟩ = .error .ensure :=
      expandTarget_labelLoop.pointer _ _ (by decide)
    have hdrop : [0xC0, 0].drop (strOffset 0xC0 0).toNat = [(0xC0 : Byte), 0] := by decide
    rw [expandDnsName, (expandLoop_labelLoop _).pointer _ _ (by decide), expandPointer, hdrop,
      htarget]
    rfl

end Hzlibc.Dns
