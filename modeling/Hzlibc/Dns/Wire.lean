import Hzlibc.Stdio.Basic
import Hzlibc.Text.Separated

/-!
Names in messages of the domain name system.

A name is a row of labels, each behind a byte with its length, and a zero byte at the
end. Instead of the zero there may be a pointer, two bytes that give the place in the
message where the name goes on.
-/

namespace Hzlibc.Dns

open Stdio (Byte)
open Separated (joined)

abbrev Label := List Byte

def IsLabel (l : Label) : Prop := 1 ≤ l.length ∧ l.length ≤ 63

instance : DecidablePred IsLabel := fun l =>
  inferInstanceAs (Decidable (1 ≤ l.length ∧ l.length ≤ 63))

def encode (ls : List Label) : List Byte := ls.flatMap fun l => BitVec.ofNat 8 l.length :: l

def dot : Byte := '.'

/-- The name as a text. -/
def dotted (ls : List Label) : List Byte := joined dot ls

def pointer (o : ℕ) : List Byte := [BitVec.ofNat 8 (192 + o / 256), BitVec.ofNat 8 (o % 256)]

/-- The name at a place of the message. Pointers lead to earlier places. -/
inductive NameAt (msg : List Byte) : ℕ → List Label → Prop
  | root {pos : ℕ} {rest : List Byte} (hmsg : msg.drop pos = 0 :: rest) : NameAt msg pos []
  | label {pos : ℕ} {l : Label} {ls : List Label} {rest : List Byte} (hl : IsLabel l)
      (hmsg : msg.drop pos = BitVec.ofNat 8 l.length :: (l ++ rest))
      (hrest : NameAt msg (pos + (l.length + 1)) ls) : NameAt msg pos (l :: ls)
  | pointer {pos o : ℕ} {ls : List Label} {rest : List Byte} (hfit : o < 2 ^ 14) (ho : o < pos)
      (hmsg : msg.drop pos = pointer o ++ rest) (htarget : NameAt msg o ls) : NameAt msg pos ls

variable {ls : List Label} {l : Label}

@[simp] theorem encode_cons (l : Label) (ls : List Label) :
    encode (l :: ls) = BitVec.ofNat 8 l.length :: (l ++ encode ls) := rfl

theorem dotted_cons (h : ls ≠ []) : dotted (l :: ls) = l ++ dot :: dotted ls :=
  Separated.joined_cons h

/-- The labels, each with a dot behind it. -/
def dots (ls : List Label) : List Byte := ls.flatMap (· ++ [dot])

theorem dotted_append (ms : List Label) (h : ls ≠ []) :
    dotted (ms ++ ls) = dots ms ++ dotted ls := by
  induction ms with
  | nil => rfl
  | cons m ms ih =>
    rw [List.cons_append, dotted_cons (List.append_ne_nil_of_right_ne_nil ms h), ih, dots, dots]
    simp

theorem length_dotted_lt (h : ls ≠ []) : (dotted ls).length < (dots ls).length := by
  obtain ⟨ms, m, rfl⟩ := (List.eq_nil_or_concat ls).resolve_left h
  rw [List.concat_eq_append, dotted_append ms (List.cons_ne_nil m []), dots, dots, dotted,
    Separated.joined_singleton]
  simp

end Hzlibc.Dns
