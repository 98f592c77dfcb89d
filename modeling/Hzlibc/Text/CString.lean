import Hzlibc.Stdio.Basic

/-!
Strings of C: the bytes before the terminating zero.
-/

namespace Hzlibc

open Stdio (Byte)

abbrev CString := List Byte

def literal (s : String) : CString := s.toList.map fun c : Char => (c : Byte)

/-- The rest of the string from the first occurrence of the character on. The
terminating zero is found as well. -/
def strchr : CString → Byte → Option CString
  | [], c => if c = 0 then some [] else none
  | d :: rest, c => if d = c then some (d :: rest) else strchr rest c

theorem strchr_cons_self (c : Byte) (rest : CString) : strchr (c :: rest) c = some (c :: rest) := by
  rw [strchr, if_pos rfl]

theorem strchr_cons_of_ne {c d : Byte} (h : d ≠ c) (rest : CString) :
    strchr (d :: rest) c = strchr rest c := by
  rw [strchr, if_neg h]

end Hzlibc
