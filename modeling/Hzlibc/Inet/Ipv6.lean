import Hzlibc.Stdio.Snprintf
import Hzlibc.Stdio.Scan
import Hzlibc.Text.CString

/-!
IPv6 addresses as texts: `parse_ipv6`, and `inet_pton` and `inet_ntop` for
`AF_INET6`.

The machine is little-endian: of a word of the address the first byte in memory is
the low one. `hz::to_integer<uint16_t>` is a parameter. In base 16 it takes up the
digits at the start of the text, and its value is that of the digits as long as
these are at most four.
-/

namespace Hzlibc.Inet

open Stdio (Byte Hz LongDouble Fault Arg vsnprintf isxdigit readDigits)

abbrev Word := BitVec 16

def lowByte (w : Word) : Byte := w.setWidth 8
def highByte (w : Word) : Byte := (w >>> 8).setWidth 8

/-- `hz::to_ne_from_be` on a machine that has the low byte first. -/
def toNeFromBe (w : Word) : Word :=
  BitVec.ofNat 16 ((lowByte w).toNat * 256 + (highByte w).toNat)

/-- An address by its words `s6_addr16`. -/
structure In6Addr where
  words : List Word
  length_words : words.length = 8
  deriving DecidableEq

def In6Addr.bytes (addr : In6Addr) : List Byte :=
  addr.words.flatMap fun w => [lowByte w, highByte w]

def In6Addr.zero : In6Addr := ⟨List.replicate 8 0, List.length_replicate⟩

/-- A store outside of the address. -/
inductive Overrun
  | store (i : ℕ)

def In6Addr.set (addr : In6Addr) (i : ℕ) (num : Word) : In6Addr :=
  ⟨addr.words.set i num, by rw [List.length_set, addr.length_words]⟩

def In6Addr.store (addr : In6Addr) (i : ℕ) (num : Word) : Except Overrun In6Addr :=
  if i < 8 then .ok (addr.set i num) else .error (.store i)

def colon : Byte := ':'

structure HexReader where
  toInteger : CString → Word × ℕ
  count : ∀ s, (toInteger s).2 = (s.takeWhile isxdigit).length
  value : ∀ s, (s.takeWhile isxdigit).length ≤ 4 →
    (toInteger s).1 = BitVec.ofNat 16 (readDigits 16 (s.takeWhile isxdigit))

/-- A reader that keeps the low bits of longer numbers. -/
def HexReader.wrapping : HexReader where
  toInteger s :=
    (BitVec.ofNat 16 (readDigits 16 (s.takeWhile isxdigit)), (s.takeWhile isxdigit).length)
  count _ := rfl
  value _ _ := rfl

/-- The position of the first `::`. -/
def findDouble : CString → Option ℕ
  | c :: d :: rest =>
    if c = colon ∧ d = colon then some 0 else (findDouble (d :: rest)).map (· + 1)
  | _ => none

section Parse

variable (hz : HexReader) (ip : CString) (compressedPos : Option ℕ) (zeros : ℕ)

def segment (offset : ℕ) : CString := (ip.drop offset).takeWhile (· ≠ colon)

theorem offset_lt {offset : ℕ}
    (h : ¬ ((hz.toInteger (segment ip offset)).2 ≠ (segment ip offset).length ∨
      (hz.toInteger (segment ip offset)).2 = 0)) :
    0 < (segment ip offset).length ∧ offset < ip.length := by
  have hle : (segment ip offset).length ≤ (ip.drop offset).length :=
    (List.takeWhile_sublist _).length_le
  rw [List.length_drop] at hle
  omega

/-- What is left of the text, and of the `::` in it. -/
def remaining (offset : ℕ) : ℕ :=
  ip.length - offset + if compressedPos.all (offset ≤ ·) then 1 else 0

theorem remaining_compressed {offset : ℕ} (h : compressedPos = some offset) :
    remaining ip compressedPos (offset + 2) < remaining ip compressedPos offset := by
  rw [remaining, remaining, h, if_neg (by simp), if_pos (by simp)]
  omega

theorem remaining_segment {offset offset' : ℕ} (h : offset < ip.length) (hlt : offset < offset') :
    remaining ip compressedPos offset' < remaining ip compressedPos offset := by
  have hall : compressedPos.all (offset' ≤ ·) = true → compressedPos.all (offset ≤ ·) = true := by
    cases compressedPos with
    | none => exact id
    | some pos =>
      rw [Option.all_some, Option.all_some, decide_eq_true_iff, decide_eq_true_iff]
      exact (Nat.le_of_lt hlt).trans
  rw [remaining, remaining]
  split_ifs <;> first | omega | simp_all

def parseLoop (offset i : ℕ) (addr : In6Addr) : Except Overrun (Option In6Addr) :=
  if compressedPos = some offset then
    if i + zeros = 8 then .ok (some addr) else parseLoop (offset + 2) (i + zeros) addr
  else
    let seg := segment ip offset
    let num := hz.toInteger seg
    if num.2 ≠ seg.length ∨ num.2 = 0 then .ok none
    else
      match addr.store i num.1 with
      | .error overrun => .error overrun
      | .ok addr =>
        if !(ip.drop offset).contains colon then
          if i + 1 ≠ 8 then .ok none else .ok (some addr)
        else if i + 1 = 8 then .ok none
        else if compressedPos = some (offset + seg.length) then
          parseLoop (offset + seg.length) (i + 1) addr
        else parseLoop (offset + seg.length + 1) (i + 1) addr
termination_by remaining ip compressedPos offset
decreasing_by
  · exact remaining_compressed ip compressedPos (by assumption)
  all_goals
    have hseg := offset_lt hz ip (by assumption)
    exact remaining_segment ip compressedPos hseg.2 (by omega)

end Parse

def parseIpv6 (hz : HexReader) (ip : CString) : Except Overrun (Option In6Addr) :=
  match findDouble ip with
  | none => parseLoop hz ip none 0 0 0 .zero
  | some pos =>
    let segments := ip.count colon - 1
    if segments > 7 then .ok none
    else
      let segments := if pos ≠ 0 ∧ pos ≠ ip.length - 2 then segments + 1 else segments
      parseLoop hz ip (some pos) (8 - segments) 0 0 .zero

/-- `inet_pton` with `AF_INET6`: what it returns, and what it stores. -/
def inetPton6 (hz : HexReader) (src : CString) : Except Overrun (ℤ × Option In6Addr) :=
  match parseIpv6 hz src with
  | .error overrun => .error overrun
  | .ok (some ip) => .ok (1, some ip)
  | .ok none => .ok (0, none)

/-! ### `inet_ntop` -/

def INET6_ADDRSTRLEN : ℕ := 46

/-- The memory from the start of the buffer on, and the parameters `dest` and
`size`, which change. -/
structure Output where
  mem : ℕ → Byte
  dest : ℕ
  size : BitVec 32

section Print

variable {F : Type} (hz : Hz) (ld : LongDouble F) (rounds : ℕ)

/-- `snprintf(dest, size, fmt, ...)`: what it returns, and the memory after it. -/
def snprintfAt (out : Output) (fmt : CString) (args : List (Arg F)) :
    Except Fault (ℤ × (ℕ → Byte)) :=
  match vsnprintf hz ld rounds (fun i => out.mem (out.dest + i)) out.size.toNat fmt args with
  | (.error fault, _) => .error fault
  | (.ok printed, mem) =>
    .ok (printed.ret, fun i => if i < out.dest then out.mem i else mem (i - out.dest))

/-- The text is printed, and `dest` and `size` are set to what is behind it. -/
def printAt (out : Output) (fmt : CString) (args : List (Arg F)) : Except Fault Output := do
  let (count, mem) ← snprintfAt hz ld rounds out fmt args
  return ⟨mem, (out.dest + count).toNat, out.size - BitVec.ofInt 32 count⟩

/-- The leading zeros, of which there may be none. -/
def printZeros (zeroCount : ℕ) (out : Output) : Except Fault Output :=
  if zeroCount ≠ 0 then do
    let (_, mem) ← snprintfAt hz ld rounds out (literal "::") []
    return ⟨mem, out.dest + 2, out.size - 2⟩
  else .ok out

/-- The loop over the groups behind the leading zeros. -/
def printGroups : Bool → List Word → Output → Except Fault Output
  | _, [], out => .ok out
  | first, w :: ws, out => do
      let out ← printAt hz ld rounds out (if first then literal "%x" else literal ":%x")
        [.int ((toNeFromBe w).setWidth 32)]
      printGroups false ws out

/-- `inet_ntop` with `AF_INET6`: the pointer that it returns, as a position in the
buffer, and the memory; null if the buffer is too small. -/
def inetNtop6 (addr : In6Addr) (mem : ℕ → Byte) (size : BitVec 32) :
    Except Fault (Option ℕ × (ℕ → Byte)) :=
  if size.toNat < INET6_ADDRSTRLEN then .ok (none, mem)
  else do
    let zeroCount := (addr.words.takeWhile (· = 0)).length
    let out ← printZeros hz ld rounds zeroCount ⟨mem, 0, size⟩
    let out ← printGroups hz ld rounds true (addr.words.drop zeroCount) out
    return (some out.dest, out.mem)

end Print

end Hzlibc.Inet
