import Hzlibc.Dns.Message
import Hzlibc.Internal.DnsName

/-!
Reading messages of the domain name system: `ns_initparse` and `ns_parserr`.

Pointers are what is left of the message, as for names, and a pointer that leaves the
message is a fault. `ns_initparse` reads the length of the data of a record through
`char`, which has a sign on some machines (`signed`); `ns_parserr` reads it through
`unsigned char`.
-/

namespace Hzlibc.Dns

open Stdio (Byte)

/-- `NS_MAXDNAME`. -/
def maxName : ℕ := 1025

structure NsMsg where
  msg : List Byte
  id : BitVec 16
  flags : BitVec 16
  counts : Section → BitVec 16
  sections : Section → List Byte

structure NsRr where
  name : List Byte
  type : BitVec 16
  rrClass : BitVec 16
  ttl : BitVec 32
  rdlength : BitVec 16
  rdata : Option (List Byte)

def Section.num : Section → ℕ
  | .qd => 0
  | .an => 1
  | .ns => 2
  | .ar => 3

/-- An array with an element for each section. -/
def perSection {α : Type} (qd an ns ar : α) : Section → α
  | .qd => qd
  | .an => an
  | .ns => ns
  | .ar => ar

/-- A `for` loop of `n` rounds. -/
def rounds (step : List Byte → Except Fault (List Byte)) :
    ℕ → List Byte → Except Fault (List Byte)
  | 0, ptr => .ok ptr
  | n + 1, ptr => step ptr >>= rounds step n

def advance (n : ℕ) (ptr : List Byte) : Except Fault (List Byte) :=
  if n ≤ ptr.length then .ok (ptr.drop n) else .error .outside

/-- The name of a question is skipped. There are no pointers for this loop. -/
def skipLabels : List Byte → Except Fault (List Byte)
  | [] => .error .outside
  | len :: ptr =>
    if len = 0 then .ok ptr
    else if len.toNat ≤ ptr.length then skipLabels (ptr.drop len.toNat)
    else .error .outside
termination_by ptr => ptr.length
decreasing_by
  rw [List.length_drop, List.length_cons]
  omega

def skipQuestion (ptr : List Byte) : Except Fault (List Byte) := skipLabels ptr >>= advance 4

def fetch (ptr : List Byte) (i : ℕ) : Except Fault Byte :=
  match ptr[i]? with
  | none => .error .outside
  | some b => .ok b

/-- A byte becomes an `int`. -/
def widen (signed : Bool) (b : Byte) : BitVec 32 :=
  if signed then b.signExtend 32 else b.setWidth 32

/-- `b0 << 8 | b1`, stored in 16 bits. -/
def shifted16 (b0 b1 : BitVec 32) : BitVec 16 := (b0 <<< 8 ||| b1).setWidth 16

def shifted32 (b0 b1 b2 b3 : BitVec 32) : BitVec 32 := b0 <<< 24 ||| b1 <<< 16 ||| b2 <<< 8 ||| b3

def skipRecord (signed : Bool) (base ptr : List Byte) : Except Fault (List Byte) := do
  let (_, ptr) ← parseDnsName base ptr
  let b8 ← fetch ptr 8
  let b9 ← fetch ptr 9
  advance (10 + (shifted16 (widen signed b8) (widen signed b9)).toNat) ptr

/-- The loops of `ns_initparse`, with a pointer to the first question. -/
def initSections (signed : Bool) (msg : List Byte) (counts : Section → BitVec 16)
    (ptr : List Byte) : Except Fault (Section → List Byte) := do
  let an ← rounds skipQuestion (counts .qd).toNat ptr
  let ns ← rounds (skipRecord signed msg) (counts .an).toNat an
  let ar ← rounds (skipRecord signed msg) (counts .ns).toNat ns
  return perSection ptr an ns ar

/-- `ns_initparse`. The fields of the header are in network order. -/
def nsInitparse (signed : Bool) (msg : List Byte) : Except Fault NsMsg :=
  match msg with
  | i0 :: i1 :: f0 :: f1 :: q0 :: q1 :: a0 :: a1 :: n0 :: n1 :: r0 :: r1 :: ptr =>
    (initSections signed msg (perSection (q0 ++ q1) (a0 ++ a1) (n0 ++ n1) (r0 ++ r1)) ptr).map
      fun sections => ⟨msg, i0 ++ i1, f0 ++ f1,
        perSection (q0 ++ q1) (a0 ++ a1) (n0 ++ n1) (r0 ++ r1), sections⟩
  | _ => .error .outside

/-- The name of a question is copied to `rr->name`, with nothing to keep it from leaving
the array. -/
def questionLoop : List Byte → List Byte → Except Fault (List Byte × List Byte)
  | [], _ => .error .outside
  | len :: ptr, name =>
    if len = 0 then
      if name.length < maxName then .ok (name ++ [0], ptr) else .error .outside
    else if len.toNat < ptr.length ∧ (addLabel name len.toNat ptr).length ≤ maxName then
      questionLoop (ptr.drop len.toNat) (addLabel name len.toNat ptr)
    else .error .outside
termination_by ptr => ptr.length
decreasing_by
  rw [List.length_drop, List.length_cons]
  omega

def readQuestion (ptr : List Byte) : Except Fault NsRr := do
  let (name, ptr) ← questionLoop ptr []
  match ptr with
  | t0 :: t1 :: c0 :: c1 :: _ => return ⟨name, t0 ++ t1, c0 ++ c1, 0, 0, none⟩
  | _ => throw .outside

/-- What `expand_dns_name` returns is not looked at. -/
def readRecord (base ptr : List Byte) : Except Fault NsRr := do
  let (_, ptr, name) ← expandDnsName base ptr maxName
  match ptr with
  | t0 :: t1 :: c0 :: c1 :: l0 :: l1 :: l2 :: l3 :: d0 :: d1 :: rdata =>
    return ⟨name, shifted16 (widen false t0) (widen false t1),
      shifted16 (widen false c0) (widen false c1),
      shifted32 (widen false l0) (widen false l1) (widen false l2) (widen false l3),
      shifted16 (widen false d0) (widen false d1), some rdata⟩
  | _ => throw .outside

/-- The entries in front of the one asked for are skipped. -/
def readEntry (handle : NsMsg) (sect : Section) (rrNum : ℤ) : Except Fault NsRr :=
  if sect = .qd then
    rounds skipQuestion rrNum.toNat (handle.sections sect) >>= readQuestion
  else
    rounds (skipRecord false handle.msg) rrNum.toNat (handle.sections sect) >>=
      readRecord handle.msg

/-- `ns_parserr`, with `none` for the error `EINVAL`. It is the number of the section
that is compared with the count. -/
def nsParserr (handle : NsMsg) (sect : Section) (rrNum : ℤ) : Except Fault (Option NsRr) :=
  if (handle.counts sect).toNat ≤ sect.num then .ok none
  else (readEntry handle sect rrNum).map some

end Hzlibc.Dns
