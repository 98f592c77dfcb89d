import Hzlibc.Dns.Wire

/-!
Messages of the domain name system.

A message is a header with four counts, the questions, and three sections of records.
The names in it may end in pointers to what stands in front of them.
-/

namespace Hzlibc.Dns

open Stdio (Byte)

inductive Section
  | qd
  | an
  | ns
  | ar
  deriving DecidableEq

def be16 (w : BitVec 16) : List Byte := [w.extractLsb' 8 8, w.extractLsb' 0 8]

def be32 (w : BitVec 32) : List Byte :=
  [w.extractLsb' 24 8, w.extractLsb' 16 8, w.extractLsb' 8 8, w.extractLsb' 0 8]

/-- A name as it is written into a message. -/
inductive Stored
  | plain (ls : List Label)
  | pointed (pre : List Label) (o : ℕ)

def Stored.bytes : Stored → List Byte
  | .plain ls => encode ls ++ [0]
  | .pointed pre o => encode pre ++ pointer o

/-- The name can stand at this place. -/
def Stored.ValidAt (msg : List Byte) (pos : ℕ) : Stored → Prop
  | .plain ls => ∀ l ∈ ls, IsLabel l
  | .pointed pre o => (∀ l ∈ pre, IsLabel l) ∧ o < 2 ^ 14 ∧ o < pos + (encode pre).length ∧
      ∃ suffix, NameAt msg o suffix

structure Question where
  name : Stored
  type : BitVec 16
  rrClass : BitVec 16

structure Record where
  name : Stored
  type : BitVec 16
  rrClass : BitVec 16
  ttl : BitVec 32
  rdata : List Byte
  fits : rdata.length < 2 ^ 16

def Record.rdlength (r : Record) : BitVec 16 := BitVec.ofNat 16 r.rdata.length

def Question.bytes (q : Question) : List Byte := q.name.bytes ++ (be16 q.type ++ be16 q.rrClass)

/-- What stands between the name and the data. -/
def Record.head (r : Record) : List Byte :=
  be16 r.type ++ be16 r.rrClass ++ be32 r.ttl ++ be16 r.rdlength

def Record.bytes (r : Record) : List Byte := r.name.bytes ++ (r.head ++ r.rdata)

def recordBytes (rs : List Record) : List Byte := rs.flatMap Record.bytes

structure Message where
  id : BitVec 16
  flags : BitVec 16
  questions : List Question
  answers : List Record
  authority : List Record
  additional : List Record

/-- What a reader of an entry is to learn. A question has no more than the first two. -/
structure Fields where
  type : BitVec 16
  rrClass : BitVec 16
  ttl : BitVec 32
  rdlength : BitVec 16
  rdata : List Byte
  deriving DecidableEq

def Question.fields (q : Question) : Fields := ⟨q.type, q.rrClass, 0, 0, []⟩

def Record.fields (r : Record) : Fields := ⟨r.type, r.rrClass, r.ttl, r.rdlength, r.rdata⟩

namespace Message

def records (m : Message) : Section → List Record
  | .qd => []
  | .an => m.answers
  | .ns => m.authority
  | .ar => m.additional

def fields (m : Message) : Section → List Fields
  | .qd => m.questions.map Question.fields
  | s => (m.records s).map Record.fields

def count (m : Message) (s : Section) : ℕ := (m.fields s).length

/-- The message from the first entry of a section on. -/
def startingAt (m : Message) : Section → List Byte
  | .qd => m.questions.flatMap Question.bytes ++ (recordBytes m.answers ++
      (recordBytes m.authority ++ recordBytes m.additional))
  | .an => recordBytes m.answers ++ (recordBytes m.authority ++ recordBytes m.additional)
  | .ns => recordBytes m.authority ++ recordBytes m.additional
  | .ar => recordBytes m.additional

def headerCount (m : Message) (s : Section) : BitVec 16 := BitVec.ofNat 16 (m.count s)

def header (m : Message) : List Byte :=
  be16 m.id ++ be16 m.flags ++ be16 (m.headerCount .qd) ++ be16 (m.headerCount .an) ++
    be16 (m.headerCount .ns) ++ be16 (m.headerCount .ar)

def bytes (m : Message) : List Byte := m.header ++ m.startingAt .qd

/-- Where a section starts. -/
def offset (m : Message) (s : Section) : ℕ := m.bytes.length - (m.startingAt s).length

structure WellFormed (m : Message) : Prop where
  counts : ∀ s, m.count s < 2 ^ 16
  questionNames : ∀ before q after, m.questions = before ++ q :: after →
    q.name.ValidAt m.bytes (m.offset .qd + (before.flatMap Question.bytes).length)
  recordNames : ∀ s before r after, m.records s = before ++ r :: after →
    r.name.ValidAt m.bytes (m.offset s + (recordBytes before).length)

end Message

end Hzlibc.Dns
