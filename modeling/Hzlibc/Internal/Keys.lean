import Hzlibc.Concurrency.Interleaving
import Mathlib.Algebra.Order.Ring.Int

/-!
Thread-specific data: `thread_key_create`, `thread_key_delete`, `thread_setspecific`,
`thread_getspecific`, and the destructors that a thread calls when it exits.

A key is a slot of a table that all threads share. Values are kept in the threads, each
beside the generation of the slot it was set for: a slot that is used again has another
generation, and what the threads kept for it before does not count any more.

A call is one step, since it holds the mutex of the table from its beginning to its
end. The exit of a thread takes many: the mutex is held to look at a slot, but no
longer when its destructor is called, and the destructor may make calls itself. What
has happened is written to a log, which no step reads.
-/

namespace Hzlibc.Internal.Keys

open Concurrency

abbrev Ptr := BitVec 64

def pthreadKeysMax : ℕ := 1024

def pthreadDestructorIterations : ℕ := 4

structure Key where
  destructor : Ptr
  generation : BitVec 32
  used : Bool

/-- What a thread keeps for a slot. -/
structure LocalKey where
  generation : BitVec 32
  value : Ptr

def createLoop (keys : ℕ → Key) : ℕ → ℕ → Option ℕ
  | 0, _ => none
  | n + 1, i => if (keys i).used then createLoop keys n (i + 1) else some i

/-- The slot for a new key; there is none if the call fails with `EAGAIN`. -/
def threadKeyCreate (destructor : Ptr) (keys : ℕ → Key) : Option (ℕ × (ℕ → Key)) :=
  (createLoop keys pthreadKeysMax 0).map fun i =>
    (i, Function.update keys i ⟨destructor, (keys i).generation + 1, true⟩)

/-- No table if the call fails with `EINVAL`. -/
def threadKeyDelete (key : ℕ) (keys : ℕ → Key) : Option (ℕ → Key) :=
  if pthreadKeysMax ≤ key then none
  else if !(keys key).used then none
  else some (Function.update keys key { keys key with used := false, destructor := 0 })

/-- No value if the call panics. -/
def threadGetspecific (key : ℕ) (keys : ℕ → Key) (tcb : ℕ → LocalKey) :
    Option (Ptr × (ℕ → LocalKey)) :=
  if pthreadKeysMax ≤ key ∨ (keys key).used = false then none
  else if (tcb key).generation ≠ (keys key).generation then
    some (0, Function.update tcb key ⟨(keys key).generation, 0⟩)
  else some ((tcb key).value, tcb)

/-- Nothing is set if the call fails with `EINVAL`. -/
def threadSetspecific (key : ℕ) (value : Ptr) (keys : ℕ → Key) (tcb : ℕ → LocalKey) :
    Option (ℕ → LocalKey) :=
  if pthreadKeysMax ≤ key ∨ (keys key).used = false then none
  else some (Function.update tcb key ⟨(keys key).generation, value⟩)

/-- Where a thread is. On its exit it looks at the slots one after the other, and does so
several times. -/
inductive Pc
  | running
  | check (iteration i : ℕ)
  | call (iteration i : ℕ) (destructor : Ptr)
  | inDestructor (iteration i : ℕ)
  | exited
  | panicked
  deriving DecidableEq

def Pc.exiting : Pc → Bool
  | .check _ _ | .call _ _ _ | .inDestructor _ _ => true
  | .running | .exited | .panicked => false

/-- The thread runs code of its own, from which it can make calls. -/
def Pc.calls : Pc → Bool
  | .running | .inDestructor _ _ => true
  | .check _ _ | .call _ _ _ | .exited | .panicked => false

inductive Act
  | create (destructor : Ptr)
  | delete (key : ℕ)
  | set (key : ℕ) (value : Ptr)
  | get (key : ℕ)
  | exit
  | step
  | returns
  deriving DecidableEq

inductive Event (ι : Type)
  | created (key : ℕ) (destructor : Ptr)
  | deleted (key : ℕ)
  | set (t : ι) (key : ℕ) (value : Ptr)
  | got (t : ι) (key : ℕ) (value : Ptr)
  | destructed (t : ι) (key : ℕ) (value destructor : Ptr)

variable {ι : Type}

/-- The table, and the log, newest event first. -/
structure Shared (ι : Type) where
  keys : ℕ → Key
  log : List (Event ι)

structure Local where
  tcb : ℕ → LocalKey
  pc : Pc

def Shared.logs (s : Shared ι) (e : Event ι) : Shared ι := { s with log := e :: s.log }

def nextSlot (iteration i : ℕ) : Pc :=
  if i + 1 < pthreadKeysMax then .check iteration (i + 1)
  else if iteration + 1 < pthreadDestructorIterations then .check (iteration + 1) 0
  else .exited

/-- The slot is looked at, with the mutex held. -/
def checkSlot (keys : ℕ → Key) (tcb : ℕ → LocalKey) (iteration i : ℕ) : Pc :=
  if (keys i).used = false ∨ (keys i).generation ≠ (tcb i).generation ∨ (tcb i).value = 0 then
    nextSlot iteration i
  else if (keys i).destructor = 0 then nextSlot iteration i
  else .call iteration i (keys i).destructor

/-- A call from the code of a thread. -/
def makeCall (t : ι) (a : Act) (s : Shared ι) (l : Local) : Option (Shared ι × Local) :=
  match a with
  | .create destructor =>
    match threadKeyCreate destructor s.keys with
    | none => some (s, l)
    | some (key, keys) => some ({ s with keys := keys }.logs (.created key destructor), l)
  | .delete key =>
    match threadKeyDelete key s.keys with
    | none => some (s, l)
    | some keys => some ({ s with keys := keys }.logs (.deleted key), l)
  | .set key value =>
    match threadSetspecific key value s.keys l.tcb with
    | none => some (s, l)
    | some tcb => some (s.logs (.set t key value), { l with tcb := tcb })
  | .get key =>
    match threadGetspecific key s.keys l.tcb with
    | none => some (s, { l with pc := .panicked })
    | some (value, tcb) => some (s.logs (.got t key value), { l with tcb := tcb })
  | .exit | .step | .returns => none

def program : Program ι Act (Shared ι) Local := fun t a s l =>
  match l.pc, a with
  | .running, .exit => some (s, { l with pc := .check 0 0 })
  | .check iteration i, .step => some (s, { l with pc := checkSlot s.keys l.tcb iteration i })
  | .call iteration i destructor, .step =>
    some (s.logs (.destructed t i (l.tcb i).value destructor),
      ⟨Function.update l.tcb i { l.tcb i with value := 0 }, .inDestructor iteration i⟩)
  | .inDestructor iteration i, .returns => some (s, { l with pc := nextSlot iteration i })
  | pc, a => if pc.calls then makeCall t a s l else none

def start : Conf ι (Shared ι) Local :=
  ⟨⟨fun _ => ⟨0, 0, false⟩, []⟩, fun _ => ⟨fun _ => ⟨0, 0⟩, .running⟩⟩

/-! ### What the log says -/

/-- How often the slot was given to a new key. -/
def creations (k : ℕ) : List (Event ι) → ℕ
  | [] => 0
  | .created key _ :: log => (if key = k then 1 else 0) + creations k log
  | _ :: log => creations k log

/-- The slot is that of a key. -/
def live (k : ℕ) : List (Event ι) → Bool
  | [] => false
  | .created key _ :: log => if key = k then true else live k log
  | .deleted key :: log => if key = k then false else live k log
  | _ :: log => live k log

/-- The destructor of the last key of the slot. -/
def destructorOf (k : ℕ) : List (Event ι) → Ptr
  | [] => 0
  | .created key destructor :: log => if key = k then destructor else destructorOf k log
  | _ :: log => destructorOf k log

variable [DecidableEq ι]

/-- The value that the thread has set last for the last key of the slot. A destructor
finds it null. -/
def lastSet (t : ι) (k : ℕ) : List (Event ι) → Ptr
  | [] => 0
  | .created key _ :: log => if key = k then 0 else lastSet t k log
  | .set u key value :: log => if u = t ∧ key = k then value else lastSet t k log
  | .destructed u key _ _ :: log => if u = t ∧ key = k then 0 else lastSet t k log
  | .deleted _ :: log | .got _ _ _ :: log => lastSet t k log

/-- A new key gets a slot that no other key has, and what is got is what was set. -/
def AccessRight : Event ι → List (Event ι) → Prop
  | .created key _, log => live key log = false
  | .got t key value, log => live key log = true ∧ value = lastSet t key log
  | .deleted _, _ | .set _ _ _, _ | .destructed _ _ _ _, _ => True

/-- A destructor that thread `t` calls is that of the key, and is called with what the thread
has set for it. -/
def DestructorRight (t : ι) : Event ι → List (Event ι) → Prop
  | .destructed u key value destructor, log =>
    u = t → value ≠ 0 ∧ live key log = true ∧ value = lastSet t key log ∧
      destructor = destructorOf key log
  | .created _ _, _ | .deleted _, _ | .set _ _ _, _ | .got _ _ _, _ => True

/-- Every event is right after those before it. -/
def Throughout (R : Event ι → List (Event ι) → Prop) : List (Event ι) → Prop
  | [] => True
  | e :: log => R e log ∧ Throughout R log

/-- No slot is given to new keys so often that its generation comes back. -/
def Few (log : List (Event ι)) : Prop := ∀ k, creations k log < 2 ^ 31

/-- The step deletes no key while thread `t` is exiting. -/
def KeepsKeys (t : ι) (_ : ι) (a : Act) (c : Conf ι (Shared ι) Local) : Prop :=
  match a with
  | .delete key => (threadKeyDelete key c.shared.keys).isSome → (c.locals t).pc.exiting = false
  | .create _ | .set _ _ | .get _ | .exit | .step | .returns => True

instance (t u : ι) (a : Act) (c : Conf ι (Shared ι) Local) : Decidable (KeepsKeys t u a c) :=
  match a with
  | .delete key => inferInstanceAs (Decidable
      ((threadKeyDelete key c.shared.keys).isSome → (c.locals t).pc.exiting = false))
  | .create _ | .set _ _ | .get _ | .exit | .step | .returns => inferInstanceAs (Decidable True)

end Hzlibc.Internal.Keys
