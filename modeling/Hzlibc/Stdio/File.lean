import Hzlibc.Effect.Program
import Hzlibc.Stdio.Basic

/-!
Streams for reading.

A `FILE` keeps the bytes given back with `ungetc` in an array of its own and
reads through a callback. The callback of a stream over a descriptor first
takes from the array and then asks the kernel, whose answers are arbitrary;
that of a string takes from the array and then from the string. An access
outside the array has no result at all.

The functions that only use the callback and `ungetc` are written over any
`Reader`, so that they can be compared on streams that are represented
differently. What a function returns comes with the bytes it has stored for
its caller.
-/

namespace Hzlibc.Stdio

open Effect Prog

/-- Why a call does not return. -/
inductive Fault
  /-- An access outside an object. -/
  | outOfBounds
  /-- A panic or a failed assertion. -/
  | abort
  /-- The bound on the rounds of a loop was too small. -/
  | rounds
  /-- An argument that is not there, or of another type. -/
  | argument
  deriving DecidableEq

/-! ### The kernel -/

structure Kernel (κ : Type) where
  /-- The answer to reading from a descriptor: an error number or the bytes. -/
  sysRead : κ → ℤ → ℕ → Except ℤ (List Byte) × κ
  sysRead_le : ∀ {k k' : κ} {fd : ℤ} {size : ℕ} {bytes : List Byte},
    sysRead k fd size = (.ok bytes, k') → bytes.length ≤ size
  /-- The answer to moving the offset of a descriptor: an error number or the
  new offset. -/
  sysLseek : κ → ℤ → ℤ → ℤ → Except ℤ ℤ × κ

/-! ### `FILE` -/

/-- The callbacks that a stream may read through. -/
inductive ReadFn
  | fdFileRead
  | strFileRead
  deriving DecidableEq

structure File where
  /-- `FILE_EOF_FLAG`. -/
  eof : Bool
  /-- `FILE_ERR_FLAG`. -/
  err : Bool
  /-- The bytes from `read_ptr` to `read_end`. -/
  readRest : List Byte
  ungetcBuffer : ℕ → Byte
  /-- `ungetc_ptr - ungetc_buffer`. -/
  ungetcPtr : ℤ
  ungetcSize : ℤ
  read : ReadFn
  error : ℤ
  fd : ℤ
  lastWasRead : Bool

/-- The size of `ungetc_buffer`. -/
def ungetcCapacity : ℤ := 0x1000

def createFdFile (fd : ℤ) : File where
  eof := false
  err := false
  readRest := []
  ungetcBuffer _ := 0
  ungetcPtr := 0
  ungetcSize := 0
  read := .fdFileRead
  error := 0
  fd
  lastWasRead := false

/-- The stream that `vsscanf` reads from. -/
def createStrFile (str : List Byte) : File where
  eof := false
  err := false
  readRest := str.takeWhile (· ≠ 0)
  ungetcBuffer _ := 0
  ungetcPtr := 0
  ungetcSize := 0
  read := .strFileRead
  error := 0
  fd := 0
  lastWasRead := false

structure Stream (κ : Type) where
  file : File
  kernel : κ
  errno : ℤ

/-- The value a read returns, and the bytes it has stored. -/
structure Got where
  ret : ℤ
  data : List Byte
  deriving DecidableEq

/-- The loop of both callbacks that takes bytes given back. -/
def File.takeUngetc : ℕ → File → Except Fault (List Byte × File)
  | 0, f => .ok ([], f)
  | size + 1, f =>
    if f.ungetcSize = 0 then .ok ([], f)
    else if 0 ≤ f.ungetcPtr - 1 ∧ f.ungetcPtr - 1 < ungetcCapacity then
      match File.takeUngetc size
          { f with ungetcPtr := f.ungetcPtr - 1, ungetcSize := f.ungetcSize - 1 } with
      | .ok (bytes, f') => .ok (f.ungetcBuffer (f.ungetcPtr - 1).toNat :: bytes, f')
      | .error e => .error e
    else .error .outOfBounds

namespace Stream

variable {κ : Type} (k : Kernel κ)

def modifyFile (f : File → File) : Prog (Stream κ) Fault Unit :=
  .modify fun s => { s with file := f s.file }

def setErrno (err : ℤ) : Prog (Stream κ) Fault Unit := .modify fun s => { s with errno := err }

def takeUngetc (size : ℕ) : Prog (Stream κ) Fault (List Byte) := fun s =>
  match s.file.takeUngetc size with
  | .ok (bytes, f) => (.ok bytes, { s with file := f })
  | .error e => (.error e, s)

def sysRead (size : ℕ) : Prog (Stream κ) Fault (Except ℤ (List Byte)) := fun s =>
  (.ok (k.sysRead s.kernel s.file.fd size).1,
    { s with kernel := (k.sysRead s.kernel s.file.fd size).2 })

def sysLseek (offset whence : ℤ) : Prog (Stream κ) Fault (Except ℤ ℤ) := fun s =>
  (.ok (k.sysLseek s.kernel s.file.fd offset whence).1,
    { s with kernel := (k.sysLseek s.kernel s.file.fd offset whence).2 })

def fdFileRead (size : ℕ) : Prog (Stream κ) Fault Got := do
  let unget ← takeUngetc size
  let left := size - unget.length
  -- the kernel is asked also when nothing is left to read
  match ← sysRead k left with
  | .error err =>
    modifyFile fun f => { f with error := err, err := true }
    pure ⟨-1, unget⟩
  | .ok bytes =>
    modifyFile fun f =>
      { f with eof := f.eof || decide (bytes.length < left), lastWasRead := true }
    pure ⟨bytes.length + unget.length, unget ++ bytes⟩

def strFileRead (size : ℕ) : Prog (Stream κ) Fault Got := do
  let unget ← takeUngetc size
  let left := size - unget.length
  let rest ← .gets fun s => s.file.readRest
  modifyFile fun f => { f with readRest := f.readRest.drop left }
  pure ⟨(rest.take left).length + unget.length, unget ++ rest.take left⟩

def read (size : ℕ) : Prog (Stream κ) Fault Got := do
  match ← .gets fun s => s.file.read with
  | .fdFileRead => fdFileRead k size
  | .strFileRead => strFileRead size

theorem run_sysRead {k} {s : Stream κ} {size : ℕ} {r : Except ℤ (List Byte)} {kernel : κ}
    (h : k.sysRead s.kernel s.file.fd size = (r, kernel)) :
    (sysRead k size).run s = (.ok r, { s with kernel }) := by
  simp [Prog.run, sysRead, h]

theorem run_sysLseek {k} {s : Stream κ} {offset whence : ℤ} {r : Except ℤ ℤ} {kernel : κ}
    (h : k.sysLseek s.kernel s.file.fd offset whence = (r, kernel)) :
    (sysLseek k offset whence).run s = (.ok r, { s with kernel }) := by
  simp [Prog.run, sysLseek, h]

theorem run_read_fd {k} {s : Stream κ} (h : s.file.read = .fdFileRead) (size : ℕ) :
    (read k size).run s = (fdFileRead k size).run s := by
  simp [read, h]

theorem run_read_str {k} {s : Stream κ} (h : s.file.read = .strFileRead) (size : ℕ) :
    (read k size).run s = (strFileRead size).run s := by
  simp [read, h]

section Run

variable {k} {s : Stream κ} {size : ℕ} {unget : List Byte} {f : File}
  (h : s.file.takeUngetc size = .ok (unget, f))
include h

theorem run_takeUngetc : (takeUngetc size).run s = (.ok unget, { s with file := f }) := by
  simp [Prog.run, takeUngetc, h]

theorem run_fdFileRead :
    (fdFileRead k size).run s =
      match k.sysRead s.kernel f.fd (size - unget.length) with
      | (.error err, kernel) =>
        (.ok ⟨-1, unget⟩, { s with file := { f with error := err, err := true }, kernel })
      | (.ok bytes, kernel) =>
        (.ok ⟨bytes.length + unget.length, unget ++ bytes⟩,
          { s with
            file := { f with
              eof := f.eof || decide (bytes.length < size - unget.length)
              lastWasRead := true }
            kernel }) := by
  rw [fdFileRead, run_bind_of_ok (run_takeUngetc h)]
  rcases hread : k.sysRead s.kernel f.fd (size - unget.length) with ⟨err | bytes, kernel⟩
  all_goals
    rw [run_bind_of_ok (run_sysRead (s := { s with file := f }) hread)]
    rfl

theorem run_strFileRead :
    (strFileRead size).run s =
      (.ok ⟨(f.readRest.take (size - unget.length)).length + unget.length,
          unget ++ f.readRest.take (size - unget.length)⟩,
        { s with file := { f with readRest := f.readRest.drop (size - unget.length) } }) := by
  rw [strFileRead, run_bind_of_ok (run_takeUngetc h)]
  rfl

end Run

def ungetc (ch : ℤ) : Prog (Stream κ) Fault ℤ := do
  let f ← .gets fun s => s.file
  if f.ungetcSize = ungetcCapacity then pure EOF
  else if 0 ≤ f.ungetcPtr ∧ f.ungetcPtr < ungetcCapacity then
    modifyFile fun f =>
      { f with
        ungetcBuffer := Function.update f.ungetcBuffer f.ungetcPtr.toNat (BitVec.ofInt 8 ch)
        ungetcPtr := f.ungetcPtr + 1
        ungetcSize := f.ungetcSize + 1 }
    pure ch
  else .leave .outOfBounds

/-! ### Moving the position -/

def fseek (offset origin : ℤ) : Prog (Stream κ) Fault ℤ := do
  match ← sysLseek k offset origin with
  | .error err =>
    setErrno err
    modifyFile fun f => { f with err := true }
    pure (-1)
  | .ok _ =>
    modifyFile fun f => { f with ungetcPtr := 0 }
    pure 0

def fseeko (offset whence : ℤ) : Prog (Stream κ) Fault ℤ := do
  match ← sysLseek k offset whence with
  | .error err =>
    setErrno err
    pure (-1)
  | .ok _ => pure 0

def seekSet : ℤ := 0

def seekCur : ℤ := 1

def eoverflow : ℤ := 75

def ftell : Prog (Stream κ) Fault ℤ := do
  match ← sysLseek k 0 seekCur with
  | .error err =>
    setErrno err
    modifyFile fun f => { f with err := true }
    pure (-1)
  | .ok pos =>
    if 2 ^ 63 - 1 < pos then
      setErrno eoverflow
      pure (-1)
    else pure pos

def rewind : Prog (Stream κ) Fault Unit := do
  match ← sysLseek k 0 seekSet with
  | .error err => setErrno err
  | .ok _ => pure ()
  modifyFile fun f => { f with err := false, eof := false, ungetcPtr := 0, ungetcSize := 0 }

def fsetpos (pos : ℤ) : Prog (Stream κ) Fault ℤ := do
  match ← sysLseek k pos seekSet with
  | .error err =>
    setErrno err
    modifyFile fun f => { f with err := true }
    pure (-1)
  | .ok _ =>
    modifyFile fun f => { f with ungetcPtr := 0, ungetcSize := 0 }
    pure 0

def clearerr : Prog (Stream κ) Fault Unit := modifyFile fun f => { f with err := false }

section Run

variable {k} {s : Stream κ} {offset whence : ℤ} {kernel : κ}

@[simp] theorem run_fseek :
    (fseek k offset whence).run s =
      match k.sysLseek s.kernel s.file.fd offset whence with
      | (.error err, kernel) =>
        (.ok (-1), ⟨{ s.file with err := true }, kernel, err⟩)
      | (.ok _, kernel) => (.ok 0, ⟨{ s.file with ungetcPtr := 0 }, kernel, s.errno⟩) := by
  rcases h : k.sysLseek s.kernel s.file.fd offset whence with ⟨err | pos, kernel⟩
  all_goals
    rw [fseek, run_bind_of_ok (run_sysLseek h)]
    rfl

@[simp] theorem run_fseeko :
    (fseeko k offset whence).run s =
      match k.sysLseek s.kernel s.file.fd offset whence with
      | (.error err, kernel) => (.ok (-1), ⟨s.file, kernel, err⟩)
      | (.ok _, kernel) => (.ok 0, ⟨s.file, kernel, s.errno⟩) := by
  rcases h : k.sysLseek s.kernel s.file.fd offset whence with ⟨err | pos, kernel⟩
  all_goals
    rw [fseeko, run_bind_of_ok (run_sysLseek h)]
    rfl

@[simp] theorem run_rewind :
    (rewind k).run s =
      match k.sysLseek s.kernel s.file.fd 0 seekSet with
      | (.error err, kernel) => (.ok (), ⟨{ s.file with
          err := false, eof := false, ungetcPtr := 0, ungetcSize := 0 }, kernel, err⟩)
      | (.ok _, kernel) => (.ok (), ⟨{ s.file with
          err := false, eof := false, ungetcPtr := 0, ungetcSize := 0 }, kernel, s.errno⟩) := by
  rcases h : k.sysLseek s.kernel s.file.fd 0 seekSet with ⟨err | pos, kernel⟩
  all_goals
    rw [rewind, run_bind_of_ok (run_sysLseek h)]
    rfl

@[simp] theorem run_fsetpos :
    (fsetpos k offset).run s =
      match k.sysLseek s.kernel s.file.fd offset seekSet with
      | (.error err, kernel) => (.ok (-1), ⟨{ s.file with err := true }, kernel, err⟩)
      | (.ok _, kernel) =>
        (.ok 0, ⟨{ s.file with ungetcPtr := 0, ungetcSize := 0 }, kernel, s.errno⟩) := by
  rcases h : k.sysLseek s.kernel s.file.fd offset seekSet with ⟨err | pos, kernel⟩
  all_goals
    rw [fsetpos, run_bind_of_ok (run_sysLseek h)]
    rfl

end Run

end Stream

/-! ### Functions over the callback -/

structure Reader (S : Type) where
  read : ℕ → Prog S Fault Got
  ungetc : ℤ → Prog S Fault ℤ

def Stream.reader {κ : Type} (k : Kernel κ) : Reader (Stream κ) := ⟨Stream.read k, Stream.ungetc⟩

/-- The number of whole items read, and everything that was stored. -/
structure Items where
  count : ℕ
  data : List Byte
  deriving DecidableEq

namespace Reader

variable {S : Type} (r : Reader S)

/-- `fgetc_unlocked`. -/
def fgetc : Prog S Fault ℤ := do
  let got ← r.read 1
  if got.ret ≠ 1 then pure EOF else pure (got.data.headD 0).toNat

/-- The loop of `fread_unlocked`, with the number of items still to read. -/
def freadLoop (size : ℕ) : ℕ → Items → Prog S Fault Items
  | 0, items => pure items
  | left + 1, items => do
      let got ← r.read size
      if got.ret < 0 ∨ got.ret < size then pure ⟨items.count, items.data ++ got.data⟩
      else freadLoop size left ⟨items.count + 1, items.data ++ got.data⟩

/-- `fread_unlocked`. -/
def fread (size count : ℕ) : Prog S Fault Items :=
  if size = 0 ∨ count = 0 then pure ⟨0, []⟩ else r.freadLoop size count ⟨0, []⟩

/-- The loop of `fgets_unlocked`, with the number of characters that still fit;
`bounded` when the loop ends there. -/
def fgetsLoop (bounded : Bool) : ℕ → List Byte → Prog S Fault (Option (List Byte))
  | 0, str => if bounded then pure (some str) else .leave .outOfBounds
  | left + 1, str => do
      let c ← r.fgetc
      if c = EOF then
        if str = [] then pure none else pure (some str)
      else if BitVec.ofInt 8 c = ('\n' : Byte) then pure (some (str ++ [BitVec.ofInt 8 c]))
      else fgetsLoop bounded left (str ++ [BitVec.ofInt 8 c])

/-- `fgets_unlocked`: the characters stored before the NUL, or a null pointer.
With a negative `count` the index runs up to the largest `int`. -/
def fgets (count : ℤ) : Prog S Fault (Option (List Byte)) :=
  if count = 0 then pure none
  else if 0 < count then r.fgetsLoop true (count - 1).toNat []
  else r.fgetsLoop false intMax.toNat []

end Reader

end Hzlibc.Stdio
