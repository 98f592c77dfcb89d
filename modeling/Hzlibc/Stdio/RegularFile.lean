import Hzlibc.Stdio.File

/-!
A regular file as the kernel.

The descriptor of the stream is open on a file with some content. A read
returns bytes from the offset on, as many as are asked for, as are there, and
as this particular read is willing to give; how much that is is a schedule
with a positive entry for each read, so that every way of splitting the
content is one of them. Only the end of the file is answered with nothing.
-/

namespace Hzlibc.Stdio

open Effect

/-- The largest answer of each read. -/
structure Chunks where
  size : ℕ → ℕ
  pos : ∀ i, 0 < size i

/-- One byte at a time. -/
def Chunks.bytewise : Chunks := ⟨fun _ => 1, fun _ => Nat.one_pos⟩

structure RegularFile where
  content : List Byte
  offset : ℕ
  /-- The number of reads so far. -/
  reads : ℕ

namespace RegularFile

variable (chunks : Chunks) (file : RegularFile)

/-- What is left to read. -/
def rest : List Byte := file.content.drop file.offset

/-- What the next read gives if asked for `size` bytes. -/
def answer (size : ℕ) : List Byte := file.rest.take (min size (chunks.size file.reads))

def sysRead (size : ℕ) : Except ℤ (List Byte) × RegularFile :=
  (.ok (file.answer chunks size),
    { file with
      offset := file.offset + (file.answer chunks size).length
      reads := file.reads + 1 })

def seekEnd : ℤ := 2

def einval : ℤ := 22

def sysLseek (offset whence : ℤ) : Except ℤ ℤ × RegularFile :=
  let base : Option ℤ :=
    if whence = Stream.seekSet then some 0
    else if whence = Stream.seekCur then some file.offset
    else if whence = seekEnd then some file.content.length
    else none
  match base with
  | none => (.error einval, file)
  | some base =>
    if base + offset < 0 then (.error einval, file)
    else (.ok (base + offset), { file with offset := (base + offset).toNat })

theorem length_answer_le (size : ℕ) : (file.answer chunks size).length ≤ size := by
  simp only [answer, List.length_take]
  omega

/-- The kernel of a program that has this one file open. -/
def kernel : Kernel RegularFile where
  sysRead file _ size := file.sysRead chunks size
  sysRead_le := by
    rintro file file' fd size bytes ⟨⟩
    exact length_answer_le chunks file size
  sysLseek file _ offset whence := file.sysLseek offset whence

abbrev reader : Reader (Stream RegularFile) := Stream.reader (kernel chunks)

end RegularFile

/-- The bytes of successive reads of the given sizes. -/
def Reader.readMany {S : Type} (r : Reader S) : List ℕ → Prog S Fault (List Byte)
  | [] => pure []
  | size :: sizes => do
      let got ← r.read size
      let later ← Reader.readMany r sizes
      pure (got.data ++ later)

end Hzlibc.Stdio
