import Hzlibc.Stdio.Chunked

/-!
The position of a stream over a regular file.

`ftell` reports the offset of the descriptor and `fseek` moves it, and neither
looks at what was given back, which is in front of that offset. Going back to
the position that was just reported is meant to change nothing. It does so
exactly when nothing is given back at that moment; otherwise the next read
leaves the array.
-/

namespace Hzlibc.Stdio

open Effect Prog

/-- The calls that read a stream and give bytes back to it. -/
inductive Access
  | fgetc
  | fread (size count : ℕ)
  | vfscanf (rounds : ℕ) (fmt : List Byte)
  | ungetc (ch : ℤ)

section Access

variable {F : Type} (hz : Hz) (ld : LongDouble F)

def Access.exec {S : Type} (r : Reader S) : Access → Prog S Fault Unit
  | .fgetc => do
      let _ ← r.fgetc
  | .fread size count => do
      let _ ← r.fread size count
  | .vfscanf rounds fmt => do
      let _ ← Stdio.vfscanf hz ld r.source rounds fmt
  | .ungetc ch => do
      let _ ← r.ungetc ch

theorem Access.exec_sim {S T : Type} {R : S → T → Prop} {r : Reader S} {r' : Reader T}
    (h : r.Respects R r') (a : Access) : Prog.Sim R (a.exec hz ld r) (a.exec hz ld r') := by
  cases a with
  | fgetc => exact (Reader.fgetc_sim h).bind fun _ => .pure ()
  | fread size count => exact (Reader.fread_sim h size count).bind fun _ => .pure ()
  | vfscanf rounds fmt => exact (vfscanf_sim h.source hz ld rounds fmt).bind fun _ => .pure ()
  | ungetc ch => exact (h.ungetc ch).bind fun _ => .pure ()

/-- A stream on a regular file after some calls. -/
def Stream.afterAccess (chunks : Chunks) (history : List Access) (s : Stream RegularFile) :
    Stream RegularFile :=
  ((Prog.each (Access.exec hz ld (RegularFile.reader chunks)) history).run s).2

end Access

/-! ### What moves the offset -/

/-- One answer of the kernel. -/
inductive RegularFile.Moves (chunks : Chunks) (file : RegularFile) : RegularFile → Prop
  | sysRead (size : ℕ) : Moves chunks file (file.sysRead chunks size).2
  | sysLseek (offset whence : ℤ) : Moves chunks file (file.sysLseek offset whence).2

/-- The second file is reached from the first by answers of the kernel alone. -/
def RegularFile.Reaches (chunks : Chunks) : RegularFile → RegularFile → Prop :=
  Relation.ReflTransGen (RegularFile.Moves chunks)

section Reaches

variable {chunks : Chunks}

theorem run_takeUngetc_of_error {s : Stream RegularFile} {size : ℕ} {e : Fault}
    (h : s.file.takeUngetc size = .error e) : (Stream.takeUngetc size).run s = (.error e, s) := by
  simp [Prog.run, Stream.takeUngetc, h]

theorem read_reaches (size : ℕ) (s : Stream RegularFile) :
    RegularFile.Reaches chunks s.kernel
      ((Stream.read (RegularFile.kernel chunks) size).run s).2.kernel := by
  cases hr : s.file.read with
  | fdFileRead =>
    rw [Stream.run_read_fd hr]
    cases hf : s.file.takeUngetc size with
    | ok taken =>
      rw [Stream.run_fdFileRead hf]
      exact .single (.sysRead _)
    | error e =>
      rw [Stream.fdFileRead, run_bind_of_error (run_takeUngetc_of_error hf)]
      exact .refl
  | strFileRead =>
    rw [Stream.run_read_str hr]
    cases hf : s.file.takeUngetc size with
    | ok taken =>
      rw [Stream.run_strFileRead hf]
      exact .refl
    | error e =>
      rw [Stream.strFileRead, run_bind_of_error (run_takeUngetc_of_error hf)]
      exact .refl

theorem ungetc_kernel (ch : ℤ) (s : Stream RegularFile) :
    ((Stream.ungetc ch).run s).2.kernel = s.kernel := by
  simp [Stream.ungetc]
  split
  · rfl
  · split <;> rfl

variable (chunks) in
/-- Running a stream beside itself, the kernel has moved only by its answers. -/
theorem reaches_respects (start : RegularFile) :
    (RegularFile.reader chunks).Respects
      (fun s t => s = t ∧ RegularFile.Reaches chunks start s.kernel)
      (RegularFile.reader chunks) where
  read size := by
    rintro s _ ⟨rfl, h⟩
    exact ⟨rfl, rfl, h.trans (read_reaches size s)⟩
  ungetc ch := by
    rintro s _ ⟨rfl, h⟩
    refine ⟨rfl, rfl, ?_⟩
    rw [show ((RegularFile.reader chunks).ungetc ch).run s =
      (Stream.ungetc ch).run s from rfl, ungetc_kernel]
    exact h

end Reaches

/-! ### Going back to where one is -/

/-- Reading on gives the same bytes from both streams. -/
def SameReads (chunks : Chunks) (s s' : Stream RegularFile) : Prop :=
  ∀ sizes,
    (((RegularFile.reader chunks).readMany sizes).run s').1 =
      (((RegularFile.reader chunks).readMany sizes).run s).1

/-- Seeking to the position of the stream changes nothing for later reads, and
since the start only the kernel has moved the offset. -/
structure PositionLaw (chunks : Chunks) (start : RegularFile) (s : Stream RegularFile) : Prop where
  ftell : ∀ {p : ℤ} {s₁ : Stream RegularFile},
    (Stream.ftell (RegularFile.kernel chunks)).run s = (.ok p, s₁) → 0 ≤ p →
      SameReads chunks s ((Stream.fseek (RegularFile.kernel chunks) p Stream.seekSet).run s₁).2
  seekCur :
    SameReads chunks s ((Stream.fseek (RegularFile.kernel chunks) 0 Stream.seekCur).run s).2
  moved : RegularFile.Reaches chunks start s.kernel

section Law

variable {chunks : Chunks} {s : Stream RegularFile}

theorem RegularFile.sysLseek_seekCur (file : RegularFile) :
    file.sysLseek 0 Stream.seekCur = (.ok file.offset, file) := by
  simp [RegularFile.sysLseek, Stream.seekCur, Stream.seekSet]

theorem RegularFile.sysLseek_offset (file : RegularFile) :
    file.sysLseek file.offset Stream.seekSet = (.ok file.offset, file) := by
  simp [RegularFile.sysLseek, Stream.seekSet]

/-- A successful `ftell` reports the offset and changes nothing. -/
theorem run_ftell {p : ℤ} {s₁ : Stream RegularFile}
    (h : (Stream.ftell (RegularFile.kernel chunks)).run s = (.ok p, s₁)) (hp : 0 ≤ p) :
    p = s.kernel.offset ∧ s₁ = s := by
  have hk : (RegularFile.kernel chunks).sysLseek s.kernel s.file.fd 0 Stream.seekCur =
      (.ok s.kernel.offset, s.kernel) := s.kernel.sysLseek_seekCur
  rw [Stream.ftell, run_bind_of_ok (Stream.run_sysLseek hk)] at h
  simp at h
  split at h
  · simp [Stream.setErrno] at h
    omega
  · simp at h
    exact ⟨h.1.symm, h.2.symm⟩

/-- A seek that leaves the offset where it is only resets the pointer. -/
theorem run_fseek_of_stays {offset origin : ℤ}
    (h : s.kernel.sysLseek offset origin = (.ok s.kernel.offset, s.kernel)) :
    ((Stream.fseek (RegularFile.kernel chunks) offset origin).run s).2 =
      { s with file := { s.file with ungetcPtr := 0 } } := by
  have hk : (RegularFile.kernel chunks).sysLseek s.kernel s.file.fd offset origin = _ := h
  rw [Stream.run_fseek, hk]

theorem Over.readable {c : Chunked} (h : Over s c) : s.Readable :=
  ⟨h.read, h.pushed.ptr, h.pushed.nonneg, h.pushed.le, rfl⟩

/-- With the pointer at the start of the array and a byte given back, a read
leaves the array. -/
theorem readMany_of_reset (hread : s.file.read = .fdFileRead) (hptr : s.file.ungetcPtr = 0)
    (hsize : s.file.ungetcSize ≠ 0) :
    (((RegularFile.reader chunks).readMany [1]).run s).1 =
      .error .outOfBounds := by
  have htake : s.file.takeUngetc 1 = .error .outOfBounds := by
    simp [File.takeUngetc, hsize, hptr]
  have hrun : ((RegularFile.reader chunks).read 1).run s =
      (.error .outOfBounds, s) := by
    change (Stream.read (RegularFile.kernel chunks) 1).run s = _
    rw [Stream.run_read_fd hread]
    exact run_bind_of_error (run_takeUngetc_of_error htake)
  rw [Reader.readMany, run_bind_of_error hrun]

theorem positionLaw_iff_of_readable {start : RegularFile} (h : s.Readable)
    (hmoved : RegularFile.Reaches chunks start s.kernel) :
    PositionLaw chunks start s ↔ s.file.ungetcSize = 0 := by
  constructor
  · intro hlaw
    by_contra hsize
    have hsame := hlaw.seekCur [1]
    rw [readMany_of_reset (by exact h.read) rfl (by exact hsize)] at hsame
    rw [(readMany_sim (over_respects chunks) [1] h.over).1] at hsame
    cases hsame
  · intro hsize
    have hptr : s.file.ungetcPtr = 0 := h.pushed.ptr.trans hsize
    have hreset : ({ s with file := { s.file with ungetcPtr := 0 } } : Stream RegularFile) = s := by
      rw [← hptr]
    constructor
    case ftell =>
      intro p s₁ htell hp
      obtain ⟨rfl, rfl⟩ := run_ftell htell hp
      rw [run_fseek_of_stays s₁.kernel.sysLseek_offset, hreset]
      exact fun _ => rfl
    case seekCur =>
      rw [run_fseek_of_stays s.kernel.sysLseek_seekCur, hreset]
      exact fun _ => rfl
    case moved => exact hmoved

end Law

/-- After any calls on a regular file, going back to where one is changes
nothing for later reads exactly when nothing is given back. -/
theorem positionLaw_iff {F : Type} (hz : Hz) (ld : LongDouble F) (chunks : Chunks)
    (history : List Access) (fd errno : ℤ) (file : RegularFile) :
    PositionLaw chunks file
        (Stream.afterAccess hz ld chunks history ⟨createFdFile fd, file, errno⟩) ↔
      (Stream.afterAccess hz ld chunks history
        ⟨createFdFile fd, file, errno⟩).file.ungetcSize = 0 := by
  have hstart : Over ⟨createFdFile fd, file, errno⟩ ⟨[], file.rest, file.reads⟩ :=
    ⟨rfl, File.holds_nil rfl rfl, rfl, rfl⟩
  have hover := (Prog.Sim.each (Access.exec_sim hz ld (over_respects chunks)) history hstart).2
  have hreach := (Prog.Sim.each (Access.exec_sim hz ld (reaches_respects chunks file)) history
    (s := ⟨createFdFile fd, file, errno⟩) ⟨rfl, .refl⟩).2
  exact positionLaw_iff_of_readable hover.readable hreach.2

/-- With the first byte given back, seeking to the reported position makes the
next read leave the array. -/
theorem ungetc_not_positionLaw :
    ¬ PositionLaw .bytewise ⟨['a', 'b'], 0, 0⟩
      (Stream.afterAccess .plain .integral .bytewise [.fgetc, .ungetc 97]
        ⟨createFdFile 3, ⟨['a', 'b'], 0, 0⟩, 0⟩) := by
  intro h
  exact absurd (h.ftell rfl (by decide) [1]) (by decide)

end Hzlibc.Stdio
