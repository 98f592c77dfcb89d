import Hzlibc.Stdio.ReaderSim
import Hzlibc.Stdio.RegularFile

/-!
The bytes given back to a stream.

What `ungetc` has given back is meant to be a stack: the next read takes the
last byte first. A `Stacked` stream has that stack as a list, in front of a
stream that never has anything given back, and every function of the library
is compared with its counterpart there. `Holds` says how the array, the pointer
and the size of a `FILE` represent a stack.

The comparison holds call by call with one exception. `fseek` moves the pointer
to the start of the array and leaves the size as it is, so that the two fit
together afterwards only if nothing had been given back.
-/

namespace Hzlibc.Stdio

open Effect List Prog

/-! ### How a stack is represented -/

namespace File

/-- The array below the size, the last byte first. -/
def pushedBack (f : File) : List Byte :=
  ((List.range f.ungetcSize.toNat).map f.ungetcBuffer).reverse

/-- The pointer, the size and the array represent the stack. -/
structure Holds (f : File) (stack : List Byte) : Prop where
  ptr : f.ungetcPtr = f.ungetcSize
  nonneg : 0 ≤ f.ungetcSize
  le : f.ungetcSize ≤ ungetcCapacity
  stack : f.pushedBack = stack

/-- The stream with nothing given back. -/
def bare (f : File) : File :=
  { f with ungetcBuffer := fun _ => 0, ungetcPtr := 0, ungetcSize := 0 }

variable {f : File} {stack : List Byte}

theorem Holds.size_eq (h : f.Holds stack) : f.ungetcSize = stack.length := by
  have hlen : stack.length = f.ungetcSize.toNat := by simp [← h.stack, pushedBack]
  have := h.nonneg
  omega

theorem holds_nil (hptr : f.ungetcPtr = 0) (hsize : f.ungetcSize = 0) : f.Holds [] where
  ptr := hptr.trans hsize.symm
  nonneg := by omega
  le := by rw [hsize]; decide
  stack := by simp [pushedBack, hsize]

/-- The top of the stack is the byte below the pointer. -/
theorem Holds.pop {c : Byte} (h : f.Holds (c :: stack)) :
    f.ungetcBuffer (f.ungetcPtr - 1).toNat = c ∧
      Holds { f with ungetcPtr := f.ungetcPtr - 1, ungetcSize := f.ungetcSize - 1 } stack := by
  have hsize := h.size_eq
  rw [length_cons] at hsize
  have hle := h.le
  have hnat : f.ungetcSize.toNat = stack.length + 1 := by omega
  have hstack := h.stack
  rw [pushedBack, hnat, range_succ, map_append, reverse_append] at hstack
  simp at hstack
  have hindex : (f.ungetcSize - 1).toNat = stack.length := by omega
  constructor
  · rw [h.ptr, hindex]
    exact hstack.1
  · constructor
    case ptr => simp [h.ptr]
    case nonneg =>
      simp only
      omega
    case le =>
      simp only
      omega
    case stack =>
      simp only [pushedBack, hindex]
      exact hstack.2

/-- The stream with one more byte given back. -/
def giveBack (f : File) (c : Byte) : File :=
  { f with
    ungetcBuffer := Function.update f.ungetcBuffer f.ungetcPtr.toNat c
    ungetcPtr := f.ungetcPtr + 1
    ungetcSize := f.ungetcSize + 1 }

/-- A byte written at the pointer is the new top of the stack. -/
theorem Holds.push (h : f.Holds stack) (hroom : f.ungetcSize ≠ ungetcCapacity) (c : Byte) :
    (f.giveBack c).Holds (c :: stack) := by
  rw [giveBack]
  have hnonneg := h.nonneg
  have hle := h.le
  have hnat : (f.ungetcSize + 1).toNat = f.ungetcSize.toNat + 1 := by omega
  constructor
  case ptr => simp [h.ptr]
  case nonneg =>
    simp only
    omega
  case le =>
    simp only
    omega
  case stack =>
    have hbelow : (List.range f.ungetcSize.toNat).map
        (Function.update f.ungetcBuffer f.ungetcSize.toNat c) =
          (List.range f.ungetcSize.toNat).map f.ungetcBuffer := by
      refine map_congr_left fun i hi => ?_
      rw [Function.update_of_ne (Nat.ne_of_lt (mem_range.mp hi))]
    simp only [pushedBack, hnat, h.ptr, range_succ, map_append, hbelow]
    simp [← h.stack, pushedBack]

/-- The loop of the read callbacks takes from the top of the stack. -/
theorem Holds.takeUngetc (h : f.Holds stack) (size : ℕ) :
    ∃ f', f.takeUngetc size = .ok (stack.take size, f') ∧ f'.Holds (stack.drop size) ∧
      f'.bare = f.bare := by
  induction size generalizing f stack with
  | zero => exact ⟨f, by simp [File.takeUngetc], by simpa using h, rfl⟩
  | succ size ih =>
    cases stack with
    | nil =>
      have hzero : f.ungetcSize = 0 := by simpa using h.size_eq
      exact ⟨f, by simp [File.takeUngetc, hzero], by simpa using h, rfl⟩
    | cons c stack =>
      have hsize := h.size_eq
      have hle := h.le
      have hptr := h.ptr
      rw [length_cons] at hsize
      obtain ⟨htop, hrest⟩ := h.pop
      obtain ⟨f', hf', hholds, hbare⟩ := ih hrest
      refine ⟨f', ?_, hholds, hbare⟩
      rw [File.takeUngetc, if_neg (by omega), if_pos (by omega), hf', htop]
      rfl

end File

/-! ### A stream with a stack in front -/

structure Stacked (κ : Type) where
  pushed : List Byte
  under : Stream κ

/-- The stream with nothing given back. -/
def Stream.bare {κ : Type} (s : Stream κ) : Stream κ := { s with file := s.file.bare }

namespace Stacked

variable {κ : Type} (k : Kernel κ)

def onUnder {α : Type} (m : Prog (Stream κ) Fault α) : Prog (Stacked κ) Fault α :=
  .zoom Stacked.under (fun under a => { a with under }) m

/-- A read takes from the stack and then from the stream. -/
def read (size : ℕ) : Prog (Stacked κ) Fault Got := do
  let unget ← .gets fun a => a.pushed.take size
  .modify fun a => { a with pushed := a.pushed.drop size }
  let got ← onUnder (Stream.read k (size - unget.length))
  if got.ret < 0 then pure ⟨-1, unget⟩
  else pure ⟨got.ret + unget.length, unget ++ got.data⟩

def ungetc (ch : ℤ) : Prog (Stacked κ) Fault ℤ := do
  let pushed ← .gets fun a => a.pushed
  if (pushed.length : ℤ) = ungetcCapacity then pure EOF
  else
    .modify fun a => { a with pushed := BitVec.ofInt 8 ch :: a.pushed }
    pure ch

def reader : Reader (Stacked κ) := ⟨read k, ungetc⟩

/-- A change of the position that drops what was given back if it succeeds. -/
def seek (m : Prog (Stream κ) Fault ℤ) : Prog (Stacked κ) Fault ℤ := do
  let result ← onUnder m
  if result = 0 then .modify fun a => { a with pushed := [] } else pure ()
  pure result

def rewind : Prog (Stacked κ) Fault Unit := do
  onUnder (Stream.rewind k)
  .modify fun a => { a with pushed := [] }

end Stacked

/-! ### The two streams side by side -/

variable {κ : Type} {k : Kernel κ}

/-- The stream is the stacked one with its stack in the array. -/
structure Represents (s : Stream κ) (a : Stacked κ) : Prop where
  under : a.under = s.bare
  pushed : s.file.Holds a.pushed

theorem takeUngetc_bare (f : File) (size : ℕ) : f.bare.takeUngetc size = .ok ([], f.bare) := by
  cases size <;> rfl

theorem Stacked.run_read {size : ℕ} {pushed : List Byte} {under under' : Stream κ} {got : Got}
    (h : (Stream.read k (size - (pushed.take size).length)).run under = (.ok got, under')) :
    (Stacked.read k size).run ⟨pushed, under⟩ =
      (.ok (if got.ret < 0 then ⟨-1, pushed.take size⟩
        else ⟨got.ret + (pushed.take size).length, pushed.take size ++ got.data⟩),
        ⟨pushed.drop size, under'⟩) := by
  simp only [Stacked.read, Stacked.onUnder, run_bind, run_gets, run_modify, run_zoom, h]
  split <;> rfl

theorem File.Holds.of_eq {f g : File} {stack : List Byte} (h : f.Holds stack)
    (hbuffer : g.ungetcBuffer = f.ungetcBuffer) (hptr : g.ungetcPtr = f.ungetcPtr)
    (hsize : g.ungetcSize = f.ungetcSize) : g.Holds stack where
  ptr := by rw [hptr, hsize, h.ptr]
  nonneg := hsize ▸ h.nonneg
  le := hsize ▸ h.le
  stack := by rw [← h.stack, File.pushedBack, File.pushedBack, hbuffer, hsize]

theorem read_sim (size : ℕ) : Prog.Sim Represents (Stream.read k size) (Stacked.read k size) := by
  rintro s ⟨pushed, under⟩ ⟨rfl, hpushed⟩
  obtain ⟨f', hf', hholds, hbare⟩ := hpushed.takeUngetc size
  have hunder := takeUngetc_bare s.file (size - (pushed.take size).length)
  cases hr : s.file.read with
  | fdFileRead =>
    have hrun' := Stream.run_read_fd (k := k) (s := s.bare) hr (size - (pushed.take size).length)
    have hfd : f'.bare.fd = s.file.bare.fd := congrArg File.fd hbare
    rw [Stream.run_fdFileRead (s := s.bare) hunder, ← hfd] at hrun'
    rw [Stream.run_read_fd hr, Stream.run_fdFileRead hf']
    rcases hk : k.sysRead s.kernel f'.fd (size - (pushed.take size).length)
      with ⟨err | bytes, kernel⟩
    all_goals
      have hk' : k.sysRead s.bare.kernel f'.bare.fd (size - (pushed.take size).length - 0) = _ := hk
      simp only [length_nil, hk'] at hrun'
      rw [Stacked.run_read hrun']
      refine ⟨?_, ?_, hholds.of_eq rfl rfl rfl⟩
    · rfl
    · simp only [Stream.bare, ← hbare]
      rfl
    · simp
    · simp only [Stream.bare, ← hbare]
      rfl
  | strFileRead =>
    have hrun' := Stream.run_read_str (k := k) (s := s.bare) hr (size - (pushed.take size).length)
    have hrest : f'.bare.readRest = s.file.bare.readRest := congrArg File.readRest hbare
    rw [Stream.run_strFileRead (s := s.bare) hunder, ← hrest] at hrun'
    rw [Stream.run_read_str hr, Stream.run_strFileRead hf', Stacked.run_read hrun']
    refine ⟨?_, ?_, ?_⟩
    · rfl
    · simp only [Stream.bare, ← hbare]
      rfl
    · exact hholds.of_eq rfl rfl rfl

variable {s : Stream κ}

/-- `ungetc` pushes, as long as there is room. -/
theorem run_ungetc_of_holds {stack : List Byte} (h : s.file.Holds stack) (ch : ℤ) :
    (Stream.ungetc ch).run s =
      if (stack.length : ℤ) = ungetcCapacity then (.ok EOF, s)
      else (.ok ch, { s with file := s.file.giveBack (BitVec.ofInt 8 ch) }) := by
  have hptr := h.ptr
  have hnonneg := h.nonneg
  have hle := h.le
  simp only [Stream.ungetc, run_bind, run_gets, run_ite]
  rw [← h.size_eq]
  by_cases hfull : s.file.ungetcSize = ungetcCapacity
  · rw [if_pos hfull, if_pos hfull]
    rfl
  · rw [if_neg hfull, if_neg hfull, if_pos (by omega)]
    rfl

theorem ungetc_sim (ch : ℤ) :
    Prog.Sim Represents (Stream.ungetc ch : Prog (Stream κ) Fault ℤ) (Stacked.ungetc ch) := by
  rintro s ⟨pushed, under⟩ ⟨rfl, hpushed⟩
  rw [run_ungetc_of_holds hpushed]
  simp [Stacked.ungetc]
  by_cases hfull : (pushed.length : ℤ) = ungetcCapacity
  · rw [if_pos hfull, if_pos hfull]
    exact ⟨rfl, rfl, hpushed⟩
  · rw [if_neg hfull, if_neg hfull]
    exact ⟨rfl, rfl, hpushed.push (hpushed.size_eq ▸ hfull) _⟩

theorem reader_respects : (Stream.reader k).Respects Represents (Stacked.reader k) :=
  ⟨read_sim, ungetc_sim⟩

/-! ### Calls -/

/-- The calls a stream may see. -/
inductive Call
  | fgetc
  | fread (size count : ℕ)
  | fgets (count : ℤ)
  | ungetc (ch : ℤ)
  | vfscanf (rounds : ℕ) (fmt : List Byte)
  | fseek (offset origin : ℤ)
  | fseeko (offset whence : ℤ)
  | rewind
  | fsetpos (pos : ℤ)
  | clearerr

/-- What a call returns. -/
inductive Result (F : Type)
  | int (value : ℤ)
  | items (value : Items)
  | string (value : Option (List Byte))
  | scanned (value : Scanned F)
  | void

variable {F : Type} (k) (hz : Hz) (ld : LongDouble F)

def Call.exec : Call → Prog (Stream κ) Fault (Result F)
  | .fgetc => return .int (← (Stream.reader k).fgetc)
  | .fread size count => return .items (← (Stream.reader k).fread size count)
  | .fgets count => return .string (← (Stream.reader k).fgets count)
  | .ungetc ch => return .int (← Stream.ungetc ch)
  | .vfscanf rounds fmt =>
    return .scanned (← Stdio.vfscanf hz ld (Stream.reader k).source rounds fmt)
  | .fseek offset origin => return .int (← Stream.fseek k offset origin)
  | .fseeko offset whence => return .int (← Stream.fseeko k offset whence)
  | .rewind => do
      Stream.rewind k
      return .void
  | .fsetpos pos => return .int (← Stream.fsetpos k pos)
  | .clearerr => do
      Stream.clearerr
      return .void

/-- The same call on a stream with a stack. -/
def Call.execStacked : Call → Prog (Stacked κ) Fault (Result F)
  | .fgetc => return .int (← (Stacked.reader k).fgetc)
  | .fread size count => return .items (← (Stacked.reader k).fread size count)
  | .fgets count => return .string (← (Stacked.reader k).fgets count)
  | .ungetc ch => return .int (← Stacked.ungetc ch)
  | .vfscanf rounds fmt =>
    return .scanned (← Stdio.vfscanf hz ld (Stacked.reader k).source rounds fmt)
  | .fseek offset origin => return .int (← Stacked.seek (Stream.fseek k offset origin))
  | .fseeko offset whence => return .int (← Stacked.onUnder (Stream.fseeko k offset whence))
  | .rewind => do
      Stacked.rewind k
      return .void
  | .fsetpos pos => return .int (← Stacked.seek (Stream.fsetpos k pos))
  | .clearerr => do
      Stacked.onUnder Stream.clearerr
      return .void

variable {k hz ld}

theorem fseeko_sim (offset whence : ℤ) :
    Prog.Sim Represents (Stream.fseeko k offset whence)
      (Stacked.onUnder (Stream.fseeko k offset whence)) := by
  rintro s ⟨pushed, under⟩ ⟨rfl, hpushed⟩
  simp [Stacked.onUnder, Stream.bare, File.bare]
  rcases k.sysLseek s.kernel s.file.fd offset whence with ⟨err | pos, kernel⟩
  all_goals exact ⟨rfl, rfl, hpushed⟩

theorem fsetpos_sim (pos : ℤ) :
    Prog.Sim Represents (Stream.fsetpos k pos) (Stacked.seek (Stream.fsetpos k pos)) := by
  rintro s ⟨pushed, under⟩ ⟨rfl, hpushed⟩
  simp [Stacked.seek, Stacked.onUnder, Stream.bare, File.bare]
  rcases k.sysLseek s.kernel s.file.fd pos Stream.seekSet with ⟨err | pos, kernel⟩
  · exact ⟨rfl, rfl, hpushed.of_eq rfl rfl rfl⟩
  · exact ⟨rfl, rfl, File.holds_nil rfl rfl⟩

theorem rewind_sim : Prog.Sim Represents (Stream.rewind k) (Stacked.rewind k) := by
  rintro s ⟨pushed, under⟩ ⟨rfl, hpushed⟩
  simp [Stacked.rewind, Stacked.onUnder, Stream.bare, File.bare]
  rcases k.sysLseek s.kernel s.file.fd 0 Stream.seekSet with ⟨err | pos, kernel⟩
  all_goals exact ⟨rfl, rfl, File.holds_nil rfl rfl⟩

theorem clearerr_sim :
    Prog.Sim Represents (Stream.clearerr : Prog (Stream κ) Fault Unit)
      (Stacked.onUnder Stream.clearerr) := by
  rintro s ⟨pushed, under⟩ ⟨rfl, hpushed⟩
  exact ⟨rfl, rfl, hpushed.of_eq rfl rfl rfl⟩

/-! ### Runs -/

section Along

variable (k hz ld)

/-- Along the calls the stream returns what the stream with a stack returns,
and after each of them its pointer, its size and its array represent that
stack. -/
def StackedAlong : List Call → Stream κ → Stacked κ → Prop
  | [], _, _ => True
  | c :: calls, s, a =>
    ((c.exec k hz ld).run s).1 = ((c.execStacked k hz ld).run a).1 ∧
      (((c.exec k hz ld).run s).1.isOk →
        ((c.exec k hz ld).run s).2.file.Holds ((c.execStacked k hz ld).run a).2.pushed ∧
          StackedAlong calls ((c.exec k hz ld).run s).2 ((c.execStacked k hz ld).run a).2)

/-- If the call is an `fseek` for which the kernel moves the offset, nothing is
given back when it is made. -/
def Call.CleanSeek (s : Stream κ) : Call → Prop
  | .fseek offset origin =>
    (k.sysLseek s.kernel s.file.fd offset origin).1.isOk → s.file.ungetcSize = 0
  | _ => True

/-- Every call of the run is made in a state in which it is clean. -/
def CleanAlong : List Call → Stream κ → Prop
  | [], _ => True
  | c :: calls, s =>
    c.CleanSeek k s ∧
      (((c.exec k hz ld).run s).1.isOk → CleanAlong calls ((c.exec k hz ld).run s).2)

end Along

theorem fseek_represents {a : Stacked κ} (h : Represents s a) {offset origin : ℤ}
    (hclean : (Call.fseek offset origin).CleanSeek k s) :
    ((Stream.fseek k offset origin).run s).1 =
        ((Stacked.seek (Stream.fseek k offset origin)).run a).1 ∧
      Represents ((Stream.fseek k offset origin).run s).2
        ((Stacked.seek (Stream.fseek k offset origin)).run a).2 := by
  obtain ⟨pushed, under⟩ := a
  obtain ⟨rfl, hpushed⟩ := h
  simp only [Call.CleanSeek] at hclean
  simp [Stacked.seek, Stacked.onUnder, Stream.bare, File.bare]
  rcases hk : k.sysLseek s.kernel s.file.fd offset origin with ⟨err | pos, kernel⟩
  · exact ⟨rfl, rfl, hpushed.of_eq rfl rfl rfl⟩
  · rw [hk] at hclean
    exact ⟨rfl, rfl, File.holds_nil rfl (hclean rfl)⟩

section Step

variable (hz ld)

/-- A clean call keeps the two streams together. -/
theorem Call.exec_represents (c : Call) {a : Stacked κ} (h : Represents s a)
    (hclean : c.CleanSeek k s) :
    ((c.exec k hz ld).run s).1 = ((c.execStacked k hz ld).run a).1 ∧
      Represents ((c.exec k hz ld).run s).2 ((c.execStacked k hz ld).run a).2 := by
  have hreader : (Stream.reader k).Respects Represents (Stacked.reader k) := reader_respects
  cases c with
  | fgetc => exact (Reader.fgetc_sim hreader).bind (fun _ => .pure _) h
  | fread size count => exact (Reader.fread_sim hreader size count).bind (fun _ => .pure _) h
  | fgets count => exact (Reader.fgets_sim hreader count).bind (fun _ => .pure _) h
  | ungetc ch => exact (ungetc_sim ch).bind (fun _ => .pure _) h
  | vfscanf rounds fmt =>
    exact (vfscanf_sim hreader.source hz ld rounds fmt).bind (fun _ => .pure _) h
  | fseek offset origin => exact Prog.Sim.bind_run (fseek_represents h hclean) fun _ => .pure _
  | fseeko offset whence => exact (fseeko_sim offset whence).bind (fun _ => .pure _) h
  | rewind => exact rewind_sim.bind (fun _ => .pure _) h
  | fsetpos pos => exact (fsetpos_sim pos).bind (fun _ => .pure _) h
  | clearerr => exact clearerr_sim.bind (fun _ => .pure _) h

/-- An `fseek` that is not clean leaves the pointer and the size apart. -/
theorem Call.not_holds_of_not_cleanSeek {c : Call} (h : ¬ c.CleanSeek k s) (stack : List Byte) :
    ((c.exec k hz ld).run s).1.isOk ∧ ¬ ((c.exec k hz ld).run s).2.file.Holds stack := by
  cases c with
  | fseek offset origin =>
    simp [Call.CleanSeek] at h
    obtain ⟨hok, hsize⟩ := h
    simp [Call.exec]
    rcases hk : k.sysLseek s.kernel s.file.fd offset origin with ⟨err | pos, kernel⟩
    · simp [hk, Except.isOk, Except.toBool] at hok
    · exact ⟨rfl, fun hholds => hsize hholds.ptr.symm⟩
  | _ => exact absurd trivial h

theorem stackedAlong_iff (calls : List Call) {a : Stacked κ}
    (h : Represents s a) : StackedAlong k hz ld calls s a ↔ CleanAlong k hz ld calls s := by
  induction calls generalizing s a with
  | nil => exact Iff.rfl
  | cons c calls ih =>
    by_cases hclean : c.CleanSeek k s
    · obtain ⟨hval, hrep⟩ := c.exec_represents hz ld h hclean
      simp [StackedAlong, CleanAlong, hval, hclean, hrep.pushed, ih hrep]
    · obtain ⟨hok, hholds⟩ := Call.not_holds_of_not_cleanSeek hz ld hclean
        ((c.execStacked k hz ld).run a).2.pushed
      simp only [StackedAlong, CleanAlong, hclean, false_and, iff_false]
      exact fun hall => hholds (hall.2 hok).1

end Step

/-- The ways a `FILE` is made. -/
inductive Origin
  | createFdFile (fd : ℤ)
  | createStrFile (str : List Byte)

def Origin.file : Origin → File
  | .createFdFile fd => Stdio.createFdFile fd
  | .createStrFile str => Stdio.createStrFile str

theorem Origin.represents (o : Origin) (kernel : κ) (errno : ℤ) :
    Represents ⟨o.file, kernel, errno⟩ ⟨[], ⟨o.file, kernel, errno⟩⟩ := by
  cases o with
  | createFdFile fd | createStrFile str => exact ⟨rfl, File.holds_nil rfl rfl⟩

/-- Whatever the kernel answers, the calls on a new `FILE` keep what was given
back as a stack exactly when no `fseek` moves the offset while there is
something on it. -/
theorem stackedAlong_iff_cleanAlong (hz : Hz) (ld : LongDouble F) (k : Kernel κ)
    (calls : List Call) (o : Origin) (kernel : κ) (errno : ℤ) :
    StackedAlong k hz ld calls ⟨o.file, kernel, errno⟩ ⟨[], ⟨o.file, kernel, errno⟩⟩ ↔
      CleanAlong k hz ld calls ⟨o.file, kernel, errno⟩ :=
  stackedAlong_iff hz ld calls (o.represents kernel errno)

/-- After `ungetc` and a successful `fseek` the size is one and the pointer is
at the start of the array. -/
theorem ungetc_fseek_not_stackedAlong :
    ¬ StackedAlong (RegularFile.kernel .bytewise) .plain .integral [.ungetc 97, .fseek 0 0]
      ⟨createFdFile 3, ⟨[], 0, 0⟩, 0⟩ ⟨[], ⟨createFdFile 3, ⟨[], 0, 0⟩, 0⟩⟩ := by
  intro h
  obtain ⟨-, hseek⟩ := (h.2 rfl).2
  exact absurd (hseek rfl).1.ptr (by decide)

end Hzlibc.Stdio
