import Hzlibc.Stdio.ReaderSim

/-!
The end-of-file indicator of a stream over a descriptor.

The indicator is meant to tell that a read has come to the end of the file
since the last call that clears it. The code sets it whenever the kernel returns
less than was asked for, and clears it only in `rewind`. The kernel is run here
with a log beside it, and the calls add to the log what they have done.
-/

namespace Hzlibc.Stdio

open Effect

/-! ### The log -/

inductive FileEvent
  /-- The kernel has returned `got` bytes. -/
  | read (asked got : ℕ)
  | seek (moved : Bool)
  | rewind
  | ungetc
  | clearerr

namespace FileEvent

/-- Less was returned than asked for. -/
def isShort : FileEvent → Bool
  | read asked got => got < asked
  | _ => false

/-- Nothing was returned: the end of the file. -/
def isEnd : FileEvent → Bool
  | read asked got => asked ≠ 0 && got = 0
  | _ => false

def isRewind : FileEvent → Bool
  | rewind => true
  | _ => false

/-- The indicator is to be cleared. -/
def clears : FileEvent → Bool
  | seek true | ungetc | clearerr => true
  | _ => false

end FileEvent

/-- An event of one kind is in the log, and behind it none of another kind. -/
def Since (kind clear : FileEvent → Bool) (log : List FileEvent) : Prop :=
  ∃ before e after, log = before ++ e :: after ∧ kind e ∧ ∀ x ∈ after, clear x = false

section

open List

variable {kind clear : FileEvent → Bool}

@[simp] theorem not_since_nil : ¬ Since kind clear [] := by
  rintro ⟨before, e, after, hlog, -⟩
  simp at hlog

@[simp] theorem since_append_singleton {log : List FileEvent} {e : FileEvent} :
    Since kind clear (log ++ [e]) ↔ kind e ∨ Since kind clear log ∧ clear e = false := by
  constructor
  · rintro ⟨before, e', after, hlog, hkind, hafter⟩
    rcases eq_nil_or_concat after with rfl | ⟨after, last, rfl⟩
    · obtain ⟨-, ⟨⟩⟩ := append_inj' hlog rfl
      exact .inl hkind
    · rw [concat_eq_append] at hlog hafter
      rw [← cons_append, ← append_assoc] at hlog
      obtain ⟨rfl, ⟨⟩⟩ := append_inj' hlog rfl
      obtain ⟨hafter, hclear⟩ := forall_mem_append.mp hafter
      exact .inr ⟨⟨before, e', after, rfl, hkind, hafter⟩, hclear e mem_cons_self⟩
  · rintro (hkind | ⟨⟨before, e', after, rfl, hkind, hafter⟩, hclear⟩)
    · exact ⟨log, e, [], rfl, hkind, forall_mem_nil _⟩
    · exact ⟨before, e', after ++ [e], by simp, hkind,
        forall_mem_append.mpr ⟨hafter, forall_mem_singleton.mpr hclear⟩⟩

end

variable {κ : Type}

/-- The kernel with a log of its answers. -/
def Kernel.logging (k : Kernel κ) : Kernel (κ × List FileEvent) where
  sysRead s fd size :=
    ((k.sysRead s.1 fd size).1, (k.sysRead s.1 fd size).2,
      match (k.sysRead s.1 fd size).1 with
      | .ok bytes => s.2 ++ [.read size bytes.length]
      | .error _ => s.2)
  sysRead_le h := k.sysRead_le (Prod.ext (Prod.mk.inj h).1 rfl)
  sysLseek s fd offset whence :=
    ((k.sysLseek s.1 fd offset whence).1, (k.sysLseek s.1 fd offset whence).2,
      s.2 ++ [.seek (k.sysLseek s.1 fd offset whence).1.isOk])

/-! ### Histories -/

inductive FileCall
  | fgetc
  | fread (size count : ℕ)
  | ungetc (ch : ℤ)
  | fseek (offset origin : ℤ)
  | fsetpos (pos : ℤ)
  | rewind
  | clearerr

abbrev Logged (κ : Type) := Stream (κ × List FileEvent)

def note (e : FileEvent) : Prog (Logged κ) Fault Unit :=
  .modify fun s => { s with kernel := (s.kernel.1, s.kernel.2 ++ [e]) }

def FileCall.exec (k : Kernel κ) : FileCall → Prog (Logged κ) Fault Unit
  | .fgetc => do
      let _ ← (Stream.reader k.logging).fgetc
  | .fread size count => do
      let _ ← (Stream.reader k.logging).fread size count
  | .ungetc ch => do
      if (← Stream.ungetc ch) = EOF then pure () else note .ungetc
  | .fseek offset origin => do
      let _ ← Stream.fseek k.logging offset origin
  | .fsetpos pos => do
      let _ ← Stream.fsetpos k.logging pos
  | .rewind => do
      Stream.rewind k.logging
      note .rewind
  | .clearerr => do
      Stream.clearerr
      note .clearerr

/-- A history on a new stream. -/
def history (k : Kernel κ) (fd : ℤ) (κ₀ : κ) (calls : List FileCall) :
    Except Fault Unit × Logged κ :=
  (Prog.each (FileCall.exec k) calls).run ⟨createFdFile fd, (κ₀, []), 0⟩

/-! ### The indicator -/

/-- The indicator is set when there was a short answer since the last `rewind`. -/
def Indicates (s t : Logged κ) : Prop :=
  s = t ∧ s.file.read = .fdFileRead ∧
    (s.file.eof ↔ Since FileEvent.isShort FileEvent.isRewind s.kernel.2)

theorem File.takeUngetc_keeps {size : ℕ} {f f' : File} {bytes : List Byte}
    (h : f.takeUngetc size = .ok (bytes, f')) : f'.read = f.read ∧ f'.eof = f.eof := by
  induction size generalizing f bytes with
  | zero =>
    cases h
    exact ⟨rfl, rfl⟩
  | succ size ih =>
    rw [takeUngetc] at h
    split at h
    · cases h
      exact ⟨rfl, rfl⟩
    · split at h
      · split at h
        · rename_i hrest
          cases h
          have hkeeps := ih hrest
          exact hkeeps
        · cases h
      · cases h

theorem read_indicates (k : Kernel κ) (size : ℕ) :
    Prog.Sim Indicates (Stream.read k.logging size) (Stream.read k.logging size) := by
  rintro s _ ⟨rfl, hread, heof⟩
  refine ⟨rfl, rfl, ?_⟩
  rw [Stream.run_read_fd hread]
  rcases hunget : s.file.takeUngetc size with e | ⟨unget, f⟩
  · have hrun : (Stream.fdFileRead k.logging size).run s = (.error e, s) := by
      exact Prog.run_bind_of_error (by simp [Prog.run, Stream.takeUngetc, hunget])
    rw [hrun]
    exact ⟨hread, heof⟩
  · obtain ⟨hread', heof'⟩ := File.takeUngetc_keeps hunget
    rw [Stream.run_fdFileRead hunget]
    simp only [Kernel.logging]
    rcases k.sysRead s.kernel.1 f.fd (size - unget.length) with ⟨_ | bytes, κ₁⟩
    · exact ⟨hread'.trans hread, heof' ▸ heof⟩
    · refine ⟨hread'.trans hread, ?_⟩
      rw [since_append_singleton, ← heof, ← heof']
      simp [FileEvent.isShort, FileEvent.isRewind, or_comm]

/-- A part of a call that does not touch the indicator and the log. -/
theorem indicates_of_keeps {α : Type} {m : Prog (Logged κ) Fault α}
    (h : ∀ s, (m.run s).2.file.read = s.file.read ∧ (m.run s).2.file.eof = s.file.eof ∧
      (m.run s).2.kernel.2 = s.kernel.2) : Prog.Sim Indicates m m := by
  rintro s _ ⟨rfl, hread, heof⟩
  obtain ⟨hread', heof', hlog⟩ := h s
  exact ⟨rfl, rfl, hread'.trans hread, by rw [heof', heof, hlog]⟩

theorem ungetc_indicates (ch : ℤ) :
    Prog.Sim (Indicates (κ := κ)) (Stream.ungetc ch) (Stream.ungetc ch) := by
  refine indicates_of_keeps fun s => ?_
  simp [Stream.ungetc, Stream.modifyFile]
  split
  · exact ⟨rfl, rfl, rfl⟩
  · split <;> exact ⟨rfl, rfl, rfl⟩

theorem note_indicates {e : FileEvent} (hshort : e.isShort = false) (hrewind : e.isRewind = false) :
    Prog.Sim (Indicates (κ := κ)) (note e) (note e) := by
  rintro s _ ⟨rfl, hread, heof⟩
  refine ⟨rfl, rfl, hread, ?_⟩
  simp [note, heof, hshort, hrewind]

theorem sysLseek_indicates (k : Kernel κ) (offset whence : ℤ) :
    Prog.Sim Indicates (Stream.sysLseek k.logging offset whence)
      (Stream.sysLseek k.logging offset whence) := by
  rintro s _ ⟨rfl, hread, heof⟩
  refine ⟨rfl, rfl, hread, heof.trans ?_⟩
  simp [Prog.run, Stream.sysLseek, Kernel.logging, FileEvent.isShort, FileEvent.isRewind]

theorem exec_indicates (k : Kernel κ) (call : FileCall) :
    Prog.Sim Indicates (call.exec k) (call.exec k) := by
  have hreader : (Stream.reader k.logging).Respects Indicates (Stream.reader k.logging) :=
    ⟨read_indicates k, ungetc_indicates⟩
  cases call with
  | fgetc => exact (Reader.fgetc_sim hreader).bind fun _ => .pure ()
  | fread size count => exact (Reader.fread_sim hreader size count).bind fun _ => .pure ()
  | ungetc ch =>
    exact (ungetc_indicates ch).bind fun _ => .ite (.pure ()) (note_indicates rfl rfl)
  | fseek | fsetpos =>
    refine Prog.Sim.bind ((sysLseek_indicates k _ _).bind fun r => ?_) fun _ => .pure ()
    cases r <;> exact indicates_of_keeps fun _ => ⟨rfl, rfl, rfl⟩
  | rewind =>
    -- the log is behind the indicator until the end of the call
    rintro s _ ⟨rfl, hread, heof⟩
    rw [FileCall.exec, Prog.run_bind, Stream.run_rewind]
    rcases k.logging.sysLseek s.kernel s.file.fd 0 Stream.seekSet with ⟨_ | _, κ₁⟩
    all_goals exact ⟨rfl, rfl, hread, by simp [note, FileEvent.isShort, FileEvent.isRewind]⟩
  | clearerr =>
    exact (indicates_of_keeps fun _ => ⟨rfl, rfl, rfl⟩).bind fun _ => note_indicates rfl rfl

/-- The indicator is right if and only if less was returned than asked for since
the last `rewind` just in case nothing was returned since the last call that is
to clear the indicator. -/
theorem feof_right_iff (k : Kernel κ) (fd : ℤ) (κ₀ : κ) (calls : List FileCall) :
    (∃ s, history k fd κ₀ calls = (.ok (), s) ∧
        (s.file.eof ↔ Since FileEvent.isEnd FileEvent.clears s.kernel.2)) ↔
      ∃ s, history k fd κ₀ calls = (.ok (), s) ∧
        (Since FileEvent.isShort FileEvent.isRewind s.kernel.2 ↔
          Since FileEvent.isEnd FileEvent.clears s.kernel.2) := by
  have hstart : Indicates (κ := κ) ⟨createFdFile fd, (κ₀, []), 0⟩ ⟨createFdFile fd, (κ₀, []), 0⟩ :=
    ⟨rfl, rfl, by simp [createFdFile]⟩
  have hend := (Prog.Sim.each (exec_indicates k) calls hstart).2.2.2
  constructor
  · rintro ⟨s, hrun, heof⟩
    rw [show (Prog.each (FileCall.exec k) calls).run _ = _ from hrun] at hend
    exact ⟨s, hrun, hend.symm.trans heof⟩
  · rintro ⟨s, hrun, hsame⟩
    rw [show (Prog.each (FileCall.exec k) calls).run _ = _ from hrun] at hend
    exact ⟨s, hrun, hend.trans hsame⟩

def threeBytes : Kernel Unit where
  sysRead _ _ size := (.ok ([0, 0, 0].take size), ())
  sysRead_le {_ _ _ size _} h := Except.ok.inj (Prod.mk.inj h).1 ▸ List.length_take_le size _
  sysLseek _ _ _ _ := (.error 29, ())

theorem feof_not_right_short :
    ¬ ∃ s, history threeBytes 0 () [.fread 5 1] = (.ok (), s) ∧
      (s.file.eof ↔ Since FileEvent.isEnd FileEvent.clears s.kernel.2) := by
  rintro ⟨s, hrun, heof⟩
  cases hrun
  have hend := since_append_singleton.mp (heof.mp rfl : Since _ _ ([] ++ [.read 5 3]))
  simp [FileEvent.isEnd] at hend

end Hzlibc.Stdio
