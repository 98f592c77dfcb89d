import Hzlibc.Stdio.Printf

/-!
`vsnprintf` and `vasprintf`.

The formatter writes to a stream whose callback copies what still fits and
claims to have taken everything, so it never notices where the buffer ends.
It is compared with a formatter that writes to an unbounded stream: on related
streams the two take the same way, and the buffer always holds the beginning of
what the other one has collected.
-/

namespace Hzlibc.Stdio

open Effect List

/-! ### Streams that answer alike -/

section Sinks

variable {S T F : Type} {R : S → T → Prop}

/-- The two streams answer alike and keep `R`. -/
def Sink.Respects (R : S → T → Prop) (sink : Sink S) (sink' : Sink T) : Prop :=
  ∀ str, Prog.Sim R (sink.write str) (sink'.write str)

namespace Printing

/-- Two formatters that differ at most in their stream. -/
structure Rel (R : S → T → Prop) (s : Printing S F) (t : Printing T F) : Prop where
  io : R s.io t.io
  written : s.written = t.written
  printer : s.printer = t.printer

variable {α : Type} {sink : Sink S} {sink' : Sink T}

theorem onIo_sim {m : Prog S Fault α} {n : Prog T Fault α} (h : Prog.Sim R m n) :
    Prog.Sim (Rel R : Printing S F → Printing T F → Prop) (onIo m) (onIo n) :=
  Prog.Sim.mapError _ (h.zoom (fun _ _ h => h.io) fun _ _ _ _ h hab => ⟨hab, h.written, h.printer⟩)

theorem onPrinter_sim (m : Printer.M F α) : Prog.Sim (Rel R) (onPrinter m) (onPrinter m) :=
  Prog.Sim.mapError _ ((Prog.Sim.refl m).zoom (fun _ _ h => h.printer)
    fun _ _ _ _ h hab => ⟨h.io, h.written, hab⟩)

theorem fail_sim (err : ℤ) :
    Prog.Sim (Rel R : Printing S F → Printing T F → Prop) (fail err) (fail err) :=
  (onPrinter_sim _).bind fun _ => .leave _

variable (h : sink.Respects R sink')
include h

theorem write_sim (str : List Byte) :
    Prog.Sim (Rel R : Printing S F → Printing T F → Prop) (write sink str) (write sink' str) := by
  refine (onIo_sim (h str)).bind fun tmp => .ite (.leave _) ?_
  refine Prog.Sim.bind (.modify fun s t h => ?_) fun _ => ?_
  · exact ⟨h.io, by rw [h.written], h.printer⟩
  · exact (Prog.Sim.gets fun _ _ h => h.written).bind fun written =>
      .ite (fail_sim _) (.pure ())

theorem execute_sim (ld : LongDouble F) (rounds : ℕ) (d : PrintDirective) :
    Prog.Sim (Rel R) (execute sink ld rounds d) (execute sink' ld rounds d) := by
  cases d with
  | text str => exact write_sim h str
  | conversion flags width precision state conv =>
    refine (Prog.Sim.gets fun _ _ h => h.written).bind fun written => ?_
    exact (onPrinter_sim _).bind fun pieces => Prog.Sim.each (write_sim h) pieces
  | truncated => exact fail_sim _
  | panic => exact .leave _

theorem print_sim (ld : LongDouble F) (rounds : ℕ) (directives : List PrintDirective) :
    Prog.Sim (Rel R) (print sink ld rounds directives) (print sink' ld rounds directives) :=
  (Prog.Sim.each (execute_sim h ld rounds) directives).bind fun _ =>
    .gets fun _ _ hst => congrArg Nat.cast hst.written

end Printing

/-- Streams that answer alike make `vfprintf` return the same. -/
theorem vfprintf_sim {sink : Sink S} {sink' : Sink T} (h : sink.Respects R sink') (hz : Hz)
    (ld : LongDouble F) (rounds : ℕ) (fmt : List Byte) (args : List (Arg F)) :
    Prog.Sim R (vfprintf hz ld sink rounds fmt args) (vfprintf hz ld sink' rounds fmt args) := by
  intro s t hst
  have hstart : Printing.Rel R (Printing.start s args) (Printing.start t args) := ⟨hst, rfl, rfl⟩
  obtain ⟨hval, hend⟩ := Printing.print_sim h ld rounds (printDirectives hz fmt.length fmt) hstart
  simp only [Prog.run, vfprintf] at hval hend ⊢
  revert hval hend
  generalize Printing.print sink ld rounds (printDirectives hz fmt.length fmt) (.start s args) = a
  generalize Printing.print sink' ld rounds (printDirectives hz fmt.length fmt) (.start t args) = b
  obtain ⟨ra, sa⟩ := a
  obtain ⟨rb, sb⟩ := b
  rintro (rfl : ra = rb) (hend : Printing.Rel R sa sb)
  -- the three ways the loop ends
  rcases ra with (_ | _) | _
  · exact ⟨by simp [Printing.finish, hend.printer], hend.io⟩
  · exact ⟨rfl, hend.io⟩
  · exact ⟨by simp [Printing.finish, hend.printer], hend.io⟩

end Sinks

/-! ### The unbounded stream -/

/-- A stream that keeps everything it is given. -/
def Sink.collect : Sink (List Byte) := ⟨fun str out => (.ok str.length, out ++ str)⟩

namespace Printing

variable {F : Type}

theorem run_write_collect (str : List Byte) (s : Printing (List Byte) F) :
    (write .collect str).run s =
      if intMax < (s.written + str.length : ℕ) then
        (.error .failed, ⟨s.io ++ str, s.written + str.length,
          { s.printer with errno := some Stream.eoverflow }⟩)
      else (.ok (), ⟨s.io ++ str, s.written + str.length, s.printer⟩) := by
  have hio : (onIo (Sink.collect.write str)).run s =
      (.ok (str.length : ℤ), { s with io := s.io ++ str }) := rfl
  rw [write, Prog.run_bind_of_ok hio, if_neg (by omega)]
  simp
  split <;> rfl

/-- The formatter beside itself, with all it has written counted. -/
def Counted (s t : Printing (List Byte) F) : Prop := s = t ∧ s.written = s.io.length

theorem onPrinter_counted {α : Type} (m : Printer.M F α) :
    Prog.Sim Counted (onPrinter m) (onPrinter m) := by
  rintro s _ ⟨rfl, h⟩
  exact ⟨rfl, rfl, h⟩

theorem write_counted (str : List Byte) :
    Prog.Sim (Counted : Printing (List Byte) F → _ → Prop) (write .collect str)
      (write .collect str) := by
  rintro s _ ⟨rfl, h⟩
  refine ⟨rfl, rfl, ?_⟩
  rw [run_write_collect]
  split
  · simp [h]
  · simp [h]

theorem execute_counted (ld : LongDouble F) (rounds : ℕ) (d : PrintDirective) :
    Prog.Sim Counted (execute .collect ld rounds d) (execute .collect ld rounds d) := by
  cases d with
  | text str => exact write_counted str
  | conversion flags width precision state conv =>
    refine (Prog.Sim.gets fun s t h => by rw [h.1]).bind fun written => ?_
    exact (onPrinter_counted _).bind fun pieces => Prog.Sim.each write_counted pieces
  | truncated => exact (onPrinter_counted _).bind fun _ => .leave _
  | panic => exact .leave _

/-- The value returned is the number of bytes written. -/
theorem run_print_collect {ld : LongDouble F} {rounds : ℕ} {directives : List PrintDirective}
    {s s' : Printing (List Byte) F} {value : ℤ} (hs : s.written = s.io.length)
    (h : (print .collect ld rounds directives).run s = (.ok value, s')) : value = s'.io.length := by
  have hcount := (Prog.Sim.each (execute_counted ld rounds) directives ⟨rfl, hs⟩).2.2
  rw [print, Prog.run_bind] at h
  rcases heach : (Prog.each (execute .collect ld rounds) directives).run s with ⟨_ | _, s''⟩
  · simp [heach] at h
  · simp [heach] at h
    rw [heach] at hcount
    obtain ⟨rfl, rfl⟩ := h
    exact congrArg Nat.cast hcount

end Printing

theorem vfprintf_collect_ret {F : Type} {hz : Hz} {ld : LongDouble F} {rounds : ℕ}
    {fmt : List Byte} {args : List (Arg F)} {printed : Printed} {out : List Byte}
    (hrun : (vfprintf hz ld .collect rounds fmt args).run [] = (.ok printed, out))
    (hret : 0 ≤ printed.ret) : printed.ret = out.length := by
  rw [run_vfprintf] at hrun
  rcases h : (Printing.print .collect ld rounds (printDirectives hz fmt.length fmt)).run
    (.start [] args) with ⟨(_ | _) | value, s⟩
  · rw [h] at hrun
    cases hrun
    exact absurd hret (by simp [Printer.printed])
  · rw [h] at hrun
    cases hrun
  · have hvalue := Printing.run_print_collect rfl h
    rw [h] at hrun
    cases hrun
    exact hvalue

/-! ### The buffer -/

/-- Memory with a string written at a position. -/
def overwrite (mem : ℕ → Byte) (pos : ℕ) (str : List Byte) : ℕ → Byte := fun i =>
  if i < pos then mem i else str.getD (i - pos) (mem i)

/-- The stream of `vsnprintf`; positions count from `write_base`. -/
structure StrFile where
  mem : ℕ → Byte
  writeEnd : ℕ
  writePtr : ℕ

def StrFile.sink : Sink StrFile :=
  ⟨fun str f =>
    let canCopy := min (f.writeEnd - f.writePtr) str.length
    (.ok str.length,
      { f with
        mem := overwrite f.mem f.writePtr (str.take canCopy)
        writePtr := f.writePtr + canCopy })⟩

/-- The NUL at the end. -/
def StrFile.terminate (f : StrFile) : ℕ → Byte :=
  if f.writePtr ≠ f.writeEnd then overwrite f.mem f.writePtr [0]
  else if f.writeEnd ≠ 0 then overwrite f.mem (f.writePtr - 1) [0]
  else f.mem

section Calls

variable {F : Type} (hz : Hz) (ld : LongDouble F) (rounds : ℕ)

/-- `vsnprintf`: what it returns, and the memory after it. -/
def vsnprintf (mem : ℕ → Byte) (size : ℕ) (fmt : List Byte) (args : List (Arg F)) :
    Except Fault Printed × (ℕ → Byte) :=
  let (printed, f) := (vfprintf hz ld StrFile.sink rounds fmt args).run ⟨mem, size, 0⟩
  (printed, f.terminate)

def enomem : ℤ := 12

/-- `vasprintf`, with the blocks that `malloc` returns: what it returns, and
the string. -/
def vasprintf (malloc : ℕ → Option (ℕ → Byte)) (fmt : List Byte) (args : List (Arg F)) :
    Except Fault (Printed × Option (ℕ → Byte)) := do
  let printed ← (vsnprintf hz ld rounds (fun _ => 0) 0 fmt args).1
  if printed.ret < 0 then pure (printed, none)
  else
    let size := (BitVec.ofInt 64 (toInt32 (printed.ret + 1))).toNat
    match malloc size with
    | none => pure ({ printed with ret := -1, errno := some enomem }, none)
    | some buf =>
      let (printed, buf) := vsnprintf hz ld rounds buf size fmt args
      pure (← printed, some buf)

end Calls

/-! ### The buffer holds the beginning of the output -/

variable (mem : ℕ → Byte)

@[simp] theorem overwrite_nil (pos : ℕ) : overwrite mem pos [] = mem := by
  funext i
  simp [overwrite]

theorem overwrite_overwrite (pos : ℕ) (a b : List Byte) :
    overwrite (overwrite mem pos a) (pos + a.length) b = overwrite mem pos (a ++ b) := by
  funext i
  simp [overwrite]
  by_cases hpos : i < pos
  · rw [if_pos (by omega), if_pos hpos, if_pos hpos]
  · by_cases ha : i < pos + a.length
    · rw [if_pos ha, if_neg hpos, if_neg hpos, List.getElem?_append_left (by omega)]
    · have hnone : a[i - pos]? = none := List.getElem?_eq_none (by omega)
      rw [if_neg ha, if_neg hpos, if_neg hpos, List.getElem?_append_right (by omega), hnone,
        Nat.sub_sub]
      rfl

theorem overwrite_same (pos : ℕ) (x y : Byte) :
    overwrite (overwrite mem pos [x]) pos [y] = overwrite mem pos [y] := by
  funext i
  simp only [overwrite]
  by_cases hpos : i < pos
  · simp [hpos]
  · by_cases hi : i = pos
    · simp [hi]
    · have hone : 1 ≤ i - pos := by omega
      simp [hpos, List.getElem?_eq_none, hone]

/-- The buffer of `size` bytes holds what fits of the output. -/
def Clipped (mem : ℕ → Byte) (size : ℕ) (f : StrFile) (out : List Byte) : Prop :=
  f = ⟨overwrite mem 0 (out.take size), size, min size out.length⟩

theorem sink_respects (size : ℕ) : StrFile.sink.Respects (Clipped mem size) Sink.collect := by
  rintro str f out rfl
  have hlen : (out.take size).length = min size out.length := length_take
  have hcopy : str.take (min (size - min size out.length) str.length) =
      str.take (size - out.length) := by
    rw [take_eq_take_iff]
    omega
  have hmem : overwrite (overwrite mem 0 (out.take size)) (min size out.length)
      (str.take (min (size - min size out.length) str.length)) =
        overwrite mem 0 ((out ++ str).take size) := by
    rw [hcopy, ← hlen, ← Nat.zero_add (out.take size).length, overwrite_overwrite, ← take_append]
  have hptr : min size out.length + min (size - min size out.length) str.length =
      min size (out ++ str).length := by
    rw [length_append]
    omega
  simp [Clipped, StrFile.sink, Sink.collect, Prog.run, hmem, hptr]

theorem Clipped.terminate {mem : ℕ → Byte} {size : ℕ} {f : StrFile} {out : List Byte}
    (h : Clipped mem size f out) :
    f.terminate = if size = 0 then mem else overwrite mem 0 (out.take (size - 1) ++ [0]) := by
  subst h
  rw [StrFile.terminate]
  by_cases hsize : size = 0
  · simp [hsize]
  rw [if_neg hsize]
  by_cases hfits : out.length < size
  · have hptr : min size out.length = out.length := by omega
    have hlen := overwrite_overwrite mem 0 out [0]
    rw [Nat.zero_add] at hlen
    simp only [hptr]
    rw [if_pos (by omega), take_of_length_le (by omega), hlen, take_of_length_le (by omega)]
  · -- the buffer is full and its last byte makes room for the NUL
    have hptr : min size out.length = size := by omega
    have hlast : out.take size = out.take (size - 1) ++ [out.getD (size - 1) 0] := by
      have hlt : size - 1 < out.length := by omega
      rw [← Nat.sub_add_cancel (Nat.pos_of_ne_zero hsize), take_add_one]
      simp [hlt]
    have hlen : (out.take (size - 1)).length = size - 1 := by
      rw [length_take]
      omega
    have hbody (x : Byte) : overwrite mem 0 (out.take (size - 1) ++ [x]) =
        overwrite (overwrite mem 0 (out.take (size - 1))) (size - 1) [x] := by
      rw [← overwrite_overwrite, hlen, Nat.zero_add]
    simp only [hptr]
    rw [if_neg (by omega), if_pos hsize, hlast, hbody, overwrite_same, ← hbody]

section Law

variable {F : Type} {hz : Hz} {ld : LongDouble F} {rounds : ℕ} {fmt : List Byte}
  {args : List (Arg F)}

/-- Both runs return the same, and the buffer holds the beginning of the
output. -/
theorem vsnprintf_eq (size : ℕ) :
    vsnprintf hz ld rounds mem size fmt args =
      (((vfprintf hz ld .collect rounds fmt args).run []).1,
        if size = 0 then mem
        else overwrite mem 0
          (((vfprintf hz ld .collect rounds fmt args).run []).2.take (size - 1) ++ [0])) := by
  have hstart : Clipped mem size ⟨mem, size, 0⟩ [] := by
    simp [Clipped]
  obtain ⟨hval, hend⟩ := vfprintf_sim (sink_respects mem size) hz ld rounds fmt args hstart
  rw [vsnprintf, ← hend.terminate, ← hval]

/-- The law of truncation: what the unbounded call returns and writes decides
every bounded call. -/
theorem vsnprintf_truncates {printed : Printed} {out : List Byte}
    (hrun : (vfprintf hz ld .collect rounds fmt args).run [] = (.ok printed, out))
    (hret : 0 ≤ printed.ret) (hlen : (out.length : ℤ) < intMax) :
    printed.ret = out.length ∧
      (∀ mem size, vsnprintf hz ld rounds mem size fmt args =
        (.ok printed,
          if size = 0 then mem else overwrite mem 0 (out.take (size - 1) ++ [0]))) ∧
      ∀ malloc buf, malloc (out.length + 1) = some buf →
        vasprintf hz ld rounds malloc fmt args =
          .ok (printed, some (overwrite buf 0 (out ++ [0]))) := by
  have hsame := vfprintf_collect_ret hrun hret
  have hcall (mem : ℕ → Byte) (size : ℕ) : vsnprintf hz ld rounds mem size fmt args =
      (.ok printed, if size = 0 then mem else overwrite mem 0 (out.take (size - 1) ++ [0])) := by
    rw [vsnprintf_eq, hrun]
  refine ⟨hsame, hcall, ?_⟩
  intro malloc buf hmalloc
  have hsize : (BitVec.ofInt 64 (toInt32 (printed.ret + 1))).toNat = out.length + 1 := by
    have hmax : intMax = 2147483647 := by decide
    rw [toInt32_of_le (by omega) (by omega), BitVec.toNat_ofInt]
    omega
  have hneg : ¬ printed.ret < 0 := by omega
  simp [vasprintf, hcall, bind, Except.bind, hneg, hsize, hmalloc, pure, Except.pure]

end Law

def paddedFormat : List Byte := ['%', '-', '4', 'd', '%', '%']

/-- What it makes of 42. -/
def paddedOutput : List Byte := ['4', '2', ' ', ' ', '%']

theorem vsnprintf_truncates_forty_two :
    (vfprintf Hz.plain LongDouble.integral Sink.collect 0 paddedFormat [.int 42]).run [] =
        (Except.ok ⟨5, [], none⟩, paddedOutput) ∧
      ((0 : ℤ) ≤ 5 ∧ (paddedOutput.length : ℤ) < intMax) ∧
      ∀ mem size, vsnprintf Hz.plain LongDouble.integral 0 mem size paddedFormat [.int 42] =
        (.ok ⟨5, [], none⟩,
          if size = 0 then mem else overwrite mem 0 (paddedOutput.take (size - 1) ++ [0])) := by
  have hrun : (vfprintf Hz.plain LongDouble.integral Sink.collect 0 paddedFormat [.int 42]).run
      [] = (Except.ok ⟨5, [], none⟩, paddedOutput) := rfl
  exact ⟨hrun, by decide, (vsnprintf_truncates hrun (by decide) (by decide)).2.1⟩

end Hzlibc.Stdio
