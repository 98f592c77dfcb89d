import Hzlibc.Stdio.Printf

/-!
The mutex of the stream in `vfprintf`.

The function locks the mutex once, and unlocks it by hand on each of its ways
out: in `write`, whose callers only return, in the copies of `write` that the
conversions of characters and strings have, at the end of the format, and where
the format ends inside a directive. The formatter is run here with what it does
to the mutex recorded beside its state.
-/

namespace Hzlibc.Stdio

open Effect

inductive MutexEvent
  /-- `manual_lock`. -/
  | lock
  /-- `manual_unlock`. -/
  | unlock
  deriving DecidableEq

structure Locking (S F : Type) where
  printing : Printing S F
  events : List MutexEvent

namespace Locking

open Printing (onIo onPrinter fail einval)

variable {S F α β : Type} (sink : Sink S) (ld : LongDouble F) (rounds : ℕ)

abbrev M (S F α : Type) := Prog (Locking S F) PrintStop α

def onPrinting (m : Printing.M S F α) : M S F α :=
  .zoom Locking.printing (fun printing s => { s with printing }) m

def event (e : MutexEvent) : M S F Unit := .modify fun s => { s with events := s.events ++ [e] }

/-- `write`, and the `return -1` that follows where it fails. -/
def write (str : List Byte) : M S F Unit := do
  let tmp ← onPrinting (onIo (sink.write str))
  if tmp < 0 then
    event .unlock
    .leave .failed
  else
    onPrinting (.modify fun s => { s with written := s.written + tmp.toNat })
    let written ← onPrinting (.gets fun s => s.written)
    if intMax < written then
      event .unlock
      onPrinting (fail Stream.eoverflow)
    else pure ()

/-- One round of the loop. -/
def execute : PrintDirective → M S F Unit
  | .text str => write sink str
  | .conversion flags width precision state conv => do
      let written ← onPrinting (.gets fun s => s.written)
      let pieces ← onPrinting <| onPrinter do
        Printer.pieces ld rounds written (← Printer.popSpec flags width precision state conv)
      .each (write sink) pieces
  | .truncated => do
      event .unlock
      onPrinting (fail einval)
  | .panic => .leave (.fault .abort)

/-- The body of `vfprintf`. -/
def print (directives : List PrintDirective) : M S F ℤ := do
  event .lock
  .each (execute sink ld rounds) directives
  event .unlock
  onPrinting (.gets fun s => s.written)

/-! ### The formatter without its mutex -/

/-- The formatter behaves as if there were no mutex. -/
abbrev Erases (m : M S F α) (n : Printing.M S F α) : Prop :=
  Prog.Sim (fun s t => s.printing = t) m n

theorem erases_onPrinting (m : Printing.M S F α) : Erases (onPrinting m) m := by
  rintro s _ rfl
  exact ⟨rfl, rfl⟩

theorem erases_event {m : M S F α} {n : Printing.M S F α} (e : MutexEvent) (h : Erases m n) :
    Erases (do event e; m) n :=
  fun s _ hs => h (s := { s with events := s.events ++ [e] }) hs

theorem erases_write (str : List Byte) :
    Erases (F := F) (write sink str) (Printing.write sink str) :=
  (erases_onPrinting _).bind fun _ =>
    .ite (erases_event _ (.leave _)) <| (erases_onPrinting _).bind fun _ =>
      (erases_onPrinting _).bind fun _ => .ite (erases_event _ (erases_onPrinting _)) (.pure _)

theorem erases_execute (d : PrintDirective) :
    Erases (execute sink ld rounds d) (Printing.execute sink ld rounds d) := by
  cases d with
  | text str => exact erases_write sink str
  | conversion =>
    exact (erases_onPrinting _).bind fun _ => (erases_onPrinting _).bind fun pieces =>
      .each (erases_write sink) pieces
  | truncated => exact erases_event _ (erases_onPrinting _)
  | panic => exact .leave _

variable (directives : List PrintDirective)

theorem erases_print :
    Erases (print sink ld rounds directives) (Printing.print sink ld rounds directives) :=
  erases_event _ ((Prog.Sim.each (erases_execute sink ld rounds) directives).bind fun _ =>
    erases_event _ (erases_onPrinting _))

/-! ### The balance -/

/-- What was done to the mutex in a part that ended in this way: it was
unlocked if the function returns. -/
def released : Except PrintStop α → List MutexEvent
  | .error .failed => [.unlock]
  | _ => []

def Balanced (m : M S F α) : Prop :=
  ∀ s, (m.run s).2.events = s.events ++ released (m.run s).1

variable {m : M S F α} {f : α → M S F β}

theorem Balanced.bind (h : Balanced m) (hf : ∀ a, Balanced (f a)) : Balanced (m >>= f) := by
  intro s
  have hs := h s
  rcases hm : m.run s with ⟨(_ | _) | a, s'⟩
  · rw [hm] at hs
    rw [Prog.run_bind_of_error hm]
    exact hs
  · rw [hm] at hs
    rw [Prog.run_bind_of_error hm]
    exact hs
  · rw [hm] at hs
    rw [Prog.run_bind_of_ok hm]
    have hevents : s'.events = s.events := by simpa [released] using hs
    rw [← hevents]
    exact hf a s'

theorem Balanced.each {f : α → M S F Unit} (h : ∀ a, Balanced (f a)) (as : List α) :
    Balanced (.each f as) := by
  induction as with
  | nil => exact fun s => (List.append_nil _).symm
  | cons a as ih => exact (h a).bind fun _ => ih

/-- A part of the formatter in which the function does not return. -/
theorem balanced_onPrinting {m : Printing.M S F α} (h : ∀ s, released (m.run s).1 = []) :
    Balanced (onPrinting m) := by
  intro s
  change s.events = s.events ++ released (m.run s.printing).1
  rw [h, List.append_nil]

theorem balanced_mapError (m : Prog (Printing S F) Fault α) :
    Balanced (onPrinting (.mapError .fault m)) := by
  refine balanced_onPrinting fun s => ?_
  rw [Prog.run_mapError]
  cases (m.run s).1 <;> rfl

theorem balanced_write (str : List Byte) : Balanced (F := F) (write sink str) := by
  refine (balanced_mapError _).bind fun tmp => ?_
  split
  · exact fun _ => rfl
  · refine (balanced_onPrinting fun _ => rfl).bind fun _ =>
      (balanced_onPrinting fun _ => rfl).bind fun written => ?_
    split
    · exact fun _ => rfl
    · exact fun _ => (List.append_nil _).symm

theorem balanced_execute (d : PrintDirective) : Balanced (execute sink ld rounds d) := by
  cases d with
  | text str => exact balanced_write sink str
  | conversion =>
    exact (balanced_onPrinting fun _ => rfl).bind fun _ =>
      (balanced_mapError _).bind fun pieces =>
        .each (balanced_write sink) pieces
  | truncated => exact fun _ => rfl
  | panic => exact fun _ => (List.append_nil _).symm

theorem run_print_events (p : Printing S F) :
    ((print sink ld rounds directives).run ⟨p, []⟩).2.events =
      match ((print sink ld rounds directives).run ⟨p, []⟩).1 with
      | .error (.fault _) => [.lock]
      | _ => [.lock, .unlock] := by
  have hloop := Balanced.each (balanced_execute sink ld rounds) directives ⟨p, [.lock]⟩
  have hlock : (event .lock).run ⟨p, []⟩ = (.ok (), (⟨p, [.lock]⟩ : Locking S F)) := rfl
  rw [print, Prog.run_bind_of_ok hlock]
  rcases hend : (Prog.each (execute sink ld rounds) directives).run ⟨p, [.lock]⟩ with
    ⟨(_ | _) | _, t⟩
  all_goals rw [hend] at hloop
  · rw [Prog.run_bind_of_error hend]
    exact hloop
  · rw [Prog.run_bind_of_error hend]
    exact hloop
  · rw [Prog.run_bind_of_ok hend]
    exact congrArg (· ++ [MutexEvent.unlock]) hloop

end Locking

variable {S F : Type}

/-- Whatever the stream answers, the mutex is locked and unlocked once in a
call that returns, and only locked in one that does not. -/
theorem vfprintf_balanced (hz : Hz) (ld : LongDouble F) (sink : Sink S) (rounds : ℕ)
    (fmt : List Byte) (args : List (Arg F)) (s : S) :
    let r := (Locking.print sink ld rounds (printDirectives hz fmt.length fmt)).run
      ⟨.start s args, []⟩
    (vfprintf hz ld sink rounds fmt args).run s = Printing.finish (r.1, r.2.printing) ∧
      r.2.events = match ((vfprintf hz ld sink rounds fmt args).run s).1 with
        | .ok _ => [.lock, .unlock]
        | .error _ => [.lock] := by
  intro r
  obtain ⟨hval, hstate⟩ := Locking.erases_print sink ld rounds
    (printDirectives hz fmt.length fmt) (s := ⟨.start s args, []⟩) rfl
  have hrun : (vfprintf hz ld sink rounds fmt args).run s =
      Printing.finish (r.1, r.2.printing) := by
    rw [run_vfprintf, hval, hstate]
  refine ⟨hrun, ?_⟩
  rw [hrun]
  refine (Locking.run_print_events sink ld rounds _ _).trans ?_
  rcases r.1 with (_ | _) | _ <;> rfl

end Hzlibc.Stdio
