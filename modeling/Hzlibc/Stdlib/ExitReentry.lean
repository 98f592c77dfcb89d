import Hzlibc.Calls.Registered
import Hzlibc.Stdlib.ExitHandlers
import Mathlib.Data.List.Perm.Basic

/-!
Exit handlers that register handlers while `run_exit_handlers` calls them.

`BLOCKS` and `QUICK_BLOCKS` are spinlocks that do not know their owner, so a thread that
takes one which it holds spins for ever: `none` here. `run_exit_handlers` holds `BLOCKS`
from its first line to its last one. The chain can therefore not change while it is gone
through, and the calls are those of `callBlocks`, each with what the handler does in
between. A handler is code of the program: any function from what happened so far and
the call to the registrations that it makes.
-/

namespace Hzlibc.ExitHandlers

open Calls List

/-- The chains with their locks, and what happened to the handlers of `exit`. -/
structure Process where
  state : State
  blocksLocked : Bool
  quickLocked : Bool
  log : List (Event HandlerCall)

def Process.start : Process := ⟨.initial, false, false, []⟩

/-- What a handler registers while it runs. -/
abbrev Body := List (Event HandlerCall) → HandlerCall → List Registration

def Process.lockBlocks (p : Process) : Option Process :=
  if p.blocksLocked then none else some { p with blocksLocked := true }

def Process.lockQuick (p : Process) : Option Process :=
  if p.quickLocked then none else some { p with quickLocked := true }

/-- Both functions that `exit` has call `__cxa_atexit`. -/
def Process.cxaAtexit (func arg dsoHandle : Ptr) (p : Process) : Option Process :=
  p.lockBlocks.map fun p =>
    { p with state := ExitHandlers.cxaAtexit func arg dsoHandle p.state
             blocksLocked := false
             log := p.log ++ [.registered ⟨func, arg⟩] }

def Process.atQuickExit (func : Ptr) (p : Process) : Option Process :=
  p.lockQuick.map fun p =>
    { p with state := ExitHandlers.atQuickExit func p.state, quickLocked := false }

def Process.register (p : Process) : Registration → Option Process
  | .cxaAtexit func arg dsoHandle => p.cxaAtexit func arg dsoHandle
  | .atexit func => p.cxaAtexit func 0 0
  | .atQuickExit func => p.atQuickExit func

/-- A handler is called and returns. -/
def Process.call (body : Body) (p : Process) (c : HandlerCall) : Option Process :=
  let log := p.log ++ [.called c]
  (body log c).foldlM Process.register { p with log }

def Process.runExitHandlers (body : Body) (p : Process) : Option Process :=
  p.lockBlocks.bind fun p =>
    ((callBlocks (p.state.blocks.head :: p.state.blocks.next)).foldlM (Process.call body) p).map
      fun p => { p with state.blocks := .initial, blocksLocked := false }

/-- A program registers handlers and exits. -/
def exitRun (body : Body) (rs : List Registration) : Option Process :=
  (rs.foldlM Process.register .start).bind (Process.runExitHandlers body)

/-- `run_exit_handlers` comes to its end, and every handler has been called once. A null
pointer is no handler. -/
def AllCalledOnce (body : Body) (rs : List Registration) : Prop :=
  ∃ p, exitRun body rs = some p ∧
    (calls p.log).Perm ((registrations p.log).filter (·.fn ≠ 0))

/-- None of these calls, made in this order after what the log says, registers a handler
of `exit`. -/
def NoneRegisters (body : Body) : List (Event HandlerCall) → List HandlerCall → Prop
  | _, [] => True
  | log, c :: cs =>
    (∀ r ∈ body (log ++ [.called c]) c, r.atExit = none) ∧
      NoneRegisters body (log ++ [.called c]) cs

/-! ### Before the exit -/

/-- The process registers handlers: no lock is held. -/
structure Process.Free (p : Process) : Prop where
  blocks : p.blocksLocked = false
  quick : p.quickLocked = false

variable {p : Process}

/-- The handler that a registration leaves is the one the log has. -/
theorem Process.Free.register (h : p.Free) (r : Registration) :
    ∃ p', p.register r = some p' ∧ p'.Free ∧ p'.state = r.apply p.state ∧
      p'.log = p.log ++ (r.atExit.toList.map AtExit.call).map .registered := by
  obtain ⟨state, blocks, quick, log⟩ := p
  obtain ⟨rfl, rfl⟩ : blocks = false ∧ quick = false := ⟨h.blocks, h.quick⟩
  cases r with
  | cxaAtexit func arg dsoHandle | atexit func => exact ⟨_, rfl, ⟨rfl, rfl⟩, rfl, rfl⟩
  | atQuickExit func => exact ⟨_, rfl, ⟨rfl, rfl⟩, rfl, (append_nil _).symm⟩

variable (rs : List Registration)

theorem Process.Free.registerAll (h : p.Free) :
    ∃ p', rs.foldlM Process.register p = some p' ∧ p'.Free ∧
      p'.state = ExitHandlers.registerAll rs p.state ∧
      p'.log = p.log ++ ((rs.filterMap Registration.atExit).map AtExit.call).map .registered := by
  induction rs generalizing p with
  | nil => exact ⟨p, rfl, h, rfl, (append_nil _).symm⟩
  | cons r rs ih =>
    obtain ⟨p₁, hp₁, hfree₁, hstate₁, hlog₁⟩ := h.register r
    obtain ⟨p', hp', hfree, hstate, hlog⟩ := ih hfree₁
    refine ⟨p', ?_, hfree, ?_, ?_⟩
    · rw [foldlM_cons, hp₁]
      exact hp'
    · rw [hstate, hstate₁]
      rfl
    · rw [hlog, hlog₁, append_assoc]
      cases r <;> rfl

/-! ### The calls -/

/-- `run_exit_handlers` is on its way. -/
structure Process.Exiting (p : Process) : Prop where
  blocks : p.blocksLocked = true
  quick : p.quickLocked = false

theorem Process.Exiting.register (h : p.Exiting) (r : Registration) :
    (r.atExit = none → ∃ p', p.register r = some p' ∧ p'.Exiting ∧ p'.log = p.log) ∧
      (r.atExit ≠ none → p.register r = none) := by
  obtain ⟨state, blocks, quick, log⟩ := p
  obtain ⟨rfl, rfl⟩ : blocks = true ∧ quick = false := ⟨h.blocks, h.quick⟩
  cases r with
  | cxaAtexit func arg dsoHandle | atexit func =>
    exact ⟨fun h => absurd h (Option.some_ne_none _), fun _ => rfl⟩
  | atQuickExit func => exact ⟨fun _ => ⟨_, rfl, ⟨rfl, rfl⟩, rfl⟩, fun hne => absurd rfl hne⟩

/-- The registrations of a handler end exactly when none of them is for `exit`. -/
theorem Process.Exiting.registerAll (h : p.Exiting) :
    ((∀ r ∈ rs, r.atExit = none) →
        ∃ p', rs.foldlM Process.register p = some p' ∧ p'.Exiting ∧ p'.log = p.log) ∧
      ∀ p', rs.foldlM Process.register p = some p' → ∀ r ∈ rs, r.atExit = none := by
  induction rs generalizing p with
  | nil => exact ⟨fun _ => ⟨p, rfl, h, rfl⟩, fun _ _ => forall_mem_nil _⟩
  | cons r rs ih =>
    obtain ⟨hgo, hstop⟩ := h.register r
    by_cases hr : r.atExit = none
    · obtain ⟨p₁, hp₁, hexiting₁, hlog₁⟩ := hgo hr
      obtain ⟨hall, hsome⟩ := ih hexiting₁
      rw [foldlM_cons, hp₁, ← hlog₁]
      exact ⟨fun h => hall (forall_mem_cons.mp h).2,
        fun p' hp' => forall_mem_cons.mpr ⟨hr, hsome p' hp'⟩⟩
    · rw [foldlM_cons, hstop hr]
      exact ⟨fun h => absurd (forall_mem_cons.mp h).1 hr, fun p' hp' => by cases hp'⟩

/-- The calls end exactly when none of them registers a handler of `exit`. -/
theorem Process.Exiting.callAll (body : Body) (cs : List HandlerCall) (h : p.Exiting) :
    (NoneRegisters body p.log cs →
        ∃ p', cs.foldlM (Process.call body) p = some p' ∧ p'.log = p.log ++ cs.map .called) ∧
      ∀ p', cs.foldlM (Process.call body) p = some p' → NoneRegisters body p.log cs := by
  induction cs generalizing p with
  | nil => exact ⟨fun _ => ⟨p, rfl, (append_nil _).symm⟩, fun _ _ => trivial⟩
  | cons c cs ih =>
    have hbody : Process.Exiting { p with log := p.log ++ [.called c] } := ⟨h.blocks, h.quick⟩
    obtain ⟨hgo, hback⟩ := hbody.registerAll (body (p.log ++ [.called c]) c)
    constructor
    · rintro ⟨hnone, hrest⟩
      obtain ⟨p₁, hp₁, hexiting₁, hlog₁⟩ := hgo hnone
      obtain ⟨p', hp', hlog⟩ := (ih hexiting₁).1 (hlog₁ ▸ hrest)
      refine ⟨p', ?_, ?_⟩
      · rw [foldlM_cons, Process.call, hp₁]
        exact hp'
      · rw [hlog, hlog₁, append_assoc]
        rfl
    · intro p' hp'
      obtain ⟨p₁, hp₁, hrest⟩ := Option.bind_eq_some_iff.mp hp'
      have hnone := hback p₁ hp₁
      obtain ⟨p₂, hp₂, hexiting₂, hlog₂⟩ := hgo hnone
      obtain rfl : p₁ = p₂ := Option.some.inj (hp₁.symm.trans hp₂)
      refine ⟨hnone, ?_⟩
      change NoneRegisters body (Process.log { p with log := p.log ++ [.called c] }) cs
      rw [← hlog₂]
      exact (ih hexiting₂).2 p' hrest

/-! ### Whole programs -/

/-- The handlers registered before the exit. -/
def handlersOf (rs : List Registration) : List HandlerCall :=
  (rs.filterMap Registration.atExit).map AtExit.call

def callOrder (rs : List Registration) : List HandlerCall :=
  ((handlersOf rs).filter (·.fn ≠ 0)).reverse

theorem callsOf_eq_callOrder : callsOf (rs.filterMap Registration.atExit) = callOrder rs := by
  rw [callsOf, callOrder, handlersOf, filter_map, map_reverse]
  rfl

/-- The calls start with the registrations in the log and the lock taken. -/
theorem exitRun_eq (body : Body) (rs : List Registration) :
    ∃ p : Process, p.Exiting ∧ p.log = (handlersOf rs).map .registered ∧
      exitRun body rs = ((callOrder rs).foldlM (Process.call body) p).map
        fun p => { p with state.blocks := .initial, blocksLocked := false } := by
  obtain ⟨p, hp, hfree, hstate, hlog⟩ := Process.Free.registerAll rs (p := .start) ⟨rfl, rfl⟩
  have hcalls : callBlocks (p.state.blocks.head :: p.state.blocks.next) = callOrder rs := by
    rw [hstate, ← callsOf_eq_callOrder, callBlocks_eq]
    exact congrArg callsOf (entries_registerAll rs .initial).1
  have hlock : p.lockBlocks = some { p with blocksLocked := true } := by
    rw [Process.lockBlocks, hfree.blocks]
    rfl
  refine ⟨{ p with blocksLocked := true }, ⟨rfl, hfree.quick⟩, hlog, ?_⟩
  rw [exitRun, hp, Option.bind_some, Process.runExitHandlers, hlock, Option.bind_some, hcalls]

/-- Every handler is called once, those that handlers register among them, exactly when
no handler that is called registers one. -/
theorem allCalledOnce_iff (body : Body) (rs : List Registration) :
    AllCalledOnce body rs ↔
      NoneRegisters body ((handlersOf rs).map .registered) (callOrder rs) := by
  obtain ⟨p, hexiting, hlog, hrun⟩ := exitRun_eq body rs
  obtain ⟨hgo, hback⟩ := hexiting.callAll body (callOrder rs)
  rw [← hlog]
  constructor
  · rintro ⟨p', hp', -⟩
    rw [hrun] at hp'
    obtain ⟨p₁, hp₁, -⟩ := Option.map_eq_some_iff.mp hp'
    exact hback p₁ hp₁
  · intro hnone
    obtain ⟨p₁, hp₁, hlog₁⟩ := hgo hnone
    rw [hp₁] at hrun
    refine ⟨_, hrun, ?_⟩
    rw [hlog₁, hlog, calls_append, calls_map_registered, calls_map_called, registrations_append,
      registrations_map_registered, registrations_map_called, append_nil]
    exact reverse_perm _

/-- The handler of the program registers another one. -/
def registersOne : Body := fun _ c => if c.fn = 1 then [.atexit 2] else []

theorem not_allCalledOnce :
    exitRun registersOne [.atexit 1] = none ∧ ¬AllCalledOnce registersOne [.atexit 1] := by
  have hrun : exitRun registersOne [.atexit 1] = none := rfl
  refine ⟨hrun, ?_⟩
  rintro ⟨p, hp, -⟩
  cases hp

end Hzlibc.ExitHandlers
