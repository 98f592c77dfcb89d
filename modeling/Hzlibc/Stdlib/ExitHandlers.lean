import Mathlib.Data.List.Basic

/-!
`atexit`, `__cxa_atexit` and `at_quick_exit`, and the handlers that `exit` and
`quick_exit` call.

Handlers are kept in a chain of blocks with room for eight each. A block is filled from
its first entry on, a full one gets a new one in front of it, and both the chain and
its blocks are gone through from the newest handler to the oldest. Pointers are words,
and zero is the null pointer.
-/

namespace Hzlibc.ExitHandlers

open List

abbrev Ptr := BitVec 64

structure AtExit where
  fn : Ptr
  arg : Ptr
  dsoHandle : Ptr
  deriving DecidableEq

def blockSize : ℕ := 8

/-- A block, by the entries of `fns` that are in use. -/
structure AtExitBlock where
  fns : List AtExit
  room : fns.length ≤ blockSize

/-- A chain of blocks, newest first. The last one is the static block it starts with. -/
structure Blocks where
  head : AtExitBlock
  next : List AtExitBlock

def emptyBlock : AtExitBlock := ⟨[], Nat.zero_le _⟩

def Blocks.initial : Blocks := ⟨emptyBlock, []⟩

theorem length_singleton_le (e : AtExit) : [e].length ≤ blockSize := Nat.le_of_ble_eq_true rfl

theorem length_append_le {block : AtExitBlock} (h : ¬block.fns.length = blockSize) (e : AtExit) :
    (block.fns ++ [e]).length ≤ blockSize := by
  have hroom := block.room
  rw [length_append, length_singleton]
  omega

def Blocks.register (blocks : Blocks) (e : AtExit) : Blocks :=
  if h : blocks.head.fns.length = blockSize then
    ⟨⟨[e], length_singleton_le e⟩, blocks.head :: blocks.next⟩
  else ⟨⟨blocks.head.fns ++ [e], length_append_le h e⟩, blocks.next⟩

structure HandlerCall where
  fn : Ptr
  arg : Ptr
  deriving DecidableEq

/-- The loop over the entries of a block, with `i` of them left. -/
def callBlock (fns : List AtExit) : ℕ → List HandlerCall
  | 0 => []
  | i + 1 =>
    match fns[i]? with
    | none => []
    | some e =>
      if e.fn = 0 then callBlock fns i else ⟨e.fn, e.arg⟩ :: callBlock fns i

/-- The loop over the chain. -/
def callBlocks : List AtExitBlock → List HandlerCall
  | [] => []
  | block :: next => callBlock block.fns block.fns.length ++ callBlocks next

/-- All handlers are called, and the chain is what it was at first. -/
def Blocks.run (blocks : Blocks) : List HandlerCall × Blocks :=
  (callBlocks (blocks.head :: blocks.next), .initial)

/-- The chains of the process. -/
structure State where
  blocks : Blocks
  quickBlocks : Blocks

def State.initial : State := ⟨.initial, .initial⟩

def cxaAtexit (func arg dsoHandle : Ptr) (s : State) : State :=
  { s with blocks := s.blocks.register ⟨func, arg, dsoHandle⟩ }

def atexit (func : Ptr) (s : State) : State := cxaAtexit func 0 0 s

def atQuickExit (func : Ptr) (s : State) : State :=
  { s with quickBlocks := s.quickBlocks.register ⟨func, 0, 0⟩ }

def runExitHandlers (s : State) : List HandlerCall × State :=
  (s.blocks.run.1, { s with blocks := s.blocks.run.2 })

/-- `quick_exit`, up to the end of the process. -/
def quickExit (s : State) : List HandlerCall × State :=
  (s.quickBlocks.run.1, { s with quickBlocks := s.quickBlocks.run.2 })

/-! ### The chain as a row of handlers -/

/-- The handlers in the order of their registration. -/
def Blocks.entries (blocks : Blocks) : List AtExit :=
  (blocks.head :: blocks.next).reverse.flatMap AtExitBlock.fns

theorem entries_register (blocks : Blocks) (e : AtExit) :
    (blocks.register e).entries = blocks.entries ++ [e] := by
  rw [Blocks.register]
  split
  all_goals simp [Blocks.entries]

def AtExit.call (e : AtExit) : HandlerCall := ⟨e.fn, e.arg⟩

/-- The calls for a row of handlers: null pointers are left out. -/
def callsOf (fns : List AtExit) : List HandlerCall :=
  (fns.filter (·.fn ≠ 0)).reverse.map AtExit.call

@[simp] theorem callsOf_append (as bs : List AtExit) :
    callsOf (as ++ bs) = callsOf bs ++ callsOf as := by
  simp [callsOf]

theorem callBlock_eq (fns : List AtExit) {i : ℕ} (hi : i ≤ fns.length) :
    callBlock fns i = callsOf (fns.take i) := by
  induction i with
  | zero => rfl
  | succ i ih =>
    have hget : fns[i]? = some fns[i] := List.getElem?_eq_getElem hi
    rw [callBlock, hget, ih (Nat.le_of_succ_le hi), take_succ_eq_append_getElem hi, callsOf_append]
    change (if fns[i].fn = 0 then _ else _) = _
    by_cases hnull : fns[i].fn = 0
    · have hskip : callsOf [fns[i]] = [] := by
        rw [callsOf, filter_cons_of_neg (by simpa using hnull)]
        rfl
      rw [if_pos hnull, hskip, nil_append]
    · have hcall : callsOf [fns[i]] = [fns[i].call] := by
        rw [callsOf, filter_cons_of_pos (by simpa using hnull)]
        rfl
      rw [if_neg hnull, hcall]
      rfl

theorem callBlocks_eq (chain : List AtExitBlock) :
    callBlocks chain = callsOf (chain.reverse.flatMap AtExitBlock.fns) := by
  induction chain with
  | nil => rfl
  | cons block next ih =>
    rw [callBlocks, callBlock_eq block.fns (Nat.le_refl _), ih, ← callsOf_append]
    simp

theorem run_eq (blocks : Blocks) : blocks.run = (callsOf blocks.entries, .initial) := by
  rw [Blocks.run, callBlocks_eq]
  rfl

/-! ### Whole programs -/

inductive Registration
  | cxaAtexit (func arg dsoHandle : Ptr)
  | atexit (func : Ptr)
  | atQuickExit (func : Ptr)

def Registration.apply : Registration → State → State
  | .cxaAtexit func arg dsoHandle, s => ExitHandlers.cxaAtexit func arg dsoHandle s
  | .atexit func, s => ExitHandlers.atexit func s
  | .atQuickExit func, s => ExitHandlers.atQuickExit func s

def Registration.fn : Registration → Ptr
  | .cxaAtexit func _ _ | .atexit func | .atQuickExit func => func

/-- What the registration leaves for `exit`. -/
def Registration.atExit : Registration → Option AtExit
  | .cxaAtexit func arg dsoHandle => some ⟨func, arg, dsoHandle⟩
  | .atexit func => some ⟨func, 0, 0⟩
  | .atQuickExit _ => none

/-- What the registration leaves for `quick_exit`. -/
def Registration.atQuick : Registration → Option AtExit
  | .atQuickExit func => some ⟨func, 0, 0⟩
  | .cxaAtexit _ _ _ | .atexit _ => none

def registerAll (rs : List Registration) (s : State) : State :=
  rs.foldl (fun s r => r.apply s) s

theorem entries_registerAll (rs : List Registration) (s : State) :
    (registerAll rs s).blocks.entries = s.blocks.entries ++ rs.filterMap Registration.atExit ∧
      (registerAll rs s).quickBlocks.entries
        = s.quickBlocks.entries ++ rs.filterMap Registration.atQuick := by
  induction rs generalizing s with
  | nil => exact ⟨(append_nil _).symm, (append_nil _).symm⟩
  | cons r rs ih =>
    obtain ⟨hblocks, hquick⟩ := ih (r.apply s)
    rw [registerAll, foldl_cons, ← registerAll, hblocks, hquick]
    cases r with
    | cxaAtexit func arg dsoHandle =>
      refine ⟨?_, rfl⟩
      change (s.blocks.register ⟨func, arg, dsoHandle⟩).entries ++ _ = _
      rw [entries_register, append_assoc]
      rfl
    | atexit func =>
      refine ⟨?_, rfl⟩
      change (s.blocks.register ⟨func, 0, 0⟩).entries ++ _ = _
      rw [entries_register, append_assoc]
      rfl
    | atQuickExit func =>
      refine ⟨rfl, ?_⟩
      change (s.quickBlocks.register ⟨func, 0, 0⟩).entries ++ _ = _
      rw [entries_register, append_assoc]
      rfl

theorem callsOf_of_ne_zero {fns : List AtExit} (h : ∀ e ∈ fns, e.fn ≠ 0) :
    callsOf fns = (fns.map AtExit.call).reverse := by
  have hall : fns.filter (·.fn ≠ 0) = fns := filter_eq_self.mpr fun e he => decide_eq_true (h e he)
  rw [callsOf, hall, map_reverse]

/-- The handlers of one of the two chains. -/
theorem filterMap_ne_zero {rs : List Registration} (h : ∀ r ∈ rs, r.fn ≠ 0)
    {of : Registration → Option AtExit} (hof : ∀ r e, of r = some e → e.fn = r.fn) :
    ∀ e ∈ rs.filterMap of, e.fn ≠ 0 := by
  intro e he
  obtain ⟨r, hr, hre⟩ := mem_filterMap.mp he
  rw [hof r e hre]
  exact h r hr

/-- Every handler is called once, with its argument, the last one first, by the function
it was registered for. -/
theorem handlers_called_once {rs : List Registration} (hfn : ∀ r ∈ rs, r.fn ≠ 0) :
    ((runExitHandlers (registerAll rs .initial)).1
        = ((rs.filterMap Registration.atExit).map AtExit.call).reverse ∧
      (runExitHandlers (runExitHandlers (registerAll rs .initial)).2).1 = []) ∧
    (quickExit (registerAll rs .initial)).1
        = ((rs.filterMap Registration.atQuick).map AtExit.call).reverse ∧
      (quickExit (quickExit (registerAll rs .initial)).2).1 = [] := by
  obtain ⟨hblocks, hquick⟩ := entries_registerAll rs .initial
  have hexit : ∀ r e, Registration.atExit r = some e → e.fn = r.fn := by
    intro r e h
    cases r <;> cases h <;> rfl
  have hquickExit : ∀ r e, Registration.atQuick r = some e → e.fn = r.fn := by
    intro r e h
    cases r <;> cases h
    rfl
  refine ⟨⟨?_, rfl⟩, ?_, rfl⟩
  · rw [runExitHandlers, run_eq, hblocks]
    exact callsOf_of_ne_zero (filterMap_ne_zero hfn hexit)
  · rw [quickExit, run_eq, hquick]
    exact callsOf_of_ne_zero (filterMap_ne_zero hfn hquickExit)

/-- Nine handlers, which need a second block. -/
def nine : List Registration :=
  .cxaAtexit 1 10 0 :: .atQuickExit 2 :: (List.replicate 7 (.atexit 3) ++ [.cxaAtexit 4 40 0])

theorem nine_called_once : (∀ r ∈ nine, r.fn ≠ 0) ∧ (runExitHandlers (registerAll nine .initial)).1
      = ⟨4, 40⟩ :: (List.replicate 7 ⟨3, 0⟩ ++ [⟨1, 10⟩]) := by
  have hfn : ∀ r ∈ nine, r.fn ≠ 0 := by simp [nine, Registration.fn]
  exact ⟨hfn, (handlers_called_once hfn).1.1⟩

end Hzlibc.ExitHandlers
