import Mathlib.Data.List.Basic

/-!
Functions that are registered and called later, each of them once.

A log says what was registered and what was called, in the order in which it happened,
so that a function that registers another one while it runs is no special case.
`replay` reads a log as the history of a stack: a call takes away the newest
registration, and a call of anything else makes the log none of a stack.
-/

namespace Hzlibc.Calls

variable {α : Type}

inductive Event (α : Type)
  | registered (a : α)
  | called (a : α)
  deriving DecidableEq

def Event.registration? : Event α → Option α
  | registered a => some a
  | called _ => none

def Event.call? : Event α → Option α
  | registered _ => none
  | called a => some a

def registrations (log : List (Event α)) : List α := log.filterMap Event.registration?

def calls (log : List (Event α)) : List α := log.filterMap Event.call?

variable (log log' : List (Event α))

@[simp] theorem registrations_append :
    registrations (log ++ log') = registrations log ++ registrations log' :=
  List.filterMap_append

@[simp] theorem calls_append : calls (log ++ log') = calls log ++ calls log' :=
  List.filterMap_append

variable (as : List α)

@[simp] theorem registrations_map_registered : registrations (as.map .registered) = as := by
  induction as with
  | nil => rfl
  | cons a as ih => exact congrArg (a :: ·) ih

@[simp] theorem calls_map_registered : calls (as.map .registered) = [] := by
  induction as with
  | nil => rfl
  | cons a as ih => exact ih

@[simp] theorem registrations_map_called : registrations (as.map .called) = [] := by
  induction as with
  | nil => rfl
  | cons a as ih => exact ih

@[simp] theorem calls_map_called : calls (as.map .called) = as := by
  induction as with
  | nil => rfl
  | cons a as ih => exact congrArg (a :: ·) ih

/-! ### Last in, first out -/

variable [DecidableEq α]

def Event.onStack : List α → Event α → Option (List α)
  | stack, registered a => some (a :: stack)
  | [], called _ => none
  | top :: stack, called a => if a = top then some stack else none

def replay (log : List (Event α)) (stack : List α) : Option (List α) :=
  log.foldlM Event.onStack stack

@[simp] theorem replay_append (stack : List α) :
    replay (log ++ log') stack = (replay log stack).bind (replay log') :=
  List.foldlM_append

theorem replay_map_registered (as stack : List α) :
    replay (as.map .registered) stack = some (as.reverse ++ stack) := by
  induction as generalizing stack with
  | nil => rfl
  | cons a as ih =>
    change replay (as.map .registered) (a :: stack) = _
    rw [ih, List.reverse_cons, List.append_assoc]
    rfl

theorem replay_map_called (as stack : List α) :
    replay (as.map .called) (as ++ stack) = some stack := by
  induction as with
  | nil => rfl
  | cons a as ih =>
    change (if a = a then some (as ++ stack) else none).bind _ = _
    rw [if_pos rfl]
    exact ih

/-- What was registered and not called is what is left on the stack. -/
theorem length_replay {log : List (Event α)} {stack stack' : List α}
    (h : replay log stack = some stack') :
    stack.length + (registrations log).length = stack'.length + (calls log).length := by
  induction log generalizing stack with
  | nil =>
    cases h
    rfl
  | cons e log ih =>
    obtain ⟨stack₁, hstep, hrest⟩ := Option.bind_eq_some_iff.mp h
    have hlength := ih hrest
    cases e with
    | registered a =>
      cases hstep
      change _ + ((registrations log).length + 1) = _ + (calls log).length
      rw [List.length_cons] at hlength
      omega
    | called a =>
      cases stack with
      | nil => cases hstep
      | cons top stack =>
        change (if a = top then some stack else none) = _ at hstep
        split at hstep
        · cases hstep
          change _ + (registrations log).length = _ + ((calls log).length + 1)
          rw [List.length_cons]
          omega
        · cases hstep

end Hzlibc.Calls
