import Hzlibc.Calls.Registered
import Mathlib.Data.List.Induction

/-!
`__cxa_thread_atexit_impl` and `call_cxx_tls_destructors`: the destructors of the
thread-local objects of one thread.

They are kept in a vector that is made by the first registration. A destructor is code
of the program, and the program is any function from what happened in the thread so far
and the destructor that runs to the registrations that it makes. The calls go from the
last entry that the vector has at the start to its first one, so that what is pushed
back in between is not reached, and the vector is destroyed behind them.
-/

namespace Hzlibc.CxxDestructors

open Calls List

abbrev Ptr := BitVec 64

structure Destructor where
  fn : Ptr
  object : Ptr
  deriving DecidableEq

/-- The two thread-local variables. `list` is `none` while the storage of
`DESTRUCTOR_LIST` holds no vector. -/
structure State where
  list : Option (List Destructor)
  initialized : Bool

def State.initial : State := ⟨none, false⟩

/-- There is no result where the vector is used that is not there. -/
def cxaThreadAtexitImpl (fn object : Ptr) (s : State) : Option State :=
  let s := if s.initialized then s else ⟨some [], true⟩
  s.list.map fun list => { s with list := some (list ++ [⟨fn, object⟩]) }

/-- What a destructor registers while it runs. -/
abbrev Body := List (Event Destructor) → Destructor → List Destructor

structure Thread where
  state : State
  log : List (Event Destructor)

def Thread.start : Thread := ⟨.initial, []⟩

def Thread.register (t : Thread) (d : Destructor) : Option Thread :=
  (cxaThreadAtexitImpl d.fn d.object t.state).map fun state => ⟨state, t.log ++ [.registered d]⟩

/-- The destructor is called and returns. -/
def Thread.call (body : Body) (t : Thread) (d : Destructor) : Option Thread :=
  let log := t.log ++ [.called d]
  (body log d).foldlM Thread.register ⟨t.state, log⟩

/-- The loop over the vector, with `i` entries left. -/
def callLoop (body : Body) : ℕ → Thread → Option Thread
  | 0, t => some t
  | i + 1, t =>
    t.state.list.bind fun list =>
      list[i]?.bind fun d => (t.call body d).bind (callLoop body i)

/-- `initialized` stays as it is when the vector is destroyed. -/
def callCxxTlsDestructors (body : Body) (t : Thread) : Option Thread :=
  if t.state.initialized then
    t.state.list.bind fun list =>
      (callLoop body list.length t).map fun t => { t with state.list := none }
  else some t

/-- A thread registers destructors and then calls them. -/
def run (body : Body) (ds : List Destructor) : Option Thread :=
  (ds.foldlM Thread.register .start).bind (callCxxTlsDestructors body)

/-- The calls return, each of them is the one of the newest destructor that has not been
called, and none is left. -/
def LastInFirstOut (body : Body) (ds : List Destructor) : Prop :=
  ∃ t, run body ds = some t ∧ replay t.log [] = some []

/-- None of these destructors registers another one when they are called in this order
after what the log says. -/
def NoneRegisters (body : Body) : List (Event Destructor) → List Destructor → Prop
  | _, [] => True
  | log, d :: ds =>
    body (log ++ [.called d]) d = [] ∧ NoneRegisters body (log ++ [.called d]) ds

/-! ### Registrations -/

def Thread.Has (t : Thread) (list : List Destructor) : Prop :=
  t.state = ⟨some list, true⟩

theorem Thread.registerAll_of_has (ds : List Destructor) {t : Thread} {list : List Destructor}
    (h : t.Has list) :
    ds.foldlM Thread.register t
      = some ⟨⟨some (list ++ ds), true⟩, t.log ++ ds.map .registered⟩ := by
  induction ds generalizing t list with
  | nil =>
    obtain ⟨state, log⟩ := t
    cases h
    simp
  | cons d ds ih =>
    rw [foldlM_cons, Thread.register, h]
    refine (ih (t := ⟨⟨some (list ++ [d]), true⟩, _⟩) rfl).trans ?_
    rw [append_assoc, append_assoc]
    rfl

/-- The first registration makes the vector. -/
theorem registerAll_start {ds : List Destructor} (hds : ds ≠ []) :
    ds.foldlM Thread.register .start = some ⟨⟨some ds, true⟩, ds.map .registered⟩ := by
  cases ds with
  | nil => exact absurd rfl hds
  | cons d ds => exact Thread.registerAll_of_has ds (t := ⟨⟨some [d], true⟩, _⟩) rfl

/-! ### The loop -/

/-- The log after the calls of these destructors, in this order. -/
def logAfter (body : Body) : List (Event Destructor) → List Destructor → List (Event Destructor)
  | log, [] => log
  | log, d :: ds =>
    logAfter body
      (log ++ [.called d] ++ (body (log ++ [.called d]) d).map .registered) ds

variable (body : Body)

/-- The loop calls `older` from its end on. What was pushed back behind it stays there. -/
theorem callLoop_eq (older : List Destructor) {t : Thread}
    {newer : List Destructor} (h : t.Has (older ++ newer)) :
    ∃ state, callLoop body older.length t
      = some ⟨state, logAfter body t.log older.reverse⟩ := by
  induction older using List.reverseRecOn generalizing t newer with
  | nil => exact ⟨t.state, rfl⟩
  | append_singleton older d ih =>
    rw [append_assoc] at h
    have hget : (older ++ ([d] ++ newer))[older.length]? = some d := by simp
    have hcall : t.call body d = some ⟨⟨some (older ++ ([d] ++ newer) ++ _), true⟩, _⟩ :=
      Thread.registerAll_of_has _ (t := ⟨t.state, _⟩) h
    rw [append_assoc older] at hcall
    obtain ⟨state, hloop⟩ := ih (t := ⟨⟨some (older ++ _), true⟩, _⟩) rfl
    refine ⟨state, ?_⟩
    rw [length_append, length_singleton, callLoop, h]
    change ((older ++ ([d] ++ newer))[older.length]?.bind _) = _
    rw [hget, Option.bind_some, hcall, Option.bind_some, hloop, reverse_append]
    rfl

@[simp] theorem length_calls_logAfter (ds : List Destructor) (log : List (Event Destructor)) :
    (calls (logAfter body log ds)).length = (calls log).length + ds.length := by
  induction ds generalizing log with
  | nil => rfl
  | cons d ds ih =>
    rw [logAfter, ih, calls_append, calls_map_registered, append_nil, calls_append,
      length_append, length_cons]
    change _ + 1 + _ = _
    omega

/-- The log gets a registration for each one that a destructor makes. -/
theorem length_registrations_logAfter (ds : List Destructor) (log : List (Event Destructor)) :
    (registrations log).length ≤ (registrations (logAfter body log ds)).length ∧
      ((registrations (logAfter body log ds)).length = (registrations log).length →
        NoneRegisters body log ds) := by
  induction ds generalizing log with
  | nil => exact ⟨Nat.le_refl _, fun _ => trivial⟩
  | cons d ds ih =>
    obtain ⟨hle, hnone⟩ := ih (log ++ [.called d] ++ (body (log ++ [.called d]) d).map .registered)
    have hlength : (registrations
        (log ++ [.called d] ++ (body (log ++ [.called d]) d).map .registered)).length
          = (registrations log).length + (body (log ++ [.called d]) d).length := by
      rw [registrations_append, registrations_append, registrations_map_registered]
      change ((registrations log ++ []) ++ _).length = _
      rw [append_nil, length_append]
    rw [hlength] at hle hnone
    refine ⟨by rw [logAfter]; omega, fun heq => ?_⟩
    rw [logAfter] at heq
    have hnil : body (log ++ [.called d]) d = [] := length_eq_zero_iff.mp (by omega)
    refine ⟨hnil, ?_⟩
    rw [hnil, map_nil, append_nil] at hnone heq
    exact hnone heq

theorem logAfter_of_noneRegisters {body : Body} {ds : List Destructor}
    {log : List (Event Destructor)} (h : NoneRegisters body log ds) :
    logAfter body log ds = log ++ ds.map .called := by
  induction ds generalizing log with
  | nil => exact (append_nil _).symm
  | cons d ds ih =>
    obtain ⟨hnil, hrest⟩ := h
    rw [logAfter, hnil, map_nil, append_nil, ih hrest, append_assoc]
    rfl

/-- The destructors are called and the thread goes on. -/
theorem run_eq (ds : List Destructor) :
    ∃ state, run body ds
      = some ⟨state, logAfter body (ds.map .registered) ds.reverse⟩ := by
  by_cases hds : ds = []
  · rw [hds]
    exact ⟨.initial, rfl⟩
  · have hhas : Thread.Has ⟨⟨some ds, true⟩, ds.map .registered⟩ (ds ++ []) := by
      rw [append_nil]
      rfl
    obtain ⟨state, hloop⟩ := callLoop_eq body ds hhas
    refine ⟨{ state with list := none }, ?_⟩
    rw [run, registerAll_start hds, Option.bind_some, callCxxTlsDestructors]
    change (callLoop body ds.length _).map _ = _
    rw [hloop]
    rfl

/-- The destructors are called last in, first out, and all of them, exactly when none
that is called registers another one. -/
theorem lastInFirstOut_iff (body : Body) (ds : List Destructor) :
    LastInFirstOut body ds ↔ NoneRegisters body (ds.map .registered) ds.reverse := by
  obtain ⟨state, hrun⟩ := run_eq body ds
  constructor
  · rintro ⟨t, ht, hreplay⟩
    rw [hrun] at ht
    cases ht
    -- A stack that ends empty has as many calls as registrations.
    have hlength := length_replay hreplay
    rw [length_calls_logAfter] at hlength
    refine (length_registrations_logAfter body ds.reverse (ds.map .registered)).2 ?_
    simpa using hlength
  · intro hquiet
    refine ⟨_, hrun, ?_⟩
    rw [logAfter_of_noneRegisters hquiet, replay_append, replay_map_registered]
    exact replay_map_called ds.reverse []

/-- The first destructor registers the second one. -/
def registersOne : Body := fun _ d => if d.fn = 1 then [⟨2, 20⟩] else []

theorem not_lastInFirstOut :
    (∃ t, run registersOne [⟨1, 10⟩] = some t ∧
      t.log = [.registered ⟨1, 10⟩, .called ⟨1, 10⟩, .registered ⟨2, 20⟩]) ∧
    ¬LastInFirstOut registersOne [⟨1, 10⟩] := by
  refine ⟨⟨_, rfl, by decide⟩, ?_⟩
  rintro ⟨t, ht, hreplay⟩
  cases ht
  revert hreplay
  decide

end Hzlibc.CxxDestructors
