import Hzlibc.Concurrency.Futex
import Hzlibc.Concurrency.Interleaving

/-!
`fork` and the handlers registered with `pthread_atfork`.

Each of the three phases of a fork takes the lock of the registry for itself, so that a
registration may come between two of them. The child starts with a copy of the registry and
of its lock as they are at that moment, and has no other thread.

A fork that has returned leaves a record: the registrations that its prepare phase has seen,
the handlers that it has called in the parent, and what came of the system call.
-/

namespace Hzlibc.Lsb.Fork

open Concurrency List

variable {ι H : Type*}

/-- A registration; a null handler is none. -/
structure AtForkFn (H : Type*) where
  prepare : Option H
  parent : Option H
  child : Option H
  deriving DecidableEq

/-- `AT_FORK` and the holder of `LOCK`. -/
structure Shared (ι H : Type*) where
  atFork : List (AtForkFn H)
  lock : Option ι
  deriving DecidableEq

/-- What came of `sys_fork`: an error, or a child that starts with this copy. The parent phase
has seen `atParent`. -/
inductive Outcome (ι H : Type*)
  | failed (e : Errno)
  | forked (child : Shared ι H) (atParent : List (AtForkFn H))
  deriving DecidableEq

structure Record (ι H : Type*) where
  registered : List (AtForkFn H)
  calls : List H
  outcome : Outcome ι H
  deriving DecidableEq

/-- Where a thread is: before the operation the constructor names. In a fork it carries the
registrations of the prepare phase and the handlers called so far. -/
inductive Pc (ι H : Type*)
  | idle
  | registerLock (fn : AtForkFn H)
  | registerPush (fn : AtForkFn H)
  | registerUnlock
  | prepareLock
  | prepareLoop (i : ℕ) (registered : List (AtForkFn H)) (calls : List H)
  | sysFork (registered : List (AtForkFn H)) (calls : List H)
  | parentLock (registered : List (AtForkFn H)) (calls : List H) (child : Shared ι H)
  | parentLoop (i : ℕ) (registered : List (AtForkFn H)) (calls : List H) (child : Shared ι H)
  | returned (r : Record ι H)
  deriving DecidableEq

inductive Act (H : Type*)
  | register (fn : AtForkFn H)
  | fork
  | run
  | forkSucceeds
  | forkFails (e : Errno)
  deriving DecidableEq

/-- The call of a handler, if there is one. -/
def called (calls : List H) (handler : Option H) : List H := calls ++ handler.toList

/-- `LOCK.lock()`, which waits while another thread has it. -/
def acquire (t : ι) (s : Shared ι H) (pc : Pc ι H) : Option (Shared ι H × Pc ι H) :=
  match s.lock with
  | none => some ({ s with lock := some t }, pc)
  | some _ => none

/-- One turn of the loop of `call_atfork_prepare`, from the last registration to the first. The
lock is released at the end of the function. -/
def prepareTurn (i : ℕ) (registered : List (AtForkFn H)) (calls : List H) (s : Shared ι H) :
    Shared ι H × Pc ι H :=
  match i with
  | 0 => ({ s with lock := none }, .sysFork registered calls)
  | i + 1 => (s, .prepareLoop i registered (called calls (s.atFork[i]?.bind AtForkFn.prepare)))

/-- One turn of the loop of `call_atfork_parent`. -/
def parentTurn (i : ℕ) (registered : List (AtForkFn H)) (calls : List H) (child : Shared ι H)
    (s : Shared ι H) : Shared ι H × Pc ι H :=
  match s.atFork[i]? with
  | some fn => (s, .parentLoop (i + 1) registered (called calls fn.parent) child)
  | none => ({ s with lock := none }, .returned ⟨registered, calls, .forked child s.atFork⟩)

def beginCall (a : Act H) (s : Shared ι H) : Option (Shared ι H × Pc ι H) :=
  match a with
  | .register fn => some (s, .registerLock fn)
  | .fork => some (s, .prepareLock)
  | .run | .forkSucceeds | .forkFails _ => none

def onRun (a : Act H) (r : Option (Shared ι H × Pc ι H)) : Option (Shared ι H × Pc ι H) :=
  match a with
  | .run => r
  | .register _ | .fork | .forkSucceeds | .forkFails _ => none

def sysForkStep (a : Act H) (registered : List (AtForkFn H)) (calls : List H) (s : Shared ι H) :
    Option (Shared ι H × Pc ι H) :=
  match a with
  | .forkSucceeds => some (s, .parentLock registered calls s)
  | .forkFails e => some (s, .returned ⟨registered, calls, .failed e⟩)
  | .register _ | .fork | .run => none

def program : Program ι (Act H) (Shared ι H) (Pc ι H) := fun t a s pc =>
  match pc with
  | .idle | .returned _ => beginCall a s
  | .registerLock fn => onRun a (acquire t s (.registerPush fn))
  | .registerPush fn => onRun a (some ({ s with atFork := s.atFork ++ [fn] }, .registerUnlock))
  | .registerUnlock => onRun a (some ({ s with lock := none }, .idle))
  | .prepareLock => onRun a (acquire t s (.prepareLoop s.atFork.length s.atFork []))
  | .prepareLoop i registered calls => onRun a (some (prepareTurn i registered calls s))
  | .sysFork registered calls => sysForkStep a registered calls s
  | .parentLock registered calls child =>
    onRun a (acquire t s (.parentLoop 0 registered calls child))
  | .parentLoop i registered calls child => onRun a (some (parentTurn i registered calls child s))

def start : Conf ι (Shared ι H) (Pc ι H) := ⟨⟨[], none⟩, fun _ => .idle⟩

/-- The handlers that `call_atfork_child` calls in the child; none if it waits for the lock, since
the child has no thread that would release it. -/
def callAtforkChild (child : Shared ι H) : Option (List H) :=
  match child.lock with
  | none => some (child.atFork.filterMap AtForkFn.child)
  | some _ => none

/-- The calls in the parent and in the child belong to the same registrations, and the child's
lock is free. -/
def Record.Balanced (r : Record ι H) : Prop :=
  r.calls = r.registered.reverse.filterMap AtForkFn.prepare ++
      r.registered.filterMap AtForkFn.parent ∧
    match r.outcome with
    | .failed _ => True
    | .forked child _ => child.lock = none ∧
        callAtforkChild child = some (r.registered.filterMap AtForkFn.child)

/-- After a failure there was no parent handler to call. Otherwise no parent handler was registered
between the prepare phase and the parent phase, no child handler before the child was made, and
no thread had the lock then. -/
def Record.Undisturbed (r : Record ι H) : Prop :=
  match r.outcome with
  | .failed _ => r.registered.filterMap AtForkFn.parent = []
  | .forked child atParent =>
    (atParent.drop r.registered.length).filterMap AtForkFn.parent = [] ∧
      (child.atFork.drop r.registered.length).filterMap AtForkFn.child = [] ∧
        child.lock = none

/-! ### What a thread knows -/

/-- The handlers that the prepare phase calls. -/
def prepares (registered : List (AtForkFn H)) : List H :=
  registered.reverse.filterMap AtForkFn.prepare

def Record.Right (r : Record ι H) : Prop :=
  match r.outcome with
  | .failed _ => r.calls = prepares r.registered
  | .forked child atParent =>
    r.calls = prepares r.registered ++ atParent.filterMap AtForkFn.parent ∧
      r.registered <+: child.atFork ∧ r.registered <+: atParent

def Pc.Right (t : ι) (s : Shared ι H) : Pc ι H → Prop
  | .idle | .registerLock _ | .prepareLock => True
  | .registerPush _ | .registerUnlock => s.lock = some t
  | .prepareLoop i registered calls => s.lock = some t ∧ s.atFork = registered ∧
      i ≤ registered.length ∧ calls = prepares (registered.drop i)
  | .sysFork registered calls => registered <+: s.atFork ∧ calls = prepares registered
  | .parentLock registered calls child =>
    registered <+: s.atFork ∧ calls = prepares registered ∧ registered <+: child.atFork
  | .parentLoop i registered calls child => s.lock = some t ∧ registered <+: s.atFork ∧
      calls = prepares registered ++ (s.atFork.take i).filterMap AtForkFn.parent ∧
        registered <+: child.atFork
  | .returned r => r.Right

/-- What the step of another thread leaves: the registry grows, and not while `t` has the lock. -/
structure Kept (t : ι) (s s' : Shared ι H) : Prop where
  grows : s.atFork <+: s'.atFork
  locked : s.lock = some t → s'.lock = some t ∧ s'.atFork = s.atFork

theorem Kept.refl (t : ι) (s : Shared ι H) : Kept t s s :=
  ⟨prefix_rfl, fun h => ⟨h, rfl⟩⟩

theorem Pc.Right.kept {t : ι} {s s' : Shared ι H} {pc : Pc ι H} (h : pc.Right t s)
    (hk : Kept t s s') : pc.Right t s' := by
  cases pc with
  | idle | registerLock | prepareLock => trivial
  | registerPush | registerUnlock => exact (hk.locked h).1
  | prepareLoop i registered calls =>
    obtain ⟨hlock, hat, hi, hcalls⟩ := h
    obtain ⟨hlock', hat'⟩ := hk.locked hlock
    exact ⟨hlock', hat'.trans hat, hi, hcalls⟩
  | sysFork registered calls | parentLock registered calls child => exact ⟨h.1.trans hk.grows, h.2⟩
  | parentLoop i registered calls child =>
    obtain ⟨hlock, hat, hcalls, hchild⟩ := h
    obtain ⟨hlock', hat'⟩ := hk.locked hlock
    refine ⟨hlock', hat' ▸ hat, ?_, hchild⟩
    rw [hat']
    exact hcalls
  | returned r => exact h

/-! ### One step -/

section Step

variable {t u : ι} {a : Act H} {s s' : Shared ι H} {pc pc' : Pc ι H}

theorem acquire_eq_some (h : acquire t s pc = some (s', pc')) :
    s.lock = none ∧ s' = { s with lock := some t } ∧ pc' = pc := by
  rw [acquire] at h
  split at h
  · rename_i hlock
    cases h
    exact ⟨hlock, rfl, rfl⟩
  · cases h

theorem onRun_eq_some {r : Option (Shared ι H × Pc ι H)} {x : Shared ι H × Pc ι H}
    (h : onRun a r = some x) : r = some x := by
  cases a <;> first | exact h | cases h

/-- A step of the holder of the lock leaves alone what the others have. -/
theorem kept_of_holder (hu : u ≠ t) (hlock : s.lock = some t) (hgrows : s.atFork <+: s'.atFork) :
    Kept u s s' := by
  refine ⟨hgrows, fun h => ?_⟩
  exact absurd (Option.some.inj (h.symm.trans hlock)) hu

theorem kept_of_acquire : s.lock = none → Kept u s { s with lock := some t } := by
  intro hlock
  refine ⟨prefix_rfl, fun h => ?_⟩
  rw [hlock] at h
  cases h

theorem prepares_drop {registered : List (AtForkFn H)} {i : ℕ} (hi : i < registered.length) :
    prepares (registered.drop i) =
      called (prepares (registered.drop (i + 1))) (registered[i]?.bind AtForkFn.prepare) := by
  rw [prepares, prepares, called, drop_eq_getElem_cons hi, reverse_cons,
    List.getElem?_eq_getElem hi]
  cases h : registered[i].prepare <;> simp [h]

theorem parents_take {atFork : List (AtForkFn H)} {fn : AtForkFn H} {i : ℕ}
    (hi : atFork[i]? = some fn) :
    (atFork.take (i + 1)).filterMap AtForkFn.parent =
      called ((atFork.take i).filterMap AtForkFn.parent) fn.parent := by
  rw [called, take_add_one, hi]
  cases h : fn.parent <;> simp [h]

/-- What the thread that moves knows afterwards, and what it leaves to the others. -/
theorem program_right (hr : pc.Right t s) (h : program t a s pc = some (s', pc')) :
    pc'.Right t s' ∧ ∀ u, u ≠ t → Kept u s s' := by
  cases pc with
  | idle | returned r =>
    cases a <;> first | cases h; exact ⟨trivial, fun u _ => .refl u s⟩ | cases h
  | registerLock fn =>
    obtain ⟨hlock, rfl, rfl⟩ := acquire_eq_some (onRun_eq_some h)
    exact ⟨rfl, fun _ _ => kept_of_acquire hlock⟩
  | registerPush fn =>
    cases onRun_eq_some h
    exact ⟨hr, fun _ hu => kept_of_holder hu hr (prefix_append s.atFork [fn])⟩
  | registerUnlock =>
    cases onRun_eq_some h
    exact ⟨trivial, fun _ hu => kept_of_holder hu hr prefix_rfl⟩
  | prepareLock =>
    obtain ⟨hlock, rfl, rfl⟩ := acquire_eq_some (onRun_eq_some h)
    refine ⟨⟨rfl, rfl, le_rfl, ?_⟩, fun _ _ => kept_of_acquire hlock⟩
    rw [drop_length]
    rfl
  | prepareLoop i registered calls =>
    obtain ⟨hlock, hat, hi, hcalls⟩ := hr
    cases i with
    | zero =>
      cases onRun_eq_some h
      exact ⟨⟨hat ▸ prefix_rfl, hcalls⟩, fun _ hu => kept_of_holder hu hlock prefix_rfl⟩
    | succ i =>
      cases onRun_eq_some h
      refine ⟨⟨hlock, hat, by omega, ?_⟩, fun u _ => .refl u s⟩
      rw [hcalls, hat, ← prepares_drop (by omega)]
  | sysFork registered calls =>
    obtain ⟨hat, hcalls⟩ := hr
    cases a with
    | forkSucceeds =>
      cases h
      exact ⟨⟨hat, hcalls, hat⟩, fun u _ => .refl u s⟩
    | forkFails e =>
      cases h
      exact ⟨hcalls, fun u _ => .refl u s⟩
    | register | fork | run => cases h
  | parentLock registered calls child =>
    obtain ⟨hat, hcalls, hchild⟩ := hr
    obtain ⟨hlock, rfl, rfl⟩ := acquire_eq_some (onRun_eq_some h)
    refine ⟨⟨rfl, hat, ?_, hchild⟩, fun _ _ => kept_of_acquire hlock⟩
    rw [take_zero, filterMap_nil, append_nil]
    exact hcalls
  | parentLoop i registered calls child =>
    obtain ⟨hlock, hat, hcalls, hchild⟩ := hr
    have hturn := Option.some.inj (onRun_eq_some h)
    rw [parentTurn] at hturn
    split at hturn
    · rename_i fn hfn
      cases hturn
      refine ⟨⟨hlock, hat, ?_, hchild⟩, fun u _ => .refl u s⟩
      rw [parents_take hfn, called, called, hcalls, append_assoc]
    · rename_i hend
      cases hturn
      refine ⟨⟨?_, hchild, hat⟩, fun _ hu => kept_of_holder hu hlock prefix_rfl⟩
      rw [List.getElem?_eq_none_iff] at hend
      rw [hcalls, take_of_length_le hend]

end Step

/-! ### Runs -/

theorem right_step [DecidableEq ι] {t : ι} {a : Act H} {c c' : Conf ι (Shared ι H) (Pc ι H)}
    (hc : ∀ u, (c.locals u).Right u c.shared) (h : program.step t a c = some c') :
    ∀ u, (c'.locals u).Right u c'.shared := by
  obtain ⟨s', pc', hp, rfl⟩ := Program.step_eq_some.mp h
  obtain ⟨hright, hkept⟩ := program_right (hc t) hp
  exact (Function.forall_update_iff c.locals fun u pc => pc.Right u s').mpr
    ⟨hright, fun u hu => (hc u).kept (hkept u hu)⟩

theorem filterMap_eq_iff_of_prefix {α β : Type*} {f : α → Option β} {xs ys : List α}
    (h : xs <+: ys) : ys.filterMap f = xs.filterMap f ↔ (ys.drop xs.length).filterMap f = [] := by
  obtain ⟨zs, rfl⟩ := h
  rw [filterMap_append, drop_left]
  exact append_right_eq_self

theorem callAtforkChild_eq_iff {child : Shared ι H} {fs : List H} :
    callAtforkChild child = some fs ↔
      child.lock = none ∧ child.atFork.filterMap AtForkFn.child = fs := by
  rw [callAtforkChild]
  split
  · rename_i hlock
    simp [hlock]
  · rename_i u hlock
    simp [hlock]

theorem Record.Right.balanced_iff {r : Record ι H} (h : r.Right) : r.Balanced ↔ r.Undisturbed := by
  obtain ⟨registered, calls, outcome⟩ := r
  cases outcome with
  | failed e =>
    simp only [Record.Right, Record.Balanced, Record.Undisturbed] at h ⊢
    rw [h, prepares, and_true, self_eq_append_right]
  | forked child atParent =>
    simp only [Record.Right, Record.Balanced, Record.Undisturbed] at h ⊢
    obtain ⟨hcalls, hchild, hparent⟩ := h
    rw [hcalls, prepares, append_cancel_left_eq, filterMap_eq_iff_of_prefix hparent,
      callAtforkChild_eq_iff, filterMap_eq_iff_of_prefix hchild]
    refine and_congr_right fun _ => ?_
    exact ⟨fun h => ⟨h.2.2, h.1⟩, fun h => ⟨h.2, h.2, h.1⟩⟩

/-- A fork that has returned has called the handlers of the same registrations if and only if
nothing has come between its phases. -/
theorem fork_balanced_iff [DecidableEq ι] (sched : List (ι × Act H))
    (c : Conf ι (Shared ι H) (Pc ι H)) (hrun : program.exec sched start = some c) (t : ι)
    (r : Record ι H) (ht : c.locals t = .returned r) : r.Balanced ↔ r.Undisturbed := by
  have hright : ∀ u, (c.locals u).Right u c.shared :=
    Program.exec_invariant (I := fun c => ∀ u, (c.locals u).Right u c.shared)
      (fun _ _ _ _ => right_step) (fun _ => trivial) hrun
  have hr := hright t
  rw [ht] at hr
  exact Record.Right.balanced_iff hr

/-- Another thread registers handlers before the fork. -/
def undisturbed (t u : Fin 2) : List (Fin 2 × Act ℕ) :=
  [(u, .register ⟨some 1, some 2, some 3⟩), (u, .run), (u, .run), (u, .run), (t, .fork), (t, .run),
    (t, .run), (t, .run), (t, .forkSucceeds), (t, .run), (t, .run), (t, .run)]

theorem fork_balanced_undisturbed : ∃ c, program.exec (undisturbed 0 1) start = some c ∧
    ∃ r, c.locals 0 = .returned r ∧ r.calls = [1, 2] ∧ r.Balanced := by
  have hundisturbed : ∃ c, program.exec (undisturbed 0 1) start = some c ∧
      ∃ r, c.locals 0 = .returned r ∧ r.calls = [1, 2] ∧ r.Undisturbed :=
    ⟨_, rfl, _, rfl, rfl, rfl, rfl, rfl⟩
  obtain ⟨c, hrun, r, hr, hcalls, hu⟩ := hundisturbed
  exact ⟨c, hrun, r, hr, hcalls, (fork_balanced_iff (undisturbed 0 1) c hrun 0 r hr).mpr hu⟩

/-- The system call fails, and the parent handler of the only registration is not called. -/
def failing (t : Fin 1) : List (Fin 1 × Act ℕ) :=
  [(t, .register ⟨some 1, some 2, some 3⟩), (t, .run), (t, .run), (t, .run), (t, .fork), (t, .run),
    (t, .run), (t, .run), (t, .forkFails .eagain)]

theorem fork_not_balanced : ¬ ∀ (sched : List (Fin 1 × Act ℕ))
    (c : Conf (Fin 1) (Shared (Fin 1) ℕ) (Pc (Fin 1) ℕ)) (t : Fin 1) (r : Record (Fin 1) ℕ),
    program.exec sched start = some c → c.locals t = .returned r → r.Balanced := by
  intro h
  exact absurd (h (failing 0) _ 0 _ rfl rfl).1 (by decide)

end Hzlibc.Lsb.Fork
