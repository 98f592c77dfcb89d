import Mathlib.Data.Fintype.EquivFin

/-!
The file actions of `posix_spawn`.

They are collected in an array, which is made by the first call; since no call
sets `__allocated`, none of the others finds it full. The child performs the
actions in order. A file is opened at the lowest free descriptor and then moved
by `dup2`, which leaves the first descriptor open as well, until another action
closes it or puts something else there.
-/

namespace Hzlibc.Posix.Spawn

open List Function

variable {R F : Type}

/-- `__spawn_action`; `R` is what `open` is called with, a path, flags and a mode. -/
inductive Action (R : Type)
  | openAt (fd : ℕ) (request : R)
  | close (fd : ℕ)
  | dup2 (oldFd newFd : ℕ)

/-! ### Collecting the actions -/

structure FileActions (R : Type) where
  allocated : ℕ
  used : ℕ
  /-- What `__actions` points to: the elements that the last `realloc` made room for. -/
  actions : List (Option (Action R))

def fileActionsInit : FileActions R := ⟨0, 0, []⟩

def FileActions.realloc (fa : FileActions R) (size : ℕ) : FileActions R :=
  { fa with actions := fa.actions.take size ++ replicate (size - fa.actions.length) none }

/-- What the three functions have in common; a store outside the array gives nothing. -/
def FileActions.add (fa : FileActions R) (a : Action R) : Option (FileActions R) :=
  let fa := if fa.used = fa.allocated then
    fa.realloc (if fa.allocated < 8 then 8 else fa.allocated + fa.allocated / 2) else fa
  if fa.used < fa.actions.length then
    some { fa with used := fa.used + 1, actions := fa.actions.set fa.used (some a) }
  else none

def addopen (fa : FileActions R) (fd : ℕ) (request : R) : Option (FileActions R) :=
  fa.add (.openAt fd request)

def addclose (fa : FileActions R) (fd : ℕ) : Option (FileActions R) := fa.add (.close fd)

def adddup2 (fa : FileActions R) (fd newFd : ℕ) : Option (FileActions R) := fa.add (.dup2 fd newFd)

/-- The call that requests an action. -/
def request (fa : FileActions R) : Action R → Option (FileActions R)
  | .openAt fd request => addopen fa fd request
  | .close fd => addclose fa fd
  | .dup2 fd newFd => adddup2 fa fd newFd

def FileActions.stored (fa : FileActions R) : List (Option (Action R)) := fa.actions.take fa.used

theorem request_eq (fa : FileActions R) (a : Action R) : request fa a = fa.add a := by
  cases a <;> rfl

theorem foldlM_request (fa : FileActions R) (hallocated : fa.allocated = 0) (hused : fa.used ≠ 0)
    (hle : fa.used ≤ fa.actions.length) (as : List (Action R)) :
    (∃ fa', as.foldlM request fa = some fa' ∧ fa'.stored = fa.stored ++ as.map some) ↔
      fa.used + as.length ≤ fa.actions.length := by
  induction as generalizing fa with
  | nil => simpa
  | cons a as ih =>
    have hkeep : fa.used ≠ fa.allocated := by omega
    simp only [foldlM_cons, request_eq, FileActions.add, if_neg hkeep]
    split
    · rename_i hlt
      have ih := ih ⟨fa.allocated, fa.used + 1, fa.actions.set fa.used (some a)⟩ hallocated
        (Nat.succ_ne_zero _) (by rwa [length_set])
      have hstored : (fa.actions.set fa.used (some a)).take (fa.used + 1) =
          fa.stored ++ [some a] := by
        simp [FileActions.stored, take_add_one, hlt, take_set_of_le]
      rw [FileActions.stored, hstored, append_assoc, length_set] at ih
      refine Iff.trans ih ?_
      rw [length_cons, Nat.add_assoc, Nat.add_comm 1]
    · rename_i hfull
      rw [length_cons]
      refine iff_of_false ?_ (by omega)
      rintro ⟨_, ⟨⟩, -⟩

/-- The actions are stored as they were requested as long as there are no more
than fit in the first array. -/
theorem stored_iff (as : List (Action R)) :
    (∃ fa, as.foldlM request fileActionsInit = some fa ∧ fa.stored = as.map some) ↔
      as.length ≤ 8 := by
  cases as with
  | nil => simp [FileActions.stored, fileActionsInit]
  | cons a as =>
    rw [foldlM_cons, request_eq]
    refine (foldlM_request ⟨0, 1, some a :: replicate 7 none⟩ rfl Nat.one_ne_zero (by simp)
      as).trans ?_
    change 1 + as.length ≤ 8 ↔ as.length + 1 ≤ 8
    omega

theorem stored_nine :
    (replicate 9 (Action.close 0)).foldlM request (fileActionsInit (R := ℕ)) = none := rfl

/-! ### Descriptors -/

/-- The open files of a process by their descriptors. -/
@[ext] structure Table (F : Type) where
  file : ℕ → Option F
  finite : ∃ bound, ∀ n ≥ bound, file n = none

namespace Table

variable (t : Table F)

def set (fd : ℕ) (f : Option F) : Table F where
  file := update t.file fd f
  finite := by
    obtain ⟨bound, h⟩ := t.finite
    refine ⟨max bound (fd + 1), fun n hn => ?_⟩
    rw [update_of_ne (by omega), h n (by omega)]

@[simp] theorem file_set (fd n : ℕ) (f : Option F) :
    (t.set fd f).file n = if n = fd then f else t.file n :=
  update_apply ..

theorem set_set (fd : ℕ) (f g : Option F) : (t.set fd f).set fd g = t.set fd g := by
  ext1
  exact update_idem ..

theorem exists_free (taken : Finset ℕ) : ∃ n, t.file n = none ∧ n ∉ taken := by
  obtain ⟨bound, h⟩ := t.finite
  obtain ⟨n, hn⟩ := Infinite.exists_notMem_finset (taken ∪ Finset.range bound)
  simp only [Finset.mem_union, Finset.mem_range, not_or, not_lt] at hn
  exact ⟨n, h n hn.2, hn.1⟩

/-- The lowest descriptor that is free and not among those taken. -/
def lowestFree (taken : Finset ℕ) : ℕ := Nat.find (t.exists_free taken)

theorem file_lowestFree (taken : Finset ℕ) : t.file (t.lowestFree taken) = none :=
  (Nat.find_spec (t.exists_free taken)).1

def dup2 (oldFd newFd : ℕ) : Option (Table F) :=
  (t.file oldFd).map fun f => t.set newFd (some f)

end Table

variable (lookup : R → Option F)

/-- One turn of the loop of the child; it exits where `open` or `dup2` fails. -/
def perform (t : Table F) : Action R → Option (Table F)
  | .openAt fd request => do
    let t := t.set fd none
    let f ← lookup request
    let new := t.lowestFree ∅
    (t.set new (some f)).dup2 new fd
  | .close fd => some (t.set fd none)
  | .dup2 oldFd newFd => t.dup2 oldFd newFd

/-- What POSIX wants of an action. -/
def effect (t : Table F) : Action R → Option (Table F)
  | .openAt fd request => (lookup request).map fun f => t.set fd (some f)
  | .close fd => some (t.set fd none)
  | .dup2 oldFd newFd => t.dup2 oldFd newFd

/-- The descriptors that are left open besides those of the table `t`: the one
an `open` has returned, if it is not the one asked for, until an action closes
it or puts a file there. -/
def leaves (t : Table F) (left : Finset ℕ) : Action R → Finset ℕ
  | .openAt fd _ =>
    (insert ((t.set fd none).lowestFree (left.erase fd)) (left.erase fd)).erase fd
  | .close fd | .dup2 _ fd => left.erase fd

def leftBehind (t : Table F) (left : Finset ℕ) : List (Action R) → Finset ℕ
  | [] => left
  | a :: as => ((effect lookup t a).map fun t' => leftBehind t' (leaves t left a) as).getD left

variable {lookup}

/-- The table `p` has the files of `t`, and some more at the descriptors left open. -/
def Over (p t : Table F) (left : Finset ℕ) : Prop :=
  ∀ n, if n ∈ left then t.file n = none ∧ p.file n ≠ none else p.file n = t.file n

section Over

variable {p t : Table F} {left : Finset ℕ} (h : Over p t left)
include h

theorem Over.set (fd : ℕ) (f : Option F) : Over (p.set fd f) (t.set fd f) (left.erase fd) := by
  intro n
  have hn := h n
  by_cases hfd : n = fd <;> simp_all

theorem Over.add {fd : ℕ} (hfd : t.file fd = none) (f : F) :
    Over (p.set fd (some f)) t (insert fd left) := by
  intro n
  have hn := h n
  by_cases hne : n = fd <;> simp_all

theorem Over.lowestFree_eq : p.lowestFree ∅ = t.lowestFree left := by
  refine Nat.find_congr' fun {n} => ?_
  have hn := h n
  by_cases hleft : n ∈ left <;> simp_all

theorem Over.eq_iff : p = t ↔ left = ∅ := by
  constructor
  · rintro rfl
    refine Finset.eq_empty_of_forall_notMem fun n hn => ?_
    have hboth := h n
    rw [if_pos hn] at hboth
    exact hboth.2 hboth.1
  · rintro rfl
    ext1
    exact funext h

theorem Over.step {a : Action R} {t' : Table F} (ht' : effect lookup t a = some t') :
    ∃ p', perform lookup p a = some p' ∧ Over p' t' (leaves t left a) := by
  cases a with
  | close fd =>
    cases ht'
    exact ⟨_, rfl, h.set fd none⟩
  | dup2 oldFd newFd =>
    obtain ⟨f, hf, rfl⟩ := Option.map_eq_some_iff.mp ht'
    have hsame : p.file oldFd = some f := by
      have hold := h oldFd
      by_cases hleft : oldFd ∈ left <;> simp_all
    exact ⟨_, by simp [perform, Table.dup2, hsame], h.set newFd (some f)⟩
  | openAt fd request =>
    obtain ⟨f, hf, rfl⟩ := Option.map_eq_some_iff.mp ht'
    have hclosed := h.set fd none
    have hover := (hclosed.add ((t.set fd none).file_lowestFree (left.erase fd)) f).set fd (some f)
    rw [Table.set_set] at hover
    exact ⟨_, by simp [perform, hf, Table.dup2, hclosed.lowestFree_eq], hover⟩

theorem Over.foldlM {as : List (Action R)} {t' : Table F}
    (ht' : as.foldlM (effect lookup) t = some t') :
    ∃ p', as.foldlM (perform lookup) p = some p' ∧ Over p' t' (leftBehind lookup t left as) := by
  induction as generalizing p t left with
  | nil =>
    cases ht'
    exact ⟨p, rfl, h⟩
  | cons a as ih =>
    rw [foldlM_cons] at ht'
    obtain ⟨m, hm, hrest⟩ := Option.bind_eq_some_iff.mp ht'
    obtain ⟨q, hq, hover⟩ := h.step hm
    obtain ⟨p', hp', hend⟩ := ih hover hrest
    refine ⟨p', ?_, ?_⟩
    · rw [foldlM_cons, hq]
      exact hp'
    · simpa only [leftBehind, hm, Option.map_some, Option.getD_some] using hend

end Over

/-- The descriptors 0, 1 and 2. -/
def threeOpen : Table ℕ := ⟨fun n => if n < 3 then some n else none, 3, by simp⟩

theorem lowestFree_threeOpen : (threeOpen.set 5 none).lowestFree ∅ = 3 :=
  (Nat.find_eq_iff _).mpr (by decide)

end Hzlibc.Posix.Spawn
