import Mathlib.Data.List.Induction

/-!
File trees, and how a path leads through them.

A node is given by the names on the way to it from the root. A path is a row of
components; the components of a link are read off its target by a function that
is a parameter, as are the names. `walk` is the resolution of a path with links
followed, at most as many as the first argument says. `navigate` ignores what is
in the tree; the two agree on paths that meet no link.
-/

namespace Hzlibc.Path

inductive Component (ν : Type)
  | here
  | up
  | down (name : ν)
  deriving DecidableEq

inductive Kind (τ : Type)
  | file
  | directory
  | link (target : τ)
  deriving DecidableEq

structure Tree (ν τ : Type) where
  kind : List ν → Option (Kind τ)
  root : kind [] = some .directory
  /-- Only directories have entries. -/
  parent : ∀ p name, (kind (p ++ [name])).isSome → kind p = some .directory

variable {ν τ : Type}

/-- One component, without a look at the tree. The root is its own parent. -/
def step (p : List ν) : Component ν → List ν
  | .here => p
  | .up => p.dropLast
  | .down name => p ++ [name]

def navigate (p : List ν) (cs : List (Component ν)) : List ν := cs.foldl step p

def Tree.isDirectory (t : Tree ν τ) (p : List ν) : Bool :=
  match t.kind p with
  | some .directory => true
  | _ => false

/-- The resolution of a path up to the first link, and by `follow` behind it; `read`
gives the components of a target, and whether they start at the root. -/
def Tree.walkThen (t : Tree ν τ) (read : τ → Bool × List (Component ν))
    (follow : List ν → List (Component ν) → Option (List ν)) :
    List ν → List (Component ν) → Option (List ν)
  | p, [] => some p
  | p, .here :: cs => if t.isDirectory p then t.walkThen read follow p cs else none
  | p, .up :: cs => if t.isDirectory p then t.walkThen read follow p.dropLast cs else none
  | p, .down name :: cs =>
    match t.kind (p ++ [name]) with
    | none => none
    | some (.link target) => follow (if (read target).1 then [] else p) ((read target).2 ++ cs)
    | some _ => t.walkThen read follow (p ++ [name]) cs

def Tree.follow (t : Tree ν τ) (read : τ → Bool × List (Component ν)) :
    ℕ → List ν → List (Component ν) → Option (List ν)
  | 0, _, _ => none
  | budget + 1, p, cs => t.walkThen read (t.follow read budget) p cs

def Tree.walk (t : Tree ν τ) (read : τ → Bool × List (Component ν)) (budget : ℕ) (p : List ν)
    (cs : List (Component ν)) : Option (List ν) :=
  t.walkThen read (t.follow read budget) p cs

/-- The node is there, and it is not a link. -/
def Tree.Plain (t : Tree ν τ) (p : List ν) : Prop :=
  ∃ kind, t.kind p = some kind ∧ ∀ target, kind ≠ .link target

/-- Every node on the way is there, and none is a link. -/
def Tree.Clear (t : Tree ν τ) : List ν → List (Component ν) → Prop
  | _, [] => True
  | p, c :: cs => (∀ name, c = .down name → t.Plain (p ++ [name])) ∧ t.Clear (step p c) cs

instance (t : Tree ν τ) (p : List ν) : Decidable (t.Plain p) :=
  match h : t.kind p with
  | none => isFalse fun ⟨_, hkind, _⟩ => by
      rw [h] at hkind
      cases hkind
  | some (.link target) => isFalse fun ⟨_, hkind, hno⟩ => by
      rw [h] at hkind
      exact hno target (Option.some.inj hkind).symm
  | some .file => isTrue ⟨.file, h, by simp⟩
  | some .directory => isTrue ⟨.directory, h, by simp⟩

instance (t : Tree ν τ) (p : List ν) (c : Component ν) :
    Decidable (∀ name, c = .down name → t.Plain (p ++ [name])) :=
  match c with
  | .here => isTrue (by simp)
  | .up => isTrue (by simp)
  | .down name => decidable_of_iff (t.Plain (p ++ [name])) (by simp)

instance Tree.decidableClear (t : Tree ν τ) :
    ∀ (p : List ν) (cs : List (Component ν)), Decidable (t.Clear p cs)
  | _, [] => isTrue trivial
  | p, c :: cs =>
    haveI := Tree.decidableClear t (step p c) cs
    inferInstanceAs (Decidable (_ ∧ _))

/-! ### Navigation -/

@[simp] theorem navigate_cons (p : List ν) (c : Component ν) (cs : List (Component ν)) :
    navigate p (c :: cs) = navigate (step p c) cs := rfl

/-! ### Resolution -/

section Walk

variable {t : Tree ν τ} {read : τ → Bool × List (Component ν)} {budget : ℕ} {p node : List ν}
  {c : Component ν} {cs : List (Component ν)}

theorem Tree.isDirectory_iff : t.isDirectory p = true ↔ t.kind p = some .directory := by
  rw [Tree.isDirectory]
  split <;> simp_all

theorem Tree.plain_root : t.Plain [] := ⟨.directory, t.root, by simp⟩

/-- What one component of a path that leads somewhere can be. -/
theorem Tree.walk_cons (h : t.walk read budget p (c :: cs) = some node) :
    (t.kind p = some .directory ∧ (c = .here ∨ c = .up) ∧
        t.walk read budget (step p c) cs = some node) ∨
      (∃ name, c = .down name ∧ t.Plain (p ++ [name]) ∧
        t.walk read budget (p ++ [name]) cs = some node) ∨
      ∃ name target, c = .down name ∧ t.kind (p ++ [name]) = some (.link target) := by
  cases c with
  | here =>
    rw [Tree.walk, Tree.walkThen] at h
    split at h
    next hdir => exact .inl ⟨Tree.isDirectory_iff.mp hdir, .inl rfl, h⟩
    · cases h
  | up =>
    rw [Tree.walk, Tree.walkThen] at h
    split at h
    next hdir => exact .inl ⟨Tree.isDirectory_iff.mp hdir, .inr rfl, h⟩
    · cases h
  | down name =>
    rw [Tree.walk, Tree.walkThen] at h
    split at h
    · cases h
    next target hkind => exact .inr (.inr ⟨name, target, rfl, hkind⟩)
    next kind hno hkind => exact .inr (.inl ⟨name, rfl, ⟨kind, hkind, hno⟩, h⟩)

/-- A path that leads somewhere is clear and leads where navigation does, or it is
clear up to the first link. -/
theorem Tree.walk_clear (h : t.walk read budget p cs = some node) :
    (t.Clear p cs ∧ node = navigate p cs) ∨
      ∃ before name after target, cs = before ++ .down name :: after ∧ t.Clear p before ∧
        t.kind (navigate p before ++ [name]) = some (.link target) := by
  induction cs generalizing p with
  | nil =>
    exact .inl ⟨trivial, (Option.some.inj h).symm⟩
  | cons c cs ih =>
    -- a link at once, or one plain step and the rest of the path
    have hstep : (∃ name target, c = .down name ∧ t.kind (p ++ [name]) = some (.link target)) ∨
        (∀ name, c = .down name → t.Plain (p ++ [name])) ∧
          t.walk read budget (step p c) cs = some node := by
      rcases Tree.walk_cons h with ⟨-, rfl | rfl, h⟩ | ⟨name, rfl, hplain, h⟩ | hlink
      · exact .inr ⟨by simp, h⟩
      · exact .inr ⟨by simp, h⟩
      · refine .inr ⟨?_, h⟩
        rintro _ ⟨⟩
        exact hplain
      · exact .inl hlink
    rcases hstep with ⟨name, target, rfl, hlink⟩ | ⟨hplain, h⟩
    · exact .inr ⟨[], name, cs, target, rfl, trivial, hlink⟩
    · rcases ih h with ⟨hclear, hnode⟩ | ⟨before, name, after, target, rfl, hclear, hlink⟩
      · exact .inl ⟨⟨hplain, hclear⟩, hnode⟩
      · exact .inr ⟨c :: before, name, after, target, rfl, ⟨hplain, hclear⟩, hlink⟩

theorem Tree.not_clear_of_link {before : List (Component ν)} {name : ν} {target : τ}
    (hlink : t.kind (navigate p before ++ [name]) = some (.link target)) :
    ¬ t.Clear p (before ++ .down name :: cs) := by
  induction before generalizing p with
  | nil =>
    rintro ⟨hplain, -⟩
    obtain ⟨kind, hkind, hno⟩ := hplain name rfl
    rw [navigate, List.foldl_nil, hkind] at hlink
    exact hno target (Option.some.inj hlink)
  | cons c before ih => exact fun h => ih hlink h.2

theorem Tree.plain_of_append {names : List ν} (h : t.Plain (p ++ names)) : t.Plain p := by
  induction names using List.reverseRecOn with
  | nil => simpa using h
  | append_singleton names name ih =>
    obtain ⟨kind, hkind, -⟩ := h
    rw [← List.append_assoc] at hkind
    refine ih ⟨.directory, t.parent (p ++ names) name ?_, by simp⟩
    rw [hkind]
    rfl

theorem Tree.plain_step (hp : t.Plain p) (h : ∀ name, c = .down name → t.Plain (p ++ [name])) :
    t.Plain (step p c) := by
  cases c with
  | here => exact hp
  | up =>
    rcases List.eq_nil_or_concat p with rfl | ⟨q, name, rfl⟩
    · exact hp
    · rw [List.concat_eq_append] at hp ⊢
      rw [step, List.dropLast_concat]
      exact Tree.plain_of_append hp
  | down name => exact h name rfl

theorem Tree.plain_navigate (hp : t.Plain p) (h : t.Clear p cs) : t.Plain (navigate p cs) := by
  induction cs generalizing p with
  | nil => exact hp
  | cons c cs ih => exact ih (Tree.plain_step hp h.1) h.2

/-- The row of names of a node leads to it, and meets no link. -/
theorem Tree.clear_downs {names : List ν} (h : t.Plain (p ++ names)) :
    t.Clear p (names.map .down) ∧
      t.walk read budget p (names.map .down) = some (p ++ names) := by
  induction names generalizing p with
  | nil =>
    rw [List.append_nil]
    exact ⟨trivial, rfl⟩
  | cons name names ih =>
    have hcons : p ++ name :: names = p ++ [name] ++ names := by simp
    rw [hcons] at h ⊢
    have hplain : t.Plain (p ++ [name]) := Tree.plain_of_append h
    obtain ⟨hclear, hwalk⟩ := ih h
    refine ⟨⟨?_, hclear⟩, ?_⟩
    · rintro _ ⟨⟩
      exact hplain
    · obtain ⟨kind, hkind, hno⟩ := hplain
      rw [List.map_cons, Tree.walk, Tree.walkThen]
      cases kind with
      | link target => exact absurd rfl (hno target)
      | file | directory => rwa [hkind]

theorem Tree.clear_here (h : t.Clear p cs) : t.Clear p (.here :: cs) := ⟨by simp, h⟩

theorem Tree.walk_here (hp : t.kind p = some .directory) :
    t.walk read budget p (.here :: cs) = t.walk read budget p cs := by
  rw [Tree.walk, Tree.walkThen, if_pos (Tree.isDirectory_iff.mpr hp)]
  rfl

end Walk

end Hzlibc.Path
