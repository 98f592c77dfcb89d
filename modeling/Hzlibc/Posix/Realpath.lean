import Mathlib.Data.List.DropRight
import Hzlibc.Path.Tree
import Hzlibc.Text.CString
import Hzlibc.Text.Separated

/-!
`realpath`.

The system calls are parameters: of `sys_stat` and `sys_readlinkat` it is assumed
what they return for a path that leads to a node of the file tree by its names
alone, and of `sys_getcwd` that it gives the path of the current directory if that
fits. `link_buf` is not initialised and no zero is put behind a target, so its
contents at the start are a parameter too. Memory is always available.
-/

namespace Hzlibc.Realpath

open Stdio (Byte)
open Hzlibc.Path (Component Kind Tree step navigate)

def slash : Byte := '/'
def dot : CString := ['.']
def dotDot : CString := ['.', '.']

def PATH_MAX : ℕ := 4096
def ENOENT : ℤ := 2
def EINVAL : ℤ := 22
def ERANGE : ℤ := 34
def ENAMETOOLONG : ℤ := 36

/-! ### Paths as texts -/

def readComponent (text : CString) : Component CString :=
  if text = [] ∨ text = dot then .here
  else if text = dotDot then .up
  else .down text

def components (path : CString) : List (Component CString) :=
  (path.splitOn slash).map readComponent

/-- The target of a link: where it starts, and its components. -/
def readTarget (target : CString) : Bool × List (Component CString) :=
  (target.head? = some slash, components target)

/-- The names, each behind a slash. -/
def body (names : List CString) : CString := names.flatMap (slash :: ·)

def pathText (names : List CString) : CString := if names = [] then [slash] else body names

def IsName (name : CString) : Prop :=
  name ≠ [] ∧ name ≠ dot ∧ name ≠ dotDot ∧ slash ∉ name

/-- The path starts at the root, and apart from doubled slashes it is the row of the
names. -/
def Spells (path : CString) (names : List CString) : Prop :=
  path.head? = some slash ∧ (path.splitOn slash).filter (· ≠ []) = names

structure System where
  tree : Tree CString CString
  isName : ∀ p name, (tree.kind (p ++ [name])).isSome → IsName name
  target_ne_zero : ∀ p target, tree.kind p = some (.link target) → 0 ∉ target
  cwd : List CString
  cwd_directory : tree.kind cwd = some .directory
  /-- `sys_stat` with `AT_SYMLINK_NOFOLLOW`. -/
  stat : CString → Except ℤ (Kind CString)
  stat_spells : ∀ path names kind, Spells path names → tree.kind names = some kind →
    stat path = .ok kind
  readlink : CString → Except ℤ CString
  readlink_spells : ∀ path names target, Spells path names →
    tree.kind names = some (.link target) → readlink path = .ok target
  getcwd : ℕ → Except ℤ CString
  getcwd_fits : ∀ size, (pathText cwd).length < size → getcwd size = .ok (pathText cwd)
  getcwd_range : ∀ size, size ≤ (pathText cwd).length → ∃ err, getcwd size = .error err

instance : DecidablePred IsName := fun _ => inferInstanceAs (Decidable (_ ∧ _))

section OfEntries

variable (entries : List (List CString × Kind CString))

def kindOf (p : List CString) : Option (Kind CString) :=
  if p = [] then some .directory else entries.lookup p

def targetText : Kind CString → CString
  | .link target => target
  | _ => []

/-- Every entry is in a directory, and names and targets are as they must be. -/
def WellFormed : Prop :=
  ∀ entry ∈ entries, kindOf entries entry.1.dropLast = some .directory ∧
    (∀ name ∈ entry.1, IsName name) ∧ 0 ∉ targetText entry.2

instance : Decidable (WellFormed entries) :=
  inferInstanceAs (Decidable (∀ entry ∈ entries, _ ∧ _ ∧ _))

variable {entries}

theorem kindOf_cases {p : List CString} {kind : Kind CString} (h : kindOf entries p = some kind) :
    (p = [] ∧ kind = .directory) ∨ (p, kind) ∈ entries := by
  rw [kindOf] at h
  split at h
  next hp => exact .inl ⟨hp, (Option.some.inj h).symm⟩
  · obtain ⟨before, after, heq, -⟩ := List.lookup_eq_some_iff.mp h
    refine .inr ?_
    rw [heq]
    exact List.mem_append_right before List.mem_cons_self

theorem kindOf_concat (hwf : WellFormed entries) {p : List CString} {name : CString}
    (h : (kindOf entries (p ++ [name])).isSome) :
    kindOf entries p = some .directory ∧ IsName name := by
  obtain ⟨kind, hkind⟩ := Option.isSome_iff_exists.mp h
  rcases kindOf_cases hkind with ⟨hnil, -⟩ | hmem
  · exact absurd hnil (by simp)
  · obtain ⟨hparent, hnames, -⟩ := hwf _ hmem
    rw [List.dropLast_concat] at hparent
    exact ⟨hparent, hnames name (by simp)⟩

variable (entries)

def treeOf (hwf : WellFormed entries) : Tree CString CString where
  kind := kindOf entries
  root := rfl
  parent := fun _ _ h => (kindOf_concat hwf h).1

/-- The system with the entries and nothing else. -/
def System.ofEntries (hwf : WellFormed entries) (cwd : List CString)
    (hcwd : kindOf entries cwd = some .directory) : System where
  tree := treeOf entries hwf
  isName := fun _ _ h => (kindOf_concat hwf h).2
  target_ne_zero := by
    intro p target hkind
    rcases kindOf_cases hkind with ⟨-, hdir⟩ | hmem
    · cases hdir
    · exact (hwf _ hmem).2.2
  cwd := cwd
  cwd_directory := hcwd
  stat := fun path =>
    match kindOf entries ((path.splitOn slash).filter (· ≠ [])) with
    | some kind => .ok kind
    | none => .error ENOENT
  stat_spells := by
    rintro path _ kind ⟨-, rfl⟩ hkind
    rw [show kindOf entries _ = some kind from hkind]
  readlink := fun path =>
    match kindOf entries ((path.splitOn slash).filter (· ≠ [])) with
    | some (.link target) => .ok target
    | some _ => .error EINVAL
    | none => .error ENOENT
  readlink_spells := by
    rintro path _ target ⟨-, rfl⟩ hkind
    rw [show kindOf entries _ = some (.link target) from hkind]
  getcwd := fun size => if (pathText cwd).length < size then .ok (pathText cwd) else .error ERANGE
  getcwd_fits := fun _ h => if_pos h
  getcwd_range := fun _ h => ⟨ERANGE, if_neg (Nat.not_lt.mpr h)⟩

end OfEntries

/-! ### The function -/

/-- Why there is no result: an error, a read outside of the buffer, or more rounds
than the run was given. -/
inductive Stop
  | errno (err : ℤ)
  | fault
  | rounds
  deriving DecidableEq

structure State where
  resolved : CString
  link : CString
  linkBuf : List Byte

def sys {α : Type} : Except ℤ α → Except Stop α
  | .error err => .error (.errno err)
  | .ok a => .ok a

/-- The string at the start of the buffer. -/
def bufText (buf : List Byte) : Except Stop CString :=
  if buf.contains 0 then .ok (buf.takeWhile (· ≠ 0)) else .error .fault

/-- `sys_readlinkat`: the part of the target that fits is put into the buffer. -/
def readlinkat (s : System) (path : CString) (buf : List Byte) : Except ℤ (List Byte) :=
  match s.readlink path with
  | .error err => .error err
  | .ok target => .ok (target.take buf.length ++ buf.drop target.length)

/-- The text before the last slash; without one nothing is cut off. -/
def cutLast (resolved : CString) : CString :=
  if resolved.contains slash then (resolved.rdropWhile (· ≠ slash)).dropLast else resolved

def appendComponent (resolved component : CString) : CString :=
  (if resolved.getLast? = some slash then resolved else resolved ++ [slash]) ++ component

/-- The part of `parse_component` for a component that is a name. -/
def parseName (s : System) (st : State) (component : CString) : Except Stop State := do
  let resolved := appendComponent st.resolved component
  match ← sys (s.stat resolved) with
  | .link _ => do
      let linkBuf ← sys (readlinkat s resolved st.linkBuf)
      if st.link.head? = some slash then
        return { st with resolved := st.link, linkBuf := linkBuf }
      else do
        let text ← bufText linkBuf
        return { st with link := text ++ st.link, linkBuf := linkBuf }
  | _ => return { st with resolved := resolved }

def parseComponent (s : System) (st : State) (component : CString) : Except Stop State :=
  if component = [] ∨ component = [slash] ∨ component = dot then .ok st
  else if component = dotDot then .ok { st with resolved := cutLast st.resolved }
  else parseName s st component

/-- The loop over the components of `link`, which may grow meanwhile. -/
def linkLoop (s : System) : ℕ → ℕ → State → Except Stop State
  | 0, _, _ => .error .rounds
  | fuel + 1, offset, st => do
      let rest := st.link.drop offset
      let component := rest.takeWhile (· ≠ slash)
      let st ← parseComponent s st component
      if rest.contains slash then linkLoop s fuel (offset + component.length + 1) st else return st

def pathLoop (s : System) (fuel : ℕ) : List CString → State → Except Stop State
  | [], st => .ok st
  | component :: rest, st => do
      let st ← parseComponent s st component
      if st.link = [] then pathLoop s fuel rest st
      else do
        let st ← linkLoop s fuel 0 st
        pathLoop s fuel rest { st with link := [] }

def startText (s : System) (path : CString) : Except Stop CString :=
  if path.head? = some slash then .ok [slash]
  else do
    let resolved := slash :: (← sys (s.getcwd PATH_MAX))
    return if resolved.getLast? = some slash then resolved.dropLast else resolved

def realpath (s : System) (fuel : ℕ) (linkBuf : List Byte) :
    Option CString → Except Stop CString
  | none => .error (.errno EINVAL)
  | some path =>
    if path = [] then .error (.errno EINVAL)
    else do
      let st ← pathLoop s fuel (path.splitOn slash) ⟨← startText s path, [], linkBuf⟩
      if st.resolved.length > PATH_MAX - 1 then .error (.errno ENAMETOOLONG)
      else return st.resolved

end Hzlibc.Realpath
