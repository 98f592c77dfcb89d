import Hzlibc.Stdio.Basic
import Hzlibc.Table.Keyed

/-!
The environment: `setenv`, `putenv`, `unsetenv`, `clearenv` and `getenv`.

`ENV` is a vector of pointers to strings `name=value`, with a null pointer at its
end, and `environ` points to its elements. The strings come from the start of
the program, from `putenv`, or are made by `setenv`; the latter are owned by the
map `ALLOCATED_ENV`, under their name, and live as long as they stay in it.

The vector and the map are containers of `hz`. Of the map this much is assumed:
a string stays where it is when it is moved into the map, an insert under a name
that the map has already leaves the new string there, and what is inserted or
removed under one name does not touch the strings under other names. When the
vector grows its elements may move, and then `environ` has to be set again. The
strings given to `putenv` belong to the caller, who does not change them.
-/

namespace Hzlibc.Environ

open List Function

open Stdio (Byte)

/-- The bytes of a string before the terminating zero. -/
abbrev CString := List Byte

/-- What is assumed of the containers of `hz`. A string in the map is known by
the block of memory that it is in. -/
structure Hz (M : Type) where
  empty : M
  insert : M → CString → ℕ → M
  remove : M → CString → M
  /-- The map holds the string in the block under the name. -/
  holds : M → CString → ℕ → Bool
  holds_insert : ∀ m name block, holds (insert m name block) name block = true
  holds_insert_of_ne : ∀ m name block other block', other ≠ name →
    holds m other block' = true → holds (insert m name block) other block' = true
  holds_remove_of_ne : ∀ m name other block', other ≠ name →
    holds m other block' = true → holds (remove m name) other block' = true
  /-- The capacity after growing. -/
  grow : ℕ → ℕ

/-- A pointer to a string: one of the caller, or one in a block of memory that
the map holds under a name. -/
inductive Ptr
  | caller (text : CString)
  | owned (name : CString) (block : ℕ) (text : CString)

structure Vec where
  data : ℕ
  capacity : ℕ
  items : List (Option Ptr)

structure State (M : Type) where
  env : Vec
  environ : ℕ
  allocatedEnv : M
  /-- The next unused address. -/
  fresh : ℕ

/-- Why a call does not return 0: the error `EINVAL`, a panic, or a read through
a pointer that is null or dangling. -/
inductive Failure
  | einval
  | panic
  | fault
  deriving DecidableEq

def separator : Byte := '='

/-- The part before the first `=`. -/
def nameOf (text : CString) : CString := text.takeWhile (· != separator)

/-- The part after the first `=`. -/
def valueOf (text : CString) : CString := (text.dropWhile (· != separator)).tail

namespace Ptr

def text : Ptr → CString
  | caller text => text
  | owned _ _ text => text

def name (p : Ptr) : CString := nameOf p.text

def value (p : Ptr) : CString := valueOf p.text

end Ptr

section Model

variable {M : Type} (hz : Hz M)

def read (allocatedEnv : M) : Option Ptr → Except Failure CString
  | none => .error .fault
  | some (.caller text) => .ok text
  | some (.owned name block text) =>
    if hz.holds allocatedEnv name block then .ok text else .error .fault

/-- Appends to the vector; a full one is moved to a new address. -/
def pushBack (s : State M) (item : Option Ptr) : State M :=
  if s.env.items.length < s.env.capacity then
    { s with env := { s.env with items := s.env.items ++ [item] } }
  else
    { s with
      env := ⟨s.fresh, hz.grow s.env.capacity, s.env.items ++ [item]⟩
      fresh := s.fresh + 1 }

/-- `hzlibc_env_init` and `hzlibc_posix_env_init`. -/
def envInit (strings : List CString) : State M :=
  let s : State M := ⟨⟨0, 0, []⟩, 0, hz.empty, 1⟩
  let s := strings.foldl (fun s string => pushBack hz s (some (.caller string))) s
  let s := pushBack hz s none
  { s with environ := s.env.data }

/-- The loop over the entries: the index of the one with the name. -/
def findEntry (allocatedEnv : M) (name : CString) :
    List (Option Ptr) → ℕ → Except Failure (Option ℕ)
  | [], _ => .ok none
  | item :: items, i =>
    match read hz allocatedEnv item with
    | .error e => .error e
    | .ok text =>
      if separator ∉ text then .error .panic
      else if nameOf text = name then .ok (some i)
      else findEntry allocatedEnv name items (i + 1)

/-- The loop runs up to the last element. If there is none, its bound wraps
around and it runs out of the vector. -/
def find (s : State M) (name : CString) : Except Failure (Option ℕ) :=
  if s.env.items = [] then .error .fault
  else findEntry hz s.allocatedEnv name s.env.items.dropLast 0

/-- Puts the pointer in the place of the last element and a null pointer after it. -/
def append (s : State M) (p : Ptr) : State M :=
  let s := { s with env := { s.env with items := s.env.items.dropLast ++ [some p] } }
  let s := pushBack hz s none
  { s with environ := s.env.data }

/-- The string that `setenv` makes. -/
def newString (s : State M) (name value : CString) : Ptr :=
  .owned name s.fresh (name ++ separator :: value)

/-- The state after the string is made and moved into the map. -/
def allocate (s : State M) (name : CString) : State M :=
  { s with allocatedEnv := hz.insert s.allocatedEnv name s.fresh, fresh := s.fresh + 1 }

def replace (s : State M) (i : ℕ) (p : Ptr) : State M :=
  { s with env := { s.env with items := s.env.items.set i (some p) } }

/-- The checks of `setenv` and `unsetenv`. -/
def checkName (name : Option CString) : Except Failure CString :=
  match name with
  | none => .error .einval
  | some name =>
    if name = [] then .error .einval
    else if separator ∈ name then .error .einval
    else .ok name

def setenv (s : State M) (name : Option CString) (value : CString) (overwrite : Bool) :
    Except Failure (State M) :=
  match checkName name with
  | .error e => .error e
  | .ok name =>
    match find hz s name with
    | .error e => .error e
    | .ok (some i) =>
      if overwrite then .ok (replace (allocate hz s name) i (newString s name value))
      else .ok s
    | .ok none => .ok (append hz (allocate hz s name) (newString s name value))

/-- Moves the last entry to the index and shortens the vector. -/
def removeEntry (s : State M) (name : CString) (i : ℕ) : Except Failure (State M) :=
  match s.env.items[s.env.items.length - 2]? with
  | none => .error .fault
  | some oldLast =>
    let items := (s.env.items.set i oldLast).dropLast
    .ok { s with
      allocatedEnv := hz.remove s.allocatedEnv name
      env := { s.env with items := items.dropLast ++ [none] }
      environ := s.env.data }

def unsetenv (s : State M) (name : Option CString) : Except Failure (State M) :=
  match checkName name with
  | .error e => .error e
  | .ok name =>
    match find hz s name with
    | .error e => .error e
    | .ok (some i) => removeEntry hz s name i
    | .ok none => .ok s

def putenv (s : State M) (string : CString) : Except Failure (State M) :=
  if separator ∉ string then unsetenv hz s (some string)
  else
    match find hz s (nameOf string) with
    | .error e => .error e
    | .ok (some i) => .ok (replace s i (.caller string))
    | .ok none => .ok (append hz s (.caller string))

def clearenv (s : State M) : State M :=
  let s := { s with env := ⟨0, 0, []⟩ }
  let s := pushBack hz s none
  { s with environ := s.env.data }

def getenvLoop (allocatedEnv : M) (name : CString) :
    List (Option Ptr) → Except Failure (Option CString)
  | [] => .error .fault
  | none :: _ => .ok none
  | some p :: items =>
    match read hz allocatedEnv (some p) with
    | .error e => .error e
    | .ok text =>
      if separator ∈ text ∧ nameOf text = name then .ok (some (valueOf text))
      else getenvLoop allocatedEnv name items

def getenv (s : State M) (name : CString) : Except Failure (Option CString) :=
  if s.env.items = [] then .error .panic
  else getenvLoop hz s.allocatedEnv name s.env.items

def environArray (s : State M) : Option (List (Option Ptr)) :=
  if s.environ = s.env.data then some s.env.items else none

/-! ### Calls -/

/-- A call; a name may be a null pointer. -/
inductive Call
  | setenv (name : Option CString) (value : CString) (overwrite : Bool)
  | putenv (string : CString)
  | unsetenv (name : Option CString)
  | clearenv

def step (s : State M) : Call → Except Failure (State M)
  | .setenv name value overwrite => setenv hz s name value overwrite
  | .putenv string => putenv hz s string
  | .unsetenv name => unsetenv hz s name
  | .clearenv => .ok (clearenv hz s)

/-- A sequence of calls that all succeed. -/
def run (s : State M) : List Call → Except Failure (State M)
  | [] => .ok s
  | call :: calls =>
    match step hz s call with
    | .error e => .error e
    | .ok s => run s calls

end Model

/-! ### Names and values -/

theorem bne_separator {name : CString} (h : separator ∉ name) :
    ∀ c ∈ name, (c != separator) = true := by
  intro c hc
  rw [bne_iff_ne]
  rintro rfl
  exact h hc

theorem nameOf_eq (name value : CString) (h : separator ∉ name) :
    nameOf (name ++ separator :: value) = name := by
  refine Stdio.takeWhile_append_stop (bne_separator h) fun c hc => ?_
  cases hc
  exact bne_self_eq_false separator

theorem valueOf_eq (name value : CString) (h : separator ∉ name) :
    valueOf (name ++ separator :: value) = value := by
  rw [valueOf, dropWhile_append_of_pos (bne_separator h),
    dropWhile_cons_of_neg (by simp), tail_cons]

/-- The names that `setenv` and `unsetenv` take. -/
def IsName (name : CString) : Prop := name ≠ [] ∧ separator ∉ name

theorem checkName_of_isName {name : CString} (h : IsName name) :
    checkName (some name) = .ok name := by
  rw [checkName, if_neg h.1, if_neg h.2]

theorem checkName_of_not {name : Option CString} (h : ¬ ∃ n, name = some n ∧ IsName n) :
    checkName name = .error .einval := by
  cases name with
  | none => rfl
  | some name =>
    rw [checkName]
    by_cases hempty : name = []
    · rw [if_pos hempty]
    · have hseparator : separator ∈ name := by
        by_contra hnot
        exact h ⟨name, rfl, hempty, hnot⟩
      rw [if_neg hempty, if_pos hseparator]

/-! ### The entries -/

section Entries

variable {M : Type} (hz : Hz M)

/-- The string can be read: it is the caller's, or the map still holds it, under
the name that it starts with. -/
def Ptr.Live (allocatedEnv : M) : Ptr → Prop
  | .caller _ => True
  | .owned name block text => hz.holds allocatedEnv name block = true ∧ nameOf text = name

/-- The vector has these entries. -/
structure HasEntries (s : State M) (entries : List Ptr) : Prop where
  items : s.env.items = entries.map some ++ [none]
  environ : s.environ = s.env.data
  separated : ∀ p ∈ entries, separator ∈ p.text
  distinct : (entries.map Ptr.name).Nodup

def AllLive (allocatedEnv : M) (entries : List Ptr) : Prop :=
  ∀ p ∈ entries, p.Live hz allocatedEnv

variable {hz} {s : State M} {entries : List Ptr} {p : Ptr} {name : CString}

theorem read_of_live {m : M} (h : p.Live hz m) : read hz m (some p) = .ok p.text := by
  cases p with
  | caller text => rfl
  | owned name block text => exact if_pos h.1

theorem Ptr.Live.insert {m : M} {block : ℕ} (h : p.Live hz m) (hne : p.name ≠ name) :
    p.Live hz (hz.insert m name block) := by
  cases p with
  | caller text => exact trivial
  | owned other block' text =>
    obtain ⟨hholds, hname⟩ := h
    exact ⟨hz.holds_insert_of_ne _ _ _ _ _ (hname ▸ hne) hholds, hname⟩

theorem Ptr.Live.remove {m : M} (h : p.Live hz m) (hne : p.name ≠ name) :
    p.Live hz (hz.remove m name) := by
  cases p with
  | caller text => exact trivial
  | owned other block' text =>
    obtain ⟨hholds, hname⟩ := h
    exact ⟨hz.holds_remove_of_ne _ _ _ _ (hname ▸ hne) hholds, hname⟩

theorem findEntry_eq {m : M} (hlive : AllLive hz m entries)
    (hseparated : ∀ p ∈ entries, separator ∈ p.text) (i : ℕ) :
    findEntry hz m name (entries.map some) i =
      .ok ((entries.findIdx? fun p => p.name = name).map (i + ·)) := by
  induction entries generalizing i with
  | nil => rfl
  | cons p entries ih =>
    obtain ⟨hp, hlive⟩ := forall_mem_cons.1 hlive
    obtain ⟨hp', hseparated⟩ := forall_mem_cons.1 hseparated
    rw [map_cons, findEntry, read_of_live hp, List.findIdx?_cons]
    dsimp only
    rw [if_neg (not_not_intro hp'), ← Ptr.name]
    by_cases hname : p.name = name
    · rw [if_pos hname, if_pos (decide_eq_true hname)]
      rfl
    · rw [if_neg hname, if_neg (by simpa using hname), ih hlive hseparated, Option.map_map]
      congr 2
      funext j
      exact Nat.add_right_comm i 1 j

theorem pushBack_items (s : State M) (item : Option Ptr) :
    (pushBack hz s item).env.items = s.env.items ++ [item] := by
  rw [pushBack]
  split <;> rfl

theorem append_allocatedEnv (s : State M) (p : Ptr) :
    (append hz s p).allocatedEnv = s.allocatedEnv := by
  rw [append, pushBack]
  split <;> rfl

theorem find_eq (hitems : s.env.items = entries.map some ++ [none])
    (hlive : AllLive hz s.allocatedEnv entries) (hseparated : ∀ p ∈ entries, separator ∈ p.text)
    (name : CString) : find hz s name = .ok (entries.findIdx? fun p => p.name = name) := by
  rw [find, hitems, dropLast_concat, findEntry_eq hlive hseparated]
  simp

section

variable (h : HasEntries s entries)
include h

/-- The entry that is found is the one with the name. -/
theorem find_cases (hlive : AllLive hz s.allocatedEnv entries) (name : CString) :
    (find hz s name = .ok none ∧ name ∉ entries.map Ptr.name) ∨
      ∃ i, ∃ hi : i < entries.length, find hz s name = .ok (some i) ∧ entries[i].name = name := by
  have hfind := find_eq h.items hlive h.separated name
  rcases hindex : entries.findIdx? fun p => p.name = name with _ | i
  · left
    refine ⟨hindex ▸ hfind, fun hmem => ?_⟩
    obtain ⟨p, hp, hname⟩ := mem_map.1 hmem
    have hne := List.findIdx?_eq_none_iff.1 hindex p hp
    exact absurd hname (by simpa using hne)
  · right
    obtain ⟨hi, hname, -⟩ := List.findIdx?_eq_some_iff_getElem.1 hindex
    exact ⟨i, hi, hindex ▸ hfind, by simpa using hname⟩

end

/-! ### What the operations do to the entries -/

theorem removeEntry_eq (hitems : s.env.items = entries.map some ++ [none]) {i : ℕ}
    (hi : i < entries.length) (name : CString) :
    ∃ s', removeEntry hz s name i = .ok s' ∧ s'.allocatedEnv = hz.remove s.allocatedEnv name ∧
      s'.environ = s'.env.data ∧
      s'.env.items = (Table.swapRemove entries i).map some ++ [none] := by
  rcases eq_nil_or_concat entries with rfl | ⟨front, last, rfl⟩
  · exact absurd hi (Nat.not_lt_zero i)
  rw [concat_eq_append] at hi hitems ⊢
  have hlast : s.env.items[s.env.items.length - 2]? = some (some last) := by
    simp [hitems]
  rw [removeEntry, hlast]
  refine ⟨_, rfl, rfl, rfl, ?_⟩
  rw [hitems, set_append_left _ _ (by rwa [length_map]), ← map_set,
    dropLast_concat, ← map_dropLast, Table.swapRemove_append]

section

variable (h : HasEntries s entries)
include h

theorem hasEntries_append (hseparated : separator ∈ p.text)
    (hnew : p.name ∉ entries.map Ptr.name) : HasEntries (append hz s p) (entries ++ [p]) where
  items := by
    rw [append]
    rw [pushBack_items, h.items, dropLast_concat, map_append]
    rfl
  environ := rfl
  separated := forall_mem_append.2 ⟨h.separated, forall_mem_singleton.2 hseparated⟩
  distinct := Table.nodup_append h.distinct hnew

theorem hasEntries_replace {i : ℕ} (hi : i < entries.length)
    (hseparated : separator ∈ p.text) (hname : p.name = entries[i].name) :
    HasEntries (replace s i p) (entries.set i p) where
  items := by
    rw [replace]
    rw [h.items, set_append_left _ _ (by rwa [length_map]), ← map_set]
  environ := h.environ
  separated := fun q hq => (mem_or_eq_of_mem_set hq).elim (h.separated q) (· ▸ hseparated)
  distinct := Table.nodup_set h.distinct hi hname

/-! ### What stays alive -/

/-- Every other entry has another name. -/
theorem name_ne_of_mem_eraseIdx {i : ℕ} (hi : i < entries.length)
    (hp : p ∈ entries.eraseIdx i) : p.name ≠ entries[i].name := by
  obtain ⟨hnew, -⟩ := nodup_cons.1 (Table.nodup_cons_eraseIdx h.distinct hi)
  intro heq
  exact hnew (heq ▸ mem_map_of_mem hp)

end

theorem allLive_append {m : M} (h : AllLive hz m entries) (hp : p.Live hz m) :
    AllLive hz m (entries ++ [p]) :=
  forall_mem_append.2 ⟨h, forall_mem_singleton.2 hp⟩

theorem allLive_set {m : M} {i : ℕ} (hi : i < entries.length)
    (h : AllLive hz m (entries.eraseIdx i)) (hp : p.Live hz m) :
    AllLive hz m (entries.set i p) := by
  intro q hq
  rcases mem_cons.1 ((set_perm_cons_eraseIdx hi p).mem_iff.1 hq) with rfl | hq
  · exact hp
  · exact h q hq

theorem getenvLoop_eq {m : M} (hlive : AllLive hz m entries)
    (hseparated : ∀ p ∈ entries, separator ∈ p.text) :
    getenvLoop hz m name (entries.map some ++ [none]) =
      .ok ((Table.row Ptr.name entries name).map Ptr.value) := by
  induction entries with
  | nil => rfl
  | cons p entries ih =>
    obtain ⟨hp, hlive⟩ := forall_mem_cons.1 hlive
    obtain ⟨hp', hseparated⟩ := forall_mem_cons.1 hseparated
    rw [map_cons, cons_append, getenvLoop, read_of_live hp, Table.row_cons, update_apply]
    dsimp only
    by_cases hname : name = p.name
    · rw [if_pos ⟨hp', hname.symm⟩, if_pos hname]
      rfl
    · rw [if_neg fun h => hname h.2.symm, if_neg hname, ih hlive hseparated]

theorem getenv_items (hitems : s.env.items = entries.map some ++ [none])
    (hlive : AllLive hz s.allocatedEnv entries) (hseparated : ∀ p ∈ entries, separator ∈ p.text)
    (name : CString) :
    getenv hz s name = .ok ((Table.row Ptr.name entries name).map Ptr.value) := by
  rw [getenv, hitems, if_neg (append_ne_nil_of_right_ne_nil _ (cons_ne_nil _ _)),
    getenvLoop_eq hlive hseparated]

end Entries

/-! ### The map that the environment stands for -/

/-- A map from names to values. -/
abbrev Contents := CString → Option CString

/-- What a call that succeeds does to the map. -/
def Call.apply (m : Contents) : Call → Contents
  | .setenv none _ _ => m
  | .setenv (some name) value overwrite =>
    if overwrite ∨ m name = none then Function.update m name (some value) else m
  | .putenv string =>
    if separator ∈ string then Function.update m (nameOf string) (some (valueOf string))
    else Function.update m string none
  | .unsetenv none => m
  | .unsetenv (some name) => Function.update m name none
  | .clearenv => fun _ => none

/-- The arguments are such that the call succeeds. -/
def Call.Accepted : Call → Prop
  | .setenv name _ _ => ∃ n, name = some n ∧ IsName n
  | .putenv string => separator ∈ string ∨ IsName string
  | .unsetenv name => ∃ n, name = some n ∧ IsName n
  | .clearenv => True

section Represents

variable {M : Type} (hz : Hz M)

/-- The state stands for the map. -/
def Represents (s : State M) (m : Contents) : Prop :=
  ∃ entries, HasEntries s entries ∧ AllLive hz s.allocatedEnv entries ∧
    ∀ name, (Table.row Ptr.name entries name).map Ptr.value = m name

variable {hz} {s : State M} {m : Contents}

theorem getenv_eq (h : Represents hz s m) (name : CString) : getenv hz s name = .ok (m name) := by
  obtain ⟨entries, hentries, hlive, hrow⟩ := h
  rw [getenv_items hentries.items hlive hentries.separated, hrow]

section

variable {entries : List Ptr}
  (hrow : ∀ name, (Table.row Ptr.name entries name).map Ptr.value = m name)
include hrow

theorem represents_update {s' : State M} {entries' : List Ptr} {name : CString} {p : Option Ptr}
    (hrow' : Table.row Ptr.name entries' = update (Table.row Ptr.name entries) name p)
    (hentries : HasEntries s' entries') (hlive : AllLive hz s'.allocatedEnv entries') :
    Represents hz s' (update m name (p.map Ptr.value)) := by
  refine ⟨entries', hentries, hlive, fun other => ?_⟩
  rw [hrow', update_apply, update_apply]
  split
  · rfl
  · exact hrow other

/-- The map has no value exactly where there is no entry. -/
theorem contents_eq_none_iff {name : CString} : m name = none ↔ name ∉ entries.map Ptr.name := by
  rw [← hrow, Option.map_eq_none_iff, Table.row_eq_none_iff]

end

/-! ### One call -/

theorem clearenv_represents (s : State M) : Represents hz (clearenv hz s) fun _ => none := by
  refine ⟨[], ⟨pushBack_items _ _, rfl, ?_, nodup_nil⟩, ?_, fun _ => rfl⟩
  all_goals exact fun _ h => absurd h not_mem_nil

section

variable (h : Represents hz s m)
include h

/-- A string is put in the place of the one with its name, or at the end. -/
theorem store_represents {t : State M} {p : Ptr} (henv : t.env = s.env)
    (henviron : t.environ = s.environ)
    (halive : ∀ q : Ptr, q.Live hz s.allocatedEnv → q.name ≠ p.name → q.Live hz t.allocatedEnv)
    (hp : p.Live hz t.allocatedEnv) (hseparated : separator ∈ p.text) :
    (∃ i, find hz s p.name = .ok (some i) ∧ m p.name ≠ none ∧
        Represents hz (replace t i p) (update m p.name (some p.value))) ∨
      find hz s p.name = .ok none ∧ m p.name = none ∧
        Represents hz (append hz t p) (update m p.name (some p.value)) := by
  obtain ⟨entries, hentries, hlive, hrow⟩ := h
  have hentries' : HasEntries t entries :=
    ⟨henv ▸ hentries.items, by rw [henviron, henv, hentries.environ], hentries.separated,
      hentries.distinct⟩
  rw [Ne, contents_eq_none_iff hrow, not_not]
  rcases find_cases hentries hlive p.name with ⟨hfind, hnew⟩ | ⟨i, hi, hfind, hi'⟩
  · refine .inr ⟨hfind, hnew, represents_update hrow (Table.row_append hentries.distinct hnew)
      (hasEntries_append hentries' hseparated hnew) ?_⟩
    rw [append_allocatedEnv]
    refine allLive_append (fun q hq => halive q (hlive q hq) fun heq => hnew ?_) hp
    exact heq ▸ mem_map_of_mem hq
  · refine .inl ⟨i, hfind, hi' ▸ mem_map_of_mem (getElem_mem hi), represents_update hrow
      (Table.row_set hentries.distinct hi hi'.symm)
      (hasEntries_replace hentries' hi hseparated hi'.symm) (allLive_set hi (fun q hq => ?_) hp)⟩
    exact halive q (hlive q (mem_of_mem_eraseIdx hq))
      (hi' ▸ name_ne_of_mem_eraseIdx hentries hi hq)

theorem setenv_represents {name : CString} (hname : IsName name)
    (value : CString) (overwrite : Bool) :
    ∃ s', setenv hz s (some name) value overwrite = .ok s' ∧
      Represents hz s' (Call.apply m (.setenv (some name) value overwrite)) := by
  have hname' : (newString s name value).name = name := nameOf_eq name value hname.2
  have hvalue : (newString s name value).value = value := valueOf_eq name value hname.2
  have hstore := store_represents h (t := allocate hz s name) rfl rfl
    (fun _ hq hne => hq.insert (hname' ▸ hne)) ⟨hz.holds_insert _ _ _, hname'⟩
    (mem_append_right _ mem_cons_self)
  rw [hname', hvalue] at hstore
  simp only [setenv, checkName_of_isName hname, Call.apply]
  rcases hstore with ⟨i, hfind, hsome, hresult⟩ | ⟨hfind, hnone, hresult⟩
  · rw [hfind]
    cases overwrite with
    | false =>
      rw [if_neg (by simpa using hsome)]
      exact ⟨s, rfl, h⟩
    | true => exact ⟨_, rfl, hresult⟩
  · rw [hfind, if_pos (.inr hnone)]
    exact ⟨_, rfl, hresult⟩

theorem unsetenv_represents {name : CString} (hname : IsName name) :
    ∃ s', unsetenv hz s (some name) = .ok s' ∧
      Represents hz s' (update m name none) := by
  have h' := h
  obtain ⟨entries, hentries, hlive, hrow⟩ := h
  simp only [unsetenv, checkName_of_isName hname]
  rcases find_cases hentries hlive name with ⟨hfind, hnew⟩ | ⟨i, hi, hfind, hi'⟩
  · rw [hfind, ← (contents_eq_none_iff hrow).2 hnew, update_eq_self]
    exact ⟨s, rfl, h'⟩
  · obtain ⟨s', hremove, hallocated, henviron, hitems⟩ := removeEntry_eq hentries.items hi name
    have hmem (p : Ptr) (hp : p ∈ Table.swapRemove entries i) : p ∈ entries.eraseIdx i :=
      (Table.swapRemove_perm hi).mem_iff.1 hp
    have halive : AllLive hz s'.allocatedEnv (Table.swapRemove entries i) := by
      rw [hallocated]
      intro p hp
      refine (hlive p (mem_of_mem_eraseIdx (hmem p hp))).remove ?_
      exact hi' ▸ name_ne_of_mem_eraseIdx hentries hi (hmem p hp)
    have hresult := represents_update hrow (Table.row_swapRemove hentries.distinct hi)
      ⟨hitems, henviron, fun p hp => hentries.separated p (mem_of_mem_eraseIdx (hmem p hp)),
        Table.nodup_swapRemove hentries.distinct hi⟩ halive
    rw [hi'] at hresult
    rw [hfind]
    exact ⟨s', hremove, hresult⟩

theorem putenv_represents {string : CString} (hstring : separator ∈ string) :
    ∃ s', putenv hz s string = .ok s' ∧
      Represents hz s' (update m (nameOf string) (some (valueOf string))) := by
  rw [putenv, if_neg (not_not_intro hstring)]
  obtain ⟨i, hfind, -, hresult⟩ | ⟨hfind, -, hresult⟩ :=
    store_represents h (t := s) (p := .caller string) rfl rfl (fun _ hq _ => hq) trivial hstring
  · rw [Ptr.name, Ptr.text] at hfind
    rw [hfind]
    exact ⟨_, rfl, hresult⟩
  · rw [Ptr.name, Ptr.text] at hfind
    rw [hfind]
    exact ⟨_, rfl, hresult⟩

theorem step_represents {call : Call} (haccepted : call.Accepted) :
    ∃ s', step hz s call = .ok s' ∧ Represents hz s' (call.apply m) := by
  cases call with
  | setenv name value overwrite =>
    obtain ⟨name, rfl, hname⟩ := haccepted
    exact setenv_represents h hname value overwrite
  | putenv string =>
    by_cases hstring : separator ∈ string
    · rw [Call.apply, if_pos hstring]
      exact putenv_represents h hstring
    · have hname : IsName string := haccepted.resolve_left hstring
      rw [Call.apply, if_neg hstring, step, putenv, if_pos hstring]
      exact unsetenv_represents h hname
  | unsetenv name =>
    obtain ⟨name, rfl, hname⟩ := haccepted
    exact unsetenv_represents h hname
  | clearenv => exact ⟨_, rfl, clearenv_represents s⟩

end

/-- Any other call fails before it changes anything. -/
theorem step_of_not_accepted (s : State M) {call : Call} (h : ¬ call.Accepted) :
    step hz s call = .error .einval := by
  cases call with
  | setenv name value overwrite => rw [step, setenv, checkName_of_not h]
  | putenv string =>
    obtain ⟨hstring, hname⟩ := not_or.1 h
    have hnone : ¬ ∃ n, some string = some n ∧ IsName n := by
      rintro ⟨_, ⟨⟩, hname'⟩
      exact hname hname'
    rw [step, putenv, if_pos hstring, unsetenv, checkName_of_not hnone]
  | unsetenv name => rw [step, unsetenv, checkName_of_not h]
  | clearenv => exact absurd trivial h

/-! ### From the start on -/

variable (hz) in
theorem foldl_pushBack (strings : List CString) (s : State M) :
    (strings.foldl (fun s string => pushBack hz s (some (.caller string))) s).env.items =
      s.env.items ++ strings.map (fun string => some (.caller string)) := by
  induction strings generalizing s with
  | nil => exact (append_nil _).symm
  | cons string strings ih =>
    rw [foldl_cons, ih, pushBack_items, append_assoc]
    rfl

/-- The map that the strings at the start stand for. -/
def startContents (strings : List CString) : Contents :=
  fun name => (Table.row nameOf strings name).map valueOf

theorem envInit_represents {strings : List CString}
    (hseparated : ∀ string ∈ strings, separator ∈ string) (hdistinct : (strings.map nameOf).Nodup) :
    Represents hz (envInit hz strings) (startContents strings) := by
  have hitems := foldl_pushBack hz strings ⟨⟨0, 0, []⟩, 0, hz.empty, 1⟩
  refine ⟨strings.map .caller, ⟨?_, rfl, ?_, ?_⟩, ?_, fun name => ?_⟩
  · rw [envInit]
    rw [pushBack_items, hitems, map_map]
    rfl
  · exact forall_mem_map.2 hseparated
  · rw [map_map]
    exact hdistinct
  · exact forall_mem_map.2 fun _ _ => trivial
  · rw [Table.row, List.find?_map, Option.map_map]
    rfl

/-- What a sequence of calls does to the map. -/
def contentsAfter (m : Contents) (calls : List Call) : Contents := calls.foldl Call.apply m

theorem run_represents (h : Represents hz s m) {calls : List Call}
    (haccepted : ∀ call ∈ calls, call.Accepted) :
    ∃ s', run hz s calls = .ok s' ∧ Represents hz s' (contentsAfter m calls) := by
  induction calls generalizing s m with
  | nil => exact ⟨s, rfl, h⟩
  | cons call calls ih =>
    obtain ⟨hcall, hcalls⟩ := forall_mem_cons.1 haccepted
    obtain ⟨s', hstep, h'⟩ := step_represents h hcall
    rw [run, hstep]
    exact ih h' hcalls

/-- Calls that all succeed are accepted ones. -/
theorem accepted_of_run {calls : List Call} {s' : State M} (h : run hz s calls = .ok s') :
    ∀ call ∈ calls, call.Accepted := by
  induction calls generalizing s with
  | nil => exact fun _ h => absurd h not_mem_nil
  | cons call calls ih =>
    rw [run] at h
    rcases hstep : step hz s call with e | s₁
    · rw [hstep] at h
      cases h
    · rw [hstep] at h
      refine forall_mem_cons.2 ⟨?_, ih h⟩
      by_contra hnot
      rw [step_of_not_accepted s hnot] at hstep
      cases hstep

end Represents

/-- After any calls that succeed, `getenv` returns what was set last, and
`environ` is an array of strings with distinct names and a null pointer after
the last one. -/
theorem run_refines {M : Type} (hz : Hz M) (strings : List CString)
    (hseparated : ∀ string ∈ strings, separator ∈ string)
    (hdistinct : (strings.map nameOf).Nodup) (calls : List Call) :
    ((∀ call ∈ calls, call.Accepted) → ∃ s, run hz (envInit hz strings) calls = .ok s) ∧
      ∀ s, run hz (envInit hz strings) calls = .ok s →
        (∀ name, getenv hz s name =
          .ok (contentsAfter (startContents strings) calls name)) ∧
        ∃ entries : List Ptr, environArray s = some (entries.map some ++ [none]) ∧
          (∀ p ∈ entries, read hz s.allocatedEnv (some p) = .ok p.text) ∧
          (entries.map Ptr.name).Nodup := by
  have hstart : Represents hz (envInit hz strings) (startContents strings) :=
    envInit_represents hseparated hdistinct
  constructor
  · intro haccepted
    obtain ⟨s, hrun, -⟩ := run_represents hstart haccepted
    exact ⟨s, hrun⟩
  · intro s hrun
    obtain ⟨s', hrun', hs⟩ := run_represents hstart (accepted_of_run hrun)
    cases hrun.symm.trans hrun'
    refine ⟨getenv_eq hs, ?_⟩
    obtain ⟨entries, hentries, hlive, -⟩ := hs
    refine ⟨entries, ?_, fun p hp => read_of_live (hlive p hp), hentries.distinct⟩
    rw [environArray, if_pos hentries.environ, hentries.items]

/-- Containers as assumed: a map that replaces, and a vector that doubles. -/
def replacing : Hz (CString → Option ℕ) where
  empty := fun _ => none
  insert m name block := Function.update m name (some block)
  remove m name := Function.update m name none
  holds m name block := m name == some block
  holds_insert := by simp
  holds_insert_of_ne := by simp +contextual [update_of_ne]
  holds_remove_of_ne := by simp +contextual [update_of_ne]
  grow n := 2 * n + 1

/-- Calls that add variables, replace one that `setenv` has made by each of the two
functions, keep one and remove one. -/
def someCalls : List Call :=
  [.setenv (some ['C']) ['2'] false, .setenv (some ['C']) ['4'] true,
    .setenv (some ['D']) ['5'] false, .putenv ['D', '=', '='],
    .setenv (some ['A']) ['3'] false, .unsetenv (some ['B'])]

theorem run_refines_someCalls :
    ∃ s, run replacing (envInit replacing [['A', '=', '1'], ['B', '=']]) someCalls = .ok s ∧
      getenv replacing s ['A'] = .ok (some ['1']) ∧ getenv replacing s ['B'] = .ok none ∧
      getenv replacing s ['C'] = .ok (some ['4']) ∧
      getenv replacing s ['D'] = .ok (some ['=']) := by
  obtain ⟨hruns, hrefines⟩ := run_refines replacing [['A', '=', '1'], ['B', '=']] (by decide)
    (by decide) someCalls
  have haccepted : ∀ call ∈ someCalls, call.Accepted := by
    simp [someCalls, Call.Accepted, IsName, separator]
  obtain ⟨s, hs⟩ := hruns haccepted
  obtain ⟨hgetenv, -⟩ := hrefines s hs
  exact ⟨s, hs, hgetenv _, hgetenv _, hgetenv _, hgetenv _⟩

end Hzlibc.Environ
