import Hzlibc.Posix.Realpath

/-!
`realpath` on paths that meet no link.

The text that is built is always that of the node reached so far, but for one slash
in front. It is there at the start, since `resolved` is `/` already when the current
directory is put behind it, and the first component read at the root takes it away,
whether it goes down or up. The root is written as that slash alone.
-/

namespace Hzlibc.Realpath

open List

open Stdio (Byte)
open Hzlibc.Path (Component Kind Tree step navigate)

/-! ### Texts of nodes -/

/-- The texts that the resolution goes through: those of the nodes, some of them
behind one more slash. -/
def text (extra : Bool) (p : List CString) : CString := (if extra then [slash] else []) ++ body p

theorem body_concat (p : List CString) (name : CString) :
    body (p ++ [name]) = body p ++ slash :: name := by
  simp [body]

theorem text_concat (extra : Bool) (p : List CString) (name : CString) :
    text extra (p ++ [name]) = text extra p ++ slash :: name := by
  rw [text, body_concat, ← append_assoc, text]

@[simp] theorem text_nil (extra : Bool) : text extra [] = if extra then [slash] else [] := by
  rw [text, body, flatMap_nil, append_nil]

theorem pathText_eq (p : List CString) : pathText p = text (p = []) p := by
  by_cases hp : p = []
  · rw [pathText, hp]
    rfl
  · rw [pathText, if_neg hp, text, if_neg (by simpa using hp), nil_append]

variable {extra : Bool} {name : CString} {st : State}

theorem text_eq_pathText {p : List CString} (h : extra = true ↔ p = []) :
    text extra p = pathText p := by
  have hextra : extra = decide (p = []) := by
    rw [Bool.eq_iff_iff, h, decide_eq_true_iff]
  rw [pathText_eq, hextra]

theorem cutLast_append {s : CString} (hname : slash ∉ name) : cutLast (s ++ slash :: name) = s := by
  have hdrop : (s ++ slash :: name).rdropWhile (· ≠ slash) = s ++ [slash] := by
    induction name using List.reverseRecOn with
    | nil => rw [rdropWhile_concat_neg _ _ _ (by simp)]
    | append_singleton name c ih =>
      rw [mem_append, not_or, mem_singleton] at hname
      have hassoc : s ++ slash :: (name ++ [c]) = s ++ slash :: name ++ [c] := by simp
      rw [hassoc, rdropWhile_concat_pos _ _ _ (by simpa using Ne.symm hname.2)]
      exact ih hname.1
  rw [cutLast, if_pos (by simp), hdrop, dropLast_concat]

theorem splitOn_append_body {first : CString} {p : List CString} (hfirst : slash ∉ first)
    (hp : ∀ name ∈ p, slash ∉ name) : (first ++ body p).splitOn slash = first :: p := by
  induction p generalizing first with
  | nil =>
    rw [body, flatMap_nil, append_nil]
    exact splitOn_eq_singleton hfirst
  | cons name p ih =>
    have hcons : first ++ body (name :: p) = first ++ slash :: (name ++ body p) := by
      simp [body]
    rw [hcons, splitOn_append_cons_self_of_not_mem hfirst]
    rw [ih (hp name mem_cons_self) fun other h => hp other (mem_cons_of_mem name h)]

/-- The component that the additional slash makes is empty. -/
theorem splitOn_text (extra : Bool) {p : List CString} (hp : ∀ name ∈ p, slash ∉ name) :
    (text extra p).splitOn slash = (if extra then [[]] else []) ++ [] :: p := by
  have hbody : (body p).splitOn slash = [] :: p := splitOn_append_body not_mem_nil hp
  cases extra with
  | false => exact hbody
  | true =>
    have hcons : text true p = [] ++ slash :: body p := rfl
    rw [hcons, splitOn_append_cons_self_of_not_mem not_mem_nil, hbody]
    rfl

theorem spells_text {p : List CString} (hne : p ≠ []) (hp : ∀ name ∈ p, IsName name) :
    Spells (text extra p) p := by
  have hfilter : p.filter (· ≠ []) = p := by
    rw [filter_eq_self]
    exact fun name hname => decide_eq_true (hp name hname).1
  refine ⟨?_, ?_⟩
  · obtain ⟨name, p, rfl⟩ := exists_cons_of_ne_nil hne
    cases extra <;> rfl
  · rw [splitOn_text _ fun name hname => (hp name hname).2.2.2]
    cases extra <;> simpa using hfilter

/-- Only the additional slash at the root is a slash at the end. -/
theorem getLast_text {p : List CString} (hp : ∀ name ∈ p, IsName name) :
    (text extra p).getLast? = some slash ↔ extra = true ∧ p = [] := by
  induction p using List.reverseRecOn with
  | nil => cases extra <;> simp
  | append_singleton p name _ =>
    obtain ⟨hne, -, -, hslash⟩ := hp name (by simp)
    obtain ⟨name, c, rfl⟩ := (eq_nil_or_concat name).resolve_left hne
    rw [concat_eq_append] at hslash ⊢
    have hconcat : text extra (p ++ [name ++ [c]]) = text extra p ++ slash :: name ++ [c] := by
      rw [text_concat]
      simp
    rw [hconcat, List.getLast?_concat]
    have hc : c ≠ slash := by
      rintro rfl
      exact hslash (by simp)
    simp [hc]

theorem appendComponent_text {p : List CString} (hp : ∀ name ∈ p, IsName name) (name : CString) :
    appendComponent (text extra p) name = text (extra && p ≠ []) (p ++ [name]) := by
  rw [appendComponent]
  by_cases hlast : extra = true ∧ p = []
  · obtain ⟨rfl, rfl⟩ := hlast
    simp [text, body]
  · rw [if_neg (mt (getLast_text hp).mp hlast)]
    have hextra : (extra && decide (p ≠ [])) = extra := by
      cases extra <;> simp_all
    rw [hextra, text_concat, append_assoc, singleton_append]

theorem cutLast_text {p : List CString} (hp : ∀ name ∈ p, IsName name) :
    cutLast (text extra p) = text (extra && p ≠ []) p.dropLast := by
  rcases eq_nil_or_concat p with rfl | ⟨q, name, rfl⟩
  · cases extra <;> rfl
  · rw [concat_eq_append] at hp ⊢
    rw [text_concat, cutLast_append (hp name (by simp)).2.2.2]
    simp

/-! ### Paths without links -/

/-- A component other than `.` is read at the root. -/
def movesAtRoot : List CString → List (Component CString) → Bool
  | _, [] => false
  | p, c :: cs => (p = [] && c ≠ .here) || movesAtRoot (step p c) cs

variable {s : System} {p node : List CString}

theorem isName_of_plain (h : s.tree.Plain p) : ∀ name ∈ p, IsName name := by
  intro name hname
  obtain ⟨before, after, rfl⟩ := append_of_mem hname
  have hcons : before ++ name :: after = before ++ [name] ++ after := by simp
  rw [hcons] at h
  obtain ⟨kind, hkind, -⟩ := Path.Tree.plain_of_append h
  exact s.isName before name (by rw [hkind]; rfl)

variable {component : CString} {linkBuf : List Byte}

theorem parseComponent_here (h : readComponent component = .here) :
    parseComponent s st component = .ok st := by
  rw [readComponent] at h
  rw [parseComponent]
  split at h
  next hhere => rw [if_pos (hhere.imp_right .inr)]
  · split at h <;> cases h

theorem parseComponent_up (h : readComponent component = .up) :
    parseComponent s st component = .ok { st with resolved := cutLast st.resolved } := by
  rw [readComponent] at h
  split at h
  · cases h
  split at h
  next hup =>
    rw [hup, parseComponent, if_neg (by decide), if_pos rfl]
  · cases h

theorem parseComponent_down (hslash : slash ∉ component) (h : readComponent component = .down name)
    : component = name ∧ parseComponent s st component = parseName s st name := by
  rw [readComponent] at h
  split at h
  · cases h
  split at h
  · cases h
  next hhere hup =>
    rw [not_or] at hhere
    cases h
    refine ⟨rfl, ?_⟩
    rw [parseComponent, if_neg, if_neg hup]
    rintro (hnil | rfl | hdot)
    · exact hhere.1 hnil
    · exact hslash mem_cons_self
    · exact hhere.2 hdot

theorem stat_text (extra : Bool) {kind : Kind CString} (hp : s.tree.Plain p)
    (hkind : s.tree.kind (p ++ [name]) = some kind) :
    Spells (appendComponent (text extra p) name) (p ++ [name]) ∧
      s.stat (appendComponent (text extra p) name) = .ok kind := by
  have hnames : ∀ other ∈ p ++ [name], IsName other := by
    intro other hother
    rcases mem_append.mp hother with hmem | hmem
    · exact isName_of_plain hp other hmem
    · rw [mem_singleton.mp hmem]
      exact s.isName p name (by rw [hkind]; rfl)
  have hspells : Spells (appendComponent (text extra p) name) (p ++ [name]) := by
    rw [appendComponent_text (isName_of_plain hp)]
    exact spells_text (by simp) hnames
  exact ⟨hspells, s.stat_spells _ _ kind hspells hkind⟩

theorem parseName_plain {link : CString} (hp : s.tree.Plain p) (hplain : s.tree.Plain (p ++ [name]))
    :
    parseName s ⟨text extra p, link, linkBuf⟩ name =
      .ok ⟨text (extra && p ≠ []) (p ++ [name]), link, linkBuf⟩ := by
  obtain ⟨kind, hkind, hno⟩ := hplain
  rw [parseName]
  rw [(stat_text extra hp hkind).2, appendComponent_text (isName_of_plain hp)]
  cases kind with
  | link target => exact absurd rfl (hno target)
  | file | directory => rfl

/-- One component on a clear path. -/
theorem parseComponent_clear {link : CString} (hslash : slash ∉ component) (hp : s.tree.Plain p)
    (hplain : ∀ name, readComponent component = .down name → s.tree.Plain (p ++ [name])) :
    parseComponent s ⟨text extra p, link, linkBuf⟩ component =
      .ok ⟨text (extra && !(p = [] && readComponent component ≠ .here))
        (step p (readComponent component)), link, linkBuf⟩ := by
  rcases hread : readComponent component with _ | _ | name
  · rw [parseComponent_here hread]
    simp [step]
  · rw [parseComponent_up hread, cutLast_text (isName_of_plain hp)]
    simp [step]
  · rw [(parseComponent_down hslash hread).2, parseName_plain hp (hplain name hread)]
    simp [step]

/-- The clear part of a path. -/
theorem pathLoop_clear (fuel : ℕ) (extra : Bool) (linkBuf : List Byte)
    {before : List CString} (after : List CString)
    (hslash : ∀ component ∈ before, slash ∉ component)
    (hp : s.tree.Plain p) (hclear : s.tree.Clear p (before.map readComponent)) :
    pathLoop s fuel (before ++ after) ⟨text extra p, [], linkBuf⟩ =
      pathLoop s fuel after ⟨text (extra && !movesAtRoot p (before.map readComponent))
        (navigate p (before.map readComponent)), [], linkBuf⟩ := by
  induction before generalizing p extra with
  | nil => simp [movesAtRoot, navigate]
  | cons component before ih =>
    have hstep : s.tree.Plain (step p (readComponent component)) := Path.Tree.plain_step hp hclear.1
    have hrest : ∀ other ∈ before, slash ∉ other :=
      fun other h => hslash other (mem_cons_of_mem component h)
    rw [cons_append, pathLoop, parseComponent_clear (hslash component mem_cons_self) hp hclear.1]
    refine Eq.trans (ih _ hrest hstep hclear.2) ?_
    rw [map_cons, movesAtRoot, Path.navigate_cons, Bool.not_or, Bool.and_assoc]

def startNode (s : System) (path : CString) : List CString :=
  if path.head? = some slash then [] else s.cwd

/-- The resolution of the path by the kernel. -/
def Resolves (s : System) (path : CString) (node : List CString) : Prop :=
  ∃ budget, s.tree.walk readTarget budget (startNode s path) (components path) = some node

theorem plain_startNode (path : CString) : s.tree.Plain (startNode s path) := by
  rw [startNode]
  split
  · exact Path.Tree.plain_root
  · exact ⟨.directory, s.cwd_directory, by simp⟩

variable {path : CString}

/-- Every resolution starts with a slash too many. -/
theorem startText_eq (hfits : path.head? ≠ some slash → (pathText s.cwd).length < PATH_MAX) :
    startText s path = .ok (text true (startNode s path)) := by
  rw [startText, startNode]
  by_cases habs : path.head? = some slash
  · rw [if_pos habs, if_pos habs]
    rfl
  · rw [if_neg habs, if_neg habs, s.getcwd_fits PATH_MAX (hfits habs)]
    have hnames := isName_of_plain ⟨.directory, s.cwd_directory, by simp⟩
    by_cases hcwd : s.cwd = []
    · rw [hcwd]
      rfl
    · have htext : slash :: pathText s.cwd = text true s.cwd := by
        rw [pathText, if_neg hcwd]
        rfl
      have hlast : (text true s.cwd).getLast? ≠ some slash :=
        mt (getLast_text hnames).mp fun h => hcwd h.2
      simp [sys, bind, Except.bind, pure, Except.pure, htext, hlast]

theorem startText_error (h : ∃ _ : path.head? ≠ some slash, ¬ (pathText s.cwd).length < PATH_MAX) :
    ∃ stop, startText s path = .error stop := by
  obtain ⟨habs, hlong⟩ := h
  obtain ⟨err, herr⟩ := s.getcwd_range PATH_MAX (Nat.not_lt.mp hlong)
  refine ⟨.errno err, ?_⟩
  rw [startText, if_neg habs, herr]
  rfl

/-- A path without links: the text is that of the node, but for a slash in front. -/
theorem realpath_clear {fuel : ℕ} (hpath : path ≠ [])
    (hfits : path.head? ≠ some slash → (pathText s.cwd).length < PATH_MAX)
    (hclear : s.tree.Clear (startNode s path) (components path))
    (hnode : node = navigate (startNode s path) (components path)) :
    realpath s fuel linkBuf (some path) =
      let resolved := text (!movesAtRoot (startNode s path) (components path)) node
      if resolved.length > PATH_MAX - 1 then .error (.errno ENAMETOOLONG) else .ok resolved := by
  have hloop := pathLoop_clear fuel true linkBuf [] (fun _ h => Separated.not_mem_of_mem_splitOn h)
    (plain_startNode path) hclear
  rw [append_nil] at hloop
  rw [realpath, if_neg hpath, startText_eq hfits, hnode]
  show (pathLoop s fuel (path.splitOn slash) ⟨text true (startNode s path), [], linkBuf⟩ >>=
    fun st => _) = _
  rw [hloop]
  rfl

/-! ### The canonical path -/

structure IsCanonical (s : System) (r : CString) (node : List CString) : Prop where
  absolute : r.head? = some slash
  no_trailing : r = [slash] ∨ r.getLast? ≠ some slash
  /-- The first component is the empty one before the first slash. -/
  proper : r = [slash] ∨ ∀ c ∈ (r.splitOn slash).tail, c ≠ [] ∧ c ≠ dot ∧ c ≠ dotDot
  sameNode : Resolves s r node

theorem readComponent_name (h : IsName name) : readComponent name = .down name := by
  rw [readComponent, if_neg (by simp [h.1, h.2.1]), if_neg h.2.2.1]

theorem components_text (extra : Bool) (hp : ∀ name ∈ p, IsName name) :
    components (text extra p) = (if extra then [.here] else []) ++ .here :: p.map .down := by
  have hmap : p.map readComponent = p.map .down :=
    map_congr_left fun name hname => readComponent_name (hp name hname)
  rw [components, splitOn_text _ fun name hname => (hp name hname).2.2.2, map_append,
    map_cons, hmap]
  cases extra <;> rfl

theorem head_pathText (p : List CString) : (pathText p).head? = some slash := by
  cases p <;> rfl

section

variable (hnode : s.tree.Plain node)
include hnode

/-- The text of a node that is there leads to it, past no link. -/
theorem resolves_pathText :
    Resolves s (pathText node) node ∧ s.tree.Clear [] (components (pathText node)) := by
  obtain ⟨hclear, hwalk⟩ : s.tree.Clear [] (node.map .down) ∧
      s.tree.walk readTarget 0 [] (node.map .down) = some node := Path.Tree.clear_downs hnode
  have hcomponents := components_text (node = []) (isName_of_plain hnode)
  rw [← pathText_eq] at hcomponents
  rw [Resolves, startNode, if_pos (head_pathText node), hcomponents]
  split
  · refine ⟨⟨0, ?_⟩, Path.Tree.clear_here (Path.Tree.clear_here hclear)⟩
    rw [singleton_append, Path.Tree.walk_here s.tree.root, Path.Tree.walk_here s.tree.root, hwalk]
  · refine ⟨⟨0, ?_⟩, Path.Tree.clear_here hclear⟩
    rw [nil_append, Path.Tree.walk_here s.tree.root, hwalk]

theorem isCanonical_pathText : IsCanonical s (pathText node) node := by
  have hnames := isName_of_plain hnode
  refine ⟨head_pathText node, ?_, ?_, (resolves_pathText hnode).1⟩
  · by_cases hroot : node = []
    · exact .inl (by rw [hroot]; rfl)
    · refine .inr fun hlast => hroot ?_
      rw [pathText_eq, getLast_text hnames] at hlast
      exact hlast.2
  · by_cases hroot : node = []
    · exact .inl (by rw [hroot]; rfl)
    · refine .inr ?_
      rw [pathText_eq, splitOn_text _ fun name hname => (hnames name hname).2.2.2]
      intro name hname
      have hmem : name ∈ node := by simpa [hroot] using hname
      exact ⟨(hnames name hmem).1, (hnames name hmem).2.1, (hnames name hmem).2.2.1⟩

/-- The text is canonical only with as many slashes in front as the path has. -/
theorem isCanonical_text_iff :
    IsCanonical s (text extra node) node ↔ (extra = true ↔ node = []) := by
  constructor
  · intro h
    cases extra with
    | false =>
      -- without a slash the root has an empty text
      refine iff_of_false Bool.false_ne_true ?_
      rintro rfl
      cases h.absolute
    | true =>
      -- the second slash makes an empty component
      refine iff_of_true rfl ?_
      rcases h.proper with hroot | hproper
      · have hbody : body node = [] := (List.cons.inj hroot).2
        cases node with
        | nil => rfl
        | cons name node => cases hbody
      · have hsplit := splitOn_text true
          fun name hname => (isName_of_plain hnode name hname).2.2.2
        rw [hsplit] at hproper
        exact absurd rfl (hproper [] (by simp)).1
  · intro h
    rw [text_eq_pathText h]
    exact isCanonical_pathText hnode

/-- The text at the end is returned if it fits, and is the right one only without a
slash too many. -/
theorem exists_fits_iff :
    (∃ r, (if (text extra node).length > PATH_MAX - 1 then .error (.errno ENAMETOOLONG)
        else .ok (text extra node) : Except Stop CString) = .ok r ∧ IsCanonical s r node) ↔
      (extra = true ↔ node = []) ∧ (pathText node).length < PATH_MAX := by
  constructor
  · rintro ⟨r, hr, hcanonical⟩
    split at hr
    · cases hr
    next hlength =>
      cases hr
      have hextra := (isCanonical_text_iff hnode).mp hcanonical
      rw [text_eq_pathText hextra] at hlength
      exact ⟨hextra, Nat.lt_of_le_sub_one (by decide) (Nat.not_lt.mp hlength)⟩
  · rintro ⟨hextra, hlength⟩
    refine ⟨pathText node, ?_, isCanonical_pathText hnode⟩
    rw [text_eq_pathText hextra, if_neg (Nat.not_lt.mpr (Nat.le_sub_one_of_lt hlength))]

end

/-- In a tree without links the canonical path comes out exactly when the path does
something at the root, unless it ends there, and the texts fit. -/
theorem realpath_canonical_iff (s : System)
    (hlinks : ∀ p target, s.tree.kind p ≠ some (.link target)) (fuel : ℕ) (linkBuf : List Byte)
    {path : CString} (hpath : path ≠ []) {node : List CString} (hnode : Resolves s path node) :
    (∃ r, realpath s fuel linkBuf (some path) = .ok r ∧ IsCanonical s r node) ↔
      (movesAtRoot (startNode s path) (components path) = true ↔ node ≠ []) ∧
        (pathText node).length < PATH_MAX ∧
        (path.head? ≠ some slash → (pathText s.cwd).length < PATH_MAX) := by
  obtain ⟨budget, hwalk⟩ := hnode
  rcases Path.Tree.walk_clear hwalk with ⟨hclear, heq⟩ | ⟨_, _, _, target, -, -, hlink⟩
  · have hplain : s.tree.Plain node := heq ▸ Path.Tree.plain_navigate (plain_startNode path) hclear
    by_cases hfits : path.head? ≠ some slash → (pathText s.cwd).length < PATH_MAX
    · rw [realpath_clear hpath hfits hclear heq, and_iff_left hfits]
      refine Iff.trans (exists_fits_iff hplain) ?_
      cases movesAtRoot (startNode s path) (components path) <;> simp
    · refine iff_of_false ?_ fun h => hfits h.2.2
      rintro ⟨r, hr, -⟩
      obtain ⟨stop, hstop⟩ := startText_error (not_forall.mp hfits)
      rw [realpath, if_neg hpath, hstop] at hr
      cases hr
  · exact absurd hlink (hlinks _ target)

/-- A directory `/a` and nothing else. -/
def oneDirectory : System :=
  System.ofEntries [([literal "a"], .directory)] (by decide) [literal "a"] rfl

theorem oneDirectory_no_link (p : List CString) (target : CString) :
    oneDirectory.tree.kind p ≠ some (.link target) := by
  intro h
  rcases kindOf_cases h with ⟨-, hdir⟩ | hmem
  · cases hdir
  · cases mem_singleton.mp hmem

theorem realpath_canonical_dotted :
    ∃ r, realpath oneDirectory 0 [] (some (literal "//./a/")) = .ok r ∧
      IsCanonical oneDirectory r [literal "a"] :=
  (realpath_canonical_iff oneDirectory oneDirectory_no_link 0 [] (by decide) ⟨0, rfl⟩).mpr
    (by decide)

/-- In the directory `/a` the path `.` becomes `//a`, and `/..` becomes the empty
string. -/
theorem realpath_not_canonical_dot :
    Resolves oneDirectory dot [literal "a"] ∧ Resolves oneDirectory (literal "/..") [] ∧
      realpath oneDirectory 0 (List.replicate PATH_MAX 0) (some dot) = .ok (literal "//a") ∧
      ¬ IsCanonical oneDirectory (literal "//a") [literal "a"] ∧
      realpath oneDirectory 0 (List.replicate PATH_MAX 0) (some (literal "/..")) = .ok [] ∧
      ¬ IsCanonical oneDirectory [] [] := by
  refine ⟨⟨0, rfl⟩, ⟨0, rfl⟩, rfl, ?_, rfl, ?_⟩
  · intro h
    exact absurd h.proper (by decide)
  · intro h
    exact absurd h.absolute (by decide)

end Hzlibc.Realpath
