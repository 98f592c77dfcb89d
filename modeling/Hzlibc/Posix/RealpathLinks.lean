import Hzlibc.Posix.RealpathClear

/-!
`realpath` on paths that may meet links.

At the first link the target is put into a buffer that was never written to, with
no zero behind it. What is read from there ends at the first zero that happens to
be in the buffer.
-/

namespace Hzlibc.Realpath

open List

open Stdio (Byte)
open Hzlibc.Path (Component Kind Tree step navigate)

variable {s : System} {p node : List CString}

theorem movesAtRoot_nil_iff (cs : List (Component CString)) :
    movesAtRoot [] cs = false ↔ ∀ c ∈ cs, c = .here := by
  induction cs with
  | nil => simp [movesAtRoot]
  | cons c cs ih =>
    rw [movesAtRoot, Bool.or_eq_false_iff]
    by_cases hc : c = .here
    · rw [hc, step, ih]
      simp
    · simp [hc]

theorem navigate_here {cs : List (Component CString)} (h : ∀ c ∈ cs, c = .here) :
    navigate p cs = p := by
  induction cs with
  | nil => rfl
  | cons c cs ih =>
    obtain ⟨rfl, hcs⟩ := forall_mem_cons.mp h
    exact ih hcs

variable {name target path : CString} {linkBuf : List Byte}

/-- Reading the target of a link, in a buffer without a zero. -/
theorem parseName_link {extra : Bool} (hp : s.tree.Plain p)
    (hkind : s.tree.kind (p ++ [name]) = some (.link target)) (hzero : 0 ∉ linkBuf) :
    parseName s ⟨text extra p, [], linkBuf⟩ name = .error .fault := by
  obtain ⟨hspells, hstat⟩ := stat_text extra hp hkind
  have hread : readlinkat s (appendComponent (text extra p) name) linkBuf =
      .ok (target.take linkBuf.length ++ linkBuf.drop target.length) := by
    rw [readlinkat, s.readlink_spells _ _ target hspells hkind]
  have hbuf : 0 ∉ target.take linkBuf.length ++ linkBuf.drop target.length := by
    rw [mem_append, not_or]
    exact ⟨fun h => s.target_ne_zero _ target hkind (mem_of_mem_take h),
      fun h => hzero (mem_of_mem_drop h)⟩
  rw [parseName]
  rw [hstat, hread]
  show (bufText _ >>= fun _ => _) = _
  rw [bufText, if_neg (by simpa using hbuf)]
  rfl

section

variable (habs : path.head? = some slash)
include habs

theorem ne_nil_of_absolute : path ≠ [] := by
  rintro rfl
  cases habs

theorem realpath_error {fuel : ℕ} {stop : Stop}
    (h : pathLoop s fuel (path.splitOn slash) ⟨[slash], [], linkBuf⟩ = .error stop) :
    realpath s fuel linkBuf (some path) = .error stop := by
  rw [realpath, if_neg (ne_nil_of_absolute habs), startText, if_pos habs]
  show (pathLoop s fuel _ ⟨[slash], [], linkBuf⟩ >>= fun _ => _) = _
  rw [h]
  rfl

/-- A resolution that meets a link reads outside of a buffer without a zero. -/
theorem realpath_fault {fuel : ℕ} {before after : List (Component CString)}
    (hsplit : components path = before ++ .down name :: after) (hclear : s.tree.Clear [] before)
    (hkind : s.tree.kind (navigate [] before ++ [name]) = some (.link target)) (hzero : 0 ∉ linkBuf)
    : realpath s fuel linkBuf (some path) = .error .fault := by
  obtain ⟨first, rest, hpath, rfl, hrest⟩ := map_eq_append_iff.mp hsplit
  obtain ⟨component, last, rfl, hread, -⟩ := map_eq_cons_iff.mp hrest
  have hslash : ∀ part ∈ first ++ component :: last, slash ∉ part := by
    intro part hpart
    rw [← hpath] at hpart
    exact Separated.not_mem_of_mem_splitOn hpart
  have hloop := pathLoop_clear fuel true linkBuf (component :: last)
    (fun part h => hslash part (mem_append_left _ h)) Path.Tree.plain_root hclear
  have hplain := Path.Tree.plain_navigate Path.Tree.plain_root hclear
  rw [pathLoop, (parseComponent_down (hslash component (by simp)) hread).2,
    parseName_link hplain hkind hzero, ← hpath] at hloop
  exact realpath_error habs hloop

end

/-- From the root there is no way to another node without a move there. -/
theorem movesAtRoot_iff {cs : List (Component CString)} (hnode : node = navigate [] cs) :
    ((!movesAtRoot [] cs) = true ↔ node = []) ↔ (node = [] → ∀ c ∈ cs, c = .here) := by
  rw [Bool.not_eq_true', movesAtRoot_nil_iff]
  refine ⟨Iff.mpr, fun h => ⟨fun hhere => ?_, h⟩⟩
  rw [hnode, navigate_here hhere]

theorem realpath_clear_absolute (fuel : ℕ) (linkBuf : List Byte) (habs : path.head? = some slash)
    (hclear : s.tree.Clear [] (components path)) (hnode : node = navigate [] (components path)) :
    realpath s fuel linkBuf (some path) =
      let resolved := text (!movesAtRoot [] (components path)) node
      if resolved.length > PATH_MAX - 1 then .error (.errno ENAMETOOLONG) else .ok resolved := by
  have hstart : startNode s path = [] := if_pos habs
  rw [← hstart] at hclear hnode
  rw [realpath_clear (ne_nil_of_absolute habs) (absurd habs) hclear hnode, hstart]

/-- Whatever is left in the buffer, the path of the node comes out, exactly if the
path meets no link at all, and does nothing but stay when it ends at the root. -/
theorem realpath_links_iff (s : System) {path : CString} (habs : path.head? = some slash)
    {node : List CString} (hnode : Resolves s path node) :
    (∀ linkBuf : List Byte, linkBuf.length = PATH_MAX →
      ∃ fuel r, realpath s fuel linkBuf (some path) = .ok r ∧ r.head? = some slash ∧
        Resolves s r node ∧ s.tree.Clear [] (components r)) ↔
      s.tree.Clear [] (components path) ∧
        (node = [] → ∀ c ∈ components path, c = .here) ∧ (pathText node).length < PATH_MAX := by
  obtain ⟨budget, hwalk⟩ := hnode
  rw [startNode, if_pos habs] at hwalk
  rcases Path.Tree.walk_clear hwalk with ⟨hclear, heq⟩ | ⟨before, name, after, target, hsplit,
    hbefore, hlink⟩
  · have hplain : s.tree.Plain node := heq ▸ Path.Tree.plain_navigate Path.Tree.plain_root hclear
    rw [and_iff_right hclear]
    constructor
    · intro h
      obtain ⟨fuel, r, hr, hhead, -⟩ := h (List.replicate PATH_MAX 0) length_replicate
      rw [realpath_clear_absolute fuel _ habs hclear heq] at hr
      dsimp only at hr
      split at hr
      · cases hr
      next hlength =>
        cases hr
        -- at the root the text starts with a slash only if that was never taken away
        have hextra : node = [] → ∀ c ∈ components path, c = .here := by
          rintro rfl
          rw [← movesAtRoot_nil_iff]
          cases hmoves : movesAtRoot [] (components path) with
          | false => rfl
          | true =>
            rw [hmoves] at hhead
            cases hhead
        rw [text_eq_pathText ((movesAtRoot_iff heq).mpr hextra)] at hlength
        exact ⟨hextra, Nat.lt_of_le_sub_one (by decide) (Nat.not_lt.mp hlength)⟩
    · rintro ⟨hextra, hlength⟩ linkBuf -
      refine ⟨0, pathText node, ?_, head_pathText node, resolves_pathText hplain⟩
      rw [realpath_clear_absolute 0 linkBuf habs hclear heq,
        text_eq_pathText ((movesAtRoot_iff heq).mpr hextra)]
      exact if_neg (Nat.not_lt.mpr (Nat.le_sub_one_of_lt hlength))
  · -- nothing ends the target in a buffer without a zero
    refine iff_of_false ?_ ?_
    · intro h
      obtain ⟨fuel, r, hr, -⟩ := h (List.replicate PATH_MAX 1) length_replicate
      have hzero : (0 : Byte) ∉ List.replicate PATH_MAX 1 := fun hmem =>
        absurd (eq_of_mem_replicate hmem) (by decide)
      rw [realpath_fault habs hsplit hbefore hlink hzero] at hr
      cases hr
    · rintro ⟨hclear, -⟩
      rw [hsplit] at hclear
      exact Path.Tree.not_clear_of_link hlink hclear

/-- A directory `/d` with a file and a link to the directory by its absolute path. -/
def linkedDirectory : System :=
  System.ofEntries
    [([literal "d"], .directory), ([literal "d", literal "f"], .file),
      ([literal "d", literal "l"], .link (literal "/d"))]
    (by decide) [] rfl

theorem realpath_links_file :
    (literal "/d/./f").head? = some slash ∧
      Resolves linkedDirectory (literal "/d/./f") [literal "d", literal "f"] ∧
      ∀ linkBuf : List Byte, linkBuf.length = PATH_MAX →
        ∃ fuel r, realpath linkedDirectory fuel linkBuf (some (literal "/d/./f")) = .ok r ∧
          r.head? = some slash ∧ Resolves linkedDirectory r [literal "d", literal "f"] ∧
          linkedDirectory.tree.Clear [] (components r) :=
  ⟨rfl, ⟨0, rfl⟩, (realpath_links_iff linkedDirectory rfl ⟨0, rfl⟩).mpr (by decide)⟩

/-- The link leads to `/d`, but its target is put behind `/d`, and there is no
`/d/d`. The buffer is zero here, so that the target is read as it is. -/
theorem realpath_links_absolute :
    Resolves linkedDirectory (literal "/d/l") [literal "d"] ∧
      ∀ fuel r, realpath linkedDirectory fuel (List.replicate PATH_MAX 0)
        (some (literal "/d/l")) ≠ .ok r := by
  refine ⟨⟨1, rfl⟩, fun fuel r hr => ?_⟩
  have herror : realpath linkedDirectory fuel (List.replicate PATH_MAX 0) (some (literal "/d/l")) =
      .error (if fuel < 2 then .rounds else .errno ENOENT) := by
    set_option maxRecDepth 20000 in
    rcases fuel with _ | _ | fuel
    · rfl
    · rfl
    · rfl
  rw [herror] at hr
  cases hr

end Hzlibc.Realpath
