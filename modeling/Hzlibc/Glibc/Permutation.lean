import Hzlibc.Glibc.Progress
import Mathlib.Data.List.Perm.Basic

/-!
When `getopt_long` permutes `argv` as it is meant to.

The meaning of a row of elements is given by `Parse`, which sorts them into
options and other elements: an error is reported once and the next letter or
element comes after it, and behind `--` there are no options. The loop agrees
with it only if there is nothing to permute: the elements that are no options
are copied over the options in front of them, `optind` is not moved back to the
copies unless they come last, and `--` is copied like any other element.
-/

namespace Hzlibc.GetoptLong

open Stdio (Byte signed)
open Getopt (hyphen colon question dashes)
open Calls List Nat

variable (a : Args)

/-- The report of an option that cannot be read. -/
def errorOf (element : CString) (i : ℕ) : Report :=
  if element.tail.head? = some hyphen then
    ⟨if (findLong (nameOf (element.drop 2)) a.longOpts 0).isNone then signed question
      else a.missing, none, none⟩
  else
    ⟨if (element.tail[i]?.bind a.kind).isNone then signed question else a.missing, none, none⟩

/-- The options among the elements, and the other elements, both in their
order. -/
inductive Parse : List CString → ℕ → List Report → List CString → Prop
  | nil (i : ℕ) : Parse [] i [] []
  | behind (rest : List CString) (i : ℕ) : Parse (dashes :: rest) i [] rest
  | other {element : CString} {rest others : List CString} {i : ℕ} {reports : List Report}
      (hne : element ≠ dashes) (hother : isOption element = false)
      (h : Parse rest i reports others) : Parse (element :: rest) i reports (element :: others)
  | option {args args' others : List CString} {i i' : ℕ} {r : Report} {reports : List Report}
      (hoption : readOption a args i = some (r, args', i'))
      (h : Parse args' i' reports others) : Parse args i (r :: reports) others
  | letter {element : CString} {rest others : List CString} {i : ℕ} {reports : List Report}
      (hoption : isOption element = true) (herror : readOption a (element :: rest) i = none)
      (hmore : element.tail.head? ≠ some hyphen ∧ follows element.tail i = true)
      (h : Parse (element :: rest) ((i + 1) % wrap) reports others) :
      Parse (element :: rest) i (errorOf a element i :: reports) others
  | element {element : CString} {rest others : List CString} {i : ℕ} {reports : List Report}
      (hoption : isOption element = true) (herror : readOption a (element :: rest) i = none)
      (hlast : ¬(element.tail.head? ≠ some hyphen ∧ follows element.tail i = true))
      (h : Parse rest 0 reports others) :
      Parse (element :: rest) i (errorOf a element i :: reports) others

/-- The calls report the options of the row. When they have come to an end `argv`
is a permutation of what it was, and the other elements are those from `optind`
on. -/
def Permutes (program : CString) (args : List CString) (s : State) : Prop :=
  ∃ trace s' reports others, Until (getoptLong a) (· = -1) s trace s' ∧
    Parse a args 0 reports others ∧ List.Forall₂ (Reported a) trace reports ∧
    (s'.argv.take a.argc).Perm ((program :: args).map some) ∧
    (s'.argv.take a.argc).drop s'.optind = others.map some

/-- There is nothing to permute: the row has only options, only other elements,
or it is not read on at the first of these and only such elements follow. With an
option whose value is `-1` the calls end too soon, unless it is the first thing
they come to behind a `--`. -/
def Sorted (args : List CString) : Prop :=
  ∃ reports others e, Reading a args 0 reports others e ∧
    match e with
    | .options => others = []
    | .trailing => reports = [] ∧ dashes ∉ others
    | .stopped left => ∀ element ∈ left, isOption element = false ∧ element ≠ dashes
    | .early left => reports = [] ∧ args = dashes :: left

variable {a}

theorem isOption_dashes : isOption dashes = false := by decide

variable {args left others rest others' : List CString} {i : ℕ} {reports reports' : List Report}
  {element program : CString} {e : End} {s s' : State}

theorem readOption_suffix {args' : List CString} {i' : ℕ} {r : Report}
    (h : readOption a args i = some (r, args', i')) : args' <:+ args := by
  cases args with
  | nil => cases h
  | cons element rest =>
    rcases readOption_cases h with ⟨hsuffix, -⟩ | ⟨rfl, -⟩
    · exact hsuffix.trans (suffix_cons _ _)
    · exact suffix_rfl

theorem Reading.stop_of_stopped (hread : Reading a args i reports others (.stopped left)) :
    a.stopOnNonOption = true := by
  generalize he : End.stopped left = e at hread
  induction hread with
  | done | trailing | early => cases he
  | stop hstop => exact hstop
  | skip _ _ _ _ ih | option _ _ _ ih => exact ih he

/-! ### Readings and the meaning of a row -/

/-- Elements that are no options are the other elements. -/
theorem Parse.of_others (i : ℕ) (h : ∀ element ∈ args, isOption element = false ∧ element ≠ dashes)
    : Parse a args i [] args := by
  induction args with
  | nil => exact .nil i
  | cons element rest ih =>
    obtain ⟨hother, hne⟩ := h element mem_cons_self
    exact .other hne hother (ih fun element' hmem => h element' (mem_cons_of_mem _ hmem))

theorem Parse.length_le (h : Parse a args i reports others) : others.length ≤ args.length := by
  induction h with
  | nil => exact le_refl _
  | behind => exact le_succ _
  | other _ _ _ ih => exact succ_le_succ ih
  | option hoption _ ih => exact ih.trans (readOption_suffix hoption).length_le
  | letter _ _ _ _ ih => exact ih
  | element _ _ _ _ ih => exact ih.trans (le_succ _)

theorem Parse.of_option {args' : List CString} {i' : ℕ} {r : Report}
    (hoption : readOption a args i = some (r, args', i')) (h : Parse a args i reports others) :
    ∃ reports', reports = r :: reports' ∧ Parse a args' i' reports' others := by
  cases h with
  | nil => cases hoption
  | behind =>
    cases isOption_dashes.symm.trans (isOption_of_readOption hoption)
  | other _ hother =>
    cases hother.symm.trans (isOption_of_readOption hoption)
  | option hoption' h =>
    rw [hoption] at hoption'
    cases hoption'
    exact ⟨_, rfl, h⟩
  | letter _ herror | element _ herror =>
    rw [hoption] at herror
    cases herror

theorem Parse.of_other (hne : element ≠ dashes) (hother : isOption element = false)
    (h : Parse a (element :: rest) i reports others) :
    ∃ others', others = element :: others' ∧ Parse a rest i reports others' := by
  cases h with
  | behind => exact absurd rfl hne
  | other _ _ h => exact ⟨_, rfl, h⟩
  | option hoption =>
    cases hother.symm.trans (isOption_of_readOption hoption)
  | letter hoption | element hoption =>
    cases hother.symm.trans hoption

theorem Parse.of_dashes (h : Parse a (dashes :: rest) i reports others) :
    reports = [] ∧ others = rest := by
  cases h with
  | behind => exact ⟨rfl, rfl⟩
  | other hne => exact absurd rfl hne
  | option hoption =>
    cases isOption_dashes.symm.trans (isOption_of_readOption hoption)
  | letter hoption | element hoption =>
    cases isOption_dashes.symm.trans hoption

theorem Parse.of_nil (h : Parse a [] i reports others) : reports = [] ∧ others = [] := by
  cases h with
  | nil => exact ⟨rfl, rfl⟩
  | option hoption => cases hoption

theorem Reading.left_suffix (hread : Reading a args i reports others e)
    (he : e = .early left ∨ e = .stopped left) : left <:+ args := by
  induction hread with
  | done | trailing => simp at he
  | stop =>
    rcases he with he | he <;> cases he
    exact suffix_rfl
  | skip _ _ _ _ ih => exact (ih he).trans (suffix_cons _ _)
  | option hoption _ _ ih => exact (ih he).trans (readOption_suffix hoption)
  | early hoption =>
    rcases he with he | he <;> cases he
    exact readOption_suffix hoption

/-- An option is not among the other elements. -/
theorem Parse.length_le_of_option (h : Parse a (element :: rest) i reports others)
    (hoption : isOption element = true) : others.length ≤ rest.length := by
  generalize hargs : element :: rest = args at h
  induction h with
  | nil => cases hargs
  | behind =>
    cases hargs
    cases hoption
  | other _ hother =>
    cases hargs
    rw [hoption] at hother
    cases hother
  | option hread h ih =>
    subst hargs
    rcases readOption_cases hread with ⟨hsuffix, -⟩ | ⟨rfl, -⟩
    · exact h.length_le.trans hsuffix.length_le
    · exact ih rfl
  | letter _ _ _ _ ih => exact ih hargs
  | element _ _ _ h =>
    cases hargs
    exact h.length_le

/-- A row all of whose elements are left has no options. -/
theorem Parse.others_of_length_le (h : Parse a args i reports others)
    (hle : args.length ≤ others.length) :
    ∀ element ∈ args, isOption element = false ∧ element ≠ dashes := by
  induction args generalizing others with
  | nil => simp
  | cons element rest ih =>
    rw [length_cons] at hle
    cases hoption : isOption element with
    | true =>
      have := h.length_le_of_option hoption
      omega
    | false =>
      by_cases hne : element = dashes
      · subst hne
        obtain ⟨-, rfl⟩ := h.of_dashes
        omega
      · obtain ⟨others', rfl, hrest⟩ := h.of_other hne hoption
        intro element' hmem
        rcases mem_cons.mp hmem with rfl | hmem
        · exact ⟨hoption, hne⟩
        · exact ih hrest (le_of_succ_le_succ hle) element' hmem

section

variable (hread : Reading a args i reports others e)
include hread

/-- Without a `--` the reading sorts the elements as they are meant, as far as
it goes. -/
theorem Reading.parse (hparse : Parse a args i reports' others') (hdashes : dashes ∉ others) :
    match e with
    | .options => others' = others
    | .trailing => True
    | .stopped left => ∃ i' more, Parse a left i' more others'
    | .early _ => reports.length < reports'.length := by
  induction hread generalizing reports' others' with
  | done => exact hparse.of_nil.2
  | stop => exact ⟨_, _, hparse⟩
  | trailing => trivial
  | @skip element rest others i reports e hstop hother _ hread ih =>
    have hne := ne_of_not_mem_cons hdashes
    obtain ⟨others', rfl, hrest⟩ := hparse.of_other (Ne.symm hne) hother
    have hsame := ih hrest (not_mem_of_not_mem_cons hdashes)
    cases e with
    | options => exact congrArg _ hsame
    | stopped left => cases hstop.symm.trans hread.stop_of_stopped
    | trailing | early left => exact hsame
  | @option args args' others i i' r reports e hoption _ _ ih =>
    obtain ⟨reports', rfl, hrest⟩ := hparse.of_option hoption
    have hsame := ih hrest hdashes
    cases e with
    | options | trailing | stopped left => exact hsame
    | early left => exact succ_lt_succ hsame
  | early hoption =>
    obtain ⟨reports', rfl, -⟩ := hparse.of_option hoption
    exact succ_pos _

/-- What is behind a `--` is meant to be left. -/
theorem Reading.length_of_dashes
    (hparse : Parse a args i reports' others') (hdashes : dashes ∈ others) :
    match e with
    | .options => 0 < others'.length
    | .trailing => others'.length < args.length
    | .stopped _ => False
    | .early left => left.length ≤ others'.length := by
  induction hread generalizing reports' others' with
  | done | stop | early => cases hdashes
  | trailing _ hother =>
    obtain rfl := mem_singleton.mp hdashes
    obtain ⟨-, rfl⟩ := hparse.of_dashes
    exact one_pos
  | @skip element rest others i reports e hstop hother hrest hread ih =>
    by_cases hne : element = dashes
    · subst hne
      obtain ⟨-, rfl⟩ := hparse.of_dashes
      cases e with
      | options => exact length_pos_iff.mpr hrest
      | trailing => exact lt_succ_self _
      | stopped left => cases hstop.symm.trans hread.stop_of_stopped
      | early left => exact (hread.left_suffix (.inl rfl)).length_le
    · obtain ⟨others', rfl, hparse'⟩ := hparse.of_other hne hother
      have hmem : dashes ∈ others := by
        rcases mem_cons.mp hdashes with heq | hmem
        · exact absurd heq.symm hne
        · exact hmem
      have hle := ih hparse' hmem
      cases e with
      | options => exact succ_pos _
      | trailing => exact succ_lt_succ hle
      | stopped left => exact hle
      | early left => exact hle.trans (le_succ _)
  | @option args args' others i i' r reports e hoption _ _ ih =>
    obtain ⟨reports', rfl, hparse'⟩ := hparse.of_option hoption
    have hle := ih hparse' hdashes
    cases e with
    | options | stopped left | early left => exact hle
    | trailing => exact lt_of_lt_of_le hle (readOption_suffix hoption).length_le

/-- A reading without a `--` gives the meaning of the row. -/
theorem Reading.to_parse (hdashes : dashes ∉ others) :
    match e with
    | .options | .trailing => Parse a args i reports others
    | .stopped left => (∀ element ∈ left, isOption element = false ∧ element ≠ dashes) →
        Parse a args i reports left
    | .early _ => True := by
  induction hread with
  | done => exact .nil _
  | stop => exact fun hleft => .of_others _ hleft
  | trailing _ hother =>
    exact .other (Ne.symm (ne_of_not_mem_cons hdashes)) hother (.nil _)
  | @skip element rest others i reports e hstop hother _ hread ih =>
    have hne := Ne.symm (ne_of_not_mem_cons hdashes)
    have hparse := ih (not_mem_of_not_mem_cons hdashes)
    cases e with
    | options | trailing => exact .other hne hother hparse
    | stopped left => cases hstop.symm.trans hread.stop_of_stopped
    | early left => trivial
  | @option args args' others i i' r reports e hoption _ _ ih =>
    have hparse := ih hdashes
    cases e with
    | options | trailing => exact .option hoption hparse
    | stopped left => exact fun hleft => .option hoption (hparse hleft)
    | early left => trivial
  | early => trivial

theorem Reading.isOption_others : ∀ element ∈ others, isOption element = false := by
  induction hread with
  | done | stop | early => simp
  | trailing _ hother => simpa using hother
  | skip _ hother _ _ ih => simpa using ⟨hother, ih⟩
  | option _ _ _ ih => exact ih

theorem Reading.others_length_le : others.length ≤ args.length := by
  induction hread with
  | done | stop | early => exact zero_le _
  | trailing => exact le_refl _
  | skip _ _ _ _ ih => exact succ_le_succ ih
  | option hoption _ _ ih => exact ih.trans (readOption_suffix hoption).length_le

omit hread in
theorem Reading.others_length_le_of_option (hread : Reading a (element :: rest) i reports others e)
    (hoption : isOption element = true) : others.length ≤ rest.length := by
  generalize hargs : element :: rest = args at hread
  induction hread with
  | done | stop | early => exact zero_le _
  | trailing _ hother | skip _ hother =>
    cases hargs
    rw [hoption] at hother
    cases hother
  | option hread _ hrest ih =>
    subst hargs
    rcases readOption_cases hread with ⟨hsuffix, -⟩ | ⟨rfl, -⟩
    · exact hrest.others_length_le.trans hsuffix.length_le
    · exact ih rfl

/-- If all the elements are copied, there was no option. -/
theorem Reading.reports_eq_nil (hle : args.length ≤ others.length) : reports = [] := by
  induction hread with
  | done | stop | trailing | early => rfl
  | skip _ _ _ _ ih => exact ih (le_of_succ_le_succ hle)
  | @option args args' others i i' r reports e hoption hvalue hread =>
    cases args with
    | nil => cases hoption
    | cons element rest =>
      have hall : Reading a (element :: rest) i (r :: reports) others e :=
        .option hoption hvalue hread
      have := hall.others_length_le_of_option (isOption_of_readOption hoption)
      rw [length_cons] at hle
      omega

end

theorem Reading.eq_others (hread : Reading a args i [] others .trailing) : others = args := by
  generalize hreports : ([] : List Report) = reports at hread
  generalize he : End.trailing = e at hread
  induction hread with
  | done | stop | early => cases he
  | trailing => rfl
  | skip _ _ _ _ ih => exact congrArg _ (ih hreports he)
  | option => cases hreports

/-! ### The copies -/

/-- As many elements as are copied are overwritten. -/
theorem copyRow_append (front tail : List (Option CString)) {middle : List (Option CString)}
    (h : middle.length = others.length) :
    copyRow (front ++ middle ++ tail) front.length others =
      front ++ others.map some ++ tail := by
  induction others generalizing front middle with
  | nil => simp [length_eq_zero_iff.mp h, copyRow]
  | cons element others ih =>
    cases middle with
    | nil => cases h
    | cons old middle =>
      have hset : (front ++ old :: middle ++ tail).set front.length (some element) =
          front ++ [some element] ++ middle ++ tail := by
        simp
      have hnext := ih (front ++ [some element]) (succ.inj h)
      rw [length_append, length_singleton] at hnext
      rw [copyRow, hset, hnext]
      simp

/-- The row at the end, if `others` have been copied behind the name of the
program. -/
theorem copyRow_args (h : others.length ≤ args.length) :
    copyRow ((program :: args).map some ++ [none]) 1 others =
      some program :: (others ++ args.drop others.length).map some ++ [none] := by
  have hsplit : (program :: args).map some ++ [none] =
      [some program] ++ (args.take others.length).map some ++
        ((args.drop others.length).map some ++ [none]) := by
    rw [← append_assoc, append_assoc [some program], ← map_append, take_append_drop]
    rfl
  rw [hsplit]
  refine (copyRow_append [some program] _ (by simp [h])).trans ?_
  simp

theorem take_row {n : ℕ} (hn : n = args.length + 1) :
    (some program :: args.map some ++ [none]).take n = (program :: args).map some := by
  have hlength : n = ((program :: args).map some).length := by simp [hn]
  rw [← map_cons, hlength, take_left]

/-- A permutation is left only if the copied elements were the first ones. -/
theorem perm_of_copyRow (hle : others.length ≤ args.length)
    (h : ((copyRow ((program :: args).map some ++ [none]) 1 others).take (args.length + 1)).Perm
      ((program :: args).map some)) : others.Perm (args.take others.length) := by
  have hlength : args.length + 1 = (others ++ args.drop others.length).length + 1 := by
    simp
    omega
  rw [copyRow_args hle, take_row hlength,
    map_perm_map_iff (Option.some_injective _), perm_cons] at h
  have hsplit := h.trans (List.Perm.of_eq (take_append_drop others.length args).symm)
  exact (perm_append_right_iff _).mp hsplit

/-! ### The end of the calls -/

/-- What the end of the calls says about the reading behind them. -/
theorem Start.reading {trace : List (ℤ × State)} (h : Start a program args s)
    (huntil : Until (getoptLong a) (· = -1) s trace s') :
    ∃ reports others e s₀, Reading a args 0 reports others e ∧
      List.Forall₂ (Reported a) trace reports ∧ Final a s₀ others s' e ∧
      s₀.argv = (program :: args).map some ++ [none] ∧ s₀.copyNonOptionPtr = 1 := by
  obtain ⟨s₀, hcall, hat, hnext, hargv, hcopy⟩ := h.exists_at
  have huntil₀ := huntil.of_call_eq hcall.symm
  obtain ⟨reports, others, e, hread⟩ := reading_of_until huntil₀ hat (hnext ▸ .start)
  rw [hnext] at hread
  obtain ⟨trace₁, s₁, huntil₁, hreported, hfinal⟩ := until_of_reading hread hat hnext .start
  obtain ⟨rfl, rfl⟩ := huntil₁.unique huntil₀
  exact ⟨reports, others, e, s₀, hread, hreported, hfinal, hargv.trans h.argv_eq, hcopy⟩

@[simp] theorem length_copyRow (argv : List (Option CString)) (k : ℕ) (others : List CString) :
    (copyRow argv k others).length = argv.length := by
  induction others generalizing argv k with
  | nil => rfl
  | cons element others ih => rw [copyRow, ih, length_set]

theorem Final.length_argv (h : Final a s others s' e) : s'.argv.length = s.argv.length := by
  cases e <;> simp only [Final] at h <;> rw [h.2] <;>
    simp

/-- An option whose value is `-1` behind a `--`: nothing has been lost only if
the row starts with these two. -/
theorem Reading.early_of_perm (hread : Reading a args 0 reports others (.early left))
    (hparse : Parse a args 0 reports' others') (hdashes : dashes ∈ others)
    (hperm : others.Perm (args.take others.length)) (hcount : reports.length = reports'.length)
    (hleft : others'.length = left.length) : reports = [] ∧ args = dashes :: left := by
  have hpos : 0 < others.length := length_pos_of_mem hdashes
  cases args with
  | nil =>
    have := hread.others_length_le
    rw [length_nil] at this
    omega
  | cons element rest =>
    have hmem : element ∈ others := by
      refine hperm.mem_iff.mpr ?_
      obtain ⟨n, hn⟩ := exists_eq_succ_of_ne_zero (ne_of_gt hpos)
      rw [hn]
      exact mem_cons_self
    have hother := hread.isOption_others element hmem
    by_cases hne : element = dashes
    · subst hne
      obtain ⟨rfl, rfl⟩ := hparse.of_dashes
      refine ⟨length_eq_zero_iff.mp hcount, congrArg _ ?_⟩
      rcases suffix_cons_iff.mp (hread.left_suffix (.inl rfl)) with heq | hsuffix
      · have := congrArg List.length heq
        rw [length_cons] at this
        omega
      · exact (hsuffix.eq_of_length hleft.symm).symm
    · -- the element is left as well, and there are too many of them
      obtain ⟨others', rfl, hparse'⟩ := hparse.of_other hne hother
      cases hread with
      | skip _ _ _ hread =>
        have hmem' : dashes ∈ _ := (mem_cons.mp hdashes).resolve_left (Ne.symm hne)
        have := hread.length_of_dashes hparse' hmem'
        rw [length_cons] at hleft
        omega
      | early => cases hdashes
      | option hoption =>
        cases hother.symm.trans (isOption_of_readOption hoption)

theorem Sorted.of_permutes (h : Start a program args s) (hperm : Permutes a program args s) :
    Sorted a args := by
  obtain ⟨trace, s', reports', others', huntil, hparse, hreported', hperm, hslice⟩ := hperm
  obtain ⟨reports, others, e, s₀, hread, hreported, hfinal, hargv, hcopy⟩ := h.reading huntil
  have hcount : reports.length = reports'.length :=
    hreported.length_eq.symm.trans hreported'.length_eq
  have hargc := h.argc_eq
  have hothers := hread.others_length_le
  have hlength : others'.length = a.argc - s'.optind := by
    have := congrArg List.length hslice
    rw [length_drop, length_take, hfinal.length_argv, hargv] at this
    simp at this
    omega
  refine ⟨reports, others, e, hread, ?_⟩
  cases e with
  | options =>
    obtain ⟨hind, -⟩ := hfinal
    by_cases hdashes : dashes ∈ others
    · have := hread.length_of_dashes hparse hdashes
      omega
    · have hsame : others' = others := hread.parse hparse hdashes
      exact length_eq_zero_iff.mp (by rw [← hsame]; omega)
  | trailing =>
    obtain ⟨hind, hrow⟩ := hfinal
    have hdashes : dashes ∉ others := by
      intro hdashes
      have := hread.length_of_dashes hparse hdashes
      omega
    refine ⟨hread.reports_eq_nil ?_, hdashes⟩
    -- otherwise there is a null pointer among the first elements
    by_contra hlt
    have hnull : none ∈ s'.argv.take a.argc := by
      refine mem_of_getElem? (i := 1 + others.length) ?_
      rw [List.getElem?_take_of_lt (by omega), hrow, hcopy, List.getElem?_set_self]
      rw [length_copyRow, hargv]
      simp
      omega
    simpa using hperm.mem_iff.mp hnull
  | stopped left =>
    obtain ⟨hind, -⟩ := hfinal
    by_cases hdashes : dashes ∈ others
    · exact absurd (hread.length_of_dashes hparse hdashes) id
    · obtain ⟨i', more, hleft⟩ := hread.parse hparse hdashes
      exact hleft.others_of_length_le (by omega)
  | early left =>
    obtain ⟨hind, hrow⟩ := hfinal
    by_cases hdashes : dashes ∈ others
    · rw [hrow, hargv, hcopy, hargc] at hperm
      have hfirst := perm_of_copyRow hothers hperm
      exact hread.early_of_perm hparse hdashes hfirst hcount (by omega)
    · have := hread.parse hparse hdashes
      omega

theorem Reading.others_of_stop (hread : Reading a args i reports others e)
    (hstop : a.stopOnNonOption = true) : others = [] := by
  induction hread with
  | done | stop | early => rfl
  | trailing hstop' | skip hstop' => cases hstop'.symm.trans hstop
  | option _ _ _ ih => exact ih

theorem Reading.eq_dashes (hread : Reading a (dashes :: left) 0 [] others (.early left)) :
    others = [dashes] := by
  cases hread with
  | skip _ _ _ hread =>
    cases hread with
    | skip _ _ _ hread =>
      have := (hread.left_suffix (.inl rfl)).length_le
      rw [length_cons] at this
      omega
    | early => rfl
  | early hoption =>
    cases isOption_dashes.symm.trans (isOption_of_readOption hoption)

theorem drop_row {k : ℕ} (h : left <:+ args) (hk : k + left.length = args.length + 1) :
    ((program :: args).map some).drop k = left.map some := by
  obtain ⟨front, rfl⟩ := h
  rw [length_append] at hk
  have hk' : k = ((program :: front).map some).length := by
    simp
    omega
  rw [hk', ← cons_append, map_append, drop_left]

/-- A row that is left as it is. -/
theorem Permutes.of_row {trace : List (ℤ × State)} (h : Start a program args s)
    (huntil : Until (getoptLong a) (· = -1) s trace s') (hparse : Parse a args 0 reports left)
    (hreported : List.Forall₂ (Reported a) trace reports)
    (hrow : s'.argv = (program :: args).map some ++ [none]) (hleft : left <:+ args)
    (hind : s'.optind + left.length = a.argc) : Permutes a program args s := by
  have htake : s'.argv.take a.argc = (program :: args).map some := by
    rw [hrow, map_cons, take_row h.argc_eq]
    rfl
  refine ⟨trace, s', reports, left, huntil, hparse, hreported, ?_, ?_⟩
  · rw [htake]
  · rw [htake, drop_row hleft (hind.trans h.argc_eq)]

theorem Permutes.of_sorted (h : Start a program args s) (hsorted : Sorted a args) :
    Permutes a program args s := by
  obtain ⟨reports, others, e, hread, hcond⟩ := hsorted
  obtain ⟨s₀, hcall, hat, hnext, hargv, hcopy⟩ := h.exists_at
  obtain ⟨trace, s', huntil, hreported, hfinal⟩ := until_of_reading hread hat hnext .start
  have huntil' := huntil.of_call_eq hcall
  have hargc := h.argc_eq
  rw [h.argv_eq] at hargv
  cases e with
  | options =>
    obtain ⟨hind, hrow⟩ := hfinal
    rw [hcond] at hrow hread
    exact .of_row h huntil' (hread.to_parse (by simp)) hreported (hrow.trans hargv)
      nil_suffix hind
  | trailing =>
    obtain ⟨hind, hrow⟩ := hfinal
    obtain ⟨rfl, hdashes⟩ := hcond
    obtain rfl := hread.eq_others
    refine .of_row h huntil' (hread.to_parse hdashes) hreported ?_ suffix_rfl (by omega)
    have hlast : 1 + others.length = (some program :: others.map some).length := by
      simp
      omega
    rw [hrow, hargv, hcopy, copyRow_args (le_refl _), drop_length, append_nil, hlast,
      set_append_right _ _ (le_refl _), Nat.sub_self]
    rfl
  | stopped left =>
    obtain ⟨hind, hrow⟩ := hfinal
    obtain rfl := hread.others_of_stop hread.stop_of_stopped
    exact .of_row h huntil' (hread.to_parse (by simp) hcond) hreported (hrow.trans hargv)
      (hread.left_suffix (.inr rfl)) hind
  | early left =>
    obtain ⟨hind, hrow⟩ := hfinal
    obtain ⟨rfl, rfl⟩ := hcond
    obtain rfl := hread.eq_dashes
    refine .of_row h huntil' (.behind left 0) hreported ?_ (suffix_cons _ _) hind
    rw [hrow, hargv, hcopy]
    rfl

/-- The calls sort the elements as they are meant if and only if there is nothing
to permute. -/
theorem getoptLong_permutes_iff (program : CString) (args : List CString) (s : State)
    (h : Start a program args s) : Permutes a program args s ↔ Sorted a args :=
  ⟨.of_permutes h, .of_sorted h⟩

/-- The elements `-a -a`. -/
theorem getoptLong_permutes_letters :
    Permutes (letterA 3) (literal "ls") [[hyphen, 97], [hyphen, 97]]
      (.start [literal "ls", [hyphen, 97], [hyphen, 97]]) :=
  (getoptLong_permutes_iff (literal "ls") [[hyphen, 97], [hyphen, 97]] _
      (start_letterA _ [[hyphen, 97], [hyphen, 97]])).mpr
    ⟨[⟨97, none, none⟩, ⟨97, none, none⟩], [], .options,
      .option rfl (by decide) (.option rfl (by decide) (.done 0)), rfl⟩

/-- The element `x` before `-a` is lost: `optind` ends behind both. -/
theorem getoptLong_not_permutes :
    ¬Permutes (letterA 3) (literal "ls") [[120], [hyphen, 97]]
      (.start [literal "ls", [120], [hyphen, 97]]) := by
  intro hperm
  obtain ⟨reports, others, e, hread, hcond⟩ :=
    Sorted.of_permutes (start_letterA (literal "ls") [[120], [hyphen, 97]]) hperm
  have hread' : Reading (letterA 3) [[120], [hyphen, 97]] 0 [⟨97, none, none⟩] [[120]] .options :=
    .skip rfl (by decide) (by decide) (.option rfl (by decide) (.done 0))
  obtain ⟨rfl, rfl, rfl⟩ := hread.unique hread'
  cases hcond

end Hzlibc.GetoptLong
