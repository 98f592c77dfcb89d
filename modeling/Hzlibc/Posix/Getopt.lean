import Hzlibc.Calls.Repeated
import Hzlibc.Text.CString

/-!
`getopt`.

Between the calls the position is kept in `optind`, the next element of `argv`,
and in `CURRENT_PTR`, the letters of the element before it that are still to be
reported. The reference is a recursive parse of the elements behind the name of
the program, that of a cluster of letters nested in it.
-/

namespace Hzlibc.Getopt

open Stdio (Byte signed)
open Calls List

structure State where
  optarg : Option CString
  optind : ℕ
  /-- What `CURRENT_PTR` points to, if it is not null. -/
  currentPtr : Option CString
  /-- What has been written to the error stream. -/
  stderr : CString

/-- The values of the variables at the start of the program. -/
def State.start : State := ⟨none, 1, none, []⟩

def hyphen : Byte := '-'
def colon : Byte := ':'
def question : Byte := '?'

/-- The element that ends the options. -/
def dashes : CString := [hyphen, hyphen]

/-- A letter has been taken from `CURRENT_PTR`, and `rest` is behind it. -/
def report (argv : List CString) (optString : CString) (s : State) (c : Byte) (rest : CString) :
    ℤ × State :=
  let s := { s with currentPtr := some rest }
  let unknown :=
    { s with stderr := s.stderr ++ argv.headD [] ++ literal ": unknown option -" ++ [c] ++
        literal "\n" }
  match strchr optString c with
  | none => (signed question, unknown)
  | some contained =>
    if c = colon then (signed question, unknown)
    else if contained.tail.head? = some colon then
      if rest ≠ [] then (signed c, { s with optarg := some rest, currentPtr := none })
      else
        match argv[s.optind]? with
        | some arg => (signed c, { s with optarg := some arg, optind := s.optind + 1 })
        | none =>
          (signed colon,
            { s with stderr := s.stderr ++ argv.headD [] ++
                literal ": option required argument -" ++ [c] ++ literal "\n" })
    else (signed c, s)

def getopt (argv : List CString) (optString : CString) (s : State) : ℤ × State :=
  let s := { s with optarg := none }
  match s.currentPtr with
  | some (c :: rest) => report argv optString s c rest
  | _ =>
    let s := if s.optind = 0 then { s with optind := 1 } else s
    match argv[s.optind]? with
    | none => (-1, s)
    | some arg =>
      match arg.tail with
      | [] => (-1, s)
      | c :: rest =>
        if arg.head? ≠ some hyphen then (-1, s)
        else if arg = dashes then (-1, { s with optind := s.optind + 1 })
        else report argv optString { s with optind := s.optind + 1 } c rest

/-- The call as one of a sequence: it always returns. -/
def call (argv : List CString) (optString : CString) (s : State) : Option (ℤ × State) :=
  some (getopt argv optString s)

/-! ### The reference parse -/

/-- A letter of the option string. The last `char` is excluded because it is
returned as `-1`. -/
structure OptLetter where
  letter : Byte
  argument : Bool
  ne_zero : letter ≠ 0
  ne_colon : letter ≠ colon
  ne_end : signed letter ≠ -1

def OptLetter.text (l : OptLetter) : CString :=
  if l.argument then [l.letter, colon] else [l.letter]

def optText (letters : List OptLetter) : CString := letters.flatMap OptLetter.text

/-- What a call reports: the returned character, and `optarg`. -/
abbrev Report := ℤ × Option CString

variable (letters : List OptLetter)

/-- A letter with an argument: the rest of its cluster, or else the next
element. -/
def parseArgument (c : Byte) : CString → List CString → List Report × List CString
  | d :: ds, rest => ([(signed c, some (d :: ds))], rest)
  | [], arg :: rest => ([(signed c, some arg)], rest)
  | [], [] => ([(signed colon, none)], [])

/-- The letters of a cluster; `rest` are the elements behind it. -/
def parseCluster : CString → List CString → List Report × List CString
  | [], rest => ([], rest)
  | c :: cs, rest =>
    let more := parseCluster cs rest
    match letters.find? (·.letter = c) with
    | none => ((signed question, none) :: more.1, more.2)
    | some l =>
      if l.argument then parseArgument c cs rest else ((signed c, none) :: more.1, more.2)

theorem parseCluster_suffix (cluster : CString) (rest : List CString) :
    (parseCluster letters cluster rest).2 <:+ rest := by
  induction cluster with
  | nil => exact suffix_rfl
  | cons c cs ih =>
    rw [parseCluster]
    split
    · exact ih
    · split
      · fun_cases parseArgument c cs rest <;> simp
      · exact ih

/-- The options of a row of elements, and the elements that are left. -/
def parseArgs : List CString → List Report × List CString
  | [] => ([], [])
  | arg :: rest =>
    if arg = dashes then ([], rest)
    else if arg.head? = some hyphen ∧ arg.tail ≠ [] then
      let cluster := parseCluster letters arg.tail rest
      let more := parseArgs cluster.2
      (cluster.1 ++ more.1, more.2)
    else ([], arg :: rest)
termination_by args => args.length
decreasing_by exact Nat.lt_succ_of_le (parseCluster_suffix letters arg.tail rest).length_le

/-! ### The option string -/

@[simp] theorem optText_cons (l : OptLetter) :
    optText (l :: letters) = l.text ++ optText letters := by
  rw [optText, flatMap_cons, optText]

theorem head?_optText_ne : (optText letters).head? ≠ some colon := by
  cases letters with
  | nil => simp [optText]
  | cons l letters =>
    rw [optText_cons, OptLetter.text]
    split <;> simpa using l.ne_colon

variable {c : Byte} {l : OptLetter}

/-- Only the letters of the row, and the colon, are found in its text. -/
theorem strchr_optText_of_find?_eq_none (hzero : c ≠ 0) (hcolon : c ≠ colon)
    (h : letters.find? (·.letter = c) = none) : strchr (optText letters) c = none := by
  induction letters with
  | nil => exact if_neg hzero
  | cons l letters ih =>
    have hne : l.letter ≠ c := by
      intro hc
      simp [hc] at h
    have hrest : strchr (optText letters) c = none := ih (by simpa [hne] using h)
    rw [optText_cons, OptLetter.text]
    split
    · rw [cons_append, strchr_cons_of_ne hne, cons_append,
        strchr_cons_of_ne (Ne.symm hcolon), nil_append, hrest]
    · rw [cons_append, strchr_cons_of_ne hne, nil_append, hrest]

/-- A letter of the row is found with a colon behind it if it has an
argument. -/
theorem strchr_optText_of_find?_eq_some (hcolon : c ≠ colon)
    (h : letters.find? (·.letter = c) = some l) :
    ∃ rest, strchr (optText letters) c = some (c :: rest) ∧
      (rest.head? = some colon ↔ l.argument = true) := by
  induction letters with
  | nil => cases h
  | cons k letters ih =>
    rw [optText_cons, OptLetter.text]
    by_cases hc : k.letter = c
    · obtain rfl : k = l := by simpa [hc] using h
      rw [hc]
      split
      next harg => exact ⟨_, strchr_cons_self _ _, by simp [harg]⟩
      next harg =>
        refine ⟨optText letters, strchr_cons_self _ _, ?_⟩
        simp [head?_optText_ne, harg]
    · obtain ⟨rest, hfound, hhead⟩ := ih (by simpa [hc] using h)
      refine ⟨rest, ?_, hhead⟩
      split
      · rw [cons_append, strchr_cons_of_ne hc, cons_append,
          strchr_cons_of_ne (Ne.symm hcolon), nil_append, hfound]
      · rw [cons_append, strchr_cons_of_ne hc, nil_append, hfound]

/-! ### The state between the calls -/

variable (argv : List CString)

/-- `cluster` are the letters still to be reported, and `rest` the elements
behind them. -/
structure At (s : State) (cluster : CString) (rest : List CString) : Prop where
  pending : s.currentPtr.getD [] = cluster
  rest_eq : argv.drop s.optind = rest
  pos : 0 < s.optind
  le : s.optind ≤ argv.length

variable {letters argv} {cluster arg cs : CString} {rest : List CString} {s : State}

/-- Behind the next element. -/
theorem At.forward {s' : State} {cluster' : CString} (h : At argv s cluster (arg :: rest))
    (hind : s'.optind = s.optind + 1) (hpending : s'.currentPtr.getD [] = cluster') :
    At argv s' cluster' rest where
  pending := hpending
  rest_eq := by
    rw [hind, ← tail_drop, h.rest_eq, tail_cons]
  pos := by omega
  le := by
    have hlength := congrArg List.length h.rest_eq
    rw [length_drop, length_cons] at hlength
    omega

theorem getopt_pending (h : At argv s (c :: cs) rest) (optString : CString) :
    getopt argv optString s = report argv optString { s with optarg := none } c cs := by
  have hpending : s.currentPtr = some (c :: cs) := by
    have := h.pending
    cases hptr : s.currentPtr with
    | none => simp [hptr] at this
    | some cluster => simpa [hptr] using this
  simp [getopt, hpending]

section

variable (h : At argv s cluster rest)
include h

theorem At.next? : argv[s.optind]? = rest.head? := by
  rw [← h.rest_eq, List.head?_drop]

/-- A character that is not in the row: it is reported as unknown, and the
cluster goes on. -/
theorem report_unknown (hoptarg : s.optarg = none) (hzero : c ≠ 0)
    (hfind : letters.find? (·.letter = c) = none) :
    ∃ s', report argv (optText letters) s c cs = (signed question, s') ∧ s'.optarg = none ∧
      At argv s' cs rest := by
  by_cases hcolon : c = colon
  · simp only [report, hcolon, if_true]
    split <;> exact ⟨_, rfl, hoptarg, rfl, h.rest_eq, h.pos, h.le⟩
  · rw [report, strchr_optText_of_find?_eq_none letters hzero hcolon hfind]
    exact ⟨_, rfl, hoptarg, rfl, h.rest_eq, h.pos, h.le⟩

/-- A letter without an argument. -/
theorem report_plain (hoptarg : s.optarg = none)
    (hfind : letters.find? (·.letter = c) = some l) (harg : l.argument = false) :
    ∃ s', report argv (optText letters) s c cs = (signed c, s') ∧ s'.optarg = none ∧
      At argv s' cs rest := by
  have hletter : l.letter = c := by simpa using List.find?_some hfind
  have hcolon : c ≠ colon := hletter ▸ l.ne_colon
  obtain ⟨found, hfound, hhead⟩ := strchr_optText_of_find?_eq_some letters hcolon hfind
  have hno : ¬found.head? = some colon := by simp [hhead, harg]
  refine ⟨{ s with currentPtr := some cs }, ?_, hoptarg, rfl, h.rest_eq, h.pos, h.le⟩
  simp [report, hfound, if_neg hcolon, if_neg hno]

/-- A letter with an argument: it ends the cluster. -/
theorem report_argument (hoptarg : s.optarg = none)
    (hfind : letters.find? (·.letter = c) = some l) (harg : l.argument = true) :
    ∃ r s', report argv (optText letters) s c cs = (r, s') ∧ r ≠ -1 ∧
      (parseArgument c cs rest).1 = [(r, s'.optarg)] ∧
      At argv s' [] (parseArgument c cs rest).2 := by
  have hletter : l.letter = c := by simpa using List.find?_some hfind
  have hcolon : c ≠ colon := hletter ▸ l.ne_colon
  have hend : signed c ≠ -1 := hletter ▸ l.ne_end
  obtain ⟨found, hfound, hhead⟩ := strchr_optText_of_find?_eq_some letters hcolon hfind
  have hyes : found.head? = some colon := hhead.mpr harg
  simp only [report, hfound, tail_cons, if_neg hcolon, if_pos hyes, h.next?]
  cases cs with
  | cons d ds => exact ⟨_, _, rfl, hend, rfl, rfl, h.rest_eq, h.pos, h.le⟩
  | nil =>
    cases rest with
    | cons arg rest => exact ⟨_, _, rfl, hend, rfl, h.forward rfl rfl⟩
    | nil =>
      refine ⟨_, _, rfl, by decide, ?_, rfl, h.rest_eq, h.pos, h.le⟩
      simp [parseArgument, hoptarg]

/-! ### The sequence of calls -/

end

/-- What the calls of a trace report. -/
def reports (trace : List (ℤ × State)) : List Report :=
  trace.map fun entry => (entry.1, entry.2.optarg)

variable (letters) in
/-- One letter is reported as the reference reads it, and what is left is read
on. -/
theorem report_letter (cs : CString) (h : At argv s cluster rest) (hoptarg : s.optarg = none)
    (hzero : c ≠ 0) :
    ∃ r s' cs' rest', report argv (optText letters) s c cs = (r, s') ∧ r ≠ -1 ∧
      At argv s' cs' rest' ∧ cs' <:+ cs ∧
      parseCluster letters (c :: cs) rest =
        ((r, s'.optarg) :: (parseCluster letters cs' rest').1,
          (parseCluster letters cs' rest').2) := by
  cases hfind : letters.find? (·.letter = c) with
  | none =>
    obtain ⟨s', hreport, hnone, hat⟩ := report_unknown h hoptarg hzero hfind
    refine ⟨_, s', cs, rest, hreport, by decide, hat, suffix_rfl, ?_⟩
    rw [parseCluster, hfind, hnone]
  | some l =>
    have hletter : l.letter = c := by simpa using List.find?_some hfind
    cases harg : l.argument with
    | false =>
      obtain ⟨s', hreport, hnone, hat⟩ := report_plain h hoptarg hfind harg
      refine ⟨_, s', cs, rest, hreport, hletter ▸ l.ne_end, hat, suffix_rfl, ?_⟩
      simp [parseCluster, hfind, harg, hnone]
    | true =>
      obtain ⟨r, s', hreport, hend, hone, hat⟩ := report_argument h hoptarg hfind harg
      refine ⟨r, s', [], _, hreport, hend, hat, nil_suffix, ?_⟩
      simp [parseCluster, hfind, harg, ← hone]

theorem series_cluster (h : At argv s cluster rest) (hzero : 0 ∉ cluster) :
    ∃ trace s', Series (call argv (optText letters)) (· = -1) s trace s' ∧
      reports trace = (parseCluster letters cluster rest).1 ∧
      At argv s' [] (parseCluster letters cluster rest).2 := by
  -- the letters that are left after a call are fewer
  induction hn : cluster.length using Nat.strong_induction_on generalizing s cluster rest with
  | _ n ih =>
    cases cluster with
    | nil => exact ⟨[], s, .nil s, rfl, h⟩
    | cons c cs =>
      rw [mem_cons, not_or] at hzero
      have hat : At argv { s with optarg := none } (c :: cs) rest :=
        ⟨h.pending, h.rest_eq, h.pos, h.le⟩
      obtain ⟨r, s₁, cs', rest', hreport, hend, hat', hsuffix, hparse⟩ :=
        report_letter letters cs hat rfl (Ne.symm hzero.1)
      have hlt : cs'.length < n := by
        rw [← hn]
        exact Nat.lt_succ_of_le hsuffix.length_le
      obtain ⟨trace, s', hseries, htrace, hfinal⟩ :=
        ih _ hlt hat' (fun hmem => hzero.2 (hsuffix.subset hmem)) rfl
      have hcall : call argv (optText letters) s = some (r, s₁) := by
        rw [call, getopt_pending h, hreport]
      refine ⟨(r, s₁) :: trace, s', .cons hcall hend hseries, ?_, ?_⟩
      · rw [hparse, ← htrace]
        rfl
      · rw [hparse]
        exact hfinal

variable (optString : CString)

/-- Without a pending cluster the next element is looked at. -/
theorem getopt_idle {args : List CString} (h : At argv s [] args) :
    getopt argv optString s =
      match args with
      | [] => (-1, { s with optarg := none })
      | arg :: _ =>
        match arg.tail with
        | [] => (-1, { s with optarg := none })
        | c :: cs =>
          if arg.head? ≠ some hyphen then (-1, { s with optarg := none })
          else if arg = dashes then (-1, { s with optarg := none, optind := s.optind + 1 })
          else report argv optString { s with optarg := none, optind := s.optind + 1 } c cs := by
  have hind : ¬s.optind = 0 := Nat.ne_of_gt h.pos
  have hpending := h.pending
  cases hptr : s.currentPtr with
  | none => cases args <;> simp [getopt, hptr, if_neg hind, h.next?]
  | some cluster =>
    obtain rfl : cluster = [] := by simpa [hptr] using hpending
    cases args <;> simp [getopt, hptr, if_neg hind, h.next?]

variable (letters) in
/-- An element with letters: its first letter is reported by the call that finds
the element. -/
theorem series_element (h : At argv s [] (arg :: rest)) (hzero : 0 ∉ arg) (hdashes : arg ≠ dashes)
    (hhyphen : arg.head? = some hyphen) (htail : arg.tail ≠ []) :
    ∃ trace s', Series (call argv (optText letters)) (· = -1) s trace s' ∧
      reports trace = (parseCluster letters arg.tail rest).1 ∧
      At argv s' [] (parseCluster letters arg.tail rest).2 := by
  obtain ⟨c, cs, hcluster⟩ := exists_cons_of_ne_nil htail
  have hstart := getopt_idle (optText letters) h
  simp [hcluster, hhyphen, if_neg hdashes] at hstart
  have hat : At argv { s with optarg := none, optind := s.optind + 1 } [] rest :=
    h.forward rfl h.pending
  have hzero' : 0 ∉ c :: cs := fun hmem => hzero (mem_of_mem_tail (hcluster ▸ hmem))
  rw [mem_cons, not_or] at hzero'
  obtain ⟨r, s₁, cs', rest', hreport, hend, hat', hsuffix, hparse⟩ :=
    report_letter letters cs hat rfl (Ne.symm hzero'.1)
  obtain ⟨trace, s', hseries, htrace, hfinal⟩ :=
    series_cluster hat' fun hmem => hzero'.2 (hsuffix.subset hmem)
  have hcall : call argv (optText letters) s = some (r, s₁) := by
    rw [call, hstart, hreport]
  refine ⟨(r, s₁) :: trace, s', .cons hcall hend hseries, ?_, ?_⟩
  · rw [hcluster, hparse, ← htrace]
    rfl
  · rw [hcluster, hparse]
    exact hfinal

/-- From a state without a pending cluster the calls report what the reference
reads, and end where it does. -/
theorem until_args {args : List CString} (h : At argv s [] args) (hzero : ∀ arg ∈ args, 0 ∉ arg) :
    ∃ trace s', Until (call argv (optText letters)) (· = -1) s trace s' ∧
      reports trace = (parseArgs letters args).1 ∧
      At argv s' [] (parseArgs letters args).2 := by
  fun_induction parseArgs letters args generalizing s with
  | case1 =>
    exact ⟨[], _, .last (congrArg some (getopt_idle _ h)) rfl, rfl, h.pending, h.rest_eq, h.pos,
      h.le⟩
  | case2 rest =>
    have hcall := getopt_idle (optText letters) h
    exact ⟨[], _, .last (congrArg some hcall) rfl, rfl, h.forward rfl h.pending⟩
  | case3 arg rest hdashes hletters cluster more =>
    rename_i ih
    obtain ⟨trace, s₁, hseries, htrace, hat⟩ :=
      series_element letters h (hzero arg (by simp)) hdashes hletters.1 hletters.2
    have hsubset := (parseCluster_suffix letters arg.tail rest).subset
    obtain ⟨trace', s', huntil, htrace', hfinal⟩ :=
      ih hat fun arg' hmem => hzero arg' (mem_cons_of_mem _ (hsubset hmem))
    refine ⟨trace ++ trace', s', hseries.until huntil, ?_, hfinal⟩
    rw [reports, map_append, ← reports, ← reports, htrace, htrace']
  | case4 arg rest hdashes hletters =>
    have hcall := getopt_idle (optText letters) h
    dsimp only at hcall
    have hat : At argv { s with optarg := none } [] (arg :: rest) :=
      ⟨h.pending, h.rest_eq, h.pos, h.le⟩
    cases htail : arg.tail with
    | nil =>
      rw [htail] at hcall
      exact ⟨[], _, .last (congrArg some hcall) rfl, rfl, hat⟩
    | cons c cs =>
      have hhyphen : arg.head? ≠ some hyphen := by
        intro hhead
        exact hletters ⟨hhead, by simp [htail]⟩
      rw [htail] at hcall
      simp only [if_pos hhyphen] at hcall
      exact ⟨[], _, .last (congrArg some hcall) rfl, rfl, hat⟩

theorem optind_report_le (c : Byte) (rest : CString)
    (hs : s.optind ≤ argv.length) : (report argv optString s c rest).2.optind ≤ argv.length := by
  rw [report]
  split
  · exact hs
  · split
    · exact hs
    · split
      · split
        · exact hs
        · split
          next harg =>
            exact (List.getElem?_eq_some_iff.mp harg).1
          · exact hs
      · exact hs

/-- `getopt` never leaves `optind` behind the end of `argv`. -/
theorem optind_getopt_le (h : 1 ≤ argv.length) (hs : s.optind ≤ argv.length) :
    (getopt argv optString s).2.optind ≤ argv.length := by
  rw [getopt]
  split
  · exact optind_report_le _ _ _ hs
  · extract_lets s'
    have hs' : s'.optind ≤ argv.length := by
      simp only [s']
      split
      · exact h
      · exact hs
    split
    · exact hs'
    next arg harg =>
      have hlt : s'.optind < argv.length := (List.getElem?_eq_some_iff.mp harg).1
      split
      · exact hs'
      · split
        · exact hs'
        · split
          · exact hlt
          · exact optind_report_le _ _ _ hlt

/-- The calls from the start report the options that the reference parse finds,
in its order and with its arguments, and then `-1`. After that `optind` is the
first of the elements that the parse leaves; it has never been behind the end. -/
theorem getopt_parses (program : CString) (args : List CString) (letters : List OptLetter)
    (s : State) (hargs : ∀ arg ∈ args, 0 ∉ arg) (hind : s.optind = 1)
    (hidle : s.currentPtr.getD [] = []) :
    ∃ trace s', Until (call (program :: args) (optText letters)) (· = -1) s trace s' ∧
      reports trace = (parseArgs letters args).1 ∧
      s'.optind + (parseArgs letters args).2.length = args.length + 1 ∧
      (∀ entry ∈ trace, entry.2.optind ≤ args.length + 1) ∧ s'.optind ≤ args.length + 1 := by
  have hat : At (program :: args) s [] args :=
    ⟨hidle, by rw [hind, drop_one, tail_cons], by omega, by simp [hind]⟩
  obtain ⟨trace, s', huntil, htrace, hfinal⟩ := until_args hat hargs
  have hlength := congrArg List.length hfinal.rest_eq
  have hle := hfinal.le
  rw [length_drop, length_cons] at hlength
  rw [length_cons] at hle
  refine ⟨trace, s', huntil, htrace, by omega, ?_, hle⟩
  have hkeeps := huntil.invariant (P := fun s => s.optind ≤ args.length + 1) ?_ (by omega)
  · exact hkeeps.1
  · intro s r s' hcall hs
    obtain rfl : (getopt (program :: args) (optText letters) s).2 = s' :=
      congrArg Prod.snd (Option.some.inj hcall)
    exact optind_getopt_le _ (by simp) hs

/-- The option string `ab:`. -/
def letterRow : List OptLetter :=
  [⟨97, false, by decide, by decide, by decide⟩, ⟨98, true, by decide, by decide, by decide⟩]

/-- The elements `-ab x -c`. -/
theorem getopt_parses_cluster :
    ∃ trace s', Until (call [literal "ls", [hyphen, 97, 98], [120], [hyphen, 99]]
        (optText letterRow)) (· = -1) State.start trace s' ∧
      reports trace = [(97, none), (98, some [120]), (63, none)] ∧ s'.optind = 4 := by
  obtain ⟨trace, s', huntil, hreports, hind, -⟩ :=
    getopt_parses (literal "ls") [[hyphen, 97, 98], [120], [hyphen, 99]] letterRow State.start
      (by decide) rfl rfl
  have hparse : parseArgs letterRow [[hyphen, 97, 98], [120], [hyphen, 99]] =
      ([(97, none), (98, some [120]), (63, none)], []) := by
    simp [parseArgs, parseCluster, parseArgument, letterRow, hyphen, dashes, question, Stdio.signed]
  rw [hparse] at hreports hind
  exact ⟨trace, s', huntil, hreports, hind⟩

end Hzlibc.Getopt
