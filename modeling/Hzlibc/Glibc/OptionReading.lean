import Hzlibc.Glibc.GetoptLong

/-!
How a row of elements is read as options, and what the calls of `getopt_long`
make of it.

`readOption` reads one option off the front of the elements, with `i` letters of
the first element already read; it fails if there is none, if it is not known or
if its argument is missing. `Reading` describes a row that can be read to its
end. The calls follow a reading as long as there is one. Where the front cannot
be read they do not get on: they report an error, and the next call finds the
same elements again.
-/

namespace Hzlibc.GetoptLong

open Stdio (Byte signed)
open Getopt (hyphen colon question dashes)
open Calls List

/-- An option: the value that stands for it, what has to be in `optarg` if it
may have an argument, and its index if it is a long one. -/
structure Report where
  value : ℤ
  arg : Option (Option CString)
  index : Option ℕ

def LongOption.result (opt : LongOption) : ℤ := if opt.flag = none then opt.val else 0

/-- The argument of a long option, and the number of elements it takes up;
`arg` is the element without its two hyphens, `rest` are those behind it. -/
def LongOption.argument (opt : LongOption) (arg : CString) (rest : List CString) :
    Option (Option CString × ℕ) :=
  if opt.hasArg = noArgument then some (none, 0)
  else if opt.hasArg = requiredArgument then
    match valueOf arg with
    | some value => some (some value, 0)
    | none => rest.head?.map fun value => (some value, 1)
  else if opt.hasArg = optionalArgument then some (valueOf arg, 0)
  else none

variable (a : Args)

def readLong (arg : CString) (rest : List CString) : Option (Report × List CString) :=
  match findLong (nameOf arg) a.longOpts 0 with
  | none => none
  | some (i, opt) =>
    (opt.argument arg rest).map fun read =>
      (⟨opt.result, some read.1, some i⟩, rest.drop read.2)

/-- The argument that a letter requires when it is the last of its element. -/
def readSeparate (c : Byte) (rest : List CString) : Option (Report × List CString × ℕ) :=
  match rest with
  | [] => none
  | value :: rest =>
    if isOption value then none else some (⟨signed c, some (some value), none⟩, rest, 0)

def readShort (element : CString) (rest : List CString) (i : ℕ) :
    Option (Report × List CString × ℕ) :=
  match element.tail[i]? with
  | none => none
  | some c =>
    match a.kind c with
    | none => none
    | some kind =>
      if kind = .plain then
        if follows element.tail i then
          some (⟨signed c, none, none⟩, element :: rest, (i + 1) % wrap)
        else some (⟨signed c, none, none⟩, rest, 0)
      else if follows element.tail i then
        some (⟨signed c, some (some (element.tail.drop (i + 1))), none⟩, rest, 0)
      else if kind = .optional then some (⟨signed c, some none, none⟩, rest, 0)
      else readSeparate c rest

def readOption : List CString → ℕ → Option (Report × List CString × ℕ)
  | [], _ => none
  | element :: rest, i =>
    if isOption element then
      if element.tail.head? = some hyphen then
        (readLong a (element.drop 2) rest).map fun read => (read.1, read.2, 0)
      else readShort a element rest i
    else none

/-- How the reading of a row ends: behind an option or with no elements at all,
behind elements that are no options, before such an element, or with an option
whose value is `-1`. What has not been looked at is left. -/
inductive End
  | options
  | trailing
  | stopped (left : List CString)
  | early (left : List CString)

/-- The elements can be read to an end, as the options of the reports and the
elements of `others`. -/
inductive Reading : List CString → ℕ → List Report → List CString → End → Prop
  | done (i : ℕ) : Reading [] i [] [] .options
  | stop {element : CString} {rest : List CString} {i : ℕ} (hstop : a.stopOnNonOption = true)
      (hother : isOption element = false) :
      Reading (element :: rest) i [] [] (.stopped (element :: rest))
  | trailing {element : CString} {i : ℕ} (hstop : a.stopOnNonOption = false)
      (hother : isOption element = false) : Reading [element] i [] [element] .trailing
  | skip {element : CString} {rest others : List CString} {i : ℕ} {reports : List Report}
      {e : End} (hstop : a.stopOnNonOption = false) (hother : isOption element = false)
      (hrest : rest ≠ []) (hread : Reading rest i reports others e) :
      Reading (element :: rest) i reports (element :: others) e
  | option {args args' others : List CString} {i i' : ℕ} {r : Report} {reports : List Report}
      {e : End} (hoption : readOption a args i = some (r, args', i')) (hvalue : r.value ≠ -1)
      (hread : Reading args' i' reports others e) : Reading args i (r :: reports) others e
  | early {args args' : List CString} {i i' : ℕ} {r : Report}
      (hoption : readOption a args i = some (r, args', i')) (hvalue : r.value = -1) :
      Reading args i [] [] (.early args')

/-- The position in the first element can be reached from its start. -/
inductive Inside (args : List CString) : ℕ → Prop
  | start : Inside args 0
  | letter {i i' : ℕ} {r : Report} (h : Inside args i)
      (hoption : readOption a args i = some (r, args, i')) (hvalue : r.value ≠ -1) :
      Inside args i'

variable {a} {element arg : CString} {rest args rest' args' : List CString} {i i' : ℕ} {r : Report}

theorem readOption_of_not_isOption (h : isOption element = false) :
    readOption a (element :: rest) i = none := by
  simp [readOption, h]

theorem isOption_of_readOption (h : readOption a (element :: rest) i = some (r, args', i')) :
    isOption element = true := by
  cases hoption : isOption element with
  | true => rfl
  | false =>
    rw [readOption_of_not_isOption hoption] at h
    cases h

/-- Where an option can be read, a reading starts with it. -/
theorem Reading.of_readOption {others : List CString} {reports : List Report} {e : End}
    (h : Reading a args i reports others e) (hoption : readOption a args i = some (r, args', i')) :
    r.value = -1 ∧ reports = [] ∧ others = [] ∧ e = .early args' ∨
      r.value ≠ -1 ∧ ∃ reports', reports = r :: reports' ∧
        Reading a args' i' reports' others e := by
  cases h with
  | done => cases hoption
  | stop _ hother | trailing _ hother | skip _ hother =>
    cases hother.symm.trans (isOption_of_readOption hoption)
  | option hoption' hvalue hread =>
    cases hoption.symm.trans hoption'
    exact .inr ⟨hvalue, _, rfl, hread⟩
  | early hoption' hvalue =>
    cases hoption.symm.trans hoption'
    exact .inl ⟨hvalue, rfl, rfl, rfl⟩

theorem Reading.unique {others others' : List CString} {reports reports' : List Report} {e e' : End}
    (h : Reading a args i reports others e) (h' : Reading a args i reports' others' e') :
    reports = reports' ∧ others = others' ∧ e = e' := by
  induction h generalizing reports' others' e' with
  | done =>
    cases h' with
    | done => exact ⟨rfl, rfl, rfl⟩
    | option hoption | early hoption => cases hoption
  | stop hstop hother =>
    cases h' with
    | stop => exact ⟨rfl, rfl, rfl⟩
    | trailing hstop' | skip hstop' =>
      rw [hstop] at hstop'
      cases hstop'
    | option hoption | early hoption =>
      cases hother.symm.trans (isOption_of_readOption hoption)
  | trailing hstop hother =>
    cases h' with
    | trailing => exact ⟨rfl, rfl, rfl⟩
    | stop hstop' =>
      rw [hstop] at hstop'
      cases hstop'
    | skip _ _ hrest => exact absurd rfl hrest
    | option hoption | early hoption =>
      cases hother.symm.trans (isOption_of_readOption hoption)
  | skip hstop hother hrest _ ih =>
    cases h' with
    | skip _ _ _ hread' =>
      obtain ⟨rfl, rfl, rfl⟩ := ih hread'
      exact ⟨rfl, rfl, rfl⟩
    | stop hstop' =>
      rw [hstop] at hstop'
      cases hstop'
    | trailing => exact absurd rfl hrest
    | option hoption | early hoption =>
      cases hother.symm.trans (isOption_of_readOption hoption)
  | option hoption hvalue _ ih =>
    rcases h'.of_readOption hoption with ⟨hvalue', -⟩ | ⟨-, reports', rfl, hread'⟩
    · exact absurd hvalue' hvalue
    · obtain ⟨rfl, rfl, rfl⟩ := ih hread'
      exact ⟨rfl, rfl, rfl⟩
  | early hoption hvalue =>
    rcases h'.of_readOption hoption with ⟨-, rfl, rfl, rfl⟩ | ⟨hvalue', -⟩
    · exact ⟨rfl, rfl, rfl⟩
    · exact absurd hvalue hvalue'

/-- What is read from the start of an element is read from a later position,
less the letters before it. -/
theorem Reading.of_inside {others : List CString} {reports : List Report} {e : End}
    (hread : Reading a args 0 reports others e) (h : Inside a args i) :
    ∃ reports' others' e', Reading a args i reports' others' e' ∧
      reports'.length ≤ reports.length := by
  induction h with
  | start => exact ⟨reports, others, e, hread, le_refl _⟩
  | letter _ hoption hvalue ih =>
    obtain ⟨reports', others', e', hread', hle⟩ := ih
    rcases hread'.of_readOption hoption with ⟨hvalue', -⟩ | ⟨-, reports'', rfl, hread''⟩
    · exact absurd hvalue' hvalue
    · exact ⟨_, _, _, hread'', Nat.le_of_succ_le hle⟩

theorem readLong_suffix (h : readLong a arg rest = some (r, rest')) : rest' <:+ rest := by
  rw [readLong] at h
  split at h
  · cases h
  · obtain ⟨read, -, heq⟩ := Option.map_eq_some_iff.mp h
    cases heq
    exact drop_suffix _ _

theorem readSeparate_eq_some {c : Byte} (h : readSeparate c rest = some (r, rest', i)) :
    ∃ value, rest = value :: rest' ∧ isOption value = false ∧
      r = ⟨signed c, some (some value), none⟩ ∧ i = 0 := by
  cases rest with
  | nil => cases h
  | cons value rest =>
    cases hoption : isOption value with
    | true => simp [readSeparate, hoption] at h
    | false =>
      simp [readSeparate, hoption] at h
      obtain ⟨rfl, rfl, rfl⟩ := h
      exact ⟨value, rfl, hoption, rfl, rfl⟩

/-- An option ends its element, or it is a letter with others behind it. -/
theorem readOption_cases (h : readOption a (element :: rest) i = some (r, args', i')) :
    args' <:+ rest ∧ i' = 0 ∨
      args' = element :: rest ∧ element.tail.head? ≠ some hyphen ∧ i' < element.tail.length ∧
        i' = (i + 1) % wrap := by
  rw [readOption] at h
  split at h
  · split at h
    · obtain ⟨read, hread, heq⟩ := Option.map_eq_some_iff.mp h
      cases heq
      exact .inl ⟨readLong_suffix hread, rfl⟩
    next hshort =>
      rw [readShort] at h
      split at h
      · cases h
      split at h
      · cases h
      split at h
      · split at h
        next hfollows =>
          cases h
          exact .inr ⟨rfl, hshort, of_decide_eq_true hfollows, rfl⟩
        · cases h
          exact .inl ⟨suffix_rfl, rfl⟩
      · split at h
        · cases h
          exact .inl ⟨suffix_rfl, rfl⟩
        · split at h
          · cases h
            exact .inl ⟨suffix_rfl, rfl⟩
          · obtain ⟨value, rfl, -, -, rfl⟩ := readSeparate_eq_some h
            exact .inl ⟨suffix_cons _ _, rfl⟩
  · cases h

/-- The position is before a letter of the first element, and at the start if
that has no letters. -/
theorem Inside.position (h : Inside a (element :: rest) i) (hoption : isOption element = true) :
    i = 0 ∧ element.tail.head? = some hyphen ∨
      i < element.tail.length ∧ element.tail.head? ≠ some hyphen := by
  have htail : 0 < element.tail.length := by
    have hne : element.tail ≠ [] := by
      simp [isOption] at hoption
      exact hoption.1.2
    exact length_pos_iff.mpr hne
  cases h with
  | start =>
    by_cases hhead : element.tail.head? = some hyphen
    · exact .inl ⟨rfl, hhead⟩
    · exact .inr ⟨htail, hhead⟩
  | letter _ hread _ =>
    rcases readOption_cases hread with ⟨hsuffix, -⟩ | ⟨-, hhead, hlt, -⟩
    · have := hsuffix.length_le
      rw [length_cons] at this
      omega
    · exact .inr ⟨hlt, hhead⟩

theorem Inside.skip (h : Inside a (element :: rest) i) (hother : isOption element = false) :
    Inside a rest i := by
  cases h with
  | start => exact .start
  | letter _ hoption =>
    cases hother.symm.trans (isOption_of_readOption hoption)

theorem Inside.step (h : Inside a args i) (hoption : readOption a args i = some (r, args', i'))
    (hvalue : r.value ≠ -1) : Inside a args' i' := by
  cases args with
  | nil => cases hoption
  | cons element rest =>
    rcases readOption_cases hoption with ⟨-, rfl⟩ | ⟨rfl, -⟩
    · exact .start
    · exact .letter h hoption hvalue

/-! ### The state between the calls -/

variable (a)

/-- `args` are the elements that have not been read to their end. -/
structure At (s : State) (args : List CString) : Prop where
  drop_eq : s.argv.drop s.optind = args.map some ++ [none]
  argc_eq : s.optind + args.length = a.argc
  pos : 0 < s.optind
  copy_le : s.copyNonOptionPtr ≤ s.optind

variable {a} {s : State}

theorem At.get? (h : At a s args) {k : ℕ} (hk : k < args.length) :
    s.argv[s.optind + k]?.join = args[k]? := by
  rw [← List.getElem?_drop, h.drop_eq, List.getElem?_append_left (by simpa using hk),
    List.getElem?_map]
  cases args[k]? <;> rfl

theorem At.head (h : At a s (element :: rest)) : s.argv[s.optind]?.join = some element := by
  simpa using h.get? (k := 0) (by simp)

theorem At.second {value : CString} (h : At a s (element :: value :: rest)) :
    s.argv[s.optind + 1]?.join = some value := by
  simpa using h.get? (k := 1) (by simp)

/-- Behind `n` elements. -/
theorem At.forward {s' : State} (n : ℕ) (h : At a s args) (hn : n ≤ args.length)
    (hargv : s'.argv = s.argv) (hind : s'.optind = s.optind + n)
    (hcopy : s'.copyNonOptionPtr = s.copyNonOptionPtr) : At a s' (args.drop n) where
  drop_eq := by
    rw [hargv, hind, ← drop_drop, h.drop_eq, drop_append_of_le_length (by simpa using hn), map_drop]
  argc_eq := by
    have := h.argc_eq
    rw [length_drop]
    omega
  pos := by
    have := h.pos
    omega
  copy_le := by
    have := h.copy_le
    omega

variable (a) in
/-- The state after the call that reports an option. -/
structure Shows (s : State) (r : Report) : Prop where
  optarg_eq : ∀ arg, r.arg = some arg → s.optarg = arg
  index_eq : a.wantsIndex = true → ∀ i, r.index = some i → s.longIndex = some i

/-- A call changes neither the row of elements nor what has been copied. -/
structure Keeps (s s' : State) : Prop where
  argv_eq : s'.argv = s.argv
  copy_eq : s'.copyNonOptionPtr = s.copyNonOptionPtr

theorem reportLong_spec (s : State) (i : ℕ) (opt : LongOption) :
    ∃ s', reportLong a s i opt = (opt.result, s') ∧ s'.optarg = s.optarg ∧
      s'.optind = s.optind ∧ s'.nextChar = s.nextChar ∧ Keeps s s' ∧
      (a.wantsIndex = true → s'.longIndex = some i) := by
  cases hflag : opt.flag <;> cases hindex : a.wantsIndex <;>
    simp only [reportLong, LongOption.result, hflag, hindex] <;>
    exact ⟨_, rfl, rfl, rfl, rfl, ⟨rfl, rfl⟩, by simp⟩

/-- A long option with its argument. -/
theorem longOption_of_argument {n : ℕ} {opt : LongOption} {value : Option CString}
    (h : At a s (element :: rest)) (hfind : findLong (nameOf arg) a.longOpts 0 = some (i, opt))
    (harg : opt.argument arg rest = some (value, n)) :
    n ≤ rest.length ∧ longOption a s arg = some (reportLong a
      { s with optarg := value, optind := s.optind + (n + 1) } i opt) := by
  have hargc := h.argc_eq
  simp only [LongOption.argument] at harg
  simp only [longOption, hfind]
  split at harg
  next hno =>
    cases harg
    exact ⟨Nat.zero_le _, by rw [if_pos hno]⟩
  next hno =>
    rw [if_neg hno]
    split at harg
    next hrequired =>
      rw [if_pos hrequired]
      cases hvalue : valueOf arg with
      | some p =>
        rw [hvalue] at harg
        cases harg
        exact ⟨Nat.zero_le _, rfl⟩
      | none =>
        rw [hvalue] at harg
        cases rest with
        | nil => cases harg
        | cons value rest =>
          cases harg
          have hlt : s.optind + 1 < a.argc := by
            simp at hargc
            omega
          simp [if_pos hlt, h.second]
    next hrequired =>
      rw [if_neg hrequired]
      split at harg
      next hoptional =>
        cases harg
        exact ⟨Nat.zero_le _, by rw [if_pos hoptional]⟩
      · cases harg

theorem longOption_read (h : At a s (element :: rest))
    (hread : readLong a arg rest = some (r, rest')) :
    ∃ s', longOption a s arg = some (r.value, s') ∧ At a s' rest' ∧ s'.nextChar = s.nextChar ∧
      Shows a s' r ∧ Keeps s s' := by
  rw [readLong] at hread
  split at hread
  · cases hread
  next i opt hfind =>
    obtain ⟨⟨value, n⟩, harg, heq⟩ := Option.map_eq_some_iff.mp hread
    cases heq
    obtain ⟨hn, hcall⟩ := longOption_of_argument h hfind harg
    obtain ⟨s', hreport, hoptarg, hoptind, hnext, hkeeps, hindex⟩ := reportLong_spec
      { s with optarg := value, optind := s.optind + (n + 1) } i opt
    refine ⟨s', hcall.trans (congrArg some hreport), ?_, hnext, ⟨?_, ?_⟩,
      hkeeps.argv_eq, hkeeps.copy_eq⟩
    · exact h.forward (n + 1) (by simpa using hn) hkeeps.argv_eq hoptind hkeeps.copy_eq
    · rintro arg' heq
      cases heq
      exact hoptarg
    · rintro hwants k heq
      cases heq
      exact hindex hwants

variable (a) in
theorem Args.missing_ne : a.missing ≠ -1 := by
  rw [Args.missing]
  split <;> decide

section

variable (h : At a s (element :: rest))
include h

/-- An unknown long option, or one without its argument, is found again by the
next call. -/
theorem longOption_stuck (hread : readLong a arg rest = none) :
    longOption a s arg = none ∨
      ∃ v s', longOption a s arg = some (v, s') ∧ v ≠ -1 ∧ s'.optind = s.optind ∧
        s'.nextChar = s.nextChar ∧ Keeps s s' := by
  have hargc := h.argc_eq
  rw [length_cons] at hargc
  rw [readLong] at hread
  rw [longOption]
  cases hfind : findLong (nameOf arg) a.longOpts 0 with
  | none =>
    refine .inr ⟨_, _, rfl, by decide, ?_⟩
    split <;> exact ⟨rfl, rfl, rfl, rfl⟩
  | some found =>
    rw [hfind] at hread
    simp [LongOption.argument] at hread ⊢
    split at hread
    · cases hread
    next hno =>
      rw [if_neg hno]
      split at hread
      next hrequired =>
        rw [if_pos hrequired]
        cases hvalue : valueOf arg with
        | some value => rw [hvalue] at hread; cases hread
        | none =>
          rw [hvalue] at hread
          have hrest : rest = [] := by simpa using hread
          have hlt : ¬s.optind + 1 < a.argc := by
            rw [hrest, length_nil] at hargc
            omega
          simp only [if_neg hlt]
          refine .inr ⟨_, _, rfl, a.missing_ne, ?_⟩
          split <;> exact ⟨rfl, rfl, rfl, rfl⟩
      next hrequired =>
        rw [if_neg hrequired]
        split at hread
        · cases hread
        next hoptional =>
          rw [if_neg hoptional]
          exact .inl rfl

theorem shortOption_read (hread : readShort a element rest s.nextChar = some (r, args', i')) :
    ∃ s', shortOption a s element.tail = some (r.value, s') ∧ At a s' args' ∧
      s'.nextChar = i' ∧ Shows a s' r ∧ Keeps s s' := by
  have hargc := h.argc_eq
  have hforward : ∀ s' : State, s'.argv = s.argv → s'.optind = s.optind + 1 →
      s'.copyNonOptionPtr = s.copyNonOptionPtr → At a s' rest := fun s' =>
    h.forward 1 (by simp)
  rw [readShort] at hread
  rw [shortOption]
  split at hread
  · cases hread
  next c hc =>
    rw [hc]
    split at hread
    · cases hread
    next kind hkind =>
      simp only [hkind]
      split at hread
      next hplain =>
        rw [if_pos hplain]
        split at hread
        next hfollows =>
          cases hread
          rw [if_pos hfollows]
          exact ⟨_, rfl, ⟨h.drop_eq, h.argc_eq, h.pos, h.copy_le⟩, rfl,
            ⟨by simp, by simp⟩, rfl, rfl⟩
        next hfollows =>
          cases hread
          rw [if_neg hfollows]
          exact ⟨_, rfl, hforward _ rfl rfl rfl, rfl, ⟨by simp, by simp⟩, rfl, rfl⟩
      next hplain =>
        rw [if_neg hplain]
        split at hread
        next hfollows =>
          cases hread
          rw [if_pos hfollows]
          exact ⟨_, rfl, hforward _ rfl rfl rfl, rfl, ⟨by simp, by simp⟩, rfl, rfl⟩
        next hfollows =>
          rw [if_neg hfollows]
          split at hread
          next hoptional =>
            cases hread
            rw [if_pos hoptional]
            exact ⟨_, rfl, hforward _ rfl rfl rfl, rfl, ⟨by simp, by simp⟩, rfl, rfl⟩
          next hoptional =>
            obtain ⟨value, rfl, hvalue, rfl, rfl⟩ := readSeparate_eq_some hread
            have hlt : s.optind + 1 < a.argc := by
              simp at hargc
              omega
            simp only [if_neg hoptional, if_pos hlt, h.second, hvalue,
              Bool.false_eq_true, if_false]
            exact ⟨_, rfl, h.forward 2 (by simp) rfl rfl rfl, rfl,
              ⟨by simp, by simp⟩, rfl, rfl⟩

/-- An unknown letter is found again by the next call; where an argument is
missing, that starts at the first letter of the element. -/
theorem shortOption_stuck (hlt : s.nextChar < element.tail.length)
    (hread : readShort a element rest s.nextChar = none) :
    ∃ v s', shortOption a s element.tail = some (v, s') ∧ v ≠ -1 ∧ s'.optind = s.optind ∧
      (s'.nextChar = s.nextChar ∨ s'.nextChar = 0) ∧ Keeps s s' := by
  have hargc := h.argc_eq
  rw [readShort] at hread
  rw [shortOption]
  rw [List.getElem?_eq_getElem hlt] at hread ⊢
  simp only at hread ⊢
  cases hkind : a.kind element.tail[s.nextChar] with
  | none => exact ⟨_, _, rfl, by decide, rfl, .inl rfl, rfl, rfl⟩
  | some kind =>
    simp only [hkind] at hread ⊢
    split at hread
    · split at hread <;> cases hread
    next hplain =>
      rw [if_neg hplain]
      split at hread
      · cases hread
      next hfollows =>
        rw [if_neg hfollows]
        split at hread
        · cases hread
        next hoptional =>
          rw [if_neg hoptional]
          cases rest with
          | nil =>
            have hend : ¬s.optind + 1 < a.argc := by
              simp at hargc
              omega
            rw [if_neg hend]
            exact ⟨_, _, rfl, a.missing_ne, rfl, .inr rfl, rfl, rfl⟩
          | cons value rest =>
            have hnext : s.optind + 1 < a.argc := by
              simp at hargc
              omega
            have hvalue : isOption value = true := by
              cases hvalue : isOption value with
              | true => rfl
              | false => simp [readSeparate, hvalue] at hread
            simp only [if_pos hnext, h.second, hvalue, if_true]
            exact ⟨_, _, rfl, a.missing_ne, rfl, .inr rfl, rfl, rfl⟩

end

end Hzlibc.GetoptLong
