import Hzlibc.Glibc.OptionReading
import Mathlib.Data.List.Forall2

/-!
The calls of `getopt_long` come to an end if and only if the elements can be
read to one.

A reading turns into calls that report its options; the elements that are no
options are skipped by the call that looks for the next one. The other way
round, calls that end have a reading behind them, since a call that reports an
error leaves the elements as they were. The number of calls is bounded because
every option has a character of its own.
-/

namespace Hzlibc.GetoptLong

open Stdio (Byte signed)
open Getopt (hyphen colon question dashes)
open Calls List

variable {a : Args}
  {s : State} {element : CString} {rest args args' : List CString} {r : Report} {i' i : ℕ}

theorem getoptLong_of_pos (h : 0 < s.optind) : getoptLong a s = loop a s := by
  rw [getoptLong, if_neg (Nat.ne_of_gt h)]

/-! ### An option at the front -/

section

variable (h : At a s (element :: rest))
include h

theorem At.lt : s.optind < a.argc := by
  have := h.argc_eq
  rw [length_cons] at this
  omega

theorem call_option (hoption : isOption element = true) :
    getoptLong a s =
      if element.tail.head? = some hyphen then longOption a s (element.drop 2)
      else shortOption a s element.tail := by
  rw [getoptLong_of_pos h.pos, loop, if_pos h.lt, h.head]
  simp [hoption]

omit h in
theorem call_read (h : At a s args) (hinside : Inside a args s.nextChar)
    (hread : readOption a args s.nextChar = some (r, args', i')) :
    ∃ s', getoptLong a s = some (r.value, s') ∧ At a s' args' ∧ s'.nextChar = i' ∧
      Shows a s' r ∧ Keeps s s' := by
  cases args with
  | nil => cases hread
  | cons element rest =>
    cases hoption : isOption element with
    | false => simp [readOption, hoption] at hread
    | true =>
      simp only [readOption, hoption, if_true] at hread
      rw [call_option h hoption]
      rcases hinside.position hoption with ⟨hzero, hlong⟩ | ⟨-, hshort⟩
      · rw [if_pos hlong] at hread ⊢
        obtain ⟨read, hlongRead, heq⟩ := Option.map_eq_some_iff.mp hread
        cases heq
        obtain ⟨s', hcall, hat, hnext, hshows, hkeeps⟩ := longOption_read h hlongRead
        exact ⟨s', hcall, hat, hnext.trans hzero, hshows, hkeeps⟩
      · rw [if_neg hshort] at hread ⊢
        exact shortOption_read h hread

theorem call_stuck (hinside : Inside a (element :: rest) s.nextChar)
    (hoption : isOption element = true) (hread : readOption a (element :: rest) s.nextChar = none) :
    getoptLong a s = none ∨
      ∃ v s', getoptLong a s = some (v, s') ∧ v ≠ -1 ∧ At a s' (element :: rest) ∧
        (s'.nextChar = s.nextChar ∨ s'.nextChar = 0) := by
  have hat : ∀ s' : State, s'.optind = s.optind → Keeps s s' → At a s' (element :: rest) := by
    intro s' hind hkeeps
    exact h.forward 0 (Nat.zero_le _) hkeeps.argv_eq hind hkeeps.copy_eq
  simp only [readOption, hoption, if_true] at hread
  rw [call_option h hoption]
  rcases hinside.position hoption with ⟨-, hlong⟩ | ⟨hlt, hshort⟩
  · rw [if_pos hlong] at hread ⊢
    rcases longOption_stuck h (Option.map_eq_none_iff.mp hread) with
      hnone | ⟨v, s', hcall, hv, hind, hnext, hkeeps⟩
    · exact .inl hnone
    · exact .inr ⟨v, s', hcall, hv, hat s' hind hkeeps, .inl hnext⟩
  · rw [if_neg hshort] at hread ⊢
    obtain ⟨v, s', hcall, hv, hind, hnext, hkeeps⟩ := shortOption_stuck h hlt hread
    exact .inr ⟨v, s', hcall, hv, hat s' hind hkeeps, hnext⟩

/-! ### Elements that are no options -/

omit h in
/-- The state behind an element that is no option. -/
def State.skip (s : State) : State :=
  { copyNonOptions 1 s.optind s with optind := s.optind + 1 }

theorem At.skip :
    At a s.skip rest ∧ s.skip.argv = s.argv.set s.copyNonOptionPtr (some element) ∧
      s.skip.copyNonOptionPtr = s.copyNonOptionPtr + 1 ∧ s.skip.nextChar = s.nextChar := by
  have hargv : s.skip.argv = s.argv.set s.copyNonOptionPtr (some element) := by
    rw [← h.head]
    rfl
  have hcopy := h.copy_le
  refine ⟨⟨?_, ?_, Nat.succ_pos _, Nat.succ_le_succ hcopy⟩, hargv, rfl, rfl⟩
  · show List.drop (s.optind + 1) s.skip.argv = _
    rw [hargv, drop_set_of_lt (by omega), ← drop_drop, h.drop_eq]
    rfl
  · have := h.argc_eq
    rw [length_cons] at this
    show s.optind + 1 + rest.length = a.argc
    omega

omit h in
theorem copyNonOptions_optind (n i k : ℕ) (s : State) :
    copyNonOptions n i { s with optind := k } = { copyNonOptions n i s with optind := k } := by
  induction n generalizing i s with
  | zero => rfl
  | succ n ih =>
    exact ih _ { s with
      argv := s.argv.set s.copyNonOptionPtr s.argv[i]?.join
      copyNonOptionPtr := s.copyNonOptionPtr + 1 }

/-- The elements behind the first, as the loop looks at them. -/
theorem At.behind : (s.argv.take a.argc).drop (s.optind + 1) = rest.map some := by
  have hargc := h.argc_eq
  rw [length_cons] at hargc
  have hrest : s.argv.drop (s.optind + 1) = rest.map some ++ [none] := by
    rw [← drop_drop, h.drop_eq]
    rfl
  rw [drop_take, hrest, take_append_of_le_length (by simp; omega),
    take_of_length_le (by simp; omega)]

/-- The call on an element that is no option, in terms of the number of those
behind it. -/
theorem call_nonOption {n : ℕ} (hstop : a.stopOnNonOption = false)
    (hother : isOption element = false) (hcount : countNonOptions (rest.map some) = some n) :
    let s' := { copyNonOptions (n + 1) s.optind s with optind := s.optind + (n + 1) }
    getoptLong a s =
      if s.optind + (n + 1) = a.argc then
        some (-1, { s' with optind := 1, argv := s'.argv.set s'.copyNonOptionPtr none })
      else getoptLong a s' := by
  rw [getoptLong_of_pos h.pos, loop, if_pos h.lt, h.head]
  simp [hother, hstop, h.behind, hcount]
  rfl

/-- An element that is no option is skipped before the next one is looked at. -/
theorem call_skip (hstop : a.stopOnNonOption = false)
    (hother : isOption element = false) (hrest : rest ≠ []) :
    getoptLong a s = getoptLong a s.skip := by
  obtain ⟨value, rest, rfl⟩ := exists_cons_of_ne_nil hrest
  have hargc := h.argc_eq
  simp at hargc
  cases hvalue : isOption value with
  | true =>
    rw [call_nonOption h hstop hother (n := 0) (by simp [countNonOptions, hvalue]),
      if_neg (by omega)]
    rfl
  | false =>
    -- what the call skips behind the first element it skips from there on
    obtain ⟨n, hcount⟩ : ∃ n, countNonOptions (rest.map some) = some n := by
      clear hargc h hrest
      induction rest with
      | nil => exact ⟨0, rfl⟩
      | cons value rest ih =>
        obtain ⟨n, hn⟩ := ih
        rw [map_cons, countNonOptions, hn]
        split
        all_goals exact ⟨_, rfl⟩
    have hcount' : countNonOptions ((value :: rest).map some) = some (n + 1) := by
      simp [countNonOptions, hvalue, hcount]
    rw [call_nonOption h hstop hother hcount', call_nonOption h.skip.1 hstop hvalue hcount]
    have hind : s.skip.optind + (n + 1) = s.optind + (n + 1 + 1) := by
      show s.optind + 1 + (n + 1) = _
      omega
    have hcopy : copyNonOptions (n + 1) s.skip.optind s.skip =
        { copyNonOptions (n + 1 + 1) s.optind s with optind := s.optind + 1 } := by
      rw [State.skip, copyNonOptions_optind]
      rfl
    simp [hcopy, hind]

omit h in
theorem call_trailing (h : At a s [element]) (hstop : a.stopOnNonOption = false)
    (hother : isOption element = false) :
    getoptLong a s =
      some (-1, { s.skip with
        optind := 1
        argv := s.skip.argv.set s.skip.copyNonOptionPtr none }) := by
  rw [call_nonOption h hstop hother (n := 0) rfl, if_pos (by simpa using h.argc_eq)]
  rfl

theorem call_stop (hstop : a.stopOnNonOption = true)
    (hother : isOption element = false) : getoptLong a s = some (-1, s) := by
  rw [getoptLong_of_pos h.pos, loop, h.head]
  simp [hother, hstop]

end

theorem call_nil (h : At a s []) : getoptLong a s = some (-1, s) := by
  have := h.argc_eq
  rw [length_nil] at this
  rw [getoptLong_of_pos h.pos, loop, if_neg (by omega)]

/-! ### The sequence of calls -/

/-- The row after some elements have been copied to index `k` and those behind
it. -/
def copyRow : List (Option CString) → ℕ → List CString → List (Option CString)
  | argv, _, [] => argv
  | argv, k, element :: others => copyRow (argv.set k (some element)) (k + 1) others

variable (a)

/-- An entry of a trace belongs to an option. -/
def Reported (entry : ℤ × State) (r : Report) : Prop := entry.1 = r.value ∧ Shows a entry.2 r

/-- The state `s'` at the end of the calls from `s` on. -/
def Final (s : State) (others : List CString) (s' : State) : End → Prop
  | .options => s'.optind = a.argc ∧ s'.argv = copyRow s.argv s.copyNonOptionPtr others
  | .trailing =>
    s'.optind = 1 ∧
      s'.argv = (copyRow s.argv s.copyNonOptionPtr others).set
        (s.copyNonOptionPtr + others.length) none
  | .stopped left =>
    s'.optind + left.length = a.argc ∧ s'.argv = copyRow s.argv s.copyNonOptionPtr others
  | .early left =>
    s'.optind + left.length = a.argc ∧ s'.argv = copyRow s.argv s.copyNonOptionPtr others

variable {a} {e : End} {others : List CString} {s' : State} {reports : List Report}

theorem Final.of_skip (h : At a s (element :: rest)) (hfinal : Final a s.skip others s' e) :
    Final a s (element :: others) s' e := by
  obtain ⟨-, hargv, hcopy, -⟩ := h.skip
  cases e <;> simp only [Final, hargv, hcopy, copyRow, length_cons] at hfinal ⊢
  · exact hfinal
  · rw [Nat.add_right_comm] at hfinal
    exact hfinal
  · exact hfinal
  · exact hfinal

theorem Final.of_keeps {s₁ : State} (h : Keeps s s₁) (hfinal : Final a s₁ others s' e) :
    Final a s others s' e := by
  cases e <;> simpa [Final, h.argv_eq, h.copy_eq] using hfinal

/-- Elements that can be read are read by the calls. -/
theorem until_of_reading (hread : Reading a args i reports others e) (h : At a s args)
    (hnext : s.nextChar = i) (hinside : Inside a args i) :
    ∃ trace s', Until (getoptLong a) (· = -1) s trace s' ∧
      List.Forall₂ (Reported a) trace reports ∧ Final a s others s' e := by
  induction hread generalizing s with
  | done => exact ⟨[], s, .last (call_nil h) rfl, .nil, h.argc_eq, rfl⟩
  | stop hstop hother => exact ⟨[], s, .last (call_stop h hstop hother) rfl, .nil, h.argc_eq, rfl⟩
  | trailing hstop hother =>
    obtain ⟨-, hargv, hcopy, -⟩ := h.skip
    refine ⟨[], _, .last (call_trailing h hstop hother) rfl, .nil, rfl, ?_⟩
    simp [hargv, hcopy, copyRow]
  | skip hstop hother hrest _ ih =>
    obtain ⟨hat, -, -, hnext₁⟩ := h.skip
    obtain ⟨trace, s', huntil, htrace, hfinal⟩ := ih hat (hnext₁.trans hnext) (hinside.skip hother)
    exact ⟨trace, s', huntil.of_call_eq (call_skip h hstop hother hrest), htrace,
      Final.of_skip h hfinal⟩
  | option hoption hvalue _ ih =>
    rw [← hnext] at hoption hinside
    obtain ⟨s₁, hcall, hat, hnext₁, hshows, hkeeps⟩ := call_read h hinside hoption
    obtain ⟨trace, s', huntil, htrace, hfinal⟩ := ih hat hnext₁ (hinside.step hoption hvalue)
    exact ⟨_, s', .more hcall hvalue huntil, .cons ⟨rfl, hshows⟩ htrace,
      Final.of_keeps hkeeps hfinal⟩
  | early hoption hvalue =>
    rw [← hnext] at hoption hinside
    obtain ⟨s₁, hcall, hat, -, -, hkeeps⟩ := call_read h hinside hoption
    exact ⟨[], s₁, .last hcall hvalue, .nil, hat.argc_eq, hkeeps.argv_eq⟩

/-- The elements can be read to their end from a position in the first one. -/
def ReadableFrom (a : Args) (args : List CString) (i : ℕ) : Prop :=
  ∃ reports others e, Reading a args i reports others e

theorem ReadableFrom.skip (hstop : a.stopOnNonOption = false) (hother : isOption element = false)
    (hrest : rest ≠ []) : ReadableFrom a rest i → ReadableFrom a (element :: rest) i := by
  rintro ⟨reports, others, e, hread⟩
  exact ⟨_, _, _, .skip hstop hother hrest hread⟩

/-- The elements in front of the next option are skipped, or there is none and
the row has been read. -/
theorem skip_to_option (h : At a s args) (hinside : Inside a args s.nextChar) :
    ReadableFrom a args s.nextChar ∨
      ∃ s₀ element rest, getoptLong a s = getoptLong a s₀ ∧ At a s₀ (element :: rest) ∧
        s₀.nextChar = s.nextChar ∧ Inside a (element :: rest) s.nextChar ∧
        isOption element = true ∧
        (ReadableFrom a (element :: rest) s.nextChar → ReadableFrom a args s.nextChar) := by
  induction args generalizing s with
  | nil => exact .inl ⟨_, _, _, .done _⟩
  | cons element rest ih =>
    cases hoption : isOption element with
    | true => exact .inr ⟨s, element, rest, rfl, h, rfl, hinside, hoption, id⟩
    | false =>
      cases hstop : a.stopOnNonOption with
      | true => exact .inl ⟨_, _, _, .stop hstop hoption⟩
      | false =>
        by_cases hrest : rest = []
        · subst hrest
          exact .inl ⟨_, _, _, .trailing hstop hoption⟩
        · obtain ⟨hat, -, -, hnext⟩ := h.skip
          have hread := ih hat (hnext ▸ hinside.skip hoption)
          rcases hread with
            hread | ⟨s₀, element', rest', hcall, hat₀, hnext₀, hinside₀, hoption₀, hback⟩
          · exact .inl (hread.skip hstop hoption hrest)
          · exact .inr ⟨s₀, element', rest', (call_skip h hstop hoption hrest).trans hcall, hat₀,
              hnext₀, hinside₀, hoption₀, fun hread => (hback hread).skip hstop hoption hrest⟩

/-- The elements before a call can be read if those after it can, unless it is the last. -/
theorem readableFrom_of_call {v : ℤ} (hcall : getoptLong a s = some (v, s'))
    (hnext : v ≠ -1 → ∀ args, At a s' args → Inside a args s'.nextChar →
      ReadableFrom a args s'.nextChar)
    (h : At a s args) (hinside : Inside a args s.nextChar) : ReadableFrom a args s.nextChar := by
  rcases skip_to_option h hinside with
    hread | ⟨s₀, element, rest, hsame, hat, hnext₀, hinside₀, hoption, hback⟩
  · exact hread
  · refine hback ?_
    rw [← hnext₀] at hinside₀ ⊢
    rw [hsame] at hcall
    cases hread : readOption a (element :: rest) s₀.nextChar with
    | none =>
      rcases call_stuck hat hinside₀ hoption hread with hnone | ⟨v, s₁, hcall', hv, hat₁, hnext₁⟩
      · cases hcall.symm.trans hnone
      · cases hcall.symm.trans hcall'
        -- the next calls find the same elements, or start again at the first letter
        rcases hnext₁ with hsame₁ | hzero
        · rw [← hsame₁] at hinside₀ ⊢
          exact hnext hv _ hat₁ hinside₀
        · obtain ⟨reports, others, e, hread⟩ := hnext hv _ hat₁ (hzero ▸ .start)
          rw [hzero] at hread
          obtain ⟨reports', others', e', hread', -⟩ := hread.of_inside hinside₀
          exact ⟨reports', others', e', hread'⟩
    | some read =>
      obtain ⟨s₁, hcall', hat₁, hnext₁, -⟩ := call_read hat hinside₀ hread
      cases hcall.symm.trans hcall'
      by_cases hlast : read.1.value = -1
      · exact ⟨_, _, _, .early hread hlast⟩
      · have hread₁ := hnext hlast _ hat₁ (hnext₁ ▸ hinside₀.step hread hlast)
        rw [hnext₁] at hread₁
        obtain ⟨reports, others, e, hread₁⟩ := hread₁
        exact ⟨_, _, _, .option hread hlast hread₁⟩

/-- Calls that come to an end have read the elements. -/
theorem reading_of_until {trace : List (ℤ × State)}
    (huntil : Until (getoptLong a) (· = -1) s trace s') (h : At a s args)
    (hinside : Inside a args s.nextChar) : ReadableFrom a args s.nextChar := by
  induction huntil generalizing args with
  | last hcall hlast => exact readableFrom_of_call hcall (absurd hlast) h hinside
  | more hcall _ _ ih => exact readableFrom_of_call hcall (fun _ _ => ih) h hinside

/-! ### The number of calls -/

theorem Inside.lt_wrap (h : Inside a args i) : i < wrap := by
  cases h with
  | start => decide
  | letter _ hoption =>
    cases args with
    | nil => cases hoption
    | cons element rest =>
      rcases readOption_cases hoption with ⟨-, rfl⟩ | ⟨-, -, -, rfl⟩
      · decide
      · exact Nat.mod_lt _ (by decide)

/-- The counter of the letters does not overflow in a row that can be read: it
would start again at the first letter, and the reading of the element would be
longer than itself. -/
theorem Reading.not_wrap (hinside : Inside a (element :: rest) i)
    (hoption : readOption a (element :: rest) i = some (r, element :: rest, i'))
    (hvalue : r.value ≠ -1) (hread : Reading a (element :: rest) i' reports others e) :
    i' = i + 1 := by
  rcases readOption_cases hoption with ⟨hsuffix, -⟩ | ⟨-, -, -, hi'⟩
  · have := hsuffix.length_le
    rw [length_cons] at this
    omega
  · rcases Nat.lt_or_ge (i + 1) wrap with hlt | hge
    · rw [hi', Nat.mod_eq_of_lt hlt]
    · have hwrap : i + 1 = wrap := Nat.le_antisymm hinside.lt_wrap hge
      have hzero : i' = 0 := by rw [hi', hwrap, Nat.mod_self]
      subst hzero
      obtain ⟨reports', others', e', hread', hle⟩ := hread.of_inside hinside
      obtain ⟨rfl, -, -⟩ := hread'.unique (.option hoption hvalue hread)
      rw [length_cons] at hle
      omega

def chars (args : List CString) : ℕ := (args.map List.length).sum

theorem chars_le_of_suffix (h : args' <:+ args) : chars args' ≤ chars args := by
  obtain ⟨front, rfl⟩ := h
  simp [chars]

theorem Inside.eq_zero (h : Inside a args i) (hnone : ∀ j, readOption a args j = none) : i = 0 := by
  cases h with
  | start => rfl
  | letter _ hoption =>
    rw [hnone] at hoption
    cases hoption

theorem Inside.lt_length (h : Inside a (element :: rest) i) (hoption : isOption element = true) :
    i < element.length := by
  cases element with
  | nil => cases hoption
  | cons c cs =>
    rcases h.position hoption with ⟨rfl, -⟩ | ⟨hlt, -⟩
    · exact Nat.succ_pos _
    · exact Nat.lt_succ_of_lt hlt

/-- Every option has a character of its own. -/
theorem Reading.length_le (hread : Reading a args i reports others e) (hinside : Inside a args i) :
    reports.length + i ≤ chars args := by
  induction hread with
  | done =>
    have := hinside.eq_zero fun _ => rfl
    simp [this]
  | stop _ hother | trailing _ hother =>
    have := hinside.eq_zero fun _ => readOption_of_not_isOption hother
    simp [this]
  | skip _ hother _ _ ih =>
    have := ih (hinside.skip hother)
    rw [chars, map_cons, sum_cons, ← chars]
    omega
  | @option args args' others i i' r reports e hoption hvalue hread ih =>
    have hle := ih (hinside.step hoption hvalue)
    cases args with
    | nil => cases hoption
    | cons element rest =>
      have hlt := hinside.lt_length (isOption_of_readOption hoption)
      rw [length_cons]
      rcases readOption_cases hoption with ⟨hsuffix, rfl⟩ | ⟨rfl, -⟩
      · have := chars_le_of_suffix hsuffix
        rw [chars, map_cons, sum_cons, ← chars]
        omega
      · have := hread.not_wrap hinside hoption hvalue
        omega
  | @early args args' i i' r hoption hvalue =>
    cases args with
    | nil => cases hoption
    | cons element rest =>
      have hlt := hinside.lt_length (isOption_of_readOption hoption)
      rw [chars, map_cons, sum_cons, length_nil]
      omega

/-! ### The end of the calls -/

variable (a)

/-- The elements behind the name of the program can be read to their end. -/
def Readable (args : List CString) : Prop :=
  ∃ reports others e, Reading a args 0 reports others e

/-- The state before the first call, with the variables as the program finds
them, or with `optind` set to zero. -/
structure Start (program : CString) (args : List CString) (s : State) : Prop where
  argv_eq : s.argv = (program :: args).map some ++ [none]
  argc_eq : a.argc = args.length + 1
  fresh : s.optind = 0 ∨ s.optind = 1 ∧ s.nextChar = 0 ∧ s.copyNonOptionPtr = 1

variable {a}

/-- The first call starts behind the name of the program. -/
theorem Start.exists_at {program : CString} (h : Start a program args s) :
    ∃ s₀, getoptLong a s = getoptLong a s₀ ∧ At a s₀ args ∧ s₀.nextChar = 0 ∧
      s₀.argv = s.argv ∧ s₀.copyNonOptionPtr = 1 := by
  have hat : ∀ s₀ : State, s₀.argv = s.argv → s₀.optind = 1 → s₀.copyNonOptionPtr = 1 →
      At a s₀ args := by
    intro s₀ hargv hind hcopy
    refine ⟨?_, ?_, ?_, ?_⟩
    · rw [hargv, h.argv_eq, hind]
      rfl
    · rw [hind, h.argc_eq, Nat.add_comm]
    · rw [hind]
      exact Nat.one_pos
    · rw [hind, hcopy]
  rcases h.fresh with hzero | ⟨hind, hnext, hcopy⟩
  · refine ⟨s.reset, ?_, hat _ rfl rfl rfl, rfl, rfl, rfl⟩
    rw [getoptLong, if_pos hzero]
    rfl
  · exact ⟨s, rfl, hat s rfl hind hcopy, hnext, rfl, hcopy⟩

/-- The calls return `-1` at last, within the number of characters and elements,
if and only if the elements can be read. -/
theorem getoptLong_ends_iff (program : CString) (args : List CString) (s : State)
    (h : Start a program args s) :
    (∃ trace s', Until (getoptLong a) (· = -1) s trace s' ∧
        trace.length + 1 ≤ chars (program :: args) + a.argc) ↔ Readable a args := by
  obtain ⟨s₀, hcall, hat, hnext, -⟩ := h.exists_at
  constructor
  · rintro ⟨trace, s', huntil, -⟩
    have := reading_of_until (huntil.of_call_eq hcall.symm) hat (hnext ▸ .start)
    rwa [hnext] at this
  · rintro ⟨reports, others, e, hread⟩
    obtain ⟨trace, s', huntil, htrace, -⟩ := until_of_reading hread hat hnext .start
    refine ⟨trace, s', huntil.of_call_eq hcall, ?_⟩
    have hle := hread.length_le .start
    have hargc := h.argc_eq
    rw [htrace.length_eq, chars, map_cons, sum_cons, ← chars]
    omega

/-- The variables as the program finds them. -/
def State.start (argv : List CString) : State :=
  ⟨none, 1, 1, 0, 0, 1, argv.map some ++ [none], none, [], []⟩

/-- The option string `a`, without long options. -/
def letterA (argc : ℕ) : Args := ⟨argc, [97], [], false, false⟩

theorem start_letterA (program : CString) (args : List CString) :
    Start (letterA (args.length + 1)) program args (.start (program :: args)) :=
  ⟨rfl, rfl, .inr ⟨rfl, rfl, rfl⟩⟩

/-- The elements `x -a`. -/
theorem getoptLong_ends_letter :
    ∃ trace s', Until (getoptLong (letterA 3)) (· = -1)
        (.start [literal "ls", [120], [hyphen, 97]]) trace s' ∧
      trace.length + 1 ≤ chars [literal "ls", [120], [hyphen, 97]] + 3 :=
  (getoptLong_ends_iff (literal "ls") [[120], [hyphen, 97]] _ (start_letterA _ _)).mpr
    ⟨[⟨97, none, none⟩], [[120]], .options,
      .skip rfl (by decide) (by decide) (.option rfl (by decide) (.done 0))⟩

/-- The unknown option `-b` is reported for ever. -/
theorem getoptLong_unknown_forever :
    ¬∃ trace s', Until (getoptLong (letterA 2)) (· = -1)
        (.start [literal "ls", [hyphen, 98]]) trace s' := by
  rintro ⟨trace, s', huntil⟩
  obtain ⟨s₀, hcall, hat, hnext, -⟩ := (start_letterA (literal "ls") [[hyphen, 98]]).exists_at
  obtain ⟨reports, others, e, hread⟩ :=
    reading_of_until (huntil.of_call_eq hcall.symm) hat (hnext ▸ .start)
  rw [hnext] at hread
  cases hread with
  | stop _ hother | trailing _ hother | skip _ hother =>
    cases hother
  | option hread | early hread => cases hread

end Hzlibc.GetoptLong
