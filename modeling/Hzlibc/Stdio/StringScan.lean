import Hzlibc.Stdio.Pushback
import Mathlib.Data.Int.Cast.Lemmas

/-!
Scanning a string.

The stream of `vsscanf` is a string with a few characters given back in front
of it. To the scanner it is the text that is still to be read: looking ahead
changes nothing, and consuming drops one character. On such a text the parts of
the scanner are functions of what is left of it.
-/

namespace Hzlibc.Stdio

open Effect List Prog

/-! ### A text as a source -/

/-- The characters still to be read. -/
def textSource : Source (List Byte) where
  lookAhead := .gets fun text => text.headD 0
  consume := .modify List.tail
  consumeIfStrEqual str := do
    if ← .gets fun text => decide ((text.take str.length).map tolower = str) then
      .modify (List.drop str.length)
      pure true
    else pure false

/-- The stacked stream has the text left, at most `n` characters of it on its
stack. -/
structure Spells (n : ℕ) (a : Stacked Unit) (text : List Byte) : Prop where
  read : a.under.file.read = .strFileRead
  bare : a.under.file.bare = a.under.file
  text : text = a.pushed ++ a.under.file.readRest
  le : a.pushed.length ≤ n

namespace Spells

variable {n : ℕ} {a : Stacked Unit} {text : List Byte}

section

variable (h : Spells n a text)
include h

theorem mono {m : ℕ} (hle : n ≤ m) : Spells m a text :=
  ⟨h.read, h.bare, h.text, Nat.le_trans h.le hle⟩

/-- Reading from the string under the stack. -/
theorem run_under (size : ℕ) :
    (Stream.read Kernel.absent size).run a.under =
      (.ok ⟨(a.under.file.readRest.take size).length, a.under.file.readRest.take size⟩,
        { a.under with
          file := { a.under.file with readRest := a.under.file.readRest.drop size } }) := by
  have htake := takeUngetc_bare a.under.file size
  rw [h.bare] at htake
  rw [Stream.run_read_str h.read, Stream.run_strFileRead htake]
  simp

/-- A character is read off the text. -/
theorem run_read :
    ∃ a', ((Stacked.reader Kernel.absent).read 1).run a =
        (.ok ⟨(text.take 1).length, text.take 1⟩, a') ∧ Spells (n - 1) a' text.tail := by
  have hunder := h.run_under (1 - (a.pushed.take 1).length)
  have hread := Stacked.run_read (k := Kernel.absent) hunder
  have hdata : a.pushed.take 1 ++
      a.under.file.readRest.take (1 - (a.pushed.take 1).length) = text.take 1 := by
    rw [h.text]
    cases a.pushed <;> simp
  have hret : ((a.under.file.readRest.take (1 - (a.pushed.take 1).length)).length : ℤ) +
      (a.pushed.take 1).length = (text.take 1).length := by
    rw [← hdata, length_append]
    omega
  simp only [hdata, hret] at hread
  refine ⟨_, hread, ⟨h.read, ?_, ?_, ?_⟩⟩
  · rw [← h.bare]
    rfl
  · rw [h.text]
    cases a.pushed <;> simp
  · rw [length_drop]
    exact Nat.sub_le_sub_right h.le 1

theorem run_ungetc (hn : n < 0x1000) (c : Byte) :
    ((Stacked.reader Kernel.absent).ungetc (signed c)).run a =
        (.ok (signed c), { a with pushed := c :: a.pushed }) ∧
      Spells (n + 1) { a with pushed := c :: a.pushed } (c :: text) := by
  have hle := h.le
  have hroom : ¬ (a.pushed.length : ℤ) = ungetcCapacity := by
    simp only [ungetcCapacity]
    omega
  constructor
  · simp [Stacked.reader, Stacked.ungetc, if_neg hroom, signed]
  · refine ⟨h.read, h.bare, ?_, ?_⟩
    · rw [h.text, cons_append]
    · rw [length_cons]
      omega

theorem run_lookAhead (hpos : 0 < n) (hn : n < 0x1000) :
    ∃ a', (Stacked.reader Kernel.absent).lookAhead.run a = (.ok (text.headD 0), a') ∧
      Spells n a' text := by
  obtain ⟨a', hread, hspells⟩ := h.run_read
  rw [Reader.lookAhead, run_bind_of_ok hread]
  cases text with
  | nil =>
    refine ⟨a', rfl, hspells.mono (Nat.sub_le n 1)⟩
  | cons c text =>
    obtain ⟨hunget, hspells'⟩ := hspells.run_ungetc (by omega) c
    refine ⟨_, run_bind_of_ok hunget, hspells'.mono (by omega)⟩

theorem run_consume :
    ∃ a', (Stacked.reader Kernel.absent).consume.run a = (.ok (), a') ∧
      Spells (n - 1) a' text.tail := by
  obtain ⟨a', hread, hspells⟩ := h.run_read
  exact ⟨a', by rw [Reader.consume, run_bind_of_ok hread]; rfl, hspells⟩

theorem run_giveBack (buf : List Byte) (hn : n + buf.length < 0x1000) :
    ∃ a', ((Stacked.reader Kernel.absent).giveBack buf).run a = (.ok (), a') ∧
      Spells (n + buf.length) a' (buf.reverse ++ text) := by
  induction buf generalizing n a text with
  | nil => exact ⟨a, rfl, h⟩
  | cons c buf ih =>
    rw [length_cons] at hn
    obtain ⟨hunget, hspells⟩ := h.run_ungetc (by omega) c
    obtain ⟨a', hrun, hback⟩ := ih hspells (by omega)
    refine ⟨a', ?_, ?_⟩
    · rw [Reader.giveBack, run_bind_of_ok hunget, if_pos rfl, hrun]
    · rw [reverse_cons, append_assoc, length_cons]
      exact hback.mono (by omega)

end

/-- The loop that matches a word gives back all it has consumed if it fails. -/
theorem run_equalLoop (str buf : List Byte) (h : Spells (8 - buf.length) a text)
    (hstr : (0 : Byte) ∉ str) (hlen : str.length + buf.length ≤ 8) :
    ∃ a', ((Stacked.reader Kernel.absent).equalLoop str buf).run a =
        (.ok (decide ((text.take str.length).map tolower = str)), a') ∧
      Spells 8 a' (if (text.take str.length).map tolower = str then text.drop str.length
        else buf.reverse ++ text) := by
  induction str generalizing a text buf with
  | nil => exact ⟨a, rfl, h.mono (Nat.sub_le _ _)⟩
  | cons c str ih =>
    rw [length_cons] at hlen
    obtain ⟨a', hlook, hspells⟩ := h.run_lookAhead (by omega) (by omega)
    rw [Reader.equalLoop, run_bind_of_ok hlook]
    have hfail (hne : ¬ tolower (text.headD 0) = c) :
        ¬ (text.take (c :: str).length).map tolower = c :: str := by
      cases text with
      | nil => simp
      | cons x text => exact fun heq => hne (List.cons.inj heq).1
    by_cases heq : tolower (text.headD 0) = c
    · obtain ⟨x, rest, rfl⟩ : ∃ x rest, text = x :: rest := by
        cases text with
        | nil => exact absurd (heq ▸ mem_cons_self) hstr
        | cons x rest => exact ⟨x, rest, rfl⟩
      obtain ⟨a'', hconsume, hspells'⟩ := hspells.run_consume
      obtain ⟨a₃, hloop, hspells₃⟩ := ih (x :: buf) hspells'
        (fun hmem => hstr (mem_cons_of_mem _ hmem)) (by rw [length_cons]; omega)
      have hx : tolower x = c := heq
      refine ⟨a₃, ?_, ?_⟩
      · rw [if_pos heq, run_bind_of_ok hconsume]
        simp [tail_cons] at hloop ⊢
        rw [hloop]
        simp [hx]
      · simpa [hx] using hspells₃
    · obtain ⟨a'', hback, hspells'⟩ := hspells.run_giveBack buf (by omega)
      refine ⟨a'', ?_, ?_⟩
      · rw [if_neg heq, run_bind_of_ok hback, decide_eq_false (hfail heq)]
        rfl
      · rw [if_neg (hfail heq)]
        exact hspells'.mono (by omega)

end Spells

/-- To the scanner the stream is the text. -/
theorem source_respects : (Stacked.reader Kernel.absent).source.Respects (Spells 8) textSource where
  lookAhead a text h := by
    obtain ⟨a', hrun, hspells⟩ := h.run_lookAhead (by omega) (by omega)
    rw [show (Stacked.reader Kernel.absent).source.lookAhead.run a = _ from hrun]
    exact ⟨rfl, hspells⟩
  consume a text h := by
    obtain ⟨a', hrun, hspells⟩ := h.run_consume
    rw [show (Stacked.reader Kernel.absent).source.consume.run a = _ from hrun]
    exact ⟨rfl, hspells.mono (by omega)⟩
  consumeIfStrEqual str hstr a text h := by
    have hword : ∀ str ∈ Scan.words, (0 : Byte) ∉ str ∧ str.length ≤ 8 := by decide
    obtain ⟨a', hrun, hspells⟩ := h.run_equalLoop str [] (hword str hstr).1 (hword str hstr).2
    rw [show ((Stacked.reader Kernel.absent).source.consumeIfStrEqual str).run a = _ from hrun]
    by_cases heq : (text.take str.length).map tolower = str
    · rw [if_pos heq] at hspells
      simp only [textSource, run_bind, run_gets, heq, decide_true, if_true, run_modify, run_pure]
      exact ⟨trivial, hspells⟩
    · rw [if_neg heq] at hspells
      simp only [textSource, run_bind, run_gets, heq, decide_false, Bool.false_eq_true,
        if_false, run_pure]
      exact ⟨trivial, hspells⟩

/-- `vsscanf` scans the text of its string. -/
theorem vsscanf_eq {F : Type} (hz : Hz) (ld : LongDouble F) (str fmt : List Byte) :
    vsscanf hz ld str fmt =
      ((vfscanf hz ld textSource (str.length + 1) fmt).run (str.takeWhile (· ≠ 0))).1 := by
  have hstack : Represents (⟨createStrFile str, (), 0⟩ : Stream Unit)
      ⟨[], ⟨createStrFile str, (), 0⟩⟩ := ⟨rfl, File.holds_nil rfl rfl⟩
  have hspells : Spells 8 ⟨[], ⟨createStrFile str, (), 0⟩⟩ (str.takeWhile (· ≠ 0)) :=
    ⟨rfl, rfl, rfl, Nat.zero_le 8⟩
  rw [vsscanf, (vfscanf_sim reader_respects.source hz ld _ fmt hstack).1,
    (vfscanf_sim source_respects hz ld _ fmt hspells).1]

/-! ### Reading a text -/

namespace Scan

variable {F : Type}

/-- The scan with `k` more characters consumed. -/
def eat (s : Scan (List Byte) F) (k : ℕ) : Scan (List Byte) F :=
  { s with io := s.io.drop k, consumedChars := s.consumedChars + k }

/-- The scan with more stores. -/
def put (s : Scan (List Byte) F) (xs : List (Store F)) : Scan (List Byte) F :=
  { s with stores := s.stores ++ xs }

/-- The scan with one more conversion counted, or none. -/
def count (s : Scan (List Byte) F) (counted : Bool) : Scan (List Byte) F :=
  { s with consumed := s.consumed + counted.toNat }

/-- The scan with the argument of a conversion taken. -/
def pop (s : Scan (List Byte) F) (assign : Bool) : Scan (List Byte) F :=
  { s with nextArg := s.nextArg + assign.toNat }

section Fields

variable (s : Scan (List Byte) F) (i j k : ℕ) (xs ys : List (Store F)) (counted assign : Bool)

@[simp] theorem eat_zero : s.eat 0 = s := rfl

@[simp] theorem eat_eat : (s.eat i).eat j = s.eat (i + j) := by simp [eat, Nat.add_assoc]

@[simp] theorem io_eat : (s.eat k).io = s.io.drop k := rfl

@[simp] theorem consumed_eat : (s.eat k).consumed = s.consumed := rfl

@[simp] theorem nextArg_eat : (s.eat k).nextArg = s.nextArg := rfl

@[simp] theorem stores_eat : (s.eat k).stores = s.stores := rfl

@[simp] theorem put_nil : s.put [] = s := by simp [put]

@[simp] theorem put_put : (s.put xs).put ys = s.put (xs ++ ys) := by simp [put]

@[simp] theorem eat_put : (s.put xs).eat k = (s.eat k).put xs := rfl

@[simp] theorem io_put : (s.put xs).io = s.io := rfl

@[simp] theorem consumed_put : (s.put xs).consumed = s.consumed := rfl

@[simp] theorem stores_put : (s.put xs).stores = s.stores ++ xs := rfl

@[simp] theorem count_false : s.count false = s := by simp [count]

end Fields

variable (s : Scan (List Byte) F)

@[simp] theorem run_lookAhead : (lookAhead textSource).run s = (.ok (s.io.headD 0), s) := rfl

@[simp] theorem run_consume : (consume textSource).run s = (.ok (), s.eat 1) := by
  have hdrop : s.io.tail = s.io.drop 1 := drop_one.symm
  simp only [consume, run_bind, lift, textSource, run_mapError, run_zoom,
    run_modify, Except.mapError, eat, hdrop]

theorem run_skipSpace (rounds : ℕ) (h : s.io.length < rounds) :
    (skipSpace textSource rounds).run s = (.ok (), s.eat (s.io.takeWhile isspace).length) := by
  induction rounds generalizing s with
  | zero => exact absurd h (Nat.not_lt_zero _)
  | succ rounds ih =>
    rw [skipSpace, run_bind_of_ok (run_lookAhead s)]
    rcases hio : s.io with _ | ⟨c, rest⟩
    · rfl
    · rw [headD_cons]
      cases hc : isspace c with
      | false =>
        rw [takeWhile_cons_of_neg (by simp [hc])]
        rfl
      | true =>
        rw [if_pos rfl, run_bind_of_ok (run_consume s), ih (s.eat 1), eat_eat, io_eat, hio,
          takeWhile_cons_of_pos hc, Nat.add_comm]
        · rfl
        · rw [io_eat, length_drop, hio, length_cons]
          rw [hio, length_cons] at h
          omega

/-! ### Loops -/

/-- The characters at the start of a text, at most `n`, that are accepted. -/
def accepted (accepts : Byte → Bool) (n : ℕ) (text : List Byte) : List Byte :=
  (text.take n).takeWhile accepts

variable (accepts : Byte → Bool)

@[simp] theorem accepted_zero (text : List Byte) : accepted accepts 0 text = [] := rfl

@[simp] theorem accepted_nil (n : ℕ) : accepted accepts n [] = [] := by
  simp [accepted]

theorem accepted_cons (n : ℕ) (c : Byte) (text : List Byte) :
    accepted accepts (n + 1) (c :: text) =
      if accepts c then c :: accepted accepts n text else [] := by
  simp [accepted, takeWhile_cons]

/-- A loop that consumes the characters it accepts, folds them over the
characters at the start of the text. -/
theorem run_loop {α β : Type} (loop : ℕ → β → M (List Byte) F α) (accepts : Byte → Bool)
    (next : β → Byte → β) (out : β → α) (hstop : accepts 0 = false)
    (hzero : ∀ b, loop 0 b = pure (out b))
    (hsucc : ∀ n b, loop (n + 1) b = do
      let c ← lookAhead textSource
      if accepts c then
        consume textSource
        loop n (next b c)
      else pure (out b)) (n : ℕ) (b : β) :
    (loop n b).run s =
      (.ok (out ((accepted accepts n s.io).foldl next b)),
        s.eat (accepted accepts n s.io).length) := by
  induction n generalizing s b with
  | zero => simp [hzero]
  | succ n ih =>
    rw [hsucc, run_bind_of_ok (run_lookAhead s)]
    rcases hio : s.io with _ | ⟨c, rest⟩
    · rw [headD_nil, hstop]
      simp
    · rw [headD_cons, accepted_cons]
      cases hc : accepts c with
      | false =>
        simp
      | true =>
        have hrest : (s.eat 1).io = rest := by rw [io_eat, hio]; rfl
        rw [if_pos rfl, if_pos rfl, run_bind_of_ok (run_consume s), ih (s.eat 1), hrest,
          eat_eat, foldl_cons, length_cons, Nat.add_comm 1]

/-- A fold that counts its rounds. -/
theorem foldl_counted {β ι : Type} [AddMonoidWithOne ι] (f : β → Byte → β) (row : List Byte)
    (b : β) (i : ι) :
    row.foldl (fun p c => (f p.1 c, p.2 + 1)) (b, i) = (row.foldl f b, i + row.length) := by
  induction row generalizing b i with
  | nil => simp
  | cons c row ih =>
    rw [foldl_cons, ih, foldl_cons, length_cons, add_assoc, ← Nat.cast_one,
      ← Nat.cast_add, Nat.add_comm 1]

theorem run_digitLoop (base : ℕ) {accepts : Byte → Bool} (hzero : accepts 0 = false) (n v : ℕ)
    (used : ℤ) :
    (digitLoop textSource base accepts n (BitVec.ofNat 64 v) used).run s =
      (.ok (BitVec.ofNat 64 ((accepted accepts n s.io).foldl
          (fun n c => base * n + digitValue (tolower c)) v),
        used + (accepted accepts n s.io).length),
        s.eat (accepted accepts n s.io).length) := by
  have hvalue (v : ℕ) (c : Byte) : BitVec.ofNat 64 v * BitVec.ofNat 64 base +
      BitVec.ofNat 64 (digitValue (tolower c)) =
        BitVec.ofNat 64 (base * v + digitValue (tolower c)) := by
    rw [← BitVec.ofNat_mul, ← BitVec.ofNat_add, Nat.mul_comm]
  have hloop := run_loop s
    (fun n (p : ℕ × ℤ) => digitLoop textSource base accepts n (BitVec.ofNat 64 p.1) p.2)
    accepts (fun p c => (base * p.1 + digitValue (tolower c), p.2 + 1))
    (fun p => (BitVec.ofNat 64 p.1, p.2)) hzero (fun _ => rfl)
    (fun n p => by simp [digitLoop, hvalue]) n (v, used)
  rw [foldl_counted fun n c => base * n + digitValue (tolower c)] at hloop
  exact hloop

/-! ### The start of a number -/

/-- The characters of a sign at the start of a text. -/
def signCount (maxWidth : ℤ) (text : List Byte) : ℕ :=
  if maxWidth ≠ 0 ∧ (text.headD 0 = '-' ∨ text.headD 0 = '+') then 1 else 0

/-- What is known of a number after its sign. -/
def signLead (maxWidth : ℤ) (base : ℕ) (text : List Byte) : Lead where
  negative := maxWidth ≠ 0 ∧ text.headD 0 = '-'
  maxWidth := maxWidth - signCount maxWidth text
  used := 0
  extra := signCount maxWidth text
  base

@[simp] theorem run_scanSign (maxWidth : ℤ) (base : ℕ) :
    (scanSign textSource maxWidth base).run s =
      (.ok (signLead maxWidth base s.io), s.eat (signCount maxWidth s.io)) := by
  rw [scanSign, signLead, signCount]
  by_cases hwidth : maxWidth = 0
  · simp [hwidth]
  · rw [if_pos hwidth, run_bind_of_ok (run_lookAhead s)]
    by_cases hminus : s.io.headD 0 = '-'
    · rw [if_pos hminus, run_bind_of_ok (run_consume s), if_pos ⟨hwidth, .inl hminus⟩,
        decide_eq_true ⟨hwidth, hminus⟩]
      rfl
    · have hneg : ¬ (maxWidth ≠ 0 ∧ s.io.headD 0 = '-') := fun h => hminus h.2
      rw [if_neg hminus, run_bind_of_ok (run_lookAhead s), decide_eq_false hneg]
      by_cases hplus : s.io.headD 0 = '+'
      · rw [if_pos hplus, run_bind_of_ok (run_consume s), if_pos ⟨hwidth, .inr hplus⟩]
        rfl
      · rw [if_neg hplus, if_neg fun h => h.2.elim hminus hplus]
        simp

/-- What a marker makes of a number, and how many characters it takes. -/
abbrev Mark := Lead → List Byte → Lead × ℕ

/-- A part of the scanner reads a marker. -/
def Reads (m : Lead → M (List Byte) F Lead) (mark : Mark) : Prop :=
  ∀ lead s, (m lead).run s = (.ok (mark lead s.io).1, s.eat (mark lead s.io).2)

def noMark : Mark := fun lead _ => (lead, 0)

def Lead.marked (lead : Lead) (base : ℕ) : Lead :=
  { lead with
    maxWidth := lead.maxWidth - 1, used := lead.used - 1, extra := lead.extra + 2, base }

def hexMark : Mark := fun lead text =>
  if text.headD 0 = 'x' ∨ text.headD 0 = 'X' then (lead.marked 16, 1) else (lead, 0)

def integerMark : Mark := fun lead text =>
  if text.headD 0 = 'x' ∨ text.headD 0 = 'X' then (lead.marked 16, 1)
  else if text.headD 0 = 'b' ∨ text.headD 0 = 'B' then (lead.marked 2, 1)
  else ({ lead with base := 8 }, 0)

/-- A zero with what comes after it. -/
def zeroMark (after : Mark) : Mark := fun lead text =>
  if lead.maxWidth ≠ 0 ∧ text.headD 0 = '0' then
    let r := after { lead with maxWidth := lead.maxWidth - 1, used := lead.used + 1 } (text.drop 1)
    (r.1, 1 + r.2)
  else (lead, 0)

theorem pure_reads : Reads (pure : Lead → M (List Byte) F Lead) noMark := fun _ _ => rfl

@[simp] theorem run_lookAheadIsEither (a b : Byte) :
    (lookAheadIsEither textSource a b).run s =
      (.ok (decide (s.io.headD 0 = a ∨ s.io.headD 0 = b)), s) := by
  rw [lookAheadIsEither, run_bind_of_ok (run_lookAhead s)]
  by_cases ha : s.io.headD 0 = a
  · rw [if_pos ha, decide_eq_true (.inl ha)]
    rfl
  · simp only [ha, false_or]
    rfl

/-- One of two letters is a marker, and without them the reading goes on. -/
theorem either_reads (a b : Byte) (base : ℕ) {other : Lead → M (List Byte) F Lead} {mark : Mark}
    (h : Reads other mark) :
    Reads (fun lead => lookAheadIsEither textSource a b >>= fun either =>
        if either then consumeMarker textSource lead base else other lead)
      fun lead text =>
        if text.headD 0 = a ∨ text.headD 0 = b then (lead.marked base, 1) else mark lead text := by
  intro lead s
  rw [run_bind_of_ok (run_lookAheadIsEither s a b)]
  beta_reduce
  by_cases hx : s.io.headD 0 = a ∨ s.io.headD 0 = b
  · rw [if_pos (decide_eq_true hx), if_pos hx, consumeMarker, run_bind_of_ok (run_consume s)]
    rfl
  · rw [if_neg (by rw [decide_eq_true_eq]; exact hx), if_neg hx, h]

theorem hexMarker_reads : Reads (F := F) (hexMarker textSource) hexMark :=
  either_reads _ _ _ fun _ _ => rfl

theorem integerMarker_reads : Reads (F := F) (integerMarker textSource) integerMark :=
  either_reads _ _ _ (either_reads _ _ _ fun _ _ => rfl)

theorem scanZero_reads {after : Lead → M (List Byte) F Lead} {mark : Mark} (h : Reads after mark) :
    Reads (fun lead => scanZero textSource lead after) (zeroMark mark) := by
  intro lead s
  change (scanZero textSource lead after).run s = _
  rw [scanZero, zeroMark]
  by_cases hwidth : lead.maxWidth = 0
  · rw [if_neg (not_not_intro hwidth), if_neg fun h => h.1 hwidth]
    rfl
  · rw [if_pos hwidth, run_bind_of_ok (run_lookAhead s)]
    by_cases hzero : s.io.headD 0 = '0'
    · rw [if_pos hzero, if_pos ⟨hwidth, hzero⟩, run_bind_of_ok (run_consume s), h, io_eat, eat_eat]
    · rw [if_neg hzero, if_neg fun h => hzero h.2]
      rfl

/-! ### Integers -/

/-- What a conversion takes for an integer: a marker, and digits by the base
that it leaves. -/
structure IntShape where
  mark : Mark
  base : ℕ
  accepts : ℕ → Byte → Bool

namespace IntShape

variable (shape : IntShape) (maxWidth : ℤ) (text : List Byte)

/-- The sign and the marker at the start of a text. -/
def lead : Lead × ℕ :=
  let r := shape.mark (signLead maxWidth shape.base text) (text.drop (signCount maxWidth text))
  (r.1, signCount maxWidth text + r.2)

/-- The digits after them. -/
def digits : List Byte :=
  accepted (shape.accepts (shape.lead maxWidth text).1.base)
    (shape.lead maxWidth text).1.maxWidth.toNat (text.drop (shape.lead maxWidth text).2)

def value : BitVec 64 :=
  BitVec.ofNat 64 (readDigits (shape.lead maxWidth text).1.base (shape.digits maxWidth text))

def used : ℤ := (shape.lead maxWidth text).1.used + (shape.digits maxWidth text).length

/-- The characters consumed. -/
def taken : ℕ := (shape.lead maxWidth text).2 + (shape.digits maxWidth text).length

end IntShape

theorem run_scanInt (shape : IntShape) {marker : Lead → M (List Byte) F Lead}
    (hmark : Reads marker shape.mark) (hzero : ∀ base, shape.accepts base 0 = false)
    (dest : Option ℕ) (state : State) (width : Option ℤ) :
    (scanInt textSource marker shape.base shape.accepts dest state width).run s =
      (finishInt textSource dest state (shape.lead (width.getD intMax) s.io).1
        (shape.value (width.getD intMax) s.io) (shape.used (width.getD intMax) s.io)).run
        (s.eat (shape.taken (width.getD intMax) s.io)) := by
  have hlead := hmark (signLead (width.getD intMax) shape.base s.io)
    (s.eat (signCount (width.getD intMax) s.io))
  rw [eat_eat] at hlead
  have hloop := run_digitLoop (s.eat (shape.lead (width.getD intMax) s.io).2)
    (shape.lead (width.getD intMax) s.io).1.base
    (hzero (shape.lead (width.getD intMax) s.io).1.base)
    (shape.lead (width.getD intMax) s.io).1.maxWidth.toNat 0
    (shape.lead (width.getD intMax) s.io).1.used
  rw [eat_eat] at hloop
  rw [scanInt, run_bind_of_ok (run_scanSign s _ _), run_bind_of_ok hlead]
  exact run_bind_of_ok hloop

def decimalShape : IntShape := ⟨noMark, 10, fun _ => isdigit⟩

def integerShape : IntShape :=
  ⟨zeroMark integerMark, 10, fun base c => isProperDigit base (tolower c)⟩

def octalShape : IntShape := ⟨zeroMark noMark, 8, fun _ c => 48 ≤ c.toNat && c.toNat ≤ 55⟩

def hexShape : IntShape := ⟨zeroMark hexMark, 16, fun _ => isxdigit⟩

end Scan

def Conversion.intShape : Conversion → Option Scan.IntShape
  | .decimal => some Scan.decimalShape
  | .integer => some Scan.integerShape
  | .octal => some Scan.octalShape
  | .hex | .pointer => some Scan.hexShape
  | _ => none

/-- The modifier by which an integer is stored. -/
def Conversion.intState (state : State) : Conversion → State
  | .pointer => .l
  | _ => state

namespace Scan

variable {F : Type} (s : Scan (List Byte) F)

@[simp] theorem isProperDigit_zero (base : ℕ) : isProperDigit base (tolower 0) = false := by
  rw [isProperDigit]
  split <;> rfl

theorem run_convert_int (ld : LongDouble F) {conv : Conversion} {shape : IntShape}
    (hshape : conv.intShape = some shape) (dest : Option ℕ) (width : Option ℤ) (state : State) :
    (convert textSource ld dest width state conv).run s =
      (finishInt textSource dest (conv.intState state) (shape.lead (width.getD intMax) s.io).1
        (shape.value (width.getD intMax) s.io) (shape.used (width.getD intMax) s.io)).run
        (s.eat (shape.taken (width.getD intMax) s.io)) := by
  cases conv <;> cases hshape
  case decimal =>
    exact run_scanInt s decimalShape pure_reads (fun _ => rfl) dest state width
  case integer =>
    exact run_scanInt s integerShape (scanZero_reads integerMarker_reads) isProperDigit_zero dest
      state width
  case octal =>
    exact run_scanInt s octalShape (scanZero_reads pure_reads) (fun _ => rfl) dest state width
  case hex =>
    exact run_scanInt s hexShape (scanZero_reads hexMarker_reads) (fun _ => rfl) dest state width
  case pointer =>
    exact run_scanInt s hexShape (scanZero_reads hexMarker_reads) (fun _ => rfl) dest .l width

@[simp] theorem run_countConsumed : countConsumed.run s = (.ok (), s.count true) := rfl

def intStores (dest : Option ℕ) (bits : ℕ) (value : BitVec 64) : List (Store F) :=
  dest.elim [] fun arg => [.int arg bits (value.toNat % 2 ^ bits)]

theorem run_writeIntToDest {state : State} {bits : ℕ} (hbits : state.bits = some bits)
    (dest : Option ℕ) (value : BitVec 64) :
    (writeIntToDest dest state value).run s = (.ok (), s.put (intStores dest bits value)) := by
  cases dest with
  | none => simp [writeIntToDest, intStores]
  | some arg =>
    rw [writeIntToDest, hbits]
    rfl

/-- A number that is found is stored and counted. -/
theorem run_finishInt {state : State} {bits : ℕ} (hbits : state.bits = some bits)
    (dest : Option ℕ) (lead : Lead) (value : BitVec 64) {used : ℤ} (hused : used ≠ 0) :
    (finishInt textSource dest state lead value used).run s =
      (.ok (), (s.put (intStores dest bits (if lead.negative then -value else value))).count
        dest.isSome) := by
  rw [finishInt]
  cases dest with
  | none => simp [hused, intStores]
  | some arg =>
    rw [if_pos ⟨rfl, hused⟩, run_bind_of_ok (run_writeIntToDest s hbits _ _)]
    rfl

end Scan

end Hzlibc.Stdio
