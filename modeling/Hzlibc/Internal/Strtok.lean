import Hzlibc.Stdio.Basic
import Mathlib.Data.BitVec

/-!
`strtok_r` and `wcstok`.

The two cut a string in the same way, but leave different pointers behind a token
that ends with the string: `strtok_r` the end of the string, and `wcstok` the
character before the place it started from, since it adds `npos`.
-/

namespace Hzlibc.Strtok

open List
open Stdio (Byte Wchar)

/-- The buffer, and the offset in it that `*save_ptr` is. -/
structure Saved (α : Type) where
  mem : List α
  ptr : ℤ

/-- A call with a string or with null. It has no result if the pointer is out of the
buffer. -/
abbrev Call (α : Type) := Option ℤ → Saved α → Option (Option ℤ × Saved α)

section Model

variable {α : Type} [Zero α] [DecidableEq α]

/-- The string at an offset. -/
def text (mem : List α) (p : ℤ) : List α := (mem.drop p.toNat).takeWhile (· ≠ 0)

/-- What both functions do. After a token that ends with the string, `last` is added to
the pointer. -/
def tok (last : List α → ℤ) (delim : List α) : Call α := fun str s =>
  let start := str.getD s.ptr
  if 0 ≤ start ∧ start < s.mem.length then
    let strView := text s.mem start
    match strView.findIdx? (· ∉ delim) with
    | none => some (none, ⟨s.mem, start⟩)
    | some startPos =>
      match (strView.drop startPos).findIdx? (· ∈ delim) with
      | some n =>
        let endPos := start + startPos + n
        some (some (start + startPos), ⟨s.mem.set endPos.toNat 0, endPos + 1⟩)
      | none => some (some (start + startPos), ⟨s.mem, start + last strView⟩)
  else none

def strtokR : List α → Call α := tok fun strView => strView.length

def wcstok : List α → Call α := tok fun _ => -1

/-- Calls with the given first arguments, and what they return. -/
def calls (f : Call α) : List (Option ℤ) → Saved α → Option (List (Option ℤ) × Saved α)
  | [], s => some ([], s)
  | str :: strs, s => do
    let (r, s) ← f str s
    let (rs, s) ← calls f strs s
    return (r :: rs, s)

/-- A call with the string at the start of the buffer, and `n` with null. -/
def tokenize (f : Call α) (n : ℕ) : Saved α → Option (List (Option ℤ) × Saved α) :=
  calls f (some 0 :: replicate n none)

end Model

/-! ### The tokens of a string -/

section Tokens

variable {α : Type} {p : α → Bool}

/-- The maximal rows of characters that are not delimiters. -/
def tokens (p : α → Bool) (s : List α) : List (List α) := (s.splitOnP p).filter (· ≠ [])

theorem tokens_append {d : List α} (hd : ∀ c ∈ d, p c) (s : List α) :
    tokens p (d ++ s) = tokens p s := by
  induction d with
  | nil => rfl
  | cons c d ih =>
    obtain ⟨hc, hd⟩ := forall_mem_cons.mp hd
    rw [← ih hd, tokens, cons_append, splitOnP_cons_eq_if_modifyHead, if_pos hc]
    rfl

theorem findIdx?_first {a : List α} (ha : ∀ x ∈ a, p x = false) {c : α} (hc : p c) (b : List α) :
    (a ++ c :: b).findIdx? p = some a.length := by
  rw [findIdx?_append, findIdx?_eq_none_iff.mpr ha, findIdx?_cons, if_pos hc]
  simp

/-- Behind the leading delimiters is nothing, or a token, which ends at a delimiter or
with the string. -/
theorem tokens_cases (p : α → Bool) (s : List α) :
    (∀ c ∈ s, p c) ∧ tokens p s = [] ∨
      ∃ d t, t ≠ [] ∧ (∀ c ∈ d, p c) ∧ (∀ c ∈ t, p c = false) ∧
        (s = d ++ t ∧ tokens p s = [t] ∨
          ∃ c rest, p c ∧ s = d ++ (t ++ c :: rest) ∧ tokens p s = t :: tokens p rest) := by
  cases hfirst : s.find? (!p ·) with
  | none =>
    have hs : ∀ c ∈ s, p c := by simpa using hfirst
    refine .inl ⟨hs, ?_⟩
    rw [← append_nil s, tokens_append hs]
    rfl
  | some first =>
    obtain ⟨hnot, d, b, rfl, hd⟩ := find?_eq_some_iff_append.mp hfirst
    simp at hnot hd
    refine .inr ?_
    rw [tokens_append hd]
    cases hnext : (first :: b).find? p with
    | none =>
      have ht : ∀ c ∈ first :: b, p c = false := by simpa using hnext
      refine ⟨d, first :: b, cons_ne_nil _ _, hd, ht, .inl ⟨rfl, ?_⟩⟩
      rw [tokens, splitOnP_eq_singleton ht]
      rfl
    | some c =>
      obtain ⟨hc, t, rest, hsplit, ht⟩ := find?_eq_some_iff_append.mp hnext
      have hne : t ≠ [] := by
        rintro rfl
        obtain ⟨rfl, -⟩ := cons.inj hsplit
        rw [hc] at hnot
        cases hnot
      have ht : ∀ c ∈ t, p c = false := by simpa using ht
      rw [hsplit]
      refine ⟨d, t, hne, hd, ht, .inr ⟨c, rest, hc, rfl, ?_⟩⟩
      rw [tokens, splitOnP_append_cons_of_forall_mem ht c hc, filter_cons_of_pos (by simp [hne])]
      rfl

theorem map_tokens_cons (t : List α) (ts : List (List α)) (n : ℕ) :
    (range (n + 1)).map ((t :: ts)[·]?) = some t :: (range n).map (ts[·]?) := by
  rw [range_succ_eq_map, map_cons, map_map]
  rfl

theorem map_tokens_nil (f : ℤ → List α) (n : ℕ) :
    (replicate n none).map (Option.map f) = (range n).map (([] : List (List α))[·]?) := by
  simp [map_const']

theorem tokens_map {β : Type} (w : β → α) (s : List β) :
    tokens p (s.map w) = (tokens (p ∘ w) s).map (map w) := by
  have hsplit : (s.map w).splitOnP p = (s.splitOnP (p ∘ w)).map (map w) := by
    induction s with
    | nil => rfl
    | cons c s ih =>
      rw [map_cons, splitOnP_cons_eq_if_modifyHead, splitOnP_cons_eq_if_modifyHead, ih]
      cases hrest : s.splitOnP (p ∘ w) <;> split <;> simp_all
  rw [tokens, hsplit, filter_map]
  simp [tokens, Function.comp_def]

end Tokens

/-! ### One call -/

section Calls

variable {α : Type} [Zero α] [DecidableEq α] {last : List α → ℤ} {delim : List α}

theorem text_eq {rest : List α} (hrest : 0 ∉ rest) (before after : List α) :
    text (before ++ rest ++ 0 :: after) before.length = rest := by
  rw [text, Int.toNat_natCast, append_assoc, drop_left, takeWhile_append_of_pos]
  · simp
  · rintro c hc
    simpa using ne_of_mem_of_not_mem hc hrest

omit [Zero α] [DecidableEq α] in
theorem calls_cons {f : Call α} {str r : Option ℤ} {s s' s'' : Saved α}
    (h : f str s = some (r, s')) {strs rs : List (Option ℤ)}
    (hcalls : calls f strs s' = some (rs, s'')) :
    calls f (str :: strs) s = some (r :: rs, s'') := by
  simp [calls, h, hcalls]

/-- Without a token in the rest of the string nothing changes. -/
theorem calls_stuck {mem : List α} {ptr : ℤ} (hlow : 0 ≤ ptr) (hhigh : ptr < mem.length)
    (h : ∀ c ∈ text mem ptr, c ∈ delim) (n : ℕ) :
    calls (tok last delim) (replicate n none) ⟨mem, ptr⟩ = some (replicate n none, ⟨mem, ptr⟩) := by
  have hnone : (text mem ptr).findIdx? (· ∉ delim) = none :=
    findIdx?_eq_none_iff.mpr fun c hc => by simpa using h c hc
  induction n with
  | zero => rfl
  | succ n ih =>
    have htok : tok last delim none ⟨mem, ptr⟩ = some (none, ⟨mem, ptr⟩) := by
      simp only [tok, Option.getD_none, hnone]
      rw [if_pos ⟨hlow, hhigh⟩]
    exact calls_cons htok ih

variable (last) (before : List α) {d t : List α} (hd : ∀ c ∈ d, c ∈ delim)
  (ht : ∀ c ∈ t, c ∉ delim) (hne : t ≠ [])
include hd ht hne

omit [Zero α] in
theorem findIdx?_start (rest : List α) :
    (d ++ (t ++ rest)).findIdx? (· ∉ delim) = some d.length := by
  obtain ⟨first, t, rfl⟩ := exists_cons_of_ne_nil hne
  exact findIdx?_first (by simpa using hd) (by simpa using ht first mem_cons_self) _

theorem tok_last (hrest : 0 ∉ d ++ t) :
    tok last delim none ⟨before ++ (d ++ t) ++ [0], before.length⟩ =
      some (some ((before.length : ℤ) + d.length),
        ⟨before ++ (d ++ t) ++ [0], before.length + last (d ++ t)⟩) := by
  have hstart := findIdx?_start hd ht hne []
  have hend : t.findIdx? (· ∈ delim) = none := findIdx?_eq_none_iff.mpr (by simpa using ht)
  rw [append_nil] at hstart
  simp only [tok, Option.getD_none, text_eq hrest, hstart, drop_left, hend]
  rw [if_pos ⟨by omega, by simp; omega⟩]

theorem tok_token {c : α} {rest : List α} (hc : c ∈ delim) (hrest : 0 ∉ d ++ (t ++ c :: rest)) :
    tok last delim none ⟨before ++ (d ++ (t ++ c :: rest)) ++ [0], before.length⟩ =
      some (some ((before.length : ℤ) + d.length),
        ⟨before ++ d ++ t ++ [0] ++ rest ++ [0], (before ++ d ++ t ++ [0]).length⟩) := by
  have hend : (t ++ c :: rest).findIdx? (· ∈ delim) = some t.length :=
    findIdx?_first (by simpa using ht) (by simpa using hc) rest
  have hset : (before ++ (d ++ (t ++ c :: rest)) ++ [0]).set
      ((before.length : ℤ) + d.length + t.length).toNat 0 =
        before ++ d ++ t ++ [0] ++ rest ++ [0] := by
    rw [show ((before.length : ℤ) + d.length + t.length).toNat = (before ++ d ++ t).length by
      simp; omega]
    simp
  simp only [tok, Option.getD_none, text_eq hrest, findIdx?_start hd ht hne, drop_left, hend, hset]
  rw [if_pos ⟨by omega, by simp; omega⟩]
  simp [Int.add_assoc]

omit hd ht hne

/-- A token in the buffer, with the null character behind it. -/
theorem text_token (d : List α) (ht : 0 ∉ t) {mem : List α}
    (hmem : before ++ d ++ t ++ [0] <+: mem) :
    text mem ((before.length : ℤ) + d.length) = t := by
  obtain ⟨after, rfl⟩ := hmem
  have htext := text_eq ht (before ++ d) after
  rwa [length_append, Int.natCast_add, ← singleton_append, ← append_assoc] at htext

/-- Delimiters, and one token that ends with the string. -/
def OneToken (delim s : List α) : Prop :=
  ∃ d t, s = d ++ t ∧ t ≠ [] ∧ (∀ c ∈ d, c ∈ delim) ∧ ∀ c ∈ t, c ∉ delim

/-- The pointer that is left by the last token is at a null character. -/
def Ends (last : List α → ℤ) (before rest : List α) : Prop :=
  ∃ b a, before ++ rest ++ [0] = b ++ 0 :: a ∧ before.length + last rest = b.length

/-- The `i`-th call returns the `i`-th token, and null if there is none; nothing before
the pointer is written to again. -/
theorem calls_tokens {last before} (hlast : ∀ before rest, Ends last (before ++ [0]) rest)
    {rest : List α} (hrest : 0 ∉ rest) (hfirst : OneToken delim rest → Ends last before rest)
    (n : ℕ) : ∃ rs mem ptr, calls (tok last delim) (replicate n none)
        ⟨before ++ rest ++ [0], before.length⟩ = some (rs, ⟨mem, ptr⟩) ∧
      rs.map (Option.map (text mem)) = (range n).map ((tokens (· ∈ delim) rest)[·]?) ∧
      before <+: mem ∧ [0] <:+ mem ∧ mem.length = (before ++ rest ++ [0]).length ∧
      0 ≤ ptr ∧ ptr < mem.length := by
  induction n generalizing before rest with
  | zero => exact ⟨_, _, _, rfl, rfl, by simp, suffix_append _ _, rfl, by omega, by simp⟩
  | succ n ih =>
    have hcases := tokens_cases (· ∈ delim) rest
    simp only [decide_eq_true_eq, decide_eq_false_iff_not] at hcases
    rcases hcases with ⟨hs, htokens⟩ |
      ⟨d, t, hne, hd, ht, ⟨rfl, htokens⟩ | ⟨c, rest, hc, rfl, htokens⟩⟩
    · refine ⟨_, _, _, calls_stuck (by omega) (by simp) ?_ (n + 1), ?_,
        by simp, suffix_append _ _, rfl, by omega, by simp⟩
      · rwa [text_eq hrest]
      · rw [htokens, map_tokens_nil]
    · obtain ⟨b, a, hmem, hptr⟩ := hfirst ⟨d, t, rfl, hne, hd, ht⟩
      have hcall := tok_last last before hd ht hne hrest
      have hempty : text (b ++ [] ++ 0 :: a) b.length = [] := text_eq (by simp) b a
      have htext : text (before ++ (d ++ t) ++ [0]) _ = t :=
        text_token before d (fun h => hrest (mem_append_right d h)) (by simp)
      rw [hptr] at hcall
      rw [append_nil, ← hmem] at hempty
      refine ⟨_, _, _, calls_cons hcall (calls_stuck (by omega) ?_ (by rw [hempty]; simp) n), ?_,
        by simp, suffix_append _ _, rfl, by omega, ?_⟩
      · rw [hmem]
        simp
      · rw [htokens, map_tokens_cons, map_cons, map_tokens_nil, Option.map_some, htext]
      · rw [hmem]
        simp
    · have hcall := tok_token last before hd ht hne hc hrest
      have hparts : 0 ∉ t ∧ 0 ∉ rest := by simp at hrest; tauto
      obtain ⟨rs, mem, ptr, hcalls, htexts, hbefore, hmem, hlength, hptr⟩ :=
        ih hparts.2 fun _ => hlast _ rest
      refine ⟨_, mem, ptr, calls_cons hcall hcalls, ?_, ?_, hmem, ?_, hptr⟩
      · rw [htokens, map_tokens_cons, map_cons, htexts, Option.map_some,
          text_token before d hparts.1 hbefore]
      · exact .trans (by simp) hbefore
      · rw [hlength]
        simp

theorem tokenize_tokens {last} (hlast : ∀ before rest, Ends last (before ++ [0]) rest)
    {s : List α} (hs : 0 ∉ s) (hfirst : OneToken delim s → Ends last [] s) (old : ℤ) (n : ℕ) :
    ∃ rs mem ptr, tokenize (tok last delim) n ⟨s ++ [0], old⟩ = some (rs, ⟨mem, ptr⟩) ∧
      rs.map (Option.map (text mem)) = (range (n + 1)).map ((tokens (· ∈ delim) s)[·]?) ∧
      [0] <:+ mem ∧ 0 ≤ ptr ∧ ptr ≤ s.length := by
  obtain ⟨rs, mem, ptr, hcalls, htexts, -, hmem, hlength, hlow, hhigh⟩ :=
    calls_tokens hlast hs hfirst (n + 1)
  refine ⟨rs, mem, ptr, hcalls, htexts, hmem, hlow, ?_⟩
  simp at hlength
  omega

omit [DecidableEq α] in
theorem ends_strtokR (before rest : List α) : Ends (fun strView => strView.length) before rest :=
  ⟨before ++ rest, [], rfl, by simp⟩

omit [DecidableEq α] in
theorem ends_wcstok (before rest : List α) : Ends (fun _ => -1) (before ++ [0]) rest :=
  ⟨before, rest ++ [0], by simp, by simp⟩

end Calls

/-- `strtok_r` returns the tokens of the string one after the other, and null from then
on. The buffer ends with a null character, so each token does. -/
theorem strtokR_tokens (s delim : List Byte) (hs : 0 ∉ s) (old : ℤ) (n : ℕ) :
    ∃ rs mem ptr, tokenize (strtokR delim) n ⟨s ++ [0], old⟩ = some (rs, ⟨mem, ptr⟩) ∧
      rs.map (Option.map (text mem)) = (range (n + 1)).map ((tokens (· ∈ delim) s)[·]?) ∧
      [0] <:+ mem := by
  obtain ⟨rs, mem, ptr, hcalls, htexts, hmem, -⟩ :=
    tokenize_tokens (fun before => ends_strtokR (before ++ [0])) hs (fun _ => ends_strtokR [] s)
      old n
  exact ⟨rs, mem, ptr, hcalls, htexts, hmem⟩

theorem strtokR_tokens_twoWords :
    ∃ rs mem ptr, tokenize (strtokR [0x2C]) 2 ⟨([0x61, 0x2C, 0x62, 0] : List Byte), 0⟩ =
        some (rs, ⟨mem, ptr⟩) ∧
      rs.map (Option.map (text mem)) = [some [0x61], some [0x62], none] ∧ [0] <:+ mem :=
  strtokR_tokens [0x61, 0x2C, 0x62] [0x2C] (by decide) 0 2

/-! ### `wcstok` against `strtok_r` -/

def widen (s : List Byte) : List Wchar := s.map (BitVec.setWidth 32)

/-- The wide tokens are the narrow ones, and the pointer stays in the string. -/
def Mirrors (s delim : List Byte) : Prop :=
  ∀ old n, ∃ rs r rs' r', tokenize (strtokR delim) n ⟨s ++ [0], old⟩ = some (rs, r) ∧
    tokenize (wcstok (widen delim)) n ⟨widen s ++ [0], old⟩ = some (rs', r') ∧
    rs'.map (Option.map (text r'.mem)) = (rs.map (Option.map (text r.mem))).map (Option.map widen) ∧
    0 ≤ r'.ptr ∧ r'.ptr ≤ s.length

@[simp] theorem setWidth_mem_widen {c : Byte} {s : List Byte} : c.setWidth 32 ∈ widen s ↔ c ∈ s :=
  mem_map_of_injective fun a b hab => by simpa using congrArg (BitVec.setWidth 8) hab

theorem oneToken_widen {s delim : List Byte} :
    OneToken (widen delim) (widen s) ↔ OneToken delim s := by
  constructor
  · rintro ⟨d, t, hs, hne, hd, ht⟩
    obtain ⟨d, t, rfl, rfl, rfl⟩ := map_eq_append_iff.mp hs
    exact ⟨d, t, rfl, by simpa using hne, by simpa using hd, by simpa using ht⟩
  · rintro ⟨d, t, rfl, hne, hd, ht⟩
    refine ⟨widen d, widen t, map_append, by simpa [widen] using hne, ?_, ?_⟩
    · exact forall_mem_map.mpr (by simpa using hd)
    · exact forall_mem_map.mpr (by simpa using ht)

/-- `wcstok` does the same unless the first token is the last one and ends with the
string. -/
theorem mirrors_iff (s delim : List Byte) (hs : 0 ∉ s) : Mirrors s delim ↔ ¬ OneToken delim s := by
  have hwide : 0 ∉ widen s := fun h => hs (setWidth_mem_widen.mp h)
  rw [← oneToken_widen]
  constructor
  · rintro h ⟨d, t, hsplit, hne, hd, ht⟩
    obtain ⟨-, -, rs', r', -, hcalls, -, hlow, -⟩ := h 0 0
    rw [hsplit] at hwide hcalls
    cases hcalls.symm.trans (calls_cons (tok_last (fun _ => -1) [] hd ht hne hwide) rfl)
    simp at hlow
  · intro hone old n
    obtain ⟨rs, mem, ptr, hcalls, htexts, -⟩ :=
      tokenize_tokens (fun before => ends_strtokR (before ++ [0])) hs (fun _ => ends_strtokR [] s)
        old n
    obtain ⟨rs', mem', ptr', hcalls', htexts', -, hptr⟩ :=
      tokenize_tokens ends_wcstok hwide (fun h => absurd h hone) old n
    refine ⟨rs, _, rs', _, hcalls, hcalls', ?_, by simpa [widen] using hptr⟩
    have htokens : tokens (· ∈ widen delim) (widen s) = (tokens (· ∈ delim) s).map widen := by
      refine (tokens_map (BitVec.setWidth 32) s).trans ?_
      simp only [Function.comp_def, setWidth_mem_widen]
      rfl
    simp [htexts, htexts', htokens]

/-- Two words are cut alike, one word is not. -/
theorem mirrors_iff_words : Mirrors [0x61, 0x2C, 0x62] [0x2C] ∧ ¬ Mirrors [0x61] [0x2C] := by
  rw [mirrors_iff _ _ (by decide), mirrors_iff _ _ (by decide), not_not]
  refine ⟨?_, [], [0x61], rfl, by decide, by decide, by decide⟩
  rintro ⟨_ | ⟨c, d⟩, t, hs, -, hd, ht⟩
  · rw [nil_append] at hs
    exact ht 0x2C (hs ▸ by decide) (by decide)
  · have hc : c = 0x61 := (cons.inj hs).1.symm
    exact absurd (hc ▸ hd c mem_cons_self) (by decide)

/-- One word: the pointer is left before the string. -/
theorem wcstok_oneWord :
    (tokenize (wcstok [0x2C]) 0 ⟨([0x61, 0] : List Wchar), 0⟩).map (fun r => (r.1, r.2.ptr)) =
      some ([some 0], -1) := by
  decide

end Hzlibc.Strtok
