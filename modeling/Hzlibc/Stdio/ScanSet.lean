import Hzlibc.Stdio.StringScan

/-!
Sets of a scan.

A set is written as a row of characters and ranges, and `%[` is meant to store the
longest row of characters of the set. The loop over the set looks for hyphens and
takes the hyphen itself for the first character of a range, so that a range
denotes its first character and everything from the hyphen to its last one.
-/

namespace Hzlibc.Stdio

open Effect Prog Scan

/-! ### Rows of characters -/

namespace Scan

open List

variable {F : Type}

def rowStores (wide : Bool) (dest : Option ℕ) (row : List Byte) : List (Store F) :=
  match dest with
  | none => []
  | some arg => row.map fun c => if wide then .wchar arg (signed c) else .char arg c

@[simp] theorem rowStores_nil (wide : Bool) (dest : Option ℕ) :
    (rowStores wide dest [] : List (Store F)) = [] := by
  cases dest <;> rfl

@[simp] theorem rowStores_append (wide : Bool) (dest : Option ℕ) (row row' : List Byte) :
    (rowStores wide dest (row ++ row') : List (Store F)) =
      rowStores wide dest row ++ rowStores wide dest row' := by
  cases dest with
  | none => rfl
  | some arg => exact map_append

variable (s : Scan (List Byte) F)

@[simp] theorem run_writeToDest (wide : Bool) (dest : Option ℕ) (c : Byte) :
    (writeToDest wide dest c).run s = (.ok (), s.put (rowStores wide dest [c])) := by
  cases dest with
  | none => simp [writeToDest, rowStores]
  | some arg => rfl

theorem run_stringLoop (refuses : Byte → Bool) (wide : Bool) (dest : Option ℕ) (n used : ℕ) :
    (stringLoop textSource refuses wide dest n used).run s =
      (.ok (used + (accepted (fun c => c ≠ 0 && !refuses c) n s.io).length),
        (s.eat (accepted (fun c => c ≠ 0 && !refuses c) n s.io).length).put
          (rowStores wide dest (accepted (fun c => c ≠ 0 && !refuses c) n s.io))) := by
  induction n generalizing s used with
  | zero => simp [stringLoop]
  | succ n ih =>
    rw [stringLoop, run_bind_of_ok (run_lookAhead s)]
    rcases hio : s.io with _ | ⟨c, rest⟩
    · simp
    · rw [headD_cons, accepted_cons]
      by_cases hc : c = 0 ∨ refuses c = true
      · have hstop : (decide (c ≠ 0) && !refuses c) = false := by
          rcases hc with hc | hc <;> simp [hc]
        rw [if_pos hc, hstop]
        simp
      · have hgo : (decide (c ≠ 0) && !refuses c) = true := by
          simpa [not_or] using hc
        have hrest : (s.eat 1).io = rest := by rw [io_eat, hio]; rfl
        rw [if_neg hc, hgo, if_pos rfl, run_bind_of_ok (run_consume s),
          run_bind_of_ok (run_writeToDest _ wide dest c), ih, io_put, hrest, eat_put, eat_eat,
          put_put, ← rowStores_append, singleton_append, length_cons, Nat.add_assoc, Nat.add_comm 1]

/-- The state of a string is an allowed one. -/
theorem run_isWide {state : State} (h : state = .none ∨ state = .l) :
    (isWide state).run s = (.ok (decide (state = .l)), s) := by
  rcases h with rfl | rfl <;> rfl

/-- A string is stored with its terminator also if it is empty; the scan goes
on then, except at the end of the text with nothing stored before. -/
theorem run_scanString {state : State} (h : state = .none ∨ state = .l) (refuses : Byte → Bool)
    (dest : Option ℕ) (width : Option ℤ) {row : List Byte}
    (hrow : accepted (fun c => c ≠ 0 && !refuses c) (width.getD intMax).toNat s.io = row) :
    (scanString textSource refuses dest state width).run s =
      if row ≠ [] then
        (.ok (), ((s.eat row.length).put (rowStores (decide (state = .l)) dest
          (row ++ [0]))).count dest.isSome)
      else if s.consumed = 0 ∧ s.io.headD 0 = 0 then
        (.error (.ret EOF), s.put (rowStores (decide (state = .l)) dest [0]))
      else (.ok (), s.put (rowStores (decide (state = .l)) dest [0])) := by
  have hloop := run_stringLoop s refuses (decide (state = .l)) dest (width.getD intMax).toNat 0
  rw [hrow] at hloop
  rw [scanString, run_bind_of_ok (run_isWide s h), run_bind_of_ok hloop,
    run_bind_of_ok (run_writeToDest _ _ dest 0), put_put, ← rowStores_append]
  by_cases hnil : row = []
  · rw [if_neg (by simp [hnil]), if_neg (not_not_intro hnil), if_pos (by simp [hnil]), hnil,
      length_nil, eat_zero, run_bind_of_ok (run_gets _ _)]
    by_cases hfirst : s.consumed = 0
    · rw [if_pos ((consumed_put s _).trans hfirst), run_bind_of_ok (run_lookAhead _), io_put]
      by_cases hend : s.io.headD 0 = 0
      · rw [if_pos hend, if_pos ⟨hfirst, hend⟩]
        rfl
      · rw [if_neg hend, if_neg fun h => hend h.2]
        rfl
    · rw [if_neg ((consumed_put s _).trans_ne hfirst), if_neg fun h => hfirst h.1]
      rfl
  · cases dest <;> simp [hnil]

end Scan

/-! ### How a set is written -/

inductive SetItem
  | single (c : Byte)
  | range (first last : Byte)
  deriving DecidableEq

namespace SetItem

def text : SetItem → List Byte
  | single c => [c]
  | range first last => [first, '-', last]

def denotes (c : Byte) : SetItem → Bool
  | single d => c = d
  | range first last => signed first ≤ signed c ∧ signed c ≤ signed last

/-- What the loop of the source takes for the item. -/
def takes (c : Byte) : SetItem → Bool
  | single d => c = d
  | range first last => c = first ∨ signed ('-' : Byte) ≤ signed c ∧ signed c ≤ signed last

/-- No item starts with a hyphen, except that the last one may be a hyphen. -/
def Plain : List SetItem → Prop
  | [] => True
  | item :: items =>
    (item.text.head? = some ('-' : Byte) → item = single '-' ∧ items = []) ∧ Plain items

end SetItem

/-- A set; its first item may start with a hyphen or a closing bracket. -/
structure SetText where
  invert : Bool
  first : SetItem
  rest : List SetItem
  plain : SetItem.Plain rest
  bracket : (']' : Byte) ∉ ((first :: rest).flatMap SetItem.text).tail
  caret : invert = false → first.text.head? ≠ some ('^' : Byte)

namespace SetText

variable (S : SetText)

def items : List SetItem := S.first :: S.rest

def body : List Byte := S.items.flatMap SetItem.text

/-- The set in a format, from the character after its opening bracket. -/
def written (fmt : List Byte) : List Byte :=
  (if S.invert then [('^' : Byte)] else []) ++ (S.body ++ (']' : Byte) :: fmt)

/-- The characters of the set. -/
def denotes (c : Byte) : Bool := S.items.any (·.denotes c) != S.invert

/-- The longest row of characters of the set at the start of a text. -/
def longest (width : Option ℤ) (text : List Byte) : List Byte :=
  accepted (fun c => c ≠ 0 && S.denotes c) (width.getD intMax).toNat text

/-- The source is wrong about the character being in one of the items. -/
def Misread (c : Byte) : Prop := S.items.any (·.takes c) ≠ S.items.any (·.denotes c)

/-- No character is misread up to the first behind the row. -/
def Clean (width : Option ℤ) (text : List Byte) : Prop :=
  ∀ c ∈ (text.take (width.getD intMax).toNat).take ((S.longest width text).length + 1),
    c ≠ 0 → ¬ S.Misread c

/-! ### How it is read -/

theorem scanSet_written (fmt : List Byte) :
    scanSet (S.written fmt) = (.set S.invert S.body, fmt) := by
  obtain ⟨c, tail, hbody, hfirst⟩ : ∃ c tail, S.body = c :: tail ∧
      S.first.text.head? = some c := by
    rw [body, items]
    cases S.first with
    | single | range => exact ⟨_, _, rfl, rfl⟩
  have hbracket : ∀ d ∈ tail, decide (d ≠ (']' : Byte)) = true := by
    have hmem : (']' : Byte) ∉ S.body.tail := S.bracket
    rw [hbody] at hmem
    exact fun d hd => decide_eq_true fun h => hmem (h ▸ hd)
  cases hinvert : S.invert with
  | true => simp_all [scanSet, written]
  | false =>
    have hcaret : c ≠ '^' := fun h => S.caret hinvert (h ▸ hfirst)
    simp_all [scanSet, written]

theorem setMember_of_plain {c d : Byte} {first : Bool} (h : ¬ (d = '-' ∧ first = false))
    (rest : List Byte) :
    setMember c first (d :: rest) = (decide (c = d) || setMember c false rest) := by
  cases rest <;> simp only [setMember, if_neg h] <;> by_cases hc : c = d <;> simp [hc]

theorem setMember_item {item : SetItem} {first : Bool} {c : Byte} {rest : List Byte}
    (h : item.text.head? = some ('-' : Byte) → first = true) :
    setMember c first (item.text ++ rest) = (item.takes c || setMember c false rest) := by
  cases item with
  | single d => exact setMember_of_plain (fun hd => by simp [h (congrArg some hd.1)] at hd) rest
  | range d last =>
    refine (setMember_of_plain (fun hd => by simp [h (congrArg some hd.1)] at hd) _).trans ?_
    simp [setMember, SetItem.takes, Bool.or_assoc]

theorem setMember_items {items : List SetItem} (h : SetItem.Plain items) (c : Byte) :
    setMember c false (items.flatMap SetItem.text) = items.any (·.takes c) := by
  induction items with
  | nil => rfl
  | cons item items ih =>
    obtain ⟨hitem, hitems⟩ := h
    by_cases hstart : item.text.head? = some ('-' : Byte)
    · obtain ⟨rfl, rfl⟩ := hitem hstart
      simp [SetItem.text, setMember, SetItem.takes]
    · rw [List.flatMap_cons, setMember_item (absurd · hstart), ih hitems]
      rfl

theorem setMatches_body (c : Byte) :
    setMatches S.invert S.body c = (S.items.any (·.takes c) != S.invert) := by
  rw [setMatches, body, items, List.flatMap_cons, setMember_item fun _ => rfl,
    setMember_items S.plain]
  rfl

end SetText

theorem takeWhile_eq_iff {α : Type} (p q : α → Bool) (l : List α) :
    l.takeWhile q = l.takeWhile p ↔ ∀ c ∈ l.take ((l.takeWhile p).length + 1), q c = p c := by
  induction l with
  | nil => simp
  | cons a l ih => cases hp : p a <;> cases hq : q a <;> simp [hp, hq, ih]

/-- `%[` stores the longest row of characters of the set unless one of its
characters, or the one behind it, is misread. -/
theorem scanSet_stores_iff {F : Type} (ld : LongDouble F) (S : SetText) (fmt : List Byte)
    (width : Option ℤ) (arg : ℕ) (s : Scan (List Byte) F) :
    ((convert textSource ld (some arg) width .none (scanSet (S.written fmt)).1).run s).2.stores =
        s.stores ++ (S.longest width s.io ++ [0]).map (.char arg) ↔
      S.Clean width s.io := by
  have hrun := run_scanString s (.inl rfl) (fun c => !setMatches S.invert S.body c) (some arg) width
    rfl
  have hstores : ((convert textSource ld (some arg) width .none
      (scanSet (S.written fmt)).1).run s).2.stores = s.stores ++
        (accepted (fun c => c ≠ 0 && setMatches S.invert S.body c) (width.getD intMax).toNat s.io ++
          [0]).map (.char arg) := by
    rw [S.scanSet_written, convert, hrun]
    simp only [Bool.not_not]
    split_ifs with hrow hend
    · rfl
    all_goals
      rw [not_not.mp hrow]
      rfl
  rw [hstores, List.append_cancel_left_eq, List.map_inj_right fun _ _ h => (Store.char.inj h).2,
    List.append_cancel_right_eq, SetText.longest, accepted, accepted, takeWhile_eq_iff]
  refine forall₂_congr fun c _ => ?_
  by_cases hzero : c = 0#8
  · simp [hzero]
  · simp [hzero, S.setMatches_body, SetText.denotes, SetText.Misread]

theorem letters_valid : (']' : Byte) ∉ ([SetItem.range 'a' 'z'].flatMap SetItem.text).tail ∧
    (SetItem.range 'a' 'z').text.head? ≠ some ('^' : Byte) := by
  decide

def letterSet : SetText :=
  ⟨false, .range 'a' 'z', [], trivial, letters_valid.1, fun _ => letters_valid.2⟩

/-- `%[a-z]` stores digits. -/
theorem scanSet_stores_digits :
    ((convert textSource LongDouble.integral (some 0) none .none
        (scanSet (letterSet.written [])).1).run (.start ['7'])).2.stores ≠
      (letterSet.longest none ['7'] ++ [0]).map (.char 0) := by
  decide

end Hzlibc.Stdio
