import Hzlibc.Stdio.Basic
import Mathlib.Data.List.Basic
import Mathlib.Data.List.TakeWhile

/-!
The time zone file and `get_tz_data`.

The file has a header with six counts, then the times of the transitions, a byte
for each of them with the index of the type that holds from then on, the types,
and the abbreviations they refer to. What comes after them is not read. The
numbers are stored with the most significant byte first; the counts are turned
around when the file is loaded.

`get_tz_data` finds its way in these arrays with offsets that it computes in 32
bits. A read beyond the bytes of the file has no result here.
-/

namespace Hzlibc.Time

open List Option

open Stdio (Byte)

abbrev Word := BitVec 32

structure TtInfo where
  utoff : Word
  isdst : Byte
  desigidx : Byte
  deriving DecidableEq

/-- The header, with its counts as numbers of the machine, and the bytes after it. -/
structure TzFile where
  ttisutcnt : Word
  ttisstdcnt : Word
  leapcnt : Word
  timecnt : Word
  typecnt : Word
  charcnt : Word
  bytes : List Byte

structure TzData where
  gmtOffset : ℤ
  isDst : Bool
  zone : List Byte
  deriving DecidableEq

/-! ### Reading -/

def readWord (bytes : List Byte) (offset : ℕ) : Option Word :=
  match bytes.drop offset with
  | a :: b :: c :: d :: _ => some (a ++ b ++ c ++ d)
  | _ => none

def readTtInfo (bytes : List Byte) (offset : ℕ) : Option TtInfo :=
  match bytes.drop offset with
  | a :: b :: c :: d :: isdst :: desigidx :: _ => some ⟨a ++ b ++ c ++ d, isdst, desigidx⟩
  | _ => none

/-- The string at an address: the bytes up to the terminating zero. -/
def stringAt (bytes : List Byte) (offset : ℕ) : List Byte :=
  (bytes.drop offset).takeWhile (· != 0)

def magic : List Byte := ['T', 'Z', 'i', 'f']

def versions : List Byte := [0, '2', '3', '4']

/-- Loads the contents of the file; nothing, if it is not a time zone file. -/
def initTimezone (file : List Byte) : Option TzFile := do
  let version ← file[4]?
  if file.take 4 = magic ∧ versions.contains version then
    let ttisutcnt ← readWord file 20
    let ttisstdcnt ← readWord file 24
    let leapcnt ← readWord file 28
    let timecnt ← readWord file 32
    let typecnt ← readWord file 36
    let charcnt ← readWord file 40
    return ⟨ttisutcnt, ttisstdcnt, leapcnt, timecnt, typecnt, charcnt, file.drop 44⟩
  else none

/-- The loop over the transitions from the one with index `i` on, of which there
are `count`: the index before the first later one, or -1. -/
def transitionIndex (bytes : List Byte) (time : ℤ) : ℕ → ℕ → Option ℤ
  | 0, _ => some (-1)
  | count + 1, i => do
      let transitionTime ← readWord bytes (4 * i)
      if i ≠ 0 ∧ time < transitionTime.toInt then some (BitVec.ofNat 32 (i - 1)).toInt
      else transitionIndex bytes time count (i + 1)

/-- The type of the transition; type 0, if there is none. -/
def transitionInfoIndex (data : TzFile) (transitionIndex : ℤ) : Option Byte :=
  if 0 ≤ transitionIndex then
    data.bytes[(data.timecnt * 4 + BitVec.ofInt 32 transitionIndex).toNat]?
  else some 0

def getTzData (data : TzFile) (time : ℤ) : Option TzData := do
  let transitionIndex ← transitionIndex data.bytes time data.timecnt.toNat 0
  let transitionInfoIndex ← transitionInfoIndex data transitionIndex
  if data.typecnt = 0 then none
  else
    let info ← readTtInfo data.bytes
      ((data.timecnt * 5).toNat + transitionInfoIndex.toNat * 6)
    return {
      gmtOffset := info.utoff.toInt
      isDst := info.isdst != 0
      zone := stringAt data.bytes
        ((data.timecnt * 5).toNat + data.typecnt.toNat * 6 + info.desigidx.toNat) }

/-! ### Well-formed files -/

/-- The bytes of a number, the most significant one first. -/
def wordBytes (word : Word) : List Byte :=
  [word.extractLsb' 24 8, word.extractLsb' 16 8, word.extractLsb' 8 8, word.extractLsb' 0 8]

def infoBytes (info : TtInfo) : List Byte := wordBytes info.utoff ++ [info.isdst, info.desigidx]

abbrev TypeIndex (types : List TtInfo) : Type := { index : Byte // index.toNat < types.length }

structure Block where
  version : Byte
  reserved : List Byte
  ttisutcnt : Word
  ttisstdcnt : Word
  leapcnt : Word
  types : List TtInfo
  transitions : List (Word × TypeIndex types)
  abbreviations : List Byte
  /-- What comes after the abbreviations. -/
  rest : List Byte
  version_mem : version ∈ versions
  reserved_length : reserved.length = 15
  increasing : transitions.Pairwise fun a b => a.1.toInt < b.1.toInt
  types_pos : 0 < types.length
  terminated : ∀ info ∈ types, 0 ∈ abbreviations.drop info.desigidx.toNat
  transitions_lt : transitions.length < 2 ^ 32
  types_lt : types.length < 2 ^ 32
  abbreviations_lt : abbreviations.length < 2 ^ 32

namespace Block

variable (block : Block)

/-- The bytes after the header. -/
def bytes : List Byte :=
  block.transitions.flatMap (fun transition => wordBytes transition.1) ++
    (block.transitions.map (fun transition => transition.2.val) ++
      (block.types.flatMap infoBytes ++ (block.abbreviations ++ block.rest)))

def file : List Byte :=
  magic ++ (block.version :: block.reserved) ++
    (wordBytes block.ttisutcnt ++ (wordBytes block.ttisstdcnt ++ (wordBytes block.leapcnt ++
      (wordBytes (BitVec.ofNat 32 block.transitions.length) ++
        (wordBytes (BitVec.ofNat 32 block.types.length) ++
          (wordBytes (BitVec.ofNat 32 block.abbreviations.length) ++ block.bytes))))))

def firstType : TypeIndex block.types := ⟨0, block.types_pos⟩

/-- The type that holds at a time: the one of the last transition that is not
later, and type 0 if there is none. -/
def typeAt (time : ℤ) : TypeIndex block.types :=
  match (block.transitions.filter fun transition => transition.1.toInt ≤ time).getLast? with
  | none => block.firstType
  | some transition => transition.2

def describe (index : TypeIndex block.types) : TzData :=
  let info := block.types.get ⟨index.val.toNat, index.property⟩
  { gmtOffset := info.utoff.toInt
    isDst := info.isdst != 0
    zone := (block.abbreviations.drop info.desigidx.toNat).takeWhile (· != 0) }

end Block

/-! ### Reading what was written -/

theorem append_wordBytes (word : Word) :
    word.extractLsb' 24 8 ++ word.extractLsb' 16 8 ++ word.extractLsb' 8 8 ++
      word.extractLsb' 0 8 = word := by
  rw [BitVec.extractLsb'_append_extractLsb'_eq_extractLsb' (show 24 = 16 + 8 from rfl),
    BitVec.extractLsb'_append_extractLsb'_eq_extractLsb' (show 16 = 8 + 8 from rfl),
    BitVec.extractLsb'_append_extractLsb'_eq_extractLsb' (show 8 = 0 + 8 from rfl)]
  exact BitVec.extractLsb'_eq_self

theorem readWord_eq {bytes rest : List Byte} {offset : ℕ} {word : Word}
    (h : bytes.drop offset = wordBytes word ++ rest) : readWord bytes offset = some word := by
  rw [readWord, h]
  exact congrArg some (append_wordBytes word)

theorem readTtInfo_eq {bytes rest : List Byte} {offset : ℕ} {info : TtInfo}
    (h : bytes.drop offset = infoBytes info ++ rest) : readTtInfo bytes offset = some info := by
  rw [readTtInfo, h]
  exact congrArg (fun utoff => some (TtInfo.mk utoff info.isdst info.desigidx))
    (append_wordBytes info.utoff)

theorem wordBytes_append (a b c d : Byte) : wordBytes (a ++ b ++ c ++ d) = [a, b, c, d] := by
  simp only [wordBytes, cons.injEq, and_true]
  refine ⟨?_, ?_, ?_, ?_⟩
  all_goals
    ext i hi
    grind

/-- An entry is read where its bytes are. -/
theorem readTtInfo_eq_some_iff {bytes : List Byte} {offset : ℕ} {info : TtInfo} :
    readTtInfo bytes offset = some info ↔ infoBytes info <+: bytes.drop offset := by
  refine ⟨fun h => ?_, fun ⟨rest, h⟩ => readTtInfo_eq h.symm⟩
  rw [readTtInfo] at h
  split at h
  · rename_i a b c d isdst desigidx rest hdrop
    cases h
    exact ⟨rest, by rw [hdrop, infoBytes, wordBytes_append]; rfl⟩
  · cases h

/-- In a row of records of one size, the records from an index on. -/
theorem drop_flatMap {α β : Type} {f : α → List β} {size : ℕ} (hsize : ∀ a, (f a).length = size)
    (row : List α) (i : ℕ) : (row.flatMap f).drop (size * i) = (row.drop i).flatMap f := by
  induction i generalizing row with
  | zero => rw [Nat.mul_zero, drop_zero, drop_zero]
  | succ i ih =>
    cases row with
    | nil => rw [drop_nil, flatMap_nil, drop_nil]
    | cons a row =>
      rw [flatMap_cons, Nat.mul_succ, Nat.add_comm, ← drop_drop,
        drop_left' (hsize a), ih, drop_succ_cons]

theorem length_flatMap_const {α β : Type} {f : α → List β} {size : ℕ}
    (hsize : ∀ a, (f a).length = size) (row : List α) :
    (row.flatMap f).length = size * row.length := by
  induction row with
  | nil => rfl
  | cons a row ih =>
    rw [flatMap_cons, length_append, hsize, ih, length_cons, Nat.mul_succ, Nat.add_comm]

namespace Block

variable (block : Block)

def timeBytes (transition : Word × TypeIndex block.types) : List Byte := wordBytes transition.1

theorem length_timeBytes (transition : Word × TypeIndex block.types) :
    (block.timeBytes transition).length = 4 := rfl

@[simp] theorem length_infoBytes (info : TtInfo) : (infoBytes info).length = 6 := rfl

theorem bytes_eq : block.bytes = block.transitions.flatMap block.timeBytes ++
    (block.transitions.map (fun transition => transition.2.val) ++
      (block.types.flatMap infoBytes ++ (block.abbreviations ++ block.rest))) := rfl

theorem readWord_time {i : ℕ} (hi : i < block.transitions.length) :
    readWord block.bytes (4 * i) = some block.transitions[i].1 := by
  apply readWord_eq
  rw [bytes_eq, drop_append_of_le_length, drop_flatMap block.length_timeBytes,
    drop_eq_getElem_cons hi, flatMap_cons, append_assoc, timeBytes]
  rw [length_flatMap_const block.length_timeBytes]
  omega

theorem getElem_indices {j : ℕ} (hj : j < block.transitions.length) :
    block.bytes[4 * block.transitions.length + j]? = some block.transitions[j].2.val := by
  have hlength := length_flatMap_const block.length_timeBytes block.transitions
  rw [bytes_eq, getElem?_append_right (by omega), hlength, Nat.add_sub_cancel_left,
    getElem?_append_left (by rwa [length_map]), getElem?_map,
    getElem?_eq_getElem hj, map_some]

/-- The types come after the two arrays of the transitions. -/
theorem drop_types (offset : ℕ) :
    block.bytes.drop (5 * block.transitions.length + offset) =
      (block.types.flatMap infoBytes ++ (block.abbreviations ++ block.rest)).drop offset := by
  have hlength := length_flatMap_const block.length_timeBytes block.transitions
  rw [bytes_eq, ← append_assoc, ← drop_drop, drop_left']
  rw [length_append, length_map]
  omega

theorem readTtInfo_type (index : TypeIndex block.types) :
    readTtInfo block.bytes (5 * block.transitions.length + index.val.toNat * 6) =
      some (block.types.get ⟨index.val.toNat, index.property⟩) := by
  have hindex := index.property
  apply readTtInfo_eq
  rw [drop_types, Nat.mul_comm, drop_append_of_le_length, drop_flatMap length_infoBytes,
    drop_eq_getElem_cons hindex, flatMap_cons, append_assoc, get_eq_getElem]
  rw [length_flatMap_const length_infoBytes]
  omega

/-- An abbreviation ends inside the table. -/
theorem stringAt_abbreviation {info : TtInfo} (h : info ∈ block.types) :
    stringAt block.bytes (5 * block.transitions.length + block.types.length * 6 +
      info.desigidx.toNat) =
      (block.abbreviations.drop info.desigidx.toNat).takeWhile (· != 0) := by
  have hzero := block.terminated info h
  have hle : info.desigidx.toNat ≤ block.abbreviations.length := by
    by_contra hlt
    rw [drop_of_length_le (by omega)] at hzero
    cases hzero
  rw [stringAt, Nat.add_assoc, drop_types, ← drop_drop, drop_left'
    (by rw [length_flatMap_const length_infoBytes, Nat.mul_comm]),
    drop_append_of_le_length hle, takeWhile_append, if_neg]
  intro hlength
  have hself := (takeWhile_sublist _).eq_of_length hlength
  exact absurd (takeWhile_eq_self_iff.1 hself 0 hzero) (by decide)

/-! ### The loop -/

/-- The index as an `int`, with -1 for none. -/
def indexValue : Option ℕ → ℤ
  | none => -1
  | some j => (BitVec.ofNat 32 j).toInt

/-- The transition before the first one that is later than the time, where the
first transition of all is not looked at. -/
def crossing (time : ℤ) : Option ℕ :=
  block.transitions.tail.findIdx? fun transition => time < transition.1.toInt

theorem transitionIndex_succ {i : ℕ} (hi : i < block.transitions.length) (time : ℤ) (count : ℕ) :
    transitionIndex block.bytes time (count + 1) i =
      if i ≠ 0 ∧ time < block.transitions[i].1.toInt then some (BitVec.ofNat 32 (i - 1)).toInt
      else transitionIndex block.bytes time count (i + 1) := by
  rw [transitionIndex, block.readWord_time hi, bind_eq_bind, bind_some]

theorem transitionIndex_loop (time : ℤ) (count i : ℕ)
    (hcount : i + 1 + count = block.transitions.length) :
    transitionIndex block.bytes time count (i + 1) =
      some (indexValue (((block.transitions.drop (i + 1)).findIdx? fun transition =>
        time < transition.1.toInt).map (i + ·))) := by
  induction count generalizing i with
  | zero =>
    rw [drop_of_length_le (by omega)]
    rfl
  | succ count ih =>
    rw [drop_eq_getElem_cons (by omega), findIdx?_cons, block.transitionIndex_succ (by omega)]
    by_cases hlater : time < block.transitions[i + 1].1.toInt
    · rw [if_pos ⟨by omega, hlater⟩, if_pos (decide_eq_true hlater)]
      rfl
    · rw [if_neg fun h => hlater h.2, if_neg (by simpa using hlater), ih (i + 1) (by omega),
        Option.map_map]
      congr 3
      funext j
      exact Nat.add_right_comm i 1 j

/-- The loop starts at the first transition, and never stops there. -/
theorem transitionIndex_eq (time : ℤ) :
    transitionIndex block.bytes time block.transitions.length 0 =
      some (indexValue (block.crossing time)) := by
  rw [crossing, ← drop_one]
  rcases hlength : block.transitions.length with _ | count
  · rw [drop_of_length_le (by omega)]
    rfl
  · have hloop := block.transitionIndex_loop time count 0 (by omega)
    rw [block.transitionIndex_succ (by omega), hloop]
    simp

/-! ### The loaded file -/

def loaded : TzFile where
  ttisutcnt := block.ttisutcnt
  ttisstdcnt := block.ttisstdcnt
  leapcnt := block.leapcnt
  timecnt := BitVec.ofNat 32 block.transitions.length
  typecnt := BitVec.ofNat 32 block.types.length
  charcnt := BitVec.ofNat 32 block.abbreviations.length
  bytes := block.bytes

theorem initTimezone_file : initTimezone block.file = some block.loaded := by
  have hversion : block.file[4]? = some block.version := rfl
  have hmagic : block.file.take 4 = magic := rfl
  have hcounts : block.file.drop 20 = wordBytes block.ttisutcnt ++ (wordBytes block.ttisstdcnt ++
      (wordBytes block.leapcnt ++ (wordBytes (BitVec.ofNat 32 block.transitions.length) ++
        (wordBytes (BitVec.ofNat 32 block.types.length) ++
          (wordBytes (BitVec.ofNat 32 block.abbreviations.length) ++ block.bytes))))) := by
    apply drop_left'
    rw [length_append, length_cons, block.reserved_length]
    rfl
  have hskip : ∀ {offset word rest}, block.file.drop offset = wordBytes word ++ rest →
      block.file.drop (offset + 4) = rest := by
    intro offset word rest h
    rw [← drop_drop, h]
    rfl
  have h₁ := hskip hcounts
  have h₂ := hskip h₁
  have h₃ := hskip h₂
  have h₄ := hskip h₃
  have h₅ := hskip h₄
  simp [initTimezone, hversion, hmagic, block.version_mem, readWord_eq hcounts, readWord_eq h₁,
    readWord_eq h₂, readWord_eq h₃, readWord_eq h₄, readWord_eq h₅, hskip h₅, loaded]

/-! ### What is looked up -/

/-- The index of the type that is read, where offsets have 32 bits and the index
of a transition is an `int`. -/
def readIndex (time : ℤ) : Option Byte :=
  match block.crossing time with
  | none => some 0
  | some j =>
    if j < 2 ^ 31 then block.bytes[(4 * block.transitions.length + j) % 2 ^ 32]? else some 0

/-- What is read at offsets of 32 bits. -/
def readAt (time : ℤ) : Option TzData := do
  let index ← block.readIndex time
  let info ← readTtInfo block.bytes (5 * block.transitions.length % 2 ^ 32 + index.toNat * 6)
  return {
    gmtOffset := info.utoff.toInt
    isDst := info.isdst != 0
    zone := stringAt block.bytes (5 * block.transitions.length % 2 ^ 32 +
      block.types.length * 6 + info.desigidx.toNat) }

/-- What the file says where offsets are cut off to 32 bits: six bytes that spell a type, and
a string for its abbreviation, wherever in the tables they are. -/
def Spells (time : ℤ) (data : TzData) : Prop :=
  ∃ index info, block.readIndex time = some index ∧
    infoBytes info <+: block.bytes.drop (5 * block.transitions.length % 2 ^ 32 + index.toNat * 6) ∧
    data = ⟨info.utoff.toInt, info.isdst != 0, stringAt block.bytes
      (5 * block.transitions.length % 2 ^ 32 + block.types.length * 6 + info.desigidx.toNat)⟩

theorem readAt_eq_some_iff {time : ℤ} {data : TzData} :
    block.readAt time = some data ↔ block.Spells time data := by
  simp only [readAt, bind_eq_bind, bind_eq_some_iff, readTtInfo_eq_some_iff, Spells]
  constructor
  · rintro ⟨index, hindex, info, hinfo, hdata⟩
    exact ⟨index, info, hindex, hinfo, (Option.some.inj hdata).symm⟩
  · rintro ⟨index, info, hindex, hinfo, rfl⟩
    exact ⟨index, hindex, info, hinfo, rfl⟩

theorem crossing_lt {time : ℤ} {j : ℕ} (h : block.crossing time = some j) :
    j + 1 < block.transitions.length := by
  obtain ⟨hlt, -⟩ := findIdx?_eq_some_iff_getElem.1 h
  rw [length_tail] at hlt
  omega

@[simp] theorem timecnt_toNat : block.loaded.timecnt.toNat = block.transitions.length :=
  Nat.mod_eq_of_lt block.transitions_lt

@[simp] theorem typecnt_toNat : block.loaded.typecnt.toNat = block.types.length :=
  Nat.mod_eq_of_lt block.types_lt

theorem transitionInfoIndex_crossing (time : ℤ) :
    transitionInfoIndex block.loaded (indexValue (block.crossing time)) =
      block.readIndex time := by
  rw [transitionInfoIndex, readIndex]
  rcases hcrossing : block.crossing time with _ | j
  · rfl
  · have hj := block.crossing_lt hcrossing
    have hn := block.transitions_lt
    have hsign : 0 ≤ indexValue (some j) ↔ j < 2 ^ 31 := by
      rw [indexValue, BitVec.toInt_eq_toNat_cond, BitVec.toNat_ofNat]
      split <;> omega
    have hoffset : (block.loaded.timecnt * 4 + BitVec.ofInt 32 (indexValue (some j))).toNat =
        (4 * block.transitions.length + j) % 2 ^ 32 := by
      rw [indexValue, BitVec.ofInt_toInt, BitVec.toNat_add, BitVec.toNat_mul, timecnt_toNat,
        BitVec.toNat_ofNat, show (4 : Word).toNat = 4 from rfl]
      omega
    simp only [hsign, hoffset]
    rfl

theorem getTzData_loaded (time : ℤ) : getTzData block.loaded time = block.readAt time := by
  have htypecnt : block.loaded.typecnt ≠ 0 := by
    intro hzero
    have hpos := block.types_pos
    rw [← typecnt_toNat, hzero] at hpos
    exact absurd hpos (by decide)
  have hbase : (block.loaded.timecnt * 5).toNat = 5 * block.transitions.length % 2 ^ 32 := by
    rw [BitVec.toNat_mul, timecnt_toNat, Nat.mul_comm]
    rfl
  have hbytes : block.loaded.bytes = block.bytes := rfl
  rw [getTzData, readAt, timecnt_toNat, hbytes, transitionIndex_eq, bind_eq_bind,
    bind_some, transitionInfoIndex_crossing]
  simp only [if_neg htypecnt, hbase, typecnt_toNat]

/-- The type that is looked up, if no offset is cut off. -/
def usedType (time : ℤ) : TypeIndex block.types :=
  match (block.crossing time).bind (block.transitions[·]?) with
  | none => block.firstType
  | some transition => transition.2

theorem readIndex_eq (hsmall : 5 * block.transitions.length < 2 ^ 32) (time : ℤ) :
    block.readIndex time = some (block.usedType time).val := by
  rw [readIndex, usedType]
  rcases hcrossing : block.crossing time with _ | j
  · rfl
  · have hj := block.crossing_lt hcrossing
    have hoffset : (4 * block.transitions.length + j) % 2 ^ 32 =
        4 * block.transitions.length + j := Nat.mod_eq_of_lt (by omega)
    simp only [hoffset, block.getElem_indices (show j < block.transitions.length by omega),
      if_pos (show j < 2 ^ 31 by omega), bind_some,
      getElem?_eq_getElem (show j < block.transitions.length by omega)]

theorem readAt_eq (hsmall : 5 * block.transitions.length < 2 ^ 32) (time : ℤ) :
    block.readAt time = some (block.describe (block.usedType time)) := by
  rw [readAt, block.readIndex_eq hsmall, Nat.mod_eq_of_lt hsmall, bind_eq_bind, bind_some,
    readTtInfo_type, bind_eq_bind, bind_some, stringAt_abbreviation _ (get_mem ..)]
  rfl

end Block

/-! ### The last transition that is not later -/

section NotLater

variable {ι : Type} {first : Word × ι} {later : List (Word × ι)} {time : ℤ}

theorem filter_eq_nil_of_lt (hfirst : time < first.1.toInt)
    (hsorted : (first :: later).Pairwise fun a b => a.1.toInt < b.1.toInt) :
    (first :: later).filter (fun transition => transition.1.toInt ≤ time) = [] := by
  obtain ⟨hlater, -⟩ := pairwise_cons.1 hsorted
  rw [filter_eq_nil_iff]
  intro transition hmem
  rcases mem_cons.1 hmem with rfl | hmem
  · simpa using hfirst
  · have hlt := hlater transition hmem
    simp
    omega

/-- If the last one is not later, then none is. -/
theorem le_of_getLast? {row : List (Word × ι)} {last : Word × ι}
    (hsorted : row.Pairwise fun a b => a.1.toInt < b.1.toInt) (hlast : row.getLast? = some last)
    (hle : last.1.toInt ≤ time) : ∀ transition ∈ row, transition.1.toInt ≤ time := by
  obtain ⟨before, rfl⟩ := getLast?_eq_some_iff.1 hlast
  obtain ⟨-, -, hbefore⟩ := pairwise_append.1 hsorted
  intro transition hmem
  rcases mem_append.1 hmem with hmem | hmem
  · have hlt := hbefore transition hmem last mem_cons_self
    omega
  · rw [mem_singleton.1 hmem]
    exact hle

theorem getLast?_filter_of_findIdx? {j : ℕ} (hfirst : first.1.toInt ≤ time)
    (hsorted : (first :: later).Pairwise fun a b => a.1.toInt < b.1.toInt)
    (hj : later.findIdx? (fun transition => time < transition.1.toInt) = some j) :
    ((first :: later).filter fun transition => transition.1.toInt ≤ time).getLast? =
      (first :: later)[j]? := by
  induction later generalizing first j with
  | nil => cases hj
  | cons second later ih =>
    have hsorted' := (pairwise_cons.1 hsorted).2
    rw [findIdx?_cons] at hj
    rw [filter_cons_of_pos (by simpa using hfirst)]
    by_cases hsecond : time < second.1.toInt
    · rw [if_pos (decide_eq_true hsecond)] at hj
      cases hj
      rw [filter_eq_nil_of_lt hsecond hsorted']
      rfl
    · rw [if_neg (by simpa using hsecond)] at hj
      obtain ⟨j', hj', rfl⟩ := map_eq_some_iff.1 hj
      have hlt := (findIdx?_eq_some_iff_getElem.1 hj').1
      rw [getLast?_cons, ih (by omega) hsorted' hj', getElem?_cons_succ,
        getElem?_eq_getElem (by rw [length_cons]; omega), getD_some]

end NotLater

namespace Block

variable (block : Block)

/-- After the last transition and before the first of several ones, the type
says the same as type 0. -/
structure EndsAgree (time : ℤ) : Prop where
  last : ∀ last ∈ block.transitions.getLast?, last.1.toInt ≤ time →
    block.describe last.2 = block.describe block.firstType
  first : ∀ first ∈ block.transitions.head?, 2 ≤ block.transitions.length →
    time < first.1.toInt → block.describe first.2 = block.describe block.firstType

variable {block} {time : ℤ} {transition : Word × TypeIndex block.types}

theorem typeAt_eq
    (h : (block.transitions.filter fun transition => transition.1.toInt ≤ time).getLast? =
      some transition) : block.typeAt time = transition.2 := by
  rw [typeAt, h]

theorem typeAt_of_lt {first : Word × TypeIndex block.types}
    {later : List (Word × TypeIndex block.types)} (h : block.transitions = first :: later)
    (hfirst : time < first.1.toInt) : block.typeAt time = block.firstType := by
  have hsorted := block.increasing
  rw [h] at hsorted
  rw [typeAt, h, filter_eq_nil_of_lt hfirst hsorted, getLast?_nil]

theorem usedType_of_none (h : block.crossing time = none) :
    block.usedType time = block.firstType := by
  rw [usedType, h, bind_none]

theorem usedType_of_some {j : ℕ}
    (h : block.crossing time = some j) (hj : block.transitions[j]? = some transition) :
    block.usedType time = transition.2 := by
  rw [usedType, h, bind_some, hj]

/-- If the loop finds no later transition, only the first one can be later. -/
theorem describe_iff_of_none (h : block.crossing time = none) :
    block.describe (block.usedType time) = block.describe (block.typeAt time) ↔
      block.EndsAgree time := by
  have hsorted := block.increasing
  rw [usedType_of_none h]
  rw [crossing, findIdx?_eq_none_iff] at h
  rcases hrow : block.transitions with _ | ⟨first, later⟩
  · have htype : block.typeAt time = block.firstType := by
      rw [typeAt, hrow]
      rfl
    rw [htype]
    exact iff_of_true rfl ⟨by simp [hrow], by simp [hrow]⟩
  · rw [hrow] at h hsorted
    have hlater : ∀ transition ∈ later, transition.1.toInt ≤ time := by
      intro transition hmem
      simpa using h transition hmem
    by_cases hfirst : first.1.toInt ≤ time
    · obtain ⟨last, hlast⟩ : ∃ last, block.transitions.getLast? = some last :=
        ⟨_, hrow ▸ getLast?_cons⟩
      have hall : ∀ transition ∈ block.transitions, transition.1.toInt ≤ time := by
        rw [hrow]
        exact forall_mem_cons.2 ⟨hfirst, hlater⟩
      have htype : block.typeAt time = last.2 := by
        apply typeAt_eq
        rw [filter_eq_self.2 (by simpa using hall), hlast]
      rw [htype]
      constructor
      · intro heq
        refine ⟨fun last' hlast' _ => ?_, fun first' hfirst' _ hlt => ?_⟩
        · rw [hlast] at hlast'
          cases hlast'
          exact heq.symm
        · rw [hrow] at hfirst'
          cases hfirst'
          omega
      · intro hagree
        exact (hagree.last last hlast (hall last (mem_of_getLast? hlast))).symm
    · have hnil : later = [] := by
        apply eq_nil_iff_forall_not_mem.2
        intro transition hmem
        have hlt := (pairwise_cons.1 hsorted).1 transition hmem
        have hle := hlater transition hmem
        omega
      rw [typeAt_of_lt hrow (by omega)]
      refine iff_of_true rfl ⟨?_, ?_⟩
      · rw [hrow, hnil]
        rintro _ ⟨⟩ hle
        exact absurd hle hfirst
      · rw [hrow, hnil]
        intro _ _ hlength
        exact absurd hlength (by simp)

/-- If the loop finds a later transition, the last one is later. -/
theorem describe_iff_of_some {j : ℕ} (h : block.crossing time = some j) :
    block.describe (block.usedType time) = block.describe (block.typeAt time) ↔
      block.EndsAgree time := by
  have hsorted := block.increasing
  have hj := block.crossing_lt h
  rcases hrow : block.transitions with _ | ⟨first, later⟩
  · rw [hrow] at hj
    cases hj
  · have hcrossing : later.findIdx? (fun transition => time < transition.1.toInt) = some j := by
      rw [crossing, hrow] at h
      exact h
    obtain ⟨hlt, hlater, hbefore⟩ := findIdx?_eq_some_iff_getElem.1 hcrossing
    have hlast : ∀ last ∈ block.transitions.getLast?, last.1.toInt ≤ time →
        block.describe last.2 = block.describe block.firstType := by
      intro last hlast hle
      have hmem : later[j] ∈ block.transitions := by
        rw [hrow]
        exact mem_cons_of_mem _ (getElem_mem hlt)
      have hnot := le_of_getLast? hsorted hlast hle later[j] hmem
      have hlater' : time < later[j].1.toInt := by simpa using hlater
      omega
    rw [hrow] at hsorted
    by_cases hfirst : first.1.toInt ≤ time
    · have hused : block.transitions[j]? = some block.transitions[j] :=
        getElem?_eq_getElem (by omega)
      have htype := getLast?_filter_of_findIdx? hfirst hsorted hcrossing
      rw [← hrow, hused] at htype
      rw [usedType_of_some h hused, typeAt_eq htype]
      refine iff_of_true rfl ⟨hlast, ?_⟩
      rw [hrow]
      rintro _ ⟨⟩ - hlt
      omega
    · -- the second transition is later than the first one, which is later already
      have hzero : j = 0 := by
        by_contra hne
        have hsecond := hbefore 0 (by omega)
        have hlt' := (pairwise_cons.1 hsorted).1 later[0] (getElem_mem (by omega))
        simp at hsecond
        omega
      rw [hzero] at h
      rw [usedType_of_some h (by rw [hrow]; rfl), typeAt_of_lt hrow (by omega)]
      constructor
      · intro heq
        refine ⟨hlast, ?_⟩
        rw [hrow]
        rintro _ ⟨⟩ - -
        exact heq
      · intro hagree
        exact hagree.first first (by rw [hrow]; rfl) (by omega) (by omega)

theorem describe_usedType_iff (time : ℤ) :
    block.describe (block.usedType time) = block.describe (block.typeAt time) ↔
      block.EndsAgree time := by
  rcases h : block.crossing time with _ | j
  · exact describe_iff_of_none h
  · exact describe_iff_of_some h

end Block

/-- What `get_tz_data` returns is right as long as the ends of the table do not
matter; in tables for which 32 bits are too few, the bytes at the offsets that
are cut off must happen to spell the right type. -/
theorem getTzData_iff (block : Block) (time : ℤ) :
    (initTimezone block.file).bind (getTzData · time) =
        some (block.describe (block.typeAt time)) ↔
      if 5 * block.transitions.length < 2 ^ 32 then block.EndsAgree time
      else block.Spells time (block.describe (block.typeAt time)) := by
  rw [block.initTimezone_file, bind_some, block.getTzData_loaded]
  split
  · rename_i hsmall
    rw [block.readAt_eq hsmall, some_inj, Block.describe_usedType_iff]
  · exact block.readAt_eq_some_iff

/-- A block of version 1 with nothing but the tables. -/
def Block.plain (types : List TtInfo) (transitions : List (Word × TypeIndex types))
    (abbreviations : List Byte)
    (h : (transitions.Pairwise fun a b => a.1.toInt < b.1.toInt) ∧ 0 < types.length ∧
      (∀ info ∈ types, 0 ∈ abbreviations.drop info.desigidx.toNat) ∧
      transitions.length < 2 ^ 32 ∧ types.length < 2 ^ 32 ∧ abbreviations.length < 2 ^ 32) :
    Block where
  version := 0
  reserved := List.replicate 15 0
  ttisutcnt := 0
  ttisstdcnt := 0
  leapcnt := 0
  types := types
  transitions := transitions
  abbreviations := abbreviations
  rest := []
  version_mem := by decide
  reserved_length := by decide
  increasing := h.1
  types_pos := h.2.1
  terminated := h.2.2.1
  transitions_lt := h.2.2.2.1
  types_lt := h.2.2.2.2.1
  abbreviations_lt := h.2.2.2.2.2

/-- A zone that changes once, from local mean time to an hour ahead. -/
def changedOnce : Block :=
  .plain [⟨0, 0, 0⟩, ⟨3600, 0, 4⟩] [(1000, ⟨1, by decide⟩)] ['L', 'M', 'T', 0, 'C', 'E', 'T', 0]
    (by decide)

theorem getTzData_changedOnce :
    (initTimezone changedOnce.file).bind (getTzData · 2000) =
        some ⟨0, false, ['L', 'M', 'T']⟩ ∧
      changedOnce.describe (changedOnce.typeAt 2000) = ⟨3600, false, ['C', 'E', 'T']⟩ ∧
      (initTimezone changedOnce.file).bind (getTzData · 2000) ≠
        some (changedOnce.describe (changedOnce.typeAt 2000)) := by
  decide

end Hzlibc.Time
