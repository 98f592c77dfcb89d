import Hzlibc.Glibc.Nameser

/-!
What `ns_initparse` and `ns_parserr` make of a message.

The sections are found if the names in them can be skipped: those of questions have no
pointers, those of records lead to labels within the first 256 bytes, and the lengths
of the data survive the sign of `char`. An entry is then read right if its index and
the number of its section are on the same side of the count.
-/

namespace Hzlibc.Dns

open List
open BitVec hiding append_assoc cons_append

open Stdio (Byte)

/-! ### Words -/

theorem setWidth_widen (signed : Bool) : ∀ b : Byte, (widen signed b).setWidth 8 = b := by
  cases signed <;> decide

theorem widen_low (signed : Bool) :
    ∀ b : Byte, (signed = true → b.toNat < 128) → widen signed b = b.setWidth 32 := by
  cases signed <;> decide

theorem shifted16_eq {w : BitVec 32} {b0 : Byte} (hw : w.setWidth 8 = b0) (b1 : Byte) :
    shifted16 w (b1.setWidth 32) = b0 ++ b1 := by
  subst hw
  apply eq_of_getLsbD_eq
  intro i hi
  have h32 : i < 32 := Nat.lt_trans hi (by decide)
  rw [shifted16, getLsbD_setWidth, getLsbD_or, getLsbD_shiftLeft,
    getLsbD_append]
  by_cases h : i < 8
  · simp [h, hi, h32]
  · have hhigh : b1.getLsbD i = false := getLsbD_of_ge b1 i (Nat.not_lt.mp h)
    have hlow : i - 8 < 8 := by omega
    simp [h, hi, h32, hhigh, hlow]

theorem append_be16 (w : BitVec 16) : w.extractLsb' 8 8 ++ w.extractLsb' 0 8 = w :=
  extractLsb'_append_extractLsb'

theorem shifted16_be16 (w : BitVec 16) :
    shifted16 (widen false (w.extractLsb' 8 8)) (widen false (w.extractLsb' 0 8)) = w := by
  rw [widen_low false (w.extractLsb' 0 8) nofun, shifted16_eq (setWidth_widen false _), append_be16]

/-- A byte of a word, shifted back to its place. -/
theorem getLsbD_byte (w : BitVec 32) (s : ℕ) {i : ℕ} (hi : i < 32) :
    (widen false (w.extractLsb' s 8) <<< s).getLsbD i
      = (decide (s ≤ i ∧ i < s + 8) && w.getLsbD i) := by
  rw [widen_low false _ nofun, getLsbD_shiftLeft, getLsbD_setWidth]
  by_cases h : s ≤ i
  · have hplace : s + (i - s) = i := by omega
    have hwidth : i - s < 32 := by omega
    have hbyte : i - s < 8 ↔ i < s + 8 := by omega
    simp [h, hi, hplace, hwidth, hbyte, Nat.not_lt.mpr h]
  · simp [h, Nat.not_le.mp h]

theorem shifted32_be32 (w : BitVec 32) :
    shifted32 (widen false (w.extractLsb' 24 8)) (widen false (w.extractLsb' 16 8))
      (widen false (w.extractLsb' 8 8)) (widen false (w.extractLsb' 0 8)) = w := by
  apply eq_of_getLsbD_eq
  intro i hi
  have hzero := getLsbD_byte w 0 hi
  rw [shiftLeft_zero] at hzero
  rw [shifted32, getLsbD_or, getLsbD_or, getLsbD_or, getLsbD_byte w 24 hi,
    getLsbD_byte w 16 hi, getLsbD_byte w 8 hi, hzero, ← Bool.and_or_distrib_right,
    ← Bool.and_or_distrib_right, ← Bool.and_or_distrib_right, ← Bool.decide_or,
    ← Bool.decide_or, ← Bool.decide_or, decide_eq_true (by omega), Bool.true_and]

@[simp] theorem Record.toNat_rdlength (r : Record) : r.rdlength.toNat = r.rdata.length := by
  exact Nat.mod_eq_of_lt r.fits

/-! ### Skipping -/

variable {k : ℕ} {s : Section}

section Rounds

variable {α : Type} {enc : α → List Byte} {step : List Byte → Except Fault (List Byte)}

/-- One entry is skipped in every round. -/
theorem rounds_flatMap {xs : List α} (h : ∀ x ∈ xs, ∀ tail, step (enc x ++ tail) = .ok tail)
    (hk : k ≤ xs.length) (rest : List Byte) :
    rounds step k (xs.flatMap enc ++ rest) = .ok ((xs.drop k).flatMap enc ++ rest) := by
  induction k generalizing xs with
  | zero => rfl
  | succ k ih =>
    cases xs with
    | nil => exact absurd hk (Nat.not_succ_le_zero k)
    | cons x xs =>
      obtain ⟨hx, hxs⟩ := forall_mem_cons.mp h
      rw [flatMap_cons, append_assoc, rounds, hx]
      exact ih hxs (Nat.le_of_succ_le_succ hk)

theorem rounds_all {xs : List α} (h : ∀ x ∈ xs, ∀ tail, step (enc x ++ tail) = .ok tail)
    (rest : List Byte) : rounds step xs.length (xs.flatMap enc ++ rest) = .ok rest := by
  rw [rounds_flatMap h (Nat.le_refl _), drop_length]
  rfl

end Rounds

@[simp] theorem advance_append (front tail : List Byte) :
    advance front.length (front ++ tail) = .ok tail := by
  rw [advance, if_pos (by simp), drop_left]

variable {ls : List Label}

theorem skipLabels_encode (hls : ∀ l ∈ ls, IsLabel l) (rest : List Byte) :
    skipLabels (encode ls ++ 0 :: rest) = .ok rest := by
  induction ls with
  | nil =>
    change skipLabels (0 :: rest) = _
    rw [skipLabels, if_pos rfl]
  | cons l ls ih =>
    obtain ⟨hl, hls⟩ := forall_mem_cons.mp hls
    rw [encode_cons, cons_append, append_assoc, skipLabels, if_neg hl.readable.ne_zero,
      hl.readable.toNat, if_pos (by simp), drop_left, ih hls]

/-- The loops of `parse_dns_name` and `expand_dns_name` come to the end of the name. -/
inductive Reads (msg : List Byte) : Stored → CString → Prop
  | plain {ls : List Label} (hls : ∀ l ∈ ls, IsLabel l) : Reads msg (.plain ls) (dotted ls)
  | pointed {pre ls : List Label} {o : ℕ} {rest : List Byte} (hpre : ∀ l ∈ pre, IsLabel l)
      (ho : o < 2 ^ 14) (hls : ∀ l ∈ ls, Readable l)
      (hmsg : msg.drop (o % 256) = encode ls ++ 0 :: rest) :
      Reads msg (.pointed pre o) (dots pre ++ dotted ls)

variable {text : CString} {msg : List Byte}

theorem Reads.parseDnsName {name : Stored} (h : Reads msg name text) (tail : List Byte) :
    parseDnsName msg (name.bytes ++ tail) = .ok (text, tail) := by
  cases h with
  | plain hls =>
    rw [Stored.bytes, append_assoc]
    exact nameLoop_encode fun l hl => (hls l hl).readable
  | pointed hpre ho hls hmsg =>
    rw [Stored.bytes, append_assoc, parseDnsName_pointed hpre ho, hmsg, targetLoop_encode hls]
    rfl

theorem Question.bytes_append {q : Question} (hname : q.name = .plain ls) (tail : List Byte) :
    q.bytes ++ tail = encode ls ++ 0 :: ((be16 q.type ++ be16 q.rrClass) ++ tail) := by
  rw [Question.bytes, hname, Stored.bytes, append_assoc, append_assoc]
  rfl

theorem skipQuestion_bytes {q : Question} (hname : q.name = .plain ls) (hls : ∀ l ∈ ls, IsLabel l)
    (tail : List Byte) : skipQuestion (q.bytes ++ tail) = .ok tail := by
  rw [q.bytes_append hname, skipQuestion, skipLabels_encode hls]
  exact advance_append (be16 q.type ++ be16 q.rrClass) tail

theorem skipRecord_bytes {signed : Bool} {r : Record} (hname : Reads msg r.name text)
    (hlength : signed = true → r.rdata.length % 256 < 128) (tail : List Byte) :
    skipRecord signed msg (r.bytes ++ tail) = .ok tail := by
  have hlow : signed = true → (r.rdlength.extractLsb' 0 8).toNat < 128 := by
    intro h
    rw [extractLsb'_toNat, Record.toNat_rdlength]
    exact hlength h
  have hlen : (shifted16 (widen signed (r.rdlength.extractLsb' 8 8))
      (widen signed (r.rdlength.extractLsb' 0 8))).toNat = r.rdata.length := by
    rw [widen_low signed _ hlow, shifted16_eq (setWidth_widen signed _), append_be16,
      Record.toNat_rdlength]
  have hbytes : r.bytes ++ tail = r.name.bytes ++ ((r.head ++ r.rdata) ++ tail) := by
    rw [Record.bytes, append_assoc]
  have hadvance : (r.head ++ r.rdata).length = 10 + r.rdata.length := length_append
  rw [hbytes, skipRecord, hname.parseDnsName]
  change advance (10 + (shifted16 (widen signed (r.rdlength.extractLsb' 8 8))
    (widen signed (r.rdlength.extractLsb' 0 8))).toNat) ((r.head ++ r.rdata) ++ tail) = _
  rw [hlen, ← hadvance, advance_append]

/-! ### Reading an entry -/

def NsRr.fields (rr : NsRr) : Fields :=
  ⟨rr.type, rr.rrClass, rr.ttl, rr.rdlength, (rr.rdata.getD []).take rr.rdlength.toNat⟩

theorem questionLoop_encode (hls : ∀ l ∈ ls, IsLabel l) {name : List Byte}
    (hroom : (name ++ dotted ls).length < maxName) (rest : List Byte) :
    questionLoop (encode ls ++ 0 :: rest) name = .ok (name ++ dotted ls ++ [0], rest) := by
  induction ls generalizing name with
  | nil =>
    change questionLoop (0 :: rest) name = .ok (name ++ [] ++ [0], rest)
    change (name ++ []).length < maxName at hroom
    rw [append_nil] at hroom ⊢
    rw [questionLoop, if_pos rfl, if_pos hroom]
  | cons l ls ih =>
    obtain ⟨hl, hls⟩ := forall_mem_cons.mp hls
    obtain ⟨b, tail, htail, htext⟩ :=
      exists_cons_encode (fun l hl => (hls l hl).readable) 0 rest l
    rw [textBefore, textBefore, if_pos rfl, if_pos rfl] at htext
    have hname : name ++ l ++ dotBefore b ++ dotted ls = name ++ dotted (l :: ls) := by simp [htext]
    rw [← hname] at hroom
    rw [encode_cons, cons_append, append_assoc, htail, questionLoop,
      if_neg hl.readable.ne_zero, hl.readable.toNat, addLabel_append, drop_left]
    rw [length_append] at hroom
    rw [if_pos ⟨by simp, by omega⟩, ← htail, ih hls (by rw [length_append]; exact hroom), hname]

theorem readQuestion_bytes {q : Question} (hname : q.name = .plain ls) (hls : ∀ l ∈ ls, IsLabel l)
    (hroom : (dotted ls).length < maxName) (tail : List Byte) :
    (readQuestion (q.bytes ++ tail)).map NsRr.fields = .ok q.fields := by
  have hread : readQuestion (q.bytes ++ tail)
      = .ok ⟨dotted ls ++ [0], q.type, q.rrClass, 0, 0, none⟩ := by
    rw [q.bytes_append hname, readQuestion, questionLoop_encode hls (by rwa [nil_append])]
    refine congrArg Except.ok ?_
    exact (NsRr.mk.injEq ..).mpr ⟨rfl, append_be16 _, append_be16 _, rfl, rfl, rfl⟩
  rw [hread]
  rfl

theorem readRecord_bytes {r : Record} (hname : Reads msg r.name text)
    (hroom : text.length < maxName) (tail : List Byte) :
    (readRecord msg (r.bytes ++ tail)).map NsRr.fields = .ok r.fields := by
  have hbytes : r.bytes ++ tail = r.name.bytes ++ (r.head ++ (r.rdata ++ tail)) := by
    rw [Record.bytes, append_assoc, append_assoc]
  have hexpand := (if_pos hroom).mp
    (expandDnsName_of_parseDnsName (hname.parseDnsName (r.head ++ (r.rdata ++ tail))) _)
  have hread : readRecord msg (r.bytes ++ tail)
      = .ok ⟨text ++ [0], r.type, r.rrClass, r.ttl, r.rdlength, some (r.rdata ++ tail)⟩ := by
    rw [hbytes, readRecord, hexpand]
    refine congrArg Except.ok ?_
    exact (NsRr.mk.injEq ..).mpr ⟨rfl, shifted16_be16 _, shifted16_be16 _, shifted32_be32 _,
      shifted16_be16 _, rfl⟩
  rw [hread]
  change Except.ok (Fields.mk _ _ _ _ ((r.rdata ++ tail).take r.rdlength.toNat)) = _
  rw [Record.toNat_rdlength, take_left]
  rfl

/-! ### Whole messages -/

/-- What the two functions can read of a message. -/
structure Message.Supported (m : Message) (signed : Bool) : Prop where
  questionNames : ∀ q ∈ m.questions, ∃ ls, q.name = .plain ls ∧ (∀ l ∈ ls, IsLabel l) ∧
    (dotted ls).length < maxName
  recordNames : ∀ s, ∀ r ∈ m.records s, ∃ text, Reads m.bytes r.name text ∧ text.length < maxName
  lengths : signed = true → ∀ s, s = .an ∨ s = .ns → ∀ r ∈ m.records s, r.rdata.length % 256 < 128

/-- The handle that `ns_initparse` is to fill in. -/
def Message.handle (m : Message) : NsMsg := ⟨m.bytes, m.id, m.flags, m.headerCount, m.startingAt⟩

section

variable {m : Message} {signed : Bool}

theorem Message.toNat_headerCount (hcounts : ∀ s, m.count s < 2 ^ 16) (s : Section) :
    (m.headerCount s).toNat = m.count s := by
  exact Nat.mod_eq_of_lt (hcounts s)

theorem Message.fields_eq (m : Message) (hs : s ≠ .qd) :
    m.fields s = (m.records s).map Record.fields := by
  cases s with
  | qd => exact absurd rfl hs
  | an | ns | ar => rfl

theorem Message.startingAt_eq (m : Message) (hs : s ≠ .qd) :
    ∃ rest, m.startingAt s = recordBytes (m.records s) ++ rest := by
  cases s with
  | qd => exact absurd rfl hs
  | an => exact ⟨m.startingAt .ns, rfl⟩
  | ns => exact ⟨m.startingAt .ar, rfl⟩
  | ar => exact ⟨[], (append_nil _).symm⟩

theorem Message.length_records (hs : s ≠ .qd) : (m.records s).length = m.count s := by
  rw [count, m.fields_eq hs, length_map]

@[simp] theorem Message.length_questions : m.questions.length = m.count .qd :=
  (length_map Question.fields).symm

theorem eq_perSection {α : Type} (f : Section → α) :
    perSection (f .qd) (f .an) (f .ns) (f .ar) = f := by
  funext s
  cases s <;> rfl

theorem nsInitparse_bytes (m : Message) (signed : Bool) :
    nsInitparse signed m.bytes
      = (initSections signed m.bytes m.headerCount (m.startingAt .qd)).map fun sections =>
          ⟨m.bytes, m.id, m.flags, m.headerCount, sections⟩ := by
  rw [← eq_perSection m.headerCount, ← append_be16 m.id, ← append_be16 m.flags,
    ← append_be16 (m.headerCount .qd), ← append_be16 (m.headerCount .an),
    ← append_be16 (m.headerCount .ns), ← append_be16 (m.headerCount .ar)]
  rfl

/-- The entries in front of the `k`-th are skipped, and the `k`-th is read. -/
theorem rounds_read {α : Type} {enc : α → List Byte} {fields : α → Fields}
    {step : List Byte → Except Fault (List Byte)} {read : List Byte → Except Fault NsRr}
    {xs : List α} (hskip : ∀ x ∈ xs, ∀ tail, step (enc x ++ tail) = .ok tail)
    (hread : ∀ x ∈ xs, ∀ tail, (read (enc x ++ tail)).map NsRr.fields = .ok (fields x))
    (hk : k < xs.length) (rest : List Byte) :
    ∃ entry, (xs.map fields)[k]? = some entry ∧
      (rounds step k (xs.flatMap enc ++ rest) >>= read).map NsRr.fields = .ok entry := by
  refine ⟨fields xs[k], ?_, ?_⟩
  · rw [List.getElem?_map, List.getElem?_eq_getElem hk]
    rfl
  · rw [rounds_flatMap hskip (Nat.le_of_lt hk), drop_eq_getElem_cons hk, flatMap_cons, append_assoc]
    exact hread xs[k] (getElem_mem hk) _

namespace Message.Supported

variable (h : m.Supported signed)

include h

theorem skipQuestion : ∀ q ∈ m.questions, ∀ tail, skipQuestion (q.bytes ++ tail) = .ok tail := by
  intro q hq tail
  obtain ⟨ls, hname, hls, -⟩ := h.questionNames q hq
  exact skipQuestion_bytes hname hls tail

theorem readEntry (hk : k < m.count s) :
    ∃ entry, (m.fields s)[k]? = some entry ∧
      (readEntry m.handle s k).map NsRr.fields = .ok entry := by
  by_cases hs : s = .qd
  · subst hs
    rw [← length_questions] at hk
    refine rounds_read h.skipQuestion (fun q hq tail => ?_) hk _
    obtain ⟨ls, hname, hls, hroom⟩ := h.questionNames q hq
    exact readQuestion_bytes hname hls hroom tail
  · rw [← length_records hs] at hk
    obtain ⟨rest, hstart⟩ := m.startingAt_eq hs
    have hfields : m.fields s = (m.records s).map Record.fields := m.fields_eq hs
    have hread : Dns.readEntry m.handle s k = (rounds (skipRecord false m.bytes) k
        (recordBytes (m.records s) ++ rest) >>= readRecord m.bytes) := by
      rw [Dns.readEntry, if_neg hs, ← hstart]
      rfl
    rw [hfields, hread]
    refine rounds_read (fun r hr tail => ?_) (fun r hr tail => ?_) hk rest
    · obtain ⟨text, hname, -⟩ := h.recordNames s r hr
      exact skipRecord_bytes hname (fun hsigned => absurd hsigned Bool.false_ne_true) tail
    · obtain ⟨text, hname, hroom⟩ := h.recordNames s r hr
      exact readRecord_bytes hname hroom tail

end Message.Supported

theorem nsInitparse_supported (hcounts : ∀ s, m.count s < 2 ^ 16) (h : m.Supported signed) :
    nsInitparse signed m.bytes = .ok m.handle := by
  have hquestions : rounds skipQuestion (m.count .qd) (m.startingAt .qd)
      = .ok (m.startingAt .an) := by
    rw [← Message.length_questions]
    exact rounds_all h.skipQuestion _
  have hrecords : ∀ s, s = .an ∨ s = .ns → ∀ rest, rounds (skipRecord signed m.bytes) (m.count s)
      (recordBytes (m.records s) ++ rest) = .ok rest := by
    intro s hs rest
    rw [← Message.length_records (by rcases hs with rfl | rfl <;> decide)]
    refine rounds_all (fun r hr tail => ?_) rest
    obtain ⟨text, hname, -⟩ := h.recordNames s r hr
    exact skipRecord_bytes hname (fun hsigned => h.lengths hsigned s hs r hr) tail
  have han : rounds (skipRecord signed m.bytes) (m.count .an) (m.startingAt .an)
      = .ok (m.startingAt .ns) := hrecords .an (.inl rfl) (m.startingAt .ns)
  have hns : rounds (skipRecord signed m.bytes) (m.count .ns) (m.startingAt .ns)
      = .ok (m.startingAt .ar) := hrecords .ns (.inr rfl) (m.startingAt .ar)
  have hsections : initSections signed m.bytes m.headerCount (m.startingAt .qd)
      = .ok m.startingAt := by
    simp only [initSections, Message.toNat_headerCount hcounts, hquestions, han, hns,
      bind, Except.bind]
    exact congrArg Except.ok (eq_perSection m.startingAt)
  rw [nsInitparse_bytes, hsections]
  rfl

theorem nsParserr_eq_none_iff {handle : NsMsg} {k : ℤ} :
    nsParserr handle s k = .ok none ↔ (handle.counts s).toNat ≤ s.num := by
  rw [nsParserr]
  split
  next h => exact iff_of_true rfl h
  next h =>
    refine iff_of_false (fun hnone => ?_) h
    obtain ⟨rr, -, hsome⟩ := map_eq_ok hnone
    cases hsome

/-- What `ns_parserr` says of an entry is what the message says of it, and `EINVAL` if
there is no such entry. -/
def Message.EntryRight (m : Message) (handle : NsMsg) (s : Section) (k : ℕ) : Prop :=
  (nsParserr handle s k).map (Option.map NsRr.fields) = .ok (m.fields s)[k]?

/-- The number of the section is compared where the index should be. -/
theorem Message.EntryRight.lt_iff {handle : NsMsg} (h : m.EntryRight handle s k)
    (hcount : (handle.counts s).toNat = m.count s) : k < m.count s ↔ s.num < m.count s := by
  obtain ⟨rr, hrr, hfields⟩ := map_eq_ok h
  have hnone : rr = none ↔ m.count s ≤ s.num := by
    rw [← hcount, ← nsParserr_eq_none_iff, hrr, Except.ok.injEq]
  rw [← not_iff_not, Nat.not_lt, Nat.not_lt, ← hnone, ← Option.map_eq_none_iff, hfields,
    List.getElem?_eq_none_iff, count]

theorem entryRight_iff (hcounts : ∀ s, m.count s < 2 ^ 16) (h : m.Supported signed) :
    m.EntryRight m.handle s k ↔ (k < m.count s ↔ s.num < m.count s) := by
  have hcount : (m.handle.counts s).toNat = m.count s := Message.toNat_headerCount hcounts s
  refine ⟨fun hright => hright.lt_iff hcount, fun hiff => ?_⟩
  rw [Message.EntryRight, nsParserr, hcount]
  by_cases hk : k < m.count s
  · obtain ⟨entry, hentry, hread⟩ := h.readEntry hk
    obtain ⟨rr, hrr, rfl⟩ := map_eq_ok hread
    rw [if_neg (Nat.not_le.mpr (hiff.mp hk)), hrr, hentry]
    rfl
  · have hs : m.count s ≤ s.num := Nat.not_lt.mp fun hs => hk (hiff.mpr hs)
    rw [if_pos hs, List.getElem?_eq_none (Nat.not_lt.mp hk)]
    rfl

theorem Message.Supported.of_count_eq_zero (h : ∀ s, m.count s = 0) : m.Supported signed := by
  have hquestions : m.questions = [] :=
    length_eq_zero_iff.mp (Message.length_questions.trans (h .qd))
  have hrecords : ∀ s, m.records s = [] := by
    intro s
    by_cases hs : s = .qd
    · rw [hs]
      rfl
    · exact length_eq_zero_iff.mp ((Message.length_records hs).trans (h s))
  refine ⟨fun q hq => ?_, fun s r hr => ?_, fun _ s _ r hr => ?_⟩
  · rw [hquestions] at hq
    exact absurd hq not_mem_nil
  all_goals
    rw [hrecords s] at hr
    exact absurd hr not_mem_nil

/-- The sections are found, and every entry is read right. -/
def Message.Right (m : Message) (signed : Bool) : Prop :=
  ∃ handle, nsInitparse signed m.bytes = .ok handle ∧
    (∀ s, (handle.counts s).toNat = m.count s ∧ handle.sections s = m.startingAt s) ∧
    ∀ s k, k < 2 ^ 31 → m.EntryRight handle s k

/-- No section with an entry in it is read right: if its number is not below the count
then no entry of it is found, and if it is then there is no end to the entries. -/
theorem Message.right_iff (hm : m.WellFormed) (signed : Bool) :
    m.Right signed ↔ ∀ s, m.count s = 0 := by
  constructor
  · rintro ⟨handle, -, hsections, hentries⟩ s
    have hcount := (hsections s).1
    have hfirst := (hentries s 0 (by decide)).lt_iff hcount
    have hbehind := (hentries s (m.count s) (by omega)).lt_iff hcount
    omega
  · intro hzero
    have hsupported : m.Supported signed := .of_count_eq_zero hzero
    refine ⟨m.handle, nsInitparse_supported hm.counts hsupported, fun s => ?_, fun s k _ => ?_⟩
    · exact ⟨Message.toNat_headerCount hm.counts s, rfl⟩
    · rw [entryRight_iff hm.counts hsupported, hzero s]
      exact iff_of_false (Nat.not_lt_zero k) (Nat.not_lt_zero s.num)

end

/-- A header and nothing else. -/
def emptyMessage : Message := ⟨1, 0, [], [], [], []⟩

theorem emptyMessage_right :
    emptyMessage.WellFormed ∧ emptyMessage.Right true ∧ emptyMessage.Right false := by
  have hwell : emptyMessage.WellFormed := by
    refine ⟨fun s => by cases s <;> decide, fun before q after h => ?_,
      fun s before r after h => ?_⟩
    · exact absurd h.symm (by simp [emptyMessage])
    · exact absurd h.symm (by cases s <;> simp [emptyMessage, Message.records])
  have hzero : ∀ s, emptyMessage.count s = 0 := fun s => by cases s <;> rfl
  exact ⟨hwell, (Message.right_iff hwell true).mpr hzero, (Message.right_iff hwell false).mpr hzero⟩

/-- An address as the only record of the answer. -/
def oneAnswer : Message :=
  ⟨1, 0, [], [⟨.plain [['a']], 1, 1, 60, [127, 0, 0, 1], by decide⟩], [], []⟩

theorem oneAnswer_wellFormed : oneAnswer.WellFormed := by
  refine ⟨fun s => by cases s <;> decide, fun before q after h => ?_, fun s before r after h => ?_⟩
  · exact absurd h.symm (by simp [oneAnswer])
  cases s with
  | an =>
    have hr : r ∈ oneAnswer.records .an := h ▸ mem_append_right before mem_cons_self
    obtain rfl := mem_singleton.mp hr
    exact (by decide : ∀ l ∈ [(['a'] : Label)], IsLabel l)
  | qd | ns | ar => exact absurd h.symm (by simp [oneAnswer, Message.records])

theorem oneAnswer_supported : oneAnswer.Supported true := by
  refine ⟨nofun, fun s r hr => ?_, fun _ s _ r hr => ?_⟩
  · cases s with
    | an =>
      obtain rfl := mem_singleton.mp hr
      exact ⟨dotted [['a']], .plain (by decide), by decide⟩
    | qd | ns | ar => exact absurd hr not_mem_nil
  · cases s with
    | an =>
      obtain rfl := mem_singleton.mp hr
      decide
    | qd | ns | ar => exact absurd hr not_mem_nil

/-- The record is there, and the call for it fails. -/
theorem oneAnswer_not_right :
    oneAnswer.WellFormed ∧ (∃ handle, nsInitparse true oneAnswer.bytes = .ok handle ∧
      nsParserr handle .an 0 = .ok none) ∧ ¬oneAnswer.Right true := by
  refine ⟨oneAnswer_wellFormed, ⟨oneAnswer.handle, ?_, ?_⟩, ?_⟩
  · exact nsInitparse_supported oneAnswer_wellFormed.counts oneAnswer_supported
  · rw [nsParserr_eq_none_iff]
    decide
  · rintro ⟨handle, -, hsections, hentries⟩
    have hfirst := (hentries .an 0 (by decide)).lt_iff (hsections .an).1
    exact absurd (hfirst.mp (by decide)) (by decide)

end Hzlibc.Dns
