import Hzlibc.Stdio.Chunked

/-!
`getdelim`.

The caller owns the buffer: `*line` may be null at first, and both `*line` and
`*size` change when the buffer grows. Which allocations succeed and what a new
block holds is up to the heap.

Called again and again until it returns -1 the function should take a file
apart into its lines. The end of the file is answered with -1 also in the
middle of a line, whose bytes are then in the buffer but not reported.
-/

namespace Hzlibc.Stdio

open Effect List Function Prog

/-- The outcome of each allocation, and what a new block holds. -/
structure Heap where
  grants : ℕ → Bool
  fresh : ℕ → ℕ → Byte

/-- The caller's variables. -/
structure LineBuf (S : Type) where
  io : S
  /-- `*line`. -/
  line : Option (ℕ → Byte)
  /-- `*size`, unless `size` is null. -/
  size : Option ℕ
  /-- The number of allocations asked for so far. -/
  requests : ℕ
  errno : ℤ

namespace LineBuf

variable {S : Type} (r : Reader S) (heap : Heap)

def eio : ℤ := 5

def einval : ℤ := 22

def setErrno (err : ℤ) : Prog (LineBuf S) Fault Unit := .modify fun s => { s with errno := err }

def fgetc : Prog (LineBuf S) Fault ℤ := .zoom LineBuf.io (fun io s => { s with io }) r.fgetc

/-- A new block of which the first `keep` bytes are those of the old one. -/
def moved (keep newSize : ℕ) (s : LineBuf S) : LineBuf S :=
  { s with
    line := some fun i => if i < keep then (s.line.getD fun _ => 0) i else heap.fresh s.requests i
    size := s.size.map fun _ => newSize
    requests := s.requests + 1 }

/-- `malloc` if nothing is kept, `realloc` otherwise. -/
def allocate (keep newSize : ℕ) : Prog (LineBuf S) Fault Bool := fun s =>
  if heap.grants s.requests then (.ok true, s.moved heap keep newSize)
  else (.ok false, { s with requests := s.requests + 1 })

def put (i : ℕ) (c : Byte) (s : LineBuf S) : LineBuf S :=
  { s with line := s.line.map fun buf => Function.update buf i c }

def store (bufSize i : ℕ) (c : Byte) : Prog (LineBuf S) Fault Unit :=
  if i < bufSize then .modify (put i c) else .leave .outOfBounds

def newSize (bufSize : ℕ) : ℕ := if bufSize < 512 then 512 else bufSize + bufSize / 2

/-- The buffer made larger if one more byte and the NUL do not fit, and its
size; nothing if that fails. -/
def reserve (bufSize count : ℕ) : Prog (LineBuf S) Fault (Option ℕ) := do
  if bufSize ≤ count + 1 then
    if ← allocate heap bufSize (newSize bufSize) then pure (some (newSize bufSize)) else pure none
  else pure (some bufSize)

def getdelimLoop (delim : ℤ) : ℕ → ℕ → ℕ → Prog (LineBuf S) Fault ℤ
  | 0, _, _ => .leave .rounds
  | rounds + 1, bufSize, count => do
      let c ← fgetc r
      if c = EOF then
        setErrno eio
        pure (-1)
      else
        match ← reserve heap bufSize count with
        | none => pure (-1)
        | some bufSize =>
          store bufSize count (BitVec.ofInt 8 c)
          if c = delim then
            store bufSize (count + 1) 0
            pure (count + 1 : ℕ)
          else getdelimLoop delim rounds bufSize (count + 1)

def getdelim (delim : ℤ) (rounds : ℕ) : Prog (LineBuf S) Fault ℤ := do
  match ← .gets fun s => (s.line, s.size) with
  | (none, _) =>
    if ← allocate heap 0 8 then getdelimLoop r heap delim rounds 8 0 else pure (-1)
  | (some _, none) =>
    setErrno einval
    pure (-1)
  | (some _, some bufSize) => getdelimLoop r heap delim rounds bufSize 0

/-- What the caller sees after a successful call. -/
structure Line where
  length : ℕ
  buf : ℕ → Byte
  size : ℕ

def seen (s : LineBuf S) (ret : ℕ) : Line := ⟨ret, s.line.getD fun _ => 0, s.size.getD 0⟩

/-- The rest of the calls after one that has returned `ret`. -/
def collect (next : Prog (LineBuf S) Fault (List Line)) (ret : ℤ) :
    Prog (LineBuf S) Fault (List Line) := do
  if ret = -1 then pure []
  else
    let line ← .gets fun s => s.seen ret.toNat
    let lines ← next
    pure (line :: lines)

/-- The calls up to the first that returns -1. -/
def getlines (delim : ℤ) (rounds : ℕ) : ℕ → Prog (LineBuf S) Fault (List Line)
  | 0 => .leave .rounds
  | calls + 1 => do
      let ret ← getdelim r heap delim rounds
      collect (getlines delim rounds calls) ret

end LineBuf

/-! ### Lines of a list of bytes -/

/-- The size of the buffer and the number of allocations after one more byte
was made room for, unless that fails. -/
def Heap.reserved (heap : Heap) (bufSize requests count : ℕ) : Option (ℕ × ℕ) :=
  if bufSize ≤ count + 1 then
    if heap.grants requests then some (LineBuf.newSize bufSize, requests + 1) else none
  else some (bufSize, requests)

/-- The lines that are returned from the bytes to come, if `line` was read
before them. -/
def Heap.cutLines (heap : Heap) (delim : Byte) : ℕ → ℕ → List Byte → List Byte → List (List Byte)
  | _, _, _, [] => []
  | bufSize, requests, line, b :: bs =>
    match heap.reserved bufSize requests line.length with
    | none => []
    | some (bufSize, requests) =>
      if b = delim then (line ++ [b]) :: heap.cutLines delim bufSize requests [] bs
      else heap.cutLines delim bufSize requests (line ++ [b]) bs

/-- Room can be made for every byte to come. -/
def Heap.HasRoom (heap : Heap) (delim : Byte) : ℕ → ℕ → ℕ → List Byte → Prop
  | _, _, _, [] => True
  | bufSize, requests, count, b :: bs =>
    match heap.reserved bufSize requests count with
    | none => False
    | some (bufSize, requests) =>
      heap.HasRoom delim bufSize requests (if b = delim then 0 else count + 1) bs

/-- The length of the longest line, if `count` bytes were read before. -/
def longestLine (delim : Byte) : ℕ → List Byte → ℕ
  | _, [] => 0
  | count, b :: bs => max (count + 1) (longestLine delim (if b = delim then 0 else count + 1) bs)

section Lines

variable {heap : Heap} {delim : Byte}

/-- Nothing is lost exactly when there is room and the last line is
terminated. -/
theorem flatten_cutLines_iff (heap : Heap) (delim : Byte) (bufSize requests : ℕ)
    (line content : List Byte) :
    (heap.cutLines delim bufSize requests line content).flatten = line ++ content ↔
      line ++ content = [] ∨
        content.getLast? = some delim ∧
          heap.HasRoom delim bufSize requests line.length content := by
  induction content generalizing bufSize requests line with
  | nil => simp [Heap.cutLines, eq_comm]
  | cons b bs ih =>
    rw [Heap.cutLines, Heap.HasRoom]
    cases heap.reserved bufSize requests line.length with
    | none => simp
    | some room =>
      obtain ⟨bufSize', requests'⟩ := room
      by_cases hb : b = delim
      · have h := ih bufSize' requests' []
        subst hb
        simp at h ⊢
        rw [h]
        cases bs with
        | nil => simp [Heap.HasRoom]
        | cons b' bs => simp
      · have h := ih bufSize' requests' (line ++ [b])
        simp [hb] at h ⊢
        rw [h]
        cases bs with
        | nil => simp [hb]
        | cons b' bs => simp

/-- Every line ends with the delimiter and has it nowhere else. -/
theorem cutLines_form {bufSize requests : ℕ} {line content l : List Byte} (hline : delim ∉ line)
    (hl : l ∈ heap.cutLines delim bufSize requests line content) :
    ∃ body, l = body ++ [delim] ∧ delim ∉ body := by
  induction content generalizing bufSize requests line with
  | nil => simp [Heap.cutLines] at hl
  | cons b bs ih =>
    rw [Heap.cutLines] at hl
    cases hroom : heap.reserved bufSize requests line.length with
    | none => simp [hroom] at hl
    | some room =>
      simp only [hroom] at hl
      by_cases hb : b = delim
      · rw [if_pos hb, mem_cons] at hl
        rcases hl with rfl | hl
        · exact ⟨line, by rw [hb], hline⟩
        · exact ih (by simp) hl
      · rw [if_neg hb] at hl
        exact ih (by simp [hline, Ne.symm hb]) hl

theorem LineBuf.lt_newSize (bufSize : ℕ) : bufSize < LineBuf.newSize bufSize := by
  rw [LineBuf.newSize]
  split <;> omega

theorem LineBuf.le_iterate_newSize (bufSize k : ℕ) : bufSize ≤ LineBuf.newSize^[k] bufSize := by
  induction k generalizing bufSize with
  | zero => exact Nat.le_refl _
  | succ k ih =>
    exact Nat.le_trans (Nat.le_of_lt (lt_newSize bufSize)) (ih _)

/-- The buffer grows once for every size up to the longest line. -/
theorem hasRoom_iff {bufSize requests count : ℕ} {content : List Byte} (hcount : count < bufSize) :
    heap.HasRoom delim bufSize requests count content ↔
      ∀ k, LineBuf.newSize^[k] bufSize ≤ longestLine delim count content →
        heap.grants (requests + k) := by
  induction content generalizing bufSize requests count with
  | nil =>
    simp [Heap.HasRoom, longestLine]
    intro k hk
    have := LineBuf.le_iterate_newSize bufSize k
    omega
  | cons b bs ih =>
    rw [Heap.HasRoom, longestLine, Heap.reserved]
    have hnext : (if b = delim then 0 else count + 1) ≤ count + 1 := by
      split <;> omega
    by_cases hgrow : bufSize ≤ count + 1
    · rw [if_pos hgrow]
      have hlt := LineBuf.lt_newSize bufSize
      by_cases hgrant : heap.grants requests
      · simp [hgrant]
        rw [ih (by omega)]
        constructor
        · intro h k hk
          cases k with
          | zero => exact hgrant
          | succ k =>
            rw [iterate_succ_apply] at hk
            have := LineBuf.le_iterate_newSize (LineBuf.newSize bufSize) k
            have := h k (by omega)
            simpa [Nat.add_assoc, Nat.add_comm 1 k] using this
        · intro h k hk
          have := h (k + 1) (by rw [iterate_succ_apply]; omega)
          simpa [Nat.add_assoc, Nat.add_comm 1 k] using this
      · simp only [hgrant, Bool.false_eq_true, ↓reduceIte, false_iff]
        intro h
        exact hgrant (h 0 (by simp only [iterate_zero, id_eq]; omega))
    · rw [if_neg hgrow]
      simp only
      rw [ih (by omega)]
      have hiff (k : ℕ) : LineBuf.newSize^[k] bufSize ≤
          max (count + 1) (longestLine delim (if b = delim then 0 else count + 1) bs) ↔
            LineBuf.newSize^[k] bufSize ≤
              longestLine delim (if b = delim then 0 else count + 1) bs := by
        have := LineBuf.le_iterate_newSize bufSize k
        omega
      simp [hiff]

end Lines

/-! ### The calls on a regular file -/

/-- The stream is on a regular file and these bytes are still to be read. -/
def Stream.Feeds (s : Stream RegularFile) (content : List Byte) : Prop :=
  ∃ c, Over s c ∧ c.available = content

theorem Chunked.length_delivered_one (c : Chunked) (chunks : Chunks) :
    (c.delivered chunks 1).length = min 1 c.available.length := by
  have := chunks.pos c.reads
  exact length_delivered_of_full (by simp only [Full]; omega)

theorem Stream.Feeds.fgetc_nil {s : Stream RegularFile} (h : s.Feeds []) (chunks : Chunks) :
    ∃ s', ((RegularFile.reader chunks).fgetc).run s = (.ok EOF, s') := by
  obtain ⟨c, hover, hnil⟩ := h
  have hlen := c.length_delivered_one chunks
  have hval := (Reader.fgetc_sim (over_respects chunks) hover).1
  refine ⟨_, Prod.ext (hval.trans ?_) rfl⟩
  rw [Reader.fgetc, run_bind_of_ok (c.run_read chunks 1)]
  simp [hlen, hnil]

theorem Stream.Feeds.fgetc_cons {s : Stream RegularFile} {b : Byte} {bs : List Byte}
    (h : s.Feeds (b :: bs)) (chunks : Chunks) :
    ∃ s', ((RegularFile.reader chunks).fgetc).run s = (.ok b.toNat, s') ∧
      s'.Feeds bs := by
  obtain ⟨c, hover, hcons⟩ := h
  have hlen := c.length_delivered_one chunks
  have hone : c.delivered chunks 1 = [b] := by
    rw [c.delivered_eq_take chunks 1, hlen, hcons]
    simp
  have hnext : (c.next chunks 1).available = bs := by
    rw [c.available_next chunks 1, hone, hcons]
    rfl
  obtain ⟨hval, hstate⟩ := Reader.fgetc_sim (over_respects chunks) hover
  have hrun : ((Chunked.reader chunks).fgetc).run c = (.ok b.toNat, c.next chunks 1) := by
    rw [Reader.fgetc, run_bind_of_ok (c.run_read chunks 1), hone]
    rfl
  rw [hrun] at hval hstate
  exact ⟨_, Prod.ext hval rfl, c.next chunks 1, hstate, hnext⟩

namespace LineBuf

section Holding

variable {S : Type} {heap : Heap} {s : LineBuf S} {bufSize : ℕ} {line : List Byte}

/-- The buffer of this size starts with the line. -/
structure Holding (s : LineBuf S) (bufSize : ℕ) (line : List Byte) : Prop where
  size : s.size = some bufSize
  lt : line.length < bufSize
  buf : ∃ buf, s.line = some buf ∧ (List.range line.length).map buf = line

theorem run_allocate (h : heap.grants s.requests) (keep newSize : ℕ) :
    (allocate heap keep newSize).run s = (.ok true, s.moved heap keep newSize) := by
  simp [Prog.run, allocate, h]

theorem run_allocate_of_not (h : ¬ heap.grants s.requests) (keep newSize : ℕ) :
    (allocate heap keep newSize).run s = (.ok false, { s with requests := s.requests + 1 }) := by
  simp [Prog.run, allocate, h]

/-- Room for one more byte and the NUL. -/
theorem run_reserve (heap : Heap) (h : s.Holding bufSize line) :
    match heap.reserved bufSize s.requests line.length with
    | none => ∃ s', (reserve heap bufSize line.length).run s = (.ok none, s')
    | some (bufSize', requests') => ∃ s',
        (reserve heap bufSize line.length).run s = (.ok (some bufSize'), s') ∧
          s'.Holding bufSize' line ∧ line.length + 1 < bufSize' ∧ s'.requests = requests' ∧
            s'.io = s.io := by
  have hnew := lt_newSize bufSize
  have hlt := h.lt
  rw [Heap.reserved, reserve]
  by_cases hgrow : bufSize ≤ line.length + 1
  · rw [if_pos hgrow, if_pos hgrow]
    by_cases hgrant : heap.grants s.requests
    · rw [if_pos hgrant, run_bind_of_ok (run_allocate hgrant _ _)]
      obtain ⟨buf, hbuf, hline⟩ := h.buf
      refine ⟨_, rfl, ⟨by simp [moved, h.size], by omega, _, rfl, ?_⟩, by omega, rfl, rfl⟩
      refine Eq.trans (map_congr_left fun i hi => ?_) hline
      have hkept : i < bufSize := by
        rw [mem_range] at hi
        omega
      simp [hkept, hbuf]
    · rw [if_neg hgrant, run_bind_of_ok (run_allocate_of_not hgrant _ _)]
      exact ⟨_, rfl⟩
  · rw [if_neg hgrow, if_neg hgrow]
    exact ⟨s, rfl, h, by omega, rfl, rfl⟩

theorem run_store {i : ℕ} (hi : i < bufSize) (c : Byte) :
    (store bufSize i c).run s = (.ok (), s.put i c) := by
  rw [store, if_pos hi, run_modify]

/-- The byte behind the line becomes its last one. -/
theorem Holding.push (h : s.Holding bufSize line) (hlt : line.length + 1 < bufSize) (c : Byte) :
    (s.put line.length c).Holding bufSize (line ++ [c]) := by
  obtain ⟨buf, hbuf, hline⟩ := h.buf
  refine ⟨h.size, by simpa using hlt, update buf line.length c, by simp [put, hbuf], ?_⟩
  have hbelow : (List.range line.length).map (update buf line.length c) = line := by
    refine Eq.trans (map_congr_left fun i hi => ?_) hline
    rw [update_of_ne (Nat.ne_of_lt (mem_range.mp hi))]
  simp [range_succ, hbelow]

end Holding

/-- The bytes of the line, without the NUL. -/
def Line.bytes (l : Line) : List Byte := (List.range l.length).map l.buf

/-- The NUL is behind the line and inside the buffer. -/
def Line.Terminated (l : Line) : Prop := l.buf l.length = 0 ∧ l.length < l.size

section Loop

open RegularFile (reader)

variable {chunks : Chunks} {heap : Heap} {delim : Byte} {s : LineBuf (Stream RegularFile)}
  {bufSize : ℕ} {line : List Byte}

theorem run_fgetc {S : Type} {r : Reader S} {s : LineBuf S} {c : ℤ} {io : S}
    (h : r.fgetc.run s.io = (.ok c, io)) : (fgetc r).run s = (.ok c, { s with io }) := by
  rw [fgetc, run_zoom, h]

/-- At the end of the file the loop gives up. -/
theorem run_getdelimLoop_nil (chunks : Chunks) (heap : Heap) (hfeed : s.io.Feeds []) (delim : ℤ)
    (rounds bufSize count : ℕ) :
    ∃ s', (getdelimLoop (reader chunks) heap delim (rounds + 1) bufSize count).run s =
      (.ok (-1), s') := by
  obtain ⟨io, hget⟩ := hfeed.fgetc_nil chunks
  rw [getdelimLoop, run_bind_of_ok (run_fgetc hget)]
  exact ⟨_, rfl⟩

/-- One round with a byte to read. -/
theorem run_getdelimLoop_cons (chunks : Chunks) (heap : Heap) (delim : Byte) {b : Byte}
    {bs : List Byte} (hfeed : s.io.Feeds (b :: bs)) (hhold : s.Holding bufSize line) (rounds : ℕ) :
    match heap.reserved bufSize s.requests line.length with
    | none => ∃ s',
        (getdelimLoop (reader chunks) heap delim.toNat (rounds + 1) bufSize line.length).run s =
          (.ok (-1), s')
    | some (bufSize', requests') => ∃ s', s'.io.Feeds bs ∧ s'.Holding bufSize' (line ++ [b]) ∧
        s'.requests = requests' ∧
          (getdelimLoop (reader chunks) heap delim.toNat (rounds + 1) bufSize line.length).run s =
            if b = delim then
              (.ok (line.length + 1 : ℕ), s'.put (line.length + 1) 0)
            else
              (getdelimLoop (reader chunks) heap delim.toNat rounds bufSize'
                (line.length + 1)).run s' := by
  obtain ⟨io, hget, hrest⟩ := hfeed.fgetc_cons chunks
  have hEOF : (b.toNat : ℤ) ≠ EOF := by
    simp only [EOF]
    omega
  have hhold' : Holding { s with io } bufSize line := ⟨hhold.size, hhold.lt, hhold.buf⟩
  have hreserve := run_reserve heap hhold'
  rw [getdelimLoop, run_bind_of_ok (run_fgetc hget), if_neg hEOF]
  cases hroom : heap.reserved bufSize s.requests line.length with
  | none =>
    simp only [hroom] at hreserve ⊢
    obtain ⟨s', hrun⟩ := hreserve
    rw [run_bind_of_ok hrun]
    exact ⟨s', rfl⟩
  | some room =>
    simp only [hroom] at hreserve ⊢
    obtain ⟨s', hrun, hhold', hlt, hrequests, hio⟩ := hreserve
    refine ⟨_, ?_, hhold'.push hlt b, hrequests, ?_⟩
    · rw [← hio] at hrest
      exact hrest
    · have hbyte : BitVec.ofInt 8 (b.toNat : ℤ) = b := by simp
      have hdelim : (b.toNat : ℤ) = delim.toNat ↔ b = delim := by
        rw [Int.ofNat_inj, BitVec.toNat_inj]
      rw [run_bind_of_ok hrun]
      simp only [hbyte, hdelim]
      rw [run_bind_of_ok (run_store (by omega) b)]
      by_cases hb : b = delim
      · rw [if_pos hb, if_pos hb, run_bind_of_ok (run_store hlt 0), run_pure]
      · rw [if_neg hb, if_neg hb]

theorem run_getdelim_of_holding (h : s.Holding bufSize line) (delim : ℤ) (rounds : ℕ) :
    (getdelim (reader chunks) heap delim rounds).run s =
      (getdelimLoop (reader chunks) heap delim rounds bufSize 0).run s := by
  obtain ⟨buf, hbuf, -⟩ := h.buf
  rw [getdelim, run_bind, run_gets, hbuf, h.size]

theorem run_getdelim_of_null (hline : s.line = none) (hgrant : heap.grants s.requests) (delim : ℤ)
    (rounds : ℕ) :
    (getdelim (reader chunks) heap delim rounds).run s =
      (getdelimLoop (reader chunks) heap delim rounds 8 0).run (s.moved heap 0 8) := by
  rw [getdelim, run_bind, run_gets, hline]
  exact run_bind_of_ok (run_allocate hgrant 0 8)

theorem run_getdelim_of_refused (chunks : Chunks) (hline : s.line = none)
    (hgrant : ¬ heap.grants s.requests) (delim : ℤ) (rounds : ℕ) :
    ∃ s', (getdelim (reader chunks) heap delim rounds).run s = (.ok (-1), s') := by
  rw [getdelim, run_bind, run_gets, hline]
  exact ⟨_, run_bind_of_ok (run_allocate_of_not hgrant 0 8)⟩

theorem run_collect_of_ok {S : Type} {next : Prog (LineBuf S) Fault (List Line)} {s s' : LineBuf S}
    {lines : List Line} (h : next.run s = (.ok lines, s')) (n : ℕ) :
    (collect next n).run s = (.ok (s.seen n :: lines), s') := by
  rw [collect, if_neg (by omega), run_bind]
  simp [run_bind_of_ok h]

/-- The line that is seen after the loop has ended at the delimiter. -/
theorem Holding.terminated (h : s.Holding bufSize line) :
    ((s.put line.length 0).seen line.length).bytes = line ∧
      ((s.put line.length 0).seen line.length).Terminated := by
  obtain ⟨buf, hbuf, hline⟩ := h.buf
  constructor
  · refine Eq.trans (map_congr_left fun i hi => ?_) hline
    simp [seen, put, hbuf]
    exact update_of_ne (Nat.ne_of_lt (mem_range.mp hi)) _ _
  · simp [Line.Terminated, seen, put, hbuf, h.size, h.lt]

theorem Holding.emptied (h : s.Holding bufSize line) (i : ℕ) (c : Byte) :
    (s.put i c).Holding bufSize [] := by
  obtain ⟨buf, hbuf, -⟩ := h.buf
  exact ⟨h.size, Nat.lt_of_le_of_lt (Nat.zero_le _) h.lt, update buf i c,
    by simp [put, hbuf], rfl⟩

/-- The calls return the lines that the bytes are cut into. -/
theorem run_collect {content : List Byte} {rounds rounds' calls : ℕ}
    (hhold : s.Holding bufSize line) (hfeed : s.io.Feeds content)
    (hrounds : content.length < rounds) (hrounds' : content.length < rounds')
    (hcalls : content.length ≤ calls) :
    ∃ lines s',
      (getdelimLoop (reader chunks) heap delim.toNat rounds bufSize line.length >>=
        collect (getlines (reader chunks) heap delim.toNat rounds' calls)).run s = (.ok lines, s') ∧
      lines.map Line.bytes = heap.cutLines delim bufSize s.requests line content ∧
        ∀ l ∈ lines, l.Terminated := by
  induction content generalizing s bufSize line rounds calls with
  | nil =>
    obtain ⟨rounds, rfl⟩ := Nat.exists_eq_succ_of_ne_zero (Nat.ne_of_gt hrounds)
    obtain ⟨s', hrun⟩ := run_getdelimLoop_nil chunks heap hfeed delim.toNat rounds bufSize
      line.length
    refine ⟨[], s', ?_, rfl, by simp⟩
    rw [run_bind_of_ok hrun]
    rfl
  | cons b bs ih =>
    rw [length_cons] at hrounds hrounds' hcalls
    obtain ⟨rounds, rfl⟩ : ∃ n, rounds = n + 1 := ⟨rounds - 1, by omega⟩
    have hround := run_getdelimLoop_cons chunks heap delim hfeed hhold rounds
    rw [Heap.cutLines]
    cases hroom : heap.reserved bufSize s.requests line.length with
    | none =>
      simp only [hroom] at hround
      obtain ⟨s', hrun⟩ := hround
      refine ⟨[], s', ?_, rfl, by simp⟩
      rw [run_bind_of_ok hrun]
      rfl
    | some room =>
      obtain ⟨bufSize', requests'⟩ := room
      simp only [hroom] at hround
      obtain ⟨s', hfeed', hhold', hrequests, hrun⟩ := hround
      subst hrequests
      by_cases hb : b = delim
      · simp only [if_pos hb] at hrun ⊢
        obtain ⟨calls, rfl⟩ : ∃ n, calls = n + 1 := ⟨calls - 1, by omega⟩
        obtain ⟨hbytes, hterm⟩ := hhold'.terminated
        have hempty := hhold'.emptied (line.length + 1) 0
        obtain ⟨lines, s'', hlines, hcut, hterms⟩ := ih hempty hfeed'
          (Nat.lt_of_succ_lt hrounds') (Nat.lt_of_succ_lt hrounds')
          (Nat.le_of_succ_le_succ hcalls)
        have hnext : (getlines (reader chunks) heap delim.toNat rounds' (calls + 1)).run
            (s'.put (line.length + 1) 0) = (.ok lines, s'') := by
          rw [getlines, run_bind, run_getdelim_of_holding hempty]
          exact hlines
        rw [run_bind_of_ok hrun, run_collect_of_ok hnext]
        rw [length_append] at hbytes hterm
        refine ⟨_, s'', rfl, ?_, ?_⟩
        · rw [map_cons, hcut]
          exact congrArg (· :: _) hbytes
        · intro l hl
          rcases mem_cons.mp hl with rfl | hl
          · exact hterm
          · exact hterms l hl
      · simp only [if_neg hb] at hrun ⊢
        have hlen : (line ++ [b]).length = line.length + 1 := by simp
        rw [run_bind, hrun, ← hlen]
        exact ih hhold' hfeed' (by omega) (by omega) (by omega)

end Loop

end LineBuf

/-! ### The lines of a file -/

/-- The buffer the caller starts with. -/
inductive InitialBuffer
  | null (size : ℕ)
  | block (buf : ℕ → Byte) (size : ℕ) (pos : 0 < size)

/-- The caller's variables on a file that was just opened. -/
def InitialBuffer.start (initial : InitialBuffer) (fd : ℤ) (content : List Byte) :
    LineBuf (Stream RegularFile) :=
  let io : Stream RegularFile := ⟨createFdFile fd, ⟨content, 0, 0⟩, 0⟩
  match initial with
  | .null size => ⟨io, none, some size, 0, 0⟩
  | .block buf size _ => ⟨io, some buf, some size, 0, 0⟩

/-- Every allocation that the longest line needs is granted. -/
def InitialBuffer.Grants (heap : Heap) (delim : Byte) (content : List Byte) :
    InitialBuffer → Prop
  | .null _ => heap.grants 0 ∧
      ∀ k, LineBuf.newSize^[k] 8 ≤ longestLine delim 0 content → heap.grants (1 + k)
  | .block _ size _ =>
    ∀ k, LineBuf.newSize^[k] size ≤ longestLine delim 0 content → heap.grants (0 + k)

/-- The calls return the lines of the file, each with its NUL inside the
buffer. -/
structure Reassembles (delim : Byte) (content : List Byte) (lines : List LineBuf.Line) : Prop where
  concat : (lines.map LineBuf.Line.bytes).flatten = content
  terminated : ∀ l ∈ lines, l.Terminated
  form : ∀ l ∈ lines.dropLast, ∃ body, l.bytes = body ++ [delim] ∧ delim ∉ body

section Law

open RegularFile (reader)

variable (chunks : Chunks) (heap : Heap) (delim : Byte) (initial : InitialBuffer) (fd : ℤ)
  (content : List Byte)

/-- With enough rounds, the calls up to the first -1 take the file apart. -/
def GetlineLaw : Prop :=
  ∀ rounds calls, content.length < rounds → content.length < calls → ∃ lines,
    ((LineBuf.getlines (reader chunks) heap delim.toNat rounds calls).run
      (initial.start fd content)).1 = .ok lines ∧ Reassembles delim content lines

/-- The lines that come out of the first call and those after it. -/
def InitialBuffer.cut : List (List Byte) :=
  match initial with
  | .null _ => if heap.grants 0 then heap.cutLines delim 8 1 [] content else []
  | .block _ size _ => heap.cutLines delim size 0 [] content

variable {initial}

theorem InitialBuffer.feeds : (initial.start fd content).io.Feeds content := by
  cases initial with
  | null size | block buf size pos =>
    exact ⟨⟨[], content, 0⟩, ⟨rfl, File.holds_nil rfl rfl, rfl, rfl⟩, rfl⟩

variable {content}

theorem run_getlines {rounds calls : ℕ} (hrounds : content.length < rounds)
    (hcalls : content.length < calls) :
    ∃ lines s', (LineBuf.getlines (reader chunks) heap delim.toNat rounds calls).run
        (initial.start fd content) = (.ok lines, s') ∧
      lines.map LineBuf.Line.bytes = initial.cut heap delim content ∧
        ∀ l ∈ lines, l.Terminated := by
  obtain ⟨calls, rfl⟩ : ∃ n, calls = n + 1 := ⟨calls - 1, by omega⟩
  have hfeeds := initial.feeds fd content
  rw [LineBuf.getlines]
  cases initial with
  | null size =>
    rw [InitialBuffer.cut]
    by_cases hgrant : heap.grants 0
    · rw [run_bind, LineBuf.run_getdelim_of_null rfl hgrant, if_pos hgrant]
      have hhold : (((InitialBuffer.null size).start fd content).moved heap 0 8).Holding 8 [] :=
        ⟨rfl, by decide, _, rfl, rfl⟩
      exact LineBuf.run_collect hhold hfeeds hrounds hrounds (Nat.le_of_lt_succ hcalls)
    · obtain ⟨s', hrun⟩ := LineBuf.run_getdelim_of_refused chunks
        (s := (InitialBuffer.null size).start fd content) rfl hgrant delim.toNat rounds
      rw [run_bind_of_ok hrun, if_neg hgrant]
      exact ⟨[], s', rfl, rfl, by simp⟩
  | block buf size pos =>
    have hhold : ((InitialBuffer.block buf size pos).start fd content).Holding size [] :=
      ⟨rfl, pos, buf, rfl, rfl⟩
    exact LineBuf.run_collect hhold hfeeds hrounds hrounds (Nat.le_of_lt_succ hcalls)

variable {heap delim}

/-- Nothing is lost exactly when the last line is terminated and the
allocations are granted. -/
theorem flatten_cut_iff :
    (initial.cut heap delim content).flatten = content ↔
      content = [] ∨ content.getLast? = some delim ∧ initial.Grants heap delim content := by
  cases initial with
  | null size =>
    have h := flatten_cutLines_iff heap delim 8 1 [] content
    rw [hasRoom_iff (by decide)] at h
    by_cases hgrant : heap.grants 0
    · simpa [InitialBuffer.cut, InitialBuffer.Grants, hgrant] using h
    · simp only [InitialBuffer.cut, InitialBuffer.Grants, hgrant, Bool.false_eq_true, ↓reduceIte,
        flatten_nil, false_and, and_false, or_false]
      exact eq_comm
  | block buf size pos =>
    have h := flatten_cutLines_iff heap delim size 0 [] content
    rw [length_nil, hasRoom_iff pos] at h
    simpa [InitialBuffer.cut, InitialBuffer.Grants] using h

theorem InitialBuffer.cut_form {l : List Byte} (hl : l ∈ initial.cut heap delim content) :
    ∃ body, l = body ++ [delim] ∧ delim ∉ body := by
  cases initial with
  | null size =>
    rw [InitialBuffer.cut] at hl
    split at hl
    · exact cutLines_form (not_mem_nil) hl
    · exact absurd hl not_mem_nil
  | block buf size pos => exact cutLines_form not_mem_nil hl

end Law

/-- The lines put together are the file exactly when it is empty, or its last
line is terminated and the allocations for the longest line are granted. -/
theorem getlineLaw_iff (chunks : Chunks) (heap : Heap) (delim : Byte) (initial : InitialBuffer)
    (fd : ℤ) (content : List Byte) :
    GetlineLaw chunks heap delim initial fd content ↔
      content = [] ∨ content.getLast? = some delim ∧ initial.Grants heap delim content := by
  rw [← flatten_cut_iff]
  constructor
  · intro h
    have hlen := Nat.lt_succ_self content.length
    obtain ⟨lines, hrun, hlines⟩ := h _ _ hlen hlen
    obtain ⟨lines', s', hrun', hcut, -⟩ := run_getlines chunks heap delim fd hlen hlen
    rw [hrun'] at hrun
    cases hrun
    rw [← hcut, hlines.concat]
  · intro h rounds calls hrounds hcalls
    obtain ⟨lines, s', hrun, hcut, hterm⟩ := run_getlines chunks heap delim fd hrounds hcalls
    refine ⟨lines, by rw [hrun], by rw [hcut, h], hterm, ?_⟩
    intro l hl
    apply InitialBuffer.cut_form
    rw [← hcut]
    exact mem_map_of_mem (dropLast_subset lines hl)

/-- A heap that grants everything. -/
def Heap.unlimited : Heap := ⟨fun _ => true, fun _ _ => 0⟩

/-- A file whose only line is not terminated has no lines. -/
theorem unterminated_not_getlineLaw :
    ¬ GetlineLaw .bytewise .unlimited '\n' (.null 0) 3 ['a', 'b'] := by
  intro h
  obtain ⟨lines, hrun, hlines⟩ := h 3 3 (by decide) (by decide)
  cases hrun
  exact absurd hlines.concat (by decide)

end Hzlibc.Stdio
