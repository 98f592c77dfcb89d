import Hzlibc.Stdio.Pushback

/-!
Reading from a regular file in chunks.

Over a regular file a stream is what was given back followed by the rest of the
content, and a read delivers bytes from the front of that. `Chunked` is this
view, and `Over` connects it with the streams of the code. `fread` asks for one
item at a time and gives up at the first read that is short, wherever the file
ends; it delivers what it should exactly when no read that can be filled is
answered with less.
-/

namespace Hzlibc.Stdio

open Effect List Nat

/-! ### The view of a stream as bytes -/

structure Chunked where
  pushed : List Byte
  rest : List Byte
  reads : ℕ

namespace Chunked

variable (chunks : Chunks) (c : Chunked) (size : ℕ)

/-- The bytes still to be read. -/
def available : List Byte := c.pushed ++ c.rest

/-- What the kernel contributes to a read. -/
def answer : List Byte := c.rest.take (min (size - c.pushed.length) (chunks.size c.reads))

def delivered : List Byte := c.pushed.take size ++ c.answer chunks size

/-- The bytes left by a read. -/
def next : Chunked where
  pushed := c.pushed.drop size
  rest := c.rest.drop (c.answer chunks size).length
  reads := c.reads + 1

def read (size : ℕ) : Prog Chunked Fault Got := fun c =>
  (.ok ⟨(c.delivered chunks size).length, c.delivered chunks size⟩, c.next chunks size)

def ungetc (ch : ℤ) : Prog Chunked Fault ℤ := do
  let pushed ← .gets fun c => c.pushed
  if (pushed.length : ℤ) = ungetcCapacity then pure EOF
  else
    .modify fun c => { c with pushed := BitVec.ofInt 8 ch :: c.pushed }
    pure ch

def reader : Reader Chunked := ⟨read chunks, ungetc⟩

@[simp] theorem run_read : ((reader chunks).read size).run c =
    (.ok ⟨(c.delivered chunks size).length, c.delivered chunks size⟩, c.next chunks size) := rfl

/-- A read takes from the front. -/
theorem delivered_append_available :
    c.delivered chunks size ++ (c.next chunks size).available = c.available := by
  have hrest : c.answer chunks size ++ c.rest.drop (c.answer chunks size).length = c.rest :=
    prefix_iff_eq_append.mp (List.take_prefix _ _)
  rcases Nat.le_total size c.pushed.length with hle | hle
  · have hnone : c.answer chunks size = [] := by
      rw [answer, Nat.sub_eq_zero_of_le hle, Nat.zero_min, take_zero]
    simp [delivered, next, available, hnone, ← append_assoc]
  · have hall : c.pushed.drop size = [] := drop_eq_nil_of_le hle
    simp [delivered, next, available, hall, take_of_length_le hle, hrest]

theorem delivered_eq_take :
    c.delivered chunks size = c.available.take (c.delivered chunks size).length := by
  rw [← c.delivered_append_available chunks size, take_left]

theorem available_next :
    (c.next chunks size).available = c.available.drop (c.delivered chunks size).length := by
  rw [← c.delivered_append_available chunks size, drop_left]

theorem length_delivered :
    (c.delivered chunks size).length =
      min size c.pushed.length +
        min (min (size - c.pushed.length) (chunks.size c.reads)) c.rest.length := by
  rw [delivered, answer, length_append, length_take, length_take]

/-- The read gets all it asks for that is there. -/
def Full : Prop := min (size - c.pushed.length) c.rest.length ≤ chunks.size c.reads

variable {chunks c size}

theorem length_delivered_of_full (h : c.Full chunks size) :
    (c.delivered chunks size).length = min size c.available.length := by
  rw [length_delivered, available, length_append]
  simp only [Full] at h
  omega

theorem length_delivered_of_not_full (h : ¬ c.Full chunks size) :
    (c.delivered chunks size).length < min size c.available.length := by
  rw [length_delivered, available, length_append]
  simp only [Full] at h
  omega

/-! ### Items -/

/-- No read of an item is answered with less than what it asks for and is
there. -/
def Unsplit (chunks : Chunks) (size count : ℕ) (c : Chunked) : Prop :=
  ∀ i < count,
    min (size - (c.pushed.length - i * size)) (c.rest.length - (i * size - c.pushed.length)) ≤
      chunks.size (c.reads + i)

instance instDecidableUnsplit (size count : ℕ) : Decidable (c.Unsplit chunks size count) :=
  decidableBallLT count _

variable {left : ℕ}

theorem unsplit_succ_iff (h : c.Full chunks size) :
    c.Unsplit chunks size (left + 1) ↔ (c.next chunks size).Unsplit chunks size left := by
  have hanswer : (c.answer chunks size).length = min (size - c.pushed.length) c.rest.length := by
    simp only [Full] at h
    rw [answer, length_take]
    omega
  have hstep (i : ℕ) :
      min (size - (c.pushed.length - (i + 1) * size))
          (c.rest.length - ((i + 1) * size - c.pushed.length)) =
        min (size - ((c.next chunks size).pushed.length - i * size))
          ((c.next chunks size).rest.length -
            (i * size - (c.next chunks size).pushed.length)) := by
    have hpushed : c.pushed.length - (i * size + size) = c.pushed.length - size - i * size := by
      omega
    have hrest : c.rest.length - (i * size + size - c.pushed.length) =
        c.rest.length - min (size - c.pushed.length) c.rest.length -
          (i * size - (c.pushed.length - size)) := by
      omega
    simp [next, hanswer, succ_mul, hpushed, hrest]
  constructor
  · intro hall i hi
    have := hall (i + 1) (by omega)
    rw [hstep] at this
    simpa [next, add_assoc, add_comm 1 i] using this
  · intro hall i hi
    cases i with
    | zero => simpa [Full] using h
    | succ i =>
      rw [hstep]
      simpa [next, add_assoc, add_comm 1 i] using hall i (by omega)

theorem Unsplit.full (h : c.Unsplit chunks size (left + 1)) : c.Full chunks size := by
  simpa [Full] using h 0 (succ_pos left)

/-- The number of bytes that `count` items should get. -/
def wanted (size count : ℕ) (c : Chunked) : ℕ := min (size * count) c.available.length

theorem run_freadLoop_succ (left : ℕ) (items : Items) :
    ((reader chunks).freadLoop size (left + 1) items).run c =
      if (c.delivered chunks size).length < size then
        (.ok ⟨items.count, items.data ++ c.delivered chunks size⟩, c.next chunks size)
      else
        ((reader chunks).freadLoop size left
          ⟨items.count + 1, items.data ++ c.delivered chunks size⟩).run (c.next chunks size) := by
  rw [Reader.freadLoop, Prog.run_bind_of_ok (c.run_read chunks size)]
  simp [show ¬ ((c.delivered chunks size).length : ℤ) < 0 by omega]

theorem wanted_succ (h : (c.delivered chunks size).length = size) :
    c.wanted size (left + 1) = size + (c.next chunks size).wanted size left := by
  have hlen := congrArg List.length (c.delivered_append_available chunks size)
  rw [length_append] at hlen
  rw [wanted, wanted, mul_succ]
  omega

theorem freadLoop_of_unsplit (hsize : 0 < size) (h : c.Unsplit chunks size left) (items : Items) :
    ∃ c', ((reader chunks).freadLoop size left items).run c =
        (.ok ⟨items.count + c.wanted size left / size,
          items.data ++ c.available.take (c.wanted size left)⟩, c') ∧
      c'.available = c.available.drop (c.wanted size left) := by
  induction left generalizing c items with
  | zero => exact ⟨c, by simp [Reader.freadLoop, wanted], by simp [wanted]⟩
  | succ left ih =>
    have hfull := h.full
    have hlen := length_delivered_of_full hfull
    rw [run_freadLoop_succ]
    by_cases hshort : (c.delivered chunks size).length < size
    · have hwanted : c.wanted size (left + 1) = (c.delivered chunks size).length := by
        have : size ≤ size * (left + 1) := Nat.le_mul_of_pos_right size (Nat.succ_pos left)
        rw [wanted]
        omega
      refine ⟨_, ?_, hwanted ▸ c.available_next chunks size⟩
      rw [if_pos hshort, hwanted, div_eq_of_lt hshort, ← delivered_eq_take, add_zero]
    · have hexact : (c.delivered chunks size).length = size := by omega
      obtain ⟨c', hrun, hrest⟩ := ih ((unsplit_succ_iff hfull).mp h)
        ⟨items.count + 1, items.data ++ c.delivered chunks size⟩
      have htake := c.delivered_eq_take chunks size
      have hnext := c.available_next chunks size
      rw [hexact] at htake hnext
      refine ⟨c', ?_, ?_⟩
      · rw [if_neg hshort, hrun, wanted_succ hexact, take_add, ← htake, ← hnext,
          add_div_left _ hsize]
        simp [add_assoc, add_comm 1]
      · rw [hrest, hnext, wanted_succ hexact, drop_drop]

/-- A read that is split ends the loop before everything is delivered. -/
theorem freadLoop_of_not_unsplit (h : ¬ c.Unsplit chunks size left) (items : Items) :
    ∃ count data c', ((reader chunks).freadLoop size left items).run c =
        (.ok ⟨count, items.data ++ data⟩, c') ∧ data.length < c.wanted size left := by
  induction left generalizing c items with
  | zero => exact absurd (fun i hi => absurd hi (not_lt_zero i)) h
  | succ left ih =>
    rw [run_freadLoop_succ]
    by_cases hfull : c.Full chunks size
    · have hnext : ¬ (c.next chunks size).Unsplit chunks size left :=
        fun hall => h ((unsplit_succ_iff hfull).mpr hall)
      have hlen := length_delivered_of_full hfull
      -- a short read that was filled is at the end of the file
      have hshort : ¬ (c.delivered chunks size).length < size := by
        intro hshort
        have hall : (c.next chunks size).available = [] := by
          rw [available_next]
          exact drop_eq_nil_of_le (by omega)
        exact hnext fun i _ => by simp [(append_eq_nil_iff.mp hall).2]
      have hexact : (c.delivered chunks size).length = size := by omega
      obtain ⟨count, data, c', hrun, hdata⟩ := ih hnext
        ⟨items.count + 1, items.data ++ c.delivered chunks size⟩
      refine ⟨count, c.delivered chunks size ++ data, c', ?_, ?_⟩
      · rw [if_neg hshort, hrun, append_assoc]
      · rw [wanted_succ hexact, length_append]
        omega
    · have hlen := length_delivered_of_not_full hfull
      have : size ≤ size * (left + 1) := Nat.le_mul_of_pos_right size (Nat.succ_pos left)
      refine ⟨items.count, c.delivered chunks size, _, if_pos (by omega), ?_⟩
      rw [wanted]
      omega

end Chunked

/-! ### The streams of the code -/

/-- The stream over a regular file has these bytes in front of it. -/
structure Over (s : Stream RegularFile) (c : Chunked) : Prop where
  read : s.file.read = .fdFileRead
  pushed : s.file.Holds c.pushed
  rest : s.kernel.rest = c.rest
  reads : s.kernel.reads = c.reads

section Over

variable {chunks : Chunks}

theorem over_read_sim (size : ℕ) :
    Prog.Sim Over (Stream.read (RegularFile.kernel chunks) size) (Chunked.read chunks size) := by
  intro s c h
  obtain ⟨f, hf, hholds, hbare⟩ := h.pushed.takeUngetc size
  have hread : f.read = .fdFileRead := (congrArg File.read hbare).trans h.read
  have hanswer : s.kernel.answer chunks (size - (c.pushed.take size).length) =
      c.answer chunks size := by
    rw [RegularFile.answer, h.rest, h.reads, length_take]
    congr 2
    omega
  have hk : (RegularFile.kernel chunks).sysRead s.kernel f.fd
      (size - (c.pushed.take size).length) =
        (.ok (c.answer chunks size),
          (s.kernel.sysRead chunks (size - (c.pushed.take size).length)).2) := by
    rw [← hanswer]
    rfl
  rw [Stream.run_read_fd h.read, Stream.run_fdFileRead hf, hk]
  refine ⟨?_, hread, hholds.of_eq rfl rfl rfl, ?_, ?_⟩
  · simp only [Chunked.read, Prog.run, Chunked.delivered, length_append]
    congr 2
    omega
  · simp only [RegularFile.sysRead, RegularFile.rest, Chunked.read, Chunked.next, Prog.run,
      hanswer, ← h.rest, drop_drop]
  · exact congrArg succ h.reads

theorem over_ungetc_sim (ch : ℤ) : Prog.Sim Over (Stream.ungetc ch) (Chunked.ungetc ch) := by
  intro s c h
  rw [run_ungetc_of_holds h.pushed]
  simp [Chunked.ungetc]
  by_cases hfull : (c.pushed.length : ℤ) = ungetcCapacity
  · rw [if_pos hfull, if_pos hfull]
    exact ⟨rfl, h⟩
  · rw [if_neg hfull, if_neg hfull]
    exact ⟨rfl, h.read, h.pushed.push (h.pushed.size_eq ▸ hfull) _, h.rest, h.reads⟩

variable (chunks) in
theorem over_respects : (RegularFile.reader chunks).Respects Over (Chunked.reader chunks) :=
  ⟨over_read_sim, over_ungetc_sim⟩

/-- What a stream over a regular file has in front of it. -/
def Stream.chunked (s : Stream RegularFile) : Chunked :=
  ⟨s.file.pushedBack, s.kernel.rest, s.kernel.reads⟩

/-- The stream reads through the descriptor and what was given back is a stack. -/
structure Stream.Readable (s : Stream RegularFile) : Prop where
  read : s.file.read = .fdFileRead
  pushed : s.file.Holds s.file.pushedBack

theorem Stream.Readable.over {s : Stream RegularFile} (h : s.Readable) : Over s s.chunked :=
  ⟨h.read, h.pushed, rfl, rfl⟩

theorem readMany_sim {S T : Type} {R : S → T → Prop} {r : Reader S} {r' : Reader T}
    (h : r.Respects R r') (sizes : List ℕ) : Prog.Sim R (r.readMany sizes) (r'.readMany sizes) := by
  induction sizes with
  | nil => exact .pure []
  | cons size sizes ih => exact (h.read size).bind fun got => ih.bind fun later => .pure _

variable (chunks) in
theorem Chunked.run_readMany (c : Chunked) (sizes : List ℕ) :
    ∃ later c', ((Chunked.reader chunks).readMany sizes).run c = (.ok later, c') ∧
      later ++ c'.available = c.available := by
  induction sizes generalizing c with
  | nil => exact ⟨[], c, rfl, rfl⟩
  | cons size sizes ih =>
    obtain ⟨later, c', hrun, happend⟩ := ih (c.next chunks size)
    refine ⟨c.delivered chunks size ++ later, c', ?_, ?_⟩
    · rw [Reader.readMany, Prog.run_bind_of_ok (c.run_read chunks size),
        Prog.run_bind_of_ok hrun, Prog.run_pure]
    · rw [append_assoc, happend, delivered_append_available]

/-- `fread` delivers the bytes in front of the stream, as many as fit, and the
reads after it continue there. -/
structure FreadLaw (chunks : Chunks) (size count : ℕ) (s : Stream RegularFile) : Prop where
  delivers :
    (((RegularFile.reader chunks).fread size count).run s).1 =
      .ok ⟨s.chunked.wanted size count / size,
        s.chunked.available.take (s.chunked.wanted size count)⟩
  continues : ∀ sizes, ∃ later,
    (((RegularFile.reader chunks).readMany sizes).run
      (((RegularFile.reader chunks).fread size count).run s).2).1 = .ok later ∧
      later <+: s.chunked.available.drop (s.chunked.wanted size count)

/-- `fread` does not depend on how the kernel splits the content exactly when
no read of an item is split. -/
theorem freadLaw_iff {s : Stream RegularFile} (h : s.Readable) {size count : ℕ}
    (hsize : 0 < size) (hcount : 0 < count) :
    FreadLaw chunks size count s ↔ s.chunked.Unsplit chunks size count := by
  have hloop {S : Type} (r : Reader S) : r.fread size count = r.freadLoop size count ⟨0, []⟩ := by
    rw [Reader.fread, if_neg (by omega)]
  obtain ⟨hval, hstate⟩ := Reader.fread_sim (over_respects chunks) size count h.over
  constructor
  · intro hlaw
    by_contra hsplit
    obtain ⟨done, data, c', hrun, hdata⟩ := Chunked.freadLoop_of_not_unsplit hsplit ⟨0, []⟩
    have hsame := hval.symm.trans hlaw.delivers
    rw [hloop, hrun] at hsame
    simp at hsame
    have hlen := congrArg List.length hsame.2
    rw [length_take] at hlen
    simp only [Chunked.wanted] at hdata hlen
    omega
  · intro hunsplit
    obtain ⟨c', hrun, hrest⟩ := Chunked.freadLoop_of_unsplit hsize hunsplit ⟨0, []⟩
    rw [hloop (Chunked.reader chunks), hrun] at hval hstate
    constructor
    case delivers => simpa using hval
    case continues =>
      intro sizes
      obtain ⟨later, c'', hlater, happend⟩ := c'.run_readMany chunks sizes
      refine ⟨later, ?_, c''.available, happend.trans hrest⟩
      rw [(readMany_sim (over_respects chunks) sizes hstate).1, hlater]

end Over

/-- A stream over four bytes with one byte given back. -/
def Stream.fourBytes : Stream RegularFile :=
  ((Stream.ungetc 120).run ⟨createFdFile 3, ⟨['a', 'b', 'c', 'd'], 0, 0⟩, 0⟩).2

/-- An item of four bytes of which the kernel gives one is not delivered. -/
theorem bytewise_not_freadLaw : ¬ FreadLaw .bytewise 4 1 .fourBytes := by
  intro h
  exact absurd h.delivers (by decide)

theorem bytewise_freadLaw :
    Stream.fourBytes.Readable ∧ (0 < 1 ∧ 0 < 3) ∧ FreadLaw .bytewise 1 3 .fourBytes := by
  have hreadable : Stream.fourBytes.Readable := ⟨rfl, rfl, by decide, by decide, rfl⟩
  exact ⟨hreadable, by decide, (freadLaw_iff hreadable one_pos (by decide)).mpr (by decide)⟩

end Hzlibc.Stdio
