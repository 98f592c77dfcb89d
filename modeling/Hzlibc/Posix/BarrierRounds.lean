import Hzlibc.Posix.Barrier
import Mathlib.Data.Set.Card
import Mathlib.Order.Interval.Finset.Nat

/-!
The rounds of a barrier.

With a count of `n` the round of ticket `k` ought to be `k / n`. This is so in
the runs in which no call counts itself into a round that is being closed, or
into a later round than the one whose `sequence` it has loaded. Nothing in the
code enforces either, and the last section breaks the second.
-/

namespace Hzlibc.Posix.Barrier

open Concurrency Function Nat

variable {ι : Type*}

/-! ### Counting tickets -/

section Tickets

variable {n k : ℕ}

/-- The ticket after `k` stays in the round of `k` unless `k` is its last. -/
theorem succ_div_of_not_dvd (h : ¬ n ∣ k + 1) : (k + 1) / n = k / n := by
  simp [Nat.succ_div, h]

theorem succ_div_of_dvd (h : n ∣ k + 1) : (k + 1) / n = k / n + 1 := by
  simp [Nat.succ_div, h]

theorem succ_mod_of_not_dvd (h : ¬ n ∣ k + 1) : (k + 1) % n = k % n + 1 := by
  have hk := div_add_mod k n
  have hk' := div_add_mod (k + 1) n
  rw [succ_div_of_not_dvd h] at hk'
  omega

theorem mod_succ_of_dvd (h : n ∣ k + 1) : k % n + 1 = n := by
  have hk := Nat.div_add_mod k n
  have hk' := Nat.mul_div_cancel' h
  rw [succ_div_of_dvd h, Nat.mul_add] at hk'
  omega

/-- The test for the last arrival of a round. -/
theorem succ_eq_count_iff {waiting count : BitVec 32} (hn : 0 < n) (hcount : count.toNat = n)
    (hw : waiting.toNat = k % n) : waiting + 1 = count ↔ n ∣ k + 1 := by
  have hlt := mod_lt k hn
  have hsucc : (waiting + 1).toNat = k % n + 1 := by
    have hone : (1 : BitVec 32).toNat = 1 := rfl
    rw [BitVec.toNat_add, hw, hone, mod_eq_of_lt (by omega)]
  constructor
  · intro h
    by_contra hdvd
    have hmod := succ_mod_of_not_dvd hdvd
    have hlt' := mod_lt (k + 1) hn
    rw [h] at hsucc
    omega
  · intro h
    apply BitVec.eq_of_toNat_eq
    rw [hsucc, hcount, mod_succ_of_dvd h]

end Tickets

/-! ### The rounds -/

/-- The thread is closing a round: `waiting` is full and not reset yet. -/
def Pc.closing : Pc → Prop
  | .bumpSequence _ | .resetWaiting _ => True
  | _ => False

/-- The phases of a barrier for `n` threads. A round is open, or one thread is
closing it. -/
inductive Phase (n : ℕ) (c : Conf ι (Shared ι) Pc) : Prop
  | opened (hno : ∀ t, ¬ (c.locals t).closing)
      (hw : c.shared.waiting.toNat = c.shared.arrivals % n)
      (hq : c.shared.sequence.toNat = c.shared.arrivals / n)
  | bumping (u k) (hu : c.locals u = .bumpSequence k)
      (hno : ∀ t, t ≠ u → ¬ (c.locals t).closing) (hw : c.shared.waiting = c.shared.count)
      (hdvd : n ∣ c.shared.arrivals)
      (hq : c.shared.sequence.toNat + 1 = c.shared.arrivals / n)
  | resetting (u k) (hu : c.locals u = .resetWaiting k)
      (hno : ∀ t, t ≠ u → ¬ (c.locals t).closing) (hw : c.shared.waiting = c.shared.count)
      (hdvd : n ∣ c.shared.arrivals)
      (hq : c.shared.sequence.toNat = c.shared.arrivals / n)

/-- What the pc of a thread says about its ticket when `sequence` is `q`: a
waiter holds the number of its own round, and a thread on its way out has seen
its round closed. -/
def Pc.Sound (n q : ℕ) : Pc → Prop
  | .bumpSequence k => n ∣ k + 1 ∧ k / n ≤ q
  | .resetWaiting k | .wakeSequence k => n ∣ k + 1 ∧ k / n < q
  | .futex w k | .asleep w k | .reload w k => ¬ n ∣ k + 1 ∧ w.toNat = k / n ∧ k / n ≤ q
  | .leaveSub k r | .leaveWake k r => k / n < q ∧ (r = .serialThread ↔ n ∣ k + 1)
  | _ => True

variable {pc : Pc} {q : ℕ}

theorem Pc.Sound.mono {n q' : ℕ} (h : pc.Sound n q) (hq : q ≤ q') : pc.Sound n q' := by
  cases pc with
  | bumpSequence k => exact ⟨h.1, h.2.trans hq⟩
  | resetWaiting k | wakeSequence k => exact ⟨h.1, h.2.trans_le hq⟩
  | leaveSub k r | leaveWake k r => exact ⟨h.1.trans_le hq, h.2⟩
  | futex w k | asleep w k | reload w k => exact ⟨h.1, h.2.1, h.2.2.trans hq⟩
  | _ => trivial

/-- The sequence number counts the rounds that are complete, or one less. -/
theorem Phase.sequence_le {n : ℕ} {c : Conf ι (Shared ι) Pc} (h : Phase n c) :
    c.shared.sequence.toNat ≤ c.shared.arrivals / n := by
  cases h with
  | opened _ _ hq | bumping _ _ _ _ _ _ hq | resetting _ _ _ _ _ _ hq => omega

/-- An increment of `waiting` that the barrier is ready for: the round before
is closed, and a call that will wait has loaded the current sequence number. -/
def Joins (t : ι) (a : Act Call) (c : Conf ι (Shared ι) Pc) : Prop :=
  match c.locals t with
  | .exchange q e => a = .run → c.shared.waiting = e →
      c.shared.waiting ≠ c.shared.count ∧
        (c.shared.waiting + 1 = c.shared.count ∨ q = c.shared.sequence)
  | _ => True

instance (t : ι) (a : Act Call) (c : Conf ι (Shared ι) Pc) : Decidable (Joins t a c) := by
  unfold Joins
  split <;> infer_instance

theorem Phase.opened_of_ne {n : ℕ} {c : Conf ι (Shared ι) Pc} (h : Phase n c)
    (hne : c.shared.waiting ≠ c.shared.count) :
    (∀ t, ¬ (c.locals t).closing) ∧ c.shared.waiting.toNat = c.shared.arrivals % n ∧
      c.shared.sequence.toNat = c.shared.arrivals / n := by
  cases h with
  | opened hno hw hq => exact ⟨hno, hw, hq⟩
  | bumping _ _ _ _ hw | resetting _ _ _ _ hw => exact absurd hw hne

theorem Joins.opened {n : ℕ} {t : ι} {a : Act Call} {c : Conf ι (Shared ι) Pc} {q e : BitVec 32}
    (h : Joins t a c) (hphase : Phase n c) (hpc : c.locals t = .exchange q e) (ha : a = .run)
    (hw : c.shared.waiting = e) :
    (∀ u, ¬ (c.locals u).closing) ∧ e.toNat = c.shared.arrivals % n ∧
      c.shared.sequence.toNat = c.shared.arrivals / n ∧
        (e + 1 = c.shared.count ∨ q = c.shared.sequence) := by
  simp only [Joins, hpc] at h
  obtain ⟨hne, hq⟩ := h ha hw
  obtain ⟨hno, hw₀, hq₀⟩ := hphase.opened_of_ne hne
  rw [hw] at hq hw₀
  exact ⟨hno, hw₀, hq₀, hq⟩

theorem joins_of_ticket {t : ι} {a : Act Call} {c : Conf ι (Shared ι) Pc}
    (ht : (c.locals t).ticket.isSome) : Joins t a c := by
  simp only [Joins]
  split
  · rename_i hpc
    rw [hpc] at ht
    contradiction
  · trivial

theorem Pc.ticket_of_pending (h : pc.pending) : pc.ticket = none := by
  cases pc <;> first | rfl | contradiction

theorem Pc.not_closing (h : pc.ticket = none) : ¬ pc.closing := by
  cases pc <;> first | exact id | contradiction

section PhaseStep

variable [DecidableEq ι] {n : ℕ} {t : ι} {a : Act Call} {c : Conf ι (Shared ι) Pc}
  {s' : Shared ι} {pc' : Pc}

omit [DecidableEq ι] in
/-- The thread that closes a round is the one of the phase. -/
theorem Phase.closer (h : Phase n c) (hpc : (c.locals t).closing) :
    c.shared.waiting = c.shared.count ∧ n ∣ c.shared.arrivals ∧
      (∀ u, u ≠ t → ¬ (c.locals u).closing) ∧
      ((∃ k, c.locals t = .bumpSequence k) ∧
          c.shared.sequence.toNat + 1 = c.shared.arrivals / n ∨
        (∃ k, c.locals t = .resetWaiting k) ∧
          c.shared.sequence.toNat = c.shared.arrivals / n) := by
  cases h with
  | opened hno => exact absurd hpc (hno t)
  | bumping u k hu hno hw hdvd hq =>
    obtain rfl : t = u := by_contra fun hne => hno t hne hpc
    exact ⟨hw, hdvd, hno, .inl ⟨⟨k, hu⟩, hq⟩⟩
  | resetting u k hu hno hw hdvd hq =>
    obtain rfl : t = u := by_contra fun hne => hno t hne hpc
    exact ⟨hw, hdvd, hno, .inr ⟨⟨k, hu⟩, hq⟩⟩

theorem not_closing_update (hno : ∀ u, u ≠ t → ¬ (c.locals u).closing) (hpc' : ¬ pc'.closing)
    (u : ι) : ¬ (update c.locals t pc' u).closing :=
  (forall_update_iff c.locals fun _ pc => ¬ pc.closing).mpr ⟨hpc', hno⟩ u

theorem not_closing_update_of_ne (hno : ∀ u, u ≠ t → ¬ (c.locals u).closing)
    (u : ι) (hu : u ≠ t) : ¬ (update c.locals t pc' u).closing := by
  rw [update_of_ne hu]
  exact hno u hu

/-- A step that has nothing to do with the rounds. -/
theorem Phase.keep (h : Phase n c) (hpc : ¬ (c.locals t).closing) (hpc' : ¬ pc'.closing)
    (hw : s'.waiting = c.shared.waiting) (hcount : s'.count = c.shared.count)
    (hq : s'.sequence = c.shared.sequence) (harr : s'.arrivals = c.shared.arrivals) :
    Phase n ⟨s', update c.locals t pc'⟩ := by
  have hother {u : ι} (hu : ∀ v, v ≠ u → ¬ (c.locals v).closing) (v : ι) (hv : v ≠ u) :
      ¬ (update c.locals t pc' v).closing :=
    (forall_update_iff c.locals fun v pc => v ≠ u → ¬ pc.closing).mpr
      ⟨fun _ => hpc', fun v _ => hu v⟩ v hv
  have hstay {u : ι} (hu : (c.locals u).closing) : update c.locals t pc' u = c.locals u :=
    update_of_ne (by rintro rfl; exact hpc hu) ..
  cases h with
  | opened hno hw₀ hq₀ =>
    refine .opened (not_closing_update (fun u _ => hno u) hpc') ?_ ?_
    · rw [hw, harr, hw₀]
    · rw [hq, harr, hq₀]
  | bumping u k hu hno hw₀ hdvd hq₀ =>
    refine .bumping u k ((hstay (hu ▸ trivial)).trans hu) (hother hno) ?_ ?_ ?_
    · exact hw.trans (hw₀.trans hcount.symm)
    · exact harr ▸ hdvd
    · rw [hq, harr, hq₀]
  | resetting u k hu hno hw₀ hdvd hq₀ =>
    refine .resetting u k ((hstay (hu ▸ trivial)).trans hu) (hother hno) ?_ ?_ ?_
    · exact hw.trans (hw₀.trans hcount.symm)
    · exact harr ▸ hdvd
    · rw [hq, harr, hq₀]

omit [DecidableEq ι] in
theorem Phase.sequence_succ_toNat (h : Phase n c) (hlt : c.shared.arrivals < 2 ^ 31) :
    (c.shared.sequence + 1).toNat = c.shared.sequence.toNat + 1 := by
  have hle := h.sequence_le
  have hdiv := div_le_self c.shared.arrivals n
  bv_omega

theorem Phase.step (h : Phase n c) (htrans : Trans t a c.shared (c.locals t) s' pc')
    (hn : 0 < n) (hcount : c.shared.count.toNat = n) (hjoin : Joins t a c)
    (hlt : c.shared.arrivals < 2 ^ 31) : Phase n ⟨s', update c.locals t pc'⟩ := by
  cases htrans with
  | call last hpc | wake k hpc | sleep q k hpc hq =>
    exact h.keep (by rw [hpc]; exact id) id rfl rfl rfl rfl
  | other queue pc' hpc hpc' =>
    exact h.keep (Pc.not_closing hpc.2) (Pc.not_closing hpc'.2) rfl rfl rfl rfl
  | approach i pc' hpc hpc' =>
    have hno {pc : Pc} (h : pc.pending) := Pc.not_closing (Pc.ticket_of_pending h)
    exact h.keep (hno hpc) (hno hpc') rfl rfl rfl rfl
  | arrive q e ha hpc hw hlast =>
    obtain ⟨hno, hw₀, hq₀, -⟩ := hjoin.opened h hpc ha hw
    have hdvd := mt (succ_eq_count_iff hn hcount hw₀).mpr hlast
    -- the round goes on: one more has come, and the sequence stays
    refine .opened (not_closing_update (fun u _ => hno u) id) ?_ ?_
    · have hmod := mod_lt c.shared.arrivals hn
      rw [succ_mod_of_not_dvd hdvd]
      bv_omega
    · rw [succ_div_of_not_dvd hdvd, hq₀]
  | complete q e ha hpc hw hlast =>
    obtain ⟨hno, hw₀, hq₀, -⟩ := hjoin.opened h hpc ha hw
    have hdvd := (succ_eq_count_iff hn hcount hw₀).mp hlast
    -- the last one of the round; the sequence is still to be advanced
    refine .bumping t c.shared.arrivals (update_self ..)
      (not_closing_update_of_ne fun u _ => hno u) hlast hdvd ?_
    rw [succ_div_of_dvd hdvd, hq₀]
  | bump k hpc =>
    obtain ⟨hw, hdvd, hno, hcases⟩ := h.closer (t := t) (by rw [hpc]; trivial)
    refine .resetting t k (update_self ..) (not_closing_update_of_ne hno) hw hdvd ?_
    obtain ⟨-, hq⟩ | ⟨⟨k', hk'⟩, -⟩ := hcases
    · exact (h.sequence_succ_toNat hlt).trans hq
    · rw [hpc] at hk'
      contradiction
  | reset k hpc =>
    obtain ⟨hw, hdvd, hno, hcases⟩ := h.closer (t := t) (by rw [hpc]; trivial)
    refine .opened (not_closing_update hno id) ?_ ?_
    · exact (mod_eq_zero_of_dvd hdvd).symm
    · obtain ⟨⟨k', hk'⟩, -⟩ | ⟨-, hq⟩ := hcases
      · rw [hpc] at hk'
        contradiction
      · exact hq
  | resume queue q k hpc hsub | done i queue k r hpc =>
    refine h.keep ?_ id rfl rfl rfl rfl
    rcases hpc with hpc | hpc <;> rw [hpc] <;> exact id
  | again q k hpc | released q k hpc hlt | leave i k r hpc =>
    exact h.keep (by rw [hpc]; exact id) id rfl rfl rfl rfl

end PhaseStep

/-- The last step of a call puts its ticket into the log, and nothing else
does. -/
def Logged (n q : ℕ) (k : ℕ) (r : Ret) : Prop := k / n < q ∧ (r = .serialThread ↔ n ∣ k + 1)

/-- The thread has advanced `sequence` and has its wake ahead of it. -/
def Pc.waking : Pc → Prop
  | .resetWaiting _ | .wakeSequence _ => True
  | _ => False

/-- The invariant of a barrier for `n` threads. -/
structure Inv [Fintype ι] (n : ℕ) (c : Conf ι (Shared ι) Pc) : Prop where
  count : c.shared.count.toNat = n
  phase : Phase n c
  sound : ∀ t, (c.locals t).Sound n c.shared.sequence.toNat
  log : ∀ k r, (k, r) ∈ c.shared.returned → Logged n c.shared.sequence.toNat k r
  tickets : ∀ k < c.shared.arrivals,
    (∃ r, (k, r) ∈ c.shared.returned) ∨ ∃ t, (c.locals t).ticket = some k
  bound : ∀ t k, (c.locals t).ticket = some k → k < c.shared.arrivals
  calls : c.shared.arrivals + ∑ t, (c.locals t).pending.toNat = c.shared.calls
  asleep : ∀ t ∈ c.shared.sequenceSleepers, ∃ q k, c.locals t = .asleep q k ∧
    (q = c.shared.sequence ∨ ∃ u, (c.locals u).waking)

variable {s : Shared ι}

section Step

variable {n : ℕ} {t : ι} {a : Act Call} {c : Conf ι (Shared ι) Pc} {s' : Shared ι} {pc' : Pc}

theorem Trans.calls_le (h : Trans t a s pc s' pc') : s.calls ≤ s'.calls := by
  cases h <;> first | exact le_rfl | exact le_succ _

/-- The sequence number never goes back. -/
theorem Trans.sequence_le (h : Trans t a c.shared (c.locals t) s' pc') (hphase : Phase n c)
    (hlt : c.shared.arrivals < 2 ^ 31) : c.shared.sequence.toNat ≤ s'.sequence.toNat := by
  cases h with
  | bump k hpc =>
    rw [hphase.sequence_succ_toNat hlt]
    exact le_succ _
  | _ => exact le_rfl

theorem Pc.Sound.of_ticket (h : pc.ticket = none) : pc.Sound n q := by
  cases pc <;> trivial

/-- The comparison after a futex wait, on numbers that have not wrapped. -/
theorem slt_iff_toNat_lt {x y : BitVec 32} (hx : x.toNat < 2 ^ 31) (hy : y.toNat < 2 ^ 31) :
    x.slt y ↔ x.toNat < y.toNat := by
  rw [BitVec.slt_iff_toInt_lt, BitVec.toInt_eq_toNat_of_lt (by omega),
    BitVec.toInt_eq_toNat_of_lt (by omega)]
  omega

/-- The scheduled thread, when its increment is one the barrier is ready for. -/
theorem Trans.sound (h : Trans t a c.shared (c.locals t) s' pc') (hphase : Phase n c)
    (hn : 0 < n) (hcount : c.shared.count.toNat = n) (hjoin : Joins t a c)
    (hlt : c.shared.arrivals < 2 ^ 31) (hsound : (c.locals t).Sound n c.shared.sequence.toNat) :
    pc'.Sound n s'.sequence.toNat := by
  have hle := hphase.sequence_le
  have hdiv := div_le_self c.shared.arrivals n
  cases h with
  | call last hpc | done i queue k r hpc => trivial
  | other queue pc' hpc hpc' => exact .of_ticket hpc'.2
  | approach i pc' hpc hpc' => exact .of_ticket (Pc.ticket_of_pending hpc')
  | arrive q e ha hpc hw hlast =>
    obtain ⟨-, hw₀, hq₀, hq⟩ := hjoin.opened hphase hpc ha hw
    refine ⟨mt (succ_eq_count_iff hn hcount hw₀).mpr hlast, ?_, hq₀.ge⟩
    rw [hq.resolve_left hlast, hq₀]
  | complete q e ha hpc hw hlast =>
    obtain ⟨-, hw₀, hq₀, -⟩ := hjoin.opened hphase hpc ha hw
    exact ⟨(succ_eq_count_iff hn hcount hw₀).mp hlast, hq₀.ge⟩
  | bump k hpc =>
    rw [hpc] at hsound
    refine ⟨hsound.1, ?_⟩
    rw [hphase.sequence_succ_toNat hlt]
    exact lt_succ_of_le hsound.2
  | reset k hpc | sleep q k hpc hq | again q k hpc | leave i k r hpc =>
    rw [hpc] at hsound
    exact hsound
  | wake k hpc =>
    rw [hpc] at hsound
    exact ⟨hsound.2, fun _ => hsound.1, fun _ => rfl⟩
  | resume queue q k hpc hsub =>
    rcases hpc with hpc | hpc <;> rw [hpc] at hsound <;> exact hsound
  | released q k hpc hslt =>
    rw [hpc] at hsound
    obtain ⟨hnot, hq, hqle⟩ := hsound
    have hlt' := (slt_iff_toNat_lt (by omega) (by omega)).mp hslt
    exact ⟨hq ▸ hlt', fun h => by contradiction, fun h => absurd h hnot⟩

theorem Pc.not_waking (h : pc.ticket = none) : ¬ pc.waking := by
  cases pc <;> first | exact id | contradiction

section

variable (h : Trans t a s pc s' pc')
include h

/-- A step keeps the ticket of its thread, hands the next one out, or puts it into the
log. -/
theorem Trans.tickets :
    pc'.ticket = pc.ticket ∧ s'.arrivals = s.arrivals ∧ s'.returned = s.returned ∨
      pc.ticket = none ∧ pc'.ticket = some s.arrivals ∧ s'.arrivals = s.arrivals + 1 ∧
        s'.returned = s.returned ∨
      ∃ k r, (∀ n q, pc.Sound n q → Logged n q k r) ∧ pc.ticket = some k ∧ pc'.ticket = none ∧
        s'.arrivals = s.arrivals ∧ s'.returned = (k, r) :: s.returned := by
  cases h with
  | arrive q e _ hpc | complete q e _ hpc => exact .inr (.inl ⟨by rw [hpc]; rfl, rfl, rfl, rfl⟩)
  | done i queue k r hpc =>
    refine .inr (.inr ⟨k, r, ?_⟩)
    rcases hpc with rfl | rfl <;> exact ⟨fun _ _ h => h, rfl, rfl, rfl, rfl⟩
  | other queue pc' hpc hpc' => exact .inl ⟨hpc'.2.trans hpc.2.symm, rfl, rfl⟩
  | approach i pc' hpc hpc' =>
    refine .inl ⟨?_, rfl, rfl⟩
    rw [Pc.ticket_of_pending hpc, Pc.ticket_of_pending hpc']
  | resume queue q k hpc hsub =>
    refine .inl ⟨?_, rfl, rfl⟩
    rcases hpc with hpc | hpc <;> rw [hpc] <;> rfl
  | call last hpc | bump k hpc | reset k hpc | wake k hpc | sleep q k hpc | again q k hpc
  | released q k hpc | leave i k r hpc =>
    exact .inl ⟨by rw [hpc]; rfl, rfl, rfl⟩

/-- A call is pending until it is an arrival. -/
theorem Trans.pending :
    s'.arrivals + pc'.pending.toNat + s.calls =
      s.arrivals + pc.pending.toNat + s'.calls := by
  cases h with
  | call last hpc =>
    rw [hpc]
    change s.arrivals + 1 + s.calls = s.arrivals + 0 + (s.calls + 1)
    omega
  | other queue pc' hpc hpc' => rw [hpc.1, hpc'.1]
  | approach i pc' hpc hpc' => rw [hpc, hpc']
  | arrive q e _ hpc | complete q e _ hpc =>
    rw [hpc]
    change s.arrivals + 1 + 0 + s.calls = s.arrivals + 1 + s.calls
    omega
  | bump k hpc | reset k hpc | wake k hpc | sleep q k hpc | again q k hpc | released q k hpc
  | leave i k r hpc =>
    rw [hpc]
    rfl
  | resume queue q k hpc hsub | done i queue k r hpc =>
    rcases hpc with hpc | hpc <;> rw [hpc] <;> rfl

theorem Trans.sequence_eq_or : s'.sequence = s.sequence ∨ pc'.waking := by
  cases h <;> first | exact .inl rfl | exact .inr trivial

/-- A thread has its wake ahead of it until nobody sleeps any more. -/
theorem Trans.waking (hpc : pc.waking) (hne : s'.sequenceSleepers ≠ []) : pc'.waking := by
  cases h with
  | reset k hk => trivial
  | wake k hk => exact absurd rfl hne
  | other queue pc' hk hk' => exact absurd hpc (Pc.not_waking hk.2)
  | approach i pc' hk hk' => exact absurd hpc (Pc.not_waking (Pc.ticket_of_pending hk))
  | resume queue q k hk hsub | done i queue k r hk =>
    rcases hk with hk | hk <;> rw [hk] at hpc <;> exact hpc.elim
  | call last hk | arrive q e _ hk | complete q e _ hk | bump k hk | sleep q k hk | again q k hk
  | released q k hk | leave i k r hk =>
    rw [hk] at hpc
    exact hpc.elim

/-- The scheduled thread is among the sleepers only if it has just gone there,
and the others were there before. -/
theorem Trans.asleep (hself : t ∈ s.sequenceSleepers → ∃ q k, pc = .asleep q k) {u : ι}
    (hu : u ∈ s'.sequenceSleepers) :
    (u = t ∧ ∃ q k, pc' = .asleep q k ∧ q = s'.sequence) ∨ u ≠ t ∧ u ∈ s.sequenceSleepers := by
  have hne (hpc : ∀ q k, pc ≠ .asleep q k) (hin : u ∈ s.sequenceSleepers) : u ≠ t := by
    rintro rfl
    obtain ⟨q, k, hk⟩ := hself hin
    exact hpc q k hk
  cases h with
  | sleep q k hpc hq =>
    rcases List.mem_append.mp hu with hu | hu
    · exact .inr ⟨hne (by simp [hpc]) hu, hu⟩
    · exact .inl ⟨List.mem_singleton.mp hu, q, k, rfl, hq.symm⟩
  | resume queue q k hpc hsub =>
    obtain ⟨hin, hout⟩ := (hsub u).mp hu
    refine .inr ⟨?_, hin⟩
    rcases hpc with hpc | hpc
    · exact hne (by simp [hpc]) hin
    · exact hout hpc
  | wake k hpc => cases hu
  | other queue pc' hpc hpc' =>
    refine .inr ⟨hne ?_ hu, hu⟩
    rintro q k rfl
    cases hpc.2
  | approach i pc' hpc hpc' =>
    refine .inr ⟨hne ?_ hu, hu⟩
    rintro q k rfl
    contradiction
  | done i queue k r hpc =>
    refine .inr ⟨hne ?_ hu, hu⟩
    rcases hpc with hpc | hpc <;> simp [hpc]
  | call last hpc | arrive q e _ hpc | complete q e _ hpc | bump k hpc | reset k hpc
  | again q k hpc | released q k hpc | leave i k r hpc =>
    exact .inr ⟨hne (by simp [hpc]) hu, hu⟩

end

variable [Fintype ι] [DecidableEq ι]

theorem Inv.step (hc : Inv n c) (hn : 0 < n) (hjoin : Joins t a c)
    (hlt : c.shared.calls < 2 ^ 31) (h : Trans t a c.shared (c.locals t) s' pc') :
    Inv n ⟨s', update c.locals t pc'⟩ := by
  have harr : c.shared.arrivals < 2 ^ 31 := by
    have := hc.calls
    omega
  have hmono := h.sequence_le hc.phase harr
  constructor
  case count =>
    refine Eq.trans (congrArg BitVec.toNat ?_) hc.count
    cases h <;> rfl
  case phase =>
    exact hc.phase.step h hn hc.count hjoin harr
  case sound =>
    exact (forall_update_iff c.locals fun _ pc => pc.Sound n s'.sequence.toNat).mpr
      ⟨h.sound hc.phase hn hc.count hjoin harr (hc.sound t), fun u _ => (hc.sound u).mono hmono⟩
  case log =>
    intro k r hk
    have hlog : Logged n c.shared.sequence.toNat k r := by
      obtain ⟨-, -, hret⟩ | ⟨-, -, -, hret⟩ | ⟨k', r', hlogged, -, -, -, hret⟩ := h.tickets
      · exact hc.log k r (hret ▸ hk)
      · exact hc.log k r (hret ▸ hk)
      · rcases List.mem_cons.mp (hret ▸ hk) with heq | hk
        · cases heq
          exact hlogged _ _ (hc.sound t)
        · exact hc.log k r hk
    exact ⟨hlog.1.trans_le hmono, hlog.2⟩
  case tickets =>
    -- a ticket is new, still out, or was handed in just now
    intro k hk
    have hold (hk : k < c.shared.arrivals) : (∃ r, (k, r) ∈ c.shared.returned) ∨
        (c.locals t).ticket = some k ∨ ∃ u ≠ t, (c.locals u).ticket = some k :=
      (hc.tickets k hk).imp_right (exists_self_or t)
    simp only [exists_update_iff c.locals fun _ pc => pc.ticket = some k]
    rcases h.tickets with ⟨hpc, harr, hret⟩ | ⟨hpc, hpc', harr, hret⟩ |
      ⟨k', r, -, hpc, hpc', harr, hret⟩ <;> grind
  case bound =>
    refine (forall_update_iff c.locals
      fun _ pc => ∀ k, pc.ticket = some k → k < s'.arrivals).mpr ?_
    have hold := hc.bound
    grind [h.tickets]
  case calls =>
    have hsum := sum_threads_update (fun pc : Pc => pc.pending.toNat) c.locals t pc'
    have hpend := h.pending
    have hcalls := hc.calls
    change s'.arrivals + ∑ u, (update c.locals t pc' u).pending.toNat = s'.calls
    omega
  case asleep =>
    -- whoever sleeps on an old sequence has a waker, before the step and after it
    intro u hu
    have hself (ht : t ∈ c.shared.sequenceSleepers) : ∃ q k, c.locals t = .asleep q k := by
      obtain ⟨q, k, hk, -⟩ := hc.asleep t ht
      exact ⟨q, k, hk⟩
    rcases h.asleep hself hu with ⟨rfl, q, k, hk, hq⟩ | ⟨hut, hin⟩
    · exact ⟨q, k, (update_self ..).trans hk, .inl hq⟩
    · obtain ⟨q, k, hk, hq⟩ := hc.asleep u hin
      refine ⟨q, k, (update_of_ne hut ..).trans hk, ?_⟩
      rw [exists_update_iff c.locals fun _ pc => pc.waking]
      rcases hq with rfl | hq
      · exact h.sequence_eq_or.imp Eq.symm .inl
      · refine .inr ((exists_self_or t hq).imp_left fun hv => ?_)
        exact h.waking hv (List.ne_nil_of_mem hu)

end Step

/-! ### Getting out

Once every round is complete, the threads that carry a ticket can all return by
their own steps. -/

/-- A bound on the steps until the thread has returned. -/
def Pc.stepsLeft : Pc → ℕ
  | .bumpSequence _ => 6
  | .resetWaiting _ => 5
  | .wakeSequence _ => 4
  | .futex _ _ | .asleep _ _ => 4
  | .reload _ _ => 3
  | .leaveSub _ _ => 2
  | .leaveWake _ _ => 1
  | _ => 0

section Progress

variable [DecidableEq ι] {n m : ℕ} {t : ι} {c : Conf ι (Shared ι) Pc}

/-- Thread `t` can take a step that brings it closer to its return. -/
def NearsReturn (t : ι) (s : Shared ι) (pc : Pc) : Prop :=
  ∃ s' pc', program t .run s pc = some (s', pc') ∧ pc'.stepsLeft < pc.stepsLeft ∧
    s'.arrivals = s.arrivals ∧ s'.calls = s.calls

theorem nearsReturn_leaveSub (s : Shared ι) (k : ℕ) (r : Ret) :
    NearsReturn t s (.leaveSub k r) := by
  have hrun : program t .run s (.leaveSub k r) = some (leaveSub k r s) := rfl
  by_cases hlast : s.inside - 1 = 0#32
  · refine ⟨{ s with inside := s.inside - 1 }, .leaveWake k r, ?_, lt_succ_self 1, rfl, rfl⟩
    rw [hrun, leaveSub, if_pos hlast]
  · refine ⟨({ s with inside := s.inside - 1 }).returns k r, .idle (some r), ?_,
      zero_lt_succ 1, rfl, rfl⟩
    rw [hrun, leaveSub, if_neg hlast]

theorem nearsReturn_of_closing (s : Shared ι) (h : pc.closing ∨ pc.waking) :
    NearsReturn t s pc := by
  cases pc with
  | bumpSequence k | resetWaiting k | wakeSequence k =>
    exact ⟨_, _, rfl, by simp [Pc.stepsLeft], rfl, rfl⟩
  | _ => exact (h.elim id id).elim

variable [Fintype ι]

/-- With nobody left to close a round, a waiter whose round is complete goes
past its futex wait. -/
theorem Inv.nearsReturn_of_settled (hc : Inv n c) (hlt : c.shared.calls < 2 ^ 31) (hn : 0 < n)
    (hfull : c.shared.arrivals = m * n)
    (hnone : ∀ u, ¬ ((c.locals u).closing ∨ (c.locals u).waking))
    (ht : (c.locals t).ticket.isSome) : NearsReturn t c.shared (c.locals t) := by
  have hq : c.shared.sequence.toNat = m := by
    have hdiv : c.shared.arrivals / n = m := by rw [hfull, Nat.mul_div_cancel m hn]
    cases hc.phase with
    | opened _ _ hq => omega
    | bumping u k hu | resetting u k hu => exact absurd (.inl (by rw [hu]; trivial)) (hnone u)
  have hmax : m < 2 ^ 31 := by
    have hle := Nat.le_mul_of_pos_right m hn
    have hcalls := hc.calls
    omega
  have hround (k : ℕ) (hk : (c.locals t).ticket = some k) : k / n < m :=
    Nat.div_lt_of_lt_mul (by rw [Nat.mul_comm, ← hfull]; exact hc.bound t k hk)
  have hsound := hc.sound t
  have hbusy := hnone t
  cases hpc : c.locals t with
  | futex q k =>
    -- its round is over, so the wait sees another sequence and does not sleep
    rw [hpc] at hsound
    have hne : c.shared.sequence ≠ q := by
      rintro rfl
      have := hround k (by rw [hpc]; rfl)
      have := hsound.2.1
      omega
    refine ⟨c.shared, .reload q k, ?_, lt_succ_self 3, rfl, rfl⟩
    simp [program, Act.onUntimedWait, hne, afterFutex]
  | asleep q k =>
    rw [hpc] at hsound
    have hout : t ∉ c.shared.sequenceSleepers := by
      -- a sleeper of an old round would have a waker, and there is none
      intro hin
      obtain ⟨q', k', hk', hq'⟩ := hc.asleep t hin
      obtain ⟨rfl, rfl⟩ : q = q' ∧ k = k' := by simpa [hpc] using hk'
      rcases hq' with rfl | ⟨u, hu⟩
      · have := hround k (by rw [hpc]; rfl)
        have := hsound.2.1
        omega
      · exact hnone u (.inr hu)
    refine ⟨c.shared, .reload q k, ?_, lt_succ_self 3, rfl, rfl⟩
    simp [program, Act.onUntimedWait, hout, afterFutex]
  | reload q k =>
    rw [hpc] at hsound
    have hk := hround k (by rw [hpc]; rfl)
    have hqk := hsound.2.1
    have hslt : q.slt c.shared.sequence := (slt_iff_toNat_lt (by omega) (by omega)).mpr (by omega)
    refine ⟨c.shared, .leaveSub k .zero, ?_, lt_succ_self 2, rfl, rfl⟩
    simp [program, Act.onRun, waitReload, hslt]
  | leaveSub k r => exact nearsReturn_leaveSub c.shared k r
  | leaveWake k r => exact ⟨_, _, rfl, by simp [Pc.stepsLeft], rfl, rfl⟩
  | bumpSequence k | resetWaiting k =>
    rw [hpc] at hbusy
    exact absurd (.inl trivial) hbusy
  | wakeSequence k =>
    rw [hpc] at hbusy
    exact absurd (.inr trivial) hbusy
  | _ =>
    rw [hpc] at ht
    contradiction

theorem Pc.ticket_of_closing (h : pc.closing ∨ pc.waking) : pc.ticket.isSome := by
  cases pc <;> first | rfl | exact (h.elim id id).elim

/-- While a thread carries a ticket of a complete round, some such thread
advances. -/
theorem Inv.exists_nearsReturn (hc : Inv n c) (hlt : c.shared.calls < 2 ^ 31) (hn : 0 < n)
    (hfull : c.shared.arrivals = m * n) (ht : (c.locals t).ticket.isSome) :
    ∃ u, (c.locals u).ticket.isSome ∧ NearsReturn u c.shared (c.locals u) := by
  by_cases hbusy : ∃ u, (c.locals u).closing ∨ (c.locals u).waking
  · obtain ⟨u, hu⟩ := hbusy
    exact ⟨u, Pc.ticket_of_closing hu, nearsReturn_of_closing c.shared hu⟩
  · exact ⟨t, ht, hc.nearsReturn_of_settled hlt hn hfull (not_exists.mp hbusy) ht⟩

/-- The threads that carry tickets of complete rounds can return by their own
steps, one after the other. -/
theorem Inv.drain (hn : 0 < n) (w : ℕ) {c : Conf ι (Shared ι) Pc} (hc : Inv n c)
    (hlt : c.shared.calls < 2 ^ 31) (hfull : c.shared.arrivals = m * n)
    (hw : ∑ t, (c.locals t).stepsLeft = w) :
    ∃ sched c', (∀ x ∈ sched, x.2 = .run ∧ (c.locals x.1).ticket.isSome) ∧
      program.exec sched c = some c' ∧ Inv n c' ∧ c'.shared.arrivals = c.shared.arrivals ∧
      ∀ t, (c'.locals t).ticket = none := by
  induction w using Nat.strong_induction_on generalizing c with
  | _ w ih =>
    by_cases hsome : ∃ t, (c.locals t).ticket.isSome
    · obtain ⟨t, ht⟩ := hsome
      obtain ⟨u, hu, s', pc', hrun, hless, harr, hcalls⟩ := hc.exists_nearsReturn hlt hn hfull ht
      have hstep : program.step u .run c = some ⟨s', update c.locals u pc'⟩ :=
        Program.step_eq_some.mpr ⟨s', pc', hrun, rfl⟩
      have hc₁ := hc.step hn (joins_of_ticket hu) hlt (program_trans hrun)
      have hsum := sum_threads_update Pc.stepsLeft c.locals u pc'
      obtain ⟨sched, c', hsched, hexec, hc', harr', hnone⟩ := ih
        (∑ t, (update c.locals u pc' t).stepsLeft) (by omega) hc₁
        (by rw [hcalls]; exact hlt) (by rw [harr]; exact hfull) rfl
      refine ⟨(u, .run) :: sched, c', ?_, ?_, hc', harr'.trans harr, hnone⟩
      · intro x hx
        rcases List.mem_cons.mp hx with rfl | hx
        · exact ⟨rfl, hu⟩
        · obtain ⟨hrun, hticket⟩ := hsched x hx
          refine ⟨hrun, ?_⟩
          by_cases hxu : x.1 = u
          · rw [hxu]
            exact hu
          · simpa [update_of_ne hxu] using hticket
      · exact Program.exec_cons_eq_some.mpr ⟨_, hstep, hexec⟩
    · refine ⟨[], c, by simp, rfl, hc, rfl, fun t => ?_⟩
      exact Option.not_isSome_iff_eq_none.mp fun h => hsome ⟨t, h⟩

end Progress

/-! ### Runs -/

theorem inv_start [Fintype ι] (count : BitVec 32) :
    Inv count.toNat (start count : Conf ι (Shared ι) Pc) where
  count := rfl
  phase := .opened (fun _ => id) (Nat.zero_mod _).symm (Nat.zero_div _).symm
  sound _ := trivial
  log _ _ h := absurd h (by simp [start, pthreadBarrierInit])
  tickets _ h := absurd h (not_lt_zero _)
  bound _ _ h := by contradiction
  calls := by simp [start, pthreadBarrierInit, Pc.pending]
  asleep _ h := absurd h (by simp [start, pthreadBarrierInit])

variable [DecidableEq ι]

/-- The calls fall into rounds of `n`: nobody is released before its round is
complete, one call of each round is told so, and with only complete rounds all
calls can return. -/
structure Partition (round : ℕ → ℕ) (n : ℕ) (c : Conf ι (Shared ι) Pc) : Prop where
  size : ∀ r, {k | round k = r}.ncard = n
  released : ∀ k ret, (k, ret) ∈ c.shared.returned →
    ∀ j, round j = round k → j < c.shared.arrivals
  serial : ∀ r, (∀ j, round j = r → ∃ ret, (j, ret) ∈ c.shared.returned) →
    ∃! j, round j = r ∧ (j, Ret.serialThread) ∈ c.shared.returned
  serial_unique : ∀ j k, round j = round k → (j, Ret.serialThread) ∈ c.shared.returned →
    (k, Ret.serialThread) ∈ c.shared.returned → j = k
  finish : ∀ m, c.shared.arrivals = m * n →
    ∃ sched c', (∀ x ∈ sched, x.2 = .run ∧ (c.locals x.1).ticket.isSome) ∧
      program.exec sched c = some c' ∧ c'.shared.arrivals = c.shared.arrivals ∧
      ∀ k < c.shared.arrivals, ∃ ret, (k, ret) ∈ c'.shared.returned

theorem ncard_round {n : ℕ} (hn : 0 < n) (r : ℕ) : {k | k / n = r}.ncard = n := by
  have hset : {k | k / n = r} = Finset.Ico (r * n) (r * n + n) := by
    ext k
    simp only [Set.mem_ofPred_eq, Finset.coe_Ico, Set.mem_Ico, Nat.div_eq_iff hn]
    constructor
    all_goals
      omega
  rw [hset, Set.ncard_coe_finset, Nat.card_Ico]
  omega

/-- A round has one last ticket. -/
theorem last_unique {n j k : ℕ} (hj : n ∣ j + 1) (hk : n ∣ k + 1) (h : j / n = k / n) : j = k := by
  have hj' := mod_succ_of_dvd hj
  have hk' := mod_succ_of_dvd hk
  rw [← div_add_mod j n, ← div_add_mod k n, h]
  omega

theorem Inv.partition [Fintype ι] {n : ℕ} {c : Conf ι (Shared ι) Pc} (hc : Inv n c) (hn : 0 < n)
    (hlt : c.shared.calls < 2 ^ 31) : Partition (· / n) n c := by
  have hlast {k : ℕ} (hk : (k, Ret.serialThread) ∈ c.shared.returned) : n ∣ k + 1 :=
    (hc.log k _ hk).2.mp rfl
  refine ⟨ncard_round hn, ?_, ?_, ?_, ?_⟩
  · intro k ret hk j hj
    have hround : j / n < c.shared.arrivals / n := by
      have hlog := (hc.log k ret hk).1
      have hle := hc.phase.sequence_le
      omega
    exact lt_of_div_lt_div hround
  · intro r hall
    obtain ⟨j, hj⟩ : ∃ j, j = r * n + (n - 1) := ⟨_, rfl⟩
    have hdvd : n ∣ j + 1 := ⟨r + 1, by rw [Nat.mul_add, Nat.mul_comm n r]; omega⟩
    have hround : j / n = r := by
      rw [Nat.div_eq_iff hn]
      omega
    obtain ⟨ret, hret⟩ := hall j hround
    have hserial : ret = .serialThread := (hc.log j ret hret).2.mpr hdvd
    refine ⟨j, ⟨hround, hserial ▸ hret⟩, ?_⟩
    rintro k ⟨hk, hkret⟩
    exact last_unique (hlast hkret) hdvd (hk.trans hround.symm)
  · intro j k hround hj hk
    exact last_unique (hlast hj) (hlast hk) hround
  · intro m hfull
    obtain ⟨sched, c', hsched, hexec, hc', harr, hnone⟩ := hc.drain hn _ hlt hfull rfl
    refine ⟨sched, c', hsched, hexec, harr, fun k hk => ?_⟩
    rcases hc'.tickets k (harr ▸ hk) with hret | ⟨t, ht⟩
    · exact hret
    · rw [hnone t] at ht
      contradiction

/-- In every run whose increments all join a round that is ready for them, the
tickets fall into rounds of `n`. -/
theorem partition_of_joins [Fintype ι] {count : BitVec 32} (hn : 0 < count.toNat)
    {sched : List (ι × Act Call)} {c : Conf ι (Shared ι) Pc}
    (hjoin : program.AllSteps Joins sched (start count))
    (hrun : program.exec sched (start count) = some c) (hlt : c.shared.calls < 2 ^ 31) :
    Partition (· / count.toNat) count.toNat c := by
  have hinv : c.shared.calls < 2 ^ 31 → Inv count.toNat c := by
    refine hjoin.invariant (I := fun c => c.shared.calls < 2 ^ 31 → Inv count.toNat c) ?_
      (fun _ => inv_start count) hrun
    intro t a c c' hc hg h hlt'
    obtain ⟨s', pc', hp, rfl⟩ := Program.step_eq_some.mp h
    have htrans := program_trans hp
    have hlt := htrans.calls_le.trans_lt hlt'
    exact (hc hlt).step hn hg hlt htrans
  exact (hinv hlt).partition hn hlt

/-- Two threads, one after the other, meet at a barrier for two. -/
def meeting (t u : Fin 2) : List (Fin 2 × Act Call) :=
  (t, .call .wait) :: steps t 5 ++ (u, .call .wait) :: steps u 8 ++ steps t 4

theorem partition_of_joins_meeting :
    ∃ c ∈ program.exec (meeting 0 1) (start 2#32),
      c.shared.returned = [(0, .zero), (1, .serialThread)] ∧ Partition (· / 2) 2 c := by
  have hrun : program.exec (meeting 0 1) (start 2#32) = some _ := rfl
  exact ⟨_, hrun, rfl, partition_of_joins (by decide) (by decide) hrun (by decide)⟩

/-! ### A thread that is released early

The third thread loads `sequence`, a whole round of the two others passes, and
then it counts itself into the next round. Its own number is out of date by
then, and it leaves that round alone. -/

def staleSequence : List (Fin 3 × Act Call) :=
  (2, .call .wait) :: steps 2 2 ++ (0, .call .wait) :: steps 0 4 ++
    (1, .call .wait) :: steps 1 8 ++ steps 0 3 ++ steps 2 6

theorem not_partition_staleSequence :
    ¬ ∀ (count : BitVec 32) (sched : List (Fin 3 × Act Call))
      (c : Conf (Fin 3) (Shared (Fin 3)) Pc), 0 < count.toNat →
      program.exec sched (start count) = some c → c.shared.calls < 2 ^ 31 →
      ∃ round, Partition round count.toNat c := by
  intro h
  obtain ⟨c, hrun, hlt, harr, hall, hserial⟩ :
      ∃ c ∈ program.exec staleSequence (start 2#32), c.shared.calls < 2 ^ 31 ∧
        c.shared.arrivals = 3 ∧ (∀ k < 3, ∃ x ∈ c.shared.returned, x.1 = k) ∧
        ∀ x ∈ c.shared.returned, x.2 = .serialThread → x.1 = 1 := by
    decide
  obtain ⟨round, hpart⟩ := h 2#32 staleSequence c (by decide) hrun hlt
  -- all three have returned, and only one of them as the last of its round
  have hround (k : ℕ) (hk : k < 3) : round k = round 1 := by
    have hreturned (j : ℕ) (hj : round j = round k) : ∃ ret, (j, ret) ∈ c.shared.returned := by
      obtain ⟨⟨_, ret⟩, hret, rfl⟩ := hall k hk
      obtain ⟨⟨_, ret'⟩, hret', rfl⟩ := hall j (harr ▸ hpart.released _ ret hret j hj)
      exact ⟨ret', hret'⟩
    obtain ⟨j, ⟨hj, hlast⟩, -⟩ := hpart.serial (round k) hreturned
    exact hserial _ hlast rfl ▸ hj.symm
  have hsize := hpart.size (round 1)
  have hsub : ↑(Finset.range 3) ⊆ {k | round k = round 1} :=
    fun k hk => hround k (Finset.mem_range.mp hk)
  have hle := Set.ncard_le_ncard hsub (Set.finite_of_ncard_pos (by rw [hsize]; decide))
  rw [Set.ncard_coe_finset, hsize] at hle
  exact absurd hle (by decide)

end Hzlibc.Posix.Barrier
