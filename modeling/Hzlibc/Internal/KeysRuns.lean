import Hzlibc.Internal.Keys

/-!
What holds of thread-specific data in every run.

The generation of a slot counts its creations. What a thread keeps for a slot is either
of the slot's last key, and is then what the thread has set for it, or of an earlier
one, and the thread has set nothing for the last. The destructor that an exiting thread
is about to call stays that of the key as long as no key is deleted.
-/

namespace Hzlibc.Internal.Keys

open Concurrency Function

variable {ι : Type}

/-! ### What a step can do -/

/-- The value and the entry after `thread_getspecific`. -/
def fetched (keys : ℕ → Key) (tcb : ℕ → LocalKey) (key : ℕ) : LocalKey :=
  if (tcb key).generation ≠ (keys key).generation then ⟨(keys key).generation, 0⟩ else tcb key

inductive Trans (t : ι) (a : Act) (s : Shared ι) (l : Local) : Shared ι → Local → Prop
  | move (pc' : Pc) (hpc : ∀ it i d, pc' = .call it i d → pc' = checkSlot s.keys l.tcb it i) :
      Trans t a s l s { l with pc := pc' }
  | created (key : ℕ) (d : Ptr) (hlt : key < pthreadKeysMax)
      (hfree : (s.keys key).used = false) (hpc : l.pc.calls = true) :
      Trans t a s l
        ⟨Function.update s.keys key ⟨d, (s.keys key).generation + 1, true⟩,
          .created key d :: s.log⟩ l
  | deleted (key : ℕ) (ha : a = .delete key) (hd : (threadKeyDelete key s.keys).isSome)
      (hpc : l.pc.calls = true) :
      Trans t a s l
        ⟨Function.update s.keys key { s.keys key with used := false, destructor := 0 },
          .deleted key :: s.log⟩ l
  | set (key : ℕ) (value : Ptr) (hpc : l.pc.calls = true) :
      Trans t a s l (s.logs (.set t key value))
        { l with tcb := Function.update l.tcb key ⟨(s.keys key).generation, value⟩ }
  | got (key : ℕ) (hused : (s.keys key).used = true) (hpc : l.pc.calls = true) :
      Trans t a s l (s.logs (.got t key (fetched s.keys l.tcb key).value))
        { l with tcb := Function.update l.tcb key (fetched s.keys l.tcb key) }
  | destruct (it i : ℕ) (d : Ptr) (hpc : l.pc = .call it i d) :
      Trans t a s l (s.logs (.destructed t i (l.tcb i).value d))
        ⟨Function.update l.tcb i { l.tcb i with value := 0 }, .inDestructor it i⟩

variable {keys : ℕ → Key} {d : Ptr} {key : ℕ}

section Trans

variable {t : ι} {a : Act} {s s' : Shared ι} {l l' : Local}

theorem createLoop_free {n i k : ℕ} (h : createLoop keys n i = some k) :
    k < i + n ∧ (keys k).used = false := by
  induction n generalizing i with
  | zero => cases h
  | succ n ih =>
    rw [createLoop] at h
    split at h
    · obtain ⟨hlt, hfree⟩ := ih h
      exact ⟨by omega, hfree⟩
    · rename_i hused
      cases h
      exact ⟨by omega, Bool.eq_false_iff.mpr hused⟩

theorem threadGetspecific_eq (key : ℕ) (keys : ℕ → Key) (tcb : ℕ → LocalKey) :
    threadGetspecific key keys tcb =
      if pthreadKeysMax ≤ key ∨ (keys key).used = false then none
      else some ((fetched keys tcb key).value, update tcb key (fetched keys tcb key)) := by
  rw [threadGetspecific]
  split
  · rfl
  · rw [fetched]
    split
    · rfl
    · rw [update_eq_self]

theorem not_call_of_calls {pc : Pc} (h : pc.calls = true) (it i : ℕ) (d : Ptr) :
    pc ≠ .call it i d := by
  rintro rfl
  cases h

theorem makeCall_trans (hpc : l.pc.calls = true) (h : makeCall t a s l = some (s', l')) :
    Trans t a s l s' l' := by
  -- a call that fails changes nothing
  have hfail : Trans t a s l s l :=
    .move l.pc fun it i d hcall => absurd hcall (not_call_of_calls hpc it i d)
  cases a with
  | create d =>
    simp only [makeCall, threadKeyCreate] at h
    cases hloop : createLoop s.keys pthreadKeysMax 0 with
    | none =>
      rw [hloop] at h
      cases h
      exact hfail
    | some key =>
      rw [hloop] at h
      cases h
      obtain ⟨hlt, hfree⟩ := createLoop_free hloop
      exact .created key d (by omega) hfree hpc
  | delete key =>
    simp only [makeCall] at h
    split at h
    · cases h
      exact hfail
    · rename_i keys hkeys
      have hsome : (threadKeyDelete key s.keys).isSome := by rw [hkeys, Option.isSome_some]
      rw [threadKeyDelete] at hkeys
      split_ifs at hkeys
      cases hkeys
      cases h
      exact .deleted key rfl hsome hpc
  | set key value =>
    simp only [makeCall] at h
    split at h
    · cases h
      exact hfail
    · rename_i tcb htcb
      rw [threadSetspecific] at htcb
      split_ifs at htcb
      cases htcb
      cases h
      exact .set key value hpc
  | get key =>
    simp only [makeCall] at h
    split at h
    · cases h
      exact .move .panicked nofun
    · rename_i htcb
      rw [threadGetspecific_eq] at htcb
      split_ifs at htcb with hbad
      cases htcb
      cases h
      exact .got key (Bool.of_not_eq_false (not_or.mp hbad).2) hpc
  | exit | step | returns => cases h

theorem nextSlot_ne_call (iteration i it j : ℕ) (d : Ptr) :
    nextSlot iteration i ≠ .call it j d := by
  rw [nextSlot]
  split_ifs <;> simp

theorem checkSlot_eq_call {tcb : ℕ → LocalKey} {iteration i it j : ℕ}
    (h : checkSlot keys tcb iteration i = .call it j d) :
    checkSlot keys tcb iteration i = checkSlot keys tcb it j := by
  have h' := h
  rw [checkSlot] at h'
  split_ifs at h'
  · exact absurd h' (nextSlot_ne_call iteration i it j d)
  · exact absurd h' (nextSlot_ne_call iteration i it j d)
  · cases h'
    rfl

theorem program_trans (h : program t a s l = some (s', l')) : Trans t a s l s' l' := by
  unfold program at h
  split at h
  · cases h
    exact .move _ nofun
  · cases h
    exact .move _ fun it i d hcall => checkSlot_eq_call hcall
  · rename_i it i d hpc
    cases h
    exact .destruct it i d hpc
  · cases h
    exact .move _ fun it i d hcall => absurd hcall (nextSlot_ne_call _ _ it i d)
  · split at h
    · rename_i hcalls
      exact makeCall_trans hcalls h
    · cases h

end Trans

/-! ### Generations -/

/-- What a thread keeps for a slot that was given away `n` times, if `v` is what it has set
for the last key. -/
def KeptRight (n : ℕ) (v : Ptr) (x : LocalKey) : Prop :=
  ∃ m ≤ n, x.generation = BitVec.ofNat 32 m ∧ (m = n → x.value = v) ∧ (m < n → v = 0)

namespace KeptRight

variable {n : ℕ} {v : Ptr} {x : LocalKey}

theorem current (n : ℕ) (v : Ptr) : KeptRight n v ⟨BitVec.ofNat 32 n, v⟩ :=
  ⟨n, le_rfl, rfl, fun _ => rfl, fun h => absurd h (lt_irrefl n)⟩

section

variable (h : KeptRight n v x)
include h

theorem next : KeptRight (n + 1) 0 x := by
  obtain ⟨m, hle, hgen, -, -⟩ := h
  exact ⟨m, by omega, hgen, fun heq => by omega, fun _ => rfl⟩

theorem cleared : KeptRight n 0 { x with value := 0 } := by
  obtain ⟨m, hle, hgen, -, -⟩ := h
  exact ⟨m, hle, hgen, fun _ => rfl, fun _ => rfl⟩

/-- What has the generation of the slot is of its last key. -/
theorem value_eq (hn : n < 2 ^ 31) (hgen : x.generation = BitVec.ofNat 32 n) : x.value = v := by
  obtain ⟨m, hle, hm, hvalue, -⟩ := h
  refine hvalue ?_
  have hnat := congrArg BitVec.toNat (hm.symm.trans hgen)
  rw [BitVec.toNat_ofNat, BitVec.toNat_ofNat] at hnat
  omega

theorem eq_zero (hgen : x.generation ≠ BitVec.ofNat 32 n) : v = 0 := by
  obtain ⟨m, hle, hm, -, hzero⟩ := h
  refine hzero (lt_of_le_of_ne hle ?_)
  rintro rfl
  exact hgen hm

end

end KeptRight

theorem creations_le_cons (k : ℕ) (e : Event ι) (log : List (Event ι)) :
    creations k log ≤ creations k (e :: log) := by
  cases e with
  | created key d =>
    exact Nat.le_add_left _ _
  | deleted | set | got | destructed => exact le_rfl

variable {e : Event ι} {log : List (Event ι)}

theorem Few.of_cons (h : Few (e :: log)) : Few log :=
  fun k => (creations_le_cons k e log).trans_lt (h k)

/-! ### What holds in every state -/

/-- What the table has for a slot that was given away `n` times, if `isLive` says whether it is
that of a key, and `d` is the destructor of its last key. -/
structure SlotRight (n : ℕ) (isLive : Bool) (d : Ptr) (key : Key) : Prop where
  generation : key.generation = BitVec.ofNat 32 n
  used : key.used = isLive
  destructor : isLive = true → key.destructor = d

def SlotsRight (s : Shared ι) : Prop :=
  ∀ k, SlotRight (creations k s.log) (live k s.log) (destructorOf k s.log) (s.keys k)

section Slots

variable {s : Shared ι}

theorem slotsRight_created (hr : SlotsRight s) :
    SlotsRight ⟨update s.keys key ⟨d, (s.keys key).generation + 1, true⟩,
      .created key d :: s.log⟩ := by
  refine (forall_update_iff s.keys fun k => SlotRight _ _ _).mpr ⟨?_, fun k hk => ?_⟩
  · simp only [creations, live, destructorOf, if_true, Nat.add_comm 1]
    refine ⟨?_, rfl, fun _ => rfl⟩
    rw [BitVec.ofNat_add, ← (hr key).generation]
    rfl
  · simpa [creations, live, destructorOf, if_neg hk.symm] using hr k

theorem slotsRight_deleted (hr : SlotsRight s) :
    SlotsRight ⟨update s.keys key { s.keys key with used := false, destructor := 0 },
      .deleted key :: s.log⟩ := by
  refine (forall_update_iff s.keys fun k => SlotRight _ _ _).mpr ⟨?_, fun k hk => ?_⟩
  · simp only [live, if_true]
    exact ⟨(hr key).generation, rfl, nofun⟩
  · simpa [creations, live, destructorOf, if_neg hk.symm] using hr k

/-- `thread_getspecific` gives what the thread has set. -/
theorem fetched_right {tcb : ℕ → LocalKey} {n : ℕ} {isLive : Bool} {v : Ptr}
    (hs : SlotRight n isLive d (keys key)) (hk : KeptRight n v (tcb key)) (hn : n < 2 ^ 31) :
    fetched keys tcb key = ⟨BitVec.ofNat 32 n, v⟩ := by
  rw [fetched, hs.generation]
  split
  · rename_i hne
    rw [hk.eq_zero hne]
  · rename_i heq
    have hgen := not_not.mp heq
    rw [← hgen, ← hk.value_eq hn hgen]

end Slots

variable [DecidableEq ι]

def KeptsRight (log : List (Event ι)) (locals : ι → Local) : Prop :=
  ∀ t k, KeptRight (creations k log) (lastSet t k log) ((locals t).tcb k)

structure Right (c : Conf ι (Shared ι) Local) : Prop where
  slots : SlotsRight c.shared
  kept : KeptsRight c.shared.log c.locals
  bound : ∀ k, live k c.shared.log = true → k < pthreadKeysMax
  log : Throughout AccessRight c.shared.log

theorem right_start : Right (start (ι := ι)) where
  slots _ := ⟨rfl, rfl, nofun⟩
  kept _ _ := .current 0 0
  bound _ := nofun
  log := trivial

section Step

variable {t : ι} {a : Act} {s s' : Shared ι} {locals : ι → Local} {l' : Local}

theorem keptsRight_created (h : KeptsRight log locals) :
    KeptsRight (.created key d :: log) locals := by
  intro u k
  by_cases hk : key = k
  · simp only [creations, lastSet, if_pos hk, Nat.add_comm 1]
    exact (h u k).next
  · simpa [creations, lastSet, if_neg hk] using h u k

/-- A thread changes what it keeps for one slot, and the log says what it has set there. -/
theorem keptsRight_update {v : Ptr} {x : LocalKey} {pc : Pc} (hkept : KeptsRight log locals)
    (hcreations : ∀ k, creations k (e :: log) = creations k log)
    (hlast : ∀ u k, lastSet u k (e :: log) = if t = u ∧ key = k then v else lastSet u k log)
    (hx : KeptRight (creations key log) v x) :
    KeptsRight (e :: log)
      (update locals t ⟨update (locals t).tcb key x, pc⟩) := by
  intro u k
  rw [hcreations, hlast]
  by_cases hu : t = u
  · subst hu
    by_cases hk : key = k
    · subst hk
      simpa using hx
    · simpa [update_of_ne (Ne.symm hk), hk] using hkept t k
  · simpa [update_of_ne (Ne.symm hu), hu] using hkept u k

theorem right_of_trans (hr : Right ⟨s, locals⟩) (hfew : Few s'.log)
    (h : Trans t a s (locals t) s' l') : Right ⟨s', update locals t l'⟩ := by
  cases h with
  | move pc' _ =>
    refine ⟨hr.slots, ?_, hr.bound, hr.log⟩
    exact (forall_update_iff locals fun u l =>
      ∀ k, KeptRight (creations k s.log) (lastSet u k s.log) (l.tcb k)).mpr
        ⟨hr.kept t, fun u _ => hr.kept u⟩
  | created key d hlt hfree _ =>
    rw [update_eq_self]
    refine ⟨slotsRight_created hr.slots, keptsRight_created hr.kept, fun k hk => ?_, ?_, hr.log⟩
    · rw [live] at hk
      split at hk
      · rename_i heq
        exact heq ▸ hlt
      · exact hr.bound k hk
    · exact (hr.slots key).used.symm.trans hfree
  | deleted key _ _ _ =>
    rw [update_eq_self]
    refine ⟨slotsRight_deleted hr.slots, hr.kept, fun k hk => ?_, trivial, hr.log⟩
    rw [live] at hk
    split at hk
    · cases hk
    · exact hr.bound k hk
  | set key value _ =>
    refine ⟨hr.slots, ?_, hr.bound, trivial, hr.log⟩
    refine keptsRight_update hr.kept (fun _ => rfl) (fun _ _ => rfl) ?_
    rw [(hr.slots key).generation]
    exact .current _ _
  | got key hused _ =>
    rw [fetched_right (hr.slots key) (hr.kept t key) (hfew.of_cons key)]
    refine ⟨hr.slots, ?_, hr.bound, ⟨?_, rfl⟩, hr.log⟩
    · refine keptsRight_update hr.kept (fun _ => rfl) (fun u k => ?_) (.current _ _)
      -- what was set is not changed by looking at it
      split
      · rename_i heq
        rw [← heq.1, ← heq.2]
        rfl
      · rfl
    · exact (hr.slots key).used.symm.trans hused
  | destruct it i d _ =>
    refine ⟨hr.slots, ?_, hr.bound, trivial, hr.log⟩
    exact keptsRight_update hr.kept (fun _ => rfl) (fun _ _ => rfl) (hr.kept t i).cleared

end Step

/-! ### The exit of a thread -/

/-- The destructor that the thread is about to call is the right one. -/
def CallRight (t : ι) (log : List (Event ι)) (l : Local) : Prop :=
  ∀ it i d, l.pc = .call it i d → (l.tcb i).value ≠ 0 ∧ live i log = true ∧
    (l.tcb i).value = lastSet t i log ∧ d = destructorOf i log

structure ExitRight (t : ι) (c : Conf ι (Shared ι) Local) : Prop where
  call : CallRight t c.shared.log (c.locals t)
  log : Throughout (DestructorRight t) c.shared.log

theorem callRight_of_not_call {t : ι} {l : Local} (h : ∀ it i d, l.pc ≠ .call it i d) :
    CallRight t log l :=
  fun it i d hpc => absurd hpc (h it i d)

/-- The slot that is looked at is that of a key for which the thread has set a value. -/
theorem callRight_check {t : ι} {s : Shared ι} {l : Local} {pc' : Pc} (hs : SlotsRight s)
    (hk : ∀ k, KeptRight (creations k s.log) (lastSet t k s.log) (l.tcb k)) (hfew : Few s.log)
    (hpc : ∀ it i d, pc' = .call it i d → pc' = checkSlot s.keys l.tcb it i) :
    CallRight t s.log { l with pc := pc' } := by
  intro it i d hcall
  have hcheck := (hpc it i d hcall).symm.trans hcall
  rw [checkSlot] at hcheck
  split_ifs at hcheck with hskip hnull
  · exact absurd hcheck (nextSlot_ne_call it i it i d)
  · exact absurd hcheck (nextSlot_ne_call it i it i d)
  push Not at hskip
  obtain ⟨hused, hgen, hvalue⟩ := hskip
  have hlive : live i s.log = true := (hs i).used ▸ Bool.of_not_eq_false hused
  cases hcheck
  refine ⟨hvalue, hlive, ?_, (hs i).destructor hlive⟩
  exact (hk i).value_eq (hfew i) (hgen.symm.trans (hs i).generation)

/-- Events that leave alone the keys of the slots and what the thread has set. -/
theorem CallRight.cons {t : ι} {l : Local} (h : CallRight t log l)
    (hlive : ∀ k, live k (e :: log) = live k log)
    (hd : ∀ k, destructorOf k (e :: log) = destructorOf k log)
    (hlast : ∀ k, lastSet t k (e :: log) = lastSet t k log) : CallRight t (e :: log) l := by
  intro it i d hpc
  rw [hlive, hd, hlast]
  exact h it i d hpc

/-- A slot of a key is not given to another. -/
theorem CallRight.created {t : ι} {l : Local} (h : CallRight t log l) (hfree : live key log = false)
    : CallRight t (.created key d :: log) l := by
  intro it i d' hpc
  have hright := h it i d' hpc
  have hne : key ≠ i := by
    rintro rfl
    exact absurd (hfree.symm.trans hright.2.1) Bool.false_ne_true
  simpa [live, lastSet, destructorOf, if_neg hne] using hright

section ExitStep

variable {t u : ι} {a : Act} {s s' : Shared ι} {locals : ι → Local} {l' : Local}

theorem CallRight.update (hself : u = t → CallRight u log l')
    (hother : u ≠ t → CallRight u log (locals u)) : CallRight u log (update locals t l' u) := by
  rcases eq_or_ne u t with rfl | hu
  · simpa using hself rfl
  · simpa [update_of_ne hu] using hother hu

theorem exitRight_of_trans (hr : Right ⟨s, locals⟩) (he : ExitRight u ⟨s, locals⟩)
    (hfew : Few s.log) (hkeep : KeepsKeys u t a ⟨s, locals⟩)
    (h : Trans t a s (locals t) s' l') : ExitRight u ⟨s', update locals t l'⟩ := by
  cases h with
  | move pc' hpc =>
    refine ⟨.update (fun hu => ?_) fun _ => he.call, he.log⟩
    subst hu
    exact callRight_check hr.slots (hr.kept u) hfew hpc
  | created key d _ hfree _ =>
    rw [update_eq_self]
    exact ⟨he.call.created ((hr.slots key).used.symm.trans hfree), trivial, he.log⟩
  | deleted key ha hd _ =>
    rw [update_eq_self]
    subst ha
    refine ⟨callRight_of_not_call fun it i d hpc => ?_, trivial, he.log⟩
    have hexit := hkeep hd
    rw [hpc] at hexit
    cases hexit
  | set key value hpc =>
    refine ⟨.update (fun _ => callRight_of_not_call (not_call_of_calls hpc)) fun hu => ?_,
      trivial, he.log⟩
    exact he.call.cons (fun _ => rfl) (fun _ => rfl) fun k => if_neg fun heq => hu heq.1.symm
  | got key _ hpc =>
    refine ⟨.update (fun _ => callRight_of_not_call (not_call_of_calls hpc)) fun _ => ?_,
      trivial, he.log⟩
    exact he.call.cons (fun _ => rfl) (fun _ => rfl) fun _ => rfl
  | destruct it i d hpc =>
    refine ⟨.update (fun _ => callRight_of_not_call nofun) fun hu => ?_, ?_, he.log⟩
    · exact he.call.cons (fun _ => rfl) (fun _ => rfl) fun k => if_neg fun heq => hu heq.1.symm
    · rintro rfl
      exact he.call it i d hpc

end ExitStep

/-! ### Runs -/

section
omit [DecidableEq ι]

theorem log_of_trans {t : ι} {a : Act} {s s' : Shared ι} {l l' : Local}
    (h : Trans t a s l s' l') : s'.log = s.log ∨ ∃ e, s'.log = e :: s.log := by
  cases h with
  | move => exact .inl rfl
  | _ => exact .inr ⟨_, rfl⟩

theorem Few.of_trans {t : ι} {a : Act} {s s' : Shared ι} {l l' : Local} (hfew : Few s'.log)
    (h : Trans t a s l s' l') : Few s.log := by
  obtain heq | ⟨e, heq⟩ := log_of_trans h
  · exact heq ▸ hfew
  · exact Few.of_cons (heq ▸ hfew)

end

variable {c : Conf ι (Shared ι) Local}

theorem right_step {t : ι} {a : Act} {c' : Conf ι (Shared ι) Local}
    (hr : Few c.shared.log → Right c) (h : program.step t a c = some c') :
    Few c'.shared.log → Right c' := by
  obtain ⟨s', l', hprogram, rfl⟩ := Program.step_eq_some.mp h
  have htrans := program_trans hprogram
  exact fun hfew => right_of_trans (hr (hfew.of_trans htrans)) hfew htrans

theorem exitRight_step {t u : ι} {a : Act} {c' : Conf ι (Shared ι) Local}
    (he : Few c.shared.log → Right c ∧ ExitRight u c) (hkeep : KeepsKeys u t a c)
    (h : program.step t a c = some c') : Few c'.shared.log → Right c' ∧ ExitRight u c' := by
  obtain ⟨s', l', hprogram, rfl⟩ := Program.step_eq_some.mp h
  have htrans := program_trans hprogram
  intro hfew'
  have hfew := hfew'.of_trans htrans
  obtain ⟨hr, hexit⟩ := he hfew
  exact ⟨right_of_trans hr hfew' htrans, exitRight_of_trans hr hexit hfew hkeep htrans⟩

/-- `thread_getspecific` does not panic for a key, and gives what the thread has set. -/
theorem step_get (hr : Right c) (hfew : Few c.shared.log) {t : ι} {k : ℕ}
    (hlive : live k c.shared.log = true) (hpc : (c.locals t).pc.calls = true) :
    ∃ c', program.step t (.get k) c = some c' ∧
      c'.shared.log = .got t k (lastSet t k c.shared.log) :: c.shared.log := by
  have hok : ¬(pthreadKeysMax ≤ k ∨ (c.shared.keys k).used = false) := by
    rw [(hr.slots k).used, hlive, not_or]
    exact ⟨not_le.mpr (hr.bound k hlive), nofun⟩
  have hmake : program t (.get k) c.shared (c.locals t) =
      makeCall t (.get k) c.shared (c.locals t) := by
    unfold program
    split <;> simp_all
  have hget := fetched_right (hr.slots k) (hr.kept t k) (hfew k)
  have hprogram : program t (.get k) c.shared (c.locals t) =
      some (c.shared.logs (.got t k (lastSet t k c.shared.log)),
        ⟨update (c.locals t).tcb k
          ⟨BitVec.ofNat 32 (creations k c.shared.log), lastSet t k c.shared.log⟩,
          (c.locals t).pc⟩) := by
    simp [hmake, makeCall, threadGetspecific_eq, if_neg hok, hget]
  exact ⟨_, Program.step_eq_some.mpr ⟨_, _, hprogram, rfl⟩, rfl⟩

/-- What is got is what was set, two keys never have one slot, and destructors are called with
what was set, unless a key is deleted during the exit. -/
theorem thread_keys_right (sched : List (ι × Act)) (c : Conf ι (Shared ι) Local)
    (hrun : program.exec sched start = some c) (hfew : Few c.shared.log) :
    Throughout AccessRight c.shared.log ∧
      (∀ t k, live k c.shared.log = true → (c.locals t).pc.calls = true →
        ∃ c', program.step t (.get k) c = some c' ∧
          c'.shared.log = .got t k (lastSet t k c.shared.log) :: c.shared.log) ∧
      ∀ t, program.AllSteps (KeepsKeys t) sched start →
        Throughout (DestructorRight t) c.shared.log := by
  have hr := Program.exec_invariant (I := fun c => Few c.shared.log → Right c)
    (fun _ _ _ _ => right_step) (fun _ => right_start) hrun hfew
  refine ⟨hr.log, fun t k => step_get hr hfew, fun t hkeep => ?_⟩
  have hexit : Few c.shared.log → Right c ∧ ExitRight t c :=
    Program.AllSteps.invariant (I := fun c => Few c.shared.log → Right c ∧ ExitRight t c)
      (fun _ _ _ _ => exitRight_step) (fun _ => ⟨right_start, callRight_of_not_call nofun, trivial⟩)
      hkeep hrun
  exact (hexit hfew).2.log

/-- The slot of a deleted key is given to another, and the thread that had set a value for the
first finds none for the second. It sets one again, and exits. -/
def reuse : List (Bool × Act) :=
  [(true, .create 5), (true, .set 0 7), (false, .get 0), (false, .delete 0), (false, .create 6),
    (true, .get 0), (true, .set 0 8), (true, .exit), (true, .step), (true, .step)]

def reuseLog : List (Event Bool) :=
  [.destructed true 0 8 6, .set true 0 8, .got true 0 0, .created 0 6, .deleted 0,
    .got false 0 0, .set true 0 7, .created 0 5]

theorem thread_keys_right_reuse : ∃ c, program.exec reuse start = some c ∧
    c.shared.log = reuseLog ∧ Few c.shared.log ∧
    program.AllSteps (KeepsKeys true) reuse start ∧
    Throughout AccessRight c.shared.log ∧ Throughout (DestructorRight true) c.shared.log := by
  have hfew : Few reuseLog := by
    intro k
    simp only [reuseLog, creations]
    split <;> decide
  have hkeep : program.AllSteps (KeepsKeys true) reuse start := by decide
  have h := thread_keys_right reuse _ rfl hfew
  exact ⟨_, rfl, rfl, hfew, hkeep, h.1, h.2.2 true hkeep⟩

end Hzlibc.Internal.Keys
