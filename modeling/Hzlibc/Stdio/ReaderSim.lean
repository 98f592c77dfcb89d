import Hzlibc.Stdio.Scan

/-!
Streams that answer alike.

The functions over a `Reader` learn about their input only through it, and the
scanner only by looking ahead, by consuming and by matching words. Two readers
that answer alike on related states therefore lead all of them to the same
results and the same stores. There is one lemma for each function, and each is
proved by the rules for the constructs the function is built from.
-/

namespace Hzlibc.Stdio

open Effect

variable {S T F α : Type} {R : S → T → Prop} {src : Source S} {src' : Source T}

/-! ### Two readers -/

/-- The two readers answer alike and keep `R`. -/
structure Reader.Respects (R : S → T → Prop) (r : Reader S) (r' : Reader T) : Prop where
  read : ∀ size, Prog.Sim R (r.read size) (r'.read size)
  ungetc : ∀ ch, Prog.Sim R (r.ungetc ch) (r'.ungetc ch)

namespace Reader

variable {r : Reader S} {r' : Reader T} (h : r.Respects R r')
include h

theorem fgetc_sim : Prog.Sim R r.fgetc r'.fgetc :=
  (h.read 1).bind fun _ => .ite (.pure _) (.pure _)

theorem freadLoop_sim (size left : ℕ) (items : Items) :
    Prog.Sim R (r.freadLoop size left items) (r'.freadLoop size left items) := by
  induction left generalizing items with
  | zero => exact .pure _
  | succ left ih => exact (h.read size).bind fun _ => .ite (.pure _) (ih _)

theorem fread_sim (size count : ℕ) : Prog.Sim R (r.fread size count) (r'.fread size count) :=
  .ite (.pure _) (freadLoop_sim h size count _)

theorem fgetsLoop_sim (bounded : Bool) (left : ℕ) (str : List Byte) :
    Prog.Sim R (r.fgetsLoop bounded left str) (r'.fgetsLoop bounded left str) := by
  induction left generalizing str with
  | zero => exact .ite (.pure _) (.leave _)
  | succ left ih =>
    refine (fgetc_sim h).bind fun c => .ite (.ite (.pure _) (.pure _)) ?_
    exact .ite (.pure _) (ih _)

theorem fgets_sim (count : ℤ) : Prog.Sim R (r.fgets count) (r'.fgets count) :=
  .ite (.pure _) (.ite (fgetsLoop_sim h _ _ _) (fgetsLoop_sim h _ _ _))

theorem lookAhead_sim : Prog.Sim R r.lookAhead r'.lookAhead :=
  (h.read 1).bind fun _ => .ite (.pure 0) ((h.ungetc _).bind fun _ => .pure _)

theorem consume_sim : Prog.Sim R r.consume r'.consume :=
  (h.read 1).bind fun _ => .pure ()

theorem giveBack_sim (buf : List Byte) : Prog.Sim R (r.giveBack buf) (r'.giveBack buf) := by
  induction buf with
  | nil => exact .pure ()
  | cons c buf ih => exact (h.ungetc _).bind fun _ => .ite ih (.leave _)

theorem equalLoop_sim (str buf : List Byte) :
    Prog.Sim R (r.equalLoop str buf) (r'.equalLoop str buf) := by
  induction str generalizing buf with
  | nil => exact .pure true
  | cons c str ih =>
    exact (lookAhead_sim h).bind fun _ => .ite ((consume_sim h).bind fun _ => ih _)
      ((giveBack_sim h buf).bind fun _ => .pure false)

end Reader

/-- The words that stand for a number. -/
def Scan.words : List (List Byte) :=
  [['i', 'n', 'f', 'i', 'n', 'i', 't', 'y'], ['i', 'n', 'f'], ['n', 'a', 'n']]

/-- The two sources answer alike and keep `R`. -/
structure Source.Respects (R : S → T → Prop) (src : Source S) (src' : Source T) : Prop where
  lookAhead : Prog.Sim R src.lookAhead src'.lookAhead
  consume : Prog.Sim R src.consume src'.consume
  consumeIfStrEqual : ∀ str ∈ Scan.words,
    Prog.Sim R (src.consumeIfStrEqual str) (src'.consumeIfStrEqual str)

theorem Reader.Respects.source {r : Reader S} {r' : Reader T} (h : r.Respects R r') :
    r.source.Respects R r'.source where
  lookAhead := r.lookAhead_sim h
  consume := r.consume_sim h
  consumeIfStrEqual str _ := r.equalLoop_sim h str []

/-! ### The scanner -/

namespace Scan

/-- Two scans that differ at most in the representation of their input. -/
structure Rel (R : S → T → Prop) (s : Scan S F) (t : Scan T F) : Prop where
  io : R s.io t.io
  consumed : s.consumed = t.consumed
  consumedChars : s.consumedChars = t.consumedChars
  nextArg : s.nextArg = t.nextArg
  stores : s.stores = t.stores

abbrev Like (R : S → T → Prop) (m : M S F α) (n : M T F α) : Prop := Prog.Sim (Rel R) m n

theorem lift_like {m : Prog S Fault α} {n : Prog T Fault α} (h : Prog.Sim R m n) :
    Like R (lift m : M S F α) (lift n) := by
  refine Prog.Sim.mapError _ (h.zoom (fun _ _ hst => hst.io) ?_)
  intro s t io io' hst hio
  exact ⟨hio, hst.consumed, hst.consumedChars, hst.nextArg, hst.stores⟩

/-! ### The state of the scan -/

variable {dest : Option ℕ} {state : State} {width : Option ℤ} {wide : Bool} {lead : Lead}
  {base n : ℕ} {maxWidth : ℤ} {ld : LongDouble F} {value : F} {refuses : Byte → Bool}

theorem ret_like (value : ℤ) : Like R (ret value : M S F α) (ret value) := .leave _

theorem retConsumed_like : Like R (retConsumed : M S F α) retConsumed :=
  (Prog.Sim.gets fun _ _ h => h.consumed).bind ret_like

theorem retConsumedOrEof_like : Like R (retConsumedOrEof : M S F α) retConsumedOrEof :=
  (Prog.Sim.gets fun _ _ h => h.consumed).bind fun _ => ret_like _

theorem store_like (x : Store F) : Like R (store x : M S F Unit) (store x) := by
  refine Prog.Sim.modify fun s t h => ?_
  exact ⟨h.io, h.consumed, h.consumedChars, h.nextArg, by rw [h.stores]⟩

theorem countConsumed_like : Like R (countConsumed : M S F Unit) countConsumed := by
  refine Prog.Sim.modify fun s t h => ?_
  exact ⟨h.io, by rw [h.consumed], h.consumedChars, h.nextArg, h.stores⟩

theorem popDest_like (assign : Bool) : Like R (popDest assign : M S F _) (popDest assign) := by
  refine (Prog.Sim.gets fun _ _ h => h.nextArg).bind fun arg => .ite ?_ (.pure _)
  refine Prog.Sim.bind (.modify fun s t h => ?_) fun _ => .pure _
  exact ⟨h.io, h.consumed, h.consumedChars, by rw [h.nextArg], h.stores⟩

theorem writeToDest_like (c : Byte) :
    Like R (writeToDest wide dest c : M S F Unit) (writeToDest wide dest c) := by
  cases dest with
  | none => exact .pure ()
  | some arg => exact store_like _

theorem writeIntToDest_like (value : BitVec 64) :
    Like R (writeIntToDest dest state value : M S F Unit) (writeIntToDest dest state value) := by
  cases dest with
  | none => exact .pure ()
  | some arg =>
    simp only [writeIntToDest]
    cases state.bits with
    | none => exact .leave _
    | some width => exact store_like _

theorem writeFloatToDest_like :
    Like R (writeFloatToDest dest state value : M S F Unit)
      (writeFloatToDest dest state value) := by
  cases dest with
  | none => exact .pure ()
  | some arg => exact .ite (store_like _) (.leave _)

/-! ### Reading characters -/

variable (h : src.Respects R src')
include h

theorem lookAhead_like : Like R (lookAhead src : M S F Byte) (lookAhead src') :=
  lift_like h.lookAhead

theorem consume_like : Like R (consume src : M S F Unit) (consume src') := by
  refine (lift_like h.consume).bind fun _ => .modify fun s t hst => ?_
  exact ⟨hst.io, hst.consumed, by rw [hst.consumedChars], hst.nextArg, hst.stores⟩

/-- The next character is consumed if it passes a test. -/
theorem consumeIf_like {test : Byte → Prop} [DecidablePred test] {taken other : Byte → M S F α}
    {taken' other' : Byte → M T F α} (htaken : ∀ c, Like R (taken c) (taken' c))
    (hother : ∀ c, Like R (other c) (other' c)) :
    Like R (lookAhead src >>= fun c => if test c then consume src >>= fun _ => taken c else other c)
      (lookAhead src' >>= fun c =>
        if test c then consume src' >>= fun _ => taken' c else other' c) :=
  (lookAhead_like h).bind fun c => .ite ((consume_like h).bind fun _ => htaken c) (hother c)

theorem consumeIfStrEqual_like {str : List Byte} (hstr : str ∈ words) :
    Like R (consumeIfStrEqual src str : M S F Bool) (consumeIfStrEqual src' str) := by
  refine (lift_like (h.consumeIfStrEqual str hstr)).bind fun equal => ?_
  refine Prog.Sim.bind (.modify fun s t hst => ?_) fun _ => .pure equal
  exact ⟨hst.io, hst.consumed, by rw [hst.consumedChars], hst.nextArg, hst.stores⟩

theorem skipSpace_like (n : ℕ) : Like R (skipSpace src n : M S F Unit) (skipSpace src' n) := by
  induction n with
  | zero => exact .leave _
  | succ n ih => exact consumeIf_like h (fun _ => ih) fun _ => .pure ()

/-! ### Characters and strings -/

theorem charLoop_like : Like R (charLoop src wide dest n : M S F Unit)
    (charLoop src' wide dest n) := by
  induction n with
  | zero => exact .pure ()
  | succ n ih =>
    exact (lookAhead_like h).bind fun c => .ite retConsumedOrEof_like
      ((consume_like h).bind fun _ => (writeToDest_like c).bind fun _ => ih)

theorem stringLoop_like (used : ℕ) :
    Like R (stringLoop src refuses wide dest n used : M S F ℕ)
      (stringLoop src' refuses wide dest n used) := by
  induction n generalizing used with
  | zero => exact .pure used
  | succ n ih =>
    exact (lookAhead_like h).bind fun c => .ite (.pure used)
      ((consume_like h).bind fun _ => (writeToDest_like c).bind fun _ => ih _)

omit h in
theorem isWide_like : Like R (isWide state : M S F Bool) (isWide state) :=
  .ite (.pure false) (.ite (.pure true) (.leave _))

theorem scanChar_like :
    Like R (scanChar src dest state width : M S F Unit) (scanChar src' dest state width) :=
  isWide_like.bind fun _ => (charLoop_like h).bind fun _ => .ite countConsumed_like (.pure ())

theorem scanString_like : Like R (scanString src refuses dest state width : M S F Unit)
    (scanString src' refuses dest state width) := by
  refine isWide_like.bind fun _ => (stringLoop_like h 0).bind fun used => ?_
  refine (writeToDest_like 0).bind fun _ => .ite countConsumed_like ?_
  refine .ite ?_ (.pure ())
  refine (Prog.Sim.gets fun _ _ hst => hst.consumed).bind fun consumed => .ite ?_ (.pure ())
  exact (lookAhead_like h).bind fun c => .ite (ret_like EOF) (.pure ())

/-! ### Numbers -/

theorem scanSign_like :
    Like R (scanSign src maxWidth base : M S F Lead) (scanSign src' maxWidth base) := by
  refine .ite ?_ (.pure _)
  exact consumeIf_like h (fun _ => .pure _) fun _ =>
    consumeIf_like h (fun _ => .pure _) fun _ => .pure _

theorem lookAheadIsEither_like (a b : Byte) :
    Like R (lookAheadIsEither src a b : M S F Bool) (lookAheadIsEither src' a b) :=
  (lookAhead_like h).bind fun _ => .ite (.pure true)
    ((lookAhead_like h).bind fun _ => .pure _)

theorem consumeMarker_like :
    Like R (consumeMarker src lead base : M S F Lead) (consumeMarker src' lead base) :=
  (consume_like h).bind fun _ => .pure _

theorem scanZero_like {after : Lead → M S F Lead} {after' : Lead → M T F Lead}
    (hafter : ∀ lead, Like R (after lead) (after' lead)) :
    Like R (scanZero src lead after) (scanZero src' lead after') :=
  .ite (consumeIf_like h (fun _ => hafter _) fun _ => .pure lead) (.pure lead)

theorem integerMarker_like :
    Like R (integerMarker src lead : M S F Lead) (integerMarker src' lead) := by
  refine (lookAheadIsEither_like h _ _).bind fun _ => .ite (consumeMarker_like h) ?_
  exact (lookAheadIsEither_like h _ _).bind fun _ => .ite (consumeMarker_like h) (.pure _)

theorem hexMarker_like : Like R (hexMarker src lead : M S F Lead) (hexMarker src' lead) :=
  (lookAheadIsEither_like h _ _).bind fun _ => .ite (consumeMarker_like h) (.pure _)

theorem digitLoop_like (accepts : Byte → Bool) (value : BitVec 64) (used : ℤ) :
    Like R (digitLoop src base accepts n value used : M S F _)
      (digitLoop src' base accepts n value used) := by
  induction n generalizing value used with
  | zero => exact .pure _
  | succ n ih => exact consumeIf_like h (fun _ => ih _ _) fun _ => .pure _

theorem noDigits_like (extra : ℤ) : Like R (noDigits src extra : M S F α) (noDigits src' extra) :=
  .ite ((lookAhead_like h).bind fun _ => .ite (ret_like EOF) retConsumed_like) retConsumed_like

theorem finishInt_like (value : BitVec 64) (used : ℤ) :
    Like R (finishInt src dest state lead value used : M S F Unit)
      (finishInt src' dest state lead value used) := by
  refine .ite ((writeIntToDest_like _).bind fun _ => countConsumed_like) ?_
  exact .ite (noDigits_like h lead.extra) (.pure ())

theorem scanInt_like {marker : Lead → M S F Lead} {marker' : Lead → M T F Lead}
    (hmarker : ∀ lead, Like R (marker lead) (marker' lead)) (accepts : ℕ → Byte → Bool) :
    Like R (scanInt src marker base accepts dest state width)
      (scanInt src' marker' base accepts dest state width) := by
  refine (scanSign_like h).bind fun lead => (hmarker lead).bind fun lead => ?_
  exact (digitLoop_like h _ _ _).bind fun r => finishInt_like h r.1 r.2

theorem wholeLoop_like (index : ℕ) :
    Like R (wholeLoop src ld base n value index) (wholeLoop src' ld base n value index) := by
  induction n generalizing value index with
  | zero => exact .pure _
  | succ n ih => exact consumeIf_like h (fun _ => ih _) fun _ => .pure _

theorem fractionLoop_like (decimal : F) (index : ℕ) :
    Like R (fractionLoop src ld base n value decimal index)
      (fractionLoop src' ld base n value decimal index) := by
  induction n generalizing value decimal index with
  | zero => exact .pure _
  | succ n ih => exact consumeIf_like h (fun _ => ih _ _) fun _ => .pure _

theorem exponentLoop_like (exponent : ℤ) :
    Like R (exponentLoop src n exponent : M S F ℤ) (exponentLoop src' n exponent) := by
  induction n generalizing exponent with
  | zero => exact .pure _
  | succ n ih => exact consumeIf_like h (fun _ => ih _) fun _ => .pure _

theorem scanFraction_like :
    Like R (scanFraction src ld base maxWidth value)
      (scanFraction src' ld base maxWidth value) := by
  refine .ite (consumeIf_like h (fun _ => ?_) fun _ => .pure _) (.pure _)
  exact (fractionLoop_like h _ 0).bind fun r => .pure _

theorem scanExponent_like :
    Like R (scanExponent src ld base maxWidth value)
      (scanExponent src' ld base maxWidth value) := by
  refine .ite (consumeIf_like h (fun _ => ?_) fun _ => .pure _) (.pure _)
  exact (scanSign_like h).bind fun lead => (exponentLoop_like h 0).bind fun e => .pure _

theorem scanFloatDigits_like :
    Like R (scanFloatDigits src ld dest state lead) (scanFloatDigits src' ld dest state lead) := by
  refine (scanZero_like h fun _ => hexMarker_like h).bind fun lead => ?_
  refine (wholeLoop_like h 0).bind fun r => (scanFraction_like h).bind fun r' => ?_
  refine (scanExponent_like h).bind fun value => ?_
  refine .ite (writeFloatToDest_like.bind fun _ => countConsumed_like) ?_
  exact .ite (noDigits_like h lead.extra) (.pure ())

omit h in
theorem finishWord_like :
    Like R (finishWord dest state value : M S F Unit) (finishWord dest state value) :=
  .ite (writeFloatToDest_like.bind fun _ => countConsumed_like) (.pure ())

theorem scanFloat_like :
    Like R (scanFloat src ld dest state width) (scanFloat src' ld dest state width) := by
  refine (scanSign_like h).bind fun lead => ?_
  refine (consumeIfStrEqual_like h (by decide)).bind fun _ => .ite finishWord_like ?_
  refine (consumeIfStrEqual_like h (by decide)).bind fun _ => .ite finishWord_like ?_
  refine (consumeIfStrEqual_like h (by decide)).bind fun _ => .ite finishWord_like ?_
  exact scanFloatDigits_like h

/-! ### The loop over the format -/

theorem convert_like (conv : Conversion) :
    Like R (convert src ld dest width state conv) (convert src' ld dest width state conv) := by
  cases conv with
  | char => exact scanChar_like h
  | string | set => exact scanString_like h
  | openSet => exact ret_like (-1)
  | decimal => exact scanInt_like h Prog.Sim.pure _
  | integer => exact scanInt_like h (fun _ => scanZero_like h fun _ => integerMarker_like h) _
  | octal => exact scanInt_like h (fun _ => scanZero_like h Prog.Sim.pure) _
  | hex | pointer => exact scanInt_like h (fun _ => scanZero_like h fun _ => hexMarker_like h) _
  | count =>
    exact (Prog.Sim.gets fun _ _ hst => hst.consumedChars).bind fun _ => writeIntToDest_like _
  | float => exact scanFloat_like h
  | unknown c => exact .pure ()

theorem execute_like (rounds : ℕ) (d : Directive) :
    Like R (execute src ld rounds d) (execute src' ld rounds d) := by
  cases d with
  | space => exact skipSpace_like h rounds
  | literal c =>
    refine (lookAhead_like h).bind fun _ => .ite (consume_like h) ?_
    exact (lookAhead_like h).bind fun _ => .ite retConsumedOrEof_like retConsumed_like
  | percent => exact (lookAhead_like h).bind fun _ => .ite (consume_like h) retConsumedOrEof_like
  | conversion assign width state conv =>
    have hrest : Like R (popDest assign >>= fun dest => convert src ld dest width state conv)
        (popDest assign >>= fun dest => convert src' ld dest width state conv) :=
      (popDest_like assign).bind fun dest => convert_like h conv
    exact .ite ((skipSpace_like h rounds).bind fun _ => hrest) hrest
  | truncated => exact ret_like EOF

theorem scan_like (ld : LongDouble F) (rounds : ℕ) (directives : List Directive) :
    Like R (scan src ld rounds directives) (scan src' ld rounds directives) :=
  (Prog.Sim.each (execute_like h rounds) directives).bind fun _ =>
    .gets fun _ _ hst => hst.consumed

end Scan

/-- Sources that answer alike make `vfscanf` return and store the same. -/
theorem vfscanf_sim (h : src.Respects R src') (hz : Hz) (ld : LongDouble F) (rounds : ℕ)
    (fmt : List Byte) :
    Prog.Sim R (vfscanf hz ld src rounds fmt) (vfscanf hz ld src' rounds fmt) := by
  intro s t hst
  have hstart : Scan.Rel R (Scan.start s : Scan S F) (Scan.start t) := ⟨hst, rfl, rfl, rfl, rfl⟩
  obtain ⟨hval, hend⟩ := Scan.scan_like h ld rounds (formatDirectives hz fmt) hstart
  simp only [Prog.run, vfscanf] at hval hend ⊢
  revert hval hend
  generalize Scan.scan src ld rounds (formatDirectives hz fmt) (.start s) = a
  generalize Scan.scan src' ld rounds (formatDirectives hz fmt) (.start t) = b
  obtain ⟨ra, sa⟩ := a
  obtain ⟨rb, sb⟩ := b
  rintro (rfl : ra = rb) (hend : Scan.Rel R sa sb)
  -- the three ways a scan ends
  rcases ra with (_ | _) | _
  · exact ⟨by simp [Scan.finish, hend.stores], hend.io⟩
  · exact ⟨rfl, hend.io⟩
  · exact ⟨by simp [Scan.finish, hend.stores], hend.io⟩

end Hzlibc.Stdio
