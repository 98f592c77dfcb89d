import Hzlibc.Time.Gmtime
import Hzlibc.Time.Zone

/-!
`localtime_r` and `mktime`.

`localtime_r` adds the offset of the zone to the time and breaks the sum down.
`mktime` adds the fields up and takes an offset off again, but it does not know
the instant yet, and looks the offset up as if the local time were one. The two
are inverse to each other exactly where both lookups give the same offset.

Local times before 1970 are broken down with division that truncates, and give
fields that are negative. Adding up these fields gives the local time back.
-/

namespace Hzlibc.Time

open Calendar Segments

def localtimeR (tz : Option TzFile) (time : ℤ) : Except Stop Tm :=
  if time < 0 ∨ 32500915200 ≤ time then .error .eoverflow
  else
    match tz with
    | none => breakDown time 0 0 utc
    | some data =>
      match getTzData data time with
      | none => .error .undefined
      | some info =>
        breakDown (time + info.gmtOffset) (if info.isDst then 1 else 0) info.gmtOffset
          info.zone

def mktime (tz : Option TzFile) (tm : Tm) : Except Stop (ℤ × Tm) := do
  let normal ← normalise tm
  let (time, tm) ← store normal (if 0 < tm.isdst then { tm with isdst := 1 } else tm)
  match tz with
  | none => return (time, if tm.isdst < 0 then { tm with isdst := -1 } else tm)
  | some data =>
    match getTzData data time with
    | none => .error .undefined
    | some info =>
      return (time - info.gmtOffset, { tm with
        isdst := if tm.isdst < 0 then (if info.isDst then 1 else 0) else tm.isdst
        gmtoff := info.gmtOffset
        zone := info.zone })

/-! ### Adding up what was broken down -/

/-- The fields of a time, added up, give the time back. -/
def Restores (time : ℤ) (tm : Tm) : Prop :=
  ∃ normal, normalise tm = .ok normal ∧ ∀ tm', ∃ tm'', store normal tm' = .ok (time, tm'')

section Restores

variable (isdst gmtoff : ℤ) (zone : List Stdio.Byte)

theorem breakDown_restores_of_nonneg {time : ℤ} (hnonneg : 0 ≤ time) (hmax : time < 34648398848) :
    ∃ tm, breakDown time isdst gmtoff zone = .ok tm ∧ Restores time tm := by
  obtain ⟨civil, rfl, hyear⟩ := CivilTime.exists_seconds_eq hnonneg
  have hmax' : civil.date.year ≤ 3068 := by
    apply Date.year_le
    have hbounds := civil.seconds_bounds
    have hend : yearStart (3068 + 1) = 401402 := by decide
    omega
  refine ⟨_, breakDown_seconds hyear isdst gmtoff zone, civilNormal civil,
    normalise_civilTm hyear (by omega) isdst gmtoff zone, fun tm' => ?_⟩
  exact ⟨_, store_civilNormal hyear tm'⟩

/-- The fields of a time that is `ago` seconds before 1970. -/
def earlyTm (ago : ℤ) : Tm where
  sec := -(ago % 60)
  min := -(ago / 60 % 60)
  hour := -(ago / 60 / 60 % 24)
  mday := -(ago / 86400) + 1
  mon := 0
  year := 70
  wday := daysSinceSunday (-(ago / 86400))
  yday := -(ago / 86400)
  isdst := isdst
  gmtoff := gmtoff
  zone := zone

/-- Before 1970 no length of a year or of a month is taken off. -/
theorem breakDown_neg {ago : ℤ} (hago : 0 ≤ ago) :
    breakDown (-ago) isdst gmtoff zone = .ok (earlyTm isdst gmtoff zone ago) := by
  have hdays : (-ago).tdiv (60 * 60 * 24) = -(ago / 86400) := by
    rw [Int.neg_tdiv, Int.tdiv_eq_ediv_of_nonneg hago]
    rfl
  have hsec : (-ago).tmod 60 = -(ago % 60) := by
    rw [Int.neg_tmod, Int.tmod_eq_emod_of_nonneg hago]
  have hmin : ((-ago).tdiv 60).tmod 60 = -(ago / 60 % 60) := by
    rw [Int.neg_tdiv, Int.neg_tmod, Int.tdiv_eq_ediv_of_nonneg hago,
      Int.tmod_eq_emod_of_nonneg (by omega)]
  have hhour : (((-ago).tdiv 60).tdiv 60).tmod 24 = -(ago / 60 / 60 % 24) := by
    rw [Int.neg_tdiv, Int.neg_tdiv, Int.neg_tmod, Int.tdiv_eq_ediv_of_nonneg hago,
      Int.tdiv_eq_ediv_of_nonneg (by omega), Int.tmod_eq_emod_of_nonneg (by omega)]
  have hyears : walk nextYear daysPerYear daysPerYear_pos 1970 (-(ago / 86400)) =
      .ok (1970, -(ago / 86400)) :=
    walk_of_lt _ (show -(ago / 86400) < 365 by omega)
  have hmonths : walk nextInTable (fun month => (getDaysPerMonthTable 1970)[month])
      (daysPerMonth_pos 1970) january (-(ago / 86400)) = .ok (january, -(ago / 86400)) :=
    walk_of_lt _ (show -(ago / 86400) < 31 by omega)
  simp only [breakDown, hdays, hyears, hmonths, hsec, hmin, hhour, bind, Except.bind, pure,
    Except.pure]
  rfl

theorem restores_earlyTm {ago : ℤ} (hago : 0 ≤ ago) (hmax : ago ≤ 2147483648) :
    Restores (-ago) (earlyTm isdst gmtoff zone ago) := by
  have hlength := monthLength_pos (leapYear 1970) january
  have hhours := toInt_eq (show -2147483648 ≤ -(ago / 60 / 60 % 24) * (60 * 60) by omega)
    (by omega)
  have hminutes := toInt_eq (show -2147483648 ≤ -(ago / 60 % 60) * 60 by omega) (by omega)
  have hmonth := sum_take_eq 1970 january
  have hyear := daysBefore_eq (Int.le_refl 1970)
  rw [monthStart_january] at hmonth
  rw [yearStart_epoch] at hyear
  have hnormal : normalise (earlyTm isdst gmtoff zone ago) = .ok ⟨-(ago % 60), -(ago / 60 % 60),
      -(ago / 60 / 60 % 24), -(ago / 86400) + 1 - 1, january, 1970⟩ :=
    normalise_of_lt rfl rfl (show -(ago % 60) < 60 by omega) (show -(ago / 60 % 60) < 60 by omega)
      (show -(ago / 60 / 60 % 24) < 24 by omega)
      (show -2147483648 ≤ -(ago / 86400) + 1 - 1 by omega)
      (show -(ago / 86400) + 1 ≤ monthLength (leapYear 1970) january by omega)
      (by decide) (by decide)
  refine ⟨_, hnormal, fun tm' => ?_⟩
  simp only [store, hhours, hminutes, hmonth, hyear, bind, Except.bind, pure, Except.pure]
  refine ⟨_, congrArg (fun time => Except.ok (time, _)) ?_⟩
  omega

theorem breakDown_restores {time : ℤ} (hmin : -2147483648 ≤ time) (hmax : time < 34648398848) :
    ∃ tm, breakDown time isdst gmtoff zone = .ok tm ∧ Restores time tm := by
  rcases Int.lt_or_le time 0 with hneg | hnonneg
  · have hearly := breakDown_neg isdst gmtoff zone (show 0 ≤ -time by omega)
    have hrestores := restores_earlyTm isdst gmtoff zone (show 0 ≤ -time by omega) (by omega)
    rw [Int.neg_neg] at hearly hrestores
    exact ⟨_, hearly, hrestores⟩
  · exact breakDown_restores_of_nonneg isdst gmtoff zone hnonneg hmax

end Restores

/-! ### The round trip -/

theorem gmtOffset_range {data : TzFile} {time : ℤ} {info : TzData}
    (h : getTzData data time = some info) :
    -2147483648 ≤ info.gmtOffset ∧ info.gmtOffset < 2147483648 := by
  simp only [getTzData, Option.bind_eq_bind, Option.bind_eq_some_iff] at h
  obtain ⟨_, -, _, -, h⟩ := h
  split at h
  · cases h
  · obtain ⟨entry, -, h⟩ := Option.bind_eq_some_iff.1 h
    cases h
    exact ⟨BitVec.le_toInt entry.utoff, BitVec.toInt_lt⟩

section RoundTrip

variable {data : TzFile} {time : ℤ} {here : TzData}

/-- `mktime` takes off the offset that belongs to the local time. -/
theorem mktime_of_restores {local' : ℤ} {tm : Tm} (h : Restores local' tm) {there : TzData}
    (hthere : getTzData data local' = some there) :
    ∃ tm', mktime (some data) tm = .ok (local' - there.gmtOffset, tm') := by
  obtain ⟨normal, hnormal, hstore⟩ := h
  obtain ⟨tm'', hstore⟩ := hstore (if 0 < tm.isdst then { tm with isdst := 1 } else tm)
  simp only [mktime, hnormal, hstore, hthere, bind, Except.bind, pure, Except.pure]
  exact ⟨_, rfl⟩

theorem mktime_of_restores_none {local' : ℤ} {tm : Tm} (h : Restores local' tm)
    (hthere : getTzData data local' = none) : mktime (some data) tm = .error .undefined := by
  obtain ⟨normal, hnormal, hstore⟩ := h
  obtain ⟨tm'', hstore⟩ := hstore (if 0 < tm.isdst then { tm with isdst := 1 } else tm)
  simp [mktime, hnormal, hstore, hthere, bind, Except.bind]

theorem localtimeR_restores (hnonneg : 0 ≤ time) (hmax : time < 32500915200)
    (hhere : getTzData data time = some here) :
    ∃ tm, localtimeR (some data) time = .ok tm ∧ Restores (time + here.gmtOffset) tm := by
  obtain ⟨hlow, hhigh⟩ := gmtOffset_range hhere
  simp only [localtimeR, hhere]
  rw [if_neg (by omega)]
  exact breakDown_restores _ _ _ (by omega) (by omega)

theorem roundTrip_iff (hnonneg : 0 ≤ time) (hmax : time < 32500915200) :
    (∃ tm tm', localtimeR (some data) time = .ok tm ∧ mktime (some data) tm = .ok (time, tm')) ↔
      ∃ here there, getTzData data time = some here ∧
        getTzData data (time + here.gmtOffset) = some there ∧
        there.gmtOffset = here.gmtOffset := by
  constructor
  · rintro ⟨tm, tm', hlocal, hmktime⟩
    rcases hhere : getTzData data time with _ | here
    · rw [localtimeR, if_neg (by omega), hhere] at hlocal
      cases hlocal
    · obtain ⟨tm₁, hlocal₁, hrestores⟩ := localtimeR_restores hnonneg hmax hhere
      cases hlocal.symm.trans hlocal₁
      rcases hthere : getTzData data (time + here.gmtOffset) with _ | there
      · rw [mktime_of_restores_none hrestores hthere] at hmktime
        cases hmktime
      · obtain ⟨tm₂, hmktime₂⟩ := mktime_of_restores hrestores hthere
        have heq := congrArg Prod.fst (Except.ok.inj (hmktime.symm.trans hmktime₂))
        exact ⟨here, there, rfl, hthere, by dsimp only at heq; omega⟩
  · rintro ⟨here, there, hhere, hthere, hsame⟩
    obtain ⟨tm, hlocal, hrestores⟩ := localtimeR_restores hnonneg hmax hhere
    obtain ⟨tm', hmktime⟩ := mktime_of_restores hrestores hthere
    rw [hsame, Int.add_sub_cancel] at hmktime
    exact ⟨tm, tm', hlocal, hmktime⟩

end RoundTrip

/-- The offset that is looked up, if no offset into the file is cut off. -/
def Block.usedOffset (block : Block) (time : ℤ) : ℤ :=
  (block.describe (block.usedType time)).gmtOffset

/-- `mktime` gives the time back exactly if the offset at the time is also the
one that is found when the local time is taken for an instant. -/
theorem mktime_localtimeR_iff (block : Block) (time : ℤ) (hnonneg : 0 ≤ time)
    (hmax : time < 32500915200) :
    (∃ tm tm', localtimeR (initTimezone block.file) time = .ok tm ∧
        mktime (initTimezone block.file) tm = .ok (time, tm')) ↔
      if 5 * block.transitions.length < 2 ^ 32 then
        block.usedOffset (time + block.usedOffset time) = block.usedOffset time
      else ∃ here there, block.Spells time here ∧
        block.Spells (time + here.gmtOffset) there ∧
        there.gmtOffset = here.gmtOffset := by
  rw [block.initTimezone_file, roundTrip_iff hnonneg hmax]
  simp only [block.getTzData_loaded]
  split
  · rename_i hsmall
    simp [block.readAt_eq hsmall, Block.usedOffset]
  · simp only [block.readAt_eq_some_iff]

/-- A zone with daylight saving time between two transitions. -/
def savingTime : Block :=
  .plain [⟨-18000, 0, 0⟩, ⟨-14400, 1, 4⟩]
    [(0, ⟨0, by decide⟩), (1000000, ⟨1, by decide⟩), (2000000, ⟨0, by decide⟩)]
    ['E', 'S', 'T', 0, 'E', 'D', 'T', 0] (by decide)

theorem mktime_localtimeR_beforeSaving :
    ∃ tm tm', localtimeR (initTimezone savingTime.file) 500000 = .ok tm ∧
      mktime (initTimezone savingTime.file) tm = .ok (500000, tm') := by
  rw [mktime_localtimeR_iff savingTime 500000 (by decide) (by decide), if_pos (by decide)]
  decide

theorem describe_savingTime (index : TypeIndex savingTime.types) :
    (savingTime.describe index).gmtOffset = -18000 ∨
      (savingTime.describe index).gmtOffset = -14400 := by
  obtain ⟨index, hindex⟩ := index
  have hcases : index = 0 ∨ index = 1 := by
    have htwo : index.toNat < 2 := hindex
    bv_omega
  rcases hcases with rfl | rfl
  · exact .inl rfl
  · exact .inr rfl

/-- Some minutes into daylight saving time, the local time is looked up
as an instant before it. No other instant has this local time. -/
theorem mktime_localtimeR_savingTime :
    (∃ tm tm', localtimeR (initTimezone savingTime.file) 1001000 = .ok tm ∧
      mktime (initTimezone savingTime.file) tm = .ok (1004600, tm')) ∧
      (∀ time, time + (savingTime.describe (savingTime.typeAt time)).gmtOffset =
        1001000 + (savingTime.describe (savingTime.typeAt 1001000)).gmtOffset → time = 1001000) ∧
      (∀ time, time + savingTime.usedOffset time = 1001000 + savingTime.usedOffset 1001000 →
        time = 1001000) := by
  have hunique {offset : ℤ → ℤ} (h : ∀ time, offset time = -18000 ∨ offset time = -14400)
      (hother : offset 1004600 = -14400) (hsame : offset 1001000 = -14400) (time : ℤ)
      (heq : time + offset time = 1001000 + offset 1001000) : time = 1001000 := by
    rcases h time with htype | htype
    · obtain rfl : time = 1004600 := by omega
      omega
    · omega
  refine ⟨?_, ?_, ?_⟩
  · have hhere : getTzData savingTime.loaded 1001000 = some ⟨-14400, true, ['E', 'D', 'T']⟩ := by
      decide
    have hthere : getTzData savingTime.loaded (1001000 + -14400) =
        some ⟨-18000, false, ['E', 'S', 'T']⟩ := by
      decide
    obtain ⟨tm, hlocal, hrestores⟩ := localtimeR_restores (by decide) (by decide) hhere
    obtain ⟨tm', hmktime⟩ := mktime_of_restores hrestores hthere
    exact ⟨tm, tm', hlocal, hmktime⟩
  · exact hunique (fun time => describe_savingTime _) (by decide) (by decide)
  · exact hunique (fun time => describe_savingTime (savingTime.usedType time)) rfl rfl

/-! ### The fields in their ranges -/

/-- The fields are those of a date and a time of day, `seconds` after the start of 1970. -/
def Tm.Denotes (tm : Tm) (seconds : ℤ) : Prop :=
  ∃ time : CivilTime, time.seconds = seconds ∧ tm = civilTm time tm.isdst tm.gmtoff tm.zone

/-- The offset that `localtime_r` adds. -/
def offsetAt (tz : Option TzFile) (time : ℤ) : Option ℤ :=
  match tz with
  | none => some 0
  | some data => (getTzData data time).map TzData.gmtOffset

/-- No date in 1970 has a negative day of the year or time of day. -/
theorem not_denotes_earlyTm (isdst gmtoff : ℤ) (zone : List Stdio.Byte) {ago : ℤ} (hago : 0 < ago) :
    ¬(earlyTm isdst gmtoff zone ago).Denotes (-ago) := by
  rintro ⟨time, hseconds, htm⟩
  have hyear : 70 = time.date.year - 1900 := congrArg Tm.year htm
  have hnonneg : 0 ≤ time.seconds := seconds_nonneg (by omega)
  omega

theorem breakDown_denotes_iff (time isdst gmtoff : ℤ) (zone : List Stdio.Byte) :
    (∃ tm, breakDown time isdst gmtoff zone = .ok tm ∧ tm.Denotes time) ↔ 0 ≤ time := by
  constructor
  · rintro ⟨tm, hok, hdenotes⟩
    by_contra! hneg
    have hearly := breakDown_neg isdst gmtoff zone (show 0 ≤ -time by omega)
    rw [Int.neg_neg] at hearly
    cases hok.symm.trans hearly
    refine not_denotes_earlyTm isdst gmtoff zone (show 0 < -time by omega) ?_
    rwa [Int.neg_neg]
  · intro hnonneg
    obtain ⟨civil, rfl, hyear⟩ := CivilTime.exists_seconds_eq hnonneg
    exact ⟨_, breakDown_seconds hyear isdst gmtoff zone, civil, rfl, rfl⟩

/-- The fields are right exactly if the time that is broken down is not before 1970. -/
theorem brokenDown_denotes_iff (t : ℤ) :
    ((∃ tm, gmtimeR t = .ok tm ∧ tm.Denotes t) ↔ 0 ≤ t ∧ t < 32500915200) ∧
      ∀ tz offset, offsetAt tz t = some offset →
        ((∃ tm, localtimeR tz t = .ok tm ∧ tm.Denotes (t + offset)) ↔
          0 ≤ t ∧ t < 32500915200 ∧ 0 ≤ t + offset) := by
  constructor
  · unfold gmtimeR
    split
    · simp
      omega
    · rw [breakDown_denotes_iff]
      omega
  · intro tz offset hoffset
    unfold localtimeR
    split
    · simp
      omega
    · rcases tz with _ | data
      · obtain rfl := Option.some.inj hoffset
        rw [Int.add_zero, breakDown_denotes_iff]
        omega
      · obtain ⟨info, hinfo, rfl⟩ := Option.map_eq_some_iff.1 hoffset
        simp only [hinfo, breakDown_denotes_iff]
        omega

theorem brokenDown_denotes_savingTime :
    offsetAt (some savingTime.loaded) 1001000 = some (-14400) ∧
      ∃ tm, localtimeR (some savingTime.loaded) 1001000 = .ok tm ∧ tm.Denotes 986600 := by
  have hoffset : offsetAt (some savingTime.loaded) 1001000 = some (-14400) := by decide
  exact ⟨hoffset, ((brokenDown_denotes_iff 1001000).2 _ _ hoffset).2 (by decide)⟩

/-- One second before 1970, and the first second of it in a zone to the west. -/
theorem brokenDown_before1970 :
    gmtimeR (-1) = .ok ⟨-1, 0, 0, 1, 0, 70, 4, 0, 0, 0, utc⟩ ∧
      localtimeR (some savingTime.loaded) 0 =
        .ok ⟨0, 0, -5, 1, 0, 70, 4, 0, 0, -18000, ['E', 'S', 'T']⟩ := by
  have hinfo : getTzData savingTime.loaded 0 = some ⟨-18000, false, ['E', 'S', 'T']⟩ := by decide
  constructor
  · exact breakDown_neg 0 0 utc (show (0 : ℤ) ≤ 1 by decide)
  · exact breakDown_neg 0 (-18000) ['E', 'S', 'T'] (show (0 : ℤ) ≤ 18000 by decide)

/-! ### Fields out of their ranges -/

/-- What is stored is in its ranges only if every field was carried up. -/
theorem carriesUp_of_denotes {tm tm' stored : Tm} {normal : Normal}
    {time seconds isdst gmtoff : ℤ} {zone : List Stdio.Byte} (hint : tm.IsInt)
    (hnormal : normalise tm = .ok normal) (hstore : store normal tm' = .ok (time, stored))
    (h : { stored with isdst := isdst, gmtoff := gmtoff, zone := zone : Tm }.Denotes seconds) :
    tm.CarriesUp ∧ tm.Fits := by
  simp [store, bind_eq_ok, pure, Except.pure] at hstore
  obtain ⟨_, -, _, -, -, rfl⟩ := hstore
  obtain ⟨civil, -, htm⟩ := h
  have hsec : normal.sec = civil.second := congrArg Tm.sec htm
  have hmin : normal.min = civil.minute := congrArg Tm.min htm
  have hhour : normal.hour = civil.hour := congrArg Tm.hour htm
  have hday : normal.day + 1 = civil.date.day := congrArg Tm.mday htm
  have hone := civil.date.one_le_day
  exact carriesUp_of_normalise hint hnormal (hsec ▸ civil.second_mem.1) (hmin ▸ civil.minute_mem.1)
    (hhour ▸ civil.hour_mem.1) (by omega)

/-- Both functions only carry upwards. They are right exactly if no field is
negative after the carry into it, and none leaves the range of an `int`. -/
theorem addedUp_iff (tm : Tm) (hint : tm.IsInt) (hinstant : 0 ≤ tm.instant)
    (hmax : tm.instant < 32503680000) :
    ((∃ tm', timegm tm = .ok (tm.instant, tm') ∧ tm'.Denotes tm.instant) ↔
        tm.CarriesUp ∧ tm.Fits) ∧
      ((∃ tm', mktime none tm = .ok (tm.instant, tm') ∧ tm'.Denotes tm.instant) ↔
        tm.CarriesUp ∧ tm.Fits) := by
  refine ⟨⟨?_, ?_⟩, ?_, ?_⟩
  · rintro ⟨tm', hok, hdenotes⟩
    simp only [timegm, bind_eq_ok, Prod.exists, pure, Except.pure, Except.ok.injEq,
      Prod.mk.injEq] at hok
    obtain ⟨normal, hnormal, time, stored, hstore, -, rfl⟩ := hok
    exact carriesUp_of_denotes hint hnormal hstore hdenotes
  · rintro ⟨hup, hfits⟩
    obtain ⟨time, hnormal, hyear, hseconds⟩ := normalise_ok hint hup hfits hinstant hmax
    rw [← hseconds]
    exact ⟨_, timegm_of_normalise hyear hnormal, time, rfl, rfl⟩
  · rintro ⟨tm', hok, hdenotes⟩
    simp only [mktime, bind_eq_ok, Prod.exists, pure, Except.pure, Except.ok.injEq,
      Prod.mk.injEq] at hok
    obtain ⟨normal, hnormal, time, stored, hstore, -, rfl⟩ := hok
    split at hdenotes
    all_goals exact carriesUp_of_denotes hint hnormal hstore hdenotes
  · rintro ⟨hup, hfits⟩
    obtain ⟨time, hnormal, hyear, hseconds⟩ := normalise_ok hint hup hfits hinstant hmax
    simp only [mktime, hnormal, store_civilNormal hyear, bind, Except.bind, pure, Except.pure,
      hseconds]
    refine ⟨_, rfl, time, hseconds, ?_⟩
    split_ifs <;> rfl

theorem addedUp_overfull :
    ∃ tm, mktime none overfull = .ok (31536000, tm) ∧ tm.Denotes 31536000 := by
  have hup : overfull.CarriesUp := ⟨by decide, by decide, by decide, by decide, by decide⟩
  exact (addedUp_iff overfull (by decide) (by decide) (by decide)).2.2 ⟨hup, by decide⟩

/-- The first of December 1999, as of the month before January. -/
def monthBefore : Tm := ⟨0, 0, 0, 1, -1, 100, 0, 0, 0, 0, utc⟩

/-- The table of the months is read in front of its start. -/
theorem addedUp_monthBefore :
    monthBefore.instant = 944006400 ∧ timegm monthBefore = .error .undefined ∧
      mktime none monthBefore = .error .undefined := by
  have hnormal : normalise monthBefore = .error .undefined := by
    simp [normalise, monthBefore, toInt, carry_of_lt, monthIndex, bind, Except.bind]
  refine ⟨by decide, ?_, ?_⟩
  · simp [timegm, hnormal, bind, Except.bind]
  · simp [mktime, hnormal, bind, Except.bind]

end Hzlibc.Time
