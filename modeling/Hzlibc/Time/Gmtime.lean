import Hzlibc.Calendar.Gregorian
import Hzlibc.Segments.Walk
import Hzlibc.Stdio.Basic

/-!
`gmtime_r` and `timegm`.

A time is broken down into the fields of a `tm` by two loops that take off the
lengths of years and of months. The way back carries every field into the next
one, takes off the lengths of months, and adds up the days again. Both are done
in the same words by `localtime_r` and `mktime`, so that part is stated once,
as `breakDown` and as `normalise` and `store`.

A `time_t` has 64 bits, and no value here comes near its limits; the `int`
computations are checked where their operands are not known to be small.
-/

namespace Hzlibc.Time

open Calendar Segments Int

/-- Why no value is returned: the error `EOVERFLOW`, or a step without a defined
result, which is an `int` that overflows or an index out of a table. -/
inductive Stop
  | eoverflow
  | undefined
  deriving DecidableEq, Repr

def toInt (value : ℤ) : Except Stop ℤ :=
  if -2147483648 ≤ value ∧ value ≤ 2147483647 then .ok value else .error .undefined

abbrev intMax : ℤ := 2147483647

structure Tm where
  sec : ℤ
  min : ℤ
  hour : ℤ
  mday : ℤ
  mon : ℤ
  year : ℤ
  wday : ℤ
  yday : ℤ
  isdst : ℤ
  gmtoff : ℤ
  zone : List Stdio.Byte
  deriving DecidableEq, Repr

def utc : List Stdio.Byte := ['U', 'T', 'C']

/-! ### Years and months -/

def isLeap (year : ℤ) : Bool :=
  year.tmod 400 == 0 || (year.tmod 4 == 0 && year.tmod 100 != 0)

def daysPerYear (year : ℤ) : ℤ := if isLeap year then 366 else 365

def daysInMonthsNoleap : Vector ℤ 12 := #v[31, 28, 31, 30, 31, 30, 31, 31, 30, 31, 30, 31]

def daysInMonthsLeap : Vector ℤ 12 := #v[31, 29, 31, 30, 31, 30, 31, 31, 30, 31, 30, 31]

def getDaysPerMonthTable (year : ℤ) : Vector ℤ 12 :=
  if isLeap year then daysInMonthsLeap else daysInMonthsNoleap

def daysSinceSunday (days : ℤ) : ℤ :=
  if -4 ≤ days then (days + 4).tmod 7 else (days + 5).tmod 7 + 6

variable (year : ℤ)

theorem isLeap_eq : isLeap year = leapYear year := by
  rw [Bool.eq_iff_iff]
  simp [isLeap, leapYear, ← dvd_iff_tmod_eq_zero]
  omega

theorem daysPerYear_eq : daysPerYear year = yearLength (leapYear year) := by
  rw [daysPerYear, isLeap_eq, yearLength_eq]

variable (month : Fin 12)

theorem daysPerMonth_eq :
    (getDaysPerMonthTable year)[month] = monthLength (leapYear year) month := by
  rw [getDaysPerMonthTable, isLeap_eq]
  cases leapYear year <;> revert month <;> decide

theorem sum_take_eq :
    ((getDaysPerMonthTable year).toList.take month).sum = monthStart (leapYear year) month := by
  rw [getDaysPerMonthTable, isLeap_eq]
  cases leapYear year <;> revert month <;> decide

theorem daysPerYear_pos : 0 < daysPerYear year := by
  unfold daysPerYear
  split <;> decide

theorem daysPerMonth_pos : 0 < (getDaysPerMonthTable year)[month] := by
  rw [daysPerMonth_eq]
  exact monthLength_pos _ _

theorem daysSinceSunday_eq {days : ℤ} (h : 0 ≤ days) : daysSinceSunday days = (days + 4) % 7 := by
  rw [daysSinceSunday, if_pos (by omega), tmod_eq_emod_of_nonneg (by omega)]

/-! ### Breaking down -/

def nextYear (year : ℤ) : Except Stop ℤ := .ok (year + 1)

/-- Goes on in the table of the months, which ends after the last one. -/
def nextInTable (month : Fin 12) : Except Stop (Fin 12) :=
  if h : month.val + 1 < 12 then .ok ⟨month.val + 1, h⟩ else .error .undefined

def breakDown (time isdst gmtoff : ℤ) (zone : List Stdio.Byte) : Except Stop Tm := do
  let daysSinceEpoch := time.tdiv (60 * 60 * 24)
  let (year, yearDay) ← walk nextYear daysPerYear daysPerYear_pos 1970 daysSinceEpoch
  let (month, day) ← walk nextInTable (fun month => (getDaysPerMonthTable year)[month])
    (daysPerMonth_pos year) january yearDay
  return {
    sec := time.tmod 60
    min := (time.tdiv 60).tmod 60
    hour := ((time.tdiv 60).tdiv 60).tmod 24
    mday := day + 1
    mon := (month.val : ℤ)
    year := year - 1900
    wday := daysSinceSunday daysSinceEpoch
    yday := yearDay
    isdst := isdst
    gmtoff := gmtoff
    zone := zone }

def gmtimeR (time : ℤ) : Except Stop Tm :=
  if time < -32500915200 ∨ 32500915200 ≤ time then .error .eoverflow
  else breakDown time 0 0 utc

/-! ### Adding up -/

/-- Adds one to a field, which must not be the greatest `int`. -/
def increment (field : ℤ) : Except Stop ℤ :=
  if field = intMax then .error .eoverflow else .ok (field + 1)

/-- Carries from a field into the next one, of which one is worth `unit`. -/
def carry (unit : ℤ) (hunit : 0 < unit) (high low : ℤ) : Except Stop (ℤ × ℤ) :=
  walk increment (fun _ => unit) (fun _ => hunit) high low

/-- The index into the table of the months. -/
def monthIndex (mon : ℤ) : Except Stop (Fin 12) :=
  if h : 0 ≤ mon ∧ mon < 12 then .ok ⟨mon.toNat, by omega⟩ else .error .undefined

/-- Goes on to the next month, of the next year after the last one. -/
def nextMonth (month : ℤ × Fin 12) : Except Stop (ℤ × Fin 12) :=
  if h : month.2.val + 1 < 12 then .ok (month.1, ⟨month.2.val + 1, h⟩)
  else if month.1 = intMax then .error .undefined
  else .ok (month.1 + 1, january)

def carryDays (year : ℤ) (mon : Fin 12) (day : ℤ) : Except Stop ((ℤ × Fin 12) × ℤ) :=
  walk nextMonth (fun month => (getDaysPerMonthTable month.1)[month.2])
    (fun month => daysPerMonth_pos month.1 month.2) (year, mon) day

/-- The fields after all carries, with the day of the month counted from zero. -/
structure Normal where
  sec : ℤ
  min : ℤ
  hour : ℤ
  day : ℤ
  mon : Fin 12
  year : ℤ

def normalise (tm : Tm) : Except Stop Normal := do
  let day ← toInt (tm.mday - 1)
  let year ← toInt (tm.year + 1900)
  let (min, sec) ← carry 60 (by decide) tm.min tm.sec
  let (hour, min) ← carry 60 (by decide) tm.hour min
  let (day, hour) ← carry 24 (by decide) day hour
  let (year, mon) ← carry 12 (by decide) year tm.mon
  let mon ← monthIndex mon
  let ((year, mon), day) ← carryDays year mon day
  return ⟨sec, min, hour, day, mon, year⟩

/-- The days of the years from 1970 up to the given one. -/
def daysBefore (year : ℤ) : ℤ :=
  ((List.range (year - 1970).toNat).map fun k : ℕ => daysPerYear (1970 + k)).sum

/-- Stores the fields and adds them up. -/
def store (normal : Normal) (tm : Tm) : Except Stop (ℤ × Tm) := do
  let yday := normal.day + ((getDaysPerMonthTable normal.year).toList.take normal.mon).sum
  let daysSinceEpoch := yday + daysBefore normal.year
  let hours ← toInt (normal.hour * (60 * 60))
  let minutes ← toInt (normal.min * 60)
  return (daysSinceEpoch * (60 * 60 * 24) + hours + minutes + normal.sec, { tm with
    sec := normal.sec
    min := normal.min
    hour := normal.hour
    mday := normal.day + 1
    mon := (normal.mon.val : ℤ)
    year := normal.year - 1900
    wday := daysSinceSunday daysSinceEpoch
    yday := yday })

def timegm (tm : Tm) : Except Stop (ℤ × Tm) := do
  let normal ← normalise tm
  let (time, tm) ← store normal tm
  return (time, { tm with isdst := 0, gmtoff := 0, zone := utc })

/-! ### The loops follow the calendar -/

theorem isPlace_years : IsPlace nextYear daysPerYear yearStart := by
  intro year later h
  cases h
  rw [daysPerYear_eq, yearStart_succ]

theorem isPlace_table :
    IsPlace nextInTable (fun month => (getDaysPerMonthTable year)[month])
      (monthStart (leapYear year)) := by
  intro month later h
  unfold nextInTable at h
  split at h
  · cases h
    beta_reduce
    rw [daysPerMonth_eq]
    exact monthStart_succ _ _ _ rfl
  · cases h

theorem isPlace_months :
    IsPlace nextMonth (fun month => (getDaysPerMonthTable month.1)[month.2])
      (fun month => yearStart month.1 + monthStart (leapYear month.1) month.2) := by
  intro month later h
  beta_reduce
  rw [daysPerMonth_eq]
  unfold nextMonth at h
  split at h
  case isTrue hmonth =>
    cases h
    have hstart := monthStart_succ (leapYear month.1) month.2 ⟨_, hmonth⟩ rfl
    dsimp only
    omega
  case isFalse hmonth =>
    split at h
    · cases h
    cases h
    have hlast := monthStart_last (leapYear month.1) month.2 (by omega)
    have hyear := yearStart_succ month.1
    have hzero := monthStart_january (leapYear (month.1 + 1))
    dsimp only
    omega

theorem reaches_year {year : ℤ} (h : 1970 ≤ year) : Reaches nextYear 1970 year := by
  induction year, h using Int.leInduction with
  | base => exact .refl
  | succ year _ ih => exact ih.tail rfl

theorem reaches_month : Reaches nextInTable january month := by
  obtain ⟨n, h⟩ := month
  induction n with
  | zero => exact .refl
  | succ n ih => exact (ih (by omega)).tail (dif_pos h)

theorem daysBefore_eq {year : ℤ} (h : 1970 ≤ year) : daysBefore year = yearStart year := by
  induction year, h using Int.leInduction with
  | base => rw [yearStart_epoch, daysBefore, Int.sub_self, Int.toNat_zero, List.range_zero,
      List.map_nil, List.sum_nil]
  | succ year hyear ih =>
    have hcount : (year + 1 - 1970).toNat = (year - 1970).toNat + 1 := by omega
    have hlast : 1970 + ((year - 1970).toNat : ℤ) = year := by omega
    rw [daysBefore, hcount, List.range_succ, List.map_append, List.sum_append, List.map_singleton,
      List.sum_singleton, hlast, ← daysBefore, ih, daysPerYear_eq, yearStart_succ]

/-! ### Steps that change nothing -/

theorem toInt_eq {value : ℤ} (hlow : -2147483648 ≤ value) (hhigh : value ≤ 2147483647) :
    toInt value = .ok value :=
  if_pos ⟨hlow, hhigh⟩

theorem carry_of_lt {unit low : ℤ} (high : ℤ) (h : low < unit) (hunit : 0 < unit) :
    carry unit hunit high low = .ok (high, low) :=
  walk_of_lt _ h

theorem monthIndex_val : monthIndex month.val = .ok month := by
  rw [monthIndex, dif_pos ⟨by omega, by omega⟩]
  rfl

/-- Fields in their ranges do not carry. They may be negative. -/
theorem normalise_of_lt {tm : Tm} {year : ℤ} {month : Fin 12} (hyear : tm.year + 1900 = year)
    (hmonth : tm.mon = month.val) (hsec : tm.sec < 60) (hmin : tm.min < 60) (hhour : tm.hour < 24)
    (hlow : -2147483648 ≤ tm.mday - 1) (hhigh : tm.mday ≤ monthLength (leapYear year) month)
    (hyearLow : -2147483648 ≤ year) (hyearHigh : year ≤ 2147483647) :
    normalise tm = .ok ⟨tm.sec, tm.min, tm.hour, tm.mday - 1, month, year⟩ := by
  have hlength := monthLength_le (leapYear year) month
  have hday := toInt_eq hlow (by omega)
  have hyear' := toInt_eq hyearLow hyearHigh
  have hsecond := carry_of_lt tm.min hsec (by decide)
  have hminute := carry_of_lt tm.hour hmin (by decide)
  have hhour' := carry_of_lt (tm.mday - 1) hhour (by decide)
  have hmon := carry_of_lt year (show (month.val : ℤ) < 12 by omega) (by decide)
  have hdays : carryDays year month (tm.mday - 1) = .ok _ :=
    walk_of_lt _ ((sub_one_lt_of_le hhigh).trans_eq (daysPerMonth_eq ..).symm)
  simp [normalise, hyear, hmonth, hday, hyear', hsecond, hminute, hhour', hmon, monthIndex_val,
    hdays, bind, Except.bind, pure, Except.pure]

/-! ### A date and a time of day as a `tm` -/

/-- The fields of a date and a time of day. -/
def civilTm (time : CivilTime) (isdst gmtoff : ℤ) (zone : List Stdio.Byte) : Tm where
  sec := time.second
  min := time.minute
  hour := time.hour
  mday := time.date.day
  mon := (time.date.month.val : ℤ)
  year := time.date.year - 1900
  wday := time.date.weekday
  yday := time.date.dayOfYear
  isdst := isdst
  gmtoff := gmtoff
  zone := zone

section Civil

variable {time : CivilTime} (hyear : 1970 ≤ time.date.year)
include hyear

theorem seconds_nonneg : 0 ≤ time.seconds := by
  have hday := Date.dayNumber_nonneg hyear
  have hbounds := time.seconds_bounds
  omega

theorem walk_years :
    walk nextYear daysPerYear daysPerYear_pos 1970 time.date.dayNumber =
      .ok (time.date.year, time.date.dayOfYear) := by
  have hlt := time.date.dayOfYear_lt
  rw [← daysPerYear_eq] at hlt
  have hwalk := walk_of_reaches daysPerYear_pos isPlace_years (reaches_year hyear)
    time.date.dayOfYear_nonneg hlt
  rw [yearStart_epoch, sub_zero] at hwalk
  exact hwalk

omit hyear in
theorem walk_table :
    walk nextInTable (fun month => (getDaysPerMonthTable time.date.year)[month])
      (daysPerMonth_pos time.date.year) january time.date.dayOfYear =
      .ok (time.date.month, time.date.day - 1) := by
  have hlow := time.date.one_le_day
  have hhigh := time.date.day_le
  rw [← daysPerMonth_eq] at hhigh
  have hwalk := walk_of_reaches (daysPerMonth_pos time.date.year) (isPlace_table time.date.year)
    (reaches_month time.date.month) (show 0 ≤ time.date.day - 1 by omega) (by omega)
  rw [monthStart_january, sub_zero] at hwalk
  exact hwalk

/-- The fields are found again from the seconds. -/
theorem breakDown_seconds (isdst gmtoff : ℤ) (zone : List Stdio.Byte) :
    breakDown time.seconds isdst gmtoff zone = .ok (civilTm time isdst gmtoff zone) := by
  have hnonneg := seconds_nonneg hyear
  have hhour := time.hour_mem
  have hminute := time.minute_mem
  have hsecond := time.second_mem
  have hdays : time.seconds.tdiv (60 * 60 * 24) = time.date.dayNumber := by
    rw [tdiv_eq_ediv_of_nonneg hnonneg, CivilTime.seconds]
    omega
  have hsec : time.seconds.tmod 60 = time.second := by
    rw [tmod_eq_emod_of_nonneg hnonneg, CivilTime.seconds]
    omega
  have hminutes : time.seconds.tdiv 60 =
      1440 * time.date.dayNumber + 60 * time.hour + time.minute := by
    rw [tdiv_eq_ediv_of_nonneg hnonneg, CivilTime.seconds]
    omega
  have hday := Date.dayNumber_nonneg hyear
  have hmin : (time.seconds.tdiv 60).tmod 60 = time.minute := by
    rw [tmod_eq_emod_of_nonneg (by omega)]
    omega
  have hhours : (time.seconds.tdiv 60).tdiv 60 = 24 * time.date.dayNumber + time.hour := by
    rw [tdiv_eq_ediv_of_nonneg (by omega)]
    omega
  have hhour' : ((time.seconds.tdiv 60).tdiv 60).tmod 24 = time.hour := by
    rw [tmod_eq_emod_of_nonneg (by omega)]
    omega
  simp only [breakDown, hdays, walk_years hyear, walk_table, hsec, hmin, hhour',
    daysSinceSunday_eq hday, bind, Except.bind, pure, Except.pure, civilTm, Date.weekday,
    sub_add_cancel]

/-! ### The carries -/

/-- The date and the time of day after all carries. -/
def civilNormal (time : CivilTime) : Normal :=
  ⟨time.second, time.minute, time.hour, time.date.day - 1, time.date.month, time.date.year⟩

theorem store_civilNormal (tm : Tm) :
    store (civilNormal time) tm =
      .ok (time.seconds, civilTm time tm.isdst tm.gmtoff tm.zone) := by
  have hhour := time.hour_mem
  have hminute := time.minute_mem
  have hday := Date.dayNumber_nonneg hyear
  have hhours := toInt_eq (show -2147483648 ≤ time.hour * (60 * 60) by omega) (by omega)
  have hminutes := toInt_eq (show -2147483648 ≤ time.minute * 60 by omega) (by omega)
  have hyday : time.date.day - 1 + monthStart (leapYear time.date.year) time.date.month =
      time.date.dayOfYear := by
    rw [Date.dayOfYear, add_comm]
  have hdays : time.date.dayOfYear + yearStart time.date.year = time.date.dayNumber := by
    rw [Date.dayNumber, add_comm]
  have hseconds : time.date.dayNumber * (60 * 60 * 24) + time.hour * (60 * 60) +
      time.minute * 60 + time.second = time.seconds := by
    rw [CivilTime.seconds]
    omega
  simp only [store, civilNormal, sum_take_eq, daysBefore_eq hyear, hyday, hdays, hhours, hminutes,
    bind, Except.bind, pure, Except.pure, hseconds, daysSinceSunday_eq hday, civilTm,
    Date.weekday, sub_add_cancel]

theorem normalise_civilTm (hmax : time.date.year ≤ 2147483647) (isdst gmtoff : ℤ)
    (zone : List Stdio.Byte) :
    normalise (civilTm time isdst gmtoff zone) = .ok (civilNormal time) := by
  have hlow := time.date.one_le_day
  exact normalise_of_lt (sub_add_cancel ..) rfl time.second_mem.2 time.minute_mem.2
    time.hour_mem.2 (show -2147483648 ≤ time.date.day - 1 by omega) time.date.day_le
    (by omega) hmax

end Civil

/-! ### Carrying keeps the number of seconds -/

theorem bind_eq_ok {ε α β : Type} {x : Except ε α} {f : α → Except ε β} {b : β} :
    (x >>= f) = .ok b ↔ ∃ a, x = .ok a ∧ f a = .ok b := by
  cases x with
  | error e | ok a => simp [bind, Except.bind]

theorem toInt_eq_ok {value result : ℤ} (h : toInt value = .ok result) : result = value := by
  unfold toInt at h
  split at h
  · cases h
    rfl
  · cases h

theorem isPlace_units (unit : ℤ) : IsPlace increment (fun _ => unit) (fun high => unit * high) := by
  intro high later hnext
  unfold increment at hnext
  split at hnext
  · cases hnext
  · cases hnext
    exact (mul_add unit high 1).trans (congrArg _ (mul_one unit))

theorem carry_eq_ok {unit high low high' low' : ℤ} {hunit : 0 < unit} (hlow : 0 ≤ low)
    (h : carry unit hunit high low = .ok (high', low')) :
    high' = high + low / unit ∧ low' = low % unit := by
  have hsum := walk_place _ (isPlace_units unit) h
  obtain ⟨hlt, hnonneg⟩ := walk_lt _ h
  have hdiv : low' + unit * (high' - high) = low := by
    rw [Int.mul_sub]
    omega
  obtain ⟨hquotient, hrest⟩ := (Int.ediv_emod_unique hunit).2 ⟨hdiv, hnonneg hlow, hlt⟩
  exact ⟨by omega, hrest.symm⟩

/-- A carry that is not too large succeeds. -/
theorem carry_ok {unit high low : ℤ} (hunit : 0 < unit) (h : high + low / unit ≤ intMax) :
    ∃ r, carry unit hunit high low = .ok r := by
  refine walk_ok _ (unit * intMax + (unit - 1)) (isPlace_units unit) ?_ ?_
  · intro high hend
    refine ⟨_, if_neg ?_⟩
    rintro rfl
    omega
  · have hlow := mul_ediv_add_emod low unit
    have hrest := emod_lt_of_pos low hunit
    have hmax := mul_le_mul_of_nonneg_left h (le_of_lt hunit)
    rw [mul_add] at hmax
    omega

/-- The lower field is in its range after the carry exactly if it was not negative. -/
theorem carry_eq_ok_iff {unit high low high' low' : ℤ} (hunit : 0 < unit)
    (hhigh : high ≤ 2147483647) :
    carry unit hunit high low = .ok (high', low') ∧ 0 ≤ low' ↔
      0 ≤ low ∧ high + low / unit ≤ 2147483647 ∧ high' = high + low / unit ∧
        low' = low % unit := by
  constructor
  · rintro ⟨h, hlow'⟩
    have hlow := nonneg_of_walk _ h hlow'
    obtain ⟨rfl, rfl⟩ := carry_eq_ok hlow h
    refine ⟨hlow, walk_keeps (P := (· ≤ intMax)) _ ?_ h hhigh, rfl, rfl⟩
    intro high later hnext hle
    unfold increment at hnext
    split at hnext
    · cases hnext
    · cases hnext
      omega
  · rintro ⟨hlow, hmax, rfl, rfl⟩
    obtain ⟨⟨high', low'⟩, h⟩ := carry_ok hunit hmax
    obtain ⟨rfl, rfl⟩ := carry_eq_ok hlow h
    exact ⟨h, emod_nonneg _ (ne_of_gt hunit)⟩

theorem monthIndex_eq_ok {mon : ℤ} {month : Fin 12} (h : monthIndex mon = .ok month) :
    (month.val : ℤ) = mon := by
  unfold monthIndex at h
  split at h
  · cases h
    dsimp only
    omega
  · cases h

theorem carryDays_eq_ok {year year' day day' : ℤ} {mon mon' : Fin 12} (hday : 0 ≤ day)
    (h : carryDays year mon day = .ok ((year', mon'), day')) :
    0 ≤ day' ∧ day' < monthLength (leapYear year') mon' ∧
      yearStart year' + monthStart (leapYear year') mon' + day' =
        yearStart year + monthStart (leapYear year) mon + day := by
  obtain ⟨hlt, hnonneg⟩ := walk_lt _ h
  rw [daysPerMonth_eq] at hlt
  have hplace := walk_place _ isPlace_months h
  exact ⟨hnonneg hday, hlt, hplace⟩

/-- The days are carried, if they end before the year 3000. -/
theorem carryDays_ok {year day : ℤ} {mon : Fin 12}
    (h : yearStart year + monthStart (leapYear year) mon + day < 376200) :
    ∃ r, carryDays year mon day = .ok r := by
  refine walk_ok _ 376199 isPlace_months ?_ (le_sub_one_of_lt h)
  intro month hend
  unfold nextMonth
  split
  · exact ⟨_, rfl⟩
  · refine ⟨_, if_neg fun hyear => ?_⟩
    have hlast := yearStart_mono (show 3000 ≤ month.1 by rw [hyear]; decide)
    have hthree : yearStart 3000 = 376200 := by decide
    have hmonth := monthStart_nonneg (leapYear month.1) month.2
    have hlength := daysPerMonth_pos month.1 month.2
    omega

/-- The minutes with those that are carried from the seconds. -/
def Tm.minutes (tm : Tm) : ℤ := tm.min + tm.sec / 60

def Tm.hours (tm : Tm) : ℤ := tm.hour + tm.minutes / 60

/-- The days from the first of the month on. -/
def Tm.days (tm : Tm) : ℤ := tm.mday - 1 + tm.hours / 24

/-- The seconds from the start of 1970 on, with every field added under its sign. -/
def Tm.instant (tm : Tm) : ℤ :=
  86400 * ((Date.firstOfMonth (tm.year + 1900) tm.mon).dayNumber + tm.mday - 1) +
    3600 * tm.hour + 60 * tm.min + tm.sec

theorem Tm.instant_eq (tm : Tm) :
    tm.instant = 86400 * ((Date.firstOfMonth (tm.year + 1900) tm.mon).dayNumber + tm.days) +
      3600 * (tm.hours % 24) + 60 * (tm.minutes % 60) + tm.sec % 60 := by
  simp only [instant, days, hours, minutes]
  omega

/-- No field is negative after the carry into it. -/
structure Tm.CarriesUp (tm : Tm) : Prop where
  sec : 0 ≤ tm.sec
  minutes : 0 ≤ tm.minutes
  hours : 0 ≤ tm.hours
  days : 0 ≤ tm.days
  mon : 0 ≤ tm.mon

theorem normalise_eq_ok {tm : Tm} {normal : Normal} (hup : tm.CarriesUp)
    (hinstant : 0 ≤ tm.instant) (h : normalise tm = .ok normal) :
    ∃ time : CivilTime, normal = civilNormal time ∧ 1970 ≤ time.date.year ∧
      time.seconds = tm.instant := by
  simp [normalise, bind_eq_ok, pure, Except.pure] at h
  obtain ⟨day, hday, year, hyear', min, sec, hcarry, hour, min', hcarry', day', hour', hcarry'',
    year', mon, hmon', month, hmonth, year'', month', day'', hdays, rfl⟩ := h
  obtain rfl := toInt_eq_ok hday
  obtain rfl := toInt_eq_ok hyear'
  obtain ⟨rfl, hsec⟩ := carry_eq_ok hup.sec hcarry
  obtain ⟨rfl, hmin⟩ := carry_eq_ok hup.minutes hcarry'
  obtain ⟨rfl, hhour⟩ := carry_eq_ok hup.hours hcarry''
  obtain ⟨rfl, hmon⟩ := carry_eq_ok hup.mon hmon'
  obtain ⟨hnonneg, hlt, hsum⟩ := carryDays_eq_ok hup.days hdays
  have hfirst : (Date.firstOfMonth (tm.year + 1900) tm.mon).dayNumber =
      yearStart (tm.year + 1900 + tm.mon / 12) +
        monthStart (leapYear (tm.year + 1900 + tm.mon / 12)) month := by
    have hindex := monthIndex_eq_ok hmonth
    have hmonth' : (Date.firstOfMonth (tm.year + 1900) tm.mon).month = month := by
      apply Fin.ext
      change (tm.mon % 12).toNat = month.val
      omega
    rw [Date.dayNumber_firstOfMonth, hmonth']
    rfl
  let time : CivilTime := ⟨⟨year'', month', day'' + 1, by omega, by omega⟩, hour', min', sec,
    by omega, by omega, by omega⟩
  have hseconds : time.seconds = tm.instant := by
    rw [Tm.instant_eq, hfirst]
    simp only [time, CivilTime.seconds, Date.dayNumber, Date.dayOfYear]
    omega
  refine ⟨time, ?_, Date.le_year ?_, hseconds⟩
  · simp [civilNormal, time]
  · have hbounds := time.seconds_bounds
    omega

/-- The fields of a `tm` are numbers of the type `int`. -/
abbrev Tm.IsInt (tm : Tm) : Prop :=
  ∀ field ∈ [tm.sec, tm.min, tm.hour, tm.mday, tm.mon, tm.year],
    -2147483648 ≤ field ∧ field ≤ 2147483647

/-- No field is too large for an `int` after the carry into it. -/
abbrev Tm.Fits (tm : Tm) : Prop :=
  tm.minutes ≤ 2147483647 ∧ tm.hours ≤ 2147483647 ∧ tm.days ≤ 2147483647

section Carries

variable {tm : Tm} (hint : tm.IsInt)
include hint

/-- Fields that are carried up give the date and the time of day of the instant. -/
theorem normalise_ok (hup : tm.CarriesUp) (hfits : tm.Fits) (hinstant : 0 ≤ tm.instant)
    (hmax : tm.instant < 32503680000) :
    ∃ time : CivilTime, normalise tm = .ok (civilNormal time) ∧ 1970 ≤ time.date.year ∧
      time.seconds = tm.instant := by
  simp [Tm.IsInt] at hint
  obtain ⟨-, hmin, hhour, hmday, -, hyear, -⟩ := hint
  obtain ⟨hminutes, hhours, hdays⟩ := hfits
  have hnonneg := hup.days
  have hmon := hup.mon
  rw [Tm.instant_eq] at hmax
  have hbefore : (Date.firstOfMonth (tm.year + 1900) tm.mon).dayNumber + tm.days < 376200 := by
    omega
  have hlast : tm.year + 1900 + tm.mon / 12 ≤ 2999 := by
    have hend : yearStart (2999 + 1) = 376200 := by decide
    exact Date.year_le (show (Date.firstOfMonth (tm.year + 1900) tm.mon).dayNumber < _ by omega)
  have hday : toInt (tm.mday - 1) = .ok (tm.mday - 1) := by
    rw [Tm.days] at hnonneg
    exact toInt_eq (by omega) (by omega)
  have hyear := toInt_eq (show -2147483648 ≤ tm.year + 1900 by omega) (by omega)
  have hsecond : carry 60 (by decide) tm.min tm.sec = .ok (tm.minutes, tm.sec % 60) :=
    ((carry_eq_ok_iff _ hmin.2).2 ⟨hup.sec, hminutes, rfl, rfl⟩).1
  have hminute : carry 60 (by decide) tm.hour tm.minutes = .ok (tm.hours, tm.minutes % 60) :=
    ((carry_eq_ok_iff _ hhour.2).2 ⟨hup.minutes, hhours, rfl, rfl⟩).1
  have hhour' : carry 24 (by decide) (tm.mday - 1) tm.hours = .ok (tm.days, tm.hours % 24) :=
    ((carry_eq_ok_iff _ (by omega)).2 ⟨hup.hours, hdays, rfl, rfl⟩).1
  let first := Date.firstOfMonth (tm.year + 1900) tm.mon
  have hmonth : carry 12 (by decide) (tm.year + 1900) tm.mon = .ok (first.year, first.month) :=
    ((carry_eq_ok_iff _ (by omega)).2 ⟨hmon, by omega, rfl, toNat_of_nonneg (by omega)⟩).1
  obtain ⟨r, hcarried⟩ : ∃ r, carryDays first.year first.month tm.days = .ok r := by
    apply carryDays_ok
    rwa [← Date.dayNumber_firstOfMonth]
  obtain ⟨normal, hnormal⟩ : ∃ normal, normalise tm = .ok normal := by
    simp only [normalise, hday, hyear, hsecond, hminute, hhour', hmonth, monthIndex_val, hcarried,
      bind, Except.bind, pure, Except.pure]
    exact ⟨_, rfl⟩
  obtain ⟨time, rfl, hcivil⟩ := normalise_eq_ok hup hinstant hnormal
  exact ⟨time, hnormal, hcivil⟩

/-- Every field in its range after the carries was carried up. -/
theorem carriesUp_of_normalise {normal : Normal} (h : normalise tm = .ok normal)
    (hsec : 0 ≤ normal.sec) (hmin : 0 ≤ normal.min) (hhour : 0 ≤ normal.hour)
    (hday : 0 ≤ normal.day) : tm.CarriesUp ∧ tm.Fits := by
  simp [Tm.IsInt] at hint
  simp [normalise, bind_eq_ok, pure, Except.pure] at h
  obtain ⟨day, hday', year, hyear, min, sec, hcarry, hour, min', hcarry', day', hour', hcarry'',
    year', mon, hmon, month, hmonth, year'', month', day'', hdays, rfl⟩ := h
  obtain rfl := toInt_eq_ok hday'
  obtain ⟨hsec', hminutes, rfl, -⟩ := (carry_eq_ok_iff _ (by omega)).1 ⟨hcarry, hsec⟩
  obtain ⟨hmin', hhours, rfl, -⟩ := (carry_eq_ok_iff _ (by omega)).1 ⟨hcarry', hmin⟩
  obtain ⟨hhour', hfits, rfl, -⟩ := (carry_eq_ok_iff _ (by omega)).1 ⟨hcarry'', hhour⟩
  have hindex := monthIndex_eq_ok hmonth
  exact ⟨⟨hsec', hmin', hhour', nonneg_of_walk _ hdays hday, nonneg_of_walk _ hmon (by omega)⟩,
    hminutes, hhours, hfits⟩

end Carries

/-! ### `gmtime_r` and `timegm` -/

section Timegm

variable {time : CivilTime} (hyear : 1970 ≤ time.date.year)
include hyear

theorem gmtimeR_seconds (hmax : time.seconds < 32500915200) :
    gmtimeR time.seconds = .ok (civilTm time 0 0 utc) := by
  have hnonneg := seconds_nonneg hyear
  rw [gmtimeR, if_neg (by omega), breakDown_seconds hyear]

theorem timegm_of_normalise {tm : Tm} (h : normalise tm = .ok (civilNormal time)) :
    timegm tm = .ok (time.seconds, civilTm time 0 0 utc) := by
  simp [timegm, h, store_civilNormal hyear, bind, Except.bind, pure, Except.pure, civilTm]

omit hyear in
/-- The times that `gmtime_r` takes end with the year 2999. -/
theorem year_le_of_seconds_lt (hmax : time.seconds < 32500915200) : time.date.year ≤ 2999 := by
  apply Date.year_le
  have hbounds := time.seconds_bounds
  have hend : yearStart (2999 + 1) = 376200 := by decide
  omega

end Timegm

/-- A time is broken down into a date of the calendar and a time of day, and
`timegm` gives the time back and leaves the fields as they are. -/
theorem timegm_gmtimeR (t : ℤ) (hnonneg : 0 ≤ t) (hmax : t < 32500915200) :
    ∃ tm, gmtimeR t = .ok tm ∧
      (0 ≤ tm.sec ∧ tm.sec < 60) ∧ (0 ≤ tm.min ∧ tm.min < 60) ∧ (0 ≤ tm.hour ∧ tm.hour < 24) ∧
      (∃ date : Date, date.dayNumber = t / 86400 ∧ tm.year + 1900 = date.year ∧
        tm.mon = date.month.val ∧ tm.mday = date.day ∧ tm.yday = date.dayOfYear ∧
        tm.wday = date.weekday) ∧
      timegm tm = .ok (t, tm) := by
  obtain ⟨time, rfl, hyear⟩ := CivilTime.exists_seconds_eq hnonneg
  have hmax' : time.date.year ≤ 2147483647 :=
    le_trans (year_le_of_seconds_lt hmax) (by decide)
  have hday : time.date.dayNumber = time.seconds / 86400 := by
    have hbounds := time.seconds_bounds
    omega
  refine ⟨civilTm time 0 0 utc, gmtimeR_seconds hyear hmax, time.second_mem, time.minute_mem,
    time.hour_mem, ⟨time.date, hday, ?_, rfl, rfl, rfl, rfl⟩, ?_⟩
  · exact sub_add_cancel ..
  · exact timegm_of_normalise hyear (normalise_civilTm hyear hmax' 0 0 utc)

theorem timegm_gmtimeR_leapDay :
    ∃ tm, gmtimeR 951782400 = .ok tm ∧
      (0 ≤ tm.sec ∧ tm.sec < 60) ∧ (0 ≤ tm.min ∧ tm.min < 60) ∧ (0 ≤ tm.hour ∧ tm.hour < 24) ∧
      (∃ date : Date, date.dayNumber = 951782400 / 86400 ∧ tm.year + 1900 = date.year ∧
        tm.mon = date.month.val ∧ tm.mday = date.day ∧ tm.yday = date.dayOfYear ∧
        tm.wday = date.weekday) ∧
      timegm tm = .ok (951782400, tm) :=
  timegm_gmtimeR 951782400 (by decide) (by decide)

/-- Whatever the fields are, `timegm` adds them up, and stores the fields that
`gmtime_r` gives for the sum. -/
theorem timegm_normalises (tm tm' : Tm) (time : ℤ) (hsec : 0 ≤ tm.sec) (hmin : 0 ≤ tm.min)
    (hhour : 0 ≤ tm.hour) (hmon : 0 ≤ tm.mon) (hmday : 1 ≤ tm.mday) (hyear : 70 ≤ tm.year)
    (h : timegm tm = .ok (time, tm')) :
    time = 86400 * ((Date.firstOfMonth (tm.year + 1900) tm.mon).dayNumber + tm.mday - 1) +
        3600 * tm.hour + 60 * tm.min + tm.sec ∧
      (time < 32500915200 → gmtimeR time = .ok tm') := by
  have hup : tm.CarriesUp := by
    refine ⟨hsec, ?_, ?_, ?_, hmon⟩ <;> simp only [Tm.days, Tm.hours, Tm.minutes] <;> omega
  have hfirst : 0 ≤ (Date.firstOfMonth (tm.year + 1900) tm.mon).dayNumber :=
    Date.dayNumber_nonneg (show 1970 ≤ tm.year + 1900 + tm.mon / 12 by omega)
  have hinstant : 0 ≤ tm.instant := by
    rw [Tm.instant]
    omega
  obtain ⟨normal, hnormal, -⟩ := bind_eq_ok.1 h
  obtain ⟨civil, rfl, hyear', hseconds⟩ := normalise_eq_ok hup hinstant hnormal
  rw [timegm_of_normalise hyear' hnormal] at h
  cases h
  exact ⟨hseconds, gmtimeR_seconds hyear'⟩

/-- The last day of 1970 and as many seconds as carry into every field. -/
def overfull : Tm := ⟨60, 59, 23, 31, 11, 70, 0, 0, -1, 0, []⟩

def newYear : CivilTime := .midnight (.firstOfMonth 1971 0)

theorem timegm_normalises_overfull :
    timegm overfull = .ok (31536000, civilTm newYear 0 0 utc) ∧
      gmtimeR 31536000 = .ok (civilTm newYear 0 0 utc) := by
  have hup : overfull.CarriesUp := ⟨by decide, by decide, by decide, by decide, by decide⟩
  obtain ⟨time, hnormal, hyear, hseconds⟩ := normalise_ok (by decide) hup (by decide)
    (by decide) (by decide)
  have htimegm := timegm_of_normalise hyear hnormal
  rw [hseconds] at htimegm
  have hgmtime := (timegm_normalises overfull _ _ (by decide) (by decide) (by decide) (by decide)
    (by decide) (by decide) htimegm).2 (by decide)
  have hnewYear := gmtimeR_seconds (show 1970 ≤ newYear.date.year by decide) (by decide)
  have heq := Except.ok.inj (hgmtime.symm.trans hnewYear)
  rw [heq] at htimegm
  exact ⟨htimegm, hnewYear⟩

end Hzlibc.Time
