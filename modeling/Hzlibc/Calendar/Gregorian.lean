import Mathlib.Algebra.BigOperators.Group.Finset.Basic
import Mathlib.Algebra.Order.Group.Int
import Mathlib.Order.Interval.Finset.Fin

/-!
The proleptic Gregorian calendar.

Days are numbered from the first of January 1970, a Thursday. The number of a
date is given in closed form, by the leap years before it and the months before
it in its year; that it grows by one from a date to the next one is what makes
it the count of the days. Months are counted from zero, as are the days of a
year and of a week, which starts on Sunday.
-/

namespace Hzlibc.Calendar

/-! ### Years and months -/

def leapYear (year : ℤ) : Bool :=
  decide (4 ∣ year ∧ (100 ∣ year → 400 ∣ year))

def january : Fin 12 := 0

def monthLength (leap : Bool) (month : Fin 12) : ℤ :=
  match month.val with
  | 1 => if leap then 29 else 28
  | 3 | 5 | 8 | 10 => 30
  | _ => 31

/-- The days of the year before the month. -/
def monthStart (leap : Bool) (month : Fin 12) : ℤ :=
  ∑ m ∈ Finset.Iio month, monthLength leap m

def yearLength (leap : Bool) : ℤ := ∑ m, monthLength leap m

def leapYearsBefore (year : ℤ) : ℤ :=
  (year - 1) / 4 - (year - 1) / 100 + (year - 1) / 400

/-- The number of the first day of the year. -/
def yearStart (year : ℤ) : ℤ :=
  365 * (year - 1970) + leapYearsBefore year - leapYearsBefore 1970

theorem monthLength_pos : ∀ leap month, 0 < monthLength leap month := by decide

theorem monthLength_le : ∀ leap month, monthLength leap month ≤ 31 := by decide

theorem monthStart_nonneg : ∀ leap month, 0 ≤ monthStart leap month := by decide

theorem monthStart_january (leap : Bool) : monthStart leap january = 0 := by
  cases leap <;> decide

theorem monthStart_succ : ∀ leap, ∀ month next : Fin 12, next.val = month.val + 1 →
    monthStart leap next = monthStart leap month + monthLength leap month := by decide

/-- The last month ends with the year. -/
theorem monthStart_last : ∀ leap, ∀ month : Fin 12, month.val + 1 = 12 →
    monthStart leap month + monthLength leap month = yearLength leap := by decide

theorem monthEnd_le : ∀ leap month,
    monthStart leap month + monthLength leap month ≤ yearLength leap := by decide

theorem yearLength_eq (leap : Bool) : yearLength leap = if leap then 366 else 365 := by
  cases leap <;> decide

theorem yearStart_epoch : yearStart 1970 = 0 := by decide

theorem yearStart_succ (year : ℤ) :
    yearStart (year + 1) = yearStart year + yearLength (leapYear year) := by
  simp [yearStart, leapYearsBefore, yearLength_eq, leapYear]
  split <;> omega

theorem yearStart_mono {year later : ℤ} (h : year ≤ later) : yearStart year ≤ yearStart later := by
  simp only [yearStart, leapYearsBefore]
  omega

/-! ### Dates -/

structure Date where
  year : ℤ
  month : Fin 12
  day : ℤ
  one_le_day : 1 ≤ day
  day_le : day ≤ monthLength (leapYear year) month

namespace Date

def dayOfYear (date : Date) : ℤ :=
  monthStart (leapYear date.year) date.month + (date.day - 1)

/-- The days from the first of January 1970 to the date. -/
def dayNumber (date : Date) : ℤ := yearStart date.year + date.dayOfYear

def weekday (date : Date) : ℤ := (date.dayNumber + 4) % 7

def epoch : Date := ⟨1970, january, 1, by decide, by decide⟩

/-- The day after. -/
def next (date : Date) : Date :=
  if hday : date.day < monthLength (leapYear date.year) date.month then
    ⟨date.year, date.month, date.day + 1, by have := date.one_le_day; omega, by omega⟩
  else if hmonth : date.month.val + 1 < 12 then
    ⟨date.year, ⟨date.month.val + 1, hmonth⟩, 1, Int.le_refl 1, monthLength_pos _ _⟩
  else ⟨date.year + 1, january, 1, Int.le_refl 1, monthLength_pos _ _⟩

/-- The first day of a month that is counted from January of the year on. -/
def firstOfMonth (year month : ℤ) : Date :=
  ⟨year + month / 12, ⟨(month % 12).toNat, by omega⟩, 1, Int.le_refl 1, monthLength_pos _ _⟩

theorem dayNumber_firstOfMonth (year month : ℤ) :
    (firstOfMonth year month).dayNumber = yearStart (firstOfMonth year month).year +
      monthStart (leapYear (firstOfMonth year month).year) (firstOfMonth year month).month :=
  congrArg _ (Int.add_zero _)

theorem dayNumber_epoch : epoch.dayNumber = 0 := by decide

variable (date : Date)

theorem dayNumber_next : date.next.dayNumber = date.dayNumber + 1 := by
  have hday := date.day_le
  unfold next
  split
  · simp only [dayNumber, dayOfYear]
    omega
  · split
    case isTrue hmonth =>
      have hstart := monthStart_succ (leapYear date.year) date.month ⟨_, hmonth⟩ rfl
      simp only [dayNumber, dayOfYear]
      omega
    case isFalse hmonth =>
      have hlast := monthStart_last (leapYear date.year) date.month (by omega)
      have hyear := yearStart_succ date.year
      simp only [dayNumber, dayOfYear, monthStart_january]
      omega

theorem year_le_next : date.year ≤ date.next.year := by
  unfold next
  split
  · exact Int.le_refl _
  · split
    · exact Int.le_refl _
    · exact Int.le_of_lt (Int.lt_succ _)

/-- Every day from 1970 on has a date. -/
theorem exists_dayNumber_eq (n : ℕ) : ∃ date : Date, date.dayNumber = n ∧ 1970 ≤ date.year := by
  induction n with
  | zero => exact ⟨epoch, dayNumber_epoch, Int.le_refl 1970⟩
  | succ n ih =>
    obtain ⟨date, hnumber, hyear⟩ := ih
    refine ⟨date.next, ?_, Int.le_trans hyear date.year_le_next⟩
    rw [dayNumber_next, hnumber, Int.natCast_succ]

theorem dayOfYear_nonneg : 0 ≤ date.dayOfYear := by
  have hstart := monthStart_nonneg (leapYear date.year) date.month
  have hday := date.one_le_day
  rw [dayOfYear]
  omega

theorem dayOfYear_lt : date.dayOfYear < yearLength (leapYear date.year) := by
  have hend := monthEnd_le (leapYear date.year) date.month
  have hday := date.day_le
  rw [dayOfYear]
  omega

theorem dayNumber_nonneg {date : Date} (h : 1970 ≤ date.year) : 0 ≤ date.dayNumber := by
  have hyear := yearStart_mono h
  have hday := date.dayOfYear_nonneg
  rw [yearStart_epoch] at hyear
  rw [dayNumber]
  omega

theorem le_year {date : Date} (h : 0 ≤ date.dayNumber) : 1970 ≤ date.year := by
  by_contra hyear
  have hend := yearStart_mono (show date.year + 1 ≤ 1970 by omega)
  have hday := date.dayOfYear_lt
  rw [yearStart_succ, yearStart_epoch] at hend
  rw [dayNumber] at h
  omega

/-- A day before the end of a year belongs to it or to an earlier one. -/
theorem year_le {date : Date} {year : ℤ} (h : date.dayNumber < yearStart (year + 1)) :
    date.year ≤ year := by
  by_contra hyear
  have hstart := yearStart_mono (show year + 1 ≤ date.year by omega)
  have hday := date.dayOfYear_nonneg
  rw [dayNumber] at h
  omega

end Date

/-! ### The time of day -/

structure CivilTime where
  date : Date
  hour : ℤ
  minute : ℤ
  second : ℤ
  hour_mem : 0 ≤ hour ∧ hour < 24
  minute_mem : 0 ≤ minute ∧ minute < 60
  second_mem : 0 ≤ second ∧ second < 60

namespace CivilTime

/-- The seconds from the start of 1970 on. -/
def seconds (time : CivilTime) : ℤ :=
  86400 * time.date.dayNumber + 3600 * time.hour + 60 * time.minute + time.second

/-- The seconds belong to the day of the date. -/
theorem seconds_bounds (time : CivilTime) : 86400 * time.date.dayNumber ≤ time.seconds ∧
    time.seconds < 86400 * (time.date.dayNumber + 1) := by
  have hhour := time.hour_mem
  have hminute := time.minute_mem
  have hsecond := time.second_mem
  rw [seconds]
  omega

/-- The start of a day. -/
def midnight (date : Date) : CivilTime := ⟨date, 0, 0, 0, by decide, by decide, by decide⟩

/-- Every second from 1970 on has a date and a time of day. -/
theorem exists_seconds_eq {t : ℤ} (ht : 0 ≤ t) :
    ∃ time : CivilTime, time.seconds = t ∧ 1970 ≤ time.date.year := by
  obtain ⟨date, hnumber, hyear⟩ := Date.exists_dayNumber_eq (t / 86400).toNat
  refine ⟨⟨date, t / 3600 % 24, t / 60 % 60, t % 60, by omega, by omega, by omega⟩, ?_, hyear⟩
  simp only [seconds, hnumber]
  omega

end CivilTime

end Hzlibc.Calendar
