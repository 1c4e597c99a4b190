import Mathlib.Data.Int.Order.Basic
import Mathlib.Tactic.IntervalCases

/-!
# The proleptic Gregorian calendar

Dates, the date after a date, and the number of a day, counted from 1 January 1970.  The
number goes up by one from a date to the next, and every integer is the number of exactly one
date; `Date.ofDays` computes it with the arithmetic of eras of four hundred years.
-/

namespace Deja

namespace Calendar

/-- Leap years: every fourth, but of the centuries only every fourth. -/
def IsLeap (y : ℤ) : Prop := y % 4 = 0 ∧ (y % 100 ≠ 0 ∨ y % 400 = 0)

instance (y : ℤ) : Decidable (IsLeap y) := inferInstanceAs (Decidable (_ ∧ _))

/-- The length of a month. -/
def daysInMonth (y m : ℤ) : ℤ :=
  if m = 2 then if IsLeap y then 29 else 28
  else if m = 4 ∨ m = 6 ∨ m = 9 ∨ m = 11 then 30
  else 31

/-- A date of the calendar. -/
@[ext]
structure Date where
  year : ℤ
  month : ℤ
  day : ℤ
  month_pos : 1 ≤ month
  month_le : month ≤ 12
  day_pos : 1 ≤ day
  day_le : day ≤ daysInMonth year month

/-- The days of a year before a month. -/
def monthStart (y m : ℤ) : ℤ :=
  (367 * m - 362) / 12 - if m ≤ 2 then 0 else if IsLeap y then 1 else 2

/-- The number of the first day of a year. -/
def yearStart (y : ℤ) : ℤ :=
  365 * (y - 1970) + ((y - 1) / 4 - 492) - ((y - 1) / 100 - 19) + ((y - 1) / 400 - 4)

theorem le_daysInMonth (y m : ℤ) : 28 ≤ daysInMonth y m := by
  unfold daysInMonth
  split_ifs <;> decide

theorem daysInMonth_le (y m : ℤ) : daysInMonth y m ≤ 31 := by
  unfold daysInMonth
  split_ifs <;> decide

/-- A month begins where the one before it ends. -/
theorem monthStart_succ {y m : ℤ} (hpos : 1 ≤ m) (hle : m ≤ 11) :
    monthStart y (m + 1) = monthStart y m + daysInMonth y m := by
  unfold monthStart daysInMonth
  by_cases hleap : IsLeap y
  · simp only [if_pos hleap]
    interval_cases m <;> decide
  · simp only [if_neg hleap]
    interval_cases m <;> decide

/-- A year begins where the one before it ends. -/
theorem yearStart_succ (y : ℤ) :
    yearStart (y + 1) = yearStart y + (monthStart y 12 + daysInMonth y 12) := by
  have hlen : monthStart y 12 + daysInMonth y 12 = if IsLeap y then 366 else 365 := by
    unfold monthStart daysInMonth
    split_ifs <;> first | rfl | omega
  rw [hlen]
  unfold yearStart IsLeap
  split_ifs with hleap <;> omega

namespace Date

/-- 1 January 1970. -/
def epoch : Date := ⟨1970, 1, 1, by decide, by decide, by decide, by decide⟩

/-- The date after a date. -/
def next (d : Date) : Date :=
  if hday : d.day < daysInMonth d.year d.month then
    ⟨d.year, d.month, d.day + 1, d.month_pos, d.month_le, by have := d.day_pos; omega, hday⟩
  else if hmonth : d.month < 12 then
    ⟨d.year, d.month + 1, 1, by have := d.month_pos; omega, hmonth, Int.le_refl 1,
      (by decide : (1 : ℤ) ≤ 28).trans (le_daysInMonth _ _)⟩
  else ⟨d.year + 1, 1, 1, Int.le_refl 1, by decide, Int.le_refl 1,
      (by decide : (1 : ℤ) ≤ 28).trans (le_daysInMonth _ _)⟩

/-- The number of a date. -/
def toDays (d : Date) : ℤ := yearStart d.year + monthStart d.year d.month + (d.day - 1)

theorem toDays_epoch : epoch.toDays = 0 := by decide

/-- **The number goes up by one a day.** -/
theorem toDays_next (d : Date) : d.next.toDays = d.toDays + 1 := by
  have hday_le := d.day_le
  unfold next
  split_ifs with hday hmonth
  · simp only [toDays]
    omega
  · have hstep := monthStart_succ (y := d.year) d.month_pos (by omega)
    simp only [toDays]
    omega
  · have hmonth_le := d.month_le
    have hlast : d.month = 12 := by omega
    have hstep := yearStart_succ d.year
    have hfirst : monthStart (d.year + 1) 1 = 0 := by
      unfold monthStart
      simp
    rw [hlast] at hday hday_le
    simp only [toDays, hfirst, hlast]
    omega

/-- A date is before another one. -/
def Before (d d' : Date) : Prop :=
  d.year < d'.year ∨ d.year = d'.year ∧ (d.month < d'.month ∨ d.month = d'.month ∧ d.day < d'.day)

/-- The months of a year are apart. -/
theorem monthStart_le {y m m' : ℤ} (hpos : 1 ≤ m) (hlt : m < m') (hle : m' ≤ 12) :
    monthStart y m + daysInMonth y m ≤ monthStart y m' := by
  rw [← monthStart_succ hpos (by omega)]
  unfold monthStart
  split_ifs <;> omega

/-- The years are apart. -/
theorem yearStart_le {y y' : ℤ} (hlt : y < y') : yearStart (y + 1) ≤ yearStart y' := by
  unfold yearStart
  omega

/-- A date lies in its year. -/
theorem toDays_mem_year (d : Date) :
    yearStart d.year ≤ d.toDays ∧ d.toDays < yearStart (d.year + 1) := by
  have hpos := d.month_pos
  have hle := d.month_le
  have hday := d.day_pos
  have hday_le := d.day_le
  have hstart : 0 ≤ monthStart d.year d.month := by
    unfold monthStart
    split_ifs <;> omega
  have hend : monthStart d.year d.month + daysInMonth d.year d.month ≤
      monthStart d.year 12 + daysInMonth d.year 12 := by
    by_cases hdec : d.month = 12
    · rw [hdec]
    · have hmonth := monthStart_le (y := d.year) hpos (by omega : d.month < 12) (Int.le_refl _)
      have hlen := le_daysInMonth d.year 12
      omega
  rw [yearStart_succ]
  unfold toDays
  omega

theorem toDays_lt {d d' : Date} (h : Before d d') : d.toDays < d'.toDays := by
  rcases h with hyear | ⟨hyear, hmonth | ⟨hmonth, hday⟩⟩
  · have hlt := d.toDays_mem_year.2
    have hle := d'.toDays_mem_year.1
    have hyears := yearStart_le hyear
    omega
  · have hmonths := monthStart_le (y := d.year) d.month_pos hmonth d'.month_le
    have hday_le := d.day_le
    have hday_pos := d'.day_pos
    unfold toDays
    rw [← hyear]
    omega
  · unfold toDays
    rw [← hyear, ← hmonth]
    omega

/-- The dates are in the order of their numbers. -/
theorem toDays_lt_iff {d d' : Date} : d.toDays < d'.toDays ↔ Before d d' := by
  refine ⟨fun hlt => ?_, toDays_lt⟩
  by_contra hnot
  have hback : Before d' d ∨ d' = d := by
    unfold Before at hnot ⊢
    by_cases hsame : d'.year = d.year ∧ d'.month = d.month ∧ d'.day = d.day
    · right
      cases d
      cases d'
      simp only at hsame
      obtain ⟨rfl, rfl, rfl⟩ := hsame
      rfl
    · left
      omega
  rcases hback with hback | rfl
  · exact absurd hlt (toDays_lt hback).asymm
  · exact absurd hlt (lt_irrefl _)

/-- A date is known by its number. -/
theorem toDays_injective : Function.Injective toDays := by
  intro d d' h
  by_contra hne
  have hbefore : Before d d' ∨ Before d' d := by
    unfold Before
    by_cases hsame : d.year = d'.year ∧ d.month = d'.month ∧ d.day = d'.day
    · refine absurd ?_ hne
      cases d
      cases d'
      simp only at hsame
      obtain ⟨rfl, rfl, rfl⟩ := hsame
      rfl
    · omega
  rcases hbefore with hbefore | hbefore
  · exact absurd h (toDays_lt hbefore).ne
  · exact absurd h (toDays_lt hbefore).ne'

end Date

/-! ## The date of a number -/

/-- The years of an era that are over on a day of it, each from 1 March. -/
def yearOfEra (doe : ℤ) : ℤ := (doe - doe / 1460 + doe / 36524 - doe / 146096) / 365

/-- The days before a year of an era. -/
def eraDays (yoe : ℤ) : ℤ := 365 * yoe + yoe / 4 - yoe / 100

/-- A day of an era by its century, its four years, its year and its place in the year. -/
theorem exists_era {doe : ℤ} (hpos : 0 ≤ doe) (hlt : doe < 146097) :
    ∃ c q r t : ℤ, doe = 36524 * c + 1461 * q + 365 * r + t ∧ 0 ≤ c ∧ c ≤ 3 ∧ 0 ≤ q ∧ q ≤ 24 ∧
      0 ≤ r ∧ r ≤ 3 ∧ 0 ≤ t ∧ (t ≤ 364 ∨ t = 365 ∧ r = 3 ∧ (q ≤ 23 ∨ c = 3)) := by
  obtain ⟨c, m, hc, hm, hdoe⟩ : ∃ c m : ℤ, (0 ≤ c ∧ c ≤ 3) ∧
      (0 ≤ m ∧ (m < 36524 ∨ m = 36524 ∧ c = 3)) ∧ doe = 36524 * c + m := by
    by_cases hlast : doe = 146096
    · exact ⟨3, 36524, by decide, by decide, by omega⟩
    · exact ⟨doe / 36524, doe % 36524, by omega, by omega, by omega⟩
  obtain ⟨q, n, hq, hn, hm'⟩ : ∃ q n : ℤ, (0 ≤ q ∧ q ≤ 24) ∧ (0 ≤ n ∧ n < 1461) ∧
      m = 1461 * q + n := ⟨m / 1461, m % 1461, by omega, by omega, by omega⟩
  by_cases hleap : n = 1460
  · exact ⟨c, q, 3, 365, by omega⟩
  · exact ⟨c, q, n / 365, n % 365, by omega⟩

/-- A day of an era lies in the year `yearOfEra` gives. -/
theorem yearOfEra_spec (z : ℤ) :
    0 ≤ yearOfEra (z % 146097) ∧ yearOfEra (z % 146097) ≤ 399 ∧
      eraDays (yearOfEra (z % 146097)) ≤ z % 146097 ∧
      (z % 146097 - eraDays (yearOfEra (z % 146097)) ≤ 364 ∨
        z % 146097 - eraDays (yearOfEra (z % 146097)) = 365 ∧
          IsLeap (yearOfEra (z % 146097) + 1)) := by
  have hpos : 0 ≤ z % 146097 := by omega
  have hlt : z % 146097 < 146097 := by omega
  generalize z % 146097 = doe at *
  obtain ⟨c, q, r, t, hdoe, hc, hc', hq, hq', hr, hr', ht, ht'⟩ := exists_era hpos hlt
  have hyear : yearOfEra doe = 100 * c + 4 * q + r := by
    obtain ⟨k, hk, hk'⟩ : ∃ k : ℤ, doe / 1460 = 25 * c + q + k ∧
        (k = 0 ∧ t ≤ 364 ∨ k = 1 ∧ 1 ≤ t) := by
      by_cases hcarry : 24 * c + q + 365 * r + t < 1460
      · exact ⟨0, by omega, by omega⟩
      · exact ⟨1, by omega, by omega⟩
    have hcentury : doe / 36524 - doe / 146096 = c := by
      by_cases hlast : doe = 146096
      · have hthree : c = 3 := by omega
        rw [hlast, hthree]
        decide
      · have hrange : 36524 * c ≤ doe ∧ doe < 36524 * (c + 1) := by omega
        have hdiv : doe / 36524 = c := by omega
        have hzero : doe / 146096 = 0 := by omega
        omega
    unfold yearOfEra
    omega
  have hfour : (100 * c + 4 * q + r) / 4 = 25 * c + q := by omega
  have hhundred : (100 * c + 4 * q + r) / 100 = c := by omega
  have hleap : IsLeap (100 * c + 4 * q + r + 1) ↔ r = 3 ∧ (q ≤ 23 ∨ c = 3) := by
    unfold IsLeap
    omega
  rw [hyear, hleap]
  unfold eraDays
  rw [hfour, hhundred]
  omega

/-- The month of a day of a year that begins in March, the months counted from there. -/
def marchMonth (doy : ℤ) : ℤ := (5 * doy + 2) / 153

/-- The date of a number: its era and the day of it, the year of the era, the day of that year. -/
def yearOf (n : ℤ) : ℤ := yearOfEra ((n + 719468) % 146097) + (n + 719468) / 146097 * 400

/-- The day of the year from 1 March. -/
def dayOfYear (n : ℤ) : ℤ :=
  (n + 719468) % 146097 - eraDays (yearOfEra ((n + 719468) % 146097))

/-- The days of the year from 1 March before a month. -/
def marchStart (mp : ℤ) : ℤ := (153 * mp + 2) / 5

theorem marchMonth_spec {doy : ℤ} (hpos : 0 ≤ doy) (hle : doy ≤ 365) :
    0 ≤ marchMonth doy ∧ marchMonth doy ≤ 11 ∧ marchStart (marchMonth doy) ≤ doy ∧
      doy < marchStart (marchMonth doy + 1) := by
  unfold marchStart marchMonth
  omega

/-- The number of 1 March. -/
theorem marchFirst (y : ℤ) :
    yearStart y + monthStart y 3 = 365 * y + y / 4 - y / 100 + y / 400 - 719468 := by
  unfold yearStart monthStart IsLeap
  split_ifs <;> omega

theorem dayOfYear_spec (n : ℤ) : 0 ≤ dayOfYear n ∧
    (dayOfYear n ≤ 364 ∨ dayOfYear n = 365 ∧ IsLeap (yearOf n + 1)) ∧
    n = yearStart (yearOf n) + monthStart (yearOf n) 3 + dayOfYear n := by
  obtain ⟨hpos, hle, hstart, hend⟩ :=
    yearOfEra_spec (n + 719468)
  have hleap : IsLeap (yearOf n + 1) ↔ IsLeap (yearOfEra ((n + 719468) % 146097) + 1) := by
    unfold yearOf IsLeap
    omega
  rw [hleap]
  refine ⟨by unfold dayOfYear; omega, hend, ?_⟩
  rw [marchFirst]
  unfold yearOf dayOfYear eraDays
  omega

theorem dayOfYear_le (n : ℤ) : dayOfYear n ≤ 365 := by
  obtain ⟨-, h | ⟨h, -⟩, -⟩ := dayOfYear_spec n <;> omega

/-- The month of a number. -/
def monthOf (n : ℤ) : ℤ :=
  if marchMonth (dayOfYear n) < 10 then marchMonth (dayOfYear n) + 3
  else marchMonth (dayOfYear n) - 9

/-- The day of the month of a number. -/
def dayOf (n : ℤ) : ℤ := dayOfYear n - marchStart (marchMonth (dayOfYear n)) + 1

/-- The calendar year of a number: January and February belong to the year that follows. -/
def calendarYear (n : ℤ) : ℤ := if monthOf n ≤ 2 then yearOf n + 1 else yearOf n

/-- From March on, the months of a year begin as in a year that begins in March. -/
theorem monthStart_march {y mp : ℤ} (hpos : 0 ≤ mp) (hle : mp ≤ 9) :
    monthStart y (mp + 3) = monthStart y 3 + marchStart mp := by
  unfold monthStart marchStart
  split_ifs <;> omega

/-- January and February are the last months of a year that begins in March. -/
theorem yearStart_march {y m : ℤ} (hpos : 1 ≤ m) (hle : m ≤ 2) :
    yearStart y + monthStart y m =
      yearStart (y - 1) + monthStart (y - 1) 3 + marchStart (m + 9) := by
  rw [marchFirst]
  unfold yearStart monthStart marchStart
  split_ifs
  omega

theorem marchLength {y mp : ℤ} (hpos : 0 ≤ mp) (hle : mp ≤ 10) :
    marchStart (mp + 1) - marchStart mp =
      daysInMonth y (if mp < 10 then mp + 3 else mp - 9) := by
  unfold marchStart daysInMonth
  interval_cases mp <;> simp

theorem dayOf_le (n : ℤ) : dayOf n ≤ daysInMonth (calendarYear n) (monthOf n) := by
  obtain ⟨hpos, hyear, -⟩ := dayOfYear_spec n
  obtain ⟨hmp, hmp', hstart, hend⟩ :=
    marchMonth_spec hpos (dayOfYear_le n)
  by_cases hlast : marchMonth (dayOfYear n) = 11
  · have hmonth : monthOf n = 2 := by
      unfold monthOf
      omega
    have hcal : calendarYear n = yearOf n + 1 := by
      unfold calendarYear
      omega
    have hday : dayOf n = dayOfYear n - 336 := by
      unfold dayOf marchStart
      omega
    rw [hmonth, hcal, hday]
    unfold daysInMonth
    rw [if_pos rfl]
    split_ifs with hleap
    · omega
    · have hshort : dayOfYear n ≤ 364 := hyear.resolve_right fun h => hleap h.2
      omega
  · have hlen := marchLength (y := calendarYear n) hmp (by omega)
    have hmonth : monthOf n = if marchMonth (dayOfYear n) < 10 then marchMonth (dayOfYear n) + 3
        else marchMonth (dayOfYear n) - 9 := rfl
    rw [hmonth, ← hlen]
    unfold dayOf
    omega

namespace Date

/-- The date of a number. -/
def ofDays (n : ℤ) : Date where
  year := calendarYear n
  month := monthOf n
  day := dayOf n
  month_pos := by
    have hmp := marchMonth_spec (dayOfYear_spec n).1 (dayOfYear_le n)
    unfold monthOf
    omega
  month_le := by
    have hmp := marchMonth_spec (dayOfYear_spec n).1 (dayOfYear_le n)
    unfold monthOf
    omega
  day_pos := by
    have hmp := marchMonth_spec (dayOfYear_spec n).1 (dayOfYear_le n)
    unfold dayOf
    omega
  day_le := dayOf_le n

/-- **Every integer is the number of a date**, the one `ofDays` gives. -/
theorem toDays_ofDays (n : ℤ) : (ofDays n).toDays = n := by
  obtain ⟨hpos, hyear, hn⟩ := dayOfYear_spec n
  obtain ⟨hmp, hmp', -, -⟩ := marchMonth_spec hpos (dayOfYear_le n)
  show yearStart (calendarYear n) + monthStart (calendarYear n) (monthOf n) + (dayOf n - 1) = n
  by_cases hmarch : marchMonth (dayOfYear n) < 10
  · have hmonth : monthOf n = marchMonth (dayOfYear n) + 3 := if_pos hmarch
    have hcal : calendarYear n = yearOf n := if_neg (by omega)
    have hstart := monthStart_march (y := yearOf n) hmp (by omega)
    rw [hmonth, hcal, hstart]
    unfold dayOf
    omega
  · have hmonth : monthOf n = marchMonth (dayOfYear n) - 9 := if_neg hmarch
    have hcal : calendarYear n = yearOf n + 1 := if_pos (by omega)
    have hnext := yearStart_succ (yearOf n)
    have hyearLen : monthStart (yearOf n) 12 + daysInMonth (yearOf n) 12 =
        monthStart (yearOf n) 3 + 306 := by
      have hdec := monthStart_march (y := yearOf n) (by decide : (0 : ℤ) ≤ 9) (by decide)
      have hlen : daysInMonth (yearOf n) 12 = 31 := rfl
      have hmarchStart : marchStart 9 = 275 := rfl
      rw [show (12 : ℤ) = 9 + 3 from rfl, hdec, hmarchStart]
      rw [show (9 + 3 : ℤ) = 12 from rfl, hlen]
      omega
    have hfirst : monthStart (yearOf n + 1) (marchMonth (dayOfYear n) - 9) =
        marchStart (marchMonth (dayOfYear n)) - 306 := by
      unfold monthStart marchStart
      split_ifs <;> omega
    rw [hmonth, hcal, hnext, hyearLen, hfirst]
    unfold dayOf
    omega

/-- The dates of numbers are in the order of the numbers. -/
theorem ofDays_before_iff (n m : ℤ) : Before (ofDays n) (ofDays m) ↔ n < m := by
  rw [← toDays_lt_iff, toDays_ofDays, toDays_ofDays]

theorem ofDays_toDays (d : Date) : ofDays d.toDays = d := toDays_injective (toDays_ofDays _)

/-- The date of the number that follows is the next date. -/
theorem ofDays_succ (n : ℤ) : ofDays (n + 1) = (ofDays n).next := by
  refine toDays_injective ?_
  rw [toDays_ofDays, toDays_next, toDays_ofDays]

theorem ofDays_zero : ofDays 0 = epoch := toDays_injective (toDays_ofDays 0)

end Date

end Calendar

end Deja
