import Deja.Lib.Calendar
import Deja.Lib.Machine
import Deja.Template.Parse
import Mathlib.Data.Nat.Digits.Lemmas

/-!
# Templates: the date filter

`format_epoch` takes seconds since 1970 apart into date and time with 32-bit arithmetic and
prints them under a format.  The day number is cut to 32 bits first, so the date is that of the
calendar exactly as long as the day number, moved to the epoch of the algorithm, fits.
-/

namespace Deja.Template

open Machine Calendar

/-! ## The filter -/

/-- What a format can print of an instant. -/
structure EpochFields where
  year : ℤ
  month : ℤ
  day : ℤ
  hour : ℤ
  minute : ℤ
  second : ℤ
  deriving DecidableEq

/-- `civil_from_days`, as `format_epoch` has it. -/
def civilFromDays (totalDays : ℤ) : Compute Empty (ℤ × ℤ × ℤ) := do
  let z ← i32 (totalDays + 719468)
  let era := (← i32 (if 0 ≤ z then z else z - 146096)).tdiv 146097
  let doe := asU32 (← i32 (z - (← i32 (era * 146097))))
  let yoe := (← u32 ((← u32 ((← u32 (doe - doe / 1460)) + doe / 36524)) - doe / 146096)) / 365
  let y ← i32 (asI32 yoe + (← i32 (era * 400)))
  let doy ← u32 (doe - (← u32 ((← u32 ((← u32 (365 * yoe)) + yoe / 4)) - yoe / 100)))
  let mp := (← u32 ((← u32 (5 * doy)) + 2)) / 153
  let d ← u32 ((← u32 (doy - (← u32 ((← u32 (153 * mp)) + 2)) / 5)) + 1)
  let mo ← u32 (if mp < 10 then mp + 3 else mp - 9)
  let year ← i32 (if mo ≤ 2 then y + 1 else y)
  pure (year, mo, d)

/-- The fields `format_epoch` prints. -/
def epochFields (epochSecs : ℤ) : Compute Empty EpochFields := do
  let daySecs := asU32 (epochSecs % 86400)
  let h := daySecs / 3600
  let m := daySecs % 3600 / 60
  let s := daySecs % 60
  let (year, mo, d) ← civilFromDays (asI32 (epochSecs / 86400))
  pure ⟨year, mo, d, h, m, s⟩

/-- The decimal digits of a number, filled up with zeros. -/
def zeroPad (width n : ℕ) : List Char :=
  let digits := (Nat.digits 10 n).reverse.map Nat.digitChar
  List.replicate (width - digits.length) '0' ++ digits

/-- `{:04}` and `{:02}`: the sign counts for the width. -/
def padded (width : ℕ) (x : ℤ) : List Char :=
  if x < 0 then '-' :: zeroPad (width - 1) x.natAbs else zeroPad width x.natAbs

/-- The placeholders of a format, replaced from left to right. -/
def expand (f : EpochFields) : List Char → List Char
  | '%' :: c :: fmt =>
    (if c = 'Y' then padded 4 f.year
      else if c = 'm' then padded 2 f.month
      else if c = 'd' then padded 2 f.day
      else if c = 'H' then padded 2 f.hour
      else if c = 'M' then padded 2 f.minute
      else if c = 'S' then padded 2 f.second
      else ['%', c]) ++ expand f fmt
  | c :: fmt => c :: expand f fmt
  | [] => []

/-- `format_epoch`. -/
def formatEpoch (epochSecs : ℤ) (fmt : List Char) : Compute Empty (List Char) :=
  if epochSecs < 0 then .ok "<invalid date>".toList
  else if 256 < utf8Len fmt then .ok "<format too long>".toList
  else do
    let f ← epochFields epochSecs
    pure (expand f fmt)

/-! ## The calendar -/

/-- The date and the time of day of a second, in UTC. -/
def calendarFields (secs : ℤ) : EpochFields where
  year := (Date.ofDays (secs / 86400)).year
  month := (Date.ofDays (secs / 86400)).month
  day := (Date.ofDays (secs / 86400)).day
  hour := secs % 86400 / 3600
  minute := secs % 3600 / 60
  second := secs % 60

/-- The last day whose number fits after the move to the epoch of the algorithm. -/
def lastDay : ℤ := 2146764179

/-- **The 32-bit arithmetic is that of the calendar** on every day it can take. -/
theorem civilFromDays_eq {n : ℤ} (hlo : -2147483648 ≤ n) (hhi : n ≤ lastDay) :
    civilFromDays n =
      .ok ((Date.ofDays n).year, (Date.ofDays n).month, (Date.ofDays n).day) := by
  unfold lastDay at hhi
  obtain ⟨hyoe, hyoe', hstart, hend⟩ :=
    yearOfEra_spec (n + 719468)
  obtain ⟨hdoy, -, -⟩ := dayOfYear_spec n
  obtain ⟨hmp, hmp', hmonth, -⟩ := marchMonth_spec hdoy (by
    unfold dayOfYear
    omega)
  have hdoe : n + 719468 - (n + 719468) / 146097 * 146097 = (n + 719468) % 146097 := by omega
  have hyear : yearOfEra ((n + 719468) % 146097) = ((n + 719468) % 146097 -
      (n + 719468) % 146097 / 1460 + (n + 719468) % 146097 / 36524 -
        (n + 719468) % 146097 / 146096) / 365 := rfl
  unfold civilFromDays
  rw [i32_ok (by omega), ok_bind, i32_ok (by split_ifs <;> omega), ok_bind,
    tdiv_floor (by decide) (by decide : (146097 : ℤ) = 146096 + 1)]
  simp only
  rw [i32_ok (by omega), ok_bind, i32_ok (by omega), ok_bind, hdoe, asU32_of_mem (by omega)]
  have hdoe_pos : 0 ≤ (n + 719468) % 146097 ∧ (n + 719468) % 146097 < 146097 := by omega
  have hera : -14700 ≤ (n + 719468) / 146097 ∧ (n + 719468) / 146097 ≤ 14700 := by omega
  have hdays : dayOfYear n = (n + 719468) % 146097 - (365 * yearOfEra ((n + 719468) % 146097) +
      yearOfEra ((n + 719468) % 146097) / 4 - yearOfEra ((n + 719468) % 146097) / 100) := rfl
  rw [u32_ok (by omega), ok_bind, u32_ok (by omega), ok_bind, u32_ok (by omega), ok_bind, ← hyear]
  have hdoy' : dayOfYear n ≤ 365 := by
    unfold dayOfYear
    omega
  rw [i32_ok (by omega), ok_bind, asI32_of_mem (by omega), i32_ok (by omega), ok_bind,
    u32_ok (by omega), ok_bind, u32_ok (by omega), ok_bind, u32_ok (by omega), ok_bind,
    u32_ok (by omega), ok_bind, ← hdays, u32_ok (by omega), ok_bind, u32_ok (by omega), ok_bind]
  have hmonthOf : (if marchMonth (dayOfYear n) < 10 then marchMonth (dayOfYear n) + 3
      else marchMonth (dayOfYear n) - 9) = monthOf n := rfl
  have hcal : (if monthOf n ≤ 2 then yearOf n + 1 else yearOf n) = calendarYear n := rfl
  have hday : dayOfYear n - marchStart (marchMonth (dayOfYear n)) + 1 = dayOf n := rfl
  have hmarch : (5 * dayOfYear n + 2) / 153 = marchMonth (dayOfYear n) := rfl
  have hmarchStart : (153 * marchMonth (dayOfYear n) + 2) / 5 =
      marchStart (marchMonth (dayOfYear n)) := rfl
  have hdate := (Date.ofDays n).day_pos
  have hmonths : 1 ≤ monthOf n ∧ monthOf n ≤ 12 := ⟨(Date.ofDays n).month_pos,
    (Date.ofDays n).month_le⟩
  have hyear_mem : -2147483648 ≤ calendarYear n ∧ calendarYear n ≤ 2147483647 := by
    rw [← hcal]
    unfold yearOf
    split_ifs <;> omega
  have hyearOf : yearOfEra ((n + 719468) % 146097) + (n + 719468) / 146097 * 400 = yearOf n := by
    unfold yearOf
    rfl
  rw [hyearOf]
  clear hyearOf hyear hdoe hend hstart hdays
  rw [hmarch, u32_ok (by omega), ok_bind, u32_ok (by omega), ok_bind, hmarchStart,
    u32_ok (by omega), ok_bind, u32_ok (by omega), ok_bind, hmonthOf, u32_ok (by omega), ok_bind,
    hday, hcal, i32_ok hyear_mem, ok_bind]
  rfl

/-! ## What is printed -/

/-- A padded number is read back from its digits. -/
theorem zeroPad_injective (width : ℕ) : Function.Injective (zeroPad width) := by
  have hdigit : ∀ d < 10, (Nat.digitChar d).toNat - 48 = d := by decide
  have hread : ∀ n, Nat.ofDigits 10 ((zeroPad width n).map fun c => c.toNat - 48).reverse = n := by
    intro n
    have hmap : (Nat.digits 10 n).reverse.map ((fun c : Char => c.toNat - 48) ∘ Nat.digitChar) =
        (Nat.digits 10 n).reverse := by
      refine (List.map_congr_left fun d hd => ?_).trans (List.map_id _)
      exact hdigit d (Nat.digits_lt_base (by decide) (List.mem_reverse.1 hd))
    have hzero : ('0'.toNat - 48) = 0 := rfl
    rw [zeroPad, List.map_append, List.map_map, hmap, List.map_replicate, hzero,
      List.reverse_append, List.reverse_reverse, List.reverse_replicate, Nat.ofDigits_append,
      Nat.ofDigits_replicate_zero, Nat.ofDigits_digits, Nat.mul_zero, Nat.add_zero]
  intro n m h
  rw [← hread n, h, hread m]

/-- A digit is no sign. -/
theorem sign_not_mem_zeroPad (width n : ℕ) : '-' ∉ zeroPad width n := by
  have hdigit : ∀ d < 10, Nat.digitChar d ≠ '-' := by decide
  rw [zeroPad, List.mem_append, List.mem_map]
  rintro (hzero | ⟨d, hd, hsign⟩)
  · exact absurd (List.eq_of_mem_replicate hzero) (by decide)
  · exact hdigit d (Nat.digits_lt_base (by decide) (List.mem_reverse.1 hd)) hsign

theorem padded_injective (width : ℕ) : Function.Injective (padded width) := by
  intro x y h
  unfold padded at h
  split_ifs at h with hx hy hy
  · have hnat := zeroPad_injective _ (List.cons.inj h).2
    omega
  · exact absurd (h ▸ List.mem_cons_self) (sign_not_mem_zeroPad _ _)
  · exact absurd (h ▸ List.mem_cons_self) (sign_not_mem_zeroPad _ _)
  · have hnat := zeroPad_injective _ h
    omega

/-- Whatever format is asked for, the fields printed are the ones given. -/
def Prints (epochSecs : ℤ) (f : EpochFields) : Prop :=
  ∀ fmt, utf8Len fmt ≤ 256 → formatEpoch epochSecs fmt = .ok (expand f fmt)

/-- What is printed tells the fields. -/
theorem prints_iff {epochSecs : ℤ} (h : 0 ≤ epochSecs) (f : EpochFields) :
    Prints epochSecs f ↔ epochFields epochSecs = .ok f := by
  have hformat : ∀ fmt, utf8Len fmt ≤ 256 → formatEpoch epochSecs fmt =
      (epochFields epochSecs >>= fun f => pure (expand f fmt)) := by
    intro fmt hfmt
    rw [formatEpoch, if_neg (by omega), if_neg (by omega)]
  constructor
  · intro hprints
    cases hfields : epochFields epochSecs with
    | error e =>
      have hempty := hprints [] (Nat.zero_le _)
      rw [hformat [] (Nat.zero_le _), hfields] at hempty
      exact nomatch hempty
    | ok g =>
      have hsame : ∀ c : Char, utf8Len ['%', c] ≤ 256 →
          expand g ['%', c] = expand f ['%', c] := by
        intro c hc
        have hc' := hprints _ hc
        rw [hformat _ hc, hfields] at hc'
        exact Except.ok.inj hc'
      have hyear := hsame 'Y' (by decide)
      have hmonth := hsame 'm' (by decide)
      have hday := hsame 'd' (by decide)
      have hhour := hsame 'H' (by decide)
      have hminute := hsame 'M' (by decide)
      have hsecond := hsame 'S' (by decide)
      simp only [expand, List.append_nil, if_true, Char.reduceEq, if_false]
        at hyear hmonth hday hhour hminute hsecond
      have heq : g = f := by
        cases g
        cases f
        rw [EpochFields.mk.injEq]
        exact ⟨padded_injective 4 hyear, padded_injective 2 hmonth, padded_injective 2 hday,
          padded_injective 2 hhour, padded_injective 2 hminute, padded_injective 2 hsecond⟩
      rw [heq]
  · intro hfields fmt hfmt
    rw [hformat fmt hfmt, hfields]
    rfl

/-- The fields of a time of day on a day that is given. -/
def fieldsOn (day secs : ℤ) : EpochFields :=
  ⟨(Date.ofDays day).year, (Date.ofDays day).month, (Date.ofDays day).day, secs % 86400 / 3600,
    secs % 3600 / 60, secs % 60⟩

theorem fieldsOn_eq_iff {day day' secs secs' : ℤ} :
    fieldsOn day secs = fieldsOn day' secs' ↔ day = day' ∧ secs % 86400 = secs' % 86400 := by
  unfold fieldsOn
  rw [EpochFields.mk.injEq]
  constructor
  · rintro ⟨hyear, hmonth, hday, hhour, hminute, hsecond⟩
    refine ⟨?_, by omega⟩
    have hdate : Date.ofDays day = Date.ofDays day' := Date.ext hyear hmonth hday
    rw [← Date.toDays_ofDays day, hdate, Date.toDays_ofDays]
  · rintro ⟨rfl, htime⟩
    exact ⟨rfl, rfl, rfl, by omega, by omega, by omega⟩

/-- What the code computes: the date of the day cut to 32 bits, unless moving it overflows. -/
theorem epochFields_eq (secs : ℤ) : epochFields secs =
    if asI32 (secs / 86400) ≤ lastDay then .ok (fieldsOn (asI32 (secs / 86400)) secs)
    else .error .panic := by
  have hrange := asI32_spec (secs / 86400)
  unfold epochFields
  split_ifs with hday
  · rw [civilFromDays_eq hrange.1 hday, ok_bind, asU32_of_mem (by omega)]
    have hminute : secs % 86400 % 3600 / 60 = secs % 3600 / 60 := by omega
    have hsecond : secs % 86400 % 60 = secs % 60 := by omega
    simp only [hminute, hsecond]
    rfl
  · unfold lastDay at hday
    rw [civilFromDays, i32_panic (by omega)]
    rfl

/-- When the fields printed are those of another instant. -/
theorem prints_calendar_iff {secs t : ℤ} (h : 0 ≤ secs) : Prints secs (calendarFields t) ↔
    asI32 (secs / 86400) ≤ lastDay ∧ asI32 (secs / 86400) = t / 86400 ∧
      secs % 86400 = t % 86400 := by
  rw [prints_iff h, epochFields_eq]
  have hcal : calendarFields t = fieldsOn (t / 86400) t := rfl
  split_ifs with hday
  · rw [Except.ok.injEq, hcal, fieldsOn_eq_iff, and_iff_right hday]
  · exact iff_of_false (fun h => nomatch h) fun h => hday h.1

/-- The order of dates and times. -/
def EpochFields.Before (f g : EpochFields) : Prop :=
  f.year < g.year ∨ f.year = g.year ∧ (f.month < g.month ∨ f.month = g.month ∧
    (f.day < g.day ∨ f.day = g.day ∧ (f.hour < g.hour ∨ f.hour = g.hour ∧
      (f.minute < g.minute ∨ f.minute = g.minute ∧ f.second < g.second))))

/-- The fields of the calendar are in the order of the seconds. -/
theorem calendarFields_before_iff {secs later : ℤ} :
    (calendarFields secs).Before (calendarFields later) ↔ secs < later := by
  have hdays := Date.ofDays_before_iff (secs / 86400) (later / 86400)
  have hsame : (Date.ofDays (secs / 86400)).year = (Date.ofDays (later / 86400)).year ∧
      (Date.ofDays (secs / 86400)).month = (Date.ofDays (later / 86400)).month ∧
      (Date.ofDays (secs / 86400)).day = (Date.ofDays (later / 86400)).day ↔
      secs / 86400 = later / 86400 := by
    constructor
    · rintro ⟨hyear, hmonth, hday⟩
      rw [← Date.toDays_ofDays (secs / 86400), Date.ext hyear hmonth hday, Date.toDays_ofDays]
    · intro heq
      rw [heq]
      exact ⟨rfl, rfl, rfl⟩
  have htime : secs / 86400 = later / 86400 →
      (secs < later ↔ secs % 86400 / 3600 < later % 86400 / 3600 ∨
        secs % 86400 / 3600 = later % 86400 / 3600 ∧ (secs % 3600 / 60 < later % 3600 / 60 ∨
          secs % 3600 / 60 = later % 3600 / 60 ∧ secs % 60 < later % 60)) := by
    intro heq
    constructor
    · intro hlt
      by_cases hhour : secs % 86400 / 3600 = later % 86400 / 3600
      · by_cases hminute : secs % 3600 / 60 = later % 3600 / 60
        · exact .inr ⟨hhour, .inr ⟨hminute, by omega⟩⟩
        · exact .inr ⟨hhour, .inl (by omega)⟩
      · exact .inl (by omega)
    · rintro (hhour | ⟨hhour, hminute | ⟨hminute, hsecond⟩⟩) <;> omega
  have hsplit : secs < later ↔ secs / 86400 < later / 86400 ∨
      secs / 86400 = later / 86400 ∧ secs < later := by
    constructor
    · intro hlt
      rcases lt_trichotomy (secs / 86400) (later / 86400) with h | h | h
      · exact .inl h
      · exact .inr ⟨h, hlt⟩
      · omega
    · rintro (h | h)
      · omega
      · exact h.2
  rw [hsplit, ← hdays, ← hsame]
  unfold EpochFields.Before Date.Before calendarFields
  simp only
  constructor
  · intro h
    by_cases heq : secs / 86400 = later / 86400
    · right
      refine ⟨hsame.2 heq, (htime heq).2 ?_⟩
      have hdate := hsame.2 heq
      omega
    · left
      have hno := fun h => heq (hsame.1 h)
      omega
  · rintro (h | ⟨hdate, hlt⟩)
    · omega
    · have hfields := (htime (hsame.1 hdate)).1 hlt
      omega

/-- A day number that is not cut. -/
theorem asI32_eq_iff {day : ℤ} (hpos : 0 ≤ day) :
    asI32 day ≤ lastDay ∧ asI32 day = day ↔ day ≤ lastDay := by
  have hcut := asI32_spec day
  unfold lastDay
  omega

/-- Two seconds lie a multiple of all 32-bit days apart. -/
theorem wrapped_iff {a b : ℤ} : (a - b) % (86400 * 4294967296) = 0 ↔
    (a / 86400 - b / 86400) % 4294967296 = 0 ∧ a % 86400 = b % 86400 := by
  constructor
  · intro h
    obtain ⟨k, hk⟩ := Int.dvd_of_emod_eq_zero h
    have ha : a = b + 86400 * (4294967296 * k) := by omega
    have hdiv : a / 86400 = b / 86400 + 4294967296 * k := by
      rw [ha, Int.add_mul_ediv_left _ _ (by decide)]
    rw [hdiv, ha, Int.add_mul_emod_self_left]
    omega
  · rintro ⟨hdays, htime⟩
    obtain ⟨k, hk⟩ := Int.dvd_of_emod_eq_zero hdays
    have ha := Int.emod_add_mul_ediv a 86400
    have hb := Int.emod_add_mul_ediv b 86400
    have hdiff : a - b = 86400 * 4294967296 * k := by omega
    rw [hdiff, Int.mul_emod_right]

/-- **What is printed is the date of the calendar exactly while the day number fits**: for a
timestamp in seconds, and for one in milliseconds of which the seconds are handed over.
Milliseconds handed over as they are print their own date only where the cut day number
happens to be that of the instant.  In the calendar a day later is the next date, and the
fields are in the order of the timestamps. -/
theorem formatEpoch_calendar {t : ℤ} (hpos : 0 ≤ t) :
    (Prints t (calendarFields t) ↔ t / 86400 ≤ lastDay) ∧
      (Prints (t / 1000) (calendarFields (t / 1000)) ↔ t / 86400000 ≤ lastDay) ∧
      (Prints t (calendarFields (t / 1000)) ↔
        (t - t / 1000) % (86400 * 4294967296) = 0 ∧ t / 86400000 ≤ lastDay) ∧
      calendarFields (t + 86400) = fieldsOn (Date.ofDays (t / 86400)).next.toDays t ∧
      ∀ later, (calendarFields t).Before (calendarFields later) ↔ t < later := by
  have hdays : t / 1000 / 86400 = t / 86400000 := by omega
  refine ⟨?_, ?_, ?_, ?_, fun later => calendarFields_before_iff⟩
  · have hday_pos : 0 ≤ t / 86400 := by omega
    rw [prints_calendar_iff hpos, eq_self_iff_true, and_true, asI32_eq_iff hday_pos]
  · have hday_pos : 0 ≤ t / 1000 / 86400 := by omega
    rw [prints_calendar_iff (by omega), eq_self_iff_true, and_true, asI32_eq_iff hday_pos, hdays]
  · rw [prints_calendar_iff hpos, wrapped_iff, ← hdays]
    have hcut := asI32_spec (t / 86400)
    have hday_pos : 0 ≤ t / 1000 / 86400 := by omega
    unfold lastDay
    generalize t / 1000 / 86400 = days at *
    constructor
    · rintro ⟨hle, rfl, htime⟩
      exact ⟨⟨hcut.2.2, htime⟩, hle⟩
    · rintro ⟨⟨hmod, htime⟩, hle⟩
      have hsame : asI32 (t / 86400) = days := by omega
      exact ⟨by omega, hsame, htime⟩
  · have hcal : calendarFields (t + 86400) = fieldsOn ((t + 86400) / 86400) (t + 86400) := rfl
    rw [hcal, Date.toDays_next, Date.toDays_ofDays, fieldsOn_eq_iff]
    omega

/-- The last moment of 2023, in seconds. -/
theorem formatEpoch_calendar_2023 : Prints 1704067199 (calendarFields 1704067199) :=
  (formatEpoch_calendar (t := 1704067199) (by decide)).1.2 (by decide)

/-- The day number 2 ^ 32 prints as the first day, and the one after the last that fits
overflows; milliseconds handed over as they are print another date. -/
theorem date_wraps :
    (Prints (371085174374400000 / 1000) (calendarFields 0) ∧
      ¬ Prints (371085174374400000 / 1000) (calendarFields (371085174374400000 / 1000))) ∧
      epochFields (185480425152000000 / 1000) = .error .panic ∧
      ¬ Prints 86400000 (calendarFields (86400000 / 1000)) := by
  refine ⟨⟨?_, ?_⟩, ?_, ?_⟩
  · rw [prints_calendar_iff (by decide)]
    decide
  · rw [prints_calendar_iff (by decide)]
    decide
  · rw [epochFields_eq]
    decide
  · rw [prints_calendar_iff (by decide)]
    decide

end Deja.Template
