/-
  Date/Nkdatetime.lean --- the conversions of `libnklabs/src/nkdatetime.c` between a
  date with a time and the seconds since 1970.

  Every computation in the type `int` and every narrowing to it is a call of `int`.
  A `long long` is an integer: no sum of the two functions comes near 64 bits.
-/
import LibnklabsPico.Foundation.IntArith

set_option autoImplicit false

namespace LibnklabsPico.Date

open LibnklabsPico.Foundation

/-- `nkdatetime_t` -/
structure Nkdatetime where
  sec : UInt8
  min : UInt8
  hour : UInt8
  weekday : UInt8
  day : UInt8
  month : UInt8
  year : UInt16

/-- `dpm`: days per month -/
def dpm : List Int := [31, 28, 31, 30, 31, 30, 31, 31, 30, 31, 30, 31]

/-- `dpmleap`: days per month, leap year -/
def dpmleap : List Int := [31, 29, 31, 30, 31, 30, 31, 31, 30, 31, 30, 31]

/-- `SPD`: seconds per day -/
def spd : Int := 60 * 60 * 24

/-- The table `t` of `nk_calc_day_of_week`. -/
def dayOfWeekTable : List Int := [0, 3, 2, 5, 0, 3, 5, 1, 4, 6, 2, 4]

/-- `nk_calc_day_of_week` -/
def nkCalcDayOfWeek (y m d : Int) : IntProg Int := do
  let m ← int (m + 1)
  let d ← int (d + 1)
  let y ← int (y - if m < 3 then 1 else 0)
  let sum ← int (y + (← int (y.tdiv 4)))
  let sum ← int (sum - (← int (y.tdiv 100)))
  let sum ← int (sum + (← int (y.tdiv 400)))
  let sum ← int (sum + (← load dayOfWeekTable (← int (m - 1))))
  let sum ← int (sum + d)
  int (sum.tmod 7)

/-- `isleapyear` -/
def isleapyear (year : Int) : IntProg Bool := do
  if (← int (year.tmod 4)) ≠ 0 then pure false
  else if (← int (year.tmod 100)) = 0 then
    if (← int (year.tmod 400)) ≠ 0 then pure false else pure true
  else pure true

/-- The loop over the years of `nk_datetime_to_unix`, from the year `x` on. -/
def clockYears (year : Int) : Nat → Int → Int → IntProg Int
  | 0, _, _ => trap
  | fuel + 1, x, clock =>
      if x = year then pure clock
      else do
        let leap ← isleapyear x
        let seconds ← (if leap then int (spd * 366) else int (spd * 365))
        let x ← int (x + 1)
        clockYears year fuel x (clock + seconds)

/-- The loop over the months of `nk_datetime_to_unix`, from the month `x` on. -/
def clockMonths (dpm : List Int) (month : Int) : Nat → Int → Int → IntProg Int
  | 0, _, _ => trap
  | fuel + 1, x, clock =>
      if x = month then pure clock
      else do
        let seconds ← int (spd * (← load dpm x))
        let x ← int (x + 1)
        clockMonths dpm month fuel x (clock + seconds)

/-- `nk_datetime_to_unix`.  The branches for leap years and for other years differ in
the table. -/
def nkDatetimeToUnix (datetime : Nkdatetime) : IntProg Int := do
  let year : Int := datetime.year.toNat
  let month : Int := datetime.month.toNat
  let day : Int := datetime.day.toNat
  let hour : Int := datetime.hour.toNat
  let min : Int := datetime.min.toNat
  let sec : Int := datetime.sec.toNat
  -- Valid year?
  if year < 1970 then pure (-1)
  else
    -- Adjust for year
    let clock ← clockYears year datetime.year.toNat 1970 0
    -- Valid month?
    if month > 11 then pure (-1)
    else
      let dpm := if ← isleapyear year then dpmleap else dpm
      -- Adjust for month
      let clock ← clockMonths dpm month 12 0 clock
      -- Valid day?
      if day ≥ (← load dpm month) then pure (-1)
      else
        -- Adjust for day of month
        let clock := clock + (← int (spd * day))
        -- Adjust for time
        if hour > 23 then pure (-1)
        else if min > 59 then pure (-1)
        else if sec > 59 then pure (-1)
        else
          let hours ← int ((← int (hour * 60)) * 60)
          let mins ← int (min * 60)
          let time ← int ((← int (hours + mins)) + sec)
          pure (clock + time)

/-- `isleapyear(year) ? 366 : 365` -/
def yearDays (year : Int) : IntProg Int := do
  if ← isleapyear year then pure 366 else pure 365

/-- The loop over the years of `nk_unix_to_datetime`: the year and the days left. -/
def takeYears : Nat → Int → Int → IntProg (Int × Int)
  | 0, _, _ => trap
  | fuel + 1, year, days => do
      if days ≥ (← yearDays year) then
        let days ← int (days - (← yearDays year))
        let year ← int (year + 1)
        takeYears fuel year days
      else pure (year, days)

/-- The loop over the months of `nk_unix_to_datetime`: the month and the days left. -/
def takeMonths (dpm : List Int) : Nat → Int → Int → IntProg (Int × Int)
  | 0, _, _ => trap
  | fuel + 1, month, days => do
      if days ≥ (← load dpm month) then
        let days ← int (days - (← load dpm month))
        let month ← int (month + 1)
        takeMonths dpm fuel month days
      else pure (month, days)

/-- `nk_unix_to_datetime`: its return value and what it stores in `*datetime`. -/
def nkUnixToDatetime (unixtime : Int) : IntProg (Int × Option Nkdatetime) := do
  if unixtime < 0 then pure (-1, none)
  else
    let daysSinceYear ← int (unixtime.tdiv spd)
    let secOfDay ← int (unixtime - (← int (daysSinceYear * spd)))
    let hourOfDay ← int (secOfDay.tdiv 3600)
    let secOfHour ← int (secOfDay - (← int (hourOfDay * 3600)))
    let minOfHour ← int (secOfHour.tdiv 60)
    let secOfMin ← int (secOfHour - (← int (minOfHour * 60)))
    let (year, daysSinceYear) ← takeYears (daysSinceYear.toNat + 1) 1970 daysSinceYear
    let dpm := if ← isleapyear year then dpmleap else dpm
    let (month, daysSinceYear) ← takeMonths dpm 12 0 daysSinceYear
    let weekday ← nkCalcDayOfWeek year month daysSinceYear
    pure (0, some
      { year := UInt16.ofNat (wrap 16 year)
        month := UInt8.ofNat (wrap 8 month)
        day := UInt8.ofNat (wrap 8 daysSinceYear)
        weekday := UInt8.ofNat (wrap 8 weekday)
        hour := UInt8.ofNat (wrap 8 hourOfDay)
        min := UInt8.ofNat (wrap 8 minOfHour)
        sec := UInt8.ofNat (wrap 8 secOfMin) })

end LibnklabsPico.Date
