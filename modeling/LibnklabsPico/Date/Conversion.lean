/-
  Date/Conversion.lean --- what the date conversions compute.

  In every arithmetic that is exact for the values that fit in an `int`,
  `nk_datetime_to_unix` of a date that exists is its second.  The other direction
  has two values that need not fit, the seconds of the days since 1970 and what is
  left of the time of day; what it computes follows from what these two become
  (`result_nkUnixToDatetime`).
-/
import LibnklabsPico.Date.Calendar
import LibnklabsPico.Date.Nkdatetime

set_option autoImplicit false

namespace LibnklabsPico.Date

open LibnklabsPico.Foundation

variable {arith : Int → Option Int}

/-! ## Leap years and months -/

theorem fits_natCast {n : Nat} (h : n < 2 ^ 31) : Fits n := by
  unfold Fits
  omega

theorem tmod_natCast (m n : Nat) : (m : Int).tmod n = (m % n : Nat) := rfl

theorem result_isleapyear (exact : Exact arith) (y : Nat) :
    result arith (isleapyear y) = some (decide (IsLeap y)) := by
  have hfour := tmod_natCast y 4
  have hhundred := tmod_natCast y 100
  have hcentury := tmod_natCast y 400
  push_cast at hfour hhundred hcentury
  rw [isleapyear, hfour, result_fits exact (by omega)]
  by_cases hby4 : y % 4 = 0
  · rw [if_neg (by omega), hhundred, result_fits exact (by omega)]
    by_cases hby100 : y % 100 = 0
    · rw [if_pos (by omega), hcentury, result_fits exact (by omega)]
      by_cases hby400 : y % 400 = 0
      · rw [if_neg (by omega), result_pure, decide_eq_true ⟨hby4, Or.inr hby400⟩]
      · have hleap : ¬ IsLeap y := by
          rintro ⟨-, h | h⟩
          · exact h hby100
          · exact hby400 h
        rw [if_pos (by omega), result_pure, decide_eq_false hleap]
    · rw [if_neg (by omega), result_pure, decide_eq_true ⟨hby4, Or.inl hby100⟩]
  · rw [if_pos (by omega), result_pure, decide_eq_false fun hleap => hby4 hleap.1]

theorem result_yearDays (exact : Exact arith) (y : Nat) :
    result arith (yearDays y) = some (yearLen y : Int) := by
  rw [yearDays, result_bind_of (result_isleapyear exact y), yearLen]
  by_cases hleap : IsLeap y
  · rw [if_pos (decide_eq_true hleap), if_pos hleap, result_pure]
    rfl
  · rw [if_neg (by simpa using hleap), if_neg hleap, result_pure]
    rfl

/-- The lengths of the months as the code has them. -/
def monthTable (y : Nat) : List Int := (monthLens y).map Int.ofNat

theorem monthTable_eq (y : Nat) :
    (if decide (IsLeap y) = true then dpmleap else dpm) = monthTable y := by
  unfold monthTable monthLens
  by_cases hleap : IsLeap y
  · rw [if_pos (decide_eq_true hleap), if_pos hleap]
    rfl
  · rw [if_neg (by simpa using hleap), if_neg hleap]
    rfl

theorem result_load_month {y m : Nat} (hm : m < 12) :
    result arith (load (monthTable y) m) = some (monthLen y m : Int) := by
  have hlength : m < (monthLens y).length := hm
  refine result_load ?_
  rw [monthTable, List.getElem?_map, List.getElem?_eq_getElem hlength, monthLen,
    List.getD_eq_getElem?_getD, List.getElem?_eq_getElem hlength]
  rfl

theorem monthLen_le (y : Nat) {m : Nat} (hm : m < 12) : monthLen y m ≤ 31 := by
  have hlen : ∀ len ∈ monthLens y, len ≤ 31 := by
    unfold monthLens
    split <;> decide
  have hlength : m < (monthLens y).length := hm
  rw [monthLen, List.getD_eq_getElem?_getD, List.getElem?_eq_getElem hlength]
  exact hlen _ (List.getElem_mem hlength)

theorem monthLen_pos (y : Nat) {m : Nat} (hm : m < 12) : 0 < monthLen y m := by
  have hlen : ∀ len ∈ monthLens y, 0 < len := by
    unfold monthLens
    split <;> decide
  have hlength : m < (monthLens y).length := hm
  rw [monthLen, List.getD_eq_getElem?_getD, List.getElem?_eq_getElem hlength]
  exact hlen _ (List.getElem_mem hlength)

theorem yearLen_le (y : Nat) : yearLen y ≤ 366 := by
  unfold yearLen
  split <;> decide

/-! ## From a date to seconds -/

/-- The clock after one more span and the spans behind it. -/
theorem clock_step (clock : Int) (len start stop : Nat) :
    clock + 86400 * (len : Int) + 86400 * ((stop : Int) - (start + len : Nat)) =
      clock + 86400 * ((stop : Int) - start) := by
  omega

/-- The loop adds the days of the years that are left. -/
theorem result_clockYears (exact : Exact arith) {fuel i k : Nat} (clock : Int) (hi : i ≤ k)
    (hk : k < 2 ^ 16) (hfuel : k - i < fuel) :
    result arith (clockYears (1970 + k : Nat) fuel (1970 + i : Nat) clock) =
      some (clock + 86400 * ((daysBeforeYear (1970 + k) : Int) - daysBeforeYear (1970 + i))) := by
  induction fuel generalizing i clock with
  | zero => exact absurd hfuel (Nat.not_lt_zero _)
  | succ fuel ih =>
      rw [clockYears]
      by_cases hdone : i = k
      · rw [if_pos (by rw [hdone]), hdone, Int.sub_self, Int.mul_zero, Int.add_zero, result_pure]
      · have hseconds : result arith (if decide (IsLeap (1970 + i)) = true then
            int (spd * 366) else int (spd * 365)) =
              some (86400 * (yearLen (1970 + i) : Int)) := by
          unfold yearLen
          by_cases hleap : IsLeap (1970 + i)
          · rw [if_pos (decide_eq_true hleap), if_pos hleap, result_int, exact _ (by decide)]
            rfl
          · rw [if_neg (by simpa using hleap), if_neg hleap, result_int, exact _ (by decide)]
            rfl
        have hnext : ((1970 + i : Nat) : Int) + 1 = (1970 + (i + 1) : Nat) := by omega
        rw [if_neg (by omega), result_bind_of (result_isleapyear exact _),
          result_bind_of hseconds, hnext, result_fits exact (by omega),
          ih _ (by omega) (by omega), daysBeforeYear_succ]
        exact congrArg some (clock_step clock _ _ _)

/-- The loop adds the days of the months that are left. -/
theorem result_clockMonths (exact : Exact arith) {fuel y m k : Nat} (clock : Int) (hm : m ≤ k)
    (hk : k < 12) (hfuel : k - m < fuel) :
    result arith (clockMonths (monthTable y) k fuel m clock) =
      some (clock + 86400 * ((daysBeforeMonth y k : Int) - daysBeforeMonth y m)) := by
  induction fuel generalizing m clock with
  | zero => exact absurd hfuel (Nat.not_lt_zero _)
  | succ fuel ih =>
      rw [clockMonths]
      by_cases hdone : m = k
      · rw [if_pos (by rw [hdone]), hdone, Int.sub_self, Int.mul_zero, Int.add_zero, result_pure]
      · have hlen := monthLen_le y (show m < 12 by omega)
        have hnext : (m : Int) + 1 = (m + 1 : Nat) := rfl
        have hdays : daysBeforeMonth y (m + 1) = daysBeforeMonth y m + monthLen y m := rfl
        rw [if_neg (by omega), result_bind_of (result_load_month (by omega)),
          result_fits exact (by unfold spd; omega), hnext,
          result_fits exact (by omega), ih _ (by omega) (by omega), hdays]
        exact congrArg some (clock_step clock _ _ _)

/-- The moment of a date. -/
def Nkdatetime.moment (d : Nkdatetime) : Moment :=
  ⟨d.year.toNat, d.month.toNat, d.day.toNat, d.hour.toNat, d.min.toNat, d.sec.toNat⟩

/-- The clock at the start of the year. -/
theorem result_yearClock (exact : Exact arith) {y : Nat} (hyear : 1970 ≤ y) (hbits : y < 2 ^ 16) :
    result arith (clockYears y y 1970 0) = some (86400 * (daysBeforeYear y : Int)) := by
  obtain ⟨k, rfl⟩ := Nat.exists_eq_add_of_le hyear
  have hfuel : k - 0 < 1970 + k := by omega
  have hloop := result_clockYears exact 0 (Nat.zero_le k) (by omega) hfuel
  rwa [daysBeforeYear_start, Int.zero_add, Int.ofNat_zero, Int.sub_zero] at hloop

/-- The clock at the start of the month. -/
theorem result_monthClock (exact : Exact arith) {m : Nat} (y : Nat) (hmonth : m < 12)
    (clock : Int) :
    result arith (clockMonths (monthTable y) m 12 0 clock) =
      some (clock + 86400 * (daysBeforeMonth y m : Int)) := by
  have hfuel : m - 0 < 12 := hmonth
  have hloop := result_clockMonths exact (y := y) clock (Nat.zero_le m) hmonth hfuel
  have hstart : daysBeforeMonth y 0 = 0 := rfl
  rwa [hstart, Int.ofNat_zero, Int.sub_zero] at hloop

/-- `nk_datetime_to_unix` of a date that exists is its second. -/
theorem result_nkDatetimeToUnix (exact : Exact arith) {d : Nkdatetime} (hd : d.moment.Valid) :
    result arith (nkDatetimeToUnix d) = some (d.moment.seconds : Int) := by
  obtain ⟨hyear, hmonth, hday, hhour, hmin, hsec⟩ := hd
  have hbits := d.year.toNat_lt
  simp only [Nkdatetime.moment] at hyear hmonth hday hhour hmin hsec
  unfold nkDatetimeToUnix Moment.seconds Moment.dayNumber
  dsimp only [Nkdatetime.moment]
  generalize d.year.toNat = y at *
  generalize d.month.toNat = m at *
  generalize d.day.toNat = day at *
  generalize d.hour.toNat = hour at *
  generalize d.min.toNat = min at *
  generalize d.sec.toNat = sec at *
  have hlen := monthLen_le y hmonth
  rw [if_neg (by omega), result_bind_of (result_yearClock exact hyear hbits), if_neg (by omega),
    result_bind_of (result_isleapyear exact _), monthTable_eq,
    result_bind_of (result_monthClock exact y hmonth _),
    result_bind_of (result_load_month hmonth), if_neg (by omega),
    result_fits exact (by unfold spd; omega), if_neg (by omega), if_neg (by omega),
    if_neg (by omega), result_fits exact (by omega),
    result_fits exact (by omega), result_fits exact (by omega),
    result_fits exact (by omega), result_fits exact (by omega),
    result_pure]
  unfold spd
  congr 1
  omega

/-- `nk_datetime_to_unix` of anything else is an error. -/
theorem result_nkDatetimeToUnix_invalid (exact : Exact arith) {d : Nkdatetime}
    (hd : ¬ d.moment.Valid) : result arith (nkDatetimeToUnix d) = some (-1) := by
  have hbits := d.year.toNat_lt
  have hinvalid : ¬ (1970 ≤ d.year.toNat ∧ d.month.toNat < 12 ∧
      d.day.toNat < monthLen d.year.toNat d.month.toNat ∧ d.hour.toNat < 24 ∧
      d.min.toNat < 60 ∧ d.sec.toNat < 60) := by
    rintro ⟨hyear, hmonth, hday, hhour, hmin, hsec⟩
    exact hd ⟨hyear, hmonth, hday, hhour, hmin, hsec⟩
  unfold nkDatetimeToUnix
  dsimp only
  generalize d.year.toNat = y at *
  generalize d.month.toNat = m at *
  generalize d.day.toNat = day at *
  generalize d.hour.toNat = hour at *
  generalize d.min.toNat = min at *
  generalize d.sec.toNat = sec at *
  by_cases hyear : 1970 ≤ y
  · rw [if_neg (by omega), result_bind_of (result_yearClock exact hyear hbits)]
    by_cases hmonth : m < 12
    · rw [if_neg (by omega), result_bind_of (result_isleapyear exact _), monthTable_eq,
        result_bind_of (result_monthClock exact y hmonth _),
        result_bind_of (result_load_month hmonth)]
      by_cases hday : day < monthLen y m
      · have hlen := monthLen_le y hmonth
        rw [if_neg (by omega), result_fits exact (by unfold spd; omega)]
        by_cases hhour : hour < 24
        · rw [if_neg (by omega)]
          by_cases hmin : min < 60
          · rw [if_neg (by omega), if_pos (by omega), result_pure]
          · rw [if_pos (by omega), result_pure]
        · rw [if_pos (by omega), result_pure]
      · rw [if_pos (by omega), result_pure]
    · rw [if_pos (by omega), result_pure]
  · rw [if_pos (by omega), result_pure]

/-! ## The day of the week -/

/-- The numbers that the table adds for the months. -/
def monthShift (m : Nat) : Nat := [0, 3, 2, 5, 0, 3, 5, 1, 4, 6, 2, 4].getD m 0

theorem dayOfWeekTable_get {m : Nat} (hm : m < 12) :
    dayOfWeekTable[m]? = some (monthShift m : Int) := by
  have hall : ∀ m < 12, dayOfWeekTable[m]? = some (monthShift m : Int) := by decide
  exact hall m hm

/-- The table has the days before a month modulo 7, with one less from March on, where
the formula counts the year itself. -/
theorem monthShift_eq (y : Nat) {m : Nat} (hm : m < 12) :
    daysBeforeMonth y m % 7 =
      (monthShift m + if m < 2 then 0 else if IsLeap y then 2 else 1) % 7 := by
  have hlens : monthLen y = fun m => (monthLens y).getD m 0 := rfl
  rw [daysBeforeMonth, hlens, monthLens]
  by_cases hleap : IsLeap y
  · rw [if_pos hleap, if_pos hleap]
    revert m
    decide
  · rw [if_neg hleap, if_neg hleap]
    revert m
    decide

/-- A leap year adds a leap day. -/
theorem leapDays_succ (k : Nat) :
    (1970 + k) / 4 + (1969 + k) / 100 + (1970 + k) / 400 =
      (1969 + k) / 4 + (1970 + k) / 100 + (1969 + k) / 400 +
        if IsLeap (1970 + k) then 1 else 0 := by
  by_cases hleap : IsLeap (1970 + k)
  · rw [if_pos hleap]
    unfold IsLeap at hleap
    omega
  · rw [if_neg hleap]
    unfold IsLeap at hleap
    omega

/-- The formula of `nk_calc_day_of_week` counts on from the Thursday that 1970 began
with. -/
theorem weekday_formula (k d : Nat) {m : Nat} (hm : m < 12) {y : Nat}
    (hy : y = if m < 2 then 1969 + k else 1970 + k) :
    (y + y / 4 - y / 100 + y / 400 + monthShift m + (d + 1)) % 7 =
      (4 + (daysBeforeYear (1970 + k) + (daysBeforeMonth (1970 + k) m + d))) % 7 := by
  have hdays := daysBeforeYear_eq k
  have hleap := leapDays_succ k
  have hshift := monthShift_eq (1970 + k) hm
  have hbefore : (1969 + k) / 100 ≤ 1969 + k := Nat.div_le_self ..
  have hthis : (1970 + k) / 100 ≤ 1970 + k := Nat.div_le_self ..
  generalize daysBeforeYear (1970 + k) = total at hdays ⊢
  generalize daysBeforeMonth (1970 + k) m = before at hshift ⊢
  by_cases hearly : m < 2
  · rw [if_pos hearly] at hy hshift
    subst hy
    generalize (1969 + k) / 4 = a, (1969 + k) / 100 = b, (1969 + k) / 400 = c at *
    omega
  · rw [if_neg hearly] at hy hshift
    subst hy
    generalize (1969 + k) / 4 = a, (1969 + k) / 100 = b, (1969 + k) / 400 = c,
      (1970 + k) / 4 = a', (1970 + k) / 100 = b', (1970 + k) / 400 = c' at *
    by_cases h : IsLeap (1970 + k)
    · rw [if_pos h] at hleap hshift
      omega
    · rw [if_neg h] at hleap hshift
      omega

theorem monthShift_le {m : Nat} (hm : m < 12) : monthShift m ≤ 6 := by
  have hall : ∀ m < 12, monthShift m ≤ 6 := by decide
  exact hall m hm

/-- What the function computes, with `y` the year that the formula counts. -/
theorem result_dayOfWeekSum (exact : Exact arith) {year y m d : Nat}
    (hyear : (year : Int) - (if (m : Int) + 1 < 3 then 1 else 0) = (y : Int)) (hbound : y < 2 ^ 17)
    (hm : m < 12) (hd : d < 2 ^ 8) :
    result arith (nkCalcDayOfWeek year m d) =
      some (((y + y / 4 - y / 100 + y / 400 + monthShift m + (d + 1)) % 7 : Nat) : Int) := by
  have hplace : (m : Int) + 1 - 1 = (m : Nat) := by omega
  have hshift := monthShift_le hm
  have hfour : ((y : Int).tdiv 4) = (y / 4 : Nat) := rfl
  have hhundred : ((y : Int).tdiv 100) = (y / 100 : Nat) := rfl
  have hcentury : ((y : Int).tdiv 400) = (y / 400 : Nat) := rfl
  have hle4 := Nat.div_le_self y 4
  have hle100 := Nat.div_le_self y 100
  have hle400 := Nat.div_le_self y 400
  unfold nkCalcDayOfWeek
  rw [result_fits exact (by omega), result_fits exact (by omega),
    hyear, result_fits exact (by omega), hfour, hhundred, hcentury, hplace]
  generalize y / 4 = a, y / 100 = b, y / 400 = c at *
  have hsum : ((y : Int) + a - b + c + monthShift m + ((d : Int) + 1)) =
      (y + a - b + c + monthShift m + (d + 1) : Nat) := by omega
  rw [result_fits exact (by omega), result_fits exact (by omega),
    result_fits exact (by omega), result_fits exact (by omega),
    result_fits exact (by omega), result_fits exact (by omega),
    result_fits exact (by omega),
    result_bind_of (result_load (dayOfWeekTable_get hm)),
    result_fits exact (by omega), result_fits exact (by omega), hsum,
    result_int]
  have hmod : ((y + a - b + c + monthShift m + (d + 1) : Nat) : Int).tmod 7 =
      ((y + a - b + c + monthShift m + (d + 1)) % 7 : Nat) := rfl
  rw [hmod]
  exact exact _ (fits_natCast (by omega))

theorem result_nkCalcDayOfWeek (exact : Exact arith) {k m d : Nat} (hk : k < 2 ^ 16) (hm : m < 12)
    (hd : d < 31) :
    result arith (nkCalcDayOfWeek (1970 + k : Nat) m d) =
      some (((4 + (daysBeforeYear (1970 + k) + (daysBeforeMonth (1970 + k) m + d))) % 7 : Nat) :
        Int) := by
  obtain ⟨y, hy⟩ : ∃ y, y = if m < 2 then 1969 + k else 1970 + k := ⟨_, rfl⟩
  have hyear : ((1970 + k : Nat) : Int) - (if (m : Int) + 1 < 3 then 1 else 0) = (y : Int) := by
    rw [hy]
    by_cases hearly : m < 2
    · rw [if_pos (by omega), if_pos hearly]
      omega
    · rw [if_neg (by omega), if_neg hearly]
      omega
  have hbound : y < 2 ^ 17 := by
    rw [hy]
    split <;> omega
  rw [result_dayOfWeekSum exact hyear hbound hm (by omega), weekday_formula k d hm hy]

/-! ## From seconds to a date -/

/-- The loop finds the year of a day. -/
theorem result_takeYears (exact : Exact arith) {fuel i k r : Nat} (hi : i ≤ k) (hk : k < 2 ^ 16)
    (hr : r < yearLen (1970 + k)) (hfuel : k - i < fuel) {days : Nat}
    (hdays : daysBeforeYear (1970 + i) + days = daysBeforeYear (1970 + k) + r)
    (hbound : days < 2 ^ 31) :
    result arith (takeYears fuel (1970 + i : Nat) days) =
      some (((1970 + k : Nat) : Int), (r : Int)) := by
  induction fuel generalizing i days with
  | zero => exact absurd hfuel (Nat.not_lt_zero _)
  | succ fuel ih =>
      rw [takeYears, result_bind_of (result_yearDays exact _)]
      by_cases hdone : i = k
      · subst hdone
        have hrest : days = r := by omega
        rw [if_neg (by omega), result_pure, hrest]
      · have hend := daysBeforeYear_lt (show i < k by omega)
        have hstep := daysBeforeYear_succ i
        have hleft : (days : Int) - yearLen (1970 + i) = (days - yearLen (1970 + i) : Nat) := by
          omega
        have hnext : ((1970 + i : Nat) : Int) + 1 = (1970 + (i + 1) : Nat) := by omega
        rw [if_pos (by omega), result_bind_of (result_yearDays exact _), hleft,
          result_fits exact (by omega), hnext,
          result_fits exact (by omega)]
        exact ih (by omega) (by omega) (by omega) (by omega)

/-- The loop finds the month of a day of a year. -/
theorem result_takeMonths (exact : Exact arith) {fuel y m k d : Nat} (hm : m ≤ k) (hk : k < 12)
    (hd : d < monthLen y k) (hfuel : k - m < fuel) {days : Nat}
    (hdays : daysBeforeMonth y m + days = daysBeforeMonth y k + d) (hbound : days < 2 ^ 31) :
    result arith (takeMonths (monthTable y) fuel m days) = some ((k : Int), (d : Int)) := by
  induction fuel generalizing m days with
  | zero => exact absurd hfuel (Nat.not_lt_zero _)
  | succ fuel ih =>
      rw [takeMonths, result_bind_of (result_load_month (by omega))]
      by_cases hdone : m = k
      · subst hdone
        have hrest : days = d := by omega
        rw [if_neg (by omega), result_pure, hrest]
      · have hend : daysBeforeMonth y m + monthLen y m ≤ daysBeforeMonth y k :=
          spanEnd_le (monthLen y) (by omega)
        have hstep : daysBeforeMonth y (m + 1) = daysBeforeMonth y m + monthLen y m := rfl
        have hleft : (days : Int) - monthLen y m = (days - monthLen y m : Nat) := by omega
        have hnext : (m : Int) + 1 = (m + 1 : Nat) := rfl
        rw [if_pos (by omega), result_bind_of (result_load_month (by omega)), hleft,
          result_fits exact (by omega), hnext,
          result_fits exact (by omega)]
        exact ih (by omega) (by omega) (by omega) (by omega)

/-- A moment as the code stores it. -/
def Moment.datetime (t : Moment) : Nkdatetime where
  sec := UInt8.ofNat t.sec
  min := UInt8.ofNat t.min
  hour := UInt8.ofNat t.hour
  weekday := UInt8.ofNat ((4 + t.dayNumber) % 7)
  day := UInt8.ofNat t.day
  month := UInt8.ofNat t.month
  year := UInt16.ofNat t.year

/-- The days of the moments whose year fits in the year field. -/
theorem Moment.Valid.dayNumber_le {t : Moment} (ht : t.Valid) (hyear : t.year < 2 ^ 16) :
    t.dayNumber < 2 ^ 25 := by
  obtain ⟨k, hk⟩ := Nat.exists_eq_add_of_le ht.year
  have hdays := daysBeforeYear_eq k
  have hday := day_lt ht.month ht.day
  have hlen := yearLen_le (1970 + k)
  rw [Moment.dayNumber, hk]
  rw [hk] at hday
  omega

/-- What is stored is the moment. -/
theorem Moment.Valid.moment_datetime {t : Moment} (ht : t.Valid) (hyear : t.year < 2 ^ 16) :
    t.datetime.moment = t := by
  obtain ⟨-, hmonth, hday, hhour, hmin, hsec⟩ := ht
  have hlen := monthLen_le t.year hmonth
  cases t
  dsimp only at hmonth hday hhour hmin hsec hlen hyear
  simp only [Moment.datetime, Nkdatetime.moment, UInt8.toNat_ofNat', UInt16.toNat_ofNat',
    Moment.mk.injEq]
  omega

/-- `nk_unix_to_datetime` of a second is its moment, when the seconds of the days come
out in some way and the time of day comes out right. -/
theorem result_nkUnixToDatetime (exact : Exact arith) {t : Moment} (ht : t.Valid)
    (hyear : t.year < 2 ^ 16) {product : Int}
    (hproduct : arith (t.dayNumber * spd) = some product)
    (hrest : arith (t.seconds - product) = some ((t.seconds % 86400 : Nat) : Int)) :
    result arith (nkUnixToDatetime t.seconds) = some (0, some t.datetime) := by
  have hbound := ht.dayNumber_le hyear
  obtain ⟨hfrom, hmonth, hday, hhour, hmin, hsec⟩ := ht
  have htime : t.seconds % 86400 = 3600 * t.hour + 60 * t.min + t.sec := by
    unfold Moment.seconds
    omega
  have hdays : (t.seconds : Int).tdiv spd = (t.dayNumber : Int) := by
    have hdiv : t.seconds / 86400 = t.dayNumber := by
      unfold Moment.seconds
      omega
    rw [← hdiv]
    rfl
  have hhours : ((t.seconds % 86400 : Nat) : Int).tdiv 3600 = (t.hour : Int) := by
    have hdiv : t.seconds % 86400 / 3600 = t.hour := by omega
    rw [← hdiv]
    rfl
  have hmins : ((60 * t.min + t.sec : Nat) : Int).tdiv 60 = (t.min : Int) := by
    have hdiv : (60 * t.min + t.sec) / 60 = t.min := by omega
    have hcast : ((60 * t.min + t.sec : Nat) : Int).tdiv 60 =
        ((60 * t.min + t.sec) / 60 : Nat) := rfl
    rw [hcast, hdiv]
  have hleft : ((t.seconds % 86400 : Nat) : Int) - t.hour * 3600 =
      (60 * t.min + t.sec : Nat) := by omega
  have hleft' : ((60 * t.min + t.sec : Nat) : Int) - t.min * 60 = (t.sec : Nat) := by omega
  have hfirst : result arith (int (t.dayNumber * spd)) = some product := by
    rw [result_int, hproduct]
  have hsecond : result arith (int (t.seconds - product)) =
      some ((t.seconds % 86400 : Nat) : Int) := by
    rw [result_int, hrest]
  obtain ⟨k, hk⟩ := Nat.exists_eq_add_of_le hfrom
  have hdate := day_lt hmonth hday
  have hnumber : t.dayNumber = daysBeforeYear t.year +
      (daysBeforeMonth t.year t.month + t.day) := rfl
  have hlen := monthLen_le t.year hmonth
  rw [hk] at hday hdate hnumber hlen hyear
  have hk' := le_daysBeforeYear k
  have hyears : result arith (takeYears ((t.dayNumber : Int).toNat + 1) 1970 t.dayNumber) =
      some (((1970 + k : Nat) : Int),
        ((daysBeforeMonth (1970 + k) t.month + t.day : Nat) : Int)) := by
    have hfuel : k - 0 < (t.dayNumber : Int).toNat + 1 := by omega
    have hstart : daysBeforeYear (1970 + 0) + t.dayNumber =
        daysBeforeYear (1970 + k) + (daysBeforeMonth (1970 + k) t.month + t.day) := by
      rw [daysBeforeYear_start, hnumber, Nat.zero_add]
    exact result_takeYears exact (Nat.zero_le k) (by omega) hdate hfuel hstart (by omega)
  have hmonths : result arith (takeMonths (monthTable (1970 + k)) 12 0
        ((daysBeforeMonth (1970 + k) t.month + t.day : Nat) : Int)) =
      some ((t.month : Int), (t.day : Int)) := by
    have hfuel : t.month - 0 < 12 := hmonth
    exact result_takeMonths exact (Nat.zero_le _) hmonth hday hfuel (Nat.zero_add _) (by omega)
  have hweekday := result_nkCalcDayOfWeek exact (k := k) (d := t.day) (by omega) hmonth
    (by omega)
  rw [← hnumber] at hweekday
  unfold nkUnixToDatetime
  rw [if_neg (by omega), hdays, result_fits exact (by omega),
    result_bind_of hfirst, result_bind_of hsecond, hhours,
    result_fits exact (by omega), result_fits exact (by omega), hleft,
    result_fits exact (by omega), hmins,
    result_fits exact (by omega), result_fits exact (by omega), hleft',
    result_fits exact (by omega), result_bind_of hyears]
  dsimp only
  rw [result_bind_of (result_isleapyear exact _), monthTable_eq, result_bind_of hmonths]
  dsimp only
  rw [result_bind_of hweekday, result_pure, wrap_natCast (by omega), wrap_natCast (by omega),
    wrap_natCast (by omega), wrap_natCast (by omega), wrap_natCast (by omega),
    wrap_natCast (by omega), wrap_natCast (by omega), Moment.datetime, hk]

end LibnklabsPico.Date
