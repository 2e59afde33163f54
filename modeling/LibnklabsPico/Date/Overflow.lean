/-
  Date/Overflow.lean --- the date conversions in an arithmetic in which an `int` does
  not overflow.
-/
import LibnklabsPico.Date.Conversion

set_option autoImplicit false

namespace LibnklabsPico.Date

open LibnklabsPico.Foundation

/-- A second whose day starts before 2 ^ 31 seconds is converted without an overflow. -/
theorem checked_nkUnixToDatetime {t : Moment} (ht : t.Valid) (hyear : t.year < 2 ^ 16)
    (hearly : t.seconds < 24856 * 86400) :
    result checked (nkUnixToDatetime t.seconds) = some (0, some t.datetime) := by
  obtain ⟨-, -, -, hhour, hmin, hsec⟩ := id ht
  have hday : t.seconds = 86400 * t.dayNumber + (3600 * t.hour + 60 * t.min + t.sec) := rfl
  have hfits : Fits (t.dayNumber * spd) := by
    unfold Fits spd
    omega
  refine result_nkUnixToDatetime checked_exact ht hyear (checked_exact _ hfits) ?_
  have hrest : (t.seconds : Int) - t.dayNumber * spd = (t.seconds % 86400 : Nat) := by
    unfold spd
    omega
  rw [hrest]
  exact checked_exact _ (fits_natCast (by omega))

/-- From then on the seconds of the days overflow. -/
theorem nkUnixToDatetime_overflow {t : Moment} (ht : t.Valid) (hyear : t.year < 2 ^ 16)
    (hlate : 24856 * 86400 ≤ t.seconds) :
    result checked (nkUnixToDatetime t.seconds) = none := by
  have hbound := ht.dayNumber_le hyear
  obtain ⟨-, -, -, hhour, hmin, hsec⟩ := ht
  have hday : t.seconds = 86400 * t.dayNumber + (3600 * t.hour + 60 * t.min + t.sec) := rfl
  have hdays : (t.seconds : Int).tdiv spd = (t.dayNumber : Int) := by
    have hdiv : t.seconds / 86400 = t.dayNumber := by omega
    rw [← hdiv]
    rfl
  have hfits : ¬ Fits (t.dayNumber * spd) := by
    unfold Fits spd
    omega
  unfold nkUnixToDatetime
  rw [if_neg (by omega), hdays, result_fits checked_exact (by omega),
    result_overflow hfits]

/-- In the years 2000 to 2099 no computation of `nk_unix_to_datetime` overflows exactly
before 2038-01-20 00:00:00, and none of `nk_datetime_to_unix` ever does. -/
theorem noOverflow_iff {t : Int} (hstart : 86400 * (daysBeforeYear 2000 : Int) ≤ t)
    (hend : t < 86400 * (daysBeforeYear 2100 : Int)) :
    ((result checked (nkUnixToDatetime t)).isSome ↔ t < 24856 * 86400) ∧
    ∀ d : Nkdatetime, d.moment.Valid → 2000 ≤ d.moment.year → d.moment.year ≤ 2099 →
      (result checked (nkDatetimeToUnix d)).isSome := by
  constructor
  · obtain ⟨n, rfl⟩ := Int.eq_ofNat_of_zero_le (show 0 ≤ t by omega)
    obtain ⟨t, ht, rfl⟩ := exists_moment n
    have hyear : t.year < 2100 := (ht.year_lt_iff (by decide)).mpr (by exact_mod_cast hend)
    have hfield : t.year < 2 ^ 16 := by omega
    constructor
    · intro hsome
      by_contra hlate
      rw [nkUnixToDatetime_overflow ht hfield (by omega)] at hsome
      cases hsome
    · intro hearly
      rw [checked_nkUnixToDatetime ht hfield (by omega)]
      rfl
  · intro d hd _ _
    rw [result_nkDatetimeToUnix checked_exact hd]
    rfl

/-- The first second of 2001 is early enough. -/
theorem noOverflow_iff_2001 :
    (result checked (nkUnixToDatetime (11323 * 86400))).isSome := by
  have h2000 : daysBeforeYear 2000 + 477 + 19 = 365 * 30 + 499 + 4 := daysBeforeYear_eq 30
  have h2100 : daysBeforeYear 2100 + 477 + 20 = 365 * 130 + 524 + 5 := daysBeforeYear_eq 130
  have hstart : 86400 * (daysBeforeYear 2000 : Int) ≤ 11323 * 86400 := by omega
  have hend : (11323 * 86400 : Int) < 86400 * (daysBeforeYear 2100 : Int) := by omega
  exact (noOverflow_iff hstart hend).1.mpr (by decide)

/-- The first second of 2038-01-20 overflows. -/
theorem not_noOverflow_2038 :
    ¬ ∀ t : Int, 86400 * (daysBeforeYear 2000 : Int) ≤ t →
      t < 86400 * (daysBeforeYear 2100 : Int) → (result checked (nkUnixToDatetime t)).isSome := by
  intro hall
  have h2000 : daysBeforeYear 2000 + 477 + 19 = 365 * 30 + 499 + 4 := daysBeforeYear_eq 30
  have h2100 : daysBeforeYear 2100 + 477 + 20 = 365 * 130 + 524 + 5 := daysBeforeYear_eq 130
  obtain ⟨t, ht, hseconds⟩ := exists_moment (24856 * 86400)
  have hyear : t.year < 2100 := (ht.year_lt_iff (by decide)).mpr (by omega)
  have hsome := hall t.seconds (by omega) (by omega)
  rw [nkUnixToDatetime_overflow ht (by omega) (by omega)] at hsome
  cases hsome

end LibnklabsPico.Date
