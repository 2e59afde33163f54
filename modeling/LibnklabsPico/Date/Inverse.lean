/-
  Date/Inverse.lean --- with arithmetic modulo 2 ^ 32 the two date conversions are
  inverse to each other.

  The seconds of the days since 1970 do not fit in an `int` for long, but the
  difference that is taken next is right modulo 2 ^ 32, and it is less than a day.
-/
import LibnklabsPico.Date.Conversion

set_option autoImplicit false

namespace LibnklabsPico.Date

open LibnklabsPico.Foundation

/-- The time of day comes out right whatever the product has become. -/
theorem wrapping_rest {days time : Nat} (htime : time < 86400) :
    wrapping ((86400 * days + time : Nat) - int32 (days * spd)) = some (time : Int) := by
  have hexact : int32 ((86400 * days + time : Nat) - int32 (days * spd)) = time := by
    unfold int32 spd
    omega
  rw [wrapping, hexact]

theorem wrapping_nkUnixToDatetime {t : Moment} (ht : t.Valid) (hyear : t.year < 2 ^ 16) :
    result wrapping (nkUnixToDatetime t.seconds) = some (0, some t.datetime) := by
  obtain ⟨-, -, -, hhour, hmin, hsec⟩ := id ht
  have htime : t.seconds % 86400 = 3600 * t.hour + 60 * t.min + t.sec := by
    unfold Moment.seconds
    omega
  refine result_nkUnixToDatetime wrapping_exact ht hyear rfl ?_
  rw [htime]
  exact wrapping_rest (by omega)

theorem wrapping_nkDatetimeToUnix {d : Nkdatetime} (hd : d.moment.Valid) :
    result wrapping (nkDatetimeToUnix d) = some (d.moment.seconds : Int) :=
  result_nkDatetimeToUnix wrapping_exact hd

/-- For every second up to the end of the year 65535 the conversion to a date succeeds,
gives a date that exists, with its day of the week, and is undone by the conversion back.
Every date that exists from 1970 on is given back from its second, and seconds go in the
order of the dates. -/
theorem dateConversions_inverse :
    (∀ t : Int, 0 ≤ t → t < 86400 * (daysBeforeYear 65536 : Int) →
      ∃ d, result wrapping (nkUnixToDatetime t) = some (0, some d) ∧ d.moment.Valid ∧
        result wrapping (nkDatetimeToUnix d) = some t ∧
        (d.weekday.toNat : Int) = (4 + t / 86400) % 7) ∧
    (∀ d : Nkdatetime, d.moment.Valid →
      ∃ t d', result wrapping (nkDatetimeToUnix d) = some t ∧
        result wrapping (nkUnixToDatetime t) = some (0, some d') ∧ d'.moment = d.moment) ∧
    (∀ d d' : Nkdatetime, d.moment.Valid → d'.moment.Valid → d.moment.Before d'.moment →
      ∃ t t', result wrapping (nkDatetimeToUnix d) = some t ∧
        result wrapping (nkDatetimeToUnix d') = some t' ∧ t < t') := by
  refine ⟨?_, ?_, ?_⟩
  · intro t hpos hyears
    obtain ⟨n, rfl⟩ := Int.eq_ofNat_of_zero_le hpos
    obtain ⟨t, ht, rfl⟩ := exists_moment n
    have hyear : t.year < 2 ^ 16 := (ht.year_lt_iff (by decide)).mpr (by exact_mod_cast hyears)
    have hmoment := ht.moment_datetime hyear
    have hweekday : t.datetime.weekday.toNat = (4 + t.dayNumber) % 7 := by
      simp only [Moment.datetime, UInt8.toNat_ofNat']
      omega
    have hday : t.seconds / 86400 = t.dayNumber := by
      obtain ⟨-, -, -, hhour, hmin, hsec⟩ := ht
      unfold Moment.seconds
      omega
    refine ⟨t.datetime, wrapping_nkUnixToDatetime ht hyear, hmoment.symm ▸ ht, ?_, ?_⟩
    · rw [wrapping_nkDatetimeToUnix (hmoment.symm ▸ ht), hmoment]
    · rw [hweekday, ← hday]
      omega
  · intro d hd
    have hyear : d.moment.year < 2 ^ 16 := d.year.toNat_lt
    exact ⟨d.moment.seconds, d.moment.datetime, wrapping_nkDatetimeToUnix hd,
      wrapping_nkUnixToDatetime hd hyear, hd.moment_datetime hyear⟩
  · intro d d' hd hd' hbefore
    exact ⟨d.moment.seconds, d'.moment.seconds, wrapping_nkDatetimeToUnix hd,
      wrapping_nkDatetimeToUnix hd', by exact_mod_cast hd.seconds_lt hd' hbefore⟩

/-- A second in 2096, of a day whose seconds do not fit. -/
theorem dateConversions_inverse_2096 :
    ∃ d, result wrapping (nkUnixToDatetime 4000000000) = some (0, some d) ∧
      result wrapping (nkDatetimeToUnix d) = some 4000000000 ∧ (d.weekday.toNat : Int) = 2 := by
  have hdays : daysBeforeYear 65536 + 477 + 655 = 365 * 63566 + 16383 + 163 :=
    daysBeforeYear_eq 63566
  obtain ⟨d, hunix, -, hback, hweekday⟩ :=
    dateConversions_inverse.1 4000000000 (by decide) (by omega)
  exact ⟨d, hunix, hback, hweekday.trans (by decide)⟩

end LibnklabsPico.Date
