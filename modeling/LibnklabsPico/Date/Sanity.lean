/-
  Date/Sanity.lean --- `nk_datetime_sanity` of `libnklabs/src/nkdatetime.c`, and when
  what it leaves is legal.

  Each field is checked by itself, so the day that is left can be one that the month
  does not have.
-/
import LibnklabsPico.Date.Conversion

set_option autoImplicit false

namespace LibnklabsPico.Date

open LibnklabsPico.Foundation

attribute [ext] Nkdatetime

deriving instance DecidableEq for Nkdatetime

/-- A field that is out of range is repaired, and this is reported. -/
def repairIf (bad : Bool) (repaired : Nkdatetime) (s : Int × Nkdatetime) : Int × Nkdatetime :=
  if bad then (-1, repaired) else s

/-- `nk_datetime_sanity`: its return value and what it leaves in `*datetime`. -/
def nkDatetimeSanity (datetime : Nkdatetime) : Int × Nkdatetime :=
  let s : Int × Nkdatetime := (0, datetime)
  let s := repairIf (s.2.sec > 59) { s.2 with min := 0 } s
  let s := repairIf (s.2.min > 59) { s.2 with min := 0 } s
  let s := repairIf (s.2.hour > 23) { s.2 with hour := 0 } s
  let s := repairIf (s.2.weekday > 6) { s.2 with weekday := 0 } s
  let s := repairIf (s.2.day > 30) { s.2 with day := 0 } s
  let s := repairIf (s.2.month > 11) { s.2 with month := 0 } s
  let s := if s.2.year < 2000 then (s.1, { s.2 with year := 2000 }) else s
  repairIf (s.2.year > 2199) { s.2 with year := 2000 } s

/-! ## What is left -/

section Repaired

variable {d : Nkdatetime}

@[simp] theorem repairIf_fst (bad : Bool) (repaired : Nkdatetime) (s : Int × Nkdatetime) :
    (repairIf bad repaired s).1 = if bad then -1 else s.1 := by
  cases bad <;> rfl

@[simp] theorem repairIf_snd (bad : Bool) (repaired : Nkdatetime) (s : Int × Nkdatetime) :
    (repairIf bad repaired s).2 = if bad then repaired else s.2 := by
  cases bad <;> rfl

/-- What `nk_datetime_sanity` leaves, field by field. -/
theorem nkDatetimeSanity_snd (d : Nkdatetime) :
    (nkDatetimeSanity d).2 =
      { sec := d.sec
        min := if d.sec > 59 ∨ d.min > 59 then 0 else d.min
        hour := if d.hour > 23 then 0 else d.hour
        weekday := if d.weekday > 6 then 0 else d.weekday
        day := if d.day > 30 then 0 else d.day
        month := if d.month > 11 then 0 else d.month
        year := if d.year < 2000 ∨ d.year > 2199 then 2000 else d.year } := by
  unfold nkDatetimeSanity
  ext1
  all_goals simp only [repairIf_snd, apply_ite Prod.snd, apply_ite Nkdatetime.sec,
    apply_ite Nkdatetime.min, apply_ite Nkdatetime.hour, apply_ite Nkdatetime.weekday,
    apply_ite Nkdatetime.day, apply_ite Nkdatetime.month, apply_ite Nkdatetime.year, ite_self,
    decide_eq_true_eq]
  case min =>
    by_cases hsec : d.sec > 59
    · simp [hsec]
    · simp [hsec]
  case year =>
    by_cases hyear : d.year < 2000
    · simp [hyear]
    · simp [hyear]

/-- What `nk_datetime_sanity` reports: whether a check other than that for an early
year fires. -/
theorem nkDatetimeSanity_fst (d : Nkdatetime) :
    (nkDatetimeSanity d).1 =
      if d.sec > 59 ∨ d.min > 59 ∨ d.hour > 23 ∨ d.weekday > 6 ∨ d.day > 30 ∨ d.month > 11 ∨
        d.year > 2199 then -1 else 0 := by
  unfold nkDatetimeSanity
  simp only [repairIf_fst, repairIf_snd, apply_ite Prod.fst, apply_ite Prod.snd,
    apply_ite Nkdatetime.sec, apply_ite Nkdatetime.min, apply_ite Nkdatetime.hour,
    apply_ite Nkdatetime.weekday, apply_ite Nkdatetime.day, apply_ite Nkdatetime.month,
    apply_ite Nkdatetime.year, ite_self, decide_eq_true_eq, ← ite_or]
  refine if_congr ?_ rfl rfl
  have hmin : (if d.sec > 59 then 0 else d.min) > 59 ∨ d.sec > 59 ↔ d.sec > 59 ∨ d.min > 59 := by
    by_cases hsec : d.sec > 59
    · simp [hsec]
    · simp [hsec]
  have hyear : (if d.year < 2000 then 2000 else d.year) > 2199 ↔ d.year > 2199 := by
    by_cases hearly : d.year < 2000
    · have hlate : ¬ d.year > 2199 := fun h => absurd (UInt16.lt_trans h hearly) (by decide)
      simp [hearly, hlate]
    · rw [if_neg hearly]
  rw [hmin, hyear]
  tauto

/-! ## Legal dates -/

/-- A legal date: the day of the week exists and `nk_datetime_to_unix` accepts the
rest. -/
def Legal (d : Nkdatetime) : Prop :=
  d.weekday ≤ 6 ∧ ∃ t, result checked (nkDatetimeToUnix d) = some t ∧ t ≠ -1

theorem legal_iff : Legal d ↔ d.weekday ≤ 6 ∧ d.moment.Valid := by
  refine and_congr_right fun _ => ?_
  by_cases hvalid : d.moment.Valid
  · rw [result_nkDatetimeToUnix checked_exact hvalid]
    exact iff_of_true ⟨_, rfl, by omega⟩ hvalid
  · rw [result_nkDatetimeToUnix_invalid checked_exact hvalid]
    refine iff_of_false ?_ hvalid
    rintro ⟨t, ht, hne⟩
    exact hne (Option.some.inj ht).symm

/-- The promise of `nk_datetime_sanity` for a date: it is legal afterwards, the
return value is 0 only if it was legal and then it is unchanged, it is -1 if
something was changed, and doing it again does nothing. -/
structure Legalises (d : Nkdatetime) : Prop where
  legal : Legal (nkDatetimeSanity d).2
  accepted : (nkDatetimeSanity d).1 = 0 →
    Legal d ∧ (2000 ≤ d.year → d.year ≤ 2199 → (nkDatetimeSanity d).2 = d)
  reported : (nkDatetimeSanity d).2 ≠ d → (nkDatetimeSanity d).1 = -1
  idempotent : nkDatetimeSanity (nkDatetimeSanity d).2 = (0, (nkDatetimeSanity d).2)

/-- The month has the day once day, month and year have been repaired one by one. -/
def DayRemains (d : Nkdatetime) : Prop :=
  d.day > 30 ∨ d.month > 11 ∨
    d.day.toNat < monthLen (if 2000 ≤ d.year ∧ d.year ≤ 2199 then d.year.toNat else 2000)
      d.month.toNat

theorem repairedYear :
    (if d.year < 2000 ∨ d.year > 2199 then 2000 else d.year).toNat =
      if 2000 ≤ d.year ∧ d.year ≤ 2199 then d.year.toNat else 2000 := by
  by_cases hyear : 2000 ≤ d.year ∧ d.year ≤ 2199
  · have hkept : ¬ (d.year < 2000 ∨ d.year > 2199) := by grind
    rw [if_pos hyear, if_neg hkept]
  · have hrepaired : d.year < 2000 ∨ d.year > 2199 := by grind
    rw [if_neg hyear, if_pos hrepaired]
    rfl

/-- January has all the days there are. -/
theorem day_lt_january {day : UInt8} (y : Nat) (hday : day ≤ 30) : day.toNat < monthLen y 0 := by
  have hle : day.toNat ≤ 30 := hday
  exact Nat.lt_succ_of_le hle

/-- The day that is left is one of the month that is left. -/
theorem repairedDay (y : Nat) :
    (if d.day > 30 then 0 else d.day).toNat <
        monthLen y (if d.month > 11 then 0 else d.month).toNat ↔
      d.day > 30 ∨ d.month > 11 ∨ d.day.toNat < monthLen y d.month.toNat := by
  by_cases hmonth : d.month > 11
  · have hday : (if d.day > 30 then 0 else d.day) ≤ 30 := by grind
    rw [if_pos hmonth]
    exact iff_of_true (day_lt_january y hday) (Or.inr (Or.inl hmonth))
  · rw [if_neg hmonth]
    by_cases hday : d.day > 30
    · have hmonth : d.month.toNat < 12 := Nat.lt_succ_of_le (UInt8.not_lt.mp hmonth)
      rw [if_pos hday]
      exact iff_of_true (monthLen_pos y hmonth) (Or.inl hday)
    · rw [if_neg hday]
      exact ⟨fun h => Or.inr (Or.inr h), fun h => (h.resolve_left hday).resolve_left hmonth⟩

/-- The checks leave a legal date exactly if the second was in range and the month
has the day that is left. -/
theorem legal_sanity_iff : Legal (nkDatetimeSanity d).2 ↔ d.sec ≤ 59 ∧ DayRemains d := by
  have hmin : (if d.sec > 59 ∨ d.min > 59 then 0 else d.min) ≤ 59 := by grind
  have hhour : (if d.hour > 23 then 0 else d.hour) ≤ 23 := by grind
  have hweekday : (if d.weekday > 6 then 0 else d.weekday) ≤ 6 := by grind
  have hmonth : (if d.month > 11 then 0 else d.month) ≤ 11 := by grind
  have hyear : 2000 ≤ (if d.year < 2000 ∨ d.year > 2199 then 2000 else d.year) := by grind
  rw [legal_iff, nkDatetimeSanity_snd, DayRemains, ← repairedYear, ← repairedDay]
  constructor
  · rintro ⟨-, hvalid⟩
    exact ⟨Nat.le_of_lt_succ hvalid.sec, hvalid.day⟩
  · rintro ⟨hsec, hday⟩
    have hearliest : 1970 ≤ 2000 := by decide
    exact ⟨hweekday, Nat.le_trans hearliest hyear, Nat.lt_succ_of_le hmonth, hday,
      Nat.lt_succ_of_le hhour, Nat.lt_succ_of_le hmin, Nat.lt_succ_of_le hsec⟩

/-- A date that needs no repair is left alone. -/
theorem nkDatetimeSanity_fixed (hsec : d.sec ≤ 59) (hmin : d.min ≤ 59) (hhour : d.hour ≤ 23)
    (hweekday : d.weekday ≤ 6) (hday : d.day ≤ 30) (hmonth : d.month ≤ 11)
    (hfrom : 2000 ≤ d.year) (hupto : d.year ≤ 2199) : nkDatetimeSanity d = (0, d) := by
  refine Prod.ext ?_ ?_
  · rw [nkDatetimeSanity_fst]
    grind
  · rw [nkDatetimeSanity_snd]
    ext1
    all_goals grind

/-- A second run finds nothing to repair but the second. -/
theorem nkDatetimeSanity_again (hsec : d.sec ≤ 59) :
    nkDatetimeSanity (nkDatetimeSanity d).2 = (0, (nkDatetimeSanity d).2) := by
  rw [nkDatetimeSanity_snd d]
  apply nkDatetimeSanity_fixed
  all_goals grind

end Repaired

/-- `nk_datetime_sanity` does what it promises exactly if the second is in range, an
early year is not the only thing to repair, and the month has the day that is left. -/
theorem legalises_iff (d : Nkdatetime) :
    Legalises d ↔ d.sec ≤ 59 ∧
      (2000 ≤ d.year ∨ d.min > 59 ∨ d.hour > 23 ∨ d.weekday > 6 ∨ d.day > 30 ∨ d.month > 11) ∧
      DayRemains d := by
  constructor
  · rintro ⟨hlegal, -, hreported, -⟩
    obtain ⟨hsec, hday⟩ := legal_sanity_iff.mp hlegal
    refine ⟨hsec, ?_, hday⟩
    by_contra hunreported
    have hchanged : (nkDatetimeSanity d).2 ≠ d := by
      intro hsame
      have hyear := congrArg Nkdatetime.year hsame
      rw [nkDatetimeSanity_snd] at hyear
      grind
    have hreport := hreported hchanged
    rw [nkDatetimeSanity_fst] at hreport
    grind
  · rintro ⟨hsec, hreport, hday⟩
    have hlegal := legal_sanity_iff.mpr ⟨hsec, hday⟩
    have hfixed (hzero : (nkDatetimeSanity d).1 = 0) : nkDatetimeSanity d = (0, d) := by
      rw [nkDatetimeSanity_fst] at hzero
      apply nkDatetimeSanity_fixed
      all_goals grind
    refine ⟨hlegal, ?_, ?_, nkDatetimeSanity_again hsec⟩
    · intro hzero
      rw [hfixed hzero] at hlegal ⊢
      exact ⟨hlegal, fun _ _ => rfl⟩
    · intro hchanged
      have hnonzero : (nkDatetimeSanity d).1 ≠ 0 := fun hzero => hchanged (by rw [hfixed hzero])
      rw [nkDatetimeSanity_fst] at hnonzero ⊢
      grind

/-- The second 60 and the thirty-first of February stay; 1999 becomes 2000 without a
report. -/
theorem not_legalises :
    ¬ Legalises ⟨60, 0, 0, 0, 0, 0, 2020⟩ ∧ ¬ Legalises ⟨0, 0, 0, 0, 30, 1, 2021⟩ ∧
      ¬ Legalises ⟨0, 0, 0, 0, 0, 0, 1999⟩ := by
  refine ⟨?_, ?_, ?_⟩
  · intro h
    have hsec := (legal_iff.mp h.legal).2.sec
    exact absurd hsec (by decide)
  · intro h
    have hday := (legal_iff.mp h.legal).2.day
    exact absurd hday (by decide)
  · intro h
    exact absurd (h.reported (by decide)) (by decide)

end LibnklabsPico.Date
