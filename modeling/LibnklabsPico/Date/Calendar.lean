/-
  Date/Calendar.lean --- the Gregorian calendar from 1970 on.

  A moment has a year, a month and a day, both counted from zero, and a time of
  day.  Years and months are spans of days, so every second is one valid moment
  (`exists_moment`) and seconds go in the order of moments (`Moment.seconds_lt`).
-/
import LibnklabsPico.Foundation.Spans

set_option autoImplicit false

namespace LibnklabsPico.Date

open LibnklabsPico.Foundation

/-- Years of 366 days: multiples of four except those of 100 that are not multiples
of 400. -/
def IsLeap (y : Nat) : Prop := y % 4 = 0 ∧ (y % 100 ≠ 0 ∨ y % 400 = 0)

instance (y : Nat) : Decidable (IsLeap y) := inferInstanceAs (Decidable (_ ∧ _))

def yearLen (y : Nat) : Nat := if IsLeap y then 366 else 365

/-- The lengths of the months. -/
def monthLens (y : Nat) : List Nat :=
  [31, if IsLeap y then 29 else 28, 31, 30, 31, 30, 31, 31, 30, 31, 30, 31]

def monthLen (y m : Nat) : Nat := (monthLens y).getD m 0

/-- The days from the start of 1970 to the start of a year. -/
def daysBeforeYear (y : Nat) : Nat := spanStart (fun i => yearLen (1970 + i)) (y - 1970)

/-- The days from the start of a year to the start of a month. -/
def daysBeforeMonth (y m : Nat) : Nat := spanStart (monthLen y) m

/-- A date and a time of day. -/
structure Moment where
  year : Nat
  month : Nat
  day : Nat
  hour : Nat
  min : Nat
  sec : Nat

namespace Moment

/-- The moment exists. -/
structure Valid (t : Moment) : Prop where
  year : 1970 ≤ t.year
  month : t.month < 12
  day : t.day < monthLen t.year t.month
  hour : t.hour < 24
  min : t.min < 60
  sec : t.sec < 60

/-- The day of a moment, from the start of 1970. -/
def dayNumber (t : Moment) : Nat :=
  daysBeforeYear t.year + (daysBeforeMonth t.year t.month + t.day)

/-- The second of a moment, from the start of 1970. -/
def seconds (t : Moment) : Nat :=
  86400 * t.dayNumber + (3600 * t.hour + 60 * t.min + t.sec)

/-- The earlier of two moments differs in a field that is less, after equal ones. -/
def Before (t t' : Moment) : Prop :=
  t.year < t'.year ∨ t.year = t'.year ∧
    (t.month < t'.month ∨ t.month = t'.month ∧
      (t.day < t'.day ∨ t.day = t'.day ∧
        (t.hour < t'.hour ∨ t.hour = t'.hour ∧
          (t.min < t'.min ∨ t.min = t'.min ∧ t.sec < t'.sec))))

end Moment

/-! ## Days -/

theorem yearLen_pos (y : Nat) : 0 < yearLen y := by
  unfold yearLen
  split <;> decide

/-- The months make up the year. -/
theorem daysBeforeMonth_twelve (y : Nat) : daysBeforeMonth y 12 = yearLen y := by
  unfold daysBeforeMonth yearLen
  simp only [spanStart, monthLen, monthLens, List.getD_cons_zero, List.getD_cons_succ]
  split <;> rfl

/-- A day of a month is a day of the year. -/
theorem day_lt {y m d : Nat} (hm : m < 12) (hd : d < monthLen y m) :
    daysBeforeMonth y m + d < yearLen y := by
  have hend := spanEnd_le (monthLen y) hm
  rw [← daysBeforeMonth_twelve]
  unfold daysBeforeMonth
  omega

theorem daysBeforeYear_start : daysBeforeYear (1970 + 0) = 0 := rfl

theorem daysBeforeYear_succ (y : Nat) :
    daysBeforeYear (1970 + (y + 1)) = daysBeforeYear (1970 + y) + yearLen (1970 + y) := by
  simp only [daysBeforeYear, Nat.add_sub_cancel_left, spanStart_succ]

/-- A year ends before a later one begins. -/
theorem daysBeforeYear_lt {y y' : Nat} (h : y < y') :
    daysBeforeYear (1970 + y) + yearLen (1970 + y) ≤ daysBeforeYear (1970 + y') := by
  simp only [daysBeforeYear, Nat.add_sub_cancel_left]
  exact spanEnd_le (fun i => yearLen (1970 + i)) h

theorem le_daysBeforeYear (y : Nat) : y ≤ daysBeforeYear (1970 + y) := by
  rw [daysBeforeYear, Nat.add_sub_cancel_left]
  exact le_spanStart (fun i => yearLen_pos (1970 + i)) y

/-- The days of the years before a year, and the leap days among them. -/
theorem daysBeforeYear_eq (y : Nat) :
    daysBeforeYear (1970 + y) + 477 + (1969 + y) / 100 =
      365 * y + (1969 + y) / 4 + (1969 + y) / 400 := by
  rw [daysBeforeYear, Nat.add_sub_cancel_left]
  induction y with
  | zero => rfl
  | succ y ih =>
      rw [spanStart_succ, yearLen]
      by_cases hleap : IsLeap (1970 + y)
      · rw [if_pos hleap]
        unfold IsLeap at hleap
        omega
      · rw [if_neg hleap]
        unfold IsLeap at hleap
        omega

namespace Moment

variable {t t' : Moment}

theorem Valid.dayNumber_lt (ht : t.Valid) (ht' : t'.Valid)
    (h : t.year < t'.year ∨ t.year = t'.year ∧
      (t.month < t'.month ∨ t.month = t'.month ∧ t.day < t'.day)) :
    t.dayNumber < t'.dayNumber := by
  obtain ⟨y, hy⟩ := Nat.exists_eq_add_of_le ht.year
  obtain ⟨y', hy'⟩ := Nat.exists_eq_add_of_le ht'.year
  have hday := day_lt ht.month ht.day
  simp only [dayNumber, daysBeforeYear, hy, hy', Nat.add_sub_cancel_left] at h hday ⊢
  refine span_lt hday ?_
  rcases h with hyear | ⟨hyear, hrest⟩
  · exact Or.inl (by omega)
  · have hyears : y = y' := by omega
    subst hyears
    refine Or.inr ⟨rfl, span_lt ?_ hrest⟩
    exact hy ▸ ht.day

/-- Seconds go in the order of moments. -/
theorem Valid.seconds_lt (ht : t.Valid) (ht' : t'.Valid) (h : t.Before t') :
    t.seconds < t'.seconds := by
  have hhour := ht.hour
  have hmin := ht.min
  have hsec := ht.sec
  have hmin' := ht'.min
  by_cases hday : t.year < t'.year ∨ t.year = t'.year ∧
      (t.month < t'.month ∨ t.month = t'.month ∧ t.day < t'.day)
  · have hless := ht.dayNumber_lt ht' hday
    unfold seconds
    omega
  · obtain ⟨hyear, hmonth, hday, htime⟩ : t.year = t'.year ∧ t.month = t'.month ∧
        t.day = t'.day ∧ (t.hour < t'.hour ∨ t.hour = t'.hour ∧
          (t.min < t'.min ∨ t.min = t'.min ∧ t.sec < t'.sec)) := by
      unfold Before at h
      omega
    unfold seconds dayNumber
    rw [hyear, hmonth, hday]
    omega

end Moment

/-- Every day is a day of a month of a year. -/
theorem exists_date (n : Nat) :
    ∃ y m d, m < 12 ∧ d < monthLen (1970 + y) m ∧
      n = daysBeforeYear (1970 + y) + (daysBeforeMonth (1970 + y) m + d) := by
  have hreach : n < spanStart (fun i => yearLen (1970 + i)) (n + 1) :=
    le_spanStart (fun i => yearLen_pos (1970 + i)) (n + 1)
  obtain ⟨y, -, r, hr, hn⟩ := exists_span hreach
  rw [← daysBeforeMonth_twelve] at hr
  obtain ⟨m, hm, d, hd, hday⟩ := exists_span hr
  refine ⟨y, m, d, hm, hd, ?_⟩
  rw [hn, hday, daysBeforeYear, Nat.add_sub_cancel_left, daysBeforeMonth]

/-- Every second is a moment. -/
theorem exists_moment (n : Nat) : ∃ t : Moment, t.Valid ∧ t.seconds = n := by
  obtain ⟨y, m, d, hm, hd, hday⟩ := exists_date (n / 86400)
  refine ⟨⟨1970 + y, m, d, n % 86400 / 3600, n % 3600 / 60, n % 60⟩, ?_, ?_⟩
  · exact ⟨Nat.le_add_right .., hm, hd, by dsimp only; omega, by dsimp only; omega,
      Nat.mod_lt n (by decide)⟩
  · simp only [Moment.seconds, Moment.dayNumber, ← hday]
    omega

/-- The years of moments up to a second. -/
theorem Moment.Valid.year_lt_iff {t : Moment} (ht : t.Valid) {y : Nat} (hy : 1970 ≤ y) :
    t.year < y ↔ t.seconds < 86400 * daysBeforeYear y := by
  have hhour := ht.hour
  have hmin := ht.min
  have hsec := ht.sec
  obtain ⟨i, hi⟩ := Nat.exists_eq_add_of_le ht.year
  obtain ⟨j, rfl⟩ := Nat.exists_eq_add_of_le hy
  have hday := day_lt ht.month ht.day
  simp only [Moment.seconds, Moment.dayNumber, daysBeforeYear, hi, Nat.add_sub_cancel_left]
    at hday ⊢
  constructor
  · intro hlt
    have hend := spanEnd_le (fun i => yearLen (1970 + i)) (show i < j by omega)
    omega
  · intro hlt
    by_contra hge
    have hstart := spanStart_le (fun i => yearLen (1970 + i)) (show j ≤ i by omega)
    omega

-- a comparison of two years would count down from the first
attribute [irreducible] daysBeforeYear

end LibnklabsPico.Date
