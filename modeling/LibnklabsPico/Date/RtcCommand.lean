/-
  Date/RtcCommand.lean --- which dates the clock command can take.

  The month is used as an index before it is checked, and the checks that come then
  are those of `nk_datetime_sanity`, which moves an early year behind the day of the
  week.
-/
import LibnklabsPico.Date.Nkrtc

set_option autoImplicit false

namespace LibnklabsPico.Date

open LibnklabsPico.Foundation
open LibnklabsPico.File
open LibnklabsPico.Text

/-! ## Days of the week -/

/-- For a month that there is, the day of the week is one of the seven. -/
theorem result_nkCalcDayOfWeek_lt {arith : Int → Option Int} (exact : Exact arith)
    {year m d : Nat} (hyear : year < 2 ^ 16) (hm : m < 12) (hd : d < 2 ^ 8) :
    ∃ weekday < 7, result arith (nkCalcDayOfWeek year m d) = some ((weekday : Nat) : Int) := by
  by_cases hfirst : year = 0 ∧ m < 2
  · obtain ⟨rfl, hm2⟩ := hfirst
    have hshift := monthShift_le hm
    have hplace : (m : Int) + 1 - 1 = (m : Nat) := by omega
    have hyear : ((0 : Nat) : Int) - 1 = -1 := rfl
    have hfour : (-1 : Int).tdiv 4 = 0 := rfl
    have hhundred : (-1 : Int).tdiv 100 = 0 := rfl
    have hcentury : (-1 : Int).tdiv 400 = 0 := rfl
    have hsum : (-1 : Int) + 0 - 0 + 0 + monthShift m + ((d : Int) + 1) =
        (monthShift m + d : Nat) := by omega
    have hmod : ((monthShift m + d : Nat) : Int).tmod 7 = ((monthShift m + d) % 7 : Nat) := rfl
    refine ⟨(monthShift m + d) % 7, Nat.mod_lt _ (by decide), ?_⟩
    unfold nkCalcDayOfWeek
    rw [result_fits exact (by omega), result_fits exact (by omega), if_pos (by omega), hyear,
      result_fits exact (by decide), hfour, hhundred, hcentury, result_fits exact (by decide),
      result_fits exact (by decide), result_fits exact (by decide), result_fits exact (by decide),
      result_fits exact (by decide), result_fits exact (by decide), hplace,
      result_fits exact (by omega), result_bind_of (result_load (dayOfWeekTable_get hm)),
      result_fits exact (by omega), result_fits exact (by omega), hsum, hmod, result_int]
    exact exact _ (fits_natCast (by omega))
  · obtain ⟨y, hy⟩ :
        ∃ y : Nat, (year : Int) - (if (m : Int) + 1 < 3 then 1 else 0) = (y : Int) := by
      refine ⟨year - if m < 2 then 1 else 0, ?_⟩
      by_cases hearly : m < 2
      · rw [if_pos (by omega), if_pos hearly]
        omega
      · rw [if_neg (by omega), if_neg hearly]
        omega
    have hbound : y < 2 ^ 17 := by
      split at hy <;> omega
    exact ⟨_, Nat.mod_lt _ (by decide), result_dayOfWeekSum exact hy hbound hm hd⟩

/-- A month that there is not is outside of the table. -/
theorem result_nkCalcDayOfWeek_trap {arith : Int → Option Int} (exact : Exact arith)
    {year m d : Nat} (hm : 12 ≤ m) (hbits : m < 2 ^ 8) :
    result arith (nkCalcDayOfWeek year m d) = none := by
  have hplace : (m : Int) + 1 - 1 = (m : Nat) := by omega
  have hindex : arith ((m : Int) + 1) = some ((m : Int) + 1) := exact _ ⟨by omega, by omega⟩
  have hindex' : arith (m : Int) = some (m : Int) := exact _ (fits_natCast (by omega))
  have hload : result arith (load dayOfWeekTable m) = none :=
    result_load_trap (List.getElem?_eq_none hm)
  unfold nkCalcDayOfWeek
  simp only [result_bind, result_int, hindex, Option.bind_some, hplace, hindex', hload,
    Option.bind_none, Option.bind_fun_none]

/-! ## The format -/

/-- `"%hu-%hhu-%hhu %hhu:%hhu:%hhu "` -/
def rtcFormat : List FormatItem :=
  [.dec [] .h true, .lit 45 (by decide), .dec [] .hh true, .lit 45 (by decide), .dec [] .hh true,
    .blank false, .dec [] .hh true, .lit 58 (by decide), .dec [] .hh true, .lit 58 (by decide),
    .dec [] .hh true, .blank false]

theorem rtcFormat_string : formatString rtcFormat false = "%hu-%hhu-%hhu %hhu:%hhu:%hhu " := by
  decide

theorem rtcFormat_args : rtcFormat.flatMap FormatItem.args = List.replicate 6 .num := rfl

theorem rtcFormat_widths (text : List UInt8) (pos : Nat) :
    itemsAt addedWidth text false rtcFormat pos = itemsAt decimalWidth text false rtcFormat pos :=
  rfl

/-! ## The command -/

section

variable {σ : Type} {w : Nat}

/-- A clock that keeps a list of the dates it was set to. -/
def NkRtc.logged (dev : NkRtc σ) : NkRtc (σ × List Nkdatetime) where
  setDatetime datetime s :=
    let (rtn, s') := dev.setDatetime datetime s.1
    (rtn, s', s.2 ++ [datetime])
  getDatetime s :=
    let (rtn, datetime, s') := dev.getDatetime s.1
    (rtn, datetime, s', s.2)

/-- The day of the week is that of the date. -/
def Nkdatetime.WeekdayRight (d : Nkdatetime) : Prop :=
  d.weekday.toNat = (4 + d.moment.dayNumber) % 7

/-- The command reads only inside its tables, and sets the clock to nothing but legal
dates with their day of the week. -/
def RtcKeeps (fl : Floats) (fuel : Nat) (dev : NkRtc σ) (f : Nkinfile w) (s : σ) : Prop :=
  ∃ reply f' s' log, nkRtcCommand fl fuel dev.logged f (s, []) = some (reply, f', s', log) ∧
    ∀ d ∈ log, Legal d ∧ d.WeekdayRight

/-- A text that has the format is handed on as a date. -/
theorem nkRtcCommand_accepted (fl : Floats) {fuel : Nat} (dev : NkRtc σ) (s : σ) {f : Nkinfile w}
    {text : List UInt8} {pos stop : Nat} {vals : List Nat} (agrees : Agrees f ⟨text, pos⟩)
    (hfuel : text.length ≤ fuel)
    (haccepted : itemsAt decimalWidth text false rtcFormat pos = some (stop, vals)) :
    ∃ f', nkRtcCommand fl fuel dev f s =
      (storedDatetime vals).bind fun datetime =>
        (rtcSet dev datetime s).map fun (reply, s) => (reply, f', s) := by
  obtain ⟨r, f', pos', hrun, -, hr⟩ :=
    nkVscan_items fl agrees hfuel rtcFormat false (fun _ => 0)
  rw [rtcFormat_widths, haccepted] at hr
  obtain ⟨⟨hstatus, hvals⟩, -⟩ := hr
  rw [rtcFormat_string, rtcFormat_args] at hrun
  refine ⟨f', ?_⟩
  unfold nkRtcCommand
  rw [hrun]
  obtain ⟨status, out, mem⟩ := r
  obtain rfl : status = true := hstatus
  obtain rfl : storedNumbers out = vals := hvals
  simp only [Option.bind_eq_bind, Option.bind_some, if_true]
  cases storedDatetime (storedNumbers out) with
  | none => rw [Option.bind_none, Option.bind_none]
  | some datetime =>
      rw [Option.bind_some, Option.bind_some]
      cases rtcSet dev datetime s with
      | none => rw [Option.bind_none, Option.map_none]
      | some reply => rw [Option.bind_some, Option.map_some]

end

/-! ## A date that was scanned -/

/-- The date with month and day counted from 0. -/
def countedFromZero (d : Nkdatetime) (weekday : Nat) : Nkdatetime :=
  { d with month := d.month - 1, day := d.day - 1, weekday := UInt8.ofNat weekday }

theorem rtcWeekday_spec {d : Nkdatetime} (hmonth : (d.month - 1).toNat < 12) :
    ∃ weekday < 7, ∃ name,
      result checked (nkCalcDayOfWeek d.year.toNat (d.month - 1).toNat (d.day - 1).toNat) =
        some ((weekday : Nat) : Int) ∧
      result checked (rtcWeekday d) = some (name, countedFromZero d weekday) := by
  obtain ⟨weekday, hlt, hresult⟩ :=
    result_nkCalcDayOfWeek_lt checked_exact d.year.toNat_lt hmonth (d.day - 1).toNat_lt
  have hfield : (UInt8.ofNat (wrap 8 ((weekday : Nat) : Int))) = UInt8.ofNat weekday := by
    rw [wrap_natCast (by omega)]
  have hbits : (UInt8.ofNat weekday).toNat = weekday := by
    rw [UInt8.toNat_ofNat']
    omega
  have hname : weekday < nkWeekdayName.length := hlt
  refine ⟨weekday, hlt, nkWeekdayName[weekday], hresult, ?_⟩
  unfold rtcWeekday
  dsimp only
  rw [result_bind_of hresult, hfield, hbits, List.getElem?_eq_getElem hname]
  rfl

theorem rtcWeekday_trap {d : Nkdatetime} (hmonth : 12 ≤ (d.month - 1).toNat) :
    result checked (rtcWeekday d) = none := by
  unfold rtcWeekday
  dsimp only
  rw [result_bind, result_nkCalcDayOfWeek_trap checked_exact hmonth (d.month - 1).toNat_lt,
    Option.bind_none]

/-- The clock is set to what the checks leave, if they report nothing. -/
theorem rtcSet_logged {σ : Type} (dev : NkRtc σ) (s : σ) {d d' : Nkdatetime} {name : String}
    (hweekday : result checked (rtcWeekday d) = some (name, d')) :
    ∃ reply s', rtcSet dev.logged d (s, []) =
      some (reply, s', if (nkDatetimeSanity d').1 = 0 then [(nkDatetimeSanity d').2] else []) := by
  obtain ⟨set, get⟩ := dev
  unfold rtcSet
  rw [hweekday]
  simp only [Option.bind_eq_bind, Option.bind_some, NkRtc.logged, List.nil_append]
  generalize nkDatetimeSanity d' = sanity
  obtain ⟨bad, left⟩ := sanity
  by_cases hzero : bad = 0
  · rw [if_pos hzero]
    by_cases hdone : (set left s).1 = 0
    · exact ⟨.set name, (set left s).2,
        (if_neg (not_not.mpr hzero)).trans (if_neg (not_not.mpr hdone))⟩
    · exact ⟨.setError name (set left s).1, (set left s).2,
        (if_neg (not_not.mpr hzero)).trans (if_pos hdone)⟩
  · rw [if_neg hzero]
    exact ⟨.invalid name, s, if_pos hzero⟩

/-- What the checks leave of a date they do not report. -/
theorem nkDatetimeSanity_silent {d : Nkdatetime} (hzero : (nkDatetimeSanity d).1 = 0) :
    (nkDatetimeSanity d).2 = { d with year := if d.year < 2000 then 2000 else d.year } := by
  rw [nkDatetimeSanity_fst] at hzero
  rw [nkDatetimeSanity_snd]
  ext1
  all_goals grind

/-- Whether the checks report something. -/
theorem nkDatetimeSanity_reports (d : Nkdatetime) (h : d.month ≤ 11) (hweekday : d.weekday ≤ 6) :
    (nkDatetimeSanity d).1 = 0 ↔
      d.sec ≤ 59 ∧ d.min ≤ 59 ∧ d.hour ≤ 23 ∧ d.day ≤ 30 ∧ d.year ≤ 2199 := by
  rw [nkDatetimeSanity_fst]
  grind

theorem clockYear_toNat (d : Nkdatetime) :
    (if d.year < 2000 then 2000 else d.year).toNat = max d.year.toNat 2000 := by
  by_cases hearly : d.year < 2000
  · have hless : d.year.toNat < 2000 := hearly
    rw [if_pos hearly, Nat.max_eq_right (Nat.le_of_lt hless)]
    rfl
  · have hmore : 2000 ≤ d.year.toNat := UInt16.not_lt.mp hearly
    rw [if_neg hearly, Nat.max_eq_left hmore]

/-- Of a date that is not reported, the day is the only field that can be wrong. -/
theorem silent_legal_iff {d : Nkdatetime} (hmonth : d.month ≤ 11) (hsmall : d.weekday ≤ 6)
    (hzero : (nkDatetimeSanity d).1 = 0) :
    Legal (nkDatetimeSanity d).2 ↔
      d.day.toNat < monthLen (max d.year.toNat 2000) d.month.toNat := by
  obtain ⟨hsec, -, -, hday, hyear⟩ := (nkDatetimeSanity_reports d hmonth hsmall).mp hzero
  have hkept : (if 2000 ≤ d.year ∧ d.year ≤ 2199 then d.year.toNat else 2000) =
      max d.year.toNat 2000 := by
    rw [← clockYear_toNat, ← repairedYear]
    grind
  have hremains : DayRemains d ↔
      d.day.toNat < monthLen (max d.year.toNat 2000) d.month.toNat := by
    unfold DayRemains
    rw [hkept]
    exact ⟨fun h => (h.resolve_left (UInt8.not_lt.mpr hday)).resolve_left
      (UInt8.not_lt.mpr hmonth), fun h => Or.inr (Or.inr h)⟩
  rw [legal_sanity_iff, hremains]
  exact and_iff_right hsec

/-- An early year that is moved to 2000 keeps the day of the week only if the two years
have it on the same days. -/
theorem silent_weekday_iff {d : Nkdatetime} (hmonth : d.month ≤ 11) (hsmall : d.weekday ≤ 6)
    (hzero : (nkDatetimeSanity d).1 = 0)
    (hweekday : result checked (nkCalcDayOfWeek d.year.toNat d.month.toNat d.day.toNat) =
      some ((d.weekday.toNat : Nat) : Int)) :
    (nkDatetimeSanity d).2.WeekdayRight ↔
      result checked (nkCalcDayOfWeek d.year.toNat d.month.toNat d.day.toNat) =
        result checked
          (nkCalcDayOfWeek (max d.year.toNat 2000 : Nat) d.month.toNat d.day.toNat) := by
  obtain ⟨-, -, -, hday, hyear⟩ := (nkDatetimeSanity_reports d hmonth hsmall).mp hzero
  have hbits := d.year.toNat_lt
  obtain ⟨k, hk⟩ : ∃ k, max d.year.toNat 2000 = 1970 + k :=
    ⟨max d.year.toNat 2000 - 1970, by omega⟩
  have hmoved : result checked (nkCalcDayOfWeek (1970 + k : Nat) d.month.toNat d.day.toNat) = _ :=
    result_nkCalcDayOfWeek checked_exact (by omega) (Nat.lt_succ_of_le hmonth)
      (Nat.lt_succ_of_le hday)
  have hright : (nkDatetimeSanity d).2.WeekdayRight ↔ d.weekday.toNat =
      (4 + (daysBeforeYear (1970 + k) +
        (daysBeforeMonth (1970 + k) d.month.toNat + d.day.toNat))) % 7 := by
    rw [nkDatetimeSanity_silent hzero, Nkdatetime.WeekdayRight, Moment.dayNumber,
      Nkdatetime.moment]
    dsimp only
    rw [clockYear_toNat, hk]
  rw [hright, hweekday, hk, hmoved, Option.some.injEq, Int.ofNat_inj]

/-- A field of the date is refused, or the month has the day, in 2000 for an early year,
and 2000 has the day of the week of that year. -/
def Nkdatetime.RefusedOrRight (d : Nkdatetime) : Prop :=
  d.year > 2199 ∨ d.day - 1 > 30 ∨ d.hour > 23 ∨ d.min > 59 ∨ d.sec > 59 ∨
    (d.day - 1).toNat < monthLen (max d.year.toNat 2000) (d.month - 1).toNat ∧
      result checked (nkCalcDayOfWeek d.year.toNat (d.month - 1).toNat (d.day - 1).toNat) =
        result checked (nkCalcDayOfWeek (max d.year.toNat 2000 : Nat) (d.month - 1).toNat
          (d.day - 1).toNat)

/-- What the clock is set to is right. -/
theorem countedFromZero_keeps_iff {d : Nkdatetime} {weekday : Nat} (hlt : weekday < 7)
    (hm : (d.month - 1).toNat < 12)
    (hweekday : result checked
      (nkCalcDayOfWeek d.year.toNat (d.month - 1).toNat (d.day - 1).toNat) =
        some ((weekday : Nat) : Int)) :
    ((nkDatetimeSanity (countedFromZero d weekday)).1 = 0 →
      Legal (nkDatetimeSanity (countedFromZero d weekday)).2 ∧
        (nkDatetimeSanity (countedFromZero d weekday)).2.WeekdayRight) ↔
    d.RefusedOrRight := by
  have hbits : (UInt8.ofNat weekday).toNat = weekday := by
    rw [UInt8.toNat_ofNat']
    omega
  have hsmall : (countedFromZero d weekday).weekday ≤ 6 := by
    change (UInt8.ofNat weekday).toNat ≤ 6
    omega
  have hmonth : (countedFromZero d weekday).month ≤ 11 := Nat.le_of_lt_succ hm
  have hreports := nkDatetimeSanity_reports (countedFromZero d weekday) hmonth hsmall
  by_cases hzero : (nkDatetimeSanity (countedFromZero d weekday)).1 = 0
  · obtain ⟨hsec, hmin, hhour, hday, hyear⟩ := hreports.mp hzero
    unfold Nkdatetime.RefusedOrRight
    have hlegal := silent_legal_iff hmonth hsmall hzero
    have hright := silent_weekday_iff hmonth hsmall hzero
      (by change _ = some (((UInt8.ofNat weekday).toNat : Nat) : Int); rw [hbits]; exact hweekday)
    rw [hlegal, hright]
    have hinside : ¬ (d.year > 2199 ∨ d.day - 1 > 30 ∨ d.hour > 23 ∨ d.min > 59 ∨ d.sec > 59) := by
      rintro (h | h | h | h | h)
      · exact absurd h (UInt16.not_lt.mpr hyear)
      · exact absurd h (UInt8.not_lt.mpr hday)
      · exact absurd h (UInt8.not_lt.mpr hhour)
      · exact absurd h (UInt8.not_lt.mpr hmin)
      · exact absurd h (UInt8.not_lt.mpr hsec)
    constructor
    · intro h
      exact Or.inr (Or.inr (Or.inr (Or.inr (Or.inr (h hzero)))))
    · intro h _
      rcases h with h | h | h | h | h | h
      · exact absurd (Or.inl h) hinside
      · exact absurd (Or.inr (Or.inl h)) hinside
      · exact absurd (Or.inr (Or.inr (Or.inl h))) hinside
      · exact absurd (Or.inr (Or.inr (Or.inr (Or.inl h)))) hinside
      · exact absurd (Or.inr (Or.inr (Or.inr (Or.inr h)))) hinside
      · exact h
  · refine iff_of_true (fun h => absurd h hzero) ?_
    unfold Nkdatetime.RefusedOrRight
    rw [hreports] at hzero
    change ¬ (d.sec ≤ 59 ∧ d.min ≤ 59 ∧ d.hour ≤ 23 ∧ d.day - 1 ≤ 30 ∧ d.year ≤ 2199) at hzero
    grind

/-! ## The command on a text -/

theorem toNat_pred {n : Nat} (hn : n < 2 ^ 8) :
    (UInt8.ofNat n - 1).toNat = if n = 0 then 255 else n - 1 := by
  rw [UInt8.toNat_sub, UInt8.toNat_ofNat']
  split <;> simp <;> omega

section

variable {σ : Type} {w : Nat} {fl : Floats} {fuel : Nat} {f : Nkinfile w} {text : List UInt8}
  {pos stop year month day hour min sec : Nat}

/-- The numbers of a text that has the format of a date fit their fields. -/
theorem rtcFormat_bits
    (haccepted : itemsAt decimalWidth text false rtcFormat pos =
      some (stop, [year, month, day, hour, min, sec])) :
    year < 2 ^ 16 ∧ month < 2 ^ 8 ∧ day < 2 ^ 8 ∧ hour < 2 ^ 8 ∧ min < 2 ^ 8 ∧ sec < 2 ^ 8 := by
  have hbits : List.Forall₂ (fun bits val => val < 2 ^ bits) [16, 8, 8, 8, 8, 8]
      [year, month, day, hour, min, sec] := itemsAt_bits haccepted
  simpa only [List.forall₂_cons, List.Forall₂.nil, and_true] using hbits

/-- What the command needs of the fields that were scanned. -/
theorem rtcKeeps_fields (dev : NkRtc σ) (s : σ) (agrees : Agrees f ⟨text, pos⟩)
    (hfuel : text.length ≤ fuel) {vals : List Nat} {d : Nkdatetime}
    (haccepted : itemsAt decimalWidth text false rtcFormat pos = some (stop, vals))
    (hstored : storedDatetime vals = some d) :
    RtcKeeps fl fuel dev f s ↔ (d.month - 1).toNat < 12 ∧ d.RefusedOrRight := by
  obtain ⟨f', hrun⟩ := nkRtcCommand_accepted fl dev.logged (s, []) agrees hfuel haccepted
  rw [hstored, Option.bind_some] at hrun
  unfold RtcKeeps
  rw [hrun]
  by_cases hmonth : (d.month - 1).toNat < 12
  · obtain ⟨weekday, hlt, name, hresult, hweekday⟩ := rtcWeekday_spec hmonth
    obtain ⟨reply, s', hset⟩ := rtcSet_logged dev s hweekday
    rw [hset, and_iff_right hmonth, ← countedFromZero_keeps_iff hlt hmonth hresult]
    constructor
    · rintro ⟨reply₁, f₁, s₁, log, heq, hlog⟩ hzero
      obtain ⟨-, -, -, rfl⟩ : reply = reply₁ ∧ f' = f₁ ∧ s' = s₁ ∧ _ = log := by
        simpa only [Option.map_some, Option.some.injEq, Prod.mk.injEq] using heq
      refine hlog _ ?_
      rw [if_pos hzero]
      exact List.mem_singleton_self _
    · intro hkeeps
      refine ⟨reply, f', s', _, rfl, ?_⟩
      intro d' hd'
      split at hd'
      · rename_i hzero
        rw [List.mem_singleton.mp hd']
        exact hkeeps hzero
      · cases hd'
  · have htrap : rtcSet dev.logged d (s, []) = none := by
      unfold rtcSet
      rw [rtcWeekday_trap (Nat.not_lt.mp hmonth)]
      rfl
    rw [htrap]
    refine iff_of_false ?_ fun h => hmonth h.1
    rintro ⟨reply, f₁, s₁, log, heq, -⟩
    cases heq

theorem ofNat_gt {n : Nat} (hn : n < 2 ^ 8) (k : UInt8) : UInt8.ofNat n > k ↔ n > k.toNat := by
  rw [gt_iff_lt, UInt8.lt_iff_toNat_lt, UInt8.toNat_ofNat', Nat.mod_eq_of_lt hn]

/-- For every text that has the format of a date: the command reads inside its tables and
sets the clock to nothing but a legal date with its day of the week, exactly if there is
a month of the number and the date is refused, or the month has the day, in 2000 for
an early year, and 2000 has the day of the week of that year. -/
theorem rtcKeeps_iff (dev : NkRtc σ) (s : σ) (agrees : Agrees f ⟨text, pos⟩)
    (hfuel : text.length ≤ fuel)
    (haccepted : itemsAt decimalWidth text false rtcFormat pos =
      some (stop, [year, month, day, hour, min, sec])) :
    RtcKeeps fl fuel dev f s ↔ 1 ≤ month ∧ month ≤ 12 ∧
      (year > 2199 ∨ day = 0 ∨ day > 31 ∨ hour > 23 ∨ min > 59 ∨ sec > 59 ∨
        day ≤ monthLen (max year 2000) (month - 1) ∧
          result checked (nkCalcDayOfWeek year (month - 1 : Nat) (day - 1 : Nat)) =
            result checked
              (nkCalcDayOfWeek (max year 2000 : Nat) (month - 1 : Nat) (day - 1 : Nat))) := by
  obtain ⟨hyear, hmonth, hday, hhour, hmin, hsec⟩ := rtcFormat_bits haccepted
  have hyear' : UInt16.ofNat year > 2199 ↔ year > 2199 := by
    rw [gt_iff_lt, UInt16.lt_iff_toNat_lt, UInt16.toNat_ofNat', Nat.mod_eq_of_lt hyear]
    rfl
  have hday' : UInt8.ofNat day - 1 > 30 ↔ day = 0 ∨ day > 31 := by
    rw [gt_iff_lt, UInt8.lt_iff_toNat_lt, toNat_pred hday]
    have h30 : (30 : UInt8).toNat = 30 := rfl
    split <;> omega
  rw [rtcKeeps_fields dev s agrees hfuel haccepted rfl]
  unfold Nkdatetime.RefusedOrRight
  dsimp only
  rw [hyear', hday', ofNat_gt hhour, ofNat_gt hmin, ofNat_gt hsec, toNat_pred hmonth,
    toNat_pred hday, UInt16.toNat_ofNat', Nat.mod_eq_of_lt hyear]
  by_cases hzero : month = 0
  · rw [if_pos hzero]
    omega
  by_cases hnoDay : day = 0
  · rw [if_neg hzero]
    omega
  rw [if_neg hzero, if_neg hnoDay, or_assoc]
  have hrange : month - 1 < 12 ↔ 1 ≤ month ∧ month ≤ 12 := by omega
  have hless : day - 1 < monthLen (max year 2000) (month - 1) ↔
      day ≤ monthLen (max year 2000) (month - 1) := by omega
  rw [hrange, hless, and_assoc]
  rfl

end

/-- A clock that can always be set. -/
def idleClock : NkRtc Unit := ⟨fun _ _ => (0, ()), fun _ => (0, ⟨0, 0, 0, 0, 0, 0, 2000⟩, ())⟩

/-- `2024-2-29 1:2:3`, which exists. -/
theorem rtcKeeps_iff_leapDay :
    RtcKeeps Floats.absent 15 idleClock
      (nkinfileOpenMem 32 (ascii "2024-2-29 1:2:3") 15) () :=
  (rtcKeeps_iff idleClock () (nkinfileOpenMem_agrees (ascii "2024-2-29 1:2:3") [] (by decide))
    (Nat.le_refl 15) (show itemsAt decimalWidth (ascii "2024-2-29 1:2:3") false rtcFormat 0 =
      some (15, [2024, 2, 29, 1, 2, 3]) by decide)).mpr (by decide)

/-- Month 13 is outside of the table, 30 February is a day the clock is set to, and 1 March
1999 becomes 1 March 2000 with the day of the week of 1999. -/
theorem not_rtcKeeps :
    ¬ RtcKeeps Floats.absent 15 idleClock
        (nkinfileOpenMem 32 (ascii "2024-13-1 0:0:0") 15) () ∧
      ¬ RtcKeeps Floats.absent 15 idleClock
        (nkinfileOpenMem 32 (ascii "2024-2-30 0:0:0") 15) () ∧
      ¬ RtcKeeps Floats.absent 14 idleClock
        (nkinfileOpenMem 32 (ascii "1999-3-1 0:0:0") 14) () := by
  refine ⟨?_, ?_, ?_⟩
  · intro hkeeps
    have hfields := (rtcKeeps_fields idleClock ()
      (nkinfileOpenMem_agrees (ascii "2024-13-1 0:0:0") [] (by decide)) (Nat.le_refl 15)
      (show itemsAt decimalWidth _ false rtcFormat 0 = some (15, [2024, 13, 1, 0, 0, 0]) by decide)
      rfl).mp hkeeps
    exact absurd hfields.1 (by decide)
  · intro hkeeps
    have hfields := (rtcKeeps_fields idleClock ()
      (nkinfileOpenMem_agrees (ascii "2024-2-30 0:0:0") [] (by decide)) (Nat.le_refl 15)
      (show itemsAt decimalWidth _ false rtcFormat 0 = some (15, [2024, 2, 30, 0, 0, 0]) by decide)
      rfl).mp hkeeps
    exact absurd hfields.2 (by unfold Nkdatetime.RefusedOrRight; decide)
  · intro hkeeps
    have hfields := (rtcKeeps_fields idleClock ()
      (nkinfileOpenMem_agrees (ascii "1999-3-1 0:0:0") [] (by decide)) (Nat.le_refl 14)
      (show itemsAt decimalWidth _ false rtcFormat 0 = some (14, [1999, 3, 1, 0, 0, 0]) by decide)
      rfl).mp hkeeps
    exact absurd hfields.2 (by unfold Nkdatetime.RefusedOrRight; decide)

end LibnklabsPico.Date
