/-
  Date/Nkrtc.lean --- the clock command of `libnklabs/src/nkrtc.c`.

  `PRIu16` and `PRIu8` are `hu` and `hhu`.  A run without a result has read outside
  of a table.
-/
import LibnklabsPico.Date.Sanity
import LibnklabsPico.Text.FormatLanguage

set_option autoImplicit false

namespace LibnklabsPico.Date

open LibnklabsPico.Foundation
open LibnklabsPico.File
open LibnklabsPico.Text

/-- `nk_weekday_name` -/
def nkWeekdayName : List String := ["Sun", "Mon", "Tue", "Wed", "Thu", "Fri", "Sat"]

/-- `nk_rtc_t`: the functions of a clock with the states `σ`. -/
structure NkRtc (σ : Type) where
  setDatetime : Nkdatetime → σ → Int × σ
  getDatetime : σ → Int × Nkdatetime × σ

/-- What the command prints.  The first three come behind the name of the weekday. -/
inductive RtcReply where
  /-- `Invalid date/time` -/
  | invalid (weekday : String)
  /-- `Error setting date/time` -/
  | setError (weekday : String) (rtn : Int)
  /-- `Time and date set.` -/
  | set (weekday : String)
  /-- `Error getting date/time` -/
  | getError (rtn : Int)
  /-- the date and time -/
  | got (datetime : Nkdatetime)
  /-- `Syntax error` -/
  | syntaxError

/-- The numbers of the format in the fields of `datetime`. -/
def storedDatetime : List Nat → Option Nkdatetime
  | [year, month, day, hour, min, sec] =>
      some
        { year := UInt16.ofNat year, month := UInt8.ofNat month, day := UInt8.ofNat day
          hour := UInt8.ofNat hour, min := UInt8.ofNat min, sec := UInt8.ofNat sec, weekday := 0 }
  | _ => none

/-- The day of the week and its name, once month and day are counted from 0. -/
def rtcWeekday (datetime : Nkdatetime) : IntProg (String × Nkdatetime) := do
  let datetime := { datetime with month := datetime.month - 1, day := datetime.day - 1 }
  let weekday ←
    nkCalcDayOfWeek datetime.year.toNat datetime.month.toNat datetime.day.toNat
  let datetime := { datetime with weekday := UInt8.ofNat (wrap 8 weekday) }
  match nkWeekdayName[datetime.weekday.toNat]? with
  | some name => pure (name, datetime)
  | none => trap

section

variable {σ : Type} {w : Nat}

/-- The clock is set, behind a date that was scanned. -/
def rtcSet (dev : NkRtc σ) (datetime : Nkdatetime) (s : σ) : Option (RtcReply × σ) := do
  let (name, datetime) ← result checked (rtcWeekday datetime)
  let (bad, datetime) := nkDatetimeSanity datetime
  if bad ≠ 0 then some (.invalid name, s)
  else
    let (rtn, s) := dev.setDatetime datetime s
    if rtn ≠ 0 then some (.setError name rtn, s) else some (.set name, s)

/-- `nk_rtc_command` -/
def nkRtcCommand (fl : Floats) (fuel : Nat) (dev : NkRtc σ) (f : Nkinfile w) (s : σ) :
    Option (RtcReply × Nkinfile w × σ) := do
  let ((status, out, _), f) ←
    (nkVscan fl fuel false "%hu-%hhu-%hhu %hhu:%hhu:%hhu " (List.replicate 6 .num)
      (fun _ => 0)).run (nkinfile w) f
  if status then
    let datetime ← storedDatetime (storedNumbers out)
    let (reply, s) ← rtcSet dev datetime s
    some (reply, f, s)
  else
    let (status, f) ← (nkFscan fl fuel "").run (nkinfile w) f
    if status then
      let (rtn, datetime, s) := dev.getDatetime s
      if rtn ≠ 0 then some (.getError rtn, f, s) else some (.got datetime, f, s)
    else some (.syntaxError, f, s)

end

end LibnklabsPico.Date
