/-
  Text/Nkstrtod.lean --- `fstrtod` of `libnklabs/src/nkstrtod.c`.

  It reads the parts of a number; how they make a `double` is left to the caller.
-/
import LibnklabsPico.Text.Nkscan

set_option autoImplicit false

namespace LibnklabsPico.Text

open LibnklabsPico.File
open LibnklabsPico.File.FileProg

/-- The parts of a decimal number: up to nine digits in `msdec`, up to nine more in
`lsdec`, which `msscale` makes room for, and an exponent. -/
structure Decimal where
  msdec : Nat
  lsdec : Nat
  msscale : Nat
  exp : Int

/-- What was read, without its sign. -/
inductive Magnitude where
  | huge
  | nan
  | decimal (parts : Decimal)

/-- `(0x7FFFFFFF-10)/10` -/
def decimalRoom : Nat := (0x7FFFFFFF - 10) / 10

/-- One more digit, with `dot` when it is behind the decimal point. -/
def Decimal.digit (parts : Decimal) (dot : Bool) (i : Int) : Decimal :=
  let parts :=
    if parts.msdec < decimalRoom then
      { parts with msdec := parts.msdec * 10 + (i - ch '0').toNat }
    else if parts.msscale < decimalRoom then
      { parts with lsdec := parts.lsdec * 10 + (i - ch '0').toNat, msscale := parts.msscale * 10 }
    else { parts with exp := parts.exp + 1 }
  if dot then { parts with exp := parts.exp - 1 } else parts

/-- The letters of a word in either case: whether all of them are there. -/
def letters : List Int → FileProg Bool
  | [] => pure true
  | l :: word => do
      let c ← fpeek
      if nkTolower c = l then do
        let _ ← fnextFast
        letters word
      else pure false

/-- The digits of a number and its decimal point, with `subject` when there is a
digit. -/
def mantissa : Nat → Bool → Bool → Decimal → FileProg (Bool × Decimal)
  | 0, _, subject, parts => pure (subject, parts)
  | fuel + 1, dot, subject, parts => do
      let i ← fpeek
      if isDigit i then do
        let _ ← fnextFast
        mantissa fuel dot true (parts.digit dot i)
      else if i = ch '.' ∧ dot = false then do
        let _ ← fnextFast
        mantissa fuel true subject parts
      else pure (subject, parts)

/-- The digits of an exponent.  It stays below `DBL_MAX_EXP*2`. -/
def exponent : Nat → Bool → Int → FileProg (Bool × Int)
  | 0, subject, e => pure (subject, e)
  | fuel + 1, subject, e => do
      let c ← fpeek
      if isDigit c then do
        let _ ← fnextFast
        exponent fuel true (if e < 1024 * 2 then e * 10 + c - ch '0' else e)
      else pure (subject, e)

/-- A sign, if there is one: whether it is a minus. -/
def optionalSign : FileProg Bool := do
  let c ← fpeek
  if c = ch '-' ∨ c = ch '+' then do
    let _ ← fnextFast
    pure (c == ch '-')
  else pure false

/-- `fstrtod`: the sign and the magnitude, if there is a number. -/
def fstrtod (fuel : Nat) : FileProg (Option (Bool × Magnitude)) := do
  nkFscanWs fuel
  let sign ← optionalSign
  let c ← fpeek
  if nkTolower c = ch 'i' then do
    let found ← letters [ch 'i', ch 'n', ch 'f']
    pure (if found then some (sign, .huge) else none)
  else if nkTolower c = ch 'n' then do
    let found ← letters [ch 'n', ch 'a', ch 'n']
    pure (if found then some (sign, .nan) else none)
  else do
    let (subject, parts) ← mantissa fuel false false ⟨0, 0, 1, 0⟩
    if subject then do
      let c ← fpeek
      if nkTolower c = ch 'e' then do
        let _ ← fnextFast
        let sexp ← optionalSign
        let (subject, e) ← exponent fuel false 0
        let parts := { parts with exp := parts.exp + (if sexp then -e else e) }
        pure (if subject then some (sign, .decimal parts) else none)
      else pure (some (sign, .decimal parts))
    else pure none

/-- `nk_fscan_double`: its status, and `*val`, which was `0.0`. -/
def nkFscanDouble {Double : Type} (fuel : Nat) (value : Bool → Magnitude → Double)
    (zero : Double) : FileProg (Bool × Double) := do
  let number ← fstrtod fuel
  match number with
  | some (sign, magnitude) => pure (true, value sign magnitude)
  | none => pure (false, zero)

end LibnklabsPico.Text
