/-
  Text/Nkstring.lean --- characters and the tests of `libnklabs/src/nkstring.c`.

  Text is a list of bytes.  A character that was read is an `int`: a byte, or
  `-1` at the end of the input.
-/
import Mathlib.Tactic.Common

set_option autoImplicit false

namespace LibnklabsPico.Text

/-- A string literal of the source. -/
def ascii (s : String) : List UInt8 := s.toList.map fun c => UInt8.ofNat c.toNat

/-- A character constant of the source. -/
def ch (c : Char) : Int := c.toNat

/-- `nk_tolower` -/
def nkTolower (a : Int) : Int :=
  if ch 'A' ≤ a ∧ a ≤ ch 'Z' then a + ch 'a' - ch 'A' else a

/-- `nk_isspace` -/
def nkIsspace (c : Int) : Bool :=
  c == 32 || c == 12 || c == 10 || c == 13 || c == 9 || c == 11

/-- `c >= '0' && c <= '9'` -/
def isDigit (c : Int) : Bool := decide (ch '0' ≤ c) && decide (c ≤ ch '9')

/-- A letter or an underscore. -/
def isIdentStart (c : Int) : Bool :=
  (decide (ch 'a' ≤ c) && decide (c ≤ ch 'z')) || (decide (ch 'A' ≤ c) && decide (c ≤ ch 'Z')) ||
    c == ch '_'

/-- A letter, a digit or an underscore. -/
def isIdentChar (c : Int) : Bool := isIdentStart c || isDigit c

/-- The value of a hexadecimal digit. -/
def hexVal (c : Int) : Option Int :=
  if ch '0' ≤ c ∧ c ≤ ch '9' then some (c - ch '0')
  else if ch 'a' ≤ c ∧ c ≤ ch 'f' then some (c - ch 'a' + 10)
  else if ch 'A' ≤ c ∧ c ≤ ch 'F' then some (c - ch 'A' + 10)
  else none

/-- The string at the start of a memory: the bytes in front of the first NUL. -/
def cString (bytes : List UInt8) : List UInt8 := bytes.takeWhile (· != 0)

end LibnklabsPico.Text
