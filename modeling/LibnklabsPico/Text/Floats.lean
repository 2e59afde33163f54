/-
  Text/Floats.lean --- what the printing and scanning functions leave to the
  floating point library: `__floatfmt`, `fstrtod` and the conversions of the
  compiler.
-/
import LibnklabsPico.File.FileProg
import LibnklabsPico.Text.Nkstring

set_option autoImplicit false

namespace LibnklabsPico.Text

open LibnklabsPico.File

/-- The flags of a conversion of `_nk_vprintf`. -/
structure PrintSpec where
  /-- left justified -/
  minus : Bool
  /-- prefix `+` -/
  plus : Bool
  /-- prefix with space for positive numbers -/
  space : Bool
  /-- prefix hex with `0x` unless zero -/
  pound : Bool
  pad : Int
  /-- field width -/
  width : Nat
  /-- precision -/
  prec : Nat
  /-- argument size: 0 = int, 1 = long, 2 = long long, 3 = size_t, 4 = ptrdiff_t -/
  size : Int

/-- The floating point library. -/
structure Floats where
  Double : Type
  /-- the value of a `double` in memory -/
  getDouble : List UInt8 → Double
  /-- the value of a `float` in memory, promoted -/
  getFloat : List UInt8 → Double
  /-- a `double` in memory -/
  putDouble : Double → List UInt8
  putDouble_length : ∀ val, (putDouble val).length = 8
  /-- a value converted to `float`, in memory -/
  putFloat : Double → List UInt8
  putFloat_length : ∀ val, (putFloat val).length = 4
  /-- conversion of an integer to `double` -/
  ofInt : Int → Double
  neg : Double → Double
  /-- conversion of a `double` to an integer -/
  toInt : Double → Int
  /-- the text of a conversion, with its character -/
  format : Int → PrintSpec → Double → List UInt8
  /-- `nk_fscan_double` with `val` set to `0.0` before: its status and `val` -/
  scan : FileProg (Bool × Double)

/-- A library for programs that have no floating point values: it reads none and
prints nothing. -/
def Floats.absent : Floats where
  Double := Unit
  getDouble _ := ()
  getFloat _ := ()
  putDouble _ := List.replicate 8 0
  putDouble_length _ := rfl
  putFloat _ := List.replicate 4 0
  putFloat_length _ := rfl
  ofInt _ := ()
  neg _ := ()
  toInt _ := 0
  format _ _ _ := []
  scan := pure (false, ())

end LibnklabsPico.Text
