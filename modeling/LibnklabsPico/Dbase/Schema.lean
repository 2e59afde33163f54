/-
  Dbase/Schema.lean --- the schema of a database, `struct type` of
  `libnklabs/inc/nkserialize.h`.

  A type describes a value in memory at an address.  Numbers are little endian, and
  `int`, `size_t` and pointers have 32 bits.
-/
import LibnklabsPico.Foundation.Memory
import LibnklabsPico.Foundation.Numeral
import LibnklabsPico.Foundation.Word
import LibnklabsPico.Text.Nkstring

set_option autoImplicit false

namespace LibnklabsPico.Dbase

open LibnklabsPico.Foundation
open LibnklabsPico.Text

/-- `NKDBASE_MAXIDENTLEN` -/
def nkdbaseMaxIdentLen : Nat := 80

/-- `NKDBASE_MAXCOLS` -/
def nkdbaseMaxCols : Nat := 20

/-- The type codes of integers. -/
inductive IntType where
  | tInt
  | tUint
  | tInt8
  | tUint8
  | tInt16
  | tUint16
  deriving DecidableEq, Repr

/-- `sizeof` of the integer. -/
def IntType.width : IntType → Nat
  | .tInt | .tUint => 4
  | .tInt8 | .tUint8 => 1
  | .tInt16 | .tUint16 => 2

/-- The value of a `char`, which is signed or unsigned by the choice of the
compiler. -/
def charVal (charSigned : Bool) (n : Nat) : Int := if charSigned then signed 8 n else n

/-- The value of an integer in memory. -/
def IntType.load (what : IntType) (charSigned : Bool) (mem : Memory) (location : Nat) : Int :=
  let n := ofLe (mem.read location what.width)
  match what with
  | .tInt => signed 32 n
  | .tInt8 => charVal charSigned n
  | .tInt16 => signed 16 n
  | .tUint | .tUint8 | .tUint16 => n

/-- Save an integer in memory, converted to its type. -/
def IntType.save (what : IntType) (val : Int) (mem : Memory) (location : Nat) : Memory :=
  mem.store location (leBytes what.width (wrap (8 * what.width) val))

/-- `check`: a function that tells whether the value at an address is accepted, or
`NULL`. -/
abbrev Check : Type := Option (Memory → Nat → Int)

/-- `!(type->check && !type->check(location))` -/
def Check.passes (check : Check) (mem : Memory) (location : Nat) : Bool :=
  match check with
  | some check => check mem location != 0
  | none => true

/-- `struct type`.  A member is its name, its type and its offset; the type of the
rows of a table is given by its size and its members. -/
inductive Ty where
  | tBool (size : Nat) (check : Check)
  | tInteger (what : IntType) (size : Nat) (check : Check)
  | tDouble (size : Nat) (check : Check)
  | tFloat (size : Nat) (check : Check)
  | tString (size : Nat) (check : Check)
  | tStruct (size : Nat) (members : List (List UInt8 × Ty × Nat)) (check : Check)
  | tArray (size : Nat) (subtype : Ty) (check : Check)
  | tVarray (size : Nat) (subtype : Ty) (check : Check)
  | tTable (size rowSize : Nat) (columns : List (List UInt8 × Ty × Nat)) (check : Check)

/-- `struct member` -/
abbrev Member : Type := List UInt8 × Ty × Nat

namespace Ty

/-- `type->size` -/
def size : Ty → Nat
  | tBool size _ | tInteger _ size _ | tDouble size _ | tFloat size _ | tString size _
  | tStruct size _ _ | tArray size _ _ | tVarray size _ _ | tTable size _ _ _ => size

/-- `type->check` -/
def check : Ty → Check
  | tBool _ check | tInteger _ _ check | tDouble _ check | tFloat _ check | tString _ check
  | tStruct _ _ check | tArray _ _ check | tVarray _ _ check | tTable _ _ _ check => check

end Ty

/-- `sizeof(union len)` -/
def lenSize : Nat := 8

/-- `((union len *)location)->len` -/
def getLen (mem : Memory) (location : Nat) : Nat := ofLe (mem.read location 4)

/-- `((union len *)location)->len = len` -/
def setLen (mem : Memory) (location len : Nat) : Memory := mem.store location (leBytes 4 len)

/-- How much memory a value takes: variable arrays and tables have their length in
front of their items. -/
def Ty.extent : Ty → Nat
  | .tVarray size _ _ | .tTable size _ _ _ => lenSize + size
  | type => type.size

@[simp] theorem Ty.extent_tStruct (size : Nat) (members : List Member) (check : Check) :
    (Ty.tStruct size members check).extent = size := rfl

@[simp] theorem Ty.extent_tArray (size : Nat) (subtype : Ty) (check : Check) :
    (Ty.tArray size subtype check).extent = size := rfl

@[simp] theorem Ty.extent_tVarray (size : Nat) (subtype : Ty) (check : Check) :
    (Ty.tVarray size subtype check).extent = lenSize + size := rfl

@[simp] theorem Ty.extent_tTable (size rowSize : Nat) (columns : List Member) (check : Check) :
    (Ty.tTable size rowSize columns check).extent = lenSize + size := rfl

/-- The member with the name in a buffer, by `strcmp`. -/
def findMember (members : List Member) (buf : List UInt8) : Option Member :=
  members.find? fun m => m.1 == cString buf

end LibnklabsPico.Dbase
