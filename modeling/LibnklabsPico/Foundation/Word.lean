/-
  Foundation/Word.lean --- the fixed-width integers of the C code.

  Unsigned values are natural numbers below `2 ^ w`; every operation that can
  wrap says so with an explicit `%`.  Signed reinterpretation is `int32`.
-/
import Mathlib.Data.Int.ModEq
import Mathlib.Tactic.Positivity

set_option autoImplicit false

namespace LibnklabsPico.Foundation

/-- Reduction to `uint32_t`. -/
def u32 (x : Nat) : Nat := x % 2 ^ 32

/-- Conversion of an integer to an unsigned type of `w` bits. -/
def wrap (w : Nat) (x : Int) : Nat := (x % 2 ^ w).toNat

/-- Conversion of an integer to a signed type of `w` bits. -/
def signed (w : Nat) (x : Int) : Int := (x + 2 ^ (w - 1)) % 2 ^ w - 2 ^ (w - 1)

/-- Conversion of an integer to `int32_t`. -/
def int32 (x : Int) : Int := (x + 2 ^ 31) % 2 ^ 32 - 2 ^ 31

theorem u32_lt (x : Nat) : u32 x < 2 ^ 32 := Nat.mod_lt x (by decide)

theorem wrap_lt (w : Nat) (x : Int) : wrap w x < 2 ^ w := by
  have hpos : (0 : Int) < 2 ^ w := by positivity
  have hlow := Int.emod_nonneg x (Int.ne_of_gt hpos)
  have hhigh := Int.emod_lt_of_pos x hpos
  rw [wrap, Int.toNat_lt hlow]
  push_cast
  exact hhigh

/-- Conversion changes nothing that already fits. -/
theorem wrap_natCast {w n : Nat} (h : n < 2 ^ w) : wrap w n = n := by
  have hmod : ((n : Int) % 2 ^ w) = ((n % 2 ^ w : Nat) : Int) := by push_cast; rfl
  rw [wrap, hmod, Int.toNat_natCast, Nat.mod_eq_of_lt h]

/-- A difference that is not negative does not wrap. -/
theorem wrap_sub {w m n : Nat} (hle : n ≤ m) (h : m < 2 ^ w) :
    wrap w ((m : Int) - n) = m - n := by
  rw [← Int.ofNat_sub hle]
  exact wrap_natCast (lt_of_le_of_lt (Nat.sub_le m n) h)

/-- One below zero is all ones. -/
theorem wrap_neg_one (w : Nat) : wrap w (-1) = 2 ^ w - 1 := by
  have hpos : (0 : Int) < 2 ^ w := by positivity
  have hmod : (-1 : Int) % 2 ^ w = 2 ^ w - 1 := by
    rw [← Int.add_mul_emod_self_left (-1) (2 ^ w) 1, Int.emod_eq_of_lt] <;> omega
  have hcast : ((2 ^ w - 1 : Nat) : Int) = 2 ^ w - 1 := by
    rw [Int.ofNat_sub Nat.one_le_two_pow]
    push_cast
    rfl
  rw [wrap, hmod, ← hcast, Int.toNat_natCast]

end LibnklabsPico.Foundation
