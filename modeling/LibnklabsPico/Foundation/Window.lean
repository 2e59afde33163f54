/-
  Foundation/Window.lean --- wrapped 32-bit time inside one window.

  The signed difference of two 32-bit clock values is not transitive on the
  whole circle.  Inside any window of `2 ^ 31` ticks it is the difference of the
  two offsets into the window, so it is a linear preorder there.
-/
import LibnklabsPico.Foundation.Word

set_option autoImplicit false

namespace LibnklabsPico.Foundation

/-- Ticks from `w` to `t` on the circle. -/
def ticksSince (w t : Nat) : Int := ((t : Int) - (w : Int)) % 2 ^ 32

/-- `t` is in the window that starts at `w`. -/
def InWindow (w t : Nat) : Prop := ticksSince w t < 2 ^ 31

instance (w t : Nat) : Decidable (InWindow w t) :=
  inferInstanceAs (Decidable (_ < _))

/-- `int32 (b - a)`: by how much `b` is later than `a`. -/
def later (a b : Nat) : Int := int32 ((b : Int) - (a : Int))

@[simp] theorem later_self (a : Nat) : later a a = 0 := by
  simp [later, int32]

/-- Inside a window the signed difference is the difference of the offsets. -/
theorem later_eq {w a b : Nat} (ha : InWindow w a) (hb : InWindow w b) :
    later a b = ticksSince w b - ticksSince w a := by
  simp only [InWindow, ticksSince, later, int32] at *
  omega

theorem later_trans {w a b c : Nat} (ha : InWindow w a) (hb : InWindow w b)
    (hc : InWindow w c) : later a c = later a b + later b c := by
  rw [later_eq ha hb, later_eq hb hc, later_eq ha hc]
  omega

theorem later_swap {w a b : Nat} (ha : InWindow w a) (hb : InWindow w b) :
    later b a = -later a b := by
  rw [later_eq ha hb, later_eq hb ha]
  omega

end LibnklabsPico.Foundation
