/-
  Foundation/Spans.lean --- numbers cut into spans of varying lengths.

  Span `i` has the length `len i` and begins where the spans before it end.  A
  number is in a span, at an offset (`exists_span`), and the order of numbers is
  that of span and offset (`span_lt`).
-/
import Mathlib.Tactic.Common

set_option autoImplicit false

namespace LibnklabsPico.Foundation

variable {len : Nat → Nat} {i j r s n : Nat}

/-- Where a span begins. -/
def spanStart (len : Nat → Nat) : Nat → Nat
  | 0 => 0
  | i + 1 => spanStart len i + len i

theorem spanStart_succ (len : Nat → Nat) (i : Nat) :
    spanStart len (i + 1) = spanStart len i + len i := rfl

theorem spanStart_le (len : Nat → Nat) (h : i ≤ j) : spanStart len i ≤ spanStart len j := by
  induction h with
  | refl => exact Nat.le_refl _
  | step _ ih => exact Nat.le_trans ih (Nat.le_add_right ..)

/-- A span ends before a later one begins. -/
theorem spanEnd_le (len : Nat → Nat) (h : i < j) : spanStart len i + len i ≤ spanStart len j :=
  spanStart_le len h

/-- Spans and offsets in order. -/
theorem span_lt (hr : r < len i) (h : i < j ∨ i = j ∧ r < s) :
    spanStart len i + r < spanStart len j + s := by
  rcases h with h | ⟨rfl, h⟩
  · have hend := spanEnd_le len h
    omega
  · omega

/-- A number before the end of some spans is in one of them. -/
theorem exists_span (h : n < spanStart len j) :
    ∃ i < j, ∃ r < len i, n = spanStart len i + r := by
  induction j with
  | zero => exact absurd h (Nat.not_lt_zero n)
  | succ j ih =>
      by_cases hbefore : n < spanStart len j
      · obtain ⟨i, hi, r, hr, heq⟩ := ih hbefore
        exact ⟨i, Nat.lt_succ_of_lt hi, r, hr, heq⟩
      · rw [spanStart_succ] at h
        exact ⟨j, Nat.lt_succ_self j, n - spanStart len j, by omega, by omega⟩

/-- Spans that are not empty go on for ever. -/
theorem le_spanStart (hpos : ∀ i, 0 < len i) (i : Nat) : i ≤ spanStart len i := by
  induction i with
  | zero => exact Nat.le_refl 0
  | succ i ih =>
      have hlen := hpos i
      rw [spanStart_succ]
      omega

end LibnklabsPico.Foundation
