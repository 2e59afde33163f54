/-
  Foundation/IntArith.lean --- programs over the arithmetic of the C type `int`.

  A program hands the exact value of each of its `int` computations to the call
  `int` and goes on with the answer.  What the answer is depends on the
  arithmetic: `wrapping` reduces modulo 2 ^ 32, `checked` gives no answer when the
  value does not fit.  So a run under `checked` is a run without an overflow, and
  as long as the values fit every arithmetic runs a program alike (`Exact`).
-/
import LibnklabsPico.Foundation.Prog
import LibnklabsPico.Foundation.Word

set_option autoImplicit false

namespace LibnklabsPico.Foundation

/-- The calls of a program. -/
inductive IntCmd where
  /-- a computation or a narrowing with this exact value -/
  | int (x : Int)
  /-- a load outside an array, or a loop that does not end -/
  | trap

/-- The answers to the calls of a program. -/
abbrev IntCmd.Res : IntCmd → Type
  | .int _ => Int
  | .trap => Empty

/-- Programs over `int`. -/
abbrev IntProg : Type → Type := Prog IntCmd IntCmd.Res

/-- An `int` computation with the exact value `x`. -/
def int (x : Int) : IntProg Int := Prog.perform (IntCmd.int x)

def trap {α : Type} : IntProg α := Prog.call IntCmd.trap Empty.elim

/-- `table[i]` -/
def load (table : List Int) (i : Int) : IntProg Int :=
  match i with
  | .ofNat n =>
      match table[n]? with
      | some x => pure x
      | none => trap
  | .negSucc _ => trap

/-- The values of the type. -/
def Fits (x : Int) : Prop := -2 ^ 31 ≤ x ∧ x < 2 ^ 31

instance (x : Int) : Decidable (Fits x) := inferInstanceAs (Decidable (_ ∧ _))

/-- Arithmetic modulo 2 ^ 32. -/
def wrapping (x : Int) : Option Int := some (int32 x)

/-- Arithmetic in which an overflow has no result. -/
def checked (x : Int) : Option Int := if Fits x then some x else none

/-- An arithmetic that is exact for the values that fit. -/
def Exact (arith : Int → Option Int) : Prop := ∀ x, Fits x → arith x = some x

theorem int32_of_fits {x : Int} (h : Fits x) : int32 x = x := by
  obtain ⟨hlow, hhigh⟩ := h
  rw [int32, Int.emod_eq_of_lt] <;> omega

theorem wrapping_exact : Exact wrapping := by
  intro x hfits
  rw [wrapping, int32_of_fits hfits]

theorem checked_exact : Exact checked := by
  intro x hfits
  rw [checked, if_pos hfits]

/-- Run programs in an arithmetic. -/
def arithmetic (arith : Int → Option Int) : Handler IntCmd IntCmd.Res Unit
  | .int x, _ => (arith x).map fun r => (r, ())
  | .trap, _ => none

/-- The result of a program in an arithmetic. -/
def result {α : Type} (arith : Int → Option Int) (p : IntProg α) : Option α :=
  (p.run (arithmetic arith) ()).map Prod.fst

/-! ## Rules -/

section
variable {α β : Type} {arith : Int → Option Int} {p : IntProg α} {f : α → IntProg β}

@[simp] theorem result_pure (a : α) : result arith (pure a : IntProg α) = some a := rfl

@[simp] theorem result_bind :
    result arith (p >>= f) = (result arith p).bind fun a => result arith (f a) := by
  rw [result, Prog.run_bind, result]
  cases p.run (arithmetic arith) () <;> rfl

@[simp] theorem result_int (x : Int) : result arith (int x) = arith x := by
  rw [result, int, Prog.run_perform, arithmetic]
  cases arith x <;> rfl

/-- The result of a composition from the result of its first part. -/
theorem result_bind_of {a : α} (hp : result arith p = some a) :
    result arith (p >>= f) = result arith (f a) := by
  rw [result_bind, hp, Option.bind_some]

/-- A value that fits. -/
theorem result_fits (exact : Exact arith) {g : Int → IntProg β} {x : Int}
    (hfits : -2 ^ 31 ≤ x ∧ x < 2 ^ 31) :
    result arith (int x >>= g) = result arith (g x) :=
  result_bind_of (by rw [result_int, exact x hfits])

theorem result_load {table : List Int} {n : Nat} {x : Int} (h : table[n]? = some x) :
    result arith (load table n) = some x := by
  change result arith (match table[n]? with | some x => pure x | none => trap) = _
  rw [h, result_pure]

/-- A load outside the table ends the run. -/
theorem result_load_trap {table : List Int} {n : Nat} (h : table[n]? = none) :
    result arith (load table n) = none := by
  change result arith (match table[n]? with | some x => pure x | none => trap) = _
  rw [h]
  rfl

/-- A value that does not fit ends a checked run. -/
theorem result_overflow {g : Int → IntProg β} {x : Int} (hfits : ¬ Fits x) :
    result checked (int x >>= g) = none := by
  rw [result_bind, result_int, checked, if_neg hfits, Option.bind_none]

end

end LibnklabsPico.Foundation
