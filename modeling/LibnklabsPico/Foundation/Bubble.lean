/-
  Foundation/Bubble.lean --- sorting by exchanging neighbours.

  `after a b` says that `a` belongs behind `b`.  A pass carries one element over
  the list and exchanges it for the next one that does not have it in front.
  A pass that exchanges something has fewer `inversions` (`carry_inversions`),
  one that exchanges nothing proves the list in order (`carry_inOrder`), and no
  pass exchanges elements that need not be (`carry_filter`).
-/
import Mathlib.Data.List.Chain
import Mathlib.Data.List.Perm.Basic
import Mathlib.Tactic.Common

set_option autoImplicit false

namespace LibnklabsPico.Foundation.Bubble

variable {α : Type} {after : α → α → Bool} {a : α} {rest table : List α}

/-- A pass from the element `a` on, the elements behind it being `rest`, and
whether it exchanges something. -/
def carry (after : α → α → Bool) : α → List α → List α × Bool
  | a, [] => ([a], false)
  | a, b :: rest =>
      if after a b then (b :: (carry after a rest).1, true)
      else (a :: (carry after b rest).1, (carry after b rest).2)

/-- The number of pairs in the wrong order. -/
def inversions (after : α → α → Bool) : List α → Nat
  | [] => 0
  | a :: rest => rest.countP (after a) + inversions after rest

theorem carry_swap {b : α} (h : after a b = true) :
    carry after a (b :: rest) = (b :: (carry after a rest).1, true) := if_pos h

theorem carry_keep {b : α} (h : after a b = false) :
    carry after a (b :: rest) = (a :: (carry after b rest).1, (carry after b rest).2) :=
  if_neg (by simp [h])

theorem carry_perm (a : α) (rest : List α) : (carry after a rest).1.Perm (a :: rest) := by
  induction rest generalizing a with
  | nil => exact .refl _
  | cons b rest ih =>
      cases h : after a b with
      | true =>
          rw [carry_swap h]
          exact ((ih a).cons b).trans (.swap a b rest)
      | false =>
          rw [carry_keep h]
          exact (ih b).cons a

/-- Elements of which no two are exchanged keep their order. -/
theorem carry_filter {p : α → Bool}
    (hp : ∀ a b, p a = true → p b = true → after a b = false) (a : α) (rest : List α) :
    (carry after a rest).1.filter p = (a :: rest).filter p := by
  induction rest generalizing a with
  | nil => rfl
  | cons b rest ih =>
      cases h : after a b with
      | true =>
          rw [carry_swap h, List.filter_cons, ih a]
          have hnotBoth : ¬ (p a = true ∧ p b = true) := by
            intro ⟨ha, hb⟩
            rw [hp a b ha hb] at h
            exact absurd h (by simp)
          cases ha : p a <;> cases hb : p b <;> simp_all
      | false =>
          rw [carry_keep h, List.filter_cons, List.filter_cons, ih b]

/-- Every exchange removes an inversion. -/
theorem carry_inversions (hasymm : ∀ a b, after a b = true → after b a = false)
    (a : α) (rest : List α) :
    inversions after (carry after a rest).1 + (carry after a rest).2.toNat ≤
      inversions after (a :: rest) := by
  induction rest generalizing a with
  | nil => exact Nat.le_refl _
  | cons b rest ih =>
      cases h : after a b with
      | true =>
          have hcarried := ih a
          have hperm : (carry after a rest).1.Perm (a :: rest) := carry_perm a rest
          have hcount := hperm.countP_eq (after b)
          have hback := hasymm a b h
          simp only [carry_swap h, inversions, List.countP_cons, h, hback, Bool.toNat_true,
            if_true, Bool.false_eq_true, if_false] at hcarried hcount ⊢
          omega
      | false =>
          have hcarried := ih b
          have hperm : (carry after b rest).1.Perm (b :: rest) := carry_perm b rest
          have hcount := hperm.countP_eq (after a)
          simp only [carry_keep h, inversions] at hcarried hcount ⊢
          omega

/-- A pass that exchanges nothing has found the list in order. -/
theorem carry_inOrder (h : (carry after a rest).2 = false) :
    (carry after a rest).1 = a :: rest ∧
      (a :: rest).IsChain fun a b => after a b = false := by
  induction rest generalizing a with
  | nil => exact ⟨rfl, .singleton a⟩
  | cons b rest ih =>
      cases hab : after a b with
      | true =>
          rw [carry_swap hab] at h
          exact absurd h (by simp)
      | false =>
          rw [carry_keep hab] at h ⊢
          obtain ⟨hsame, hchain⟩ := ih h
          exact ⟨by rw [hsame], .cons_cons hab hchain⟩

end LibnklabsPico.Foundation.Bubble
