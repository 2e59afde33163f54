/-
  Foundation/Align.lean --- alignment to a block size, and bit masks for it.
-/
import LibnklabsPico.Foundation.Word

set_option autoImplicit false

namespace LibnklabsPico.Foundation

/-- The least multiple of `m` that is at least `n`. -/
def roundUp (n m : Nat) : Nat := (n + (m - 1)) / m * m

theorem dvd_roundUp (n m : Nat) : m ∣ roundUp n m := Nat.dvd_mul_left m _

theorem le_roundUp (n : Nat) {m : Nat} (hm : 0 < m) : n ≤ roundUp n m := by
  have hdiv := Nat.div_add_mod (n + (m - 1)) m
  have hmod := Nat.mod_lt (n + (m - 1)) hm
  rw [roundUp, Nat.mul_comm]
  omega

theorem roundUp_lt (n : Nat) {m : Nat} (hm : 0 < m) : roundUp n m < n + m := by
  have hle := Nat.div_mul_le_self (n + (m - 1)) m
  unfold roundUp
  omega

/-- Two multiples less than one block apart are equal. -/
theorem eq_of_dvd_of_lt {m a b : Nat} (ha : m ∣ a) (hb : m ∣ b) (hab : a < b + m)
    (hba : b < a + m) : a = b := by
  rcases Nat.le_total a b with hle | hle
  · have := Nat.eq_zero_of_dvd_of_lt (Nat.dvd_sub hb ha) (by omega)
    omega
  · have := Nat.eq_zero_of_dvd_of_lt (Nat.dvd_sub ha hb) (by omega)
    omega

theorem roundUp_eq {n m t : Nat} (hdvd : m ∣ t) (hle : n ≤ t) (hlt : t < n + m) :
    roundUp n m = t := by
  have hm : 0 < m := by omega
  have h₁ := le_roundUp n hm
  have h₂ := roundUp_lt n hm
  exact eq_of_dvd_of_lt (dvd_roundUp n m) hdvd (by omega) (by omega)

theorem roundUp_of_dvd {n m : Nat} (hm : 0 < m) (hdvd : m ∣ n) : roundUp n m = n :=
  roundUp_eq hdvd (Nat.le_refl n) (Nat.lt_add_of_pos_right hm)

theorem roundUp_mono {a b : Nat} (h : a ≤ b) (m : Nat) : roundUp a m ≤ roundUp b m :=
  Nat.mul_le_mul_right m (Nat.div_le_div_right (Nat.add_le_add_right h (m - 1)))

/-- The block of a position that is not at its start ends at the next boundary. -/
theorem dvd_add_sub_mod (n : Nat) {m : Nat} (hm : 0 < m) : m ∣ n + (m - n % m) := by
  have hmod := Nat.mod_lt n hm
  have hdiv := Nat.div_add_mod n m
  have heq : n + (m - n % m) = m * (n / m + 1) := by
    rw [Nat.mul_add, Nat.mul_one]
    omega
  exact heq ▸ Nat.dvd_mul_right m _

/-- The mask `size - 1` of a block size takes the remainder. -/
theorem and_mask {w k : Nat} (hk : k < w) (n : Nat) :
    n &&& wrap w (((2 ^ k : Nat) : Int) - 1) = n % 2 ^ k := by
  have hone : 1 ≤ 2 ^ k := Nat.one_le_two_pow
  have hbound : 2 ^ k < 2 ^ w := Nat.pow_lt_pow_right (by omega) hk
  have hmask := wrap_sub hone hbound
  rw [Int.natCast_one] at hmask
  rw [hmask, Nat.and_two_pow_sub_one_eq_mod]

/-- The mask that clears the low bits takes the remainder away. -/
theorem and_high_mask {w k n : Nat} (hk : k ≤ w) (h : n < 2 ^ w) :
    n &&& (2 ^ w - 2 ^ k) = n - n % 2 ^ k := by
  have hmask : 2 ^ w - 2 ^ k = (2 ^ (w - k) - 1) <<< k := by
    rw [Nat.shiftLeft_eq, Nat.sub_mul, ← Nat.pow_add, Nat.sub_add_cancel hk, Nat.one_mul]
  have hclear : n - n % 2 ^ k = (n >>> k) <<< k := by
    have hdiv := Nat.div_add_mod' n (2 ^ k)
    rw [Nat.shiftLeft_eq, Nat.shiftRight_eq_div_pow]
    omega
  rw [hmask, hclear]
  apply Nat.eq_of_testBit_eq
  intro i
  rw [Nat.testBit_and, Nat.testBit_shiftLeft, Nat.testBit_shiftLeft, Nat.testBit_shiftRight,
    Nat.testBit_two_pow_sub_one]
  by_cases hlow : k ≤ i
  · have hindex : k + (i - k) = i := Nat.add_sub_cancel' hlow
    rw [hindex]
    by_cases hhigh : i < w
    · have hin : i - k < w - k := by omega
      simp [hlow, hin]
    · have hzero : n.testBit i = false :=
        Nat.testBit_lt_two_pow (Nat.lt_of_lt_of_le h (Nat.pow_le_pow_right (by decide) (by omega)))
      simp [hzero]
  · simp [hlow]

end LibnklabsPico.Foundation
