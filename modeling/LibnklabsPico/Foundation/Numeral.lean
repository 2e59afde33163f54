/-
  Foundation/Numeral.lean --- positional numerals and little endian bytes.

  `digitsRev` gives the digits of a number, least significant first; folding over
  them from the other end gives the number back.  `leBytes` does the same with a
  fixed number of bytes.
-/
import Mathlib.Tactic.Common
import Mathlib.Tactic.Ring

set_option autoImplicit false

namespace LibnklabsPico.Foundation

/-- The digits of `val` by repeated division; none for `0`.  The fuel bounds
their number. -/
def digitsRev (base : Nat) : Nat → Nat → List Nat
  | 0, _ => []
  | fuel + 1, val => if val = 0 then [] else val % base :: digitsRev base fuel (val / base)

theorem digitsRev_lt {base : Nat} (hbase : 0 < base) (fuel val : Nat) :
    ∀ d ∈ digitsRev base fuel val, d < base := by
  induction fuel generalizing val with
  | zero => simp [digitsRev]
  | succ fuel ih =>
      intro d hd
      unfold digitsRev at hd
      split at hd
      · cases hd
      · rcases List.mem_cons.mp hd with rfl | hd
        · exact Nat.mod_lt val hbase
        · exact ih _ d hd

/-- The value of the digits. -/
theorem foldr_digitsRev {base : Nat} (hbase : 0 < base) (fuel : Nat) {val : Nat}
    (h : val < base ^ fuel) :
    (digitsRev base fuel val).foldr (fun d n => n * base + d) 0 = val := by
  induction fuel generalizing val with
  | zero =>
      have hzero : val = 0 := by simpa using h
      simp [digitsRev, hzero]
  | succ fuel ih =>
      unfold digitsRev
      split
      · rename_i hzero
        simp [hzero]
      · have hdiv : val / base < base ^ fuel := by
          rw [Nat.div_lt_iff_lt_mul hbase]
          rwa [← Nat.pow_succ]
        rw [List.foldr_cons, ih hdiv, Nat.mul_comm]
        exact Nat.div_add_mod val base

theorem digitsRev_eq_nil {base fuel val : Nat} (hfuel : 0 < fuel) :
    digitsRev base fuel val = [] ↔ val = 0 := by
  obtain ⟨fuel, rfl⟩ : ∃ k, fuel = k + 1 := ⟨fuel - 1, by omega⟩
  unfold digitsRev
  split <;> simp_all

theorem digitsRev_length_le {base : Nat} (hbase : 0 < base) (fuel : Nat) {k val : Nat}
    (h : val < base ^ k) : (digitsRev base fuel val).length ≤ k := by
  induction fuel generalizing k val with
  | zero => exact Nat.zero_le k
  | succ fuel ih =>
      unfold digitsRev
      split
      · exact Nat.zero_le k
      · rename_i hne
        cases k with
        | zero => exact absurd (Nat.lt_one_iff.mp h) hne
        | succ k =>
            have hdiv : val / base < base ^ k := by
              rw [Nat.div_lt_iff_lt_mul hbase]
              rwa [← Nat.pow_succ]
            rw [List.length_cons]
            exact Nat.succ_le_succ (ih hdiv)

/-- The `k` low bytes of a number, least significant first. -/
def leBytes : Nat → Nat → List UInt8
  | 0, _ => []
  | k + 1, n => UInt8.ofNat n :: leBytes k (n / 256)

/-- The number that bytes stand for. -/
def ofLe : List UInt8 → Nat
  | [] => 0
  | b :: bytes => b.toNat + 256 * ofLe bytes

@[simp] theorem leBytes_length (k n : Nat) : (leBytes k n).length = k := by
  induction k generalizing n with
  | zero => rfl
  | succ k ih => simp [leBytes, ih]

theorem ofLe_leBytes (k n : Nat) : ofLe (leBytes k n) = n % 256 ^ k := by
  induction k generalizing n with
  | zero => simp [leBytes, ofLe, Nat.mod_one]
  | succ k ih =>
      have hbyte : (UInt8.ofNat n).toNat = n % 256 := UInt8.toNat_ofNat'
      have hpow : 256 ^ (k + 1) = 256 * 256 ^ k := by rw [Nat.pow_succ, Nat.mul_comm]
      rw [leBytes, ofLe, ih, hbyte, hpow, Nat.mod_mul]

theorem leBytes_ofLe {k : Nat} {bytes : List UInt8} (hlen : bytes.length = k) :
    leBytes k (ofLe bytes) = bytes := by
  subst hlen
  induction bytes with
  | nil => rfl
  | cons b bytes ih =>
      have hb := b.toNat_lt
      have hdiv : (b.toNat + 256 * ofLe bytes) / 256 = ofLe bytes := by omega
      have hmod : UInt8.ofNat (b.toNat + 256 * ofLe bytes) = b := by
        apply UInt8.toNat_inj.mp
        rw [UInt8.toNat_ofNat']
        omega
      rw [List.length_cons, ofLe, leBytes, hdiv, hmod, ih]

theorem ofLe_lt (bytes : List UInt8) : ofLe bytes < 256 ^ bytes.length := by
  induction bytes with
  | nil => simp [ofLe]
  | cons b bytes ih =>
      have hb := b.toNat_lt
      rw [ofLe, List.length_cons, Nat.pow_succ]
      omega

end LibnklabsPico.Foundation
