/-
  Text/Printing.lean --- what the conversions of the formatter print.

  A string without width and precision is printed as it is, a number as its
  digits, and a byte with `%2.2x` as two hexadecimal digits.
-/
import LibnklabsPico.Text.Nkprintf

set_option autoImplicit false

namespace LibnklabsPico.Text

open LibnklabsPico.Foundation

/-- The flags of a conversion that has none. -/
def PrintSpec.plain : PrintSpec :=
  { minus := false, plus := false, space := false, pound := false
    pad := ch ' ', width := 0, prec := 0, size := 0 }

@[simp] theorem emits_plain (s : List UInt8) (pre : Nat) : emits .plain s pre = s := by
  simp [emits, PrintSpec.plain]

/-- A number is its digits behind its sign. -/
theorem emitNumber_plain (buf : List UInt8) (neg : Bool) :
    emitNumber .plain buf false neg =
      (if neg then [45] else []) ++ (if buf.length = 0 then [48] else buf).reverse := by
  have hsign : ∀ digits : List UInt8,
      emits .plain (digits ++ [45]).reverse 1 = [45] ++ digits.reverse := by simp
  unfold emitNumber
  by_cases hbuf : buf.length = 0
  · cases neg <;> simp only [hbuf, if_true] <;> rfl
  · cases neg
    · simp only [hbuf, if_false]
      exact emits_plain buf.reverse 0
    · simp only [hbuf, if_false]
      exact hsign buf

/-- The decimal digits of a number, most significant first. -/
def decDigits (val : Nat) : List Nat := if val = 0 then [0] else (digitsRev 10 20 val).reverse

theorem decDigits_ne_nil (val : Nat) : decDigits val ≠ [] := by
  unfold decDigits
  split
  · simp
  · rename_i hval
    simpa [digitsRev_eq_nil] using hval

theorem decDigits_lt (val : Nat) : ∀ d ∈ decDigits val, d < 10 := by
  intro d hd
  unfold decDigits at hd
  split at hd
  · simp at hd
    omega
  · exact digitsRev_lt (by decide) 20 val d (List.mem_reverse.mp hd)

/-- The digits stand for the number. -/
theorem foldl_decDigits {val : Nat} (h : val < 10 ^ 20) :
    (decDigits val).foldl (fun n d => n * 10 + d) 0 = val := by
  unfold decDigits
  split
  · rename_i hval
    simp [hval]
  · rw [List.foldl_reverse]
    exact foldr_digitsRev (by decide) 20 h

theorem decDigits_length_le {k val : Nat} (hk : 0 < k) (h : val < 10 ^ k) :
    (decDigits val).length ≤ k := by
  unfold decDigits
  split
  · exact hk
  · rw [List.length_reverse]
    exact digitsRev_length_le (by decide) 20 h

theorem digitChar_toNat {d : Nat} (hd : d < 10) : (digitChar false d).toNat = 48 + d := by
  have hall : ∀ d : Fin 10, (digitChar false d.val).toNat = 48 + d.val := by decide
  exact hall ⟨d, hd⟩

theorem emitDec_plain (val : Nat) (neg : Bool) :
    emitDec .plain val neg =
      (if neg then [45] else []) ++ (decDigits val).map (digitChar false) := by
  have hnil : ((digitsRev 10 20 val).map (digitChar false)).length = 0 ↔ val = 0 := by
    rw [List.length_map, List.length_eq_zero_iff, digitsRev_eq_nil (by decide)]
  rw [emitDec, emitNumber_plain]
  by_cases hval : val = 0
  · rw [if_pos (hnil.mpr hval), decDigits, if_pos hval]
    rfl
  · rw [if_neg (mt hnil.mp hval), decDigits, if_neg hval, List.map_reverse]

variable (fl : Floats)

theorem nkFprintf_d (n : Int) :
    nkFprintf fl "%d" [.int n] =
      (if signed 32 n < 0 then [45] else []) ++
        (decDigits (signed 32 n).natAbs).map (digitChar false) := by
  have hprint : nkFprintf fl "%d" [.int n] =
      emitDec .plain (signed 32 n).natAbs (decide (signed 32 n < 0)) ++ [] := rfl
  rw [hprint, List.append_nil, emitDec_plain]
  simp

theorem nkFprintf_u (n : Int) :
    nkFprintf fl "%u" [.int n] = (decDigits (wrap 32 n)).map (digitChar false) := by
  have hprint : nkFprintf fl "%u" [.int n] = emitDec .plain (wrap 32 n) false ++ [] := rfl
  rw [hprint, List.append_nil, emitDec_plain]
  rfl

theorem nkFprintf_colon (s : List UInt8) : nkFprintf fl "%s:" [.str s] = s ++ [58] := by
  have hprint : nkFprintf fl "%s:" [.str s] = emits .plain s 0 ++ [58] := rfl
  rw [hprint, emits_plain]

theorem nkFprintf_space (s : List UInt8) : nkFprintf fl "%s " [.str s] = s ++ [32] := by
  have hprint : nkFprintf fl "%s " [.str s] = emits .plain s 0 ++ [32] := rfl
  rw [hprint, emits_plain]

/-- Two hexadecimal digits. -/
theorem nkFprintf_hex (b : UInt8) :
    nkFprintf fl "\\x%2.2x" [.int b.toNat] =
      [92, 120, digitChar false (b.toNat / 16), digitChar false (b.toNat % 16)] := by
  have hprint : nkFprintf fl "\\x%2.2x" [.int b.toNat] =
      92 :: 120 :: (emitHex { PrintSpec.plain with width := 2, prec := 2 } (wrap 32 b.toNat) false
        ++ []) := rfl
  have hbyte : ∀ n : Fin 256,
      emitHex { PrintSpec.plain with width := 2, prec := 2 } n.val false =
        [digitChar false (n.val / 16), digitChar false (n.val % 16)] := by
    decide +kernel
  have hwrap : wrap 32 b.toNat = b.toNat := wrap_natCast (by have := b.toNat_lt; omega)
  rw [hprint, hwrap, List.append_nil, hbyte ⟨b.toNat, b.toNat_lt⟩]

end LibnklabsPico.Text
