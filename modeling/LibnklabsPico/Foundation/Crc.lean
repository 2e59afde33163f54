/-
  Foundation/Crc.lean --- cyclic redundancy checks, one bit at a time.

  A register is shifted by one place for every bit; the bit that leaves it and the bit of
  the message decide together whether the polynomial is added.  All of it is linear
  (`steps_xor`), so the CRC of a damaged message differs from that of the message by the
  CRC of the damage, and a burst that is not longer than the register leaves a mark that
  no further bits remove (`steps_burst_ne_zero`).
-/
import Mathlib.Data.List.Induction
import Mathlib.Logic.Function.Iterate
import Mathlib.Tactic.Common

set_option autoImplicit false

namespace LibnklabsPico.Foundation

/-- A shift register with feedback: how it is shifted, the bit that leaves it, and what
is added. -/
structure Register (w : Nat) where
  shift : BitVec w → BitVec w
  out : BitVec w → Bool
  poly : BitVec w
  shift_xor : ∀ s t, shift (s ^^^ t) = shift s ^^^ shift t
  out_xor : ∀ s t, out (s ^^^ t) = (out s ^^ out t)

namespace Register

variable {w : Nat}

/-- Most significant bit first. -/
def msbFirst (poly : BitVec w) : Register w where
  shift s := s <<< 1
  out s := s.msb
  poly := poly
  shift_xor _ _ := BitVec.shiftLeft_xor_distrib _ _ 1
  out_xor _ _ := BitVec.msb_xor

/-- Least significant bit first. -/
def lsbFirst (poly : BitVec w) : Register w where
  shift s := s >>> 1
  out s := s.getLsbD 0
  poly := poly
  shift_xor _ _ := BitVec.ushiftRight_xor_distrib _ _ 1
  out_xor _ _ := BitVec.getLsbD_xor

variable (R : Register w)

/-- What is added to the register. -/
def feed (b : Bool) : BitVec w := if b then R.poly else 0#w

/-- One bit. -/
def step (s : BitVec w) (b : Bool) : BitVec w := R.shift s ^^^ R.feed (R.out s ^^ b)

/-- The bits of a message. -/
def steps (s : BitVec w) (bits : List Bool) : BitVec w := bits.foldl R.step s

/-- The bits that leave the register in `n` shifts. -/
def outs : Nat → BitVec w → List Bool
  | 0, _ => []
  | n + 1, s => R.out s :: outs n (R.shift s)

@[simp] theorem steps_nil (s : BitVec w) : R.steps s [] = s := rfl

@[simp] theorem steps_cons (s : BitVec w) (b : Bool) (bits : List Bool) :
    R.steps s (b :: bits) = R.steps (R.step s b) bits := rfl

theorem steps_append (s : BitVec w) (bits bits' : List Bool) :
    R.steps s (bits ++ bits') = R.steps (R.steps s bits) bits' :=
  List.foldl_append

/-! ## Linearity -/

theorem shift_zero : R.shift 0#w = 0#w := by
  have h := R.shift_xor 0#w 0#w
  rwa [BitVec.xor_self, BitVec.xor_self] at h

theorem out_zero : R.out 0#w = false := by
  have h := R.out_xor 0#w 0#w
  rwa [BitVec.xor_self, Bool.xor_self] at h

theorem feed_xor (b c : Bool) : R.feed (b ^^ c) = R.feed b ^^^ R.feed c := by
  cases b <;> cases c <;> simp [feed]

theorem step_xor (s t : BitVec w) (b c : Bool) :
    R.step (s ^^^ t) (b ^^ c) = R.step s b ^^^ R.step t c := by
  have hfeed : R.feed (R.out (s ^^^ t) ^^ (b ^^ c)) =
      R.feed (R.out s ^^ b) ^^^ R.feed (R.out t ^^ c) := by
    rw [← feed_xor, R.out_xor]
    congr 1
    cases R.out s <;> cases R.out t <;> cases b <;> cases c <;> rfl
  rw [step, hfeed, R.shift_xor, step, step, BitVec.xor_assoc, BitVec.xor_assoc]
  congr 1
  rw [← BitVec.xor_assoc, ← BitVec.xor_assoc, BitVec.xor_comm (R.shift t)]

theorem steps_xor (s t : BitVec w) {bits bits' : List Bool} (h : bits.length = bits'.length) :
    R.steps (s ^^^ t) (List.zipWith (· ^^ ·) bits bits') = R.steps s bits ^^^ R.steps t bits' := by
  induction bits generalizing s t bits' with
  | nil =>
      obtain rfl := List.length_eq_zero_iff.mp h.symm
      rfl
  | cons b bits ih =>
      cases bits' with
      | nil => cases h
      | cons c bits' =>
          rw [List.zipWith_cons_cons, steps_cons, step_xor, ih _ _ (Nat.succ.inj h)]
          rfl

theorem step_zero (b : Bool) : R.step 0#w b = R.feed b := by
  rw [step, shift_zero, out_zero, BitVec.zero_xor, Bool.false_xor]

theorem steps_zeros (n : Nat) : R.steps 0#w (List.replicate n false) = 0#w := by
  induction n with
  | zero => rfl
  | succ n ih => rw [List.replicate_succ, steps_cons, step_zero, feed, if_neg (by simp), ih]

/-- A message that differs in nothing, from a register that differs. -/
theorem steps_add (s t : BitVec w) (bits : List Bool) :
    R.steps (s ^^^ t) bits =
      R.steps s bits ^^^ R.steps t (List.replicate bits.length false) := by
  have hsame : List.zipWith (· ^^ ·) bits (List.replicate bits.length false) = bits := by
    induction bits with
    | nil => rfl
    | cons b bits ih =>
        rw [List.length_cons, List.replicate_succ, List.zipWith_cons_cons, ih, Bool.xor_false]
  rw [← R.steps_xor s t (List.length_replicate).symm, hsame]

@[simp] theorem outs_length (n : Nat) (s : BitVec w) : (R.outs n s).length = n := by
  induction n generalizing s with
  | zero => rfl
  | succ n ih => rw [outs, List.length_cons, ih]

/-- What was in the register is shifted out, and the bits that leave it act like bits of
the message. -/
theorem steps_outs (s : BitVec w) (bits : List Bool) :
    R.steps s bits = R.shift^[bits.length] s ^^^
      R.steps 0#w (List.zipWith (· ^^ ·) bits (R.outs bits.length s)) := by
  induction bits generalizing s with
  | nil => simp [outs]
  | cons b bits ih =>
      have hlen : (List.zipWith (· ^^ ·) bits (R.outs bits.length (R.shift s))).length =
          bits.length := by simp
      have hfirst : R.step s b = R.shift s ^^^ R.feed (b ^^ R.out s) := by
        rw [step, Bool.xor_comm]
      have hrest : R.steps (R.feed (b ^^ R.out s))
          (List.zipWith (· ^^ ·) bits (R.outs bits.length (R.shift s))) =
          R.steps 0#w (List.zipWith (· ^^ ·) bits (R.outs bits.length (R.shift s))) ^^^
            R.steps (R.feed (b ^^ R.out s)) (List.replicate bits.length false) := by
        rw [← BitVec.zero_xor (x := R.feed (b ^^ R.out s)), steps_add, hlen, BitVec.zero_xor]
      rw [steps_cons, hfirst, steps_add, ih, List.length_cons, outs, List.zipWith_cons_cons,
        steps_cons, step_zero, hrest, Function.iterate_succ_apply, BitVec.xor_assoc]

/-! ## Damage -/

/-- The CRC of a damaged message. -/
theorem steps_damaged (s : BitVec w) {bits damage : List Bool}
    (h : bits.length = damage.length) :
    R.steps s (List.zipWith (· ^^ ·) bits damage) = R.steps s bits ^^^ R.steps 0#w damage := by
  rw [← R.steps_xor s 0#w h, BitVec.xor_zero]

section
variable {poly : BitVec w}

theorem msbFirst_step (s : BitVec w) (b : Bool) :
    (msbFirst poly).step s b = s <<< 1 ^^^ if s.msb ^^ b then poly else 0#w := rfl

/-- When the lowest bit is clear, the polynomial was not added. -/
theorem step_of_lowest (hpoly : poly.getLsbD 0 = true) {s : BitVec w} {b : Bool}
    (h : ((msbFirst poly).step s b).getLsbD 0 = false) :
    b = s.msb ∧ (msbFirst poly).step s b = s <<< 1 := by
  rw [msbFirst_step] at h ⊢
  have hlow : (s <<< 1).getLsbD 0 = false := by simp
  have hbit : (s.msb ^^ b) = false := by
    by_contra hne
    rw [Bool.not_eq_false] at hne
    rw [hne, if_pos rfl, BitVec.getLsbD_xor, hlow, hpoly] at h
    cases h
  refine ⟨?_, by rw [hbit]; simp⟩
  revert hbit
  cases s.msb <;> cases b <;> simp

/-- Bits behind a mark do not remove it. -/
theorem steps_ne_zero (hpoly : poly.getLsbD 0 = true) {s : BitVec w} (hs : s ≠ 0#w) (n : Nat) :
    (msbFirst poly).steps s (List.replicate n false) ≠ 0#w := by
  induction n generalizing s with
  | zero => exact hs
  | succ n ih =>
      rw [List.replicate_succ, steps_cons]
      refine ih fun hzero => hs ?_
      have hlow : ((msbFirst poly).step s false).getLsbD 0 = false := by rw [hzero]; simp
      obtain ⟨hmsb, hshift⟩ := step_of_lowest hpoly hlow
      rw [hzero] at hshift
      refine BitVec.eq_of_getLsbD_eq fun i hi => ?_
      by_cases hlast : i + 1 < w
      · have hbit := congrArg (·.getLsbD (i + 1)) hshift
        rw [BitVec.getLsbD_shiftLeft] at hbit
        simpa [hlast] using hbit.symm
      · have hi' : i = w - 1 := by omega
        rw [hi', ← BitVec.msb_eq_getLsbD_last, ← hmsb]
        simp

/-- Bits that leave the low bits of the register clear were all clear. -/
theorem clear_of_low_clear (hpoly : poly.getLsbD 0 = true) (bits : List Bool)
    (hlen : bits.length ≤ w)
    (hlow : ∀ i < bits.length, ((msbFirst poly).steps 0#w bits).getLsbD i = false) :
    (∀ b ∈ bits, b = false) ∧ (msbFirst poly).steps 0#w bits = 0#w := by
  induction bits using List.reverseRecOn with
  | nil => simp
  | append_singleton bits b ih =>
      rw [List.length_append, List.length_singleton] at hlen hlow
      rw [steps_append, steps_cons, steps_nil] at hlow ⊢
      obtain ⟨hmsb, hshift⟩ := step_of_lowest hpoly (hlow 0 (by omega))
      rw [hshift] at hlow ⊢
      have hbefore : ∀ i < bits.length, ((msbFirst poly).steps 0#w bits).getLsbD i = false := by
        intro i hi
        have hbit := hlow (i + 1) (by omega)
        rw [BitVec.getLsbD_shiftLeft] at hbit
        simpa [show i + 1 < w by omega, show i < w by omega] using hbit
      obtain ⟨hclear, hzero⟩ := ih (by omega) hbefore
      rw [hzero] at hmsb ⊢
      refine ⟨fun c hc => ?_, by simp⟩
      rcases List.mem_append.mp hc with hc | hc
      · exact hclear c hc
      · rw [List.mem_singleton.mp hc, hmsb]
        simp

/-- A burst that is not longer than the register leaves a mark. -/
theorem steps_burst_ne_zero (hpoly : poly.getLsbD 0 = true) (before after : Nat)
    {burst : List Bool} (hlen : burst.length ≤ w) (hburst : true ∈ burst) :
    (msbFirst poly).steps 0#w
      (List.replicate before false ++ (burst ++ List.replicate after false)) ≠ 0#w := by
  rw [steps_append, steps_zeros, steps_append]
  refine steps_ne_zero hpoly (fun hzero => ?_) after
  have hclear := (clear_of_low_clear hpoly burst hlen fun i _ => by rw [hzero]; simp).1
  cases hclear true hburst

end

end Register

/-! ## Messages of bytes -/

/-- The bits of a byte, the most significant one first. -/
def byteBits (b : UInt8) : List Bool :=
  [7, 6, 5, 4, 3, 2, 1, 0].map fun i => b.toBitVec.getLsbD i

/-- The bits of a byte, the least significant one first. -/
def byteBitsLsb (b : UInt8) : List Bool :=
  [0, 1, 2, 3, 4, 5, 6, 7].map fun i => b.toBitVec.getLsbD i

/-- The CRC of a block of memory, most significant bit first. -/
def crcMsb {w : Nat} (poly s : BitVec w) (block : List UInt8) : BitVec w :=
  (Register.msbFirst poly).steps s (block.flatMap byteBits)

/-- The CRC of a block of memory, least significant bit first. -/
def crcLsb {w : Nat} (poly s : BitVec w) (block : List UInt8) : BitVec w :=
  (Register.lsbFirst poly).steps s (block.flatMap byteBitsLsb)

namespace Register

variable {w : Nat} {poly : BitVec w}

theorem byteBits_xor (b c : UInt8) :
    List.zipWith (· ^^ ·) (byteBits b) (byteBits c) = byteBits (b ^^^ c) := by
  simp [byteBits]

theorem byteBitsLsb_xor (b c : UInt8) :
    List.zipWith (· ^^ ·) (byteBitsLsb b) (byteBitsLsb c) = byteBitsLsb (b ^^^ c) := by
  simp [byteBitsLsb]

/-- The byte that leaves the register first. -/
def topByte (s : BitVec w) : UInt8 := UInt8.ofBitVec (s.extractLsb' (w - 8) 8)

def lowByte (s : BitVec w) : UInt8 := UInt8.ofBitVec (s.extractLsb' 0 8)

theorem outs_msbFirst (hw : 8 ≤ w) (s : BitVec w) :
    (msbFirst poly).outs 8 s = byteBits (topByte s) := by
  have hout : ∀ i < 8, (s <<< i).msb = s.getLsbD (w - 8 + (7 - i)) := by
    intro i hi
    rw [BitVec.msb_eq_getLsbD_last, BitVec.getLsbD_shiftLeft,
      show w - 8 + (7 - i) = w - 1 - i by omega]
    simp [show w - 1 < w by omega, show ¬ w - 1 < i by omega]
  have hfirst : s.msb = s.getLsbD (w - 8 + 7) := by
    simpa using hout 0 (by omega)
  simp only [outs, msbFirst, ← BitVec.shiftLeft_add]
  simp [hfirst, hout, byteBits, topByte, BitVec.getLsbD_extractLsb']

theorem outs_lsbFirst (s : BitVec w) :
    (lsbFirst poly).outs 8 s = byteBitsLsb (lowByte s) := by
  simp only [outs, lsbFirst, ← BitVec.shiftRight_add]
  simp [byteBitsLsb, lowByte, BitVec.getLsbD_extractLsb']

/-- A byte at a time: the byte that leaves the register acts like a byte of the message. -/
theorem steps_byteBits (hw : 8 ≤ w) (s : BitVec w) (b : UInt8) :
    (msbFirst poly).steps s (byteBits b) =
      s <<< 8 ^^^ (msbFirst poly).steps 0#w (byteBits (topByte s ^^^ b)) := by
  have hlen : (byteBits b).length = 8 := rfl
  have hshift : (msbFirst poly).shift^[8] s = s <<< 8 := by
    simp only [Function.iterate_succ_apply, Function.iterate_zero, id, msbFirst,
      ← BitVec.shiftLeft_add]
  rw [steps_outs, hlen, hshift, outs_msbFirst hw, byteBits_xor, UInt8.xor_comm]

theorem steps_byteBitsLsb (s : BitVec w) (b : UInt8) :
    (lsbFirst poly).steps s (byteBitsLsb b) =
      s >>> 8 ^^^ (lsbFirst poly).steps 0#w (byteBitsLsb (lowByte s ^^^ b)) := by
  have hlen : (byteBitsLsb b).length = 8 := rfl
  have hshift : (lsbFirst poly).shift^[8] s = s >>> 8 := by
    simp only [Function.iterate_succ_apply, Function.iterate_zero, id, lsbFirst,
      ← BitVec.shiftRight_add]
  rw [steps_outs, hlen, hshift, outs_lsbFirst, byteBitsLsb_xor, UInt8.xor_comm]

end Register

section
variable {w : Nat} {poly : BitVec w}

@[simp] theorem crcMsb_nil (s : BitVec w) : crcMsb poly s [] = s := rfl

theorem crcMsb_cons (s : BitVec w) (b : UInt8) (block : List UInt8) :
    crcMsb poly s (b :: block) = crcMsb poly (crcMsb poly s [b]) block := by
  simp only [crcMsb, List.flatMap_cons, List.flatMap_nil, List.append_nil,
    Register.steps_append]

@[simp] theorem crcLsb_nil (s : BitVec w) : crcLsb poly s [] = s := rfl

theorem crcLsb_cons (s : BitVec w) (b : UInt8) (block : List UInt8) :
    crcLsb poly s (b :: block) = crcLsb poly (crcLsb poly s [b]) block := by
  simp only [crcLsb, List.flatMap_cons, List.flatMap_nil, List.append_nil,
    Register.steps_append]

theorem crcMsb_byte (hw : 8 ≤ w) (s : BitVec w) (b : UInt8) :
    crcMsb poly s [b] = s <<< 8 ^^^ crcMsb poly 0#w [Register.topByte s ^^^ b] := by
  simp only [crcMsb, List.flatMap_cons, List.flatMap_nil, List.append_nil]
  exact Register.steps_byteBits hw s b

theorem crcLsb_byte (s : BitVec w) (b : UInt8) :
    crcLsb poly s [b] = s >>> 8 ^^^ crcLsb poly 0#w [Register.lowByte s ^^^ b] := by
  simp only [crcLsb, List.flatMap_cons, List.flatMap_nil, List.append_nil]
  exact Register.steps_byteBitsLsb s b

/-- The bytes of a register, the most significant one first. -/
def msbBytes : Nat → BitVec w → List UInt8
  | 0, _ => []
  | n + 1, s => Register.topByte s :: msbBytes n (s <<< 8)

/-- The bytes of a register, the least significant one first. -/
def lsbBytes : Nat → BitVec w → List UInt8
  | 0, _ => []
  | n + 1, s => Register.lowByte s :: lsbBytes n (s >>> 8)

theorem crcMsb_zeros : crcMsb poly 0#w [0] = 0#w := Register.steps_zeros _ 8

theorem crcLsb_zeros : crcLsb poly 0#w [0] = 0#w := Register.steps_zeros _ 8

/-- The bytes of the register as the next bytes of the message: they shift it out. -/
theorem crcMsb_own (hw : 8 ≤ w) (n : Nat) (s : BitVec w) :
    crcMsb poly s (msbBytes n s) = s <<< (8 * n) := by
  induction n generalizing s with
  | zero => simp [msbBytes]
  | succ n ih =>
      rw [msbBytes, crcMsb_cons, crcMsb_byte hw, UInt8.xor_self, crcMsb_zeros, BitVec.xor_zero, ih,
        ← BitVec.shiftLeft_add, Nat.mul_succ, Nat.add_comm]

theorem crcLsb_own (n : Nat) (s : BitVec w) :
    crcLsb poly s (lsbBytes n s) = s >>> (8 * n) := by
  induction n generalizing s with
  | zero => simp [lsbBytes]
  | succ n ih =>
      rw [lsbBytes, crcLsb_cons, crcLsb_byte, UInt8.xor_self, crcLsb_zeros, BitVec.xor_zero, ih,
        ← BitVec.shiftRight_add, Nat.mul_succ, Nat.add_comm]

/-- A CRC that is right for one byte is right for a block. -/
theorem foldl_eq_crcMsb {α : Type} {update : α → UInt8 → α} {word : α → BitVec w}
    (h : ∀ s b, word (update s b) = crcMsb poly (word s) [b]) (s : α) (block : List UInt8) :
    word (block.foldl update s) = crcMsb poly (word s) block := by
  induction block generalizing s with
  | nil => rfl
  | cons b block ih => rw [List.foldl_cons, ih, h, ← crcMsb_cons]

theorem foldl_eq_crcLsb {α : Type} {update : α → UInt8 → α} {word : α → BitVec w}
    (h : ∀ s b, word (update s b) = crcLsb poly (word s) [b]) (s : α) (block : List UInt8) :
    word (block.foldl update s) = crcLsb poly (word s) block := by
  induction block generalizing s with
  | nil => rfl
  | cons b block ih => rw [List.foldl_cons, ih, h, ← crcLsb_cons]

/-- Registers that differ are not made equal by a message. -/
theorem crcMsb_inj (hpoly : poly.getLsbD 0 = true) {s t : BitVec w} {block : List UInt8}
    (h : crcMsb poly s block = crcMsb poly t block) : s = t := by
  have hdiff : t = s ^^^ (s ^^^ t) := by
    rw [← BitVec.xor_assoc, BitVec.xor_self, BitVec.zero_xor]
  by_contra hne
  refine Register.steps_ne_zero hpoly (s := s ^^^ t) ?_ (block.flatMap byteBits).length ?_
  · intro hzero
    rw [hzero, BitVec.xor_zero] at hdiff
    exact hne hdiff.symm
  · rw [crcMsb, crcMsb, hdiff, Register.steps_add] at h
    have hcancel := congrArg (crcMsb poly s block ^^^ ·) h
    simp only [crcMsb, ← BitVec.xor_assoc, BitVec.xor_self, BitVec.zero_xor] at hcancel
    exact hcancel.symm

/-! ## Burst errors -/

/-- A non-zero error pattern confined to `n` consecutive bits. -/
def Burst (n : Nat) (errors : List UInt8) : Prop :=
  ∃ before burst after, errors.flatMap byteBits =
      List.replicate before false ++ (burst ++ List.replicate after false) ∧
    burst.length ≤ n ∧ true ∈ burst

/-- A block of memory with errors in it. -/
def damaged (block errors : List UInt8) : List UInt8 := List.zipWith (· ^^^ ·) block errors

theorem damaged_length {block errors : List UInt8} (h : errors.length = block.length) :
    (damaged block errors).length = block.length := by
  simp [damaged, h]

theorem flatMap_byteBits_damaged (block errors : List UInt8) :
    (damaged block errors).flatMap byteBits =
      List.zipWith (· ^^ ·) (block.flatMap byteBits) (errors.flatMap byteBits) := by
  induction block generalizing errors with
  | nil => rfl
  | cons b block ih =>
      cases errors with
      | nil => simp [damaged]
      | cons e errors =>
          have hlen : (byteBits b).length = (byteBits e).length := rfl
          have hrest := ih errors
          rw [damaged] at hrest ⊢
          rw [List.zipWith_cons_cons, List.flatMap_cons, List.flatMap_cons, List.flatMap_cons,
            hrest, List.zipWith_append hlen, Register.byteBits_xor]

theorem flatMap_byteBits_length (block : List UInt8) :
    (block.flatMap byteBits).length = 8 * block.length := by
  induction block with
  | nil => rfl
  | cons b block ih =>
      rw [List.flatMap_cons, List.length_append, ih, List.length_cons, Nat.mul_succ, Nat.add_comm]
      rfl

/-- A block with a burst of errors that is not longer than the register has another CRC. -/
theorem crcMsb_burst (hpoly : poly.getLsbD 0 = true) (s : BitVec w) {block errors : List UInt8}
    (hlen : errors.length = block.length) (hburst : Burst w errors) :
    crcMsb poly s (damaged block errors) ≠ crcMsb poly s block := by
  obtain ⟨before, burst, after, hbits, hshort, htrue⟩ := hburst
  have hmark := Register.steps_burst_ne_zero hpoly before after hshort htrue
  have hsame : (block.flatMap byteBits).length = (errors.flatMap byteBits).length := by
    rw [flatMap_byteBits_length, flatMap_byteBits_length, hlen]
  intro heq
  rw [crcMsb, flatMap_byteBits_damaged, Register.steps_damaged _ s hsame, hbits] at heq
  have hcancel := congrArg (crcMsb poly s block ^^^ ·) heq
  dsimp only [crcMsb] at hcancel
  rw [← BitVec.xor_assoc, BitVec.xor_self, BitVec.zero_xor] at hcancel
  exact hmark hcancel

end

end LibnklabsPico.Foundation
