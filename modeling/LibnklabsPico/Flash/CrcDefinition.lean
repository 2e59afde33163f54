/-
  Flash/CrcDefinition.lean --- the CRCs are the ones of their polynomials.

  Each routine handles a byte at a time, by a table or a formula.  Both are functions of
  one byte (`crcMsb_byte`, `crcLsb_byte`), so they are checked for the 256 bytes there
  are.
-/
import LibnklabsPico.Foundation.Crc
import LibnklabsPico.Flash.Nkcrclib
import Mathlib.Algebra.Group.Nat.Defs

set_option autoImplicit false

namespace LibnklabsPico.Flash

open LibnklabsPico.Foundation
open LibnklabsPico.Foundation.Register

/-! ## One byte -/

/-- What holds of the 256 bytes holds of every byte. -/
theorem forall_byte {P : UInt8 → Prop} (h : ∀ i : Fin 256, P (UInt8.ofNat i)) (b : UInt8) :
    P b := by
  have hb := h ⟨b.toNat, b.toNat_lt⟩
  rwa [UInt8.ofNat_toNat] at hb

theorem crctabBe_eq (b : UInt8) :
    (crctabBe.getD b.toNat 0).toBitVec = crcMsb 0x04C11DB7#32 0#32 [b] :=
  forall_byte (P := fun b => (crctabBe.getD b.toNat 0).toBitVec = crcMsb 0x04C11DB7#32 0#32 [b])
    (by decide +kernel) b

theorem crctabLe_eq (b : UInt8) :
    (crctabLe.getD b.toNat 0).toBitVec = crcLsb 0xEDB88320#32 0#32 [b] :=
  forall_byte (P := fun b => (crctabLe.getD b.toNat 0).toBitVec = crcLsb 0xEDB88320#32 0#32 [b])
    (by decide +kernel) b

theorem nkCrc16beUpdate_zero (b : UInt8) :
    (nkCrc16beUpdate 0 b).toBitVec = crcMsb 0x1021#16 0#16 [b] :=
  forall_byte (P := fun b => (nkCrc16beUpdate 0 b).toBitVec = crcMsb 0x1021#16 0#16 [b])
    (by decide +kernel) b

theorem nkCrc16leUpdate_zero (b : UInt8) :
    (nkCrc16leUpdate 0 b).toBitVec = crcLsb 0x8408#16 0#16 [b] :=
  forall_byte (P := fun b => (nkCrc16leUpdate 0 b).toBitVec = crcLsb 0x8408#16 0#16 [b])
    (by decide +kernel) b

theorem nkCrc8Update_zero (b : UInt8) :
    (nkCrc8Update 0 b).toBitVec = crcMsb 0x07#8 0#8 [b] :=
  forall_byte (P := fun b => (nkCrc8Update 0 b).toBitVec = crcMsb 0x07#8 0#8 [b])
    (by decide +kernel) b

/-! ## Any register -/

theorem getLsbD_mask {n w : Nat} (h : n ≤ w) (i : Nat) :
    (BitVec.ofNat w (2 ^ n - 1)).getLsbD i = decide (i < n) := by
  rw [BitVec.getLsbD_ofNat, Nat.testBit_two_pow_sub_one]
  by_cases hi : i < n
  · simp [hi]
    omega
  · simp [hi]

theorem index_be (accu : UInt32) (b : UInt8) :
    (accu >>> 24) ^^^ b.toUInt32 = (topByte accu.toBitVec ^^^ b).toUInt32 := by
  refine UInt32.toBitVec_inj.mp (BitVec.eq_of_getLsbD_eq fun i hi => ?_)
  by_cases h8 : i < 8
  · simp [topByte, h8, hi]
  · simp [topByte, h8, hi, BitVec.getLsbD_of_ge accu.toBitVec (24 + i) (by omega)]

theorem index_le (accu : UInt32) (b : UInt8) :
    (accu ^^^ b.toUInt32) &&& 0xFF = (lowByte accu.toBitVec ^^^ b).toUInt32 := by
  have hmask : (255#32).getLsbD = fun i => decide (i < 8) :=
    funext (getLsbD_mask (by decide : 8 ≤ 32))
  refine UInt32.toBitVec_inj.mp (BitVec.eq_of_getLsbD_eq fun i hi => ?_)
  by_cases h8 : i < 8
  · have hbit : (255#32)[i] = true := by simp [← BitVec.getLsbD_eq_getElem, hmask, h8]
    simp [lowByte, h8, hi, hbit]
  · have hbit : (255#32)[i] = false := by simp [← BitVec.getLsbD_eq_getElem, hmask, h8]
    simp [lowByte, h8, hi, hbit, BitVec.getLsbD_of_ge b.toBitVec i (by omega)]

theorem shift_le (accu : UInt32) : (accu >>> 8) &&& (0x00FFFFFF : UInt32) = accu >>> 8 := by
  have hmask : (16777215#32).getLsbD = fun i => decide (i < 24) :=
    funext (getLsbD_mask (by decide : 24 ≤ 32))
  refine UInt32.toBitVec_inj.mp (BitVec.eq_of_getLsbD_eq fun i hi => ?_)
  by_cases h24 : i < 24
  · simp [hmask, h24]
  · simp [BitVec.getLsbD_of_ge accu.toBitVec (8 + i) (by omega)]

theorem nkCrc32beUpdate_eq (accu : UInt32) (b : UInt8) :
    (nkCrc32beUpdate accu b).toBitVec = crcMsb 0x04C11DB7#32 accu.toBitVec [b] := by
  rw [nkCrc32beUpdate, index_be, UInt8.toNat_toUInt32, crcMsb_byte (by decide), ← crctabBe_eq]
  rfl

theorem nkCrc32leUpdate_eq (accu : UInt32) (b : UInt8) :
    (nkCrc32leUpdate accu b).toBitVec = crcLsb 0xEDB88320#32 accu.toBitVec [b] := by
  rw [nkCrc32leUpdate, index_le, shift_le, UInt8.toNat_toUInt32, crcLsb_byte, ← crctabLe_eq]
  rfl

theorem nkCrc16beUpdate_eq (crc : UInt16) (b : UInt8) :
    (nkCrc16beUpdate crc b).toBitVec = crcMsb 0x1021#16 crc.toBitVec [b] := by
  have hx : (crc >>> 8).toUInt8 = topByte crc.toBitVec := by
    refine UInt8.toBitVec_inj.mp (BitVec.eq_of_getLsbD_eq fun i hi => ?_)
    simp [topByte]
  have hzero : ((0 : UInt16) >>> 8).toUInt8 = 0 := rfl
  have hshift : (0 : UInt16) <<< 8 = 0 := rfl
  have hupdate : nkCrc16beUpdate crc b =
      (crc <<< 8) ^^^ nkCrc16beUpdate 0 (topByte crc.toBitVec ^^^ b) := by
    simp only [nkCrc16beUpdate, hx, hzero, hshift, UInt8.zero_xor, UInt16.zero_xor,
      UInt16.xor_assoc]
  rw [hupdate, crcMsb_byte (by decide), ← nkCrc16beUpdate_zero]
  rfl

theorem nkCrc16leUpdate_eq (crc : UInt16) (b : UInt8) :
    (nkCrc16leUpdate crc b).toBitVec = crcLsb 0x8408#16 crc.toBitVec [b] := by
  have hx : crc.toUInt8 = lowByte crc.toBitVec := by
    refine UInt8.toBitVec_inj.mp (BitVec.eq_of_getLsbD_eq fun i hi => ?_)
    simp [lowByte]
  have hzero : (0 : UInt16).toUInt8 = 0 := rfl
  have hshift : (0 : UInt16) >>> 8 = 0 := rfl
  have hupdate : nkCrc16leUpdate crc b =
      (crc >>> 8) ^^^ nkCrc16leUpdate 0 (lowByte crc.toBitVec ^^^ b) := by
    simp only [nkCrc16leUpdate, hx, hzero, hshift, UInt8.zero_xor, UInt16.zero_xor,
      UInt16.xor_assoc]
  rw [hupdate, crcLsb_byte, ← nkCrc16leUpdate_zero]
  rfl

theorem nkCrc8Update_eq (crc : UInt8) (b : UInt8) :
    (nkCrc8Update crc b).toBitVec = crcMsb 0x07#8 crc.toBitVec [b] := by
  have hx : topByte crc.toBitVec = crc := by
    refine UInt8.toBitVec_inj.mp (BitVec.eq_of_getLsbD_eq fun i hi => ?_)
    simp [topByte]
  have hupdate : nkCrc8Update crc b = nkCrc8Update 0 (topByte crc.toBitVec ^^^ b) := by
    simp only [nkCrc8Update, hx, UInt8.zero_xor]
  have hshift : crc.toBitVec <<< 8 = 0#8 := by
    refine BitVec.eq_of_getLsbD_eq fun i hi => ?_
    simp [hi]
  rw [hupdate, crcMsb_byte (by decide), ← nkCrc8Update_zero, hshift, BitVec.zero_xor]

/-! ## Messages -/

/-- A 32 bit CRC, MSByte first. -/
def crc32BytesBe (crc : UInt32) : List UInt8 :=
  [(crc >>> 24).toUInt8, (crc >>> 16).toUInt8, (crc >>> 8).toUInt8, crc.toUInt8]

/-- A 32 bit CRC, LSByte first. -/
def crc32BytesLe (crc : UInt32) : List UInt8 :=
  [crc.toUInt8, (crc >>> 8).toUInt8, (crc >>> 16).toUInt8, (crc >>> 24).toUInt8]

/-- A 16 bit CRC, most significant byte first. -/
def crc16BytesBe (crc : UInt16) : List UInt8 := [(crc >>> 8).toUInt8, crc.toUInt8]

/-- A 16 bit CRC, least significant byte first. -/
def crc16BytesLe (crc : UInt16) : List UInt8 := [crc.toUInt8, (crc >>> 8).toUInt8]

theorem byte_ext {x y : UInt8} (h : ∀ i < 8, x.toBitVec.getLsbD i = y.toBitVec.getLsbD i) :
    x = y :=
  UInt8.toBitVec_inj.mp (BitVec.eq_of_getLsbD_eq h)

/-- The byte that leaves the register first after `n` shifts. -/
theorem topByte_shiftLeft {w : Nat} (s : BitVec w) {n i : Nat} (hn : n + 8 ≤ w) (hi : i < 8) :
    (topByte (s <<< n)).toBitVec.getLsbD i = s.getLsbD (w - 8 - n + i) := by
  have hwidth : w - 8 + i < w := by omega
  have hshift : ¬ w - 8 + i < n := by omega
  have hindex : w - 8 + i - n = w - 8 - n + i := by omega
  simp only [topByte, BitVec.getLsbD_extractLsb', hi, BitVec.getLsbD_shiftLeft, hwidth, hshift,
    hindex, decide_true, decide_false, Bool.not_false, Bool.true_and]

theorem lowByte_shiftRight {w : Nat} (s : BitVec w) {n i : Nat} (hi : i < 8) :
    (lowByte (s >>> n)).toBitVec.getLsbD i = s.getLsbD (n + i) := by
  simp [lowByte, hi]

theorem crc32BytesBe_eq (crc : UInt32) : crc32BytesBe crc = msbBytes 4 crc.toBitVec := by
  have hbyte : ∀ n ≤ 24, topByte (crc.toBitVec <<< n) =
      (crc >>> UInt32.ofNat (24 - n)).toUInt8 := by
    intro n hn
    refine byte_ext fun i hi => ?_
    rw [topByte_shiftLeft _ (by omega) hi]
    simp [hi, show (24 - n) % 4294967296 % 32 = 24 - n by omega]
  have hfirst := hbyte 0 (by omega)
  rw [BitVec.shiftLeft_zero] at hfirst
  simp only [crc32BytesBe, msbBytes, ← BitVec.shiftLeft_add, hfirst, hbyte 8 (by omega),
    hbyte 16 (by omega), hbyte 24 (by omega)]
  rfl

theorem crc16BytesBe_eq (crc : UInt16) : crc16BytesBe crc = msbBytes 2 crc.toBitVec := by
  simp only [crc16BytesBe, msbBytes, List.cons.injEq, and_true]
  constructor
  · refine byte_ext fun i hi => ?_
    simp [topByte, hi]
  · refine byte_ext fun i hi => ?_
    rw [topByte_shiftLeft _ (by omega) hi]
    simp [hi]

theorem crc32BytesLe_eq (crc : UInt32) : crc32BytesLe crc = lsbBytes 4 crc.toBitVec := by
  simp only [crc32BytesLe, lsbBytes, ← BitVec.shiftRight_add, List.cons.injEq, and_true]
  refine ⟨?_, ?_, ?_, ?_⟩
  · refine byte_ext fun i hi => ?_
    simp [lowByte, hi]
  all_goals
    refine byte_ext fun i hi => ?_
    rw [lowByte_shiftRight _ hi]
    simp [hi]

theorem crc16BytesLe_eq (crc : UInt16) : crc16BytesLe crc = lsbBytes 2 crc.toBitVec := by
  simp only [crc16BytesLe, lsbBytes, List.cons.injEq, and_true]
  constructor
  · refine byte_ext fun i hi => ?_
    simp [lowByte, hi]
  · refine byte_ext fun i hi => ?_
    rw [lowByte_shiftRight _ hi]
    simp [hi]

/-- A block keeps CRCs apart. -/
theorem crc32be_inj {accu accu' : UInt32} {block : List UInt8} :
    block.foldl nkCrc32beUpdate accu = block.foldl nkCrc32beUpdate accu' ↔ accu = accu' := by
  constructor
  · intro h
    have hword := congrArg UInt32.toBitVec h
    rw [foldl_eq_crcMsb nkCrc32beUpdate_eq, foldl_eq_crcMsb nkCrc32beUpdate_eq] at hword
    exact UInt32.toBitVec_inj.mp (crcMsb_inj (by decide) hword)
  · rintro rfl
    rfl

theorem crc32be_own (accu : UInt32) : (crc32BytesBe accu).foldl nkCrc32beUpdate accu = 0 := by
  refine UInt32.toBitVec_inj.mp ?_
  rw [foldl_eq_crcMsb nkCrc32beUpdate_eq, crc32BytesBe_eq, crcMsb_own (by decide),
    BitVec.shiftLeft_eq_zero (by decide)]
  rfl

theorem crc16be_own (crc : UInt16) : (crc16BytesBe crc).foldl nkCrc16beUpdate crc = 0 := by
  refine UInt16.toBitVec_inj.mp ?_
  rw [foldl_eq_crcMsb nkCrc16beUpdate_eq, crc16BytesBe_eq, crcMsb_own (by decide),
    BitVec.shiftLeft_eq_zero (by decide)]
  rfl

theorem crc32le_own (accu : UInt32) : (crc32BytesLe accu).foldl nkCrc32leUpdate accu = 0 := by
  refine UInt32.toBitVec_inj.mp ?_
  rw [foldl_eq_crcLsb nkCrc32leUpdate_eq, crc32BytesLe_eq, crcLsb_own,
    BitVec.ushiftRight_eq_zero (by decide)]
  rfl

theorem crc16le_own (crc : UInt16) : (crc16BytesLe crc).foldl nkCrc16leUpdate crc = 0 := by
  refine UInt16.toBitVec_inj.mp ?_
  rw [foldl_eq_crcLsb nkCrc16leUpdate_eq, crc16BytesLe_eq, crcLsb_own,
    BitVec.ushiftRight_eq_zero (by decide)]
  rfl

/-- A CRC goes on behind a message from what the message left in the register. -/
theorem appended {α : Type} {update : α → UInt8 → α} {bytes : α → List UInt8} {zero : α}
    (hown : ∀ crc, (bytes crc).foldl update crc = zero) (crc : α) (block : List UInt8) :
    (block ++ bytes (block.foldl update crc)).foldl update crc = zero := by
  rw [List.foldl_append, hown]

/-- The routines compute the CRCs of their polynomials, of every block and from every
register, and a block that its CRC follows in the documented byte order has the CRC 0. -/
theorem crcs_ofPolynomial (block : List UInt8) :
    (∀ accu : UInt32, (block.foldl nkCrc32beUpdate accu).toBitVec =
      crcMsb 0x04C11DB7#32 accu.toBitVec block) ∧
    (∀ accu : UInt32, (block.foldl nkCrc32leUpdate accu).toBitVec =
      crcLsb 0xEDB88320#32 accu.toBitVec block) ∧
    (∀ crc : UInt16, (block.foldl nkCrc16beUpdate crc).toBitVec =
      crcMsb 0x1021#16 crc.toBitVec block) ∧
    (∀ crc : UInt16, (block.foldl nkCrc16leUpdate crc).toBitVec =
      crcLsb 0x8408#16 crc.toBitVec block) ∧
    (nkCrc8 block).toBitVec = crcMsb 0b00000111#8 0#8 block ∧
    (∀ accu : UInt32,
      (block ++ crc32BytesBe (block.foldl nkCrc32beUpdate accu)).foldl nkCrc32beUpdate accu = 0) ∧
    (∀ accu : UInt32,
      (block ++ crc32BytesLe (block.foldl nkCrc32leUpdate accu)).foldl nkCrc32leUpdate accu = 0) ∧
    (∀ crc : UInt16,
      (block ++ crc16BytesBe (block.foldl nkCrc16beUpdate crc)).foldl nkCrc16beUpdate crc = 0) ∧
    (∀ crc : UInt16,
      (block ++ crc16BytesLe (block.foldl nkCrc16leUpdate crc)).foldl nkCrc16leUpdate crc = 0) ∧
    nkCrc32beCheck (block ++ crc32BytesBe (nkCrc32beCheck block)) = 0 ∧
    nkCrc32leCheck (block ++ crc32BytesLe (nkCrc32leCheck block)) = 0 ∧
    nkCrc16beCheck (block ++ crc16BytesBe (nkCrc16beCheck block)) = 0 ∧
    nkCrc16leCheck (block ++ crc16BytesLe (nkCrc16leCheck block)) = 0 := by
  refine ⟨fun accu => foldl_eq_crcMsb nkCrc32beUpdate_eq accu block,
    fun accu => foldl_eq_crcLsb nkCrc32leUpdate_eq accu block,
    fun crc => foldl_eq_crcMsb nkCrc16beUpdate_eq crc block,
    fun crc => foldl_eq_crcLsb nkCrc16leUpdate_eq crc block,
    foldl_eq_crcMsb nkCrc8Update_eq 0 block,
    fun accu => appended crc32be_own accu block, fun accu => appended crc32le_own accu block,
    fun crc => appended crc16be_own crc block, fun crc => appended crc16le_own crc block,
    appended crc32be_own 0 block, appended crc32le_own 0 block,
    appended crc16be_own 0 block, appended crc16le_own 0 block⟩

end LibnklabsPico.Flash
