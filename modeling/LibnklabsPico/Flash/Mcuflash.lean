/-
  Flash/Mcuflash.lean --- checked files on the flash memory of the Pico.

  The functions of `nkarch_pico.c` do what a NOR memory does as long as sectors are
  erased whole and nothing is written past the end of memory.  The functions for checked
  files keep to this, whatever the answers are.
-/
import LibnklabsPico.Flash.CheckedFile
import LibnklabsPico.Flash.NkarchPico

set_option autoImplicit false

namespace LibnklabsPico.Flash

open LibnklabsPico.Foundation

/-- `FLASH_SECTOR_SIZE` -/
def flashSectorSize : Nat := 2 ^ 12

/-- `NK_MCUFLASH_ERASE_SIZE` -/
def nkMcuflashEraseSize : Nat := 4096

/-- `nk_mcuflash_erase`; `flash_range_erase` sets all bits. -/
def nkMcuflashErase (flash : Memory) (address byteCount : Nat) : Int × Memory :=
  if address &&& (flashSectorSize - 1) ≠ 0 then (-1, flash)
  else if byteCount &&& (flashSectorSize - 1) ≠ 0 then (-1, flash)
  else (0, flash.erase address byteCount)

/-- The flash memory of the Pico.  What its functions find in their stack buffers is
given by `xfer`. -/
def mcuflash (xfer : FlashCmd → Memory → Memory) : Handler FlashCmd (fun _ => Int) Memory
  | .erase addr size, flash => some (nkMcuflashErase flash addr size)
  | .write addr data, flash => nkMcuflashWrite addr data (xfer (.write addr data) flash) flash

/-- A call that erases whole sectors, or writes inside the memory. -/
def FlashCmd.Aligned (sector : Nat) : FlashCmd → Prop
  | .erase addr size => sector ∣ addr ∧ sector ∣ size
  | .write addr data => addr + data.length ≤ 2 ^ 32

theorem mcuflash_eq_nor (xfer : FlashCmd → Memory → Memory) (c : FlashCmd) (flash : Memory)
    (aligned : c.Aligned flashSectorSize) : mcuflash xfer c flash = nor c flash := by
  cases c with
  | erase addr size =>
      have hmask : ∀ n, flashSectorSize ∣ n → ¬ n &&& (flashSectorSize - 1) ≠ 0 := by
        intro n hn hne
        rw [flashSectorSize, Nat.and_two_pow_sub_one_eq_mod] at hne
        exact hne (Nat.mod_eq_zero_of_dvd hn)
      simp only [mcuflash, nkMcuflashErase]
      rw [if_neg (hmask addr aligned.1), if_neg (hmask size aligned.2)]
      rfl
  | write addr data => exact nkMcuflashWrite_eq _ flash fun _ => aligned

/-- A memory that does what a NOR memory does, as long as whole sectors are erased and
nothing is written past its end. -/
def NorLike (h : Handler FlashCmd (fun _ => Int) Memory) : Prop :=
  ∀ c flash, FlashCmd.Aligned flashSectorSize c → h c flash = nor c flash

theorem mcuflash_norLike (xfer : FlashCmd → Memory → Memory) : NorLike (mcuflash xfer) :=
  mcuflash_eq_nor xfer

/-- No call fails then. -/
theorem NorLike.succeeding {h : Handler FlashCmd (fun _ => Int) Memory} (norLike : NorLike h) :
    NorLike (succeeding h) := by
  intro c flash aligned
  rw [Flash.succeeding, norLike c flash aligned]
  rfl

/-! ## The page loop -/

theorem eraseBlock_aligned {k : Nat} (hk : k < 32) (hasErase : Bool) (address : Nat)
    {post : Int → Prop} (hpost : ∀ r, post r) :
    (eraseBlock (2 ^ k) hasErase address).Ensures (FlashCmd.Aligned (2 ^ k)) post := by
  unfold eraseBlock
  split
  · rename_i hfirst
    rw [Bool.and_eq_true, beq_iff_eq, and_mask hk] at hfirst
    exact ⟨⟨Nat.dvd_of_mod_eq_zero hfirst.2, Nat.dvd_refl _⟩, hpost⟩
  · exact hpost 0

/-- What stays in its page stays in the memory. -/
theorem page_in_memory {k address len : Nat} (hk : k < 32) (haddress : address < 2 ^ 32)
    (hinside : address % 2 ^ k + len ≤ 2 ^ k) : address + len ≤ 2 ^ 32 := by
  obtain ⟨m, hm⟩ : 2 ^ k ∣ 2 ^ 32 := Nat.pow_dvd_pow 2 (Nat.le_of_lt hk)
  have hdiv := Nat.div_add_mod address (2 ^ k)
  have hlt : address / 2 ^ k < m := by
    refine Nat.lt_of_mul_lt_mul_left (a := 2 ^ k) ?_
    rw [← hm]
    omega
  have hnext := Nat.mul_le_mul_left (2 ^ k) (Nat.succ_le_of_lt hlt)
  rw [← hm, Nat.mul_succ] at hnext
  omega

theorem writePages_aligned {k : Nat} (hk : k < 32) (hasErase : Bool) (fuel : Nat) {address : Nat}
    (haddress : address < 2 ^ 32) (buffer : List UInt8) :
    (writePages (2 ^ k) hasErase fuel address buffer).Ensures (FlashCmd.Aligned (2 ^ k))
      fun _ => True := by
  induction fuel generalizing address buffer with
  | zero => exact trivial
  | succ fuel ih =>
      unfold writePages
      split
      · exact trivial
      · have hinside := pieceLen_inside address buffer.length (Nat.two_pow_pos k)
        have hlen := pieceLen_le (2 ^ k) address buffer.length
        have hpage : address + (buffer.take (pieceLen (2 ^ k) address buffer.length)).length ≤
            2 ^ 32 := by
          rw [List.length_take_of_le hlen]
          exact page_in_memory hk haddress hinside
        dsimp only
        rw [pass_length hk, Prog.ensures_bind]
        refine eraseBlock_aligned hk hasErase address fun rtn => ?_
        split
        · exact trivial
        · rw [Prog.ensures_bind, ensures_flashWrite]
          refine ⟨hpage, fun rtn => ?_⟩
          split
          · exact trivial
          · exact ih (u32_lt _) _

/-! ## Checked files -/

section
variable {file : NkCheckedBase}

theorem nkCheckedWriteOpen_aligned (area : file.Sectored) :
    (nkCheckedWriteOpen file).Ensures (FlashCmd.Aligned file.eraseSize)
      fun result => result.2.file = file := by
  unfold nkCheckedWriteOpen
  dsimp only
  rw [if_pos area.has_erase]
  exact ⟨⟨area.base_dvd, Nat.dvd_refl _⟩, fun _ => rfl⟩

theorem nkCheckedWrite_aligned (area : file.Sectored) {varFile : NkChecked}
    (hfile : varFile.file = file) (buffer : List UInt8) :
    (nkCheckedWrite varFile buffer).Ensures (FlashCmd.Aligned file.eraseSize)
      fun result => result.2.file = file := by
  obtain ⟨k, -, hk, hpow⟩ := area.erase_pow
  unfold nkCheckedWrite
  dsimp only
  rw [Prog.ensures_bind, hfile, hpow]
  exact (writePages_aligned hk _ _ (u32_lt _) buffer).mono fun _ _ => rfl

theorem nkCheckedWriteClose_aligned (area : file.Sectored) {varFile : NkChecked}
    (hfile : varFile.file = file) :
    (nkCheckedWriteClose varFile).Ensures (FlashCmd.Aligned file.eraseSize) fun _ => True := by
  have hin := area.in_memory
  have hheader := area.header_fits
  refine ⟨?_, fun _ => trivial⟩
  simp only [FlashCmd.Aligned, nkCheckedHeader_length, hfile]
  omega

end

end LibnklabsPico.Flash
