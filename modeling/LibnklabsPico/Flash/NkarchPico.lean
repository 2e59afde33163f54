/-
  Flash/NkarchPico.lean --- the flash access functions of `nkarch_pico.c`.

  The content of the flash is a memory, `flash_range_program` and-s a whole page
  into it.  Stack buffers hold whatever was there before: the functions take
  their content as an argument.  A function that would store past the end of its
  buffer has the result `none`, and so has a loop that does not end.
-/
import LibnklabsPico.Flash.Pages

set_option autoImplicit false

namespace LibnklabsPico.Flash

open LibnklabsPico.Foundation

/-- `FLASH_PAGE_SIZE` -/
def flashPageSize : Nat := 2 ^ 8

/-- `nk_mcuflash_read` -/
def nkMcuflashRead (flash : Memory) (address byteCount : Nat) : Int × List UInt8 :=
  (0, flash.read address byteCount)

/-- `flash_range_program` -/
def flashRangeProgram (flash : Memory) (flashOffs : Nat) (data : List UInt8) : Memory :=
  flash.program flashOffs data

/-- The loop of `nk_mcuflash_write`: write up to a page at a time. -/
def nkMcuflashWriteLoop : Nat → Nat → List UInt8 → Memory → Memory → Option (Int × Memory)
  | 0, _, _, _, _ => none
  | fuel + 1, address, data, xfer, flash =>
      if data.length = 0 then some (0, flash)
      else
        -- Starting offset within page
        let pageOffset := address &&& wrap 32 ((flashPageSize : Int) - 1)
        -- Up to one page
        let pageLen := wrap 32 ((flashPageSize : Int) - pageOffset)
        let pageAddr := wrap 32 ((address : Int) - pageOffset)
        let pageLen := if data.length < pageLen then data.length else pageLen
        -- So we have to do a RMW to write less than FLASH_PAGE_SIZE
        let xfer :=
          if pageLen ≠ flashPageSize then
            xfer.store 0 (nkMcuflashRead flash pageAddr flashPageSize).2
          else xfer
        if pageOffset + pageLen ≤ flashPageSize then
          -- Modify it
          let xfer := xfer.store pageOffset (data.take pageLen)
          -- Write page
          let flash := flashRangeProgram flash pageAddr (xfer.read 0 flashPageSize)
          nkMcuflashWriteLoop fuel (u32 (address + pageLen)) (data.drop pageLen) xfer flash
        else none

/-- `nk_mcuflash_write`, with the content that `xfer` happens to have. -/
def nkMcuflashWrite (address : Nat) (data : List UInt8) (xfer flash : Memory) :
    Option (Int × Memory) :=
  nkMcuflashWriteLoop (data.length + 1) address data xfer flash

/-- Consecutive calls of `nk_mcuflash_write` for the parts of some data, each with
the content of its own `xfer`. -/
def nkMcuflashWrites (address : Nat) : List (Memory × List UInt8) → Memory → Option Memory
  | [], flash => some flash
  | (xfer, data) :: parts, flash => do
      let (_, flash) ← nkMcuflashWrite address data xfer flash
      nkMcuflashWrites (u32 (address + data.length)) parts flash

/-! ## One pass -/

theorem program_eq_combine (flash : Memory) (address : Nat) (data : List UInt8) :
    flash.program address data = flash.combine (fun old new => old &&& new) address data :=
  rfl

/-- Programming a page that agrees with the flash outside a piece programs that
piece. -/
theorem program_page (flash xfer : Memory) {size page off : Nat} {piece : List UInt8}
    (hin : off + piece.length ≤ size)
    (hkept : ∀ i < size, i < off ∨ off + piece.length ≤ i → xfer i = flash (page + i)) :
    flash.program page ((xfer.store off piece).read 0 size) =
      flash.program (page + off) piece := by
  funext a
  rw [program_eq_combine, program_eq_combine]
  have hlength : ((xfer.store off piece).read 0 size).length = size := Memory.read_length ..
  by_cases hpage : page ≤ a ∧ a < page + size
  · obtain ⟨i, rfl⟩ := Nat.exists_eq_add_of_le hpage.1
    have hi : i < size := by omega
    have hin' : i < ((xfer.store off piece).read 0 size).length := by rwa [hlength]
    have hget : ((xfer.store off piece).read 0 size)[i] = xfer.store off piece i := by
      simp [Memory.read]
    rw [Memory.combine_inside _ hin', hget]
    by_cases hpiece : off ≤ i ∧ i < off + piece.length
    · obtain ⟨j, rfl⟩ := Nat.exists_eq_add_of_le hpiece.1
      have hj : j < piece.length := by omega
      rw [Memory.store_inside _ hj, ← Nat.add_assoc, Memory.combine_inside _ hj]
    · rw [Memory.store_outside (by omega), Memory.combine_outside (by omega),
        hkept i hi (by omega), UInt8.and_self]
  · rw [Memory.combine_outside (by omega), Memory.combine_outside (by omega)]

/-- One pass of the loop programs the first piece of the data. -/
theorem nkMcuflashWriteLoop_pass (fuel address : Nat) {data : List UInt8} (xfer flash : Memory)
    (hdata : data.length ≠ 0) (haddress : address < 2 ^ 32) :
    ∃ xfer', nkMcuflashWriteLoop (fuel + 1) address data xfer flash =
      nkMcuflashWriteLoop fuel (u32 (address + pieceLen flashPageSize address data.length))
        (data.drop (pieceLen flashPageSize address data.length)) xfer'
        (flash.program address
          (data.take (pieceLen flashPageSize address data.length))) := by
  have hroom := pass_length (k := 8) (by decide) address data.length
  have hinside := pieceLen_inside address data.length (Nat.two_pow_pos 8)
  have hmod := Nat.mod_le address (2 ^ 8)
  have hpage : wrap 32 ((address : Int) - (address % 2 ^ 8 : Nat)) =
      address - address % 2 ^ 8 := wrap_sub hmod haddress
  rw [nkMcuflashWriteLoop, if_neg hdata]
  rw [pageRoom, and_mask (by decide)] at hroom
  simp only [flashPageSize, and_mask (show 8 < 32 by decide), hroom, hpage, if_pos hinside]
  refine ⟨_, congrArg _ ?_⟩
  have hlength : (data.take (pieceLen (2 ^ 8) address data.length)).length =
      pieceLen (2 ^ 8) address data.length := by
    rw [List.length_take, Nat.min_eq_left (pieceLen_le ..)]
  rw [flashRangeProgram, program_page _ _ (by rw [hlength]; exact hinside),
    Nat.sub_add_cancel hmod]
  intro i hi hkept
  rw [hlength] at hkept
  have hpartial : pieceLen (2 ^ 8) address data.length ≠ 2 ^ 8 := by omega
  have hin : i < (flash.read (address - address % 2 ^ 8) (2 ^ 8)).length := by
    rwa [Memory.read_length]
  have hread : xfer.store 0 (flash.read (address - address % 2 ^ 8) (2 ^ 8)) (0 + i) =
      (flash.read (address - address % 2 ^ 8) (2 ^ 8))[i] :=
    Memory.store_inside xfer hin
  rw [Nat.zero_add] at hread
  rw [if_pos hpartial, nkMcuflashRead, hread]
  simp [Memory.read]

/-! ## The whole write -/

theorem nkMcuflashWriteLoop_eq {fuel address : Nat} {data : List UInt8} (xfer flash : Memory)
    (hfuel : data.length < fuel) (hin : data.length ≠ 0 → address + data.length ≤ 2 ^ 32) :
    nkMcuflashWriteLoop fuel address data xfer flash =
      some (0, flash.program address data) := by
  induction fuel generalizing address data xfer flash with
  | zero => exact absurd hfuel (Nat.not_lt_zero _)
  | succ fuel ih =>
      by_cases hdata : data.length = 0
      · rw [nkMcuflashWriteLoop, if_pos hdata, List.length_eq_zero_iff.mp hdata,
          program_eq_combine, Memory.combine_nil]
      · have hrange := hin hdata
        have hpos := pieceLen_pos address (Nat.two_pow_pos 8) hdata
        have hle := pieceLen_le (2 ^ 8) address data.length
        obtain ⟨xfer', hpass⟩ := nkMcuflashWriteLoop_pass fuel address xfer flash hdata
          (by omega)
        rw [flashPageSize] at hpass
        rw [hpass, ih, program_eq_combine, program_eq_combine, program_eq_combine]
        · by_cases hmore : pieceLen (2 ^ 8) address data.length = data.length
          · rw [hmore, List.drop_length, List.take_length, Memory.combine_nil]
          · rw [u32_next hrange (by omega), Memory.combine_take_drop _ _ hle]
        · rw [List.length_drop]
          omega
        · intro hmore
          rw [List.length_drop] at hmore ⊢
          rw [u32_next hrange (by omega)]
          omega

/-- `nk_mcuflash_write` clears exactly the bits of the range that are clear in the
data, whatever its stack buffer held before. -/
theorem nkMcuflashWrite_eq {address : Nat} {data : List UInt8} (xfer flash : Memory)
    (hin : data.length ≠ 0 → address + data.length ≤ 2 ^ 32) :
    nkMcuflashWrite address data xfer flash = some (0, flash.program address data) :=
  nkMcuflashWriteLoop_eq xfer flash (Nat.lt_succ_self _) hin

/-- Consecutive calls write what one call does. -/
theorem nkMcuflashWrites_eq {address : Nat} {parts : List (Memory × List UInt8)}
    (flash : Memory)
    (hin : ((parts.map Prod.snd).flatten).length ≠ 0 →
      address + ((parts.map Prod.snd).flatten).length ≤ 2 ^ 32) :
    nkMcuflashWrites address parts flash =
      some (flash.program address (parts.map Prod.snd).flatten) := by
  induction parts generalizing address flash with
  | nil =>
      rw [nkMcuflashWrites, program_eq_combine]
      simp
  | cons part parts ih =>
      obtain ⟨xfer, data⟩ := part
      rw [List.map_cons, List.flatten_cons, List.length_append] at hin
      dsimp only at hin
      have hfirst : nkMcuflashWrite address data xfer flash =
          some (0, flash.program address data) := nkMcuflashWrite_eq xfer flash (by omega)
      rw [nkMcuflashWrites, hfirst]
      change nkMcuflashWrites (u32 (address + data.length)) parts
        (flash.program address data) = _
      rw [List.map_cons, List.flatten_cons, ih]
      · by_cases hrest : ((parts.map Prod.snd).flatten).length = 0
        · rw [List.length_eq_zero_iff.mp hrest, List.append_nil, program_eq_combine,
            Memory.combine_nil]
        · have hnext : u32 (address + data.length) = address + data.length :=
            Nat.mod_eq_of_lt (by omega)
          rw [hnext, program_eq_combine, program_eq_combine, Memory.combine_append,
            ← program_eq_combine]
      · intro hrest
        have hnext : u32 (address + data.length) = address + data.length :=
          Nat.mod_eq_of_lt (by omega)
        omega

/-- Byte-granular writing: after `nk_mcuflash_write` every byte outside the range
is unchanged, every byte inside is and-ed with its data and so equals it where the
flash was erased, and any split of the data into consecutive calls ends with the
same flash. -/
theorem nkMcuflashWrite_bytes {address : Nat} {data : List UInt8} (xfer flash : Memory)
    (hin : address + data.length ≤ 2 ^ 32) :
    ∃ flash', nkMcuflashWrite address data xfer flash = some (0, flash') ∧
      (∀ a, a < address ∨ address + data.length ≤ a → flash' a = flash a) ∧
      (∀ i, (hi : i < data.length) →
        flash' (address + i) = flash (address + i) &&& data[i] ∧
        (flash (address + i) = 0xFF → flash' (address + i) = data[i])) ∧
      ∀ parts : List (Memory × List UInt8), (parts.map Prod.snd).flatten = data →
        nkMcuflashWrites address parts flash = some flash' := by
  refine ⟨_, nkMcuflashWrite_eq xfer flash fun _ => hin, ?_, ?_, ?_⟩
  · intro a ha
    rw [program_eq_combine, Memory.combine_outside ha]
  · intro i hi
    rw [program_eq_combine, Memory.combine_inside _ hi]
    refine ⟨rfl, fun herased => ?_⟩
    rw [herased]
    exact UInt8.neg_one_and
  · rintro parts rfl
    exact nkMcuflashWrites_eq flash fun _ => hin

/-- Two bytes across a page boundary of erased flash. -/
theorem nkMcuflashWrite_bytes_two :
    ∃ flash', nkMcuflashWrite 255 [1, 2] (fun _ => 7) (fun _ => 0xFF) = some (0, flash') ∧
      flash' 254 = 0xFF ∧ flash' 255 = 1 ∧ flash' 256 = 2 ∧ flash' 257 = 0xFF := by
  obtain ⟨flash', hwrite, hout, hin, -⟩ :=
    nkMcuflashWrite_bytes (fun _ => 7) (fun _ => 0xFF)
      (show 255 + [(1 : UInt8), 2].length ≤ 2 ^ 32 by decide)
  exact ⟨flash', hwrite, hout 254 (by decide), (hin 0 (by decide)).2 rfl,
    (hin 1 (by decide)).2 rfl, hout 257 (by decide)⟩

end LibnklabsPico.Flash
