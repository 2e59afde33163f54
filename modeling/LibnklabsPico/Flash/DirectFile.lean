/-
  Flash/DirectFile.lean --- what is written to a direct file is in its area.

  `laid` is the memory after some data was written from the base of an area and the
  sectors below `top` were erased.  A pass of the page loop leads from one such memory to
  another; a sector is erased when the first byte of it is reached, so whatever the memory
  held before, and whatever the chunks are, the data is there and all other bytes of its
  sectors are erased.
-/
import LibnklabsPico.Flash.Containment
import LibnklabsPico.Flash.Mcuflash

set_option autoImplicit false

namespace LibnklabsPico.Flash

open LibnklabsPico.Foundation

/-- An area of whole sectors that are erased as they are reached. -/
structure NkDirectBase.Plain (file : NkDirectBase) : Prop where
  has_erase : file.hasErase = true
  area : Area file.areaBase file.areaSize file.eraseSize

/-- Memory `mem` with the sectors below `top` erased and then the data written. -/
def laid (file : NkDirectBase) (mem : Memory) (data : List UInt8) (top : Nat) : Memory := fun a =>
  if file.areaBase ≤ a ∧ a < file.areaBase + data.length then data.getD (a - file.areaBase) 0
  else if file.areaBase ≤ a ∧ a < top then 0xFF
  else mem a

/-- The end of the sectors that `n` bytes reach. -/
def reached (file : NkDirectBase) (n : Nat) : Nat := file.areaBase + roundUp n file.eraseSize

/-- The memory after the data was written. -/
def filled (file : NkDirectBase) (mem : Memory) (data : List UInt8) : Memory :=
  laid file mem data (reached file data.length)

section
variable {file : NkDirectBase} {mem : Memory} {data piece : List UInt8} {top : Nat}

/-- Erasing the next sector. -/
theorem laid_erase (size : Nat) (htop : file.areaBase + data.length ≤ top) :
    (laid file mem data top).erase top size = laid file mem data (top + size) := by
  funext a
  unfold Memory.erase laid
  split_ifs <;> first | rfl | omega

/-- Writing behind the data. -/
theorem laid_program (hfit : file.areaBase + data.length + piece.length ≤ top) :
    (laid file mem data top).program (file.areaBase + data.length) piece =
      laid file mem (data ++ piece) top := by
  funext a
  simp only [Memory.program, laid, getD_append, List.length_append]
  split_ifs <;> first
    | rfl
    | omega
    | (rw [ff_and]; congr 1; omega)

end

/-! ## The page loop -/

section
variable {file : NkDirectBase}

/-- The sectors that one more page reaches end with the sector of the page. -/
theorem reached_page (plain : file.Plain) {n k : Nat} (hpos : 0 < k)
    (hk : k ≤ file.eraseSize - n % file.eraseSize) :
    reached file (n + k) = file.areaBase + n + (file.eraseSize - n % file.eraseSize) := by
  have hround : roundUp (n + k) file.eraseSize = n + (file.eraseSize - n % file.eraseSize) :=
    roundUp_eq (dvd_add_sub_mod n plain.area.eraseSize_pos) (by omega) (by omega)
  rw [reached, hround, Nat.add_assoc]

/-- A sector is erased when the next byte is its first one. -/
theorem eraseBlock_laid (plain : file.Plain) (mem : Memory) (data : List UInt8)
    (hroom : data.length < file.areaSize) :
    (eraseBlock file.eraseSize file.hasErase (u32 (file.areaBase + data.length))).run nor
        (filled file mem data) =
      some (0, laid file mem data (reached file (data.length + 1))) := by
  have hsize := plain.area.eraseSize_pos
  have hmod := Nat.mod_lt data.length hsize
  rw [reached_page plain Nat.one_pos (by omega), eraseBlock, plain.area.page_offset,
    plain.has_erase, Bool.true_and]
  simp only [beq_iff_eq]
  split
  · rename_i hzero
    have hend : reached file data.length = file.areaBase + data.length := by
      rw [reached, roundUp_of_dvd hsize (Nat.dvd_of_mod_eq_zero hzero)]
    rw [filled, hend, hzero, flashErase, Prog.run_perform, plain.area.address_eq hroom]
    exact congrArg (fun mem => some ((0 : Int), mem)) (laid_erase _ (Nat.le_refl _))
  · rename_i hoff
    have hround : roundUp data.length file.eraseSize =
        data.length + (file.eraseSize - data.length % file.eraseSize) :=
      roundUp_eq (dvd_add_sub_mod _ hsize) (by omega) (by omega)
    rw [filled, reached, hround, Nat.add_assoc]
    rfl

/-- A page is written into the sector that was erased for its first byte. -/
theorem flashWrite_laid (plain : file.Plain) (mem : Memory) (data page : List UInt8)
    (hroom : data.length < file.areaSize) (hpos : 0 < page.length)
    (hpage : page.length ≤ file.eraseSize - data.length % file.eraseSize) :
    (flashWrite (u32 (file.areaBase + data.length)) page).run nor
        (laid file mem data (reached file (data.length + 1))) =
      some (0, filled file mem (data ++ page)) := by
  have hend := reached_page plain hpos hpage
  rw [flashWrite, Prog.run_perform, plain.area.address_eq hroom, filled, List.length_append, hend,
    reached_page plain Nat.one_pos (by omega)]
  exact congrArg (fun mem => some ((0 : Int), mem)) (laid_program (by omega))

/-- The page loop appends the buffer. -/
theorem writePages_filled (plain : file.Plain) (mem : Memory) (fuel : Nat)
    (data buffer : List UInt8) (hfuel : buffer.length ≤ fuel)
    (hfit : data.length + buffer.length ≤ file.areaSize) :
    (writePages file.eraseSize file.hasErase fuel (u32 (file.areaBase + data.length)) buffer).run
        nor (filled file mem data) = some (0, filled file mem (data ++ buffer)) := by
  induction fuel generalizing data buffer with
  | zero =>
      have hnil : buffer = [] := List.eq_nil_of_length_eq_zero (Nat.le_zero.mp hfuel)
      simp [writePages, hnil]
  | succ fuel ih =>
      unfold writePages
      split
      · rename_i hnil
        simp [List.eq_nil_of_length_eq_zero hnil]
      · rename_i hne
        obtain ⟨len, hlen, hpos, hle, hroom, -⟩ := page_bounds plain.area data.length hne
        have htake : (buffer.take len).length = len := List.length_take_of_le hle
        have herase := eraseBlock_laid plain mem data (by omega)
        have hpage := flashWrite_laid plain mem data (buffer.take len) (by omega) (by omega)
          (by omega)
        have hnext : u32 (u32 (file.areaBase + data.length) + len) =
            u32 (file.areaBase + (data ++ buffer.take len).length) := by
          rw [u32_add_page, List.length_append, htake, Nat.add_assoc]
        have hrest := ih (data ++ buffer.take len) (buffer.drop len)
          (by rw [List.length_drop]; omega)
          (by rw [List.length_append, List.length_drop, htake]; omega)
        dsimp only
        rw [hlen, Prog.run_bind_of herase, if_neg (not_not_intro rfl), Prog.run_bind_of hpage,
          if_neg (not_not_intro rfl), hnext, hrest, List.append_assoc, List.take_append_drop]

/-! ## Writing the file -/

/-- The variable part of a file with some data. -/
def directFile (file : NkDirectBase) (data : List UInt8) : NkDirect :=
  { file := file, crc := nkCrc32beCheck data, size := data.length }

/-- No data reaches no sector. -/
theorem filled_nil (file : NkDirectBase) (mem : Memory) : filled file mem [] = mem := by
  have hzero : roundUp 0 file.eraseSize = 0 := by
    rcases Nat.eq_zero_or_pos file.eraseSize with hsize | hsize
    · rw [hsize, roundUp, Nat.mul_zero]
    · exact roundUp_of_dvd hsize (Nat.dvd_zero _)
  funext a
  rw [filled, laid, reached, List.length_nil, hzero, if_neg (by omega), if_neg (by omega)]

/-- A write appends its buffer to the data written so far. -/
theorem nkDirectWrite_run (plain : file.Plain) (mem : Memory) (data buffer : List UInt8)
    (hfit : data.length + buffer.length ≤ file.areaSize) :
    (nkDirectWrite (directFile file data) buffer).run nor (filled file mem data) =
      some ((0, directFile file (data ++ buffer)), filled file mem (data ++ buffer)) := by
  have hlimit := plain.area.size_lt
  have hsize : u32 (data.length + buffer.length) = (data ++ buffer).length := by
    rw [List.length_append]
    exact Nat.mod_eq_of_lt (by omega)
  have hpages := writePages_filled plain mem buffer.length data buffer (Nat.le_refl _) hfit
  unfold nkDirectWrite
  dsimp only [directFile] at hpages ⊢
  rw [Prog.run_bind_of hpages, Prog.run_pure, hsize, ← nkCrc32beCheck_append]

/-- The data is in the memory. -/
theorem read_filled (file : NkDirectBase) (mem : Memory) (data : List UInt8) :
    (filled file mem data).read file.areaBase data.length = data := by
  apply Memory.read_eq
  intro i hi
  rw [filled, laid, if_pos (by omega), Nat.add_sub_cancel_left, List.getD_eq_getElem?_getD,
    List.getElem?_eq_getElem hi, Option.getD_some]

/-- Nothing changes outside the area. -/
theorem filled_outside (plain : file.Plain) (mem : Memory) {data : List UInt8}
    (hfit : data.length ≤ file.areaSize) {a : Nat}
    (ha : a < file.areaBase ∨ file.areaBase + file.areaSize ≤ a) :
    filled file mem data a = mem a := by
  have hround := roundUp_mono hfit file.eraseSize
  rw [roundUp_of_dvd plain.area.eraseSize_pos plain.area.size_dvd] at hround
  rw [filled, laid, reached, if_neg (by omega), if_neg (by omega)]

/-- Sectors are erased whole, and nothing is written past the end of memory. -/
theorem nkDirectWrite_aligned (plain : file.Plain) (varFile : NkDirect)
    (hfile : varFile.file = file) (buffer : List UInt8) :
    (nkDirectWrite varFile buffer).Ensures (FlashCmd.Aligned file.eraseSize)
      fun result => result.2.file = file := by
  obtain ⟨k, hk, hpow⟩ := plain.area.erase_pow
  unfold nkDirectWrite
  dsimp only
  rw [Prog.ensures_bind, hfile, hpow]
  exact (writePages_aligned hk _ _ (u32_lt _) buffer).mono fun _ _ => rfl

end

end LibnklabsPico.Flash
