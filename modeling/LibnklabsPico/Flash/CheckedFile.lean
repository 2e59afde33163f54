/-
  Flash/CheckedFile.lean --- what is written to a checked file is read back.

  `writing` is the state of the watched memory after some data was written and
  the sectors below `top` were erased.  Every pass of the page loop leads from
  one such state to another, whatever the chunks are; `stored` is the memory once
  the header is written, and `Holds` is all that reading needs of it.
-/
import LibnklabsPico.Flash.Nkchecked
import LibnklabsPico.Foundation.Align
import Mathlib.Data.List.GetD

set_option autoImplicit false

namespace LibnklabsPico.Flash

open LibnklabsPico.Foundation

/-- An area for a checked file with erasable sectors. -/
structure NkCheckedBase.Sectored (file : NkCheckedBase) : Prop where
  has_erase : file.hasErase = true
  erase_pow : ∃ k, 3 ≤ k ∧ k < 32 ∧ file.eraseSize = 2 ^ k
  base_dvd : file.eraseSize ∣ file.areaBase
  header_fits : headerSize ≤ file.areaSize
  areaSize_lt : file.areaSize < 2 ^ 32
  in_memory : file.areaBase + file.areaSize ≤ 2 ^ 32

namespace NkCheckedBase.Sectored

variable {file : NkCheckedBase}

theorem headerSize_le (area : file.Sectored) : headerSize ≤ file.eraseSize := by
  obtain ⟨k, hk, -, heq⟩ := area.erase_pow
  rw [heq]
  exact Nat.pow_le_pow_right (by decide : 0 < 2) hk

theorem eraseSize_pos (area : file.Sectored) : 0 < file.eraseSize :=
  Nat.lt_of_lt_of_le (by decide) area.headerSize_le

end NkCheckedBase.Sectored

/-- The first address of the data. -/
def dataBase (file : NkCheckedBase) : Nat := file.areaBase + headerSize

/-- The end of the sectors needed for `n` bytes of data. -/
def sectorEnd (file : NkCheckedBase) (n : Nat) : Nat :=
  file.areaBase + roundUp (headerSize + n) file.eraseSize

/-- Memory `mem` with the sectors below `top` erased and then the data written. -/
def written (file : NkCheckedBase) (mem : Memory) (data : List UInt8) (top : Nat) : Memory :=
  fun a =>
    if dataBase file ≤ a ∧ a < dataBase file + data.length then data.getD (a - dataBase file) 0
    else if file.areaBase ≤ a ∧ a < top then 0xFF
    else mem a

/-- The watched memory while a file is written. -/
def writing (file : NkCheckedBase) (mem : Memory) (data : List UInt8) (top : Nat) : Watched where
  mem := written file mem data top
  erased := fun a => decide (file.areaBase ≤ a ∧ a < top)
  programmed := fun a => decide (dataBase file ≤ a ∧ a < dataBase file + data.length)

/-- The memory after the file was closed. -/
def stored (file : NkCheckedBase) (mem : Memory) (data : List UInt8) : Memory := fun a =>
  if file.areaBase ≤ a ∧ a < dataBase file then
    (nkCheckedHeader data.length (nkCrc32beCheck data)).getD (a - file.areaBase) 0
  else written file mem data (sectorEnd file data.length) a

/-! ## One call -/

theorem ff_and (x : UInt8) : 0xFF &&& x = x := by
  refine UInt8.toNat_inj.mp ?_
  rw [UInt8.toNat_and, Nat.and_comm]
  exact Nat.and_two_pow_sub_one_of_lt_two_pow (n := 8) x.toNat_lt

theorem getD_append {l₁ l₂ : List UInt8} {i : Nat} :
    (l₁ ++ l₂).getD i 0 = if i < l₁.length then l₁.getD i 0 else l₂.getD (i - l₁.length) 0 := by
  split
  · rename_i hi
    exact List.getD_append l₁ l₂ 0 i hi
  · rename_i hi
    exact List.getD_append_right l₁ l₂ 0 i (Nat.le_of_not_lt hi)

section
variable {file : NkCheckedBase} {mem : Memory} {data piece : List UInt8} {top : Nat}

/-- Erasing the next sector. -/
theorem erase_writing (size : Nat) (hbase : file.areaBase ≤ top)
    (htop : dataBase file + data.length ≤ top) :
    strictNor (.erase top size) (writing file mem data top) =
      some (0, writing file mem data (top + size)) := by
  have hmem : (written file mem data top).erase top size =
      written file mem data (top + size) := by
    funext a
    unfold Memory.erase written
    split_ifs <;> first | rfl | omega
  have herased : (fun a => decide (file.areaBase ≤ a ∧ a < top) ||
      decide (top ≤ a ∧ a < top + size)) =
      fun a => decide (file.areaBase ≤ a ∧ a < top + size) := by
    funext a
    rw [← Bool.decide_or, decide_eq_decide]
    omega
  simp only [strictNor, writing, hmem, herased]

/-- Writing behind the data. -/
theorem write_writing (hfit : dataBase file + data.length + piece.length ≤ top) :
    strictNor (.write (dataBase file + data.length) piece) (writing file mem data top) =
      some (0, writing file mem (data ++ piece) top) := by
  have hbase : file.areaBase ≤ dataBase file := Nat.le_add_right _ _
  have hallowed : ((List.range piece.length).all fun i =>
      (writing file mem data top).erased (dataBase file + data.length + i) &&
        !(writing file mem data top).programmed (dataBase file + data.length + i)) = true := by
    simp only [List.all_eq_true, List.mem_range, writing, Bool.and_eq_true, decide_eq_true_eq,
      Bool.not_eq_true', decide_eq_false_iff_not]
    intro i hi
    omega
  have hmem : (written file mem data top).program (dataBase file + data.length) piece =
      written file mem (data ++ piece) top := by
    funext a
    simp only [Memory.program, written, getD_append, List.length_append]
    split_ifs <;> first
      | rfl
      | omega
      | (rw [ff_and]; congr 1; omega)
  have hprogrammed : (fun a => decide (dataBase file ≤ a ∧ a < dataBase file + data.length) ||
      decide (dataBase file + data.length ≤ a ∧
        a < dataBase file + data.length + piece.length)) =
      fun a => decide (dataBase file ≤ a ∧
        a < dataBase file + (data ++ piece).length) := by
    funext a
    rw [← Bool.decide_or, decide_eq_decide, List.length_append]
    omega
  simp only [strictNor, hallowed, if_true]
  simp only [writing, hmem, hprogrammed]

end

/-! ## The page loop -/

section
variable {file : NkCheckedBase}

/-- The offset of a data address in its sector. -/
theorem page_offset (area : file.Sectored) (n : Nat) :
    (dataBase file + n) &&& wrap 32 ((file.eraseSize : Int) - 1) =
      (headerSize + n) % file.eraseSize := by
  obtain ⟨k, -, hk, hpow⟩ := area.erase_pow
  obtain ⟨q, hq⟩ := area.base_dvd
  rw [hpow, and_mask hk, ← hpow, dataBase, hq, Nat.add_assoc, Nat.mul_add_mod]

theorem pageRoom_eq (area : file.Sectored) (n : Nat) :
    pageRoom file.eraseSize (dataBase file + n) =
      file.eraseSize - (headerSize + n) % file.eraseSize := by
  obtain ⟨k, -, hk, hpow⟩ := area.erase_pow
  have hmod := Nat.mod_lt (headerSize + n) area.eraseSize_pos
  rw [pageRoom, page_offset area]
  exact wrap_sub (Nat.le_of_lt hmod) (hpow ▸ Nat.pow_lt_pow_right (by decide) hk)

/-- The sectors needed for one more page end with the sector of the page. -/
theorem sectorEnd_page (area : file.Sectored) {n k : Nat} (hpos : 0 < k)
    (hk : k ≤ file.eraseSize - (headerSize + n) % file.eraseSize) :
    sectorEnd file (n + k) =
      dataBase file + n + (file.eraseSize - (headerSize + n) % file.eraseSize) := by
  have hsize := area.eraseSize_pos
  have hend := dvd_add_sub_mod (headerSize + n) hsize
  have hround : roundUp (headerSize + (n + k)) file.eraseSize =
      headerSize + n + (file.eraseSize - (headerSize + n) % file.eraseSize) :=
    roundUp_eq hend (by omega) (by omega)
  rw [sectorEnd, hround, dataBase]
  omega

/-- A sector is erased exactly when the next byte is its first one. -/
theorem erase_page (area : file.Sectored) (mem : Memory) (data : List UInt8) :
    (eraseBlock file.eraseSize file.hasErase (dataBase file + data.length)).run strictNor
        (writing file mem data (sectorEnd file data.length)) =
      some (0, writing file mem data (sectorEnd file (data.length + 1))) := by
  have hsize := area.eraseSize_pos
  have hmod := Nat.mod_lt (headerSize + data.length) hsize
  rw [sectorEnd_page area Nat.one_pos (by omega), eraseBlock, page_offset area,
    area.has_erase, Bool.true_and]
  simp only [beq_iff_eq]
  split
  · rename_i hzero
    have hend : sectorEnd file data.length = dataBase file + data.length := by
      rw [sectorEnd, roundUp_of_dvd hsize (Nat.dvd_of_mod_eq_zero hzero), dataBase, Nat.add_assoc]
    rw [hend, hzero, flashErase, Prog.run_perform]
    exact erase_writing file.eraseSize (by rw [dataBase]; omega) (Nat.le_refl _)
  · rename_i hoff
    have hround : roundUp (headerSize + data.length) file.eraseSize =
        headerSize + data.length +
          (file.eraseSize - (headerSize + data.length) % file.eraseSize) :=
      roundUp_eq (dvd_add_sub_mod _ hsize) (by omega) (by omega)
    have hend : sectorEnd file data.length = dataBase file + data.length +
        (file.eraseSize - (headerSize + data.length) % file.eraseSize) := by
      rw [sectorEnd, hround, dataBase]
      omega
    rw [hend]
    rfl

/-- A page is written into the sector that was erased for its first byte. -/
theorem write_page (area : file.Sectored) (mem : Memory) (data : List UInt8)
    (page : List UInt8) (hpos : 0 < page.length)
    (hpage : page.length ≤ file.eraseSize - (headerSize + data.length) % file.eraseSize) :
    (flashWrite (dataBase file + data.length) page).run strictNor
        (writing file mem data (sectorEnd file (data.length + 1))) =
      some (0, writing file mem (data ++ page) (sectorEnd file (data ++ page).length)) := by
  rw [flashWrite, Prog.run_perform, List.length_append, sectorEnd_page area hpos hpage,
    sectorEnd_page area Nat.one_pos (by omega)]
  exact write_writing (by omega)

/-- The page loop appends the buffer, erasing the sectors it reaches. -/
theorem writePages_run (area : file.Sectored) (mem : Memory) (fuel : Nat)
    (data buffer : List UInt8) (hfuel : buffer.length ≤ fuel)
    (hfit : headerSize + data.length + buffer.length ≤ file.areaSize) :
    (writePages file.eraseSize file.hasErase fuel (u32 (dataBase file + data.length))
        buffer).run strictNor (writing file mem data (sectorEnd file data.length)) =
      some (0, writing file mem (data ++ buffer)
        (sectorEnd file (data ++ buffer).length)) := by
  induction fuel generalizing data buffer with
  | zero =>
      have hnil : buffer = [] := List.eq_nil_of_length_eq_zero (Nat.le_zero.mp hfuel)
      simp [writePages, hnil]
  | succ fuel ih =>
      unfold writePages
      split
      · rename_i hnil
        simp [List.eq_nil_of_length_eq_zero hnil]
      · rename_i hne
        have hin := area.in_memory
        have haddr : u32 (dataBase file + data.length) = dataBase file + data.length :=
          Nat.mod_eq_of_lt (by rw [dataBase]; omega)
        have hmod := Nat.mod_lt (headerSize + data.length) area.eraseSize_pos
        rw [haddr, pageRoom_eq area]
        set room := file.eraseSize - (headerSize + data.length) % file.eraseSize with hroom
        set len := if buffer.length < room then buffer.length else room with hlen
        have hbounds : 0 < len ∧ len ≤ room ∧ len ≤ buffer.length := by
          rw [hlen]
          split <;> omega
        have htake : (buffer.take len).length = len := List.length_take_of_le hbounds.2.2
        have hpage := write_page area mem data (buffer.take len) (by omega) (by omega)
        have hnext : dataBase file + data.length + len =
            dataBase file + (data ++ buffer.take len).length := by
          rw [List.length_append, htake, Nat.add_assoc]
        have hrest := ih (data ++ buffer.take len) (buffer.drop len)
          (by rw [List.length_drop]; omega)
          (by rw [List.length_append, List.length_drop, htake]; omega)
        rw [Prog.run_bind_of (erase_page area mem data), if_neg (not_not_intro rfl),
          Prog.run_bind_of hpage, if_neg (not_not_intro rfl), hnext, hrest, List.append_assoc,
          List.take_append_drop]

/-! ## Open, write, close -/

/-- The variable part of a file while it is written. -/
def openFile (file : NkCheckedBase) (data : List UInt8) : NkChecked :=
  { file := file, crc := nkCrc32beCheck data, size := data.length }

@[simp] theorem openFile_file (file : NkCheckedBase) (data : List UInt8) :
    (openFile file data).file = file := rfl

@[simp] theorem openFile_size (file : NkCheckedBase) (data : List UInt8) :
    (openFile file data).size = data.length := rfl

/-- Opening erases the first sector. -/
theorem nkCheckedWriteOpen_run (area : file.Sectored) (mem : Memory) :
    (nkCheckedWriteOpen file).run strictNor (Watched.start mem) =
      some ((0, openFile file []), writing file mem [] (sectorEnd file 0)) := by
  have hsize := area.eraseSize_pos
  have hround : roundUp headerSize file.eraseSize = file.eraseSize :=
    roundUp_eq (Nat.dvd_refl _) area.headerSize_le (by simp only [headerSize]; omega)
  have herase : strictNor (.erase file.areaBase file.eraseSize) (Watched.start mem) =
      some (0, writing file mem [] (sectorEnd file 0)) := by
    have hmem : mem.erase file.areaBase file.eraseSize =
        written file mem [] (file.areaBase + file.eraseSize) := by
      funext a
      unfold Memory.erase written
      split_ifs <;> first | rfl | (simp only [List.length_nil] at *; omega)
    have hprogrammed : (fun a => decide (dataBase file ≤ a ∧
        a < dataBase file + ([] : List UInt8).length)) = fun _ => false := by
      funext a
      simp only [List.length_nil, decide_eq_false_iff_not]
      omega
    simp only [strictNor, Watched.start, writing, sectorEnd, Nat.add_zero, hround, hmem,
      hprogrammed, Bool.false_or]
  simp [nkCheckedWriteOpen, area.has_erase, flashErase, herase, openFile, nkCrc32beCheck]

/-- A write appends its buffer to the data written so far. -/
theorem nkCheckedWrite_run (area : file.Sectored) (mem : Memory) (data buffer : List UInt8)
    (hfit : headerSize + data.length + buffer.length ≤ file.areaSize) :
    (nkCheckedWrite (openFile file data) buffer).run strictNor
        (writing file mem data (sectorEnd file data.length)) =
      some ((0, openFile file (data ++ buffer)), writing file mem (data ++ buffer)
        (sectorEnd file (data ++ buffer).length)) := by
  have hin := area.in_memory
  have hsize : u32 (data.length + buffer.length) = (data ++ buffer).length := by
    rw [List.length_append]
    exact Nat.mod_eq_of_lt (by simp only [headerSize] at hfit; omega)
  have hpages := writePages_run area mem buffer.length data buffer (Nat.le_refl _) hfit
  unfold nkCheckedWrite
  dsimp only [openFile, dataBase] at hpages ⊢
  rw [Prog.run_bind_of hpages, Prog.run_pure, hsize, ← nkCrc32beCheck_append]

/-- Closing writes the header in front of the data. -/
theorem nkCheckedWriteClose_run (mem : Memory) (data : List UInt8)
    (area : file.Sectored) :
    ∃ dev, (nkCheckedWriteClose (openFile file data)).run strictNor
        (writing file mem data (sectorEnd file data.length)) = some (0, dev) ∧
      dev.mem = stored file mem data := by
  have htop : dataBase file ≤ sectorEnd file data.length := by
    have := le_roundUp (headerSize + data.length) area.eraseSize_pos
    rw [dataBase, sectorEnd]
    omega
  have hallowed : ((List.range headerSize).all fun i =>
      (writing file mem data (sectorEnd file data.length)).erased (file.areaBase + i) &&
        !(writing file mem data (sectorEnd file data.length)).programmed
          (file.areaBase + i)) = true := by
    simp only [List.all_eq_true, List.mem_range, writing, Bool.and_eq_true, decide_eq_true_eq,
      Bool.not_eq_true', decide_eq_false_iff_not]
    intro i hi
    rw [dataBase] at htop ⊢
    omega
  simp only [nkCheckedWriteClose, openFile, flashWrite, Prog.run_perform, strictNor,
    nkCheckedHeader_length, hallowed, if_true]
  refine ⟨_, rfl, funext fun a => ?_⟩
  by_cases hheader : file.areaBase ≤ a ∧ a < dataBase file
  · have herased : written file mem data (sectorEnd file data.length) a = 0xFF := by
      unfold written
      rw [if_neg (by omega), if_pos (by omega)]
    have hprogram : (written file mem data (sectorEnd file data.length)).program file.areaBase
        (nkCheckedHeader data.length (nkCrc32beCheck data)) a =
        written file mem data (sectorEnd file data.length) a &&&
          (nkCheckedHeader data.length (nkCrc32beCheck data)).getD (a - file.areaBase) 0 :=
      if_pos hheader
    rw [stored, if_pos hheader]
    exact hprogram.trans (by rw [herased, ff_and])
  · rw [stored, if_neg hheader]
    exact if_neg hheader

/-- Write chunks one after another. -/
def writeChunks (varFile : NkChecked) : List (List UInt8) → FlashProg (List Int × NkChecked)
  | [] => pure ([], varFile)
  | chunk :: chunks => do
      let (rtn, varFile) ← nkCheckedWrite varFile chunk
      let (rtns, varFile) ← writeChunks varFile chunks
      pure (rtn :: rtns, varFile)

/-- Open the file, write chunks, close it: the return value of every call. -/
def writeFile (file : NkCheckedBase) (chunks : List (List UInt8)) :
    FlashProg (List Int) := do
  let (opened, varFile) ← nkCheckedWriteOpen file
  let (rtns, varFile) ← writeChunks varFile chunks
  let closed ← nkCheckedWriteClose varFile
  pure (opened :: rtns ++ [closed])

theorem writeChunks_run (area : file.Sectored) (mem : Memory) (data : List UInt8)
    (chunks : List (List UInt8))
    (hfit : headerSize + data.length + chunks.flatten.length ≤ file.areaSize) :
    (writeChunks (openFile file data) chunks).run strictNor
        (writing file mem data (sectorEnd file data.length)) =
      some ((chunks.map fun _ => 0, openFile file (data ++ chunks.flatten)),
        writing file mem (data ++ chunks.flatten)
          (sectorEnd file (data ++ chunks.flatten).length)) := by
  induction chunks generalizing data with
  | nil => simp [writeChunks]
  | cons chunk chunks ih =>
      rw [List.flatten_cons, List.length_append] at hfit
      have hwrite := nkCheckedWrite_run area mem data chunk (by omega)
      have hrest := ih (data ++ chunk) (by rw [List.length_append]; omega)
      rw [writeChunks, Prog.run_bind_of hwrite]
      dsimp only
      rw [Prog.run_bind_of hrest]
      simp [List.append_assoc]

/-- Whatever the chunks, the watched memory allows every call, every call
returns `0`, and the memory left depends on the concatenation only. -/
theorem writeFile_run (area : file.Sectored) (mem : Memory) (chunks : List (List UInt8))
    (hfit : headerSize + chunks.flatten.length ≤ file.areaSize) :
    ∃ dev, (writeFile file chunks).run strictNor (Watched.start mem) =
        some (List.replicate (chunks.length + 2) 0, dev) ∧
      dev.mem = stored file mem chunks.flatten := by
  have hopen := nkCheckedWriteOpen_run area mem
  have hchunks := writeChunks_run area mem [] chunks (by simpa using hfit)
  obtain ⟨dev, hclose, hmem⟩ := nkCheckedWriteClose_run mem chunks.flatten area
  refine ⟨dev, ?_, hmem⟩
  rw [writeFile, Prog.run_bind_of hopen]
  dsimp only [List.length_nil] at hchunks ⊢
  rw [Prog.run_bind_of hchunks]
  dsimp only [List.nil_append]
  rw [Prog.run_bind_of hclose, Prog.run_pure]
  simp [List.replicate_succ, ← List.replicate_succ']

end

/-! ## Reading back -/

/-- The memory holds a complete file. -/
structure Holds (mem : Memory) (file : NkCheckedBase) (data : List UInt8) : Prop where
  fits : headerSize + data.length ≤ file.areaSize
  header : mem.read file.areaBase headerSize =
    nkCheckedHeader data.length (nkCrc32beCheck data)
  bytes : mem.read (dataBase file) data.length = data

theorem stored_holds {file : NkCheckedBase} (mem : Memory) {data : List UInt8}
    (hfit : headerSize + data.length ≤ file.areaSize) :
    Holds (stored file mem data) file data := by
  have hheader : (nkCheckedHeader data.length (nkCrc32beCheck data)).length = headerSize := rfl
  refine ⟨hfit, hheader ▸ Memory.read_eq fun i hi => ?_, Memory.read_eq fun i hi => ?_⟩
  · have hin : file.areaBase ≤ file.areaBase + i ∧ file.areaBase + i < dataBase file := by
      rw [dataBase]
      omega
    rw [stored, if_pos hin, Nat.add_sub_cancel_left, List.getD_eq_getElem _ 0 hi]
  · have hout : ¬ (file.areaBase ≤ dataBase file + i ∧ dataBase file + i < dataBase file) := by
      omega
    rw [stored, if_neg hout, written, if_pos (by omega), Nat.add_sub_cancel_left,
      List.getD_eq_getElem _ 0 hi]

theorem getLe32_size {n : Nat} (crc : UInt32) (hn : n < 2 ^ 32) :
    getLe32 (nkCheckedHeader n crc) 0 = n := by
  simp only [getLe32, nkCheckedHeader, le32, List.cons_append, List.nil_append, List.getD_cons_zero,
    List.getD_cons_succ, UInt8.toNat_ofNat']
  omega

theorem getLe32_crc (n : Nat) (crc : UInt32) :
    getLe32 (nkCheckedHeader n crc) 4 = crc.toNat := by
  have hcrc := crc.toNat_lt
  simp only [getLe32, nkCheckedHeader, le32, List.cons_append, List.nil_append, List.getD_cons_zero,
    List.getD_cons_succ, UInt8.toNat_ofNat']
  omega

/-- The CRC loop folds over the bytes of the file, whatever the buffer size. -/
theorem nkCheckedCrc_spec {mem : Memory} {bufSize : Nat} (hbuf : 0 < bufSize) (fuel : Nat)
    {addr : Nat} (rest : List UInt8) (crc : UInt32) (hfuel : rest.length ≤ fuel)
    (hin : addr + rest.length ≤ 2 ^ 32) (hrest : mem.read addr rest.length = rest) :
    nkCheckedCrc mem.reader bufSize fuel rest.length addr crc =
      (0, rest.foldl nkCrc32beUpdate crc) := by
  induction fuel generalizing addr rest crc with
  | zero =>
      have hnil : rest = [] := List.eq_nil_of_length_eq_zero (Nat.le_zero.mp hfuel)
      simp [nkCheckedCrc, hnil]
  | succ fuel ih =>
      unfold nkCheckedCrc
      split
      · rename_i hnil
        simp [List.eq_nil_of_length_eq_zero hnil]
      · rename_i hne
        set len := if bufSize < rest.length then bufSize else rest.length with hlen
        have hbounds : 0 < len ∧ len ≤ rest.length := by
          rw [hlen]
          split <;> omega
        have htake : mem.read addr len = rest.take len := by
          rw [← Memory.read_take mem hbounds.2, hrest]
        have hdrop : mem.read (u32 (addr + len)) (rest.drop len).length = rest.drop len := by
          have hall : mem.read (addr + len) (rest.length - len) = rest.drop len := by
            rw [← Memory.read_drop, hrest]
          rw [List.length_drop]
          rcases Nat.lt_or_ge len rest.length with hlt | hge
          · rwa [u32, Nat.mod_eq_of_lt (by omega)]
          · rw [Nat.sub_eq_zero_of_le hge, List.drop_of_length_le hge]
            rfl
        have hnext := ih (rest.drop len) ((rest.take len).foldl nkCrc32beUpdate crc)
          (by rw [List.length_drop]; omega)
          (by
            have := Nat.mod_le (addr + len) (2 ^ 32)
            rw [List.length_drop, u32]
            omega)
          hdrop
        rw [List.length_drop] at hnext
        have hread : mem.reader addr len = (0, rest.take len) := by
          rw [Memory.reader, htake]
        simp only [hread, ne_eq, not_true_eq_false, if_false]
        rw [hnext, ← List.foldl_append, List.take_append_drop]

section
variable {file : NkCheckedBase} (area : file.Sectored) {mem : Memory} {data : List UInt8}
include area

omit area in
/-- The checks of `nk_checked_read_open`, one by one. -/
theorem nkCheckedReadOpen_of {bufSize size : Nat} {crc : UInt32} (varFile : NkChecked)
    (hheader : mem.read file.areaBase headerSize = nkCheckedHeader size crc)
    (hsize : size < 2 ^ 32) (hlimit : ¬ wrap 32 ((file.areaSize : Int) - headerSize) < size)
    (hcrc : nkCheckedCrc mem.reader bufSize size size (u32 (headerSize + file.areaBase)) 0 =
      (0, crc)) :
    nkCheckedReadOpen mem.reader varFile file bufSize = (0, { file, crc, size }) := by
  have hread : mem.reader file.areaBase headerSize = (0, nkCheckedHeader size crc) := by
    rw [Memory.reader, hheader]
  unfold nkCheckedReadOpen
  simp only [hread, ne_eq, not_true_eq_false, if_false, getLe32_size _ hsize, getLe32_crc,
    UInt32.ofNat_toNat, hlimit, hcrc]

/-- A complete file is accepted. -/
theorem Holds.nkCheckedReadOpen_eq (holds : Holds mem file data) (varFile : NkChecked)
    {bufSize : Nat} (hbuf : 0 < bufSize) :
    nkCheckedReadOpen mem.reader varFile file bufSize = (0, openFile file data) := by
  have hin := area.in_memory
  have hfits := holds.fits
  have hheader := area.header_fits
  have hsize : data.length < 2 ^ 32 := by
    simp only [headerSize] at hfits
    omega
  have hlimit : ¬ wrap 32 ((file.areaSize : Int) - headerSize) < data.length := by
    rw [wrap_sub hheader area.areaSize_lt]
    omega
  have hcrc : nkCheckedCrc mem.reader bufSize data.length data.length
      (u32 (headerSize + file.areaBase)) 0 = (0, nkCrc32beCheck data) := by
    have hbytes := holds.bytes
    rw [dataBase, Nat.add_comm] at hbytes
    rcases Nat.eq_zero_or_pos data.length with hzero | hpos
    · simp [List.eq_nil_of_length_eq_zero hzero, nkCheckedCrc, nkCrc32beCheck]
    · have haddr : u32 (headerSize + file.areaBase) = headerSize + file.areaBase :=
        Nat.mod_eq_of_lt (by omega)
      rw [haddr]
      exact nkCheckedCrc_spec hbuf data.length data 0 (Nat.le_refl _) (by omega) hbytes
  exact nkCheckedReadOpen_of varFile holds.header hsize hlimit hcrc

/-- Reading gives the bytes of the file at any offset, up to its end. -/
theorem Holds.nkCheckedRead_eq (holds : Holds mem file data) {offset bufSize : Nat}
    (hoffset : offset ≤ data.length) (hwrap : offset + bufSize < 2 ^ 32) :
    nkCheckedRead mem.reader (openFile file data) offset bufSize =
      (data.drop offset).take bufSize := by
  have hin := area.in_memory
  have hfits := holds.fits
  have hlen : readLen data.length offset bufSize = min bufSize (data.length - offset) := by
    have hsize : data.length < 2 ^ 32 := by
      have := area.areaSize_lt
      omega
    rw [readLen, u32, Nat.mod_eq_of_lt hwrap, wrap_sub hoffset hsize]
    split <;> omega
  have htake : (data.drop offset).take bufSize =
      (data.drop offset).take (min bufSize (data.length - offset)) := by
    rw [← List.length_drop, ← List.take_take, List.take_length]
  unfold nkCheckedRead
  simp only [openFile_size, openFile_file, hlen]
  rw [htake]
  split
  · rename_i hne
    have haddr : u32 (file.areaBase + headerSize + offset) = dataBase file + offset :=
      Nat.mod_eq_of_lt (by omega)
    have hread : mem.reader (dataBase file + offset) (min bufSize (data.length - offset)) =
        (0, (data.drop offset).take (min bufSize (data.length - offset))) := by
      rw [Memory.reader, ← Memory.read_take mem (Nat.min_le_right bufSize _),
        ← Memory.read_drop, holds.bytes]
    simp only [haddr, hread, ne_eq, not_true_eq_false, if_false]
  · rename_i hzero
    rw [not_not.mp hzero, List.take_zero]

end

/-- Whatever the prior contents of the flash and however the data is cut into
chunks: every call succeeds, no byte is programmed that was not erased since the
open or that was programmed before, the memory left depends on the concatenation
only, and the file reads back as the concatenation. -/
theorem checkedFile_roundTrip {file : NkCheckedBase} (area : file.Sectored) (mem : Memory)
    (chunks : List (List UInt8))
    (hfit : headerSize + chunks.flatten.length ≤ file.areaSize) :
    ∃ dev, (writeFile file chunks).run strictNor (Watched.start mem) =
        some (List.replicate (chunks.length + 2) 0, dev) ∧
      dev.mem = stored file mem chunks.flatten ∧
      ∀ (varFile : NkChecked) (bufSize : Nat), headerSize ≤ bufSize →
        ∃ reading, nkCheckedReadOpen dev.mem.reader varFile file bufSize = (0, reading) ∧
          reading.size = chunks.flatten.length ∧
          ∀ offset len, offset ≤ reading.size → offset + len < 2 ^ 32 →
            nkCheckedRead dev.mem.reader reading offset len =
              (chunks.flatten.drop offset).take len := by
  obtain ⟨dev, hrun, hmem⟩ := writeFile_run area mem chunks hfit
  have holds : Holds dev.mem file chunks.flatten := hmem ▸ stored_holds mem hfit
  refine ⟨dev, hrun, hmem, fun varFile bufSize hbuf => ⟨openFile file chunks.flatten, ?_, rfl, ?_⟩⟩
  · exact holds.nkCheckedReadOpen_eq area varFile (Nat.lt_of_lt_of_le (by decide) hbuf)
  · exact fun offset len hoffset hwrap => holds.nkCheckedRead_eq area hoffset hwrap

/-- Three chunks across the end of the first sector, one of them empty. -/
theorem checkedFile_roundTrip_three :
    ∃ dev reading, (writeFile ⟨64, 32, 16, true, 1⟩
          [[1, 2, 3, 4, 5], [], [6, 7, 8, 9, 10]]).run strictNor (Watched.start fun _ => 0) =
        some ([0, 0, 0, 0, 0], dev) ∧
      nkCheckedReadOpen dev.mem.reader (openFile ⟨64, 32, 16, true, 1⟩ [])
        ⟨64, 32, 16, true, 1⟩ 8 = (0, reading) ∧
      nkCheckedRead dev.mem.reader reading 3 4 = [4, 5, 6, 7] := by
  have area : NkCheckedBase.Sectored ⟨64, 32, 16, true, 1⟩ :=
    ⟨rfl, ⟨4, by decide, by decide, rfl⟩, ⟨2, rfl⟩, by decide, by decide, by decide⟩
  obtain ⟨dev, hrun, -, hread⟩ :=
    checkedFile_roundTrip area (fun _ => 0) [[1, 2, 3, 4, 5], [], [6, 7, 8, 9, 10]] (by decide)
  obtain ⟨reading, hopen, hsize, hbytes⟩ :=
    hread (openFile ⟨64, 32, 16, true, 1⟩ []) 8 (by decide)
  have hoffset : 3 ≤ reading.size := by
    rw [hsize]
    decide
  exact ⟨dev, reading, hrun, hopen, hbytes 3 4 hoffset (by decide)⟩

end LibnklabsPico.Flash
