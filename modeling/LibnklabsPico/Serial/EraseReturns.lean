/-
  Serial/EraseReturns.lean --- what is erased when `nk_spiflash_erase` returns.

  The loop sends one erase command after the other and never reads the status, so
  the chip is still busy with an erase when the next command comes and when the
  function returns.
-/
import LibnklabsPico.Serial.Erasing
import LibnklabsPico.Serial.SpiPaging

set_option autoImplicit false

namespace LibnklabsPico.Serial

open LibnklabsPico.Foundation LibnklabsPico.Flash

variable {chip : SpiChip} {info : NkSpiflashInfo} {address count : Nat}

/-- The erase options are erase commands of the chip with their sizes. -/
structure NkSpiflashInfo.ErasesOn (info : NkSpiflashInfo) (chip : SpiChip) : Prop where
  erase_size : ∀ option ∈ info.eraseOptions, chip.eraseSize option.eraseCmd = some option.eraseSize
  erase_cmd : ∀ option ∈ info.eraseOptions, option.eraseCmd ∉
    [nkFlashCmdWriteEnable, nkFlashCmdReadStatus, nkFlashCmdWrite, nkFlashCmdRead]

/-! ## One block -/

theorem SpiChip.transfer_status (bytes : List UInt8) (dev : SpiMemory) :
    (chip.device.transfer bytes dev).1.1 = 0 := by
  rw [SpiChip.device_transfer]
  cases bytes with
  | nil => rfl
  | cons cmd args =>
      rw [SpiChip.transfer]
      split_ifs <;> rfl

/-- A busy chip ignores all commands but a status read. -/
theorem transfer_busy {cmd : UInt8} (args : List UInt8) {dev : SpiMemory}
    (hcmd : cmd ≠ nkFlashCmdReadStatus) (hbusy : dev.busy ≠ 0) :
    (chip.device.transfer (cmd :: args) dev).2 = dev := by
  rw [SpiChip.device_transfer, SpiChip.transfer, if_neg hcmd, if_pos hbusy]

/-- An idle, enabled chip erases the block of an address. -/
theorem transfer_erase (herases : info.ErasesOn chip) {option : EraseOption}
    (hmem : option ∈ info.eraseOptions) {dev : SpiMemory} (hidle : dev.busy = 0)
    (henabled : dev.writeEnabled = true) (haddress : address < 256 ^ chip.addrSize)
    (haligned : option.eraseSize ∣ address) :
    (chip.device.transfer (option.eraseCmd :: bigEndian chip.addrSize address) dev).2 =
      ⟨dev.mem.erase address option.eraseSize, false, chip.busyReads⟩ := by
  have hcmd := herases.erase_cmd option hmem
  simp only [List.mem_cons, List.not_mem_nil, or_false, not_or] at hcmd
  obtain ⟨henable, hstatus, hwrite, hread⟩ := hcmd
  have hlength := bigEndian_length chip.addrSize address
  rw [SpiChip.device_transfer, SpiChip.transfer, if_neg hstatus, if_neg (not_not.mpr hidle),
    SpiChip.obey]
  simp only [if_neg henable, if_neg hread, henabled, Bool.true_eq_false, if_false, if_neg hwrite,
    herases.erase_size option hmem, List.take_of_length_le (Nat.le_of_eq hlength),
    ofBigEndian_bigEndian haddress, Nat.mod_eq_zero_of_dvd haligned, Nat.sub_zero]

section
variable (herases : info.ErasesOn chip) {block : Nat × EraseOption}
  (hblock : block.2 ∈ info.eraseOptions) {s : Bus SpiMemory}
include herases hblock

/-- While the chip is busy an erase is lost. -/
theorem erasing_busy (hbusy : s.device.busy ≠ 0) :
    (s.erasing chip.device info.addrSize block).device = s.device := by
  have hstatus : block.2.eraseCmd ≠ nkFlashCmdReadStatus := by
    intro heq
    exact herases.erase_cmd block.2 hblock (by simp [heq])
  have henable : (s.sentTo chip.device [nkFlashCmdWriteEnable]).device = s.device :=
    transfer_busy [] (by decide) hbusy
  have herase : (chip.device.transfer (block.2.eraseCmd :: bigEndian info.addrSize block.1)
      s.device).2 = s.device := transfer_busy _ hstatus hbusy
  rw [← henable] at herase
  exact herase.trans henable

/-- An idle chip erases the block and is busy with it. -/
theorem erasing_idle (fits : info.Fits chip) (hidle : s.device.busy = 0)
    (haddress : block.1 < 256 ^ info.addrSize) (haligned : block.2.eraseSize ∣ block.1) :
    (s.erasing chip.device info.addrSize block).device =
      ⟨s.device.mem.erase block.1 block.2.eraseSize, false, chip.busyReads⟩ := by
  have henable : (s.sentTo chip.device [nkFlashCmdWriteEnable]).device =
      { s.device with writeEnabled := true } := by
    change (chip.device.transfer [nkFlashCmdWriteEnable] s.device).2 = _
    rw [transfer_writeEnable chip hidle]
  change (chip.device.transfer (block.2.eraseCmd :: bigEndian info.addrSize block.1)
    (s.sentTo chip.device [nkFlashCmdWriteEnable]).device).2 = _
  rw [henable, ← fits.addr_size]
  exact transfer_erase herases hblock hidle rfl (fits.addr_size ▸ haddress) haligned

end

/-! ## All blocks -/

section
variable (herases : info.ErasesOn chip) {blocks : List (Nat × EraseOption)} {s : Bus SpiMemory}
include herases

/-- A chip that is busy at the start is as it was at the end. -/
theorem erasings_busy (hblocks : ∀ block ∈ blocks, block.2 ∈ info.eraseOptions)
    (hbusy : s.device.busy ≠ 0) :
    (blocks.foldl (Bus.erasing chip.device info.addrSize) s).device = s.device := by
  induction blocks generalizing s with
  | nil => rfl
  | cons block blocks ih =>
      obtain ⟨hblock, hrest⟩ := List.forall_mem_cons.mp hblocks
      have hone := erasing_busy herases hblock hbusy
      rw [List.foldl_cons, ih hrest (by rwa [hone]), hone]

/-- A chip that is never busy erases all the blocks and nothing else. -/
theorem erasings_quick (fits : info.Fits chip) (hquick : chip.busyReads = 0)
    (hblocks : ∀ block ∈ blocks, Aligned EraseOption.eraseSize info.eraseOptions block)
    (haddress : ∀ block ∈ blocks, block.1 < 256 ^ info.addrSize) (hidle : s.device.busy = 0) :
    (blocks.foldl (Bus.erasing chip.device info.addrSize) s).device.busy = 0 ∧
      (∀ a ∈ allCells EraseOption.eraseSize blocks,
        (blocks.foldl (Bus.erasing chip.device info.addrSize) s).device.mem a = 0xFF) ∧
      ∀ a ∉ allCells EraseOption.eraseSize blocks,
        (blocks.foldl (Bus.erasing chip.device info.addrSize) s).device.mem a =
          s.device.mem a := by
  induction blocks generalizing s with
  | nil =>
      refine ⟨hidle, ?_, fun a _ => rfl⟩
      intro a ha
      rw [allCells_nil] at ha
      exact absurd ha (Set.notMem_empty a)
  | cons block blocks ih =>
      obtain ⟨hblock, hrest⟩ := List.forall_mem_cons.mp hblocks
      obtain ⟨haddr, haddrs⟩ := List.forall_mem_cons.mp haddress
      have hone := erasing_idle herases hblock.1 fits hidle haddr hblock.2
      have hidle' : (s.erasing chip.device info.addrSize block).device.busy = 0 := by
        rw [hone]
        exact hquick
      obtain ⟨hend, hin, hout⟩ := ih hrest haddrs hidle'
      rw [hone] at hout
      rw [List.foldl_cons, allCells_cons]
      refine ⟨hend, ?_, ?_⟩
      · intro a ha
        by_cases hlater : a ∈ allCells EraseOption.eraseSize blocks
        · exact hin a hlater
        · rw [hout a hlater]
          exact if_pos (mem_cells.mp (ha.resolve_right hlater))
      · intro a ha
        rw [Set.mem_union, not_or] at ha
        rw [hout a ha.2]
        exact if_neg fun hnow => ha.1 (mem_cells.mpr hnow)

end

/-! ## When the range is erased at the return -/

/-- When `nk_spiflash_erase` returns 0 the chip is idle, the range is erased, nothing
else has changed, and a write takes effect. -/
def ErasedAtReturn (chip : SpiChip) (info : NkSpiflashInfo) (address count : Nat)
    (s : Bus SpiMemory) : Prop :=
  ∀ s', (nkSpiflashErase info address count).run (serialBus chip.device) s = some (0, s') →
    s'.device.busy = 0 ∧
    (∀ a, address ≤ a → a < address + count → s'.device.mem a = 0xFF) ∧
    (∀ a, a < address ∨ address + count ≤ a → s'.device.mem a = s.device.mem a) ∧
    ∀ (place : Nat) (data : List UInt8), place + data.length ≤ 256 ^ info.addrSize →
      ∃ s'', (nkSpiflashWrite info place data).run (serialBus chip.device) s' = some (0, s'') ∧
        s''.device.mem = s'.device.mem.combine chip.rule place data

/-- `nk_spiflash_erase` returns only when the range is erased exactly for a chip that
is idle before, and for no bytes or with erases that take no time. -/
theorem erasedAtReturn_iff (fits : info.Fits chip) (herases : info.ErasesOn chip)
    (hsizes : info.SizesPow) {smallest : EraseOption} (hmem : smallest ∈ info.eraseOptions)
    (hleast : ∀ option ∈ info.eraseOptions, smallest.eraseSize ≤ option.eraseSize)
    (haddress : smallest.eraseSize ∣ address) (hcount : smallest.eraseSize ∣ count)
    (hrange : address + count ≤ 256 ^ info.addrSize) {s : Bus SpiMemory}
    (hsize : 1 + info.addrSize + info.pageSize ≤ s.size) :
    ErasedAtReturn chip info address count s ↔
      s.device.busy = 0 ∧ (count = 0 ∨ chip.busyReads = 0) := by
  obtain ⟨blocks, left, hlaid, hleft, hrun⟩ :=
    nkSpiflashErase_run (d := chip.device) SpiChip.transfer_status hsizes hmem hleast
      (Nat.le_of_add_right_le hsize) (Nat.le_trans hrange fits.range_le)
  obtain rfl := hleft.mpr (Or.inr ⟨haddress, hcount⟩)
  rw [if_pos rfl] at hrun
  have haligned := aligned_of_laid hsizes hlaid
  have hcells := hlaid.allCells_eq
  rw [Nat.sub_zero] at hcells
  have hlow : ∀ block ∈ blocks, block.1 < 256 ^ info.addrSize := fun block hblock =>
    Nat.lt_of_lt_of_le (start_lt_of_aligned hsizes haligned hcells.subset hblock) hrange
  constructor
  · intro hreturn
    obtain ⟨hidle, -⟩ := hreturn _ hrun
    by_cases hbefore : s.device.busy = 0
    · refine ⟨hbefore, or_iff_not_imp_left.mpr fun hsome => ?_⟩
      cases hlaid with
      | stop => exact absurd rfl hsome
      | @lay _ _ _ option blocks _ _ rest =>
          obtain ⟨hblock, hrest⟩ := List.forall_mem_cons.mp haligned
          have hone := erasing_idle herases hblock.1 fits hbefore
            (hlow _ List.mem_cons_self) hblock.2
          by_contra hslow
          have hkept := erasings_busy herases (fun block hblock => (hrest block hblock).1)
            (s := s.erasing chip.device info.addrSize (address, option)) (by rwa [hone])
          rw [List.foldl_cons, hkept, hone] at hidle
          exact hslow hidle
    · have hkept := erasings_busy herases (fun block hblock => (haligned block hblock).1) hbefore
      rw [hkept] at hidle
      exact absurd hidle hbefore
  · rintro ⟨hbefore, hquick⟩ s' hrun'
    rw [hrun, Option.some_inj, Prod.mk.injEq] at hrun'
    obtain ⟨-, rfl⟩ := hrun'
    have hend : (blocks.foldl (Bus.erasing chip.device info.addrSize) s).device.busy = 0 ∧
        (∀ a ∈ allCells EraseOption.eraseSize blocks,
          (blocks.foldl (Bus.erasing chip.device info.addrSize) s).device.mem a = 0xFF) ∧
        ∀ a ∉ allCells EraseOption.eraseSize blocks,
          (blocks.foldl (Bus.erasing chip.device info.addrSize) s).device.mem a =
            s.device.mem a := by
      rcases hquick with rfl | hquick
      · obtain rfl := hlaid.eq_nil fun _ _ _ hpick =>
          hsizes.pos (NkSpiflashInfo.Picks.fits hsizes hpick).1
        rw [allCells_nil]
        exact ⟨hbefore, fun a ha => absurd ha (Set.notMem_empty a), fun a _ => rfl⟩
      · exact erasings_quick herases fits hquick haligned hlow hbefore
    obtain ⟨hidle, hin, hout⟩ := hend
    rw [hcells] at hin hout
    refine ⟨hidle, fun a hge hlt => hin a ⟨hge, hlt⟩, ?_, ?_⟩
    · intro a houtside
      apply hout a
      rintro ⟨hge, hlt⟩
      omega
    · intro place data hfits
      have hready : SpiReady info (blocks.foldl (Bus.erasing chip.device info.addrSize) s) :=
        ⟨hidle, by rw [erasing_size]; exact hsize⟩
      obtain ⟨s'', -, -, hwrite, -, hwritten, -⟩ := nkSpiflashWrite_run fits hready hfits
      exact ⟨s'', hwrite, hwritten⟩

/-- A chip without busy times, and one that is busy for two status reads. -/
theorem erasedAtReturn_iff_two :
    let eraseSize : UInt8 → Option Nat := fun cmd => if cmd = 0x20 then some 4 else none
    let quick : SpiChip := ⟨4, 1, fun old new => old &&& new, eraseSize, 0⟩
    let slow : SpiChip := ⟨4, 1, fun old new => old &&& new, eraseSize, 2⟩
    let info : NkSpiflashInfo := ⟨4, 3, 1, [⟨4, 0x20⟩]⟩
    let s : Bus SpiMemory := ⟨6, fun _ => 0, ⟨fun _ => 0, false, 0⟩, []⟩
    ErasedAtReturn quick info 4 8 s ∧ ¬ ErasedAtReturn slow info 4 8 s := by
  intro eraseSize quick slow info s
  have herases : ∀ chip : SpiChip, chip.eraseSize = eraseSize → info.ErasesOn chip := by
    intro chip hchip
    refine ⟨?_, ?_⟩
    · intro option hmem
      obtain rfl := List.mem_singleton.mp hmem
      rw [hchip]
      rfl
    · intro option hmem
      obtain rfl := List.mem_singleton.mp hmem
      decide
  have hsizes : info.SizesPow := by
    intro option hmem
    obtain rfl := List.mem_singleton.mp hmem
    exact ⟨2, by decide, rfl⟩
  have hleast : ∀ option ∈ info.eraseOptions, 4 ≤ option.eraseSize := by simp [info]
  have hmem : (⟨4, 0x20⟩ : EraseOption) ∈ info.eraseOptions := by simp [info]
  have hquick : info.Fits quick :=
    ⟨⟨2, by decide, rfl⟩, by decide, by decide, rfl, by decide, by decide, by decide⟩
  have hslow : info.Fits slow :=
    ⟨⟨2, by decide, rfl⟩, by decide, by decide, rfl, by decide, by decide, by decide⟩
  constructor
  · exact (erasedAtReturn_iff hquick (herases quick rfl) hsizes hmem hleast ⟨1, rfl⟩ ⟨2, rfl⟩
      (by decide) (by decide)).mpr ⟨rfl, Or.inr rfl⟩
  · intro hreturn
    obtain ⟨-, hbusy⟩ := (erasedAtReturn_iff hslow (herases slow rfl) hsizes hmem hleast
      ⟨1, rfl⟩ ⟨2, rfl⟩ (by decide) (by decide)).mp hreturn
    exact absurd hbusy (by decide)

/-- After the erase of two blocks by a slow chip, the chip is busy and the second
block is as it was. -/
theorem not_erasedAtReturn_slow :
    let chip : SpiChip := ⟨4, 1, fun old new => old &&& new,
      fun cmd => if cmd = 0x20 then some 4 else none, 2⟩
    let s : Bus SpiMemory := ⟨6, fun _ => 0, ⟨fun _ => 0, false, 0⟩, []⟩
    ¬ ErasedAtReturn chip ⟨4, 3, 1, [⟨4, 0x20⟩]⟩ 4 8 s := by
  intro chip s hreturn
  have hrun : ((nkSpiflashErase ⟨4, 3, 1, [⟨4, 0x20⟩]⟩ 4 8).run (serialBus chip.device) s).map
      (fun result => (result.1, result.2.device.busy, result.2.device.mem 8)) =
      some (0, 2, 0) := by decide
  obtain ⟨⟨status, s'⟩, hsome, heq⟩ := Option.map_eq_some_iff.mp hrun
  rw [Prod.mk.injEq, Prod.mk.injEq] at heq
  obtain ⟨rfl, hbusy, -⟩ := heq
  obtain ⟨hidle, -⟩ := hreturn s' hsome
  rw [hidle] at hbusy
  exact absurd hbusy (by decide)

end LibnklabsPico.Serial
