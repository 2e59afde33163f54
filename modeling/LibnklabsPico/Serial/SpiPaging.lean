/-
  Serial/SpiPaging.lean --- writing and reading an SPI memory page by page.

  The driver cuts a range at the page boundaries.  `nkSpiflashWrite_run` gives
  the whole run of a write: everything that was sent, one piece of a tiling of
  the range after the other, and what the memory holds afterwards.
-/
import LibnklabsPico.Serial.Nkspiflash

set_option autoImplicit false

namespace LibnklabsPico.Serial

open LibnklabsPico.Foundation LibnklabsPico.Flash

/-! ## The chip -/

/-- Inside its page a program does not wrap. -/
theorem pageProgram_inside {rule : UInt8 → UInt8 → UInt8} {size address : Nat}
    (data : List UInt8) (mem : Memory) (hin : address % size + data.length ≤ size) :
    pageProgram rule size address data mem = mem.combine rule address data := by
  induction data generalizing address mem with
  | nil => rw [pageProgram, Memory.combine_nil]
  | cons b data ih =>
      rw [List.length_cons] at hin
      have hhead : (mem.combine rule address [b]).combine rule (address + 1) data =
          mem.combine rule address (b :: data) := mem.combine_append address [b] data
      have hle := Nat.mod_le address size
      rw [pageProgram, ← hhead]
      by_cases hlast : data.length = 0
      · rw [List.length_eq_zero_iff.mp hlast, pageProgram, Memory.combine_nil]
      · have hoffset : (address % size + 1) % size = address % size + 1 :=
          Nat.mod_eq_of_lt (by omega)
        have hnext : address - address % size + (address % size + 1) % size = address + 1 := by
          omega
        have hmod : (address + 1) % size = address % size + 1 := by
          rw [Nat.add_mod, Nat.mod_eq_of_lt (show 1 < size by omega), hoffset]
        rw [hnext, ih]
        omega

variable (chip : SpiChip) {dev : SpiMemory} {address : Nat}

theorem SpiChip.device_transfer (sent : List UInt8) :
    chip.device.transfer sent dev = chip.transfer sent dev := rfl

/-- An idle chip takes a write enable. -/
theorem transfer_writeEnable (hidle : dev.busy = 0) :
    chip.device.transfer [nkFlashCmdWriteEnable] dev =
      ((0, [0]), { dev with writeEnabled := true }) := by
  have hcmd : nkFlashCmdWriteEnable ≠ nkFlashCmdReadStatus := by decide
  simp [SpiChip.device, SpiChip.transfer, SpiChip.obey, hcmd, hidle]

theorem transfer_readStatus :
    chip.device.transfer [nkFlashCmdReadStatus, 0] dev =
      ((0, [0, if dev.busy = 0 then 0 else 1]), { dev with busy := dev.busy - 1 }) := by
  simp [SpiChip.device, SpiChip.transfer]

/-- An idle, enabled chip programs data inside one of its pages. -/
theorem transfer_write {data : List UInt8} (hidle : dev.busy = 0)
    (henabled : dev.writeEnabled = true) (haddress : address < 256 ^ chip.addrSize)
    (hin : address % chip.pageSize + data.length ≤ chip.pageSize) :
    chip.device.transfer (nkFlashCmdWrite :: (bigEndian chip.addrSize address ++ data)) dev =
      ((0, List.replicate (1 + (bigEndian chip.addrSize address ++ data).length) 0),
        ⟨dev.mem.combine chip.rule address data, false, chip.busyReads⟩) := by
  have hstatus : nkFlashCmdWrite ≠ nkFlashCmdReadStatus := by decide
  have henable : nkFlashCmdWrite ≠ nkFlashCmdWriteEnable := by decide
  have hread : nkFlashCmdWrite ≠ nkFlashCmdRead := by decide
  have hlength := bigEndian_length chip.addrSize address
  rw [SpiChip.device_transfer, SpiChip.transfer, if_neg hstatus, if_neg (not_not.mpr hidle),
    SpiChip.obey]
  simp only [if_neg henable, if_neg hread, henabled, Bool.true_eq_false, if_false, if_true,
    List.take_left' hlength, List.drop_left' hlength, ofBigEndian_bigEndian haddress,
    pageProgram_inside data dev.mem hin]

/-- An idle chip answers a read with its bytes. -/
theorem transfer_read (filler : List UInt8) (hidle : dev.busy = 0)
    (haddress : address < 256 ^ chip.addrSize) :
    chip.device.transfer (nkFlashCmdRead :: (bigEndian chip.addrSize address ++ filler)) dev =
      ((0, List.replicate (1 + chip.addrSize) 0 ++ dev.mem.read address filler.length),
        dev) := by
  have hstatus : nkFlashCmdRead ≠ nkFlashCmdReadStatus := by decide
  have henable : nkFlashCmdRead ≠ nkFlashCmdWriteEnable := by decide
  have hlength := bigEndian_length chip.addrSize address
  rw [SpiChip.device_transfer, SpiChip.transfer, if_neg hstatus, if_neg (not_not.mpr hidle),
    SpiChip.obey]
  simp only [if_neg henable, if_true, List.take_left' hlength, List.drop_left' hlength,
    ofBigEndian_bigEndian haddress]

/-! ## Polling -/

/-- The transfers of a poll. -/
def statusReads (n : Nat) : List (List UInt8) := List.replicate n [nkFlashCmdReadStatus, 0]

/-- The bus after a status read. -/
def Bus.polled (s : Bus SpiMemory) : Bus SpiMemory :=
  s.sent [nkFlashCmdReadStatus, 0] [0, if s.device.busy = 0 then 0 else 1]
    { s.device with busy := s.device.busy - 1 }

/-- The status that a status read leaves in the buffer. -/
theorem polled_reply (s : Bus SpiMemory) :
    s.polled.buffer.read 1 1 = [if s.device.busy = 0 then 0 else 1] := by
  have hread : s.polled.buffer.read 0 2 = [0, if s.device.busy = 0 then 0 else 1] :=
    Memory.read_store _ 0 [0, if s.device.busy = 0 then 0 else 1]
  have hdrop := s.polled.buffer.read_drop 0 1 2
  rw [hread] at hdrop
  exact hdrop.symm

/-- One status read of `nk_spiflash_busy_wait`. -/
theorem run_statusRead {s : Bus SpiMemory} (hsize : 2 ≤ s.size) (polls : Nat) :
    (nkSpiflashBusyWaitLoop (polls + 1) 0).run (serialBus chip.device) s =
      if s.device.busy = 0 then some (0, s.polled)
      else (nkSpiflashBusyWaitLoop polls 0).run (serialBus chip.device) s.polled := by
  have hput : (s.buffer.store 0 [nkFlashCmdReadStatus]).store 1 [0] =
      s.buffer.store 0 [nkFlashCmdReadStatus, 0] := s.buffer.store_append 0 _ _
  rw [nkSpiflashBusyWaitLoop,
    Prog.run_bind_of (run_put (by rw [List.length_singleton]; omega)),
    Prog.run_bind_of (run_put (by exact hsize))]
  simp only [hput]
  have htwo : [nkFlashCmdReadStatus, (0 : UInt8)].length = 2 := rfl
  rw [run_transfer_put htwo hsize (transfer_readStatus chip), if_neg (by decide),
    Prog.run_bind_of (run_get (by exact hsize))]
  change Prog.run _ (if (s.polled.buffer.read 1 1).headD 0 &&& 1 = 0 then _ else _) s.polled = _
  rw [polled_reply]
  by_cases hbusy : s.device.busy = 0
  · rw [if_pos hbusy, if_pos (by decide), if_pos hbusy]
    rfl
  · rw [if_neg hbusy, if_neg (by decide), if_neg hbusy]
    rfl

/-- With enough patience the driver waits until the chip is idle. -/
theorem run_busyWait {s : Bus SpiMemory} (hsize : 2 ≤ s.size) {polls : Nat}
    (hpatience : s.device.busy < polls) :
    ∃ buffer, (nkSpiflashBusyWaitLoop polls 0).run (serialBus chip.device) s =
      some (0, ⟨s.size, buffer, { s.device with busy := 0 },
        s.log ++ statusReads (s.device.busy + 1)⟩) := by
  induction polls generalizing s with
  | zero => exact absurd hpatience (Nat.not_lt_zero _)
  | succ polls ih =>
      rw [run_statusRead chip hsize]
      by_cases hbusy : s.device.busy = 0
      · refine ⟨s.polled.buffer, ?_⟩
        rw [if_pos hbusy, Bus.polled, Bus.sent, hbusy]
        rfl
      · have hless : s.polled.device.busy < polls := by
          change s.device.busy - 1 < polls
          omega
        obtain ⟨buffer, hrun⟩ := ih (s := s.polled) hsize hless
        have hcount : s.device.busy - 1 + 1 = s.device.busy := by omega
        refine ⟨buffer, ?_⟩
        rw [if_neg hbusy, hrun]
        simp only [Bus.polled, Bus.sent, hcount, statusReads, List.append_assoc,
          List.singleton_append, List.replicate_succ]

/-! ## Writing -/

/-- The bus after a write enable. -/
def Bus.enabled (s : Bus SpiMemory) : Bus SpiMemory :=
  s.sent [nkFlashCmdWriteEnable] [0] { s.device with writeEnabled := true }

/-- `nk_spiflash_write_enable` on an idle chip. -/
theorem run_writeEnable {s : Bus SpiMemory} (hidle : s.device.busy = 0) (hsize : 1 ≤ s.size) :
    nkSpiflashWriteEnable.run (serialBus chip.device) s = some (0, s.enabled) := by
  have hone : [nkFlashCmdWriteEnable].length = 1 := rfl
  have hsend := run_transfer_put (f := pure) hone hsize (transfer_writeEnable chip hidle)
  rw [bind_pure, Prog.run_pure] at hsend
  rw [nkSpiflashWriteEnable, Prog.run_bind_of (run_put (by exact hsize)), hsend, Bus.enabled]

/-- Everything that is sent to write one block. -/
def blockTransfers (block : Nat × List UInt8) : List (List UInt8) :=
  [[nkFlashCmdWriteEnable],
    nkFlashCmdWrite :: (bigEndian chip.addrSize block.1 ++ block.2)] ++
    statusReads (chip.busyReads + 1)

/-- A block inside a page of the driver is inside a page of the chip. -/
theorem inside_of_dvd {small large len : Nat} (hdvd : small ∣ large) (hlarge : 0 < large)
    (hin : address % small + len ≤ small) : address % large + len ≤ large := by
  obtain ⟨q, rfl⟩ := hdvd
  have hsplit : address % (small * q) = address % small + small * (address / small % q) :=
    Nat.mod_mul
  have hless : address / small % q < q := Nat.mod_lt _ (Nat.pos_of_mul_pos_left hlarge)
  have hmul : small * (address / small % q + 1) ≤ small * q := Nat.mul_le_mul_left small hless
  rw [Nat.mul_add, Nat.mul_one] at hmul
  omega

variable {chip} {info : NkSpiflashInfo}

/-- The chip is idle and the transfer buffer has room for a page. -/
def SpiReady (info : NkSpiflashInfo) (s : Bus SpiMemory) : Prop :=
  s.device.busy = 0 ∧ 1 + info.addrSize + info.pageSize ≤ s.size

/-- One pass of the loop writes the first piece of the data and waits. -/
theorem nkSpiflashWriteLoop_pass (fits : info.Fits chip) (fuel address : Nat)
    (data : List UInt8) (s : Bus SpiMemory) (hready : SpiReady info s)
    (hdata : data.length ≠ 0) (haddress : address < 256 ^ info.addrSize) :
    ∃ s₁, SpiReady info s₁ ∧
      s₁.device.mem = s.device.mem.combine chip.rule address
        (data.take (pieceLen info.pageSize address data.length)) ∧
      s₁.log = s.log ++ blockTransfers chip
        (address, data.take (pieceLen info.pageSize address data.length)) ∧
      (nkSpiflashWriteLoop info (fuel + 1) address data 0).run (serialBus chip.device) s =
        (nkSpiflashWriteLoop info fuel
            (u32 (address + pieceLen info.pageSize address data.length))
            (data.drop (pieceLen info.pageSize address data.length)) 0).run
          (serialBus chip.device) s₁ := by
  obtain ⟨hidle, hsize⟩ := hready
  obtain ⟨k, hk, hpow⟩ := fits.page_pow
  have hroom := pass_length hk address data.length
  rw [← hpow] at hroom
  have hinside := pieceLen_inside address data.length (hpow ▸ Nat.two_pow_pos k)
  have hlength : (data.take (pieceLen info.pageSize address data.length)).length =
      pieceLen info.pageSize address data.length := by
    rw [List.length_take, Nat.min_eq_left (pieceLen_le ..)]
  generalize pieceLen info.pageSize address data.length = len at hroom hinside hlength ⊢
  have hchip : address % chip.pageSize + (data.take len).length ≤ chip.pageSize := by
    rw [hlength]
    exact inside_of_dvd fits.page_dvd fits.page_pos hinside
  have hprogram := transfer_write chip (show s.enabled.device.busy = 0 from hidle) rfl
    (fits.addr_size ▸ haddress) hchip
  rw [fits.addr_size] at hprogram
  obtain ⟨buffer, hwait⟩ := run_busyWait chip
    (s := s.enabled.sent (nkFlashCmdWrite :: (bigEndian info.addrSize address ++ data.take len))
      (List.replicate (1 + (bigEndian info.addrSize address ++ data.take len).length) 0)
      ⟨s.enabled.device.mem.combine chip.rule address (data.take len), false, chip.busyReads⟩)
    (Nat.le_trans (by have := fits.addr_pos; omega) hsize) fits.patience
  refine ⟨⟨s.size, buffer, ⟨s.device.mem.combine chip.rule address (data.take len), false, 0⟩,
    s.log ++ blockTransfers chip (address, data.take len)⟩, ⟨rfl, hsize⟩, rfl, rfl, ?_⟩
  rw [nkSpiflashWriteLoop, if_neg hdata]
  simp only [hroom]
  rw [Prog.run_bind_of (run_writeEnable chip hidle (Nat.le_trans (by omega) hsize)),
    run_command (s := s.enabled) _ _ _ _ hlength
      (Nat.le_trans (by omega) hsize) hprogram, if_neg (by decide),
    nkSpiflashBusyWait]
  rw [Prog.run_bind_of hwait, if_neg (by decide)]
  simp [Bus.enabled, Bus.sent, blockTransfers, fits.addr_size]

/-- The address bytes of a chip reach no further than 32 bits. -/
theorem NkSpiflashInfo.Fits.range_le (fits : info.Fits chip) : 256 ^ info.addrSize ≤ 2 ^ 32 :=
  Nat.pow_le_pow_right (show 0 < 256 by decide) fits.addr_le

/-- `nk_spiflash_write` sends the pieces of a tiling of the range, waits after each
one, and leaves the memory programmed. -/
theorem nkSpiflashWrite_run (fits : info.Fits chip) {data : List UInt8} {s : Bus SpiMemory}
    (hready : SpiReady info s) (hrange : address + data.length ≤ 256 ^ info.addrSize) :
    ∃ s' blocks, Tiles info.pageSize address data blocks ∧
      (nkSpiflashWrite info address data).run (serialBus chip.device) s = some (0, s') ∧
      SpiReady info s' ∧ s'.device.mem = s.device.mem.combine chip.rule address data ∧
      s'.log = s.log ++ blocks.flatMap (blockTransfers chip) := by
  obtain ⟨k, hk, hpow⟩ := fits.page_pow
  exact writeLoop_run SpiMemory.mem
    (fun fuel address data => nkSpiflashWriteLoop info fuel address data 0)
    (hpow ▸ Nat.two_pow_pos k) fits.range_le (fun _ _ => rfl) (nkSpiflashWriteLoop_pass fits)
    hready (Nat.lt_succ_self _) fun _ => hrange

/-! ## Reading -/

/-- One pass of the loop reads the first piece of the range. -/
theorem nkSpiflashReadLoop_pass (fits : info.Fits chip) (fuel address count : Nat)
    (data : List UInt8) (s : Bus SpiMemory) (hready : SpiReady info s) (hcount : count ≠ 0)
    (haddress : address < 256 ^ info.addrSize) :
    ∃ s₁, SpiReady info s₁ ∧ s₁.device.mem = s.device.mem ∧
      (nkSpiflashReadLoop info (fuel + 1) address count data 0).run (serialBus chip.device) s =
        (nkSpiflashReadLoop info fuel (u32 (address + pieceLen info.pageSize address count))
            (count - pieceLen info.pageSize address count)
            (data ++ s.device.mem.read address (pieceLen info.pageSize address count)) 0).run
          (serialBus chip.device) s₁ := by
  obtain ⟨hidle, hsize⟩ := hready
  obtain ⟨k, hk, hpow⟩ := fits.page_pow
  have hroom := pass_length hk address count
  rw [← hpow] at hroom
  have hinside := pieceLen_inside address count (hpow ▸ Nat.two_pow_pos k)
  generalize pieceLen info.pageSize address count = len at hroom hinside ⊢
  let sent := nkFlashCmdRead ::
    (bigEndian info.addrSize address ++ s.buffer.read (1 + info.addrSize) len)
  let reply := List.replicate (1 + info.addrSize) 0 ++ s.device.mem.read address len
  have hread : chip.device.transfer sent s.device = ((0, reply), s.device) := by
    have htransfer := transfer_read chip (s.buffer.read (1 + info.addrSize) len) hidle
      (fits.addr_size ▸ haddress)
    rwa [fits.addr_size, Memory.read_length] at htransfer
  have hbuffer : (s.sent sent reply s.device).buffer.read (1 + info.addrSize) len =
      s.device.mem.read address len := by
    have hbehind := (s.buffer.store 0 sent).read_store_behind 0
      (List.replicate (1 + info.addrSize) 0) (s.device.mem.read address len)
    rwa [List.length_replicate, Memory.read_length, Nat.zero_add] at hbehind
  refine ⟨s.sent sent reply s.device, ⟨hidle, hsize⟩, rfl, ?_⟩
  rw [nkSpiflashReadLoop, if_neg hcount]
  simp only [hroom]
  rw [run_exchange _ _ _ _ (Nat.le_trans (by omega) hsize) hread, if_neg (by decide),
    Prog.run_bind_of (run_get (s := s.sent sent reply s.device) (Nat.le_trans (by omega) hsize)),
    hbuffer]
  rfl

/-- `nk_spiflash_read` returns the bytes of the range and leaves the chip alone. -/
theorem nkSpiflashRead_run (fits : info.Fits chip) {count : Nat} {s : Bus SpiMemory}
    (hready : SpiReady info s) (hrange : address + count ≤ 256 ^ info.addrSize) :
    ∃ s', (nkSpiflashRead info address count).run (serialBus chip.device) s =
        some ((0, s.device.mem.read address count), s') ∧
      SpiReady info s' ∧ s'.device.mem = s.device.mem := by
  obtain ⟨k, hk, hpow⟩ := fits.page_pow
  exact readLoop_run SpiMemory.mem
    (fun fuel address count data => nkSpiflashReadLoop info fuel address count data 0)
    (hpow ▸ Nat.two_pow_pos k) fits.range_le (fun _ _ _ => rfl) (nkSpiflashReadLoop_pass fits)
    [] hready (Nat.lt_succ_self _) fun _ => hrange

end LibnklabsPico.Serial
