/-
  Serial/I2cPaging.lean --- writing and reading an I2C EEPROM page by page, and the
  page splitting of both serial memory drivers.
-/
import LibnklabsPico.Serial.Nki2cEeprom

set_option autoImplicit false

namespace LibnklabsPico.Serial

open LibnklabsPico.Foundation LibnklabsPico.Flash

variable {chip : I2cChip} {info : NkI2cEepromInfo} {address : Nat}

theorem NkI2cEepromInfo.Fits.range_le (fits : info.Fits chip) :
    256 ^ info.addrSize ≤ 2 ^ 32 :=
  Nat.pow_le_pow_right (show 0 < 256 by decide) fits.addr_le

/-! ## Writing -/

/-- Everything that is sent to write one block. -/
def i2cBlockTransfers (chip : I2cChip) (block : Nat × List UInt8) : List (List UInt8) :=
  (bigEndian chip.addrSize block.1 ++ block.2) :: List.replicate (chip.busyCalls + 1) []

/-- Send an address and data. -/
theorem run_addressed {σ α : Type} {d : SerialDevice σ} {s : Bus σ} {status : Int32}
    {reply : List UInt8} {device : σ} {f : Int32 → SerialProg α} (n address len : Nat)
    {data : List UInt8} (hlen : data.length = len) (hsize : n + len ≤ s.size)
    (hreply : d.transfer (bigEndian n address ++ data) s.device = ((status, reply), device)) :
    (do putAddress 0 n address
        put n data
        let status ← transfer (n + len)
        f status : SerialProg α).run (serialBus d) s =
      (f status).run (serialBus d) (s.sent (bigEndian n address ++ data) reply device) := by
  have hdata := s.buffer.store_append 0 (bigEndian n address) data
  rw [bigEndian_length, Nat.zero_add] at hdata
  rw [Prog.run_bind_of (run_putAddress (by omega)),
    Prog.run_bind_of (run_put (by rw [hlen]; exact hsize))]
  simp only [hdata]
  refine run_transfer_put ?_ hsize hreply
  rw [List.length_append, bigEndian_length, hlen]

/-- The chip is idle and the transfer buffer has room for a page. -/
def I2cReady (info : NkI2cEepromInfo) (s : Bus I2cMemory) : Prop :=
  s.device.busy = 0 ∧ info.addrSize + info.pageSize ≤ s.size

/-- One pass of the loop writes the first piece of the data and waits. -/
theorem nkI2cEepromWriteLoop_pass (fits : info.Fits chip) (fuel address : Nat)
    (data : List UInt8) (s : Bus I2cMemory) (hready : I2cReady info s)
    (hdata : data.length ≠ 0) (haddress : address < 256 ^ info.addrSize) :
    ∃ s₁, I2cReady info s₁ ∧
      s₁.device.mem = s.device.mem.combine chip.rule address
        (data.take (pieceLen info.pageSize address data.length)) ∧
      s₁.log = s.log ++ i2cBlockTransfers chip
        (address, data.take (pieceLen info.pageSize address data.length)) ∧
      (nkI2cEepromWriteLoop info (fuel + 1) address data 0).run (serialBus chip.device) s =
        (nkI2cEepromWriteLoop info fuel
            (u32 (address + pieceLen info.pageSize address data.length))
            (data.drop (pieceLen info.pageSize address data.length)) 0).run
          (serialBus chip.device) s₁ := by
  obtain ⟨hidle, hsize⟩ := hready
  obtain ⟨k, hk, hpow⟩ := fits.page_pow
  have hroom := pass_length hk address data.length
  rw [← hpow] at hroom
  have hpage : 0 < info.pageSize := hpow ▸ Nat.two_pow_pos k
  have hinside := pieceLen_inside address data.length hpage
  have hpos := pieceLen_pos address hpage hdata
  have hlength : (data.take (pieceLen info.pageSize address data.length)).length =
      pieceLen info.pageSize address data.length := by
    rw [List.length_take, Nat.min_eq_left (pieceLen_le ..)]
  generalize pieceLen info.pageSize address data.length = len at hroom hinside hpos hlength ⊢
  have hchip : address % chip.pageSize + (data.take len).length ≤ chip.pageSize := by
    rw [hlength]
    exact inside_of_dvd fits.page_dvd fits.page_pos hinside
  have hprogram := write_data chip hidle (by omega) (fits.addr_size ▸ haddress) hchip
  rw [fits.addr_size] at hprogram
  have hwait := run_i2cBusyWait chip (fits.addr_size ▸ fits.addr_pos)
    (s := s.sent (bigEndian info.addrSize address ++ data.take len) []
      ⟨s.device.mem.combine chip.rule address (data.take len),
        address + (data.take len).length, chip.busyCalls⟩) fits.patience
  refine ⟨⟨s.size, s.buffer.store 0 (bigEndian info.addrSize address ++ data.take len),
    ⟨s.device.mem.combine chip.rule address (data.take len),
      address + (data.take len).length, 0⟩,
    s.log ++ i2cBlockTransfers chip (address, data.take len)⟩, ⟨rfl, hsize⟩, rfl, rfl, ?_⟩
  rw [nkI2cEepromWriteLoop, if_neg hdata]
  simp only [hroom]
  rw [run_addressed _ _ _ hlength (Nat.le_trans (by omega) hsize) hprogram,
    if_neg (by decide), nkI2cEepromBusyWait, Prog.run_bind_of hwait, if_neg (by decide)]
  simp [Bus.sent, i2cBlockTransfers, fits.addr_size]

/-- `nk_i2c_eeprom_write` sends the pieces of a tiling of the range, waits after each
one, and leaves the memory programmed. -/
theorem nkI2cEepromWrite_run (fits : info.Fits chip) {data : List UInt8} {s : Bus I2cMemory}
    (hready : I2cReady info s) (hrange : address + data.length ≤ 256 ^ info.addrSize) :
    ∃ s' blocks, Tiles info.pageSize address data blocks ∧
      (nkI2cEepromWrite info address data).run (serialBus chip.device) s = some (0, s') ∧
      I2cReady info s' ∧ s'.device.mem = s.device.mem.combine chip.rule address data ∧
      s'.log = s.log ++ blocks.flatMap (i2cBlockTransfers chip) := by
  obtain ⟨k, hk, hpow⟩ := fits.page_pow
  exact writeLoop_run I2cMemory.mem
    (fun fuel address data => nkI2cEepromWriteLoop info fuel address data 0)
    (hpow ▸ Nat.two_pow_pos k) fits.range_le (fun _ _ => rfl) (nkI2cEepromWriteLoop_pass fits)
    hready (Nat.lt_succ_self _) fun _ => hrange

/-! ## Reading -/

/-- An idle chip reads from its address on. -/
theorem run_receive_idle {s : Bus I2cMemory} (hidle : s.device.busy = 0) (len : Nat) :
    (receive len).run (serialBus chip.device) s =
      some ((0, s.device.mem.read s.device.pointer len),
        { s with device := { s.device with pointer := s.device.pointer + len } }) := by
  have hread : chip.device.receive len s.device =
      ((0, s.device.mem.read s.device.pointer len),
        { s.device with pointer := s.device.pointer + len }) := by
    change I2cChip.read len s.device = _
    rw [I2cChip.read, if_neg (not_not.mpr hidle)]
  rw [run_receive, hread]

/-- One pass of the loop reads the first piece of the range. -/
theorem nkI2cEepromReadLoop_pass (fits : info.Fits chip) (fuel address count : Nat)
    (data : List UInt8) (s : Bus I2cMemory) (hready : I2cReady info s) (hcount : count ≠ 0)
    (haddress : address < 256 ^ info.addrSize) :
    ∃ s₁, I2cReady info s₁ ∧ s₁.device.mem = s.device.mem ∧
      (nkI2cEepromReadLoop info (fuel + 1) address count data 0).run
          (serialBus chip.device) s =
        (nkI2cEepromReadLoop info fuel (u32 (address + pieceLen info.pageSize address count))
            (count - pieceLen info.pageSize address count)
            (data ++ s.device.mem.read address (pieceLen info.pageSize address count)) 0).run
          (serialBus chip.device) s₁ := by
  obtain ⟨hidle, hsize⟩ := hready
  obtain ⟨k, hk, hpow⟩ := fits.page_pow
  have hroom := pass_length hk address count
  rw [← hpow] at hroom
  have haddr := write_address chip hidle (fits.addr_size ▸ haddress)
  rw [fits.addr_size] at haddr
  refine ⟨⟨s.size, s.buffer.store 0 (bigEndian info.addrSize address),
    { s.device with pointer := address + pieceLen info.pageSize address count },
    s.log ++ [bigEndian info.addrSize address]⟩, ⟨hidle, hsize⟩, rfl, ?_⟩
  rw [nkI2cEepromReadLoop, if_neg hcount]
  simp only [hroom]
  rw [Prog.run_bind_of (run_putAddress (by omega)),
    run_transfer_put (bigEndian_length ..) (by omega) haddr, if_neg (by decide),
    Prog.run_bind_of (run_receive_idle (s := s.sent (bigEndian info.addrSize address) []
      { s.device with pointer := address }) hidle _)]
  simp only [Bus.sent, Memory.store_nil, show (0 ||| 0 : Int32) = 0 from rfl, ne_eq,
    not_true, if_false]

/-- `nk_i2c_eeprom_read` returns the bytes of the range and leaves the memory alone. -/
theorem nkI2cEepromRead_run (fits : info.Fits chip) {count : Nat} {s : Bus I2cMemory}
    (hready : I2cReady info s) (hrange : address + count ≤ 256 ^ info.addrSize) :
    ∃ s', (nkI2cEepromRead info address count).run (serialBus chip.device) s =
        some ((0, s.device.mem.read address count), s') ∧
      I2cReady info s' ∧ s'.device.mem = s.device.mem := by
  obtain ⟨k, hk, hpow⟩ := fits.page_pow
  exact readLoop_run I2cMemory.mem
    (fun fuel address count data => nkI2cEepromReadLoop info fuel address count data 0)
    (hpow ▸ Nat.two_pow_pos k) fits.range_le (fun _ _ _ => rfl)
    (nkI2cEepromReadLoop_pass fits) [] hready (Nat.lt_succ_self _) fun _ => hrange

/-! ## Page splitting -/

/-- A write of `data` at `address` was split exactly: what was sent are the transfers
for blocks inside pages that make up the data once and in order, every byte of the
range was programmed by the rule of the chip, and every other byte is unchanged. -/
def SplitExactly (pageSize address : Nat) (data : List UInt8)
    (transfers : Nat × List UInt8 → List (List UInt8)) (rule : UInt8 → UInt8 → UInt8)
    (sent : List (List UInt8)) (mem mem' : Memory) : Prop :=
  ∃ blocks, Tiles pageSize address data blocks ∧ sent = blocks.flatMap transfers ∧
    (∀ i, (hi : i < data.length) → mem' (address + i) = rule (mem (address + i)) data[i]) ∧
    ∀ a, a < address ∨ address + data.length ≤ a → mem' a = mem a

theorem splitExactly_of_combine {pageSize : Nat} {data : List UInt8}
    {transfers : Nat × List UInt8 → List (List UInt8)} {rule : UInt8 → UInt8 → UInt8}
    {mem : Memory} {blocks : List (Nat × List UInt8)}
    (htiles : Tiles pageSize address data blocks) :
    SplitExactly pageSize address data transfers rule (blocks.flatMap transfers) mem
      (mem.combine rule address data) :=
  ⟨blocks, htiles, rfl, fun _ hi => mem.combine_inside hi, fun _ => Memory.combine_outside⟩

/-- Page splitting in the serial memory drivers is exact: for every set-up of a driver
that fits its chip, every range the address bytes reach and a transfer buffer with room
for a page, writes are split exactly and reads return the bytes of the range. -/
theorem pageSplitting_exact {spi : NkSpiflashInfo} {flash : SpiChip} (hspi : spi.Fits flash)
    {s : Bus SpiMemory} (hs : SpiReady spi s) {i2c : NkI2cEepromInfo} {eeprom : I2cChip}
    (hi2c : i2c.Fits eeprom) {t : Bus I2cMemory} (ht : I2cReady i2c t) (address : Nat) :
    (∀ data : List UInt8, address + data.length ≤ 256 ^ spi.addrSize →
      ∃ s' sent, (nkSpiflashWrite spi address data).run (serialBus flash.device) s =
          some (0, s') ∧ s'.log = s.log ++ sent ∧
        SplitExactly spi.pageSize address data (blockTransfers flash) flash.rule sent
          s.device.mem s'.device.mem) ∧
    (∀ count : Nat, address + count ≤ 256 ^ spi.addrSize →
      ∃ s', (nkSpiflashRead spi address count).run (serialBus flash.device) s =
          some ((0, s.device.mem.read address count), s') ∧
        s'.device.mem = s.device.mem) ∧
    (∀ data : List UInt8, address + data.length ≤ 256 ^ i2c.addrSize →
      ∃ t' sent, (nkI2cEepromWrite i2c address data).run (serialBus eeprom.device) t =
          some (0, t') ∧ t'.log = t.log ++ sent ∧
        SplitExactly i2c.pageSize address data (i2cBlockTransfers eeprom) eeprom.rule sent
          t.device.mem t'.device.mem) ∧
    (∀ count : Nat, address + count ≤ 256 ^ i2c.addrSize →
      ∃ t', (nkI2cEepromRead i2c address count).run (serialBus eeprom.device) t =
          some ((0, t.device.mem.read address count), t') ∧
        t'.device.mem = t.device.mem) := by
  refine ⟨?_, ?_, ?_, ?_⟩
  · intro data hrange
    obtain ⟨s', blocks, htiles, hrun, -, hmem, hlog⟩ := nkSpiflashWrite_run hspi hs hrange
    exact ⟨s', _, hrun, hlog, hmem ▸ splitExactly_of_combine htiles⟩
  · intro count hrange
    obtain ⟨s', hrun, -, hmem⟩ := nkSpiflashRead_run hspi hs hrange
    exact ⟨s', hrun, hmem⟩
  · intro data hrange
    obtain ⟨t', blocks, htiles, hrun, -, hmem, hlog⟩ := nkI2cEepromWrite_run hi2c ht hrange
    exact ⟨t', _, hrun, hlog, hmem ▸ splitExactly_of_combine htiles⟩
  · intro count hrange
    obtain ⟨t', hrun, -, hmem⟩ := nkI2cEepromRead_run hi2c ht hrange
    exact ⟨t', hrun, hmem⟩

/-- A flash and an EEPROM with pages of four bytes: two bytes across a boundary. -/
theorem pageSplitting_exact_four :
    let flash : SpiChip := ⟨4, 1, fun old new => old &&& new, fun _ => none, 2⟩
    let eeprom : I2cChip := ⟨4, 1, fun _ new => new, 2⟩
    (∃ s', (nkSpiflashWrite ⟨4, 3, 1, []⟩ 3 [1, 2]).run (serialBus flash.device)
        ⟨6, fun _ => 0, ⟨fun _ => 0xFF, false, 0⟩, []⟩ = some (0, s') ∧
      s'.device.mem 4 = 2 ∧ s'.device.mem 0 = 0xFF) ∧
    ∃ t', (nkI2cEepromRead ⟨4, 3, 1⟩ 3 2).run (serialBus eeprom.device)
      ⟨6, fun _ => 0, ⟨fun a => UInt8.ofNat a, 0, 0⟩, []⟩ = some ((0, [3, 4]), t') := by
  have hspi : (⟨4, 3, 1, []⟩ : NkSpiflashInfo).Fits
      ⟨4, 1, fun old new => old &&& new, fun _ => none, 2⟩ :=
    ⟨⟨2, by decide, rfl⟩, by decide, by decide, rfl, by decide, by decide, by decide⟩
  have hs : SpiReady ⟨4, 3, 1, []⟩ ⟨6, fun _ => 0, ⟨fun _ => 0xFF, false, 0⟩, []⟩ :=
    ⟨rfl, by decide⟩
  have hi2c : (⟨4, 3, 1⟩ : NkI2cEepromInfo).Fits ⟨4, 1, fun _ new => new, 2⟩ :=
    ⟨⟨2, by decide, rfl⟩, by decide, by decide, rfl, by decide, by decide, by decide⟩
  have ht : I2cReady ⟨4, 3, 1⟩ ⟨6, fun _ => 0, ⟨fun a => UInt8.ofNat a, 0, 0⟩, []⟩ :=
    ⟨rfl, by decide⟩
  obtain ⟨hwrite, -, -, hread⟩ := pageSplitting_exact hspi hs hi2c ht 3
  obtain ⟨s', sent, hrun, -, blocks, -, -, hin, hout⟩ := hwrite [1, 2] (by decide)
  obtain ⟨t', hrun', -⟩ := hread 2 (by decide)
  exact ⟨⟨s', hrun, hin 1 (by decide), hout 0 (by decide)⟩, t', hrun'⟩

end LibnklabsPico.Serial
