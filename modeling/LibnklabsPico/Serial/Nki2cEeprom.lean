/-
  Serial/Nki2cEeprom.lean --- the I2C EEPROM driver of
  `libnklabs/src/nki2c_eeprom.c`, the chips it is for, and its page splitting.

  A chip takes an address and data in one write and programs the data inside its
  page; with no data the write only sets the address of the next read.  While it
  is programming it acknowledges nothing.  The calls of `nk_printf` are left out.
-/
import LibnklabsPico.Serial.SpiPaging

set_option autoImplicit false

namespace LibnklabsPico.Serial

open LibnklabsPico.Foundation LibnklabsPico.Flash

/-! ## The driver -/

/-- `struct nk_i2c_eeprom_info`.  The device and the transfer buffer are the bus. -/
structure NkI2cEepromInfo where
  pageSize : Nat
  busyTimeout : Nat
  addrSize : Nat

/-- The loop of `nk_i2c_eeprom_busy_wait`. -/
def nkI2cEepromBusyWaitLoop : Nat → SerialProg Int32
  | 0 => pure (-1)
  | polls + 1 => do
      let status ← transfer 0
      if status = 0 then pure 0
      else nkI2cEepromBusyWaitLoop polls

/-- `nk_i2c_eeprom_busy_wait` -/
def nkI2cEepromBusyWait (info : NkI2cEepromInfo) : SerialProg Int32 :=
  nkI2cEepromBusyWaitLoop info.busyTimeout

/-- The loop of `nk_i2c_eeprom_write`: write a page at a time. -/
def nkI2cEepromWriteLoop (info : NkI2cEepromInfo) :
    Nat → Nat → List UInt8 → Int32 → SerialProg Int32
  | 0, _, _, _ => spin
  | fuel + 1, address, data, status =>
      if data.length = 0 then pure status
      else
        let transferLen := pageRoom info.pageSize address
        let transferLen := if data.length < transferLen then data.length else transferLen
        do
          putAddress 0 info.addrSize address
          put info.addrSize (data.take transferLen)
          let status := status ||| (← transfer (info.addrSize + transferLen))
          if status ≠ 0 then pure status
          else do
            let status := status ||| (← nkI2cEepromBusyWait info)
            if status ≠ 0 then pure status
            else
              nkI2cEepromWriteLoop info fuel (u32 (address + transferLen))
                (data.drop transferLen) status

/-- `nk_i2c_eeprom_write` -/
def nkI2cEepromWrite (info : NkI2cEepromInfo) (address : Nat) (data : List UInt8) :
    SerialProg Int32 :=
  nkI2cEepromWriteLoop info (data.length + 1) address data 0

/-- The loop of `nk_i2c_eeprom_read`: read a page at a time, behind `data`. -/
def nkI2cEepromReadLoop (info : NkI2cEepromInfo) :
    Nat → Nat → Nat → List UInt8 → Int32 → SerialProg (Int32 × List UInt8)
  | 0, _, _, _, _ => spin
  | fuel + 1, address, byteCount, data, status =>
      if byteCount = 0 then pure (status, data)
      else
        let transferLen := pageRoom info.pageSize address
        let transferLen := if byteCount < transferLen then byteCount else transferLen
        do
          putAddress 0 info.addrSize address
          let status := status ||| (← transfer info.addrSize)
          if status ≠ 0 then pure (status, data)
          else do
            let (read, bytes) ← receive transferLen
            let status := status ||| read
            if status ≠ 0 then pure (status, data ++ bytes)
            else
              nkI2cEepromReadLoop info fuel (u32 (address + transferLen))
                (byteCount - transferLen) (data ++ bytes) status

/-- `nk_i2c_eeprom_read`: its return value and the bytes it stores. -/
def nkI2cEepromRead (info : NkI2cEepromInfo) (address byteCount : Nat) :
    SerialProg (Int32 × List UInt8) :=
  nkI2cEepromReadLoop info (byteCount + 1) address byteCount [] 0

/-! ## The chips -/

/-- A kind of I2C memory. -/
structure I2cChip where
  pageSize : Nat
  addrSize : Nat
  /-- what a byte and the byte programmed over it become -/
  rule : UInt8 → UInt8 → UInt8
  /-- calls that are not acknowledged after a program -/
  busyCalls : Nat

/-- The state of a chip, with the address of the next read. -/
structure I2cMemory where
  mem : Memory
  pointer : Nat
  busy : Nat

/-- What a chip does with the bytes written to it. -/
def I2cChip.write (chip : I2cChip) (sent : List UInt8) (dev : I2cMemory) :
    (Int32 × List UInt8) × I2cMemory :=
  let address := ofBigEndian (sent.take chip.addrSize)
  let data := sent.drop chip.addrSize
  if dev.busy ≠ 0 then ((-1, []), { dev with busy := dev.busy - 1 })
  else if sent.length < chip.addrSize then ((0, []), dev)
  else if data.length = 0 then ((0, []), { dev with pointer := address })
  else
    ((0, []),
      { mem := pageProgram chip.rule chip.pageSize address data dev.mem
        pointer := address + data.length, busy := chip.busyCalls })

/-- What a chip answers when it is read. -/
def I2cChip.read (len : Nat) (dev : I2cMemory) : (Int32 × List UInt8) × I2cMemory :=
  if dev.busy ≠ 0 then ((-1, []), { dev with busy := dev.busy - 1 })
  else ((0, dev.mem.read dev.pointer len), { dev with pointer := dev.pointer + len })

/-- A chip on the bus.  A write leaves the transfer buffer as it is. -/
def I2cChip.device (chip : I2cChip) : SerialDevice I2cMemory where
  transfer := chip.write
  receive := I2cChip.read

/-- The driver is set up for the chip. -/
structure NkI2cEepromInfo.Fits (info : NkI2cEepromInfo) (chip : I2cChip) : Prop where
  page_pow : ∃ k < 32, info.pageSize = 2 ^ k
  page_dvd : info.pageSize ∣ chip.pageSize
  page_pos : 0 < chip.pageSize
  addr_size : chip.addrSize = info.addrSize
  addr_pos : 1 ≤ info.addrSize
  addr_le : info.addrSize ≤ 4
  patience : chip.busyCalls < info.busyTimeout

section
variable (chip : I2cChip) {dev : I2cMemory} {address : Nat}

theorem I2cChip.device_transfer (sent : List UInt8) :
    chip.device.transfer sent dev = chip.write sent dev := rfl

/-- An idle chip programs data inside one of its pages. -/
theorem write_data {data : List UInt8} (hidle : dev.busy = 0) (hdata : data.length ≠ 0)
    (haddress : address < 256 ^ chip.addrSize)
    (hin : address % chip.pageSize + data.length ≤ chip.pageSize) :
    chip.device.transfer (bigEndian chip.addrSize address ++ data) dev =
      ((0, []), ⟨dev.mem.combine chip.rule address data, address + data.length,
        chip.busyCalls⟩) := by
  have hlength := bigEndian_length chip.addrSize address
  have hlong : ¬ (bigEndian chip.addrSize address ++ data).length < chip.addrSize := by
    rw [List.length_append, hlength]
    omega
  rw [I2cChip.device_transfer, I2cChip.write]
  simp only [if_neg (not_not.mpr hidle), if_neg hlong, List.take_left' hlength,
    List.drop_left' hlength, if_neg hdata, ofBigEndian_bigEndian haddress,
    pageProgram_inside data dev.mem hin]

/-- An idle chip takes the address of the next read. -/
theorem write_address (hidle : dev.busy = 0) (haddress : address < 256 ^ chip.addrSize) :
    chip.device.transfer (bigEndian chip.addrSize address) dev =
      ((0, []), { dev with pointer := address }) := by
  have hlength := bigEndian_length chip.addrSize address
  rw [I2cChip.device_transfer, I2cChip.write]
  simp only [if_neg (not_not.mpr hidle), hlength, Nat.lt_irrefl, if_false,
    List.take_of_length_le (Nat.le_of_eq hlength),
    List.drop_of_length_le (Nat.le_of_eq hlength), List.length_nil, if_true,
    ofBigEndian_bigEndian haddress]

/-- A poll. -/
theorem write_nil (haddr : 1 ≤ chip.addrSize) :
    chip.device.transfer [] dev =
      ((if dev.busy = 0 then 0 else -1, []), { dev with busy := dev.busy - 1 }) := by
  rw [I2cChip.device_transfer, I2cChip.write]
  by_cases hbusy : dev.busy = 0
  · rw [if_neg (not_not.mpr hbusy), if_pos (by exact haddr), if_pos hbusy, hbusy]
    cases dev
    simp_all
  · rw [if_pos hbusy, if_neg hbusy]

/-! ## Polling -/

/-- With enough patience the driver waits until the chip acknowledges. -/
theorem run_i2cBusyWait (haddr : 1 ≤ chip.addrSize) {s : Bus I2cMemory} {polls : Nat}
    (hpatience : s.device.busy < polls) :
    (nkI2cEepromBusyWaitLoop polls).run (serialBus chip.device) s =
      some (0, ⟨s.size, s.buffer, { s.device with busy := 0 },
        s.log ++ List.replicate (s.device.busy + 1) []⟩) := by
  induction polls generalizing s with
  | zero => exact absurd hpatience (Nat.not_lt_zero _)
  | succ polls ih =>
      have hpoll : (transfer 0).run (serialBus chip.device) s =
          some (if s.device.busy = 0 then 0 else -1,
            ⟨s.size, s.buffer, { s.device with busy := s.device.busy - 1 }, s.log ++ [[]]⟩) := by
        have htransfer := run_transfer (d := chip.device) (Nat.zero_le s.size)
        have hnil : s.buffer.read 0 0 = [] := rfl
        rw [htransfer, Bus.transferred, hnil, write_nil chip haddr, Memory.store_nil]
      rw [nkI2cEepromBusyWaitLoop, Prog.run_bind_of hpoll]
      by_cases hbusy : s.device.busy = 0
      · rw [if_pos hbusy, if_pos rfl, Prog.run_pure, hbusy]
        rfl
      · have hless : s.device.busy - 1 < polls := by omega
        have hcount : s.device.busy - 1 + 1 = s.device.busy := by omega
        rw [if_neg hbusy, if_neg (by decide), ih (by exact hless)]
        simp only [hcount, List.append_assoc, List.singleton_append, List.replicate_succ]

end

end LibnklabsPico.Serial
