/-
  Serial/Nkspiflash.lean --- the SPI flash driver of `libnklabs/src/nkspiflash.c`
  and the memory chips it is for.

  The driver functions print nothing here: the calls of `nk_printf` in
  `nk_spiflash_erase` and `nk_spiflash_crc` are left out.

  `SpiChip` describes a chip: the page in which a page program wraps, its address
  bytes, how a byte is programmed, its erase commands, and how many status reads
  answer busy after an erase or a program.  While it is busy it ignores
  everything but status reads.
-/
import LibnklabsPico.Flash.Nkcrclib
import LibnklabsPico.Serial.PageLoops

set_option autoImplicit false

namespace LibnklabsPico.Serial

open LibnklabsPico.Foundation LibnklabsPico.Flash

/-! ## The driver -/

def nkFlashCmdWriteEnable : UInt8 := 0x06
def nkFlashCmdReadStatus : UInt8 := 0x05
def nkFlashCmdWrite : UInt8 := 0x02
def nkFlashCmdRead : UInt8 := 0x03

/-- An entry of `erase_options`. -/
structure EraseOption where
  eraseSize : Nat
  eraseCmd : UInt8

/-- `struct nk_spiflash_info`.  The transfer function and the transfer buffer are
the bus. -/
structure NkSpiflashInfo where
  pageSize : Nat
  busyTimeout : Nat
  addrSize : Nat
  eraseOptions : List EraseOption

/-- `nk_spiflash_write_enable` -/
def nkSpiflashWriteEnable : SerialProg Int32 := do
  put 0 [nkFlashCmdWriteEnable]
  transfer 1

/-- The loop of `nk_spiflash_busy_wait`. -/
def nkSpiflashBusyWaitLoop : Nat → Int32 → SerialProg Int32
  | 0, _ => pure (-1)
  | polls + 1, status => do
      put 0 [nkFlashCmdReadStatus]
      put 1 [0]
      let status := status ||| (← transfer 2)
      if status ≠ 0 then pure status
      else do
        let reply ← get 1 1
        if reply.headD 0 &&& 1 = 0 then pure status
        else nkSpiflashBusyWaitLoop polls status

/-- `nk_spiflash_busy_wait` -/
def nkSpiflashBusyWait (info : NkSpiflashInfo) : SerialProg Int32 :=
  nkSpiflashBusyWaitLoop info.busyTimeout 0

/-- `(address & (erase_size - 1)) == 0 && byte_count >= erase_size` -/
def EraseOption.matches (option : EraseOption) (address byteCount : Nat) : Bool :=
  (address &&& wrap 32 ((option.eraseSize : Int) - 1)) == 0 && option.eraseSize ≤ byteCount

/-- The loop of `nk_spiflash_erase`. -/
def nkSpiflashEraseLoop (info : NkSpiflashInfo) : Nat → Nat → Nat → Int32 → SerialProg Int32
  | 0, _, _, _ => spin
  | fuel + 1, address, byteCount, status =>
      -- As long as we're not done..
      if byteCount = 0 then pure status
      else
        match info.eraseOptions.find? fun option => option.matches address byteCount with
        | some option => do
            let status := status ||| (← nkSpiflashWriteEnable)
            put 0 [option.eraseCmd]
            putAddress 1 info.addrSize address
            let status := status ||| (← transfer (info.addrSize + 1))
            if status ≠ 0 then pure status
            else
              nkSpiflashEraseLoop info fuel (u32 (address + option.eraseSize))
                (byteCount - option.eraseSize) status
        | none => pure (-1)

/-- `nk_spiflash_erase` -/
def nkSpiflashErase (info : NkSpiflashInfo) (address byteCount : Nat) : SerialProg Int32 :=
  if info.eraseOptions.length ≠ 0 then
    nkSpiflashEraseLoop info (byteCount + 1) address byteCount 0
  else pure 0

/-- The loop of `nk_spiflash_write`: write a page at a time. -/
def nkSpiflashWriteLoop (info : NkSpiflashInfo) :
    Nat → Nat → List UInt8 → Int32 → SerialProg Int32
  | 0, _, _, _ => spin
  | fuel + 1, address, data, status =>
      if data.length = 0 then pure status
      else
        let transferLen := pageRoom info.pageSize address
        let transferLen := if data.length < transferLen then data.length else transferLen
        do
          let status := status ||| (← nkSpiflashWriteEnable)
          put 0 [nkFlashCmdWrite]
          putAddress 1 info.addrSize address
          put (1 + info.addrSize) (data.take transferLen)
          let status := status ||| (← transfer (1 + info.addrSize + transferLen))
          if status ≠ 0 then pure status
          else do
            let status := status ||| (← nkSpiflashBusyWait info)
            if status ≠ 0 then pure status
            else
              nkSpiflashWriteLoop info fuel (u32 (address + transferLen))
                (data.drop transferLen) status

/-- `nk_spiflash_write` -/
def nkSpiflashWrite (info : NkSpiflashInfo) (address : Nat) (data : List UInt8) :
    SerialProg Int32 :=
  nkSpiflashWriteLoop info (data.length + 1) address data 0

/-- The loop of `nk_spiflash_read`: read a page at a time, behind `data`. -/
def nkSpiflashReadLoop (info : NkSpiflashInfo) :
    Nat → Nat → Nat → List UInt8 → Int32 → SerialProg (Int32 × List UInt8)
  | 0, _, _, _, _ => spin
  | fuel + 1, address, byteCount, data, status =>
      if byteCount = 0 then pure (status, data)
      else
        let transferLen := pageRoom info.pageSize address
        let transferLen := if byteCount < transferLen then byteCount else transferLen
        do
          put 0 [nkFlashCmdRead]
          putAddress 1 info.addrSize address
          let status := status ||| (← transfer (1 + info.addrSize + transferLen))
          if status ≠ 0 then pure (status, data)
          else do
            let bytes ← get (1 + info.addrSize) transferLen
            nkSpiflashReadLoop info fuel (u32 (address + transferLen))
              (byteCount - transferLen) (data ++ bytes) status

/-- `nk_spiflash_read`: its return value and the bytes it stores. -/
def nkSpiflashRead (info : NkSpiflashInfo) (address byteCount : Nat) :
    SerialProg (Int32 × List UInt8) :=
  nkSpiflashReadLoop info (byteCount + 1) address byteCount [] 0

/-! ## The chips -/

/-- A kind of SPI memory. -/
structure SpiChip where
  pageSize : Nat
  addrSize : Nat
  /-- what a byte and the byte programmed over it become -/
  rule : UInt8 → UInt8 → UInt8
  /-- the size of the block that an erase command erases -/
  eraseSize : UInt8 → Option Nat
  /-- status reads that answer busy after an erase or a program -/
  busyReads : Nat

/-- The state of a chip. -/
structure SpiMemory where
  mem : Memory
  writeEnabled : Bool
  busy : Nat

/-- Program bytes one after the other; behind the last byte of the page the
address goes back to the first. -/
def pageProgram (rule : UInt8 → UInt8 → UInt8) (pageSize : Nat) :
    Nat → List UInt8 → Memory → Memory
  | _, [], mem => mem
  | address, b :: data, mem =>
      pageProgram rule pageSize (address - address % pageSize + (address % pageSize + 1) % pageSize)
        data (mem.combine rule address [b])

/-- What a chip that is not busy does with a command. -/
def SpiChip.obey (chip : SpiChip) (cmd : UInt8) (args : List UInt8) (dev : SpiMemory) :
    List UInt8 × SpiMemory :=
  let address := ofBigEndian (args.take chip.addrSize)
  let data := args.drop chip.addrSize
  let silence := List.replicate (1 + args.length) 0
  if cmd = nkFlashCmdWriteEnable then (silence, { dev with writeEnabled := true })
  else if cmd = nkFlashCmdRead then
    (List.replicate (1 + chip.addrSize) 0 ++ dev.mem.read address data.length, dev)
  else if dev.writeEnabled = false then (silence, dev)
  else if cmd = nkFlashCmdWrite then
    (silence,
      { mem := pageProgram chip.rule chip.pageSize address data dev.mem
        writeEnabled := false, busy := chip.busyReads })
  else
    match chip.eraseSize cmd with
    | some size =>
        (silence,
          { mem := dev.mem.erase (address - address % size) size
            writeEnabled := false, busy := chip.busyReads })
    | none => (silence, dev)

/-- A transfer to a chip.  It never fails. -/
def SpiChip.transfer (chip : SpiChip) (sent : List UInt8) (dev : SpiMemory) :
    (Int32 × List UInt8) × SpiMemory :=
  match sent with
  | [] => ((0, []), dev)
  | cmd :: args =>
      if cmd = nkFlashCmdReadStatus then
        ((0, 0 :: List.replicate args.length (if dev.busy = 0 then 0 else 1)),
          { dev with busy := dev.busy - 1 })
      else if dev.busy ≠ 0 then ((0, List.replicate (1 + args.length) 0), dev)
      else ((0, (chip.obey cmd args dev).1), (chip.obey cmd args dev).2)

/-- A chip on the bus.  It only speaks in transfers. -/
def SpiChip.device (chip : SpiChip) : SerialDevice SpiMemory where
  transfer := chip.transfer
  receive _ dev := ((-1, []), dev)

/-- The driver is set up for the chip: pages of two to a power within the pages of
the chip, its number of address bytes, and enough patience. -/
structure NkSpiflashInfo.Fits (info : NkSpiflashInfo) (chip : SpiChip) : Prop where
  page_pow : ∃ k < 32, info.pageSize = 2 ^ k
  page_dvd : info.pageSize ∣ chip.pageSize
  page_pos : 0 < chip.pageSize
  addr_size : chip.addrSize = info.addrSize
  addr_pos : 1 ≤ info.addrSize
  addr_le : info.addrSize ≤ 4
  patience : chip.busyReads < info.busyTimeout

end LibnklabsPico.Serial
