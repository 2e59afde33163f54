/-
  Flash/Nkchecked.lean --- the CRC-checked file of `libnklabs/src/nkchecked.c`.

  Addresses and sizes are `uint32_t`; `size_t` has 32 bits as well.  The buffer
  that the reading functions are given is scratch memory: the bytes of a
  `flash_read` are used at once.  The loops run on fuel, one unit for each byte,
  which is enough whenever a pass handles at least one byte.
-/
import LibnklabsPico.Flash.Pages
import LibnklabsPico.Flash.Nkcrclib

set_option autoImplicit false

namespace LibnklabsPico.Flash

open LibnklabsPico.Foundation

/-- `nk_checked_base_t` -/
structure NkCheckedBase where
  /-- size of flash area -/
  areaSize : Nat
  /-- location of flash area -/
  areaBase : Nat
  /-- flash erase size -/
  eraseSize : Nat
  /-- `flash_erase` is not the null pointer -/
  hasErase : Bool
  granularity : Nat

/-- `nk_checked_t` -/
structure NkChecked where
  file : NkCheckedBase
  crc : UInt32
  size : Nat

/-- A `uint32_t` in memory, least significant byte first. -/
def le32 (x : Nat) : List UInt8 :=
  [UInt8.ofNat x, UInt8.ofNat (x / 2 ^ 8), UInt8.ofNat (x / 2 ^ 16), UInt8.ofNat (x / 2 ^ 24)]

/-- The `uint32_t` at an offset of a memory. -/
def getLe32 (bytes : List UInt8) (i : Nat) : Nat :=
  (bytes.getD i 0).toNat + 2 ^ 8 * (bytes.getD (i + 1) 0).toNat +
    2 ^ 16 * (bytes.getD (i + 2) 0).toNat + 2 ^ 24 * (bytes.getD (i + 3) 0).toNat

/-- `nk_checked_header_t` in memory: the size of the file and its CRC. -/
def nkCheckedHeader (size : Nat) (crc : UInt32) : List UInt8 := le32 size ++ le32 crc.toNat

/-- `sizeof(nk_checked_header_t)` -/
def headerSize : Nat := 8

theorem nkCheckedHeader_length (size : Nat) (crc : UInt32) :
    (nkCheckedHeader size crc).length = headerSize := rfl

/-- The CRC loop of `nk_checked_read_open`. -/
def nkCheckedCrc (flashRead : FlashRead) (bufSize : Nat) :
    Nat → Nat → Nat → UInt32 → Int × UInt32
  | 0, _, _, crc => (0, crc)
  | fuel + 1, size, addr, crc =>
      if size = 0 then (0, crc)
      else
        let len := if bufSize < size then bufSize else size
        let (rtn, buffer) := flashRead addr len
        if rtn ≠ 0 then (rtn, crc)
        else
          nkCheckedCrc flashRead bufSize fuel (size - len) (u32 (addr + len))
            (buffer.foldl nkCrc32beUpdate crc)

/-- `nk_checked_read_open` -/
def nkCheckedReadOpen (flashRead : FlashRead) (varFile : NkChecked) (file : NkCheckedBase)
    (bufSize : Nat) : Int × NkChecked :=
  let varFile := { varFile with file := file }
  -- Get header
  let (rtn, buffer) := flashRead file.areaBase headerSize
  if rtn ≠ 0 then (rtn, varFile)
  else
    let varFile :=
      { varFile with size := getLe32 buffer 0, crc := UInt32.ofNat (getLe32 buffer 4) }
    -- Is size good?
    if wrap 32 ((file.areaSize : Int) - headerSize) < varFile.size then (-1, varFile)
    else
      -- How about CRC?
      let (rtn, crc) :=
        nkCheckedCrc flashRead bufSize varFile.size varFile.size
          (u32 (headerSize + file.areaBase)) 0
      if rtn ≠ 0 then (rtn, varFile)
      else if crc ≠ varFile.crc then (-1, varFile)
      else (0, varFile)

/-- The length of a read that stops at the end of the file. -/
def readLen (size offset bufSize : Nat) : Nat :=
  if size < u32 (offset + bufSize) then wrap 32 ((size : Int) - offset) else bufSize

/-- `nk_checked_read`: the bytes stored in the buffer; their number is the
return value. -/
def nkCheckedRead (flashRead : FlashRead) (varFile : NkChecked) (offset bufSize : Nat) :
    List UInt8 :=
  let len := readLen varFile.size offset bufSize
  if len ≠ 0 then
    let (rtn, buffer) := flashRead (u32 (varFile.file.areaBase + headerSize + offset)) len
    if rtn ≠ 0 then [] else buffer
  else []

/-- `nk_checked_write_open`: erases the first block of the area. -/
def nkCheckedWriteOpen (file : NkCheckedBase) : FlashProg (Int × NkChecked) := do
  let varFile : NkChecked := { file := file, crc := 0, size := 0 }
  if file.hasErase then
    let rtn ← flashErase file.areaBase file.eraseSize
    return (rtn, varFile)
  else
    let rtn ← flashWrite file.areaBase (List.replicate 8 0xFF)
    return (rtn, varFile)

/-- `nk_checked_write` -/
def nkCheckedWrite (varFile : NkChecked) (buffer : List UInt8) :
    FlashProg (Int × NkChecked) := do
  let file := varFile.file
  let address := u32 (file.areaBase + headerSize + varFile.size)
  let varFile :=
    { varFile with
      crc := buffer.foldl nkCrc32beUpdate varFile.crc
      size := u32 (varFile.size + buffer.length) }
  let rtn ← writePages file.eraseSize file.hasErase buffer.length address buffer
  return (rtn, varFile)

/-- `nk_checked_write_close`: write header. -/
def nkCheckedWriteClose (varFile : NkChecked) : FlashProg Int :=
  flashWrite varFile.file.areaBase (nkCheckedHeader varFile.size varFile.crc)

end LibnklabsPico.Flash
