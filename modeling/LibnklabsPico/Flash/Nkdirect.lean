/-
  Flash/Nkdirect.lean --- a file in a region of flash memory,
  `libnklabs/src/nkdirect.c`: the functions that write it.

  There is no header; the page loop is the one of `nk_checked_write`.
-/
import LibnklabsPico.Flash.Pages
import LibnklabsPico.Flash.Nkcrclib

set_option autoImplicit false

namespace LibnklabsPico.Flash

open LibnklabsPico.Foundation

/-- `nk_direct_base_t` -/
structure NkDirectBase where
  /-- size of flash area -/
  areaSize : Nat
  /-- location of flash area -/
  areaBase : Nat
  /-- flash erase size -/
  eraseSize : Nat
  /-- `flash_erase` is not the null pointer -/
  hasErase : Bool
  granularity : Nat

/-- `nk_direct_t` -/
structure NkDirect where
  file : NkDirectBase
  /-- current file CRC -/
  crc : UInt32
  /-- size of file -/
  size : Nat

/-- `nk_direct_write_open` -/
def nkDirectWriteOpen (file : NkDirectBase) : FlashProg (Int × NkDirect) :=
  pure (0, { file := file, crc := 0, size := 0 })

/-- `nk_direct_write` -/
def nkDirectWrite (varFile : NkDirect) (buffer : List UInt8) : FlashProg (Int × NkDirect) := do
  let file := varFile.file
  let address := u32 (file.areaBase + varFile.size)
  let varFile :=
    { varFile with
      crc := buffer.foldl nkCrc32beUpdate varFile.crc
      size := u32 (varFile.size + buffer.length) }
  let rtn ← writePages file.eraseSize file.hasErase buffer.length address buffer
  return (rtn, varFile)

/-- `nk_direct_write_close` -/
def nkDirectWriteClose (_varFile : NkDirect) : FlashProg Int := pure 0

end LibnklabsPico.Flash
