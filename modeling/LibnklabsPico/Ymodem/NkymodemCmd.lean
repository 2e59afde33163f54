/-
  Ymodem/NkymodemCmd.lean --- the receive file handler of `src/nkymodem_cmd.c`.

  A received file is written into a region of flash memory as its data comes, and the
  bootloader flag is set when all files are done.  What `ymodem_recv_file_open` scans is
  given in `Header`.  The command `ymodem show` only prints and is left out.
-/
import LibnklabsPico.Flash.Mcuflash
import LibnklabsPico.Flash.Nkdirect
import LibnklabsPico.Text.Nkprintf
import LibnklabsPico.Ymodem.Link

set_option autoImplicit false

namespace LibnklabsPico.Ymodem

open LibnklabsPico.Flash
open LibnklabsPico.Foundation
open LibnklabsPico.Text

/-! ## Flash map -/

/-- `FLASH_FIRMWARE_BUFFER_SIZE` -/
def flashFirmwareBufferSize : Nat := 0x40000

/-- `FLASH_FIRMWARE_FLAG` -/
def flashFirmwareFlag : Nat := 0x180000

deriving instance DecidableEq for NkDirectBase

/-- `ymodem_file_fpga`: the region at `FLASH_FPGA_BUFFER_MAIN`. -/
def ymodemFileFpga : NkDirectBase :=
  { areaSize := 0x100000, areaBase := 0x0, eraseSize := 65536, hasErase := true, granularity := 1 }

/-- `ymodem_file_fw0`: the region at `FLASH_FIRMWARE_BUFFER_0`. -/
def ymodemFileFw0 : NkDirectBase :=
  { areaSize := flashFirmwareBufferSize, areaBase := 0x100000, eraseSize := 65536, hasErase := true
    granularity := 1 }

/-- `ymodem_file_fw1`: the region at `FLASH_FIRMWARE_BUFFER_1`. -/
def ymodemFileFw1 : NkDirectBase :=
  { areaSize := flashFirmwareBufferSize, areaBase := 0x140000, eraseSize := 65536, hasErase := true
    granularity := 1 }

/-! ## Ymodem receive file handler -/

/-- The static variables of `nkymodem_cmd.c`. -/
structure Upload where
  /-- `name_buf` -/
  nameBuf : List UInt8
  nameBuf_length : nameBuf.length = 128
  /-- exact file size from sender -/
  dldExact : Nat
  dldDone : Bool
  ymodemFile : NkDirect

/-- The region for a file. -/
def regionFor (fpga : Bool) : NkDirectBase := if fpga then ymodemFileFpga else ymodemFileFw0

/-- The text in `name_buf`. -/
def Upload.name (u : Upload) : List UInt8 := u.nameBuf.takeWhile (· != 0)

/-- `strcpy` of some bytes to `name_buf`.  There is no result when they do not fit: they
would be stored in the variables behind it. -/
def Upload.copyName (bytes : List UInt8) (u : Upload) : Option Upload :=
  if h : bytes.length ≤ 128 then
    some { u with
      nameBuf := bytes ++ u.nameBuf.drop bytes.length
      nameBuf_length := by rw [List.length_append, List.length_drop, u.nameBuf_length]; omega }
  else none

/-- `ymodem_recv_file_open`, behind the scan of the name. -/
def Upload.fileOpen (found : Opened) (u : Upload) : FlashProg (Option (Int × Upload)) :=
  match u.copyName found.nameBuf with
  | some u => do
      let (rtn, ymodemFile) ← nkDirectWriteOpen (regionFor found.fpga)
      return some (rtn, { u with dldExact := found.dldExact, ymodemFile := ymodemFile })
  | none => return none

/-- `ymodem_recv_file_write`: it returns nothing. -/
def Upload.fileWrite (buffer : List UInt8) (u : Upload) : FlashProg Upload := do
  let (_, ymodemFile) ← nkDirectWrite u.ymodemFile buffer
  return { u with ymodemFile := ymodemFile }

/-- `ymodem_recv_file_close` -/
def Upload.fileClose (u : Upload) : FlashProg Upload := do
  let _ ← nkDirectWriteClose u.ymodemFile
  return { u with dldDone := true }

/-- The first line that `ymodem_recv_all_done` prints. -/
def Upload.report (fl : Floats) (u : Upload) : List UInt8 :=
  nkFprintf fl "All done!  filename = '%s', size = %lu, CRC = %lx\n"
    [.str u.name, .int u.ymodemFile.size, .int u.ymodemFile.crc.toNat]

/-- `ymodem_recv_all_done`: what it prints. -/
def Upload.recvAllDone (fl : Floats) (u : Upload) : FlashProg (List UInt8) :=
  if u.dldDone then
    if u.ymodemFile.file = ymodemFileFw0 ∨ u.ymodemFile.file = ymodemFileFw1 then do
      -- Switch to new bank
      let _ ← flashErase flashFirmwareFlag nkMcuflashEraseSize
      let _ ← flashWrite flashFirmwareFlag [0, 0, 0, 0]
      return u.report fl ++
        nkFprintf fl "It's a software image: setting bootloader flag\n" []
    else return u.report fl ++ nkFprintf fl "It's an FPGA image\n" []
  else return []

/-- `cmd_ymodem` in front of `nk_yrecv` -/
def Upload.cmdYmodem (u : Upload) : Upload :=
  { u with
    nameBuf := u.nameBuf.set 0 0
    nameBuf_length := by rw [List.length_set, u.nameBuf_length]
    dldDone := false }

/-- What an event of the receiver does in the handler.  There is no result when a name does
not fit in `name_buf`, or when the receiver has not got what `open` returns. -/
def Upload.event (fl : Floats) : Event → Upload → FlashProg (Option Upload)
  | .start, u => return some u.cmdYmodem
  | .openFile name rtn, u => do
      match ← u.fileOpen (ymodemRecvFileOpen name).value with
      | some (rtn', u) => return if rtn' = rtn then some u else none
      | none => return none
  | .write data, u => do
      let u ← u.fileWrite data
      return some u
  | .close, u => do
      let u ← u.fileClose
      return some u
  | .allDone, u => do
      let _ ← u.recvAllDone fl
      return some u
  | _, u => return some u

/-- What the events of a trace do, one after the other. -/
def Upload.events (fl : Floats) : List Event → Upload → FlashProg (Option Upload)
  | [], u => return some u
  | event :: trace, u => do
      match ← u.event fl event with
      | some u => u.events fl trace
      | none => return none

/-! ## Opening a file -/

section

variable {u : Upload} {text : List UInt8}

/-- A text that fits is what is read from `name_buf` then. -/
theorem Upload.copyName_text (hfit : text.length < 128) (hnul : ∀ c ∈ text, c ≠ 0) :
    ∃ u', u.copyName (text ++ [0]) = some u' ∧ u'.name = text ∧ u'.dldDone = u.dldDone := by
  have hlength : (text ++ [0]).length ≤ 128 := by
    rw [List.length_append, List.length_singleton]
    exact hfit
  have htext (rest : List UInt8) : (text ++ [0] ++ rest).takeWhile (· != 0) = text := by
    rw [List.append_assoc, List.singleton_append,
      List.takeWhile_append_of_pos fun c hmem => bne_iff_ne.mpr (hnul c hmem),
      List.takeWhile_cons_of_neg Bool.false_ne_true, List.append_nil]
  exact ⟨_, dif_pos hlength, htext _, rfl⟩

/-- `open` succeeds when the name fits, and the file is empty. -/
theorem Upload.fileOpen_eq (u : Upload) (found : Opened) (hfound : found.nameBuf = text ++ [0])
    (hfit : text.length < 128) (hnul : ∀ c ∈ text, c ≠ 0) :
    ∃ u', u.fileOpen found = pure (some (0, u')) ∧ u'.name = text ∧
      u'.dldExact = found.dldExact ∧ u'.dldDone = u.dldDone ∧
      u'.ymodemFile = { file := regionFor found.fpga, crc := 0, size := 0 } := by
  obtain ⟨u', hcopy, hname, hdone⟩ := Upload.copyName_text (u := u) hfit hnul
  refine ⟨{ u' with
    dldExact := found.dldExact
    ymodemFile := { file := regionFor found.fpga, crc := 0, size := 0 } }, ?_, hname, rfl, hdone,
    rfl⟩
  rw [Upload.fileOpen, hfound, hcopy]
  rfl

end

end LibnklabsPico.Ymodem
