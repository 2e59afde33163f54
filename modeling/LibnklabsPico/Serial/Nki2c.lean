/-
  Serial/Nki2c.lean --- the I2C command of `libnklabs/src/nki2c.c`.

  The command collects the bytes to write in `write_array`, and reads into
  `read_array`.  A run gives the accesses it makes to the two arrays, in order and
  whether there is room or not, and the lengths it hands to the bus.  What it prints
  is left out; `PRIx8` is `hhx`.
-/
import LibnklabsPico.Text.FormatLanguage

set_option autoImplicit false

namespace LibnklabsPico.Serial

open LibnklabsPico.Foundation
open LibnklabsPico.File
open LibnklabsPico.Text

/-- `nk_i2c_bus_t`: the access functions of a bus with the states `σ`. -/
structure NkI2cBus (σ : Type) where
  i2cWrite : UInt8 → List UInt8 → σ → Int × σ
  i2cWriteNostop : UInt8 → List UInt8 → σ → Int × σ
  i2cRead : UInt8 → Nat → σ → Int × σ
  i2cPing : UInt8 → σ → Int × σ

/-- An access to one of the arrays. -/
inductive I2cAccess where
  /-- `write_array[index]` is stored or printed -/
  | writeArray (index : Nat)
  /-- the bus is given `len` bytes from `write_array + 1` on -/
  | sent (len : Nat)
  /-- the bus is to read `len` bytes into `read_array` -/
  | received (len : Nat)
  /-- `read_array[index]` is printed -/
  | readArray (index : Nat)

/-- What the arguments ask for: a scan of the bus, or the bytes to write and the address
and the length to read. -/
inductive I2cArguments where
  | scan
  | transfer (bytes : List UInt8) (readAddr : UInt8) (readLen : Nat)
deriving DecidableEq

section Arguments

variable (fl : Floats) (fuel : Nat)

/-- The loop that collects the bytes to write. -/
def collectBytes : Nat → List UInt8 → FileProg (List UInt8)
  | 0, bytes => pure bytes
  | n + 1, bytes => do
      let (status, out, _) ← nkVscan fl fuel false "%hhx %e" [.num] (fun _ => 0)
      if status then collectBytes n (bytes ++ (storedNumbers out).map UInt8.ofNat)
      else pure bytes

/-- `w AA DD ...` -/
def writeArguments : FileProg (List UInt8) := do
  let writes ← nkFscan fl fuel "w %e"
  if writes then collectBytes fl fuel fuel [] else pure []

/-- `r AA NN` -/
def readArguments : FileProg (UInt8 × Nat) := do
  let (status, out, _) ← nkVscan fl fuel false "r %hhx %x " [.num, .num] (fun _ => 0)
  match status, storedNumbers out with
  | true, [readAddr, readLen] => pure (UInt8.ofNat readAddr, readLen)
  | _, _ => pure (0, 0)

/-- The arguments of `nk_i2c_command`. -/
def i2cArguments : FileProg I2cArguments := do
  let scan ← nkFscan fl fuel "scan "
  if scan then pure .scan
  else
    let bytes ← writeArguments fl fuel
    let (readAddr, readLen) ← readArguments fl fuel
    pure (.transfer bytes readAddr readLen)

end Arguments

section

variable {σ : Type} (bus : NkI2cBus σ)

/-- The loop over the addresses of devices that are not reserved. -/
def pingAll : Nat → UInt8 → σ → σ
  | 0, _, s => s
  | n + 1, addr, s => pingAll n (addr + 1) (bus.i2cPing addr s).2

/-- The bytes are printed and written: the accesses, and the length that is left to
read. -/
def i2cWriteBytes (bytes : List UInt8) (readLen : Nat) (s : σ) : List I2cAccess × Nat × σ :=
  match bytes with
  | [] => ([], readLen, s)
  | addr :: data =>
      let printed := (List.range bytes.length).map .writeArray
      let (status, s) :=
        if readLen ≠ 0 then bus.i2cWriteNostop addr data s else bus.i2cWrite addr data s
      (printed ++ [.writeArray 0, .sent data.length], if status ≠ 0 then 0 else readLen, s)

/-- The bytes are read and printed. -/
def i2cReadBytes (readAddr : UInt8) (readLen : Nat) (s : σ) : List I2cAccess × σ :=
  if readLen ≠ 0 then
    let (status, s) := bus.i2cRead readAddr readLen s
    if status ≠ 0 then ([.received readLen], s)
    else (.received readLen :: (List.range readLen).map .readArray, s)
  else ([], s)

/-- `nk_i2c_command` behind its arguments. -/
def i2cTransfer (bytes : List UInt8) (readAddr : UInt8) (readLen : Nat) (s : σ) :
    List I2cAccess × σ :=
  let collected := (List.range bytes.length).map .writeArray
  let (written, readLen, s) := i2cWriteBytes bus bytes readLen s
  let (read, s) := i2cReadBytes bus readAddr readLen s
  (collected ++ written ++ read, s)

/-- `nk_i2c_command`: the accesses it makes, and the bytes it collects. -/
def nkI2cCommand {w : Nat} (fl : Floats) (fuel : Nat) (f : Nkinfile w) (s : σ) :
    Option (List UInt8 × List I2cAccess × Nkinfile w × σ) := do
  let (arguments, f) ← (i2cArguments fl fuel).run (nkinfile w) f
  match arguments with
  | .scan => some ([], [], f, pingAll bus (0x78 - 8) 8 s)
  | .transfer bytes readAddr readLen =>
      let (accesses, s) := i2cTransfer bus bytes readAddr readLen s
      some (bytes, accesses, f, s)

end

end LibnklabsPico.Serial
