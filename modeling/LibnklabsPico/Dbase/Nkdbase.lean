/-
  Dbase/Nkdbase.lean --- the database in two banks of flash memory,
  `libnklabs/src/nkdbase.c`.

  `rev` is a `char`; only its eight bits matter.  Messages are left out.
-/
import LibnklabsPico.Dbase.Nkserialize
import LibnklabsPico.File.Nkoutfile
import LibnklabsPico.Flash.Nkchecked

set_option autoImplicit false

namespace LibnklabsPico.Dbase

open LibnklabsPico.Foundation
open LibnklabsPico.File
open LibnklabsPico.Flash
open LibnklabsPico.Text

/-- `struct nk_dbase` -/
structure NkDbase where
  /-- schema describing the data layout -/
  ty : Ty
  bank0 : NkCheckedBase
  bank1 : NkCheckedBase
  /-- the memory at the transfer buffer for flash memory -/
  buf : Memory
  /-- size of the buffer -/
  bufSize : Nat

/-- One of the two banks. -/
def NkDbase.bank (dbase : NkDbase) (one : Bool) : NkCheckedBase :=
  if one then dbase.bank1 else dbase.bank0

/-- `1 & (*rev + 1)` -/
def saveBank (rev : UInt8) : Bool := (rev.toNat + 1) % 2 == 1

variable (fl : Floats) (charSigned : Bool) (stack : Memory)

/-- The data part of `nk_dbase_save`: the revision, the database and the flush.
Whether one of them failed. -/
def nkDbaseWrite (dbase : NkDbase) (rev : UInt8) (ram : Memory) (location : Nat)
    (ofilt : NkChecked) : FlashProg (Bool × Nkoutfile NkChecked) := do
  let f := nkoutfileOpen ofilt dbase.buf dbase.bufSize ofilt.file.granularity
  -- Revision
  let (sta, f) ← nkFputc (some nkCheckedWrite) stack f (1 + rev)
  let (status, f) ← nkFputs (some nkCheckedWrite) stack f
    (nkDbaseSerialize fl charSigned ram dbase.ty location)
  let (flushed, f) ← nkFflush (some nkCheckedWrite) f
  return (sta != 0 || status || flushed != 0, f)

/-- `nk_dbase_save`: the return value and the revision. -/
def nkDbaseSave (dbase : NkDbase) (rev : UInt8) (ram : Memory) (location : Nat) :
    FlashProg (Int × UInt8) := do
  let (sta, ofilt) ← nkCheckedWriteOpen (dbase.bank (saveBank rev))
  if sta ≠ 0 then
    -- Erase error
    return (-1, rev)
  else
    let (status, f) ← nkDbaseWrite fl charSigned stack dbase rev ram location ofilt
    let closed ← nkCheckedWriteClose f.blockWritePtr
    if status || closed != 0 then
      -- Write error! Not saved.
      return (-1, rev)
    else
      -- Only bump rev if we are successful
      return (0, rev + 1)

/-- A bank is opened as an input file, whether it is good or not. -/
def openBank (flashRead : FlashRead) (varFile : NkChecked) (file : NkCheckedBase) (bufSize : Nat)
    (buf : List UInt8) : Bool × NkChecked × Nkinfile 32 :=
  let (rtn, filt) := nkCheckedReadOpen flashRead varFile file bufSize
  (rtn == 0, filt, nkinfileOpen 32 (some (nkCheckedRead flashRead filt)) bufSize buf)

/-- Choose the most recent good bank, which is what a signed comparison of the
revisions says. -/
def chooseBank (zeroGood oneGood : Bool) (zeroRev oneRev : UInt8) : Option Bool :=
  if oneGood && zeroGood then
    if signed 8 ((zeroRev.toNat : Int) - oneRev.toNat) ≥ 0 then some false else some true
  else if oneGood then some true
  else if zeroGood then some false
  else none

/-- `(char)nk_fgetc(f)` -/
def fgetcRev (f : Nkinfile 32) : UInt8 := UInt8.ofNat (wrap 8 (FileOp.exec .getc f).1)

/-- The bank that `nk_dbase_load` uses, and its revision. -/
def loadBank (flashRead : FlashRead) (varFile : NkChecked) (dbase : NkDbase) (buf : List UInt8) :
    Option Bool × UInt8 × UInt8 :=
  let (zeroGood, filt, f) := openBank flashRead varFile dbase.bank0 dbase.bufSize buf
  let zeroRev := fgetcRev f
  let (oneGood, _, f) := openBank flashRead filt dbase.bank1 dbase.bufSize f.start
  let oneRev := fgetcRev f
  (chooseBank zeroGood oneGood zeroRev oneRev, zeroRev, oneRev)

/-- `nk_fgetc(f)`, `nk_fscan(f, " %v", dbase->ty, ram)` -/
def loadScan (fl : Floats) (fuel : Nat) (ty : Ty) (location : Nat) (ram : Memory) :
    FileProg (Bool × Memory) := do
  let _ ← FileProg.fgetc
  let (status, _, ram) ←
    nkVscan fl fuel false " %v" [.value (nkFscanKeyval fl fuel ty location)] ram
  pure (status, ram)

/-- `nk_dbase_load`: the return value, the revision and the memory.  There is no result
where the parser does what `nkinfile.h` does not allow. -/
def nkDbaseLoad (fl : Floats) (fuel : Nat) (flashRead : FlashRead) (varFile : NkChecked)
    (dbase : NkDbase) (buf : List UInt8) (rev : UInt8) (ram : Memory) (location : Nat) :
    Option (Int × UInt8 × Memory) :=
  let (useBank, zeroRev, oneRev) := loadBank flashRead varFile dbase buf
  match useBank with
  | none =>
      -- Neither bank is good!
      some (-1, rev, ram)
  | some one =>
      let rev := if one then oneRev else zeroRev
      let (_, _, f) := openBank flashRead varFile (dbase.bank one) dbase.bufSize buf
      ((loadScan fl fuel dbase.ty location ram).run (nkinfile 32) f).map fun ((status, ram), _) =>
        (if status then 0 else -1, rev, ram)

end LibnklabsPico.Dbase
