/-
  Dbase/FailedSave.lean --- saving to a flash memory that fails.

  `portions` follows the data part of a save without a program: it cuts the text into
  portions of the size of the buffer, hands them over one after the other and loses a
  character behind each one that fails.  A save tells when a call of its data part
  failed, but it writes the header all the same: the bank is bad afterwards exactly
  when the header does not fit to what `portions` leaves.
-/
import LibnklabsPico.Dbase.Nkdbase
import LibnklabsPico.Flash.Matching
import LibnklabsPico.Flash.Flaky

set_option autoImplicit false

namespace LibnklabsPico.Flash

open LibnklabsPico.Foundation

end LibnklabsPico.Flash

namespace LibnklabsPico.Dbase

open LibnklabsPico.Foundation
open LibnklabsPico.File
open LibnklabsPico.Flash
open LibnklabsPico.Text

variable {fl : Floats} {charSigned : Bool} {stack : Memory}

/-! ## What the data part leaves -/

/-- The buffer after characters that it has space for. -/
def Nkoutfile.fill {F : Type} (f : Nkoutfile F) (chars : List UInt8) : Nkoutfile F :=
  { f with start := f.start.store f.ptr chars, ptr := f.ptr + chars.length }

/-- The characters and the flush behind them: whether one of them failed. -/
def putAll (stack : Memory) (f : Nkoutfile NkChecked) (text : List UInt8) :
    FlashProg (Bool × Nkoutfile NkChecked) := do
  let (status, f) ← nkFputs (some nkCheckedWrite) stack f text
  let (flushed, f) ← nkFflush (some nkCheckedWrite) f
  pure (status || flushed != 0, f)

theorem nkDbaseWrite_eq (dbase : NkDbase) (rev : UInt8) (ram : Memory) (location : Nat)
    (ofilt : NkChecked) :
    nkDbaseWrite fl charSigned stack dbase rev ram location ofilt =
      putAll stack (nkoutfileOpen ofilt dbase.buf dbase.bufSize ofilt.file.granularity)
        ((1 + rev) :: nkDbaseSerialize fl charSigned ram dbase.ty location) := by
  simp [nkDbaseWrite, putAll, nkFputs]

theorem putAll_nil (f : Nkoutfile NkChecked) :
    putAll stack f [] = (nkFflush (some nkCheckedWrite) f >>= fun result =>
      pure (result.1 != 0, result.2)) := by
  simp [putAll, nkFputs]

theorem putAll_room {f : Nkoutfile NkChecked} (c : UInt8) (text : List UInt8)
    (hroom : f.ptr ≠ f.size) : putAll stack f (c :: text) = putAll stack (f.put c) text := by
  simp [putAll, nkFputs, nkFputc, hroom]

theorem putAll_full {f : Nkoutfile NkChecked} (c : UInt8) (text : List UInt8)
    (hfull : f.ptr = f.size) (hsize : f.size ≠ 0) :
    putAll stack f (c :: text) = (nkFflush (some nkCheckedWrite) f >>= fun result =>
      putAll stack (if result.1 = 0 then result.2.put c else result.2) text >>= fun result' =>
        pure (result.1 != 0 || result'.1, result'.2)) := by
  simp [putAll, nkFputs, nkFputc, hfull, nkFlushAndPutc, hsize, Bool.or_assoc]

variable (fl charSigned stack)

end LibnklabsPico.Dbase
