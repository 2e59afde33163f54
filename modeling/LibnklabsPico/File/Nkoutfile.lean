/-
  File/Nkoutfile.lean --- output files of `libnklabs/src/nkoutfile.c` and
  `libnklabs/inc/nkoutfile.h`.

  Characters are collected in a buffer, which `block_write` gets when it is full.
  Pointers into the buffer are their distances from `start`, so `start` itself
  stands for the memory there, which goes on behind the buffer.  `size_t` has 32
  bits.
-/
import LibnklabsPico.Foundation.Align
import LibnklabsPico.Foundation.Memory
import LibnklabsPico.Foundation.Prog
import LibnklabsPico.Foundation.Word

set_option autoImplicit false

namespace LibnklabsPico.File

open LibnklabsPico.Foundation

/-- `struct nkoutfile`; `F` is what `block_write_ptr` points to. -/
structure Nkoutfile (F : Type) where
  /-- the memory at the start of the buffer -/
  start : Memory
  /-- current pointer into the buffer -/
  ptr : Nat
  /-- size of the buffer, which is where it ends -/
  size : Nat
  blockWritePtr : F
  /-- write granularity -/
  granularity : Nat

/-- Functions that write a block; the null pointer is `none`. -/
abbrev BlockWrite (Cmd : Type) (Res : Cmd → Type) (F : Type) : Type :=
  Option (F → List UInt8 → Prog Cmd Res (Int × F))

variable {Cmd : Type} {Res : Cmd → Type} {F : Type} (blockWrite : BlockWrite Cmd Res F)

/-- `nkoutfile_open` -/
def nkoutfileOpen (blockWritePtr : F) (buffer : Memory) (len granularity : Nat) : Nkoutfile F :=
  { start := buffer, ptr := 0, size := len, blockWritePtr := blockWritePtr
    granularity := granularity }

/-- Round write up to granularity: `(len + (g - 1)) & ~(g - 1)`. -/
def roundWrite (len granularity : Nat) : Nat :=
  u32 (len + wrap 32 ((granularity : Int) - 1)) &&&
    wrap 32 (-1 - wrap 32 ((granularity : Int) - 1))

/-- `nk_fflush` -/
def nkFflush (f : Nkoutfile F) : Prog Cmd Res (Int × Nkoutfile F) := do
  let len := f.ptr
  let f := { f with ptr := 0 }
  match blockWrite with
  | some blockWrite => do
      let (rtn, blockWritePtr) ← blockWrite f.blockWritePtr
        (f.start.read 0 (roundWrite len f.granularity))
      pure (rtn, { f with blockWritePtr := blockWritePtr })
  | none =>
      -- No flush function
      pure (-1, f)

/-- `*f->ptr++ = c` -/
def Nkoutfile.put (f : Nkoutfile F) (c : UInt8) : Nkoutfile F :=
  { f with start := f.start.store f.ptr [c], ptr := f.ptr + 1 }

/-- `_nk_flush_and_putc`; `stack` is the memory behind the character on the stack. -/
def nkFlushAndPutc (stack : Memory) (f : Nkoutfile F) (c : UInt8) :
    Prog Cmd Res (Int × Nkoutfile F) :=
  if f.size ≠ 0 then do
    -- Normal case, we have a buffer
    let (rtn, f) ← nkFflush blockWrite f
    pure (rtn, if rtn = 0 then f.put c else f)
  else
    match blockWrite with
    | some blockWrite => do
        -- No buffering, just call output function directly
        let (rtn, blockWritePtr) ← blockWrite f.blockWritePtr
          ((stack.store 0 [c]).read 0 f.granularity)
        pure (rtn, { f with blockWritePtr := blockWritePtr })
    | none => pure (-1, f)

/-- `nk_fputc` -/
def nkFputc (stack : Memory) (f : Nkoutfile F) (c : UInt8) : Prog Cmd Res (Int × Nkoutfile F) :=
  if f.ptr = f.size then nkFlushAndPutc blockWrite stack f c else pure (0, f.put c)

/-- `status |= nk_fputc(f, c)` for one character after the other: whether `status` is
not zero at the end. -/
def nkFputs (stack : Memory) : Nkoutfile F → List UInt8 → Prog Cmd Res (Bool × Nkoutfile F)
  | f, [] => pure (false, f)
  | f, c :: chars => do
      let (rtn, f) ← nkFputc blockWrite stack f c
      let (status, f) ← nkFputs stack f chars
      pure (rtn != 0 || status, f)

end LibnklabsPico.File
