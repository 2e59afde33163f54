/-
  File/Nkinfile.lean --- input files of `libnklabs/src/nkinfile.c` and
  `libnklabs/inc/nkinfile.h`.

  A file is read through a window: the `len` bytes at `start`, which are the
  bytes of the file from `start_offset` on.  `size_t` is `w` bits wide and its
  arithmetic wraps.  A pointer into the window is its distance from `start`, so
  `start` itself stands for the memory there; it is `buffer` for a block device.
  A read function is what it stores in the buffer, and the number of bytes it
  returns is their number.
-/
import LibnklabsPico.Foundation.Word

set_option autoImplicit false

namespace LibnklabsPico.File

open LibnklabsPico.Foundation

/-- `struct nkinfile`. -/
structure Nkinfile (w : Nat) where
  /-- the memory at the start of the current buffer -/
  start : List UInt8
  /-- current pointer into the current buffer -/
  ptr : Nat
  /-- end of the current buffer -/
  endPtr : Nat
  /-- number of bytes available in the current buffer -/
  len : Nat
  /-- file offset of the first byte of the current buffer -/
  startOffset : Nat
  /-- `block_read(pos, buffer, block_size)`; the null pointer is `none` -/
  blockRead : Option (Nat → Nat → List UInt8)
  blockSize : Nat

variable {w : Nat}

namespace Nkinfile

/-- The byte a pointer points to, as an `int`. -/
def deref (f : Nkinfile w) (p : Nat) : Int := (f.start.getD p 0).toNat

/-- Point into the current buffer. -/
def setPtr (f : Nkinfile w) (p : Nat) : Nkinfile w := { f with ptr := p }

/-- Move the window. -/
def setOffset (f : Nkinfile w) (offset : Nat) : Nkinfile w :=
  { f with startOffset := offset }

/-- Store what a read function delivers; the bytes behind it stay. -/
def load (f : Nkinfile w) (data : List UInt8) : Nkinfile w :=
  { f with start := data ++ f.start.drop data.length, len := data.length }

/-- Read the block at `start_offset` into the buffer and set its end.  A file in
memory stays as it is. -/
def fill (f : Nkinfile w) : Nkinfile w :=
  let f : Nkinfile w :=
    match f.blockRead with
    | some blockRead => f.load (blockRead f.startOffset f.blockSize)
    | none => f
  { f with endPtr := f.len }

end Nkinfile

/-- `nk_ftell` -/
def nkFtell (f : Nkinfile w) : Nat := wrap w (f.startOffset + f.ptr)

/-- `nk_feof` -/
def nkFeof (f : Nkinfile w) : Bool := f.ptr == f.endPtr

/-- `nk_contained`: the target is within the current buffer. -/
def nkContained (f : Nkinfile w) (n : Nat) : Bool :=
  decide (f.startOffset ≤ n) && decide (n < wrap w (f.startOffset + f.len))

/-- `nk_fseek_slow` -/
def nkFseekSlow (f : Nkinfile w) (pos : Nat) : Int × Nkinfile w :=
  -- Requested position fits in current buffer
  if f.startOffset ≤ pos ∧ pos < wrap w (f.startOffset + f.len) then
    let f := f.setPtr (pos - f.startOffset)
    (f.deref f.ptr, f)
  else
    -- Nope, load necessary block
    let offset := pos &&& wrap w ((f.blockSize : Int) - 1)
    let f := f.setOffset (wrap w ((pos : Int) - offset))
    let f := f.fill
    if offset < f.len then
      let f := f.setPtr offset
      (f.deref f.ptr, f)
    else
      -- Tried to seek past the end?
      (-1, f.setPtr f.len)

/-- `nk_fseek_fast`: the target must be within the current buffer. -/
def nkFseekFast (f : Nkinfile w) (n : Nat) : Int × Nkinfile w :=
  let f := f.setPtr (n - f.startOffset)
  (f.deref f.ptr, f)

/-- `nk_fseek` -/
def nkFseek (f : Nkinfile w) (n : Nat) : Int × Nkinfile w :=
  if nkContained f n then nkFseekFast f n else nkFseekSlow f n

/-- `nk_fseek_rel` -/
def nkFseekRel (f : Nkinfile w) (n : Int) : Int × Nkinfile w :=
  nkFseek f (wrap w (nkFtell f + n))

/-- `nk_fpeek_fast`: not at end of file. -/
def nkFpeekFast (f : Nkinfile w) : Int := f.deref f.ptr

/-- `nk_fpeek` -/
def nkFpeek (f : Nkinfile w) : Int := if nkFeof f then -1 else nkFpeekFast f

/-- `nk_fpeek_rel`: a target outside the current buffer is reached by seeking
there and back. -/
def nkFpeekRel (f : Nkinfile w) (n : Int) : Int × Nkinfile w :=
  if nkContained f (wrap w (nkFtell f + n)) then (f.deref (f.ptr + n).toNat, f)
  else
    let tmpPos := nkFtell f
    let (tmp, f) := nkFseek f (wrap w (nkFtell f + n))
    (tmp, (nkFseek f tmpPos).2)

/-- `nk_fpeek_abs`.  Within the current buffer the byte is counted from the
cursor; where that is behind the memory at `start` nothing is known of it. -/
def nkFpeekAbs (f : Nkinfile w) (n : Nat) : Option Int × Nkinfile w :=
  if nkContained f n then
    ((f.start[f.ptr + (n - f.startOffset)]?).map fun b => (b.toNat : Int), f)
  else
    let tmpPos := nkFtell f
    let (tmp, f) := nkFseek f n
    (some tmp, (nkFseek f tmpPos).2)

/-- `nk_fnext_fast`: not at end of file. -/
def nkFnextFast (f : Nkinfile w) : Int × Nkinfile w :=
  let f := f.setPtr (f.ptr + 1)
  if f.ptr = f.endPtr then nkFseekSlow f (wrap w (f.startOffset + f.len))
  else (nkFpeekFast f, f)

/-- `nk_fnext` -/
def nkFnext (f : Nkinfile w) : Int × Nkinfile w :=
  if nkFeof f then (-1, f) else nkFnextFast f

/-- `nk_fgetc_fast`: not at end of file. -/
def nkFgetcFast (f : Nkinfile w) : Int × Nkinfile w :=
  let tmp := f.deref f.ptr
  let f := f.setPtr (f.ptr + 1)
  if nkFeof f then (tmp, (nkFseekSlow f (wrap w (f.startOffset + f.len))).2)
  else (tmp, f)

/-- `nk_fgetc` -/
def nkFgetc (f : Nkinfile w) : Int × Nkinfile w :=
  if nkFeof f then (-1, f) else nkFgetcFast f

/-- `nkinfile_open`: a block device, with what is in the buffer beforehand. -/
def nkinfileOpen (w : Nat) (blockRead : Option (Nat → Nat → List UInt8)) (blockSize : Nat)
    (buffer : List UInt8) : Nkinfile w :=
  let f : Nkinfile w :=
    { start := buffer, ptr := 0, endPtr := 0, len := blockSize, startOffset := 0
      blockRead := blockRead, blockSize := blockSize }
  -- Read first block into buffer
  f.fill

/-- `nkinfile_open_mem`: a block of memory. -/
def nkinfileOpenMem (w : Nat) (mem : List UInt8) (size : Nat) : Nkinfile w :=
  let f : Nkinfile w :=
    { start := mem, ptr := 0, endPtr := 0, len := size, startOffset := 0
      blockRead := none, blockSize := 0 }
  { f with endPtr := f.len }

/-- `strlen` -/
def strlen (s : List UInt8) : Nat := (s.takeWhile (· != 0)).length

/-- `nkinfile_open_string`: the memory at a NUL-terminated string. -/
def nkinfileOpenString (w : Nat) (s : List UInt8) : Nkinfile w :=
  nkinfileOpenMem w s (strlen s)

end LibnklabsPico.File
