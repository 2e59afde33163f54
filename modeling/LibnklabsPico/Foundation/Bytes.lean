/-
  Foundation/Bytes.lean --- arrays of bytes with checked accesses.

  An array is the list of its bytes.  An access outside of the array, a string
  without its NUL in the array included, has the result `none`.
-/
import Mathlib.Data.List.TakeWhile
import Mathlib.Tactic.Common

set_option autoImplicit false

namespace LibnklabsPico.Foundation

namespace Bytes

/-- `b[i] = v` -/
def store (b : List UInt8) (i : Nat) (v : UInt8) : Option (List UInt8) :=
  if i < b.length then some (b.set i v) else none

/-- The `n` bytes at `b + src`. -/
def slice (b : List UInt8) (src n : Nat) : Option (List UInt8) :=
  if src + n ≤ b.length then some ((b.drop src).take n) else none

/-- `memcpy(b + dst, data, n)` for the `n` bytes of `data`. -/
def copyIn (b : List UInt8) (dst : Nat) (data : List UInt8) : Option (List UInt8) :=
  if dst + data.length ≤ b.length then
    some (b.take dst ++ (data ++ b.drop (dst + data.length)))
  else none

/-- `memmove(b + dst, b + src, n)` -/
def memmove (b : List UInt8) (dst src n : Nat) : Option (List UInt8) := do
  let data ← slice b src n
  copyIn b dst data

/-- `strlen(b + i)` -/
def strlenAt (b : List UInt8) (i : Nat) : Option Nat :=
  if 0 ∈ b.drop i then some ((b.drop i).takeWhile (· != 0)).length else none

variable {b x y data l : List UInt8}

/-- A store behind the first `i` bytes. -/
theorem store_append (x : List UInt8) (old v : UInt8) (y : List UInt8) :
    store (x ++ old :: y) x.length v = some (x ++ v :: y) := by
  simp [store]

theorem slice_append (x data y : List UInt8) :
    slice (x ++ (data ++ y)) x.length data.length = some data := by
  simp [slice]

theorem copyIn_append (x data y : List UInt8) (h : data.length ≤ y.length) :
    copyIn (x ++ y) x.length data = some (x ++ (data ++ y.drop data.length)) := by
  simp [copyIn, h]

theorem strlenAt_append (x : List UInt8) {l : List UInt8} (hl : 0 ∉ l) (y : List UInt8) :
    strlenAt (x ++ (l ++ 0 :: y)) x.length = some l.length := by
  have htake : (l ++ 0 :: y).takeWhile (· != 0) = l := by
    rw [List.takeWhile_append_of_pos fun c hc => by
      simpa using fun h : c = 0 => hl (h ▸ hc)]
    simp
  simp [strlenAt, htake]

end Bytes

end LibnklabsPico.Foundation
