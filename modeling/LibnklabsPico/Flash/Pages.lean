/-
  Flash/Pages.lean --- the page loop that `nk_checked_write` and
  `nk_direct_write` share: it writes a buffer a page at a time and erases each
  sector whose first byte it reaches.

  The loop runs on fuel, one unit for each byte of the buffer; a pass writes at
  least one byte.
-/
import LibnklabsPico.Flash.Device
import LibnklabsPico.Foundation.Align
import LibnklabsPico.Foundation.Pieces

set_option autoImplicit false

namespace LibnklabsPico.Flash

open LibnklabsPico.Foundation

/-- First page of a block... erase the block -/
def eraseBlock (eraseSize : Nat) (hasErase : Bool) (address : Nat) : FlashProg Int :=
  if hasErase && (address &&& wrap 32 ((eraseSize : Int) - 1)) == 0 then
    flashErase address eraseSize
  else pure 0

/-- Up to one page: the bytes from an address to the end of its sector. -/
def pageRoom (eraseSize address : Nat) : Nat :=
  -- Starting offset within page
  let pageOffset := address &&& wrap 32 ((eraseSize : Int) - 1)
  wrap 32 ((eraseSize : Int) - pageOffset)

/-- Write a page at a time. -/
def writePages (eraseSize : Nat) (hasErase : Bool) : Nat → Nat → List UInt8 → FlashProg Int
  | 0, _, _ => pure 0
  | fuel + 1, address, buffer =>
      if buffer.length = 0 then pure 0
      else
        let pageLen := pageRoom eraseSize address
        let pageLen := if buffer.length < pageLen then buffer.length else pageLen
        do
          let rtn ← eraseBlock eraseSize hasErase address
          if rtn ≠ 0 then pure rtn
          else
            let rtn ← flashWrite address (buffer.take pageLen)
            if rtn ≠ 0 then pure rtn
            else
              writePages eraseSize hasErase fuel (u32 (address + pageLen)) (buffer.drop pageLen)

/-! ## Pages of two to a power -/

theorem pageRoom_two_pow {k : Nat} (hk : k < 32) (address : Nat) :
    pageRoom (2 ^ k) address = 2 ^ k - address % 2 ^ k := by
  have hmod := Nat.mod_lt address (Nat.two_pow_pos k)
  rw [pageRoom, and_mask hk]
  exact wrap_sub (Nat.le_of_lt hmod) (Nat.pow_lt_pow_right (by decide) hk)

/-- A pass over a page handles the first piece of what is left. -/
theorem pass_length {k : Nat} (hk : k < 32) (address count : Nat) :
    (if count < pageRoom (2 ^ k) address then count else pageRoom (2 ^ k) address) =
      pieceLen (2 ^ k) address count := by
  rw [pageRoom_two_pow hk, pieceLen]
  split <;> omega

/-- The address a pass goes on at, when anything is left. -/
theorem u32_next {address len count : Nat} (hin : address + count ≤ 2 ^ 32)
    (hlen : len < count) : u32 (address + len) = address + len :=
  Nat.mod_eq_of_lt (by omega)

end LibnklabsPico.Flash
