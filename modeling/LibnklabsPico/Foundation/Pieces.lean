/-
  Foundation/Pieces.lean --- a range of addresses cut at page boundaries.

  A loop over a range that handles at most the rest of one page in each pass
  cuts the range into pieces.  `Tiles` says that a list of addressed blocks is a
  range of data cut into pieces, in order, none of which crosses a page boundary.
-/
import Mathlib.Tactic.Common

set_option autoImplicit false

namespace LibnklabsPico.Foundation

variable {α : Type} {size : Nat}

/-- The length of the first piece of a range: up to the end of its page. -/
def pieceLen (size address count : Nat) : Nat := min count (size - address % size)

theorem pieceLen_le (size address count : Nat) : pieceLen size address count ≤ count :=
  Nat.min_le_left ..

theorem pieceLen_pos (address : Nat) {count : Nat} (hsize : 0 < size) (hcount : count ≠ 0) :
    0 < pieceLen size address count := by
  have hmod := Nat.mod_lt address hsize
  unfold pieceLen
  omega

/-- A piece stays inside its page. -/
theorem pieceLen_inside (address count : Nat) (hsize : 0 < size) :
    address % size + pieceLen size address count ≤ size := by
  have hmod := Nat.mod_lt address hsize
  unfold pieceLen
  omega

/-- A piece that ends before the range does ends at a page boundary. -/
theorem dvd_end_of_piece {address count : Nat} (hsize : 0 < size)
    (hmore : pieceLen size address count ≠ count) :
    size ∣ address + pieceLen size address count := by
  have hmod := Nat.mod_lt address hsize
  have hdiv := Nat.div_add_mod address size
  have hlen : address + pieceLen size address count = size * (address / size + 1) := by
    rw [Nat.mul_add, Nat.mul_one]
    unfold pieceLen at hmore ⊢
    omega
  exact hlen ▸ Nat.dvd_mul_right size _

/-- `Tiles size address data l`: the blocks of `l` hold `data` from `address`
on, each byte once and in order, and no block crosses a page boundary. -/
inductive Tiles (size : Nat) : Nat → List α → List (Nat × List α) → Prop where
  | nil (address : Nat) : Tiles size address [] []
  | cons {address : Nat} {block data : List α} {l : List (Nat × List α)}
      (some_data : block ≠ []) (inside : address % size + block.length ≤ size)
      (rest : Tiles size (address + block.length) data l) :
      Tiles size address (block ++ data) ((address, block) :: l)

/-- The address of no data does not matter. -/
theorem Tiles.readdress {address address' : Nat} {data : List α} {l : List (Nat × List α)}
    (h : Tiles size address data l) (heq : data.length ≠ 0 → address = address') :
    Tiles size address' data l := by
  cases h with
  | nil => exact .nil address'
  | cons some_data inside rest =>
      have hlength := List.length_pos_iff.mpr some_data
      obtain rfl := heq (by rw [List.length_append]; omega)
      exact .cons some_data inside rest

/-- The blocks of a tiling hold the data. -/
theorem Tiles.flatten {address : Nat} {data : List α} {l : List (Nat × List α)}
    (h : Tiles size address data l) : (l.map Prod.snd).flatten = data := by
  induction h with
  | nil address => rfl
  | cons _ _ _ ih => rw [List.map_cons, List.flatten_cons, ih]

/-- The first piece of some data, and what is left, make a tiling. -/
theorem Tiles.piece {address : Nat} {data : List α} {l : List (Nat × List α)} (hsize : 0 < size)
    (hdata : data.length ≠ 0)
    (h : Tiles size (address + pieceLen size address data.length)
      (data.drop (pieceLen size address data.length)) l) :
    Tiles size address data
      ((address, data.take (pieceLen size address data.length)) :: l) := by
  have hlength : (data.take (pieceLen size address data.length)).length =
      pieceLen size address data.length := by
    rw [List.length_take, Nat.min_eq_left (pieceLen_le ..)]
  have hpos := pieceLen_pos address hsize hdata
  have htiles : Tiles size address
      (data.take (pieceLen size address data.length) ++
        data.drop (pieceLen size address data.length))
      ((address, data.take (pieceLen size address data.length)) :: l) := by
    refine .cons (List.ne_nil_of_length_pos (by omega)) ?_ (by rwa [hlength])
    rw [hlength]
    exact pieceLen_inside address data.length hsize
  rwa [List.take_append_drop] at htiles

end LibnklabsPico.Foundation
