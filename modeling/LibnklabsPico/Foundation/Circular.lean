/-
  Foundation/Circular.lean --- ring buffers with free-running counters.

  A buffer of `2 ^ k` cells is written at `wr % 2 ^ k` and read at
  `rd % 2 ^ k`; the counters are `w` bits wide, are never reduced to the buffer
  and wrap on their own.  The unread elements are the `wr - rd` cells from `rd`
  on, where the difference is taken modulo `2 ^ w`.
-/
import LibnklabsPico.Foundation.Word
import Mathlib.Logic.Function.Basic

set_option autoImplicit false

namespace LibnklabsPico.Foundation

variable {α : Type} {w k : Nat}

/-- The number of unread elements. -/
def unreadCount (w rd wr : Nat) : Nat := wrap w ((wr : Int) - rd)

/-- The unread elements, oldest first. -/
def unread (w k : Nat) (buf : Nat → α) (rd wr : Nat) : List α :=
  (List.range (unreadCount w rd wr)).map fun i => buf ((rd + i) % 2 ^ k)

@[simp] theorem length_unread (buf : Nat → α) (rd wr : Nat) :
    (unread w k buf rd wr).length = unreadCount w rd wr := by
  simp [unread]

theorem unreadCount_lt (rd wr : Nat) : unreadCount w rd wr < 2 ^ w := by
  have hpos : (0 : Int) < 2 ^ w := by positivity
  have hlow := Int.emod_nonneg ((wr : Int) - rd) (ne_of_gt hpos)
  have hhigh := Int.emod_lt_of_pos ((wr : Int) - rd) hpos
  have hcast : ((2 ^ w : Nat) : Int) = 2 ^ w := by push_cast; rfl
  unfold unreadCount wrap
  omega

/-- The writer is as many cells ahead of the reader as there are unread
elements. -/
theorem mod_unreadCount (rd : Nat) {wr : Nat} (hwr : wr < 2 ^ w) :
    (rd + unreadCount w rd wr) % 2 ^ w = wr := by
  have hpos : (0 : Int) < 2 ^ w := by positivity
  have hlow := Int.emod_nonneg ((wr : Int) - rd) (ne_of_gt hpos)
  have hcount : ((unreadCount w rd wr : Nat) : Int) = ((wr : Int) - rd) % 2 ^ w := by
    unfold unreadCount wrap
    exact Int.toNat_of_nonneg hlow
  have hsum : ((rd + unreadCount w rd wr : Nat) : Int) % 2 ^ w = (wr : Int) % 2 ^ w := by
    push_cast
    rw [hcount, Int.add_emod_emod]
    congr 1
    omega
  have hnat : (rd + unreadCount w rd wr) % 2 ^ w = wr % 2 ^ w := by exact_mod_cast hsum
  rw [hnat, Nat.mod_eq_of_lt hwr]

/-- The counters differ by `n` when the writer is `n` cells ahead. -/
theorem unreadCount_eq {rd n : Nat} (hn : n < 2 ^ w) :
    unreadCount w rd ((rd + n) % 2 ^ w) = n := by
  have hcast : (((rd + n) % 2 ^ w : Nat) : Int) = ((rd : Int) + n) % 2 ^ w := by
    push_cast
    rfl
  have hsub : (((rd : Int) + n) % 2 ^ w - rd) % 2 ^ w = (n : Int) % 2 ^ w := by
    rw [Int.emod_sub_emod]
    congr 1
    omega
  rw [unreadCount, wrap, hcast, hsub]
  exact wrap_natCast hn

theorem unreadCount_eq_zero {rd wr : Nat} (hrd : rd < 2 ^ w) (hwr : wr < 2 ^ w) :
    unreadCount w rd wr = 0 ↔ rd = wr := by
  refine ⟨fun hzero => ?_, fun heq => ?_⟩
  · have hmod := mod_unreadCount rd hwr
    rwa [hzero, Nat.add_zero, Nat.mod_eq_of_lt hrd] at hmod
  · rw [heq, unreadCount, sub_self]
    exact wrap_natCast (by positivity)

theorem unread_eq_nil {buf : Nat → α} {rd wr : Nat} (hrd : rd < 2 ^ w) (hwr : wr < 2 ^ w) :
    unread w k buf rd wr = [] ↔ rd = wr := by
  rw [← List.length_eq_zero_iff, length_unread, unreadCount_eq_zero hrd hwr]

/-- Reducing a counter to its width does not change the cell it selects. -/
theorem cell_mod (hk : k ≤ w) (n : Nat) : n % 2 ^ w % 2 ^ k = n % 2 ^ k :=
  Nat.mod_mod_of_dvd n (Nat.pow_dvd_pow 2 hk)

/-- Two cells at a distance below the size of the buffer are different. -/
theorem cell_ne {a i j : Nat} (hi : i < j) (hj : j < 2 ^ k) :
    (a + i) % 2 ^ k ≠ (a + j) % 2 ^ k := by
  intro heq
  have hmod : i % 2 ^ k = j % 2 ^ k := Nat.ModEq.add_left_cancel' a heq
  rw [Nat.mod_eq_of_lt (hi.trans hj), Nat.mod_eq_of_lt hj] at hmod
  omega

/-- An element stored at the writer's cell of a buffer that is not full comes
after the unread ones. -/
theorem unread_store (hk : k < w) (buf : Nat → α) {rd wr : Nat} (hwr : wr < 2 ^ w)
    (hroom : unreadCount w rd wr < 2 ^ k) (x : α) :
    unread w k (Function.update buf (wr % 2 ^ k) x) rd ((wr + 1) % 2 ^ w) =
      unread w k buf rd wr ++ [x] := by
  set n := unreadCount w rd wr with hn
  have hsize : 2 ^ k < 2 ^ w := Nat.pow_lt_pow_right (by omega) hk
  have hahead : (rd + n) % 2 ^ w = wr := mod_unreadCount rd hwr
  have hnext : (wr + 1) % 2 ^ w = (rd + (n + 1)) % 2 ^ w := by
    rw [← hahead, Nat.mod_add_mod, Nat.add_assoc]
  have hcell : (rd + n) % 2 ^ k = wr % 2 ^ k := by
    rw [← hahead, cell_mod hk.le]
  unfold unread
  rw [hnext, unreadCount_eq (by omega), List.range_succ, List.map_append, ← hn]
  congr 1
  · refine List.map_congr_left fun i hi => Function.update_of_ne ?_ x buf
    rw [← hcell]
    exact cell_ne (List.mem_range.mp hi) hroom
  · simp [hcell]

/-- The element at the reader's cell is the oldest unread one. -/
theorem unread_take (hk : k ≤ w) {buf : Nat → α} {rd wr : Nat} (hwr : wr < 2 ^ w)
    (hsome : unreadCount w rd wr ≠ 0) :
    unread w k buf rd wr =
      buf (rd % 2 ^ k) :: unread w k buf ((rd + 1) % 2 ^ w) wr := by
  obtain ⟨n, hn⟩ := Nat.exists_eq_succ_of_ne_zero hsome
  have hlt := unreadCount_lt (w := w) rd wr
  have hahead := mod_unreadCount rd hwr
  rw [hn, Nat.succ_eq_add_one] at hahead
  have hrest : unreadCount w ((rd + 1) % 2 ^ w) wr = n := by
    have hwr' : wr = ((rd + 1) % 2 ^ w + n) % 2 ^ w := by
      rw [← hahead, Nat.mod_add_mod, Nat.add_assoc, Nat.add_comm 1 n]
    rw [hwr']
    exact unreadCount_eq (by omega)
  unfold unread
  rw [hn, hrest, List.range_succ_eq_map, List.map_cons, List.map_map, Nat.add_zero]
  congr 1
  refine List.map_congr_left fun i _ => ?_
  have hcell : ((rd + 1) % 2 ^ w + i) % 2 ^ k = (rd + (i + 1)) % 2 ^ k := by
    rw [← cell_mod hk ((rd + 1) % 2 ^ w + i), Nat.mod_add_mod, cell_mod hk, Nat.add_assoc,
      Nat.add_comm 1 i]
  rw [Function.comp_apply, hcell]

end LibnklabsPico.Foundation
