/-
  Foundation/Memory.lean --- byte addressed memory.

  A memory is a function from addresses to bytes.  `read` takes a block of bytes
  out of it and `store` puts one in; what is stored is read back, and a store
  leaves every other byte alone.
-/
import Mathlib.Tactic.Common

set_option autoImplicit false

namespace LibnklabsPico.Foundation

/-- The bytes of a memory by address. -/
abbrev Memory : Type := Nat → UInt8

namespace Memory

/-- The bytes at an address. -/
def read (mem : Memory) (addr size : Nat) : List UInt8 :=
  (List.range size).map fun i => mem (addr + i)

@[simp] theorem read_length (mem : Memory) (addr size : Nat) :
    (mem.read addr size).length = size := by
  simp [read]

@[simp] theorem read_zero (mem : Memory) (addr : Nat) : mem.read addr 0 = [] := rfl

theorem read_getElem? (mem : Memory) {addr size i : Nat} (hi : i < size) :
    (mem.read addr size)[i]? = some (mem (addr + i)) := by
  simp [read, hi]

theorem read_take (mem : Memory) {addr m n : Nat} (h : m ≤ n) :
    (mem.read addr n).take m = mem.read addr m := by
  simp [read, ← List.map_take, List.take_range, Nat.min_eq_left h]

theorem read_drop (mem : Memory) (addr m n : Nat) :
    (mem.read addr n).drop m = mem.read (addr + m) (n - m) := by
  refine List.ext_getElem (by simp) fun i hi hi' => ?_
  simp [read, Nat.add_assoc]

theorem read_succ (mem : Memory) (addr n : Nat) :
    mem.read addr (n + 1) = mem.read addr n ++ [mem (addr + n)] := by
  simp [read, List.range_succ]

theorem read_append (mem : Memory) (addr m n : Nat) :
    mem.read addr (m + n) = mem.read addr m ++ mem.read (addr + m) n := by
  induction n with
  | zero => simp [read]
  | succ n ih => rw [← Nat.add_assoc, read_succ, ih, read_succ, List.append_assoc, Nat.add_assoc]

/-- A read depends on the bytes read only. -/
theorem read_congr {mem mem' : Memory} {addr size : Nat}
    (h : ∀ a, addr ≤ a → a < addr + size → mem a = mem' a) :
    mem.read addr size = mem'.read addr size := by
  refine List.map_congr_left fun i hi => h _ (Nat.le_add_right addr i) ?_
  exact Nat.add_lt_add_left (List.mem_range.mp hi) addr

/-- Reading what is known byte by byte. -/
theorem read_eq {mem : Memory} {addr : Nat} {data : List UInt8}
    (h : ∀ i, (hi : i < data.length) → mem (addr + i) = data[i]) :
    mem.read addr data.length = data := by
  refine List.ext_getElem (by simp) fun i hi hi' => ?_
  simpa [read] using h i hi'

/-- Combine bytes with those at an address, by a rule that takes the old byte and
the new one. -/
def combine (rule : UInt8 → UInt8 → UInt8) (mem : Memory) (addr : Nat) (data : List UInt8) :
    Memory := fun a =>
  if addr ≤ a ∧ a < addr + data.length then rule (mem a) (data.getD (a - addr) 0) else mem a

section
variable {rule : UInt8 → UInt8 → UInt8}

theorem combine_outside {mem : Memory} {addr a : Nat} {data : List UInt8}
    (h : a < addr ∨ addr + data.length ≤ a) : mem.combine rule addr data a = mem a := by
  unfold combine
  rw [if_neg (by omega)]

theorem combine_inside (mem : Memory) {addr i : Nat} {data : List UInt8}
    (hi : i < data.length) :
    mem.combine rule addr data (addr + i) = rule (mem (addr + i)) data[i] := by
  unfold combine
  rw [if_pos (by omega), Nat.add_sub_cancel_left, List.getD_eq_getElem?_getD,
    List.getElem?_eq_getElem hi, Option.getD_some]

@[simp] theorem combine_nil (mem : Memory) (addr : Nat) : mem.combine rule addr [] = mem := by
  funext a
  exact combine_outside (by rw [List.length_nil]; omega)

/-- The address of no data does not matter. -/
theorem combine_readdress (mem : Memory) {addr addr' : Nat} {data : List UInt8}
    (heq : data.length ≠ 0 → addr = addr') :
    mem.combine rule addr data = mem.combine rule addr' data := by
  by_cases hdata : data.length = 0
  · rw [List.length_eq_zero_iff.mp hdata, combine_nil, combine_nil]
  · rw [heq hdata]

/-- Combining bytes behind bytes just combined. -/
theorem combine_append (mem : Memory) (addr : Nat) (data data' : List UInt8) :
    (mem.combine rule addr data).combine rule (addr + data.length) data' =
      mem.combine rule addr (data ++ data') := by
  funext a
  simp only [combine, List.length_append, List.getD_eq_getElem?_getD, List.getElem?_append]
  split_ifs <;> first
    | rfl
    | omega
    | rw [Nat.sub_add_eq]

/-- Combining bytes piece by piece. -/
theorem combine_take_drop (mem : Memory) (addr : Nat) {n : Nat} {data : List UInt8}
    (hn : n ≤ data.length) :
    (mem.combine rule addr (data.take n)).combine rule (addr + n) (data.drop n) =
      mem.combine rule addr data := by
  have hlength : addr + n = addr + (data.take n).length := by
    rw [List.length_take, Nat.min_eq_left hn]
  rw [hlength, combine_append, List.take_append_drop]

end

/-- Put bytes at an address. -/
def store (mem : Memory) (addr : Nat) (data : List UInt8) : Memory := fun a =>
  if addr ≤ a ∧ a < addr + data.length then data.getD (a - addr) 0 else mem a

theorem store_eq_combine (mem : Memory) (addr : Nat) (data : List UInt8) :
    mem.store addr data = mem.combine (fun _ new => new) addr data := rfl

theorem store_outside {mem : Memory} {addr a : Nat} {data : List UInt8}
    (h : a < addr ∨ addr + data.length ≤ a) : mem.store addr data a = mem a := by
  rw [store_eq_combine]
  exact combine_outside h

theorem store_inside (mem : Memory) {addr i : Nat} {data : List UInt8} (hi : i < data.length) :
    mem.store addr data (addr + i) = data[i] := by
  rw [store_eq_combine, combine_inside mem hi]

/-- A store elsewhere leaves what is read. -/
theorem read_store_of_disjoint (mem : Memory) {addr a n : Nat} {data : List UInt8}
    (h : a + n ≤ addr ∨ addr + data.length ≤ a) : (mem.store addr data).read a n = mem.read a n :=
  read_congr fun b hlow hhigh => store_outside (by omega)

/-- Storing one byte. -/
theorem store_one (mem : Memory) (addr : Nat) (b : UInt8) (a : Nat) :
    mem.store addr [b] a = if a = addr then b else mem a := by
  split
  · rename_i heq
    have hin : mem.store addr [b] (addr + 0) = b := mem.store_inside Nat.one_pos
    rw [heq]
    exact hin
  · rename_i hne
    refine store_outside ?_
    rw [List.length_singleton]
    omega

/-- Storing bytes behind bytes just stored. -/
theorem store_append (mem : Memory) (addr : Nat) (data data' : List UInt8) :
    (mem.store addr data).store (addr + data.length) data' = mem.store addr (data ++ data') := by
  simp only [store_eq_combine, combine_append]

/-- Stores to disjoint places commute. -/
theorem store_comm (mem : Memory) {addr addr' : Nat} {data data' : List UInt8}
    (h : addr + data.length ≤ addr' ∨ addr' + data'.length ≤ addr) :
    (mem.store addr data).store addr' data' = (mem.store addr' data').store addr data := by
  funext a
  unfold store
  split_ifs <;> first
    | rfl
    | omega

@[simp] theorem store_nil (mem : Memory) (addr : Nat) : mem.store addr [] = mem := by
  rw [store_eq_combine, combine_nil]

/-- Storing what is there changes nothing. -/
theorem store_read (mem : Memory) (addr size : Nat) :
    mem.store addr (mem.read addr size) = mem := by
  funext a
  by_cases h : addr ≤ a ∧ a < addr + size
  · obtain ⟨i, rfl⟩ := Nat.exists_eq_add_of_le h.1
    rw [store_inside mem (by rw [read_length]; omega)]
    simp [read]
  · exact store_outside (by rw [read_length]; omega)

/-- What was stored is read back. -/
theorem read_store (mem : Memory) (addr : Nat) (data : List UInt8) :
    (mem.store addr data).read addr data.length = data :=
  read_eq fun _ hi => mem.store_inside hi

/-- The same for the last of the bytes stored. -/
theorem read_store_behind (mem : Memory) (addr : Nat) (data data' : List UInt8) :
    (mem.store addr (data ++ data')).read (addr + data.length) data'.length = data' := by
  rw [← store_append, read_store]

end Memory

end LibnklabsPico.Foundation
