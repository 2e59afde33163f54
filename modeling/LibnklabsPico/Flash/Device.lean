/-
  Flash/Device.lean --- flash memories.

  A flash area is reached through three functions: `flash_read` only looks at
  the memory and is a function of it; `flash_erase` and `flash_write` change it
  and are the calls of a program.  They answer `0` for success.

  `nor` is a NOR memory whose calls all succeed: erasing sets bits, programming
  clears bits.  `strictNor` is the same memory with a watch on every byte: it
  allows a byte to be programmed only if it was erased before and was not
  programmed before, counted from a given moment.
-/
import LibnklabsPico.Foundation.Memory
import LibnklabsPico.Foundation.Prog

set_option autoImplicit false

namespace LibnklabsPico.Flash

open LibnklabsPico.Foundation

/-- `flash_read(addr, size)`: its return value and the bytes stored. -/
abbrev FlashRead : Type := Nat → Nat → Int × List UInt8

end LibnklabsPico.Flash

namespace LibnklabsPico.Foundation.Memory

/-- A `flash_read` that succeeds. -/
def reader (mem : Memory) : Flash.FlashRead := fun addr size => (0, mem.read addr size)

/-- Set all bits. -/
def erase (mem : Memory) (addr size : Nat) : Memory := fun a =>
  if addr ≤ a ∧ a < addr + size then 0xFF else mem a

/-- Clear the bits that are clear in the data. -/
def program (mem : Memory) (addr : Nat) (data : List UInt8) : Memory := fun a =>
  if addr ≤ a ∧ a < addr + data.length then mem a &&& data.getD (a - addr) 0 else mem a

end LibnklabsPico.Foundation.Memory

namespace LibnklabsPico.Flash

open LibnklabsPico.Foundation

/-- The calls that change a flash memory. -/
inductive FlashCmd where
  | erase (addr size : Nat)
  | write (addr : Nat) (data : List UInt8)

/-- Programs that erase and write flash memory. -/
abbrev FlashProg : Type → Type := Prog FlashCmd fun _ => Int

/-- `flash_erase` -/
def flashErase (addr size : Nat) : FlashProg Int := Prog.perform (FlashCmd.erase addr size)

/-- `flash_write` -/
def flashWrite (addr : Nat) (data : List UInt8) : FlashProg Int :=
  Prog.perform (FlashCmd.write addr data)

@[simp] theorem ensures_flashErase {Q : FlashCmd → Prop} {post : Int → Prop} {addr size : Nat} :
    (flashErase addr size).Ensures Q post ↔ Q (.erase addr size) ∧ ∀ r, post r := Iff.rfl

@[simp] theorem ensures_flashWrite {Q : FlashCmd → Prop} {post : Int → Prop} {addr : Nat}
    {data : List UInt8} :
    (flashWrite addr data).Ensures Q post ↔ Q (.write addr data) ∧ ∀ r, post r := Iff.rfl

/-- What a call does to a NOR memory. -/
def FlashCmd.apply : FlashCmd → Memory → Memory
  | .erase addr size, mem => mem.erase addr size
  | .write addr data, mem => mem.program addr data

/-- The addresses a call may change. -/
def FlashCmd.Touches (c : FlashCmd) (a : Nat) : Prop :=
  match c with
  | .erase addr size => addr ≤ a ∧ a < addr + size
  | .write addr data => addr ≤ a ∧ a < addr + data.length

/-- A call leaves every other byte alone. -/
theorem FlashCmd.apply_of_not_touches {c : FlashCmd} {mem : Memory} {a : Nat}
    (h : ¬ c.Touches a) : c.apply mem a = mem a := by
  cases c with
  | erase addr size => exact if_neg h
  | write addr data => exact if_neg h

/-- A NOR memory whose calls all succeed. -/
def nor : Handler FlashCmd (fun _ => Int) Memory := fun c mem => some (0, c.apply mem)

/-- A memory without the calls that fail. -/
def succeeding {σ : Type} (h : Handler FlashCmd (fun _ => Int) σ) :
    Handler FlashCmd (fun _ => Int) σ :=
  fun c s => (h c s).filter fun answer => answer.1 == 0

/-- A run in which no call fails is a run. -/
theorem succeeding_run {σ α : Type} {h : Handler FlashCmd (fun _ => Int) σ} {p : FlashProg α}
    {s s' : σ} {a : α} (hrun : p.run (succeeding h) s = some (a, s')) :
    p.run h s = some (a, s') := by
  have hstep : ∀ (c : FlashCmd) (s t : σ) (r : Int) (t' : σ), s = t →
      succeeding h c t = some (r, t') → ∃ s', h c s = some (r, s') ∧ s' = t' := by
    rintro c s _ r t' rfl hcall
    exact ⟨t', (Option.filter_eq_some_iff.mp hcall).1, rfl⟩
  obtain ⟨s'', hrun', rfl⟩ := Prog.run_simulates hstep rfl hrun
  exact hrun'

/-- A NOR memory with a watch on every byte. -/
structure Watched where
  mem : Memory
  /-- erased since the watch began -/
  erased : Nat → Bool
  /-- programmed since the watch began -/
  programmed : Nat → Bool

/-- Begin to watch. -/
def Watched.start (mem : Memory) : Watched := ⟨mem, fun _ => false, fun _ => false⟩

/-- A NOR memory that allows every byte to be programmed once, after it was
erased. -/
def strictNor : Handler FlashCmd (fun _ => Int) Watched
  | .erase addr size, dev =>
      some (0, { dev with
        mem := dev.mem.erase addr size
        erased := fun a => dev.erased a || decide (addr ≤ a ∧ a < addr + size) })
  | .write addr data, dev =>
      if (List.range data.length).all fun i =>
          dev.erased (addr + i) && !dev.programmed (addr + i) then
        some (0, { dev with
          mem := dev.mem.program addr data
          programmed := fun a =>
            dev.programmed a || decide (addr ≤ a ∧ a < addr + data.length) })
      else none

/-- What the strict memory allows, the plain one does. -/
theorem strictNor_call {c : FlashCmd} {dev dev' : Watched} {r : Int}
    (hcall : strictNor c dev = some (r, dev')) : nor c dev.mem = some (r, dev'.mem) := by
  cases c with
  | erase addr size =>
      simp only [strictNor, Option.some.injEq, Prod.mk.injEq] at hcall
      obtain ⟨rfl, rfl⟩ := hcall
      rfl
  | write addr data =>
      simp only [strictNor] at hcall
      split at hcall
      · simp only [Option.some.injEq, Prod.mk.injEq] at hcall
        obtain ⟨rfl, rfl⟩ := hcall
        rfl
      · cases hcall

theorem strictNor_run {α : Type} {p : FlashProg α} {dev dev' : Watched} {a : α}
    (hrun : p.run strictNor dev = some (a, dev')) : p.run nor dev.mem = some (a, dev'.mem) := by
  have hstep : ∀ (c : FlashCmd) (mem : Memory) (dev : Watched) (r : Int) (dev' : Watched),
      mem = dev.mem → strictNor c dev = some (r, dev') →
        ∃ mem', nor c mem = some (r, mem') ∧ mem' = dev'.mem := by
    intro c mem dev r dev' hrel hcall
    exact ⟨dev'.mem, hrel ▸ strictNor_call hcall, rfl⟩
  obtain ⟨mem', hrun', rfl⟩ := Prog.run_simulates hstep rfl hrun
  exact hrun'

end LibnklabsPico.Flash
