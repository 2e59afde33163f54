/-
  Shell/Nkcli.lean --- the command table of `libnklabs/src/nkcli.c`.

  The search and the completion of names are in `Readline/Nkreadline.lean`, this
  is the sorting of the table.  A text is the list of its bytes; the NUL behind
  it is what is read where the list ends.  Whether `char` is signed is up to the
  compiler, so both are modelled.
-/
import LibnklabsPico.Foundation.Bytes

set_option autoImplicit false

namespace LibnklabsPico.Shell

/-- Command table entry; `Func` is the type of the command functions. -/
structure ConsoleCmd (Func : Type) where
  /-- Command name and help -/
  text : List UInt8
  /-- Command function -/
  func : Func
deriving Repr, DecidableEq

/-- The value of a `char` in a comparison. -/
def charValue (signed : Bool) (c : UInt8) : Int := if signed then c.toInt8.toInt else c.toNat

/-- The end of `strcmp_PP`: the order of the characters it stops at. -/
def compareChars (signed : Bool) (a b : UInt8) : Int :=
  if charValue signed a > charValue signed b then 1
  else if charValue signed a < charValue signed b then -1
  else 0

/-- `strcmp_PP` -/
def strcmpPP (signed : Bool) : List UInt8 → List UInt8 → Int
  | a :: as, b :: bs =>
      if a ≠ 0 ∧ b ≠ 0 ∧ a = b then strcmpPP signed as bs else compareChars signed a b
  | as, bs => compareChars signed (as.headD 0) (bs.headD 0)

section

variable {Func : Type}

/-- The `for` loop of `nk_init_cli` with `left` entries behind the entry `x`. -/
def sortPass (signed : Bool) :
    Nat → Nat → List (ConsoleCmd Func) → Bool → List (ConsoleCmd Func) × Bool
  | left + 1, x, table, work =>
      match table[x]?, table[x + 1]? with
      | some this, some next =>
          if strcmpPP signed this.text next.text > 0 then
            sortPass signed left (x + 1) ((table.set x next).set (x + 1) this) true
          else sortPass signed left (x + 1) table work
      | _, _ => (table, work)
  | 0, _, table, work => (table, work)

/-- The bubble sort of `nk_init_cli`.  Its `do` loop makes at most `passes`
passes here; `none` says that these were not enough. -/
def nkInitCli (signed : Bool) : Nat → List (ConsoleCmd Func) → Option (List (ConsoleCmd Func))
  | passes + 1, table =>
      match sortPass signed (table.length - 1) 0 table false with
      | (table, work) => if work then nkInitCli signed passes table else some table
  | 0, _ => none

end

end LibnklabsPico.Shell
