/-
  Dbase/Nkxpath.lean --- `nk_xpath` of `libnklabs/src/nkserialize.c`.

  A key such as `rows[2].name` leads from a value to a part of it.  The triggers of a
  member are no part of the schema here; they are given by a function.  The loop runs on
  fuel, and `none` says that it is not done when the fuel is.  Messages to `nkstderr` are
  left out.
-/
import LibnklabsPico.Dbase.Schema
import LibnklabsPico.Text.FormatLanguage

set_option autoImplicit false

namespace LibnklabsPico.Dbase

open LibnklabsPico.Foundation
open LibnklabsPico.File
open LibnklabsPico.File.FileProg
open LibnklabsPico.Text

/-- What `nk_xpath` gives back: the type, `*location_loc` and `*triggers`. -/
structure XpathResult where
  /-- the null pointer is `none` -/
  type : Option Ty
  location : Nat
  triggers : UInt32

/-- The type and the address of an item, unless the index is out of bounds or there are no
items. -/
def xpathIndex (mem : Memory) (type : Ty) (location idx : Nat) : Option (Ty × Nat) :=
  match type with
  | .tVarray _ subtype _ =>
      let count := getLen mem location
      let location := location + lenSize
      if idx ≥ count then none else some (subtype, location + idx * subtype.size)
  | .tTable _ rowSize columns _ =>
      let count := getLen mem location
      let location := location + lenSize
      if idx ≥ count then none
      else some (.tStruct rowSize columns none, location + idx * rowSize)
  | .tArray size subtype _ =>
      let count := size / subtype.size
      if idx ≥ count then none else some (subtype, location + idx * subtype.size)
  | _ => none

/-- The member of a structure. -/
def xpathMember (type : Ty) (buf : List UInt8) : Option Member :=
  match type with
  | .tStruct _ members _ => findMember members buf
  | _ => none

/-- `nk_fscan(&f, "[ %zu ]%e", &idx)`: its status and `idx`. -/
def scanIndex (fl : Floats) (fuel : Nat) : FileProg (Bool × Nat) := do
  let (status, out, _) ← nkVscan fl fuel false "[ %zu ]%e" [.num] (fun _ => 0)
  pure (status, (storedNumbers out).headD 0)

/-- Behind a part of the key: a dot is taken, a bracket goes on, and anything else leaves
the loop. -/
def xpathSeparator {α : Type} (next stop : FileProg α) : FileProg α := do
  let c ← fpeek
  if c = ch '.' then do
    let _ ← fnextFast
    next
  else do
    let c ← fpeek
    if c = ch '[' then next else stop

/-- What is done behind the loop. -/
def xpathDone (start : Nat) (type : Ty) (location : Nat) (triggers : UInt32) :
    FileProg (Option XpathResult) := do
  let atEnd ← feof
  -- Syntax error in key
  if atEnd = 0 then pure (some ⟨none, start, triggers⟩)
  else pure (some ⟨some type, location, triggers⟩)

/-- The loop over the parts of the key. -/
def xpathLoop (fl : Floats) (triggersOf : Member → UInt32) (mem : Memory) (fuel start : Nat) :
    Nat → Ty → Nat → UInt32 → FileProg (Option XpathResult)
  | 0, _, _, _ => pure none
  | n + 1, type, location, triggers => do
      let atEnd ← feof
      if atEnd = 0 then do
        let (found, idx) ← scanIndex fl fuel
        if found then
          match xpathIndex mem type location idx with
          | some (type, location) =>
              xpathSeparator (xpathLoop fl triggersOf mem fuel start n type location triggers)
                (xpathDone start type location triggers)
          | none => pure (some ⟨none, start, triggers⟩)
        else do
          let (found, buf) ← nkFscanBuf fl fuel "%i%e" nkdbaseMaxIdentLen
          if found then
            match xpathMember type buf with
            | some m =>
                let type := m.2.1
                let location := location + m.2.2
                let triggers := triggers ||| triggersOf m
                xpathSeparator (xpathLoop fl triggersOf mem fuel start n type location triggers)
                  (xpathDone start type location triggers)
            | none => pure (some ⟨none, start, triggers⟩)
          -- Syntax error in key
          else pure (some ⟨none, start, triggers⟩)
      else xpathDone start type location triggers

/-- `nk_xpath(key, type, location_loc, triggers)` -/
def nkXpath (fl : Floats) (triggersOf : Member → UInt32) (mem : Memory) (fuel : Nat)
    (key : List UInt8) (type : Ty) (location : Nat) (triggers : UInt32) : Option XpathResult :=
  ((xpathLoop fl triggersOf mem fuel location fuel type location triggers).run (nkinfile 32)
    (nkinfileOpenString 32 key)).bind Prod.fst

end LibnklabsPico.Dbase
