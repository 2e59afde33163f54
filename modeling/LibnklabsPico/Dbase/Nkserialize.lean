/-
  Dbase/Nkserialize.lean --- the serializer and the parser of
  `libnklabs/src/nkserialize.c`.

  `nk_dbase_serialize` is the list of the characters it puts; `nk_fscan_keyval` is a
  program over the input file that returns its status and the memory.  The loops and
  the recursion run on fuel: every pass and every level reads a character.  Messages
  to `nkstderr` are left out.
-/
import LibnklabsPico.Dbase.Schema
import LibnklabsPico.Text.Nkprintf
import LibnklabsPico.Text.Nkscan

set_option autoImplicit false

namespace LibnklabsPico.Dbase

open LibnklabsPico.Foundation
open LibnklabsPico.File
open LibnklabsPico.File.FileProg
open LibnklabsPico.Text

variable (fl : Floats)

/-! ## Serialize a database with a given schema -/

/-- One character of a string. -/
def serializeChar (charSigned : Bool) (s : UInt8) : List UInt8 :=
  let c := charVal charSigned s.toNat
  if c = ch '"' then nkFprintf fl "\\\"" []
  else if c = ch '\\' then nkFprintf fl "\\\\" []
  else if c = ch '\n' then nkFprintf fl "\\n" []
  else if c = ch '\r' then nkFprintf fl "\\r" []
  else if c < 32 ∨ c > 126 then nkFprintf fl "\\x%2.2x" [.int s.toNat]
  else [s]

/-- The format of an integer. -/
def IntType.format : IntType → String
  | .tInt | .tInt8 | .tInt16 => "%d"
  | .tUint | .tUint8 | .tUint16 => "%u"

/-- The items of an array, `size` bytes apart. -/
def serializeItems (item : Nat → List UInt8) (size : Nat) : Nat → Nat → List UInt8
  | 0, _ => []
  | count + 1, location =>
      item location ++ (if count = 0 then [] else nkFprintf fl ", " []) ++
        serializeItems item size count (location + size)

/-- The rows of a table, `size` bytes apart. -/
def serializeRows (row : Nat → List UInt8) (size : Nat) : Nat → Nat → List UInt8
  | 0, _ => []
  | count + 1, location =>
      ascii ":" ++ row location ++ serializeRows row size count (location + size)

/-- The names of the columns of a table. -/
def serializeHeader (columns : List Member) : List UInt8 :=
  columns.flatMap fun m => nkFprintf fl "%s " [.str m.1]

mutual

/-- `nk_dbase_serialize`: the characters it puts. -/
def nkDbaseSerialize (charSigned : Bool) (mem : Memory) : Ty → Nat → List UInt8
  | .tStruct _ members _, location =>
      ascii "\x7b" ++ serializeMembers charSigned mem members location ++ ascii "\x7d"
  | .tVarray _ subtype _, location =>
      ascii "[" ++
        serializeItems fl (nkDbaseSerialize charSigned mem subtype) subtype.size
          (getLen mem location) (location + lenSize) ++
        ascii "]"
  | .tArray size subtype _, location =>
      ascii "[" ++
        serializeItems fl (nkDbaseSerialize charSigned mem subtype) subtype.size
          (size / subtype.size) location ++
        ascii "]"
  | .tTable _ rowSize columns _, location =>
      ascii "(" ++ serializeHeader fl columns ++
        serializeRows (serializeRow charSigned mem columns) rowSize (getLen mem location)
          (location + lenSize) ++
        ascii ")"
  | .tBool _ _, location =>
      if ofLe (mem.read location 4) ≠ 0 then nkFprintf fl "true" [] else nkFprintf fl "false" []
  | .tInteger what _ _, location =>
      nkFprintf fl what.format [.int (what.load charSigned mem location)]
  | .tDouble _ _, location => nkFprintf fl "%g" [.real (fl.getDouble (mem.read location 8))]
  | .tFloat _ _, location => nkFprintf fl "%g" [.real (fl.getFloat (mem.read location 4))]
  | .tString size _, location =>
      -- the string ends within its size
      ascii "\"" ++ (cString (mem.read location size)).flatMap (serializeChar fl charSigned) ++
        ascii "\""

/-- The members of a structure. -/
def serializeMembers (charSigned : Bool) (mem : Memory) : List Member → Nat → List UInt8
  | [], _ => []
  | (name, type, offset) :: members, location =>
      nkFprintf fl "%s:" [.str name] ++ nkDbaseSerialize charSigned mem type (location + offset) ++
        (if members.isEmpty then [] else nkFprintf fl ", " []) ++
        serializeMembers charSigned mem members location

/-- The fields of one row of a table. -/
def serializeRow (charSigned : Bool) (mem : Memory) : List Member → Nat → List UInt8
  | [], _ => []
  | (_, type, offset) :: columns, location =>
      nkDbaseSerialize charSigned mem type (location + offset) ++
        (if columns.isEmpty then [] else ascii " ") ++
        serializeRow charSigned mem columns location

end

/-! ## Numbers -/

/-- A number as it was read: a `uint64_t` or a `double`, to be negated or not. -/
inductive Number where
  | int (neg : Bool) (val : Nat)
  | real (neg : Bool) (val : fl.Double)

variable {fl} in
/-- The number as an integer. -/
def Number.toInt : Number fl → Int
  | .int neg val => if neg then -signed 64 val else val
  | .real neg val => fl.toInt (if neg then fl.neg val else val)

variable {fl} in
/-- The number as a `double`. -/
def Number.toDouble : Number fl → fl.Double
  | .int neg val => fl.ofInt (if neg then -signed 64 val else val)
  | .real neg val => if neg then fl.neg val else val

/-- `test && more` -/
def andAlso (test : Bool) (more : FileProg Bool) : FileProg Bool :=
  if test then more else pure false

/-- `nk_fpeek_rel(f, n) == c` -/
def nextIs (n c : Int) : FileProg Bool := do
  let next ← fpeekRel n
  pure (next == c)

/-- `nk_fpeek_rel(f, 1) >= '0' && nk_fpeek_rel(f, 1) <= '9'` -/
def nextIsDigit : FileProg Bool := do
  let next ← fpeekRel 1
  pure (isDigit next)

/-- The digits of a decimal number: the number and the character after it. -/
def decLoop (digit : Int → Bool) : Nat → Int → Nat → FileProg (Nat × Int)
  | 0, c, num => pure (num, c)
  | fuel + 1, c, num =>
      if digit c then do
        let next ← fnextFast
        decLoop digit fuel next (u64 (num * 10 + (c - ch '0').toNat))
      else pure (num, c)

/-- The label `DOUBLE` or `NEGDOUBLE`. -/
def scanReal (neg : Bool) : FileProg (Bool × Option (Number fl)) := do
  let (sta, val) ← fl.scan
  pure (sta, some (.real neg val))

/-- A hexadecimal number, after its first `skip` characters. -/
def scanHexNumber (fuel : Nat) (neg : Bool) (skip : Int) :
    FileProg (Bool × Option (Number fl)) := do
  let _ ← fseekRel skip
  let (sta, val) ← nkFscanHex fuel (-1)
  pure (sta, some (.int neg val))

/-- A decimal number, or a floating point number that starts like one. -/
def scanDecNumber (digit : Int → Bool) (fuel : Nat) (neg : Bool) (c : Int) :
    FileProg (Bool × Option (Number fl)) := do
  let org ← ftell
  let (num, c) ← decLoop digit fuel c 0
  if c = ch '.' ∨ c = ch 'e' ∨ c = ch 'E' then
    let _ ← fseek org
    scanReal fl neg
  else pure (true, some (.int neg num))

/-- The branches that read a number with first character `c`.  What is a digit after
a minus sign, and the test for `-.`, are not the same for all types. -/
def scanNumber (negDigit : Int → Bool) (negPoint : FileProg Bool) (fuel : Nat) (c : Int) :
    FileProg (Bool × Option (Number fl)) := do
  let hex ← andAlso (c == ch '0') (nextIs 1 (ch 'x'))
  if hex then scanHexNumber fl fuel false 2
  else do
    let negHex ← andAlso (c == ch '-') do
      let zero ← nextIs 1 (ch '0')
      andAlso zero (nextIs 2 (ch 'x'))
    if negHex then scanHexNumber fl fuel true 3
    else if isDigit c then scanDecNumber fl isDigit fuel false c
    else do
      let negDec ← andAlso (c == ch '-') nextIsDigit
      if negDec then do
        let c ← fnextFast
        scanDecNumber fl negDigit fuel true c
      else do
        let negReal ← andAlso (c == ch '-') negPoint
        if negReal then do
          let _ ← fnextFast
          scanReal fl true
        else if c = ch '.' then scanReal fl false
        else pure (false, none)

/-- A number for an integer, or one that is skipped. -/
def scanIntNumber : Nat → Int → FileProg (Bool × Option (Number fl)) :=
  scanNumber fl isDigit (nextIs 1 (ch '.'))

/-- A number for a `double`: the test for `-.` moves the position. -/
def scanDoubleNumber : Nat → Int → FileProg (Bool × Option (Number fl)) :=
  scanNumber fl isDigit do
    let c ← fseekRel 1
    pure (c == ch '.')

/-- A number for a `float`: after a minus sign the loop takes `c >= '0' && c <= '0'`. -/
def scanFloatNumber : Nat → Int → FileProg (Bool × Option (Number fl)) :=
  scanNumber fl (fun c => decide (ch '0' ≤ c) && decide (c ≤ ch '0')) (nextIs 1 (ch '.'))

/-! ## Skip over a value without saving it -/

/-- `while (nk_fscan(f, " ,%e"));` -/
def commaLoop (fuel : Nat) : Nat → FileProg Unit
  | 0 => pure ()
  | n + 1 => do
      let more ← nkFscan fl fuel " ,%e"
      if more then commaLoop fuel n else pure ()

/-- If the next character is `c`, move past it and give `rtn`. -/
def closing (c : Int) (rtn : Bool) : FileProg Bool := do
  let d ← fpeek
  if d = c then do
    let _ ← fnextFast
    pure rtn
  else pure false

/-- The members of a structure: whether all values were skipped. -/
def skipMembers (skip : FileProg Bool) (fuel : Nat) : Nat → FileProg Bool
  | 0 => pure true
  | n + 1 => do
      let (found, _) ← nkFscanBuf fl fuel " %i : %e" nkdbaseMaxIdentLen
      if found then do
        let rtn ← skip
        if rtn then do
          commaLoop fl fuel fuel
          skipMembers skip fuel n
        else pure false
      else pure true

/-- The items of an array. -/
def skipItems (skip : FileProg Bool) (fuel : Nat) : Nat → FileProg Bool
  | 0 => pure true
  | n + 1 => do
      nkFscanWs fuel
      let atEnd ← feof
      let more ← andAlso (atEnd == 0) do
        let c ← fpeekFast
        pure (c != ch ']')
      if more then do
        let c ← fpeek
        if c = ch ',' then do
          let _ ← fnextFast
          skipItems skip fuel n
        else do
          let rtn ← skip
          if rtn then skipItems skip fuel n else pure false
      else pure true

/-- The column headers of a table. -/
def skipColumns (fuel : Nat) : Nat → FileProg Unit
  | 0 => pure ()
  | n + 1 => do
      let (found, _) ← nkFscanBuf fl fuel " %i %e" nkdbaseMaxIdentLen
      if found then skipColumns fuel n else pure ()

/-- The fields of a row. -/
def skipFields (skip : FileProg Bool) (fuel : Nat) : Nat → FileProg Bool
  | 0 => pure true
  | n + 1 => do
      nkFscanWs fuel
      let atEnd ← feof
      let more ← andAlso (atEnd == 0) do
        let c ← fpeekFast
        let d ← fpeekFast
        pure (c != ch ':' && d != ch ')')
      if more then do
        nkFscanWs fuel
        let rtn ← skip
        if rtn then skipFields skip fuel n else pure false
      else pure true

/-- The rows of a table. -/
def skipRows (skip : FileProg Bool) (fuel : Nat) : Nat → FileProg Bool
  | 0 => pure true
  | n + 1 => do
      let more ← nkFscan fl fuel " :%e"
      if more then do
        let rtn ← skipFields skip fuel fuel
        if rtn then skipRows skip fuel n else pure false
      else pure true

/-- The characters of a string, up to the closing quote. -/
def skipChars : Nat → Int → FileProg Int
  | 0, c => pure c
  | fuel + 1, c =>
      if c ≠ -1 ∧ c ≠ ch '"' then do
        let _ ← nkFscanEscape
        let c ← fpeek
        skipChars fuel c
      else pure c

/-- The branches of `skip_value` on the next character. -/
def skipBranches (skip : FileProg Bool) (fuel : Nat) (c : Int) : FileProg Bool :=
  if c = ch '{' then do
    let _ ← fnextFast
    let done ← skipMembers fl skip fuel fuel
    if done then closing (ch '}') true else pure false
  else if c = ch '[' then do
    let _ ← fnextFast
    let done ← skipItems skip fuel fuel
    if done then do
      let d ← fpeek
      if d = ch ']' then do
        let _ ← fnext
        pure true
      else pure false
    else pure false
  else if c = ch '(' then do
    let _ ← fnext
    skipColumns fl fuel fuel
    let done ← skipRows fl skip fuel fuel
    if done then nkFscan fl fuel " )%e" else pure false
  else if c = ch '"' then do
    let d ← fnextFast
    let d ← skipChars fuel d
    -- the closing quote is left where it is
    pure (d == ch '"')
  else do
    let (sta, _) ← scanIntNumber fl fuel c
    pure sta

/-- `skip_value` -/
def skipValue : Nat → FileProg Bool
  | 0 => pure false
  | fuel + 1 => orRewind (fun sta => sta) do
      let isTrue ← nkFscan fl fuel "true %e"
      if isTrue then pure true
      else do
        let isFalse ← nkFscan fl fuel "false %e"
        if isFalse then pure true
        else do
          let isNull ← nkFscan fl fuel "null %e"
          if isNull then pure true
          else do
            let c ← fpeek
            skipBranches fl (skipValue fuel) fuel c

/-! ## Parse any kind of value -/

/-- The parser for a value at an address: its status and the memory. -/
abbrev ValueScan : Type := Nat → Memory → FileProg (Bool × Memory)

/-- Boolean values. -/
def scanBool (fuel : Nat) : ValueScan := fun location mem => do
  let isTrue ← nkFscan fl fuel "true %e"
  if isTrue then pure (true, mem.store location (leBytes 4 1))
  else do
    let isFalse ← nkFscan fl fuel "false %e"
    if isFalse then pure (true, mem.store location (leBytes 4 0))
    else pure (false, mem)

/-- Save a number that was read with `save`, if there is one. -/
def saveNumber (save : Number fl → Memory) (mem : Memory)
    (scan : FileProg (Bool × Option (Number fl))) : FileProg (Bool × Memory) := do
  let (sta, num) ← scan
  match num with
  | some num => pure (sta, save num)
  | none => pure (sta, mem)

/-- The characters of a string: the character the loop ends at and what is saved. -/
def stringLoop (size : Nat) : Nat → Int → List UInt8 → FileProg (Int × List UInt8)
  | 0, c, s => pure (c, s)
  | fuel + 1, c, s =>
      if c ≠ -1 ∧ c ≠ ch '"' then do
        let char ← nkFscanEscape
        if char = -1 then pure (c, s)
        else do
          let s := if s.length ≠ size then s ++ [UInt8.ofNat (wrap 8 char)] else s
          let c ← fpeek
          stringLoop size fuel c s
      else pure (c, s)

/-- Strings. -/
def scanString (fuel size : Nat) : ValueScan := fun location mem => do
  let c ← fnextFast
  let (c, s) ← stringLoop (wrap 32 ((size : Int) - 1)) fuel c []
  let mem := mem.store location (s ++ [0])
  if c = ch '"' then do
    let _ ← fnextFast
    pure (true, mem)
  else pure (false, mem)

/-- The members of a structure: the last status and the memory. -/
def structLoop (value : Ty → ValueScan) (skip : FileProg Bool) (fuel : Nat)
    (members : List Member) (location : Nat) : Nat → Bool → Memory → FileProg (Bool × Memory)
  | 0, rtn, mem => pure (rtn, mem)
  | n + 1, rtn, mem => do
      nkFscanWs fuel
      let (found, buf) ← nkFscanBuf fl fuel "%i : %e" nkdbaseMaxIdentLen
      if found then
        match findMember members buf with
        | some (_, type, offset) => do
            let (rtn, mem) ← value type (location + offset) mem
            if rtn then do
              commaLoop fl fuel fuel
              structLoop value skip fuel members location n true mem
            else do
              -- Maybe type is wrong? Try to parse over it..
              let rtn ← skip
              if rtn then do
                commaLoop fl fuel fuel
                structLoop value skip fuel members location n true mem
              else pure (false, mem)
        | none => do
            -- Ignore unknown member
            let _ ← skip
            commaLoop fl fuel fuel
            structLoop value skip fuel members location n rtn mem
      else pure (rtn, mem)

/-- The items of an array from `base`: the last status, the bytes filled and the
memory. -/
def arrayLoop (value : ValueScan) (skip : FileProg Bool) (fuel base size itemSize : Nat) :
    Nat → Nat → Bool → Memory → FileProg (Bool × Nat × Memory)
  | 0, idx, rtn, mem => pure (rtn, idx, mem)
  | n + 1, idx, rtn, mem => do
      nkFscanWs fuel
      let c ← fpeek
      if c ≠ -1 ∧ c ≠ ch ']' then
        if c = ch ',' then do
          let _ ← fnextFast
          arrayLoop value skip fuel base size itemSize n idx rtn mem
        else if idx < size then do
          let (rtn, mem) ← value (base + idx) mem
          if rtn then arrayLoop value skip fuel base size itemSize n (idx + itemSize) true mem
          else pure (false, idx, mem)
        else do
          -- Ignore extra item
          let rtn ← skip
          if rtn then arrayLoop value skip fuel base size itemSize n idx true mem
          else pure (false, idx, mem)
      else pure (rtn, idx, mem)

/-- The columns of a table: their number, and `map`, which gives for each the member
it stands for.  The source has no test that `col` stays within `map`. -/
def columnLoop (columns : List Member) (fuel : Nat) :
    Nat → Nat → List (Option Member) → FileProg (Nat × List (Option Member))
  | 0, col, map => pure (col, map)
  | n + 1, col, map => do
      let (found, buf) ← nkFscanBuf fl fuel " %i %e" nkdbaseMaxIdentLen
      if found then
        match findMember columns buf with
        | some m => columnLoop columns fuel n (col + 1) (map.set col (some m))
        | none => columnLoop columns fuel n (col + 1) map
      else pure (col, map)

/-- The fields of one row; those of unknown columns, and all of a row past the last
one that can be saved, are skipped. -/
def fieldLoop (value : Ty → ValueScan) (skip : FileProg Bool) (fuel location : Nat)
    (full : Bool) : List (Option Member) → Bool → Memory → FileProg (Bool × Memory)
  | [], rtn, mem => pure (rtn, mem)
  | x :: map, _, mem =>
      match if full then none else x with
      | none => do
          -- Skip this field
          let rtn ← skip
          if rtn then fieldLoop value skip fuel location full map true mem
          else pure (false, mem)
      | some (_, type, offset) => do
          nkFscanWs fuel
          let (rtn, mem) ← value type (location + offset) mem
          if rtn then fieldLoop value skip fuel location full map true mem
          else pure (false, mem)

/-- The rows of a table: the last status, the number of rows and the memory. -/
def rowLoop (value : Ty → ValueScan) (skip : FileProg Bool) (fuel rowSize maxrows : Nat)
    (map : List (Option Member)) :
    Nat → Nat → Nat → Bool → Memory → FileProg (Bool × Nat × Memory)
  | 0, row, _, rtn, mem => pure (rtn, row, mem)
  | n + 1, row, location, rtn, mem => do
      let more ← nkFscan fl fuel " : %e"
      if more then do
        let (rtn, mem) ← fieldLoop value skip fuel location (row == maxrows) map rtn mem
        rowLoop value skip fuel rowSize maxrows map n (if row ≠ maxrows then row + 1 else row)
          (location + rowSize) rtn mem
      else pure (rtn, row, mem)

/-- The branches of `nk_fscan_keyval`, with `value` for its recursive calls. -/
def scanValue (value : Ty → ValueScan) (skip : FileProg Bool) (fuel : Nat) (type : Ty)
    (location : Nat) (c : Int) (mem : Memory) : FileProg (Bool × Memory) :=
  match type with
  | .tBool _ _ => scanBool fl fuel location mem
  | .tInteger what _ _ =>
      saveNumber fl (fun num => what.save num.toInt mem location) mem (scanIntNumber fl fuel c)
  | .tDouble _ _ =>
      saveNumber fl (fun num => mem.store location (fl.putDouble num.toDouble)) mem
        (scanDoubleNumber fl fuel c)
  | .tFloat _ _ =>
      saveNumber fl (fun num => mem.store location (fl.putFloat num.toDouble)) mem
        (scanFloatNumber fl fuel c)
  | .tString size _ =>
      if c = ch '"' then scanString fuel size location mem else pure (false, mem)
  | .tStruct _ members _ =>
      if c = ch '{' then do
        let _ ← fnextFast
        let (rtn, mem) ← structLoop fl value skip fuel members location fuel true mem
        let sta ← closing (ch '}') rtn
        pure (sta, mem)
      else pure (false, mem)
  | .tVarray size subtype _ =>
      if c = ch '[' then do
        let _ ← fnextFast
        let (rtn, idx, mem) ← arrayLoop (value subtype) skip fuel (location + lenSize) size
          subtype.size fuel 0 true mem
        let sta ← closing (ch ']') rtn
        pure (sta, setLen mem location (idx / subtype.size))
      else pure (false, mem)
  | .tArray size subtype _ =>
      if c = ch '[' then do
        let _ ← fnextFast
        let (rtn, _, mem) ← arrayLoop (value subtype) skip fuel location size subtype.size fuel 0
          true mem
        let sta ← closing (ch ']') rtn
        pure (sta, mem)
      else pure (false, mem)
  | .tTable size rowSize columns _ =>
      if c = ch '(' then do
        let _ ← fnextFast
        let (maxcol, map) ← columnLoop fl columns fuel fuel 0
          (List.replicate nkdbaseMaxCols none)
        let (rtn, row, mem) ← rowLoop fl value skip fuel rowSize (size / rowSize)
          (map.take maxcol) fuel 0 (location + lenSize) true mem
        let mem := setLen mem location row
        let close ← nkFscan fl fuel " )%e"
        pure (close && rtn, mem)
      else pure (false, mem)

/-- `nk_fscan_keyval` -/
def nkFscanKeyval : Nat → Ty → ValueScan
  | 0, _, _, mem => pure (false, mem)
  | fuel + 1, type, location, mem => orRewind (fun result => result.1) do
      let c ← fpeek
      let (sta, mem) ← scanValue fl (nkFscanKeyval fuel) (skipValue fl fuel) fuel type location c
        mem
      pure (sta && type.check.passes mem location, mem)

end LibnklabsPico.Dbase
