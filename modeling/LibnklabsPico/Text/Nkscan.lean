/-
  Text/Nkscan.lean --- the scanner of `libnklabs/src/nkscan.c`.

  Every function is a program over the file operations.  A status that is only
  `0` or `1` is a `Bool`; a buffer that is filled is returned as the string in
  it, and `int` counters are integers.  The loops run on fuel; every pass reads a
  character.
-/
import LibnklabsPico.Foundation.Memory
import LibnklabsPico.Foundation.Word
import LibnklabsPico.Text.Floats

set_option autoImplicit false

namespace LibnklabsPico.Text

open LibnklabsPico.Foundation
open LibnklabsPico.File
open LibnklabsPico.File.FileProg

/-- The loop of `nk_fscan_ws`. -/
def wsLoop : Nat → Int → FileProg Unit
  | 0, _ => pure ()
  | fuel + 1, c =>
      if nkIsspace c then do
        let c ← fnextFast
        wsLoop fuel c
      else pure ()

/-- `nk_fscan_ws`, which always returns 1. -/
def nkFscanWs (fuel : Nat) : FileProg Unit := do
  let c ← fpeek
  wsLoop fuel c

/-- The digits of `\x`, of which `d` is the first. -/
def hexEscape (d : Int) : FileProg Int :=
  match hexVal d with
  | some high => do
      let d ← fnextFast
      match hexVal d with
      | some low => do
          let _ ← fnextFast
          pure (high * 16 + low)
      | none => pure high
  | none => pure 0

/-- The character that a backslash and `c` stand for, with `d` the character after
them. -/
def escapeCode (c d : Int) : FileProg Int :=
  if c = ch 'a' then pure 7
  else if c = ch 'b' then pure 8
  else if c = ch 'e' then pure 27
  else if c = ch 'f' then pure 12
  else if c = ch 'n' then pure 10
  else if c = ch 'r' then pure 13
  else if c = ch 't' then pure 9
  else if c = ch '\\' then pure (ch '\\')
  else if c = ch 'x' then hexEscape d
  else pure c

/-- Move on unless at the end. -/
def nextUnlessEnd (c : Int) : FileProg Int := if c ≠ -1 then fnextFast else pure 0

/-- `nk_fscan_escape`: parse one string escape sequence. -/
def nkFscanEscape : FileProg Int := do
  let c ← fpeek
  if c = ch '\\' then do
    let c ← fnextFast
    let d ← nextUnlessEnd c
    escapeCode c d
  else do
    let _ ← nextUnlessEnd c
    pure c

/-- Store a character in a buffer, as long as there is space for it and a NUL. -/
def bufPut (buf : List UInt8) (bufSize : Nat) (c : Int) : List UInt8 × Nat :=
  if 1 < bufSize then (buf ++ [UInt8.ofNat (wrap 8 c)], bufSize - 1) else (buf, bufSize)

/-- The quoted form of words and identifiers, up to the closing quote: the
character it stops at. -/
def quotedLoop : Nat → Int → Nat → List UInt8 → FileProg (Int × List UInt8)
  | 0, c, _, buf => pure (c, buf)
  | fuel + 1, c, bufSize, buf =>
      if c ≠ -1 ∧ c ≠ ch '"' then do
        let c ← nkFscanEscape
        if c = -1 then pure (c, buf)
        else
          let (buf, bufSize) := bufPut buf bufSize c
          let c ← fpeek
          quotedLoop fuel c bufSize buf
      else pure (c, buf)

/-- The unquoted form of words and identifiers. -/
def tokenLoop (quashCase : Bool) (charOk : Int → Bool) :
    Nat → Int → Int → Nat → List UInt8 → Bool → FileProg (Bool × List UInt8)
  | 0, _, _, _, buf, status => pure (status, buf)
  | fuel + 1, c, width, bufSize, buf, status =>
      if width ≠ 0 ∧ charOk c = true then do
        let (buf, bufSize) := bufPut buf bufSize (if quashCase then nkTolower c else c)
        let c ← fnextFast
        tokenLoop quashCase charOk fuel c (width - 1) bufSize buf true
      else pure (status, buf)

/-- What `_nk_fscan_word` and `_nk_fscan_ident` share: they differ in the
characters that may start and continue the unquoted form. -/
def scanToken (startOk charOk : Int → Bool) (fuel : Nat) (quashCase : Bool) (width : Int)
    (bufSize : Nat) : FileProg (Bool × List UInt8) :=
  orRewind (fun result => result.1) do
    let c ← fpeek
    if c = ch '"' then
      let c ← fnextFast
      let (c, buf) ← quotedLoop fuel c bufSize []
      if c = ch '"' then
        let _ ← fnextFast
        pure (true, buf)
      else pure (false, buf)
    else if startOk c then tokenLoop quashCase charOk fuel c width bufSize [] false
    else pure (false, [])

/-- `_nk_fscan_word` -/
def nkFscanWord : Nat → Bool → Int → Nat → FileProg (Bool × List UInt8) :=
  scanToken (fun _ => true) fun c => c != -1 && !nkIsspace c

/-- `_nk_fscan_ident` -/
def nkFscanIdent : Nat → Bool → Int → Nat → FileProg (Bool × List UInt8) :=
  scanToken isIdentStart isIdentChar

/-- Reduction to `uint64_t`. -/
def u64 (x : Nat) : Nat := x % 2 ^ 64

/-- The digits of a number in base 10 or 16: whether there is one, and the value. -/
def digitLoop (base : Nat) (digit : Int → Option Int) :
    Nat → Int → Int → Nat → Bool → FileProg (Bool × Nat × Int)
  | 0, c, _, v, status => pure (status, v, c)
  | fuel + 1, c, width, v, status =>
      match digit c with
      | some d =>
          if width ≠ 0 then do
            let c ← fnextFast
            digitLoop base digit fuel c (width - 1) (u64 (v * base + d.toNat)) true
          else pure (status, v, c)
      | none => pure (status, v, c)

/-- The value of a decimal digit. -/
def decVal (c : Int) : Option Int := if isDigit c then some (c - ch '0') else none

/-- `nk_fscan_hex`: its status and `*val`. -/
def nkFscanHex (fuel : Nat) (width : Int) : FileProg (Bool × Nat) :=
  orRewind (fun result => result.1) do
    let c ← fpeek
    let (status, v, _) ← digitLoop 16 hexVal fuel c width 0 false
    pure (status, v)

/-- `nk_fscan_dec`: its status and `*val`. -/
def nkFscanDec (fuel : Nat) (width : Int) : FileProg (Bool × Nat) :=
  orRewind (fun result => result.1) do
    let c ← fpeek
    if c = ch '-' then
      let c ← fnextFast
      let (status, v, _) ← digitLoop 10 decVal fuel c width 0 false
      pure (status, wrap 64 (-(v : Int)))
    else
      let (status, v, _) ← digitLoop 10 decVal fuel c width 0 false
      pure (status, v)

/-! ## Formats -/

/-- The items of a format string. -/
inductive Directive where
  /-- skip whitespace -/
  | blank
  /-- literal character match -/
  | lit (c : UInt8)
  /-- `%d` and `%u`, with the size of the argument -/
  | dec (width size : Int)
  /-- `%x` -/
  | hex (width size : Int)
  /-- `%p` -/
  | pointer (width : Int)
  /-- `%v`: value with specified type -/
  | value
  /-- `%w`: save word in buffer -/
  | word (width : Int)
  /-- `%i`: save identifier in buffer -/
  | ident (width : Int)
  /-- `%f` and `%g` -/
  | real
  /-- `%e`: succeed even if we are not at end -/
  | succeed

/-- The field width after a `%`: the digits are added up from 0. -/
def fmtWidth : List UInt8 → Int → Int × List UInt8
  | [], width => (width, [])
  | c :: fmt, width =>
      if isDigit c.toNat then fmtWidth fmt (width + (c.toNat - ch '0')) else (width, c :: fmt)

/-- The size flags after a `%`. -/
def fmtSize : List UInt8 → Int → Int × List UInt8
  | [], size => (size, [])
  | c :: fmt, size =>
      if (c.toNat : Int) = ch 'l' then fmtSize fmt (size + 1)
      else if (c.toNat : Int) = ch 'h' then fmtSize fmt (size - 1)
      else if (c.toNat : Int) = ch 'z' then fmtSize fmt 10
      else if (c.toNat : Int) = ch 't' then fmtSize fmt 20
      else (size, c :: fmt)

/-- The item a conversion character stands for, if there is one. -/
def fmtConversion (c : Int) (width size : Int) : Option Directive :=
  if c = ch '%' then some (.lit 37)
  else if c = ch 'u' ∨ c = ch 'd' then some (.dec width size)
  else if c = ch 'x' then some (.hex width size)
  else if c = ch 'p' then some (.pointer width)
  else if c = ch 'v' then some .value
  else if c = ch 'w' then some (.word width)
  else if c = ch 'i' then some (.ident width)
  else if c = ch 'f' ∨ c = ch 'g' then some .real
  else if c = ch 'e' then some .succeed
  else none

/-- The items of a format string, in order.  The fuel bounds its length. -/
def parseFmt : Nat → List UInt8 → List Directive
  | 0, _ => []
  | _ + 1, [] => []
  | fuel + 1, c :: fmt =>
      if (c.toNat : Int) = ch ' ' ∨ c = 9 then .blank :: parseFmt fuel fmt
      else if (c.toNat : Int) = ch '%' then
        -- -1 means any length
        let (width, fmt) :=
          match fmt with
          | d :: _ => if isDigit d.toNat then fmtWidth fmt 0 else (-1, fmt)
          | [] => (-1, fmt)
        let (size, fmt) := fmtSize fmt 0
        match fmt with
        | [] => []
        | d :: rest =>
            match fmtConversion d.toNat width size with
            | some directive => directive :: parseFmt fuel rest
            -- an unknown conversion character is looked at again
            | none => parseFmt fuel fmt
      else .lit c :: parseFmt fuel fmt

/-- The arguments of a scan: what each one is there to receive. -/
inductive ScanArg where
  | num
  /-- a buffer and its size -/
  | buf (size : Nat)
  /-- the parser for a type, which stores the value in memory -/
  | value (scan : Memory → FileProg (Bool × Memory))
  | real

/-- What was assigned to an argument. -/
inductive Scanned (fl : Floats) where
  /-- a number, with the size of the argument -/
  | num (size : Int) (val : Nat)
  | text (buf : List UInt8)
  | real (val : fl.Double)

/-- The items of a format against the input: the status, what was assigned, and
the memory. -/
def scanDirectives (fl : Floats) (fuel : Nat) (ignoreCase : Bool) :
    List Directive → List ScanArg → List (Scanned fl) → Memory →
      FileProg (Bool × List (Scanned fl) × Memory)
  | [], _, out, mem => do
      -- Succeed only if input is done
      let c ← fpeek
      pure (c == -1, out, mem)
  | .blank :: fmt, args, out, mem => do
      nkFscanWs fuel
      scanDirectives fl fuel ignoreCase fmt args out mem
  | .lit c :: fmt, args, out, mem => do
      let p ← fpeek
      if (if ignoreCase then nkTolower p = nkTolower c.toNat else p = c.toNat) then
        let _ ← fnextFast
        scanDirectives fl fuel ignoreCase fmt args out mem
      else pure (false, out, mem)
  | .dec width size :: fmt, .num :: args, out, mem => do
      let (status, val) ← nkFscanDec fuel width
      if status then scanDirectives fl fuel ignoreCase fmt args (out ++ [.num size val]) mem
      else pure (false, out, mem)
  | .hex width size :: fmt, .num :: args, out, mem => do
      let (status, val) ← nkFscanHex fuel width
      if status then scanDirectives fl fuel ignoreCase fmt args (out ++ [.num size val]) mem
      else pure (false, out, mem)
  | .pointer width :: fmt, .num :: args, out, mem => do
      let (status, val) ← nkFscanHex fuel width
      if status then scanDirectives fl fuel ignoreCase fmt args (out ++ [.num 10 val]) mem
      else pure (false, out, mem)
  | .value :: fmt, .value scan :: args, out, mem => do
      let (status, mem) ← scan mem
      if status then scanDirectives fl fuel ignoreCase fmt args out mem
      else pure (false, out, mem)
  | .word width :: fmt, .buf size :: args, out, mem => do
      let (status, buf) ← nkFscanWord fuel ignoreCase width size
      if status then scanDirectives fl fuel ignoreCase fmt args (out ++ [.text buf]) mem
      else pure (false, out, mem)
  | .ident width :: fmt, .buf size :: args, out, mem => do
      let (status, buf) ← nkFscanIdent fuel ignoreCase width size
      if status then scanDirectives fl fuel ignoreCase fmt args (out ++ [.text buf]) mem
      else pure (false, out, mem)
  | .real :: fmt, .real :: args, out, mem => do
      let (status, val) ← fl.scan
      if status then scanDirectives fl fuel ignoreCase fmt args (out ++ [.real val]) mem
      else pure (false, out, mem)
  | .succeed :: _, _, out, mem => pure (true, out, mem)
  -- an argument that does not fit its conversion
  | _, _, out, mem => pure (false, out, mem)

/-- `__nk_vscan` -/
def nkVscan (fl : Floats) (fuel : Nat) (ignoreCase : Bool) (fmt : String)
    (args : List ScanArg) (mem : Memory) : FileProg (Bool × List (Scanned fl) × Memory) :=
  orRewind (fun result => result.1)
    (scanDirectives fl fuel ignoreCase (parseFmt (ascii fmt).length (ascii fmt)) args [] mem)

/-- `nk_fscan(f, fmt)` for a format without arguments. -/
def nkFscan (fl : Floats) (fuel : Nat) (fmt : String) : FileProg Bool := do
  let (status, _, _) ← nkVscan fl fuel false fmt [] (fun _ => 0)
  pure status

/-- `nk_fscan(f, fmt, buf, size)` for a format with one identifier: the status and
the string in the buffer. -/
def nkFscanBuf (fl : Floats) (fuel : Nat) (fmt : String) (size : Nat) :
    FileProg (Bool × List UInt8) := do
  let (status, out, _) ← nkVscan fl fuel false fmt [.buf size] (fun _ => 0)
  match out with
  | .text buf :: _ => pure (status, buf)
  | _ => pure (status, [])

end LibnklabsPico.Text
