/-
  Text/Nkprintf.lean --- the formatter of `libnklabs/src/nkprintf.c`.

  `_nk_vprintf` hands its characters to `nk_fputc` one by one and gathers the
  status of each; what it does is the list of these characters.  On the pico
  `int`, `long` and `size_t` have 32 bits.
-/
import LibnklabsPico.Foundation.Numeral
import LibnklabsPico.Foundation.Word
import LibnklabsPico.Text.Floats

set_option autoImplicit false

namespace LibnklabsPico.Text

open LibnklabsPico.Foundation

/-- The arguments of a formatted print. -/
inductive PrintArg (fl : Floats) where
  | int (n : Int)
  | str (s : List UInt8)
  | real (val : fl.Double)

/-- A character of the output. -/
def chr (c : Int) : UInt8 := UInt8.ofNat c.toNat

/-- The flags in front of a conversion. -/
def printFlags : List UInt8 → PrintSpec → PrintSpec × List UInt8
  | [], spec => (spec, [])
  | c :: fmt, spec =>
      if (c.toNat : Int) = ch '-' then printFlags fmt { spec with minus := true }
      else if (c.toNat : Int) = ch '+' then printFlags fmt { spec with plus := true }
      else if (c.toNat : Int) = ch ' ' then printFlags fmt { spec with space := true }
      else if (c.toNat : Int) = ch '#' then printFlags fmt { spec with pound := true }
      else if (c.toNat : Int) = ch '0' then printFlags fmt { spec with pad := ch '0' }
      else if (c.toNat : Int) = ch '_' ∨ (c.toNat : Int) = ch ',' then printFlags fmt spec
      else (spec, c :: fmt)

/-- A decimal number of the format string. -/
def printNumber : List UInt8 → Nat → Nat × List UInt8
  | [], n => (n, [])
  | c :: fmt, n =>
      if isDigit c.toNat then printNumber fmt (u32 (n * 10 + (c.toNat - 48)))
      else (n, c :: fmt)

/-- The next argument, read as an `int` that is converted to an unsigned type. -/
def intArg {fl : Floats} : List (PrintArg fl) → Int × List (PrintArg fl)
  | .int n :: args => (n, args)
  | _ :: args => (0, args)
  | [] => (0, [])

/-- A width or a precision: a number, or `*` for an argument. -/
def printCount {fl : Floats} (fmt : List UInt8) (args : List (PrintArg fl)) :
    Nat × List UInt8 × List (PrintArg fl) :=
  match fmt with
  | c :: rest =>
      if (c.toNat : Int) = ch '*' then
        let (n, args) := intArg args
        (wrap 32 n, rest, args)
      else
        let (n, rest) := printNumber fmt 0
        (n, rest, args)
  | [] => (0, [], args)

/-- The size of the argument. -/
def printSize : List UInt8 → Int → Int × List UInt8
  | [], size => (size, [])
  | c :: fmt, size =>
      if (c.toNat : Int) = ch 'z' then printSize fmt 3
      else if (c.toNat : Int) = ch 't' then printSize fmt 4
      else if (c.toNat : Int) = ch 'l' then printSize fmt (size + 1)
      else if (c.toNat : Int) = ch 'h' then printSize fmt (size - 1)
      else if (c.toNat : Int) = ch 'L' then printSize fmt size
      else (size, c :: fmt)

/-- Emit string in `s`, of which the first `pre` characters are a prefix. -/
def emits (spec : PrintSpec) (s : List UInt8) (pre : Nat) : List UInt8 :=
  let number := s.drop pre
  let zeros := List.replicate (spec.prec - number.length) (chr (ch '0'))
  let text := s.take pre ++ zeros ++ number
  if spec.minus then
    -- Padding: always space for left justified
    text ++ List.replicate (spec.width - text.length) (chr (ch ' '))
  else
    let fullLen := if number.length < spec.prec then u32 (spec.prec + pre) else s.length
    if spec.pad = ch ' ' then
      -- Space padding comes before the '-'
      List.replicate (spec.width - fullLen) (chr spec.pad) ++ text
    else
      -- Zero padding comes after the '-'
      let fullLen := wrap 32 ((fullLen : Int) - pre)
      s.take pre ++ List.replicate (spec.width - pre - fullLen) (chr spec.pad) ++ zeros ++ number

/-- Emit number from its reversed digits in `buf`. -/
def emitNumber (spec : PrintSpec) (buf : List UInt8) (hex neg : Bool) : List UInt8 :=
  -- At least one digit
  let (buf, pre) :=
    if buf.length = 0 then ([chr (ch '0')], 0)
    else if spec.pound && hex then (buf ++ [chr (ch 'x'), chr (ch '0')], 2)
    else (buf, 0)
  let (buf, pre) :=
    if neg then (buf ++ [chr (ch '-')], pre + 1)
    else if spec.plus then (buf ++ [chr (ch '+')], pre + 1)
    else if spec.space then (buf ++ [chr (ch ' ')], pre + 1)
    else (buf, pre)
  emits spec buf.reverse pre

/-- A digit of a number. -/
def digitChar (upr : Bool) (v : Nat) : UInt8 :=
  if v < 10 then chr (ch '0' + v)
  else if upr then chr (ch 'A' + v - 10)
  else chr (ch 'a' + v - 10)

/-- Convert decimal to string. -/
def emitDec (spec : PrintSpec) (val : Nat) (neg : Bool) : List UInt8 :=
  emitNumber spec ((digitsRev 10 20 val).map (digitChar false)) false neg

/-- Convert hex to string. -/
def emitHex (spec : PrintSpec) (val : Nat) (upr : Bool) : List UInt8 :=
  emitNumber spec ((digitsRev 16 20 val).map (digitChar upr)) true false

/-- The argument of a signed conversion. -/
def signedArg (size : Int) (n : Int) : Int :=
  if size = 2 then signed 64 n
  else if size = 3 then wrap 32 n
  else signed 32 n

/-- The argument of an unsigned conversion. -/
def unsignedArg (size : Int) (n : Int) : Nat :=
  if size = 2 then wrap 64 n
  else if size = 4 then wrap 64 (signed 32 n)
  else wrap 32 n

/-- One conversion, from its character. -/
def printConversion {fl : Floats} (spec : PrintSpec) (c : Int) (args : List (PrintArg fl)) :
    List UInt8 × List (PrintArg fl) :=
  if c = ch 'A' ∨ c = ch 'a' ∨ c = ch 'G' ∨ c = ch 'F' ∨ c = ch 'E' ∨ c = ch 'g' ∨ c = ch 'f' ∨
      c = ch 'e' then
    match args with
    | .real val :: args => (fl.format c spec val, args)
    | args => ([], args.tail)
  else if c = ch 'c' then
    let (n, args) := intArg args
    (emits spec [UInt8.ofNat (wrap 8 n)] 0, args)
  else if c = ch 'i' ∨ c = ch 'd' then
    let (n, args) := intArg args
    let val := signedArg spec.size n
    (emitDec spec val.natAbs (decide (val < 0)), args)
  else if c = ch 'u' then
    let (n, args) := intArg args
    (emitDec spec (unsignedArg spec.size n) false, args)
  else if c = ch 'x' ∨ c = ch 'X' then
    let (n, args) := intArg args
    (emitHex spec (unsignedArg spec.size n) (decide (c = ch 'X')), args)
  else if c = ch 'p' then
    let (n, args) := intArg args
    (emitHex spec (wrap 32 n) false, args)
  else if c = ch 's' then
    match args with
    | .str s :: args => (emits spec s 0, args)
    | args => ([], args.tail)
  else if c = ch '_' then (emits spec [] 0, args)
  -- Unknown or '%'
  else ([chr c], args)

/-- `_nk_vprintf`: the characters it puts. -/
def nkVprintf {fl : Floats} : Nat → List UInt8 → List (PrintArg fl) → List UInt8
  | 0, _, _ => []
  | _ + 1, [], _ => []
  | fuel + 1, c :: fmt, args =>
      if (c.toNat : Int) ≠ ch '%' then c :: nkVprintf fuel fmt args
      else
        let spec : PrintSpec :=
          { minus := false, plus := false, space := false, pound := false
            pad := ch ' ', width := 0, prec := 0, size := 0 }
        let (spec, fmt) := printFlags fmt spec
        let (width, fmt, args) := printCount fmt args
        let (prec, fmt, args) :=
          match fmt with
          | d :: rest =>
              if (d.toNat : Int) = ch '.' then printCount rest args else (0, fmt, args)
          | [] => (0, fmt, args)
        let (size, fmt) := printSize fmt 0
        match fmt with
        | [] => []
        | c :: fmt =>
            let spec := { spec with width := width, prec := prec, size := size }
            let (text, args) := printConversion spec c.toNat args
            text ++ nkVprintf fuel fmt args

/-- `nk_fprintf(f, fmt, ...)`: the characters it puts. -/
def nkFprintf (fl : Floats) (fmt : String) (args : List (PrintArg fl)) : List UInt8 :=
  nkVprintf ((ascii fmt).length + 1) (ascii fmt) args

/-- `nk_findent`: `while (ind--)` counts a negative number round. -/
def nkFindent (ind : Int) : List UInt8 := List.replicate (wrap 32 ind) 32

end LibnklabsPico.Text
