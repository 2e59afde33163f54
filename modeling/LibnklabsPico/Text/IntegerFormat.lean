/-
  Text/IntegerFormat.lean --- how integers are formatted.

  `formatted` says where the prefix, the zeros, the digits and the padding of a field
  go.  The formatter puts these characters, except where the length of its field, a
  precision and a prefix, does not fit in a `size_t`.
-/
import LibnklabsPico.Text.Printing
import Mathlib.Data.Nat.Digits.Lemmas

set_option autoImplicit false

namespace LibnklabsPico.Text

open LibnklabsPico.Foundation

/-! ## Conversions -/

/-- The conversions of integers. -/
inductive IntConversion where
  | d
  | i
  | u
  | x
  | X
  | p
  deriving DecidableEq

namespace IntConversion

/-- The character of a conversion. -/
def char : IntConversion → UInt8
  | d => 100
  | i => 105
  | u => 117
  | x => 120
  | X => 88
  | p => 112

def hex : IntConversion → Bool
  | d | i | u => false
  | x | X | p => true

def upr : IntConversion → Bool
  | X => true
  | _ => false

/-- The number that is printed for an argument. -/
def value (size n : Int) : IntConversion → Int
  | d | i => signedArg size n
  | u | x | X => unsignedArg size n
  | p => wrap 32 n

/-- The arguments of 64 bits; a pointer has 32. -/
def Argument (n : Int) : IntConversion → Prop
  | d | i => -(2 ^ 63) ≤ n ∧ n < 2 ^ 63
  | u | x | X => 0 ≤ n ∧ n < 2 ^ 64
  | p => 0 ≤ n ∧ n < 2 ^ 32

end IntConversion

/-- The canonical numeral of a number. -/
def numeral (base : Nat) (upr : Bool) (n : Nat) : List UInt8 :=
  if n = 0 then [48] else ((Nat.digits base n).map (digitChar upr)).reverse

/-- The numeral of a magnitude. -/
def IntConversion.digits (conv : IntConversion) (v : Int) : List UInt8 :=
  numeral (if conv.hex then 16 else 10) conv.upr v.natAbs

/-- The prefix of a number: a sign or a blank, then `0x`. -/
def IntConversion.prefixOf (spec : PrintSpec) (conv : IntConversion) (v : Int) : List UInt8 :=
  (if v < 0 then [45] else if spec.plus then [43] else if spec.space then [32] else []) ++
    if conv.hex && spec.pound && v != 0 then [48, 120] else []

/-- A field: a prefix, zeros up to the precision, digits, and padding up to the width. -/
def formatted (minus zero : Bool) (width prec : Nat) (pre digits : List UInt8) : List UInt8 :=
  let zeros := List.replicate (prec - digits.length) 48
  let padding := width - (pre.length + max prec digits.length)
  if minus then pre ++ zeros ++ digits ++ List.replicate padding 32
  else if zero then pre ++ List.replicate padding 48 ++ zeros ++ digits
  else List.replicate padding 32 ++ pre ++ zeros ++ digits

/-! ## Digits -/

theorem digitsRev_eq_digits {base : Nat} (hbase : 1 < base) (fuel : Nat) {val : Nat}
    (h : val < base ^ fuel) : digitsRev base fuel val = Nat.digits base val := by
  induction fuel generalizing val with
  | zero =>
      have hzero : val = 0 := by simpa using h
      rw [hzero, Nat.digits_zero, digitsRev]
  | succ fuel ih =>
      unfold digitsRev
      split
      · rename_i hzero
        rw [hzero, Nat.digits_zero]
      · rename_i hne
        have hdiv : val / base < base ^ fuel := by
          rw [Nat.div_lt_iff_lt_mul (by omega)]
          rwa [← Nat.pow_succ]
        rw [ih hdiv, ← Nat.digits_def' hbase (Nat.pos_of_ne_zero hne)]

theorem numeral_length_le {base : Nat} (hbase : 10 ≤ base) (upr : Bool) {n : Nat} (h : n < 2 ^ 64) :
    (numeral base upr n).length ≤ 20 := by
  unfold numeral
  split
  · decide
  · rw [List.length_reverse, List.length_map, Nat.digits_length_le_iff (by omega)]
    exact lt_of_lt_of_le (lt_trans h (by decide)) (Nat.pow_le_pow_left hbase 20)

/-- The characters in `buf` in front of the reversal, and how many of them are a prefix. -/
def numberBuf (spec : PrintSpec) (buf : List UInt8) (hex neg : Bool) : List UInt8 × Nat :=
  let (buf, pre) :=
    if buf.length = 0 then ([chr (ch '0')], 0)
    else if spec.pound && hex then (buf ++ [chr (ch 'x'), chr (ch '0')], 2)
    else (buf, 0)
  if neg then (buf ++ [chr (ch '-')], pre + 1)
  else if spec.plus then (buf ++ [chr (ch '+')], pre + 1)
  else if spec.space then (buf ++ [chr (ch ' ')], pre + 1)
  else (buf, pre)

/-- The buffer of a conversion. -/
def IntConversion.buf (spec : PrintSpec) (conv : IntConversion) (v : Int) : List UInt8 × Nat :=
  numberBuf spec ((digitsRev (if conv.hex then 16 else 10) 20 v.natAbs).map (digitChar conv.upr))
    conv.hex (decide (v < 0))

namespace IntConversion

variable (spec : PrintSpec) (conv : IntConversion)

theorem base_le : 10 ≤ if conv.hex then 16 else 10 := by
  split <;> decide

theorem buf_eq {v : Int} (h : v.natAbs < 2 ^ 64) :
    conv.buf spec v =
      ((conv.prefixOf spec v ++ conv.digits v).reverse, (conv.prefixOf spec v).length) := by
  have hbase := conv.base_le
  have hfuel : v.natAbs < (if conv.hex then 16 else 10) ^ 20 :=
    lt_of_lt_of_le (lt_trans h (by decide)) (Nat.pow_le_pow_left hbase 20)
  rw [buf, digitsRev_eq_digits (by omega) 20 hfuel]
  by_cases hzero : v = 0
  · subst hzero
    simp only [Int.natAbs_zero, Nat.digits_zero, numberBuf, prefixOf, digits, numeral]
    cases spec.plus <;> cases spec.space <;> simp <;> decide
  · have hne : v.natAbs ≠ 0 := Int.natAbs_ne_zero.mpr hzero
    have hdigits : Nat.digits (if conv.hex then 16 else 10) v.natAbs ≠ [] :=
      Nat.digits_ne_nil_iff_ne_zero.mpr hne
    simp only [numberBuf, prefixOf, digits, numeral, hne, if_false, List.length_map,
      List.length_eq_zero_iff, hdigits]
    have hpound : (conv.hex && spec.pound && v != 0) = (spec.pound && conv.hex) := by
      rw [bne_iff_ne.mpr hzero, Bool.and_true, Bool.and_comm]
    rw [hpound]
    by_cases hneg : v < 0
    · cases spec.pound && conv.hex <;> simp [hneg, chr, ch]
    · cases spec.pound && conv.hex <;> cases spec.plus <;> cases spec.space <;>
        simp [hneg, chr, ch]

theorem prefixOf_length_le (v : Int) : (conv.prefixOf spec v).length ≤ 3 := by
  unfold prefixOf
  split_ifs <;> decide

theorem value_lt (size n : Int) : (conv.value size n).natAbs < 2 ^ 64 := by
  have hwrap : ∀ w : Nat, w ≤ 64 → ∀ m : Int, wrap w m < 2 ^ 64 := by
    intro w hw m
    exact lt_of_lt_of_le (wrap_lt w m) (Nat.pow_le_pow_right (by decide) hw)
  have hsigned : (signedArg size n).natAbs < 2 ^ 64 := by
    have h32 := hwrap 32 (by decide) n
    unfold signedArg
    split_ifs
    · unfold signed
      omega
    · omega
    · unfold signed
      omega
  have hunsigned : unsignedArg size n < 2 ^ 64 := by
    unfold unsignedArg
    split_ifs <;> exact hwrap _ (by decide) _
  cases conv with
  | d => exact hsigned
  | i => exact hsigned
  | u => exact hunsigned
  | x => exact hunsigned
  | X => exact hunsigned
  | p => exact hwrap 32 (by decide) n

/-- An argument of 64 bits is printed as it is. -/
theorem value_longLong {n : Int} (h : conv.Argument n) : conv.value 2 n = n := by
  have hunsigned : ∀ w : Nat, 0 ≤ n ∧ n < 2 ^ w → (wrap w n : Int) = n := by
    intro w hn
    have hcast : ((n.toNat : Nat) : Int) = n := Int.toNat_of_nonneg hn.1
    rw [← hcast, wrap_natCast]
    rw [← Int.ofNat_lt, hcast]
    push_cast
    exact hn.2
  have hsigned : -(2 ^ 63) ≤ n ∧ n < 2 ^ 63 → signedArg 2 n = n := by
    intro hn
    simp only [signedArg, if_true, signed]
    omega
  cases conv with
  | d => exact hsigned h
  | i => exact hsigned h
  | u => exact hunsigned 64 h
  | x => exact hunsigned 64 h
  | X => exact hunsigned 64 h
  | p => exact hunsigned 32 h

end IntConversion

/-! ## Fields -/

/-- Where the length of a field does not fit in a `size_t`, a field that is right justified
with blanks is too long. -/
theorem emits_eq_iff (spec : PrintSpec) (pre digits : List UInt8)
    (hpad : spec.pad = ch ' ' ∨ spec.pad = ch '0') (hprec : spec.prec < 2 ^ 32)
    (hpre : pre.length ≤ 3) (hdigits : digits.length ≤ 20) :
    emits spec (pre ++ digits) pre.length =
        formatted spec.minus (decide (spec.pad = ch '0')) spec.width spec.prec pre digits ↔
      spec.minus = true ∨ spec.pad = ch '0' ∨ spec.prec + pre.length < 2 ^ 32 ∨
        spec.width + 2 ^ 32 ≤ spec.prec + pre.length := by
  have hspace : chr (ch ' ') = 32 := rfl
  have hzero : chr (ch '0') = 48 := rfl
  have hne : ch ' ' ≠ ch '0' := by decide
  have hlen : (pre ++ List.replicate (spec.prec - digits.length) 48 ++ digits).length =
      pre.length + max spec.prec digits.length := by
    simp only [List.length_append, List.length_replicate]
    omega
  unfold emits formatted
  simp only [List.drop_left, List.take_left, hzero, hspace, hlen]
  cases hminus : spec.minus with
  | true => simp
  | false =>
      simp only [Bool.false_eq_true, if_false, false_or]
      rcases hpad with hblank | hzeros
      · simp only [hblank, if_true, hne, decide_false, Bool.false_eq_true, if_false, false_or,
          hspace, List.append_assoc, List.append_cancel_right_eq, List.replicate_inj, or_true,
          and_true]
        rw [List.length_append, u32]
        split <;> omega
      · have hfull : wrap 32 (((if digits.length < spec.prec then u32 (spec.prec + pre.length)
            else (pre ++ digits).length : Nat) : Int) - pre.length) =
            max spec.prec digits.length := by
          rw [List.length_append, u32, wrap]
          split <;> omega
        simp only [hzeros, hne.symm, if_false, decide_true, if_true, true_or, hfull, hzero,
          Nat.sub_sub]

/-! ## Formats -/

/-- The number that decimal digits stand for. -/
def decimal (text : List UInt8) : Nat := text.foldl (fun n c => n * 10 + (c.toNat - 48)) 0

/-- A width or a precision: a number that fits in a `size_t`, or `*` and an argument that is
not negative. -/
inductive Count where
  | digits (text : List UInt8) (isNumber : ∀ c ∈ text, isDigit c.toNat = true)
      (small : decimal text < 2 ^ 32)
  | star (n : Nat) (small : n < 2 ^ 31)

namespace Count

def text : Count → List UInt8
  | digits text _ _ => text
  | star _ _ => [42]

def value : Count → Nat
  | digits text _ _ => decimal text
  | star n _ => n

def args (fl : Floats) : Count → List (PrintArg fl)
  | digits _ _ _ => []
  | star n _ => [.int n]

end Count

/-- A conversion of an integer in a format. -/
structure IntDirective where
  flags : List UInt8
  width : Count
  /-- the precision, behind a point -/
  prec : Option Count
  sizes : List UInt8
  conv : IntConversion
  isFlag : ∀ c ∈ flags, c ∈ ascii "-+ #0"
  /-- a zero there is a flag -/
  notFlag : ∀ c ∈ width.text.head?, c ≠ 48
  isSize : ∀ c ∈ sizes, c ∈ ascii "ztlhL"

namespace IntDirective

variable (dir : IntDirective)

def precText : List UInt8 :=
  match dir.prec with
  | none => []
  | some count => 46 :: count.text

def precValue : Nat :=
  match dir.prec with
  | none => 0
  | some count => count.value

def format : List UInt8 :=
  37 :: dir.flags ++ dir.width.text ++ dir.precText ++ dir.sizes ++ [dir.conv.char]

def precArgs (fl : Floats) : List (PrintArg fl) :=
  match dir.prec with
  | none => []
  | some count => count.args fl

/-- The arguments of the width and of the precision. -/
def args (fl : Floats) : List (PrintArg fl) := dir.width.args fl ++ dir.precArgs fl

/-- What the directive says about the field. -/
def spec : PrintSpec where
  minus := decide (45 ∈ dir.flags)
  plus := decide (43 ∈ dir.flags)
  space := decide (32 ∈ dir.flags)
  pound := decide (35 ∈ dir.flags)
  pad := if 48 ∈ dir.flags then ch '0' else ch ' '
  width := dir.width.value
  prec := dir.precValue
  size := (printSize dir.sizes 0).1

/-- The number that is printed for an argument. -/
def value (n : Int) : Int := dir.conv.value dir.spec.size n

/-- The field of an argument. -/
def field (n : Int) : List UInt8 :=
  formatted (decide (45 ∈ dir.flags)) (decide (48 ∈ dir.flags)) dir.width.value dir.precValue
    (dir.conv.prefixOf dir.spec (dir.value n)) (dir.conv.digits (dir.value n))

end IntDirective

/-! ## Reading a format -/

/-- All bytes of a list, one after the other. -/
theorem forall_of_all {p : UInt8 → Prop} [DecidablePred p] {bytes : List UInt8}
    (h : bytes.all (fun c => decide (p c)) = true) : ∀ c ∈ bytes, p c := fun c hc =>
  of_decide_eq_true (List.all_eq_true.mp h c hc)

theorem byte_eq_ch {k : UInt8} {x : Char} (h : (k.toNat : Int) = ch x) (c : UInt8) :
    ((c.toNat : Int) = ch x) ↔ c = k := by
  rw [← h, Int.ofNat_inj, UInt8.toNat_inj]

/-- The flags of a conversion. -/
def PrintSpec.flagged (spec : PrintSpec) (flags : List UInt8) : PrintSpec :=
  { spec with
    minus := spec.minus || decide (45 ∈ flags)
    plus := spec.plus || decide (43 ∈ flags)
    space := spec.space || decide (32 ∈ flags)
    pound := spec.pound || decide (35 ∈ flags)
    pad := if 48 ∈ flags then ch '0' else spec.pad }

theorem printFlags_append {flags rest : List UInt8} (spec : PrintSpec)
    (hflags : ∀ c ∈ flags, c ∈ ascii "-+ #0") (hrest : ∀ c ∈ rest.head?, c ∉ ascii "-+ #0_,") :
    printFlags (flags ++ rest) spec = (spec.flagged flags, rest) := by
  have hminus := byte_eq_ch (show (((45 : UInt8).toNat : Nat) : Int) = ch '-' from rfl)
  have hplus := byte_eq_ch (show (((43 : UInt8).toNat : Nat) : Int) = ch '+' from rfl)
  have hspace := byte_eq_ch (show (((32 : UInt8).toNat : Nat) : Int) = ch ' ' from rfl)
  have hpound := byte_eq_ch (show (((35 : UInt8).toNat : Nat) : Int) = ch '#' from rfl)
  have hzero := byte_eq_ch (show (((48 : UInt8).toNat : Nat) : Int) = ch '0' from rfl)
  have hunderscore := byte_eq_ch (show (((95 : UInt8).toNat : Nat) : Int) = ch '_' from rfl)
  have hcomma := byte_eq_ch (show (((44 : UInt8).toNat : Nat) : Int) = ch ',' from rfl)
  induction flags generalizing spec with
  | nil =>
      cases rest with
      | nil => simp [printFlags, PrintSpec.flagged]
      | cons c rest =>
          have hc : c ∉ [45, 43, 32, 35, 48, 95, 44] := hrest c rfl
          simp only [List.mem_cons, List.not_mem_nil, or_false, not_or] at hc
          simp [printFlags, PrintSpec.flagged, hminus, hplus, hspace, hpound, hzero, hunderscore,
            hcomma, hc]
  | cons c flags ih =>
      have hc : c ∈ [45, 43, 32, 35, 48] := hflags c List.mem_cons_self
      have hnext : ∀ spec : PrintSpec,
          printFlags (flags ++ rest) spec = (spec.flagged flags, rest) :=
        fun spec => ih spec fun d hd => hflags d (List.mem_cons_of_mem c hd)
      simp only [List.mem_cons, List.not_mem_nil, or_false] at hc
      rw [List.cons_append, printFlags]
      simp only [hminus, hplus, hspace, hpound, hzero]
      rcases hc with rfl | rfl | rfl | rfl | rfl <;> simp [hnext, PrintSpec.flagged]

theorem printNumber_append {text rest : List UInt8} (m : Nat)
    (htext : ∀ c ∈ text, isDigit c.toNat = true)
    (hrest : ∀ c ∈ rest.head?, isDigit c.toNat = false) :
    printNumber (text ++ rest) (u32 m) =
      (u32 (text.foldl (fun n c => n * 10 + (c.toNat - 48)) m), rest) := by
  induction text generalizing m with
  | nil =>
      cases rest with
      | nil => rfl
      | cons c rest => simp [printNumber, hrest c rfl]
  | cons c text ih =>
      have hstep : u32 (u32 m * 10 + (c.toNat - 48)) = u32 (m * 10 + (c.toNat - 48)) := by
        unfold u32
        omega
      rw [List.cons_append, printNumber, if_pos (htext c List.mem_cons_self), hstep,
        ih _ fun d hd => htext d (List.mem_cons_of_mem c hd), List.foldl_cons]

theorem printCount_append {fl : Floats} (count : Count) {rest : List UInt8}
    (args : List (PrintArg fl)) (hrest : ∀ c ∈ rest.head?, isDigit c.toNat = false ∧ c ≠ 42) :
    printCount (count.text ++ rest) (count.args fl ++ args) = (count.value, rest, args) := by
  have hstar := byte_eq_ch (show (((42 : UInt8).toNat : Nat) : Int) = ch '*' from rfl)
  cases count with
  | star n small =>
      have hn : wrap 32 n = n := wrap_natCast (lt_trans small (by decide))
      have hchar : (42 : Int) = ch '*' := rfl
      simp [printCount, Count.text, Count.args, Count.value, intArg, hn, hchar]
  | digits text isNumber small =>
      have hread := printNumber_append 0 isNumber fun c hc => (hrest c hc).1
      have hvalue : u32 (decimal text) = decimal text := Nat.mod_eq_of_lt small
      have hfirst : ∀ c ∈ (text ++ rest).head?, c ≠ 42 := by
        intro c hc
        cases text with
        | nil => exact (hrest c hc).2
        | cons d text =>
            obtain rfl : d = c := Option.some.inj hc
            rintro rfl
            exact absurd (isNumber 42 List.mem_cons_self) (by decide)
      rw [show u32 0 = 0 from rfl] at hread
      change printCount (text ++ rest) args = (decimal text, rest, args)
      rw [← hvalue, decimal]
      cases hall : text ++ rest with
      | nil =>
          rw [hall] at hread
          obtain ⟨hzero, hempty⟩ := Prod.mk.inj hread
          rw [← hempty, ← hzero]
          rfl
      | cons c tail =>
          rw [hall] at hread hfirst
          simp only [printCount, hstar, hfirst c rfl, if_false, hread]

theorem printSize_append {sizes : List UInt8} (rest : List UInt8) (size : Int)
    (hsizes : ∀ c ∈ sizes, c ∈ ascii "ztlhL") :
    printSize (sizes ++ rest) size = printSize rest (printSize sizes size).1 := by
  induction sizes generalizing size with
  | nil => rfl
  | cons c sizes ih =>
      have hc : c ∈ [122, 116, 108, 104, 76] := hsizes c List.mem_cons_self
      have hnext := fun size => ih size fun d hd => hsizes d (List.mem_cons_of_mem c hd)
      simp only [List.mem_cons, List.not_mem_nil, or_false] at hc
      rcases hc with rfl | rfl | rfl | rfl | rfl <;>
        · simp only [List.cons_append, printSize]
          exact hnext _

theorem printSize_char (conv : IntConversion) (rest : List UInt8) (size : Int) :
    printSize (conv.char :: rest) size = (size, conv.char :: rest) := by
  cases conv <;> rfl

/-- A conversion puts the field of its argument. -/
theorem printConversion_int {fl : Floats} (spec : PrintSpec) (conv : IntConversion) (n : Int)
    (args : List (PrintArg fl)) :
    printConversion spec conv.char.toNat (.int n :: args) =
      (emits spec (conv.prefixOf spec (conv.value spec.size n) ++
          conv.digits (conv.value spec.size n))
        (conv.prefixOf spec (conv.value spec.size n)).length, args) := by
  have hbuf := conv.buf_eq spec (conv.value_lt spec.size n)
  have hemit : printConversion spec conv.char.toNat (.int n :: args) =
      (emits spec (conv.buf spec (conv.value spec.size n)).1.reverse
        (conv.buf spec (conv.value spec.size n)).2, args) := by
    cases conv <;> rfl
  rw [hemit, hbuf, List.reverse_reverse]

/-- The characters that end a number of a format. -/
theorem of_mem_end {c : UInt8} (h : c ∈ ascii ".ztlhLdiuxXp") :
    isDigit c.toNat = false ∧ c ≠ 42 ∧ c ∉ ascii "-+ #0_," := by
  have hall : ∀ c ∈ ascii ".ztlhLdiuxXp",
      isDigit c.toNat = false ∧ c ≠ 42 ∧ c ∉ ascii "-+ #0_," := forall_of_all (by decide)
  exact hall c h

namespace IntDirective

variable (dir : IntDirective)

theorem head_sizes (rest : List UInt8) :
    ∀ c ∈ (dir.sizes ++ dir.conv.char :: rest).head?, c ∈ ascii "ztlhLdiuxXp" := by
  intro c hc
  cases hsizes : dir.sizes with
  | nil =>
      rw [hsizes] at hc
      obtain rfl : dir.conv.char = c := Option.some.inj hc
      cases dir.conv <;> decide
  | cons d sizes =>
      rw [hsizes] at hc
      obtain rfl : d = c := Option.some.inj hc
      have hmem := dir.isSize d (hsizes ▸ List.mem_cons_self)
      have hsub : ∀ c ∈ ascii "ztlhL", c ∈ ascii "ztlhLdiuxXp" :=
        forall_of_all (by decide)
      exact hsub d hmem

/-- What follows the width. -/
def behind (rest : List UInt8) : List UInt8 :=
  dir.precText ++ (dir.sizes ++ dir.conv.char :: rest)

theorem format_append (rest : List UInt8) :
    dir.format ++ rest = 37 :: (dir.flags ++ (dir.width.text ++ dir.behind rest)) := by
  simp [format, behind]

theorem head_behind (rest : List UInt8) :
    ∀ c ∈ (dir.behind rest).head?, c ∈ ascii ".ztlhLdiuxXp" := by
  intro c hc
  unfold behind precText at hc
  split at hc
  · have hsub : ∀ c ∈ ascii "ztlhLdiuxXp", c ∈ ascii ".ztlhLdiuxXp" :=
      forall_of_all (by decide)
    exact hsub c (dir.head_sizes rest c hc)
  · obtain rfl : 46 = c := Option.some.inj hc
    decide

/-- The flags end in front of the width. -/
theorem head_width (rest : List UInt8) :
    ∀ c ∈ (dir.width.text ++ dir.behind rest).head?, c ∉ ascii "-+ #0_," := by
  intro c hc
  have hnot := dir.notFlag
  cases hwidth : dir.width with
  | star n small =>
      rw [hwidth] at hc
      obtain rfl : 42 = c := Option.some.inj hc
      decide
  | digits text isNumber small =>
      rw [hwidth] at hc hnot
      cases text with
      | nil => exact (of_mem_end (dir.head_behind rest c hc)).2.2
      | cons d text =>
          obtain rfl : d = c := Option.some.inj hc
          have hdigit := isNumber d List.mem_cons_self
          have hne : d ≠ 48 := hnot d rfl
          have hall : ∀ c ∈ ascii "-+ #0_,", isDigit c.toNat = true → c = 48 :=
            forall_of_all (by decide)
          exact fun hmem => hne (hall d hmem hdigit)

/-- There is a point behind the width, or what follows it is not one. -/
theorem behind_cases (rest : List UInt8) :
    (∃ count, dir.prec = some count ∧
      dir.behind rest = 46 :: (count.text ++ (dir.sizes ++ dir.conv.char :: rest))) ∨
    (dir.prec = none ∧ ∃ c tail, dir.behind rest = c :: tail ∧ c ≠ 46 ∧
      c :: tail = dir.sizes ++ dir.conv.char :: rest) := by
  unfold behind precText
  cases dir.prec with
  | some count => exact Or.inl ⟨count, rfl, rfl⟩
  | none =>
      refine Or.inr ⟨rfl, ?_⟩
      have hhead := dir.head_sizes rest
      obtain ⟨c, tail, htail⟩ : ∃ c tail, dir.sizes ++ dir.conv.char :: rest = c :: tail := by
        cases dir.sizes with
        | nil => exact ⟨_, _, rfl⟩
        | cons c sizes => exact ⟨c, _, rfl⟩
      rw [htail] at hhead ⊢
      refine ⟨c, tail, rfl, ?_, rfl⟩
      rintro rfl
      exact absurd (hhead 46 rfl) (by decide)

/-- The formatter reads the directive as a whole. -/
theorem nkVprintf_eq_emits {fl : Floats} (n : Int) (fuel : Nat) (rest : List UInt8)
    (args : List (PrintArg fl)) :
    nkVprintf (fuel + 1) (dir.format ++ rest) (dir.args fl ++ .int n :: args) =
      emits dir.spec (dir.conv.prefixOf dir.spec (dir.value n) ++ dir.conv.digits (dir.value n))
        (dir.conv.prefixOf dir.spec (dir.value n)).length ++ nkVprintf fuel rest args := by
  have hpercent : ¬ (((37 : UInt8).toNat : Nat) : Int) ≠ ch '%' := not_not.mpr rfl
  have hpoint := byte_eq_ch (show (((46 : UInt8).toNat : Nat) : Int) = ch '.' from rfl)
  have hflags := printFlags_append PrintSpec.plain dir.isFlag (dir.head_width rest)
  have hwidth := printCount_append dir.width (dir.precArgs fl ++ .int n :: args)
    fun c hc => ⟨(of_mem_end (dir.head_behind rest c hc)).1,
      (of_mem_end (dir.head_behind rest c hc)).2.1⟩
  have hsizes := printSize_append (dir.conv.char :: rest) 0 dir.isSize
  rw [printSize_char] at hsizes
  have hconversion := printConversion_int dir.spec dir.conv n args
  rw [format_append, IntDirective.args, List.append_assoc, nkVprintf, if_neg hpercent]
  rw [PrintSpec.plain] at hflags
  simp only [hflags, hwidth]
  rcases dir.behind_cases rest with ⟨count, hprec, hbehind⟩ | ⟨hprec, c, tail, hbehind, hc, htail⟩
  · have hcount : printCount (count.text ++ (dir.sizes ++ dir.conv.char :: rest))
        (count.args fl ++ (.int n :: args)) =
          (count.value, dir.sizes ++ dir.conv.char :: rest, .int n :: args) := by
      refine printCount_append count (.int n :: args) fun c hc => ?_
      have hsub : ∀ c ∈ ascii "ztlhLdiuxXp", c ∈ ascii ".ztlhLdiuxXp" :=
        forall_of_all (by decide)
      have hend := of_mem_end (hsub c (dir.head_sizes rest c hc))
      exact ⟨hend.1, hend.2.1⟩
    have hargs : dir.precArgs fl = count.args fl := by rw [precArgs, hprec]
    have hvalue : dir.precValue = count.value := by rw [precValue, hprec]
    rw [IntDirective.spec, hvalue] at hconversion
    simp only [hbehind, hpoint, if_true, hargs, hcount, hsizes, PrintSpec.flagged, Bool.false_or,
      hconversion]
    rw [IntDirective.value, IntDirective.spec, hvalue]
  · have hargs : dir.precArgs fl = [] := by rw [precArgs, hprec]
    have hvalue : dir.precValue = 0 := by rw [precValue, hprec]
    rw [IntDirective.spec, hvalue] at hconversion
    simp only [hbehind, hpoint, hc, if_false, hargs, List.nil_append]
    simp only [htail, hsizes, PrintSpec.flagged, Bool.false_or, hconversion]
    rw [IntDirective.value, IntDirective.spec, hvalue]

/-! ## What is printed -/

/-- The length of the field up to the padding fits in a `size_t`, or nothing depends on it:
a field without flags for other padding would get blanks although it is long enough. -/
def Fits (n : Int) : Prop :=
  45 ∈ dir.flags ∨ 48 ∈ dir.flags ∨
    dir.precValue + (dir.conv.prefixOf dir.spec (dir.value n)).length < 2 ^ 32 ∨
    dir.width.value + 2 ^ 32 ≤
      dir.precValue + (dir.conv.prefixOf dir.spec (dir.value n)).length

theorem precValue_lt : dir.precValue < 2 ^ 32 := by
  unfold precValue
  cases dir.prec with
  | none => decide
  | some count =>
      cases count with
      | digits text isNumber small => exact small
      | star n small => exact lt_trans small (by decide)

theorem nkVprintf_eq_field_iff {fl : Floats} (n : Int) (fuel : Nat) (rest : List UInt8)
    (args : List (PrintArg fl)) :
    nkVprintf (fuel + 1) (dir.format ++ rest) (dir.args fl ++ .int n :: args) =
        dir.field n ++ nkVprintf fuel rest args ↔ dir.Fits n := by
  have hpad : dir.spec.pad = ch ' ' ∨ dir.spec.pad = ch '0' := by
    unfold spec
    dsimp only
    split
    · exact Or.inr rfl
    · exact Or.inl rfl
  have hzero : dir.spec.pad = ch '0' ↔ 48 ∈ dir.flags := by
    have hne : ch ' ' ≠ ch '0' := by decide
    unfold spec
    dsimp only
    split <;> simp_all
  have hminus : dir.spec.minus = true ↔ 45 ∈ dir.flags := decide_eq_true_iff
  have hdigits := numeral_length_le dir.conv.base_le dir.conv.upr
    (dir.conv.value_lt dir.spec.size n)
  have hemits := emits_eq_iff dir.spec (dir.conv.prefixOf dir.spec (dir.value n))
    (dir.conv.digits (dir.value n)) hpad dir.precValue_lt (dir.conv.prefixOf_length_le _ _) hdigits
  rw [decide_eq_decide.mpr hzero, hminus, hzero] at hemits
  rw [dir.nkVprintf_eq_emits n fuel rest args, List.append_cancel_right_eq]
  exact hemits

/-- A conversion prints the field of its argument exactly if `Fits` holds; its buffer of 24
characters is never exceeded, and an argument of 64 bits is printed as it is. -/
theorem prints_field_iff (fl : Floats) (n : Int) :
    (∀ (fuel : Nat) (rest : List UInt8) (args : List (PrintArg fl)),
      nkVprintf (fuel + 1) (dir.format ++ rest) (dir.args fl ++ .int n :: args) =
        dir.field n ++ nkVprintf fuel rest args ↔ dir.Fits n) ∧
    (dir.conv.buf dir.spec (dir.value n)).1.length ≤ 24 ∧
    (dir.sizes = ascii "ll" → dir.conv.Argument n → dir.value n = n) := by
  refine ⟨dir.nkVprintf_eq_field_iff n, ?_, fun hsizes hfits => ?_⟩
  · have hprefix := dir.conv.prefixOf_length_le dir.spec (dir.value n)
    have hdigits := numeral_length_le dir.conv.base_le dir.conv.upr
      (dir.conv.value_lt dir.spec.size n)
    rw [IntDirective.value, dir.conv.buf_eq dir.spec (dir.conv.value_lt dir.spec.size n),
      List.length_reverse, List.length_append]
    exact Nat.le_trans (Nat.add_le_add hprefix hdigits) (by decide)
  · have hsize : dir.spec.size = 2 := by
      unfold spec
      dsimp only
      rw [hsizes]
      rfl
    rw [IntDirective.value, hsize]
    exact dir.conv.value_longLong hfits

/-- `%8.5lld` -/
def eight : IntDirective where
  flags := []
  width := .digits (ascii "8") (forall_of_all (by decide)) (by decide)
  prec := some (.digits (ascii "5") (forall_of_all (by decide)) (by decide))
  sizes := ascii "ll"
  conv := .d
  isFlag := forall_of_all (by decide)
  notFlag := fun c hc => by cases hc; decide
  isSize := forall_of_all (by decide)

/-- `-12` has two zeros and two blanks in front; the lowest number of 64 bits is read as it
is. -/
theorem prints_field_iff_lowest :
    nkVprintf 2 (eight.format ++ []) (eight.args Floats.absent ++ .int (-12) :: []) =
        ascii "  -00012" ∧
      eight.value (-(2 ^ 63)) = -(2 ^ 63) := by
  have hfits : eight.Fits (-12) := Or.inr (Or.inr (Or.inl (by decide)))
  have hprints := ((eight.prints_field_iff Floats.absent (-12)).1 1 [] []).mpr hfits
  refine ⟨hprints.trans (by decide), ?_⟩
  exact (eight.prints_field_iff Floats.absent (-(2 ^ 63))).2.2 rfl
    (show -(2 ^ 63) ≤ (-(2 ^ 63) : Int) ∧ (-(2 ^ 63) : Int) < 2 ^ 63 by decide)

/-- `%+5.4294967295lld` -/
def longest : IntDirective where
  flags := ascii "+"
  width := .digits (ascii "5") (forall_of_all (by decide)) (by decide)
  prec := some (.digits (ascii "4294967295") (forall_of_all (by decide)) (by decide))
  sizes := ascii "ll"
  conv := .d
  isFlag := forall_of_all (by decide)
  notFlag := fun c hc => by cases hc; decide
  isSize := forall_of_all (by decide)

/-- The length of the prefix and the precision is `0` as a `size_t`: five blanks too many. -/
theorem longest_not_field :
    ¬ nkVprintf 2 (longest.format ++ []) (longest.args Floats.absent ++ .int 1 :: []) =
      longest.field 1 ++ nkVprintf 1 [] ([] : List (PrintArg Floats.absent)) := by
  rw [longest.nkVprintf_eq_field_iff]
  unfold Fits
  decide

end IntDirective

end LibnklabsPico.Text
