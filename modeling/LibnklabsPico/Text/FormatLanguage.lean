/-
  Text/FormatLanguage.lean --- the formats of `nk_fscan` and what they match.

  A format is a list of items.  `itemsAt` says where text matches them and which numbers it
  stores, with the field width as a parameter: its decimal value, or, as the scanner reads
  it, the sum of its digits.
-/
import LibnklabsPico.Text.Quoted

set_option autoImplicit false

namespace LibnklabsPico.Text

open LibnklabsPico.Foundation
open LibnklabsPico.File
open LibnklabsPico.File.FileProg

/-! ## Formats -/

/-- The digits of a field width: none for any length. -/
abbrev WidthDigits : Type := List (Fin 10)

/-- The characters of a field width. -/
def widthText (digits : WidthDigits) : List UInt8 :=
  digits.map fun d => UInt8.ofNat (48 + d.val)

/-- The decimal value of a field width, `-1` for any length. -/
def decimalWidth (digits : WidthDigits) : Int :=
  if digits = [] then -1 else ((digits.foldl (fun n d => n * 10 + d.val) 0 : Nat) : Int)

/-- The sum of the digits of a field width, `-1` for any length. -/
def addedWidth (digits : WidthDigits) : Int :=
  if digits = [] then -1 else (((digits.map Fin.val).sum : Nat) : Int)

/-- The size flags of a number. -/
inductive SizeFlag where
  | int
  | hh
  | h
  | l
  | ll
  | z
  | t
  deriving DecidableEq

namespace SizeFlag

/-- Its characters. -/
def text : SizeFlag → List UInt8
  | int => []
  | hh => [104, 104]
  | h => [104]
  | l => [108]
  | ll => [108, 108]
  | z => [122]
  | t => [116]

/-- The argument size for it. -/
def code : SizeFlag → Int
  | int => 0
  | hh => -2
  | h => -1
  | l => 1
  | ll => 2
  | z => 10
  | t => 20

end SizeFlag

/-- The bits of the target of a number: `long long` has 64; `int`, `long`, `size_t`,
`ptrdiff_t` and pointers have 32. -/
def targetBits (size : Int) : Nat :=
  if size = 2 then 64 else if size = -1 then 16 else if size = -2 then 8 else 32

/-- The items of a format.  Words and identifiers have the size of their buffer. -/
inductive FormatItem where
  | blank (tab : Bool)
  | lit (c : UInt8) (isLit : c ≠ 0 ∧ c ≠ 9 ∧ c ≠ 32 ∧ c ≠ 37)
  | percent
  | dec (width : WidthDigits) (size : SizeFlag) (unsigned : Bool)
  | hex (width : WidthDigits) (size : SizeFlag)
  | pointer
  | ident (width : WidthDigits) (bufSize : Nat)
  | word (width : WidthDigits) (bufSize : Nat)

namespace FormatItem

/-- Its characters in a format string. -/
def text : FormatItem → List UInt8
  | blank tab => [if tab then 9 else 32]
  | lit c _ => [c]
  | percent => [37, 37]
  | dec width size unsigned =>
      37 :: (widthText width ++ size.text ++ [if unsigned then 117 else 100])
  | hex width size => 37 :: (widthText width ++ size.text ++ [120])
  | pointer => [37, 112]
  | ident width _ => 37 :: (widthText width ++ [105])
  | word width _ => 37 :: (widthText width ++ [119])

/-- What the scanner makes of it. -/
def directive (widthOf : WidthDigits → Int) : FormatItem → Directive
  | blank _ => .blank
  | lit c _ => .lit c
  | percent => .lit 37
  | dec width size _ => .dec (widthOf width) size.code
  | hex width size => .hex (widthOf width) size.code
  | pointer => .pointer (-1)
  | ident width _ => .ident (widthOf width)
  | word width _ => .word (widthOf width)

/-- The argument for it. -/
def args : FormatItem → List ScanArg
  | blank _ | lit _ _ | percent => []
  | dec _ _ _ | hex _ _ | pointer => [.num]
  | ident _ bufSize | word _ bufSize => [.buf bufSize]

end FormatItem

/-- The characters of a format, which `%e` may end. -/
def formatText (items : List FormatItem) (succeed : Bool) : List UInt8 :=
  items.flatMap FormatItem.text ++ if succeed then [37, 101] else []

/-- A format string. -/
def formatString (items : List FormatItem) (succeed : Bool) : String :=
  String.ofList ((formatText items succeed).map fun c => Char.ofNat c.toNat)

/-- What the scanner makes of a format. -/
def formatDirectives (widthOf : WidthDigits → Int) (items : List FormatItem) (succeed : Bool) :
    List Directive :=
  items.map (FormatItem.directive widthOf) ++ if succeed then [.succeed] else []

theorem ascii_formatString (items : List FormatItem) (succeed : Bool) :
    ascii (formatString items succeed) = formatText items succeed := by
  rw [ascii, formatString, String.toList_ofList, List.map_map]
  refine List.map_id'' (fun c => ?_) _
  have hsmall := c.toNat_lt
  have hvalid : c.toNat.isValidChar := by
    unfold Nat.isValidChar
    omega
  have hchar : (Char.ofNat c.toNat).toNat = c.toNat := by
    rw [Char.ofNat, dif_pos hvalid]
    rfl
  rw [Function.comp_apply, hchar, UInt8.ofNat_toNat]

/-! ## Reading a format string -/

theorem isDigit_widthText (d : Fin 10) :
    isDigit ((UInt8.ofNat (48 + d.val)).toNat : Int) = true := by
  revert d
  decide

theorem fmtWidth_append (digits : WidthDigits) {rest : List UInt8} (width : Int)
    (hrest : ∀ c ∈ rest.head?, isDigit c.toNat = false) :
    fmtWidth (widthText digits ++ rest) width =
      (width + ((digits.map Fin.val).sum : Nat), rest) := by
  induction digits generalizing width with
  | nil =>
      cases rest with
      | nil => simp [widthText, fmtWidth]
      | cons c rest => simp [widthText, fmtWidth, hrest c rfl]
  | cons d digits ih =>
      have hd : (UInt8.ofNat (48 + d.val)).toNat = 48 + d.val := by
        rw [UInt8.toNat_ofNat']
        omega
      have hvalue : (((UInt8.ofNat (48 + d.val)).toNat : Int) - ch '0') = d.val := by
        rw [hd, show ch '0' = 48 from rfl]
        omega
      change fmtWidth (UInt8.ofNat (48 + d.val) :: (widthText digits ++ rest)) width = _
      rw [fmtWidth, if_pos (isDigit_widthText d), ih, hvalue, List.map_cons, List.sum_cons]
      push_cast
      rw [add_assoc]

theorem fmtSize_append (size : SizeFlag) {c : UInt8} (rest : List UInt8)
    (hc : c ∉ [104, 108, 116, 122]) :
    fmtSize (size.text ++ c :: rest) 0 = (size.code, c :: rest) := by
  have hmark : ∀ {k : UInt8} {x : Char}, (k.toNat : Int) = ch x → c ≠ k →
      ¬ (c.toNat : Int) = ch x := by
    intro k x hk hne h
    exact hne (UInt8.toNat_inj.mp (Int.ofNat_inj.mp (h.trans hk.symm)))
  simp only [List.mem_cons, List.not_mem_nil, or_false, not_or] at hc
  obtain ⟨hh, hl, ht, hz⟩ := hc
  have hstop : ∀ n, fmtSize (c :: rest) n = (n, c :: rest) := by
    intro n
    rw [fmtSize, if_neg (hmark rfl hl), if_neg (hmark rfl hh), if_neg (hmark rfl hz),
      if_neg (hmark rfl ht)]
  have hflag : ∀ tail n, fmtSize (108 :: tail) n = fmtSize tail (n + 1) ∧
      fmtSize (104 :: tail) n = fmtSize tail (n - 1) ∧
      fmtSize (122 :: tail) n = fmtSize tail 10 ∧ fmtSize (116 :: tail) n = fmtSize tail 20 :=
    fun tail n => ⟨rfl, rfl, rfl, rfl⟩
  cases size <;> simp [SizeFlag.text, SizeFlag.code, hflag, hstop]

theorem SizeFlag.head_not_digit (size : SizeFlag) {c : UInt8} (rest : List UInt8)
    (hc : isDigit c.toNat = false) :
    ∀ d ∈ (size.text ++ c :: rest).head?, isDigit d.toNat = false := by
  intro d hd
  cases size with
  | int =>
      obtain rfl : c = d := Option.some.inj hd
      exact hc
  | hh | h | l | ll | z | t =>
      obtain rfl := Option.some.inj hd
      rfl

/-- The width in front of the flags of a conversion. -/
def formatWidth (fmt : List UInt8) : Int × List UInt8 :=
  match fmt with
  | d :: _ => if isDigit d.toNat then fmtWidth fmt 0 else (-1, fmt)
  | [] => (-1, fmt)

theorem formatWidth_append (digits : WidthDigits) {rest : List UInt8}
    (hrest : ∀ c ∈ rest.head?, isDigit c.toNat = false) :
    formatWidth (widthText digits ++ rest) = (addedWidth digits, rest) := by
  cases digits with
  | nil =>
      cases rest with
      | nil => rfl
      | cons c rest =>
          have hc := hrest c rfl
          simp [formatWidth, widthText, hc, addedWidth]
  | cons d digits =>
      have hwidth := fmtWidth_append (d :: digits) 0 hrest
      rw [addedWidth, if_neg (List.cons_ne_nil d digits), ← Int.zero_add
        (((d :: digits).map Fin.val).sum : Int), ← hwidth]
      exact if_pos (isDigit_widthText d)

/-- A conversion, in front of the rest of a format. -/
theorem parseFmt_conversion (fuel : Nat) (digits : WidthDigits) (size : SizeFlag) {c : UInt8}
    {directive : Directive} (rest : List UInt8) (hc : c ∉ [104, 108, 116, 122])
    (hdigit : isDigit c.toNat = false)
    (hconversion : fmtConversion c.toNat (addedWidth digits) size.code = some directive) :
    parseFmt (fuel + 1) (37 :: (widthText digits ++ (size.text ++ c :: rest))) =
      directive :: parseFmt fuel rest := by
  have hwidth := formatWidth_append digits (size.head_not_digit rest hdigit)
  cases hfmt : widthText digits ++ (size.text ++ c :: rest) with
  | nil => simp at hfmt
  | cons d tail =>
      rw [hfmt] at hwidth
      unfold formatWidth at hwidth
      rw [parseFmt.eq_def]
      dsimp only at hwidth ⊢
      rw [if_neg (by decide), if_pos (by decide), hwidth]
      dsimp only
      rw [fmtSize_append size rest hc]
      dsimp only
      rw [hconversion]

theorem parseFmt_item (item : FormatItem) (fuel : Nat) (rest : List UInt8) :
    parseFmt (fuel + 1) (item.text ++ rest) =
      item.directive addedWidth :: parseFmt fuel rest := by
  cases item with
  | blank tab => cases tab <;> rfl
  | lit c isLit =>
      obtain ⟨-, htab, hspace, hpercent⟩ := isLit
      have hblank : ¬ ((c.toNat : Int) = ch ' ' ∨ c = 9) := by
        rintro (h | h)
        · exact hspace (UInt8.toNat_inj.mp (Int.ofNat_inj.mp h))
        · exact htab h
      have hmark : ¬ (c.toNat : Int) = ch '%' := fun h =>
        hpercent (UInt8.toNat_inj.mp (Int.ofNat_inj.mp h))
      change parseFmt (fuel + 1) (c :: rest) = .lit c :: parseFmt fuel rest
      rw [parseFmt.eq_def]
      dsimp only
      rw [if_neg hblank, if_neg hmark]
  | percent => exact parseFmt_conversion fuel [] .int rest (by decide) rfl rfl
  | dec width size unsigned =>
      simp only [FormatItem.text, List.cons_append, List.append_assoc, List.nil_append]
      cases unsigned with
      | true => exact parseFmt_conversion fuel width size rest (by decide) rfl rfl
      | false => exact parseFmt_conversion fuel width size rest (by decide) rfl rfl
  | hex width size =>
      simp only [FormatItem.text, List.cons_append, List.append_assoc, List.nil_append]
      exact parseFmt_conversion fuel width size rest (by decide) rfl rfl
  | pointer => exact parseFmt_conversion fuel [] .int rest (by decide) rfl rfl
  | ident width bufSize =>
      simp only [FormatItem.text, List.cons_append, List.append_assoc, List.nil_append]
      exact parseFmt_conversion fuel width .int rest (by decide) rfl rfl
  | word width bufSize =>
      simp only [FormatItem.text, List.cons_append, List.append_assoc, List.nil_append]
      exact parseFmt_conversion fuel width .int rest (by decide) rfl rfl

/-- The items of a format string. -/
theorem parseFmt_items (items : List FormatItem) (succeed : Bool) {fuel : Nat}
    (hfuel : items.length + succeed.toNat ≤ fuel) :
    parseFmt fuel (formatText items succeed) = formatDirectives addedWidth items succeed := by
  induction items generalizing fuel with
  | nil =>
      cases succeed with
      | true =>
          obtain ⟨fuel, rfl⟩ : ∃ k, fuel = k + 1 := ⟨fuel - 1, by simp at hfuel; omega⟩
          have hend : parseFmt (fuel + 1) [37, 101] = .succeed :: parseFmt fuel [] :=
            parseFmt_conversion fuel [] .int [] (by decide) rfl rfl
          have hnil : parseFmt fuel [] = [] := by cases fuel <;> rfl
          rw [hnil] at hend
          exact hend
      | false => cases fuel <;> rfl
  | cons item items ih =>
      rw [List.length_cons] at hfuel
      obtain ⟨fuel, rfl⟩ : ∃ k, fuel = k + 1 := ⟨fuel - 1, by omega⟩
      have hrest := ih (by omega : items.length + succeed.toNat ≤ fuel)
      unfold formatText formatDirectives at hrest ⊢
      rw [List.flatMap_cons, List.append_assoc, parseFmt_item, hrest, List.map_cons,
        List.cons_append]

theorem formatText_length (items : List FormatItem) (succeed : Bool) :
    items.length + succeed.toNat ≤ (formatText items succeed).length := by
  induction items with
  | nil => cases succeed <;> decide
  | cons item items ih =>
      have hitem : 1 ≤ item.text.length := by
        cases item with
        | blank tab => cases tab <;> decide
        | lit c isLit => exact Nat.le_refl 1
        | percent | pointer => decide
        | dec width size unsigned | hex width size | ident width bufSize | word width bufSize =>
            exact Nat.succ_le_succ (Nat.zero_le _)
      unfold formatText at ih ⊢
      rw [List.flatMap_cons, List.append_assoc, List.length_append, List.length_cons]
      omega

/-! ## What a format matches -/

/-- The numbers that were stored, reduced to their targets. -/
def storedNumbers {fl : Floats} (out : List (Scanned fl)) : List Nat :=
  out.filterMap fun
    | .num size val => some (val % 2 ^ targetBits size)
    | _ => none

/-- A field: the digits of its width, where its characters start, all characters there are
for it, and what is stored for those that are taken. -/
structure Field where
  width : WidthDigits
  start : Nat
  chars : List UInt8
  store : List UInt8 → List Nat

/-- Greedily, at least one character, and as many as the width allows. -/
def Field.taken (widthOf : WidthDigits → Int) (f : Field) : Option (Nat × List Nat) :=
  let chars := field (widthOf f.width) f.chars
  if chars = [] then none else some (f.start + chars.length, f.store chars)

theorem Field.taken_nil {widthOf : WidthDigits → Int} {f : Field}
    (hchars : field (widthOf f.width) f.chars = []) : f.taken widthOf = none := by
  rw [taken, hchars, if_pos rfl]

theorem Field.taken_cons {widthOf : WidthDigits → Int} {f : Field} {c : UInt8}
    {chars : List UInt8} (hchars : field (widthOf f.width) f.chars = c :: chars) :
    f.taken widthOf = some (f.start + (c :: chars).length, f.store (c :: chars)) := by
  rw [taken, hchars, if_neg (List.cons_ne_nil c chars)]

/-- A decimal number. -/
def decField (text : List UInt8) (pos : Nat) (width : WidthDigits) (size : Int) : Field where
  width := width
  start := signEnd text pos
  chars := run (hasVal decVal) text (signEnd text pos)
  store digits :=
    let val : Int := digitsValue 10 (digitVal decVal) digits
    [wrap (targetBits size) (if charAt text pos = ch '-' then -val else val)]

/-- A hexadecimal number. -/
def hexField (text : List UInt8) (pos : Nat) (width : WidthDigits) (size : Int) : Field where
  width := width
  start := pos
  chars := run (hasVal hexVal) text pos
  store digits := [digitsValue 16 (digitVal hexVal) digits % 2 ^ targetBits size]

/-- A word or an identifier without quotes. -/
def tokenField (startOk charOk : Int → Bool) (text : List UInt8) (pos : Nat)
    (width : WidthDigits) : Field where
  width := width
  start := pos
  chars := tokenChars startOk charOk text pos
  store _ := []

namespace FormatItem

variable (text : List UInt8) (pos : Nat)

/-- The field of an item, unless it is a literal, a blank or a quoted string. -/
def field? : FormatItem → Option Field
  | dec width size _ => some (decField text pos width size.code)
  | hex width size => some (hexField text pos width size.code)
  | pointer => some (hexField text pos [] 10)
  | ident width _ =>
      if charAt text pos = ch '"' then none
      else some (tokenField isIdentStart isIdentChar text pos width)
  | word width _ =>
      if charAt text pos = ch '"' then none
      else some (tokenField (fun _ => true) isWordChar text pos width)
  | blank _ | lit _ _ | percent => none

/-- Where text matches a literal, a blank or a quoted string. -/
def fixed : FormatItem → Option Nat
  | blank _ => some (pos + (run nkIsspace text pos).length)
  | lit c _ => if charAt text pos = c.toNat then some (pos + 1) else none
  | percent => if charAt text pos = (37 : UInt8).toNat then some (pos + 1) else none
  | ident _ _ | word _ _ => closingAt .plain text (pos + 1)
  | dec _ _ _ | hex _ _ | pointer => none

/-- Where text matches an item, and the number it stores. -/
def matched (widthOf : WidthDigits → Int) (item : FormatItem) : Option (Nat × List Nat) :=
  match item.field? text pos with
  | some f => f.taken widthOf
  | none => (item.fixed text pos).map fun stop => (stop, [])

variable {text pos}

theorem matched_token {widthOf : WidthDigits → Int} (item : FormatItem) {f : Field}
    (hfield : item.field? text pos = if charAt text pos = ch '"' then none else some f)
    (hfixed : item.fixed text pos = closingAt .plain text (pos + 1)) :
    item.matched text pos widthOf =
      if charAt text pos = ch '"' then
        (closingAt .plain text (pos + 1)).map fun stop => (stop, [])
      else f.taken widthOf := by
  unfold matched
  by_cases hquote : charAt text pos = ch '"'
  · rw [hfield, if_pos hquote, if_pos hquote, hfixed]
  · rw [hfield, if_neg hquote, if_neg hquote]

end FormatItem

/-- Where text matches the items from left to right, and the numbers they store.  Without `%e`
it has to end there. -/
def itemsAt (widthOf : WidthDigits → Int) (text : List UInt8) (succeed : Bool) :
    List FormatItem → Nat → Option (Nat × List Nat)
  | [], pos => if succeed = true ∨ charAt text pos = -1 then some (pos, []) else none
  | item :: items, pos =>
      (item.matched text pos widthOf).bind fun (next, vals) =>
        (itemsAt widthOf text succeed items next).map fun (stop, vals') => (stop, vals ++ vals')

/-! ## The numbers of a match -/

/-- The bits of the numbers an item stores. -/
def FormatItem.bits : FormatItem → List Nat
  | dec _ size _ | hex _ size => [targetBits size.code]
  | pointer => [targetBits 10]
  | blank _ | lit _ _ | percent | ident _ _ | word _ _ => []

theorem Field.taken_eq_some {widthOf : WidthDigits → Int} {f : Field} {next : Nat}
    {vals : List Nat} (h : f.taken widthOf = some (next, vals)) :
    ∃ c chars, field (widthOf f.width) f.chars = c :: chars ∧
      next = f.start + (c :: chars).length ∧ vals = f.store (c :: chars) := by
  cases hchars : field (widthOf f.width) f.chars with
  | nil =>
      rw [Field.taken_nil hchars] at h
      cases h
  | cons c chars =>
      rw [Field.taken_cons hchars] at h
      obtain ⟨hnext, hvals⟩ := Prod.mk.inj (Option.some.inj h)
      exact ⟨c, chars, rfl, hnext.symm, hvals.symm⟩

/-- An item stores its numbers, reduced to their targets. -/
theorem FormatItem.matched_bits {widthOf : WidthDigits → Int} {text : List UInt8} {pos next : Nat}
    {vals : List Nat} (item : FormatItem) (h : item.matched text pos widthOf = some (next, vals)) :
    List.Forall₂ (fun bits val => val < 2 ^ bits) item.bits vals := by
  unfold FormatItem.matched at h
  cases hfield : item.field? text pos with
  | none =>
      rw [hfield] at h
      obtain ⟨stop, -, hstop⟩ := Option.map_eq_some_iff.mp h
      obtain ⟨-, rfl⟩ := Prod.mk.inj hstop
      cases item with
      | blank tab | lit c isLit | percent | ident width bufSize | word width bufSize => exact .nil
      | dec width size unsigned | hex width size | pointer => cases hfield
  | some f =>
      rw [hfield] at h
      obtain ⟨c, chars, -, -, rfl⟩ := Field.taken_eq_some h
      cases item with
      | blank tab | lit c isLit | percent => cases hfield
      | dec width size unsigned =>
          obtain rfl := Option.some.inj hfield
          exact .cons (wrap_lt _ _) .nil
      | hex width size | pointer =>
          obtain rfl := Option.some.inj hfield
          exact .cons (Nat.mod_lt _ (Nat.two_pow_pos _)) .nil
      | ident width bufSize | word width bufSize =>
          simp only [FormatItem.field?, Option.ite_none_left_eq_some] at hfield
          obtain rfl := Option.some.inj hfield.2
          exact .nil

/-- So do the items of a format. -/
theorem itemsAt_bits {widthOf : WidthDigits → Int} {text : List UInt8} {succeed : Bool}
    {items : List FormatItem} {pos stop : Nat} {vals : List Nat}
    (h : itemsAt widthOf text succeed items pos = some (stop, vals)) :
    List.Forall₂ (fun bits val => val < 2 ^ bits) (items.flatMap FormatItem.bits) vals := by
  induction items generalizing pos vals with
  | nil =>
      unfold itemsAt at h
      split at h
      · obtain ⟨-, rfl⟩ := Prod.mk.inj (Option.some.inj h)
        exact .nil
      · cases h
  | cons item items ih =>
      obtain ⟨⟨next, first⟩, hitem, hrest⟩ := Option.bind_eq_some_iff.mp h
      obtain ⟨⟨stop', rest⟩, hitems, hvals⟩ := Option.map_eq_some_iff.mp hrest
      obtain ⟨rfl, rfl⟩ := Prod.mk.inj hvals
      exact List.rel_append (item.matched_bits hitem) (ih hitems)

/-- No item goes back. -/
theorem FormatItem.matched_le {widthOf : WidthDigits → Int} {text : List UInt8} {pos next : Nat}
    {vals : List Nat} (item : FormatItem) (h : item.matched text pos widthOf = some (next, vals)) :
    pos ≤ next := by
  unfold FormatItem.matched at h
  cases hfield : item.field? text pos with
  | none =>
      rw [hfield] at h
      obtain ⟨stop, hfixed, hstop⟩ := Option.map_eq_some_iff.mp h
      obtain ⟨rfl, -⟩ := Prod.mk.inj hstop
      cases item with
      | blank tab =>
          obtain rfl := Option.some.inj hfixed
          exact Nat.le_add_right _ _
      | lit c isLit | percent =>
          simp only [FormatItem.fixed, Option.ite_none_right_eq_some, Option.some.injEq] at hfixed
          omega
      | ident width bufSize | word width bufSize =>
          have hlt : pos + 1 < stop := closing_lt hfixed
          omega
      | dec width size unsigned | hex width size | pointer => cases hfixed
  | some f =>
      rw [hfield] at h
      obtain ⟨c, chars, -, rfl, -⟩ := Field.taken_eq_some h
      have hstart : pos ≤ f.start := by
        cases item with
        | blank tab | lit c isLit | percent => cases hfield
        | dec width size unsigned =>
            obtain rfl := Option.some.inj hfield
            exact signEnd_ge text pos
        | hex width size | pointer =>
            obtain rfl := Option.some.inj hfield
            exact Nat.le_refl pos
        | ident width bufSize | word width bufSize =>
            simp only [FormatItem.field?, Option.ite_none_left_eq_some] at hfield
            obtain rfl := Option.some.inj hfield.2
            exact Nat.le_refl pos
      omega

theorem itemsAt_le {widthOf : WidthDigits → Int} {text : List UInt8} {succeed : Bool}
    {items : List FormatItem} {pos stop : Nat} {vals : List Nat}
    (h : itemsAt widthOf text succeed items pos = some (stop, vals)) : pos ≤ stop := by
  induction items generalizing pos vals with
  | nil =>
      unfold itemsAt at h
      split at h
      · obtain ⟨rfl, -⟩ := Prod.mk.inj (Option.some.inj h)
        exact Nat.le_refl pos
      · cases h
  | cons item items ih =>
      obtain ⟨⟨next, first⟩, hitem, hrest⟩ := Option.bind_eq_some_iff.mp h
      obtain ⟨⟨stop', rest⟩, hitems, hvals⟩ := Option.map_eq_some_iff.mp hrest
      obtain ⟨rfl, -⟩ := Prod.mk.inj hvals
      exact Nat.le_trans (item.matched_le hitem) (ih hitems)

/-! ## What the scanner does -/

theorem targetBits_le (size : Int) : targetBits size ≤ 64 := by
  unfold targetBits
  split_ifs <;> decide

/-- A number reduced to 64 bits and then to its target. -/
theorem wrap_mod {bits : Nat} (hbits : bits ≤ 64) (x : Int) :
    wrap 64 x % 2 ^ bits = wrap bits x := by
  have hdvd : ((2 : Int) ^ bits) ∣ 2 ^ 64 := pow_dvd_pow 2 hbits
  have hpos : (0 : Int) < 2 ^ 64 := by decide
  unfold wrap
  rw [← Int.emod_emod_of_dvd x hdvd]
  have hnonneg := Int.emod_nonneg x (ne_of_gt hpos)
  obtain ⟨n, hn⟩ := Int.eq_ofNat_of_zero_le hnonneg
  rw [hn]
  norm_cast

theorem u64_mod {bits : Nat} (hbits : bits ≤ 64) (n : Nat) : u64 n % 2 ^ bits = n % 2 ^ bits :=
  Nat.mod_mod_of_dvd n (pow_dvd_pow 2 hbits)

/-- The stored number is the numeral with its sign, reduced to its target. -/
theorem stored_dec {bits : Nat} (hbits : bits ≤ 64) (neg : Prop) [Decidable neg] (n : Nat) :
    (if neg then wrap 64 (-(u64 n : Int)) else u64 n) % 2 ^ bits =
      wrap bits (if neg then -(n : Int) else n) := by
  split
  · have hmod : (-(u64 n : Int)) % 2 ^ bits = (-(n : Int)) % 2 ^ bits := by
      have hcast : ((u64 n : Nat) : Int) = (n : Int) % 2 ^ 64 := by
        rw [u64]
        norm_cast
      have hdvd : ((2 : Int) ^ bits) ∣ 2 ^ 64 := pow_dvd_pow 2 hbits
      rw [hcast]
      exact ((Int.mod_modEq (n : Int) (2 ^ 64)).of_dvd hdvd).neg
    rw [wrap_mod hbits, wrap, hmod, wrap]
  · have hcast : ((n : Int) % 2 ^ bits) = ((n % 2 ^ bits : Nat) : Int) := by
      push_cast
      rfl
    rw [u64_mod hbits, wrap, hcast, Int.toNat_natCast]

section
variable {fl : Floats} {text : List UInt8} {pos : Nat} (widthOf : WidthDigits → Int)

/-- What holds of the result of a scan, with some numbers stored before it. -/
def ScanResult (number : Option (Nat × List Nat)) (before : List Nat) :
    Bool × List (Scanned fl) × Memory → Nat → Prop :=
  Outcome number (fun vals r => r.1 = true ∧ storedNumbers r.2.1 = before ++ vals)
    fun r _ => r.1 = false

theorem ScanResult.prepend {number : Option (Nat × List Nat)} {before vals : List Nat}
    {r : Bool × List (Scanned fl) × Memory} {pos' : Nat}
    (h : ScanResult number (before ++ vals) r pos') :
    ScanResult (number.map fun (stop, vals') => (stop, vals ++ vals')) before r pos' := by
  cases number with
  | none => exact h
  | some number =>
      obtain ⟨⟨hstatus, hout⟩, hstop⟩ := h
      exact ⟨⟨hstatus, by rw [hout, List.append_assoc]⟩, hstop⟩

theorem storedNumbers_append (out : List (Scanned fl)) (size : Int) (val : Nat) :
    storedNumbers (out ++ [.num size val]) = storedNumbers out ++ [val % 2 ^ targetBits size] := by
  rw [storedNumbers, List.filterMap_append]
  rfl

theorem storedNumbers_append_text (out : List (Scanned fl)) (buf : List UInt8) :
    storedNumbers (out ++ [.text buf]) = storedNumbers out := by
  rw [storedNumbers, List.filterMap_append]
  exact List.append_nil _

/-- The scan of the rest of a format behind an item, and the failure without it. -/
structure GoesOn (fl : Floats) (text : List UInt8) (fuel : Nat) (fmt : List Directive)
    (args : List ScanArg) (out : List (Scanned fl)) (mem : Memory)
    (item : Option (Nat × List Nat)) (post : Bool × List (Scanned fl) × Memory → Nat → Prop) :
    Prop where
  matched : ∀ {next : Nat} {vals : List Nat} {out' : List (Scanned fl)},
    item = some (next, vals) → storedNumbers out' = storedNumbers out ++ vals →
    Stays text (scanDirectives fl fuel false fmt args out' mem) next post
  failed : item = none → ∀ pos', post (false, out, mem) pos'

section
variable {fuel : Nat} {fmt : List Directive} {args : List ScanArg} {out : List (Scanned fl)}
  {mem : Memory} {item : Option (Nat × List Nat)}
  {post : Bool × List (Scanned fl) × Memory → Nat → Prop}

theorem stays_litItem {c : UInt8} (goesOn : GoesOn fl text fuel fmt args out mem
      ((if charAt text pos = c.toNat then some (pos + 1) else none).map fun stop => (stop, []))
      post) :
    Stays text (scanDirectives fl fuel false (.lit c :: fmt) args out mem) pos post := by
  refine .peek ?_
  simp only [Bool.false_eq_true, if_false]
  by_cases hchar : charAt text pos = c.toNat
  · rw [if_pos hchar] at goesOn ⊢
    exact .nextFast (by omega) (goesOn.matched rfl (List.append_nil _).symm)
  · rw [if_neg hchar] at goesOn ⊢
    exact .pure (goesOn.failed rfl pos)

variable (hfuel : text.length ≤ fuel)
include hfuel

theorem stays_decItem (width : WidthDigits) (size : Int)
    (goesOn : GoesOn fl text fuel fmt args out mem
      ((decField text pos width size).taken widthOf) post) :
    Stays text (scanDirectives fl fuel false (.dec (widthOf width) size :: fmt) (.num :: args) out
      mem) pos post := by
  refine .bind (stays_dec_digits (widthOf width) hfuel) fun r pos' h => ?_
  obtain ⟨rfl, rfl⟩ := h
  cases hdigits : digitsAt decVal text (signEnd text pos) (widthOf width) with
  | nil =>
      exact .pure (goesOn.failed (Field.taken_nil (f := decField text pos width size) hdigits) _)
  | cons c digits =>
      refine goesOn.matched (Field.taken_cons (f := decField text pos width size) hdigits) ?_
      rw [storedNumbers_append, stored_dec (targetBits_le _)]
      rfl

theorem stays_hexItem (width : WidthDigits) (size : Int)
    (goesOn : GoesOn fl text fuel fmt args out mem
      ((hexField text pos width size).taken widthOf) post) :
    Stays text (nkFscanHex fuel (widthOf width) >>= fun r =>
      if r.1 then scanDirectives fl fuel false fmt args (out ++ [.num size r.2]) mem
      else pure (false, out, mem)) pos post := by
  refine .bind (stays_hex_digits (widthOf width) hfuel) fun r pos' h => ?_
  obtain ⟨rfl, rfl⟩ := h
  cases hdigits : digitsAt hexVal text pos (widthOf width) with
  | nil =>
      exact .pure (goesOn.failed (Field.taken_nil (f := hexField text pos width size) hdigits) _)
  | cons c digits =>
      refine goesOn.matched (Field.taken_cons (f := hexField text pos width size) hdigits) ?_
      rw [storedNumbers_append, u64_mod (targetBits_le _)]
      rfl

theorem stays_tokenItem {startOk charOk : Int → Bool} (hend : charOk (-1) = false)
    (width : WidthDigits) (bufSize : Nat)
    (goesOn : GoesOn fl text fuel fmt args out mem
      (if charAt text pos = ch '"' then
        (closingAt .plain text (pos + 1)).map fun stop => (stop, [])
      else (tokenField startOk charOk text pos width).taken widthOf) post) :
    Stays text (scanToken startOk charOk fuel false (widthOf width) bufSize >>= fun r =>
      if r.1 then scanDirectives fl fuel false fmt args (out ++ [.text r.2]) mem
      else pure (false, out, mem)) pos post := by
  refine .bind (stays_tokenAt hend hfuel false (widthOf width) bufSize) fun r pos' h => ?_
  obtain ⟨status, buf⟩ := r
  have hitem : ((tokenAt startOk charOk text pos (widthOf width)).map fun stop => (stop, [])) =
      if charAt text pos = ch '"' then
        (closingAt .plain text (pos + 1)).map fun stop => (stop, ([] : List Nat))
      else (tokenField startOk charOk text pos width).taken widthOf := by
    unfold tokenAt Field.taken
    by_cases hquote : charAt text pos = ch '"'
    · rw [if_pos hquote, if_pos hquote]
    · rw [if_neg hquote, if_neg hquote]
      dsimp only [tokenField]
      by_cases hchars : field (widthOf width) (tokenChars startOk charOk text pos) = []
      · rw [if_pos hchars, if_pos hchars]
        rfl
      · rw [if_neg hchars, if_neg hchars]
        rfl
  rw [← hitem] at goesOn
  cases htoken : tokenAt startOk charOk text pos (widthOf width) with
  | none =>
      rw [htoken] at h goesOn
      obtain ⟨hstatus, rfl⟩ := h
      dsimp only at hstatus ⊢
      rw [hstatus]
      exact .pure (goesOn.failed rfl _)
  | some stop =>
      rw [htoken] at h goesOn
      obtain ⟨hstatus, rfl⟩ := h
      dsimp only at hstatus ⊢
      rw [hstatus]
      refine goesOn.matched rfl ?_
      rw [storedNumbers_append_text, List.append_nil]

end

/-- The scanner against the items of a format. -/
theorem stays_items (hany : widthOf [] = -1) {fuel : Nat} (hfuel : text.length ≤ fuel)
    (succeed : Bool)
    (items : List FormatItem) (pos : Nat) (out : List (Scanned fl)) (mem : Memory) :
    Stays text (scanDirectives fl fuel false (formatDirectives widthOf items succeed)
      (items.flatMap FormatItem.args) out mem) pos
      (ScanResult (itemsAt widthOf text succeed items pos) (storedNumbers out)) := by
  induction items generalizing pos out with
  | nil =>
      cases succeed with
      | true => exact .pure ⟨⟨rfl, (List.append_nil _).symm⟩, rfl⟩
      | false =>
          refine .peek (.pure ?_)
          unfold itemsAt
          by_cases hend : charAt text pos = -1
          · rw [if_pos (Or.inr hend)]
            exact ⟨⟨beq_iff_eq.mpr hend, (List.append_nil _).symm⟩, rfl⟩
          · rw [if_neg (by simpa using hend)]
            exact beq_eq_false_iff_ne.mpr hend
  | cons item items ih =>
      have goesOn : GoesOn fl text fuel (formatDirectives widthOf items succeed)
          (items.flatMap FormatItem.args) out mem (item.matched text pos widthOf)
          (ScanResult (itemsAt widthOf text succeed (item :: items) pos) (storedNumbers out)) := by
        refine ⟨fun {next vals out'} hmatched hout => ?_, fun hmatched pos' => ?_⟩
        · refine (ih next out').mono fun r pos' h => ?_
          rw [hout] at h
          rw [itemsAt, hmatched]
          exact h.prepend
        · rw [itemsAt, hmatched]
          exact rfl
      cases item with
      | blank tab =>
          refine .bind (stays_ws_run hfuel) fun _ pos' h => ?_
          subst h
          exact goesOn.matched rfl (List.append_nil _).symm
      | lit c isLit => exact stays_litItem goesOn
      | percent => exact stays_litItem goesOn
      | dec width size unsigned => exact stays_decItem widthOf hfuel width size.code goesOn
      | hex width size => exact stays_hexItem widthOf hfuel width size.code goesOn
      | pointer =>
          have hpointer := stays_hexItem widthOf hfuel [] 10 goesOn
          rw [hany] at hpointer
          exact hpointer
      | ident width bufSize =>
          have hend : isIdentChar (-1) = false := by decide
          refine stays_tokenItem widthOf hfuel hend width bufSize ?_
          rwa [FormatItem.matched_token (.ident width bufSize) rfl rfl] at goesOn
      | word width bufSize =>
          have hend : isWordChar (-1) = false := by decide
          refine stays_tokenItem widthOf hfuel hend width bufSize ?_
          rwa [FormatItem.matched_token (.word width bufSize) rfl rfl] at goesOn

end

/-! ## Widths -/

theorem sum_le_value (digits : WidthDigits) (n : Nat) :
    n + (digits.map Fin.val).sum ≤ digits.foldl (fun n d => n * 10 + d.val) n := by
  induction digits generalizing n with
  | nil => exact Nat.le_refl n
  | cons d digits ih =>
      have hstep := ih (n * 10 + d.val)
      rw [List.map_cons, List.sum_cons, List.foldl_cons]
      omega

theorem value_eq_zero {digits : WidthDigits} (h : (digits.map Fin.val).sum = 0) :
    digits.foldl (fun n d => n * 10 + d.val) 0 = 0 := by
  induction digits with
  | nil => rfl
  | cons d digits ih =>
      rw [List.map_cons, List.sum_cons] at h
      have hd : d.val = 0 := by omega
      rw [List.foldl_cons, hd]
      exact ih (by omega)

/-- The sum of the digits is not above their decimal value, and `0` only for the value `0`. -/
theorem addedWidth_cases (digits : WidthDigits) :
    addedWidth digits = decimalWidth digits ∨
      (0 < addedWidth digits ∧ addedWidth digits < decimalWidth digits) := by
  unfold addedWidth decimalWidth
  by_cases hnil : digits = []
  · rw [if_pos hnil, if_pos hnil]
    exact Or.inl rfl
  · rw [if_neg hnil, if_neg hnil]
    have hle := sum_le_value digits 0
    have hzero : (digits.map Fin.val).sum = 0 → _ := value_eq_zero
    omega

/-- The digits of the width of a field do not matter, or their sum is its decimal value. -/
def Field.Fits (f : Field) : Prop :=
  addedWidth f.width = decimalWidth f.width ∨ (f.chars.length : Int) ≤ addedWidth f.width

theorem field_of_length_le {width : Int} {chars : List UInt8} (h : (chars.length : Int) ≤ width) :
    field width chars = chars := by
  rw [field, if_neg (by omega), List.take_of_length_le (by omega)]

theorem field_length {width : Int} {chars : List UInt8} (hpos : 0 ≤ width) :
    (field width chars).length = min width.toNat chars.length := by
  rw [field, if_neg (by omega), List.length_take]

theorem Field.Fits.taken {f : Field} (fits : f.Fits) :
    f.taken addedWidth = f.taken decimalWidth := by
  have hsame : field (addedWidth f.width) f.chars = field (decimalWidth f.width) f.chars := by
    rcases fits with heq | hle
    · rw [heq]
    · rcases addedWidth_cases f.width with heq | ⟨-, hlt⟩
      · rw [heq]
      · rw [field_of_length_le hle, field_of_length_le (by omega)]
  rw [Field.taken, Field.taken, hsame]

/-- Where the sum of the digits matters, less is taken. -/
theorem Field.fits_of_taken {f : Field} (h : f.taken addedWidth = f.taken decimalWidth) :
    f.Fits := by
  by_contra hnot
  unfold Field.Fits at hnot
  rw [not_or, not_le] at hnot
  obtain ⟨hne, hmore⟩ := hnot
  obtain ⟨hpos, hlt⟩ := (addedWidth_cases f.width).resolve_left hne
  have hadded : (field (addedWidth f.width) f.chars).length = _ := field_length hpos.le
  have hdecimal : (field (decimalWidth f.width) f.chars).length = _ :=
    field_length (hpos.trans hlt).le
  cases hchars : field (addedWidth f.width) f.chars with
  | nil =>
      rw [hchars, List.length_nil] at hadded
      omega
  | cons c chars =>
      cases hchars' : field (decimalWidth f.width) f.chars with
      | nil =>
          rw [hchars', List.length_nil] at hdecimal
          omega
      | cons c' chars' =>
          rw [Field.taken_cons hchars, Field.taken_cons hchars', Option.some.injEq,
            Prod.mk.injEq] at h
          obtain ⟨hlength, -⟩ := h
          rw [hchars] at hadded
          rw [hchars'] at hdecimal
          omega

/-- At every field that is reached the width is read right, or there are not more characters
than the scanner allows. -/
def WidthsFit (text : List UInt8) : List FormatItem → Nat → Prop
  | [], _ => True
  | item :: items, pos =>
      (∀ f ∈ item.field? text pos, f.Fits) ∧
        ∀ next vals, item.matched text pos decimalWidth = some (next, vals) →
          WidthsFit text items next

section
variable {text : List UInt8}

theorem matched_iff (item : FormatItem) (pos : Nat) :
    item.matched text pos addedWidth = item.matched text pos decimalWidth ↔
      ∀ f ∈ item.field? text pos, f.Fits := by
  unfold FormatItem.matched
  cases hfield : item.field? text pos with
  | none => simp
  | some f =>
      constructor
      · intro h g hg
        obtain rfl := Option.some.inj hg
        exact Field.fits_of_taken h
      · exact fun h => (h f rfl).taken

theorem itemsAt_append (widthOf : WidthDigits → Int) (succeed : Bool) (item : FormatItem)
    (items : List FormatItem) {pos next : Nat} {vals : List Nat}
    (hitem : item.matched text pos widthOf = some (next, vals)) :
    itemsAt widthOf text succeed (item :: items) pos =
      (itemsAt widthOf text succeed items next).map fun (stop, vals') => (stop, vals ++ vals') := by
  rw [itemsAt, hitem]
  rfl

theorem itemsAt_one (widthOf : WidthDigits → Int) (item : FormatItem) (pos : Nat) :
    itemsAt widthOf text true [item] pos = item.matched text pos widthOf := by
  cases hitem : item.matched text pos widthOf with
  | none => rw [itemsAt, hitem]; rfl
  | some found =>
      obtain ⟨next, vals⟩ := found
      rw [itemsAt_append widthOf true item [] hitem, itemsAt, if_pos (Or.inl rfl), Option.map_some]
      dsimp only
      rw [List.append_nil]

/-- What the scanner matches is right for a format and for all formats it starts with, exactly
if the widths fit. -/
theorem itemsAt_iff (items : List FormatItem) (pos : Nat) :
    (∀ n succeed, itemsAt addedWidth text succeed (items.take n) pos =
      itemsAt decimalWidth text succeed (items.take n) pos) ↔ WidthsFit text items pos := by
  induction items generalizing pos with
  | nil => simp [WidthsFit, itemsAt]
  | cons item items ih =>
      constructor
      · intro h
        have hmatched : item.matched text pos addedWidth = item.matched text pos decimalWidth := by
          have hone := h 1 true
          rwa [List.take_succ_cons, List.take_zero, itemsAt_one, itemsAt_one] at hone
        refine ⟨(matched_iff item pos).mp hmatched, fun next vals hnext => (ih next).mp ?_⟩
        intro n succeed
        have hmore := h (n + 1) succeed
        rw [List.take_succ_cons, itemsAt_append _ _ _ _ (hmatched.trans hnext),
          itemsAt_append _ _ _ _ hnext] at hmore
        refine Option.map_injective ?_ hmore
        intro ⟨stop, after⟩ ⟨stop', after'⟩ heq
        obtain ⟨rfl, hvals⟩ := Prod.mk.inj heq
        rw [List.append_cancel_left hvals]
      · rintro ⟨hfits, hnext⟩ n succeed
        cases n with
        | zero => rfl
        | succ n =>
            have hmatched := (matched_iff item pos).mpr hfits
            rw [List.take_succ_cons]
            cases hitem : item.matched text pos decimalWidth with
            | none => rw [itemsAt, itemsAt, hmatched, hitem]; rfl
            | some found =>
                obtain ⟨next, vals⟩ := found
                rw [itemsAt_append _ _ _ _ (hmatched.trans hitem), itemsAt_append _ _ _ _ hitem,
                  (ih next).mpr (hnext next vals hitem) n succeed]

end

/-! ## The scanner on an input file -/

/-- `nk_fscan` accepts what the format matches, with the decimal values of the field widths,
stores the numbers of it and stops behind it; on anything else it fails and leaves the
position as it was. -/
def ScansFormat {w : Nat} (fl : Floats) (fuel : Nat) (items : List FormatItem) (succeed : Bool)
    (text : List UInt8) (pos : Nat) (mem : Memory) (f : Nkinfile w) : Prop :=
  ∃ r f' pos',
    (nkVscan fl fuel false (formatString items succeed) (items.flatMap FormatItem.args) mem).run
      (nkinfile w) f = some (r, f') ∧ Agrees f' ⟨text, pos'⟩ ∧
    Outcome (itemsAt decimalWidth text succeed items pos)
      (fun vals r => r.1 = true ∧ storedNumbers r.2.1 = vals)
      (fun r pos' => r.1 = false ∧ pos' = pos) r pos'

section
variable {w : Nat} {fl : Floats} {text : List UInt8} {pos : Nat} {f : Nkinfile w} {fuel : Nat}

variable (fl) in
/-- What `nk_fscan` does: it takes the sum of the digits for a width. -/
theorem stays_vscan_items (hfuel : text.length ≤ fuel) (items : List FormatItem) (succeed : Bool)
    (mem : Memory) :
    Stays text (nkVscan fl fuel false (formatString items succeed)
        (items.flatMap FormatItem.args) mem) pos
      (Outcome (itemsAt addedWidth text succeed items pos)
        (fun vals r => r.1 = true ∧ storedNumbers r.2.1 = vals)
        (fun r pos' => r.1 = false ∧ pos' = pos)) := by
  have hscan : Stays text (scanDirectives fl fuel false (parseFmt
      (ascii (formatString items succeed)).length (ascii (formatString items succeed)))
      (items.flatMap FormatItem.args) [] mem) pos
      (ScanResult (itemsAt addedWidth text succeed items pos) []) := by
    rw [ascii_formatString, parseFmt_items items succeed (formatText_length items succeed)]
    exact stays_items addedWidth rfl hfuel succeed items pos [] mem
  exact hscan.orRewind_outcome (fun _ _ h => h.1) fun _ h => h

variable (fl) in
/-- The same on an input file. -/
theorem nkVscan_items (agrees : Agrees f ⟨text, pos⟩) (hfuel : text.length ≤ fuel)
    (items : List FormatItem) (succeed : Bool) (mem : Memory) :
    ∃ r f' pos',
      (nkVscan fl fuel false (formatString items succeed) (items.flatMap FormatItem.args) mem).run
        (nkinfile w) f = some (r, f') ∧ Agrees f' ⟨text, pos'⟩ ∧
      Outcome (itemsAt addedWidth text succeed items pos)
        (fun vals r => r.1 = true ∧ storedNumbers r.2.1 = vals)
        (fun r pos' => r.1 = false ∧ pos' = pos) r pos' :=
  (stays_vscan_items fl hfuel items succeed mem).run agrees

/-- A result is that of one match only. -/
theorem outcome_unique {found found' : Option (Nat × List Nat)}
    {r : Bool × List (Scanned fl) × Memory} {pos' : Nat}
    (h : Outcome found (fun vals r => r.1 = true ∧ storedNumbers r.2.1 = vals)
      (fun r pos' => r.1 = false ∧ pos' = pos) r pos')
    (h' : Outcome found' (fun vals r => r.1 = true ∧ storedNumbers r.2.1 = vals)
      (fun r pos' => r.1 = false ∧ pos' = pos) r pos') : found = found' := by
  cases found with
  | none =>
      cases found' with
      | none => rfl
      | some number => exact absurd (h.1.symm.trans h'.1.1) Bool.false_ne_true
  | some number =>
      obtain ⟨stop, vals⟩ := number
      obtain ⟨⟨hstatus, hvals⟩, hstop⟩ := h
      cases found' with
      | none => exact absurd (h'.1.symm.trans hstatus) Bool.false_ne_true
      | some number' =>
          obtain ⟨stop', vals'⟩ := number'
          obtain ⟨⟨-, hvals'⟩, hstop'⟩ := h'
          rw [← hvals, ← hvals', ← hstop, ← hstop']

/-- For every format, input and position: the format and all formats it starts with, with
`%e` and without, are scanned as they should exactly if at every field that is reached the
digits of the width add up to its decimal value, or there are no more characters than that
sum. -/
theorem scansFormat_iff (agrees : Agrees f ⟨text, pos⟩) (hfuel : text.length ≤ fuel)
    (items : List FormatItem) (mem : Memory) :
    (∀ n succeed, ScansFormat fl fuel (items.take n) succeed text pos mem f) ↔
      WidthsFit text items pos := by
  rw [← itemsAt_iff]
  refine forall_congr' fun n => forall_congr' fun succeed => ?_
  obtain ⟨r, f', pos', hrun, hagrees, hr⟩ :=
    nkVscan_items fl agrees hfuel (items.take n) succeed mem
  constructor
  · rintro ⟨r₁, f₁, pos₁, hrun₁, hagrees₁, hr₁⟩
    obtain ⟨rfl, rfl⟩ := Prod.mk.inj (Option.some.inj (hrun.symm.trans hrun₁))
    obtain rfl : pos' = pos₁ := hagrees.pos_eq.trans hagrees₁.pos_eq.symm
    exact outcome_unique hr hr₁
  · intro hsame
    rw [hsame] at hr
    exact ⟨r, f', pos', hrun, hagrees, hr⟩

end

/-- `%5d` and `12`. -/
theorem scansFormat_digit :
    ScansFormat Floats.absent 2 ([.dec [5] .int false].take 1) false [49, 50] 0 (fun _ => 0)
      (nkinfileOpenMem 32 [49, 50] 2) :=
  (scansFormat_iff (nkinfileOpenMem_agrees [49, 50] [] (by decide)) (Nat.le_refl 2)
    [.dec [5] .int false] (fun _ => 0)).mpr
    ⟨fun f hf => Or.inl (by cases hf; decide), fun _ _ _ => trivial⟩ 1 false

/-- `%10d%e` and `12`: the width is taken as 1, so that the position is behind the first digit. -/
theorem not_scansFormat_ten :
    ¬ ScansFormat Floats.absent 2 [.dec [1, 0] .int false] true [49, 50] 0 (fun _ => 0)
      (nkinfileOpenMem 32 [49, 50] 2) := by
  rintro ⟨r, f', pos', hrun, hagrees, hr⟩
  have hreach : reach Prod.fst (nkVscan Floats.absent 2 false
      (formatString [.dec [1, 0] .int false] true)
      ([FormatItem.dec [1, 0] .int false].flatMap FormatItem.args) (fun _ => 0))
      (nkinfileOpenMem 32 [49, 50] 2) = some 1 := by decide
  have hitems : itemsAt decimalWidth [49, 50] true [.dec [1, 0] .int false] 0 = some (2, [12]) := by
    decide
  rw [hitems] at hr
  obtain ⟨⟨hstatus, -⟩, hstop⟩ := hr
  rw [reach, hrun, Option.bind_some] at hreach
  dsimp only at hreach
  rw [if_pos hstatus, hagrees.nkFtell_eq, hstop] at hreach
  exact absurd (Option.some.inj hreach) (by decide)

end LibnklabsPico.Text
