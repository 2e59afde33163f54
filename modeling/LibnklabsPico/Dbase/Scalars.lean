/-
  Dbase/Scalars.lean --- integers, Boolean values and strings through the serializer
  and the parser.

  The parser reads back what the serializer put, as long as what follows does not
  continue it (`Ends`), and saves the same bytes.
-/
import LibnklabsPico.Dbase.Layout
import LibnklabsPico.Dbase.Nkserialize
import LibnklabsPico.Text.Printing

set_option autoImplicit false

namespace LibnklabsPico.Dbase

open LibnklabsPico.Foundation
open LibnklabsPico.File
open LibnklabsPico.Text

variable {fl : Floats} {fuel : Nat}

/-- What may follow a number: whitespace, the marks of the format, a NUL or the end. -/
def Ends (c : Int) : Prop :=
  c = -1 ∨ c = 0 ∨ nkIsspace c = true ∨ c = 41 ∨ c = 44 ∨ c = 58 ∨ c = 93 ∨ c = 125

/-- What follows a number does not continue it. -/
theorem Ends.facts {c : Int} (h : Ends c) :
    isDigit c = false ∧ c ≠ ch '.' ∧ c ≠ ch 'e' ∧ c ≠ ch 'E' ∧ c ≠ ch 'x' := by
  simp only [Ends, nkIsspace, Bool.or_eq_true, beq_iff_eq, or_assoc] at h
  rcases h with rfl | rfl | rfl | rfl | rfl | rfl | rfl | rfl | rfl | rfl | rfl | rfl | rfl
  all_goals decide

/-! ## Numbers -/

theorem isDigit_digitChar {d : Nat} (hd : d < 10) :
    isDigit ((digitChar false d).toNat : Int) = true := by
  rw [digitChar_toNat hd]
  simp only [isDigit, ch]
  grind

theorem foldl_u64 (digits : List Nat) (num : Nat) :
    digits.foldl (fun n d => u64 (n * 10 + d)) (u64 num) =
      u64 (digits.foldl (fun n d => n * 10 + d) num) := by
  induction digits generalizing num with
  | nil => rfl
  | cons d digits ih =>
      have hstep : u64 (u64 num * 10 + d) = u64 (num * 10 + d) := by
        unfold u64
        omega
      rw [List.foldl_cons, List.foldl_cons, hstep, ih]

theorem takes_decLoop {digits : List Nat} {rest : List UInt8} {num : Nat}
    (hdigits : ∀ d ∈ digits, d < 10) (hrest : isDigit (peekHead rest) = false)
    (hfuel : digits.length ≤ fuel) :
    Takes (decLoop isDigit fuel (peekHead (digits.map (digitChar false) ++ rest)) num)
      (digits.map (digitChar false)) rest
      (digits.foldl (fun n d => u64 (n * 10 + d)) num, peekHead rest) := by
  induction digits generalizing fuel num with
  | nil =>
      cases fuel with
      | zero => exact Takes.pure _ rest
      | succ fuel =>
          simp only [decLoop, List.map_nil, List.nil_append, hrest, Bool.false_eq_true, if_false]
          exact Takes.pure _ rest
  | cons d digits ih =>
      obtain ⟨fuel, rfl⟩ : ∃ k, fuel = k + 1 := ⟨fuel - 1, by simp at hfuel; omega⟩
      have hd : d < 10 := hdigits d (by simp)
      have hdigit : isDigit (peekHead ((d :: digits).map (digitChar false) ++ rest)) = true :=
        isDigit_digitChar hd
      have hval : (peekHead ((d :: digits).map (digitChar false) ++ rest) - ch '0').toNat = d := by
        change (((digitChar false d).toNat : Int) - 48).toNat = d
        rw [digitChar_toNat hd]
        omega
      rw [decLoop, if_pos hdigit, hval]
      exact Takes.bind (Takes.nextFast _ _)
        (ih (fun e he => hdigits e (List.mem_cons_of_mem d he)) (by simpa using hfuel))

/-- A decimal number in front of something that ends it. -/
theorem takes_scanDecNumber (fl : Floats) (neg : Bool) {val : Nat} {rest : List UInt8}
    (hval : val < 2 ^ 64)
    (hrest : Ends (peekHead rest)) (hfuel : (decDigits val).length ≤ fuel) :
    Takes (scanDecNumber fl isDigit fuel neg
        (peekHead ((decDigits val).map (digitChar false) ++ rest)))
      ((decDigits val).map (digitChar false)) rest (true, some (.int neg val)) := by
  obtain ⟨hdigit, hdot, he, hE, -⟩ := hrest.facts
  have hpoint : ¬ (peekHead rest = ch '.' ∨ peekHead rest = ch 'e' ∨ peekHead rest = ch 'E') := by
    simp only [hdot, he, hE, or_self, not_false_eq_true]
  have hsum : (decDigits val).foldl (fun n d => u64 (n * 10 + d)) 0 = val := by
    have hzero : u64 0 = 0 := rfl
    rw [← hzero, foldl_u64, foldl_decDigits (by omega)]
    exact Nat.mod_eq_of_lt hval
  have hloop : Takes (decLoop isDigit fuel
      (peekHead ((decDigits val).map (digitChar false) ++ rest)) 0)
      ((decDigits val).map (digitChar false)) rest
      ((decDigits val).foldl (fun n d => u64 (n * 10 + d)) 0, peekHead rest) :=
    takes_decLoop (decDigits_lt val) hdigit hfuel
  rw [hsum] at hloop
  refine Takes.tell fun org => Takes.finish hloop ?_
  simp only [if_neg hpoint]
  exact Takes.pure _ rest

theorem takes_andAlso_false {test : Bool} (htest : test = false) (more : FileProg Bool)
    (rest : List UInt8) : Takes (andAlso test more) [] rest false := by
  rw [htest]
  exact Takes.pure false rest

theorem takes_nextIs_one (c : Int) (d : UInt8) (rest : List UInt8) :
    Takes (nextIs 1 c) [] (d :: rest) (peekHead rest == c) :=
  Takes.look (Takes.peekRel_one d rest) (Takes.pure _ _)

theorem takes_nextIs_two (c : Int) (d e : UInt8) (rest : List UInt8) :
    Takes (nextIs 2 c) [] (d :: e :: rest) (peekHead rest == c) :=
  Takes.look (Takes.peekRel_two d e rest) (Takes.pure _ _)

/-- The text of a number. -/
def numText (neg : Bool) (val : Nat) : List UInt8 :=
  (if neg then [45] else []) ++ (decDigits val).map (digitChar false)

/-- The digits start with a digit and do not go on with an `x`. -/
theorem decDigits_head (val : Nat) {rest : List UInt8} (hrest : Ends (peekHead rest)) :
    ∃ d digits, (decDigits val).map (digitChar false) = d :: digits ∧
      isDigit d.toNat = true ∧ peekHead (digits ++ rest) ≠ ch 'x' := by
  obtain ⟨d, digits, hdigits⟩ := List.exists_cons_of_ne_nil (decDigits_ne_nil val)
  have hd : d < 10 := decDigits_lt val d (by simp [hdigits])
  refine ⟨digitChar false d, digits.map (digitChar false), by rw [hdigits, List.map_cons],
    isDigit_digitChar hd, ?_⟩
  cases digits with
  | nil => exact hrest.facts.2.2.2.2
  | cons e digits =>
      have he : e < 10 := decDigits_lt val e (by simp [hdigits])
      change ((digitChar false e).toNat : Int) ≠ 120
      rw [digitChar_toNat he]
      omega

/-- A printed integer is read back. -/
theorem takes_scanIntNumber {val : Nat} {neg : Bool} {rest : List UInt8} (hval : val < 2 ^ 64)
    (hrest : Ends (peekHead rest)) (hfuel : (decDigits val).length ≤ fuel) :
    Takes (scanIntNumber fl fuel (peekHead (numText neg val ++ rest))) (numText neg val) rest
      (true, some (.int neg val)) := by
  have hdec := takes_scanDecNumber fl neg hval hrest hfuel
  obtain ⟨d, digits, hdigits, hd, hx⟩ := decDigits_head val hrest
  have hdash : ((d.toNat : Int) == ch '-') = false := by
    simp only [isDigit, ch] at *
    grind
  have hfirst : isDigit (peekHead (d :: digits ++ rest)) = true := hd
  unfold scanIntNumber scanNumber
  cases neg with
  | false =>
      have htext : numText false val = d :: digits := hdigits
      rw [hdigits] at hdec
      rw [htext]
      have hhex : Takes (andAlso (peekHead (d :: digits ++ rest) == ch '0') (nextIs 1 (ch 'x')))
          [] (d :: digits ++ rest) false := by
        unfold andAlso
        split
        · have hnext := takes_nextIs_one (ch 'x') d (digits ++ rest)
          rwa [beq_false_of_ne hx] at hnext
        · exact Takes.pure false _
      refine Takes.look hhex ?_
      rw [if_neg Bool.false_ne_true]
      refine Takes.look (takes_andAlso_false hdash _ _) ?_
      rw [if_neg Bool.false_ne_true, if_pos hfirst]
      exact hdec
  | true =>
      have htext : numText true val = 45 :: d :: digits := by
        rw [numText, if_pos rfl, hdigits]
        rfl
      rw [hdigits] at hdec
      rw [htext]
      have hnegHex : Takes (andAlso (peekHead (45 :: d :: digits ++ rest) == ch '-') do
            let zero ← nextIs 1 (ch '0')
            andAlso zero (nextIs 2 (ch 'x')))
          [] (45 :: d :: digits ++ rest) false := by
        refine Takes.look (takes_nextIs_one (ch '0') 45 (d :: digits ++ rest)) ?_
        unfold andAlso
        split
        · have hnext := takes_nextIs_two (ch 'x') 45 d (digits ++ rest)
          rwa [beq_false_of_ne hx] at hnext
        · exact Takes.pure false _
      have hnegDec : Takes (andAlso (peekHead (45 :: d :: digits ++ rest) == ch '-') nextIsDigit)
          [] (45 :: d :: digits ++ rest) true := by
        refine Takes.look (Takes.peekRel_one 45 (d :: digits ++ rest)) ?_
        rw [hfirst]
        exact Takes.pure true _
      have hminus : ¬ isDigit (peekHead (45 :: d :: digits ++ rest)) = true :=
        (by decide : ¬ isDigit (peekHead [45]) = true)
      refine Takes.look (takes_andAlso_false rfl _ _) ?_
      rw [if_neg Bool.false_ne_true]
      refine Takes.look hnegHex ?_
      rw [if_neg Bool.false_ne_true, if_neg hminus]
      refine Takes.look hnegDec ?_
      rw [if_pos rfl]
      exact Takes.bind (Takes.nextFast 45 (d :: digits ++ rest)) hdec

/-! ## Integers -/

theorem ofLe_read_lt (mem : Memory) (location size : Nat) :
    ofLe (mem.read location size) < 256 ^ size := by
  simpa using ofLe_lt (mem.read location size)

/-- An integer is determined by its bytes, and the other way round. -/
theorem IntType.wrap_load (what : IntType) (charSigned : Bool) (mem : Memory) (location : Nat) :
    wrap (8 * what.width) (what.load charSigned mem location) =
      ofLe (mem.read location what.width) := by
  have hlt := ofLe_read_lt mem location what.width
  cases what <;> simp only [IntType.load, IntType.width, charVal, wrap, signed] at hlt ⊢
  all_goals omega

/-- What the conversion of the type can print. -/
theorem IntType.load_range (what : IntType) (charSigned : Bool) (mem : Memory)
    (location : Nat) :
    -(2 ^ 31) ≤ what.load charSigned mem location ∧ what.load charSigned mem location < 2 ^ 32 ∧
      (what.format = "%d" ∧ what.load charSigned mem location < 2 ^ 31 ∨
        what.format = "%u" ∧ 0 ≤ what.load charSigned mem location) := by
  have hlt := ofLe_read_lt mem location what.width
  cases what <;> simp only [IntType.load, IntType.width, IntType.format, charVal, signed] at hlt ⊢
  all_goals first | omega | (cases charSigned <;> simp <;> omega)

/-- An integer is printed as its sign and its digits. -/
theorem IntType.nkFprintf_load (what : IntType) (charSigned : Bool) (mem : Memory)
    (location : Nat) :
    nkFprintf fl what.format [.int (what.load charSigned mem location)] =
      numText (decide (what.load charSigned mem location < 0))
        (what.load charSigned mem location).natAbs := by
  obtain ⟨hlow, hhigh, ⟨hformat, hbound⟩ | ⟨hformat, hbound⟩⟩ :=
    what.load_range charSigned mem location
  · generalize what.load charSigned mem location = n at *
    have hn : signed 32 n = n := by
      unfold signed
      omega
    rw [hformat, nkFprintf_d, hn, numText]
    simp
  · generalize what.load charSigned mem location = n at *
    have hn : wrap 32 n = n.natAbs := by
      unfold wrap
      omega
    have hneg : ¬ n < 0 := by omega
    rw [hformat, nkFprintf_u, hn, numText]
    simp [hneg]

/-- What was printed and read back is saved as the same bytes. -/
theorem IntType.read_save (what : IntType) (charSigned : Bool) (mem mem' : Memory)
    (location location' : Nat) :
    (what.save (what.load charSigned mem location) mem' location').read location' what.width =
      mem.read location what.width := by
  have hbytes : leBytes what.width (wrap (8 * what.width) (what.load charSigned mem location)) =
      mem.read location what.width := by
    rw [what.wrap_load]
    exact leBytes_ofLe (mem.read_length location what.width)
  have hstored := Memory.read_store mem' location' (mem.read location what.width)
  rw [Memory.read_length] at hstored
  rw [IntType.save, hbytes, hstored]

theorem Number.toInt_int {neg : Bool} {n : Int} (hneg : neg = decide (n < 0))
    (hrange : n.natAbs < 2 ^ 63) : (Number.int neg n.natAbs : Number fl).toInt = n := by
  subst hneg
  unfold Number.toInt signed
  by_cases h : n < 0
  · simp only [h, decide_true, if_true]
    omega
  · simp only [h, decide_false, Bool.false_eq_true, if_false]
    omega

/-! ## Strings -/

/-- What a character of a string is printed as, whether `char` is signed or not. -/
theorem serializeChar_eq (charSigned : Bool) (s : UInt8) :
    serializeChar fl charSigned s =
      if s = 34 then [92, 34]
      else if s = 92 then [92, 92]
      else if s = 10 then [92, 110]
      else if s = 13 then [92, 114]
      else if s.toNat < 32 ∨ 126 < s.toNat then
        [92, 120, digitChar false (s.toNat / 16), digitChar false (s.toNat % 16)]
      else [s] := by
  have hlt := s.toNat_lt
  have hval : charVal charSigned s.toNat = s.toNat ∨
      127 < s.toNat ∧ charVal charSigned s.toNat = s.toNat - 256 := by
    cases charSigned
    · exact Or.inl rfl
    · simp only [charVal, if_true, signed]
      omega
  have hchar : ∀ c : UInt8, c.toNat < 127 → (charVal charSigned s.toNat = c.toNat ↔ s = c) := by
    intro c hc
    rw [← UInt8.toNat_inj]
    omega
  have hplain : charVal charSigned s.toNat < 32 ∨ charVal charSigned s.toNat > 126 ↔
      s.toNat < 32 ∨ 126 < s.toNat := by omega
  unfold serializeChar
  simp only [show ch '"' = ((34 : UInt8).toNat : Int) from rfl,
    show ch '\\' = ((92 : UInt8).toNat : Int) from rfl,
    show ch '\n' = ((10 : UInt8).toNat : Int) from rfl,
    show ch '\r' = ((13 : UInt8).toNat : Int) from rfl,
    hchar 34 (by decide), hchar 92 (by decide), hchar 10 (by decide), hchar 13 (by decide), hplain,
    nkFprintf_hex]
  rfl

theorem takes_nextUnlessEnd (c : UInt8) (rest : List UInt8) :
    Takes (nextUnlessEnd c.toNat) [c] rest (peekHead rest) := by
  rw [nextUnlessEnd, if_pos (by omega)]
  exact Takes.nextFast c rest

/-- A backslash, the character after it, and what is read with them. -/
theorem takes_backslash {c : UInt8} {tok rest : List UInt8} {val : Int}
    (h : Takes (escapeCode c.toNat (peekHead (tok ++ rest))) tok rest val) :
    Takes nkFscanEscape (92 :: c :: tok) rest val :=
  Takes.look (Takes.peek _)
    (Takes.bind (Takes.nextFast 92 _) (Takes.bind (takes_nextUnlessEnd c _) h))

/-- A backslash, an `x` and two digits: what comes after them does not matter. -/
theorem takes_hexEscape {high low : Nat} (hhigh : high < 16) (hlow : low < 16)
    (rest : List UInt8) :
    Takes nkFscanEscape [92, 120, digitChar false high, digitChar false low] rest
      (high * 16 + low) := by
  have hval : ∀ d : Fin 16, hexVal ((digitChar false d.val).toNat : Int) = some (d.val : Int) := by
    decide
  have hhighVal : hexVal (peekHead (digitChar false high :: digitChar false low :: rest)) =
      some (high : Int) := hval ⟨high, hhigh⟩
  have hlowVal : hexVal (peekHead (digitChar false low :: rest)) = some (low : Int) :=
    hval ⟨low, hlow⟩
  refine takes_backslash ?_
  change Takes (hexEscape _) _ _ _
  unfold hexEscape
  simp only [List.cons_append, List.nil_append, hhighVal]
  refine Takes.bind (Takes.nextFast _ _) ?_
  simp only [List.cons_append, List.nil_append, hlowVal]
  exact Takes.finish (Takes.nextFast _ _) (Takes.pure _ rest)

/-- The parser reads back each character of a string. -/
theorem takes_serializeChar (charSigned : Bool) (s : UInt8) (rest : List UInt8) :
    Takes nkFscanEscape (serializeChar fl charSigned s) rest s.toNat := by
  have hlt := s.toNat_lt
  rw [serializeChar_eq]
  split
  · rename_i hs
    subst hs
    exact takes_backslash (Takes.pure _ rest)
  split
  · rename_i hs
    subst hs
    exact takes_backslash (Takes.pure _ rest)
  split
  · rename_i hs
    subst hs
    exact takes_backslash (Takes.pure _ rest)
  split
  · rename_i hs
    subst hs
    exact takes_backslash (Takes.pure _ rest)
  split
  · have hbyte : (s.toNat : Int) = (s.toNat / 16 : Nat) * 16 + (s.toNat % 16 : Nat) := by omega
    rw [hbyte]
    exact takes_hexEscape (by omega) (Nat.mod_lt _ (by decide)) rest
  · rename_i hslash _ _ _
    have hplain : ¬ peekHead ([s] ++ rest) = ch '\\' := by
      change ¬ (s.toNat : Int) = (92 : UInt8).toNat
      rw [Int.natCast_inj, UInt8.toNat_inj]
      exact hslash
    refine Takes.look (Takes.peek _) ?_
    rw [if_neg hplain]
    exact Takes.finish (takes_nextUnlessEnd s rest) (Takes.pure _ rest)

/-- What a character is printed as does not start with a quote. -/
theorem serializeChar_head (charSigned : Bool) (s : UInt8) (rest : List UInt8) :
    peekHead (serializeChar fl charSigned s ++ rest) ≠ -1 ∧
      peekHead (serializeChar fl charSigned s ++ rest) ≠ ch '"' := by
  have hslash : ∀ tok : List UInt8, peekHead (92 :: tok ++ rest) ≠ -1 ∧
      peekHead (92 :: tok ++ rest) ≠ ch '"' := by
    intro tok
    exact (by decide : peekHead [92] ≠ -1 ∧ peekHead [92] ≠ ch '"')
  rw [serializeChar_eq]
  split
  · exact hslash _
  split
  · exact hslash _
  split
  · exact hslash _
  split
  · exact hslash _
  split
  · exact hslash _
  · rename_i hquote _ _ _ _
    refine ⟨?_, ?_⟩
    · change (s.toNat : Int) ≠ -1
      omega
    · change ¬ (s.toNat : Int) = (34 : UInt8).toNat
      rw [Int.natCast_inj, UInt8.toNat_inj]
      exact hquote

theorem serializeChar_length (fl : Floats) (charSigned : Bool) (s : UInt8) :
    1 ≤ (serializeChar fl charSigned s).length := by
  rw [serializeChar_eq]
  repeat' split
  all_goals simp

theorem takes_stringLoop {charSigned : Bool} {size : Nat} {chars s rest : List UInt8}
    (hsize : s.length + chars.length ≤ size)
    (hfuel : (chars.flatMap (serializeChar fl charSigned)).length ≤ fuel) :
    Takes (stringLoop size fuel
        (peekHead (chars.flatMap (serializeChar fl charSigned) ++ 34 :: rest)) s)
      (chars.flatMap (serializeChar fl charSigned)) (34 :: rest) (34, s ++ chars) := by
  induction chars generalizing fuel s with
  | nil =>
      have hstop : ¬ (peekHead (34 :: rest) ≠ -1 ∧ peekHead (34 :: rest) ≠ ch '"') :=
        (by decide : ¬ (peekHead [34] ≠ -1 ∧ peekHead [34] ≠ ch '"'))
      rw [List.append_nil]
      cases fuel with
      | zero => exact Takes.pure _ _
      | succ fuel =>
          simp only [stringLoop, List.flatMap_nil, List.nil_append, if_neg hstop]
          exact Takes.pure _ _
  | cons c chars ih =>
      have hlength := serializeChar_length fl charSigned c
      simp only [List.flatMap_cons, List.length_append] at hfuel
      obtain ⟨fuel, rfl⟩ : ∃ k, fuel = k + 1 := ⟨fuel - 1, by omega⟩
      have hgo : peekHead ((c :: chars).flatMap (serializeChar fl charSigned) ++ 34 :: rest) ≠ -1 ∧
          peekHead ((c :: chars).flatMap (serializeChar fl charSigned) ++ 34 :: rest) ≠
            ch '"' := by
        rw [List.flatMap_cons, List.append_assoc]
        exact serializeChar_head charSigned c _
      have hchar : ¬ (c.toNat : Int) = -1 := by omega
      have hput : (if s.length ≠ size then s ++ [UInt8.ofNat (wrap 8 c.toNat)] else s) =
          s ++ [c] := by
        simp only [List.length_cons] at hsize
        rw [if_pos (by omega), ofNat_wrap]
      have hnext : Takes (stringLoop size fuel
          (peekHead (chars.flatMap (serializeChar fl charSigned) ++ 34 :: rest)) (s ++ [c]))
          (chars.flatMap (serializeChar fl charSigned)) (34 :: rest) (34, s ++ [c] ++ chars) := by
        refine ih ?_ (by omega)
        simp only [List.length_append, List.length_cons, List.length_nil] at hsize ⊢
        omega
      rw [stringLoop, if_pos hgo, List.flatMap_cons]
      refine Takes.bind (takes_serializeChar charSigned c _) ?_
      rw [if_neg hchar, hput, ← List.append_cons] at *
      exact Takes.look (Takes.peek _) hnext

/-- A string is read back and saved with its NUL. -/
theorem takes_scanString {charSigned : Bool} {size location : Nat} {mem : Memory}
    {s rest : List UInt8} (hsize : s.length < size) (hbound : size < 2 ^ 32)
    (hfuel : (s.flatMap (serializeChar fl charSigned)).length ≤ fuel) :
    Takes (scanString fuel size location mem)
      (34 :: (s.flatMap (serializeChar fl charSigned) ++ [34])) rest
      (true, mem.store location (s ++ [0])) := by
  have hspace : wrap 32 ((size : Int) - 1) = size - 1 :=
    wrap_sub (n := 1) (by omega) hbound
  have hloop : Takes (stringLoop (size - 1) fuel
      (peekHead (s.flatMap (serializeChar fl charSigned) ++ 34 :: rest)) [])
      (s.flatMap (serializeChar fl charSigned)) (34 :: rest) (34, [] ++ s) := by
    refine takes_stringLoop ?_ hfuel
    simp only [List.length_nil]
    omega
  have hquote : Takes FileProg.fnextFast [34]
      ((s.flatMap (serializeChar fl charSigned) ++ [34]) ++ rest)
      (peekHead (s.flatMap (serializeChar fl charSigned) ++ [34] ++ rest)) :=
    Takes.nextFast 34 _
  unfold scanString
  rw [hspace]
  refine Takes.bind hquote ?_
  rw [List.append_assoc]
  refine Takes.bind hloop ?_
  exact Takes.finish (Takes.nextFast 34 rest) (Takes.pure _ rest)

end LibnklabsPico.Dbase
