/-
  Dbase/NumberReaders.lean --- how far the readers of numbers get.

  The integer types, `tDOUBLE` and `tFLOAT` of `nk_fscan_keyval` and `skip_value` have one
  copy of the lexer each.  `numberAt` says where a copy stops and what it reads.
-/
import LibnklabsPico.Dbase.Bounds
import LibnklabsPico.Text.Runs

set_option autoImplicit false

namespace LibnklabsPico.Dbase

open LibnklabsPico.Foundation
open LibnklabsPico.File
open LibnklabsPico.File.FileProg
open LibnklabsPico.Text

/-! ## What a reader makes of a text -/

section
variable (fl : Floats) (text : List UInt8)

/-- A hexadecimal number. -/
def hexAt (neg : Bool) (pos : Nat) : Option (Nat × Number fl) :=
  let digits := digitsAt hexVal text pos (-1)
  if digits = [] then none
  else some (pos + digits.length, .int neg (u64 (digitsValue 16 (digitVal hexVal) digits)))

/-- A floating point number. -/
def realAt (neg : Bool) (pos : Nat) : Option (Nat × Number fl) :=
  (fl.convert text pos).map fun number => (number.1, .real neg number.2)

/-- The character behind digits that belong to a floating point number. -/
abbrev Continues (c : Int) : Prop := c = ch '.' ∨ c = ch 'e' ∨ c = ch 'E'

/-- The value of a decimal digit. -/
def decDigit (c : UInt8) : Nat := c.toNat - 48

/-- A decimal number, or a floating point number that starts like one. -/
def decAt (digit : Int → Bool) (neg : Bool) (pos : Nat) : Option (Nat × Number fl) :=
  let digits := run digit text pos
  let stop := pos + digits.length
  if Continues (charAt text stop) then realAt fl text neg pos
  else some (stop, .int neg (u64 (digitsValue 10 decDigit digits)))

/-- A number: where it ends, and what it is.  The copies differ in what is a digit after a
minus sign, and in how much is left out behind `-`, when a point follows it. -/
def numberAt (negDigit : Int → Bool) (skip : Nat) (pos : Nat) : Option (Nat × Number fl) :=
  let c := charAt text pos
  if c = ch '0' ∧ charAt text (pos + 1) = ch 'x' then hexAt fl text false (pos + 2)
  else if c = ch '-' ∧ charAt text (pos + 1) = ch '0' ∧ charAt text (pos + 2) = ch 'x' then
    hexAt fl text true (pos + 3)
  else if isDigit c = true then decAt fl text isDigit false pos
  else if c = ch '-' ∧ isDigit (charAt text (pos + 1)) = true then
    decAt fl text negDigit true (pos + 1)
  else if c = ch '-' ∧ charAt text (pos + 1) = ch '.' then realAt fl text true (pos + 1 + skip)
  else if c = ch '.' then realAt fl text false pos
  else none

end

variable {fl : Floats} {text : List UInt8} {pos : Nat}

/-- A reader gives the number and stops behind it, or fails if there is none. -/
def Lexes (number : Option (Nat × Number fl)) : Bool × Option (Number fl) → Nat → Prop :=
  Outcome number (fun num r => r = (true, some num)) fun r _ => r.1 = false

theorem stays_decLoop_run {digit : Int → Bool} (hend : digit (-1) = false) (fuel pos num : Nat)
    (hfuel : (run digit text pos).length ≤ fuel) :
    Stays text (decLoop digit fuel (charAt text pos) num) pos fun r pos' =>
      pos' = pos + (run digit text pos).length ∧
        r = ((run digit text pos).foldl (fun n c => u64 (n * 10 + decDigit c)) num,
          charAt text pos') := by
  induction fuel generalizing pos num with
  | zero =>
      rw [List.length_eq_zero_iff.mp (Nat.le_zero.mp hfuel)]
      exact .pure ⟨rfl, rfl⟩
  | succ fuel ih =>
      rw [decLoop]
      by_cases hdigit : digit (charAt text pos) = true
      · obtain ⟨c, hchar, hrun⟩ := run_eq_cons hend hdigit
        rw [hrun, List.length_cons] at hfuel ⊢
        rw [if_pos hdigit]
        refine .nextFast (ne_end_of_test hend hdigit) ?_
        refine (ih (pos + 1) _ (Nat.le_of_succ_le_succ hfuel)).mono fun r pos' h => ?_
        obtain ⟨hpos, hr⟩ := h
        have hval : (charAt text pos - ch '0').toNat = decDigit c := by
          rw [hchar]
          change ((c.toNat : Int) - 48).toNat = c.toNat - 48
          omega
        refine ⟨by omega, ?_⟩
        rw [hr, List.foldl_cons, hval]
      · rw [if_neg hdigit, run_eq_nil (Bool.not_eq_true _ ▸ hdigit)]
        exact .pure ⟨rfl, rfl⟩

theorem stays_realAt (hscan : fl.Stays) (neg : Bool) :
    Stays text (scanReal fl neg) pos (Lexes (realAt fl text neg pos)) := by
  refine .bind hscan.convert fun r pos' hr => .pure ?_
  unfold realAt
  cases hnumber : fl.convert text pos with
  | none =>
      rw [hnumber] at hr
      exact hr
  | some number =>
      rw [hnumber] at hr
      obtain ⟨rfl, rfl⟩ := hr
      exact ⟨rfl, rfl⟩

theorem stays_hexAt {fuel : Nat} (hfuel : text.length ≤ fuel) (neg : Bool) {skip : Nat}
    (hskip : pos + skip ≤ text.length) :
    Stays text (scanHexNumber fl fuel neg skip) pos (Lexes (hexAt fl text neg (pos + skip))) := by
  refine .seekRel hskip (.bind (stays_hex_digits (-1) hfuel) fun r pos' hr => .pure ?_)
  obtain ⟨rfl, rfl⟩ := hr
  unfold hexAt
  dsimp only
  cases digitsAt hexVal text (pos + skip) (-1) with
  | nil => rfl
  | cons c digits => exact ⟨rfl, rfl⟩

theorem stays_decAt (hscan : fl.Stays) {digit : Int → Bool} (hend : digit (-1) = false)
    {fuel : Nat} (hfuel : text.length ≤ fuel) (neg : Bool) :
    Stays text (scanDecNumber fl digit fuel neg (charAt text pos)) pos
      (Lexes (decAt fl text digit neg pos)) := by
  refine .of_le fun hpos => .tell ?_
  have hle : pos + (run digit text pos).length ≤ text.length := run_length_le hpos
  refine .bind (stays_decLoop_run hend fuel pos 0 (by omega)) fun r pos' hr => ?_
  obtain ⟨rfl, rfl⟩ := hr
  have hvalue := foldl_u64_digitsValue 10 decDigit (run digit text pos) 0
  dsimp only
  unfold decAt
  by_cases hmore : Continues (charAt text (pos + (run digit text pos).length))
  · rw [if_pos hmore, if_pos hmore]
    exact .seek hpos fun _ => stays_realAt hscan neg
  · rw [if_neg hmore, if_neg hmore]
    refine .pure ⟨?_, rfl⟩
    rw [show u64 0 = 0 from rfl] at hvalue
    rw [hvalue]
    rfl

/-- A test that leaves the position as it is. -/
def Tells (text : List UInt8) (pos : Nat) (p : FileProg Bool) (fact : Prop) : Prop :=
  Stays text p pos fun found pos' => pos' = pos ∧ (found = true ↔ fact)

theorem tells_andAlso {test : Bool} {more : FileProg Bool} {fact : Prop}
    (hmore : test = true → Tells text pos more fact) :
    Tells text pos (andAlso test more) (test = true ∧ fact) := by
  cases test with
  | true => exact (hmore rfl).mono fun _ _ h => ⟨h.1, by simpa using h.2⟩
  | false => exact .pure ⟨rfl, by simp⟩

theorem tells_nextIs {n : Nat} {c : Int} (hn : pos + n ≤ text.length) :
    Tells text pos (nextIs n c) (charAt text (pos + n) = c) :=
  .peekRel hn (.pure ⟨rfl, beq_iff_eq⟩)

/-- The branches that read a number. -/
theorem stays_numberAt (hscan : fl.Stays) {negDigit : Int → Bool} (hend : negDigit (-1) = false)
    {negPoint : FileProg Bool} {skip : Nat}
    (hpoint : pos + 1 ≤ text.length → Stays text negPoint pos fun found pos' =>
      if charAt text (pos + 1) = ch '.' then
        found = true ∧ pos' = pos + skip ∧ charAt text pos' ≠ -1
      else found = false)
    {fuel : Nat} (hfuel : text.length ≤ fuel) :
    Stays text (scanNumber fl negDigit negPoint fuel (charAt text pos)) pos
      (Lexes (numberAt fl text negDigit skip pos)) := by
  refine .of_le fun hpos => ?_
  have hahead : ∀ {p : Nat} {c : Int}, c ≠ -1 → p ≤ text.length → charAt text p = c →
      p + 1 ≤ text.length := by
    intro p c hc hp hchar
    exact (charAt_ne_end hp).mp (by rwa [hchar])
  unfold scanNumber numberAt
  dsimp only
  have hhex : Tells text pos (andAlso (charAt text pos == ch '0') (nextIs 1 (ch 'x')))
      ((charAt text pos == ch '0') = true ∧ charAt text (pos + 1) = ch 'x') :=
    tells_andAlso fun hzero => tells_nextIs (hahead (by decide) hpos (beq_iff_eq.mp hzero))
  have hnegHex : Tells text pos
      (andAlso (charAt text pos == ch '-') do
        let zero ← nextIs 1 (ch '0')
        andAlso zero (nextIs 2 (ch 'x')))
      ((charAt text pos == ch '-') = true ∧
        charAt text (pos + 1) = ch '0' ∧ charAt text (pos + 2) = ch 'x') := by
    refine tells_andAlso fun hminus => ?_
    have hone := hahead (by decide) hpos (beq_iff_eq.mp hminus)
    refine .bind (tells_nextIs hone) fun zero pos' h => ?_
    obtain ⟨rfl, hzero⟩ := h
    have htwo : Tells text pos' (andAlso zero (nextIs 2 (ch 'x')))
        (zero = true ∧ charAt text (pos' + 2) = ch 'x') :=
      tells_andAlso fun h => tells_nextIs (hahead (by decide) hone (hzero.mp h))
    rwa [hzero] at htwo
  have hnegDec : Tells text pos (andAlso (charAt text pos == ch '-') nextIsDigit)
      ((charAt text pos == ch '-') = true ∧ isDigit (charAt text (pos + 1)) = true) :=
    tells_andAlso fun hminus =>
      .peekRel (hahead (by decide) hpos (beq_iff_eq.mp hminus)) (.pure ⟨rfl, Iff.rfl⟩)
  simp only [beq_iff_eq] at hhex hnegHex hnegDec
  refine .bind hhex fun hex pos₁ h => ?_
  obtain ⟨rfl, hhex⟩ := h
  by_cases hx : charAt text pos₁ = ch '0' ∧ charAt text (pos₁ + 1) = ch 'x'
  · rw [if_pos (hhex.mpr hx), if_pos hx]
    exact stays_hexAt hfuel false
      (hahead (by decide) (hahead (by decide) hpos hx.1) hx.2)
  rw [if_neg (mt hhex.mp hx), if_neg hx]
  refine .bind hnegHex fun negHex pos₂ h => ?_
  obtain ⟨rfl, hnegHex⟩ := h
  by_cases hnx : charAt text pos₂ = ch '-' ∧ charAt text (pos₂ + 1) = ch '0' ∧
      charAt text (pos₂ + 2) = ch 'x'
  · rw [if_pos (hnegHex.mpr hnx), if_pos hnx]
    exact stays_hexAt hfuel true
      (hahead (by decide) (hahead (by decide) (hahead (by decide) hpos hnx.1) hnx.2.1) hnx.2.2)
  rw [if_neg (mt hnegHex.mp hnx), if_neg hnx]
  by_cases hdigit : isDigit (charAt text pos₂) = true
  · rw [if_pos hdigit, if_pos hdigit]
    exact stays_decAt hscan rfl hfuel false
  rw [if_neg hdigit, if_neg hdigit]
  refine .bind hnegDec fun negDec pos₃ h => ?_
  obtain ⟨rfl, hnegDec⟩ := h
  by_cases hnd : charAt text pos₃ = ch '-' ∧ isDigit (charAt text (pos₃ + 1)) = true
  · rw [if_pos (hnegDec.mpr hnd), if_pos hnd]
    exact .nextFast (by rw [hnd.1]; decide) (stays_decAt hscan hend hfuel true)
  rw [if_neg (mt hnegDec.mp hnd), if_neg hnd]
  by_cases hminus : charAt text pos₃ = ch '-'
  · have hnot : ¬ charAt text pos₃ = ch '.' := by
      rw [hminus]
      decide
    rw [beq_iff_eq.mpr hminus]
    refine .bind (hpoint (hahead (by decide) hpos hminus)) fun found pos₄ h => ?_
    by_cases hdot : charAt text (pos₃ + 1) = ch '.'
    · rw [if_pos hdot] at h
      obtain ⟨rfl, rfl, hchar⟩ := h
      rw [if_pos rfl, if_pos ⟨hminus, hdot⟩]
      refine .nextFast hchar ?_
      rw [Nat.add_right_comm]
      exact stays_realAt hscan true
    · rw [if_neg hdot] at h
      subst h
      rw [if_neg Bool.false_ne_true, if_neg hnot, if_neg (fun h => hdot h.2), if_neg hnot]
      exact .pure rfl
  · rw [beq_eq_false_iff_ne.mpr hminus]
    have hnot : ¬ (charAt text pos₃ = ch '-' ∧ charAt text (pos₃ + 1) = ch '.') :=
      fun h => hminus h.1
    have hfalse : Tells text pos₃ (andAlso false negPoint) False := .pure ⟨rfl, by simp⟩
    refine .bind hfalse fun found pos₄ h => ?_
    obtain ⟨rfl, hfound⟩ := h
    rw [if_neg hfound.mp, if_neg hnot]
    by_cases hdot : charAt text pos₄ = ch '.'
    · rw [if_pos hdot, if_pos hdot]
      exact stays_realAt hscan false
    · rw [if_neg hdot, if_neg hdot]
      exact .pure rfl

/-! ## The copies of the lexer -/

/-- `c >= '0' && c <= '0'` -/
def isZero (c : Int) : Bool := decide (ch '0' ≤ c) && decide (c ≤ ch '0')

/-- `nk_fpeek_rel(f, 1) == '.'` -/
theorem tells_point (hroom : pos + 1 ≤ text.length) :
    Stays text (nextIs 1 (ch '.')) pos fun found pos' =>
      if charAt text (pos + 1) = ch '.' then
        found = true ∧ pos' = pos + 0 ∧ charAt text pos' ≠ -1
      else found = false := by
  refine Stays.mono (tells_nextIs hroom) fun found pos' h => ?_
  obtain ⟨rfl, hfound⟩ := h
  by_cases hdot : charAt text (pos' + 1) = ch '.'
  · rw [if_pos hdot]
    exact ⟨hfound.mpr hdot, rfl, (charAt_ne_end (by omega)).mpr (by omega)⟩
  · rw [if_neg hdot]
    exact Bool.eq_false_iff.mpr (mt hfound.mp hdot)

section
variable (hscan : fl.Stays) {fuel : Nat} (hfuel : text.length ≤ fuel)
include hscan hfuel

theorem stays_intAt : Stays text (scanIntNumber fl fuel (charAt text pos)) pos
    (Lexes (numberAt fl text isDigit 0 pos)) :=
  stays_numberAt hscan rfl tells_point hfuel

theorem stays_doubleAt : Stays text (scanDoubleNumber fl fuel (charAt text pos)) pos
    (Lexes (numberAt fl text isDigit 1 pos)) := by
  refine stays_numberAt hscan rfl (fun hroom => .seekRel hroom (.pure ?_)) hfuel
  by_cases hdot : charAt text (pos + 1) = ch '.'
  · rw [if_pos hdot]
    exact ⟨beq_iff_eq.mpr hdot, rfl, by rw [hdot]; decide⟩
  · rw [if_neg hdot]
    exact beq_eq_false_iff_ne.mpr hdot

theorem stays_floatAt : Stays text (scanFloatNumber fl fuel (charAt text pos)) pos
    (Lexes (numberAt fl text isZero 0 pos)) :=
  stays_numberAt hscan rfl tells_point hfuel

end

/-! ## `nk_fscan_keyval` and `skip_value` -/

/-- The types of numbers. -/
inductive NumType where
  | integer (what : IntType)
  | double
  | float
  deriving DecidableEq

/-- The type with its size and its check. -/
def NumType.ty : NumType → Nat → Check → Ty
  | .integer what, size, check => .tInteger what size check
  | .double, size, check => .tDouble size check
  | .float, size, check => .tFloat size check

/-- Where a number ends for the type, and what it is. -/
def NumType.numberAt (fl : Floats) (t : NumType) (text : List UInt8) (pos : Nat) :
    Option (Nat × Number fl) :=
  match t with
  | .integer _ => Dbase.numberAt fl text isDigit 0 pos
  | .double => Dbase.numberAt fl text isDigit 1 pos
  | .float => Dbase.numberAt fl text isZero 0 pos

/-- What is stored for a number. -/
def NumType.save (fl : Floats) (t : NumType) (num : Number fl) (mem : Memory) (location : Nat) :
    Memory :=
  match t with
  | .integer what => what.save num.toInt mem location
  | .double => mem.store location (fl.putDouble num.toDouble)
  | .float => mem.store location (fl.putFloat num.toDouble)

/-- What is saved of a number. -/
theorem stays_saveLexed {scan : FileProg (Bool × Option (Number fl))}
    {number : Option (Nat × Number fl)} (hscan : Stays text scan pos (Lexes number))
    (save : Number fl → Memory) (mem : Memory) :
    Stays text (saveNumber fl save mem scan) pos
      (Outcome number (fun num r => r = (true, save num)) fun r _ => r.1 = false) := by
  refine .bind hscan fun r pos' hr => ?_
  cases number with
  | none =>
      obtain ⟨sta, num⟩ := r
      cases num with
      | none => exact .pure hr
      | some num => exact .pure hr
  | some number =>
      obtain ⟨rfl, rfl⟩ := hr
      exact .pure ⟨rfl, rfl⟩

section
variable (hscan : fl.Stays) {fuel : Nat} (hfuel : text.length < fuel)
include hscan hfuel

/-- A copy of the lexer in `nk_fscan_keyval`, for a check that accepts what is stored. -/
theorem NumType.stays_keyval (t : NumType) (size : Nat) {check : Check} {location : Nat}
    (hcheck : ∀ mem, check.passes mem location = true) (mem : Memory) :
    Stays text (nkFscanKeyval fl fuel (t.ty size check) location mem) pos
      (Outcome (t.numberAt fl text pos) (fun num r => r = (true, t.save fl num mem location))
        fun r pos' => r.1 = false ∧ pos' = pos) := by
  obtain ⟨fuel, rfl⟩ : ∃ k, fuel = k + 1 := ⟨fuel - 1, by omega⟩
  have hfuel' : text.length ≤ fuel := Nat.le_of_lt_succ hfuel
  have hsave : Stays text (scanValue fl (nkFscanKeyval fl fuel) (skipValue fl fuel) fuel
      (t.ty size check) location (charAt text pos) mem) pos
        (Outcome (t.numberAt fl text pos) (fun num r => r = (true, t.save fl num mem location))
          fun r _ => r.1 = false) := by
    cases t with
    | integer what => exact stays_saveLexed (stays_intAt hscan hfuel') _ mem
    | double => exact stays_saveLexed (stays_doubleAt hscan hfuel') _ mem
    | float => exact stays_saveLexed (stays_floatAt hscan hfuel') _ mem
  have htype : (t.ty size check).check = check := by cases t <;> rfl
  refine Stays.orRewind_outcome ?_ (fun _ _ h => by rw [h]) fun _ h => h
  refine .peek (.bind hsave fun r pos' hr => ?_)
  obtain ⟨sta, mem'⟩ := r
  dsimp only
  rw [htype, hcheck mem', Bool.and_true]
  exact .pure hr

end

/-- A literal that is not there. -/
theorem stays_fscan_ne {fmt : String} {c : UInt8} {items : List Directive}
    (hfmt : parseFmt (ascii fmt).length (ascii fmt) = .lit c :: items) (fuel : Nat)
    (hne : charAt text pos ≠ c.toNat) : Tells text pos (nkFscan fl fuel fmt) False := by
  have hlit : Stays text (scanDirectives fl fuel false
      (parseFmt (ascii fmt).length (ascii fmt)) [] [] (fun _ => 0)) pos fun r _ => r.1 = false := by
    rw [hfmt, scanDirectives]
    refine .peek ?_
    simp only [Bool.false_eq_true, if_false, if_neg hne]
    exact .pure rfl
  refine .bind (Stays.orRewind_cases hlit) fun r pos' h => ?_
  obtain ⟨pos₁, hr, rfl⟩ := h
  rw [hr, if_neg Bool.false_ne_true]
  exact .pure ⟨rfl, by simp [hr]⟩

/-- The characters numbers start with. -/
def StartsNumber (c : Int) : Prop := isDigit c = true ∨ c = ch '-' ∨ c = ch '.'

theorem StartsNumber.ne {c d : Int} (h : StartsNumber c) (hdigit : isDigit d = false)
    (hminus : d ≠ ch '-') (hdot : d ≠ ch '.') : c ≠ d := by
  rintro rfl
  rcases h with h | h | h
  · rw [hdigit] at h
    cases h
  · exact hminus h
  · exact hdot h

/-- The copy in `skip_value`. -/
theorem stays_skipNumber (hscan : fl.Stays) {fuel : Nat} (hfuel : text.length < fuel)
    (hchar : StartsNumber (charAt text pos)) :
    Stays text (skipValue fl fuel) pos
      (Outcome (numberAt fl text isDigit 0 pos) (fun _ r => r = true)
        fun r pos' => r = false ∧ pos' = pos) := by
  obtain ⟨fuel, rfl⟩ : ∃ k, fuel = k + 1 := ⟨fuel - 1, by omega⟩
  have hfuel' : text.length ≤ fuel := Nat.le_of_lt_succ hfuel
  have hbranches : skipBranches fl (skipValue fl fuel) fuel (charAt text pos) =
      scanIntNumber fl fuel (charAt text pos) >>= fun r => pure r.1 := by
    unfold skipBranches
    rw [if_neg (hchar.ne rfl (by decide) (by decide)),
      if_neg (hchar.ne rfl (by decide) (by decide)),
      if_neg (hchar.ne rfl (by decide) (by decide)), if_neg (hchar.ne rfl (by decide) (by decide))]
  refine Stays.orRewind_outcome ?_ (fun _ _ h => h) fun _ h => h
  refine .bind (stays_fscan_ne rfl fuel (hchar.ne rfl (by decide) (by decide)))
    fun found pos₁ h => ?_
  obtain ⟨rfl, hfound⟩ := h
  rw [if_neg hfound.mp]
  refine .bind (stays_fscan_ne rfl fuel (hchar.ne rfl (by decide) (by decide)))
    fun found pos₂ h => ?_
  obtain ⟨rfl, hfound⟩ := h
  rw [if_neg hfound.mp]
  refine .bind (stays_fscan_ne rfl fuel (hchar.ne rfl (by decide) (by decide)))
    fun found pos₃ h => ?_
  obtain ⟨rfl, hfound⟩ := h
  rw [if_neg hfound.mp]
  refine .peek ?_
  rw [hbranches]
  refine .bind (stays_intAt hscan hfuel') fun r pos₄ hr => .pure ?_
  cases hnumber : numberAt fl text isDigit 0 pos₃ with
  | none =>
      rw [hnumber] at hr
      exact hr
  | some number =>
      rw [hnumber] at hr
      obtain ⟨rfl, rfl⟩ := hr
      exact ⟨rfl, rfl⟩

/-! ## Where the copies differ -/

section
variable (fl) {digit : Int → Bool}

theorem numberAt_point (digit : Int → Bool) (skip : Nat) (hminus : charAt text pos = ch '-')
    (hdot : charAt text (pos + 1) = ch '.') :
    numberAt fl text digit skip pos = realAt fl text true (pos + 1 + skip) := by
  have hzero : ch '.' ≠ ch '0' := by decide
  simp only [numberAt, hminus, hdot, hzero, true_and, false_and, and_false, if_false, if_true]
  rfl

theorem numberAt_skip (digit : Int → Bool)
    (hnot : ¬ (charAt text pos = ch '-' ∧ charAt text (pos + 1) = ch '.')) :
    numberAt fl text digit 1 pos = numberAt fl text digit 0 pos := by
  simp only [numberAt, if_neg hnot]

theorem numberAt_minus (digit : Int → Bool) (skip : Nat) (hminus : charAt text pos = ch '-')
    (hdigit : isDigit (charAt text (pos + 1)) = true)
    (hx : ¬ (charAt text (pos + 1) = ch '0' ∧ charAt text (pos + 2) = ch 'x')) :
    numberAt fl text digit skip pos = decAt fl text digit true (pos + 1) := by
  simp only [numberAt, hminus, hx, hdigit, true_and, and_false, if_false, if_true]
  rfl

theorem numberAt_hex (digit : Int → Bool) (skip : Nat) (hminus : charAt text pos = ch '-')
    (hx : charAt text (pos + 1) = ch '0' ∧ charAt text (pos + 2) = ch 'x') :
    numberAt fl text digit skip pos = hexAt fl text true (pos + 3) := by
  simp only [numberAt, hminus, hx, true_and, and_self, if_true]
  rfl

/-- What is a digit matters only behind a minus sign that one follows. -/
theorem numberAt_digit (digit digit' : Int → Bool) (skip : Nat)
    (hnot : ¬ (charAt text pos = ch '-' ∧ isDigit (charAt text (pos + 1)) = true)) :
    numberAt fl text digit skip pos = numberAt fl text digit' skip pos := by
  simp only [numberAt, if_neg hnot]

/-- The first character that is not a zero. -/
def behindZeros (text : List UInt8) (pos : Nat) : Nat := pos + (run isZero text pos).length

theorem isDigit_of_isZero {c : Int} (h : isZero c = true) : isDigit c = true := by
  simp only [isZero, Bool.and_eq_true, decide_eq_true_eq] at h
  have hnine : ch '0' ≤ ch '9' := by decide
  simp only [isDigit, Bool.and_eq_true, decide_eq_true_eq]
  omega

theorem not_continues {c : Int} (h : isDigit c = true) : ¬ Continues c := by
  rintro (rfl | rfl | rfl) <;> exact absurd h (by decide)

/-- A minus sign and digits: a copy that takes zeros only gets as far as one that takes all
digits if there are no others, or if the conversion stops there, too. -/
theorem decAt_isZero_iff (pos : Nat) :
    (decAt fl text isZero true pos).map Prod.fst = (decAt fl text isDigit true pos).map Prod.fst ↔
      (isDigit (charAt text (behindZeros text pos)) = true →
        Continues (charAt text (pos + (run isDigit text pos).length)) ∧
        (fl.convert text pos).map Prod.fst = some (behindZeros text pos)) := by
  have hall : run isDigit text pos = run isZero text pos ++
      run isDigit text (behindZeros text pos) :=
    run_append (fun _ => isDigit_of_isZero) rfl pos
  cases hdigit : isDigit (charAt text (behindZeros text pos)) with
  | false =>
      rw [run_eq_nil hdigit, List.append_nil] at hall
      simp only [decAt, hall]
      simp
  | true =>
      obtain ⟨c, -, hmore⟩ := run_eq_cons rfl hdigit
      have hlength : (run isZero text pos).length < (run isDigit text pos).length := by
        rw [hall, hmore, List.length_append, List.length_cons]
        omega
      have hfloat : decAt fl text isZero true pos = some (behindZeros text pos,
          .int true (u64 (digitsValue 10 decDigit (run isZero text pos)))) :=
        if_neg (not_continues hdigit)
      rw [hfloat, decAt, Option.map_some]
      by_cases hcontinues : Continues (charAt text (pos + (run isDigit text pos).length))
      · have hreal : (realAt fl text true pos).map Prod.fst =
            (fl.convert text pos).map Prod.fst := by
          rw [realAt, Option.map_map]
          rfl
        rw [if_pos hcontinues, hreal]
        exact ⟨fun h _ => ⟨hcontinues, h.symm⟩, fun h => (h rfl).2.symm⟩
      · rw [if_neg hcontinues, Option.map_some]
        constructor
        · intro heq
          have hpos := Option.some.inj heq
          rw [behindZeros] at hpos
          omega
        · exact fun h => absurd (h rfl).1 hcontinues

/-- Text at which the copies agree: behind a minus sign and zeros there is no other digit,
and behind a minus sign and a point the conversion ends where it ends in front of it.  The
conversion is free to stop inside of the digits it is given. -/
def ReadersAlike (text : List UInt8) (pos : Nat) : Prop :=
  charAt text pos = ch '-' →
    (isDigit (charAt text (behindZeros text (pos + 1))) = true →
      Continues (charAt text (pos + 1 + (run isDigit text (pos + 1)).length)) ∧
      (fl.convert text (pos + 1)).map Prod.fst = some (behindZeros text (pos + 1))) ∧
    (charAt text (pos + 1) = ch '.' →
      (fl.convert text (pos + 1)).map Prod.fst = (fl.convert text (pos + 2)).map Prod.fst)

/-- The zero of `0x` is the only one. -/
theorem isDigit_behindZeros_hex (hx : charAt text pos = ch '0' ∧ charAt text (pos + 1) = ch 'x') :
    isDigit (charAt text (behindZeros text pos)) = false := by
  have hzero : isZero (charAt text pos) = true := by
    rw [hx.1]
    decide
  have hfirst : ∃ c : UInt8, charAt text pos = c.toNat ∧
      run isZero text pos = c :: run isZero text (pos + 1) := run_eq_cons rfl hzero
  obtain ⟨c, -, hrun⟩ := hfirst
  have hend : run isZero text (pos + 1) = [] := run_eq_nil (by rw [hx.2]; decide)
  have hbehind : behindZeros text pos = pos + 1 := by
    rw [behindZeros, hrun, hend]
    rfl
  rw [hbehind, hx.2]
  decide

/-- The copy for a `float` behind a minus sign. -/
theorem numberAt_float_iff (hminus : charAt text pos = ch '-') :
    (numberAt fl text isZero 0 pos).map Prod.fst =
        (numberAt fl text isDigit 0 pos).map Prod.fst ↔
      (isDigit (charAt text (behindZeros text (pos + 1))) = true →
        Continues (charAt text (pos + 1 + (run isDigit text (pos + 1)).length)) ∧
        (fl.convert text (pos + 1)).map Prod.fst = some (behindZeros text (pos + 1))) := by
  by_cases hdigit : isDigit (charAt text (pos + 1)) = true
  · by_cases hx : charAt text (pos + 1) = ch '0' ∧ charAt text (pos + 2) = ch 'x'
    · rw [numberAt_hex fl isZero 0 hminus hx, numberAt_hex fl isDigit 0 hminus hx,
        isDigit_behindZeros_hex hx]
      exact iff_of_true rfl fun h => absurd h Bool.false_ne_true
    · rw [numberAt_minus fl isZero 0 hminus hdigit hx, numberAt_minus fl isDigit 0 hminus hdigit hx]
      exact decAt_isZero_iff fl (pos + 1)
  · have hzero : isZero (charAt text (pos + 1)) = false :=
      Bool.eq_false_iff.mpr fun h => hdigit (isDigit_of_isZero h)
    have hbehind : behindZeros text (pos + 1) = pos + 1 := by
      rw [behindZeros, run_eq_nil hzero]
      rfl
    rw [numberAt_digit fl isZero isDigit 0 fun h => hdigit h.2, hbehind]
    exact iff_of_true rfl fun h => absurd h hdigit

/-- The copy for a `double` behind a minus sign. -/
theorem numberAt_double_iff (hminus : charAt text pos = ch '-') :
    (numberAt fl text isDigit 1 pos).map Prod.fst =
        (numberAt fl text isDigit 0 pos).map Prod.fst ↔
      (charAt text (pos + 1) = ch '.' →
        (fl.convert text (pos + 1)).map Prod.fst = (fl.convert text (pos + 2)).map Prod.fst) := by
  by_cases hdot : charAt text (pos + 1) = ch '.'
  · have hreal : ∀ p, (realAt fl text true p).map Prod.fst = (fl.convert text p).map Prod.fst := by
      intro p
      rw [realAt, Option.map_map]
      rfl
    rw [numberAt_point fl isDigit 1 hminus hdot, numberAt_point fl isDigit 0 hminus hdot, hreal,
      hreal]
    exact ⟨fun h _ => h.symm, fun h => (h hdot).symm⟩
  · rw [numberAt_skip fl isDigit fun h => hdot h.2]
    exact iff_of_true rfl fun h => absurd h hdot

/-- The copies get equally far. -/
theorem numberAt_iff (text : List UInt8) (pos : Nat) :
    (∀ t : NumType, (t.numberAt fl text pos).map Prod.fst =
      (numberAt fl text isDigit 0 pos).map Prod.fst) ↔ ReadersAlike fl text pos := by
  unfold ReadersAlike
  constructor
  · intro h hminus
    exact ⟨(numberAt_float_iff fl hminus).mp (h .float),
      (numberAt_double_iff fl hminus).mp (h .double)⟩
  · intro h t
    by_cases hminus : charAt text pos = ch '-'
    · obtain ⟨hfloat, hdouble⟩ := h hminus
      cases t with
      | integer what => rfl
      | double => exact (numberAt_double_iff fl hminus).mpr hdouble
      | float => exact (numberAt_float_iff fl hminus).mpr hfloat
    · cases t with
      | integer what => rfl
      | double => exact congrArg _ (numberAt_skip fl isDigit fun h => hminus h.1)
      | float => exact congrArg _ (numberAt_digit fl isZero isDigit 0 fun h => hminus h.1)

end

/-! ## Literals without fraction and exponent -/

/-- The number of a literal without sign, fraction and exponent. -/
def plainMagnitude (text : List UInt8) (start : Nat) : Option Nat :=
  if charAt text start = ch '0' ∧ charAt text (start + 1) = ch 'x' then
    let digits := digitsAt hexVal text (start + 2) (-1)
    if digits = [] then none else some (digitsValue 16 (digitVal hexVal) digits)
  else
    let digits := run isDigit text start
    if digits = [] ∨ Continues (charAt text (start + digits.length)) then none
    else some (digitsValue 10 decDigit digits)

/-- The integer of a literal without fraction and exponent, its digits modulo `2 ^ 64`. -/
def plainInteger (text : List UInt8) (pos : Nat) : Option Int :=
  if charAt text pos = ch '-' then
    (plainMagnitude text (pos + 1)).map fun n => -signed 64 (u64 n)
  else (plainMagnitude text pos).map fun n => (u64 n : Int)

/-- What is stored for an integer. -/
def NumType.saveInt (fl : Floats) (t : NumType) (n : Int) (mem : Memory) (location : Nat) :
    Memory :=
  match t with
  | .integer what => what.save n mem location
  | .double => mem.store location (fl.putDouble (fl.ofInt n))
  | .float => mem.store location (fl.putFloat (fl.ofInt n))

/-- The integer that digits and a sign make. -/
def signedVal (neg : Bool) (val : Nat) : Int := if neg then -signed 64 val else val

theorem NumType.save_int (fl : Floats) (t : NumType) (neg : Bool) (val : Nat) (mem : Memory)
    (location : Nat) :
    t.save fl (.int neg val) mem location = t.saveInt fl (signedVal neg val) mem location := by
  cases t <;> rfl

theorem hexAt_plain (fl : Floats) (neg : Bool) {start m : Nat}
    (hm : plainMagnitude text start = some m)
    (hx : charAt text start = ch '0' ∧ charAt text (start + 1) = ch 'x') :
    ∃ stop, hexAt fl text neg (start + 2) = some (stop, .int neg (u64 m)) := by
  rw [plainMagnitude, if_pos hx] at hm
  dsimp only at hm
  split at hm
  · cases hm
  · rename_i hdigits
    rw [hexAt, if_neg hdigits, ← Option.some.inj hm]
    exact ⟨_, rfl⟩

theorem decAt_plain (fl : Floats) {digit : Int → Bool} (neg : Bool) {start m : Nat}
    (hm : plainMagnitude text start = some m)
    (hx : ¬ (charAt text start = ch '0' ∧ charAt text (start + 1) = ch 'x'))
    (hdigits : run digit text start = run isDigit text start) :
    isDigit (charAt text start) = true ∧
      ∃ stop, decAt fl text digit neg start = some (stop, .int neg (u64 m)) := by
  rw [plainMagnitude, if_neg hx] at hm
  dsimp only at hm
  split at hm
  · cases hm
  · rename_i hplain
    rw [not_or] at hplain
    refine ⟨?_, ?_⟩
    · by_contra hdigit
      exact hplain.1 (run_eq_nil (Bool.eq_false_iff.mpr hdigit))
    · rw [decAt, hdigits, if_neg hplain.2, ← Option.some.inj hm]
      exact ⟨_, rfl⟩

/-- Such a literal is read as an integer. -/
theorem numberAt_plain (fl : Floats) {digit : Int → Bool} (skip : Nat) {n : Int}
    (hplain : plainInteger text pos = some n)
    (hdigits : charAt text pos = ch '-' → run digit text (pos + 1) = run isDigit text (pos + 1)) :
    ∃ stop neg val, numberAt fl text digit skip pos = some (stop, .int neg val) ∧
      signedVal neg val = n := by
  unfold plainInteger at hplain
  by_cases hminus : charAt text pos = ch '-'
  · rw [if_pos hminus] at hplain
    obtain ⟨m, hm, hn⟩ := Option.map_eq_some_iff.mp hplain
    replace hn : signedVal true (u64 m) = n := by rw [← hn, signedVal, if_pos rfl]
    by_cases hx : charAt text (pos + 1) = ch '0' ∧ charAt text (pos + 2) = ch 'x'
    · obtain ⟨stop, hstop⟩ := hexAt_plain fl true hm hx
      exact ⟨stop, true, u64 m, (numberAt_hex fl digit skip hminus hx).trans hstop, hn⟩
    · obtain ⟨hdigit, stop, hstop⟩ := decAt_plain fl true hm hx (hdigits hminus)
      exact ⟨stop, true, u64 m, (numberAt_minus fl digit skip hminus hdigit hx).trans hstop, hn⟩
  · rw [if_neg hminus] at hplain
    obtain ⟨m, hm, hn⟩ := Option.map_eq_some_iff.mp hplain
    replace hn : signedVal false (u64 m) = n := by
      rw [← hn, signedVal, if_neg Bool.false_ne_true]
    by_cases hx : charAt text pos = ch '0' ∧ charAt text (pos + 1) = ch 'x'
    · obtain ⟨stop, hstop⟩ := hexAt_plain fl false hm hx
      refine ⟨stop, false, u64 m, ?_, hn⟩
      rw [numberAt, if_pos hx, hstop]
    · obtain ⟨hdigit, stop, hstop⟩ := decAt_plain fl false hm hx rfl
      refine ⟨stop, false, u64 m, ?_, hn⟩
      rw [numberAt, if_neg hx, if_neg fun h => hminus h.1, if_pos hdigit, hstop]

/-- Where the copies agree, each reads the integer of such a literal. -/
theorem NumType.numberAt_plain (halike : ReadersAlike fl text pos) {n : Int}
    (hplain : plainInteger text pos = some n) (t : NumType) :
    ∃ stop neg val, t.numberAt fl text pos = some (stop, .int neg val) ∧ signedVal neg val = n := by
  cases t with
  | integer what => exact Dbase.numberAt_plain fl 0 hplain fun _ => rfl
  | double => exact Dbase.numberAt_plain fl 1 hplain fun _ => rfl
  | float =>
      refine Dbase.numberAt_plain fl 0 hplain fun hminus => ?_
      have hall : run isDigit text (pos + 1) =
          run isZero text (pos + 1) ++ run isDigit text (behindZeros text (pos + 1)) :=
        run_append (fun _ => isDigit_of_isZero) rfl (pos + 1)
      cases hdigit : isDigit (charAt text (behindZeros text (pos + 1))) with
      | false => rw [hall, run_eq_nil hdigit, List.append_nil]
      | true =>
          have hcontinues := ((halike hminus).1 hdigit).1
          rw [plainInteger, if_pos hminus] at hplain
          obtain ⟨m, hm, -⟩ := Option.map_eq_some_iff.mp hplain
          by_cases hx : charAt text (pos + 1) = ch '0' ∧ charAt text (pos + 1 + 1) = ch 'x'
          · rw [isDigit_behindZeros_hex hx] at hdigit
            cases hdigit
          · rw [plainMagnitude, if_neg hx, if_pos (Or.inr hcontinues)] at hm
            cases hm

/-! ## All readers on an input file -/

/-- All readers of numbers get equally far in the file, or all fail, whatever the size is and
with every check that accepts what is stored; and a literal without fraction and exponent is
the same integer for all types. -/
structure SameReaders {w : Nat} (fl : Floats) (fuel : Nat) (text : List UInt8) (pos : Nat)
    (mem : Memory) (location : Nat) (f : Nkinfile w) : Prop where
  extent : ∀ (t : NumType) (size : Nat) (check : Check),
    (∀ mem, check.passes mem location = true) →
    reach Prod.fst (nkFscanKeyval fl fuel (t.ty size check) location mem) f =
      reach id (skipValue fl fuel) f
  stores : ∀ n, plainInteger text pos = some n → ∀ (t : NumType) (size : Nat) (check : Check),
    (∀ mem, check.passes mem location = true) →
    ∃ f', (nkFscanKeyval fl fuel (t.ty size check) location mem).run (nkinfile w) f =
      some ((true, t.saveInt fl n mem location), f')

/-- For every text and every position at which a number can start, the readers agree exactly
if no digit follows a minus sign and zeros and no point follows a minus sign, the conversion
apart. -/
theorem sameReaders_iff {w : Nat} {fl : Floats} (hscan : fl.Stays) {text : List UInt8} {pos : Nat}
    {f : Nkinfile w} (agrees : Agrees f ⟨text, pos⟩) (hchar : StartsNumber (charAt text pos))
    {fuel : Nat} (hfuel : text.length < fuel) (mem : Memory) (location : Nat) :
    SameReaders fl fuel text pos mem location f ↔ ReadersAlike fl text pos := by
  have hskip : reach id (skipValue fl fuel) f = (numberAt fl text isDigit 0 pos).map Prod.fst :=
    reach_eq (stays_skipNumber hscan hfuel hchar) (fun _ _ h => h) (fun _ _ h => h.1) agrees
  have hkeyval : ∀ (t : NumType) (size : Nat) (check : Check),
      (∀ mem, check.passes mem location = true) →
      reach Prod.fst (nkFscanKeyval fl fuel (t.ty size check) location mem) f =
        (t.numberAt fl text pos).map Prod.fst := fun t size check hcheck =>
    reach_eq (t.stays_keyval hscan hfuel size hcheck mem) (fun _ _ h => by rw [h])
      (fun _ _ h => h.1) agrees
  constructor
  · intro same
    refine (numberAt_iff fl text pos).mp fun t => ?_
    rw [← hkeyval t 0 none fun _ => rfl, ← hskip]
    exact same.extent t 0 none fun _ => rfl
  · intro halike
    refine ⟨fun t size check hcheck => ?_, fun n hplain t size check hcheck => ?_⟩
    · rw [hkeyval t size check hcheck, hskip]
      exact (numberAt_iff fl text pos).mpr halike t
    · obtain ⟨stop, neg, val, hnumber, hn⟩ := t.numberAt_plain halike hplain
      obtain ⟨r, f', pos', hrun, -, hr⟩ :=
        (t.stays_keyval hscan hfuel size hcheck mem).run agrees
      rw [hnumber] at hr
      obtain ⟨hr, -⟩ := hr
      refine ⟨f', ?_⟩
      rw [hrun, hr, t.save_int, hn]

/-- `125` and `-0.25` are the same numbers for all of them. -/
theorem sameReaders_quarter :
    SameReaders Floats.absent 4 [49, 50, 53] 0 (fun _ => 0) 0
        (nkinfileOpenMem 32 [49, 50, 53] 3) ∧
      SameReaders Floats.absent 6 [45, 48, 46, 50, 53] 0 (fun _ => 0) 0
        (nkinfileOpenMem 32 [45, 48, 46, 50, 53] 5) := by
  constructor
  · refine (sameReaders_iff (fun _ _ => .pure trivial)
      (nkinfileOpenMem_agrees [49, 50, 53] [] (by decide)) (Or.inl rfl) (by decide) _ 0).mpr ?_
    exact fun h => absurd h (by decide)
  · refine (sameReaders_iff (fun _ _ => .pure trivial)
      (nkinfileOpenMem_agrees [45, 48, 46, 50, 53] [] (by decide)) (Or.inr (Or.inl rfl))
      (by decide) _ 0).mpr ?_
    exact fun _ => ⟨fun h => absurd h (by decide), fun h => absurd h (by decide)⟩

/-- `-12` is not: the copy for a `float` stops behind the minus sign. -/
theorem not_sameReaders_negative :
    ¬ SameReaders Floats.absent 4 [45, 49, 50] 0 (fun _ => 0) 0
      (nkinfileOpenMem 32 [45, 49, 50] 3) := by
  intro same
  have hextent := same.extent .float 4 none fun _ => rfl
  revert hextent
  decide

end LibnklabsPico.Dbase
