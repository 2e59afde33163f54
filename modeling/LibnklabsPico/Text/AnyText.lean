/-
  Text/AnyText.lean --- the scanner on text that may be anything.

  Every function of `libnklabs/src/nkscan.c` keeps to what the file allows: it moves
  past a character only when it has seen that there is one.  The same is shown for
  `fstrtod` (`stays_fstrtod`).
-/
import LibnklabsPico.File.Stays
import LibnklabsPico.Text.Nkscan
import LibnklabsPico.Text.Nkstrtod

set_option autoImplicit false

namespace LibnklabsPico.Text

open LibnklabsPico.Foundation
open LibnklabsPico.File
open LibnklabsPico.File.FileProg

variable {text : List UInt8} {pos : Nat}

/-! ## Whitespace and escapes -/

theorem stays_wsLoop (fuel pos : Nat) :
    Stays text (wsLoop fuel (charAt text pos)) pos fun _ pos' => pos ≤ pos' := by
  induction fuel generalizing pos with
  | zero => exact .pure (Nat.le_refl _)
  | succ fuel ih =>
      rw [wsLoop]
      by_cases hspace : nkIsspace (charAt text pos) = true
      · rw [if_pos hspace]
        exact .nextFast (ne_end_of_test rfl hspace) ((ih (pos + 1)).mono fun _ _ h => by omega)
      · rw [if_neg hspace]
        exact .pure (Nat.le_refl _)

theorem stays_ws (fuel : Nat) : Stays text (nkFscanWs fuel) pos fun _ pos' => pos ≤ pos' :=
  .peek (stays_wsLoop fuel pos)

theorem hexVal_ne_end {c n : Int} (h : hexVal c = some n) : c ≠ -1 := by
  rintro rfl
  cases h

theorem stays_hexEscape : Stays text (hexEscape (charAt text pos)) pos fun _ _ => True := by
  unfold hexEscape
  split
  · rename_i high hhigh
    refine .nextFast (hexVal_ne_end hhigh) ?_
    split
    · rename_i low hlow
      exact .nextFast (hexVal_ne_end hlow) (.pure trivial)
    · exact .pure trivial
  · exact .pure trivial

theorem stays_escapeCode (c : Int) :
    Stays text (escapeCode c (charAt text pos)) pos fun _ _ => True := by
  have hchar : ∀ d : Int, Stays text (pure d) pos fun _ _ => True := fun _ => .pure trivial
  unfold escapeCode
  repeat' split
  all_goals first
    | exact hchar _
    | exact stays_hexEscape

/-- A string escape sequence. -/
theorem stays_escape : Stays text nkFscanEscape pos fun _ _ => True := by
  refine .peek ?_
  by_cases hslash : charAt text pos = ch '\\'
  · rw [if_pos hslash]
    refine .nextFast (by rw [hslash]; decide) ?_
    unfold nextUnlessEnd
    by_cases hend : charAt text (pos + 1) ≠ -1
    · rw [if_pos hend]
      exact .nextFast hend (stays_escapeCode _)
    · rw [if_neg hend, not_not.mp hend]
      exact .pure trivial
  · rw [if_neg hslash]
    unfold nextUnlessEnd
    by_cases hend : charAt text pos ≠ -1
    · rw [if_pos hend]
      exact .nextFast hend (.pure trivial)
    · rw [if_neg hend]
      exact .pure trivial

/-! ## Words and identifiers -/

/-- The loop ends in front of the character it gives, unless it gives up. -/
theorem stays_quotedLoop (fuel pos bufSize : Nat) (buf : List UInt8) :
    Stays text (quotedLoop fuel (charAt text pos) bufSize buf) pos
      fun r pos' => r.1 = ch '"' → charAt text pos' ≠ -1 := by
  have hquote : charAt text pos = ch '"' → charAt text pos ≠ -1 := by
    intro h
    rw [h]
    decide
  induction fuel generalizing pos bufSize buf with
  | zero => exact .pure hquote
  | succ fuel ih =>
      rw [quotedLoop]
      by_cases hmore : charAt text pos ≠ -1 ∧ charAt text pos ≠ ch '"'
      · rw [if_pos hmore]
        refine .bind stays_escape fun c pos' _ => ?_
        by_cases hend : c = -1
        · rw [if_pos hend, hend]
          exact .pure fun h => absurd (show (-1 : Int) = ch '"' from h) (by decide)
        · rw [if_neg hend]
          refine .peek (ih pos' _ _ fun h => ?_)
          rw [h]
          decide
      · rw [if_neg hmore]
        exact .pure hquote

theorem stays_tokenLoop {charOk : Int → Bool} (hend : charOk (-1) = false) (quashCase : Bool)
    (fuel pos : Nat) (width : Int) (bufSize : Nat) (buf : List UInt8) (status : Bool) :
    Stays text (tokenLoop quashCase charOk fuel (charAt text pos) width bufSize buf status) pos
      fun _ _ => True := by
  induction fuel generalizing pos width bufSize buf status with
  | zero => exact .pure trivial
  | succ fuel ih =>
      rw [tokenLoop]
      by_cases hmore : width ≠ 0 ∧ charOk (charAt text pos) = true
      · rw [if_pos hmore]
        exact .nextFast (ne_end_of_test hend hmore.2) (ih (pos + 1) _ _ _ _)
      · rw [if_neg hmore]
        exact .pure trivial

theorem stays_scanToken {startOk charOk : Int → Bool} (hend : charOk (-1) = false) (fuel : Nat)
    (quashCase : Bool) (width : Int) (bufSize : Nat) :
    Stays text (scanToken startOk charOk fuel quashCase width bufSize) pos fun _ _ => True := by
  refine Stays.mono (.orRewind_any (.peek ?_)) fun _ _ _ => trivial
  by_cases hquote : charAt text pos = ch '"'
  · rw [if_pos hquote]
    refine .nextFast (by rw [hquote]; decide) ?_
    refine .bind (stays_quotedLoop fuel (pos + 1) bufSize []) fun r pos' hr => ?_
    obtain ⟨c, buf⟩ := r
    by_cases hclose : c = ch '"'
    · simp only [if_pos hclose]
      exact .nextFast (hr hclose) (.pure trivial)
    · simp only [if_neg hclose]
      exact .pure trivial
  · rw [if_neg hquote]
    split
    · exact stays_tokenLoop hend quashCase fuel pos width bufSize [] false
    · exact .pure trivial

theorem stays_word (fuel : Nat) (quashCase : Bool) (width : Int) (bufSize : Nat) :
    Stays text (nkFscanWord fuel quashCase width bufSize) pos fun _ _ => True :=
  have hend : (fun c : Int => c != -1 && !nkIsspace c) (-1) = false := rfl
  stays_scanToken hend fuel quashCase width bufSize

theorem stays_ident (fuel : Nat) (quashCase : Bool) (width : Int) (bufSize : Nat) :
    Stays text (nkFscanIdent fuel quashCase width bufSize) pos fun _ _ => True :=
  have hend : isIdentChar (-1) = false := by decide
  stays_scanToken hend fuel quashCase width bufSize

/-! ## Numbers -/

theorem stays_digitLoop {digit : Int → Option Int} (hend : digit (-1) = none) (base fuel pos : Nat)
    (width : Int) (v : Nat) (status : Bool) :
    Stays text (digitLoop base digit fuel (charAt text pos) width v status) pos
      fun _ _ => True := by
  induction fuel generalizing pos width v status with
  | zero => exact .pure trivial
  | succ fuel ih =>
      rw [digitLoop]
      split
      · rename_i d hdigit
        have hchar : charAt text pos ≠ -1 := by
          intro h
          rw [h, hend] at hdigit
          cases hdigit
        split
        · exact .nextFast hchar (ih (pos + 1) _ _ _)
        · exact .pure trivial
      · exact .pure trivial

theorem stays_hex (fuel : Nat) (width : Int) :
    Stays text (nkFscanHex fuel width) pos fun _ _ => True :=
  Stays.mono (.orRewind_any (.peek (.bind (stays_digitLoop rfl 16 fuel pos width 0 false)
    fun _ _ _ => .pure trivial))) fun _ _ _ => trivial

theorem stays_dec (fuel : Nat) (width : Int) :
    Stays text (nkFscanDec fuel width) pos fun _ _ => True := by
  refine Stays.mono (.orRewind_any (.peek ?_)) fun _ _ _ => trivial
  by_cases hminus : charAt text pos = ch '-'
  · rw [if_pos hminus]
    refine .nextFast (by rw [hminus]; decide) ?_
    exact .bind (stays_digitLoop rfl 10 fuel (pos + 1) width 0 false) fun _ _ _ => .pure trivial
  · rw [if_neg hminus]
    exact .bind (stays_digitLoop rfl 10 fuel pos width 0 false) fun _ _ _ => .pure trivial

/-! ## Floating point numbers -/

theorem stays_letters {word : List Int} (hword : nkTolower (-1) ∉ word) :
    Stays text (letters word) pos fun found pos' => found = true → pos + word.length ≤ pos' := by
  induction word generalizing pos with
  | nil => exact .pure fun _ => Nat.le_refl _
  | cons l word ih =>
      rw [List.mem_cons, not_or] at hword
      rw [letters]
      refine .peek ?_
      by_cases hletter : nkTolower (charAt text pos) = l
      · rw [if_pos hletter]
        refine .nextFast (fun hend => hword.1 ?_) ((ih hword.2).mono fun _ _ h hfound => ?_)
        · rw [← hletter, hend]
        · have hle := h hfound
          rw [List.length_cons]
          omega
      · rw [if_neg hletter]
        exact .pure fun h => by cases h

/-- A digit is read before there is a subject. -/
theorem stays_mantissa (fuel pos : Nat) (dot subject : Bool) (parts : Decimal) :
    Stays text (mantissa fuel dot subject parts) pos fun r pos' =>
      pos ≤ pos' ∧ (r.1 = true → subject = true ∨ pos < pos') := by
  induction fuel generalizing pos dot subject parts with
  | zero => exact .pure ⟨Nat.le_refl _, Or.inl⟩
  | succ fuel ih =>
      rw [mantissa]
      refine .peek ?_
      by_cases hdigit : isDigit (charAt text pos) = true
      · rw [if_pos hdigit]
        exact .nextFast (ne_end_of_test rfl hdigit) ((ih (pos + 1) _ _ _).mono
          fun _ pos' h => ⟨by omega, fun _ => Or.inr (by omega)⟩)
      · rw [if_neg hdigit]
        by_cases hpoint : charAt text pos = ch '.' ∧ dot = false
        · rw [if_pos hpoint]
          exact .nextFast (by rw [hpoint.1]; decide) ((ih (pos + 1) _ _ _).mono
            fun _ pos' h => ⟨by omega, fun _ => Or.inr (by omega)⟩)
        · rw [if_neg hpoint]
          exact .pure ⟨Nat.le_refl _, Or.inl⟩

theorem stays_exponent (fuel pos : Nat) (subject : Bool) (e : Int) :
    Stays text (exponent fuel subject e) pos fun _ pos' => pos ≤ pos' := by
  induction fuel generalizing pos subject e with
  | zero => exact .pure (Nat.le_refl _)
  | succ fuel ih =>
      rw [exponent]
      refine .peek ?_
      by_cases hdigit : isDigit (charAt text pos) = true
      · rw [if_pos hdigit]
        exact .nextFast (ne_end_of_test rfl hdigit) ((ih (pos + 1) _ _).mono fun _ _ h => by omega)
      · rw [if_neg hdigit]
        exact .pure (Nat.le_refl _)

theorem stays_optionalSign : Stays text optionalSign pos fun _ pos' => pos ≤ pos' := by
  refine .peek ?_
  by_cases hsign : charAt text pos = ch '-' ∨ charAt text pos = ch '+'
  · rw [if_pos hsign]
    refine .nextFast (fun hend => ?_) (.pure (Nat.le_succ _))
    rw [hend] at hsign
    revert hsign
    decide
  · rw [if_neg hsign]
    exact .pure (Nat.le_refl _)

/-- A word or a digit is read before there is a number. -/
theorem stays_fstrtod (fuel : Nat) :
    Stays text (fstrtod fuel) pos fun number pos' => number.isSome = true → pos < pos' := by
  refine .bind (stays_ws fuel) fun _ pos₁ h₁ => ?_
  refine .bind stays_optionalSign fun sign pos₂ h₂ => .peek ?_
  have hword {word : List Int} (hlength : word.length = 3) (hletters : nkTolower (-1) ∉ word)
      (magnitude : Magnitude) :
      Stays text
        (letters word >>= fun found => pure (if found then some (sign, magnitude) else none))
        pos₂ fun number pos' => number.isSome = true → pos < pos' := by
    refine .bind (stays_letters hletters) fun found pos₃ h₃ => .pure fun hsome => ?_
    cases found with
    | true =>
        have hle := h₃ rfl
        omega
    | false => cases hsome
  split
  · exact hword rfl (by decide) _
  · split
    · exact hword rfl (by decide) _
    · refine .bind (stays_mantissa fuel pos₂ false false _) fun r pos₃ h₃ => ?_
      obtain ⟨subject, parts⟩ := r
      cases subject with
      | false => exact .pure fun h => by cases h
      | true =>
          have hlt : pos₂ < pos₃ := (h₃.2 rfl).resolve_left (by decide)
          refine .peek ?_
          by_cases hexp : nkTolower (charAt text pos₃) = ch 'e'
          · rw [if_pos hexp]
            refine .nextFast (fun hend => ?_) ?_
            · rw [hend] at hexp
              cases hexp
            · refine .bind stays_optionalSign fun _ pos₅ h₅ => ?_
              exact .bind (stays_exponent fuel pos₅ false 0) fun _ pos₆ h₆ =>
                .pure fun _ => by omega
          · rw [if_neg hexp]
            exact .pure fun _ => by omega

theorem stays_double {Double : Type} (fuel : Nat) (value : Bool → Magnitude → Double)
    (zero : Double) :
    Stays text (nkFscanDouble fuel value zero) pos fun r pos' => r.1 = true → pos < pos' := by
  refine .bind (stays_fstrtod fuel) fun number pos' h => ?_
  cases number with
  | none => exact .pure fun h => by cases h
  | some number => exact .pure fun _ => h rfl

/-- `nk_fscan_double` of the library keeps to what the file allows. -/
def Floats.Stays (fl : Floats) : Prop :=
  ∀ text pos, File.Stays text fl.scan pos fun _ _ => True

/-- With `fstrtod` it does. -/
theorem Floats.stays_fstrtod (fl : Floats) (fuel : Nat) (value : Bool → Magnitude → fl.Double)
    (zero : fl.Double) : Floats.Stays { fl with scan := nkFscanDouble fuel value zero } :=
  fun _ _ => (stays_double fuel value zero).mono fun _ _ _ => trivial

/-- `fstrtod` as a partial function: where the number at a position ends, and its value. -/
def Floats.convert (fl : Floats) (text : List UInt8) (pos : Nat) : Option (Nat × fl.Double) :=
  match fl.scan.run plainFile ⟨text, pos⟩ with
  | some ((true, val), c) => some (c.pos, val)
  | _ => none

theorem Floats.Stays.convert {fl : Floats} (hscan : fl.Stays) :
    File.Stays text fl.scan pos fun r pos' =>
      match fl.convert text pos with
      | some (stop, val) => r = (true, val) ∧ pos' = stop
      | none => r.1 = false := by
  intro hpos
  obtain ⟨⟨found, val⟩, stop, hrun, hstop, -⟩ := hscan text pos hpos
  refine ⟨(found, val), stop, hrun, hstop, ?_⟩
  unfold Floats.convert
  rw [hrun]
  cases found with
  | true => exact ⟨rfl, rfl⟩
  | false => rfl

/-! ## Formats -/

section
variable {fl : Floats}

/-- The argument for a value is a parser that keeps to what the file allows. -/
def ScanArg.Stays (text : List UInt8) : ScanArg → Prop
  | .value scan => ∀ mem pos, File.Stays text (scan mem) pos fun _ _ => True
  | _ => True

theorem nkTolower_nonneg {c : Int} (hc : 0 ≤ c) : 0 ≤ nkTolower c := by
  unfold nkTolower
  split
  · have hletters : ch 'A' ≤ ch 'a' := by decide
    omega
  · exact hc

theorem stays_scanDirectives (hscan : fl.Stays) (fuel : Nat) (ignoreCase : Bool)
    (fmt : List Directive) (args : List ScanArg) (hargs : ∀ arg ∈ args, arg.Stays text)
    (out : List (Scanned fl)) (mem : Memory) (pos : Nat) :
    Stays text (scanDirectives fl fuel ignoreCase fmt args out mem) pos fun _ _ => True := by
  fun_induction scanDirectives fl fuel ignoreCase fmt args out mem generalizing pos with
  | case1 args out mem => exact .peek (.pure trivial)
  | case2 fmt args out mem ih => exact .bind (stays_ws fuel) fun _ pos' _ => ih hargs pos'
  | case3 c fmt args out mem ih =>
      refine .peek ?_
      by_cases hsame : if ignoreCase = true then nkTolower (charAt text pos) = nkTolower c.toNat
          else charAt text pos = c.toNat
      · rw [if_pos hsame]
        refine .nextFast (fun hend => ?_) (ih hargs (pos + 1))
        rw [hend] at hsame
        have hlow : nkTolower (-1) = -1 := rfl
        have hchar : (0 : Int) ≤ nkTolower c.toNat := nkTolower_nonneg (Int.natCast_nonneg _)
        split at hsame <;> omega
      · rw [if_neg hsame]
        exact .pure trivial
  | case4 width size fmt args out mem ih =>
      obtain ⟨-, hargs⟩ := List.forall_mem_cons.mp hargs
      exact .status (stays_dec fuel width) (fun val pos' => ih val hargs pos')
        fun _ _ => .pure trivial
  | case5 width size fmt args out mem ih =>
      obtain ⟨-, hargs⟩ := List.forall_mem_cons.mp hargs
      exact .status (stays_hex fuel width) (fun val pos' => ih val hargs pos')
        fun _ _ => .pure trivial
  | case6 width fmt args out mem ih =>
      obtain ⟨-, hargs⟩ := List.forall_mem_cons.mp hargs
      exact .status (stays_hex fuel width) (fun val pos' => ih val hargs pos')
        fun _ _ => .pure trivial
  | case7 fmt scan args out mem ih =>
      obtain ⟨harg, hargs⟩ := List.forall_mem_cons.mp hargs
      exact .status (harg mem pos) (fun mem pos' => ih mem hargs pos') fun _ _ => .pure trivial
  | case8 width fmt size args out mem ih =>
      obtain ⟨-, hargs⟩ := List.forall_mem_cons.mp hargs
      exact .status (stays_word fuel ignoreCase width size) (fun buf pos' => ih buf hargs pos')
        fun _ _ => .pure trivial
  | case9 width fmt size args out mem ih =>
      obtain ⟨-, hargs⟩ := List.forall_mem_cons.mp hargs
      exact .status (stays_ident fuel ignoreCase width size) (fun buf pos' => ih buf hargs pos')
        fun _ _ => .pure trivial
  | case10 fmt args out mem ih =>
      obtain ⟨-, hargs⟩ := List.forall_mem_cons.mp hargs
      exact .status (hscan text pos) (fun val pos' => ih val hargs pos') fun _ _ => .pure trivial
  | case11 => exact .pure trivial
  | case12 => exact .pure trivial

/-- `__nk_vscan` with any format, whose parsers keep to what the file allows. -/
theorem stays_vscan (hscan : fl.Stays) (fuel : Nat) (ignoreCase : Bool) (fmt : String)
    {args : List ScanArg} (hargs : ∀ arg ∈ args, arg.Stays text) (mem : Memory) :
    Stays text (nkVscan fl fuel ignoreCase fmt args mem) pos
      fun r pos' => r.1 = false → pos' = pos :=
  .orRewind_any (stays_scanDirectives hscan fuel ignoreCase _ args hargs [] mem pos)

theorem stays_fscan (hscan : fl.Stays) (fuel : Nat) (fmt : String) :
    Stays text (nkFscan fl fuel fmt) pos fun _ _ => True :=
  .bind (stays_vscan hscan fuel false fmt (fun _ h => by cases h) _) fun _ _ _ => .pure trivial

theorem stays_fscanBuf (hscan : fl.Stays) (fuel : Nat) (fmt : String) (size : Nat) :
    Stays text (nkFscanBuf fl fuel fmt size) pos fun _ _ => True := by
  refine .bind (stays_vscan hscan fuel false fmt (fun arg h => ?_) _) fun r pos' _ => ?_
  · rw [List.mem_singleton.mp h]
    trivial
  · obtain ⟨status, out, mem⟩ := r
    dsimp only
    split <;> exact .pure trivial

end

end LibnklabsPico.Text
