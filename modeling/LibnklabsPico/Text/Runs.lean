/-
  Text/Runs.lean --- the loops of the scanner on text that may be anything.

  Each loop takes the characters that satisfy its test, all of them or as many as the
  field width allows.  What is taken is a list of bytes, and where the loop stops and what
  it returns is said in terms of that list.
-/
import LibnklabsPico.File.Stays
import LibnklabsPico.Text.Nkscan

set_option autoImplicit false

namespace LibnklabsPico.Text

open LibnklabsPico.Foundation
open LibnklabsPico.File
open LibnklabsPico.File.FileProg

variable {text : List UInt8} {pos : Nat} {test : Int → Bool}

/-! ## Runs of characters -/

/-- The characters from a position on that satisfy a test. -/
def run (test : Int → Bool) (text : List UInt8) (pos : Nat) : List UInt8 :=
  (text.drop pos).takeWhile fun c => test c.toNat

/-- As many of them as the field width allows: a negative one means any length. -/
def field (width : Int) (chars : List UInt8) : List UInt8 :=
  if width < 0 then chars else chars.take width.toNat

theorem drop_eq_cons {c : UInt8} {rest : List UInt8} (h : text.drop pos = c :: rest) :
    charAt text pos = c.toNat ∧ text.drop (pos + 1) = rest := by
  have hbyte : text[pos]? = some c := by
    rw [← List.head?_drop, h]
    rfl
  refine ⟨?_, by rw [← List.drop_drop, h]; rfl⟩
  simp only [charAt, Cursor.peek, hbyte]

theorem charAt_of_drop_nil (h : text.drop pos = []) : charAt text pos = -1 :=
  Cursor.peek_of_le (List.drop_eq_nil_iff.mp h)

/-- A run ends where the test fails. -/
theorem run_eq_nil (h : test (charAt text pos) = false) : run test text pos = [] := by
  unfold run
  cases hdrop : text.drop pos with
  | nil => rfl
  | cons c rest =>
      rw [(drop_eq_cons hdrop).1] at h
      rw [List.takeWhile_cons, h, if_neg Bool.false_ne_true]

theorem run_eq_cons (hend : test (-1) = false) (h : test (charAt text pos) = true) :
    ∃ c : UInt8, charAt text pos = c.toNat ∧ run test text pos = c :: run test text (pos + 1) := by
  cases hdrop : text.drop pos with
  | nil =>
      rw [charAt_of_drop_nil hdrop, hend] at h
      cases h
  | cons c rest =>
      obtain ⟨hchar, hrest⟩ := drop_eq_cons hdrop
      rw [hchar] at h
      exact ⟨c, hchar, by rw [run, run, hdrop, List.takeWhile_cons, h, if_pos rfl, hrest]⟩

theorem run_length_le (hpos : pos ≤ text.length) :
    pos + (run test text pos).length ≤ text.length := by
  have hle := (List.takeWhile_prefix (l := text.drop pos) fun c => test c.toNat).length_le
  rw [List.length_drop] at hle
  unfold run
  omega

/-- A run of a weaker test goes on behind a run of a stronger one. -/
theorem run_append {weak : Int → Bool} (hweak : ∀ c, test c = true → weak c = true)
    (hend : weak (-1) = false) (pos : Nat) :
    run weak text pos = run test text pos ++ run weak text (pos + (run test text pos).length) := by
  have hend' : test (-1) = false := by
    by_contra h
    rw [hweak (-1) (Bool.not_eq_false _ ▸ h)] at hend
    cases hend
  generalize hchars : run test text pos = chars
  induction chars generalizing pos with
  | nil => rfl
  | cons c chars ih =>
      cases htest : test (charAt text pos) with
      | false =>
          rw [run_eq_nil htest] at hchars
          cases hchars
      | true =>
          obtain ⟨d, hd, hrun⟩ := run_eq_cons hend' htest
          obtain ⟨d', hd', hrun'⟩ := run_eq_cons hend (hweak _ htest)
          obtain rfl : d = d' := UInt8.toNat_inj.mp (by omega)
          rw [hrun, List.cons.injEq] at hchars
          obtain ⟨rfl, hchars⟩ := hchars
          rw [hrun', ih (pos + 1) hchars, List.cons_append, List.length_cons, Nat.add_assoc,
            Nat.add_comm 1]

/-! ## Fields -/

theorem field_nil (width : Int) : field width [] = [] := by
  unfold field
  split <;> simp

theorem field_zero (chars : List UInt8) : field 0 chars = [] := rfl

/-- One character of a field, and the rest of it. -/
theorem field_cons {width : Int} (hwidth : width ≠ 0) (c : UInt8) (chars : List UInt8) :
    field width (c :: chars) = c :: field (width - 1) chars := by
  unfold field
  by_cases hneg : width < 0
  · rw [if_pos hneg, if_pos (by omega)]
  · obtain ⟨n, hn⟩ : ∃ n, width.toNat = n + 1 := ⟨width.toNat - 1, by omega⟩
    have hrest : (width - 1).toNat = n := by omega
    rw [if_neg hneg, if_neg (by omega), hn, hrest, List.take_succ_cons]

theorem field_length_le (width : Int) (chars : List UInt8) :
    (field width chars).length ≤ chars.length := by
  unfold field
  split
  · exact Nat.le_refl _
  · rw [List.length_take]
    exact Nat.min_le_right _ _

/-! ## Numbers -/

/-- The number that digits stand for, each with the value `val`. -/
def digitsValue (base : Nat) (val : UInt8 → Nat) (digits : List UInt8) : Nat :=
  digits.foldl (fun n c => n * base + val c) 0

/-- Whether a character is a digit. -/
def hasVal (digit : Int → Option Int) (c : Int) : Bool := (digit c).isSome

/-- The value of a byte that is a digit. -/
def digitVal (digit : Int → Option Int) (c : UInt8) : Nat := ((digit c.toNat).getD 0).toNat

/-- Reducing at every digit or once in the end is the same. -/
theorem foldl_u64_digitsValue (base : Nat) (val : UInt8 → Nat) (digits : List UInt8) (num : Nat) :
    digits.foldl (fun n c => u64 (n * base + val c)) (u64 num) =
      u64 (digits.foldl (fun n c => n * base + val c) num) := by
  induction digits generalizing num with
  | nil => rfl
  | cons c digits ih =>
      have hstep : u64 (u64 num * base + val c) = u64 (num * base + val c) := by
        unfold u64
        rw [Nat.add_mod, Nat.mod_mul_mod, ← Nat.add_mod]
      rw [List.foldl_cons, List.foldl_cons, hstep, ih]

/-- The digits at a position, as many as the field width allows. -/
def digitsAt (digit : Int → Option Int) (text : List UInt8) (pos : Nat) (width : Int) :
    List UInt8 :=
  field width (run (hasVal digit) text pos)

theorem digitsAt_length_le (digit : Int → Option Int) (width : Int) (hpos : pos ≤ text.length) :
    pos + (digitsAt digit text pos width).length ≤ text.length :=
  Nat.le_trans (Nat.add_le_add_left (field_length_le width _) pos) (run_length_le hpos)

/-- The digits of a number: as many as there are and the field width allows. -/
theorem stays_digitLoop_field {digit : Int → Option Int} (hend : digit (-1) = none)
    (base fuel pos : Nat) (width : Int) (v : Nat) (status : Bool)
    (hfuel : (digitsAt digit text pos width).length ≤ fuel) :
    Stays text (digitLoop base digit fuel (charAt text pos) width v status) pos fun r pos' =>
      let digits := digitsAt digit text pos width
      pos' = pos + digits.length ∧
        r = (status || !digits.isEmpty,
          digits.foldl (fun n c => u64 (n * base + digitVal digit c)) v, charAt text pos') := by
  unfold digitsAt at hfuel ⊢
  have hend' : hasVal digit (-1) = false := by rw [hasVal, hend, Option.isSome_none]
  induction fuel generalizing pos width v status with
  | zero =>
      rw [List.length_eq_zero_iff.mp (Nat.le_zero.mp hfuel)]
      exact .pure ⟨rfl, by simp⟩
  | succ fuel ih =>
      rw [digitLoop]
      cases hdigit : digit (charAt text pos) with
      | none =>
          have hrun : run (hasVal digit) text pos = [] :=
            run_eq_nil (by rw [hasVal, hdigit, Option.isSome_none])
          rw [hrun, field_nil]
          exact .pure ⟨rfl, by simp⟩
      | some d =>
          have htest : hasVal digit (charAt text pos) = true := by
            rw [hasVal, hdigit, Option.isSome_some]
          obtain ⟨c, hchar, hrun⟩ := run_eq_cons hend' htest
          by_cases hwidth : width = 0
          · subst hwidth
            rw [field_zero]
            exact .pure ⟨rfl, by simp⟩
          · have hval : digitVal digit c = d.toNat := by
              rw [digitVal, ← hchar, hdigit, Option.getD_some]
            rw [hrun, field_cons hwidth] at hfuel ⊢
            dsimp only
            rw [if_pos hwidth]
            refine .nextFast (by rw [hchar]; omega) ?_
            refine (ih (pos + 1) (width - 1) _ true (Nat.le_of_succ_le_succ hfuel)).mono
              fun r pos' h => ?_
            obtain ⟨hpos, hr⟩ := h
            refine ⟨?_, ?_⟩
            · rw [hpos, List.length_cons]
              omega
            · rw [hr, List.foldl_cons, hval]
              simp

/-- What `nk_fscan_hex` reads. -/
theorem stays_hex_digits {fuel : Nat} (width : Int) (hfuel : text.length ≤ fuel) :
    Stays text (nkFscanHex fuel width) pos fun r pos' =>
      let digits := digitsAt hexVal text pos width
      r = (!digits.isEmpty, u64 (digitsValue 16 (digitVal hexVal) digits)) ∧
        pos' = pos + digits.length := by
  refine .of_le fun hpos => ?_
  have hdigits := digitsAt_length_le hexVal width hpos
  have hvalue := foldl_u64_digitsValue 16 (digitVal hexVal) (digitsAt hexVal text pos width) 0
  refine Stays.mono (Stays.orRewind_cases (?_ : Stays text _ pos fun r pos' =>
      r = (!(digitsAt hexVal text pos width).isEmpty,
        u64 (digitsValue 16 (digitVal hexVal) (digitsAt hexVal text pos width))) ∧
      pos' = pos + (digitsAt hexVal text pos width).length)) fun r pos' h => ?_
  · refine .peek (.bind (stays_digitLoop_field rfl 16 fuel pos width 0 false (by omega))
      fun r pos' h => ?_)
    obtain ⟨hend, rfl⟩ := h
    exact .pure ⟨Prod.ext (Bool.false_or _) hvalue, hend⟩
  · obtain ⟨pos₁, ⟨rfl, rfl⟩, rfl⟩ := h
    refine ⟨rfl, ?_⟩
    cases digitsAt hexVal text pos width <;> rfl

/-- Where the digits of a number with an optional minus sign start. -/
def signEnd (text : List UInt8) (pos : Nat) : Nat :=
  if charAt text pos = ch '-' then pos + 1 else pos

theorem signEnd_ge (text : List UInt8) (pos : Nat) : pos ≤ signEnd text pos := by
  unfold signEnd
  split
  · exact Nat.le_succ pos
  · exact Nat.le_refl pos

/-- What `nk_fscan_dec` reads. -/
theorem stays_dec_digits {fuel : Nat} (width : Int) (hfuel : text.length ≤ fuel) :
    Stays text (nkFscanDec fuel width) pos fun r pos' =>
      let digits := digitsAt decVal text (signEnd text pos) width
      let val := u64 (digitsValue 10 (digitVal decVal) digits)
      r = (!digits.isEmpty, if charAt text pos = ch '-' then wrap 64 (-(val : Int)) else val) ∧
        pos' = if digits.isEmpty then pos else signEnd text pos + digits.length := by
  have hdigits : ∀ start, start ≤ text.length →
      Stays text (digitLoop 10 decVal fuel (charAt text start) width 0 false) start fun r pos' =>
        let digits := digitsAt decVal text start width
        pos' = start + digits.length ∧
          r = (!digits.isEmpty, u64 (digitsValue 10 (digitVal decVal) digits),
            charAt text pos') := by
    intro start hstart
    have hle := digitsAt_length_le decVal width hstart
    have hvalue := foldl_u64_digitsValue 10 (digitVal decVal) (digitsAt decVal text start width) 0
    refine (stays_digitLoop_field rfl 10 fuel start width 0 false (by omega)).mono
      fun r pos' h => ⟨h.1, ?_⟩
    rw [h.2, Bool.false_or]
    exact Prod.ext rfl (Prod.ext hvalue rfl)
  refine Stays.mono (Stays.orRewind_cases (?_ : Stays text _ pos fun r pos' =>
      let digits := digitsAt decVal text (signEnd text pos) width
      let val := u64 (digitsValue 10 (digitVal decVal) digits)
      r = (!digits.isEmpty, if charAt text pos = ch '-' then wrap 64 (-(val : Int)) else val) ∧
        pos' = signEnd text pos + digits.length)) fun r pos' h => ?_
  · refine .of_le fun hpos => .peek ?_
    unfold signEnd
    by_cases hminus : charAt text pos = ch '-'
    · have hroom : pos + 1 ≤ text.length := (charAt_ne_end hpos).mp (by rw [hminus]; decide)
      simp only [if_pos hminus]
      refine .nextFast (by rw [hminus]; decide) (.bind (hdigits (pos + 1) hroom) fun r pos' h => ?_)
      obtain ⟨hend, rfl⟩ := h
      exact .pure ⟨rfl, hend⟩
    · simp only [if_neg hminus]
      refine .bind (hdigits pos hpos) fun r pos' h => ?_
      obtain ⟨hend, rfl⟩ := h
      exact .pure ⟨rfl, hend⟩
  · obtain ⟨pos₁, ⟨rfl, rfl⟩, rfl⟩ := h
    refine ⟨rfl, ?_⟩
    cases digitsAt decVal text (signEnd text pos) width <;> rfl

/-! ## Whitespace and words -/

theorem stays_wsLoop_run (fuel pos : Nat) (hfuel : (run nkIsspace text pos).length ≤ fuel) :
    Stays text (wsLoop fuel (charAt text pos)) pos fun _ pos' =>
      pos' = pos + (run nkIsspace text pos).length := by
  induction fuel generalizing pos with
  | zero =>
      rw [List.length_eq_zero_iff.mp (Nat.le_zero.mp hfuel)]
      exact .pure rfl
  | succ fuel ih =>
      rw [wsLoop]
      by_cases hspace : nkIsspace (charAt text pos) = true
      · have hfirst : ∃ c : UInt8, charAt text pos = c.toNat ∧
            run nkIsspace text pos = c :: run nkIsspace text (pos + 1) := run_eq_cons rfl hspace
        obtain ⟨c, -, hrun⟩ := hfirst
        rw [hrun, List.length_cons] at hfuel ⊢
        rw [if_pos hspace]
        refine .nextFast (ne_end_of_test rfl hspace) ?_
        refine (ih (pos + 1) (Nat.le_of_succ_le_succ hfuel)).mono fun _ pos' h => ?_
        omega
      · rw [if_neg hspace, run_eq_nil (Bool.eq_false_iff.mpr hspace)]
        exact .pure rfl

/-- What `nk_fscan_ws` skips. -/
theorem stays_ws_run {fuel : Nat} (hfuel : text.length ≤ fuel) :
    Stays text (nkFscanWs fuel) pos fun _ pos' =>
      pos' = pos + (run nkIsspace text pos).length := by
  refine .of_le fun hpos => .peek (stays_wsLoop_run fuel pos ?_)
  have hle : pos + (run nkIsspace text pos).length ≤ text.length := run_length_le hpos
  omega

/-- The characters of a word or an identifier: as many as there are and the field width
allows. -/
theorem stays_tokenLoop_field {charOk : Int → Bool} (hend : charOk (-1) = false)
    (quashCase : Bool) (fuel pos : Nat) (width : Int) (bufSize : Nat) (buf : List UInt8)
    (status : Bool) (hfuel : (field width (run charOk text pos)).length ≤ fuel) :
    Stays text (tokenLoop quashCase charOk fuel (charAt text pos) width bufSize buf status) pos
      fun r pos' =>
        let chars := field width (run charOk text pos)
        pos' = pos + chars.length ∧ r.1 = (status || !chars.isEmpty) := by
  induction fuel generalizing pos width bufSize buf status with
  | zero =>
      rw [List.length_eq_zero_iff.mp (Nat.le_zero.mp hfuel)]
      exact .pure ⟨rfl, by simp⟩
  | succ fuel ih =>
      rw [tokenLoop]
      by_cases hmore : width ≠ 0 ∧ charOk (charAt text pos) = true
      · obtain ⟨hwidth, hchar⟩ := hmore
        obtain ⟨c, -, hrun⟩ := run_eq_cons hend hchar
        rw [hrun, field_cons hwidth] at hfuel ⊢
        rw [if_pos ⟨hwidth, hchar⟩]
        refine .nextFast (ne_end_of_test hend hchar) ?_
        refine (ih (pos + 1) (width - 1) _ _ true (Nat.le_of_succ_le_succ hfuel)).mono
          fun r pos' h => ?_
        obtain ⟨hpos, hr⟩ := h
        refine ⟨?_, by rw [hr]; simp⟩
        rw [hpos, List.length_cons]
        omega
      · have hnone : field width (run charOk text pos) = [] := by
          by_cases hwidth : width = 0
          · rw [hwidth, field_zero]
          · rw [run_eq_nil (Bool.eq_false_iff.mpr fun h => hmore ⟨hwidth, h⟩), field_nil]
        rw [if_neg hmore, hnone]
        exact .pure ⟨rfl, by simp⟩

end LibnklabsPico.Text
