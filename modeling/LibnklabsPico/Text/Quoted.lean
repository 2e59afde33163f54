/-
  Text/Quoted.lean --- where a quoted word or identifier ends.

  A C string is read character by character by an automaton that knows whether it is in an
  escape sequence (`closing`).  The scanner reads one escape sequence at a time.
-/
import LibnklabsPico.Text.Runs

set_option autoImplicit false

namespace LibnklabsPico.Text

open LibnklabsPico.File
open LibnklabsPico.File.FileProg

variable {text : List UInt8} {pos : Nat}

/-- Where in a C string a character stands. -/
inductive Quoting where
  | plain
  /-- behind a backslash -/
  | slash
  /-- behind `\\x`, with room for so many digits -/
  | hex (room : Nat)

/-- The next character outside of an escape sequence: the closing quote ends the string. -/
def plainNext (c : UInt8) : Option Quoting :=
  if c = 34 then none else if c = 92 then some .slash else some .plain

/-- The next character. -/
def Quoting.next : Quoting → UInt8 → Option Quoting
  | .slash, c => some (if c = 120 then .hex 2 else .plain)
  | .hex (room + 1), c => if (hexVal c.toNat).isSome then some (.hex room) else plainNext c
  | .hex 0, c | .plain, c => plainNext c

/-- The position behind the closing quote of a C string, if it is closed. -/
def closing : Quoting → List UInt8 → Nat → Option Nat
  | _, [], _ => none
  | q, c :: rest, pos =>
      match q.next c with
      | none => some (pos + 1)
      | some q => closing q rest (pos + 1)

/-- Where the C string ends that goes on at a position of a text. -/
def closingAt (q : Quoting) (text : List UInt8) (pos : Nat) : Option Nat :=
  closing q (text.drop pos) pos

theorem closingAt_end (q : Quoting) (hend : charAt text pos = -1) (hpos : pos ≤ text.length) :
    closingAt q text pos = none := by
  have hnil : text.drop pos = [] := by
    by_contra h
    have hlt : pos < text.length := by
      by_contra hge
      exact h (List.drop_of_length_le (Nat.le_of_not_lt hge))
    exact (charAt_ne_end hpos).mpr hlt hend
  rw [closingAt, hnil, closing]

/-- One step of the automaton. -/
theorem closingAt_step (q : Quoting) (hchar : charAt text pos ≠ -1) :
    ∃ c : UInt8, charAt text pos = c.toNat ∧
      closingAt q text pos =
        match q.next c with
        | none => some (pos + 1)
        | some q => closingAt q text (pos + 1) := by
  cases hdrop : text.drop pos with
  | nil => exact absurd (charAt_of_drop_nil hdrop) hchar
  | cons c rest =>
      obtain ⟨hbyte, hrest⟩ := drop_eq_cons hdrop
      refine ⟨c, hbyte, ?_⟩
      rw [closingAt, hdrop, closing]
      cases q.next c with
      | none => rfl
      | some q =>
          dsimp only
          rw [closingAt, hrest]

/-- With no room for digits, and behind `\\x` in front of something else, the string goes on
like outside of escape sequences. -/
theorem closingAt_hex_plain {room : Nat} (hpos : pos ≤ text.length)
    (hnot : room = 0 ∨ hexVal (charAt text pos) = none) :
    closingAt (.hex room) text pos = closingAt .plain text pos := by
  by_cases hchar : charAt text pos = -1
  · rw [closingAt_end _ hchar hpos, closingAt_end _ hchar hpos]
  · obtain ⟨c, hc, hstep⟩ := closingAt_step (.hex room) hchar
    obtain ⟨d, hd, hplain⟩ := closingAt_step .plain hchar
    obtain rfl : c = d := UInt8.toNat_inj.mp (by omega)
    have hnext : (Quoting.hex room).next c = Quoting.plain.next c := by
      cases room with
      | zero => rfl
      | succ room =>
          rcases hnot with h | h
          · cases h
          · rw [hc] at h
            rw [Quoting.next, h]
            rfl
    rw [hstep, hplain, hnext]

theorem closingAt_slash (hchar : charAt text pos ≠ -1) :
    closingAt .slash text pos =
      closingAt (if charAt text pos = ch 'x' then .hex 2 else .plain) text (pos + 1) := by
  obtain ⟨c, hc, hstep⟩ := closingAt_step .slash hchar
  have hx : c = 120 ↔ charAt text pos = ch 'x' := by
    rw [hc, ← UInt8.toNat_inj]
    exact Int.ofNat_inj.symm
  rw [hstep]
  by_cases h : c = 120
  · rw [if_pos (hx.mp h), Quoting.next, if_pos h]
  · rw [if_neg (mt hx.mpr h), Quoting.next, if_neg h]

theorem closingAt_hex {room : Nat} {n : Int} (hdigit : hexVal (charAt text pos) = some n) :
    closingAt (.hex (room + 1)) text pos = closingAt (.hex room) text (pos + 1) := by
  have hchar : charAt text pos ≠ -1 := by
    intro h
    rw [h] at hdigit
    cases hdigit
  obtain ⟨c, hc, hstep⟩ := closingAt_step (.hex (room + 1)) hchar
  rw [hc] at hdigit
  rw [hstep, Quoting.next, hdigit]
  rfl

theorem closingAt_plain (hchar : charAt text pos ≠ -1) :
    closingAt .plain text pos =
      if charAt text pos = ch '"' then some (pos + 1)
      else closingAt (if charAt text pos = ch '\\' then .slash else .plain) text (pos + 1) := by
  obtain ⟨c, hc, hstep⟩ := closingAt_step .plain hchar
  have hquote : c = 34 ↔ charAt text pos = ch '"' := by
    rw [hc, ← UInt8.toNat_inj]
    exact Int.ofNat_inj.symm
  have hslash : c = 92 ↔ charAt text pos = ch '\\' := by
    rw [hc, ← UInt8.toNat_inj]
    exact Int.ofNat_inj.symm
  rw [hstep, Quoting.next, plainNext]
  by_cases h : c = 34
  · rw [if_pos h, if_pos (hquote.mp h)]
  · rw [if_neg h, if_neg (mt hquote.mpr h)]
    by_cases h' : c = 92
    · rw [if_pos h', if_pos (hslash.mp h')]
    · rw [if_neg h', if_neg (mt hslash.mpr h')]

/-! ## One escape sequence -/

theorem hexVal_nonneg {c n : Int} (h : hexVal c = some n) : 0 ≤ n := by
  unfold hexVal at h
  have hletters : ch '0' = 48 ∧ ch 'a' = 97 ∧ ch 'A' = 65 := ⟨rfl, rfl, rfl⟩
  split at h
  · cases h
    omega
  · split at h
    · cases h
      omega
    · split at h
      · cases h
        omega
      · cases h

/-- An escape sequence other than `\x` is the character behind the backslash. -/
theorem escapeCode_eq {c : Int} (hx : c ≠ ch 'x') (hend : c ≠ -1) (d : Int) :
    ∃ v, v ≠ -1 ∧ escapeCode c d = pure v := by
  unfold escapeCode
  repeat' split
  all_goals first
    | exact ⟨_, by decide, rfl⟩
    | exact ⟨_, hend, rfl⟩

theorem stays_hexEscape_closing (hpos : pos ≤ text.length) :
    Stays text (hexEscape (charAt text pos)) pos fun r pos' =>
      r ≠ -1 ∧ pos ≤ pos' ∧ closingAt (.hex 2) text pos = closingAt .plain text pos' := by
  unfold hexEscape
  cases hhigh : hexVal (charAt text pos) with
  | none => exact .pure ⟨by decide, Nat.le_refl _, closingAt_hex_plain hpos (Or.inr hhigh)⟩
  | some high =>
      have hone := hexVal_nonneg hhigh
      refine .nextFast (fun h => by rw [h] at hhigh; cases hhigh) (.of_le fun hpos₁ => ?_)
      rw [closingAt_hex hhigh]
      cases hlow : hexVal (charAt text (pos + 1)) with
      | none => exact .pure ⟨by omega, by omega, closingAt_hex_plain hpos₁ (Or.inr hlow)⟩
      | some low =>
          have htwo := hexVal_nonneg hlow
          refine .nextFast (fun h => by rw [h] at hlow; cases hlow) (.of_le fun hpos₂ => ?_)
          rw [closingAt_hex hlow]
          exact .pure ⟨by omega, by omega, closingAt_hex_plain hpos₂ (Or.inl rfl)⟩

/-- Reading a character or an escape sequence of a C string that is not at its end. -/
theorem stays_escape_closing (hchar : charAt text pos ≠ -1) (hquote : charAt text pos ≠ ch '"') :
    Stays text nkFscanEscape pos fun r pos' =>
      pos < pos' ∧
        closingAt .plain text pos = if r = -1 then none else closingAt .plain text pos' := by
  have hplain := closingAt_plain hchar
  rw [if_neg hquote] at hplain
  refine .peek ?_
  by_cases hslash : charAt text pos = ch '\\'
  · rw [if_pos hslash]
    rw [if_pos hslash] at hplain
    refine .nextFast hchar (.of_le fun hpos => ?_)
    unfold nextUnlessEnd
    by_cases hend : charAt text (pos + 1) = -1
    · rw [if_neg (not_not.mpr hend), hend]
      have hzero : Stays text (pure 0) (pos + 1) fun (d : Int) pos' => d = 0 ∧ pos' = pos + 1 :=
        .pure ⟨rfl, rfl⟩
      refine .bind hzero fun d pos' h => ?_
      obtain ⟨rfl, rfl⟩ := h
      exact .pure ⟨Nat.lt_succ_self pos, hplain.trans (closingAt_end .slash hend hpos)⟩
    · rw [if_pos hend]
      refine .nextFast hend (.of_le fun hpos₂ => ?_)
      rw [closingAt_slash hend] at hplain
      by_cases hx : charAt text (pos + 1) = ch 'x'
      · rw [if_pos hx] at hplain
        rw [hx]
        refine (stays_hexEscape_closing hpos₂).mono fun r pos' h => ?_
        obtain ⟨hr, hle, hclose⟩ := h
        exact ⟨by omega, by rw [if_neg hr, hplain, hclose]⟩
      · obtain ⟨v, hv, hcode⟩ := escapeCode_eq hx hend (charAt text (pos + 1 + 1))
        rw [if_neg hx] at hplain
        rw [hcode]
        exact .pure ⟨by omega, by rw [if_neg hv, hplain]⟩
  · rw [if_neg hslash]
    rw [if_neg hslash] at hplain
    unfold nextUnlessEnd
    rw [if_pos hchar]
    exact .nextFast hchar (.pure ⟨Nat.lt_succ_self pos, by rw [if_neg hchar, hplain]⟩)

/-! ## Words and identifiers -/

/-- The characters of a C string, up to the closing quote. -/
theorem stays_quotedLoop_closing (fuel pos bufSize : Nat) (buf : List UInt8)
    (hfuel : text.length ≤ pos + fuel) :
    Stays text (quotedLoop fuel (charAt text pos) bufSize buf) pos fun r pos' =>
      match closingAt .plain text pos with
      | some stop => r.1 = ch '"' ∧ charAt text pos' ≠ -1 ∧ stop = pos' + 1
      | none => r.1 ≠ ch '"' := by
  induction fuel generalizing pos bufSize buf with
  | zero =>
      refine .of_le fun hpos => ?_
      have hend : charAt text pos = -1 := Cursor.peek_of_le hfuel
      rw [closingAt_end .plain hend hpos, hend]
      exact .pure (show (-1 : Int) ≠ ch '"' by decide)
  | succ fuel ih =>
      refine .of_le fun hpos => ?_
      rw [quotedLoop]
      by_cases hend : charAt text pos = -1
      · rw [if_neg (fun h => h.1 hend), closingAt_end .plain hend hpos, hend]
        exact .pure (show (-1 : Int) ≠ ch '"' by decide)
      · by_cases hquote : charAt text pos = ch '"'
        · rw [if_neg (fun h => h.2 hquote), closingAt_plain hend, if_pos hquote]
          exact .pure ⟨hquote, hend, rfl⟩
        · rw [if_pos ⟨hend, hquote⟩]
          refine .bind (stays_escape_closing hend hquote) fun c pos' h => ?_
          obtain ⟨hlt, hclose⟩ := h
          rw [hclose]
          by_cases hc : c = -1
          · rw [if_pos hc, if_pos hc, hc]
            exact .pure (show (-1 : Int) ≠ ch '"' by decide)
          · rw [if_neg hc, if_neg hc]
            exact .peek (ih pos' _ _ (by omega))

/-- What may be taken of a word or an identifier without quotes, all of it. -/
def tokenChars (startOk charOk : Int → Bool) (text : List UInt8) (pos : Nat) : List UInt8 :=
  if startOk (charAt text pos) = true then run charOk text pos else []

/-- The characters of words. -/
def isWordChar (c : Int) : Bool := c != -1 && !nkIsspace c

/-- Where a word or an identifier ends. -/
def tokenAt (startOk charOk : Int → Bool) (text : List UInt8) (pos : Nat) (width : Int) :
    Option Nat :=
  if charAt text pos = ch '"' then closingAt .plain text (pos + 1)
  else
    let chars := field width (tokenChars startOk charOk text pos)
    if chars = [] then none else some (pos + chars.length)

theorem closing_lt {q : Quoting} {rest : List UInt8} {stop : Nat}
    (h : closing q rest pos = some stop) : pos < stop := by
  induction rest generalizing q pos with
  | nil => cases h
  | cons c rest ih =>
      unfold closing at h
      cases hnext : q.next c with
      | none =>
          rw [hnext] at h
          have hstop := Option.some.inj h
          omega
      | some q' =>
          rw [hnext] at h
          have hlt : pos + 1 < stop := ih h
          omega

/-- A word or an identifier has a character or a quote. -/
theorem tokenAt_lt {startOk charOk : Int → Bool} {width : Int} {stop : Nat}
    (h : tokenAt startOk charOk text pos width = some stop) : pos < stop := by
  unfold tokenAt at h
  by_cases hquote : charAt text pos = ch '"'
  · rw [if_pos hquote] at h
    have hlt : pos + 1 < stop := closing_lt h
    omega
  · rw [if_neg hquote] at h
    dsimp only at h
    split at h
    · cases h
    · rename_i hchars
      have hlen := List.length_pos_iff.mpr hchars
      have hstop := Option.some.inj h
      omega

theorem stays_tokenAt {startOk charOk : Int → Bool} (hend : charOk (-1) = false) {fuel : Nat}
    (hfuel : text.length ≤ fuel) (quashCase : Bool) (width : Int) (bufSize : Nat) :
    Stays text (scanToken startOk charOk fuel quashCase width bufSize) pos
      (Outcome ((tokenAt startOk charOk text pos width).map fun stop => (stop, ()))
        (fun _ r => r.1 = true) fun r pos' => r.1 = false ∧ pos' = pos) := by
  refine Stays.orRewind_outcome ?_ (fun _ _ h => h) fun _ h => h
  refine .of_le fun hpos => .peek ?_
  unfold tokenAt
  by_cases hquote : charAt text pos = ch '"'
  · rw [if_pos hquote, if_pos hquote]
    refine .nextFast (by rw [hquote]; decide) ?_
    refine .bind (stays_quotedLoop_closing fuel (pos + 1) bufSize [] (by omega))
      fun r pos' hr => ?_
    obtain ⟨c, buf⟩ := r
    cases hclose : closingAt .plain text (pos + 1) with
    | none =>
        rw [hclose] at hr
        dsimp only at hr ⊢
        rw [if_neg hr]
        exact .pure rfl
    | some stop =>
        rw [hclose] at hr
        obtain ⟨hc, hchar, rfl⟩ := hr
        dsimp only at hc ⊢
        rw [if_pos hc]
        exact .nextFast hchar (.pure ⟨rfl, rfl⟩)
  · rw [if_neg hquote, if_neg hquote]
    dsimp only
    unfold tokenChars
    by_cases hstart : startOk (charAt text pos) = true
    · rw [if_pos hstart, if_pos hstart]
      have hle : pos + (run charOk text pos).length ≤ text.length := run_length_le hpos
      have hfield := field_length_le width (run charOk text pos)
      refine (stays_tokenLoop_field hend quashCase fuel pos width bufSize [] false
        (by omega)).mono fun r pos' h => ?_
      obtain ⟨hstop, hstatus⟩ := h
      cases hchars : field width (run charOk text pos) with
      | nil =>
          rw [hchars] at hstatus
          exact hstatus
      | cons c chars =>
          rw [hchars] at hstatus hstop
          exact ⟨hstatus, hstop⟩
    · rw [if_neg hstart, if_neg hstart, field_nil]
      exact .pure rfl

end LibnklabsPico.Text
