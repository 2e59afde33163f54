/-
  Text/Tokens.lean --- what words and identifiers leave in their buffer.

  The automaton of `Text/Quoted.lean` tells where a quoted word ends; `decoded` are the
  characters it stands for.  Whatever the size of the buffer, a field is read to its end,
  and the buffer holds as much of it as there is space for, and a NUL.
-/
import LibnklabsPico.Text.AnyText
import LibnklabsPico.Text.Quoted
import LibnklabsPico.Text.Scanning

set_option autoImplicit false

namespace LibnklabsPico.Text

open LibnklabsPico.Foundation
open LibnklabsPico.File
open LibnklabsPico.File.FileProg

variable {text : List UInt8} {pos : Nat}

/-! ## Quoted characters -/

/-- The character that a backslash and `c` stand for, `\x` apart. -/
def escapeByte (c : UInt8) : UInt8 :=
  if c = 97 then 7
  else if c = 98 then 8
  else if c = 101 then 27
  else if c = 102 then 12
  else if c = 110 then 10
  else if c = 114 then 13
  else if c = 116 then 9
  else c

/-- The characters of a C string, up to the closing quote.  Behind `\x`, `v` is the number
that the digits so far stand for. -/
def decoded : Quoting → Nat → List UInt8 → List UInt8
  | _, _, [] => []
  | q, v, c :: rest =>
      let plain :=
        if c = 34 then []
        else if c = 92 then decoded .slash 0 rest
        else c :: decoded .plain 0 rest
      match q with
      | .plain => plain
      | .slash => if c = 120 then decoded (.hex 2) 0 rest else escapeByte c :: decoded .plain 0 rest
      | .hex 0 => UInt8.ofNat v :: plain
      | .hex (room + 1) =>
          match hexVal c.toNat with
          | some d => decoded (.hex room) (v * 16 + d.toNat) rest
          | none => UInt8.ofNat v :: plain

/-- The characters of the C string that goes on at a position of a text. -/
def decodedAt (q : Quoting) (v : Nat) (text : List UInt8) (pos : Nat) : List UInt8 :=
  decoded q v (text.drop pos)

example : decoded .plain 0 (ascii "a\\x4g\\n\\\"\" b") = [97, 4, 103, 10, 34] := by decide

/-- A byte as it is stored. -/
def stored (c : Int) : UInt8 := UInt8.ofNat (wrap 8 c)

theorem stored_byte (c : UInt8) : stored c.toNat = c := ofNat_wrap c

theorem stored_of_nonneg {c : Int} (hc : 0 ≤ c) : stored c = UInt8.ofNat c.toNat := by
  obtain ⟨n, rfl⟩ := Int.eq_ofNat_of_zero_le hc
  have hwrap : wrap 8 (n : Int) = n % 256 := by
    rw [wrap]
    omega
  rw [stored, hwrap, Int.toNat_natCast, ← UInt8.toNat_inj, UInt8.toNat_ofNat', UInt8.toNat_ofNat',
    Nat.mod_mod]

theorem drop_of_char (hchar : charAt text pos ≠ -1) :
    ∃ c : UInt8, charAt text pos = c.toNat ∧ text.drop pos = c :: text.drop (pos + 1) := by
  cases hdrop : text.drop pos with
  | nil => exact absurd (charAt_of_drop_nil hdrop) hchar
  | cons c rest =>
      obtain ⟨hbyte, hrest⟩ := drop_eq_cons hdrop
      exact ⟨c, hbyte, by rw [hrest]⟩

theorem byte_eq_iff {c d : UInt8} {n : Int} (hc : n = c.toNat) :
    c = d ↔ n = d.toNat := by
  rw [hc, ← UInt8.toNat_inj]
  exact Int.ofNat_inj.symm

theorem decodedAt_plain (hchar : charAt text pos ≠ -1) (hquote : charAt text pos ≠ ch '"')
    (v : Nat) :
    decodedAt .plain v text pos =
      if charAt text pos = ch '\\' then decodedAt .slash 0 text (pos + 1)
      else stored (charAt text pos) :: decodedAt .plain 0 text (pos + 1) := by
  obtain ⟨c, hc, hdrop⟩ := drop_of_char hchar
  have hplain : c ≠ 34 := fun h => hquote ((byte_eq_iff hc).mp h)
  have hslash : c = 92 ↔ charAt text pos = ch '\\' := byte_eq_iff hc
  unfold decodedAt
  rw [hdrop, decoded]
  simp only [hplain, if_false, hslash, hc, stored_byte]

theorem decodedAt_quote (hquote : charAt text pos = ch '"') (v : Nat) :
    decodedAt .plain v text pos = [] := by
  obtain ⟨c, hc, hdrop⟩ := drop_of_char (by rw [hquote]; decide : charAt text pos ≠ -1)
  have hbyte : c = 34 := (byte_eq_iff hc).mpr hquote
  unfold decodedAt
  rw [hdrop, decoded]
  simp only [hbyte, if_true]

theorem decodedAt_slash (hchar : charAt text pos ≠ -1) (v : Nat) :
    decodedAt .slash v text pos =
      if charAt text pos = ch 'x' then decodedAt (.hex 2) 0 text (pos + 1)
      else escapeByte (stored (charAt text pos)) :: decodedAt .plain 0 text (pos + 1) := by
  obtain ⟨c, hc, hdrop⟩ := drop_of_char hchar
  have hx : c = 120 ↔ charAt text pos = ch 'x' := byte_eq_iff hc
  unfold decodedAt
  rw [hdrop, decoded]
  simp only [hx, hc, stored_byte]

theorem decodedAt_digit {room v : Nat} {n : Int} (hdigit : hexVal (charAt text pos) = some n) :
    decodedAt (.hex (room + 1)) v text pos =
      decodedAt (.hex room) (v * 16 + n.toNat) text (pos + 1) := by
  have hchar : charAt text pos ≠ -1 := by
    intro h
    rw [h] at hdigit
    cases hdigit
  obtain ⟨c, hc, hdrop⟩ := drop_of_char hchar
  rw [hc] at hdigit
  unfold decodedAt
  rw [hdrop, decoded]
  simp only [hdigit]

/-- The character of `\x` is complete, if there is anything behind it. -/
theorem decodedAt_complete {room v : Nat} (hchar : charAt text pos ≠ -1)
    (hnot : room = 0 ∨ hexVal (charAt text pos) = none) :
    decodedAt (.hex room) v text pos = UInt8.ofNat v :: decodedAt .plain 0 text pos := by
  obtain ⟨c, hc, hdrop⟩ := drop_of_char hchar
  unfold decodedAt
  rw [hdrop]
  cases room with
  | zero => rfl
  | succ room =>
      rcases hnot with h | h
      · cases h
      · rw [hc] at h
        simp only [decoded, h]

/-! ## One escape sequence -/

theorem escapeCode_byte {c : UInt8} (hx : c ≠ 120) (d : Int) :
    escapeCode c.toNat d = pure ((escapeByte c).toNat : Int) := by
  have hbyte : ∀ b : UInt8, (c.toNat : Int) = b.toNat ↔ c = b := fun b => (byte_eq_iff rfl).symm
  have hletters : ch 'a' = (97 : UInt8).toNat ∧ ch 'b' = (98 : UInt8).toNat ∧
      ch 'e' = (101 : UInt8).toNat ∧ ch 'f' = (102 : UInt8).toNat ∧ ch 'n' = (110 : UInt8).toNat ∧
      ch 'r' = (114 : UInt8).toNat ∧ ch 't' = (116 : UInt8).toNat ∧
      ch '\\' = (92 : UInt8).toNat ∧ ch 'x' = (120 : UInt8).toNat :=
    ⟨rfl, rfl, rfl, rfl, rfl, rfl, rfl, rfl, rfl⟩
  unfold escapeCode escapeByte
  rw [hletters.1, hletters.2.1, hletters.2.2.1, hletters.2.2.2.1, hletters.2.2.2.2.1,
    hletters.2.2.2.2.2.1, hletters.2.2.2.2.2.2.1, hletters.2.2.2.2.2.2.2.1,
    hletters.2.2.2.2.2.2.2.2]
  simp only [hbyte]
  by_cases hslash : c = 92
  · subst hslash
    rfl
  · rw [if_neg hslash, if_neg hx]
    repeat' split
    all_goals rfl

theorem stays_hexEscape_decoded :
    Stays text (hexEscape (charAt text pos)) pos fun r pos' => charAt text pos' ≠ -1 →
      decodedAt (.hex 2) 0 text pos = stored r :: decodedAt .plain 0 text pos' := by
  unfold hexEscape
  cases hhigh : hexVal (charAt text pos) with
  | none => exact .pure fun hnext => decodedAt_complete hnext (Or.inr hhigh)
  | some high =>
      have hone := hexVal_nonneg hhigh
      refine .nextFast (hexVal_ne_end hhigh) ?_
      rw [decodedAt_digit hhigh, Nat.zero_mul, Nat.zero_add]
      cases hlow : hexVal (charAt text (pos + 1)) with
      | none =>
          refine .pure fun hnext => ?_
          rw [decodedAt_complete hnext (Or.inr hlow), stored_of_nonneg hone]
      | some low =>
          have htwo := hexVal_nonneg hlow
          refine .nextFast (hexVal_ne_end hlow) ?_
          rw [decodedAt_digit hlow]
          refine .pure fun hnext => ?_
          have hvalue : (high * 16 + low).toNat = high.toNat * 16 + low.toNat := by omega
          rw [decodedAt_complete hnext (Or.inl rfl), stored_of_nonneg (by omega), hvalue]

/-- A character or an escape sequence of a C string that goes on behind it. -/
theorem stays_escape_decoded (hchar : charAt text pos ≠ -1) (hquote : charAt text pos ≠ ch '"') :
    Stays text nkFscanEscape pos fun r pos' => charAt text pos' ≠ -1 →
      decodedAt .plain 0 text pos = stored r :: decodedAt .plain 0 text pos' := by
  have hplain := decodedAt_plain hchar hquote 0
  refine .peek ?_
  by_cases hslash : charAt text pos = ch '\\'
  · rw [if_pos hslash] at hplain ⊢
    refine .nextFast hchar ?_
    unfold nextUnlessEnd
    by_cases hend : charAt text (pos + 1) = -1
    · rw [if_neg (not_not.mpr hend), hend]
      have hzero : Stays text (pure 0) (pos + 1) fun (d : Int) pos' => d = 0 ∧ pos' = pos + 1 :=
        .pure ⟨rfl, rfl⟩
      refine .bind hzero fun d pos' h => ?_
      obtain ⟨rfl, rfl⟩ := h
      exact .pure fun hnext => absurd hend hnext
    · rw [if_pos hend]
      refine .nextFast hend ?_
      rw [decodedAt_slash hend] at hplain
      obtain ⟨c, hc, -⟩ := drop_of_char hend
      by_cases hx : charAt text (pos + 1) = ch 'x'
      · rw [if_pos hx] at hplain
        rw [hx, hplain]
        exact stays_hexEscape_decoded
      · rw [if_neg hx] at hplain
        have hcode : c ≠ 120 := fun h => hx ((byte_eq_iff hc).mp h)
        rw [hplain, hc, escapeCode_byte hcode, stored_byte]
        exact .pure fun _ => by rw [stored_byte]
  · rw [if_neg hslash] at hplain ⊢
    unfold nextUnlessEnd
    rw [if_pos hchar]
    exact .nextFast hchar (.pure fun _ => hplain)

/-! ## Buffers -/

/-- Characters and the buffer: what is in it afterwards. -/
theorem bufPut_append (buf : List UInt8) (bufSize : Nat) (c : Int) (chars : List UInt8) :
    (bufPut buf bufSize c).1 ++ chars.take ((bufPut buf bufSize c).2 - 1) =
      buf ++ (stored c :: chars).take (bufSize - 1) := by
  unfold bufPut
  by_cases hroom : 1 < bufSize
  · obtain ⟨n, rfl⟩ : ∃ n, bufSize = n + 2 := ⟨bufSize - 2, by omega⟩
    rw [if_pos hroom, List.append_assoc]
    rfl
  · have hnone : bufSize - 1 = 0 := by omega
    rw [if_neg hroom, hnone, List.take_zero, List.take_zero]

theorem bufPut_room (buf : List UInt8) (bufSize : Nat) (c : Int) :
    (bufPut buf bufSize c).1.length + ((bufPut buf bufSize c).2 - 1) =
      buf.length + (bufSize - 1) := by
  unfold bufPut
  by_cases hroom : 1 < bufSize
  · rw [if_pos hroom, List.length_append, List.length_singleton]
    dsimp only
    omega
  · rw [if_neg hroom]

theorem quotedLoop_end (fuel bufSize : Nat) (buf : List UInt8) :
    quotedLoop fuel (-1) bufSize buf = pure (-1, buf) := by
  cases fuel <;> rfl

/-- The characters of a C string in the buffer. -/
theorem stays_quotedLoop_decoded (fuel pos bufSize : Nat) (buf : List UInt8) :
    Stays text (quotedLoop fuel (charAt text pos) bufSize buf) pos fun r pos' =>
      r.2.length ≤ buf.length + (bufSize - 1) ∧
        (r.1 = ch '"' → charAt text pos' = ch '"' ∧
          r.2 = buf ++ (decodedAt .plain 0 text pos).take (bufSize - 1)) := by
  have hdone : ∀ (pos bufSize : Nat) (buf : List UInt8),
      buf.length ≤ buf.length + (bufSize - 1) ∧ (charAt text pos = ch '"' →
        charAt text pos = ch '"' ∧
          buf = buf ++ (decodedAt .plain 0 text pos).take (bufSize - 1)) := by
    intro pos bufSize buf
    refine ⟨Nat.le_add_right _ _, fun hquote => ⟨hquote, ?_⟩⟩
    rw [decodedAt_quote hquote, List.take_nil, List.append_nil]
  have hstuck : ∀ p : Prop, (-1 : Int) = ch '"' → p := fun _ hquote => absurd hquote (by decide)
  induction fuel generalizing pos bufSize buf with
  | zero => exact .pure (hdone pos bufSize buf)
  | succ fuel ih =>
      rw [quotedLoop]
      by_cases hgo : charAt text pos ≠ -1 ∧ charAt text pos ≠ ch '"'
      · rw [if_pos hgo]
        refine .bind (stays_escape_decoded hgo.1 hgo.2) fun c pos' hstep => ?_
        by_cases hc : c = -1
        · rw [if_pos hc, hc]
          exact .pure ⟨Nat.le_add_right _ _, hstuck _⟩
        · rw [if_neg hc]
          have hroom := bufPut_room buf bufSize c
          refine .peek ?_
          by_cases hend : charAt text pos' = -1
          · rw [hend, quotedLoop_end]
            exact .pure ⟨Nat.le.intro hroom, hstuck _⟩
          · refine (ih pos' (bufPut buf bufSize c).2 (bufPut buf bufSize c).1).mono
              fun r pos'' hr => ?_
            obtain ⟨hlength, htext⟩ := hr
            rw [hroom] at hlength
            refine ⟨hlength, fun hquote => ?_⟩
            obtain ⟨hlast, htext⟩ := htext hquote
            exact ⟨hlast, by rw [htext, bufPut_append, hstep hend]⟩
      · rw [if_neg hgo]
        exact .pure (hdone pos bufSize buf)

/-- A byte as it goes into the buffer. -/
def keptByte (quashCase : Bool) (c : UInt8) : UInt8 :=
  if quashCase then stored (nkTolower c.toNat) else c

/-- The characters of a word or an identifier in the buffer. -/
theorem stays_tokenLoop_text {charOk : Int → Bool} (hend : charOk (-1) = false)
    (quashCase : Bool) (fuel pos : Nat) (width : Int) (bufSize : Nat) (buf : List UInt8)
    (status : Bool) (hfuel : (field width (run charOk text pos)).length ≤ fuel) :
    Stays text (tokenLoop quashCase charOk fuel (charAt text pos) width bufSize buf status) pos
      fun r _ => r.2 = buf ++
        ((field width (run charOk text pos)).map (keptByte quashCase)).take (bufSize - 1) := by
  induction fuel generalizing pos width bufSize buf status with
  | zero =>
      rw [List.length_eq_zero_iff.mp (Nat.le_zero.mp hfuel)]
      exact .pure (by simp)
  | succ fuel ih =>
      rw [tokenLoop]
      by_cases hmore : width ≠ 0 ∧ charOk (charAt text pos) = true
      · obtain ⟨hwidth, hchar⟩ := hmore
        obtain ⟨c, hc, hrun⟩ := run_eq_cons hend hchar
        rw [hrun, field_cons hwidth] at hfuel ⊢
        rw [if_pos ⟨hwidth, hchar⟩]
        have hkept : stored (if quashCase then nkTolower (charAt text pos) else charAt text pos) =
            keptByte quashCase c := by
          rw [hc, keptByte]
          split
          · rfl
          · exact stored_byte c
        refine .nextFast (ne_end_of_test hend hchar) ?_
        refine (ih (pos + 1) (width - 1) (bufPut buf bufSize _).2 (bufPut buf bufSize _).1 true
          (Nat.le_of_succ_le_succ hfuel)).mono fun r _ hr => ?_
        rw [hr, bufPut_append, hkept, List.map_cons]
      · have hnone : field width (run charOk text pos) = [] := by
          by_cases hwidth : width = 0
          · rw [hwidth, field_zero]
          · rw [run_eq_nil (Bool.eq_false_iff.mpr fun h => hmore ⟨hwidth, h⟩), field_nil]
        rw [if_neg hmore, hnone]
        exact .pure (by simp)

/-! ## Words and identifiers -/

/-- The characters of a word or an identifier. -/
def tokenText (startOk charOk : Int → Bool) (quashCase : Bool) (text : List UInt8) (pos : Nat)
    (width : Int) : List UInt8 :=
  if charAt text pos = ch '"' then decodedAt .plain 0 text (pos + 1)
  else (field width (tokenChars startOk charOk text pos)).map (keptByte quashCase)

/-- What is in the buffer, in front of the NUL. -/
theorem stays_tokenText {startOk charOk : Int → Bool} (hend : charOk (-1) = false) {fuel : Nat}
    (hfuel : text.length ≤ fuel) (quashCase : Bool) (width : Int) (bufSize : Nat) :
    Stays text (scanToken startOk charOk fuel quashCase width bufSize) pos fun r _ =>
      r.2.length ≤ bufSize - 1 ∧ (r.1 = true →
        r.2 = (tokenText startOk charOk quashCase text pos width).take (bufSize - 1)) := by
  refine Stays.mono (Stays.orRewind (?_ : Stays text _ pos fun (r : Bool × List UInt8) _ =>
      r.2.length ≤ bufSize - 1 ∧ (r.1 = true →
        r.2 = (tokenText startOk charOk quashCase text pos width).take (bufSize - 1))))
    fun r _ hr => hr.1
  refine .of_le fun hpos => .peek ?_
  unfold tokenText
  by_cases hquote : charAt text pos = ch '"'
  · rw [if_pos hquote, if_pos hquote]
    refine .nextFast (by rw [hquote]; decide) ?_
    refine .bind (stays_quotedLoop_decoded fuel (pos + 1) bufSize []) fun r pos' hr => ?_
    obtain ⟨c, buf⟩ := r
    obtain ⟨hlength, htext⟩ := hr
    rw [List.length_nil, Nat.zero_add] at hlength
    dsimp only at hlength htext ⊢
    by_cases hc : c = ch '"'
    · rw [if_pos hc]
      obtain ⟨hlast, htext⟩ := htext hc
      exact .nextFast (by rw [hlast]; decide) (.pure ⟨hlength, fun _ => htext⟩)
    · rw [if_neg hc]
      exact .pure ⟨hlength, fun hstatus => absurd hstatus Bool.false_ne_true⟩
  · rw [if_neg hquote, if_neg hquote]
    unfold tokenChars
    by_cases hstart : startOk (charAt text pos) = true
    · rw [if_pos hstart, if_pos hstart]
      have hle : pos + (run charOk text pos).length ≤ text.length := run_length_le hpos
      have hfield := field_length_le width (run charOk text pos)
      refine (stays_tokenLoop_text hend quashCase fuel pos width bufSize [] false
        (by omega)).mono fun r _ hr => ?_
      rw [hr, List.nil_append]
      exact ⟨List.length_take_le _ _, fun _ => rfl⟩
    · rw [if_neg hstart, if_neg hstart]
      exact .pure ⟨Nat.zero_le _, fun hstatus => absurd hstatus Bool.false_ne_true⟩

/-- The bytes that a scan stores in its buffer, from the start of the buffer on. -/
def storedBytes (r : Bool × List UInt8) : List UInt8 := if r.1 then r.2 ++ [0] else r.2

/-- What a scan of a word or an identifier with a buffer of `bufSize` bytes does on a file
at `pos`: it stays in the buffer; when it succeeds the buffer holds as much of the field
as there is space for and a NUL, and the field is behind it; else it is where it was. -/
def RespectsBuffer {w : Nat} (startOk charOk : Int → Bool) (quashCase : Bool) (width : Int)
    (bufSize : Nat) (text : List UInt8) (pos : Nat) (scan : FileProg (Bool × List UInt8))
    (f : Nkinfile w) : Prop :=
  ∃ r f' pos', scan.run (nkinfile w) f = some (r, f') ∧ Agrees f' ⟨text, pos'⟩ ∧
    (storedBytes r).length ≤ bufSize ∧
    match tokenAt startOk charOk text pos width with
    | some stop => r.1 = true ∧ pos' = stop ∧ storedBytes r =
        (tokenText startOk charOk quashCase text pos width).take (bufSize - 1) ++ [0]
    | none => r.1 = false ∧ pos' = pos

theorem scanToken_respectsBuffer {startOk charOk : Int → Bool} (hend : charOk (-1) = false)
    {w fuel bufSize : Nat} {f : Nkinfile w} (agrees : Agrees f ⟨text, pos⟩)
    (hfuel : text.length ≤ fuel) (hsize : 1 ≤ bufSize) (quashCase : Bool) (width : Int) :
    RespectsBuffer startOk charOk quashCase width bufSize text pos
      (scanToken startOk charOk fuel quashCase width bufSize) f := by
  have hplace : Stays text (scanToken startOk charOk fuel quashCase width bufSize) pos _ :=
    stays_tokenAt hend hfuel quashCase width bufSize
  have hbuffer : Stays text (scanToken startOk charOk fuel quashCase width bufSize) pos _ :=
    stays_tokenText hend hfuel quashCase width bufSize
  obtain ⟨r, f', pos', hrun, hagrees, hstop, hlength, htext⟩ := (hplace.and hbuffer).run agrees
  refine ⟨r, f', pos', hrun, hagrees, ?_, ?_⟩
  · unfold storedBytes
    split
    · rw [List.length_append, List.length_singleton]
      omega
    · omega
  · cases htoken : tokenAt startOk charOk text pos width with
    | none =>
        rw [htoken] at hstop
        exact hstop
    | some stop =>
        rw [htoken] at hstop
        obtain ⟨hstatus, rfl⟩ := hstop
        refine ⟨hstatus, rfl, ?_⟩
        rw [storedBytes, if_pos hstatus, htext hstatus]

/-- The scanners of words and identifiers respect their buffer, whatever the input is. -/
theorem nkFscanToken_respectsBuffer {w fuel bufSize : Nat} {f : Nkinfile w}
    (agrees : Agrees f ⟨text, pos⟩) (hfuel : text.length ≤ fuel) (hsize : 1 ≤ bufSize)
    (quashCase : Bool) (width : Int) :
    RespectsBuffer (fun _ => true) isWordChar quashCase width bufSize text pos
        (nkFscanWord fuel quashCase width bufSize) f ∧
      RespectsBuffer isIdentStart isIdentChar quashCase width bufSize text pos
        (nkFscanIdent fuel quashCase width bufSize) f :=
  ⟨scanToken_respectsBuffer rfl agrees hfuel hsize quashCase width,
    scanToken_respectsBuffer rfl agrees hfuel hsize quashCase width⟩

/-- Of a quoted word with an escape sequence, as much as fits four bytes. -/
theorem nkFscanToken_respectsBuffer_quoted :
    let text := ascii "\"Ab\\x4g\\n\" "
    let f := nkinfileOpenMem 32 text text.length
    ∃ r f' pos', (nkFscanWord text.length true (-1) 4).run (nkinfile 32) f = some (r, f') ∧
      Agrees f' ⟨text, pos'⟩ ∧ pos' = 10 ∧ storedBytes r = [65, 98, 4, 0] := by
  intro text f
  have hagrees : Agrees f ⟨text, 0⟩ := by
    have hopen := nkinfileOpenMem_agrees text [] (by decide : text.length < 2 ^ 32)
    rw [List.append_nil] at hopen
    exact hopen
  obtain ⟨r, f', pos', hrun, hagrees', -, hstop⟩ :=
    (nkFscanToken_respectsBuffer hagrees (Nat.le_refl _) (by decide : 1 ≤ 4) true (-1)).1
  have hat : tokenAt (fun _ => true) isWordChar text 0 (-1) = some 10 := by decide
  have htext : (tokenText (fun _ => true) isWordChar true text 0 (-1)).take 3 = [65, 98, 4] := by
    decide
  rw [hat] at hstop
  obtain ⟨-, hpos, hbytes⟩ := hstop
  rw [htext] at hbytes
  exact ⟨r, f', pos', hrun, hagrees', hpos, hbytes⟩

end LibnklabsPico.Text
