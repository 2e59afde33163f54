/-
  Text/Termination.lean --- the loops of the scanner end by themselves.

  Each loop is compared with itself on another amount of fuel.  A pass that goes on reads a
  character, so as many passes as there are characters left are enough, and with more fuel
  the scanner makes the same calls.
-/
import LibnklabsPico.File.Alike
import LibnklabsPico.Text.AnyText
import LibnklabsPico.Text.Quoted

set_option autoImplicit false

namespace LibnklabsPico.Text

open LibnklabsPico.Foundation
open LibnklabsPico.File
open LibnklabsPico.File.FileProg

variable {text : List UInt8} {pos n m : Nat}

/-! ## Blanks and characters of a string -/

theorem wsLoop_stop {c : Int} (hspace : ¬ nkIsspace c = true) (fuel : Nat) :
    wsLoop fuel c = pure () := by
  cases fuel with
  | zero => rfl
  | succ fuel => exact if_neg hspace

theorem alike_wsLoop (hn : text.length ≤ n + pos) (hm : text.length ≤ m + pos) :
    Alike text (wsLoop n (charAt text pos)) (wsLoop m (charAt text pos)) pos
      fun _ pos' => pos ≤ pos' := by
  induction pos using reading_induction text generalizing n m with
  | step pos ih =>
      by_cases hspace : nkIsspace (charAt text pos) = true
      · have hchar : charAt text pos ≠ -1 := ne_end_of_test rfl hspace
        refine .of_le fun hpos => ?_
        have hlt := (charAt_ne_end hpos).mp hchar
        obtain ⟨n, rfl⟩ : ∃ k, n = k + 1 := ⟨n - 1, by omega⟩
        obtain ⟨m, rfl⟩ : ∃ k, m = k + 1 := ⟨m - 1, by omega⟩
        simp only [wsLoop, if_pos hspace]
        refine .nextFast hchar ((ih (pos + 1) (by omega) hlt (by omega) (by omega)).mono
          fun _ pos' h => ?_)
        omega
      · rw [wsLoop_stop hspace, wsLoop_stop hspace]
        exact .pure (Nat.le_refl _)

theorem alike_ws (hn : text.length ≤ n + pos) (hm : text.length ≤ m + pos) :
    Alike text (nkFscanWs n) (nkFscanWs m) pos fun _ pos' => pos ≤ pos' :=
  .peek (alike_wsLoop hn hm)

/-! ## Identifiers -/

theorem quotedLoop_stop {c : Int} (hmore : ¬ (c ≠ -1 ∧ c ≠ ch '"')) (fuel bufSize : Nat)
    (buf : List UInt8) : quotedLoop fuel c bufSize buf = pure (c, buf) := by
  cases fuel with
  | zero => rfl
  | succ fuel => exact if_neg hmore

theorem alike_quotedLoop (hn : text.length ≤ n + pos) (hm : text.length ≤ m + pos)
    (bufSize : Nat) (buf : List UInt8) :
    Alike text (quotedLoop n (charAt text pos) bufSize buf)
      (quotedLoop m (charAt text pos) bufSize buf) pos
      fun r pos' => pos ≤ pos' ∧ (r.1 = ch '"' → charAt text pos' ≠ -1) := by
  induction pos using reading_induction text generalizing n m bufSize buf with
  | step pos ih =>
      by_cases hmore : charAt text pos ≠ -1 ∧ charAt text pos ≠ ch '"'
      · refine .of_le fun hpos => ?_
        have hlt := (charAt_ne_end hpos).mp hmore.1
        obtain ⟨n, rfl⟩ : ∃ k, n = k + 1 := ⟨n - 1, by omega⟩
        obtain ⟨m, rfl⟩ : ∃ k, m = k + 1 := ⟨m - 1, by omega⟩
        simp only [quotedLoop, if_pos hmore]
        refine .step (stays_escape_closing hmore.1 hmore.2) fun c pos₁ h => ?_
        have hpos₁ := h.1
        refine .ite (fun hend => .pure ⟨by omega, fun h => ?_⟩) fun _ =>
          .peek (.of_le fun hle => ?_)
        · rw [hend] at h
          cases h
        · refine (ih pos₁ hpos₁ hle (by omega) (by omega) _ _).mono fun r pos' h => ⟨?_, h.2⟩
          omega
      · rw [quotedLoop_stop hmore, quotedLoop_stop hmore]
        refine .pure ⟨Nat.le_refl _, fun h : charAt text pos = ch '"' => ?_⟩
        rw [h]
        decide

theorem tokenLoop_stop {charOk : Int → Bool} {c width : Int}
    (hmore : ¬ (width ≠ 0 ∧ charOk c = true)) (quashCase : Bool) (fuel bufSize : Nat)
    (buf : List UInt8) (status : Bool) :
    tokenLoop quashCase charOk fuel c width bufSize buf status = pure (status, buf) := by
  cases fuel with
  | zero => rfl
  | succ fuel => exact if_neg hmore

theorem alike_tokenLoop {charOk : Int → Bool} (hend : charOk (-1) = false)
    (hn : text.length ≤ n + pos) (hm : text.length ≤ m + pos) (quashCase : Bool) (width : Int)
    (bufSize : Nat) (buf : List UInt8) (status : Bool) :
    Alike text (tokenLoop quashCase charOk n (charAt text pos) width bufSize buf status)
      (tokenLoop quashCase charOk m (charAt text pos) width bufSize buf status) pos
      fun r pos' => pos ≤ pos' ∧ (r.1 = true → status = true ∨ pos < pos') := by
  induction pos using reading_induction text generalizing n m width bufSize buf status with
  | step pos ih =>
      by_cases hmore : width ≠ 0 ∧ charOk (charAt text pos) = true
      · have hchar : charAt text pos ≠ -1 := ne_end_of_test hend hmore.2
        refine .of_le fun hpos => ?_
        have hlt := (charAt_ne_end hpos).mp hchar
        obtain ⟨n, rfl⟩ : ∃ k, n = k + 1 := ⟨n - 1, by omega⟩
        obtain ⟨m, rfl⟩ : ∃ k, m = k + 1 := ⟨m - 1, by omega⟩
        simp only [tokenLoop, if_pos hmore]
        refine .nextFast hchar ((ih (pos + 1) (by omega) hlt (by omega) (by omega) _ _ _ _).mono
          fun _ pos' h => ⟨by omega, fun _ => Or.inr (by omega)⟩)
      · rw [tokenLoop_stop hmore, tokenLoop_stop hmore]
        exact .pure ⟨Nat.le_refl _, Or.inl⟩

theorem alike_ident (hn : text.length ≤ n + pos) (hm : text.length ≤ m + pos) (quashCase : Bool)
    (width : Int) (bufSize : Nat) :
    Alike text (nkFscanIdent n quashCase width bufSize) (nkFscanIdent m quashCase width bufSize)
      pos (Advances (fun r => r.1) pos) := by
  refine .orRewind_advances (.peek ?_)
  refine .ite (fun hquote => ?_) fun _ => .ite (fun _ => ?_) fun _ => ?_
  · refine .nextFast (by rw [hquote]; decide) ?_
    refine .bind (alike_quotedLoop (by omega) (by omega) bufSize []) fun r pos₁ h => ?_
    obtain ⟨c, buf⟩ := r
    refine .ite (fun hclose => .nextFast (h.2 hclose) (.pure fun _ => ?_)) fun _ =>
      .pure fun _ => ?_
    · have := h.1
      omega
    · have := h.1
      omega
  · refine (alike_tokenLoop (by decide) hn hm quashCase width bufSize [] false).mono
      fun r pos' h hstatus => ?_
    simpa using h.2 hstatus
  · exact .pure fun h => by cases h

/-! ## Numbers -/

theorem digitLoop_stop {digit : Int → Option Int} {c width : Int}
    (hmore : ∀ d, digit c = some d → width = 0) (base fuel v : Nat) (status : Bool) :
    digitLoop base digit fuel c width v status = pure (status, v, c) := by
  cases fuel with
  | zero => rfl
  | succ fuel =>
      rw [digitLoop]
      split
      · rename_i d hdigit
        exact if_neg (not_not.mpr (hmore d hdigit))
      · rfl

theorem alike_digitLoop {digit : Int → Option Int} (hend : digit (-1) = none)
    (hn : text.length ≤ n + pos) (hm : text.length ≤ m + pos) (base : Nat) (width : Int) (v : Nat)
    (status : Bool) :
    Alike text (digitLoop base digit n (charAt text pos) width v status)
      (digitLoop base digit m (charAt text pos) width v status) pos
      fun r pos' => pos ≤ pos' ∧ (r.1 = true → status = true ∨ pos < pos') := by
  induction pos using reading_induction text generalizing n m width v status with
  | step pos ih =>
      by_cases hmore : ∀ d, digit (charAt text pos) = some d → width = 0
      · rw [digitLoop_stop hmore, digitLoop_stop hmore]
        exact .pure ⟨Nat.le_refl _, Or.inl⟩
      · obtain ⟨d, hdigit, hwidth⟩ : ∃ d, digit (charAt text pos) = some d ∧ width ≠ 0 := by
          simpa only [not_forall, exists_prop] using hmore
        have hchar : charAt text pos ≠ -1 := by
          intro hnone
          rw [hnone, hend] at hdigit
          cases hdigit
        refine .of_le fun hpos => ?_
        have hlt := (charAt_ne_end hpos).mp hchar
        obtain ⟨n, rfl⟩ : ∃ k, n = k + 1 := ⟨n - 1, by omega⟩
        obtain ⟨m, rfl⟩ : ∃ k, m = k + 1 := ⟨m - 1, by omega⟩
        simp only [digitLoop, hdigit, if_pos hwidth]
        refine .nextFast hchar ((ih (pos + 1) (by omega) hlt (by omega) (by omega) _ _ _).mono
          fun _ pos' h => ⟨by omega, fun _ => Or.inr (by omega)⟩)

theorem alike_hex (hn : text.length ≤ n + pos) (hm : text.length ≤ m + pos) (width : Int) :
    Alike text (nkFscanHex n width) (nkFscanHex m width) pos (Advances (fun r => r.1) pos) := by
  refine .orRewind_advances (.peek (.bind (alike_digitLoop rfl hn hm 16 width 0 false)
    fun r pos' h => .pure fun hstatus => ?_))
  simpa using h.2 hstatus

/-- `nk_fscan_double` of the library keeps to what the file allows, and reads a character when
it succeeds. -/
def Floats.Reads (fl : Floats) : Prop :=
  ∀ text pos, File.Stays text fl.scan pos fun r pos' => r.1 = true → pos < pos'

/-- With `fstrtod` it does. -/
theorem Floats.reads_fstrtod (fl : Floats) (fuel : Nat) (value : Bool → Magnitude → fl.Double)
    (zero : fl.Double) : Floats.Reads { fl with scan := nkFscanDouble fuel value zero } :=
  fun _ _ => stays_double fuel value zero

/-! ## Formats -/

/-- Blanks, characters and identifiers. -/
def Directive.simple : Directive → Bool
  | .blank | .lit _ | .ident _ | .succeed => true
  | _ => false

/-- A scan with these items reads something when it succeeds. -/
def reads : List Directive → Bool
  | .lit _ :: _ | .ident _ :: _ => true
  | .blank :: fmt => reads fmt
  | _ => false

section
variable (fl : Floats)

theorem alike_scanDirectives (hn : text.length ≤ n + pos) (hm : text.length ≤ m + pos)
    {fmt : List Directive} (hfmt : ∀ item ∈ fmt, item.simple = true) (args : List ScanArg)
    (out : List (Scanned fl)) (mem : Memory) :
    Alike text (scanDirectives fl n false fmt args out mem)
      (scanDirectives fl m false fmt args out mem) pos
      fun r pos' => pos ≤ pos' ∧ (r.1 = true → reads fmt = true → pos < pos') := by
  induction fmt generalizing n m pos args out with
  | nil => exact .peek (.pure ⟨Nat.le_refl _, fun _ h => by cases h⟩)
  | cons item fmt ih =>
      have hrest : ∀ item ∈ fmt, item.simple = true :=
        fun d hd => hfmt d (List.mem_cons_of_mem _ hd)
      cases item with
      | blank =>
          simp only [scanDirectives]
          refine .bind (alike_ws hn hm) fun _ pos₁ hpos₁ => ?_
          refine (ih (by omega) (by omega) hrest args out).mono fun r pos' h => ⟨by omega, ?_⟩
          intro hstatus hreads
          have hlater := h.2 hstatus hreads
          omega
      | lit c =>
          simp only [scanDirectives, Bool.false_eq_true, if_false]
          refine .peek (.ite (fun hsame => .nextFast (by rw [hsame]; omega) ?_) fun _ => ?_)
          · refine (ih (by omega) (by omega) hrest args out).mono fun r pos' h => ⟨by omega, ?_⟩
            intro _ _
            omega
          · exact .pure ⟨Nat.le_refl _, fun h => by cases h⟩
      | ident width =>
          have hmismatch : Alike text (pure (false, out, mem)) (pure (false, out, mem)) pos
              fun r pos' => pos ≤ pos' ∧
                (r.1 = true → reads (.ident width :: fmt) = true → pos < pos') :=
            .pure ⟨Nat.le_refl _, fun h => by cases h⟩
          cases args with
          | nil => exact hmismatch
          | cons arg args =>
              cases arg with
              | buf size =>
                  simp only [scanDirectives]
                  refine .bind (alike_ident hn hm false width size) fun r pos₁ h₁ => ?_
                  obtain ⟨status, buf⟩ := r
                  have hle := h₁.1
                  refine .ite (fun hstatus => ?_) fun _ => .pure ⟨hle, fun h => by cases h⟩
                  have hlt := h₁.2 hstatus
                  refine (ih (by omega) (by omega) hrest args _).mono fun r pos' h => ⟨by omega, ?_⟩
                  intro _ _
                  omega
              | num => exact hmismatch
              | value scan => exact hmismatch
              | real => exact hmismatch
      | succeed => exact .pure ⟨Nat.le_refl _, fun _ h => by cases h⟩
      | dec | hex | pointer | value | word | real =>
          cases hfmt _ List.mem_cons_self

/-- A scan of a format of such items. -/
theorem alike_vscan (hn : text.length ≤ n + pos) (hm : text.length ≤ m + pos) {fmt : String}
    (hfmt : ∀ item ∈ parseFmt (ascii fmt).length (ascii fmt), item.simple = true)
    (hreads : reads (parseFmt (ascii fmt).length (ascii fmt)) = true) (args : List ScanArg)
    (mem : Memory) :
    Alike text (nkVscan fl n false fmt args mem) (nkVscan fl m false fmt args mem) pos
      (Advances (fun r => r.1) pos) :=
  .orRewind_advances ((alike_scanDirectives fl hn hm hfmt args [] mem).mono
    fun _ _ h hstatus => h.2 hstatus hreads)

theorem alike_fscan (hn : text.length ≤ n + pos) (hm : text.length ≤ m + pos) {fmt : String}
    (hfmt : ∀ item ∈ parseFmt (ascii fmt).length (ascii fmt), item.simple = true)
    (hreads : reads (parseFmt (ascii fmt).length (ascii fmt)) = true) :
    Alike text (nkFscan fl n fmt) (nkFscan fl m fmt) pos (Advances (fun r => r) pos) :=
  .bind (alike_vscan fl hn hm hfmt hreads [] _) fun _ _ h => .pure h

theorem alike_fscanBuf (hn : text.length ≤ n + pos) (hm : text.length ≤ m + pos) {fmt : String}
    (hfmt : ∀ item ∈ parseFmt (ascii fmt).length (ascii fmt), item.simple = true)
    (hreads : reads (parseFmt (ascii fmt).length (ascii fmt)) = true) (size : Nat) :
    Alike text (nkFscanBuf fl n fmt size) (nkFscanBuf fl m fmt size) pos
      (Advances (fun r => r.1) pos) := by
  refine .bind (alike_vscan fl hn hm hfmt hreads [.buf size] _) fun r pos' h => ?_
  obtain ⟨status, out, mem⟩ := r
  dsimp only
  split
  · exact .pure h
  · exact .pure h

end

end LibnklabsPico.Text
