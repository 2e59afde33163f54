/-
  Dbase/Termination.lean --- the parsers of values end by themselves.

  `skip_value` and `nk_fscan_keyval` are compared with themselves on another amount of fuel.
  A pass of a loop that goes on, and a bracket that is entered, reads a character; so more
  fuel than the text has characters makes no difference to the calls they make.
-/
import LibnklabsPico.Dbase.Bounds
import LibnklabsPico.Text.Termination

set_option autoImplicit false

namespace LibnklabsPico.Dbase

open LibnklabsPico.Foundation
open LibnklabsPico.File
open LibnklabsPico.File.FileProg
open LibnklabsPico.Text


variable {text : List UInt8} {pos n m : Nat} {fl : Floats}

/-! ## Numbers -/

theorem decLoop_stop {digit : Int → Bool} {c : Int} (hdigit : ¬ digit c = true) (fuel num : Nat) :
    decLoop digit fuel c num = pure (num, c) := by
  cases fuel with
  | zero => rfl
  | succ fuel => exact if_neg hdigit

theorem alike_decLoop {digit : Int → Bool} (hend : digit (-1) = false)
    (hn : text.length ≤ n + pos) (hm : text.length ≤ m + pos) (num : Nat) :
    Alike text (decLoop digit n (charAt text pos) num) (decLoop digit m (charAt text pos) num) pos
      fun _ pos' => pos ≤ pos' ∧ (digit (charAt text pos) = true → pos < pos') := by
  induction pos using reading_induction text generalizing n m num with
  | step pos ih =>
      by_cases hdigit : digit (charAt text pos) = true
      · have hchar : charAt text pos ≠ -1 := ne_end_of_test hend hdigit
        refine .of_le fun hpos => ?_
        have hlt := (charAt_ne_end hpos).mp hchar
        obtain ⟨n, rfl⟩ : ∃ k, n = k + 1 := ⟨n - 1, by omega⟩
        obtain ⟨m, rfl⟩ : ∃ k, m = k + 1 := ⟨m - 1, by omega⟩
        simp only [decLoop, if_pos hdigit]
        refine .nextFast hchar ((ih (pos + 1) (by omega) hlt (by omega) (by omega) _).mono
          fun _ pos' h => ⟨by omega, fun _ => by omega⟩)
      · rw [decLoop_stop hdigit, decLoop_stop hdigit]
        exact .pure ⟨Nat.le_refl _, fun h => absurd h hdigit⟩

section
variable (hreads : fl.Reads)
include hreads

theorem stays_realReads (neg : Bool) :
    Stays text (scanReal fl neg) pos fun r pos' => r.1 = true → pos < pos' :=
  .bind (hreads text pos) fun _ _ h => .pure h

theorem alike_decNumber {digit : Int → Bool} (hend : digit (-1) = false)
    (hn : text.length ≤ n + pos) (hm : text.length ≤ m + pos) (neg : Bool) :
    Alike text (scanDecNumber fl digit n neg (charAt text pos))
      (scanDecNumber fl digit m neg (charAt text pos)) pos
      fun r pos' => r.1 = true → pos ≤ pos' ∧ (digit (charAt text pos) = true → pos < pos') := by
  refine .of_le fun hpos => .tell (.bind (alike_decLoop hend hn hm 0) fun r pos₁ h₁ => ?_)
  obtain ⟨num, c⟩ := r
  refine .ite (fun _ => ?_) fun _ => .pure fun _ => h₁
  refine .of_stays (.seek hpos fun _ => ?_)
  refine (stays_realReads hreads neg).mono fun r pos' h hstatus => ?_
  have hlt := h hstatus
  exact ⟨by omega, fun _ => hlt⟩

omit hreads in
theorem alike_hexNumber (neg : Bool) {skip : Nat} (hskip : pos + skip ≤ text.length)
    (hn : text.length ≤ n + pos) (hm : text.length ≤ m + pos) :
    Alike text (scanHexNumber fl n neg skip) (scanHexNumber fl m neg skip) pos
      fun r pos' => r.1 = true → pos < pos' := by
  have hseek : Stays text (fseekRel skip) pos fun _ pos' => pos' = pos + skip := by
    rw [← bind_pure (fseekRel skip)]
    exact .seekRel hskip (.pure rfl)
  refine .step hseek fun _ pos₁ hpos₁ => ?_
  refine .bind (alike_hex (by omega) (by omega) (-1)) fun r pos' h => .pure fun hstatus => ?_
  have hlt := h.2 hstatus
  omega

/-- A number that is read has a character. -/
theorem alike_scanNumber {negDigit : Int → Bool} (hend : negDigit (-1) = false)
    {negPoint : FileProg Bool}
    (hpoint : pos + 1 ≤ text.length → Stays text negPoint pos
      fun found pos' => pos ≤ pos' ∧ (found = true → charAt text pos' ≠ -1))
    (hn : text.length ≤ n + pos) (hm : text.length ≤ m + pos) :
    Alike text (scanNumber fl negDigit negPoint n (charAt text pos))
      (scanNumber fl negDigit negPoint m (charAt text pos)) pos
      fun r pos' => r.1 = true → pos < pos' := by
  refine .of_le fun hpos => ?_
  have hahead : ∀ {c : Int}, c ≠ -1 → (charAt text pos == c) = true → pos + 1 ≤ text.length := by
    intro c hc hchar
    rw [beq_iff_eq] at hchar
    exact (charAt_ne_end hpos).mp (by rwa [hchar])
  have hchar : (charAt text pos == ch '-') = true → charAt text pos ≠ -1 := fun h =>
    (charAt_ne_end hpos).mpr (hahead (by decide) h)
  have hhex : Stays text (andAlso (charAt text pos == ch '0') (nextIs 1 (ch 'x'))) pos
      fun found pos' => pos' = pos ∧ (found = true → pos + 2 ≤ text.length) :=
    stays_andAlso ⟨rfl, fun h => by cases h⟩ fun h =>
      stays_nextIs (by decide) (hahead (by decide) h)
  refine .step hhex fun hex pos₁ h₁ => ?_
  obtain ⟨rfl, hroom⟩ := h₁
  refine .ite (fun hfound => alike_hexNumber false (hroom hfound) hn hm) fun _ => ?_
  have hnegHex : Stays text
      (andAlso (charAt text pos₁ == ch '-') do
        let zero ← nextIs 1 (ch '0')
        andAlso zero (nextIs 2 (ch 'x')))
      pos₁ fun found pos' => pos' = pos₁ ∧ (found = true → pos₁ + 3 ≤ text.length) := by
    refine stays_andAlso ⟨rfl, fun h => by cases h⟩ fun h => ?_
    refine .bind (stays_nextIs (by decide) (hahead (by decide) h)) fun zero pos' hzero => ?_
    obtain ⟨rfl, hzero⟩ := hzero
    exact stays_andAlso ⟨rfl, fun h => by cases h⟩ fun h =>
      stays_nextIs (by decide) (hzero h)
  refine .step hnegHex fun negHex pos₂ h₂ => ?_
  obtain ⟨rfl, hroom⟩ := h₂
  refine .ite (fun hfound => alike_hexNumber true (hroom hfound) hn hm) fun _ => ?_
  refine .ite (fun hdigit => ?_) fun _ => ?_
  · exact (alike_decNumber hreads rfl hn hm false).mono fun r pos' h hstatus =>
      (h hstatus).2 hdigit
  have hnegDec : Stays text (andAlso (charAt text pos₂ == ch '-') nextIsDigit) pos₂
      fun found pos' => pos' = pos₂ ∧ (found = true → charAt text pos₂ ≠ -1) :=
    stays_andAlso ⟨rfl, fun h => by cases h⟩ fun h =>
      .peekRel (hahead (by decide) h) (.pure ⟨rfl, fun _ => hchar h⟩)
  refine .step hnegDec fun negDec pos₃ h₃ => ?_
  obtain ⟨rfl, hminus⟩ := h₃
  refine .ite (fun hfound => .nextFast (hminus hfound) ?_) fun _ => ?_
  · exact (alike_decNumber hreads hend (by omega) (by omega) true).mono
      fun r pos' h hstatus => (h hstatus).1
  have hnegReal : Stays text (andAlso (charAt text pos₃ == ch '-') negPoint) pos₃
      fun found pos' => pos₃ ≤ pos' ∧ (found = true → charAt text pos' ≠ -1) :=
    stays_andAlso ⟨Nat.le_refl _, fun h => by cases h⟩ fun h => hpoint (hahead (by decide) h)
  refine .step hnegReal fun negReal pos₄ h₄ => ?_
  have hreal (neg : Bool) {first : Nat} (hle : pos₃ ≤ first) :
      Alike text (scanReal fl neg) (scanReal fl neg) first fun r pos' => r.1 = true → pos₃ < pos' :=
    .of_stays ((stays_realReads hreads neg).mono fun r pos' h hstatus =>
      Nat.lt_of_le_of_lt hle (h hstatus))
  refine .ite (fun hfound => .nextFast (h₄.2 hfound) (hreal true (by omega))) fun _ => ?_
  exact .ite (fun _ => hreal false h₄.1) fun _ => .pure fun h => by cases h

omit hreads in
theorem stays_pointHere (hroom : pos + 1 ≤ text.length) :
    Stays text (nextIs 1 (ch '.')) pos fun found pos' =>
      pos ≤ pos' ∧ (found = true → charAt text pos' ≠ -1) := by
  have hplace : Stays text (nextIs 1 (ch '.')) pos fun _ pos' => pos' = pos :=
    (stays_nextIs (by decide) hroom).mono fun _ _ h => h.1
  exact (hplace.and (stays_point hroom)).mono fun _ _ h => ⟨Nat.le_of_eq h.1.symm, h.2⟩

theorem alike_intNumber (hn : text.length ≤ n + pos) (hm : text.length ≤ m + pos) :
    Alike text (scanIntNumber fl n (charAt text pos)) (scanIntNumber fl m (charAt text pos)) pos
      fun r pos' => r.1 = true → pos < pos' :=
  alike_scanNumber hreads rfl stays_pointHere hn hm

theorem alike_doubleNumber (hn : text.length ≤ n + pos) (hm : text.length ≤ m + pos) :
    Alike text (scanDoubleNumber fl n (charAt text pos)) (scanDoubleNumber fl m (charAt text pos))
      pos fun r pos' => r.1 = true → pos < pos' := by
  refine alike_scanNumber hreads rfl (fun hroom => .seekRel hroom (.pure ⟨by omega, ?_⟩)) hn hm
  intro hfound
  rw [beq_iff_eq] at hfound
  rw [hfound]
  decide

theorem alike_floatNumber (hn : text.length ≤ n + pos) (hm : text.length ≤ m + pos) :
    Alike text (scanFloatNumber fl n (charAt text pos)) (scanFloatNumber fl m (charAt text pos))
      pos fun r pos' => r.1 = true → pos < pos' :=
  alike_scanNumber hreads rfl stays_pointHere hn hm

end

/-! ## Skipping a value -/

section Skip

variable {skip skip' : FileProg Bool} {first i j : Nat}

theorem alike_closing {c : Int} (hc : c ≠ -1) (rtn : Bool) :
    Alike text (closing c rtn) (closing c rtn) pos fun _ pos' => pos ≤ pos' := by
  refine .peek (.ite (fun hclose => ?_) fun _ => .pure (Nat.le_refl _))
  exact .nextFast (by rwa [hclose]) (.pure (Nat.le_succ _))

variable (fl) in
/-- Each pass but the last reads a comma. -/
theorem alike_commaLoop (hn : text.length ≤ n + pos) (hm : text.length ≤ m + pos)
    (hi : text.length < i + pos) (hj : text.length < j + pos) :
    Alike text (commaLoop fl n i) (commaLoop fl m j) pos fun _ pos' => pos ≤ pos' := by
  induction pos using reading_induction text generalizing i j with
  | step pos ih =>
      refine .of_le fun hpos => ?_
      obtain ⟨i, rfl⟩ : ∃ k, i = k + 1 := ⟨i - 1, by omega⟩
      obtain ⟨j, rfl⟩ : ∃ k, j = k + 1 := ⟨j - 1, by omega⟩
      simp only [commaLoop]
      refine .bind (alike_fscan fl hn hm (by decide) (by decide)) fun more pos₁ h₁ => ?_
      have hle := h₁.1
      refine .ite (fun hmore => .of_le fun hpos₁ => ?_) fun _ => .pure hle
      have hlt := h₁.2 hmore
      refine (ih pos₁ hlt hpos₁ (by omega) (by omega) (by omega) (by omega)).mono fun _ pos' h => ?_
      omega

variable (hskip : ∀ pos, first ≤ pos → Alike text skip skip' pos (Advances (fun r => r) pos))

variable (fl) in
include hskip in
/-- Each pass but the last reads the name of a member. -/
theorem alike_skipMembers (hfirst : first ≤ pos) (hn : text.length ≤ n + pos)
    (hm : text.length ≤ m + pos) (hi : text.length < i + pos) (hj : text.length < j + pos) :
    Alike text (skipMembers fl skip n i) (skipMembers fl skip' m j) pos
      fun _ pos' => pos ≤ pos' := by
  induction pos using reading_induction text generalizing i j with
  | step pos ih =>
      refine .of_le fun hpos => ?_
      obtain ⟨i, rfl⟩ : ∃ k, i = k + 1 := ⟨i - 1, by omega⟩
      obtain ⟨j, rfl⟩ : ∃ k, j = k + 1 := ⟨j - 1, by omega⟩
      simp only [skipMembers]
      refine .bind (alike_fscanBuf fl hn hm (by decide) (by decide) _) fun r pos₁ h₁ => ?_
      obtain ⟨found, buf⟩ := r
      have hle₁ := h₁.1
      refine .ite (fun hfound => ?_) fun _ => .pure hle₁
      have hlt := h₁.2 hfound
      refine .bind (hskip pos₁ (by omega)) fun rtn pos₂ h₂ => ?_
      have hle₂ := h₂.1
      refine .ite (fun _ => .of_le fun hpos₂ => ?_) fun _ => .pure (by omega)
      refine .bind (alike_commaLoop fl (by omega) (by omega) (by omega) (by omega))
        fun _ pos₃ h₃ => .of_le fun hpos₃ => ?_
      refine (ih pos₃ (by omega) hpos₃ (by omega) (by omega) (by omega) (by omega) (by omega)).mono
        fun _ pos' h => ?_
      omega

include hskip in
/-- Each pass but the last reads a comma or a value. -/
theorem alike_skipItems (hfirst : first ≤ pos) (hn : text.length ≤ n + pos)
    (hm : text.length ≤ m + pos) (hi : text.length < i + pos) (hj : text.length < j + pos) :
    Alike text (skipItems skip n i) (skipItems skip' m j) pos fun _ pos' => pos ≤ pos' := by
  induction pos using reading_induction text generalizing i j with
  | step pos ih =>
      refine .of_le fun hpos => ?_
      obtain ⟨i, rfl⟩ : ∃ k, i = k + 1 := ⟨i - 1, by omega⟩
      obtain ⟨j, rfl⟩ : ∃ k, j = k + 1 := ⟨j - 1, by omega⟩
      simp only [skipItems]
      refine .bind (alike_ws hn hm) fun _ pos₁ h₁ => ?_
      refine .feof fun atEnd hend => ?_
      have hmore : Stays text (andAlso (atEnd == 0) do
          let c ← fpeekFast
          pure (c != ch ']')) pos₁ fun _ pos' => pos' = pos₁ :=
        stays_andAlso rfl fun h => .peekFast (hend (by simpa using h)) (.pure rfl)
      refine .step hmore fun more pos₂ hpos₂ => ?_
      subst hpos₂
      refine .ite (fun _ => .peek (.ite (fun hcomma => ?_) fun _ => ?_)) fun _ => .pure h₁
      · refine .nextFast (by rw [hcomma]; decide) (.of_le fun hpos₃ => ?_)
        refine (ih (pos₂ + 1) (by omega) hpos₃ (by omega) (by omega) (by omega) (by omega)
          (by omega)).mono fun _ pos' h => ?_
        omega
      · refine .bind (hskip pos₂ (by omega)) fun rtn pos₃ h₃ => ?_
        have hle := h₃.1
        refine .ite (fun hrtn => .of_le fun hpos₃ => ?_) fun _ => .pure (by omega)
        have hlt := h₃.2 hrtn
        refine (ih pos₃ (by omega) hpos₃ (by omega) (by omega) (by omega) (by omega)
          (by omega)).mono fun _ pos' h => ?_
        omega

variable (fl) in
/-- Each pass but the last reads the name of a column. -/
theorem alike_skipColumns (hn : text.length ≤ n + pos) (hm : text.length ≤ m + pos)
    (hi : text.length < i + pos) (hj : text.length < j + pos) :
    Alike text (skipColumns fl n i) (skipColumns fl m j) pos fun _ pos' => pos ≤ pos' := by
  induction pos using reading_induction text generalizing i j with
  | step pos ih =>
      refine .of_le fun hpos => ?_
      obtain ⟨i, rfl⟩ : ∃ k, i = k + 1 := ⟨i - 1, by omega⟩
      obtain ⟨j, rfl⟩ : ∃ k, j = k + 1 := ⟨j - 1, by omega⟩
      simp only [skipColumns]
      refine .bind (alike_fscanBuf fl hn hm (by decide) (by decide) _) fun r pos₁ h₁ => ?_
      obtain ⟨found, buf⟩ := r
      have hle := h₁.1
      refine .ite (fun hfound => .of_le fun hpos₁ => ?_) fun _ => .pure hle
      have hlt := h₁.2 hfound
      refine (ih pos₁ hlt hpos₁ (by omega) (by omega) (by omega) (by omega)).mono fun _ pos' h => ?_
      omega

include hskip in
/-- Each pass but the last reads a value. -/
theorem alike_skipFields (hfirst : first ≤ pos) (hn : text.length ≤ n + pos)
    (hm : text.length ≤ m + pos) (hi : text.length < i + pos) (hj : text.length < j + pos) :
    Alike text (skipFields skip n i) (skipFields skip' m j) pos fun _ pos' => pos ≤ pos' := by
  induction pos using reading_induction text generalizing i j with
  | step pos ih =>
      refine .of_le fun hpos => ?_
      obtain ⟨i, rfl⟩ : ∃ k, i = k + 1 := ⟨i - 1, by omega⟩
      obtain ⟨j, rfl⟩ : ∃ k, j = k + 1 := ⟨j - 1, by omega⟩
      simp only [skipFields]
      refine .bind (alike_ws hn hm) fun _ pos₁ h₁ => .feof fun atEnd hend => ?_
      have hmore : Stays text (andAlso (atEnd == 0) do
          let c ← fpeekFast
          let d ← fpeekFast
          pure (c != ch ':' && d != ch ')')) pos₁ fun _ pos' => pos' = pos₁ :=
        stays_andAlso rfl fun h =>
          .peekFast (hend (by simpa using h)) (.peekFast (hend (by simpa using h)) (.pure rfl))
      refine .step hmore fun more pos₂ hpos₂ => ?_
      subst hpos₂
      refine .ite (fun _ => ?_) fun _ => .pure h₁
      refine .bind (alike_ws (by omega) (by omega)) fun _ pos₃ h₃ => ?_
      refine .bind (hskip pos₃ (by omega)) fun rtn pos₄ h₄ => ?_
      have hle := h₄.1
      refine .ite (fun hrtn => .of_le fun hpos₄ => ?_) fun _ => .pure (by omega)
      have hlt := h₄.2 hrtn
      refine (ih pos₄ (by omega) hpos₄ (by omega) (by omega) (by omega) (by omega)
        (by omega)).mono fun _ pos' h => ?_
      omega

variable (fl) in
include hskip in
/-- Each pass but the last reads a colon. -/
theorem alike_skipRows (hfirst : first ≤ pos) (hn : text.length < n + pos)
    (hm : text.length < m + pos) (hi : text.length < i + pos) (hj : text.length < j + pos) :
    Alike text (skipRows fl skip n i) (skipRows fl skip' m j) pos fun _ pos' => pos ≤ pos' := by
  induction pos using reading_induction text generalizing i j with
  | step pos ih =>
      refine .of_le fun hpos => ?_
      obtain ⟨i, rfl⟩ : ∃ k, i = k + 1 := ⟨i - 1, by omega⟩
      obtain ⟨j, rfl⟩ : ∃ k, j = k + 1 := ⟨j - 1, by omega⟩
      simp only [skipRows]
      refine .bind (alike_fscan fl (by omega) (by omega) (by decide) (by decide))
        fun more pos₁ h₁ => ?_
      have hle := h₁.1
      refine .ite (fun hmore => ?_) fun _ => .pure hle
      have hlt := h₁.2 hmore
      refine .bind (alike_skipFields hskip (by omega) (by omega) (by omega) (by omega) (by omega))
        fun rtn pos₂ h₂ => ?_
      refine .ite (fun _ => .of_le fun hpos₂ => ?_) fun _ => .pure (by omega)
      refine (ih pos₂ (by omega) hpos₂ (by omega) (by omega) (by omega) (by omega)
        (by omega)).mono fun _ pos' h => ?_
      omega

theorem skipChars_stop {c : Int} (hmore : ¬ (c ≠ -1 ∧ c ≠ ch '"')) (fuel : Nat) :
    skipChars fuel c = pure c := by
  cases fuel with
  | zero => rfl
  | succ fuel => exact if_neg hmore

theorem alike_skipChars (hn : text.length ≤ n + pos) (hm : text.length ≤ m + pos) :
    Alike text (skipChars n (charAt text pos)) (skipChars m (charAt text pos)) pos
      fun _ pos' => pos ≤ pos' := by
  induction pos using reading_induction text generalizing n m with
  | step pos ih =>
      by_cases hmore : charAt text pos ≠ -1 ∧ charAt text pos ≠ ch '"'
      · refine .of_le fun hpos => ?_
        have hlt := (charAt_ne_end hpos).mp hmore.1
        obtain ⟨n, rfl⟩ : ∃ k, n = k + 1 := ⟨n - 1, by omega⟩
        obtain ⟨m, rfl⟩ : ∃ k, m = k + 1 := ⟨m - 1, by omega⟩
        simp only [skipChars, if_pos hmore]
        refine .step (stays_escape_closing hmore.1 hmore.2) fun _ pos₁ h₁ => .peek ?_
        have hlt₁ := h₁.1
        refine .of_le fun hpos₁ => ?_
        refine (ih pos₁ hlt₁ hpos₁ (by omega) (by omega)).mono fun _ pos' h => ?_
        omega
      · rw [skipChars_stop hmore, skipChars_stop hmore]
        exact .pure (Nat.le_refl _)

include hskip in
/-- The value behind a bracket is skipped behind it. -/
theorem alike_skipBranches (hreads : fl.Reads) (hfirst : first ≤ pos + 1)
    (hn : text.length ≤ n + pos) (hm : text.length ≤ m + pos) :
    Alike text (skipBranches fl skip n (charAt text pos))
      (skipBranches fl skip' m (charAt text pos)) pos fun r pos' => r = true → pos < pos' := by
  refine .ite (fun hopen => ?_) fun _ => .ite (fun hopen => ?_) fun _ => .ite (fun hopen => ?_)
    fun _ => .ite (fun hopen => ?_) fun _ => ?_
  · refine .nextFast (by rw [hopen]; decide) ?_
    refine .bind (alike_skipMembers fl hskip hfirst (by omega) (by omega) (by omega) (by omega))
      fun done pos₁ h₁ => ?_
    refine .ite (fun _ => ?_) fun _ => .pure fun h => by cases h
    refine (alike_closing (by decide) true).mono fun _ pos' h _ => ?_
    omega
  · refine .nextFast (by rw [hopen]; decide) ?_
    refine .bind (alike_skipItems hskip hfirst (by omega) (by omega) (by omega) (by omega))
      fun done pos₁ h₁ => ?_
    refine .ite (fun _ => .peek (.ite (fun hclose => ?_) fun _ => ?_)) fun _ => ?_
    · refine .next (by rw [hclose]; decide) fun _ => .pure fun _ => ?_
      omega
    · exact .pure fun h => by cases h
    · exact .pure fun h => by cases h
  · refine .next (by rw [hopen]; decide) fun _ => ?_
    refine .bind (alike_skipColumns fl (by omega) (by omega) (by omega) (by omega))
      fun _ pos₁ h₁ => ?_
    refine .bind (alike_skipRows fl hskip (by omega) (by omega) (by omega) (by omega) (by omega))
      fun done pos₂ h₂ => ?_
    refine .ite (fun _ => ?_) fun _ => .pure fun h => by cases h
    refine (alike_fscan fl (by omega) (by omega) (by decide) (by decide)).mono fun _ pos' h _ => ?_
    have hle := h.1
    omega
  · refine .nextFast (by rw [hopen]; decide) ?_
    refine .bind (alike_skipChars (by omega) (by omega)) fun _ pos₁ h₁ => .pure fun _ => ?_
    omega
  · exact .bind (alike_intNumber hreads hn hm) fun _ _ h => .pure h

end Skip

/-- `skip_value` on two amounts of fuel. -/
theorem alike_skipValue (hreads : fl.Reads) (hn : text.length < n + pos)
    (hm : text.length < m + pos) :
    Alike text (skipValue fl n) (skipValue fl m) pos (Advances (fun r => r) pos) := by
  induction n generalizing m pos with
  | zero =>
      refine .of_le fun hpos => ?_
      omega
  | succ n ih =>
      refine .of_le fun hpos => ?_
      obtain ⟨m, rfl⟩ : ∃ k, m = k + 1 := ⟨m - 1, by omega⟩
      simp only [skipValue]
      refine .orRewind_advances ?_
      refine .bind (alike_fscan fl (by omega) (by omega) (by decide) (by decide))
        fun isTrue pos₁ h₁ => ?_
      have hle₁ := h₁.1
      refine .ite (fun htrue => .pure fun _ => h₁.2 htrue) fun _ => ?_
      refine .bind (alike_fscan fl (by omega) (by omega) (by decide) (by decide))
        fun isFalse pos₂ h₂ => ?_
      have hle₂ := h₂.1
      refine .ite (fun hfalse => .pure fun _ => ?_) fun _ => ?_
      · have hlt := h₂.2 hfalse
        omega
      refine .bind (alike_fscan fl (by omega) (by omega) (by decide) (by decide))
        fun isNull pos₃ h₃ => ?_
      have hle₃ := h₃.1
      refine .ite (fun hnull => .pure fun _ => ?_) fun _ => .peek ?_
      · have hlt := h₃.2 hnull
        omega
      · have hskip : ∀ pos', pos₃ + 1 ≤ pos' → Alike text (skipValue fl n) (skipValue fl m) pos'
            (Advances (fun r => r) pos') := fun pos' hpos' => ih (by omega) (by omega)
        refine (alike_skipBranches hskip hreads (Nat.le_refl _) (by omega) (by omega)).mono
          fun _ pos' h hgood => ?_
        have hlt := h hgood
        omega

/-! ## Parsing a value -/

section Values

variable {value value' : Ty → ValueScan} {skip skip' : FileProg Bool} {first i j : Nat}

theorem stringLoop_stop {c : Int} (hmore : ¬ (c ≠ -1 ∧ c ≠ ch '"')) (size fuel : Nat)
    (s : List UInt8) : stringLoop size fuel c s = pure (c, s) := by
  cases fuel with
  | zero => rfl
  | succ fuel => exact if_neg hmore

theorem alike_stringLoop (hn : text.length ≤ n + pos) (hm : text.length ≤ m + pos) (size : Nat)
    (s : List UInt8) :
    Alike text (stringLoop size n (charAt text pos) s) (stringLoop size m (charAt text pos) s) pos
      fun r pos' => pos ≤ pos' ∧ (r.1 = ch '"' → charAt text pos' ≠ -1) := by
  induction pos using reading_induction text generalizing n m s with
  | step pos ih =>
      by_cases hmore : charAt text pos ≠ -1 ∧ charAt text pos ≠ ch '"'
      · refine .of_le fun hpos => ?_
        have hlt := (charAt_ne_end hpos).mp hmore.1
        obtain ⟨n, rfl⟩ : ∃ k, n = k + 1 := ⟨n - 1, by omega⟩
        obtain ⟨m, rfl⟩ : ∃ k, m = k + 1 := ⟨m - 1, by omega⟩
        simp only [stringLoop, if_pos hmore]
        refine .step (stays_escape_closing hmore.1 hmore.2) fun c pos₁ h₁ => ?_
        have hlt₁ := h₁.1
        refine .ite (fun _ => .pure ⟨by omega, fun h => absurd h hmore.2⟩) fun _ => .peek ?_
        refine .of_le fun hpos₁ => (ih pos₁ hlt₁ hpos₁ (by omega) (by omega) _).mono
          fun r pos' h => ⟨?_, h.2⟩
        omega
      · rw [stringLoop_stop hmore, stringLoop_stop hmore]
        refine .pure ⟨Nat.le_refl _, fun h : charAt text pos = ch '"' => ?_⟩
        rw [h]
        decide

/-- A string from its opening quote on. -/
theorem alike_scanString (hquote : charAt text pos = ch '"') (hn : text.length ≤ n + pos)
    (hm : text.length ≤ m + pos) (size location : Nat) (mem : Memory) :
    Alike text (scanString n size location mem) (scanString m size location mem) pos
      fun r pos' => r.1 = true → pos < pos' := by
  refine .nextFast (by rw [hquote]; decide) ?_
  refine .bind (alike_stringLoop (by omega) (by omega) _ []) fun r pos₁ h₁ => ?_
  obtain ⟨c, s⟩ := r
  have hle := h₁.1
  refine .ite (fun hclose => .nextFast (h₁.2 hclose) (.pure fun _ => ?_)) fun _ =>
    .pure fun h => by cases h
  omega

variable (hskip : ∀ pos, first ≤ pos → Alike text skip skip' pos (Advances (fun r => r) pos))
variable (hvalue : ∀ type location mem pos, first ≤ pos →
  Alike text (value type location mem) (value' type location mem) pos (Advances (fun r => r.1) pos))

variable (fl) in
include hskip hvalue in
/-- Each pass but the last reads the name of a member, known or not. -/
theorem alike_structLoop (hfirst : first ≤ pos) (hn : text.length ≤ n + pos)
    (hm : text.length ≤ m + pos) (hi : text.length < i + pos) (hj : text.length < j + pos)
    (members : List Member) (location : Nat) (rtn : Bool) (mem : Memory) :
    Alike text (structLoop fl value skip n members location i rtn mem)
      (structLoop fl value' skip' m members location j rtn mem) pos fun _ pos' => pos ≤ pos' := by
  induction pos using reading_induction text generalizing i j rtn mem with
  | step pos ih =>
      refine .of_le fun hpos => ?_
      obtain ⟨i, rfl⟩ : ∃ k, i = k + 1 := ⟨i - 1, by omega⟩
      obtain ⟨j, rfl⟩ : ∃ k, j = k + 1 := ⟨j - 1, by omega⟩
      simp only [structLoop]
      refine .bind (alike_ws hn hm) fun _ pos₁ h₁ => ?_
      refine .bind (alike_fscanBuf fl (by omega) (by omega) (by decide) (by decide) _)
        fun r pos₂ h₂ => ?_
      obtain ⟨found, buf⟩ := r
      have hle₂ := h₂.1
      refine .ite (fun hfound => ?_) fun _ => .pure (by omega)
      have hlt := h₂.2 hfound
      -- behind the member the loop goes on
      have hgoes {pos₃ : Nat} (hpos₃ : pos₂ ≤ pos₃) (rtn : Bool) (mem : Memory) :
          Alike text
            (commaLoop fl n n >>= fun _ => structLoop fl value skip n members location i rtn mem)
            (commaLoop fl m m >>= fun _ => structLoop fl value' skip' m members location j rtn mem)
            pos₃ fun _ pos' => pos ≤ pos' := by
        refine .bind (alike_commaLoop fl (by omega) (by omega) (by omega) (by omega))
          fun _ pos₄ hpos₄ => .of_le fun hle₄ => ?_
        refine (ih pos₄ (by omega) hle₄ (by omega) (by omega) (by omega) (by omega) (by omega)
          rtn mem).mono fun _ pos' h => ?_
        omega
      cases findMember members buf with
      | none => exact .bind (hskip pos₂ (by omega)) fun _ pos₃ h₃ => hgoes h₃.1 rtn mem
      | some member =>
          obtain ⟨name, type, offset⟩ := member
          refine .bind (hvalue type _ mem pos₂ (by omega)) fun r pos₃ h₃ => ?_
          obtain ⟨rtn, mem⟩ := r
          have hle₃ := h₃.1
          refine .ite (fun _ => hgoes h₃.1 true mem) fun _ => ?_
          refine .bind (hskip pos₃ (by omega)) fun rtn pos₄ h₄ => ?_
          have hle₄ := h₄.1
          exact .ite (fun _ => hgoes (by omega) true mem) fun _ => .pure (by omega)

include hskip hvalue in
/-- Each pass but the last reads a comma or an item, saved or not. -/
theorem alike_arrayLoop (hfirst : first ≤ pos) (hn : text.length ≤ n + pos)
    (hm : text.length ≤ m + pos) (hi : text.length < i + pos) (hj : text.length < j + pos)
    (subtype : Ty) (base size itemSize idx : Nat) (rtn : Bool) (mem : Memory) :
    Alike text (arrayLoop (value subtype) skip n base size itemSize i idx rtn mem)
      (arrayLoop (value' subtype) skip' m base size itemSize j idx rtn mem) pos
      fun _ pos' => pos ≤ pos' := by
  induction pos using reading_induction text generalizing i j idx rtn mem with
  | step pos ih =>
      refine .of_le fun hpos => ?_
      obtain ⟨i, rfl⟩ : ∃ k, i = k + 1 := ⟨i - 1, by omega⟩
      obtain ⟨j, rfl⟩ : ∃ k, j = k + 1 := ⟨j - 1, by omega⟩
      simp only [arrayLoop]
      refine .bind (alike_ws hn hm) fun _ pos₁ h₁ => .peek ?_
      have hgoes {pos₂ : Nat} (hpos₂ : pos₁ < pos₂) (idx : Nat) (rtn : Bool) (mem : Memory) :
          Alike text (arrayLoop (value subtype) skip n base size itemSize i idx rtn mem)
            (arrayLoop (value' subtype) skip' m base size itemSize j idx rtn mem) pos₂
            fun _ pos' => pos ≤ pos' := by
        refine .of_le fun hle => ?_
        refine (ih pos₂ (by omega) hle (by omega) (by omega) (by omega) (by omega) (by omega)
          idx rtn mem).mono fun _ pos' h => ?_
        omega
      refine .ite (fun hmore => .ite (fun _ => ?_) fun _ => .ite (fun _ => ?_) fun _ => ?_)
        fun _ => .pure h₁
      · exact .nextFast hmore.1 (hgoes (Nat.lt_succ_self _) idx rtn mem)
      · refine .bind (hvalue subtype _ mem pos₁ (by omega)) fun r pos₂ h₂ => ?_
        obtain ⟨rtn, mem⟩ := r
        have hle := h₂.1
        exact .ite (fun hrtn => hgoes (h₂.2 hrtn) _ true mem) fun _ => .pure (by omega)
      · refine .bind (hskip pos₁ (by omega)) fun rtn pos₂ h₂ => ?_
        have hle := h₂.1
        exact .ite (fun hrtn => hgoes (h₂.2 hrtn) idx true mem) fun _ => .pure (by omega)

variable (fl) in
/-- Each pass but the last reads the name of a column. -/
theorem alike_columnLoop (hn : text.length ≤ n + pos) (hm : text.length ≤ m + pos)
    (hi : text.length < i + pos) (hj : text.length < j + pos) (columns : List Member) (col : Nat)
    (map : List (Option Member)) :
    Alike text (columnLoop fl columns n i col map) (columnLoop fl columns m j col map) pos
      fun _ pos' => pos ≤ pos' := by
  induction pos using reading_induction text generalizing i j col map with
  | step pos ih =>
      refine .of_le fun hpos => ?_
      obtain ⟨i, rfl⟩ : ∃ k, i = k + 1 := ⟨i - 1, by omega⟩
      obtain ⟨j, rfl⟩ : ∃ k, j = k + 1 := ⟨j - 1, by omega⟩
      simp only [columnLoop]
      refine .bind (alike_fscanBuf fl hn hm (by decide) (by decide) _) fun r pos₁ h₁ => ?_
      obtain ⟨found, buf⟩ := r
      have hle := h₁.1
      refine .ite (fun hfound => ?_) fun _ => .pure hle
      have hlt := h₁.2 hfound
      have hgoes (map : List (Option Member)) :
          Alike text (columnLoop fl columns n i (col + 1) map)
            (columnLoop fl columns m j (col + 1) map) pos₁ fun _ pos' => pos ≤ pos' := by
        refine .of_le fun hpos₁ => ?_
        refine (ih pos₁ hlt hpos₁ (by omega) (by omega) (by omega) (by omega) _ map).mono
          fun _ pos' h => ?_
        omega
      cases findMember columns buf with
      | none => exact hgoes map
      | some member => exact hgoes (map.set col (some member))

include hskip hvalue in
theorem alike_fieldLoop (hfirst : first ≤ pos) (hn : text.length ≤ n + pos)
    (hm : text.length ≤ m + pos) (location : Nat) (full : Bool) (map : List (Option Member))
    (rtn : Bool) (mem : Memory) :
    Alike text (fieldLoop value skip n location full map rtn mem)
      (fieldLoop value' skip' m location full map rtn mem) pos fun _ pos' => pos ≤ pos' := by
  induction map generalizing pos rtn mem with
  | nil => exact .pure (Nat.le_refl _)
  | cons x map ih =>
      have hgoes {pos₁ : Nat} (hpos₁ : pos ≤ pos₁) (mem : Memory) :
          Alike text (fieldLoop value skip n location full map true mem)
            (fieldLoop value' skip' m location full map true mem) pos₁ fun _ pos' => pos ≤ pos' :=
        (ih (by omega) (by omega) (by omega) true mem).mono fun _ pos' h => Nat.le_trans hpos₁ h
      simp only [fieldLoop]
      cases (if full = true then none else x) with
      | none =>
          refine .bind (hskip pos hfirst) fun rtn pos₁ h₁ => ?_
          exact .ite (fun _ => hgoes h₁.1 mem) fun _ => .pure h₁.1
      | some member =>
          obtain ⟨name, type, offset⟩ := member
          refine .bind (alike_ws hn hm) fun _ pos₁ hpos₁ => ?_
          refine .bind (hvalue type _ mem pos₁ (by omega)) fun r pos₂ h₂ => ?_
          obtain ⟨rtn, mem⟩ := r
          have hle : pos ≤ pos₂ := Nat.le_trans hpos₁ h₂.1
          exact .ite (fun _ => hgoes hle mem) fun _ => .pure hle

variable (fl) in
include hskip hvalue in
/-- Each pass but the last reads a colon. -/
theorem alike_rowLoop (hfirst : first ≤ pos) (hn : text.length ≤ n + pos)
    (hm : text.length ≤ m + pos) (hi : text.length < i + pos) (hj : text.length < j + pos)
    (rowSize maxrows : Nat) (map : List (Option Member)) (row location : Nat) (rtn : Bool)
    (mem : Memory) :
    Alike text (rowLoop fl value skip n rowSize maxrows map i row location rtn mem)
      (rowLoop fl value' skip' m rowSize maxrows map j row location rtn mem) pos
      fun _ pos' => pos ≤ pos' := by
  induction pos using reading_induction text generalizing i j row location rtn mem with
  | step pos ih =>
      refine .of_le fun hpos => ?_
      obtain ⟨i, rfl⟩ : ∃ k, i = k + 1 := ⟨i - 1, by omega⟩
      obtain ⟨j, rfl⟩ : ∃ k, j = k + 1 := ⟨j - 1, by omega⟩
      simp only [rowLoop]
      refine .bind (alike_fscan fl hn hm (by decide) (by decide)) fun more pos₁ h₁ => ?_
      have hle := h₁.1
      refine .ite (fun hmore => ?_) fun _ => .pure hle
      have hlt := h₁.2 hmore
      refine .bind (alike_fieldLoop hskip hvalue (by omega) (by omega) (by omega) _ _ _ _ _)
        fun r pos₂ h₂ => .of_le fun hpos₂ => ?_
      obtain ⟨rtn, mem⟩ := r
      refine (ih pos₂ (by omega) hpos₂ (by omega) (by omega) (by omega) (by omega) (by omega)
        _ _ rtn mem).mono fun _ pos' h => ?_
      omega

theorem alike_scanBool (hn : text.length ≤ n + pos) (hm : text.length ≤ m + pos) (location : Nat)
    (mem : Memory) :
    Alike text (scanBool fl n location mem) (scanBool fl m location mem) pos
      fun r pos' => r.1 = true → pos < pos' := by
  refine .bind (alike_fscan fl hn hm (by decide) (by decide)) fun isTrue pos₁ h₁ => ?_
  have hle := h₁.1
  refine .ite (fun htrue => .pure fun _ => h₁.2 htrue) fun _ => ?_
  refine .bind (alike_fscan fl (by omega) (by omega) (by decide) (by decide))
    fun isFalse pos₂ h₂ => ?_
  refine .ite (fun hfalse => .pure fun _ => ?_) fun _ => .pure fun h => by cases h
  have hlt := h₂.2 hfalse
  omega

theorem alike_saveNumber {scan scan' : FileProg (Bool × Option (Number fl))}
    (hscan : Alike text scan scan' pos fun r pos' => r.1 = true → pos < pos')
    (save : Number fl → Memory) (mem : Memory) :
    Alike text (saveNumber fl save mem scan) (saveNumber fl save mem scan') pos
      fun r pos' => r.1 = true → pos < pos' := by
  refine .bind hscan fun r pos' h => ?_
  obtain ⟨sta, num⟩ := r
  cases num with
  | none => exact .pure h
  | some num => exact .pure h

include hskip hvalue in
/-- The members, items and rows of a value are read behind its bracket. -/
theorem alike_scanValue (hreads : fl.Reads) (hfirst : first ≤ pos + 1)
    (hn : text.length ≤ n + pos) (hm : text.length ≤ m + pos) (type : Ty) (location : Nat)
    (mem : Memory) :
    Alike text (scanValue fl value skip n type location (charAt text pos) mem)
      (scanValue fl value' skip' m type location (charAt text pos) mem) pos
      fun r pos' => r.1 = true → pos < pos' := by
  have hnothing : Alike text (pure (false, mem)) (pure (false, mem)) pos
      fun r pos' => r.1 = true → pos < pos' := .pure fun h => by cases h
  have hclose {pos₁ : Nat} (hpos₁ : pos + 1 ≤ pos₁) {c : Int} (hc : c ≠ -1) (rtn : Bool)
      (mem : Memory) :
      Alike text (closing c rtn >>= fun sta => pure (sta, mem))
        (closing c rtn >>= fun sta => pure (sta, mem)) pos₁ fun r pos' => r.1 = true → pos < pos' :=
    .bind (alike_closing hc rtn) fun sta pos₂ h₂ => .pure fun _ => by omega
  cases type with
  | tBool val check => exact alike_scanBool hn hm location mem
  | tInteger what val check => exact alike_saveNumber (alike_intNumber hreads hn hm) _ mem
  | tDouble val check => exact alike_saveNumber (alike_doubleNumber hreads hn hm) _ mem
  | tFloat val check => exact alike_saveNumber (alike_floatNumber hreads hn hm) _ mem
  | tString size val =>
      exact .ite (fun hquote => alike_scanString hquote hn hm size location mem) fun _ => hnothing
  | tStruct size members check =>
      refine .ite (fun hopen => .nextFast (by rw [hopen]; decide) ?_) fun _ => hnothing
      refine .bind (alike_structLoop fl hskip hvalue hfirst (by omega) (by omega) (by omega)
        (by omega) members location true mem) fun r pos₁ h₁ => ?_
      exact hclose h₁ (by decide) r.1 r.2
  | tVarray size subtype check =>
      refine .ite (fun hopen => .nextFast (by rw [hopen]; decide) ?_) fun _ => hnothing
      refine .bind (alike_arrayLoop hskip hvalue hfirst (by omega) (by omega) (by omega)
        (by omega) subtype _ _ _ _ true mem) fun r pos₁ h₁ => ?_
      exact hclose h₁ (by decide) r.1 _
  | tArray size subtype check =>
      refine .ite (fun hopen => .nextFast (by rw [hopen]; decide) ?_) fun _ => hnothing
      refine .bind (alike_arrayLoop hskip hvalue hfirst (by omega) (by omega) (by omega)
        (by omega) subtype _ _ _ _ true mem) fun r pos₁ h₁ => ?_
      exact hclose h₁ (by decide) r.1 _
  | tTable size rowSize columns check =>
      refine .ite (fun hopen => .nextFast (by rw [hopen]; decide) ?_) fun _ => hnothing
      refine .bind (alike_columnLoop fl (by omega) (by omega) (by omega) (by omega) columns _ _)
        fun r pos₁ h₁ => ?_
      refine .bind (alike_rowLoop fl hskip hvalue (by omega) (by omega) (by omega) (by omega)
        (by omega) _ _ _ _ _ true mem) fun r' pos₂ h₂ => ?_
      refine .bind (alike_fscan fl (by omega) (by omega) (by decide) (by decide))
        fun close pos₃ h₃ => .pure fun _ => ?_
      have hle := h₃.1
      omega

end Values

/-- `nk_fscan_keyval` on two amounts of fuel. -/
theorem alike_nkFscanKeyval (hreads : fl.Reads) (hn : text.length < n + pos)
    (hm : text.length < m + pos) (type : Ty) (location : Nat) (mem : Memory) :
    Alike text (nkFscanKeyval fl n type location mem) (nkFscanKeyval fl m type location mem) pos
      (Advances (fun r => r.1) pos) := by
  induction n generalizing m pos type location mem with
  | zero =>
      refine .of_le fun hpos => ?_
      omega
  | succ n ih =>
      refine .of_le fun hpos => ?_
      obtain ⟨m, rfl⟩ : ∃ k, m = k + 1 := ⟨m - 1, by omega⟩
      have hskip : ∀ pos', pos + 1 ≤ pos' → Alike text (skipValue fl n) (skipValue fl m) pos'
          (Advances (fun r => r) pos') :=
        fun pos' hpos' => alike_skipValue hreads (by omega) (by omega)
      have hvalue : ∀ type location mem pos', pos + 1 ≤ pos' →
          Alike text (nkFscanKeyval fl n type location mem) (nkFscanKeyval fl m type location mem)
            pos' (Advances (fun r => r.1) pos') :=
        fun type location mem pos' hpos' => ih (by omega) (by omega) type location mem
      simp only [nkFscanKeyval]
      refine .orRewind_advances (.peek ?_)
      refine .bind (alike_scanValue hskip hvalue hreads (Nat.le_refl _) (by omega) (by omega) type
        location mem) fun r pos₁ h₁ => .pure fun hgood => ?_
      exact h₁ (Bool.and_eq_true_iff.mp hgood).1

/-- On a finite text, from any position in it and for any schema, the two parsers of values
end.  With a loop pass and a level of recursion for each character and one more, they make a
finite list of calls to the file, and with more of either they make the same: none of their
loops goes on. -/
theorem values_settle (hreads : fl.Reads) {w : Nat} {f : Nkinfile w}
    (agrees : Agrees f ⟨text, pos⟩) (type : Ty) (location : Nat) (mem : Memory) :
    Prog.Settles (nkinfile w) (fun fuel => nkFscanKeyval fl fuel type location mem)
        (text.length + 1) f ∧
      Prog.Settles (nkinfile w) (skipValue fl) (text.length + 1) f :=
  ⟨settles_of_alike agrees fun _ hfuel =>
      alike_nkFscanKeyval hreads (by omega) (by omega) type location mem,
    settles_of_alike agrees fun _ hfuel => alike_skipValue hreads (by omega) (by omega)⟩

/-- An array of doubles that breaks off behind a separator, with `fstrtod` for the numbers. -/
theorem values_settle_cut :
    let type : Ty := .tVarray 4 (.tDouble 0 none) none
    let fl : Floats := { Floats.absent with scan := nkFscanDouble 99 (fun _ _ => ()) () }
    let f : Nkinfile 32 := nkinfileOpenMem 32 (ascii "[ 1.5e2," ++ []) 8
    Prog.Settles (nkinfile 32) (fun fuel => nkFscanKeyval fl fuel type 16 fun _ => 0) 9 f ∧
      Prog.Settles (nkinfile 32) (skipValue fl) 9 f := by
  intro type fl f
  have hsize : (ascii "[ 1.5e2,").length < 2 ^ 32 := by decide
  exact values_settle (Floats.reads_fstrtod .absent 99 (fun _ _ => ()) ())
    (nkinfileOpenMem_agrees (ascii "[ 1.5e2,") [] hsize) type 16 fun _ => 0

end LibnklabsPico.Dbase
