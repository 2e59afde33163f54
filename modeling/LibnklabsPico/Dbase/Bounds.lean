/-
  Dbase/Bounds.lean --- parsing text that may be anything.

  Whatever is in the file, `nk_fscan_keyval` changes a value within its memory only and
  leaves its slots well-formed, and it returns to where it started when it fails
  (`nkFscanKeyval_contained`).  One lemma for each function of the parser; the loops are
  by induction on their fuel, and `stays_keyval` is by induction on the levels.
-/
import LibnklabsPico.Dbase.Slots
import LibnklabsPico.Text.AnyText

set_option autoImplicit false

namespace LibnklabsPico.Dbase

open LibnklabsPico.Foundation
open LibnklabsPico.File
open LibnklabsPico.File.FileProg
open LibnklabsPico.Text

variable {fl : Floats} {text : List UInt8} {pos : Nat}

/-! ## Numbers -/

theorem stays_andAlso {test : Bool} {more : FileProg Bool} {post : Bool → Nat → Prop}
    (hfalse : post false pos) (hmore : test = true → Stays text more pos post) :
    Stays text (andAlso test more) pos post := by
  cases test with
  | true => exact hmore rfl
  | false => exact .pure hfalse

/-- A character that is found ahead is in the text. -/
theorem stays_nextIs {n : Nat} {c : Int} (hc : c ≠ -1) (hn : pos + n ≤ text.length) :
    Stays text (nextIs n c) pos fun found pos' =>
      pos' = pos ∧ (found = true → pos + n + 1 ≤ text.length) := by
  refine .peekRel hn (.pure ⟨rfl, fun hfound => ?_⟩)
  have hchar : charAt text (pos + n) = c := by simpa using hfound
  exact (charAt_ne_end hn).mp (by rwa [hchar])

theorem stays_decLoop {digit : Int → Bool} (hend : digit (-1) = false) (fuel pos num : Nat) :
    Stays text (decLoop digit fuel (charAt text pos) num) pos fun _ _ => True := by
  induction fuel generalizing pos num with
  | zero => exact .pure trivial
  | succ fuel ih =>
      rw [decLoop]
      by_cases hdigit : digit (charAt text pos) = true
      · rw [if_pos hdigit]
        exact .nextFast (ne_end_of_test hend hdigit) (ih (pos + 1) _)
      · rw [if_neg hdigit]
        exact .pure trivial

theorem stays_real (hscan : fl.Stays) (neg : Bool) :
    Stays text (scanReal fl neg) pos fun _ _ => True :=
  .bind (hscan text pos) fun _ _ _ => .pure trivial

theorem stays_hexNumber (fuel : Nat) (neg : Bool) {skip : Nat} (hskip : pos + skip ≤ text.length) :
    Stays text (scanHexNumber fl fuel neg skip) pos fun _ _ => True :=
  .seekRel hskip (.bind (stays_hex fuel (-1)) fun _ _ _ => .pure trivial)

theorem stays_decNumber (hscan : fl.Stays) {digit : Int → Bool} (hend : digit (-1) = false)
    (fuel : Nat) (neg : Bool) :
    Stays text (scanDecNumber fl digit fuel neg (charAt text pos)) pos fun _ _ => True := by
  refine .of_le fun hpos => .tell (.bind (stays_decLoop hend fuel pos 0) fun r pos' _ => ?_)
  obtain ⟨num, c⟩ := r
  dsimp only
  split
  · exact .seek hpos fun _ => stays_real hscan neg
  · exact .pure trivial

/-- A number: what is behind a minus sign and a point is there. -/
theorem stays_scanNumber (hscan : fl.Stays) {negDigit : Int → Bool} (hend : negDigit (-1) = false)
    {negPoint : FileProg Bool}
    (hpoint : pos + 1 ≤ text.length →
      Stays text negPoint pos fun found pos' => found = true → charAt text pos' ≠ -1)
    (fuel : Nat) :
    Stays text (scanNumber fl negDigit negPoint fuel (charAt text pos)) pos fun _ _ => True := by
  refine .of_le fun hpos => ?_
  have hahead : ∀ {c : Int}, c ≠ -1 → (charAt text pos == c) = true → pos + 1 ≤ text.length := by
    intro c hc hchar
    rw [beq_iff_eq] at hchar
    exact (charAt_ne_end hpos).mp (by rwa [hchar])
  have hchar : (charAt text pos == ch '-') = true → charAt text pos ≠ -1 := fun h =>
    (charAt_ne_end hpos).mpr (hahead (by decide) h)
  have hhex : Stays text (andAlso (charAt text pos == ch '0') (nextIs 1 (ch 'x'))) pos
      fun found pos' => pos' = pos ∧ (found = true → pos + 2 ≤ text.length) :=
    stays_andAlso ⟨rfl, fun h => by cases h⟩ fun h =>
      stays_nextIs (by decide) (hahead (by decide) h)
  refine .bind hhex fun hex pos₁ h₁ => ?_
  obtain ⟨rfl, hroom⟩ := h₁
  cases hex with
  | true => exact stays_hexNumber fuel false (hroom rfl)
  | false => ?_
  have hnegHex : Stays text
      (andAlso (charAt text pos₁ == ch '-') do
        let zero ← nextIs 1 (ch '0')
        andAlso zero (nextIs 2 (ch 'x')))
      pos₁ fun found pos' => pos' = pos₁ ∧ (found = true → pos₁ + 3 ≤ text.length) := by
    refine stays_andAlso ⟨rfl, fun h => by cases h⟩ fun h => ?_
    refine .bind (stays_nextIs (by decide) (hahead (by decide) h)) fun zero pos' hzero => ?_
    obtain ⟨rfl, hzero⟩ := hzero
    exact stays_andAlso ⟨rfl, fun h => by cases h⟩ fun h =>
      stays_nextIs (by decide) (hzero h)
  refine .bind hnegHex fun negHex pos₂ h₂ => ?_
  obtain ⟨rfl, hroom⟩ := h₂
  cases negHex with
  | true => exact stays_hexNumber fuel true (hroom rfl)
  | false => ?_
  by_cases hdigit : isDigit (charAt text pos₂) = true
  · simp only [Bool.false_eq_true, if_false, if_pos hdigit]
    exact stays_decNumber hscan rfl fuel false
  simp only [Bool.false_eq_true, if_false, if_neg hdigit]
  have hnegDec : Stays text (andAlso (charAt text pos₂ == ch '-') nextIsDigit) pos₂
      fun found pos' => pos' = pos₂ ∧ (found = true → charAt text pos₂ ≠ -1) :=
    stays_andAlso ⟨rfl, fun h => by cases h⟩ fun h =>
      .peekRel (hahead (by decide) h) (.pure ⟨rfl, fun _ => hchar h⟩)
  refine .bind hnegDec fun negDec pos₃ h₃ => ?_
  obtain ⟨rfl, hminus⟩ := h₃
  cases negDec with
  | true => exact .nextFast (hminus rfl) (stays_decNumber hscan hend fuel true)
  | false => ?_
  have hnegReal : Stays text (andAlso (charAt text pos₃ == ch '-') negPoint) pos₃
      fun found pos' => found = true → charAt text pos' ≠ -1 :=
    stays_andAlso (fun h => by cases h) fun h => hpoint (hahead (by decide) h)
  refine .bind hnegReal fun negReal pos₄ h₄ => ?_
  cases negReal with
  | true => exact .nextFast (h₄ rfl) (stays_real hscan true)
  | false => ?_
  simp only [Bool.false_eq_true, if_false]
  split
  · exact stays_real hscan false
  · exact .pure trivial

theorem stays_point (hroom : pos + 1 ≤ text.length) :
    Stays text (nextIs 1 (ch '.')) pos fun found pos' =>
      found = true → charAt text pos' ≠ -1 := by
  refine (stays_nextIs (c := ch '.') (by decide) hroom).mono fun found pos' h hfound => ?_
  obtain ⟨rfl, hmore⟩ := h
  have hlt := hmore hfound
  exact (charAt_ne_end (by omega)).mpr (by omega)

theorem stays_intNumber (hscan : fl.Stays) (fuel : Nat) :
    Stays text (scanIntNumber fl fuel (charAt text pos)) pos fun _ _ => True :=
  stays_scanNumber hscan rfl stays_point fuel

theorem stays_doubleNumber (hscan : fl.Stays) (fuel : Nat) :
    Stays text (scanDoubleNumber fl fuel (charAt text pos)) pos fun _ _ => True := by
  refine stays_scanNumber hscan rfl (fun hroom => .seekRel hroom (.pure fun hfound => ?_)) fuel
  rw [beq_iff_eq] at hfound
  rw [hfound]
  decide

theorem stays_floatNumber (hscan : fl.Stays) (fuel : Nat) :
    Stays text (scanFloatNumber fl fuel (charAt text pos)) pos fun _ _ => True :=
  stays_scanNumber hscan rfl stays_point fuel

/-! ## Skipping a value -/

section
variable {skip : FileProg Bool}

theorem stays_commaLoop (hscan : fl.Stays) (fuel n : Nat) :
    Stays text (commaLoop fl fuel n) pos fun _ _ => True := by
  induction n generalizing pos with
  | zero => exact .pure trivial
  | succ n ih => exact .test (stays_fscan hscan fuel " ,%e") (fun _ => ih) fun _ => .pure trivial

theorem stays_closing {c : Int} (hc : c ≠ -1) (rtn : Bool) :
    Stays text (closing c rtn) pos fun _ _ => True := by
  refine .peek ?_
  by_cases hclose : charAt text pos = c
  · rw [if_pos hclose]
    exact .nextFast (by rwa [hclose]) (.pure trivial)
  · rw [if_neg hclose]
    exact .pure trivial

theorem stays_skipMembers (hscan : fl.Stays)
    (hskip : ∀ pos, Stays text skip pos fun _ _ => True) (fuel n : Nat) :
    Stays text (skipMembers fl skip fuel n) pos fun _ _ => True := by
  induction n generalizing pos with
  | zero => exact .pure trivial
  | succ n ih =>
      refine .status (stays_fscanBuf hscan fuel " %i : %e" nkdbaseMaxIdentLen) (fun _ pos₁ => ?_)
        fun _ _ => .pure trivial
      refine .test (hskip pos₁) (fun pos₂ => ?_) fun _ => .pure trivial
      exact .bind (stays_commaLoop hscan fuel fuel) fun _ _ _ => ih

theorem stays_skipItems (hskip : ∀ pos, Stays text skip pos fun _ _ => True) (fuel n : Nat) :
    Stays text (skipItems skip fuel n) pos fun _ _ => True := by
  induction n generalizing pos with
  | zero => exact .pure trivial
  | succ n ih =>
      refine .bind (stays_ws fuel) fun _ pos₁ _ => .feof fun atEnd hend => ?_
      have hmore : Stays text
          (andAlso (atEnd == 0) do
            let c ← fpeekFast
            pure (c != ch ']'))
          pos₁ fun _ _ => True :=
        stays_andAlso trivial fun h => .peekFast (hend (by simpa using h)) (.pure trivial)
      refine .test hmore (fun pos₂ => .peek ?_) fun _ => .pure trivial
      by_cases hcomma : charAt text pos₂ = ch ','
      · rw [if_pos hcomma]
        exact .nextFast (by rw [hcomma]; decide) ih
      · rw [if_neg hcomma]
        exact .test (hskip pos₂) (fun _ => ih) fun _ => .pure trivial

theorem stays_skipColumns (hscan : fl.Stays) (fuel n : Nat) :
    Stays text (skipColumns fl fuel n) pos fun _ _ => True := by
  induction n generalizing pos with
  | zero => exact .pure trivial
  | succ n ih =>
      exact .status (stays_fscanBuf hscan fuel " %i %e" nkdbaseMaxIdentLen) (fun _ _ => ih)
        fun _ _ => .pure trivial

theorem stays_skipFields (hskip : ∀ pos, Stays text skip pos fun _ _ => True) (fuel n : Nat) :
    Stays text (skipFields skip fuel n) pos fun _ _ => True := by
  induction n generalizing pos with
  | zero => exact .pure trivial
  | succ n ih =>
      refine .bind (stays_ws fuel) fun _ pos₁ _ => .feof fun atEnd hend => ?_
      have hmore : Stays text
          (andAlso (atEnd == 0) do
            let c ← fpeekFast
            let d ← fpeekFast
            pure (c != ch ':' && d != ch ')'))
          pos₁ fun _ _ => True := by
        refine stays_andAlso trivial fun h => ?_
        have hchar := hend (by simpa using h)
        exact .peekFast hchar (.peekFast hchar (.pure trivial))
      refine .test hmore (fun pos₂ => ?_) fun _ => .pure trivial
      refine .bind (stays_ws fuel) fun _ pos₃ _ => ?_
      exact .test (hskip pos₃) (fun _ => ih) fun _ => .pure trivial

theorem stays_skipRows (hscan : fl.Stays) (hskip : ∀ pos, Stays text skip pos fun _ _ => True)
    (fuel n : Nat) : Stays text (skipRows fl skip fuel n) pos fun _ _ => True := by
  induction n generalizing pos with
  | zero => exact .pure trivial
  | succ n ih =>
      refine .test (stays_fscan hscan fuel " :%e") (fun pos₁ => ?_) fun _ => .pure trivial
      exact .test (stays_skipFields hskip fuel fuel) (fun _ => ih) fun _ => .pure trivial

theorem stays_skipChars (fuel pos : Nat) :
    Stays text (skipChars fuel (charAt text pos)) pos fun _ _ => True := by
  induction fuel generalizing pos with
  | zero => exact .pure trivial
  | succ fuel ih =>
      rw [skipChars]
      split
      · exact .bind stays_escape fun _ pos' _ => .peek (ih pos')
      · exact .pure trivial

theorem stays_skipBranches (hscan : fl.Stays)
    (hskip : ∀ pos, Stays text skip pos fun _ _ => True) (fuel : Nat) :
    Stays text (skipBranches fl skip fuel (charAt text pos)) pos fun _ _ => True := by
  unfold skipBranches
  split
  · rename_i hopen
    refine .nextFast (by rw [hopen]; decide) ?_
    exact .test (stays_skipMembers hscan hskip fuel fuel) (fun _ => stays_closing (by decide) true)
      fun _ => .pure trivial
  split
  · rename_i hopen
    refine .nextFast (by rw [hopen]; decide) ?_
    refine .test (stays_skipItems hskip fuel fuel) (fun pos₁ => .peek ?_) fun _ => .pure trivial
    split
    · exact .next fun _ _ => .pure trivial
    · exact .pure trivial
  split
  · refine .next fun _ pos₁ => .bind (stays_skipColumns hscan fuel fuel) fun _ pos₂ _ => ?_
    exact .test (stays_skipRows hscan hskip fuel fuel) (fun _ => stays_fscan hscan fuel " )%e")
      fun _ => .pure trivial
  split
  · rename_i hopen
    refine .nextFast (by rw [hopen]; decide) ?_
    exact .bind (stays_skipChars fuel (pos + 1)) fun _ _ _ => .pure trivial
  · exact .bind (stays_intNumber hscan fuel) fun _ _ _ => .pure trivial

end

/-- `skip_value` keeps to what the file allows. -/
theorem stays_skipValue (hscan : fl.Stays) (fuel pos : Nat) :
    Stays text (skipValue fl fuel) pos fun _ _ => True := by
  induction fuel generalizing pos with
  | zero => exact .pure trivial
  | succ fuel ih =>
      refine Stays.mono (.orRewind_any ?_) fun _ _ _ => trivial
      refine .test (stays_fscan hscan fuel "true %e") (fun _ => .pure trivial) fun pos₁ => ?_
      refine .test (stays_fscan hscan fuel "false %e") (fun _ => .pure trivial) fun pos₂ => ?_
      refine .test (stays_fscan hscan fuel "null %e") (fun _ => .pure trivial) fun pos₃ => ?_
      exact .peek (stays_skipBranches hscan ih fuel)

/-! ## Scalars -/

section
variable {mem : Memory} {location : Nat}

/-- A number is saved, or nothing is. -/
theorem stays_saveNumber {save : Number fl → Memory} {scan : FileProg (Bool × Option (Number fl))}
    {type : Ty} (hscan : Stays text scan pos fun _ _ => True) (hok : SlotsOk mem type location)
    (hsave : ∀ num, Contained mem (save num) type location) :
    Stays text (saveNumber fl save mem scan) pos
      fun r _ => Contained mem r.2 type location := by
  refine .bind hscan fun r pos' _ => ?_
  obtain ⟨sta, num⟩ := r
  cases num with
  | none => exact .pure (Contained.refl hok)
  | some num => exact .pure (hsave num)

/-- A store that fits, in a value without strings and lengths. -/
theorem contained_store {type : Ty} {bytes : List UInt8} (hsize : bytes.length ≤ type.extent)
    (hok : SlotsOk (mem.store location bytes) type location) :
    Contained mem (mem.store location bytes) type location :=
  ⟨store_outside mem hsize, hok⟩

theorem stays_bool (hscan : fl.Stays) (fuel : Nat) {size : Nat} {check : Check} (hsize : 4 ≤ size) :
    Stays text (scanBool fl fuel location mem) pos
      fun r _ => Contained mem r.2 (.tBool size check) location := by
  refine .test (stays_fscan hscan fuel "true %e") (fun _ => .pure (contained_store hsize .tBool))
    fun _ => ?_
  refine .test (stays_fscan hscan fuel "false %e") (fun _ => .pure (contained_store hsize .tBool))
    fun _ => ?_
  exact .pure (Contained.refl .tBool)

/-- No more characters are saved than there is space for in front of the NUL. -/
theorem stays_stringLoop (size fuel pos : Nat) {s : List UInt8} (hs : s.length ≤ size) :
    Stays text (stringLoop size fuel (charAt text pos) s) pos fun r pos' =>
      r.2.length ≤ size ∧ (r.1 = ch '"' → charAt text pos' ≠ -1) := by
  have hquote : charAt text pos = ch '"' → charAt text pos ≠ -1 := by
    intro h
    rw [h]
    decide
  induction fuel generalizing pos s with
  | zero => exact .pure ⟨hs, hquote⟩
  | succ fuel ih =>
      rw [stringLoop]
      by_cases hmore : charAt text pos ≠ -1 ∧ charAt text pos ≠ ch '"'
      · rw [if_pos hmore]
        refine .bind stays_escape fun char pos' _ => ?_
        by_cases hend : char = -1
        · rw [if_pos hend]
          exact .pure ⟨hs, fun h => absurd h hmore.2⟩
        · rw [if_neg hend]
          refine .peek (ih pos' ?_ fun h => ?_)
          · split
            · simp only [List.length_append, List.length_singleton]
              omega
            · exact hs
          · rw [h]
            decide
      · rw [if_neg hmore]
        exact .pure ⟨hs, hquote⟩

/-- The NUL behind a string that was saved. -/
theorem contained_string {size : Nat} {check : Check} {s : List UInt8} (hs : s.length + 1 ≤ size) :
    Contained mem (mem.store location (s ++ [0])) (.tString size check) location := by
  have hlength : (s ++ [0]).length = s.length + 1 := by simp
  refine contained_store (hlength.trans_le hs) (.tString ?_)
  have hread := Memory.read_store mem location (s ++ [0])
  rw [hlength, ← Memory.read_take _ hs] at hread
  refine List.mem_of_mem_take (i := s.length + 1) ?_
  rw [hread]
  simp

theorem stays_string (fuel : Nat) {size : Nat} {check : Check} (hpos : 0 < size)
    (hsize : size < 2 ^ 32) (hopen : charAt text pos = ch '"') :
    Stays text (scanString fuel size location mem) pos
      fun r _ => Contained mem r.2 (.tString size check) location := by
  have hwrap : wrap 32 ((size : Int) - 1) = size - 1 := by
    rw [show ((size : Int) - 1) = ((size - 1 : Nat) : Int) by omega]
    exact wrap_natCast (by omega)
  unfold scanString
  rw [hwrap]
  refine .nextFast (by rw [hopen]; decide) ?_
  refine .bind (stays_stringLoop (size - 1) fuel (pos + 1) (Nat.zero_le _)) fun r pos' hr => ?_
  obtain ⟨c, s⟩ := r
  obtain ⟨hlength, hquote⟩ := hr
  simp only at hlength hquote
  have hcontained : Contained mem (mem.store location (s ++ [0])) (.tString size check) location :=
    contained_string (by omega)
  by_cases hclose : c = ch '"'
  · simp only [if_pos hclose]
    exact .nextFast (hquote hclose) (.pure hcontained)
  · simp only [if_neg hclose]
    exact .pure hcontained

end

/-! ## Structures -/

/-- The parser changes a value of the type within its memory only. -/
def KeepsBounds (text : List UInt8) (type : Ty) (value : ValueScan) : Prop :=
  ∀ (location : Nat) (mem : Memory) (pos : Nat), SlotsOk mem type location →
    Stays text (value location mem) pos fun r _ => Contained mem r.2 type location

section
variable {value : Ty → ValueScan} {skip : FileProg Bool} {location : Nat}

theorem stays_structLoop (hscan : fl.Stays) {size : Nat} {members : List Member} {check : Check}
    (within : ∀ m ∈ members, m.2.2 + m.2.1.extent ≤ size) (apart : members.Pairwise Apart)
    (types : ∀ m ∈ members, Placed m.2.1)
    (hvalue : ∀ m ∈ members, KeepsBounds text m.2.1 (value m.2.1))
    (hskip : ∀ pos, Stays text skip pos fun _ _ => True) (fuel n : Nat) (rtn : Bool) {mem : Memory}
    (hok : SlotsOk mem (.tStruct size members check) location) :
    Stays text (structLoop fl value skip fuel members location n rtn mem) pos
      fun r _ => Contained mem r.2 (.tStruct size members check) location := by
  induction n generalizing pos rtn mem with
  | zero => exact .pure (Contained.refl hok)
  | succ n ih =>
      refine .bind (stays_ws fuel) fun _ pos₁ _ => ?_
      refine .status (stays_fscanBuf hscan fuel "%i : %e" nkdbaseMaxIdentLen) (fun buf pos₂ => ?_)
        fun _ _ => .pure (Contained.refl hok)
      simp only [if_true]
      split
      · rename_i name type offset hfound
        have hm := findMember_mem hfound
        have hmember : SlotsOk mem type (location + offset) := by
          cases hok with
          | tStruct parts => exact parts _ hm
        refine .bind (hvalue _ hm (location + offset) mem pos₂ hmember) fun r pos₃ hr => ?_
        obtain ⟨rtn, mem₁⟩ := r
        have hchange := hok.member within apart types hm hr
        have hrest : ∀ pos, Stays text
            (do
              commaLoop fl fuel fuel
              structLoop fl value skip fuel members location n true mem₁)
            pos fun r _ => Contained mem r.2 (.tStruct size members check) location := fun pos =>
          .bind (stays_commaLoop hscan fuel fuel) fun _ pos' _ =>
            (ih true hchange.slots).mono fun r _ h => hchange.trans h
        cases rtn with
        | true => exact hrest pos₃
        | false => exact .test (hskip pos₃) hrest fun _ => .pure hchange
      · refine .bind (hskip pos₂) fun _ pos₃ _ => ?_
        exact .bind (stays_commaLoop hscan fuel fuel) fun _ pos₄ _ => ih rtn hok

end

/-! ## Arrays -/

section
variable {skip : FileProg Bool} {size base : Nat} {subtype : Ty}

theorem stays_arrayLoop {value : ValueScan} (hplaced : Placed subtype)
    (positive : 0 < subtype.size) (whole : subtype.size ∣ size) (flat : subtype.counted = false)
    (hvalue : KeepsBounds text subtype value) (hskip : ∀ pos, Stays text skip pos fun _ _ => True)
    (fuel n : Nat) {idx : Nat} (hidx : subtype.size ∣ idx) (hle : idx ≤ size) (rtn : Bool)
    {mem : Memory} (hok : SlotsOk mem (.tArray size subtype none) base) :
    Stays text (arrayLoop value skip fuel base size subtype.size n idx rtn mem) pos
      fun r _ => r.2.1 ≤ size ∧ Contained mem r.2.2 (.tArray size subtype none) base := by
  induction n generalizing pos idx rtn mem with
  | zero => exact .pure ⟨hle, Contained.refl hok⟩
  | succ n ih =>
      refine .bind (stays_ws fuel) fun _ pos₁ _ => .peek ?_
      by_cases hmore : charAt text pos₁ ≠ -1 ∧ charAt text pos₁ ≠ ch ']'
      · rw [if_pos hmore]
        by_cases hcomma : charAt text pos₁ = ch ','
        · rw [if_pos hcomma]
          exact .nextFast hmore.1 (ih hidx hle rtn hok)
        · rw [if_neg hcomma]
          by_cases hroom : idx < size
          · rw [if_pos hroom]
            obtain ⟨i, rfl⟩ := hidx
            obtain ⟨count, rfl⟩ := whole
            have hi : i < subtype.size * count / subtype.size := by
              rw [Nat.mul_div_cancel_left count positive]
              exact Nat.lt_of_mul_lt_mul_left hroom
            have hnext : subtype.size * i + subtype.size ≤ subtype.size * count := by
              rw [← Nat.mul_succ]
              refine Nat.mul_le_mul_left _ ?_
              rw [Nat.mul_div_cancel_left count positive] at hi
              exact hi
            have hitem : SlotsOk mem subtype (base + i * subtype.size) := by
              cases hok with
              | tArray items => exact items i hi
            rw [Nat.mul_comm subtype.size i]
            refine .bind (hvalue _ mem pos₁ hitem) fun r pos₂ hr => ?_
            obtain ⟨rtn, mem₁⟩ := r
            have hchange := hok.item hplaced flat hi hr
            rw [Nat.mul_comm i subtype.size]
            cases rtn with
            | true =>
                exact (ih ⟨i + 1, (Nat.mul_succ _ _).symm⟩ hnext true hchange.slots).mono
                  fun r _ h => ⟨h.1, hchange.trans h.2⟩
            | false => exact .pure ⟨hle, hchange⟩
          · rw [if_neg hroom]
            exact .test (hskip pos₁) (fun _ => ih hidx hle true hok)
              fun _ => .pure ⟨hle, Contained.refl hok⟩
      · rw [if_neg hmore]
        exact .pure ⟨hle, Contained.refl hok⟩

end

/-! ## Tables -/

section
variable {value : Ty → ValueScan} {skip : FileProg Bool} {columns : List Member}

/-- Every column stands for one of the members. -/
theorem stays_columnLoop (hscan : fl.Stays) (fuel n col : Nat) {map : List (Option Member)}
    (hmap : ∀ m, some m ∈ map → m ∈ columns) :
    Stays text (columnLoop fl columns fuel n col map) pos
      fun r _ => ∀ m, some m ∈ r.2 → m ∈ columns := by
  induction n generalizing pos col map with
  | zero => exact .pure hmap
  | succ n ih =>
      refine .status (stays_fscanBuf hscan fuel " %i %e" nkdbaseMaxIdentLen) (fun buf pos₁ => ?_)
        fun _ _ => .pure hmap
      simp only [if_true]
      split
      · rename_i m hfound
        refine ih (col + 1) fun m' hm' => ?_
        rcases List.mem_or_eq_of_mem_set hm' with hm' | hm'
        · exact hmap m' hm'
        · cases hm'
          exact findMember_mem hfound
      · exact ih (col + 1) hmap

/-- Nothing is saved of a row that there is no space for. -/
theorem stays_fieldLoop_full (hskip : ∀ pos, Stays text skip pos fun _ _ => True)
    (fuel location : Nat) (map : List (Option Member)) (rtn : Bool) (mem : Memory) :
    Stays text (fieldLoop value skip fuel location true map rtn mem) pos
      fun r _ => r.2 = mem := by
  induction map generalizing pos rtn with
  | nil => exact .pure rfl
  | cons x map ih => exact .test (hskip pos) (fun _ => ih true) fun _ => .pure rfl

/-- The fields of a row are saved in it. -/
theorem stays_fieldLoop {rowSize location : Nat}
    (within : ∀ m ∈ columns, m.2.2 + m.2.1.extent ≤ rowSize) (apart : columns.Pairwise Apart)
    (types : ∀ m ∈ columns, Placed m.2.1)
    (hvalue : ∀ m ∈ columns, KeepsBounds text m.2.1 (value m.2.1))
    (hskip : ∀ pos, Stays text skip pos fun _ _ => True) (fuel : Nat)
    {map : List (Option Member)} (hmap : ∀ m, some m ∈ map → m ∈ columns) (rtn : Bool)
    {mem : Memory} (hok : SlotsOk mem (.tStruct rowSize columns none) location) :
    Stays text (fieldLoop value skip fuel location false map rtn mem) pos
      fun r _ => Contained mem r.2 (.tStruct rowSize columns none) location := by
  induction map generalizing pos rtn mem with
  | nil => exact .pure (Contained.refl hok)
  | cons x map ih =>
      have hmap' : ∀ m, some m ∈ map → m ∈ columns := fun m hm =>
        hmap m (List.mem_cons_of_mem x hm)
      cases x with
      | none =>
          exact .test (hskip pos) (fun _ => ih hmap' true hok) fun _ => .pure (Contained.refl hok)
      | some m =>
          obtain ⟨name, type, offset⟩ := m
          have hm := hmap _ List.mem_cons_self
          have hmember : SlotsOk mem type (location + offset) := by
            cases hok with
            | tStruct parts => exact parts _ hm
          refine .bind (stays_ws fuel) fun _ pos₁ _ => ?_
          refine .bind (hvalue _ hm (location + offset) mem pos₁ hmember) fun r pos₂ hr => ?_
          obtain ⟨rtn, mem₁⟩ := r
          have hchange := hok.member within apart types hm hr
          cases rtn with
          | false => exact .pure hchange
          | true => exact (ih hmap' true hchange.slots).mono fun r _ h => hchange.trans h

theorem stays_rowLoop (hscan : fl.Stays) {size rowSize base : Nat}
    (within : ∀ m ∈ columns, m.2.2 + m.2.1.extent ≤ rowSize) (apart : columns.Pairwise Apart)
    (types : ∀ m ∈ columns, Placed m.2.1)
    (hvalue : ∀ m ∈ columns, KeepsBounds text m.2.1 (value m.2.1))
    (hskip : ∀ pos, Stays text skip pos fun _ _ => True) (fuel n : Nat)
    {map : List (Option Member)} (hmap : ∀ m, some m ∈ map → m ∈ columns) {row location : Nat}
    (hrow : row ≤ size / rowSize)
    (hlocation : row < size / rowSize → location = base + row * rowSize) (rtn : Bool)
    {mem : Memory} (hok : SlotsOk mem (.tArray size (.tStruct rowSize columns none) none) base) :
    Stays text (rowLoop fl value skip fuel rowSize (size / rowSize) map n row location rtn mem) pos
      fun r _ => r.2.1 ≤ size / rowSize ∧
        Contained mem r.2.2 (.tArray size (.tStruct rowSize columns none) none) base := by
  induction n generalizing pos row location rtn mem with
  | zero => exact .pure ⟨hrow, Contained.refl hok⟩
  | succ n ih =>
      refine .test (stays_fscan hscan fuel " : %e") (fun pos₁ => ?_)
        fun _ => .pure ⟨hrow, Contained.refl hok⟩
      by_cases hfull : row = size / rowSize
      · have hlast : (row == size / rowSize) = true := beq_iff_eq.mpr hfull
        simp only [if_true, hlast]
        refine .bind (stays_fieldLoop_full hskip fuel location map rtn mem) fun r pos₂ hr => ?_
        obtain ⟨rtn, mem₁⟩ := r
        simp only at hr
        subst hr
        rw [if_neg (not_not.mpr hfull)]
        exact ih hrow (fun h => absurd hfull (by omega)) rtn hok
      · have hlast : (row == size / rowSize) = false := beq_false_of_ne hfull
        have hroom : row < size / rowSize := by omega
        obtain rfl := hlocation hroom
        have hplaced : Placed (.tStruct rowSize columns none) := .tStruct within apart types
        have hitem : SlotsOk mem (.tStruct rowSize columns none) (base + row * rowSize) := by
          cases hok with
          | tArray items => exact items row hroom
        simp only [if_true, hlast]
        refine .bind (stays_fieldLoop within apart types hvalue hskip fuel hmap rtn hitem)
          fun r pos₂ hr => ?_
        obtain ⟨rtn, mem₁⟩ := r
        have hchange := hok.item hplaced rfl hroom hr
        rw [if_pos hfull]
        refine (ih (by omega) (fun _ => ?_) rtn hchange.slots).mono fun r _ h =>
          ⟨h.1, hchange.trans h.2⟩
        rw [Nat.add_mul, Nat.one_mul, Nat.add_assoc]

end

/-! ## Any kind of value -/

section
variable {value : Ty → ValueScan} {skip : FileProg Bool} {type : Ty} {location : Nat}
  {mem : Memory}

/-- A value that is not there changes nothing. -/
theorem stays_opening {p : FileProg (Bool × Memory)} {c : Int} (hc : c ≠ -1)
    (hok : SlotsOk mem type location)
    (hp : ∀ pos, Stays text p pos fun r _ => Contained mem r.2 type location) :
    Stays text
      (if charAt text pos = c then do
        let _ ← fnextFast
        p
      else pure (false, mem))
      pos fun r _ => Contained mem r.2 type location := by
  by_cases hopen : charAt text pos = c
  · rw [if_pos hopen]
    exact .nextFast (by rwa [hopen]) (hp (pos + 1))
  · rw [if_neg hopen]
    exact .pure (Contained.refl hok)

theorem stays_scanValue (hscan : fl.Stays)
    (hvalue : ∀ type, Placed type → KeepsBounds text type (value type))
    (hskip : ∀ pos, Stays text skip pos fun _ _ => True) (fuel : Nat) (hplaced : Placed type)
    (hok : SlotsOk mem type location) :
    Stays text (scanValue fl value skip fuel type location (charAt text pos) mem) pos
      fun r _ => Contained mem r.2 type location := by
  cases hplaced with
  | tBool fits => exact stays_bool hscan fuel fits
  | tInteger fits =>
      exact stays_saveNumber (stays_intNumber hscan fuel) hok fun num =>
        contained_store ((leBytes_length _ _).trans_le fits) .tInteger
  | tDouble fits =>
      exact stays_saveNumber (stays_doubleNumber hscan fuel) hok fun num =>
        contained_store ((fl.putDouble_length _).trans_le fits) .tDouble
  | tFloat fits =>
      exact stays_saveNumber (stays_floatNumber hscan fuel) hok fun num =>
        contained_store ((fl.putFloat_length _).trans_le fits) .tFloat
  | tString positive fits =>
      rw [scanValue]
      by_cases hopen : charAt text pos = ch '"'
      · rw [if_pos hopen]
        exact stays_string fuel positive fits hopen
      · rw [if_neg hopen]
        exact .pure (Contained.refl hok)
  | tStruct within apart types =>
      refine stays_opening (by decide) hok fun pos₁ => ?_
      refine .bind (stays_structLoop hscan within apart types
        (fun m hm => hvalue m.2.1 (types m hm)) hskip fuel fuel true hok) fun r pos₂ hr => ?_
      exact .bind (stays_closing (by decide) r.1) fun _ _ _ => .pure hr
  | @tArray size subtype check positive whole flat items =>
      have hitems : SlotsOk mem (.tArray size subtype none) location := by
        cases hok with
        | tArray items => exact .tArray items
      refine stays_opening (by decide) hok fun pos₁ => ?_
      refine .bind (stays_arrayLoop items positive whole flat (hvalue _ items) hskip fuel fuel
        (Nat.dvd_zero _) (Nat.zero_le _) true hitems) fun r pos₂ hr => ?_
      obtain ⟨rtn, idx, mem₁⟩ := r
      refine .bind (stays_closing (by decide) rtn) fun _ _ _ => .pure ⟨hr.2.outside, ?_⟩
      cases hr.2.slots with
      | tArray items => exact .tArray items
  | tVarray positive whole flat items =>
      obtain ⟨-, hitems⟩ := SlotsOk.tVarray_iff.mp hok
      refine stays_opening (by decide) hok fun pos₁ => ?_
      refine .bind (stays_arrayLoop items positive whole flat (hvalue _ items) hskip fuel fuel
        (Nat.dvd_zero _) (Nat.zero_le _) true hitems) fun r pos₂ hr => ?_
      obtain ⟨rtn, idx, mem₁⟩ := r
      obtain ⟨hidx, hchange⟩ := hr
      obtain ⟨houtside, hslots⟩ := hchange.setLen items (idx / _)
      refine .bind (stays_closing (by decide) rtn) fun _ _ _ =>
        .pure ⟨houtside, SlotsOk.tVarray_iff.mpr ⟨?_, hslots⟩⟩
      rw [getLen_setLen]
      exact (Nat.mod_le _ _).trans (Nat.div_le_div_right hidx)
  | tTable positive within apart types =>
      obtain ⟨-, hrows⟩ := SlotsOk.tTable_iff.mp hok
      have hrow : Placed (.tStruct _ _ none) := .tStruct within apart types
      refine stays_opening (by decide) hok fun pos₁ => ?_
      refine .bind (stays_columnLoop hscan fuel fuel 0 fun m hm => ?_) fun r pos₂ hmap => ?_
      · cases List.eq_of_mem_replicate hm
      obtain ⟨maxcol, map⟩ := r
      refine .bind (stays_rowLoop hscan within apart types (fun m hm => hvalue m.2.1 (types m hm))
        hskip fuel fuel (fun m hm => hmap m (List.mem_of_mem_take hm)) (Nat.zero_le _)
        (fun _ => by rw [Nat.zero_mul, Nat.add_zero]) true hrows) fun r pos₃ hr => ?_
      obtain ⟨rtn, row, mem₁⟩ := r
      obtain ⟨hcount, hchange⟩ := hr
      obtain ⟨houtside, hslots⟩ := hchange.setLen hrow row
      refine .bind (stays_fscan hscan fuel " )%e") fun _ _ _ =>
        .pure ⟨houtside, SlotsOk.tTable_iff.mpr ⟨?_, hslots⟩⟩
      rw [getLen_setLen]
      exact (Nat.mod_le _ _).trans hcount

end

/-- `nk_fscan_keyval` on any text, by induction on the levels of the value. -/
theorem keepsBounds_keyval (hscan : fl.Stays) (fuel : Nat) {type : Ty} (hplaced : Placed type) :
    KeepsBounds text type (nkFscanKeyval fl fuel type) := by
  induction fuel generalizing type with
  | zero => exact fun location mem pos hok => .pure (Contained.refl hok)
  | succ fuel ih =>
      intro location mem pos hok
      refine Stays.mono (Stays.orRewind (?_ : Stays text _ pos fun (r : Bool × Memory) _ =>
        Contained mem r.2 type location)) fun r pos' h => h.1
      refine .peek (.bind (stays_scanValue hscan (fun type hplaced => ih hplaced)
        (stays_skipValue hscan fuel) fuel hplaced hok) fun _ _ hr => ?_)
      exact .pure hr

/-- Whatever is in the file, `nk_fscan_keyval` writes only within the memory of the
value; afterwards every string ends within its size and no array or table is longer than
there is space; and a failed parse leaves the position where it was.  A header of more
than `NKDBASE_MAXCOLS` names is outside of the model. -/
theorem nkFscanKeyval_contained (hscan : fl.Stays) {type : Ty} (hplaced : Placed type)
    {mem : Memory} {location : Nat} (hok : SlotsOk mem type location) (fuel : Nat) {w : Nat}
    {f : Nkinfile w} (hfile : Agrees f ⟨text, pos⟩) :
    ∃ status mem' f' pos',
      (nkFscanKeyval fl fuel type location mem).run (nkinfile w) f = some ((status, mem'), f') ∧
      Agrees f' ⟨text, pos'⟩ ∧
      SameOutside mem mem' location type.extent ∧
      SlotsOk mem' type location ∧
      (status = false → pos' = pos) := by
  have hstays : Stays text (nkFscanKeyval fl fuel type location mem) pos fun r pos' =>
      Contained mem r.2 type location ∧ (r.1 = false → pos' = pos) := by
    cases fuel with
    | zero => exact .pure ⟨Contained.refl hok, fun _ => rfl⟩
    | succ fuel =>
        refine Stays.orRewind (.peek (.bind (stays_scanValue hscan
          (fun type hplaced => keepsBounds_keyval hscan fuel hplaced) (stays_skipValue hscan fuel)
          fuel hplaced hok) fun _ _ hr => .pure hr))
  obtain ⟨⟨status, mem'⟩, f', pos', hrun, hagrees, hcontained, hrewind⟩ := hstays.run hfile
  exact ⟨status, mem', f', pos', hrun, hagrees, hcontained.outside, hcontained.slots, hrewind⟩

/-- A string that is cut off, a row that breaks off and one that is too many, with
`fstrtod` for the numbers. -/
theorem nkFscanKeyval_contained_rows :
    let row : List Member := [([110], .tInteger .tInt8 1 none, 0), ([115], .tString 3 none, 1)]
    let type : Ty := .tTable 8 4 row none
    let fl : Floats := { Floats.absent with scan := nkFscanDouble 99 (fun _ _ => ()) () }
    let text : List UInt8 := ascii "(n s : 7 \"abcd\" : \"x\" : 1 \"y\""
    let mem : Memory := fun _ => 0
    ∃ status mem' f' pos',
      (nkFscanKeyval fl 99 type 100 mem).run (nkinfile 32)
        (nkinfileOpenMem 32 (text ++ []) text.length) = some ((status, mem'), f') ∧
      Agrees f' ⟨text, pos'⟩ ∧ SameOutside mem mem' 100 16 ∧ SlotsOk mem' type 100 ∧
      (status = false → pos' = 0) := by
  intro row type fl text mem
  have hscan : fl.Stays := Floats.stays_fstrtod .absent 99 (fun _ _ => ()) ()
  have hplaced : Placed type := by
    refine .tTable (by decide) ?_ (by simp [row, Apart, Ty.extent, Ty.size]) ?_
    all_goals
      intro m hm
      simp only [row, List.mem_cons, List.not_mem_nil, or_false] at hm
      rcases hm with rfl | rfl
    · decide
    · decide
    · exact .tInteger (by decide)
    · exact .tString (by decide) (by decide)
  have hok : SlotsOk mem type 100 := by
    refine .tTable (by decide) fun i hi m hm => ?_
    simp only [row, List.mem_cons, List.not_mem_nil, or_false] at hm
    rcases hm with rfl | rfl
    · exact .tInteger
    · exact .tString (by simp [mem, Memory.read])
  have hsize : text.length < 2 ^ 32 := by decide +kernel
  exact nkFscanKeyval_contained hscan hplaced hok 99 (nkinfileOpenMem_agrees text [] hsize)

end LibnklabsPico.Dbase
