/-
  Text/Scanning.lean --- what the scanning functions read, in terms of text.

  One lemma for each scanning function and for each item of a format: in front of
  a token it is made for it reads that token, and in front of anything else it
  stays where it is.
-/
import LibnklabsPico.Text.Nkscan

set_option autoImplicit false

namespace LibnklabsPico.Text

open LibnklabsPico.Foundation
open LibnklabsPico.File

variable {fl : Floats} {fuel : Nat}

/-! ## Whitespace -/

/-- A run of whitespace. -/
def Blank (ws : List UInt8) : Prop := ∀ b ∈ ws, nkIsspace b.toNat = true

theorem takes_wsLoop {ws rest : List UInt8} (hws : Blank ws)
    (hrest : nkIsspace (peekHead rest) = false) (hfuel : ws.length ≤ fuel) :
    Takes (wsLoop fuel (peekHead (ws ++ rest))) ws rest () := by
  induction ws generalizing fuel with
  | nil =>
      cases fuel with
      | zero => exact Takes.pure () rest
      | succ fuel =>
          simp only [wsLoop, List.nil_append, hrest]
          exact Takes.pure () rest
  | cons b ws ih =>
      obtain ⟨fuel, rfl⟩ : ∃ k, fuel = k + 1 := ⟨fuel - 1, by simp at hfuel; omega⟩
      have hb : nkIsspace (peekHead (b :: (ws ++ rest))) = true := hws b (by simp)
      simp only [wsLoop, List.cons_append, hb, if_true]
      exact Takes.bind (Takes.nextFast b (ws ++ rest))
        (ih (fun c hc => hws c (List.mem_cons_of_mem b hc)) (by simpa using hfuel))

/-- Whitespace is read up to the first other character. -/
theorem takes_ws {ws rest : List UInt8} (hws : Blank ws)
    (hrest : nkIsspace (peekHead rest) = false) (hfuel : ws.length ≤ fuel) :
    Takes (nkFscanWs fuel) ws rest () :=
  Takes.look (Takes.peek _) (takes_wsLoop hws hrest hfuel)

/-! ## The items of a format -/

section
variable {fmt : List Directive} {args : List ScanArg} {out : List (Scanned fl)} {mem : Memory}
  {tok rest : List UInt8} {result : Bool × List (Scanned fl) × Memory}

theorem takes_succeed (rest : List UInt8) :
    Takes (scanDirectives fl fuel false (.succeed :: fmt) args out mem) [] rest
      (true, out, mem) := by
  simp only [scanDirectives]
  exact Takes.pure _ rest

theorem takes_blank {ws : List UInt8} (hws : Blank ws)
    (hrest : nkIsspace (peekHead (tok ++ rest)) = false) (hfuel : ws.length ≤ fuel)
    (h : Takes (scanDirectives fl fuel false fmt args out mem) tok rest result) :
    Takes (scanDirectives fl fuel false (.blank :: fmt) args out mem) (ws ++ tok) rest
      result := by
  simp only [scanDirectives]
  exact Takes.bind (takes_ws hws hrest hfuel) h

theorem takes_lit (c : UInt8)
    (h : Takes (scanDirectives fl fuel false fmt args out mem) tok rest result) :
    Takes (scanDirectives fl fuel false (.lit c :: fmt) args out mem) (c :: tok) rest
      result := by
  simp only [scanDirectives, Bool.false_eq_true, if_false]
  refine Takes.look (Takes.peek _) ?_
  have hc : peekHead (c :: tok ++ rest) = c.toNat := rfl
  rw [if_pos hc]
  exact Takes.bind (Takes.nextFast c (tok ++ rest)) h

theorem takes_lits (l : List UInt8)
    (h : Takes (scanDirectives fl fuel false fmt args out mem) tok rest result) :
    Takes (scanDirectives fl fuel false (l.map .lit ++ fmt) args out mem) (l ++ tok) rest
      result := by
  induction l with
  | nil => exact h
  | cons c l ih => exact takes_lit c ih

/-- A literal in front of another character fails. -/
theorem takes_lit_ne {c : UInt8} (hc : peekHead rest ≠ c.toNat) :
    Takes (scanDirectives fl fuel false (.lit c :: fmt) args out mem) [] rest
      (false, out, mem) := by
  simp only [scanDirectives, Bool.false_eq_true, if_false]
  refine Takes.look (Takes.peek rest) ?_
  rw [if_neg hc]
  exact Takes.pure _ rest

end

/-! ## Identifiers -/

theorem ofNat_wrap (c : UInt8) : UInt8.ofNat (wrap 8 c.toNat) = c := by
  rw [wrap_natCast c.toNat_lt, UInt8.ofNat_toNat]

/-- An identifier of C. -/
structure IsIdent (name : List UInt8) : Prop where
  start : isIdentStart (peekHead name) = true
  chars : ∀ c ∈ name, isIdentChar c.toNat = true

namespace IsIdent

variable {name : List UInt8}

/-- The test that decides it. -/
theorem of_all (h : (isIdentStart (peekHead name) &&
    name.all fun c => isIdentChar c.toNat) = true) : IsIdent name := by
  rw [Bool.and_eq_true, List.all_eq_true] at h
  exact ⟨h.1, h.2⟩

theorem ne_nil (h : IsIdent name) : name ≠ [] := by
  rintro rfl
  exact absurd h.start (by decide)

theorem head_append (h : IsIdent name) (rest : List UInt8) :
    peekHead (name ++ rest) = peekHead name := by
  cases name with
  | nil => exact absurd rfl h.ne_nil
  | cons c name => rfl

theorem not_space (h : IsIdent name) : nkIsspace (peekHead name) = false := by
  have hstart := h.start
  simp only [isIdentStart, nkIsspace, ch] at *
  grind

end IsIdent

theorem takes_tokenLoop {charOk : Int → Bool} {name rest : List UInt8} {width : Int} {size : Nat}
    {buf : List UInt8} {status : Bool} (hwidth : width < 0)
    (hname : ∀ c ∈ name, charOk c.toNat = true) (hrest : charOk (peekHead rest) = false)
    (hsize : name.length < size) (hfuel : name.length ≤ fuel) :
    Takes (tokenLoop false charOk fuel (peekHead (name ++ rest)) width size buf status) name rest
      (status || !name.isEmpty, buf ++ name) := by
  induction name generalizing fuel width size buf status with
  | nil =>
      have hdone : Takes (Pure.pure (status, buf)) [] rest
          (status || !([] : List UInt8).isEmpty, buf ++ []) := by
        simpa using Takes.pure (status, buf) rest
      cases fuel with
      | zero => exact hdone
      | succ fuel =>
          simp only [tokenLoop, List.nil_append, hrest, Bool.false_eq_true, and_false, if_false]
          exact hdone
  | cons c name ih =>
      obtain ⟨fuel, rfl⟩ : ∃ k, fuel = k + 1 := ⟨fuel - 1, by simp at hfuel; omega⟩
      have hc : width ≠ 0 ∧ charOk (peekHead (c :: (name ++ rest))) = true :=
        ⟨by omega, hname c (by simp)⟩
      have hput : bufPut buf size (peekHead (c :: (name ++ rest))) = (buf ++ [c], size - 1) := by
        simp only [List.length_cons] at hsize
        rw [bufPut, if_pos (by omega)]
        exact congrArg (fun d => (buf ++ [d], size - 1)) (ofNat_wrap c)
      simp only [tokenLoop, List.cons_append, hc, if_true, ne_eq, Bool.false_eq_true, if_false,
        hput, and_self, not_false_eq_true]
      have hnext : Takes (tokenLoop false charOk fuel (peekHead (name ++ rest)) (width - 1)
          (size - 1) (buf ++ [c]) true) name rest (true || !name.isEmpty, buf ++ [c] ++ name) :=
        ih (by omega) (fun d hd => hname d (List.mem_cons_of_mem c hd))
          (by simp only [List.length_cons] at hsize; omega) (by simpa using hfuel)
      have hboth := Takes.bind
        (f := fun d => tokenLoop false charOk fuel d (width - 1) (size - 1) (buf ++ [c]) true)
        (Takes.nextFast c (name ++ rest)) hnext
      simpa using hboth

/-- An identifier that fits the buffer is read whole. -/
theorem takes_ident {name rest : List UInt8} {size : Nat} (hname : IsIdent name)
    (hrest : isIdentChar (peekHead rest) = false) (hsize : name.length < size)
    (hfuel : name.length ≤ fuel) :
    Takes (nkFscanIdent fuel false (-1) size) name rest (true, name) := by
  have hstart : isIdentStart (peekHead (name ++ rest)) = true :=
    hname.head_append rest ▸ hname.start
  have hquote : ¬ peekHead (name ++ rest) = ch '"' := by
    intro h
    rw [h] at hstart
    exact absurd hstart (by decide)
  have hloop : Takes (tokenLoop false isIdentChar fuel (peekHead (name ++ rest)) (-1) size []
      false) name rest (false || !name.isEmpty, [] ++ name) :=
    takes_tokenLoop (by decide) hname.chars hrest hsize hfuel
  have hempty : name.isEmpty = false := by simpa using hname.ne_nil
  rw [hempty] at hloop
  refine Takes.orRewind_ok (Takes.look (Takes.peek _) ?_) rfl
  rw [if_neg hquote, if_pos hstart]
  exact hloop

/-- In front of anything else no identifier is read. -/
theorem takes_no_ident {rest : List UInt8} {size : Nat} {width : Int}
    (hquote : peekHead rest ≠ ch '"') (hstart : isIdentStart (peekHead rest) = false) :
    Takes (nkFscanIdent fuel false width size) [] rest (false, []) := by
  refine Takes.orRewind_fail (?_ : Takes _ [] rest (false, [])) rfl
  refine Takes.look (Takes.peek rest) ?_
  rw [if_neg hquote, if_neg (by simp [hstart])]
  exact Takes.pure _ rest

section
variable {fmt : List Directive} {args : List ScanArg} {out : List (Scanned fl)} {mem : Memory}
  {rest : List UInt8} {size : Nat}

/-- `%i` in front of an identifier. -/
theorem takes_ident_item {name tok : List UInt8} {result : Bool × List (Scanned fl) × Memory}
    (hname : IsIdent name) (hnext : isIdentChar (peekHead (tok ++ rest)) = false)
    (hsize : name.length < size) (hfuel : name.length ≤ fuel)
    (h : Takes (scanDirectives fl fuel false fmt args (out ++ [.text name]) mem) tok rest
      result) :
    Takes (scanDirectives fl fuel false (.ident (-1) :: fmt) (.buf size :: args) out mem)
      (name ++ tok) rest result := by
  simp only [scanDirectives]
  exact Takes.bind (takes_ident hname hnext hsize hfuel) h

/-- `%i` in front of something else. -/
theorem takes_ident_item_ne {width : Int} (hquote : peekHead rest ≠ ch '"')
    (hstart : isIdentStart (peekHead rest) = false) :
    Takes (scanDirectives fl fuel false (.ident width :: fmt) (.buf size :: args) out mem)
      [] rest (false, out, mem) := by
  simp only [scanDirectives]
  exact Takes.look (takes_no_ident hquote hstart) (Takes.pure _ rest)

end

/-! ## Whole formats -/

section
variable {fmt : String} {tok rest : List UInt8}

theorem takes_fscan
    (h : Takes (scanDirectives fl fuel false (parseFmt (ascii fmt).length (ascii fmt)) [] []
      (fun _ => 0)) tok rest (true, [], fun _ => 0)) :
    Takes (nkFscan fl fuel fmt) tok rest true :=
  Takes.finish (Takes.orRewind_ok h rfl) (Takes.pure true rest)

theorem takes_fscan_fail
    (h : Takes (scanDirectives fl fuel false (parseFmt (ascii fmt).length (ascii fmt)) [] []
      (fun _ => 0)) tok rest (false, [], fun _ => 0)) :
    Takes (nkFscan fl fuel fmt) [] (tok ++ rest) false := by
  have hscan : Takes (nkVscan fl fuel false fmt [] fun _ => 0) [] (tok ++ rest)
      (false, [], fun _ => 0) := Takes.orRewind_fail h rfl
  exact Takes.look hscan (Takes.pure false _)

theorem takes_fscanBuf {size : Nat} {name : List UInt8}
    (h : Takes (scanDirectives fl fuel false (parseFmt (ascii fmt).length (ascii fmt))
      [.buf size] [] (fun _ => 0)) tok rest (true, [Scanned.text name], fun _ => 0)) :
    Takes (nkFscanBuf fl fuel fmt size) tok rest (true, name) :=
  Takes.finish (Takes.orRewind_ok h rfl) (Takes.pure _ rest)

theorem takes_fscanBuf_fail {size : Nat}
    (h : Takes (scanDirectives fl fuel false (parseFmt (ascii fmt).length (ascii fmt))
      [.buf size] [] (fun _ => 0)) tok rest (false, [], fun _ => 0)) :
    Takes (nkFscanBuf fl fuel fmt size) [] (tok ++ rest) (false, []) := by
  have hscan : Takes (nkVscan fl fuel false fmt [.buf size] fun _ => 0) [] (tok ++ rest)
      (false, [], fun _ => 0) := Takes.orRewind_fail h rfl
  exact Takes.look hscan (Takes.pure _ _)

end

/-- `"true %e"` and its like: a word, and the whitespace after it. -/
theorem takes_fscan_lits {fmt : String} (word : List UInt8) {ws rest : List UInt8}
    (hfmt : parseFmt (ascii fmt).length (ascii fmt) = word.map .lit ++ [.blank, .succeed])
    (hws : Blank ws) (hrest : nkIsspace (peekHead rest) = false) (hfuel : ws.length ≤ fuel) :
    Takes (nkFscan fl fuel fmt) (word ++ ws) rest true := by
  refine takes_fscan ?_
  rw [hfmt]
  refine takes_lits word ?_
  rw [← List.append_nil ws]
  exact takes_blank hws hrest hfuel (takes_succeed rest)

theorem takes_fscan_lits_ne {fmt : String} (c : UInt8) (word : List UInt8) {rest : List UInt8}
    (hfmt : parseFmt (ascii fmt).length (ascii fmt) = (c :: word).map .lit ++ [.blank, .succeed])
    (hc : peekHead rest ≠ c.toNat) : Takes (nkFscan fl fuel fmt) [] rest false := by
  rw [← List.nil_append rest]
  refine takes_fscan_fail ?_
  rw [hfmt]
  exact takes_lit_ne hc

/-- `" ,%e"` and its like: whitespace and a mark. -/
theorem takes_fscan_mark {fmt : String} {c : UInt8} {ws rest : List UInt8}
    (hfmt : parseFmt (ascii fmt).length (ascii fmt) = [.blank, .lit c, .succeed])
    (hws : Blank ws) (hc : nkIsspace c.toNat = false) (hfuel : ws.length ≤ fuel) :
    Takes (nkFscan fl fuel fmt) (ws ++ [c]) rest true := by
  refine takes_fscan ?_
  rw [hfmt]
  exact takes_blank hws hc hfuel (takes_lit c (takes_succeed rest))

theorem takes_fscan_mark_ne {fmt : String} {c : UInt8} {fmt' : List Directive}
    {ws rest : List UInt8}
    (hfmt : parseFmt (ascii fmt).length (ascii fmt) = .blank :: .lit c :: fmt')
    (hws : Blank ws) (hrest : nkIsspace (peekHead rest) = false) (hc : peekHead rest ≠ c.toNat)
    (hfuel : ws.length ≤ fuel) : Takes (nkFscan fl fuel fmt) [] (ws ++ rest) false := by
  refine takes_fscan_fail ?_
  rw [hfmt, ← List.append_nil ws]
  exact takes_blank hws hrest hfuel (takes_lit_ne hc)

/-- `" : %e"`: whitespace on both sides of the mark. -/
theorem takes_fscan_mark_blank {fmt : String} {c : UInt8} {ws ws' rest : List UInt8}
    (hfmt : parseFmt (ascii fmt).length (ascii fmt) = [.blank, .lit c, .blank, .succeed])
    (hws : Blank ws) (hc : nkIsspace c.toNat = false) (hws' : Blank ws')
    (hrest : nkIsspace (peekHead rest) = false) (hfuel : ws.length ≤ fuel)
    (hfuel' : ws'.length ≤ fuel) :
    Takes (nkFscan fl fuel fmt) (ws ++ c :: ws') rest true := by
  refine takes_fscan ?_
  rw [hfmt]
  refine takes_blank hws hc hfuel (takes_lit c ?_)
  rw [← List.append_nil ws']
  exact takes_blank hws' hrest hfuel' (takes_succeed rest)

/-- `"%i : %e"`: an identifier and the colon after it. -/
theorem takes_fscan_key {fmt : String} {size : Nat} {name ws rest : List UInt8}
    (hfmt : parseFmt (ascii fmt).length (ascii fmt) =
      [.ident (-1), .blank, .lit 58, .blank, .succeed])
    (hname : IsIdent name) (hsize : name.length < size) (hws : Blank ws)
    (hrest : nkIsspace (peekHead rest) = false) (hfuel : name.length ≤ fuel)
    (hfuel' : ws.length ≤ fuel) :
    Takes (nkFscanBuf fl fuel fmt size) (name ++ 58 :: ws) rest (true, name) := by
  refine takes_fscanBuf ?_
  rw [hfmt]
  refine takes_ident_item hname (by decide : isIdentChar (peekHead [58]) = false) hsize hfuel ?_
  have hblank : Blank [] := by simp [Blank]
  have hcolon : nkIsspace (peekHead [58]) = false := by decide
  refine takes_blank hblank hcolon (Nat.zero_le fuel) (takes_lit 58 ?_)
  rw [← List.append_nil ws]
  exact takes_blank hws hrest hfuel' (takes_succeed rest)

/-- `" %i %e"`: an identifier between whitespace. -/
theorem takes_fscan_column {fmt : String} {size : Nat} {name ws ws' rest : List UInt8}
    (hfmt : parseFmt (ascii fmt).length (ascii fmt) = [.blank, .ident (-1), .blank, .succeed])
    (hws : Blank ws) (hname : IsIdent name) (hsize : name.length < size) (hws' : Blank ws')
    (hnext : isIdentChar (peekHead (ws' ++ rest)) = false)
    (hrest : nkIsspace (peekHead rest) = false) (hfuel : name.length ≤ fuel)
    (hfuel' : ws.length ≤ fuel) (hfuel'' : ws'.length ≤ fuel) :
    Takes (nkFscanBuf fl fuel fmt size) (ws ++ (name ++ ws')) rest (true, name) := by
  refine takes_fscanBuf ?_
  rw [hfmt]
  refine takes_blank hws ?_ hfuel' (takes_ident_item hname hnext hsize hfuel ?_)
  · rw [List.append_assoc, hname.head_append]
    exact hname.not_space
  · have hend : Takes (scanDirectives fl fuel false [.blank, .succeed] []
        [Scanned.text name] fun _ => 0) (ws' ++ []) rest
        (true, [Scanned.text name], fun _ => 0) :=
      takes_blank hws' hrest hfuel'' (takes_succeed rest)
    rwa [List.append_nil] at hend

/-- The formats that start with an identifier, in front of something else. -/
theorem takes_fscan_no_ident {fmt : String} {size : Nat} {fmt' : List Directive}
    {ws rest : List UInt8}
    (hfmt : parseFmt (ascii fmt).length (ascii fmt) = .ident (-1) :: fmt' ∧ ws = [] ∨
      parseFmt (ascii fmt).length (ascii fmt) = .blank :: .ident (-1) :: fmt')
    (hws : Blank ws) (hrest : nkIsspace (peekHead rest) = false)
    (hquote : peekHead rest ≠ ch '"') (hstart : isIdentStart (peekHead rest) = false)
    (hfuel : ws.length ≤ fuel) :
    Takes (nkFscanBuf fl fuel fmt size) [] (ws ++ rest) (false, []) := by
  refine takes_fscanBuf_fail ?_
  obtain ⟨hfmt, rfl⟩ | hfmt := hfmt
  · rw [hfmt]
    exact takes_ident_item_ne hquote hstart
  · rw [hfmt, ← List.append_nil ws]
    exact takes_blank hws hrest hfuel (takes_ident_item_ne hquote hstart)

end LibnklabsPico.Text
