/-
  Dbase/Skipping.lean --- what `skip_value` skips.

  `skip_value` skips a value as the serializer puts it when there is no string in it:
  behind a string it stops in front of the closing quote.  Each of its loops skips the
  items, the members or the rows one by one.
-/
import LibnklabsPico.Dbase.Reading

set_option autoImplicit false

namespace LibnklabsPico.Dbase

open LibnklabsPico.Foundation
open LibnklabsPico.File
open LibnklabsPico.Text

variable {s : Spacing} {fl : Floats} {charSigned : Bool} {mem : Memory} {fuel : Nat}

/-- There is no string in a value: none of its members, and none of the items and rows
that it has. -/
inductive StringFree (mem : Memory) : Ty → Nat → Prop where
  | tBool {size location : Nat} {check : Check} : StringFree mem (.tBool size check) location
  | tInteger {what : IntType} {size location : Nat} {check : Check} :
      StringFree mem (.tInteger what size check) location
  | tStruct {size location : Nat} {members : List Member} {check : Check}
      (parts : ∀ m ∈ members, StringFree mem m.2.1 (location + m.2.2)) :
      StringFree mem (.tStruct size members check) location
  | tArray {size location : Nat} {subtype : Ty} {check : Check}
      (items : ∀ i < size / subtype.size, StringFree mem subtype (location + i * subtype.size)) :
      StringFree mem (.tArray size subtype check) location
  | tVarray {size location : Nat} {subtype : Ty} {check : Check}
      (items : ∀ i < getLen mem location,
        StringFree mem subtype (location + lenSize + i * subtype.size)) :
      StringFree mem (.tVarray size subtype check) location
  | tTable {size rowSize location : Nat} {columns : List Member} {check : Check}
      (fields : ∀ i < getLen mem location, ∀ m ∈ columns,
        StringFree mem m.2.1 (location + lenSize + i * rowSize + m.2.2)) :
      StringFree mem (.tTable size rowSize columns check) location

/-- No whitespace in front of a closing brace, which `skip_value` would not skip. -/
structure Spacing.Tight (s : Spacing) : Prop where
  opening : s.opening.1 = []
  last : s.last.1 = []
  closing : ∀ ind, (s.closing ind).1 = []

theorem compact_tight : Spacing.compact.Tight := ⟨rfl, rfl, fun _ => rfl⟩

/-- The words that come first are not there. -/
theorem takes_skipValue {tok rest : List UInt8} (htrue : peekHead (tok ++ rest) ≠ 116)
    (hfalse : peekHead (tok ++ rest) ≠ 102) (hnull : peekHead (tok ++ rest) ≠ 110)
    (h : Takes (skipBranches fl (skipValue fl fuel) fuel (peekHead (tok ++ rest))) tok rest true) :
    Takes (skipValue fl (fuel + 1)) tok rest true := by
  have hnotTrue : Takes (nkFscan fl fuel "true %e") [] (tok ++ rest) false :=
    takes_fscan_lits_ne 116 (ascii "rue") rfl htrue
  have hnotFalse : Takes (nkFscan fl fuel "false %e") [] (tok ++ rest) false :=
    takes_fscan_lits_ne 102 (ascii "alse") rfl hfalse
  have hnotNull : Takes (nkFscan fl fuel "null %e") [] (tok ++ rest) false :=
    takes_fscan_lits_ne 110 (ascii "ull") rfl hnull
  refine Takes.orRewind_ok (Takes.look hnotTrue ?_) rfl
  rw [if_neg Bool.false_ne_true]
  refine Takes.look hnotFalse ?_
  rw [if_neg Bool.false_ne_true]
  refine Takes.look hnotNull ?_
  rw [if_neg Bool.false_ne_true]
  exact Takes.look (Takes.peek _) h

/-- A value that starts with a mark. -/
theorem takes_skipValue_mark {c : UInt8} {tok rest : List UInt8}
    (hc : c = 123 ∨ c = 91 ∨ c = 40)
    (h : Takes (skipBranches fl (skipValue fl fuel) fuel c.toNat) (c :: tok) rest true) :
    Takes (skipValue fl (fuel + 1)) (c :: tok) rest true := by
  have hhead : peekHead (c :: tok ++ rest) = c.toNat := rfl
  have hne : (c.toNat : Int) ≠ 116 ∧ (c.toNat : Int) ≠ 102 ∧ (c.toNat : Int) ≠ 110 := by
    rcases hc with rfl | rfl | rfl <;> decide
  exact takes_skipValue (hhead ▸ hne.1) (hhead ▸ hne.2.1) (hhead ▸ hne.2.2) (hhead ▸ h)

/-! ## Scalars -/

theorem skips_bool (size : Nat) (check : Check) (ind : Int) (location : Nat) :
    Skips fl (.tBool size check)
      (layout s fl charSigned mem (.tBool size check) ind location) := by
  intro fuel ws rest hfollows hfuel
  obtain ⟨fuel, rfl⟩ : ∃ k, fuel = k + 1 := ⟨fuel - 1, by omega⟩
  obtain ⟨hws, hspace, -⟩ := hfollows.open rfl
  simp only [List.length_append] at hfuel
  have hle : ws.length ≤ fuel := by omega
  refine ⟨ws, [], (List.append_nil ws).symm, fun _ => rfl, ?_⟩
  simp only [layout]
  split
  · refine Takes.orRewind_ok ?_ rfl
    refine Takes.finish (takes_fscan_lits (ascii "true") rfl hws hspace hle) ?_
    exact Takes.pure _ _
  · have hnot : Takes (nkFscan fl fuel "true %e") [] (ascii "false" ++ ws ++ ([] ++ rest)) false :=
      takes_fscan_lits_ne 116 (ascii "rue") rfl
        (by decide : peekHead (ascii "false") ≠ (116 : UInt8).toNat)
    refine Takes.orRewind_ok (Takes.look hnot ?_) rfl
    rw [if_neg Bool.false_ne_true]
    refine Takes.finish (takes_fscan_lits (ascii "false") rfl hws hspace hle) ?_
    exact Takes.pure _ _

/-- What starts with a digit or a minus sign is no word and has no mark. -/
theorem number_head {c : Int} (h : isDigit c = true ∨ c = 45) :
    c ≠ 116 ∧ c ≠ 102 ∧ c ≠ 110 ∧ c ≠ ch '{' ∧ c ≠ ch '[' ∧ c ≠ ch '(' ∧ c ≠ ch '"' := by
  simp only [isDigit, ch] at *
  grind

theorem skips_integer (what : IntType) (size : Nat) (check : Check) (ind : Int)
    (location : Nat) :
    Skips fl (.tInteger what size check)
      (layout s fl charSigned mem (.tInteger what size check) ind location) := by
  intro fuel ws rest hfollows hfuel
  obtain ⟨fuel, rfl⟩ : ∃ k, fuel = k + 1 := ⟨fuel - 1, by omega⟩
  obtain ⟨-, -, hends⟩ := hfollows.open rfl
  obtain ⟨hlow, hhigh, -⟩ := what.load_range charSigned mem location
  simp only [layout] at hfuel ⊢
  generalize hn : what.load charSigned mem location = n at *
  generalize hneg : decide (n < 0) = neg at *
  have hdigits : (decDigits n.natAbs).length ≤ fuel := by
    have := numText_length neg n.natAbs
    simp only [List.length_append] at hfuel
    omega
  have hscan : Takes (scanIntNumber fl fuel (peekHead (numText neg n.natAbs ++ (ws ++ rest))))
      (numText neg n.natAbs) (ws ++ rest) (true, some (.int neg n.natAbs)) :=
    takes_scanIntNumber (by omega) hends hdigits
  have hhead : isDigit (peekHead (numText neg n.natAbs ++ (ws ++ rest))) = true ∨
      peekHead (numText neg n.natAbs ++ (ws ++ rest)) = 45 := by
    obtain ⟨d, digits, hdigits, hd, -⟩ := decDigits_head n.natAbs hends
    cases neg with
    | false =>
        rw [show numText false n.natAbs = d :: digits from hdigits]
        exact Or.inl hd
    | true => exact Or.inr rfl
  obtain ⟨htrue, hfalse, hnull, hbrace, hbracket, hparen, hquote⟩ := number_head hhead
  refine ⟨[], ws, rfl, (fun h => by cases h), ?_⟩
  rw [List.append_nil]
  refine takes_skipValue htrue hfalse hnull ?_
  rw [skipBranches, if_neg hbrace, if_neg hbracket, if_neg hparen, if_neg hquote]
  exact Takes.finish hscan (Takes.pure _ _)

/-! ## Structures -/

/-- `" %i : %e"`: an identifier between whitespace and the colon. -/
theorem takes_fscan_blank_key {fmt : String} {size : Nat} {name ws gap rest : List UInt8}
    (hfmt : parseFmt (ascii fmt).length (ascii fmt) =
      [.blank, .ident (-1), .blank, .lit 58, .blank, .succeed])
    (hws : Blank ws) (hname : IsIdent name) (hsize : name.length < size) (hgap : Blank gap)
    (hrest : nkIsspace (peekHead rest) = false) (hfuel : (ws ++ (name ++ gap)).length ≤ fuel) :
    Takes (nkFscanBuf fl fuel fmt size) (ws ++ (name ++ 58 :: gap)) rest (true, name) := by
  simp only [List.length_append] at hfuel
  refine takes_fscanBuf ?_
  rw [hfmt]
  have hstart : nkIsspace (peekHead (name ++ 58 :: gap ++ rest)) = false := by
    rw [List.append_assoc, hname.head_append]
    exact hname.not_space
  have hcolon : nkIsspace (peekHead [58]) = false := by decide
  refine takes_blank hws hstart (by omega) (takes_ident_item hname
    (by decide : isIdentChar (peekHead [58]) = false) hsize (by omega) ?_)
  refine takes_blank blank_nil hcolon (Nat.zero_le fuel) (takes_lit 58 ?_)
  rw [← List.append_nil gap]
  exact takes_blank hgap hrest (by omega) (takes_succeed rest)

/-- The members of a structure behind whitespace, up to the closing brace. -/
theorem takes_skipMembers (htight : s.Tight) {size : Nat} {members : List Member} {ind : Int}
    {location n : Nat} {ws rest : List UInt8}
    (hskips : ∀ m ∈ members, Skips fl m.2.1
      (layout s fl charSigned mem m.2.1 (s.member m.2.1.isTable ind) (location + m.2.2)))
    (hok : ∀ m ∈ members, MemberOk size m) (hws : Blank ws) (hempty : members = [] → ws = [])
    (hn : (ws ++ layoutMembers s fl charSigned mem members ind location).length < n)
    (hfuel : (ws ++ layoutMembers s fl charSigned mem members ind location ++
      125 :: rest).length < fuel) :
    Takes (skipMembers fl (skipValue fl fuel) fuel n)
      (ws ++ layoutMembers s fl charSigned mem members ind location) (125 :: rest) true := by
  induction members generalizing n ws with
  | nil =>
      obtain ⟨n, rfl⟩ : ∃ k, n = k + 1 := ⟨n - 1, by omega⟩
      have hnone : Takes (nkFscanBuf fl fuel " %i : %e" nkdbaseMaxIdentLen) [] ([] ++ 125 :: rest)
          (false, []) :=
        takes_fscan_no_ident (Or.inr rfl) blank_nil (by decide : nkIsspace (peekHead [125]) = false)
          (by decide : peekHead [125] ≠ ch '"') (by decide : isIdentStart (peekHead [125]) = false)
          (Nat.zero_le fuel)
      rw [hempty rfl, layoutMembers, skipMembers]
      exact Takes.look hnone (Takes.pure _ _)
  | cons m members ih =>
      obtain ⟨n, rfl⟩ : ∃ k, n = k + 1 := ⟨n - 1, by omega⟩
      obtain ⟨name, type, offset⟩ := m
      obtain ⟨hskip, hskips'⟩ := List.forall_mem_cons.mp hskips
      obtain ⟨hm, hok'⟩ := List.forall_mem_cons.mp hok
      have hstarts := layout_head s fl charSigned mem hm.type (s.member type.isTable ind)
        (location + offset)
      have hlength := layout_length s fl charSigned mem hm.type (s.member type.isTable ind)
        (location + offset)
      generalize htext : layout s fl charSigned mem type (s.member type.isTable ind)
        (location + offset) = text at *
      simp only [layoutMembers, htext, List.append_assoc, List.cons_append, List.length_append,
        List.length_cons] at hn hfuel ⊢
      obtain ⟨gap, tail, hsplit, hgap, hspace, hends, hnext⟩ := members_tail s fl charSigned mem
        fuel (fun m' hm' => (hok' m' hm').ident) ind location blank_nil rest
        (by simp only [List.length_append, List.length_nil]; omega)
      rw [List.append_nil] at hsplit
      have hsplitLength := congrArg List.length hsplit
      simp only [List.length_append] at hsplitLength
      have hvalueFuel : (text ++ (gap ++ (tail ++ 125 :: rest))).length < fuel := by
        simp only [List.length_append, List.length_cons]
        omega
      obtain ⟨ate, left, hate, -, hvalue⟩ := (htext ▸ hskip : Skips fl type text) fuel gap
        (tail ++ 125 :: rest) (Or.inr ⟨hgap, hspace, ends_blank hgap hends⟩) hvalueFuel
      obtain ⟨comma, ws', close', hleft, hws', -, hclose', hcomma⟩ := hnext ate left hate
      obtain rfl : close' = [] := hclose' rfl
      rw [List.append_nil] at hleft hcomma
      have hateLength := congrArg List.length hate
      have hleftLength := congrArg List.length hleft
      simp only [List.length_append] at hateLength hleftLength
      have hlast : members = [] → ws' = [] := by
        rintro rfl
        simp only [List.isEmpty_nil, Spacing.separator, if_true, htight.last, layoutMembers,
          List.length_nil] at hsplitLength hleftLength
        exact List.eq_nil_of_length_eq_zero (by omega)
      have hloop := @ih n ws' hskips' hok' hws' hlast
        (by simp only [List.length_append]; omega)
        (by simp only [List.length_append, List.length_cons]; omega)
      have hkey : Takes (nkFscanBuf fl fuel " %i : %e" nkdbaseMaxIdentLen)
          ((ws ++ (s.before ind).1) ++ (name ++ 58 :: (s.value type.isTable ind).1))
          ((text ++ ate) ++ (left ++ (tail ++ 125 :: rest))) (true, name) := by
        refine takes_fscan_blank_key rfl (blank_append hws (s.before ind).2) hm.ident hm.length
          (s.value type.isTable ind).2 ?_ (by simp only [List.length_append]; omega)
        rw [List.append_assoc]
        exact (hstarts _).facts.1
      have hbehind : left ++ (tail ++ 125 :: rest) = comma ++
          ((ws' ++ layoutMembers s fl charSigned mem members ind location) ++ 125 :: rest) := by
        rw [← List.append_assoc, hleft, List.append_assoc]
      rw [hbehind] at hkey hvalue
      have htakes : Takes (skipMembers fl (skipValue fl fuel) fuel (n + 1))
          (((ws ++ (s.before ind).1) ++ (name ++ 58 :: (s.value type.isTable ind).1)) ++
            ((text ++ ate) ++ (comma ++
              (ws' ++ layoutMembers s fl charSigned mem members ind location)))) (125 :: rest)
          true := by
        rw [skipMembers]
        refine Takes.bind (by simpa only [List.append_assoc] using hkey) ?_
        simp only [if_true]
        refine Takes.bind (by simpa only [List.append_assoc] using hvalue) ?_
        simp only [if_true]
        exact Takes.bind (by simpa only [List.append_assoc] using hcomma) hloop
      rw [hsplit, hate, List.append_assoc ate, hleft]
      simpa only [List.append_assoc, List.cons_append] using htakes

theorem skips_struct (htight : s.Tight) {size : Nat} {members : List Member} {check : Check}
    (ind : Int) {location : Nat}
    (hskips : ∀ m ∈ members, ∀ ind, Skips fl m.2.1
      (layout s fl charSigned mem m.2.1 ind (location + m.2.2)))
    (hok : ∀ m ∈ members, MemberOk size m) :
    Skips fl (.tStruct size members check)
      (layout s fl charSigned mem (.tStruct size members check) ind location) := by
  intro fuel ws rest _ hfuel
  obtain ⟨fuel, rfl⟩ : ∃ k, fuel = k + 1 := ⟨fuel - 1, by omega⟩
  simp only [layout, htight.opening, htight.closing, List.nil_append, List.length_append,
    List.length_cons, List.length_nil] at hfuel ⊢
  have hloop : Takes (skipMembers fl (skipValue fl fuel) fuel fuel)
      ([] ++ layoutMembers s fl charSigned mem members ind location) (125 :: (ws ++ rest)) true :=
    takes_skipMembers htight (fun m hm => hskips m hm _) hok blank_nil (fun _ => rfl)
      (by simp only [List.nil_append]; omega)
      (by simp only [List.nil_append, List.length_append, List.length_cons]; omega)
  refine ⟨[], ws, rfl, (fun h => by cases h), ?_⟩
  rw [List.append_nil]
  refine takes_skipValue_mark (Or.inl rfl) ?_
  rw [skipBranches, if_pos (by rfl)]
  refine Takes.bind (Takes.nextFast 123 _) ?_
  refine Takes.bind (by exact hloop) ?_
  rw [if_pos rfl]
  exact takes_closing 125 true _

/-! ## Arrays -/

theorem takes_feof (c : UInt8) (rest : List UInt8) :
    Takes FileProg.feof [] (c :: rest) 0 := by
  intro pre
  simp [FileProg.feof, plainFile, FileOp.Portable, FileOp.needsBuffer, FileOp.Allowed,
    FileOp.execPlain, Cursor.at, Cursor.atEnd]

theorem takes_fpeekFast (c : UInt8) (rest : List UInt8) :
    Takes FileProg.fpeekFast [] (c :: rest) c.toNat := by
  intro pre
  have hallowed : FileOp.Portable .peekFast (Cursor.at pre (c :: rest)) := by
    refine ⟨rfl, ?_⟩
    simp only [FileOp.Allowed, Cursor.at, List.length_append, List.length_cons]
    omega
  rw [List.nil_append, FileProg.fpeekFast, Prog.run_perform, plainFile, if_pos hallowed]
  simp only [FileOp.execPlain, Cursor.peek_at, List.append_nil]
  rfl

/-- The test of the loop over the items. -/
theorem takes_moreItems (c : UInt8) (rest : List UInt8) :
    Takes (do
      let atEnd ← FileProg.feof
      andAlso (atEnd == 0) do
        let d ← FileProg.fpeekFast
        pure (d != ch ']')) [] (c :: rest) ((c.toNat : Int) != ch ']') := by
  refine Takes.look (takes_feof c rest) ?_
  exact Takes.look (takes_fpeekFast c rest) (Takes.pure _ _)

/-- A pass of the loop over the items that skips a value behind whitespace. -/
theorem takes_skipItems_item {n : Nat} {ws tok tail rest : List UInt8} (hws : Blank ws)
    (hfuel : ws.length ≤ fuel) (hstarts : Starts (peekHead (tok ++ (tail ++ rest))))
    (hvalue : Takes (skipValue fl fuel) tok (tail ++ rest) true)
    (h : Takes (skipItems (skipValue fl fuel) fuel n) tail rest true) :
    Takes (skipItems (skipValue fl fuel) fuel (n + 1)) (ws ++ (tok ++ tail)) rest true := by
  obtain ⟨hspace, hminus, hclose, hcomma, -⟩ := hstarts.facts
  obtain ⟨c, text, htext⟩ : ∃ c text, tok ++ (tail ++ rest) = c :: text := by
    cases hcase : tok ++ (tail ++ rest) with
    | nil =>
        rw [hcase] at hminus
        exact absurd rfl hminus
    | cons c text => exact ⟨c, text, rfl⟩
  have htext' : tok ++ tail ++ rest = c :: text := by rw [List.append_assoc, htext]
  rw [htext] at hspace hclose hcomma
  have hmore : ((c.toNat : Int) != ch ']') = true := bne_iff_ne.mpr hclose
  rw [skipItems]
  refine Takes.bind (takes_ws hws (by rw [htext']; exact hspace) hfuel) ?_
  have hlook := takes_moreItems c text
  rw [hmore, ← htext'] at hlook
  rw [← bind_assoc]
  refine Takes.look hlook ?_
  rw [if_pos rfl]
  refine Takes.look (Takes.peek _) ?_
  rw [htext', if_neg (by exact hcomma)]
  refine Takes.bind hvalue ?_
  rw [if_pos rfl]
  exact h

/-- A pass that reads the comma between two items. -/
theorem takes_skipItems_comma {n : Nat} {tail rest : List UInt8}
    (h : Takes (skipItems (skipValue fl fuel) fuel n) tail rest true) :
    Takes (skipItems (skipValue fl fuel) fuel (n + 1)) (44 :: tail) rest true := by
  have hws : Takes (nkFscanWs fuel) [] (44 :: tail ++ rest) () :=
    takes_ws blank_nil (by decide : nkIsspace (peekHead [44]) = false) (Nat.zero_le fuel)
  have hlook : Takes _ [] (44 :: tail ++ rest) true := takes_moreItems 44 (tail ++ rest)
  rw [skipItems]
  refine Takes.look hws ?_
  rw [← bind_assoc]
  refine Takes.look hlook ?_
  rw [if_pos rfl]
  refine Takes.look (Takes.peek _) ?_
  rw [if_pos (by rfl)]
  exact Takes.bind (Takes.nextFast 44 _) h

theorem takes_skipItems_end {n : Nat} {ws : List UInt8} (hws : Blank ws)
    (hfuel : ws.length ≤ fuel) (rest : List UInt8) :
    Takes (skipItems (skipValue fl fuel) fuel (n + 1)) ws (93 :: rest) true := by
  have hlook : Takes _ [] ([] ++ 93 :: rest) false := takes_moreItems 93 rest
  rw [skipItems]
  refine Takes.finish (takes_ws hws (by decide : nkIsspace (peekHead [93]) = false) hfuel) ?_
  rw [← bind_assoc]
  refine Takes.look hlook ?_
  rw [if_neg Bool.false_ne_true]
  exact Takes.pure _ _

/-- The items of an array behind whitespace, up to the closing bracket. -/
theorem takes_skipItems {subtype : Ty} (hwf : WellFormed subtype) {ind : Int}
    {count n location : Nat} {ws close rest : List UInt8}
    (hskips : ∀ i < count, Skips fl subtype
      (layout s fl charSigned mem subtype (s.item ind) (location + i * subtype.size)))
    (hws : Blank ws) (hclose : Blank close)
    (hn : (ws ++ (layoutItems s (layout s fl charSigned mem subtype (s.item ind)) subtype.size ind
      count location ++ close)).length < n)
    (hfuel : (ws ++ (layoutItems s (layout s fl charSigned mem subtype (s.item ind)) subtype.size
      ind count location ++ close) ++ 93 :: rest).length < fuel) :
    Takes (skipItems (skipValue fl fuel) fuel n)
      (ws ++ (layoutItems s (layout s fl charSigned mem subtype (s.item ind)) subtype.size ind
        count location ++ close)) (93 :: rest) true := by
  induction count generalizing n location ws close with
  | zero =>
      obtain ⟨n, rfl⟩ : ∃ k, n = k + 1 := ⟨n - 1, by omega⟩
      simp only [layoutItems, List.nil_append, List.length_append] at hfuel ⊢
      exact takes_skipItems_end (blank_append hws hclose) (by rw [List.length_append]; omega) rest
  | succ count ih =>
      obtain ⟨n, rfl⟩ : ∃ k, n = k + 1 := ⟨n - 1, by omega⟩
      have hskip := hskips 0 (Nat.succ_pos count)
      rw [Nat.zero_mul, Nat.add_zero] at hskip
      have hskips' : ∀ i < count, Skips fl subtype (layout s fl charSigned mem subtype (s.item ind)
          (location + subtype.size + i * subtype.size)) := by
        intro i hi
        rw [← add_succ_mul]
        exact hskips (i + 1) (by omega)
      have hstarts := layout_head s fl charSigned mem hwf (s.item ind) location
      have hlength := layout_length s fl charSigned mem hwf (s.item ind) location
      obtain ⟨gap, tail, hsplit, hgap, hspace, hends, htail⟩ := items_tail s
        (layout s fl charSigned mem subtype (s.item ind)) subtype.size ind count
        (location + subtype.size) hclose rest
      have htext : ws ++ (layoutItems s (layout s fl charSigned mem subtype (s.item ind))
          subtype.size ind (count + 1) location ++ close) =
          (ws ++ (s.before ind).1) ++ (layout s fl charSigned mem subtype (s.item ind) location ++
            (gap ++ tail)) := by
        rw [← hsplit]
        simp only [layoutItems, List.append_assoc]
      rw [htext] at hn hfuel ⊢
      simp only [List.length_append, List.length_cons] at hn hfuel
      obtain ⟨ate, left, hate, -, hvalue⟩ := hskip fuel gap (tail ++ 93 :: rest)
        (Or.inr ⟨hgap, hspace, ends_blank hgap hends⟩)
        (by simp only [List.length_append, List.length_cons]; omega)
      have hateLength := congrArg List.length hate
      rw [List.length_append] at hateLength
      have hloop : Takes (skipItems (skipValue fl fuel) fuel n) (left ++ tail) (93 :: rest)
          true := by
        rcases htail with ⟨rfl, rfl⟩ | ⟨rfl, rfl⟩
        · have hend := @ih n (location + subtype.size) left [] hskips' (blank_left (hate ▸ hgap))
            blank_nil
          simp only [layoutItems, List.append_nil, List.length_append, List.length_cons] at hend ⊢
          simp only [List.length_nil] at hn hfuel
          exact hend (by omega) (by omega)
        · obtain ⟨n, rfl⟩ : ∃ k, n = k + 1 := ⟨n - 1, by omega⟩
          obtain ⟨rfl, rfl⟩ := List.append_eq_nil_iff.mp hate.symm
          simp only [List.length_append, List.length_cons, List.length_nil] at hn hfuel
          exact takes_skipItems_comma (@ih n (location + subtype.size) s.next.1 close hskips'
            s.next.2 hclose (by simp only [List.length_append]; omega)
            (by simp only [List.length_append, List.length_cons]; omega))
      rw [hate, List.append_assoc ate, ← List.append_assoc _ ate]
      refine takes_skipItems_item (blank_append hws (s.before ind).2)
        (by rw [List.length_append]; omega) (by rw [List.append_assoc]; exact hstarts _)
        (by rw [List.append_assoc]; exact hvalue) hloop

theorem takes_next (c : UInt8) (rest : List UInt8) :
    Takes FileProg.fnext [c] rest (peekHead rest) := by
  intro pre
  have hend : ¬ (Cursor.at pre ([c] ++ rest)).atEnd = true := by
    simp [Cursor.at, Cursor.atEnd]
  have hseek : (Cursor.at pre ([c] ++ rest)).seek (pre.length + 1) =
      Cursor.at (pre ++ [c]) rest := by
    simp [Cursor.at, Cursor.seek]
  have hallowed : FileOp.Portable .next (Cursor.at pre ([c] ++ rest)) := ⟨rfl, trivial⟩
  rw [FileProg.fnext, Prog.run_perform, plainFile, if_pos hallowed]
  simp only [FileOp.execPlain, hend, Cursor.seekPeek]
  rw [show (Cursor.at pre ([c] ++ rest)).pos + 1 = pre.length + 1 from rfl, hseek,
    Cursor.peek_at]
  rfl

/-- What arrays of both kinds share. -/
theorem takes_skipArray {subtype : Ty} (hwf : WellFormed subtype) {ind : Int}
    {count location : Nat} {rest : List UInt8}
    (hskips : ∀ i < count, Skips fl subtype
      (layout s fl charSigned mem subtype (s.item ind) (location + i * subtype.size)))
    (hfuel : (91 :: (s.opening.1 ++ (layoutItems s (layout s fl charSigned mem subtype
      (s.item ind)) subtype.size ind count location ++ ((s.closing ind).1 ++ [93]))) ++
        rest).length < fuel + 1) :
    Takes (skipValue fl (fuel + 1))
      (91 :: (s.opening.1 ++ (layoutItems s (layout s fl charSigned mem subtype (s.item ind))
        subtype.size ind count location ++ ((s.closing ind).1 ++ [93])))) rest true := by
  simp only [List.length_append, List.length_cons, List.length_nil] at hfuel
  have hloop : Takes (skipItems (skipValue fl fuel) fuel fuel)
      (s.opening.1 ++ (layoutItems s (layout s fl charSigned mem subtype (s.item ind))
        subtype.size ind count location ++ (s.closing ind).1)) (93 :: rest) true :=
    takes_skipItems hwf hskips s.opening.2 (s.closing ind).2
      (by simp only [List.length_append]; omega)
      (by simp only [List.length_append, List.length_cons]; omega)
  rw [← List.append_assoc _ (s.closing ind).1, ← List.append_assoc s.opening.1]
  refine takes_skipValue_mark (Or.inr (Or.inl rfl)) ?_
  rw [skipBranches, if_neg (by decide), if_pos (by rfl)]
  refine Takes.bind (Takes.nextFast 91 _) (Takes.bind (by exact hloop) ?_)
  rw [if_pos rfl]
  refine Takes.look (Takes.peek _) ?_
  rw [if_pos (by rfl)]
  exact Takes.finish (takes_next 93 rest) (Takes.pure _ _)

theorem skips_array {size : Nat} {subtype : Ty} {check : Check} (hwf : WellFormed subtype)
    (ind : Int) {location : Nat}
    (hskips : ∀ i < size / subtype.size, Skips fl subtype
      (layout s fl charSigned mem subtype (s.item ind) (location + i * subtype.size))) :
    Skips fl (.tArray size subtype check)
      (layout s fl charSigned mem (.tArray size subtype check) ind location) := by
  intro fuel ws rest _ hfuel
  obtain ⟨fuel, rfl⟩ : ∃ k, fuel = k + 1 := ⟨fuel - 1, by omega⟩
  rw [layout] at hfuel ⊢
  refine ⟨[], ws, rfl, (fun h => by cases h), ?_⟩
  rw [List.append_nil]
  exact takes_skipArray hwf hskips hfuel

theorem skips_varray {size : Nat} {subtype : Ty} {check : Check} (hwf : WellFormed subtype)
    (ind : Int) {location : Nat}
    (hskips : ∀ i < getLen mem location, Skips fl subtype
      (layout s fl charSigned mem subtype (s.item ind) (location + lenSize + i * subtype.size))) :
    Skips fl (.tVarray size subtype check)
      (layout s fl charSigned mem (.tVarray size subtype check) ind location) := by
  intro fuel ws rest _ hfuel
  obtain ⟨fuel, rfl⟩ : ∃ k, fuel = k + 1 := ⟨fuel - 1, by omega⟩
  rw [layout] at hfuel ⊢
  refine ⟨[], ws, rfl, (fun h => by cases h), ?_⟩
  rw [List.append_nil]
  exact takes_skipArray hwf hskips hfuel

/-! ## Tables -/

/-- The header, up to some whitespace behind it. -/
theorem takes_skipColumns {columns : List Member} {n : Nat} {ws gap rest : List UInt8}
    (hident : ∀ m ∈ columns, IsIdent m.1)
    (hlength : ∀ m ∈ columns, m.1.length < nkdbaseMaxIdentLen) (hws : Blank ws)
    (hgap : Blank gap) (hrest : RowEnds (peekHead rest)) (hn : columns.length < n)
    (hfuel : (ws ++ (headerNames s columns ++ gap)).length ≤ fuel) :
    ∃ ate behind, ws ++ (headerNames s columns ++ gap) = ate ++ behind ∧ Blank behind ∧
      Takes (skipColumns fl fuel n) ate (behind ++ rest) () := by
  induction columns generalizing n ws gap with
  | nil =>
      obtain ⟨n, rfl⟩ : ∃ k, n = k + 1 := ⟨n - 1, by omega⟩
      have hnone : Takes _ [] ((ws ++ gap) ++ rest) (false, []) :=
        takes_columnName_none fl (blank_append hws hgap) hrest hfuel
      refine ⟨[], ws ++ gap, rfl, blank_append hws hgap, ?_⟩
      rw [skipColumns]
      exact Takes.look hnone (Takes.pure _ _)
  | cons m columns ih =>
      obtain ⟨n, rfl⟩ : ∃ k, n = k + 1 := ⟨n - 1, by omega⟩
      obtain ⟨hsize, hlength'⟩ := List.forall_mem_cons.mp hlength
      rw [List.length_cons] at hn
      obtain ⟨name, gap', htext, hgap', hfuel', hcolumn⟩ :=
        takes_columnName fl hident hsize hws hgap
        hrest hfuel
      obtain ⟨ate, behind, hate, hbehind, hloop⟩ := @ih n [] gap'
        (fun m' hm' => hident m' (List.mem_cons_of_mem m hm')) hlength' blank_nil hgap' (by omega)
        hfuel'
      rw [List.nil_append] at hate
      refine ⟨name ++ ate, behind, by rw [htext, hate, List.append_assoc], hbehind, ?_⟩
      rw [hate, List.append_assoc] at hcolumn
      rw [skipColumns]
      refine Takes.bind hcolumn ?_
      simp only [if_true]
      exact hloop

/-- The test of the loop over the fields. -/
theorem takes_moreFields (c : UInt8) (rest : List UInt8) :
    Takes (do
      let atEnd ← FileProg.feof
      andAlso (atEnd == 0) do
        let d ← FileProg.fpeekFast
        let e ← FileProg.fpeekFast
        pure (d != ch ':' && e != ch ')')) [] (c :: rest)
      ((c.toNat : Int) != ch ':' && (c.toNat : Int) != ch ')') := by
  refine Takes.look (takes_feof c rest) ?_
  exact Takes.look (takes_fpeekFast c rest) (Takes.look (takes_fpeekFast c rest) (Takes.pure _ _))

/-- The fields of a row with the whitespace around them. -/
theorem takes_skipFields {columns : List Member} {location n : Nat} {ws gap rest : List UInt8}
    (hskips : ∀ m ∈ columns, Skips fl m.2.1
      (layout s fl charSigned mem m.2.1 0 (location + m.2.2)))
    (hwf : ∀ m ∈ columns, WellFormed m.2.1) (hws : Blank ws) (hgap : Blank gap)
    (hrest : RowEnds (peekHead rest)) (hn : columns.length < n)
    (hfuel : (ws ++ (fieldTexts s fl charSigned mem columns location ++ gap) ++ rest).length <
      fuel) :
    Takes (skipFields (skipValue fl fuel) fuel n)
      (ws ++ (fieldTexts s fl charSigned mem columns location ++ gap)) rest true := by
  induction columns generalizing n ws gap with
  | nil =>
      obtain ⟨n, rfl⟩ : ∃ k, n = k + 1 := ⟨n - 1, by omega⟩
      obtain ⟨c, text, rfl⟩ : ∃ c text, rest = c :: text := by
        cases rest with
        | nil => exact absurd hrest (by decide : ¬ (peekHead [] = 58 ∨ peekHead [] = 41))
        | cons c text => exact ⟨c, text, rfl⟩
      have hstop : ((c.toNat : Int) != ch ':' && (c.toNat : Int) != ch ')') = false := by
        rcases hrest with h | h
        · rw [show (c.toNat : Int) = 58 from h]
          rfl
        · rw [show (c.toNat : Int) = 41 from h]
          rfl
      simp only [fieldTexts, List.nil_append, List.length_append, List.length_cons] at hfuel ⊢
      have hlook : Takes _ [] ([] ++ c :: text) false := hstop ▸ takes_moreFields c text
      rw [skipFields]
      refine Takes.finish (takes_ws (blank_append hws hgap) hrest.facts.1
        (by rw [List.length_append]; omega)) ?_
      rw [← bind_assoc]
      refine Takes.look hlook ?_
      rw [if_neg Bool.false_ne_true]
      exact Takes.pure _ _
  | cons m columns ih =>
      obtain ⟨n, rfl⟩ : ∃ k, n = k + 1 := ⟨n - 1, by omega⟩
      obtain ⟨name, type, offset⟩ := m
      obtain ⟨hskip, hskips'⟩ := List.forall_mem_cons.mp hskips
      obtain ⟨htype, hwf'⟩ := List.forall_mem_cons.mp hwf
      obtain ⟨blank, gap', hsplit, hblank, hgap', hspace, hends⟩ := fields_tail s fl charSigned mem
        hwf' location hgap hrest
      obtain ⟨b, text, htext, hb⟩ := layout_starts s fl charSigned mem htype 0 (location + offset)
      have hall : ws ++
          (fieldTexts s fl charSigned mem ((name, type, offset) :: columns) location ++ gap) =
          ws ++ ((b :: text) ++ (blank ++
            (fieldTexts s fl charSigned mem columns location ++ gap'))) := by
        rw [fieldTexts, htext, List.append_assoc, List.append_assoc, hsplit]
      rw [hall] at hfuel ⊢
      simp only [List.length_append, List.length_cons] at hfuel hn
      obtain ⟨ate, left, hate, -, hvalue⟩ := (htext ▸ hskip : Skips fl type (b :: text)) fuel blank
        (fieldTexts s fl charSigned mem columns location ++ (gap' ++ rest))
        (Or.inr ⟨hblank, hspace, hends⟩)
        (by simp only [List.length_append, List.length_cons]; omega)
      have hateLength := congrArg List.length hate
      rw [List.length_append] at hateLength
      have hloop := @ih n left gap' hskips' hwf' (blank_left (hate ▸ hblank)) hgap' (by omega)
        (by simp only [List.length_append]; omega)
      obtain ⟨hb, -, -, -, hcolon, hparen⟩ := hb.facts
      have hmarks : ((b.toNat : Int) != ch ':' && (b.toNat : Int) != ch ')') = true := by
        rw [Bool.and_eq_true, bne_iff_ne, bne_iff_ne]
        exact ⟨hcolon, hparen⟩
      have hhead : ∀ rest : List UInt8, nkIsspace (peekHead (b :: rest)) = false := fun _ => hb
      rw [hate, List.append_assoc ate, ← List.append_assoc _ ate]
      rw [skipFields]
      refine Takes.bind (takes_ws hws (hhead _) (by omega)) ?_
      rw [← bind_assoc]
      have hlook : Takes _ [] (((b :: text) ++ ate) ++ (left ++
          (fieldTexts s fl charSigned mem columns location ++ gap')) ++ rest) true :=
        hmarks ▸ takes_moreFields b _
      refine Takes.look hlook ?_
      rw [if_pos rfl]
      refine Takes.look (takes_ws blank_nil (hhead _) (Nat.zero_le fuel)) ?_
      refine Takes.bind (by simpa only [List.append_assoc] using hvalue) ?_
      rw [if_pos rfl]
      exact hloop

/-- The rows of a table behind whitespace, up to the closing parenthesis or some
whitespace in front of it. -/
theorem takes_skipRows {columns : List Member} {rowSize : Nat} {ind : Int}
    {count location n : Nat} {ws gap rest : List UInt8}
    (hskips : ∀ i < count, ∀ m ∈ columns, Skips fl m.2.1
      (layout s fl charSigned mem m.2.1 0 (location + i * rowSize + m.2.2)))
    (hwf : ∀ m ∈ columns, WellFormed m.2.1) (hws : Blank ws) (hgap : Blank gap)
    (hcolumns : columns.length < fuel)
    (hn : (ws ++ (rowTexts s (layoutFields s fl charSigned mem columns) rowSize ind count
      location ++ gap)).length < n)
    (hfuel : (ws ++ (rowTexts s (layoutFields s fl charSigned mem columns) rowSize ind count
      location ++ gap) ++ 41 :: rest).length < fuel) :
    ∃ ate behind, ws ++ (rowTexts s (layoutFields s fl charSigned mem columns) rowSize ind count
        location ++ gap) = ate ++ behind ∧ Blank behind ∧
      Takes (skipRows fl (skipValue fl fuel) fuel n) ate (behind ++ 41 :: rest) true := by
  induction count generalizing n location ws gap with
  | zero =>
      obtain ⟨n, rfl⟩ : ∃ k, n = k + 1 := ⟨n - 1, by omega⟩
      simp only [rowTexts, List.nil_append, List.length_append] at hfuel ⊢
      have hmore : Takes (nkFscan fl fuel " :%e") [] ((ws ++ gap) ++ 41 :: rest) false :=
        takes_fscan_mark_ne rfl (blank_append hws hgap)
          (by decide : nkIsspace (peekHead [41]) = false)
          (by decide : peekHead [41] ≠ (58 : UInt8).toNat) (by rw [List.length_append]; omega)
      refine ⟨[], ws ++ gap, rfl, blank_append hws hgap, ?_⟩
      rw [skipRows]
      exact Takes.look hmore (Takes.pure _ _)
  | succ count ih =>
      obtain ⟨n, rfl⟩ : ∃ k, n = k + 1 := ⟨n - 1, by omega⟩
      have hskip := hskips 0 (Nat.succ_pos count)
      simp only [Nat.zero_mul, Nat.add_zero] at hskip
      have hskips' : ∀ i < count, ∀ m ∈ columns, Skips fl m.2.1
          (layout s fl charSigned mem m.2.1 0 (location + rowSize + i * rowSize + m.2.2)) := by
        intro i hi
        rw [← add_succ_mul]
        exact hskips (i + 1) (by omega)
      obtain ⟨blank, gap', hsplit, hblank, hgap', hends⟩ := rows_tail s
        (layoutFields s fl charSigned mem columns) rowSize ind count (location + rowSize) hgap rest
      have hbefore : Blank (if columns.isEmpty then [] else s.fieldBefore.1) := by
        split
        · exact blank_nil
        · exact s.fieldBefore.2
      have htext : ws ++ (rowTexts s (layoutFields s fl charSigned mem columns) rowSize ind
          (count + 1) location ++ gap) = (ws ++ [58]) ++
            (((if columns.isEmpty then [] else s.fieldBefore.1) ++
              (fieldTexts s fl charSigned mem columns location ++ (s.rowAfter.1 ++ blank))) ++
              ([] ++ (rowTexts s (layoutFields s fl charSigned mem columns) rowSize ind count
                (location + rowSize) ++ gap'))) := by
        rw [rowTexts, layoutFields_eq]
        simp only [List.append_assoc, List.cons_append, List.nil_append]
        rw [hsplit]
      rw [htext] at hn hfuel ⊢
      generalize htail : rowTexts s (layoutFields s fl charSigned mem columns) rowSize ind count
        (location + rowSize) = tail at *
      simp only [List.length_append, List.length_cons, List.length_nil] at hn hfuel
      obtain ⟨ate, behind, hate, hbehind, hloop⟩ := @ih (location + rowSize) n [] gap' hskips'
        blank_nil hgap'
        (by rw [htail]; simp only [List.length_append, List.length_nil]; omega)
        (by rw [htail]; simp only [List.length_append, List.length_cons, List.length_nil]; omega)
      rw [htail] at hate
      have hcolon : Takes (nkFscan fl fuel " :%e") (ws ++ [58])
          (((if columns.isEmpty then [] else s.fieldBefore.1) ++
            (fieldTexts s fl charSigned mem columns location ++ (s.rowAfter.1 ++ blank))) ++ ate ++
            (behind ++ 41 :: rest)) true :=
        takes_fscan_mark rfl hws (by decide) (by omega)
      have hbehindText : tail ++ (gap' ++ 41 :: rest) = ate ++ (behind ++ 41 :: rest) := by
        simpa only [List.append_assoc, List.nil_append] using congrArg (· ++ 41 :: rest) hate
      have hfields : Takes (skipFields (skipValue fl fuel) fuel fuel)
          ((if columns.isEmpty then [] else s.fieldBefore.1) ++
            (fieldTexts s fl charSigned mem columns location ++ (s.rowAfter.1 ++ blank)))
          (tail ++ (gap' ++ 41 :: rest)) true :=
        takes_skipFields hskip hwf hbefore (blank_append s.rowAfter.2 hblank) hends hcolumns
          (by simp only [List.length_append, List.length_cons]; omega)
      rw [hbehindText] at hfields
      refine ⟨(ws ++ [58]) ++ (((if columns.isEmpty then [] else s.fieldBefore.1) ++
        (fieldTexts s fl charSigned mem columns location ++ (s.rowAfter.1 ++ blank))) ++ ate),
        behind, by rw [hate]; simp only [List.append_assoc], hbehind, ?_⟩
      rw [skipRows]
      refine Takes.bind hcolon ?_
      rw [if_pos rfl]
      refine Takes.bind hfields ?_
      rw [if_pos rfl]
      exact hloop

theorem skips_table {size rowSize : Nat} {columns : List Member} {check : Check} (ind : Int)
    {location : Nat}
    (hskips : ∀ i < getLen mem location, ∀ m ∈ columns, Skips fl m.2.1
      (layout s fl charSigned mem m.2.1 0 (location + lenSize + i * rowSize + m.2.2)))
    (hok : ∀ m ∈ columns, MemberOk rowSize m) :
    Skips fl (.tTable size rowSize columns check)
      (layout s fl charSigned mem (.tTable size rowSize columns check) ind location) := by
  intro fuel ws rest _ hfuel
  obtain ⟨fuel, rfl⟩ : ∃ k, fuel = k + 1 := ⟨fuel - 1, by omega⟩
  have hident : ∀ m ∈ columns, IsIdent m.1 := fun m hm => (hok m hm).ident
  have hnames := headerNames_length s hident
  obtain ⟨ws₁, gap, gap', htext, hws₁, hgap, hgap', hends⟩ := layout_table s fl charSigned mem size
    rowSize columns check ind location (ws ++ rest)
  rw [htext] at hfuel ⊢
  generalize hrows : rowTexts s (layoutFields s fl charSigned mem columns) rowSize ind
    (getLen mem location) (location + lenSize) = rows at *
  simp only [List.length_append, List.length_cons, List.length_nil] at hfuel
  obtain ⟨ate, behind, hate, hbehind, hheader⟩ := takes_skipColumns hident
    (fun m hm => (hok m hm).length) hws₁ hgap hends (by omega : columns.length < fuel)
    (by simp only [List.length_append]; omega :
      (ws₁ ++ (headerNames s columns ++ gap)).length ≤ fuel)
  have hateLength := congrArg List.length hate
  simp only [List.length_append] at hateLength
  obtain ⟨ate₁, behind₁, hate₁, hbehind₁, hloop⟩ := takes_skipRows hskips
    (fun m hm => (hok m hm).type) hbehind hgap' (by omega)
    (by rw [hrows]; simp only [List.length_append]; omega : (behind ++ (rowTexts s
      (layoutFields s fl charSigned mem columns) rowSize ind (getLen mem location)
      (location + lenSize) ++ gap')).length < fuel)
    (by rw [hrows]; simp only [List.length_append, List.length_cons]; omega : (behind ++
      (rowTexts s (layoutFields s fl charSigned mem columns) rowSize ind (getLen mem location)
      (location + lenSize) ++ gap') ++ 41 :: (ws ++ rest)).length < fuel)
  rw [hrows] at hate₁
  have hateLength₁ := congrArg List.length hate₁
  simp only [List.length_append] at hateLength₁
  have hclose : Takes (nkFscan fl fuel " )%e") (behind₁ ++ [41]) (ws ++ rest) true :=
    takes_fscan_mark rfl hbehind₁ (by decide) (by omega)
  have hrest : (behind ++ ((rows ++ gap') ++ 41 :: (ws ++ rest))) =
      (ate₁ ++ (behind₁ ++ [41])) ++ (ws ++ rest) := by
    rw [← List.append_assoc, hate₁]
    simp only [List.append_assoc, List.cons_append, List.nil_append]
  rw [hrest] at hheader
  refine ⟨[], ws, rfl, (fun h => by cases h), ?_⟩
  rw [List.append_nil, hate, List.append_assoc ate, ← List.append_assoc behind, hate₁,
    List.append_assoc ate₁]
  refine takes_skipValue_mark (Or.inr (Or.inr rfl)) ?_
  rw [skipBranches, if_neg (by decide), if_neg (by decide), if_pos (by rfl)]
  refine Takes.bind (takes_next 40 _) ?_
  refine Takes.bind (by exact hheader) ?_
  refine Takes.bind (by rw [List.append_assoc]; exact hloop) ?_
  rw [if_pos rfl]
  exact hclose

/-! ## The induction over the schema -/

/-- `skip_value` skips every value without a string. -/
theorem skips (htight : s.Tight) (fl : Floats) (charSigned : Bool) {type : Ty} {location : Nat}
    (hfree : StringFree mem type location) (hwf : WellFormed type) (ind : Int) :
    Skips fl type (layout s fl charSigned mem type ind location) := by
  induction hfree generalizing ind with
  | tBool => exact skips_bool _ _ ind _
  | tInteger => exact skips_integer _ _ _ ind _
  | tStruct parts ih =>
      simp only [WellFormed] at hwf
      obtain ⟨hall, -⟩ := membersWellFormed_iff.mp hwf.2.1
      exact skips_struct htight ind (fun m hm ind => ih m hm (hall m hm).type ind) hall
  | tArray items ih =>
      simp only [WellFormed] at hwf
      exact skips_array hwf.2.2.2.1 ind fun i hi => ih i hi hwf.2.2.2.1 _
  | tVarray items ih =>
      simp only [WellFormed] at hwf
      exact skips_varray hwf.2.2.2.1 ind fun i hi => ih i hi hwf.2.2.2.1 _
  | tTable fields ih =>
      simp only [WellFormed] at hwf
      obtain ⟨hall, -⟩ := membersWellFormed_iff.mp hwf.2.2.2.1
      exact skips_table ind (fun i hi m hm => ih i hi m hm (hall m hm).type 0) hall

end LibnklabsPico.Dbase
