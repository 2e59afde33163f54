/-
  Dbase/Spacing.lean --- the text of a value with any whitespace between its marks.

  The serializer and the pretty printer put the same marks, names, numbers and strings.
  A `Spacing` says what whitespace stands between them, and `layout` is the text of a
  value with that whitespace.
-/
import LibnklabsPico.Dbase.Scalars

set_option autoImplicit false

namespace LibnklabsPico.Dbase

open LibnklabsPico.Foundation
open LibnklabsPico.File
open LibnklabsPico.Text

/-! ## Whitespace between marks -/

/-- Whitespace. -/
abbrev Blanks : Type := { ws : List UInt8 // Blank ws }

/-- `type->what == tTABLE` -/
def Ty.isTable : Ty → Bool
  | .tTable _ _ _ _ => true
  | _ => false

/-- The whitespace between the marks of a value, which may depend on how far the value
is indented.  Names do not run into one another, and neither do fields. -/
structure Spacing where
  /-- behind an opening brace or bracket -/
  opening : Blanks
  /-- in front of a member or an item -/
  before : Int → Blanks
  /-- behind the colon after a name, in front of a table or another value -/
  value : Bool → Int → Blanks
  /-- behind a comma -/
  next : Blanks
  /-- behind the last member or item -/
  last : Blanks
  /-- in front of a closing mark -/
  closing : Int → Blanks
  nameBefore : Blanks
  nameAfter : Blanks
  /-- behind the names of the columns -/
  heading : Blanks
  /-- in front of the colon of a row -/
  rowBefore : Int → Blanks
  rowAfter : Blanks
  fieldBefore : Blanks
  fieldAfter : Blanks
  /-- the indentation of a member that is a table or another value -/
  member : Bool → Int → Int
  /-- the indentation of an item -/
  item : Int → Int
  names_apart : nameAfter.1 ++ nameBefore.1 ≠ []
  fields_apart : fieldAfter.1 ++ fieldBefore.1 ≠ []

/-- What stands behind a member or an item. -/
def Spacing.separator (s : Spacing) (isLast : Bool) : List UInt8 :=
  if isLast then s.last.1 else 44 :: s.next.1

/-! ## The text of a value -/

section
variable (s : Spacing)

/-- The items of an array. -/
def layoutItems (item : Nat → List UInt8) (size : Nat) (ind : Int) : Nat → Nat → List UInt8
  | 0, _ => []
  | count + 1, location =>
      (s.before ind).1 ++ (item location ++ (s.separator (count == 0) ++
        layoutItems item size ind count (location + size)))

/-- The rows of a table. -/
def layoutRows (row : Nat → List UInt8) (size : Nat) (ind : Int) : Nat → Nat → List UInt8
  | 0, _ => []
  | count + 1, location =>
      (s.rowBefore ind).1 ++ (58 :: (row location ++ (s.rowAfter.1 ++
        layoutRows row size ind count (location + size))))

/-- The names of the columns of a table. -/
def layoutHeader : List Member → List UInt8
  | [] => []
  | (name, _, _) :: columns =>
      s.nameBefore.1 ++ (name ++ (s.nameAfter.1 ++ layoutHeader columns))

mutual

/-- The text of a value without floating point numbers. -/
def layout (fl : Floats) (charSigned : Bool) (mem : Memory) : Ty → Int → Nat → List UInt8
  | .tBool _ _, _, location =>
      if ofLe (mem.read location 4) ≠ 0 then ascii "true" else ascii "false"
  | .tInteger what _ _, _, location =>
      let n := what.load charSigned mem location
      numText (decide (n < 0)) n.natAbs
  | .tDouble _ _, _, _ | .tFloat _ _, _, _ => []
  | .tString size _, _, location =>
      34 :: ((cString (mem.read location size)).flatMap (serializeChar fl charSigned) ++ [34])
  | .tStruct _ members _, ind, location =>
      123 :: (s.opening.1 ++ (layoutMembers fl charSigned mem members ind location ++
        ((s.closing ind).1 ++ [125])))
  | .tArray size subtype _, ind, location =>
      91 :: (s.opening.1 ++ (layoutItems s (layout fl charSigned mem subtype (s.item ind))
        subtype.size ind (size / subtype.size) location ++ ((s.closing ind).1 ++ [93])))
  | .tVarray _ subtype _, ind, location =>
      91 :: (s.opening.1 ++ (layoutItems s (layout fl charSigned mem subtype (s.item ind))
        subtype.size ind (getLen mem location) (location + lenSize) ++
        ((s.closing ind).1 ++ [93])))
  | .tTable _ rowSize columns _, ind, location =>
      40 :: (layoutHeader s columns ++ (s.heading.1 ++
        (layoutRows s (layoutFields fl charSigned mem columns) rowSize ind (getLen mem location)
          (location + lenSize) ++ ((s.closing ind).1 ++ [41]))))

/-- The members of a structure. -/
def layoutMembers (fl : Floats) (charSigned : Bool) (mem : Memory) :
    List Member → Int → Nat → List UInt8
  | [], _, _ => []
  | (name, type, offset) :: members, ind, location =>
      (s.before ind).1 ++ (name ++ (58 :: ((s.value type.isTable ind).1 ++
        (layout fl charSigned mem type (s.member type.isTable ind) (location + offset) ++
          (s.separator members.isEmpty ++
            layoutMembers fl charSigned mem members ind location)))))

/-- The fields of one row of a table, which are not indented. -/
def layoutFields (fl : Floats) (charSigned : Bool) (mem : Memory) :
    List Member → Nat → List UInt8
  | [], _ => []
  | (_, type, offset) :: columns, location =>
      s.fieldBefore.1 ++ (layout fl charSigned mem type 0 (location + offset) ++
        ((if columns.isEmpty then [] else s.fieldAfter.1) ++
          layoutFields fl charSigned mem columns location))

end

end

/-! ## How it starts -/

/-- How a value starts. -/
def Starts (c : Int) : Prop :=
  c = 123 ∨ c = 91 ∨ c = 40 ∨ c = 116 ∨ c = 102 ∨ c = 34 ∨ c = 45 ∨ isDigit c = true

theorem Starts.facts {c : Int} (h : Starts c) :
    nkIsspace c = false ∧ c ≠ -1 ∧ c ≠ ch ']' ∧ c ≠ ch ',' ∧ c ≠ ch ':' ∧ c ≠ ch ')' := by
  have hdigits : ∀ d : Fin 10, nkIsspace (48 + d.val) = false ∧ (48 + d.val : Int) ≠ -1 ∧
      (48 + d.val : Int) ≠ ch ']' ∧ (48 + d.val : Int) ≠ ch ',' ∧ (48 + d.val : Int) ≠ ch ':' ∧
      (48 + d.val : Int) ≠ ch ')' := by
    decide
  obtain rfl | rfl | rfl | rfl | rfl | rfl | rfl | hdigit := h
  case inr.inr.inr.inr.inr.inr.inr =>
    simp only [isDigit, Bool.and_eq_true, decide_eq_true_eq] at hdigit
    obtain ⟨hlow, hhigh⟩ : 48 ≤ c ∧ c ≤ 57 := hdigit
    obtain ⟨d, rfl⟩ : ∃ d : Nat, c = 48 + d := ⟨(c - 48).toNat, by omega⟩
    exact hdigits ⟨d, by omega⟩
  all_goals decide

theorem numText_starts (neg : Bool) (val : Nat) :
    ∃ b text, numText neg val = b :: text ∧ Starts b.toNat := by
  have hend : Ends (peekHead []) := Or.inl rfl
  obtain ⟨d, digits, hdigits, hd, _⟩ := decDigits_head val hend
  cases neg with
  | false => exact ⟨d, digits, hdigits, by simp [Starts, hd]⟩
  | true =>
      refine ⟨45, d :: digits, ?_, by simp [Starts]⟩
      rw [numText, if_pos rfl, hdigits]
      rfl

theorem layout_starts (s : Spacing) (fl : Floats) (charSigned : Bool) (mem : Memory) {type : Ty}
    (hwf : WellFormed type) (ind : Int) (location : Nat) :
    ∃ b text, layout s fl charSigned mem type ind location = b :: text ∧ Starts b.toNat := by
  cases type with
  | tBool size check =>
      simp only [layout]
      split
      · exact ⟨116, _, rfl, by simp [Starts]⟩
      · exact ⟨102, _, rfl, by simp [Starts]⟩
  | tInteger what size check =>
      simp only [layout]
      exact numText_starts _ _
  | tDouble size check => exact absurd hwf (by simp [WellFormed])
  | tFloat size check => exact absurd hwf (by simp [WellFormed])
  | tString size check => exact ⟨34, _, by rw [layout], by simp [Starts]⟩
  | tStruct size members check => exact ⟨123, _, by rw [layout], by simp [Starts]⟩
  | tArray size subtype check => exact ⟨91, _, by rw [layout], by simp [Starts]⟩
  | tVarray size subtype check => exact ⟨91, _, by rw [layout], by simp [Starts]⟩
  | tTable size rowSize columns check => exact ⟨40, _, by rw [layout], by simp [Starts]⟩

theorem layout_head (s : Spacing) (fl : Floats) (charSigned : Bool) (mem : Memory) {type : Ty}
    (hwf : WellFormed type) (ind : Int) (location : Nat) (rest : List UInt8) :
    Starts (peekHead (layout s fl charSigned mem type ind location ++ rest)) := by
  obtain ⟨b, text, htext, hb⟩ := layout_starts s fl charSigned mem hwf ind location
  rw [htext]
  exact hb

theorem layout_length (s : Spacing) (fl : Floats) (charSigned : Bool) (mem : Memory) {type : Ty}
    (hwf : WellFormed type) (ind : Int) (location : Nat) :
    1 ≤ (layout s fl charSigned mem type ind location).length := by
  obtain ⟨b, text, htext, _⟩ := layout_starts s fl charSigned mem hwf ind location
  simp [htext]

/-! ## What the serializer puts -/

theorem blank_nil : Blank [] := by simp [Blank]

theorem blank_space : Blank [32] := by
  intro b hb
  rw [List.mem_singleton] at hb
  subst hb
  decide

theorem blank_append {ws ws' : List UInt8} (hws : Blank ws) (hws' : Blank ws') :
    Blank (ws ++ ws') := by
  intro b hb
  rcases List.mem_append.mp hb with hb | hb
  · exact hws b hb
  · exact hws' b hb

/-- The whitespace of `nk_dbase_serialize`: a space behind a comma, behind the name of a
column and between fields. -/
def Spacing.compact : Spacing where
  opening := ⟨[], blank_nil⟩
  before _ := ⟨[], blank_nil⟩
  value _ _ := ⟨[], blank_nil⟩
  next := ⟨[32], blank_space⟩
  last := ⟨[], blank_nil⟩
  closing _ := ⟨[], blank_nil⟩
  nameBefore := ⟨[], blank_nil⟩
  nameAfter := ⟨[32], blank_space⟩
  heading := ⟨[], blank_nil⟩
  rowBefore _ := ⟨[], blank_nil⟩
  rowAfter := ⟨[], blank_nil⟩
  fieldBefore := ⟨[], blank_nil⟩
  fieldAfter := ⟨[32], blank_space⟩
  member _ _ := 0
  item _ := 0
  names_apart := by simp
  fields_apart := by simp

theorem serializeItems_eq (fl : Floats) (item : Nat → List UInt8) (size : Nat) (ind : Int)
    (count location : Nat) :
    serializeItems fl item size count location =
      layoutItems .compact item size ind count location := by
  induction count generalizing location with
  | zero => rfl
  | succ count ih =>
      rw [serializeItems, layoutItems, ih, List.append_assoc]
      by_cases hcount : count = 0
      · simp [hcount, Spacing.compact, Spacing.separator]
      · have hcomma : nkFprintf fl ", " [] = [44, 32] := rfl
        simp [hcount, hcomma, Spacing.compact, Spacing.separator]

theorem serializeRows_eq (row : Nat → List UInt8) (size : Nat) (ind : Int)
    (count location : Nat) :
    serializeRows row size count location = layoutRows .compact row size ind count location := by
  induction count generalizing location with
  | zero => rfl
  | succ count ih =>
      rw [serializeRows, layoutRows, ih, List.append_assoc]
      rfl

theorem serializeHeader_eq (fl : Floats) (columns : List Member) :
    serializeHeader fl columns = layoutHeader .compact columns := by
  induction columns with
  | nil => rfl
  | cons m columns ih =>
      obtain ⟨name, type, offset⟩ := m
      rw [layoutHeader, ← ih, serializeHeader, List.flatMap_cons, nkFprintf_space]
      simp [Spacing.compact, serializeHeader]

mutual

/-- The serializer puts the compact layout. -/
theorem nkDbaseSerialize_eq (fl : Floats) (charSigned : Bool) (mem : Memory) (type : Ty)
    (hwf : WellFormed type) (ind : Int) (location : Nat) :
    nkDbaseSerialize fl charSigned mem type location =
      layout .compact fl charSigned mem type ind location := by
  cases type with
  | tBool size check => rw [nkDbaseSerialize, layout]; rfl
  | tInteger what size check => rw [nkDbaseSerialize, layout, IntType.nkFprintf_load]
  | tDouble size check => exact absurd hwf (by simp [WellFormed])
  | tFloat size check => exact absurd hwf (by simp [WellFormed])
  | tString size check =>
      rw [nkDbaseSerialize, layout]
      rfl
  | tStruct size members check =>
      simp only [WellFormed] at hwf
      rw [nkDbaseSerialize, layout, serializeMembers_eq fl charSigned mem members hwf.2.1 ind]
      rfl
  | tArray size subtype check =>
      simp only [WellFormed] at hwf
      have hitem : nkDbaseSerialize fl charSigned mem subtype =
          layout .compact fl charSigned mem subtype 0 :=
        funext fun location => nkDbaseSerialize_eq fl charSigned mem subtype hwf.2.2.2.1 0 location
      rw [nkDbaseSerialize, layout, hitem, serializeItems_eq fl _ _ ind]
      rfl
  | tVarray size subtype check =>
      simp only [WellFormed] at hwf
      have hitem : nkDbaseSerialize fl charSigned mem subtype =
          layout .compact fl charSigned mem subtype 0 :=
        funext fun location => nkDbaseSerialize_eq fl charSigned mem subtype hwf.2.2.2.1 0 location
      rw [nkDbaseSerialize, layout, hitem, serializeItems_eq fl _ _ ind]
      rfl
  | tTable size rowSize columns check =>
      simp only [WellFormed] at hwf
      have hrow : serializeRow fl charSigned mem columns =
          layoutFields .compact fl charSigned mem columns :=
        funext fun location => serializeRow_eq fl charSigned mem columns hwf.2.2.2.1 location
      rw [nkDbaseSerialize, layout, hrow, serializeHeader_eq, serializeRows_eq _ _ ind,
        List.append_assoc, List.append_assoc]
      rfl

theorem serializeMembers_eq (fl : Floats) (charSigned : Bool) (mem : Memory)
    (members : List Member) {size : Nat} (hwf : MembersWellFormed size members) (ind : Int)
    (location : Nat) :
    serializeMembers fl charSigned mem members location =
      layoutMembers .compact fl charSigned mem members ind location := by
  match members with
  | [] => rw [serializeMembers, layoutMembers]
  | (name, type, offset) :: members =>
      obtain ⟨⟨_, _, _, htype⟩, _, hmembers⟩ := hwf
      have hcomma : nkFprintf fl ", " [] = [44, 32] := rfl
      rw [serializeMembers, layoutMembers, nkFprintf_colon,
        nkDbaseSerialize_eq fl charSigned mem type htype
          (Spacing.compact.member type.isTable ind) (location + offset),
        serializeMembers_eq fl charSigned mem members hmembers ind location]
      cases members <;> simp [hcomma, Spacing.compact, Spacing.separator]

theorem serializeRow_eq (fl : Floats) (charSigned : Bool) (mem : Memory)
    (columns : List Member) {size : Nat} (hwf : MembersWellFormed size columns)
    (location : Nat) :
    serializeRow fl charSigned mem columns location =
      layoutFields .compact fl charSigned mem columns location := by
  match columns with
  | [] => rw [serializeRow, layoutFields]
  | (name, type, offset) :: columns =>
      obtain ⟨⟨_, _, _, htype⟩, _, hcolumns⟩ := hwf
      rw [serializeRow, layoutFields, nkDbaseSerialize_eq fl charSigned mem type htype 0,
        serializeRow_eq fl charSigned mem columns hcolumns location, List.append_assoc]
      rfl

end

end LibnklabsPico.Dbase
