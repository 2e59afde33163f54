/-
  Dbase/Layout.lean --- well-formed schemas, well-formed values, and when a value
  has been restored.

  All three recurse over the type.  For the members of a structure each is the same
  condition on every member (`membersWellFormed_iff`, `membersOk_iff`,
  `membersRestored_iff`).
-/
import LibnklabsPico.Dbase.Schema
import LibnklabsPico.Text.Scanning

set_option autoImplicit false

namespace LibnklabsPico.Dbase

open LibnklabsPico.Foundation
open LibnklabsPico.Text

/-! ## Well-formed schemas -/

/-- A check that rejects nothing. -/
def Check.Accepts (check : Check) : Prop := ∀ mem location, check.passes mem location = true

/-- Whether values of the type have their length in front of their items. -/
def Ty.counted : Ty → Bool
  | .tVarray _ _ _ | .tTable _ _ _ _ => true
  | _ => false

/-- The memory of two members does not overlap. -/
def Apart (m m' : Member) : Prop :=
  m.2.2 + m.2.1.extent ≤ m'.2.2 ∨ m'.2.2 + m'.2.1.extent ≤ m.2.2

mutual

/-- The schemas that can be saved and loaded: names are distinct identifiers that fit
the buffer, the parts of a value are apart and within its size, sizes are multiples
of the sizes of items, and no value is rejected. -/
def WellFormed : Ty → Prop
  | .tBool size check => 4 ≤ size ∧ check.Accepts
  | .tInteger what size check => what.width ≤ size ∧ check.Accepts
  | .tDouble _ _ | .tFloat _ _ => False
  | .tString size check => 0 < size ∧ size < 2 ^ 32 ∧ check.Accepts
  | .tStruct size members check => 0 < size ∧ MembersWellFormed size members ∧ check.Accepts
  | .tArray size subtype check | .tVarray size subtype check =>
      0 < size ∧ subtype.size ∣ size ∧ subtype.counted = false ∧ WellFormed subtype ∧
        check.Accepts
  | .tTable size rowSize columns check =>
      0 < size ∧ rowSize ∣ size ∧ columns.length ≤ nkdbaseMaxCols ∧
        MembersWellFormed rowSize columns ∧ check.Accepts

/-- Well-formed members of a structure of the given size. -/
def MembersWellFormed (size : Nat) : List Member → Prop
  | [] => True
  | (name, type, offset) :: members =>
      (IsIdent name ∧ name.length < nkdbaseMaxIdentLen ∧ offset + type.extent ≤ size ∧
        WellFormed type) ∧
      (∀ m ∈ members, m.1 ≠ name ∧ Apart (name, type, offset) m) ∧
      MembersWellFormed size members

end

/-- What is asked of every member. -/
structure MemberOk (size : Nat) (m : Member) : Prop where
  ident : IsIdent m.1
  length : m.1.length < nkdbaseMaxIdentLen
  within : m.2.2 + m.2.1.extent ≤ size
  type : WellFormed m.2.1

theorem membersWellFormed_iff {size : Nat} {members : List Member} :
    MembersWellFormed size members ↔
      (∀ m ∈ members, MemberOk size m) ∧
        members.Pairwise fun m m' => m'.1 ≠ m.1 ∧ Apart m m' := by
  induction members with
  | nil => simp [MembersWellFormed]
  | cons m members ih =>
      obtain ⟨name, type, offset⟩ := m
      rw [MembersWellFormed, ih, List.pairwise_cons]
      constructor
      · rintro ⟨⟨hident, hlength, hwithin, htype⟩, hapart, hall, hpairs⟩
        refine ⟨fun m hm => ?_, hapart, hpairs⟩
        rcases List.mem_cons.mp hm with rfl | hm
        · exact ⟨hident, hlength, hwithin, htype⟩
        · exact hall m hm
      · rintro ⟨hall, hapart, hpairs⟩
        have hfirst := hall (name, type, offset) (by simp)
        exact ⟨⟨hfirst.ident, hfirst.length, hfirst.within, hfirst.type⟩, hapart,
          fun m hm => hall m (List.mem_cons_of_mem _ hm), hpairs⟩

/-! ## Induction over well-formed schemas -/

mutual

/-- A property of all well-formed schemas is shown from the parts of a schema up. -/
theorem wellFormed_induction {motive : (type : Ty) → WellFormed type → Prop}
    (tBool : ∀ size check h, motive (.tBool size check) h)
    (tInteger : ∀ what size check h, motive (.tInteger what size check) h)
    (tString : ∀ size check h, motive (.tString size check) h)
    (tStruct : ∀ size members check h, (∀ m ∈ members, ∀ hm, motive m.2.1 hm) →
      motive (.tStruct size members check) h)
    (tArray : ∀ size subtype check h, (∀ hsub, motive subtype hsub) →
      motive (.tArray size subtype check) h)
    (tVarray : ∀ size subtype check h, (∀ hsub, motive subtype hsub) →
      motive (.tVarray size subtype check) h)
    (tTable : ∀ size rowSize columns check h, (∀ m ∈ columns, ∀ hm, motive m.2.1 hm) →
      motive (.tTable size rowSize columns check) h)
    (type : Ty) (hwf : WellFormed type) : motive type hwf := by
  cases type with
  | tBool size check => exact tBool size check hwf
  | tInteger what size check => exact tInteger what size check hwf
  | tDouble size check => exact absurd hwf (by simp [WellFormed])
  | tFloat size check => exact absurd hwf (by simp [WellFormed])
  | tString size check => exact tString size check hwf
  | tStruct size members check =>
      exact tStruct size members check hwf
        (wellFormed_members tBool tInteger tString tStruct tArray tVarray tTable members)
  | tArray size subtype check =>
      exact tArray size subtype check hwf
        (wellFormed_induction tBool tInteger tString tStruct tArray tVarray tTable subtype)
  | tVarray size subtype check =>
      exact tVarray size subtype check hwf
        (wellFormed_induction tBool tInteger tString tStruct tArray tVarray tTable subtype)
  | tTable size rowSize columns check =>
      exact tTable size rowSize columns check hwf
        (wellFormed_members tBool tInteger tString tStruct tArray tVarray tTable columns)

theorem wellFormed_members {motive : (type : Ty) → WellFormed type → Prop}
    (tBool : ∀ size check h, motive (.tBool size check) h)
    (tInteger : ∀ what size check h, motive (.tInteger what size check) h)
    (tString : ∀ size check h, motive (.tString size check) h)
    (tStruct : ∀ size members check h, (∀ m ∈ members, ∀ hm, motive m.2.1 hm) →
      motive (.tStruct size members check) h)
    (tArray : ∀ size subtype check h, (∀ hsub, motive subtype hsub) →
      motive (.tArray size subtype check) h)
    (tVarray : ∀ size subtype check h, (∀ hsub, motive subtype hsub) →
      motive (.tVarray size subtype check) h)
    (tTable : ∀ size rowSize columns check h, (∀ m ∈ columns, ∀ hm, motive m.2.1 hm) →
      motive (.tTable size rowSize columns check) h)
    (members : List Member) : ∀ m ∈ members, ∀ hm, motive m.2.1 hm := by
  match members with
  | [] => exact fun m hm => absurd hm (by simp)
  | (name, type, offset) :: members =>
      exact List.forall_mem_cons.mpr
        ⟨wellFormed_induction tBool tInteger tString tStruct tArray tVarray tTable type,
          wellFormed_members tBool tInteger tString tStruct tArray tVarray tTable members⟩

end

/-! ## Well-formed values -/

mutual

/-- A value in memory that fits its type: strings end within their size, and arrays
and tables are no longer than there is space. -/
def ValueOk (mem : Memory) : Ty → Nat → Prop
  | .tBool _ _, _ | .tInteger _ _ _, _ | .tDouble _ _, _ | .tFloat _ _, _ => True
  | .tString size _, location => 0 ∈ mem.read location size
  | .tStruct _ members _, location => MembersOk mem members location
  | .tArray size subtype _, location =>
      ∀ i < size / subtype.size, ValueOk mem subtype (location + i * subtype.size)
  | .tVarray size subtype _, location =>
      getLen mem location ≤ size / subtype.size ∧
        ∀ i < getLen mem location,
          ValueOk mem subtype (location + lenSize + i * subtype.size)
  | .tTable size rowSize columns _, location =>
      getLen mem location ≤ size / rowSize ∧
        ∀ i < getLen mem location,
          MembersOk mem columns (location + lenSize + i * rowSize)

/-- Well-formed values of all members. -/
def MembersOk (mem : Memory) : List Member → Nat → Prop
  | [], _ => True
  | (_, type, offset) :: members, location =>
      ValueOk mem type (location + offset) ∧ MembersOk mem members location

end

theorem membersOk_iff {mem : Memory} {members : List Member} {location : Nat} :
    MembersOk mem members location ↔
      ∀ m ∈ members, ValueOk mem m.2.1 (location + m.2.2) := by
  induction members with
  | nil => simp [MembersOk]
  | cons m members ih =>
      obtain ⟨name, type, offset⟩ := m
      rw [MembersOk, ih, List.forall_mem_cons]

/-! ## Restored values -/

mutual

/-- The live part of the value at `location'` in `mem'` is the one at `location` in
`mem`: integers, strings up to their NUL, lengths and the items they count.  A
Boolean value is 0 or 1 afterwards. -/
def Restored (mem mem' : Memory) : Ty → Nat → Nat → Prop
  | .tBool _ _, location, location' =>
      mem'.read location' 4 = leBytes 4 (if ofLe (mem.read location 4) ≠ 0 then 1 else 0)
  | .tInteger what _ _, location, location' =>
      mem'.read location' what.width = mem.read location what.width
  | .tDouble _ _, location, location' => mem'.read location' 8 = mem.read location 8
  | .tFloat _ _, location, location' => mem'.read location' 4 = mem.read location 4
  | .tString size _, location, location' =>
      let s := cString (mem.read location size)
      mem'.read location' (s.length + 1) = s ++ [0]
  | .tStruct _ members _, location, location' =>
      MembersRestored mem mem' members location location'
  | .tArray size subtype _, location, location' =>
      ∀ i < size / subtype.size,
        Restored mem mem' subtype (location + i * subtype.size) (location' + i * subtype.size)
  | .tVarray _ subtype _, location, location' =>
      getLen mem' location' = getLen mem location ∧
        ∀ i < getLen mem location,
          Restored mem mem' subtype (location + lenSize + i * subtype.size)
            (location' + lenSize + i * subtype.size)
  | .tTable _ rowSize columns _, location, location' =>
      getLen mem' location' = getLen mem location ∧
        ∀ i < getLen mem location,
          MembersRestored mem mem' columns (location + lenSize + i * rowSize)
            (location' + lenSize + i * rowSize)

/-- All members are restored. -/
def MembersRestored (mem mem' : Memory) : List Member → Nat → Nat → Prop
  | [], _, _ => True
  | (_, type, offset) :: members, location, location' =>
      Restored mem mem' type (location + offset) (location' + offset) ∧
        MembersRestored mem mem' members location location'

end

theorem membersRestored_iff {mem mem' : Memory} {members : List Member}
    {location location' : Nat} :
    MembersRestored mem mem' members location location' ↔
      ∀ m ∈ members, Restored mem mem' m.2.1 (location + m.2.2) (location' + m.2.2) := by
  induction members with
  | nil => simp [MembersRestored]
  | cons m members ih =>
      obtain ⟨name, type, offset⟩ := m
      rw [MembersRestored, ih, List.forall_mem_cons]

/-! ## What a value depends on -/

/-- Two memories are the same from `location` on for `size` bytes. -/
def Same (mem mem' : Memory) (location size : Nat) : Prop :=
  ∀ a, location ≤ a → a < location + size → mem' a = mem a

theorem Same.mono {mem mem' : Memory} {location size location' size' : Nat}
    (h : Same mem mem' location size) (hlow : location ≤ location')
    (hhigh : location' + size' ≤ location + size) : Same mem mem' location' size' :=
  fun a ha ha' => h a (by omega) (by omega)

theorem Same.read {mem mem' : Memory} {location size n : Nat}
    (h : Same mem mem' location size) (hn : n ≤ size) :
    mem'.read location n = mem.read location n :=
  Memory.read_congr fun a ha ha' => h a ha (by omega)

/-- The `i`th of the items is within all of them. -/
theorem item_within {i count size itemSize : Nat} (hi : i < count)
    (hcount : count ≤ size / itemSize) :
    i * itemSize + itemSize ≤ size := by
  calc i * itemSize + itemSize = (i + 1) * itemSize := by rw [Nat.add_mul, Nat.one_mul]
    _ ≤ size / itemSize * itemSize := Nat.mul_le_mul_right _ (by omega)
    _ ≤ size := Nat.div_mul_le_self size itemSize

theorem Ty.extent_of_not_counted {type : Ty} (h : type.counted = false) :
    type.extent = type.size := by
  cases type <;> first | rfl | cases h

/-- The string in front of a NUL, with the NUL, fits the memory the NUL is in. -/
theorem cString_length {bytes : List UInt8} (h : 0 ∈ bytes) :
    (cString bytes).length + 1 ≤ bytes.length := by
  induction bytes with
  | nil => cases h
  | cons b bytes ih =>
      by_cases hb : b = 0
      · simp [cString, hb]
      · have hmem : 0 ∈ bytes := by simpa [Ne.symm hb] using h
        have := ih hmem
        simp only [cString, List.takeWhile_cons, bne_iff_ne, ne_eq, hb, not_false_eq_true,
          if_true, List.length_cons] at this ⊢
        omega

end LibnklabsPico.Dbase
