/-
  Dbase/Slots.lean --- the slots of a value and what a parser may do to them.

  A slot is where a part of a value can be, up to the capacity of the arrays and tables
  that it is in.  `Contained` says that a value was changed within its memory only, and
  that its slots are well-formed afterwards; when a part of a value was changed that way,
  the other parts are where they were.
-/
import LibnklabsPico.Dbase.Loops

set_option autoImplicit false

namespace LibnklabsPico.Dbase

open LibnklabsPico.Foundation

variable {mem mem₀ mem' : Memory}

/-! ## The memory of a schema -/

/-- The parts of a value are within its memory and apart, whatever its names and its
checks are.  Arrays have no arrays of variable length and no tables as their items. -/
inductive Placed : Ty → Prop where
  | tBool {size : Nat} {check : Check} (fits : 4 ≤ size) : Placed (.tBool size check)
  | tInteger {what : IntType} {size : Nat} {check : Check} (fits : what.width ≤ size) :
      Placed (.tInteger what size check)
  | tDouble {size : Nat} {check : Check} (fits : 8 ≤ size) : Placed (.tDouble size check)
  | tFloat {size : Nat} {check : Check} (fits : 4 ≤ size) : Placed (.tFloat size check)
  | tString {size : Nat} {check : Check} (positive : 0 < size) (fits : size < 2 ^ 32) :
      Placed (.tString size check)
  | tStruct {size : Nat} {members : List Member} {check : Check}
      (within : ∀ m ∈ members, m.2.2 + m.2.1.extent ≤ size) (apart : members.Pairwise Apart)
      (types : ∀ m ∈ members, Placed m.2.1) : Placed (.tStruct size members check)
  | tArray {size : Nat} {subtype : Ty} {check : Check} (positive : 0 < subtype.size)
      (whole : subtype.size ∣ size) (flat : subtype.counted = false) (items : Placed subtype) :
      Placed (.tArray size subtype check)
  | tVarray {size : Nat} {subtype : Ty} {check : Check} (positive : 0 < subtype.size)
      (whole : subtype.size ∣ size) (flat : subtype.counted = false) (items : Placed subtype) :
      Placed (.tVarray size subtype check)
  | tTable {size rowSize : Nat} {columns : List Member} {check : Check} (positive : 0 < rowSize)
      (within : ∀ m ∈ columns, m.2.2 + m.2.1.extent ≤ rowSize) (apart : columns.Pairwise Apart)
      (types : ∀ m ∈ columns, Placed m.2.1) : Placed (.tTable size rowSize columns check)

/-- The schemas that can be saved and loaded are placed. -/
theorem WellFormed.placed {type : Ty} (hwf : WellFormed type) : Placed type := by
  induction type, hwf using wellFormed_induction with
  | tBool size check h => exact .tBool h.1
  | tInteger what size check h => exact .tInteger h.1
  | tString size check h => exact .tString h.1 h.2.1
  | tStruct size members check h ih =>
      simp only [WellFormed] at h
      obtain ⟨hall, hpairs⟩ := membersWellFormed_iff.mp h.2.1
      exact .tStruct (fun m hm => (hall m hm).within) (hpairs.imp And.right)
        fun m hm => ih m hm (hall m hm).type
  | tArray size subtype check h ih =>
      simp only [WellFormed] at h
      exact .tArray (Nat.pos_of_dvd_of_pos h.2.1 h.1) h.2.1 h.2.2.1 (ih h.2.2.2.1)
  | tVarray size subtype check h ih =>
      simp only [WellFormed] at h
      exact .tVarray (Nat.pos_of_dvd_of_pos h.2.1 h.1) h.2.1 h.2.2.1 (ih h.2.2.2.1)
  | tTable size rowSize columns check h ih =>
      simp only [WellFormed] at h
      obtain ⟨hall, hpairs⟩ := membersWellFormed_iff.mp h.2.2.2.1
      exact .tTable (Nat.pos_of_dvd_of_pos h.2.1 h.1) (fun m hm => (hall m hm).within)
        (hpairs.imp And.right) fun m hm => ih m hm (hall m hm).type

/-! ## The slots of a value -/

/-- In every slot of a value strings end within their size, and no array or table is
longer than there is space. -/
inductive SlotsOk (mem : Memory) : Ty → Nat → Prop where
  | tBool {size location : Nat} {check : Check} : SlotsOk mem (.tBool size check) location
  | tInteger {what : IntType} {size location : Nat} {check : Check} :
      SlotsOk mem (.tInteger what size check) location
  | tDouble {size location : Nat} {check : Check} : SlotsOk mem (.tDouble size check) location
  | tFloat {size location : Nat} {check : Check} : SlotsOk mem (.tFloat size check) location
  | tString {size location : Nat} {check : Check} (ends : 0 ∈ mem.read location size) :
      SlotsOk mem (.tString size check) location
  | tStruct {size location : Nat} {members : List Member} {check : Check}
      (parts : ∀ m ∈ members, SlotsOk mem m.2.1 (location + m.2.2)) :
      SlotsOk mem (.tStruct size members check) location
  | tArray {size location : Nat} {subtype : Ty} {check : Check}
      (items : ∀ i < size / subtype.size, SlotsOk mem subtype (location + i * subtype.size)) :
      SlotsOk mem (.tArray size subtype check) location
  | tVarray {size location : Nat} {subtype : Ty} {check : Check}
      (length : getLen mem location ≤ size / subtype.size)
      (items : ∀ i < size / subtype.size,
        SlotsOk mem subtype (location + lenSize + i * subtype.size)) :
      SlotsOk mem (.tVarray size subtype check) location
  | tTable {size rowSize location : Nat} {columns : List Member} {check : Check}
      (length : getLen mem location ≤ size / rowSize)
      (rows : ∀ i < size / rowSize, ∀ m ∈ columns,
        SlotsOk mem m.2.1 (location + lenSize + i * rowSize + m.2.2)) :
      SlotsOk mem (.tTable size rowSize columns check) location

theorem getLen_same {location size : Nat} (h : Same mem mem' location size) (hsize : 4 ≤ size) :
    getLen mem' location = getLen mem location :=
  congrArg ofLe (h.read hsize)

/-- Slots depend on the memory of the value only. -/
theorem SlotsOk.congr {type : Ty} (hplaced : Placed type) {location : Nat}
    (hok : SlotsOk mem type location) (h : Same mem mem' location type.extent) :
    SlotsOk mem' type location := by
  induction hplaced generalizing location with
  | tBool fits => exact .tBool
  | tInteger fits => exact .tInteger
  | tDouble fits => exact .tDouble
  | tFloat fits => exact .tFloat
  | @tString size check positive fits =>
      cases hok with
      | tString ends =>
          have hread : mem'.read location size = mem.read location size := h.read (Nat.le_refl size)
          exact .tString (by rwa [hread])
  | tStruct within apart types ih =>
      cases hok with
      | tStruct parts =>
          rw [Ty.extent_tStruct] at h
          refine .tStruct fun m hm => ?_
          have hwithin := within m hm
          exact ih m hm (parts m hm) (h.mono (by omega) (by omega))
  | tArray positive whole flat placed ih =>
      cases hok with
      | tArray items =>
          rw [Ty.extent_tArray] at h
          refine .tArray fun i hi => ?_
          have hwithin := item_within hi (Nat.le_refl _)
          have hextent := Ty.extent_of_not_counted flat
          exact ih (items i hi) (h.mono (by omega) (by omega))
  | tVarray positive whole flat placed ih =>
      cases hok with
      | tVarray length items =>
          rw [Ty.extent_tVarray] at h
          have hlen := getLen_same h (by simp only [lenSize]; omega)
          refine .tVarray (hlen.trans_le length) fun i hi => ?_
          have hwithin := item_within hi (Nat.le_refl _)
          have hextent := Ty.extent_of_not_counted flat
          exact ih (items i hi) (h.mono (by omega) (by omega))
  | tTable positive within apart types ih =>
      cases hok with
      | tTable length rows =>
          rw [Ty.extent_tTable] at h
          have hlen := getLen_same h (by simp only [lenSize]; omega)
          refine .tTable (hlen.trans_le length) fun i hi m hm => ?_
          have hrow := item_within hi (Nat.le_refl _)
          have hwithin := within m hm
          exact ih m hm (rows i hi m hm) (h.mono (by omega) (by omega))

/-! ## What a parser may do -/

/-- The memory was changed only where the value is, and its slots are well-formed. -/
structure Contained (mem mem' : Memory) (type : Ty) (location : Nat) : Prop where
  outside : SameOutside mem mem' location type.extent
  slots : SlotsOk mem' type location

theorem SameOutside.refl (mem : Memory) (location size : Nat) :
    SameOutside mem mem location size :=
  fun _ _ => rfl

theorem SameOutside.trans {location size : Nat} (h : SameOutside mem₀ mem location size)
    (h' : SameOutside mem mem' location size) : SameOutside mem₀ mem' location size :=
  fun a ha => (h' a ha).trans (h a ha)

/-- A change in a part of some memory is a change in all of it. -/
theorem SameOutside.widen {location size location' size' : Nat}
    (h : SameOutside mem mem' location' size') (hlow : location ≤ location')
    (hhigh : location' + size' ≤ location + size) : SameOutside mem mem' location size :=
  fun a ha => h a (by omega)

theorem Contained.refl {type : Ty} {location : Nat} (hok : SlotsOk mem type location) :
    Contained mem mem type location :=
  ⟨SameOutside.refl mem location _, hok⟩

theorem Contained.trans {type : Ty} {location : Nat} (h : Contained mem₀ mem type location)
    (h' : Contained mem mem' type location) : Contained mem₀ mem' type location :=
  ⟨h.outside.trans h'.outside, h'.slots⟩

/-! ## A change in a part of a value -/

instance : Std.Symm Apart := ⟨fun _ _ hapart => hapart.symm⟩

/-- A change of one member: the others are where they were. -/
theorem SlotsOk.member {size location : Nat} {members : List Member} {check : Check}
    (within : ∀ m ∈ members, m.2.2 + m.2.1.extent ≤ size) (apart : members.Pairwise Apart)
    (types : ∀ m ∈ members, Placed m.2.1)
    (hok : SlotsOk mem (.tStruct size members check) location) {m : Member} (hm : m ∈ members)
    (h : Contained mem mem' m.2.1 (location + m.2.2)) :
    Contained mem mem' (.tStruct size members check) location := by
  cases hok with
  | tStruct parts =>
      have hwithin := within m hm
      refine ⟨h.outside.widen (by omega) (by rw [Ty.extent_tStruct]; omega),
        .tStruct fun m₂ hm₂ => ?_⟩
      by_cases hsame : m₂ = m
      · rw [hsame]
        exact h.slots
      · have hapart : Apart m₂ m := apart.forall hm₂ hm hsame
        unfold Apart at hapart
        exact (parts m₂ hm₂).congr (types m₂ hm₂) (h.outside.same (by omega))

/-- Two of the items do not overlap. -/
theorem items_apart {i j : Nat} (size : Nat) (h : i ≠ j) :
    i * size + size ≤ j * size ∨ j * size + size ≤ i * size := by
  rcases Nat.lt_or_gt_of_ne h with h | h
  · left
    calc i * size + size = (i + 1) * size := by rw [Nat.add_mul, Nat.one_mul]
      _ ≤ j * size := Nat.mul_le_mul_right size h
  · right
    calc j * size + size = (j + 1) * size := by rw [Nat.add_mul, Nat.one_mul]
      _ ≤ i * size := Nat.mul_le_mul_right size h

section
variable {size location : Nat} {subtype : Ty} {check : Check}

/-- A change of one item: the others are where they were. -/
theorem SlotsOk.item (hplaced : Placed subtype) (flat : subtype.counted = false)
    (hok : SlotsOk mem (.tArray size subtype check) location) {i : Nat}
    (hi : i < size / subtype.size)
    (h : Contained mem mem' subtype (location + i * subtype.size)) :
    Contained mem mem' (.tArray size subtype check) location := by
  cases hok with
  | tArray items =>
      have hextent := Ty.extent_of_not_counted flat
      have hwithin := item_within hi (Nat.le_refl _)
      refine ⟨h.outside.widen (by omega) (by rw [Ty.extent_tArray]; omega), .tArray fun j hj => ?_⟩
      by_cases hsame : j = i
      · rw [hsame]
        exact h.slots
      · have hapart := items_apart subtype.size hsame
        exact (items j hj).congr hplaced (h.outside.same (by omega))

/-- The items of an array were changed, and then its length. -/
theorem Contained.setLen (hplaced : Placed subtype)
    (h : Contained mem mem' (.tArray size subtype check) (location + lenSize)) (len : Nat) :
    SameOutside mem (setLen mem' location len) location (lenSize + size) ∧
      SlotsOk (setLen mem' location len) (.tArray size subtype check) (location + lenSize) := by
  have hlen := setLen_outside mem' location len
  have hsize : 4 ≤ lenSize := by decide
  refine ⟨(h.outside.widen (by omega) (by rw [Ty.extent_tArray]; omega)).trans
    (hlen.widen (Nat.le_refl _) (by omega)), ?_⟩
  cases h.slots with
  | tArray items =>
      refine .tArray fun i hi => (items i hi).congr hplaced (hlen.same (by omega))

end

/-- The items of a variable array are those of an array behind its length. -/
theorem SlotsOk.tVarray_iff {size location : Nat} {subtype : Ty} {check : Check} :
    SlotsOk mem (.tVarray size subtype check) location ↔
      getLen mem location ≤ size / subtype.size ∧
        SlotsOk mem (.tArray size subtype none) (location + lenSize) := by
  constructor
  · intro h
    cases h with
    | tVarray length items => exact ⟨length, .tArray items⟩
  · rintro ⟨length, h⟩
    cases h with
    | tArray items => exact .tVarray length items

/-- The rows of a table are those of an array of structures behind its length. -/
theorem SlotsOk.tTable_iff {size rowSize location : Nat} {columns : List Member} {check : Check} :
    SlotsOk mem (.tTable size rowSize columns check) location ↔
      getLen mem location ≤ size / rowSize ∧
        SlotsOk mem (.tArray size (.tStruct rowSize columns none) none) (location + lenSize) := by
  constructor
  · intro h
    cases h with
    | tTable length rows => exact ⟨length, .tArray fun i hi => .tStruct (rows i hi)⟩
  · rintro ⟨length, h⟩
    cases h with
    | tArray items =>
        refine .tTable length fun i hi m hm => ?_
        cases items i hi with
        | tStruct parts => exact parts m hm

end LibnklabsPico.Dbase
