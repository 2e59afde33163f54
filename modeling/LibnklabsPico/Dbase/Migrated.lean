/-
  Dbase/Migrated.lean --- a value of one schema in the memory of another one.

  A database that was saved with an old schema is loaded with a new one.  `Migrates`
  relates the two schemas, and `Migrated` what was saved to what was loaded.
-/
import LibnklabsPico.Dbase.Layout

set_option autoImplicit false

namespace LibnklabsPico.Dbase

open LibnklabsPico.Foundation
open LibnklabsPico.Text

/-! ## Two schemas -/

/-- The new schema may have other members in its structures and other columns in its
tables, in any order, and space for other numbers of items and for longer strings.
What has the same name in both has the same kind. -/
inductive Migrates : Ty → Ty → Prop where
  | tBool {size size' : Nat} {check check' : Check} :
      Migrates (.tBool size check) (.tBool size' check')
  | tInteger {what : IntType} {size size' : Nat} {check check' : Check} :
      Migrates (.tInteger what size check) (.tInteger what size' check')
  | tString {size size' : Nat} {check check' : Check} (fits : size ≤ size') :
      Migrates (.tString size check) (.tString size' check')
  | tStruct {size size' : Nat} {members members' : List Member} {check check' : Check}
      (common : ∀ m ∈ members, ∀ m', findMember members' m.1 = some m' →
        Migrates m.2.1 m'.2.1) :
      Migrates (.tStruct size members check) (.tStruct size' members' check')
  | tArray {size size' : Nat} {subtype subtype' : Ty} {check check' : Check}
      (items : Migrates subtype subtype') :
      Migrates (.tArray size subtype check) (.tArray size' subtype' check')
  | tVarray {size size' : Nat} {subtype subtype' : Ty} {check check' : Check}
      (items : Migrates subtype subtype') :
      Migrates (.tVarray size subtype check) (.tVarray size' subtype' check')
  | tTable {size size' rowSize rowSize' : Nat} {columns columns' : List Member}
      {check check' : Check}
      (common : ∀ m ∈ columns, ∀ m', findMember columns' m.1 = some m' →
        Migrates m.2.1 m'.2.1) :
      Migrates (.tTable size rowSize columns check) (.tTable size' rowSize' columns' check')

/-! ## Before and after -/

/-- The members that only the new schema has keep what was in memory before. -/
def Kept (mem₀ mem₁ : Memory) (members members' : List Member) (location' : Nat) : Prop :=
  ∀ m' ∈ members', (∀ m ∈ members, m.1 ≠ m'.1) →
    Same mem₀ mem₁ (location' + m'.2.2) m'.2.1.extent

/-- The value at `location` in `mem` has been loaded at `location'`, where the memory
was `mem₀` before and is `mem₁` now.  As many items are loaded as there is space
for. -/
inductive Migrated (mem mem₀ mem₁ : Memory) : Ty → Ty → Nat → Nat → Prop where
  | tBool {size size' : Nat} {check check' : Check} {location location' : Nat}
      (value : mem₁.read location' 4 =
        leBytes 4 (if ofLe (mem.read location 4) ≠ 0 then 1 else 0)) :
      Migrated mem mem₀ mem₁ (.tBool size check) (.tBool size' check') location location'
  | tInteger {what : IntType} {size size' : Nat} {check check' : Check}
      {location location' : Nat}
      (value : mem₁.read location' what.width = mem.read location what.width) :
      Migrated mem mem₀ mem₁ (.tInteger what size check) (.tInteger what size' check')
        location location'
  | tString {size size' : Nat} {check check' : Check} {location location' : Nat}
      (fits : (cString (mem.read location size)).length < size')
      (value : mem₁.read location' ((cString (mem.read location size)).length + 1) =
        cString (mem.read location size) ++ [0]) :
      Migrated mem mem₀ mem₁ (.tString size check) (.tString size' check') location location'
  | tStruct {size size' : Nat} {members members' : List Member} {check check' : Check}
      {location location' : Nat}
      (common : ∀ m ∈ members, ∀ m', findMember members' m.1 = some m' →
        Migrated mem mem₀ mem₁ m.2.1 m'.2.1 (location + m.2.2) (location' + m'.2.2))
      (kept : Kept mem₀ mem₁ members members' location') :
      Migrated mem mem₀ mem₁ (.tStruct size members check) (.tStruct size' members' check')
        location location'
  | tArray {size size' : Nat} {subtype subtype' : Ty} {check check' : Check}
      {location location' : Nat}
      (items : ∀ i < size / subtype.size, i < size' / subtype'.size →
        Migrated mem mem₀ mem₁ subtype subtype' (location + i * subtype.size)
          (location' + i * subtype'.size)) :
      Migrated mem mem₀ mem₁ (.tArray size subtype check) (.tArray size' subtype' check')
        location location'
  | tVarray {size size' : Nat} {subtype subtype' : Ty} {check check' : Check}
      {location location' : Nat}
      (length : getLen mem₁ location' = min (getLen mem location) (size' / subtype'.size))
      (items : ∀ i < getLen mem location, i < size' / subtype'.size →
        Migrated mem mem₀ mem₁ subtype subtype' (location + lenSize + i * subtype.size)
          (location' + lenSize + i * subtype'.size)) :
      Migrated mem mem₀ mem₁ (.tVarray size subtype check) (.tVarray size' subtype' check')
        location location'
  | tTable {size size' rowSize rowSize' : Nat} {columns columns' : List Member}
      {check check' : Check} {location location' : Nat}
      (length : getLen mem₁ location' = min (getLen mem location) (size' / rowSize'))
      (common : ∀ i < getLen mem location, i < size' / rowSize' →
        ∀ m ∈ columns, ∀ m', findMember columns' m.1 = some m' →
          Migrated mem mem₀ mem₁ m.2.1 m'.2.1 (location + lenSize + i * rowSize + m.2.2)
            (location' + lenSize + i * rowSize' + m'.2.2))
      (kept : ∀ i < getLen mem location, i < size' / rowSize' →
        Kept mem₀ mem₁ columns columns' (location' + lenSize + i * rowSize')) :
      Migrated mem mem₀ mem₁ (.tTable size rowSize columns check)
        (.tTable size' rowSize' columns' check') location location'

theorem findMember_mem {members : List Member} {buf : List UInt8} {m : Member}
    (h : findMember members buf = some m) : m ∈ members := List.mem_of_find?_eq_some h

theorem findMember_name {members : List Member} {buf : List UInt8} {m : Member}
    (h : findMember members buf = some m) : m.1 = cString buf := by
  simpa using List.find?_some h

theorem Kept.congr {mem₀ mem₁ mem₀' mem₁' : Memory} {members members' : List Member}
    {size location' : Nat} (h : Kept mem₀ mem₁ members members' location')
    (hwithin : ∀ m' ∈ members', m'.2.2 + m'.2.1.extent ≤ size)
    (h₀ : Same mem₀ mem₀' location' size) (h₁ : Same mem₁ mem₁' location' size) :
    Kept mem₀' mem₁' members members' location' := by
  intro m' hm' hnew a hlow hhigh
  have hsize := hwithin m' hm'
  rw [h₁ a (by omega) (by omega), h₀ a (by omega) (by omega)]
  exact h m' hm' hnew a hlow hhigh

/-- What has been loaded stays so when nothing in its memory changes, and does not
depend on what was elsewhere. -/
theorem Migrated.congr {mem mem₀ mem₁ mem₀' mem₁' : Memory} {type type' : Ty}
    {location location' : Nat} (h : Migrated mem mem₀ mem₁ type type' location location')
    (hwf : WellFormed type') (h₀ : Same mem₀ mem₀' location' type'.extent)
    (h₁ : Same mem₁ mem₁' location' type'.extent) :
    Migrated mem mem₀' mem₁' type type' location location' := by
  induction h with
  | tBool value =>
      simp only [WellFormed] at hwf
      exact .tBool (by rw [h₁.read hwf.1, value])
  | tInteger value =>
      simp only [WellFormed] at hwf
      exact .tInteger (by rw [h₁.read hwf.1, value])
  | tString fits value => exact .tString fits (by rw [h₁.read (Nat.succ_le_of_lt fits), value])
  | tStruct common kept ih =>
      simp only [WellFormed] at hwf
      obtain ⟨hall, -⟩ := membersWellFormed_iff.mp hwf.2.1
      refine .tStruct (fun m hm m' hm' => ?_)
        (kept.congr (fun m' hm' => (hall m' hm').within) h₀ h₁)
      have hok := hall m' (findMember_mem hm')
      have hwithin := hok.within
      rw [Ty.extent_tStruct] at h₀ h₁
      exact ih m hm m' hm' hok.type (h₀.mono (by omega) (by omega)) (h₁.mono (by omega) (by omega))
  | tArray items ih =>
      simp only [WellFormed] at hwf
      refine .tArray fun i hi hi' => ?_
      have hwithin := item_within hi' (Nat.le_refl _)
      have hextent := Ty.extent_of_not_counted hwf.2.2.1
      rw [Ty.extent_tArray] at h₀ h₁
      exact ih i hi hi' hwf.2.2.2.1 (h₀.mono (by omega) (by omega))
        (h₁.mono (by omega) (by omega))
  | tVarray length items ih =>
      simp only [WellFormed] at hwf
      rw [Ty.extent_tVarray] at h₀ h₁
      have hlen := congrArg ofLe (h₁.read (n := 4) (by simp only [lenSize]; omega))
      refine .tVarray (hlen.trans length) fun i hi hi' => ?_
      have hwithin := item_within hi' (Nat.le_refl _)
      have hextent := Ty.extent_of_not_counted hwf.2.2.1
      exact ih i hi hi' hwf.2.2.2.1
        (h₀.mono (by omega) (by omega)) (h₁.mono (by omega) (by omega))
  | tTable length common kept ih =>
      simp only [WellFormed] at hwf
      obtain ⟨hall, -⟩ := membersWellFormed_iff.mp hwf.2.2.2.1
      rw [Ty.extent_tTable] at h₀ h₁
      have hlen := congrArg ofLe (h₁.read (n := 4) (by simp only [lenSize]; omega))
      refine .tTable (hlen.trans length) (fun i hi hi' m hm m' hm' => ?_) fun i hi hi' => ?_
      · have hrow := item_within hi' (Nat.le_refl _)
        have hok := hall m' (findMember_mem hm')
        have hwithin := hok.within
        exact ih i hi hi' m hm m' hm' hok.type
          (h₀.mono (by omega) (by omega)) (h₁.mono (by omega) (by omega))
      · have hrow := item_within hi' (Nat.le_refl _)
        exact (kept i hi hi').congr (fun m' hm' => (hall m' hm').within)
          (h₀.mono (by omega) (by omega)) (h₁.mono (by omega) (by omega))

end LibnklabsPico.Dbase
