/-
  Dbase/Migration.lean --- loading what an older program has saved.

  `nkVscan_migrated` is about schemas that differ in the members of structures,
  `nkVscan_shrunk` about arrays and tables that are too long or have more columns.  Both
  hold as long as there is no string in what is skipped, and as fields are skipped only
  at the start of a row or behind a Boolean value; the examples behind them show what
  happens otherwise.
-/
import LibnklabsPico.Dbase.RoundTrip
import LibnklabsPico.Dbase.Skipping

set_option autoImplicit false

namespace LibnklabsPico.Dbase

open LibnklabsPico.Foundation
open LibnklabsPico.File
open LibnklabsPico.Text

variable {mem : Memory} {fuel : Nat}

/-- A value that was serialized with one schema is loaded with another one. -/
theorem takes_migrated (fl : Floats) (charSigned : Bool) {type type' : Ty}
    (hmigrates : Migrates type type') (hwf : WellFormed type) (hwf' : WellFormed type')
    {location : Nat} (hok : ValueOk mem type location)
    (hskips : SkipsOnly (StringFree mem) mem type type' location) (location' : Nat)
    (mem₀ : Memory) (hfuel : (nkDbaseSerialize fl charSigned mem type location).length < fuel) :
    ∃ mem₁, Takes (nkFscanKeyval fl fuel type' location' mem₀)
        (nkDbaseSerialize fl charSigned mem type location) [] (true, mem₁) ∧
      Migrated mem mem₀ mem₁ type type' location location' ∧
      SameOutside mem₀ mem₁ location' type'.extent := by
  have hend : type'.closed = true ∨ nkIsspace (peekHead []) = false ∧ Ends (peekHead []) :=
    Or.inr ⟨by decide, Or.inl rfl⟩
  have hreads : Reads .compact fl charSigned mem type type' 0 location :=
    reads (fun _ ind _ hwf hfree => skips compact_tight fl charSigned hfree hwf ind) hmigrates hwf
      hwf' 0 hok hskips
  rw [nkDbaseSerialize_eq fl charSigned mem type hwf 0] at hfuel ⊢
  exact hreads.takes location' mem₀ hend (by rwa [List.append_nil])

/-! ## Other members -/

/-- `nk_fscan(f, "%v", type', location')` on what was serialized with `type` succeeds at
the end of the input: what both schemas have is loaded, what only the new one has is
kept, and what only the old one has is skipped, when there is no string in it. -/
theorem nkVscan_migrated (fl : Floats) (charSigned : Bool) {type type' : Ty}
    (hmigrates : Migrates type type') (hwf : WellFormed type) (hwf' : WellFormed type')
    {location : Nat} (hok : ValueOk mem type location)
    (hskips : SkipsOnly (StringFree mem) mem type type' location) (location' : Nat)
    (mem₀ : Memory) {w : Nat} {f : Nkinfile w}
    (hfile : Agrees f (Cursor.at [] (nkDbaseSerialize fl charSigned mem type location)))
    (hfuel : (nkDbaseSerialize fl charSigned mem type location).length < fuel) :
    ∃ f' mem₁,
      (nkVscan fl fuel false "%v" [.value (nkFscanKeyval fl fuel type' location')] mem₀).run
        (nkinfile w) f = some ((true, [], mem₁), f') ∧
      Agrees f' (Cursor.at (nkDbaseSerialize fl charSigned mem type location) []) ∧
      Migrated mem mem₀ mem₁ type type' location location' ∧
      SameOutside mem₀ mem₁ location' type'.extent := by
  obtain ⟨mem₁, htakes, hmigrated, hsame⟩ := takes_migrated fl charSigned hmigrates hwf hwf' hok
    hskips location' mem₀ hfuel
  obtain ⟨f', hrun, hagrees⟩ := run_value hfile htakes
  exact ⟨f', mem₁, hrun, hagrees, hmigrated, hsame⟩

/-- A structure loses a table and a number, its other members change places, and it gets
a new one. -/
theorem nkVscan_migrated_record :
    let row : List Member := [([97], .tInteger .tInt8 1 none, 0), ([98], .tBool 4 none, 4)]
    let type : Ty := .tStruct 40 [([110], .tInteger .tUint 4 none, 0), ([115], .tString 4 none, 4),
      ([114], .tTable 16 8 row none, 8), ([111, 110], .tBool 4 none, 32)] none
    let type' : Ty := .tStruct 12 [([111, 110], .tBool 4 none, 0), ([115], .tString 4 none, 4),
      ([119], .tInteger .tUint16 2 none, 8)] none
    let image : List UInt8 := [5, 0, 0, 0, 104, 34, 255, 0, 2, 0, 0, 0, 0, 0, 0, 0,
      128, 0, 0, 0, 0, 0, 0, 0, 9, 0, 0, 0, 0, 1, 0, 0, 7, 0, 0, 0]
    let mem : Memory := fun a => image.getD a 0
    let text := nkDbaseSerialize .absent true mem type 0
    ∃ f' mem₁,
      (nkVscan .absent (text.length + 1) false "%v"
          [.value (nkFscanKeyval .absent (text.length + 1) type' 100)] fun _ => 3).run (nkinfile 32)
        (nkinfileOpenMem 32 (text ++ []) text.length) = some ((true, [], mem₁), f') ∧
      Migrated mem (fun _ => 3) mem₁ type type' 0 100 := by
  intro row type type' image mem text
  have hids : IsIdent [97] ∧ IsIdent [98] ∧ IsIdent [111, 110] ∧ IsIdent [115] ∧ IsIdent [114] ∧
      IsIdent [110] ∧ IsIdent [119] :=
    ⟨.of_all rfl, .of_all rfl, .of_all rfl, .of_all rfl, .of_all rfl, .of_all rfl, .of_all rfl⟩
  have hwf : WellFormed type := by
    simp [type, row, WellFormed, MembersWellFormed, Check.Accepts, Check.passes, Apart, Ty.extent,
      Ty.size, lenSize, IntType.width, nkdbaseMaxIdentLen, nkdbaseMaxCols, hids]
  have hwf' : WellFormed type' := by
    simp [type', WellFormed, MembersWellFormed, Check.Accepts, Check.passes, Apart, Ty.extent,
      Ty.size, IntType.width, nkdbaseMaxIdentLen, hids]
  have hmigrates : Migrates type type' := by
    refine .tStruct fun m hm m' hfound => ?_
    simp only [List.mem_cons, List.not_mem_nil, or_false] at hm
    rcases hm with rfl | rfl | rfl | rfl
    · cases hfound
    · cases hfound
      exact .tString (Nat.le_refl 4)
    · cases hfound
    · cases hfound
      exact .tBool
  have hlen : getLen mem 8 = 2 := rfl
  have hok : ValueOk mem type 0 := by
    simp only [type, row, ValueOk, MembersOk, Nat.zero_add, hlen]
    exact ⟨trivial, by decide, ⟨by decide, fun _ _ => ⟨trivial, trivial, trivial⟩⟩,
      trivial, trivial⟩
  have hskips : SkipsOnly (StringFree mem) mem type type' 0 := by
    refine .tStruct (fun m hm hnone => ?_) fun m hm m' hfound => ?_
    all_goals
      simp only [List.mem_cons, List.not_mem_nil, or_false] at hm
      rcases hm with rfl | rfl | rfl | rfl
    · exact .tInteger
    · cases hnone
    · refine .tTable fun i _ m hm => ?_
      simp only [row, List.mem_cons, List.not_mem_nil, or_false] at hm
      rcases hm with rfl | rfl
      · exact .tInteger
      · exact .tBool
    · cases hnone
    · cases hfound
    · cases hfound
      exact .tString
    · cases hfound
    · cases hfound
      exact .tBool
  have hsize : text.length < 2 ^ 32 := by decide +kernel
  obtain ⟨f', mem₁, hrun, _, hmigrated, _⟩ := nkVscan_migrated .absent true hmigrates hwf hwf' hok
    hskips 100 (fun _ => 3) (nkinfileOpenMem_agrees text [] hsize) (Nat.lt_succ_self _)
  exact ⟨f', mem₁, hrun, hmigrated⟩

/-- A string that is skipped: the rest of its structure is lost. -/
theorem nkVscan_not_migrated :
    let type : Ty :=
      .tStruct 8 [([115], .tString 4 none, 0), ([98], .tInteger .tInt 4 none, 4)] none
    let type' : Ty := .tStruct 4 [([98], .tInteger .tInt 4 none, 0)] none
    let image : List UInt8 := [120, 0, 0, 0, 5, 0, 0, 0]
    let mem : Memory := fun a => image.getD a 0
    let text := nkDbaseSerialize .absent true mem type 0
    (WellFormed type ∧ WellFormed type' ∧ Migrates type type' ∧ ValueOk mem type 0) ∧
      ¬ ∃ f' mem₁,
        (nkVscan .absent 50 false "%v" [.value (nkFscanKeyval .absent 50 type' 100)] fun _ => 0).run
          (nkinfile 32) (nkinfileOpenMem 32 text text.length) = some ((true, [], mem₁), f') := by
  intro type type' image mem text
  have hids : IsIdent [98] ∧ IsIdent [115] := ⟨.of_all rfl, .of_all rfl⟩
  refine ⟨⟨?_, ?_, .tStruct fun m hm m' hfound => ?_, ?_⟩, ?_⟩
  · simp [type, WellFormed, MembersWellFormed, Check.Accepts, Check.passes, Apart, Ty.extent,
      Ty.size, IntType.width, nkdbaseMaxIdentLen, hids]
  · simp [type', WellFormed, MembersWellFormed, Check.Accepts, Check.passes, Ty.extent, Ty.size,
      IntType.width, nkdbaseMaxIdentLen, hids]
  · simp only [List.mem_cons, List.not_mem_nil, or_false] at hm
    rcases hm with rfl | rfl
    · cases hfound
    · cases hfound
      exact .tInteger
  · simp only [type, ValueOk, MembersOk, Nat.zero_add]
    exact ⟨by decide, trivial, trivial⟩
  · rintro ⟨f', mem₁, hrun⟩
    have hstatus := congrArg (Option.map fun result => result.1.1) hrun
    change _ = some true at hstatus
    revert hstatus
    decide +kernel

/-! ## Fewer items and columns -/

/-- The new schema has space for fewer items or rows, and has only some of the columns. -/
inductive Shrinks : Ty → Ty → Prop where
  | tArray {size size' : Nat} {subtype : Ty} {check check' : Check} (space : size' ≤ size) :
      Shrinks (.tArray size subtype check) (.tArray size' subtype check')
  | tVarray {size size' : Nat} {subtype : Ty} {check check' : Check} (space : size' ≤ size) :
      Shrinks (.tVarray size subtype check) (.tVarray size' subtype check')
  | tTable {size size' rowSize rowSize' : Nat} {columns columns' : List Member}
      {check check' : Check} (space : size' / rowSize' ≤ size / rowSize)
      (known : ∀ m' ∈ columns', ∃ m ∈ columns, m.1 = m'.1 ∧ m.2.1 = m'.2.1) :
      Shrinks (.tTable size rowSize columns check) (.tTable size' rowSize' columns' check')

/-- As many items or rows were restored as there is space for, and of each row the
columns that the new schema has. -/
inductive Shrunk (mem mem₁ : Memory) : Ty → Ty → Nat → Nat → Prop where
  | tArray {size size' : Nat} {subtype : Ty} {check check' : Check} {location location' : Nat}
      (items : ∀ i < size' / subtype.size,
        Restored mem mem₁ subtype (location + i * subtype.size) (location' + i * subtype.size)) :
      Shrunk mem mem₁ (.tArray size subtype check) (.tArray size' subtype check') location location'
  | tVarray {size size' : Nat} {subtype : Ty} {check check' : Check} {location location' : Nat}
      (length : getLen mem₁ location' = min (getLen mem location) (size' / subtype.size))
      (items : ∀ i < getLen mem₁ location',
        Restored mem mem₁ subtype (location + lenSize + i * subtype.size)
          (location' + lenSize + i * subtype.size)) :
      Shrunk mem mem₁ (.tVarray size subtype check) (.tVarray size' subtype check') location
        location'
  | tTable {size size' rowSize rowSize' : Nat} {columns columns' : List Member}
      {check check' : Check} {location location' : Nat}
      (length : getLen mem₁ location' = min (getLen mem location) (size' / rowSize'))
      (rows : ∀ i < getLen mem₁ location', ∀ m ∈ columns, ∀ m' ∈ columns', m.1 = m'.1 →
        Restored mem mem₁ m'.2.1 (location + lenSize + i * rowSize + m.2.2)
          (location' + lenSize + i * rowSize' + m'.2.2)) :
      Shrunk mem mem₁ (.tTable size rowSize columns check) (.tTable size' rowSize' columns' check')
        location location'

/-- A column that the new schema has is the one of the same name, with the same type. -/
theorem known_type {size size' : Nat} {columns columns' : List Member}
    (hwf : MembersWellFormed size columns) (hwf' : MembersWellFormed size' columns')
    (known : ∀ m' ∈ columns', ∃ m ∈ columns, m.1 = m'.1 ∧ m.2.1 = m'.2.1) {m m' : Member}
    (hm : m ∈ columns) (hm' : m' ∈ columns') (hname : m.1 = m'.1) :
    m.2.1 = m'.2.1 ∧ findMember columns' m.1 = some m' := by
  obtain ⟨hall, hpairs⟩ := membersWellFormed_iff.mp hwf
  obtain ⟨hall', hpairs'⟩ := membersWellFormed_iff.mp hwf'
  obtain ⟨m₂, hm₂, hname₂, htype⟩ := known m' hm'
  have hfirst := findMember_of_mem (hall m hm).ident hpairs hm
  have hsecond := findMember_of_mem (hall m₂ hm₂).ident hpairs hm₂
  rw [hname, ← hname₂, hsecond] at hfirst
  obtain rfl := Option.some.inj hfirst
  refine ⟨htype, ?_⟩
  rw [hname]
  exact findMember_of_mem (hall' m' hm').ident hpairs' hm'

theorem Shrinks.migrates {type type' : Ty} (h : Shrinks type type') (hwf : WellFormed type)
    (hwf' : WellFormed type') : Migrates type type' := by
  cases h with
  | tArray space =>
      simp only [WellFormed] at hwf
      exact .tArray (migrates_self _ hwf.2.2.2.1)
  | tVarray space =>
      simp only [WellFormed] at hwf
      exact .tVarray (migrates_self _ hwf.2.2.2.1)
  | tTable space known =>
      simp only [WellFormed] at hwf hwf'
      obtain ⟨hall, -⟩ := membersWellFormed_iff.mp hwf.2.2.2.1
      refine .tTable fun m hm m' hfound => ?_
      have hname : m.1 = m'.1 := by
        rw [findMember_name hfound, cString_ident (hall m hm).ident]
      have htype := (known_type hwf.2.2.2.1 hwf'.2.2.2.1 known hm (findMember_mem hfound) hname).1
      rw [← htype]
      exact migrates_self _ (hall m hm).type

theorem Shrinks.shrunk {type type' : Ty} (h : Shrinks type type') (hwf : WellFormed type)
    (hwf' : WellFormed type') {location location' : Nat} (hok : ValueOk mem type location)
    {mem₀ mem₁ : Memory} (hmigrated : Migrated mem mem₀ mem₁ type type' location location') :
    Shrunk mem mem₁ type type' location location' := by
  cases h with
  | tArray space =>
      simp only [WellFormed] at hwf
      simp only [ValueOk] at hok
      cases hmigrated with
      | tArray items =>
          refine .tArray fun i hi => ?_
          have hi' := Nat.lt_of_lt_of_le hi (Nat.div_le_div_right space)
          exact (items i hi' hi).restored hwf.2.2.2.1 (hok i hi')
  | tVarray space =>
      simp only [WellFormed] at hwf
      simp only [ValueOk] at hok
      cases hmigrated with
      | tVarray length items =>
          refine .tVarray length fun i hi => ?_
          have hi' : i < getLen mem location := by omega
          exact (items i hi' (by omega)).restored hwf.2.2.2.1 (hok.2 i hi')
  | tTable space known =>
      simp only [WellFormed] at hwf hwf'
      simp only [ValueOk] at hok
      obtain ⟨hall, -⟩ := membersWellFormed_iff.mp hwf.2.2.2.1
      cases hmigrated with
      | tTable length common kept =>
          refine .tTable length fun i hi m hm m' hm' hname => ?_
          have hi' : i < getLen mem location := by omega
          obtain ⟨htype, hfound⟩ := known_type hwf.2.2.2.1 hwf'.2.2.2.1 known hm hm' hname
          have hloaded := common i hi' (by omega) m hm m' hfound
          rw [← htype] at hloaded ⊢
          exact hloaded.restored (hall m hm).type (membersOk_iff.mp (hok.2 i hi') m hm)

/-- `nk_fscan(f, "%v", type', location')` on an array or a table that is too long, or
has other columns, succeeds at the end of the input and restores what there is space for,
when there is no string in what is skipped and the fields that are skipped are aligned. -/
theorem nkVscan_shrunk (fl : Floats) (charSigned : Bool) {type type' : Ty}
    (hshrinks : Shrinks type type') (hwf : WellFormed type) (hwf' : WellFormed type')
    {location : Nat} (hok : ValueOk mem type location)
    (hskips : SkipsOnly (StringFree mem) mem type type' location) (location' : Nat)
    (mem₀ : Memory) {w : Nat} {f : Nkinfile w}
    (hfile : Agrees f (Cursor.at [] (nkDbaseSerialize fl charSigned mem type location)))
    (hfuel : (nkDbaseSerialize fl charSigned mem type location).length < fuel) :
    ∃ f' mem₁,
      (nkVscan fl fuel false "%v" [.value (nkFscanKeyval fl fuel type' location')] mem₀).run
        (nkinfile w) f = some ((true, [], mem₁), f') ∧
      Agrees f' (Cursor.at (nkDbaseSerialize fl charSigned mem type location) []) ∧
      Shrunk mem mem₁ type type' location location' ∧
      SameOutside mem₀ mem₁ location' type'.extent := by
  obtain ⟨mem₁, htakes, hmigrated, hsame⟩ := takes_migrated fl charSigned
    (hshrinks.migrates hwf hwf') hwf hwf' hok hskips location' mem₀ hfuel
  obtain ⟨f', hrun, hagrees⟩ := run_value hfile htakes
  exact ⟨f', mem₁, hrun, hagrees, hshrinks.shrunk hwf hwf' hok hmigrated, hsame⟩

/-- Three rows of two columns into a table of one row with the second column. -/
theorem nkVscan_shrunk_rows :
    let columns : List Member := [([117], .tBool 4 none, 0), ([107], .tInteger .tInt 4 none, 4)]
    let columns' : List Member := [([107], .tInteger .tInt 4 none, 0)]
    let type : Ty := .tTable 24 8 columns none
    let type' : Ty := .tTable 4 4 columns' none
    let image : List UInt8 := [3, 0, 0, 0, 0, 0, 0, 0, 1, 0, 0, 0, 7, 0, 0, 0,
      0, 0, 0, 0, 8, 0, 0, 0, 1, 0, 0, 0, 9, 0, 0, 0]
    let mem : Memory := fun a => image.getD a 0
    let text := nkDbaseSerialize .absent true mem type 0
    ∃ f' mem₁,
      (nkVscan .absent (text.length + 1) false "%v"
          [.value (nkFscanKeyval .absent (text.length + 1) type' 100)] fun _ => 3).run (nkinfile 32)
        (nkinfileOpenMem 32 (text ++ []) text.length) = some ((true, [], mem₁), f') ∧
      Shrunk mem mem₁ type type' 0 100 := by
  intro columns columns' type type' image mem text
  have hids : IsIdent [107] ∧ IsIdent [117] := ⟨.of_all rfl, .of_all rfl⟩
  have hwf : WellFormed type := by
    simp [type, columns, WellFormed, MembersWellFormed, Check.Accepts, Check.passes, Apart,
      Ty.extent, Ty.size, IntType.width, nkdbaseMaxIdentLen, nkdbaseMaxCols, hids]
  have hwf' : WellFormed type' := by
    simp [type', columns', WellFormed, MembersWellFormed, Check.Accepts, Check.passes, Ty.extent,
      Ty.size, IntType.width, nkdbaseMaxIdentLen, nkdbaseMaxCols, hids]
  have hshrinks : Shrinks type type' := by
    refine .tTable (by decide) fun m' hm' => ?_
    obtain rfl := List.mem_singleton.mp hm'
    exact ⟨([107], .tInteger .tInt 4 none, 4), by simp [columns], rfl, rfl⟩
  have hlen : getLen mem 0 = 3 := rfl
  have hok : ValueOk mem type 0 := by
    simp only [type, columns, ValueOk, MembersOk, hlen]
    exact ⟨by decide, fun _ _ => ⟨trivial, trivial, trivial⟩⟩
  have hskips : SkipsOnly (StringFree mem) mem type type' 0 := by
    refine .tTable (fun i _ m hm _ => ?_) (fun i _ => ?_) fun i _ _ m hm m' hfound => ?_
    · simp only [columns, List.mem_cons, List.not_mem_nil, or_false] at hm
      rcases hm with rfl | rfl
      · exact .tBool
      · exact .tInteger
    · exact List.isChain_pair.mpr fun _ => rfl
    · simp only [columns, List.mem_cons, List.not_mem_nil, or_false] at hm
      rcases hm with rfl | rfl
      · cases hfound
      · cases hfound
        exact .tInteger
  have hsize : text.length < 2 ^ 32 := by decide +kernel
  obtain ⟨f', mem₁, hrun, _, hshrunk, _⟩ := nkVscan_shrunk .absent true hshrinks hwf hwf' hok hskips
    100 (fun _ => 3) (nkinfileOpenMem_agrees text [] hsize) (Nat.lt_succ_self _)
  exact ⟨f', mem₁, hrun, hshrunk⟩

/-- A column that is skipped behind a number: the space between the two is not. -/
theorem nkVscan_not_shrunk :
    let columns : List Member := [([107], .tInteger .tInt 4 none, 0),
      ([117], .tInteger .tInt 4 none, 4)]
    let columns' : List Member := [([107], .tInteger .tInt 4 none, 0)]
    let type : Ty := .tTable 8 8 columns none
    let type' : Ty := .tTable 4 4 columns' none
    let image : List UInt8 := [1, 0, 0, 0, 0, 0, 0, 0, 7, 0, 0, 0, 8, 0, 0, 0]
    let mem : Memory := fun a => image.getD a 0
    let text := nkDbaseSerialize .absent true mem type 0
    (WellFormed type ∧ WellFormed type' ∧ Shrinks type type' ∧ ValueOk mem type 0) ∧
      ¬ ∃ f' mem₁,
        (nkVscan .absent 50 false "%v" [.value (nkFscanKeyval .absent 50 type' 100)] fun _ => 0).run
          (nkinfile 32) (nkinfileOpenMem 32 text text.length) = some ((true, [], mem₁), f') := by
  intro columns columns' type type' image mem text
  have hids : IsIdent [107] ∧ IsIdent [117] := ⟨.of_all rfl, .of_all rfl⟩
  have hlen : getLen mem 0 = 1 := rfl
  refine ⟨⟨?_, ?_, .tTable (by decide) fun m' hm' => ?_, ?_⟩, ?_⟩
  · simp [type, columns, WellFormed, MembersWellFormed, Check.Accepts, Check.passes, Apart,
      Ty.extent, Ty.size, IntType.width, nkdbaseMaxIdentLen, nkdbaseMaxCols, hids]
  · simp [type', columns', WellFormed, MembersWellFormed, Check.Accepts, Check.passes, Ty.extent,
      Ty.size, IntType.width, nkdbaseMaxIdentLen, nkdbaseMaxCols, hids]
  · obtain rfl := List.mem_singleton.mp hm'
    exact ⟨([107], .tInteger .tInt 4 none, 0), by simp [columns], rfl, rfl⟩
  · simp only [type, columns, ValueOk, MembersOk, hlen]
    exact ⟨by decide, fun _ _ => ⟨trivial, trivial, trivial⟩⟩
  · rintro ⟨f', mem₁, hrun⟩
    have hstatus := congrArg (Option.map fun result => result.1.1) hrun
    change _ = some true at hstatus
    revert hstatus
    decide +kernel

end LibnklabsPico.Dbase
