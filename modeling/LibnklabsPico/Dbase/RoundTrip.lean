/-
  Dbase/RoundTrip.lean --- parsing undoes serializing.

  With the same schema on both sides nothing is skipped, and what is loaded is the value
  that was saved.  `nkVscan_serialize` is what this says about
  `nk_fscan(f, "%v", type, location)` on an input file that holds what was serialized.
-/
import LibnklabsPico.Dbase.Reading

set_option autoImplicit false

namespace LibnklabsPico.Dbase

open LibnklabsPico.Foundation
open LibnklabsPico.File
open LibnklabsPico.Text

variable {fl : Floats} {charSigned : Bool} {mem : Memory} {fuel : Nat}

/-! ## The same schema -/

/-- By its name, a member finds itself. -/
theorem findMember_self {size : Nat} {members : List Member}
    (hwf : MembersWellFormed size members) {m m' : Member} (hm : m ∈ members)
    (hfound : findMember members m.1 = some m') : m' = m := by
  obtain ⟨hall, hpairs⟩ := membersWellFormed_iff.mp hwf
  rw [findMember_of_mem (hall m hm).ident hpairs hm] at hfound
  exact (Option.some.inj hfound).symm

theorem findMember_self_ne {size : Nat} {members : List Member}
    (hwf : MembersWellFormed size members) {m : Member} (hm : m ∈ members) :
    findMember members m.1 ≠ none := by
  obtain ⟨hall, hpairs⟩ := membersWellFormed_iff.mp hwf
  rw [findMember_of_mem (hall m hm).ident hpairs hm]
  simp

theorem migrates_self (type : Ty) (hwf : WellFormed type) : Migrates type type := by
  induction type, hwf using wellFormed_induction with
  | tBool size check h => exact .tBool
  | tInteger what size check h => exact .tInteger
  | tString size check h => exact .tString (Nat.le_refl size)
  | tStruct size members check h ih =>
      simp only [WellFormed] at h
      obtain ⟨hall, -⟩ := membersWellFormed_iff.mp h.2.1
      refine .tStruct fun m hm m' hfound => ?_
      rw [findMember_self h.2.1 hm hfound]
      exact ih m hm (hall m hm).type
  | tArray size subtype check h ih =>
      simp only [WellFormed] at h
      exact .tArray (ih h.2.2.2.1)
  | tVarray size subtype check h ih =>
      simp only [WellFormed] at h
      exact .tVarray (ih h.2.2.2.1)
  | tTable size rowSize columns check h ih =>
      simp only [WellFormed] at h
      obtain ⟨hall, -⟩ := membersWellFormed_iff.mp h.2.2.2.1
      refine .tTable fun m hm m' hfound => ?_
      rw [findMember_self h.2.2.2.1 hm hfound]
      exact ih m hm (hall m hm).type

/-- Where every column has a member, no field is skipped. -/
theorem aligned_self {size : Nat} {columns : List Member}
    (hwf : MembersWellFormed size columns) : Aligned columns columns := by
  have hknown : columns.Pairwise fun m m₂ => findMember columns m₂.1 = none → m.2.1.isBool = true :=
    List.pairwise_of_forall_mem_list fun m _ m₂ hm₂ hnone =>
      absurd hnone (findMember_self_ne hwf hm₂)
  exact hknown.isChain

/-- With the same schema nothing is skipped. -/
theorem skipsOnly_self (ok : Ty → Nat → Prop) (type : Ty) (hwf : WellFormed type)
    {location : Nat} (hok : ValueOk mem type location) :
    SkipsOnly ok mem type type location := by
  induction type, hwf using wellFormed_induction generalizing location with
  | tBool size check h => exact .tBool
  | tInteger what size check h => exact .tInteger
  | tString size check h => exact .tString
  | tStruct size members check h ih =>
      simp only [WellFormed] at h
      simp only [ValueOk] at hok
      obtain ⟨hall, -⟩ := membersWellFormed_iff.mp h.2.1
      refine .tStruct (fun m hm hnone => absurd hnone (findMember_self_ne h.2.1 hm))
        fun m hm m' hfound => ?_
      rw [findMember_self h.2.1 hm hfound]
      exact ih m hm (hall m hm).type (membersOk_iff.mp hok m hm)
  | tArray size subtype check h ih =>
      simp only [WellFormed] at h
      simp only [ValueOk] at hok
      exact .tArray (fun i hi hfull => absurd hi (by omega))
        fun i hi _ => ih h.2.2.2.1 (hok i hi)
  | tVarray size subtype check h ih =>
      simp only [WellFormed] at h
      simp only [ValueOk] at hok
      exact .tVarray (fun i hi hfull => absurd hi (by omega))
        fun i hi _ => ih h.2.2.2.1 (hok.2 i hi)
  | tTable size rowSize columns check h ih =>
      simp only [WellFormed] at h
      simp only [ValueOk] at hok
      obtain ⟨hall, -⟩ := membersWellFormed_iff.mp h.2.2.2.1
      have hroom : ∀ i < getLen mem location, i < size / rowSize := fun i hi => by omega
      refine .tTable (fun i hi m hm hnone => ?_) (fun i hi => ?_) fun i hi _ m hm m' hfound => ?_
      · rw [if_pos (hroom i hi)] at hnone
        exact absurd hnone (findMember_self_ne h.2.2.2.1 hm)
      · rw [if_pos (hroom i hi)]
        exact aligned_self h.2.2.2.1
      · rw [findMember_self h.2.2.2.1 hm hfound]
        exact ih m hm (hall m hm).type (membersOk_iff.mp (hok.2 i hi) m hm)

/-- With the same schema all of the value is loaded. -/
theorem Migrated.restored {mem₀ mem₁ : Memory} {type : Ty} (hwf : WellFormed type)
    {location location' : Nat} (hok : ValueOk mem type location)
    (h : Migrated mem mem₀ mem₁ type type location location') :
    Restored mem mem₁ type location location' := by
  induction type, hwf using wellFormed_induction generalizing location location' with
  | tBool size check hwf =>
      cases h with
      | tBool value => simpa only [Restored] using value
  | tInteger what size check hwf =>
      cases h with
      | tInteger value => simpa only [Restored] using value
  | tString size check hwf =>
      cases h with
      | tString fits value => simpa only [Restored] using value
  | tStruct size members check hwf ih =>
      simp only [WellFormed] at hwf
      simp only [ValueOk] at hok
      obtain ⟨hall, hpairs⟩ := membersWellFormed_iff.mp hwf.2.1
      cases h with
      | tStruct common kept =>
          simp only [Restored]
          refine membersRestored_iff.mpr fun m hm => ?_
          have hfound := findMember_of_mem (hall m hm).ident hpairs hm
          exact ih m hm (hall m hm).type (membersOk_iff.mp hok m hm) (common m hm m hfound)
  | tArray size subtype check hwf ih =>
      simp only [WellFormed] at hwf
      simp only [ValueOk] at hok
      cases h with
      | tArray items =>
          simp only [Restored]
          exact fun i hi => ih hwf.2.2.2.1 (hok i hi) (items i hi hi)
  | tVarray size subtype check hwf ih =>
      simp only [WellFormed] at hwf
      simp only [ValueOk] at hok
      cases h with
      | tVarray length items =>
          simp only [Restored]
          exact ⟨length.trans (Nat.min_eq_left hok.1),
            fun i hi => ih hwf.2.2.2.1 (hok.2 i hi) (items i hi (by omega))⟩
  | tTable size rowSize columns check hwf ih =>
      simp only [WellFormed] at hwf
      simp only [ValueOk] at hok
      obtain ⟨hall, hpairs⟩ := membersWellFormed_iff.mp hwf.2.2.2.1
      cases h with
      | tTable length common kept =>
          simp only [Restored]
          refine ⟨length.trans (Nat.min_eq_left hok.1), fun i hi => ?_⟩
          refine membersRestored_iff.mpr fun m hm => ?_
          have hfound := findMember_of_mem (hall m hm).ident hpairs hm
          exact ih m hm (hall m hm).type (membersOk_iff.mp (hok.2 i hi) m hm)
            (common i hi (by omega) m hm m hfound)

/-- The parser reads every layout of a well-formed value back. -/
theorem reads_self (s : Spacing) (fl : Floats) (charSigned : Bool) {type : Ty}
    (hwf : WellFormed type) (ind : Int) {location : Nat} (hok : ValueOk mem type location) :
    Reads s fl charSigned mem type type ind location :=
  reads (fun _ _ _ _ h => h.elim) (migrates_self type hwf) hwf hwf ind hok
    (skipsOnly_self (fun _ _ => False) type hwf hok)

/-! ## The whole input -/

/-- The value at the start of an input, and the rest of it behind the value.  After
whitespace of its own the value may have taken some of what follows. -/
theorem takes_serialize {type : Ty} (hwf : WellFormed type) {location : Nat}
    (hok : ValueOk mem type location) (location' : Nat) (mem₀ : Memory) {rest : List UInt8}
    (hrest : type.closed = true ∨ nkIsspace (peekHead rest) = false ∧ Ends (peekHead rest))
    (hfuel : (nkDbaseSerialize fl charSigned mem type location ++ rest).length < fuel) :
    ∃ mem₁, Takes (nkFscanKeyval fl fuel type location' mem₀)
        (nkDbaseSerialize fl charSigned mem type location) rest (true, mem₁) ∧
      Restored mem mem₁ type location location' ∧
      SameOutside mem₀ mem₁ location' type.extent := by
  rw [nkDbaseSerialize_eq fl charSigned mem type hwf 0] at hfuel ⊢
  obtain ⟨mem₁, htakes, hmigrated, hsame⟩ :=
    (reads_self .compact fl charSigned hwf 0 hok).takes location' mem₀ hrest hfuel
  exact ⟨mem₁, htakes, hmigrated.restored hwf hok, hsame⟩

/-- A scan that ends with a value succeeds when nothing is left. -/
theorem takes_value_end {scan : Memory → FileProg (Bool × Memory)} {mem₀ mem₁ : Memory}
    {args : List ScanArg} {out : List (Scanned fl)} {tok rest : List UInt8}
    (h : Takes (scan mem₀) tok rest (true, mem₁)) :
    Takes (scanDirectives fl fuel false [.value] (.value scan :: args) out mem₀) tok rest
      (peekHead rest == -1, out, mem₁) := by
  simp only [scanDirectives]
  refine Takes.finish h ?_
  simp only [if_true]
  exact Takes.look (Takes.peek rest) (Takes.pure _ _)

/-- `nk_fscan(f, "%v", type, location)` on an input file that holds the text of a value
and nothing else. -/
theorem run_value {type : Ty} {location : Nat} {mem₀ mem₁ : Memory} {text : List UInt8}
    {w : Nat} {f : Nkinfile w} (hfile : Agrees f (Cursor.at [] text))
    (h : Takes (nkFscanKeyval fl fuel type location mem₀) text [] (true, mem₁)) :
    ∃ f', (nkVscan fl fuel false "%v" [.value (nkFscanKeyval fl fuel type location)] mem₀).run
        (nkinfile w) f = some ((true, [], mem₁), f') ∧ Agrees f' (Cursor.at text []) := by
  have hscan : Takes
      (nkVscan fl fuel false "%v" [.value (nkFscanKeyval fl fuel type location)] mem₀)
      text [] (true, [], mem₁) :=
    Takes.orRewind_ok (takes_value_end h) rfl
  have hrun := hscan []
  rw [List.append_nil] at hrun
  exact run_of_plainFile hfile hrun

/-- `nk_fscan(f, "%v", type, location)` on exactly what was serialized succeeds at the
end of the input, and restores the value. -/
theorem nkVscan_serialize (fl : Floats) (charSigned : Bool) {type : Ty} (hwf : WellFormed type)
    {mem : Memory} {location : Nat} (hok : ValueOk mem type location) (location' : Nat)
    (mem₀ : Memory) {w fuel : Nat} {f : Nkinfile w}
    (hfile : Agrees f (Cursor.at [] (nkDbaseSerialize fl charSigned mem type location)))
    (hfuel : (nkDbaseSerialize fl charSigned mem type location).length < fuel) :
    ∃ f' mem₁,
      (nkVscan fl fuel false "%v" [.value (nkFscanKeyval fl fuel type location')] mem₀).run
        (nkinfile w) f = some ((true, [], mem₁), f') ∧
      Agrees f' (Cursor.at (nkDbaseSerialize fl charSigned mem type location) []) ∧
      Restored mem mem₁ type location location' ∧
      SameOutside mem₀ mem₁ location' type.extent := by
  have hend : type.closed = true ∨ nkIsspace (peekHead []) = false ∧ Ends (peekHead []) :=
    Or.inr ⟨by decide, Or.inl rfl⟩
  obtain ⟨mem₁, htakes, hrestored, hsame⟩ := takes_serialize hwf hok location' mem₀ hend
    (by rwa [List.append_nil])
  obtain ⟨f', hrun, hagrees⟩ := run_value hfile htakes
  exact ⟨f', mem₁, hrun, hagrees, hrestored, hsame⟩

/-- A Boolean value that is neither 0 nor 1, a string with a quote, and two rows with a
negative column, read back into zeros. -/
theorem nkVscan_serialize_record :
    let row : List Member := [([97], .tInteger .tInt8 1 none, 0), ([98], .tBool 4 none, 4)]
    let type : Ty := .tStruct 40 [([111, 110], .tBool 4 none, 0), ([115], .tString 4 none, 4),
      ([114], .tTable 16 8 row none, 8)] none
    let image : List UInt8 := [7, 0, 0, 0, 104, 34, 255, 0, 2, 0, 0, 0, 0, 0, 0, 0,
      128, 0, 0, 0, 0, 0, 0, 0, 9, 0, 0, 0, 0, 1, 0, 0]
    let mem : Memory := fun a => image.getD a 0
    let text := nkDbaseSerialize .absent true mem type 0
    ∃ f' mem₁,
      (nkVscan .absent (text.length + 1) false "%v"
          [.value (nkFscanKeyval .absent (text.length + 1) type 100)] fun _ => 0).run (nkinfile 32)
        (nkinfileOpenMem 32 (text ++ []) text.length) = some ((true, [], mem₁), f') ∧
      Restored mem mem₁ type 0 100 := by
  intro row type image mem text
  have hids : IsIdent [97] ∧ IsIdent [98] ∧ IsIdent [111, 110] ∧ IsIdent [115] ∧ IsIdent [114] :=
    ⟨.of_all rfl, .of_all rfl, .of_all rfl, .of_all rfl, .of_all rfl⟩
  have hwf : WellFormed type := by
    simp [type, row, WellFormed, MembersWellFormed, Check.Accepts, Check.passes, Apart, Ty.extent,
      Ty.size, lenSize, IntType.width, nkdbaseMaxIdentLen, nkdbaseMaxCols, hids]
  have hlen : getLen mem 8 = 2 := rfl
  have hok : ValueOk mem type 0 := by
    simp only [type, row, ValueOk, MembersOk, Nat.zero_add, hlen]
    exact ⟨trivial, by decide, ⟨by decide, fun _ _ => ⟨trivial, trivial, trivial⟩⟩, trivial⟩
  have hsize : text.length < 2 ^ 32 := by decide +kernel
  obtain ⟨f', mem₁, hrun, _, hrestored, _⟩ :=
    nkVscan_serialize .absent true hwf hok 100 (fun _ => 0)
    (nkinfileOpenMem_agrees text [] hsize) (Nat.lt_succ_self _)
  exact ⟨f', mem₁, hrun, hrestored⟩

end LibnklabsPico.Dbase
