/-
  Dbase/Reading.lean --- the parser reads values of an old schema.

  What the new schema has no place for is skipped (`SkipsOnly`); when `skip_value` can
  skip all of it, the value is loaded.  One lemma for each type; `reads` is the
  induction over the two schemas.
-/
import LibnklabsPico.Dbase.Tables

set_option autoImplicit false

namespace LibnklabsPico.Dbase

open LibnklabsPico.Foundation
open LibnklabsPico.File
open LibnklabsPico.Text

variable {s : Spacing} {fl : Floats} {charSigned : Bool} {mem : Memory} {fuel : Nat}

/-- What the new schema has no place for: members and columns that it does not have,
and items and rows that there is no space for.  All of that is `ok`, and the fields that
are skipped are aligned. -/
inductive SkipsOnly (ok : Ty → Nat → Prop) (mem : Memory) : Ty → Ty → Nat → Prop where
  | tBool {size size' location : Nat} {check check' : Check} :
      SkipsOnly ok mem (.tBool size check) (.tBool size' check') location
  | tInteger {what : IntType} {size size' location : Nat} {check check' : Check} :
      SkipsOnly ok mem (.tInteger what size check) (.tInteger what size' check') location
  | tString {size size' location : Nat} {check check' : Check} :
      SkipsOnly ok mem (.tString size check) (.tString size' check') location
  | tStruct {size size' location : Nat} {members members' : List Member} {check check' : Check}
      (removed : ∀ m ∈ members, findMember members' m.1 = none → ok m.2.1 (location + m.2.2))
      (common : ∀ m ∈ members, ∀ m', findMember members' m.1 = some m' →
        SkipsOnly ok mem m.2.1 m'.2.1 (location + m.2.2)) :
      SkipsOnly ok mem (.tStruct size members check) (.tStruct size' members' check') location
  | tArray {size size' location : Nat} {subtype subtype' : Ty} {check check' : Check}
      (extra : ∀ i < size / subtype.size, size' / subtype'.size ≤ i →
        ok subtype (location + i * subtype.size))
      (items : ∀ i < size / subtype.size, i < size' / subtype'.size →
        SkipsOnly ok mem subtype subtype' (location + i * subtype.size)) :
      SkipsOnly ok mem (.tArray size subtype check) (.tArray size' subtype' check') location
  | tVarray {size size' location : Nat} {subtype subtype' : Ty} {check check' : Check}
      (extra : ∀ i < getLen mem location, size' / subtype'.size ≤ i →
        ok subtype (location + lenSize + i * subtype.size))
      (items : ∀ i < getLen mem location, i < size' / subtype'.size →
        SkipsOnly ok mem subtype subtype' (location + lenSize + i * subtype.size)) :
      SkipsOnly ok mem (.tVarray size subtype check) (.tVarray size' subtype' check') location
  | tTable {size size' rowSize rowSize' location : Nat} {columns columns' : List Member}
      {check check' : Check}
      (fields : ∀ i < getLen mem location, ∀ m ∈ columns,
        findMember (if i < size' / rowSize' then columns' else []) m.1 = none →
          ok m.2.1 (location + lenSize + i * rowSize + m.2.2))
      (aligned : ∀ i < getLen mem location,
        Aligned (if i < size' / rowSize' then columns' else []) columns)
      (common : ∀ i < getLen mem location, i < size' / rowSize' → ∀ m ∈ columns, ∀ m',
        findMember columns' m.1 = some m' →
          SkipsOnly ok mem m.2.1 m'.2.1 (location + lenSize + i * rowSize + m.2.2)) :
      SkipsOnly ok mem (.tTable size rowSize columns check)
        (.tTable size' rowSize' columns' check') location

theorem takes_keyval {type : Ty} {location : Nat} {mem₀ mem₁ : Memory} {tok rest : List UInt8}
    (hcheck : type.check.Accepts)
    (h : Takes (scanValue fl (nkFscanKeyval fl fuel) (skipValue fl fuel) fuel type location
      (peekHead (tok ++ rest)) mem₀) tok rest (true, mem₁)) :
    Takes (nkFscanKeyval fl (fuel + 1) type location mem₀) tok rest (true, mem₁) := by
  have hpasses : (true && type.check.passes mem₁ location) = true := by
    rw [hcheck mem₁ location]
    rfl
  refine Takes.orRewind_ok (Takes.look (Takes.peek _) (Takes.finish h ?_)) rfl
  simp only [hpasses]
  exact Takes.pure _ rest

theorem Follows.open {type : Ty} {ws rest : List UInt8} (h : Follows type ws rest)
    (hclosed : type.closed = false) :
    Blank ws ∧ nkIsspace (peekHead rest) = false ∧ Ends (peekHead (ws ++ rest)) := by
  rcases h with h | h
  · rw [hclosed] at h
    cases h
  · exact h

/-! ## Scalars -/

theorem reads_bool {size size' : Nat} {check check' : Check}
    (hwf : WellFormed (.tBool size' check')) (ind : Int) (location : Nat) :
    Reads s fl charSigned mem (.tBool size check) (.tBool size' check') ind location := by
  intro fuel location' mem₀ ws rest hfollows hfuel
  obtain ⟨fuel, rfl⟩ : ∃ k, fuel = k + 1 := ⟨fuel - 1, by omega⟩
  obtain ⟨hws, hspace, -⟩ := hfollows.open rfl
  simp only [WellFormed] at hwf
  simp only [List.length_append] at hfuel
  have hle : ws.length ≤ fuel := by omega
  by_cases hval : ofLe (mem.read location 4) ≠ 0
  · refine ⟨mem₀.store location' (leBytes 4 1), ws, [], (List.append_nil ws).symm, fun _ => rfl, ?_,
      .tBool ?_, ?_⟩
    · simp only [layout, if_pos hval]
      refine takes_keyval hwf.2 ?_
      refine Takes.finish (takes_fscan_lits (ascii "true") rfl hws hspace hle) ?_
      exact Takes.pure _ _
    · rw [if_pos hval]
      exact Memory.read_store mem₀ location' (leBytes 4 1)
    · exact store_outside mem₀ hwf.1
  · refine ⟨mem₀.store location' (leBytes 4 0), ws, [], (List.append_nil ws).symm, fun _ => rfl, ?_,
      .tBool ?_, ?_⟩
    · simp only [layout, if_neg hval]
      have hnot :
          Takes (nkFscan fl fuel "true %e") [] (ascii "false" ++ ws ++ ([] ++ rest)) false :=
        takes_fscan_lits_ne 116 (ascii "rue") rfl
          (by decide : peekHead (ascii "false") ≠ (116 : UInt8).toNat)
      refine takes_keyval hwf.2 (Takes.look hnot ?_)
      refine Takes.finish (takes_fscan_lits (ascii "false") rfl hws hspace hle) ?_
      exact Takes.pure _ _
    · rw [if_neg hval]
      exact Memory.read_store mem₀ location' (leBytes 4 0)
    · exact store_outside mem₀ hwf.1

theorem numText_length (neg : Bool) (val : Nat) :
    (decDigits val).length ≤ (numText neg val).length := by
  simp [numText]

theorem reads_integer {what : IntType} {size size' : Nat} {check check' : Check}
    (hwf : WellFormed (.tInteger what size' check')) (ind : Int) (location : Nat) :
    Reads s fl charSigned mem (.tInteger what size check) (.tInteger what size' check') ind
      location := by
  intro fuel location' mem₀ ws rest hfollows hfuel
  obtain ⟨fuel, rfl⟩ : ∃ k, fuel = k + 1 := ⟨fuel - 1, by omega⟩
  obtain ⟨-, -, hends⟩ := hfollows.open rfl
  obtain ⟨hlow, hhigh, -⟩ := what.load_range charSigned mem location
  have hread := what.read_save charSigned mem mem₀ location location'
  simp only [WellFormed] at hwf
  simp only [layout] at hfuel ⊢
  generalize what.load charSigned mem location = n at *
  have hlength := numText_length (decide (n < 0)) n.natAbs
  simp only [List.length_append] at hfuel
  refine ⟨what.save n mem₀ location', [], ws, rfl, (fun h => by cases h), ?_, .tInteger hread, ?_⟩
  · rw [List.append_nil]
    refine takes_keyval hwf.2 ?_
    have hnum : Takes (scanIntNumber fl fuel (peekHead (numText (decide (n < 0)) n.natAbs ++
        (ws ++ rest)))) (numText (decide (n < 0)) n.natAbs) (ws ++ rest)
        (true, some (.int (decide (n < 0)) n.natAbs)) :=
      takes_scanIntNumber (by omega) hends (by omega)
    refine Takes.finish hnum ?_
    simp only [Number.toInt_int rfl (by omega : n.natAbs < 2 ^ 63)]
    exact Takes.pure _ _
  · exact store_outside mem₀ (by rw [leBytes_length]; exact hwf.1)

theorem reads_string {size size' : Nat} {check check' : Check}
    (hwf : WellFormed (.tString size' check')) (hsize : size ≤ size') (ind : Int) {location : Nat}
    (hok : ValueOk mem (.tString size check) location) :
    Reads s fl charSigned mem (.tString size check) (.tString size' check') ind location := by
  intro fuel location' mem₀ ws rest _ hfuel
  obtain ⟨fuel, rfl⟩ : ∃ k, fuel = k + 1 := ⟨fuel - 1, by omega⟩
  simp only [WellFormed] at hwf
  simp only [ValueOk] at hok
  have hlength := cString_length hok
  rw [Memory.read_length] at hlength
  have hmigrated : ∀ mem₁ : Memory, mem₁.read location' ((cString (mem.read location size)).length
      + 1) = cString (mem.read location size) ++ [0] →
      Migrated mem mem₀ mem₁ (.tString size check) (.tString size' check') location location' :=
    fun mem₁ h => .tString (by omega) h
  simp only [layout, List.length_append, List.length_cons] at hfuel ⊢
  generalize cString (mem.read location size) = text at *
  refine ⟨mem₀.store location' (text ++ [0]), [], ws, rfl, (fun h => by cases h), ?_,
    hmigrated _ ?_, ?_⟩
  · rw [List.append_nil]
    refine takes_keyval hwf.2.2 ?_
    exact takes_scanString (by omega) hwf.2.1 (by omega)
  · have hread := Memory.read_store mem₀ location' (text ++ [0])
    simpa using hread
  · refine store_outside mem₀ ?_
    simp only [Ty.extent, Ty.size, List.length_append, List.length_cons, List.length_nil]
    omega

/-! ## Structures, arrays and tables -/

/-- Move past a closing mark. -/
theorem takes_closing (c : UInt8) (rtn : Bool) (rest : List UInt8) :
    Takes (closing c.toNat rtn) [c] rest rtn := by
  have hc : peekHead ([c] ++ rest) = (c.toNat : Int) := rfl
  refine Takes.look (Takes.peek _) ?_
  rw [if_pos hc]
  exact Takes.finish (Takes.nextFast c rest) (Takes.pure _ rest)

theorem reads_struct {size size' : Nat} {members members' : List Member} {check check' : Check}
    (hwf : WellFormed (.tStruct size members check))
    (hwf' : WellFormed (.tStruct size' members' check')) (ind : Int) {location : Nat}
    (hreads : ∀ m ∈ members, ∀ m', findMember members' m.1 = some m' → ∀ ind,
      Reads s fl charSigned mem m.2.1 m'.2.1 ind (location + m.2.2))
    (hskips : ∀ m ∈ members, findMember members' m.1 = none → ∀ ind,
      Skips fl m.2.1 (layout s fl charSigned mem m.2.1 ind (location + m.2.2))) :
    Reads s fl charSigned mem (.tStruct size members check) (.tStruct size' members' check') ind
      location := by
  intro fuel location' mem₀ ws rest _ hfuel
  obtain ⟨fuel, rfl⟩ : ∃ k, fuel = k + 1 := ⟨fuel - 1, by omega⟩
  simp only [WellFormed] at hwf hwf'
  obtain ⟨hall, hpairs⟩ := membersWellFormed_iff.mp hwf.2.1
  have hready : ∀ m ∈ members, MemberReady s fl charSigned mem size members'
      (s.member m.2.1.isTable ind) location m :=
    fun m hm => ⟨hall m hm, fun m' hm' => hreads m hm m' hm' _, fun hnone => hskips m hm hnone _⟩
  simp only [layout, List.length_append, List.length_cons, List.length_nil] at hfuel ⊢
  obtain ⟨mem₁, hloop, hmembers⟩ := takes_structLoop (n := fuel) hwf'.2.1 mem₀ hready hpairs
    s.opening.2 (s.closing ind).2 (by simp only [List.length_append]; omega)
    (by simp only [List.length_append, List.length_cons]; omega : (s.opening.1 ++
      (layoutMembers s fl charSigned mem members ind location ++ (s.closing ind).1) ++
      125 :: (ws ++ rest)).length < fuel)
  refine ⟨mem₁, [], ws, rfl, (fun h => by cases h), ?_,
    .tStruct hmembers.common (hmembers.kept hwf'.2.1 fun m hm => (hall m hm).ident),
    hmembers.sameOutside hwf'.2.1⟩
  rw [List.append_nil, ← List.append_assoc _ (s.closing ind).1, ← List.append_assoc s.opening.1]
  refine takes_keyval hwf'.2.2 (Takes.bind (Takes.nextFast 123 _) ?_)
  exact Takes.bind hloop (Takes.finish (takes_closing 125 true _) (Takes.pure _ _))

/-- The items of an array between its brackets. -/
theorem takes_items {subtype subtype' : Ty} (hsub : WellFormed subtype)
    (hwf : WellFormed subtype') (hcounted : subtype'.counted = false) {size' : Nat}
    (hpos : 0 < size') (hdvd : subtype'.size ∣ size') {ind : Int} {count location : Nat}
    (base : Nat) (mem₀ : Memory) {rest : List UInt8}
    (hready : ItemsReady s fl charSigned mem subtype subtype' (s.item ind)
      (size' / subtype'.size) 0 count location)
    (hfuel : (s.opening.1 ++ (layoutItems s (layout s fl charSigned mem subtype (s.item ind))
      subtype.size ind count location ++ (s.closing ind).1) ++ 93 :: rest).length < fuel) :
    ∃ mem₁, Takes (arrayLoop (nkFscanKeyval fl fuel subtype') (skipValue fl fuel) fuel base size'
          subtype'.size fuel 0 true mem₀)
        (s.opening.1 ++ (layoutItems s (layout s fl charSigned mem subtype (s.item ind))
          subtype.size ind count location ++ (s.closing ind).1)) (93 :: rest)
        (true, min count (size' / subtype'.size) * subtype'.size, mem₁) ∧
      (∀ i < count, i < size' / subtype'.size →
        Migrated mem mem₀ mem₁ subtype subtype' (location + i * subtype.size)
          (base + i * subtype'.size)) ∧
      SameOutside mem₀ mem₁ base size' := by
  have hitem : 0 < subtype'.size := Nat.pos_of_dvd_of_pos hdvd hpos
  have hn : (s.opening.1 ++ (layoutItems s (layout s fl charSigned mem subtype (s.item ind))
      subtype.size ind count location ++ (s.closing ind).1)).length < fuel := by
    rw [List.length_append, List.length_cons] at hfuel
    omega
  obtain ⟨mem₁, hloop, hfilled, houtside⟩ := takes_arrayLoop hsub hwf hcounted hitem base
    mem₀ hready (Nat.zero_le _) s.opening.2 (s.closing ind).2 hn hfuel
  simp only [Nat.zero_mul, Nat.add_zero, Nat.zero_add, Nat.sub_zero,
    Nat.div_mul_cancel hdvd] at hloop hfilled houtside
  exact ⟨mem₁, hloop, hfilled, houtside⟩

theorem reads_array {size size' : Nat} {subtype subtype' : Ty} {check check' : Check}
    (hwf : WellFormed (.tArray size subtype check))
    (hwf' : WellFormed (.tArray size' subtype' check')) (ind : Int) {location : Nat}
    (hready : ItemsReady s fl charSigned mem subtype subtype' (s.item ind)
      (size' / subtype'.size) 0 (size / subtype.size) location) :
    Reads s fl charSigned mem (.tArray size subtype check) (.tArray size' subtype' check') ind
      location := by
  intro fuel location' mem₀ ws rest _ hfuel
  obtain ⟨fuel, rfl⟩ : ∃ k, fuel = k + 1 := ⟨fuel - 1, by omega⟩
  simp only [WellFormed] at hwf hwf'
  obtain ⟨hpos, hdvd, hcounted, hsub', hcheck⟩ := hwf'
  simp only [layout, List.length_append, List.length_cons, List.length_nil] at hfuel ⊢
  obtain ⟨mem₁, hloop, hitems, hsame⟩ := takes_items hwf.2.2.2.1 hsub' hcounted hpos hdvd
    location' mem₀ hready
    (by simp only [List.length_append, List.length_cons]; omega : (s.opening.1 ++
      (layoutItems s (layout s fl charSigned mem subtype (s.item ind)) subtype.size ind
        (size / subtype.size) location ++ (s.closing ind).1) ++ 93 :: (ws ++ rest)).length < fuel)
  refine ⟨mem₁, [], ws, rfl, (fun h => by cases h), ?_, .tArray hitems, hsame⟩
  rw [List.append_nil, ← List.append_assoc _ (s.closing ind).1, ← List.append_assoc s.opening.1]
  refine takes_keyval hcheck (Takes.bind (Takes.nextFast 91 _) ?_)
  exact Takes.bind hloop (Takes.finish (takes_closing 93 true _) (Takes.pure _ _))

/-- The length is set behind the items. -/
theorem setLen_sameOutside {mem₀ mem₁ : Memory} {location' size' : Nat} (len : Nat)
    (h : SameOutside mem₀ mem₁ (location' + lenSize) size') :
    SameOutside mem₀ (setLen mem₁ location' len) location' (lenSize + size') := by
  intro a ha
  rw [setLen_outside mem₁ location' len a (by simp only [lenSize] at ha; omega), h a (by omega)]

theorem reads_varray {size size' : Nat} {subtype subtype' : Ty} {check check' : Check}
    (hwf : WellFormed (.tVarray size subtype check))
    (hwf' : WellFormed (.tVarray size' subtype' check')) (ind : Int) {location : Nat}
    (hready : ItemsReady s fl charSigned mem subtype subtype' (s.item ind)
      (size' / subtype'.size) 0 (getLen mem location) (location + lenSize)) :
    Reads s fl charSigned mem (.tVarray size subtype check) (.tVarray size' subtype' check') ind
      location := by
  intro fuel location' mem₀ ws rest _ hfuel
  obtain ⟨fuel, rfl⟩ : ∃ k, fuel = k + 1 := ⟨fuel - 1, by omega⟩
  simp only [WellFormed] at hwf hwf'
  obtain ⟨hpos, hdvd, hcounted, hsub', hcheck⟩ := hwf'
  have hitem : 0 < subtype'.size := Nat.pos_of_dvd_of_pos hdvd hpos
  have hlen := getLen_lt mem location
  simp only [layout, List.length_append, List.length_cons, List.length_nil] at hfuel ⊢
  obtain ⟨mem₁, hloop, hitems, hsame⟩ := takes_items hwf.2.2.2.1 hsub' hcounted hpos
    hdvd (location' + lenSize) mem₀ hready
    (by simp only [List.length_append, List.length_cons]; omega : (s.opening.1 ++
      (layoutItems s (layout s fl charSigned mem subtype (s.item ind)) subtype.size ind
        (getLen mem location) (location + lenSize) ++ (s.closing ind).1) ++
        93 :: (ws ++ rest)).length < fuel)
  have houtside := setLen_outside mem₁ location' (min (getLen mem location) (size' / subtype'.size))
  refine ⟨_, [], ws, rfl, (fun h => by cases h), ?_,
    .tVarray (getLen_setLen_of_lt mem₁ location' (by omega))
    fun i hi hroom => (hitems i hi hroom).congr hsub' (Same.refl _ _ _)
      (houtside.same (by simp only [lenSize]; omega)), setLen_sameOutside _ hsame⟩
  rw [List.append_nil, ← List.append_assoc _ (s.closing ind).1, ← List.append_assoc s.opening.1]
  refine takes_keyval hcheck (Takes.bind (Takes.nextFast 91 _) ?_)
  refine Takes.bind hloop (Takes.finish (takes_closing 93 true _) ?_)
  simp only [Nat.mul_div_cancel _ hitem]
  exact Takes.pure _ _

theorem reads_table {size size' rowSize rowSize' : Nat} {columns columns' : List Member}
    {check check' : Check} (hwf : WellFormed (.tTable size rowSize columns check))
    (hwf' : WellFormed (.tTable size' rowSize' columns' check')) (ind : Int) {location : Nat}
    (hready : RowsReady s fl charSigned mem columns columns' rowSize (size' / rowSize') 0
      (getLen mem location) (location + lenSize)) :
    Reads s fl charSigned mem (.tTable size rowSize columns check)
      (.tTable size' rowSize' columns' check') ind location := by
  intro fuel location' mem₀ ws rest _ hfuel
  obtain ⟨fuel, rfl⟩ : ∃ k, fuel = k + 1 := ⟨fuel - 1, by omega⟩
  simp only [WellFormed] at hwf hwf'
  obtain ⟨hall, hpairs⟩ := membersWellFormed_iff.mp hwf.2.2.2.1
  obtain ⟨hpos, hdvd, -, hcolumns, hcheck⟩ := hwf'
  have hlen := getLen_lt mem location
  have hident : ∀ m ∈ columns, IsIdent m.1 := fun m hm => (hall m hm).ident
  have hnames := headerNames_length s hident
  obtain ⟨ws₁, gap, gap', htext, hws₁, hgap, hgap', hends⟩ := layout_table s fl charSigned mem size
    rowSize columns check ind location (ws ++ rest)
  rw [htext] at hfuel ⊢
  generalize hrows : rowTexts s (layoutFields s fl charSigned mem columns) rowSize ind
    (getLen mem location) (location + lenSize) = rows at *
  simp only [List.length_append, List.length_cons, List.length_nil] at hfuel
  have hheaderFuel : (ws₁ ++ (headerNames s columns ++ gap)).length ≤ fuel := by
    simp only [List.length_append]
    omega
  -- the header and the rows are read up to some whitespace
  obtain ⟨ate, behind, col, map, hate, hbehind, hcol, hmap, hheader⟩ := takes_columnLoop fl
    columns' [] hident (fun m hm => (hall m hm).length) hws₁ hgap hends hwf.2.2.1
    (by omega : columns.length < fuel) hheaderFuel
  have htake : map.take col = columns.map fun m => findMember columns' m.1 := by
    rw [hmap, hcol, List.nil_append, List.length_nil, Nat.zero_add]
    exact List.take_left' (by rw [List.length_map])
  have hateLength := congrArg List.length hate
  simp only [List.length_append] at hateLength
  have hrowsFuel : (behind ++ (rows ++ gap') ++ 41 :: (ws ++ rest)).length < fuel := by
    simp only [List.length_append, List.length_cons]
    omega
  have hat : 0 < size' / rowSize' → location' + lenSize = location' + lenSize + 0 * rowSize' := by
    omega
  obtain ⟨mem₁, ate₁, behind₁, hate₁, hbehind₁, hloop, hfilled, hsame⟩ := takes_rowLoop hcolumns
    hpairs (location' + lenSize) mem₀ hready (Nat.zero_le _) hat hbehind hgap'
    (by rw [hrows]; simp only [List.length_append]; omega : (behind ++ (rowTexts s
      (layoutFields s fl charSigned mem columns) rowSize ind (getLen mem location)
      (location + lenSize) ++ gap')).length < fuel)
    (by rw [hrows]; exact hrowsFuel)
  rw [hrows] at hate₁
  have hateLength₁ := congrArg List.length hate₁
  simp only [List.length_append] at hateLength₁
  simp only [Nat.zero_mul, Nat.add_zero, Nat.zero_add, Nat.sub_zero,
    Nat.div_mul_cancel hdvd] at hloop hfilled hsame
  have houtside := setLen_outside mem₁ location' (min (getLen mem location) (size' / rowSize'))
  have hrow : ∀ i < getLen mem location, i < size' / rowSize' →
      RowMigrated mem mem₀ (setLen mem₁ location' (min (getLen mem location) (size' / rowSize')))
        columns columns' (location + lenSize + i * rowSize)
        (location' + lenSize + i * rowSize') :=
    fun i hi hroom => local_row mem columns hcolumns _ _ _ _ _ _ (hfilled i hi hroom)
      (Same.refl _ _ _) (houtside.same (by simp only [lenSize]; omega))
  refine ⟨_, [], ws, rfl, (fun h => by cases h), ?_,
    .tTable (getLen_setLen_of_lt mem₁ location' (by omega))
    (fun i hi hroom => (hrow i hi hroom).common) (fun i hi hroom => (hrow i hi hroom).kept),
    setLen_sameOutside _ hsame⟩
  rw [List.append_nil, hate, List.append_assoc ate, ← List.append_assoc behind, hate₁,
    List.append_assoc ate₁]
  have hclose : Takes (nkFscan fl fuel " )%e") (behind₁ ++ [41]) (ws ++ rest) true :=
    takes_fscan_mark rfl hbehind₁ (by decide) (by omega)
  have hrest : (behind ++ ((rows ++ gap') ++ 41 :: (ws ++ rest))) =
      (ate₁ ++ (behind₁ ++ [41])) ++ (ws ++ rest) := by
    rw [← List.append_assoc, hate₁]
    simp only [List.append_assoc, List.cons_append, List.nil_append]
  rw [hrest] at hheader
  refine takes_keyval hcheck (Takes.bind (Takes.nextFast 40 _) ?_)
  refine Takes.bind (by exact hheader) ?_
  simp only [htake]
  refine Takes.bind (by rw [List.append_assoc]; exact hloop) (Takes.finish hclose ?_)
  exact Takes.pure _ _

/-! ## The induction over the two schemas -/

/-- The parser for the new schema reads the layout of a well-formed value of the old one,
when `skip_value` can skip what the new one has no place for. -/
theorem reads {ok : Ty → Nat → Prop}
    (hok : ∀ type ind location, WellFormed type → ok type location →
      Skips fl type (layout s fl charSigned mem type ind location))
    {type type' : Ty} (h : Migrates type type') (hwf : WellFormed type)
    (hwf' : WellFormed type') (ind : Int) {location : Nat} (hvalue : ValueOk mem type location)
    (hskips : SkipsOnly ok mem type type' location) :
    Reads s fl charSigned mem type type' ind location := by
  induction h generalizing ind location with
  | tBool => exact reads_bool hwf' ind location
  | tInteger => exact reads_integer hwf' ind location
  | tString fits => exact reads_string hwf' fits ind hvalue
  | tStruct common ih =>
      cases hskips with
      | tStruct removed hcommon =>
          have hmembers := hwf
          have hmembers' := hwf'
          simp only [WellFormed] at hmembers hmembers'
          simp only [ValueOk] at hvalue
          obtain ⟨hall, -⟩ := membersWellFormed_iff.mp hmembers.2.1
          obtain ⟨hall', -⟩ := membersWellFormed_iff.mp hmembers'.2.1
          refine reads_struct hwf hwf' ind (fun m hm m' hm' ind => ?_) fun m hm hnone ind => ?_
          · exact ih m hm m' hm' (hall m hm).type (hall' m' (findMember_mem hm')).type ind
              (membersOk_iff.mp hvalue m hm) (hcommon m hm m' hm')
          · exact hok m.2.1 ind _ (hall m hm).type (removed m hm hnone)
  | tArray items ih =>
      cases hskips with
      | tArray extra hitems =>
          have hsub := hwf
          have hsub' := hwf'
          simp only [WellFormed] at hsub hsub'
          simp only [ValueOk] at hvalue
          refine reads_array hwf hwf' ind ⟨fun i hi hroom => ?_, fun i hi hfull => ?_⟩
          · rw [Nat.zero_add] at hroom
            exact ih hsub.2.2.2.1 hsub'.2.2.2.1 _ (hvalue i hi) (hitems i hi hroom)
          · rw [Nat.zero_add] at hfull
            exact hok _ _ _ hsub.2.2.2.1 (extra i hi hfull)
  | tVarray items ih =>
      cases hskips with
      | tVarray extra hitems =>
          have hsub := hwf
          have hsub' := hwf'
          simp only [WellFormed] at hsub hsub'
          simp only [ValueOk] at hvalue
          refine reads_varray hwf hwf' ind ⟨fun i hi hroom => ?_, fun i hi hfull => ?_⟩
          · rw [Nat.zero_add] at hroom
            exact ih hsub.2.2.2.1 hsub'.2.2.2.1 _ (hvalue.2 i hi) (hitems i hi hroom)
          · rw [Nat.zero_add] at hfull
            exact hok _ _ _ hsub.2.2.2.1 (extra i hi hfull)
  | tTable common ih =>
      cases hskips with
      | tTable fields aligned hcommon =>
          have hcolumns := hwf
          have hcolumns' := hwf'
          simp only [WellFormed] at hcolumns hcolumns'
          simp only [ValueOk] at hvalue
          obtain ⟨hall, -⟩ := membersWellFormed_iff.mp hcolumns.2.2.2.1
          obtain ⟨hall', -⟩ := membersWellFormed_iff.mp hcolumns'.2.2.2.1
          refine reads_table hwf hwf' ind ⟨fun i hi m hm => ?_, fun i hi => ?_⟩
          · refine ⟨hall m hm, fun m' hm' => ?_, fun hnone => ?_⟩
            · rw [Nat.zero_add] at hm'
              split at hm'
              · rename_i hroom
                exact ih m hm m' hm' (hall m hm).type (hall' m' (findMember_mem hm')).type 0
                  (membersOk_iff.mp (hvalue.2 i hi) m hm) (hcommon i hi hroom m hm m' hm')
              · cases hm'
            · rw [Nat.zero_add] at hnone
              exact hok m.2.1 0 _ (hall m hm).type (fields i hi m hm hnone)
          · rw [Nat.zero_add]
            exact aligned i hi

end LibnklabsPico.Dbase
