/-
  Dbase/Tables.lean --- the loops of the parser over tables.

  The header gives every column the member of the same name, if there is one.  Each row
  is then read as a structure without names, and rows that there is no space for are
  skipped.
-/
import LibnklabsPico.Dbase.Loops

set_option autoImplicit false

namespace LibnklabsPico.Dbase

open LibnklabsPico.Foundation
open LibnklabsPico.File
open LibnklabsPico.Text

variable {s : Spacing} {fl : Floats} {charSigned : Bool} {mem : Memory} {fuel : Nat}

/-! ## The header -/

/-- What follows the header, and what follows a row: a colon or the closing
parenthesis. -/
def RowEnds (c : Int) : Prop := c = 58 ∨ c = 41

theorem RowEnds.facts {c : Int} (h : RowEnds c) :
    nkIsspace c = false ∧ isIdentStart c = false ∧ isIdentChar c = false ∧ c ≠ ch '"' ∧
      Ends c := by
  rcases h with rfl | rfl
  · exact ⟨by decide, by decide, by decide, by decide, by simp [Ends]⟩
  · exact ⟨by decide, by decide, by decide, by decide, by simp [Ends]⟩

theorem isIdentChar_space {c : Int} (h : nkIsspace c = true) : isIdentChar c = false := by
  simp only [nkIsspace, Bool.or_eq_true, beq_iff_eq, or_assoc] at h
  rcases h with rfl | rfl | rfl | rfl | rfl | rfl
  all_goals decide

/-- The names of the columns without the whitespace in front of them. -/
def headerNames (s : Spacing) : List Member → List UInt8
  | [] => []
  | (name, _, _) :: columns => name ++ (s.nameAfter.1 ++ layoutHeader s columns)

theorem layoutHeader_eq (s : Spacing) (columns : List Member) :
    layoutHeader s columns =
      (if columns.isEmpty then [] else s.nameBefore.1) ++ headerNames s columns := by
  cases columns <;> simp [layoutHeader, headerNames]

theorem headerNames_length (s : Spacing) {columns : List Member}
    (hident : ∀ m ∈ columns, IsIdent m.1) :
    columns.length ≤ (headerNames s columns).length := by
  induction columns with
  | nil => exact Nat.zero_le _
  | cons m columns ih =>
      obtain ⟨hname, hident'⟩ := List.forall_mem_cons.mp hident
      have hpos : 1 ≤ m.1.length := List.length_pos_iff.mpr hname.ne_nil
      have := ih hident'
      rw [headerNames, layoutHeader_eq]
      simp only [List.length_append, List.length_cons]
      omega

/-- The name of a column, with the whitespace around it. -/
theorem takes_columnName (fl : Floats) {m : Member} {columns : List Member}
    {ws gap rest : List UInt8} (hident : ∀ m' ∈ m :: columns, IsIdent m'.1)
    (hlength : m.1.length < nkdbaseMaxIdentLen) (hws : Blank ws) (hgap : Blank gap)
    (hrest : RowEnds (peekHead rest))
    (hfuel : (ws ++ (headerNames s (m :: columns) ++ gap)).length ≤ fuel) :
    ∃ name gap', ws ++ (headerNames s (m :: columns) ++ gap) =
        name ++ (headerNames s columns ++ gap') ∧ Blank gap' ∧
      (headerNames s columns ++ gap').length ≤ fuel ∧
      Takes (nkFscanBuf fl fuel " %i %e" nkdbaseMaxIdentLen) name
        ((headerNames s columns ++ gap') ++ rest) (true, m.1) := by
  obtain ⟨name, type, offset⟩ := m
  obtain ⟨hname, hident'⟩ := List.forall_mem_cons.mp hident
  -- the whitespace behind the name is taken along
  obtain ⟨blank, gap', hsplit, hblank, hgap', hchar, hspace⟩ : ∃ blank gap' : List UInt8,
      s.nameAfter.1 ++ (layoutHeader s columns ++ gap) =
        blank ++ (headerNames s columns ++ gap') ∧ Blank blank ∧ Blank gap' ∧
      isIdentChar (peekHead (blank ++ (headerNames s columns ++ gap' ++ rest))) = false ∧
      nkIsspace (peekHead (headerNames s columns ++ gap' ++ rest)) = false := by
    cases columns with
    | nil =>
        have hblank := blank_append s.nameAfter.2 hgap
        refine ⟨s.nameAfter.1 ++ gap, [], by simp [layoutHeader, headerNames], hblank, blank_nil,
          ?_, hrest.facts.1⟩
        cases hcase : s.nameAfter.1 ++ gap with
        | nil => exact hrest.facts.2.2.1
        | cons b blank => exact isIdentChar_space (hblank b (hcase ▸ List.mem_cons_self))
    | cons m' columns =>
        obtain ⟨name', type', offset'⟩ := m'
        have hname' : IsIdent name' := hident' (name', type', offset') List.mem_cons_self
        have hblank := blank_append s.nameAfter.2 s.nameBefore.2
        refine ⟨s.nameAfter.1 ++ s.nameBefore.1, gap, by simp [layoutHeader, headerNames], hblank,
          hgap, ?_, ?_⟩
        · obtain ⟨b, blank, hcase⟩ := List.exists_cons_of_ne_nil s.names_apart
          rw [hcase]
          exact isIdentChar_space (hblank b (hcase ▸ List.mem_cons_self))
        · rw [headerNames, List.append_assoc, List.append_assoc, hname'.head_append]
          exact hname'.not_space
  have htext : ws ++ (headerNames s ((name, type, offset) :: columns) ++ gap) =
      (ws ++ (name ++ blank)) ++ (headerNames s columns ++ gap') := by
    simp only [headerNames, List.append_assoc, hsplit]
  rw [htext] at hfuel
  simp only [List.length_append] at hfuel
  refine ⟨_, gap', htext, hgap', by rw [List.length_append]; omega, ?_⟩
  exact takes_fscan_column rfl hws hname hlength hblank hchar hspace (by omega) (by omega)
    (by omega)

/-- In front of a colon or a parenthesis there is no name. -/
theorem takes_columnName_none (fl : Floats) {ws rest : List UInt8} (hws : Blank ws)
    (hrest : RowEnds (peekHead rest)) (hfuel : ws.length ≤ fuel) :
    Takes (nkFscanBuf fl fuel " %i %e" nkdbaseMaxIdentLen) [] (ws ++ rest) (false, []) := by
  obtain ⟨hspace, hstart, _, hquote, _⟩ := hrest.facts
  exact takes_fscan_no_ident (Or.inr rfl) hws hspace hquote hstart hfuel

/-- The header is read column by column, up to some whitespace behind it. -/
theorem takes_columnLoop (fl : Floats) (all : List Member) {columns : List Member}
    (known : List (Option Member)) {n left : Nat} {ws gap rest : List UInt8}
    (hident : ∀ m ∈ columns, IsIdent m.1)
    (hlength : ∀ m ∈ columns, m.1.length < nkdbaseMaxIdentLen) (hws : Blank ws)
    (hgap : Blank gap) (hrest : RowEnds (peekHead rest)) (hleft : columns.length ≤ left)
    (hn : columns.length < n)
    (hfuel : (ws ++ (headerNames s columns ++ gap)).length ≤ fuel) :
    ∃ ate behind col map, ws ++ (headerNames s columns ++ gap) = ate ++ behind ∧ Blank behind ∧
      col = known.length + columns.length ∧
      map = known ++ (columns.map (fun m => findMember all m.1) ++
        List.replicate (left - columns.length) none) ∧
      Takes (columnLoop fl all fuel n known.length (known ++ List.replicate left none)) ate
        (behind ++ rest) (col, map) := by
  induction columns generalizing n known left ws gap with
  | nil =>
      obtain ⟨n, rfl⟩ : ∃ k, n = k + 1 := ⟨n - 1, by omega⟩
      refine ⟨[], ws ++ gap, known.length, known ++ List.replicate left none, rfl,
        blank_append hws hgap, rfl, by simp, ?_⟩
      have hnone : Takes _ [] ((ws ++ gap) ++ rest) (false, []) :=
        takes_columnName_none fl (blank_append hws hgap) hrest hfuel
      rw [columnLoop]
      exact Takes.look hnone (Takes.pure _ _)
  | cons m columns ih =>
      obtain ⟨n, rfl⟩ : ∃ k, n = k + 1 := ⟨n - 1, by omega⟩
      obtain ⟨left, rfl⟩ : ∃ k, left = k + 1 := ⟨left - 1, by
        simp only [List.length_cons] at hleft
        omega⟩
      obtain ⟨hsize, hlength'⟩ := List.forall_mem_cons.mp hlength
      simp only [List.length_cons] at hleft hn
      obtain ⟨name, gap', htext, hgap', hfuel', hcolumn⟩ :=
        takes_columnName fl hident hsize hws hgap
        hrest hfuel
      obtain ⟨ate, behind, col, map, hate, hbehind, hcol, hmap, hloop⟩ := @ih
        (known ++ [findMember all m.1]) n left [] gap'
        (fun m' hm' => hident m' (List.mem_cons_of_mem m hm')) hlength' blank_nil hgap' (by omega)
        (by omega) hfuel'
      rw [List.nil_append] at hate
      refine ⟨name ++ ate, behind, col, map, by rw [htext, hate, List.append_assoc], hbehind, ?_,
        by simpa using hmap, ?_⟩
      · rw [hcol]
        simp only [List.length_append, List.length_cons, List.length_nil]
        omega
      have hset : (known ++ List.replicate (left + 1) none).set known.length
          (findMember all m.1) = known ++ [findMember all m.1] ++ List.replicate left none := by
        simp [List.replicate_succ]
      have hskip : known ++ List.replicate (left + 1) (none : Option Member) =
          known ++ [none] ++ List.replicate left none := by
        simp [List.replicate_succ]
      rw [List.length_append, List.length_cons, List.length_nil, Nat.zero_add] at hloop
      rw [hate, List.append_assoc] at hcolumn
      rw [columnLoop]
      refine Takes.bind hcolumn ?_
      simp only [if_true]
      cases hfound : findMember all m.1 with
      | some m =>
          simp only [hfound] at hset hloop ⊢
          rwa [hset]
      | none =>
          simp only [hfound] at hloop ⊢
          rwa [hskip]

/-! ## Fields -/

/-- Every field that is skipped, but for the first one of its row, stands behind a
Boolean value: the whitespace in front of a field is not skipped with it. -/
def Aligned (columns' columns : List Member) : Prop :=
  columns.IsChain fun m m₂ => findMember columns' m₂.1 = none → m.2.1.isBool = true

/-- The fields of a row without the whitespace in front of them. -/
def fieldTexts (s : Spacing) (fl : Floats) (charSigned : Bool) (mem : Memory) :
    List Member → Nat → List UInt8
  | [], _ => []
  | (_, type, offset) :: columns, location =>
      layout s fl charSigned mem type 0 (location + offset) ++
        ((if columns.isEmpty then [] else s.fieldAfter.1) ++
          layoutFields s fl charSigned mem columns location)

theorem layoutFields_eq (s : Spacing) (fl : Floats) (charSigned : Bool) (mem : Memory)
    (columns : List Member) (location : Nat) :
    layoutFields s fl charSigned mem columns location =
      (if columns.isEmpty then [] else s.fieldBefore.1) ++
        fieldTexts s fl charSigned mem columns location := by
  cases columns <;> simp [layoutFields, fieldTexts]

theorem fieldTexts_head (s : Spacing) (fl : Floats) (charSigned : Bool) (mem : Memory)
    {columns : List Member} (hwf : ∀ m ∈ columns, WellFormed m.2.1) (location : Nat)
    {rest : List UInt8} (hrest : columns = [] → nkIsspace (peekHead rest) = false) :
    nkIsspace (peekHead (fieldTexts s fl charSigned mem columns location ++ rest)) = false := by
  cases columns with
  | nil => exact hrest rfl
  | cons m columns =>
      obtain ⟨name, type, offset⟩ := m
      have htype : WellFormed type := hwf (name, type, offset) List.mem_cons_self
      rw [fieldTexts, List.append_assoc]
      exact (layout_head s fl charSigned mem htype 0 (location + offset) _).facts.1

/-- What stands behind a field: whitespace that its value may take along, and the other
fields. -/
theorem fields_tail (s : Spacing) (fl : Floats) (charSigned : Bool) (mem : Memory)
    {columns : List Member} (hwf : ∀ m ∈ columns, WellFormed m.2.1) (location : Nat)
    {gap rest : List UInt8} (hgap : Blank gap) (hrest : RowEnds (peekHead rest)) :
    ∃ blank gap', (if columns.isEmpty then [] else s.fieldAfter.1) ++
        (layoutFields s fl charSigned mem columns location ++ gap) =
          blank ++ (fieldTexts s fl charSigned mem columns location ++ gap') ∧
      Blank blank ∧ Blank gap' ∧
      nkIsspace (peekHead (fieldTexts s fl charSigned mem columns location ++ (gap' ++ rest))) =
        false ∧
      Ends (peekHead (blank ++
        (fieldTexts s fl charSigned mem columns location ++ (gap' ++ rest)))) := by
  cases columns with
  | nil =>
      exact ⟨gap, [], by simp [layoutFields, fieldTexts], hgap, blank_nil, hrest.facts.1,
        ends_blank hgap hrest.facts.2.2.2.2⟩
  | cons m columns =>
      have hblank := blank_append s.fieldAfter.2 s.fieldBefore.2
      refine ⟨s.fieldAfter.1 ++ s.fieldBefore.1, gap, by simp [layoutFields_eq s fl charSigned mem
        (m :: columns)], hblank, hgap, ?_, ?_⟩
      · exact fieldTexts_head s fl charSigned mem hwf location (fun h => absurd h (by simp))
      · obtain ⟨b, blank, hcase⟩ := List.exists_cons_of_ne_nil s.fields_apart
        rw [hcase]
        exact Or.inr (Or.inr (Or.inl (hblank b (hcase ▸ List.mem_cons_self))))

/-- The fields of a row behind whitespace.  In a row that there is no space for, no
column has a member. -/
theorem takes_fieldLoop {size size' : Nat} {columns columns' found : List Member}
    {location location' : Nat} (full : Bool) (hfull : found = if full then [] else columns')
    (hwf : MembersWellFormed size' found) (mem₀ : Memory) {ws gap rest : List UInt8}
    (hready : ∀ m ∈ columns, MemberReady s fl charSigned mem size found 0 location m)
    (hpairs : columns.Pairwise fun m m' => m'.1 ≠ m.1 ∧ Apart m m')
    (haligned : Aligned found columns) (hws : Blank ws)
    (hfirst : ∀ m, columns.head? = some m → findMember found m.1 = none → ws = [])
    (hgap : Blank gap) (hrest : RowEnds (peekHead rest))
    (hfuel : (ws ++ (fieldTexts s fl charSigned mem columns location ++ gap) ++ rest).length <
      fuel) :
    ∃ mem₁ ate behind, ws ++ (fieldTexts s fl charSigned mem columns location ++ gap) =
        ate ++ behind ∧ Blank behind ∧
      Takes (fieldLoop (nkFscanKeyval fl fuel) (skipValue fl fuel) fuel location' full
          (columns.map fun m => findMember columns' m.1) true mem₀) ate (behind ++ rest)
        (true, mem₁) ∧
      MembersMigrated mem mem₀ mem₁ columns found location location' := by
  induction columns generalizing mem₀ ws gap with
  | nil =>
      refine ⟨mem₀, [], ws ++ gap, by simp [fieldTexts], blank_append hws hgap, Takes.pure _ _,
        .refl mem mem₀ found location location'⟩
  | cons m columns ih =>
      obtain ⟨name, type, offset⟩ := m
      obtain ⟨hne, hpairs'⟩ := List.pairwise_cons.mp hpairs
      obtain ⟨hm, hready'⟩ := List.forall_mem_cons.mp hready
      have hident : ∀ m ∈ (name, type, offset) :: columns, IsIdent m.1 :=
        fun m hm => (hready m hm).ok.ident
      have hstarts := layout_head s fl charSigned mem hm.ok.type 0 (location + offset)
      have hlength := layout_length s fl charSigned mem hm.ok.type 0 (location + offset)
      obtain ⟨blank, gap', hsplit, hblank, hgap', hspace, hends⟩ := fields_tail s fl charSigned mem
        (fun m' hm' => (hready' m' hm').ok.type) location hgap hrest
      generalize htext : layout s fl charSigned mem type 0 (location + offset) = text at *
      have hall : ws ++
          (fieldTexts s fl charSigned mem ((name, type, offset) :: columns) location ++ gap) =
          ws ++ (text ++ (blank ++
            (fieldTexts s fl charSigned mem columns location ++ gap'))) := by
        rw [fieldTexts, htext, List.append_assoc, List.append_assoc, hsplit]
      rw [hall] at hfuel ⊢
      simp only [List.length_append] at hfuel
      have hfollows : ∀ type : Ty, Follows type blank
          (fieldTexts s fl charSigned mem columns location ++ (gap' ++ rest)) :=
        fun _ => Or.inr ⟨hblank, hspace, hends⟩
      have hvalueFuel : (text ++ (blank ++ (fieldTexts s fl charSigned mem columns location ++
          (gap' ++ rest)))).length < fuel := by
        simp only [List.length_append]
        omega
      -- the loop goes on behind what is left of the whitespace
      have hnext : ∀ (mem₁ : Memory) (took left : List UInt8), blank = took ++ left →
          (type.isBool = true → left = []) → ∃ mem₂ ate behind,
          left ++ (fieldTexts s fl charSigned mem columns location ++ gap') = ate ++ behind ∧
          Blank behind ∧
          Takes (fieldLoop (nkFscanKeyval fl fuel) (skipValue fl fuel) fuel location' full
              (columns.map fun m => findMember columns' m.1) true mem₁) ate (behind ++ rest)
            (true, mem₂) ∧
          MembersMigrated mem mem₁ mem₂ columns found location location' := by
        intro mem₁ took left htook hbool
        have htookLength := congrArg List.length htook
        rw [List.length_append] at htookLength
        refine ih mem₁ hready' hpairs' (List.IsChain.tail haligned)
          (blank_left (htook ▸ hblank)) ?_ hgap'
          (by simp only [List.length_append]; omega)
        intro m₂ hhead hnone
        obtain ⟨columns₂, rfl⟩ : ∃ columns₂, columns = m₂ :: columns₂ := by
          cases columns with
          | nil => cases hhead
          | cons m₃ columns₂ =>
              obtain rfl : m₃ = m₂ := Option.some.inj hhead
              exact ⟨columns₂, rfl⟩
        exact hbool ((List.isChain_cons_cons.mp haligned).1 hnone)
      have hcolumn : (if full then none else findMember columns' name) = findMember found name := by
        rw [hfull]
        cases full <;> rfl
      cases hfound : findMember found name with
      | some m' =>
          obtain ⟨mem₁, took, left, htook, hbool, hvalue, hmigrated, hsame⟩ := hm.reads m' hfound
            fuel (location' + m'.2.2) mem₀ blank _ (hfollows m'.2.1)
            (by rw [htext]; exact hvalueFuel)
          rw [htext] at hvalue
          obtain ⟨mem₂, ate, behind, hate, hbehind, hloop, hfields⟩ := hnext mem₁ took left htook
            hbool
          have hrestText : left ++ (fieldTexts s fl charSigned mem columns location ++
              (gap' ++ rest)) = ate ++ (behind ++ rest) := by
            simpa only [List.append_assoc] using congrArg (· ++ rest) hate
          refine ⟨mem₂, ws ++ ((text ++ took) ++ ate), behind, ?_, hbehind, ?_, hfields.read hwf
            hident (fun m₂ hm₂ => (hne m₂ hm₂).1) hfound hmigrated hsame⟩
          · rw [htook, List.append_assoc took, hate]
            simp only [List.append_assoc]
          · rw [hrestText] at hvalue
            simp only [List.map_cons, fieldLoop, hcolumn, hfound]
            refine Takes.bind (takes_ws hws ?_ (by omega)) ?_
            · rw [List.append_assoc, List.append_assoc]
              exact (hstarts _).facts.1
            refine Takes.bind hvalue ?_
            simp only [if_true]
            exact hloop
      | none =>
          obtain rfl : ws = [] := hfirst (name, type, offset) rfl hfound
          have hskip := hm.skips hfound
          rw [htext] at hskip
          obtain ⟨took, left, htook, hbool, hvalue⟩ := hskip fuel blank _ (hfollows type) hvalueFuel
          obtain ⟨mem₂, ate, behind, hate, hbehind, hloop, hfields⟩ := hnext mem₀ took left htook
            hbool
          have hrestText : left ++ (fieldTexts s fl charSigned mem columns location ++
              (gap' ++ rest)) = ate ++ (behind ++ rest) := by
            simpa only [List.append_assoc] using congrArg (· ++ rest) hate
          refine ⟨mem₂, (text ++ took) ++ ate, behind, ?_, hbehind, ?_, hfields.leave hfound⟩
          · rw [htook, List.append_assoc took, hate]
            simp only [List.append_assoc, List.nil_append]
          · rw [hrestText] at hvalue
            simp only [List.map_cons, fieldLoop, hcolumn, hfound]
            refine Takes.bind hvalue ?_
            simp only [if_true]
            exact hloop

/-! ## Rows -/

/-- The rows of a table without the whitespace in front of them. -/
def rowTexts (s : Spacing) (row : Nat → List UInt8) (size : Nat) (ind : Int) :
    Nat → Nat → List UInt8
  | 0, _ => []
  | count + 1, location =>
      58 :: (row location ++ (s.rowAfter.1 ++ layoutRows s row size ind count (location + size)))

/-- What stands behind a row: whitespace, and the other rows. -/
theorem rows_tail (s : Spacing) (row : Nat → List UInt8) (size : Nat) (ind : Int)
    (count location : Nat) {gap : List UInt8} (hgap : Blank gap) (rest : List UInt8) :
    ∃ blank gap', layoutRows s row size ind count location ++ gap =
        blank ++ (rowTexts s row size ind count location ++ gap') ∧
      Blank blank ∧ Blank gap' ∧
      RowEnds (peekHead (rowTexts s row size ind count location ++ (gap' ++ 41 :: rest))) := by
  cases count with
  | zero => exact ⟨gap, [], by simp [layoutRows, rowTexts], hgap, blank_nil, Or.inr rfl⟩
  | succ count =>
      exact ⟨(s.rowBefore ind).1, gap, by simp [layoutRows, rowTexts], (s.rowBefore ind).2, hgap,
        Or.inl rfl⟩

/-- What stands behind the colon of a row: whitespace, and the fields. -/
theorem row_head (s : Spacing) (fl : Floats) (charSigned : Bool) (mem : Memory)
    {columns : List Member} (htypes : ∀ m ∈ columns, WellFormed m.2.1) (location : Nat)
    {after tail : List UInt8} (hafter : Blank after) (hends : RowEnds (peekHead tail)) :
    ∃ blank gap, layoutFields s fl charSigned mem columns location ++ after =
        blank ++ (fieldTexts s fl charSigned mem columns location ++ gap) ∧
      Blank blank ∧ Blank gap ∧
      nkIsspace (peekHead (fieldTexts s fl charSigned mem columns location ++ (gap ++ tail))) =
        false := by
  by_cases hempty : columns = []
  · subst hempty
    exact ⟨after, [], by simp [layoutFields, fieldTexts], hafter, blank_nil, hends.facts.1⟩
  · refine ⟨s.fieldBefore.1, after, ?_, s.fieldBefore.2, hafter, ?_⟩
    · rw [layoutFields_eq, if_neg (by simpa using hempty), List.append_assoc]
    · exact fieldTexts_head s fl charSigned mem htypes location fun h => absurd h hempty

/-- A row was loaded: the columns that both schemas have, and nothing else of it. -/
structure RowMigrated (mem mem₀ mem₁ : Memory) (columns columns' : List Member)
    (location location' : Nat) : Prop where
  common : ∀ m ∈ columns, ∀ m', findMember columns' m.1 = some m' →
    Migrated mem mem₀ mem₁ m.2.1 m'.2.1 (location + m.2.2) (location' + m'.2.2)
  kept : Kept mem₀ mem₁ columns columns' location'

theorem local_row (mem : Memory) (columns : List Member) {size' : Nat} {columns' : List Member}
    (hwf : MembersWellFormed size' columns') :
    Local (fun mem₀ mem₁ => RowMigrated mem mem₀ mem₁ columns columns') size' := by
  obtain ⟨hall, -⟩ := membersWellFormed_iff.mp hwf
  intro mem₀ mem₁ mem₀' mem₁' location location' h h₀ h₁
  refine ⟨fun m hm m' hm' => ?_, h.kept.congr (fun m' hm' => (hall m' hm').within) h₀ h₁⟩
  have hok := hall m' (findMember_mem hm')
  have hwithin := hok.within
  exact (h.common m hm m' hm').congr hok.type (h₀.mono (by omega) (by omega))
    (h₁.mono (by omega) (by omega))

/-- Rows from the `i`th on that can be read, as long as there is space for them, and
skipped after that. -/
structure RowsReady (s : Spacing) (fl : Floats) (charSigned : Bool) (mem : Memory)
    (columns columns' : List Member) (rowSize capacity i count location : Nat) : Prop where
  fields : ∀ j < count, ∀ m ∈ columns, MemberReady s fl charSigned mem rowSize
    (if i + j < capacity then columns' else []) 0 (location + j * rowSize) m
  aligned : ∀ j < count, Aligned (if i + j < capacity then columns' else []) columns

theorem RowsReady.tail {columns columns' : List Member} {rowSize capacity i i' count location : Nat}
    (h : RowsReady s fl charSigned mem columns columns' rowSize capacity i (count + 1) location)
    (hi : ∀ j, i + (j + 1) < capacity ↔ i' + j < capacity) :
    RowsReady s fl charSigned mem columns columns' rowSize capacity i' count
      (location + rowSize) where
  fields j hj m hm := by
    have hfields := h.fields (j + 1) (by omega) m hm
    rwa [add_succ_mul, if_congr (hi j) rfl rfl] at hfields
  aligned j hj := by
    have haligned := h.aligned (j + 1) (by omega)
    rwa [if_congr (hi j) rfl rfl] at haligned

/-- One row, from its colon on: its fields, and what the loop goes on with behind them. -/
theorem takes_rowLoop_row {columns columns' found : List Member}
    {rowSize rowSize' capacity rows i i' n location location' : Nat} {full : Bool}
    (hfull : (i == capacity) = full) (hnext : (if i ≠ capacity then i + 1 else i) = i')
    (hfound : found = if full then [] else columns') (hwf : MembersWellFormed rowSize' found)
    (mem₀ : Memory)
    (hfields : ∀ m ∈ columns, MemberReady s fl charSigned mem rowSize found 0 location m)
    (hpairs : columns.Pairwise fun m m' => m'.1 ≠ m.1 ∧ Apart m m')
    (haligned : Aligned found columns) {colon gap tail rest : List UInt8} (hgap : Blank gap)
    (hends : RowEnds (peekHead (tail ++ rest)))
    (hcolon : Takes (nkFscan fl fuel " : %e") colon
      (fieldTexts s fl charSigned mem columns location ++ gap ++ (tail ++ rest)) true)
    (hfuel : (fieldTexts s fl charSigned mem columns location ++ gap ++ (tail ++ rest)).length <
      fuel) {done : Memory → Memory → Prop}
    (hloop : ∀ mem₁ behind, Blank behind →
      behind.length ≤ (fieldTexts s fl charSigned mem columns location ++ gap).length →
      ∃ mem₂ ate behind', behind ++ tail = ate ++ behind' ∧ Blank behind' ∧
        Takes (rowLoop fl (nkFscanKeyval fl fuel) (skipValue fl fuel) fuel rowSize' capacity
            (columns.map fun m => findMember columns' m.1) n i' (location' + rowSize') true mem₁)
          ate (behind' ++ rest) (true, rows, mem₂) ∧ done mem₁ mem₂) :
    ∃ mem₁ mem₂ ate behind, colon ++ ((fieldTexts s fl charSigned mem columns location ++ gap) ++
        tail) = ate ++ behind ∧ Blank behind ∧
      Takes (rowLoop fl (nkFscanKeyval fl fuel) (skipValue fl fuel) fuel rowSize' capacity
          (columns.map fun m => findMember columns' m.1) (n + 1) i location' true mem₀) ate
        (behind ++ rest) (true, rows, mem₂) ∧
      MembersMigrated mem mem₀ mem₁ columns found location location' ∧ done mem₁ mem₂ := by
  obtain ⟨mem₁, ate₁, behind₁, hate₁, hblank₁, hvalue, hmembers⟩ := takes_fieldLoop full hfound hwf
    mem₀ hfields hpairs haligned blank_nil (fun _ _ _ => rfl) hgap hends hfuel
  rw [List.nil_append] at hate₁
  have hlength : behind₁.length ≤
      (fieldTexts s fl charSigned mem columns location ++ gap).length := by
    rw [hate₁, List.length_append]
    omega
  obtain ⟨mem₂, ate₂, behind₂, hate₂, hblank₂, htakes, hdone⟩ := hloop mem₁ behind₁ hblank₁ hlength
  refine ⟨mem₁, mem₂, colon ++ (ate₁ ++ ate₂), behind₂, ?_, hblank₂, ?_, hmembers, hdone⟩
  · rw [hate₁, List.append_assoc ate₁, hate₂]
    simp only [List.append_assoc]
  · rw [hate₁, List.append_assoc ate₁, ← List.append_assoc behind₁, hate₂, List.append_assoc ate₂,
      ← List.append_assoc ate₁] at hcolon
    rw [← List.append_assoc, hate₂, List.append_assoc] at hvalue
    rw [rowLoop]
    refine Takes.bind hcolon ?_
    simp only [if_true, hfull, hnext]
    exact Takes.bind hvalue htakes

/-- The rows of a table from the `i`th on behind whitespace, up to the closing
parenthesis or some whitespace in front of it. -/
theorem takes_rowLoop {rowSize rowSize' : Nat} {columns columns' : List Member}
    (hwf : MembersWellFormed rowSize' columns')
    (hpairs : columns.Pairwise fun m m' => m'.1 ≠ m.1 ∧ Apart m m') {ind : Int}
    {capacity i count n location location' : Nat} (base : Nat) (mem₀ : Memory)
    {ws gap rest : List UInt8}
    (hready : RowsReady s fl charSigned mem columns columns' rowSize capacity i count location)
    (hi : i ≤ capacity) (hat : i < capacity → location' = base + i * rowSize')
    (hws : Blank ws) (hgap : Blank gap)
    (hn : (ws ++ (rowTexts s (layoutFields s fl charSigned mem columns) rowSize ind count
      location ++ gap)).length < n)
    (hfuel : (ws ++ (rowTexts s (layoutFields s fl charSigned mem columns) rowSize ind count
      location ++ gap) ++ 41 :: rest).length < fuel) :
    ∃ mem₁ ate behind, ws ++ (rowTexts s (layoutFields s fl charSigned mem columns) rowSize ind
        count location ++ gap) = ate ++ behind ∧ Blank behind ∧
      Takes (rowLoop fl (nkFscanKeyval fl fuel) (skipValue fl fuel) fuel rowSize' capacity
          (columns.map fun m => findMember columns' m.1) n i location' true mem₀) ate
        (behind ++ 41 :: rest) (true, min (i + count) capacity, mem₁) ∧
      Filled (fun mem₀ mem₁ => RowMigrated mem mem₀ mem₁ columns columns') rowSize rowSize'
        capacity mem₀ mem₁ i count location base := by
  have hlocal := local_row mem columns hwf
  induction count generalizing n i location location' mem₀ ws gap with
  | zero =>
      obtain ⟨n, rfl⟩ : ∃ k, n = k + 1 := ⟨n - 1, by omega⟩
      simp only [rowTexts, List.nil_append, List.length_append] at hfuel ⊢
      have hmore : Takes (nkFscan fl fuel " : %e") [] ((ws ++ gap) ++ 41 :: rest) false :=
        takes_fscan_mark_ne rfl (blank_append hws hgap)
          (by decide : nkIsspace (peekHead [41]) = false)
          (by decide : peekHead [41] ≠ (58 : UInt8).toNat) (by rw [List.length_append]; omega)
      refine ⟨mem₀, [], ws ++ gap, rfl, blank_append hws hgap, ?_,
        .none _ _ _ _ mem₀ i location base⟩
      rw [rowLoop, show min (i + 0) capacity = i by omega]
      exact Takes.look hmore (Takes.pure _ _)
  | succ count ih =>
      obtain ⟨n, rfl⟩ : ∃ k, n = k + 1 := ⟨n - 1, by omega⟩
      have hfields := hready.fields 0 (Nat.succ_pos count)
      have haligned := hready.aligned 0 (Nat.succ_pos count)
      simp only [Nat.zero_mul, Nat.add_zero] at hfields haligned
      obtain ⟨blank, gap', hsplit, hblank, hgap', hends⟩ := rows_tail s
        (layoutFields s fl charSigned mem columns) rowSize ind count (location + rowSize) hgap rest
      have hbehind₁ := blank_append s.rowAfter.2 hblank
      -- the whitespace behind the colon is skipped with it
      obtain ⟨blank₁, gap₁, hsplit₁, hblank₁, hgap₁, hspace⟩ := row_head s fl charSigned mem
        (fun m hm => (hfields m hm).ok.type) location hbehind₁ hends
      have htext : ws ++ (rowTexts s (layoutFields s fl charSigned mem columns) rowSize ind
          (count + 1) location ++ gap) = (ws ++ 58 :: blank₁) ++
            ((fieldTexts s fl charSigned mem columns location ++ gap₁) ++
              (rowTexts s (layoutFields s fl charSigned mem columns) rowSize ind count
                (location + rowSize) ++ gap')) := by
        have hboth := congrArg (· ++ (rowTexts s (layoutFields s fl charSigned mem columns) rowSize
          ind count (location + rowSize) ++ gap')) hsplit₁
        simp only [List.append_assoc] at hboth
        rw [rowTexts]
        simp only [List.append_assoc, List.cons_append]
        rw [hsplit, hboth]
      rw [htext] at hn hfuel ⊢
      generalize htail : rowTexts s (layoutFields s fl charSigned mem columns) rowSize ind count
        (location + rowSize) = tail at *
      simp only [List.length_append, List.length_cons] at hn hfuel
      have hcolon : Takes (nkFscan fl fuel " : %e") (ws ++ 58 :: blank₁)
          ((fieldTexts s fl charSigned mem columns location ++ gap₁) ++
            ((tail ++ gap') ++ 41 :: rest)) true := by
        refine takes_fscan_mark_blank rfl hws (by decide) hblank₁ ?_ (by omega) (by omega)
        simpa only [List.append_assoc] using hspace
      have hends' : RowEnds (peekHead ((tail ++ gap') ++ 41 :: rest)) := by
        rwa [List.append_assoc]
      have hfieldsFuel : (fieldTexts s fl charSigned mem columns location ++ gap₁ ++
          ((tail ++ gap') ++ 41 :: rest)).length < fuel := by
        simp only [List.length_append, List.length_cons]
        omega
      -- the loop behind the fields of this row
      have hnext : ∀ i', i' ≤ capacity →
          (i' < capacity → location' + rowSize' = base + i' * rowSize') →
          RowsReady s fl charSigned mem columns columns' rowSize capacity i' count
            (location + rowSize) → ∀ mem₁ behind, Blank behind →
          behind.length ≤ (fieldTexts s fl charSigned mem columns location ++ gap₁).length →
          ∃ mem₂ ate behind', behind ++ (tail ++ gap') = ate ++ behind' ∧ Blank behind' ∧
            Takes (rowLoop fl (nkFscanKeyval fl fuel) (skipValue fl fuel) fuel rowSize' capacity
                (columns.map fun m => findMember columns' m.1) n i' (location' + rowSize')
                true mem₁) ate (behind' ++ 41 :: rest) (true, min (i' + count) capacity, mem₂) ∧
            Filled (fun mem₀ mem₁ => RowMigrated mem mem₀ mem₁ columns columns') rowSize rowSize'
              capacity mem₁ mem₂ i' count (location + rowSize) base := by
        intro i' hi' hat' hready' mem₁ behind hbehind hlength
        rw [List.length_append] at hlength
        have hloop := @ih i' n (location + rowSize) (location' + rowSize') mem₁ behind gap'
            hready' hi'
          hat' hbehind hgap' (by rw [htail]; simp only [List.length_append]; omega)
          (by rw [htail]; simp only [List.length_append, List.length_cons]; omega)
        rwa [htail] at hloop
      by_cases hroom : i < capacity
      · rw [if_pos hroom] at haligned
        obtain ⟨mem₁, mem₂, ate, behind, hate, hblank₂, htakes, hmembers, hrows⟩ :=
          takes_rowLoop_row
          (beq_false_of_ne (by omega)) (if_pos (by omega)) rfl hwf mem₀
          (fun m hm => by have := hfields m hm; rwa [if_pos hroom] at this) hpairs haligned hgap₁
          hends' hcolon hfieldsFuel (hnext (i + 1) hroom
            (fun _ => by rw [hat hroom, Nat.succ_mul]; omega) (hready.tail fun j => by omega))
        have hident : ∀ m ∈ columns, IsIdent m.1 := fun m hm => (hfields m hm).ok.ident
        have hloaded : RowMigrated mem mem₀ mem₁ columns columns' location (base + i * rowSize') :=
          hat hroom ▸ ⟨hmembers.common, hmembers.kept hwf hident⟩
        have hsame := hat hroom ▸ hmembers.sameOutside hwf
        rw [show i + (count + 1) = i + 1 + count by omega]
        exact ⟨mem₂, ate, behind, hate, hblank₂, htakes, hrows.read hlocal hroom hloaded hsame⟩
      · rw [if_neg hroom] at haligned
        obtain ⟨mem₁, mem₂, ate, behind, hate, hblank₂, htakes, hmembers, hrows⟩ :=
          takes_rowLoop_row
          (beq_iff_eq.mpr (by omega)) (if_neg (by omega)) rfl (by simp [MembersWellFormed]) mem₀
          (fun m hm => by have := hfields m hm; rwa [if_neg hroom] at this) hpairs haligned hgap₁
          hends' hcolon hfieldsFuel
          (hnext i hi (fun h => absurd h hroom) (hready.tail fun j => by omega))
        -- a row that there is no space for changes nothing
        obtain rfl : mem₁ = mem₀ := funext fun a => hmembers.only a fun m _ m' hm' => by
          cases hm'
        rw [show min (i + (count + 1)) capacity = min (i + count) capacity by omega]
        exact ⟨mem₂, ate, behind, hate, hblank₂, htakes, hrows.leave (by omega)⟩

/-- The text of a table: its header and its rows, each with whitespace behind it, between
the parentheses. -/
theorem layout_table (s : Spacing) (fl : Floats) (charSigned : Bool) (mem : Memory)
    (size rowSize : Nat) (columns : List Member) (check : Check) (ind : Int) (location : Nat)
    (rest : List UInt8) :
    ∃ ws gap gap', layout s fl charSigned mem (.tTable size rowSize columns check) ind location =
        40 :: ((ws ++ (headerNames s columns ++ gap)) ++
          ((rowTexts s (layoutFields s fl charSigned mem columns) rowSize ind
            (getLen mem location) (location + lenSize) ++ gap') ++ [41])) ∧
      Blank ws ∧ Blank gap ∧ Blank gap' ∧
      RowEnds (peekHead ((rowTexts s (layoutFields s fl charSigned mem columns) rowSize ind
        (getLen mem location) (location + lenSize) ++ gap') ++ 41 :: rest)) := by
  obtain ⟨blank, gap, hsplit, hblank, hgap, hends⟩ := rows_tail s
    (layoutFields s fl charSigned mem columns) rowSize ind (getLen mem location)
    (location + lenSize) (s.closing ind).2 rest
  refine ⟨if columns.isEmpty then [] else s.nameBefore.1, s.heading.1 ++ blank, gap, ?_, ?_,
    blank_append s.heading.2 hblank, hgap, by rwa [List.append_assoc]⟩
  · have hboth := congrArg (· ++ [41]) hsplit
    simp only [List.append_assoc] at hboth
    rw [layout, layoutHeader_eq]
    simp only [List.append_assoc]
    rw [hboth]
  · split
    · exact blank_nil
    · exact s.nameBefore.2

end LibnklabsPico.Dbase
