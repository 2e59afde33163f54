/-
  Shell/Sorting.lean --- the bubble sort of `nk_init_cli` sorts.

  `strcmp_PP` is a total preorder of the texts, whatever the signedness of
  `char`.  A pass of the C loop is a pass of `Foundation/Bubble.lean`, so the
  inversions bound the number of passes.
-/
import LibnklabsPico.Foundation.Bubble
import LibnklabsPico.Shell.Nkcli

set_option autoImplicit false

namespace LibnklabsPico.Shell

open LibnklabsPico.Foundation

/-! ## The order of the texts -/

section Order

variable {signed : Bool} {a b c : UInt8} {x y z : List UInt8}

theorem charValue_inj (h : charValue signed a = charValue signed b) : a = b := by
  cases signed with
  | true =>
      have hsame : a.toInt8 = b.toInt8 := Int8.toInt_inj.mp h
      rw [← UInt8.toUInt8_toInt8 a, hsame, UInt8.toUInt8_toInt8]
  | false => exact UInt8.toNat_inj.mp (Int.ofNat_inj.mp h)

theorem compareChars_le :
    compareChars signed a b ≤ 0 ↔ charValue signed a ≤ charValue signed b := by
  unfold compareChars
  split <;> [skip; split] <;> omega

theorem compareChars_swap : compareChars signed b a = -compareChars signed a b := by
  unfold compareChars
  repeat' split
  all_goals omega

/-- Equal characters other than NUL are passed over. -/
theorem strcmpPP_same (ha : a ≠ 0) : strcmpPP signed (a :: x) (a :: y) = strcmpPP signed x y :=
  if_pos ⟨ha, ha, rfl⟩

/-- At different characters, and at two NULs, the characters decide. -/
theorem strcmpPP_stop (h : x.headD 0 = 0 ∨ x.headD 0 ≠ y.headD 0) :
    strcmpPP signed x y = compareChars signed (x.headD 0) (y.headD 0) := by
  cases x with
  | nil => rfl
  | cons a as =>
      cases y with
      | nil => rfl
      | cons b bs =>
          refine if_neg ?_
          rintro ⟨ha, -, hsame⟩
          rcases h with h | h
          · exact ha h
          · exact h hsame

theorem strcmpPP_swap (signed : Bool) (x y : List UInt8) :
    strcmpPP signed y x = -strcmpPP signed x y := by
  induction x generalizing y with
  | nil =>
      rw [strcmpPP_stop (x := []) (Or.inl rfl)]
      cases y <;> exact compareChars_swap
  | cons a as ih =>
      by_cases hsame : a ≠ 0 ∧ a = y.headD 0
      · obtain ⟨ha, hsame⟩ := hsame
        cases y with
        | nil => exact absurd hsame ha
        | cons b bs =>
            obtain rfl : a = b := hsame
            rw [strcmpPP_same ha, strcmpPP_same ha, ih]
      · have hstop : (a :: as).headD 0 = 0 ∨ (a :: as).headD 0 ≠ y.headD 0 := by
          simpa only [List.headD_cons, ne_eq, not_and_or, not_not] using hsame
        have hstop' : y.headD 0 = 0 ∨ y.headD 0 ≠ (a :: as).headD 0 := by
          rcases hstop with h | h
          · by_cases hy : y.headD 0 = 0
            · exact Or.inl hy
            · exact Or.inr (by rwa [h])
          · exact Or.inr (Ne.symm h)
        rw [strcmpPP_stop hstop, strcmpPP_stop hstop']
        exact compareChars_swap

/-- A text is not behind another if its first character is less, or the same and
the rest is not behind. -/
theorem strcmpPP_le :
    strcmpPP signed x y ≤ 0 ↔
      charValue signed (x.headD 0) < charValue signed (y.headD 0) ∨
        x.headD 0 = y.headD 0 ∧
          (x.headD 0 ≠ 0 → strcmpPP signed x.tail y.tail ≤ 0) := by
  by_cases hstop : x.headD 0 = 0 ∨ x.headD 0 ≠ y.headD 0
  · rw [strcmpPP_stop hstop, compareChars_le]
    refine ⟨?_, ?_⟩
    · intro hle
      rcases Int.lt_or_eq_of_le hle with hlt | heq
      · exact Or.inl hlt
      · have hsame := charValue_inj heq
        refine Or.inr ⟨hsame, ?_⟩
        intro hne
        exact absurd hsame (hstop.resolve_left hne)
    · rintro (hlt | ⟨hsame, -⟩)
      · exact Int.le_of_lt hlt
      · exact Int.le_of_eq (congrArg _ hsame)
  · obtain ⟨hne, hsame⟩ := not_or.mp hstop
    have hsame := not_not.mp hsame
    cases x with
    | nil => exact absurd rfl hne
    | cons a as =>
        cases y with
        | nil => exact absurd hsame hne
        | cons b bs =>
            obtain rfl : a = b := hsame
            have ha : a ≠ 0 := hne
            rw [strcmpPP_same ha]
            refine ⟨fun h => Or.inr ⟨rfl, fun _ => h⟩, ?_⟩
            rintro (hlt | ⟨-, h⟩)
            · exact absurd hlt (Int.lt_irrefl _)
            · exact h hne

/-- The order of the texts is transitive. -/
theorem strcmpPP_trans (hxy : strcmpPP signed x y ≤ 0) (hyz : strcmpPP signed y z ≤ 0) :
    strcmpPP signed x z ≤ 0 := by
  induction x generalizing y z with
  | nil =>
      rw [strcmpPP_le] at hxy hyz ⊢
      rcases hxy with hxy | ⟨hxy, -⟩ <;> rcases hyz with hyz | ⟨hyz, -⟩
      · exact Or.inl (Int.lt_trans hxy hyz)
      · exact Or.inl (hyz ▸ hxy)
      · exact Or.inl (hxy ▸ hyz)
      · exact Or.inr ⟨hxy.trans hyz, fun h => absurd rfl h⟩
  | cons a as ih =>
      rw [strcmpPP_le] at hxy hyz ⊢
      rcases hxy with hxy | ⟨hxy, hrest⟩ <;> rcases hyz with hyz | ⟨hyz, hrest'⟩
      · exact Or.inl (Int.lt_trans hxy hyz)
      · exact Or.inl (hyz ▸ hxy)
      · exact Or.inl (hxy ▸ hyz)
      · exact Or.inr ⟨hxy.trans hyz, fun h => ih (hrest h) (hrest' (hxy ▸ h))⟩

end Order

/-! ## The passes -/

section Passes

variable {Func : Type} (signed : Bool)

/-- The test of the `for` loop. -/
def belongsBehind (a b : ConsoleCmd Func) : Bool :=
  decide (strcmpPP signed a.text b.text > 0)

theorem belongsBehind_asymm (a b : ConsoleCmd Func) (h : belongsBehind signed a b = true) :
    belongsBehind signed b a = false := by
  have hgt := of_decide_eq_true h
  refine decide_eq_false ?_
  rw [strcmpPP_swap]
  omega

/-- The `for` loop carries an entry over the rest of the table. -/
theorem sortPass_eq (passed : List (ConsoleCmd Func)) (a : ConsoleCmd Func)
    (rest : List (ConsoleCmd Func)) (work : Bool) :
    sortPass signed rest.length passed.length (passed ++ a :: rest) work =
      (passed ++ (Bubble.carry (belongsBehind signed) a rest).1,
        work || (Bubble.carry (belongsBehind signed) a rest).2) := by
  induction rest generalizing passed a work with
  | nil => simp [sortPass, Bubble.carry]
  | cons b rest ih =>
      have hthis : (passed ++ a :: b :: rest)[passed.length]? = some a := by simp
      have hnext : (passed ++ a :: b :: rest)[passed.length + 1]? = some b := by simp
      rw [List.length_cons, sortPass, hthis, hnext]
      cases hbehind : belongsBehind signed a b with
      | true =>
          have hswap : ((passed ++ a :: b :: rest).set passed.length b).set
              (passed.length + 1) a = (passed ++ [b]) ++ a :: rest := by simp
          have hmoved := ih (passed ++ [b]) a true
          rw [List.length_append, List.length_singleton] at hmoved
          simp only [of_decide_eq_true hbehind, if_true, hswap, hmoved, Bubble.carry_swap hbehind]
          simp
      | false =>
          have hkeep : passed ++ a :: b :: rest = (passed ++ [a]) ++ b :: rest := by simp
          have hmoved := ih (passed ++ [a]) b work
          rw [List.length_append, List.length_singleton] at hmoved
          simp only [of_decide_eq_false hbehind, if_false, hkeep, hmoved,
            Bubble.carry_keep hbehind]
          simp

/-- The entries with a given text. -/
def withText (text : List UInt8) (table : List (ConsoleCmd Func)) :
    List (ConsoleCmd Func) :=
  table.filter fun cmd => strcmpPP signed cmd.text text = 0

/-- What one pass does to a table: it is rearranged, equal texts stay in order,
and if something was exchanged there are fewer inversions, otherwise the table
is in order. -/
theorem sortPass_spec (table : List (ConsoleCmd Func)) :
    ∃ sorted work, sortPass signed (table.length - 1) 0 table false = (sorted, work) ∧
      sorted.Perm table ∧ (∀ text, withText signed text sorted = withText signed text table) ∧
      (work = true → Bubble.inversions (belongsBehind signed) sorted <
        Bubble.inversions (belongsBehind signed) table) ∧
      (work = false → sorted.IsChain fun a b => strcmpPP signed a.text b.text ≤ 0) := by
  cases table with
  | nil => exact ⟨[], false, rfl, .refl _, fun _ => rfl, by simp, fun _ => .nil⟩
  | cons a rest =>
      have hpass := sortPass_eq signed [] a rest false
      refine ⟨_, _, hpass, Bubble.carry_perm a rest, ?_, ?_, ?_⟩
      · intro text
        refine Bubble.carry_filter ?_ a rest
        intro a b ha hb
        have ha := of_decide_eq_true ha
        have hb := of_decide_eq_true hb
        have htext : strcmpPP signed text b.text = 0 := by rw [strcmpPP_swap, hb, Int.neg_zero]
        have hle := strcmpPP_trans (Int.le_of_eq ha) (Int.le_of_eq htext)
        exact decide_eq_false (Int.not_lt.mpr hle)
      · intro hwork
        have hless := Bubble.carry_inversions (belongsBehind_asymm signed) a rest
        rw [Bool.false_or] at hwork
        rw [hwork] at hless
        exact hless
      · intro hwork
        rw [Bool.false_or] at hwork
        obtain ⟨hsame, hchain⟩ := Bubble.carry_inOrder hwork
        rw [List.nil_append, hsame]
        refine hchain.imp ?_
        intro a b hbehind
        exact Int.not_lt.mp (of_decide_eq_false hbehind)

end Passes

/-! ## The sort -/

/-- The bubble sort of `nk_init_cli` ends, whatever the table, with the entries of
the table in the order of their texts, and entries of equal texts in the order they
had. -/
theorem nkInitCli_sorts {Func : Type} (signed : Bool) (table : List (ConsoleCmd Func)) :
    ∃ passes sorted, (∀ n, passes ≤ n → nkInitCli signed n table = some sorted) ∧
      sorted.Perm table ∧
      sorted.Pairwise (fun a b => strcmpPP signed a.text b.text ≤ 0) ∧
      ∀ text, withText signed text sorted = withText signed text table := by
  obtain ⟨bound, hbound⟩ :
      ∃ bound, Bubble.inversions (belongsBehind signed) table < bound := ⟨_, Nat.lt_succ_self _⟩
  induction bound generalizing table with
  | zero => exact absurd hbound (Nat.not_lt_zero _)
  | succ bound ih =>
      obtain ⟨passed, work, hpass, hperm, htexts, hless, hchain⟩ :=
        sortPass_spec signed table
      cases work with
      | false =>
          refine ⟨1, passed, ?_, hperm, ?_, htexts⟩
          · intro n hn
            obtain ⟨n, rfl⟩ := Nat.exists_eq_add_of_le' hn
            rw [nkInitCli, hpass]
            rfl
          · have htrans : IsTrans (ConsoleCmd Func)
                fun a b => strcmpPP signed a.text b.text ≤ 0 :=
              ⟨fun _ _ _ => strcmpPP_trans⟩
            exact List.isChain_iff_pairwise.mp (hchain rfl)
      | true =>
          have hfewer := hless rfl
          obtain ⟨passes, sorted, hsort, hperm', horder, htexts'⟩ := ih passed (by omega)
          refine ⟨passes + 1, sorted, ?_, hperm'.trans hperm, horder, ?_⟩
          · intro n hn
            obtain ⟨n, rfl⟩ : ∃ k, n = k + 1 := ⟨n - 1, by omega⟩
            rw [nkInitCli, hpass]
            exact hsort n (by omega)
          · intro text
            rw [htexts', htexts]

/-- Three commands, two of them with the same text. -/
example :
    nkInitCli true 4 [⟨[98], 0⟩, ⟨[97, 98], 1⟩, ⟨[98], 2⟩, ⟨[97], 3⟩] =
      some [⟨[97], 3⟩, ⟨[97, 98], 1⟩, ⟨[98], 0⟩, ⟨[98], 2⟩] := by decide

end LibnklabsPico.Shell
