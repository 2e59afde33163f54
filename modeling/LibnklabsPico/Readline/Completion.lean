/-
  Readline/Completion.lean --- what TAB does to the edit line.

  `completion` is the longest text on which the names that begin with the line agree
  behind it.  TAB types it character by character at the cursor and asks again after each
  one (`Types`), so the line is completed when the cursor is at its end.  Elsewhere the
  characters go into the middle of the line.
-/
import LibnklabsPico.Readline.Prompt
import LibnklabsPico.Foundation.Prefixes
import Mathlib.Data.List.TakeWhile

set_option autoImplicit false

namespace LibnklabsPico.Readline

open LibnklabsPico.Foundation
open LibnklabsPico.Foundation.Prefixes (goesOn goesOn_append goesOn_eq_nil prefix_goesOn_iff
  some_of_goesOn_ne_nil)

/-! ## The names -/

/-- The name a help text begins with, behind its mark. -/
def nameOf (text : List UInt8) : List UInt8 := (text.drop 1).takeWhile (· ≠ 32)

/-- The commands that completion is for: those with the mark `>`, in factory mode all. -/
def Commands.visible (commands : Commands) : List (List UInt8) :=
  commands.texts.filter fun text => text.headD 0 = 62 ∨ commands.facmode

/-- What the visible names that begin with a line agree on behind it, each name with the blank
behind it. -/
def completion (commands : Commands) (line : List UInt8) : List UInt8 :=
  goesOn (commands.visible.map fun text => nameOf text ++ [32]) line

/-- Each help text has a name with a blank behind it, and the edit buffer has room for both. -/
structure Commands.Fits (commands : Commands) (lineSize : Nat) : Prop where
  blank : ∀ text ∈ commands.texts, ∃ mark help, text = mark :: (nameOf text ++ 32 :: help)
  no_nul : ∀ text ∈ commands.texts, 0 ∉ nameOf text
  room : ∀ text ∈ commands.texts, (nameOf text).length + 1 < lineSize

section

variable {lineSize histSize : Nat} {commands : Commands} {facmode : Bool}
  {text word line u v x rest : List UInt8} {texts : List (List UInt8)} {c : UInt8} {s s' : Editor}

theorem blank_notMem_nameOf (text : List UInt8) : (32 : UInt8) ∉ nameOf text := by
  intro hmem
  simpa using List.mem_takeWhile_imp hmem

theorem mem_visible :
    text ∈ commands.visible ↔
      text ∈ commands.texts ∧ (text.headD 0 = 62 ∨ commands.facmode = true) := by
  simp [Commands.visible]

/-- `name_match` compares up to the end of the name. -/
theorem nameLoop_spec {name : List UInt8} (help : List UInt8) (hname : 32 ∉ name) (hnul : 0 ∉ name)
    (hword : 0 ∉ word) :
    ((nameLoop word.length (name ++ 32 :: help) word).1 = 0 ∨
      (nameLoop word.length (name ++ 32 :: help) word).2.1.headD 0 = 32 ∧
        (nameLoop word.length (name ++ 32 :: help) word).2.2.headD 0 = 0) ↔ word <+: name := by
  induction name generalizing word with
  | nil =>
      cases word with
      | nil => simp [nameLoop]
      | cons c word =>
          have hc : c ≠ 0 := fun h => hword (by simp [h])
          simp [nameLoop, hc]
  | cons t name ih =>
      cases word with
      | nil => simp [nameLoop]
      | cons c word =>
          have hc : c ≠ 0 := fun h => hword (by simp [h])
          have ht : t ≠ 0 := fun h => hnul (by simp [h])
          have hblank : t ≠ 32 := fun h => hname (by simp [h])
          by_cases htc : t = c
          · subst htc
            simp only [List.length_cons, List.cons_append, nameLoop, ne_eq, ht, hblank,
              not_false_eq_true, and_self, if_true, List.cons_prefix_cons, true_and]
            exact ih (fun h => hname (by simp [h])) (fun h => hnul (by simp [h]))
              (fun h => hword (by simp [h]))
          · simp [nameLoop, htc, hblank, Ne.symm htc]

/-- The names that a word matches. -/
theorem nameMatch_iff (fits : commands.Fits lineSize) (htext : text ∈ commands.texts)
    (hword : 0 ∉ word) :
    nameMatch text word word.length commands.facmode = true ↔
      text ∈ commands.visible ∧ word <+: nameOf text := by
  obtain ⟨mark, help, hshape⟩ := fits.blank text htext
  have hloop := nameLoop_spec help (blank_notMem_nameOf text) (fits.no_nul text htext) hword
  have hdrop : text.drop 1 = nameOf text ++ 32 :: help := by
    conv_lhs => rw [hshape]
    rfl
  rw [mem_visible, nameMatch]
  split
  · rename_i hvisible
    simp only [hdrop, decide_eq_true_eq, hloop, htext, hvisible, true_and]
  · rename_i hhidden
    simp only [hhidden, and_false, false_and, Bool.false_eq_true]

/-- The character of a name behind the word it begins with. -/
theorem next_spec (fits : commands.Fits lineSize) (htext : text ∈ commands.texts)
    (hword : word <+: nameOf text) :
    word ++ [text.getD (1 + word.length) 0] <+: nameOf text ++ [32] := by
  obtain ⟨mark, help, hshape⟩ := fits.blank text htext
  obtain ⟨rest, hrest⟩ := hword
  have htail : text = mark :: (word ++ (rest ++ 32 :: help)) := by
    rw [hshape, ← hrest, List.append_assoc]
  have hget : text.getD (1 + word.length) 0 = (rest ++ 32 :: help).headD 0 := by
    rw [htail, List.getD_eq_getElem?_getD, Nat.add_comm, List.getElem?_cons_succ,
      List.getElem?_append_right (Nat.le_refl _), Nat.sub_self, ← List.head?_eq_getElem?]
    cases rest <;> rfl
  rw [hget, ← hrest, List.append_assoc, List.prefix_append_right_inj]
  cases rest with
  | nil => exact List.prefix_rfl
  | cons c rest => simp

/-! ## Asking for the next character -/

/-- The text matches the word with another character behind it. -/
def Diverges (word : List UInt8) (facmode : Bool) (c : Int) (text : List UInt8) : Prop :=
  nameMatch text word word.length facmode = true ∧
    c ≠ ((text.getD (1 + word.length) 0).toNat : Int)

theorem completeLoop_step {matchChar : Int} (matchCount : Nat)
    (h : Diverges word facmode matchChar text) :
    completeLoop word facmode (text :: texts) (matchChar, matchCount) =
      completeLoop word facmode texts
        (((text.getD (1 + word.length) 0).toNat : Int), matchCount + 1) :=
  if_pos h

theorem completeLoop_skip {matchChar : Int} (matchCount : Nat)
    (h : ¬ Diverges word facmode matchChar text) :
    completeLoop word facmode (text :: texts) (matchChar, matchCount) =
      completeLoop word facmode texts (matchChar, matchCount) :=
  if_neg h

theorem completeLoop_same {matchChar : Int} (matchCount : Nat)
    (hsame : ∀ text ∈ texts, ¬ Diverges word facmode matchChar text) :
    completeLoop word facmode texts (matchChar, matchCount) = (matchChar, matchCount) := by
  induction texts with
  | nil => rfl
  | cons text texts ih =>
      rw [completeLoop_skip _ (hsame text List.mem_cons_self)]
      exact ih fun text ht => hsame text (List.mem_cons_of_mem _ ht)

theorem completeLoop_count (texts : List (List UInt8)) (matchChar : Int) (matchCount : Nat) :
    matchCount ≤ (completeLoop word facmode texts (matchChar, matchCount)).2 := by
  induction texts generalizing matchChar matchCount with
  | nil => exact Nat.le_refl _
  | cons text texts ih =>
      rw [completeLoop]
      split
      · exact Nat.le_trans (Nat.le_succ _) (ih _ _)
      · exact ih _ _

theorem completeLoop_diverges {matchChar : Int} (matchCount : Nat)
    (hother : ∃ text ∈ texts, Diverges word facmode matchChar text) :
    matchCount < (completeLoop word facmode texts (matchChar, matchCount)).2 := by
  induction texts with
  | nil =>
      obtain ⟨text, ht, -⟩ := hother
      cases ht
  | cons text texts ih =>
      by_cases hdiverges : Diverges word facmode matchChar text
      · rw [completeLoop_step _ hdiverges]
        exact completeLoop_count texts _ (matchCount + 1)
      · rw [completeLoop_skip _ hdiverges]
        obtain ⟨text', ht, hdiverges'⟩ := hother
        rcases List.mem_cons.mp ht with rfl | ht
        · exact absurd hdiverges' hdiverges
        · exact ih ⟨text', ht, hdiverges'⟩

/-- From the start, the first text that matches gives the character for the others. -/
theorem completeLoop_first
    (hsome : ∃ text ∈ texts, nameMatch text word word.length facmode = true) :
    ∃ text ∈ texts, nameMatch text word word.length facmode = true ∧
      ((∀ text' ∈ texts, ¬ Diverges word facmode (text.getD (1 + word.length) 0).toNat text') →
        completeLoop word facmode texts (-1, 0) =
          (((text.getD (1 + word.length) 0).toNat : Int), 1)) ∧
      ((∃ text' ∈ texts, Diverges word facmode (text.getD (1 + word.length) 0).toNat text') →
        1 < (completeLoop word facmode texts (-1, 0)).2) := by
  induction texts with
  | nil =>
      obtain ⟨text, ht, -⟩ := hsome
      cases ht
  | cons text texts ih =>
      by_cases hmatch : nameMatch text word word.length facmode = true
      · have hdiverges : Diverges word facmode (-1) text := ⟨hmatch, by omega⟩
        have hself : ¬ Diverges word facmode (text.getD (1 + word.length) 0).toNat text :=
          fun h => h.2 rfl
        refine ⟨text, List.mem_cons_self, hmatch, fun hsame => ?_, fun hother => ?_⟩
        · rw [completeLoop_step _ hdiverges]
          exact completeLoop_same 1 fun text' ht => hsame text' (List.mem_cons_of_mem _ ht)
        · rw [completeLoop_step _ hdiverges]
          obtain ⟨text', ht, hother⟩ := hother
          rcases List.mem_cons.mp ht with rfl | ht
          · exact absurd hother hself
          · exact completeLoop_diverges 1 ⟨text', ht, hother⟩
      · have hskip (c : Int) : ¬ Diverges word facmode c text := fun h => hmatch h.1
        obtain ⟨text', ht, hmatch', hsame, hother⟩ := ih (by
          obtain ⟨text', ht, hmatch'⟩ := hsome
          rcases List.mem_cons.mp ht with rfl | ht
          · exact absurd hmatch' hmatch
          · exact ⟨text', ht, hmatch'⟩)
        refine ⟨text', List.mem_cons_of_mem _ ht, hmatch', fun h => ?_, fun h => ?_⟩
        · rw [completeLoop_skip _ (hskip (-1))]
          exact hsame fun text'' ht => h text'' (List.mem_cons_of_mem _ ht)
        · rw [completeLoop_skip _ (hskip (-1))]
          obtain ⟨text'', ht, h⟩ := h
          rcases List.mem_cons.mp ht with rfl | ht
          · exact absurd h (hskip _)
          · exact hother ⟨text'', ht, h⟩

/-- Matching is beginning with the word, and the name goes on. -/
theorem shown_iff (fits : commands.Fits lineSize) (hnul : 0 ∉ word)
    (hblank : word.getLast? ≠ some 32) (htext : text ∈ commands.texts) :
    nameMatch text word word.length commands.facmode = true ↔
      text ∈ commands.visible ∧ word <+: nameOf text ++ [32] := by
  rw [nameMatch_iff fits htext hnul, List.prefix_concat_iff]
  refine and_congr_right fun _ => ⟨Or.inr, fun h => h.resolve_left ?_⟩
  rintro rfl
  exact hblank List.getLast?_concat

theorem concat_prefix_unique {t : List UInt8} {d : UInt8} (hc : word ++ [c] <+: t)
    (hd : word ++ [d] <+: t) : c = d := by
  have hsame : word ++ [c] = word ++ [d] :=
    (List.prefix_of_prefix_length_le hc hd (by simp)).eq_of_length (by simp)
  simpa using hsame

section
variable (fits : commands.Fits lineSize) (hnul : 0 ∉ word) (hblank : word.getLast? ≠ some 32)
  (htext : text ∈ commands.texts)
  (hmatch : nameMatch text word word.length commands.facmode = true)
include fits hnul htext hmatch

theorem next_ne_zero : text.getD (1 + word.length) 0 ≠ 0 := by
  intro hzero
  have hmem : text.getD (1 + word.length) 0 ∈ nameOf text ++ [32] :=
    (next_spec fits htext ((nameMatch_iff fits htext hnul).mp hmatch).2).subset (by simp)
  rw [hzero] at hmem
  simp [fits.no_nul text htext] at hmem

include hblank

theorem shown_begins :
    ∃ t ∈ commands.visible.map fun text => nameOf text ++ [32], word <+: t := by
  obtain ⟨hvisible, hword⟩ := (shown_iff fits hnul hblank htext).mp hmatch
  exact ⟨_, List.mem_map_of_mem hvisible, hword⟩

/-- A completion begins with the next character of every name that matches. -/
theorem completion_head {rest : List UInt8} (h : completion commands word = c :: rest) :
    c = text.getD (1 + word.length) 0 := by
  obtain ⟨hvisible, hword⟩ := (shown_iff fits hnul hblank htext).mp hmatch
  have hbegins := shown_begins fits hnul hblank htext hmatch
  have hbegin : [c] <+: completion commands word := ⟨rest, h.symm⟩
  exact concat_prefix_unique
    ((prefix_goesOn_iff hbegins).mp hbegin _ (List.mem_map_of_mem hvisible) hword)
    (next_spec fits htext ((nameMatch_iff fits htext hnul).mp hmatch).2)

/-- When the names that match go on with the same character, the completion does too. -/
theorem completion_of_same (hsame : ∀ text' ∈ commands.texts,
      ¬ Diverges word commands.facmode (text.getD (1 + word.length) 0).toNat text') :
    ∃ rest, completion commands word = text.getD (1 + word.length) 0 :: rest := by
  have hbegins := shown_begins fits hnul hblank htext hmatch
  have hagree : [text.getD (1 + word.length) 0] <+: completion commands word := by
    refine (prefix_goesOn_iff hbegins).mpr fun t ht hword => ?_
    obtain ⟨text', hvisible', rfl⟩ := List.mem_map.mp ht
    have htext' := (mem_visible.mp hvisible').1
    have hmatch' := (shown_iff fits hnul hblank htext').mpr ⟨hvisible', hword⟩
    have hnext : text.getD (1 + word.length) 0 = text'.getD (1 + word.length) 0 := by
      by_contra hne
      refine hsame text' htext' ⟨hmatch', fun h => hne (UInt8.toNat_inj.mp ?_)⟩
      exact Int.ofNat_inj.mp h
    rw [hnext]
    exact next_spec fits htext' ((nameMatch_iff fits htext' hnul).mp hmatch').2
  obtain ⟨rest, hrest⟩ := hagree
  exact ⟨rest, hrest.symm⟩

end

/-- `nk_complete` finds the first character of what the names agree on. -/
theorem nkComplete_spec (fits : commands.Fits lineSize) (hnul : 0 ∉ word)
    (hblank : word.getLast? ≠ some 32) :
    completion commands word = [] ∧ (nkComplete commands word = -1 ∨
        nkComplete commands word = -2) ∨
      ∃ c rest, completion commands word = c :: rest ∧ nkComplete commands word = c.toNat := by
  by_cases hsome : ∃ text ∈ commands.texts, nameMatch text word word.length commands.facmode = true
  · obtain ⟨text, htext, hmatch, hsame, hother⟩ := completeLoop_first hsome
    by_cases hone : ∀ text' ∈ commands.texts,
        ¬ Diverges word commands.facmode (text.getD (1 + word.length) 0).toNat text'
    · -- all names go on with the same character
      obtain ⟨rest, hrest⟩ := completion_of_same fits hnul hblank htext hmatch hone
      have hne : ((text.getD (1 + word.length) 0).toNat : Int) ≠ 0 := fun hzero =>
        next_ne_zero fits hnul htext hmatch (UInt8.toNat_inj.mp (Int.ofNat_inj.mp hzero))
      refine Or.inr ⟨_, rest, hrest, ?_⟩
      simp only [nkComplete, hsame hone, if_true, if_neg hne]
    · -- two of them go on differently
      have hexists : ∃ text' ∈ commands.texts,
          Diverges word commands.facmode (text.getD (1 + word.length) 0).toNat text' := by
        simpa only [not_forall, not_not, exists_prop] using hone
      have hmany := hother hexists
      obtain ⟨text', htext', hmatch', hdiverges⟩ := hexists
      refine Or.inl ⟨?_, Or.inr ?_⟩
      · cases hcompletion : completion commands word with
        | nil => rfl
        | cons c rest =>
            rw [← completion_head fits hnul hblank htext hmatch hcompletion,
              ← completion_head fits hnul hblank htext' hmatch' hcompletion] at hdiverges
            exact absurd rfl hdiverges
      · simp only [nkComplete, if_neg (by omega : ¬ (completeLoop word commands.facmode
          commands.texts (-1, 0)).2 = 1), if_neg (by omega : ¬ (completeLoop word
          commands.facmode commands.texts (-1, 0)).2 = 0)]
  · have hskip : ∀ text ∈ commands.texts, ¬ Diverges word commands.facmode (-1) text :=
      fun text htext h => hsome ⟨text, htext, h.1⟩
    refine Or.inl ⟨goesOn_eq_nil fun t ht hword => ?_, Or.inl ?_⟩
    · obtain ⟨text, hvisible, rfl⟩ := List.mem_map.mp ht
      have htext := (mem_visible.mp hvisible).1
      exact hsome ⟨text, htext, (shown_iff fits hnul hblank htext).mpr ⟨hvisible, hword⟩⟩
    · simp only [nkComplete, completeLoop_same 0 hskip]
      rfl

/-! ## Typing the completion -/

/-- The characters that are typed with the cursor between `u` and `v`: as long as the names
agree on another one for the line as it is by then. -/
inductive Types (commands : Commands) : List UInt8 → List UInt8 → List UInt8 → Prop where
  | done {u v : List UInt8} (agreed : completion commands (u ++ v) = []) :
      Types commands u v []
  | more {u v rest x : List UInt8} {c : UInt8} (agreed : completion commands (u ++ v) = c :: rest)
      (tail : Types commands (u ++ [c]) v x) : Types commands u v (c :: x)

theorem Types.unique {y : List UInt8} (types : Types commands u v x)
    (types' : Types commands u v y) :
    x = y := by
  induction types generalizing y with
  | done agreed =>
      cases types' with
      | done => rfl
      | more agreed' => cases agreed.symm.trans agreed'
  | more agreed tail ih =>
      cases types' with
      | done agreed' => cases agreed.symm.trans agreed'
      | more agreed' tail' =>
          obtain ⟨rfl, -⟩ := List.cons.inj (agreed.symm.trans agreed')
          rw [ih tail']

/-- Behind the line the completion is typed. -/
theorem Types.completion (commands : Commands) (u : List UInt8) :
    Types commands u [] (completion commands u) := by
  generalize hx : Readline.completion commands u = x
  induction x generalizing u with
  | nil => exact .done (by rw [List.append_nil, hx])
  | cons c x ih =>
      have hagree : Readline.completion commands (u ++ []) = c :: x := by
        rw [List.append_nil, hx]
      exact .more hagree (ih (u ++ [c]) (goesOn_append (p := [c]) hx))

/-- A line that is completed is the beginning of a name. -/
theorem completion_begins (hagree : completion commands line = c :: rest) :
    ∃ text ∈ commands.visible, line ++ [c] <+: nameOf text ++ [32] := by
  have hsome := some_of_goesOn_ne_nil (hagree ▸ List.cons_ne_nil c rest :
    completion commands line ≠ [])
  have hbegin : [c] <+: completion commands line := ⟨rest, hagree.symm⟩
  obtain ⟨t, ht, hword⟩ := hsome
  have hlonger := (prefix_goesOn_iff ⟨t, ht, hword⟩).mp hbegin t ht hword
  obtain ⟨text, hvisible, rfl⟩ := List.mem_map.mp ht
  exact ⟨text, hvisible, hlonger⟩

/-- There is room for a character that is typed. -/
theorem completion_room (fits : commands.Fits lineSize)
    (hagree : completion commands line = c :: rest) : line.length + 1 < lineSize ∧ c ≠ 0 := by
  obtain ⟨text, hvisible, hbegin⟩ := completion_begins hagree
  have htext := (mem_visible.mp hvisible).1
  have hlen := hbegin.length_le
  have hroom := fits.room text htext
  simp only [List.length_append, List.length_singleton] at hlen
  refine ⟨by omega, ?_⟩
  rintro rfl
  have hmem : (0 : UInt8) ∈ nameOf text ++ [32] := hbegin.subset (by simp)
  simp [fits.no_nul text htext] at hmem

/-- Behind a blank there is nothing to complete. -/
theorem completion_of_blank (commands : Commands) (u v : List UInt8) :
    completion commands (u ++ 32 :: v) = [] := by
  cases hagree : completion commands (u ++ 32 :: v) with
  | nil => rfl
  | cons c rest =>
      obtain ⟨text, -, hbegin⟩ := completion_begins hagree
      rcases List.prefix_concat_iff.mp hbegin with hwhole | hinner
      · have hname : u ++ 32 :: v = nameOf text := (List.append_inj' hwhole rfl).1
        exact absurd (by rw [← hname]; simp) (blank_notMem_nameOf text)
      · exact absurd (hinner.subset (by simp)) (blank_notMem_nameOf text)

theorem getLast?_insert (hlast : (u ++ v).getLast? ≠ some 32) (hc : c ≠ 32) :
    (u ++ [c] ++ v).getLast? ≠ some 32 := by
  cases v using List.reverseRecOn with
  | nil => simpa using hc
  | append_singleton v y =>
      rw [← List.append_assoc, List.getLast?_concat] at hlast ⊢
      exact hlast

/-- The list of names leaves the cursor at the end. -/
theorem redrawList_keeps (edits : s.Edits lineSize u v) (hplace : s.tabCount ≠ 0 → v = []) :
    ∃ s', redrawList s = some s' ∧ s'.Edits lineSize u v ∧ s'.tabCount = s.tabCount := by
  unfold redrawList
  split
  · rename_i hlisted
    obtain rfl := hplace hlisted
    obtain ⟨hredraw, hend⟩ := redraw_spec edits
    rw [List.append_nil] at hend
    exact ⟨_, hredraw, hend, rfl⟩
  · exact ⟨s, rfl, edits, rfl⟩

/-- The loop types the characters, and ends. -/
theorem tabLoop_types (fits : commands.Fits lineSize) (fuel : Nat)
    (edits : s.Edits lineSize u v) (hlast : (u ++ v).getLast? ≠ some 32)
    (hplace : s.tabCount ≠ 0 → v = []) (hfuel : lineSize ≤ fuel + (u ++ v).length) :
    ∃ s' x, tabLoop lineSize commands fuel s = some (.waits s') ∧
      s'.Edits lineSize (u ++ x) v ∧ Types commands u v x := by
  induction fuel generalizing s u with
  | zero =>
      have hlt := edits.len_lt
      rw [List.length_append] at hfuel
      omega
  | succ fuel ih =>
      obtain ⟨junk, hterm, hedits⟩ := terminate_spec edits
      have hlen : Bytes.strlenAt (u ++ v ++ 0 :: junk) 0 = some (u ++ v).length :=
        Bytes.strlenAt_append [] edits.no_nul junk
      have hword : (u ++ v ++ 0 :: junk).take (u ++ v).length = u ++ v := List.take_left
      obtain ⟨s₁, hredraw, hedits₁, hcount⟩ := redrawList_keeps hedits hplace
      simp only [tabLoop, hterm, hlen, hword, hredraw, Option.bind_eq_bind, Option.bind_some]
      rcases nkComplete_spec fits edits.no_nul hlast with ⟨hnone, hend⟩ | ⟨c, rest, hagree, hnext⟩
      · refine ⟨if nkComplete commands (u ++ v) = -1 then s₁ else { s₁ with tabCount := 2 }, [],
          ?_, ?_, .done hnone⟩
        · rcases hend with hend | hend
          · simp only [hend, if_true]
            rfl
          · simp only [hend, if_true]
            rfl
        · rw [List.append_nil]
          split
          · exact hedits₁
          · exact hedits₁
      · obtain ⟨hroom, hnul⟩ := completion_room fits hagree
        have hchar : UInt8.ofNat (c.toNat : Int).toNat = c := by
          rw [Int.toNat_natCast, UInt8.ofNat_toNat]
        have hfound : ¬ (c.toNat : Int) = -1 ∧ ¬ (c.toNat : Int) = -2 := by omega
        have hlen₁ := hedits₁.len_eq
        rw [List.length_append] at hroom hfuel
        rcases typech_spec hedits₁ hnul with ⟨hfull, -⟩ | ⟨ttyBuf, htype, hedits₂⟩
        · omega
        · simp only [hnext, if_neg hfound.1, if_neg hfound.2, hchar, htype, Option.bind_some]
          by_cases hc : c = 32
          · subst hc
            refine ⟨_, [32], if_pos rfl, hedits₂, .more hagree (.done ?_)⟩
            rw [List.append_assoc]
            exact completion_of_blank commands u v
          · have hne : ¬ (c.toNat : Int) = 32 := fun h =>
              hc (UInt8.toNat_inj.mp (Int.ofNat_inj.mp h : _ = (32 : UInt8).toNat))
            obtain ⟨s', x, hloop, hedits', htypes⟩ :=
              ih hedits₂ (getLast?_insert hlast hc) (by rwa [← hcount] at hplace) (by
                simp only [List.length_append, List.length_singleton]
                omega)
            refine ⟨s', c :: x, ?_, ?_, .more hagree htypes⟩
            · rw [if_neg hne]
              exact hloop
            · rwa [List.append_assoc] at hedits'

/-- The names are listed first: the cursor is at the end then. -/
theorem tabLoop_listed (hlisted : s.tabCount ≠ 0) (fuel : Nat) :
    tabLoop lineSize commands fuel s =
      tabLoop lineSize commands fuel { s with ttyCur := s.ttyLen } := by
  cases fuel with
  | zero => rfl
  | succ fuel =>
      simp only [tabLoop, terminate, redrawList, redraw, Option.bind_eq_bind]
      cases Bytes.store s.ttyBuf s.ttyLen 0 with
      | none => rfl
      | some ttyBuf =>
          simp only [Option.bind_some, Option.pure_def, ne_eq, hlisted, not_false_eq_true, if_true]

theorem promptChar_tab (commands : Commands) (hmode : s.mode = 0) :
    promptChar lineSize histSize commands 9 s =
      tab lineSize commands { s with tabCount := s.tabCount - 1 } := by
  simp [promptChar, hmode, normalChar]

/-- TAB, by the cursor it types at. -/
theorem tab_types (histSize : Nat) (fits : commands.Fits lineSize) (edits : s.Edits lineSize u v)
    (hlast : (u ++ v).getLast? ≠ some 32) (hmode : s.mode = 0) :
    ∃ s', promptChar lineSize histSize commands 9 s = some (.waits s') ∧
      (2 ≤ s.tabCount → s'.line = u ++ v ++ completion commands (u ++ v)) ∧
      (s.tabCount < 2 → ∃ x, Types commands u v x ∧ s'.line = u ++ x ++ v) := by
  have hedits : ({ s with tabCount := s.tabCount - 1 } : Editor).Edits lineSize u v := edits
  have htab : promptChar lineSize histSize commands 9 s =
      tabLoop lineSize commands (lineSize + 1) { s with tabCount := s.tabCount - 1 } := by
    rw [promptChar_tab commands hmode, tab, endsInBlank_spec hedits]
    simp only [Option.bind_eq_bind, Option.bind_some, hlast, decide_false, Bool.false_eq_true,
      if_false]
  by_cases hlisted : 2 ≤ s.tabCount
  · have hmany : ({ s with tabCount := s.tabCount - 1 } : Editor).tabCount ≠ 0 := by
      dsimp only
      omega
    obtain ⟨s', x, hloop, hedits', htypes⟩ :=
      tabLoop_types (v := []) fits (lineSize + 1) (toEnd_spec hedits).2
        (by rwa [List.append_nil]) (fun _ => rfl) (by omega)
    refine ⟨s', ?_, fun _ => ?_, fun hfew => absurd hlisted (by omega)⟩
    · rw [htab, tabLoop_listed hmany]
      exact hloop
    · rw [hedits'.editor_line, List.append_nil, htypes.unique (.completion commands (u ++ v))]
  · obtain ⟨s', x, hloop, hedits', htypes⟩ :=
      tabLoop_types fits (lineSize + 1) hedits hlast (fun hmany => by dsimp only at hmany; omega)
        (by omega)
    exact ⟨s', htab.trans hloop, fun hmany => absurd hmany hlisted,
      fun _ => ⟨x, htypes, hedits'.editor_line⟩⟩

/-! ## Where the cursor has to be -/

/-- The characters that are typed at the cursor spell the completed line: they come out at
its end, and on the way the names agree on each of them. -/
def Coincides (commands : Commands) (u v : List UInt8) : Prop :=
  ∃ x, x ++ v = v ++ completion commands (u ++ v) ∧
    ∀ i < x.length, (completion commands (u ++ x.take i ++ v)).head? = x[i]?

theorem Types.agreed (types : Types commands u v x) (i : Nat) (hi : i < x.length) :
    (Readline.completion commands (u ++ x.take i ++ v)).head? = x[i]? := by
  induction types generalizing i with
  | done => cases hi
  | @more u v rest x c agreed tail ih =>
      cases i with
      | zero =>
          rw [List.take_zero, List.append_nil, agreed]
          rfl
      | succ i =>
          have hnext := ih i (Nat.lt_of_succ_lt_succ hi)
          rw [List.append_assoc u] at hnext
          exact hnext

theorem Types.of_agreed (hagreed : ∀ i < x.length,
      (Readline.completion commands (u ++ x.take i ++ v)).head? = x[i]?)
    (hdone : Readline.completion commands (u ++ x ++ v) = []) : Types commands u v x := by
  induction x generalizing u with
  | nil =>
      rw [List.append_nil] at hdone
      exact .done hdone
  | cons c x ih =>
      have hfirst := hagreed 0 (Nat.zero_lt_succ _)
      rw [List.take_zero, List.append_nil] at hfirst
      obtain ⟨rest, hrest⟩ := List.head?_eq_some_iff.mp hfirst
      refine .more hrest (ih (fun i hi => ?_) (by rwa [List.append_assoc u]))
      rw [List.append_assoc u]
      exact hagreed (i + 1) (Nat.succ_lt_succ hi)

theorem coincides_iff (commands : Commands) (u v : List UInt8) :
    Coincides commands u v ↔
      ∃ x, Types commands u v x ∧ x ++ v = v ++ completion commands (u ++ v) := by
  refine ⟨fun ⟨x, hspells, hagreed⟩ => ⟨x, .of_agreed hagreed ?_, hspells⟩,
    fun ⟨x, htypes, hspells⟩ => ⟨x, hspells, htypes.agreed⟩⟩
  rw [List.append_assoc, hspells, ← List.append_assoc]
  exact goesOn_append (List.append_nil _).symm

/-- Characters that are all the same can be exchanged. -/
theorem append_comm_of_same (hu : ∀ y ∈ u, y = c) (hv : ∀ y ∈ v, y = c) : u ++ v = v ++ u := by
  rw [List.eq_replicate_of_mem hu, List.eq_replicate_of_mem hv, List.replicate_append_replicate,
    List.replicate_append_replicate, Nat.add_comm]

/-- Typed in front of the same characters, they coincide with the completion. -/
theorem Types.of_same (hv : ∀ y ∈ v, y = c) (hx : ∀ y ∈ x, y = c)
    (hagree : Readline.completion commands (u ++ v) = x) : Types commands u v x := by
  induction x generalizing u with
  | nil => exact .done hagree
  | cons d x ih =>
      obtain rfl := hx d List.mem_cons_self
      refine .more hagree (ih (fun y hy => hx y (List.mem_cons_of_mem _ hy)) ?_)
      have hmoved : u ++ [d] ++ v = u ++ v ++ [d] := by
        rw [List.append_assoc, List.append_assoc,
          append_comm_of_same (c := d) (by simp) hv]
      rw [hmoved]
      exact goesOn_append (p := [d]) hagree

/-- In front of the last character, only that character may be typed. -/
theorem Types.same (types : Types commands u [c] x)
    (hspells : x ++ [c] = c :: Readline.completion commands (u ++ [c])) :
    ∀ y ∈ Readline.completion commands (u ++ [c]), y = c := by
  generalize he : Readline.completion commands (u ++ [c]) = e at hspells
  induction e generalizing u x with
  | nil => simp
  | cons d e ih =>
      cases types with
      | done agreed => cases he.symm.trans agreed
      | @more _ _ rest x c' agreed tail =>
          obtain ⟨rfl, rfl⟩ := List.cons.inj (he.symm.trans agreed)
          obtain ⟨rfl, htail⟩ := List.cons.inj hspells
          have hlater := ih tail (goesOn_append (p := [d]) he) htail
          simpa using hlater

/-- A character in front of `v` is the first one of the completion. -/
theorem Coincides.first {d : UInt8} (coincides : Coincides commands u (d :: v))
    (hagree : completion commands (u ++ d :: v) = c :: rest) : d = c := by
  obtain ⟨x, htypes, hspells⟩ := (coincides_iff commands u (d :: v)).mp coincides
  cases htypes with
  | done agreed => cases agreed.symm.trans hagree
  | more agreed tail =>
      obtain ⟨rfl, -⟩ := List.cons.inj (agreed.symm.trans hagree)
      exact (List.cons.inj hspells).1.symm

/-- It coincides for every cursor only where there is nothing to go wrong. -/
theorem coincides_everywhere_iff (commands : Commands) (line : List UInt8) :
    (∀ u v, u ++ v = line → Coincides commands u v) ↔
      line = [] ∨ completion commands line = [] ∨
        ∃ c, ∀ y ∈ line ++ completion commands line, y = c := by
  constructor
  · intro hall
    cases hagree : completion commands line with
    | nil => exact Or.inr (Or.inl rfl)
    | cons c rest =>
        have hsame (v : List UInt8) : ∀ u, u ++ v = line → ∀ y ∈ v, y = c := by
          induction v with
          | nil => simp
          | cons d v ih =>
              intro u hline y hy
              rcases List.mem_cons.mp hy with rfl | hy
              · exact (hall u (y :: v) hline).first (hline ▸ hagree)
              · exact ih (u ++ [d]) (by simpa using hline) y hy
        rcases List.eq_nil_or_concat line with hempty | ⟨u, d, hline⟩
        · exact Or.inl hempty
        · rw [List.concat_eq_append] at hline
          have hlast : d = c := hsame [d] u hline.symm d List.mem_cons_self
          obtain ⟨x, htypes, hspells⟩ :=
            (coincides_iff commands u [d]).mp (hall u [d] hline.symm)
          have hrest := htypes.same hspells
          rw [← hline, hagree, hlast] at hrest
          refine Or.inr (Or.inr ⟨c, fun y hy => ?_⟩)
          rcases List.mem_append.mp hy with hy | hy
          · exact hsame line [] rfl y hy
          · exact hrest y hy
  · rintro hcases u v rfl
    rw [coincides_iff]
    rcases hcases with hempty | hnone | ⟨c, hsame⟩
    · obtain ⟨rfl, rfl⟩ := List.append_eq_nil_iff.mp hempty
      exact ⟨_, .completion commands [], List.append_nil _⟩
    · exact ⟨[], .done hnone, by rw [hnone, List.append_nil]; rfl⟩
    · have hv : ∀ y ∈ v, y = c := fun y hy => hsame y (by simp [hy])
      have hx : ∀ y ∈ completion commands (u ++ v), y = c := fun y hy =>
        hsame y (List.mem_append_right _ hy)
      exact ⟨_, .of_same hv hx rfl, append_comm_of_same hx hv⟩

theorem exists_editor (hlength : (u ++ v).length < lineSize) (hnul : 0 ∉ u ++ v) (tabCount : Nat) :
    ∃ s : Editor, s.Edits lineSize u v ∧ s.mode = 0 ∧ s.tabCount = tabCount := by
  rw [List.length_append] at hlength
  refine ⟨{ Editor.zeroed lineSize 0 with
    ttyBuf := u ++ (v ++ List.replicate (lineSize - (u.length + v.length)) 0)
    ttyLen := u.length + v.length, ttyCur := u.length, tabCount := tabCount },
    ⟨⟨_, rfl⟩, ?_, rfl, rfl, hlength, hnul⟩, rfl, rfl⟩
  simp only [List.length_append, List.length_replicate]
  omega

/-- Pressing TAB ends and keeps what is typed in its order.  It completes the line, for a
cursor between `u` and `v`, exactly when the names are being listed, which moves the cursor to
the end, or when what is typed at the cursor coincides with the completion.  For the cursor
at the end it always does.  It does for every cursor only when the line is empty, nothing is
to be completed, or the completed line repeats a single character. -/
theorem tab_completes_iff (histSize : Nat) (fits : commands.Fits lineSize)
    (hlength : line.length < lineSize)
    (hnul : 0 ∉ line) (hlast : line.getLast? ≠ some 32) (tabCount : Nat) :
    (∀ s u v, s.Edits lineSize u v → u ++ v = line → s.mode = 0 → s.tabCount = tabCount →
      ∃ s', promptChar lineSize histSize commands 9 s = some (.waits s') ∧ line.Sublist s'.line ∧
        (s'.line = line ++ completion commands line ↔ 2 ≤ tabCount ∨ Coincides commands u v)) ∧
      Coincides commands line [] ∧
      ((∀ s u v, s.Edits lineSize u v → u ++ v = line → s.mode = 0 → s.tabCount = tabCount →
        ∃ s', promptChar lineSize histSize commands 9 s = some (.waits s') ∧
          s'.line = line ++ completion commands line) ↔
        2 ≤ tabCount ∨ line = [] ∨ completion commands line = [] ∨
          ∃ c, ∀ y ∈ line ++ completion commands line, y = c) := by
  have hone : ∀ s u v, s.Edits lineSize u v → u ++ v = line → s.mode = 0 →
      s.tabCount = tabCount →
      ∃ s', promptChar lineSize histSize commands 9 s = some (.waits s') ∧ line.Sublist s'.line ∧
        (s'.line = line ++ completion commands line ↔ 2 ≤ tabCount ∨ Coincides commands u v) := by
    rintro s u v edits rfl hmode rfl
    obtain ⟨s', htab, hlisted, htyped⟩ := tab_types histSize fits edits hlast hmode
    by_cases hmany : 2 ≤ s.tabCount
    · have hline := hlisted hmany
      exact ⟨s', htab, hline ▸ List.sublist_append_left _ _, fun _ => Or.inl hmany, fun _ => hline⟩
    · obtain ⟨x, htypes, hline⟩ := htyped (by omega)
      refine ⟨s', htab, ?_, ?_⟩
      · rw [hline]
        exact (List.sublist_append_left u x).append_right v
      · rw [hline, coincides_iff, List.append_assoc, List.append_assoc, List.append_cancel_left_eq]
        refine ⟨fun hspells => Or.inr ⟨x, htypes, hspells⟩, fun h => ?_⟩
        obtain ⟨y, htypes', hspells⟩ := h.resolve_left hmany
        rwa [htypes.unique htypes']
  refine ⟨hone, ?_, ?_⟩
  · rw [coincides_iff]
    refine ⟨_, .completion commands line, ?_⟩
    simp
  · rw [← coincides_everywhere_iff commands line]
    refine ⟨fun hall => or_iff_not_imp_left.mpr fun hfew u v hline => ?_,
      fun hright s u v edits hline hmode hcount => ?_⟩
    · -- an editor with the line, and the cursor between `u` and `v`
      subst hline
      obtain ⟨s, edits, hmode, hcount⟩ := exists_editor hlength hnul tabCount
      obtain ⟨s', htab, hcompleted⟩ := hall s u v edits rfl hmode hcount
      obtain ⟨s'', htab', -, hiff⟩ := hone s u v edits rfl hmode hcount
      obtain rfl := Handled.waits.inj (Option.some.inj (htab.symm.trans htab'))
      exact (hiff.mp hcompleted).resolve_left hfew
    · obtain ⟨s', htab, -, hiff⟩ := hone s u v edits hline hmode hcount
      exact ⟨s', htab, hiff.mpr (hright.imp_right fun h => h u v hline)⟩

end

/-- The help command alone. -/
def helpTable : Commands := ⟨[[62, 104, 101, 108, 112, 32, 72]], false⟩

theorem helpTable_fits : helpTable.Fits 16 := by
  refine ⟨fun text ht => ?_, fun text ht => ?_, fun text ht => ?_⟩
  all_goals
    obtain rfl := List.mem_singleton.mp ht
  · exact ⟨62, [72], by decide⟩
  · decide
  · decide

/-- With the cursor at the start of `he`, TAB makes `lhe` of it. -/
theorem not_tab_completes :
    helpTable.Fits 16 ∧ ∃ s s', Run 16 32 true s ∧ s.mode = 0 ∧ s.line = [104, 101] ∧
      promptChar 16 32 helpTable 9 s = some (.waits s') ∧ s'.line = [108, 104, 101] ∧
      completion helpTable s.line = [108, 112, 32] := by
  have hboot : Run 16 32 false _ := .boot
  have hrun := hboot.nkReadline.waits helpTable [104, 101, 1] rfl
  exact ⟨helpTable_fits, _, _, hrun, rfl, rfl, rfl, by decide, by decide⟩

/-- With the cursor at its end it makes `help` of it. -/
theorem tab_completes_iff_help :
    ∃ s s', Run 16 32 true s ∧ s.line = [104, 101] ∧
      promptChar 16 32 helpTable 9 s = some (.waits s') ∧ s'.line = [104, 101, 108, 112, 32] := by
  have hboot : Run 16 32 false _ := .boot
  obtain ⟨s, hrun, hedits, hmode, hcount⟩ : ∃ s, Run 16 32 true s ∧
      s.Edits 16 [104, 101] [] ∧ s.mode = 0 ∧ s.tabCount = 0 :=
    ⟨_, hboot.nkReadline.waits helpTable [104, 101] rfl,
      ⟨⟨List.replicate 14 0, rfl⟩, rfl, rfl, rfl, by decide, by decide⟩, rfl, rfl⟩
  have hlast : ([104, 101] : List UInt8).getLast? ≠ some 32 := by decide
  obtain ⟨hone, hend, -⟩ :=
    tab_completes_iff 32 helpTable_fits (by decide) (by decide) hlast 0
  obtain ⟨s', htab, -, hcompletes⟩ := hone s [104, 101] [] hedits rfl hmode hcount
  exact ⟨s, s', hrun, hedits.editor_line, htab, hcompletes.mpr (Or.inr hend)⟩

end LibnklabsPico.Readline
