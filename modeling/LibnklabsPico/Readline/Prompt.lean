/-
  Readline/Prompt.lean --- the line editor over whole runs.

  `Rep` ties the buffers of an editor to the lines of the history, to the line
  being edited and, while that line is unchanged, to the line it was recalled
  from.  Every key keeps it.
-/
import LibnklabsPico.Readline.LineEdit

set_option autoImplicit false

namespace LibnklabsPico.Readline

open LibnklabsPico.Foundation

/-- The buffers hold a history and an edit line. -/
structure Buffers (lineSize histSize : Nat) (s : Editor) (before after : List (List UInt8))
    (u v : List UInt8) : Prop where
  has : s.Has lineSize histSize before after
  edits : s.Edits lineSize u v

/-- Besides, an unchanged edit line is the current line of the history. -/
structure Rep (lineSize histSize : Nat) (s : Editor) (before after : List (List UInt8))
    (u v : List UInt8) : Prop extends Buffers lineSize histSize s before after u v where
  recalled : s.changed = false → u ++ v ≠ [] → after.head? = some (u ++ v)

/-- An editor that waits for a character. -/
def Waits (lineSize histSize : Nat) (s : Editor) : Prop :=
  ∃ before after u v, Rep lineSize histSize s before after u v

/-- An editor whose line was entered. -/
def Idle (lineSize histSize : Nat) (s : Editor) : Prop :=
  ∃ before after u v, Buffers lineSize histSize s before after u v

/-- What a key leads to. -/
def HandledOk (lineSize histSize : Nat) : Handled → Prop
  | .waits s => Waits lineSize histSize s
  | .entered _ s => Idle lineSize histSize s
  | .endless => True

section Keys

variable {lineSize histSize : Nat} {before after : List (List UInt8)} {u v : List UInt8}
  {s : Editor}

theorem Buffers.lineOk (buffers : Buffers lineSize histSize s before after u v)
    (hne : s.ttyLen ≠ 0) : LineOk lineSize (u ++ v) := by
  have hlen : s.ttyLen = (u ++ v).length := by
    rw [buffers.edits.len_eq, List.length_append]
  refine ⟨?_, buffers.edits.no_nul, ?_⟩
  · rintro hnil
    exact hne (by rw [hlen, hnil]; rfl)
  · rw [List.length_append]
    exact buffers.edits.len_lt

/-- An empty edit line is no line of the history. -/
theorem Buffers.rep_of_nil (buffers : Buffers lineSize histSize s before after [] []) :
    Rep lineSize histSize s before after [] [] :=
  ⟨buffers, fun _ h => absurd rfl h⟩

/-! ## Storing the edit line -/

/-- The edit line goes in front of the current line of the history. -/
theorem insertLine_spec (buffers : Buffers lineSize histSize s before after u v)
    (hne : s.ttyLen ≠ 0) (hsize : lineSize ≤ histSize) :
    ∃ s' before' after', insertLine histSize s = some s' ∧
      Buffers lineSize histSize s' before' ((u ++ v) :: after') u v ∧
      s'.changed = s.changed ∧ s'.ttyLen = s.ttyLen := by
  have hline := buffers.lineOk hne
  have hlt := hline.length_lt
  obtain ⟨junk, hterm, hedits⟩ := terminate_spec buffers.edits
  obtain ⟨b, e, i, before', after', hins, hhas, -, -⟩ :=
    histIns_spec (s := { s with ttyBuf := u ++ v ++ 0 :: junk }) buffers.has rfl hline
      (by omega)
  refine ⟨_, before', after', ?_, ⟨hhas, hedits⟩, rfl, rfl⟩
  simp only [insertLine, hterm, Option.bind_eq_bind, Option.bind_some]
  exact hins

/-- A changed line goes behind the current one; an unchanged one stays as it is. -/
theorem insertBehind_spec (buffers : Buffers lineSize histSize s before after u v)
    (hne : s.ttyLen ≠ 0) (hsize : lineSize ≤ histSize) :
    ∃ s' before' after', insertBehind histSize s = some s' ∧
      Buffers lineSize histSize s' before' after' u v := by
  unfold insertBehind
  split
  · rcases histNext_spec buffers.has with ⟨-, hnext⟩ | ⟨l, a, found, idx, -, hnext, hhas⟩
    · obtain ⟨s', before', after', hins, hbuffers, -, -⟩ := insertLine_spec buffers hne hsize
      refine ⟨s', before', _, ?_, hbuffers⟩
      simp only [hnext, Option.bind_eq_bind, Option.bind_some]
      exact hins
    · have hmoved : Buffers lineSize histSize { s with histIdx := idx } (before ++ [l]) a u v :=
        ⟨hhas, buffers.edits⟩
      obtain ⟨s', before', after', hins, hbuffers, -, -⟩ := insertLine_spec hmoved hne hsize
      refine ⟨s', before', _, ?_, hbuffers⟩
      simp only [hnext, Option.bind_eq_bind, Option.bind_some]
      exact hins
  · exact ⟨s, before, after, rfl, buffers⟩

theorem Buffers.erase (buffers : Buffers lineSize histSize s before after u v) :
    Buffers lineSize histSize { s with ttyCur := 0, ttyLen := 0 } before after [] [] :=
  ⟨buffers.has, (erase_spec buffers.edits).2⟩

/-- The current line, when there is one, becomes the edit line. -/
theorem recallLineIf_spec (buffers : Buffers lineSize histSize s before after u v) (cond : Bool)
    (hcond : cond = true → after ≠ []) (hempty : cond = false → u ++ v = []) :
    ∃ s' u', recallLineIf cond s = some s' ∧
      Rep lineSize histSize { s' with changed := false } before after u' [] := by
  cases hcase : cond with
  | true =>
      obtain ⟨l, a, rfl⟩ := List.exists_cons_of_ne_nil (hcond hcase)
      obtain ⟨ttyBuf, hrecall, hedits⟩ := recallLine_spec buffers.has buffers.edits.size_eq
      refine ⟨_, l, hrecall, ⟨buffers.has, hedits⟩, fun _ _ => ?_⟩
      rw [List.append_nil]
      rfl
  | false =>
      obtain ⟨rfl, rfl⟩ := List.append_eq_nil_iff.mp (hempty hcase)
      exact ⟨s, [], rfl, ⟨buffers.has, buffers.edits⟩, fun _ h => absurd rfl h⟩

/-! ## Arrows -/

theorem leaveUp_spec (buffers : Buffers lineSize histSize s before after u v)
    (hsize : lineSize ≤ histSize) :
    ∃ s' before' after', leaveUp histSize s = some s' ∧
      Buffers lineSize histSize s' before' after' [] [] := by
  unfold leaveUp
  split
  · rename_i hne
    split
    · exact ⟨_, before, after, (erase_spec buffers.edits).1, buffers.erase⟩
    · obtain ⟨s', before', after', hins, hbuffers, -, -⟩ := insertLine_spec buffers hne hsize
      refine ⟨_, before', _, ?_, hbuffers.erase⟩
      simp only [hins, Option.bind_eq_bind, Option.bind_some]
      exact (erase_spec hbuffers.edits).1
  · rename_i hzero
    have hlen := buffers.edits.len_eq
    have hu : u = [] := List.length_eq_zero_iff.mp (by omega)
    have hv : v = [] := List.length_eq_zero_iff.mp (by omega)
    subst hu hv
    exact ⟨s, before, after, rfl, buffers⟩

theorem histUp_spec (rep : Rep lineSize histSize s before after u v)
    (hsize : lineSize ≤ histSize) :
    ∃ s', histUp histSize s = some s' ∧ Waits lineSize histSize s' := by
  unfold histUp
  split
  · obtain ⟨s₁, before₁, after₁, hleave, hbuffers⟩ := leaveUp_spec rep.toBuffers hsize
    simp only [hleave, Option.bind_eq_bind, Option.bind_some]
    rcases histPrev_spec hbuffers.has with ⟨-, hprev⟩ | ⟨b, l, idx, -, hprev, hhas⟩
    · simp only [hprev, Option.bind_some]
      obtain ⟨s', u', hrecall, hrep⟩ :=
        recallLineIf_spec hbuffers false (fun h => by cases h) (fun _ => rfl)
      simp only [hrecall, Option.bind_some]
      exact ⟨_, rfl, _, _, _, _, hrep⟩
    · have hmoved : Buffers lineSize histSize { s₁ with histIdx := idx } b (l :: after₁) [] [] :=
        ⟨hhas, hbuffers.edits⟩
      simp only [hprev, Option.bind_some]
      obtain ⟨s', u', hrecall, hrep⟩ :=
        recallLineIf_spec hmoved true (fun _ => List.cons_ne_nil _ _) (fun h => by cases h)
      simp only [hrecall, Option.bind_some]
      exact ⟨_, rfl, _, _, _, _, hrep⟩
  · exact ⟨s, rfl, _, _, _, _, rep⟩

theorem leaveDown_spec (buffers : Buffers lineSize histSize s before after u v)
    (hsize : lineSize ≤ histSize) :
    ∃ s' before' after', leaveDown histSize s = some s' ∧
      Buffers lineSize histSize s' before' after' [] [] := by
  unfold leaveDown
  split
  · rename_i hne
    obtain ⟨s₁, before₁, after₁, hbehind, hbuffers⟩ := insertBehind_spec buffers hne hsize
    simp only [hbehind, Option.bind_eq_bind, Option.bind_some]
    rcases histNext_spec hbuffers.has with ⟨-, hnext⟩ | ⟨l, a, found, idx, -, hnext, hhas⟩
    · simp only [hnext, Option.bind_some]
      exact ⟨_, _, _, (erase_spec hbuffers.edits).1, hbuffers.erase⟩
    · have hmoved : Buffers lineSize histSize { s₁ with histIdx := idx } (before₁ ++ [l]) a u v :=
        ⟨hhas, hbuffers.edits⟩
      simp only [hnext, Option.bind_some]
      exact ⟨_, _, _, (erase_spec hmoved.edits).1, hmoved.erase⟩
  · rename_i hzero
    have hlen := buffers.edits.len_eq
    have hu : u = [] := List.length_eq_zero_iff.mp (by omega)
    have hv : v = [] := List.length_eq_zero_iff.mp (by omega)
    subst hu hv
    exact ⟨s, before, after, rfl, buffers⟩

theorem moreHistory_spec (has : s.Has lineSize histSize before after) :
    ∃ more, moreHistory s = some more := by
  unfold moreHistory
  split
  · rename_i hne
    cases after with
    | nil => exact absurd (has.at_end.mpr rfl) hne
    | cons l after =>
        simp only [has.strlenAt, Option.bind_eq_bind, Option.bind_some]
        exact ⟨_, rfl⟩
  · exact ⟨false, rfl⟩

theorem histDown_spec (rep : Rep lineSize histSize s before after u v)
    (hsize : lineSize ≤ histSize) :
    ∃ s', histDown histSize s = some s' ∧ Waits lineSize histSize s' := by
  obtain ⟨more, hmore⟩ := moreHistory_spec rep.has
  simp only [histDown, hmore, Option.bind_eq_bind, Option.bind_some]
  cases more with
  | true =>
      obtain ⟨s₁, before₁, after₁, hleave, hbuffers⟩ := leaveDown_spec rep.toBuffers hsize
      have hcond : (s₁.histIdx != s₁.histEnd) = true → after₁ ≠ [] := by
        intro h hnil
        exact (by simpa using h : s₁.histIdx ≠ s₁.histEnd) (hbuffers.has.at_end.mpr hnil)
      obtain ⟨s', u', hrecall, hrep⟩ := recallLineIf_spec hbuffers _ hcond (fun _ => rfl)
      simp only [if_true, hleave, Option.bind_some, hrecall]
      exact ⟨_, rfl, _, _, _, _, hrep⟩
  | false =>
      simp only [Bool.false_eq_true, if_false]
      split
      · rename_i hne
        obtain ⟨s₁, before₁, after₁, hbehind, hbuffers⟩ :=
          insertBehind_spec rep.toBuffers hne hsize
        have hmoved : Buffers lineSize histSize { s₁ with histIdx := s₁.histEnd }
            (before₁ ++ after₁) [] u v := ⟨hbuffers.has.toEnd, hbuffers.edits⟩
        simp only [hbehind, Option.bind_some, (erase_spec hmoved.edits).1]
        exact ⟨_, rfl, _, _, _, _,
          Buffers.rep_of_nil ⟨hmoved.erase.has, hmoved.erase.edits⟩⟩
      · exact ⟨s, rfl, _, _, _, _, rep⟩

/-! ## Characters -/

theorem typech_waits (rep : Rep lineSize histSize s before after u v) {c : UInt8}
    (hc : c ≠ 0) :
    ∃ s' u', typech lineSize c s = some s' ∧ Rep lineSize histSize s' before after u' v := by
  rcases typech_spec rep.edits hc with ⟨-, htype⟩ | ⟨ttyBuf, htype, hedits⟩
  · exact ⟨s, u, htype, rep⟩
  · exact ⟨_, _, htype, ⟨rep.has, hedits⟩, fun h => by cases h⟩

theorem delch_waits (rep : Rep lineSize histSize s before after u v) :
    ∃ s', delch s = some s' ∧ Waits lineSize histSize s' := by
  rcases delch_spec rep.edits with hdel | ⟨ttyBuf, v', hdel, hedits⟩
  · exact ⟨s, hdel, _, _, _, _, rep⟩
  · exact ⟨_, hdel, _, _, _, _, ⟨rep.has, hedits⟩, fun h => by cases h⟩

/-- Moving the cursor does not change the line. -/
theorem Rep.move (rep : Rep lineSize histSize s before after u v) {cur : Nat}
    {u' v' : List UInt8} (hline : u' ++ v' = u ++ v)
    (hedits : ({ s with ttyCur := cur } : Editor).Edits lineSize u' v') :
    Rep lineSize histSize { s with ttyCur := cur } before after u' v' :=
  ⟨⟨rep.has, hedits⟩, fun hchanged => hline ▸ rep.recalled hchanged⟩

theorem curLeft_rep (rep : Rep lineSize histSize s before after u v) :
    ∃ u' v', Rep lineSize histSize (curLeft s) before after u' v' := by
  obtain ⟨cur, u', v', hleft, hline, hedits⟩ := curLeft_spec rep.edits
  exact ⟨u', v', hleft ▸ rep.move hline hedits⟩

theorem curRight_waits (rep : Rep lineSize histSize s before after u v) :
    ∃ s', curRight s = some s' ∧ Waits lineSize histSize s' := by
  obtain ⟨cur, u', v', hright, hline, hedits⟩ := curRight_spec rep.edits
  exact ⟨_, hright, _, _, _, _, rep.move hline hedits⟩

theorem toEnd_rep (rep : Rep lineSize histSize s before after u v) :
    Rep lineSize histSize { s with ttyCur := s.ttyLen } before after (u ++ v) [] :=
  rep.move (List.append_nil _) (toEnd_spec rep.edits).2

theorem toBeg_rep (rep : Rep lineSize histSize s before after u v) :
    Rep lineSize histSize (toBeg s) before after [] (u ++ v) :=
  rep.move rfl (rep.edits.move [] (u ++ v) rfl)

/-- Writing behind the edit line does not change it. -/
theorem Rep.terminate (rep : Rep lineSize histSize s before after u v) :
    ∃ junk, Readline.terminate s = some { s with ttyBuf := u ++ v ++ 0 :: junk } ∧
      Rep lineSize histSize { s with ttyBuf := u ++ v ++ 0 :: junk } before after u v := by
  obtain ⟨junk, hterm, hedits⟩ := terminate_spec rep.edits
  exact ⟨junk, hterm, ⟨rep.has, hedits⟩, rep.recalled⟩

/-! ## Completion -/

/-- `nk_complete` finds nothing, or a character. -/
theorem completeLoop_range (word : List UInt8) (facmode : Bool) (texts : List (List UInt8))
    (matchChar : Int) (matchCount : Nat)
    (h : matchCount = 0 ∨ 0 ≤ matchChar ∧ matchChar < 256) :
    (completeLoop word facmode texts (matchChar, matchCount)).2 = 0 ∨
      0 ≤ (completeLoop word facmode texts (matchChar, matchCount)).1 ∧
        (completeLoop word facmode texts (matchChar, matchCount)).1 < 256 := by
  induction texts generalizing matchChar matchCount with
  | nil => exact h
  | cons text texts ih =>
      rw [completeLoop]
      have hc := (text.getD (1 + word.length) 0).toNat_lt
      split
      · exact ih _ _ (Or.inr (by omega))
      · exact ih _ _ h

theorem nkComplete_range (commands : Commands) (word : List UInt8) :
    nkComplete commands word = -1 ∨ nkComplete commands word = -2 ∨
      0 < nkComplete commands word ∧ nkComplete commands word < 256 := by
  have hrange := completeLoop_range word commands.facmode commands.texts (-1) 0 (Or.inl rfl)
  simp only [nkComplete]
  split
  · rename_i hone
    rcases hrange with hzero | hrange
    · omega
    · split
      · exact Or.inr (Or.inr (by omega))
      · exact Or.inr (Or.inr (by omega))
  · split
    · exact Or.inl rfl
    · exact Or.inr (Or.inl rfl)

/-- A character that was found is not a NUL. -/
theorem nkComplete_byte {commands : Commands} {word : List UInt8}
    (hnone : ¬ nkComplete commands word = -1) (hmany : ¬ nkComplete commands word = -2) :
    UInt8.ofNat (nkComplete commands word).toNat ≠ 0 := by
  have hrange := ((nkComplete_range commands word).resolve_left hnone).resolve_left hmany
  intro hzero
  have htoNat := congrArg UInt8.toNat hzero
  rw [UInt8.toNat_ofNat_of_lt' (by simp only [UInt8.size]; omega)] at htoNat
  have hnul : (0 : UInt8).toNat = 0 := rfl
  omega

theorem redrawList_rep (rep : Rep lineSize histSize s before after u v) :
    ∃ s' u' v', redrawList s = some s' ∧ Rep lineSize histSize s' before after u' v' := by
  unfold redrawList
  split
  · obtain ⟨hredraw, hedits⟩ := redraw_spec rep.edits
    exact ⟨_, _, _, hredraw, rep.move (List.append_nil _) hedits⟩
  · exact ⟨s, u, v, rfl, rep⟩

theorem tabLoop_spec (commands : Commands) (fuel : Nat)
    (rep : Rep lineSize histSize s before after u v) :
    ∃ handled, tabLoop lineSize commands fuel s = some handled ∧
      HandledOk lineSize histSize handled := by
  induction fuel generalizing s u v with
  | zero => exact ⟨.endless, rfl, trivial⟩
  | succ fuel ih =>
      obtain ⟨junk, hterm, hrep⟩ := rep.terminate
      have hlen : Bytes.strlenAt (u ++ v ++ 0 :: junk) 0 = some (u ++ v).length :=
        Bytes.strlenAt_append [] rep.edits.no_nul junk
      obtain ⟨s₁, u₁, v₁, hredraw, hrep₁⟩ := redrawList_rep hrep
      simp only [tabLoop, hterm, hlen, hredraw, Option.bind_eq_bind, Option.bind_some]
      split
      · exact ⟨_, rfl, _, _, _, _, hrep₁⟩
      · split
        · exact ⟨_, rfl, _, _, _, _, ⟨hrep₁.has, hrep₁.edits⟩, hrep₁.recalled⟩
        · rename_i hnone hmany
          have hc := nkComplete_byte hnone hmany
          obtain ⟨s₂, u₂, htype, hrep₂⟩ := typech_waits hrep₁ hc
          simp only [htype, Option.bind_some]
          split
          · exact ⟨_, rfl, _, _, _, _, hrep₂⟩
          · exact ih hrep₂

/-- The last byte of the edit line. -/
theorem last_spec (edits : s.Edits lineSize u v) (hne : s.ttyLen ≠ 0) :
    s.ttyBuf[s.ttyLen - 1]? = (u ++ v).getLast? := by
  obtain ⟨rest, hstored⟩ := edits.stored
  have hlen : s.ttyLen = (u ++ v).length := by
    rw [edits.len_eq, List.length_append]
  rw [hstored, ← List.append_assoc, List.getElem?_append_left (by omega), hlen,
    ← List.getLast?_eq_getElem?]

theorem endsInBlank_spec (edits : s.Edits lineSize u v) :
    endsInBlank s = some (decide ((u ++ v).getLast? = some 32)) := by
  have hlen : s.ttyLen = (u ++ v).length := by
    rw [edits.len_eq, List.length_append]
  unfold endsInBlank
  split
  · rename_i hne
    obtain ⟨c, hc⟩ := Option.isSome_iff_exists.mp
      (List.getLast?_isSome.mpr fun hnil : u ++ v = [] => hne (by rw [hlen, hnil]; rfl))
    rw [last_spec edits hne, hc]
    simp only [Option.bind_eq_bind, Option.bind_some, Option.some.injEq]
    rfl
  · rename_i hzero
    rw [List.length_eq_zero_iff.mp (hlen.symm.trans (not_not.mp hzero))]
    rfl

/-- TAB behind a blank leaves the line as it is. -/
theorem tabHelp_spec (edits : s.Edits lineSize u v) (hblank : (u ++ v).getLast? = some 32) :
    tabHelp s = some { s with ttyCur := s.ttyLen } := by
  have hne : s.ttyLen ≠ 0 := by
    intro hzero
    rw [edits.len_eq, ← List.length_append] at hzero
    rw [List.length_eq_zero_iff.mp hzero] at hblank
    cases hblank
  obtain ⟨hlt, hbyte⟩ := List.getElem?_eq_some_iff.mp ((last_spec edits hne).trans hblank)
  have hsub : sizeSub s.ttyLen 1 = some (s.ttyLen - 1) := if_pos (by omega)
  have hstore : Bytes.store s.ttyBuf (s.ttyLen - 1) 0 = some (s.ttyBuf.set (s.ttyLen - 1) 0) :=
    if_pos hlt
  have hlen : ∃ len, Bytes.strlenAt (s.ttyBuf.set (s.ttyLen - 1) 0) 0 = some len :=
    ⟨_, if_pos (List.mem_set hlt 0)⟩
  have hback : Bytes.store (s.ttyBuf.set (s.ttyLen - 1) 0) (s.ttyLen - 1) 32 =
      some s.ttyBuf := by
    rw [Bytes.store, if_pos (by simpa using hlt), List.set_set, ← hbyte, List.set_getElem_self]
  obtain ⟨len, hlen⟩ := hlen
  simp only [tabHelp, hsub, hstore, hlen, hback, Option.bind_eq_bind, Option.bind_some]
  exact (redraw_spec edits).1

theorem tab_spec (commands : Commands) (rep : Rep lineSize histSize s before after u v) :
    ∃ handled, tab lineSize commands s = some handled ∧
      HandledOk lineSize histSize handled := by
  simp only [tab, endsInBlank_spec rep.edits, Option.bind_eq_bind, Option.bind_some,
    decide_eq_true_eq]
  split
  · rename_i hblank
    simp only [tabHelp_spec rep.edits hblank, Option.bind_some]
    exact ⟨_, rfl, _, _, _, _, rep.move (List.append_nil _) (redraw_spec rep.edits).2⟩
  · exact tabLoop_spec commands (lineSize + 1) rep

/-! ## Ending a line -/

theorem interrupt_waits (rep : Rep lineSize histSize s before after u v)
    (hsize : lineSize ≤ histSize) :
    ∃ s', interrupt histSize s = some s' ∧ Waits lineSize histSize s' := by
  obtain ⟨junk, hterm, hrep⟩ := rep.terminate
  have hkeep : ∃ s' before' after', keepLine histSize { s with ttyBuf := u ++ v ++ 0 :: junk } =
      some s' ∧ Buffers lineSize histSize s' before' after' u v := by
    unfold keepLine
    split
    · rename_i hkept
      have hline := hrep.toBuffers.lineOk hkept.2
      have hlt := hline.length_lt
      obtain ⟨b, e, i, before', after', hins, hhas, -, -⟩ :=
        histIns_spec hrep.has rfl hline (by omega)
      exact ⟨_, before', _, hins, hhas, hrep.edits⟩
    · exact ⟨_, before, after, rfl, hrep.toBuffers⟩
  obtain ⟨s₁, before₁, after₁, hkeep, hbuffers⟩ := hkeep
  have hmoved : Buffers lineSize histSize { s₁ with histIdx := s₁.histEnd } (before₁ ++ after₁)
      [] u v := ⟨hbuffers.has.toEnd, hbuffers.edits⟩
  have herased := hmoved.erase
  refine ⟨{ s₁ with histIdx := s₁.histEnd, ttyLen := 0, ttyCur := 0, changed := false }, ?_,
    _, _, _, _, Buffers.rep_of_nil ⟨herased.has, herased.edits⟩⟩
  simp only [interrupt, hterm, hkeep, (toEnd_spec hmoved.edits).1, Option.bind_eq_bind,
    Option.bind_some]
  rfl

theorem dropOriginal_spec (rep : Rep lineSize histSize s before after u v)
    (hne : s.ttyLen ≠ 0) :
    ∃ s' before' after', dropOriginal s = some s' ∧
      Buffers lineSize histSize s' before' after' u v ∧ s'.ttyBuf = s.ttyBuf ∧
      s'.ttyLen = s.ttyLen := by
  unfold dropOriginal
  split
  · rename_i hunchanged
    have hline := rep.toBuffers.lineOk hne
    have hrecalled := rep.recalled (by simpa using hunchanged) hline.nonempty
    cases after with
    | nil => cases hrecalled
    | cons l after =>
        obtain ⟨b, e, hdel, hhas⟩ := histDel_spec rep.has
        simp only [hdel, Option.bind_eq_bind, Option.bind_some]
        exact ⟨_, before, after, rfl, ⟨hhas, rep.edits⟩, rfl, rfl⟩
  · exact ⟨s, before, after, rfl, rep.toBuffers, rfl, rfl⟩

theorem appendLine_spec (rep : Rep lineSize histSize s before after u v)
    (hsize : lineSize ≤ histSize) {junk : List UInt8} (hbuf : s.ttyBuf = u ++ v ++ 0 :: junk) :
    ∃ s' before' after', appendLine histSize s = some s' ∧
      Buffers lineSize histSize s' before' after' u v ∧ s'.ttyBuf = s.ttyBuf := by
  unfold appendLine
  split
  · rename_i hne
    have hline := rep.toBuffers.lineOk hne
    have hlt := hline.length_lt
    obtain ⟨s₁, before₁, after₁, hdrop, hbuffers, htty, -⟩ := dropOriginal_spec rep hne
    have hmoved : Buffers lineSize histSize { s₁ with histIdx := s₁.histEnd }
        (before₁ ++ after₁) [] u v := ⟨hbuffers.has.toEnd, hbuffers.edits⟩
    obtain ⟨b, e, i, before', after', hins, hhas, -, -⟩ :=
      histIns_spec hmoved.has (htty.trans hbuf) hline (by omega)
    simp only [hdrop, Option.bind_eq_bind, Option.bind_some, hins]
    exact ⟨_, before', _, rfl, ⟨hhas, hbuffers.edits⟩, htty⟩
  · exact ⟨s, before, after, rfl, rep.toBuffers, rfl⟩

theorem enter_spec (rep : Rep lineSize histSize s before after u v)
    (hsize : lineSize ≤ histSize) :
    ∃ handled, enter histSize s = some handled ∧ HandledOk lineSize histSize handled := by
  have htoEnd := (toEnd_spec rep.edits).1
  obtain ⟨junk, hterm, hrep⟩ := (toEnd_rep rep).terminate
  obtain ⟨s₁, before₁, after₁, happend, hbuffers, htty⟩ := appendLine_spec hrep hsize rfl
  have hlen : Bytes.strlenAt s₁.ttyBuf 0 = some (u ++ v ++ []).length := by
    rw [htty]
    exact Bytes.strlenAt_append [] hrep.edits.no_nul junk
  refine ⟨.entered (s₁.ttyBuf.take (u ++ v ++ []).length)
    { s₁ with histIdx := s₁.histEnd, changed := false }, ?_, _, _, _, _,
    hbuffers.has.toEnd, hbuffers.edits⟩
  simp only [enter, htoEnd, hterm, happend, hlen, Option.bind_eq_bind, Option.bind_some]
  rfl

/-! ## One key -/

theorem waits_map {o : Option Editor} (h : ∃ s', o = some s' ∧ Waits lineSize histSize s') :
    ∃ handled, o.map Handled.waits = some handled ∧ HandledOk lineSize histSize handled := by
  obtain ⟨s', rfl, hwaits⟩ := h
  exact ⟨_, rfl, hwaits⟩

theorem normalChar_spec (commands : Commands) (ch : UInt8)
    (rep : Rep lineSize histSize s before after u v) (hsize : lineSize ≤ histSize) :
    ∃ handled, normalChar lineSize histSize commands ch s = some handled ∧
      HandledOk lineSize histSize handled := by
  have hself : Waits lineSize histSize s := ⟨_, _, _, _, rep⟩
  unfold normalChar
  by_cases hprint : 32 ≤ ch ∧ ch ≤ 126
  · have hc : ch ≠ 0 := by
      rintro rfl
      exact absurd hprint.1 (by decide)
    obtain ⟨s', u', htype, hrep⟩ := typech_waits rep hc
    rw [if_pos hprint]
    exact waits_map ⟨s', htype, _, _, _, _, hrep⟩
  rw [if_neg hprint]
  by_cases htab : ch = 9
  · rw [if_pos htab]
    exact tab_spec commands rep
  rw [if_neg htab]
  by_cases hdel : ch = 8 ∨ ch = 127
  · rw [if_pos hdel]
    by_cases hcur : s.ttyCur ≠ 0
    · obtain ⟨u', v', hrep⟩ := curLeft_rep rep
      rw [if_pos hcur]
      exact waits_map (delch_waits hrep)
    · rw [if_neg hcur]
      exact ⟨_, rfl, hself⟩
  rw [if_neg hdel]
  by_cases hctrlD : ch = 4
  · rw [if_pos hctrlD]
    by_cases hcur : s.ttyCur ≠ s.ttyLen
    · rw [if_pos hcur]
      exact waits_map (delch_waits rep)
    · rw [if_neg hcur]
      exact ⟨_, rfl, hself⟩
  rw [if_neg hctrlD]
  by_cases hctrlC : ch = 3
  · rw [if_pos hctrlC]
    exact waits_map (interrupt_waits rep hsize)
  rw [if_neg hctrlC]
  by_cases hctrlE : ch = 5
  · rw [if_pos hctrlE]
    exact waits_map ⟨_, (toEnd_spec rep.edits).1, _, _, _, _, toEnd_rep rep⟩
  rw [if_neg hctrlE]
  by_cases hctrlA : ch = 1
  · rw [if_pos hctrlA]
    exact ⟨_, rfl, _, _, _, _, toBeg_rep rep⟩
  rw [if_neg hctrlA]
  by_cases henter : ch = 13 ∨ ch = 10
  · rw [if_pos henter]
    exact enter_spec rep hsize
  rw [if_neg henter]
  by_cases hctrlP : ch = 16
  · rw [if_pos hctrlP]
    exact waits_map (histUp_spec rep hsize)
  rw [if_neg hctrlP]
  by_cases hctrlN : ch = 14
  · rw [if_pos hctrlN]
    exact waits_map (histDown_spec rep hsize)
  rw [if_neg hctrlN]
  by_cases hctrlB : ch = 2
  · obtain ⟨u', v', hrep⟩ := curLeft_rep rep
    rw [if_pos hctrlB]
    exact ⟨_, rfl, _, _, _, _, hrep⟩
  rw [if_neg hctrlB]
  by_cases hctrlF : ch = 6
  · rw [if_pos hctrlF]
    exact waits_map (curRight_waits rep)
  rw [if_neg hctrlF]
  by_cases hesc : ch = 27
  · rw [if_pos hesc]
    exact ⟨_, rfl, _, _, _, _, ⟨rep.has, rep.edits⟩, rep.recalled⟩
  rw [if_neg hesc]
  exact ⟨_, rfl, hself⟩

theorem arrow_waits (ch : UInt8) (rep : Rep lineSize histSize s before after u v)
    (hsize : lineSize ≤ histSize) :
    ∃ s', arrow histSize ch s = some s' ∧ Waits lineSize histSize s' := by
  unfold arrow
  split_ifs
  · exact histUp_spec rep hsize
  · exact histDown_spec rep hsize
  · exact curRight_waits rep
  · obtain ⟨u', v', hrep⟩ := curLeft_rep rep
    exact ⟨_, rfl, _, _, _, _, hrep⟩
  · exact ⟨s, rfl, _, _, _, _, rep⟩

theorem escapeChar_waits (ch : UInt8) (rep : Rep lineSize histSize s before after u v)
    (hsize : lineSize ≤ histSize) :
    ∃ s', escapeChar histSize ch s = some s' ∧ Waits lineSize histSize s' := by
  obtain ⟨s', harrow, before', after', u', v', hrep⟩ := arrow_waits ch rep hsize
  refine ⟨{ s' with mode := 0 }, ?_, _, _, _, _, ⟨hrep.has, hrep.edits⟩, hrep.recalled⟩
  simp only [escapeChar, harrow, Option.bind_eq_bind, Option.bind_some]
  rfl

theorem promptChar_spec (commands : Commands) (ch : UInt8) (waits : Waits lineSize histSize s)
    (hsize : lineSize ≤ histSize) :
    ∃ handled, promptChar lineSize histSize commands ch s = some handled ∧
      HandledOk lineSize histSize handled := by
  obtain ⟨before, after, u, v, rep⟩ := waits
  have hrep : Rep lineSize histSize { s with tabCount := s.tabCount - 1 } before after u v :=
    ⟨⟨rep.has, rep.edits⟩, rep.recalled⟩
  unfold promptChar
  dsimp only
  split
  · exact normalChar_spec commands ch hrep hsize
  split
  · exact ⟨_, rfl, _, _, _, _, ⟨rep.has, rep.edits⟩, rep.recalled⟩
  split
  · exact waits_map (escapeChar_waits ch hrep hsize)
  · exact ⟨_, rfl, _, _, _, _, hrep⟩

theorem promptTask_spec (commands : Commands) (chars : List UInt8)
    (waits : Waits lineSize histSize s) (hsize : lineSize ≤ histSize) :
    ∃ handled, promptTask lineSize histSize commands chars s = some handled ∧
      HandledOk lineSize histSize handled := by
  induction chars generalizing s with
  | nil => exact ⟨_, rfl, waits⟩
  | cons ch chars ih =>
      obtain ⟨handled, hchar, hok⟩ := promptChar_spec commands ch waits hsize
      simp only [promptTask, hchar, Option.bind_eq_bind, Option.bind_some]
      cases handled with
      | waits s' => exact ih hok
      | entered line s' => exact ⟨_, rfl, hok⟩
      | endless => exact ⟨_, rfl, trivial⟩

end Keys

/-! ## Whole runs -/

/-- Runs from power up.  `editing` says whether `prompt_task` is registered: from
`nk_readline` until a line is entered. -/
inductive Run (lineSize histSize : Nat) : Bool → Editor → Prop where
  | boot : Run lineSize histSize false (.zeroed lineSize histSize)
  | nkReadline {editing : Bool} {s : Editor} (before : Run lineSize histSize editing s) :
      Run lineSize histSize true (nkReadline s)
  | waits {s s' : Editor} (before : Run lineSize histSize true s) (commands : Commands)
      (chars : List UInt8)
      (done : promptTask lineSize histSize commands chars s = some (.waits s')) :
      Run lineSize histSize true s'
  | entered {s s' : Editor} {line : List UInt8} (before : Run lineSize histSize true s)
      (commands : Commands) (chars : List UInt8)
      (done : promptTask lineSize histSize commands chars s = some (.entered line s')) :
      Run lineSize histSize false s'

variable {lineSize histSize : Nat} {editing : Bool} {s : Editor}

theorem Run.buffers (hline : 0 < lineSize) (hsize : lineSize ≤ histSize)
    (run : Run lineSize histSize editing s) :
    Idle lineSize histSize s ∧ (editing = true → Waits lineSize histSize s) := by
  induction run with
  | boot =>
      refine ⟨⟨[], [], [], [], ?_, .nil (List.length_replicate) hline⟩, fun h => by cases h⟩
      exact ⟨⟨_, rfl⟩, List.length_replicate, rfl, rfl, by simp⟩
  | nkReadline _ ih =>
      obtain ⟨⟨before, after, u, v, hbuffers⟩, -⟩ := ih
      have herased := hbuffers.erase
      have hrep : Rep lineSize histSize (Readline.nkReadline _) before after [] [] :=
        Buffers.rep_of_nil ⟨herased.has, herased.edits⟩
      exact ⟨⟨_, _, _, _, hrep.toBuffers⟩, fun _ => ⟨_, _, _, _, hrep⟩⟩
  | waits _ commands chars done ih =>
      obtain ⟨handled, hdone, hok⟩ := promptTask_spec commands chars (ih.2 rfl) hsize
      obtain rfl := Option.some.inj (hdone.symm.trans done)
      obtain ⟨before, after, u, v, hrep⟩ := hok
      exact ⟨⟨_, _, _, _, hrep.toBuffers⟩, fun _ => ⟨_, _, _, _, hrep⟩⟩
  | entered _ commands chars done ih =>
      obtain ⟨handled, hdone, hok⟩ := promptTask_spec commands chars (ih.2 rfl) hsize
      obtain rfl := Option.some.inj (hdone.symm.trans done)
      exact ⟨hok, fun h => by cases h⟩

/-- In every state of every run the cursor is within the line and the line within
its buffer; the history buffer holds NUL terminated lines, each not empty and
shorter than the edit buffer, and the index is at the start of a line or at the
end; an unchanged line being edited is the line of the history at the index.
Whatever is typed next, no access to either buffer is out of range. -/
theorem run_prompt (hline : 0 < lineSize) (hsize : lineSize ≤ histSize)
    (run : Run lineSize histSize editing s) :
    s.ttyCur ≤ s.ttyLen ∧ s.ttyLen ≤ lineSize - 1 ∧ s.histEnd ≤ histSize ∧
      (∃ (lines : List (List UInt8)) (k : Nat), s.histbuf.take s.histEnd = encode lines ∧
        (∀ l ∈ lines, l ≠ [] ∧ 0 ∉ l ∧ l.length < lineSize) ∧
        k ≤ lines.length ∧ s.histIdx = (encode (lines.take k)).length ∧
        (editing = true → s.changed = false → s.ttyLen ≠ 0 →
          lines[k]? = some (s.ttyBuf.take s.ttyLen))) ∧
      (editing = true → ∀ commands chars,
        promptTask lineSize histSize commands chars s ≠ none) := by
  obtain ⟨⟨before, after, u, v, hbuffers⟩, hwaits⟩ := run.buffers hline hsize
  have hcur := hbuffers.edits.cur_eq
  have hlen := hbuffers.edits.len_eq
  have hlt := hbuffers.edits.len_lt
  refine ⟨by omega, by omega, hbuffers.has.end_le, ?_, ?_⟩
  · cases hediting : editing with
    | true =>
        obtain ⟨before, after, u, v, hrep⟩ := hwaits hediting
        obtain ⟨hstored, hlines, hle, hidx⟩ := hrep.has.spelled
        refine ⟨before ++ after, before.length, hstored, hlines, hle, hidx, ?_⟩
        intro _ hunchanged hne
        have hline := hrep.toBuffers.lineOk hne
        have hhead := hrep.recalled hunchanged hline.nonempty
        rw [hrep.edits.take_eq, List.getElem?_append_right (Nat.le_refl _), Nat.sub_self,
          ← List.head?_eq_getElem?]
        exact hhead
    | false =>
        obtain ⟨hstored, hlines, hle, hidx⟩ := hbuffers.has.spelled
        exact ⟨before ++ after, before.length, hstored, hlines, hle, hidx, fun h => by cases h⟩
  · intro hediting commands chars
    obtain ⟨handled, hdone, -⟩ := promptTask_spec commands chars (hwaits hediting) hsize
    rw [hdone]
    exact Option.some_ne_none _

/-- A line recalled from the history of a small editor. -/
theorem run_prompt_recalled :
    ∃ s, Run 4 8 true s ∧ s.changed = false ∧ s.ttyBuf.take s.ttyLen = [65] ∧
      ∃ (lines : List (List UInt8)) (k : Nat), s.histbuf.take s.histEnd = encode lines ∧
        lines[k]? = some (s.ttyBuf.take s.ttyLen) := by
  have hboot : Run 4 8 false _ := .boot
  have hentered := hboot.nkReadline.entered ⟨[], false⟩ [65, 13] rfl
  have hrun := hentered.nkReadline.waits ⟨[], false⟩ [16] rfl
  obtain ⟨-, -, -, ⟨lines, k, hstored, -, -, -, hline⟩, -⟩ :=
    run_prompt (by decide) (by decide) hrun
  exact ⟨_, hrun, rfl, rfl, lines, k, hstored, hline rfl rfl (by decide)⟩

end LibnklabsPico.Readline
