/-
  Readline/Enter.lean --- what entering a line does to the history.

  `Tracked` follows the keys of a run and remembers whether the edit line was recalled from
  the history and nothing was typed or deleted since; the editor's `changed` says the same.
  A recalled line moves to the end of the history, any other one is added to it.
-/
import LibnklabsPico.Readline.Prompt

set_option autoImplicit false

namespace LibnklabsPico.Readline

open LibnklabsPico.Foundation

/-! ## Recalled lines -/

/-- A key that goes up or down in the history, with a line there to go to. -/
def browses (s : Editor) (ch : UInt8) : Bool :=
  ((s.mode == 0 && ch == 16 || s.mode == 2 && ch == 65) && s.histIdx != 0) ||
    ((s.mode == 0 && ch == 14 || s.mode == 2 && ch == 66) && moreHistory s == some true)

/-- Editing states, and whether the edit line is one that was recalled by the last such key,
as it was then. -/
inductive Tracked (lineSize histSize : Nat) : Bool → Editor → Prop where
  | start {editing : Bool} {s : Editor} (before : Run lineSize histSize editing s) :
      Tracked lineSize histSize false (nkReadline s)
  | key {recalled : Bool} {s s' : Editor} (before : Tracked lineSize histSize recalled s)
      (commands : Commands) (ch : UInt8)
      (done : promptChar lineSize histSize commands ch s = some (.waits s')) :
      Tracked lineSize histSize (browses s ch || recalled && s'.line == s.line) s'

section

variable {lineSize histSize : Nat} {before after : List (List UInt8)} {u v : List UInt8}
  {s s' : Editor}

/-- The line is gone, or nothing was typed or deleted, or the editor noticed. -/
def Notices (s s' : Editor) : Prop :=
  s'.ttyLen = 0 ∨ s'.line = s.line ∧ s'.changed = s.changed ∨
    s'.line ≠ s.line ∧ s'.changed = true

/-- The line is as it was, or longer. -/
def Grows (s s' : Editor) : Prop :=
  s'.line = s.line ∧ s'.changed = s.changed ∨ s.line.length < s'.line.length ∧ s'.changed = true

theorem Grows.refl (s : Editor) : Grows s s := Or.inl ⟨rfl, rfl⟩

theorem Grows.trans {s₁ s₂ s₃ : Editor} (h : Grows s₁ s₂) (h' : Grows s₂ s₃) : Grows s₁ s₃ := by
  rcases h' with ⟨hline', hchanged'⟩ | ⟨hlonger', hchanged'⟩
  · rcases h with ⟨hline, hchanged⟩ | ⟨hlonger, hchanged⟩
    · exact Or.inl ⟨hline'.trans hline, hchanged'.trans hchanged⟩
    · exact Or.inr ⟨by rw [hline']; exact hlonger, hchanged'.trans hchanged⟩
  · rcases h with ⟨hline, -⟩ | ⟨hlonger, -⟩
    · exact Or.inr ⟨by rw [← hline]; exact hlonger', hchanged'⟩
    · exact Or.inr ⟨Nat.lt_trans hlonger hlonger', hchanged'⟩

theorem Grows.notices (h : Grows s s') : Notices s s' := by
  rcases h with h | ⟨hlonger, hchanged⟩
  · exact Or.inr (Or.inl h)
  · refine Or.inr (Or.inr ⟨fun hline => ?_, hchanged⟩)
    rw [hline] at hlonger
    exact Nat.lt_irrefl _ hlonger

/-- A move of the cursor. -/
theorem Grows.of_move {u' v' : List UInt8} (edits : s.Edits lineSize u v)
    (edits' : s'.Edits lineSize u' v') (hline : u' ++ v' = u ++ v)
    (hchanged : s'.changed = s.changed) : Grows s s' :=
  Or.inl ⟨by rw [edits'.editor_line, edits.editor_line, hline], hchanged⟩

/-! ## Keys that edit -/

theorem typech_grows (edits : s.Edits lineSize u v) {c : UInt8} (hc : c ≠ 0) :
    ∃ s' u', typech lineSize c s = some s' ∧ s'.Edits lineSize u' v ∧ Grows s s' := by
  rcases typech_spec edits hc with ⟨-, htype⟩ | ⟨ttyBuf, htype, hedits⟩
  · exact ⟨s, u, htype, edits, Grows.refl s⟩
  · refine ⟨_, _, htype, hedits, Or.inr ⟨?_, rfl⟩⟩
    rw [hedits.line_length, edits.line_length]
    exact Nat.lt_succ_self _

theorem delch_notices (edits : s.Edits lineSize u v) (h : delch s = some s') :
    Notices s s' := by
  by_cases hend : s.ttyCur ≠ s.ttyLen
  · have hpos : 0 < s.ttyLen := by
      have hcur := edits.cur_eq
      have hlen := edits.len_eq
      omega
    rcases delch_spec edits with hdel | ⟨ttyBuf, v', hdel, hedits⟩
    · obtain rfl := Option.some.inj (hdel.symm.trans h)
      exact (Grows.refl _).notices
    · obtain rfl := Option.some.inj (hdel.symm.trans h)
      refine Or.inr (Or.inr ⟨fun hline => ?_, rfl⟩)
      have hlen := congrArg List.length hline
      rw [hedits.line_length, edits.line_length] at hlen
      dsimp only at hlen
      omega
  · have hdel : delch s = some s := if_neg hend
    obtain rfl := Option.some.inj (hdel.symm.trans h)
    exact (Grows.refl _).notices

theorem curLeft_keeps (edits : s.Edits lineSize u v) :
    (curLeft s).line = s.line ∧ (curLeft s).changed = s.changed ∧
      ∃ u' v', (curLeft s).Edits lineSize u' v' := by
  obtain ⟨cur, u', v', hleft, hline, hedits⟩ := curLeft_spec edits
  rw [hleft]
  exact ⟨by rw [hedits.editor_line, edits.editor_line, hline], rfl, u', v', hedits⟩

/-- A character is deleted behind the cursor, or before it. -/
theorem delete_notices (edits : s.Edits lineSize u v) :
    (∀ s', delch s = some s' → Notices s s') ∧
      ∀ s', delch (curLeft s) = some s' → Notices s s' := by
  obtain ⟨hline, hchanged, u', v', edits'⟩ := curLeft_keeps edits
  refine ⟨fun s' h => delch_notices edits h, fun s' h => ?_⟩
  rw [Notices, ← hline, ← hchanged]
  exact delch_notices edits' h

theorem curRight_grows (edits : s.Edits lineSize u v) :
    ∃ s', curRight s = some s' ∧ Grows s s' := by
  obtain ⟨cur, u', v', hright, hline, hedits⟩ := curRight_spec edits
  exact ⟨_, hright, .of_move edits hedits hline rfl⟩

theorem toEnd_grows (edits : s.Edits lineSize u v) : ∃ s', toEnd s = some s' ∧ Grows s s' := by
  obtain ⟨hend, hedits⟩ := toEnd_spec edits
  exact ⟨_, hend, .of_move edits hedits (List.append_nil _) rfl⟩

theorem toBeg_grows (edits : s.Edits lineSize u v) : Grows s (toBeg s) :=
  .of_move edits (edits.move [] (u ++ v) rfl) rfl rfl

theorem redrawList_grows (edits : s.Edits lineSize u v) :
    ∃ s' u' v', redrawList s = some s' ∧ s'.Edits lineSize u' v' ∧ Grows s s' := by
  unfold redrawList
  split
  · obtain ⟨hredraw, hedits⟩ := redraw_spec edits
    exact ⟨_, _, _, hredraw, hedits, .of_move edits hedits (List.append_nil _) rfl⟩
  · exact ⟨s, u, v, rfl, edits, Grows.refl s⟩

/-- Completion types characters only. -/
theorem tabLoop_grows (commands : Commands) (fuel : Nat) (edits : s.Edits lineSize u v)
    (h : tabLoop lineSize commands fuel s = some (.waits s')) : Grows s s' := by
  induction fuel generalizing s u v with
  | zero => cases h
  | succ fuel ih =>
      obtain ⟨junk, hterm, hedits⟩ := terminate_spec edits
      have hlen : Bytes.strlenAt (u ++ v ++ 0 :: junk) 0 = some (u ++ v).length :=
        Bytes.strlenAt_append [] edits.no_nul junk
      obtain ⟨s₁, u₁, v₁, hredraw, hedits₁, hgrows₁⟩ := redrawList_grows hedits
      have hgrows : Grows s s₁ := Grows.trans (.of_move edits hedits rfl rfl) hgrows₁
      simp only [tabLoop, hterm, hlen, hredraw, Option.bind_eq_bind, Option.bind_some] at h
      split at h
      · obtain rfl := Handled.waits.inj (Option.some.inj h)
        exact hgrows
      · split at h
        · obtain rfl := Handled.waits.inj (Option.some.inj h)
          exact hgrows
        · rename_i hnone hmany
          obtain ⟨s₂, u₂, htype, hedits₂, hgrows₂⟩ :=
            typech_grows hedits₁ (nkComplete_byte hnone hmany)
          simp only [htype, Option.bind_some] at h
          split at h
          · obtain rfl := Handled.waits.inj (Option.some.inj h)
            exact hgrows.trans hgrows₂
          · exact (hgrows.trans hgrows₂).trans (ih hedits₂ h)

theorem tab_grows (commands : Commands) (edits : s.Edits lineSize u v)
    (h : tab lineSize commands s = some (.waits s')) : Grows s s' := by
  simp only [tab, endsInBlank_spec edits, Option.bind_eq_bind, Option.bind_some,
    decide_eq_true_eq] at h
  split at h
  · rename_i hblank
    simp only [tabHelp_spec edits hblank, Option.bind_some] at h
    obtain rfl := Handled.waits.inj (Option.some.inj h)
    exact .of_move edits (redraw_spec edits).2 (List.append_nil _) rfl
  · exact tabLoop_grows commands _ edits h

/-- `^C` leaves no line. -/
theorem interrupt_empties (h : interrupt histSize s = some s') : s'.ttyLen = 0 := by
  simp only [interrupt, Option.bind_eq_bind, Option.bind_eq_some_iff] at h
  obtain ⟨_, _, _, _, _, _, h⟩ := h
  obtain rfl := Option.some.inj h
  rfl

/-! ## Keys that browse -/

theorem histUp_unchanged (hidx : s.histIdx ≠ 0) (h : histUp histSize s = some s') :
    s'.changed = false := by
  simp only [histUp, if_pos hidx, Option.bind_eq_bind, Option.bind_eq_some_iff] at h
  obtain ⟨_, _, _, _, _, _, h⟩ := h
  obtain rfl := Option.some.inj h
  rfl

theorem histDown_unchanged (hmore : moreHistory s = some true)
    (h : histDown histSize s = some s') : s'.changed = false := by
  simp only [histDown, hmore, Option.bind_eq_bind, Option.bind_some, if_true,
    Option.bind_eq_some_iff] at h
  obtain ⟨_, _, _, _, h⟩ := h
  obtain rfl := Option.some.inj h
  rfl

/-- Behind the last line there is the empty one. -/
theorem histDown_empties (hmore : moreHistory s ≠ some true)
    (h : histDown histSize s = some s') : s'.ttyLen = 0 := by
  simp only [histDown, Option.bind_eq_bind, Option.bind_eq_some_iff] at h
  obtain ⟨more, hread, h⟩ := h
  cases more with
  | true => exact absurd hread hmore
  | false =>
      simp only [Bool.false_eq_true, if_false] at h
      split at h
      · simp only [erase, Option.bind_eq_bind, Option.bind_eq_some_iff] at h
        obtain ⟨_, _, _, ⟨_, _, herase⟩, h⟩ := h
        obtain rfl := Option.some.inj herase
        obtain rfl := Option.some.inj h
        rfl
      · rename_i hzero
        obtain rfl := Option.some.inj h
        exact not_not.mp hzero

/-- What a key does to the line, and what the editor knows of it. -/
def Follows (s : Editor) (ch : UInt8) (s' : Editor) : Prop :=
  if browses s ch then s'.changed = false else Notices s s'

theorem Follows.of_notices {ch : UInt8} (hbrowses : browses s ch = false) (h : Notices s s') :
    Follows s ch s' := by
  rw [Follows, hbrowses]
  exact h

theorem histUp_follows {ch : UInt8} (hbrowses : browses s ch = (s.histIdx != 0))
    (h : histUp histSize s = some s') : Follows s ch s' := by
  rw [Follows, hbrowses]
  split
  · rename_i hidx
    exact histUp_unchanged (by simpa using hidx) h
  · rename_i hidx
    have hself : histUp histSize s = some s := if_neg (by simpa using hidx)
    obtain rfl := Option.some.inj (hself.symm.trans h)
    exact (Grows.refl _).notices

theorem histDown_follows {ch : UInt8} (hbrowses : browses s ch = (moreHistory s == some true))
    (h : histDown histSize s = some s') : Follows s ch s' := by
  rw [Follows, hbrowses]
  split
  · rename_i hmore
    exact histDown_unchanged (by simpa using hmore) h
  · rename_i hmore
    exact Or.inl (histDown_empties (by simpa using hmore) h)

/-! ## One key -/

theorem waits_of_map {o : Option Editor} (h : o.map Handled.waits = some (.waits s')) :
    o = some s' := by
  obtain ⟨s₁, ho, hwaits⟩ := Option.map_eq_some_iff.mp h
  rw [ho, Handled.waits.inj hwaits]

theorem normalChar_up (commands : Commands) (s : Editor) :
    normalChar lineSize histSize commands 16 s = (histUp histSize s).map .waits := by
  simp [normalChar]

theorem normalChar_down (commands : Commands) (s : Editor) :
    normalChar lineSize histSize commands 14 s = (histDown histSize s).map .waits := by
  simp [normalChar]

theorem normalChar_follows (commands : Commands) (ch : UInt8) (hmode : s.mode = 0)
    (edits : s.Edits lineSize u v)
    (h : normalChar lineSize histSize commands ch s = some (.waits s')) : Follows s ch s' := by
  by_cases hup : ch = 16
  · subst hup
    rw [normalChar_up] at h
    exact histUp_follows (by simp [browses, hmode]) (waits_of_map h)
  by_cases hdown : ch = 14
  · subst hdown
    rw [normalChar_down] at h
    exact histDown_follows (by simp [browses, hmode]) (waits_of_map h)
  refine .of_notices (by simp [browses, hmode, hup, hdown]) ?_
  have hself : Notices s s := (Grows.refl s).notices
  obtain ⟨hdelete, hbackspace⟩ := delete_notices edits
  unfold normalChar at h
  by_cases hprint : 32 ≤ ch ∧ ch ≤ 126
  · have hc : ch ≠ 0 := by
      rintro rfl
      exact absurd hprint.1 (by decide)
    rw [if_pos hprint] at h
    obtain ⟨s₁, u₁, htype, -, hgrows⟩ := typech_grows edits hc
    obtain rfl := Option.some.inj (htype.symm.trans (waits_of_map h))
    exact hgrows.notices
  rw [if_neg hprint] at h
  by_cases htab : ch = 9
  · rw [if_pos htab] at h
    exact (tab_grows commands edits h).notices
  rw [if_neg htab] at h
  by_cases hdel : ch = 8 ∨ ch = 127
  · rw [if_pos hdel] at h
    have hdone := waits_of_map h
    split at hdone
    · exact hbackspace s' hdone
    · obtain rfl := Option.some.inj hdone
      exact hself
  rw [if_neg hdel] at h
  by_cases hctrlD : ch = 4
  · rw [if_pos hctrlD] at h
    have hdone := waits_of_map h
    split at hdone
    · exact hdelete s' hdone
    · obtain rfl := Option.some.inj hdone
      exact hself
  rw [if_neg hctrlD] at h
  by_cases hctrlC : ch = 3
  · rw [if_pos hctrlC] at h
    exact Or.inl (interrupt_empties (waits_of_map h))
  rw [if_neg hctrlC] at h
  by_cases hctrlE : ch = 5
  · rw [if_pos hctrlE] at h
    obtain ⟨s₁, hend, hgrows⟩ := toEnd_grows edits
    obtain rfl := Option.some.inj (hend.symm.trans (waits_of_map h))
    exact hgrows.notices
  rw [if_neg hctrlE] at h
  by_cases hctrlA : ch = 1
  · rw [if_pos hctrlA] at h
    obtain rfl := Handled.waits.inj (Option.some.inj h)
    exact (toBeg_grows edits).notices
  rw [if_neg hctrlA] at h
  by_cases henter : ch = 13 ∨ ch = 10
  · rw [if_pos henter] at h
    simp only [enter, Option.bind_eq_bind, Option.bind_eq_some_iff] at h
    obtain ⟨_, _, _, _, _, _, _, _, h⟩ := h
    cases h
  rw [if_neg henter, if_neg hup, if_neg hdown] at h
  by_cases hctrlB : ch = 2
  · rw [if_pos hctrlB] at h
    obtain rfl := Handled.waits.inj (Option.some.inj h)
    obtain ⟨hline, hchanged, -⟩ := curLeft_keeps edits
    exact Or.inr (Or.inl ⟨hline, hchanged⟩)
  rw [if_neg hctrlB] at h
  by_cases hctrlF : ch = 6
  · rw [if_pos hctrlF] at h
    obtain ⟨s₁, hright, hgrows⟩ := curRight_grows edits
    obtain rfl := Option.some.inj (hright.symm.trans (waits_of_map h))
    exact hgrows.notices
  rw [if_neg hctrlF] at h
  split at h
  · obtain rfl := Handled.waits.inj (Option.some.inj h)
    exact Or.inr (Or.inl ⟨rfl, rfl⟩)
  · obtain rfl := Handled.waits.inj (Option.some.inj h)
    exact hself

theorem arrow_follows (ch : UInt8) (hmode : s.mode = 2) (edits : s.Edits lineSize u v)
    (h : arrow histSize ch s = some s') : Follows s ch s' := by
  unfold arrow at h
  by_cases hup : ch = 65
  · rw [if_pos hup] at h
    exact histUp_follows (by simp [browses, hmode, hup]) h
  rw [if_neg hup] at h
  by_cases hdown : ch = 66
  · rw [if_pos hdown] at h
    exact histDown_follows (by simp [browses, hmode, hdown]) h
  rw [if_neg hdown] at h
  refine .of_notices (by simp [browses, hmode, hup, hdown]) ?_
  split at h
  · obtain ⟨s₁, hright, hgrows⟩ := curRight_grows edits
    obtain rfl := Option.some.inj (hright.symm.trans h)
    exact hgrows.notices
  split at h
  · obtain rfl := Option.some.inj h
    obtain ⟨hline, hchanged, -⟩ := curLeft_keeps edits
    exact Or.inr (Or.inl ⟨hline, hchanged⟩)
  · obtain rfl := Option.some.inj h
    exact (Grows.refl s).notices

theorem promptChar_follows (commands : Commands) (ch : UInt8) (edits : s.Edits lineSize u v)
    (h : promptChar lineSize histSize commands ch s = some (.waits s')) : Follows s ch s' := by
  have hself : Notices s { s with tabCount := s.tabCount - 1 } := Or.inr (Or.inl ⟨rfl, rfl⟩)
  unfold promptChar at h
  dsimp only at h
  split at h
  · rename_i hmode
    exact normalChar_follows (s := { s with tabCount := s.tabCount - 1 }) commands ch hmode edits h
  rename_i hnormal
  split at h
  · rename_i hmode
    obtain rfl := Handled.waits.inj (Option.some.inj h)
    exact .of_notices (by simp [browses, hmode]) hself
  split at h
  · rename_i hmode
    simp only [escapeChar, Option.bind_eq_bind] at h
    obtain ⟨s₁, harrow, h⟩ := Option.bind_eq_some_iff.mp (waits_of_map h)
    obtain rfl := Option.some.inj h
    have hfollows : Follows s ch s₁ :=
      arrow_follows (s := { s with tabCount := s.tabCount - 1 }) ch hmode edits harrow
    exact hfollows
  · rename_i hescape
    obtain rfl := Handled.waits.inj (Option.some.inj h)
    exact .of_notices (by simp [browses, hnormal, hescape]) hself

end

/-! ## Whole runs -/

variable {lineSize histSize : Nat} {recalled : Bool} {s s' : Editor}

theorem promptTask_tracked {commands : Commands} {chars : List UInt8}
    (tracked : Tracked lineSize histSize recalled s)
    (done : promptTask lineSize histSize commands chars s = some (.waits s')) :
    ∃ recalled', Tracked lineSize histSize recalled' s' := by
  induction chars generalizing recalled s with
  | nil =>
      obtain rfl := Handled.waits.inj (Option.some.inj done)
      exact ⟨recalled, tracked⟩
  | cons ch chars ih =>
      simp only [promptTask, Option.bind_eq_bind, Option.bind_eq_some_iff] at done
      obtain ⟨handled, hchar, done⟩ := done
      cases handled with
      | waits s₁ => exact ih (tracked.key commands ch hchar) done
      | entered line s₁ => cases done
      | endless => cases done

/-- Every editing state is reached with its keys followed. -/
theorem Run.tracked (run : Run lineSize histSize true s) :
    ∃ recalled, Tracked lineSize histSize recalled s := by
  generalize hediting : true = editing at run
  induction run with
  | boot => cases hediting
  | nkReadline before => exact ⟨false, .start before⟩
  | waits _ commands chars done ih =>
      obtain ⟨recalled, htracked⟩ := ih rfl
      exact promptTask_tracked htracked done
  | entered => cases hediting

theorem Tracked.run (tracked : Tracked lineSize histSize recalled s) :
    Run lineSize histSize true s := by
  induction tracked with
  | start before => exact before.nkReadline
  | key _ commands ch done ih =>
      refine ih.waits commands [ch] ?_
      simp only [promptTask, done, Option.bind_eq_bind, Option.bind_some]

/-- The editor knows which lines are recalled ones. -/
theorem Tracked.unchanged (hline : 0 < lineSize) (hsize : lineSize ≤ histSize)
    (tracked : Tracked lineSize histSize recalled s) (hne : s.ttyLen ≠ 0) :
    recalled = true ↔ s.changed = false := by
  induction tracked with
  | start before => exact absurd rfl hne
  | @key recalled s s' before commands ch done ih =>
      have hrun := before.run
      have hrun' := (before.key commands ch done).run
      obtain ⟨_, _, _, _, hrep⟩ := (hrun.buffers hline hsize).2 rfl
      obtain ⟨_, _, _, _, hrep'⟩ := (hrun'.buffers hline hsize).2 rfl
      have hfollows := promptChar_follows commands ch hrep.edits done
      rw [Follows] at hfollows
      split at hfollows
      · rename_i hbrowses
        simp only [hbrowses, Bool.true_or, true_iff]
        exact hfollows
      · rename_i hbrowses
        rcases hfollows with hgone | ⟨hsame, hchanged⟩ | ⟨hdiffers, hchanged⟩
        · exact absurd hgone hne
        · have hlen : s.ttyLen = s'.ttyLen := by
            rw [← hrep.edits.line_length, ← hrep'.edits.line_length, hsame]
          simp only [hbrowses, hsame, hchanged, Bool.false_or, beq_self_eq_true, Bool.and_true]
          exact ih (hlen ▸ hne)
        · simp only [hbrowses, hchanged, beq_eq_false_iff_ne.mpr hdiffers, Bool.and_false,
            Bool.or_false, Bool.true_eq_false, Bool.false_eq_true]

/-! ## Enter -/

/-- The lines of the history, the oldest one first. -/
def Editor.Remembers (s : Editor) (lines : List (List UInt8)) : Prop :=
  s.histbuf.take s.histEnd = encode lines ∧ ∀ l ∈ lines, 0 ∉ l

section

variable {before after : List (List UInt8)} {u v : List UInt8}

theorem History.remembers (has : s.Has lineSize histSize before after) :
    s.Remembers (before ++ after) := by
  obtain ⟨hstored, hlines, -, -⟩ := has.spelled
  exact ⟨hstored, fun l hl => (hlines l hl).2.1⟩

/-- The longest suffix that leaves room for a line is what is left without the fewest
oldest lines. -/
theorem drop_of_longest {lines kept : List (List UInt8)} {line : List UInt8}
    (hkept : kept <:+ lines)
    (hlongest : ∀ kept', kept' <:+ lines →
      line.length + 1 + (encode kept').length ≤ histSize → kept' <:+ kept) :
    ∃ n ≤ lines.length, kept = lines.drop n ∧
      ∀ m < n, histSize < (encode (lines.drop m ++ [line])).length := by
  have hle := hkept.length_le
  refine ⟨lines.length - kept.length, Nat.sub_le _ _, List.suffix_iff_eq_drop.mp hkept,
    fun m hm => ?_⟩
  by_contra hfits
  have hsum : (encode (lines.drop m ++ [line])).length =
      line.length + 1 + (encode (lines.drop m)).length := by
    simp only [encode_append, encode_cons, encode_nil, List.length_append, List.length_cons,
      List.length_nil]
    omega
  have hlonger := (hlongest (lines.drop m) (List.drop_suffix m lines) (by omega)).length_le
  rw [List.length_drop] at hlonger
  omega

/-- A line goes behind the lines that have room with it. -/
theorem histIns_end {buf line junk : List UInt8} {lines : List (List UInt8)}
    (has : s.Has lineSize histSize lines []) (hbuf : buf = line ++ 0 :: junk)
    (hline : LineOk lineSize line) (hsize : line.length + 1 ≤ histSize) :
    ∃ s' kept, histIns histSize buf s = some s' ∧ s'.ttyBuf = s.ttyBuf ∧
      s'.Remembers (kept ++ [line]) ∧ kept <:+ lines ∧
      ∀ kept', kept' <:+ lines → line.length + 1 + (encode kept').length ≤ histSize →
        kept' <:+ kept := by
  obtain ⟨b, e, i, kept, after', hins, hhas, hkept, hafter, hlongest⟩ :=
    histIns_spec has hbuf hline hsize
  obtain rfl := List.suffix_nil.mp hafter
  rw [List.append_nil, List.append_nil] at hlongest
  exact ⟨_, kept, hins, rfl, hhas.remembers, hkept, hlongest⟩

theorem appendLine_changed (rep : Rep lineSize histSize s before after u v)
    (hsize : lineSize ≤ histSize) {junk : List UInt8} (hbuf : s.ttyBuf = u ++ v ++ 0 :: junk)
    (hne : s.ttyLen ≠ 0) (hchanged : s.changed = true) :
    ∃ s' n, appendLine histSize s = some s' ∧ s'.ttyBuf = s.ttyBuf ∧
      n ≤ (before ++ after).length ∧ s'.Remembers ((before ++ after).drop n ++ [u ++ v]) ∧
      ∀ m < n, histSize < (encode ((before ++ after).drop m ++ [u ++ v])).length := by
  have hline := rep.toBuffers.lineOk hne
  have hlt := hline.length_lt
  obtain ⟨s', kept, hins, htty, hremembers, hkept, hlongest⟩ :=
    histIns_end (s := { s with histIdx := s.histEnd }) rep.has.toEnd hbuf hline (by omega)
  obtain ⟨n, hn, rfl, hfewest⟩ := drop_of_longest hkept hlongest
  have hkeep : dropOriginal s = some s := if_neg (by simp [hchanged])
  refine ⟨s', n, ?_, htty, hn, hremembers, hfewest⟩
  simp only [appendLine, if_pos hne, hkeep, Option.bind_eq_bind, Option.bind_some]
  exact hins

/-- The line that is taken out of the history leaves room for itself. -/
theorem appendLine_unchanged (rep : Rep lineSize histSize s before after u v)
    (hsize : lineSize ≤ histSize) {junk : List UInt8} (hbuf : s.ttyBuf = u ++ v ++ 0 :: junk)
    (hne : s.ttyLen ≠ 0) (hchanged : s.changed = false) :
    ∃ s' after', appendLine histSize s = some s' ∧ s'.ttyBuf = s.ttyBuf ∧
      after = (u ++ v) :: after' ∧ s'.Remembers (before ++ after' ++ [u ++ v]) := by
  have hline := rep.toBuffers.lineOk hne
  have hlt := hline.length_lt
  have hrecalled := rep.recalled hchanged hline.nonempty
  obtain ⟨after', rfl⟩ : ∃ after', after = (u ++ v) :: after' := by
    cases after with
    | nil => cases hrecalled
    | cons l after' => exact ⟨after', by rw [Option.some.inj hrecalled]⟩
  obtain ⟨b, e, hdel, hhas⟩ := histDel_spec rep.has
  obtain ⟨s', kept, hins, htty, hremembers, hkept, hlongest⟩ :=
    histIns_end (s := { s with histbuf := b, histEnd := e, histIdx := e }) hhas.toEnd hbuf hline
      (by omega)
  have hfits : (u ++ v).length + 1 + (encode (before ++ after')).length ≤ histSize := by
    have hend := rep.has.end_eq
    have hle := rep.has.end_le
    simp only [encode_append, encode_cons, List.length_append, List.length_cons] at hend ⊢
    omega
  have hall := hlongest (before ++ after') List.suffix_rfl hfits
  obtain rfl := hkept.eq_of_length (Nat.le_antisymm hkept.length_le hall.length_le)
  have hdrop : dropOriginal s = some { s with histbuf := b, histEnd := e } := by
    rw [dropOriginal, if_pos (by simp [hchanged]), hdel]
    rfl
  refine ⟨s', after', ?_, htty, rfl, hremembers⟩
  simp only [appendLine, if_pos hne, hdrop, Option.bind_eq_bind, Option.bind_some]
  exact hins

/-- The callback gets the line, whatever happens to the history. -/
theorem enter_of_append {junk : List UInt8} {s₁ : Editor} (edits : s.Edits lineSize u v)
    (hterm : terminate { s with ttyCur := s.ttyLen } =
      some { s with ttyCur := s.ttyLen, ttyBuf := u ++ v ++ 0 :: junk })
    (happend : appendLine histSize { s with ttyCur := s.ttyLen, ttyBuf := u ++ v ++ 0 :: junk } =
      some s₁) (htty : s₁.ttyBuf = u ++ v ++ 0 :: junk) :
    enter histSize s =
      some (.entered s.line { s₁ with histIdx := s₁.histEnd, changed := false }) := by
  have hlen : Bytes.strlenAt s₁.ttyBuf 0 = some (u ++ v).length := by
    rw [htty]
    exact Bytes.strlenAt_append [] edits.no_nul junk
  have hentered : s₁.ttyBuf.take (u ++ v).length = s.line := by
    rw [htty, List.take_left, edits.editor_line]
  simp only [enter, (toEnd_spec edits).1, hterm, happend, hlen, hentered, Option.bind_eq_bind,
    Option.bind_some]
  rfl

theorem promptChar_enter {handled : Handled} (commands : Commands) {ch : UInt8}
    (hch : ch = 13 ∨ ch = 10) (hmode : s.mode = 0)
    (henter : enter histSize { s with tabCount := s.tabCount - 1 } = some handled) :
    promptChar lineSize histSize commands ch s = some handled := by
  rw [← henter]
  rcases hch with rfl | rfl <;> simp [promptChar, hmode, normalChar]

end

/-- In every state of a run with a line to enter, CR or LF hands that line to the callback
and the end of the history becomes current.  A line that was typed or edited goes behind the
history without the fewest oldest lines that leave room for it.  A line that was recalled and
not touched since is the current one of the history and moves to its end; no line is lost. -/
theorem run_enter (hline : 0 < lineSize) (hsize : lineSize ≤ histSize)
    (run : Run lineSize histSize true s) (hmode : s.mode = 0) (hne : s.ttyLen ≠ 0)
    (commands : Commands) (ch : UInt8) (hch : ch = 13 ∨ ch = 10) :
    ∃ s' lines k, promptChar lineSize histSize commands ch s = some (.entered s.line s') ∧
      s.Remembers lines ∧ k ≤ lines.length ∧ s.histIdx = (encode (lines.take k)).length ∧
      s'.histIdx = s'.histEnd ∧
      (∃ recalled, Tracked lineSize histSize recalled s) ∧
      (Tracked lineSize histSize false s → ∃ n ≤ lines.length,
        s'.Remembers (lines.drop n ++ [s.line]) ∧
          ∀ m < n, histSize < (encode (lines.drop m ++ [s.line])).length) ∧
      (Tracked lineSize histSize true s → lines[k]? = some s.line ∧
        s'.Remembers (lines.eraseIdx k ++ [s.line])) := by
  obtain ⟨before, after, u, v, hrep⟩ := (run.buffers hline hsize).2 rfl
  have hkey : Rep lineSize histSize { s with tabCount := s.tabCount - 1 } before after u v :=
    ⟨⟨hrep.has, hrep.edits⟩, hrep.recalled⟩
  have hend := toEnd_rep hkey
  obtain ⟨junk, hterm, hstring⟩ := hend.terminate
  rw [List.append_nil] at hterm hstring
  obtain ⟨-, -, hle, hidx⟩ := hrep.has.spelled
  have hline' : s.line = u ++ v := hrep.edits.editor_line
  have hflag {recalled : Bool} (tracked : Tracked lineSize histSize recalled s) :=
    tracked.unchanged hline hsize hne
  have henter {s₁ : Editor} (happend : appendLine histSize { s with
      tabCount := s.tabCount - 1, ttyCur := s.ttyLen, ttyBuf := u ++ v ++ 0 :: junk } = some s₁)
      (htty : s₁.ttyBuf = u ++ v ++ 0 :: junk) :
      promptChar lineSize histSize commands ch s =
        some (.entered s.line { s₁ with histIdx := s₁.histEnd, changed := false }) :=
    promptChar_enter commands hch hmode (enter_of_append hkey.edits hterm happend htty)
  cases hchanged : s.changed with
  | true =>
      obtain ⟨s₁, n, happend, htty, hn, hnew, hfewest⟩ :=
        appendLine_changed hstring hsize (by rw [List.append_nil]) hne hchanged
      refine ⟨_, before ++ after, before.length, henter happend htty, hrep.has.remembers, hle,
        hidx, rfl, run.tracked, fun _ => ?_, fun htracked => ?_⟩
      · rw [List.append_nil] at hnew hfewest
        rw [hline']
        exact ⟨n, hn, hnew, hfewest⟩
      · rw [hchanged] at hflag
        cases (hflag htracked).mp rfl
  | false =>
      obtain ⟨s₁, after', happend, htty, hafter, hnew⟩ :=
        appendLine_unchanged hstring hsize (by rw [List.append_nil]) hne hchanged
      refine ⟨_, before ++ after, before.length, henter happend htty, hrep.has.remembers, hle,
        hidx, rfl, run.tracked, fun htracked => ?_, fun _ => ?_⟩
      · rw [hchanged] at hflag
        cases (hflag htracked).mpr rfl
      · rw [List.append_nil] at hafter hnew
        rw [hline', hafter]
        refine ⟨by simp, ?_⟩
        have herase : (before ++ (u ++ v) :: after').eraseIdx before.length = before ++ after' := by
          simp [List.eraseIdx_append_of_length_le]
        rw [herase]
        exact hnew

/-- The older one of two lines, recalled and entered. -/
theorem run_enter_recalled :
    ∃ s s' lines k, Run 4 8 true s ∧ s.Remembers lines ∧
      promptChar 4 8 ⟨[], false⟩ 13 s = some (.entered [65] s') ∧ lines[k]? = some [65] ∧
      s'.Remembers (lines.eraseIdx k ++ [[65]]) := by
  have hboot : Run 4 8 false _ := .boot
  have hfirst := hboot.nkReadline.entered ⟨[], false⟩ [65, 13] rfl
  have hsecond := hfirst.nkReadline.entered ⟨[], false⟩ [66, 13] rfl
  have htracked : Tracked 4 8 true _ :=
    ((Tracked.start hsecond).key ⟨[], false⟩ 16 rfl).key ⟨[], false⟩ 16 rfl
  obtain ⟨s', lines, k, hentered, hremembers, -, -, -, -, -, hrecalled⟩ :=
    run_enter (by decide) (by decide) htracked.run rfl (by decide) ⟨[], false⟩ 13 (Or.inl rfl)
  exact ⟨_, s', lines, k, htracked.run, hremembers, hentered, hrecalled htracked⟩

end LibnklabsPico.Readline
