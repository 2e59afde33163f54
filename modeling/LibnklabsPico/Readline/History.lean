/-
  Readline/History.lean --- the history buffer as a list of lines.

  `History` splits the lines in the buffer at `hist_idx`: the current line is the
  first one behind the split.  Each operation on the buffer is one on the two
  lists of lines, and leaves the edit buffer alone.
-/
import LibnklabsPico.Readline.Nkreadline
import Mathlib.Data.List.Induction

set_option autoImplicit false

namespace LibnklabsPico.Readline

open LibnklabsPico.Foundation

/-- Lines as they are kept in the history buffer. -/
def encode (lines : List (List UInt8)) : List UInt8 := lines.flatMap fun l => l ++ [0]

@[simp] theorem encode_nil : encode [] = [] := rfl

@[simp] theorem encode_cons (l : List UInt8) (lines : List (List UInt8)) :
    encode (l :: lines) = l ++ 0 :: encode lines := by
  simp [encode]

@[simp] theorem encode_append (lines lines' : List (List UInt8)) :
    encode (lines ++ lines') = encode lines ++ encode lines' := by
  simp [encode]

/-- A line that may be in the history. -/
structure LineOk (lineSize : Nat) (l : List UInt8) : Prop where
  nonempty : l ≠ []
  no_nul : 0 ∉ l
  length_lt : l.length < lineSize

/-- The history buffer, its end and the current index, as the lines before the
current one and those from it on. -/
structure History (lineSize histSize : Nat) (histbuf : List UInt8) (histEnd histIdx : Nat)
    (before after : List (List UInt8)) : Prop where
  stored : ∃ rest, histbuf = encode before ++ (encode after ++ rest)
  size_eq : histbuf.length = histSize
  end_eq : histEnd = (encode before).length + (encode after).length
  idx_eq : histIdx = (encode before).length
  lines : ∀ l ∈ before ++ after, LineOk lineSize l

@[simp] theorem sizeSub_add (m n : Nat) : sizeSub (m + n) m = some n := by
  simp [sizeSub]

/-- Bytes behind `pre` move to `dst`; no bytes need not move. -/
theorem moveTail_spec (cond : Bool) (dst last : Nat) {b : List UInt8} {src : Nat}
    (pre data rest : List UInt8) (hb : b = pre ++ (data ++ rest)) (hsrc : src = pre.length)
    (hlast : last = src + data.length) (hroom : dst + data.length ≤ b.length)
    (hcond : cond = false → data = []) :
    moveTail cond b dst src last = some (b.take dst ++ (data ++ b.drop (dst + data.length))) := by
  cases hcase : cond with
  | true =>
      have hslice := Bytes.slice_append pre data rest
      rw [← hb, ← hsrc] at hslice
      rw [moveTail, if_pos rfl, hlast]
      simp [Bytes.memmove, hslice, Bytes.copyIn, hroom]
  | false =>
      rw [hcond hcase]
      simp [moveTail]

section Operations

variable {lineSize histSize histEnd histIdx : Nat} {histbuf : List UInt8}
  {before after : List (List UInt8)} {l : List UInt8} {s : Editor}

/-- The history of an editor. -/
abbrev Editor.Has (s : Editor) (lineSize histSize : Nat) (before after : List (List UInt8)) :
    Prop :=
  History lineSize histSize s.histbuf s.histEnd s.histIdx before after

namespace History

theorem at_end (history : History lineSize histSize histbuf histEnd histIdx before after) :
    histIdx = histEnd ↔ after = [] := by
  rw [history.idx_eq, history.end_eq]
  cases after with
  | nil => simp
  | cons l after => simp

theorem at_start (history : History lineSize histSize histbuf histEnd histIdx before after) :
    histIdx = 0 ↔ before = [] := by
  rw [history.idx_eq]
  cases before with
  | nil => simp
  | cons l before => simp

theorem end_le (history : History lineSize histSize histbuf histEnd histIdx before after) :
    histEnd ≤ histSize := by
  obtain ⟨rest, hstored⟩ := history.stored
  rw [← history.size_eq, hstored, history.end_eq]
  simp only [List.length_append]
  omega

/-- The length of the current line can be read. -/
theorem strlenAt
    (history : History lineSize histSize histbuf histEnd histIdx before (l :: after)) :
    Bytes.strlenAt histbuf histIdx = some l.length := by
  obtain ⟨rest, hstored⟩ := history.stored
  rw [hstored, history.idx_eq, encode_cons, List.append_assoc, List.cons_append]
  exact Bytes.strlenAt_append _ (history.lines l (by simp)).no_nul _

/-- The current line becomes one of the lines before. -/
theorem forward
    (history : History lineSize histSize histbuf histEnd histIdx before (l :: after)) :
    History lineSize histSize histbuf histEnd (histIdx + l.length + 1) (before ++ [l]) after := by
  obtain ⟨rest, hstored⟩ := history.stored
  refine ⟨⟨rest, ?_⟩, history.size_eq, ?_, ?_, ?_⟩
  · rw [hstored]
    simp
  · rw [history.end_eq]
    simp only [encode_append, encode_cons, encode_nil, List.length_append, List.length_cons,
      List.length_nil]
    omega
  · rw [history.idx_eq]
    simp only [encode_append, encode_cons, encode_nil, List.length_append, List.length_cons,
      List.length_nil]
    omega
  · simpa using history.lines

/-- The last one of the lines before becomes the current line. -/
theorem backward
    (history : History lineSize histSize histbuf histEnd histIdx (before ++ [l]) after) :
    History lineSize histSize histbuf histEnd (encode before).length before (l :: after) := by
  obtain ⟨rest, hstored⟩ := history.stored
  refine ⟨⟨rest, ?_⟩, history.size_eq, ?_, rfl, ?_⟩
  · rw [hstored]
    simp
  · rw [history.end_eq]
    simp only [encode_append, encode_cons, encode_nil, List.length_append, List.length_cons,
      List.length_nil]
    omega
  · simpa using history.lines

/-- The end of the history becomes current. -/
theorem toEnd (history : History lineSize histSize histbuf histEnd histIdx before after) :
    History lineSize histSize histbuf histEnd histEnd (before ++ after) [] := by
  obtain ⟨rest, hstored⟩ := history.stored
  refine ⟨⟨rest, ?_⟩, history.size_eq, ?_, ?_, ?_⟩
  · rw [hstored]
    simp
  · rw [history.end_eq]
    simp
  · rw [history.end_eq]
    simp
  · simpa using history.lines

/-- The start of the history becomes current. -/
theorem toStart (history : History lineSize histSize histbuf histEnd histIdx before after) :
    History lineSize histSize histbuf histEnd 0 [] (before ++ after) := by
  obtain ⟨rest, hstored⟩ := history.stored
  refine ⟨⟨rest, ?_⟩, history.size_eq, ?_, rfl, history.lines⟩
  · rw [hstored]
    simp
  · rw [history.end_eq]
    simp

/-- Any split of the lines can become current. -/
theorem split {lines : List (List UInt8)}
    (history : History lineSize histSize histbuf histEnd 0 [] lines)
    (h : lines = before ++ after) :
    History lineSize histSize histbuf histEnd (encode before).length before after := by
  obtain ⟨rest, hstored⟩ := history.stored
  refine ⟨⟨rest, ?_⟩, history.size_eq, ?_, rfl, ?_⟩
  · rw [hstored, h]
    simp
  · rw [history.end_eq, h]
    simp
  · simpa [h] using history.lines

/-- The buffer up to its end is the lines, and the index is the start of one of
them or the end. -/
theorem spelled (history : History lineSize histSize histbuf histEnd histIdx before after) :
    histbuf.take histEnd = encode (before ++ after) ∧
      (∀ l ∈ before ++ after, l ≠ [] ∧ 0 ∉ l ∧ l.length < lineSize) ∧
      before.length ≤ (before ++ after).length ∧
      histIdx = (encode ((before ++ after).take before.length)).length := by
  obtain ⟨rest, hstored⟩ := history.stored
  refine ⟨?_, ?_, by simp, ?_⟩
  · rw [hstored, history.end_eq, ← List.append_assoc, ← List.length_append, List.take_left,
      encode_append]
  · intro l hl
    have hline := history.lines l hl
    exact ⟨hline.nonempty, hline.no_nul, hline.length_lt⟩
  · rw [List.take_left, history.idx_eq]

end History

/-! ## Moving -/

/-- The scan goes back over a line to its start. -/
theorem scanBack_append (before : List (List UInt8)) {l : List UInt8} (hl : 0 ∉ l)
    (rest : List UInt8) :
    scanBack (encode before ++ (l ++ rest)) ((encode before).length + l.length) =
      some (encode before).length := by
  induction l using List.reverseRecOn generalizing rest with
  | nil =>
      rcases List.eq_nil_or_concat before with rfl | ⟨before', last, rfl⟩
      · rfl
      · -- the byte before the start of the line is the NUL of the line before
        have hlen : (encode (before' ++ [last])).length =
            (encode before').length + last.length + 1 := by
          simp only [encode_append, encode_cons, encode_nil, List.length_append,
            List.length_cons, List.length_nil]
          omega
        have hnul : (encode (before' ++ [last]) ++ ([] ++ rest))[(encode before').length +
            last.length]? = some 0 := by
          rw [encode_append, encode_cons, encode_nil, List.append_assoc,
            List.getElem?_append_right (Nat.le_add_right _ _), Nat.add_sub_cancel_left,
            List.append_assoc, List.getElem?_append_right (Nat.le_refl _), Nat.sub_self]
          rfl
        rw [List.concat_eq_append, List.length_nil, Nat.add_zero, hlen, scanBack, hnul]
        simp
  | append_singleton l c ih =>
      have hc : c ≠ 0 := fun h => hl (by simp [h])
      have hget : (encode before ++ (l ++ [c] ++ rest))[(encode before).length + l.length]? =
          some c := by
        rw [List.getElem?_append_right (Nat.le_add_right _ _), Nat.add_sub_cancel_left,
          List.append_assoc, List.getElem?_append_right (Nat.le_refl _), Nat.sub_self]
        rfl
      rw [List.length_append, List.length_singleton, ← Nat.add_assoc, scanBack, hget]
      simp only [Option.bind_eq_bind, Option.bind_some, if_pos hc]
      rw [List.append_assoc]
      exact ih (fun h => hl (by simp [h])) _

theorem histPrev_spec (has : s.Has lineSize histSize before after) :
    (before = [] ∧ histPrev s = some (false, s)) ∨
      ∃ b l idx, before = b ++ [l] ∧ histPrev s = some (true, { s with histIdx := idx }) ∧
        ({ s with histIdx := idx } : Editor).Has lineSize histSize b (l :: after) := by
  rcases List.eq_nil_or_concat before with rfl | ⟨b, l, rfl⟩
  · have hidx := has.at_start.mpr rfl
    refine Or.inl ⟨rfl, ?_⟩
    simp [histPrev, hidx]
  · rw [List.concat_eq_append] at has ⊢
    refine Or.inr ⟨b, l, (encode b).length, rfl, ?_, has.backward⟩
    obtain ⟨rest, hstored⟩ := has.stored
    have hidx : s.histIdx = (encode b).length + l.length + 1 := by
      rw [has.idx_eq]
      simp only [encode_append, encode_cons, encode_nil, List.length_append, List.length_cons,
        List.length_nil]
      omega
    have hbuf : s.histbuf = encode b ++ (l ++ 0 :: (encode after ++ rest)) := by
      rw [hstored]
      simp
    simp only [histPrev, hidx, hbuf]
    rw [scanBack_append b (has.lines l (by simp)).no_nul]
    rfl

theorem histNext_spec (has : s.Has lineSize histSize before after) :
    (after = [] ∧ histNext s = some (false, s)) ∨
      ∃ l a found idx, after = l :: a ∧
        histNext s = some (found, { s with histIdx := idx }) ∧
        ({ s with histIdx := idx } : Editor).Has lineSize histSize (before ++ [l]) a := by
  cases after with
  | nil => exact Or.inl ⟨rfl, if_pos (has.at_end.mpr rfl)⟩
  | cons l a =>
      have hmore : ¬ s.histIdx = s.histEnd := fun h => by simpa using has.at_end.mp h
      refine Or.inr ⟨l, a, decide (s.histIdx + l.length + 1 ≠ s.histEnd),
        s.histIdx + l.length + 1, rfl, ?_, has.forward⟩
      simp only [histNext, if_neg hmore, has.strlenAt, Option.bind_eq_bind, Option.bind_some]
      rfl

/-! ## Deleting -/

theorem histDel_spec (has : s.Has lineSize histSize before (l :: after)) :
    ∃ histbuf histEnd, histDel s =
        some (l.length + 1, { s with histbuf := histbuf, histEnd := histEnd }) ∧
      ({ s with histbuf := histbuf, histEnd := histEnd } : Editor).Has lineSize histSize
        before after := by
  obtain ⟨rest, hstored⟩ := has.stored
  have hmore : s.histIdx ≠ s.histEnd := fun h => by simpa using has.at_end.mp h
  have hidx := has.idx_eq
  have hend : s.histEnd = (s.histIdx + (l.length + 1)) + (encode after).length := by
    rw [has.end_eq, hidx, encode_cons]
    simp only [List.length_append, List.length_cons]
    omega
  have hend' : s.histEnd = (l.length + 1) + (s.histIdx + (encode after).length) := by omega
  -- the bytes behind the line move over it
  have hmove : moveTail ((encode after).length != 0) s.histbuf s.histIdx
      (s.histIdx + (l.length + 1)) s.histEnd = some (encode before ++ (encode after ++
        ((l ++ 0 :: (encode after ++ rest)).drop (encode after).length))) := by
    rw [moveTail_spec _ _ _ (encode before ++ (l ++ [0])) (encode after) rest
      (by rw [hstored]; simp) (by rw [hidx]; simp) hend (by
        rw [hstored, hidx]
        simp only [encode_cons, List.length_append, List.length_cons]
        omega) (by simp), hstored, hidx]
    simp
  refine ⟨encode before ++ (encode after ++
      ((l ++ 0 :: (encode after ++ rest)).drop (encode after).length)),
    s.histIdx + (encode after).length, ?_, ⟨⟨_, rfl⟩, ?_, ?_, hidx, ?_⟩⟩
  · have hbehind : sizeSub s.histEnd (s.histIdx + (l.length + 1)) =
        some (encode after).length := by
      rw [hend, sizeSub_add]
    have hleft : sizeSub s.histEnd (l.length + 1) =
        some (s.histIdx + (encode after).length) := by
      rw [hend', sizeSub_add]
    simp only [histDel, if_pos hmore, has.strlenAt, Option.bind_eq_bind, Option.bind_some,
      hbehind, hmove, hleft]
    rfl
  · rw [← has.size_eq, hstored]
    simp only [encode_cons, List.length_append, List.length_drop, List.length_cons]
    omega
  · rw [hidx]
  · exact fun l' hl' => has.lines l' (by simp at hl' ⊢; tauto)

/-! ## Inserting -/

/-- Oldest lines are deleted until the new one fits, and no more; the remembered index
stays on its line, or ends up at the start when that line is deleted too. -/
theorem makeRoom_spec {len fuel : Nat} {pre post : List (List UInt8)}
    (has : s.Has lineSize histSize [] (pre ++ post)) (hlen : len ≤ histSize)
    (hfuel : s.histEnd < fuel) :
    ∃ histbuf histEnd pre' post', makeRoom histSize len fuel (encode pre).length s =
        some ((encode pre').length, { s with histbuf := histbuf, histEnd := histEnd }) ∧
      ({ s with histbuf := histbuf, histEnd := histEnd } : Editor).Has lineSize histSize []
        (pre' ++ post') ∧
      pre' <:+ pre ∧ post' <:+ post ∧ len + histEnd ≤ histSize ∧
      ∀ kept, kept <:+ pre ++ post → len + (encode kept).length ≤ histSize →
        kept <:+ pre' ++ post' := by
  induction fuel generalizing s pre post with
  | zero => omega
  | succ fuel ih =>
      by_cases hfull : len + s.histEnd > histSize
      · -- the oldest line is the first one before the index or, when there is
        -- none, the first one behind it
        obtain ⟨l, pre₁, post₁, hlines, hpre, hpost, hshift⟩ :
            ∃ l pre₁ post₁, pre ++ post = l :: (pre₁ ++ post₁) ∧ pre₁ <:+ pre ∧
              post₁ <:+ post ∧
              shiftIdx (encode pre).length (l.length + 1) = some (encode pre₁).length := by
          cases pre with
          | cons l pre =>
              refine ⟨l, pre, post, rfl, List.suffix_cons l pre, List.suffix_rfl, ?_⟩
              have hsum : (encode (l :: pre)).length = (l.length + 1) + (encode pre).length := by
                simp only [encode_cons, List.length_append, List.length_cons]
                omega
              rw [shiftIdx, if_pos (by omega), hsum, sizeSub_add]
          | nil =>
              cases post with
              | nil =>
                  have hend := has.end_eq
                  simp only [List.nil_append, encode_nil, List.length_nil] at hend
                  omega
              | cons l post =>
                  exact ⟨l, [], post, rfl, List.suffix_rfl, List.suffix_cons l post, rfl⟩
        have hwhole : s.histEnd = (encode (pre ++ post)).length := by
          rw [has.end_eq, encode_nil, List.length_nil, Nat.zero_add]
        rw [hlines] at has hwhole ⊢
        obtain ⟨histbuf, histEnd, hdel, has'⟩ := histDel_spec has
        have hend : histEnd < fuel := by
          have hend := has.end_eq
          have hend' := has'.end_eq
          simp only [encode_cons, encode_nil, List.length_append, List.length_cons,
            List.length_nil] at hend hend'
          omega
        obtain ⟨histbuf', histEnd', pre', post', hroom, has'', hpre', hpost', hfits, hlongest⟩ :=
          ih has' hend
        refine ⟨histbuf', histEnd', pre', post', ?_, has'', hpre'.trans hpre,
          hpost'.trans hpost, hfits, fun kept hkept hroom => ?_⟩
        · simp only [makeRoom, if_pos hfull, hdel, Option.bind_eq_bind, Option.bind_some, hshift]
          exact hroom
        · rcases List.suffix_cons_iff.mp hkept with rfl | hkept
          · omega
          · exact hlongest kept hkept hroom
      · refine ⟨s.histbuf, s.histEnd, pre, post, ?_, has, List.suffix_rfl, List.suffix_rfl,
          by omega, fun kept hkept _ => hkept⟩
        simp only [makeRoom, if_neg hfull]

/-- The new line is put in front of the current one and becomes the current
line. -/
theorem histIns_spec {buf line junk : List UInt8}
    (has : s.Has lineSize histSize before after) (hbuf : buf = line ++ 0 :: junk)
    (hline : LineOk lineSize line) (hsize : line.length + 1 ≤ histSize) :
    ∃ histbuf histEnd histIdx before' after', histIns histSize buf s =
        some { s with histbuf := histbuf, histEnd := histEnd, histIdx := histIdx } ∧
      ({ s with histbuf := histbuf, histEnd := histEnd, histIdx := histIdx } : Editor).Has
        lineSize histSize before' (line :: after') ∧
      before' <:+ before ∧ after' <:+ after ∧
      ∀ kept, kept <:+ before ++ after → line.length + 1 + (encode kept).length ≤ histSize →
        kept <:+ before' ++ after' := by
  have hlen : Bytes.strlenAt buf 0 = some line.length := by
    have h := Bytes.strlenAt_append [] hline.no_nul junk
    rwa [List.nil_append, ← hbuf] at h
  have hslice : Bytes.slice buf 0 (line.length + 1) = some (line ++ [0]) := by
    have h := Bytes.slice_append [] (line ++ [0]) junk
    simpa [hbuf] using h
  obtain ⟨b₁, e₁, pre', post', hroom, has₁, hpre, hpost, hfits, hlongest⟩ :=
    makeRoom_spec (s := { s with histIdx := 0 }) has.toStart hsize (Nat.lt_succ_self _)
  have hsplit := has₁.split rfl
  obtain ⟨rest, hstored⟩ := hsplit.stored
  have hend := hsplit.end_eq
  have hb₁ : b₁.length = histSize := hsplit.size_eq
  simp only at hstored hend
  -- the lines from the index on make space for the new one
  obtain ⟨gap, tail, hgap, htail, hmove⟩ : ∃ gap tail : List UInt8,
      gap.length = line.length + 1 ∧ (encode pre').length + (gap.length +
        ((encode post').length + tail.length)) = histSize ∧
      moveTail ((encode pre').length != e₁) b₁ ((encode pre').length + (line.length + 1))
        (encode pre').length e₁ = some (encode pre' ++ (gap ++ (encode post' ++ tail))) := by
    have hlength := congrArg List.length hstored
    simp only [List.length_append] at hlength
    refine ⟨(encode post' ++ rest).take (line.length + 1),
      b₁.drop ((encode pre').length + (line.length + 1) + (encode post').length), ?_, ?_, ?_⟩
    · simp only [List.length_take, List.length_append]
      omega
    · simp only [List.length_take, List.length_append, List.length_drop]
      omega
    · rw [moveTail_spec _ _ _ (encode pre') (encode post') rest hstored rfl hend (by omega) (by
        intro hcond
        have hnone : (encode pre').length = e₁ := by simpa using hcond
        exact List.length_eq_zero_iff.mp (by omega)), ← List.append_assoc (encode pre')]
      congr 2
      rw [hstored, List.take_length_add_append]
  have hcopy := Bytes.copyIn_append (encode pre') (line ++ [0]) (gap ++ (encode post' ++ tail))
    (by simp only [List.length_append, List.length_singleton]; omega)
  have hdrop : (gap ++ (encode post' ++ tail)).drop (line ++ [0]).length =
      encode post' ++ tail :=
    List.drop_left' (by rw [hgap, List.length_append, List.length_singleton])
  rw [hdrop] at hcopy
  refine ⟨encode pre' ++ ((line ++ [0]) ++ (encode post' ++ tail)), e₁ + (line.length + 1),
    (encode pre').length, pre', post', ?_, ⟨⟨tail, ?_⟩, ?_, ?_, rfl, ?_⟩, hpre, hpost, hlongest⟩
  · simp only [histIns, hlen, Option.bind_eq_bind, Option.bind_some, has.idx_eq, hroom, hmove,
      hslice, hcopy]
    rfl
  · simp
  · simp only [List.length_append, List.length_singleton]
    omega
  · simp only [encode_cons, List.length_append, List.length_cons, hend]
    omega
  · intro l hl
    simp only [List.mem_append, List.mem_cons] at hl
    rcases hl with hl | rfl | hl
    · exact hsplit.lines l (by simp [hl])
    · exact hline
    · exact hsplit.lines l (by simp [hl])

end Operations

end LibnklabsPico.Readline
