/-
  Readline/LineEdit.lean --- the edit buffer as a line with a cursor.

  `Line` splits the edit line at the cursor.  Each editing operation is one on
  the two parts and leaves the history alone.
-/
import LibnklabsPico.Readline.History

set_option autoImplicit false

namespace LibnklabsPico.Readline

open LibnklabsPico.Foundation

/-- The edit buffer, its length and the cursor, as the characters before and
behind the cursor. -/
structure Line (lineSize : Nat) (ttyBuf : List UInt8) (ttyLen ttyCur : Nat)
    (u v : List UInt8) : Prop where
  stored : ∃ rest, ttyBuf = u ++ (v ++ rest)
  size_eq : ttyBuf.length = lineSize
  len_eq : ttyLen = u.length + v.length
  cur_eq : ttyCur = u.length
  len_lt : u.length + v.length < lineSize
  no_nul : 0 ∉ u ++ v

/-- The edit line of an editor. -/
abbrev Editor.Edits (s : Editor) (lineSize : Nat) (u v : List UInt8) : Prop :=
  Line lineSize s.ttyBuf s.ttyLen s.ttyCur u v

/-- The edit line. -/
def Editor.line (s : Editor) : List UInt8 := s.ttyBuf.take s.ttyLen

section Operations

variable {lineSize histSize : Nat} {before after : List (List UInt8)} {l u v : List UInt8}
  {c : UInt8} {s : Editor}

theorem Line.nil {ttyBuf : List UInt8} (hsize : ttyBuf.length = lineSize) (hpos : 0 < lineSize) :
    Line lineSize ttyBuf 0 0 [] [] :=
  ⟨⟨ttyBuf, rfl⟩, hsize, rfl, rfl, hpos, by simp⟩

/-- The cursor moves within the line. -/
theorem Line.move {ttyBuf : List UInt8} {ttyLen ttyCur : Nat}
    (line : Line lineSize ttyBuf ttyLen ttyCur u v) (u' v' : List UInt8)
    (h : u' ++ v' = u ++ v) : Line lineSize ttyBuf ttyLen u'.length u' v' := by
  obtain ⟨rest, hstored⟩ := line.stored
  have hlen := congrArg List.length h
  simp only [List.length_append] at hlen
  refine ⟨⟨rest, ?_⟩, line.size_eq, ?_, rfl, ?_, h ▸ line.no_nul⟩
  · rw [hstored, ← List.append_assoc, ← h, List.append_assoc]
  · rw [line.len_eq, hlen]
  · rw [hlen]
    exact line.len_lt

/-- The bytes of the edit line. -/
theorem Line.take_eq {ttyBuf : List UInt8} {ttyLen ttyCur : Nat}
    (line : Line lineSize ttyBuf ttyLen ttyCur u v) : ttyBuf.take ttyLen = u ++ v := by
  obtain ⟨rest, hstored⟩ := line.stored
  rw [hstored, line.len_eq, ← List.append_assoc, ← List.length_append, List.take_left]

theorem Line.editor_line (edits : s.Edits lineSize u v) : s.line = u ++ v := edits.take_eq

theorem Line.line_length (edits : s.Edits lineSize u v) : s.line.length = s.ttyLen := by
  rw [edits.editor_line, List.length_append, edits.len_eq]

/-- What can be sent to the terminal is in the edit buffer. -/
theorem echo_spec {first last : Nat} (hle : first ≤ last) (hlast : last ≤ s.ttyBuf.length) :
    echo first last s = some () := by
  have hsub : sizeSub last first = some (last - first) := if_pos hle
  have hslice : Bytes.slice s.ttyBuf first (last - first) =
      some ((s.ttyBuf.drop first).take (last - first)) := if_pos (by omega)
  simp only [echo, hsub, hslice, Option.bind_eq_bind, Option.bind_some]
  rfl

theorem toEnd_spec (edits : s.Edits lineSize u v) :
    toEnd s = some { s with ttyCur := s.ttyLen } ∧
      ({ s with ttyCur := s.ttyLen } : Editor).Edits lineSize (u ++ v) [] := by
  have hlen : s.ttyLen = (u ++ v).length := by
    rw [edits.len_eq, List.length_append]
  refine ⟨?_, ?_⟩
  · have hecho : echo s.ttyCur s.ttyLen s = some () := by
      refine echo_spec ?_ ?_
      · rw [edits.cur_eq, edits.len_eq]
        omega
      · rw [edits.size_eq, edits.len_eq]
        exact Nat.le_of_lt edits.len_lt
    simp only [toEnd, hecho, Option.bind_eq_bind, Option.bind_some]
    rfl
  · have hmove := edits.move (u ++ v) [] (List.append_nil _)
    rwa [← hlen] at hmove

theorem redraw_spec (edits : s.Edits lineSize u v) :
    redraw s = some { s with ttyCur := s.ttyLen } ∧
      ({ s with ttyCur := s.ttyLen } : Editor).Edits lineSize (u ++ v) [] := by
  have hstart : ({ s with ttyCur := 0 } : Editor).Edits lineSize [] (u ++ v) :=
    edits.move [] (u ++ v) rfl
  exact toEnd_spec (u := []) (v := u ++ v) hstart

theorem erase_spec (edits : s.Edits lineSize u v) :
    erase s = some { s with ttyCur := 0, ttyLen := 0 } ∧
      ({ s with ttyCur := 0, ttyLen := 0 } : Editor).Edits lineSize [] [] := by
  refine ⟨?_, .nil edits.size_eq (Nat.zero_lt_of_lt edits.len_lt)⟩
  simp only [erase, (toEnd_spec edits).1, Option.bind_eq_bind, Option.bind_some]
  rfl

/-- The edit line can be used as a string. -/
theorem terminate_spec (edits : s.Edits lineSize u v) :
    ∃ junk, terminate s = some { s with ttyBuf := u ++ v ++ 0 :: junk } ∧
      ({ s with ttyBuf := u ++ v ++ 0 :: junk } : Editor).Edits lineSize u v := by
  obtain ⟨rest, hstored⟩ := edits.stored
  have hsize := edits.size_eq
  have hlen : s.ttyLen = (u ++ v).length := by
    rw [edits.len_eq, List.length_append]
  cases rest with
  | nil =>
      have hlt := edits.len_lt
      rw [hstored] at hsize
      simp only [List.length_append, List.length_nil] at hsize
      omega
  | cons old junk =>
      have hstore := Bytes.store_append (u ++ v) old 0 junk
      rw [List.append_assoc, ← hstored, ← hlen] at hstore
      refine ⟨junk, ?_, ⟨0 :: junk, by simp⟩, ?_, edits.len_eq, edits.cur_eq, edits.len_lt,
        edits.no_nul⟩
      · simp only [terminate, hstore, Option.bind_eq_bind, Option.bind_some]
        rfl
      · rw [← hsize, hstored]
        simp

/-- A line of the history becomes the edit line, with the cursor behind it. -/
theorem recallLine_spec (has : s.Has lineSize histSize before (l :: after))
    (hsize : s.ttyBuf.length = lineSize) :
    ∃ ttyBuf, recallLine s =
        some { s with ttyBuf := ttyBuf, ttyLen := l.length, ttyCur := l.length } ∧
      ({ s with ttyBuf := ttyBuf, ttyLen := l.length, ttyCur := l.length } : Editor).Edits
        lineSize l [] := by
  have hline := has.lines l (by simp)
  have hlt := hline.length_lt
  obtain ⟨rest, hstored⟩ := has.stored
  have hslice : Bytes.slice s.histbuf s.histIdx (l.length + 1) = some (l ++ [0]) := by
    have h := Bytes.slice_append (encode before) (l ++ [0]) (encode after ++ rest)
    rw [hstored, has.idx_eq, encode_cons]
    simpa using h
  have hcopy : Bytes.copyIn s.ttyBuf 0 (l ++ [0]) =
      some (l ++ 0 :: s.ttyBuf.drop (l.length + 1)) := by
    have h := Bytes.copyIn_append [] (l ++ [0]) s.ttyBuf
      (by simp only [List.length_append, List.length_singleton]; omega)
    simpa using h
  have hlen : Bytes.strlenAt (l ++ 0 :: s.ttyBuf.drop (l.length + 1)) 0 = some l.length :=
    Bytes.strlenAt_append [] hline.no_nul _
  have hnew : ({ s with
      ttyBuf := l ++ 0 :: s.ttyBuf.drop (l.length + 1), ttyLen := l.length,
      ttyCur := l.length } : Editor).Edits lineSize l [] := by
    refine ⟨⟨0 :: s.ttyBuf.drop (l.length + 1), by simp⟩, ?_, rfl, rfl, hlt, ?_⟩
    · simp only [List.length_append, List.length_cons, List.length_drop]
      omega
    · simpa using hline.no_nul
  refine ⟨l ++ 0 :: s.ttyBuf.drop (l.length + 1), ?_, hnew⟩
  simp only [recallLine, has.strlenAt, hslice, hcopy, hlen, Option.bind_eq_bind, Option.bind_some]
  exact (redraw_spec hnew).1

/-! ## Editing -/

theorem curLeft_spec (edits : s.Edits lineSize u v) :
    ∃ cur u' v', curLeft s = { s with ttyCur := cur } ∧ u' ++ v' = u ++ v ∧
      ({ s with ttyCur := cur } : Editor).Edits lineSize u' v' := by
  rcases List.eq_nil_or_concat u with rfl | ⟨u', x, rfl⟩
  · have hzero : s.ttyCur = 0 := edits.cur_eq
    exact ⟨s.ttyCur, [], v, if_neg (not_not.mpr hzero), rfl, edits⟩
  · have hcur : s.ttyCur = u'.length + 1 := by
      rw [edits.cur_eq]
      simp
    have hline : u' ++ (x :: v) = u'.concat x ++ v := by simp
    refine ⟨u'.length, u', x :: v, ?_, hline, edits.move u' (x :: v) hline⟩
    simp [curLeft, hcur]

theorem curRight_spec (edits : s.Edits lineSize u v) :
    ∃ cur u' v', curRight s = some { s with ttyCur := cur } ∧ u' ++ v' = u ++ v ∧
      ({ s with ttyCur := cur } : Editor).Edits lineSize u' v' := by
  have hcur := edits.cur_eq
  have hlen := edits.len_eq
  cases v with
  | nil =>
      refine ⟨s.ttyCur, u, [], if_neg ?_, rfl, edits⟩
      rw [hcur, hlen]
      simp
  | cons x v =>
      have hline : (u ++ [x]) ++ v = u ++ x :: v := by simp
      have hcur' : s.ttyCur + 1 = (u ++ [x]).length := by
        rw [hcur]
        simp
      have hnew := edits.move (u ++ [x]) v hline
      have hlt := edits.len_lt
      rw [List.length_cons] at hlen hlt
      refine ⟨s.ttyCur + 1, u ++ [x], v, ?_, hline, hcur' ▸ hnew⟩
      have hecho : echo s.ttyCur (s.ttyCur + 1) s = some () :=
        echo_spec (Nat.le_succ _) (by rw [edits.size_eq]; omega)
      have hne : s.ttyCur ≠ s.ttyLen := by omega
      simp only [curRight, if_pos hne, hecho, Option.bind_eq_bind, Option.bind_some]
      rfl

/-- A character is typed at the cursor unless the line is full. -/
theorem typech_spec (edits : s.Edits lineSize u v) (hc : c ≠ 0) :
    s.ttyLen = lineSize - 1 ∧ typech lineSize c s = some s ∨
      ∃ ttyBuf, typech lineSize c s =
          some { s with
            ttyBuf := ttyBuf, ttyLen := s.ttyLen + 1, ttyCur := s.ttyCur + 1, changed := true } ∧
        ({ s with
          ttyBuf := ttyBuf, ttyLen := s.ttyLen + 1, ttyCur := s.ttyCur + 1,
          changed := true } : Editor).Edits lineSize (u ++ [c]) v := by
  obtain ⟨rest, hstored⟩ := edits.stored
  have hcur := edits.cur_eq
  have hlen := edits.len_eq
  have hlt := edits.len_lt
  have hsize := edits.size_eq
  by_cases hfull : s.ttyLen ≠ lineSize - 1
  · -- the characters behind the cursor move up
    obtain ⟨old, tail, hmove, htail⟩ : ∃ old tail,
        moveTail (s.ttyCur != s.ttyLen) s.ttyBuf (s.ttyCur + 1) s.ttyCur s.ttyLen =
          some (u ++ old :: (v ++ tail)) ∧
        u.length + (1 + (v.length + tail.length)) = lineSize := by
      have hroom : s.ttyCur + 1 + v.length ≤ s.ttyBuf.length := by omega
      have hspec := moveTail_spec (s.ttyCur != s.ttyLen) (s.ttyCur + 1) s.ttyLen u v rest
        hstored hcur (by omega) hroom (by
          intro hcond
          have hnone : s.ttyCur = s.ttyLen := by simpa using hcond
          exact List.length_eq_zero_iff.mp (by omega))
      obtain ⟨old, hold⟩ : ∃ old, (v ++ rest).take 1 = [old] := by
        have hlength := congrArg List.length hstored
        simp only [List.length_append] at hlength
        refine List.length_eq_one_iff.mp ?_
        simp only [List.length_take, List.length_append]
        omega
      refine ⟨old, s.ttyBuf.drop (s.ttyCur + 1 + v.length), ?_, ?_⟩
      · rw [hspec]
        have htake : s.ttyBuf.take (s.ttyCur + 1) = u ++ [old] := by
          rw [hstored, hcur, List.take_length_add_append, hold]
        rw [htake]
        simp
      · simp only [List.length_drop]
        omega
    have hstore := Bytes.store_append u old c (v ++ tail)
    rw [← hcur] at hstore
    have hnew : ({ s with
        ttyBuf := u ++ c :: (v ++ tail), ttyLen := s.ttyLen + 1, ttyCur := s.ttyCur + 1,
        changed := true } : Editor).Edits lineSize (u ++ [c]) v := by
      refine ⟨⟨tail, by simp⟩, ?_, ?_, ?_, ?_, ?_⟩
      · simp only [List.length_append, List.length_cons]
        omega
      · simp only [List.length_append, List.length_singleton]
        omega
      · simp only [List.length_append, List.length_singleton]
        omega
      · simp only [List.length_append, List.length_singleton]
        omega
      · have hno := edits.no_nul
        simp only [List.mem_append, List.mem_singleton] at hno ⊢
        tauto
    have hecho : echo s.ttyCur (s.ttyLen + 1)
        { s with ttyBuf := u ++ c :: (v ++ tail), ttyLen := s.ttyLen + 1 } = some () := by
      refine echo_spec (by omega) ?_
      simp only [List.length_append, List.length_cons]
      omega
    refine Or.inr ⟨u ++ c :: (v ++ tail), ?_, hnew⟩
    simp only [typech, if_pos hfull, hmove, hstore, hecho, Option.bind_eq_bind, Option.bind_some]
    rfl
  · exact Or.inl ⟨not_not.mp hfull, if_neg hfull⟩

/-- The character behind the cursor is deleted. -/
theorem delch_spec (edits : s.Edits lineSize u v) :
    delch s = some s ∨
      ∃ ttyBuf v', delch s =
          some { s with ttyBuf := ttyBuf, ttyLen := s.ttyLen - 1, changed := true } ∧
        ({ s with ttyBuf := ttyBuf, ttyLen := s.ttyLen - 1, changed := true } : Editor).Edits
          lineSize u v' := by
  obtain ⟨rest, hstored⟩ := edits.stored
  have hcur := edits.cur_eq
  have hlen := edits.len_eq
  have hlt := edits.len_lt
  have hsize := edits.size_eq
  cases v with
  | nil => exact Or.inl (if_neg (by rw [hcur, hlen]; simp))
  | cons x v =>
      rw [List.length_cons] at hlen hlt
      have hne : s.ttyCur ≠ s.ttyLen := by omega
      -- the characters behind it move down
      have hmove : moveTail (s.ttyCur + 1 != s.ttyLen) s.ttyBuf s.ttyCur (s.ttyCur + 1)
          s.ttyLen = some (u ++ (v ++ s.ttyBuf.drop (s.ttyCur + v.length))) := by
        rw [moveTail_spec _ _ _ (u ++ [x]) v rest (by rw [hstored]; simp)
          (by rw [hcur]; simp) (by omega) (by omega) (by
            intro hcond
            have hnone : s.ttyCur + 1 = s.ttyLen := by simpa using hcond
            exact List.length_eq_zero_iff.mp (by omega))]
        congr 2
        rw [hstored, hcur, List.take_left]
      have hsub : sizeSub s.ttyLen 1 = some (s.ttyLen - 1) := if_pos (by omega)
      have hnew : ({ s with
          ttyBuf := u ++ (v ++ s.ttyBuf.drop (s.ttyCur + v.length)), ttyLen := s.ttyLen - 1,
          changed := true } : Editor).Edits lineSize u v := by
        refine ⟨⟨_, rfl⟩, ?_, by simp only; omega, hcur, by omega, ?_⟩
        · simp only [List.length_append, List.length_drop]
          omega
        · have hno := edits.no_nul
          simp only [List.mem_append, List.mem_cons] at hno ⊢
          tauto
      have hecho : echo s.ttyCur (s.ttyLen - 1)
          { s with
            ttyBuf := u ++ (v ++ s.ttyBuf.drop (s.ttyCur + v.length)),
            ttyLen := s.ttyLen - 1 } = some () := by
        refine echo_spec (by omega) ?_
        simp only [List.length_append, List.length_drop]
        omega
      refine Or.inr ⟨_, v, ?_, hnew⟩
      simp only [delch, if_pos hne, hmove, hsub, hecho, Option.bind_eq_bind, Option.bind_some]
      rfl

end Operations

end LibnklabsPico.Readline
